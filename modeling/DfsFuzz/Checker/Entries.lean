import DfsFuzz.Symsc.FileTree

/-!
The entries of the emulated tree (`_dfs_traverse` of `checker.py`). The tree is unfolded level by level, without
the stack that the traversal carries from one entry to the next. The two agree down to the level where the
traversal stops, as long as no tuple is found again below itself.
-/

namespace DfsFuzz.Checker

open DfsFuzz.Symsc

/-- `[pathlist, name_persisted, meta_persisted, inode]`; the last tuple of the list is the entry's own. -/
structure Entry where
  above : List Tup
  cur : Tup
  namePersisted : Bool
  metaPersisted : Bool
  inode : Inode

namespace Entry

/-- `_create_path` -/
def path (e : Entry) : Str := joinPath ((e.above ++ [e.cur]).map Prod.snd)

/-- Entries are equal if their first two fields are: the number of the inode decides the others. -/
def same (e e' : Entry) : Bool := e.above = e'.above && e.cur = e'.cur && e.namePersisted = e'.namePersisted

def isRoot (e : Entry) : Bool := e.above.isEmpty

end Entry

def maxDfsDepth : Nat := 50

/-- The inode of a number, from memory or else from the disk, and whether it is the one from the disk. -/
def inodeOf (s : State) (inum : Nat) : Option (Inode × Bool) :=
  match s.mem.get? inum with
  | some i => some (i, false)
  | none => (s.disk.get? inum).map fun i => (i, true)

def childrenOf (i : Inode) : List Tup := i.pChildren ++ i.children ++ i.dChildren

/-- `_dfs_traverse` with `room` levels left, on the stack and the entries so far. A tuple that is on the stack
twice is removed where it is first. -/
def dfsTraverse (s : State) : Nat → Tup → Bool → List Tup × List Entry → Option (List Tup × List Entry)
  | 0, _, _, acc => some acc
  | room + 1, tup, pers, (stack, entries) => do
    let (i, onDisk) ← inodeOf s tup.1
    (childrenOf i).foldlM (fun acc ch => do
      let (stack, entries) ← dfsTraverse s room ch (decide (ch ∈ i.pChildren)) acc
      return (stack.erase ch, entries)) (stack ++ [tup], entries ++ [⟨stack, tup, pers, onDisk, i⟩])

def entryList (s : State) : Option (List Entry) := (dfsTraverse s (maxDfsDepth + 1) rootTup false ([], [])).map Prod.snd

/-! ### The tree -/

/-- The entry of `tup` and those below it, `levels` levels in all. -/
def entriesFrom (s : State) : Nat → List Tup → Tup → Bool → List Entry
  | 0, _, _, _ => []
  | levels + 1, above, tup, pers =>
    match inodeOf s tup.1 with
    | none => []
    | some (i, onDisk) => ⟨above, tup, pers, onDisk, i⟩ ::
        (childrenOf i).flatMap fun ch => entriesFrom s levels (above ++ [tup]) ch (decide (ch ∈ i.pChildren))

def upperLevels (s : State) (levels : Nat) : List Entry := entriesFrom s levels [] rootTup false

/-- The entries of the emulated tree, however deep they lie. -/
def Emulated (s : State) (e : Entry) : Prop := ∃ levels, e ∈ upperLevels s levels

/-- No entry has itself, or one above it, for a child. -/
def IsTree (s : State) : Prop := ∀ e, Emulated s e → ∀ ch ∈ childrenOf e.inode, ch ∉ e.above ++ [e.cur]

/-- The inodes of the upper levels are in memory or on the disk. -/
def Readable (s : State) : Nat → Tup → Prop
  | 0, _ => True
  | levels + 1, tup => ∃ found, inodeOf s tup.1 = some found ∧ ∀ ch ∈ childrenOf found.1, Readable s levels ch

variable {s : State}

variable {levels : Nat} {above : List Tup} {tup : Tup} {pers : Bool} {e : Entry}

theorem mem_entriesFrom_succ :
    e ∈ entriesFrom s (levels + 1) above tup pers ↔
      ∃ i onDisk, inodeOf s tup.1 = some (i, onDisk) ∧ (e = ⟨above, tup, pers, onDisk, i⟩ ∨
        ∃ ch ∈ childrenOf i, e ∈ entriesFrom s levels (above ++ [tup]) ch (decide (ch ∈ i.pChildren))) := by
  rw [entriesFrom]
  rcases inodeOf s tup.1 with _ | ⟨i, onDisk⟩
  · simp
  · simp only [List.mem_cons, List.mem_flatMap, Option.some.injEq, Prod.mk.injEq]
    constructor
    · intro inside
      exact ⟨i, onDisk, ⟨rfl, rfl⟩, inside⟩
    · rintro ⟨_, _, ⟨rfl, rfl⟩, inside⟩
      exact inside

/-- With `extra` levels more there are the entries that were there and lower ones. -/
theorem mem_entriesFrom_iff (extra : Nat) :
    e ∈ entriesFrom s levels above tup pers ↔
      e ∈ entriesFrom s (levels + extra) above tup pers ∧ e.above.length < above.length + levels := by
  induction levels generalizing above tup pers with
  | zero =>
    refine ⟨fun inside => (List.not_mem_nil inside).elim, fun ⟨inside, high⟩ => ?_⟩
    -- an entry lies below where the unfolding starts
    have low : ∀ (levels : Nat) (above : List Tup) (tup : Tup) (pers : Bool),
        e ∈ entriesFrom s levels above tup pers → above.length ≤ e.above.length := by
      intro levels
      induction levels with
      | zero => intro above tup pers inside; cases inside
      | succ levels ih =>
        intro above tup pers inside
        obtain ⟨i, onDisk, -, rfl | ⟨ch, -, below⟩⟩ := mem_entriesFrom_succ.mp inside
        · exact Nat.le_refl _
        · have deeper := ih _ _ _ below
          rw [List.length_append] at deeper
          omega
    have deep := low _ _ _ _ inside
    omega
  | succ levels ih =>
    rw [show levels + 1 + extra = levels + extra + 1 by omega, mem_entriesFrom_succ, mem_entriesFrom_succ]
    constructor
    · rintro ⟨i, onDisk, found, rfl | ⟨ch, child, below⟩⟩
      · exact ⟨⟨i, onDisk, found, .inl rfl⟩, by show above.length < _; omega⟩
      · obtain ⟨inside, high⟩ := ih.mp below
        rw [List.length_append, List.length_singleton] at high
        exact ⟨⟨i, onDisk, found, .inr ⟨ch, child, inside⟩⟩, by omega⟩
    · rintro ⟨⟨i, onDisk, found, rfl | ⟨ch, child, below⟩⟩, high⟩
      · exact ⟨i, onDisk, found, .inl rfl⟩
      · refine ⟨i, onDisk, found, .inr ⟨ch, child, ih.mpr ⟨below, ?_⟩⟩⟩
        rw [List.length_append, List.length_singleton]
        omega

theorem mem_upperLevels : e ∈ upperLevels s levels ↔ Emulated s e ∧ e.above.length < levels := by
  constructor
  · intro inside
    refine ⟨⟨levels, inside⟩, ?_⟩
    have high := (mem_entriesFrom_iff 0).mp inside
    simpa using high.2
  · rintro ⟨⟨other, inside⟩, high⟩
    refine (mem_entriesFrom_iff other).mpr ⟨?_, by simpa using high⟩
    rw [Nat.add_comm]
    exact ((mem_entriesFrom_iff levels).mp inside).1

theorem exists_on_level (inside : e ∈ entriesFrom s levels above tup pers) {level : Nat} (low : above.length ≤ level)
    (high : level ≤ e.above.length) : ∃ e' ∈ entriesFrom s levels above tup pers, e'.above.length = level := by
  induction levels generalizing above tup pers with
  | zero => cases inside
  | succ levels ih =>
    obtain ⟨i, onDisk, found, here⟩ := mem_entriesFrom_succ.mp inside
    have own : (⟨above, tup, pers, onDisk, i⟩ : Entry) ∈ entriesFrom s (levels + 1) above tup pers :=
      mem_entriesFrom_succ.mpr ⟨i, onDisk, found, .inl rfl⟩
    by_cases top : level = above.length
    · exact ⟨_, own, top.symm⟩
    · obtain rfl | ⟨ch, child, below⟩ := here
      · have same : level ≤ above.length := high
        omega
      · obtain ⟨e', inside', depth⟩ := ih below (by rw [List.length_append, List.length_singleton]; omega)
        exact ⟨e', mem_entriesFrom_succ.mpr ⟨i, onDisk, found, .inr ⟨ch, child, inside'⟩⟩, depth⟩

theorem Emulated.mem_upperLevels_of_empty (emulated : Emulated s e)
    (empty : ∀ e ∈ upperLevels s (levels + 1), e.above.length ≠ levels) : e ∈ upperLevels s levels := by
  refine mem_upperLevels.mpr ⟨emulated, ?_⟩
  by_contra deep
  obtain ⟨levels', inside⟩ := emulated
  obtain ⟨e', inside', depth⟩ := exists_on_level inside (Nat.zero_le levels) (Nat.not_lt.mp deep)
  exact empty e' (mem_upperLevels.mpr ⟨⟨levels', inside'⟩, by omega⟩) depth

/-! ### The traversal lists the upper levels -/

/-- The entries below have no child that is above them. -/
def TreeBelow (s : State) (above : List Tup) (tup : Tup) (pers : Bool) : Prop :=
  ∀ levels, ∀ e ∈ entriesFrom s levels above tup pers, ∀ ch ∈ childrenOf e.inode, ch ∉ e.above ++ [e.cur]

theorem TreeBelow.child {onDisk : Bool} {i : Inode} (tree : TreeBelow s above tup pers)
    (found : inodeOf s tup.1 = some (i, onDisk)) {ch : Tup} (child : ch ∈ childrenOf i) :
    TreeBelow s (above ++ [tup]) ch (decide (ch ∈ i.pChildren)) := by
  intro levels e inside
  exact tree (levels + 1) e (mem_entriesFrom_succ.mpr ⟨i, onDisk, found, .inr ⟨ch, child, inside⟩⟩)

theorem TreeBelow.fresh {onDisk : Bool} {i : Inode} (tree : TreeBelow s above tup pers)
    (found : inodeOf s tup.1 = some (i, onDisk)) {ch : Tup} (child : ch ∈ childrenOf i) : ch ∉ above ++ [tup] :=
  tree 1 ⟨above, tup, pers, onDisk, i⟩ (mem_entriesFrom_succ.mpr ⟨i, onDisk, found, .inl rfl⟩) ch child

/-- Children that leave the stack as it is put their entries behind each other. -/
theorem foldlM_children (visit : Tup → List Tup × List Entry → Option (List Tup × List Entry)) {listed : Tup → List Entry}
    {stack : List Tup} {children : List Tup} (each : ∀ ch ∈ children, ∀ entries,
      visit ch (stack, entries) = some (stack, entries ++ listed ch)) (entries : List Entry) :
    children.foldlM (fun acc ch => visit ch acc) (stack, entries) = some (stack, entries ++ children.flatMap listed) := by
  induction children generalizing entries with
  | nil => simp
  | cons ch children ih =>
    rw [List.forall_mem_cons] at each
    rw [List.foldlM_cons, each.1, Option.bind_eq_bind, Option.bind_some, ih each.2, List.flatMap_cons, List.append_assoc]

/-- The traversal of a tree, when its tuple is taken off the stack again. -/
theorem dfsTraverse_erase {room : Nat} {stack : List Tup} (fresh : tup ∉ stack) (tree : TreeBelow s stack tup pers)
    (readable : Readable s room tup) (entries : List Entry) :
    (dfsTraverse s room tup pers (stack, entries)).map (fun acc => (acc.1.erase tup, acc.2)) =
      some (stack, entries ++ entriesFrom s room stack tup pers) := by
  induction room generalizing tup pers stack entries with
  | zero => simp [dfsTraverse, entriesFrom, List.erase_of_not_mem fresh]
  | succ room ih =>
    obtain ⟨⟨i, onDisk⟩, found, below⟩ := readable
    have listed := foldlM_children
      (fun ch acc => (dfsTraverse s room ch (decide (ch ∈ i.pChildren)) acc).map fun acc => (acc.1.erase ch, acc.2))
      (fun ch child => ih (tree.fresh found child) (tree.child found child) (below ch child))
      (entries ++ [⟨stack, tup, pers, onDisk, i⟩])
    rw [dfsTraverse, entriesFrom, found]
    simp only [Option.map_eq_bind, Function.comp_def, Option.bind_eq_bind, Option.bind_some, pure] at listed ⊢
    rw [listed, Option.bind_some, List.erase_append_right _ fresh]
    simp

theorem foldlM_steps {α β : Type} {f : α → β → Option α} {l : List β} {a after : α} (run : l.foldlM f a = some after) :
    ∀ x ∈ l, ∃ b c, f b x = some c := by
  induction l generalizing a with
  | nil => exact fun x member => (List.not_mem_nil member).elim
  | cons x l ih =>
    rw [List.foldlM_cons] at run
    obtain ⟨b, first, run⟩ := Option.bind_eq_some_iff.mp run
    rw [List.forall_mem_cons]
    exact ⟨⟨a, b, first⟩, ih run⟩

theorem dfsTraverse_readable {room : Nat} {acc after : List Tup × List Entry}
    (run : dfsTraverse s room tup pers acc = some after) : Readable s room tup := by
  induction room generalizing tup pers acc after with
  | zero => trivial
  | succ room ih =>
    rw [dfsTraverse] at run
    obtain ⟨inode, found, run⟩ := Option.bind_eq_some_iff.mp run
    refine ⟨inode, found, fun ch child => ?_⟩
    obtain ⟨acc, after, visited⟩ := foldlM_steps run ch child
    obtain ⟨deeper, visited, -⟩ := Option.bind_eq_some_iff.mp visited
    exact ih visited

variable {l : List Entry}

theorem entryList_eq_some_iff (tree : IsTree s) :
    entryList s = some l ↔ Readable s (maxDfsDepth + 1) rootTup ∧ l = upperLevels s (maxDfsDepth + 1) := by
  have below : TreeBelow s [] rootTup false := fun levels e inside => tree e ⟨levels, inside⟩
  have listed (readable : Readable s (maxDfsDepth + 1) rootTup) : entryList s = some (upperLevels s (maxDfsDepth + 1)) := by
    have run := dfsTraverse_erase List.not_mem_nil below readable []
    obtain ⟨acc, run, same⟩ := Option.map_eq_some_iff.mp run
    rw [entryList, run, Option.map_some]
    exact congrArg some (Prod.mk.inj same).2
  constructor
  · intro run
    have readable : Readable s (maxDfsDepth + 1) rootTup := by
      obtain ⟨acc, run, -⟩ := Option.map_eq_some_iff.mp run
      exact dfsTraverse_readable run
    exact ⟨readable, Option.some.inj (run.symm.trans (listed readable))⟩
  · rintro ⟨readable, rfl⟩
    exact listed readable

/-- A line of the snapshot: it has a path, and more fields. -/
structure Line where
  path : Str
  rest : List Str

def Line.fields (line : Line) : List Str := line.path :: line.rest

def InSnapshot (lines : List Line) (path : Str) : Prop := ∃ line ∈ lines, line.path = path

instance (lines : List Line) (path : Str) : Decidable (InSnapshot lines path) :=
  inferInstanceAs (Decidable (∃ line ∈ lines, line.path = path))

abbrev Dep := List (Str × Nat)

/-- The dependency for one step of the history of an inode. -/
def depOf (entries : List Entry) (e : Entry) (hist : Str × Str) : Option Dep :=
  let named (other : Str) : Dep := (entries.filter fun e' => e'.cur = (e.cur.1, other)).map fun e' => (e'.path, e'.cur.1)
  if hist.2 = e.cur.2 then some (named hist.1 ++ [(e.path, e.cur.1)])
  else if hist.1 = e.cur.2 then some ((e.path, e.cur.1) :: named hist.2)
  else none

/-- A path is looked for among tuples, so no entry is passed over for one before. -/
def findDeps (entries : List Entry) : List Dep :=
  entries.flatMap fun e =>
    if e.isRoot || e.namePersisted then [] else e.inode.uName.filterMap (depOf entries e)

/-- The repeated are removed from the list that is run over. -/
def dropRepeated : Nat → Nat → List Dep → List Dep
  | 0, _, deps => deps
  | fuel + 1, i, deps =>
    match deps[i]? with
    | none => deps
    | some dep => dropRepeated fuel (i + 1) (if 1 < deps.count dep then deps.erase dep else deps)

/-- A path is put on the list, and taken off for each line of the snapshot that has it. -/
def abandonAbsent (lines : List Line) (abandoned : Dep) (tup : Str × Nat) : Dep :=
  lines.foldl (fun l line => if line.path = tup.1 then l.erase tup else l) (abandoned ++ [tup])

/-- Directories without a persisted name, once for every other entry of the inode. -/
def otherNames (entries : List Entry) : Dep :=
  entries.flatMap fun e =>
    if e.isRoot || e.inode.type ≠ .dir || e.namePersisted then []
    else (entries.filter fun e' => !e.same e' && e'.cur.1 = e.cur.1).map fun _ => (e.path, e.cur.1)

/-- The last path of a dependency that the snapshot has as often as there are paths in it. -/
def previousNames (lines : List Line) (deps : List Dep) : Dep :=
  deps.filterMap fun dep =>
    if (dep.map fun tup => lines.countP fun line => line.path = tup.1).sum = dep.length then dep.getLast? else none

def abandonList (lines : List Line) (entries : List Entry) : Dep :=
  let deps := dropRepeated (findDeps entries).length 0 (findDeps entries)
  deps.foldl (fun l dep => dep.foldl (abandonAbsent lines) l) [] ++ otherNames entries ++ previousNames lines deps

/-- An entry is removed for every abandoned path that its path starts with, as a text. -/
def finalEntries (lines : List Line) (entries : List Entry) : List Entry :=
  entries.foldl (fun final e =>
    (abandonList lines entries).foldl (fun l tup => if tup.1 <+: e.path then l.eraseP e.same else l) (final ++ [e])) []

/-! ### The entries that are left -/

/-- The path starts, as a text, with one that may be gone. -/
def CutOff (abandoned : Dep) (path : Str) : Prop := ∃ tup ∈ abandoned, tup.1 <+: path

instance (abandoned : Dep) (path : Str) : Decidable (CutOff abandoned path) :=
  inferInstanceAs (Decidable (∃ tup ∈ abandoned, tup.1 <+: path))

theorem Entry.same_path {e' : Entry} (same : e.same e' = true) : e'.path = e.path := by
  simp only [Entry.same, Bool.and_eq_true, decide_eq_true_eq] at same
  rw [Entry.path, Entry.path, same.1.1, same.1.2]

variable {abandoned : Dep} {final : List Entry}

/-- Removing an entry with the path of another one, from entries that are left. -/
theorem eraseP_kept (kept : ∀ e' ∈ final, ¬ CutOff abandoned e'.path) (cut : CutOff abandoned e.path) :
    final.eraseP e.same = final := by
  refine List.eraseP_of_forall_not fun e' member => ?_
  intro same
  exact kept e' member (by rw [e.same_path same]; exact cut)

theorem eraseP_fold {later : Dep} (kept : ∀ e' ∈ final, ¬ CutOff abandoned e'.path)
    (part : ∀ tup ∈ later, tup ∈ abandoned) :
    later.foldl (fun l tup => if tup.1 <+: e.path then l.eraseP e.same else l) final = final := by
  induction later with
  | nil => rfl
  | cons tup later ih =>
    rw [List.forall_mem_cons] at part
    rw [List.foldl_cons]
    split
    · rename_i starts
      rw [eraseP_kept kept ⟨tup, part.1, starts⟩, ih part.2]
    · exact ih part.2

/-- An entry is put on the list, and taken off again where it is cut off. -/
theorem addFinal_eq {later : Dep} (kept : ∀ e' ∈ final, ¬ CutOff abandoned e'.path)
    (part : ∀ tup ∈ later, tup ∈ abandoned) :
    later.foldl (fun l tup => if tup.1 <+: e.path then l.eraseP e.same else l) (final ++ [e]) =
      if CutOff later e.path then final else final ++ [e] := by
  induction later with
  | nil => simp [CutOff]
  | cons tup later ih =>
    rw [List.forall_mem_cons] at part
    rw [List.foldl_cons]
    by_cases starts : tup.1 <+: e.path
    · have cut : CutOff (tup :: later) e.path := ⟨tup, List.mem_cons_self, starts⟩
      have alone : e.same e = true := by simp [Entry.same]
      have erased : (final ++ [e]).eraseP e.same = final := by
        rw [List.eraseP_append_right _ fun e' member same => ?_]
        · simp [alone]
        · exact kept e' member (by rw [e.same_path same]; exact ⟨tup, part.1, starts⟩)
      rw [if_pos starts, erased, eraseP_fold kept part.2, if_pos cut]
    · have same : CutOff (tup :: later) e.path ↔ CutOff later e.path := by
        simp [CutOff, starts]
      rw [if_neg starts, ih part.2]
      simp only [same]

theorem finalEntries_eq (lines : List Line) (entries : List Entry) :
    finalEntries lines entries = entries.filter fun e => ¬ CutOff (abandonList lines entries) e.path := by
  have folded : ∀ (rest final : List Entry), (∀ e' ∈ final, ¬ CutOff (abandonList lines entries) e'.path) →
      rest.foldl (fun final e => (abandonList lines entries).foldl
        (fun l tup => if tup.1 <+: e.path then l.eraseP e.same else l) (final ++ [e])) final =
        final ++ rest.filter fun e => ¬ CutOff (abandonList lines entries) e.path := by
    intro rest
    induction rest with
    | nil => intro final _; simp
    | cons e rest ih =>
      intro final kept
      rw [List.foldl_cons, addFinal_eq kept fun _ member => member]
      by_cases cut : CutOff (abandonList lines entries) e.path
      · rw [if_pos cut, ih final kept]
        simp [cut]
      · rw [if_neg cut, ih (final ++ [e])]
        · simp [cut]
        · intro e' member
          rcases List.mem_append.mp member with old | new
          · exact kept e' old
          · rw [List.mem_singleton.mp new]
            exact cut
  exact folded entries [] fun _ member => by cases member

/-! ### The abandoned paths -/

/-- An entry below the root whose name is not persisted. -/
structure Unsettled (l : List Entry) (e : Entry) : Prop where
  member : e ∈ l
  below : e.isRoot = false
  name : e.namePersisted = false

/-- The entries of the inode under the other name. -/
def namesakes (l : List Entry) (e : Entry) (other : Str) : List Entry := l.filter fun e' => e'.cur = (e.cur.1, other)

/-- Entries of which one should exist, by one step of the history of the inode: those of the old name come first. -/
inductive Alternatives (l : List Entry) (e : Entry) : List Entry → Prop
  | renamedTo {old : Str} (step : (old, e.cur.2) ∈ e.inode.uName) : Alternatives l e (namesakes l e old ++ [e])
  | renamedFrom {new : Str} (step : (e.cur.2, new) ∈ e.inode.uName) (other : new ≠ e.cur.2) :
      Alternatives l e (e :: namesakes l e new)

inductive Abandoned (lines : List Line) (l : List Entry) : Str → Prop
  | absent {e a : Entry} {group : List Entry} (unsettled : Unsettled l e) (alternatives : Alternatives l e group) (member : a ∈ group)
      (missing : ¬ InSnapshot lines a.path) : Abandoned lines l a.path
  | otherName {e e' : Entry} (unsettled : Unsettled l e) (dir : e.inode.type = .dir) (member : e' ∈ l)
      (differ : e.same e' = false) (inode : e'.cur.1 = e.cur.1) : Abandoned lines l e.path
  | previous {e a : Entry} {group : List Entry} (unsettled : Unsettled l e) (alternatives : Alternatives l e group)
      (all : (group.map fun a => lines.countP fun line => line.path = a.path).sum = group.length)
      (last : group.getLast? = some a) : Abandoned lines l a.path

def asDep (e : Entry) (group : List Entry) : Dep := group.map fun a => (a.path, e.cur.1)

theorem depOf_eq_some_iff {hist : Str × Str} {dep : Dep} :
    depOf l e hist = some dep ↔
      (hist.2 = e.cur.2 ∧ dep = asDep e (namesakes l e hist.1 ++ [e])) ∨
      (hist.2 ≠ e.cur.2 ∧ hist.1 = e.cur.2 ∧ dep = asDep e (e :: namesakes l e hist.2)) := by
  have named (other : Str) : (l.filter fun e' => e'.cur = (e.cur.1, other)).map (fun e' => (e'.path, e'.cur.1)) =
      asDep e (namesakes l e other) := by
    apply List.map_congr_left
    intro e' member
    have cur : e'.cur = (e.cur.1, other) := of_decide_eq_true (List.mem_filter.mp member).2
    rw [cur]
  simp only [depOf, named]
  by_cases new : hist.2 = e.cur.2
  · simp [new, asDep, eq_comm]
  · by_cases old : hist.1 = e.cur.2
    · simp [new, old, asDep, eq_comm]
    · simp [new, old]

theorem mem_findDeps {dep : Dep} :
    dep ∈ findDeps l ↔ ∃ e group, Unsettled l e ∧ Alternatives l e group ∧ dep = asDep e group := by
  simp only [findDeps, List.mem_flatMap]
  constructor
  · rintro ⟨e, member, inside⟩
    by_cases passed : e.isRoot || e.namePersisted
    · rw [if_pos passed] at inside
      cases inside
    · rw [if_neg passed] at inside
      have unsettled : Unsettled l e := by
        simp only [Bool.or_eq_true, not_or, Bool.not_eq_true] at passed
        exact ⟨member, passed.1, passed.2⟩
      obtain ⟨⟨old, new⟩, step, made⟩ := List.mem_filterMap.mp inside
      obtain ⟨same, rfl⟩ | ⟨differ, same, rfl⟩ := depOf_eq_some_iff.mp made
      · exact ⟨e, _, unsettled, .renamedTo (same ▸ step), rfl⟩
      · exact ⟨e, _, unsettled, .renamedFrom (same ▸ step) differ, rfl⟩
  · rintro ⟨e, group, unsettled, alternatives, rfl⟩
    refine ⟨e, unsettled.member, ?_⟩
    rw [if_neg (by simp [unsettled.below, unsettled.name]), List.mem_filterMap]
    cases alternatives with
    | renamedTo step => exact ⟨_, step, depOf_eq_some_iff.mpr (.inl ⟨rfl, rfl⟩)⟩
    | renamedFrom step other => exact ⟨_, step, depOf_eq_some_iff.mpr (.inr ⟨other, rfl, rfl⟩)⟩

theorem mem_dropRepeated {fuel i : Nat} {deps : List Dep} {dep : Dep} : dep ∈ dropRepeated fuel i deps ↔ dep ∈ deps := by
  induction fuel generalizing i deps with
  | zero => rfl
  | succ fuel ih =>
    rw [dropRepeated]
    cases deps[i]? with
    | none => rfl
    | some other =>
      show dep ∈ dropRepeated fuel (i + 1) (if 1 < deps.count other then deps.erase other else deps) ↔ _
      rw [ih]
      split
      · rename_i twice
        by_cases same : dep = other
        · subst same
          have rest : 0 < (deps.erase dep).count dep := by
            rw [List.count_erase_self]
            omega
          exact iff_of_true (List.count_pos_iff.mp rest) (List.count_pos_iff.mp (by omega))
        · exact List.mem_erase_of_ne same
      · rfl

theorem abandonAbsent_eq {lines : List Line} {tup : Str × Nat}
    (absent : ∀ other ∈ abandoned, ¬ InSnapshot lines other.1) :
    abandonAbsent lines abandoned tup = if InSnapshot lines tup.1 then abandoned else abandoned ++ [tup] := by
  have erased : ∀ (lines : List Line) {abandoned : Dep}, tup ∉ abandoned →
      lines.foldl (fun l line => if line.path = tup.1 then l.erase tup else l) abandoned = abandoned := by
    intro lines abandoned fresh
    induction lines with
    | nil => rfl
    | cons line lines ih =>
      rw [List.foldl_cons, List.erase_of_not_mem fresh, ite_self]
      exact ih
  have fold : ∀ lines : List Line, (InSnapshot lines tup.1 → tup ∉ abandoned) →
      lines.foldl (fun l line => if line.path = tup.1 then l.erase tup else l) (abandoned ++ [tup]) =
        if InSnapshot lines tup.1 then abandoned else abandoned ++ [tup] := by
    intro lines fresh
    induction lines with
    | nil => simp [InSnapshot]
    | cons line lines ih =>
      rw [List.foldl_cons]
      by_cases here : line.path = tup.1
      · have inside : InSnapshot (line :: lines) tup.1 := ⟨line, List.mem_cons_self, here⟩
        rw [if_pos here, if_pos inside, List.erase_append_right _ (fresh inside), List.erase_cons_head, List.append_nil,
          erased lines (fresh inside)]
      · have same : InSnapshot (line :: lines) tup.1 ↔ InSnapshot lines tup.1 := by
          simp [InSnapshot, here]
        rw [if_neg here, ih (fun inside => fresh (same.mpr inside))]
        simp only [same]
  exact fold lines fun inside member => absent tup member inside

theorem absentPaths_eq {lines : List Line} (deps : List Dep) :
    deps.foldl (fun l dep => dep.foldl (abandonAbsent lines) l) [] = deps.flatten.filter fun tup => ¬ InSnapshot lines tup.1 := by
  have one : ∀ (dep abandoned : Dep), (∀ other ∈ abandoned, ¬ InSnapshot lines other.1) →
      dep.foldl (abandonAbsent lines) abandoned = abandoned ++ dep.filter fun tup => ¬ InSnapshot lines tup.1 := by
    intro dep
    induction dep with
    | nil => simp
    | cons tup dep ih =>
      intro abandoned absent
      rw [List.foldl_cons, abandonAbsent_eq absent]
      by_cases inside : InSnapshot lines tup.1
      · rw [if_pos inside, ih abandoned absent]
        simp [inside]
      · rw [if_neg inside, ih]
        · simp [inside]
        · simpa [or_imp, forall_and, inside] using absent
  rw [← List.foldl_flatten, one _ _ (by simp), List.nil_append]

theorem mem_otherNames {tup : Str × Nat} :
    tup ∈ otherNames l ↔ ∃ e e', Unsettled l e ∧ e.inode.type = .dir ∧ e' ∈ l ∧ e.same e' = false ∧ e'.cur.1 = e.cur.1 ∧
      tup = (e.path, e.cur.1) := by
  simp only [otherNames, List.mem_flatMap]
  constructor
  · rintro ⟨e, member, inside⟩
    split at inside
    · cases inside
    · rename_i not_passed
      simp only [ne_eq, Bool.or_eq_true, decide_eq_true_eq, not_or, not_not, Bool.not_eq_true] at not_passed
      obtain ⟨e', other, rfl⟩ := List.mem_map.mp inside
      obtain ⟨member', differ⟩ := List.mem_filter.mp other
      simp only [Bool.and_eq_true, Bool.not_eq_true', decide_eq_true_eq] at differ
      exact ⟨e, e', ⟨member, not_passed.1.1, not_passed.2⟩, not_passed.1.2, member', differ.1, differ.2, rfl⟩
  · rintro ⟨e, e', unsettled, dir, member', differ, inode, rfl⟩
    refine ⟨e, unsettled.member, ?_⟩
    rw [if_neg (by simp [unsettled.below, unsettled.name, dir])]
    exact List.mem_map.mpr ⟨e', List.mem_filter.mpr ⟨member', by simp [differ, inode]⟩, rfl⟩

theorem mem_abandonList {lines : List Line} {path : Str} :
    (∃ tup ∈ abandonList lines l, tup.1 = path) ↔ Abandoned lines l path := by
  simp only [abandonList, absentPaths_eq, List.mem_append, List.mem_filter, List.mem_flatten, mem_dropRepeated, mem_findDeps,
    mem_otherNames, previousNames, List.mem_filterMap, decide_eq_true_eq]
  constructor
  · rintro ⟨tup, (⟨⟨_, ⟨e, group, unsettled, alternatives, rfl⟩, inside⟩, missing⟩ | ⟨e, e', unsettled, dir, member, differ, inode, rfl⟩) |
      ⟨_, ⟨e, group, unsettled, alternatives, rfl⟩, last⟩, rfl⟩
    · obtain ⟨a, member, rfl⟩ := List.mem_map.mp inside
      exact .absent unsettled alternatives member missing
    · exact .otherName unsettled dir member differ inode
    · split at last
      · rename_i all
        rw [asDep, List.getLast?_map] at last
        obtain ⟨a, here, rfl⟩ := Option.map_eq_some_iff.mp last
        apply Abandoned.previous unsettled alternatives _ here
        simpa [asDep, Function.comp_def] using all
      · cases last
  · intro gone
    cases gone with
    | @absent e a group unsettled alternatives member missing =>
      exact ⟨(a.path, e.cur.1), .inl (.inl ⟨⟨_, ⟨e, group, unsettled, alternatives, rfl⟩, List.mem_map.mpr ⟨a, member, rfl⟩⟩, missing⟩), rfl⟩
    | @otherName e e' unsettled dir member differ inode =>
      exact ⟨_, .inl (.inr ⟨e, e', unsettled, dir, member, differ, inode, rfl⟩), rfl⟩
    | @previous e a group unsettled alternatives all last =>
      refine ⟨(a.path, e.cur.1), .inr ⟨_, ⟨e, group, unsettled, alternatives, rfl⟩, ?_⟩, rfl⟩
      rw [if_pos (by simpa [asDep, Function.comp_def] using all), asDep, List.getLast?_map, last]
      rfl

end DfsFuzz.Checker
