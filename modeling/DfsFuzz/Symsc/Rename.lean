import DfsFuzz.Symsc.ErrorExits

/-!
`rename` (`syscalls.py`) on namespaces: `DENTRY`, the child lists of the inodes and the nodes of the file
tree each say which paths there are. The call either raises, in `modify_node`, or gives up before its first
effect; so no run of it moves a path.
-/

namespace DfsFuzz.Symsc

open Effects

/-- The path of a list of names below the root. -/
def pathOf (names : List Str) : Str := joinPath (['.'] :: names)

def AreNames (names : List Str) : Prop := ∀ name ∈ names, isName name

namespace State

/-- The inode that `DENTRY` has for a path. -/
def at? (s : State) (names : List Str) : Option Nat := s.dentry.get? (pathOf names)

/-- The entries of a directory, by its child lists. -/
def listed (s : State) (dir : Nat) (tup : Tup) : Prop := ∃ i, s.inode? dir = some i ∧ tup ∈ i.pChildren ++ i.children

/-- The entries of a directory, by the nodes of the file tree. -/
def grown (s : State) (dir tup : Tup) : Prop := ∃ nodes node, s.ft.get? dir = some nodes ∧ node ∈ nodes ∧ tup ∈ node.children

end State

structure WellFormed (s : State) : Prop where
  root : s.at? [] = some 0
  keys : ∀ path id, s.dentry.get? path = some id → ∃ names, AreNames names ∧ path = pathOf names
  lists : ∀ names name id, AreNames (names ++ [name]) →
    (s.at? (names ++ [name]) = some id ↔ ∃ dir, s.at? names = some dir ∧ s.listed dir (id, name))
  tree : ∀ names name id, AreNames (names ++ [name]) →
    (s.at? (names ++ [name]) = some id ↔ ∃ dir, s.at? names = some dir ∧ s.grown (dir, names.getLastD ['.']) (id, name))

/-- `rename` succeeds by POSIX. -/
structure RenameAllowed (s : State) (old new : List Str) (id : Nat) : Prop where
  names : AreNames old ∧ AreNames new
  below : old ≠ [] ∧ new ≠ []
  found : s.at? old = some id
  different : old ≠ new
  parent : ∃ dir i, s.at? new.dropLast = some dir ∧ s.inode? dir = some i ∧ i.type = .dir
  outside : ¬ old <+: new.dropLast
  replaced : ∀ idNew i j, s.at? new = some idNew → s.inode? id = some i → s.inode? idNew = some j →
    (i.type = .dir ↔ j.type = .dir) ∧ (j.type = .dir → ∀ tup, ¬ s.listed idNew tup)

/-- The call returns, and one subtree has moved. -/
def RenameMoves (env : PyEnv) (w : Ctx) (argv : List Str) (old new : List Str) : Prop :=
  ∃ ret w', rename env argv w = some (ret, w') ∧
    (∀ q, w'.st.at? (new ++ q) = w.st.at? (old ++ q)) ∧
    (∀ q, w'.st.at? (old ++ q) = none) ∧
    (∀ other, ¬ old <+: other → ¬ new <+: other → w'.st.at? other = w.st.at? other) ∧
    WellFormed w'.st

/-- The child lists determine the paths, by induction over the names from the root. -/
theorem WellFormed.at?_eq {s s' : State} (well : WellFormed s) (well' : WellFormed s')
    (same : ∀ dir tup, s'.listed dir tup ↔ s.listed dir tup) {names : List Str} (valid : AreNames names) :
    s'.at? names = s.at? names := by
  induction names using List.reverseRecOn with
  | nil => rw [well.root, well'.root]
  | append_singleton names name ih =>
    have above := ih fun n member => valid n (List.mem_append_left _ member)
    refine Option.ext fun id => ?_
    rw [well'.lists names name id valid, well.lists names name id valid, above]
    simp only [same]

theorem rename_returns (env : PyEnv) (argv : List Str) : Never (· ≠ .int 1) (rename env argv) := by
  have one : Never (· ≠ Ret.int 1) (pure (.int 1) : M Ret) := Never.pure fun other => other rfl
  have refuses (f : Unit → M Ret) : Never (· ≠ Ret.int 1) (modifyNode >>= f) := by
    intro w ret w' run
    cases run
  rw [rename]
  split
  · exact one
  refine .bind fun _ => .bind fun token => .bind fun raw => ?_
  split
  · refine .bind fun token => .bind fun raw => ?_
    split
    · refine .bind fun parentOld => .bind fun pathOld => .bind fun parentNew => .bind fun pathNew => ?_
      split
      · exact one
      split
      · exact one
      refine .bind fun s => ?_
      split
      · split
        · split
          · refine .bind fun dirOld => ?_
            split
            · refine .bind fun dirNew => ?_
              split
              · refine .bind fun dir => ?_
                split
                · exact one
                refine .bind fun found => .bind fun above => ?_
                split
                · exact one
                refine .bind fun old => ?_
                split
                · refine .bind fun new => .bind fun s => .bind fun nodes => ?_
                  extract_lets -underBinder inner
                  split
                  · exact one
                  split
                  · exact one
                  split
                  · exact one
                  · exact refuses _
                · exact refuses _
              · exact one
            · exact one
          · exact one
        · exact one
      · exact one
    · exact one
  · exact one

theorem rename_listed {env : PyEnv} {argv : List Str} {w w' : Ctx} {ret : Ret} (run : rename env argv w = some (ret, w'))
    (dir : Nat) (tup : Tup) : w'.st.listed dir tup ↔ w.st.listed dir tup := by
  have one : ret = .int 1 := not_not.mp (rename_returns env argv run)
  have moved := (rename_moved env argv run (by rw [one]; rfl)).fixed
  rw [moved]
  exact Iff.rfl

/-- No call moves a path of a namespace, whatever it is asked to move. -/
theorem rename_never_moves (env : PyEnv) {w : Ctx} {old new : List Str} {id : Nat} (well : WellFormed w.st)
    (allowed : RenameAllowed w.st old new id) (argv : List Str) : ¬ RenameMoves env w argv old new := by
  rintro ⟨ret, w', run, -, gone, -, well'⟩
  have stays := well.at?_eq well' (rename_listed run) allowed.names.1
  have removed := gone []
  rw [List.append_nil, stays, allowed.found] at removed
  cases removed

/-! ### A directory in the root -/

theorem isName_slash {name : Str} (valid : isName name = true) : '/' ∉ name := by
  rw [isName, Bool.and_eq_true, decide_eq_true_eq, decide_eq_true_eq] at valid
  exact valid.2

theorem splitPath_pathOf {names : List Str} (valid : AreNames names) : splitPath (pathOf names) = ['.'] :: names := by
  refine Py.split_intercalate (List.cons_ne_nil _ _) fun name member => ?_
  rcases List.mem_cons.mp member with rfl | inside
  · decide
  · exact isName_slash (valid name inside)

theorem pathOf_injective {names names' : List Str} (valid : AreNames names) (valid' : AreNames names')
    (same : pathOf names = pathOf names') : names = names' := by
  have parts := congrArg splitPath same
  rw [splitPath_pathOf valid, splitPath_pathOf valid'] at parts
  exact (List.cons.inj parts).2

theorem noNames : AreNames [] := fun _ member => absurd member List.not_mem_nil

theorem dName : AreNames [['d']] := by
  unfold AreNames
  decide

theorem eName : AreNames [['e']] := by
  unfold AreNames
  decide

structure OneDir (s : State) : Prop where
  dentry : s.dentry.entries = [(['.'], 0), ("./d".toList, 1)]
  root : (s.inode? 0).map (fun i => (i.type, i.pChildren ++ i.children)) = some (.dir, [(1, ['d'])])
  dir : (s.inode? 1).map (fun i => (i.type, i.pChildren ++ i.children)) = some (.dir, [])
  rootNode : (s.ft.get? rootTup).map (fun nodes => nodes.map Node.children) = some [[(1, ['d'])]]
  dirNode : (s.ft.get? (1, ['d'])).map (fun nodes => nodes.map Node.children) = some [[]]

namespace OneDir

variable {s : State}

theorem at?_iff (one : OneDir s) {names : List Str} (valid : AreNames names) (id : Nat) :
    s.at? names = some id ↔ (names = [] ∧ id = 0) ∨ (names = [['d']] ∧ id = 1) := by
  have root : ['.'] = pathOf names ↔ names = [] :=
    ⟨fun same => (pathOf_injective noNames valid same).symm, fun empty => by rw [empty]; decide⟩
  have dir : "./d".toList = pathOf names ↔ names = [['d']] :=
    ⟨fun same => (pathOf_injective dName valid same).symm, fun d => by rw [d]; decide⟩
  rw [State.at?, Py.Dict.get?, one.dentry, Py.Dict.lookupIn, Py.Dict.lookupIn, Py.Dict.lookupIn]
  simp only [root, dir]
  by_cases empty : names = []
  · simp [empty, eq_comm]
  · by_cases d : names = [['d']]
    · simp [d, eq_comm]
    · simp [empty, d]

theorem listed_iff (one : OneDir s) (tup : Tup) : (s.listed 0 tup ↔ tup = (1, ['d'])) ∧ ¬ s.listed 1 tup := by
  obtain ⟨i, found, lists⟩ := Option.map_eq_some_iff.mp one.root
  obtain ⟨j, found', lists'⟩ := Option.map_eq_some_iff.mp one.dir
  rw [Prod.mk.injEq] at lists lists'
  constructor
  · rw [State.listed, found]
    simp only [Option.some.injEq, exists_eq_left', lists.2, List.mem_singleton]
  · rw [State.listed, found']
    simp only [Option.some.injEq, exists_eq_left', lists'.2, List.not_mem_nil, not_false_eq_true]

theorem grown_iff (one : OneDir s) (tup : Tup) : (s.grown rootTup tup ↔ tup = (1, ['d'])) ∧ ¬ s.grown (1, ['d']) tup := by
  obtain ⟨nodes, found, children⟩ := Option.map_eq_some_iff.mp one.rootNode
  obtain ⟨nodes', found', children'⟩ := Option.map_eq_some_iff.mp one.dirNode
  obtain ⟨node, rfl, first⟩ := List.map_eq_singleton_iff.mp children
  obtain ⟨node', rfl, first'⟩ := List.map_eq_singleton_iff.mp children'
  constructor
  · simp [State.grown, found, first]
  · simp [State.grown, found', first']

theorem at?_append_iff (one : OneDir s) {names : List Str} {name : Str} (valid : AreNames (names ++ [name])) (id : Nat) :
    s.at? (names ++ [name]) = some id ↔ names = [] ∧ (id, name) = (1, ['d']) := by
  rw [one.at?_iff valid]
  cases names with
  | nil => simp [and_comm]
  | cons first rest => simp

theorem wellFormed (one : OneDir s) : WellFormed s where
  root := (one.at?_iff noNames 0).mpr (.inl ⟨rfl, rfl⟩)
  keys path id found := by
    have member : (path, id) ∈ s.dentry.entries := Py.Dict.mem_entries.mpr found
    rw [one.dentry] at member
    rcases List.mem_cons.mp member with same | later
    · cases same
      exact ⟨[], noNames, rfl⟩
    · cases List.mem_singleton.mp later
      exact ⟨[['d']], dName, rfl⟩
  lists names name id valid := by
    have above : AreNames names := fun n member => valid n (List.mem_append_left _ member)
    rw [one.at?_append_iff valid]
    constructor
    · rintro ⟨rfl, same⟩
      exact ⟨0, (one.at?_iff noNames 0).mpr (.inl ⟨rfl, rfl⟩), (one.listed_iff _).1.mpr same⟩
    · rintro ⟨dir, found, listed⟩
      rcases (one.at?_iff above dir).mp found with ⟨rfl, rfl⟩ | ⟨-, rfl⟩
      · exact ⟨rfl, (one.listed_iff _).1.mp listed⟩
      · exact absurd listed (one.listed_iff _).2
  tree names name id valid := by
    have above : AreNames names := fun n member => valid n (List.mem_append_left _ member)
    rw [one.at?_append_iff valid]
    constructor
    · rintro ⟨rfl, same⟩
      exact ⟨0, (one.at?_iff noNames 0).mpr (.inl ⟨rfl, rfl⟩), (one.grown_iff _).1.mpr same⟩
    · rintro ⟨dir, found, grown⟩
      rcases (one.at?_iff above dir).mp found with ⟨rfl, rfl⟩ | ⟨rfl, rfl⟩
      · exact ⟨rfl, (one.grown_iff _).1.mp grown⟩
      · exact absurd grown (one.grown_iff _).2

theorem allowed (one : OneDir s) : RenameAllowed s [['d']] [['e']] 1 where
  names := ⟨dName, eName⟩
  below := ⟨by decide, by decide⟩
  found := (one.at?_iff dName 1).mpr (.inr ⟨rfl, rfl⟩)
  different := by decide
  parent := by
    obtain ⟨i, found, lists⟩ := Option.map_eq_some_iff.mp one.root
    exact ⟨0, i, (one.at?_iff noNames 0).mpr (.inl ⟨rfl, rfl⟩), found, (Prod.mk.inj lists).1⟩
  outside := by decide
  replaced idNew i j found := by
    have none := (one.at?_iff eName idNew).mp found
    simp at none

end OneDir

def renameProgram : Parsed := pathProgram [("v0", "./d"), ("v1", "./e")] []

def renameEnv : PyEnv := ⟨Go.RangeOrder.stored, fun _ _ => none⟩

def renameArgs : List Str := ["v0".toList, "v1".toList]

theorem madeDir_exists : ∃ w, (mkdir renameEnv ["v0".toList] ⟨initState renameProgram 1, ∅⟩).map Prod.snd = some w ∧
    OneDir w.st ∧ rename renameEnv renameArgs w = none := by
  have computed : ((mkdir renameEnv ["v0".toList] ⟨initState renameProgram 1, ∅⟩).map fun r =>
      decide (r.2.st.dentry.entries = [(['.'], 0), ("./d".toList, 1)] ∧
        (r.2.st.inode? 0).map (fun i => (i.type, i.pChildren ++ i.children)) = some (.dir, [(1, ['d'])]) ∧
        (r.2.st.inode? 1).map (fun i => (i.type, i.pChildren ++ i.children)) = some (.dir, []) ∧
        (r.2.st.ft.get? rootTup).map (fun nodes => nodes.map Node.children) = some [[(1, ['d'])]] ∧
        (r.2.st.ft.get? (1, ['d'])).map (fun nodes => nodes.map Node.children) = some [[]]) &&
      (rename renameEnv renameArgs r.2).isNone) = some true := by decide +kernel
  obtain ⟨r, run, computed⟩ := Option.map_eq_some_iff.mp computed
  rw [Bool.and_eq_true, decide_eq_true_eq, Option.isNone_iff_eq_none] at computed
  obtain ⟨⟨dentry, root, dir, rootNode, dirNode⟩, raised⟩ := computed
  exact ⟨r.2, by rw [run]; rfl, ⟨dentry, root, dir, rootNode, dirNode⟩, raised⟩

/-- The call raises where it is to rename the directory. -/
theorem rename_raises : ∃ w, WellFormed w.st ∧ RenameAllowed w.st [['d']] [['e']] 1 ∧ rename renameEnv renameArgs w = none := by
  obtain ⟨w, -, one, raised⟩ := madeDir_exists
  exact ⟨w, one.wellFormed, one.allowed, raised⟩

theorem rename_never_moves_dir : ∃ w, WellFormed w.st ∧ ¬ RenameMoves renameEnv w renameArgs [['d']] [['e']] := by
  obtain ⟨w, -, one, -⟩ := madeDir_exists
  exact ⟨w, one.wellFormed, rename_never_moves renameEnv one.wellFormed one.allowed renameArgs⟩

end DfsFuzz.Symsc
