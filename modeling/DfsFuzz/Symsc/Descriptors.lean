import DfsFuzz.Symsc.FailedCalls
import DfsFuzz.Symsc.Listing

/-!
What the calls on descriptors do to the descriptors: which variables of `FD_STACK` are set to which inode, and
which offsets of the inodes are set. Everything else about the descriptors stays, also where an inode is created or
goes from the disk to memory.
-/

namespace DfsFuzz.Symsc

open Effects

/-- What `_get_inode_of_fd` gives for a variable: no inode (-1), an inode, or an exception. -/
def State.fdInode (s : State) (v : Str) : Option (Option Nat) :=
  match s.fdStack.lookup v with
  | none | some .undefined => some none
  | some .closed => none
  | some (.opened id) => if (s.inode? id).isSome then some (some id) else none

/-- `inode.offset[v]` -/
def State.fdOffset (s : State) (id : Nat) (v : Str) : Option Int := (s.inode? id).bind fun i => i.offset.lookup v

theorem getInodeOfFd_eq (token : Str) (w : Ctx) : getInodeOfFd token w = (w.st.fdInode (stripLong token)).map (·, w) := by
  rw [getInodeOfFd, M.bind_run (getState_apply w), State.fdInode]
  cases w.st.fdStack.lookup (stripLong token) with
  | none => rfl
  | some fd =>
    cases fd with
    | undefined => rfl
    | closed => rfl
    | opened id =>
      dsimp only
      split <;> rfl

theorem fdInode_congr {s s' : State} {v : Str} (lookup : s'.fdStack.lookup v = s.fdStack.lookup v)
    (inode : ∀ id, s.fdStack.lookup v = some (.opened id) → (s'.inode? id).isSome = (s.inode? id).isSome) :
    s'.fdInode v = s.fdInode v := by
  simp only [State.fdInode, lookup]
  cases here : s.fdStack.lookup v with
  | none => rfl
  | some fd =>
    cases fd with
    | undefined => rfl
    | closed => rfl
    | opened id => simp only [inode id here]

theorem fdInode_opened {s : State} {v : Str} {id : Nat} (opened : s.fdStack.lookup v = some (.opened id))
    (present : (s.inode? id).isSome) : s.fdInode v = some (some id) := by
  rw [State.fdInode, opened]
  exact if_pos present

theorem fdInode_eq_some {s : State} {v : Str} {id : Nat} (here : s.fdInode v = some (some id)) :
    s.fdStack.lookup v = some (.opened id) ∧ (s.inode? id).isSome := by
  rw [State.fdInode] at here
  split at here
  · cases here
  · cases here
  · cases here
  · rename_i opened
    split at here
    · rename_i present
      cases here
      exact ⟨opened, present⟩
    · cases here

/-! ### Where the inodes are -/

/-- The numbers in use are below the next, and no inode is both in memory and on disk. -/
structure Stored (s : State) : Prop where
  known : ∀ id, (s.inode? id).isSome → id < s.inodeCnt
  once : ∀ id, (s.mem.get? id).isSome → s.disk.get? id = none

/-- Every inode stays, and the offsets of those variables that may not be set. -/
structure KeptBut (may : Nat → Str → Prop) (s s' : State) : Prop where
  stored : Stored s → Stored s'
  inode : Stored s → ∀ id i, s.inode? id = some i →
    ∃ i', s'.inode? id = some i' ∧ ∀ v, ¬ may id v → i'.offset.lookup v = i.offset.lookup v

theorem KeptBut.present {may : Nat → Str → Prop} {s s' : State} (kept : KeptBut may s s') (stored : Stored s) {id : Nat}
    (present : (s.inode? id).isSome) : (s'.inode? id).isSome := by
  obtain ⟨i, found⟩ := Option.isSome_iff_exists.mp present
  obtain ⟨i', found', -⟩ := kept.inode stored id i found
  rw [found']
  rfl

theorem KeptBut.offset {may : Nat → Str → Prop} {s s' : State} (kept : KeptBut may s s') (stored : Stored s) {id : Nat}
    {v : Str} (present : (s.inode? id).isSome) (other : ¬ may id v) : s'.fdOffset id v = s.fdOffset id v := by
  obtain ⟨i, found⟩ := Option.isSome_iff_exists.mp present
  obtain ⟨i', found', offsets⟩ := kept.inode stored id i found
  rw [State.fdOffset, State.fdOffset, found, found', Option.bind_some, Option.bind_some, offsets v other]

theorem KeptBut.mono {may may' : Nat → Str → Prop} {s s' : State} (kept : KeptBut may s s')
    (wider : ∀ id v, may id v → may' id v) : KeptBut may' s s' where
  stored := kept.stored
  inode stored id i found := by
    obtain ⟨i', found', offsets⟩ := kept.inode stored id i found
    exact ⟨i', found', fun v not => offsets v fun allowed => not (wider id v allowed)⟩

theorem KeptBut.trans {may : Nat → Str → Prop} {s s₁ s' : State} (first : KeptBut may s s₁) (second : KeptBut may s₁ s') :
    KeptBut may s s' where
  stored stored := second.stored (first.stored stored)
  inode stored id i found := by
    obtain ⟨i₁, found₁, offsets₁⟩ := first.inode stored id i found
    obtain ⟨i', found', offsets'⟩ := second.inode (first.stored stored) id i₁ found₁
    exact ⟨i', found', fun v not => (offsets' v not).trans (offsets₁ v not)⟩

theorem KeptBut.of_same {may : Nat → Str → Prop} {s s' : State} (mem : s'.mem = s.mem) (disk : s'.disk = s.disk)
    (next : s'.inodeCnt = s.inodeCnt) : KeptBut may s s' := by
  have inode : ∀ id, s'.inode? id = s.inode? id := fun id => by rw [State.inode?, State.inode?, mem, disk]
  refine ⟨fun stored => ⟨fun id present => ?_, fun id present => ?_⟩, fun _ id i found => ⟨i, ?_, fun _ _ => rfl⟩⟩
  · rw [next]
    exact stored.known id (inode id ▸ present)
  · rw [disk]
    exact stored.once id (mem ▸ present)
  · rw [inode, found]

namespace State

variable {s : State} {id : Nat} {i i' : Inode}

theorem inode?_putInode (s : State) (id : Nat) (i : Inode) (j : Nat) :
    (s.putInode id i).inode? j = if j = id then some i else s.inode? j := by
  rw [putInode]
  split
  · rw [inode?, inode?, Py.Dict.get?_set]
    split
    · rfl
    · rfl
  · rename_i absent
    rw [inode?, inode?, Py.Dict.get?_set]
    split
    · rename_i same
      have none : s.mem.get? j = none := by
        rw [same]
        simpa [Py.Dict.has] using absent
      rw [none, Option.none_or]
    · rfl

theorem inode?_toMem (s : State) (id : Nat) (i : Inode) (j : Nat) :
    (s.toMem id i).inode? j = if j = id then some i else s.inode? j := by
  simp only [toMem, inode?, Py.Dict.get?_set, Py.Dict.get?_erase]
  split
  · rfl
  · rfl

theorem putInode_stored (stored : Stored s) (present : (s.inode? id).isSome) (i : Inode) : Stored (s.putInode id i) where
  known j here := by
    have next : (s.putInode id i).inodeCnt = s.inodeCnt := by
      rw [putInode]
      split <;> rfl
    rw [next]
    rw [inode?_putInode] at here
    split at here
    · rename_i same
      exact same ▸ stored.known id present
    · exact stored.known j here
  once j here := by
    rw [putInode] at here ⊢
    split at here
    · rename_i inMem
      rw [if_pos inMem]
      refine stored.once j ?_
      rw [Py.Dict.get?_set] at here
      split at here
      · rename_i same
        exact same ▸ inMem
      · exact here
    · rename_i absent
      rw [if_neg absent]
      have other : j ≠ id := by
        rintro rfl
        exact absent here
      rw [Py.Dict.get?_set_ne _ other]
      exact stored.once j here

theorem toMem_stored (stored : Stored s) (present : (s.inode? id).isSome) (i : Inode) : Stored (s.toMem id i) where
  known j here := by
    rw [inode?_toMem] at here
    split at here
    · rename_i same
      exact same ▸ stored.known id present
    · exact stored.known j here
  once j here := by
    simp only [toMem, Py.Dict.get?_set, Py.Dict.get?_erase] at here ⊢
    split
    · rfl
    · rename_i other
      rw [if_neg other] at here
      exact stored.once j here

theorem keptBut_of_inode? {may : Nat → Str → Prop} {s' : State} (stored : Stored s → Stored s') (found : s.inode? id = some i)
    (inode : ∀ j, s'.inode? j = if j = id then some i' else s.inode? j)
    (offsets : ∀ v, ¬ may id v → i'.offset.lookup v = i.offset.lookup v) : KeptBut may s s' where
  stored := stored
  inode _ j k here := by
    by_cases same : j = id
    · subst same
      cases found.symm.trans here
      exact ⟨i', by rw [inode, if_pos rfl], offsets⟩
    · exact ⟨k, by rw [inode, if_neg same, here], fun _ _ => rfl⟩

theorem putInode_kept {may : Nat → Str → Prop} (found : s.inode? id = some i)
    (offsets : ∀ v, ¬ may id v → i'.offset.lookup v = i.offset.lookup v) : KeptBut may s (s.putInode id i') :=
  keptBut_of_inode? (fun stored => putInode_stored stored (by rw [found]; rfl) i') found (inode?_putInode s id i') offsets

theorem toMem_kept {may : Nat → Str → Prop} (found : s.inode? id = some i) (i' : Inode)
    (offsets : ∀ v, ¬ may id v → i'.offset.lookup v = i.offset.lookup v) : KeptBut may s (s.toMem id i') :=
  keptBut_of_inode? (fun stored => toMem_stored stored (by rw [found]; rfl) i') found (inode?_toMem s id i') offsets

/-- An inode that is on disk is not in memory, so the copy is the inode. -/
theorem fromDisk_kept (may : Nat → Str → Prop) (s : State) (id : Nat) : KeptBut may s (s.fromDisk id) := by
  rw [fromDisk]
  cases onDisk : s.disk.get? id with
  | none => exact .of_same rfl rfl rfl
  | some i =>
    have found : Stored s → s.inode? id = some i := fun stored => by
      cases inMem : s.mem.get? id with
      | none => rw [inode?, inMem, onDisk, Option.none_or]
      | some j =>
        rw [stored.once id (by rw [inMem]; rfl)] at onDisk
        cases onDisk
    refine ⟨fun stored => toMem_stored stored (by rw [found stored]; rfl) i, fun stored => ?_⟩
    exact (toMem_kept (found stored) i fun _ _ => rfl).inode stored

end State

/-! ### Calls that leave the descriptors -/

/-- The descriptors and their offsets are what they were. -/
structure Still (w w' : Ctx) : Prop where
  fds : w'.st.fdStack = w.st.fdStack
  kept : KeptBut (fun _ _ => False) w.st w'.st

theorem Still.of_same {w w' : Ctx} (fds : w'.st.fdStack = w.st.fdStack) (mem : w'.st.mem = w.st.mem)
    (disk : w'.st.disk = w.st.disk) (next : w'.st.inodeCnt = w.st.inodeCnt) : Still w w' := ⟨fds, .of_same mem disk next⟩

instance : Std.Refl Still := ⟨fun _ => .of_same rfl rfl rfl rfl⟩

instance : IsTrans Ctx Still where
  trans _ _ _ first second := ⟨second.fds.trans first.fds, first.kept.trans second.kept⟩

theorem Moved.still {w w' : Ctx} (moved : Moved w w') : Still w w' := by
  refine .of_same ?_ ?_ ?_ ?_ <;> rw [moved.fixed]

theorem still_of_quiet {α : Type} {x : M α} (quiet : Always Quiet x) : Always Still x :=
  fun _ _ _ run => (quiet run).moved.still

theorem State.fdStack_putInode (s : State) (id : Nat) (i : Inode) : (s.putInode id i).fdStack = s.fdStack := by
  rw [State.putInode]
  split <;> rfl

theorem putInode_still {w : Ctx} {id : Nat} {i : Inode} (found : w.st.inode? id = some i) (i' : Inode) (offsets : i'.offset = i.offset) :
    Still w { w with st := w.st.putInode id i' } :=
  ⟨w.st.fdStack_putInode id i', State.putInode_kept found fun _ _ => by rw [offsets]⟩

theorem modifyState_still {f : State → State} (still : ∀ w : Ctx, Still w { w with st := f w.st }) :
    Always Still (modifyState f) := by
  intro w a w' run
  cases run
  exact still w

theorem setOpts_still (var : Str) (opts : OpenOpts) : Always Still (setOpts var opts) := by
  intro w a w' run
  cases run
  exact .of_same rfl rfl rfl rfl

theorem setDentry_still (path : Str) (id : Nat) : Always Still (setDentry path id) :=
  modifyState_still fun _ => .of_same rfl rfl rfl rfl

theorem addTreeNode_still (tup parent : Tup) : Always Still (addTreeNode tup parent) :=
  getState_keeps.bind fun _ => (orRaise_keeps _).bind fun _ => modifyState_still fun _ => .of_same rfl rfl rfl rfl

theorem getInode_eq {id : Nat} {w w' : Ctx} {i : Inode} (run : getInode id w = some (i, w')) :
    w = w' ∧ w.st.inode? id = some i := by
  rw [getInode, M.bind_run (getState_apply w)] at run
  cases found : w.st.inode? id with
  | none =>
    rw [found] at run
    cases run
  | some j =>
    rw [found, orRaise_some] at run
    cases run
    exact ⟨rfl, rfl⟩

theorem addChildToParent_still (tup : Tup) (parent : Nat) : Always Still (addChildToParent tup parent) := by
  intro w a w' run
  obtain ⟨i, w₁, read, rest⟩ := bind_eq_some.mp run
  obtain ⟨rfl, found⟩ := getInode_eq read
  cases rest
  exact ⟨rfl, State.toMem_kept found _ fun _ _ => rfl⟩

theorem createInode_still (i : Inode) (w : Ctx) :
    Still w { w with st := { w.st with mem := w.st.mem.set w.st.inodeCnt i, inodeCnt := w.st.inodeCnt + 1 } } := by
  refine ⟨rfl, fun stored => ?_, fun stored id j found => ⟨j, ?_, fun _ _ => rfl⟩⟩
  · have new : w.st.inode? w.st.inodeCnt = none := by
      cases here : w.st.inode? w.st.inodeCnt with
      | none => rfl
      | some j => exact absurd (stored.known _ (by rw [here]; rfl)) (Nat.lt_irrefl _)
    refine ⟨fun id present => ?_, fun id present => ?_⟩
    · by_cases same : id = w.st.inodeCnt
      · exact same ▸ Nat.lt_succ_self _
      · simp only [State.inode?, Py.Dict.get?_set_ne _ same] at present
        exact Nat.lt_succ_of_lt (stored.known id present)
    · by_cases same : id = w.st.inodeCnt
      · subst same
        rw [State.inode?, Option.or_eq_none_iff] at new
        exact new.2
      · simp only [Py.Dict.get?_set_ne _ same] at present
        exact stored.once id present
  · have below := stored.known id (by rw [found]; rfl)
    rw [State.inode?] at found ⊢
    simp only [Py.Dict.get?_set_ne _ (Nat.ne_of_lt below)]
    exact found

end DfsFuzz.Symsc
