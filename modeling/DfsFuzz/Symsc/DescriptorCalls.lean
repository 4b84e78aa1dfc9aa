import DfsFuzz.Symsc.Descriptors

/-!
The calls that make, duplicate, move and close descriptors, each by the variables that it sets: these refer to one
inode then, at one offset. `close` counts down for the inode, and sets the variable only with the last.
-/

namespace DfsFuzz.Symsc

open Effects

/-- The variables are set to the inode, with the offset; everything else about the descriptors stays. -/
structure Retargets (vars : List Str) (id : Nat) (n : Int) (s s' : State) : Prop where
  lookup : ∀ v ∉ vars, s'.fdStack.lookup v = s.fdStack.lookup v
  opened : ∀ v ∈ vars, s'.fdStack.lookup v = some (.opened id)
  kept : KeptBut (fun j v => j = id ∧ v ∈ vars) s s'
  offset : Stored s → ∀ v ∈ vars, s'.fdOffset id v = some n

variable {w w' : Ctx}

theorem Still.retargets (still : Still w w') (id : Nat) (n : Int) : Retargets [] id n w.st w'.st where
  lookup v _ := by rw [still.fds]
  opened v member := by cases member
  kept := still.kept.mono fun _ _ never => never.elim
  offset _ v member := by cases member

variable {s : State} {id : Nat}

theorem present_of_offset {v : Str} {n : Int} (offset : s.fdOffset id v = some n) : (s.inode? id).isSome := by
  obtain ⟨i, found, -⟩ := Option.bind_eq_some_iff.mp offset
  rw [found]
  rfl

theorem Retargets.trans {vars more : List Str} {n : Int} {s₁ s' : State} (first : Retargets vars id n s s₁)
    (second : Retargets more id n s₁ s') : Retargets (vars ++ more) id n s s' where
  lookup v outside := by
    rw [List.mem_append, not_or] at outside
    rw [second.lookup v outside.2, first.lookup v outside.1]
  opened v member := by
    by_cases later : v ∈ more
    · exact second.opened v later
    · rw [second.lookup v later]
      exact first.opened v ((List.mem_append.mp member).resolve_right later)
  kept := by
    refine (first.kept.mono fun j v set => ?_).trans (second.kept.mono fun j v set => ?_)
    · exact ⟨set.1, List.mem_append_left _ set.2⟩
    · exact ⟨set.1, List.mem_append_right _ set.2⟩
  offset stored v member := by
    have stored₁ := first.kept.stored stored
    by_cases later : v ∈ more
    · exact second.offset stored₁ v later
    · have before := first.offset stored v ((List.mem_append.mp member).resolve_right later)
      rw [second.kept.offset stored₁ (present_of_offset before) fun set => later set.2]
      exact before

theorem Retargets.after {vars : List Str} {n : Int} {w₁ : Ctx} {s' : State} (still : Still w w₁)
    (retargets : Retargets vars id n w₁.st s') : Retargets vars id n w.st s' := (still.retargets id n).trans retargets

theorem Retargets.still {vars : List Str} {n : Int} {w₁ : Ctx} (retargets : Retargets vars id n s w₁.st)
    (still : Still w₁ w') : Retargets vars id n s w'.st := by
  have both := retargets.trans (still.retargets id n)
  rwa [List.append_nil] at both

variable {var : Str}

/-- The inode gets an offset for a variable, and the variable refers to it. -/
theorem retargets_put {s' : State} {i : Inode} {n : Int} (found : s.inode? id = some i) (i' : Inode)
    (offsets : i'.offset = i.offset.insert var n) (fds : s'.fdStack = s.fdStack.insert var (.opened id))
    (mem : s'.mem = (s.putInode id i').mem) (disk : s'.disk = (s.putInode id i').disk)
    (next : s'.inodeCnt = (s.putInode id i').inodeCnt) : Retargets [var] id n s s' where
  lookup v outside := by
    rw [List.mem_singleton] at outside
    rw [fds, AList.lookup_insert_ne outside]
  opened v member := by
    rw [List.mem_singleton.mp member, fds, AList.lookup_insert]
  kept := by
    refine (State.putInode_kept found fun v allowed => ?_).trans (.of_same mem disk next)
    rw [offsets, AList.lookup_insert_ne fun same => allowed ⟨rfl, List.mem_singleton.mpr same⟩]
  offset _ v member := by
    have inode : s'.inode? id = some i' := by
      have put := State.inode?_putInode s id i' id
      rw [if_pos rfl] at put
      rw [← put, State.inode?, State.inode?, mem, disk]
    rw [State.fdOffset, inode, Option.bind_some, offsets, List.mem_singleton.mp member, AList.lookup_insert]

theorem orRaise_eq {α : Type} {o : Option α} {a : α} (run : orRaise o w = some (a, w')) : w = w' ∧ o = some a := by
  cases o with
  | none => cases run
  | some b =>
    cases run
    exact ⟨rfl, rfl⟩

theorem getInodeOfFd_run {token : Str} {found : Option Nat} (run : getInodeOfFd token w = some (found, w')) :
    w = w' ∧ w.st.fdInode (stripLong token) = some found := by
  rw [getInodeOfFd_eq] at run
  obtain ⟨found', here, same⟩ := Option.map_eq_some_iff.mp run
  cases same
  exact ⟨rfl, here⟩

/-! ### `open` -/

theorem bindFd_retargets {r : Unit} (run : bindFd var id w = some (r, w')) : Retargets [var] id 0 w.st w'.st := by
  obtain ⟨i, w₁, read, rest⟩ := bind_eq_some.mp run
  obtain ⟨rfl, found⟩ := getInode_eq read
  cases rest
  exact retargets_put found { i with offset := i.offset.insert var 0, refs := i.refs + 1 } rfl rfl rfl rfl rfl

abbrev WhenOk (R : Ctx → Ctx → Prop) (x : M Ret) : Prop := On R (fun r => r.isError = false) x

/-- The variable is a new descriptor of some inode. -/
def Opens (var : Str) (w w' : Ctx) : Prop := ∃ id, Retargets [var] id 0 w.st w'.st

theorem opens_after {α : Type} {x : M α} {f : α → M Ret} (first : Always Still x)
    (second : ∀ a, WhenOk (Opens var) (f a)) : WhenOk (Opens var) (x >>= f) :=
  On.bind_of first second fun _ _ _ still opens => opens.imp fun _ retargets => retargets.after still

theorem opens_not {r : Ret} (error : r.isError = true) : WhenOk (Opens var) (pure r) :=
  (Never.pure (by rw [error]; decide)).on

theorem opens_bindFd (var : Str) (id : Nat) : WhenOk (Opens var) (bindFd var id >>= fun _ => pure .none) := by
  intro w r w' run _
  obtain ⟨u, w₁, bound, rest⟩ := bind_eq_some.mp run
  cases rest
  exact ⟨id, bindFd_retargets bound⟩

theorem openNew_opens (argv : List Str) (var path : Str) (opts : OpenOpts) (tupParent : Tup) (parent : Nat) :
    WhenOk (Opens var) (openNew argv var path opts tupParent parent) := by
  rw [openNew]
  split
  · exact opens_not rfl
  split
  · exact opens_not rfl
  refine opens_after (argAt_keeps _ _) fun given => ?_
  extract_lets -underBinder rest
  have made : ∀ mode, WhenOk (Opens var) (rest mode) := by
    intro mode w r w' run ok
    obtain ⟨s, w₁, read, run⟩ := bind_eq_some.mp run
    cases read
    -- the next number is that of the state before
    obtain ⟨u, w₂, created, run⟩ := bind_eq_some.mp run
    cases created
    have later : WhenOk (Opens var) (do
        setDentry path w.st.inodeCnt
        addTreeNode (w.st.inodeCnt, lastName path) tupParent
        setOpts var opts
        addChildToParent (w.st.inodeCnt, lastName path) parent
        bindFd var w.st.inodeCnt
        return .none) :=
      opens_after (setDentry_still _ _) fun _ => opens_after (addTreeNode_still _ _) fun _ =>
        opens_after (setOpts_still _ _) fun _ => opens_after (addChildToParent_still _ _) fun _ => opens_bindFd _ _
    exact (later run ok).imp fun _ retargets => retargets.after (createInode_still _ w)
  split
  · exact opens_after (Always.pure _) made
  · refine opens_after ?_ made
    rw [map_eq_pure_bind]
    exact (intAt_keeps _ _).bind fun _ => .pure _

theorem openOld_opens (var : Str) (opts : OpenOpts) (id : Nat) : WhenOk (Opens var) (openOld var opts id) := by
  refine opens_after (modifyState_still fun w => ?_) fun _ => ?_
  · refine ⟨?_, State.fromDisk_kept _ _ _⟩
    dsimp only
    rw [State.fromDisk]
    split <;> rfl
  intro w r w' run ok
  obtain ⟨i, w₁, read, rest⟩ := bind_eq_some.mp run
  obtain ⟨rfl, found⟩ := getInode_eq read
  have bound : WhenOk (Opens var) (setOpts var opts >>= fun _ => bindFd var id >>= fun _ => pure .none) :=
    opens_after (setOpts_still _ _) fun _ => opens_bindFd _ _
  dsimp only at rest
  split at rest
  · obtain ⟨u, w₂, cut, rest⟩ := bind_eq_some.mp rest
    cases cut
    exact (bound rest ok).imp fun _ retargets => retargets.after (putInode_still found { i with size := 0 } rfl)
  · exact bound rest ok

theorem openCall_opens (env : PyEnv) (argv : List Str) (var : Str) : WhenOk (Opens var) (openCall env argv var) := by
  rw [openCall]
  refine opens_after (fun _ _ _ run => (updateDentry_moved env run).still) fun _ => ?_
  refine opens_after (argAt_keeps _ _) fun token => ?_
  refine opens_after (still_of_quiet (getPath_quiet _)) fun found => ?_
  split
  · refine opens_after getState_keeps fun s => ?_
    split
    · refine opens_after (intAt_keeps _ _) fun flags => ?_
      refine opens_after (orRaise_keeps _) fun parsed => ?_
      split
      · refine opens_after (still_of_quiet (parentInode_quiet _ _)) fun parent => ?_
        split
        · refine opens_after (getInode_keeps _) fun parentNode => ?_
          split
          · exact opens_not rfl
          extract_lets -underBinder create
          split
          · exact openNew_opens ..
          · split
            · exact opens_not rfl
            split
            · exact opens_not rfl
            split
            · exact opens_not rfl
            split
            · exact opens_not rfl
            split
            · split
              · exact opens_after (still_of_quiet resetRecur_quiet) fun _ => opens_not rfl
              · exact openNew_opens ..
              · exact opens_after (still_of_quiet resetRecur_quiet) fun _ => openOld_opens ..
            · exact openOld_opens ..
        · exact opens_not rfl
      · exact opens_not rfl
    · exact opens_not rfl
  · exact opens_not rfl

theorem creat_opens (env : PyEnv) (argv : List Str) (var : Str) : WhenOk (Opens var) (creat env argv var) := by
  rw [creat]
  split
  · exact opens_not rfl
  · refine opens_after (argAt_keeps _ _) fun path => ?_
    refine opens_after (argAt_keeps _ _) fun mode => ?_
    exact openCall_opens ..

/-! ### `dup` and `dup2` -/

theorem aliasFd_retargets {fd : Str} {r : Unit} (run : aliasFd var fd id w = some (r, w')) :
    Retargets [var] id 0 w.st w'.st := by
  obtain ⟨i, w₁, read, rest⟩ := bind_eq_some.mp run
  obtain ⟨rfl, found⟩ := getInode_eq read
  obtain ⟨opts, w₂, options, rest⟩ := bind_eq_some.mp rest
  obtain rfl := getOpts_eq options
  cases rest
  exact retargets_put found { i with offset := i.offset.insert var 0 } rfl rfl rfl rfl rfl

/-- The inode that the first token of a call stands for. -/
def FirstFd (s : State) (argv : List Str) (id : Nat) : Prop :=
  ∃ fd, argv[0]? = some fd ∧ s.fdInode (stripLong fd) = some (some id)

variable {argv : List Str}

theorem dup_cases {also : Option Str} {r : Ret} (run : dup argv var also w = some (r, w')) :
    (r.isError = true ∧ ∀ fd, argv[0]? = some fd → w.st.fdInode (stripLong fd) = some none) ∨
      ∃ id, FirstFd w.st argv id ∧ Retargets (var :: also.toList) id 0 w.st w'.st := by
  rw [dup] at run
  split at run
  · rename_i empty
    cases run
    refine .inl ⟨rfl, fun fd given => ?_⟩
    rw [List.getElem?_eq_none (by omega)] at given
    cases given
  obtain ⟨fd, w₁, token, run⟩ := bind_eq_some.mp run
  obtain ⟨rfl, given⟩ := orRaise_eq token
  obtain ⟨found, w₂, read, run⟩ := bind_eq_some.mp run
  obtain ⟨rfl, here⟩ := getInodeOfFd_run read
  cases found with
  | none =>
    cases run
    refine .inl ⟨rfl, fun fd' given' => ?_⟩
    cases given.symm.trans given'
    exact here
  | some id =>
    refine .inr ⟨id, ⟨fd, given, here⟩, ?_⟩
    obtain ⟨u, w₃, first, run⟩ := bind_eq_some.mp run
    have bound := aliasFd_retargets first
    have counted : ∀ {w₄ : Ctx}, (do
        let i ← getInode id
        modifyState fun s => s.putInode id { i with refs := i.refs + 1 }
        return Ret.none) w₄ = some (r, w') → Still w₄ w' := fun {w₄} run => by
      obtain ⟨i, w₅, read, run⟩ := bind_eq_some.mp run
      obtain ⟨rfl, found⟩ := getInode_eq read
      cases run
      exact putInode_still found _ rfl
    cases also with
    | none => exact bound.still (counted run)
    | some ret =>
      obtain ⟨u', w₄, second, run⟩ := bind_eq_some.mp run
      exact (bound.trans (aliasFd_retargets second)).still (counted run)

/-- `_reset_inode_of_fd` -/
def State.shut (s : State) (v : Str) : State :=
  if (s.fdStack.lookup v).isSome then { s with fdStack := s.fdStack.insert v .closed } else s

namespace State

theorem shut_kept (may : Nat → Str → Prop) (s : State) (v : Str) : KeptBut may s (s.shut v) := by
  rw [shut]
  split <;> exact .of_same rfl rfl rfl

theorem inode?_shut (s : State) (v : Str) (id : Nat) : (s.shut v).inode? id = s.inode? id := by
  rw [shut]
  split <;> rfl

theorem lookup_shut_ne (s : State) {v other : Str} (different : other ≠ v) :
    (s.shut v).fdStack.lookup other = s.fdStack.lookup other := by
  rw [shut]
  split
  · exact AList.lookup_insert_ne different
  · rfl

theorem lookup_shut_self (s : State) (v : Str) :
    (s.shut v).fdStack.lookup v = none ∨ (s.shut v).fdStack.lookup v = some .closed := by
  rw [shut]
  split
  · exact .inr (AList.lookup_insert _)
  · rename_i absent
    exact .inl (by simpa using absent)

end State

/-- With its two arguments alike `dup2` sets nothing; else the second token, as it is, and the result. -/
theorem dup2_retargets {r : Ret} (run : dup2 argv var w = some (r, w')) (ok : r.isError = false) :
    ∃ fd1 fd2 id, argv[0]? = some fd1 ∧ argv[1]? = some fd2 ∧ w.st.fdInode (stripLong fd1) = some (some id) ∧
      (fd1 = fd2 ∧ w = w' ∨ fd1 ≠ fd2 ∧ Retargets [fd2, var] id 0 (w.st.shut (stripLong fd2)) w'.st) := by
  rw [dup2] at run
  split at run
  · cases run
    cases ok
  obtain ⟨fd1, w₁, token, run⟩ := bind_eq_some.mp run
  obtain ⟨rfl, given1⟩ := orRaise_eq token
  obtain ⟨fd2, w₂, token, run⟩ := bind_eq_some.mp run
  obtain ⟨rfl, given2⟩ := orRaise_eq token
  obtain ⟨found, w₃, read, run⟩ := bind_eq_some.mp run
  obtain ⟨rfl, here⟩ := getInodeOfFd_run read
  cases found with
  | none =>
    cases run
    cases ok
  | some id =>
    refine ⟨fd1, fd2, id, given1, given2, here, ?_⟩
    dsimp only at run
    split at run
    · rename_i same
      cases run
      exact .inl ⟨same, rfl⟩
    · rename_i different
      obtain ⟨u, w₄, shut, run⟩ := bind_eq_some.mp run
      cases shut
      obtain ⟨r', w₅, called, run⟩ := bind_eq_some.mp run
      cases run
      refine .inr ⟨different, ?_⟩
      obtain ⟨opened, present⟩ := fdInode_eq_some here
      by_cases same : stripLong fd1 = stripLong fd2
      · -- the first argument is closed as well, and the duplication raises
        have closed : (w.st.shut (stripLong fd2)).fdInode (stripLong fd1) = none := by
          rw [State.shut, ← same, opened, if_pos (by rfl), State.fdInode, AList.lookup_insert]
        rcases dup_cases called with ⟨-, none⟩ | ⟨id', ⟨fd, given, live⟩, -⟩
        · cases closed.symm.trans (none fd1 given1)
        · cases given1.symm.trans given
          cases closed.symm.trans live
      · have still : (w.st.shut (stripLong fd2)).fdInode (stripLong fd1) = some (some id) := by
          rw [fdInode_congr (w.st.lookup_shut_ne same) fun id _ => by rw [w.st.inode?_shut]]
          exact here
        rcases dup_cases called with ⟨-, none⟩ | ⟨id', ⟨fd, given, live⟩, sets⟩
        · cases still.symm.trans (none fd1 given1)
        · cases given1.symm.trans given
          cases still.symm.trans live
          exact sets

/-! ### `close` and `lseek` -/

/-- The reference is taken from the inode; the variable is set with the last one. -/
theorem close_sets {r : Ret} (run : close argv w = some (r, w')) (ok : r.isError = false) :
    ∃ fd id, argv[0]? = some fd ∧ w.st.fdInode (stripLong fd) = some (some id) ∧ KeptBut (fun _ _ => False) w.st w'.st ∧
      (w'.st.fdStack = w.st.fdStack ∨ w'.st.fdStack = w.st.fdStack.insert (stripLong fd) .closed) := by
  rw [close] at run
  split at run
  · cases run
    cases ok
  obtain ⟨fd, w₁, token, run⟩ := bind_eq_some.mp run
  obtain ⟨rfl, given⟩ := orRaise_eq token
  obtain ⟨found, w₂, read, run⟩ := bind_eq_some.mp run
  obtain ⟨rfl, here⟩ := getInodeOfFd_run read
  cases found with
  | none =>
    cases run
    cases ok
  | some id =>
    refine ⟨fd, id, given, here, ?_⟩
    obtain ⟨i, w₃, inode, run⟩ := bind_eq_some.mp run
    obtain ⟨rfl, present⟩ := getInode_eq inode
    obtain ⟨u, w₄, counted, run⟩ := bind_eq_some.mp run
    cases counted
    have still := putInode_still present { i with refs := i.refs - 1 } rfl
    dsimp only at run
    split at run
    · obtain ⟨u', w₅, reset, run⟩ := bind_eq_some.mp run
      cases reset
      cases run
      refine ⟨still.kept.trans (.of_same rfl rfl rfl), .inr ?_⟩
      dsimp only
      rw [State.fdStack_putInode]
    · cases run
      exact ⟨still.kept, .inl still.fds⟩

/-- The offset that `lseek` sets, if it sets one. -/
def seekTo (i : Inode) (old offset whence : Int) : Option Int :=
  if whence = 0 then some offset
  else if whence = 1 then some (old + offset)
  else if whence = 2 then some (i.size + offset)
  else if whence = 3 then if i.size ≤ offset then none else some offset
  else if whence = 4 then
    if i.size ≤ offset then none
    else i.datablock.map fun block =>
      let ahead := sliceFrom block.hole offset
      if zeroChar ∈ ahead then offset + ahead.findIdx (· = zeroChar) else i.size
  else none

theorem seek_retargets {i : Inode} (found : s.inode? id = some i) (opened : s.fdStack.lookup var = some (.opened id))
    (n : Int) : Retargets [var] id n s (s.putInode id { i with offset := i.offset.insert var n }) where
  lookup v _ := by rw [State.fdStack_putInode]
  opened v member := by rw [List.mem_singleton.mp member, State.fdStack_putInode, opened]
  kept := State.putInode_kept found fun v allowed => AList.lookup_insert_ne fun same => allowed ⟨rfl, List.mem_singleton.mpr same⟩
  offset _ v member := by
    rw [State.fdOffset, State.inode?_putInode, if_pos rfl, Option.bind_some, List.mem_singleton.mp member, AList.lookup_insert]

theorem lseek_sets {r : Ret} (run : lseek argv w = some (r, w')) (ok : r.isError = false) :
    ∃ fd id i old offset whence, argv[0]? = some fd ∧ w.st.fdInode (stripLong fd) = some (some id) ∧
      w.st.inode? id = some i ∧ i.offset.lookup (stripLong fd) = some old ∧ argv[1]?.bind parseInt = some offset ∧
      argv[2]?.bind parseInt = some whence ∧
      match seekTo i old offset whence with
      | none => w = w'
      | some n => Retargets [stripLong fd] id n w.st w'.st := by
  rw [lseek] at run
  split at run
  · cases run
    cases ok
  obtain ⟨fd, w₁, token, run⟩ := bind_eq_some.mp run
  obtain ⟨rfl, given⟩ := orRaise_eq token
  obtain ⟨found, w₂, read, run⟩ := bind_eq_some.mp run
  obtain ⟨rfl, here⟩ := getInodeOfFd_run read
  cases found with
  | none =>
    cases run
    cases ok
  | some id =>
    obtain ⟨i, w₃, inode, run⟩ := bind_eq_some.mp run
    obtain ⟨rfl, found⟩ := getInode_eq inode
    obtain ⟨old, w₄, offsets, run⟩ := bind_eq_some.mp run
    obtain ⟨rfl, before⟩ := orRaise_eq offsets
    obtain ⟨offset, w₅, number, run⟩ := bind_eq_some.mp run
    obtain ⟨rfl, asked⟩ := orRaise_eq number
    obtain ⟨whence, w₆, number, run⟩ := bind_eq_some.mp run
    obtain ⟨rfl, from_⟩ := orRaise_eq number
    refine ⟨fd, id, i, old, offset, whence, given, here, found, before, asked, from_, ?_⟩
    have seeks : ∀ n, (do
        modifyState fun s => s.putInode id { i with offset := i.offset.insert (stripLong fd) n }
        return Ret.none) w = some (r, w') → Retargets [stripLong fd] id n w.st w'.st := fun n run => by
      obtain ⟨u, w₇, set, run⟩ := bind_eq_some.mp run
      cases set
      cases run
      exact seek_retargets found (fdInode_eq_some here).1 n
    dsimp only at run
    rw [seekTo]
    split at run
    · cases run
      cases ok
    split at run
    · rename_i set
      rw [if_pos set]
      exact seeks _ run
    rename_i notSet
    rw [if_neg notSet]
    split at run
    · rename_i current
      rw [if_pos current]
      exact seeks _ run
    rename_i notCurrent
    rw [if_neg notCurrent]
    split at run
    · rename_i fromEnd
      rw [if_pos fromEnd]
      exact seeks _ run
    rename_i notEnd
    rw [if_neg notEnd]
    split at run
    · rename_i data
      rw [if_pos data]
      split at run
      · cases run
        cases ok
      rename_i inside
      rw [if_neg inside]
      obtain ⟨block, w₇, stored, run⟩ := bind_eq_some.mp run
      obtain ⟨rfl, -⟩ := orRaise_eq stored
      split at run
      · exact seeks _ run
      · cases run
    rename_i notData
    rw [if_neg notData]
    split at run
    · rename_i hole
      rw [if_pos hole]
      split at run
      · cases run
        cases ok
      rename_i inside
      rw [if_neg inside]
      obtain ⟨block, w₇, stored, run⟩ := bind_eq_some.mp run
      obtain ⟨rfl, holds⟩ := orRaise_eq stored
      rw [holds, Option.map_some]
      dsimp only at run ⊢
      split at run
      · rename_i zero
        rw [if_pos zero]
        exact seeks _ run
      · rename_i full
        rw [if_neg full]
        exact seeks _ run
    · rename_i neither
      rw [if_neg neither]
      cases run
      rfl

end DfsFuzz.Symsc
