import DfsFuzz.Symsc.TreeSearch

/-!
The error exits of the calls: each comes before the first effect of its call. A call on a descriptor
leaves everything as it was, and so does one without enough arguments; any other call on names has refreshed
the entries, and may have reset the counter of links. `rename` may have searched the tree once more.
-/

namespace DfsFuzz.Symsc

open Effects

/-- What holds of the state after every failure of the call. -/
abbrev Failing (R : Ctx → Ctx → Prop) (x : M Ret) : Prop := On R (fun r => r.isError = true) x

abbrev NeverFails (x : M Ret) : Prop := Never (fun r => r.isError = true) x

theorem neverFails_none : NeverFails (pure .none) := Never.pure (by decide)

theorem neverFails_zero : NeverFails (pure (.int 0)) := Never.pure (by decide)

theorem fails_of_effects {R : Ctx → Ctx → Prop} {α : Type} (x : M α) : Failing R (x >>= fun _ => pure .none) :=
  (Never.bind fun _ => neverFails_none).on

theorem fails_pure {R : Ctx → Ctx → Prop} [Std.Refl R] (r : Ret) : Failing R (pure r) := (Always.pure r).on _

/-! ### Calls on descriptors -/

theorem writeTarget_still (argv : List Str) : Always Eq (writeTarget argv) := by
  refine (argAt_keeps _ _).bind fun fd => ?_
  refine (getInodeOfFd_keeps _).bind fun found => ?_
  split
  · refine (getInode_keeps _).bind fun i => ?_
    split
    · exact .pure _
    refine (getOpts_keeps _).bind fun opts => ?_
    split
    · exact .pure _
    split
    · exact .pure _
    refine (argAt_keeps _ _).bind fun buf => ?_
    refine getState_keeps.bind fun s => ?_
    split
    · exact .pure _
    · exact .pure _
  · exact .pure _

theorem writeFrom_neverFails (argv : List Str) (var : Str) (id : Nat) (i : Inode) (bufSize : Nat) (bufData : Str)
    (offset : Int) : NeverFails (writeFrom argv var id i bufSize bufData offset) := by
  refine .bind fun nbyte => ?_
  split
  · exact neverFails_zero
  · exact .bind fun _ => .bind fun _ => .bind fun _ => .bind fun _ => neverFails_none

theorem write_fails (argv : List Str) : Failing Eq (write argv) := by
  rw [write]
  split
  · exact fails_pure _
  refine .bind (writeTarget_still _) fun target => ?_
  split
  · refine .bind (argAt_keeps _ _) fun fd => ?_
    extract_lets var rest
    have writes : ∀ offset, NeverFails (rest offset) := fun offset => writeFrom_neverFails ..
    split
    · exact (Never.bind writes).on
    · exact (Never.bind writes).on
  · exact fails_pure _

theorem pwrite64_fails (argv : List Str) : Failing Eq (pwrite64 argv) := by
  rw [pwrite64]
  split
  · exact fails_pure _
  refine .bind (writeTarget_still _) fun target => ?_
  split
  · refine Never.on (.bind fun offset => .bind fun nbyte => ?_)
    split
    · exact neverFails_zero
    · exact .bind fun _ => .bind fun _ => .bind fun _ => neverFails_none
  · exact fails_pure _

theorem lseek_fails (argv : List Str) : Failing Eq (lseek argv) := by
  rw [lseek]
  split
  · exact fails_pure _
  refine .bind (argAt_keeps _ _) fun fd => ?_
  extract_lets var
  refine .bind (getInodeOfFd_keeps _) fun found => ?_
  split
  · refine .bind (getInode_keeps _) fun i => ?_
    refine .bind (orRaise_keeps _) fun old => ?_
    refine .bind (intAt_keeps _ _) fun offset => ?_
    refine .bind (intAt_keeps _ _) fun whence => ?_
    split
    · exact fails_pure _
    extract_lets seek
    have seeks : ∀ n, Failing Eq (seek n) := fun n => fails_of_effects _
    split
    · exact seeks _
    split
    · exact seeks _
    split
    · exact seeks _
    split
    · split
      · exact fails_pure _
      refine .bind (getBlock_keeps _) fun block => ?_
      split
      · exact seeks _
      · exact Always.fail.on _
    split
    · split
      · exact fails_pure _
      refine .bind (getBlock_keeps _) fun block => ?_
      extract_lets ahead
      split
      · exact seeks _
      · exact seeks _
    · exact fails_pure _
  · exact fails_pure _

theorem ftruncate_fails (argv : List Str) : Failing Eq (ftruncate argv) := by
  rw [ftruncate]
  split
  · exact fails_pure _
  refine .bind (argAt_keeps _ _) fun fd => ?_
  refine .bind (getInodeOfFd_keeps _) fun found => ?_
  split
  · refine .bind (getInode_keeps _) fun i => ?_
    split
    · exact fails_pure _
    refine .bind (getOpts_keeps _) fun opts => ?_
    split
    · exact fails_pure _
    split
    · exact fails_pure _
    exact .bind (intAt_keeps _ _) fun length => fails_of_effects _
  · exact fails_pure _

theorem close_fails (argv : List Str) : Failing Eq (close argv) := by
  rw [close]
  split
  · exact fails_pure _
  refine .bind (argAt_keeps _ _) fun fd => ?_
  refine .bind (getInodeOfFd_keeps _) fun found => ?_
  split
  · refine Never.on (.bind fun i => .bind fun _ => ?_)
    extract_lets rest
    split
    · exact .bind fun _ => neverFails_zero
    · exact neverFails_zero
  · exact fails_pure _

theorem dup_fails (argv : List Str) (var : Str) (retDup2 : Option Str) : Failing Eq (dup argv var retDup2) := by
  rw [dup]
  split
  · exact fails_pure _
  refine .bind (argAt_keeps _ _) fun fd => ?_
  refine .bind (getInodeOfFd_keeps _) fun found => ?_
  split
  · refine Never.on (.bind fun _ => ?_)
    extract_lets rest
    have counts : ∀ r, NeverFails (rest r) := fun _ => .bind fun _ => .bind fun _ => neverFails_none
    split
    · exact counts ()
    · exact .bind counts
  · exact fails_pure _

theorem dup2_fails (argv : List Str) (var : Str) : Failing Eq (dup2 argv var) := by
  rw [dup2]
  split
  · exact fails_pure _
  refine .bind (argAt_keeps _ _) fun fd1 => ?_
  refine .bind (argAt_keeps _ _) fun fd2 => ?_
  refine .bind (getInodeOfFd_keeps _) fun found => ?_
  split
  · split
    · exact fails_pure _
    · exact Never.on (.bind fun _ => .bind fun _ => neverFails_none)
  · exact fails_pure _

theorem syncfs_fails (env : PyEnv) (argv : List Str) : Failing Eq (syncfs env argv) := by
  rw [syncfs]
  split
  · exact fails_pure _
  refine .bind (argAt_keeps _ _) fun fd => ?_
  refine .bind (getInodeOfFd_keeps _) fun found => ?_
  split
  · exact fails_of_effects _
  · exact fails_pure _

theorem fsync_fails (env : PyEnv) (argv : List Str) : Failing Eq (fsync env argv) := by
  rw [fsync]
  split
  · exact fails_pure _
  refine .bind (argAt_keeps _ _) fun fd => ?_
  refine .bind (getInodeOfFd_keeps _) fun found => ?_
  split
  · exact Never.on (.bind fun _ => .bind fun _ => .bind fun _ => neverFails_none)
  · exact fails_pure _

/-! ### Calls on names -/

/-- The entries are refreshed, and nothing happens after that. -/
def Refreshed (env : PyEnv) (w w' : Ctx) : Prop := ∃ w₁, updateDentry env w = some ((), w₁) ∧ Quiet w₁ w'

variable {env : PyEnv}

theorem fails_refreshed {rest : Unit → M Ret} (quiet : Failing Quiet (rest ())) :
    Failing (Refreshed env) (updateDentry env >>= rest) := by
  intro w r w' run failed
  obtain ⟨_, w₁, here, after⟩ := bind_eq_some.mp run
  exact ⟨w₁, here, quiet after failed⟩

variable {argv : List Str}

theorem mkdir_fails (env : PyEnv) (enough : 1 ≤ argv.length) : Failing (Refreshed env) (mkdir env argv) := by
  rw [mkdir, if_neg (by omega)]
  refine fails_refreshed (.bind (argAt_keeps _ _) fun token => ?_)
  refine .bind (getPath_quiet _) fun found => ?_
  split
  · extract_lets -underBinder rest
    have made : ∀ mode, Failing Quiet (rest mode) := by
      intro mode
      refine .bind getState_keeps fun s => ?_
      extract_lets -underBinder id
      split
      · split
        · extract_lets -underBinder rest
          have below : ∀ parent, Failing Quiet (rest parent) := by
            rintro ⟨tupParent, parent⟩
            refine .bind (getInode_keeps _) fun parentNode => ?_
            split
            · exact fails_pure _
            extract_lets -underBinder done
            split
            · exact Never.on (.bind fun _ => .bind fun _ => .bind fun _ => .bind fun _ => neverFails_none)
            · exact fails_pure _
          split
          · refine .bind (followSymlink_quiet _ _) fun next => ?_
            split
            · exact .bind (.pure _) below
            · exact fails_pure _
          · exact .bind (.pure _) below
        · exact fails_pure _
      · exact fails_pure _
    split
    · exact .bind (.pure _) made
    · exact .bind (intAt_keeps _ _) made
  · exact fails_pure _

theorem rmdir_fails (env : PyEnv) (enough : 1 ≤ argv.length) : Failing (Refreshed env) (rmdir env argv) := by
  rw [rmdir, if_neg (by omega)]
  refine fails_refreshed (.bind (argAt_keeps _ _) fun token => ?_)
  refine .bind (getPath_quiet _) fun found => ?_
  split
  · refine .bind getState_keeps fun s => ?_
    split
    · refine .bind (getInode_keeps _) fun i => ?_
      split
      · exact fails_pure _
      refine .bind (orRaise_keeps _) fun nodes => ?_
      refine .bind (orRaise_keeps _) fun node => ?_
      split
      · exact fails_pure _
      split
      · refine .bind (parentInode_quiet _ _) fun parent => ?_
        split
        · exact fails_of_effects _
        · exact fails_pure _
      · exact fails_pure _
    · exact fails_pure _
  · exact fails_pure _

variable {w' : Ctx}

/-- The inode that is linked is there, so `link` does not fail after its first effect. -/
theorem addChildToParent_present {tup : Tup} {parent id : Nat} {w : Ctx} (present : (w.st.inode? id).isSome)
    (run : addChildToParent tup parent w = some ((), w')) : (w'.st.inode? id).isSome := by
  obtain ⟨i, w₁, here, after⟩ := bind_eq_some.mp run
  cases (getInode_keeps (R := Eq) parent here : w = w₁)
  cases after
  simp only [State.inode?, State.toMem, Py.Dict.get?_set, Py.Dict.get?_erase] at present ⊢
  by_cases same : id = parent
  · simp [same]
  · simp [same, present]

theorem addLink_fails {path : Str} {id parent : Nat} {tupParent : Tup} {w : Ctx} {r : Ret}
    (present : (w.st.inode? id).isSome) (run : addLink path id tupParent parent w = some (r, w')) :
    r.isError = false := by
  rw [addLink] at run
  obtain ⟨_, w₁, node, run⟩ := bind_eq_some.mp run
  obtain ⟨_, w₂, child, run⟩ := bind_eq_some.mp run
  have there : (w₁.st.inode? id).isSome := by
    obtain ⟨s, w₀, same, node⟩ := bind_eq_some.mp node
    cases same
    obtain ⟨ft, w₀, same, node⟩ := bind_eq_some.mp node
    cases (orRaise_keeps (R := Eq) _ same : w = w₀)
    cases node
    exact present
  obtain ⟨j, found⟩ := Option.isSome_iff_exists.mp (addChildToParent_present there child)
  simp only [M.bind_eq, getState_apply, Option.bind_some, found, modifyState_apply, setDentry, M.pure_apply,
    Option.some.injEq, Prod.mk.injEq] at run
  rw [← run.1]
  rfl

theorem link_fails (env : PyEnv) (enough : 2 ≤ argv.length) : Failing (Refreshed env) (link env argv) := by
  rw [link, if_neg (by omega)]
  refine fails_refreshed (.bind (argAt_keeps _ _) fun token => ?_)
  refine .bind (getRawPath_keeps _) fun raw => ?_
  split
  · refine .bind (argAt_keeps _ _) fun token => ?_
    refine .bind (getRawPath_keeps _) fun raw => ?_
    split
    · refine .bind (resolvePath_quiet _) fun existingParent => ?_
      refine .bind (belowResolved_keeps _ _) fun pathExisting => ?_
      refine .of_from fun w => .bind getState_keeps fun s w₁ here => ?_
      cases here
      split
      · exact (fails_pure _).onFrom w
      split
      · exact (fails_pure _).onFrom w
      split
      · rename_i id _
        refine .bind (orRaise_keeps _) fun i w₁ read => ?_
        have present : (w.st.inode? id).isSome := by
          obtain ⟨j, found, -⟩ := Option.map_eq_some_iff.mp read
          rw [State.inode?, Option.isSome_or, Bool.or_comm, ← Option.isSome_or, found]
          rfl
        cases (orRaise_keeps (R := Eq) _ read : w = w₁)
        split
        · exact (fails_pure _).onFrom w
        split
        · exact (fails_pure _).onFrom w
        split
        · refine .bind (parentInode_quiet _ _) fun parent w₁ found => ?_
          have there : (w₁.st.inode? id).isSome := by
            rw [(parentInode_quiet _ _ found).fixed]
            exact present
          split
          · refine .bind (getInode_keeps _) fun parentNode w₂ read => ?_
            cases (getInode_keeps (R := Eq) _ read : w₁ = w₂)
            split
            · exact (fails_pure _).onFrom w₁
            · intro r w' run failed
              exact absurd failed (by rw [addLink_fails there run]; exact Bool.false_ne_true)
          · exact (fails_pure _).onFrom w₁
        · exact (fails_pure _).onFrom w
      · exact (fails_pure _).onFrom w
    · exact fails_pure _
  · exact fails_pure _

theorem unlink_fails (env : PyEnv) (enough : 1 ≤ argv.length) : Failing (Refreshed env) (unlink env argv) := by
  rw [unlink, if_neg (by omega)]
  refine fails_refreshed (.bind (argAt_keeps _ _) fun token => ?_)
  refine .bind (getRawPath_keeps _) fun raw => ?_
  split
  · refine .bind (resolvePath_quiet _) fun pathParent => ?_
    refine .bind (belowResolved_keeps _ _) fun path => ?_
    refine .bind getState_keeps fun s => ?_
    split
    · split
      · refine .bind (parentInode_quiet _ _) fun parent => ?_
        split
        · refine .bind (orRaise_keeps _) fun i => ?_
          split
          · exact fails_pure _
          · exact fails_of_effects _
        · exact fails_pure _
      · exact fails_pure _
    · exact fails_pure _
  · exact fails_pure _

theorem symlink_fails (env : PyEnv) (enough : 2 ≤ argv.length) : Failing (Refreshed env) (symlink env argv) := by
  rw [symlink, if_neg (by omega)]
  refine fails_refreshed (.bind (argAt_keeps _ _) fun token => ?_)
  refine .bind (getRawPath_keeps _) fun raw => ?_
  split
  · refine .bind (argAt_keeps _ _) fun token => ?_
    refine .bind (getRawPath_keeps _) fun raw => ?_
    split
    · refine .bind getState_keeps fun s => ?_
      split
      · refine .bind (parentInode_quiet _ _) fun parent => ?_
        split
        · split
          · exact fails_pure _
          refine .bind (getInode_keeps _) fun parentNode => ?_
          split
          · exact fails_pure _
          refine .bind (orRaise_keeps _) fun target => ?_
          exact Never.on (.bind fun _ => .bind fun _ => .bind fun _ => .bind fun _ => neverFails_none)
        · exact fails_pure _
      · exact fails_pure _
    · exact fails_pure _
  · exact fails_pure _

theorem openOld_neverFails (var : Str) (opts : OpenOpts) (id : Nat) : NeverFails (openOld var opts id) := by
  refine .bind fun _ => .bind fun i => ?_
  extract_lets -underBinder rest
  have bound : ∀ r, NeverFails (rest r) := fun _ => .bind fun _ => .bind fun _ => neverFails_none
  split
  · exact .bind bound
  · exact bound ()

theorem openNew_fails (argv : List Str) (var path : Str) (opts : OpenOpts) (tupParent : Tup) (parent : Nat) :
    Failing Quiet (openNew argv var path opts tupParent parent) := by
  rw [openNew]
  split
  · exact fails_pure _
  split
  · exact fails_pure _
  refine .bind (argAt_keeps _ _) fun given => ?_
  extract_lets -underBinder rest
  have made : ∀ mode, NeverFails (rest mode) := fun _ =>
    .bind fun _ => .bind fun _ => .bind fun _ => .bind fun _ => .bind fun _ => .bind fun _ => .bind fun _ => neverFails_none
  split
  · exact (Never.bind made).on
  · exact (Never.bind made).on

theorem openCall_fails (env : PyEnv) (argv : List Str) (var : Str) : Failing (Refreshed env) (openCall env argv var) := by
  rw [openCall]
  refine fails_refreshed (.bind (argAt_keeps _ _) fun token => ?_)
  refine .bind (getPath_quiet _) fun found => ?_
  split
  · refine .bind getState_keeps fun s => ?_
    split
    · refine .bind (intAt_keeps _ _) fun flags => ?_
      refine .bind (orRaise_keeps _) fun parsed => ?_
      split
      · refine .bind (parentInode_quiet _ _) fun parent => ?_
        split
        · refine .bind (getInode_keeps _) fun parentNode => ?_
          split
          · exact fails_pure _
          extract_lets -underBinder create
          split
          · exact openNew_fails ..
          · split
            · exact fails_pure _
            split
            · exact fails_pure _
            split
            · exact fails_pure _
            split
            · exact fails_pure _
            split
            · split
              · exact .bind resetRecur_quiet fun _ => fails_pure _
              · exact openNew_fails ..
              · exact .bind resetRecur_quiet fun _ => (openOld_neverFails ..).on
            · exact (openOld_neverFails ..).on
        · exact fails_pure _
      · exact fails_pure _
    · exact fails_pure _
  · exact fails_pure _

theorem creat_fails (env : PyEnv) (var : Str) (enough : 2 ≤ argv.length) :
    Failing (Refreshed env) (creat env argv var) := by
  rw [creat, if_neg (by omega)]
  refine .bind_of (argAt_keeps (R := Eq) _ _) (fun path => ?_) fun _ _ _ same later => same ▸ later
  refine .bind_of (argAt_keeps (R := Eq) _ _) (fun mode => ?_) fun _ _ _ same later => same ▸ later
  exact openCall_fails ..

theorem truncate_fails (env : PyEnv) (enough : 2 ≤ argv.length) : Failing (Refreshed env) (truncate env argv) := by
  rw [truncate, if_neg (by omega)]
  refine fails_refreshed (.bind (argAt_keeps _ _) fun token => ?_)
  refine .bind (getPath_quiet _) fun found => ?_
  split
  · refine .bind (intAt_keeps _ _) fun length => ?_
    refine .bind getState_keeps fun s => ?_
    split
    · refine .bind (getInode_keeps _) fun i => ?_
      extract_lets -underBinder rest
      have cut : ∀ id, Failing Quiet (rest id) := by
        intro id
        refine .bind (getInode_keeps _) fun i => ?_
        split
        · exact fails_pure _
        · exact fails_of_effects _
      split
      · refine .bind (followSymlink_quiet _ _) fun next => ?_
        split
        · exact .bind (.pure _) cut
        · exact fails_pure _
      · exact .bind (.pure _) cut
    · exact fails_pure _
  · exact fails_pure _

/-! ### `rename` -/

/-- What `rename` looks up before it searches the tree: the directory of the new name, if it has not failed by then. -/
def renameDir (argv : List Str) : M (Option Tup) := do
  let token ← argAt argv 0
  let some rawOld := (← getRawPath token).bind abspath | return none
  let token ← argAt argv 1
  let some rawNew := (← getRawPath token).bind abspath | return none
  let parentOld ← resolvePath (parentPath rawOld)
  let pathOld ← belowResolved parentOld (lastName rawOld)
  let parentNew ← resolvePath (parentPath rawNew)
  let pathNew ← belowResolved parentNew (lastName rawNew)
  if pathOld = pathNew then return none
  if pathOld = ['.'] then return none
  let s ← getState
  let some _ := s.dentry.get? pathOld | return none
  let some idParentOld := s.dentry.get? parentOld | return none
  let some idParentNew := s.dentry.get? parentNew | return none
  let some _ ← renameParent parentOld idParentOld | return none
  let some (dirNew, idDirNew) ← renameParent parentNew idParentNew | return none
  let dir ← getInode idDirNew
  if dir.type ≠ .dir then return none
  return some (idDirNew, lastName dirNew)

/-- The tree is searched for the directory that was looked up, if any, and nothing else happens. -/
structure Searched (lookup : M (Option Tup)) (w w' : Ctx) : Prop where
  opts : w'.optDict = w.optDict
  fixed : w'.st = { w.st with ft := w'.st.ft, cntRecur := w'.st.cntRecur }
  tree : ∃ dir w₁, lookup w = some (dir, w₁) ∧
    w'.st.ft = w.st.ft.turnAll ((dir.map fun goal => w.st.ft.opened goal rootTup).getD [])

theorem Searched.none {w : Ctx} (quiet : Quiet w w') : Searched (pure .none) w w' where
  opts := quiet.opts
  fixed := by rw [quiet.fixed]
  tree := ⟨.none, w, rfl, by rw [quiet.fixed]; rfl⟩

/-- A call that fails and a look-up take the same steps up to the search. -/
def FailsWith (call : M Ret) (lookup : M (Option Tup)) : Prop := Failing (Searched lookup) call

theorem failsWith_pure (r : Ret) : FailsWith (pure r) (pure none) := by
  intro w r w' run failed
  cases run
  exact .none (refl w)

theorem FailsWith.bind {α : Type} {x : M α} {f : α → M Ret} {g : α → M (Option Tup)} (quiet : Always Quiet x)
    (each : ∀ a, FailsWith (f a) (g a)) : FailsWith (x >>= f) (x >>= g) := by
  intro w r w' run failed
  obtain ⟨a, w₁, here, after⟩ := bind_eq_some.mp run
  obtain ⟨opts, fixed⟩ := quiet here
  have rest := each a after failed
  obtain ⟨dir, w₂, found, tree⟩ := rest.tree
  have same : w₁.st.ft = w.st.ft := by rw [fixed]
  refine ⟨rest.opts.trans opts, ?_, dir, w₂, bind_eq_some.mpr ⟨a, w₁, here, found⟩, ?_⟩
  · rw [rest.fixed, fixed]
  · rw [tree, same]

variable {lookup : M (Option Tup)}

theorem FailsWith.guard {p : Prop} [Decidable p] {r : Ret} {call : M Ret} (fails : FailsWith call lookup) :
    FailsWith (if p then pure r else call) (if p then pure none else lookup) := by
  by_cases stop : p
  · rw [if_pos stop, if_pos stop]
    exact failsWith_pure r
  · rw [if_neg stop, if_neg stop]
    exact fails

theorem FailsWith.search {goal : Tup} {rest : Option (List Tup) → M Ret} (quiet : ∀ found, Failing Quiet (rest found)) :
    FailsWith (searchTree goal rootTup >>= rest) (pure (some goal)) := by
  intro w r w' run failed
  obtain ⟨found, w₁, here, after⟩ := bind_eq_some.mp run
  obtain ⟨ft, searched, rfl⟩ := searchTree_eq here
  obtain ⟨opts, fixed⟩ := quiet found after failed
  refine ⟨opts, ?_, some goal, w, rfl, ?_⟩
  · rw [fixed]
  · rw [fixed]
    exact FileTree.search_opened searched

/-- The entries are refreshed, and the tree may be searched after that. -/
def RefreshedFor (env : PyEnv) (lookup : M (Option Tup)) (w w' : Ctx) : Prop :=
  ∃ w₁, updateDentry env w = some ((), w₁) ∧ Searched lookup w₁ w'

theorem FailsWith.refreshed {rest : Unit → M Ret} (fails : FailsWith (rest ()) lookup) :
    Failing (RefreshedFor env lookup) (updateDentry env >>= rest) := by
  intro w r w' run failed
  obtain ⟨_, w₁, here, after⟩ := bind_eq_some.mp run
  exact ⟨w₁, here, fails after failed⟩

theorem Refreshed.for {w : Ctx} (refreshed : Refreshed env w w') : RefreshedFor env (pure none) w w' := by
  obtain ⟨w₁, here, quiet⟩ := refreshed
  exact ⟨w₁, here, .none quiet⟩

theorem RefreshedFor.moved {w : Ctx} (refreshed : RefreshedFor env lookup w w') : Moved w w' := by
  obtain ⟨w₁, here, searched⟩ := refreshed
  obtain ⟨dir, w₂, -, tree⟩ := searched.tree
  have first := updateDentry_moved env here
  refine IsTrans.trans _ _ _ first ⟨searched.opts, ?_, _, tree⟩
  rw [searched.fixed]

theorem rename_fails (env : PyEnv) (enough : 2 ≤ argv.length) :
    Failing (RefreshedFor env (renameDir argv)) (rename env argv) := by
  rw [rename, if_neg (by omega)]
  apply FailsWith.refreshed
  rw [renameDir]
  refine .bind (argAt_keeps _ _) fun token => ?_
  refine .bind (getRawPath_keeps _) fun raw => ?_
  cases raw.bind abspath with
  | none => exact failsWith_pure _
  | some rawOld =>
  refine .bind (argAt_keeps _ _) fun token => ?_
  refine .bind (getRawPath_keeps _) fun raw => ?_
  cases raw.bind abspath with
  | none => exact failsWith_pure _
  | some rawNew =>
  refine .bind (resolvePath_quiet _) fun parentOld => ?_
  refine .bind (belowResolved_keeps _ _) fun pathOld => ?_
  refine .bind (resolvePath_quiet _) fun parentNew => ?_
  refine .bind (belowResolved_keeps _ _) fun pathNew => ?_
  refine .guard (.guard (.bind getState_keeps fun s => ?_))
  cases s.dentry.get? pathOld with
  | none => exact failsWith_pure _
  | some idOld =>
  cases s.dentry.get? parentOld with
  | none => exact failsWith_pure _
  | some idParentOld =>
  cases s.dentry.get? parentNew with
  | none => exact failsWith_pure _
  | some idParentNew =>
  refine .bind (renameParent_quiet _ _) fun dirOld => ?_
  cases dirOld with
  | none => exact failsWith_pure _
  | some dirOld =>
  refine .bind (renameParent_quiet _ _) fun dirNew => ?_
  cases dirNew with
  | none => exact failsWith_pure _
  | some dirNew =>
  refine .bind (getInode_keeps _) fun dir => .guard (.search fun found => ?_)
  refine .bind (orRaise_keeps _) fun above => ?_
  split
  · exact fails_pure _
  refine .bind (getInode_keeps _) fun old => ?_
  extract_lets -underBinder rest
  have moved : ∀ r, Failing Quiet (rest r) := fun _ => fails_of_effects _
  split
  · refine .bind (getInode_keeps _) fun new => ?_
    refine .bind getState_keeps fun s => ?_
    refine .bind (orRaise_keeps _) fun nodes => ?_
    extract_lets -underBinder inner
    split
    · exact fails_pure _
    split
    · exact fails_pure _
    split
    · exact fails_pure _
    · exact moved ()
  · exact moved ()

theorem rename_moved (env : PyEnv) (argv : List Str) : Failing Moved (rename env argv) := by
  by_cases few : argv.length < 2
  · rw [rename, if_pos few]
    exact fails_pure _
  · exact fun _ _ _ run failed => (rename_fails env (by omega) run failed).moved

end DfsFuzz.Symsc
