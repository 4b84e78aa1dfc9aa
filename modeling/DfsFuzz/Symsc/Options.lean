import DfsFuzz.Lib.Effects
import DfsFuzz.Symsc.Emulate

/-!
The options of the descriptors are kept by variable in a dictionary of the class `Inode`, so they are
not part of a state. A call reads those of its first argument, and a few calls set those of a variable.
-/

namespace DfsFuzz.Symsc

open Effects

/-- The same state, and the same options for the variables. -/
structure Agree (vars : List Str) (w w' : Ctx) : Prop where
  st : w.st = w'.st
  opts : ∀ v ∈ vars, w.optDict.lookup v = w'.optDict.lookup v

abbrev OptDict := Go.Map Str OpenOpts

/-- A relation between the options before and after. -/
def OnOpts (R : OptDict → OptDict → Prop) (w w' : Ctx) : Prop := R w.optDict w'.optDict

instance (R : OptDict → OptDict → Prop) [IsPreorder OptDict R] : IsPreorder Ctx (OnOpts R) where
  refl w := refl (r := R) w.optDict
  trans _ _ _ first second := IsTrans.trans (r := R) _ _ _ first second

/-- From the same state and the same options for the variables the call does the same, and it changes the
options as `R` allows. -/
structure Tidy (vars : List Str) (R : OptDict → OptDict → Prop) {α : Type} (x : M α) : Prop where
  reads : Related (Agree vars) x
  sets : Always (OnOpts R) x

section Primitives

variable {vars : List Str} {R : OptDict → OptDict → Prop} {α β : Type}

@[grind ←] theorem tidy_raise : Tidy vars R (raise : M α) := ⟨.fail, .fail⟩

theorem related_setOpts (v : Str) (o : OpenOpts) : Related (Agree vars) (setOpts v o) := by
  rintro w w' ⟨same, opts⟩
  refine .some ⟨rfl, same, fun u member => ?_⟩
  by_cases equal : u = v
  · subst equal
    rw [AList.lookup_insert, AList.lookup_insert]
  · rw [AList.lookup_insert_ne equal, AList.lookup_insert_ne equal]
    exact opts u member

theorem tidy_setOpts {v : Str} {o : OpenOpts} (allowed : ∀ d, R d (d.insert v o)) : Tidy vars R (setOpts v o) := by
  refine ⟨related_setOpts v o, ?_⟩
  intro w a w' run
  cases run
  exact allowed w.optDict

theorem tidy_orRaise_bind {o : Option α} {f : α → M β} (rest : ∀ a, o = some a → Tidy vars R (f a)) :
    Tidy vars R (orRaise o >>= f) := by
  cases o with
  | none => exact ⟨fun _ _ _ => .none, fun _ _ _ run => by cases run⟩
  | some a => exact rest a rfl

variable [IsPreorder OptDict R]

@[grind ←] theorem Tidy.pure (a : α) : Tidy vars R (Pure.pure a : M α) := ⟨.pure a, .pure a⟩

@[grind ←] theorem Tidy.bind {x : M α} {f : α → M β} (first : Tidy vars R x) (second : ∀ a, Tidy vars R (f a)) :
    Tidy vars R (x >>= f) :=
  ⟨first.reads.bind fun a => (second a).reads, first.sets.bind fun a => (second a).sets⟩

@[grind ←] theorem tidy_map {x : M α} (f : α → β) (tidy : Tidy vars R x) : Tidy vars R (f <$> x) :=
  tidy.bind fun a => .pure (f a)

@[grind ←] theorem tidy_getState : Tidy vars R getState := by
  refine ⟨?_, ?_⟩
  · rintro ⟨s, o⟩ ⟨t, o'⟩ ⟨rfl, opts⟩
    exact .some ⟨rfl, rfl, opts⟩
  · intro w a w' run
    cases run
    exact refl w

@[grind ←] theorem tidy_modifyState (f : State → State) : Tidy vars R (modifyState f) := by
  refine ⟨?_, ?_⟩
  · rintro ⟨s, o⟩ ⟨t, o'⟩ ⟨rfl, opts⟩
    exact .some ⟨rfl, rfl, opts⟩
  · intro w a w' run
    cases run
    exact refl (r := R) w.optDict

@[grind ←] theorem tidy_orRaise (o : Option α) : Tidy vars R (orRaise o) := by
  cases o with
  | none => exact tidy_raise
  | some a => exact Tidy.pure a

theorem tidy_getOpts {v : Str} (member : v ∈ vars) : Tidy vars R (getOpts v) := by
  refine ⟨?_, ?_⟩
  · rintro w w' ⟨same, opts⟩
    rw [getOpts, getOpts, opts v member]
    cases w'.optDict.lookup v with
    | none => exact .none
    | some o => exact .some ⟨rfl, same, opts⟩
  · intro w a w' run
    obtain ⟨o, -, same⟩ := Option.map_eq_some_iff.mp run
    cases same
    exact refl w

end Primitives

/-! ### Calls that neither read nor set options -/

variable {argv : List Str} {var : Str}

section Calls

variable {vars : List Str} {R : OptDict → OptDict → Prop} [IsPreorder OptDict R]

@[grind ←] theorem tidy_argAt (argv : List Str) (i : Nat) : Tidy vars R (argAt argv i) := tidy_orRaise _

@[grind ←] theorem tidy_intAt (argv : List Str) (i : Nat) : Tidy vars R (intAt argv i) := tidy_orRaise _

@[grind ←] theorem tidy_getInode (id : Nat) : Tidy vars R (getInode id) := by rw [getInode]; grind

@[grind ←] theorem tidy_resetRecur : Tidy vars R resetRecur := tidy_modifyState _

@[grind ←] theorem tidy_getRawPath (token : Str) : Tidy vars R (getRawPath token) := by rw [getRawPath]; grind

@[grind ←] theorem tidy_resolvePath (path : Str) : Tidy vars R (resolvePath path) := by rw [resolvePath]; grind

@[grind ←] theorem tidy_getPath (token : Str) : Tidy vars R (getPath token) := by rw [getPath]; grind

@[grind ←] theorem tidy_followSymlink (path : Str) (i : Inode) : Tidy vars R (followSymlink path i) := by
  rw [followSymlink]; grind

@[grind ←] theorem tidy_getInodeOfFd (token : Str) : Tidy vars R (getInodeOfFd token) := by rw [getInodeOfFd]; grind

@[grind ←] theorem tidy_searchTree (goal goaldir : Tup) : Tidy vars R (searchTree goal goaldir) := by
  rw [searchTree]; grind

@[grind ←] theorem tidy_updateEntry (path : Str) : Tidy vars R (updateEntry path) := by rw [updateEntry]; grind

theorem tidy_updateLoop (env : PyEnv) (fuel : Nat) (keys : List (Option Str)) : Tidy vars R (updateLoop env fuel keys) := by
  induction fuel generalizing keys with
  | zero => cases keys <;> rw [updateLoop] <;> grind
  | succ fuel ih =>
    cases keys with
    | nil => rw [updateLoop]; grind
    | cons key rest => cases key <;> rw [updateLoop] <;> grind

@[grind ←] theorem tidy_updateDentry (env : PyEnv) : Tidy vars R (updateDentry env) := by
  rw [updateDentry]
  exact tidy_getState.bind fun s => tidy_updateLoop env _ _

@[grind ←] theorem tidy_parentInode (path : Str) (id : Nat) : Tidy vars R (parentInode path id) := by
  rw [parentInode]; grind

@[grind ←] theorem tidy_addChildToParent (tup : Tup) (parent : Nat) : Tidy vars R (addChildToParent tup parent) := by
  rw [addChildToParent]; grind

@[grind ←] theorem tidy_removeChildFromParent (tup : Tup) (parent : Nat) : Tidy vars R (removeChildFromParent tup parent) := by
  rw [removeChildFromParent]; grind

@[grind ←] theorem tidy_addTreeNode (tup parent : Tup) : Tidy vars R (addTreeNode tup parent) := by rw [addTreeNode]; grind

@[grind ←] theorem tidy_removeTreeNode (tup parent : Tup) : Tidy vars R (removeTreeNode tup parent) := by
  rw [removeTreeNode]; grind

@[grind ←] theorem tidy_createInode (id : Nat) (i : Inode) : Tidy vars R (createInode id i) := tidy_modifyState _

@[grind ←] theorem tidy_setDentry (path : Str) (id : Nat) : Tidy vars R (setDentry path id) := tidy_modifyState _

@[grind ←] theorem tidy_bindFd (var : Str) (id : Nat) : Tidy vars R (bindFd var id) := by rw [bindFd]; grind

@[grind ←] theorem tidy_belowResolved (parent name : Str) : Tidy vars R (belowResolved parent name) := tidy_orRaise _

theorem tidy_mkdir (env : PyEnv) (argv : List Str) : Tidy vars R (mkdir env argv) := by
  rw [mkdir]
  split
  · exact .pure _
  refine (tidy_updateDentry env).bind fun _ => (tidy_argAt _ _).bind fun token => (tidy_getPath _).bind fun found => ?_
  split
  · extract_lets -underBinder rest
    have made : ∀ mode, Tidy vars R (rest mode) := by
      intro mode
      refine tidy_getState.bind fun s => ?_
      extract_lets -underBinder id
      split
      · split
        · extract_lets -underBinder rest
          have below : ∀ parent, Tidy vars R (rest parent) := by
            rintro ⟨tupParent, parent⟩
            refine (tidy_getInode _).bind fun parentNode => ?_
            split
            · exact .pure _
            extract_lets -underBinder done
            split
            · refine (tidy_addTreeNode _ _).bind fun _ => (tidy_createInode _ _).bind fun _ => ?_
              exact (tidy_setDentry _ _).bind fun _ => (tidy_addChildToParent _ _).bind fun _ => .pure _
            · exact .pure _
          split
          · refine (tidy_followSymlink _ _).bind fun next => ?_
            split
            · exact .bind (.pure _) below
            · exact .pure _
          · exact .bind (.pure _) below
        · exact .pure _
      · exact .pure _
    split
    · exact .bind (.pure _) made
    · exact .bind (tidy_intAt _ _) made
  · exact .pure _

@[grind ←] theorem tidy_removeDir (path : Str) (id : Nat) (tupParent : Tup) (parent : Nat) :
    Tidy vars R (removeDir path id tupParent parent) := by
  rw [removeDir]; grind

theorem tidy_rmdir (env : PyEnv) (argv : List Str) : Tidy vars R (rmdir env argv) := by
  rw [rmdir]
  split
  · exact .pure _
  refine (tidy_updateDentry env).bind fun _ => (tidy_argAt _ _).bind fun token => (tidy_getPath _).bind fun found => ?_
  split
  · refine tidy_getState.bind fun s => ?_
    split
    · refine (tidy_getInode _).bind fun i => ?_
      split
      · exact .pure _
      refine (tidy_orRaise _).bind fun nodes => (tidy_orRaise _).bind fun node => ?_
      split
      · exact .pure _
      split
      · refine (tidy_parentInode _ _).bind fun parent => ?_
        split
        · exact (tidy_removeDir _ _ _ _).bind fun _ => .pure _
        · exact .pure _
      · exact .pure _
    · exact .pure _
  · exact .pure _

@[grind ←] theorem tidy_addLink (path : Str) (id : Nat) (tupParent : Tup) (parent : Nat) :
    Tidy vars R (addLink path id tupParent parent) := by
  rw [addLink]; grind

theorem tidy_link (env : PyEnv) (argv : List Str) : Tidy vars R (link env argv) := by
  rw [link]
  split
  · exact .pure _
  refine (tidy_updateDentry env).bind fun _ => (tidy_argAt _ _).bind fun token => (tidy_getRawPath _).bind fun raw => ?_
  split
  · refine (tidy_argAt _ _).bind fun token => (tidy_getRawPath _).bind fun raw => ?_
    split
    · refine (tidy_resolvePath _).bind fun parent => (tidy_belowResolved _ _).bind fun path => tidy_getState.bind fun s => ?_
      split
      · exact .pure _
      split
      · exact .pure _
      split
      · refine (tidy_orRaise _).bind fun i => ?_
        split
        · exact .pure _
        split
        · exact .pure _
        split
        · refine (tidy_parentInode _ _).bind fun parent => ?_
          split
          · refine (tidy_getInode _).bind fun parentNode => ?_
            split
            · exact .pure _
            · exact tidy_addLink ..
          · exact .pure _
        · exact .pure _
      · exact .pure _
    · exact .pure _
  · exact .pure _

@[grind ←] theorem tidy_removeFile (path name : Str) (id : Nat) (tupParent : Tup) (parent : Nat) :
    Tidy vars R (removeFile path name id tupParent parent) := by
  rw [removeFile]; grind

theorem tidy_unlink (env : PyEnv) (argv : List Str) : Tidy vars R (unlink env argv) := by
  rw [unlink]
  split
  · exact .pure _
  refine (tidy_updateDentry env).bind fun _ => (tidy_argAt _ _).bind fun token => (tidy_getRawPath _).bind fun raw => ?_
  split
  · refine (tidy_resolvePath _).bind fun parent => (tidy_belowResolved _ _).bind fun path => tidy_getState.bind fun s => ?_
    split
    · split
      · refine (tidy_parentInode _ _).bind fun parent => ?_
        split
        · refine (tidy_orRaise _).bind fun i => ?_
          split
          · exact .pure _
          · exact (tidy_removeFile _ _ _ _ _).bind fun _ => .pure _
        · exact .pure _
      · exact .pure _
    · exact .pure _
  · exact .pure _

theorem tidy_symlink (env : PyEnv) (argv : List Str) : Tidy vars R (symlink env argv) := by
  rw [symlink]
  split
  · exact .pure _
  refine (tidy_updateDentry env).bind fun _ => (tidy_argAt _ _).bind fun token => (tidy_getRawPath _).bind fun raw => ?_
  split
  · refine (tidy_argAt _ _).bind fun token => (tidy_getRawPath _).bind fun raw => ?_
    split
    · refine tidy_getState.bind fun s => ?_
      split
      · refine (tidy_parentInode _ _).bind fun parent => ?_
        split
        · split
          · exact .pure _
          refine (tidy_getInode _).bind fun parentNode => ?_
          split
          · exact .pure _
          refine (tidy_orRaise _).bind fun target => (tidy_createInode _ _).bind fun _ => (tidy_setDentry _ _).bind fun _ => ?_
          exact (tidy_addChildToParent _ _).bind fun _ => (tidy_addTreeNode _ _).bind fun _ => .pure _
        · exact .pure _
      · exact .pure _
    · exact .pure _
  · exact .pure _

@[grind ←] theorem tidy_renameParent (path : Str) (id : Nat) : Tidy vars R (renameParent path id) := by
  rw [renameParent]; grind

theorem tidy_rename (env : PyEnv) (argv : List Str) : Tidy vars R (rename env argv) := by
  rw [rename, modifyNode]
  split
  · exact .pure _
  refine (tidy_updateDentry env).bind fun _ => (tidy_argAt _ _).bind fun token => (tidy_getRawPath _).bind fun raw => ?_
  split
  · refine (tidy_argAt _ _).bind fun token => (tidy_getRawPath _).bind fun raw => ?_
    split
    · refine (tidy_resolvePath _).bind fun parent => (tidy_belowResolved _ _).bind fun path => ?_
      refine (tidy_resolvePath _).bind fun parent => (tidy_belowResolved _ _).bind fun path => ?_
      split
      · exact .pure _
      split
      · exact .pure _
      refine tidy_getState.bind fun s => ?_
      split
      · split
        · split
          · refine (tidy_renameParent _ _).bind fun dirOld => ?_
            split
            · refine (tidy_renameParent _ _).bind fun dirNew => ?_
              split
              · refine (tidy_getInode _).bind fun dir => ?_
                split
                · exact .pure _
                refine (tidy_searchTree _ _).bind fun found => (tidy_orRaise _).bind fun above => ?_
                split
                · exact .pure _
                refine (tidy_getInode _).bind fun old => ?_
                grind
              · exact .pure _
            · exact .pure _
          · exact .pure _
        · exact .pure _
      · exact .pure _
    · exact .pure _
  · exact .pure _

@[grind ←] theorem tidy_getBlock (i : Inode) : Tidy vars R (getBlock i) := tidy_orRaise _

@[grind ←] theorem tidy_checkEmulSize (size : Int) : Tidy vars R (checkEmulSize size) := by rw [checkEmulSize]; grind

@[grind ←] theorem tidy_setLength (id : Nat) (length : Int) : Tidy vars R (setLength id length) := by
  rw [setLength]
  refine (tidy_checkEmulSize _).bind fun _ => (tidy_modifyState _).bind fun _ => (tidy_getInode _).bind fun i => ?_
  exact (tidy_getBlock _).bind fun block => tidy_modifyState _

theorem tidy_truncate (env : PyEnv) (argv : List Str) : Tidy vars R (truncate env argv) := by
  rw [truncate]
  split
  · exact .pure _
  refine (tidy_updateDentry env).bind fun _ => (tidy_argAt _ _).bind fun token => (tidy_getPath _).bind fun found => ?_
  split
  · refine (tidy_intAt _ _).bind fun length => tidy_getState.bind fun s => ?_
    split
    · exact (tidy_getInode _).bind fun i => by grind
    · exact .pure _
  · exact .pure _

theorem tidy_lseek (argv : List Str) : Tidy vars R (lseek argv) := by
  rw [lseek]
  split
  · exact .pure _
  refine (tidy_argAt _ _).bind fun fd => (tidy_getInodeOfFd _).bind fun found => ?_
  split
  · refine (tidy_getInode _).bind fun i => (tidy_orRaise _).bind fun old => ?_
    refine (tidy_intAt _ _).bind fun offset => (tidy_intAt _ _).bind fun whence => ?_
    split
    · exact .pure _
    extract_lets -underBinder seek
    have seeks : ∀ n, Tidy vars R (seek n) := fun n => (tidy_modifyState _).bind fun _ => .pure _
    clear_value seek
    grind
  · exact .pure _

theorem tidy_close (argv : List Str) : Tidy vars R (close argv) := by rw [close]; grind

@[grind ←] theorem tidy_sync (env : PyEnv) : Tidy vars R (sync env) := by rw [sync]; grind

theorem tidy_syncfs (env : PyEnv) (argv : List Str) : Tidy vars R (syncfs env argv) := by rw [syncfs]; grind

theorem tidy_fsync (env : PyEnv) (argv : List Str) : Tidy vars R (fsync env argv) := by rw [fsync]; grind

theorem tidy_fdatasync (argv : List Str) : Tidy vars R (fdatasync argv) := by rw [fdatasync]; grind

/-! ### Calls that read or set options -/

theorem tidy_openNew {path : Str} {opts : OpenOpts} {tupParent : Tup} {parent : Nat}
    (allowed : ∀ d, R d (d.insert var opts)) : Tidy vars R (openNew argv var path opts tupParent parent) := by
  rw [openNew]
  split
  · exact .pure _
  split
  · exact .pure _
  refine (tidy_argAt _ _).bind fun given => ?_
  extract_lets -underBinder rest
  have made : ∀ mode, Tidy vars R (rest mode) := by
    intro mode
    refine tidy_getState.bind fun s => (tidy_createInode _ _).bind fun _ => (tidy_setDentry _ _).bind fun _ => ?_
    refine (tidy_addTreeNode _ _).bind fun _ => (tidy_setOpts allowed).bind fun _ => ?_
    exact (tidy_addChildToParent _ _).bind fun _ => (tidy_bindFd _ _).bind fun _ => .pure _
  split
  · exact .bind (.pure _) made
  · exact .bind (tidy_map _ (tidy_intAt _ _)) made

theorem tidy_openOld {opts : OpenOpts} {id : Nat} (allowed : ∀ d, R d (d.insert var opts)) :
    Tidy vars R (openOld var opts id) := by
  rw [openOld]
  refine (tidy_modifyState _).bind fun _ => (tidy_getInode _).bind fun i => ?_
  extract_lets -underBinder rest
  have bound : ∀ r, Tidy vars R (rest r) := fun _ =>
    (tidy_setOpts allowed).bind fun _ => (tidy_bindFd _ _).bind fun _ => .pure _
  split
  · exact .bind (tidy_modifyState _) bound
  · exact bound ()

/-- The options that the flags of `open` stand for. -/
def flagOptions (argv : List Str) : Option OpenOpts := ((argv[1]?.bind parseInt).bind parseOpenFlags).join

theorem tidy_openCall {env : PyEnv} (allowed : ∀ o, flagOptions argv = some o → ∀ d, R d (d.insert var o)) :
    Tidy vars R (openCall env argv var) := by
  rw [openCall]
  refine (tidy_updateDentry env).bind fun _ => (tidy_argAt _ _).bind fun token => (tidy_getPath _).bind fun found => ?_
  split
  · refine tidy_getState.bind fun s => ?_
    split
    · refine tidy_orRaise_bind fun flags given => tidy_orRaise_bind fun parsed options => ?_
      split
      · rename_i opts
        have set : ∀ d, R d (d.insert var opts) := allowed opts (by rw [flagOptions, given, Option.bind_some, options]; rfl)
        refine (tidy_parentInode _ _).bind fun parent => ?_
        split
        · refine (tidy_getInode _).bind fun parentNode => ?_
          split
          · exact .pure _
          extract_lets -underBinder create
          have created : Tidy vars R create := tidy_openNew set
          have opened : ∀ id, Tidy vars R (openOld var opts id) := fun id => tidy_openOld set
          split
          · exact created
          · split
            · exact .pure _
            split
            · exact .pure _
            split
            · exact .pure _
            split
            · exact .pure _
            split
            · split
              · exact tidy_resetRecur.bind fun _ => .pure _
              · exact created
              · exact tidy_resetRecur.bind fun _ => opened _
            · exact opened _
        · exact .pure _
      · exact .pure _
    · exact .pure _
  · exact .pure _

/-- The flags that `creat` stands for. -/
def creatFlags : Str := "577".toList

theorem tidy_creat {env : PyEnv}
    (allowed : ∀ o, flagOptions [[], creatFlags, []] = some o → ∀ d, R d (d.insert var o)) :
    Tidy vars R (creat env argv var) := by
  rw [creat]
  split
  · exact .pure _
  · exact (tidy_argAt _ _).bind fun path => (tidy_argAt _ _).bind fun mode => tidy_openCall allowed

/-- The variable of a descriptor, as the token stands and without `(long)`. -/
def descriptorVars (argv : List Str) : List Str := (argv.head?.map fun fd => [fd, stripLong fd]).getD []

theorem mem_descriptorVars {fd : Str} (given : argv[0]? = some fd) :
    fd ∈ descriptorVars argv ∧ stripLong fd ∈ descriptorVars argv := by
  rw [← List.head?_eq_getElem?] at given
  simp [descriptorVars, given]

@[grind ←] theorem tidy_placeRead (i : Inode) (buf : Str) (bufSize nbyte offset : Int) :
    Tidy vars R (placeRead i buf bufSize nbyte offset) := by
  rw [placeRead]; grind

theorem tidy_read (argv : List Str) : Tidy (descriptorVars argv) R (read argv) := by
  rw [read]
  split
  · exact .pure _
  refine tidy_orRaise_bind fun fd given => ?_
  have options := tidy_getOpts (R := R) (mem_descriptorVars given).2
  extract_lets -underBinder var
  refine (tidy_getInodeOfFd _).bind fun found => ?_
  split
  · refine (tidy_getInode _).bind fun i => options.bind fun opts => ?_
    split
    · exact .pure _
    split
    · exact .pure _
    split
    · exact .pure _
    refine (tidy_argAt _ _).bind fun token => tidy_getState.bind fun s => ?_
    split
    · split
      · exact .pure _
      refine (tidy_orRaise _).bind fun offset => (tidy_intAt _ _).bind fun nbyte => ?_
      split
      · exact .pure _
      · exact (tidy_placeRead _ _ _ _ _).bind fun count => (tidy_modifyState _).bind fun _ => .pure _
    · exact .pure _
  · exact .pure _

theorem tidy_pread64 (argv : List Str) : Tidy (descriptorVars argv) R (pread64 argv) := by
  rw [pread64]
  split
  · exact .pure _
  refine tidy_orRaise_bind fun fd given => ?_
  have options := tidy_getOpts (R := R) (mem_descriptorVars given).1
  refine (tidy_getInodeOfFd _).bind fun found => ?_
  split
  · refine (tidy_getInode _).bind fun i => options.bind fun opts => ?_
    split
    · exact .pure _
    split
    · exact .pure _
    split
    · exact .pure _
    refine (tidy_argAt _ _).bind fun token => tidy_getState.bind fun s => ?_
    split
    · split
      · exact .pure _
      refine (tidy_intAt _ _).bind fun offset => (tidy_intAt _ _).bind fun nbyte => ?_
      split
      · exact .pure _
      · exact (tidy_placeRead _ _ _ _ _).bind fun count => .pure _
    · exact .pure _
  · exact .pure _

theorem tidy_writeTarget (argv : List Str) : Tidy (descriptorVars argv) R (writeTarget argv) := by
  rw [writeTarget]
  refine tidy_orRaise_bind fun fd given => ?_
  have options := tidy_getOpts (R := R) (mem_descriptorVars given).2
  refine (tidy_getInodeOfFd _).bind fun found => ?_
  split
  · refine (tidy_getInode _).bind fun i => ?_
    split
    · exact .pure _
    refine options.bind fun opts => ?_
    split
    · exact .pure _
    split
    · exact .pure _
    refine (tidy_argAt _ _).bind fun token => tidy_getState.bind fun s => ?_
    split
    · exact .pure _
    · exact .pure _
  · exact .pure _

theorem tidy_writeFrom (argv : List Str) (var : Str) (id : Nat) (i : Inode) (bufSize : Nat) (bufData : Str) (offset : Int) :
    Tidy vars R (writeFrom argv var id i bufSize bufData offset) := by
  refine (tidy_intAt _ _).bind fun nbyte => ?_
  split
  · exact .pure _
  refine (tidy_checkEmulSize _).bind fun _ => (tidy_getBlock _).bind fun block => ?_
  exact (tidy_orRaise _).bind fun old => (tidy_modifyState _).bind fun _ => .pure _

theorem tidy_write (argv : List Str) : Tidy (descriptorVars argv) R (write argv) := by
  rw [write]
  split
  · exact .pure _
  refine (tidy_writeTarget argv).bind fun target => ?_
  split
  · refine (tidy_argAt _ _).bind fun fd => ?_
    extract_lets -underBinder var rest
    have written : ∀ offset, Tidy (descriptorVars argv) R (rest offset) := fun offset => tidy_writeFrom ..
    split
    · exact .bind (.pure _) written
    · exact .bind (tidy_orRaise _) written
  · exact .pure _

theorem tidy_pwrite64 (argv : List Str) : Tidy (descriptorVars argv) R (pwrite64 argv) := by
  rw [pwrite64]
  split
  · exact .pure _
  refine (tidy_writeTarget argv).bind fun target => ?_
  split
  · refine (tidy_intAt _ _).bind fun offset => (tidy_intAt _ _).bind fun nbyte => ?_
    split
    · exact .pure _
    refine (tidy_checkEmulSize _).bind fun _ => (tidy_getBlock _).bind fun block => ?_
    exact (tidy_modifyState _).bind fun _ => .pure _
  · exact .pure _

theorem tidy_ftruncate (argv : List Str) : Tidy (descriptorVars argv) R (ftruncate argv) := by
  rw [ftruncate]
  split
  · exact .pure _
  refine tidy_orRaise_bind fun fd given => ?_
  have options := tidy_getOpts (R := R) (mem_descriptorVars given).1
  refine (tidy_getInodeOfFd _).bind fun found => ?_
  split
  · refine (tidy_getInode _).bind fun i => ?_
    split
    · exact .pure _
    refine options.bind fun opts => ?_
    split
    · exact .pure _
    split
    · exact .pure _
    exact (tidy_intAt _ _).bind fun length => (tidy_setLength _ _).bind fun _ => .pure _
  · exact .pure _

theorem tidy_otherCall (cfg : Setup) (call : Syscall) : Tidy (descriptorVars call.args) R (otherCall cfg call) := by
  refine ⟨?_, ?_⟩
  · rintro ⟨s, o⟩ ⟨t, o'⟩ ⟨rfl, opts⟩
    have read : call.args.head?.bind o.lookup = call.args.head?.bind o'.lookup := by
      cases given : call.args.head? with
      | none => rfl
      | some fd => exact opts fd (mem_descriptorVars (List.head?_eq_getElem? ▸ given)).1
    simp only [otherCall, read]
    cases cfg.others call (call.args.head?.bind o'.lookup) s with
    | none => exact .none
    | some r => exact .some ⟨rfl, rfl, opts⟩
  · intro w a w' run
    obtain ⟨r, -, same⟩ := Option.map_eq_some_iff.mp run
    cases same
    exact refl (r := R) w.optDict

end Calls

/-! ### What a call reads and sets -/

def Binds (var : Str) (o : Option OpenOpts) (d d' : OptDict) : Prop :=
  ∀ v, d'.lookup v = d.lookup v ∨ v = var ∧ d'.lookup v = o

instance (var : Str) (o : Option OpenOpts) : IsPreorder OptDict (Binds var o) where
  refl _ _ := .inl rfl
  trans d d₁ d' first second v := by
    rcases second v with same | set
    · rw [same]
      exact first v
    · exact .inr set

theorem binds_insert (var : Str) (o : OpenOpts) (d : OptDict) : Binds var (some o) d (d.insert var o) := by
  intro v
  by_cases equal : v = var
  · exact .inr ⟨equal, by rw [equal, AList.lookup_insert]⟩
  · exact .inl (AList.lookup_insert_ne equal)

/-- The variables may get the options of the descriptor. -/
def Copies (fd : Str) (targets : List Str) (d d' : OptDict) : Prop :=
  ∀ v, d'.lookup v = d.lookup v ∨ v ∈ targets ∧ d'.lookup v = d.lookup fd

instance (fd : Str) (targets : List Str) : IsPreorder OptDict (Copies fd targets) where
  refl _ _ := .inl rfl
  trans d d₁ d' first second v := by
    have kept : d₁.lookup fd = d.lookup fd := by
      rcases first fd with same | ⟨-, same⟩
      · exact same
      · exact same
    rcases second v with same | ⟨member, set⟩
    · rw [same]
      exact first v
    · exact .inr ⟨member, set.trans kept⟩

theorem tidy_aliasFd {vars targets : List Str} {fd : Str} {id : Nat} (read : fd ∈ vars) (set : var ∈ targets) :
    Tidy vars (Copies fd targets) (aliasFd var fd id) := by
  refine ⟨?_, ?_⟩
  · refine (tidy_getInode (R := Copies fd targets) id).reads.bind fun i => ?_
    refine (tidy_getOpts (R := Copies fd targets) read).reads.bind fun opts => ?_
    exact (tidy_modifyState (R := Copies fd targets) _).reads.bind fun _ => related_setOpts _ _
  · intro w a w' run
    obtain ⟨i, w₁, inode, run⟩ := bind_eq_some.mp run
    have kept : OnOpts Eq w w₁ := (tidy_getInode id : Tidy vars Eq (getInode id)).sets inode
    obtain ⟨opts, w₂, found, run⟩ := bind_eq_some.mp run
    obtain ⟨o, looked, same⟩ := Option.map_eq_some_iff.mp found
    cases same
    cases run
    intro v
    rw [show w.optDict = w₁.optDict from kept]
    by_cases equal : v = var
    · exact .inr ⟨equal ▸ set, by rw [looked, equal]; exact AList.lookup_insert _⟩
    · exact .inl (AList.lookup_insert_ne equal)

theorem tidy_dup {retDup2 : Option Str} {fd : Str} (given : argv[0]? = some fd) :
    Tidy (descriptorVars argv) (Copies fd (var :: retDup2.toList)) (dup argv var retDup2) := by
  rw [dup]
  split
  · exact .pure _
  refine tidy_orRaise_bind fun fd' given' => ?_
  cases given.symm.trans given'
  refine (tidy_getInodeOfFd _).bind fun found => ?_
  split
  · refine (tidy_aliasFd (mem_descriptorVars given).1 (List.mem_cons_self ..)).bind fun _ => ?_
    extract_lets -underBinder rest
    have counted : ∀ r, Tidy (descriptorVars argv) (Copies fd (var :: retDup2.toList)) (rest r) := fun _ =>
      (tidy_getInode _).bind fun i => (tidy_modifyState _).bind fun _ => .pure _
    split
    · exact counted ()
    · exact .bind (tidy_aliasFd (mem_descriptorVars given).1 (by simp)) counted
  · exact .pure _

theorem tidy_dup2 {fd fd2 : Str} (given : argv[0]? = some fd) (second : argv[1]? = some fd2) :
    Tidy (descriptorVars argv) (Copies fd [fd2, var]) (dup2 argv var) := by
  rw [dup2]
  split
  · exact .pure _
  refine tidy_orRaise_bind fun fd' given' => tidy_orRaise_bind fun fd2' second' => ?_
  cases given.symm.trans given'
  cases second.symm.trans second'
  refine (tidy_getInodeOfFd _).bind fun found => ?_
  split
  · split
    · exact .pure _
    · have dups : Tidy (descriptorVars argv) (Copies fd (fd2 :: (some var).toList)) (dup argv fd2 (some var)) := tidy_dup given
      exact (tidy_modifyState _).bind fun _ => dups.bind fun _ => .pure _
  · exact .pure _

/-- The variables whose options decide what a call does. -/
def optionVars (call : Syscall) : List Str :=
  match callKind call.name with
  | .read | .pread64 | .write | .pwrite64 | .ftruncate | .dup | .dup2 | .other => descriptorVars call.args
  | _ => []

/-- What a call may bind, for the options before it. -/
def bindings (d : OptDict) (call : Syscall) : List (Str × Option OpenOpts) :=
  match callKind call.name with
  | .open => [(call.ret, flagOptions call.args)]
  | .creat => [(call.ret, flagOptions [[], creatFlags, []])]
  | .dup => [(call.ret, call.args[0]?.bind d.lookup)]
  | .dup2 =>
    if call.args[0]? = call.args[1]? then []
    else [(call.args[1]?.getD [], call.args[0]?.bind d.lookup), (call.ret, call.args[0]?.bind d.lookup)]
  | _ => []

/-- The options change at most as the bindings of the call say. -/
def Rebinds (call : Syscall) (d d' : OptDict) : Prop :=
  ∀ v, d'.lookup v = d.lookup v ∨ (v, d'.lookup v) ∈ bindings d call

theorem Tidy.weaken {vars : List Str} {R S : OptDict → OptDict → Prop} {α : Type} {x : M α} (tidy : Tidy vars R x)
    (weaker : ∀ ⦃d d'⦄, R d d' → S d d') : Tidy vars S x :=
  ⟨tidy.reads, fun _ _ _ run => weaker (tidy.sets run)⟩

variable {call : Syscall}

theorem Rebinds.of_eq {d d' : OptDict} (same : d = d') : Rebinds call d d' := by
  subst same
  exact fun _ => .inl rfl

theorem tidy_dup_call (kind : callKind call.name = .dup) :
    Tidy (descriptorVars call.args) (Rebinds call) (dup call.args call.ret none) := by
  obtain ⟨name, args, ret⟩ := call
  rcases args with - | ⟨fd, args⟩
  · exact (Tidy.pure (R := Eq) _).weaken fun _ _ => Rebinds.of_eq
  · refine (tidy_dup rfl).weaken fun d d' copies v => ?_
    rcases copies v with same | ⟨member, same⟩
    · exact .inl same
    · right
      have target : v = ret := by simpa using member
      simp [bindings, kind, same, target]

theorem tidy_dup2_call (kind : callKind call.name = .dup2) :
    Tidy (descriptorVars call.args) (Rebinds call) (dup2 call.args call.ret) := by
  obtain ⟨name, args, ret⟩ := call
  rcases args with - | ⟨fd, - | ⟨fd2, args⟩⟩
  · exact (Tidy.pure (R := Eq) _).weaken fun _ _ => Rebinds.of_eq
  · exact (Tidy.pure (R := Eq) _).weaken fun _ _ => Rebinds.of_eq
  · by_cases equal : fd = fd2
    · -- a descriptor that is copied to itself
      subst equal
      refine Tidy.weaken ?_ fun _ _ => Rebinds.of_eq
      rw [dup2]
      split
      · exact .pure _
      refine tidy_orRaise_bind fun fd1 given => tidy_orRaise_bind fun fd2 second => ?_
      cases given.symm.trans second
      refine (tidy_getInodeOfFd _).bind fun found => ?_
      split
      · rw [if_pos rfl]
        exact .pure _
      · exact .pure _
    refine (tidy_dup2 rfl rfl).weaken fun d d' copies v => ?_
    rcases copies v with same | ⟨member, same⟩
    · exact .inl same
    · right
      have target : v = fd2 ∨ v = ret := by simpa using member
      simp [bindings, kind, same, target, equal]

theorem Rebinds.of_binds {o : Option OpenOpts} (bound : ∀ d, bindings d call = [(call.ret, o)]) {d d' : OptDict}
    (binds : Binds call.ret o d d') : Rebinds call d d' := by
  intro v
  rcases binds v with same | ⟨target, same⟩
  · exact .inl same
  · exact .inr (by rw [bound, same, target]; exact List.mem_singleton_self _)

/-- A call does the same for the same options of the variables it reads, and it sets options as its
bindings say. -/
theorem runCall_tidy {cfg : Setup} (noFault : isFailure (callKind call.name) = false) :
    Tidy (optionVars call) (Rebinds call) (runCall cfg call) := by
  have plain : ∀ {vars : List Str} {x : M Ret}, Tidy vars Eq x → Tidy vars (Rebinds call) x := fun tidy =>
    tidy.weaken fun _ _ => Rebinds.of_eq
  unfold runCall optionVars
  cases kind : callKind call.name with
  | failureDown | failureUp | failureNetDown | failureNetUp =>
    rw [kind] at noFault
    cases noFault
  | mkdir => exact plain (tidy_mkdir ..)
  | rmdir => exact plain (tidy_rmdir ..)
  | rename => exact plain (tidy_rename ..)
  | truncate => exact plain (tidy_truncate ..)
  | ftruncate => exact plain (tidy_ftruncate ..)
  | link => exact plain (tidy_link ..)
  | symlink => exact plain (tidy_symlink ..)
  | unlink => exact plain (tidy_unlink ..)
  | fsync => exact plain (tidy_fsync ..)
  | sync => exact plain (tidy_sync ..)
  | fdatasync => exact plain (tidy_fdatasync ..)
  | syncfs => exact plain (tidy_syncfs ..)
  | «open» =>
    have bound : ∀ d, bindings d call = [(call.ret, flagOptions call.args)] := fun d => by rw [bindings, kind]
    refine (tidy_openCall (R := Binds call.ret (flagOptions call.args)) fun o options d => ?_).weaken fun _ _ => .of_binds bound
    rw [options]
    exact binds_insert call.ret o d
  | creat =>
    have bound : ∀ d, bindings d call = [(call.ret, flagOptions [[], creatFlags, []])] := fun d => by rw [bindings, kind]
    refine (tidy_creat (R := Binds call.ret (flagOptions [[], creatFlags, []])) fun o options d => ?_).weaken fun _ _ =>
      .of_binds bound
    rw [options]
    exact binds_insert call.ret o d
  | write => exact plain (tidy_write ..)
  | pwrite64 => exact plain (tidy_pwrite64 ..)
  | read => exact plain (tidy_read ..)
  | pread64 => exact plain (tidy_pread64 ..)
  | lseek => exact plain (tidy_lseek ..)
  | close => exact plain (tidy_close ..)
  | dup => exact tidy_dup_call kind
  | dup2 => exact tidy_dup2_call kind
  | other => exact plain (tidy_otherCall ..)

end DfsFuzz.Symsc
