import DfsFuzz.Lib.FdTable
import DfsFuzz.Symsc.DescriptorCalls

/-!
Runs of the calls on descriptors, beside the table of descriptors that they stand for. One count of references
for an inode does not tell its descriptors apart: a `close` leaves the variable as it is or sets it to -1, which is
no missing descriptor to the later calls. An offset is kept for a variable, so that it is shared only while
every variable of the description is at the same one.
-/

namespace DfsFuzz.Symsc

open Effects

/-- Every variable has the file of its descriptor, or none, and those of one description have one offset. -/
structure FdsRight (s : State) (t : FdTable Str Nat) : Prop where
  refers : ∀ v, s.fdInode v = some (t.fileOf v)
  shared : ∀ d id, t.file d = some id → ∃ n, ∀ v, t.at? v = some d → s.fdOffset id v = some n

def fdOperations (ret : Str) : List (List Str → M Ret) :=
  [read, write, lseek, fun argv => dup argv ret none, close, getdents]

/-- Every call on the variable returns an error, and changes nothing. -/
def RefusesFd (s : State) (v : Str) : Prop :=
  ∀ opts argv ret, argv.head?.map stripLong = some v → ∀ op ∈ fdOperations ret,
    ∃ r, op argv ⟨s, opts⟩ = some (r, ⟨s, opts⟩) ∧ r.isError = true

/-- A variable is usable exactly while its descriptor is open. -/
structure Lawful (s : State) (t : FdTable Str Nat) : Prop extends FdsRight s t where
  refuses : ∀ v, t.at? v = none → RefusesFd s v

theorem refusesFd_of_none {s : State} {v : Str} (absent : s.fdInode v = some none) : RefusesFd s v := by
  intro opts argv ret first op member
  cases argv with
  | nil => cases first
  | cons fd rest =>
    cases first
    have noFd : getInodeOfFd fd ⟨s, opts⟩ = some (none, ⟨s, opts⟩) := by
      rw [getInodeOfFd_eq]
      dsimp only
      rw [absent]
      rfl
    have token : argAt (fd :: rest) 0 ⟨s, opts⟩ = some (fd, ⟨s, opts⟩) := rfl
    simp only [fdOperations, List.mem_cons, List.not_mem_nil, or_false] at member
    rcases member with rfl | rfl | rfl | rfl | rfl | rfl
    · by_cases short : (fd :: rest).length < 3
      · exact ⟨.int 1, by rw [read, if_pos short]; rfl, rfl⟩
      · exact ⟨.int (-1), by rw [read, if_neg short, M.bind_run token]; exact M.bind_run noFd, rfl⟩
    · by_cases short : (fd :: rest).length < 3
      · exact ⟨.int 1, by rw [write, if_pos short]; rfl, rfl⟩
      · have target : writeTarget (fd :: rest) ⟨s, opts⟩ = some (none, ⟨s, opts⟩) := by
          rw [writeTarget, M.bind_run token]
          exact M.bind_run noFd
        exact ⟨.int 1, by rw [write, if_neg short]; exact M.bind_run target, rfl⟩
    · by_cases short : (fd :: rest).length < 3
      · exact ⟨.int 1, by rw [lseek, if_pos short]; rfl, rfl⟩
      · exact ⟨.int 1, by rw [lseek, if_neg short, M.bind_run token]; exact M.bind_run noFd, rfl⟩
    · exact ⟨.int (-1), by
        change dup (fd :: rest) ret none _ = _
        rw [dup, if_neg (by simp), M.bind_run token]
        exact M.bind_run noFd, rfl⟩
    · exact ⟨.int (-1), by rw [close, if_neg (by simp), M.bind_run token]; exact M.bind_run noFd, rfl⟩
    · by_cases short : (fd :: rest).length < 3
      · exact ⟨.int (-1), by rw [getdents, if_pos short]; rfl, rfl⟩
      · exact ⟨.int (-1), by rw [getdents, if_neg short, M.bind_run token]; exact M.bind_run noFd, rfl⟩

theorem FdsRight.lawful {s : State} {t : FdTable Str Nat} (right : FdsRight s t) : Lawful s t where
  toFdsRight := right
  refuses v closed := by
    refine refusesFd_of_none ?_
    rw [right.refers, FdTable.fileOf, closed, Option.bind_none]

theorem lawful_iff {s : State} {t : FdTable Str Nat} : Lawful s t ↔ FdsRight s t := ⟨Lawful.toFdsRight, FdsRight.lawful⟩

/-! ### Setting variables -/

/-- The other variables that are to refer to the description have its file already, at the offset. -/
def Agrees (s : State) (t t' : FdTable Str Nat) (vars : List Str) (d : Nat) (n : Int) : Prop :=
  ∀ v ∉ vars, t'.at? v = some d → ∃ id, t'.file d = some id ∧ t.fileOf v = some id ∧ s.fdOffset id v = some n

theorem Retargets.fdInode {vars : List Str} {id : Nat} {n : Int} {s s' : State} (sets : Retargets vars id n s s')
    (stored : Stored s) {v : Str} (outside : v ∉ vars) {found : Option Nat} (here : s.fdInode v = some found) :
    s'.fdInode v = some found := by
  rw [← here]
  refine fdInode_congr (sets.lookup v outside) fun j opened => ?_
  have present : (s.inode? j).isSome := by
    rw [State.fdInode, opened] at here
    by_contra absent
    simp [absent] at here
  rw [present, sets.kept.present stored present]

section Sets

variable {s s' : State} {t t' : FdTable Str Nat} {vars : List Str} {d id : Nat} {n : Int}

/-- What setting variables comes to: it is right exactly where the others agree. -/
theorem right_iff_agrees (right : FdsRight s t) (stored : Stored s) (sets : Retargets vars id n s s')
    (file : t'.file d = some id) (files : ∀ v e, t.at? v = some e → t'.file e = t.file e)
    (given : ∀ v ∈ vars, t'.at? v = some d) (others : ∀ v ∉ vars, t'.at? v = some d ∨ t'.at? v = t.at? v)
    (one : ∃ v, t'.at? v = some d ∧ s'.fdOffset id v = some n) : FdsRight s' t' ↔ Agrees s t t' vars d n := by
  constructor
  · intro right' v outside joined
    have here : s'.fdInode v = some (some id) := by rw [right'.refers, FdTable.fileOf_live joined, file]
    have opened := (fdInode_eq_some here).1
    rw [sets.lookup v outside] at opened
    have before := right.refers v
    have present : (s.inode? id).isSome := by
      rw [State.fdInode, opened] at before
      by_contra absent
      simp [absent] at before
    rw [fdInode_opened opened present, Option.some.injEq] at before
    refine ⟨id, file, before.symm, ?_⟩
    obtain ⟨m, offsets⟩ := right'.shared d id file
    obtain ⟨w, refers, offset⟩ := one
    have same : n = m := Option.some.inj (offset.symm.trans (offsets w refers))
    rw [← sets.kept.offset stored present fun set => outside set.2, offsets v joined, same]
  · intro agrees
    have kept : ∀ {v j}, v ∉ vars → t.fileOf v = some j → s'.fdOffset j v = s.fdOffset j v := fun {v j} outside refers => by
      have here := right.refers v
      rw [refers] at here
      exact sets.kept.offset stored (fdInode_eq_some here).2 fun set => outside set.2
    refine ⟨fun v => ?_, fun e j named => ?_⟩
    · by_cases inside : v ∈ vars
      · rw [FdTable.fileOf_live (given v inside), file]
        exact fdInode_opened (sets.opened v inside) (present_of_offset (sets.offset stored v inside))
      · refine sets.fdInode stored inside ?_
        rw [right.refers]
        congr 1
        rcases others v inside with joined | same
        · obtain ⟨j, named, refers, -⟩ := agrees v inside joined
          rw [refers, FdTable.fileOf_live joined, named]
        · rw [FdTable.fileOf, FdTable.fileOf, same]
          cases live : t.at? v with
          | none => rfl
          | some e => exact (files v e live).symm
    · by_cases joined : e = d
      · subst joined
        cases file.symm.trans named
        refine ⟨n, fun v live => ?_⟩
        by_cases inside : v ∈ vars
        · exact sets.offset stored v inside
        · obtain ⟨j, named', refers, offset⟩ := agrees v inside live
          cases file.symm.trans named'
          rw [kept inside refers, offset]
      · by_cases used : ∃ v, t.at? v = some e
        · obtain ⟨w, live⟩ := used
          have before := (files w e live).symm.trans named
          obtain ⟨m, offsets⟩ := right.shared e j before
          refine ⟨m, fun v live' => ?_⟩
          have outside : v ∉ vars := fun inside => joined (Option.some.inj (live'.symm.trans (given v inside)))
          have same : t.at? v = some e := by
            rcases others v outside with other | same
            · exact absurd (Option.some.inj (live'.symm.trans other)) joined
            · rw [← same, live']
          rw [kept outside ((FdTable.fileOf_live same).trans before), offsets v same]
        · refine ⟨0, fun v live => ?_⟩
          exfalso
          by_cases inside : v ∈ vars
          · exact joined (Option.some.inj (live.symm.trans (given v inside)))
          · rcases others v inside with other | same
            · exact joined (Option.some.inj (live.symm.trans other))
            · exact used ⟨v, same.symm.trans live⟩

end Sets

/-! ### Steps -/

/-- The table after a call: it is that of the calls that return no error. -/
def tableAfter (t : FdTable Str Nat) (call : Syscall) (ret : Ret) (s' : State) : FdTable Str Nat :=
  if ret.isError then t
  else
    match callKind call.name, call.args with
    | .open, _ | .creat, _ =>
      match s'.fdStack.lookup call.ret with
      | some (.opened id) => t.opened call.ret id
      | _ => t
    | .dup, fd :: _ =>
      match t.at? (stripLong fd) with
      | some d => t.duped call.ret d
      | none => t
    | .dup2, fd1 :: fd2 :: _ =>
      match t.at? (stripLong fd1) with
      | some d => t.duped2 (stripLong fd2) call.ret d
      | none => t
    | .close, fd :: _ => t.closed (stripLong fd)
    | _, _ => t

/-- No open descriptor is closed; what a duplication or a move sets leaves no other variable of the
description at another offset; and the second argument of `dup2` is the variable itself. -/
def Proper (s : State) (t : FdTable Str Nat) (call : Syscall) : Prop :=
  match callKind call.name, call.args with
  | .close, fd :: _ => t.at? (stripLong fd) = none
  | .dup, fd :: _ => ∀ d, t.at? (stripLong fd) = some d → Agrees s t (t.duped call.ret d) [call.ret] d 0
  | .dup2, fd1 :: fd2 :: _ => ∀ d, t.at? (stripLong fd1) = some d →
    let t' := t.duped2 (stripLong fd2) call.ret d
    if fd1 = fd2 then
      ∀ id n, t.file d = some id → s.fdOffset id (stripLong fd1) = some n → Agrees s t t' [] d n
    else stripLong fd2 = fd2 ∧ Agrees s t t' [fd2, call.ret] d 0
  | .lseek, fd :: by_ :: from_ :: _ => ∀ d id i old offset whence n, t.at? (stripLong fd) = some d → t.file d = some id →
    s.inode? id = some i → i.offset.lookup (stripLong fd) = some old → parseInt by_ = some offset →
    parseInt from_ = some whence → seekTo i old offset whence = some n → Agrees s t t [stripLong fd] d n
  | _, _ => True

/-- The result of a call is not assigned to what its second argument is a cast of. -/
def PlainResult (call : Syscall) : Prop := ∀ fd2, call.args[1]? = some fd2 → stripLong fd2 = call.ret → fd2 = call.ret

section Steps

variable {s : State} {t : FdTable Str Nat} {w w' : Ctx} {call : Syscall} {r : Ret}

theorem FirstFd.live {argv : List Str} {id : Nat} (right : FdsRight s t) (first : FirstFd s argv id) :
    ∃ fd rest d, argv = fd :: rest ∧ t.at? (stripLong fd) = some d ∧ t.file d = some id := by
  obtain ⟨fd, given, here⟩ := first
  cases argv with
  | nil => cases given
  | cons first rest =>
    cases given
    rw [right.refers, Option.some.injEq] at here
    obtain ⟨d, live, file⟩ := Option.bind_eq_some_iff.mp here
    exact ⟨fd, rest, d, rfl, live, file⟩

theorem opened_right (right : FdsRight w.st t) (stored : Stored w.st) (sound : t.Sound) {var : Str} {id : Nat}
    (sets : Retargets [var] id 0 w.st w'.st) : FdsRight w'.st (t.opened var id) := by
  refine (right_iff_agrees right stored sets (d := t.next) ?_ (fun v e live => ?_) (fun v member => ?_) (fun v outside => ?_)
    ⟨var, ?_, sets.offset stored var (by simp)⟩).mpr fun v outside joined => ?_
  · simp [FdTable.opened, FdTable.assign, FdTable.describe]
  · simp [FdTable.opened, FdTable.assign, FdTable.describe, Function.update_of_ne (Nat.ne_of_lt (sound.known live).1)]
  · rw [FdTable.at?_opened sound, if_pos (List.mem_singleton.mp member)]
  · rw [FdTable.at?_opened sound, if_neg fun same => outside (List.mem_singleton.mpr same)]
    exact .inr rfl
  · rw [FdTable.at?_opened sound, if_pos rfl]
  · rw [FdTable.at?_opened sound, if_neg fun same => outside (List.mem_singleton.mpr same)] at joined
    exact absurd (sound.known joined).1 (Nat.lt_irrefl _)

theorem duped_right_iff (right : FdsRight w.st t) (stored : Stored w.st) (sound : t.Sound) {var : Str} {d id : Nat}
    (file : t.file d = some id) (sets : Retargets [var] id 0 w.st w'.st) :
    FdsRight w'.st (t.duped var d) ↔ Agrees w.st t (t.duped var d) [var] d 0 := by
  refine right_iff_agrees right stored sets file (fun _ _ _ => rfl) (fun v member => ?_) (fun v outside => ?_)
    ⟨var, ?_, sets.offset stored var (by simp)⟩
  · rw [FdTable.at?_duped sound, if_pos (List.mem_singleton.mp member)]
  · rw [FdTable.at?_duped sound, if_neg fun same => outside (List.mem_singleton.mpr same)]
    exact .inr rfl
  · rw [FdTable.at?_duped sound, if_pos rfl]

/-- The second argument is a variable: it was shut before, which does not show. -/
theorem Retargets.of_shut {fd2 var : Str} {id : Nat} {n : Int} {s s' : State} (sets : Retargets [fd2, var] id n (s.shut fd2) s') :
    Retargets [fd2, var] id n s s' where
  lookup v outside := by
    rw [sets.lookup v outside]
    exact s.lookup_shut_ne fun same => outside (same ▸ List.mem_cons_self)
  opened := sets.opened
  kept := (s.shut_kept _ fd2).trans sets.kept
  offset stored := sets.offset ((s.shut_kept (fun _ _ => False) fd2).stored stored)

theorem duped2_others (onto var v : Str) (d : Nat) :
    (t.duped2 onto var d).at? v = some d ∨ (t.duped2 onto var d).at? v = t.at? v := by
  rw [FdTable.at?_duped2]
  split
  · exact .inl rfl
  · exact .inr rfl

theorem duped2_given {onto var v : Str} (d : Nat) (member : v ∈ [onto, var]) : (t.duped2 onto var d).at? v = some d := by
  rw [FdTable.at?_duped2, if_pos (.inl member)]

theorem duped2_right_iff (right : FdsRight w.st t) (stored : Stored w.st) {fd2 var : Str} {d id : Nat}
    (file : t.file d = some id) (sets : Retargets [fd2, var] id 0 w.st w'.st) :
    FdsRight w'.st (t.duped2 fd2 var d) ↔ Agrees w.st t (t.duped2 fd2 var d) [fd2, var] d 0 :=
  right_iff_agrees right stored sets file (fun _ _ _ => rfl) (fun _ member => duped2_given d member)
    (fun v _ => duped2_others fd2 var v d) ⟨var, duped2_given d (by simp), sets.offset stored var (by simp)⟩

theorem duped2_wrong {fd2 var : Str} {d id : Nat} (file : t.file d = some id) (cast : stripLong fd2 ≠ fd2)
    (other : stripLong fd2 ≠ var) (sets : Retargets [fd2, var] id 0 (s.shut (stripLong fd2)) w'.st) :
    ¬ FdsRight w'.st (t.duped2 (stripLong fd2) var d) := by
  intro right'
  have outside : stripLong fd2 ∉ [fd2, var] := by simp [cast, other]
  have refers := right'.refers (stripLong fd2)
  rw [FdTable.fileOf_live (duped2_given d (by simp))] at refers
  have opened := (fdInode_eq_some (refers.trans (congrArg some file))).1
  rw [sets.lookup _ outside] at opened
  rcases s.lookup_shut_self (stripLong fd2) with absent | closed
  · exact absurd (absent.symm.trans opened) nofun
  · exact absurd (closed.symm.trans opened) nofun

/-- With its arguments alike `dup2` sets nothing, though its result is to be a descriptor. -/
theorem duped2_same_iff (right : FdsRight s t) (stored : Stored s) {v var : Str} {d id : Nat} {n : Int}
    (file : t.file d = some id) (offset : s.fdOffset id v = some n) :
    FdsRight s (t.duped2 v var d) ↔ Agrees s t (t.duped2 v var d) [] d n :=
  right_iff_agrees right stored ((refl (⟨s, ∅⟩ : Ctx) : Still _ _).retargets id n) file (fun _ _ _ => rfl) nofun
    (fun w _ => duped2_others v var w d) ⟨v, duped2_given d (by simp), offset⟩

theorem sought_right_iff (right : FdsRight w.st t) (stored : Stored w.st) {v : Str} {d id : Nat} {n : Int}
    (live : t.at? v = some d) (file : t.file d = some id) (sets : Retargets [v] id n w.st w'.st) :
    FdsRight w'.st t ↔ Agrees w.st t t [v] d n :=
  right_iff_agrees right stored sets file (fun _ _ _ => rfl) (fun u member => by rw [List.mem_singleton.mp member, live])
    (fun _ _ => .inr rfl) ⟨v, live, sets.offset stored v (by simp)⟩

/-- Whatever the count is: a descriptor that is closed keeps its inode, or is -1. -/
theorem closed_wrong {v : Str} {s' : State} {id : Nat} (here : s.fdInode v = some (some id)) (stored : Stored s)
    (kept : KeptBut (fun _ _ => False) s s')
    (set : s'.fdStack = s.fdStack ∨ s'.fdStack = s.fdStack.insert v .closed) : ¬ FdsRight s' (t.closed v) := by
  intro right'
  have gone := right'.refers v
  rw [FdTable.fileOf, FdTable.at?_closed, if_pos rfl, Option.bind_none] at gone
  obtain ⟨opened, present⟩ := fdInode_eq_some here
  rcases set with same | closed
  · have still := fdInode_opened (same ▸ opened) (kept.present stored present)
    cases gone.symm.trans still
  · rw [State.fdInode, closed, AList.lookup_insert] at gone
    cases gone

theorem FdsRight.still (right : FdsRight w.st t) (stored : Stored w.st) (still : Still w w') : FdsRight w'.st t where
  refers v := (still.retargets 0 0).fdInode stored (by simp) (right.refers v)
  shared d id file := by
    obtain ⟨n, offsets⟩ := right.shared d id file
    refine ⟨n, fun v live => ?_⟩
    have here := right.refers v
    rw [FdTable.fileOf_live live, file] at here
    rw [still.kept.offset stored (fdInode_eq_some here).2 not_false, offsets v live]

/-- The calls that make, move and close descriptors. -/
def handleCalls : List CallKind := [.open, .creat, .dup, .dup2, .close, .lseek]

/-- What a call is to keep, and when it leaves the descriptors right. -/
structure Steps (s s' : State) (t t' : FdTable Str Nat) (call : Syscall) : Prop where
  stored : Stored s'
  sound : t'.Sound
  right : Proper s t call → FdsRight s' t'
  proper : PlainResult call → FdsRight s' t' → Proper s t call

theorem Steps.of_iff {s' : State} {t' : FdTable Str Nat} (stored : Stored s') (sound : t'.Sound)
    (iff : FdsRight s' t' ↔ Proper s t call) : Steps s s' t t' call := ⟨stored, sound, iff.mpr, fun _ => iff.mp⟩

theorem opens_steps (right : FdsRight w.st t) (stored : Stored w.st) (sound : t.Sound) (ok : r.isError = false)
    (kind : callKind call.name = .open ∨ callKind call.name = .creat) (opens : Opens call.ret w w') :
    Steps w.st w'.st t (tableAfter t call r w'.st) call := by
  obtain ⟨id, sets⟩ := opens
  have table : tableAfter t call r w'.st = t.opened call.ret id := by
    rw [tableAfter, if_neg (by simp [ok])]
    rcases kind with kind | kind <;> simp only [kind, sets.opened call.ret List.mem_cons_self]
  rw [table]
  refine ⟨sets.kept.stored stored, sound.opened _ _, fun _ => opened_right right stored sound sets, fun _ _ => ?_⟩
  rw [Proper]
  rcases kind with kind | kind <;> simp only [kind]

theorem dup_steps (right : FdsRight w.st t) (stored : Stored w.st) (sound : t.Sound) (ok : r.isError = false)
    (kind : callKind call.name = .dup) (run : dup call.args call.ret none w = some (r, w')) :
    Steps w.st w'.st t (tableAfter t call r w'.st) call := by
  rcases dup_cases run with ⟨error, -⟩ | ⟨id, first, sets⟩
  · rw [error] at ok
    cases ok
  obtain ⟨fd, rest, d, args, live, file⟩ := first.live right
  have table : tableAfter t call r w'.st = t.duped call.ret d := by
    rw [tableAfter, if_neg (by simp [ok])]
    simp only [kind, args, live]
  rw [table]
  refine .of_iff (sets.kept.stored stored) (sound.duped _ live) ?_
  rw [duped_right_iff right stored sound file sets, Proper]
  simp only [kind, args, live, Option.some.injEq, forall_eq']

theorem dup2_steps (right : FdsRight w.st t) (stored : Stored w.st) (sound : t.Sound) (ok : r.isError = false)
    (kind : callKind call.name = .dup2) (run : dup2 call.args call.ret w = some (r, w')) :
    Steps w.st w'.st t (tableAfter t call r w'.st) call := by
  obtain ⟨fd1, fd2, id, given1, given2, here, sets⟩ := dup2_retargets run ok
  obtain ⟨fd1', rest, d, args, live, file⟩ := FirstFd.live right ⟨fd1, given1, here⟩
  have args : ∃ more, call.args = fd1 :: fd2 :: more := by
    rw [args] at given1 given2
    cases given1
    cases rest with
    | nil => cases given2
    | cons second more =>
      cases given2
      exact ⟨more, args⟩
  obtain ⟨more, args⟩ := args
  have live : t.at? (stripLong fd1) = some d := by
    rw [‹call.args = fd1' :: rest›] at given1
    cases given1
    exact live
  have table : tableAfter t call r w'.st = t.duped2 (stripLong fd2) call.ret d := by
    rw [tableAfter, if_neg (by simp [ok])]
    simp only [kind, args, live]
  rw [table]
  have tokens : Proper w.st t call ↔ if fd1 = fd2 then ∀ id n, t.file d = some id → w.st.fdOffset id (stripLong fd1) = some n →
      Agrees w.st t (t.duped2 (stripLong fd2) call.ret d) [] d n
      else stripLong fd2 = fd2 ∧ Agrees w.st t (t.duped2 (stripLong fd2) call.ret d) [fd2, call.ret] d 0 := by
    rw [Proper]
    simp only [kind, args, live, Option.some.injEq, forall_eq']
  rcases sets with ⟨rfl, rfl⟩ | ⟨different, sets⟩
  · obtain ⟨n, offsets⟩ := right.shared d id file
    have offset := offsets _ live
    refine .of_iff stored (sound.duped2 _ _ live) ?_
    rw [duped2_same_iff right stored file offset, tokens, if_pos rfl]
    refine ⟨fun agrees id' n' file' offset' => ?_, fun all => all id n file offset⟩
    cases file.symm.trans file'
    cases offset.symm.trans offset'
    exact agrees
  · have stored' := sets.kept.stored ((w.st.shut_kept (fun _ _ => False) _).stored stored)
    rw [if_neg different] at tokens
    by_cases cast : stripLong fd2 = fd2
    · rw [cast] at sets tokens ⊢
      refine .of_iff stored' (sound.duped2 _ _ live) ?_
      rw [duped2_right_iff right stored file sets.of_shut, tokens, and_iff_right rfl]
    · refine ⟨stored', sound.duped2 _ _ live, fun proper => absurd (tokens.mp proper).1 cast, fun plain right' => ?_⟩
      have other : stripLong fd2 ≠ call.ret := fun same => by
        have whole := plain fd2 given2 same
        exact cast (same.trans whole.symm)
      exact absurd right' (duped2_wrong file cast other sets)

theorem lseek_steps (right : FdsRight w.st t) (stored : Stored w.st) (sound : t.Sound) (ok : r.isError = false)
    (kind : callKind call.name = .lseek) (run : lseek call.args w = some (r, w')) :
    Steps w.st w'.st t (tableAfter t call r w'.st) call := by
  obtain ⟨fd, id, i, old, offset, whence, given, here, inode, before, asked, from_, sets⟩ := lseek_sets run ok
  obtain ⟨fd', rest, d, args, live, file⟩ := FirstFd.live right ⟨fd, given, here⟩
  rw [args] at given asked from_
  cases given
  obtain ⟨second, given, asked⟩ := Option.bind_eq_some_iff.mp asked
  obtain ⟨third, given', from_⟩ := Option.bind_eq_some_iff.mp from_
  obtain ⟨more, rfl⟩ : ∃ more, rest = second :: third :: more := by
    rcases rest with - | ⟨a, - | ⟨b, more⟩⟩
    · cases given
    · cases given'
    · cases given
      cases given'
      exact ⟨more, rfl⟩
  have table : tableAfter t call r w'.st = t := by
    rw [tableAfter, if_neg (by simp [ok])]
    simp only [kind]
  rw [table]
  have moved : Proper w.st t call ↔ ∀ n, seekTo i old offset whence = some n → Agrees w.st t t [stripLong fd] d n := by
    rw [Proper]
    simp only [kind, args]
    refine ⟨fun all n same => all d id i old offset whence n live file inode before asked from_ same, ?_⟩
    intro all d' id' i' old' offset' whence' n live' file' inode' before' asked' from' same
    cases live.symm.trans live'
    cases file.symm.trans file'
    cases inode.symm.trans inode'
    cases before.symm.trans before'
    cases asked.symm.trans asked'
    cases from_.symm.trans from'
    exact all n same
  cases sought : seekTo i old offset whence with
  | none =>
    rw [sought] at sets
    cases sets
    refine ⟨stored, sound, fun _ => right, fun _ _ => moved.mpr fun n same => ?_⟩
    cases sought.symm.trans same
  | some n =>
    rw [sought] at sets
    refine .of_iff (sets.kept.stored stored) sound ?_
    rw [sought_right_iff right stored live file sets, moved, sought]
    simp only [Option.some.injEq, forall_eq']

theorem close_steps (right : FdsRight w.st t) (stored : Stored w.st) (sound : t.Sound) (ok : r.isError = false)
    (kind : callKind call.name = .close) (run : close call.args w = some (r, w')) :
    Steps w.st w'.st t (tableAfter t call r w'.st) call := by
  obtain ⟨fd, id, given, here, kept, set⟩ := close_sets run ok
  obtain ⟨fd, rest, d, args, live, -⟩ := FirstFd.live right ⟨fd, given, here⟩
  rw [args] at given
  cases given
  have table : tableAfter t call r w'.st = t.closed (stripLong fd) := by
    rw [tableAfter, if_neg (by simp [ok])]
    simp only [kind, args]
  rw [table]
  refine .of_iff (kept.stored stored) (sound.closed _) ?_
  rw [Proper]
  simp only [kind, args, live, reduceCtorEq, iff_false]
  exact closed_wrong here stored kept set

end Steps

end DfsFuzz.Symsc
