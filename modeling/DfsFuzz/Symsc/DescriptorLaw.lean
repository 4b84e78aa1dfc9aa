import DfsFuzz.Symsc.DescriptorRuns

/-!
The law of descriptors over runs of `open`, `creat`, `dup`, `dup2`, `close` and `lseek`. It holds along a run
whose calls are proper, and is lost with the first one that is not.
-/

namespace DfsFuzz.Symsc

open Effects

structure NoFds (s : State) : Prop where
  stored : Stored s
  none : ∀ v, s.fdInode v = some none

theorem initState_noFds (read : Parsed) (nodes : Nat) : NoFds (initState read nodes) where
  stored := by
    refine ⟨fun id present => ?_, fun id present => by cases present⟩
    rw [State.inode?] at present
    by_cases same : id = 0
    · rw [same]
      exact Nat.zero_lt_one
    · simp [initState, Py.Dict.get?_set_ne _ same] at present
  none v := by
    have undefined : (initState read nodes).fdStack.lookup v = none ∨ (initState read nodes).fdStack.lookup v = some .undefined := by
      simp only [initState, Go.Map.lookup_mapValues]
      cases read.fdStack.lookup v with
      | none => exact .inl rfl
      | some t => exact .inr rfl
    rw [State.fdInode]
    rcases undefined with absent | undefined
    · rw [absent]
    · rw [undefined]

/-- A run of the calls on descriptors, with the table beside it. `allowed` is what every step meets before it runs. -/
inductive FdRun (cfg : Setup) (s₀ : State) (g₀ : Globals) (allowed : State → Globals → FdTable Str Nat → Nat → Syscall → Prop) :
    State → Globals → FdTable Str Nat → Prop
  | start : FdRun cfg s₀ g₀ allowed s₀ g₀ .empty
  | step {s s' : State} {g g' : Globals} {t : FdTable Str Nat} {idx : Nat} {call : Syscall} {ret : Ret}
      (before : FdRun cfg s₀ g₀ allowed s g t) (here : cfg.calls[idx]? = some call)
      (kind : callKind call.name ∈ handleCalls) (meets : allowed s g t idx call)
      (run : emulate cfg g s idx = some (ret, s', g')) : FdRun cfg s₀ g₀ allowed s' g' (tableAfter t call ret s')

/-- The call is refused by the fault model, or is proper. -/
def ProperCall (cfg : Setup) (s : State) (g : Globals) (t : FdTable Str Nat) (idx : Nat) (call : Syscall) : Prop :=
  Refused cfg g s idx call ∨ Proper s t call

variable {cfg : Setup} {s s' s₀ : State} {g g' g₀ : Globals} {t : FdTable Str Nat} {idx : Nat} {call : Syscall} {ret : Ret}

theorem tableAfter_error (error : ret.isError = true) : tableAfter t call ret s' = t := by
  rw [tableAfter, if_pos error]

theorem failed_still {w w' : Ctx} (kind : callKind call.name ∈ handleCalls) (run : runCall cfg call w = some (ret, w'))
    (error : ret.isError = true) : Still w w' := by
  have covered : callKind call.name ∈ descriptorCalls ∨ callKind call.name ∈ nameCalls := by
    revert kind
    generalize callKind call.name = kind
    revert kind
    decide
  rcases runCall_failed covered run error with ⟨-, rfl⟩ | ⟨-, -, refreshed⟩
  · exact refl _
  · exact refreshed.moved.still

theorem called_steps {w w' : Ctx} (right : FdsRight w.st t) (stored : Stored w.st) (sound : t.Sound)
    (kind : callKind call.name ∈ handleCalls) (run : runCall cfg call w = some (ret, w')) (ok : ret.isError = false) :
    Steps w.st w'.st t (tableAfter t call ret w'.st) call := by
  simp only [handleCalls, List.mem_cons, List.not_mem_nil, or_false] at kind
  rw [runCall] at run
  rcases kind with kind | kind | kind | kind | kind | kind <;> rw [kind] at run
  · exact opens_steps right stored sound ok (.inl kind) (openCall_opens _ _ _ run ok)
  · exact opens_steps right stored sound ok (.inr kind) (creat_opens _ _ _ run ok)
  · exact dup_steps right stored sound ok kind run
  · exact dup2_steps right stored sound ok kind run
  · exact close_steps right stored sound ok kind run
  · exact lseek_steps right stored sound ok kind run

/-- A call of `emulate` that is no fault is refused, or runs on the state with another counter. -/
theorem emulate_runs (here : cfg.calls[idx]? = some call) (kind : callKind call.name ∈ handleCalls)
    (run : emulate cfg g s idx = some (ret, s', g')) :
    (ret.isError = true ∧ s' = s) ∨
      ¬ Refused cfg g s idx call ∧ ∃ cnt ctx, runCall cfg call ⟨{ s with cntRecur := cnt }, g.optDict⟩ = some (ret, ctx) ∧ s' = ctx.st := by
  obtain ⟨recorded, known, run⟩ := Option.bind_eq_some_iff.mp run
  obtain ⟨call', same, run⟩ := Option.bind_eq_some_iff.mp run
  cases here.symm.trans same
  have noFault : isFailure (callKind call.name) = false := by
    revert kind
    generalize callKind call.name = kind
    revert kind
    decide
  rw [noFault, if_neg Bool.false_ne_true] at run
  obtain ⟨decision, decided, run⟩ := Option.bind_eq_some_iff.mp run
  obtain ⟨no, cnt⟩ := decision
  dsimp only at run
  split at run
  · cases run
    exact .inl ⟨rfl, rfl⟩
  · obtain ⟨after, called, same⟩ := Option.bind_eq_some_iff.mp run
    cases same
    refine .inr ⟨?_, cnt, after.2, called, rfl⟩
    rintro ⟨recorded', cnt', known', refusal⟩
    cases known.symm.trans known'
    cases decided.symm.trans refusal
    contradiction

theorem still_counter (s : State) (opts opts' : Go.Map Str OpenOpts) (cnt : Nat) :
    Still ⟨s, opts⟩ ⟨{ s with cntRecur := cnt }, opts'⟩ := .of_same rfl rfl rfl rfl

structure FdsKept (s : State) (t : FdTable Str Nat) : Prop where
  stored : Stored s
  sound : t.Sound
  right : FdsRight s t

/-- The step of a run: an error keeps the descriptors, and a success is right exactly where it is proper. -/
theorem emulate_steps (kept : FdsKept s t) (here : cfg.calls[idx]? = some call) (kind : callKind call.name ∈ handleCalls)
    (run : emulate cfg g s idx = some (ret, s', g')) :
    if ret.isError then FdsKept s' t else ¬ Refused cfg g s idx call ∧ Steps s s' t (tableAfter t call ret s') call := by
  rcases emulate_runs here kind run with ⟨error, rfl⟩ | ⟨accepted, cnt, ctx, called, rfl⟩
  · rw [if_pos error]
    exact kept
  · have counter := still_counter s g.optDict g.optDict cnt
    have stored := counter.kept.stored kept.stored
    have right := kept.right.still kept.stored counter
    split
    · rename_i error
      have still := failed_still kind called error
      exact ⟨still.kept.stored stored, kept.sound, right.still stored still⟩
    · rename_i ok
      have steps := called_steps right stored kept.sound kind called (by simpa using ok)
      exact ⟨accepted, steps.stored, steps.sound, steps.right, steps.proper⟩

theorem FdRun.kept (noFds : NoFds s₀) (run : FdRun cfg s₀ g₀ (ProperCall cfg) s g t) : FdsKept s t := by
  induction run with
  | start =>
    refine ⟨noFds.stored, FdTable.sound_empty, fun v => ?_, fun d id file => ?_⟩
    · rw [noFds.none]
      rfl
    · cases file
  | @step s s' g g' t idx call ret before here kind meets run kept =>
    have steps := emulate_steps kept here kind run
    split at steps
    · rename_i error
      rw [tableAfter_error error]
      exact steps
    · obtain ⟨accepted, steps⟩ := steps
      exact ⟨steps.stored, steps.sound, steps.right (meets.resolve_left accepted)⟩

/-- Along a run of proper calls every descriptor is usable between the call that made it and its `close`, and
those of one description have one offset. A further call that returns no error keeps this exactly if it is proper. -/
theorem fds_lawful (noFds : NoFds s₀) (run : FdRun cfg s₀ g₀ (ProperCall cfg) s g t) :
    Lawful s t ∧ ∀ idx call ret s' g', cfg.calls[idx]? = some call → callKind call.name ∈ handleCalls → PlainResult call →
      emulate cfg g s idx = some (ret, s', g') → ret.isError = false →
      (Lawful s' (tableAfter t call ret s') ↔ Proper s t call) := by
  have kept := run.kept noFds
  refine ⟨kept.right.lawful, fun idx call ret s' g' here kind plain called ok => ?_⟩
  have steps := emulate_steps kept here kind called
  rw [ok, if_neg Bool.false_ne_true] at steps
  rw [lawful_iff]
  exact ⟨steps.2.proper plain, steps.2.right⟩

/-! ### Runs of one program -/

/-- `./f` is created, its descriptor is duplicated and moved, and both are closed. -/
def sharedProgram : Parsed :=
  pathProgram [("v0", "./f")]
    [callOf "SYS_creat" ["v0", "511"] "v1", callOf "SYS_dup" ["v1"] "v2", callOf "SYS_lseek" ["v1", "5", "0"] "",
     callOf "SYS_close" ["v1"] "", callOf "SYS_close" ["v2"] ""]

abbrev sharedSetup : Setup := plainSetup sharedProgram

def runFds (cfg : Setup) : List Nat → State × Globals × FdTable Str Nat → Option (State × Globals × FdTable Str Nat)
  | [], now => some now
  | idx :: rest, (s, g, t) => do
    let call ← cfg.calls[idx]?
    let (ret, s', g') ← emulate cfg g s idx
    if callKind call.name ∈ handleCalls then runFds cfg rest (s', g', tableAfter t call ret s') else none

theorem fdRun_of_runFds {idxs : List Nat} {later : State × Globals × FdTable Str Nat}
    (reached : FdRun cfg s₀ g₀ (fun _ _ _ _ _ => True) s g t) (run : runFds cfg idxs (s, g, t) = some later) :
    FdRun cfg s₀ g₀ (fun _ _ _ _ _ => True) later.1 later.2.1 later.2.2 := by
  induction idxs generalizing s g t with
  | nil =>
    cases run
    exact reached
  | cons idx rest ih =>
    obtain ⟨call, here, run⟩ := Option.bind_eq_some_iff.mp run
    obtain ⟨⟨ret, s', g'⟩, called, run⟩ := Option.bind_eq_some_iff.mp run
    obtain ⟨kind, run⟩ := Option.ite_none_right_eq_some.mp run
    exact ih (.step reached here kind trivial called) run

/-- The duplicate is at the offset of the first, and the move of the first alone is not shared. -/
theorem fds_lawful_shared :
    ∃ s g t, FdRun sharedSetup (initState sharedProgram 1) {} (ProperCall sharedSetup) s g t ∧
      t.at? "v1".toList = some 0 ∧ t.at? "v2".toList = some 0 ∧ Lawful s t ∧
      ∃ s' g', emulate sharedSetup g s 2 = some (.none, s', g') ∧ ¬ Lawful s' t := by
  have computed : ((emulate sharedSetup {} (initState sharedProgram 1) 0).bind fun made =>
      (emulate sharedSetup made.2.2 made.2.1 1).bind fun twice => (emulate sharedSetup twice.2.2 twice.2.1 2).map fun moved =>
        decide (made.1 = .none ∧ made.2.1.fdStack.lookup "v1".toList = some (.opened 1) ∧
          made.2.1.fdOffset 1 "v1".toList = some 0 ∧ twice.1 = .none ∧ moved.1 = .none ∧
          twice.2.1.fdOffset 1 "v1".toList = some 0 ∧ twice.2.1.fdOffset 1 "v2".toList = some 0)) = some true := by
    decide +kernel
  obtain ⟨⟨made, s₁, g₁⟩, first, computed⟩ := Option.bind_eq_some_iff.mp computed
  obtain ⟨⟨twice, s₂, g₂⟩, second, computed⟩ := Option.bind_eq_some_iff.mp computed
  obtain ⟨⟨moved, s₃, g₃⟩, third, computed⟩ := Option.map_eq_some_iff.mp computed
  obtain ⟨rfl, opened, start, rfl, rfl, offset1, offset2⟩ := of_decide_eq_true computed
  have creat : callKind (callOf "SYS_creat" ["v0", "511"] "v1").name = .creat := by decide
  have dup : callKind (callOf "SYS_dup" ["v1"] "v2").name = .dup := by decide
  have lseek : callKind (callOf "SYS_lseek" ["v1", "5", "0"] "").name = .lseek := by decide
  have plain : stripLong "v1".toList = "v1".toList := by decide
  have sound : (FdTable.empty : FdTable Str Nat).Sound := FdTable.sound_empty
  let t₁ : FdTable Str Nat := FdTable.empty.opened "v1".toList 1
  have sound₁ : t₁.Sound := sound.opened _ _
  let t₂ : FdTable Str Nat := t₁.duped "v2".toList 0
  have at₁ : ∀ v, t₁.at? v = if v = "v1".toList then some 0 else none := fun v => FdTable.at?_opened sound
  have at₂ : ∀ v, t₂.at? v = if v = "v2".toList then some 0 else t₁.at? v := fun v => FdTable.at?_duped sound₁
  have table₁ : tableAfter .empty (callOf "SYS_creat" ["v0", "511"] "v1") .none s₁ = t₁ := by
    have made : s₁.fdStack.lookup (callOf "SYS_creat" ["v0", "511"] "v1").ret = some (.opened 1) := opened
    rw [tableAfter, if_neg (by decide), creat]
    dsimp only
    rw [made]
    rfl
  have table₂ : tableAfter t₁ (callOf "SYS_dup" ["v1"] "v2") .none s₂ = t₂ := by
    have shared : t₁.at? (stripLong "v1".toList) = some 0 := by rw [plain, at₁, if_pos rfl]
    have args : (callOf "SYS_dup" ["v1"] "v2").args = ["v1".toList] := rfl
    rw [tableAfter, if_neg (by decide), dup, args]
    dsimp only
    rw [shared]
    rfl
  have run₁ : FdRun sharedSetup (initState sharedProgram 1) {} (ProperCall sharedSetup) s₁ g₁ t₁ := by
    rw [← table₁]
    refine .step .start rfl (by decide) (.inr ?_) first
    rw [Proper, creat]
    trivial
  have run₂ : FdRun sharedSetup (initState sharedProgram 1) {} (ProperCall sharedSetup) s₂ g₂ t₂ := by
    rw [← table₂]
    refine .step run₁ rfl (by decide) (.inr ?_) second
    rw [Proper, dup]
    intro d live v outside joined
    change v ∉ ["v2".toList] at outside
    rw [plain, at₁, if_pos rfl, Option.some.injEq] at live
    subst live
    have here : t₁.at? v = some 0 := by
      have other : v ≠ "v2".toList := fun same => outside (List.mem_singleton.mpr same)
      rw [← joined]
      exact ((at₂ v).trans (if_neg other)).symm
    have same : v = "v1".toList := by
      by_contra other
      rw [at₁, if_neg other] at here
      cases here
    subst same
    exact ⟨1, rfl, rfl, start⟩
  have live1 : t₂.at? "v1".toList = some 0 := by rw [at₂, if_neg (by decide), at₁, if_pos rfl]
  have live2 : t₂.at? "v2".toList = some 0 := by rw [at₂, if_pos rfl]
  obtain ⟨lawful, further⟩ := fds_lawful (initState_noFds sharedProgram 1) run₂
  refine ⟨s₂, g₂, t₂, run₂, live1, live2, lawful, s₃, g₃, third, fun lawful₃ => ?_⟩
  have iff := further 2 _ _ s₃ g₃ rfl (by decide) (by unfold PlainResult; decide +revert) third rfl
  have table₃ : tableAfter t₂ (callOf "SYS_lseek" ["v1", "5", "0"] "") .none s₃ = t₂ := by
    rw [tableAfter, lseek]
    rfl
  have proper := iff.mp (show Lawful s₃ (tableAfter t₂ (callOf "SYS_lseek" ["v1", "5", "0"] "") .none s₃) by rwa [table₃])
  rw [Proper, lseek] at proper
  obtain ⟨i, found, old⟩ := Option.bind_eq_some_iff.mp offset1
  have agrees : Agrees s₂ t₂ t₂ [stripLong "v1".toList] 0 5 :=
    proper 0 1 i 0 5 0 5 (by rw [plain, live1]) rfl found (by rw [plain]; exact old) (by decide) (by decide) rfl
  obtain ⟨id, file, -, moved⟩ := agrees "v2".toList (by decide) live2
  cases file
  cases offset2.symm.trans moved

/-- With both descriptors closed, the first is still usable, and a call on the second raises. -/
theorem close_shared :
    ∃ s g t, FdRun sharedSetup (initState sharedProgram 1) {} (fun _ _ _ _ _ => True) s g t ∧
      t.fileOf "v1".toList = none ∧ s.fdInode "v1".toList = some (some 1) ∧
      t.fileOf "v2".toList = none ∧ s.fdInode "v2".toList = none ∧ ¬ Lawful s t := by
  have computed : ((runFds sharedSetup [0, 1, 3, 4] (initState sharedProgram 1, {}, .empty)).map fun now =>
      decide (now.2.2.fileOf "v1".toList = none ∧ now.1.fdInode "v1".toList = some (some 1) ∧
        now.2.2.fileOf "v2".toList = none ∧ now.1.fdInode "v2".toList = none)) = some true := by decide +kernel
  obtain ⟨now, run, computed⟩ := Option.map_eq_some_iff.mp computed
  obtain ⟨closed1, usable, closed2, raises⟩ := of_decide_eq_true computed
  refine ⟨now.1, now.2.1, now.2.2, fdRun_of_runFds .start run, closed1, usable, closed2, raises, fun lawful => ?_⟩
  have error := lawful.refers "v1".toList
  rw [usable, closed1] at error
  cases error

end DfsFuzz.Symsc
