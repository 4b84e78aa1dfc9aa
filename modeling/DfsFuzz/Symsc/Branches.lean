import DfsFuzz.Symsc.FailedCalls
import DfsFuzz.Symsc.Options

/-!
Backtracking in `explore` (`dpor.py`): a state is kept while other branches are emulated, and a call is
then emulated from it. The partitioned pairs and the options of the descriptors are not in the state, so
what the other branches leave there is what the call finds.
-/

namespace DfsFuzz.Symsc

open Effects

/-- The states that `explore` keeps, and the module globals: those that `emulate` binds to a state, and the
others. -/
structure Exploration where
  saved : List State
  bound : State
  globals : Globals

inductive ExploreOp where
  | emulate (k idx : Nat)
  | stateCheck (k : Nat)

namespace Exploration

variable (cfg : Setup)

/-- One call of `emulate` or `state_check` on a kept state; `state_check` binds `BUF_DATA`. -/
def step (x : Exploration) : ExploreOp → Option Exploration
  | .emulate k idx => do
    let s ← x.saved[k]?
    let (_, s', g') ← Symsc.emulate cfg x.globals s idx
    return { saved := x.saved ++ [s'], bound := s', globals := g' }
  | .stateCheck k => do
    let s ← x.saved[k]?
    return { x with bound := { x.bound with bufData := s.bufData } }

def steps (x : Exploration) (ops : List ExploreOp) : Option Exploration := ops.foldlM (step cfg) x

/-- What `emulate` returns for a kept state, with the pairs that go with the new state. -/
def outcome (x : Exploration) (k idx : Nat) : Option (Ret × State × NetState) := do
  let s ← x.saved[k]?
  let (ret, s', g') ← Symsc.emulate cfg x.globals s idx
  return (ret, s', g'.netState)

end Exploration

/-! ### What a call leaves outside of the state -/

/-- The call at `idx` is made, and does not fail. -/
def CallSucceeds (cfg : Setup) (g : Globals) (s : State) (idx : Nat) : Prop :=
  ∃ r, emulate cfg g s idx = some r ∧ r.1.isError = false

/-- The call adds no pair and takes none away, and does not give other options to the variables. -/
def HarmlessCall (cfg : Setup) (vars : List Str) (g : Globals) (s : State) (idx node : Nat) (call : Syscall) : Prop :=
  (callKind call.name = .failureNetUp → g.netState = []) ∧
  (callKind call.name = .failureNetDown → ∀ token ∈ call.args.head?, ∀ command ∈ s.bufData.lookup (stripLong token),
    cutPairs cfg.initIp command node = []) ∧
  (CallSucceeds cfg g s idx → ∀ b ∈ bindings g.optDict call, b.1 ∈ vars → b.2 = g.optDict.lookup b.1)

/-- The globals are the same as far as a call with the option variables can tell. -/
structure SameGlobals (vars : List Str) (g g' : Globals) : Prop where
  netState : g'.netState = g.netState
  opts : ∀ v ∈ vars, g'.optDict.lookup v = g.optDict.lookup v

theorem SameGlobals.refl (vars : List Str) (g : Globals) : SameGlobals vars g g := ⟨rfl, fun _ _ => rfl⟩

variable {vars : List Str} {g g' : Globals}

theorem SameGlobals.trans {g₁ : Globals} (first : SameGlobals vars g g₁) (second : SameGlobals vars g₁ g') :
    SameGlobals vars g g' :=
  ⟨second.netState.trans first.netState, fun v member => (second.opts v member).trans (first.opts v member)⟩

variable {s : State} {call : Syscall}

theorem runFailure_globals {cfg : Setup} {s' : State} {node : Nat} {idx : Nat}
    (harmless : HarmlessCall cfg vars g s idx node call)
    (run : runFailure cfg g s node call (callKind call.name) = some (s', g')) : SameGlobals vars g g' := by
  obtain ⟨up, down, -⟩ := harmless
  revert run up down
  cases callKind call.name with
  | failureDown =>
    intro run up down
    obtain ⟨-, same⟩ := Option.ite_none_right_eq_some.mp run
    cases same
    exact SameGlobals.refl vars g
  | failureUp =>
    intro run up down
    obtain ⟨-, same⟩ := Option.ite_none_right_eq_some.mp run
    cases same
    exact SameGlobals.refl vars g
  | failureNetDown =>
    intro run up down
    obtain ⟨token, given, run⟩ := Option.bind_eq_some_iff.mp run
    obtain ⟨command, found, run⟩ := Option.bind_eq_some_iff.mp run
    cases run
    refine ⟨?_, fun _ _ => rfl⟩
    rw [down rfl token given command found, List.append_nil]
  | failureNetUp =>
    intro run up down
    cases run
    exact ⟨(up rfl).symm, fun _ _ => rfl⟩
  | _ =>
    intro run
    cases run

theorem rebinds_sameOptions {d d' : OptDict} (rebinds : Rebinds call d d')
    (harmless : ∀ b ∈ bindings d call, b.1 ∈ vars → b.2 = d.lookup b.1) : ∀ v ∈ vars, d'.lookup v = d.lookup v := by
  intro v member
  rcases rebinds v with same | bound
  · exact same
  · exact harmless _ bound member

/-- A call that binds descriptors leaves the globals when it fails. -/
theorem failed_globals {cfg : Setup} {s' : State} {idx : Nat} {ret : Ret} (here : cfg.calls[idx]? = some call)
    (run : emulate cfg g s idx = some (ret, s', g')) (failed : ret.isError = true)
    (binds : bindings g.optDict call ≠ []) : g' = g := by
  refine emulate_failed_globals here (.inr ?_) run failed
  revert binds
  rw [bindings]
  cases callKind call.name <;> simp [descriptorCalls, nameCalls]

theorem emulate_globals {cfg : Setup} {s' : State} {idx : Nat} {ret : Ret}
    (harmless : ∀ recorded ∈ cfg.recorded[idx]?, ∀ call ∈ cfg.calls[idx]?, HarmlessCall cfg vars g s idx recorded.procId call)
    (run : emulate cfg g s idx = some (ret, s', g')) : SameGlobals vars g g' := by
  have emulated := run
  obtain ⟨recorded, known, run⟩ := Option.bind_eq_some_iff.mp run
  obtain ⟨call, here, run⟩ := Option.bind_eq_some_iff.mp run
  have harmless := harmless recorded known call here
  split at run
  · split at run
    · cases run
    · obtain ⟨after, failure, same⟩ := Option.bind_eq_some_iff.mp run
      cases same
      exact runFailure_globals harmless failure
  · rename_i noFault
    obtain ⟨⟨no, cnt⟩, -, run⟩ := Option.bind_eq_some_iff.mp run
    dsimp only at run
    split at run
    · cases run
      exact SameGlobals.refl vars g
    · obtain ⟨⟨ret, ctx⟩, called, same⟩ := Option.bind_eq_some_iff.mp run
      cases same
      have tidy : Tidy (optionVars call) (Rebinds call) (runCall cfg call) := runCall_tidy (eq_false_of_ne_true noFault)
      cases failed : ret.isError with
      | false => exact ⟨rfl, rebinds_sameOptions (tidy.sets called) (harmless.2.2 ⟨_, emulated, failed⟩)⟩
      | true =>
        by_cases binds : bindings g.optDict call = []
        · refine ⟨rfl, rebinds_sameOptions (tidy.sets called) fun b member => ?_⟩
          rw [binds] at member
          cases member
        · rw [failed_globals here emulated failed binds]
          exact SameGlobals.refl vars g

theorem runFailure_sameGlobals {cfg : Setup} {node : Nat} (kind : CallKind) (same : g'.netState = g.netState) :
    ((runFailure cfg g' s node call kind).bind fun r => some (Ret.none, r.1, r.2.netState)) =
      (runFailure cfg g s node call kind).bind fun r => some (Ret.none, r.1, r.2.netState) := by
  cases kind with
  | failureDown | failureUp =>
    simp only [runFailure]
    split
    · simp [same]
    · rfl
  | failureNetDown =>
    simp only [runFailure, bind, pure, Option.bind_assoc, Option.bind_some, same]
  | failureNetUp => rfl
  | _ => rfl

/-- From globals that are the same for the call, `emulate` gives the same. -/
theorem emulate_sameGlobals {cfg : Setup} {idx : Nat} (here : cfg.calls[idx]? = some call)
    (same : SameGlobals (optionVars call) g g') :
    ((emulate cfg g' s idx).bind fun r => some (r.1, r.2.1, r.2.2.netState)) =
      (emulate cfg g s idx).bind fun r => some (r.1, r.2.1, r.2.2.netState) := by
  rw [emulate, emulate, here]
  cases cfg.recorded[idx]? with
  | none => rfl
  | some recorded =>
    simp only [bind, pure, Option.bind_some]
    split
    · split
      · rfl
      · simp only [Option.bind_assoc, Option.bind_some]
        exact runFailure_sameGlobals (callKind call.name) same.netState
    · rename_i noFault
      have tidy : Tidy (optionVars call) (Rebinds call) (runCall cfg call) := runCall_tidy (eq_false_of_ne_true noFault)
      have refusal : refused cfg g' s recorded.procId idx call = refused cfg g s recorded.procId idx call := by
        rw [refused, refused, available, available, feedforwardFail, feedforwardFail, same.netState]
      rw [refusal]
      cases refused cfg g s recorded.procId idx call with
      | none => rfl
      | some decision =>
        simp only [Option.bind_some]
        split
        · simp [same.netState]
        · have agree : Agree (optionVars call) ⟨{ s with cntRecur := decision.2 }, g'.optDict⟩
            ⟨{ s with cntRecur := decision.2 }, g.optDict⟩ := ⟨rfl, same.opts⟩
          have both := tidy.reads agree
          revert both
          generalize runCall cfg call ⟨{ s with cntRecur := decision.2 }, g'.optDict⟩ = o'
          generalize runCall cfg call ⟨{ s with cntRecur := decision.2 }, g.optDict⟩ = o
          intro both
          cases both with
          | none => rfl
          | some both => simp only [Option.bind_some, both.1, both.2.st, same.netState]

/-- Every call of the run is harmless where it is made. -/
def HarmlessRun (cfg : Setup) (vars : List Str) : List ExploreOp → Exploration → Prop
  | [], _ => True
  | op :: ops, x =>
    (∀ k idx, op = .emulate k idx → ∀ s ∈ x.saved[k]?, ∀ recorded ∈ cfg.recorded[idx]?, ∀ call ∈ cfg.calls[idx]?,
      HarmlessCall cfg vars x.globals s idx recorded.procId call) ∧
    ∀ x₁, x.step cfg op = some x₁ → HarmlessRun cfg vars ops x₁

theorem Exploration.step_saved {cfg : Setup} {x x' : Exploration} {op : ExploreOp} (run : x.step cfg op = some x') :
    x.saved <+: x'.saved := by
  cases op with
  | emulate k idx =>
    obtain ⟨s, -, run⟩ := Option.bind_eq_some_iff.mp run
    obtain ⟨r, -, same⟩ := Option.bind_eq_some_iff.mp run
    cases same
    exact List.prefix_append ..
  | stateCheck k =>
    obtain ⟨s, -, same⟩ := Option.bind_eq_some_iff.mp run
    cases same
    exact List.prefix_rfl

theorem Exploration.steps_saved {cfg : Setup} {ops : List ExploreOp} {x x' : Exploration} (run : x.steps cfg ops = some x') :
    x.saved <+: x'.saved := by
  induction ops generalizing x with
  | nil =>
    cases run
    exact List.prefix_rfl
  | cons op ops ih =>
    rw [steps, List.foldlM_cons] at run
    obtain ⟨x₁, first, rest⟩ := Option.bind_eq_some_iff.mp run
    exact (step_saved first).trans (ih rest)

theorem Exploration.steps_globals {cfg : Setup} {ops : List ExploreOp} {x x' : Exploration}
    (harmless : HarmlessRun cfg vars ops x) (run : x.steps cfg ops = some x') :
    SameGlobals vars x.globals x'.globals := by
  induction ops generalizing x with
  | nil =>
    cases run
    exact SameGlobals.refl vars _
  | cons op ops ih =>
    rw [steps, List.foldlM_cons] at run
    obtain ⟨x₁, first, rest⟩ := Option.bind_eq_some_iff.mp run
    refine SameGlobals.trans ?_ (ih (harmless.2 x₁ first) rest)
    cases op with
    | emulate k idx =>
      obtain ⟨s, kept, first⟩ := Option.bind_eq_some_iff.mp first
      obtain ⟨r, emulated, same⟩ := Option.bind_eq_some_iff.mp first
      cases same
      exact emulate_globals (harmless.1 k idx rfl s kept) emulated
    | stateCheck k =>
      obtain ⟨s, -, same⟩ := Option.bind_eq_some_iff.mp first
      cases same
      exact SameGlobals.refl vars _

/-- No run of other branches changes a kept state; and where every call of it is harmless, a call from the
kept state has the same outcome after the run as before. -/
theorem outcome_after_branches {cfg : Setup} {ops : List ExploreOp} {x x' : Exploration} {k idx : Nat} {call : Syscall}
    (run : x.steps cfg ops = some x') (kept : k < x.saved.length) (here : cfg.calls[idx]? = some call) :
    x'.saved[k]? = x.saved[k]? ∧
      (HarmlessRun cfg (optionVars call) ops x → x'.outcome cfg k idx = x.outcome cfg k idx) := by
  have same : x'.saved[k]? = x.saved[k]? := by
    obtain ⟨more, saved⟩ := Exploration.steps_saved run
    rw [← saved, List.getElem?_append_left kept]
  refine ⟨same, fun harmless => ?_⟩
  have globals := Exploration.steps_globals harmless run
  rw [Exploration.outcome, Exploration.outcome, same]
  exact congrArg _ (funext fun s => emulate_sameGlobals here globals)

/-- Node 0 cuts node 1 off; node 1 makes a directory. -/
def partitionProgram : Parsed :=
  pathProgram [("v0", "iptables -A INPUT -s 192.168.0.2 -j DROP;"), ("v1", "./d")]
    [callOf "SYS_syz_failure_net_down" ["v0"] "", callOf "SYS_mkdir" ["v1", "511"] ""]

def partitionSetup : Setup := { plainSetup partitionProgram with recorded := [{ procId := 0 }, { procId := 1 }] }

def partitionStart : Exploration := ⟨[initState partitionProgram 2], initState partitionProgram 2, {}⟩

/-- After the branch that starts with the partition, the directory is refused in the state from before it. -/
theorem partition_leaks :
    ∃ x', partitionStart.steps partitionSetup [.emulate 0 0, .stateCheck 1] = some x' ∧
      (partitionStart.outcome partitionSetup 0 1).map (fun r => r.1) = some .none ∧
      (x'.outcome partitionSetup 0 1).map (fun r => r.1) = some (.int (-1)) := by
  have computed : ((partitionStart.steps partitionSetup [.emulate 0 0, .stateCheck 1]).map fun x' =>
      decide ((partitionStart.outcome partitionSetup 0 1).map (fun r => r.1) = some .none ∧
        (x'.outcome partitionSetup 0 1).map (fun r => r.1) = some (.int (-1)))) = some true := by decide +kernel
  obtain ⟨x', run, computed⟩ := Option.map_eq_some_iff.mp computed
  exact ⟨x', run, of_decide_eq_true computed⟩

/-- The directory itself, made on another branch, leaves the outcome. -/
theorem directory_leaves_outcome :
    ∃ x', partitionStart.steps partitionSetup [.emulate 0 1, .stateCheck 1] = some x' ∧
      x'.outcome partitionSetup 0 1 = partitionStart.outcome partitionSetup 0 1 := by
  have computed : (partitionStart.steps partitionSetup [.emulate 0 1, .stateCheck 1]).isSome = true := by decide +kernel
  obtain ⟨x', run⟩ := Option.isSome_iff_exists.mp computed
  have here : partitionSetup.calls[1]? = some (callOf "SYS_mkdir" ["v1", "511"] "") := rfl
  have kind : callKind (callOf "SYS_mkdir" ["v1", "511"] "").name = .mkdir := by decide
  have harmless : HarmlessRun partitionSetup (optionVars (callOf "SYS_mkdir" ["v1", "511"] ""))
      [.emulate 0 1, .stateCheck 1] partitionStart := by
    refine ⟨fun k idx same => ?_, fun x₁ _ => ⟨fun k idx other => (by cases other), fun _ _ => trivial⟩⟩
    cases same
    intro s _ recorded _ call given
    cases here.symm.trans given
    refine ⟨fun up => ?_, fun down => ?_, fun _ b member => ?_⟩
    · rw [kind] at up
      cases up
    · rw [kind] at down
      cases down
    · rw [bindings, kind] at member
      cases member
  exact ⟨x', run, (outcome_after_branches run (by decide) here).2 harmless⟩

end DfsFuzz.Symsc
