import DfsFuzz.Symsc.ErrorExits

/-!
When a failing call of `emulate` changes nothing. `_update_dentry` moves an entry where the search for a path leads to
another one, and every search turns the children of the nodes it opens: the state is left exactly if the searches lead
back to the paths and every node is turned back.
-/

namespace DfsFuzz.Symsc

open Effects

/-- The calls that refresh the entries first. -/
def nameCalls : List CallKind := [.mkdir, .rmdir, .rename, .link, .symlink, .unlink, .open, .creat, .truncate]

def descriptorCalls : List CallKind := [.write, .pwrite64, .ftruncate, .lseek, .close, .dup, .dup2, .fsync, .syncfs]

theorem notDescriptor {kind : CallKind} (names : kind ∈ nameCalls) : kind ∉ descriptorCalls := by
  revert names
  cases kind <;> decide

/-- With fewer arguments than these a call on names returns 1 at once. -/
def argsNeeded : CallKind → Nat
  | .mkdir | .rmdir | .unlink => 1
  | .rename | .link | .symlink | .creat | .truncate => 2
  | _ => 0

/-- The directory that a call on names searches for once the entries are refreshed: `rename` does. -/
def dirLookup (call : Syscall) : M (Option Tup) :=
  if callKind call.name = .rename then renameDir call.args else pure none

variable {cfg : Setup} {call : Syscall}

theorem runCall_few (names : callKind call.name ∈ nameCalls)
    (few : call.args.length < argsNeeded (callKind call.name)) : runCall cfg call = pure (.int 1) := by
  rw [runCall]
  generalize callKind call.name = kind at names few
  simp only [nameCalls, List.mem_cons, List.not_mem_nil, or_false] at names
  rcases names with rfl | rfl | rfl | rfl | rfl | rfl | rfl | rfl | rfl
  · exact if_pos few
  · exact if_pos few
  · exact if_pos few
  · exact if_pos few
  · exact if_pos few
  · exact if_pos few
  · exact absurd few (Nat.not_lt_zero _)
  · exact if_pos few
  · exact if_pos few

theorem runCall_names (names : callKind call.name ∈ nameCalls)
    (enough : argsNeeded (callKind call.name) ≤ call.args.length) :
    Failing (RefreshedFor cfg.env (dirLookup call)) (runCall cfg call) := by
  have other : ∀ {x : M Ret}, Failing (Refreshed cfg.env) x → Failing (RefreshedFor cfg.env (pure none)) x :=
    fun fails _ _ _ run failed => (fails run failed).for
  rw [runCall, dirLookup]
  generalize callKind call.name = kind at names enough
  simp only [nameCalls, List.mem_cons, List.not_mem_nil, or_false] at names
  rcases names with rfl | rfl | rfl | rfl | rfl | rfl | rfl | rfl | rfl
  · exact other (mkdir_fails _ enough)
  · exact other (rmdir_fails _ enough)
  · exact rename_fails _ enough
  · exact other (link_fails _ enough)
  · exact other (symlink_fails _ enough)
  · exact other (unlink_fails _ enough)
  · exact other (openCall_fails ..)
  · exact other (creat_fails _ _ enough)
  · exact other (truncate_fails _ enough)

theorem runCall_fd (fd : callKind call.name ∈ descriptorCalls) : Failing Eq (runCall cfg call) := by
  rw [runCall]
  generalize callKind call.name = kind at fd
  simp only [descriptorCalls, List.mem_cons, List.not_mem_nil, or_false] at fd
  rcases fd with rfl | rfl | rfl | rfl | rfl | rfl | rfl | rfl | rfl
  · exact write_fails ..
  · exact pwrite64_fails ..
  · exact ftruncate_fails ..
  · exact lseek_fails ..
  · exact close_fails ..
  · exact dup_fails ..
  · exact dup2_fails ..
  · exact fsync_fails ..
  · exact syncfs_fails ..

/-- The call at `idx` is refused in the state, by the fault model or by the record of a failure. -/
def Refused (cfg : Setup) (g : Globals) (s : State) (idx : Nat) (call : Syscall) : Prop :=
  ∃ recorded cnt, cfg.recorded[idx]? = some recorded ∧ refused cfg g s recorded.procId idx call = some (true, cnt)

def StartsOn (cfg : Setup) (g : Globals) (s : State) (idx : Nat) (call : Syscall) (w : Ctx) : Prop :=
  ∃ recorded cnt, cfg.recorded[idx]? = some recorded ∧ refused cfg g s recorded.procId idx call = some (false, cnt) ∧
    w = ⟨{ s with cntRecur := cnt }, g.optDict⟩

variable {g : Globals}

theorem StartsOn.unique {s : State} {idx : Nat} {w w' : Ctx} (starts : StartsOn cfg g s idx call w)
    (starts' : StartsOn cfg g s idx call w') : w = w' := by
  obtain ⟨recorded, cnt, known, decided, rfl⟩ := starts
  obtain ⟨recorded', cnt', known', decided', rfl⟩ := starts'
  cases known.symm.trans known'
  cases decided.symm.trans decided'
  rfl

theorem StartsOn.notRefused {s : State} {idx : Nat} {w : Ctx} (starts : StartsOn cfg g s idx call w) :
    ¬ Refused cfg g s idx call := by
  obtain ⟨recorded, cnt, known, decided, -⟩ := starts
  rintro ⟨recorded', cnt', known', refusal⟩
  cases known.symm.trans known'
  cases decided.symm.trans refusal

/-- How a failing call of `emulate` that is no fault ends: refused, or by an error exit. -/
theorem emulate_cases {g' : Globals} {s s' : State} {idx : Nat} {ret : Ret} (here : cfg.calls[idx]? = some call)
    (run : emulate cfg g s idx = some (ret, s', g')) (failed : ret.isError = true) :
    (Refused cfg g s idx call ∧ s' = s ∧ g' = g) ∨
      ∃ w ctx, StartsOn cfg g s idx call w ∧ runCall cfg call w = some (ret, ctx) ∧ s' = ctx.st ∧
        g' = { g with optDict := ctx.optDict } := by
  obtain ⟨recorded, known, run⟩ := Option.bind_eq_some_iff.mp run
  obtain ⟨call', same, run⟩ := Option.bind_eq_some_iff.mp run
  cases here.symm.trans same
  split at run
  · split at run
    · cases run
    · obtain ⟨after, -, same⟩ := Option.bind_eq_some_iff.mp run
      cases same
      cases failed
  · obtain ⟨decision, decided, run⟩ := Option.bind_eq_some_iff.mp run
    obtain ⟨no, cnt⟩ := decision
    dsimp only at run
    cases no with
    | true =>
      cases run
      exact .inl ⟨⟨recorded, cnt, known, decided⟩, rfl, rfl⟩
    | false =>
      obtain ⟨after, called, same⟩ := Option.bind_eq_some_iff.mp run
      cases same
      exact .inr ⟨_, after.2, ⟨recorded, cnt, known, decided, rfl⟩, called, rfl, rfl⟩

/-- A call that fails leaves the context, or has refreshed the entries. -/
theorem runCall_failed {w ctx : Ctx} {ret : Ret} (covered : callKind call.name ∈ descriptorCalls ∨ callKind call.name ∈ nameCalls)
    (run : runCall cfg call w = some (ret, ctx)) (failed : ret.isError = true) :
    (callKind call.name ∈ descriptorCalls ∨ call.args.length < argsNeeded (callKind call.name)) ∧ ctx = w ∨
      callKind call.name ∈ nameCalls ∧ argsNeeded (callKind call.name) ≤ call.args.length ∧
        RefreshedFor cfg.env (dirLookup call) w ctx := by
  rcases covered with fd | names
  · exact .inl ⟨.inl fd, (runCall_fd fd run failed).symm⟩
  rcases Nat.lt_or_ge call.args.length (argsNeeded (callKind call.name)) with few | enough
  · rw [runCall_few names few] at run
    cases run
    exact .inl ⟨.inr few, rfl⟩
  · exact .inr ⟨names, enough, runCall_names names enough run failed⟩

/-- The calls of `nameCalls` and `descriptorCalls` leave the globals when they fail. -/
theorem emulate_failed_globals {g' : Globals} {s s' : State} {idx : Nat} {ret : Ret}
    (here : cfg.calls[idx]? = some call)
    (covered : Refused cfg g s idx call ∨ callKind call.name ∈ descriptorCalls ∨ callKind call.name ∈ nameCalls)
    (run : emulate cfg g s idx = some (ret, s', g')) (failed : ret.isError = true) : g' = g := by
  obtain ⟨-, -, rfl⟩ | ⟨w, ctx, starts, called, -, rfl⟩ := emulate_cases here run failed
  · rfl
  have start := starts
  obtain ⟨recorded, cnt, -, -, rfl⟩ := start
  rcases covered with refusal | covered
  · exact absurd refusal starts.notRefused
  rcases runCall_failed covered called failed with ⟨-, rfl⟩ | ⟨-, -, refreshed⟩
  · rfl
  · rw [refreshed.moved.opts]

/-- Everything but the counter of links is as it was. -/
def Unchanged (s s' : State) : Prop := s' = { s with cntRecur := s'.cntRecur }

/-- The nodes that the searches of a call on names open: those of `_update_dentry` and the one of `rename`. -/
def callOpened (call : Syscall) (w : Ctx) : List FileTree.Place :=
  let refreshed : Ctx := { w with st := { w.st with ft := w.st.ft.turnAll w.st.refreshOpened } }
  let dir := (dirLookup call refreshed).bind Prod.fst
  w.st.refreshOpened ++ (dir.map fun goal => refreshed.st.ft.opened goal rootTup).getD []

/-- The calls that change nothing when they fail: those that return before they touch anything, and those whose
searches lead back to every path and open every node an even number of times, but for nodes whose children read the same
backwards. -/
inductive Harmless (cfg : Setup) (g : Globals) (s : State) (idx : Nat) (call : Syscall) : Prop
  | refused (refusal : Refused cfg g s idx call)
  | descriptor (fd : callKind call.name ∈ descriptorCalls)
  | fewArguments (few : call.args.length < argsNeeded (callKind call.name))
  | restored {w : Ctx} (starts : StartsOn cfg g s idx call w) (settled : s.settled = true)
      (even : s.ft.Restored (callOpened call w))

/-- A failing call on names with enough arguments has changed nothing exactly if the searches lead back and turn every
node back. -/
theorem RefreshedFor.unchanged {env : PyEnv} {w w' : Ctx} (refreshed : RefreshedFor env (dirLookup call) w w') :
    (w.st.settled = true → w.st.ft.Restored (callOpened call w) → Unchanged w.st w'.st) ∧
      (w.st.noneEntry = false → Unchanged w.st w'.st → w.st.settled = true ∧ w.st.ft.Restored (callOpened call w)) := by
  obtain ⟨w₁, here, -, fixed, dir, w₂, looked, tree⟩ := refreshed
  have searched : w.st.settled = true → w'.st.ft = w.st.ft.turnAll (callOpened call w) := by
    intro settled
    obtain rfl := updateDentry_settled settled here
    rw [callOpened, tree, FileTree.turnAll_append]
    simp only [looked, Option.bind_some]
  constructor
  · intro settled even
    have back := (FileTree.turnAll_eq_iff w.st.ft _).mpr even
    obtain rfl := updateDentry_settled settled here
    rw [Unchanged, fixed, searched settled, back]
  · intro noNone unchanged
    have settled : w.st.settled = true := by
      by_contra unsettled
      refine updateDentry_unsettled noNone (by simpa using unsettled) here ?_
      have entries : w'.st.dentry = w.st.dentry := by rw [unchanged]
      rw [← entries, fixed]
    refine ⟨settled, (FileTree.turnAll_eq_iff w.st.ft _).mp ?_⟩
    rw [← searched settled, unchanged]

/-- A failing call leaves the state where it is harmless, and nowhere else as long as `DENTRY` has no key `None`. -/
theorem emulate_failed_unchanged_iff {cfg : Setup} {g g' : Globals} {s s' : State} {idx : Nat} {ret : Ret}
    {call : Syscall} (here : cfg.calls[idx]? = some call)
    (covered : Refused cfg g s idx call ∨ callKind call.name ∈ descriptorCalls ∨ callKind call.name ∈ nameCalls)
    (run : emulate cfg g s idx = some (ret, s', g')) (failed : ret.isError = true) :
    g' = g ∧ (Harmless cfg g s idx call → Unchanged s s') ∧
      (s.noneEntry = false → Unchanged s s' → Harmless cfg g s idx call) := by
  refine ⟨emulate_failed_globals here covered run failed, ?_⟩
  obtain ⟨refusal, rfl, rfl⟩ | ⟨w, ctx, starts, called, rfl, rfl⟩ := emulate_cases here run failed
  · exact ⟨fun _ => rfl, fun _ _ => .refused refusal⟩
  have start := starts
  obtain ⟨recorded, cnt, -, -, rfl⟩ := start
  rcases covered with refusal | covered
  · exact absurd refusal starts.notRefused
  rcases runCall_failed covered called failed with ⟨early, rfl⟩ | ⟨names, enough, refreshed⟩
  · exact ⟨fun _ => rfl, fun _ _ => early.elim .descriptor .fewArguments⟩
  obtain ⟨leaves, only⟩ := refreshed.unchanged
  refine ⟨fun harmless => ?_, fun noNone unchanged => ?_⟩
  · cases harmless with
    | refused refusal => exact absurd refusal starts.notRefused
    | descriptor fd => exact absurd fd (notDescriptor names)
    | fewArguments few => exact absurd enough (Nat.not_le_of_lt few)
    | restored starts' settled even =>
      cases starts.unique starts'
      exact leaves settled even
  · obtain ⟨settled, even⟩ := only noNone unchanged
    exact .restored starts settled even

def orphanCall : Syscall := callOf "SYS_mkdir" ["v5", "511"] ""

/-- `./f` is opened, linked to `./g` and removed, which leaves its node in the tree; then the file gets the
name `./d/f`. The parent of `./x/y` is missing. -/
def leftoverProgram : Parsed :=
  pathProgram [("v0", "./f"), ("v1", "./g"), ("v2", "./d"), ("v3", "./d/f"), ("v4", "./h"), ("v5", "./x/y")]
    [callOf "SYS_creat" ["v0", "511"] "v9", callOf "SYS_link" ["v0", "v1"] "", callOf "SYS_unlink" ["v0"] "",
     callOf "SYS_mkdir" ["v2", "511"] "", callOf "SYS_mkdir" ["v4", "511"] "", callOf "SYS_link" ["v1", "v3"] "",
     orphanCall]

theorem mkdir_moves_entry :
    ∃ s g s' g', Reachable (plainSetup leftoverProgram) leftoverProgram 1 s g ∧
      emulate (plainSetup leftoverProgram) g s 6 = some (.int 1, s', g') ∧
      s.dentry.get? "./d/f".toList = some 1 ∧ s'.dentry.get? "./d/f".toList = none := by
  have computed : ((runCalls (plainSetup leftoverProgram) [0, 1, 2, 3, 4, 5] (initState leftoverProgram 1, {})).bind fun now =>
      (emulate (plainSetup leftoverProgram) now.2 now.1 6).map fun r =>
        decide (r.1 = .int 1 ∧ now.1.dentry.get? "./d/f".toList = some 1 ∧ r.2.1.dentry.get? "./d/f".toList = none)) =
      some true := by decide +kernel
  obtain ⟨now, before, computed⟩ := Option.bind_eq_some_iff.mp computed
  obtain ⟨r, call, computed⟩ := Option.map_eq_some_iff.mp computed
  obtain ⟨failed, entry, gone⟩ := of_decide_eq_true computed
  refine ⟨now.1, now.2, r.2.1, r.2.2, reachable_runCalls .init before, ?_, entry, gone⟩
  rw [call, ← failed]

/-- Before `./f` is removed the same call fails and leaves the state: the root, with four children, is opened four times.
Without `./h` it is opened three times, and the call turns its children. -/
theorem mkdir_fails_unchanged :
    (∃ s g s' g', Reachable (plainSetup leftoverProgram) leftoverProgram 1 s g ∧ s.dentry.get? "./h".toList = some 3 ∧
      emulate (plainSetup leftoverProgram) g s 6 = some (.int 1, s', g') ∧ Unchanged s s') ∧
    ∃ s g s' g', Reachable (plainSetup leftoverProgram) leftoverProgram 1 s g ∧ s.settled = true ∧
      emulate (plainSetup leftoverProgram) g s 6 = some (.int 1, s', g') ∧ ¬ Unchanged s s' := by
  have here : (plainSetup leftoverProgram).calls[6]? = some orphanCall := rfl
  have names : callKind orphanCall.name ∈ nameCalls := by decide
  constructor
  · have computed : ((runCalls (plainSetup leftoverProgram) [0, 1, 3, 4] (initState leftoverProgram 1, {})).bind fun now =>
        (emulate (plainSetup leftoverProgram) now.2 now.1 6).map fun r =>
          decide (r.1 = .int 1 ∧ now.1.dentry.get? "./h".toList = some 3 ∧ now.1.settled = true ∧
            refused (plainSetup leftoverProgram) now.2 now.1 0 6 orphanCall = some (false, 0) ∧
            now.1.ft.turnAll (callOpened orphanCall ⟨{ now.1 with cntRecur := 0 }, now.2.optDict⟩) =
              now.1.ft)) = some true := by
      decide +kernel
    obtain ⟨now, before, computed⟩ := Option.bind_eq_some_iff.mp computed
    obtain ⟨r, call, computed⟩ := Option.map_eq_some_iff.mp computed
    obtain ⟨failed, entry, settled, runs, back⟩ := of_decide_eq_true computed
    have run : emulate (plainSetup leftoverProgram) now.2 now.1 6 = some (.int 1, r.2.1, r.2.2) := by rw [call, ← failed]
    refine ⟨now.1, now.2, r.2.1, r.2.2, reachable_runCalls .init before, entry, run, ?_⟩
    apply (emulate_failed_unchanged_iff here (.inr (.inr names)) run (by decide)).2.1
    exact .restored ⟨{ procId := 0 }, 0, rfl, runs, rfl⟩ settled ((FileTree.turnAll_eq_iff _ _).mp back)
  · have computed : ((runCalls (plainSetup leftoverProgram) [0, 1, 3] (initState leftoverProgram 1, {})).bind fun now =>
        (emulate (plainSetup leftoverProgram) now.2 now.1 6).map fun r =>
          decide (r.1 = .int 1 ∧ now.1.settled = true ∧ now.1.noneEntry = false ∧
            refused (plainSetup leftoverProgram) now.2 now.1 0 6 orphanCall = some (false, 0) ∧
            now.1.ft.turnAll (callOpened orphanCall ⟨{ now.1 with cntRecur := 0 }, now.2.optDict⟩) ≠
              now.1.ft)) = some true := by
      decide +kernel
    obtain ⟨now, before, computed⟩ := Option.bind_eq_some_iff.mp computed
    obtain ⟨r, call, computed⟩ := Option.map_eq_some_iff.mp computed
    obtain ⟨failed, settled, noNone, runs, turned⟩ := of_decide_eq_true computed
    have run : emulate (plainSetup leftoverProgram) now.2 now.1 6 = some (.int 1, r.2.1, r.2.2) := by rw [call, ← failed]
    refine ⟨now.1, now.2, r.2.1, r.2.2, reachable_runCalls .init before, settled, run, fun unchanged => ?_⟩
    have starts : StartsOn (plainSetup leftoverProgram) now.2 now.1 6 orphanCall
        ⟨{ now.1 with cntRecur := 0 }, now.2.optDict⟩ := ⟨{ procId := 0 }, 0, rfl, runs, rfl⟩
    cases (emulate_failed_unchanged_iff here (.inr (.inr names)) run (by decide)).2.2 noNone unchanged with
    | refused refusal => exact starts.notRefused refusal
    | descriptor fd => exact notDescriptor names fd
    | fewArguments few => exact absurd few (by decide)
    | restored starts' _ even =>
      cases starts.unique starts'
      exact turned ((FileTree.turnAll_eq_iff _ _).mpr even)

end DfsFuzz.Symsc
