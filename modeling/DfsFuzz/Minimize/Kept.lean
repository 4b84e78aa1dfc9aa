import DfsFuzz.Minimize.Passes
import DfsFuzz.Minimize.Removal

/-!
Minimization as a whole. It returns a group that the predicate accepts, with the call in question and
the programs of the servers as they were. The failure calls of a client other than the one of that
call go if the predicate lets them, which it does for a client whose calls it does not look at.
-/

namespace DfsFuzz.Minimize

open DfsFuzz.Mutation (isFailure)

section Calls

variable {job : Job} (lawful : Lawful job.target) {srvNum : Nat} {callIndex0 : Int} {ps0 : MinGroup}

theorem minimizeCallProps_reduced {ctx : ArgsCtx} (lawful : Lawful ctx.target) (client : srvNum ≤ ctx.j)
    (clean : CleanServers ctx.target srvNum ps0) (good : accepted ctx.toJob ps0 ctx.callIndex0) :
    Reduced ctx.toJob ctx.callIndex0 srvNum ps0 (ctx.minimizeCallProps ps0) := by
  have keep : Reduced ctx.toJob ctx.callIndex0 srvNum ps0 ps0 := ⟨Same.refl ps0, good⟩
  unfold ArgsCtx.minimizeCallProps
  cases ctx.call ps0 with
  | none => exact keep
  | some c =>
    dsimp only
    split
    · have cleared : Same srvNum ps0 (ctx.modCall (fun c => { c with failNth := 0 }) ps0) :=
        ⟨outline_modCall ctx ps0 fun _ _ => rfl, take_modify_behind client _ _⟩
      have same := cleared.trans (Same.pred lawful (cleared.clean clean) ctx.callIndex0)
      generalize verdict : ctx.pred (ctx.modCall (fun c => { c with failNth := 0 }) ps0) ctx.callIndex0 = result at same ⊢
      obtain ⟨ps, accept⟩ := result
      cases accept with
      | false => exact keep
      | true =>
        have good := (accepted_pred lawful).mpr (congrArg Prod.snd verdict)
        rw [verdict] at good
        exact ⟨same, good⟩
    · exact keep

include lawful

theorem minimizeCall_ends {j : Nat} (i : Nat) (client : srvNum ≤ j) (clean : CleanServers job.target srvNum ps0)
    (good : accepted job ps0 callIndex0) :
    ∃ ps, Fuel.Ends (fun fuel => ArgsCtx.minimizeCall { job with callIndex0, j, i } fuel ps0) ps ∧
      Reduced job callIndex0 srvNum ps0 ps := by
  have keep : Reduced job callIndex0 srvNum ps0 ps0 := ⟨Same.refl ps0, good⟩
  unfold ArgsCtx.minimizeCall
  cases here : ArgsCtx.call { job with callIndex0, j, i } ps0 with
  | none => exact ⟨ps0, Fuel.Ends.const ps0, keep⟩
  | some c =>
    dsimp only
    cases failure : isFailure c.name with
    | true => exact ⟨ps0, Fuel.Ends.const ps0, keep⟩
    | false =>
      obtain ⟨ps, ends, reduced⟩ := minimizeArgs_ends lawful client [] here failure clean good
      have props := minimizeCallProps_reduced lawful client (reduced.same.clean clean) reduced.good
      exact ⟨_, ends.map _, reduced.same.trans props.same, props.good⟩

theorem minimizeCalls_ends (steps : List (Nat × Nat)) (clients : ∀ place ∈ steps, srvNum ≤ place.1)
    (clean : CleanServers job.target srvNum ps0) (good : accepted job ps0 callIndex0) :
    ∃ ps, Fuel.Ends (fun fuel => minimizeCalls job fuel callIndex0 steps ps0) ps ∧ Reduced job callIndex0 srvNum ps0 ps := by
  induction steps generalizing ps0 with
  | nil => exact ⟨ps0, Fuel.Ends.const ps0, Same.refl ps0, good⟩
  | cons place steps ih =>
    obtain ⟨j, i⟩ := place
    obtain ⟨ps, ends, reduced⟩ := minimizeCall_ends lawful i (clients _ List.mem_cons_self) clean good
    obtain ⟨ps', ends', reduced'⟩ :=
      ih (fun place member => clients place (List.mem_cons_of_mem _ member)) (reduced.same.clean clean) reduced.good
    exact ⟨ps', ends.bind ends', reduced.same.trans reduced'.same, reduced'.good⟩

omit lawful in
theorem client_of_places {ps : MinGroup} {place : Nat × Nat} (member : place ∈ places srvNum ps) : srvNum ≤ place.1 := by
  simp only [places, List.mem_flatMap, List.mem_range'_1, List.mem_map] at member
  obtain ⟨j, ⟨client, -⟩, i, -, rfl⟩ := member
  exact client

end Calls

/-! ### The whole run -/

theorem callAt_ok_iff {ps : MinGroup} {subNum callIndex : Int} {c : MinCall} :
    callAt ps subNum callIndex = .ok c ↔
      ∃ s k : Nat, subNum = s ∧ callIndex = k ∧ (ps[s]?.bind fun p => p[k]?) = some c := by
  unfold callAt
  constructor
  · intro found
    split_ifs at found with negative outside
    refine ⟨subNum.toNat, callIndex.toNat, by omega, by omega, ?_⟩
    have inside : subNum.toNat < ps.length := by omega
    rw [List.getD_eq_getElem?_getD, List.getElem?_eq_getElem inside] at found
    rw [List.getElem?_eq_getElem inside]
    dsimp only [Option.getD_some, Option.bind_some] at found ⊢
    split at found
    · rename_i call here
      rw [here, Except.ok.inj found]
    · cases found
  · rintro ⟨s, k, rfl, rfl, here⟩
    obtain ⟨p, program, call⟩ := Option.bind_eq_some_iff.mp here
    have inside := (List.getElem?_eq_some_iff.mp program).1
    rw [if_neg (by omega), if_neg (by omega)]
    simp [program, call]

/-- What the claim of a run is: the predicate accepts what it returns, the call index names a call of
the same name, and the programs of the servers and the failure calls of the clients are as before. -/
structure Survives (job : Job) (ps0 : MinGroup) (callIndex0 subNum srvNum : Int) (ps : MinGroup) (callIndex : Int) : Prop where
  good : accepted job ps callIndex
  unset : callIndex0 = -1 → callIndex = -1
  named : callIndex0 ≠ -1 →
    ∃ c c', callAt ps0 subNum callIndex0 = .ok c ∧ callAt ps subNum callIndex = .ok c' ∧ c'.name = c.name
  servers : ps.take srvNum.toNat = ps0.take srvNum.toNat
  failures : ∀ j : Nat, srvNum ≤ j → failureCalls (ps.getD j []) = failureCalls (ps0.getD j [])

/-- Minimization returns, and what it returns survives. -/
def Keeps (job : Job) (ps0 : MinGroup) (callIndex0 subNum srvNum : Int) : Prop :=
  ∃ ps callIndex, (∃ enough, ∀ fuel ≥ enough, minimize job fuel ps0 callIndex0 subNum srvNum = .ok (ps, callIndex)) ∧
    Survives job ps0 callIndex0 subNum srvNum ps callIndex

theorem minimize_ok {job : Job} {fuel : Nat} {ps0 : MinGroup} {callIndex0 subNum srvNum : Int} {result : MinGroup × Int}
    (returned : minimize job fuel ps0 callIndex0 subNum srvNum = .ok result) :
    0 ≤ srvNum ∧ (callIndex0 = -1 ∨ ∃ c, callAt ps0 subNum callIndex0 = .ok c) := by
  unfold minimize at returned
  cases before : nameBefore ps0 callIndex0 subNum with
  | error stop =>
    rw [before] at returned
    cases returned
  | ok name0 =>
    rw [before] at returned
    constructor
    · by_contra negative
      simp only [bind, Except.bind, if_pos (Int.not_le.mp negative)] at returned
      cases returned
    · by_cases unset : callIndex0 = -1
      · exact .inl unset
      · right
        rw [nameBefore, if_neg unset] at before
        cases found : callAt ps0 subNum callIndex0 with
        | error stop =>
          rw [found] at before
          cases before
        | ok c => exact ⟨c, rfl⟩

theorem minimize_of_calls {job : Job} {fuel : Nat} {ps0 ps1 ps : MinGroup} {callIndex0 callIndex subNum srvNum : Int}
    (servers : 0 ≤ srvNum) (removed : removeCalls job ps0 callIndex0 subNum srvNum = (ps1, callIndex))
    (unset : callIndex0 = -1 → callIndex = -1)
    (named : callIndex0 ≠ -1 →
      ∃ c c', callAt ps0 subNum callIndex0 = .ok c ∧ callAt ps subNum callIndex = .ok c' ∧ c'.name = c.name)
    (minimized : minimizeCalls job fuel callIndex (places srvNum.toNat ps1) ps1 = some ps) :
    minimize job fuel ps0 callIndex0 subNum srvNum = .ok (ps, callIndex) := by
  have checks : ∃ name0, nameBefore ps0 callIndex0 subNum = .ok name0 ∧ checkAfter ps callIndex subNum name0 = .ok () := by
    unfold nameBefore checkAfter
    by_cases without : callIndex0 = -1
    · exact ⟨"", if_pos without, if_pos (unset without)⟩
    · obtain ⟨c, c', found, found', same⟩ := named without
      refine ⟨c.name, by simp [without, found, Except.map], ?_⟩
      split
      · rfl
      · simp [found', same]
  obtain ⟨name0, before, after⟩ := checks
  simp [minimize, before, removed, minimized, after, Int.not_lt.mpr servers, bind, Except.bind, Except.map]

theorem Trimmed.callAt {ps0 ps : MinGroup} {callIndex0 callIndex subNum : Int} {srvNum : Nat}
    (trimmed : Trimmed subNum srvNum ps0 callIndex0 ps callIndex)
    (index : callIndex0 = -1 ∨ ∃ c, callAt ps0 subNum callIndex0 = .ok c) (given : callIndex0 ≠ -1) :
    ∃ c c', Minimize.callAt ps0 subNum callIndex0 = .ok c ∧ Minimize.callAt ps subNum callIndex = .ok c' ∧ c'.name = c.name := by
  obtain ⟨c, found⟩ := index.resolve_left given
  obtain ⟨s, k, sub, atIndex, here⟩ := callAt_ok_iff.mp found
  obtain ⟨k', atIndex', kept⟩ := trimmed.named s k sub atIndex
  rw [keyAt_outline, keyAt_outline, here] at kept
  obtain ⟨c', here', same⟩ := Option.map_eq_some_iff.mp kept
  exact ⟨c, c', found, callAt_ok_iff.mpr ⟨s, k', sub, atIndex', here'⟩, congrArg CallKey.name same⟩

section Whole

variable {job : Job} (lawful : Lawful job.target) {ps0 : MinGroup} {callIndex0 subNum srvNum : Int}
include lawful

/-- What holds of every run: nothing but the removal of calls changes the outline. -/
theorem minimize_run (clean : CleanServers job.target srvNum.toNat ps0) (good : accepted job ps0 callIndex0) (servers : 0 ≤ srvNum)
    (index : callIndex0 = -1 ∨ ∃ c, callAt ps0 subNum callIndex0 = .ok c) :
    ∃ ps callIndex, (∃ enough, ∀ fuel ≥ enough, minimize job fuel ps0 callIndex0 subNum srvNum = .ok (ps, callIndex)) ∧
      accepted job ps callIndex ∧ outline ps = outline (removeCalls job ps0 callIndex0 subNum srvNum).1 ∧
      Trimmed subNum srvNum.toNat ps0 callIndex0 ps callIndex := by
  have trimmed : Trimmed subNum srvNum.toNat ps0 callIndex0 (removeCalls job ps0 callIndex0 subNum srvNum).1
      (removeCalls job ps0 callIndex0 subNum srvNum).2 := trimmed_removeProgs lawful _ (ps0, callIndex0)
  have still : accepted job (removeCalls job ps0 callIndex0 subNum srvNum).1
      (removeCalls job ps0 callIndex0 subNum srvNum).2 := accepted_removeProgs lawful _ good
  generalize removed : removeCalls job ps0 callIndex0 subNum srvNum = result at trimmed still ⊢
  obtain ⟨ps1, callIndex⟩ := result
  have clean1 : CleanServers job.target srvNum.toNat ps1 := by
    unfold CleanServers
    rw [trimmed.servers]
    exact clean
  obtain ⟨ps, ⟨enough, ends⟩, reduced⟩ :=
    minimizeCalls_ends lawful (places srvNum.toNat ps1) (fun _ member => client_of_places member) clean1 still
  have whole : Trimmed subNum srvNum.toNat ps0 callIndex0 ps callIndex := trimmed.trans (.of_same reduced.same)
  refine ⟨ps, callIndex, ⟨enough, fun fuel more => ?_⟩, reduced.good, reduced.same.outline, whole⟩
  exact minimize_of_calls servers removed whole.unset (whole.callAt index) (ends fuel more)

end Whole

theorem failureCalls_eq_nil {p : MinProg} : failureCalls p = [] ↔ ∀ c ∈ p, isFailure c.name = false := by
  simp [failureCalls, failureKeys, MinCall.key]

/-- A predicate that accepts everything lets every failure call of the other clients go. -/
theorem plain_of_keeps {job : Job} (lawful : Lawful job.target) (every : ∀ ps callIndex, job.pred0 ps callIndex = true)
    {ps0 : MinGroup} {callIndex0 subNum srvNum : Int} (clean : CleanServers job.target srvNum.toNat ps0)
    (keeps : Keeps job ps0 callIndex0 subNum srvNum) :
    0 ≤ srvNum ∧ (callIndex0 = -1 ∨ ∃ c, callAt ps0 subNum callIndex0 = .ok c) ∧
      ∀ j : Nat, srvNum ≤ j → j ≠ subNum → ∀ c ∈ ps0.getD j [], isFailure c.name = false := by
  obtain ⟨ps, callIndex, ⟨enough, returns⟩, survives⟩ := keeps
  obtain ⟨servers, index⟩ := minimize_ok (returns enough (Nat.le_refl _))
  refine ⟨servers, index, ?_⟩
  have good : accepted job ps0 callIndex0 := every _ _
  obtain ⟨ps', callIndex', ⟨enough', returns'⟩, -, shape, -⟩ := minimize_run lawful clean good servers index
  have same := (returns (max enough enough') (Nat.le_max_left _ _)).symm.trans
    (returns' (max enough enough') (Nat.le_max_right _ _))
  obtain ⟨rfl, rfl⟩ := Prod.mk.inj (Except.ok.inj same)
  intro j client other
  by_cases inside : j < ps0.length
  · rw [← failureCalls_eq_nil, ← survives.failures j client, failureCalls_getD, shape]
    exact removeCalls_every lawful every other callIndex0 client inside
  · intro c member
    rw [List.getD_eq_getElem?_getD, List.getElem?_eq_none (by omega)] at member
    cases member

theorem minimize_keeps_iff {target : Target} (lawful : Lawful target) (crash : Bool) {ps0 : MinGroup}
    {callIndex0 subNum srvNum : Int} (clean : CleanServers target srvNum.toNat ps0) :
    (∀ pred0, accepted ⟨target, crash, pred0⟩ ps0 callIndex0 → Keeps ⟨target, crash, pred0⟩ ps0 callIndex0 subNum srvNum) ↔
      0 ≤ srvNum ∧ (callIndex0 = -1 ∨ ∃ c, callAt ps0 subNum callIndex0 = .ok c) ∧
        ∀ j : Nat, srvNum ≤ j → j ≠ subNum → ∀ c ∈ ps0.getD j [], isFailure c.name = false := by
  constructor
  · intro always
    have keeps := always (fun _ _ => true) rfl
    exact plain_of_keeps lawful (fun _ _ => rfl) clean keeps
  · rintro ⟨servers, index, plain⟩ pred0 good
    obtain ⟨ps, callIndex, returns, accepts, -, trimmed⟩ := minimize_run lawful clean good servers index
    refine ⟨ps, callIndex, returns, accepts, trimmed.unset, trimmed.callAt index, trimmed.servers, ?_⟩
    intro j client
    rw [failureCalls_getD, failureCalls_getD]
    by_cases own : (j : Int) = subNum
    · exact trimmed.own j own.symm
    · have none := failureCalls_eq_nil.mpr (plain j client own)
      rw [failureCalls_getD] at none
      have fewer := trimmed.others j
      rw [none] at fewer ⊢
      exact List.sublist_nil.mp fewer

/-! ### A group with two clients -/

/-- `UnixNeutralizer.Neutralize`: this exit code is reserved by the executor. -/
def fixExit : MinArg → MinArg
  | .const val => .const (if val % 128 = 67 then 1 else val)
  | arg => arg

/-- The target on calls without length arguments of which only exits are sanitized. -/
def exitTarget : Target where
  assignSizesCall c := c
  sanitize c := if c.name = "exit" ∨ c.name = "exit_group" then { c with args := c.args.modify 0 fixExit } else c
  dflt _ := 0
  special := 0xffffffff81000000

theorem fixExit_fixExit (arg : MinArg) : fixExit (fixExit arg) = fixExit arg := by
  cases arg with
  | const val =>
    simp only [fixExit]
    split <;> simp_all
  | _ => rfl

theorem fixExit_modArg (bytes : List UInt8) (loc : List Nat) (arg : MinArg) :
    fixExit (modArg (setData bytes) loc (fixExit arg)) = fixExit (modArg (setData bytes) loc arg) := by
  cases arg with
  | const val => cases loc <;> exact fixExit_fixExit (.const val)
  | _ => rfl

theorem fixExit_modArgs (bytes : List UInt8) (loc : List Nat) (args : List MinArg) :
    (modArgs (setData bytes) loc (args.modify 0 fixExit)).modify 0 fixExit = (modArgs (setData bytes) loc args).modify 0 fixExit := by
  cases args with
  | nil => cases loc <;> simp [modArgs]
  | cons arg rest =>
    cases loc with
    | nil => simp [modArgs, fixExit_fixExit]
    | cons k loc =>
      cases k with
      | zero => simp [modArgs, fixExit_modArg]
      | succ k => simp [modArgs, fixExit_fixExit]

theorem exitTarget_lawful : Lawful exitTarget where
  sanitize_values c := by
    simp only [exitTarget]
    split
    · refine ⟨rfl, rfl, ?_⟩
      rw [eraseList_eq_map, eraseList_eq_map]
      cases c.args with
      | nil => rfl
      | cons arg rest => cases arg <;> rfl
    · exact ⟨rfl, rfl, rfl⟩
  sanitize_failure c failure := by
    simp only [exitTarget]
    split
    · rename_i exits
      have other : isFailure c.name = false := by
        rcases exits with name | name <;> rw [name] <;> decide
      rw [other] at failure
      cases failure
    · rfl
  sanitize_twice c := by
    simp only [exitTarget]
    split_ifs with exits
    · simp only [List.modify_modify_eq]
      congr 2
      funext arg
      exact fixExit_fixExit arg
    · rfl
  sizes_values c := ⟨rfl, rfl, rfl⟩
  sizes_again c bytes loc := MinCall.setBytes_setBytes bytes bytes loc c ▸ rfl
  sanitize_again c bytes loc := by
    simp only [exitTarget, MinCall.setBytes]
    split_ifs with exits
    · exact congrArg (fun args => { c with args }) (fixExit_modArgs bytes loc c.args)
    · rfl

def exitCall (ref : Nat) (code : UInt64) : MinCall := { ref, name := "exit", fields := ["code"], args := [.const code] }

def syncCall (ref : Nat) (id clt : UInt64) : MinCall :=
  { ref, name := "syz_failure_sync", fields := ["idx", "clt"], args := [.const id, .const clt] }

/-- A server and two clients; the second one has `calls` before its exit. -/
def twoClients (calls : MinProg) : MinGroup :=
  [[exitCall 0 0], [exitCall 1 3, syncCall 2 1 0], calls ++ [exitCall 3 1]]

theorem twoClients_clean (calls : MinProg) : CleanServers exitTarget (Int.toNat 1) (twoClients calls) := by
  intro p server c member
  obtain rfl : p = [exitCall 0 0] := List.mem_singleton.mp server
  obtain rfl : c = exitCall 0 0 := List.mem_singleton.mp member
  rfl

theorem minimize_keeps_iff_sample : Lawful exitTarget ∧ CleanServers exitTarget (Int.toNat 1) (twoClients []) ∧
    ∀ pred0, accepted ⟨exitTarget, false, pred0⟩ (twoClients []) 0 → Keeps ⟨exitTarget, false, pred0⟩ (twoClients []) 0 1 1 := by
  refine ⟨exitTarget_lawful, twoClients_clean [], ?_⟩
  refine (minimize_keeps_iff exitTarget_lawful false (twoClients_clean [])).mpr ⟨by decide, .inr ⟨exitCall 1 3, rfl⟩, ?_⟩
  -- the other client is the last program
  intro j client other c member
  match j with
  | 0 => omega
  | 1 => exact absurd rfl other
  | 2 =>
    obtain rfl : c = exitCall 3 1 := List.mem_singleton.mp member
    decide
  | j + 3 => cases member

/-- Both clients wait for the same failure, and the second one loses its call. -/
theorem minimize_loses : Lawful exitTarget ∧ CleanServers exitTarget (Int.toNat 1) (twoClients [syncCall 4 1 1]) ∧
    accepted ⟨exitTarget, false, fun _ _ => true⟩ (twoClients [syncCall 4 1 1]) 0 ∧
    ¬ Keeps ⟨exitTarget, false, fun _ _ => true⟩ (twoClients [syncCall 4 1 1]) 0 1 1 := by
  refine ⟨exitTarget_lawful, twoClients_clean _, rfl, ?_⟩
  intro keeps
  have plain := (plain_of_keeps exitTarget_lawful (fun _ _ => rfl) (twoClients_clean _) keeps).2.2 2 (by decide) (by decide)
  have sync := plain (syncCall 4 1 1) List.mem_cons_self
  revert sync
  decide

end DfsFuzz.Minimize
