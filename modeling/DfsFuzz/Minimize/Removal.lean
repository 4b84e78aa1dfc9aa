import DfsFuzz.Minimize.Outline

/-!
What the removal of calls keeps. The call in question stays at the moving index, the program it is in
keeps its failure calls, and every other client only loses calls, failure calls among them.
-/

namespace DfsFuzz.Minimize

open DfsFuzz.Mutation (isFailure)

def keyAt (keys : List (List CallKey)) (j i : Nat) : Option CallKey := keys[j]?.bind fun p => p[i]?

def failureKeys (keys : List CallKey) : List CallKey := keys.filter fun key => isFailure key.name

def failureCalls (p : MinProg) : List CallKey := failureKeys (p.map MinCall.key)

theorem failureCalls_getD (ps : MinGroup) (j : Nat) : failureCalls (ps.getD j []) = failureKeys ((outline ps).getD j []) := by
  simp only [failureCalls, outline, List.getD_eq_getElem?_getD, List.getElem?_map]
  cases ps[j]? <;> rfl

theorem failureKeys_eraseIdx {keys : List CallKey} {i : Nat} (plain : ∀ key, keys[i]? = some key → isFailure key.name = false) :
    failureKeys (keys.eraseIdx i) = failureKeys keys := by
  by_cases inside : i < keys.length
  · have here := plain _ (List.getElem?_eq_getElem inside)
    have tail : failureKeys (keys.drop i) = failureKeys (keys.drop (i + 1)) := by
      rw [List.drop_eq_getElem_cons inside, failureKeys, List.filter_cons_of_neg (by simp [here])]
      rfl
    calc failureKeys (keys.eraseIdx i)
      _ = failureKeys (keys.take i) ++ failureKeys (keys.drop (i + 1)) := by
        rw [List.eraseIdx_eq_take_drop_succ, failureKeys, List.filter_append]
        rfl
      _ = failureKeys (keys.take i ++ keys.drop i) := by
        rw [← tail]
        exact (List.filter_append _ _).symm
      _ = failureKeys keys := by rw [List.take_append_drop]
  · rw [List.eraseIdx_of_length_le (by omega)]

section Step

variable {job : Job} {subNum callIndex0 callIndex : Int} {srvNum j i : Nat} {ps0 ps : MinGroup}

theorem removeCall_key (dflt : ResultId → UInt64) (i : Nat) (p : MinProg) :
    (removeCall dflt i p).map MinCall.key = (p.map MinCall.key).eraseIdx i := by
  unfold removeCall
  cases here : p[i]? with
  | none =>
    have outside : p.length ≤ i := List.getElem?_eq_none_iff.mp here
    exact (List.eraseIdx_of_length_le (by simpa using outside)).symm
  | some c => simp [Function.comp_def, key_detachCall, List.eraseIdx_map]

theorem tryRemove_eq (removed : tryRemove job ps0 j i callIndex = some ps) :
    ps = ps0.modify j (fun p => (removeCall job.target.dflt i p).map job.target.sanitize) ∧
      accepted job (ps0.modify j (removeCall job.target.dflt i)) callIndex := by
  unfold tryRemove at removed
  generalize verdict : job.pred (ps0.modify j (removeCall job.target.dflt i)) callIndex = result at removed
  obtain ⟨candidate, good⟩ := result
  cases good with
  | false => cases removed
  | true =>
    refine ⟨?_, congrArg Prod.snd verdict⟩
    obtain rfl := Option.some.inj removed
    obtain rfl : _ = candidate := congrArg Prod.fst verdict
    cases here : ps0[j]? with
    | none =>
      have outside : ps0.length ≤ j := List.getElem?_eq_none_iff.mp here
      rw [List.set_eq_of_length_le outside, List.modify_eq_self outside]
    | some p =>
      have candidate : ((job.pred (ps0.modify j (removeCall job.target.dflt i)) callIndex).1)[j]? =
          some ((removeCall job.target.dflt i p).map job.target.sanitize) := by
        simp only [Job.pred, List.getElem?_map, List.getElem?_modify, here, if_true]
        rfl
      rw [List.getD_eq_getElem?_getD, candidate, Option.getD_some]
      exact (Edits.modify_eq_set here fun p => (removeCall job.target.dflt i p).map job.target.sanitize).symm

inductive Removed (job : Job) (subNum : Int) (j i : Nat) (ps0 : MinGroup) (callIndex0 : Int) (ps : MinGroup) : Int → Prop
  | same : ps = ps0 → Removed job subNum j i ps0 callIndex0 ps callIndex0
  | inside : j = subNum → i ≠ callIndex0 → (∀ key, keyAt (outline ps0) j i = some key → isFailure key.name = false) →
      tryRemove job ps0 j i (if i < callIndex0 then callIndex0 - 1 else callIndex0) = some ps →
      Removed job subNum j i ps0 callIndex0 ps (if i < callIndex0 then callIndex0 - 1 else callIndex0)
  | other : j ≠ subNum → tryRemove job ps0 j i callIndex0 = some ps → Removed job subNum j i ps0 callIndex0 ps callIndex0

theorem keyAt_outline (ps : MinGroup) (j i : Nat) :
    keyAt (outline ps) j i = (ps[j]?.bind fun p => p[i]?).map MinCall.key := by
  simp only [keyAt, outline, List.getElem?_map]
  cases ps[j]? <;> simp

theorem removeStep_cases (job : Job) (subNum : Int) (j i : Nat) (ps0 : MinGroup) (callIndex0 : Int) :
    Removed job subNum j i ps0 callIndex0 (removeStep job subNum j i ps0 callIndex0).1
      (removeStep job subNum j i ps0 callIndex0).2 := by
  unfold removeStep
  by_cases own : (j : Int) = subNum
  · rw [if_pos own]
    cases here : ps0[j]?.bind fun p => p[i]? with
    | none => exact .same rfl
    | some c =>
      dsimp only
      split
      · exact .same rfl
      · rename_i removable
        simp only [Bool.or_eq_true, decide_eq_true_eq, not_or, Bool.not_eq_true] at removable
        cases tried : tryRemove job ps0 j i (if i < callIndex0 then callIndex0 - 1 else callIndex0) with
        | none => exact .same rfl
        | some ps =>
          refine .inside own removable.1 ?_ tried
          intro key found
          rw [keyAt_outline, here] at found
          obtain rfl := Option.some.inj found
          exact removable.2
  · rw [if_neg own]
    cases tried : tryRemove job ps0 j i callIndex0 with
    | none => exact .same rfl
    | some ps => exact .other own tried

section Effect

variable (lawful : Lawful job.target) (removed : tryRemove job ps0 j i callIndex = some ps)
include lawful removed

theorem accepted_tryRemove : accepted job ps callIndex := by
  obtain ⟨rfl, good⟩ := tryRemove_eq removed
  have same : (ps0.modify j fun p => (removeCall job.target.dflt i p).map job.target.sanitize).map
        (fun p => p.map job.target.sanitize) =
      (ps0.modify j (removeCall job.target.dflt i)).map fun p => p.map job.target.sanitize := by
    apply List.ext_getElem?
    intro k
    simp only [List.getElem?_map, List.getElem?_modify]
    by_cases own : j = k
    · simp [own, Function.comp_def, lawful.sanitize_twice]
    · simp [own]
  rw [accepted, Job.pred, same]
  exact good

theorem outline_tryRemove : outline ps = (outline ps0).modify j fun keys => keys.eraseIdx i := by
  obtain ⟨rfl, -⟩ := tryRemove_eq removed
  apply outline_modify
  intro p
  rw [← removeCall_key job.target.dflt i p, List.map_map]
  exact List.map_congr_left fun c _ => lawful.key_sanitize c

omit lawful in
theorem servers_tryRemove (client : srvNum ≤ j) : ps.take srvNum = ps0.take srvNum := by
  obtain ⟨rfl, -⟩ := tryRemove_eq removed
  exact take_modify_behind client _ _

end Effect

end Step

/-- What a row of removals keeps of the group `ps0` with the call `callIndex0` of program `subNum`. -/
structure Trimmed (subNum : Int) (srvNum : Nat) (ps0 : MinGroup) (callIndex0 : Int) (ps : MinGroup) (callIndex : Int) : Prop where
  length : ps.length = ps0.length
  servers : ps.take srvNum = ps0.take srvNum
  unset : callIndex0 = -1 → callIndex = -1
  named : ∀ s k : Nat, subNum = s → callIndex0 = k →
    ∃ k' : Nat, callIndex = k' ∧ keyAt (outline ps) s k' = keyAt (outline ps0) s k
  own : ∀ s : Nat, subNum = s → failureKeys ((outline ps).getD s []) = failureKeys ((outline ps0).getD s [])
  others : ∀ k, (failureKeys ((outline ps).getD k [])).Sublist (failureKeys ((outline ps0).getD k []))

namespace Trimmed

variable {job : Job} {subNum callIndex0 callIndex callIndex' : Int} {srvNum j : Nat} {ps0 ps ps' : MinGroup}

theorem refl (ps0 : MinGroup) (callIndex0 : Int) : Trimmed subNum srvNum ps0 callIndex0 ps0 callIndex0 :=
  ⟨rfl, rfl, id, fun _ k _ index => ⟨k, index, rfl⟩, fun _ _ => rfl, fun _ => List.Sublist.refl _⟩

theorem trans (first : Trimmed subNum srvNum ps0 callIndex0 ps callIndex)
    (second : Trimmed subNum srvNum ps callIndex ps' callIndex') : Trimmed subNum srvNum ps0 callIndex0 ps' callIndex' where
  length := second.length.trans first.length
  servers := second.servers.trans first.servers
  unset none := second.unset (first.unset none)
  named s k sub index := by
    obtain ⟨k', index', kept⟩ := first.named s k sub index
    obtain ⟨k'', index'', kept'⟩ := second.named s k' sub index'
    exact ⟨k'', index'', kept'.trans kept⟩
  own s sub := (second.own s sub).trans (first.own s sub)
  others k := (second.others k).trans (first.others k)

theorem of_same (same : Same srvNum ps0 ps) : Trimmed subNum srvNum ps0 callIndex0 ps callIndex0 where
  length := by rw [← length_outline, same.outline, length_outline]
  servers := same.servers
  unset := id
  named s k _ index := ⟨k, index, by rw [same.outline]⟩
  own s _ := by rw [same.outline]
  others k := by rw [same.outline]

end Trimmed

section Lost

variable {keys : List (List CallKey)} {j s i k : Nat}

theorem getD_lost_other (other : j ≠ s) : (keys.modify j fun p => p.eraseIdx i).getD s [] = keys.getD s [] := by
  simp [List.getD_eq_getElem?_getD, other]

theorem getD_lost_own : (keys.modify j fun p => p.eraseIdx i).getD j [] = (keys.getD j []).eraseIdx i := by
  simp only [List.getD_eq_getElem?_getD, List.getElem?_modify, if_true]
  cases keys[j]? <;> simp

theorem keyAt_getD : keyAt keys j i = (keys.getD j [])[i]? := by
  rw [keyAt, List.getD_eq_getElem?_getD]
  cases keys[j]? <;> simp

theorem keyAt_lost_other (other : j ≠ s) : keyAt (keys.modify j fun p => p.eraseIdx i) s k = keyAt keys s k := by
  rw [keyAt_getD, keyAt_getD, getD_lost_other other]

theorem keyAt_lost_own (other : k ≠ i) :
    keyAt (keys.modify j fun p => p.eraseIdx i) j (Edits.closed i k) = keyAt keys j k := by
  rw [keyAt_getD, keyAt_getD, getD_lost_own, Edits.eraseIdx_closed _ other]

theorem failureKeys_lost (k : Nat) :
    (failureKeys ((keys.modify j fun p => p.eraseIdx i).getD k [])).Sublist (failureKeys (keys.getD k [])) := by
  by_cases own : j = k
  · subst own
    rw [getD_lost_own]
    exact (List.eraseIdx_sublist _ i).filter _
  · rw [getD_lost_other own]

end Lost

section Run

variable {job : Job} (lawful : Lawful job.target) {subNum : Int} {srvNum j : Nat} (client : srvNum ≤ j)
include lawful client

theorem trimmed_removeStep (i : Nat) (ps0 : MinGroup) (callIndex0 : Int) :
    Trimmed subNum srvNum ps0 callIndex0 (removeStep job subNum j i ps0 callIndex0).1
      (removeStep job subNum j i ps0 callIndex0).2 := by
  have step := removeStep_cases job subNum j i ps0 callIndex0
  generalize (removeStep job subNum j i ps0 callIndex0).1 = ps at step ⊢
  generalize (removeStep job subNum j i ps0 callIndex0).2 = callIndex at step ⊢
  have length (lost : outline ps = (outline ps0).modify j fun keys => keys.eraseIdx i) : ps.length = ps0.length := by
    rw [← length_outline, lost, List.length_modify, length_outline]
  cases step with
  | same unchanged =>
    subst unchanged
    exact Trimmed.refl ps callIndex0
  | inside own other plain removed =>
    have lost := outline_tryRemove lawful removed
    refine ⟨length lost, servers_tryRemove removed client, ?_, ?_, ?_, ?_⟩
    · intro unset
      rw [if_neg (by omega)]
      exact unset
    · intro s k sub index
      obtain rfl : j = s := by omega
      refine ⟨Edits.closed i k, ?_, ?_⟩
      · unfold Edits.closed
        split_ifs <;> omega
      · rw [lost, keyAt_lost_own (by omega)]
    · intro s sub
      obtain rfl : j = s := by omega
      rw [lost, getD_lost_own, failureKeys_eraseIdx]
      intro key found
      exact plain key (keyAt_getD.trans found)
    · rw [lost]
      exact failureKeys_lost
  | other other removed =>
    have lost := outline_tryRemove lawful removed
    refine ⟨length lost, servers_tryRemove removed client, id, ?_, ?_, ?_⟩
    · intro s k sub index
      refine ⟨k, index, ?_⟩
      rw [lost, keyAt_lost_other (by omega)]
    · intro s sub
      rw [lost, getD_lost_other (by omega)]
    · rw [lost]
      exact failureKeys_lost

omit client in
theorem accepted_removeStep {ps0 : MinGroup} {callIndex0 : Int} (i : Nat) (good : accepted job ps0 callIndex0) :
    accepted job (removeStep job subNum j i ps0 callIndex0).1 (removeStep job subNum j i ps0 callIndex0).2 := by
  have step := removeStep_cases job subNum j i ps0 callIndex0
  generalize (removeStep job subNum j i ps0 callIndex0).1 = ps at step ⊢
  generalize (removeStep job subNum j i ps0 callIndex0).2 = callIndex at step ⊢
  cases step with
  | same unchanged => rwa [unchanged]
  | inside own other plain removed => exact accepted_tryRemove lawful removed
  | other other removed => exact accepted_tryRemove lawful removed

theorem trimmed_removeLoop (n : Nat) (st : MinGroup × Int) :
    Trimmed subNum srvNum st.1 st.2 (removeLoop job subNum j n st).1 (removeLoop job subNum j n st).2 := by
  induction n generalizing st with
  | zero => exact Trimmed.refl st.1 st.2
  | succ n ih => exact (trimmed_removeStep lawful client n st.1 st.2).trans (ih _)

omit client in
theorem accepted_removeLoop (n : Nat) {st : MinGroup × Int} (good : accepted job st.1 st.2) :
    accepted job (removeLoop job subNum j n st).1 (removeLoop job subNum j n st).2 := by
  induction n generalizing st with
  | zero => exact good
  | succ n ih => exact ih (accepted_removeStep lawful n good)

end Run

section Whole

variable {job : Job} (lawful : Lawful job.target) {subNum srvNum : Int}
include lawful

theorem trimmed_removeProgs (js : List Nat) (st : MinGroup × Int) :
    Trimmed subNum srvNum.toNat st.1 st.2 (js.foldl (removeProg job subNum srvNum) st).1
      (js.foldl (removeProg job subNum srvNum) st).2 := by
  induction js generalizing st with
  | nil => exact Trimmed.refl st.1 st.2
  | cons j js ih =>
    have first : Trimmed subNum srvNum.toNat st.1 st.2 (removeProg job subNum srvNum st j).1
        (removeProg job subNum srvNum st j).2 := by
      unfold removeProg
      split
      · exact Trimmed.refl st.1 st.2
      · exact trimmed_removeLoop lawful (by omega) _ st
    exact first.trans (ih _)

theorem accepted_removeProgs (js : List Nat) {st : MinGroup × Int} (good : accepted job st.1 st.2) :
    accepted job (js.foldl (removeProg job subNum srvNum) st).1 (js.foldl (removeProg job subNum srvNum) st).2 := by
  induction js generalizing st with
  | nil => exact good
  | cons j js ih =>
    apply ih
    unfold removeProg
    split
    · exact good
    · exact accepted_removeLoop lawful _ good

variable (every : ∀ ps callIndex, job.pred0 ps callIndex = true) {j : Nat} (other : j ≠ subNum)
include every other

theorem removeLoop_every (n : Nat) (st : MinGroup × Int) :
    outline (removeLoop job subNum j n st).1 = (outline st.1).modify j (List.drop n) := by
  induction n generalizing st with
  | zero => exact (List.modify_id j _).symm
  | succ n ih =>
    have step : ∃ ps, tryRemove job st.1 j n st.2 = some ps ∧ removeStep job subNum j n st.1 st.2 = (ps, st.2) := by
      refine ⟨st.1.set j ((job.pred (st.1.modify j (removeCall job.target.dflt n)) st.2).1.getD j []), ?_⟩
      have removed : tryRemove job st.1 j n st.2 =
          some (st.1.set j ((job.pred (st.1.modify j (removeCall job.target.dflt n)) st.2).1.getD j [])) := by
        simp only [tryRemove, Job.pred, every]
      refine ⟨removed, ?_⟩
      rw [removeStep, if_neg other, removed]
    obtain ⟨ps, removed, after⟩ := step
    rw [removeLoop, ih, after, outline_tryRemove lawful removed, List.modify_modify_eq]
    congr 1
    funext keys
    rw [Function.comp_apply, List.eraseIdx_eq_take_drop_succ, List.drop_append]
    by_cases inside : n ≤ keys.length
    · simp [inside]
    · simp
      omega

theorem removeCalls_every {ps0 : MinGroup} (callIndex0 : Int) (client : srvNum ≤ j) (inside : j < ps0.length) :
    failureKeys ((outline (removeCalls job ps0 callIndex0 subNum srvNum).1).getD j []) = [] := by
  obtain ⟨before, after, split⟩ := List.append_of_mem (List.mem_range.mpr inside)
  rw [removeCalls, split, List.foldl_append, List.foldl_cons]
  generalize before.foldl (removeProg job subNum srvNum) (ps0, callIndex0) = st
  have emptied : (outline (removeProg job subNum srvNum st j).1).getD j [] = [] := by
    rw [removeProg, if_neg (by omega), removeLoop_every lawful every other]
    simp only [outline, List.getD_eq_getElem?_getD, List.getElem?_modify, List.getElem?_map]
    cases st.1[j]? <;> simp
  have less : (failureKeys ((outline (after.foldl (removeProg job subNum srvNum) _).1).getD j [])).Sublist _ :=
    (trimmed_removeProgs lawful after (removeProg job subNum srvNum st j)).others j
  rw [emptied] at less
  exact List.sublist_nil.mp less

end Whole

end DfsFuzz.Minimize
