import DfsFuzz.Choice.Relation
import DfsFuzz.Prog.FdInfo
import DfsFuzz.Prog.RemoveCall
import Mathlib.Data.List.GetD
import Mathlib.Data.List.Rotate

/-!
`RemoveReservoirDynamic` of `prog/mutation.go`: one removal in each of a random number of programs.
-/

namespace DfsFuzz.Refs

open DfsFuzz.Choice (Draw)

/-- A program of a group with its objects, which no other program uses. -/
structure Member where
  memory : Memory
  prog : Prog

structure CandProg where
  pi : Nat
  idxs : List Nat

/-- `removed` lists the program and the index of each removed call. -/
structure Reservoir where
  ps : List Member
  removed : List (Nat × Nat) := []

def removableCalls (g : Go.Growth) (p : Member) : List Nat :=
  (List.range p.prog.calls.length).filter fun ci =>
    match p.prog.calls[ci]? with
    | none => false
    | some call => callRemovable g p.memory p.prog call

def candProgs (g : Go.Growth) (ps : List Member) : List CandProg :=
  ps.zipIdx.filterMap fun p => if (removableCalls g p.1).length > 0 then some ⟨p.2, removableCalls g p.1⟩ else none

def removeAt (defaults : Defaults) (ps : List Member) (pi idx : Nat) : Option (List Member) := do
  let p ← ps[pi]?
  let (prog, memory) ← p.prog.removeCall defaults idx p.memory
  some (ps.set pi ⟨memory, prog⟩)

/-- The candidates `cand[(start+k)%C]` that the loop visits. -/
def visited (cand : List CandProg) (start : Nat) : List CandProg :=
  (List.range cand.length).map fun k => cand.getD ((start + k) % cand.length) ⟨0, []⟩

/-- The loop over the rest of the candidates; `t` counts the draws. -/
def reservoirLoop (defaults : Defaults) (draws : Nat → Draw) : Nat → Nat → List CandProg → Reservoir → Option Reservoir
  | _, _, [], st => some st
  | t, remain, cp :: rest, st =>
    if remain = 0 then some st
    else if (draws t).intn (rest.length + 1) ≥ remain then reservoirLoop defaults draws (t + 1) remain rest st
    else
      let idx := cp.idxs.getD ((draws (t + 1)).intn cp.idxs.length) 0
      (removeAt defaults st.ps cp.pi idx).bind fun ps =>
        reservoirLoop defaults draws (t + 2) (remain - 1) rest ⟨ps, st.removed ++ [(cp.pi, idx)]⟩

/-- `randRange(lo, hi)` for the number of removals. -/
def reservoirTarget (draws : Nat → Draw) (c : Nat) : Nat :=
  let lo := if (c + 3) / 4 < 1 then 1 else (c + 3) / 4
  let hi := (c + 1) / 2
  lo + (draws 0).intn (hi - lo + 1)

/-- The group afterwards and the calls that were removed; `none` is the panic of `RemoveCall`. -/
def removeReservoirDynamic (g : Go.Growth) (defaults : Defaults) (draws : Nat → Draw) (ps : List Member) :
    Option (Reservoir × Bool) :=
  let cand := candProgs g ps
  if cand.length = 0 then some (⟨ps, []⟩, false)
  else
    (reservoirLoop defaults draws 2 (reservoirTarget draws cand.length)
      (visited cand ((draws 1).intn cand.length)) ⟨ps, []⟩).map fun st => (st, decide (st.removed.length > 0))

theorem mem_removableCalls {g : Go.Growth} {p : Member} {ci : Nat} : ci ∈ removableCalls g p ↔
    ∃ call, p.prog.calls[ci]? = some call ∧ callRemovable g p.memory p.prog call = true := by
  unfold removableCalls
  rw [List.mem_filter, List.mem_range]
  constructor
  · rintro ⟨bound, accepted⟩
    rw [List.getElem?_eq_getElem bound] at accepted ⊢
    exact ⟨_, rfl, accepted⟩
  · rintro ⟨call, here, accepted⟩
    refine ⟨(List.getElem?_eq_some_iff.mp here).1, ?_⟩
    rw [here]
    exact accepted

/-- A candidate of the group: some of its program's calls may be removed. -/
structure Candidate (g : Go.Growth) (ps : List Member) (cp : CandProg) : Prop where
  nonempty : 0 < cp.idxs.length
  accepted : ∀ idx ∈ cp.idxs, ∃ p call, ps[cp.pi]? = some p ∧ p.prog.calls[idx]? = some call ∧
    callRemovable g p.memory p.prog call = true

theorem candProgs_candidate {g : Go.Growth} {ps : List Member} {cp : CandProg} (member : cp ∈ candProgs g ps) :
    Candidate g ps cp := by
  obtain ⟨p, inside, found⟩ := List.mem_filterMap.mp member
  split at found
  · rename_i nonempty
    obtain rfl := Option.some.inj found
    refine ⟨nonempty, fun idx listed => ?_⟩
    obtain ⟨call, here, accepted⟩ := mem_removableCalls.mp listed
    exact ⟨p.1, call, List.mem_zipIdx_iff_getElem?.mp inside, here, accepted⟩
  · cases found

theorem candProgs_nodup (g : Go.Growth) (ps : List Member) : ((candProgs g ps).map CandProg.pi).Nodup := by
  have indices : ((candProgs g ps).map CandProg.pi).Sublist (ps.zipIdx.map Prod.snd) := by
    unfold candProgs
    induction ps.zipIdx with
    | nil => exact List.Sublist.refl _
    | cons p l ih =>
      rw [List.filterMap_cons, List.map_cons]
      split
      · exact ih.cons _
      · rename_i found
        split at found
        · obtain rfl := Option.some.inj found
          rw [List.map_cons]
          exact ih.cons_cons _
        · cases found
  refine indices.nodup ?_
  rw [List.zipIdx_map_snd]
  exact List.nodup_range'

theorem length_candProgs (g : Go.Growth) (ps : List Member) :
    (candProgs g ps).length = ps.countP fun p => 0 < (removableCalls g p).length := by
  have counted : ∀ start, ((ps.zipIdx start).filterMap fun p =>
      if (removableCalls g p.1).length > 0 then some (⟨p.2, removableCalls g p.1⟩ : CandProg) else none).length =
        ps.countP fun p => 0 < (removableCalls g p).length := by
    induction ps with
    | nil => exact fun _ => rfl
    | cons p ps ih =>
      intro start
      rw [List.zipIdx_cons, List.filterMap_cons, List.countP_cons, ← ih (start + 1)]
      by_cases some_call : 0 < (removableCalls g p).length <;> simp [some_call]
  exact counted 0

theorem visited_eq (cand : List CandProg) (start : Nat) : visited cand start = cand.rotate start := by
  refine List.ext_getElem (by simp [visited]) fun k here there => ?_
  rw [List.length_rotate] at there
  simp only [visited, List.getElem_map, List.getElem_range, List.getElem_rotate]
  rw [List.getD_eq_getElem _ _ (Nat.mod_lt _ (Nat.zero_lt_of_lt there))]
  simp [Nat.add_comm]

/-! ### The removals -/

/-- `ps'` is the group `ps` without the calls in `removed`. -/
structure RemovedFrom (ps : List Member) (removed : List (Nat × Nat)) (ps' : List Member) : Prop where
  length : ps'.length = ps.length
  untouched : ∀ i, i ∉ removed.map Prod.fst → ps'[i]? = ps[i]?
  touched : ∀ i idx, (i, idx) ∈ removed → ∃ p p', ps[i]? = some p ∧ ps'[i]? = some p' ∧
    p'.prog = { p.prog with calls := p.prog.calls.eraseIdx idx } ∧ Linked p'.memory p'.prog

/-- The objects of a program are allocated and properly linked. -/
def Member.Sound (p : Member) : Prop := Linked p.memory p.prog ∧ ∀ x ∈ p.prog.objects, x < p.memory.next

theorem removeAt_removed {defaults : Defaults} {ps ps' : List Member} {removed : List (Nat × Nat)} {pi idx : Nat}
    {p : Member} (before : RemovedFrom ps removed ps') (fresh : pi ∉ removed.map Prod.fst) (here : ps[pi]? = some p)
    (sound : p.Sound) (inside : idx < p.prog.calls.length) :
    ∃ ps'', removeAt defaults ps' pi idx = some ps'' ∧ RemovedFrom ps (removed ++ [(pi, idx)]) ps'' := by
  have current : ps'[pi]? = some p := (before.untouched pi fresh).trans here
  have bound := (List.getElem?_eq_some_iff.mp current).1
  obtain ⟨p1, m1, run, after, linked⟩ := removeCall_linked defaults sound.1 sound.2 inside
  refine ⟨ps'.set pi ⟨m1, p1⟩, ?_, ?_, fun i absent => ?_, fun i idx' member => ?_⟩
  · simp [removeAt, current, run]
  · rw [List.length_set, before.length]
  · rw [List.map_append, List.mem_append, not_or] at absent
    have apart : pi ≠ i := fun same => absent.2 (by simp [same])
    rw [List.getElem?_set_ne apart]
    exact before.untouched i absent.1
  · rcases List.mem_append.mp member with old | new
    · have apart : pi ≠ i := by
        rintro rfl
        exact fresh (List.mem_map_of_mem old)
      rw [List.getElem?_set_ne apart]
      exact before.touched i idx' old
    · cases List.mem_singleton.mp new
      exact ⟨p, ⟨m1, p1⟩, here, by rw [List.getElem?_set_self bound], after.prog, linked⟩

/-- What the loop removes: one call that may be removed in as many of the candidates as remain to be drawn. -/
structure Picks (g : Go.Growth) (ps : List Member) (rest : List CandProg) (remain : Nat) (picks : List (Nat × Nat)) : Prop where
  length : picks.length = remain
  sublist : (picks.map Prod.fst).Sublist (rest.map CandProg.pi)
  accepted : ∀ r ∈ picks, ∃ p call, ps[r.1]? = some p ∧ p.prog.calls[r.2]? = some call ∧
    callRemovable g p.memory p.prog call = true

/-- As many candidates are left as removals: when they are equal in number each draw hits. -/
theorem reservoirLoop_picks {g : Go.Growth} {defaults : Defaults} {draws : Nat → Draw} {ps : List Member}
    (sound : ∀ p ∈ ps, p.Sound) (rest : List CandProg) :
    ∀ (t remain : Nat) (st : Reservoir), remain ≤ rest.length → (∀ cp ∈ rest, Candidate g ps cp) →
      (st.removed.map Prod.fst ++ rest.map CandProg.pi).Nodup → RemovedFrom ps st.removed st.ps →
      ∃ ps' picks, reservoirLoop defaults draws t remain rest st = some ⟨ps', st.removed ++ picks⟩ ∧
        Picks g ps rest remain picks ∧ RemovedFrom ps (st.removed ++ picks) ps' := by
  induction rest with
  | nil =>
    intro t remain st room _ _ before
    refine ⟨st.ps, [], ?_, ⟨(Nat.le_zero.mp room).symm, List.Sublist.refl _, by simp⟩, by rwa [List.append_nil]⟩
    rw [reservoirLoop, List.append_nil]
  | cons cp rest ih =>
    intro t remain st room candidates nodup before
    have later : (st.removed.map Prod.fst ++ rest.map CandProg.pi).Nodup :=
      nodup.sublist ((List.Sublist.refl _).append (List.sublist_cons_self _ _))
    rw [reservoirLoop]
    by_cases finished : remain = 0
    · rw [if_pos finished]
      exact ⟨st.ps, [], by rw [List.append_nil], ⟨finished.symm, List.nil_sublist _, by simp⟩, by rwa [List.append_nil]⟩
    · rw [if_neg finished]
      by_cases missed : (draws t).intn (rest.length + 1) ≥ remain
      · -- a miss leaves room: the draw is below the number of candidates left
        rw [if_pos missed]
        have below := (draws t).lt (rest.length + 1) (Nat.succ_pos _)
        obtain ⟨ps', picks, run, picked, after⟩ :=
          ih (t + 1) remain st (by omega) (fun c member => candidates c (List.mem_cons_of_mem _ member)) later before
        exact ⟨ps', picks, run, ⟨picked.length, picked.sublist.trans (List.sublist_cons_self _ _), picked.accepted⟩, after⟩
      · rw [if_neg missed]
        have candidate := candidates cp List.mem_cons_self
        have drawn := (draws (t + 1)).lt cp.idxs.length candidate.nonempty
        have listed : cp.idxs.getD ((draws (t + 1)).intn cp.idxs.length) 0 ∈ cp.idxs := by
          rw [List.getD_eq_getElem _ _ drawn]
          exact List.getElem_mem _
        dsimp only
        generalize cp.idxs.getD ((draws (t + 1)).intn cp.idxs.length) 0 = idx at listed
        obtain ⟨p, call, here, at_idx, accepted⟩ := candidate.accepted idx listed
        have fresh : cp.pi ∉ st.removed.map Prod.fst := fun old =>
          (List.nodup_append.mp nodup).2.2 cp.pi old cp.pi List.mem_cons_self rfl
        obtain ⟨ps1, removed, step⟩ := @removeAt_removed defaults _ _ _ cp.pi idx p before fresh here
          (sound p (List.mem_of_getElem? here)) (List.getElem?_eq_some_iff.mp at_idx).1
        rw [removed, Option.bind_some]
        have moved : ((st.removed ++ [(cp.pi, idx)]).map Prod.fst ++ rest.map CandProg.pi).Nodup := by
          simpa using nodup
        obtain ⟨ps', picks, run, picked, after⟩ := ih (t + 2) (remain - 1) ⟨ps1, st.removed ++ [(cp.pi, idx)]⟩
          (by rw [List.length_cons] at room; omega) (fun c member => candidates c (List.mem_cons_of_mem _ member)) moved step
        refine ⟨ps', (cp.pi, idx) :: picks, ?_, ⟨?_, ?_, ?_⟩, ?_⟩
        · rw [run, List.append_assoc, List.singleton_append]
        · rw [List.length_cons, picked.length]
          omega
        · rw [List.map_cons, List.map_cons]
          exact picked.sublist.cons_cons _
        · rintro r member
          rcases List.mem_cons.mp member with rfl | behind
          · exact ⟨p, call, here, at_idx, accepted⟩
          · exact picked.accepted r behind
        · rwa [List.append_assoc, List.singleton_append] at after

theorem reservoirTarget_bounds (draws : Nat → Draw) {c : Nat} (some_cand : 0 < c) :
    1 ≤ reservoirTarget draws c ∧ (c + 3) / 4 ≤ reservoirTarget draws c ∧ reservoirTarget draws c ≤ (c + 1) / 2 := by
  have drawn := (draws 0).lt ((c + 1) / 2 - (if (c + 3) / 4 < 1 then 1 else (c + 3) / 4) + 1) (Nat.succ_pos _)
  unfold reservoirTarget
  dsimp only
  split at drawn
  · omega
  · rename_i low
    rw [if_neg low]
    omega

/-- What `RemoveReservoirDynamic` does to a group. -/
structure ReservoirLaw (g : Go.Growth) (draws : Nat → Draw) (ps : List Member) (st : Reservoir) (found : Bool) : Prop where
  count : st.removed.length =
    if (candProgs g ps).length = 0 then 0 else reservoirTarget draws (candProgs g ps).length
  bounds : 0 < (candProgs g ps).length → 1 ≤ st.removed.length ∧
    ((candProgs g ps).length + 3) / 4 ≤ st.removed.length ∧ st.removed.length ≤ ((candProgs g ps).length + 1) / 2
  candidates : (candProgs g ps).length = ps.countP fun p => 0 < (removableCalls g p).length
  once : (st.removed.map Prod.fst).Nodup
  accepted : ∀ r ∈ st.removed, ∃ p call, ps[r.1]? = some p ∧ p.prog.calls[r.2]? = some call ∧
    callRemovable g p.memory p.prog call = true
  removed : RemovedFrom ps st.removed st.ps
  returns : found = true ↔ 0 < (candProgs g ps).length

theorem removeReservoirDynamic_law (g : Go.Growth) (defaults : Defaults) (draws : Nat → Draw) (ps : List Member)
    (sound : ∀ p ∈ ps, p.Sound) : ∃ st found, removeReservoirDynamic g defaults draws ps = some (st, found) ∧
      ReservoirLaw g draws ps st found := by
  have none_removed : RemovedFrom ps [] ps := ⟨rfl, fun _ _ => rfl, fun _ _ member => by cases member⟩
  unfold removeReservoirDynamic
  dsimp only
  by_cases empty : (candProgs g ps).length = 0
  · rw [if_pos empty]
    refine ⟨_, _, rfl, by rw [if_pos empty]; rfl, fun some_cand => absurd empty (Nat.ne_of_gt some_cand),
      length_candProgs g ps, List.nodup_nil, by simp, none_removed, by simp [empty]⟩
  · have some_cand : 0 < (candProgs g ps).length := Nat.pos_of_ne_zero empty
    have bounds := reservoirTarget_bounds draws some_cand
    rw [if_neg empty, visited_eq]
    have nodup : (((candProgs g ps).rotate ((draws 1).intn (candProgs g ps).length)).map CandProg.pi).Nodup := by
      rw [List.map_rotate]
      exact List.nodup_rotate.mpr (candProgs_nodup g ps)
    obtain ⟨ps', picks, run, picked, after⟩ := reservoirLoop_picks sound
      ((candProgs g ps).rotate ((draws 1).intn (candProgs g ps).length)) 2
      (reservoirTarget draws (candProgs g ps).length) ⟨ps, []⟩ (by rw [List.length_rotate]; omega)
      (fun cp member => candProgs_candidate (List.mem_rotate.mp member)) nodup none_removed
    rw [run, Option.map_some]
    rw [List.nil_append] at after ⊢
    refine ⟨_, _, rfl, by rw [if_neg empty, picked.length], fun _ => ?_, length_candProgs g ps, nodup.sublist picked.sublist,
      picked.accepted, after, ?_⟩
    · rw [picked.length]
      exact bounds
    · rw [picked.length, decide_eq_true_eq]
      omega

/-- Of five programs with an `open` and its `close` three are drawn, and lose the latter. -/
theorem removeReservoirDynamic_openClose : ∃ st found, removeReservoirDynamic .doubling (fun _ => 99)
    (fun i => ⟨fun n => (i + 1) % n, fun _ positive => Nat.mod_lt _ positive⟩) (List.replicate 5 ⟨openCloseMemory, openClose⟩) =
      some (st, found) ∧ st.removed.length = 3 ∧ (st.removed.map Prod.fst).Nodup ∧ (∀ r ∈ st.removed, r.2 = 1) ∧ found = true := by
  have five : (candProgs .doubling (List.replicate 5 ⟨openCloseMemory, openClose⟩)).length = 5 := by decide +kernel
  have only_close : ∀ i call, openClose.calls[i]? = some call →
      callRemovable .doubling openCloseMemory openClose call = true → i = 1 := by
    have each : ∀ i < 2, ∀ call ∈ openClose.calls[i]?, callRemovable .doubling openCloseMemory openClose call = true → i = 1 := by
      decide +kernel
    intro i call here
    exact each i (List.getElem?_eq_some_iff.mp here).1 call here
  obtain ⟨st, found, run, law⟩ := removeReservoirDynamic_law .doubling (fun _ => 99)
    (fun i => ⟨fun n => (i + 1) % n, fun _ positive => Nat.mod_lt _ positive⟩)
    (List.replicate 5 ⟨openCloseMemory, openClose⟩) (by
      intro p member
      obtain rfl := List.eq_of_mem_replicate member
      exact ⟨openClose_linked, by decide⟩)
  refine ⟨st, found, run, ?_, law.once, fun r member => ?_, law.returns.mpr (by rw [five]; decide)⟩
  · rw [law.count, five]
    rfl
  · obtain ⟨p, call, here, at_idx, accepted⟩ := law.accepted r member
    obtain rfl := List.eq_of_mem_replicate (List.mem_of_getElem? here)
    exact only_close r.2 call at_idx accepted

end DfsFuzz.Refs
