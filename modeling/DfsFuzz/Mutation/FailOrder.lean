import DfsFuzz.Failure.Insert
import DfsFuzz.Mutation.FailTable

/-!
The order of the failure calls of a client along runs of `Mutate`, which `CmpProgs` compares across
the clients. Only `mutateFailPos` can change it, by moving a sync past another failure call.
-/

namespace DfsFuzz.Mutation

open DfsFuzz.Choice DfsFuzz.Failure

/-- The program as `CmpProgs` reads it. -/
def asProg (p : SeedProg) : Prog :=
  { calls := p.calls.map CallObj.call, hasCrashFail := p.hasCrashFail, hasNetFail := p.hasNetFail }

/-- The ids of the failure calls in their order. -/
def failureOrder (calls : List CallObj) : List (Option Int64) :=
  (calls.filter fun o => o.call.isFCall).map fun o => failureId o.call

/-- The generators and the decoder mark the failure calls, and those only. -/
def Marked (calls : List CallObj) : Prop := ∀ o ∈ calls, o.call.isFCall = isFailure o.name

theorem failureOrder_append (xs ys : List CallObj) : failureOrder (xs ++ ys) = failureOrder xs ++ failureOrder ys := by
  simp [failureOrder]

theorem failureOrder_plain {xs : List CallObj} (plain : ∀ o ∈ xs, o.call.isFCall = false) : failureOrder xs = [] := by
  simp only [failureOrder, List.map_eq_nil_iff, List.filter_eq_nil_iff]
  intro o member
  simp [plain o member]

variable {calls : List CallObj}

theorem forall₂_order {calls' : List CallObj} (same : List.Forall₂ SameFailure calls calls') (marked : Marked calls) :
    failureOrder calls' = failureOrder calls ∧ Marked calls' := by
  induction same with
  | nil => exact ⟨rfl, marked⟩
  | @cons o o' rest rest' head tail ih =>
    have first := marked o List.mem_cons_self
    obtain ⟨order, marked'⟩ := ih fun q member => marked q (List.mem_cons_of_mem _ member)
    constructor
    · have heads : failureOrder [o'] = failureOrder [o] := by
        by_cases failure : o.call.isFCall = true
        · have there : o'.call.isFCall = true := head.isFCall.trans failure
          simp [failureOrder, there, failure, head.id (first ▸ failure)]
        · simp [failureOrder, head.isFCall, failure]
      rw [← List.singleton_append, failureOrder_append, order, heads, ← failureOrder_append, List.singleton_append]
    · intro q member
      rcases List.mem_cons.mp member with rfl | later
      · rw [head.isFCall, first, head.isFailure]
      · exact marked' q later

theorem insertAt_order {block : List CallObj} (plain : ∀ o ∈ block, IsPlain o) (marked : Marked calls) (idx : Nat) :
    failureOrder (Edits.insertAt calls idx block) = failureOrder calls ∧ Marked (Edits.insertAt calls idx block) := by
  constructor
  · rw [Edits.insertAt, failureOrder_append, failureOrder_append, failureOrder_plain fun o member => (plain o member).2,
      List.nil_append, ← failureOrder_append, List.take_append_drop]
  · intro o member
    rcases Edits.mem_insertAt member with old | new
    · exact marked o old
    · rw [(plain o new).1, (plain o new).2]

theorem removeAt_order {idx : Nat} {o : CallObj} (here : calls[idx]? = some o) (plain : isFailure o.name = false)
    (marked : Marked calls) (dflt : ResultId → UInt64) :
    failureOrder (removeAt dflt calls idx) = failureOrder calls ∧ Marked (removeAt dflt calls idx) := by
  have unmarked : ∀ q ∈ [o], q.call.isFCall = false := by
    intro q member
    rw [List.mem_singleton.mp member, marked o (List.mem_of_getElem? here), plain]
  have erased : failureOrder (calls.eraseIdx idx) = failureOrder calls := by
    obtain ⟨inside, rfl⟩ := List.getElem?_eq_some_iff.mp here
    rw [List.eraseIdx_eq_take_drop_succ, failureOrder_append]
    nth_rewrite 3 [← List.take_append_drop idx calls]
    rw [failureOrder_append, ← List.getElem_cons_drop inside, ← List.singleton_append, failureOrder_append,
      failureOrder_plain unmarked, List.nil_append]
  have same : List.Forall₂ SameFailure (calls.eraseIdx idx)
      ((calls.eraseIdx idx).map (detachCall dflt (callResults o.call))) := by
    rw [List.forall₂_map_right_iff, List.forall₂_same]
    exact fun q _ => detachCall_failure dflt (callResults o.call) q
  have detached := forall₂_order same fun q member => marked q (List.mem_of_mem_eraseIdx member)
  simp only [removeAt, here]
  exact ⟨detached.1.trans erased, detached.2⟩

theorem PlainEdits.order {p p' : SeedProg} (edits : PlainEdits p p') (marked : Marked p.calls) :
    failureOrder p'.calls = failureOrder p.calls ∧ Marked p'.calls := by
  induction edits with
  | refl => exact ⟨rfl, marked⟩
  | tail _ edit ih =>
    obtain ⟨order, marked⟩ := ih
    cases edit with
    | args same =>
      have next := forall₂_order same marked
      exact ⟨next.1.trans order, next.2⟩
    | @insert idx block inside plain =>
      have next := insertAt_order plain marked idx
      exact ⟨next.1.trans order, next.2⟩
    | remove here plain dflt =>
      have next := removeAt_order here plain marked dflt
      exact ⟨next.1.trans order, next.2⟩

theorem PlainEdits.flags {p p' : SeedProg} (edits : PlainEdits p p') :
    p'.hasCrashFail = p.hasCrashFail ∧ p'.hasNetFail = p.hasNetFail := by
  induction edits with
  | refl => exact ⟨rfl, rfl⟩
  | tail _ edit ih => cases edit <;> exact ih

def Crossed (idx insertPoint k : Nat) : Prop := (idx < k ∧ k ≤ insertPoint) ∨ (insertPoint ≤ k ∧ k < idx)

/-- Every failure call that the move passes has the id of the call that moves. -/
def CrossesSame (calls : List CallObj) (idx insertPoint : Nat) : Prop :=
  ∀ o k o', calls[idx]? = some o → Crossed idx insertPoint k → calls[k]? = some o' → o'.call.isFCall = true →
    failureId o'.call = failureId o.call

theorem mem_failureOrder {id : Option Int64} :
    id ∈ failureOrder calls ↔ ∃ o ∈ calls, o.call.isFCall = true ∧ failureId o.call = id := by
  simp [failureOrder, and_assoc]

/-- A call that passes a block of calls keeps the order exactly when the block has its id only. -/
theorem pass_order {block : List CallObj} {o : CallObj} (failure : o.call.isFCall = true) (front back : List CallObj) :
    failureOrder (front ++ (o :: (block ++ back))) = failureOrder (front ++ (block ++ o :: back)) ↔
      ∀ o' ∈ block, o'.call.isFCall = true → failureId o'.call = failureId o.call := by
  have single : failureOrder [o] = [failureId o.call] := by simp [failureOrder, failure]
  rw [← List.singleton_append, List.append_cons block]
  simp only [failureOrder_append, single]
  rw [List.append_cancel_left_eq, ← List.append_assoc, List.append_cancel_right_eq, eq_comm, List.singleton_append,
    Edits.concat_eq_cons_iff]
  constructor
  · intro all o' member marked
    exact all _ (mem_failureOrder.mpr ⟨o', member, marked, rfl⟩)
  · intro all id member
    obtain ⟨o', inside, marked, rfl⟩ := mem_failureOrder.mp member
    exact all o' inside marked

theorem move_order {i j : Nat} {o : CallObj} (here : calls[i]? = some o) (failure : o.call.isFCall = true)
    (toIn : j < calls.length) : failureOrder (Edits.move calls i j) = failureOrder calls ↔ CrossesSame calls i j := by
  have between : ∀ {front block back : List CallObj} {k : Nat}, front.length ≤ k → k < front.length + block.length →
      ∀ {o'}, (front ++ (block ++ back))[k]? = some o' → o' ∈ block := by
    intro front block back k low high o' read
    rw [List.getElem?_append_right low, List.getElem?_append_left (by omega)] at read
    exact List.mem_of_getElem? read
  have inside : ∀ {front block back : List CallObj} {o'}, o' ∈ block → ∃ k, front.length ≤ k ∧
      k < front.length + block.length ∧ (front ++ (block ++ back))[k]? = some o' := by
    intro front block back o' member
    obtain ⟨k, read⟩ := List.getElem?_of_mem member
    have bound := (List.getElem?_eq_some_iff.mp read).1
    refine ⟨front.length + k, by omega, by omega, ?_⟩
    rw [List.getElem?_append_right (by omega), List.getElem?_append_left (by omega), ← read]
    congr 1
    omega
  rcases Nat.le_total j i with before | behind
  · obtain ⟨front, block, back, rfl, rfl, rfl⟩ := Edits.split_before here before
    rw [Edits.move_back, pass_order failure]
    constructor
    · intro all q k o' there crossed read marked
      obtain rfl := Option.some.inj (here.symm.trans there)
      rcases crossed with ⟨low, high⟩ | ⟨low, high⟩
      · omega
      · exact all o' (between low high read) marked
    · intro same o' member marked
      obtain ⟨k, low, high, read⟩ := inside member
      exact same o k o' here (.inr ⟨low, high⟩) read marked
  · obtain ⟨front, block, back, rfl, rfl, rfl⟩ := Edits.split_behind here behind toIn
    rw [Edits.move_ahead, eq_comm, pass_order failure]
    have regroup : front ++ (o :: (block ++ back)) = (front ++ [o]) ++ (block ++ back) := by simp
    constructor
    · intro all q k o' there crossed read marked
      obtain rfl := Option.some.inj (here.symm.trans there)
      rcases crossed with ⟨low, high⟩ | ⟨low, high⟩
      · rw [regroup] at read
        refine all o' (between ?_ ?_ read) marked
        · simpa using Nat.succ_le_of_lt low
        · simp only [List.length_append, List.length_singleton]
          omega
      · omega
    · intro same o' member marked
      obtain ⟨k, low, high, read⟩ := @inside (front ++ [o]) block back o' member
      rw [← regroup] at read
      simp only [List.length_append, List.length_singleton] at low high
      exact same o k o' here (.inl ⟨by omega, by omega⟩) read marked

theorem curOrder_asProg (p : SeedProg) : curOrder (asProg p) = (failureOrder p.calls).mapM id := by
  have same : curOrder (asProg p) = ((p.calls.map CallObj.call).filter (·.isFCall)).mapM failureId := rfl
  rw [same, List.filter_map, List.mapM_map, failureOrder, List.mapM_map]
  rfl

theorem cmpOrder_congr {progs progs' : List Prog} (same : progs.map curOrder = progs'.map curOrder)
    (last : Option (List Int64)) : progs.foldlM cmpOrder last = progs'.foldlM cmpOrder last := by
  induction progs generalizing progs' last with
  | nil =>
    rw [List.map_nil, eq_comm, List.map_eq_nil_iff] at same
    rw [same]
  | cons p progs ih =>
    cases progs' with
    | nil => cases same
    | cons p' progs' =>
      rw [List.map_cons, List.map_cons, List.cons.injEq] at same
      rw [List.foldlM_cons, List.foldlM_cons, cmpOrder, cmpOrder, same.1]
      congr 1
      funext last
      exact ih same.2 last

/-- All that `CmpProgs` reads of a program. -/
def summary (p : Prog) : Option (List Int64) × Bool × Bool := (curOrder p, p.hasNetFail, p.hasCrashFail)

theorem cmpProgs_congr {g g' : Group} (same : g.map summary = g'.map summary) (srvNum : Nat) :
    cmpProgs g srvNum = cmpProgs g' srvNum := by
  have orders : (g.drop srvNum).map curOrder = (g'.drop srvNum).map curOrder := by
    have dropped := congrArg (fun l => (l.drop srvNum).map Prod.fst) same
    simpa [List.map_drop, Function.comp_def, summary] using dropped
  have first : ∀ l : Group, summary (l.getD 0 {}) = (l.map summary).getD 0 (summary {}) := by
    intro l
    cases l <;> rfl
  have flags : summary (g.getD 0 {}) = summary (g'.getD 0 {}) := by rw [first, first, same]
  simp only [summary, Prod.mk.injEq] at flags
  rw [cmpProgs, cmpProgs, flags.2.1, flags.2.2, cmpOrder_congr orders]

theorem cmpProgs_set {ps : List SeedProg} {clt : Nat} {p p' : SeedProg} (here : ps[clt]? = some p)
    (flags : p'.hasCrashFail = p.hasCrashFail ∧ p'.hasNetFail = p.hasNetFail)
    (order : failureOrder p'.calls = failureOrder p.calls) (srvNum : Nat) :
    cmpProgs ((ps.set clt p').map asProg) srvNum = cmpProgs (ps.map asProg) srvNum := by
  refine cmpProgs_congr ?_ srvNum
  have same : summary (asProg p') = summary (asProg p) := by
    simp only [summary, curOrder_asProg, order]
    simp only [asProg, flags.1, flags.2]
  apply List.ext_getElem?
  intro k
  rw [List.map_map, List.map_map, List.getElem?_map, List.getElem?_map, List.getElem?_set]
  split_ifs with at_ inside
  · subst at_
    rw [here, Option.map_some, Option.map_some, Function.comp_apply, same, Function.comp_apply]
  · subst at_
    exact absurd (List.getElem?_eq_some_iff.mp here).1 inside
  · rfl

/-! ### Runs -/

def StaysInOrder (m : Mutator) : MutateStep → Prop
  | .mutateFailPos ch => ∀ idx insertPoint, chosenMove m.p.calls ch = some (idx, insertPoint) →
      CrossesSame m.p.calls idx insertPoint
  | _ => True

def AllStayInOrder (m : Mutator) : List MutateStep → Prop
  | [] => True
  | step :: rest => StaysInOrder m step ∧ AllStayInOrder (mutateStep m step) rest

variable {m : Mutator}

theorem mutateFailPos_order (marked : Marked m.p.calls) (ch : FailPosChoice) :
    (failureOrder (mutateFailPos m ch).p.calls = failureOrder m.p.calls ↔ StaysInOrder m (.mutateFailPos ch)) ∧
      Marked (mutateFailPos m ch).p.calls := by
  cases chosen : chosenMove m.p.calls ch with
  | none =>
    rw [mutateFailPos, chosen]
    refine ⟨iff_of_true rfl ?_, marked⟩
    intro _ _ move
    cases chosen.symm.trans move
  | some move =>
    have spec := chosenMove_spec chosen
    obtain ⟨o, _, here, sync, _⟩ := spec.sync
    have failure : o.call.isFCall = true :=
      (marked o (List.mem_of_getElem? here)).trans (isFailure_of_isSync sync)
    rw [mutateFailPos_eq chosen, moveSrvFailPosEntry_calls, move_order here failure spec.toIn]
    constructor
    · constructor
      · intro same idx insertPoint move
        obtain rfl := Option.some.inj (chosen.symm.trans move)
        exact same
      · intro stays
        exact stays _ _ chosen
    · intro q member
      obtain ⟨k, read⟩ := List.getElem?_of_mem member
      rw [Edits.getElem?_move spec.fromIn spec.toIn] at read
      exact marked q (List.mem_of_getElem? read)

theorem mutateStep_order (sound : Sound m) (marked : Marked m.p.calls) (step : MutateStep) :
    (failureOrder (mutateStep m step).p.calls = failureOrder m.p.calls ↔ StaysInOrder m step) ∧
      Marked (mutateStep m step).p.calls := by
  have plain : ∀ {p' : SeedProg}, PlainEdits m.p p' →
      (failureOrder p'.calls = failureOrder m.p.calls ↔ True) ∧ Marked p'.calls := by
    intro p' edits
    have order := edits.order marked
    exact ⟨iff_of_true order.1 trivial, order.2⟩
  cases step with
  | squashAny ch => exact plain (squashAny_plain sound ch).1
  | insertCall ch => exact plain (insertCall_plain sound ch).1
  | removeCall ch => exact plain (removeCall_plain sound ch).1
  | mutateArg ch => exact plain (mutateArg_plain sound ch).1
  | mutateFailPos ch => exact mutateFailPos_order marked ch

theorem mutateStep_flags (sound : Sound m) (step : MutateStep) :
    (mutateStep m step).p.hasCrashFail = m.p.hasCrashFail ∧ (mutateStep m step).p.hasNetFail = m.p.hasNetFail := by
  cases step with
  | squashAny ch => exact (squashAny_plain sound ch).1.flags
  | insertCall ch => exact (insertCall_plain sound ch).1.flags
  | removeCall ch => exact (removeCall_plain sound ch).1.flags
  | mutateArg ch => exact (mutateArg_plain sound ch).1.flags
  | mutateFailPos ch =>
    rw [mutateStep]
    cases chosen : chosenMove m.p.calls ch with
    | none =>
      rw [mutateFailPos, chosen]
      exact ⟨rfl, rfl⟩
    | some move =>
      rw [mutateFailPos_eq chosen]
      unfold moveSrvFailPosEntry
      split_ifs <;> exact ⟨rfl, rfl⟩

theorem runMutate_flags (sound : Sound m) (steps : List MutateStep) :
    (runMutate m steps).p.hasCrashFail = m.p.hasCrashFail ∧ (runMutate m steps).p.hasNetFail = m.p.hasNetFail := by
  induction steps generalizing m with
  | nil => exact ⟨rfl, rfl⟩
  | cons step rest ih =>
    have first := mutateStep_flags sound step
    have later := ih (mutateStep_sound sound step)
    exact ⟨later.1.trans first.1, later.2.trans first.2⟩

theorem runMutate_order (sound : Sound m) (marked : Marked m.p.calls) (steps : List MutateStep) :
    (∀ n, failureOrder (runMutate m (steps.take n)).p.calls = failureOrder m.p.calls) ↔ AllStayInOrder m steps := by
  induction steps generalizing m with
  | nil => exact ⟨fun _ => trivial, fun _ n => by simp [runMutate]⟩
  | cons step rest ih =>
    have one := mutateStep_order sound marked step
    have later := ih (mutateStep_sound sound step) one.2
    constructor
    · intro all
      have first : failureOrder (mutateStep m step).p.calls = failureOrder m.p.calls := by simpa [runMutate] using all 1
      refine ⟨one.1.mp first, later.mp fun n => ?_⟩
      have there := all (n + 1)
      simp only [List.take_succ_cons, runMutate, List.foldl_cons] at there
      exact there.trans first.symm
    · rintro ⟨stays, rest'⟩ n
      cases n with
      | zero => simp [runMutate]
      | succ n =>
        have there := later.mpr rest' n
        simp only [List.take_succ_cons, runMutate, List.foldl_cons] at there ⊢
        exact there.trans (one.1.mpr stays)

/-- The order of a client's failure calls is unchanged and `CmpProgs` accepts the group in every
state of a run exactly when no step moves a sync past a failure call with another id. -/
theorem failureOrder_run {ps : List SeedProg} {srvNum clt next : Nat} {p : SeedProg}
    (accepted : cmpProgs (ps.map asProg) srvNum = some ()) (here : ps[clt]? = some p) (objects : Objects p.calls next)
    (marked : Marked p.calls) (ncalls : Nat) (steps : List MutateStep) :
    (∀ n, failureOrder (runMutate (newMutator p ncalls next) (steps.take n)).p.calls = failureOrder p.calls ∧
      cmpProgs ((ps.set clt (runMutate (newMutator p ncalls next) (steps.take n)).p).map asProg) srvNum = some ()) ↔
      AllStayInOrder (newMutator p ncalls next) steps := by
  have sound := newMutator_sound objects ncalls
  rw [← runMutate_order sound marked]
  constructor
  · intro all n
    exact (all n).1
  · intro all n
    refine ⟨all n, ?_⟩
    rw [cmpProgs_set here (runMutate_flags sound (steps.take n)) (all n)]
    exact accepted

/-- A client with the syncs of two failed servers. -/
def twoFailures : SeedProg :=
  { calls := [⟨0, { name := "open" }⟩, syncObj 1 0, syncObj 2 1, ⟨3, { name := "read" }⟩, syncObj 4 2,
      ⟨5, { name := "write" }⟩, syncObj 6 3] }

def sampleGroup : List SeedProg := [{ hasNetFail := true }, twoFailures, twoFailures]

def moveSync (idx : Nat) : MutateStep :=
  .mutateFailPos { draw := fun _ => fixedDraw idx, up := fun _ _ => true, down := fun _ i => i = 5 }

/-- The start of the second failure goes to the front, and the end of the first one goes past the
start of the second. -/
theorem failureOrder_broken :
    (cmpProgs (sampleGroup.map asProg) 1 = some () ∧ sampleGroup[1]? = some twoFailures) ∧
    (failureOrder (runMutate (newMutator twoFailures 30 7) [moveSync 4]).p.calls ≠ failureOrder twoFailures.calls ∧
      cmpProgs ((sampleGroup.set 1 (runMutate (newMutator twoFailures 30 7) [moveSync 4]).p).map asProg) 1 = none) ∧
    (failureOrder (runMutate (newMutator twoFailures 30 7) [moveSync 2]).p.calls ≠ failureOrder twoFailures.calls ∧
      cmpProgs ((sampleGroup.set 1 (runMutate (newMutator twoFailures 30 7) [moveSync 2]).p).map asProg) 1 = none) := by
  refine ⟨⟨by decide +kernel, rfl⟩, ⟨by decide +kernel, by decide +kernel⟩, by decide +kernel, by decide +kernel⟩

/-- The first sync of the client moves up past plain calls. -/
def orderedSteps : List MutateStep :=
  [.insertCall { point := fixedDraw 1, gen := namedGenerator, names := fun _ => "fsync" }, moveSync 2]

theorem orderedSteps_stay : AllStayInOrder (newMutator twoFailures 30 7) orderedSteps := by
  refine ⟨trivial, ?_, trivial⟩
  intro idx insertPoint chosen
  have move : chosenMove (mutateStep (newMutator twoFailures 30 7) (.insertCall
      { point := fixedDraw 1, gen := namedGenerator, names := fun _ => "fsync" })).p.calls
      { draw := fun _ => fixedDraw 2, up := fun _ _ => true, down := fun _ i => i = 5 } = some (2, 0) := by decide +kernel
  obtain ⟨rfl, rfl⟩ := Prod.mk.inj (Option.some.inj (move.symm.trans chosen))
  intro o k o' _ crossed read marked
  have passed : k < 2 := by
    rcases crossed with ⟨_, _⟩ | ⟨_, before⟩ <;> omega
  match k, passed with
  | 0, _ =>
    obtain rfl := Option.some.inj read
    cases marked
  | 1, _ =>
    obtain rfl := Option.some.inj read
    cases marked

theorem failureOrder_run_sample :
    (cmpProgs (sampleGroup.map asProg) 1 = some () ∧ sampleGroup[1]? = some twoFailures ∧ Objects twoFailures.calls 7 ∧
      Marked twoFailures.calls) ∧ AllStayInOrder (newMutator twoFailures 30 7) orderedSteps ∧
    ∀ n, failureOrder (runMutate (newMutator twoFailures 30 7) (orderedSteps.take n)).p.calls =
        failureOrder twoFailures.calls ∧
      cmpProgs ((sampleGroup.set 1 (runMutate (newMutator twoFailures 30 7) (orderedSteps.take n)).p).map asProg) 1 =
        some () := by
  have accepted : cmpProgs (sampleGroup.map asProg) 1 = some () := by decide +kernel
  have objects : Objects twoFailures.calls 7 := ⟨by decide, by decide⟩
  have marked : Marked twoFailures.calls := by
    unfold Marked
    decide +kernel
  exact ⟨⟨accepted, rfl, objects, marked⟩, orderedSteps_stay,
    (failureOrder_run accepted rfl objects marked 30 orderedSteps).mpr orderedSteps_stay⟩

end DfsFuzz.Mutation
