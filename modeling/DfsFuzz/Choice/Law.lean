import DfsFuzz.Choice.Generate

/-!
The law of the choice: the weights stay between the floor and the cap over every history of feedback,
and a candidate is chosen by as many draws as it weighs.
-/

namespace DfsFuzz.Choice

open DistributedChoiceTable

variable {seedType : String} {dct : DistributedChoiceTable}

/-! ### The weights over a run -/

/-- The weights are those of the initial combos, between 1 and the cap. -/
structure WeightsInv (seedType : String) (dct : DistributedChoiceTable) : Prop where
  roots : ∀ rootCall, (dct.weights.lookup rootCall).isSome ↔ rootCall ∈ rootCallNames seedType
  keys : ∀ rootCall cv, ((dct.weights.getD rootCall ∅).lookup cv).isSome ↔
    rootCall ∈ rootCallNames seedType ∧ cv ∈ defaultVariants seedType
  bounds : ∀ rootCall cv w, (dct.weights.getD rootCall ∅).lookup cv = some w → 1 ≤ w ∧ w ≤ maxComboWeight

theorem lookup_put {β : Type} (m : Go.Map String (Go.Map CallVariant β)) (rootCall rootCall' : String)
    (cv cv' : CallVariant) (v : β) :
    ((put m rootCall cv v).getD rootCall' ∅).lookup cv' =
      if rootCall' = rootCall ∧ cv' = cv then some v else (m.getD rootCall' ∅).lookup cv' := by
  unfold put
  by_cases root : rootCall' = rootCall
  · subst root
    rw [Go.Map.getD_insert_self]
    by_cases here : cv' = cv
    · subst here
      rw [AList.lookup_insert, if_pos ⟨rfl, rfl⟩]
    · rw [AList.lookup_insert_ne here, if_neg fun both => here both.2]
  · rw [Go.Map.getD_insert_ne _ _ _ root, if_neg fun both => root both.1]

theorem WeightsInv.put (inv : WeightsInv seedType dct) {rootCall : String} {cv : CallVariant} {old new : Nat}
    (present : (dct.weights.getD rootCall ∅).lookup cv = some old) (low : 1 ≤ new) (high : new ≤ maxComboWeight)
    {dct' : DistributedChoiceTable} (same : dct'.weights = put dct.weights rootCall cv new) : WeightsInv seedType dct' := by
  obtain ⟨root, member⟩ := (inv.keys rootCall cv).mp (by rw [present]; rfl)
  refine ⟨fun rootCall' => ?_, fun rootCall' cv' => ?_, fun rootCall' cv' w found => ?_⟩
  · rw [same, DistributedChoiceTable.put]
    by_cases here : rootCall' = rootCall
    · subst here
      simp [root]
    · rw [AList.lookup_insert_ne here]
      exact inv.roots rootCall'
  · rw [same, lookup_put]
    split
    · rename_i here
      rw [here.1, here.2]
      exact ⟨fun _ => ⟨root, member⟩, fun _ => rfl⟩
    · exact inv.keys rootCall' cv'
  · rw [same, lookup_put] at found
    split at found
    · obtain rfl := Option.some.inj found
      exact ⟨low, high⟩
    · exact inv.bounds rootCall' cv' w found

theorem WeightsInv.of_eq (inv : WeightsInv seedType dct) {dct' : DistributedChoiceTable}
    (same : dct'.weights = dct.weights) : WeightsInv seedType dct' := by
  refine ⟨?_, ?_, ?_⟩
  · rw [same]
    exact inv.roots
  · rw [same]
    exact inv.keys
  · rw [same]
    exact inv.bounds

theorem newTable_weights (seedType : String) : WeightsInv seedType (newDistributedChoiceTable seedType) := by
  have table : ∀ rootCall, (newDistributedChoiceTable seedType).weights.lookup rootCall =
      if rootCall ∈ rootCallNames seedType then
        some ((defaultVariants seedType).foldl (fun m cv => m.insert cv (getInitialWeight rootCall cv)) ∅)
      else none := by
    intro rootCall
    split
    · rename_i root
      exact (newTable_initial root).weights
    · rename_i absent
      exact (newTable_missing absent).2.2.2
  have value : ∀ rootCall cv, ((newDistributedChoiceTable seedType).weights.getD rootCall ∅).lookup cv =
      if rootCall ∈ rootCallNames seedType ∧ cv ∈ defaultVariants seedType then some (getInitialWeight rootCall cv)
      else none := by
    intro rootCall cv
    rw [Go.Map.getD, table]
    by_cases root : rootCall ∈ rootCallNames seedType
    · rw [if_pos root, Option.getD_some, Go.Map.lookup_foldl_insert (fun cv => cv) (getInitialWeight rootCall)]
      by_cases member : cv ∈ defaultVariants seedType
      · rw [if_pos ⟨root, member⟩]
        obtain ⟨v, found⟩ := Option.isSome_iff_exists.mp
          (List.find?_isSome.mpr ⟨cv, List.mem_reverse.mpr member, decide_eq_true rfl⟩ :
            ((defaultVariants seedType).reverse.find? fun v => decide (v = cv)).isSome)
        obtain rfl : v = cv := by simpa using List.find?_some found
        rw [found]
        rfl
      · rw [if_neg fun both => member both.2, List.find?_eq_none.mpr]
        · rfl
        · rintro v inside same
          rw [of_decide_eq_true same] at inside
          exact member (List.mem_reverse.mp inside)
    · rw [if_neg root, if_neg fun both => root both.1]
      rfl
  refine ⟨fun rootCall => ?_, fun rootCall cv => ?_, fun rootCall cv w found => ?_⟩
  · rw [table]
    split <;> simp [*]
  · rw [value]
    split <;> simp [*]
  · rw [value] at found
    split at found
    · obtain rfl := Option.some.inj found
      exact getInitialWeight_bounds rootCall cv
    · cases found

theorem downWeight_bounds {w : Nat} (low : 1 ≤ w) (high : w ≤ maxComboWeight) :
    1 ≤ downWeight w ∧ downWeight w ≤ maxComboWeight := by
  unfold downWeight noYieldDelta
  split
  · omega
  · split <;> omega

theorem noYieldTick_weights (inv : WeightsInv seedType dct) (rootCall : String) (cv : CallVariant) :
    WeightsInv seedType (dct.noYieldTick rootCall cv) := by
  unfold DistributedChoiceTable.noYieldTick
  cases dct.noYield.lookup rootCall with
  | none => exact inv
  | some counts =>
    dsimp only
    split
    · exact inv.of_eq rfl
    · cases found : (dct.weights.getD rootCall ∅).lookup cv with
      | none => exact inv.of_eq rfl
      | some w =>
        obtain ⟨low, high⟩ := inv.bounds rootCall cv w found
        obtain ⟨low', high'⟩ := downWeight_bounds low high
        exact inv.put found low' high' rfl

theorem markYield_weights (inv : WeightsInv seedType dct) (rootCall : String) (cv : CallVariant) :
    WeightsInv seedType (dct.markYield rootCall cv) := by
  unfold DistributedChoiceTable.markYield
  cases found : (dct.weights.lookup rootCall).bind fun weights => weights.lookup cv with
  | none => exact inv
  | some w =>
    obtain ⟨weights, root, here⟩ := Option.bind_eq_some_iff.mp found
    have present : (dct.weights.getD rootCall ∅).lookup cv = some w := by
      rw [Go.Map.getD, root]
      exact here
    dsimp only
    split
    · rename_i below
      exact inv.put present (Nat.succ_le_succ (Nat.zero_le w)) below rfl
    · exact inv.of_eq rfl

theorem tableAfter_weights (seedType : String) (ops : List TableOp) : WeightsInv seedType (tableAfter seedType ops) := by
  induction ops using List.reverseRecOn with
  | nil => exact newTable_weights seedType
  | append_singleton ops op ih =>
    have after : tableAfter seedType (ops ++ [op]) = op.apply (tableAfter seedType ops) := by
      simp [tableAfter]
    rw [after]
    cases op with
    | noYieldTick rootCall cv => exact noYieldTick_weights ih rootCall cv
    | markYield rootCall cv => exact markYield_weights ih rootCall cv

/-! ### The choice -/

namespace DistributedChoiceTable

/-- The pool of a choice: the unexplored combos where there are any, else all eligible ones. -/
def candidates (dct : DistributedChoiceTable) (rootCall : String) (baseIsFile : Bool) (relOKByType : Option RelOK) :
    List CallVariant :=
  if (dct.unexploredVariants rootCall baseIsFile relOKByType).length > 0 then
    dct.unexploredVariants rootCall baseIsFile relOKByType
  else dct.eligibleVariants rootCall baseIsFile relOKByType

def totalWeight (dct : DistributedChoiceTable) (rootCall : String) (cand : List CallVariant) : Nat :=
  WeightedPick.total (dct.weightOf rootCall) cand

end DistributedChoiceTable

/-- How a choice follows the weights of the table: the draw of a number below the total decides, as many
draws decide for a candidate as it weighs, and the last candidate is never a stopgap. -/
structure SelectionLaw (dct : DistributedChoiceTable) (rootCall : String) (baseIsFile : Bool)
    (relOKByType : Option RelOK) : Prop where
  none_iff : ∀ draw, dct.chooseVariant rootCall draw baseIsFile relOKByType = none ↔
    dct.eligibleVariants rootCall baseIsFile relOKByType = []
  eligible : ∀ draw cv, dct.chooseVariant rootCall draw baseIsFile relOKByType = some cv →
    cv ∈ dct.eligibleVariants rootCall baseIsFile relOKByType
  preferred : dct.unexploredVariants rootCall baseIsFile relOKByType ≠ [] → ∀ draw cv,
    dct.chooseVariant rootCall draw baseIsFile relOKByType = some cv →
      cv ∈ dct.unexploredVariants rootCall baseIsFile relOKByType
  decided : ∀ draw, dct.chooseVariant rootCall draw baseIsFile relOKByType =
    WeightedPick.pick (dct.weightOf rootCall)
      (draw.intn (dct.totalWeight rootCall (dct.candidates rootCall baseIsFile relOKByType))) 0
      (dct.candidates rootCall baseIsFile relOKByType)
  share : ∀ cv ∈ dct.candidates rootCall baseIsFile relOKByType,
    ((List.range (dct.totalWeight rootCall (dct.candidates rootCall baseIsFile relOKByType))).countP fun x =>
      WeightedPick.pick (dct.weightOf rootCall) x 0 (dct.candidates rootCall baseIsFile relOKByType) = some cv) =
        dct.weightOf rootCall cv
  possible : ∀ cv ∈ dct.candidates rootCall baseIsFile relOKByType, ∃ draw,
    dct.chooseVariant rootCall draw baseIsFile relOKByType = some cv

theorem defaultVariants_nodup (seedType : String) : (defaultVariants seedType).Nodup := by
  have names : (variantCallNames seedType).Nodup := by
    unfold variantCallNames
    split <;> decide
  have relations_nodup : relations.Nodup := by decide
  unfold defaultVariants
  refine List.nodup_flatMap.mpr ⟨fun callName _ => ?_, names.imp fun {a b} apart => ?_⟩
  · split
    · have pairs : (relations.flatMap fun srcRel => relations.flatMap fun tgtRel =>
          if srcRel = tgtRel then [(⟨callName, srcRel⟩ : CallVariant)] else []) = relations.map fun rel => ⟨callName, rel⟩ := by
        rfl
      rw [pairs]
      exact relations_nodup.map fun r r' same => (CallVariant.mk.inj same).2
    · exact relations_nodup.map fun r r' same => (CallVariant.mk.inj same).2
  · have named : ∀ (callName : String) (cv : CallVariant), (cv ∈ if callName = "rename" then
        relations.flatMap fun srcRel => relations.flatMap fun tgtRel => if srcRel = tgtRel then [⟨callName, srcRel⟩] else []
        else relations.map fun rel => ⟨callName, rel⟩) → cv.callName = callName := by
      intro callName cv member
      split at member
      · obtain ⟨src, _, member⟩ := List.mem_flatMap.mp member
        obtain ⟨tgt, _, member⟩ := List.mem_flatMap.mp member
        split at member
        · rw [List.mem_singleton.mp member]
        · cases member
      · obtain ⟨rel, _, rfl⟩ := List.mem_map.mp member
        rfl
    intro cv inA inB
    exact apart ((named a cv inA).symm.trans (named b cv inB))

section Pool

variable {rootCall : String} {baseIsFile : Bool} {relOKByType : Option RelOK}

theorem candidates_sublist (dct : DistributedChoiceTable) (rootCall : String) (baseIsFile : Bool)
    (relOKByType : Option RelOK) :
    (dct.candidates rootCall baseIsFile relOKByType).Sublist (dct.eligibleVariants rootCall baseIsFile relOKByType) := by
  unfold DistributedChoiceTable.candidates
  split
  · exact List.filter_sublist
  · exact List.Sublist.refl _

theorem candidates_eq_nil : dct.candidates rootCall baseIsFile relOKByType = [] ↔
    dct.eligibleVariants rootCall baseIsFile relOKByType = [] := by
  unfold DistributedChoiceTable.candidates
  split
  · rename_i some_unexplored
    constructor
    · intro none
      rw [none] at some_unexplored
      exact absurd some_unexplored (Nat.lt_irrefl 0)
    · intro none
      unfold unexploredVariants
      rw [none, List.filter_nil]
  · exact Iff.rfl

theorem candidates_nodup (known : dct.variantsOf rootCall = if rootCall ∈ rootCallNames seedType then defaultVariants seedType else []) :
    (dct.candidates rootCall baseIsFile relOKByType).Nodup := by
  refine ((candidates_sublist dct rootCall baseIsFile relOKByType).trans List.filter_sublist).nodup ?_
  rw [known]
  split
  · exact defaultVariants_nodup seedType
  · exact List.nodup_nil

theorem WeightsInv.candidate_pos (inv : WeightsInv seedType dct)
    (known : dct.variantsOf rootCall = if rootCall ∈ rootCallNames seedType then defaultVariants seedType else [])
    {cv : CallVariant} (member : cv ∈ dct.candidates rootCall baseIsFile relOKByType) : 0 < dct.weightOf rootCall cv := by
  have listed : cv ∈ dct.variantsOf rootCall :=
    (List.mem_filter.mp ((candidates_sublist dct rootCall baseIsFile relOKByType).subset member)).1
  rw [known] at listed
  split at listed
  · rename_i root
    obtain ⟨w, found⟩ := Option.isSome_iff_exists.mp ((inv.keys rootCall cv).mpr ⟨root, listed⟩)
    have low := (inv.bounds rootCall cv w found).1
    unfold weightOf
    rw [Go.Map.getD, found]
    exact low
  · cases listed

/-- With a positive weight for each candidate the draw of a number decides. -/
theorem chooseVariant_decided
    (positive : ∀ cv ∈ dct.candidates rootCall baseIsFile relOKByType, 0 < dct.weightOf rootCall cv) (draw : Draw) :
    dct.chooseVariant rootCall draw baseIsFile relOKByType =
      WeightedPick.pick (dct.weightOf rootCall)
        (draw.intn (dct.totalWeight rootCall (dct.candidates rootCall baseIsFile relOKByType))) 0
        (dct.candidates rootCall baseIsFile relOKByType) := by
  unfold chooseVariant
  dsimp only
  rw [show (if (dct.unexploredVariants rootCall baseIsFile relOKByType).length > 0 then
    dct.unexploredVariants rootCall baseIsFile relOKByType else dct.eligibleVariants rootCall baseIsFile relOKByType) =
      dct.candidates rootCall baseIsFile relOKByType from rfl]
  generalize dct.candidates rootCall baseIsFile relOKByType = cand at *
  cases cand with
  | nil => rfl
  | cons first rest =>
    have some_total : 0 < WeightedPick.total (dct.weightOf rootCall) (first :: rest) :=
      WeightedPick.total_pos List.mem_cons_self (positive first List.mem_cons_self)
    rw [if_neg (by simp), if_neg (Nat.ne_of_gt some_total)]
    have below := draw.lt _ some_total
    obtain ⟨cv, picked⟩ := Option.isSome_iff_exists.mp
      (WeightedPick.pick_isSome (Nat.zero_le _) (by rwa [Nat.zero_add]))
    unfold totalWeight
    rw [picked, Option.some_or]

end Pool

/-- Over every history of feedback the weights stay in range and the choice follows them. -/
theorem tableAfter_selects (seedType : String) (ops : List TableOp) (rootCall : String) (baseIsFile : Bool)
    (relOKByType : Option RelOK) : WeightsInv seedType (tableAfter seedType ops) ∧
      SelectionLaw (tableAfter seedType ops) rootCall baseIsFile relOKByType := by
  have inv := tableAfter_weights seedType ops
  have known := variantsOf_tableAfter seedType ops rootCall
  have positive : ∀ cv ∈ (tableAfter seedType ops).candidates rootCall baseIsFile relOKByType,
      0 < (tableAfter seedType ops).weightOf rootCall cv := fun cv => inv.candidate_pos known
  have decided := chooseVariant_decided positive
  have member : ∀ draw cv, (tableAfter seedType ops).chooseVariant rootCall draw baseIsFile relOKByType = some cv →
      cv ∈ (tableAfter seedType ops).candidates rootCall baseIsFile relOKByType := by
    intro draw cv chosen
    rw [decided] at chosen
    exact WeightedPick.pick_mem chosen
  refine ⟨inv, fun draw => ?_, fun draw cv => chooseVariant_eligible, fun some_unexplored draw cv chosen => ?_, decided,
    fun cv => WeightedPick.countP_pick (candidates_nodup known), fun cv inside => ?_⟩
  · rw [← candidates_eq_nil, decided]
    constructor
    · intro none
      by_contra nonempty
      obtain ⟨first, inside⟩ := List.exists_mem_of_ne_nil _ nonempty
      have some_total := WeightedPick.total_pos inside (positive first inside)
      have picked := WeightedPick.pick_isSome (Nat.zero_le _)
        (by rw [Nat.zero_add]; exact draw.lt _ some_total)
      rw [totalWeight] at none
      rw [none] at picked
      cases picked
    · intro empty
      rw [empty]
      rfl
  · have pool : (tableAfter seedType ops).candidates rootCall baseIsFile relOKByType =
        (tableAfter seedType ops).unexploredVariants rootCall baseIsFile relOKByType :=
      if_pos (List.length_pos_of_ne_nil some_unexplored)
    rw [← pool]
    exact member draw cv chosen
  · obtain ⟨x, _, below, picked⟩ := WeightedPick.exists_pick inside (positive cv inside) 0
    rw [Nat.zero_add] at below
    refine ⟨⟨fun n => if x < n then x else 0, fun n nonzero => ?_⟩, ?_⟩
    · split
      · assumption
      · exact nonzero
    · rw [decided]
      dsimp only [totalWeight]
      rw [if_pos below, picked]

end DfsFuzz.Choice
