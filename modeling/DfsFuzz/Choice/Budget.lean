import DfsFuzz.Choice.Table

/-!
Runs of the feedback operations, and the exploration budget of a combo: the counter that bounds it
starts again at the threshold, so it never keeps a combo out of the preferred pool.
-/

namespace DfsFuzz.Choice

open DistributedChoiceTable

/-! ### The initial table -/

def initRoot (seedType : String) (dct : DistributedChoiceTable) (rootCall : String) : DistributedChoiceTable :=
  { rootCalls := dct.rootCalls.insert rootCall true
    variants := dct.variants.insert rootCall (defaultVariants seedType)
    weights := dct.weights.insert rootCall
      ((defaultVariants seedType).foldl (fun m cv => m.insert cv (getInitialWeight rootCall cv)) ∅)
    explored := dct.explored.insert rootCall ∅
    noYield := dct.noYield.insert rootCall ∅ }

structure InitialFor (seedType : String) (dct : DistributedChoiceTable) (rootCall : String) : Prop where
  variants : dct.variants.lookup rootCall = some (defaultVariants seedType)
  weights : dct.weights.lookup rootCall =
    some ((defaultVariants seedType).foldl (fun m cv => m.insert cv (getInitialWeight rootCall cv)) ∅)
  explored : dct.explored.lookup rootCall = some ∅
  noYield : dct.noYield.lookup rootCall = some ∅

variable {seedType rootCall : String}

theorem InitialFor.step {dct : DistributedChoiceTable} (name : String)
    (initial : InitialFor seedType dct rootCall ∨ rootCall = name) :
    InitialFor seedType (initRoot seedType dct name) rootCall := by
  unfold initRoot
  by_cases here : rootCall = name
  · subst here
    exact ⟨AList.lookup_insert _, AList.lookup_insert _, AList.lookup_insert _, AList.lookup_insert _⟩
  · have before := initial.resolve_right here
    refine ⟨?_, ?_, ?_, ?_⟩
    · exact (AList.lookup_insert_ne here).trans before.variants
    · exact (AList.lookup_insert_ne here).trans before.weights
    · exact (AList.lookup_insert_ne here).trans before.explored
    · exact (AList.lookup_insert_ne here).trans before.noYield

theorem newTable_initial (member : rootCall ∈ rootCallNames seedType) :
    InitialFor seedType (newDistributedChoiceTable seedType) rootCall := by
  have loop : ∀ (names : List String) (dct : DistributedChoiceTable),
      (InitialFor seedType dct rootCall ∨ rootCall ∈ names) →
        InitialFor seedType (names.foldl (initRoot seedType) dct) rootCall := by
    intro names
    induction names with
    | nil => exact fun dct initial => initial.resolve_right List.not_mem_nil
    | cons name names ih =>
      intro dct initial
      refine ih _ ?_
      rcases initial with before | inside
      · exact Or.inl (InitialFor.step name (Or.inl before))
      · rcases List.mem_cons.mp inside with rfl | later
        · exact Or.inl (InitialFor.step _ (Or.inr rfl))
        · exact Or.inr later
  exact loop _ {} (Or.inr member)

theorem newTable_missing (absent : rootCall ∉ rootCallNames seedType) :
    (newDistributedChoiceTable seedType).variants.lookup rootCall = none ∧
      (newDistributedChoiceTable seedType).explored.lookup rootCall = none ∧
      (newDistributedChoiceTable seedType).noYield.lookup rootCall = none ∧
      (newDistributedChoiceTable seedType).weights.lookup rootCall = none := by
  have loop : ∀ (names : List String) (dct : DistributedChoiceTable), rootCall ∉ names →
      (names.foldl (initRoot seedType) dct).variants.lookup rootCall = dct.variants.lookup rootCall ∧
        (names.foldl (initRoot seedType) dct).explored.lookup rootCall = dct.explored.lookup rootCall ∧
        (names.foldl (initRoot seedType) dct).noYield.lookup rootCall = dct.noYield.lookup rootCall ∧
        (names.foldl (initRoot seedType) dct).weights.lookup rootCall = dct.weights.lookup rootCall := by
    intro names
    induction names with
    | nil => exact fun _ _ => ⟨rfl, rfl, rfl, rfl⟩
    | cons name names ih =>
      intro dct outside
      obtain ⟨here, later⟩ := not_or.mp (mt List.mem_cons.mpr outside)
      obtain ⟨variants, explored, noYield, weights⟩ := ih (initRoot seedType dct name) later
      refine ⟨variants.trans ?_, explored.trans ?_, noYield.trans ?_, weights.trans ?_⟩
      · exact AList.lookup_insert_ne here
      · exact AList.lookup_insert_ne here
      · exact AList.lookup_insert_ne here
      · exact AList.lookup_insert_ne here
  exact loop _ {} absent

theorem variantsOf_newTable (seedType rootCall : String) :
    (newDistributedChoiceTable seedType).variantsOf rootCall =
      if rootCall ∈ rootCallNames seedType then defaultVariants seedType else [] := by
  unfold variantsOf Go.Map.getD
  split
  · rename_i member
    rw [(newTable_initial member).variants]
    rfl
  · rename_i absent
    rw [(newTable_missing absent).1]
    rfl

/-! ### Runs -/

inductive TableOp where
  | noYieldTick (rootCall : String) (cv : CallVariant)
  | markYield (rootCall : String) (cv : CallVariant)
deriving DecidableEq

def TableOp.apply (dct : DistributedChoiceTable) : TableOp → DistributedChoiceTable
  | noYieldTick rootCall cv => dct.noYieldTick rootCall cv
  | markYield rootCall cv => dct.markYield rootCall cv

def tableAfter (seedType : String) (ops : List TableOp) : DistributedChoiceTable :=
  ops.foldl TableOp.apply (newDistributedChoiceTable seedType)

def ticksOf (dct : DistributedChoiceTable) (rootCall : String) (cv : CallVariant) : Nat :=
  (dct.noYield.getD rootCall ∅).getD cv 0

def exploredOf (dct : DistributedChoiceTable) (rootCall : String) (cv : CallVariant) : Bool :=
  (dct.explored.getD rootCall ∅).getD cv false

theorem getD_put {β : Type} (m : Go.Map String (Go.Map CallVariant β)) (rootCall rootCall' : String) (cv cv' : CallVariant)
    (v zero : β) :
    ((put m rootCall cv v).getD rootCall' ∅).getD cv' zero =
      if rootCall' = rootCall ∧ cv' = cv then v else (m.getD rootCall' ∅).getD cv' zero := by
  unfold put
  by_cases root : rootCall' = rootCall
  · subst root
    rw [Go.Map.getD_insert_self]
    by_cases here : cv' = cv
    · subst here
      rw [Go.Map.getD_insert_self, if_pos ⟨rfl, rfl⟩]
    · rw [Go.Map.getD_insert_ne _ _ _ here, if_neg fun both => here both.2]
  · rw [Go.Map.getD_insert_ne _ _ _ root, if_neg fun both => root both.1]

/-- What one operation can do to the variants, the counters and the marks of a table. -/
structure FeedbackStep (dct dct' : DistributedChoiceTable) (op : TableOp) : Prop where
  variants : dct'.variants = dct.variants
  ticks : ∀ rootCall cv, ticksOf dct' rootCall cv = ticksOf dct rootCall cv ∨ ticksOf dct' rootCall cv < noYieldThreshold
  explored : ∀ rootCall cv, exploredOf dct' rootCall cv = exploredOf dct rootCall cv ∨ op = .markYield rootCall cv

theorem noYieldTick_step (dct : DistributedChoiceTable) (rootCall : String) (cv : CallVariant) :
    FeedbackStep dct (dct.noYieldTick rootCall cv) (.noYieldTick rootCall cv) := by
  have counted : ∀ n, n < noYieldThreshold → ∀ rootCall' cv',
      ((put dct.noYield rootCall cv n).getD rootCall' ∅).getD cv' 0 = ticksOf dct rootCall' cv' ∨
        ((put dct.noYield rootCall cv n).getD rootCall' ∅).getD cv' 0 < noYieldThreshold := by
    intro n low rootCall' cv'
    rw [getD_put]
    split
    · exact Or.inr low
    · exact Or.inl rfl
  unfold DistributedChoiceTable.noYieldTick
  cases dct.noYield.lookup rootCall with
  | none => exact ⟨rfl, fun _ _ => Or.inl rfl, fun _ _ => Or.inl rfl⟩
  | some counts =>
    dsimp only
    split
    · rename_i low
      exact ⟨rfl, counted _ low, fun _ _ => Or.inl rfl⟩
    · -- at the threshold the counter starts again
      cases (dct.weights.getD rootCall ∅).lookup cv with
      | none => exact ⟨rfl, counted 0 (by decide), fun _ _ => Or.inl rfl⟩
      | some w => exact ⟨rfl, counted 0 (by decide), fun _ _ => Or.inl rfl⟩

theorem markYield_step (dct : DistributedChoiceTable) (rootCall : String) (cv : CallVariant) :
    FeedbackStep dct (dct.markYield rootCall cv) (.markYield rootCall cv) := by
  unfold DistributedChoiceTable.markYield
  cases (dct.weights.lookup rootCall).bind fun weights => weights.lookup cv with
  | none => exact ⟨rfl, fun _ _ => Or.inl rfl, fun _ _ => Or.inl rfl⟩
  | some w =>
    refine ⟨rfl, fun rootCall' cv' => ?_, fun rootCall' cv' => ?_⟩
    · unfold ticksOf
      dsimp only
      split
      · rw [getD_put]
        split
        · exact Or.inr (by decide)
        · exact Or.inl rfl
      · exact Or.inl rfl
    · unfold exploredOf
      dsimp only
      split
      · rw [getD_put]
        split
        · rename_i here
          rw [here.1, here.2]
          exact Or.inr rfl
        · exact Or.inl rfl
      · exact Or.inl rfl

theorem TableOp.apply_step (dct : DistributedChoiceTable) (op : TableOp) : FeedbackStep dct (op.apply dct) op := by
  cases op with
  | noYieldTick rootCall cv => exact noYieldTick_step dct rootCall cv
  | markYield rootCall cv => exact markYield_step dct rootCall cv

structure TableInv (seedType : String) (ops : List TableOp) (dct : DistributedChoiceTable) : Prop where
  variants : dct.variants = (newDistributedChoiceTable seedType).variants
  ticks : ∀ rootCall cv, ticksOf dct rootCall cv < noYieldThreshold
  explored : ∀ rootCall cv, exploredOf dct rootCall cv = true → .markYield rootCall cv ∈ ops

theorem newTable_inv (seedType : String) : TableInv seedType [] (newDistributedChoiceTable seedType) := by
  have empty : ∀ rootCall, (newDistributedChoiceTable seedType).explored.getD rootCall ∅ = ∅ ∧
      (newDistributedChoiceTable seedType).noYield.getD rootCall ∅ = ∅ := by
    intro rootCall
    unfold Go.Map.getD
    by_cases member : rootCall ∈ rootCallNames seedType
    · have initial := newTable_initial member
      rw [initial.explored, initial.noYield]
      exact ⟨rfl, rfl⟩
    · obtain ⟨_, explored, noYield, _⟩ := newTable_missing member
      rw [explored, noYield]
      exact ⟨rfl, rfl⟩
  refine ⟨rfl, fun rootCall cv => ?_, fun rootCall cv marked => ?_⟩
  · rw [ticksOf, (empty rootCall).2]
    exact (by decide : 0 < noYieldThreshold)
  · rw [exploredOf, (empty rootCall).1] at marked
    cases marked

theorem tableAfter_inv (seedType : String) (ops : List TableOp) : TableInv seedType ops (tableAfter seedType ops) := by
  induction ops using List.reverseRecOn with
  | nil => exact newTable_inv seedType
  | append_singleton ops op ih =>
    have after : tableAfter seedType (ops ++ [op]) = op.apply (tableAfter seedType ops) := by
      simp [tableAfter]
    have step := TableOp.apply_step (tableAfter seedType ops) op
    rw [after]
    refine ⟨step.variants.trans ih.variants, fun rootCall cv => ?_, fun rootCall cv marked => ?_⟩
    · rcases step.ticks rootCall cv with same | low
      · rw [same]
        exact ih.ticks rootCall cv
      · exact low
    · rcases step.explored rootCall cv with same | here
      · exact List.mem_append_left _ (ih.explored rootCall cv (same ▸ marked))
      · rw [here]
        exact List.mem_append_right _ List.mem_cons_self

/-! ### The preferred pool -/

theorem variantsOf_tableAfter (seedType : String) (ops : List TableOp) (rootCall : String) :
    (tableAfter seedType ops).variantsOf rootCall =
      if rootCall ∈ rootCallNames seedType then defaultVariants seedType else [] := by
  rw [← variantsOf_newTable, variantsOf, variantsOf, (tableAfter_inv seedType ops).variants]

/-- An eligible combo that was never rewarded is in the preferred pool, whatever its ticks. -/
theorem mem_unexplored_of_unrewarded {ops : List TableOp} {cv : CallVariant}
    (unrewarded : .markYield rootCall cv ∉ ops) {baseIsFile : Bool} {relOKByType : Option RelOK}
    (candidate : cv ∈ (tableAfter seedType ops).eligibleVariants rootCall baseIsFile relOKByType) :
    cv ∈ (tableAfter seedType ops).unexploredVariants rootCall baseIsFile relOKByType := by
  have inv := tableAfter_inv seedType ops
  have unmarked : exploredOf (tableAfter seedType ops) rootCall cv = false := by
    rw [← Bool.not_eq_true]
    exact fun marked => unrewarded (inv.explored rootCall cv marked)
  refine List.mem_filter.mpr ⟨candidate, ?_⟩
  unfold exploredOf at unmarked
  unfold isUnexplored
  rw [unmarked]
  exact decide_eq_true (inv.ticks rootCall cv)

theorem exists_eligible {cv : CallVariant} (member : cv ∈ defaultVariants seedType) :
    ∃ baseIsFile, eligible baseIsFile none cv = true := by
  have all : ∀ cv ∈ defaultVariants "fileops" ++ defaultVariants "inodeops", ∃ baseIsFile, eligible baseIsFile none cv = true := by
    decide +kernel
  refine all cv (List.mem_append.mpr ?_)
  by_cases fileops : seedType = "fileops"
  · exact Or.inl (fileops ▸ member)
  · have names : variantCallNames seedType = variantCallNames "inodeops" := by
      rw [variantCallNames, if_neg fileops]
      rfl
    refine Or.inr ?_
    rw [defaultVariants, ← names]
    exact member

/-- The budget of a combo bounds its exploration in a run: after the threshold of ticks, and as long
as it is not rewarded, the choice leaves it out of the preferred pool whatever the base. -/
def BudgetBinds (seedType : String) (ops : List TableOp) (rootCall : String) (cv : CallVariant) : Prop :=
  .markYield rootCall cv ∉ ops → noYieldThreshold ≤ ops.count (.noYieldTick rootCall cv) →
    ∀ baseIsFile relOKByType, cv ∉ (tableAfter seedType ops).unexploredVariants rootCall baseIsFile relOKByType

/-- It never does: only where nothing is asked, or of what is no combo of the table. -/
theorem budgetBinds_iff (seedType : String) (ops : List TableOp) (rootCall : String) (cv : CallVariant) :
    BudgetBinds seedType ops rootCall cv ↔
      .markYield rootCall cv ∈ ops ∨ ops.count (.noYieldTick rootCall cv) < noYieldThreshold ∨
        cv ∉ (newDistributedChoiceTable seedType).variantsOf rootCall := by
  have same : (tableAfter seedType ops).variantsOf rootCall = (newDistributedChoiceTable seedType).variantsOf rootCall := by
    rw [variantsOf_tableAfter, variantsOf_newTable]
  constructor
  · intro binds
    by_contra premise
    rw [not_or, not_or, Nat.not_lt, not_not] at premise
    obtain ⟨unrewarded, ticked, member⟩ := premise
    have default : cv ∈ defaultVariants seedType := by
      rw [variantsOf_newTable] at member
      split at member
      · exact member
      · cases member
    obtain ⟨baseIsFile, allowed⟩ := exists_eligible default
    refine binds unrewarded ticked baseIsFile none (mem_unexplored_of_unrewarded unrewarded ?_)
    rw [← same] at member
    exact List.mem_filter.mpr ⟨member, allowed⟩
  · rintro condition unrewarded ticked baseIsFile relOKByType pooled
    have candidate := (List.mem_filter.mp pooled).1
    rcases condition with rewarded | few | unknown
    · exact unrewarded rewarded
    · exact Nat.not_lt.mpr ticked few
    · exact unknown (same ▸ (List.mem_filter.mp candidate).1)

/-- Ten ticks without a reward, and the combo is still preferred. -/
theorem unexplored_after_ten_ticks :
    let ops : List TableOp := List.replicate 10 (.noYieldTick "open" ⟨"read", .same⟩)
    ⟨"read", .same⟩ ∈ (tableAfter "fileops" ops).unexploredVariants "open" true none ∧
      ¬ BudgetBinds "fileops" ops "open" ⟨"read", .same⟩ := by
  have pooled : ⟨"read", .same⟩ ∈ (tableAfter "fileops" (List.replicate 10
      (.noYieldTick "open" ⟨"read", .same⟩))).unexploredVariants "open" true none := by
    refine mem_unexplored_of_unrewarded (by decide) (List.mem_filter.mpr ⟨?_, by decide⟩)
    rw [variantsOf_tableAfter]
    decide
  exact ⟨pooled, fun binds => binds (by decide) (by decide) true none pooled⟩

end DfsFuzz.Choice
