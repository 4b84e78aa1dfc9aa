import DfsFuzz.Choice.Budget
import DfsFuzz.Mutation.PathRel

/-!
The second layer of the choice tables: which temporal form of a combo is inserted
(`prog/distributed_choice.go`), and the novel DAG pairs fed back into it
(`syz-fuzzer/proc.go`, `prog/dag.go`).
-/

namespace DfsFuzz.Choice

open DfsFuzz.Dag DfsFuzz.Mutation DistributedChoiceTable

structure TemporalWeight where
  concurrent : Nat
  hb : Nat
deriving DecidableEq, Repr

def temporalInitWeight : Nat := 1

namespace TemporalWeight

def initial : TemporalWeight := ⟨temporalInitWeight, temporalInitWeight⟩

def ofRel (tw : TemporalWeight) : TemporalRel → Nat
  | .concurrent => tw.concurrent
  | .hb => tw.hb

def reward (tw : TemporalWeight) : TemporalRel → TemporalWeight
  | .concurrent => { tw with concurrent := tw.concurrent + 1 }
  | .hb => { tw with hb := tw.hb + 1 }

theorem ofRel_reward (tw : TemporalWeight) (actual rel : TemporalRel) :
    (tw.reward actual).ofRel rel = tw.ofRel rel + if actual = rel then 1 else 0 := by
  cases actual <;> cases rel <;> rfl

end TemporalWeight

structure TemporalTable extends DistributedChoiceTable where
  temporalWeights : Go.Map String (Go.Map CallVariant TemporalWeight) := ∅

namespace TemporalTable

def new (seedType : String) : TemporalTable := { newDistributedChoiceTable seedType with }

def hasRoot (dct : TemporalTable) (rootCall : String) : Bool := (dct.rootCalls.lookup rootCall).isSome

/-- The weights of a combo, entered into the table on first use. The source returns a pointer to a
copy: what the caller changes is not in the table until it is stored. -/
def temporalWeightLocked (dct : TemporalTable) (rootCall : String) (variant : CallVariant) :
    TemporalWeight × TemporalTable :=
  match (dct.temporalWeights.getD rootCall ∅).lookup variant with
  | some tw => (tw, dct)
  | none =>
    (.initial, { dct with temporalWeights := put dct.temporalWeights rootCall variant .initial })

def chooseTemporal (dct : TemporalTable) (rootCall : String) (variant : CallVariant) (draw : Draw) :
    TemporalRel × TemporalTable :=
  let (tw, dct) := dct.temporalWeightLocked rootCall variant
  let (tw, dct) :=
    if tw.concurrent + tw.hb = 0 then
      (TemporalWeight.initial, { dct with temporalWeights := put dct.temporalWeights rootCall variant .initial })
    else (tw, dct)
  (if draw.intn (tw.concurrent + tw.hb) < tw.concurrent then .concurrent else .hb, dct)

def updateTemporalWeight (dct : TemporalTable) (rootCall : String) (variant : CallVariant) (actual : TemporalRel) :
    TemporalTable :=
  let (tw, dct) := dct.temporalWeightLocked rootCall variant
  { dct with temporalWeights := put dct.temporalWeights rootCall variant (tw.reward actual) }

def weightOf (dct : TemporalTable) (rootCall : String) (variant : CallVariant) (rel : TemporalRel) : Nat :=
  ((dct.temporalWeights.getD rootCall ∅).getD variant .initial).ofRel rel

end TemporalTable

/-- The syscall that triggers a traced function; empty for a function without one. -/
def callNameOfFunc (fid : UInt32) : String :=
  if fid = funcMkdir then "mkdir"
  else if fid = funcCreate then "creat"
  else if fid = funcRmdir then "rmdir"
  else if fid = funcUnlink then "unlink"
  else if fid = funcRename then "rename"
  else if fid = funcWrite then "write"
  else if fid = funcRead then "read"
  else if fid = funcFsync then "fsync"
  else if fid = funcGetattr then "stat"
  else if fid = funcFileOpen then "open"
  else if fid = funcIterate then "getdents64"
  else ""

def callNameOfVertex (v : DAGVertex) : String := if v.callName = "" then callNameOfFunc v.funcID else v.callName

structure Combo where
  root : String
  variant : CallVariant
deriving DecidableEq

def dagPairToVariant (p : DAGPair) : Option (Combo × TemporalRel) :=
  let rootCall := callNameOfVertex p.A.v
  let variantCall := callNameOfVertex p.B.v
  if rootCall = "" ∨ variantCall = "" then none
  else (dagRelToDctRel p).map fun rel => (⟨rootCall, ⟨variantCall, rel⟩⟩, p.temporal)

/-! ### The two strategies of a fuzzing process -/

/-- The two kinds of programs that are grown from a choice table. -/
inductive SeedKind where
  | inodeops | fileops
deriving DecidableEq, Repr

def SeedKind.seedType : SeedKind → String
  | inodeops => "inodeops"
  | fileops => "fileops"

/-- A strategy: it holds both tables and uses the one of its seed type. -/
structure TemporalStrategy where
  seedType : String
  dctInodeops : TemporalTable := .new "inodeops"
  dctFileops : TemporalTable := .new "fileops"

namespace TemporalStrategy

def getDCT (lcs : TemporalStrategy) : TemporalTable :=
  if lcs.seedType = "fileops" then lcs.dctFileops else lcs.dctInodeops

def modifyDCT (lcs : TemporalStrategy) (f : TemporalTable → TemporalTable) : TemporalStrategy :=
  if lcs.seedType = "fileops" then { lcs with dctFileops := f lcs.dctFileops }
  else { lcs with dctInodeops := f lcs.dctInodeops }

@[simp] theorem getDCT_modifyDCT (lcs : TemporalStrategy) (f : TemporalTable → TemporalTable) :
    (lcs.modifyDCT f).getDCT = f lcs.getDCT := by
  unfold modifyDCT getDCT
  split <;> simp_all

end TemporalStrategy

structure Proc where
  lcsInodeops : TemporalStrategy := { seedType := "inodeops" }
  lcsFileops : TemporalStrategy := { seedType := "fileops" }
  dagHbPairCount : Nat := 0
  dagCcPairCount : Nat := 0

namespace Proc

/-- The strategy `mutateHmdfs` hands to the mutator of a program of this kind. -/
def strategy (proc : Proc) : SeedKind → TemporalStrategy
  | .inodeops => proc.lcsInodeops
  | .fileops => proc.lcsFileops

def modify (proc : Proc) (kind : SeedKind) (f : TemporalTable → TemporalTable) : Proc :=
  match kind with
  | .inodeops => { proc with lcsInodeops := proc.lcsInodeops.modifyDCT f }
  | .fileops => { proc with lcsFileops := proc.lcsFileops.modifyDCT f }

/-- The table `ChooseTemporal` is asked in for programs of this kind. -/
def table (proc : Proc) (kind : SeedKind) : TemporalTable := (proc.strategy kind).getDCT

/-- Both strategies exist: the fuzzer makes them together, and only for hmdfs. -/
def lcsForRootCall (proc : Proc) (rootCallName : String) : Option SeedKind :=
  if (proc.table .inodeops).hasRoot rootCallName then some .inodeops
  else if (proc.table .fileops).hasRoot rootCallName then some .fileops
  else none

def countPair (proc : Proc) : TemporalRel → Proc
  | .hb => { proc with dagHbPairCount := proc.dagHbPairCount + 1 }
  | .concurrent => { proc with dagCcPairCount := proc.dagCcPairCount + 1 }

def feedbackDagPair (proc : Proc) (p : DAGPair) : Proc :=
  let proc := proc.countPair p.temporal
  match dagPairToVariant p with
  | none => proc
  | some (combo, temporal) =>
    match proc.lcsForRootCall combo.root with
    | none => proc
    | some kind => proc.modify kind fun dct => dct.updateTemporalWeight combo.root combo.variant temporal

def feedbackDagPairs (proc : Proc) (newPairs : List DAGPair) : Proc := newPairs.foldl feedbackDagPair proc

end Proc

/-- What happens to the tables of a process: an execution of a program group of a kind with the
novel pairs it produced, the attribution of an insertion, and a choice for a program to grow. -/
inductive ProcOp where
  | execute (kind : SeedKind) (newPairs : List DAGPair)
  | applyInsertFeedback (kind : SeedKind) (op : TableOp)
  | chooseTemporal (kind : SeedKind) (rootCall : String) (variant : CallVariant) (draw : Draw)

def ProcOp.apply (proc : Proc) : ProcOp → Proc
  | execute _ newPairs => proc.feedbackDagPairs newPairs
  | applyInsertFeedback kind op =>
    proc.modify kind fun dct => { dct with toDistributedChoiceTable := op.apply dct.toDistributedChoiceTable }
  | chooseTemporal kind rootCall variant draw => proc.modify kind fun dct => (dct.chooseTemporal rootCall variant draw).2

def procAfter (ops : List ProcOp) : Proc := ops.foldl ProcOp.apply {}

namespace TemporalTable

/-- Same roots and same weights, however many combos were entered. -/
structure SameWeights (dct dct' : TemporalTable) : Prop where
  roots : dct'.rootCalls = dct.rootCalls
  weights : ∀ rootCall variant rel, dct'.weightOf rootCall variant rel = dct.weightOf rootCall variant rel

theorem weightOf_put (dct : TemporalTable) (rootCall rootCall' : String) (variant variant' : CallVariant) (tw : TemporalWeight)
    (rel : TemporalRel) :
    weightOf { dct with temporalWeights := put dct.temporalWeights rootCall variant tw } rootCall' variant' rel =
      if rootCall' = rootCall ∧ variant' = variant then tw.ofRel rel else dct.weightOf rootCall' variant' rel := by
  simp only [weightOf, getD_put]
  split <;> rfl

theorem temporalWeightLocked_spec (dct : TemporalTable) (rootCall : String) (variant : CallVariant) :
    (dct.temporalWeightLocked rootCall variant).1 = (dct.temporalWeights.getD rootCall ∅).getD variant .initial ∧
      SameWeights dct (dct.temporalWeightLocked rootCall variant).2 := by
  cases entered : (dct.temporalWeights.getD rootCall ∅).lookup variant with
  | some tw =>
    simp only [temporalWeightLocked, entered]
    refine ⟨?_, rfl, fun _ _ _ => rfl⟩
    rw [Go.Map.getD, entered]
    rfl
  | none =>
    have absent : (dct.temporalWeights.getD rootCall ∅).getD variant .initial = TemporalWeight.initial := by
      rw [Go.Map.getD, entered]
      rfl
    simp only [temporalWeightLocked, entered]
    refine ⟨absent.symm, rfl, fun rootCall' variant' rel => ?_⟩
    rw [weightOf_put]
    split
    · rename_i same
      obtain ⟨rfl, rfl⟩ := same
      rw [weightOf, absent]
    · rfl

/-- The reset of a combo without weight is never reached from a table whose weights are positive. -/
theorem chooseTemporal_weights {dct : TemporalTable} {rootCall : String} {variant : CallVariant}
    (positive : 0 < dct.weightOf rootCall variant .concurrent) (draw : Draw) :
    SameWeights dct (dct.chooseTemporal rootCall variant draw).2 := by
  obtain ⟨read, same⟩ := temporalWeightLocked_spec dct rootCall variant
  rw [weightOf, ← read] at positive
  have total : (dct.temporalWeightLocked rootCall variant).1.concurrent +
      (dct.temporalWeightLocked rootCall variant).1.hb ≠ 0 := Nat.ne_of_gt (Nat.add_pos_left positive _)
  simp only [chooseTemporal, if_neg total]
  exact same

theorem updateTemporalWeight_weights (dct : TemporalTable) (rootCall : String) (variant : CallVariant) (actual : TemporalRel) :
    (dct.updateTemporalWeight rootCall variant actual).rootCalls = dct.rootCalls ∧
      ∀ rootCall' variant' rel, (dct.updateTemporalWeight rootCall variant actual).weightOf rootCall' variant' rel =
        dct.weightOf rootCall' variant' rel +
          if rootCall' = rootCall ∧ variant' = variant ∧ actual = rel then 1 else 0 := by
  obtain ⟨read, roots, weights⟩ := temporalWeightLocked_spec dct rootCall variant
  refine ⟨roots, fun rootCall' variant' rel => ?_⟩
  rw [updateTemporalWeight, weightOf_put, weights]
  by_cases same : rootCall' = rootCall ∧ variant' = variant
  · obtain ⟨rfl, rfl⟩ := same
    simp only [read, TemporalWeight.ofRel_reward, true_and, and_self, if_true]
    rfl
  · rw [if_neg same, if_neg fun all => same ⟨all.1, all.2.1⟩, Nat.add_zero]

end TemporalTable

/-! ### Routing -/

theorem hasRoot_new (seedType rootCall : String) :
    (TemporalTable.new seedType).hasRoot rootCall = decide (rootCall ∈ rootCallNames seedType) := by
  have loop : ∀ (names : List String) (dct : DistributedChoiceTable),
      ((names.foldl (initRoot seedType) dct).rootCalls.lookup rootCall).isSome =
        ((dct.rootCalls.lookup rootCall).isSome || decide (rootCall ∈ names)) := by
    intro names
    induction names with
    | nil => intro dct; simp
    | cons name names ih =>
      intro dct
      rw [List.foldl_cons, ih]
      by_cases here : rootCall = name
      · subst here
        simp [initRoot]
      · simp [initRoot, here, AList.lookup_insert_ne here]
  exact (loop _ {}).trans (by simp)

theorem TableOp.apply_rootCalls (dct : DistributedChoiceTable) (op : TableOp) : (op.apply dct).rootCalls = dct.rootCalls := by
  cases op with
  | noYieldTick rootCall cv =>
    simp only [TableOp.apply, DistributedChoiceTable.noYieldTick]
    repeat' split
    all_goals rfl
  | markYield rootCall cv =>
    simp only [TableOp.apply, DistributedChoiceTable.markYield]
    split <;> rfl

namespace Proc

theorem table_modify (proc : Proc) (kind kind' : SeedKind) (f : TemporalTable → TemporalTable) :
    (proc.modify kind f).table kind' = if kind' = kind then f (proc.table kind') else proc.table kind' := by
  cases kind <;> cases kind' <;> simp [modify, table, strategy]

theorem table_countPair (proc : Proc) (rel : TemporalRel) (kind : SeedKind) : (proc.countPair rel).table kind = proc.table kind := by
  cases rel <;> cases kind <;> rfl

end Proc

/-- The only table the pairs of a root call are fed into. -/
def routeOf (rootCall : String) : Option SeedKind :=
  if rootCall ∈ rootCallNames SeedKind.inodeops.seedType then some .inodeops
  else if rootCall ∈ rootCallNames SeedKind.fileops.seedType then some .fileops
  else none

def pairsFor (combo : Combo) (rel : TemporalRel) (pairs : List DAGPair) : Nat :=
  pairs.countP fun p => dagPairToVariant p = some (combo, rel)

/-- Every pair fed back so far is counted where its root call leads, whatever program produced it. -/
structure Routed (fed : List DAGPair) (proc : Proc) : Prop where
  roots : ∀ kind rootCall, (proc.table kind).hasRoot rootCall = decide (rootCall ∈ rootCallNames kind.seedType)
  weights : ∀ kind combo rel, (proc.table kind).weightOf combo.root combo.variant rel =
    temporalInitWeight + if routeOf combo.root = some kind then pairsFor combo rel fed else 0

theorem routed_start : Routed [] {} := by
  constructor
  · intro kind rootCall
    cases kind
    · exact hasRoot_new "inodeops" rootCall
    · exact hasRoot_new "fileops" rootCall
  · intro kind combo rel
    cases kind <;> cases rel <;> simp [pairsFor] <;> rfl

variable {fed : List DAGPair} {proc : Proc}

theorem Routed.lcsForRootCall (routed : Routed fed proc) (rootCall : String) :
    proc.lcsForRootCall rootCall = routeOf rootCall := by
  simp only [Proc.lcsForRootCall, routed.roots, decide_eq_true_eq, routeOf]

theorem Routed.keep (routed : Routed fed proc) (kind : SeedKind) {f : TemporalTable → TemporalTable}
    (same : TemporalTable.SameWeights (proc.table kind) (f (proc.table kind))) : Routed fed (proc.modify kind f) := by
  constructor
  · intro kind' rootCall
    rw [Proc.table_modify]
    split
    · rename_i here
      subst here
      rw [TemporalTable.hasRoot, same.roots]
      exact routed.roots kind' rootCall
    · exact routed.roots kind' rootCall
  · intro kind' combo rel
    rw [Proc.table_modify]
    split
    · rename_i here
      subst here
      rw [same.weights]
      exact routed.weights kind' combo rel
    · exact routed.weights kind' combo rel

theorem pairsFor_concat (combo : Combo) (rel : TemporalRel) (fed : List DAGPair) (p : DAGPair) :
    pairsFor combo rel (fed ++ [p]) = pairsFor combo rel fed + if dagPairToVariant p = some (combo, rel) then 1 else 0 := by
  simp [pairsFor, List.countP_append, List.countP_singleton]

theorem Routed.count (routed : Routed fed proc) (rel : TemporalRel) : Routed fed (proc.countPair rel) := by
  constructor
  · intro kind rootCall
    rw [Proc.table_countPair]
    exact routed.roots kind rootCall
  · intro kind combo rel
    rw [Proc.table_countPair]
    exact routed.weights kind combo rel

theorem Routed.drop (routed : Routed fed proc) {p : DAGPair}
    (dropped : ∀ combo rel, dagPairToVariant p = some (combo, rel) → routeOf combo.root = none) :
    Routed (fed ++ [p]) proc := by
  refine ⟨routed.roots, fun kind combo rel => ?_⟩
  rw [routed.weights, pairsFor_concat]
  by_cases mapped : dagPairToVariant p = some (combo, rel)
  · simp [dropped combo rel mapped]
  · simp [mapped]

theorem Routed.reward (routed : Routed fed proc) {p : DAGPair} {combo : Combo} {rel : TemporalRel} {kind : SeedKind}
    (mapped : dagPairToVariant p = some (combo, rel)) (route : routeOf combo.root = some kind) :
    Routed (fed ++ [p]) (proc.modify kind fun dct => dct.updateTemporalWeight combo.root combo.variant rel) := by
  obtain ⟨roots, weights⟩ := TemporalTable.updateTemporalWeight_weights (proc.table kind) combo.root combo.variant rel
  constructor
  · intro kind' rootCall
    rw [Proc.table_modify]
    split
    · rename_i here
      subst here
      rw [TemporalTable.hasRoot, roots]
      exact routed.roots kind' rootCall
    · exact routed.roots kind' rootCall
  · intro kind' combo' rel'
    rw [Proc.table_modify, pairsFor_concat, mapped]
    by_cases here : kind' = kind
    · subst here
      rw [if_pos rfl, weights, routed.weights]
      by_cases same : combo' = combo
      · subst same
        simp [route, Nat.add_assoc]
      · have other : ¬(combo'.root = combo.root ∧ combo'.variant = combo.variant ∧ rel = rel') :=
          fun all => same (by cases combo; cases combo'; simp_all)
        have unmapped : ¬ some (combo, rel) = some (combo', rel') := fun all => same (by simp_all)
        rw [if_neg other, if_neg unmapped]
        rfl
    · rw [if_neg here, routed.weights]
      by_cases same : combo' = combo
      · subst same
        have elsewhere : ¬ routeOf combo'.root = some kind' := fun found => here (by simp_all)
        rw [if_neg elsewhere, if_neg elsewhere]
      · have unmapped : ¬ some (combo, rel) = some (combo', rel') := fun all => same (by simp_all)
        rw [if_neg unmapped]
        rfl

theorem Routed.feedback (routed : Routed fed proc) (p : DAGPair) : Routed (fed ++ [p]) (proc.feedbackDagPair p) := by
  have counted := routed.count p.temporal
  unfold Proc.feedbackDagPair
  cases mapped : dagPairToVariant p with
  | none => exact counted.drop (by simp [mapped])
  | some credit =>
    obtain ⟨combo, rel⟩ := credit
    simp only [counted.lcsForRootCall]
    cases route : routeOf combo.root with
    | none =>
      refine counted.drop fun combo' rel' same => ?_
      rw [mapped] at same
      cases same
      exact route
    | some kind => exact counted.reward mapped route

theorem Routed.feedbacks (routed : Routed fed proc) (newPairs : List DAGPair) :
    Routed (fed ++ newPairs) (proc.feedbackDagPairs newPairs) := by
  induction newPairs generalizing fed proc with
  | nil => simpa [Proc.feedbackDagPairs] using routed
  | cons p newPairs ih => simpa [Proc.feedbackDagPairs] using ih (routed.feedback p)

/-! ### Runs -/

/-- The pairs that executions of programs of a kind fed back. -/
def ProcOp.pairsOf (kind : SeedKind) : ProcOp → List DAGPair
  | execute kind' newPairs => if kind' = kind then newPairs else []
  | applyInsertFeedback _ _ => []
  | chooseTemporal _ _ _ _ => []

def ProcOp.fedPairs : ProcOp → List DAGPair
  | execute _ newPairs => newPairs
  | applyInsertFeedback _ _ => []
  | chooseTemporal _ _ _ _ => []

theorem Routed.apply (routed : Routed fed proc) (op : ProcOp) : Routed (fed ++ op.fedPairs) (op.apply proc) := by
  cases op with
  | execute kind newPairs => exact routed.feedbacks newPairs
  | applyInsertFeedback kind op =>
    rw [ProcOp.fedPairs, List.append_nil]
    refine routed.keep kind ⟨TableOp.apply_rootCalls _ op, fun _ _ _ => rfl⟩
  | chooseTemporal kind rootCall variant draw =>
    rw [ProcOp.fedPairs, List.append_nil]
    have positive : 0 < (proc.table kind).weightOf rootCall variant .concurrent := by
      rw [routed.weights kind ⟨rootCall, variant⟩ .concurrent]
      exact Nat.add_pos_left Nat.one_pos _
    exact routed.keep kind (TemporalTable.chooseTemporal_weights positive draw)

theorem procAfter_routed (ops : List ProcOp) : Routed (ops.flatMap ProcOp.fedPairs) (procAfter ops) := by
  have loop : ∀ (ops : List ProcOp) (fed : List DAGPair) (proc : Proc), Routed fed proc →
      Routed (fed ++ ops.flatMap ProcOp.fedPairs) (ops.foldl ProcOp.apply proc) := by
    intro ops
    induction ops with
    | nil => intro fed proc routed; simpa using routed
    | cons op ops ih => intro fed proc routed; simpa using ih _ _ (routed.apply op)
  exact loop ops [] {} routed_start

/-- A combo of the table that programs of this kind are grown from. -/
def SeedKind.Offers (kind : SeedKind) (combo : Combo) : Prop :=
  combo.root ∈ rootCallNames kind.seedType ∧ combo.variant ∈ defaultVariants kind.seedType

instance (kind : SeedKind) (combo : Combo) : Decidable (kind.Offers combo) := inferInstanceAs (Decidable (_ ∧ _))

def FeedbackReaches (ops : List ProcOp) : Prop :=
  ∀ kind combo rel, SeedKind.Offers kind combo → ((procAfter ops).table kind).weightOf combo.root combo.variant rel =
    temporalInitWeight + pairsFor combo rel (ops.flatMap (ProcOp.pairsOf kind))

theorem pairsFor_kinds (combo : Combo) (rel : TemporalRel) (ops : List ProcOp) :
    pairsFor combo rel (ops.flatMap ProcOp.fedPairs) =
      pairsFor combo rel (ops.flatMap (ProcOp.pairsOf .inodeops)) + pairsFor combo rel (ops.flatMap (ProcOp.pairsOf .fileops)) := by
  induction ops with
  | nil => rfl
  | cons op ops ih =>
    simp only [pairsFor, List.flatMap_cons, List.countP_append] at ih ⊢
    rw [ih]
    cases op with
    | execute kind newPairs =>
      cases kind <;> simp [ProcOp.fedPairs, ProcOp.pairsOf]
      all_goals omega
    | applyInsertFeedback kind op => simp [ProcOp.fedPairs, ProcOp.pairsOf]
    | chooseTemporal kind rootCall variant draw => simp [ProcOp.fedPairs, ProcOp.pairsOf]

theorem pairsFor_eq_zero_iff (combo : Combo) (rel : TemporalRel) (kind : SeedKind) (ops : List ProcOp) :
    pairsFor combo rel (ops.flatMap (ProcOp.pairsOf kind)) = 0 ↔
      ∀ newPairs, ProcOp.execute kind newPairs ∈ ops → ∀ p ∈ newPairs, dagPairToVariant p ≠ some (combo, rel) := by
  simp only [pairsFor, List.countP_eq_zero, decide_eq_true_eq, List.mem_flatMap]
  constructor
  · intro none newPairs executed p member
    exact none p ⟨_, executed, by simpa [ProcOp.pairsOf] using member⟩
  · rintro none p ⟨op, inside, member⟩
    cases op with
    | execute kind' newPairs =>
      simp only [ProcOp.pairsOf] at member
      split at member
      · rename_i same
        subst same
        exact none newPairs inside p member
      · cases member
    | applyInsertFeedback _ _ => cases member
    | chooseTemporal _ _ _ _ => cases member

/-- A pair of this combo from a program of this kind is credited to the table of that kind, and no
other table offers the combo. -/
def OwnRoot : SeedKind → Combo → Prop
  | .inodeops, combo => SeedKind.Offers .fileops combo → combo.root ∈ rootCallNames SeedKind.inodeops.seedType
  | .fileops, combo =>
    ¬ SeedKind.Offers .inodeops combo ∧
      (SeedKind.Offers .fileops combo → combo.root ∉ rootCallNames SeedKind.inodeops.seedType)

theorem weight_inodeops {ops : List ProcOp} {combo : Combo} (offered : SeedKind.Offers .inodeops combo) (rel : TemporalRel) :
    ((procAfter ops).table .inodeops).weightOf combo.root combo.variant rel =
      temporalInitWeight + (pairsFor combo rel (ops.flatMap (ProcOp.pairsOf .inodeops)) +
        pairsFor combo rel (ops.flatMap (ProcOp.pairsOf .fileops))) := by
  have route : routeOf combo.root = some .inodeops := if_pos offered.1
  rw [(procAfter_routed ops).weights, if_pos route, pairsFor_kinds]

theorem weight_fileops {ops : List ProcOp} {combo : Combo} (offered : SeedKind.Offers .fileops combo) (rel : TemporalRel) :
    ((procAfter ops).table .fileops).weightOf combo.root combo.variant rel =
      temporalInitWeight + if combo.root ∈ rootCallNames SeedKind.inodeops.seedType then 0
        else pairsFor combo rel (ops.flatMap (ProcOp.pairsOf .inodeops)) +
          pairsFor combo rel (ops.flatMap (ProcOp.pairsOf .fileops)) := by
  rw [(procAfter_routed ops).weights]
  by_cases shared : combo.root ∈ rootCallNames SeedKind.inodeops.seedType
  · have route : routeOf combo.root = some .inodeops := if_pos shared
    simp [route, shared]
  · have route : routeOf combo.root = some .fileops := (if_neg shared).trans (if_pos offered.1)
    simp only [route, shared, if_true, if_false, pairsFor_kinds]

/-- The temporal feedback reaches the table that makes the choice exactly when no program feeds
back a pair whose root call leads to the other kind's table. -/
theorem feedbackReaches_iff (ops : List ProcOp) :
    FeedbackReaches ops ↔ ∀ kind newPairs, ProcOp.execute kind newPairs ∈ ops → ∀ p ∈ newPairs, ∀ combo rel,
      dagPairToVariant p = some (combo, rel) → OwnRoot kind combo := by
  constructor
  · intro reaches kind newPairs executed p member combo rel mapped
    have fed : pairsFor combo rel (ops.flatMap (ProcOp.pairsOf kind)) ≠ 0 := fun none =>
      (pairsFor_eq_zero_iff combo rel kind ops).mp none newPairs executed p member mapped
    have offersFile : SeedKind.Offers .fileops combo → _ := fun offered =>
      (weight_fileops offered rel).symm.trans (reaches .fileops combo rel offered)
    cases kind with
    | inodeops =>
      intro offered
      by_contra only
      have counts := offersFile offered
      rw [if_neg only] at counts
      omega
    | fileops =>
      refine ⟨fun offered => ?_, fun offered shared => ?_⟩
      · have counts := (weight_inodeops offered rel).symm.trans (reaches .inodeops combo rel offered)
        omega
      · have counts := offersFile offered
        rw [if_pos shared] at counts
        omega
  · intro own kind combo rel offered
    have unfed : ∀ kind, ¬ OwnRoot kind combo → pairsFor combo rel (ops.flatMap (ProcOp.pairsOf kind)) = 0 := by
      intro kind foreign
      refine (pairsFor_eq_zero_iff combo rel kind ops).mpr fun newPairs executed p member mapped => ?_
      exact foreign (own kind newPairs executed p member combo rel mapped)
    cases kind with
    | inodeops =>
      rw [weight_inodeops offered, unfed .fileops fun both => both.1 offered, Nat.add_zero]
    | fileops =>
      rw [weight_fileops offered]
      by_cases shared : combo.root ∈ rootCallNames SeedKind.inodeops.seedType
      · rw [if_pos shared, unfed .fileops fun both => both.2 offered shared]
      · rw [if_neg shared, unfed .inodeops fun leads => shared (leads offered), Nat.zero_add]

/-- Two opens of one path, traced in a file-op program. -/
def openPair : DAGPair :=
  ⟨⟨0, { funcID := funcFileOpen, callName := "open", path := "/a", retBucket := .success }⟩,
    ⟨1, { funcID := funcFileOpen, callName := "open", path := "/a", retBucket := .success, progIdx := 1 }⟩, .concurrent, .samePath⟩

/-- The credit of a file-op program's pair of opens goes to the inode-op table. -/
theorem feedback_misrouted : ¬ FeedbackReaches [.execute .fileops [openPair]] := by
  intro reaches
  have offered : SeedKind.Offers .fileops ⟨"open", ⟨"open", .same⟩⟩ := by decide
  have weight := (weight_fileops offered .concurrent).symm.trans (reaches .fileops _ .concurrent offered)
  have shared : (⟨"open", ⟨"open", .same⟩⟩ : Combo).root ∈ rootCallNames SeedKind.inodeops.seedType := by decide
  rw [if_pos shared] at weight
  revert weight
  decide

end DfsFuzz.Choice
