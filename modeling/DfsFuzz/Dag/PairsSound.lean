import DfsFuzz.Dag.Pairs
import DfsFuzz.Lib.Ranges

/-!
What `ExtractPairs` yields: each pair of vertices of the list at most once, happens-before edges only
from succeeded modifiers to later vertices, and counters that say how many pairs went each way.
-/

namespace DfsFuzz.Dag

/-! ### The loop, pair by pair -/

def hbOf (p : VertexRef × VertexRef) : Option DAGPair :=
  if overlap p.1.v p.2.v then none
  else if p.1.v.etime < p.2.v.stime then
    let rel := determinePathRel p.1.v p.2.v true
    if rel ≠ .none && isSucceededModifier p.1.v then some ⟨p.1, p.2, .hb, rel⟩ else none
  else
    let rel := determinePathRel p.2.v p.1.v true
    if rel ≠ .none && isSucceededModifier p.2.v then some ⟨p.2, p.1, .hb, rel⟩ else none

def ccOf (p : VertexRef × VertexRef) : Option DAGPair :=
  if overlap p.1.v p.2.v then
    let rel := determinePathRel p.1.v p.2.v false
    if rel ≠ .none && (isModifierFunc p.1.v.funcID || isModifierFunc p.2.v.funcID) then
      some ⟨p.1, p.2, .concurrent, rel⟩
    else none
  else none

def DagDiag.timed (d : DagDiag) : Nat := d.overlapPairs + d.hbForwardPairs + d.hbReversePairs

def DagDiag.dropped (d : DagDiag) : Nat := d.filteredNoMod + d.filteredPathRel

/-- What the loop body does to the state: it appends at most one pair, and the counters move so
that every visited pair is timed once and either appended or dropped. -/
structure StepSpec (st st' : PairState) (p : VertexRef × VertexRef) : Prop where
  hb : st'.hb = st.hb ++ (hbOf p).toList
  cc : st'.cc = st.cc ++ (ccOf p).toList
  timed : st'.diag.timed = st.diag.timed + 1
  kept : st'.diag.dropped + st'.hb.length + st'.cc.length = st.diag.dropped + st.hb.length + st.cc.length + 1
  total : st'.diag.totalPairs = st.diag.totalPairs
  combos : st'.diag.pairRetCombos = st.diag.pairRetCombos

theorem pairStep_spec (st : PairState) (p : VertexRef × VertexRef) : StepSpec st (pairStep st p) p := by
  unfold pairStep
  by_cases meet : overlap p.1.v p.2.v = true
  · by_cases related : determinePathRel p.1.v p.2.v false = .none
    · constructor <;> simp [meet, related, hbOf, ccOf, DagDiag.timed, DagDiag.dropped] <;> omega
    · cases modifies : (isModifierFunc p.1.v.funcID || isModifierFunc p.2.v.funcID) <;>
        constructor <;> simp [meet, related, modifies, hbOf, ccOf, DagDiag.timed, DagDiag.dropped] <;> omega
  · by_cases before : p.1.v.etime < p.2.v.stime
    · by_cases related : determinePathRel p.1.v p.2.v true = .none
      · constructor <;> simp [meet, before, related, hbOf, ccOf, DagDiag.timed, DagDiag.dropped] <;> omega
      · cases modifies : isSucceededModifier p.1.v <;>
          constructor <;> simp [meet, before, related, modifies, hbOf, ccOf, DagDiag.timed, DagDiag.dropped] <;> omega
    · by_cases related : determinePathRel p.2.v p.1.v true = .none
      · constructor <;> simp [meet, before, related, hbOf, ccOf, DagDiag.timed, DagDiag.dropped] <;> omega
      · cases modifies : isSucceededModifier p.2.v <;>
          constructor <;> simp [meet, before, related, modifies, hbOf, ccOf, DagDiag.timed, DagDiag.dropped] <;> omega

structure RunSpec (st st' : PairState) (ps : List (VertexRef × VertexRef)) : Prop where
  hb : st'.hb = st.hb ++ ps.filterMap hbOf
  cc : st'.cc = st.cc ++ ps.filterMap ccOf
  timed : st'.diag.timed = st.diag.timed + ps.length
  kept : st'.diag.dropped + st'.hb.length + st'.cc.length = st.diag.dropped + st.hb.length + st.cc.length + ps.length
  total : st'.diag.totalPairs = st.diag.totalPairs
  combos : st'.diag.pairRetCombos = st.diag.pairRetCombos

theorem pairLoop_spec (ps : List (VertexRef × VertexRef)) (st : PairState) :
    RunSpec st (ps.foldl pairStep st) ps := by
  induction ps generalizing st with
  | nil => constructor <;> simp
  | cons p ps ih =>
    have step := pairStep_spec st p
    have rest := ih (pairStep st p)
    constructor
    · rw [List.foldl_cons, rest.hb, step.hb]
      cases found : hbOf p <;> simp [found]
    · rw [List.foldl_cons, rest.cc, step.cc]
      cases found : ccOf p <;> simp [found]
    · rw [List.foldl_cons, rest.timed, step.timed, List.length_cons]
      omega
    · rw [List.foldl_cons, rest.kept, step.kept, List.length_cons]
      omega
    · rw [List.foldl_cons, rest.total, step.total]
    · rw [List.foldl_cons, rest.combos, step.combos]

theorem extractPairs_hb (vertices : List DAGVertex) (diag : DagDiag) :
    (extractPairs vertices diag).hbPairs = (Go.pairs (refs vertices)).filterMap hbOf := by
  have run := pairLoop_spec (Go.pairs (refs vertices))
    { diag := { diag with totalPairs := vertices.length * (vertices.length - 1) / 2 } }
  simpa [extractPairs] using run.hb

theorem extractPairs_cc (vertices : List DAGVertex) (diag : DagDiag) :
    (extractPairs vertices diag).ccPairs = (Go.pairs (refs vertices)).filterMap ccOf := by
  have run := pairLoop_spec (Go.pairs (refs vertices))
    { diag := { diag with totalPairs := vertices.length * (vertices.length - 1) / 2 } }
  simpa [extractPairs] using run.cc

/-! ### Counters -/

/-- The modifier filter of the branch that a visited pair takes. -/
def passesModifier (a b : DAGVertex) : Bool :=
  if overlap a b then isModifierFunc a.funcID || isModifierFunc b.funcID
  else if a.etime < b.stime then isSucceededModifier a
  else isSucceededModifier b

/-- The path relation, asked in the orientation of the branch that a visited pair takes. -/
def visitedRel (a b : DAGVertex) : PathRel :=
  if overlap a b then determinePathRel a b false
  else if a.etime < b.stime then determinePathRel a b true
  else determinePathRel b a true

/-- The loop body adds one to the counter at the pairs that pass the test, and to no other. -/
def Tallies (counter : DagDiag → Nat) (test : DAGVertex → DAGVertex → Bool) : Prop :=
  ∀ (st : PairState) (p : VertexRef × VertexRef),
    counter (pairStep st p).diag = counter st.diag + (test p.1.v p.2.v).toNat

theorem Tallies.loop {counter : DagDiag → Nat} {test : DAGVertex → DAGVertex → Bool} (tallies : Tallies counter test)
    (ps : List (VertexRef × VertexRef)) (st : PairState) :
    counter (ps.foldl pairStep st).diag = counter st.diag + ps.countP fun p => test p.1.v p.2.v := by
  induction ps generalizing st with
  | nil => rfl
  | cons p ps ih =>
    rw [List.foldl_cons, ih, tallies, List.countP_cons]
    cases test p.1.v p.2.v with
    | false => simp
    | true => simp [Nat.add_assoc, Nat.add_comm]

theorem tallies_overlap : Tallies DagDiag.overlapPairs overlap := by
  intro st p
  unfold pairStep
  dsimp only
  split_ifs <;> simp_all

theorem tallies_forward :
    Tallies DagDiag.hbForwardPairs fun a b => !overlap a b && decide (a.etime < b.stime) := by
  intro st p
  unfold pairStep
  dsimp only
  split_ifs <;> simp_all

theorem tallies_reverse :
    Tallies DagDiag.hbReversePairs fun a b => !overlap a b && !decide (a.etime < b.stime) := by
  intro st p
  unfold pairStep
  by_cases before : p.1.v.etime < p.2.v.stime
  · simp only [before, decide_true, Bool.not_true, Bool.and_false]
    split_ifs <;> rfl
  · simp only [before, decide_false, Bool.not_false, Bool.and_true]
    split_ifs <;> simp_all

theorem tallies_pathRel : Tallies DagDiag.filteredPathRel fun a b => decide (visitedRel a b = .none) := by
  intro st p
  unfold pairStep visitedRel
  dsimp only
  split_ifs <;> simp_all

theorem tallies_noMod :
    Tallies DagDiag.filteredNoMod fun a b => decide (visitedRel a b ≠ .none) && !passesModifier a b := by
  intro st p
  unfold pairStep visitedRel passesModifier
  dsimp only
  generalize (isModifierFunc p.1.v.funcID || isModifierFunc p.2.v.funcID) = modifies
  split_ifs <;> simp_all

def RetBucket.all : List RetBucket := [.success, .eexist, .enoent, .failure, .writepageDone, .writepageErr]

def comboTotal (combos : RetBucket → RetBucket → Nat) : Nat :=
  (RetBucket.all.map fun a => (RetBucket.all.map (combos a)).sum).sum

theorem sum_bump_bucket (f : RetBucket → Nat) (x : RetBucket) :
    (RetBucket.all.map fun a => if a = x then f a + 1 else f a).sum = (RetBucket.all.map f).sum + 1 := by
  cases x <;> simp [RetBucket.all] <;> omega

theorem comboTotal_countCombo (combos : RetBucket → RetBucket → Nat) (p : DAGPair) :
    comboTotal (countCombo combos p) = comboTotal combos + 1 := by
  have row : ∀ a, (RetBucket.all.map (countCombo combos p a)).sum =
      if a = p.A.v.retBucket then (RetBucket.all.map (combos a)).sum + 1 else (RetBucket.all.map (combos a)).sum := by
    intro a
    by_cases same : a = p.A.v.retBucket
    · have cell : countCombo combos p a = fun b => if b = p.B.v.retBucket then combos a b + 1 else combos a b := by
        funext b
        simp [countCombo, same]
      rw [if_pos same, cell, sum_bump_bucket]
    · have cell : countCombo combos p a = combos a := by
        funext b
        simp [countCombo, same]
      rw [if_neg same, cell]
  simp only [comboTotal, row]
  exact sum_bump_bucket (fun a => (RetBucket.all.map (combos a)).sum) p.A.v.retBucket

theorem comboTotal_foldl (ps : List DAGPair) (combos : RetBucket → RetBucket → Nat) :
    comboTotal (ps.foldl countCombo combos) = comboTotal combos + ps.length := by
  induction ps generalizing combos with
  | nil => rfl
  | cons p ps ih =>
    rw [List.foldl_cons, ih, comboTotal_countCombo, List.length_cons]
    omega

/-- The counters `ExtractPairs` adds to start at zero, as in the diagnostics `BuildVertices`
returns and in the ones allocated for a nil argument. -/
structure DagDiag.PairsUncounted (d : DagDiag) : Prop where
  timed : d.timed = 0
  dropped : d.dropped = 0
  combos : comboTotal d.pairRetCombos = 0

/-- Every pair of vertices is accounted for exactly once, by time and by fate. -/
structure DagDiag.Balanced (d : DagDiag) : Prop where
  timed : d.totalPairs = d.overlapPairs + d.hbForwardPairs + d.hbReversePairs
  fate : d.totalPairs = d.hbPairs + d.ccPairs + d.filteredNoMod + d.filteredPathRel
  combos : comboTotal d.pairRetCombos = d.hbPairs + d.ccPairs

theorem length_refs (vertices : List DAGVertex) : (refs vertices).length = vertices.length := by
  simp [refs]

theorem extractPairs_balanced (vertices : List DAGVertex) {diag : DagDiag} (fresh : diag.PairsUncounted) :
    (extractPairs vertices diag).diag.Balanced := by
  have run := pairLoop_spec (Go.pairs (refs vertices))
    { diag := { diag with totalPairs := vertices.length * (vertices.length - 1) / 2 } }
  have visited := Go.length_pairs (refs vertices)
  rw [length_refs] at visited
  obtain ⟨untimed, undropped, uncombined⟩ := fresh
  simp only [extractPairs]
  obtain ⟨_, _, timed, kept, total, combos⟩ := run
  generalize (Go.pairs (refs vertices)).foldl pairStep _ = st at *
  simp only [DagDiag.timed, DagDiag.dropped, List.length_nil] at timed kept total untimed undropped
  constructor
  · show st.diag.totalPairs = st.diag.overlapPairs + st.diag.hbForwardPairs + st.diag.hbReversePairs
    omega
  · show st.diag.totalPairs = st.hb.length + st.cc.length + st.diag.filteredNoMod + st.diag.filteredPathRel
    omega
  · show comboTotal ((st.hb ++ st.cc).foldl countCombo st.diag.pairRetCombos) = st.hb.length + st.cc.length
    rw [comboTotal_foldl, combos, uncombined, List.length_append]
    omega

def DAGVertex.countPairs (vertices : List DAGVertex) (test : DAGVertex → DAGVertex → Bool) : Nat :=
  (Go.pairs (refs vertices)).countP fun p => test p.1.v p.2.v

/-- Each counter is the number of unordered pairs of the list that went its way. -/
structure ExtractResult.Counted (vertices : List DAGVertex) (r : ExtractResult) : Prop where
  total : r.diag.totalPairs = vertices.length * (vertices.length - 1) / 2
  overlap : r.diag.overlapPairs = DAGVertex.countPairs vertices overlap
  forward : r.diag.hbForwardPairs =
    DAGVertex.countPairs vertices fun a b => !Dag.overlap a b && decide (a.etime < b.stime)
  reverse : r.diag.hbReversePairs =
    DAGVertex.countPairs vertices fun a b => !Dag.overlap a b && !decide (a.etime < b.stime)
  unrelated : r.diag.filteredPathRel = DAGVertex.countPairs vertices fun a b => decide (visitedRel a b = .none)
  unmodified : r.diag.filteredNoMod =
    DAGVertex.countPairs vertices fun a b => decide (visitedRel a b ≠ .none) && !passesModifier a b
  hb : r.diag.hbPairs = r.hbPairs.length
  cc : r.diag.ccPairs = r.ccPairs.length

theorem extractPairs_counted (vertices : List DAGVertex) {diag : DagDiag} (fresh : diag.PairsUncounted) :
    (extractPairs vertices diag).Counted vertices := by
  obtain ⟨untimed, undropped, _⟩ := fresh
  simp only [DagDiag.timed, DagDiag.dropped] at untimed undropped
  have counted : ∀ {counter : DagDiag → Nat} {test : DAGVertex → DAGVertex → Bool}, Tallies counter test →
      counter { diag with totalPairs := vertices.length * (vertices.length - 1) / 2 } = 0 →
      counter ((Go.pairs (refs vertices)).foldl pairStep
        { diag := { diag with totalPairs := vertices.length * (vertices.length - 1) / 2 } }).diag =
        DAGVertex.countPairs vertices test := by
    intro counter test tallies zero
    rw [tallies.loop, zero, Nat.zero_add]
    rfl
  constructor
  · exact (pairLoop_spec (Go.pairs (refs vertices)) _).total
  · apply counted tallies_overlap
    show diag.overlapPairs = 0
    omega
  · apply counted tallies_forward
    show diag.hbForwardPairs = 0
    omega
  · apply counted tallies_reverse
    show diag.hbReversePairs = 0
    omega
  · apply counted tallies_pathRel
    show diag.filteredPathRel = 0
    omega
  · apply counted tallies_noMod
    show diag.filteredNoMod = 0
    omega
  · rfl
  · rfl

/-! ### The relations -/

/-- Two pairs over the same two vertices, in either orientation. -/
def SamePair (p q : DAGPair) : Prop :=
  (p.A = q.A ∧ p.B = q.B) ∨ (p.A = q.B ∧ p.B = q.A)

def HB (hbPairs : List DAGPair) (a b : VertexRef) : Prop := ∃ p ∈ hbPairs, p.A = a ∧ p.B = b

structure HBPairOK (p : DAGPair) : Prop where
  temporal : p.temporal = .hb
  before : p.A.v.etime < p.B.v.stime
  modifier : isSucceededModifier p.A.v = true
  related : p.pathRel ≠ .none

structure CCPairOK (p : DAGPair) : Prop where
  temporal : p.temporal = .concurrent
  meet : p.A.v.stime ≤ p.B.v.etime ∧ p.B.v.stime ≤ p.A.v.etime
  modifier : isModifierFunc p.A.v.funcID = true ∨ isModifierFunc p.B.v.funcID = true
  related : p.pathRel ≠ .none

variable {p : VertexRef × VertexRef} {q : DAGPair}

theorem hbOf_some (found : hbOf p = some q) : HBPairOK q ∧ ((q.A = p.1 ∧ q.B = p.2) ∨ (q.A = p.2 ∧ q.B = p.1)) := by
  unfold hbOf at found
  split at found
  · cases found
  · rename_i apart
    split at found
    · rename_i before
      dsimp only at found
      split at found
      · rename_i kept
        cases found
        simp only [Bool.and_eq_true, decide_eq_true_eq] at kept
        exact ⟨⟨rfl, before, kept.2, kept.1⟩, Or.inl ⟨rfl, rfl⟩⟩
      · cases found
    · rename_i notBefore
      dsimp only at found
      split at found
      · rename_i kept
        cases found
        simp only [Bool.and_eq_true, decide_eq_true_eq] at kept
        -- the default case of the switch: the windows are apart and A does not end first
        have before : p.2.v.etime < p.1.v.stime := by
          have apart' : ¬ Windows.Meets (fun v : DAGVertex => v.stime.toNat) (fun v => v.etime.toNat) p.1.v p.2.v := by
            simpa [overlap, Windows.Meets, UInt64.le_iff_toNat_le] using apart
          have := Windows.precedes_of_not_meets apart' (by simpa [Windows.Precedes, UInt64.lt_iff_toNat_lt] using notBefore)
          exact UInt64.lt_iff_toNat_lt.mpr this
        exact ⟨⟨rfl, before, kept.2, kept.1⟩, Or.inr ⟨rfl, rfl⟩⟩
      · cases found

theorem ccOf_some (found : ccOf p = some q) : CCPairOK q ∧ q.A = p.1 ∧ q.B = p.2 := by
  unfold ccOf at found
  split at found
  · rename_i meet
    dsimp only at found
    split at found
    · rename_i kept
      cases found
      simp only [overlap, Bool.and_eq_true, decide_eq_true_eq] at meet
      simp only [Bool.and_eq_true, Bool.or_eq_true, decide_eq_true_eq] at kept
      exact ⟨⟨rfl, meet, kept.2, kept.1⟩, rfl, rfl⟩
    · cases found
  · cases found

theorem mem_refs {vertices : List DAGVertex} {r : VertexRef} :
    r ∈ refs vertices ↔ vertices[r.idx]? = some r.v := by
  obtain ⟨i, v⟩ := r
  simp only [refs, List.mem_mapIdx, VertexRef.mk.injEq]
  constructor
  · rintro ⟨j, bound, rfl, rfl⟩
    exact List.getElem?_eq_getElem bound
  · intro found
    obtain ⟨bound, value⟩ := List.getElem?_eq_some_iff.mp found
    exact ⟨i, bound, rfl, value⟩

theorem refs_vertices (vertices : List DAGVertex) : (refs vertices).map VertexRef.v = vertices := by
  apply List.ext_getElem <;> simp [refs]

theorem refs_idx (vertices : List DAGVertex) : (refs vertices).map VertexRef.idx = List.range vertices.length := by
  apply List.ext_getElem <;> simp [refs]

theorem nodup_refs (vertices : List DAGVertex) : (refs vertices).Nodup := by
  refine List.Nodup.of_map VertexRef.idx ?_
  rw [refs_idx]
  exact List.nodup_range

theorem pairs_unordered_nodup {xs : List VertexRef} (nodup : xs.Nodup) :
    (Go.pairs xs).Pairwise fun p q => ¬ ((p.1 = q.1 ∧ p.2 = q.2) ∨ (p.1 = q.2 ∧ p.2 = q.1)) := by
  induction xs with
  | nil => exact List.Pairwise.nil
  | cons x xs ih =>
    obtain ⟨absent, tail⟩ := List.nodup_cons.mp nodup
    refine List.pairwise_append.mpr ⟨?_, ih tail, ?_⟩
    · refine List.pairwise_map.mpr (List.Pairwise.imp_of_mem ?_ tail)
      rintro a b ina inb different (⟨_, same⟩ | ⟨same, _⟩)
      · exact different same
      · have head : x = b := same
        exact absent (head ▸ inb)
    · intro p left q right
      obtain ⟨y, _, rfl⟩ := List.mem_map.mp left
      have inside := Go.mem_of_mem_pairs right
      rintro (⟨same, _⟩ | ⟨same, _⟩)
      · have head : x = q.1 := same
        exact absent (head ▸ inside.1)
      · have head : x = q.2 := same
        exact absent (head ▸ inside.2)

def pairOf (p : VertexRef × VertexRef) : Option DAGPair := (hbOf p).or (ccOf p)

theorem ccOf_of_hbOf (found : hbOf p = some q) : ccOf p = none := by
  unfold hbOf at found
  split at found
  · cases found
  · rename_i apart
    simp [ccOf, apart]

theorem pairOf_over (found : pairOf p = some q) : (q.A = p.1 ∧ q.B = p.2) ∨ (q.A = p.2 ∧ q.B = p.1) := by
  unfold pairOf at found
  cases hb : hbOf p with
  | some r =>
    obtain rfl : r = q := by simpa [hb] using found
    exact (hbOf_some hb).2
  | none =>
    have cc : ccOf p = some q := by simpa [hb] using found
    exact Or.inl (ccOf_some cc).2

/-- The two lists together hold what the loop appended, in another order. -/
theorem produced_perm (ps : List (VertexRef × VertexRef)) :
    (ps.filterMap hbOf ++ ps.filterMap ccOf).Perm (ps.filterMap pairOf) := by
  induction ps with
  | nil => exact List.Perm.refl _
  | cons p ps ih =>
    simp only [List.filterMap_cons, pairOf]
    cases hb : hbOf p with
    | some q =>
      simp only [ccOf_of_hbOf hb, Option.some_or, List.cons_append]
      exact ih.cons q
    | none =>
      cases cc : ccOf p with
      | none => simpa using ih
      | some q =>
        simp only [Option.none_or]
        exact List.perm_middle.trans (ih.cons q)

theorem filterMap_pairOf_unique {ps : List (VertexRef × VertexRef)}
    (unique : ps.Pairwise fun p q => ¬ ((p.1 = q.1 ∧ p.2 = q.2) ∨ (p.1 = q.2 ∧ p.2 = q.1))) :
    (ps.filterMap pairOf).Pairwise fun p q => ¬ SamePair p q := by
  refine List.Pairwise.filterMap pairOf ?_ unique
  rintro a a' apart b found b' found' same
  have left := pairOf_over found
  have right := pairOf_over found'
  unfold SamePair at same
  apply apart
  rcases left with ⟨l1, l2⟩ | ⟨l1, l2⟩ <;> rcases right with ⟨r1, r2⟩ | ⟨r1, r2⟩ <;>
    rw [← l1, ← l2, ← r1, ← r2] <;> rcases same with ⟨s1, s2⟩ | ⟨s1, s2⟩ <;> simp [s1, s2]

theorem samePair_symm {p : DAGPair} (same : SamePair p q) : SamePair q p := by
  rcases same with ⟨a, b⟩ | ⟨a, b⟩
  · exact Or.inl ⟨a.symm, b.symm⟩
  · exact Or.inr ⟨b.symm, a.symm⟩

theorem extractPairs_unique (vertices : List DAGVertex) (diag : DagDiag) :
    ((extractPairs vertices diag).hbPairs ++ (extractPairs vertices diag).ccPairs).Pairwise
      fun p q => ¬ SamePair p q := by
  rw [extractPairs_hb, extractPairs_cc]
  refine (List.Perm.pairwise_iff ?_ (produced_perm _)).mpr
    (filterMap_pairOf_unique (pairs_unordered_nodup (nodup_refs vertices)))
  exact fun apart same => apart (samePair_symm same)

theorem extractPairs_hbOK (vertices : List DAGVertex) (diag : DagDiag) :
    ∀ p ∈ (extractPairs vertices diag).hbPairs, HBPairOK p ∧ p.A ∈ refs vertices ∧ p.B ∈ refs vertices := by
  rw [extractPairs_hb]
  intro p member
  obtain ⟨visited, present, found⟩ := List.mem_filterMap.mp member
  obtain ⟨ok, covers⟩ := hbOf_some found
  have inside := Go.mem_of_mem_pairs present
  rcases covers with ⟨a, b⟩ | ⟨a, b⟩
  · exact ⟨ok, a ▸ inside.1, b ▸ inside.2⟩
  · exact ⟨ok, a ▸ inside.2, b ▸ inside.1⟩

theorem extractPairs_ccOK (vertices : List DAGVertex) (diag : DagDiag) :
    ∀ p ∈ (extractPairs vertices diag).ccPairs, CCPairOK p ∧ p.A ∈ refs vertices ∧ p.B ∈ refs vertices := by
  rw [extractPairs_cc]
  intro p member
  obtain ⟨visited, present, found⟩ := List.mem_filterMap.mp member
  obtain ⟨ok, a, b⟩ := ccOf_some found
  have inside := Go.mem_of_mem_pairs present
  exact ⟨ok, a ▸ inside.1, b ▸ inside.2⟩

theorem hb_ordered {vertices : List DAGVertex} (diag : DagDiag) (windows : ∀ v ∈ vertices, v.stime ≤ v.etime) :
    Windows.Ordered (fun r : VertexRef => r.v.stime.toNat) (fun r => r.v.etime.toNat)
      (HB (extractPairs vertices diag).hbPairs) := by
  have proper : ∀ r ∈ refs vertices, r.v.stime.toNat ≤ r.v.etime.toNat := by
    intro r member
    exact UInt64.le_iff_toNat_le.mp (windows _ (List.mem_of_getElem? (mem_refs.mp member)))
  constructor
  · rintro a b ⟨p, member, rfl, rfl⟩
    exact UInt64.lt_iff_toNat_lt.mp (extractPairs_hbOK vertices diag p member).1.before
  · rintro a b ⟨p, member, rfl, rfl⟩
    exact proper _ (extractPairs_hbOK vertices diag p member).2.1
  · rintro a b ⟨p, member, rfl, rfl⟩
    exact proper _ (extractPairs_hbOK vertices diag p member).2.2

/-- The pairs of `ExtractPairs` are a sound partial-order abstraction of the trace, over its
vertices, and the diagnostics say where every pair went. -/
structure SoundAbstraction (vertices : List DAGVertex) (r : ExtractResult) : Prop where
  within : ∀ p ∈ r.hbPairs ++ r.ccPairs, p.A ∈ refs vertices ∧ p.B ∈ refs vertices
  once : (r.hbPairs ++ r.ccPairs).Pairwise fun p q => ¬ SamePair p q
  hb : ∀ p ∈ r.hbPairs, HBPairOK p
  cc : ∀ p ∈ r.ccPairs, CCPairOK p
  irreflexive : ∀ a, ¬ HB r.hbPairs a a
  antisymmetric : ∀ a b, HB r.hbPairs a b → ¬ HB r.hbPairs b a
  acyclic : ∀ a, ¬ Relation.TransGen (HB r.hbPairs) a a
  disjoint : ∀ p ∈ r.hbPairs, ∀ q ∈ r.ccPairs, ¬ SamePair p q
  counted : r.Counted vertices
  balanced : r.diag.Balanced

theorem extractPairs_sound {vertices : List DAGVertex} {diag : DagDiag} (fresh : diag.PairsUncounted)
    (windows : ∀ v ∈ vertices, v.stime ≤ v.etime) :
    SoundAbstraction vertices (extractPairs vertices diag) := by
  have acyclic := (hb_ordered diag windows).acyclic
  have once := extractPairs_unique vertices diag
  constructor
  · intro p member
    cases List.mem_append.mp member with
    | inl inHb => exact (extractPairs_hbOK vertices diag p inHb).2
    | inr inCc => exact (extractPairs_ccOK vertices diag p inCc).2
  · exact once
  · exact fun p member => (extractPairs_hbOK vertices diag p member).1
  · exact fun p member => (extractPairs_ccOK vertices diag p member).1
  · intro a edge
    exact acyclic a (.single edge)
  · intro a b forth back
    exact acyclic a (.tail (.single forth) back)
  · exact acyclic
  · intro p inHb q inCc
    exact (List.pairwise_append.mp once).2.2 p inHb q inCc
  · exact extractPairs_counted vertices fresh
  · exact extractPairs_balanced vertices fresh

def sampleVertices : List DAGVertex :=
  [{ funcID := funcMkdir, path := "merge_view/a", retBucket := .success, stime := 1, etime := 4 },
   { funcID := funcMkdir, path := "merge_view/a", retBucket := .eexist, stime := 2, etime := 5, progIdx := 1 },
   { funcID := funcRead, path := "merge_view/a/f", retBucket := .success, stime := 7, etime := 9, progIdx := 1 }]

theorem extractPairs_sound_sample :
    SoundAbstraction sampleVertices (extractPairs sampleVertices {}) ∧
      ((extractPairs sampleVertices {}).diag.hbPairs, (extractPairs sampleVertices {}).diag.ccPairs) = (1, 1) :=
  ⟨extractPairs_sound ⟨rfl, rfl, rfl⟩ (by decide), by decide⟩

end DfsFuzz.Dag
