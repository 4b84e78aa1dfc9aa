import DfsFuzz.Generate.InsertDct
import DfsFuzz.Lib.BestScan
import DfsFuzz.Lib.BitWord
import Mathlib.Algebra.Order.Group.Unbundled.Abs
import Mathlib.Algebra.Order.Group.Int
import Mathlib.Data.List.Range

/-!
Where a variant goes by the times of the calls: the boundary nearest to a reference time, and the
first one behind it (`prog/mutation.go`). A -1 of the source is `none`.
-/

namespace DfsFuzz.Generate

open DfsFuzz.Mutation

/-- The call in front of boundary `j` was executed. -/
def boundaryTimed (etime : Nat → Option UInt64) (calls : List CallObj) (j : Nat) : Bool :=
  decide (0 < j) && (calls[j - 1]?.bind fun o => etime o.ref).isSome

def distance (refTime : Int64) (t : UInt64) : UInt64 :=
  if t ≥ refTime.toUInt64 then t - refTime.toUInt64 else refTime.toUInt64 - t

/-- `TimeAlignedInsertPos` restricted to `[start, stop]`. -/
def timeAlignedInRange (etime : Nat → Option UInt64) (refTime tscoff : Int64) (calls : List CallObj) (start stop : Nat) :
    Option Nat :=
  let boundaries := List.range' start (stop + 1 - start)
  if refTime < 0 || decide (start > stop) then none
  else if !(boundaries.any (boundaryTimed etime calls)) then none
  else (BestScan.best (fun j => (boundaryTime etime tscoff calls j).map (distance refTime)) boundaries).map Prod.fst

def posOf : Option Nat → Int
  | none => -1
  | some j => j

/-! ### What the positions are -/

/-- The time of boundary `j`, with its sign. -/
def boundaryAt (etime : Nat → Option UInt64) (tscoff : Int64) (calls : List CallObj) (j : Nat) : Option Int :=
  (boundaryTime etime tscoff calls j).map fun t => t.toInt64.toInt

section Laws

variable (etime : Nat → Option UInt64) (refTime tscoff : Int64) (calls : List CallObj)

def TimedIn (start stop : Nat) : Prop := ∃ j, start ≤ j ∧ j ≤ stop ∧ boundaryTimed etime calls j = true

def NonNegativeIn (start stop : Nat) : Prop :=
  ∀ j t, start ≤ j → j ≤ stop → boundaryAt etime tscoff calls j = some t → 0 ≤ t

def RanInOrder : Prop :=
  ∀ i j t u, i ≤ j → j ≤ calls.length → boundaryAt etime tscoff calls i = some t →
    boundaryAt etime tscoff calls j = some u → t ≤ u

/-- `j` is the first timed position of the range at the least distance. -/
structure IsAligned (start stop j : Nat) (t : Int) : Prop where
  inside : start ≤ j ∧ j ≤ stop
  time : boundaryAt etime tscoff calls j = some t
  least : ∀ i u, start ≤ i → i ≤ stop → boundaryAt etime tscoff calls i = some u → |t - refTime.toInt| ≤ |u - refTime.toInt|
  first : ∀ i u, start ≤ i → i < j → boundaryAt etime tscoff calls i = some u → |t - refTime.toInt| < |u - refTime.toInt|

/-- `j` is the first timed position at or after the reference, or the end where there is none. -/
def IsFirstAfter (j : Nat) : Prop :=
  (∀ i u, i < j → boundaryAt etime tscoff calls i = some u → u < refTime.toInt) ∧
  ((∃ t, j ≤ calls.length ∧ boundaryAt etime tscoff calls j = some t ∧ refTime.toInt ≤ t) ∨
    (j = calls.length ∧ ∀ u, boundaryAt etime tscoff calls j = some u → u < refTime.toInt))

structure AlignedLaw (start stop : Nat) : Prop where
  untimed : timeAlignedInRange etime refTime tscoff calls start stop = none ↔ ¬ TimedIn etime calls start stop
  timed : ∀ j, timeAlignedInRange etime refTime tscoff calls start stop = some j →
    ∃ t, IsAligned etime refTime tscoff calls start stop j t

structure FirstAfterLaw : Prop where
  untimed : firstBoundaryAfter etime refTime tscoff calls = none ↔ ¬ TimedIn etime calls 0 calls.length
  timed : ∀ j, firstBoundaryAfter etime refTime tscoff calls = some j → IsFirstAfter etime refTime tscoff calls j

end Laws

variable {etime : Nat → Option UInt64} {refTime tscoff : Int64} {calls : List CallObj}

variable (tscoff) in
theorem boundaryAt_timed {j : Nat} (timed : boundaryTimed etime calls j = true) :
    ∃ t, boundaryTime etime tscoff calls j = some t := by
  simp only [boundaryTimed, Bool.and_eq_true, decide_eq_true_eq] at timed
  obtain ⟨t, read⟩ := Option.isSome_iff_exists.mp timed.2
  refine ⟨(t.toInt64 - tscoff).toUInt64, ?_⟩
  rw [boundaryTime, if_neg (by omega), read, Option.map_some]

theorem any_boundaryTimed {start stop : Nat} :
    (List.range' start (stop + 1 - start)).any (boundaryTimed etime calls) = true ↔ TimedIn etime calls start stop := by
  rw [List.any_eq_true]
  constructor
  · rintro ⟨j, member, timed⟩
    rw [List.mem_range'_1] at member
    exact ⟨j, by omega, by omega, timed⟩
  · rintro ⟨j, low, high, timed⟩
    exact ⟨j, List.mem_range'_1.mpr (by omega), timed⟩

/-- Between non-negative times the distance is the one of the integers. -/
theorem distance_toNat {t : UInt64} (causal : 0 ≤ refTime.toInt) (nonneg : 0 ≤ t.toInt64.toInt) :
    ((distance refTime t).toNat : Int) = |t.toInt64.toInt - refTime.toInt| := by
  have time : (t.toNat : Int) = t.toInt64.toInt := Int64Range.toNat_toUInt64 nonneg
  have ref : (refTime.toUInt64.toNat : Int) = refTime.toInt := Int64Range.toNat_toUInt64 causal
  unfold distance
  split
  · rename_i after
    have later : refTime.toUInt64.toNat ≤ t.toNat := UInt64.le_iff_toNat_le.mp after
    rw [UInt64.toNat_sub_of_le _ _ after, Int.ofNat_sub later, time, ref, abs_of_nonneg (by omega)]
  · rename_i before
    have earlier : t.toNat < refTime.toUInt64.toNat := by
      rw [ge_iff_le, UInt64.le_iff_toNat_le] at before
      omega
    have le : t ≤ refTime.toUInt64 := UInt64.le_iff_toNat_le.mpr (by omega)
    rw [UInt64.toNat_sub_of_le _ _ le, Int.ofNat_sub (by omega), time, ref, abs_of_neg (by omega)]
    omega

theorem not_negative (causal : 0 ≤ refTime.toInt) : ¬ refTime < 0 := by
  simpa [Int64.lt_iff_toInt_lt] using causal

variable (refTime tscoff) in
theorem timeAlignedInRange_none {start stop : Nat}
    (untimed : ¬ TimedIn etime calls start stop) : timeAlignedInRange etime refTime tscoff calls start stop = none := by
  have noAnchor : (List.range' start (stop + 1 - start)).any (boundaryTimed etime calls) = false :=
    Bool.eq_false_iff.mpr fun anchored => untimed (any_boundaryTimed.mp anchored)
  simp [timeAlignedInRange, noAnchor]

variable (tscoff) in
theorem timeAlignedInRange_scan (causal : 0 ≤ refTime.toInt) {start stop : Nat} (timed : TimedIn etime calls start stop) :
    timeAlignedInRange etime refTime tscoff calls start stop =
      (BestScan.best (fun j => (boundaryTime etime tscoff calls j).map (distance refTime))
        (List.range' start (stop + 1 - start))).map Prod.fst := by
  have anchored := any_boundaryTimed.mpr timed
  obtain ⟨j, low, high, _⟩ := timed
  have ordered : ¬ start > stop := by omega
  simp [timeAlignedInRange, anchored, not_negative causal, ordered]

theorem timeAlignedInRange_law (causal : 0 ≤ refTime.toInt) {start stop : Nat}
    (nonneg : NonNegativeIn etime tscoff calls start stop) : AlignedLaw etime refTime tscoff calls start stop := by
  by_cases timed : TimedIn etime calls start stop
  · have scan := timeAlignedInRange_scan tscoff causal timed
    have found := BestScan.best_found (fun j => (boundaryTime etime tscoff calls j).map (distance refTime))
      (List.range' start (stop + 1 - start))
    have ordered : (List.range' start (stop + 1 - start)).Pairwise (· < ·) := List.pairwise_lt_range'
    obtain ⟨anchor, low, high, anchored⟩ := timed
    cases best : BestScan.best (fun j => (boundaryTime etime tscoff calls j).map (distance refTime))
        (List.range' start (stop + 1 - start)) with
    | none =>
      rw [best] at found
      obtain ⟨t, time⟩ := boundaryAt_timed tscoff anchored
      have unscored := found anchor (List.mem_range'_1.mpr (by omega))
      simp [time] at unscored
    | some entry =>
      obtain ⟨j, d⟩ := entry
      rw [best] at found scan
      have isBest : BestScan.IsBest _ _ j d := found
      obtain ⟨t, time, far⟩ := Option.map_eq_some_iff.mp isBest.scored
      have member : j ∈ List.range' start (stop + 1 - start) := by
        obtain ⟨pre, post, split, _⟩ := isBest.first
        simp [split]
      have inside := List.mem_range'_1.mp member
      have at_ : boundaryAt etime tscoff calls j = some t.toInt64.toInt := by simp [boundaryAt, time]
      have near := distance_toNat causal (nonneg j _ inside.1 (by omega) at_)
      rw [far] at near
      refine ⟨⟨fun missing => ?_, fun untimed => absurd ⟨anchor, low, high, anchored⟩ untimed⟩, ?_⟩
      · rw [scan] at missing
        cases missing
      · intro j' taken
        rw [scan] at taken
        cases taken
        have other : ∀ i u, start ≤ i → i ≤ stop → boundaryAt etime tscoff calls i = some u →
            ∃ e : UInt64, (boundaryTime etime tscoff calls i).map (distance refTime) = some e ∧
              (e.toNat : Int) = |u - refTime.toInt| := by
          intro i u low high read
          obtain ⟨t', time', same⟩ := Option.map_eq_some_iff.mp read
          have positive := nonneg i u low high read
          subst same
          exact ⟨_, by rw [time', Option.map_some], distance_toNat causal positive⟩
        refine ⟨t.toInt64.toInt, ⟨inside.1, by omega⟩, at_, ?_, ?_⟩
        · intro i u low high read
          obtain ⟨e, scored, same⟩ := other i u low high read
          have least : d ≤ e := isBest.least i (List.mem_range'_1.mpr (by omega)) e scored
          have := UInt64.le_iff_toNat_le.mp least
          omega
        · intro i u low before read
          obtain ⟨e, scored, same⟩ := other i u low (by omega) read
          have less : d < e := isBest.first_of_pairwise ordered (fun a b => Nat.lt_asymm)
            (List.mem_range'_1.mpr (by omega)) before scored
          have := UInt64.lt_iff_toNat_lt.mp less
          omega
  · have none_ := timeAlignedInRange_none refTime tscoff timed
    refine ⟨⟨fun _ => timed, fun _ => none_⟩, fun j taken => ?_⟩
    rw [none_] at taken
    cases taken

/-! ### The whole program -/

theorem hasTiming_iff : hasTiming etime calls = true ↔ TimedIn etime calls 0 calls.length := by
  rw [hasTiming, List.any_eq_true]
  constructor
  · rintro ⟨o, member, timed⟩
    obtain ⟨k, bound, same⟩ := List.mem_iff_getElem.mp member
    refine ⟨k + 1, Nat.zero_le _, by omega, ?_⟩
    simp [boundaryTimed, List.getElem?_eq_getElem bound, same, timed]
  · rintro ⟨j, _, _, timed⟩
    simp only [boundaryTimed, Bool.and_eq_true, decide_eq_true_eq] at timed
    obtain ⟨t, read⟩ := Option.isSome_iff_exists.mp timed.2
    obtain ⟨o, found, executed⟩ := Option.bind_eq_some_iff.mp read
    exact ⟨o, List.mem_of_getElem? found, by simp [executed]⟩

theorem timeAlignedInsertPos_scan (causal : 0 ≤ refTime.toInt) (timed : hasTiming etime calls = true) :
    timeAlignedInsertPos etime refTime tscoff calls =
      (BestScan.best (fun j => (boundaryTime etime tscoff calls j).map (distance refTime))
        (List.range (calls.length + 1))).map Prod.fst := by
  simp only [timeAlignedInsertPos, timed, not_negative causal, Bool.not_true, Bool.or_false, decide_false,
    Bool.false_eq_true, if_false, BestScan.best]
  congr 1
  refine List.foldl_ext _ _ _ fun best j _ => ?_
  cases time : boundaryTime etime tscoff calls j with
  | none => simp [BestScan.bestStep, time]
  | some t =>
    cases best with
    | none => simp [BestScan.bestStep, time, distance]
    | some entry => simp [BestScan.bestStep, time, distance]

variable (tscoff calls) in
/-- `TimeAlignedInsertPos` is the search in the whole program. -/
theorem timeAlignedInsertPos_eq (etime : Nat → Option UInt64) (causal : 0 ≤ refTime.toInt) :
    timeAlignedInsertPos etime refTime tscoff calls = timeAlignedInRange etime refTime tscoff calls 0 calls.length := by
  cases timed : hasTiming etime calls with
  | false =>
    have untimed : ¬ TimedIn etime calls 0 calls.length := fun anchored => by
      rw [hasTiming_iff.mpr anchored] at timed
      cases timed
    rw [timeAlignedInRange_none refTime tscoff untimed]
    simp [timeAlignedInsertPos, timed]
  | true =>
    rw [timeAlignedInsertPos_scan causal timed, timeAlignedInRange_scan tscoff causal (hasTiming_iff.mp timed),
      List.range_eq_range', Nat.sub_zero]

/-- The test of `firstBoundaryAfter` at one boundary. -/
theorem after_iff {j : Nat} :
    ((boundaryTime etime tscoff calls j).map fun t => decide (refTime ≤ t.toInt64)).getD false = true ↔
      ∃ t, boundaryAt etime tscoff calls j = some t ∧ refTime.toInt ≤ t := by
  cases time : boundaryTime etime tscoff calls j with
  | none => simp [boundaryAt, time]
  | some t => simp [boundaryAt, time, Int64.le_iff_toInt_le]

theorem firstBoundaryAfter_timed (causal : 0 ≤ refTime.toInt) (timed : hasTiming etime calls = true) {j : Nat}
    (taken : firstBoundaryAfter etime refTime tscoff calls = some j) : IsFirstAfter etime refTime tscoff calls j := by
  simp only [firstBoundaryAfter, timed, not_negative causal, Bool.not_true, Bool.or_false, decide_false,
    Bool.false_eq_true, if_false, Option.some.injEq] at taken
  have before : ∀ i, ¬ (∃ t, boundaryAt etime tscoff calls i = some t ∧ refTime.toInt ≤ t) →
      ∀ u, boundaryAt etime tscoff calls i = some u → u < refTime.toInt := by
    intro i early u read
    exact Int.not_le.mp fun late => early ⟨u, read, late⟩
  cases search : (List.range (calls.length + 1)).find? fun j =>
      ((boundaryTime etime tscoff calls j).map fun t => decide (refTime ≤ t.toInt64)).getD false with
  | none =>
    rw [search, Option.getD_none] at taken
    subst taken
    have early : ∀ i, i < calls.length + 1 → ∀ u, boundaryAt etime tscoff calls i = some u → u < refTime.toInt := by
      intro i inside
      refine before i fun late => ?_
      exact absurd (after_iff.mpr late) (List.find?_eq_none.mp search i (List.mem_range.mpr inside))
    exact ⟨fun i u inside => early i (by omega) u, .inr ⟨rfl, early _ (by omega)⟩⟩
  | some k =>
    rw [search, Option.getD_some] at taken
    subst taken
    obtain ⟨late, member, early⟩ := List.find?_range_eq_some.mp search
    obtain ⟨t, time, after⟩ := after_iff.mp late
    refine ⟨fun i u inside => before i (fun late => ?_) u, .inl ⟨t, by have := List.mem_range.mp member; omega, time, after⟩⟩
    have notLate := early i inside
    rw [after_iff.mpr late] at notLate
    cases notLate

variable (tscoff calls) in
theorem firstBoundaryAfter_law (etime : Nat → Option UInt64) (causal : 0 ≤ refTime.toInt) : FirstAfterLaw etime refTime tscoff calls := by
  cases timed : hasTiming etime calls with
  | false =>
    have untimed : ¬ TimedIn etime calls 0 calls.length := fun anchored => by
      rw [hasTiming_iff.mpr anchored] at timed
      cases timed
    have none_ : firstBoundaryAfter etime refTime tscoff calls = none := by simp [firstBoundaryAfter, timed]
    refine ⟨⟨fun _ => untimed, fun _ => none_⟩, fun j taken => ?_⟩
    rw [none_] at taken
    cases taken
  | true =>
    refine ⟨⟨fun missing => ?_, fun untimed => absurd (hasTiming_iff.mp timed) untimed⟩,
      fun j => firstBoundaryAfter_timed causal timed⟩
    simp [firstBoundaryAfter, timed, not_negative causal] at missing

/-- Where the calls ran in order, the aligned position is not behind the causal one, or it lies before
the reference. -/
theorem aligned_before_causal (causal : 0 ≤ refTime.toInt) (nonneg : NonNegativeIn etime tscoff calls 0 calls.length)
    (ordered : RanInOrder etime tscoff calls) :
    posOf (timeAlignedInsertPos etime refTime tscoff calls) ≤ posOf (firstBoundaryAfter etime refTime tscoff calls) ∨
      ∃ j t, timeAlignedInsertPos etime refTime tscoff calls = some j ∧ boundaryAt etime tscoff calls j = some t ∧
        t < refTime.toInt := by
  have aligned := timeAlignedInRange_law causal nonneg
  have after := firstBoundaryAfter_law tscoff calls etime causal
  have whole := timeAlignedInsertPos_eq tscoff calls etime causal
  cases causalPos : firstBoundaryAfter etime refTime tscoff calls with
  | none =>
    rw [whole, aligned.untimed.mpr (after.untimed.mp causalPos)]
    exact .inl le_rfl
  | some k =>
    cases alignedPos : timeAlignedInsertPos etime refTime tscoff calls with
    | none =>
      refine .inl ?_
      simp only [posOf]
      omega
    | some j =>
      obtain ⟨t, is⟩ := aligned.timed j (whole.symm.trans alignedPos)
      by_cases early : t < refTime.toInt
      · exact .inr ⟨j, t, rfl, is.time, early⟩
      · have notBehind : j ≤ k := by
          rcases (after.timed k causalPos).2 with ⟨u, inside, time, late⟩ | ⟨atEnd, _⟩
          · by_contra behind
            -- both lie at or after the reference, and `k` is in front of `j`, so `j` would not be the first
            have order := ordered k j u t (by omega) is.inside.2 time is.time
            have nearer := is.first k u (Nat.zero_le k) (by omega) time
            rw [abs_of_nonneg (by omega), abs_of_nonneg (by omega)] at nearer
            omega
          · have := is.inside.2
            omega
        refine .inl ?_
        simp only [posOf]
        omega

theorem aligned_positions (etime : Nat → Option UInt64) (refTime tscoff : Int64) (calls : List CallObj)
    (causal : 0 ≤ refTime.toInt) :
    (∀ start stop, stop ≤ calls.length → NonNegativeIn etime tscoff calls start stop →
      AlignedLaw etime refTime tscoff calls start stop) ∧
    FirstAfterLaw etime refTime tscoff calls ∧
    (NonNegativeIn etime tscoff calls 0 calls.length → RanInOrder etime tscoff calls →
      posOf (timeAlignedInsertPos etime refTime tscoff calls) ≤ posOf (firstBoundaryAfter etime refTime tscoff calls) ∨
        ∃ j t, timeAlignedInsertPos etime refTime tscoff calls = some j ∧ boundaryAt etime tscoff calls j = some t ∧
          t < refTime.toInt) :=
  ⟨fun _ _ _ nonneg => timeAlignedInRange_law causal nonneg, firstBoundaryAfter_law tscoff calls etime causal,
    fun nonneg ordered => aligned_before_causal causal nonneg ordered⟩

def ranCalls : List CallObj :=
  [⟨0, { name := "creat", args := [], ret := none }⟩, ⟨1, { name := "close", args := [], ret := none }⟩]

def ranEtime (ref : Nat) : Option UInt64 := some (300 + 400 * ref.toUInt64)

theorem boundaryAt_ranCalls {j : Nat} {t : Int} (inside : j ≤ 2) (time : boundaryAt ranEtime 0 ranCalls j = some t) :
    (j = 0 ∧ t = 0) ∨ (j = 1 ∧ t = 300) ∨ (j = 2 ∧ t = 700) := by
  have start : boundaryAt ranEtime 0 ranCalls 0 = some 0 := by decide
  have middle : boundaryAt ranEtime 0 ranCalls 1 = some 300 := by decide
  have stop : boundaryAt ranEtime 0 ranCalls 2 = some 700 := by decide
  obtain rfl | rfl | rfl : j = 0 ∨ j = 1 ∨ j = 2 := by omega
  · exact .inl ⟨rfl, Option.some.inj (time.symm.trans start)⟩
  · exact .inr (.inl ⟨rfl, Option.some.inj (time.symm.trans middle)⟩)
  · exact .inr (.inr ⟨rfl, Option.some.inj (time.symm.trans stop)⟩)

theorem aligned_positions_ranCalls :
    (0 : Int) ≤ (650 : Int64).toInt ∧ AlignedLaw ranEtime 650 0 ranCalls 0 2 ∧ FirstAfterLaw ranEtime 650 0 ranCalls ∧
    (posOf (timeAlignedInsertPos ranEtime 650 0 ranCalls) ≤ posOf (firstBoundaryAfter ranEtime 650 0 ranCalls) ∨
      ∃ j t, timeAlignedInsertPos ranEtime 650 0 ranCalls = some j ∧ boundaryAt ranEtime 0 ranCalls j = some t ∧
        t < (650 : Int64).toInt) := by
  have nonneg : NonNegativeIn ranEtime 0 ranCalls 0 2 := by
    intro j t _ inside time
    have known := boundaryAt_ranCalls inside time
    omega
  have ordered : RanInOrder ranEtime 0 ranCalls := by
    intro i j t u before inside first second
    have low := boundaryAt_ranCalls (before.trans inside) first
    have high := boundaryAt_ranCalls inside second
    omega
  have positions := aligned_positions ranEtime 650 0 ranCalls (by decide)
  exact ⟨by decide, positions.1 0 2 le_rfl nonneg, positions.2.1, positions.2.2 nonneg ordered⟩

/-- Where no call was executed there is no position, not even the end of the program. -/
theorem firstBoundaryAfter_noAnchor :
    ¬ ∀ (etime : Nat → Option UInt64) (refTime tscoff : Int64) (calls : List CallObj), 0 ≤ refTime.toInt →
      ∃ j, firstBoundaryAfter etime refTime tscoff calls = some j ∧ IsFirstAfter etime refTime tscoff calls j := by
  intro always
  obtain ⟨j, found, _⟩ := always (fun _ => none) 5 0 [] (by decide)
  have missing : firstBoundaryAfter (fun _ => none) 5 0 [] = none := by decide
  rw [missing] at found
  cases found

end DfsFuzz.Generate
