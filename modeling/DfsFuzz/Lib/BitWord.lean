import Mathlib.Algebra.Group.Int.Defs
import Mathlib.Algebra.Group.Nat.Defs
import Mathlib.Data.Nat.Basic
import Mathlib.Tactic.Common

/-! Flags kept in one machine word, set and cleared one bit at a time. -/

namespace DfsFuzz.Lib

variable {w : Nat}

def bit (i : Nat) : BitVec w := 1#w <<< i

def raise (word : BitVec w) (i : Nat) : BitVec w := word ||| bit i

def lower (word : BitVec w) (i : Nat) : BitVec w := word &&& ~~~(bit i)

@[simp] theorem getLsbD_bit (i j : Nat) : (bit i : BitVec w).getLsbD j = (decide (j < w) && decide (i = j)) := by
  simp only [bit, BitVec.getLsbD_shiftLeft, BitVec.getLsbD_one]
  by_cases below : j < w <;> by_cases same : i = j
  · subst same
    simp [below]
    omega
  · simp [below, same]
    omega
  · simp [below]
  · simp [below]

theorem getLsbD_raise (word : BitVec w) (i j : Nat) :
    (raise word i).getLsbD j = (word.getLsbD j || (decide (j < w) && decide (i = j))) := by
  simp [raise]

theorem getLsbD_lower (word : BitVec w) {j : Nat} (i : Nat) (below : j < w) :
    (lower word i).getLsbD j = (word.getLsbD j && !decide (i = j)) := by
  simp only [lower, BitVec.getLsbD_and, BitVec.getLsbD_not, getLsbD_bit, below, decide_true, Bool.true_and]

theorem and_bit_eq_zero_iff (word : BitVec w) (i : Nat) : word &&& bit i = 0#w ↔ word.getLsbD i = false := by
  constructor
  · intro empty
    by_cases below : i < w
    · have read := congrArg (BitVec.getLsbD · i) empty
      simpa only [BitVec.getLsbD_and, getLsbD_bit, below, decide_true, Bool.and_true, BitVec.getLsbD_zero] using read
    · exact BitVec.getLsbD_of_ge _ _ (Nat.le_of_not_lt below)
  · intro clear
    apply BitVec.eq_of_getLsbD_eq
    intro j _
    by_cases same : i = j
    · subst same
      simp [clear]
    · simp [same]

theorem and_eq_self_iff (word mask : BitVec w) :
    word &&& mask = mask ↔ ∀ i, mask.getLsbD i = true → word.getLsbD i = true := by
  constructor
  · intro all i inMask
    have read := congrArg (BitVec.getLsbD · i) all
    simpa [inMask] using read
  · intro all
    apply BitVec.eq_of_getLsbD_eq
    intro i _
    cases inMask : mask.getLsbD i with
    | false => simp [inMask]
    | true => simp [inMask, all i inMask]

theorem and_eq_zero_iff (word mask : BitVec w) :
    word &&& mask = 0#w ↔ ∀ i, mask.getLsbD i = true → word.getLsbD i = false := by
  constructor
  · intro none i inMask
    have read := congrArg (BitVec.getLsbD · i) none
    simpa [inMask] using read
  · intro none
    apply BitVec.eq_of_getLsbD_eq
    intro i _
    cases inMask : mask.getLsbD i with
    | false => simp [inMask]
    | true => simp [none i inMask]

/-- The mask of the lowest `n` bits. -/
theorem getLsbD_lowMask {w n : Nat} (small : n < w) (i : Nat) : ((1#w <<< n) - 1#w).getLsbD i = decide (i < n) := by
  have fits : 2 ^ n < 2 ^ w := Nat.pow_lt_pow_right (by omega) small
  have width : 1 < 2 ^ w := Nat.one_lt_two_pow (by omega)
  have one : (1#w).toNat = 1 := by simp [Nat.mod_eq_of_lt width]
  have shifted : (1#w <<< n).toNat = 2 ^ n := by
    rw [BitVec.toNat_shiftLeft, one, Nat.one_shiftLeft, Nat.mod_eq_of_lt fits]
  have value : ((1#w <<< n) - 1#w).toNat = 2 ^ n - 1 := by
    rw [BitVec.toNat_sub_of_le, shifted, one]
    rw [BitVec.le_def, shifted, one]
    exact Nat.one_le_two_pow
  rw [BitVec.getLsbD, value, Nat.testBit_two_pow_sub_one]

end DfsFuzz.Lib

/-! Arithmetic on `Int64` where no operation wraps. -/

namespace Int64Range

/-- A number that an `Int64` can hold. -/
def InRange (x : Int) : Prop := -2 ^ 63 ≤ x ∧ x < 2 ^ 63

theorem bmod_eq {x : Int} (range : InRange x) : x.bmod (2 ^ 64) = x := by
  obtain ⟨low, high⟩ := range
  exact Int.bmod_eq_of_le (by omega) (by omega)

theorem toInt_sub {a b : Int64} (range : InRange (a.toInt - b.toInt)) : (a - b).toInt = a.toInt - b.toInt := by
  rw [Int64.toInt_sub, bmod_eq range]

theorem toInt_add {a b : Int64} (range : InRange (a.toInt + b.toInt)) : (a + b).toInt = a.toInt + b.toInt := by
  rw [Int64.toInt_add, bmod_eq range]

theorem toInt_neg {a : Int64} (range : InRange (-a.toInt)) : (-a).toInt = -a.toInt := by
  rw [Int64.toInt_neg, bmod_eq range]

theorem toNat_toUInt64 {a : Int64} (nonneg : 0 ≤ a.toInt) : (a.toUInt64.toNat : Int) = a.toInt := by
  have positive : 0 ≤ a := by simpa [Int64.le_iff_toInt_le] using nonneg
  rw [Int64.toNat_toUInt64_of_le positive, ← Int64.toNat_toInt, Int.toNat_of_nonneg nonneg]

end Int64Range
