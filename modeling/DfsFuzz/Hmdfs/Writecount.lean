import DfsFuzz.Dag.Pairs
import DfsFuzz.Lib.BitWord

/-!
The offset buckets of the DAG (`prog/dag.go`) beside what the kernel writes back of a page
(`hmdfs_get_writecount` of `hmdfs/file_remote.c`). The kernel is built with signed numbers that wrap around.
-/

namespace DfsFuzz.Hmdfs

open DfsFuzz.Dag

def hmdfsPageSize : Int64 := 4096
def hmdfsPageOffset : Int64 := 12

/-- The bytes of the page that are written back to the remote file. -/
def hmdfsGetWritecount (pageIndex : UInt64) (iSize : Int64) : UInt32 :=
  let pos := pageIndex.toInt64 <<< hmdfsPageOffset
  if pos ≥ iSize then 0
  else if iSize < pos + hmdfsPageSize then (iSize - pos).toUInt64.toUInt32
  else 4096

/-- What is written back of the page that a vertex is in. -/
def writecountOf (v : DAGVertex) : UInt32 := hmdfsGetWritecount (v.off / writebackBlocksize) v.size.toInt64

def pageStart (off : Nat) : Nat := off / 4096 * 4096

theorem offsetBucketOf_beyond_iff {v : DAGVertex} (offset : isOffsetFunc v.funcID = true) (positive : 0 < v.off) :
    offsetBucketOf v = offsetBucketBeyond ↔ v.off ≥ v.size := by
  have nonzero : v.off ≠ 0 := by
    rintro zero
    rw [zero] at positive
    exact absurd positive (by decide)
  simp only [offsetBucketOf, offset, Bool.not_true, Bool.false_eq_true, if_false, nonzero]
  split_ifs with beyond tail
  · exact iff_of_true rfl beyond
  · exact iff_of_false (by decide) beyond
  · exact iff_of_false (by decide) beyond

/-- Inside the file the bucket says whether the page goes beyond the end. -/
theorem offsetBucketOf_inside {v : DAGVertex} (offset : isOffsetFunc v.funcID = true) (positive : 0 < v.off)
    (inside : v.off < v.size) :
    offsetBucketOf v = if v.size.toNat < pageStart v.off.toNat + 4096 then offsetBucketTail else offsetBucketMid := by
  have nonzero : v.off ≠ 0 := by
    rintro zero
    rw [zero] at positive
    exact absurd positive (by decide)
  have within : v.off.toNat < v.size.toNat := UInt64.lt_iff_toNat_lt.mp inside
  have rest : (v.size % writebackBlocksize).toNat = v.size.toNat % 4096 := UInt64.toNat_mod _ _
  have less : v.size % writebackBlocksize ≤ v.size := by
    rw [UInt64.le_iff_toNat_le, rest]
    exact Nat.mod_le _ _
  have start : (v.size - v.size % writebackBlocksize).toNat = v.size.toNat - v.size.toNat % 4096 := by
    rw [UInt64.toNat_sub_of_le _ _ less, rest]
  have same : (decide (v.size % writebackBlocksize > 0) && decide (v.off ≥ v.size - v.size % writebackBlocksize)) =
      decide (v.size.toNat < pageStart v.off.toNat + 4096) := by
    rw [Bool.eq_iff_iff, Bool.and_eq_true, decide_eq_true_eq, decide_eq_true_eq, decide_eq_true_eq, gt_iff_lt,
      UInt64.lt_iff_toNat_lt, rest, ge_iff_le, UInt64.le_iff_toNat_le, start, pageStart, UInt64.toNat_zero]
    omega
  have notBeyond : ¬ v.off ≥ v.size := UInt64.not_le.mpr inside
  simp only [offsetBucketOf, offset, Bool.not_true, Bool.false_eq_true, if_false, nonzero, notBeyond, same,
    decide_eq_true_eq]

/-! ### The count -/

theorem toInt_toInt64 (n : UInt64) : n.toInt64.toInt = if n.toNat < 2 ^ 63 then (n.toNat : Int) else n.toNat - 2 ^ 64 := by
  have cond : n.toInt64.toInt = _ := BitVec.toInt_eq_toNat_cond n.toBitVec
  rw [cond, UInt64.toNat_toBitVec]
  split_ifs
  · rfl
  · omega
  · omega
  · rfl

theorem toInt_pageShift (off : UInt64) :
    ((off / writebackBlocksize).toInt64 <<< hmdfsPageOffset).toInt =
      if pageStart off.toNat < 2 ^ 63 then (pageStart off.toNat : Int) else pageStart off.toNat - 2 ^ 64 := by
  have bits : ((off / writebackBlocksize).toInt64 <<< hmdfsPageOffset).toBitVec = (off / writebackBlocksize).toBitVec <<< 12 := by
    rw [Int64.toBitVec_shiftLeft]
    rfl
  have page : (off / writebackBlocksize).toNat = off.toNat / 4096 := UInt64.toNat_div _ _
  have small := off.toNat_lt
  have shifted : ((off / writebackBlocksize).toBitVec <<< 12).toNat = pageStart off.toNat := by
    rw [BitVec.toNat_shiftLeft, UInt64.toNat_toBitVec, page, Nat.shiftLeft_eq, pageStart]
    exact Nat.mod_eq_of_lt (by omega)
  have cond : ((off / writebackBlocksize).toInt64 <<< hmdfsPageOffset).toInt = _ :=
    BitVec.toInt_eq_toNat_cond ((off / writebackBlocksize).toInt64 <<< hmdfsPageOffset).toBitVec
  rw [cond, bits, shifted]
  split_ifs
  · rfl
  · omega
  · omega
  · rfl

/-- What is written back of the page, with the two ways in which the signed numbers go wrong: a size that is
negative, and the last page before the largest number, whose end wraps around. -/
theorem toNat_writecountOf {v : DAGVertex} (inside : v.off < v.size) :
    (writecountOf v).toNat =
      if 2 ^ 63 ≤ v.size.toNat ∧ v.off.toNat < 2 ^ 63 then 0
      else if 2 ^ 63 - 4096 ≤ v.off.toNat ∧ v.off.toNat < 2 ^ 63 then 4096
      else min 4096 (v.size.toNat - pageStart v.off.toNat) := by
  have within : v.off.toNat < v.size.toNat := UInt64.lt_iff_toNat_lt.mp inside
  have smallSize := v.size.toNat_lt
  have start : pageStart v.off.toNat = v.off.toNat / 4096 * 4096 := rfl
  have position := toInt_pageShift v.off
  have size := toInt_toInt64 v.size
  have pageSize : hmdfsPageSize.toInt = 4096 := rfl
  unfold writecountOf hmdfsGetWritecount
  dsimp only
  generalize (v.off / writebackBlocksize).toInt64 <<< hmdfsPageOffset = pos at position ⊢
  generalize v.size.toInt64 = iSize at size ⊢
  generalize pageStart v.off.toNat = P at start position ⊢
  by_cases negative : 2 ^ 63 ≤ v.size.toNat ∧ v.off.toNat < 2 ^ 63
  · have below : iSize.toInt = v.size.toNat - 2 ^ 64 := by rw [size, if_neg (by omega)]
    have above : pos.toInt = P := by rw [position, if_pos (by omega)]
    have beyond : pos ≥ iSize := by
      rw [ge_iff_le, Int64.le_iff_toInt_le, below, above]
      omega
    rw [if_pos beyond, if_pos negative]
    rfl
  · -- the two numbers are read in the same half, so that they are in the order of their bits
    have apart : iSize.toInt - pos.toInt = v.size.toNat - P := by
      rw [position, size]
      split_ifs
      · rfl
      · omega
      · omega
      · omega
    have notBeyond : ¬ pos ≥ iSize := by
      rw [ge_iff_le, Int64.le_iff_toInt_le]
      omega
    rw [if_neg notBeyond, if_neg negative]
    by_cases wraps : 2 ^ 63 - 4096 ≤ v.off.toNat ∧ v.off.toNat < 2 ^ 63
    · have last : pos.toInt = 2 ^ 63 - 4096 := by
        rw [position, if_pos (by omega)]
        omega
      have wrapped : (pos + hmdfsPageSize).toInt = -2 ^ 63 := by
        rw [Int64.toInt_add, last, pageSize]
        decide
      have notShort : ¬ iSize < pos + hmdfsPageSize := by
        rw [Int64.lt_iff_toInt_lt, wrapped]
        have := iSize.le_toInt
        omega
      rw [if_neg notShort, if_pos wraps]
      rfl
    · have fits : Int64Range.InRange (pos.toInt + hmdfsPageSize.toInt) := by
        rw [position, pageSize, Int64Range.InRange]
        split_ifs
        · omega
        · omega
      have ends : (pos + hmdfsPageSize).toInt = pos.toInt + 4096 := Int64Range.toInt_add fits
      rw [if_neg wraps]
      by_cases short : iSize < pos + hmdfsPageSize
      · rw [if_pos short]
        rw [Int64.lt_iff_toInt_lt, ends] at short
        have difference : (iSize - pos).toInt = v.size.toNat - P := by
          rw [Int64Range.toInt_sub ⟨by omega, by omega⟩, apart]
        have bits : ((iSize - pos).toUInt64.toNat : Int) = v.size.toNat - P := by
          rw [Int64Range.toNat_toUInt64 (by omega), difference]
        rw [UInt64.toNat_toUInt32, Nat.mod_eq_of_lt (by omega)]
        omega
      · rw [if_neg short]
        rw [Int64.lt_iff_toInt_lt, ends] at short
        rw [Nat.min_eq_left (by omega)]
        rfl

/-! ### The buckets -/

/-- The bucket of an offset tells what is written back of its page. -/
structure Mirrors (v : DAGVertex) : Prop where
  beyond : offsetBucketOf v = offsetBucketBeyond ↔ v.off ≥ v.size
  tail : v.off < v.size → (offsetBucketOf v = offsetBucketTail ↔ 0 < writecountOf v ∧ writecountOf v < 4096)
  mid : v.off < v.size → (offsetBucketOf v = offsetBucketMid ↔ writecountOf v = 4096)

/-- The signed numbers of the kernel hold the size and the end of the page, or read both as negative. -/
def Readable (off size : UInt64) : Prop :=
  2 ^ 63 ≤ off.toNat ∨ size.toNat < 2 ^ 63 ∧ off.toNat < 2 ^ 63 - 4096

theorem pageStart_le (off : Nat) : pageStart off ≤ off := by
  unfold pageStart
  omega

theorem toNat_writecountOf_readable {v : DAGVertex} (inside : v.off < v.size) (read : Readable v.off v.size) :
    (writecountOf v).toNat = min 4096 (v.size.toNat - pageStart v.off.toNat) := by
  have within : v.off.toNat < v.size.toNat := UInt64.lt_iff_toNat_lt.mp inside
  unfold Readable at read
  rw [toNat_writecountOf inside, if_neg (by omega), if_neg (by omega)]

theorem tail_iff {v : DAGVertex} (offset : isOffsetFunc v.funcID = true) (positive : 0 < v.off) (inside : v.off < v.size) :
    offsetBucketOf v = offsetBucketTail ↔ v.size.toNat < pageStart v.off.toNat + 4096 := by
  rw [offsetBucketOf_inside offset positive inside]
  split_ifs with short
  · exact iff_of_true rfl short
  · exact iff_of_false (by decide) short

theorem mid_iff {v : DAGVertex} (offset : isOffsetFunc v.funcID = true) (positive : 0 < v.off) (inside : v.off < v.size) :
    offsetBucketOf v = offsetBucketMid ↔ pageStart v.off.toNat + 4096 ≤ v.size.toNat := by
  rw [offsetBucketOf_inside offset positive inside]
  split_ifs with short
  · exact iff_of_false (by decide) (Nat.not_le.mpr short)
  · exact iff_of_true rfl (Nat.not_lt.mp short)

theorem partial_iff (v : DAGVertex) :
    0 < writecountOf v ∧ writecountOf v < 4096 ↔ 0 < (writecountOf v).toNat ∧ (writecountOf v).toNat < 4096 := by
  rw [UInt32.lt_iff_toNat_lt, UInt32.lt_iff_toNat_lt]
  rfl

theorem whole_iff (v : DAGVertex) : writecountOf v = 4096 ↔ (writecountOf v).toNat = 4096 := UInt32.toNat_inj.symm

/-- The buckets mirror the kernel exactly where it can read the numbers. -/
theorem offsetBucket_mirrors_iff {v : DAGVertex} (offset : isOffsetFunc v.funcID = true) (positive : 0 < v.off) :
    Mirrors v ↔ (v.off < v.size → Readable v.off v.size) := by
  constructor
  · intro mirrors inside
    have within : v.off.toNat < v.size.toNat := UInt64.lt_iff_toNat_lt.mp inside
    have tail := mirrors.tail inside
    have mid := mirrors.mid inside
    rw [tail_iff offset positive inside, partial_iff, toNat_writecountOf inside] at tail
    rw [mid_iff offset positive inside, whole_iff, toNat_writecountOf inside] at mid
    by_contra unread
    unfold Readable at unread
    by_cases negative : 2 ^ 63 ≤ v.size.toNat
    · -- nothing is written back, which is neither of the two
      rw [if_pos ⟨negative, by omega⟩] at tail mid
      omega
    · -- the end of the last page wraps around, and all of it is written back
      have short : v.size.toNat < pageStart v.off.toNat + 4096 := by
        unfold pageStart
        omega
      have count := tail.mp short
      rw [if_neg (by omega), if_pos (by omega)] at count
      omega
  · intro readable
    have within (inside : v.off < v.size) : pageStart v.off.toNat < v.size.toNat :=
      Nat.lt_of_le_of_lt (pageStart_le _) (UInt64.lt_iff_toNat_lt.mp inside)
    refine ⟨offsetBucketOf_beyond_iff offset positive, fun inside => ?_, fun inside => ?_⟩
    · have some := within inside
      rw [tail_iff offset positive inside, partial_iff, toNat_writecountOf_readable inside (readable inside)]
      omega
    · have some := within inside
      rw [mid_iff offset positive inside, whole_iff, toNat_writecountOf_readable inside (readable inside)]
      omega

/-- In the last page of a file of 5000 bytes. -/
theorem offsetBucket_mirrors_last : Mirrors { funcID := funcWrite, retBucket := .success, off := 4999, size := 5000 } :=
  (offsetBucket_mirrors_iff (by decide) (by decide)).mpr fun _ => .inr (by decide)

/-- In a file of `2 ^ 63 - 1` bytes the end of the last page wraps around, and the kernel writes back more than it has. -/
theorem writecount_wraps : ¬ ∀ v, isOffsetFunc v.funcID = true → 0 < v.off → Mirrors v := by
  intro claim
  have mirrors := claim
    { funcID := funcWrite, retBucket := .success, off := 9223372036854775806, size := 9223372036854775807 }
    (by decide +kernel) (by decide +kernel)
  exact absurd ((mirrors.tail (by decide +kernel)).mp (by decide +kernel)).2 (by decide +kernel)

end DfsFuzz.Hmdfs
