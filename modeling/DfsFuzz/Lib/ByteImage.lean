import Mathlib.Algebra.BigOperators.Group.List.Basic
import Mathlib.Data.List.Flatten
import Mathlib.Tactic.Ring

/-!
Bytes of a memory region: little-endian words, the bytes between two offsets and the effect of a
store on them.
-/

namespace Bytes

/-- The `width` low bytes of a number, the lowest first. -/
def le : Nat → Nat → List UInt8
  | 0, _ => []
  | width + 1, n => UInt8.ofNat n :: le width (n / 256)

def ofLe : List UInt8 → Nat
  | [] => 0
  | b :: bs => b.toNat + 256 * ofLe bs

def le32 (v : UInt32) : List UInt8 := le 4 v.toNat

def le64 (v : UInt64) : List UInt8 := le 8 v.toNat

@[simp] theorem length_le (width n : Nat) : (le width n).length = width := by
  induction width generalizing n with
  | zero => rfl
  | succ width ih => simp [le, ih]

@[simp] theorem length_le32 (v : UInt32) : (le32 v).length = 4 := length_le 4 v.toNat

@[simp] theorem length_le64 (v : UInt64) : (le64 v).length = 8 := length_le 8 v.toNat

theorem ofLe_le (width n : Nat) : ofLe (le width n) = n % 256 ^ width := by
  induction width generalizing n with
  | zero => simp [le, ofLe, Nat.mod_one]
  | succ width ih =>
    have low : (UInt8.ofNat n).toNat = n % 256 := UInt8.toNat_ofNat'
    rw [le, ofLe, ih, low, pow_succ' 256 width, Nat.mod_mul]

theorem ofLe_le32 (v : UInt32) : UInt32.ofNat (ofLe (le32 v)) = v := by
  rw [le32, ofLe_le]
  have small : v.toNat < 256 ^ 4 := v.toNat_lt
  rw [Nat.mod_eq_of_lt small, UInt32.ofNat_toNat]

theorem ofLe_le64 (v : UInt64) : UInt64.ofNat (ofLe (le64 v)) = v := by
  rw [le64, ofLe_le]
  have small : v.toNat < 256 ^ 8 := v.toNat_lt
  rw [Nat.mod_eq_of_lt small, UInt64.ofNat_toNat]

/-- The words of an array, one behind the other. -/
def words (vs : List UInt32) : List UInt8 := vs.flatMap le32

@[simp] theorem length_words (vs : List UInt32) : (words vs).length = 4 * vs.length := by
  induction vs with
  | nil => rfl
  | cons v vs ih =>
    simp only [words, List.flatMap_cons, List.length_append, length_le32, List.length_cons] at ih ⊢
    omega

end Bytes

section Sequence
variable {α : Type} {encode : α → List UInt8} {xs : List α}

theorem length_le_flatMap (something : ∀ x ∈ xs, 1 ≤ (encode x).length) : xs.length ≤ (xs.flatMap encode).length := by
  rw [List.length_flatMap]
  have each := List.length_le_sum_of_one_le (xs.map fun x => (encode x).length) (by simpa using something)
  rwa [List.length_map] at each

theorem length_le_flatMap_of_mem {x : α} (member : x ∈ xs) : (encode x).length ≤ (xs.flatMap encode).length :=
  (List.sublist_flatten_of_mem (List.mem_map_of_mem member)).length_le

end Sequence

abbrev Image := Nat → UInt8

namespace Image

def slice (m : Image) (start count : Nat) : List UInt8 := (List.range count).map fun i => m (start + i)

def store (m : Image) (start : Nat) (bs : List UInt8) : Image := fun i =>
  if start ≤ i ∧ i < start + bs.length then bs.getD (i - start) 0 else m i

variable (m : Image)

@[simp] theorem length_slice (start count : Nat) : (m.slice start count).length = count := by
  simp [slice]

theorem slice_add (start a b : Nat) : m.slice start (a + b) = m.slice start a ++ m.slice (start + a) b := by
  simp only [slice, List.range_add, List.map_append, List.map_map, Function.comp_def, Nat.add_assoc]

theorem slice_store_self (start : Nat) (bs : List UInt8) : (m.store start bs).slice start bs.length = bs := by
  apply List.ext_getElem
  · simp
  · intro i inside small
    rw [length_slice] at inside
    simp [slice, store, small]

theorem slice_store_before {start count place : Nat} (bs : List UInt8) (before : start + count ≤ place) :
    (m.store place bs).slice start count = m.slice start count := by
  apply List.map_congr_left
  intro i small
  have below := List.mem_range.mp small
  exact if_neg (by omega)

theorem slice_store_behind {start count place : Nat} {bs : List UInt8} (behind : place + bs.length ≤ start) :
    (m.store place bs).slice start count = m.slice start count := by
  apply List.map_congr_left
  intro i _
  exact if_neg (by omega)

theorem store_store (start : Nat) (a b : List UInt8) :
    (m.store start a).store (start + a.length) b = m.store start (a ++ b) := by
  funext i
  simp only [store, List.length_append, List.getD_eq_getElem?_getD]
  by_cases second : start + a.length ≤ i ∧ i < start + a.length + b.length
  · rw [if_pos second, if_pos (by omega), List.getElem?_append_right (by omega), Nat.sub_sub]
  · rw [if_neg second]
    by_cases first : start ≤ i ∧ i < start + a.length
    · rw [if_pos first, if_pos (by omega), List.getElem?_append_left (by omega)]
    · rw [if_neg first, if_neg (by omega)]

theorem store_changes_iff (start : Nat) (bs : List UInt8) (i : Nat) :
    (∃ m : Image, m.store start bs i ≠ m i) ↔ start ≤ i ∧ i < start + bs.length := by
  constructor
  · rintro ⟨m, changed⟩
    by_contra outside
    exact changed (if_neg outside)
  · intro inside
    let byte := bs.getD (i - start) 0
    have other : byte ≠ if byte = 0 then 1 else 0 := by
      split
      · rename_i zero
        rw [zero]
        decide
      · rename_i nonzero
        exact nonzero
    exact ⟨fun _ => if byte = 0 then 1 else 0, (if_pos inside).trans_ne other⟩

/-- A store over a part of the bytes known so far replaces just that part. -/
theorem slice_patch {before old bs behind : List UInt8} (same : bs.length = old.length)
    (known : m.slice 0 (before.length + (old.length + behind.length)) = before ++ (old ++ behind)) :
    (m.store before.length bs).slice 0 (before.length + (old.length + behind.length)) =
      before ++ (bs ++ behind) := by
  rw [slice_add, slice_add, Nat.zero_add] at known
  obtain ⟨front, rest⟩ := List.append_inj known (by simp)
  obtain ⟨_, back⟩ := List.append_inj rest (by simp)
  have behindKept : (m.store before.length bs).slice (before.length + old.length) behind.length = behind :=
    (slice_store_behind m (by omega)).trans back
  rw [slice_add, slice_add, Nat.zero_add, slice_store_before m bs (by omega), front, behindKept, ← same,
    slice_store_self]

end Image
