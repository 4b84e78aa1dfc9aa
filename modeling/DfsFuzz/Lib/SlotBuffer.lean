import Mathlib.Data.List.Basic
import Mathlib.Data.List.GetD
import Mathlib.Logic.Function.Basic

/-!
A bounded array with a count that is filled again and again from its start: an element may be made of what its slot
held before, so what is in the slots outlives the count.
-/

namespace SlotBuffer

structure Buf (α : Type) where
  slots : Nat → α
  count : Nat

variable {α : Type}

namespace Buf

/-- The next slot is written, unless the array is full. -/
def push (cap : Nat) (b : Buf α) (put : α → α) : Buf α :=
  if cap ≤ b.count then b else ⟨Function.update b.slots b.count (put (b.slots b.count)), b.count + 1⟩

def contents (b : Buf α) : List α := (List.range b.count).map b.slots

/-- An array with new elements in place of the counted ones. -/
def rewrite (b : Buf α) (xs : List α) : Buf α := { b with slots := fun i => xs.getD i (b.slots i) }

def reset (b : Buf α) : Buf α := { b with count := 0 }

end Buf

variable {cap : Nat}

theorem push_full {b : Buf α} (full : b.count = cap) (put : α → α) : b.push cap put = b :=
  if_pos (Nat.le_of_eq full.symm)

theorem foldl_push_full {b : Buf α} (full : b.count = cap) (puts : List (α → α)) : puts.foldl (Buf.push cap) b = b := by
  induction puts with
  | nil => rfl
  | cons put puts ih => rw [List.foldl_cons, push_full full, ih]

/-- The slots that are written, from the count on, are made of what they held; the others stay. -/
theorem foldl_push {b : Buf α} (within : b.count ≤ cap) (puts : List (α → α)) :
    (puts.foldl (Buf.push cap) b).count = min cap (b.count + puts.length) ∧
    ∀ i, (puts.foldl (Buf.push cap) b).slots i =
      if b.count ≤ i ∧ i < cap then (puts.getD (i - b.count) id) (b.slots i) else b.slots i := by
  induction puts generalizing b with
  | nil => exact ⟨(Nat.min_eq_right within).symm, fun i => by simp⟩
  | cons put puts ih =>
    rcases Nat.lt_or_ge b.count cap with free | full
    · have next : b.push cap put = ⟨Function.update b.slots b.count (put (b.slots b.count)), b.count + 1⟩ :=
        if_neg (by omega)
      have count' : (b.push cap put).count = b.count + 1 := by rw [next]
      have slots' : (b.push cap put).slots = Function.update b.slots b.count (put (b.slots b.count)) := by rw [next]
      obtain ⟨count, slots⟩ := ih (b := b.push cap put) (by rw [count']; exact free)
      rw [count'] at count slots
      rw [List.foldl_cons]
      refine ⟨by rw [count, List.length_cons]; omega, fun i => ?_⟩
      rw [slots i, slots']
      rcases Nat.lt_trichotomy i b.count with before | rfl | behind
      · rw [if_neg (by omega), if_neg (by omega), Function.update_of_ne (by omega)]
      · rw [if_neg (by omega), if_pos ⟨Nat.le_refl _, free⟩, Function.update_self, Nat.sub_self, List.getD_cons_zero]
      · have later : i - b.count = i - (b.count + 1) + 1 := by omega
        rw [Function.update_of_ne (by omega), later, List.getD_cons_succ]
        by_cases small : i < cap
        · rw [if_pos ⟨behind, small⟩, if_pos ⟨by omega, small⟩]
        · rw [if_neg (by omega), if_neg (by omega)]
    · have last := Nat.le_antisymm within full
      rw [foldl_push_full last]
      exact ⟨by omega, fun i => by rw [if_neg (by omega)]⟩

theorem contents_fill (b : Buf α) (puts : List (α → α)) :
    (puts.foldl (Buf.push cap) b.reset).contents = (puts.take cap).mapIdx fun i put => put (b.slots i) := by
  obtain ⟨count, slots⟩ := foldl_push (b := b.reset) (Nat.zero_le cap) puts
  have empty : b.reset.count = 0 := rfl
  rw [empty, Nat.zero_add] at count
  refine List.ext_getElem (by simp [Buf.contents, count]) fun i inside inside' => ?_
  have small : i < cap ∧ i < puts.length := by
    rw [List.length_mapIdx, List.length_take] at inside'
    omega
  have slot := slots i
  rw [empty, if_pos ⟨Nat.zero_le i, small.1⟩, Nat.sub_zero, List.getD_eq_getElem _ _ small.2] at slot
  simp only [Buf.contents, List.getElem_map, List.getElem_range, List.getElem_mapIdx, List.getElem_take]
  exact slot

theorem contents_rewrite {b : Buf α} {xs : List α} (same : xs.length = b.count) : (b.rewrite xs).contents = xs := by
  refine List.ext_getElem (by simp [Buf.contents, Buf.rewrite, same]) fun i inside inside' => ?_
  simp only [Buf.contents, List.getElem_map, List.getElem_range, Buf.rewrite]
  exact List.getD_eq_getElem _ _ inside'

end SlotBuffer
