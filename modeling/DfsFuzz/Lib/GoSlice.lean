import Mathlib.Data.List.Basic
import Mathlib.Data.List.Induction

/-!
A Go slice that grows while pointers to its elements are taken: an append to a full array copies the
elements to a new one, and a pointer taken before keeps pointing to the old one. Slices that are held as
values, with a length of their own: a copy that is appended to leaves the original as long as it was.
-/

namespace Go

/-- The capacity that an append to a full slice of the given length makes. -/
structure Growth where
  cap : Nat → Nat
  lt : ∀ n, n < cap n

def Growth.doubling : Growth := ⟨fun n => max 1 (2 * n), fun n => by omega⟩

/-- All arrays that one slice has had; the slice is the whole of the last. -/
structure Grown (α : Type) where
  arrays : List (List α) := []
  cap : Nat := 0

structure ElemPtr where
  array : Nat
  index : Nat
deriving DecidableEq

/-- The capacity after the given number of appends to the nil slice. -/
def Growth.capAfter (g : Growth) : Nat → Nat
  | 0 => 0
  | n + 1 => if n < g.capAfter n then g.capAfter n else g.cap n

def Growth.arraysAfter (g : Growth) : Nat → Nat
  | 0 => 0
  | n + 1 => if n < g.capAfter n then g.arraysAfter n else g.arraysAfter n + 1

namespace Grown

variable {α : Type}

def slice (s : Grown α) : List α := s.arrays.getLastD []

def append (g : Growth) (s : Grown α) (x : α) : Grown α :=
  if s.slice.length < s.cap then { s with arrays := s.arrays.dropLast ++ [s.slice ++ [x]] }
  else { arrays := s.arrays ++ [s.slice ++ [x]], cap := g.cap s.slice.length }

/-- `&s[len(s)-1]`. -/
def last (s : Grown α) : ElemPtr := ⟨s.arrays.length - 1, s.slice.length - 1⟩

def update (s : Grown α) (p : ElemPtr) (f : α → α) : Grown α :=
  { s with arrays := s.arrays.modify p.array fun array => array.modify p.index f }

end Grown

namespace Growth

variable (g : Growth)

theorem le_capAfter (n : Nat) : n ≤ g.capAfter n := by
  induction n with
  | zero => exact Nat.zero_le _
  | succ n ih =>
    rw [capAfter]
    split
    · assumption
    · exact g.lt n

theorem arraysAfter_pos (n : Nat) : 0 < g.arraysAfter (n + 1) := by
  induction n with
  | zero => exact Nat.one_pos
  | succ n ih =>
    rw [arraysAfter]
    split
    · exact ih
    · exact Nat.succ_pos _

/-- Between two lengths either nothing is copied, or the first capacity was too small. -/
theorem arraysAfter_cases (k n : Nat) (later : k ≤ n) :
    (g.arraysAfter n = g.arraysAfter k ∧ g.capAfter n = g.capAfter k ∧ n ≤ g.capAfter k) ∨
      (g.arraysAfter k < g.arraysAfter n ∧ g.capAfter k < n) := by
  induction later with
  | refl => exact Or.inl ⟨rfl, rfl, g.le_capAfter k⟩
  | @step n later ih =>
    rw [arraysAfter, capAfter]
    rcases ih with ⟨arrays, cap, room⟩ | ⟨arrays, cap⟩
    · split
      · rename_i fits
        exact Or.inl ⟨arrays, cap, by omega⟩
      · rename_i full
        exact Or.inr ⟨by omega, by omega⟩
    · right
      split <;> omega

theorem arraysAfter_eq_iff {k n : Nat} (later : k ≤ n) : g.arraysAfter n = g.arraysAfter k ↔ n ≤ g.capAfter k := by
  rcases g.arraysAfter_cases k n later with ⟨arrays, _, room⟩ | ⟨arrays, cap⟩
  · exact iff_of_true arrays room
  · exact iff_of_false (by omega) (by omega)

end Growth

/-! ### Appends and updates -/

namespace Grown

variable {α : Type} {g : Growth}

@[simp] theorem slice_append (s : Grown α) (x : α) : (s.append g x).slice = s.slice ++ [x] := by
  unfold append
  split <;> simp [slice]

def appendAll (g : Growth) (xs : List α) : Grown α := xs.foldl (append g) {}

theorem appendAll_concat (xs : List α) (x : α) : appendAll g (xs ++ [x]) = (appendAll g xs).append g x := by
  simp [appendAll]

theorem appendAll_spec (xs : List α) : (appendAll g xs).slice = xs ∧ (appendAll g xs).cap = g.capAfter xs.length ∧
    (appendAll g xs).arrays.length = g.arraysAfter xs.length := by
  induction xs using List.reverseRecOn with
  | nil => exact ⟨rfl, rfl, rfl⟩
  | append_singleton xs x ih =>
    obtain ⟨slice, cap, arrays⟩ := ih
    rw [appendAll_concat, slice_append, slice]
    refine ⟨rfl, ?_, ?_⟩
    · rw [append, slice, cap, List.length_append, List.length_singleton, Growth.capAfter]
      split
      · rfl
      · rfl
    · rw [append, slice, cap, List.length_append, List.length_singleton, Growth.arraysAfter]
      split
      · rename_i fits
        have nonempty : (appendAll g xs).arrays ≠ [] := by
          intro none
          rw [none] at arrays
          cases xs with
          | nil => exact absurd fits (Nat.lt_irrefl 0)
          | cons y ys =>
            have pos := g.arraysAfter_pos ys.length
            simp only [List.length_nil, List.length_cons] at arrays
            omega
        have pos := List.length_pos_of_ne_nil nonempty
        simp only [List.length_append, List.length_dropLast, List.length_singleton]
        omega
      · simp [arrays]

/-- The pointer taken right after the append of the element at `k`. -/
theorem last_take {xs : List α} {k : Nat} (inside : k < xs.length) :
    (appendAll g (xs.take (k + 1))).last = ⟨g.arraysAfter (k + 1) - 1, k⟩ := by
  obtain ⟨slice, _, arrays⟩ := @appendAll_spec α g (xs.take (k + 1))
  rw [last, slice, arrays, List.length_take, Nat.min_eq_left inside]
  rfl

@[simp] theorem length_arrays_update (s : Grown α) (p : ElemPtr) (f : α → α) :
    (s.update p f).arrays.length = s.arrays.length := by
  simp [update]

theorem slice_update (s : Grown α) (p : ElemPtr) (f : α → α) :
    (s.update p f).slice = if p.array + 1 = s.arrays.length then s.slice.modify p.index f else s.slice := by
  unfold slice update
  dsimp only
  rw [List.getLastD_eq_getLast?, List.getLastD_eq_getLast?, List.getLast?_eq_getElem?, List.getLast?_eq_getElem?,
    List.length_modify, List.getElem?_modify]
  cases found : s.arrays[s.arrays.length - 1]? with
  | none =>
    split <;> simp
  | some array =>
    have bound := (List.getElem?_eq_some_iff.mp found).1
    by_cases here : p.array + 1 = s.arrays.length
    · rw [if_pos here, Option.map_eq_map, Option.map_some, if_pos (by omega)]
      rfl
    · rw [if_neg here, Option.map_eq_map, Option.map_some, if_neg (by omega)]

/-- What a run of updates leaves in the slice: each element has had those made through a pointer to it. -/
theorem slice_updates (us : List (ElemPtr × (α → α))) (s : Grown α) :
    (us.foldl (fun s u => s.update u.1 u.2) s).slice = s.slice.mapIdx fun k x =>
      (us.filter fun u => u.1.array + 1 = s.arrays.length ∧ u.1.index = k).foldl (fun x u => u.2 x) x := by
  induction us generalizing s with
  | nil => exact (List.ext_getElem? fun k => by simp)
  | cons u us ih =>
    rw [List.foldl_cons, ih, slice_update, length_arrays_update]
    refine List.ext_getElem? fun k => ?_
    by_cases here : u.1.array + 1 = s.arrays.length
    · rw [if_pos here]
      simp only [List.getElem?_mapIdx, List.getElem?_modify]
      by_cases at_k : u.1.index = k
      · simp [here, at_k, Option.map_map, Function.comp_def]
      · simp [at_k]
    · rw [if_neg here]
      simp [here]

end Grown

/-- What a variable of slice type holds: which array, and how much of it. -/
structure SliceHeader where
  array : Nat
  len : Nat
  cap : Nat
deriving DecidableEq

namespace SliceHeader

variable {α : Type}

def read (arrays : List (List α)) (s : SliceHeader) : List α := (arrays[s.array]?.getD []).take s.len

def literal (arrays : List (List α)) (xs : List α) : List (List α) × SliceHeader :=
  (arrays ++ [xs], ⟨arrays.length, xs.length, xs.length⟩)

/-- `append(s, x)`: the arrays, and the slice that is returned. A new array is zero behind the new element. -/
def append (g : Growth) (zero : α) (arrays : List (List α)) (s : SliceHeader) (x : α) : List (List α) × SliceHeader :=
  if s.len < s.cap then (arrays.modify s.array fun array => array.set s.len x, { s with len := s.len + 1 })
  else
    (arrays ++ [s.read arrays ++ x :: List.replicate (g.cap s.len - (s.len + 1)) zero],
      ⟨arrays.length, s.len + 1, g.cap s.len⟩)

theorem read_concat {arrays : List (List α)} {t : SliceHeader} (inside : t.array < arrays.length) (array : List α) :
    t.read (arrays ++ [array]) = t.read arrays := by
  rw [read, read, List.getElem?_append_left inside]

theorem read_literal (arrays : List (List α)) (xs : List α) : (literal arrays xs).2.read (literal arrays xs).1 = xs := by
  simp [literal, read]

theorem length_append (g : Growth) (zero : α) (arrays : List (List α)) (s : SliceHeader) (x : α) :
    arrays.length ≤ (s.append g zero arrays x).1.length := by
  unfold append
  split_ifs
  · simp
  · simp

theorem read_append (g : Growth) (zero : α) {arrays : List (List α)} {s t : SliceHeader} (inside : t.array < arrays.length)
    (short : t.array = s.array → t.len ≤ s.len) (x : α) : t.read (s.append g zero arrays x).1 = t.read arrays := by
  unfold append
  split_ifs
  · rw [read, read, List.getElem?_modify]
    by_cases same : s.array = t.array
    · simp [same, List.getElem?_eq_getElem inside, List.take_set_of_le (short same.symm)]
    · simp [same]
  · exact read_concat inside _

end SliceHeader

end Go
