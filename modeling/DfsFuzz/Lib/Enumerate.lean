import Mathlib.Data.List.Nodup
import Mathlib.Data.List.Perm.Basic
import Mathlib.Tactic.Ring

/-!
Enumerations. The double loop `for i := 0; i < n; i++ { for j := i + 1; j < n; j++ { ... } }` as the list of the
pairs it visits. Breadth-first: every element of a queue stands for one object through `view`, and the queue
enumerates the objects with a property when it holds each of them exactly once; a queue whose elements are replaced
by their children keeps this, level after level.
-/

namespace Go

variable {α β : Type}

/-- The pairs `(xs[i], xs[j])` with `i < j`, in the order of the loops. -/
def pairs : List α → List (α × α)
  | [] => []
  | x :: xs => xs.map (fun y => (x, y)) ++ pairs xs

theorem two_mul_length_pairs (xs : List α) : 2 * (pairs xs).length = xs.length * (xs.length - 1) := by
  induction xs with
  | nil => rfl
  | cons x xs ih =>
    simp only [pairs, List.length_append, List.length_map, List.length_cons, Nat.add_sub_cancel]
    cases xs with
    | nil => rfl
    | cons y ys =>
      simp only [List.length_cons, Nat.add_sub_cancel] at ih ⊢
      rw [Nat.mul_add, ih]
      ring

theorem length_pairs (xs : List α) : (pairs xs).length = xs.length * (xs.length - 1) / 2 := by
  have doubled := two_mul_length_pairs xs
  omega

theorem mem_of_mem_pairs {xs : List α} {p : α × α} (member : p ∈ pairs xs) : p.1 ∈ xs ∧ p.2 ∈ xs := by
  induction xs with
  | nil => simp [pairs] at member
  | cons x xs ih =>
    simp only [pairs, List.mem_append, List.mem_map] at member
    rcases member with ⟨y, present, rfl⟩ | later
    · exact ⟨List.mem_cons_self, List.mem_cons_of_mem _ present⟩
    · exact ⟨List.mem_cons_of_mem _ (ih later).1, List.mem_cons_of_mem _ (ih later).2⟩

theorem rel_of_mem_pairs {R : α → α → Prop} {xs : List α} (pairwise : xs.Pairwise R) {p : α × α}
    (member : p ∈ pairs xs) : R p.1 p.2 := by
  induction xs with
  | nil => simp [pairs] at member
  | cons x xs ih =>
    obtain ⟨head, tail⟩ := List.pairwise_cons.mp pairwise
    simp only [pairs, List.mem_append, List.mem_map] at member
    rcases member with ⟨y, present, rfl⟩ | later
    · exact head y present
    · exact ih tail later

theorem mem_pairs_or {xs : List α} {x y : α} (inx : x ∈ xs) (iny : y ∈ xs) (different : x ≠ y) :
    (x, y) ∈ pairs xs ∨ (y, x) ∈ pairs xs := by
  induction xs with
  | nil => simp at inx
  | cons z xs ih =>
    simp only [pairs, List.mem_append, List.mem_map, Prod.mk.injEq]
    rcases List.mem_cons.mp inx with rfl | inx'
    · rcases List.mem_cons.mp iny with rfl | iny
      · exact absurd rfl different
      · exact Or.inl (Or.inl ⟨y, iny, rfl, rfl⟩)
    · rcases List.mem_cons.mp iny with rfl | iny
      · exact Or.inr (Or.inl ⟨x, inx', rfl, rfl⟩)
      · rcases ih inx' iny with found | found
        · exact Or.inl (Or.inr found)
        · exact Or.inr (Or.inr found)

theorem pairs_map (f : α → β) (xs : List α) : pairs (xs.map f) = (pairs xs).map (Prod.map f f) := by
  induction xs with
  | nil => rfl
  | cons x xs ih => simp [pairs, ih, Function.comp_def]

end Go

namespace Enumerate

variable {σ β : Type} {view : σ → β} {P P' : β → Prop}

structure Enumerates (view : σ → β) (P : β → Prop) (queue : List σ) : Prop where
  once : (queue.map view).Nodup
  all : ∀ x, x ∈ queue.map view ↔ P x

theorem Enumerates.sound {queue : List σ} (lists : Enumerates view P queue) {s : σ} (member : s ∈ queue) :
    P (view s) := (lists.all _).mp (List.mem_map_of_mem member)

theorem Enumerates.singleton {s : σ} (only : ∀ x, P x ↔ x = view s) : Enumerates view P [s] where
  once := by simp
  all x := by simp [only x]

theorem Enumerates.congr {queue : List σ} (lists : Enumerates view P queue) (same : ∀ x, P x ↔ P' x) :
    Enumerates view P' queue where
  once := lists.once
  all x := (lists.all x).trans (same x)

/-- One level: the children of an element enumerate the objects that `forget` sends back to it. -/
theorem Enumerates.flatMap {queue : List σ} {children : σ → List σ} {forget : β → β}
    (lists : Enumerates view P queue)
    (each : ∀ s ∈ queue, Enumerates view (fun y => P' y ∧ forget y = view s) (children s))
    (back : ∀ y, P' y → P (forget y)) : Enumerates view P' (queue.flatMap children) where
  once := by
    rw [List.map_flatMap, List.nodup_flatMap]
    refine ⟨fun s member => (each s member).once, ?_⟩
    have apart : queue.Pairwise fun s s' => view s ≠ view s' := List.pairwise_map.mp lists.once
    refine apart.imp_of_mem ?_
    intro s s' member member' differ y inChildren inChildren'
    have parent := (((each s member).all y).mp inChildren).2
    have parent' := (((each s' member').all y).mp inChildren').2
    exact differ (parent.symm.trans parent')
  all y := by
    rw [List.map_flatMap, List.mem_flatMap]
    constructor
    · rintro ⟨s, member, inChildren⟩
      exact (((each s member).all y).mp inChildren).1
    · intro holds
      obtain ⟨s, member, parent⟩ := List.mem_map.mp ((lists.all _).mpr (back y holds))
      exact ⟨s, member, ((each s member).all y).mpr ⟨holds, parent.symm⟩⟩

theorem Enumerates.existsUnique {queue : List σ} (lists : Enumerates view P queue) {x : β} (holds : P x) :
    ∃! i : Fin queue.length, view (queue.get i) = x := by
  obtain ⟨s, member, shown⟩ := List.mem_map.mp ((lists.all x).mpr holds)
  obtain ⟨i, rfl⟩ := List.mem_iff_get.mp member
  refine ⟨i, shown, ?_⟩
  intro j shown'
  have same : (queue.map view)[j.val]? = (queue.map view)[i.val]? := by
    simpa using shown'.trans shown.symm
  have bound : j.val < (queue.map view).length := by simp
  exact Fin.ext ((List.getElem?_inj bound lists.once).mp same)

end Enumerate
