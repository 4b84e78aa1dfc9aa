import Mathlib.Data.List.Pairwise
import Mathlib.Data.Nat.ModEq
import Mathlib.Data.Nat.Notation
import Mathlib.Logic.Relation
import Mathlib.Order.Basic
import Mathlib.Order.Lattice

/-!
Ranges of addresses: when two have no address in common, what a table of granules knows of it, and who has a
value where ranges of one width are dealt out round a list.
-/

namespace Ranges

/-- The addresses from `start` on, `size` of them. -/
structure Span where
  start : ℕ
  size : ℕ
deriving DecidableEq, Repr

def Span.Contains (s : Span) (x : ℕ) : Prop := s.start ≤ x ∧ x < s.start + s.size

def Span.Apart (r s : Span) : Prop := ∀ x, r.Contains x → ¬ s.Contains x

theorem Span.Apart.symm {r s : Span} (apart : r.Apart s) : s.Apart r := fun x inside other => apart x other inside

instance : Std.Symm Span.Apart := ⟨fun _ _ => Span.Apart.symm⟩

/-- Two ranges are apart when one is empty, or one ends before the other starts. -/
theorem Span.apart_iff {r s : Span} :
    r.Apart s ↔ r.size = 0 ∨ s.size = 0 ∨ r.start + r.size ≤ s.start ∨ s.start + s.size ≤ r.start := by
  simp only [Span.Apart, Span.Contains]
  constructor
  · intro apart
    -- an overlap would have the later of the two starts in it
    have common := apart (max r.start s.start)
    omega
  · intro cases x inside other
    omega

instance (r s : Span) : Decidable (r.Apart s) := decidable_of_iff' _ Span.apart_iff

/-- The granules of `g` addresses that a range touches. -/
def Span.Touches (g : ℕ) (s : Span) (i : ℕ) : Prop := s.start / g ≤ i ∧ i < (s.start + s.size + g - 1) / g

theorem Span.touches_of_contains {g : ℕ} (positive : 0 < g) {s : Span} {x : ℕ} (inside : s.Contains x) : s.Touches g (x / g) := by
  obtain ⟨above, below⟩ := inside
  refine ⟨Nat.div_le_div_right above, ?_⟩
  have next : (x + g) / g ≤ (s.start + s.size + g - 1) / g := Nat.div_le_div_right (by omega)
  rw [Nat.add_div_right x positive] at next
  omega

theorem Span.apart_of_touches {g : ℕ} (positive : 0 < g) {r s : Span} (free : ∀ i, r.Touches g i → ¬ s.Touches g i) : r.Apart s :=
  fun x inside other => free (x / g) (touches_of_contains positive inside) (touches_of_contains positive other)

/-! ### Lists of ranges -/

/-- Some ranges of a list are replaced by others that are apart from the rest. -/
theorem pairwise_replace {α : Type*} {R : α → α → Prop} [Std.Symm R] {before old new after : List α}
    (pairwise : (before ++ old ++ after).Pairwise R) (news : new.Pairwise R) (apart : ∀ x ∈ new, ∀ y ∈ before ++ after, R x y) :
    (before ++ new ++ after).Pairwise R := by
  obtain ⟨front, back, across⟩ := List.pairwise_append.mp pairwise
  refine List.pairwise_append.mpr ⟨List.pairwise_append.mpr ⟨(List.pairwise_append.mp front).1, news, ?_⟩, back, ?_⟩
  · exact fun y first x second => Std.Symm.symm _ _ (apart x second y (List.mem_append_left _ first))
  · intro y first x second
    rcases List.mem_append.mp first with kept | fresh
    · exact across y (List.mem_append_left _ kept) x second
    · exact apart y fresh x (List.mem_append_right _ second)

end Ranges

/-!
Ranges of one width, one behind the other from 0 on, that are dealt out round a list from some position: who
has a value is found by division.
-/

namespace RangeLayout

/-- The range that is dealt out as the `i`-th, with both bounds in it. -/
def range (chunk i : Nat) : Int × Int := (chunk * i, chunk * (i + 1) - 1)

def layout (n start chunk : Nat) : List (Int × Int) :=
  (List.range n).foldl (fun l i => l.set ((i + start) % n) (range chunk i)) (List.replicate n (0, 0))

def Holds (r : Int × Int) (v : Nat) : Prop := r.1 ≤ v ∧ (v : Int) ≤ r.2

instance (r : Int × Int) (v : Nat) : Decidable (Holds r v) := inferInstanceAs (Decidable (_ ∧ _))

def owner (n start chunk v : Nat) : Option Nat := if v < chunk * n then some ((v / chunk + start) % n) else none

variable {n start chunk : Nat}

theorem mod_inj {i j : Nat} (first : i < n) (second : j < n) (same : (i + start) % n = (j + start) % n) : i = j := by
  have cong : i + start ≡ j + start [MOD n] := same
  exact Nat.ModEq.eq_of_lt_of_lt (Nat.ModEq.add_right_cancel' start cong) first second

theorem dealt (k : Nat) (within : k ≤ n) :
    let l := (List.range k).foldl (fun l i => l.set ((i + start) % n) (range chunk i)) (List.replicate n (0, 0))
    l.length = n ∧ ∀ i < k, l[(i + start) % n]? = some (range chunk i) := by
  induction k with
  | zero => exact ⟨List.length_replicate, fun i before => absurd before (Nat.not_lt_zero i)⟩
  | succ k ih =>
    obtain ⟨length, placed⟩ := ih (Nat.le_of_succ_le within)
    rw [List.range_succ, List.foldl_append]
    refine ⟨by simpa using length, fun i before => ?_⟩
    simp only [List.foldl_cons, List.foldl_nil]
    by_cases same : i = k
    · subst same
      have inside : (i + start) % n < n := Nat.mod_lt _ (by omega)
      rw [List.getElem?_set_self (by rw [length]; exact inside)]
    · have other : (k + start) % n ≠ (i + start) % n := fun eq => same (mod_inj (by omega) (by omega) eq.symm)
      rw [List.getElem?_set_ne other]
      exact placed i (by omega)

theorem layout_length : (layout n start chunk).length = n := (dealt n (Nat.le_refl n)).1

theorem layout_get {i : Nat} (before : i < n) : (layout n start chunk)[(i + start) % n]? = some (range chunk i) :=
  (dealt n (Nat.le_refl n)).2 i before

theorem exists_dealt {idx : Nat} (inside : idx < n) : ∃ i < n, (i + start) % n = idx := by
  refine ⟨(idx + (n - start % n)) % n, Nat.mod_lt _ (by omega), ?_⟩
  have small : start % n < n := Nat.mod_lt _ (by omega)
  rw [Nat.mod_add_mod, ← Nat.add_mod_mod, Nat.add_assoc, Nat.sub_add_cancel (Nat.le_of_lt small), Nat.add_mod_right,
    Nat.mod_eq_of_lt inside]

theorem holds_range {i v : Nat} : Holds (range chunk i) v ↔ 0 < chunk ∧ v / chunk = i := by
  have low : (chunk : Int) * i = ((chunk * i : Nat) : Int) := by push_cast; rfl
  have high : (chunk : Int) * (i + 1) = ((chunk * i + chunk : Nat) : Int) := by rw [Int.mul_add, Int.mul_one, low]; push_cast; rfl
  simp only [Holds, range, low, high]
  rcases Nat.eq_zero_or_pos chunk with rfl | positive
  · omega
  · rw [Nat.div_eq_iff positive]
    have comm : i * chunk = chunk * i := Nat.mul_comm i chunk
    have next : (i + 1) * chunk = chunk * i + chunk := by rw [Nat.succ_mul, comm]
    omega

theorem div_lt {v : Nat} (positive : 0 < chunk) : v / chunk < n ↔ v < chunk * n := by
  rw [Nat.div_lt_iff_lt_mul positive, Nat.mul_comm]

theorem holds_iff {idx v : Nat} :
    (∃ r, (layout n start chunk)[idx]? = some r ∧ Holds r v) ↔ owner n start chunk v = some idx := by
  rw [owner, Option.ite_none_right_eq_some]
  constructor
  · rintro ⟨r, found, holds⟩
    have inside : idx < n := by
      have bound := (List.getElem?_eq_some_iff.mp found).1
      rwa [layout_length] at bound
    obtain ⟨i, before, rfl⟩ : ∃ i < n, (i + start) % n = idx := exists_dealt inside
    cases (layout_get before).symm.trans found
    obtain ⟨positive, same⟩ := holds_range.mp holds
    exact ⟨(div_lt positive).mp (by rw [same]; exact before), by rw [same]⟩
  · rintro ⟨small, same⟩
    cases same
    have positive : 0 < chunk := by
      rcases Nat.eq_zero_or_pos chunk with rfl | positive
      · omega
      · exact positive
    exact ⟨_, layout_get ((div_lt positive).mpr small), holds_range.mpr ⟨positive, rfl⟩⟩

theorem findIdx?_layout (v : Nat) : (layout n start chunk).findIdx? (fun r => decide (Holds r v)) = owner n start chunk v := by
  cases found : (layout n start chunk).findIdx? fun r => decide (Holds r v) with
  | none =>
    cases owned : owner n start chunk v with
    | none => rfl
    | some idx =>
      obtain ⟨r, here, holds⟩ := holds_iff.mpr owned
      have no := List.findIdx?_eq_none_iff.mp found r (List.mem_of_getElem? here)
      exact absurd holds (by simpa using no)
  | some idx =>
    obtain ⟨r, here, holds⟩ : ∃ r, (layout n start chunk)[idx]? = some r ∧ Holds r v := by
      obtain ⟨bound, holds, -⟩ := List.findIdx?_eq_some_iff_getElem.mp found
      exact ⟨_, List.getElem?_eq_getElem bound, of_decide_eq_true holds⟩
    exact (holds_iff.mp ⟨r, here, holds⟩).symm

end RangeLayout

/-!
Operations with closed time windows. Two windows meet or one precedes the other, and a relation
that only relates a window to a later one has no cycle.
-/

namespace Windows

variable {V τ : Type} [LinearOrder τ] {lo hi : V → τ}

def Precedes (lo hi : V → τ) (a b : V) : Prop := hi a < lo b

def Meets (lo hi : V → τ) (a b : V) : Prop := lo a ≤ hi b ∧ lo b ≤ hi a

theorem precedes_of_not_meets {a b : V} (apart : ¬ Meets lo hi a b) (notBefore : ¬ Precedes lo hi a b) :
    Precedes lo hi b a := by
  unfold Meets at apart
  unfold Precedes at notBefore ⊢
  have inside : lo b ≤ hi a := not_lt.mp notBefore
  exact lt_of_not_ge fun touch => apart ⟨touch, inside⟩

/-- A relation inside the window order: it only relates an operation to a later one, and both
have proper windows. -/
structure Ordered (lo hi : V → τ) (R : V → V → Prop) : Prop where
  precedes : ∀ a b, R a b → Precedes lo hi a b
  left : ∀ a b, R a b → lo a ≤ hi a
  right : ∀ a b, R a b → lo b ≤ hi b

variable {R : V → V → Prop}

theorem Ordered.transGen (ordered : Ordered lo hi R) {a b : V} (path : Relation.TransGen R a b) :
    Precedes lo hi a b := by
  induction path with
  | single edge => exact ordered.precedes _ _ edge
  | tail _ edge ih =>
    have inner := ordered.left _ _ edge
    exact lt_trans (lt_of_lt_of_le ih inner) (ordered.precedes _ _ edge)

theorem Ordered.acyclic (ordered : Ordered lo hi R) (a : V) : ¬ Relation.TransGen R a a := by
  intro cycle
  have before := ordered.transGen cycle
  obtain ⟨b, edge, _⟩ := Relation.TransGen.head'_iff.mp cycle
  exact absurd before (not_lt.mpr (ordered.left _ _ edge))

end Windows
