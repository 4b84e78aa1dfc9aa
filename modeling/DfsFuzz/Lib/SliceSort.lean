import Mathlib.Data.List.Sort
import Mathlib.Data.List.TakeWhile

/-!
`sort.Slice`. Its documentation promises a permutation ordered by `less` and nothing about the
order of equal elements; it reads the elements only through `less`. `SliceSort` is any such
sort, and `insertionSort` is the one Go runs on short slices, which happens to be stable.
-/

namespace Go

variable {α β : Type}

structure StrictWeak (less : α → α → Bool) : Prop where
  irrefl : ∀ a, less a a = false
  trans : ∀ a b c, less a b = true → less b c = true → less a c = true
  incomp : ∀ a b c, less b a = false → less c b = false → less c a = false

/-- `sort.Slice` as documented. -/
structure SliceSort where
  sort : {α : Type} → (α → α → Bool) → List α → List α
  perm : ∀ {α : Type} (less : α → α → Bool) (xs : List α), (sort less xs).Perm xs
  sorted : ∀ {α : Type} {less : α → α → Bool}, StrictWeak less → ∀ xs : List α,
    (sort less xs).Pairwise fun a b => less b a = false
  natural : ∀ {α β : Type} (f : α → β) (less : α → α → Bool) (less' : β → β → Bool) (xs : List α),
    (∀ a b, less' (f a) (f b) = less a b) → sort less' (xs.map f) = (sort less xs).map f

def lessBy {κ : Type} [LinearOrder κ] (key : α → κ) (a b : α) : Bool := decide (key a < key b)

theorem lessBy_strictWeak {κ : Type} [LinearOrder κ] (key : α → κ) : StrictWeak (lessBy key) where
  irrefl a := by simp [lessBy]
  trans a b c := by
    simp only [lessBy, decide_eq_true_eq]
    exact lt_trans
  incomp a b c := by
    simp only [lessBy, decide_eq_false_iff_not, not_lt]
    exact le_trans

def notAfter (less : α → α → Bool) (a b : α) : Prop := less b a = false

instance (less : α → α → Bool) : DecidableRel (notAfter less) := fun a b => inferInstanceAs (Decidable (less b a = false))

theorem map_orderedInsert (f : α → β) (less : α → α → Bool) (less' : β → β → Bool)
    (same : ∀ a b, less' (f a) (f b) = less a b) (a : α) (xs : List α) :
    List.orderedInsert (notAfter less') (f a) (xs.map f) = (List.orderedInsert (notAfter less) a xs).map f := by
  induction xs with
  | nil => rfl
  | cons b xs ih =>
    by_cases before : notAfter less a b
    · have before' : notAfter less' (f a) (f b) := (same b a).trans before
      simp [List.orderedInsert, before, before']
    · have before' : ¬ notAfter less' (f a) (f b) := fun h => before ((same b a).symm.trans h)
      simpa [List.orderedInsert, before, before'] using ih

/-- The insertion sort `sort.Slice` runs on up to twelve elements. -/
def insertionSort : SliceSort where
  sort less xs := List.insertionSort (notAfter less) xs
  perm less xs := List.perm_insertionSort _ xs
  sorted {_ less} weak xs := by
    have : IsTrans _ (notAfter less) := ⟨fun a b c ab bc => weak.incomp a b c ab bc⟩
    have : Std.Total (notAfter less) := ⟨fun a b => by
      by_cases ab : less a b = true
      · refine Or.inl ?_
        by_contra ba
        have cycle := weak.trans a b a ab (by simpa [notAfter] using ba)
        simp [weak.irrefl a] at cycle
      · exact Or.inr (by simpa [notAfter] using ab)⟩
    exact List.pairwise_insertionSort (notAfter less) xs
  natural f less less' xs same := by
    induction xs with
    | nil => rfl
    | cons a xs ih =>
      rw [List.map_cons, List.insertionSort_cons, List.insertionSort_cons, ih]
      exact map_orderedInsert f less less' same a _

/-- When the key tells the elements apart, the documented contract leaves one result: neither
the order of the input nor the sort can show. -/
theorem SliceSort.eq_of_perm {κ : Type} [LinearOrder κ] (key : α → κ) (srt srt' : SliceSort) {xs ys : List α}
    (perm : xs.Perm ys) (distinct : ∀ a ∈ xs, ∀ b ∈ xs, key a = key b → a = b) :
    srt.sort (lessBy key) xs = srt'.sort (lessBy key) ys := by
  have weak := lessBy_strictWeak key
  have same : (srt.sort (lessBy key) xs).Perm (srt'.sort (lessBy key) ys) :=
    (srt.perm _ xs).trans (perm.trans (srt'.perm _ ys).symm)
  refine List.Perm.eq_of_pairwise ?_ (srt.sorted weak xs) (srt'.sorted weak ys) same
  intro a b ina inb ab ba
  have member : a ∈ xs := (srt.perm _ xs).mem_iff.mp ina
  have member' : b ∈ xs := perm.mem_iff.mpr ((srt'.perm _ ys).mem_iff.mp inb)
  simp only [lessBy, decide_eq_false_iff_not, not_lt] at ab ba
  exact distinct a member b member' (le_antisymm ab ba)

end Go
