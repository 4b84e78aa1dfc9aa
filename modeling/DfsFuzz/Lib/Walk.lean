import Mathlib.Data.List.Infix
import Mathlib.Data.Fintype.Card

/-!
Walks along labelled edges from a node. Where every node has at most one path from the start, the
walks from it form a tree, and adding, dropping or moving one edge changes the walks in one place.
-/

namespace Walk

variable {N L : Type}

def walk (edge : N → L → Option N) : N → List L → Option N
  | r, [] => some r
  | r, x :: q => (edge r x).bind fun c => walk edge c q

/-- Every node is reached from `r` along at most one path. -/
def IsTree (edge : N → L → Option N) (r : N) : Prop :=
  ∀ q q' m, walk edge r q = some m → walk edge r q' = some m → q = q'

variable {edge edge' : N → L → Option N} {r p c : N} {x : L} {π : List L}

@[simp] theorem walk_nil (edge : N → L → Option N) (r : N) : walk edge r [] = some r := rfl

theorem walk_append (edge : N → L → Option N) (r : N) (q s : List L) :
    walk edge r (q ++ s) = (walk edge r q).bind fun m => walk edge m s := by
  induction q generalizing r with
  | nil => rfl
  | cons y q ih =>
    simp only [List.cons_append, walk]
    cases edge r y with
    | none => rfl
    | some c => exact ih c

theorem walk_concat (edge : N → L → Option N) (r : N) (q : List L) (x : L) :
    walk edge r (q ++ [x]) = (walk edge r q).bind fun m => edge m x := by
  have single : ∀ m, walk edge m [x] = edge m x := fun m => Option.bind_fun_some (edge m x)
  rw [walk_append]
  simp only [single]

theorem walk_congr (r : N) (q : List L)
    (same : ∀ s y m, s ++ [y] <+: q → walk edge r s = some m → edge' m y = edge m y) :
    walk edge' r q = walk edge r q := by
  induction q generalizing r with
  | nil => rfl
  | cons y q ih =>
    have first : edge' r y = edge r y := same [] y r (by simp) rfl
    simp only [walk, first]
    cases step : edge r y with
    | none => rfl
    | some c =>
      refine ih c fun s z m inside reached => same (y :: s) z m ?_ ?_
      · simpa using inside
      · simpa [walk, step] using reached

def SameExcept (p : N) (x : L) (edge edge' : N → L → Option N) : Prop :=
  ∀ m y, (m ≠ p ∨ y ≠ x) → edge' m y = edge m y

theorem walk_outside (tree : IsTree edge r) (reached : walk edge r π = some p) (change : SameExcept p x edge edge')
    {q : List L} (outside : ¬ π ++ [x] <+: q) : walk edge' r q = walk edge r q := by
  refine walk_congr r q fun s y m inside here => change m y ?_
  by_contra both
  rw [not_or, not_not, not_not] at both
  obtain ⟨rfl, rfl⟩ := both
  obtain rfl := tree s π m here reached
  exact outside inside

theorem walk_through (tree : IsTree edge r) (reached : walk edge r π = some p) (change : SameExcept p x edge edge')
    (s : List L) : walk edge' r (π ++ x :: s) = (edge' p x).bind fun c => walk edge' c s := by
  have before : walk edge' r π = some p := by
    rw [walk_outside tree reached change, reached]
    intro inside
    have longer := inside.length_le
    simp only [List.length_append, List.length_singleton] at longer
    omega
  rw [walk_append, before]
  rfl

theorem walk_unlink (tree : IsTree edge r) (reached : walk edge r π = some p) (change : SameExcept p x edge edge')
    (gone : edge' p x = none) {q : List L} {m : N} :
    walk edge' r q = some m ↔ walk edge r q = some m ∧ ¬ π ++ [x] <+: q := by
  by_cases inside : π ++ [x] <+: q
  · obtain ⟨s, rfl⟩ := inside
    rw [List.append_assoc, List.singleton_append, walk_through tree reached change, gone]
    simp
  · rw [walk_outside tree reached change inside]
    simp [inside]

theorem IsTree.unlink (tree : IsTree edge r) (reached : walk edge r π = some p) (change : SameExcept p x edge edge')
    (gone : edge' p x = none) : IsTree edge' r := by
  intro q q' m left right
  exact tree q q' m ((walk_unlink tree reached change gone).mp left).1 ((walk_unlink tree reached change gone).mp right).1

/-- Walks after `c` and what is below it became the child `x` of `p`, in place of what was there. -/
theorem walk_attach (tree : IsTree edge r) (reached : walk edge r π = some p) (change : SameExcept p x edge edge')
    (linked : edge' p x = some c) (apart : ∀ s, walk edge c s ≠ some p) {q : List L} {m : N} :
    walk edge' r q = some m ↔
      (walk edge r q = some m ∧ ¬ π ++ [x] <+: q) ∨ ∃ s, q = π ++ x :: s ∧ walk edge c s = some m := by
  have below : ∀ s, walk edge' c s = walk edge c s := by
    intro s
    refine walk_congr c s fun t y n _ here => change n y (Or.inl ?_)
    rintro rfl
    exact apart t here
  by_cases inside : π ++ [x] <+: q
  · obtain ⟨s, rfl⟩ := inside
    rw [List.append_assoc, List.singleton_append, walk_through tree reached change, linked, Option.bind_some, below]
    simp
  · rw [walk_outside tree reached change inside]
    constructor
    · exact fun here => Or.inl ⟨here, inside⟩
    · rintro (⟨here, _⟩ | ⟨s, rfl, _⟩)
      · exact here
      · exact absurd ⟨s, by simp⟩ inside

theorem IsTree.attach (tree : IsTree edge r) (reached : walk edge r π = some p) (change : SameExcept p x edge edge')
    (linked : edge' p x = some c) (subtree : IsTree edge c)
    (disjoint : ∀ q s m, walk edge r q = some m → walk edge c s ≠ some m) : IsTree edge' r := by
  have apart : ∀ s, walk edge c s ≠ some p := fun s => disjoint π s p reached
  intro q q' m left right
  rw [walk_attach tree reached change linked apart] at left right
  rcases left with ⟨here, _⟩ | ⟨s, rfl, here⟩ <;> rcases right with ⟨here', _⟩ | ⟨s', rfl, here'⟩
  · exact tree q q' m here here'
  · exact absurd here' (disjoint q s' m here)
  · exact absurd here (disjoint q' s m here')
  · rw [subtree s s' m here here']

theorem walk_leaf (leaf : ∀ y, edge c y = none) {s : List L} {m : N} : walk edge c s = some m ↔ s = [] ∧ m = c := by
  cases s with
  | nil => simp [eq_comm]
  | cons y s => simp [walk, leaf]

theorem IsTree.below (tree : IsTree edge r) (reached : walk edge r π = some c) : IsTree edge c := by
  intro s s' m left right
  have path : ∀ t, walk edge r (π ++ t) = walk edge c t := fun t => by rw [walk_append, reached]; rfl
  exact List.append_cancel_left (tree (π ++ s) (π ++ s') m ((path s).trans left) ((path s').trans right))

/-- A tree over the nodes below `n` has no path of `n` or more edges. -/
theorem IsTree.depth {edge : Nat → L → Option Nat} {r n : Nat} (tree : IsTree edge r)
    (bounded : ∀ q m, walk edge r q = some m → m < n) {q : List L} {m : Nat} (reached : walk edge r q = some m) :
    q.length < n := by
  have visited : ∀ i, ∃ k, walk edge r (q.take i) = some k := by
    intro i
    have whole := walk_append edge r (q.take i) (q.drop i)
    rw [List.take_append_drop, reached] at whole
    cases here : walk edge r (q.take i) with
    | none => simp [here] at whole
    | some k => exact ⟨k, rfl⟩
  choose at_ here using visited
  let f : Fin (q.length + 1) → Fin n := fun i => ⟨at_ i, bounded _ _ (here i)⟩
  have injective : Function.Injective f := by
    intro i j same
    have nodes : at_ i = at_ j := congrArg Fin.val same
    have paths := tree _ _ _ (here i) (nodes ▸ here j)
    have lengths := congrArg List.length paths
    simp only [List.length_take] at lengths
    omega
  have count := Fintype.card_le_of_injective f injective
  simp only [Fintype.card_fin] at count
  omega

end Walk
