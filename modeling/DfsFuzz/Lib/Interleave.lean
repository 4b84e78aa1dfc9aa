import DfsFuzz.Lib.SliceSort
import Mathlib.Data.List.Nodup
import Mathlib.Data.Sum.Basic

/-!
Lists of items with labels set among them, `List (α ⊕ κ)`: the items are the left elements, the
labels the right ones. The section on pairs inserts two labels at once and says where every
label then stands; the section on ranges says at which positions a label may be inserted so
that a given list of labels stands before it.
-/

namespace Interleave

variable {α κ β γ : Type}

def lefts (l : List (α ⊕ κ)) : List α := l.filterMap Sum.getLeft?

def rights (l : List (α ⊕ κ)) : List κ := l.filterMap Sum.getRight?

@[simp] theorem lefts_append (l l' : List (α ⊕ κ)) : lefts (l ++ l') = lefts l ++ lefts l' := List.filterMap_append
@[simp] theorem rights_append (l l' : List (α ⊕ κ)) : rights (l ++ l') = rights l ++ rights l' :=
  List.filterMap_append
@[simp] theorem lefts_inr (k : κ) (l : List (α ⊕ κ)) : lefts (.inr k :: l) = lefts l := rfl
@[simp] theorem rights_inr (k : κ) (l : List (α ⊕ κ)) : rights (.inr k :: l) = k :: rights l := rfl
@[simp] theorem lefts_nil : lefts ([] : List (α ⊕ κ)) = [] := rfl
@[simp] theorem rights_nil : rights ([] : List (α ⊕ κ)) = [] := rfl

@[simp] theorem lefts_map_inl (xs : List α) : lefts (xs.map (Sum.inl : α → α ⊕ κ)) = xs := by
  simp [lefts, List.filterMap_map, Function.comp_def]

@[simp] theorem rights_map_inl (xs : List α) : rights (xs.map (Sum.inl : α → α ⊕ κ)) = [] := by
  simp [rights, List.filterMap_map, Function.comp_def]

theorem eq_map_inl {l : List (α ⊕ κ)} (none : rights l = []) : l = (lefts l).map Sum.inl := by
  induction l with
  | nil => rfl
  | cons x l ih =>
    cases x with
    | inl a =>
      rw [show rights (.inl a :: l) = rights l from rfl] at none
      rw [show lefts (.inl a :: l) = a :: lefts l from rfl, List.map_cons, ← ih none]
    | inr k => simp at none

theorem mem_rights {l : List (α ⊕ κ)} {k : κ} : k ∈ rights l ↔ .inr k ∈ l := by
  simp [rights, Sum.getRight?_eq_some_iff]

theorem mem_rights_iff_getElem? {l : List (α ⊕ κ)} {k : κ} : k ∈ rights l ↔ ∃ n : Nat, l[n]? = some (.inr k) :=
  mem_rights.trans List.mem_iff_getElem?

theorem position_unique {l : List (α ⊕ κ)} (distinct : (rights l).Nodup) {k : κ} {m n : Nat}
    (atM : l[m]? = some (.inr k)) (atN : l[n]? = some (.inr k)) : m = n := by
  have apart : ∀ {m n : Nat}, l[m]? = some (.inr k) → l[n]? = some (.inr k) → ¬ m < n := by
    intro m n atM atN before
    obtain ⟨inM, eqM⟩ := List.getElem?_eq_some_iff.mp atM
    rw [← List.take_append_drop (m + 1) l, rights_append] at distinct
    have front : k ∈ rights (l.take (m + 1)) :=
      mem_rights_iff_getElem?.mpr ⟨m, by rw [List.getElem?_take_of_lt (by omega), atM]⟩
    have back : k ∈ rights (l.drop (m + 1)) :=
      mem_rights_iff_getElem?.mpr ⟨n - (m + 1), by
        rw [List.getElem?_drop, show m + 1 + (n - (m + 1)) = n by omega, atN]⟩
    exact List.disjoint_of_nodup_append distinct front back
  have := apart atM atN
  have := apart atN atM
  omega

/-! ### Inserting two elements -/

/-- The list with `x` set before position `i` and `y` before position `j` of the old list. -/
def insertPair (l : List β) (i j : Nat) (x y : β) : List β :=
  l.take i ++ x :: ((l.take j).drop i ++ y :: l.drop j)

variable {i j : Nat}

theorem insertPair_eq_twice {l : List β} (first : i ≤ j) (last : j ≤ l.length) (x y : β) :
    (l.take i ++ x :: l.drop i).take (j + 1) ++ y :: (l.take i ++ x :: l.drop i).drop (j + 1) =
      insertPair l i j x y := by
  have front : (l.take i).length = i := by rw [List.length_take]; omega
  have onto : j + 1 - i = (j - i) + 1 := by omega
  have whole : (l.take i).take (j + 1) = l.take i := List.take_of_length_le (by omega)
  have none : (l.take i).drop (j + 1) = [] := List.drop_of_length_le (by omega)
  have rest : (l.drop i).drop (j - i) = l.drop j := by rw [List.drop_drop, show i + (j - i) = j by omega]
  rw [List.take_append, List.drop_append, front, onto, List.take_succ_cons, List.drop_succ_cons, whole, none, rest,
    insertPair, List.drop_take, List.nil_append, List.append_assoc, List.cons_append]

theorem map_insertPair (f : β → γ) (l : List β) (i j : Nat) (x y : β) :
    (insertPair l i j x y).map f = insertPair (l.map f) i j (f x) (f y) := by
  simp [insertPair, List.map_take, List.map_drop]

theorem getElem?_insertPair {l : List β} (first : i ≤ j) (last : j ≤ l.length) (x y : β) (n : Nat) :
    (insertPair l i j x y)[n]? =
      if n < i then l[n]? else if n = i then some x else if n ≤ j then l[n - 1]?
      else if n = j + 1 then some y else l[n - 2]? := by
  have front : (l.take i).length = i := by rw [List.length_take]; omega
  have middle : ((l.take j).drop i).length = j - i := by rw [List.length_drop, List.length_take]; omega
  unfold insertPair
  rcases Nat.lt_trichotomy n i with before | rfl | after
  · rw [List.getElem?_append_left (by omega), List.getElem?_take_of_lt before, if_pos before]
  · rw [List.getElem?_append_right (by omega), front, if_neg (by omega), if_pos rfl]
    simp
  · rw [List.getElem?_append_right (by omega), front, if_neg (by omega), if_neg (by omega),
      show n - i = (n - i - 1) + 1 by omega, List.getElem?_cons_succ]
    by_cases inner : n ≤ j
    · rw [if_pos inner, List.getElem?_append_left (by omega), List.getElem?_drop,
        List.getElem?_take_of_lt (by omega)]
      congr 1
      omega
    · rw [if_neg inner, List.getElem?_append_right (by omega), middle]
      by_cases second : n = j + 1
      · rw [if_pos second, show n - i - 1 - (j - i) = 0 by omega]
        simp
      · rw [if_neg second, show n - i - 1 - (j - i) = (n - j - 2) + 1 by omega, List.getElem?_cons_succ,
          List.getElem?_drop]
        congr 1
        omega

theorem getElem?_insertPair_first {l : List β} (first : i ≤ j) (last : j ≤ l.length) (x y : β) :
    (insertPair l i j x y)[i]? = some x := by
  rw [getElem?_insertPair first last, if_neg (by omega), if_pos rfl]

theorem getElem?_insertPair_second {l : List β} (first : i ≤ j) (last : j ≤ l.length) (x y : β) :
    (insertPair l i j x y)[j + 1]? = some y := by
  rw [getElem?_insertPair first last, if_neg (by omega), if_neg (by omega), if_neg (by omega), if_pos rfl]

theorem take_append_between (first : i ≤ j) (l : List β) : l.take i ++ (l.take j).drop i = l.take j := by
  have front : (l.take j).take i = l.take i := by rw [List.take_take, Nat.min_eq_left first]
  rw [← front, List.take_append_drop]

theorem lefts_insertPair (first : i ≤ j) (l : List (α ⊕ κ)) (a b : κ) :
    lefts (insertPair l i j (.inr a) (.inr b)) = lefts l := by
  calc lefts (insertPair l i j (.inr a) (.inr b))
      = lefts ((l.take i ++ (l.take j).drop i) ++ l.drop j) := by simp [insertPair]
    _ = lefts l := by rw [take_append_between first, List.take_append_drop]

theorem rights_insertPair (l : List (α ⊕ κ)) (i j : Nat) (a b : κ) :
    rights (insertPair l i j (.inr a) (.inr b)) =
      rights (l.take i) ++ a :: (rights ((l.take j).drop i) ++ b :: rights (l.drop j)) := by
  simp [insertPair]

theorem rights_split (first : i ≤ j) (l : List (α ⊕ κ)) :
    rights l = rights (l.take i) ++ (rights ((l.take j).drop i) ++ rights (l.drop j)) := by
  rw [← List.append_assoc, ← rights_append, ← rights_append, take_append_between first, List.take_append_drop]

theorem rights_insertPair_perm (first : i ≤ j) (l : List (α ⊕ κ)) (a b : κ) :
    (rights (insertPair l i j (.inr a) (.inr b))).Perm (rights l ++ [a, b]) := by
  rw [rights_insertPair, rights_split first l]
  have second : (a :: (rights ((l.take j).drop i) ++ b :: rights (l.drop j))).Perm
      (a :: b :: (rights ((l.take j).drop i) ++ rights (l.drop j))) := List.perm_middle.cons a
  have last : ([a, b] ++ (rights ((l.take j).drop i) ++ rights (l.drop j))).Perm
      ((rights ((l.take j).drop i) ++ rights (l.drop j)) ++ [a, b]) := List.perm_append_comm
  rw [List.append_assoc]
  exact (second.trans last).append_left _

theorem rights_sublist_insertPair (first : i ≤ j) (l : List (α ⊕ κ)) (a b : κ) :
    (rights l).Sublist (rights (insertPair l i j (.inr a) (.inr b))) := by
  rw [rights_insertPair, rights_split first l]
  have tail : (rights ((l.take j).drop i) ++ rights (l.drop j)).Sublist
      (rights ((l.take j).drop i) ++ b :: rights (l.drop j)) := (List.sublist_cons_self b _).append_left _
  exact (tail.cons a).append_left _

theorem pair_sublist_insertPair (l : List (α ⊕ κ)) (i j : Nat) (a b : κ) :
    [a, b].Sublist (rights (insertPair l i j (.inr a) (.inr b))) := by
  rw [rights_insertPair]
  have tail : [b].Sublist (rights ((l.take j).drop i) ++ b :: rights (l.drop j)) := by simp
  exact (tail.cons_cons a).trans (List.sublist_append_right _ _)

theorem insertPair_inj {l : List (α ⊕ κ)} {i' j' : Nat} {a b : κ} (apart : a ≠ b) (freshA : a ∉ rights l)
    (freshB : b ∉ rights l) (first : i ≤ j) (last : j ≤ l.length) (first' : i' ≤ j') (last' : j' ≤ l.length)
    (same : insertPair l i j (.inr a) (.inr b) = insertPair l i' j' (.inr a) (.inr b)) : i = i' ∧ j = j' := by
  have noA : ∀ n : Nat, l[n]? ≠ some (.inr a) := fun n here => freshA (mem_rights_iff_getElem?.mpr ⟨n, here⟩)
  have noB : ∀ n : Nat, l[n]? ≠ some (.inr b) := fun n here => freshB (mem_rights_iff_getElem?.mpr ⟨n, here⟩)
  have atA := getElem?_insertPair_first first last (Sum.inr a) (Sum.inr b)
  rw [same, getElem?_insertPair first' last'] at atA
  have atB := getElem?_insertPair_second first last (Sum.inr a) (Sum.inr b)
  rw [same, getElem?_insertPair first' last'] at atB
  constructor
  · split_ifs at atA with before here inner second
    · exact absurd atA (noA _)
    · exact here
    · exact absurd atA (noA _)
    · simp [apart.symm] at atA
    · exact absurd atA (noA _)
  · split_ifs at atB with before here inner second
    · exact absurd atB (noB _)
    · simp [apart] at atB
    · exact absurd atB (noB _)
    · omega
    · exact absurd atB (noB _)

/-! ### Taking the pair out again -/

def strip (keep : κ → Bool) (l : List (α ⊕ κ)) : List (α ⊕ κ) := l.filter (Sum.elim (fun _ => true) keep)

theorem strip_eq_self {keep : κ → Bool} {l : List (α ⊕ κ)} (kept : ∀ k ∈ rights l, keep k = true) :
    strip keep l = l := by
  refine List.filter_eq_self.mpr ?_
  intro x member
  cases x with
  | inl a => rfl
  | inr k => exact kept k (mem_rights.mpr member)

theorem lefts_strip (keep : κ → Bool) (l : List (α ⊕ κ)) : lefts (strip keep l) = lefts l := by
  induction l with
  | nil => rfl
  | cons x l ih =>
    cases x with
    | inl a => exact congrArg (a :: ·) ih
    | inr k =>
      by_cases kept : keep k = true
      · simpa [strip, kept] using ih
      · simpa [strip, kept] using ih

theorem rights_strip (keep : κ → Bool) (l : List (α ⊕ κ)) : rights (strip keep l) = (rights l).filter keep := by
  induction l with
  | nil => rfl
  | cons x l ih =>
    cases x with
    | inl a => exact ih
    | inr k =>
      by_cases kept : keep k = true
      · simpa [strip, kept] using ih
      · simpa [strip, kept] using ih

theorem strip_insertPair {keep : κ → Bool} {l : List (α ⊕ κ)} {a b : κ} (first : i ≤ j)
    (kept : ∀ k ∈ rights l, keep k = true) (dropA : keep a = false) (dropB : keep b = false) :
    strip keep (insertPair l i j (.inr a) (.inr b)) = l := by
  calc strip keep (insertPair l i j (.inr a) (.inr b))
      = strip keep ((l.take i ++ (l.take j).drop i) ++ l.drop j) := by
        simp [insertPair, strip, dropA, dropB]
    _ = l := by rw [take_append_between first, List.take_append_drop, strip_eq_self kept]

theorem split_at_label {l : List (α ⊕ κ)} {k : κ} {front back : List κ} (split : rights l = front ++ k :: back) :
    ∃ l₁ l₂, l = l₁ ++ .inr k :: l₂ ∧ rights l₁ = front ∧ rights l₂ = back := by
  obtain ⟨l₁, rest, rfl, before, after⟩ := List.filterMap_eq_append_iff.mp split
  obtain ⟨skipped, x, l₂, rfl, none, here, tail⟩ := List.filterMap_eq_cons_iff.mp after
  refine ⟨l₁ ++ skipped, l₂, ?_, ?_, tail⟩
  · rw [Sum.getRight?_eq_some_iff.mp here, List.append_assoc]
  · have empty : rights skipped = [] := List.filterMap_eq_nil_iff.mpr none
    rw [rights_append, empty, List.append_nil]
    exact before

theorem split_of_pair_sublist {xs : List κ} {a b : κ} (ordered : [a, b].Sublist xs) :
    ∃ front middle back, xs = front ++ a :: (middle ++ b :: back) := by
  obtain ⟨upto, rest, split, inUpto, inRest⟩ := List.cons_sublist_iff.mp ordered
  obtain ⟨middle, back, split'⟩ := List.append_of_mem (List.singleton_sublist.mp inRest)
  obtain ⟨front, middle', split''⟩ := List.append_of_mem inUpto
  refine ⟨front, middle' ++ middle, back, ?_⟩
  rw [split, split', split'']
  simp

/-- A list that has `a` before `b` is some list without them with the pair inserted. -/
theorem exists_insertPair {l : List (α ⊕ κ)} {a b : κ} {keep : κ → Bool} (distinct : (rights l).Nodup)
    (ordered : [a, b].Sublist (rights l)) (drops : ∀ k, keep k = false ↔ k = a ∨ k = b) :
    ∃ i j, i ≤ j ∧ j ≤ (strip keep l).length ∧ l = insertPair (strip keep l) i j (.inr a) (.inr b) := by
  obtain ⟨front, middle, back, labels⟩ := split_of_pair_sublist ordered
  obtain ⟨l₁, rest', rfl, rights₁, rightsRest⟩ := split_at_label labels
  obtain ⟨l₂, l₃, rfl, rights₂, rights₃⟩ := split_at_label rightsRest
  have dropA : keep a = false := (drops a).mpr (Or.inl rfl)
  have dropB : keep b = false := (drops b).mpr (Or.inr rfl)
  have kept : ∀ k ∈ rights (l₁ ++ (l₂ ++ l₃)), keep k = true := by
    intro k member
    refine (Bool.eq_false_or_eq_true (keep k)).resolve_right ?_
    intro dropped
    simp only [rights_append, rights_inr, List.nodup_append, List.nodup_cons, List.mem_append, List.mem_cons]
      at distinct member
    rcases (drops k).mp dropped with rfl | rfl
    · grind
    · grind
  have whole : strip keep (l₁ ++ .inr a :: (l₂ ++ .inr b :: l₃)) = l₁ ++ (l₂ ++ l₃) := by
    rw [← strip_eq_self kept]
    simp [strip, dropA, dropB]
  refine ⟨l₁.length, l₁.length + l₂.length, by omega, ?_, ?_⟩
  · rw [whole]
    simp
  · rw [whole]
    simp [insertPair, List.take_append]

/-- With the pair inserted the labels read `front`, `a`, `middle`, `b`, `back` exactly when
`front` stands before the one position and `front ++ middle` before the other. -/
theorem rights_insertPair_eq_iff {l : List (α ⊕ κ)} {a b : κ} {front middle back : List κ} (apart : a ≠ b)
    (first : i ≤ j) (split : rights l = front ++ (middle ++ back)) (freshA : a ∉ rights l) (freshB : b ∉ rights l) :
    rights (insertPair l i j (.inr a) (.inr b)) = front ++ a :: (middle ++ b :: back) ↔
      rights (l.take i) = front ∧ rights (l.take j) = front ++ middle := by
  have whole := rights_split first l
  have upto : rights (l.take j) = rights (l.take i) ++ rights ((l.take j).drop i) := by
    rw [← rights_append, take_append_between first]
  rw [rights_insertPair, upto]
  constructor
  · intro same
    rw [whole] at freshA freshB
    simp only [List.mem_append, not_or] at freshA freshB
    have outer := (List.append_cons_inj_of_notMem freshA.1 (by simp [freshA.2, apart])).mp same
    have inner := (List.append_cons_inj_of_notMem freshB.2.1 freshB.2.2).mp outer.2.2
    exact ⟨outer.1, by rw [outer.1, inner.1]⟩
  · rintro ⟨rfl, between⟩
    rw [List.append_cancel_left_eq] at between
    rw [split, between, List.append_cancel_left_eq, List.append_cancel_left_eq] at whole
    rw [between, whole]

/-! ### Where the labels stand -/

/-- `pos` lists every label of the list with its position, once. -/
structure Locates (pos : List (κ × Nat)) (l : List (α ⊕ κ)) : Prop where
  once : pos.Nodup
  covers : ∀ k n, (k, n) ∈ pos ↔ l[n]? = some (.inr k)

theorem Locates.perm {pos pos' : List (κ × Nat)} {l : List (α ⊕ κ)} (located : Locates pos l)
    (perm : pos'.Perm pos) : Locates pos' l where
  once := perm.nodup_iff.mpr located.once
  covers k n := perm.mem_iff.trans (located.covers k n)

def shift (i j n : Nat) : Nat :=
  if i ≤ n ∧ j ≤ n then n + 2 else if i ≤ n ∨ j ≤ n then n + 1 else n

theorem shift_inj {m n : Nat} (same : shift i j m = shift i j n) : m = n := by
  unfold shift at same
  split_ifs at same <;> omega

theorem shift_ne {n : Nat} (first : i ≤ j) : shift i j n ≠ i ∧ shift i j n ≠ j + 1 := by
  unfold shift
  split_ifs <;> omega

theorem exists_shift {n : Nat} (first : i ≤ j) (notFirst : n ≠ i) (notSecond : n ≠ j + 1) : ∃ m, shift i j m = n := by
  rcases Nat.lt_or_ge n i with before | after
  · exact ⟨n, by unfold shift; split_ifs <;> omega⟩
  · rcases Nat.lt_or_ge j n with behind | inner
    · exact ⟨n - 2, by unfold shift; split_ifs <;> omega⟩
    · exact ⟨n - 1, by unfold shift; split_ifs <;> omega⟩

theorem getElem?_insertPair_shift {l : List β} (first : i ≤ j) (last : j ≤ l.length) (x y : β) (n : Nat) :
    (Interleave.insertPair l i j x y)[shift i j n]? = l[n]? := by
  rw [getElem?_insertPair first last]
  unfold shift
  split_ifs <;> first | omega | rfl

theorem Locates.insertPair {pos : List (κ × Nat)} {l : List (α ⊕ κ)} (located : Locates pos l) (first : i ≤ j)
    (last : j ≤ l.length) (a b : κ) :
    Locates (pos.map (fun item => (item.1, shift i j item.2)) ++ [(a, i), (b, j + 1)])
      (insertPair l i j (.inr a) (.inr b)) where
  once := by
    have distinct : (pos.map fun item => (item.1, shift i j item.2)).Nodup := by
      refine located.once.map ?_
      intro item item' same
      rw [Prod.mk.injEq] at same
      exact Prod.ext same.1 (shift_inj same.2)
    rw [List.nodup_append]
    refine ⟨distinct, ?_, ?_⟩
    · simp only [List.nodup_cons, List.mem_singleton, Prod.mk.injEq, List.not_mem_nil, not_false_eq_true,
        List.nodup_nil, and_true, not_and]
      omega
    · rintro ⟨k, n⟩ member item' member' rfl
      obtain ⟨item, -, here⟩ := List.mem_map.mp member
      have away := @shift_ne i j item.2 first
      rw [(Prod.mk.inj here).2] at away
      simp only [List.mem_cons, Prod.mk.injEq, List.not_mem_nil, or_false] at member'
      omega
  covers k n := by
    simp only [List.mem_append, List.mem_map, Prod.exists, Prod.mk.injEq, List.mem_cons, List.not_mem_nil,
      or_false, located.covers]
    constructor
    · rintro (⟨k', m, here, rfl, rfl⟩ | ⟨rfl, rfl⟩ | ⟨rfl, rfl⟩)
      · rw [getElem?_insertPair_shift first last, here]
      · exact getElem?_insertPair_first first last _ _
      · exact getElem?_insertPair_second first last _ _
    · intro here
      by_cases atFirst : n = i
      · rw [atFirst, getElem?_insertPair_first first last] at here
        exact Or.inr (Or.inl ⟨(Sum.inr.inj (Option.some.inj here)).symm, atFirst⟩)
      by_cases atSecond : n = j + 1
      · rw [atSecond, getElem?_insertPair_second first last] at here
        exact Or.inr (Or.inr ⟨(Sum.inr.inj (Option.some.inj here)).symm, atSecond⟩)
      obtain ⟨m, rfl⟩ := exists_shift first atFirst atSecond
      rw [getElem?_insertPair_shift first last] at here
      exact Or.inl ⟨k, m, here, rfl, rfl⟩

def positions (l : List (α ⊕ κ)) : List (κ × Nat) :=
  l.zipIdx.filterMap fun item => item.1.getRight?.map (·, item.2)

theorem positions_pairwise (l : List (α ⊕ κ)) : (positions l).Pairwise fun x y => x.2 < y.2 := by
  have increasing : l.zipIdx.Pairwise fun x y => x.2 < y.2 := by
    rw [← List.pairwise_map, List.zipIdx_map_snd]
    exact List.pairwise_lt_range'
  refine List.pairwise_filterMap.mpr (increasing.imp ?_)
  intro x y before x' shown y' shown'
  obtain ⟨k, -, rfl⟩ := Option.map_eq_some_iff.mp shown
  obtain ⟨k', -, rfl⟩ := Option.map_eq_some_iff.mp shown'
  exact before

theorem positions_locates (l : List (α ⊕ κ)) : Locates (positions l) l where
  once := (positions_pairwise l).imp fun before same => by simp [same] at before
  covers k n := by
    simp only [positions, List.mem_filterMap, Option.map_eq_some_iff, Sum.getRight?_eq_some_iff]
    constructor
    · rintro ⟨⟨x, m⟩, member, k', rfl, same⟩
      rw [← (Prod.mk.inj same).1, ← (Prod.mk.inj same).2]
      exact List.mem_zipIdx_iff_getElem?.mp member
    · intro here
      exact ⟨(.inr k, n), List.mem_zipIdx_iff_getElem?.mpr here, k, rfl, rfl⟩

theorem map_fst_positions (l : List (α ⊕ κ)) : (positions l).map Prod.fst = rights l := by
  rw [positions, List.map_filterMap]
  have forget : (fun item : (α ⊕ κ) × Nat => (item.1.getRight?.map (·, item.2)).map Prod.fst) =
      Sum.getRight? ∘ Prod.fst := by
    funext item
    simp [Option.map_map, Function.comp_def]
  rw [forget, ← List.filterMap_map, List.zipIdx_map_fst, rights]

theorem Locates.sort_eq {pos : List (κ × Nat)} {l : List (α ⊕ κ)} (located : Locates pos l) (srt : Go.SliceSort) :
    srt.sort (Go.lessBy Prod.snd) pos = positions l := by
  have perm : (srt.sort (Go.lessBy Prod.snd) pos).Perm (positions l) := by
    refine (srt.perm _ pos).trans ((List.perm_ext_iff_of_nodup located.once (positions_locates l).once).mpr ?_)
    rintro ⟨k, n⟩
    exact (located.covers k n).trans ((positions_locates l).covers k n).symm
  have increasing : (positions l).Pairwise fun x y => Go.lessBy Prod.snd y x = false := by
    refine (positions_pairwise l).imp ?_
    intro x y before
    simpa [Go.lessBy] using before.le
  refine List.Perm.eq_of_pairwise ?_ (srt.sorted (Go.lessBy_strictWeak Prod.snd) pos) increasing perm
  rintro ⟨k, n⟩ ⟨k', n'⟩ member member' le le'
  simp only [Go.lessBy, decide_eq_false_iff_not, not_lt] at le le'
  obtain rfl : n = n' := le_antisymm le le'
  have here := ((positions_locates l).covers k n).mp (perm.mem_iff.mp member)
  have here' := ((positions_locates l).covers k' n).mp member'
  rw [here] at here'
  rw [Sum.inr.inj (Option.some.inj here')]

/-- The positions with exactly the labels `front` before them lie behind the last label of
`front` and not behind the first label after it. -/
theorem rights_take_eq_iff {l : List (α ⊕ κ)} {front back : List κ} (split : rights l = front ++ back)
    (distinct : (rights l).Nodup) :
    rights (l.take i) = front ↔
      (∀ k n, front.getLast? = some k → l[n]? = some (.inr k) → n < i) ∧
      (∀ k n, back.head? = some k → l[n]? = some (.inr k) → i ≤ n) := by
  have whole : rights (l.take i) ++ rights (l.drop i) = front ++ back := by
    rw [← rights_append, List.take_append_drop, split]
  have before : ∀ {k : κ} {n : Nat}, l[n]? = some (.inr k) → k ∈ rights (l.take i) → n < i := by
    intro k n here member
    obtain ⟨m, there⟩ := mem_rights_iff_getElem?.mp member
    have inside : m < i := by
      by_contra outside
      rw [List.getElem?_eq_none (by rw [List.length_take]; omega)] at there
      cases there
    rw [List.getElem?_take_of_lt inside] at there
    rw [position_unique distinct here there]
    exact inside
  have behind : ∀ {k : κ} {n : Nat}, l[n]? = some (.inr k) → k ∈ rights (l.drop i) → i ≤ n := by
    intro k n here member
    obtain ⟨m, there⟩ := mem_rights_iff_getElem?.mp member
    rw [List.getElem?_drop] at there
    rw [position_unique distinct here there]
    omega
  constructor
  · intro same
    rw [same, List.append_cancel_left_eq] at whole
    refine ⟨?_, ?_⟩
    · intro k n last here
      exact before here (same ▸ List.mem_of_getLast? last)
    · intro k n head here
      exact behind here (whole ▸ List.mem_of_head? head)
  · rintro ⟨low, high⟩
    rcases List.append_eq_append_iff.mp whole with ⟨extra, long, rest⟩ | ⟨extra, short, rest⟩
    · -- labels of `front` are missing: its last one would stand behind `i`
      rcases List.eq_nil_or_concat extra with rfl | ⟨init, k, rfl⟩
      · rw [long, List.append_nil]
      · have late : k ∈ rights (l.drop i) := by rw [rest]; simp
        have member : k ∈ rights l := by rw [split, long]; simp
        obtain ⟨n, here⟩ := mem_rights_iff_getElem?.mp member
        have early := low k n (by rw [long]; simp) here
        have := behind here late
        omega
    · -- labels of `back` are already there: its first one would stand before `i`
      cases extra with
      | nil => rw [short, List.append_nil]
      | cons k tail =>
        have early : k ∈ rights (l.take i) := by rw [short]; simp
        have member : k ∈ rights l := by rw [split, rest]; simp
        obtain ⟨n, here⟩ := mem_rights_iff_getElem?.mp member
        have late := high k n (by rw [rest]; rfl) here
        have := before here early
        omega

end Interleave
