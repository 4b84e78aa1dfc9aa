import Mathlib.Data.List.Basic
import Mathlib.Data.Option.Basic
import Mathlib.Tactic.Linarith

/-!
Sums over a list. By weight: a number below the total is drawn, and the first element whose cumulative weight
exceeds it is taken. Of counts that may have no value: for counts that are not negative the sum is zero exactly
where each of them is.
-/

namespace WeightedPick

variable {α : Type} (weight : α → Nat)

def total (l : List α) : Nat := l.foldl (fun sum a => sum + weight a) 0

def pick (x : Nat) : Nat → List α → Option α
  | _, [] => none
  | cumSum, a :: rest => if x < cumSum + weight a then some a else pick x (cumSum + weight a) rest

theorem total_from (l : List α) (start : Nat) : l.foldl (fun sum a => sum + weight a) start = start + total weight l := by
  unfold total
  induction l generalizing start with
  | nil => rfl
  | cons a l ih =>
    rw [List.foldl_cons, List.foldl_cons, ih, ih (0 + weight a)]
    omega

theorem total_cons (a : α) (l : List α) : total weight (a :: l) = weight a + total weight l := by
  rw [total, List.foldl_cons, total_from]
  omega

variable {weight}

theorem pick_mem {x cumSum : Nat} {l : List α} {a : α} (picked : pick weight x cumSum l = some a) : a ∈ l := by
  induction l generalizing cumSum with
  | nil => cases picked
  | cons b l ih =>
    rw [pick] at picked
    split at picked
    · obtain rfl := Option.some.inj picked
      exact List.mem_cons_self
    · exact List.mem_cons_of_mem _ (ih picked)

theorem exists_pick {l : List α} {a : α} (member : a ∈ l) (positive : 0 < weight a) (cumSum : Nat) :
    ∃ x, cumSum ≤ x ∧ x < cumSum + total weight l ∧ pick weight x cumSum l = some a := by
  induction l generalizing cumSum with
  | nil => cases member
  | cons b l ih =>
    rw [total_cons]
    rcases List.mem_cons.mp member with rfl | later
    · refine ⟨cumSum, Nat.le_refl _, by omega, ?_⟩
      rw [pick, if_pos (by omega)]
    · obtain ⟨x, low, high, picked⟩ := ih later (cumSum + weight b)
      refine ⟨x, by omega, by omega, ?_⟩
      rw [pick, if_neg (by omega), picked]

theorem total_pos {l : List α} {a : α} (member : a ∈ l) (positive : 0 < weight a) : 0 < total weight l := by
  obtain ⟨x, _, below, _⟩ := exists_pick member positive 0
  omega

/-! ### How many draws choose an element -/

theorem pick_isSome {x cumSum : Nat} {l : List α} (above : cumSum ≤ x) (below : x < cumSum + total weight l) :
    (pick weight x cumSum l).isSome := by
  induction l generalizing cumSum with
  | nil => exact absurd below (Nat.not_lt.mpr above)
  | cons b l ih =>
    rw [pick]
    split
    · rfl
    · rename_i later
      rw [total_cons] at below
      exact ih (by omega) (by omega)

variable [DecidableEq α]

theorem countP_pick_from {l : List α} (nodup : l.Nodup) (a : α) (cumSum : Nat) :
    ((List.range' cumSum (total weight l)).countP fun x => pick weight x cumSum l = some a) =
      if a ∈ l then weight a else 0 := by
  induction l generalizing cumSum with
  | nil => rfl
  | cons b l ih =>
    obtain ⟨fresh, rest⟩ := List.nodup_cons.mp nodup
    have own : ((List.range' cumSum (weight b)).countP fun x => pick weight x cumSum (b :: l) = some a) =
        if b = a then weight b else 0 := by
      have each : ∀ x ∈ List.range' cumSum (weight b), pick weight x cumSum (b :: l) = some b := by
        intro x inside
        rw [pick, if_pos (List.mem_range'_1.mp inside).2]
      rw [List.countP_congr (q := fun _ => decide (b = a)) fun x inside => by simp [each x inside]]
      by_cases same : b = a <;> simp [same]
    have later : ((List.range' (cumSum + weight b) (total weight l)).countP fun x => pick weight x cumSum (b :: l) = some a) =
        if a ∈ l then weight a else 0 := by
      rw [← ih rest (cumSum + weight b)]
      refine List.countP_congr fun x inside => ?_
      have beyond := (List.mem_range'_1.mp inside).1
      rw [pick, if_neg (by omega)]
    rw [total_cons, ← List.range'_append_1, List.countP_append, own, later]
    by_cases same : b = a
    · subst same
      simp [fresh]
    · simp [same, Ne.symm same]

theorem countP_pick {l : List α} (nodup : l.Nodup) {a : α} (member : a ∈ l) :
    ((List.range (total weight l)).countP fun x => pick weight x 0 l = some a) = weight a := by
  rw [List.range_eq_range', countP_pick_from nodup, if_pos member]

end WeightedPick

namespace Tally

variable {α : Type}

def total (f : α → Option Int) : List α → Option Int
  | [] => some 0
  | x :: l => (f x).bind fun n => (total f l).map fun m => n + m

/-- A value, if there is one, that is not negative. -/
def NonNeg (o : Option Int) : Prop := ∀ n, o = some n → 0 ≤ n

def Counts (f : α → Option Int) : Prop := ∀ x, NonNeg (f x)

theorem NonNeg.some {n : Int} (nonneg : 0 ≤ n) : NonNeg (some n) := by
  intro m same
  cases same
  exact nonneg

theorem NonNeg.bind {β : Type} {o : Option β} {g : β → Option Int} (later : ∀ a, NonNeg (g a)) : NonNeg (o.bind g) := by
  intro n same
  obtain ⟨a, -, rest⟩ := Option.bind_eq_some_iff.mp same
  exact later a n rest

theorem NonNeg.map {β : Type} {o : Option β} {g : β → Int} (nonneg : ∀ a, 0 ≤ g a) : NonNeg (o.map g) := by
  intro n same
  obtain ⟨a, -, rfl⟩ := Option.map_eq_some_iff.mp same
  exact nonneg a

variable {f : α → Option Int} {l : List α}

theorem total_cons_eq_some {x : α} {k : Int} :
    total f (x :: l) = some k ↔ ∃ n m, f x = some n ∧ total f l = some m ∧ k = n + m := by
  rw [total, Option.bind_eq_some_iff]
  constructor
  · rintro ⟨n, first, rest⟩
    obtain ⟨m, later, rfl⟩ := Option.map_eq_some_iff.mp rest
    exact ⟨n, m, first, later, rfl⟩
  · rintro ⟨n, m, first, later, rfl⟩
    exact ⟨n, first, by rw [later, Option.map_some]⟩

theorem nonNeg_total (counts : ∀ x ∈ l, NonNeg (f x)) : NonNeg (total f l) := by
  induction l with
  | nil => exact .some (Int.le_refl 0)
  | cons x l ih =>
    intro k same
    obtain ⟨n, m, first, later, rfl⟩ := total_cons_eq_some.mp same
    rw [List.forall_mem_cons] at counts
    exact Int.add_nonneg (counts.1 n first) (ih counts.2 m later)

theorem Counts.total (counts : Counts f) : Counts (total f) := fun _ => nonNeg_total fun x _ => counts x

theorem total_eq_zero_iff (counts : ∀ x ∈ l, NonNeg (f x)) : total f l = some 0 ↔ ∀ x ∈ l, f x = some 0 := by
  induction l with
  | nil => simp [total]
  | cons x l ih =>
    rw [List.forall_mem_cons] at counts
    rw [List.forall_mem_cons, total_cons_eq_some, ← ih counts.2]
    constructor
    · rintro ⟨n, m, first, later, sum⟩
      have left := counts.1 n first
      have right := nonNeg_total counts.2 m later
      obtain rfl : n = 0 := by linarith
      obtain rfl : m = 0 := by linarith
      exact ⟨first, later⟩
    · rintro ⟨first, later⟩
      exact ⟨0, 0, first, later, rfl⟩

theorem total_isSome_iff : (total f l).isSome ↔ ∀ x ∈ l, (f x).isSome := by
  induction l with
  | nil => simp [total]
  | cons x l ih =>
    rw [List.forall_mem_cons, total, ← ih]
    cases f x with
    | none => simp
    | some n => simp

end Tally
