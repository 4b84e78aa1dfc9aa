import DfsFuzz.Lib.GoMap
import Mathlib.Data.List.Basic

/-!
Scans that keep the least: the first element of the least score, where elements without a score are skipped, and
a map that keeps, for every key, the least of the elements seen so far.
-/

namespace BestScan

variable {α τ : Type} [LT τ] [DecidableLT τ]

def bestStep (score : α → Option τ) (best : Option (α × τ)) (x : α) : Option (α × τ) :=
  match score x with
  | none => best
  | some s =>
    match best with
    | none => some (x, s)
    | some (_, b) => if s < b then some (x, s) else best

def best (score : α → Option τ) (xs : List α) : Option (α × τ) := xs.foldl (bestStep score) none

theorem best_concat (score : α → Option τ) (xs : List α) (x : α) :
    best score (xs ++ [x]) = bestStep score (best score xs) x := by
  simp [best]

structure IsBest [LE τ] (score : α → Option τ) (xs : List α) (x : α) (s : τ) : Prop where
  scored : score x = some s
  least : ∀ y ∈ xs, ∀ t, score y = some t → s ≤ t
  first : ∃ pre post, xs = pre ++ x :: post ∧ ∀ y ∈ pre, ∀ t, score y = some t → s < t

/-- What a scan has found: nothing has a score, or the first of the least. -/
def Found [LE τ] (score : α → Option τ) (xs : List α) : Option (α × τ) → Prop
  | none => ∀ y ∈ xs, score y = none
  | some (x, s) => IsBest score xs x s

variable [LE τ] {score : α → Option τ}

omit [DecidableLT τ] in
theorem IsBest.skip {xs : List α} {x : α} {s : τ} (isBest : IsBest score xs x s) {y : α}
    (later : ∀ t, score y = some t → s ≤ t) : IsBest score (xs ++ [y]) x s := by
  obtain ⟨pre, post, split, before⟩ := isBest.first
  refine ⟨isBest.scored, ?_, pre, post ++ [y], by simp [split], before⟩
  intro z member t scored
  rcases List.mem_append.mp member with old | new
  · exact isBest.least z old t scored
  · rw [List.mem_singleton.mp new] at scored
    exact later t scored

variable [Std.IsLinearOrder τ] [Std.LawfulOrderLT τ]

theorem bestStep_found {xs : List α} {found : Option (α × τ)} (before : Found score xs found) (y : α) :
    Found score (xs ++ [y]) (bestStep score found y) := by
  cases scored : score y with
  | none =>
    simp only [bestStep, scored]
    cases found with
    | none =>
      intro z member
      rcases List.mem_append.mp member with old | new
      · exact before z old
      · rw [List.mem_singleton.mp new, scored]
    | some entry =>
      exact IsBest.skip before fun t impossible => absurd (scored.symm.trans impossible) (by simp)
  | some s =>
    simp only [bestStep, scored]
    cases found with
    | none =>
      refine ⟨scored, ?_, xs, [], rfl, fun z old t impossible => absurd ((before z old).symm.trans impossible) (by simp)⟩
      intro z member t read
      rcases List.mem_append.mp member with old | new
      · exact absurd ((before z old).symm.trans read) (by simp)
      · rw [List.mem_singleton.mp new, scored] at read
        exact Std.le_of_eq (Option.some.inj read)
    | some entry =>
      obtain ⟨x, b⟩ := entry
      have isBest : IsBest score xs x b := before
      by_cases smaller : s < b
      · simp only [smaller, if_true]
        refine ⟨scored, ?_, xs, [], rfl, fun z old t read => Std.lt_of_lt_of_le smaller (isBest.least z old t read)⟩
        intro z member t read
        rcases List.mem_append.mp member with old | new
        · exact Std.le_of_lt (Std.lt_of_lt_of_le smaller (isBest.least z old t read))
        · rw [List.mem_singleton.mp new, scored] at read
          exact Std.le_of_eq (Option.some.inj read)
      · simp only [smaller, if_false]
        refine isBest.skip fun t read => ?_
        rw [scored] at read
        rw [← Option.some.inj read]
        exact Std.not_lt.mp smaller

variable (score) in
theorem best_found (xs : List α) : Found score xs (best score xs) := by
  induction xs using List.reverseRecOn with
  | nil =>
    intro y member
    cases member
  | append_singleton xs x ih =>
    rw [best_concat]
    exact bestStep_found ih x

omit [DecidableLT τ] [Std.IsLinearOrder τ] [Std.LawfulOrderLT τ] in
/-- In an ordered list the first of the least comes before every other one in the order too. -/
theorem IsBest.first_of_pairwise {lt : α → α → Prop} {xs : List α} {x : α} {s : τ} (isBest : IsBest score xs x s)
    (ordered : xs.Pairwise lt) (asymm : ∀ a b, lt a b → ¬ lt b a) {y : α} (member : y ∈ xs) (earlier : lt y x) {t : τ}
    (scored : score y = some t) : s < t := by
  obtain ⟨pre, post, split, before⟩ := isBest.first
  subst split
  rcases List.mem_append.mp member with old | rest
  · exact before y old t scored
  · rcases List.mem_cons.mp rest with same | later
    · subst same
      exact absurd earlier (asymm _ _ earlier)
    · have after := (List.pairwise_cons.mp (List.pairwise_append.mp ordered).2.1).1 y later
      exact absurd earlier (asymm _ _ after)

end BestScan

namespace LeastByKey

variable {α ε : Type} [DecidableEq α] (key : ε → α) (lt : ε → ε → Prop) [DecidableRel lt]

def keepLeast (m : Go.Map α ε) (x : ε) : Go.Map α ε :=
  match m.lookup (key x) with
  | none => m.insert (key x) x
  | some old => if lt x old then m.insert (key x) x else m

/-- `x` is an element of the key and none is before it. -/
structure IsLeast (xs : List ε) (k : α) (x : ε) : Prop where
  mem : x ∈ xs
  key_eq : key x = k
  least : ∀ y ∈ xs, key y = k → ¬ lt y x

/-- What the map holds after the elements of `xs`. -/
structure Kept (xs : List ε) (m : Go.Map α ε) : Prop where
  present : ∀ k, (m.lookup k).isSome ↔ ∃ x ∈ xs, key x = k
  least : ∀ k x, m.lookup k = some x → IsLeast key lt xs k x

variable {key lt}

omit [DecidableEq α] [DecidableRel lt] in
theorem IsLeast.cons_other {xs : List ε} {k : α} {x y : ε} (isLeast : IsLeast key lt xs k x)
    (later : key y = k → ¬ lt y x) : IsLeast key lt (xs ++ [y]) k x where
  mem := List.mem_append_left _ isLeast.mem
  key_eq := isLeast.key_eq
  least z member same := by
    rcases List.mem_append.mp member with old | new
    · exact isLeast.least z old same
    · obtain rfl := List.mem_singleton.mp new
      exact later same

theorem keepLeast_kept (asymm : ∀ x y, lt x y → ¬ lt y x) (trans : ∀ x y z, lt x y → lt y z → lt x z)
    {xs : List ε} {m : Go.Map α ε} (kept : Kept key lt xs m) (x : ε) : Kept key lt (xs ++ [x]) (keepLeast key lt m x) := by
  have irrefl : ∀ y, ¬ lt y y := fun y before => asymm y y before before
  have new : (∀ y ∈ xs, key y = key x → ¬ lt y x) → Kept key lt (xs ++ [x]) (m.insert (key x) x) := by
    intro least
    refine ⟨fun k => ?_, fun k y found => ?_⟩
    · by_cases here : k = key x
      · subst here
        simp
      · rw [AList.lookup_insert_ne here, kept.present k]
        simp [Ne.symm here]
    · by_cases here : k = key x
      · subst here
        rw [AList.lookup_insert] at found
        obtain rfl := Option.some.inj found
        exact ⟨by simp, rfl, fun y member same => by
          rcases List.mem_append.mp member with old | new
          · exact least y old same
          · rw [List.mem_singleton.mp new]
            exact irrefl x⟩
      · rw [AList.lookup_insert_ne here] at found
        exact (kept.least k y found).cons_other fun same => absurd same.symm here
  unfold keepLeast
  cases found : m.lookup (key x) with
  | none =>
    refine new fun y member same => ?_
    have present := (kept.present (key x)).mpr ⟨y, member, same⟩
    rw [found] at present
    cases present
  | some old =>
    have oldLeast := kept.least (key x) old found
    dsimp only
    split
    · rename_i smaller
      exact new fun y member same before => oldLeast.least y member same (trans y x old before smaller)
    · rename_i notSmaller
      refine ⟨fun k => ?_, fun k y here => (kept.least k y here).cons_other fun same => ?_⟩
      · rw [kept.present k]
        constructor
        · rintro ⟨y, member, same⟩
          exact ⟨y, List.mem_append_left _ member, same⟩
        · rintro ⟨y, member, same⟩
          rcases List.mem_append.mp member with before | last
          · exact ⟨y, before, same⟩
          · rw [← same, List.mem_singleton.mp last]
            exact ⟨old, oldLeast.mem, oldLeast.key_eq⟩
      · rw [← same, found] at here
        obtain rfl := Option.some.inj here
        exact notSmaller

theorem foldl_kept (asymm : ∀ x y, lt x y → ¬ lt y x) (trans : ∀ x y z, lt x y → lt y z → lt x z) (xs : List ε) :
    Kept key lt xs (xs.foldl (keepLeast key lt) ∅) := by
  induction xs using List.reverseRecOn with
  | nil => exact ⟨fun k => by simp, fun k x found => by cases found⟩
  | append_singleton xs x ih =>
    rw [List.foldl_append]
    exact keepLeast_kept asymm trans ih x

end LeastByKey
