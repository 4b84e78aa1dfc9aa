import Mathlib.Data.Option.Basic
import Mathlib.Logic.Function.Basic
import Mathlib.Order.Basic

/-!
A table of descriptors held in variables. A variable has the number that was assigned to it; an open number
refers to an open file description, which belongs to a file. Numbers are not used again.
-/

/-- `ν` is the type of variables and `φ` that of files. -/
structure FdTable (ν φ : Type) where
  number : ν → Option Nat
  description : Nat → Option Nat
  file : Nat → Option φ
  next : Nat

namespace FdTable

section Operations

variable {ν φ : Type}

def empty : FdTable ν φ := ⟨fun _ => none, fun _ => none, fun _ => none, 0⟩

/-- The description that a variable refers to, while its number is open. -/
def at? (t : FdTable ν φ) (v : ν) : Option Nat := (t.number v).bind t.description

/-- The file of the descriptor that a variable has. -/
def fileOf (t : FdTable ν φ) (v : ν) : Option φ := (t.at? v).bind t.file

/-- The number of a variable, or the next where it has none. -/
def numberOr (t : FdTable ν φ) (v : ν) : Nat := (t.number v).getD t.next

/-- A description that is not in use gets a file. -/
def describe (t : FdTable ν φ) (f : φ) : FdTable ν φ := { t with file := Function.update t.file t.next (some f) }

/-- `close(v)` -/
def closed (t : FdTable ν φ) (v : ν) : FdTable ν φ :=
  match t.number v with
  | none => t
  | some n => { t with description := Function.update t.description n none }

variable [DecidableEq ν]

/-- The number is open on the description, and the variables have it. -/
def assign (t : FdTable ν φ) (vs : List ν) (n d : Nat) : FdTable ν φ where
  number v := if v ∈ vs then some n else t.number v
  description := Function.update t.description n (some d)
  file := t.file
  next := t.next + 1

/-- `v = open(..)`: a new number with a new description. -/
def opened (t : FdTable ν φ) (v : ν) (f : φ) : FdTable ν φ := (t.describe f).assign [v] t.next t.next

/-- `v = dup(..)`: a new number with the description. -/
def duped (t : FdTable ν φ) (v : ν) (d : Nat) : FdTable ν φ := t.assign [v] t.next d

/-- `v = dup2(.., onto)`: the number of the second argument gets the description, and is what the call
returns. -/
def duped2 (t : FdTable ν φ) (onto v : ν) (d : Nat) : FdTable ν φ := t.assign [onto, v] (t.numberOr onto) d

end Operations

variable {ν φ : Type} {t : FdTable ν φ} {v other onto : ν} {d e n : Nat} {f : φ} {vs : List ν}

/-- What is in use is below what comes next, and a description in use has a file. -/
structure Sound (t : FdTable ν φ) : Prop where
  number : ∀ v n, t.number v = some n → n < t.next
  unused : ∀ n, t.next ≤ n → t.description n = none
  description : ∀ n d, t.description n = some d → d < t.next ∧ (t.file d).isSome

theorem at?_eq_some : t.at? v = some d ↔ ∃ n, t.number v = some n ∧ t.description n = some d :=
  Option.bind_eq_some_iff

theorem sound_empty : (empty : FdTable ν φ).Sound where
  number _ _ here := by cases here
  unused _ _ := rfl
  description _ _ here := by cases here

theorem Sound.known (sound : t.Sound) (live : t.at? v = some d) : d < t.next ∧ (t.file d).isSome := by
  obtain ⟨n, -, refers⟩ := at?_eq_some.mp live
  exact sound.description n d refers

theorem Sound.fresh (sound : t.Sound) (v : ν) : t.number v ≠ some t.next := by
  intro same
  exact Nat.lt_irrefl _ (sound.number v t.next same)

theorem Sound.numberOr (sound : t.Sound) (v : ν) : t.numberOr v ≤ t.next := by
  rw [FdTable.numberOr]
  cases number : t.number v with
  | none => exact Nat.le_refl _
  | some n => exact Nat.le_of_lt (sound.number v n number)

theorem fileOf_live (live : t.at? v = some d) : t.fileOf v = t.file d := by
  rw [fileOf, live, Option.bind_some]

theorem at?_closed : (t.closed v).at? other = if t.number other = t.number v then none else t.at? other := by
  cases number : t.number v with
  | none =>
    simp only [closed, number]
    split
    · rename_i same
      rw [at?, same, Option.bind_none]
    · rfl
  | some n =>
    simp only [closed, number, at?]
    cases here : t.number other with
    | none => simp
    | some m =>
      by_cases same : m = n
      · subst same
        simp
      · simp [same]

theorem Sound.closed (sound : t.Sound) (v : ν) : (t.closed v).Sound := by
  rw [FdTable.closed]
  split
  · exact sound
  · rename_i n number
    refine ⟨sound.number, fun m above => ?_, fun m e here => ?_⟩
    · by_cases same : m = n
      · subst same
        exact Function.update_self ..
      · simp only [Function.update_of_ne same]
        exact sound.unused m above
    · by_cases same : m = n
      · subst same
        simp at here
      · simp only [Function.update_of_ne same] at here
        exact sound.description m e here

theorem at?_describe : (t.describe f).at? other = t.at? other := rfl

theorem Sound.describe (sound : t.Sound) (f : φ) : (t.describe f).Sound where
  number := sound.number
  unused := sound.unused
  description n d here := by
    obtain ⟨below, file⟩ := sound.description n d here
    refine ⟨below, ?_⟩
    simp only [FdTable.describe, Function.update_of_ne (Nat.ne_of_lt below), file]

variable [DecidableEq ν]

theorem at?_assign :
    (t.assign vs n d).at? other = if other ∈ vs ∨ t.number other = some n then some d else t.at? other := by
  by_cases given : other ∈ vs
  · simp [at?, assign, given]
  simp only [at?, assign, given, if_false, false_or]
  cases number : t.number other with
  | none => simp
  | some m =>
    by_cases same : m = n
    · subst same
      simp
    · simp [same]

theorem at?_opened (sound : t.Sound) : (t.opened v f).at? other = if other = v then some t.next else t.at? other := by
  have fresh : (t.describe f).number other ≠ some t.next := sound.fresh other
  rw [opened, at?_assign, at?_describe]
  simp only [List.mem_singleton, fresh, or_false]

theorem at?_duped (sound : t.Sound) : (t.duped v d).at? other = if other = v then some d else t.at? other := by
  rw [duped, at?_assign]
  simp only [List.mem_singleton, sound.fresh other, or_false]

theorem at?_duped2 : (t.duped2 onto v d).at? other =
    if other ∈ [onto, v] ∨ t.number other = some (t.numberOr onto) then some d else t.at? other := at?_assign

theorem Sound.assign (sound : t.Sound) (vs : List ν) (number : n ≤ t.next) (known : d ≤ t.next) (given : (t.file d).isSome) :
    (t.assign vs n d).Sound where
  number other m here := by
    simp only [FdTable.assign] at here ⊢
    split at here
    · cases here
      exact Nat.lt_succ_of_le number
    · exact Nat.lt_succ_of_lt (sound.number other m here)
  unused m above := by
    have different : m ≠ n := Nat.ne_of_gt (Nat.lt_of_le_of_lt number above)
    simp only [FdTable.assign, Function.update_of_ne different]
    exact sound.unused m (Nat.le_of_succ_le above)
  description m e here := by
    by_cases new : m = n
    · subst new
      simp only [FdTable.assign, Function.update_self, Option.some.injEq] at here
      subst here
      exact ⟨Nat.lt_succ_of_le known, given⟩
    · simp only [FdTable.assign, Function.update_of_ne new] at here
      obtain ⟨below, file⟩ := sound.description m e here
      exact ⟨Nat.lt_succ_of_lt below, file⟩

theorem Sound.opened (sound : t.Sound) (v : ν) (f : φ) : (t.opened v f).Sound :=
  (sound.describe f).assign [v] (Nat.le_refl _) (Nat.le_refl _) (by simp [FdTable.describe])

theorem Sound.duped (sound : t.Sound) (v : ν) (live : t.at? other = some d) : (t.duped v d).Sound :=
  sound.assign [v] (Nat.le_refl _) (Nat.le_of_lt (sound.known live).1) (sound.known live).2

theorem Sound.duped2 (sound : t.Sound) (onto v : ν) (live : t.at? other = some d) : (t.duped2 onto v d).Sound :=
  sound.assign [onto, v] (sound.numberOr onto) (Nat.le_of_lt (sound.known live).1) (sound.known live).2

end FdTable
