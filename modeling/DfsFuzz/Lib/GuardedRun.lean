import Mathlib.Data.List.Basic
import Mathlib.Order.Basic

/-!
Runs of a step function whose steps meet a condition in the state they are made in: an invariant that
such steps keep holds in every state of the run. Runs with a bound on their steps: a run ends with a value if every
bound that is large enough gives it.
-/

namespace GuardedRun

variable {σ α : Type*}

def run (step : σ → α → σ) (s : σ) (steps : List α) : σ := steps.foldl step s

/-- Every step of the run meets the condition where it is made. -/
def Each (step : σ → α → σ) (meets : σ → α → Prop) : σ → List α → Prop
  | _, [] => True
  | s, a :: rest => meets s a ∧ Each step meets (step s a) rest

variable {step : σ → α → σ} {meets : σ → α → Prop} {inv : σ → Prop}

theorem Each.invariant (keeps : ∀ s a, inv s → meets s a → inv (step s a)) {s : σ} (start : inv s) {steps : List α}
    (each : Each step meets s steps) (n : Nat) : inv (run step s (steps.take n)) := by
  induction steps generalizing s n with
  | nil => simpa [run] using start
  | cons a rest ih =>
    cases n with
    | zero => exact start
    | succ n => exact ih (keeps s a start each.1) each.2 n

theorem Each.whole (keeps : ∀ s a, inv s → meets s a → inv (step s a)) {s : σ} (start : inv s) {steps : List α}
    (each : Each step meets s steps) : inv (run step s steps) := by
  have last := each.invariant keeps start steps.length
  rwa [List.take_length] at last

/-- Where the condition says exactly that a step keeps an invariant of the state and what was done, it says so of
runs. -/
theorem each_iff_invariant (inv : σ → List α → Prop)
    (exact_ : ∀ s done a, inv s done → (inv (step s a) (done ++ [a]) ↔ meets s a)) {s : σ} {done : List α} (start : inv s done)
    (steps : List α) : Each step meets s steps ↔ ∀ n, inv (run step s (steps.take n)) (done ++ steps.take n) := by
  induction steps generalizing s done with
  | nil => simpa [run, Each] using start
  | cons a rest ih =>
    constructor
    · rintro ⟨first, each⟩ n
      cases n with
      | zero => simpa [run] using start
      | succ n =>
        have later := (ih ((exact_ s done a start).mpr first)).mp each n
        rwa [List.append_assoc] at later
    · intro always
      have next : inv (step s a) (done ++ [a]) := always 1
      refine ⟨(exact_ s done a start).mp next, (ih next).mpr fun n => ?_⟩
      rw [List.append_assoc]
      exact always (n + 1)

instance decidableEach [∀ s a, Decidable (meets s a)] : ∀ (s : σ) (steps : List α), Decidable (Each step meets s steps)
  | _, [] => inferInstanceAs (Decidable True)
  | s, a :: rest =>
    haveI := decidableEach (step s a) rest
    inferInstanceAs (Decidable (meets s a ∧ Each step meets (step s a) rest))

end GuardedRun

namespace Fuel

variable {α β : Type}

def Ends (run : Nat → Option α) (value : α) : Prop := ∃ enough, ∀ fuel, enough ≤ fuel → run fuel = some value

theorem Ends.const (value : α) : Ends (fun _ => some value) value := ⟨0, fun _ _ => rfl⟩

theorem Ends.succ {run run' : Nat → Option α} {value : α} (step : ∀ fuel, run (fuel + 1) = run' fuel)
    (rest : Ends run' value) : Ends run value := by
  obtain ⟨enough, ends⟩ := rest
  refine ⟨enough + 1, fun fuel more => ?_⟩
  obtain ⟨fuel, rfl⟩ : ∃ less, fuel = less + 1 := ⟨fuel - 1, by omega⟩
  rw [step, ends fuel (by omega)]

theorem Ends.map {run : Nat → Option α} {value : α} (f : α → β) (ends : Ends run value) :
    Ends (fun fuel => (run fuel).map f) (f value) := by
  obtain ⟨enough, ends⟩ := ends
  exact ⟨enough, fun fuel more => congrArg (Option.map f) (ends fuel more)⟩

theorem Ends.bind {run : Nat → Option α} {value : α} {next : Nat → α → Option β} {result : β} (ends : Ends run value)
    (rest : Ends (fun fuel => next fuel value) result) : Ends (fun fuel => (run fuel).bind (next fuel)) result := by
  obtain ⟨enough, ends⟩ := ends
  obtain ⟨enough', ends'⟩ := rest
  refine ⟨max enough enough', fun fuel more => ?_⟩
  show (run fuel).bind (next fuel) = some result
  rw [ends fuel (by omega), Option.bind_some]
  exact ends' fuel (by omega)

end Fuel
