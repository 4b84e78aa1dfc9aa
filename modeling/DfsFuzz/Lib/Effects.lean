import Mathlib.Data.Option.Defs
import Mathlib.Order.Defs.Unbundled
import Mathlib.Tactic.Common

/-!
What a computation that reads and writes a state, and may fail, does to the state. `On R p x` says that
every result of `x` that satisfies `p` comes with a state related to the first; `Never p x` says that
there is no such result.
-/

namespace Effects

variable {σ α β : Type} {R S : σ → σ → Prop} {p : β → Prop}

def On (R : σ → σ → Prop) (p : α → Prop) (x : StateT σ Option α) : Prop :=
  ∀ ⦃s a s'⦄, x s = some (a, s') → p a → R s s'

def Always (R : σ → σ → Prop) (x : StateT σ Option α) : Prop := ∀ ⦃s a s'⦄, x s = some (a, s') → R s s'

def Never (p : α → Prop) (x : StateT σ Option α) : Prop := ∀ ⦃s a s'⦄, x s = some (a, s') → ¬ p a

theorem bind_eq_some {x : StateT σ Option α} {f : α → StateT σ Option β} {s s' : σ} {b : β} :
    (x >>= f) s = some (b, s') ↔ ∃ a s₁, x s = some (a, s₁) ∧ f a s₁ = some (b, s') := by
  change (x s).bind (fun q => f q.1 q.2) = some (b, s') ↔ _
  rw [Option.bind_eq_some_iff]
  constructor
  · rintro ⟨⟨a, s₁⟩, first, second⟩
    exact ⟨a, s₁, first, second⟩
  · rintro ⟨a, s₁, first, second⟩
    exact ⟨(a, s₁), first, second⟩

theorem Always.on {x : StateT σ Option α} (always : Always R x) (q : α → Prop) : On R q x :=
  fun _ _ _ run _ => always run

theorem Always.pure [Std.Refl R] (a : α) : Always R (Pure.pure a : StateT σ Option α) := by
  intro s b s' run
  cases run
  exact refl s

theorem Always.fail : Always R (fun _ => none : StateT σ Option α) := by
  intro s a s' run
  cases run

theorem Always.bind [IsTrans σ R] {x : StateT σ Option α} {f : α → StateT σ Option β} (first : Always R x)
    (second : ∀ a, Always R (f a)) : Always R (x >>= f) := by
  intro s b s' run
  obtain ⟨a, s₁, here, rest⟩ := bind_eq_some.mp run
  exact Trans.trans (first here) (second a rest)

theorem On.bind_of {T : σ → σ → Prop} {x : StateT σ Option α} {f : α → StateT σ Option β} (first : Always S x)
    (second : ∀ a, On R p (f a)) (compose : ∀ ⦃s s₁ s'⦄, S s s₁ → R s₁ s' → T s s') : On T p (x >>= f) := by
  intro s b s' run result
  obtain ⟨a, s₁, here, rest⟩ := bind_eq_some.mp run
  exact compose (first here) (second a rest result)

theorem On.bind [IsTrans σ R] {x : StateT σ Option α} {f : α → StateT σ Option β} (first : Always R x)
    (second : ∀ a, On R p (f a)) : On R p (x >>= f) :=
  On.bind_of first second fun _ _ _ => Trans.trans

/-- The same from one state, where what the steps before have read is known. -/
def OnFrom (R : σ → σ → Prop) (p : β → Prop) (s : σ) (x : StateT σ Option β) : Prop :=
  ∀ ⦃a s'⦄, x s = some (a, s') → p a → R s s'

theorem On.of_from {x : StateT σ Option β} (each : ∀ s, OnFrom R p s x) : On R p x := fun s _ _ run => each s run

theorem On.onFrom {x : StateT σ Option β} (on : On R p x) (s : σ) : OnFrom R p s x := fun _ _ run => on run

theorem OnFrom.bind [IsTrans σ R] {x : StateT σ Option α} {f : α → StateT σ Option β} {s : σ} (first : Always R x)
    (second : ∀ a s₁, x s = some (a, s₁) → OnFrom R p s₁ (f a)) : OnFrom R p s (x >>= f) := by
  intro b s' run result
  obtain ⟨a, s₁, here, rest⟩ := bind_eq_some.mp run
  exact Trans.trans (first here) (second a s₁ here rest result)

theorem Never.on {x : StateT σ Option β} (never : Never p x) : On R p x :=
  fun _ _ _ run result => absurd result (never run)

theorem Never.pure {b : β} (other : ¬ p b) : Never p (Pure.pure b : StateT σ Option β) := by
  intro s a s' run
  cases run
  exact other

theorem Never.bind {x : StateT σ Option α} {f : α → StateT σ Option β} (second : ∀ a, Never p (f a)) :
    Never p (x >>= f) := by
  intro s b s' run
  obtain ⟨a, s₁, -, rest⟩ := bind_eq_some.mp run
  exact second a rest

/-- From states that agree the computation comes to the same result and to states that agree. -/
def Related (A : σ → σ → Prop) (x : StateT σ Option α) : Prop :=
  ∀ ⦃s t⦄, A s t → Option.Rel (fun p q => p.1 = q.1 ∧ A p.2 q.2) (x s) (x t)

variable {A : σ → σ → Prop}

theorem Related.pure (a : α) : Related A (Pure.pure a : StateT σ Option α) := fun _ _ agree => .some ⟨rfl, agree⟩

theorem Related.fail : Related A (fun _ => none : StateT σ Option α) := fun _ _ _ => .none

theorem Related.bind {x : StateT σ Option α} {f : α → StateT σ Option β} (first : Related A x)
    (second : ∀ a, Related A (f a)) : Related A (x >>= f) := by
  intro s t agree
  change Option.Rel _ ((x s).bind fun q => f q.1 q.2) ((x t).bind fun q => f q.1 q.2)
  have here := first agree
  revert here
  cases x s with
  | none =>
    cases x t with
    | none => exact fun _ => .none
    | some q => intro here; cases here
  | some p =>
    cases x t with
    | none => intro here; cases here
    | some q =>
      intro here
      cases here with
      | some both =>
        obtain ⟨a, s₁⟩ := p
        obtain ⟨b, t₁⟩ := q
        obtain ⟨rfl, agree₁⟩ := both
        exact second a agree₁

end Effects
