import Mathlib.Data.List.Basic
import Mathlib.Logic.Function.Basic

/-!
Where what has a name comes from. A table has for some names the last thing that put something there: it was made
by an owner, or moved from another name. The owner of a name is found by following the moves, through names
that are each met once.
-/

namespace Provenance

inductive Source (ν κ : Type) where
  | made (owner : κ)
  | moved (old : ν)

variable {ν κ : Type}

/-- The owner that a name comes to; `old` has the owners of the names that are not in the table. -/
inductive Resolves (last : ν → Option (Source ν κ)) (old : ν → κ) : ν → κ → Prop
  | kept {q : ν} (untouched : last q = none) : Resolves last old q (old q)
  | made {q : ν} {c : κ} (here : last q = some (.made c)) : Resolves last old q c
  | moved {q r : ν} {c : κ} (here : last q = some (.moved r)) (rest : Resolves last old r c) : Resolves last old q c

/-- Following the moves from a name comes to another. -/
inductive Reaches (last : ν → Option (Source ν κ)) : ν → ν → Prop
  | refl (q : ν) : Reaches last q q
  | step {q r p : ν} (here : last q = some (.moved r)) (rest : Reaches last r p) : Reaches last q p

variable {last : ν → Option (Source ν κ)} {old : ν → κ} {p q r : ν} {c : κ}

theorem Reaches.trans (first : Reaches last p q) (second : Reaches last q r) : Reaches last p r := by
  induction first with
  | refl q => exact second
  | step here rest ih => exact .step here (ih second)

theorem Reaches.eq_or_moved (reaches : Reaches last q p) : q = p ∨ ∃ r, last q = some (.moved r) ∧ Reaches last r p := by
  cases reaches with
  | refl => exact .inl rfl
  | step here rest => exact .inr ⟨_, here, rest⟩

theorem Resolves.acyclic (resolves : Resolves last old q c) : ∀ r, last q = some (.moved r) → ¬ Reaches last r q := by
  induction resolves with
  | kept untouched =>
    intro r here
    cases untouched.symm.trans here
  | made here =>
    intro r other
    cases here.symm.trans other
  | @moved q r c here rest ih =>
    intro r' same back
    cases here.symm.trans same
    rcases back.eq_or_moved with rfl | ⟨next, there, later⟩
    · exact ih _ here (.refl _)
    · exact ih _ there (later.trans (.step here (.refl r)))

section Update

variable [DecidableEq ν] {s : Source ν κ}

theorem Resolves.update (resolves : Resolves last old q c) (avoids : ¬ Reaches last q p) :
    Resolves (Function.update last p (some s)) old q c := by
  induction resolves with
  | @kept q untouched =>
    have other : q ≠ p := fun same => avoids (same ▸ .refl q)
    exact .kept (by rw [Function.update_of_ne other, untouched])
  | @made q c here =>
    have other : q ≠ p := fun same => avoids (same ▸ .refl q)
    exact .made (by rw [Function.update_of_ne other, here])
  | @moved q r c here rest ih =>
    have other : q ≠ p := fun same => avoids (same ▸ .refl q)
    refine .moved (by rw [Function.update_of_ne other, here]) (ih fun later => avoids (.step here later))

theorem Reaches.resolves_made (reaches : Reaches last q p) :
    Resolves (Function.update last p (some (.made c))) old q c := by
  induction reaches with
  | refl q => exact .made (Function.update_self ..)
  | @step q r p here rest ih =>
    by_cases same : q = p
    · subst same
      exact .made (Function.update_self ..)
    · exact .moved (by rw [Function.update_of_ne same, here]) ih

end Update

variable [DecidableEq ν]

/-- The moves followed through names not visited before, with `unknown` where one was. -/
def follow (last : ν → Option (Source ν κ)) (old : ν → κ) (unknown : κ) : Nat → List ν → ν → Option κ
  | 0, _, _ => none
  | fuel + 1, visited, q =>
    if q ∈ visited then some unknown
    else
      match last q with
      | none => some (old q)
      | some (.made c) => some c
      | some (.moved r) => follow last old unknown fuel (q :: visited) r

variable {unknown : κ} {fuel : Nat} {visited : List ν}

theorem follow_isSome {keys : List ν} (table : ∀ q, last q ≠ none → q ∈ keys)
    (enough : (keys.filter (· ∉ visited)).length < fuel) : (follow last old unknown fuel visited q).isSome := by
  induction fuel generalizing visited q with
  | zero => exact absurd enough (Nat.not_lt_zero _)
  | succ fuel ih =>
    rw [follow]
    split
    · rfl
    · rename_i fresh
      split
      · rfl
      · rfl
      · rename_i r here
        refine ih ?_
        have member : q ∈ keys := table q (by rw [here]; exact nofun)
        have fewer : (keys.filter (· ∉ q :: visited)).length < (keys.filter (· ∉ visited)).length := by
          have split : keys.filter (· ∉ q :: visited) = (keys.filter (· ∉ visited)).filter (· ≠ q) := by
            rw [List.filter_filter]
            refine List.filter_congr fun x _ => ?_
            simp
          rw [split]
          refine List.length_filter_lt_length_iff_exists.mpr ⟨q, List.mem_filter.mpr ⟨member, ?_⟩, ?_⟩
          · simpa using fresh
          · simp
        omega

theorem Resolves.follow (resolves : Resolves last old q c) (fresh : ∀ v ∈ visited, ¬ Reaches last q v) :
    ∀ found, Provenance.follow last old unknown fuel visited q = some found → found = c := by
  induction resolves generalizing fuel visited with
  | @kept q untouched =>
    intro found run
    cases fuel with
    | zero => cases run
    | succ fuel =>
      have new : q ∉ visited := fun member => fresh q member (.refl q)
      rw [Provenance.follow, if_neg new, untouched] at run
      exact (Option.some.inj run).symm
  | @made q c here =>
    intro found run
    cases fuel with
    | zero => cases run
    | succ fuel =>
      have new : q ∉ visited := fun member => fresh q member (.refl q)
      rw [Provenance.follow, if_neg new, here] at run
      exact (Option.some.inj run).symm
  | @moved q r c here rest ih =>
    intro found run
    cases fuel with
    | zero => cases run
    | succ fuel =>
      have new : q ∉ visited := fun member => fresh q member (.refl q)
      rw [Provenance.follow, if_neg new, here] at run
      refine ih (fun v member later => ?_) found run
      rcases List.mem_cons.mp member with rfl | before
      · exact (Resolves.moved here rest).acyclic r here later
      · exact fresh v before (.step here later)

end Provenance
