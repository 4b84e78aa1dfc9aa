import DfsFuzz.Prog.Objects

/-!
What `HasBrokenRefs` decides (`prog/diagnose.go`), and the links that every mutator relies on.
-/

namespace DfsFuzz.Refs

/-- Every reference is to a result that an earlier call owns. -/
def Backward (m : Memory) (calls : List Call) : Prop :=
  ∀ (i : Nat) (c : Call), calls[i]? = some c → ∀ a ∈ c.results, ∀ res, (m.results a).res = some res →
    ∃ j < i, ∃ d : Call, calls[j]? = some d ∧ res ∈ d.owned m

variable {m : Memory} {a : Addr}

theorem mem_results_of_owned {c : Call} (owned : a ∈ c.owned m) : a ∈ c.results := by
  rcases List.mem_append.mp owned with ret | arg
  · exact List.mem_append_left _ ret
  · exact List.mem_append_right _ (List.mem_filter.mp arg).1

theorem register_apply (m : Memory) (known : Addr → Option Nat) (c : Call) (i : Nat) (a : Addr) :
    register m known (c, i) a = if a ∈ c.owned m then some i else known a := by
  rw [register]
  generalize c.owned m = l
  induction l generalizing known with
  | nil => simp
  | cons x l ih =>
    rw [List.foldl_cons, ih]
    by_cases later : a ∈ l
    · simp [later]
    · by_cases here : a = x <;> simp [later, here]

theorem owners_fold_some {l : List (Call × Nat)} {known : Addr → Option Nat} {i : Nat}
    (found : l.foldl (register m) known a = some i) : known a = some i ∨ ∃ c, (c, i) ∈ l ∧ a ∈ c.owned m := by
  induction l generalizing known with
  | nil => exact .inl found
  | cons x l ih =>
    obtain ⟨c, n⟩ := x
    rcases ih found with here | ⟨d, member, owned⟩
    · rw [register_apply] at here
      split at here
      · rename_i owned
        obtain rfl := Option.some.inj here
        exact .inr ⟨c, List.mem_cons_self, owned⟩
      · exact .inl here
    · exact .inr ⟨d, List.mem_cons_of_mem _ member, owned⟩

theorem owners_fold_known {l : List (Call × Nat)} {known : Addr → Option Nat}
    (registered : (∃ i, known a = some i) ∨ ∃ c i, (c, i) ∈ l ∧ a ∈ c.owned m) :
    ∃ i, l.foldl (register m) known a = some i := by
  induction l generalizing known with
  | nil =>
    rcases registered with before | ⟨c, i, member, -⟩
    · exact before
    · cases member
  | cons x l ih =>
    obtain ⟨c, n⟩ := x
    refine ih ?_
    rw [register_apply]
    rcases registered with ⟨i, before⟩ | ⟨d, i, member, owned⟩
    · left
      split
      · exact ⟨n, rfl⟩
      · exact ⟨i, before⟩
    · rcases List.mem_cons.mp member with same | later
      · cases same
        rw [if_pos owned]
        exact .inl ⟨_, rfl⟩
      · exact .inr ⟨d, i, later, owned⟩

theorem index_eq_of_mem_results {calls : List Call} (once : (calls.flatMap Call.results).Nodup) {i j : Nat}
    {c d : Call} (first : calls[i]? = some c) (second : calls[j]? = some d) (inFirst : a ∈ c.results)
    (inSecond : a ∈ d.results) : i = j := by
  rw [List.nodup_flatMap] at once
  obtain ⟨inside, rfl⟩ := List.getElem?_eq_some_iff.mp first
  obtain ⟨inside', rfl⟩ := List.getElem?_eq_some_iff.mp second
  rcases Nat.lt_trichotomy i j with less | same | more
  · exact absurd inSecond ((List.pairwise_iff_getElem.mp once.2 i j inside inside' less) inFirst)
  · exact same
  · exact absurd inFirst ((List.pairwise_iff_getElem.mp once.2 j i inside' inside more) inSecond)

theorem owners_eq_some_iff {calls : List Call} (once : (calls.flatMap Call.results).Nodup) {i : Nat} :
    owners m calls a = some i ↔ ∃ c, calls[i]? = some c ∧ a ∈ c.owned m := by
  have sound : ∀ {i}, owners m calls a = some i → ∃ c, calls[i]? = some c ∧ a ∈ c.owned m := by
    intro i found
    rcases owners_fold_some found with none | ⟨c, member, owned⟩
    · cases none
    · exact ⟨c, List.mem_zipIdx_iff_getElem?.mp member, owned⟩
  refine ⟨sound, ?_⟩
  rintro ⟨c, here, owned⟩
  obtain ⟨j, found⟩ : ∃ j, owners m calls a = some j :=
    owners_fold_known (.inr ⟨c, i, List.mem_zipIdx_iff_getElem?.mpr here, owned⟩)
  obtain ⟨d, there, owned'⟩ := sound found
  rw [index_eq_of_mem_results once here there (mem_results_of_owned owned) (mem_results_of_owned owned')]
  exact found

/-- A use at position `i` that no call before makes. -/
def brokenAt (m : Memory) (p : Prog) (i : Nat) (a : Addr) : Bool :=
  match (m.results a).res with
  | none => false
  | some res =>
    match owners m p.calls res with
    | none => true
    | some owner => decide (owner ≥ i)

theorem hasBrokenRefs_iff {p : Prog} (once : p.results.Nodup) : hasBrokenRefs m p = false ↔ Backward m p.calls := by
  have call : ∀ (i : Nat) (c : Call), ((resultsOfList c.args ++ c.ret.toList).any (brokenAt m p i)) = false ↔
      ∀ a ∈ c.results, ∀ res, (m.results a).res = some res → ∃ j < i, ∃ d, p.calls[j]? = some d ∧ res ∈ d.owned m := by
    intro i c
    rw [List.any_eq_false]
    have members : ∀ a, a ∈ resultsOfList c.args ++ c.ret.toList ↔ a ∈ c.results := by
      intro a
      rw [Call.results, List.mem_append, List.mem_append, or_comm]
    refine forall_congr' fun a => ?_
    rw [members]
    refine imp_congr_right fun _ => ?_
    unfold brokenAt
    cases (m.results a).res with
    | none => simp
    | some res =>
      simp only [Option.some.injEq, forall_eq']
      cases found : owners m p.calls res with
      | none =>
        simp only [not_true_eq_false, false_iff]
        rintro ⟨j, -, d, here, owned⟩
        rw [(owners_eq_some_iff once).mpr ⟨d, here, owned⟩] at found
        cases found
      | some owner =>
        simp only [decide_eq_true_eq, Nat.not_le, ge_iff_le]
        constructor
        · intro before
          exact ⟨owner, before, (owners_eq_some_iff once).mp found⟩
        · rintro ⟨j, before, d, here, owned⟩
          rw [(owners_eq_some_iff once).mpr ⟨d, here, owned⟩] at found
          cases found
          exact before
  rw [hasBrokenRefs, List.any_eq_false]
  constructor
  · intro all i c here
    exact (call i c).mp (eq_false_of_ne_true (all (c, i) (List.mem_zipIdx_iff_getElem?.mpr here)))
  · rintro all ⟨c, i⟩ member
    exact ne_true_of_eq_false ((call i c).mpr (all i c (List.mem_zipIdx_iff_getElem?.mp member)))

mutual

theorem objectsOf_of_resultsOf (arg : Arg) {a : Addr} (member : a ∈ resultsOf arg) : a ∈ objectsOf arg := by
  match arg with
  | .const _ _ _ | .vma _ _ _ _ | .data _ _ _ _ => cases member
  | .pointer _ _ _ _ res => exact List.mem_cons_of_mem _ (objectsOf_of_resultsOf res member)
  | .group _ _ inner => exact List.mem_cons_of_mem _ (objectsOfList_of_resultsOfList inner member)
  | .union _ _ option _ => exact List.mem_cons_of_mem _ (objectsOf_of_resultsOf option member)
  | .result _ => exact member

theorem objectsOfList_of_resultsOfList (args : List Arg) {a : Addr} (member : a ∈ resultsOfList args) :
    a ∈ objectsOfList args := by
  match args with
  | [] => cases member
  | arg :: rest =>
    rcases List.mem_append.mp member with first | later
    · exact List.mem_append_left _ (objectsOf_of_resultsOf arg first)
    · exact List.mem_append_right _ (objectsOfList_of_resultsOfList rest later)

end

theorem objects_of_results {p : Prog} (member : a ∈ p.results) : a ∈ p.objects := by
  obtain ⟨c, inside, here⟩ := List.mem_flatMap.mp member
  refine List.mem_flatMap.mpr ⟨c, inside, ?_⟩
  rcases List.mem_append.mp here with ret | arg
  · exact List.mem_append_left _ ret
  · exact List.mem_append_right _ (objectsOfList_of_resultsOfList c.args arg)

/-- Each result argument occurs once, the uses are the inverse of the references, and these go back. -/
structure Linked (m : Memory) (p : Prog) : Prop where
  once : p.results.Nodup
  inverse : ∀ a ∈ p.results, (m.results a).uses.Nodup ∧
    ∀ b, b ∈ (m.results a).uses ↔ b ∈ p.results ∧ (m.results b).res = some a
  unbroken : hasBrokenRefs m p = false

end DfsFuzz.Refs
