import DfsFuzz.Failure.Placement
import Mathlib.Logic.Function.Basic

/-!
Placements of the syncs of all clients. `OrderConsistent` is what the enumeration is for;
`Consistent` is the same for the part that is done when each client `c` has the syncs of the
servers `done c`. The section at the end shows that the placements of one more server in one
more client are the insertions of its pair at the fitting positions.
-/

namespace DfsFuzz.Failure
open Interleave

abbrev Placement := Nat → List (Call ⊕ Nat)

def IsClient (ps : Group) (srvNum clt : Nat) : Prop := srvNum ≤ clt ∧ clt < ps.length

def codes (srvs : List Nat) : List Nat := srvs.flatMap fun srv => [startCode srv, endCode srv]

theorem startCode_inj {srv srv' : Nat} : startCode srv = startCode srv' ↔ srv = srv' := by
  unfold startCode
  omega

theorem endCode_inj {srv srv' : Nat} : endCode srv = endCode srv' ↔ srv = srv' := by
  unfold endCode
  omega

theorem startCode_ne_endCode (srv srv' : Nat) : startCode srv ≠ endCode srv' := by
  unfold startCode endCode
  omega

variable {srvs : List Nat}

theorem mem_codes {code : Nat} : code ∈ codes srvs ↔ ∃ srv ∈ srvs, code = startCode srv ∨ code = endCode srv := by
  simp [codes]

@[simp] theorem startCode_mem_codes {srv : Nat} : startCode srv ∈ codes srvs ↔ srv ∈ srvs := by
  simp [mem_codes, startCode_inj, startCode_ne_endCode]

@[simp] theorem endCode_mem_codes {srv : Nat} : endCode srv ∈ codes srvs ↔ srv ∈ srvs := by
  simp [mem_codes, endCode_inj, (startCode_ne_endCode _ _).symm]

theorem codes_append_singleton (srvs : List Nat) (srv : Nat) :
    codes (srvs ++ [srv]) = codes srvs ++ [startCode srv, endCode srv] := by
  simp [codes]

theorem codes_nodup (distinct : srvs.Nodup) : (codes srvs).Nodup := by
  refine List.nodup_flatMap.mpr ⟨?_, ?_⟩
  · intro srv _
    simp [startCode_ne_endCode]
  · refine distinct.imp ?_
    intro srv srv' differ code member member'
    simp only [List.mem_cons, List.not_mem_nil, or_false] at member member'
    rcases member with rfl | rfl
    · simp [startCode_inj, startCode_ne_endCode, differ] at member'
    · simp [endCode_inj, (startCode_ne_endCode _ _).symm, differ] at member'

/-- Every client keeps its calls, has one start and one end sync per failed server, the start
first, and all clients have the syncs in one order. -/
structure OrderConsistent (ps : Group) (srvNum : Nat) (srvs : List Nat) (π : Placement) : Prop where
  calls : ∀ c, IsClient ps srvNum c → lefts (π c) = (ps.getD c {}).calls
  once : ∀ c, IsClient ps srvNum c → (rights (π c)).Perm (codes srvs)
  ordered : ∀ c, IsClient ps srvNum c → ∀ srv ∈ srvs, [startCode srv, endCode srv].Sublist (rights (π c))
  sameOrder : ∀ c c', IsClient ps srvNum c → IsClient ps srvNum c' → rights (π c) = rights (π c')

structure Consistent (ps : Group) (srvNum : Nat) (done : Nat → List Nat) (π : Placement) : Prop where
  outside : ∀ c, ¬ IsClient ps srvNum c → π c = []
  calls : ∀ c, IsClient ps srvNum c → lefts (π c) = (ps.getD c {}).calls
  once : ∀ c, IsClient ps srvNum c → (rights (π c)).Perm (codes (done c))
  ordered : ∀ c, IsClient ps srvNum c → ∀ srv ∈ done c, [startCode srv, endCode srv].Sublist (rights (π c))
  /-- the order of the first client, as far as the client has it -/
  agrees : ∀ c, IsClient ps srvNum c → c ≠ srvNum →
    rights (π c) = (rights (π srvNum)).filter fun code => decide (code ∈ codes (done c))

variable {ps : Group} {srvNum : Nat} {done : Nat → List Nat} {π : Placement}

theorem Consistent.mem_rights_iff (consistent : Consistent ps srvNum done π) {c : Nat} (client : IsClient ps srvNum c)
    (code : Nat) : code ∈ rights (π c) ↔ code ∈ codes (done c) := (consistent.once c client).mem_iff

theorem Consistent.nodup (consistent : Consistent ps srvNum done π) {c : Nat} (client : IsClient ps srvNum c)
    (distinct : (done c).Nodup) : (rights (π c)).Nodup :=
  (consistent.once c client).nodup_iff.mpr (codes_nodup distinct)

theorem Consistent.rights_eq_present (consistent : Consistent ps srvNum done π) {c : Nat}
    (client : IsClient ps srvNum c) (other : c ≠ srvNum) : rights (π c) = present (π c) (rights (π srvNum)) := by
  rw [consistent.agrees c client other]
  exact List.filter_congr fun code _ => decide_eq_decide.mpr (consistent.mem_rights_iff client code).symm

/-! ### One more server in one more client -/

/-- The client `c` takes server `srv` next: the first client before all others. -/
structure Turn (ps : Group) (srvNum : Nat) (done : Nat → List Nat) (c srv : Nat) : Prop where
  client : IsClient ps srvNum c
  distinct : ∀ c', (done c').Nodup
  fresh : srv ∉ done c
  known : c ≠ srvNum → srv ∈ done srvNum
  leads : c = srvNum → ∀ c', c' ≠ srvNum → done c' = []

def advance (done : Nat → List Nat) (c srv : Nat) : Nat → List Nat := Function.update done c (done c ++ [srv])

def place (π : Placement) (c srv i j : Nat) : Placement :=
  Function.update π c (insertPair (π c) i j (.inr (startCode srv)) (.inr (endCode srv)))

def others (srv code : Nat) : Bool := code != startCode srv && code != endCode srv

def forget (c srv : Nat) (π : Placement) : Placement := Function.update π c (strip (others srv) (π c))

/-- Position `i` of the client follows the order of the first one: the codes before it are those
that stand before `code`. -/
def Follows (π : Placement) (srvNum c code i : Nat) : Prop :=
  c ≠ srvNum → rights ((π c).take i) = present (π c) (before (rights (π srvNum)) code)

structure Fits (π : Placement) (srvNum c srv i j : Nat) : Prop where
  start : Follows π srvNum c (startCode srv) i
  stop : Follows π srvNum c (endCode srv) j

theorem Consistent.order_split (consistent : Consistent ps srvNum done π) {srv : Nat} (distinct : (done srvNum).Nodup)
    (first : IsClient ps srvNum srvNum) (known : srv ∈ done srvNum) :
    ∃ front middle back, rights (π srvNum) = front ++ startCode srv :: (middle ++ endCode srv :: back) ∧
      before (rights (π srvNum)) (startCode srv) = front ∧
      before (rights (π srvNum)) (endCode srv) = front ++ startCode srv :: middle := by
  obtain ⟨front, middle, back, split⟩ := split_of_pair_sublist (consistent.ordered srvNum first srv known)
  have nodup := consistent.nodup first distinct
  rw [split, List.nodup_append] at nodup
  obtain ⟨-, tail, apart⟩ := nodup
  have regroup : front ++ startCode srv :: (middle ++ endCode srv :: back) =
      (front ++ startCode srv :: middle) ++ endCode srv :: back := by simp
  refine ⟨front, middle, back, split, ?_, ?_⟩
  · rw [split]
    refine before_eq ?_
    intro member
    exact apart _ member _ List.mem_cons_self rfl
  · rw [split, regroup]
    refine before_eq ?_
    rw [List.mem_append, List.mem_cons]
    rintro (member | same | member)
    · exact apart _ member (endCode srv) (by simp) rfl
    · exact startCode_ne_endCode srv srv same.symm
    · have inner := (List.nodup_cons.mp tail).2
      exact (List.nodup_append.mp inner).2.2 _ member _ List.mem_cons_self rfl

variable {c srv i j : Nat}

theorem Turn.first (turn : Turn ps srvNum done c srv) : IsClient ps srvNum srvNum :=
  ⟨Nat.le_refl _, Nat.lt_of_le_of_lt turn.client.1 turn.client.2⟩

theorem Turn.startCode_fresh (turn : Turn ps srvNum done c srv) (consistent : Consistent ps srvNum done π) :
    startCode srv ∉ rights (π c) := by
  rw [consistent.mem_rights_iff turn.client, startCode_mem_codes]
  exact turn.fresh

theorem Turn.endCode_fresh (turn : Turn ps srvNum done c srv) (consistent : Consistent ps srvNum done π) :
    endCode srv ∉ rights (π c) := by
  rw [consistent.mem_rights_iff turn.client, endCode_mem_codes]
  exact turn.fresh

theorem Consistent.fits_iff (consistent : Consistent ps srvNum done π) (turn : Turn ps srvNum done c srv)
    (other : c ≠ srvNum) (upto : i ≤ j) :
    rights (insertPair (π c) i j (.inr (startCode srv)) (.inr (endCode srv))) =
        (rights (π srvNum)).filter (fun code => decide (code ∈ codes (done c ++ [srv]))) ↔
      Fits π srvNum c srv i j := by
  obtain ⟨front, middle, back, split, frontEq, middleEq⟩ :=
    consistent.order_split (turn.distinct srvNum) turn.first (turn.known other)
  have freshStart := turn.startCode_fresh consistent
  have freshEnd := turn.endCode_fresh consistent
  have nodup := consistent.nodup turn.first (turn.distinct srvNum)
  rw [split] at nodup
  have keeps : ∀ xs : List Nat, startCode srv ∉ xs → endCode srv ∉ xs →
      xs.filter (fun code => decide (code ∈ codes (done c ++ [srv]))) = present (π c) xs := by
    intro xs noStart noEnd
    refine List.filter_congr ?_
    intro code member
    rw [decide_eq_decide, consistent.mem_rights_iff turn.client, codes_append_singleton, List.mem_append]
    simp only [List.mem_cons, List.not_mem_nil, or_false]
    refine or_iff_left ?_
    rintro (rfl | rfl)
    · exact noStart member
    · exact noEnd member
  have apart : (startCode srv ∉ front ∧ endCode srv ∉ front) ∧ (startCode srv ∉ middle ∧ endCode srv ∉ middle) ∧
      startCode srv ∉ back ∧ endCode srv ∉ back := by
    simp only [List.nodup_append, List.nodup_cons, List.mem_append, List.mem_cons] at nodup
    grind
  have labels : (rights (π srvNum)).filter (fun code => decide (code ∈ codes (done c ++ [srv]))) =
      present (π c) front ++ startCode srv :: (present (π c) middle ++ endCode srv :: present (π c) back) := by
    rw [split, List.filter_append, List.filter_cons_of_pos (by simp), List.filter_append,
      List.filter_cons_of_pos (by simp), keeps front apart.1.1 apart.1.2, keeps middle apart.2.1.1 apart.2.1.2,
      keeps back apart.2.2.1 apart.2.2.2]
  have held : rights (π c) = present (π c) front ++ (present (π c) middle ++ present (π c) back) := by
    rw [consistent.rights_eq_present turn.client other, split]
    simp [present, freshStart, freshEnd]
  rw [labels, rights_insertPair_eq_iff (startCode_ne_endCode srv srv) upto held freshStart freshEnd]
  have passed : present (π c) (front ++ startCode srv :: middle) = present (π c) front ++ present (π c) middle := by
    simp [present, freshStart]
  constructor
  · rintro ⟨start, stop⟩
    exact ⟨fun _ => by rw [frontEq, start], fun _ => by rw [middleEq, passed, stop]⟩
  · rintro ⟨start, stop⟩
    exact ⟨by rw [start other, frontEq], by rw [stop other, middleEq, passed]⟩

theorem rights_eq_nil_of_done (consistent : Consistent ps srvNum done π) {c : Nat} (client : IsClient ps srvNum c)
    (none : done c = []) : rights (π c) = [] := by
  have empty := consistent.once c client
  rw [none] at empty
  exact empty.eq_nil

theorem Consistent.place (consistent : Consistent ps srvNum done π) (turn : Turn ps srvNum done c srv)
    (upto : i ≤ j) (fits : Fits π srvNum c srv i j) :
    Consistent ps srvNum (advance done c srv) (place π c srv i j) where
  outside c' outside := by
    have differ : c' ≠ c := fun same => outside (same ▸ turn.client)
    simpa [Failure.place, differ] using consistent.outside c' outside
  calls c' client := by
    by_cases same : c' = c
    · subst same
      simpa [Failure.place, lefts_insertPair upto] using consistent.calls c' client
    · simpa [Failure.place, same] using consistent.calls c' client
  once c' client := by
    by_cases same : c' = c
    · subst same
      simp only [Failure.place, advance, Function.update_self, codes_append_singleton]
      exact (rights_insertPair_perm upto _ _ _).trans ((consistent.once c' client).append_right _)
    · simpa [Failure.place, advance, same] using consistent.once c' client
  ordered c' client := by
    by_cases same : c' = c
    · subst same
      simp only [Failure.place, advance, Function.update_self, List.mem_append, List.mem_singleton]
      rintro srv' (member | rfl)
      · exact (consistent.ordered c' client srv' member).trans (rights_sublist_insertPair upto _ _ _)
      · exact pair_sublist_insertPair _ _ _ _ _
    · simpa [Failure.place, advance, same] using consistent.ordered c' client
  agrees c' client other := by
    by_cases same : c' = c
    · subst same
      simpa [Failure.place, advance, other.symm] using (consistent.fits_iff turn other upto).mpr fits
    · by_cases lead : c = srvNum
      · have none := turn.leads lead c' other
        have empty := rights_eq_nil_of_done consistent client none
        simp [Failure.place, advance, same, none, empty, codes]
      · simpa [Failure.place, advance, same, Ne.symm lead] using consistent.agrees c' client other

theorem others_eq_false (srv code : Nat) : others srv code = false ↔ code = startCode srv ∨ code = endCode srv := by
  simp only [others, Bool.and_eq_false_iff, bne_eq_false_iff_eq]

theorem others_of_mem_codes {srv code : Nat} (fresh : srv ∉ srvs) (member : code ∈ codes srvs) :
    others srv code = true := by
  refine (Bool.eq_false_or_eq_true _).resolve_right ?_
  intro own
  rcases (others_eq_false srv code).mp own with rfl | rfl
  · exact fresh (startCode_mem_codes.mp member)
  · exact fresh (endCode_mem_codes.mp member)

theorem others_and_mem_codes {srv : Nat} (fresh : srv ∉ srvs) (code : Nat) :
    (others srv code && decide (code ∈ codes (srvs ++ [srv]))) = decide (code ∈ codes srvs) := by
  by_cases member : code ∈ codes srvs
  · simp [codes_append_singleton, member, others_of_mem_codes fresh member]
  · by_cases own : code = startCode srv ∨ code = endCode srv
    · simp [(others_eq_false srv code).mpr own, member]
    · simp [codes_append_singleton, member, own]

theorem filter_others_codes {srv : Nat} (fresh : srv ∉ srvs) :
    (codes (srvs ++ [srv])).filter (others srv) = codes srvs := by
  have kept : ∀ code ∈ codes srvs, others srv code = true := fun code => others_of_mem_codes fresh
  have start := (others_eq_false srv (startCode srv)).mpr (Or.inl rfl)
  have stop := (others_eq_false srv (endCode srv)).mpr (Or.inr rfl)
  rw [codes_append_singleton, List.filter_append, List.filter_eq_self.mpr kept]
  simp [start, stop]

theorem forget_place (consistent : Consistent ps srvNum done π) (turn : Turn ps srvNum done c srv) (upto : i ≤ j) :
    forget c srv (place π c srv i j) = π := by
  have kept : ∀ code ∈ rights (π c), others srv code = true := fun code member =>
    others_of_mem_codes turn.fresh ((consistent.mem_rights_iff turn.client code).mp member)
  have own : strip (others srv) (insertPair (π c) i j (.inr (startCode srv)) (.inr (endCode srv))) = π c :=
    strip_insertPair upto kept ((others_eq_false _ _).mpr (Or.inl rfl)) ((others_eq_false _ _).mpr (Or.inr rfl))
  rw [forget, place, Function.update_self, Function.update_idem, own, Function.update_eq_self]

theorem Consistent.forget (consistent : Consistent ps srvNum (advance done c srv) π)
    (turn : Turn ps srvNum done c srv) : Consistent ps srvNum done (forget c srv π) where
  outside c' outside := by
    have differ : c' ≠ c := fun same => outside (same ▸ turn.client)
    simpa [Failure.forget, differ] using consistent.outside c' outside
  calls c' client := by
    by_cases same : c' = c
    · subst same
      simpa [Failure.forget, lefts_strip] using consistent.calls c' client
    · simpa [Failure.forget, same] using consistent.calls c' client
  once c' client := by
    have held := consistent.once c' client
    by_cases same : c' = c
    · subst same
      simp only [advance, Function.update_self] at held
      simp only [Failure.forget, Function.update_self, rights_strip]
      exact filter_others_codes turn.fresh ▸ held.filter (others srv)
    · simpa [Failure.forget, advance, same] using held
  ordered c' client := by
    have held := consistent.ordered c' client
    by_cases same : c' = c
    · subst same
      intro srv' member
      simp only [advance, Function.update_self] at held
      simp only [Failure.forget, Function.update_self, rights_strip]
      have start : others srv (startCode srv') = true := others_of_mem_codes turn.fresh (startCode_mem_codes.mpr member)
      have stop : others srv (endCode srv') = true := others_of_mem_codes turn.fresh (endCode_mem_codes.mpr member)
      simpa [start, stop] using (held srv' (List.mem_append_left _ member)).filter (others srv)
    · simpa [Failure.forget, advance, same] using held
  agrees c' client other := by
    have held := consistent.agrees c' client other
    by_cases same : c' = c
    · subst same
      simp only [advance, Function.update_self] at held
      simp only [Failure.forget, Function.update_self, Function.update_of_ne other.symm, rights_strip]
      rw [held, List.filter_filter]
      exact List.filter_congr fun code _ => others_and_mem_codes turn.fresh code
    · by_cases lead : c = srvNum
      · have none := turn.leads lead c' other
        have empty := rights_eq_nil_of_done consistent client (by simp [advance, same, none])
        simp [Failure.forget, same, none, empty, codes]
      · simpa [Failure.forget, advance, same, Ne.symm lead] using held

/-- A placement with the server's pair is the rest with the pair at fitting positions. -/
theorem Consistent.exists_place (consistent : Consistent ps srvNum (advance done c srv) π)
    (turn : Turn ps srvNum done c srv) :
    ∃ i j, i ≤ j ∧ j ≤ (Failure.forget c srv π c).length ∧ Fits (Failure.forget c srv π) srvNum c srv i j ∧
      Failure.place (Failure.forget c srv π) c srv i j = π := by
  have rest := consistent.forget turn
  have held : advance done c srv c = done c ++ [srv] := by simp [advance]
  have distinct : (rights (π c)).Nodup := by
    refine consistent.nodup turn.client ?_
    rw [held, List.nodup_append]
    refine ⟨turn.distinct c, by simp, ?_⟩
    intro srv' member srv'' own same
    exact turn.fresh (by rw [← List.mem_singleton.mp own, ← same]; exact member)
  have ordered := consistent.ordered c turn.client srv (by simp [held])
  obtain ⟨i, j, upto, bound, eq⟩ := exists_insertPair distinct ordered (others_eq_false srv)
  have own : Failure.forget c srv π c = strip (others srv) (π c) := by simp [Failure.forget]
  refine ⟨i, j, upto, own ▸ bound, ?_, ?_⟩
  · by_cases lead : c = srvNum
    · exact ⟨fun other => absurd lead other, fun other => absurd lead other⟩
    have other : c ≠ srvNum := lead
    refine (rest.fits_iff turn other upto).mp ?_
    have agrees := consistent.agrees c turn.client other
    rw [held] at agrees
    rw [own, ← eq, agrees]
    simp [Failure.forget, Ne.symm other]
  · rw [Failure.place, own, ← eq]
    simp [Failure.forget]

end DfsFuzz.Failure
