import DfsFuzz.Mutation.Stash

/-!
Where `insertStashCall` looks for a place: the ranges of the open files and the slots around the
failure window. The probe that stands for a file descriptor is a new object, so no close is ever
found and every range extends to the end of the program.
-/

namespace DfsFuzz.Mutation

open DfsFuzz.Choice

/-- The results that the arguments of the call refer to were made before `n`. -/
def ResBelow (n : Nat) (call : Call) : Prop := ∀ id r v, Arg.result id (some r) v ∈ call.args → r < n

def Allocated (g : StashGroup) : Prop := ∀ p ∈ g.progs, ∀ o ∈ p.calls, ResBelow g.next o.call

theorem ResBelow.mono {n m : Nat} {call : Call} (below : ResBelow n call) (le : n ≤ m) : ResBelow m call :=
  fun id r v member => Nat.lt_of_lt_of_le (below id r v member) le

/-! ### Ranges -/

theorem usesFd_probe {n : Nat} {call : Call} (below : ResBelow n call) {fdarg : ResultId} (fresh : n ≤ fdarg) :
    usesFd call fdarg = false := by
  rw [usesFd, List.any_eq_false]
  intro arg member
  cases arg with
  | result id res v =>
    cases res with
    | none => simp
    | some r =>
      have old := below id r v member
      simp only [beq_iff_eq]
      exact Nat.ne_of_lt (Nat.lt_of_lt_of_le old fresh)
  | _ => simp

theorem correspondingClose_probe {n : Nat} {calls : List CallObj} (below : ∀ o ∈ calls, ResBelow n o.call)
    {fdarg : ResultId} (fresh : n ≤ fdarg) (openIdx : Nat) : correspondingClose calls openIdx fdarg = calls.length := by
  unfold correspondingClose
  rw [List.find?_eq_none.mpr, Option.getD_none]
  intro closeIdx _
  cases read : calls[closeIdx]? with
  | none => simp
  | some o => simp [usesFd_probe (below o (List.mem_of_getElem? read)) fresh]

/-- A range of the search: an open with a result, up to the end of the program. -/
structure RangeOf (calls : List CallObj) (range : FdRange) : Prop where
  isOpen : ∃ o, calls[range.openIdx]? = some o ∧ Go.contains o.name "open" = true ∧ o.call.ret = some range.fd
  toEnd : range.closeIdx = calls.length

structure RangesSpec (calls : List CallObj) (g : StashGroup) (idxs : List Nat) (result : List FdRange × StashGroup) :
    Prop where
  ranges : ∀ range ∈ result.1, range.openIdx ∈ idxs ∧ range.closeIdx = calls.length ∧
    ∃ o, calls[range.openIdx]? = some o ∧ o.call.ret = some range.fd
  complete : ∀ idx ∈ idxs, ∀ o fd, calls[idx]? = some o → o.call.ret = some fd →
    ∃ range ∈ result.1, range.openIdx = idx ∧ range.fd = fd
  progs : result.2.progs = g.progs
  next : g.next ≤ result.2.next

theorem fdRangesFrom_spec {calls : List CallObj} {g : StashGroup} (below : ∀ o ∈ calls, ResBelow g.next o.call)
    (idxs : List Nat) : RangesSpec calls g idxs (fdRangesFrom calls g idxs) := by
  induction idxs generalizing g with
  | nil => exact ⟨by simp [fdRangesFrom], by simp, rfl, Nat.le_refl _⟩
  | cons openIdx rest ih =>
    unfold fdRangesFrom
    cases found : calls[openIdx]?.bind fun o => o.call.ret with
    | none =>
      have later := ih below
      refine ⟨?_, ?_, later.progs, later.next⟩
      · intro range member
        obtain ⟨inside, spec⟩ := later.ranges range member
        exact ⟨List.mem_cons_of_mem _ inside, spec⟩
      · intro idx member o fd read result
        rcases List.mem_cons.mp member with rfl | tail
        · rw [read, Option.bind_some, result] at found
          cases found
        · exact later.complete idx tail o fd read result
    | some fd =>
      have later := ih (g := (makeResultArg g fd).2) fun o member => (below o member).mono (Nat.le_succ _)
      obtain ⟨o, read, result⟩ := Option.bind_eq_some_iff.mp found
      refine ⟨?_, ?_, later.progs, Nat.le_trans (Nat.le_succ _) later.next⟩
      · intro range member
        rcases List.mem_cons.mp member with rfl | tail
        · exact ⟨List.mem_cons_self, correspondingClose_probe below (Nat.le_refl _) openIdx, o, read, result⟩
        · obtain ⟨inside, spec⟩ := later.ranges range tail
          exact ⟨List.mem_cons_of_mem _ inside, spec⟩
      · intro idx member o' fd' read' result'
        rcases List.mem_cons.mp member with rfl | tail
        · rw [read', Option.bind_some, result'] at found
          exact ⟨_, List.mem_cons_self, rfl, Option.some.inj found.symm⟩
        · obtain ⟨range, inside, spec⟩ := later.complete idx tail o' fd' read' result'
          exact ⟨range, List.mem_cons_of_mem _ inside, spec⟩

section Chosen

variable {g : StashGroup} {p : SeedProg} (below : ∀ o ∈ p.calls, ResBelow g.next o.call)

include below

theorem chosenRange_spec {draw : Draw} {range : FdRange} (chosen : chosenRange g p draw = some range) :
    RangeOf p.calls range := by
  obtain ⟨inside, toEnd, o, read, result⟩ :=
    (fdRangesFrom_spec below (openIndices p.calls)).ranges range (List.mem_of_getElem? chosen)
  obtain ⟨o', read', isOpen⟩ := mem_indicesWhere.mp inside
  obtain rfl : o = o' := Option.some.inj (read.symm.trans read')
  exact ⟨⟨o, read, isOpen, result⟩, toEnd⟩

end Chosen

theorem insertPosIn_mem {slots : List (Int × Int)} (nonempty : slots ≠ []) (proper : ∀ slot ∈ slots, slot.1 < slot.2)
    (slotDraw posDraw : Draw) :
    ∃ slot ∈ slots, slot.1 ≤ insertPosIn slots slotDraw posDraw ∧ insertPosIn slots slotDraw posDraw < slot.2 ∧
      insertPosIn slots slotDraw posDraw = slot.1 + posDraw.intn (slot.2 - slot.1).toNat := by
  have inside := slotDraw.lt slots.length (List.length_pos_iff.mpr nonempty)
  have chosen : slots.getD (slotDraw.intn slots.length) (0, 0) = slots.get ⟨slotDraw.intn slots.length, inside⟩ := by
    rw [List.getD_eq_getElem?_getD, List.getElem?_eq_getElem inside, Option.getD_some]
    rfl
  have member := List.get_mem slots ⟨slotDraw.intn slots.length, inside⟩
  refine ⟨_, member, ?_⟩
  have ordered := proper _ member
  unfold insertPosIn
  dsimp only
  rw [chosen]
  generalize slots.get ⟨slotDraw.intn slots.length, inside⟩ = slot at ordered ⊢
  have bound := posDraw.lt (slot.2 - slot.1).toNat (by omega)
  exact ⟨by omega, by omega, rfl⟩

theorem insertSlots_ne_nil (validStart validEnd failStart failEnd : Int) :
    insertSlots validStart validEnd failStart failEnd ≠ [] := by
  unfold insertSlots
  split_ifs <;> simp

/-- Every slot is before the window, behind it, or the whole range where neither side has room. -/
theorem mem_insertSlots {validStart validEnd failStart failEnd : Int} (room : validStart < validEnd) {slot : Int × Int}
    (member : slot ∈ insertSlots validStart validEnd failStart failEnd) :
    slot.1 < slot.2 ∧ validStart ≤ slot.1 ∧ slot.2 ≤ validEnd ∧
      (slot.2 ≤ failStart ∨ failEnd < slot.1 ∨
        (slot = (validStart, validEnd) ∧ ¬ (validStart < failStart ∧ failStart < validEnd) ∧
          ¬ (validStart ≤ failEnd + 1 ∧ failEnd + 1 < validEnd))) := by
  unfold insertSlots at member
  simp only [Bool.and_eq_true, decide_eq_true_eq, gt_iff_lt, ge_iff_le] at member
  by_cases before : validStart < failStart ∧ failStart < validEnd
  · by_cases behind : validStart ≤ failEnd + 1 ∧ failEnd + 1 < validEnd
    · simp only [before, behind, and_self, if_true, List.cons_append, List.nil_append, reduceCtorEq, if_false,
        List.mem_cons, List.not_mem_nil, or_false] at member
      rcases member with rfl | rfl
      · exact ⟨before.1, Int.le_refl _, Int.le_of_lt before.2, .inl (Int.le_refl _)⟩
      · exact ⟨behind.2, behind.1, Int.le_refl _, .inr (.inl (Int.lt_succ _))⟩
    · simp only [before, behind, and_self, if_true, if_false, List.append_nil, reduceCtorEq, List.mem_singleton] at member
      subst member
      exact ⟨before.1, Int.le_refl _, Int.le_of_lt before.2, .inl (Int.le_refl _)⟩
  · by_cases behind : validStart ≤ failEnd + 1 ∧ failEnd + 1 < validEnd
    · simp only [before, behind, and_self, if_true, if_false, List.nil_append, reduceCtorEq, List.mem_singleton] at member
      subst member
      exact ⟨behind.2, behind.1, Int.le_refl _, .inr (.inl (Int.lt_succ _))⟩
    · simp only [before, behind, if_false, List.append_nil, if_true, List.mem_singleton] at member
      subst member
      exact ⟨room, Int.le_refl _, Int.le_refl _, .inr (.inr ⟨rfl, before, behind⟩)⟩

end DfsFuzz.Mutation
