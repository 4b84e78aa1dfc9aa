import DfsFuzz.Generate.Blocks
import DfsFuzz.Generate.InsertDct
import DfsFuzz.Lib.Edits

/-!
References of a program go back to calls before, descriptors are used while they are open, and a block
made by name keeps both wherever the search for a descriptor puts it.
-/

namespace DfsFuzz.Generate

open DfsFuzz.Choice DfsFuzz.Mutation DfsFuzz.Tree

def resultsOf (calls : List CallObj) : List ResultId := calls.flatMap fun o => callResults o.call

/-- Every reference is to a result of a call before. -/
def RefsEarlier (out : ResultId → Bool) (calls : List CallObj) : Prop :=
  EachAfter (fun front o => ∀ use ∈ argsRefs o.call.args, ∃ o' ∈ front, use.1 ∈ providers out o'.call) calls

/-- Behind these calls `fd` is open: an open or creat of them has produced it, and none has closed it. -/
structure OpenAt (front : List CallObj) (fd : ResultId) : Prop where
  opened : ∃ o ∈ front, opens o.name = true ∧ o.call.ret = some fd
  notClosed : ∀ o ∈ front, closesFd fd o = false

/-- A result in the first argument is open there. -/
def FdsOpen (calls : List CallObj) : Prop :=
  EachAfter (fun front o => ∀ id fd v, o.call.args.head? = some (.result id (some fd) v) → OpenAt front fd) calls

/-- Results that occur once have one owner, and the references are unbroken as far as they go back. -/
theorem unbroken_iff {out : ResultId → Bool} {calls : List CallObj} (once : (resultsOf calls).Nodup) :
    hasBrokenRefs out calls = false ↔ RefsEarlier out calls := by
  rw [RefsEarlier, EachAfter.iff_getElem?, hasBrokenRefs, List.any_eq_false]
  constructor
  · intro unbroken i o here use uses
    have own := unbroken (o, i) (List.mem_zipIdx_iff_getElem?.mpr here)
    rw [Bool.not_eq_true, List.any_eq_false] at own
    have owned := own use uses
    cases owner : ownerOf out calls use.1 with
    | none => simp [owner] at owned
    | some j =>
      have before : j < i := by simpa [owner] using owned
      obtain ⟨⟨o', _⟩, listed, rfl⟩ := List.mem_map.mp (List.mem_of_getLast? owner)
      obtain ⟨entry, provides⟩ := List.mem_filter.mp listed
      have there : calls[_]? = some o' := List.mem_zipIdx_iff_getElem?.mp entry
      refine ⟨o', ?_, by simpa using provides⟩
      exact List.mem_of_getElem? ((List.getElem?_take_of_lt before).trans there)
  · rintro earlier ⟨o, i⟩ entry
    have here := List.mem_zipIdx_iff_getElem?.mp entry
    rw [Bool.not_eq_true, List.any_eq_false]
    intro use uses
    obtain ⟨o', member, provided⟩ := earlier i o here use uses
    obtain ⟨j, there⟩ := List.getElem?_of_mem member
    have before : j < i := by
      have inside := (List.getElem?_eq_some_iff.mp there).1
      rw [List.length_take] at inside
      omega
    rw [List.getElem?_take_of_lt before] at there
    -- no other call provides the result
    have only : ∀ k ∈ (calls.zipIdx.filter fun entry => use.1 ∈ providers out entry.1.call).map Prod.snd, k = j := by
      intro k found
      obtain ⟨⟨q, k'⟩, listed, rfl⟩ := List.mem_map.mp found
      obtain ⟨entry', provides⟩ := List.mem_filter.mp listed
      exact callResults_unique once (List.mem_zipIdx_iff_getElem?.mp entry') there (providers_subset (by simpa using provides))
        (providers_subset provided)
    have listed : j ∈ (calls.zipIdx.filter fun entry => use.1 ∈ providers out entry.1.call).map Prod.snd := by
      refine List.mem_map.mpr ⟨(o', j), List.mem_filter.mpr ⟨List.mem_zipIdx_iff_getElem?.mpr there, ?_⟩, rfl⟩
      simpa using provided
    have nonempty := List.ne_nil_of_mem listed
    have owner : ownerOf out calls use.1 = some j := by
      rw [ownerOf, List.getLast?_eq_some_getLast nonempty, only _ (List.getLast_mem nonempty)]
    simp only [owner]
    simpa using before

/-! ### Finding an open descriptor -/

/-- An open or creat of `filePath` with the result `fd`, and no close of it in the calls behind. -/
structure FoundAt (filePath : String) (fd : ResultId) (o : CallObj) (after : List CallObj) : Prop where
  isOpen : opens o.name = true
  named : extractPathFromCall o.call = filePath
  ret : o.call.ret = some fd
  notClosed : ∀ c ∈ after, closesFd fd c = false

theorem openFdIn_spec {filePath : String} {front : List CallObj} {fd : ResultId} (found : openFdIn filePath front = some fd) :
    ∃ before o after, front = before ++ o :: after ∧ FoundAt filePath fd o after := by
  induction front with
  | nil => cases found
  | cons o rest ih =>
    have later (found : openFdIn filePath rest = some fd) :
        ∃ before o' after, o :: rest = before ++ o' :: after ∧ FoundAt filePath fd o' after := by
      obtain ⟨before, o', after, rfl, spec⟩ := ih found
      exact ⟨o :: before, o', after, rfl, spec⟩
    rw [openFdIn] at found
    split at found
    · rename_i isOpen
      rw [Bool.and_eq_true, decide_eq_true_eq] at isOpen
      split at found
      · exact later found
      · rename_i ret
        split at found
        · exact later found
        · rename_i none
          obtain rfl := Option.some.inj found
          rw [List.any_eq_true, not_exists] at none
          refine ⟨[], o, rest, rfl, isOpen.1, isOpen.2, ret, fun c member => ?_⟩
          exact Bool.eq_false_iff.mpr fun closes => none c ⟨member, closes⟩
    · exact later found

theorem usesFd_refs {call : Call} {fd : ResultId} (uses : usesFd call fd = true) : ∃ use ∈ argsRefs call.args, use.1 = fd := by
  rw [usesFd, List.any_eq_true] at uses
  obtain ⟨arg, member, isRef⟩ := uses
  split at isRef
  · rename_i id res v
    exact ⟨(res, id), mem_argsRefs member (List.mem_singleton.mpr rfl), by simpa using isRef⟩
  · cases isRef

theorem RefsEarlier.not_before {out : ResultId → Bool} {before after : List CallObj} {o : CallObj}
    (refs : RefsEarlier out (before ++ o :: after)) (once : (resultsOf (before ++ o :: after)).Nodup) {fd : ResultId}
    (ret : o.call.ret = some fd) {c : CallObj} (member : c ∈ before ++ [o]) : usesFd c.call fd = false := by
  by_contra isUse
  obtain ⟨use, uses, rfl⟩ := usesFd_refs (Bool.not_eq_false _ ▸ isUse)
  obtain ⟨front, back, split⟩ := List.append_of_mem member
  have whole : before ++ o :: after = front ++ c :: (back ++ after) := by
    rw [← List.singleton_append, ← List.append_assoc, split, List.append_assoc, List.cons_append]
  obtain ⟨o', inFront, provided⟩ := refs front c (back ++ after) whole use uses
  -- the provider before the use and the open behind it are two calls with the same result
  have behind : o ∈ c :: (back ++ after) := by
    have last : o ∈ c :: back := by
      rcases List.eq_nil_or_concat back with rfl | ⟨init, last, rfl⟩
      · have same := List.append_inj_right' split rfl
        simp only [List.cons.injEq, and_true] at same
        exact same ▸ List.mem_cons_self
      · rw [List.concat_eq_append, ← List.cons_append, ← List.append_assoc] at split
        have same := List.append_inj_right' split rfl
        simp only [List.cons.injEq, and_true] at same
        simp [same]
    rw [← List.cons_append]
    exact List.mem_append_left _ last
  rw [whole, resultsOf, List.flatMap_append, List.nodup_append] at once
  refine once.2.2 use.1 (List.mem_flatMap.mpr ⟨o', inFront, providers_subset provided⟩) use.1 (List.mem_flatMap.mpr ⟨o, behind, ?_⟩) rfl
  rw [callResults, ret]
  exact List.mem_append_right _ (List.mem_singleton.mpr rfl)

/-- The descriptor that the search returns is open where the search ends, and its open names the path. -/
theorem findOpenFdForPath_spec {out : ResultId → Bool} {p : SeedProg} (once : (resultsOf p.calls).Nodup)
    (refs : RefsEarlier out p.calls) {path : String} {pos : Nat} {fd : ResultId} (found : findOpenFdForPath p path pos = some fd) :
    OpenAt (p.calls.take pos) fd ∧
      ∃ o ∈ p.calls.take pos, opens o.name = true ∧ extractPathFromCall o.call = path ∧ o.call.ret = some fd := by
  obtain ⟨before, o, after, split, isOpen, named, ret, notClosed⟩ := openFdIn_spec found
  have member : o ∈ p.calls.take pos := by
    rw [split]
    exact List.mem_append_right _ List.mem_cons_self
  have whole : p.calls = before ++ o :: (after ++ p.calls.drop pos) := by
    rw [← List.cons_append, ← List.append_assoc, ← split, List.take_append_drop]
  rw [whole] at refs once
  refine ⟨⟨⟨o, member, isOpen, ret⟩, fun c inFront => ?_⟩, o, member, isOpen, named, ret⟩
  rw [split, ← List.singleton_append, ← List.append_assoc] at inFront
  rcases List.mem_append.mp inFront with early | late
  · rw [closesFd, refs.not_before once ret early, Bool.and_false]
  · exact notClosed c late

end DfsFuzz.Generate
