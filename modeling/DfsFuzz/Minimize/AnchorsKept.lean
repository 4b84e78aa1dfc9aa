import DfsFuzz.Minimize.Anchors

/-!
The passes over the arguments of a call keep its anchors where no pointer with something to minimize below it
points to one.
-/

namespace DfsFuzz.Minimize

/-- What the lengths and the sanitizer do to the values: a length is no anchor, and what shrank from a sanitized
call has no other value that the sanitizer replaces. -/
structure Steady (target : Target) (isLen : String → LenFields) : Prop where
  sizes_name : ∀ c, (target.assignSizesCall c).name = c.name
  sizes_fields : ∀ c, (target.assignSizesCall c).fields = c.fields
  sizes : ∀ c, ShrunkFields (isLen c.name) false [] c.fields c.args (target.assignSizesCall c).args
  sanitize_name : ∀ c, (target.sanitize c).name = c.name
  sanitize_fields : ∀ c, (target.sanitize c).fields = c.fields
  sanitize : ∀ c c', target.sanitize c = c → c'.name = c.name → c'.fields = c.fields →
    ShrunkFields (isLen c.name) true [] c.fields c.args c'.args →
    ShrunkFields (isLen c.name) false [] c.fields c'.args (target.sanitize c').args

/-- The call `c` after edits of its arguments that keep the anchors. -/
structure Kept (isLen : String → LenFields) (drops : Bool) (c0 c : MinCall) : Prop where
  name : c.name = c0.name
  fields : c.fields = c0.fields
  args : ShrunkFields (isLen c0.name) drops [] c0.fields c0.args c.args

def Descends (target : Target) (isLen : String → LenFields) (c0 : MinCall) : Prop :=
  ∃ b, target.sanitize b = b ∧ Kept isLen true b c0

/-- A call as a pass finds it: it comes from a sanitized one, it does not refer to its own results, and its anchors
lie apart from what can be dropped. -/
structure Anchored (target : Target) (isLen : String → LenFields) (c0 : MinCall) : Prop where
  clean : Descends target isLen c0
  apart : ∀ r ∈ refsOfList c0.args, r ∉ resultsOfList c0.args
  separated : SeparatedFields (isLen c0.name) [] c0.fields c0.args

variable {ctx : ArgsCtx} {isLen : String → LenFields} {ps0 : MinGroup} {c0 : MinCall}

namespace Kept

variable {drops : Bool} {c c' : MinCall}

theorem refl (c : MinCall) : Kept isLen drops c c := ⟨rfl, rfl, ShrunkFields.refl [] c.fields c.args⟩

theorem trans (first : Kept isLen drops c0 c) (second : Kept isLen drops c c') : Kept isLen drops c0 c' := by
  refine ⟨second.name.trans first.name, second.fields.trans first.fields, ShrunkFields.trans _ _ _ _ _ first.args ?_⟩
  rw [← first.name, ← first.fields]
  exact second.args

theorem allow (kept : Kept isLen false c0 c) : Kept isLen drops c0 c := ⟨kept.name, kept.fields, kept.args.allow⟩

variable (steady : Steady ctx.target isLen)
include steady

theorem assign (kept : Kept isLen drops c0 c) : Kept isLen drops c0 (ctx.target.assignSizesCall c) :=
  kept.trans (allow ⟨steady.sizes_name c, steady.sizes_fields c, steady.sizes c⟩)

theorem sanitize (kept : Kept isLen drops c0 c) (descends : Descends ctx.target isLen c0) :
    Kept isLen drops c0 (ctx.target.sanitize c) := by
  obtain ⟨b, clean, from_⟩ := descends
  have whole : Kept isLen true b c := by
    cases drops with
    | false => exact from_.trans kept.allow
    | true => exact from_.trans kept
  have values := steady.sanitize b c clean whole.name whole.fields whole.args
  refine kept.trans (allow ⟨steady.sanitize_name c, steady.sanitize_fields c, ?_⟩)
  rw [whole.name, whole.fields]
  exact values

omit steady in
theorem anchored {target : Target} (kept : Kept isLen true c0 c) (anchored : Anchored target isLen c0) :
    Anchored target isLen c := by
  have subset := ShrunkFields.subset _ _ _ _ kept.args
  obtain ⟨b, clean, from_⟩ := anchored.clean
  refine ⟨⟨b, clean, from_.trans kept⟩, fun r member inside => anchored.apart r (subset.1 member) (subset.2 inside), ?_⟩
  rw [kept.name, kept.fields]
  exact ShrunkFields.separated _ _ _ _ kept.args anchored.separated

end Kept

/-- Nothing is committed, and only lengths and contents differ in the call in work. -/
structure Tied (ctx : ArgsCtx) (isLen : String → LenFields) (ps0 : MinGroup) (c0 : MinCall) (st : ArgsState) : Prop where
  kept : st.ps0 = ps0
  call : ∃ c, ctx.call st.ps = some c ∧ Kept isLen false c0 c

/-- What a search comes to: nothing, or a call with its anchors. -/
def AnchorsKept (ctx : ArgsCtx) (isLen : String → LenFields) (ps0 : MinGroup) (c0 : MinCall) : Bool × ArgsState → Prop
  | (false, st) => Tied ctx isLen ps0 c0 st
  | (true, st) => st.ps0 = ps0 ∨ ∃ c, ctx.call st.ps0 = some c ∧ Kept isLen true c0 c

section Search

variable (steady : Steady ctx.target isLen) (anchored : Anchored ctx.target isLen c0)
include steady anchored

theorem call_edit {drops : Bool} {ps : MinGroup} {c : MinCall} (here : ctx.call ps = some c) (kept : Kept isLen false c0 c)
    {loc : List Nat} {x : MinArg} {f : MinArg → MinArg} (found : getArgs loc c0.args = some x)
    (edit : EditShrinks (isLen c0.name) drops x f) :
    ∃ c', ctx.call (ctx.edit f loc ps) = some c' ∧ Kept isLen drops c0 c' := by
  refine ⟨_, (call_modCall ctx ps _).trans (congrArg _ here), Kept.assign steady ⟨kept.name, kept.fields, ?_⟩⟩
  exact ShrunkFields.modArgs found edit anchored.separated kept.args

theorem call_pred {drops : Bool} {ps : MinGroup} {c : MinCall} (here : ctx.call ps = some c) (kept : Kept isLen drops c0 c) :
    ∃ c', ctx.call (ctx.pred ps ctx.callIndex0).1 = some c' ∧ Kept isLen drops c0 c' :=
  ⟨ctx.target.sanitize c, (call_map ctx ps _).trans (congrArg _ here), kept.sanitize steady anchored.clean⟩

theorem drop_kept {gone : List ResultId} {f : MinArg → MinArg} {loc : List Nat} {path : String} {st : ArgsState} {x : MinArg}
    (tied : Tied ctx isLen ps0 c0 st) (found : getArgs loc c0.args = some x) (own : gone ⊆ resultsOf x)
    (edit : EditShrinks (isLen c0.name) true x f) : AnchorsKept ctx isLen ps0 c0 (ctx.drop gone f loc path st) := by
  obtain ⟨c, here, kept⟩ := tied.call
  have unrelated : detachCall ctx.target.dflt gone c = c := by
    rw [detachCall, detachArgs_unrelated]
    intro r member inside
    exact anchored.apart r ((ShrunkFields.subset _ _ _ _ kept.args).1 member) (results_getArgs found (own inside))
  have detached : ctx.call (st.ps.modify ctx.j fun p => p.map (detachCall ctx.target.dflt gone)) = some c := by
    rw [call_modify, here, Option.map_some, unrelated]
  obtain ⟨c', edited, kept'⟩ := call_edit steady anchored detached kept found edit
  obtain ⟨c'', tried, kept''⟩ := call_pred steady anchored edited kept'
  unfold ArgsCtx.drop
  dsimp only
  generalize ctx.pred (ctx.edit f loc (st.ps.modify ctx.j fun p => p.map (detachCall ctx.target.dflt gone)))
    ctx.callIndex0 = result at tried ⊢
  obtain ⟨ps, good⟩ := result
  cases good with
  | true => exact .inr ⟨c'', tried, kept''⟩
  | false => exact .inl tied.kept

/-- By induction over the cuts, those that are taken back too. -/
theorem shrink_kept {kind : BufferKind} {rangeBegin : Nat} {isOut : Bool} {bytes : List UInt8} {loc : List Nat}
    (content : isContent kind = true) (found : getArgs loc c0.args = some (.data kind rangeBegin isOut bytes))
    (minLen len step : Nat) {ps : MinGroup} (before : ∃ c, ctx.call ps = some c ∧ Kept isLen false c0 c) :
    ∃ c, ctx.call (ctx.shrink loc bytes minLen len step ps).2 = some c ∧ Kept isLen false c0 c := by
  have set_ : ∀ (n : Nat) (ps : MinGroup), (∃ c, ctx.call ps = some c ∧ Kept isLen false c0 c) →
      ∃ c, ctx.call (ctx.edit (setData (bytes.take n)) loc ps) = some c ∧ Kept isLen false c0 c := by
    rintro n ps ⟨c, here, kept⟩
    exact call_edit steady anchored here kept found (setData_shrinks content rangeBegin isOut bytes n)
  have tried : ∀ (n : Nat) (ps : MinGroup), (∃ c, ctx.call ps = some c ∧ Kept isLen false c0 c) →
      ∃ c, ctx.call (ctx.pred (ctx.edit (setData (bytes.take n)) loc ps) ctx.callIndex0).1 = some c ∧ Kept isLen false c0 c := by
    rintro n ps before
    obtain ⟨c, here, kept⟩ := set_ n ps before
    exact call_pred steady anchored here kept
  fun_induction ArgsCtx.shrink ctx loc bytes minLen len step ps with
  | case1 len step ps running fits ps' good ih =>
    have cut := tried (len - step) ps before
    rw [good] at cut
    exact ih cut
  | case2 len step ps running fits ps' bad back crash =>
    have cut := tried (len - step) ps before
    rw [bad] at cut
    exact set_ len ps' cut
  | case3 len step ps running fits ps' bad back more ih =>
    have cut := tried (len - step) ps before
    rw [bad] at cut
    exact ih (set_ len ps' cut)
  | case4 len step ps running tooFar crash => exact before
  | case5 len step ps running tooFar more ih => exact ih before
  | case6 len step ps done => exact before

theorem minimizeBuffer_kept {kind : BufferKind} {rangeBegin : Nat} {isOut : Bool} {bytes : List UInt8} {path : String}
    {loc : List Nat} {st : ArgsState} (tied : Tied ctx isLen ps0 c0 st)
    (found : getArgs loc c0.args = some (.data kind rangeBegin isOut bytes)) :
    AnchorsKept ctx isLen ps0 c0 (ctx.minimizeBuffer kind rangeBegin isOut bytes path loc st) := by
  unfold ArgsCtx.minimizeBuffer
  split
  · exact tied
  · rename_i blob
    have content : isContent kind = true := by
      cases kind <;> simp_all [isContent]
    have cut := shrink_kept steady anchored content found rangeBegin bytes.length (bytes.length - rangeBegin) tied.call
    generalize ctx.shrink loc bytes rangeBegin bytes.length (bytes.length - rangeBegin) st.ps = result at cut
    obtain ⟨len, ps⟩ := result
    obtain ⟨c, here, kept⟩ := cut
    dsimp only at here ⊢
    split
    · exact .inr ⟨c, here, kept.allow⟩
    · exact ⟨tied.kept, c, here, kept⟩

omit steady anchored in
theorem attempt_kept {arg : MinArg} {path : String} {minimize : ArgsState → Bool × ArgsState} {st : ArgsState}
    (tied : Tied ctx isLen ps0 c0 st) (search : argMinimizable arg = true → AnchorsKept ctx isLen ps0 c0 (minimize st)) :
    AnchorsKept ctx isLen ps0 c0 (attempt arg path minimize st) := by
  unfold Minimize.attempt
  split
  · exact tied
  · rename_i running
    have some_ : argMinimizable arg = true := by
      cases some_ : argMinimizable arg with
      | true => rfl
      | false => simp [some_] at running
    have after := search some_
    generalize minimize st = result at after
    obtain ⟨found, st'⟩ := result
    cases found with
    | true => exact after
    | false => exact ⟨after.kept, after.call⟩

end Search

mutual

theorem doArg_kept (steady : Steady ctx.target isLen) (anchored : Anchored ctx.target isLen c0) :
    ∀ (arg : MinArg) (path : String) (loc : List Nat) (st : ArgsState), Tied ctx isLen ps0 c0 st →
      getArgs loc c0.args = some arg → AnchorsKept ctx isLen ps0 c0 (doArg ctx arg path loc st)
  | .const _, _, _, _, tied, _ | .result _ _ _, _, _, _, tied, _ | .null _, _, _, _, tied, _ => tied
  | .data _ _ _ _, _, _, _, tied, here => attempt_kept tied fun _ => minimizeBuffer_kept steady anchored tied here
  | .pointer address res, path, loc, st, tied, here => by
    have inside : loc ≠ [] := by
      rintro rfl
      cases here
    have below : getArgs (loc ++ [0]) c0.args = some res := by
      rw [getArgs_child inside, here]
      rfl
    refine attempt_kept tied fun some_ => ?_
    split
    · exact drop_kept steady anchored tied here (List.Subset.refl _) (dropTarget_shrinks _ address some_)
    · exact doArg_kept steady anchored res (path ++ "-") (loc ++ [0]) st tied below
  | .struct fields inner, path, loc, st, tied, here => by
    have inside : loc ≠ [] := by
      rintro rfl
      cases here
    refine attempt_kept tied fun _ => doFields_kept steady anchored inner fields path loc 0 st tied fun k => ?_
    rw [getArgs_child inside, here, Nat.zero_add]
    rfl
  | .array kind rangeBegin inner, path, loc, st, tied, here =>
    attempt_kept tied fun _ => doElems_kept steady anchored inner _ path loc 0 st kind rangeBegin inner tied here rfl
  | .union field option, path, loc, st, tied, here => by
    have inside : loc ≠ [] := by
      rintro rfl
      cases here
    refine attempt_kept tied fun _ => doArg_kept steady anchored option (path ++ "-" ++ field) (loc ++ [0]) st tied ?_
    rw [getArgs_child inside, here]
    rfl

theorem doFields_kept (steady : Steady ctx.target isLen) (anchored : Anchored ctx.target isLen c0) :
    ∀ (args : List MinArg) (fields : List String) (path : String) (loc : List Nat) (k : Nat) (st : ArgsState),
      Tied ctx isLen ps0 c0 st → (∀ m, getArgs (loc ++ [k + m]) c0.args = args[m]?) →
      AnchorsKept ctx isLen ps0 c0 (doFields ctx args fields path loc k st)
  | [], _, _, _, _, _, tied, _ => tied
  | arg :: rest, fields, path, loc, k, st, tied, found => by
    have first := doArg_kept steady anchored arg (path ++ "-" ++ fields.headD "") (loc ++ [k]) st tied (found 0)
    rw [doFields]
    generalize doArg ctx arg (path ++ "-" ++ fields.headD "") (loc ++ [k]) st = result at first ⊢
    obtain ⟨done, st'⟩ := result
    cases done with
    | true => exact first
    | false =>
      refine doFields_kept steady anchored rest fields.tail path loc (k + 1) st' first fun m => ?_
      rw [Nat.add_assoc, Nat.add_comm 1 m]
      exact found (m + 1)

/-- The elements are those of the array `inner` from `k` on. -/
theorem doElems_kept (steady : Steady ctx.target isLen) (anchored : Anchored ctx.target isLen c0) :
    ∀ (elems : List MinArg) (removable : Bool) (path : String) (loc : List Nat) (k : Nat) (st : ArgsState)
      (kind : ArrayKind) (rangeBegin : Nat) (inner : List MinArg), Tied ctx isLen ps0 c0 st →
      getArgs loc c0.args = some (.array kind rangeBegin inner) → inner.drop k = elems →
      AnchorsKept ctx isLen ps0 c0 (doElems ctx elems removable path loc k st)
  | [], _, _, _, _, _, _, _, _, tied, _, _ => tied
  | elem :: rest, removable, path, loc, k, st, kind, rangeBegin, inner, tied, here, from_k => by
    have inside : loc ≠ [] := by
      rintro rfl
      cases here
    have within : k < inner.length := by
      by_contra outside
      rw [List.drop_eq_nil_of_le (by omega)] at from_k
      cases from_k
    rw [List.drop_eq_getElem_cons within] at from_k
    obtain ⟨at_k, behind⟩ := List.cons.inj from_k
    have last := doElems_kept steady anchored rest removable path loc (k + 1) st kind rangeBegin inner tied here behind
    rw [doElems]
    generalize doElems ctx rest removable path loc (k + 1) st = result at last ⊢
    obtain ⟨done, st'⟩ := result
    cases done with
    | true => exact last
    | false =>
      have below : getArgs (loc ++ [k]) c0.args = some elem := by
        rw [getArgs_child inside, here]
        exact List.getElem?_eq_some_iff.mpr ⟨within, at_k⟩
      have own : resultsOf elem ⊆ resultsOf (.array kind rangeBegin inner) :=
        results_mem (at_k ▸ List.getElem_mem within)
      dsimp only
      split
      · exact drop_kept steady anchored last here own (dropElem_shrinks kind rangeBegin inner k)
      · exact doArg_kept steady anchored elem (path ++ "-" ++ toString k ++ "-") (loc ++ [k]) st' last below

end

/-! ### All passes -/

theorem minimizeArgs_kept (steady : Steady ctx.target isLen) (anchored : Anchored ctx.target isLen c0)
    (here : ctx.call ps0 = some c0) {fuel : Nat} {triedPaths : List String} {ps : MinGroup}
    (returned : ctx.minimizeArgs fuel ps0 triedPaths = some ps) : ∃ c, ctx.call ps = some c ∧ Kept isLen true c0 c := by
  induction fuel generalizing ps0 c0 triedPaths with
  | zero => cases returned
  | succ fuel ih =>
    have start : Tied ctx isLen ps0 c0 ⟨ps0, ps0, triedPaths⟩ := ⟨rfl, c0, here, Kept.refl c0⟩
    have pass := doFields_kept steady anchored c0.args c0.fields "" [] 0 ⟨ps0, ps0, triedPaths⟩ start fun m => by
      rw [List.nil_append, Nat.zero_add, getArgs]
      cases c0.args[m]? <;> rfl
    generalize found : doFields ctx c0.args c0.fields "" [] 0 ⟨ps0, ps0, triedPaths⟩ = result at pass
    obtain ⟨again, st⟩ := result
    cases again with
    | false =>
      rw [minimizeArgs_done here found, pass.kept] at returned
      cases returned
      exact ⟨c0, here, Kept.refl c0⟩
    | true =>
      rw [minimizeArgs_again here found] at returned
      rcases pass with same | ⟨c, next, kept⟩
      · rw [same] at returned
        exact ih anchored here returned
      · obtain ⟨c', last, kept'⟩ := ih (kept.anchored anchored) next returned
        exact ⟨c', last, kept.trans kept'⟩

end DfsFuzz.Minimize
