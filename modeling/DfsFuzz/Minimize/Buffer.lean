import DfsFuzz.Minimize.Outline

/-!
How the edits of one call and the predicate change the group in work, and the loop that cuts a buffer:
what it ends with is accepted although the rejected cuts were made in place.
-/

namespace DfsFuzz.Minimize

open DfsFuzz.Mutation (isFailure)

/-- The group still is `ps0` up to the arguments of the call in work, which has this tree now. -/
structure View (ctx : ArgsCtx) (srvNum : Nat) (ps0 : MinGroup) (name : String) (tree : List MinArg) (ps : MinGroup) : Prop where
  same : Same srvNum ps0 ps
  call : ∃ c, ctx.call ps = some c ∧ c.name = name ∧ eraseList c.args = tree

section Calls

variable (ctx : ArgsCtx) (ps : MinGroup)

theorem call_modCall (f : MinCall → MinCall) : ctx.call (ctx.modCall f ps) = (ctx.call ps).map f := by
  simp only [ArgsCtx.call, ArgsCtx.modCall, List.getElem?_modify, if_true]
  cases ps[ctx.j]? with
  | none => rfl
  | some p => simp

theorem call_map (f : MinCall → MinCall) : ctx.call (ps.map fun p => p.map f) = (ctx.call ps).map f := by
  simp only [ArgsCtx.call, List.getElem?_map]
  cases ps[ctx.j]? <;> simp

theorem call_modify (f : MinCall → MinCall) : ctx.call (ps.modify ctx.j fun p => p.map f) = (ctx.call ps).map f := by
  simp only [ArgsCtx.call, List.getElem?_modify, if_true]
  cases ps[ctx.j]? with
  | none => rfl
  | some p => simp

theorem outline_modCall {f : MinCall → MinCall} (keeps : ∀ c, ctx.call ps = some c → (f c).key = c.key) :
    outline (ctx.modCall f ps) = outline ps := by
  apply List.ext_getElem?
  intro k
  simp only [outline, ArgsCtx.modCall, List.getElem?_map, List.getElem?_modify]
  by_cases own : ctx.j = k
  · subst own
    cases here : ps[ctx.j]? with
    | none => rfl
    | some p =>
      simp only [if_true, Option.map_eq_map, Option.map_some, Option.some.injEq]
      apply List.ext_getElem?
      intro m
      simp only [List.getElem?_map, List.getElem?_modify]
      by_cases at_place : ctx.i = m
      · subst at_place
        cases found : p[ctx.i]? with
        | none => rfl
        | some c =>
          have kept := keeps c (by simp [ArgsCtx.call, here, found])
          simp [kept]
      · simp [at_place]
  · simp [own]

end Calls

namespace View

variable {ctx : ArgsCtx} (lawful : Lawful ctx.target) {srvNum : Nat} {ps0 ps : MinGroup} {name : String} {tree : List MinArg}
  (view : View ctx srvNum ps0 name tree ps)
include view

include lawful in
theorem pred (clean : CleanServers ctx.target srvNum ps0) (callIndex : Int) :
    View ctx srvNum ps0 name tree (ctx.pred ps callIndex).1 := by
  obtain ⟨c, here, named, shape⟩ := view.call
  have values := lawful.sanitize_values c
  refine ⟨view.same.trans (Same.pred lawful (view.same.clean clean) callIndex), ctx.target.sanitize c, ?_, ?_, ?_⟩
  · exact (call_map ctx ps _).trans (congrArg _ here)
  · exact values.name.trans named
  · exact values.args.trans shape

theorem detach (client : srvNum ≤ ctx.j) (gone : List ResultId) :
    View ctx srvNum ps0 name tree (ps.modify ctx.j fun p => p.map (detachCall ctx.target.dflt gone)) := by
  obtain ⟨c, here, named, shape⟩ := view.call
  refine ⟨view.same.trans (Same.detach client _ gone), detachCall ctx.target.dflt gone c, ?_, named, ?_⟩
  · exact (call_modify ctx ps _).trans (congrArg _ here)
  · exact (eraseList_retagList _).trans shape

theorem modCall (client : srvNum ≤ ctx.j) {f : MinCall → MinCall} {tree' : List MinArg}
    (keeps : ∀ c, c.name = name → eraseList c.args = tree → (f c).key = c.key ∧ eraseList (f c).args = tree') :
    View ctx srvNum ps0 name tree' (ctx.modCall f ps) := by
  obtain ⟨c, here, named, shape⟩ := view.call
  obtain ⟨key, after⟩ := keeps c named shape
  refine ⟨view.same.trans ⟨outline_modCall ctx ps ?_, take_modify_behind client _ _⟩, f c, ?_, ?_, after⟩
  · intro c' here'
    obtain rfl : c = c' := Option.some.inj (here.symm.trans here')
    exact key
  · exact (call_modCall ctx ps f).trans (congrArg _ here)
  · exact (congrArg CallKey.name key).trans named

include lawful in
theorem edit (client : srvNum ≤ ctx.j) (plain : isFailure name = false) {f : MinArg → MinArg}
    (commutes : ∀ arg, erase (f arg) = f (erase arg)) (loc : List Nat) :
    View ctx srvNum ps0 name (modArgs f loc tree) (ctx.edit f loc ps) := by
  apply view.modCall client
  intro c named shape
  have values := lawful.sizes_values { c with args := modArgs f loc c.args }
  constructor
  · have kept : MinCall.key { c with args := modArgs f loc c.args } = c.key := by
      simp [MinCall.key, named, plain]
    exact (values.key (by simpa [named] using plain)).trans kept
  · rw [values.args, eraseList_modArgs commutes, shape]

end View

/-! ### Buffers -/

theorem MinCall.setBytes_setBytes (bytes bytes' : List UInt8) (loc : List Nat) (c : MinCall) :
    (c.setBytes bytes' loc).setBytes bytes loc = c.setBytes bytes loc := by
  simp [MinCall.setBytes, modArgs_modArgs, setData_setData]

/-- The buffer at `loc` holds the first `len` bytes. What has been cut off has been accepted, also
after a rejected cut was taken back. -/
structure Cut (ctx : ArgsCtx) (srvNum : Nat) (ps0 : MinGroup) (name : String) (tree : List MinArg) (loc : List Nat)
    (bytes : List UInt8) (len : Nat) (ps : MinGroup) : Prop where
  short : len ≤ bytes.length
  view : View ctx srvNum ps0 name (modArgs (setData (bytes.take len)) loc tree) ps
  good : len ≠ bytes.length → accepted ctx.toJob ps ctx.callIndex0
  settled : len ≠ bytes.length → ∀ c, ctx.call ps = some c →
    ctx.target.sanitize (ctx.target.assignSizesCall (c.setBytes (bytes.take len) loc)) = ctx.target.sanitize c

theorem map_modCall_map {ctx : ArgsCtx} (twice : ∀ c, ctx.target.sanitize (ctx.target.sanitize c) = ctx.target.sanitize c)
    {ps : MinGroup} {f g : MinCall → MinCall}
    (back : ∀ c, ctx.call ps = some c → ctx.target.sanitize (g (ctx.target.sanitize (f c))) = ctx.target.sanitize c) :
    (ctx.modCall g ((ctx.modCall f ps).map fun p => p.map ctx.target.sanitize)).map (fun p => p.map ctx.target.sanitize) =
      ps.map fun p => p.map ctx.target.sanitize := by
  apply List.ext_getElem?
  intro k
  simp only [ArgsCtx.modCall, List.getElem?_map, List.getElem?_modify]
  by_cases own : ctx.j = k
  · subst own
    cases here : ps[ctx.j]? with
    | none => rfl
    | some p =>
      simp only [if_true, Option.map_eq_map, Option.map_some, Option.some.injEq]
      apply List.ext_getElem?
      intro m
      simp only [List.getElem?_map, List.getElem?_modify]
      by_cases at_place : ctx.i = m
      · subst at_place
        cases found : p[ctx.i]? with
        | none => rfl
        | some c =>
          have same := back c (by simp [ArgsCtx.call, here, found])
          simp [same]
      · simp [at_place, Function.comp_def, twice]
  · simp [own, Function.comp_def, twice]

section Buffer

variable {ctx : ArgsCtx} (lawful : Lawful ctx.target) {srvNum : Nat} (client : srvNum ≤ ctx.j) {ps0 ps : MinGroup}
  (clean : CleanServers ctx.target srvNum ps0) {name : String} (plain : isFailure name = false) {tree : List MinArg}
  {loc : List Nat} {bytes : List UInt8} {len : Nat} (cut : Cut ctx srvNum ps0 name tree loc bytes len ps)
include lawful client clean plain cut

omit clean in
theorem Cut.view_edit (len' : Nat) :
    View ctx srvNum ps0 name (modArgs (setData (bytes.take len')) loc tree) (ctx.edit (setData (bytes.take len')) loc ps) := by
  have edited := cut.view.edit lawful client plain (erase_setData (bytes.take len')) loc
  rwa [modArgs_modArgs, setData_setData] at edited

theorem Cut.accept {step : Nat}
    (good : (ctx.pred (ctx.edit (setData (bytes.take (len - step))) loc ps) ctx.callIndex0).2 = true) :
    Cut ctx srvNum ps0 name tree loc bytes (len - step)
      (ctx.pred (ctx.edit (setData (bytes.take (len - step))) loc ps) ctx.callIndex0).1 := by
  refine ⟨Nat.le_trans (Nat.sub_le len step) cut.short, (cut.view_edit lawful client plain _).pred lawful clean _,
    fun _ => (accepted_pred lawful).mpr good, ?_⟩
  intro _ c' here'
  obtain ⟨c, here, -, -⟩ := cut.view.call
  have after : ctx.call (ctx.pred (ctx.edit (setData (bytes.take (len - step))) loc ps) ctx.callIndex0).1 =
      some (ctx.target.sanitize (ctx.target.assignSizesCall (c.setBytes (bytes.take (len - step)) loc))) := by
    rw [Job.pred, call_map, ArgsCtx.edit, call_modCall, here]
    rfl
  obtain rfl := Option.some.inj (after.symm.trans here')
  rw [lawful.resized, lawful.sanitize_twice]

theorem Cut.reject (step : Nat) :
    Cut ctx srvNum ps0 name tree loc bytes len (ctx.edit (setData (bytes.take len)) loc
      (ctx.pred (ctx.edit (setData (bytes.take (len - step))) loc ps) ctx.callIndex0).1) := by
  have tried := (cut.view_edit lawful client plain (len - step)).pred lawful clean ctx.callIndex0
  have view := tried.edit lawful client plain (erase_setData (bytes.take len)) loc
  rw [modArgs_modArgs, setData_setData] at view
  refine ⟨cut.short, view, ?_, ?_⟩
  · -- sanitized, the group is the one before the cut
    intro shorter
    have same : (ctx.edit (setData (bytes.take len)) loc
        (ctx.pred (ctx.edit (setData (bytes.take (len - step))) loc ps) ctx.callIndex0).1).map
          (fun p => p.map ctx.target.sanitize) = ps.map fun p => p.map ctx.target.sanitize := by
      apply map_modCall_map lawful.sanitize_twice
      intro c here
      exact (lawful.resized c (bytes.take len) (bytes.take (len - step)) loc).trans (cut.settled shorter c here)
    rw [accepted, Job.pred, same]
    exact cut.good shorter
  · intro _ c' here'
    obtain ⟨c, here, -, -⟩ := tried.call
    have after : ctx.call (ctx.edit (setData (bytes.take len)) loc
        (ctx.pred (ctx.edit (setData (bytes.take (len - step))) loc ps) ctx.callIndex0).1) =
          some (ctx.target.assignSizesCall (c.setBytes (bytes.take len) loc)) := by
      rw [ArgsCtx.edit, call_modCall, here]
      rfl
    obtain rfl := Option.some.inj (after.symm.trans here')
    rw [lawful.sizes_again, MinCall.setBytes_setBytes]

theorem Cut.shrink (minLen step : Nat) : Cut ctx srvNum ps0 name tree loc bytes
    (ctx.shrink loc bytes minLen len step ps).1 (ctx.shrink loc bytes minLen len step ps).2 := by
  fun_induction ArgsCtx.shrink ctx loc bytes minLen len step ps with
  | case1 len step ps running fits ps' good ih =>
    apply ih
    have verdict := congrArg Prod.snd good
    have after := cut.accept lawful client clean plain verdict
    rwa [good] at after
  | case2 len step ps running fits ps' bad back crash =>
    have after := cut.reject lawful client clean plain step
    rwa [bad] at after
  | case3 len step ps running fits ps' bad back more ih =>
    apply ih
    have after := cut.reject lawful client clean plain step
    rwa [bad] at after
  | case4 len step ps running tooFar crash => exact cut
  | case5 len step ps running tooFar more ih => exact ih cut
  | case6 len step ps done => exact cut

end Buffer

end DfsFuzz.Minimize
