import DfsFuzz.Lib.GuardedRun
import DfsFuzz.Minimize.Buffer

/-!
The passes over the arguments of a call. A pass finds nothing to try, commits a smaller call, or
tries one more path in vain; so they come to an end, with a group that is accepted and has the same
outline.
-/

namespace DfsFuzz.Minimize

open DfsFuzz.Mutation (isFailure)

/-- Nothing is committed, and the call in work still has the tree of the call `c0` of `ps0`. -/
structure Working (ctx : ArgsCtx) (srvNum : Nat) (ps0 : MinGroup) (c0 : MinCall) (st : ArgsState) : Prop where
  kept : st.ps0 = ps0
  view : View ctx srvNum ps0 c0.name (eraseList c0.args) st.ps

/-- What a search from `st` among these trial paths comes to. -/
inductive Outcome (ctx : ArgsCtx) (srvNum : Nat) (ps0 : MinGroup) (c0 : MinCall) (trials : List String) (st : ArgsState) :
    Bool × ArgsState → Prop
  | searched {st' : ArgsState} : Working ctx srvNum ps0 c0 st' → st.triedPaths ⊆ st'.triedPaths →
      Outcome ctx srvNum ps0 c0 trials st (false, st')
  | rejected {st' : ArgsState} (path : String) : st'.ps0 = ps0 → st.triedPaths ⊆ st'.triedPaths → path ∈ trials →
      path ∉ st.triedPaths → path ∈ st'.triedPaths → Outcome ctx srvNum ps0 c0 trials st (true, st')
  | committed {st' : ArgsState} (tree : List MinArg) : accepted ctx.toJob st'.ps0 ctx.callIndex0 →
      View ctx srvNum ps0 c0.name tree st'.ps0 → sizes tree < sizes c0.args →
      Outcome ctx srvNum ps0 c0 trials st (true, st')

namespace Outcome

variable {ctx : ArgsCtx} {srvNum : Nat} {ps0 : MinGroup} {c0 : MinCall} {trials trials' : List String} {st st' : ArgsState}
  {result : Bool × ArgsState}

theorem among (outcome : Outcome ctx srvNum ps0 c0 trials st result) (more : trials ⊆ trials') :
    Outcome ctx srvNum ps0 c0 trials' st result := by
  cases outcome with
  | searched working grows => exact .searched working grows
  | rejected path kept grows member fresh tried => exact .rejected path kept grows (more member) fresh tried
  | committed tree good view smaller => exact .committed tree good view smaller

theorem later (grows : st.triedPaths ⊆ st'.triedPaths) (outcome : Outcome ctx srvNum ps0 c0 trials st' result) :
    Outcome ctx srvNum ps0 c0 trials st result := by
  cases outcome with
  | searched working more => exact .searched working (List.Subset.trans grows more)
  | rejected path kept more member fresh tried =>
    exact .rejected path kept (List.Subset.trans grows more) member (fun old => fresh (grows old)) tried
  | committed tree good view smaller => exact .committed tree good view smaller

theorem attempt {arg : MinArg} {path : String} {minimize : ArgsState → Bool × ArgsState}
    (working : Working ctx srvNum ps0 c0 st) (outcome : Outcome ctx srvNum ps0 c0 trials st (minimize st)) :
    Outcome ctx srvNum ps0 c0 trials st (attempt arg path minimize st) := by
  unfold Minimize.attempt
  split
  · exact .searched working (List.Subset.refl _)
  · generalize minimize st = result at outcome
    cases outcome with
    | searched working grows =>
      exact .searched ⟨working.kept, working.view⟩ (List.Subset.trans grows (List.subset_cons_self _ _))
    | rejected path kept grows member fresh tried => exact .rejected path kept grows member fresh tried
    | committed tree good view smaller => exact .committed tree good view smaller

end Outcome

section Pass

variable {ctx : ArgsCtx} (lawful : Lawful ctx.target) {srvNum : Nat} (client : srvNum ≤ ctx.j) {ps0 : MinGroup}
  (clean : CleanServers ctx.target srvNum ps0) {c0 : MinCall} (plain : isFailure c0.name = false)
include lawful client clean plain

theorem outcome_drop {gone : List ResultId} {f : MinArg → MinArg} {loc : List Nat} {path : String} {st : ArgsState}
    {arg : MinArg} {trials : List String} (working : Working ctx srvNum ps0 c0 st)
    (commutes : ∀ arg, erase (f arg) = f (erase arg)) (here : getArgs loc c0.args = some arg)
    (smaller : size (f (erase arg)) < size (erase arg)) (member : path ∈ trials) (fresh : path ∉ st.triedPaths) :
    Outcome ctx srvNum ps0 c0 trials st (ctx.drop gone f loc path st) := by
  have dropped := ((working.view.detach client gone).edit lawful client plain commutes loc).pred lawful clean ctx.callIndex0
  unfold ArgsCtx.drop
  dsimp only
  generalize verdict : ctx.pred (ctx.edit f loc (st.ps.modify ctx.j fun p => p.map (detachCall ctx.target.dflt gone)))
    ctx.callIndex0 = result at dropped ⊢
  obtain ⟨ps, good⟩ := result
  cases good with
  | true =>
    show Outcome ctx srvNum ps0 c0 trials st (true, ⟨ps, ps, path :: st.triedPaths⟩)
    refine .committed _ ?_ dropped ?_
    · have good := (accepted_pred lawful).mpr (congrArg Prod.snd verdict)
      rwa [verdict] at good
    · rw [← sizes_eraseList c0.args]
      exact sizes_modArgs_lt ((getArgs_erase loc c0.args).trans (congrArg _ here)) smaller
  | false =>
    show Outcome ctx srvNum ps0 c0 trials st (true, ⟨st.ps0, ps, path :: st.triedPaths⟩)
    exact .rejected path working.kept (List.subset_cons_self _ _) member fresh List.mem_cons_self

theorem outcome_minimizeBuffer {kind : BufferKind} {rangeBegin : Nat} {isOut : Bool} {bytes : List UInt8} {path : String}
    {loc : List Nat} {st : ArgsState} (working : Working ctx srvNum ps0 c0 st)
    (here : getArgs loc c0.args = some (.data kind rangeBegin isOut bytes)) :
    Outcome ctx srvNum ps0 c0 [] st (ctx.minimizeBuffer kind rangeBegin isOut bytes path loc st) := by
  have erased : getArgs loc (eraseList c0.args) = some (.data kind rangeBegin isOut bytes) :=
    (getArgs_erase loc c0.args).trans (congrArg _ here)
  have full : modArgs (setData (bytes.take bytes.length)) loc (eraseList c0.args) = eraseList c0.args :=
    modArgs_of_fixed erased (congrArg _ List.take_length)
  have start : Cut ctx srvNum ps0 c0.name (eraseList c0.args) loc bytes bytes.length st.ps :=
    ⟨Nat.le_refl _, full.symm ▸ working.view, fun changed => absurd rfl changed, fun changed => absurd rfl changed⟩
  have cut := start.shrink lawful client clean plain rangeBegin (bytes.length - rangeBegin)
  unfold ArgsCtx.minimizeBuffer
  split
  · exact .searched working (List.Subset.refl _)
  · generalize ctx.shrink loc bytes rangeBegin bytes.length (bytes.length - rangeBegin) st.ps = result at cut
    obtain ⟨len, ps⟩ := result
    dsimp only at cut ⊢
    split
    · rename_i shorter
      refine .committed _ (cut.good shorter) cut.view ?_
      rw [← sizes_eraseList c0.args]
      apply sizes_modArgs_lt erased
      have less := cut.short
      simp only [setData, size, List.length_take]
      omega
    · rename_i whole
      have view := cut.view
      rw [Decidable.not_not.mp whole, full] at view
      exact .searched ⟨working.kept, view⟩ (List.Subset.refl _)

end Pass

theorem erase_dropTarget (special : UInt64) (arg : MinArg) : erase (dropTarget special arg) = dropTarget special (erase arg) := by
  cases arg <;> rfl

theorem erase_dropElem (i : Nat) (arg : MinArg) : erase (dropElem i arg) = dropElem i (erase arg) := by
  cases arg with
  | array kind rangeBegin inner =>
    apply congrArg (MinArg.array kind rangeBegin)
    show eraseList (inner.eraseIdx i) = (eraseList inner).eraseIdx i
    rw [eraseList_eq_map, eraseList_eq_map, List.eraseIdx_map]
  | _ => rfl

section Search

variable {ctx : ArgsCtx} {srvNum : Nat} {ps0 : MinGroup} {c0 : MinCall}

mutual

theorem outcome_doArg (lawful : Lawful ctx.target) (client : srvNum ≤ ctx.j) (clean : CleanServers ctx.target srvNum ps0)
    (plain : isFailure c0.name = false) :
    ∀ (arg : MinArg) (path : String) (loc : List Nat) (st : ArgsState), Working ctx srvNum ps0 c0 st →
      getArgs loc c0.args = some arg →
      Outcome ctx srvNum ps0 c0 (trialPaths arg path) st (doArg ctx arg path loc st)
  | .const _, _, _, _, working, _ | .result _ _ _, _, _, _, working, _ | .null _, _, _, _, working, _ =>
    .searched working (List.Subset.refl _)
  | .data _ _ _ _, _, _, _, working, here =>
    .attempt working (outcome_minimizeBuffer lawful client clean plain working here)
  | .pointer address res, path, loc, st, working, here => by
    have inside : loc ≠ [] := by
      rintro rfl
      cases here
    have below : getArgs (loc ++ [0]) c0.args = some res := by
      rw [getArgs_child inside, here]
      rfl
    apply Outcome.attempt working
    split
    · rename_i fresh
      exact outcome_drop lawful client clean plain working (erase_dropTarget _) here size_dropTarget List.mem_cons_self fresh
    · have inner := outcome_doArg lawful client clean plain res (path ++ "-") (loc ++ [0]) st working below
      exact inner.among (List.subset_cons_self _ _)
  | .struct fields inner, path, loc, st, working, here => by
    have inside : loc ≠ [] := by
      rintro rfl
      cases here
    apply Outcome.attempt working
    apply outcome_doFields lawful client clean plain inner fields path loc 0 st working
    intro k
    rw [getArgs_child inside, here, Nat.zero_add]
    rfl
  | .array kind rangeBegin inner, path, loc, st, working, here =>
    .attempt working (outcome_doElems lawful client clean plain inner _ path loc 0 st kind rangeBegin inner working here rfl)
  | .union field option, path, loc, st, working, here => by
    have inside : loc ≠ [] := by
      rintro rfl
      cases here
    apply Outcome.attempt working
    apply outcome_doArg lawful client clean plain option (path ++ "-" ++ field) (loc ++ [0]) st working
    rw [getArgs_child inside, here]
    rfl

theorem outcome_doFields (lawful : Lawful ctx.target) (client : srvNum ≤ ctx.j) (clean : CleanServers ctx.target srvNum ps0)
    (plain : isFailure c0.name = false) :
    ∀ (args : List MinArg) (fields : List String) (path : String) (loc : List Nat) (k : Nat) (st : ArgsState),
      Working ctx srvNum ps0 c0 st → (∀ m, getArgs (loc ++ [k + m]) c0.args = args[m]?) →
      Outcome ctx srvNum ps0 c0 (trialFields fields args path) st (doFields ctx args fields path loc k st)
  | [], _, _, _, _, _, working, _ => .searched working (List.Subset.refl _)
  | arg :: rest, fields, path, loc, k, st, working, found => by
    have first := outcome_doArg lawful client clean plain arg (path ++ "-" ++ fields.headD "") (loc ++ [k]) st working
      (found 0)
    rw [doFields]
    generalize doArg ctx arg (path ++ "-" ++ fields.headD "") (loc ++ [k]) st = result at first ⊢
    cases first with
    | searched working' grows =>
      have next := outcome_doFields lawful client clean plain rest fields.tail path loc (k + 1) _ working' fun m => by
        rw [Nat.add_assoc, Nat.add_comm 1 m]
        exact found (m + 1)
      exact (next.later grows).among (List.subset_append_right _ _)
    | rejected trial kept grows member fresh tried =>
      exact .rejected trial kept grows (List.mem_append_left _ member) fresh tried
    | committed tree good view smaller => exact .committed tree good view smaller

/-- The elements are those of the array `inner` from `k` on. -/
theorem outcome_doElems (lawful : Lawful ctx.target) (client : srvNum ≤ ctx.j) (clean : CleanServers ctx.target srvNum ps0)
    (plain : isFailure c0.name = false) :
    ∀ (elems : List MinArg) (removable : Bool) (path : String) (loc : List Nat) (k : Nat) (st : ArgsState)
      (kind : ArrayKind) (rangeBegin : Nat) (inner : List MinArg), Working ctx srvNum ps0 c0 st →
      getArgs loc c0.args = some (.array kind rangeBegin inner) → inner.drop k = elems →
      Outcome ctx srvNum ps0 c0 (trialElems elems k path) st (doElems ctx elems removable path loc k st)
  | [], _, _, _, _, _, _, _, _, working, _, _ => .searched working (List.Subset.refl _)
  | elem :: rest, removable, path, loc, k, st, kind, rangeBegin, inner, working, here, from_k => by
    have inside : loc ≠ [] := by
      rintro rfl
      cases here
    have within : k < inner.length := by
      by_contra outside
      rw [List.drop_eq_nil_of_le (by omega)] at from_k
      cases from_k
    rw [List.drop_eq_getElem_cons within] at from_k
    obtain ⟨at_k, behind⟩ := List.cons.inj from_k
    have last := outcome_doElems lawful client clean plain rest removable path loc (k + 1) st kind rangeBegin inner working
      here behind
    rw [doElems]
    generalize doElems ctx rest removable path loc (k + 1) st = result at last ⊢
    cases last with
    | searched working' grows =>
      refine Outcome.later grows ?_
      dsimp only
      split
      · rename_i free
        simp only [Bool.and_eq_true, decide_eq_true_eq] at free
        refine outcome_drop lawful client clean plain working' (erase_dropElem k) here ?_ List.mem_cons_self free.1.2
        apply size_dropElem
        rwa [retagList_eq_map, List.length_map]
      · have below : getArgs (loc ++ [k]) c0.args = some elem := by
          rw [getArgs_child inside, here]
          exact List.getElem?_eq_some_iff.mpr ⟨within, at_k⟩
        have only := outcome_doArg lawful client clean plain elem (path ++ "-" ++ toString k ++ "-") (loc ++ [k]) _ working' below
        exact only.among (List.subset_cons_of_subset _ (List.subset_append_left _ _))
    | rejected trial kept grows member fresh tried =>
      exact .rejected trial kept grows (List.mem_cons_of_mem _ (List.mem_append_right _ member)) fresh tried
    | committed tree good view smaller => exact .committed tree good view smaller

end

theorem outcome_pass (lawful : Lawful ctx.target) (client : srvNum ≤ ctx.j) (clean : CleanServers ctx.target srvNum ps0)
    (plain : isFailure c0.name = false) (here : ctx.call ps0 = some c0) (triedPaths : List String) :
    Outcome ctx srvNum ps0 c0 (trialFields c0.fields c0.args "") ⟨ps0, ps0, triedPaths⟩
      (doFields ctx c0.args c0.fields "" [] 0 ⟨ps0, ps0, triedPaths⟩) := by
  apply outcome_doFields lawful client clean plain
  · exact ⟨rfl, Same.refl ps0, c0, here, rfl, rfl⟩
  · intro m
    rw [List.nil_append, Nat.zero_add, getArgs]
    cases c0.args[m]? <;> rfl

end Search

def untried (c : MinCall) (triedPaths : List String) : List String :=
  (trialFields c.fields c.args "").filter fun path => path ∉ triedPaths

theorem untried_lt {c : MinCall} {triedPaths triedPaths' : List String} {path : String}
    (grows : triedPaths ⊆ triedPaths') (member : path ∈ trialFields c.fields c.args "") (fresh : path ∉ triedPaths)
    (tried : path ∈ triedPaths') : (untried c triedPaths').length < (untried c triedPaths).length := by
  have fewer : (untried c triedPaths').Sublist (untried c triedPaths) := by
    apply List.monotone_filter_right
    intro other
    simp only [decide_eq_true_eq]
    exact fun left old => left (grows old)
  apply lt_of_le_of_ne fewer.length_le
  intro same
  have before : path ∈ untried c triedPaths := List.mem_filter.mpr ⟨member, by simpa using fresh⟩
  rw [← fewer.eq_of_length same] at before
  have after := (List.mem_filter.mp before).2
  exact absurd tried (by simpa using after)

/-- A group that follows from `ps0` by accepted edits of arguments. -/
structure Reduced (job : Job) (callIndex0 : Int) (srvNum : Nat) (ps0 ps : MinGroup) : Prop where
  same : Same srvNum ps0 ps
  good : accepted job ps callIndex0

section Passes

variable {ctx : ArgsCtx}

section Unfold

variable {ps0 : MinGroup} {c0 : MinCall} {triedPaths : List String} {fuel : Nat} {st : ArgsState} (here : ctx.call ps0 = some c0)
include here

theorem minimizeArgs_again (found : doFields ctx c0.args c0.fields "" [] 0 ⟨ps0, ps0, triedPaths⟩ = (true, st)) :
    ctx.minimizeArgs (fuel + 1) ps0 triedPaths = ctx.minimizeArgs fuel st.ps0 st.triedPaths := by
  simp only [ArgsCtx.minimizeArgs, here, found]

theorem minimizeArgs_done (found : doFields ctx c0.args c0.fields "" [] 0 ⟨ps0, ps0, triedPaths⟩ = (false, st)) :
    ctx.minimizeArgs (fuel + 1) ps0 triedPaths = some st.ps0 := by
  simp only [ArgsCtx.minimizeArgs, here, found]

end Unfold

variable (lawful : Lawful ctx.target) {srvNum : Nat} (client : srvNum ≤ ctx.j)
include lawful client

theorem minimizeArgs_ends {ps0 : MinGroup} {c0 : MinCall} (triedPaths : List String) (here : ctx.call ps0 = some c0)
    (plain : isFailure c0.name = false) (clean : CleanServers ctx.target srvNum ps0)
    (good : accepted ctx.toJob ps0 ctx.callIndex0) :
    ∃ ps, Fuel.Ends (fun fuel => ctx.minimizeArgs fuel ps0 triedPaths) ps ∧ Reduced ctx.toJob ctx.callIndex0 srvNum ps0 ps := by
  -- a commit makes the call smaller, a rejected trial leaves fewer to try
  induction size : sizes c0.args using Nat.strong_induction_on generalizing ps0 c0 triedPaths with
  | _ n smaller =>
    induction left : (untried c0 triedPaths).length using Nat.strong_induction_on generalizing triedPaths with
    | _ m fewer =>
      have pass := outcome_pass lawful client clean plain here triedPaths
      generalize found : doFields ctx c0.args c0.fields "" [] 0 ⟨ps0, ps0, triedPaths⟩ = result at pass
      cases pass with
      | @searched st working grows =>
        refine ⟨st.ps0, Fuel.Ends.succ (fun _ => minimizeArgs_done here found) (Fuel.Ends.const st.ps0), ?_⟩
        rw [working.kept]
        exact ⟨Same.refl ps0, good⟩
      | @rejected st path kept grows member fresh tried =>
        obtain ⟨ps, ends, reduced⟩ := fewer _ (left ▸ untried_lt grows member fresh tried) st.triedPaths rfl
        rw [← kept] at ends
        exact ⟨ps, ends.succ fun _ => minimizeArgs_again here found, reduced⟩
      | @committed st tree good view less =>
        obtain ⟨c, next, named, shape⟩ := view.call
        have shorter : sizes c.args < n := by
          rwa [← sizes_eraseList, shape, ← size]
        obtain ⟨ps, ends, reduced⟩ := smaller _ shorter st.triedPaths next (named ▸ plain) (view.same.clean clean) good rfl
        exact ⟨ps, ends.succ fun _ => minimizeArgs_again here found, view.same.trans reduced.same, reduced.good⟩

end Passes

end DfsFuzz.Minimize
