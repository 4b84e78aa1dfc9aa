import DfsFuzz.Minimize.AnchorsKept
import DfsFuzz.Minimize.Kept

/-!
Where a pointer with something to minimize below it points to an anchor, a predicate that asks for no more than
that the call gets smaller there loses the anchor.
-/

namespace DfsFuzz.Minimize

open DfsFuzz.Mutation (isFailure)

/-! ### The marks of a search -/

mutual

/-- The paths that a search below an argument with this path can mark. -/
def marks : MinArg → String → List String
  | .pointer _ res, path => path :: (path ++ ">") :: marks res (path ++ "-")
  | .struct fields inner, path => path :: marksFields fields inner path
  | .array _ _ inner, path => path :: marksElems inner 0 path
  | .union field option, path => path :: marks option (path ++ "-" ++ field)
  | .data _ _ _ _, path => [path]
  | .const _, _ | .result _ _ _, _ | .null _, _ => []

def marksFields : List String → List MinArg → String → List String
  | _, [], _ => []
  | fields, arg :: rest, path => marks arg (path ++ "-" ++ fields.headD "") ++ marksFields fields.tail rest path

def marksElems : List MinArg → Nat → String → List String
  | [], _, _ => []
  | elem :: rest, i, path =>
    (path ++ "-" ++ toString i) :: (marks elem (path ++ "-" ++ toString i ++ "-") ++ marksElems rest (i + 1) path)

end

def MarksOnly (paths : List String) (st : ArgsState) (result : Bool × ArgsState) : Prop :=
  ∀ path ∈ result.2.triedPaths, path ∈ st.triedPaths ∨ path ∈ paths

variable {path : String}

namespace MarksOnly

variable {paths paths' : List String} {st st' : ArgsState} {result : Bool × ArgsState}

theorem none (found : Bool) : MarksOnly paths st (found, st) := fun _ tried => .inl tried

theorem one (member : path ∈ paths) (ps0 ps : MinGroup) (found : Bool) :
    MarksOnly paths st (found, ⟨ps0, ps, path :: st.triedPaths⟩) := by
  intro other tried
  rcases List.mem_cons.mp tried with rfl | old
  · exact .inr member
  · exact .inl old

theorem among (only : MarksOnly paths st result) (more : paths ⊆ paths') : MarksOnly paths' st result :=
  fun path tried => (only path tried).imp_right (more ·)

theorem later (before : ∀ path ∈ st'.triedPaths, path ∈ st.triedPaths ∨ path ∈ paths) (only : MarksOnly paths st' result) :
    MarksOnly paths st result :=
  fun path tried => (only path tried).elim (before path) .inr

theorem attempt {arg : MinArg} {minimize : ArgsState → Bool × ArgsState} (own : path ∈ paths)
    (only : MarksOnly paths st (minimize st)) : MarksOnly paths st (attempt arg path minimize st) := by
  unfold Minimize.attempt
  split
  · exact none false
  · generalize minimize st = result at only
    obtain ⟨found, st'⟩ := result
    cases found with
    | true => exact only
    | false =>
      intro other tried
      rcases List.mem_cons.mp tried with rfl | old
      · exact .inr own
      · exact only other old

theorem drop (ctx : ArgsCtx) (gone : List ResultId) (f : MinArg → MinArg) (loc : List Nat) (member : path ∈ paths) :
    MarksOnly paths st (ctx.drop gone f loc path st) := by
  unfold ArgsCtx.drop
  dsimp only
  split
  · exact one member _ _ true
  · exact one member _ _ true

theorem minimizeBuffer (ctx : ArgsCtx) (kind : BufferKind) (rangeBegin : Nat) (isOut : Bool) (bytes : List UInt8)
    (loc : List Nat) (member : path ∈ paths) :
    MarksOnly paths st (ctx.minimizeBuffer kind rangeBegin isOut bytes path loc st) := by
  unfold ArgsCtx.minimizeBuffer
  split
  · exact none false
  · dsimp only
    split
    · exact one member _ _ true
    · exact fun _ tried => .inl tried

end MarksOnly

mutual

theorem doArg_marks (ctx : ArgsCtx) : ∀ (arg : MinArg) (path : String) (loc : List Nat) (st : ArgsState),
    MarksOnly (marks arg path) st (doArg ctx arg path loc st)
  | .const _, _, _, _ | .result _ _ _, _, _, _ | .null _, _, _, _ => MarksOnly.none false
  | .data kind rangeBegin isOut bytes, _, loc, _ =>
    .attempt List.mem_cons_self (.minimizeBuffer ctx kind rangeBegin isOut bytes loc List.mem_cons_self)
  | .pointer _ res, path, loc, st => by
    apply MarksOnly.attempt List.mem_cons_self
    split
    · exact MarksOnly.drop ctx _ _ _ (List.mem_cons_of_mem _ List.mem_cons_self)
    · apply (doArg_marks ctx res (path ++ "-") (loc ++ [0]) st).among
      exact List.subset_cons_of_subset _ (List.subset_cons_self _ _)
  | .struct fields inner, path, loc, st =>
    .attempt List.mem_cons_self ((doFields_marks ctx inner fields path loc 0 st).among (List.subset_cons_self _ _))
  | .array _ _ inner, path, loc, st =>
    .attempt List.mem_cons_self ((doElems_marks ctx inner _ path loc 0 st).among (List.subset_cons_self _ _))
  | .union field option, path, loc, st =>
    .attempt List.mem_cons_self
      ((doArg_marks ctx option (path ++ "-" ++ field) (loc ++ [0]) st).among (List.subset_cons_self _ _))

theorem doFields_marks (ctx : ArgsCtx) : ∀ (args : List MinArg) (fields : List String) (path : String) (loc : List Nat)
    (k : Nat) (st : ArgsState), MarksOnly (marksFields fields args path) st (doFields ctx args fields path loc k st)
  | [], _, _, _, _, _ => MarksOnly.none false
  | arg :: rest, fields, path, loc, k, st => by
    have first := (doArg_marks ctx arg (path ++ "-" ++ fields.headD "") (loc ++ [k]) st).among
      (List.subset_append_left _ (marksFields fields.tail rest path))
    rw [doFields]
    generalize doArg ctx arg (path ++ "-" ++ fields.headD "") (loc ++ [k]) st = result at first ⊢
    obtain ⟨found, st'⟩ := result
    cases found with
    | true => exact first
    | false =>
      exact .later first ((doFields_marks ctx rest fields.tail path loc (k + 1) st').among (List.subset_append_right _ _))

theorem doElems_marks (ctx : ArgsCtx) : ∀ (elems : List MinArg) (removable : Bool) (path : String) (loc : List Nat) (k : Nat)
    (st : ArgsState), MarksOnly (marksElems elems k path) st (doElems ctx elems removable path loc k st)
  | [], _, _, _, _, _ => MarksOnly.none false
  | elem :: rest, removable, path, loc, k, st => by
    have last := (doElems_marks ctx rest removable path loc (k + 1) st).among
      (List.subset_cons_of_subset (path ++ "-" ++ toString k)
        (List.subset_append_right (marks elem (path ++ "-" ++ toString k ++ "-")) _))
    rw [doElems]
    generalize doElems ctx rest removable path loc (k + 1) st = result at last ⊢
    obtain ⟨found, st'⟩ := result
    cases found with
    | true => exact last
    | false =>
      apply MarksOnly.later last
      dsimp only
      split
      · exact MarksOnly.drop ctx _ _ _ List.mem_cons_self
      · apply (doArg_marks ctx elem (path ++ "-" ++ toString k ++ "-") (loc ++ [k]) st').among
        exact List.subset_cons_of_subset _ (List.subset_append_left _ _)

end

/-! ### Threatened anchors -/

mutual

/-- At the place `loc` below the argument stands a pointer with something to minimize and an anchor below it, and
these marks keep a search from it. -/
inductive Threat (isLen : LenFields) : List String → MinArg → String → List Nat → List String → Prop
  | here {names path address res} : argMinimizable res = true → ¬ Loose isLen (names ++ [">"]) res →
      Threat isLen names (.pointer address res) path [] [path, path ++ ">"]
  | pointer {names path address res loc seen} : Threat isLen (names ++ [">"]) res (path ++ "-") loc seen →
      Threat isLen names (.pointer address res) path (0 :: loc) (path :: seen)
  | struct {names path fields inner k loc seen} : ThreatFields isLen names fields inner path k loc seen →
      Threat isLen names (.struct fields inner) path (k :: loc) (path :: seen)
  | array {names path kind rangeBegin inner k loc seen} : ThreatElems isLen names inner 0 path k loc seen →
      Threat isLen names (.array kind rangeBegin inner) path (k :: loc) (path :: seen)
  | union {names path field option loc seen} : Threat isLen (names ++ [field]) option (path ++ "-" ++ field) loc seen →
      Threat isLen names (.union field option) path (0 :: loc) (path :: seen)

inductive ThreatFields (isLen : LenFields) : List String → List String → List MinArg → String → Nat → List Nat →
    List String → Prop
  | first {names fields path arg rest loc seen} :
      Threat isLen (names ++ [fields.headD ""]) arg (path ++ "-" ++ fields.headD "") loc seen →
      ThreatFields isLen names fields (arg :: rest) path 0 loc seen
  | later {names fields path arg rest k loc seen} : ThreatFields isLen names fields.tail rest path k loc seen →
      ThreatFields isLen names fields (arg :: rest) path (k + 1) loc seen

/-- The elements have numbers from `i` on. -/
inductive ThreatElems (isLen : LenFields) : List String → List MinArg → Nat → String → Nat → List Nat → List String → Prop
  | first {names path elem rest i loc seen} :
      Threat isLen (names ++ ["[]"]) elem (path ++ "-" ++ toString i ++ "-") loc seen →
      ThreatElems isLen names (elem :: rest) i path 0 loc seen
  | later {names path elem rest i k loc seen} : ThreatElems isLen names rest (i + 1) path k loc seen →
      ThreatElems isLen names (elem :: rest) i path (k + 1) loc seen

end

section Threats

variable {isLen : LenFields}

mutual

theorem threat_of_not_separated : ∀ (names : List String) (arg : MinArg) (path : String), ¬ Separated isLen names arg →
    ∃ loc seen, Threat isLen names arg path loc seen
  | _, .const _, _, bad | _, .result _ _ _, _, bad | _, .data _ _ _ _, _, bad | _, .null _, _, bad => absurd trivial bad
  | names, .pointer address res, path, bad => by
    by_cases inside : Separated isLen (names ++ [">"]) res
    · rw [Separated] at bad
      by_cases some_ : argMinimizable res = true
      · exact ⟨_, _, .here some_ fun loose => bad ⟨fun _ => loose, inside⟩⟩
      · exact absurd ⟨fun yes => absurd yes some_, inside⟩ bad
    · obtain ⟨loc, seen, threat⟩ := threat_of_not_separated (names ++ [">"]) res (path ++ "-") inside
      exact ⟨_, _, .pointer threat⟩
  | names, .struct fields inner, path, bad => by
    obtain ⟨k, loc, seen, threat⟩ := threat_of_not_separatedFields names fields inner path bad
    exact ⟨_, _, .struct threat⟩
  | names, .array kind rangeBegin inner, path, bad => by
    obtain ⟨k, loc, seen, threat⟩ := threat_of_not_separatedElems names inner 0 path bad
    exact ⟨_, _, .array threat⟩
  | names, .union field option, path, bad => by
    obtain ⟨loc, seen, threat⟩ := threat_of_not_separated (names ++ [field]) option (path ++ "-" ++ field) bad
    exact ⟨_, _, .union threat⟩

theorem threat_of_not_separatedFields : ∀ (names fields : List String) (args : List MinArg) (path : String),
    ¬ SeparatedFields isLen names fields args → ∃ k loc seen, ThreatFields isLen names fields args path k loc seen
  | _, _, [], _, bad => absurd trivial bad
  | names, fields, arg :: rest, path, bad => by
    by_cases first : Separated isLen (names ++ [fields.headD ""]) arg
    · obtain ⟨k, loc, seen, threat⟩ := threat_of_not_separatedFields names fields.tail rest path fun later => bad ⟨first, later⟩
      exact ⟨_, _, _, .later threat⟩
    · obtain ⟨loc, seen, threat⟩ := threat_of_not_separated _ arg (path ++ "-" ++ fields.headD "") first
      exact ⟨_, _, _, .first threat⟩

theorem threat_of_not_separatedElems : ∀ (names : List String) (elems : List MinArg) (i : Nat) (path : String),
    ¬ SeparatedElems isLen names elems → ∃ k loc seen, ThreatElems isLen names elems i path k loc seen
  | _, [], _, _, bad => absurd trivial bad
  | names, elem :: rest, i, path, bad => by
    by_cases first : Separated isLen (names ++ ["[]"]) elem
    · obtain ⟨k, loc, seen, threat⟩ := threat_of_not_separatedElems names rest (i + 1) path fun later => bad ⟨first, later⟩
      exact ⟨_, _, _, .later threat⟩
    · obtain ⟨loc, seen, threat⟩ := threat_of_not_separated _ elem (path ++ "-" ++ toString i ++ "-") first
      exact ⟨_, _, _, .first threat⟩

end

mutual

theorem Threat.seen : ∀ {names : List String} {arg : MinArg} {path : String} {loc : List Nat} {seen : List String},
    Threat isLen names arg path loc seen → argMinimizable arg = true ∧ path ∈ seen ∧ seen ⊆ marks arg path
  | _, .pointer _ _, _, _, _, .here some_ _ =>
    ⟨some_, List.mem_cons_self, List.cons_subset_cons _ (List.cons_subset_cons _ (List.nil_subset _))⟩
  | _, .pointer _ _, _, _, _, .pointer threat =>
    have below := threat.seen
    ⟨below.1, List.mem_cons_self, List.cons_subset_cons _ (List.subset_cons_of_subset _ below.2.2)⟩
  | _, .struct _ _, _, _, _, .struct threat =>
    have below := threat.seen
    ⟨below.1, List.mem_cons_self, List.cons_subset_cons _ below.2⟩
  | _, .array _ _ _, _, _, _, .array threat => ⟨rfl, List.mem_cons_self, List.cons_subset_cons _ threat.seen⟩
  | _, .union _ _, _, _, _, .union threat =>
    have below := threat.seen
    ⟨below.1, List.mem_cons_self, List.cons_subset_cons _ below.2.2⟩

theorem ThreatFields.seen : ∀ {names fields : List String} {args : List MinArg} {path : String} {k : Nat} {loc : List Nat}
    {seen : List String}, ThreatFields isLen names fields args path k loc seen →
      anyMinimizable args = true ∧ seen ⊆ marksFields fields args path
  | _, _, _ :: _, _, _, _, _, .first threat =>
    have here := threat.seen
    ⟨Bool.or_eq_true_iff.mpr (.inl here.1), List.subset_append_of_subset_left _ here.2.2⟩
  | _, _, _ :: _, _, _, _, _, .later threat =>
    have behind := threat.seen
    ⟨Bool.or_eq_true_iff.mpr (.inr behind.1), List.subset_append_of_subset_right _ behind.2⟩

theorem ThreatElems.seen : ∀ {names : List String} {elems : List MinArg} {i : Nat} {path : String} {k : Nat} {loc : List Nat}
    {seen : List String}, ThreatElems isLen names elems i path k loc seen → seen ⊆ marksElems elems i path
  | _, _ :: _, _, _, _, _, _, .first threat =>
    List.subset_cons_of_subset _ (List.subset_append_of_subset_left _ threat.seen.2.2)
  | _, _ :: _, _, _, _, _, _, .later threat => List.subset_cons_of_subset _ (List.subset_append_of_subset_right _ threat.seen)

end

theorem ShrunkElems.length_le {drops : Bool} {names : List String} {elems elems' : List MinArg}
    (shrunk : ShrunkElems isLen drops names elems elems') : elems'.length ≤ elems.length := by
  induction elems generalizing elems' with
  | nil =>
    rw [ShrunkElems] at shrunk
    rw [shrunk]
  | cons elem rest ih =>
    rcases shrunk with ⟨elem', rest', same, -, others⟩ | ⟨-, others⟩
    · rw [same]
      exact Nat.succ_le_succ (ih others)
    · exact Nat.le_succ_of_le (ih others)

theorem length_eraseList (args : List MinArg) : (eraseList args).length = args.length := by
  rw [eraseList_eq_map, List.length_map]

mutual

theorem Threat.lost (special : UInt64) : ∀ {names : List String} {arg arg' : MinArg} {path : String} {loc : List Nat}
    {seen : List String}, Threat isLen names arg path loc seen → Shrunk isLen true names arg arg' →
      erase arg' ≠ modArg (dropTarget special) loc (erase arg)
  | _, .pointer _ _, _, _, _, _, .here _ anchors, shrunk => by
    intro tree
    rcases shrunk with ⟨res', same, -⟩ | ⟨-, loose, -⟩
    · rw [same] at tree
      cases tree
    · exact anchors loose
  | _, .pointer _ _, _, _, _, _, .pointer threat, shrunk => by
    intro tree
    rcases shrunk with ⟨res', same, below⟩ | ⟨-, -, other, same⟩
    · rw [same] at tree
      exact threat.lost special below (MinArg.pointer.inj tree).2
    · rw [same] at tree
      cases tree
  | _, .struct _ _, _, _, _, _, .struct threat, ⟨inner', same, below⟩ => by
    intro tree
    rw [same] at tree
    exact threat.lost special below (MinArg.struct.inj tree).2
  | _, .array _ _ _, _, _, _, _, .array threat, ⟨inner', same, below⟩ => by
    intro tree
    rw [same] at tree
    exact threat.lost special below (MinArg.array.inj tree).2.2
  | _, .union _ _, _, _, _, _, .union threat, ⟨option', same, below⟩ => by
    intro tree
    rw [same] at tree
    exact threat.lost special below (MinArg.union.inj tree).2

theorem ThreatFields.lost (special : UInt64) : ∀ {names fields : List String} {args args' : List MinArg} {path : String}
    {k : Nat} {loc : List Nat} {seen : List String}, ThreatFields isLen names fields args path k loc seen →
      ShrunkFields isLen true names fields args args' →
      eraseList args' ≠ (eraseList args).modify k (modArg (dropTarget special) loc)
  | _, _, _ :: _, _, _, _, _, _, .first threat, ⟨arg', rest', same, first, _⟩ => by
    intro tree
    rw [same] at tree
    exact threat.lost special first (List.cons.inj tree).1
  | _, _, _ :: _, _, _, _, _, _, .later threat, ⟨arg', rest', same, _, others⟩ => by
    intro tree
    rw [same] at tree
    exact threat.lost special others (List.cons.inj tree).2

theorem ThreatElems.lost (special : UInt64) : ∀ {names : List String} {elems elems' : List MinArg} {i : Nat} {path : String}
    {k : Nat} {loc : List Nat} {seen : List String}, ThreatElems isLen names elems i path k loc seen →
      ShrunkElems isLen true names elems elems' →
      eraseList elems' ≠ (eraseList elems).modify k (modArg (dropTarget special) loc)
  | _, elem :: rest, elems', _, _, k, loc, _, threat, shrunk => by
    intro tree
    rcases shrunk with ⟨elem', rest', same, first, others⟩ | ⟨-, others⟩
    · rw [same] at tree
      cases threat with
      | first threat => exact threat.lost special first (List.cons.inj tree).1
      | later threat => exact threat.lost special others (List.cons.inj tree).2
    · -- an element is gone, so the array is shorter
      have shorter := others.length_le
      have equal := congrArg List.length tree
      rw [List.length_modify, length_eraseList, length_eraseList, List.length_cons] at equal
      omega

end

end Threats

/-! ### The hunt for an anchor -/

/-- Something was committed since `ps0`. -/
def Smaller (ctx : ArgsCtx) (srvNum : Nat) (ps0 : MinGroup) (c0 : MinCall) (ps : MinGroup) : Prop :=
  accepted ctx.toJob ps ctx.callIndex0 ∧ ∃ tree, View ctx srvNum ps0 c0.name tree ps ∧ sizes tree < sizes c0.args

def Fresh (seen : List String) (st : ArgsState) : Prop := ∀ path ∈ seen, path ∉ st.triedPaths

/-- A commit, or one more pass that is free to come by. -/
def Hunted (ctx : ArgsCtx) (srvNum : Nat) (ps0 : MinGroup) (c0 : MinCall) (seen : List String) : Bool × ArgsState → Prop
  | (true, st) => Smaller ctx srvNum ps0 c0 st.ps0 ∨ (st.ps0 = ps0 ∧ Fresh seen st)
  | (false, _) => False

/-- The drop of the pointer at `bad` is always good. -/
def Wins (ctx : ArgsCtx) (srvNum : Nat) (ps0 : MinGroup) (c0 : MinCall) (bad : List Nat) : Prop :=
  ∀ ps, View ctx srvNum ps0 c0.name (modArgs (dropTarget ctx.target.special) bad (eraseList c0.args)) ps →
    (ctx.pred ps ctx.callIndex0).2 = true

section Hunt

variable {ctx : ArgsCtx} {srvNum : Nat} {ps0 : MinGroup} {c0 : MinCall} {seen paths : List String} {st : ArgsState}
  {result : Bool × ArgsState}

theorem Fresh.tail (fresh : Fresh (path :: seen) st) : Fresh seen st :=
  fun other member => fresh other (List.mem_cons_of_mem _ member)

theorem MarksOnly.fresh (only : MarksOnly paths st result) (apart : ∀ path ∈ seen, path ∉ paths) (fresh : Fresh seen st) :
    Fresh seen result.2 :=
  fun path member tried => (only path tried).elim (fresh path member) (apart path member)

theorem Hunted.cons (hunted : Hunted ctx srvNum ps0 c0 seen result) (only : MarksOnly paths st result)
    (apart : path ∉ paths) (fresh : path ∉ st.triedPaths) : Hunted ctx srvNum ps0 c0 (path :: seen) result := by
  obtain ⟨found, st'⟩ := result
  cases found with
  | false => exact hunted
  | true =>
    refine hunted.imp_right fun ⟨kept, later⟩ => ⟨kept, ?_⟩
    intro other member tried
    rcases List.mem_cons.mp member with rfl | behind
    · exact (only other tried).elim fresh apart
    · exact later other behind tried

theorem Hunted.attempt {arg : MinArg} {minimize : ArgsState → Bool × ArgsState} (some_ : argMinimizable arg = true)
    (fresh : path ∉ st.triedPaths) (hunted : Hunted ctx srvNum ps0 c0 seen (minimize st)) :
    Hunted ctx srvNum ps0 c0 seen (attempt arg path minimize st) := by
  unfold Minimize.attempt
  rw [if_neg (by simp [some_, fresh])]
  generalize minimize st = result at hunted
  obtain ⟨found, st'⟩ := result
  cases found with
  | true => exact hunted
  | false => exact hunted.elim

theorem Outcome.hunted {trials : List String} (outcome : Outcome ctx srvNum ps0 c0 trials st result)
    (only : MarksOnly paths st result) (apart : ∀ path ∈ seen, path ∉ paths) (fresh : Fresh seen st) :
    (∃ st', result = (false, st') ∧ Working ctx srvNum ps0 c0 st' ∧ Fresh seen st') ∨
      result.1 = true ∧ Hunted ctx srvNum ps0 c0 seen result := by
  have later := only.fresh apart fresh
  cases outcome with
  | searched working _ => exact .inl ⟨_, rfl, working, later⟩
  | rejected _ kept _ _ _ _ => exact .inr ⟨rfl, .inr ⟨kept, later⟩⟩
  | committed tree good view smaller => exact .inr ⟨rfl, .inl ⟨good, tree, view, smaller⟩⟩

variable (lawful : Lawful ctx.target) (client : srvNum ≤ ctx.j) (clean : CleanServers ctx.target srvNum ps0)
  (plain : isFailure c0.name = false) {isLen : LenFields} {bad : List Nat}
include lawful client clean plain

theorem hunted_drop (wins : Wins ctx srvNum ps0 c0 bad) {address : UInt64} {res : MinArg} (path : String)
    (working : Working ctx srvNum ps0 c0 st) (here : getArgs bad c0.args = some (.pointer address res)) :
    Hunted ctx srvNum ps0 c0 seen (ctx.drop (resultsOf res) (dropTarget ctx.target.special) bad path st) := by
  have edited := (working.view.detach client (resultsOf res)).edit lawful client plain
    (erase_dropTarget ctx.target.special) bad
  have good := wins _ edited
  have dropped := edited.pred lawful clean ctx.callIndex0
  have kept : accepted ctx.toJob (ctx.pred _ ctx.callIndex0).1 ctx.callIndex0 := (accepted_pred lawful).mpr good
  unfold ArgsCtx.drop
  dsimp only
  generalize ctx.pred (ctx.edit (dropTarget ctx.target.special) bad
    (st.ps.modify ctx.j fun p => p.map (detachCall ctx.target.dflt (resultsOf res)))) ctx.callIndex0 = result
    at good dropped kept ⊢
  obtain ⟨ps, verdict⟩ := result
  obtain rfl : verdict = true := good
  refine .inl ⟨kept, _, dropped, ?_⟩
  rw [← sizes_eraseList c0.args]
  exact sizes_modArgs_lt ((getArgs_erase bad c0.args).trans (congrArg _ here)) size_dropTarget

theorem hunted_other {gone : List ResultId} {f : MinArg → MinArg} {loc : List Nat} {arg : MinArg}
    (working : Working ctx srvNum ps0 c0 st) (commutes : ∀ arg, erase (f arg) = f (erase arg))
    (found : getArgs loc c0.args = some arg) (smaller : size (f (erase arg)) < size (erase arg))
    (untried : path ∉ st.triedPaths) (apart : path ∉ seen) (fresh : Fresh seen st) :
    Hunted ctx srvNum ps0 c0 seen (ctx.drop gone f loc path st) := by
  have outcome : Outcome ctx srvNum ps0 c0 [path] st (ctx.drop gone f loc path st) :=
    outcome_drop lawful client clean plain working commutes found smaller List.mem_cons_self untried
  have only : MarksOnly [path] st (ctx.drop gone f loc path st) := MarksOnly.drop ctx gone f loc List.mem_cons_self
  have again : (ctx.drop gone f loc path st).1 = true := by
    unfold ArgsCtx.drop
    dsimp only
    split <;> rfl
  rcases outcome.hunted only (fun other member same => apart (List.mem_singleton.mp same ▸ member)) fresh with
    ⟨st', stopped, -, -⟩ | ⟨-, hunted⟩
  · rw [stopped] at again
    cases again
  · exact hunted

mutual

theorem Threat.hunted (wins : Wins ctx srvNum ps0 c0 bad) : ∀ (arg : MinArg) {names : List String} (path : String)
    (loc : List Nat) {rest : List Nat} {seen : List String} (st : ArgsState),
      Threat isLen names arg path rest seen → loc ++ rest = bad →
      (marks arg path).Nodup → Fresh seen st → Working ctx srvNum ps0 c0 st → getArgs loc c0.args = some arg →
      Hunted ctx srvNum ps0 c0 seen (doArg ctx arg path loc st)
  | .pointer address res, _, path, loc, _, _, st, threat, at_bad, distinct, fresh, working, found => by
    have inside : loc ≠ [] := by
      rintro rfl
      cases found
    have below : getArgs (loc ++ [0]) c0.args = some res := by
      rw [getArgs_child inside, found]
      rfl
    obtain ⟨some_, own, -⟩ := threat.seen
    refine Hunted.attempt some_ (fresh path own) ?_
    rw [marks, List.nodup_cons, List.nodup_cons] at distinct
    obtain ⟨first, second, inner⟩ := distinct
    cases threat with
    | here =>
      rw [List.append_nil] at at_bad
      subst at_bad
      rw [if_pos (fresh _ (List.mem_cons_of_mem _ List.mem_cons_self))]
      exact hunted_drop lawful client clean plain wins _ working found
    | pointer threat =>
      split
      · rename_i untried
        refine hunted_other lawful client clean plain working (erase_dropTarget _) found size_dropTarget untried ?_ fresh
        intro member
        rcases List.mem_cons.mp member with same | behind
        · exact first (List.mem_cons.mpr (.inl same.symm))
        · exact second (threat.seen.2.2 behind)
      · refine Hunted.cons ?_ (doArg_marks ctx res (path ++ "-") (loc ++ [0]) st) ?_ (fresh path own)
        · refine Threat.hunted wins res (path ++ "-") (loc ++ [0]) st threat ?_ inner fresh.tail working below
          rw [List.append_assoc]
          exact at_bad
        · exact fun again => first (List.mem_cons_of_mem _ again)
  | .struct fields inner, _, path, loc, _, _, st, .struct threat, at_bad, distinct, fresh, working, found => by
    have inside : loc ≠ [] := by
      rintro rfl
      cases found
    have own := fresh path List.mem_cons_self
    refine Hunted.attempt threat.seen.1 own ?_
    rw [marks, List.nodup_cons] at distinct
    refine Hunted.cons ?_ (doFields_marks ctx inner fields path loc 0 st) distinct.1 own
    refine ThreatFields.hunted wins inner fields path loc 0 st threat ?_ distinct.2 fresh.tail working fun m => ?_
    · rwa [Nat.zero_add]
    · rw [getArgs_child inside, found, Nat.zero_add]
      rfl
  | .array kind rangeBegin inner, _, path, loc, _, _, st, .array threat, at_bad, distinct, fresh, working, found => by
    have own := fresh path List.mem_cons_self
    refine Hunted.attempt rfl own ?_
    rw [marks, List.nodup_cons] at distinct
    refine Hunted.cons ?_ (doElems_marks ctx inner _ path loc 0 st) distinct.1 own
    refine ThreatElems.hunted wins inner _ path loc 0 st kind rangeBegin inner threat ?_ distinct.2 fresh.tail working found rfl
    rwa [Nat.zero_add]
  | .union field option, _, path, loc, _, _, st, .union threat, at_bad, distinct, fresh, working, found => by
    have inside : loc ≠ [] := by
      rintro rfl
      cases found
    have own := fresh path List.mem_cons_self
    refine Hunted.attempt threat.seen.1 own ?_
    rw [marks, List.nodup_cons] at distinct
    refine Hunted.cons ?_ (doArg_marks ctx option (path ++ "-" ++ field) (loc ++ [0]) st) distinct.1 own
    refine Threat.hunted wins option (path ++ "-" ++ field) (loc ++ [0]) st threat ?_ distinct.2 fresh.tail working ?_
    · rw [List.append_assoc]
      exact at_bad
    · rw [getArgs_child inside, found]
      rfl

theorem ThreatFields.hunted (wins : Wins ctx srvNum ps0 c0 bad) : ∀ (args : List MinArg) {names : List String}
    (fields : List String) (path : String) (loc : List Nat) (k : Nat) {m : Nat} {rest : List Nat} {seen : List String}
    (st : ArgsState),
      ThreatFields isLen names fields args path m rest seen → loc ++ (k + m) :: rest = bad →
      (marksFields fields args path).Nodup → Fresh seen st → Working ctx srvNum ps0 c0 st →
      (∀ m, getArgs (loc ++ [k + m]) c0.args = args[m]?) →
      Hunted ctx srvNum ps0 c0 seen (doFields ctx args fields path loc k st)
  | arg :: others, _, fields, path, loc, k, _, _, seen, st, threat, at_bad, distinct, fresh, working, found => by
    rw [marksFields, List.nodup_append] at distinct
    obtain ⟨own, behind, apart⟩ := distinct
    rw [doFields]
    cases threat with
    | first threat =>
      have hunted := Threat.hunted wins arg (path ++ "-" ++ fields.headD "") (loc ++ [k]) st threat (by simpa using at_bad) own
        fresh working (found 0)
      generalize doArg ctx arg (path ++ "-" ++ fields.headD "") (loc ++ [k]) st = result at hunted ⊢
      obtain ⟨stop, st'⟩ := result
      cases stop with
      | true => exact hunted
      | false => exact hunted.elim
    | later threat =>
      have outcome := outcome_doArg lawful client clean plain arg (path ++ "-" ++ fields.headD "") (loc ++ [k]) st working
        (found 0)
      rcases outcome.hunted (doArg_marks ctx arg _ (loc ++ [k]) st)
          (fun mark member here => apart mark here mark (threat.seen.2 member) rfl) fresh with
        ⟨st', stopped, working', fresh'⟩ | ⟨stop, hunted⟩
      · rw [stopped]
        refine ThreatFields.hunted wins others fields.tail path loc (k + 1) st' threat ?_ behind fresh' working' fun m => ?_
        · rwa [Nat.add_right_comm]
        · rw [Nat.add_assoc, Nat.add_comm 1 m]
          exact found (m + 1)
      · generalize doArg ctx arg (path ++ "-" ++ fields.headD "") (loc ++ [k]) st = result at stop hunted ⊢
        obtain ⟨stop', st'⟩ := result
        obtain rfl : stop' = true := stop
        exact hunted

theorem ThreatElems.hunted (wins : Wins ctx srvNum ps0 c0 bad) : ∀ (elems : List MinArg) {names : List String}
    (removable : Bool) (path : String) (loc : List Nat) (k : Nat) {m : Nat} {rest : List Nat} {seen : List String}
    (st : ArgsState) (kind : ArrayKind) (rangeBegin : Nat) (inner : List MinArg), ThreatElems isLen names elems k path m rest seen →
      loc ++ (k + m) :: rest = bad → (marksElems elems k path).Nodup → Fresh seen st → Working ctx srvNum ps0 c0 st →
      getArgs loc c0.args = some (.array kind rangeBegin inner) → inner.drop k = elems →
      Hunted ctx srvNum ps0 c0 seen (doElems ctx elems removable path loc k st)
  | elem :: others, _, removable, path, loc, k, _, _, seen, st, kind, rangeBegin, inner, threat, at_bad, distinct, fresh,
      working, found, from_k => by
    have inside : loc ≠ [] := by
      rintro rfl
      cases found
    have within : k < inner.length := by
      by_contra outside
      rw [List.drop_eq_nil_of_le (by omega)] at from_k
      cases from_k
    rw [List.drop_eq_getElem_cons within] at from_k
    obtain ⟨at_k, behind_k⟩ := List.cons.inj from_k
    rw [marksElems, List.nodup_cons, List.nodup_append] at distinct
    obtain ⟨trial, own, behind, apart⟩ := distinct
    rw [doElems]
    cases threat with
    | first threat =>
      have outcome := outcome_doElems lawful client clean plain others removable path loc (k + 1) st kind rangeBegin inner
        working found behind_k
      rcases outcome.hunted (doElems_marks ctx others removable path loc (k + 1) st)
          (fun mark member here => apart mark (threat.seen.2.2 member) mark here rfl) fresh with
        ⟨st', stopped, working', fresh'⟩ | ⟨stop, hunted⟩
      · rw [stopped]
        dsimp only
        split
        · rename_i free
          simp only [Bool.and_eq_true, decide_eq_true_eq] at free
          refine hunted_other lawful client clean plain working' (erase_dropElem k) found ?_ free.1.2 ?_ fresh'
          · apply size_dropElem
            rwa [retagList_eq_map, List.length_map]
          · exact fun member => trial (List.mem_append_left _ (threat.seen.2.2 member))
        · have below : getArgs (loc ++ [k]) c0.args = some elem := by
            rw [getArgs_child inside, found]
            exact List.getElem?_eq_some_iff.mpr ⟨within, at_k⟩
          exact Threat.hunted wins elem (path ++ "-" ++ toString k ++ "-") (loc ++ [k]) st' threat (by simpa using at_bad) own
            fresh' working' below
      · generalize doElems ctx others removable path loc (k + 1) st = result at stop hunted ⊢
        obtain ⟨stop', st'⟩ := result
        obtain rfl : stop' = true := stop
        exact hunted
    | later threat =>
      have hunted := ThreatElems.hunted wins others removable path loc (k + 1) st kind rangeBegin inner threat
        (by rwa [Nat.add_right_comm]) behind fresh working found behind_k
      generalize doElems ctx others removable path loc (k + 1) st = result at hunted ⊢
      obtain ⟨stop, st'⟩ := result
      cases stop with
      | true => exact hunted
      | false => exact hunted.elim

end

/-! ### All passes -/

omit clean plain in
theorem Smaller.minimizeArgs (clean : CleanServers ctx.target srvNum ps0) (plain : isFailure c0.name = false) {fuel : Nat}
    {ps1 ps : MinGroup} {triedPaths : List String} (smaller : Smaller ctx srvNum ps0 c0 ps1)
    (returned : ctx.minimizeArgs fuel ps1 triedPaths = some ps) : Smaller ctx srvNum ps0 c0 ps := by
  induction fuel generalizing ps1 triedPaths with
  | zero => cases returned
  | succ fuel ih =>
    obtain ⟨good, tree, view, less⟩ := smaller
    obtain ⟨c, here, named, shape⟩ := view.call
    have pass := outcome_pass lawful client (view.same.clean clean) (named ▸ plain) here triedPaths
    generalize found : doFields ctx c.args c.fields "" [] 0 ⟨ps1, ps1, triedPaths⟩ = result at pass
    cases pass with
    | searched working _ =>
      rw [minimizeArgs_done here found, working.kept] at returned
      cases returned
      exact ⟨good, tree, view, less⟩
    | rejected path kept _ _ _ _ =>
      rw [minimizeArgs_again here found, kept] at returned
      exact ih ⟨good, tree, view, less⟩ returned
    | committed tree' good' view' less' =>
      rw [minimizeArgs_again here found] at returned
      refine ih ⟨good', tree', ⟨view.same.trans view'.same, named ▸ view'.call⟩, ?_⟩ returned
      rw [← sizes_eraseList c.args, shape] at less'
      exact Nat.lt_trans less' less

theorem hunted_minimizeArgs (wins : Wins ctx srvNum ps0 c0 bad) {k : Nat} {loc : List Nat}
    (threat : ThreatFields isLen [] c0.fields c0.args "" k loc seen) (at_bad : bad = k :: loc)
    (distinct : (marksFields c0.fields c0.args "").Nodup) (here : ctx.call ps0 = some c0)
    {fuel : Nat} {triedPaths : List String} {ps : MinGroup} (fresh : ∀ path ∈ seen, path ∉ triedPaths)
    (returned : ctx.minimizeArgs fuel ps0 triedPaths = some ps) : Smaller ctx srvNum ps0 c0 ps := by
  induction fuel generalizing triedPaths with
  | zero => cases returned
  | succ fuel ih =>
    have pass : Hunted ctx srvNum ps0 c0 seen (doFields ctx c0.args c0.fields "" [] 0 ⟨ps0, ps0, triedPaths⟩) := by
      refine ThreatFields.hunted lawful client clean plain wins c0.args c0.fields "" [] 0 _ threat ?_ distinct fresh
        ⟨rfl, Same.refl ps0, c0, here, rfl, rfl⟩ fun m => ?_
      · rw [at_bad, Nat.zero_add]
        rfl
      · rw [List.nil_append, Nat.zero_add, getArgs]
        cases c0.args[m]? <;> rfl
    generalize found : doFields ctx c0.args c0.fields "" [] 0 ⟨ps0, ps0, triedPaths⟩ = result at pass
    obtain ⟨again, st⟩ := result
    cases again with
    | false => exact pass.elim
    | true =>
      rw [minimizeArgs_again here found] at returned
      rcases pass with smaller | ⟨kept, fresh'⟩
      · exact smaller.minimizeArgs lawful client clean plain returned
      · rw [kept] at returned
        exact ih fresh' returned

end Hunt

def ArgsCtx.withPred (ctx : ArgsCtx) (pred0 : MinGroup → Int → Bool) : ArgsCtx := { ctx with pred0 }

/-- Whatever the predicate asks for, minimization of a call returns with all anchors. -/
def KeepsAnchors (ctx : ArgsCtx) (isLen : String → LenFields) (ps0 : MinGroup) (c0 : MinCall) : Prop :=
  ∀ pred0, accepted (ctx.withPred pred0).toJob ps0 ctx.callIndex0 →
    ∃ ps, Fuel.Ends (fun fuel => (ctx.withPred pred0).minimizeArgs fuel ps0 []) ps ∧
      ∃ c, ctx.call ps = some c ∧ Kept isLen true c0 c

/-- The predicate accepts the call as a whole, and else only calls that lost an anchor. -/
noncomputable def ArgsCtx.adverse (ctx : ArgsCtx) (isLen : String → LenFields) (c0 : MinCall) : ArgsCtx :=
  ctx.withPred fun ps _ =>
    @decide (∃ c, ctx.call ps = some c ∧ (sizes c.args = sizes c0.args ∨ ¬ Kept isLen true c0 c)) (Classical.propDecidable _)

theorem pred_adverse {ctx : ArgsCtx} {isLen : String → LenFields} {c0 c : MinCall} {ps : MinGroup} (callIndex : Int)
    (here : ctx.call (ps.map fun p => p.map ctx.target.sanitize) = some c) :
    ((ctx.adverse isLen c0).pred ps callIndex).2 = true ↔ sizes c.args = sizes c0.args ∨ ¬ Kept isLen true c0 c := by
  refine (@decide_eq_true_iff _ (Classical.propDecidable _)).trans ⟨?_, fun lost => ⟨c, here, lost⟩⟩
  rintro ⟨c', found, lost⟩
  obtain rfl : c = c' := Option.some.inj (here.symm.trans found)
  exact lost

section Target

variable {ctx : ArgsCtx} {isLen : String → LenFields} (lawful : Lawful ctx.target) (steady : Steady ctx.target isLen)
  {srvNum : Nat} (client : srvNum ≤ ctx.j) {ps0 : MinGroup} {c0 : MinCall} (here : ctx.call ps0 = some c0)
  (plain : isFailure c0.name = false) (clean : CleanServers ctx.target srvNum ps0) (sanitized : ctx.target.sanitize c0 = c0)
include lawful steady client here plain clean sanitized

theorem keepsAnchors_of_separated (apart : ∀ r ∈ refsOfList c0.args, r ∉ resultsOfList c0.args)
    (separated : SeparatedFields (isLen c0.name) [] c0.fields c0.args) : KeepsAnchors ctx isLen ps0 c0 := by
  intro pred0 good
  have lawful' : Lawful (ctx.withPred pred0).target := lawful
  have steady' : Steady (ctx.withPred pred0).target isLen := steady
  have anchored : Anchored (ctx.withPred pred0).target isLen c0 := ⟨⟨c0, sanitized, Kept.refl c0⟩, apart, separated⟩
  obtain ⟨ps, ⟨enough, ends⟩, -⟩ := minimizeArgs_ends lawful' client [] here plain clean good
  exact ⟨ps, ⟨enough, ends⟩, minimizeArgs_kept steady' anchored here (ends enough (Nat.le_refl enough))⟩

theorem separated_of_keepsAnchors (distinct : (marksFields c0.fields c0.args "").Nodup) (keeps : KeepsAnchors ctx isLen ps0 c0) :
    SeparatedFields (isLen c0.name) [] c0.fields c0.args := by
  by_contra bad
  obtain ⟨k, loc, seen, threat⟩ := threat_of_not_separatedFields [] c0.fields c0.args "" bad
  have lawful' : Lawful (ctx.adverse isLen c0).target := lawful
  have whole : accepted (ctx.adverse isLen c0).toJob ps0 ctx.callIndex0 := by
    refine (pred_adverse ctx.callIndex0 ?_).mpr (.inl rfl)
    exact (call_map ctx ps0 _).trans ((congrArg _ here).trans (congrArg some sanitized))
  obtain ⟨ps, ⟨enough, ends⟩, c, at_end, kept⟩ := keeps _ whole
  -- the loss of this anchor is accepted
  have wins : Wins (ctx.adverse isLen c0) srvNum ps0 c0 (k :: loc) := by
    intro ps view
    obtain ⟨c', tried, -, shape⟩ := (view.pred lawful' clean ctx.callIndex0).call
    exact (pred_adverse ctx.callIndex0 tried).mpr (.inr fun kept => threat.lost _ kept.args shape)
  obtain ⟨good, tree, ⟨-, c', last, -, shape⟩, less⟩ := hunted_minimizeArgs lawful' client clean plain wins threat rfl distinct
    here (fun _ _ => List.not_mem_nil) (ends enough (Nat.le_refl enough))
  obtain rfl : c' = c := Option.some.inj (last.symm.trans at_end)
  have after := (call_map ctx ps _).trans (congrArg (Option.map ctx.target.sanitize) at_end)
  rcases (pred_adverse ctx.callIndex0 after).mp good with equal | lost
  · rw [← shape, ← (lawful.sanitize_values c').args, sizes_eraseList, equal] at less
    exact absurd less (Nat.lt_irrefl _)
  · exact lost (kept.sanitize steady ⟨c0, sanitized, Kept.refl c0⟩)

theorem keepsAnchors_iff (apart : ∀ r ∈ refsOfList c0.args, r ∉ resultsOfList c0.args)
    (distinct : (marksFields c0.fields c0.args "").Nodup) :
    KeepsAnchors ctx isLen ps0 c0 ↔ SeparatedFields (isLen c0.name) [] c0.fields c0.args :=
  ⟨separated_of_keepsAnchors lawful steady client here plain clean sanitized distinct,
    keepsAnchors_of_separated lawful steady client here plain clean sanitized apart⟩

end Target

theorem exitTarget_steady (isLen : String → LenFields) : Steady exitTarget isLen where
  sizes_name _ := rfl
  sizes_fields _ := rfl
  sizes c := ShrunkFields.refl [] c.fields c.args
  sanitize_name c := by
    simp only [exitTarget]
    split <;> rfl
  sanitize_fields c := by
    simp only [exitTarget]
    split <;> rfl
  sanitize c c' clean named _ shrunk := by
    simp only [exitTarget, named] at clean ⊢
    split_ifs at clean ⊢
    · have fixed : c.args.modify 0 fixExit = c.args := congrArg MinCall.args clean
      cases arguments : c.args with
      | nil =>
        rw [arguments, ShrunkFields] at shrunk
        rw [shrunk]
        rfl
      | cons arg rest =>
        rw [arguments] at shrunk fixed
        obtain ⟨arg', rest', same, first, -⟩ := shrunk
        rw [same]
        refine ⟨fixExit arg', rest', rfl, ?_, ShrunkFields.refl [] c.fields.tail rest'⟩
        cases arg' with
        | const val' =>
          refine ⟨_, rfl, fun value => ?_⟩
          have alone : fixExit arg = arg := (List.cons.inj fixed).1
          cases arg with
          | const val =>
            obtain ⟨_, at_first, same_value⟩ := first
            obtain rfl := MinArg.const.inj at_first
            rw [same_value value]
            exact MinArg.const.inj alone
          | pointer address res => rcases first with ⟨_, other, -⟩ | ⟨-, -, _, other⟩ <;> cases other
          | struct fields inner | array kind rangeBegin inner | union field option | data kind rangeBegin isOut bytes =>
            obtain ⟨_, other, -⟩ := first
            cases other
          | _ => cases first
        | _ => exact Shrunk.refl _ _
    · exact ShrunkFields.refl [] c.fields c'.args

/-- `ioctl` has a blob without a length. -/
def ioctlCall : MinCall where
  ref := 4
  name := "ioctl"
  fields := ["fd", "cmd", "arg"]
  args := [.result 0 none 3, .const 0x5401, .pointer 0x20000000 (.data .blobRand 0 false [1, 2])]

def handleCall : MinCall where
  ref := 4
  name := "open_by_handle_at"
  fields := ["mountdirfd", "handle", "flags"]
  args := [.result 0 none 3,
    .pointer 0x20000000 (.union "raw" (.struct ["handle_bytes", "handle_type", "f_handle"]
      [.const 4, .const 1, .struct ["v"] [.data .blobRand 0 false [1, 2, 3, 4]]])), .const 0]

/-- The arguments of the first call of the last program are minimized. -/
def lastCtx : ArgsCtx where
  target := exitTarget
  crash := false
  pred0 _ _ := true
  callIndex0 := 0
  j := 2
  i := 0

def handleSizes : String → LenFields := fun _ names => names.getLast? = some "handle_bytes"

theorem keepsAnchors_iff_ioctl : Steady exitTarget handleSizes ∧
    KeepsAnchors lastCtx handleSizes (twoClients [ioctlCall]) ioctlCall := by
  refine ⟨exitTarget_steady handleSizes, ?_⟩
  refine (keepsAnchors_iff exitTarget_lawful (exitTarget_steady handleSizes) (Nat.le_succ 1) rfl (by decide)
    (twoClients_clean _) rfl ?_ ?_).mpr ?_
  · intro r member
    cases member
  · decide
  · exact ⟨trivial, trivial, ⟨fun _ => rfl, trivial⟩, trivial⟩

/-- The handle goes with its type, which is an integer. -/
theorem handle_lost : Steady exitTarget handleSizes ∧
    ¬ KeepsAnchors lastCtx handleSizes (twoClients [handleCall]) handleCall := by
  refine ⟨exitTarget_steady handleSizes, fun keeps => ?_⟩
  have separated := separated_of_keepsAnchors exitTarget_lawful (exitTarget_steady handleSizes) (Nat.le_succ 1)
    rfl (by decide) (twoClients_clean _) rfl (by decide) keeps
  have loose := separated.2.1.1 rfl
  have typed : handleSizes "open_by_handle_at" ["handle", ">", "raw", "handle_type"] = true := loose.2.1
  revert typed
  decide

end DfsFuzz.Minimize
