import DfsFuzz.Dag.Writepage

/-!
The path of a call's vertex against the object that the call operates on. A call that names its
object resolves the name when it runs; `renamePathAt` applies every earlier rename to it once more.
-/

namespace DfsFuzz.Dag

/-! ### What the trace does to the namespace -/

/-- What is left of a path at or below `dir`. -/
def below (dir path : String) : Option String :=
  if path = dir then some ""
  else if Go.hasPrefix path (dir ++ "/") then some (Go.trimPrefix path dir)
  else none

theorem append_of_below {dir path rest : String} (inside : below dir path = some rest) : dir ++ rest = path := by
  unfold below at inside
  split at inside
  · rename_i same
    rw [← Option.some.inj inside, String.append_empty, same]
  · split at inside
    · rename_i starts
      rw [← Option.some.inj inside]
      refine Go.append_trimPrefix ?_
      rw [Go.hasPrefix, List.isPrefixOf_iff_prefix, String.toList_append] at starts
      rw [Go.hasPrefix, List.isPrefixOf_iff_prefix]
      exact (List.prefix_append _ _).trans starts
    · cases inside

def Rest (rest : String) : Prop := rest = "" ∨ Go.hasPrefix rest "/" = true

theorem rest_of_below {dir path rest : String} (inside : below dir path = some rest) : Rest rest := by
  unfold below at inside
  split at inside
  · exact Or.inl (Option.some.inj inside).symm
  · split at inside
    · rename_i starts
      have whole : dir ++ Go.trimPrefix path dir = path := by
        refine Go.append_trimPrefix (List.isPrefixOf_iff_prefix.mpr ?_)
        rw [Go.hasPrefix, List.isPrefixOf_iff_prefix, String.toList_append] at starts
        exact (List.prefix_append _ _).trans starts
      rw [← Option.some.inj inside]
      rw [← whole, Go.hasPrefix, List.isPrefixOf_iff_prefix, String.toList_append, String.toList_append,
        List.prefix_append_right_inj] at starts
      exact Or.inr (List.isPrefixOf_iff_prefix.mpr starts)
    · cases inside

theorem below_append (dir : String) {rest : String} (start : Rest rest) : below dir (dir ++ rest) = some rest := by
  unfold below
  rcases start with rfl | starts
  · rw [String.append_empty, if_pos rfl]
  · have longer : dir ++ rest ≠ dir := by
      intro same
      rw [String.append_eq_left_iff.mp same] at starts
      exact absurd starts (by decide)
    have inside : Go.hasPrefix (dir ++ rest) (dir ++ "/") = true := by
      rw [Go.hasPrefix, List.isPrefixOf_iff_prefix] at starts ⊢
      rw [String.toList_append, String.toList_append, List.prefix_append_right_inj]
      exact starts
    rw [if_neg longer, if_pos inside, Go.trimPrefix_append]

/-- The objects of a directory tree by their paths; each has one name. -/
structure Namespace where
  objectAt : String → Option Nat
  next : Nat
  allocated : ∀ path o, objectAt path = some o → o < next
  single : ∀ path path' o, objectAt path = some o → objectAt path' = some o → path = path'

inductive NamespaceOp where
  | create (path : String)
  | remove (path : String)
  | rename (oldPath newPath : String)

namespace Namespace

/-- A `mkdir` or `creat`; a file that is there stays. -/
def create (ns : Namespace) (path : String) : Namespace where
  objectAt := if ns.objectAt path = none then Function.update ns.objectAt path (some ns.next) else ns.objectAt
  next := ns.next + 1
  allocated p o here := by
    split at here
    · by_cases same : p = path
      · subst same
        rw [Function.update_self] at here
        exact Option.some.inj here ▸ Nat.lt_succ_self _
      · rw [Function.update_of_ne same] at here
        exact Nat.lt_succ_of_lt (ns.allocated p o here)
    · exact Nat.lt_succ_of_lt (ns.allocated p o here)
  single p p' o here there := by
    split at here
    · rename_i free
      rw [if_pos free] at there
      -- the new object has no other name
      have new : ∀ q, Function.update ns.objectAt path (some ns.next) q = some o → q ≠ path → ns.objectAt q = some o ∧ o ≠ ns.next := by
        intro q found different
        rw [Function.update_of_ne different] at found
        exact ⟨found, Nat.ne_of_lt (ns.allocated q o found)⟩
      by_cases same : p = path <;> by_cases same' : p' = path
      · rw [same, same']
      · rw [same, Function.update_self] at here
        exact absurd (Option.some.inj here).symm (new p' there same').2
      · rw [same', Function.update_self] at there
        exact absurd (Option.some.inj there).symm (new p here same).2
      · exact ns.single p p' o (new p here same).1 (new p' there same').1
    · rename_i taken
      rw [if_neg taken] at there
      exact ns.single p p' o here there

/-- An `unlink` or `rmdir`. -/
def remove (ns : Namespace) (path : String) : Namespace where
  objectAt := Function.update ns.objectAt path none
  next := ns.next
  allocated p o here := by
    by_cases same : p = path
    · rw [same, Function.update_self] at here
      cases here
    · rw [Function.update_of_ne same] at here
      exact ns.allocated p o here
  single p p' o here there := by
    have other : ∀ q, Function.update ns.objectAt path none q = some o → ns.objectAt q = some o := by
      intro q found
      by_cases same : q = path
      · rw [same, Function.update_self] at found
        cases found
      · rwa [Function.update_of_ne same] at found
    exact ns.single p p' o (other p here) (other p' there)

def renamedAt (ns : Namespace) (oldPath newPath path : String) : Option Nat :=
  match below newPath path with
  | some rest => ns.objectAt (oldPath ++ rest)
  | none => if (below oldPath path).isSome then none else ns.objectAt path

/-- Where the object at `path` was before a rename. -/
theorem renamedAt_origin (ns : Namespace) {oldPath newPath path : String} {o : Nat}
    (here : ns.renamedAt oldPath newPath path = some o) :
    (∃ rest, below newPath path = some rest ∧ ns.objectAt (oldPath ++ rest) = some o) ∨
      (below newPath path = none ∧ below oldPath path = none ∧ ns.objectAt path = some o) := by
  unfold renamedAt at here
  cases inside : below newPath path with
  | some rest =>
    rw [inside] at here
    exact Or.inl ⟨rest, rfl, here⟩
  | none =>
    rw [inside] at here
    cases moved : below oldPath path with
    | some rest =>
      rw [moved] at here
      cases here
    | none =>
      rw [moved] at here
      exact Or.inr ⟨rfl, rfl, here⟩

/-- A rename of `oldPath` with all below it, in place of what was at `newPath`. -/
def rename (ns : Namespace) (oldPath newPath : String) : Namespace where
  objectAt := ns.renamedAt oldPath newPath
  next := ns.next
  allocated p o here := by
    rcases ns.renamedAt_origin here with ⟨rest, -, was⟩ | ⟨-, -, was⟩
    · exact ns.allocated _ o was
    · exact ns.allocated p o was
  single p p' o here there := by
    -- a name that was not moved is not below the old path
    have apart : ∀ {q rest newRest : String}, below oldPath q = none → below newPath rest = some newRest →
        ns.objectAt q = some o → ns.objectAt (oldPath ++ newRest) ≠ some o := by
      intro q rest newRest outside inside was moved
      rw [ns.single q _ o was moved, below_append oldPath (rest_of_below inside)] at outside
      cases outside
    rcases ns.renamedAt_origin here with ⟨rest, inside, was⟩ | ⟨-, outside, was⟩ <;>
      rcases ns.renamedAt_origin there with ⟨rest', inside', was'⟩ | ⟨-, outside', was'⟩
    · have same := (below_append oldPath (rest_of_below inside)).symm.trans
        ((congrArg (below oldPath) (ns.single _ _ o was was')).trans (below_append oldPath (rest_of_below inside')))
      rw [← append_of_below inside, ← append_of_below inside', Option.some.inj same]
    · exact absurd was (apart outside' inside was')
    · exact absurd was' (apart outside inside' was)
    · exact ns.single p p' o was was'

def apply (ns : Namespace) : NamespaceOp → Namespace
  | .create path => ns.create path
  | .remove path => ns.remove path
  | .rename oldPath newPath => ns.rename oldPath newPath

end Namespace

/-- What a successful event does to the namespace. -/
def opOf (inp : BuildInput) (ev : HmdfsTraceEvent) : Option NamespaceOp :=
  (inp.callOf ev).bind fun pc =>
    if ev.ret ≠ 0 then none
    else if ev.funcID = funcMkdir || ev.funcID = funcCreate then some (.create (extractPathFromCall pc.2))
    else if ev.funcID = funcUnlink || ev.funcID = funcRmdir then some (.remove (extractPathFromCall pc.2))
    else if ev.funcID = funcRename then some (.rename (extractRenamePaths pc.2).1 (extractRenamePaths pc.2).2)
    else none

/-- The tree when an event happens: the successful operations before it, replayed in time order. -/
def namespaceAt (inp : BuildInput) (tree : Namespace) (events : List HmdfsTraceEvent) (ts : UInt64) : Namespace :=
  let earlier := Go.insertionSort.sort (Go.lessBy fun ev => ev.timestamp.toNat) (events.filter fun ev => ev.timestamp < ts)
  (earlier.filterMap (opOf inp)).foldl Namespace.apply tree

/-- An object that had the name `path` before the renames has the name `now` after them. -/
inductive Carried : List RenameEvent → String → String → Prop
  | nil (path : String) : Carried [] path path
  | stay {r : RenameEvent} {rs : List RenameEvent} {path now : String} (untouched : ¬ r.Touches path)
      (later : Carried rs path now) : Carried (r :: rs) path now
  | move {r : RenameEvent} {rs : List RenameEvent} {rest now : String} (start : Rest rest)
      (later : Carried rs (r.newPath ++ rest) now) : Carried (r :: rs) (r.oldPath ++ rest) now

theorem touches_iff {r : RenameEvent} {path : String} : r.Touches path ↔ ∃ rest, Rest rest ∧ path = r.oldPath ++ rest := by
  unfold RenameEvent.Touches
  constructor
  · intro touches
    have inside : (below r.oldPath path).isSome = true := by
      unfold below
      split
      · rfl
      · rename_i different
        rw [if_pos (touches.resolve_left different)]
        rfl
    obtain ⟨rest, found⟩ := Option.isSome_iff_exists.mp inside
    exact ⟨rest, rest_of_below found, (append_of_below found).symm⟩
  · rintro ⟨rest, rfl | starts, rfl⟩
    · exact Or.inl String.append_empty
    · refine Or.inr ?_
      rw [Go.hasPrefix, List.isPrefixOf_iff_prefix] at starts ⊢
      rw [String.toList_append, String.toList_append, List.prefix_append_right_inj]
      exact starts

theorem applyRename_moved {r : RenameEvent} {rest : String} (start : Rest rest) :
    applyRename (r.oldPath ++ rest) r = r.newPath ++ rest := by
  have touches : r.Touches (r.oldPath ++ rest) := touches_iff.mpr ⟨rest, start, rfl⟩
  unfold RenameEvent.Touches at touches
  rw [applyRename, if_pos (by simpa using touches), Go.trimPrefix_append]

theorem carried_iff {rs : List RenameEvent} {path now : String} : Carried rs path now ↔ rs.foldl applyRename path = now := by
  constructor
  · intro carried
    induction carried with
    | nil path => rfl
    | stay untouched later ih =>
      rw [List.foldl_cons, applyRename_untouched untouched]
      exact ih
    | move start later ih =>
      rw [List.foldl_cons, applyRename_moved start]
      exact ih
  · rintro rfl
    induction rs generalizing path with
    | nil => exact .nil path
    | cons r rs ih =>
      by_cases touches : r.Touches path
      · obtain ⟨rest, start, rfl⟩ := touches_iff.mp touches
        rw [List.foldl_cons, applyRename_moved start]
        exact .move start ih
      · rw [List.foldl_cons, applyRename_untouched touches]
        exact .stay touches ih

/-! ### The vertex of a call -/

/-- The best match so far is a call that was executed. -/
def BestExecuted (calls : List (Call × Nat)) (st : MatchState) : Prop :=
  ∀ i, st.best = some i → ∃ call ci, (call, i) ∈ calls ∧ call.checkInfo = some ci

theorem matchStep_best (tol : Int64) (ev : HmdfsTraceEvent) (off : Int64) {calls : List (Call × Nat)} {st : MatchState}
    (executed : BestExecuted calls st) {c : Call × Nat} (member : c ∈ calls) :
    BestExecuted calls (matchStep tol ev off st c) := by
  unfold matchStep
  split
  · exact executed
  · dsimp only
    cases info : c.1.checkInfo with
    | none => exact executed
    | some ci =>
      dsimp only
      split
      · intro i best
        obtain rfl := Option.some.inj best
        exact ⟨c.1, ci, member, info⟩
      · exact executed

theorem matchEventToCall_executed {tol : Int64} {ev : HmdfsTraceEvent} {p : Prog} {tscoffs : List Int64} {i : Nat}
    (matched : matchEventToCall tol ev p tscoffs = .ok i) : ∃ call ci, p.calls[i]? = some call ∧ call.checkInfo = some ci := by
  have loop : ∀ (rest : List (Call × Nat)) (st : MatchState), (∀ c ∈ rest, c ∈ p.calls.zipIdx) →
      BestExecuted p.calls.zipIdx st →
      BestExecuted p.calls.zipIdx (rest.foldl (matchStep tol ev (tscoffFor tscoffs ev.progIdx)) st) := by
    intro rest
    induction rest with
    | nil => exact fun st _ executed => executed
    | cons c rest ih =>
      intro st inside executed
      exact ih _ (fun c' member => inside c' (List.mem_cons_of_mem _ member))
        (matchStep_best tol ev _ executed (inside c List.mem_cons_self))
  have final := loop p.calls.zipIdx {} (fun _ member => member) fun i none => nomatch none
  unfold matchEventToCall at matched
  dsimp only at matched
  cases best : (p.calls.zipIdx.foldl (matchStep tol ev (tscoffFor tscoffs ev.progIdx)) {}).best with
  | none =>
    rw [best] at matched
    dsimp only at matched
    split_ifs at matched
  | some j =>
    rw [best] at matched
    obtain rfl : j = i := by
      injection matched
    obtain ⟨call, ci, member, info⟩ := final j best
    exact ⟨call, ci, List.mem_zipIdx_iff_getElem?.mp member, info⟩

/-- An event of a call other than a rename, for the path that the call names. -/
structure NamedCall (inp : BuildInput) (ev : HmdfsTraceEvent) (path : String) : Prop where
  call : ∃ pc, inp.callOf ev = some pc ∧ extractPathFromCall pc.2 = path
  named : path ≠ ""
  notRename : ev.funcID ≠ funcRename
  notLookup : ev.funcID ≠ funcLookup
  notWritepage : ev.funcID ≠ funcWritepage

/-- The event has one vertex, with the name that the call used, which is the only name of the object there. -/
def ObjectNamed (srt : Go.SliceSort) (inp : BuildInput) (tree : Namespace) (events : List HmdfsTraceEvent)
    (ev : HmdfsTraceEvent) (path : String) : Prop :=
  ∃ v, eventVertices srt inp events ev = [v] ∧ v.path = path ∧
    ∀ o, (namespaceAt inp tree events ev.timestamp).objectAt path = some o →
      ∀ name, (namespaceAt inp tree events ev.timestamp).objectAt name = some o ↔ name = v.path

/-- The successful renames up to an event, in time order. -/
def renamesBefore (inp : BuildInput) (events : List HmdfsTraceEvent) (ev : HmdfsTraceEvent) : List RenameEvent :=
  Go.insertionSort.sort (Go.lessBy fun r => r.ts.toNat) (tracedRenames inp events ev.timestamp)

section Named
variable {inp : BuildInput} {events : List HmdfsTraceEvent} {ev : HmdfsTraceEvent} {path : String}

theorem movedPath_eq (srt : Go.SliceSort) (distinct : DistinctTimes events) (named : path ≠ "") :
    movedPath srt path ev (timelinesOf srt inp events) = (renamesBefore inp events ev).foldl applyRename path := by
  have perm := renamesUpTo_perm srt inp events ev.timestamp
  have sorted := Go.SliceSort.eq_of_perm (fun r : RenameEvent => r.ts.toNat) srt Go.insertionSort perm
    (fun a ina b inb => tracedRenames_inj distinct ev.timestamp (perm.mem_iff.mp ina) (perm.mem_iff.mp inb))
  by_cases none : tracedRenames inp events ev.timestamp = []
  · have nothing : renamesBefore inp events ev = [] := by rw [renamesBefore, none]; rfl
    rw [nothing]
    simp [movedPath, renamePathAt_none srt inp events path none]
  · obtain ⟨nonempty, -⟩ := renamePathAt_some srt inp events none named
    have some_ : renamesUpTo ev.timestamp (timelinesOf srt inp events).renameTLByPath ≠ [] := by
      intro empty
      rw [renamePathAt, if_pos empty] at nonempty
      exact nonempty rfl
    unfold movedPath
    simp only [nonempty, ne_eq, not_false_eq_true, if_true]
    rw [renamePathAt, if_neg some_, sorted]
    rfl

theorem callOf_eq {p : Prog} {c : Call} (found : inp.callOf ev = some (p, c)) :
    inp.progOf ev = some p ∧ ∃ i ci, matchEventToCall inp.tol ev p inp.tscoffs = .ok i ∧ p.calls[i]? = some c ∧
      c.checkInfo = some ci := by
  unfold BuildInput.callOf at found
  obtain ⟨p', prog, found⟩ := Option.bind_eq_some_iff.mp found
  cases matched : matchEventToCall inp.tol ev p' inp.tscoffs with
  | error why =>
    rw [matched] at found
    cases found
  | ok i =>
    rw [matched] at found
    obtain ⟨c', here, same⟩ := Option.map_eq_some_iff.mp found
    obtain ⟨rfl, rfl⟩ := Prod.mk.inj same
    obtain ⟨c'', ci, here', info⟩ := matchEventToCall_executed matched
    obtain rfl := Option.some.inj (here.symm.trans here')
    exact ⟨prog, i, ci, matched, here, info⟩

/-- The path of a named call: `mkdir` and `creat` take it as it is. -/
theorem callPaths_named (srt : Go.SliceSort) (s : Snapshots) (distinct : DistinctTimes events) (call : NamedCall inp ev path)
    (p : Prog) {c : Call} (arg : extractPathFromCall c = path) :
    (callPaths srt s (timelinesOf srt inp events) p c ev).2 =
      if ev.funcID = funcMkdir ∨ ev.funcID = funcCreate then path
      else (renamesBefore inp events ev).foldl applyRename path := by
  unfold callPaths
  rw [arg]
  by_cases made : ev.funcID = funcMkdir ∨ ev.funcID = funcCreate
  · rw [if_pos (by simpa using made), if_pos made]
  · rw [if_neg (by simpa using made), if_neg made]
    by_cases removed : ev.funcID = funcRmdir ∨ ev.funcID = funcUnlink
    · rw [if_pos (by simpa using removed)]
      exact movedPath_eq srt distinct call.named
    · rw [if_neg (by simpa using removed), if_neg call.notRename, if_neg call.notLookup]
      simp only [call.named, if_false]
      exact movedPath_eq srt distinct call.named

theorem NamedCall.vertex (call : NamedCall inp ev path) (srt : Go.SliceSort) (distinct : DistinctTimes events) :
    ∃ v, eventVertices srt inp events ev = [v] ∧ v.path =
      if ev.funcID = funcMkdir ∨ ev.funcID = funcCreate then path
      else (renamesBefore inp events ev).foldl applyRename path := by
  obtain ⟨⟨p, c⟩, found, arg⟩ := call.call
  obtain ⟨prog, i, ci, matched, here, info⟩ := callOf_eq found
  have name := callPaths_named srt (snapshotsOf inp.fsMds) distinct call p arg
  have nonempty : (callPaths srt (snapshotsOf inp.fsMds) (timelinesOf srt inp events) p c ev).2 ≠ "" := by
    rw [name]
    split
    · exact call.named
    · refine foldl_applyRename_ne_empty (fun r member => ?_) call.named
      exact tracedRenames_named ((Go.insertionSort.perm _ _).mem_iff.mp member)
  rw [← name]
  unfold eventVertices vertexOf outcomeOf
  simp only [prog, call.notWritepage, if_false, matched, here, info, finishVertex, nonempty]
  exact ⟨_, rfl, rfl⟩

/-- A call's vertex has the name of the call's object exactly when the earlier renames lead that name back to itself. -/
theorem objectNamed_iff (srt : Go.SliceSort) (tree : Namespace) (distinct : DistinctTimes events)
    (call : NamedCall inp ev path) :
    ObjectNamed srt inp tree events ev path ↔
      ev.funcID = funcMkdir ∨ ev.funcID = funcCreate ∨ Carried (renamesBefore inp events ev) path path := by
  obtain ⟨v, only, name⟩ := call.vertex srt distinct
  have right : ObjectNamed srt inp tree events ev path ↔ v.path = path := by
    constructor
    · rintro ⟨v', only', same, -⟩
      obtain rfl := List.singleton_inj.mp (only.symm.trans only')
      exact same
    · intro same
      refine ⟨v, only, same, fun o here other => ⟨fun there => ?_, fun other_eq => ?_⟩⟩
      · rw [same]
        exact Namespace.single _ other path o there here
      · rwa [other_eq, same]
  rw [right, name, ← or_assoc, carried_iff]
  by_cases made : ev.funcID = funcMkdir ∨ ev.funcID = funcCreate
  · rw [if_pos made]
    exact iff_of_true rfl (Or.inl made)
  · rw [if_neg made, or_iff_right made]

end Named

/-- A file is renamed, another one is created under its name, and that one is looked at. -/
def recreateInput : BuildInput where
  ps := [{ calls := [
    { name := "rename", args := [pathArg "merge_view/p", pathArg "merge_view/q"], checkInfo := some { stime := 100, etime := 200 } },
    { name := "creat", args := [pathArg "merge_view/p"], checkInfo := some { stime := 300, etime := 400 } },
    { name := "stat", args := [pathArg "merge_view/p"], checkInfo := some { stime := 500, etime := 600 } }] }]
  fsMds := []
  hmcfg := {}
  tscoffs := [0]
  tol := 0

def renamed : HmdfsTraceEvent := { timestamp := 150, funcID := funcRename, ret := 0, ino := 0, progIdx := 0 }

def created : HmdfsTraceEvent := { timestamp := 350, funcID := funcCreate, ret := 0, ino := 0, progIdx := 0 }

def looked : HmdfsTraceEvent := { timestamp := 550, funcID := funcGetattr, ret := 0, ino := 0, progIdx := 0 }

def oneFile : Namespace where
  objectAt path := if path = "merge_view/p" then some 0 else none
  next := 1
  allocated path o here := by
    split at here
    · exact Option.some.inj here ▸ Nat.zero_lt_one
    · cases here
  single path path' o here there := by
    split at here
    · split at there
      · rename_i first second
        rw [first, second]
      · cases there
    · cases here

theorem namedCall_looked : NamedCall recreateInput looked "merge_view/p" :=
  ⟨⟨_, rfl, by decide⟩, by decide, by decide, by decide, by decide⟩

theorem objectNamed_iff_noRename : ObjectNamed Go.insertionSort recreateInput oneFile [created, looked] looked "merge_view/p" :=
  (objectNamed_iff Go.insertionSort oneFile (by unfold DistinctTimes; decide) namedCall_looked).mpr (Or.inr (Or.inr (carried_iff.mpr (by decide))))

theorem recreated_redirected : ¬ ∀ srt inp tree events ev path, DistinctTimes events → ev ∈ events → NamedCall inp ev path →
    (namespaceAt inp tree events ev.timestamp).objectAt path ≠ none → ObjectNamed srt inp tree events ev path := by
  intro claim
  have there : (namespaceAt recreateInput oneFile [renamed, created, looked] looked.timestamp).objectAt "merge_view/p" ≠ none := by
    decide +kernel
  obtain ⟨v, only, name, -⟩ := claim Go.insertionSort recreateInput oneFile [renamed, created, looked] looked "merge_view/p"
    (by unfold DistinctTimes; decide) (by simp) namedCall_looked there
  have redirected : (eventVertices Go.insertionSort recreateInput [renamed, created, looked] looked).map DAGVertex.path =
      ["merge_view/q"] := by decide +kernel
  rw [only, List.map_singleton, name] at redirected
  exact absurd redirected (by decide)

end DfsFuzz.Dag
