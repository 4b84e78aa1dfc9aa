import DfsFuzz.Mutation.GroupPath

/-!
Which path migrations keep the pattern of a group: the anchor stands at the new base, its group in the same
relations to it, and what is outside stays. Opens are shared, so a call outside may move with the group.
-/

namespace DfsFuzz.Mutation

open DfsFuzz.Choice DfsFuzz.Tree

/-- The call that says where a call operates: the open behind its descriptor, or the call itself. -/
def source (ps : List Prog) (pos : GroupPosition) : GroupPosition := (fdOpen ps pos).getD pos

def operatesOn (ps : List Prog) (pos : GroupPosition) : String := ownPath ps (source ps pos)

/-- Whichever node is drawn for the relation, it is one in this relation to the base path. -/
def OffersEvery (ft : FileTree) (basePath : String) (rel : PathRelation) : Prop :=
  ∀ coin draw, getPathByRelation ft basePath "" rel coin draw false .any ≠ "" ∧
    pathRelBetween basePath (getPathByRelation ft basePath "" rel coin draw false .any) = rel

def Migration.group (m : Migration) : List GroupPosition := m.anchor :: m.conc.map ConcurrentCall.pos

/-- The call is not in the group and no open or creat behind a descriptor of the group. -/
def Migration.Outside (m : Migration) (ps : List Prog) (pos : GroupPosition) : Prop :=
  pos ∉ m.group ∧ ∀ member ∈ m.group, fdOpen ps member ≠ some pos

/-- The relation that a member had to the anchor. -/
def Migration.relOf (m : Migration) (ps : List Prog) (cc : ConcurrentCall) : PathRelation :=
  pathRelBetween (operatesOn ps m.anchor) (operatesOn ps cc.pos)

/-- The same pattern at a new place: `ps'` are the programs afterwards. -/
structure Migrated (ft : FileTree) (m : Migration) (ps ps' : List Prog) : Prop where
  anchor : operatesOn ps' m.anchor = m.newBasePath
  members : ∀ cc ∈ m.conc, operatesOn ps cc.pos ≠ "" → OffersEvery ft m.newBasePath (m.relOf ps cc) →
    operatesOn ps' cc.pos ≠ "" ∧ pathRelBetween m.newBasePath (operatesOn ps' cc.pos) = m.relOf ps cc
  backbone : ∀ pos, m.Outside ps pos → operatesOn ps' pos = operatesOn ps pos

/-- Member `k` is the last of the group that is rewritten where it is. -/
structure Migration.LastOf (m : Migration) (ps : List Prog) (k : Nat) (cc : ConcurrentCall) : Prop where
  place : m.conc[k]? = some cc
  last : ∀ j cc', k < j → m.conc[j]? = some cc' → resolveFdTarget ps cc'.pos ≠ resolveFdTarget ps cc.pos

/-- Nothing outside hangs on an open that moves, and nothing of the group on one that stays. -/
structure Separate (ft : FileTree) (m : Migration) (ps : List Prog) (r : PathDraws) : Prop where
  /-- the open of the anchor gives its descriptor to no call outside, unless the anchor's own path is drawn -/
  anchor : ∀ pos, m.Outside ps pos → fdOpen ps pos = some (resolveFdTarget ps m.anchor) → m.newBasePath = m.anchorPath
  /-- the open of a member gives its descriptor to no call outside, unless its own path is drawn -/
  members : ∀ pos, m.Outside ps pos → ∀ k cc, m.LastOf ps k cc → TakesPath ps (resolveFdTarget ps cc.pos) →
    fdOpen ps pos = some (resolveFdTarget ps cc.pos) → memberPath ft m.newBasePath cc.rel (r.node k) = cc.path
  /-- a member with a descriptor that counts as one with a path shares its open with a member that moves it,
  or the path stands in the relation to the new base path as it is -/
  listed : ∀ cc ∈ m.conc, ∀ call behind, callAt ps cc.pos = some call → metaCallName call.name ∈ pathArgCalls →
    fdOpen ps cc.pos = some behind → ownPath ps behind ≠ "" → OffersEvery ft m.newBasePath (m.relOf ps cc) →
    (∃ cc' ∈ m.conc, resolveFdTarget ps cc'.pos = behind) ∨ pathRelBetween m.newBasePath (ownPath ps behind) = m.relOf ps cc

/-! ### The targets -/

theorem source_progIdx (ps : List Prog) (pos : GroupPosition) : (source ps pos).progIdx = pos.progIdx := by
  unfold source fdOpen
  cases ps[pos.progIdx]? with
  | none => rfl
  | some p =>
    rw [Option.bind_some]
    cases p.calls[pos.callIdx]?.bind fun call => argResult call 0 with
    | none => rfl
    | some fdRes =>
      rw [Option.bind_some]
      cases openBefore p fdRes pos.callIdx <;> rfl

theorem resolveFdTarget_eq (ps : List Prog) (pos : GroupPosition) :
    resolveFdTarget ps pos =
      if ∃ call, callAt ps pos = some call ∧ metaCallName call.name ∈ pathArgCalls then pos else source ps pos := by
  unfold resolveFdTarget callAt source fdOpen
  cases ps[pos.progIdx]? with
  | none => simp
  | some p =>
    simp only [Option.bind_some]
    cases p.calls[pos.callIdx]? with
    | none => simp
    | some call =>
      by_cases listed : metaCallName call.name ∈ pathArgCalls
      · simp [listed]
      · cases result : argResult call 0 <;> simp [listed, result]

theorem resolveFdTarget_progIdx (ps : List Prog) (pos : GroupPosition) : (resolveFdTarget ps pos).progIdx = pos.progIdx := by
  rw [resolveFdTarget_eq]
  split_ifs
  · rfl
  · exact source_progIdx ps pos

theorem resolveFdTarget_cases (ps : List Prog) (pos : GroupPosition) :
    resolveFdTarget ps pos = pos ∨ fdOpen ps pos = some (resolveFdTarget ps pos) := by
  rw [resolveFdTarget_eq]
  split_ifs
  · exact .inl rfl
  · unfold source
    cases fdOpen ps pos with
    | none => exact .inl rfl
    | some behind => exact .inr rfl

theorem find?_openBefore (p : Prog) (fdRes : ResultId) (n : Nat) :
    ((p.calls.take n).reverse.find? fun prevCall =>
      (Go.contains prevCall.name "open" || Go.contains prevCall.name "creat") && prevCall.ret == some fdRes) =
      (openBefore p fdRes n).bind fun i => p.calls[i]? := by
  induction n with
  | zero => rfl
  | succ i ih =>
    rw [openBefore, List.take_add_one]
    cases here : p.calls[i]? with
    | none =>
      rw [Option.toList_none, List.append_nil]
      exact ih
    | some call =>
      rw [Option.toList_some, List.reverse_append, List.reverse_singleton, List.singleton_append, List.find?_cons]
      dsimp only
      split
      · rename_i opens
        rw [if_pos opens, Option.bind_some, here]
      · rename_i opens
        rw [if_neg (by simp [opens]), ih]

variable {pos behind : GroupPosition}

/-- The data of a path stands where a reference to a descriptor would. -/
theorem ownPath_of_fdOpen {ps : List Prog} (takes : fdOpen ps pos = some behind) : ownPath ps pos = "" := by
  obtain ⟨p, prog, found⟩ := Option.bind_eq_some_iff.mp takes
  obtain ⟨fdRes, read, -⟩ := Option.bind_eq_some_iff.mp found
  obtain ⟨call, called, result⟩ := Option.bind_eq_some_iff.mp read
  have none : argData call 0 = none := by
    cases holds : argData call 0 with
    | none => rfl
    | some bytes =>
      rw [argResult_none_of_data holds] at result
      cases result
  simp [ownPath, callAt, prog, called, extractPathFromCall, extractPath_eq, none]

theorem argResult_eq_some {call : Call} {argIdx : Nat} {fdRes : ResultId} :
    argResult call argIdx = some fdRes ↔ ∃ id val, call.args[argIdx]? = some (.result id (some fdRes) val) := by
  rw [argResult, Option.bind_eq_some_iff]
  constructor
  · rintro ⟨arg, read, refers⟩
    unfold resultOf at refers
    split at refers
    · cases refers
      exact ⟨_, _, read⟩
    · cases refers
  · rintro ⟨id, val, read⟩
    exact ⟨_, read, rfl⟩

theorem fdOpen_path {ps : List Prog} {call : Call} (called : callAt ps pos = some call)
    (other : metaCallName call.name ∉ pathArgCalls) :
    getFdFilePathForCall ps pos = ((fdOpen ps pos).map (ownPath ps)).getD "" := by
  obtain ⟨p, prog, at_pos⟩ := Option.bind_eq_some_iff.mp called
  simp only [getFdFilePathForCall, prog, at_pos, if_neg other, fdOpen, Option.bind_some, List.head?_eq_getElem?]
  cases result : argResult call 0 with
  | some fdRes =>
    obtain ⟨id, val, read⟩ := argResult_eq_some.mp result
    rw [read]
    dsimp only
    rw [find?_openBefore, Option.bind_some]
    cases found : openBefore p fdRes pos.callIdx with
    | none => rfl
    | some i => simp [ownPath, callAt, prog]
  | none =>
    split
    · rename_i read
      rw [argResult_eq_some.mpr ⟨_, _, read⟩] at result
      cases result
    · rfl

/-- What is to be rewritten holds the path that the group knows of the call. -/
theorem ownPath_target (ps : List Prog) (pos : GroupPosition) : ownPath ps (resolveFdTarget ps pos) = pathOfCall ps pos := by
  rw [resolveFdTarget_eq, pathOfCall]
  cases called : callAt ps pos with
  | none =>
    have nothing : fdOpen ps pos = none := by
      rw [Option.eq_none_iff_forall_ne_some]
      intro behind takes
      obtain ⟨p, prog, found⟩ := Option.bind_eq_some_iff.mp takes
      obtain ⟨_, read, -⟩ := Option.bind_eq_some_iff.mp found
      obtain ⟨call, at_pos, -⟩ := Option.bind_eq_some_iff.mp read
      rw [callAt, prog, Option.bind_some, at_pos] at called
      cases called
    simp [source, nothing, ownPath, called]
  | some call =>
    have own : ownPath ps pos = extractPathFromCall call := by rw [ownPath, called]; rfl
    dsimp only
    by_cases listed : metaCallName call.name ∈ pathArgCalls
    · rw [if_pos ⟨call, rfl, listed⟩, own]
      obtain ⟨p, prog, at_pos⟩ := Option.bind_eq_some_iff.mp called
      split_ifs with named
      · rfl
      · simp only [getFdFilePathForCall, prog, at_pos, if_pos listed]
    · rw [if_neg (by rintro ⟨_, here, inList⟩; cases here; exact listed inList), fdOpen_path called listed]
      cases takes : fdOpen ps pos with
      | none =>
        rw [source, takes, Option.getD_none, own]
        split_ifs with named
        · rfl
        · exact not_not.mp named
      | some behind =>
        rw [source, takes, if_neg (by rw [← own, ownPath_of_fdOpen takes]; simp)]
        rfl

/-- A call with a path of its own or behind its descriptor is followed to where its path stands. -/
theorem target_eq_source {ps : List Prog} (named : pathOfCall ps pos ≠ "") :
    resolveFdTarget ps pos = source ps pos := by
  rcases resolveFdTarget_cases ps pos with own | behind
  · cases takes : fdOpen ps pos with
    | none => rw [own, source, takes, Option.getD_none]
    | some behind =>
      rw [← ownPath_target, own, ownPath_of_fdOpen takes] at named
      exact absurd rfl named
  · rw [source, behind, Option.getD_some]

/-! ### The group and its updates -/

variable {cc : ConcurrentCall}

theorem mem_of_mergeCalls {res calls : List ConcurrentCall} (member : cc ∈ mergeCalls res calls) :
    cc ∈ res ∨ cc ∈ calls := by
  induction calls generalizing res with
  | nil => exact .inl member
  | cons first calls ih =>
    rw [mergeCalls, List.foldl_cons, ← mergeCalls] at member
    split_ifs at member with seen
    · exact (ih member).imp_right (List.mem_cons_of_mem _)
    · rcases ih member with extended | later
      · rcases List.mem_append.mp extended with old | new
        · exact .inl old
        · exact .inr (List.mem_cons.mpr (.inl (List.mem_singleton.mp new)))
      · exact .inr (List.mem_cons_of_mem _ later)

/-- A call of the group stands in another program and was recorded with its path. -/
theorem of_mem_findGroupCalls {ps : List Prog} {anchor : GroupPosition} {anchorPath : String} {tscoffs : List Int64}
    (member : cc ∈ findGroupCalls ps anchor anchorPath tscoffs) :
    cc = concurrentCall ps anchorPath cc.pos ∧ cc.pos.progIdx ≠ anchor.progIdx := by
  rcases mem_of_mergeCalls member with first | successor
  · rcases mem_of_mergeCalls first with none | concurrent
    · cases none
    · unfold findConcurrentCalls at concurrent
      split at concurrent
      · cases concurrent
      · obtain ⟨⟨p, i⟩, other, found⟩ := List.mem_flatMap.mp concurrent
        obtain ⟨⟨c, j⟩, -, kept⟩ := List.mem_filterMap.mp found
        dsimp only at kept
        split at kept
        · cases kept
        · split_ifs at kept
          cases kept
          exact ⟨rfl, (mem_otherProgs.mp other).2.1⟩
  · unfold findHBCalls at successor
    split at successor
    · cases successor
    · obtain ⟨⟨p, i⟩, other, found⟩ := List.mem_filterMap.mp successor
      obtain ⟨best, -, rfl⟩ := Option.map_eq_some_iff.mp found
      exact ⟨rfl, (mem_otherProgs.mp other).2.1⟩

theorem of_pickAnchor {ps : List Prog} {draws : Nat → Draw} {wantReadWrite : Bool} {anchor : GroupPosition} {anchorPath : String}
    (picked : pickAnchor ps draws wantReadWrite = some (anchor, anchorPath)) :
    anchorPath = pathOfCall ps anchor ∧ anchorPath ≠ "" := by
  unfold pickAnchor at picked
  split at picked
  · cases picked
  · split_ifs at picked
    obtain ⟨attempt, -, found⟩ := List.exists_of_findSome?_eq_some picked
    unfold pickAttempt at found
    dsimp only at found
    split at found
    · cases found
    · split_ifs at found with passed missing
      cases found
      simp only [Bool.or_eq_true, decide_eq_true_eq, not_or] at missing
      exact ⟨rfl, missing.1⟩

structure Started (ps : List Prog) (ft : FileTree) (m : Migration) : Prop where
  anchor : m.anchorPath = pathOfCall ps m.anchor
  named : m.anchorPath ≠ ""
  members : ∀ cc ∈ m.conc, cc = concurrentCall ps m.anchorPath cc.pos ∧ cc.pos.progIdx ≠ m.anchor.progIdx
  base : ∃ n, m.newBasePath = (ft.node n).fullPath
  based : m.newBasePath ≠ ""

theorem started {ps : List Prog} {ft : FileTree} {tscoffs : List Int64} {r : PathDraws} {m : Migration}
    (start : startMigration ps ft tscoffs r = some m) : Started ps ft m := by
  unfold startMigration at start
  split at start
  · cases start
  · rename_i anchor anchorPath picked
    obtain ⟨anchored, named⟩ := of_pickAnchor picked
    dsimp only at start
    generalize base : pickNewBasePath ft _ "" r = newBasePath at start
    split_ifs at start with empty based
    cases start
    refine ⟨anchored, named, fun cc member => of_mem_findGroupCalls member, ?_, based⟩
    unfold pickNewBasePath at base
    dsimp only at base
    split at base
    · exact ⟨_, base.symm⟩
    · exact absurd base.symm based

theorem exists_newPathOf {updates : List PathUpdate} {u : PathUpdate} (member : u ∈ updates) :
    ∃ path, newPathOf updates u.pos = some path := by
  rw [← Option.isSome_iff_exists, newPathOf, Option.isSome_map, List.find?_isSome]
  exact ⟨u, List.mem_reverse.mpr member, by simp⟩

theorem drawPath_text {ft : FileTree} (texts : ByteTexts ft) (nodes : List NodeRef) (draw : Draw) :
    ByteText (drawPath ft nodes draw) := by
  unfold drawPath
  split
  · exact texts _
  · exact fun _ none => absurd none (by simp)

/-- The path for a relation is the base path, none, or the one of a node. -/
theorem getPathByRelation_text {ft : FileTree} (texts : ByteTexts ft) {basePath : String} (base : ByteText basePath)
    (basePath2 : String) (rel : PathRelation) (coin draw : Draw) (isTwoPath : Bool) (constraint : RelTarget) :
    ByteText (getPathByRelation ft basePath basePath2 rel coin draw isTwoPath constraint) := by
  have empty : ByteText "" := fun _ none => absurd none (by simp)
  have drawn : ∀ nodes, ByteText (drawPath ft nodes draw) := fun nodes => drawPath_text texts nodes draw
  rw [getPathByRelation_eq]
  generalize (if (isTwoPath && coin.intn 2 ≠ 0) = true then ft.findNode basePath2 else ft.findNode basePath) = baseNode
  unfold relationPath
  generalize ft.findNode (getParentDir basePath) = parentNode
  cases baseNode with
  | none =>
    cases parentNode with
    | none => cases rel <;> first | exact base | exact empty
    | some parent =>
      cases rel with
      | self | selfTwo | same => exact base
      | parent =>
        dsimp only
        split_ifs
        · exact empty
        · exact texts parent
      | child => exact empty
      | sibling | noRel => exact drawn _
  | some node =>
    cases rel with
    | self | selfTwo | same => exact base
    | parent =>
      dsimp only
      split_ifs
      · exact empty
      · cases getParent ft node with
        | none => exact empty
        | some parent => exact texts parent
    | child | sibling | noRel => exact drawn _

theorem memberPath_text {ft : FileTree} (texts : ByteTexts ft) {newBasePath : String} (base : ByteText newBasePath)
    (rel : PathRelation) (draw : Draw) : ByteText (memberPath ft newBasePath rel draw) := by
  unfold memberPath
  dsimp only
  split_ifs
  · exact base
  · exact getPathByRelation_text texts base _ _ _ _ _ _

theorem memberPath_offered {ft : FileTree} {newBasePath : String} {rel : PathRelation} (offers : OffersEvery ft newBasePath rel)
    (draw : Draw) :
    memberPath ft newBasePath rel draw ≠ "" ∧ pathRelBetween newBasePath (memberPath ft newBasePath rel draw) = rel := by
  unfold memberPath
  dsimp only
  rw [if_neg (offers draw draw).1]
  exact offers draw draw

variable {path : String}

section Run

variable {assignSizesCall : Call → Call} {ps : List Prog} {ft : FileTree} {r : PathDraws} {m : Migration}

theorem pathUpdates_text (texts : ByteTexts ft) (begun : Started ps ft m) : ∀ u ∈ pathUpdates ps ft r m, ByteText u.newPath := by
  obtain ⟨n, base⟩ := begun.base
  have based : ByteText m.newBasePath := base ▸ texts n
  intro u member
  rcases List.mem_cons.mp member with rfl | later
  · exact based
  · obtain ⟨⟨cc, k⟩, -, rfl⟩ := List.mem_map.mp later
    exact memberPath_text texts based _ _

/-- Outside the anchor's program the path comes from the last member that is rewritten there. -/
theorem newPathOf_member (other : pos.progIdx ≠ m.anchor.progIdx) :
    newPathOf (pathUpdates ps ft r m) pos = some path ↔
      ∃ k cc, m.LastOf ps k cc ∧ resolveFdTarget ps cc.pos = pos ∧ memberPath ft m.newBasePath cc.rel (r.node k) = path := by
  have update (k : Nat) (u : PathUpdate) : (pathUpdates ps ft r m)[k + 1]? = some u ↔
      ∃ cc, m.conc[k]? = some cc ∧ memberUpdate ps ft r m.newBasePath (cc, k) = u := by
    rw [pathUpdates, List.getElem?_cons_succ, List.getElem?_map, Option.map_eq_some_iff]
    constructor
    · rintro ⟨⟨cc, i⟩, read, rfl⟩
      rw [List.getElem?_zipIdx, Option.map_eq_some_iff] at read
      obtain ⟨cc', place, same⟩ := read
      cases same
      exact ⟨cc, place, by rw [Nat.zero_add]⟩
    · rintro ⟨cc, place, rfl⟩
      exact ⟨(cc, k), by rw [List.getElem?_zipIdx, place, Nat.zero_add]; rfl, rfl⟩
  rw [newPathOf_eq_some]
  constructor
  · rintro ⟨_ | k, u, place, rfl, rfl, last⟩
    · cases place
      exact absurd (resolveFdTarget_progIdx ps m.anchor) other
    · obtain ⟨cc, inGroup, rfl⟩ := (update k u).mp place
      refine ⟨k, cc, ⟨inGroup, fun j cc' behind read => ?_⟩, rfl, rfl⟩
      exact last (j + 1) _ (by omega) ((update j _).mpr ⟨cc', read, rfl⟩)
  · rintro ⟨k, cc, ⟨place, last⟩, rfl, rfl⟩
    refine ⟨k + 1, _, (update k _).mpr ⟨cc, place, rfl⟩, rfl, rfl, fun j v behind read => ?_⟩
    obtain ⟨j, rfl⟩ : ∃ i, j = i + 1 := ⟨j - 1, by omega⟩
    obtain ⟨cc', read', rfl⟩ := (update j v).mp read
    exact last j cc' (by omega) read'

theorem newPathOf_anchor (begun : Started ps ft m) :
    newPathOf (pathUpdates ps ft r m) (resolveFdTarget ps m.anchor) = some m.newBasePath := by
  have alone : newPathOf (m.conc.zipIdx.map (memberUpdate ps ft r m.newBasePath)) (resolveFdTarget ps m.anchor) = none := by
    rw [Option.eq_none_iff_forall_ne_some]
    intro path read
    obtain ⟨_, u, place, here, -⟩ := newPathOf_eq_some.mp read
    obtain ⟨⟨cc, k⟩, inGroup, rfl⟩ := List.mem_map.mp (List.mem_of_getElem? place)
    apply (begun.members cc (List.fst_mem_of_mem_zipIdx inGroup)).2
    have progs := congrArg GroupPosition.progIdx here
    rwa [memberUpdate, resolveFdTarget_progIdx, resolveFdTarget_progIdx] at progs
  rw [pathUpdates, newPathOf_cons, alone, if_pos rfl, Option.none_or]

/-- The target of a call of the group is given a path, and nothing else is. -/
theorem newPathOf_group (pos : GroupPosition) :
    (∃ path, newPathOf (pathUpdates ps ft r m) pos = some path) ↔ ∃ member ∈ m.group, resolveFdTarget ps member = pos := by
  constructor
  · rintro ⟨path, read⟩
    obtain ⟨_, u, place, rfl, -⟩ := newPathOf_eq_some.mp read
    rcases List.mem_cons.mp (List.mem_of_getElem? place) with rfl | later
    · exact ⟨m.anchor, List.mem_cons_self, rfl⟩
    · obtain ⟨⟨cc, k⟩, inGroup, rfl⟩ := List.mem_map.mp later
      exact ⟨cc.pos, List.mem_cons_of_mem _ (List.mem_map_of_mem (List.fst_mem_of_mem_zipIdx inGroup)), rfl⟩
  · rintro ⟨member, inGroup, rfl⟩
    rcases List.mem_cons.mp inGroup with rfl | later
    · have first : (⟨resolveFdTarget ps m.anchor, m.newBasePath, r.suffix 0⟩ : PathUpdate) ∈ pathUpdates ps ft r m :=
        List.mem_cons_self
      exact exists_newPathOf first
    · obtain ⟨cc, inConc, rfl⟩ := List.mem_map.mp later
      obtain ⟨k, place⟩ := List.getElem?_of_mem inConc
      have update : memberUpdate ps ft r m.newBasePath (cc, k) ∈ pathUpdates ps ft r m :=
        List.mem_cons_of_mem _ (List.mem_map_of_mem (mem_zipIdx_iff.mpr place))
      exact exists_newPathOf update

theorem takesPath_of_named (named : ownPath ps pos ≠ "") : TakesPath ps pos := by
  unfold ownPath at named
  unfold TakesPath
  cases called : callAt ps pos with
  | none => rw [called] at named; exact absurd rfl named
  | some call =>
    rw [called, Option.map_some, Option.getD_some, extractPathFromCall, extractPath_eq] at named
    cases holds : argData call 0 with
    | none => rw [holds] at named; exact absurd rfl named
    | some bytes => simp [holds]

theorem operatesOn_anchor (begun : Started ps ft m) : operatesOn ps m.anchor = m.anchorPath := by
  have named : pathOfCall ps m.anchor ≠ "" := begun.anchor ▸ begun.named
  rw [operatesOn, ← target_eq_source named, ownPath_target, begun.anchor]

section Main

variable (sizes : SizesOnly assignSizesCall) (texts : ByteTexts ft) (begun : Started ps ft m)

include sizes

theorem operatesOn_run (updates : List PathUpdate) (pos : GroupPosition) :
    operatesOn (updates.foldl (applyUpdate assignSizesCall) ps) pos =
      ownPath (updates.foldl (applyUpdate assignSizesCall) ps) (source ps pos) := by
  rw [operatesOn, source, fdOpen_run sizes, ← source]

include texts begun

theorem anchor_migrated :
    operatesOn ((pathUpdates ps ft r m).foldl (applyUpdate assignSizesCall) ps) m.anchor = m.newBasePath := by
  have named : pathOfCall ps m.anchor ≠ "" := begun.anchor ▸ begun.named
  have moves : Moves ps (pathUpdates ps ft r m) (source ps m.anchor) m.newBasePath := by
    rw [← target_eq_source named]
    exact ⟨takesPath_of_named (by rwa [ownPath_target]), newPathOf_anchor begun⟩
  rw [operatesOn_run sizes, ownPath_moved sizes (pathUpdates_text texts begun) moves]

/-- A member whose path stands in a call that moves has the path that was drawn for its relation. -/
theorem member_moved (member : cc ∈ m.conc) (offers : OffersEvery ft m.newBasePath (m.relOf ps cc))
    (moves : Moves ps (pathUpdates ps ft r m) (source ps cc.pos) path) :
    operatesOn ((pathUpdates ps ft r m).foldl (applyUpdate assignSizesCall) ps) cc.pos ≠ "" ∧
      pathRelBetween m.newBasePath (operatesOn ((pathUpdates ps ft r m).foldl (applyUpdate assignSizesCall) ps) cc.pos) =
        m.relOf ps cc := by
  have other : (source ps cc.pos).progIdx ≠ m.anchor.progIdx := by
    rw [source_progIdx]
    exact (begun.members cc member).2
  obtain ⟨k, cc', last, target, rfl⟩ := (newPathOf_member other).mp moves.given
  -- whoever is rewritten there has the same path, and so the same relation
  have rel : cc'.rel = m.relOf ps cc := by
    obtain ⟨recorded, -⟩ := begun.members cc' (List.mem_of_getElem? last.place)
    rw [congrArg ConcurrentCall.rel recorded]
    dsimp only [concurrentCall]
    rw [← ownPath_target, target, Migration.relOf, operatesOn_anchor begun, operatesOn]
  rw [operatesOn_run sizes, ownPath_moved sizes (pathUpdates_text texts begun) moves, rel]
  exact memberPath_offered offers _

theorem member_migrated (separate : Separate ft m ps r) (member : cc ∈ m.conc) (named : operatesOn ps cc.pos ≠ "")
    (offers : OffersEvery ft m.newBasePath (m.relOf ps cc)) :
    operatesOn ((pathUpdates ps ft r m).foldl (applyUpdate assignSizesCall) ps) cc.pos ≠ "" ∧
      pathRelBetween m.newBasePath (operatesOn ((pathUpdates ps ft r m).foldl (applyUpdate assignSizesCall) ps) cc.pos) =
        m.relOf ps cc := by
  by_cases moved : ∃ path, Moves ps (pathUpdates ps ft r m) (source ps cc.pos) path
  · obtain ⟨path, moves⟩ := moved
    exact member_moved sizes texts begun member offers moves
  · -- where the path stands is no target, so the call counts as one with a path and takes a descriptor
    have noTarget : ∀ cc' ∈ m.conc, resolveFdTarget ps cc'.pos ≠ source ps cc.pos := fun cc' inConc same => moved <| by
      obtain ⟨path, read⟩ := (newPathOf_group _).mpr ⟨cc'.pos, List.mem_cons_of_mem _ (List.mem_map_of_mem inConc), same⟩
      exact ⟨path, takesPath_of_named named, read⟩
    rw [operatesOn_run sizes, ownPath_stays sizes (pathUpdates_text texts begun) moved]
    refine ⟨named, ?_⟩
    have elsewhere := noTarget cc member
    rw [resolveFdTarget_eq] at elsewhere
    split_ifs at elsewhere with inList
    · obtain ⟨call, called, inList⟩ := inList
      cases takes : fdOpen ps cc.pos with
      | none => exact absurd (by rw [source, takes, Option.getD_none]) elsewhere
      | some behind =>
        have here : source ps cc.pos = behind := by rw [source, takes, Option.getD_some]
        rw [operatesOn, here] at named
        rw [here] at noTarget ⊢
        rcases separate.listed cc member call behind called inList takes named offers with ⟨cc', inConc, target⟩ | rel
        · exact absurd target (noTarget cc' inConc)
        · exact rel
    · exact absurd rfl elsewhere

omit sizes texts in
/-- An open that gives its descriptor to a call outside is given its own path again. -/
theorem drawn_again (separate : Separate ft m ps r) (outside : m.Outside ps pos) (takes : fdOpen ps pos = some behind)
    (moves : Moves ps (pathUpdates ps ft r m) behind path) : path = ownPath ps behind := by
  by_cases own : behind.progIdx = m.anchor.progIdx
  · obtain ⟨member, inGroup, target⟩ := (newPathOf_group _).mp ⟨path, moves.given⟩
    obtain rfl : member = m.anchor := by
      rcases List.mem_cons.mp inGroup with anchor | later
      · exact anchor
      · obtain ⟨cc, inConc, rfl⟩ := List.mem_map.mp later
        rw [← target, resolveFdTarget_progIdx] at own
        exact absurd own (begun.members cc inConc).2
    subst target
    have given := moves.given
    rw [newPathOf_anchor begun] at given
    cases given
    rw [ownPath_target, ← begun.anchor]
    exact separate.anchor pos outside takes
  · obtain ⟨k, cc, last, rfl, rfl⟩ := (newPathOf_member own).mp moves.given
    obtain ⟨recorded, -⟩ := begun.members cc (List.mem_of_getElem? last.place)
    have path : cc.path = pathOfCall ps cc.pos := congrArg ConcurrentCall.path recorded
    rw [ownPath_target, ← path]
    exact separate.members pos outside k cc last moves.takes takes

theorem backbone_stays (separate : Separate ft m ps r) (outside : m.Outside ps pos) :
    operatesOn ((pathUpdates ps ft r m).foldl (applyUpdate assignSizesCall) ps) pos = operatesOn ps pos := by
  rw [operatesOn_run sizes, operatesOn]
  by_cases moved : ∃ path, Moves ps (pathUpdates ps ft r m) (source ps pos) path
  · obtain ⟨path, moves⟩ := moved
    rw [ownPath_moved sizes (pathUpdates_text texts begun) moves]
    cases takes : fdOpen ps pos with
    | some behind =>
      have here : source ps pos = behind := by rw [source, takes, Option.getD_some]
      rw [here] at moves ⊢
      exact drawn_again begun separate outside takes moves
    | none =>
      have here : source ps pos = pos := by rw [source, takes, Option.getD_none]
      rw [here] at moves
      obtain ⟨member, inGroup, target⟩ := (newPathOf_group _).mp ⟨path, moves.given⟩
      rcases resolveFdTarget_cases ps member with own | behind
      · rw [own] at target
        exact absurd (target ▸ inGroup) outside.1
      · rw [target] at behind
        exact absurd behind (outside.2 member inGroup)
  · exact ownPath_stays sizes (pathUpdates_text texts begun) moved

theorem migrated_of_separate (separate : Separate ft m ps r) :
    Migrated ft m ps ((pathUpdates ps ft r m).foldl (applyUpdate assignSizesCall) ps) where
  anchor := anchor_migrated sizes texts begun
  members _ member named offers := member_migrated sizes texts begun separate member named offers
  backbone _ outside := backbone_stays sizes texts begun separate outside

section Converse

variable (migrated : Migrated ft m ps ((pathUpdates ps ft r m).foldl (applyUpdate assignSizesCall) ps))

include migrated

theorem given_again (outside : m.Outside ps pos) (takes : fdOpen ps pos = some behind)
    (moves : Moves ps (pathUpdates ps ft r m) behind path) : path = ownPath ps behind := by
  have kept := migrated.backbone pos outside
  have here : source ps pos = behind := by rw [source, takes, Option.getD_some]
  rwa [operatesOn_run sizes, operatesOn, here, ownPath_moved sizes (pathUpdates_text texts begun) moves] at kept

theorem separate_of_migrated : Separate ft m ps r where
  anchor pos outside takes := by
    have named : ownPath ps (resolveFdTarget ps m.anchor) ≠ "" := by
      rw [ownPath_target, ← begun.anchor]
      exact begun.named
    have again := given_again sizes texts begun migrated outside takes ⟨takesPath_of_named named, newPathOf_anchor begun⟩
    rwa [ownPath_target, ← begun.anchor] at again
  members pos outside k cc last takesPath takes := by
    obtain ⟨recorded, other⟩ := begun.members cc (List.mem_of_getElem? last.place)
    have apart : (resolveFdTarget ps cc.pos).progIdx ≠ m.anchor.progIdx := by rwa [resolveFdTarget_progIdx]
    have again := given_again sizes texts begun migrated outside takes
      ⟨takesPath, (newPathOf_member apart).mpr ⟨k, cc, last, rfl, rfl⟩⟩
    have path : cc.path = pathOfCall ps cc.pos := congrArg ConcurrentCall.path recorded
    rwa [ownPath_target, ← path] at again
  listed cc member call behind called inList takes named offers := by
    have here : source ps cc.pos = behind := by rw [source, takes, Option.getD_some]
    by_cases shared : ∃ cc' ∈ m.conc, resolveFdTarget ps cc'.pos = behind
    · exact .inl shared
    · refine .inr ?_
      have stays : ¬ ∃ path, Moves ps (pathUpdates ps ft r m) behind path := by
        rintro ⟨path, moves⟩
        obtain ⟨x, inGroup, target⟩ := (newPathOf_group _).mp ⟨path, moves.given⟩
        rcases List.mem_cons.mp inGroup with rfl | later
        · apply (begun.members cc member).2
          rw [← source_progIdx ps cc.pos, here, ← target, resolveFdTarget_progIdx]
        · obtain ⟨cc', inConc, rfl⟩ := List.mem_map.mp later
          exact shared ⟨cc', inConc, target⟩
      have kept := (migrated.members cc member (by rwa [operatesOn, here]) offers).2
      rwa [operatesOn_run sizes, here, ownPath_stays sizes (pathUpdates_text texts begun) stays] at kept

end Converse

end Main

end Run

/-- A migration keeps the pattern exactly if nothing outside hangs on an open that moves and no member
on one that stays. -/
theorem groupPath_migrated_iff {assignSizesCall : Call → Call} (sizes : SizesOnly assignSizesCall) {ft : FileTree}
    (texts : ByteTexts ft) (ps : List Prog) (tscoffs : List Int64) (r : PathDraws) {m : Migration}
    (start : startMigration ps ft tscoffs r = some m) :
    Migrated ft m ps (mutateGroupPathDynamic assignSizesCall ps (some ft) tscoffs r).1 ↔ Separate ft m ps r := by
  have begun := started start
  have run : (mutateGroupPathDynamic assignSizesCall ps (some ft) tscoffs r).1 =
      (pathUpdates ps ft r m).foldl (applyUpdate assignSizesCall) ps := by
    simp only [mutateGroupPathDynamic, start]
  rw [run]
  exact ⟨separate_of_migrated sizes texts begun, migrated_of_separate sizes texts begun⟩

/-- The anchor will be the read of `x`, and the close after it is not in its group. -/
def readAndClose : List Prog :=
  [{ calls :=
      [Generate.openCall 0 "merge_view/a/x" 0 0 1,
        { name := "read", args := [.result 2 (some 1) 0], checkInfo := some { stime := 0, etime := 10 } },
        Generate.closeCall (.result 3 (some 1) 0)] },
    { calls := [{ Generate.openCall 0 "merge_view/a/x" 0 0 11 with checkInfo := some { stime := 5, etime := 8 } }] }]

def readAlone : List Prog :=
  [{ calls :=
      [Generate.openCall 0 "merge_view/a/x" 0 0 1,
        { name := "read", args := [.result 2 (some 1) 0], checkInfo := some { stime := 0, etime := 10 } }] },
    { calls := [{ Generate.openCall 0 "merge_view/a/x" 0 0 11 with checkInfo := some { stime := 5, etime := 8 } }] }]

/-- The second call is the anchor, and the last candidate the new base. -/
def secondCall : PathDraws where
  anchor _ := Draw.index 1
  cids := ["c1", "c2"]
  fallback := Draw.index 0
  weight := 1000
  node _ := Draw.index 0
  suffix _ := ""

def toOtherFile : Migration where
  anchor := ⟨0, 1⟩
  anchorPath := "merge_view/a/x"
  conc := [⟨⟨1, 0⟩, "merge_view/a/x", .same⟩]
  newBasePath := "merge_view/a/y"

theorem twoFiles_byteTexts : ByteTexts twoFiles :=
  (newFileTree_byteTexts.addNode (by decide +kernel) _ _).addNode (by decide +kernel) _ _

theorem sizesOnly_id : SizesOnly id := ⟨fun _ => rfl, fun _ => rfl, fun _ _ => rfl, fun _ _ => rfl⟩

theorem startMigration_readAndClose : startMigration readAndClose twoFiles [] secondCall = some toOtherFile := by decide +kernel

theorem startMigration_readAlone : startMigration readAlone twoFiles [] secondCall = some toOtherFile := by decide +kernel

theorem fdOpen_readAlone (takes : fdOpen readAlone pos = some behind) : pos = ⟨0, 1⟩ := by
  obtain ⟨progIdx, callIdx⟩ := pos
  match progIdx, callIdx with
  | 0, 0 => exact nomatch takes
  | 0, 1 => rfl
  | 0, _ + 2 => exact nomatch takes
  | 1, 0 => exact nomatch takes
  | 1, _ + 1 => exact nomatch takes
  | _ + 2, _ => exact nomatch takes

theorem separate_readAlone : Separate twoFiles toOtherFile readAlone secondCall where
  anchor pos outside takes := absurd (fdOpen_readAlone takes ▸ List.mem_cons_self) outside.1
  members pos outside _ _ _ _ takes := absurd (fdOpen_readAlone takes ▸ List.mem_cons_self) outside.1
  listed cc member _ _ _ _ takes _ _ := by
    obtain rfl := List.mem_singleton.mp member
    exact absurd (fdOpen_readAlone takes) (by decide)

theorem groupPath_migrated_readAlone :
    Migrated twoFiles toOtherFile readAlone (mutateGroupPathDynamic id readAlone (some twoFiles) [] secondCall).1 :=
  (groupPath_migrated_iff sizesOnly_id twoFiles_byteTexts readAlone [] secondCall startMigration_readAlone).mpr separate_readAlone

/-- The close of the anchor's descriptor moves with the open, and then closes another file. -/
theorem groupPath_moves_close : ¬ ∀ assignSizesCall, SizesOnly assignSizesCall → ∀ ft, Linked ft → ByteTexts ft →
    ∀ ps tscoffs r m, startMigration ps ft tscoffs r = some m →
      Migrated ft m ps (mutateGroupPathDynamic assignSizesCall ps (some ft) tscoffs r).1 := by
  intro claim
  have migrated := claim id sizesOnly_id twoFiles twoFiles_linked twoFiles_byteTexts readAndClose [] secondCall toOtherFile
    startMigration_readAndClose
  have outside : toOtherFile.Outside readAndClose ⟨0, 2⟩ := ⟨by decide +kernel, by decide +kernel⟩
  exact absurd (migrated.backbone ⟨0, 2⟩ outside) (by decide +kernel)

end DfsFuzz.Mutation
