import DfsFuzz.Dag.Inodes

/-!
When the pairs of a trace do not depend on the numbers a node gives its inodes: exactly when the
same-inode test never decides a pair of vertices of different nodes.
-/

namespace DfsFuzz.Dag

def tracePairs (srt : Go.SliceSort) (inp : BuildInput) (events : List HmdfsTraceEvent) : ExtractResult :=
  extractPairs (buildVertices srt inp events).1 (buildVertices srt inp events).2

def VertexRef.blind (r : VertexRef) : VertexRef := { r with v := { r.v with ino := 0 } }

def DAGPair.blind (p : DAGPair) : DAGPair := { p with A := p.A.blind, B := p.B.blind }

/-- Renaming the inode numbers of any one node changes neither the pairs nor the pair bits. -/
def InodeBlind (srt : Go.SliceSort) (inp : BuildInput) (events : List HmdfsTraceEvent) : Prop :=
  ∀ (k : Nat) (ρ : InodeRenaming),
    let inp' := renameInput k ρ inp
    let events' := events.map (renameEvent k ρ)
    (tracePairs srt inp' events').hbPairs.map DAGPair.blind = (tracePairs srt inp events).hbPairs.map DAGPair.blind ∧
      (tracePairs srt inp' events').ccPairs.map DAGPair.blind = (tracePairs srt inp events).ccPairs.map DAGPair.blind ∧
      (dagFeedback srt inp' events').pairBits = (dagFeedback srt inp events).pairBits

/-- Vertices of different nodes that both carry an inode share a path, unless the modifier filter
drops their pair anyway. -/
def CrossNodeBySharedPath (srt : Go.SliceSort) (inp : BuildInput) (events : List HmdfsTraceEvent) : Prop :=
  let vertex := vertexOf srt inp (snapshotsOf inp.fsMds) (timelinesOf srt inp events)
  ∀ e ∈ events, ∀ e' ∈ events, ∀ x ∈ vertex e, ∀ y ∈ vertex e', x.progIdx < y.progIdx → x.ino ≠ 0 → y.ino ≠ 0 →
    passesModifier x y = true → anyPaths x y samePathTest = true

/-! ### One visited pair -/

def oriented (p : VertexRef × VertexRef) (rel : PathRel) : DAGPair :=
  if overlap p.1.v p.2.v then ⟨p.1, p.2, .concurrent, rel⟩
  else if p.1.v.etime < p.2.v.stime then ⟨p.1, p.2, .hb, rel⟩
  else ⟨p.2, p.1, .hb, rel⟩

theorem pairOf_eq (p : VertexRef × VertexRef) :
    pairOf p =
      if (determinePathRel p.1.v p.2.v false ≠ .none && passesModifier p.1.v p.2.v) = true then
        some (oriented p (determinePathRel p.1.v p.2.v false))
      else none := by
  have reverse : determinePathRel p.2.v p.1.v true = determinePathRel p.1.v p.2.v false :=
    determinePathRel_comm p.2.v p.1.v false
  have forward : determinePathRel p.1.v p.2.v true = determinePathRel p.1.v p.2.v false := rfl
  unfold pairOf hbOf ccOf passesModifier oriented
  rw [reverse, forward]
  by_cases meet : overlap p.1.v p.2.v = true
  · simp only [meet, if_true]
    rfl
  · by_cases before : p.1.v.etime < p.2.v.stime
    · simp only [meet, before, if_true]
      exact Option.or_none
    · simp only [meet, before, if_false]
      exact Option.or_none

variable {p : VertexRef × VertexRef}

theorem pairOf_sameInode (kept : passesModifier p.1.v p.2.v = true)
    (unshared : ¬ anyPaths p.1.v p.2.v samePathTest = true) :
    (pairOf p).map DAGPair.pathRel = some .sameInode ↔ sameInodeTest p.1.v p.2.v = true := by
  have relation : ∀ rel, (oriented p rel).pathRel = rel := by
    intro rel
    unfold oriented
    split
    · rfl
    · split <;> rfl
  rw [pairOf_eq, kept, Bool.and_true]
  cases test : sameInodeTest p.1.v p.2.v with
  | true =>
    have rel : determinePathRel p.1.v p.2.v false = .sameInode := by simp [determinePathRel, unshared, test]
    simp [rel, relation]
  | false =>
    have rel : determinePathRel p.1.v p.2.v false ≠ .sameInode := by
      simp only [determinePathRel, unshared, test, if_false, Bool.false_eq_true]
      split
      · simp
      · split <;> simp
    split <;> simp [relation, rel]

theorem hbOf_eq (p : VertexRef × VertexRef) : hbOf p = if overlap p.1.v p.2.v then none else pairOf p := by
  unfold pairOf
  by_cases meet : overlap p.1.v p.2.v = true
  · simp [hbOf, meet]
  · simp [ccOf, meet]

theorem ccOf_eq (p : VertexRef × VertexRef) : ccOf p = if overlap p.1.v p.2.v then pairOf p else none := by
  unfold pairOf
  by_cases meet : overlap p.1.v p.2.v = true
  · simp [hbOf, meet]
  · simp [ccOf, meet]

def VertexRef.rename (k : Nat) (ρ : InodeRenaming) (r : VertexRef) : VertexRef := { r with v := renameVertex k ρ r.v }

def renamePair (k : Nat) (ρ : InodeRenaming) (p : VertexRef × VertexRef) : VertexRef × VertexRef :=
  (p.1.rename k ρ, p.2.rename k ρ)

theorem refs_renamed (k : Nat) (ρ : InodeRenaming) (vertices : List DAGVertex) :
    refs (vertices.map (renameVertex k ρ)) = (refs vertices).map (VertexRef.rename k ρ) := by
  apply List.ext_getElem <;> simp [refs, VertexRef.rename]

theorem pairs_renamed (k : Nat) (ρ : InodeRenaming) (vertices : List DAGVertex) :
    Go.pairs (refs (vertices.map (renameVertex k ρ))) = (Go.pairs (refs vertices)).map (renamePair k ρ) := by
  rw [refs_renamed, Go.pairs_map]
  rfl

theorem oriented_blind (k : Nat) (ρ : InodeRenaming) (p : VertexRef × VertexRef) (rel : PathRel) :
    (oriented (renamePair k ρ p) rel).blind = (oriented p rel).blind := by
  show DAGPair.blind (if overlap p.1.v p.2.v then _ else if p.1.v.etime < p.2.v.stime then _ else _) =
    DAGPair.blind (if overlap p.1.v p.2.v then _ else if p.1.v.etime < p.2.v.stime then _ else _)
  by_cases meet : overlap p.1.v p.2.v = true
  · rw [if_pos meet, if_pos meet]
    rfl
  · rw [if_neg meet, if_neg meet]
    by_cases before : p.1.v.etime < p.2.v.stime
    · rw [if_pos before, if_pos before]
      rfl
    · rw [if_neg before, if_neg before]
      rfl

variable {ρ : InodeRenaming}

theorem pairOf_blind {k : Nat}
    (rel : passesModifier p.1.v p.2.v = true →
      determinePathRel (renameVertex k ρ p.1.v) (renameVertex k ρ p.2.v) false = determinePathRel p.1.v p.2.v false) :
    (pairOf (renamePair k ρ p)).map DAGPair.blind = (pairOf p).map DAGPair.blind := by
  have modifier : passesModifier (renamePair k ρ p).1.v (renamePair k ρ p).2.v = passesModifier p.1.v p.2.v := rfl
  rw [pairOf_eq, pairOf_eq, modifier]
  cases kept : passesModifier p.1.v p.2.v with
  | false => simp
  | true =>
    have same : determinePathRel (renamePair k ρ p).1.v (renamePair k ρ p).2.v false =
        determinePathRel p.1.v p.2.v false := rel kept
    rw [same]
    split
    · rw [Option.map_some, Option.map_some, oriented_blind]
    · rfl

/-- The renaming cannot show in a pair whose vertices share a path or whose same-inode test it
does not change. -/
theorem determinePathRel_renamed {k : Nat} {x y : DAGVertex}
    (decided : anyPaths x y samePathTest = true ∨
      sameInodeTest (renameVertex k ρ x) (renameVertex k ρ y) = sameInodeTest x y) :
    determinePathRel (renameVertex k ρ x) (renameVertex k ρ y) false = determinePathRel x y false := by
  have paths : ∀ test, anyPaths (renameVertex k ρ x) (renameVertex k ρ y) test = anyPaths x y test := fun _ => rfl
  unfold determinePathRel
  rw [paths, paths, paths]
  rcases decided with shared | same
  · rw [shared, if_pos rfl, if_pos rfl]
  · rw [same]

theorem sameInodeTest_renamed {k : Nat} {x y : DAGVertex} (bx : x.ino < inoBound) (boundY : y.ino < inoBound)
    (nodeLocal : x.progIdx = y.progIdx ∨ x.ino = 0 ∨ y.ino = 0) :
    sameInodeTest (renameVertex k ρ x) (renameVertex k ρ y) = sameInodeTest x y := by
  have zero : ∀ v : DAGVertex, v.ino < inoBound → ((renameVertex k ρ v).ino = 0 ↔ v.ino = 0) :=
    fun v bound => InodeRenaming.apply_eq_zero _ bound
  unfold sameInodeTest
  simp only [ne_eq, zero x bx]
  by_cases none : x.ino = 0
  · simp [none]
  · have same : ((renameVertex k ρ x).ino = (renameVertex k ρ y).ino) = (x.ino = y.ino) := by
      rcases nodeLocal with node | isZero | isZero
      · simp only [renameVertex, node, eq_iff_iff]
        exact InodeRenaming.apply_eq_iff _ bx boundY
      · exact absurd isZero none
      · rw [(zero y boundY).mpr isZero, isZero, zero x bx]
    simp only [same]

section Traces
variable {srt : Go.SliceSort} {inp : BuildInput} {events : List HmdfsTraceEvent}

theorem vertexOf_fields {s : Snapshots} {tl : Timelines} {ev : HmdfsTraceEvent} {v : DAGVertex}
    (found : vertexOf srt inp s tl ev = some v) :
    v.ino = ev.ino ∧ v.progIdx = ev.progIdx ∧ (inp.progOf ev).isSome := by
  have finish : ∀ dist dist' w, finishVertex s ev dist w = .vertex dist' v → v.ino = w.ino ∧ v.progIdx = w.progIdx := by
    intro dist dist' w made
    unfold finishVertex at made
    split at made
    · cases made
    · cases made
      exact ⟨rfl, rfl⟩
  obtain ⟨dist, made⟩ : ∃ dist, outcomeOf srt inp s tl ev = .vertex dist v := by
    unfold vertexOf at found
    split at found
    · rename_i dist w made
      obtain rfl := Option.some.inj found
      exact ⟨dist, made⟩
    · cases found
  unfold outcomeOf at made
  cases valid : inp.progOf ev with
  | none =>
    rw [valid] at made
    cases made
  | some p =>
    simp only [valid] at made
    refine (fun fields => ⟨fields.1, fields.2, rfl⟩ : v.ino = ev.ino ∧ v.progIdx = ev.progIdx → _) ?_
    split at made
    · exact finish _ _ _ made
    · split at made
      · cases made
      · split at made
        · cases made
        · split at made
          · cases made
          · exact finish _ _ _ made

theorem mem_buildVertices {v : DAGVertex} (member : v ∈ (buildVertices srt inp events).1) :
    ∃ ev ∈ events, vertexOf srt inp (snapshotsOf inp.fsMds) (timelinesOf srt inp events) ev = some v := by
  rw [buildVertices_fst] at member
  exact List.mem_filterMap.mp ((srt.perm _ _).mem_iff.mp member)

theorem buildVertices_sorted (srt : Go.SliceSort) (inp : BuildInput) (events : List HmdfsTraceEvent) :
    (buildVertices srt inp events).1.Pairwise fun a b => vertexLess b a = false := by
  rw [buildVertices_fst]
  exact srt.sorted (Go.lessBy_strictWeak vertexKey) _

theorem progIdx_le_of_not_vertexLess {a b : DAGVertex} (order : vertexLess b a = false) : a.progIdx ≤ b.progIdx := by
  have keys : vertexKey a ≤ vertexKey b := by simpa [vertexLess, Go.lessBy] using order
  rcases Prod.Lex.le_iff.mp keys with before | same
  · exact le_of_lt before
  · exact le_of_eq same.1

theorem visited_sorted (visited : p ∈ Go.pairs (refs (buildVertices srt inp events).1)) :
    p.1.v.progIdx ≤ p.2.v.progIdx ∧ p.1.idx < p.2.idx := by
  constructor
  · have sorted := buildVertices_sorted srt inp events
    rw [← refs_vertices (buildVertices srt inp events).1] at sorted
    exact progIdx_le_of_not_vertexLess (Go.rel_of_mem_pairs (List.pairwise_map.mp sorted) visited)
  · have increasing := List.pairwise_lt_range (n := (buildVertices srt inp events).1.length)
    rw [← refs_idx] at increasing
    exact Go.rel_of_mem_pairs (List.pairwise_map.mp increasing) visited

theorem crossNode_blind (nodeLocal : LocalInodes inp events) (shared : CrossNodeBySharedPath srt inp events) (k : Nat)
    (ρ : InodeRenaming) (visited : p ∈ Go.pairs (refs (buildVertices srt inp events).1)) :
    (pairOf (renamePair k ρ p)).map DAGPair.blind = (pairOf p).map DAGPair.blind := by
  have member : ∀ r ∈ refs (buildVertices srt inp events).1, r.v ∈ (buildVertices srt inp events).1 :=
    fun r inside => List.mem_of_getElem? (mem_refs.mp inside)
  have inside := Go.mem_of_mem_pairs visited
  obtain ⟨e, present, found⟩ := mem_buildVertices (member _ inside.1)
  obtain ⟨e', present', found'⟩ := mem_buildVertices (member _ inside.2)
  have bound : p.1.v.ino < inoBound := (vertexOf_fields found).1 ▸ nodeLocal.traced e present
  have bound' : p.2.v.ino < inoBound := (vertexOf_fields found').1 ▸ nodeLocal.traced e' present'
  refine pairOf_blind fun kept => determinePathRel_renamed ?_
  rcases (visited_sorted visited).1.lt_or_eq with apart | same
  · by_cases zero : p.1.v.ino = 0 ∨ p.2.v.ino = 0
    · exact Or.inr (sameInodeTest_renamed bound bound' (Or.inr zero))
    · rw [not_or] at zero
      exact Or.inl (shared e present e' present' _ found _ found' apart zero.1 zero.2 kept)
  · exact Or.inr (sameInodeTest_renamed bound bound' (Or.inl same))

theorem inodeBlind_of_shared (nodeLocal : LocalInodes inp events) (shared : CrossNodeBySharedPath srt inp events) :
    InodeBlind srt inp events := by
  intro k ρ inp' events'
  have vertices : (buildVertices srt inp' events').1 = (buildVertices srt inp events).1.map (renameVertex k ρ) :=
    buildVertices_renamed nodeLocal
  have hb : (tracePairs srt inp' events').hbPairs.map DAGPair.blind =
      (tracePairs srt inp events).hbPairs.map DAGPair.blind := by
    rw [tracePairs, tracePairs, extractPairs_hb, extractPairs_hb, vertices, pairs_renamed, List.map_filterMap,
      List.map_filterMap, List.filterMap_map]
    refine List.filterMap_congr fun p visited => ?_
    have same := crossNode_blind nodeLocal shared k ρ visited
    rw [Function.comp_apply, hbOf_eq, hbOf_eq, apply_ite (Option.map DAGPair.blind), apply_ite (Option.map DAGPair.blind), same]
    rfl
  have cc : (tracePairs srt inp' events').ccPairs.map DAGPair.blind =
      (tracePairs srt inp events).ccPairs.map DAGPair.blind := by
    rw [tracePairs, tracePairs, extractPairs_cc, extractPairs_cc, vertices, pairs_renamed, List.map_filterMap,
      List.map_filterMap, List.filterMap_map]
    refine List.filterMap_congr fun p visited => ?_
    have same := crossNode_blind nodeLocal shared k ρ visited
    rw [Function.comp_apply, ccOf_eq, ccOf_eq, apply_ite (Option.map DAGPair.blind), apply_ite (Option.map DAGPair.blind), same]
    rfl
  refine ⟨hb, cc, ?_⟩
  -- the hash of a pair reads no inode number
  have hashed : ∀ srt inp events, (dagFeedback srt inp events).pairBits =
      (((tracePairs srt inp events).hbPairs.map DAGPair.blind ++ (tracePairs srt inp events).ccPairs.map DAGPair.blind).map
        fun p => (hashPair p inp.hmcfg).toUInt32) := by
    intro srt inp events
    simp only [dagFeedback, computeFeedback, ← List.map_append, List.map_map]
    rfl
  rw [hashed, hashed, hb, cc]
  rfl

theorem eq_of_mem_filterMap_iff {ι β : Type} (g g' : ι → Option β) {ps : List ι}
    (one : ∀ p ∈ ps, ∀ p' ∈ ps, ∀ q, (g p = some q ∨ g' p = some q) → (g p' = some q ∨ g' p' = some q) → p = p')
    (same : ∀ q, q ∈ ps.filterMap g ↔ q ∈ ps.filterMap g') {p : ι} (member : p ∈ ps) : g p = g' p := by
  refine Option.ext fun q => ⟨fun found => ?_, fun found => ?_⟩
  · obtain ⟨p', member', found'⟩ := List.mem_filterMap.mp ((same q).mp (List.mem_filterMap.mpr ⟨p, member, found⟩))
    rwa [one p member p' member' q (Or.inl found) (Or.inr found')]
  · obtain ⟨p', member', found'⟩ := List.mem_filterMap.mp ((same q).mpr (List.mem_filterMap.mpr ⟨p, member, found⟩))
    rwa [one p member p' member' q (Or.inr found) (Or.inl found')]

theorem ref_eq_of_idx {vertices : List DAGVertex} {r r' : VertexRef} (inside : r ∈ refs vertices)
    (inside' : r' ∈ refs vertices) (same : r.idx = r'.idx) : r = r' := by
  have here := mem_refs.mp inside
  have there := mem_refs.mp inside'
  rw [same, there] at here
  obtain ⟨idx, v⟩ := r
  obtain ⟨idx', v'⟩ := r'
  rw [show idx = idx' from same, show v' = v from Option.some.inj here]

theorem pairOf_blind_of_inodeBlind (nodeLocal : LocalInodes inp events) (blind : InodeBlind srt inp events) (k : Nat)
    (ρ : InodeRenaming) (visited : p ∈ Go.pairs (refs (buildVertices srt inp events).1)) :
    (pairOf (renamePair k ρ p)).map DAGPair.blind = (pairOf p).map DAGPair.blind := by
  obtain ⟨hb, cc, _⟩ := blind k ρ
  have adjacent : ∀ p : VertexRef × VertexRef, ∀ q,
      (pairOf (renamePair k ρ p)).map DAGPair.blind = some q ∨ (pairOf p).map DAGPair.blind = some q →
      (q.A.idx = p.1.idx ∧ q.B.idx = p.2.idx) ∨ (q.A.idx = p.2.idx ∧ q.B.idx = p.1.idx) := by
    rintro p q (made | made)
    all_goals
      obtain ⟨r, produced, rfl⟩ := Option.map_eq_some_iff.mp made
      rcases pairOf_over produced with ⟨a, b⟩ | ⟨a, b⟩
      · have first := congrArg VertexRef.idx a
        have second := congrArg VertexRef.idx b
        exact Or.inl ⟨first, second⟩
      · have first := congrArg VertexRef.idx a
        have second := congrArg VertexRef.idx b
        exact Or.inr ⟨first, second⟩
  refine eq_of_mem_filterMap_iff (fun p => (pairOf (renamePair k ρ p)).map DAGPair.blind)
    (fun p => (pairOf p).map DAGPair.blind) ?_ ?_ visited
  · intro p inside p' inside' q made made'
    have order := (visited_sorted inside).2
    have order' := (visited_sorted inside').2
    have members := Go.mem_of_mem_pairs inside
    have members' := Go.mem_of_mem_pairs inside'
    have indices : p.1.idx = p'.1.idx ∧ p.2.idx = p'.2.idx := by
      rcases adjacent p q made with h | h <;> rcases adjacent p' q made' with h' | h' <;> omega
    exact Prod.ext (ref_eq_of_idx members.1 members'.1 indices.1) (ref_eq_of_idx members.2 members'.2 indices.2)
  · intro q
    have lists : ∀ ps : List (VertexRef × VertexRef),
        q ∈ ps.filterMap (fun p => (pairOf p).map DAGPair.blind) ↔
          q ∈ (ps.filterMap hbOf).map DAGPair.blind ++ (ps.filterMap ccOf).map DAGPair.blind := by
      intro ps
      rw [← List.map_filterMap, ← List.map_append]
      exact ((produced_perm ps).map _).mem_iff.symm
    have renamed := lists ((Go.pairs (refs (buildVertices srt inp events).1)).map (renamePair k ρ))
    rw [← pairs_renamed, ← buildVertices_renamed nodeLocal, ← extractPairs_hb _ (buildVertices srt _ _).2,
      ← extractPairs_cc _ (buildVertices srt _ _).2] at renamed
    rw [lists, ← extractPairs_hb _ (buildVertices srt inp events).2, ← extractPairs_cc _ (buildVertices srt inp events).2]
    simp only [tracePairs] at hb cc
    rw [← hb, ← cc, ← renamed, buildVertices_renamed nodeLocal, pairs_renamed, List.filterMap_map]
    rfl

def InodeRenaming.exchange (a b : UInt64) (ba : a < inoBound) (bb : b < inoBound) (za : a ≠ 0) (zb : b ≠ 0) :
    InodeRenaming where
  apply := Equiv.swap a b
  zero := Equiv.swap_apply_of_ne_of_ne (Ne.symm za) (Ne.symm zb)
  bounded i bound := by
    rw [Equiv.swap_apply_def]
    split
    · exact bb
    · split
      · exact ba
      · exact bound
  injective i j _ _ same := (Equiv.swap a b).injective same

/-- Some renaming of the first vertex's node turns the same-inode test of two vertices around. -/
theorem exists_renaming_sameInodeTest {x y : DAGVertex} (bx : x.ino < inoBound) (boundY : y.ino < inoBound)
    (zx : x.ino ≠ 0) (zy : y.ino ≠ 0) {k : Nat} (here : x.progIdx = k) (there : y.progIdx ≠ k) :
    ∃ ρ : InodeRenaming, sameInodeTest (renameVertex k ρ x) (renameVertex k ρ y) ≠ sameInodeTest x y := by
  have moved : ∀ ρ : InodeRenaming, (renameVertex k ρ x).ino = ρ.apply x.ino ∧ (renameVertex k ρ y).ino = y.ino := by
    intro ρ
    simp [renameVertex, InodeRenaming.onNode, here, there, InodeRenaming.identity]
  by_cases same : x.ino = y.ino
  · -- the numbers collide: move the first one away
    obtain ⟨c, bc, zc, other⟩ : ∃ c, c < inoBound ∧ c ≠ 0 ∧ c ≠ x.ino := by
      by_cases one : x.ino = 1
      · exact ⟨2, by decide, by decide, by rw [one]; decide⟩
      · exact ⟨1, by decide, by decide, Ne.symm one⟩
    refine ⟨.exchange x.ino c bx bc zx zc, ?_⟩
    simp only [sameInodeTest, moved]
    rw [show (InodeRenaming.exchange x.ino c bx bc zx zc).apply x.ino = c from Equiv.swap_apply_left _ _]
    rw [← same]
    simp [other, zx]
  · -- they differ: give the first node the number of the second
    refine ⟨.exchange x.ino y.ino bx boundY zx zy, ?_⟩
    simp only [sameInodeTest, moved]
    rw [show (InodeRenaming.exchange x.ino y.ino bx boundY zx zy).apply x.ino = y.ino from Equiv.swap_apply_left _ _]
    simp [same, zy]

theorem shared_of_inodeBlind (nodeLocal : LocalInodes inp events) (blind : InodeBlind srt inp events) :
    CrossNodeBySharedPath srt inp events := by
  intro e present e' present' x found y found' apart zx zy kept
  by_contra unshared
  obtain ⟨inoX, progX, valid⟩ := vertexOf_fields found
  obtain ⟨inoY, progY, _⟩ := vertexOf_fields found'
  have node : x.progIdx = (e.progIdx.toNat : Int) := progX.trans (progIdx_toNat valid).symm
  obtain ⟨ρ, turned⟩ := exists_renaming_sameInodeTest (inoX ▸ nodeLocal.traced e present) (inoY ▸ nodeLocal.traced e' present')
    zx zy node (by omega)
  -- the pair of the two vertices is visited with the first node first
  obtain ⟨p, visited, rfl, rfl⟩ : ∃ p ∈ Go.pairs (refs (buildVertices srt inp events).1), p.1.v = x ∧ p.2.v = y := by
    have reference : ∀ ev ∈ events, ∀ v,
        vertexOf srt inp (snapshotsOf inp.fsMds) (timelinesOf srt inp events) ev = some v →
        ∃ r ∈ refs (buildVertices srt inp events).1, r.v = v := by
      intro ev inside v made
      have member : v ∈ (buildVertices srt inp events).1 := by
        rw [buildVertices_fst]
        exact (srt.perm _ _).mem_iff.mpr (List.mem_filterMap.mpr ⟨ev, inside, made⟩)
      rw [← refs_vertices (buildVertices srt inp events).1] at member
      exact List.mem_map.mp member
    obtain ⟨a, inside, rfl⟩ := reference e present x found
    obtain ⟨b, inside', rfl⟩ := reference e' present' y found'
    have different : a ≠ b := fun same => absurd apart (by rw [same]; exact lt_irrefl _)
    rcases Go.mem_pairs_or inside inside' different with forth | back
    · exact ⟨(a, b), forth, rfl, rfl⟩
    · exact absurd (visited_sorted back).1 (not_le_of_gt apart)
  have same := pairOf_blind_of_inodeBlind nodeLocal blind e.progIdx.toNat ρ visited
  have relations := congrArg (Option.map DAGPair.pathRel) same
  rw [Option.map_map, Option.map_map] at relations
  have renamed := pairOf_sameInode (p := renamePair e.progIdx.toNat ρ p) kept unshared
  have original := pairOf_sameInode kept unshared
  apply turned
  rw [Bool.eq_iff_iff]
  exact renamed.symm.trans ((Eq.congr_left relations).trans original)

/-- The pairs are blind to the numbering of inodes exactly when vertices of different nodes are
never left to the same-inode test. -/
theorem inodeBlind_iff (nodeLocal : LocalInodes inp events) :
    InodeBlind srt inp events ↔ CrossNodeBySharedPath srt inp events :=
  ⟨shared_of_inodeBlind nodeLocal, inodeBlind_of_shared nodeLocal⟩

end Traces

def creatProg (path : String) : Prog :=
  { calls := [{
      name := "creat"
      args := [.pointer 0 (some (.data (path.toList.map fun c => UInt8.ofNat c.toNat)))]
      checkInfo := some { stime := 100, etime := 200 } }] }

/-- Two nodes create a file each; the first gives it inode 5, the second inode 7. -/
def twoNodes (path path' : String) : BuildInput where
  ps := [creatProg path, creatProg path']
  fsMds := [some ((∅ : FsMd).insert path { statMd := { ino := 5 } }), some ((∅ : FsMd).insert path' { statMd := { ino := 7 } })]
  hmcfg := {}
  tscoffs := [0, 0]
  tol := 0

def twoNodeEvents : List HmdfsTraceEvent :=
  [{ timestamp := 120, funcID := funcCreate, ret := 0, ino := 5, progIdx := 0 },
   { timestamp := 150, funcID := funcCreate, ret := 0, ino := 7, progIdx := 1 }]

theorem twoNodes_local (path path' : String) : LocalInodes (twoNodes path path') twoNodeEvents := by
  constructor
  · intro ev member _
    simp only [twoNodeEvents, List.mem_cons, List.not_mem_nil, or_false] at member
    rcases member with rfl | rfl
    · exact ⟨_, rfl, Or.inr ⟨_, List.mem_singleton.mpr rfl, rfl⟩⟩
    · exact ⟨_, rfl, Or.inr ⟨_, List.mem_singleton.mpr rfl, rfl⟩⟩
  · decide
  · intro m member e stored
    simp only [twoNodes, List.mem_cons, Option.some.injEq, List.not_mem_nil, or_false] at member
    rcases member with rfl | rfl
    · obtain rfl := List.mem_singleton.mp stored
      exact (by decide : (5 : UInt64) < inoBound)
    · obtain rfl := List.mem_singleton.mp stored
      exact (by decide : (7 : UInt64) < inoBound)

def collide : InodeRenaming := .exchange 7 5 (by decide) (by decide) (by decide) (by decide)

set_option maxRecDepth 4000 in
/-- Two unrelated files become a same-inode pair when their nodes happen to pick one number. -/
theorem twoNodes_collision :
    LocalInodes (twoNodes "merge_view/a/f" "merge_view/b/g") twoNodeEvents ∧
      (dagFeedback Go.insertionSort (twoNodes "merge_view/a/f" "merge_view/b/g") twoNodeEvents).pairBits = [] ∧
      (dagFeedback Go.insertionSort (renameInput 1 collide (twoNodes "merge_view/a/f" "merge_view/b/g"))
        (twoNodeEvents.map (renameEvent 1 collide))).pairBits ≠ [] ∧
      ¬ InodeBlind Go.insertionSort (twoNodes "merge_view/a/f" "merge_view/b/g") twoNodeEvents := by
  have before : (dagFeedback Go.insertionSort (twoNodes "merge_view/a/f" "merge_view/b/g") twoNodeEvents).pairBits = [] := by
    decide
  have after : (dagFeedback Go.insertionSort (renameInput 1 collide (twoNodes "merge_view/a/f" "merge_view/b/g"))
      (twoNodeEvents.map (renameEvent 1 collide))).pairBits ≠ [] := by
    decide
  refine ⟨twoNodes_local _ _, before, after, fun blind => ?_⟩
  obtain ⟨_, _, bits⟩ := blind 1 collide
  exact after (bits.trans before)

set_option maxRecDepth 4000 in
theorem inodeBlind_sharedPath :
    InodeBlind Go.insertionSort (twoNodes "merge_view/a/f" "merge_view/a/f") twoNodeEvents ∧
      (dagFeedback Go.insertionSort (twoNodes "merge_view/a/f" "merge_view/a/f") twoNodeEvents).pairBits.length = 1 := by
  refine ⟨(inodeBlind_iff (twoNodes_local _ _)).mpr ?_, by decide⟩
  have resolved : ∀ e ∈ twoNodeEvents, (vertexOf Go.insertionSort (twoNodes "merge_view/a/f" "merge_view/a/f")
      (snapshotsOf (twoNodes "merge_view/a/f" "merge_view/a/f").fsMds)
      (timelinesOf Go.insertionSort (twoNodes "merge_view/a/f" "merge_view/a/f") twoNodeEvents) e).map
        DAGVertex.path = some "merge_view/a/f" := by
    decide
  intro e present e' present' x found y found' _ _ _ _
  have path := resolved e present
  have path' := resolved e' present'
  rw [found] at path
  rw [found'] at path'
  have same : x.path = "merge_view/a/f" := Option.some.inj path
  have same' : y.path = "merge_view/a/f" := Option.some.inj path'
  simp [anyPaths, samePathTest, same, same']

end DfsFuzz.Dag
