import DfsFuzz.Tree.SyncStep

/-!
Every tree that the operations can build is linked. The sync step here asks only for clean keys;
the stronger facts about it are in the next modules.
-/

namespace DfsFuzz.Tree

open FileTree

/-! ### The loops of the sync -/

theorem hasPrefix_keyPath (e : String × FileMetadata) : Go.hasPrefix (keyPath e) mergeViewPrefix = true := by
  unfold keyPath normalizeMergeViewPath
  dsimp only
  split
  · rw [Go.hasPrefix, List.isPrefixOf_iff_prefix, String.toList_append]
    exact List.prefix_append _ _
  · rename_i merged
    simpa using merged

theorem render_keyPath (e : String × FileMetadata) : render (pathParts (keyPath e)) = keyPath e :=
  render_pathParts (hasPrefix_keyPath e)

theorem cleanPath_render' {q : List String} (nonempty : q ≠ []) (good : ∀ x ∈ q, Component x) : CleanPath (render q) := by
  rw [CleanPath, pathParts_render nonempty good]
  exact fun member => (good "" member).1 rfl

/-- The part of the loop invariant that needs nothing of the snapshot but clean keys. -/
structure SyncLinked (ft₀ : FileTree) (st : SyncState) : Prop where
  linked : Linked st.ft
  next : ft₀.next ≤ st.ft.next
  fullPath : ∀ m, m < ft₀.next → (st.ft.node m).fullPath = (ft₀.node m).fullPath
  old : ∀ p n, st.oldNodes.lookup p = some n → ∃ q, q ≠ [] ∧ ft₀.nodeAt q = some n ∧ render q = p

theorem NodeUpdate.linked {ft ft' : FileTree} {n : NodeRef} {f : FileNode → FileNode} {row : Row}
    (update : NodeUpdate ft ft' n f row) (linked : Linked ft) (children : (f (ft.node n)).children = (ft.node n).children)
    (name : (f (ft.node n)).name = (ft.node n).name) (parent : (f (ft.node n)).parent = (ft.node n).parent)
    (fullPath : (f (ft.node n)).fullPath = (ft.node n).fullPath) : Linked ft' ∧ ft'.edge = ft.edge := by
  have edges : ft'.edge = ft.edge := by
    funext m x
    unfold edge
    by_cases here : m = n
    · rw [here, update.self, children]
    · rw [update.others m here]
  refine ⟨linked.congr edges update.next fun m => ?_, edges⟩
  by_cases here : m = n
  · rw [here, update.self]
    exact ⟨name, parent, fullPath⟩
  · rw [update.others m here]
    exact ⟨rfl, rfl, rfl⟩

theorem lookup_erase_some {m : Go.Map String NodeRef} {p path : String} {n : NodeRef} :
    AList.lookup p (m.erase path) = some n ↔ m.lookup p = some n ∧ p ≠ path := by
  by_cases same : p = path
  · subst same
    rw [AList.lookup_erase]
    simp
  · rw [AList.lookup_erase_ne same]
    simp [same]

theorem syncEntry_new {inp : SyncInput} {st : SyncState} {e : String × FileMetadata}
    (unknown : st.oldNodes.lookup (keyPath e) = none) :
    syncEntry inp st e =
      { ft := (syncNew inp (keyPath e) e.2.statMd st.ft st.fileSize).1
        fileSize := (syncNew inp (keyPath e) e.2.statMd st.ft st.fileSize).2
        oldNodes := st.oldNodes.erase (keyPath e) } := by
  simp only [syncEntry, unknown]

theorem syncEntry_old {inp : SyncInput} {st : SyncState} {e : String × FileMetadata} {n : NodeRef}
    (known : st.oldNodes.lookup (keyPath e) = some n) :
    syncEntry inp st e =
      { ft := (syncOld inp (keyPath e) e.2.statMd n st.ft st.fileSize).1
        fileSize := (syncOld inp (keyPath e) e.2.statMd n st.ft st.fileSize).2
        oldNodes := st.oldNodes.erase (keyPath e) } := by
  simp only [syncEntry, known]

theorem syncEntry_linked {inp : SyncInput} {ft₀ : FileTree} {st : SyncState} (inv : SyncLinked ft₀ st)
    {e : String × FileMetadata} (clean : CleanPath (keyPath e)) : SyncLinked ft₀ (syncEntry inp st e) := by
  have old : ∀ p n, (syncEntry inp st e).oldNodes.lookup p = some n →
      ∃ q, q ≠ [] ∧ ft₀.nodeAt q = some n ∧ render q = p :=
    fun p n found => inv.old p n (lookup_erase_some.mp found).1
  cases known : st.oldNodes.lookup (keyPath e) with
  | none =>
    rw [syncEntry_new known] at old ⊢
    obtain ⟨n, spec⟩ := @syncNew_spec inp (keyPath e) clean e.2.statMd st.ft inv.linked st.fileSize
    generalize syncNew inp (keyPath e) e.2.statMd st.ft st.fileSize = r at spec old ⊢
    refine ⟨spec.linked, Nat.le_trans inv.next spec.next, fun m low => ?_, old⟩
    have low' := Nat.lt_of_lt_of_le low inv.next
    rw [← inv.fullPath m low]
    by_cases here : m = n
    · subst here
      exact spec.fullPath low'
    · have same := congrArg FileNode.fullPath (spec.old m low' here)
      exact same
  | some n =>
    rw [syncEntry_old known] at old ⊢
    have update := syncOld_update inp (keyPath e) e.2.statMd n st.ft st.fileSize
    generalize syncOld inp (keyPath e) e.2.statMd n st.ft st.fileSize = r at update old ⊢
    refine ⟨(update.linked inv.linked rfl rfl rfl rfl).1, ?_, fun m low => ?_, old⟩
    · exact Nat.le_trans inv.next (Nat.le_of_eq update.next.symm)
    · rw [← inv.fullPath m low]
      by_cases here : m = n
      · subst here
        have same := congrArg FileNode.fullPath update.self
        exact same
      · exact congrArg FileNode.fullPath (update.others m here)

theorem syncEntries_linked {inp : SyncInput} {ft₀ : FileTree} (es : List (String × FileMetadata))
    (clean : ∀ e ∈ es, CleanPath (keyPath e)) {st : SyncState} (inv : SyncLinked ft₀ st) :
    SyncLinked ft₀ (es.foldl (syncEntry inp) st) := by
  induction es generalizing st with
  | nil => exact inv
  | cons e es ih =>
    exact ih (fun e' member => clean e' (List.mem_cons_of_mem _ member)) (syncEntry_linked inv (clean e List.mem_cons_self))

theorem syncStart_linked {ft : FileTree} (linked : Linked ft) (sizes : FileSizes) :
    SyncLinked ft { ft, fileSize := sizes, oldNodes := collectOld ft.next ft root ∅ } :=
  ⟨linked, Nat.le_refl _, fun _ _ => rfl, fun _ _ found => (lookup_collectOld linked).mp found⟩

theorem syncSweep_linked {ft₀ ft : FileTree} (linked : Linked ft) (linked₀ : Linked ft₀)
    (fullPath : ∀ m, m < ft₀.next → (ft.node m).fullPath = (ft₀.node m).fullPath)
    {e : String × NodeRef} (old : ∃ q, q ≠ [] ∧ ft₀.nodeAt q = some e.2 ∧ render q = e.1) :
    Linked (syncSweep ft e) ∧ ∀ m, m < ft₀.next → ((syncSweep ft e).node m).fullPath = (ft₀.node m).fullPath := by
  obtain ⟨q, nonempty, found, _⟩ := old
  have path : (ft.node e.2).fullPath = render q := by
    rw [fullPath e.2 (linked₀.allocated found), linked₀.fullPath found]
  have clean : CleanPath (ft.node e.2).fullPath := by
    rw [path]
    exact cleanPath_render' nonempty (linked₀.components found)
  refine ⟨linked.removeNode clean, fun m low => ?_⟩
  rw [← fullPath m low, syncSweep, removeNodeLocked_eq ft clean]
  cases present : ft.nodeAt (pathParts (ft.node e.2).fullPath) with
  | none => rfl
  | some n =>
    obtain ⟨s, x, parts⟩ := pathParts_concat (ft.node e.2).fullPath
    rw [parts] at present
    have same := detach_same linked present
    dsimp only
    rw [(removeNodeFromCidLists_node (ft.detach n) n).1, same.node m]

theorem Linked.syncTree {ft : FileTree} (linked : Linked ft) (visit sweep : Go.RangeOrder) {inp : SyncInput}
    (clean : ∀ e ∈ inp.fsMd.items, CleanPath (keyPath e)) : Linked (syncTree visit sweep inp ft).1 := by
  have first := @syncEntries_linked inp ft (visit.arrange inp.fsMd.items)
    (fun e member => clean e ((visit.perm _).mem_iff.mp member)) _ (syncStart_linked linked inp.hmcfg.fileSize)
  unfold DfsFuzz.Tree.syncTree
  dsimp only
  generalize (visit.arrange inp.fsMd.items).foldl (syncEntry inp) _ = st at first
  have sweeps : ∀ (es : List (String × NodeRef)) (ft' : FileTree),
      (∀ e ∈ es, ∃ q, q ≠ [] ∧ ft.nodeAt q = some e.2 ∧ render q = e.1) → Linked ft' →
      (∀ m, m < ft.next → (ft'.node m).fullPath = (ft.node m).fullPath) → Linked (es.foldl syncSweep ft') := by
    intro es
    induction es with
    | nil => exact fun ft' _ linked' _ => linked'
    | cons e es ih =>
      intro ft' old linked' paths
      obtain ⟨next, paths'⟩ := syncSweep_linked linked' linked paths (old e List.mem_cons_self)
      exact ih _ (fun e' member => old e' (List.mem_cons_of_mem _ member)) next paths'
  refine sweeps _ _ (fun e member => ?_) first.linked first.fullPath
  exact first.old e.1 e.2 (Go.Map.mem_items.mp ((sweep.perm _).mem_iff.mp member))

/-! ### Every reachable tree -/

def HmdfsConfig.entries (hmcfg : HmdfsConfig) : List (String × FileNodeType) :=
  let typed := fun (type : FileNodeType) (m : Go.Map String (List String)) =>
    m.items.flatMap fun e => e.2.map fun path => (path, type)
  typed .file hmcfg.initFile ++ typed .dir hmcfg.initDir ++ typed .tmpDir hmcfg.initTmpdir ++
    typed .emptyDir hmcfg.initEmptyDir ++ typed .file hmcfg.fileInPersistenceDir

/-- The trees that runs of the operations build, on paths without empty components. -/
inductive Reachable : FileTree → Prop
  | new : Reachable newFileTree
  | addNode {ft : FileTree} (built : Reachable ft) {path : String} (clean : CleanPath path) (type : FileNodeType)
      (cid : String) : Reachable (ft.addNode path type cid)
  | removeNode {ft : FileTree} (built : Reachable ft) {path : String} (clean : CleanPath path) :
      Reachable (ft.removeNode path)
  | renameNode {ft : FileTree} (built : Reachable ft) {oldPath newPath : String} (cleanOld : CleanPath oldPath)
      (cleanNew : CleanPath newPath) : Reachable (ft.renameNode oldPath newPath).1
  | updateNodeSize {ft : FileTree} (built : Reachable ft) (path : String) (size : UInt64) :
      Reachable (ft.updateNodeSize path size)
  | initFromHmdfsConfig {ft : FileTree} (built : Reachable ft) {hmcfg : HmdfsConfig}
      (clean : ∀ entry ∈ hmcfg.entries, CleanPath entry.1) : Reachable (ft.initFromHmdfsConfig hmcfg)
  | syncFileTreeFromFsMd {ft : FileTree} (built : Reachable ft) (visit sweep : Go.RangeOrder) {inp : SyncInput}
      (clean : ∀ e ∈ inp.fsMd.items, CleanPath (keyPath e)) : Reachable (syncTree visit sweep inp ft).1

theorem Linked.updateNodeSize {ft : FileTree} (linked : Linked ft) (path : String) (size : UInt64) :
    Linked (ft.updateNodeSize path size) := by
  unfold FileTree.updateNodeSize
  split
  · split
    · exact linked.modify _ rfl rfl rfl rfl
    · exact linked
  · exact linked

theorem initEach_induct {P : FileTree → Prop} {entry : String → FileTree → String → FileTree} {m : Go.Map String (List String)}
    (step : ∀ cid ft path, (∃ e ∈ m.items, path ∈ e.2) → P ft → P (entry cid ft path)) {ft : FileTree} (start : P ft) :
    P (initEach entry m ft) := by
  have inner : ∀ (cid : String) (paths : List String), (∀ path ∈ paths, ∃ e ∈ m.items, path ∈ e.2) → ∀ ft, P ft →
      P (paths.foldl (entry cid) ft) := by
    intro cid paths
    induction paths with
    | nil => exact fun _ ft here => here
    | cons path paths ih =>
      intro listed ft here
      exact ih (fun p member => listed p (List.mem_cons_of_mem _ member)) _
        (step cid ft path (listed path List.mem_cons_self) here)
  have outer : ∀ es : List (String × List String), (∀ e ∈ es, e ∈ m.items) → ∀ ft, P ft →
      P (es.foldl (fun ft e => e.2.foldl (entry e.1) ft) ft) := by
    intro es
    induction es with
    | nil => exact fun _ ft here => here
    | cons e es ih =>
      intro listed ft here
      refine ih (fun e member => listed e (List.mem_cons_of_mem _ member)) _ (inner e.1 e.2 (fun path member => ?_) ft here)
      exact ⟨e, listed e List.mem_cons_self, member⟩
  exact outer m.items (fun _ member => member) ft start

/-- What holds through the additions and the assignments of sizes holds through
`InitFromHmdfsConfig`. -/
theorem initFromHmdfsConfig_induct {P : FileTree → Prop} {hmcfg : HmdfsConfig}
    (add : ∀ ft path type cid, (path, type) ∈ hmcfg.entries → P ft → P (ft.addNode path type cid))
    (resize : ∀ ft n size, P ft → P (ft.modify n fun nd => { nd with size := size })) {ft : FileTree} (start : P ft) :
    P (ft.initFromHmdfsConfig hmcfg) := by
  have files : ∀ m : Go.Map String (List String), (∀ e ∈ m.items, ∀ path ∈ e.2, (path, .file) ∈ hmcfg.entries) →
      ∀ ft, P ft → P (initEach (initFileEntry hmcfg.fileSize) m ft) := by
    intro m member ft here
    refine initEach_induct ?_ here
    rintro cid ft path ⟨e, inside, listed⟩ here
    have added := add ft path .file cid (member e inside path listed) here
    unfold initFileEntry
    dsimp only
    split
    · exact resize _ _ _ added
    · exact added
  have dirs : ∀ (type : FileNodeType) (m : Go.Map String (List String)),
      (∀ e ∈ m.items, ∀ path ∈ e.2, (path, type) ∈ hmcfg.entries) →
      ∀ ft, P ft → P (initEach (initDirEntry type) m ft) := by
    intro type m member ft here
    refine initEach_induct ?_ here
    rintro cid ft path ⟨e, inside, listed⟩ here
    exact add ft path type cid (member e inside path listed) here
  have listed : ∀ {type : FileNodeType} {m : Go.Map String (List String)} {path : String}, ∀ e ∈ m.items, path ∈ e.2 →
      (path, type) ∈ m.items.flatMap fun e => e.2.map fun path => (path, type) :=
    fun e inside member => List.mem_flatMap.mpr ⟨e, inside, List.mem_map.mpr ⟨_, member, rfl⟩⟩
  unfold FileTree.initFromHmdfsConfig
  refine files _ ?_ _ (dirs _ _ ?_ _ (dirs _ _ ?_ _ (dirs _ _ ?_ _ (files _ ?_ _ start))))
  all_goals
    intro e inside path member
    unfold HmdfsConfig.entries
    simp only [List.mem_append]
  · exact Or.inr (listed e inside member)
  · exact Or.inl (Or.inr (listed e inside member))
  · exact Or.inl (Or.inl (Or.inr (listed e inside member)))
  · exact Or.inl (Or.inl (Or.inl (Or.inr (listed e inside member))))
  · exact Or.inl (Or.inl (Or.inl (Or.inl (listed e inside member))))

theorem Reachable.linked {ft : FileTree} (built : Reachable ft) : Linked ft := by
  induction built with
  | new => exact newFileTree_linked
  | addNode _ clean type cid ih => exact ih.addNode clean type cid
  | removeNode _ clean ih => exact ih.removeNode clean
  | renameNode _ cleanOld cleanNew ih => exact ih.renameNode cleanOld cleanNew
  | updateNodeSize _ path size ih => exact ih.updateNodeSize path size
  | initFromHmdfsConfig _ clean ih =>
    refine initFromHmdfsConfig_induct ?_ ?_ ih
    · exact fun ft path type cid member linked => linked.addNode (clean _ member) type cid
    · exact fun ft n size linked => linked.modify n rfl rfl rfl rfl
  | syncFileTreeFromFsMd _ visit sweep clean ih => exact ih.syncTree visit sweep clean

def InTree (ft : FileTree) (n : NodeRef) : Prop := ∃ q, ft.nodeAt q = some n

structure PathsConsistent (ft : FileTree) : Prop where
  child : ∀ p x n, InTree ft p → ft.edge p x = some n →
    (ft.node n).name = x ∧ (ft.node n).parent = some p ∧
      (ft.node n).fullPath = (ft.node p).fullPath ++ "/" ++ (ft.node n).name ∧ ft.findNode (ft.node n).fullPath = some n
  parent : ∀ n, InTree ft n → n ≠ root → ∃ p, InTree ft p ∧ ft.edge p (ft.node n).name = some n
  injective : ∀ n n', InTree ft n → InTree ft n' → (ft.node n).fullPath = (ft.node n').fullPath → n = n'
  absent : ∀ path, Go.hasPrefix path mergeViewPrefix = true → CleanPath path →
    (ft.findNode path = none ↔ ∀ n, InTree ft n → (ft.node n).fullPath ≠ path)

theorem Linked.findNode_render {ft : FileTree} (linked : Linked ft) {q : List String} (nonempty : q ≠ []) {n : NodeRef}
    (found : ft.nodeAt q = some n) : ft.findNode (render q) = some n := by
  have good := linked.components found
  rw [findNode_eq ft (cleanPath_render' nonempty good), pathParts_render nonempty good, found]

theorem Linked.pathsConsistent {ft : FileTree} (linked : Linked ft) : PathsConsistent ft := by
  constructor
  · rintro p x n ⟨q, reached⟩ step
    have found : ft.nodeAt (q ++ [x]) = some n := by rw [nodeAt_concat, reached, Option.bind_some, step]
    have link := linked.link q x n found
    refine ⟨link.name, by rw [link.parent, reached], ?_, ?_⟩
    · rw [link.fullPath, link.name, linked.fullPath reached, render_concat]
    · rw [link.fullPath]
      exact linked.findNode_render (by simp) found
  · rintro n ⟨q, found⟩ below
    rcases List.eq_nil_or_concat' q with rfl | ⟨s, x, rfl⟩
    · exact absurd (Option.some.inj found).symm below
    · obtain ⟨p, reached, step⟩ := Linked.edge_of_concat found
      exact ⟨p, ⟨s, reached⟩, by rw [(linked.link s x n found).name, step]⟩
  · rintro n n' ⟨q, found⟩ ⟨q', found'⟩ same
    rw [linked.fullPath found, linked.fullPath found'] at same
    obtain rfl := render_injective (linked.components found) (linked.components found') same
    exact Option.some.inj (found.symm.trans found')
  · intro path below clean
    rw [findNode_eq ft clean]
    constructor
    · rintro missing n ⟨q, found⟩ rfl
      rw [linked.fullPath found] at below missing clean
      rcases eq_or_ne q [] with rfl | nonempty
      · exact absurd below (by decide)
      · rw [pathParts_render nonempty (linked.components found), found] at missing
        cases missing
    · intro none
      cases found : ft.nodeAt (pathParts path) with
      | none => rfl
      | some n => exact absurd ((linked.fullPath found).trans (render_pathParts below)) (none n ⟨_, found⟩)

theorem reachable_pathsConsistent {ft : FileTree} (built : Reachable ft) : PathsConsistent ft := built.linked.pathsConsistent

theorem reachable_pathsConsistent_run :
    PathsConsistent (syncTree .stored .reversed { fsMd := (∅ : FsMd).insert "./b" {}, ownerMap := ∅, hmcfg := {} }
      ((((((newFileTree.addNode "merge_view/a/f" .file "c1").addNode "merge_view/b" .dir "c2").renameNode
        "merge_view/a" "merge_view/b").1.renameNode "merge_view/b" "merge_view/x/y").1.addNode
        "merge_view/d/e/g" .file "c1").removeNode "merge_view/d/e")).1 := by
  refine reachable_pathsConsistent (.syncFileTreeFromFsMd (.removeNode (.addNode (.renameNode (.renameNode
    (.addNode (.addNode .new ?_ _ _) ?_ _ _) ?_ ?_) ?_ ?_) ?_ _ _) ?_) _ _ ?_)
  all_goals decide

end DfsFuzz.Tree
