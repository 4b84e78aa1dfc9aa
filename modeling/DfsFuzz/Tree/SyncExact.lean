import DfsFuzz.Tree.SyncSweep

/-! What the tree is after a sync, and that a second sync with the same snapshot finds nothing to do. -/

namespace DfsFuzz.Tree

open FileTree

/-! ### Listed nodes are allocated -/

theorem ListedAllocated.addNode {ft : FileTree} (listed : ListedAllocated ft) (linked : Linked ft) {path : String}
    (clean : CleanPath path) (type : FileNodeType) (cid : String) : ListedAllocated (ft.addNode path type cid) := by
  obtain ⟨n, _, spec⟩ := addNodeLocked_spec linked clean type cid
  intro m free
  have other : m ≠ n := Nat.ne_of_gt (Nat.lt_of_lt_of_le (spec.linked.allocated spec.found) free)
  exact (spec.rows.2 m other).trans (listed m (Nat.le_trans spec.next free))

theorem ListedAllocated.removeNode {ft : FileTree} (listed : ListedAllocated ft) (linked : Linked ft) {path : String}
    (clean : CleanPath path) : ListedAllocated (ft.removeNode path) := by
  rw [FileTree.removeNode, removeNodeLocked_eq ft clean]
  cases found : ft.nodeAt (pathParts path) with
  | none => exact listed
  | some n =>
    obtain ⟨_, _, next, _, _, rows⟩ := remove_spec linked (pathParts_ne_nil path) found
    intro m free
    have free : ft.next ≤ m := next ▸ free
    have other : m ≠ n := Nat.ne_of_gt (Nat.lt_of_lt_of_le (linked.allocated found) free)
    exact (rows m other).trans (listed m free)

theorem ListedAllocated.same {ft ft' : FileTree} (listed : ListedAllocated ft) (next : ft'.next = ft.next)
    (nodes : ft'.nodesByCid = ft.nodesByCid) (files : ft'.filesByCid = ft.filesByCid)
    (dirs : ft'.dirsByCid = ft.dirsByCid) : ListedAllocated ft' :=
  fun m free => (row_congr nodes files dirs m).trans (listed m (next ▸ free))

theorem ListedAllocated.renameNode {ft : FileTree} (listed : ListedAllocated ft) (linked : Linked ft)
    {oldPath newPath : String} (cleanOld : CleanPath oldPath) (cleanNew : CleanPath newPath) :
    ListedAllocated (ft.renameNode oldPath newPath).1 := by
  obtain ⟨q, x, parts⟩ := pathParts_concat oldPath
  rcases renameNode_cases ft cleanOld cleanNew with ⟨_, result⟩ | ⟨c, found, ⟨_, result⟩ | ⟨p, parent, result⟩⟩
  · rw [result]
    exact listed
  · rw [parts] at found
    have same := detach_same linked found
    rw [result]
    exact listed.same same.next same.nodes same.files same.dirs
  · rw [parts] at found
    have spec := reattached_spec linked found parent cleanNew.getLast.1
    rw [result]
    exact listed.same spec.next spec.nodes spec.files spec.dirs

theorem ListedAllocated.updateNodeSize {ft : FileTree} (listed : ListedAllocated ft) (path : String) (size : UInt64) :
    ListedAllocated (ft.updateNodeSize path size) := by
  unfold FileTree.updateNodeSize
  split
  · split
    · exact listed.same rfl rfl rfl rfl
    · exact listed
  · exact listed

theorem syncEntry_listed {inp : SyncInput} {ft₀ : FileTree} (linked₀ : Linked ft₀) {st : SyncState}
    (inv : SyncLinked ft₀ st) (listed : ListedAllocated st.ft) {e : String × FileMetadata} (clean : CleanPath (keyPath e)) :
    ListedAllocated (syncEntry inp st e).ft := by
  cases known : st.oldNodes.lookup (keyPath e) with
  | none =>
    obtain ⟨n, spec⟩ := @syncNew_spec inp (keyPath e) clean e.2.statMd st.ft inv.linked st.fileSize
    rw [syncEntry_new known]
    generalize syncNew inp (keyPath e) e.2.statMd st.ft st.fileSize = r at spec ⊢
    intro m free
    have other : m ≠ n := Nat.ne_of_gt (Nat.lt_of_lt_of_le (spec.linked.allocated spec.found) free)
    exact (spec.rows m other).trans (listed m (Nat.le_trans spec.next free))
  | some n =>
    obtain ⟨q, _, found, _⟩ := inv.old _ n known
    have update := syncOld_update inp (keyPath e) e.2.statMd n st.ft st.fileSize
    rw [syncEntry_old known]
    generalize syncOld inp (keyPath e) e.2.statMd n st.ft st.fileSize = r at update ⊢
    intro m free
    have free : st.ft.next ≤ m := update.next ▸ free
    have other : m ≠ n := Nat.ne_of_gt (Nat.lt_of_lt_of_le (linked₀.allocated found) (Nat.le_trans inv.next free))
    exact (update.row_others m other).trans (listed m free)

theorem syncEntries_listed {inp : SyncInput} {ft₀ : FileTree} (linked₀ : Linked ft₀) (es : List (String × FileMetadata))
    (clean : ∀ e ∈ es, CleanPath (keyPath e)) {st : SyncState} (inv : SyncLinked ft₀ st) (listed : ListedAllocated st.ft) :
    ListedAllocated (es.foldl (syncEntry inp) st).ft := by
  induction es generalizing st with
  | nil => exact listed
  | cons e es ih =>
    have here := clean e List.mem_cons_self
    exact ih (fun e' member => clean e' (List.mem_cons_of_mem _ member)) (syncEntry_linked inv here)
      (syncEntry_listed linked₀ inv listed here)

theorem syncSweep_listed {ft : FileTree} (listed : ListedAllocated ft) (e : String × NodeRef) :
    ListedAllocated (syncSweep ft e) := by
  unfold syncSweep removeNodeLocked
  split
  · exact listed
  · split
    · exact listed
    · rename_i n _
      obtain ⟨next, rows⟩ := detach_lists ft n
      intro m free
      have free : ft.next ≤ m := by
        have same := (removeNodeFromCidLists_node (ft.detach n) n).2.trans next
        exact same ▸ free
      exact removeNodeFromCidLists_zero n ((rows m).trans (listed m free))

theorem ListedAllocated.syncTree {ft : FileTree} (listed : ListedAllocated ft) (linked : Linked ft)
    (visit sweep : Go.RangeOrder) {inp : SyncInput} (clean : ∀ e ∈ inp.fsMd.items, CleanPath (keyPath e)) :
    ListedAllocated (syncTree visit sweep inp ft).1 := by
  have first := @syncEntries_listed inp ft linked (visit.arrange inp.fsMd.items)
    (fun e member => clean e ((visit.perm _).mem_iff.mp member)) _ (syncStart_linked linked inp.hmcfg.fileSize) listed
  unfold DfsFuzz.Tree.syncTree
  dsimp only
  generalize (visit.arrange inp.fsMd.items).foldl (syncEntry inp) _ = st at first
  generalize sweep.arrange st.oldNodes.items = es
  induction es using List.reverseRecOn with
  | nil => exact first
  | append_singleton es e ih =>
    rw [List.foldl_append]
    exact syncSweep_listed ih e

theorem Reachable.listed {ft : FileTree} (built : Reachable ft) : ListedAllocated ft := by
  induction built with
  | new => exact fun _ _ => rfl
  | addNode built clean type cid ih => exact ih.addNode built.linked clean type cid
  | removeNode built clean ih => exact ih.removeNode built.linked clean
  | renameNode built cleanOld cleanNew ih => exact ih.renameNode built.linked cleanOld cleanNew
  | updateNodeSize _ path size ih => exact ih.updateNodeSize path size
  | initFromHmdfsConfig built clean ih =>
    refine (initFromHmdfsConfig_induct (P := fun ft => Linked ft ∧ ListedAllocated ft) ?_ ?_ ⟨built.linked, ih⟩).2
    · exact fun ft path type cid member here =>
        ⟨here.1.addNode (clean _ member) type cid, here.2.addNode here.1 (clean _ member) type cid⟩
    · exact fun ft n size here => ⟨here.1.modify n rfl rfl rfl rfl, here.2.same rfl rfl rfl rfl⟩
  | syncFileTreeFromFsMd built visit sweep clean ih => exact ih.syncTree built.linked visit sweep clean

/-! ### A sync with nothing to do -/

structure Settled (inp : SyncInput) (e : String × FileMetadata) (nd : FileNode) : Prop where
  type : resolveNodeType inp.paths nd.type e.2.statMd (keyPath e) = nd.type
  owner : (inp.ownerMap.lookup (keyPath e)).getD nd.ownerCid = nd.ownerCid
  size : nd.type = .file → nd.size = e.2.statMd.size.toUInt64

theorem syncOld_settled {inp : SyncInput} {e : String × FileMetadata} {n : NodeRef} {ft : FileTree}
    (settled : Settled inp e (ft.node n)) (sizes : FileSizes) :
    syncOld inp (keyPath e) e.2.statMd n ft sizes = (ft, sizes) := by
  unfold syncOld
  simp only [settled.type, settled.owner, ne_eq, not_true_eq_false, if_false, or_self, false_or]
  rw [if_neg]
  rintro ⟨file, resized⟩
  exact resized (settled.size file)

theorem syncEntries_settled {inp : SyncInput} {ft : FileTree} {sizes : FileSizes} (es : List (String × FileMetadata))
    (distinct : (es.map keyPath).Nodup) {old : Go.Map String NodeRef}
    (known : ∀ e ∈ es, ∃ n, old.lookup (keyPath e) = some n ∧ Settled inp e (ft.node n))
    (only : ∀ p n, old.lookup p = some n → p ∈ es.map keyPath) :
    ∃ old', es.foldl (syncEntry inp) { ft, fileSize := sizes, oldNodes := old } = { ft, fileSize := sizes, oldNodes := old' } ∧
      ∀ p, old'.lookup p = none := by
  induction es generalizing old with
  | nil =>
    refine ⟨old, rfl, fun p => ?_⟩
    cases found : old.lookup p with
    | none => rfl
    | some n => exact absurd (only p n found) List.not_mem_nil
  | cons e es ih =>
    obtain ⟨absent, distinct⟩ := List.nodup_cons.mp distinct
    obtain ⟨n, here, settled⟩ := known e List.mem_cons_self
    have step : syncEntry inp { ft, fileSize := sizes, oldNodes := old } e =
        { ft, fileSize := sizes, oldNodes := old.erase (keyPath e) } := by
      rw [syncEntry_old here, syncOld_settled settled]
    rw [List.foldl_cons, step]
    refine ih distinct (fun e' member => ?_) fun p m found => ?_
    · obtain ⟨m, there, settled'⟩ := known e' (List.mem_cons_of_mem _ member)
      refine ⟨m, lookup_erase_some.mpr ⟨there, fun same => absent ?_⟩, settled'⟩
      exact List.mem_map.mpr ⟨e', member, same⟩
    · obtain ⟨found, different⟩ := lookup_erase_some.mp found
      exact (List.mem_cons.mp (only p m found)).resolve_left different

theorem syncTree_settled {inp : SyncInput} (keys : SnapshotKeys inp) {ft : FileTree} (linked : Linked ft)
    (paths : ∀ q, q ≠ [] → ((∃ m, ft.nodeAt q = some m) ↔ ∃ e ∈ inp.fsMd.items, keyParts e = q))
    (settled : ∀ e ∈ inp.fsMd.items, ∀ m, ft.nodeAt (keyParts e) = some m → Settled inp e (ft.node m))
    (visit sweep : Go.RangeOrder) : syncTree visit sweep inp ft = (ft, inp.hmcfg.fileSize) := by
  have order := visit.perm inp.fsMd.items
  have known : ∀ e ∈ visit.arrange inp.fsMd.items, ∃ n,
      (collectOld ft.next ft root ∅).lookup (keyPath e) = some n ∧ Settled inp e (ft.node n) := by
    intro e member
    have member := order.mem_iff.mp member
    obtain ⟨m, here⟩ := (paths _ (pathParts_ne_nil _)).mpr ⟨e, member, rfl⟩
    exact ⟨m, (lookup_collectOld linked).mpr ⟨_, pathParts_ne_nil _, here, render_keyPath e⟩, settled e member m here⟩
  have only : ∀ p n, (collectOld ft.next ft root ∅).lookup p = some n → p ∈ (visit.arrange inp.fsMd.items).map keyPath := by
    intro p n found
    obtain ⟨q, nonempty, here, rfl⟩ := (lookup_collectOld linked).mp found
    obtain ⟨e, member, rfl⟩ := (paths q nonempty).mp ⟨n, here⟩
    exact List.mem_map.mpr ⟨e, order.mem_iff.mpr member, (render_keyPath e).symm⟩
  obtain ⟨old', loop, none⟩ := @syncEntries_settled inp ft inp.hmcfg.fileSize (visit.arrange inp.fsMd.items)
    ((order.map keyPath).nodup_iff.mpr keys.distinct) _ known only
  have empty : old'.items = [] := by
    refine List.eq_nil_iff_forall_not_mem.mpr fun e member => ?_
    have found : old'.lookup e.1 = some e.2 := Go.Map.mem_items.mp member
    rw [none] at found
    cases found
  unfold syncTree
  dsimp only
  rw [loop, empty, List.perm_nil.mp (sweep.perm [])]
  rfl

/-! ### After a sync -/

theorem resolveNodeType_resolved (paths : List String) (type : FileNodeType) (stat : Stat) (path : String) :
    resolveNodeType paths (resolveNodeType paths type stat path) stat path = resolveNodeType paths type stat path := by
  unfold resolveNodeType
  by_cases tmp : type = .tmpDir
  · simp [tmp]
  · simp only [tmp, if_false]
    split <;> rfl

theorem snapshotType_resolved (paths : List String) (stat : Stat) (path : String) :
    resolveNodeType paths (snapshotType paths stat path) stat path = snapshotType paths stat path :=
  resolveNodeType_resolved paths .file stat path

/-- A file that is new to the tree has no negative size. -/
def NewSizesValid (inp : SyncInput) (ft : FileTree) : Prop :=
  ∀ e ∈ inp.fsMd.items, ft.findNode (keyPath e) = none → determineNodeType e.2.statMd = .file → 0 ≤ e.2.statMd.size

instance (inp : SyncInput) (ft : FileTree) : Decidable (NewSizesValid inp ft) :=
  inferInstanceAs (Decidable (∀ e ∈ inp.fsMd.items, ft.findNode (keyPath e) = none →
    determineNodeType e.2.statMd = .file → 0 ≤ e.2.statMd.size))

theorem SyncResult.settled {inp : SyncInput} (keys : SnapshotKeys inp) {ft ft' : FileTree} {gone : List (List String)}
    (result : SyncResult inp ft gone ft') (valid : NewSizesValid inp ft) {e : String × FileMetadata}
    (member : e ∈ inp.fsMd.items) {m : NodeRef} (here : ft'.nodeAt (keyParts e) = some m) : Settled inp e (ft'.node m) := by
  cases before : ft.nodeAt (keyParts e) with
  | some k =>
    obtain ⟨here', data, _⟩ := result.updated e member k before
    obtain rfl := Option.some.inj (here'.symm.trans here)
    simp only [FileNode.data, syncedNode, Prod.mk.injEq] at data
    obtain ⟨type, owner, size⟩ := data
    refine ⟨?_, ?_, fun file => ?_⟩
    · rw [type, resolveNodeType_resolved]
    · rw [owner]
      cases inp.ownerMap.lookup (keyPath e) <;> rfl
    · rw [size, ← type, if_pos (Or.inl file)]
  | none =>
    have made := result.created e member before m here
    refine ⟨?_, ?_, fun file => ?_⟩
    · rw [made.type, snapshotType_resolved]
    · rw [made.owner, resolveCidForPath]
      cases inp.ownerMap.lookup (keyPath e) <;> rfl
    · rw [made.size]
      by_cases positive : e.2.statMd.size > 0
      · rw [if_pos ⟨file, positive⟩]
      · have kind : determineNodeType e.2.statMd = .file := by
          have type := made.type
          rw [file] at type
          unfold snapshotType at type
          dsimp only at type
          split at type
          · cases type
          · exact type.symm
        have least := valid e member (by rw [findNode_eq ft (keys.clean e member)]; exact before) kind
        have zero : e.2.statMd.size = 0 := Int64.le_antisymm (Int64.not_lt.mp positive) least
        rw [if_neg fun both => positive both.2, zero]
        rfl

structure TypedBy (fsMd : FsMd) (e : String × FileMetadata) (type : FileNodeType) : Prop where
  file : determineNodeType e.2.statMd = .file → type = .file
  dir : determineNodeType e.2.statMd = .dir →
    (∃ e' ∈ fsMd.items, keyParts e <+: keyParts e' ∧ keyParts e ≠ keyParts e') → type = .dir
  emptyDir : determineNodeType e.2.statMd = .dir →
    (∀ e' ∈ fsMd.items, ¬ (keyParts e <+: keyParts e' ∧ keyParts e ≠ keyParts e')) → type = .emptyDir

theorem isDirEmpty_iff {inp : SyncInput} (clean : ∀ e ∈ inp.fsMd.items, CleanPath (keyPath e)) {e : String × FileMetadata}
    (member : e ∈ inp.fsMd.items) : isDirEmpty inp.paths (keyPath e) = true ↔
      ∀ e' ∈ inp.fsMd.items, ¬ (keyParts e <+: keyParts e' ∧ keyParts e ≠ keyParts e') := by
  have below : ∀ e' ∈ inp.fsMd.items, (Go.hasPrefix (keyPath e') (keyPath e ++ "/") = true ↔
      keyParts e <+: keyParts e' ∧ keyParts e ≠ keyParts e') := by
    intro e' member'
    have rendered := @hasPrefix_render_slash (keyParts e) (keyParts e') (clean e member).component (clean e' member').component
    simp only [keyParts, render_keyPath] at rendered ⊢
    exact rendered
  unfold isDirEmpty SyncInput.paths
  rw [List.all_map, List.all_eq_true]
  refine forall₂_congr fun e' member' => ?_
  rw [← below e' member']
  simp

theorem snapshotType_typedBy {inp : SyncInput} (clean : ∀ e ∈ inp.fsMd.items, CleanPath (keyPath e))
    {e : String × FileMetadata} (member : e ∈ inp.fsMd.items) :
    TypedBy inp.fsMd e (snapshotType inp.paths e.2.statMd (keyPath e)) := by
  have empty := isDirEmpty_iff clean member
  unfold snapshotType
  refine ⟨fun file => by simp [file], ?_, ?_⟩
  · rintro dir ⟨e', member', below⟩
    have notEmpty : isDirEmpty inp.paths (keyPath e) = false := by
      rw [← Bool.not_eq_true, empty]
      exact fun none => none e' member' below
    simp [dir, notEmpty]
  · intro dir none
    simp [dir, empty.mpr none]

structure SyncExact (fsMd : FsMd) (old new : FileTree) : Prop where
  paths : ∀ p, (∃ n, InTree new n ∧ n ≠ root ∧ (new.node n).fullPath = p) ↔ p ∈ fsMd.items.map keyPath
  tmpDir : ∀ e ∈ fsMd.items, (∃ m, old.findNode (keyPath e) = some m ∧ (old.node m).type = .tmpDir) →
    ∀ n, new.findNode (keyPath e) = some n → (new.node n).type = .tmpDir
  typed : ∀ e ∈ fsMd.items, (¬ ∃ m, old.findNode (keyPath e) = some m ∧ (old.node m).type = .tmpDir) →
    ∀ n, new.findNode (keyPath e) = some n → TypedBy fsMd e (new.node n).type
  sized : ∀ e ∈ fsMd.items, ∀ n, new.findNode (keyPath e) = some n → (new.node n).type = .file →
    (new.node n).size = e.2.statMd.size.toUInt64

theorem SyncResult.exact {inp : SyncInput} (keys : SnapshotKeys inp) {ft ft' : FileTree} {gone : List (List String)}
    (result : SyncResult inp ft gone ft') (valid : NewSizesValid inp ft) : SyncExact inp.fsMd ft ft' := by
  have find : ∀ (ft : FileTree), ∀ e ∈ inp.fsMd.items, ft.findNode (keyPath e) = ft.nodeAt (keyParts e) :=
    fun ft e member => findNode_eq ft (keys.clean e member)
  constructor
  · intro p
    rw [List.mem_map]
    constructor
    · rintro ⟨n, ⟨q, here⟩, notRoot, rfl⟩
      have nonempty : q ≠ [] := by
        rintro rfl
        exact notRoot (Option.some.inj here).symm
      obtain ⟨e, member, rfl⟩ := (result.paths q nonempty).mp ⟨n, here⟩
      exact ⟨e, member, ((result.linked.fullPath here).trans (render_keyPath e)).symm⟩
    · rintro ⟨e, member, rfl⟩
      obtain ⟨n, here⟩ := (result.paths _ (pathParts_ne_nil _)).mpr ⟨e, member, rfl⟩
      refine ⟨n, ⟨_, here⟩, ?_, (result.linked.fullPath here).trans (render_keyPath e)⟩
      rintro rfl
      exact pathParts_ne_nil _ (result.linked.unique here (nodeAt_nil ft'))
  · rintro e member ⟨m, before, tmp⟩ n here
    rw [find _ e member] at before here
    obtain ⟨here', data, _⟩ := result.updated e member m before
    obtain rfl := Option.some.inj (here'.symm.trans here)
    have type := congrArg Prod.fst data
    exact type.trans (if_pos tmp |>.trans tmp)
  · intro e member notTmp n here
    have type : (ft'.node n).type = snapshotType inp.paths e.2.statMd (keyPath e) := by
      rw [find _ e member] at here notTmp
      cases before : ft.nodeAt (keyParts e) with
      | none => exact (result.created e member before n here).type
      | some m =>
        obtain ⟨here', data, _⟩ := result.updated e member m before
        obtain rfl := Option.some.inj (here'.symm.trans here)
        have type := congrArg Prod.fst data
        exact type.trans (if_neg fun tmp => notTmp ⟨m, before, tmp⟩)
    rw [type]
    exact snapshotType_typedBy keys.clean member
  · intro e member n here file
    rw [find _ e member] at here
    exact (result.settled keys valid member here).size file

/-- For every order of the map iterations: the tree is the one of the snapshot, and syncing once
more, in any order, changes neither the tree nor the recorded sizes. -/
theorem syncFileTreeFromFsMd_exact {fsMd : FsMd} {ownerMap : Go.Map String String} {hmcfg : HmdfsConfig}
    (built : Reachable (hmcfg.fileTree.getD newFileTree)) (keys : SnapshotKeys { fsMd, ownerMap, hmcfg })
    (valid : NewSizesValid { fsMd, ownerMap, hmcfg } (hmcfg.fileTree.getD newFileTree)) (visit sweep : Go.RangeOrder) :
    let synced := syncFileTreeFromFsMd visit sweep fsMd ownerMap hmcfg
    (∃ ft, synced.fileTree = some ft ∧ SyncExact fsMd (hmcfg.fileTree.getD newFileTree) ft) ∧
      ∀ visit' sweep', syncFileTreeFromFsMd visit' sweep' fsMd ownerMap synced = synced := by
  obtain ⟨es, _, _, results⟩ := syncTree_result keys built.linked built.listed visit
  have result := results sweep
  unfold syncFileTreeFromFsMd
  dsimp only
  generalize syncTree visit sweep { fsMd, ownerMap, hmcfg } (hmcfg.fileTree.getD newFileTree) = r at result
  refine ⟨⟨r.1, rfl, result.exact keys valid⟩, fun visit' sweep' => ?_⟩
  have again := @syncTree_settled { fsMd, ownerMap, hmcfg := { hmcfg with fileTree := some r.1, fileSize := r.2 } }
    ⟨keys.clean, keys.distinct, keys.closed⟩ r.1 result.linked result.paths ?_ visit' sweep'
  · rw [Option.getD_some, again]
  · intro e member m here
    have settled := result.settled keys valid member here
    exact ⟨settled.type, settled.owner, settled.size⟩

theorem syncFileTreeFromFsMd_exact_sample :
    let fsMd : FsMd := (((∅ : FsMd).insert "./d" { statMd := { mode := 0x4000 } }).insert "./d/g"
      { statMd := { size := 5 } }).insert "./e" { statMd := { mode := 0x4000 } }
    let ft := (newFileTree.addNode "merge_view/d/f" .file "c1").addNode "merge_view/x/y" .dir "c2"
    let synced := syncFileTreeFromFsMd .reversed .stored fsMd ∅ { fileTree := some ft }
    (∃ ft', synced.fileTree = some ft' ∧ SyncExact fsMd ft ft') ∧
      ∀ visit' sweep', syncFileTreeFromFsMd visit' sweep' fsMd ∅ synced = synced := by
  refine syncFileTreeFromFsMd_exact ?_ ⟨?_, ?_, ?_⟩ ?_ _ _
  · exact .addNode (.addNode .new (by decide) _ _) (by decide) _ _
  all_goals decide +kernel

/-- A new file keeps size 0 where the snapshot has a negative size; the next sync writes it. -/
theorem syncFileTreeFromFsMd_negativeSize :
    let fsMd : FsMd := (∅ : FsMd).insert "./f" { statMd := { size := -1 } }
    let synced := syncFileTreeFromFsMd .stored .stored fsMd ∅ {}
    Reachable newFileTree ∧ SnapshotKeys { fsMd, ownerMap := ∅, hmcfg := {} } ∧
      (∀ ft, synced.fileTree = some ft → ¬ SyncExact fsMd newFileTree ft) ∧
      syncFileTreeFromFsMd .stored .stored fsMd ∅ synced ≠ synced := by
  refine ⟨.new, ⟨?_, ?_, ?_⟩, ?_, ?_⟩
  · decide
  · decide
  · decide
  · rintro ft made exact
    obtain rfl := Option.some.inj made
    have size := exact.sized ("./f", { statMd := { size := -1 } }) (Go.Map.mem_items.mpr (AList.lookup_insert _)) 1 (by decide +kernel) (by decide +kernel)
    exact absurd size (by decide +kernel)
  · intro same
    have sizes := congrArg (fun cfg => (cfg.fileTree.getD newFileTree).node 1 |>.size) same
    exact absurd sizes (by decide +kernel)

end DfsFuzz.Tree
