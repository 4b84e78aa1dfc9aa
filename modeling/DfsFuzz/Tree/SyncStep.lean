import DfsFuzz.Tree.Rename
import DfsFuzz.Tree.Rows

/-!
`SyncFileTreeFromFsMd` (`prog/distributed_choice.go`): the tree follows a snapshot. What its parts do to a
linked tree, one step at a time.
-/

namespace DfsFuzz.Tree

open FileTree

/-- The nodes below the root by their full paths. The depth of the tree is below the number of
nodes, which is the fuel its caller gives. -/
def collectOld : Nat → FileTree → NodeRef → Go.Map String NodeRef → Go.Map String NodeRef
  | 0, _, _, acc => acc
  | fuel + 1, ft, r, acc =>
    let acc := if r ≠ root then acc.insert (ft.node r).fullPath r else acc
    (ft.node r).children.items.foldl (fun acc e => collectOld fuel ft e.2 acc) acc

def isDirEmpty (paths : List String) (dirPath : String) : Bool := paths.all fun p => !Go.hasPrefix p (dirPath ++ "/")

def determineNodeType (stat : Stat) : FileNodeType :=
  if stat.mode = 0 then .file else if stat.mode &&& 0x4000 ≠ 0 then .dir else .file

def snapshotType (paths : List String) (stat : Stat) (path : String) : FileNodeType :=
  let nt := determineNodeType stat
  if nt = .dir && isDirEmpty paths path then .emptyDir else nt

def resolveNodeType (paths : List String) (oldType : FileNodeType) (stat : Stat) (path : String) : FileNodeType :=
  if oldType = .tmpDir then oldType else snapshotType paths stat path

def cidOfPath (m : Go.Map String (List String)) (path : String) : Option String :=
  (m.items.find? fun e => e.2.contains path).map Prod.fst

def findCidFromHmcfg (path : String) (hmcfg : HmdfsConfig) : String :=
  let found := (cidOfPath hmcfg.initFile path).or <| (cidOfPath hmcfg.initDir path).or <|
    (cidOfPath hmcfg.initTmpdir path).or <| (cidOfPath hmcfg.initEmptyDir path).or <|
      cidOfPath hmcfg.fileInPersistenceDir path
  found.getD ""

def resolveCidForPath (path : String) (ownerMap : Go.Map String String) (hmcfg : HmdfsConfig) : String :=
  (ownerMap.lookup path).getD (findCidFromHmcfg path hmcfg)

abbrev FileSizes := Go.Map String (Go.Map String UInt64)

def updateFileSizeInHmdfsConfig (path cid : String) (size : UInt64) (fileSize : FileSizes) : FileSizes :=
  fileSize.insert cid ((fileSize.getD cid ∅).insert path size)

structure SyncState where
  ft : FileTree
  fileSize : FileSizes
  oldNodes : Go.Map String NodeRef

structure SyncInput where
  fsMd : FsMd
  ownerMap : Go.Map String String
  hmcfg : HmdfsConfig

def keyPath (e : String × FileMetadata) : String := normalizeMergeViewPath e.1

def SyncInput.paths (inp : SyncInput) : List String := inp.fsMd.items.map keyPath

def syncNew (inp : SyncInput) (path : String) (stat : Stat) (ft : FileTree) (fileSize : FileSizes) : FileTree × FileSizes :=
  let nodeType := snapshotType inp.paths stat path
  let cid := resolveCidForPath path inp.ownerMap inp.hmcfg
  let added := ft.addNodeLocked path nodeType cid
  match added.2 with
  | none => (added.1, fileSize)
  | some n =>
    if nodeType = .file ∧ stat.size > 0 then
      (added.1.modify n fun nd => { nd with size := stat.size.toUInt64 },
        updateFileSizeInHmdfsConfig path cid stat.size.toUInt64 fileSize)
    else (added.1, fileSize)

/-- `removeNodeFromCidLists(oldNode); oldNode.OwnerCid = cid; NodesByCid[cid] = append(...)` -/
def changeOwner (ft : FileTree) (n : NodeRef) (cid : String) : FileTree :=
  let ft := (ft.removeNodeFromCidLists n).modify n fun nd => { nd with ownerCid := cid }
  { ft with nodesByCid := ft.nodesByCid.append cid n }

def relinkType (ft : FileTree) (n : NodeRef) (nodeType : FileNodeType) : FileTree :=
  let ft := ft.removeNodeFromTypeList n
  let owner := (ft.node n).ownerCid
  if nodeType = .file then { ft with filesByCid := ft.filesByCid.append owner n }
  else { ft with dirsByCid := ft.dirsByCid.append owner n }

def syncOld (inp : SyncInput) (path : String) (stat : Stat) (oldNode : NodeRef) (ft : FileTree) (fileSize : FileSizes) :
    FileTree × FileSizes :=
  let nodeType := resolveNodeType inp.paths (ft.node oldNode).type stat path
  let cid := (inp.ownerMap.lookup path).getD (ft.node oldNode).ownerCid
  let ft := if (ft.node oldNode).ownerCid ≠ cid then changeOwner ft oldNode cid else ft
  let ft :=
    if (ft.node oldNode).ownerCid ≠ cid ∨ (ft.node oldNode).type ≠ nodeType then relinkType ft oldNode nodeType else ft
  if (ft.node oldNode).type ≠ nodeType ∨ (nodeType = .file ∧ (ft.node oldNode).size ≠ stat.size.toUInt64) then
    (ft.modify oldNode fun nd => { nd with type := nodeType, size := stat.size.toUInt64 },
      if nodeType = .file ∧ stat.size > 0 then updateFileSizeInHmdfsConfig path cid stat.size.toUInt64 fileSize else fileSize)
  else (ft, fileSize)

def syncEntry (inp : SyncInput) (st : SyncState) (e : String × FileMetadata) : SyncState :=
  let path := keyPath e
  let r := match st.oldNodes.lookup path with
    | none => syncNew inp path e.2.statMd st.ft st.fileSize
    | some oldNode => syncOld inp path e.2.statMd oldNode st.ft st.fileSize
  { ft := r.1, fileSize := r.2, oldNodes := st.oldNodes.erase path }

def syncSweep (ft : FileTree) (e : String × NodeRef) : FileTree := (ft.removeNodeLocked (ft.node e.2).fullPath).1

/-- The tree and the recorded sizes after a sync, for the orders of its two loops over maps. -/
def syncTree (visit sweep : Go.RangeOrder) (inp : SyncInput) (ft : FileTree) : FileTree × FileSizes :=
  let start : SyncState := { ft, fileSize := inp.hmcfg.fileSize, oldNodes := collectOld ft.next ft root ∅ }
  let st := (visit.arrange inp.fsMd.items).foldl (syncEntry inp) start
  ((sweep.arrange st.oldNodes.items).foldl syncSweep st.ft, st.fileSize)

def syncFileTreeFromFsMd (visit sweep : Go.RangeOrder) (fsMd : FsMd) (ownerMap : Go.Map String String)
    (hmcfg : HmdfsConfig) : HmdfsConfig :=
  let r := syncTree visit sweep { fsMd, ownerMap, hmcfg } (hmcfg.fileTree.getD newFileTree)
  { hmcfg with fileTree := some r.1, fileSize := r.2 }

def preorder : Nat → FileTree → NodeRef → List NodeRef
  | 0, _, _ => []
  | fuel + 1, ft, r => r :: (ft.node r).children.items.flatMap fun e => preorder fuel ft e.2

def recordOld (ft : FileTree) (acc : Go.Map String NodeRef) (n : NodeRef) : Go.Map String NodeRef :=
  if n ≠ root then acc.insert (ft.node n).fullPath n else acc

theorem collectOld_eq (fuel : Nat) (ft : FileTree) (r : NodeRef) (acc : Go.Map String NodeRef) :
    collectOld fuel ft r acc = (preorder fuel ft r).foldl (recordOld ft) acc := by
  induction fuel generalizing r acc with
  | zero => rfl
  | succ fuel ih =>
    simp only [collectOld, preorder, List.foldl_cons, List.foldl_flatMap, ih]
    rfl

theorem mem_preorder {fuel : Nat} {ft : FileTree} {r n : NodeRef} :
    n ∈ preorder fuel ft r ↔ ∃ s, s.length < fuel ∧ Walk.walk ft.edge r s = some n := by
  induction fuel generalizing r with
  | zero => simp [preorder]
  | succ fuel ih =>
    simp only [preorder, List.mem_cons, List.mem_flatMap, ih]
    constructor
    · rintro (rfl | ⟨e, member, s, short, found⟩)
      · exact ⟨[], by simp, rfl⟩
      · have step : ft.edge r e.1 = some e.2 := Go.Map.mem_items.mp member
        exact ⟨e.1 :: s, by simpa using short, (walk_cons ft.edge r e.1 s step).trans found⟩
    · rintro ⟨s, short, found⟩
      cases s with
      | nil => exact Or.inl (Option.some.inj found).symm
      | cons x s =>
        obtain ⟨c, step, below⟩ := Option.bind_eq_some_iff.mp found
        exact Or.inr ⟨(x, c), Go.Map.mem_items.mpr step, s, by simpa using short, below⟩

theorem lookup_recordOld (ft : FileTree) (nodes : List NodeRef) (p : String) :
    (nodes.foldl (recordOld ft) ∅).lookup p =
      (nodes.filter (· ≠ root)).reverse.find? fun n => (ft.node n).fullPath = p := by
  have filtered : nodes.foldl (recordOld ft) ∅ =
      (nodes.filter (· ≠ root)).foldl (fun m n => m.insert (ft.node n).fullPath n) (∅ : Go.Map String NodeRef) := by
    rw [List.foldl_filter]
    simp only [decide_eq_true_eq]
    rfl
  rw [filtered, Go.Map.lookup_foldl_insert (fun n => (ft.node n).fullPath) (fun n => n)]
  cases List.find? _ _ <;> simp

theorem lookup_collectOld {ft : FileTree} (linked : Linked ft) {p : String} {n : NodeRef} :
    (collectOld ft.next ft root ∅).lookup p = some n ↔ ∃ q, q ≠ [] ∧ ft.nodeAt q = some n ∧ render q = p := by
  rw [collectOld_eq, lookup_recordOld]
  have reached : ∀ m, m ∈ (preorder ft.next ft root).filter (· ≠ root) ↔ ∃ q, q ≠ [] ∧ ft.nodeAt q = some m := by
    intro m
    simp only [List.mem_filter, mem_preorder, decide_eq_true_eq]
    constructor
    · rintro ⟨⟨q, _, found⟩, notRoot⟩
      refine ⟨q, ?_, found⟩
      rintro rfl
      exact notRoot (Option.some.inj found).symm
    · rintro ⟨q, nonempty, found⟩
      refine ⟨⟨q, linked.tree.depth (fun _ _ here => linked.allocated here) found, found⟩, ?_⟩
      rintro rfl
      exact nonempty (linked.tree q [] root found rfl)
  constructor
  · intro found
    obtain ⟨q, nonempty, here⟩ := (reached n).mp (List.mem_reverse.mp (List.mem_of_find?_eq_some found))
    have path : (ft.node n).fullPath = p := by simpa using List.find?_some found
    exact ⟨q, nonempty, here, (linked.fullPath here).symm.trans path⟩
  · rintro ⟨q, nonempty, here, rfl⟩
    cases found : ((preorder ft.next ft root).filter (· ≠ root)).reverse.find? fun m => (ft.node m).fullPath = render q with
    | none =>
      rw [List.find?_eq_none] at found
      have missed := found n (List.mem_reverse.mpr ((reached n).mpr ⟨q, nonempty, here⟩))
      exact absurd (linked.fullPath here) (by simpa using missed)
    | some m =>
      obtain ⟨q', _, here'⟩ := (reached m).mp (List.mem_reverse.mp (List.mem_of_find?_eq_some found))
      have path : (ft.node m).fullPath = render q := by simpa using List.find?_some found
      rw [linked.fullPath here'] at path
      obtain rfl := render_injective (linked.components here') (linked.components here) path
      exact here'.symm.trans here

namespace Row

def moved (row : Row) (oldType : FileNodeType) (cid : String) : Row :=
  ({ row with nodes := moreAt cid (lessAll row.nodes) } : Row).mapType oldType lessAll

def retyped (row : Row) (oldType newType : FileNodeType) (cid : String) : Row :=
  (row.mapType oldType (lessAt cid)).mapType newType (moreAt cid)

def synced (row : Row) (oldType newType : FileNodeType) (oldCid cid : String) : Row :=
  let row := if oldCid ≠ cid then row.moved oldType cid else row
  if oldType ≠ newType then row.retyped oldType newType cid else row

end Row

theorem row_changeOwner (ft : FileTree) (n : NodeRef) (cid : String) :
    (changeOwner ft n cid).row n = (ft.row n).moved (ft.node n).type cid ∧
      ∀ m, m ≠ n → (changeOwner ft n cid).row m = ft.row m := by
  unfold changeOwner removeNodeFromCidLists Row.moved Row.mapType
  by_cases file : (ft.node n).type = .file
  · simp only [file, if_true, row, FileTree.modify, counts_append_self, counts_sweep_self, true_and]
    exact fun m different => by
      rw [counts_append_ne _ _ _ different, counts_sweep_ne _ _ different, counts_sweep_ne _ _ different]
  · simp only [file, if_false, row, FileTree.modify, counts_append_self, counts_sweep_self, true_and]
    exact fun m different => by
      rw [counts_append_ne _ _ _ different, counts_sweep_ne _ _ different, counts_sweep_ne _ _ different]

theorem row_relinkType (ft : FileTree) (n : NodeRef) (type : FileNodeType) :
    (relinkType ft n type).row n = (ft.row n).retyped (ft.node n).type type (ft.node n).ownerCid ∧
      ∀ m, m ≠ n → (relinkType ft n type).row m = ft.row m := by
  unfold relinkType removeNodeFromTypeList Row.retyped Row.mapType
  by_cases file : (ft.node n).type = .file <;> by_cases file' : type = .file
  all_goals
    simp only [file, file', if_true, if_false, row, counts_append_self, counts_drop_self, true_and]
    exact fun m different => by simp only [counts_append_ne _ _ _ different, counts_drop_ne _ _ _ different]

/-! ### A path the tree has -/

/-- A step that assigns to the data fields of one node and touches only its row. -/
structure NodeUpdate (ft ft' : FileTree) (n : NodeRef) (f : FileNode → FileNode) (row : Row) : Prop where
  self : ft'.node n = f (ft.node n)
  others : ∀ m, m ≠ n → ft'.node m = ft.node m
  next : ft'.next = ft.next
  row_self : ft'.row n = row
  row_others : ∀ m, m ≠ n → ft'.row m = ft.row m

theorem changeOwner_update (ft : FileTree) (n : NodeRef) (cid : String) :
    NodeUpdate ft (changeOwner ft n cid) n (fun nd => { nd with ownerCid := cid }) ((ft.row n).moved (ft.node n).type cid) := by
  obtain ⟨node, next⟩ := removeNodeFromCidLists_node ft n
  obtain ⟨row, rows⟩ := row_changeOwner ft n cid
  refine ⟨?_, fun m different => ?_, next, row, rows⟩
  · rw [← node]
    exact modify_node_self (ft.removeNodeFromCidLists n) n fun nd => { nd with ownerCid := cid }
  · rw [← node]
    exact modify_node_ne (ft.removeNodeFromCidLists n) (fun nd => { nd with ownerCid := cid }) different

theorem relinkType_update (ft : FileTree) (n : NodeRef) (type : FileNodeType) :
    NodeUpdate ft (relinkType ft n type) n id ((ft.row n).retyped (ft.node n).type type (ft.node n).ownerCid) := by
  obtain ⟨row, rows⟩ := row_relinkType ft n type
  have heap : (relinkType ft n type).node = ft.node ∧ (relinkType ft n type).next = ft.next := by
    unfold relinkType removeNodeFromTypeList
    by_cases file : (ft.node n).type = .file <;> by_cases file' : type = .file <;> simp [file, file']
  exact ⟨by rw [heap.1]; rfl, fun m _ => by rw [heap.1], heap.2, row, rows⟩

def syncedNode (inp : SyncInput) (path : String) (stat : Stat) (nd : FileNode) : FileNode :=
  let type := resolveNodeType inp.paths nd.type stat path
  { nd with
    type
    ownerCid := (inp.ownerMap.lookup path).getD nd.ownerCid
    size := if type = .file ∨ nd.type ≠ type then stat.size.toUInt64 else nd.size }

theorem syncOld_update (inp : SyncInput) (path : String) (stat : Stat) (n : NodeRef) (ft : FileTree) (sizes : FileSizes) :
    NodeUpdate ft (syncOld inp path stat n ft sizes).1 n (syncedNode inp path stat)
      ((ft.row n).synced (ft.node n).type (resolveNodeType inp.paths (ft.node n).type stat path) (ft.node n).ownerCid
        ((inp.ownerMap.lookup path).getD (ft.node n).ownerCid)) := by
  unfold syncOld
  generalize typeEq : resolveNodeType inp.paths (ft.node n).type stat path = type
  generalize cidEq : (inp.ownerMap.lookup path).getD (ft.node n).ownerCid = cid
  have target : syncedNode inp path stat (ft.node n) =
      { ft.node n with
        type, ownerCid := cid
        size := if type = .file ∨ (ft.node n).type ≠ type then stat.size.toUInt64 else (ft.node n).size } := by
    simp only [syncedNode, typeEq, cidEq]
  -- the owner
  obtain ⟨ft₁, edited, first⟩ : ∃ ft₁, (if (ft.node n).ownerCid ≠ cid then changeOwner ft n cid else ft) = ft₁ ∧
      NodeUpdate ft ft₁ n (fun nd => { nd with ownerCid := cid })
        (if (ft.node n).ownerCid ≠ cid then (ft.row n).moved (ft.node n).type cid else ft.row n) := by
    refine ⟨_, rfl, ?_⟩
    by_cases change : (ft.node n).ownerCid ≠ cid
    · rw [if_pos change, if_pos change]
      exact changeOwner_update ft n cid
    · rw [if_neg change, if_neg change]
      refine ⟨?_, fun _ _ => rfl, rfl, rfl, fun _ _ => rfl⟩
      rw [not_not] at change
      rw [← change]
  dsimp only
  rw [edited]
  have owner : (ft₁.node n).ownerCid = cid := by rw [first.self]
  have typed : (ft₁.node n).type = (ft.node n).type := by rw [first.self]
  have sized : (ft₁.node n).size = (ft.node n).size := by rw [first.self]
  -- the list of the type
  obtain ⟨ft₂, relinked, second⟩ : ∃ ft₂,
      (if (ft₁.node n).ownerCid ≠ cid ∨ (ft₁.node n).type ≠ type then relinkType ft₁ n type else ft₁) = ft₂ ∧
      NodeUpdate ft ft₂ n (fun nd => { nd with ownerCid := cid })
        ((ft.row n).synced (ft.node n).type type (ft.node n).ownerCid cid) := by
    refine ⟨_, rfl, ?_⟩
    unfold Row.synced
    by_cases change : (ft.node n).type ≠ type
    · rw [if_pos (Or.inr (typed ▸ change)), if_pos change, ← first.row_self]
      have second := relinkType_update ft₁ n type
      rw [owner, typed] at second
      exact ⟨second.self.trans first.self, fun m different => (second.others m different).trans (first.others m different),
        second.next.trans first.next, second.row_self,
        fun m different => (second.row_others m different).trans (first.row_others m different)⟩
    · rw [if_neg (by rw [typed, owner]; simpa using change), if_neg change]
      exact first
  rw [relinked]
  have typed₂ : (ft₂.node n).type = (ft.node n).type := by rw [second.self]
  have sized₂ : (ft₂.node n).size = (ft.node n).size := by rw [second.self]
  -- the type and the size
  split
  · rename_i change
    refine ⟨?_, fun m different => ?_, second.next, second.row_self, second.row_others⟩
    · rw [modify_node_self, second.self, target]
      have resized : type = .file ∨ (ft.node n).type ≠ type := by
        rcases change with retyped | ⟨file, _⟩
        · exact Or.inr (typed₂ ▸ retyped)
        · exact Or.inl file
      rw [if_pos resized]
    · rw [modify_node_ne _ _ different, second.others m different]
  · rename_i keep
    rw [not_or, not_not, typed₂, sized₂] at keep
    refine ⟨?_, second.others, second.next, second.row_self, second.row_others⟩
    rw [second.self, target, keep.1]
    by_cases file : type = .file
    · have same : (ft.node n).size = stat.size.toUInt64 := by
        by_contra different
        exact keep.2 ⟨file, different⟩
      simp [file, same]
    · simp [file]

/-- What the sync does with a path that was not in the tree: it adds it. The node may be one that
a longer path has put there before, as a directory on the way. -/
structure NewSpec (inp : SyncInput) (path : String) (stat : Stat) (ft ft' : FileTree) (n : NodeRef) : Prop where
  linked : Linked ft'
  found : ft'.nodeAt (pathParts path) = some n
  kept : ∀ q m, ft.nodeAt q = some m → ft'.nodeAt q = some m
  added : ∀ q m, ft'.nodeAt q = some m →
    ft.nodeAt q = some m ∨ (ft.nodeAt q = none ∧ q <+: pathParts path ∧ ft.next ≤ m)
  old : ∀ m, m < ft.next → m ≠ n → ft'.node m = { ft.node m with children := (ft'.node m).children }
  fullPath : n < ft.next → (ft'.node n).fullPath = (ft.node n).fullPath
  type : (ft'.node n).type = snapshotType inp.paths stat path
  owner : (ft'.node n).ownerCid = resolveCidForPath path inp.ownerMap inp.hmcfg
  size : (ft'.node n).size = if snapshotType inp.paths stat path = .file ∧ stat.size > 0 then stat.size.toUInt64
    else if n < ft.next then (ft.node n).size else 0
  between : ∀ m, ft.next ≤ m → m < ft'.next → m ≠ n → (ft'.node m).size = 0
  row : ft'.row n = (ft.row n).added (snapshotType inp.paths stat path) (resolveCidForPath path inp.ownerMap inp.hmcfg)
  rows : ∀ m, m ≠ n → ft'.row m = ft.row m
  next : ft.next ≤ ft'.next

theorem syncNew_spec {inp : SyncInput} {path : String} (clean : CleanPath path) (stat : Stat) {ft : FileTree}
    (linked : Linked ft) (sizes : FileSizes) : ∃ n, NewSpec inp path stat ft (syncNew inp path stat ft sizes).1 n := by
  obtain ⟨n, made, spec⟩ := addNodeLocked_spec linked clean (snapshotType inp.paths stat path)
    (resolveCidForPath path inp.ownerMap inp.hmcfg)
  refine ⟨n, ?_⟩
  unfold syncNew
  dsimp only
  generalize ft.addNodeLocked path (snapshotType inp.paths stat path)
    (resolveCidForPath path inp.ownerMap inp.hmcfg) = added at made spec ⊢
  obtain ⟨ft₁, result⟩ := added
  obtain rfl : result = some n := made
  dsimp only at spec ⊢
  obtain ⟨row, rows⟩ := spec.rows
  have fullPath : n < ft.next → (ft₁.node n).fullPath = (ft.node n).fullPath := by
    intro low
    rw [spec.last low]
  have fields : (ft₁.node n).type = snapshotType inp.paths stat path ∧
      (ft₁.node n).ownerCid = resolveCidForPath path inp.ownerMap inp.hmcfg ∧
      (ft₁.node n).size = if n < ft.next then (ft.node n).size else 0 := by
    by_cases low : n < ft.next
    · rw [if_pos low, spec.last low]
      exact ⟨rfl, rfl, rfl⟩
    · rw [if_neg low]
      exact spec.new (Nat.not_lt.mp low)
  obtain ⟨typed, owned, sized⟩ := fields
  split
  · rename_i file
    dsimp only
    have edges : (ft₁.modify n fun nd => { nd with size := stat.size.toUInt64 }).edge = ft₁.edge := modify_edge ft₁ n rfl
    have at_ : ∀ q, (ft₁.modify n fun nd => { nd with size := stat.size.toUInt64 }).nodeAt q = ft₁.nodeAt q :=
      fun q => by rw [nodeAt, nodeAt, edges]
    refine ⟨spec.linked.modify n rfl rfl rfl rfl, by rw [at_, spec.found], fun q m here => by rw [at_, spec.kept q m here],
      fun q m here => spec.added q m (by rw [← at_, here]), ?_, ?_, ?_, ?_, ?_, ?_, row, rows, spec.next⟩
    · intro m low different
      rw [modify_node_ne ft₁ _ different]
      exact spec.old m low different
    · intro low
      rw [modify_node_self]
      exact fullPath low
    · rw [modify_node_self]
      exact typed
    · rw [modify_node_self]
      exact owned
    · rw [modify_node_self, if_pos file]
    · intro m low high different
      rw [modify_node_ne ft₁ _ different]
      exact spec.between m low high different
  · rename_i other
    exact ⟨spec.linked, spec.found, spec.kept, spec.added, spec.old, fullPath, typed, owned, by rw [if_neg other, sized],
      spec.between, row, rows, spec.next⟩

end DfsFuzz.Tree
