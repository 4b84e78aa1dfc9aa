import DfsFuzz.Tree.Reach

/-!
The index by cid along runs of the operations that edit the tree: when each of them keeps it
consistent with the tree.
-/

namespace DfsFuzz.Tree

open FileTree

structure IndexConsistent (ft : FileTree) : Prop where
  inTree : ∀ n, Listed ft n → InTree ft n
  files : ∀ c, ∀ n ∈ ft.filesByCid c, (ft.node n).type = .file
  dirs : ∀ c, ∀ n ∈ ft.dirsByCid c, (ft.node n).type ≠ .file
  nodup : ∀ c, (ft.nodesByCid c).Nodup ∧ (ft.filesByCid c).Nodup ∧ (ft.dirsByCid c).Nodup
  kind : ∀ c, ∀ n ∈ ft.nodesByCid c, Xor (n ∈ ft.filesByCid c) (n ∈ ft.dirsByCid c)

/-! ### One node -/

structure Row.Consistent (row : Row) (type : FileNodeType) : Prop where
  nodes : ∀ c, row.nodes c ≤ row.byType type c
  byType : ∀ c, row.byType type c ≤ 1
  otherType : ∀ c, row.otherType type c = 0

namespace Row

theorem Consistent.removable {row : Row} {type : FileNodeType} (consistent : row.Consistent type) : row.Removable type :=
  ⟨fun c => Nat.le_trans (consistent.nodes c) (consistent.byType c), consistent.byType, consistent.otherType⟩

theorem zero_consistent (type : FileNodeType) : zero.Consistent type := by
  refine ⟨fun c => Nat.zero_le _, fun c => ?_, fun c => ?_⟩
  · unfold byType
    split <;> exact Nat.zero_le 1
  · unfold otherType
    split <;> rfl

def SameKind (type type' : FileNodeType) : Prop := type = .file ↔ type' = .file

theorem SameKind.byType {type type' : FileNodeType} (same : SameKind type type') (row : Row) :
    row.byType type = row.byType type' := by
  simp only [Row.byType, propext same]

theorem SameKind.otherType {type type' : FileNodeType} (same : SameKind type type') (row : Row) :
    row.otherType type = row.otherType type' := by
  simp only [Row.otherType, propext same]

theorem added_lists (row : Row) (type : FileNodeType) (cid : String) :
    (row.added type cid).nodes = onceAt cid row.nodes ∧ (row.added type cid).byType type = onceAt cid (row.byType type) ∧
      (row.added type cid).otherType type = row.otherType type := by
  unfold added mapType byType otherType
  by_cases file : type = .file <;> simp [file]

theorem onceAt_le {counts : String → Nat} (cid : String) (once : ∀ c, counts c ≤ 1) (c : String) : onceAt cid counts c ≤ 1 := by
  unfold onceAt
  by_cases here : c = cid
  · subst here
    simpa using once c
  · simpa [here] using once c

theorem onceAt_mono {counts counts' : String → Nat} (cid : String) (le : ∀ c, counts c ≤ counts' c) (c : String) :
    onceAt cid counts c ≤ onceAt cid counts' c := by
  unfold onceAt
  by_cases here : c = cid
  · subst here
    simp only [Function.update_self]
    exact max_le_max (le c) (Nat.le_refl 1)
  · simpa [here] using le c

theorem Consistent.added {row : Row} {type : FileNodeType} (consistent : row.Consistent type) (cid : String) :
    (row.added type cid).Consistent type := by
  obtain ⟨nodes, byType, otherType⟩ := added_lists row type cid
  refine ⟨fun c => ?_, fun c => ?_, fun c => ?_⟩
  · rw [nodes, byType]
    exact onceAt_mono cid consistent.nodes c
  · rw [byType]
    exact onceAt_le cid consistent.byType c
  · rw [otherType]
    exact consistent.otherType c

end Row

open Row (SameKind)

def Indexed (ft : FileTree) : Prop := ∀ n, (Listed ft n → InTree ft n) ∧ (ft.row n).Consistent (ft.node n).type

theorem Indexed.consistent {ft : FileTree} (indexed : Indexed ft) : IndexConsistent ft := by
  have files : ∀ c, ∀ n ∈ ft.filesByCid c, (ft.node n).type = .file := by
    intro c n member
    by_contra other
    have zero := (indexed n).2.otherType c
    rw [Row.otherType, if_neg other] at zero
    exact List.count_eq_zero.mp zero member
  have dirs : ∀ c, ∀ n ∈ ft.dirsByCid c, (ft.node n).type ≠ .file := by
    intro c n member file
    have zero := (indexed n).2.otherType c
    rw [Row.otherType, if_pos file] at zero
    exact List.count_eq_zero.mp zero member
  have kinds : ∀ c n, (ft.row n).files c ≤ 1 ∧ (ft.row n).dirs c ≤ 1 := by
    intro c n
    have byType := (indexed n).2.byType c
    have otherType := (indexed n).2.otherType c
    unfold Row.byType at byType
    unfold Row.otherType at otherType
    split at byType
    · rename_i file
      rw [if_pos file] at otherType
      exact ⟨byType, otherType.trans_le (Nat.zero_le 1)⟩
    · rename_i file
      rw [if_neg file] at otherType
      exact ⟨otherType.trans_le (Nat.zero_le 1), byType⟩
  refine ⟨fun n listed => (indexed n).1 listed, files, dirs, fun c => ⟨?_, ?_, ?_⟩, fun c n member => ?_⟩
  · exact List.nodup_iff_count_le_one.mpr fun n => (indexed n).2.removable.nodes c
  · exact List.nodup_iff_count_le_one.mpr fun n => (kinds c n).1
  · exact List.nodup_iff_count_le_one.mpr fun n => (kinds c n).2
  · have counted : 1 ≤ (ft.row n).byType (ft.node n).type c :=
      Nat.le_trans (List.one_le_count_iff.mpr member) ((indexed n).2.nodes c)
    unfold Row.byType at counted
    split at counted
    · rename_i file
      exact Or.inl ⟨List.one_le_count_iff.mp counted, fun inside => dirs c n inside file⟩
    · rename_i other
      exact Or.inr ⟨List.one_le_count_iff.mp counted, fun inside => other (files c n inside)⟩

theorem newFileTree_indexed : Indexed newFileTree := by
  intro n
  refine ⟨?_, Row.zero_consistent _⟩
  rintro ⟨c, listed⟩
  rcases listed with member | member | member <;> exact absurd member List.not_mem_nil

theorem unlisted_iff {ft ft' : FileTree} {n : NodeRef} (row : ft'.row n = ft.row n) : Listed ft' n ↔ Listed ft n := by
  rw [← not_iff_not, ← row_eq_zero_iff, ← row_eq_zero_iff, row]

theorem indexed_of_same {ft ft' : FileTree} {n : NodeRef} (row : ft'.row n = ft.row n)
    (type : (ft'.node n).type = (ft.node n).type) (stays : Listed ft n → InTree ft n → InTree ft' n)
    (indexed : (Listed ft n → InTree ft n) ∧ (ft.row n).Consistent (ft.node n).type) :
    (Listed ft' n → InTree ft' n) ∧ (ft'.row n).Consistent (ft'.node n).type := by
  refine ⟨fun listed => ?_, ?_⟩
  · have listed := (unlisted_iff row).mp listed
    exact stays listed (indexed.1 listed)
  · rw [row, type]
    exact indexed.2

/-! ### The operations -/

theorem AddSpec.typed {ft ft' : FileTree} {q : List String} {n : NodeRef} {type : FileNodeType} {cid : String}
    (spec : AddSpec ft ft' q n type cid) : (ft'.node n).type = type := by
  by_cases low : n < ft.next
  · rw [spec.last low]
  · exact (spec.new (Nat.not_lt.mp low)).1

section Steps
variable {ft : FileTree}

theorem Indexed.addNode (indexed : Indexed ft) (linked : Linked ft) {path : String} (clean : CleanPath path)
    {type : FileNodeType} (cid : String)
    (keeps : ∀ n, ft.nodeAt (pathParts path) = some n → Listed ft n → SameKind (ft.node n).type type) :
    Indexed (ft.addNode path type cid) := by
  obtain ⟨n, _, spec⟩ := addNodeLocked_spec linked clean type cid
  obtain ⟨row, rows⟩ := spec.rows
  have typed := spec.typed
  unfold FileTree.addNode
  generalize (ft.addNodeLocked path type cid).1 = ft' at spec row rows typed
  intro m
  by_cases here : m = n
  · subst here
    refine ⟨fun _ => ⟨_, spec.found⟩, ?_⟩
    rw [row, typed]
    refine Row.Consistent.added ?_ cid
    by_cases listed : Listed ft m
    · obtain ⟨q, before⟩ := (indexed m).1 listed
      rcases spec.added _ m spec.found with found | ⟨_, _, high⟩
      · have same := keeps m found listed
        have consistent := (indexed m).2
        exact ⟨same.byType _ ▸ consistent.nodes, same.byType _ ▸ consistent.byType, same.otherType _ ▸ consistent.otherType⟩
      · exact absurd (linked.allocated before) (Nat.not_lt.mpr high)
    · rw [(row_eq_zero_iff ft m).mpr listed]
      exact Row.zero_consistent type
  · by_cases listed : Listed ft m
    · obtain ⟨q, before⟩ := (indexed m).1 listed
      have same := spec.old m (linked.allocated before) here
      refine indexed_of_same (rows m here) ?_ (fun _ => ?_) (indexed m)
      · rw [same]
      · rintro ⟨q, found⟩
        exact ⟨q, spec.kept q m found⟩
    · have zero := (row_eq_zero_iff ft m).mpr listed
      refine ⟨fun still => absurd ((unlisted_iff (rows m here)).mp still) listed, ?_⟩
      rw [rows m here, zero]
      exact Row.zero_consistent _

theorem addNode_listed (indexed : Indexed ft) (linked : Linked ft) {path : String} (clean : CleanPath path)
    (type : FileNodeType) (cid : String) {q : List String} {m : NodeRef} (found : (ft.addNode path type cid).nodeAt q = some m)
    (listed : Listed (ft.addNode path type cid) m) :
    (q = pathParts path ∧ ((ft.addNode path type cid).node m).type = type) ∨
      (ft.nodeAt q = some m ∧ Listed ft m ∧ ((ft.addNode path type cid).node m).type = (ft.node m).type) := by
  obtain ⟨n, _, spec⟩ := addNodeLocked_spec linked clean type cid
  have typed := spec.typed
  have rows := spec.rows.2
  unfold FileTree.addNode at *
  generalize (ft.addNodeLocked path type cid).1 = ft' at *
  by_cases here : m = n
  · subst here
    exact Or.inl ⟨spec.linked.unique found spec.found, typed⟩
  · have before := (unlisted_iff (rows m here)).mp listed
    obtain ⟨q', inside⟩ := (indexed m).1 before
    have low := linked.allocated inside
    rcases spec.added q m found with old | ⟨_, _, high⟩
    · exact Or.inr ⟨old, before, by rw [spec.old m low here]⟩
    · exact absurd low (Nat.not_lt.mpr high)

theorem Indexed.removeNode (indexed : Indexed ft) (linked : Linked ft) {path : String} (clean : CleanPath path)
    (keeps : ∀ s n, s ≠ [] → ft.nodeAt (pathParts path ++ s) = some n → ¬ Listed ft n) : Indexed (ft.removeNode path) := by
  rw [FileTree.removeNode, removeNodeLocked_eq ft clean]
  cases found : ft.nodeAt (pathParts path) with
  | none => exact indexed
  | some n =>
    obtain ⟨_, node, _, reached, row, rows⟩ := remove_spec linked (pathParts_ne_nil path) found
    dsimp only
    generalize (ft.detach n).removeNodeFromCidLists n = ft' at node reached row rows
    intro m
    by_cases here : m = n
    · subst here
      rw [(Row.removed_eq_zero_iff _ _).mpr (indexed m).2.removable] at row
      refine ⟨fun listed => absurd listed ((row_eq_zero_iff ft' m).mp row), ?_⟩
      rw [row]
      exact Row.zero_consistent _
    · refine indexed_of_same (rows m here) (by rw [node m]) (fun listed => ?_) (indexed m)
      rintro ⟨q, before⟩
      refine ⟨q, (reached q m).mpr ⟨before, ?_⟩⟩
      rintro ⟨s, rfl⟩
      refine keeps s m ?_ before listed
      rintro rfl
      rw [List.append_nil, found] at before
      exact here (Option.some.inj before).symm

/-- The rename finds the directory of its new path after the node at the old path is detached. -/
def TargetFound (ft : FileTree) (old new : List String) : Prop := (∃ p, ft.nodeAt new.dropLast = some p) ∧ ¬ old <+: new.dropLast

theorem Indexed.renameNode (indexed : Indexed ft) (linked : Linked ft) {oldPath newPath : String}
    (cleanOld : CleanPath oldPath) (cleanNew : CleanPath newPath)
    (overwritten : TargetFound ft (pathParts oldPath) (pathParts newPath) → (∃ c, ft.nodeAt (pathParts oldPath) = some c) →
      ∀ q n, pathParts newPath <+: q → ¬ pathParts oldPath <+: q → ft.nodeAt q = some n → ¬ Listed ft n)
    (lost : ¬ TargetFound ft (pathParts oldPath) (pathParts newPath) →
      ∀ q n, pathParts oldPath <+: q → ft.nodeAt q = some n → ¬ Listed ft n) :
    Indexed (ft.renameNode oldPath newPath).1 := by
  obtain ⟨π, x, parts⟩ := pathParts_concat oldPath
  rcases renameNode_cases ft cleanOld cleanNew with ⟨_, result⟩ | ⟨c, found, ⟨missing, result⟩ | ⟨p, parent, result⟩⟩
  · rw [result]
    exact indexed
  · -- detached for good
    have target : ¬ TargetFound ft (pathParts oldPath) (pathParts newPath) := by
      rintro ⟨⟨p, there⟩, outside⟩
      rw [parts] at found outside
      rw [(nodeAt_detach linked found).mpr ⟨there, outside⟩] at missing
      cases missing
    have unlisted := lost target
    rw [parts] at found unlisted
    have same := detach_same linked found
    rw [result]
    intro m
    refine indexed_of_same (row_congr same.nodes same.files same.dirs m) (by rw [same.node m]) (fun listed => ?_) (indexed m)
    rintro ⟨q, before⟩
    exact ⟨q, (nodeAt_detach linked found).mpr ⟨before, fun inside => unlisted q m inside before listed⟩⟩
  · have target : TargetFound ft (pathParts oldPath) (pathParts newPath) := by
      rw [parts] at found ⊢
      obtain ⟨there, outside⟩ := (nodeAt_detach linked found).mp parent
      exact ⟨⟨p, there⟩, outside⟩
    have unlisted := overwritten target ⟨c, found⟩
    rw [parts] at found unlisted
    have spec := reattached_spec linked found parent cleanNew.getLast.1
    rw [cleanNew.getLast.2] at spec
    rw [result]
    intro m
    refine indexed_of_same (row_congr spec.nodes spec.files spec.dirs m) (spec.data m).1 (fun listed => ?_) (indexed m)
    rintro ⟨q, before⟩
    by_cases moved : π ++ [x] <+: q
    · obtain ⟨s, rfl⟩ := moved
      exact ⟨_, (spec.nodeAt _ m).mpr (Or.inr ⟨s, rfl, before⟩)⟩
    · exact ⟨q, (spec.nodeAt q m).mpr (Or.inl ⟨before, moved, fun inside => unlisted q m inside moved before listed⟩)⟩

theorem Indexed.modify (indexed : Indexed ft) (r : NodeRef) {f : FileNode → FileNode}
    (children : (f (ft.node r)).children = (ft.node r).children)
    (type : (f (ft.node r)).type = (ft.node r).type) : Indexed (ft.modify r f) := by
  have edges := modify_edge ft r children
  intro m
  refine @indexed_of_same ft _ m rfl ?_ (fun _ => ?_) (indexed m)
  · by_cases here : m = r
    · subst here
      rw [modify_node_self, type]
    · rw [modify_node_ne ft f here]
  · rintro ⟨q, found⟩
    refine ⟨q, ?_⟩
    rw [nodeAt, edges]
    exact found

theorem Indexed.updateNodeSize (indexed : Indexed ft) (path : String) (size : UInt64) :
    Indexed (ft.updateNodeSize path size) := by
  unfold FileTree.updateNodeSize
  split
  · split
    · exact indexed.modify _ rfl rfl
    · exact indexed
  · exact indexed

def KindsAgree (hmcfg : HmdfsConfig) (ft : FileTree) : Prop :=
  ∀ entry ∈ hmcfg.entries, ∀ n, ft.nodeAt (pathParts entry.1) = some n → Listed ft n → SameKind (ft.node n).type entry.2

theorem Indexed.initFromHmdfsConfig (indexed : Indexed ft) (linked : Linked ft) {hmcfg : HmdfsConfig}
    (clean : ∀ entry ∈ hmcfg.entries, CleanPath entry.1)
    (distinct : ∀ entry ∈ hmcfg.entries, ∀ entry' ∈ hmcfg.entries, pathParts entry.1 = pathParts entry'.1 →
      SameKind entry.2 entry'.2)
    (agree : KindsAgree hmcfg ft) : Indexed (ft.initFromHmdfsConfig hmcfg) := by
  refine (initFromHmdfsConfig_induct (P := fun ft => Linked ft ∧ Indexed ft ∧ KindsAgree hmcfg ft) ?_ ?_
    ⟨linked, indexed, agree⟩).2.1
  · rintro ft path type cid member ⟨linked, indexed, agree⟩
    have here := clean _ member
    refine ⟨linked.addNode here type cid, indexed.addNode linked here cid (agree _ member), ?_⟩
    intro entry member' n found listed
    rcases addNode_listed indexed linked here type cid found listed with ⟨same, typed⟩ | ⟨before, listed, typed⟩
    · rw [typed]
      exact distinct _ member _ member' same.symm
    · rw [typed]
      exact agree entry member' n before listed
  · rintro ft n size ⟨linked, indexed, agree⟩
    refine ⟨linked.modify n rfl rfl rfl rfl, indexed.modify n rfl rfl, ?_⟩
    intro entry member m found listed
    have edges : (ft.modify n fun nd => { nd with size := size }).edge = ft.edge := modify_edge ft n rfl
    rw [nodeAt, edges] at found
    have type : ((ft.modify n fun nd => { nd with size := size }).node m).type = (ft.node m).type := by
      by_cases here : m = n
      · subst here
        rw [modify_node_self]
      · rw [modify_node_ne ft _ here]
    rw [type]
    exact agree entry member m found listed

end Steps

/-! ### Runs -/

inductive Op where
  | addNode (path : String) (type : FileNodeType) (cid : String)
  | removeNode (path : String)
  | renameNode (oldPath newPath : String)
  | updateNodeSize (path : String) (size : UInt64)
  | initFromHmdfsConfig (hmcfg : HmdfsConfig)

namespace Op

def apply (ft : FileTree) : Op → FileTree
  | addNode path type cid => ft.addNode path type cid
  | removeNode path => ft.removeNode path
  | renameNode oldPath newPath => (ft.renameNode oldPath newPath).1
  | updateNodeSize path size => ft.updateNodeSize path size
  | initFromHmdfsConfig hmcfg => ft.initFromHmdfsConfig hmcfg

def Clean : Op → Prop
  | addNode path _ _ => CleanPath path
  | removeNode path => CleanPath path
  | renameNode oldPath newPath => CleanPath oldPath ∧ CleanPath newPath
  | updateNodeSize path _ => CleanPath path
  | initFromHmdfsConfig hmcfg => ∀ entry ∈ hmcfg.entries, CleanPath entry.1

instance : (op : Op) → Decidable op.Clean
  | addNode path _ _ => inferInstanceAs (Decidable (CleanPath path))
  | removeNode path => inferInstanceAs (Decidable (CleanPath path))
  | renameNode oldPath newPath => inferInstanceAs (Decidable (CleanPath oldPath ∧ CleanPath newPath))
  | updateNodeSize path _ => inferInstanceAs (Decidable (CleanPath path))
  | initFromHmdfsConfig hmcfg => inferInstanceAs (Decidable (∀ entry ∈ hmcfg.entries, CleanPath entry.1))

/-- What the tree has to be before an operation for the lists to follow the tree through it: a node
that is listed is not added again as another kind, and nothing that is listed drops out of the
tree unless it is the removed node itself. -/
def KeepsIndex (ft : FileTree) : Op → Prop
  | addNode path type _ => ∀ n, ft.nodeAt (pathParts path) = some n → Listed ft n → SameKind (ft.node n).type type
  | removeNode path => ∀ s n, s ≠ [] → ft.nodeAt (pathParts path ++ s) = some n → ¬ Listed ft n
  | renameNode oldPath newPath =>
    (TargetFound ft (pathParts oldPath) (pathParts newPath) → (∃ c, ft.nodeAt (pathParts oldPath) = some c) →
      ∀ q n, pathParts newPath <+: q → ¬ pathParts oldPath <+: q → ft.nodeAt q = some n → ¬ Listed ft n) ∧
    (¬ TargetFound ft (pathParts oldPath) (pathParts newPath) →
      ∀ q n, pathParts oldPath <+: q → ft.nodeAt q = some n → ¬ Listed ft n)
  | updateNodeSize _ _ => True
  | initFromHmdfsConfig hmcfg =>
    (∀ entry ∈ hmcfg.entries, ∀ entry' ∈ hmcfg.entries, pathParts entry.1 = pathParts entry'.1 →
      SameKind entry.2 entry'.2) ∧ KindsAgree hmcfg ft

theorem apply_linked {ft : FileTree} (linked : Linked ft) {op : Op} (clean : op.Clean) : Linked (op.apply ft) := by
  cases op with
  | addNode path type cid => exact linked.addNode clean type cid
  | removeNode path => exact linked.removeNode clean
  | renameNode oldPath newPath => exact linked.renameNode clean.1 clean.2
  | updateNodeSize path size => exact linked.updateNodeSize path size
  | initFromHmdfsConfig hmcfg =>
    refine initFromHmdfsConfig_induct ?_ ?_ linked
    · exact fun ft path type cid member linked => linked.addNode (clean _ member) type cid
    · exact fun ft n size linked => linked.modify n rfl rfl rfl rfl

theorem apply_indexed {ft : FileTree} (indexed : Indexed ft) (linked : Linked ft) {op : Op} (clean : op.Clean)
    (keeps : op.KeepsIndex ft) : Indexed (op.apply ft) := by
  cases op with
  | addNode path type cid => exact indexed.addNode linked clean cid keeps
  | removeNode path => exact indexed.removeNode linked clean keeps
  | renameNode oldPath newPath => exact indexed.renameNode linked clean.1 clean.2 keeps.1 keeps.2
  | updateNodeSize path size => exact indexed.updateNodeSize path size
  | initFromHmdfsConfig hmcfg => exact indexed.initFromHmdfsConfig linked clean keeps.1 keeps.2

end Op

def trees (ops : List Op) : List FileTree := ops.scanl Op.apply newFileTree

def KeepsIndexThrough : FileTree → List Op → Prop
  | _, [] => True
  | ft, op :: ops => op.Clean ∧ op.KeepsIndex ft ∧ KeepsIndexThrough (op.apply ft) ops

theorem scanl_indexed (ops : List Op) {ft : FileTree} (indexed : Indexed ft) (linked : Linked ft)
    (keeps : KeepsIndexThrough ft ops) : ∀ ft' ∈ ops.scanl Op.apply ft, Indexed ft' := by
  induction ops generalizing ft with
  | nil =>
    intro ft' member
    obtain rfl := List.mem_singleton.mp (by simpa using member)
    exact indexed
  | cons op ops ih =>
    obtain ⟨clean, here, later⟩ := keeps
    intro ft' member
    rw [List.scanl_cons, List.mem_cons] at member
    rcases member with rfl | member
    · exact indexed
    · exact ih (Op.apply_indexed indexed linked clean here) (Op.apply_linked linked clean) later ft' member

/-- In a run whose steps all meet the condition, the index is consistent in every tree. -/
theorem trees_indexConsistent {ops : List Op} (keeps : KeepsIndexThrough newFileTree ops) :
    ∀ ft ∈ trees ops, IndexConsistent ft :=
  fun ft member => (scanl_indexed ops newFileTree_indexed newFileTree_linked keeps ft member).consistent

theorem walk_childless {ft : FileTree} {r : NodeRef} (childless : (ft.node r).children.items = []) {s : List String}
    {n : NodeRef} (found : Walk.walk ft.edge r s = some n) : s = [] ∧ n = r := by
  refine (Walk.walk_leaf fun x => ?_).mp found
  cases step : ft.edge r x with
  | none => rfl
  | some c =>
    have member : (x, c) ∈ (ft.node r).children.items := Go.Map.mem_items.mpr step
    rw [childless] at member
    cases member

def sampleRun : List Op :=
  [.addNode "merge_view/a/f" .file "c1", .renameNode "merge_view/a/f" "merge_view/g", .addNode "merge_view/g" .file "c2",
    .removeNode "merge_view/g"]

theorem trees_indexConsistent_run :
    KeepsIndexThrough newFileTree sampleRun ∧ ∀ ft ∈ trees sampleRun, IndexConsistent ft := by
  suffices keeps : KeepsIndexThrough newFileTree sampleRun from ⟨keeps, trees_indexConsistent keeps⟩
  unfold sampleRun
  refine ⟨by decide, ?_, by decide, ⟨?_, ?_⟩, by decide, ?_, by decide, ?_, trivial⟩
  · intro n found
    cases found
  · rintro _ _ q n ⟨s, rfl⟩ _ found
    obtain ⟨m, here⟩ := nodeAt_of_prefix found
    rw [show FileTree.nodeAt _ (pathParts "merge_view/g") = none by decide +kernel] at here
    cases here
  · intro missing
    exact absurd ⟨⟨root, rfl⟩, by decide⟩ missing
  · intro n found _
    obtain rfl : n = 2 := Option.some.inj (found.symm.trans (by decide +kernel))
    exact iff_of_true (by decide +kernel) rfl
  · intro s n nonempty found
    rw [nodeAt_append, show FileTree.nodeAt _ (pathParts "merge_view/g") = some 2 by decide +kernel, Option.bind_some] at found
    exact absurd (walk_childless (by decide +kernel) found).1 nonempty

/-- Removing a directory leaves the file below it in the lists. -/
theorem trees_removedDirectory :
    let ops : List Op := [.addNode "merge_view/a/f" .file "c1", .removeNode "merge_view/a"]
    (∀ op ∈ ops, op.Clean) ∧ ∃ ft ∈ trees ops, ft.filesByCid "c1" = [2] ∧ ¬ InTree ft 2 ∧ ¬ IndexConsistent ft := by
  have outside : ¬ InTree ((newFileTree.addNode "merge_view/a/f" .file "c1").removeNode "merge_view/a") 2 := by
    rintro ⟨q, found⟩
    exact absurd (walk_childless (by decide +kernel) found).2 (by decide)
  have listed : ((newFileTree.addNode "merge_view/a/f" .file "c1").removeNode "merge_view/a").filesByCid "c1" = [2] := by
    decide +kernel
  refine ⟨by decide, _, ?_, listed, outside, fun consistent => outside (consistent.inTree 2 ⟨"c1", ?_⟩)⟩
  · exact List.mem_cons_of_mem _ (List.mem_cons_of_mem _ List.mem_cons_self)
  · rw [listed]
    exact Or.inr (Or.inl List.mem_cons_self)

end DfsFuzz.Tree
