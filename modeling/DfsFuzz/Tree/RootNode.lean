import DfsFuzz.Tree.Reach

/-! The root of a tree has no parent, whatever the operations did to it. -/

namespace DfsFuzz.Tree

open FileTree

/-- The root is a node, and it hangs below nothing. -/
structure RootAlone (ft : FileTree) : Prop where
  parent : (ft.node root).parent = none
  allocated : root < ft.next

variable {ft : FileTree}

theorem RootAlone.congr {ft' : FileTree} (alone : RootAlone ft) (node : ft'.node = ft.node)
    (next : ft'.next = ft.next) : RootAlone ft' :=
  ⟨by rw [node]; exact alone.parent, by rw [next]; exact alone.allocated⟩

theorem RootAlone.modify (alone : RootAlone ft) (r : NodeRef) {f : FileNode → FileNode}
    (parent : (f (ft.node r)).parent = (ft.node r).parent) : RootAlone (ft.modify r f) := by
  refine ⟨?_, alone.allocated⟩
  by_cases here : root = r
  · subst here
    rw [modify_node_self, parent]
    exact alone.parent
  · rw [modify_node_ne ft f here]
    exact alone.parent

theorem RootAlone.newChild (alone : RootAlone ft) (parent : NodeRef) (part : String) (type : FileNodeType)
    (cid : String) : RootAlone (ft.newChild parent part type cid) := by
  have fresh : RootAlone { ft with
      node := Function.update ft.node ft.next
        { name := part, fullPath := (ft.node parent).fullPath ++ "/" ++ part, parent := some parent, type, ownerCid := cid }
      next := ft.next + 1 } := by
    refine ⟨?_, Nat.lt_succ_of_lt alone.allocated⟩
    dsimp only
    rw [Function.update_of_ne (Nat.ne_of_lt alone.allocated)]
    exact alone.parent
  exact @RootAlone.modify _ fresh parent (fun n => { n with children := n.children.insert part ft.next }) rfl

theorem RootAlone.addLoop (alone : RootAlone ft) (type : FileNodeType) (cid : String) (current : NodeRef)
    (parts : List String) : RootAlone (ft.addLoop type cid current parts).1 := by
  induction parts generalizing ft current with
  | nil => exact alone
  | cons part rest ih =>
    rw [FileTree.addLoop]
    split
    · exact ih alone current
    · dsimp only
      split
      · refine ih ?_ _
        split
        · exact alone.modify _ rfl
        · exact alone
      · refine ih ?_ _
        split
        · exact alone.newChild _ _ _ _
        · exact alone.newChild _ _ _ _

theorem RootAlone.addNodeLocked (alone : RootAlone ft) (path : String) (type : FileNodeType) (cid : String) :
    RootAlone (ft.addNodeLocked path type cid).1 := by
  rw [FileTree.addNodeLocked]
  split
  · exact alone
  · have added := alone.addLoop type cid root (Go.split (cleanPath path) '/')
    dsimp only
    generalize ft.addLoop type cid root (Go.split (cleanPath path) '/') = r at added
    have listed : RootAlone { r.1 with nodesByCid := r.1.nodesByCid.appendNew cid r.2 } := added.congr rfl rfl
    have sized := @RootAlone.modify _ listed r.2 (fun n => { n with pathLength := n.fullPath.length }) rfl
    rw [FileTree.register]
    split
    · exact sized.congr rfl rfl
    · exact sized.congr rfl rfl

theorem RootAlone.removeNodeFromCidLists (alone : RootAlone ft) (n : NodeRef) :
    RootAlone (ft.removeNodeFromCidLists n) :=
  alone.congr (removeNodeFromCidLists_node ft n).1 (removeNodeFromCidLists_node ft n).2

theorem RootAlone.detach (alone : RootAlone ft) (n : NodeRef) : RootAlone (ft.detach n) := by
  rw [FileTree.detach]
  split
  · exact alone
  · exact alone.modify _ rfl

theorem RootAlone.removeNodeLocked (alone : RootAlone ft) (path : String) : RootAlone (ft.removeNodeLocked path).1 := by
  rw [FileTree.removeNodeLocked]
  split
  · exact alone
  · split
    · exact alone
    · exact (alone.detach _).removeNodeFromCidLists _

theorem RootAlone.updateChildPaths (fuel : Nat) (alone : RootAlone ft) (r : NodeRef) :
    RootAlone (FileTree.updateChildPaths fuel ft r) := by
  induction fuel generalizing ft r with
  | zero => exact alone
  | succ fuel ih =>
    rw [FileTree.updateChildPaths]
    generalize (ft.node r).children.items = es
    induction es generalizing ft with
    | nil => exact alone
    | cons e es inner => exact inner (ih (alone.modify e.2 rfl) e.2)

theorem RootAlone.renameNode (alone : RootAlone ft) (linked : Linked ft) {oldPath : String}
    (clean : CleanPath oldPath) (newPath : String) : RootAlone (ft.renameNode oldPath newPath).1 := by
  rw [FileTree.renameNode]
  split
  · exact alone
  · split
    · exact alone
    · rename_i current found
      have below : root ≠ current := by
        rintro rfl
        have walked : ft.nodeAt (pathParts oldPath) = some root := (follow_eq_walk ft root clean).symm.trans found
        exact pathParts_ne_nil oldPath (linked.unique walked rfl)
      dsimp only
      split
      · exact alone.detach current
      · rename_i newParent _
        have detached := alone.detach current
        refine RootAlone.updateChildPaths _ ?_ current
        rw [FileTree.attach]
        refine RootAlone.modify ⟨?_, ?_⟩ newParent (by rfl)
        · rw [modify_node_ne _ _ below]
          exact detached.parent
        · exact detached.allocated

theorem RootAlone.syncNew (alone : RootAlone ft) (inp : SyncInput) (path : String) (stat : Stat) (sizes : FileSizes) :
    RootAlone (syncNew inp path stat ft sizes).1 := by
  have added := alone.addNodeLocked path (snapshotType inp.paths stat path) (resolveCidForPath path inp.ownerMap inp.hmcfg)
  unfold DfsFuzz.Tree.syncNew
  dsimp only
  split
  · exact added
  · split
    · exact @RootAlone.modify _ added _ (fun nd => { nd with size := stat.size.toUInt64 }) rfl
    · exact added

theorem RootAlone.syncOld (alone : RootAlone ft) (inp : SyncInput) (path : String) (stat : Stat) (n : NodeRef)
    (sizes : FileSizes) : RootAlone (syncOld inp path stat n ft sizes).1 := by
  have update := syncOld_update inp path stat n ft sizes
  refine ⟨?_, update.next ▸ alone.allocated⟩
  by_cases here : root = n
  · subst here
    rw [update.self]
    exact alone.parent
  · rw [update.others root here]
    exact alone.parent

theorem RootAlone.syncEntry {inp : SyncInput} {st : SyncState} (alone : RootAlone st.ft) (e : String × FileMetadata) :
    RootAlone (syncEntry inp st e).ft := by
  unfold DfsFuzz.Tree.syncEntry
  dsimp only
  split
  · exact alone.syncNew inp _ _ _
  · exact alone.syncOld inp _ _ _ _

theorem RootAlone.syncTree (alone : RootAlone ft) (visit sweep : Go.RangeOrder) (inp : SyncInput) :
    RootAlone (syncTree visit sweep inp ft).1 := by
  have entries : ∀ (es : List (String × FileMetadata)) (st : SyncState), RootAlone st.ft →
      RootAlone (es.foldl (DfsFuzz.Tree.syncEntry inp) st).ft := by
    intro es
    induction es with
    | nil => exact fun _ here => here
    | cons e es ih => exact fun st here => ih _ (here.syncEntry e)
  have sweeps : ∀ (es : List (String × NodeRef)) (ft : FileTree), RootAlone ft → RootAlone (es.foldl syncSweep ft) := by
    intro es
    induction es with
    | nil => exact fun _ here => here
    | cons e es ih => exact fun ft here => ih _ (here.removeNodeLocked _)
  exact sweeps _ _ (entries _ _ alone)

theorem Reachable.rootAlone (built : Reachable ft) : RootAlone ft := by
  induction built with
  | new => exact ⟨rfl, Nat.one_pos⟩
  | addNode _ _ type cid ih => exact ih.addNodeLocked _ type cid
  | removeNode _ _ ih => exact ih.removeNodeLocked _
  | renameNode built cleanOld _ ih => exact ih.renameNode built.linked cleanOld _
  | updateNodeSize _ path size ih =>
    unfold FileTree.updateNodeSize
    split
    · split
      · exact ih.modify _ rfl
      · exact ih
    · exact ih
  | initFromHmdfsConfig _ _ ih =>
    refine initFromHmdfsConfig_induct ?_ ?_ ih
    · exact fun ft path type cid _ here => here.addNodeLocked path type cid
    · exact fun ft n size here => here.modify n rfl
  | syncFileTreeFromFsMd _ visit sweep _ ih => exact ih.syncTree visit sweep _

end DfsFuzz.Tree
