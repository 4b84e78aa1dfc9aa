import DfsFuzz.Tree.Linked

/-! Detaching a node, and `RemoveNode`. -/

namespace DfsFuzz.Tree

open FileTree

theorem Linked.edge_of_concat {ft : FileTree} {q : List String} {x : String} {n : NodeRef}
    (found : ft.nodeAt (q ++ [x]) = some n) : ∃ p, ft.nodeAt q = some p ∧ ft.edge p x = some n := by
  rw [nodeAt_concat] at found
  exact Option.bind_eq_some_iff.mp found

/-- Two trees with the same nodes up to their children, and the same lists. -/
structure SameButChildren (ft ft' : FileTree) : Prop where
  node : ∀ m, ft'.node m = { ft.node m with children := (ft'.node m).children }
  next : ft'.next = ft.next
  nodes : ft'.nodesByCid = ft.nodesByCid
  files : ft'.filesByCid = ft.filesByCid
  dirs : ft'.dirsByCid = ft.dirsByCid

section Detach
variable {ft : FileTree} {π : List String} {x : String} {n p : NodeRef}

theorem detach_eq (linked : Linked ft) (found : ft.nodeAt (π ++ [x]) = some n) (parent : ft.nodeAt π = some p) :
    ft.detach n = ft.modify p fun nd => { nd with children := nd.children.erase x } := by
  have link := linked.link π x n found
  unfold detach
  rw [link.parent, parent, link.name]

theorem detach_same (linked : Linked ft) (found : ft.nodeAt (π ++ [x]) = some n) : SameButChildren ft (ft.detach n) := by
  obtain ⟨p, parent, _⟩ := Linked.edge_of_concat found
  rw [detach_eq linked found parent]
  refine ⟨fun m => ?_, rfl, rfl, rfl, rfl⟩
  by_cases here : m = p
  · subst here
    simp
  · rw [modify_node_ne ft _ here]

theorem detach_edge (linked : Linked ft) (found : ft.nodeAt (π ++ [x]) = some n) (parent : ft.nodeAt π = some p) :
    Walk.SameExcept p x ft.edge (ft.detach n).edge ∧ (ft.detach n).edge p x = none := by
  rw [detach_eq linked found parent]
  constructor
  · intro m y different
    unfold edge
    by_cases here : m = p
    · subst here
      have other : y ≠ x := different.resolve_left fun h => h rfl
      rw [modify_node_self]
      exact AList.lookup_erase_ne other
    · rw [modify_node_ne ft _ here]
  · unfold edge
    rw [modify_node_self]
    exact AList.lookup_erase _ _

theorem nodeAt_detach (linked : Linked ft) (found : ft.nodeAt (π ++ [x]) = some n) {q : List String} {m : NodeRef} :
    (ft.detach n).nodeAt q = some m ↔ ft.nodeAt q = some m ∧ ¬ π ++ [x] <+: q := by
  obtain ⟨p, parent, _⟩ := Linked.edge_of_concat found
  obtain ⟨change, gone⟩ := detach_edge linked found parent
  exact Walk.walk_unlink linked.tree parent change gone

theorem Linked.detach (linked : Linked ft) (found : ft.nodeAt (π ++ [x]) = some n) : Linked (ft.detach n) := by
  obtain ⟨p, parent, _⟩ := Linked.edge_of_concat found
  obtain ⟨change, gone⟩ := detach_edge linked found parent
  have same := detach_same linked found
  constructor
  · exact linked.tree.unlink parent change gone
  · intro q y m here
    obtain ⟨before, outside⟩ := (nodeAt_detach linked found).mp here
    have link := linked.link q y m before
    obtain ⟨k, above⟩ := nodeAt_of_prefix before
    have above' := (nodeAt_detach linked found).mpr ⟨above, not_prefix_of_concat outside⟩
    refine ⟨?_, ?_, ?_, link.component, by rw [same.next]; exact link.allocated⟩
    · rw [same.node m]
      exact link.name
    · rw [same.node m, above', ← above]
      exact link.parent
    · rw [same.node m]
      exact link.fullPath
  · rw [same.node root]
    exact linked.rootPath
  · rw [same.next]
    exact linked.rootAllocated
  · intro m free y
    rw [same.next] at free
    have apart : m ≠ p := Nat.ne_of_gt (Nat.lt_of_lt_of_le (linked.allocated parent) free)
    rw [change m y (Or.inl apart)]
    exact linked.blank m free y

theorem walk_detached (linked : Linked ft) (found : ft.nodeAt (π ++ [x]) = some n) (s : List String) :
    Walk.walk (ft.detach n).edge n s = Walk.walk ft.edge n s := by
  obtain ⟨p, parent, _⟩ := Linked.edge_of_concat found
  obtain ⟨change, _⟩ := detach_edge linked found parent
  refine Walk.walk_congr n s fun t y m _ here => change m y (Or.inl ?_)
  rintro rfl
  have around : ft.nodeAt ((π ++ [x]) ++ t) = some m := by rw [nodeAt_append, found, Option.bind_some, here]
  have lengths := congrArg List.length (linked.unique around parent)
  simp only [List.length_append, List.length_singleton] at lengths
  omega

theorem pathParts_concat (path : String) : ∃ q x, pathParts path = q ++ [x] :=
  ⟨_, _, (List.dropLast_append_getLast (pathParts_ne_nil path)).symm⟩

end Detach

theorem removeNodeFromCidLists_node (ft : FileTree) (n : NodeRef) :
    (ft.removeNodeFromCidLists n).node = ft.node ∧ (ft.removeNodeFromCidLists n).next = ft.next := by
  unfold removeNodeFromCidLists
  dsimp only
  split <;> exact ⟨rfl, rfl⟩

theorem Linked.heap {ft ft' : FileTree} (linked : Linked ft) (node : ft'.node = ft.node) (next : ft'.next = ft.next) :
    Linked ft' := by
  refine linked.congr ?_ next fun m => ?_
  · unfold edge
    rw [node]
  · rw [node]
    exact ⟨rfl, rfl, rfl⟩

theorem nodeAt_heap {ft ft' : FileTree} (node : ft'.node = ft.node) (q : List String) : ft'.nodeAt q = ft.nodeAt q := by
  have edges : ft'.edge = ft.edge := by
    unfold edge
    rw [node]
  rw [nodeAt, nodeAt, edges]

theorem removeNodeLocked_eq (ft : FileTree) {path : String} (clean : CleanPath path) :
    (ft.removeNodeLocked path).1 =
      match ft.nodeAt (pathParts path) with
      | none => ft
      | some n => (ft.detach n).removeNodeFromCidLists n := by
  have walked : ft.follow root (Go.split (cleanPath path) '/') = ft.nodeAt (pathParts path) := follow_eq_walk ft root clean
  rw [removeNodeLocked, if_neg clean.cleanPath_ne, walked]
  cases ft.nodeAt (pathParts path) <;> rfl

theorem Linked.removeNode {ft : FileTree} (linked : Linked ft) {path : String} (clean : CleanPath path) :
    Linked (ft.removeNode path) := by
  rw [FileTree.removeNode, removeNodeLocked_eq ft clean]
  cases found : ft.nodeAt (pathParts path) with
  | none => exact linked
  | some n =>
    obtain ⟨q, x, split⟩ := pathParts_concat path
    rw [split] at found
    obtain ⟨node, next⟩ := removeNodeFromCidLists_node (ft.detach n) n
    exact (linked.detach found).heap node next

end DfsFuzz.Tree
