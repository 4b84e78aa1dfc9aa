import DfsFuzz.Tree.Reach

/-! When `RenameNode` is atomic and moves one subtree, in terms of what the tree shows. -/

namespace DfsFuzz.Tree

open FileTree

structure NodeView where
  fullPath : String
  type : FileNodeType
  ownerCid : String
  size : UInt64
deriving DecidableEq

def FileNode.view (nd : FileNode) : NodeView := ⟨nd.fullPath, nd.type, nd.ownerCid, nd.size⟩

def FileTree.view (ft : FileTree) (q : List String) : Option NodeView := (ft.nodeAt q).map fun n => (ft.node n).view

/-- The rename of `oldPath` to `newPath` does nothing, or moves what is at and below `oldPath` and nothing else. -/
structure RenamesSubtree (ft : FileTree) (oldPath newPath : String) : Prop where
  failed : (ft.renameNode oldPath newPath).2 = false → ∀ q, (ft.renameNode oldPath newPath).1.view q = ft.view q
  moved : (ft.renameNode oldPath newPath).2 = true → ∀ s, (ft.renameNode oldPath newPath).1.view (pathParts newPath ++ s) =
    (ft.view (pathParts oldPath ++ s)).map fun v => { v with fullPath := render (pathParts newPath ++ s) }
  gone : (ft.renameNode oldPath newPath).2 = true → pathParts oldPath ≠ pathParts newPath →
    (ft.renameNode oldPath newPath).1.view (pathParts oldPath) = none
  outside : (ft.renameNode oldPath newPath).2 = true → ∀ q, ¬ pathParts oldPath <+: q → ¬ pathParts newPath <+: q →
    (ft.renameNode oldPath newPath).1.view q = ft.view q

/-- There is nothing to move, or the new parent is outside what is moved, and nothing in it takes the
place of `old`. -/
def RenameFits (ft : FileTree) (old new : List String) : Prop :=
  ft.nodeAt old = none ∨
    ((ft.nodeAt new.dropLast).isSome = true ∧ ¬ old <+: new.dropLast ∧
      (new <+: old → old ≠ new → ft.nodeAt (old ++ old.drop new.length) = none))

instance (ft : FileTree) (old new : List String) : Decidable (RenameFits ft old new) :=
  inferInstanceAs (Decidable (_ ∨ _))

theorem view_eq_none {ft : FileTree} {q : List String} : ft.view q = none ↔ ft.nodeAt q = none := Option.map_eq_none_iff

section Detached
variable {ft : FileTree} {π : List String} {x : String} {c : NodeRef} (linked : Linked ft)
  (found : ft.nodeAt (π ++ [x]) = some c)
include linked found

theorem detach_view_gone : (ft.detach c).view (π ++ [x]) = none := by
  refine view_eq_none.mpr (Option.eq_none_iff_forall_ne_some.mpr fun m here => ?_)
  exact ((nodeAt_detach linked found).mp here).2 (List.prefix_refl _)

theorem nodeAt_detach_isSome (q : List String) :
    ((ft.detach c).nodeAt q).isSome = true ↔ (ft.nodeAt q).isSome = true ∧ ¬ π ++ [x] <+: q := by
  simp only [Option.isSome_iff_exists, nodeAt_detach linked found, exists_and_right]

end Detached

section Moved
variable {ft ft' : FileTree} {old new : List String} (spec : RenameSpec ft ft' old new)
include spec

theorem RenameSpec.view {q q' : List String} (same : ft'.nodeAt q = ft.nodeAt q') :
    ft'.view q = (ft.view q').map fun v => { v with fullPath := render q } := by
  cases here : ft.nodeAt q' with
  | none => rw [FileTree.view, FileTree.view, same, here, Option.map_none, Option.map_none, Option.map_none]
  | some m =>
    rw [here] at same
    obtain ⟨type, owner, size⟩ := spec.data m
    have path := spec.linked.fullPath same
    simp only [FileTree.view, same, here, Option.map_some, FileNode.view, type, owner, size, path]

theorem RenameSpec.nodeAt_new (s : List String) : ft'.nodeAt (new ++ s) = ft.nodeAt (old ++ s) := by
  refine Option.ext fun m => (spec.nodeAt (new ++ s) m).trans ⟨?_, fun here => Or.inr ⟨s, rfl, here⟩⟩
  rintro (⟨-, -, away⟩ | ⟨s', path, here⟩)
  · exact absurd (List.prefix_append new s) away
  · rwa [List.append_cancel_left path]

theorem RenameSpec.nodeAt_outside {q : List String} (away : ¬ old <+: q) (away' : ¬ new <+: q) :
    ft'.nodeAt q = ft.nodeAt q := by
  refine Option.ext fun m => (spec.nodeAt q m).trans ⟨?_, fun here => Or.inl ⟨here, away, away'⟩⟩
  rintro (⟨here, -, -⟩ | ⟨s, rfl, -⟩)
  · exact here
  · exact absurd (List.prefix_append new s) away'

/-- The old place is taken again only if it lies below the new one. -/
theorem RenameSpec.nodeAt_old : ft'.nodeAt old = none ↔ (new <+: old → ft.nodeAt (old ++ old.drop new.length) = none) := by
  constructor
  · rintro gone ⟨s, rfl⟩
    rw [List.drop_left]
    exact (spec.nodeAt_new s).symm.trans gone
  · intro free
    refine Option.eq_none_iff_forall_ne_some.mpr fun m here => ?_
    rcases (spec.nodeAt old m).mp here with ⟨-, away, -⟩ | ⟨s, path, below⟩
    · exact away (List.prefix_refl old)
    · have empty := free ⟨s, path.symm⟩
      have rest : old.drop new.length = s := by rw [path, List.drop_left]
      rw [rest, below] at empty
      cases empty

theorem RenameSpec.view_outside (linked : Linked ft) {q : List String} (away : ¬ old <+: q) (away' : ¬ new <+: q) :
    ft'.view q = ft.view q := by
  have same := spec.nodeAt_outside away away'
  rw [spec.view same]
  cases here : ft.nodeAt q with
  | none => rw [FileTree.view, here, Option.map_none, Option.map_none]
  | some m =>
    simp only [FileTree.view, here, Option.map_some, FileNode.view, linked.fullPath here]

end Moved

theorem renamesSubtree_found {ft ft' : FileTree} (linked : Linked ft) {oldPath newPath : String}
    (result : ft.renameNode oldPath newPath = (ft', true)) (spec : RenameSpec ft ft' (pathParts oldPath) (pathParts newPath)) :
    RenamesSubtree ft oldPath newPath ↔ (pathParts newPath <+: pathParts oldPath → pathParts oldPath ≠ pathParts newPath →
      ft.nodeAt (pathParts oldPath ++ (pathParts oldPath).drop (pathParts newPath).length) = none) := by
  constructor
  · intro atomic above different
    have gone := atomic.gone (congrArg Prod.snd result) different
    rw [result] at gone
    exact spec.nodeAt_old.mp (view_eq_none.mp gone) above
  · intro free
    refine ⟨fun failed => ?_, fun _ s => ?_, fun _ different => ?_, fun _ q away away' => ?_⟩
    · rw [result] at failed
      cases failed
    · rw [result]
      exact spec.view (spec.nodeAt_new s)
    · rw [result]
      exact view_eq_none.mpr (spec.nodeAt_old.mpr fun above => free above different)
    · rw [result]
      exact spec.view_outside linked away away'

/-- A rename between clean paths is atomic and moves one subtree exactly when it fits. -/
theorem renamesSubtree_iff {ft : FileTree} (built : Reachable ft) {oldPath newPath : String} (cleanOld : CleanPath oldPath)
    (cleanNew : CleanPath newPath) :
    RenamesSubtree ft oldPath newPath ↔ RenameFits ft (pathParts oldPath) (pathParts newPath) := by
  have linked := built.linked
  obtain ⟨π, x, parts⟩ := pathParts_concat oldPath
  unfold RenameFits
  rcases renameNode_cases ft cleanOld cleanNew with ⟨absent, result⟩ | ⟨c, found, rest⟩
  · refine iff_of_true ⟨fun _ q => ?_, fun done => ?_, fun done => ?_, fun done => ?_⟩ (Or.inl absent)
    · rw [result]
    all_goals
      rw [result] at done
      cases done
  · have parent := nodeAt_detach_isSome linked (parts ▸ found) (pathParts newPath).dropLast
    rw [← parts] at parent
    rw [found, ← and_assoc, ← parent, or_iff_right (Option.some_ne_none c)]
    rcases rest with ⟨missing, result⟩ | ⟨p, here, result⟩
    · -- the node is detached and nothing is reported
      rw [missing]
      refine iff_of_false (fun atomic => ?_) fun fits => absurd fits.1 Bool.false_ne_true
      have kept := atomic.failed (congrArg Prod.snd result) (pathParts oldPath)
      rw [result, parts, detach_view_gone linked (parts ▸ found), ← parts, FileTree.view, found] at kept
      cases kept
    · have spec := reattached_spec linked (parts ▸ found) here cleanNew.getLast.1
      rw [cleanNew.getLast.2, ← parts] at spec
      rw [here, renamesSubtree_found linked result spec]
      exact (and_iff_right rfl).symm

theorem renamesSubtree_iff_intoDir :
    RenamesSubtree ((newFileTree.addNode "merge_view/a/f" .file "c1").addNode "merge_view/b" .dir "c2")
      "merge_view/a" "merge_view/b/c" :=
  (renamesSubtree_iff (.addNode (.addNode .new (by decide) _ _) (by decide) _ _) (by decide) (by decide)).mpr (by decide)

/-- Without a parent for its new name, the node is gone. -/
theorem renameNode_losesNode : ¬ ∀ ft, Reachable ft → ∀ oldPath newPath, CleanPath oldPath → CleanPath newPath →
    RenamesSubtree ft oldPath newPath := by
  intro claim
  have built : Reachable (newFileTree.addNode "merge_view/a" .file "c1") := .addNode .new (by decide) _ _
  have kept := (claim _ built "merge_view/a" "merge_view/d/b" (by decide) (by decide)).failed (by decide) ["a"]
  exact absurd kept (by decide)

end DfsFuzz.Tree
