import DfsFuzz.Choice.Relation
import DfsFuzz.Tree.Reach

/-! When a relation to a base path gives a path: the relations reported as available against the generator. -/

namespace DfsFuzz.Choice

open DfsFuzz.Tree

theorem follow_reached {ft : FileTree} {r n : NodeRef} {parts : List String} (found : ft.follow r parts = some n) :
    ∃ s, Walk.walk ft.edge r s = some n := by
  induction parts generalizing r with
  | nil => exact ⟨[], found⟩
  | cons part rest ih =>
    rw [FileTree.follow] at found
    split at found
    · exact ih found
    · cases step : ft.edge r part with
      | none =>
        rw [step] at found
        cases found
      | some child =>
        rw [step] at found
        obtain ⟨s, below⟩ := ih found
        exact ⟨part :: s, (walk_cons ft.edge r part s step).trans below⟩

theorem findNode_inTree {ft : FileTree} {path : String} {n : NodeRef} (found : ft.findNode path = some n) : InTree ft n := by
  unfold FileTree.findNode FileTree.findNodeLocked at found
  split at found
  · exact ⟨[], found⟩
  · exact follow_reached found

theorem fullPath_ne_empty {ft : FileTree} (linked : Linked ft) {n : NodeRef} (inside : InTree ft n) :
    (ft.node n).fullPath ≠ "" := by
  obtain ⟨q, found⟩ := inside
  rw [linked.fullPath found]
  intro empty
  have chars := congrArg String.toList empty
  rw [render_toList] at chars
  simp at chars

theorem inTree_child {ft : FileTree} {n child : NodeRef} (inside : InTree ft n) (member : child ∈ getChildren ft n) :
    InTree ft child := by
  obtain ⟨q, found⟩ := inside
  obtain ⟨e, listed, rfl⟩ := List.mem_map.mp member
  have step : ft.edge n e.1 = some e.2 := Go.Map.mem_items.mp listed
  exact ⟨q ++ [e.1], by rw [FileTree.nodeAt_concat, found, Option.bind_some, step]⟩

theorem inTree_parent {ft : FileTree} (linked : Linked ft) {n p : NodeRef} (inside : InTree ft n)
    (parent : getParent ft n = some p) (below : n ≠ root) : InTree ft p := by
  obtain ⟨q, found⟩ := inside
  rcases List.eq_nil_or_concat' q with rfl | ⟨s, x, rfl⟩
  · exact absurd (Option.some.inj found).symm below
  · exact ⟨s, (linked.link s x n found).parent.symm.trans parent⟩

theorem base_ne_root {ft : FileTree} (linked : Linked ft) {basePath : String} (clean : CleanPath basePath) {n : NodeRef}
    (found : ft.findNode basePath = some n) : n ≠ root := by
  rw [findNode_eq ft clean] at found
  rintro rfl
  exact pathParts_ne_nil _ (linked.unique found (FileTree.nodeAt_nil ft))

theorem drawPath_ne_empty {ft : FileTree} (linked : Linked ft) {nodes : List NodeRef} (inside : ∀ n ∈ nodes, InTree ft n)
    (draw : Draw) : drawPath ft nodes draw ≠ "" ↔ nodes ≠ [] := by
  constructor
  · rintro path rfl
    exact path rfl
  · intro nonempty
    have bound := draw.lt nodes.length (List.length_pos_iff.mpr nonempty)
    unfold drawPath
    rw [List.getElem?_eq_getElem bound]
    exact fullPath_ne_empty linked (inside _ (List.getElem_mem bound))

theorem filterNodes_ne_nil (ft : FileTree) (nodes : List NodeRef) (constraint : RelTarget) :
    countOK (countNodesByType ft nodes) constraint = true ↔ filterNodesByConstraint ft nodes constraint ≠ [] := by
  unfold filterNodesByConstraint countOK countNodesByType
  cases constraint with
  | any =>
    have whole := List.length_eq_countP_add_countP (fun n => decide ((ft.node n).type = .file)) (l := nodes)
    simp only [decide_eq_true_eq, decide_not] at whole ⊢
    rw [if_pos trivial, ← List.length_pos_iff, whole]
  | file => simp [nodeMatchesConstraint]
  | dir => simp [nodeMatchesConstraint]

theorem mem_filterNodes {ft : FileTree} {nodes : List NodeRef} {constraint : RelTarget} {n : NodeRef}
    (member : n ∈ filterNodesByConstraint ft nodes constraint) : n ∈ nodes := by
  unfold filterNodesByConstraint at member
  split at member
  · exact member
  · exact (List.mem_filter.mp member).1

theorem mem_unrelatedWalk {fuel : Nat} {ft : FileTree} {candidate : FileNode → Bool} {r n : NodeRef} :
    n ∈ unrelatedWalk fuel ft candidate r ↔
      candidate (ft.node n) = true ∧ ∃ s, s ≠ [] ∧ s.length ≤ fuel ∧ Walk.walk ft.edge r s = some n := by
  induction fuel generalizing r with
  | zero =>
    constructor
    · intro member
      cases member
    · rintro ⟨_, s, nonempty, short, _⟩
      exact absurd (List.length_eq_zero_iff.mp (Nat.le_zero.mp short)) nonempty
  | succ fuel ih =>
    rw [unrelatedWalk, List.mem_flatMap]
    constructor
    · rintro ⟨child, listed, member⟩
      obtain ⟨e, inside, rfl⟩ := List.mem_map.mp listed
      have step : ft.edge r e.1 = some e.2 := Go.Map.mem_items.mp inside
      rcases List.mem_append.mp member with here | below
      · split at here
        · rename_i good
          obtain rfl := List.mem_singleton.mp here
          exact ⟨good, [e.1], by simp, by simp, walk_cons ft.edge r e.1 [] step⟩
        · cases here
      · obtain ⟨good, s, _, short, found⟩ := ih.mp below
        exact ⟨good, e.1 :: s, by simp, by simpa using short, (walk_cons ft.edge r e.1 s step).trans found⟩
    · rintro ⟨good, s, nonempty, short, found⟩
      cases s with
      | nil => exact absurd rfl nonempty
      | cons x s =>
        obtain ⟨child, step, below⟩ := Option.bind_eq_some_iff.mp found
        refine ⟨child, List.mem_map.mpr ⟨(x, child), Go.Map.mem_items.mpr step, rfl⟩, List.mem_append.mpr ?_⟩
        cases s with
        | nil =>
          obtain rfl := Option.some.inj below
          exact Or.inl (by simp [good])
        | cons y s => exact Or.inr (ih.mpr ⟨good, y :: s, by simp, by simpa using short, below⟩)

def HasUnrelated (ft : FileTree) (basePath : String) (constraint : RelTarget) : Prop :=
  ∃ n, InTree ft n ∧ n ≠ root ∧ nodeMatchesConstraint (ft.node n) constraint = true ∧
    isUnrelated basePath (ft.node n).fullPath = true

theorem getRandomUnrelatedPath_ne_empty {ft : FileTree} (linked : Linked ft) (basePath : String) (draw : Draw)
    (constraint : RelTarget) : getRandomUnrelatedPath ft basePath draw constraint ≠ "" ↔ HasUnrelated ft basePath constraint := by
  unfold getRandomUnrelatedPath
  dsimp only
  rw [drawPath_ne_empty linked, ne_eq, List.eq_nil_iff_forall_not_mem, not_forall]
  · simp only [not_not]
    refine exists_congr fun n => ?_
    rw [mem_unrelatedWalk, Bool.and_eq_true]
    constructor
    · rintro ⟨⟨matched, unrelated⟩, s, nonempty, _, found⟩
      refine ⟨⟨s, found⟩, ?_, matched, unrelated⟩
      rintro rfl
      exact nonempty (linked.unique found (FileTree.nodeAt_nil ft))
    · rintro ⟨⟨s, found⟩, below, matched, unrelated⟩
      refine ⟨⟨matched, unrelated⟩, s, ?_, ?_, found⟩
      · rintro rfl
        exact below (Option.some.inj found).symm
      · exact Nat.le_of_lt (linked.tree.depth (fun _ _ here => linked.allocated here) found)
  · intro n member
    obtain ⟨_, s, _, _, found⟩ := mem_unrelatedWalk.mp member
    exact ⟨s, found⟩

section Relations
variable {ft : FileTree} {basePath : String}

def Anchored (ft : FileTree) (basePath : String) : Prop :=
  (∃ n, ft.findNode basePath = some n) ∨ ∃ p, ft.findNode (getParentDir basePath) = some p

theorem getPathByRelation_noRel (linked : Linked ft) (coin draw : Draw) (constraint : RelTarget) :
    getPathByRelation ft basePath "" .noRel coin draw false constraint ≠ "" ↔
      Anchored ft basePath ∧ HasUnrelated ft basePath constraint := by
  rw [← getRandomUnrelatedPath_ne_empty linked basePath draw constraint, Anchored]
  unfold getPathByRelation
  simp only [Bool.false_and, Bool.false_eq_true, if_false]
  cases ft.findNode basePath with
  | some n => simp
  | none =>
    cases ft.findNode (getParentDir basePath) with
    | some p => simp
    | none => simp

theorem available_same (fileTree : Option FileTree) (basePath : String) (target : RelTarget) :
    availableRelationsForBase fileTree basePath target .same = true ∧
      availableRelationsForBase fileTree basePath target .noRel = true := by
  unfold availableRelationsForBase RelOK.put
  cases fileTree with
  | none => exact ⟨rfl, rfl⟩
  | some ft =>
    dsimp only
    cases ft.findNodeLocked basePath with
    | some n => exact ⟨rfl, rfl⟩
    | none =>
      dsimp only
      cases ft.findNodeLocked (getParentDir basePath) with
      | some p => exact ⟨rfl, rfl⟩
      | none => exact ⟨rfl, rfl⟩

/-- The relations that depend on the tree are available only where they give a path. -/
theorem getPathByRelation_available (linked : Linked ft) (clean : CleanPath basePath) {relation : PathRelation}
    (placed : relation ∈ [.parent, .child, .sibling]) {constraint : RelTarget}
    (available : availableRelationsForBase (some ft) basePath constraint relation = true) (coin draw : Draw) :
    getPathByRelation ft basePath "" relation coin draw false constraint ≠ "" := by
  have some_of_count : ∀ nodes : List NodeRef, (∀ n ∈ nodes, InTree ft n) →
      countOK (countNodesByType ft nodes) constraint = true →
      drawPath ft (filterNodesByConstraint ft nodes constraint) draw ≠ "" := by
    intro nodes inside counted
    refine (drawPath_ne_empty linked (fun n member => inside n (mem_filterNodes member)) draw).mpr ?_
    exact (filterNodes_ne_nil ft nodes constraint).mp counted
  have find : ∀ path, ft.findNodeLocked path = ft.findNode path := fun _ => rfl
  unfold availableRelationsForBase at available
  unfold getPathByRelation
  simp only [Bool.false_and, Bool.false_eq_true, if_false, find] at available ⊢
  simp only [List.mem_cons, List.not_mem_nil, or_false] at placed
  cases found : ft.findNode basePath with
  | some base =>
    have below := base_ne_root linked clean found
    have inside := findNode_inTree found
    simp only [found, RelOK.put] at available
    rcases placed with rfl | rfl | rfl
    · simp at available
      obtain ⟨p, parent⟩ := Option.isSome_iff_exists.mp available.2
      simp only [available.1, if_false, parent]
      exact fullPath_ne_empty linked (inTree_parent linked inside parent below)
    · exact some_of_count _ (fun n member => inTree_child inside member) (by simpa using available)
    · refine some_of_count _ (fun n member => ?_) (by simpa using available)
      unfold getSibling at member
      cases parent : (ft.node base).parent with
      | none =>
        rw [parent] at member
        cases member
      | some p =>
        rw [parent] at member
        exact inTree_child (inTree_parent linked inside parent below) (List.mem_filter.mp member).1
  | none =>
    simp only [found] at available
    cases above : ft.findNode (getParentDir basePath) with
    | none =>
      simp only [above] at available
      rcases placed with rfl | rfl | rfl <;> simp at available
    | some parent =>
      have inside := findNode_inTree above
      simp only [above, RelOK.put] at available
      rcases placed with rfl | rfl | rfl
      · simp at available
        simp only [available, if_false]
        exact fullPath_ne_empty linked inside
      · simp at available
      · exact some_of_count _ (fun n member => inTree_child inside member) (by simpa using available)

end Relations

end DfsFuzz.Choice
