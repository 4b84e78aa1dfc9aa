import DfsFuzz.Choice.Available
import DfsFuzz.Mutation.PathRel

/-!
`GetPathByRelation` against `pathRelBetween`: when a path that is produced for a relation has that
relation, by the strings, to its base.
-/

namespace DfsFuzz.Mutation

open DfsFuzz.Choice DfsFuzz.Tree

/-! ### Clean paths of the merged view -/

/-- A component that `filepath.Clean` keeps. -/
def Plain (x : String) : Prop := Component x ∧ x ≠ "." ∧ x ≠ ".."

instance (x : String) : Decidable (Plain x) := inferInstanceAs (Decidable ((_ ∧ _) ∧ _))

/-- A clean path below `merge_view`. -/
structure MergePath (path : String) : Prop where
  inMergeView : Go.hasPrefix path mergeViewPrefix = true
  plain : ∀ x ∈ pathParts path, Plain x

instance (path : String) : Decidable (MergePath path) :=
  decidable_of_iff (Go.hasPrefix path mergeViewPrefix = true ∧ ∀ x ∈ pathParts path, Plain x)
    ⟨fun h => ⟨h.1, h.2⟩, fun h => ⟨h.1, h.2⟩⟩

theorem MergePath.clean {path : String} (merge : MergePath path) : CleanPath path :=
  fun empty => (merge.plain "" empty).1.1 rfl

theorem MergePath.render {path : String} (merge : MergePath path) : render (pathParts path) = path :=
  render_pathParts merge.inMergeView

theorem cleanStep_plain {x : String} (plain : Plain x) (out : List String) : Go.cleanStep false out x = x :: out := by
  unfold Go.cleanStep
  rw [if_neg (by simp [plain.1.1, plain.2.1]), if_neg plain.2.2]

variable {q : List String}

theorem foldl_cleanStep (plain : ∀ x ∈ q, Plain x) (out : List String) :
    q.foldl (Go.cleanStep false) out = q.reverse ++ out := by
  induction q generalizing out with
  | nil => rfl
  | cons x q ih =>
    rw [List.foldl_cons, cleanStep_plain (plain x List.mem_cons_self),
      ih fun y member => plain y (List.mem_cons_of_mem _ member), List.reverse_cons, List.append_assoc]
    rfl

theorem render_eq_join (q : List String) : render q = Go.join ("merge_view" :: q) := by
  apply String.toList_inj.mp
  rw [Go.join, List.map_cons, intercalate_slash, List.flatMap_map, String.toList_ofList, render_toList]

theorem plain_mergeView : Plain "merge_view" := by decide

theorem clean_render_slash (plain : ∀ x ∈ q, Plain x) : Go.clean (render q ++ "/") = render q := by
  have free : ∀ x ∈ "merge_view" :: (q ++ [""]), '/' ∉ x.toList := by
    intro x member
    rcases List.mem_cons.mp member with rfl | member
    · decide
    · rcases List.mem_append.mp member with inside | last
      · exact (plain x inside).1.2
      · obtain rfl := List.mem_singleton.mp last
        decide
  have whole : render q ++ "/" = Go.join ("merge_view" :: (q ++ [""])) := by
    rw [← render_eq_join, render_concat, String.append_empty]
  have start : Go.hasPrefix (render q ++ "/") "/" = false := by
    rw [Go.hasPrefix, String.toList_append, render_toList]
    rfl
  have nonempty : ∀ s, render q ++ s ≠ "" := by
    intro s empty
    have chars := congrArg String.toList empty
    rw [String.toList_append, render_toList] at chars
    simp at chars
  have kept : ("merge_view" :: (q ++ [""])).foldl (Go.cleanStep false) [] = q.reverse ++ ["merge_view"] := by
    rw [List.foldl_cons, List.foldl_append, cleanStep_plain plain_mergeView, foldl_cleanStep plain]
    rfl
  unfold Go.clean
  rw [if_neg (nonempty "/"), start]
  simp only [Bool.false_eq_true, if_false]
  rw [whole, Go.split_join (List.cons_ne_nil _ _) free, kept, List.reverse_append, List.reverse_reverse,
    List.reverse_singleton, List.singleton_append, ← render_eq_join, if_neg]
  have := nonempty ""
  rwa [String.append_empty] at this

theorem getParentDir_render (plain : ∀ x ∈ q, Plain x) {y : String} (component : Component y) :
    getParentDir (render (q ++ [y])) = render q := by
  have cut : ((render (q ++ [y])).toList.reverse.dropWhile (· ≠ '/')).reverse = (render q ++ "/").toList := by
    have outside : ∀ c ∈ y.toList.reverse, decide (c ≠ '/') = true := by
      intro c member
      refine decide_eq_true ?_
      rintro rfl
      exact component.2 (List.mem_reverse.mp member)
    rw [render_concat, String.toList_append, List.reverse_append, List.dropWhile_append_of_pos outside,
      String.toList_append, List.reverse_append]
    simp
  rw [getParentDir, Go.dir, cut, String.ofList_toList, clean_render_slash plain]

/-- `pathRelBetween`, on components. -/
def partsRel (q r : List String) : PathRelation :=
  if q = r then .same
  else if q <+: r then .child
  else if r <+: q then .parent
  else if q.dropLast = r.dropLast then .sibling
  else .noRel

theorem render_ne_empty (q : List String) : render q ≠ "" := by
  intro empty
  have chars := congrArg String.toList empty
  rw [render_toList] at chars
  simp at chars

theorem dropLast_concat_getLast (nonempty : q ≠ []) : ∃ s x, q = s ++ [x] :=
  ⟨_, _, (List.dropLast_append_getLast nonempty).symm⟩

theorem pathRelBetween_render {r : List String} (nonempty : q ≠ []) (plain : ∀ x ∈ q, Plain x)
    (good : ∀ x ∈ r, Component x) (plain' : ∀ x ∈ r.dropLast, Plain x) :
    pathRelBetween (render q) (render r) = partsRel q r := by
  have goodq : ∀ x ∈ q, Component x := fun x member => (plain x member).1
  have same : render q = render r ↔ q = r := ⟨render_injective goodq good, fun equal => equal ▸ rfl⟩
  have empty : (decide (render q = "") || decide (render r = "")) = false := by simp [render_ne_empty]
  unfold pathRelBetween partsRel
  simp only [empty, Bool.false_eq_true, if_false, same]
  by_cases equal : q = r
  · rw [if_pos equal, if_pos equal]
  · rw [if_neg equal, if_neg equal]
    simp only [hasPrefix_render_slash goodq good, hasPrefix_render_slash good goodq, equal, Ne.symm equal, ne_eq,
      not_false_eq_true, and_true]
    by_cases below : q <+: r
    · rw [if_pos below, if_pos below]
    · rw [if_neg below, if_neg below]
      by_cases above : r <+: q
      · rw [if_pos above, if_pos above]
      · rw [if_neg above, if_neg above]
        -- neither is the root, which is above every path
        have rest : r ≠ [] := fun root => above (root ▸ List.nil_prefix)
        obtain ⟨s, x, rfl⟩ := dropLast_concat_getLast nonempty
        obtain ⟨t, y, rfl⟩ := dropLast_concat_getLast rest
        rw [List.dropLast_concat] at plain'
        have plains : ∀ z ∈ s, Plain z := fun z member => plain z (List.mem_append_left _ member)
        have goods : ∀ z ∈ s, Component z := fun z member => (plains z member).1
        have goodt : ∀ z ∈ t, Component z := fun z member => (plain' z member).1
        have dirs : render s = render t ↔ s = t := ⟨render_injective goods goodt, fun equal => equal ▸ rfl⟩
        rw [getParentDir_render plains (goodq x (by simp)), getParentDir_render plain' (good y (by simp)),
          List.dropLast_concat, List.dropLast_concat]
        simp [render_ne_empty, dirs]

/-! ### What is offered for a relation -/

def Matches (ft : FileTree) (constraint : RelTarget) (r : List String) : Prop :=
  ∃ n, ft.nodeAt r = some n ∧ nodeMatchesConstraint (ft.node n) constraint = true

/-- Where `FindNode` looks for the directory of a base path: the root is not found under its own path. -/
def anchorDir (q : List String) : List String := if q.dropLast = [] then ["merge_view"] else q.dropLast

/-- One of the base paths that the coin can pick. -/
def IsBase (q₁ q₂ : List String) (isTwoPath : Bool) (q : List String) : Prop := q = q₁ ∨ isTwoPath = true ∧ q = q₂

/-- The paths that can be drawn for a relation. A base outside the tree always means the first one. -/
inductive Offered (ft : FileTree) (q₁ q₂ : List String) (isTwoPath : Bool) (constraint : RelTarget) :
    PathRelation → List String → Prop
  | parent {q : List String} {n : NodeRef} (base : IsBase q₁ q₂ isTwoPath q) (inTree : ft.nodeAt q = some n)
      (dirs : constraint ≠ .file) : Offered ft q₁ q₂ isTwoPath constraint .parent q.dropLast
  | child {q : List String} {y : String} (base : IsBase q₁ q₂ isTwoPath q) (matched : Matches ft constraint (q ++ [y])) :
      Offered ft q₁ q₂ isTwoPath constraint .child (q ++ [y])
  | sibling {q : List String} {n : NodeRef} {y : String} (base : IsBase q₁ q₂ isTwoPath q) (inTree : ft.nodeAt q = some n)
      (other : q.dropLast ++ [y] ≠ q) (matched : Matches ft constraint (q.dropLast ++ [y])) :
      Offered ft q₁ q₂ isTwoPath constraint .sibling (q.dropLast ++ [y])
  | freshParent {q : List String} {p : NodeRef} (base : IsBase q₁ q₂ isTwoPath q) (fresh : ft.nodeAt q = none)
      (anchor : ft.nodeAt (anchorDir q₁) = some p) (dirs : constraint ≠ .file) :
      Offered ft q₁ q₂ isTwoPath constraint .parent (anchorDir q₁)
  | freshSibling {q : List String} {y : String} (base : IsBase q₁ q₂ isTwoPath q) (fresh : ft.nodeAt q = none)
      (matched : Matches ft constraint (anchorDir q₁ ++ [y])) :
      Offered ft q₁ q₂ isTwoPath constraint .sibling (anchorDir q₁ ++ [y])

def Draw.index (i : Nat) : Draw where
  intn n := if i < n then i else 0
  lt n positive := by
    split
    · assumption
    · exact positive

variable {nodes : List NodeRef} {n : NodeRef}

theorem drawPath_of_mem {ft : FileTree} (member : n ∈ nodes) :
    ∃ draw, drawPath ft nodes draw = (ft.node n).fullPath := by
  obtain ⟨i, bound, rfl⟩ := List.mem_iff_getElem.mp member
  refine ⟨Draw.index i, ?_⟩
  have drawn : (Draw.index i).intn nodes.length = i := if_pos bound
  unfold drawPath
  rw [drawn, List.getElem?_eq_getElem bound]

theorem mem_of_drawPath {ft : FileTree} {draw : Draw} (drawn : drawPath ft nodes draw ≠ "") :
    ∃ n ∈ nodes, drawPath ft nodes draw = (ft.node n).fullPath := by
  unfold drawPath at drawn ⊢
  cases here : nodes[draw.intn nodes.length]? with
  | none =>
    rw [here] at drawn
    exact absurd rfl drawn
  | some n => exact ⟨n, List.mem_of_getElem? here, rfl⟩

theorem mem_filterNodes_iff {ft : FileTree} {constraint : RelTarget} :
    n ∈ filterNodesByConstraint ft nodes constraint ↔
      n ∈ nodes ∧ nodeMatchesConstraint (ft.node n) constraint = true := by
  unfold filterNodesByConstraint
  split
  · rename_i any
    subst any
    simp [nodeMatchesConstraint]
  · exact List.mem_filter

variable {p : NodeRef}

section Linked
variable {ft : FileTree} (linked : Linked ft)

theorem mem_getChildren (found : ft.nodeAt q = some p) (n : NodeRef) :
    n ∈ getChildren ft p ↔ ∃ r, (∃ y, r = q ++ [y]) ∧ ft.nodeAt r = some n := by
  have step : ∀ y, ft.nodeAt (q ++ [y]) = ft.edge p y := by
    intro y
    rw [FileTree.nodeAt_concat, found, Option.bind_some]
  constructor
  · intro member
    obtain ⟨e, listed, rfl⟩ := List.mem_map.mp member
    exact ⟨_, ⟨e.1, rfl⟩, (step e.1).trans (Go.Map.mem_items.mp listed)⟩
  · rintro ⟨r, ⟨y, rfl⟩, here⟩
    exact List.mem_map.mpr ⟨(y, n), Go.Map.mem_items.mpr ((step y).symm.trans here), rfl⟩

include linked

theorem mem_getSibling (nonempty : q ≠ []) (found : ft.nodeAt q = some n) (m : NodeRef) :
    m ∈ getSibling ft n ↔ ∃ r, (∃ y, r = q.dropLast ++ [y] ∧ q.dropLast ++ [y] ≠ q) ∧ ft.nodeAt r = some m := by
  obtain ⟨s, x, rfl⟩ := dropLast_concat_getLast nonempty
  obtain ⟨p, above, -⟩ := Linked.edge_of_concat found
  have parent : (ft.node n).parent = some p := (linked.link s x n found).parent.trans above
  rw [getSibling, parent, List.dropLast_concat]
  simp only [List.mem_filter, mem_getChildren above, decide_not, Bool.not_eq_true', decide_eq_false_iff_not]
  constructor
  · rintro ⟨⟨r, ⟨y, rfl⟩, here⟩, different⟩
    refine ⟨_, ⟨y, rfl, fun same => ?_⟩, here⟩
    rw [same, found] at here
    exact different (Option.some.inj here).symm
  · rintro ⟨r, ⟨y, rfl, different⟩, here⟩
    refine ⟨⟨_, ⟨y, rfl⟩, here⟩, ?_⟩
    rintro rfl
    exact different (linked.unique here found)

theorem drawPath_matches {constraint : RelTarget} {at_ : List String → Prop}
    (listed_iff : ∀ n, n ∈ nodes ↔ ∃ r, at_ r ∧ ft.nodeAt r = some n) :
    (∀ draw, drawPath ft (filterNodesByConstraint ft nodes constraint) draw ≠ "" →
      ∃ r, at_ r ∧ Matches ft constraint r ∧ drawPath ft (filterNodesByConstraint ft nodes constraint) draw = render r) ∧
    ∀ r, at_ r → Matches ft constraint r →
      ∃ draw, drawPath ft (filterNodesByConstraint ft nodes constraint) draw = render r := by
  constructor
  · intro draw drawn
    obtain ⟨n, member, path⟩ := mem_of_drawPath drawn
    obtain ⟨listed, matched⟩ := mem_filterNodes_iff.mp member
    obtain ⟨r, place, here⟩ := (listed_iff n).mp listed
    exact ⟨r, place, ⟨n, here, matched⟩, path.trans (linked.fullPath here)⟩
  · rintro r place ⟨n, here, matched⟩
    have member := mem_filterNodes_iff.mpr ⟨(listed_iff n).mpr ⟨r, place, here⟩, matched⟩
    obtain ⟨draw, drawn⟩ := drawPath_of_mem member
    exact ⟨draw, drawn.trans (linked.fullPath here)⟩

/-! ### The generator, by the base that the coin picks -/

/-- `GetPathByRelation` after it has looked up the base node. -/
def relationPath (ft : FileTree) (basePath : String) (relation : PathRelation) (draw : Draw) (constraint : RelTarget)
    (baseNode : Option NodeRef) : String :=
  match baseNode with
  | none =>
    match relation with
    | .self | .selfTwo | .same => basePath
    | _ =>
      match ft.findNode (getParentDir basePath) with
      | none => ""
      | some parent =>
        match relation with
        | .parent => if constraint = .file then "" else (ft.node parent).fullPath
        | .sibling => drawPath ft (filterNodesByConstraint ft (getChildren ft parent) constraint) draw
        | .noRel => getRandomUnrelatedPath ft basePath draw constraint
        | _ => ""
  | some baseNode =>
    match relation with
    | .self | .selfTwo | .same => basePath
    | .parent =>
      if constraint = .file then ""
      else
        match getParent ft baseNode with
        | none => ""
        | some parent => (ft.node parent).fullPath
    | .child => drawPath ft (filterNodesByConstraint ft (getChildren ft baseNode) constraint) draw
    | .sibling => drawPath ft (filterNodesByConstraint ft (getSibling ft baseNode) constraint) draw
    | .noRel => getRandomUnrelatedPath ft basePath draw constraint

end Linked

section Generator

theorem relationPath_parent {ft : FileTree} {constraint : RelTarget} (basePath : String) (draw : Draw)
    (dirs : constraint ≠ .file) (parent : getParent ft n = some p) :
    relationPath ft basePath .parent draw constraint (some n) = (ft.node p).fullPath := by
  unfold relationPath
  dsimp only
  rw [if_neg dirs, parent]

theorem relationPath_freshParent {ft : FileTree} {constraint : RelTarget} {basePath : String} (draw : Draw)
    (dirs : constraint ≠ .file) (parent : ft.findNode (getParentDir basePath) = some p) :
    relationPath ft basePath .parent draw constraint none = (ft.node p).fullPath := by
  unfold relationPath
  rw [parent]
  exact if_neg dirs

theorem relationPath_freshSibling {ft : FileTree} {constraint : RelTarget} {basePath : String} (draw : Draw)
    (parent : ft.findNode (getParentDir basePath) = some p) :
    relationPath ft basePath .sibling draw constraint none =
      drawPath ft (filterNodesByConstraint ft (getChildren ft p) constraint) draw := by
  unfold relationPath
  rw [parent]

variable {ft : FileTree} {basePath basePath2 : String} {isTwoPath : Bool}

theorem getPathByRelation_eq (relation : PathRelation) (coin draw : Draw) (constraint : RelTarget) :
    getPathByRelation ft basePath basePath2 relation coin draw isTwoPath constraint =
      relationPath ft basePath relation draw constraint
        (if isTwoPath && coin.intn 2 ≠ 0 then ft.findNode basePath2 else ft.findNode basePath) := by
  unfold getPathByRelation relationPath
  generalize (if (isTwoPath && coin.intn 2 ≠ 0) = true then ft.findNode basePath2 else ft.findNode basePath) = baseNode
  generalize ft.findNode (getParentDir basePath) = parent
  cases baseNode <;> cases parent <;> cases relation <;> rfl

variable (merge : MergePath basePath) (merge2 : isTwoPath = true → MergePath basePath2)
include merge merge2

theorem coin_base (ft : FileTree) (relation : PathRelation) (coin draw : Draw) (constraint : RelTarget) :
    ∃ q, IsBase (pathParts basePath) (pathParts basePath2) isTwoPath q ∧
      getPathByRelation ft basePath basePath2 relation coin draw isTwoPath constraint =
        relationPath ft basePath relation draw constraint (ft.nodeAt q) := by
  rw [getPathByRelation_eq]
  by_cases second : (isTwoPath && coin.intn 2 ≠ 0) = true
  · obtain ⟨two, -⟩ := Bool.and_eq_true_iff.mp second
    rw [if_pos second, findNode_eq ft (merge2 two).clean]
    exact ⟨_, Or.inr ⟨two, rfl⟩, rfl⟩
  · rw [if_neg second, findNode_eq ft merge.clean]
    exact ⟨_, Or.inl rfl, rfl⟩

theorem base_coin (ft : FileTree) (base : IsBase (pathParts basePath) (pathParts basePath2) isTwoPath q) :
    ∃ coin, ∀ relation draw constraint,
      getPathByRelation ft basePath basePath2 relation coin draw isTwoPath constraint =
        relationPath ft basePath relation draw constraint (ft.nodeAt q) := by
  rcases base with rfl | ⟨two, rfl⟩
  · refine ⟨Draw.index 0, fun relation draw constraint => ?_⟩
    have first : ¬ (isTwoPath && (Draw.index 0).intn 2 ≠ 0) = true := by simp [Draw.index]
    rw [getPathByRelation_eq, if_neg first, findNode_eq ft merge.clean]
  · refine ⟨Draw.index 1, fun relation draw constraint => ?_⟩
    have second : (isTwoPath && (Draw.index 1).intn 2 ≠ 0) = true := by simp [Draw.index, two]
    rw [getPathByRelation_eq, if_pos second, findNode_eq ft (merge2 two).clean]

omit merge2 in
theorem findNode_parentDir : ft.findNode (getParentDir basePath) = ft.nodeAt (anchorDir (pathParts basePath)) := by
  obtain ⟨s, x, parts⟩ := pathParts_concat basePath
  have plain := merge.plain
  rw [parts] at plain
  have plains : ∀ y ∈ s, Plain y := fun y member => plain y (List.mem_append_left _ member)
  have dir : getParentDir basePath = render s := by
    rw [← merge.render, parts]
    exact getParentDir_render plains (plain x (by simp)).1
  rw [dir, parts, anchorDir, List.dropLast_concat]
  by_cases top : s = []
  · subst top
    exact findNode_eq ft (by decide)
  · have good : ∀ y ∈ s, Component y := fun y member => (plains y member).1
    rw [if_neg top, findNode_eq ft (cleanPath_render' top good), pathParts_render top good]

variable (linked : Linked ft)
include linked

theorem offered_of_path {relation : PathRelation} (placed : relation ∈ [.parent, .child, .sibling]) {coin draw : Draw}
    {constraint : RelTarget} {path : String}
    (result : getPathByRelation ft basePath basePath2 relation coin draw isTwoPath constraint = path) (some_ : path ≠ "") :
    ∃ r, Offered ft (pathParts basePath) (pathParts basePath2) isTwoPath constraint relation r ∧ path = render r := by
  obtain ⟨q, base, picked⟩ := coin_base merge merge2 ft relation coin draw constraint
  have nonempty : q ≠ [] := by
    rcases base with rfl | ⟨-, rfl⟩ <;> exact pathParts_ne_nil _
  rw [picked] at result
  subst result
  simp only [List.mem_cons, List.not_mem_nil, or_false] at placed
  unfold relationPath at some_ ⊢
  rw [findNode_parentDir merge] at some_ ⊢
  cases inTree : ft.nodeAt q with
  | some n =>
    rw [inTree] at some_
    rcases placed with rfl | rfl | rfl
    · by_cases file : constraint = .file
      · exact absurd (if_pos file) some_
      · obtain ⟨s, x, rfl⟩ := dropLast_concat_getLast nonempty
        obtain ⟨p, above, -⟩ := Linked.edge_of_concat inTree
        have parent : getParent ft n = some p := (linked.link s x n inTree).parent.trans above
        refine ⟨_, .parent base inTree file, ?_⟩
        simp only [file, if_false, parent, List.dropLast_concat]
        exact linked.fullPath above
    · obtain ⟨r, ⟨y, rfl⟩, matched, path⟩ := (drawPath_matches linked (mem_getChildren inTree)).1 draw some_
      exact ⟨_, .child base matched, path⟩
    · obtain ⟨r, ⟨y, rfl, other⟩, matched, path⟩ := (drawPath_matches linked
        (mem_getSibling linked nonempty inTree)).1 draw some_
      exact ⟨_, .sibling base inTree other matched, path⟩
  | none =>
    rw [inTree] at some_
    cases anchor : ft.nodeAt (anchorDir (pathParts basePath)) with
    | none =>
      rw [anchor] at some_
      rcases placed with rfl | rfl | rfl <;> exact absurd rfl some_
    | some p =>
      rw [anchor] at some_
      rcases placed with rfl | rfl | rfl
      · by_cases file : constraint = .file
        · exact absurd (if_pos file) some_
        · exact ⟨_, .freshParent base inTree anchor file, (if_neg file).trans (linked.fullPath anchor)⟩
      · exact absurd rfl some_
      · obtain ⟨r, ⟨y, rfl⟩, matched, path⟩ := (drawPath_matches linked (mem_getChildren anchor)).1 draw some_
        exact ⟨_, .freshSibling base inTree matched, path⟩

theorem path_of_offered {relation : PathRelation} {constraint : RelTarget} {r : List String}
    (offered : Offered ft (pathParts basePath) (pathParts basePath2) isTwoPath constraint relation r) :
    ∃ coin draw, getPathByRelation ft basePath basePath2 relation coin draw isTwoPath constraint = render r := by
  have nonempty : ∀ {q}, IsBase (pathParts basePath) (pathParts basePath2) isTwoPath q → q ≠ [] := by
    rintro q (rfl | ⟨-, rfl⟩) <;> exact pathParts_ne_nil _
  cases offered with
  | @parent q n base inTree dirs =>
    obtain ⟨coin, picked⟩ := base_coin merge merge2 ft base
    refine ⟨coin, Draw.index 0, ?_⟩
    rw [picked]
    obtain ⟨s, x, rfl⟩ := dropLast_concat_getLast (nonempty base)
    obtain ⟨p, above, -⟩ := Linked.edge_of_concat inTree
    have parent : getParent ft n = some p := (linked.link s x n inTree).parent.trans above
    rw [inTree, List.dropLast_concat, ← linked.fullPath above, relationPath_parent basePath _ dirs parent]
  | @child q y base matched =>
    obtain ⟨coin, picked⟩ := base_coin merge merge2 ft base
    obtain ⟨m, here, good⟩ := matched
    obtain ⟨n, inTree⟩ := nodeAt_of_prefix here
    obtain ⟨draw, path⟩ := (drawPath_matches linked (mem_getChildren inTree)).2 _ ⟨y, rfl⟩ ⟨m, here, good⟩
    refine ⟨coin, draw, ?_⟩
    rw [picked, inTree]
    exact path
  | @sibling q n y base inTree other matched =>
    obtain ⟨coin, picked⟩ := base_coin merge merge2 ft base
    obtain ⟨draw, path⟩ := (drawPath_matches linked
      (mem_getSibling linked (nonempty base) inTree)).2 _ ⟨y, rfl, other⟩ matched
    refine ⟨coin, draw, ?_⟩
    rw [picked, inTree]
    exact path
  | @freshParent q p base fresh anchor dirs =>
    obtain ⟨coin, picked⟩ := base_coin merge merge2 ft base
    refine ⟨coin, Draw.index 0, ?_⟩
    rw [picked]
    rw [fresh, ← linked.fullPath anchor, relationPath_freshParent _ dirs ((findNode_parentDir merge).trans anchor)]
  | @freshSibling q y base fresh matched =>
    obtain ⟨coin, picked⟩ := base_coin merge merge2 ft base
    obtain ⟨m, here, good⟩ := matched
    obtain ⟨p, anchor⟩ := nodeAt_of_prefix here
    obtain ⟨draw, path⟩ := (drawPath_matches linked (mem_getChildren anchor)).2 _ ⟨y, rfl⟩ ⟨m, here, good⟩
    refine ⟨coin, draw, ?_⟩
    rw [picked, fresh, relationPath_freshSibling _ ((findNode_parentDir merge).trans anchor), path]

end Generator

/-! ### When the relation is kept -/

/-- Whatever is drawn, a path that is produced has the relation to a base path, and is a node that matches the constraint. -/
def RelationKept (ft : FileTree) (basePath basePath2 : String) (relation : PathRelation) (isTwoPath : Bool)
    (constraint : RelTarget) : Prop :=
  ∀ coin draw path, getPathByRelation ft basePath basePath2 relation coin draw isTwoPath constraint = path → path ≠ "" →
    (pathRelBetween basePath path = relation ∨ isTwoPath = true ∧ pathRelBetween basePath2 path = relation) ∧
    (relation ≠ .same → ∃ n, InTree ft n ∧ (ft.node n).fullPath = path ∧ nodeMatchesConstraint (ft.node n) constraint = true)

/-- The ways in which it is not. A stray node is one named `merge_view` right below the root: it is found in place of
the root, where the directory of a top-level base is looked up. -/
inductive Misfit (ft : FileTree) (q₁ q₂ : List String) (isTwoPath : Bool) : RelTarget → PathRelation → Prop
  /-- a directory is wanted, and the parent of a base in the tree is a file -/
  | fileParent {q : List String} {n p : NodeRef} (base : IsBase q₁ q₂ isTwoPath q) (inTree : ft.nodeAt q = some n)
      (above : ft.nodeAt q.dropLast = some p) (file : (ft.node p).type = .file) : Misfit ft q₁ q₂ isTwoPath .dir .parent
  /-- the same, for the directory where a base outside the tree is anchored -/
  | fileAnchor {q : List String} {p : NodeRef} (base : IsBase q₁ q₂ isTwoPath q) (fresh : ft.nodeAt q = none)
      (anchor : ft.nodeAt (anchorDir q₁) = some p) (file : (ft.node p).type = .file) : Misfit ft q₁ q₂ isTwoPath .dir .parent
  /-- a stray node is returned for the root, unless the second base is below it -/
  | strayParent {q : List String} {p : NodeRef} {constraint : RelTarget} (base : IsBase q₁ q₂ isTwoPath q)
      (fresh : ft.nodeAt q = none) (top : q₁.dropLast = []) (stray : ft.nodeAt ["merge_view"] = some p)
      (dirs : constraint ≠ .file) (apart : ¬ (isTwoPath = true ∧ ["merge_view"] <+: q₂ ∧ q₂ ≠ ["merge_view"])) :
      Misfit ft q₁ q₂ isTwoPath constraint .parent
  /-- what is in a stray node is returned as a sibling, unless it is one of the second base -/
  | straySibling {q : List String} {y : String} {constraint : RelTarget} (base : IsBase q₁ q₂ isTwoPath q)
      (fresh : ft.nodeAt q = none) (top : q₁.dropLast = []) (matched : Matches ft constraint ["merge_view", y])
      (apart : ¬ (isTwoPath = true ∧ q₂.dropLast = ["merge_view"] ∧ q₂ ≠ ["merge_view", y])) :
      Misfit ft q₁ q₂ isTwoPath constraint .sibling
  /-- the second base is picked and outside the tree, and the first one is returned as a sibling of itself -/
  | itself {constraint : RelTarget} (two : isTwoPath = true) (fresh : ft.nodeAt q₂ = none) (deep : q₁.dropLast ≠ [])
      (matched : Matches ft constraint q₁) (apart : q₂.dropLast ≠ q₁.dropLast) : Misfit ft q₁ q₂ isTwoPath constraint .sibling

theorem partsRel_parent_iff {r : List String} : partsRel q r = .parent ↔ r <+: q ∧ q ≠ r := by
  unfold partsRel
  split_ifs with same below above sibling
  · simp [same]
  · simp only [false_iff, not_and, not_not]
    exact fun above => below.eq_of_length_le above.length_le
  · simp [above, same]
  · simp [above]
  · simp [above]

theorem partsRel_sibling_iff {s : List String} (nonempty : q ≠ []) {y : String} :
    partsRel q (s ++ [y]) = .sibling ↔ q.dropLast = s ∧ q ≠ s ++ [y] := by
  obtain ⟨t, x, rfl⟩ := dropLast_concat_getLast nonempty
  unfold partsRel
  rw [List.dropLast_concat, List.dropLast_concat]
  have equal_length : ∀ {u v : List String}, u <+: v → u.length = v.length → u = v := fun inside same =>
    inside.eq_of_length same
  split_ifs with same below above sibling
  · simp [same]
  · simp only [false_iff, not_and, not_not]
    rintro rfl
    exact equal_length below (by simp)
  · simp only [false_iff, not_and, not_not]
    rintro rfl
    exact (equal_length above (by simp)).symm
  · exact iff_of_true rfl ⟨sibling, same⟩
  · simp [sibling]

theorem matches_of_dirs {ft : FileTree} {constraint : RelTarget} (dirs : constraint ≠ .file) {r : List String}
    (found : ft.nodeAt r = some p) : Matches ft constraint r ↔ (constraint = .dir → (ft.node p).type ≠ .file) := by
  unfold Matches
  cases constraint with
  | any => simp [found, nodeMatchesConstraint]
  | file => exact absurd rfl dirs
  | dir => simp [found, nodeMatchesConstraint]

section Kept
variable {ft : FileTree} {q₁ q₂ : List String} {isTwoPath : Bool} {constraint : RelTarget} {relation : PathRelation}
  {r : List String}

/-- What is offered is in the tree, and its directory is a plain path. -/
theorem Offered.place (plain₁ : ∀ x ∈ q₁, Plain x) (plain₂ : isTwoPath = true → ∀ x ∈ q₂, Plain x)
    (offered : Offered ft q₁ q₂ isTwoPath constraint relation r) :
    (∃ n, ft.nodeAt r = some n) ∧ ∀ x ∈ r.dropLast, Plain x := by
  have plains : ∀ {q}, IsBase q₁ q₂ isTwoPath q → ∀ x ∈ q, Plain x := by
    rintro q (rfl | ⟨two, rfl⟩)
    · exact plain₁
    · exact plain₂ two
  have anchors : ∀ x ∈ anchorDir q₁, Plain x := by
    intro x member
    unfold anchorDir at member
    split at member
    · obtain rfl := List.mem_singleton.mp member
      exact plain_mergeView
    · exact plain₁ x (List.mem_of_mem_dropLast member)
  have found : ∀ {s : List String}, Matches ft constraint s → ∃ n, ft.nodeAt s = some n := fun ⟨n, here, _⟩ => ⟨n, here⟩
  cases offered with
  | parent base inTree dirs =>
    rename_i q n
    refine ⟨?_, fun x member => plains base x (List.mem_of_mem_dropLast (List.mem_of_mem_dropLast member))⟩
    rcases eq_or_ne q [] with rfl | nonempty
    · exact ⟨n, inTree⟩
    · obtain ⟨s, x, rfl⟩ := dropLast_concat_getLast nonempty
      rw [List.dropLast_concat]
      exact nodeAt_of_prefix inTree
  | child base matched =>
    rw [List.dropLast_concat]
    exact ⟨found matched, plains base⟩
  | sibling base inTree other matched =>
    rw [List.dropLast_concat]
    exact ⟨found matched, fun x member => plains base x (List.mem_of_mem_dropLast member)⟩
  | freshParent base fresh anchor dirs =>
    exact ⟨⟨_, anchor⟩, fun x member => anchors x (List.mem_of_mem_dropLast member)⟩
  | freshSibling base fresh matched =>
    rw [List.dropLast_concat]
    exact ⟨found matched, anchors⟩

/-- A path that is offered has the relation to a base, and matches. -/
def Fits (ft : FileTree) (q₁ q₂ : List String) (isTwoPath : Bool) (constraint : RelTarget) (relation : PathRelation)
    (r : List String) : Prop :=
  (partsRel q₁ r = relation ∨ isTwoPath = true ∧ partsRel q₂ r = relation) ∧ Matches ft constraint r

variable (nonempty₁ : q₁ ≠ []) (nonempty₂ : q₂ ≠ [])
include nonempty₁ nonempty₂

theorem fits_or_misfit (offered : Offered ft q₁ q₂ isTwoPath constraint relation r) :
    Fits ft q₁ q₂ isTwoPath constraint relation r ∨ Misfit ft q₁ q₂ isTwoPath constraint relation := by
  have related : ∀ {q}, IsBase q₁ q₂ isTwoPath q → partsRel q r = relation →
      partsRel q₁ r = relation ∨ isTwoPath = true ∧ partsRel q₂ r = relation := by
    rintro q (rfl | ⟨two, rfl⟩) rel
    · exact Or.inl rel
    · exact Or.inr ⟨two, rel⟩
  have nonempty : ∀ {q}, IsBase q₁ q₂ isTwoPath q → q ≠ [] := by
    rintro q (rfl | ⟨two, rfl⟩)
    · exact nonempty₁
    · exact nonempty₂
  have shorter : ∀ {q : List String}, q ≠ [] → q ≠ q.dropLast := by
    intro q some_ same
    have lengths := congrArg List.length same
    have positive := List.length_pos_iff.mpr some_
    rw [List.length_dropLast] at lengths
    omega
  cases offered with
  | parent base inTree dirs =>
    rename_i q n
    obtain ⟨p, above⟩ : ∃ p, ft.nodeAt q.dropLast = some p := by
      obtain ⟨s, x, rfl⟩ := dropLast_concat_getLast (nonempty base)
      rw [List.dropLast_concat]
      exact nodeAt_of_prefix inTree
    by_cases wrong : constraint = .dir ∧ (ft.node p).type = .file
    · obtain ⟨rfl, file⟩ := wrong
      exact Or.inr (.fileParent base inTree above file)
    · refine Or.inl ⟨related base (partsRel_parent_iff.mpr ⟨List.dropLast_prefix q, shorter (nonempty base)⟩), ?_⟩
      exact (matches_of_dirs dirs above).mpr fun dir file => wrong ⟨dir, file⟩
  | child base matched =>
    rename_i q y
    refine Or.inl ⟨related base ?_, matched⟩
    rw [partsRel, if_neg (by simp), if_pos (List.prefix_append q [y])]
  | sibling base inTree other matched =>
    exact Or.inl ⟨related base ((partsRel_sibling_iff (nonempty base)).mpr ⟨rfl, other.symm⟩), matched⟩
  | freshParent base fresh anchor dirs =>
    rename_i q p
    by_cases wrong : constraint = .dir ∧ (ft.node p).type = .file
    · obtain ⟨rfl, file⟩ := wrong
      exact Or.inr (.fileAnchor base fresh anchor file)
    · have matched := (matches_of_dirs dirs anchor).mpr fun dir file => wrong ⟨dir, file⟩
      by_cases top : q₁.dropLast = []
      · rw [anchorDir, if_pos top] at anchor matched ⊢
        by_cases below : isTwoPath = true ∧ ["merge_view"] <+: q₂ ∧ q₂ ≠ ["merge_view"]
        · exact Or.inl ⟨Or.inr ⟨below.1, partsRel_parent_iff.mpr below.2⟩, matched⟩
        · exact Or.inr (.strayParent base fresh top anchor dirs below)
      · rw [anchorDir, if_neg top] at matched ⊢
        exact Or.inl ⟨Or.inl (partsRel_parent_iff.mpr ⟨List.dropLast_prefix q₁, shorter nonempty₁⟩), matched⟩
  | freshSibling base fresh matched =>
    rename_i q y
    by_cases top : q₁.dropLast = []
    · rw [anchorDir, if_pos top] at matched ⊢
      by_cases beside : isTwoPath = true ∧ q₂.dropLast = ["merge_view"] ∧ q₂ ≠ ["merge_view", y]
      · exact Or.inl ⟨Or.inr ⟨beside.1, (partsRel_sibling_iff nonempty₂).mpr beside.2⟩, matched⟩
      · exact Or.inr (.straySibling base fresh top matched beside)
    · rw [anchorDir, if_neg top] at matched ⊢
      by_cases itself : q₁ = q₁.dropLast ++ [y]
      · rw [← itself] at matched ⊢
        obtain ⟨n, here, good⟩ := matched
        rcases base with rfl | ⟨two, rfl⟩
        · rw [here] at fresh
          cases fresh
        · by_cases beside : q.dropLast = q₁.dropLast
          · refine Or.inl ⟨Or.inr ⟨two, ?_⟩, n, here, good⟩
            rw [itself]
            refine (partsRel_sibling_iff nonempty₂).mpr ⟨beside, ?_⟩
            rw [← itself]
            rintro rfl
            rw [here] at fresh
            cases fresh
          · exact Or.inr (.itself two fresh top ⟨n, here, good⟩ beside)
      · exact Or.inl ⟨Or.inl ((partsRel_sibling_iff nonempty₁).mpr ⟨rfl, itself⟩), matched⟩

theorem misfit_offers (misfit : Misfit ft q₁ q₂ isTwoPath constraint relation) :
    ∃ r, Offered ft q₁ q₂ isTwoPath constraint relation r ∧ ¬ Fits ft q₁ q₂ isTwoPath constraint relation r := by
  cases misfit with
  | fileParent base inTree above file =>
    refine ⟨_, .parent base inTree (by decide), fun fits => ?_⟩
    exact (matches_of_dirs (by decide) above).mp fits.2 rfl file
  | fileAnchor base fresh anchor file =>
    refine ⟨_, .freshParent base fresh anchor (by decide), fun fits => ?_⟩
    exact (matches_of_dirs (by decide) anchor).mp fits.2 rfl file
  | strayParent base fresh top stray dirs apart =>
    have anchor : anchorDir q₁ = ["merge_view"] := if_pos top
    refine ⟨anchorDir q₁, .freshParent base fresh (by rw [anchor, stray]) dirs, ?_⟩
    rw [anchor]
    rintro ⟨first | ⟨two, second⟩, -⟩
    · -- the first base is a single name
      obtain ⟨inside, different⟩ := partsRel_parent_iff.mp first
      have single : q₁.length = 1 := by
        have positive := List.length_pos_iff.mpr nonempty₁
        have short := congrArg List.length top
        rw [List.length_dropLast, List.length_nil] at short
        omega
      exact different (inside.eq_of_length single.symm).symm
    · exact apart ⟨two, partsRel_parent_iff.mp second⟩
  | @straySibling q y _ base fresh top matched apart =>
    have anchor : anchorDir q₁ = ["merge_view"] := if_pos top
    refine ⟨anchorDir q₁ ++ [y], .freshSibling base fresh (by rw [anchor]; exact matched), ?_⟩
    rintro ⟨first | ⟨two, second⟩, -⟩
    · have dirs := ((partsRel_sibling_iff nonempty₁).mp first).1
      rw [top, anchor] at dirs
      cases dirs
    · rw [anchor] at second
      exact apart ⟨two, (partsRel_sibling_iff nonempty₂).mp second⟩
  | itself two fresh deep matched apart =>
    obtain ⟨s, x, rfl⟩ := dropLast_concat_getLast nonempty₁
    rw [List.dropLast_concat] at deep apart
    have anchor : anchorDir (s ++ [x]) = s := by rw [anchorDir, List.dropLast_concat, if_neg deep]
    refine ⟨anchorDir (s ++ [x]) ++ [x], .freshSibling (Or.inr ⟨two, rfl⟩) fresh (by rw [anchor]; exact matched), ?_⟩
    rw [anchor]
    rintro ⟨first | ⟨-, second⟩, -⟩
    · exact ((partsRel_sibling_iff nonempty₁).mp first).2 rfl
    · exact apart ((partsRel_sibling_iff nonempty₂).mp second).1

end Kept

theorem matches_iff {ft : FileTree} (linked : Linked ft) {r : List String} (good : ∀ x ∈ r, Component x)
    (constraint : RelTarget) : Matches ft constraint r ↔
      ∃ n, InTree ft n ∧ (ft.node n).fullPath = render r ∧ nodeMatchesConstraint (ft.node n) constraint = true := by
  constructor
  · rintro ⟨n, here, matched⟩
    exact ⟨n, ⟨r, here⟩, linked.fullPath here, matched⟩
  · rintro ⟨n, ⟨s, here⟩, path, matched⟩
    rw [linked.fullPath here] at path
    obtain rfl := render_injective (linked.components here) good path
    exact ⟨n, here, matched⟩

section Main
variable {ft : FileTree} {basePath basePath2 : String} {isTwoPath : Bool} (linked : Linked ft)
  (merge : MergePath basePath) (merge2 : isTwoPath = true → MergePath basePath2)
include linked merge merge2

theorem relationKept_placed {relation : PathRelation} (placed : relation ∈ [.parent, .child, .sibling])
    (constraint : RelTarget) : RelationKept ft basePath basePath2 relation isTwoPath constraint ↔
      ∀ r, Offered ft (pathParts basePath) (pathParts basePath2) isTwoPath constraint relation r →
        Fits ft (pathParts basePath) (pathParts basePath2) isTwoPath constraint relation r := by
  have moved : relation ≠ .same := by
    rintro rfl
    simp at placed
  -- a path that is offered, read as a string
  have read : ∀ r, Offered ft (pathParts basePath) (pathParts basePath2) isTwoPath constraint relation r →
      (Fits ft (pathParts basePath) (pathParts basePath2) isTwoPath constraint relation r ↔
        (pathRelBetween basePath (render r) = relation ∨ isTwoPath = true ∧ pathRelBetween basePath2 (render r) = relation) ∧
        (relation ≠ .same → ∃ n, InTree ft n ∧ (ft.node n).fullPath = render r ∧
          nodeMatchesConstraint (ft.node n) constraint = true)) := by
    intro r offered
    obtain ⟨⟨n, here⟩, plain⟩ := offered.place merge.plain fun two => (merge2 two).plain
    have good := linked.components here
    have first := pathRelBetween_render (pathParts_ne_nil basePath) merge.plain good plain
    rw [merge.render] at first
    unfold Fits
    rw [first, matches_iff linked good, imp_iff_right moved]
    refine and_congr_left' (or_congr_right (and_congr_right fun two => ?_))
    have second := pathRelBetween_render (pathParts_ne_nil basePath2) (merge2 two).plain good plain
    rw [(merge2 two).render] at second
    rw [second]
  constructor
  · intro kept r offered
    obtain ⟨coin, draw, result⟩ := path_of_offered merge merge2 linked offered
    exact (read r offered).mpr (kept coin draw _ result (render_ne_empty r))
  · intro fits coin draw path result some_
    obtain ⟨r, offered, rfl⟩ := offered_of_path merge merge2 linked placed result some_
    exact (read r offered).mp (fits r offered)

omit linked in
theorem relationKept_same (constraint : RelTarget) : RelationKept ft basePath basePath2 .same isTwoPath constraint := by
  intro coin draw path result some_
  obtain ⟨q, -, picked⟩ := coin_base merge merge2 ft .same coin draw constraint
  rw [picked] at result
  have path_eq : basePath = path := by
    rw [← result]
    cases ft.nodeAt q <;> rfl
  subst path_eq
  refine ⟨Or.inl ?_, fun moved => absurd rfl moved⟩
  simp [pathRelBetween, some_]

omit linked in
theorem relationKept_noRel (constraint : RelTarget) : RelationKept ft basePath basePath2 .noRel isTwoPath constraint := by
  intro coin draw path result some_
  obtain ⟨q, -, picked⟩ := coin_base merge merge2 ft .noRel coin draw constraint
  rw [picked] at result
  have drawn : getRandomUnrelatedPath ft basePath draw constraint = path := by
    unfold relationPath at result
    cases inTree : ft.nodeAt q with
    | some n =>
      rw [inTree] at result
      exact result
    | none =>
      rw [inTree] at result
      cases anchor : ft.findNode (getParentDir basePath) with
      | none =>
        rw [anchor] at result
        exact absurd result.symm some_
      | some p =>
        rw [anchor] at result
        exact result
  unfold getRandomUnrelatedPath at drawn
  obtain ⟨n, member, full⟩ := mem_of_drawPath (drawn ▸ some_)
  obtain ⟨candidate, s, -, -, found⟩ := mem_unrelatedWalk.mp member
  obtain ⟨matched, unrelated⟩ := Bool.and_eq_true_iff.mp candidate
  have path_eq : (ft.node n).fullPath = path := full.symm.trans drawn
  refine ⟨Or.inl ?_, fun _ => ⟨n, ⟨s, found⟩, path_eq, matched⟩⟩
  rw [path_eq] at unrelated
  simp only [isUnrelated, Bool.and_eq_true, decide_eq_true_eq, Bool.not_eq_true', ne_eq] at unrelated
  obtain ⟨⟨⟨different, notAbove⟩, notBelow⟩, dirs⟩ := unrelated
  have nonempty : basePath ≠ "" := by
    rw [← merge.render]
    exact render_ne_empty _
  simp [pathRelBetween, nonempty, some_, Ne.symm different, notAbove, notBelow, Ne.symm dirs]

/-- `GetPathByRelation` keeps the relations of `pathRelBetween` and its type constraint exactly outside the misfits. -/
theorem relationKept_iff {relation : PathRelation} (given : relation ∈ [.same, .parent, .child, .sibling, .noRel])
    (constraint : RelTarget) : RelationKept ft basePath basePath2 relation isTwoPath constraint ↔
      ¬ Misfit ft (pathParts basePath) (pathParts basePath2) isTwoPath constraint relation := by
  have first := pathParts_ne_nil basePath
  have second := pathParts_ne_nil basePath2
  by_cases placed : relation ∈ [PathRelation.parent, .child, .sibling]
  · rw [relationKept_placed linked merge merge2 placed]
    constructor
    · intro fits misfit
      obtain ⟨r, offered, wrong⟩ := misfit_offers first second misfit
      exact wrong (fits r offered)
    · intro none r offered
      exact (fits_or_misfit first second offered).resolve_right none
  · have rest : relation = .same ∨ relation = .noRel := by
      simp only [List.mem_cons, List.not_mem_nil, or_false, not_or] at given placed
      tauto
    rcases rest with rfl | rfl
    · exact iff_of_true (relationKept_same merge merge2 constraint) fun misfit => nomatch misfit
    · exact iff_of_true (relationKept_noRel merge merge2 constraint) fun misfit => nomatch misfit

end Main

def twoFiles : FileTree := (newFileTree.addNode "merge_view/a/x" .file "c1").addNode "merge_view/a/y" .file "c2"

theorem twoFiles_linked : Linked twoFiles := (newFileTree_linked.addNode (by decide) _ _).addNode (by decide) _ _

theorem relationKept_iff_twoFiles : RelationKept twoFiles "merge_view/a/x" "" .sibling false .file := by
  have second : false = true → MergePath "" := fun two => nomatch two
  have fits : ¬ Misfit twoFiles (pathParts "merge_view/a/x") (pathParts "") false .file .sibling := by
    intro misfit
    cases misfit with
    | straySibling base fresh top matched apart => exact absurd top (by decide)
    | itself two fresh deep matched apart => cases two
  exact (relationKept_iff twoFiles_linked (by decide) second (by decide) .file).mpr fits

/-- The rename of a file into another directory: the file itself is drawn as a sibling. -/
theorem getPathByRelation_itself : ¬ ∀ ft, Linked ft → ∀ basePath basePath2, MergePath basePath → MergePath basePath2 →
    ∀ relation ∈ [PathRelation.same, .parent, .child, .sibling, .noRel], ∀ isTwoPath constraint,
      RelationKept ft basePath basePath2 relation isTwoPath constraint := by
  intro claim
  have kept := claim twoFiles twoFiles_linked "merge_view/a/x" "merge_view/b" (by decide) (by decide) .sibling (by decide) true
    .any (Draw.index 1) (Draw.index 1) "merge_view/a/x" (by decide +kernel) (by decide)
  exact absurd kept.1 (by decide +kernel)

end DfsFuzz.Mutation
