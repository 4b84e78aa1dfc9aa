import DfsFuzz.Tree.Remove

/-! `RenameNode` keeps the tree linked: what it moves, and the paths it rewrites. -/

namespace DfsFuzz.Tree

open FileTree

/-! ### Paths below a renamed node -/

structure PathsOnly (ft ft' : FileTree) : Prop where
  node : ∀ m, ft'.node m =
    { ft.node m with fullPath := (ft'.node m).fullPath, pathLength := (ft'.node m).pathLength }
  next : ft'.next = ft.next
  nodes : ft'.nodesByCid = ft.nodesByCid
  files : ft'.filesByCid = ft.filesByCid
  dirs : ft'.dirsByCid = ft.dirsByCid

theorem PathsOnly.refl (ft : FileTree) : PathsOnly ft ft := ⟨fun _ => rfl, rfl, rfl, rfl, rfl⟩

theorem PathsOnly.trans {ft ft₁ ft₂ : FileTree} (first : PathsOnly ft ft₁) (second : PathsOnly ft₁ ft₂) :
    PathsOnly ft ft₂ := by
  refine ⟨fun m => ?_, second.next.trans first.next, second.nodes.trans first.nodes, second.files.trans first.files,
    second.dirs.trans first.dirs⟩
  rw [second.node m, first.node m]

theorem PathsOnly.edge {ft ft' : FileTree} (same : PathsOnly ft ft') : ft'.edge = ft.edge := by
  funext m x
  unfold FileTree.edge
  rw [same.node m]

theorem PathsOnly.name {ft ft' : FileTree} (same : PathsOnly ft ft') (m : NodeRef) :
    (ft'.node m).name = (ft.node m).name := by
  rw [same.node m]

theorem PathsOnly.modify (ft : FileTree) (c : NodeRef) (path : String) :
    PathsOnly ft (ft.modify c fun n => { n with fullPath := path, pathLength := path.length }) := by
  refine ⟨fun m => ?_, rfl, rfl, rfl, rfl⟩
  by_cases here : m = c
  · subst here
    simp
  · rw [modify_node_ne ft _ here]

def NamedBelow (ft : FileTree) (r : NodeRef) : Prop :=
  ∀ s y m, Walk.walk ft.edge r (s ++ [y]) = some m → (ft.node m).name = y

/-- What `updateChildPaths` does below `r`, to the given depth. -/
structure PathsUpdated (fuel : Nat) (ft ft' : FileTree) (r : NodeRef) : Prop where
  only : PathsOnly ft ft'
  frame : ∀ m, (∀ s, s ≠ [] → Walk.walk ft.edge r s ≠ some m) → ft'.node m = ft.node m
  paths : ∀ s m, s ≠ [] → s.length ≤ fuel → Walk.walk ft.edge r s = some m →
    (ft'.node m).fullPath = renderFrom (ft.node r).fullPath s

theorem walk_cons (edge : NodeRef → String → Option NodeRef) (r : NodeRef) (x : String) (s : List String) {c : NodeRef}
    (step : edge r x = some c) : Walk.walk edge r (x :: s) = Walk.walk edge c s := by
  simp [Walk.walk, step]

def childPathStep (fuel : Nat) (r : NodeRef) (ft : FileTree) (e : String × NodeRef) : FileTree :=
  let fullPath := (ft.node r).fullPath ++ "/" ++ (ft.node e.2).name
  updateChildPaths fuel (ft.modify e.2 fun n => { n with fullPath, pathLength := fullPath.length }) e.2

theorem updateChildPaths_succ (fuel : Nat) (ft : FileTree) (r : NodeRef) :
    updateChildPaths (fuel + 1) ft r = (ft.node r).children.items.foldl (childPathStep fuel r) ft := rfl

/-- The effect of the loop on the children under `labels`, from a tree `ft₁` whose paths may differ
from those of `ft`. -/
structure ChildrenUpdated (fuel : Nat) (ft ft₁ ft₂ : FileTree) (r : NodeRef) (labels : List String) : Prop where
  only : PathsOnly ft ft₂
  frame : ∀ m, (∀ x ∈ labels, ∀ s, Walk.walk ft.edge r (x :: s) ≠ some m) → ft₂.node m = ft₁.node m
  paths : ∀ x ∈ labels, ∀ s m, s.length ≤ fuel → Walk.walk ft.edge r (x :: s) = some m →
    (ft₂.node m).fullPath = renderFrom (ft.node r).fullPath (x :: s)

theorem childPathStep_spec {fuel : Nat}
    (ih : ∀ {ft : FileTree} {r : NodeRef}, Walk.IsTree ft.edge r → NamedBelow ft r →
      PathsUpdated fuel ft (updateChildPaths fuel ft r) r)
    {ft ft₁ : FileTree} {r c : NodeRef} {x : String} (tree : Walk.IsTree ft.edge r) (named : NamedBelow ft r)
    (same : PathsOnly ft ft₁) (base : (ft₁.node r).fullPath = (ft.node r).fullPath) (step : ft.edge r x = some c) :
    ChildrenUpdated fuel ft ft₁ (childPathStep fuel r ft₁ (x, c)) r [x] := by
  have name : (ft₁.node c).name = x := by
    rw [same.name c]
    exact named [] x c (by simp [Walk.walk, step])
  unfold childPathStep
  simp only [name, base]
  generalize edited : (ft₁.modify c fun n => { n with
    fullPath := (ft.node r).fullPath ++ "/" ++ x, pathLength := ((ft.node r).fullPath ++ "/" ++ x).length }) = ft₁'
  have only₁ : PathsOnly ft ft₁' := edited ▸ same.trans (PathsOnly.modify ft₁ c _)
  have path₁ : (ft₁'.node c).fullPath = (ft.node r).fullPath ++ "/" ++ x := by
    rw [← edited, modify_node_self]
  have others : ∀ m, m ≠ c → ft₁'.node m = ft₁.node m := by
    intro m different
    rw [← edited, modify_node_ne _ _ different]
  have reach : ∀ s, Walk.walk ft.edge r (x :: s) = Walk.walk ft.edge c s := fun s => walk_cons ft.edge r x s step
  have subtree : Walk.IsTree ft.edge c := tree.below (reach [])
  have below : PathsUpdated fuel ft₁' (updateChildPaths fuel ft₁' c) c := by
    refine ih (by rw [only₁.edge]; exact subtree) ?_
    intro s y m found
    rw [only₁.edge] at found
    rw [only₁.name m]
    exact named (x :: s) y m ((reach (s ++ [y])).trans found)
  obtain ⟨only, frame, paths⟩ := below
  simp only [only₁.edge] at frame paths
  refine ⟨only₁.trans only, ?_, ?_⟩
  · intro m outside
    have outside := outside x (by simp)
    have apart : m ≠ c := fun here => outside [] (by rw [reach, here]; rfl)
    rw [frame m fun s _ found => outside s (by rw [reach, found]), others m apart]
  · intro y member s m short found
    obtain rfl := List.mem_singleton.mp member
    rw [reach] at found
    by_cases here : s = []
    · subst here
      obtain rfl := Option.some.inj found
      rw [frame c fun s nonempty cycle => nonempty (subtree s [] c cycle rfl), path₁]
      rfl
    · rw [paths s m here short found, path₁]
      rfl

theorem childrenLoop_spec {fuel : Nat}
    (ih : ∀ {ft : FileTree} {r : NodeRef}, Walk.IsTree ft.edge r → NamedBelow ft r →
      PathsUpdated fuel ft (updateChildPaths fuel ft r) r)
    {ft : FileTree} {r : NodeRef} (tree : Walk.IsTree ft.edge r) (named : NamedBelow ft r) (l : List (String × NodeRef))
    (edges : ∀ e ∈ l, ft.edge r e.1 = some e.2) (distinct : (l.map Prod.fst).Nodup) {ft₁ : FileTree}
    (same : PathsOnly ft ft₁) (base : (ft₁.node r).fullPath = (ft.node r).fullPath) :
    ChildrenUpdated fuel ft ft₁ (l.foldl (childPathStep fuel r) ft₁) r (l.map Prod.fst) := by
  induction l generalizing ft₁ with
  | nil => exact ⟨same, fun _ _ => rfl, fun _ member => absurd member List.not_mem_nil⟩
  | cons e l inner =>
    obtain ⟨x, c⟩ := e
    obtain ⟨absent, distinct⟩ := List.nodup_cons.mp distinct
    have first := childPathStep_spec ih tree named same base (edges (x, c) List.mem_cons_self)
    have self : ∀ y ∈ [x], ∀ s, Walk.walk ft.edge r (y :: s) ≠ some r := by
      intro y _ s cycle
      cases tree (y :: s) [] r cycle rfl
    have base' : ((childPathStep fuel r ft₁ (x, c)).node r).fullPath = (ft.node r).fullPath := by
      rw [first.frame r self, base]
    have rest := inner (fun e member => edges e (List.mem_cons_of_mem _ member)) distinct first.only base'
    refine ⟨rest.only, ?_, ?_⟩
    · intro m outside
      rw [List.foldl_cons, rest.frame m fun y member => outside y (List.mem_cons_of_mem _ member)]
      exact first.frame m fun y member => outside y (by simp [List.mem_singleton.mp member])
    · intro y member s m short found
      rcases List.mem_cons.mp member with rfl | later
      · -- the later children leave this subtree alone
        have frame := rest.frame m fun y' inside s' found' => by
          have paths := tree _ _ _ found found'
          obtain ⟨labels, _⟩ := List.cons.inj paths
          exact absent (labels ▸ inside)
        rw [List.foldl_cons, frame]
        exact first.paths _ (by simp) s m short found
      · exact rest.paths y later s m short found

theorem updateChildPaths_spec (fuel : Nat) {ft : FileTree} {r : NodeRef} (tree : Walk.IsTree ft.edge r)
    (named : NamedBelow ft r) : PathsUpdated fuel ft (updateChildPaths fuel ft r) r := by
  induction fuel generalizing ft r with
  | zero =>
    refine ⟨PathsOnly.refl ft, fun _ _ => rfl, fun s m nonempty short _ => ?_⟩
    exact absurd (List.length_eq_zero_iff.mp (Nat.le_zero.mp short)) nonempty
  | succ fuel ih =>
    rw [updateChildPaths_succ]
    have edges : ∀ e ∈ (ft.node r).children.items, ft.edge r e.1 = some e.2 := fun e member => Go.Map.mem_items.mp member
    obtain ⟨only, frame, paths⟩ := childrenLoop_spec ih tree named _ edges (Go.Map.nodup_items_keys _) (PathsOnly.refl ft) rfl
    refine ⟨only, ?_, ?_⟩
    · exact fun m outside => frame m fun x _ s => outside (x :: s) (by simp)
    · intro s m nonempty short found
      cases s with
      | nil => exact absurd rfl nonempty
      | cons x s =>
        obtain ⟨c, step, _⟩ := Option.bind_eq_some_iff.mp found
        have member : x ∈ (ft.node r).children.items.map Prod.fst :=
          List.mem_map.mpr ⟨(x, c), Go.Map.mem_items.mpr step, rfl⟩
        exact paths x member s m (Nat.le_of_succ_le_succ short) found

/-! ### RenameNode -/

/-- What a rename that finds its new parent does: the subtree at `old` is at `new`, in place of
what was there. -/
structure RenameSpec (ft ft' : FileTree) (old new : List String) : Prop where
  linked : Linked ft'
  nodeAt : ∀ q m, ft'.nodeAt q = some m ↔
    (ft.nodeAt q = some m ∧ ¬ old <+: q ∧ ¬ new <+: q) ∨ ∃ s, q = new ++ s ∧ ft.nodeAt (old ++ s) = some m
  data : ∀ m, (ft'.node m).type = (ft.node m).type ∧ (ft'.node m).ownerCid = (ft.node m).ownerCid ∧
    (ft'.node m).size = (ft.node m).size
  next : ft'.next = ft.next
  nodes : ft'.nodesByCid = ft.nodesByCid
  files : ft'.filesByCid = ft.filesByCid
  dirs : ft'.dirsByCid = ft.dirsByCid

section Rename
variable {ft : FileTree} {π π' : List String} {x x' : String} {c p : NodeRef}

theorem detach_disjoint (linked : Linked ft) (found : ft.nodeAt (π ++ [x]) = some c) (q s : List String) (m : NodeRef)
    (here : (ft.detach c).nodeAt q = some m) : Walk.walk (ft.detach c).edge c s ≠ some m := by
  intro below
  rw [walk_detached linked found] at below
  obtain ⟨before, outside⟩ := (nodeAt_detach linked found).mp here
  have inside : ft.nodeAt ((π ++ [x]) ++ s) = some m := by rw [nodeAt_append, found, Option.bind_some, below]
  obtain rfl := linked.unique before inside
  exact outside (List.prefix_append _ _)

theorem attach_node (ft : FileTree) {c p : NodeRef} (apart : c ≠ p) (x : String) (m : NodeRef) :
    (ft.attach c p x).node m =
      if m = p then { ft.node p with children := (ft.node p).children.insert x c }
      else if m = c then
        { ft.node c with
          name := x, fullPath := (ft.node p).fullPath ++ "/" ++ x
          pathLength := ((ft.node p).fullPath ++ "/" ++ x).length, parent := some p }
      else ft.node m := by
  unfold attach
  by_cases here : m = p
  · subst here
    simp [modify_node_ne ft _ (Ne.symm apart)]
  · rw [modify_node_ne _ _ here, if_neg here]
    by_cases moved : m = c
    · subst moved
      simp
    · rw [modify_node_ne ft _ moved, if_neg moved]

theorem attach_edge (ft : FileTree) {c p : NodeRef} (apart : c ≠ p) (x : String) :
    Walk.SameExcept p x ft.edge (ft.attach c p x).edge ∧ (ft.attach c p x).edge p x = some c := by
  constructor
  · intro m y different
    unfold edge
    rw [attach_node ft apart x]
    by_cases here : m = p
    · subst here
      have other : y ≠ x := different.resolve_left fun h => h rfl
      rw [if_pos rfl]
      exact AList.lookup_insert_ne other
    · rw [if_neg here]
      by_cases moved : m = c
      · rw [if_pos moved, moved]
      · rw [if_neg moved]
  · unfold edge
    rw [attach_node ft apart x, if_pos rfl]
    exact AList.lookup_insert _

def reattached (ft : FileTree) (c p : NodeRef) (x : String) : FileTree :=
  updateChildPaths ((ft.detach c).attach c p x).next ((ft.detach c).attach c p x) c

structure Reattached (ft ft₂ : FileTree) (old new : List String) (c : NodeRef) : Prop where
  tree : Walk.IsTree ft₂.edge root
  below : ∀ s, Walk.walk ft₂.edge c s = ft.nodeAt (old ++ s)
  nodeAt : ∀ q m, ft₂.nodeAt q = some m ↔
    (ft.nodeAt q = some m ∧ ¬ old <+: q ∧ ¬ new <+: q) ∨ ∃ s, q = new ++ s ∧ ft.nodeAt (old ++ s) = some m

theorem attach_reattached (linked : Linked ft) (found : ft.nodeAt (π ++ [x]) = some c)
    (parent : (ft.detach c).nodeAt π' = some p) :
    Reattached ft ((ft.detach c).attach c p x') (π ++ [x]) (π' ++ [x']) c := by
  have linked₁ := linked.detach found
  have disjoint := detach_disjoint linked found
  have away : ∀ s, Walk.walk (ft.detach c).edge c s ≠ some p := fun s => disjoint π' s p parent
  have apart : c ≠ p := fun here => away [] (by rw [← here]; rfl)
  obtain ⟨change, linkedTo⟩ := attach_edge (ft.detach c) apart x'
  have below₁ : ∀ s, Walk.walk (ft.detach c).edge c s = ft.nodeAt ((π ++ [x]) ++ s) := by
    intro s
    rw [walk_detached linked found, nodeAt_append, found]
    rfl
  refine ⟨?_, ?_, ?_⟩
  · refine linked₁.tree.attach parent change linkedTo ?_ disjoint
    intro s s' m left right
    rw [below₁] at left right
    exact List.append_cancel_left (linked.unique left right)
  · intro s
    rw [← below₁]
    refine Walk.walk_congr c s fun t y m _ here => change m y (Or.inl ?_)
    rintro rfl
    exact away t here
  · intro q m
    have walks := Walk.walk_attach linked₁.tree parent change linkedTo away (q := q) (m := m)
    refine walks.trans (or_congr ?_ ?_)
    · have detached := nodeAt_detach linked found (q := q) (m := m)
      rw [show Walk.walk (ft.detach c).edge root q = (ft.detach c).nodeAt q from rfl, detached, and_assoc]
    · refine exists_congr fun s => and_congr ?_ (by rw [below₁])
      simp

theorem attach_fields (linked : Linked ft) (found : ft.nodeAt (π ++ [x]) = some c)
    (parent : (ft.detach c).nodeAt π' = some p) (m : NodeRef) :
    let nd := ((ft.detach c).attach c p x').node m
    (nd.type = (ft.node m).type ∧ nd.ownerCid = (ft.node m).ownerCid ∧ nd.size = (ft.node m).size) ∧
      (m ≠ c → nd.name = (ft.node m).name ∧ nd.parent = (ft.node m).parent ∧ nd.fullPath = (ft.node m).fullPath) ∧
      (m = c → nd.name = x' ∧ nd.parent = some p ∧ nd.fullPath = render (π' ++ [x'])) := by
  have linked₁ := linked.detach found
  have same₁ := detach_same linked found
  have apart : c ≠ p := fun here => detach_disjoint linked found π' [] p parent (by rw [← here]; rfl)
  intro nd
  have value : nd = _ := attach_node (ft.detach c) apart x' m
  by_cases here : m = p
  · rw [if_pos here, same₁.node p, ← here] at value
    rw [value]
    exact ⟨⟨rfl, rfl, rfl⟩, fun _ => ⟨rfl, rfl, rfl⟩, fun moved => absurd (moved.symm.trans here) apart⟩
  · rw [if_neg here] at value
    by_cases moved : m = c
    · subst moved
      rw [if_pos rfl, linked₁.fullPath parent, ← render_concat, same₁.node m] at value
      rw [value]
      exact ⟨⟨rfl, rfl, rfl⟩, fun other => absurd rfl other, fun _ => ⟨rfl, rfl, rfl⟩⟩
    · rw [if_neg moved, same₁.node m] at value
      rw [value]
      exact ⟨⟨rfl, rfl, rfl⟩, fun _ => ⟨rfl, rfl, rfl⟩, fun same => absurd same moved⟩

theorem attach_pathsUpdated (linked : Linked ft) (found : ft.nodeAt (π ++ [x]) = some c)
    (parent : (ft.detach c).nodeAt π' = some p) :
    PathsUpdated ((ft.detach c).attach c p x').next ((ft.detach c).attach c p x') (reattached ft c p x') c := by
  have moved : Reattached ft ((ft.detach c).attach c p x') _ _ c := attach_reattached linked found parent
  refine updateChildPaths_spec _ ?_ ?_
  · intro s s' m left right
    rw [moved.below] at left right
    exact List.append_cancel_left (linked.unique left right)
  · intro s y m here
    rw [moved.below, ← List.append_assoc] at here
    have strict : m ≠ c := by
      rintro rfl
      have lengths := congrArg List.length (linked.unique here found)
      simp at lengths
    rw [((attach_fields linked found parent m).2.1 strict).1]
    exact (linked.link _ y m here).name

theorem reattached_spec (linked : Linked ft) (found : ft.nodeAt (π ++ [x]) = some c)
    (parent : (ft.detach c).nodeAt π' = some p) (component : Component x') :
    RenameSpec ft (reattached ft c p x') (π ++ [x]) (π' ++ [x']) := by
  have moved : Reattached ft ((ft.detach c).attach c p x') _ _ c := attach_reattached linked found parent
  have same₁ := detach_same linked found
  obtain ⟨only, frame, paths⟩ := @attach_pathsUpdated ft π π' x x' c p linked found parent
  have fields := @attach_fields ft π π' x x' c p linked found parent
  have at_ : ∀ q, (reattached ft c p x').nodeAt q = ((ft.detach c).attach c p x').nodeAt q := by
    intro q
    rw [FileTree.nodeAt, only.edge]
    rfl
  have next : (reattached ft c p x').next = ft.next := only.next.trans same₁.next
  -- a node reached otherwise than through the moved one is not below it
  have outside : ∀ q m, ft.nodeAt q = some m → ¬ π ++ [x] <+: q →
      (reattached ft c p x').node m = ((ft.detach c).attach c p x').node m ∧ m ≠ c := by
    intro q m here apart
    have unique : ∀ s, Walk.walk ((ft.detach c).attach c p x').edge c s ≠ some m := by
      intro s below
      rw [moved.below] at below
      exact apart (linked.unique here below ▸ List.prefix_append _ _)
    exact ⟨frame m fun s _ => unique s, fun same => unique [] (by rw [same]; rfl)⟩
  have parent₂ : ((ft.detach c).attach c p x').nodeAt π' = some p := by
    obtain ⟨before, away⟩ := (nodeAt_detach linked found).mp parent
    refine (moved.nodeAt π' p).mpr (Or.inl ⟨before, away, fun longer => ?_⟩)
    have lengths := longer.length_le
    simp only [List.length_append, List.length_singleton] at lengths
    omega
  refine ⟨⟨?_, ?_, ?_, ?_, ?_⟩, fun q m => by rw [at_, moved.nodeAt], ?_, next, only.nodes.trans same₁.nodes,
    only.files.trans same₁.files, only.dirs.trans same₁.dirs⟩
  · rw [only.edge]
    exact moved.tree
  · intro q y m here
    rw [at_] at here
    rcases (moved.nodeAt _ m).mp here with ⟨before, apart, apart'⟩ | ⟨s, path, before⟩
    · have link := linked.link q y m before
      obtain ⟨k, above⟩ := nodeAt_of_prefix before
      have above' := (moved.nodeAt q k).mpr (Or.inl ⟨above, not_prefix_of_concat apart, not_prefix_of_concat apart'⟩)
      obtain ⟨node, other⟩ := outside _ m before apart
      obtain ⟨name, upper, full⟩ := (fields m).2.1 other
      exact ⟨by rw [node, name, link.name], by rw [node, upper, at_, above', link.parent, above],
        by rw [node, full, link.fullPath], link.component, by rw [next]; exact link.allocated⟩
    · rcases List.eq_nil_or_concat' s with rfl | ⟨t, z, rfl⟩
      · -- the moved node itself
        rw [List.append_nil] at path before
        obtain ⟨rfl, last⟩ := List.append_inj' path rfl
        obtain rfl : y = x' := by simpa using last
        obtain rfl : c = m := Option.some.inj (found.symm.trans before)
        have self := frame c fun s nonempty cycle => by
          rw [moved.below] at cycle
          exact nonempty (List.append_cancel_left ((linked.unique cycle found).trans (List.append_nil _).symm))
        obtain ⟨name, upper, full⟩ := (fields c).2.2 rfl
        exact ⟨by rw [self, name], by rw [self, upper, at_, parent₂], by rw [self, full], component,
          by rw [next]; exact linked.allocated found⟩
      · -- a node below it
        obtain ⟨rfl, last⟩ := List.append_inj' ((path.trans (List.append_assoc _ _ _).symm)) rfl
        obtain rfl : y = z := by simpa using last
        rw [← List.append_assoc] at before
        have link := linked.link _ y m before
        obtain ⟨k, above⟩ := nodeAt_of_prefix before
        have above' := (moved.nodeAt _ k).mpr (Or.inr ⟨t, rfl, above⟩)
        have below : Walk.walk ((ft.detach c).attach c p x').edge c (t ++ [y]) = some m := by
          rw [moved.below, ← List.append_assoc, before]
        have strict : m ≠ c := by
          rintro rfl
          have lengths := congrArg List.length (linked.unique before found)
          simp at lengths
        have short : (t ++ [y]).length ≤ ((ft.detach c).attach c p x').next := by
          refine Nat.le_of_lt (Walk.IsTree.depth ?_ ?_ below)
          · intro s s' m left right
            rw [moved.below] at left right
            exact List.append_cancel_left (linked.unique left right)
          · intro s m reached
            rw [moved.below] at reached
            exact same₁.next ▸ linked.allocated reached
        obtain ⟨name, upper, _⟩ := (fields m).2.1 strict
        refine ⟨by rw [only.name m, name, link.name], ?_, ?_, link.component, by rw [next]; exact link.allocated⟩
        · rw [only.node m, upper, at_, above', link.parent, above]
        · rw [paths (t ++ [y]) m (by simp) short below, ((fields c).2.2 rfl).2.2, ← render_append, ← path]
  · obtain ⟨node, other⟩ := outside [] root rfl (by simp)
    rw [node, ((fields root).2.1 other).2.2]
    exact linked.rootPath
  · rw [next]
    exact linked.rootAllocated
  · intro m free y
    rw [next] at free
    have linked₁ := linked.detach found
    have old : p < ft.next := same₁.next ▸ linked₁.allocated parent
    have apart : c ≠ p := fun here => detach_disjoint linked found π' [] p parent (by rw [← here]; rfl)
    rw [only.edge, (attach_edge (ft.detach c) apart x').1 m y (Or.inl (Nat.ne_of_gt (Nat.lt_of_lt_of_le old free)))]
    exact linked₁.blank m (by rw [same₁.next]; exact free) y
  · intro m
    rw [only.node m]
    exact (fields m).1

end Rename

theorem renameNode_cases (ft : FileTree) {oldPath newPath : String} (cleanOld : CleanPath oldPath)
    (cleanNew : CleanPath newPath) :
    (ft.nodeAt (pathParts oldPath) = none ∧ ft.renameNode oldPath newPath = (ft, false)) ∨
      ∃ c, ft.nodeAt (pathParts oldPath) = some c ∧
        (((ft.detach c).nodeAt (pathParts newPath).dropLast = none ∧
            ft.renameNode oldPath newPath = (ft.detach c, false)) ∨
          ∃ p, (ft.detach c).nodeAt (pathParts newPath).dropLast = some p ∧
            ft.renameNode oldPath newPath = (reattached ft c p ((pathParts newPath).getLastD ""), true)) := by
  have walked : ft.follow root (Go.split (cleanPath oldPath) '/') = ft.nodeAt (pathParts oldPath) :=
    follow_eq_walk ft root cleanOld
  have walked' : ∀ ft : FileTree, ft.follow root (Go.split (cleanPath newPath) '/').dropLast =
      ft.nodeAt (pathParts newPath).dropLast := by
    intro ft
    exact follow_eq_walk ft root fun member => cleanNew (List.mem_of_mem_dropLast member)
  rw [renameNode, if_neg (by simp [cleanOld.cleanPath_ne, cleanNew.cleanPath_ne]), walked]
  cases ft.nodeAt (pathParts oldPath) with
  | none => exact Or.inl ⟨rfl, rfl⟩
  | some c =>
    refine Or.inr ⟨c, rfl, ?_⟩
    simp only [walked']
    cases (ft.detach c).nodeAt (pathParts newPath).dropLast with
    | none => exact Or.inl ⟨rfl, rfl⟩
    | some p => exact Or.inr ⟨p, rfl, rfl⟩

theorem CleanPath.getLast {path : String} (clean : CleanPath path) :
    Component ((pathParts path).getLastD "") ∧
      (pathParts path).dropLast ++ [(pathParts path).getLastD ""] = pathParts path := by
  have last : (pathParts path).getLastD "" = (pathParts path).getLast (pathParts_ne_nil path) := by
    rw [List.getLastD_eq_getLast?, List.getLast?_eq_some_getLast (pathParts_ne_nil path)]
    rfl
  rw [last]
  exact ⟨clean.component _ (List.getLast_mem _), List.dropLast_append_getLast _⟩

theorem Linked.renameNode {ft : FileTree} (linked : Linked ft) {oldPath newPath : String} (cleanOld : CleanPath oldPath)
    (cleanNew : CleanPath newPath) : Linked (ft.renameNode oldPath newPath).1 := by
  obtain ⟨q, x, parts⟩ := pathParts_concat oldPath
  rcases renameNode_cases ft cleanOld cleanNew with ⟨_, result⟩ | ⟨c, found, ⟨_, result⟩ | ⟨p, parent, result⟩⟩
  · rw [result]
    exact linked
  · rw [result]
    rw [parts] at found
    exact linked.detach found
  · rw [result]
    rw [parts] at found
    exact (reattached_spec linked found parent cleanNew.getLast.1).linked

end DfsFuzz.Tree
