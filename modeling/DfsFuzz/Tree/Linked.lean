import DfsFuzz.Tree.Paths

/-!
The invariant that ties `Name`, `Parent`, `FullPath` and `Children` together: the nodes reachable
from the root form a tree, and each of them knows its name, its parent and its path.
-/

namespace DfsFuzz.Tree

/-- What the fields of the node at `q ++ [x]` say. -/
structure Link (ft : FileTree) (q : List String) (x : String) (n : NodeRef) : Prop where
  name : (ft.node n).name = x
  parent : (ft.node n).parent = ft.nodeAt q
  fullPath : (ft.node n).fullPath = render (q ++ [x])
  component : Component x
  allocated : n < ft.next

structure Linked (ft : FileTree) : Prop where
  tree : Walk.IsTree ft.edge root
  link : ∀ q x n, ft.nodeAt (q ++ [x]) = some n → Link ft q x n
  rootPath : (ft.node root).fullPath = "merge_view"
  rootAllocated : root < ft.next
  blank : ∀ m, ft.next ≤ m → ∀ x, ft.edge m x = none

namespace FileTree

@[simp] theorem nodeAt_nil (ft : FileTree) : ft.nodeAt [] = some root := rfl

theorem nodeAt_concat (ft : FileTree) (q : List String) (x : String) :
    ft.nodeAt (q ++ [x]) = (ft.nodeAt q).bind fun m => ft.edge m x := Walk.walk_concat ft.edge root q x

theorem nodeAt_append (ft : FileTree) (q s : List String) :
    ft.nodeAt (q ++ s) = (ft.nodeAt q).bind fun m => Walk.walk ft.edge m s := Walk.walk_append ft.edge root q s

@[simp] theorem modify_node_self (ft : FileTree) (r : NodeRef) (f : FileNode → FileNode) :
    (ft.modify r f).node r = f (ft.node r) := by
  simp [modify]

theorem modify_node_ne (ft : FileTree) {r m : NodeRef} (f : FileNode → FileNode) (different : m ≠ r) :
    (ft.modify r f).node m = ft.node m := by
  simp [modify, different]

@[simp] theorem modify_next (ft : FileTree) (r : NodeRef) (f : FileNode → FileNode) : (ft.modify r f).next = ft.next := rfl

theorem modify_edge (ft : FileTree) (r : NodeRef) {f : FileNode → FileNode}
    (same : (f (ft.node r)).children = (ft.node r).children) : (ft.modify r f).edge = ft.edge := by
  funext m x
  by_cases here : m = r
  · subst here
    simp [edge, same]
  · simp [edge, modify_node_ne ft f here]

end FileTree

open FileTree

theorem Linked.congr {ft ft' : FileTree} (linked : Linked ft) (edges : ft'.edge = ft.edge) (next : ft'.next = ft.next)
    (fields : ∀ m, (ft'.node m).name = (ft.node m).name ∧ (ft'.node m).parent = (ft.node m).parent ∧
      (ft'.node m).fullPath = (ft.node m).fullPath) : Linked ft' := by
  have at_ : ∀ q, ft'.nodeAt q = ft.nodeAt q := fun q => by rw [nodeAt, nodeAt, edges]
  constructor
  · rw [edges]
    exact linked.tree
  · intro q x n found
    rw [at_] at found
    obtain ⟨name, parent, path⟩ := fields n
    have here := linked.link q x n found
    exact ⟨name.trans here.name, by rw [parent, at_, here.parent], path.trans here.fullPath, here.component,
      next ▸ here.allocated⟩
  · rw [(fields root).2.2, linked.rootPath]
  · rw [next]
    exact linked.rootAllocated
  · rw [next, edges]
    exact linked.blank

theorem Linked.modify {ft : FileTree} (linked : Linked ft) (r : NodeRef) {f : FileNode → FileNode}
    (children : (f (ft.node r)).children = (ft.node r).children) (name : (f (ft.node r)).name = (ft.node r).name)
    (parent : (f (ft.node r)).parent = (ft.node r).parent) (fullPath : (f (ft.node r)).fullPath = (ft.node r).fullPath) :
    Linked (ft.modify r f) := by
  refine linked.congr (modify_edge ft r children) rfl fun m => ?_
  by_cases here : m = r
  · subst here
    simp [name, parent, fullPath]
  · simp [modify_node_ne ft f here]

variable {q : List String} {n : NodeRef}

theorem Linked.unique {ft : FileTree} (linked : Linked ft) {q' : List String} (found : ft.nodeAt q = some n)
    (found' : ft.nodeAt q' = some n) : q = q' := linked.tree q q' n found found'

theorem Linked.fullPath {ft : FileTree} (linked : Linked ft) (found : ft.nodeAt q = some n) :
    (ft.node n).fullPath = render q := by
  induction q using List.reverseRecOn with
  | nil =>
    obtain rfl := Option.some.inj found
    exact linked.rootPath
  | append_singleton q x _ => exact (linked.link q x n found).fullPath

theorem Linked.allocated {ft : FileTree} (linked : Linked ft) (found : ft.nodeAt q = some n) : n < ft.next := by
  induction q using List.reverseRecOn with
  | nil =>
    obtain rfl := Option.some.inj found
    exact linked.rootAllocated
  | append_singleton q x _ => exact (linked.link q x n found).allocated

theorem nodeAt_of_prefix {ft : FileTree} {s : List String} (found : ft.nodeAt (q ++ s) = some n) :
    ∃ m, ft.nodeAt q = some m := by
  rw [nodeAt_append] at found
  obtain ⟨m, here, _⟩ := Option.bind_eq_some_iff.mp found
  exact ⟨m, here⟩

theorem Linked.components {ft : FileTree} (linked : Linked ft) (found : ft.nodeAt q = some n) :
    ∀ x ∈ q, Component x := by
  induction q using List.reverseRecOn generalizing n with
  | nil => simp
  | append_singleton q x ih =>
    obtain ⟨m, before⟩ := nodeAt_of_prefix found
    intro y member
    rcases List.mem_append.mp member with inside | last
    · exact ih before y inside
    · rw [List.mem_singleton.mp last]
      exact (linked.link q x n found).component

theorem newFileTree_linked : Linked newFileTree := by
  have bare : ∀ m x, newFileTree.edge m x = none := by
    intro m x
    by_cases here : m = root
    · subst here
      rfl
    · simp [edge, newFileTree, here]
  have only : ∀ {q n}, newFileTree.nodeAt q = some n → q = [] ∧ n = root := (Walk.walk_leaf (bare root)).mp
  constructor
  · intro q q' m left right
    rw [(only left).1, (only right).1]
  · intro q x n found
    have := (only found).1
    simp at this
  · rfl
  · decide
  · exact fun m _ => bare m

section NewChild
variable {ft : FileTree} {π : List String} {p : NodeRef} {x : String}

theorem newChild_node (ft : FileTree) (p : NodeRef) (x : String) (type : FileNodeType) (cid : String) (old : p < ft.next)
    (m : NodeRef) :
    (ft.newChild p x type cid).node m =
      if m = p then { ft.node p with children := (ft.node p).children.insert x ft.next }
      else if m = ft.next then
        { name := x, fullPath := (ft.node p).fullPath ++ "/" ++ x, parent := some p, type, ownerCid := cid }
      else ft.node m := by
  have apart : p ≠ ft.next := Nat.ne_of_lt old
  unfold newChild
  by_cases here : m = p
  · subst here
    simp [apart]
  · rw [modify_node_ne _ _ here, if_neg here]
    by_cases new : m = ft.next
    · subst new
      simp
    · simp [new]

theorem newChild_edge (linked : Linked ft) (type : FileNodeType) (cid : String) (old : p < ft.next) :
    Walk.SameExcept p x ft.edge (ft.newChild p x type cid).edge ∧ (ft.newChild p x type cid).edge p x = some ft.next := by
  constructor
  · intro m y different
    unfold edge
    rw [newChild_node ft p x type cid old]
    by_cases here : m = p
    · subst here
      have other : y ≠ x := different.resolve_left fun h => h rfl
      rw [if_pos rfl]
      exact AList.lookup_insert_ne other
    · rw [if_neg here]
      by_cases new : m = ft.next
      · rw [if_pos new, new]
        exact (linked.blank ft.next (Nat.le_refl _) y).symm
      · rw [if_neg new]
  · unfold edge
    rw [newChild_node ft p x type cid old, if_pos rfl]
    exact AList.lookup_insert _

theorem nodeAt_newChild (linked : Linked ft) (reached : ft.nodeAt π = some p) (type : FileNodeType) (cid : String)
    {m : NodeRef} :
    (ft.newChild p x type cid).nodeAt q = some m ↔
      (ft.nodeAt q = some m ∧ ¬ π ++ [x] <+: q) ∨ (q = π ++ [x] ∧ m = ft.next) := by
  have old := linked.allocated reached
  obtain ⟨change, linkedTo⟩ := newChild_edge (x := x) linked type cid old
  have leaf : ∀ {s n}, Walk.walk ft.edge ft.next s = some n ↔ s = [] ∧ n = ft.next :=
    Walk.walk_leaf (linked.blank ft.next (Nat.le_refl _))
  have apart : ∀ s, Walk.walk ft.edge ft.next s ≠ some p := by
    intro s found
    exact absurd (leaf.mp found).2 (Nat.ne_of_lt old)
  unfold nodeAt
  rw [Walk.walk_attach linked.tree reached change linkedTo apart]
  refine or_congr_right ⟨?_, ?_⟩
  · rintro ⟨s, rfl, found⟩
    obtain ⟨rfl, rfl⟩ := leaf.mp found
    exact ⟨rfl, rfl⟩
  · rintro ⟨rfl, rfl⟩
    exact ⟨[], rfl, rfl⟩

theorem not_prefix_of_concat {π : List String} {x y : String} (outside : ¬ π ++ [x] <+: q ++ [y]) : ¬ π ++ [x] <+: q :=
  fun inside => outside (inside.trans (List.prefix_append q [y]))

theorem Linked.newChild (linked : Linked ft) (reached : ft.nodeAt π = some p) (component : Component x)
    (type : FileNodeType) (cid : String) : Linked (ft.newChild p x type cid) := by
  have old := linked.allocated reached
  obtain ⟨change, linkedTo⟩ := newChild_edge (x := x) linked type cid old
  have leaf : ∀ {s n}, Walk.walk ft.edge ft.next s = some n ↔ s = [] ∧ n = ft.next :=
    Walk.walk_leaf (linked.blank ft.next (Nat.le_refl _))
  constructor
  · refine linked.tree.attach reached change linkedTo ?_ ?_
    · intro s s' m left right
      rw [(leaf.mp left).1, (leaf.mp right).1]
    · intro q s m found below
      rw [(leaf.mp below).2] at found
      exact absurd (linked.allocated found) (Nat.lt_irrefl _)
  · intro q y n found
    rcases (nodeAt_newChild linked reached type cid).mp found with ⟨here, outside⟩ | ⟨path, rfl⟩
    · -- an old node, whose parent is still there
      have before := linked.link q y n here
      obtain ⟨m, parent⟩ := nodeAt_of_prefix here
      have parent' : (ft.newChild p x type cid).nodeAt q = some m :=
        (nodeAt_newChild linked reached type cid).mpr (Or.inl ⟨parent, not_prefix_of_concat outside⟩)
      have fields : ((ft.newChild p x type cid).node n).name = (ft.node n).name ∧
          ((ft.newChild p x type cid).node n).parent = (ft.node n).parent ∧
          ((ft.newChild p x type cid).node n).fullPath = (ft.node n).fullPath := by
        rw [newChild_node ft p x type cid old]
        by_cases same : n = p
        · rw [if_pos same, same]
          exact ⟨rfl, rfl, rfl⟩
        · rw [if_neg same, if_neg (Nat.ne_of_lt before.allocated)]
          exact ⟨rfl, rfl, rfl⟩
      exact ⟨fields.1.trans before.name, by rw [fields.2.1, before.parent, parent, parent'],
        fields.2.2.trans before.fullPath, before.component, Nat.lt_succ_of_lt before.allocated⟩
    · obtain ⟨rfl, same⟩ := List.append_inj' path rfl
      obtain rfl : y = x := by simpa using same
      have parent' : (ft.newChild p y type cid).nodeAt q = some p := by
        refine (nodeAt_newChild linked reached type cid).mpr (Or.inl ⟨reached, fun inside => ?_⟩)
        have longer := inside.length_le
        simp only [List.length_append, List.length_singleton] at longer
        omega
      have new := newChild_node ft p y type cid old ft.next
      rw [if_neg (Ne.symm (Nat.ne_of_lt old)), if_pos rfl] at new
      refine ⟨by rw [new], by rw [new, parent'], ?_, component, Nat.lt_succ_self _⟩
      rw [new, render_concat, linked.fullPath reached]
  · rw [newChild_node ft p x type cid old]
    by_cases same : root = p
    · rw [if_pos same, ← same]
      exact linked.rootPath
    · rw [if_neg same, if_neg (Nat.ne_of_lt linked.rootAllocated)]
      exact linked.rootPath
  · exact Nat.lt_succ_of_lt linked.rootAllocated
  · intro m free y
    have free : ft.next + 1 ≤ m := free
    have later : ft.next ≤ m := Nat.le_of_succ_le free
    rw [change m y (Or.inl (Nat.ne_of_gt (Nat.lt_of_lt_of_le old later)))]
    exact linked.blank m later y

end NewChild

/-! ### Adding a path -/

/-- What the loop over the components of a path does, from the node at `π`. -/
structure AddSpec (ft ft' : FileTree) (path : List String) (n : NodeRef) (type : FileNodeType) (cid : String) : Prop where
  linked : Linked ft'
  found : ft'.nodeAt path = some n
  kept : ∀ q m, ft.nodeAt q = some m → ft'.nodeAt q = some m
  added : ∀ q m, ft'.nodeAt q = some m → ft.nodeAt q = some m ∨ (ft.nodeAt q = none ∧ q <+: path ∧ ft.next ≤ m)
  old : ∀ m, m < ft.next → m ≠ n → ft'.node m = { ft.node m with children := (ft'.node m).children }
  last : n < ft.next → ft'.node n =
    { ft.node n with
      children := (ft'.node n).children, type, ownerCid := cid, pathLength := (ft'.node n).pathLength }
  new : ft.next ≤ n → (ft'.node n).type = type ∧ (ft'.node n).ownerCid = cid ∧ (ft'.node n).size = 0
  between : ∀ m, ft.next ≤ m → m < ft'.next → m ≠ n → (ft'.node m).size = 0
  next : ft.next ≤ ft'.next

theorem newChild_spec {ft : FileTree} (linked : Linked ft) {π : List String} {p : NodeRef} (reached : ft.nodeAt π = some p)
    {x : String} (component : Component x) (absent : ft.edge p x = none) (type : FileNodeType) (cid : String) :
    AddSpec ft (ft.newChild p x type cid) (π ++ [x]) ft.next type cid := by
  have old := linked.allocated reached
  have missing : ft.nodeAt (π ++ [x]) = none := by rw [nodeAt_concat, reached, Option.bind_some, absent]
  have outside : ∀ q m, ft.nodeAt q = some m → ¬ π ++ [x] <+: q := by
    rintro q m found ⟨s, rfl⟩
    obtain ⟨k, here⟩ := nodeAt_of_prefix found
    rw [missing] at here
    cases here
  have new := newChild_node ft p x type cid old ft.next
  rw [if_neg (Ne.symm (Nat.ne_of_lt old)), if_pos rfl] at new
  refine ⟨linked.newChild reached component type cid, (nodeAt_newChild linked reached type cid).mpr (Or.inr ⟨rfl, rfl⟩),
    fun q m found => (nodeAt_newChild linked reached type cid).mpr (Or.inl ⟨found, outside q m found⟩), ?_, ?_,
    fun fresh => absurd fresh (Nat.lt_irrefl _), fun _ => by rw [new]; exact ⟨rfl, rfl, rfl⟩, ?_, Nat.le_succ _⟩
  · intro q m found
    rcases (nodeAt_newChild linked reached type cid).mp found with ⟨here, _⟩ | ⟨rfl, rfl⟩
    · exact Or.inl here
    · exact Or.inr ⟨missing, List.prefix_refl _, Nat.le_refl _⟩
  · intro m low _
    rw [newChild_node ft p x type cid old]
    by_cases same : m = p
    · rw [if_pos same, same]
    · rw [if_neg same, if_neg (Nat.ne_of_lt low)]
  · exact fun m low high different => absurd (Nat.le_antisymm (Nat.lt_succ_iff.mp high) low) different

theorem AddSpec.trans {ft ft₁ ft₂ : FileTree} {q₁ q₂ : List String} {n₁ n₂ : NodeRef} {type₁ type₂ : FileNodeType}
    {cid₁ cid₂ : String} (first : AddSpec ft ft₁ q₁ n₁ type₁ cid₁) (fresh : ft.next ≤ n₁)
    (second : AddSpec ft₁ ft₂ q₂ n₂ type₂ cid₂) (extends_ : q₁ <+: q₂) : AddSpec ft ft₂ q₂ n₂ type₂ cid₂ := by
  have untouched : ∀ m, m < ft.next → ft₁.node m = { ft.node m with children := (ft₁.node m).children } :=
    fun m low => first.old m low (Nat.ne_of_lt (Nat.lt_of_lt_of_le low fresh))
  have unsized : ∀ m, ft.next ≤ m → m < ft₁.next → (ft₁.node m).size = 0 := by
    intro m low high
    by_cases same : m = n₁
    · rw [same]
      exact (first.new fresh).2.2
    · exact first.between m low high same
  refine ⟨second.linked, second.found, fun q m found => second.kept q m (first.kept q m found), ?_, ?_, ?_, ?_, ?_,
    Nat.le_trans first.next second.next⟩
  · intro q m found
    rcases second.added q m found with here | ⟨absent, inside, low⟩
    · rcases first.added q m here with before | ⟨absent, inside, low⟩
      · exact Or.inl before
      · exact Or.inr ⟨absent, inside.trans extends_, low⟩
    · refine Or.inr ⟨?_, inside, Nat.le_trans first.next low⟩
      cases before : ft.nodeAt q with
      | none => rfl
      | some k =>
        rw [first.kept q k before] at absent
        cases absent
  · intro m low different
    rw [second.old m (Nat.lt_of_lt_of_le low first.next) different, untouched m low]
  · intro low
    rw [second.last (Nat.lt_of_lt_of_le low first.next), untouched n₂ low]
  · intro low
    by_cases high : n₂ < ft₁.next
    · rw [second.last high]
      exact ⟨rfl, rfl, unsized n₂ low high⟩
    · exact second.new (Nat.not_lt.mp high)
  · intro m low high different
    by_cases before : m < ft₁.next
    · rw [second.old m before different]
      exact unsized m low before
    · exact second.between m (Nat.not_lt.mp before) high different

theorem addLoop_spec {ft : FileTree} (linked : Linked ft) (type : FileNodeType) (cid : String) {π : List String}
    {current : NodeRef} (reached : ft.nodeAt π = some current) {parts : List String} (nonempty : parts ≠ [])
    (good : ∀ x ∈ parts, Component x) :
    AddSpec ft (ft.addLoop type cid current parts).1 (π ++ parts) (ft.addLoop type cid current parts).2 type cid := by
  induction parts generalizing ft π current with
  | nil => exact absurd rfl nonempty
  | cons part rest ih =>
    have component := good part List.mem_cons_self
    have later : ∀ x ∈ rest, Component x := fun x member => good x (List.mem_cons_of_mem _ member)
    have path : π ++ part :: rest = (π ++ [part]) ++ rest := by simp
    rw [addLoop, if_neg component.1]
    cases step : ft.edge current part with
    | some child =>
      have here : ft.nodeAt (π ++ [part]) = some child := by rw [nodeAt_concat, reached, Option.bind_some, step]
      by_cases isLast : rest = []
      · subst isLast
        -- the path is there: its node is retyped
        simp only [decide_true, if_true, addLoop]
        have edges : (ft.modify child fun n => { n with type, ownerCid := cid }).edge = ft.edge := modify_edge ft child rfl
        have at_ : ∀ q, (ft.modify child fun n => { n with type, ownerCid := cid }).nodeAt q = ft.nodeAt q :=
          fun q => by rw [nodeAt, nodeAt, edges]
        refine ⟨linked.modify child rfl rfl rfl rfl, by rw [at_, here], fun q m found => by rw [at_, found],
          fun q m found => Or.inl (by rw [← at_, found]), ?_, ?_, ?_, ?_, Nat.le_refl _⟩
        · intro m _ different
          rw [modify_node_ne ft _ different]
        · intro _
          simp
        · exact fun fresh => absurd (linked.allocated here) (Nat.not_lt.mpr fresh)
        · exact fun m low high _ => absurd (Nat.lt_of_lt_of_le high low) (Nat.lt_irrefl _)
      · simp only [isLast, decide_false, Bool.false_eq_true, if_false]
        rw [path]
        exact ih linked here isLast later
    | none =>
      by_cases isLast : rest = []
      · subst isLast
        simp only [decide_true, if_true, addLoop]
        exact newChild_spec linked reached component step type cid
      · simp only [isLast, decide_false, Bool.false_eq_true, if_false]
        have first := newChild_spec linked reached component step .tmpDir ""
        rw [path]
        exact first.trans (Nat.le_refl _) (ih first.linked first.found isLast later) (List.prefix_append _ _)

theorem addLoop_lists (ft : FileTree) (type : FileNodeType) (cid : String) (current : NodeRef) (parts : List String) :
    let ft' := (ft.addLoop type cid current parts).1
    ft'.nodesByCid = ft.nodesByCid ∧ ft'.filesByCid = ft.filesByCid ∧ ft'.dirsByCid = ft.dirsByCid := by
  induction parts generalizing ft current with
  | nil => exact ⟨rfl, rfl, rfl⟩
  | cons part rest ih =>
    rw [addLoop]
    by_cases skip : part = ""
    · rw [if_pos skip]
      exact ih ft current
    · rw [if_neg skip]
      cases ft.edge current part with
      | some child =>
        by_cases isLast : rest = []
        · simp only [isLast, decide_true, if_true]
          exact isLast ▸ ih (ft.modify child fun n => { n with type, ownerCid := cid }) child
        · simp only [isLast, decide_false, Bool.false_eq_true, if_false]
          exact ih ft child
      | none =>
        by_cases isLast : rest = []
        · simp only [isLast, decide_true, if_true]
          exact isLast ▸ ih (ft.newChild current part type cid) ft.next
        · simp only [isLast, decide_false, Bool.false_eq_true, if_false]
          exact ih (ft.newChild current part .tmpDir "") ft.next

/-- What `AddNode` does: the path is there, its node has the type and the owner, and the node is
in the owner's list of nodes and in its list of files or of directories. -/
structure AddNodeSpec (ft ft' : FileTree) (path : List String) (n : NodeRef) (type : FileNodeType) (cid : String) : Prop
    extends AddSpec ft ft' path n type cid where
  nodes : ft'.nodesByCid = ft.nodesByCid.appendNew cid n
  files : ft'.filesByCid = if type = .file then ft.filesByCid.appendNew cid n else ft.filesByCid
  dirs : ft'.dirsByCid = if type = .file then ft.dirsByCid else ft.dirsByCid.appendNew cid n

theorem AddSpec.finish {ft ft₁ ft₂ : FileTree} {path : List String} {type : FileNodeType} {cid : String}
    (spec : AddSpec ft ft₁ path n type cid) (next : ft₂.next = ft₁.next)
    (nodes : ft₂.node = (ft₁.modify n fun nd => { nd with pathLength := nd.fullPath.length }).node) :
    AddSpec ft ft₂ path n type cid := by
  have edges : ft₂.edge = ft₁.edge := by
    have same : ft₂.edge = (ft₁.modify n fun nd => { nd with pathLength := nd.fullPath.length }).edge := by
      unfold edge
      rw [nodes]
    rw [same]
    exact modify_edge ft₁ n rfl
  have self : ft₂.node n = { ft₁.node n with pathLength := (ft₁.node n).fullPath.length } := by
    rw [nodes]
    exact modify_node_self ft₁ n _
  have others : ∀ m, m ≠ n → ft₂.node m = ft₁.node m := by
    intro m different
    rw [nodes]
    exact modify_node_ne ft₁ _ different
  have at_ : ∀ q, ft₂.nodeAt q = ft₁.nodeAt q := fun q => by rw [nodeAt, nodeAt, edges]
  refine ⟨?_, by rw [at_, spec.found], fun q m found => by rw [at_, spec.kept q m found],
    fun q m found => spec.added q m (by rw [← at_, found]), ?_, ?_, ?_, ?_, by rw [next]; exact spec.next⟩
  · refine spec.linked.congr edges next fun m => ?_
    by_cases same : m = n
    · rw [same, self]
      exact ⟨rfl, rfl, rfl⟩
    · rw [others m same]
      exact ⟨rfl, rfl, rfl⟩
  · intro m low different
    rw [others m different]
    exact spec.old m low different
  · intro low
    rw [self, spec.last low]
  · intro fresh
    rw [self]
    exact spec.new fresh
  · intro m low high different
    rw [others m different]
    exact spec.between m low (next ▸ high) different

theorem register_nodes (ft : FileTree) (n : NodeRef) (type : FileNodeType) (cid : String) :
    (ft.register n type cid).node = (ft.modify n fun nd => { nd with pathLength := nd.fullPath.length }).node ∧
      (ft.register n type cid).next = ft.next := by
  unfold register
  split <;> exact ⟨rfl, rfl⟩

theorem register_lists (ft : FileTree) (n : NodeRef) (type : FileNodeType) (cid : String) :
    let ft' := ft.register n type cid
    ft'.nodesByCid = ft.nodesByCid.appendNew cid n ∧
      ft'.filesByCid = (if type = .file then ft.filesByCid.appendNew cid n else ft.filesByCid) ∧
      ft'.dirsByCid = (if type = .file then ft.dirsByCid else ft.dirsByCid.appendNew cid n) := by
  unfold register
  by_cases file : type = .file
  · simp only [file, if_true]
    exact ⟨rfl, rfl, rfl⟩
  · simp only [file, if_false]
    exact ⟨rfl, rfl, rfl⟩

theorem addNodeLocked_spec {ft : FileTree} (linked : Linked ft) {path : String} (clean : CleanPath path)
    (type : FileNodeType) (cid : String) :
    ∃ n, (ft.addNodeLocked path type cid).2 = some n ∧
      AddNodeSpec ft (ft.addNodeLocked path type cid).1 (pathParts path) n type cid := by
  have lists := addLoop_lists ft type cid root (pathParts path)
  have spec := addLoop_spec linked type cid (nodeAt_nil ft) (pathParts_ne_nil path) clean.component
  rw [addNodeLocked, if_neg clean.cleanPath_ne]
  unfold pathParts at lists spec ⊢
  generalize ft.addLoop type cid root (Go.split (cleanPath path) '/') = added at lists spec ⊢
  obtain ⟨nodes, files, dirs⟩ := lists
  obtain ⟨nodes', files', dirs'⟩ := register_lists added.1 added.2 type cid
  obtain ⟨heap, next⟩ := register_nodes added.1 added.2 type cid
  exact ⟨added.2, rfl, ⟨spec.finish next heap, nodes'.trans (by rw [nodes]), files'.trans (by rw [files]),
    dirs'.trans (by rw [dirs])⟩⟩

theorem Linked.addNode {ft : FileTree} (linked : Linked ft) {path : String} (clean : CleanPath path) (type : FileNodeType)
    (cid : String) : Linked (ft.addNode path type cid) := by
  obtain ⟨n, _, spec⟩ := addNodeLocked_spec linked clean type cid
  exact spec.linked

end DfsFuzz.Tree
