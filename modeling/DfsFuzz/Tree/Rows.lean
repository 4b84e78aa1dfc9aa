import DfsFuzz.Tree.Remove

/-!
The index by cid, one node at a time: how often a node occurs in each list, and what adding and
removing do to that.
-/

namespace DfsFuzz.Tree

open FileTree

/-- How often a node occurs in the lists of each cid. -/
@[ext] structure Row where
  nodes : String → Nat
  files : String → Nat
  dirs : String → Nat

namespace Row

def zero : Row := ⟨fun _ => 0, fun _ => 0, fun _ => 0⟩

def byType (row : Row) (type : FileNodeType) : String → Nat := if type = .file then row.files else row.dirs

def otherType (row : Row) (type : FileNodeType) : String → Nat := if type = .file then row.dirs else row.files

def mapType (row : Row) (type : FileNodeType) (f : (String → Nat) → String → Nat) : Row :=
  if type = .file then { row with files := f row.files } else { row with dirs := f row.dirs }

def lessAll (counts : String → Nat) : String → Nat := fun c => counts c - 1

def lessAt (cid : String) (counts : String → Nat) : String → Nat := Function.update counts cid (counts cid - 1)

def moreAt (cid : String) (counts : String → Nat) : String → Nat := Function.update counts cid (counts cid + 1)

def onceAt (cid : String) (counts : String → Nat) : String → Nat := Function.update counts cid (max (counts cid) 1)

def added (row : Row) (type : FileNodeType) (cid : String) : Row :=
  ({ row with nodes := onceAt cid row.nodes } : Row).mapType type (onceAt cid)

def unit (type : FileNodeType) (cid : String) : Row :=
  ({ zero with nodes := moreAt cid zero.nodes } : Row).mapType type (moreAt cid)

/-- One occurrence less in the lists `removeNodeFromCidLists` looks through. -/
def removed (row : Row) (type : FileNodeType) : Row :=
  ({ row with nodes := lessAll row.nodes } : Row).mapType type lessAll

theorem zero_added (type : FileNodeType) (cid : String) : zero.added type cid = unit type cid := by
  unfold added unit mapType
  split <;> rfl

theorem kinds_zero_iff (row : Row) (type : FileNodeType) (c : String) :
    row.files c = 0 ∧ row.dirs c = 0 ↔ row.byType type c = 0 ∧ row.otherType type c = 0 := by
  unfold byType otherType
  split
  · rfl
  · exact and_comm

structure Removable (row : Row) (type : FileNodeType) : Prop where
  nodes : ∀ c, row.nodes c ≤ 1
  byType : ∀ c, row.byType type c ≤ 1
  otherType : ∀ c, row.otherType type c = 0

theorem removed_eq_zero_iff (row : Row) (type : FileNodeType) : row.removed type = zero ↔ row.Removable type := by
  have split : row.Removable type ↔ ∀ c, row.nodes c ≤ 1 ∧ row.byType type c ≤ 1 ∧ row.otherType type c = 0 :=
    ⟨fun r c => ⟨r.nodes c, r.byType c, r.otherType c⟩, fun r => ⟨fun c => (r c).1, fun c => (r c).2.1, fun c => (r c).2.2⟩⟩
  rw [split, Row.ext_iff, funext_iff, funext_iff, funext_iff, ← forall_and, ← forall_and]
  refine forall_congr' fun c => ?_
  unfold removed mapType byType otherType lessAll zero
  cases type <;> simp [Nat.sub_eq_zero_iff_le, and_comm]

theorem removed_zero (type : FileNodeType) : zero.removed type = zero := by
  unfold removed mapType
  split <;> rfl

end Row

def CidLists.counts (lists : CidLists) (n : NodeRef) : String → Nat := fun c => (lists c).count n

def FileTree.row (ft : FileTree) (n : NodeRef) : Row :=
  ⟨ft.nodesByCid.counts n, ft.filesByCid.counts n, ft.dirsByCid.counts n⟩

section Counts
variable (lists : CidLists) (cid : String) (n : NodeRef) {m : NodeRef}

@[simp] theorem counts_sweep_self : (lists.sweep n).counts n = Row.lessAll (lists.counts n) := by
  funext c
  simp [CidLists.counts, CidLists.sweep, Row.lessAll]

theorem counts_sweep_ne (different : m ≠ n) : (lists.sweep n).counts m = lists.counts m := by
  funext c
  simp [CidLists.counts, CidLists.sweep, different]

@[simp] theorem counts_drop_self : (lists.drop cid n).counts n = Row.lessAt cid (lists.counts n) := by
  funext c
  by_cases here : c = cid
  · subst here
    simp [CidLists.counts, CidLists.drop, Row.lessAt]
  · simp [CidLists.counts, CidLists.drop, Row.lessAt, here]

theorem counts_drop_ne (different : m ≠ n) : (lists.drop cid n).counts m = lists.counts m := by
  funext c
  by_cases here : c = cid
  · subst here
    simp [CidLists.counts, CidLists.drop, different]
  · simp [CidLists.counts, CidLists.drop, here]

@[simp] theorem counts_append_self : (lists.append cid n).counts n = Row.moreAt cid (lists.counts n) := by
  funext c
  by_cases here : c = cid
  · subst here
    simp [CidLists.counts, CidLists.append, Row.moreAt]
  · simp [CidLists.counts, CidLists.append, Row.moreAt, here]

theorem counts_append_ne (different : m ≠ n) : (lists.append cid n).counts m = lists.counts m := by
  funext c
  by_cases here : c = cid
  · subst here
    simp [CidLists.counts, CidLists.append, Ne.symm different]
  · simp [CidLists.counts, CidLists.append, here]

theorem counts_appendNew_ne (different : m ≠ n) : (lists.appendNew cid n).counts m = lists.counts m := by
  unfold CidLists.appendNew
  split
  · rfl
  · exact counts_append_ne lists cid n different

@[simp] theorem counts_appendNew_self : (lists.appendNew cid n).counts n = Row.onceAt cid (lists.counts n) := by
  unfold CidLists.appendNew
  split
  · rename_i present
    have positive : 1 ≤ lists.counts n cid := List.one_le_count_iff.mpr present
    rw [Row.onceAt, Nat.max_eq_left positive, Function.update_eq_self]
  · rename_i absent
    have none : lists.counts n cid = 0 := List.count_eq_zero.mpr absent
    rw [counts_append_self, Row.moreAt, Row.onceAt, none]
    rfl

end Counts

theorem row_removeNodeFromCidLists (ft : FileTree) (n : NodeRef) :
    (ft.removeNodeFromCidLists n).row n = (ft.row n).removed (ft.node n).type ∧
      ∀ m, m ≠ n → (ft.removeNodeFromCidLists n).row m = ft.row m := by
  unfold removeNodeFromCidLists Row.removed Row.mapType
  by_cases file : (ft.node n).type = .file
  · simp only [file, if_true, row, counts_sweep_self, true_and]
    exact fun m different => by rw [counts_sweep_ne _ _ different, counts_sweep_ne _ _ different]
  · simp only [file, if_false, row, counts_sweep_self, true_and]
    exact fun m different => by rw [counts_sweep_ne _ _ different, counts_sweep_ne _ _ different]

theorem removeNodeFromCidLists_zero {ft : FileTree} {m : NodeRef} (n : NodeRef) (unlisted : ft.row m = Row.zero) :
    (ft.removeNodeFromCidLists n).row m = Row.zero := by
  obtain ⟨self, others⟩ := row_removeNodeFromCidLists ft n
  by_cases here : m = n
  · subst here
    rw [self, unlisted, Row.removed_zero]
  · rw [others m here, unlisted]

theorem detach_lists (ft : FileTree) (n : NodeRef) :
    (ft.detach n).next = ft.next ∧ ∀ m, (ft.detach n).row m = ft.row m := by
  unfold detach
  cases (ft.node n).parent with
  | none => exact ⟨rfl, fun _ => rfl⟩
  | some p => exact ⟨rfl, fun _ => rfl⟩

theorem row_congr {ft ft' : FileTree} (nodes : ft'.nodesByCid = ft.nodesByCid) (files : ft'.filesByCid = ft.filesByCid)
    (dirs : ft'.dirsByCid = ft.dirsByCid) (m : NodeRef) : ft'.row m = ft.row m := by
  unfold FileTree.row
  rw [nodes, files, dirs]

theorem remove_spec {ft : FileTree} (linked : Linked ft) {a : List String} (nonempty : a ≠ []) {n : NodeRef}
    (found : ft.nodeAt a = some n) :
    let ft' := (ft.detach n).removeNodeFromCidLists n
    Linked ft' ∧ (∀ m, ft'.node m = { ft.node m with children := (ft'.node m).children }) ∧ ft'.next = ft.next ∧
      (∀ q m, ft'.nodeAt q = some m ↔ ft.nodeAt q = some m ∧ ¬ a <+: q) ∧
      ft'.row n = (ft.row n).removed (ft.node n).type ∧ ∀ m, m ≠ n → ft'.row m = ft.row m := by
  obtain ⟨π, x, rfl⟩ := (List.eq_nil_or_concat' a).resolve_left nonempty
  have same := detach_same linked found
  have rows := row_congr same.nodes same.files same.dirs
  have type : ((ft.detach n).node n).type = (ft.node n).type := by rw [same.node n]
  obtain ⟨node, next⟩ := removeNodeFromCidLists_node (ft.detach n) n
  obtain ⟨row, others⟩ := row_removeNodeFromCidLists (ft.detach n) n
  refine ⟨(linked.detach found).heap node next, fun m => ?_, next.trans same.next, fun q m => ?_, ?_, fun m different => ?_⟩
  · rw [node]
    exact same.node m
  · rw [nodeAt_heap node]
    exact nodeAt_detach linked found
  · rw [row, rows n, type]
  · rw [others m different, rows m]

theorem AddNodeSpec.rows {ft ft' : FileTree} {q : List String} {n : NodeRef} {type : FileNodeType} {cid : String}
    (spec : AddNodeSpec ft ft' q n type cid) :
    ft'.row n = (ft.row n).added type cid ∧ ∀ m, m ≠ n → ft'.row m = ft.row m := by
  unfold FileTree.row Row.added Row.mapType
  rw [spec.nodes, spec.files, spec.dirs]
  by_cases file : type = .file
  · simp only [file, if_true, counts_appendNew_self, true_and]
    exact fun m different => by rw [counts_appendNew_ne _ _ _ different, counts_appendNew_ne _ _ _ different]
  · simp only [file, if_false, counts_appendNew_self, true_and]
    exact fun m different => by rw [counts_appendNew_ne _ _ _ different, counts_appendNew_ne _ _ _ different]

def Listed (ft : FileTree) (n : NodeRef) : Prop :=
  ∃ c, n ∈ ft.nodesByCid c ∨ n ∈ ft.filesByCid c ∨ n ∈ ft.dirsByCid c

theorem row_eq_zero_iff (ft : FileTree) (n : NodeRef) : ft.row n = Row.zero ↔ ¬ Listed ft n := by
  rw [Row.ext_iff, funext_iff, funext_iff, funext_iff, ← forall_and, ← forall_and, Listed, not_exists]
  refine forall_congr' fun c => ?_
  simp [FileTree.row, CidLists.counts, Row.zero, List.count_eq_zero]

end DfsFuzz.Tree
