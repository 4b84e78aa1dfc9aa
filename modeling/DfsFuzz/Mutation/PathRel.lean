import DfsFuzz.Choice.Relation
import DfsFuzz.Dag.Vertex

/-!
The two classifications of a pair of paths: `pathRelBetween` (`prog/mutation.go`), which the choice
table counts in, and `determinePathRel` with `dagRelToDctRel` (`prog/dag.go`), which credits it.
-/

namespace DfsFuzz.Mutation

open DfsFuzz.Choice DfsFuzz.Dag

/-- The relation of `concPath` relative to `anchorPath`. -/
def pathRelBetween (anchorPath concPath : String) : PathRelation :=
  if anchorPath = "" || concPath = "" then .noRel
  else if anchorPath = concPath then .same
  else if Go.hasPrefix concPath (anchorPath ++ "/") then .child
  else if Go.hasPrefix anchorPath (concPath ++ "/") then .parent
  else if getParentDir anchorPath ≠ "" && getParentDir anchorPath = getParentDir concPath then .sibling
  else .noRel

def pathIsAncestorOf (parent child : String) : Bool := parent ≠ "" && Go.hasPrefix child (parent ++ "/")

/-- The DAG's relation in the choice table's terms; `none` is the source's `false`. -/
def dagRelToDctRel (p : DAGPair) : Option PathRelation :=
  match p.pathRel with
  | .samePath | .sameInode => some .same
  | .parentChild =>
    if pathIsAncestorOf p.A.v.path p.B.v.path then some .child
    else if pathIsAncestorOf p.B.v.path p.A.v.path then some .parent
    else none
  | .sameParent => some .sibling
  | .none => none

/-! ### Agreement -/

theorem prePath_of_not_rename {v : DAGVertex} (plain : v.funcID ≠ funcRename) : prePath v = v.path := by
  simp [prePath, plain]

theorem anyPaths_of_not_rename {A B : DAGVertex} (plainA : A.funcID ≠ funcRename) (plainB : B.funcID ≠ funcRename)
    (test : String → String → Bool) : anyPaths A B test = test A.path B.path := by
  simp [anyPaths, prePath_of_not_rename plainA, prePath_of_not_rename plainB]

theorem samePathTest_eq {a : String} (named : a ≠ "") (b : String) : samePathTest a b = decide (a = b) := by
  simp [samePathTest, named]

theorem parentChildTest_eq {a b : String} (namedA : a ≠ "") (namedB : b ≠ "") :
    parentChildTest a b = (Go.hasPrefix b (a ++ "/") || Go.hasPrefix a (b ++ "/")) := by
  simp [parentChildTest, namedA, namedB]

theorem sameParentTest_eq {a b : String} (namedA : a ≠ "") (namedB : b ≠ "") :
    sameParentTest a b = (decide (getParentDir a ≠ "") && decide (getParentDir a = getParentDir b)) := by
  simp [sameParentTest, namedA, namedB]

theorem pathRelBetween_cases (a b : String) :
    pathRelBetween a b = .noRel ∨ pathRelBetween a b = .same ∨ pathRelBetween a b = .parent ∨
      pathRelBetween a b = .child ∨ pathRelBetween a b = .sibling := by
  unfold pathRelBetween
  split_ifs <;> simp

theorem ancestor_of_child {a b : String} (child : pathRelBetween a b = .child) : pathIsAncestorOf a b = true := by
  unfold pathRelBetween at child
  split_ifs at child with empty same below
  simp only [Bool.or_eq_true, decide_eq_true_eq, not_or] at empty
  simp [pathIsAncestorOf, empty.1, below]

theorem ancestor_of_parent {a b : String} (parent : pathRelBetween a b = .parent) :
    pathIsAncestorOf a b = false ∧ pathIsAncestorOf b a = true := by
  unfold pathRelBetween at parent
  split_ifs at parent with empty same below above
  simp only [Bool.or_eq_true, decide_eq_true_eq, not_or] at empty
  simp [pathIsAncestorOf, empty.2, below, above]

/-- The DAG's relation of two operations that are no renames, read off the relation of their
paths. -/
def dagRelOf : PathRelation → PathRel
  | .same => .samePath
  | .parent | .child => .parentChild
  | .sibling => .sameParent
  | _ => .none

section Plain

variable {A B : DAGVertex} (plainA : A.funcID ≠ funcRename) (plainB : B.funcID ≠ funcRename)
  (namedA : A.path ≠ "") (namedB : B.path ≠ "") (inodes : A.ino ≠ 0 → A.ino = B.ino → A.path = B.path)

include plainA plainB namedA namedB inodes

theorem determinePathRel_eq (ordered : Bool) :
    determinePathRel A B ordered = dagRelOf (pathRelBetween A.path B.path) := by
  simp only [determinePathRel, anyPaths_of_not_rename plainA plainB, samePathTest_eq namedA,
    parentChildTest_eq namedA namedB, sameParentTest_eq namedA namedB, pathRelBetween, namedA, namedB]
  by_cases same : A.path = B.path
  · simp [same, dagRelOf]
  · have apart : sameInodeTest A B = false := by
      simp only [sameInodeTest, Bool.and_eq_false_iff, decide_eq_false_iff_not, not_not]
      by_cases numbered : A.ino = 0
      · exact .inl numbered
      · exact .inr fun equal => same (inodes numbered equal)
    simp only [same, apart, decide_false, Bool.or_false, Bool.false_eq_true, if_false]
    cases below : Go.hasPrefix B.path (A.path ++ "/")
    · cases above : Go.hasPrefix A.path (B.path ++ "/")
      · by_cases siblings : (getParentDir A.path ≠ "" && getParentDir A.path = getParentDir B.path) = true
        · simp only [siblings, if_true, Bool.or_false, Bool.false_eq_true, if_false, dagRelOf]
        · simp only [siblings, Bool.or_false, Bool.false_eq_true, if_false, dagRelOf]
      · simp [dagRelOf]
    · simp [dagRelOf]

/-- `dagRelToDctRel` recovers the direction that the DAG's relation dropped. -/
theorem dagRelToDctRel_eq {p : DAGPair} (ofA : p.A.v = A) (ofB : p.B.v = B) (ordered : Bool)
    (rel : p.pathRel = determinePathRel A B ordered) :
    dagRelToDctRel p = if pathRelBetween A.path B.path = .noRel then none else some (pathRelBetween A.path B.path) := by
  rw [dagRelToDctRel, rel, determinePathRel_eq plainA plainB namedA namedB inodes, ofA, ofB]
  rcases pathRelBetween_cases A.path B.path with unrelated | same | parent | child | sibling
  · simp [unrelated, dagRelOf]
  · simp [same, dagRelOf]
  · simp [parent, dagRelOf, ancestor_of_parent parent]
  · simp [child, dagRelOf, ancestor_of_child child]
  · simp [sibling, dagRelOf]

end Plain

/-- Two operations that are no renames are related in the DAG as their paths are in the choice
table, and the DAG's relation never depends on the order of its vertices. -/
theorem dagRel_agrees {p : DAGPair} (ordered : Bool)
    (plainA : p.A.v.funcID ≠ funcRename) (plainB : p.B.v.funcID ≠ funcRename)
    (namedA : p.A.v.path ≠ "") (namedB : p.B.v.path ≠ "")
    (inodes : p.A.v.ino ≠ 0 → p.A.v.ino = p.B.v.ino → p.A.v.path = p.B.v.path)
    (rel : p.pathRel = determinePathRel p.A.v p.B.v ordered) :
    (∀ r ∈ [PathRelation.same, .parent, .child, .sibling],
      (dagRelToDctRel p = some r ↔ pathRelBetween p.A.v.path p.B.v.path = r)) ∧
    (p.pathRel = .none ↔ pathRelBetween p.A.v.path p.B.v.path = .noRel) ∧
    ∀ (A B : DAGVertex) (ordered : Bool), determinePathRel A B ordered = determinePathRel B A ordered := by
  have credited := dagRelToDctRel_eq plainA plainB namedA namedB inodes rfl rfl ordered rel
  have stored := determinePathRel_eq plainA plainB namedA namedB inodes ordered
  rw [← rel] at stored
  refine ⟨?_, ?_, determinePathRel_comm⟩
  · intro r member
    rw [credited]
    split
    · rename_i unrelated
      rw [unrelated]
      constructor
      · intro impossible
        cases impossible
      · intro equal
        rw [← equal] at member
        simp at member
    · rw [Option.some_inj]
  · rw [stored]
    rcases pathRelBetween_cases p.A.v.path p.B.v.path with unrelated | same | parent | child | sibling
    · simp [unrelated, dagRelOf]
    · simp [same, dagRelOf]
    · simp [parent, dagRelOf]
    · simp [child, dagRelOf]
    · simp [sibling, dagRelOf]

def samplePair : DAGPair :=
  { A := ⟨0, { funcID := funcMkdir, path := "merge_view/d", retBucket := .success, ino := 7 }⟩
    B := ⟨1, { funcID := funcCreate, path := "merge_view/d/f", retBucket := .success, ino := 8 }⟩
    temporal := .hb
    pathRel := .parentChild }

theorem dagRel_agrees_sample :
    dagRelToDctRel samplePair = some .child ∧ pathRelBetween "merge_view/d" "merge_view/d/f" = .child := by
  have child : pathRelBetween "merge_view/d" "merge_view/d/f" = .child := by decide +kernel
  have agrees := dagRel_agrees (p := samplePair) true (by decide) (by decide) (by decide) (by decide) (by decide)
    (by decide +kernel)
  exact ⟨(agrees.1 .child (by decide)).mpr child, child⟩

end DfsFuzz.Mutation
