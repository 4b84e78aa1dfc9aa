import DfsFuzz.Prog.Types

/-! Vertices and pairs of the operation DAG and the predicates on them (`prog/dag.go`). -/

namespace DfsFuzz.Dag

inductive RetBucket where
  | success | eexist | enoent | failure | writepageDone | writepageErr
deriving DecidableEq, Repr

def RetBucket.toNat : RetBucket → Nat
  | .success => 0
  | .eexist => 1
  | .enoent => 2
  | .failure => 3
  | .writepageDone => 4
  | .writepageErr => 5

inductive TemporalRel where
  | hb | concurrent
deriving DecidableEq, Repr

def TemporalRel.toNat : TemporalRel → Nat
  | .hb => 0
  | .concurrent => 1

inductive PathRel where
  | samePath | sameInode | parentChild | sameParent | none
deriving DecidableEq, Repr

def PathRel.toNat : PathRel → Nat
  | .samePath => 0
  | .sameInode => 1
  | .parentChild => 2
  | .sameParent => 3
  | .none => 4

/-! ### Function ids

Trace events carry the id as a raw 32-bit number, so an unknown id is a possible value. -/

def funcMkdir : UInt32 := 0
def funcCreate : UInt32 := 1
def funcRmdir : UInt32 := 2
def funcUnlink : UInt32 := 3
def funcRename : UInt32 := 4
def funcWrite : UInt32 := 5
def funcRead : UInt32 := 6
def funcFileOpen : UInt32 := 7
def funcDirOpen : UInt32 := 8
def funcGetattr : UInt32 := 9
def funcSetattr : UInt32 := 10
def funcFsync : UInt32 := 11
def funcRelease : UInt32 := 12
def funcLookup : UInt32 := 13
def funcIterate : UInt32 := 14
def funcWritepage : UInt32 := 15

structure DAGVertex where
  funcID : UInt32
  callName : String := ""
  path : String := ""
  oldPath : String := ""
  retBucket : RetBucket
  stime : UInt64 := 0
  etime : UInt64 := 0
  ino : UInt64 := 0
  progIdx : Int := 0
  isDir : Bool := false
  off : UInt64 := 0
  size : UInt64 := 0
deriving DecidableEq

/-- A pointer into the vertex slice: the index and the vertex there. -/
structure VertexRef where
  idx : Nat
  v : DAGVertex
deriving DecidableEq

structure DAGPair where
  A : VertexRef
  B : VertexRef
  temporal : TemporalRel
  pathRel : PathRel
deriving DecidableEq

def bucketizeRet (fid : UInt32) (ret : Int32) : RetBucket :=
  if fid = funcWritepage then
    if ret = 0 then .writepageDone else .writepageErr
  else if ret = 0 then .success
  else if ret = -17 then .eexist
  else if ret = -2 then .enoent
  else if ret > 0 then .success
  else .failure

def isModifierFunc (fid : UInt32) : Bool :=
  fid = funcMkdir || fid = funcCreate || fid = funcRmdir || fid = funcUnlink || fid = funcRename ||
    fid = funcWrite || fid = funcSetattr || fid = funcFsync || fid = funcWritepage

def isSucceededModifier (v : DAGVertex) : Bool :=
  isModifierFunc v.funcID && (v.retBucket = .success || v.retBucket = .writepageDone)

/-- The path the operation saw on entry (rename: old path). -/
def prePath (v : DAGVertex) : String :=
  if v.funcID = funcRename && v.oldPath ≠ "" then v.oldPath else v.path

def anyPaths (A B : DAGVertex) (test : String → String → Bool) : Bool :=
  [A.path, prePath A].any fun a => [B.path, prePath B].any fun b => test a b

def samePathTest (a b : String) : Bool := a ≠ "" && a = b

def parentChildTest (a b : String) : Bool :=
  !(a = "" || b = "") && (Go.hasPrefix b (a ++ "/") || Go.hasPrefix a (b ++ "/"))

def sameParentTest (a b : String) : Bool :=
  a ≠ "" && b ≠ "" && getParentDir a ≠ "" && getParentDir a = getParentDir b

def sameInodeTest (A B : DAGVertex) : Bool := A.ino ≠ 0 && A.ino = B.ino

/-- The path relation of two vertices. The source's `ordered` flag is not read. -/
def determinePathRel (A B : DAGVertex) (_ordered : Bool) : PathRel :=
  if anyPaths A B samePathTest then .samePath
  else if sameInodeTest A B then .sameInode
  else if anyPaths A B parentChildTest then .parentChild
  else if anyPaths A B sameParentTest then .sameParent
  else .none

theorem anyPaths_comm (A B : DAGVertex) {test : String → String → Bool}
    (symmetric : ∀ a b, test a b = test b a) : anyPaths A B test = anyPaths B A test := by
  simp only [anyPaths, List.any_cons, List.any_nil, Bool.or_false, symmetric A.path, symmetric (prePath A)]
  ac_rfl

theorem samePathTest_comm (a b : String) : samePathTest a b = samePathTest b a := by
  by_cases same : a = b
  · rw [same]
  · simp [samePathTest, same, Ne.symm same]

theorem parentChildTest_comm (a b : String) : parentChildTest a b = parentChildTest b a := by
  simp only [parentChildTest]
  rw [Bool.or_comm (decide (a = "")), Bool.or_comm (Go.hasPrefix b _)]

theorem sameParentTest_comm (a b : String) : sameParentTest a b = sameParentTest b a := by
  by_cases same : getParentDir a = getParentDir b
  · simp only [sameParentTest, same]
    rw [Bool.and_comm (decide (a ≠ ""))]
  · simp [sameParentTest, same, Ne.symm same]

theorem sameInodeTest_comm (A B : DAGVertex) : sameInodeTest A B = sameInodeTest B A := by
  by_cases same : A.ino = B.ino
  · simp [sameInodeTest, same]
  · simp [sameInodeTest, same, Ne.symm same]

theorem determinePathRel_comm (A B : DAGVertex) (ordered : Bool) :
    determinePathRel A B ordered = determinePathRel B A ordered := by
  simp only [determinePathRel, anyPaths_comm A B samePathTest_comm, sameInodeTest_comm A B,
    anyPaths_comm A B parentChildTest_comm, anyPaths_comm A B sameParentTest_comm]

end DfsFuzz.Dag
