import DfsFuzz.Choice.Relation
import DfsFuzz.Lib.Totals

/-! The table of call variants and its two feedback operations (`prog/distributed_choice.go`). -/

namespace DfsFuzz.Choice

open DfsFuzz.Tree

structure CallVariant where
  callName : String
  pathRelation : PathRelation
deriving DecidableEq

def noYieldThreshold : Nat := 10

def noYieldDelta : Nat := 5

def maxComboWeight : Nat := 100

structure DistributedChoiceTable where
  rootCalls : Go.Map String Bool := ∅
  variants : Go.Map String (List CallVariant) := ∅
  weights : Go.Map String (Go.Map CallVariant Nat) := ∅
  explored : Go.Map String (Go.Map CallVariant Bool) := ∅
  noYield : Go.Map String (Go.Map CallVariant Nat) := ∅

def rootCallNames (seedType : String) : List String :=
  if seedType = "fileops" then ["open", "read", "write", "pread64", "pwrite64", "fsync", "fdatasync", "truncate"]
  else ["mkdir", "rmdir", "creat", "unlink", "rename", "chmod", "truncate", "stat", "open", "getdents64"]

def variantCallNames (seedType : String) : List String :=
  if seedType = "fileops" then
    ["open", "read", "write", "pread64", "pwrite64", "fsync", "fdatasync", "truncate", "stat"]
  else
    ["mkdir", "rmdir", "creat", "unlink", "rename", "chmod", "truncate", "stat", "open", "getdents64", "write", "read",
      "pwrite64", "pread64"]

def relations : List PathRelation := [.same, .parent, .child, .sibling, .noRel]

/-- The variants of every root call. A rename has the same relation for both of its paths. -/
def defaultVariants (seedType : String) : List CallVariant :=
  (variantCallNames seedType).flatMap fun callName =>
    if callName = "rename" then
      relations.flatMap fun srcRel => relations.flatMap fun tgtRel => if srcRel = tgtRel then [⟨callName, srcRel⟩] else []
    else relations.map fun rel => ⟨callName, rel⟩

def relationWeight : PathRelation → Nat
  | .same => 30
  | .sibling => 20
  | .parent | .child => 15
  | .noRel => 5
  | .self | .selfTwo => 10

def conflictPairs : List (String × List (String × Nat)) :=
  [("mkdir", [("rmdir", 25), ("creat", 20), ("unlink", 15), ("write", 15), ("read", 15), ("open", 20), ("getdents64", 20)]),
    ("rmdir", [("mkdir", 25), ("creat", 20), ("unlink", 15), ("write", 15), ("read", 15), ("getdents64", 25)]),
    ("creat", [("unlink", 30), ("rmdir", 20), ("mkdir", 20), ("creat", 25), ("write", 25), ("read", 25)]),
    ("unlink", [("creat", 30), ("mkdir", 15), ("rmdir", 15), ("write", 30), ("read", 20)]),
    ("rename", [("rename", 35), ("unlink", 25), ("creat", 20), ("write", 20), ("read", 20)]),
    ("chmod", [("read", 15), ("write", 15), ("truncate", 20)]),
    ("truncate", [("write", 25), ("read", 20), ("chmod", 20)]),
    ("stat", [("write", 10), ("read", 10)]),
    ("open", [("read", 25), ("write", 25), ("truncate", 20), ("pread64", 20), ("pwrite64", 20), ("unlink", 25),
      ("rename", 20), ("rmdir", 20)]),
    ("write", [("read", 30), ("write", 25), ("truncate", 20), ("unlink", 30), ("creat", 25), ("mkdir", 15), ("rmdir", 15),
      ("pread64", 25), ("pwrite64", 25), ("fsync", 20)]),
    ("read", [("write", 30), ("truncate", 15), ("unlink", 20), ("creat", 25), ("mkdir", 15), ("rmdir", 15),
      ("pread64", 20), ("pwrite64", 20)]),
    ("fsync", [("write", 25), ("read", 15), ("truncate", 20)]),
    ("fdatasync", [("write", 25), ("read", 15), ("truncate", 20)]),
    ("pwrite64", [("read", 25), ("write", 25), ("pread64", 20), ("truncate", 20)]),
    ("pread64", [("write", 30), ("pwrite64", 20), ("truncate", 15)]),
    ("getdents64", [("creat", 25), ("rmdir", 25), ("unlink", 20), ("mkdir", 20), ("rename", 20), ("write", 5), ("read", 5),
      ("pread64", 5), ("pwrite64", 5), ("fsync", 5), ("fdatasync", 5)])]

def getInitialWeight (rootCall : String) (variant : CallVariant) : Nat :=
  ((conflictPairs.lookup rootCall).bind fun group => group.lookup variant.callName).getD
    (relationWeight variant.pathRelation)

def initDefaultConfig (seedType : String) : DistributedChoiceTable :=
  (rootCallNames seedType).foldl (fun dct rootCall =>
    let weights := (defaultVariants seedType).foldl (fun m cv => m.insert cv (getInitialWeight rootCall cv)) ∅
    { rootCalls := dct.rootCalls.insert rootCall true
      variants := dct.variants.insert rootCall (defaultVariants seedType)
      weights := dct.weights.insert rootCall weights
      explored := dct.explored.insert rootCall ∅
      noYield := dct.noYield.insert rootCall ∅ }) {}

def newDistributedChoiceTable (seedType : String) : DistributedChoiceTable := initDefaultConfig seedType

def isFileOnlyVariantRel (cv : CallVariant) : Bool :=
  isFileOnlyCallByName cv.callName &&
    (cv.pathRelation = .self || cv.pathRelation = .same || cv.pathRelation = .parent)

/-- `relOKByType` restricts the relations by the type the call needs; nil restricts nothing. -/
def eligible (baseIsFile : Bool) (relOKByType : Option RelOK) (cv : CallVariant) : Bool :=
  if cv.callName = "mkdir" then
    if baseIsFile then false
    else
      match cv.pathRelation with
      | .same | .child | .noRel => true
      | .parent | .sibling =>
        match relOKByType with
        | none => true
        | some relOK => relOK .dir .parent
      | _ => false
  else if baseIsFile && cv.pathRelation = .same && isDirOnlyCall cv.callName then false
  else
    let relOK := match relOKByType with
      | none => true
      | some relOK => relOK (callNameConstraint cv.callName) cv.pathRelation
    if !relOK then false else if !baseIsFile && isFileOnlyVariantRel cv then false else true

namespace DistributedChoiceTable

def variantsOf (dct : DistributedChoiceTable) (rootCall : String) : List CallVariant := dct.variants.getD rootCall []

def weightOf (dct : DistributedChoiceTable) (rootCall : String) (cv : CallVariant) : Nat :=
  (dct.weights.getD rootCall ∅).getD cv 0

/-- The combo has produced no signal and is within its exploration budget. -/
def isUnexplored (dct : DistributedChoiceTable) (rootCall : String) (cv : CallVariant) : Bool :=
  !(dct.explored.getD rootCall ∅).getD cv false && (dct.noYield.getD rootCall ∅).getD cv 0 < noYieldThreshold

def eligibleVariants (dct : DistributedChoiceTable) (rootCall : String) (baseIsFile : Bool) (relOKByType : Option RelOK) :
    List CallVariant := (dct.variantsOf rootCall).filter (eligible baseIsFile relOKByType)

def unexploredVariants (dct : DistributedChoiceTable) (rootCall : String) (baseIsFile : Bool) (relOKByType : Option RelOK) :
    List CallVariant := (dct.eligibleVariants rootCall baseIsFile relOKByType).filter (dct.isUnexplored rootCall)

def chooseVariant (dct : DistributedChoiceTable) (rootCall : String) (draw : Draw) (baseIsFile : Bool)
    (relOKByType : Option RelOK) : Option CallVariant :=
  let all := dct.eligibleVariants rootCall baseIsFile relOKByType
  let unexplored := dct.unexploredVariants rootCall baseIsFile relOKByType
  let cand := if unexplored.length > 0 then unexplored else all
  if cand.length = 0 then none
  else
    let total := WeightedPick.total (dct.weightOf rootCall) cand
    if total = 0 then cand[draw.intn cand.length]?
    else (WeightedPick.pick (dct.weightOf rootCall) (draw.intn total) 0 cand).or cand.getLast?

def chooseVariantFiltered (dct : DistributedChoiceTable) (rootCall : String) (draw : Draw) (baseIsFile : Bool)
    (relOKByType : Option RelOK) : Option CallVariant := dct.chooseVariant rootCall draw baseIsFile relOKByType

def downWeight (w : Nat) : Nat := if w > noYieldDelta then w - noYieldDelta else if w > 1 then 1 else w

def put {β : Type} (m : Go.Map String (Go.Map CallVariant β)) (rootCall : String) (cv : CallVariant) (v : β) :
    Go.Map String (Go.Map CallVariant β) := m.insert rootCall ((m.getD rootCall ∅).insert cv v)

def noYieldTick (dct : DistributedChoiceTable) (rootCall : String) (cv : CallVariant) : DistributedChoiceTable :=
  match dct.noYield.lookup rootCall with
  | none => dct
  | some counts =>
    let n := counts.getD cv 0 + 1
    if n < noYieldThreshold then { dct with noYield := put dct.noYield rootCall cv n }
    else
      let dct := { dct with noYield := put dct.noYield rootCall cv 0 }
      match (dct.weights.getD rootCall ∅).lookup cv with
      | none => dct
      | some w => { dct with weights := put dct.weights rootCall cv (downWeight w) }

def markYield (dct : DistributedChoiceTable) (rootCall : String) (variant : CallVariant) : DistributedChoiceTable :=
  match (dct.weights.lookup rootCall).bind fun weights => weights.lookup variant with
  | none => dct
  | some w =>
    { dct with
      explored := if (dct.explored.lookup rootCall).isSome then put dct.explored rootCall variant true else dct.explored
      noYield := if (dct.noYield.lookup rootCall).isSome then put dct.noYield rootCall variant 0 else dct.noYield
      weights := if w < maxComboWeight then put dct.weights rootCall variant (w + 1) else dct.weights }

end DistributedChoiceTable

structure LayeredChoiceStrategy where
  dctInodeops : DistributedChoiceTable
  dctFileops : DistributedChoiceTable
  fileTree : Option FileTree
  seedType : String

namespace LayeredChoiceStrategy

def getDCT (lcs : LayeredChoiceStrategy) : DistributedChoiceTable :=
  if lcs.seedType = "fileops" then lcs.dctFileops else lcs.dctInodeops

def chooseConcurrentCallFiltered (lcs : LayeredChoiceStrategy) (rootCallName : String) (draw : Draw) (baseIsFile : Bool)
    (basePath : String) : Option CallVariant :=
  lcs.getDCT.chooseVariantFiltered rootCallName draw baseIsFile (some (availableRelationsForBase lcs.fileTree basePath))

end LayeredChoiceStrategy

end DfsFuzz.Choice
