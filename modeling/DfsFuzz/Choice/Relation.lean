import DfsFuzz.Tree.FileTree

/-!
Paths for variant calls (`prog/distributed_choice.go`): which relation to a base path a tree can
produce, and the path it produces. A random source is the number each call of `Intn` returns.
-/

namespace DfsFuzz.Choice

open DfsFuzz.Tree

inductive PathRelation where
  | self | selfTwo | same | parent | child | sibling | noRel
deriving DecidableEq, Repr

inductive RelTarget where
  | any | file | dir
deriving DecidableEq, Repr

/-- What `r.Intn` returns, for one call of it. -/
structure Draw where
  intn : Nat → Nat
  lt : ∀ n, 0 < n → intn n < n

def dirOnlyCalls : List String := ["mkdir", "rmdir", "getdents64"]

def fileOnlyCalls : List String :=
  ["creat", "truncate", "pread64", "pwrite64", "read", "write", "fsync", "fdatasync", "unlink"]

def isDirOnlyCall (callName : String) : Bool := dirOnlyCalls.any fun name => Go.contains callName name

def isFileOnlyCallByName (callName : String) : Bool := fileOnlyCalls.any fun name => Go.contains callName name

def callNameConstraint (callName : String) : RelTarget :=
  if isFileOnlyCallByName callName then .file else if isDirOnlyCall callName then .dir else .any

def nodeMatchesConstraint (node : FileNode) (constraint : RelTarget) : Bool :=
  match constraint with
  | .file => node.type = .file
  | .dir => node.type ≠ .file
  | .any => true

def filterNodesByConstraint (ft : FileTree) (nodes : List NodeRef) (constraint : RelTarget) : List NodeRef :=
  if constraint = .any then nodes else nodes.filter fun n => nodeMatchesConstraint (ft.node n) constraint

def getParent (ft : FileTree) (node : NodeRef) : Option NodeRef := (ft.node node).parent

def getChildren (ft : FileTree) (node : NodeRef) : List NodeRef := (ft.node node).children.items.map Prod.snd

def getSibling (ft : FileTree) (node : NodeRef) : List NodeRef :=
  match (ft.node node).parent with
  | none => []
  | some p => (getChildren ft p).filter fun child => child ≠ node

def drawPath (ft : FileTree) (nodes : List NodeRef) (draw : Draw) : String :=
  match nodes[draw.intn nodes.length]? with
  | some n => (ft.node n).fullPath
  | none => ""

def isUnrelated (excludePath fp : String) : Bool :=
  fp ≠ excludePath && !Go.hasPrefix excludePath (fp ++ "/") && !Go.hasPrefix fp (excludePath ++ "/") &&
    getParentDir fp ≠ getParentDir excludePath

/-- The walk over the tree below a node. The depth of the tree is below the number of nodes, which
is the fuel its caller gives. -/
def unrelatedWalk : Nat → FileTree → (FileNode → Bool) → NodeRef → List NodeRef
  | 0, _, _, _ => []
  | fuel + 1, ft, candidate, n =>
    (getChildren ft n).flatMap fun child =>
      (if candidate (ft.node child) then [child] else []) ++ unrelatedWalk fuel ft candidate child

def getRandomUnrelatedPath (ft : FileTree) (excludePath : String) (draw : Draw) (constraint : RelTarget) : String :=
  let candidates := unrelatedWalk ft.next ft
    (fun nd => nodeMatchesConstraint nd constraint && isUnrelated excludePath nd.fullPath) root
  drawPath ft candidates draw

/-- `coin` is the draw between two base paths, `draw` the one among the nodes. -/
def getPathByRelation (ft : FileTree) (basePath basePath2 : String) (relation : PathRelation) (coin draw : Draw)
    (isTwoPath : Bool) (constraint : RelTarget) : String :=
  let baseNode := if isTwoPath && coin.intn 2 ≠ 0 then ft.findNode basePath2 else ft.findNode basePath
  match baseNode with
  | none =>
    match relation with
    | .self | .selfTwo | .same => basePath
    | _ =>
      match ft.findNode (getParentDir basePath) with
      | none => ""
      | some parent =>
        match relation with
        | .parent => if constraint = .file then "" else (ft.node parent).fullPath
        | .sibling => drawPath ft (filterNodesByConstraint ft (getChildren ft parent) constraint) draw
        | .noRel => getRandomUnrelatedPath ft basePath draw constraint
        | _ => ""
  | some baseNode =>
    match relation with
    | .self | .selfTwo | .same => basePath
    | .parent =>
      if constraint = .file then ""
      else
        match getParent ft baseNode with
        | none => ""
        | some parent => (ft.node parent).fullPath
    | .child => drawPath ft (filterNodesByConstraint ft (getChildren ft baseNode) constraint) draw
    | .sibling => drawPath ft (filterNodesByConstraint ft (getSibling ft baseNode) constraint) draw
    | .noRel => getRandomUnrelatedPath ft basePath draw constraint

def isDirPath (ft : FileTree) (path : String) : Bool :=
  match ft.findNode path with
  | some node => (ft.node node).type = .dir || (ft.node node).type = .emptyDir
  | none => false

/-- The intent of the root call wins over the tree. -/
def basePathIsFile (ft : FileTree) (rootCallName basePath : String) : Bool :=
  if rootCallName ∈ ["mkdir", "rmdir", "getdents64"] then false
  else if rootCallName ∈ ["creat", "truncate", "read", "write", "pread64", "pwrite64", "fsync", "fdatasync", "unlink"] then true
  else !isDirPath ft basePath

/-- A map from types and relations to `bool`; what is missing is `false`. -/
abbrev RelOK := RelTarget → PathRelation → Bool

def countNodesByType (ft : FileTree) (nodes : List NodeRef) : Nat × Nat :=
  (nodes.countP fun n => (ft.node n).type = .file, nodes.countP fun n => (ft.node n).type ≠ .file)

def countOK (counts : Nat × Nat) : RelTarget → Bool
  | .any => counts.1 + counts.2 > 0
  | .file => counts.1 > 0
  | .dir => counts.2 > 0

def RelOK.put (relOK : RelOK) (relation : PathRelation) (ok : RelTarget → Bool) : RelOK :=
  fun target rel => if rel = relation then ok target else relOK target rel

def availableRelationsForBase (fileTree : Option FileTree) (basePath : String) : RelOK :=
  let relOKByType : RelOK := fun _ rel => rel = .same || rel = .noRel
  match fileTree with
  | none => relOKByType
  | some ft =>
    match ft.findNodeLocked basePath with
    | some baseNode =>
      let hasParent := (getParent ft baseNode).isSome
      let relOKByType := relOKByType.put .parent fun target => target ≠ .file && hasParent
      let relOKByType := relOKByType.put .child (countOK (countNodesByType ft (getChildren ft baseNode)))
      relOKByType.put .sibling (countOK (countNodesByType ft (getSibling ft baseNode)))
    | none =>
      match ft.findNodeLocked (getParentDir basePath) with
      | none => relOKByType
      | some parent =>
        let relOKByType := relOKByType.put .parent fun target => target ≠ .file
        relOKByType.put .sibling (countOK (countNodesByType ft (getChildren ft parent)))

end DfsFuzz.Choice
