import DfsFuzz.Lib.Walk
import DfsFuzz.Prog.Types

/-!
The file tree of the merged view and its indexes by client (`prog/distributed_choice.go`).
Node pointers are references into a heap of nodes that only grows; what `Children` maps to is
such a reference.
-/

namespace DfsFuzz.Tree

inductive FileNodeType where
  | file | dir | emptyDir | tmpDir
deriving DecidableEq, Repr

abbrev NodeRef := Nat

structure FileNode where
  name : String := ""
  fullPath : String := ""
  type : FileNodeType := .file
  ownerCid : String := ""
  size : UInt64 := 0
  pathLength : Nat := 0
  children : Go.Map String NodeRef := ∅
  parent : Option NodeRef := none

/-- One of `NodesByCid`, `FilesByCid`, `DirsByCid`: a missing cid has the empty list. -/
abbrev CidLists := String → List NodeRef

structure FileTree where
  node : NodeRef → FileNode
  /-- the first reference not yet allocated -/
  next : Nat
  nodesByCid : CidLists
  filesByCid : CidLists
  dirsByCid : CidLists

def root : NodeRef := 0

def newFileTree : FileTree where
  node := Function.update (fun _ => {}) root { name := "merge_view", fullPath := "merge_view", type := .dir }
  next := 1
  nodesByCid _ := []
  filesByCid _ := []
  dirsByCid _ := []

namespace FileTree

def edge (ft : FileTree) (r : NodeRef) (x : String) : Option NodeRef := (ft.node r).children.lookup x

def nodeAt (ft : FileTree) (q : List String) : Option NodeRef := Walk.walk ft.edge root q

def modify (ft : FileTree) (r : NodeRef) (f : FileNode → FileNode) : FileTree :=
  { ft with node := Function.update ft.node r (f (ft.node r)) }

end FileTree

def CidLists.append (lists : CidLists) (cid : String) (n : NodeRef) : CidLists :=
  Function.update lists cid (lists cid ++ [n])

def CidLists.appendNew (lists : CidLists) (cid : String) (n : NodeRef) : CidLists :=
  if n ∈ lists cid then lists else lists.append cid n

def CidLists.sweep (lists : CidLists) (n : NodeRef) : CidLists := fun cid => (lists cid).erase n

def CidLists.drop (lists : CidLists) (cid : String) (n : NodeRef) : CidLists :=
  Function.update lists cid ((lists cid).erase n)

namespace FileTree

def removeNodeFromCidLists (ft : FileTree) (n : NodeRef) : FileTree :=
  let ft := { ft with nodesByCid := ft.nodesByCid.sweep n }
  if (ft.node n).type = .file then { ft with filesByCid := ft.filesByCid.sweep n }
  else { ft with dirsByCid := ft.dirsByCid.sweep n }

def removeNodeFromTypeList (ft : FileTree) (n : NodeRef) : FileTree :=
  let cid := (ft.node n).ownerCid
  if (ft.node n).type = .file then { ft with filesByCid := ft.filesByCid.drop cid n }
  else { ft with dirsByCid := ft.dirsByCid.drop cid n }

def cleanPath (path : String) : String := Go.trimPrefix path mergeViewPrefix

def follow (ft : FileTree) : NodeRef → List String → Option NodeRef
  | current, [] => some current
  | current, part :: rest =>
    if part = "" then ft.follow current rest
    else
      match ft.edge current part with
      | some child => ft.follow child rest
      | none => none

def findNodeLocked (ft : FileTree) (path : String) : Option NodeRef :=
  if cleanPath path = "" then some root else ft.follow root (Go.split (cleanPath path) '/')

def findNode (ft : FileTree) (path : String) : Option NodeRef := ft.findNodeLocked path

def newChild (ft : FileTree) (parent : NodeRef) (part : String) (type : FileNodeType) (ownerCid : String) : FileTree :=
  let fresh : FileNode :=
    { name := part, fullPath := (ft.node parent).fullPath ++ "/" ++ part, parent := some parent, type, ownerCid }
  let ft' := { ft with node := Function.update ft.node ft.next fresh, next := ft.next + 1 }
  ft'.modify parent fun n => { n with children := n.children.insert part ft.next }

def addLoop (ft : FileTree) (nodeType : FileNodeType) (ownerCid : String) : NodeRef → List String → FileTree × NodeRef
  | current, [] => (ft, current)
  | current, part :: rest =>
    if part = "" then ft.addLoop nodeType ownerCid current rest
    else
      let isLast : Bool := rest = []
      match ft.edge current part with
      | some child =>
        let ft := if isLast then ft.modify child fun n => { n with type := nodeType, ownerCid } else ft
        ft.addLoop nodeType ownerCid child rest
      | none =>
        let ft' := if isLast then ft.newChild current part nodeType ownerCid else ft.newChild current part .tmpDir ""
        ft'.addLoop nodeType ownerCid ft.next rest

def register (ft : FileTree) (current : NodeRef) (nodeType : FileNodeType) (ownerCid : String) : FileTree :=
  let ft := { ft with nodesByCid := ft.nodesByCid.appendNew ownerCid current }
  let ft := ft.modify current fun n => { n with pathLength := n.fullPath.length }
  if nodeType = .file then { ft with filesByCid := ft.filesByCid.appendNew ownerCid current }
  else { ft with dirsByCid := ft.dirsByCid.appendNew ownerCid current }

def addNodeLocked (ft : FileTree) (path : String) (nodeType : FileNodeType) (ownerCid : String) :
    FileTree × Option NodeRef :=
  if cleanPath path = "" then (ft, none)
  else
    let added := ft.addLoop nodeType ownerCid root (Go.split (cleanPath path) '/')
    (added.1.register added.2 nodeType ownerCid, some added.2)

def addNode (ft : FileTree) (path : String) (nodeType : FileNodeType) (ownerCid : String) : FileTree :=
  (ft.addNodeLocked path nodeType ownerCid).1

def updateNodeSize (ft : FileTree) (path : String) (size : UInt64) : FileTree :=
  match ft.findNodeLocked path with
  | some n => if (ft.node n).type = .file then ft.modify n fun nd => { nd with size } else ft
  | none => ft

def detach (ft : FileTree) (n : NodeRef) : FileTree :=
  match (ft.node n).parent with
  | none => ft
  | some p => ft.modify p fun nd => { nd with children := nd.children.erase (ft.node n).name }

def removeNodeLocked (ft : FileTree) (path : String) : FileTree × Bool :=
  if cleanPath path = "" then (ft, false)
  else
    match ft.follow root (Go.split (cleanPath path) '/') with
    | none => (ft, false)
    | some current => ((ft.detach current).removeNodeFromCidLists current, true)

def removeNode (ft : FileTree) (path : String) : FileTree := (ft.removeNodeLocked path).1

/-- Recompute the paths below a node. The depth of the tree is below the number of nodes, which
is the fuel its caller gives. -/
def updateChildPaths : Nat → FileTree → NodeRef → FileTree
  | 0, ft, _ => ft
  | fuel + 1, ft, r =>
    (ft.node r).children.items.foldl (fun ft e =>
      let child := e.2
      let fullPath := (ft.node r).fullPath ++ "/" ++ (ft.node child).name
      updateChildPaths fuel (ft.modify child fun n => { n with fullPath, pathLength := fullPath.length }) child) ft

def attach (ft : FileTree) (current newParent : NodeRef) (newName : String) : FileTree :=
  let fullPath := (ft.node newParent).fullPath ++ "/" ++ newName
  let ft := ft.modify current fun n =>
    { n with name := newName, fullPath, pathLength := fullPath.length, parent := some newParent }
  ft.modify newParent fun n => { n with children := n.children.insert newName current }

/-- The node is detached before the new parent is looked up, and stays so when there is none. -/
def renameNode (ft : FileTree) (oldPath newPath : String) : FileTree × Bool :=
  if cleanPath oldPath = "" ∨ cleanPath newPath = "" then (ft, false)
  else
    match ft.follow root (Go.split (cleanPath oldPath) '/') with
    | none => (ft, false)
    | some current =>
      let ft := ft.detach current
      let newParts := Go.split (cleanPath newPath) '/'
      match ft.follow root newParts.dropLast with
      | none => (ft, false)
      | some newParent =>
        let ft := ft.attach current newParent (newParts.getLastD "")
        (updateChildPaths ft.next ft current, true)

end FileTree

/-- The part of `Hmdfs_config` that the tree is built from and written back to. -/
structure HmdfsConfig where
  initFile : Go.Map String (List String) := ∅
  initDir : Go.Map String (List String) := ∅
  initTmpdir : Go.Map String (List String) := ∅
  initEmptyDir : Go.Map String (List String) := ∅
  fileInPersistenceDir : Go.Map String (List String) := ∅
  /-- sizes by cid and path; the nil map is the empty one -/
  fileSize : Go.Map String (Go.Map String UInt64) := ∅
  fileTree : Option FileTree := none

namespace FileTree

def initFileEntry (fileSize : Go.Map String (Go.Map String UInt64)) (cid : String) (ft : FileTree) (f : String) : FileTree :=
  let added := ft.addNodeLocked f .file cid
  match added.2, (fileSize.lookup cid).bind fun sizes => sizes.lookup f with
  | some n, some sz => added.1.modify n fun nd => { nd with size := sz }
  | _, _ => added.1

def initDirEntry (nodeType : FileNodeType) (cid : String) (ft : FileTree) (d : String) : FileTree := ft.addNode d nodeType cid

def initEach (entry : String → FileTree → String → FileTree) (m : Go.Map String (List String)) (ft : FileTree) : FileTree :=
  m.items.foldl (fun ft e => e.2.foldl (entry e.1) ft) ft

def initFromHmdfsConfig (ft : FileTree) (hmcfg : HmdfsConfig) : FileTree :=
  let ft := initEach (initFileEntry hmcfg.fileSize) hmcfg.initFile ft
  let ft := initEach (initDirEntry .dir) hmcfg.initDir ft
  let ft := initEach (initDirEntry .tmpDir) hmcfg.initTmpdir ft
  let ft := initEach (initDirEntry .emptyDir) hmcfg.initEmptyDir ft
  initEach (initFileEntry hmcfg.fileSize) hmcfg.fileInPersistenceDir ft

end FileTree

end DfsFuzz.Tree
