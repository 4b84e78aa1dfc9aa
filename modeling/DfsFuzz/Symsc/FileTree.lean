import DfsFuzz.Symsc.PathNames

/-!
The file tree (`FileTree` in `common.py`). A search for a path reverses the children of every node it
opens, in place. `_update_dentry` looks every path up again and changes the dictionary it runs over
where a path has moved: what the run does then is left to Python, which may raise or go on with some
of the keys.
-/

namespace DfsFuzz.Symsc

def rootTup : Tup := (0, ['.'])

/-- What Python leaves open: the order of `list(set(..))`, and how a loop over the keys of a
dictionary goes on once they have changed, from the keys that are left and the new dictionary. -/
structure PyEnv where
  order : Go.RangeOrder
  resume : List (Option Str) → Py.Dict Str Nat → Option (List (Option Str))

namespace FileTree

def addChild (tup : Tup) : List Node → List Node
  | [] => []
  | n :: rest => { n with children := n.children ++ [tup] } :: rest

/-- `add_node` -/
def addNode (ft : FileTree) (tup parent : Tup) : Option FileTree :=
  let ft' := ft.set tup ((ft.get? tup).getD [] ++ [{ parent := some parent }])
  (ft'.get? parent).map fun nodes => ft'.set parent (addChild tup nodes)

/-- `remove_child` of the first node of a list. -/
def removeChild (tup : Tup) : List Node → Option (List Node)
  | [] => none
  | n :: rest =>
    if tup ∈ n.children then
      some ({ n with children := n.children.erase tup, oldChildren := n.oldChildren ++ [tup] } :: rest)
    else none

/-- The nodes below `parent` are removed while the list is run over, so the one after each is passed by. -/
def dropNodes (parent : Tup) : List Node → List Node
  | [] => []
  | n :: rest =>
    if n.parent = some parent then
      match rest with
      | [] => []
      | m :: rest' => m :: dropNodes parent rest'
    else n :: dropNodes parent rest

/-- `remove_node` -/
def removeNode (ft : FileTree) (tup parent : Tup) : Option FileTree := do
  let above ← ft.get? parent
  let above' ← removeChild tup above
  let ft' := ft.set parent above'
  let nodes ← ft'.get? tup
  return ft'.set tup (dropNodes parent nodes)

/-- The position of the node that a search opens: the one below the tuple before it on the path, else the first. -/
def openAt (nodes : List Node) (before : Option Tup) : Option Nat :=
  match nodes with
  | [] => none
  | [_] => some 0
  | _ =>
    -- `path_tup_list[-2]` raises for the root
    before.map fun b => (nodes.findIdx? fun n => n.parent = some b).getD 0

def reverseAt (nodes : List Node) (i : Nat) : List Node :=
  nodes.modify i fun n => { n with children := n.children.reverse }

/-- How far a search can get: every child put in the queue once, and those of the goal each time it is met. -/
def searchFuel (ft : FileTree) : Nat :=
  let edges := ((ft.entries.map fun e => (e.2.map fun n => n.children.length).sum)).sum
  (edges + 1) * (edges + 2)

/-- The loop of `get_path`: the queue has the next vertex at its head, each with the path to it. -/
def searchLoop (goal goaldir : Tup) : Nat → List (Tup × List Tup) → List Tup → FileTree → Option (Option (List Tup) × FileTree)
  | _, [], _, ft => some (none, ft)
  | 0, _ :: _, _, _ => none
  | fuel + 1, (vertex, path) :: queue, visited, ft =>
    if vertex ∈ visited then searchLoop goal goaldir fuel queue visited ft
    else if vertex = goal ∧ (goaldir = rootTup ∨ goaldir ∈ visited) then some (some path, ft)
    else do
      let visited' := if vertex = goal then visited else vertex :: visited
      let nodes ← ft.get? vertex
      let i ← openAt nodes path.dropLast.getLast?
      let nodes' := reverseAt nodes i
      let opened ← nodes'[i]?
      searchLoop goal goaldir fuel (queue ++ opened.children.map fun child => (child, path ++ [child])) visited'
        (ft.set vertex nodes')

/-- `get_path` from the root: the tuples on the path, and the tree with the opened children reversed. -/
def search (ft : FileTree) (goal goaldir : Tup) : Option (Option (List Tup) × FileTree) :=
  searchLoop goal goaldir ft.searchFuel [(rootTup, [rootTup])] [] ft

def pathString (path : List Tup) : Str := path.foldl (fun s t => osJoin s t.2) []

end FileTree

/-- `get_path`, on the tree of the state. -/
def searchTree (goal goaldir : Tup) : M (Option (List Tup)) := do
  let s ← getState
  let (found, ft) ← orRaise (s.ft.search goal goaldir)
  modifyState fun s => { s with ft := ft }
  return found

/-- The keys of `DENTRY`. -/
def State.dentryKeys (s : State) : List (Option Str) :=
  s.dentry.keys.map some ++ if s.noneEntry then [none] else []

/-- One path of `_update_dentry`: whether the entry was moved. `get_path` gives `None` for a tuple that it
does not find, and `None` is a key then. -/
def updateEntry (path : Str) : M Bool := do
  let s ← getState
  let id ← orRaise (s.dentry.get? path)
  let idParent ← orRaise (s.dentry.get? (parentPath path))
  let found ← searchTree (id, lastName path) (idParent, lastName (parentPath path))
  match found with
  | none => do
    modifyState fun s => { s with dentry := s.dentry.erase path, noneEntry := true }
    return true
  | some tups =>
    if path = FileTree.pathString tups then return false
    else do
      modifyState fun s => { s with dentry := (s.dentry.erase path).set (FileTree.pathString tups) id }
      return true

/-- The loop of `_update_dentry` over the keys that are left. `None` has no name, and a loop that outlives
the number of keys it started with raises. -/
def updateLoop (env : PyEnv) : Nat → List (Option Str) → M Unit
  | _, [] => pure ()
  | 0, _ :: _ => raise
  | _ + 1, none :: _ => raise
  | fuel + 1, some path :: rest => do
    let moved ← updateEntry path
    if moved then
      let s ← getState
      let rest' ← orRaise (env.resume rest s.dentry)
      updateLoop env fuel rest'
    else updateLoop env fuel rest

/-- `_update_dentry` -/
def updateDentry (env : PyEnv) : M Unit := do
  let s ← getState
  updateLoop env s.dentryKeys.length s.dentryKeys

end DfsFuzz.Symsc
