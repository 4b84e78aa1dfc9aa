import DfsFuzz.Symsc.State

/-!
Path names in the emulator: `os.path`, `_abspath`, and the symbolic links that `_res_path` and
`_resolve_symlink_path` follow. `cnt_recursion` bounds both, so the recursion is on what is left of
`MAX_SYMLINK`; both leave the counter at 0.
-/

namespace DfsFuzz.Symsc

def splitPath (path : Str) : List Str := Py.split ['/'] path

def joinPath (parts : List Str) : Str := ['/'].intercalate parts

/-- One component of `os.path.normpath`, on the kept components in reverse. -/
def normComp (slashes : Nat) (kept : List Str) (comp : Str) : List Str :=
  if comp = [] ∨ comp = ['.'] then kept
  else if comp ≠ "..".toList then comp :: kept
  else
    match kept with
    | [] => if slashes = 0 then [comp] else []
    | top :: rest => if top = "..".toList then comp :: kept else rest

/-- `os.path.normpath` -/
def normpath (path : Str) : Str :=
  if path = [] then ['.']
  else
    let slashes := if ['/', '/', '/'] <+: path then 1 else if ['/', '/'] <+: path then 2 else if ['/'] <+: path then 1 else 0
    let body := joinPath ((splitPath path).foldl (normComp slashes) []).reverse
    let whole := List.replicate slashes '/' ++ body
    if whole = [] then ['.'] else whole

/-- `os.path.join` -/
def osJoin (a b : Str) : Str :=
  if ['/'] <+: b then b else if a = [] ∨ ['/'] <:+ a then a ++ b else a ++ '/' :: b

def dropStart (start s : Str) : Str := if start <+: s then s.drop start.length else s

/-- `_abspath`, without a value for the empty path. -/
def abspath (path : Str) : Option Str :=
  if path = [] then none
  else
    let s := dropStart "merge_view/".toList (dropStart "./".toList path)
    some (if "./".toList <+: s ∨ s = ['.'] then s else "./".toList ++ s)

/-- `_get_parent_path` -/
def parentPath (path : Str) : Str := if path = ['.'] then ['.'] else joinPath (splitPath path).dropLast

/-- `_get_name` -/
def lastName (path : Str) : Str := (splitPath path).getLast?.getD []

def isName (x : Str) : Bool := x ≠ [] && '/' ∉ x

def maxSymlink : Nat := 40

namespace State

/-- The target of the symbolic link at a path, if there is one. -/
def linkAt (s : State) (path : Str) : Option Str :=
  (s.dentry.get? path).bind fun id => (s.inode? id).bind fun i => if i.type = .symlink then some i.target else none

/-- The components from the left, a link replaced by its target, and whether one was. -/
def followLinks (s : State) : List Str → List Str → List Str × Bool
  | done, [] => (done, false)
  | done, comp :: rest =>
    match s.linkAt (joinPath (done ++ [comp])) with
    | some target => ((followLinks s (done ++ [target]) rest).1, true)
    | none => followLinks s (done ++ [comp]) rest

/-- `_res_path` with `room` links left to follow, without a value where it raises. -/
def resPath (s : State) : Nat → Str → Option Str
  | room, path =>
    (abspath path).bind fun absolute =>
      let followed := s.followLinks [] (splitPath absolute)
      if followed.2 then
        let next := normpath (joinPath followed.1)
        match room with
        | 0 => abspath next
        | room + 1 => resPath s room next
      else abspath absolute

inductive Resolved where
  | missing
  | found (path : Str) (id : Nat)
  | keyError

/-- `_resolve_symlink_path` -/
def resolveSymlink (s : State) : Nat → Str → Inode → Resolved
  | room, path, i =>
    match abspath (normpath (osJoin (parentPath path) i.target)) with
    | none => .missing
    | some next =>
      match s.dentry.get? next with
      | none => .missing
      | some id =>
        match s.inode? id with
        | none => .keyError
        | some j =>
          if j.type = .symlink then
            match room with
            | 0 => .missing
            | room + 1 => resolveSymlink s room next j
          else .found next id

def room (s : State) : Nat := maxSymlink - s.cntRecur

end State

def resetRecur : M Unit := modifyState fun s => { s with cntRecur := 0 }

/-- `_get_raw_path` -/
def getRawPath (token : Str) : M (Option Str) := do
  let s ← getState
  let var := stripLong token
  match s.bufData.lookup var, s.bufSize.lookup var with
  | some path, some size => return if size = 0 then none else some path
  | _, _ => return none

/-- `_res_path` -/
def resolvePath (path : Str) : M Str := do
  let s ← getState
  let resolved ← orRaise (s.resPath s.room path)
  resetRecur
  return resolved

/-- `_get_path` -/
def getPath (token : Str) : M (Option Str) := do
  let s ← getState
  let var := stripLong token
  match s.bufData.lookup var, s.bufSize.lookup var with
  | some path, some size =>
    if size = 0 ∨ (size = 1 ∧ path = [Char.ofNat 0]) then return none
    else
      let resolved ← resolvePath path
      return abspath resolved
  | _, _ => return none

/-- The inode behind a symbolic link, outside of a `try`; `none` where it is not found. -/
def followSymlink (path : Str) (i : Inode) : M (Option (Str × Nat)) := do
  let s ← getState
  match s.resolveSymlink s.room path i with
  | .missing => do resetRecur; return none
  | .found next id => do resetRecur; return some (next, id)
  | .keyError => raise

/-- `_get_inode_of_fd`: the number of the inode, `none` for -1. -/
def getInodeOfFd (token : Str) : M (Option Nat) := do
  let s ← getState
  match s.fdStack.lookup (stripLong token) with
  | none => return none
  | some .undefined => return none
  -- -1 has no attribute `id`
  | some .closed => raise
  | some (.opened id) => if (s.inode? id).isSome then return some id else raise

/-- The object `c.MEM[id]`, or `c.DISK[id]` if it is not there. -/
def getInode (id : Nat) : M Inode := do
  let s ← getState
  orRaise (s.inode? id)

theorem getInodeOfFd_opened {w : Ctx} {fd : Str} {id : Nat} {i : Inode} (opened : w.st.fdStack.lookup (stripLong fd) = some (.opened id))
    (found : w.st.inode? id = some i) : getInodeOfFd fd w = some (some id, w) := by
  rw [getInodeOfFd, M.bind_run (getState_apply w), opened]
  dsimp only
  rw [found]
  rfl

theorem getInode_found {w : Ctx} {id : Nat} {i : Inode} (found : w.st.inode? id = some i) : getInode id w = some (i, w) := by
  rw [getInode, M.bind_run (getState_apply w), found, orRaise_some]

end DfsFuzz.Symsc
