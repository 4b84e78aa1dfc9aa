import DfsFuzz.Symsc.FileTree

/-!
The calls on names (`syscalls.py`): `open`, `creat`, `mkdir`, `rmdir`, `link`, `unlink`, `symlink`,
`rename`. Every one first runs `_update_dentry`.
-/

namespace DfsFuzz.Symsc

def zeroChar : Char := Char.ofNat 0

def blocksOf (size : Int) : Int := (size / 4096 + if size % 4096 = 0 then 0 else 1) * 4096 / 512

/-- `c.Inode(..)` for a regular file. -/
def newFile (name : Str) (mode : Nat) : Inode :=
  { name := [name], type := .file, mode := mode, size := 0, numblk := blocksOf 0
    datablock := some ⟨[], List.replicate 65536 zeroChar, false⟩ }

def newDir (name : Str) (mode : Nat) : Inode :=
  { name := [name], type := .dir, mode := mode, size := 4096, linkcnt := 2 }

def newSymlink (name target : Str) : Inode :=
  { name := [name], type := .symlink, mode := 0o777, size := target.length, target := target }

/-- `mode & c.MODEMASK & ~c.UMASK` -/
def maskMode (mode : Int) : Nat := (mode % 512).toNat &&& 0o755

def octalDigit (flags place : Nat) : Nat := flags / 8 ^ place % 8

/-- The last digit as a string of at least two bits: a digit above 3 has three, of which the first two
are read. -/
def accessBits (digit : Nat) : Bool × Bool :=
  if digit < 4 then (2 ≤ digit, digit % 2 = 1) else (true, 6 ≤ digit)

/-- `_parse_open_flags`: `none` for an exception, `some none` for flags that are refused. -/
def parseOpenFlags (flags : Int) : Option (Option OpenOpts) :=
  -- `O_PATH`
  if flags / 0o10000000 % 2 = 1 then some none
  else if flags < 0 then none
  else
    let n := flags.toNat
    let bit (place value : Nat) : Bool := octalDigit n place / value % 2 = 1
    let access := accessBits (octalDigit n 0)
    let accmode := octalDigit n 0 = 3
    some (some {
      nofollow := bit 5 4, directory := bit 5 2, append := bit 3 2, trunc := bit 3 1, excl := bit 2 2
      creat := bit 2 1, accmode := accmode
      rdwr := !accmode && access.1, wronly := !accmode && access.2
      rdonly := !accmode && !access.1 && !access.2 })

/-- `_add_child_to_parent_dentry` -/
def addChildToParent (tup : Tup) (parent : Nat) : M Unit := do
  let i ← getInode parent
  modifyState fun s => s.toMem parent { i with children := i.children ++ [tup] }

/-- `_remove_child_from_parent_dentry` -/
def removeChildFromParent (tup : Tup) (parent : Nat) : M Unit := do
  let i ← getInode parent
  if tup ∈ i.children then
    modifyState fun s => s.toMem parent { i with children := i.children.erase tup, dChildren := i.dChildren ++ [tup] }
  else if tup ∈ i.pChildren then
    modifyState fun s => s.toMem parent { i with pChildren := i.pChildren.erase tup, dChildren := i.dChildren ++ [tup] }
  else raise

/-- `c.FT.add_node` -/
def addTreeNode (tup parent : Tup) : M Unit := do
  let s ← getState
  let ft ← orRaise (s.ft.addNode tup parent)
  modifyState fun s => { s with ft := ft }

/-- `c.FT.remove_node` -/
def removeTreeNode (tup parent : Tup) : M Unit := do
  let s ← getState
  let ft ← orRaise (s.ft.removeNode tup parent)
  modifyState fun s => { s with ft := ft }

/-- A new inode in memory, under the next number. -/
def createInode (id : Nat) (i : Inode) : M Unit :=
  modifyState fun s => { s with mem := s.mem.set id i, inodeCnt := s.inodeCnt + 1 }

def setDentry (path : Str) (id : Nat) : M Unit := modifyState fun s => { s with dentry := s.dentry.set path id }

/-- `remove_name` of the inode, which raises without the name. -/
def removeName (i : Inode) (name : Str) : Option Inode :=
  if name ∈ i.name then some { i with name := i.name.erase name, uName := i.uName ++ [(name, [])] } else none

/-- The inode that a path's parent stands for: behind a symbolic link, the inode it leads to. -/
def parentInode (path : Str) (id : Nat) : M (Option Nat) := do
  let s ← getState
  match s.inode? id with
  | none => return none
  | some i =>
    if i.type = .symlink then
      let found ← followSymlink path i
      return found.map Prod.snd
    else return some id

/-- The end of `open`: the descriptor refers to the inode. -/
def bindFd (var : Str) (id : Nat) : M Unit := do
  let i ← getInode id
  modifyState fun s =>
    { s.putInode id { i with offset := i.offset.insert var 0, refs := i.refs + 1 } with
      fdStack := s.fdStack.insert var (.opened id) }

/-- The branch of `open` for a new path. -/
def openNew (argv : List Str) (var path : Str) (opts : OpenOpts) (tupParent : Tup) (parent : Nat) : M Ret := do
  if !opts.creat then return .int 1
  if opts.directory then return .int 1
  let given ← argAt argv 2
  let mode ← if given = [] then pure 0o644 else maskMode <$> intAt argv 2
  let s ← getState
  let id := s.inodeCnt
  createInode id (newFile (lastName path) mode)
  setDentry path id
  addTreeNode (id, lastName path) tupParent
  setOpts var opts
  addChildToParent (id, lastName path) parent
  bindFd var id
  return .none

/-- The branch of `open` for an inode that is there. -/
def openOld (var : Str) (opts : OpenOpts) (id : Nat) : M Ret := do
  modifyState fun s => s.fromDisk id
  let i ← getInode id
  if opts.trunc && (opts.rdwr || opts.wronly) && i.type = .file then
    modifyState fun s => s.putInode id { i with size := 0 }
  setOpts var opts
  bindFd var id
  return .none

def openCall (env : PyEnv) (argv : List Str) (var : Str) : M Ret := do
  updateDentry env
  let token ← argAt argv 0
  let some path ← getPath token | return .int 1
  let s ← getState
  let some idParent := s.dentry.get? (parentPath path) | return .int 1
  let flags ← intAt argv 1
  let some opts ← orRaise (parseOpenFlags flags) | return .int 1
  let some parent ← parentInode (parentPath path) idParent | return .int 1
  let parentNode ← getInode parent
  if parentNode.type ≠ .dir then return .int 1
  let create := openNew argv var path opts (idParent, lastName (parentPath path)) parent
  match (s.dentry.get? path).bind fun id => (s.inode? id).map fun i => (id, i) with
  | none => create
  | some (id, i) =>
    if opts.creat && opts.excl then return .int 1
    if opts.directory && i.type ≠ .dir then return .int 1
    if i.type = .dir && (opts.wronly || opts.rdwr) then return .int 1
    if opts.nofollow && i.type = .symlink then return .int 1
    if i.type = .symlink then
      -- a `KeyError` from here is taken for a new path
      match s.resolveSymlink s.room path i with
      | .missing => do resetRecur; return .int 1
      | .keyError => create
      | .found _ target => do
        resetRecur
        openOld var opts target
    else openOld var opts id

def creat (env : PyEnv) (argv : List Str) (var : Str) : M Ret := do
  if argv.length < 2 then return .int 1
  let path ← argAt argv 0
  let mode ← argAt argv 1
  -- `O_CREAT | O_WRONLY | O_TRUNC`
  openCall env [path, "577".toList, mode] var

def mkdir (env : PyEnv) (argv : List Str) : M Ret := do
  if argv.length < 1 then return .int 1
  updateDentry env
  let token ← argAt argv 0
  let some path ← getPath token | return .int 1
  let mode ← if argv.length = 1 then pure 0o755 else intAt argv 1
  let s ← getState
  let id := (s.dentry.get? path).getD s.inodeCnt
  let some idParent := s.dentry.get? (parentPath path) | return .int 1
  let some i := s.inode? idParent | return .int 1
  let (tupParent, parent) ←
    if i.type = .symlink then do
      let some (next, parent) ← followSymlink (parentPath path) i | return .int 1
      pure ((parent, lastName next), parent)
    else pure ((idParent, lastName (parentPath path)), idParent)
  let parentNode ← getInode parent
  if parentNode.type ≠ .dir then return .int 1
  if (s.inode? id).isNone then
    addTreeNode (id, lastName path) tupParent
    createInode id (newDir (lastName path) (maskMode mode))
    setDentry path id
    addChildToParent (id, lastName path) parent
  return .none

/-- The effects of `rmdir`: an inode on disk is copied to memory, and the name is taken from the
object that was on disk. -/
def removeDir (path : Str) (id : Nat) (tupParent : Tup) (parent : Nat) : M Unit := do
  let s ← getState
  let i ← getInode id
  let renamed ← orRaise (removeName i (lastName path))
  if s.mem.has id then modifyState fun s => s.putInode id { renamed with removed := true }
  else modifyState fun s => s.toMem id { i with removed := true }
  removeChildFromParent (id, lastName path) parent
  if i.refs = 0 then removeTreeNode (id, lastName path) tupParent
  modifyState fun s => { s with dentry := s.dentry.erase path }

def rmdir (env : PyEnv) (argv : List Str) : M Ret := do
  if argv.length < 1 then return .int 1
  updateDentry env
  let token ← argAt argv 0
  let some path ← getPath token | return .int 1
  let s ← getState
  let some id := s.dentry.get? path | return .int 1
  let i ← getInode id
  if i.type ≠ .dir then return .int 1
  let nodes ← orRaise (s.ft.get? (id, lastName path))
  let node ← orRaise nodes.head?
  if node.children ≠ [] ∨ 0 < i.dirUnknown then return .int 1
  let some idParent := s.dentry.get? (parentPath path) | return .int 1
  let some parent ← parentInode (parentPath path) idParent | return .int 1
  removeDir path id (idParent, lastName (parentPath path)) parent
  return .none

/-- The last component of a path below the resolved path of its parent. -/
def belowResolved (parent name : Str) : M Str := orRaise (abspath (normpath (osJoin parent name)))

/-- `add_hardlink` -/
def addHardlink (i : Inode) (name : Str) : Inode := { i with linkcnt := i.linkcnt + 1, name := i.name ++ [name] }

/-- The effects of `link`. -/
def addLink (path : Str) (id : Nat) (tupParent : Tup) (parent : Nat) : M Ret := do
  addTreeNode (id, lastName path) tupParent
  addChildToParent (id, lastName path) parent
  let s ← getState
  match s.inode? id with
  | none => return .int 1
  | some j => do
    let linked := addHardlink j (lastName path)
    modifyState fun s => if s.mem.has id then s.putInode id linked else s.toMem id linked
    setDentry path id
    return .none

def link (env : PyEnv) (argv : List Str) : M Ret := do
  if argv.length < 2 then return .int 1
  updateDentry env
  let token ← argAt argv 0
  let some existing := (← getRawPath token).bind abspath | return .int 1
  let token ← argAt argv 1
  let some pathNew := (← getRawPath token).bind abspath | return .int 1
  let existingParent ← resolvePath (parentPath existing)
  let pathExisting ← belowResolved existingParent (lastName existing)
  let s ← getState
  if (s.dentry.get? existingParent).isNone then return .int 1
  if pathExisting = ['.'] then return .int 1
  let some id := s.dentry.get? pathExisting | return .int 1
  let i ← orRaise ((s.disk.get? id).or (s.mem.get? id))
  if i.type = .dir then return .int 1
  if s.dentry.has pathNew then return .int 1
  let some idParent := s.dentry.get? (parentPath pathNew) | return .int 1
  let some parent ← parentInode (parentPath pathNew) idParent | return .int 1
  let parentNode ← getInode parent
  if parentNode.type ≠ .dir then return .int 1
  addLink pathNew id (idParent, lastName (parentPath pathNew)) parent

/-- The effects of `unlink`. -/
def removeFile (path : Str) (name : Str) (id : Nat) (tupParent : Tup) (parent : Nat) : M Unit := do
  modifyState fun s => s.unsync id
  let i ← getInode id
  let renamed ← orRaise (removeName i name)
  modifyState fun s => s.putInode id { renamed with linkcnt := renamed.linkcnt - 1 }
  if i.refs = 0 then removeTreeNode (id, name) tupParent
  removeChildFromParent (id, name) parent
  modifyState fun s => { s with dentry := s.dentry.erase path }

def unlink (env : PyEnv) (argv : List Str) : M Ret := do
  if argv.length < 1 then return .int 1
  updateDentry env
  let token ← argAt argv 0
  let some raw := (← getRawPath token).bind abspath | return .int 1
  let pathParent ← resolvePath (parentPath raw)
  let path ← belowResolved pathParent (lastName raw)
  let s ← getState
  let some idParent := s.dentry.get? pathParent | return .int 1
  let some id := s.dentry.get? path | return .int 1
  let some parent ← parentInode pathParent idParent | return .int 1
  let i ← orRaise ((s.disk.get? id).or (s.mem.get? id))
  if i.type = .dir then return .int 1
  removeFile path (lastName raw) id (idParent, lastName pathParent) parent
  return .none

def symlink (env : PyEnv) (argv : List Str) : M Ret := do
  if argv.length < 2 then return .int 1
  updateDentry env
  let token ← argAt argv 0
  let some path1 ← getRawPath token | return .int 1
  let token ← argAt argv 1
  let some path2 := (← getRawPath token).bind abspath | return .int 1
  let s ← getState
  let some idParent := s.dentry.get? (parentPath path2) | return .int 1
  -- the name of the parent is passed where its path is expected
  let some parent ← parentInode (lastName (parentPath path2)) idParent | return .int 1
  if s.dentry.has path2 then return .int 1
  let parentNode ← getInode parent
  if parentNode.type ≠ .dir then return .int 1
  let target ← orRaise (abspath path1)
  let id := s.inodeCnt
  createInode id (newSymlink (lastName path2) target)
  setDentry path2 id
  addChildToParent (id, lastName path2) parent
  addTreeNode (id, lastName path2) (idParent, lastName (parentPath path2))
  return .none

/-- The directory that a path of `rename` is in, after the links: its path and its number. -/
def renameParent (path : Str) (id : Nat) : M (Option (Str × Nat)) := do
  let s ← getState
  match s.inode? id with
  | none => return none
  | some i =>
    if i.type = .symlink then followSymlink path i
    else return some (path, id)

/-- `c.FT.modify_node`: `children` is a property without a setter, so the assignment raises. -/
def modifyNode : M Unit := raise

def rename (env : PyEnv) (argv : List Str) : M Ret := do
  if argv.length < 2 then return .int 1
  updateDentry env
  let token ← argAt argv 0
  let some rawOld := (← getRawPath token).bind abspath | return .int 1
  let token ← argAt argv 1
  let some rawNew := (← getRawPath token).bind abspath | return .int 1
  let parentOld ← resolvePath (parentPath rawOld)
  let pathOld ← belowResolved parentOld (lastName rawOld)
  let parentNew ← resolvePath (parentPath rawNew)
  let pathNew ← belowResolved parentNew (lastName rawNew)
  if pathOld = pathNew then return .int 1
  if pathOld = ['.'] then return .int 1
  let s ← getState
  let some idOld := s.dentry.get? pathOld | return .int 1
  let some idParentOld := s.dentry.get? parentOld | return .int 1
  let some idParentNew := s.dentry.get? parentNew | return .int 1
  let some _ ← renameParent parentOld idParentOld | return .int 1
  let some (dirNew, idDirNew) ← renameParent parentNew idParentNew | return .int 1
  let dir ← getInode idDirNew
  if dir.type ≠ .dir then return .int 1
  let found ← searchTree (idDirNew, lastName dirNew) rootTup
  let above ← orRaise found
  if (idOld, lastName rawOld) ∈ above then return .int 1
  let old ← getInode idOld
  if let some idNew := s.dentry.get? pathNew then
    let new ← getInode idNew
    let s ← getState
    let nodes ← orRaise (s.ft.get? (idNew, lastName rawNew))
    let inner := if nodes.length = 1 then nodes.flatMap Node.children else []
    if inner ≠ [] ∨ 0 < new.dirUnknown then return .int 1
    if (old.type = .dir ∧ new.type ≠ .dir) ∨ (old.type ≠ .dir ∧ new.type = .dir) then return .int 1
    if idOld = idNew then return .int 1
  -- from here on the names are changed, and the tree refuses
  modifyNode
  return .none

end DfsFuzz.Symsc
