import DfsFuzz.Symsc.NameCalls

/-!
The calls on open files (`syscalls.py`): reading and writing, the offsets, the lengths, closing and
duplicating, and what reaches the disk.
-/

namespace DfsFuzz.Symsc

/-- The position that an index of a slice stands for. -/
def sliceIndex (n : Int) (length : Nat) : Nat := if n < 0 then (n + length).toNat else min n.toNat length

/-- `s[a:]` -/
def sliceFrom (s : Str) (a : Int) : Str := s.drop (sliceIndex a s.length)

/-- `s[a:b]` -/
def slice (s : Str) (a b : Int) : Str := (s.take (sliceIndex b s.length)).drop (sliceIndex a s.length)

/-- `"\x00" * n` -/
def zeros (n : Int) : Str := List.replicate n.toNat zeroChar

/-- The character that fills the hole map where there is data. -/
def filled (n : Int) : Str := List.replicate n.toNat (Char.ofNat 255)

def maxEmulSize : Int := 67108864

/-- `_check_emul_size` -/
def checkEmulSize (size : Int) : M Unit := if maxEmulSize < size then raise else pure ()

/-! ### Reading and writing -/

def getBlock (i : Inode) : M DataBlock := orRaise i.datablock

/-- The part of `read` and `pread64` after the checks: what is placed in the buffer, for the bytes from `offset`. -/
def placeRead (i : Inode) (buf : Str) (bufSize nbyte offset : Int) : M Int := do
  let block ← getBlock i
  let count := min (min nbyte (i.size - offset)) bufSize
  modifyState fun s => { s with bufData := s.bufData.insert buf (slice block.data offset (offset + count)) }
  return count

def read (argv : List Str) : M Ret := do
  if argv.length < 3 then return .int 1
  let fd ← argAt argv 0
  let var := stripLong fd
  let some id ← getInodeOfFd fd | return .int (-1)
  let i ← getInode id
  let opts ← getOpts var
  if opts.accmode then return .int (-1)
  if opts.wronly then return .int (-1)
  if i.type ≠ .file then return .int (-1)
  let buf := stripLong (← argAt argv 1)
  let s ← getState
  let some bufSize := s.bufSize.lookup buf | return .int (-1)
  if (s.bufData.lookup buf).isNone then return .int (-1)
  let offset ← orRaise (i.offset.lookup var)
  let nbyte ← intAt argv 2
  if i.size ≤ offset then return .int 0
  let count ← placeRead i buf bufSize nbyte offset
  modifyState fun s => s.putInode id { i with offset := i.offset.insert var (offset + count) }
  return .int count

def pread64 (argv : List Str) : M Ret := do
  if argv.length < 4 then return .int (-1)
  let fd ← argAt argv 0
  let some id ← getInodeOfFd fd | return .int (-1)
  let i ← getInode id
  let opts ← getOpts fd
  if opts.accmode then return .int (-1)
  if opts.wronly then return .int (-1)
  if i.type ≠ .file then return .int (-1)
  let buf := stripLong (← argAt argv 1)
  let s ← getState
  let some bufSize := s.bufSize.lookup buf | return .int (-1)
  if (s.bufData.lookup buf).isNone then return .int (-1)
  let offset ← intAt argv 3
  let nbyte ← intAt argv 2
  if i.size < offset then return .int 0
  let count ← placeRead i buf bufSize nbyte offset
  return .int count

/-- The block after a write of `nbyte` bytes of the buffer at an offset. -/
def writeBlock (b : DataBlock) (bufData : Str) (bufSize nbyte offset : Int) : DataBlock :=
  let garbage := zeros (nbyte - bufSize)
  let tail :=
    if (b.data.length : Int) < offset then zeros (offset - b.data.length) ++ (sliceTo bufData nbyte ++ garbage)
    else sliceTo bufData nbyte ++ garbage ++ sliceFrom b.data (offset + nbyte)
  { data := sliceTo b.data offset ++ tail
    hole := sliceTo b.hole offset ++ filled nbyte ++ sliceFrom b.hole (offset + nbyte)
    synced := false }

/-- The checks that `write` and `pwrite64` share: the inode, the options, and the buffer with its size. -/
def writeTarget (argv : List Str) : M (Option (Nat × Inode × OpenOpts × Nat × Str)) := do
  let fd ← argAt argv 0
  let some id ← getInodeOfFd fd | return none
  let i ← getInode id
  if i.type ≠ .file then return none
  let opts ← getOpts (stripLong fd)
  if opts.accmode then return none
  if opts.rdonly then return none
  let buf := stripLong (← argAt argv 1)
  let s ← getState
  let some bufSize := s.bufSize.lookup buf | return none
  return some (id, i, opts, bufSize, (s.bufData.lookup buf).getD [])

/-- The inode after `write`, but for the offset. -/
def Inode.written (i : Inode) (block : DataBlock) : Inode :=
  let size := max i.size block.data.length
  { i with datablock := some block, size := size, numblk := size / 512 + if size / 512 * 512 < size then 1 else 0 }

/-- The part of `write` from the offset on. -/
def writeFrom (argv : List Str) (var : Str) (id : Nat) (i : Inode) (bufSize : Nat) (bufData : Str) (offset : Int) : M Ret := do
  let nbyte ← intAt argv 2
  if nbyte = 0 then return .int 0
  checkEmulSize (offset + nbyte)
  let block ← getBlock i
  let old ← orRaise (i.offset.lookup var)
  modifyState fun s => (s.putInode id
    { i.written (writeBlock block bufData bufSize nbyte offset) with offset := i.offset.insert var (old + nbyte) }).unsync id
  return .none

def write (argv : List Str) : M Ret := do
  if argv.length < 3 then return .int 1
  let some (id, i, opts, bufSize, bufData) ← writeTarget argv | return .int 1
  let var := stripLong (← argAt argv 0)
  let offset ← if opts.append then pure i.size else orRaise (i.offset.lookup var)
  writeFrom argv var id i bufSize bufData offset

def pwrite64 (argv : List Str) : M Ret := do
  if argv.length < 4 then return .int 1
  let some (id, i, _, bufSize, bufData) ← writeTarget argv | return .int 1
  let offset ← intAt argv 3
  let nbyte ← intAt argv 2
  if nbyte = 0 then return .int 0
  checkEmulSize (offset + nbyte)
  let block ← getBlock i
  let block' := writeBlock block bufData bufSize nbyte offset
  modifyState fun s => (s.putInode id { i with datablock := some block', size := max i.size block'.data.length }).unsync id
  return .none

def lseek (argv : List Str) : M Ret := do
  if argv.length < 3 then return .int 1
  let fd ← argAt argv 0
  let var := stripLong fd
  let some id ← getInodeOfFd fd | return .int 1
  let i ← getInode id
  let old ← orRaise (i.offset.lookup var)
  let offset ← intAt argv 1
  let whence ← intAt argv 2
  if 4 < whence then return .int 1
  let seek (n : Int) : M Ret := do
    modifyState fun s => s.putInode id { i with offset := i.offset.insert var n }
    return .none
  if whence = 0 then seek offset
  else if whence = 1 then seek (old + offset)
  else if whence = 2 then seek (i.size + offset)
  else if whence = 3 then
    if i.size ≤ offset then return .int 1
    let block ← getBlock i
    -- outside of the data the handler names an exception that does not exist
    if -(block.data.length : Int) ≤ offset ∧ offset < block.data.length then seek offset else raise
  else if whence = 4 then
    if i.size ≤ offset then return .int 1
    let block ← getBlock i
    let ahead := sliceFrom block.hole offset
    if zeroChar ∈ ahead then seek (offset + ahead.findIdx (· = zeroChar)) else seek i.size
  else return .none

def truncateBlock (b : DataBlock) (old length : Int) : DataBlock :=
  if length ≤ b.data.length then
    { data := sliceTo b.data length
      hole := sliceTo b.hole length ++ zeros (old - length) ++ sliceFrom b.hole old
      synced := false }
  else
    { data := b.data ++ zeros (length - b.data.length)
      hole := sliceTo b.hole old ++ zeros (length - old) ++ sliceFrom b.hole length
      synced := false }

/-- The effects of `truncate` and `ftruncate`. -/
def setLength (id : Nat) (length : Int) : M Unit := do
  checkEmulSize length
  modifyState fun s => s.unsync id
  let i ← getInode id
  let block ← getBlock i
  modifyState fun s => s.putInode id { i with size := length, datablock := some (truncateBlock block i.size length) }

def truncate (env : PyEnv) (argv : List Str) : M Ret := do
  if argv.length < 2 then return .int 1
  updateDentry env
  let token ← argAt argv 0
  let some path ← getPath token | return .int 1
  let length ← intAt argv 1
  let s ← getState
  let some id := s.dentry.get? path | return .int 1
  let i ← getInode id
  let id ←
    if i.type = .symlink then do
      let some (_, target) ← followSymlink path i | return .int 1
      pure target
    else pure id
  let i ← getInode id
  if i.type ≠ .file then return .int 1
  setLength id length
  return .none

def ftruncate (argv : List Str) : M Ret := do
  if argv.length < 2 then return .int 1
  let fd ← argAt argv 0
  let some id ← getInodeOfFd fd | return .int 1
  let i ← getInode id
  if i.type ≠ .file then return .int 1
  let opts ← getOpts fd
  if opts.accmode then return .int 1
  if opts.rdonly then return .int 1
  let length ← intAt argv 1
  setLength id length
  return .none

def close (argv : List Str) : M Ret := do
  if argv.length < 1 then return .int (-1)
  let fd ← argAt argv 0
  let some id ← getInodeOfFd fd | return .int (-1)
  let i ← getInode id
  modifyState fun s => s.putInode id { i with refs := i.refs - 1 }
  if i.refs - 1 = 0 then modifyState fun s => { s with fdStack := s.fdStack.insert (stripLong fd) .closed }
  return .int 0

/-- A descriptor is made to refer to the inode of another, at offset 0. -/
def aliasFd (var fd : Str) (id : Nat) : M Unit := do
  let i ← getInode id
  let opts ← getOpts fd
  modifyState fun s => { s.putInode id { i with offset := i.offset.insert var 0 } with
    fdStack := s.fdStack.insert var (.opened id) }
  setOpts var opts

def dup (argv : List Str) (var : Str) (retDup2 : Option Str) : M Ret := do
  if argv.length < 1 then return .int 1
  let fd ← argAt argv 0
  let some id ← getInodeOfFd fd | return .int (-1)
  aliasFd var fd id
  match retDup2 with
  | none => pure ()
  | some ret => aliasFd ret fd id
  let i ← getInode id
  modifyState fun s => s.putInode id { i with refs := i.refs + 1 }
  return .none

def dup2 (argv : List Str) (var : Str) : M Ret := do
  if argv.length < 2 then return .int (-1)
  let fd1 ← argAt argv 0
  let fd2 ← argAt argv 1
  let some _ ← getInodeOfFd fd1 | return .int (-1)
  if fd1 = fd2 then return .none
  modifyState fun s =>
    if (s.fdStack.lookup (stripLong fd2)).isSome then { s with fdStack := s.fdStack.insert (stripLong fd2) .closed }
    else s
  let _ ← dup argv fd2 (some var)
  return .none

/-- The entries that match are removed from a list that is run over, so the one after each is passed by. -/
def removeSeen (p : Str × Str → Bool) : Nat → Nat → List (Str × Str) → List (Str × Str)
  | 0, _, l => l
  | fuel + 1, i, l =>
    match l[i]? with
    | none => l
    | some h => removeSeen p fuel (i + 1) (if p h then l.erase h else l)

/-- The history of an inode loses the entries that match; the inode on disk comes first. -/
def dropHistory (p : Str × Str → Bool) (s : State) (id : Nat) : Option State :=
  match s.disk.get? id with
  | some i => some { s with disk := s.disk.set id { i with uName := removeSeen p i.uName.length 0 i.uName } }
  | none =>
    (s.mem.get? id).map fun i =>
      { s with mem := s.mem.set id { i with uName := removeSeen p i.uName.length 0 i.uName } }

/-- `persist_children` of a directory on disk. -/
def persistChildren (env : PyEnv) (s : State) (id : Nat) : Option State := do
  let i ← s.disk.get? id
  let s ← i.children.foldlM (fun s c => dropHistory (fun h => h.2 = c.2) s c.1) s
  let s ← i.dChildren.foldlM (fun s c => dropHistory (fun h => h.1 = c.2) s c.1) s
  let i ← s.disk.get? id
  let persisted := { i with pChildren := env.order.arrange (i.pChildren ++ i.children).dedup, children := [], dChildren := [] }
  return { s with disk := s.disk.set id persisted }

def syncedInode (i : Inode) : Inode :=
  if i.type = .file then { i with datablock := i.datablock.map fun b => { b with synced := true } } else i

/-- An inode in memory is written to the disk. -/
def State.toDisk (s : State) (id : Nat) : State :=
  match s.mem.get? id with
  | none => s
  | some i => { s with disk := s.disk.set id (syncedInode i), mem := s.mem.erase id }

def persistIfDir (env : PyEnv) (s : State) (id : Nat) : Option State :=
  match s.disk.get? id with
  | none => some s
  | some i => if i.type = .dir then persistChildren env s id else some s

def syncAll (env : PyEnv) (s : State) : Option State :=
  let s' := s.mem.keys.foldl State.toDisk s
  s'.disk.keys.foldlM (persistIfDir env) s'

def sync (env : PyEnv) : M Ret := do
  let s ← getState
  let s' ← orRaise (syncAll env s)
  modifyState fun _ => s'
  return .none

def syncfs (env : PyEnv) (argv : List Str) : M Ret := do
  if argv.length < 1 then return .int 1
  let fd ← argAt argv 0
  let some _ ← getInodeOfFd fd | return .int 1
  let _ ← sync env
  return .none

def fsync (env : PyEnv) (argv : List Str) : M Ret := do
  if argv.length < 1 then return .int 1
  let fd ← argAt argv 0
  let some id ← getInodeOfFd fd | return .int 1
  let s ← getState
  let s' ← orRaise (persistIfDir env (s.toDisk id) id)
  modifyState fun _ => s'
  return .none

def fdatasync (argv : List Str) : M Ret := do
  if argv.length < 1 then return .int 1
  let fd ← argAt argv 0
  let some id ← getInodeOfFd fd | return .int 1
  let i ← getInode id
  modifyState fun s => s.putInode id (syncedInode i)
  return .none

end DfsFuzz.Symsc
