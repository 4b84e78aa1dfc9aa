import DfsFuzz.Lib.ByteFile
import DfsFuzz.Symsc.Emulate

/-!
What the calls on file contents are to do: files are byte sequences, a descriptor is a variable with a
file, an offset and the flags of its `open`. All files are in the root directory. `pwrite64` writes at
the offset it is given, also where the descriptor appends.
-/

namespace DfsFuzz.Symsc

open ByteFile

inductive Access where
  | rdonly | wronly | rdwr
deriving DecidableEq

namespace Access

def reads : Access → Bool
  | wronly => false
  | _ => true

def writes : Access → Bool
  | rdonly => false
  | _ => true

end Access

structure OpenFlags where
  access : Access
  creat : Bool
  trunc : Bool
  append : Bool
deriving DecidableEq

inductive Whence where
  | set | cur | fromEnd
deriving DecidableEq

structure OpenFile where
  id : Nat
  offset : Nat
  access : Access
  append : Bool

/-- The files by number, the paths that name them, and the open descriptors. -/
structure Posix where
  content : Nat → Str := fun _ => []
  names : Str → Option Nat := fun _ => none
  next : Nat := 1
  fds : Str → Option OpenFile := fun _ => none

inductive PosixCall where
  | open (var path : Str) (flags : OpenFlags)
  | write (var data : Str)
  | pwrite (var data : Str) (offset : Nat)
  | read (var : Str) (count : Nat)
  | pread (var : Str) (count offset : Nat)
  | truncate (path : Str) (length : Nat)
  | ftruncate (var : Str) (length : Nat)
  | lseek (var : Str) (offset : Int) (whence : Whence)
deriving DecidableEq

namespace Posix

def put (r : Posix) (id : Nat) (file : Str) : Posix := { r with content := Function.update r.content id file }

def seek (r : Posix) (var : Str) (f : OpenFile) (offset : Nat) : Posix :=
  { r with fds := Function.update r.fds var (some { f with offset := offset }) }

def opened (r : Posix) (var : Str) (id : Nat) (flags : OpenFlags) : Posix :=
  { r with fds := Function.update r.fds var (some ⟨id, 0, flags.access, flags.append⟩) }

def created (r : Posix) (path : Str) : Posix :=
  { r with content := Function.update r.content r.next [], names := Function.update r.names path (some r.next), next := r.next + 1 }

/-- Where a write goes: to the end of the file if the descriptor appends. -/
def writePos (r : Posix) (f : OpenFile) : Nat := if f.append then (r.content f.id).length else f.offset

def seekTarget (r : Posix) (f : OpenFile) (offset : Int) : Whence → Int
  | .set => offset
  | .cur => f.offset + offset
  | .fromEnd => (r.content f.id).length + offset

/-- The state after the call, and the bytes that it reads. -/
def step (r : Posix) : PosixCall → Posix × Option Str
  | .open var path flags =>
    match r.names path with
    | some id => ((if flags.trunc && flags.access.writes then r.put id [] else r).opened var id flags, none)
    | none =>
      if flags.creat && decide (parentPath path = ['.']) then ((r.created path).opened var r.next flags, none) else (r, none)
  | .write var data =>
    match r.fds var with
    | none => (r, none)
    | some f =>
      if f.access.writes && !data.isEmpty then
        ((r.put f.id (overwrite zeroChar (r.content f.id) (r.writePos f) data)).seek var f (r.writePos f + data.length), none)
      else (r, none)
  | .pwrite var data offset =>
    match r.fds var with
    | none => (r, none)
    | some f =>
      if f.access.writes && !data.isEmpty then (r.put f.id (overwrite zeroChar (r.content f.id) offset data), none)
      else (r, none)
  | .read var count =>
    match r.fds var with
    | none => (r, none)
    | some f =>
      if f.access.reads then
        let bytes := readAt (r.content f.id) f.offset count
        (r.seek var f (f.offset + bytes.length), some bytes)
      else (r, none)
  | .pread var count offset =>
    match r.fds var with
    | none => (r, none)
    | some f => if f.access.reads then (r, some (readAt (r.content f.id) offset count)) else (r, none)
  | .truncate path length =>
    match r.names path with
    | none => (r, none)
    | some id => (r.put id (resize zeroChar (r.content id) length), none)
  | .ftruncate var length =>
    match r.fds var with
    | none => (r, none)
    | some f => if f.access.writes then (r.put f.id (resize zeroChar (r.content f.id) length), none) else (r, none)
  | .lseek var offset whence =>
    match r.fds var with
    | none => (r, none)
    | some f => (r.seek var f (r.seekTarget f offset whence).toNat, none)

/-- The call leads to no negative offset, and to no file above the cap. -/
def Fits (r : Posix) (op : PosixCall) : Prop :=
  (∀ var offset whence, op = .lseek var offset whence → ∀ f, r.fds var = some f → 0 ≤ r.seekTarget f offset whence) ∧
  ∀ id, (((r.step op).1.content id).length : Int) ≤ maxEmulSize

end Posix

/-! ### The calls of the program -/

/-- The path that `_get_path` makes of a name, where there are no links. -/
def absolute (path : Str) : Str :=
  let s := dropStart "merge_view/".toList (dropStart "./".toList path)
  if "./".toList <+: s ∨ s = ['.'] then s else "./".toList ++ s

def fullPath (path : Str) : Str := absolute (absolute (absolute path))

/-- A buffer whose data has the length of its size. -/
def bufferAt (s : State) (token : Str) : Option Str :=
  (s.bufData.lookup (stripLong token)).bind fun data =>
    if s.bufSize.lookup (stripLong token) = some data.length then some data else none

/-- The path of a file: not empty, and not the root. -/
def pathAt (s : State) (token : Str) : Option Str :=
  (bufferAt s token).bind fun data =>
    if data = [] ∨ data = [zeroChar] ∨ fullPath data = ['.'] then none else some (fullPath data)

def natOf (token : Str) : Option Nat := (parseInt token).bind fun n => if 0 ≤ n then some n.toNat else none

/-- A descriptor, named as `open` names it. -/
def fdOf (token : Str) : Option Str := if stripLong token = token then some token else none

def OpenFlags.bits (flags : OpenFlags) : Int :=
  (match flags.access with | .rdonly => 0 | .wronly => 1 | .rdwr => 2) + (if flags.creat then 0o100 else 0) +
    (if flags.trunc then 0o1000 else 0) + (if flags.append then 0o2000 else 0)

def allFlags : List OpenFlags :=
  [Access.rdonly, .wronly, .rdwr].flatMap fun access => [false, true].flatMap fun creat => [false, true].flatMap fun trunc =>
    [false, true].map fun append => ⟨access, creat, trunc, append⟩

def flagsOf (n : Int) : Option OpenFlags := allFlags.find? fun flags => flags.bits = n

def whenceOf (n : Int) : Option Whence :=
  if n = 0 then some .set else if n = 1 then some .cur else if n = 2 then some .fromEnd else none

/-- A mode that `open` can read. -/
def modeGiven (token : Str) : Bool := token = [] || (parseInt token).isSome

def countIn (room : Nat) (token : Str) : Option Nat := (natOf token).bind fun n => if n ≤ room then some n else none

/-- What a call of the program stands for, in a state that holds the buffers. -/
def decode (s : State) (call : Syscall) : Option PosixCall :=
  match callKind call.name, call.args with
  | .open, [p, flags, mode] => do
    let path ← pathAt s p
    let flags ← (parseInt flags).bind flagsOf
    if modeGiven mode then return .open call.ret path flags else none
  | .creat, [p, mode] => do
    let path ← pathAt s p
    if modeGiven mode then return .open call.ret path ⟨.wronly, true, true, false⟩ else none
  | .write, [fd, buf, n] => do
    let var ← fdOf fd
    let data ← bufferAt s buf
    let count ← countIn data.length n
    return .write var (data.take count)
  | .pwrite64, [fd, buf, n, off] => do
    let var ← fdOf fd
    let data ← bufferAt s buf
    let count ← countIn data.length n
    let offset ← natOf off
    return .pwrite var (data.take count) offset
  | .read, [fd, buf, n] => do
    let var ← fdOf fd
    let _ ← s.bufData.lookup (stripLong buf)
    let size ← s.bufSize.lookup (stripLong buf)
    let count ← countIn size n
    return .read var count
  | .pread64, [fd, buf, n, off] => do
    let var ← fdOf fd
    let _ ← s.bufData.lookup (stripLong buf)
    let size ← s.bufSize.lookup (stripLong buf)
    let count ← countIn size n
    let offset ← natOf off
    return .pread var count offset
  | .truncate, [p, n] => do
    let path ← pathAt s p
    let length ← natOf n
    return .truncate path length
  | .ftruncate, [fd, n] => do
    let var ← fdOf fd
    let length ← natOf n
    return .ftruncate var length
  | .lseek, [fd, off, n] => do
    let var ← fdOf fd
    let offset ← parseInt off
    let whence ← (parseInt n).bind whenceOf
    return .lseek var offset whence
  | _, _ => none

end DfsFuzz.Symsc
