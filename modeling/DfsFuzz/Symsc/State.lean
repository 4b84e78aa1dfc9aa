import DfsFuzz.Lib.PyDict
import DfsFuzz.Symsc.Parse

/-!
The state of the emulator (`common.py`): inodes in memory and on disk, the entries by path, the
descriptors, and the file tree that the paths are looked up in. An inode is held by its number, so
an object that Python shares between two tables is the one entry that both name.
-/

namespace DfsFuzz.Symsc

abbrev Str := List Char

abbrev Tup := Nat × Str

instance : LawfulBEq Str := List.instLawfulBEq

instance : LawfulBEq Tup := Prod.instLawfulBEq

inductive FileType where
  | file | dir | symlink
deriving DecidableEq

/-- The flags that `_parse_open_flags` finds, as far as a call reads them. -/
structure OpenOpts where
  nofollow : Bool
  directory : Bool
  append : Bool
  trunc : Bool
  excl : Bool
  creat : Bool
  accmode : Bool
  rdwr : Bool
  wronly : Bool
  rdonly : Bool
deriving DecidableEq

structure DataBlock where
  data : Str
  hole : Str
  synced : Bool

structure Inode where
  name : List Str
  uName : List (Str × Str) := []
  type : FileType
  mode : Nat
  size : Int
  linkcnt : Int := 1
  refs : Int := 0
  xattr : Go.Map Str Str := ∅
  pChildren : List Tup := []
  children : List Tup := []
  dChildren : List Tup := []
  removed : Bool := false
  offset : Go.Map Str Int := ∅
  datablock : Option DataBlock := none
  numblk : Int := 0
  target : Str := []
  isInit : Bool := false
  dirUnknown : Nat := 0

/-- A node of the file tree; its tuple is the key it is found under. -/
structure Node where
  parent : Option Tup
  children : List Tup := []
  oldChildren : List Tup := []
deriving DecidableEq

abbrev FileTree := Py.Dict Tup (List Node)

/-- What `FD_STACK` holds for a variable: nothing yet, an inode, or -1 after the last close. -/
inductive Fd where
  | undefined | opened (id : Nat) | closed
deriving DecidableEq

/-- `noneEntry` says that `DENTRY` has the key `None`, which `_update_dentry` may leave there. -/
structure State where
  bufData : Go.Map Str Str := ∅
  bufSize : Go.Map Str Nat := ∅
  fdStack : Go.Map Str Fd := ∅
  dentry : Py.Dict Str Nat
  noneEntry : Bool := false
  mem : Py.Dict Nat Inode := Py.Dict.empty
  disk : Py.Dict Nat Inode
  inodeCnt : Nat := 1
  cntRecur : Nat := 0
  ft : FileTree
  nodeUp : List Bool := []

/-- What a call works on: the state, and the options of the open descriptors, which `Inode` keeps
in a dictionary of the class. -/
structure Ctx where
  st : State
  optDict : Go.Map Str OpenOpts := ∅

abbrev M := StateT Ctx Option

/-- What a call returns: `None` or a number. -/
inductive Ret where
  | none
  | int (n : Int)
deriving DecidableEq

def Ret.isError (r : Ret) : Bool := r = .int 1 || r = .int (-1)

def raise {α : Type} : M α := fun _ => none

def orRaise {α : Type} (o : Option α) : M α := fun w => o.map fun a => (a, w)

def getState : M State := fun w => some (w.st, w)

def modifyState (f : State → State) : M Unit := fun w => some ((), { w with st := f w.st })

def setOpts (var : Str) (opts : OpenOpts) : M Unit :=
  fun w => some ((), { w with optDict := w.optDict.insert var opts })

/-- `inode.opt_dict[var]` -/
def getOpts (var : Str) : M OpenOpts := fun w => (w.optDict.lookup var).map fun o => (o, w)

theorem getOpts_eq {var : Str} {w w' : Ctx} {opts : OpenOpts} (got : getOpts var w = some (opts, w')) : w = w' := by
  obtain ⟨o, -, same⟩ := Option.map_eq_some_iff.mp got
  cases same
  rfl

/-- `argv[i]` -/
def argAt (argv : List Str) (i : Nat) : M Str := orRaise argv[i]?

/-- `int(argv[i])` -/
def intAt (argv : List Str) (i : Nat) : M Int := orRaise (argv[i]?.bind parseInt)

/-- `string.replace("(long)", "")` -/
def stripLong (s : Str) : Str := (Py.split "(long)".toList s).flatten

namespace State

/-- The inode, in memory if it is there, else on disk. -/
def inode? (s : State) (id : Nat) : Option Inode := (s.mem.get? id).or (s.disk.get? id)

/-- A change to the inode object where it is. -/
def putInode (s : State) (id : Nat) (i : Inode) : State :=
  if s.mem.has id then { s with mem := s.mem.set id i } else { s with disk := s.disk.set id i }

/-- `c.MEM[id] = inode`, and the inode is taken from the disk. -/
def toMem (s : State) (id : Nat) (i : Inode) : State := { s with mem := s.mem.set id i, disk := s.disk.erase id }

/-- An inode on disk is copied to memory, over what is there. -/
def fromDisk (s : State) (id : Nat) : State :=
  match s.disk.get? id with
  | none => s
  | some i => s.toMem id i

/-- `_unsync_inode_by_id` -/
def unsync (s : State) (id : Nat) : State :=
  if s.mem.has id then s else s.fromDisk id

end State

namespace M

variable {α β : Type}

theorem bind_eq (x : M α) (f : α → M β) (w : Ctx) : (x >>= f) w = (x w).bind fun p => f p.1 p.2 := rfl

theorem bind_run {x : M α} {f : α → M β} {w w₁ : Ctx} {a : α} (run : x w = some (a, w₁)) : (x >>= f) w = f a w₁ := by
  rw [bind_eq, run, Option.bind_some]

@[simp] theorem pure_apply (a : α) (w : Ctx) : (pure a : M α) w = some (a, w) := rfl

end M

@[simp] theorem raise_apply {α : Type} (w : Ctx) : (raise : M α) w = none := rfl

@[simp] theorem orRaise_some {α : Type} (a : α) (w : Ctx) : orRaise (some a) w = some (a, w) := rfl

theorem orRaise_run {α : Type} {o : Option α} {a : α} {w : Ctx} (given : o = some a) : orRaise o w = some (a, w) := by
  rw [given, orRaise_some]

theorem argAt_run {argv : List Str} {i : Nat} {token : Str} {w : Ctx} (given : argv[i]? = some token) :
    argAt argv i w = some (token, w) := orRaise_run given

theorem intAt_run {argv : List Str} {i : Nat} {token : Str} {k : Int} {w : Ctx} (given : argv[i]? = some token)
    (number : parseInt token = some k) : intAt argv i w = some (k, w) := by
  rw [intAt, given]
  exact orRaise_run number

@[simp] theorem getState_apply (w : Ctx) : getState w = some (w.st, w) := rfl

@[simp] theorem modifyState_apply (f : State → State) (w : Ctx) :
    modifyState f w = some ((), { w with st := f w.st }) := rfl

end DfsFuzz.Symsc
