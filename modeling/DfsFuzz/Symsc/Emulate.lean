import DfsFuzz.Symsc.DataCalls

/-!
`emulate` (`syscalls.py`) with the fault model: a state is copied, the call runs on the copy, and what
is not part of a state (the partitioned pairs and the options of the descriptors) is carried along from
call to call.
-/

namespace DfsFuzz.Symsc

inductive FsType where
  | nfs | glusterfs | cephfs | hmdfs | other
deriving DecidableEq

/-- The calls that `emulate` tells apart; `other` stands for those that are not modelled. -/
inductive CallKind where
  | failureDown | failureUp | failureNetDown | failureNetUp
  | mkdir | rmdir | rename | truncate | ftruncate | link | symlink | unlink | fsync | sync | fdatasync | syncfs
  | open | creat | write | pwrite64 | read | pread64 | lseek | close | dup | dup2
  | other
deriving DecidableEq

def callKinds : List (Str × CallKind) :=
  [("SYS_syz_failure_down".toList, .failureDown), ("SYS_syz_failure_up".toList, .failureUp),
   ("SYS_syz_failure_net_down".toList, .failureNetDown), ("SYS_syz_failure_net_up".toList, .failureNetUp),
   ("SYS_mkdir".toList, .mkdir), ("SYS_rmdir".toList, .rmdir), ("SYS_rename".toList, .rename),
   ("SYS_truncate".toList, .truncate), ("SYS_ftruncate".toList, .ftruncate), ("SYS_link".toList, .link),
   ("SYS_symlink".toList, .symlink), ("SYS_unlink".toList, .unlink), ("SYS_fsync".toList, .fsync),
   ("SYS_sync".toList, .sync), ("SYS_fdatasync".toList, .fdatasync), ("SYS_syncfs".toList, .syncfs),
   ("SYS_open".toList, .open), ("SYS_creat".toList, .creat), ("SYS_write".toList, .write),
   ("SYS_pwrite64".toList, .pwrite64), ("SYS_read".toList, .read), ("SYS_pread64".toList, .pread64),
   ("SYS_lseek".toList, .lseek), ("SYS_close".toList, .close), ("SYS_dup".toList, .dup), ("SYS_dup2".toList, .dup2)]

def callKind (name : Str) : CallKind := ((callKinds.find? fun e => e.1 = name).map Prod.snd).getD .other

/-- `FEEDFORWARD_FAIL_SYSCALLS` -/
def feedforwardCalls : List Str :=
  ["SYS_write", "SYS_pwrite64", "SYS_creat", "SYS_mkdir", "SYS_rmdir", "SYS_unlink", "SYS_rename", "SYS_link",
   "SYS_symlink", "SYS_truncate", "SYS_ftruncate", "SYS_chmod", "SYS_fchmod", "SYS_utimes", "SYS_fsync",
   "SYS_fdatasync", "SYS_sync", "SYS_syncfs", "SYS_fallocate", "SYS_setxattr", "SYS_lsetxattr", "SYS_fsetxattr",
   "SYS_removexattr", "SYS_lremovexattr", "SYS_fremovexattr"].map String.toList

structure Recorded where
  procId : Nat
  retv : Int := 0

abbrev NetState := List (Nat × Int)

/-- What `emulate` is run with: the programs, the record, the file system and what it leaves open.
`placement` is the fault model of the file systems whose placement is computed by programs of their
own; it gives what it leaves in `cnt_recursion`. `others` are the calls that are not modelled: they set no
options, and read those of their first argument if any. -/
structure Setup where
  env : PyEnv
  fstype : FsType
  initIp : Str
  calls : List Syscall
  recorded : List Recorded
  placement : State → NetState → Nat → Syscall → Option (Bool × Nat)
  others : Syscall → Option OpenOpts → State → Option (Ret × State)

structure Globals where
  netState : NetState := []
  optDict : Go.Map Str OpenOpts := ∅

def rootInode : Inode := { name := [['.']], type := .dir, mode := 0o755, size := 6 }

/-- `init_state` without an initial tree, for a program text that was read. -/
def initState (read : Parsed) (nodes : Nat) : State where
  bufData := read.bufData
  bufSize := read.bufSize
  fdStack := read.fdStack.mapValues fun _ => .undefined
  dentry := Py.Dict.empty.set ['.'] 0
  disk := Py.Dict.empty.set 0 rootInode
  ft := Py.Dict.empty.set rootTup [{ parent := none }]
  nodeUp := List.replicate nodes true

def ipToInt (ip : Str) : Option Nat :=
  match (Py.split ['.'] ip).map fun p => if p ≠ [] ∧ p.all Char.isDigit then some (Nat.ofDigitChars 10 p 0) else none with
  | [some a, some b, some c, some d] => some (a * 2 ^ 24 + b * 2 ^ 16 + c * 2 ^ 8 + d)
  | _ => none

/-- `ip_difference`, without a value for -1. -/
def ipDifference (ip1 ip2 : Str) : Option Nat :=
  match ipToInt ip1, ipToInt ip2 with
  | some a, some b => if b < a then none else some (b - a)
  | _, _ => none

/-- The word after the first `-s` or `-d`. -/
def addressIn : List Str → Option Str
  | tok :: next :: rest => if tok = "-s".toList ∨ tok = "-d".toList then some next else addressIn (next :: rest)
  | _ => none

/-- The pairs that `syz_failure_net_down` adds. -/
def cutPairs (initIp command : Str) (node : Nat) : NetState :=
  (Py.split [';'] command).filterMap fun cmd =>
    if cmd = [] then none
    else (addressIn (Py.split [' '] cmd)).bind fun ip => (ipDifference initIp ip).map fun n => (node, (n : Int))

/-- `is_available` -/
def available (cfg : Setup) (s : State) (net : NetState) (node : Nat) (call : Syscall) : Option (Bool × Nat) :=
  match cfg.fstype with
  | .nfs =>
    s.nodeUp.head?.map fun up => (up && !net.contains (0, (node : Int)), s.cntRecur)
  | .glusterfs | .cephfs => cfg.placement s net node call
  | .hmdfs | .other => some (true, s.cntRecur)

/-- `feedforward_fail` -/
def feedforwardFail (cfg : Setup) (net : NetState) (idx : Nat) : Bool :=
  cfg.fstype = .hmdfs && !net.isEmpty && ((cfg.recorded[idx]?).map fun r => decide (r.retv < 0)).getD false

/-! ### The dispatcher -/

def otherCall (cfg : Setup) (call : Syscall) : M Ret := fun w =>
  (cfg.others call (call.args.head?.bind w.optDict.lookup) w.st).map fun r => (r.1, { w with st := r.2 })

def runCall (cfg : Setup) (call : Syscall) : M Ret :=
  match callKind call.name with
  | .mkdir => mkdir cfg.env call.args
  | .rmdir => rmdir cfg.env call.args
  | .rename => rename cfg.env call.args
  | .truncate => truncate cfg.env call.args
  | .ftruncate => ftruncate call.args
  | .link => link cfg.env call.args
  | .symlink => symlink cfg.env call.args
  | .unlink => unlink cfg.env call.args
  | .fsync => fsync cfg.env call.args
  | .sync => sync cfg.env
  | .fdatasync => fdatasync call.args
  | .syncfs => syncfs cfg.env call.args
  | .open => openCall cfg.env call.args call.ret
  | .creat => creat cfg.env call.args call.ret
  | .write => write call.args
  | .pwrite64 => pwrite64 call.args
  | .read => read call.args
  | .pread64 => pread64 call.args
  | .lseek => lseek call.args
  | .close => close call.args
  | .dup => dup call.args call.ret none
  | .dup2 => dup2 call.args call.ret
  | _ => otherCall cfg call

/-- A call that injects a fault: it runs whatever the nodes' states are. -/
def runFailure (cfg : Setup) (g : Globals) (s : State) (node : Nat) (call : Syscall) : CallKind → Option (State × Globals)
  | .failureDown => if node < s.nodeUp.length then some ({ s with nodeUp := s.nodeUp.set node false }, g) else none
  | .failureUp => if node < s.nodeUp.length then some ({ s with nodeUp := s.nodeUp.set node true }, g) else none
  | .failureNetDown => do
    let token ← call.args.head?
    let command ← s.bufData.lookup (stripLong token)
    return (s, { g with netState := g.netState ++ cutPairs cfg.initIp command node })
  | .failureNetUp => some (s, { g with netState := [] })
  | _ => none

def isFailure (k : CallKind) : Bool := [.failureDown, .failureUp, .failureNetDown, .failureNetUp].contains k

/-- Whether the call is refused, by the fault model or by the record of a failure in a partition; and
what is left in `cnt_recursion`. -/
def refused (cfg : Setup) (g : Globals) (s : State) (node idx : Nat) (call : Syscall) : Option (Bool × Nat) :=
  (available cfg s g.netState node call).map fun a =>
    (!a.1 || (feedforwardCalls.contains call.name && feedforwardFail cfg g.netState idx), a.2)

/-- `emulate`, without a value where it raises. -/
def emulate (cfg : Setup) (g : Globals) (s : State) (idx : Nat) : Option (Ret × State × Globals) := do
  let recorded ← cfg.recorded[idx]?
  let call ← cfg.calls[idx]?
  if isFailure (callKind call.name) then
    if cfg.fstype = .other then none
    else do
      let (s', g') ← runFailure cfg g s recorded.procId call (callKind call.name)
      return (.none, s', g')
  else do
    let (no, cnt) ← refused cfg g s recorded.procId idx call
    if no then return (.int (-1), s, g)
    else do
      let (ret, ctx) ← runCall cfg call { st := { s with cntRecur := cnt }, optDict := g.optDict }
      return (ret, ctx.st, { g with optDict := ctx.optDict })

/-- The states that a run of calls that do not raise comes to. -/
inductive Reachable (cfg : Setup) (read : Parsed) (nodes : Nat) : State → Globals → Prop
  | init : Reachable cfg read nodes (initState read nodes) {}
  | step {s s' : State} {g g' : Globals} {idx : Nat} {ret : Ret} (before : Reachable cfg read nodes s g)
      (call : emulate cfg g s idx = some (ret, s', g')) : Reachable cfg read nodes s' g'

def runCalls (cfg : Setup) : List Nat → State × Globals → Option (State × Globals)
  | [], now => some now
  | idx :: rest, now => (emulate cfg now.2 now.1 idx).bind fun r => runCalls cfg rest r.2

theorem reachable_runCalls {cfg : Setup} {read : Parsed} {nodes : Nat} {idxs : List Nat} {now later : State × Globals}
    (reached : Reachable cfg read nodes now.1 now.2) (run : runCalls cfg idxs now = some later) :
    Reachable cfg read nodes later.1 later.2 := by
  induction idxs generalizing now with
  | nil =>
    cases run
    exact reached
  | cons idx rest ih =>
    obtain ⟨r, first, run⟩ := Option.bind_eq_some_iff.mp run
    exact ih (reached.step first) run

/-- A program whose buffers hold paths, as it is read. -/
def pathProgram (buffers : List (String × String)) (calls : List Syscall) : Parsed where
  bufData := buffers.foldl (fun m b => m.insert b.1.toList b.2.toList) ∅
  bufSize := buffers.foldl (fun m b => m.insert b.1.toList b.2.length) ∅
  syscallStack := calls

def callOf (name : String) (args : List String) (ret : String) : Syscall := ⟨name.toList, args.map String.toList, ret.toList⟩

/-- All calls from one node. A key that is set again after the last one was taken out ends the loop over
the keys. -/
def plainSetup (read : Parsed) : Setup where
  env := ⟨Go.RangeOrder.stored, fun _ _ => some []⟩
  fstype := .nfs
  initIp := "192.168.0.1".toList
  calls := read.syscallStack
  recorded := read.syscallStack.map fun _ => { procId := 0 }
  placement := fun _ _ _ _ => some (true, 0)
  others := fun _ _ s => some (.int 0, s)

end DfsFuzz.Symsc
