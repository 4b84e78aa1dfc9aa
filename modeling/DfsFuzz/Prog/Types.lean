import DfsFuzz.Lib.GoMap
import DfsFuzz.Lib.GoStrings

/-!
Programs, calls and arguments (`prog/prog.go`), the metadata the executor reports, and the path
helpers of `prog/mutation.go` and `prog/distributed_choice.go` that read call arguments.
-/

namespace DfsFuzz

/-- The identity of a `ResultArg` object: two references are the same pointer iff equal. -/
abbrev ResultId := Nat

inductive Arg where
  | const (val : UInt64)
  | pointer (address : UInt64) (res : Option Arg)
  | data (bytes : List UInt8)
  /-- a buffer that the call fills: only its size is known -/
  | outData (size : UInt64)
  | group (inner : List Arg)
  | union (option : Arg)
  | result (id : ResultId) (res : Option ResultId) (val : UInt64)

/-- The fields of `syscall.Stat_t` that the fuzzer reads. -/
structure Stat where
  mode : UInt32 := 0
  size : Int64 := 0
  ino : UInt64 := 0
  nlink : UInt64 := 0
  /-- `Mtim.Sec` -/
  mtimSec : Int64 := 0
deriving DecidableEq

structure FileMetadata where
  stime : UInt64 := 0
  etime : UInt64 := 0
  statMd : Stat := {}
  xattr : Go.Map String String := ∅
  checksum : UInt32 := 0
deriving DecidableEq

abbrev FsMd := Go.Map String FileMetadata

structure Call where
  name : String
  args : List Arg := []
  ret : Option ResultId := none
  isFCall : Bool := false
  checkInfo : Option FileMetadata := none

structure Prog where
  calls : List Call := []
  hasCrashFail : Bool := false
  hasNetFail : Bool := false
  syncIdx : UInt64 := 0
  /-- pairs of a sync code and the position of its call -/
  srvFailPos : List (Nat × Nat) := []
  /-- sync codes by position; the nil slice is `[]` -/
  srvFailOrder : List Nat := []

structure HmdfsTraceEvent where
  timestamp : UInt64
  funcID : UInt32
  ret : Int32
  ino : UInt64
  progIdx : Int
  off : UInt64 := 0
deriving DecidableEq

structure FeedbackConfig where
  persistenceDir : String := ""

def extractPathFromCallByArgIdx (call : Call) (argIdx : Nat) : String :=
  match call.args[argIdx]? with
  | some (.pointer _ (some (.data bytes))) => Go.trimSuffix (Go.ofBytes bytes) "\x00"
  | _ => ""

def extractPathFromCall (call : Call) : String := extractPathFromCallByArgIdx call 0

def extractRenamePaths (call : Call) : String × String :=
  if call.args.length < 2 then ("", "")
  else (extractPathFromCallByArgIdx call 0, extractPathFromCallByArgIdx call 1)

/-- The path argument of the open/creat call whose result is the call's first argument. -/
def resolveFdToPath (p : Prog) (fdCall : Call) : String :=
  match fdCall.args.head? with
  | some (.result _ (some fdRes) _) =>
    let producer := p.calls.find? fun call =>
      (Go.contains call.name "open" || Go.contains call.name "creat") && call.ret == some fdRes
    (producer.map extractPathFromCall).getD ""
  | _ => ""

def mergeViewPrefix : String := "merge_view/"

def getParentDir (path : String) : String := Go.dir path

def normalizeMergeViewPath (path : String) : String :=
  let path := Go.trimPrefix path "./"
  if !Go.hasPrefix path mergeViewPrefix then mergeViewPrefix ++ Go.trimPrefix path "/" else path

end DfsFuzz
