import DfsFuzz.Output.Metadata
import DfsFuzz.Output.Recovery
import DfsFuzz.Output.Trace

/-!
The output stream of a client: replies, trace and metadata as the executor writes them one behind the
other, and `parseClientOutput`, which reads them back.
-/

namespace DfsFuzz.Output

open Bytes ByteReader

/-- What a client writes while a program runs: the reply to a call or its extra coverage. -/
inductive Item where
  | call (th : Thread) (sys : Option SysCall) (finished : Bool)
  | extra (extraCov : Option Cover)

def Item.write (c : Config) (crc32 : List UInt8 → UInt32) : Item → Region → Option Region
  | call th sys finished => writeCallOutput c (th.withInfo crc32 sys) finished
  | extra extraCov => writeExtraOutput c extraCov

/-- `execute_one` in the child and `reply_execute` in the parent, which takes the position up where the
child left it. -/
def clientOutput (c : Config) (crc32 : List UInt8 → UInt32) (testdirIno : UInt64) (items : List Item) (t : Collected)
    (m : MetadataMode) (files : List FileRecord) (r : Region) : Option Region := do
  let r ← { r with pos := 0, posValue := 0, completed := 0 }.writeOutput 0
  let r ← r.writeOutput64 testdirIno
  let r ← items.foldlM (fun r item => item.write c crc32 r) r
  let r ← stopCollectHmdfsTrace t { r with pos := 4 * r.posValue }
  writeMetadata m c.isDfsClient files r

/-! ### The fuzzer -/

structure CallInfo where
  flags : UInt32 := 0
  signal : List UInt32 := []
  cover : List UInt32 := []
  comps : List (UInt64 × UInt64) := []
  errno : Nat := 0

structure ProgInfo where
  calls : List CallInfo
  extra : CallInfo

/-- The numbers of the calls of a program that fits the input region. -/
structure ClientProg where
  nums : List Nat
  fits : 8 * (3 * nums.length + 1) ≤ kMaxInput

structure FuzzerConfig where
  servNum : Nat
  enableCsan : Bool

def extraReplyIndex : UInt32 := 0xFFFFFFFF

/-- `info.Calls`, `extraParts` and the `CheckInfo` of the calls of the program while replies are read. -/
structure Received where
  calls : List CallInfo
  extraParts : List CallInfo
  checks : List (Option FileMetadata)

/-- The checks on the index and the number of a client's reply. -/
def checkReply (nums : List Nat) (i : Nat) (reply : CallReply) (st : Received) : Except String Unit :=
  match st.calls[reply.index.toNat]? with
  | none => throw ("bad call " ++ toString i ++ " index " ++ toString reply.index ++ "/" ++ toString st.calls.length)
  | some inf =>
    let num := nums.getD reply.index.toNat 0
    if reply.num.toNat ≠ num then
      throw ("wrong call " ++ toString i ++ " num " ++ toString reply.num ++ "/" ++ toString num)
    else if inf.flags ≠ 0 ∨ inf.signal ≠ [] then
      throw ("duplicate reply for call " ++ toString i ++ "/" ++ toString reply.index ++ "/" ++ toString reply.num)
    else return ()

def receiveReply (config : FuzzerConfig) (nums : List Nat) (idx i : Nat) (st : Received) : Reader Received := do
  let reply ← readCallReply i
  let own := decide (reply.index ≠ extraReplyIndex ∧ config.servNum ≤ idx)
  if own then checkReply nums i reply st
  let payload ← readPayload i reply
  let inf : CallInfo :=
    { flags := if own then reply.flags else 0, signal := payload.signal, cover := payload.cover, comps := payload.comps,
      errno := if own then reply.errno.toNat else 0 }
  let st := if own then { st with calls := st.calls.set reply.index.toNat inf }
    else { st with extraParts := st.extraParts ++ [inf] }
  if reply.index = -1 then return st
  else if st.checks.length ≤ reply.index.toNat then throw "index out of range"
  else
    let checkInfo ← readCheckInfo reply payload.ret
    return { st with checks := st.checks.set reply.index.toNat (some checkInfo) }

def receiveReplies (config : FuzzerConfig) (nums : List Nat) (idx : Nat) : Nat → Nat → Received → Reader Received
  | _, 0, st => return st
  | i, left + 1, st => do
    let st ← receiveReply config nums idx i st
    receiveReplies config nums idx (i + 1) left st

/-- The part of the stream the program wrote. -/
def readProgOutput (config : FuzzerConfig) (nums : List Nat) (idx : Nat) : Reader (UInt64 × Received) := do
  let ncmd ← uint32 "failed to read number of calls"
  let testdirIno ← uint64 "read st_ino fails"
  let st ← receiveReplies config nums idx 0 ncmd.toNat ⟨List.replicate nums.length {}, [], List.replicate nums.length none⟩
  return (testdirIno, st)

/-- Coverage and signal merged in maps, which `range` then visits. -/
def convertExtra (range : Go.RangeOrder) (extraParts : List CallInfo) : CallInfo :=
  { signal := range.arrange (extraParts.flatMap CallInfo.signal).dedup
    cover := range.arrange (extraParts.flatMap CallInfo.cover).dedup }

/-- `parseRet`, with the `CheckInfo` the parser leaves in the calls of the program. -/
structure ParseRet where
  idx : Nat
  info : Option ProgInfo := none
  checks : List (Option FileMetadata) := []
  testdirIno : UInt64 := 0
  hmdfsTraceEvents : List HmdfsTraceEvent := []
  tscRatio : UInt64 := 0
  tscOffset : Int64 := 0
  fsMd : Option FsMd := none
  err : Option String := none

def readTail : Reader (Trace × Option FsMd) := do
  let trace ← parseHmdfsTraceEvents
  let fsMd ← parseFsMd
  return (trace, fsMd)

/-- `out` from the saved position on, which is read and not used. -/
def parseClientOutput (range : Go.RangeOrder) (config : FuzzerConfig) (p : ClientProg) (idx : Nat)
    (out : List UInt8) : ParseRet :=
  match (readProgOutput config p.nums idx).run (if out.length < 8 then out else out.drop 8) with
  | .error err => { idx, err := some err }
  | .ok ((testdirIno, st), out) =>
    let info : ProgInfo := ⟨st.calls, if st.extraParts.isEmpty then {} else convertExtra range st.extraParts⟩
    match readTail.run out with
    | .error err => { idx, info := some info, err := some err }
    | .ok ((trace, fsMd), _) =>
      { idx, info := some info, checks := st.checks, testdirIno,
        hmdfsTraceEvents := trace.events.map fun e => { e with progIdx := idx },
        tscRatio := trace.ratio, tscOffset := trace.tscOffset,
        fsMd := if config.enableCsan && decide (config.servNum ≤ idx) then fsMd else none }

/-- What the fuzzer maps of a client's region: the saved position and what it reads behind it. -/
def clientMemory (r : Region) : List UInt8 := le64 (UInt64.ofNat r.posValue) ++ r.data.slice 0 outSize

end DfsFuzz.Output
