import DfsFuzz.Lib.ByteReader
import DfsFuzz.Output.Writer

/-!
The fuzzer's side of the records: `callReply`, the arrays behind it and `readComps`, as
`parseClientOutput` reads them.
-/

namespace DfsFuzz.Output

open Bytes ByteReader

abbrev Reader := ByteReader String

/-- `callReply`, field by field in the order of the struct, which has no padding. -/
structure CallReply where
  index : UInt32
  num : UInt32
  errno : UInt32
  infotype : UInt32
  info : List UInt8
  stime : UInt64
  etime : UInt64
  flags : UInt32
  signalSize : UInt32
  coverSize : UInt32
  compsSize : UInt32

def callReplySize : Nat := 192

def readCallReply (i : Nat) : Reader CallReply := do
  let err := "failed to read call " ++ toString i ++ " reply"
  let out ← get
  if out.length < callReplySize then throw err
  let index ← uint32 err
  let num ← uint32 err
  let errno ← uint32 err
  let infotype ← uint32 err
  let info ← bytes err INFOLIMIT
  let stime ← uint64 err
  let etime ← uint64 err
  let flags ← uint32 err
  let signalSize ← uint32 err
  let coverSize ← uint32 err
  let compsSize ← uint32 err
  return ⟨index, num, errno, infotype, info, stime, etime, flags, signalSize, coverSize, compsSize⟩

def compSizeMask : UInt32 := 6
def compSize8 : UInt32 := 6
def compConstMask : UInt32 := 1

def readCompOp (err : String) (typ : UInt32) : Reader UInt64 :=
  if typ &&& compSizeMask = compSize8 then uint64 err
  else do
    let v ← uint32 err
    return v.toUInt64

/-- The pairs `readComps` adds to the comparison map, from comparison `i` on. -/
def readCompsFrom : Nat → Nat → Reader (List (UInt64 × UInt64))
  | _, 0 => return []
  | i, left + 1 => do
    let typ ← uint32 ("failed to read comp " ++ toString i)
    if compConstMask ||| compSizeMask < typ then throw ("bad comp " ++ toString i ++ " type " ++ toString typ)
    let op1 ← readCompOp ("failed to read comp " ++ toString i ++ " op") typ
    let op2 ← readCompOp ("failed to read comp " ++ toString i ++ " op") typ
    let rest ← readCompsFrom (i + 1) left
    if op1 = op2 then return rest
    else if typ &&& compConstMask ≠ 0 then return (op2, op1) :: rest
    else return (op2, op1) :: (op1, op2) :: rest

def readComps (compsSize : UInt32) : Reader (List (UInt64 × UInt64)) := readCompsFrom 0 compsSize.toNat

structure Payload where
  signal : List UInt32
  cover : List UInt32
  comps : List (UInt64 × UInt64)
  ret : UInt64

def overflowError (kind : String) (i : Nat) (reply : CallReply) (size : UInt32) (left : Nat) : String :=
  "call " ++ toString i ++ "/" ++ toString reply.index ++ "/" ++ toString reply.num ++ ": " ++ kind ++
    " overflow: " ++ toString size ++ "/" ++ toString left

def readPayload (i : Nat) (reply : CallReply) : Reader Payload := do
  let out ← get
  let signal ← uint32Array (overflowError "signal" i reply reply.signalSize out.length) reply.signalSize.toNat
  let out ← get
  let cover ← uint32Array (overflowError "cover" i reply reply.coverSize out.length) reply.coverSize.toNat
  let comps ← readComps reply.compsSize
  let ret ← uint64 "syscall return value read error"
  return ⟨signal, cover, comps, ret⟩

namespace Record

def reply (rec : Record) : CallReply where
  index := rec.index
  num := rec.num
  errno := rec.errno
  infotype := rec.infotype
  info := rec.info
  stime := rec.stime
  etime := rec.etime
  flags := rec.flags
  signalSize := UInt32.ofNat rec.signal.length
  coverSize := UInt32.ofNat rec.cover.length
  compsSize := 0

def payload (rec : Record) : Payload := ⟨rec.signal, rec.cover, [], rec.ret⟩

/-- What every record of a region that has room for it meets. -/
structure Framed (rec : Record) : Prop where
  info : rec.info.length = INFOLIMIT
  signal : rec.signal.length < UInt32.size
  cover : rec.cover.length < UInt32.size

variable {rec : Record}

theorem length_fixed (framed : rec.Framed) : (rec.headerBytes ++ rec.countBytes).length = callReplySize := by
  simp [headerBytes, countBytes, framed.info, INFOLIMIT, callReplySize]

theorem reads_callReply (framed : rec.Framed) (i : Nat) :
    Reads (readCallReply i) (rec.headerBytes ++ rec.countBytes) rec.reply := by
  apply Reads.look
  intro rest
  have enough : ¬ (rec.headerBytes ++ rec.countBytes ++ rest).length < callReplySize := by
    rw [List.length_append, length_fixed framed]
    omega
  rw [if_neg enough]
  have fields : rec.headerBytes ++ rec.countBytes = le32 rec.index ++ (le32 rec.num ++ (le32 rec.errno ++
      (le32 rec.infotype ++ (rec.info ++ (le64 rec.stime ++ (le64 rec.etime ++ (le32 rec.flags ++
        (le32 (UInt32.ofNat rec.signal.length) ++ (le32 (UInt32.ofNat rec.cover.length) ++ (le32 0 ++ [])))))))))) := by
    simp only [headerBytes, countBytes, List.append_assoc, List.append_nil]
  rw [fields]
  have infoRead := reads_bytes ("failed to read call " ++ toString i ++ " reply") rec.info
  rw [framed.info] at infoRead
  beta_reduce
  refine (reads_uint32 _ _).bind ((reads_uint32 _ _).bind ((reads_uint32 _ _).bind ((reads_uint32 _ _).bind ?_)))
  refine infoRead.bind ((reads_uint64 _ _).bind ((reads_uint64 _ _).bind ((reads_uint32 _ _).bind ?_)))
  exact (reads_uint32 _ _).bind ((reads_uint32 _ _).bind ((reads_uint32 _ _).bind (Reads.pure _)))

theorem reads_payload (framed : rec.Framed) (i : Nat) :
    Reads (readPayload i rec.reply) (words rec.signal ++ (words rec.cover ++ ([] ++ (le64 rec.ret ++ [])))) rec.payload := by
  have signalSize : rec.reply.signalSize.toNat = rec.signal.length := UInt32.toNat_ofNat_of_lt' framed.signal
  have coverSize : rec.reply.coverSize.toNat = rec.cover.length := UInt32.toNat_ofNat_of_lt' framed.cover
  apply Reads.look
  intro rest
  rw [signalSize]
  refine (reads_uint32Array _ rec.signal).bind (Reads.look fun rest => ?_)
  rw [coverSize]
  refine (reads_uint32Array _ rec.cover).bind ?_
  exact (Reads.pure []).bind ((reads_uint64 _ rec.ret).bind (Reads.pure rec.payload))

end Record

/-- The replies as the loop of `parseClientOutput` frames them, from reply `i` on. -/
def readReplies : Nat → Nat → Reader (List (CallReply × Payload))
  | _, 0 => return []
  | i, left + 1 => do
    let reply ← readCallReply i
    let payload ← readPayload i reply
    let rest ← readReplies (i + 1) left
    return (reply, payload) :: rest

/-- The reply area: the number of replies, the inode of the test directory, the replies. -/
def decodeReplies : Reader (List (CallReply × Payload)) := do
  let ncmd ← uint32 "failed to read number of calls"
  let _ ← uint64 "read st_ino fails"
  readReplies 0 ncmd.toNat

theorem reads_replies {recs : List Record} (framed : ∀ rec ∈ recs, rec.Framed) (i : Nat) :
    Reads (readReplies i recs.length) (recs.flatMap Record.bytes) (recs.map fun rec => (rec.reply, rec.payload)) := by
  induction recs generalizing i with
  | nil => exact Reads.pure []
  | cons rec recs ih =>
    have tail := ih (fun other member => framed other (List.mem_cons_of_mem rec member)) (i + 1)
    have own := framed rec List.mem_cons_self
    have split : (rec :: recs).flatMap Record.bytes = (rec.headerBytes ++ rec.countBytes) ++
        ((words rec.signal ++ (words rec.cover ++ ([] ++ (le64 rec.ret ++ [])))) ++ (recs.flatMap Record.bytes ++ [])) := by
      simp only [List.flatMap_cons, Record.bytes, List.append_assoc, List.append_nil, List.nil_append]
    rw [split]
    exact (Record.reads_callReply own i).bind ((Record.reads_payload own i).bind (tail.bind (Reads.pure _)))

end DfsFuzz.Output
