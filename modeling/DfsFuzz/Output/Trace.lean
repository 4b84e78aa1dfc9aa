import DfsFuzz.Output.Replies

/-!
The kernel events of a program, between its replies and the metadata: `stop_collect_hmdfs_trace`
writes them, `parseHmdfsTraceEvents` reads them.
-/

namespace DfsFuzz.Output

open Bytes ByteReader

/-- `struct hmdfs_event`. -/
structure HmdfsEvent where
  timestamp : UInt64
  funcId : UInt32
  ret : Int32
  ino : UInt64
  args : Fin 6 → UInt64
  off : UInt64

/-- What the executor knows at the end of a program: `tsc_ns_ratio` times 1e9, its offset to the global
clock and the events in the order of their time stamps. -/
structure Collected where
  tscNsRatio : UInt64
  tscOffset : Int64
  events : List HmdfsEvent

namespace HmdfsEvent

def argList (e : HmdfsEvent) : List UInt64 := List.ofFn e.args

def write (e : HmdfsEvent) (r : Region) : Option Region := do
  let r ← r.writeOutput64 e.timestamp
  let r ← r.writeOutput e.funcId
  let r ← r.writeOutput e.ret.toUInt32
  let r ← r.writeOutput64 e.ino
  let r ← e.argList.foldlM (fun r v => r.writeOutput64 v) r
  r.writeOutput64 e.off

def bytes (e : HmdfsEvent) : List UInt8 :=
  le64 e.timestamp ++ (le32 e.funcId ++ (le32 e.ret.toUInt32 ++ (le64 e.ino ++ (e.argList.flatMap le64 ++
    le64 e.off))))

end HmdfsEvent

/-- The stores of `stop_collect_hmdfs_trace`; the count is written also when it is zero. -/
def stopCollectHmdfsTrace (t : Collected) (r : Region) : Option Region := do
  let r ← r.writeOutput64 t.tscNsRatio
  let r ← r.writeOutput64 t.tscOffset.toUInt64
  let r ← r.writeOutput (UInt32.ofNat t.events.length)
  t.events.foldlM (fun r e => e.write r) r

def Collected.bytes (t : Collected) : List UInt8 :=
  le64 t.tscNsRatio ++ (le64 t.tscOffset.toUInt64 ++ (le32 (UInt32.ofNat t.events.length) ++
    t.events.flatMap HmdfsEvent.bytes))

/-- `HmdfsTraceEvent` of the fuzzer; the zero value stands where the stream ended early. -/
structure HmdfsTraceEvent where
  timestamp : UInt64 := 0
  funcId : UInt32 := 0
  ret : Int32 := 0
  ino : UInt64 := 0
  args : Fin 6 → UInt64 := fun _ => 0
  progIdx : Nat := 0
  off : UInt64 := 0

/-- `ratio` is the fixed-point number, of which the fuzzer takes `float64(ratioFixed) / 1e9`. -/
structure Trace where
  ratio : UInt64
  tscOffset : Int64
  events : List HmdfsTraceEvent

/-- The words of an event up to the first that is not there. -/
def readArgs : Nat → Reader (List UInt64)
  | 0 => return []
  | left + 1 => do
    let v ← attempt (uint64 ())
    match v with
    | none => return []
    | some v =>
      let rest ← readArgs left
      return v :: rest

/-- An event, and whether the loop over the events goes on behind it. -/
def readTraceEvent : Reader (HmdfsTraceEvent × Bool) := do
  let ts ← attempt (uint64 ())
  let fid ← attempt (uint32 ())
  let ret ← attempt (uint32 ())
  let ino ← attempt (uint64 ())
  match ts, fid, ret, ino with
  | some timestamp, some funcId, some ret, some ino =>
    let args ← readArgs 6
    let off ← attempt (uint64 ())
    return ({ timestamp, funcId, ret := ret.toInt32, ino, args := fun j => args.getD j 0, off := off.getD 0 },
      off.isSome)
  | _, _, _, _ => return ({}, false)

/-- The array has its full length from the start, so events that cannot be read stay zero. -/
def readTraceEvents : Nat → Reader (List HmdfsTraceEvent)
  | 0 => return []
  | left + 1 => do
    let (event, more) ← readTraceEvent
    if more then
      let rest ← readTraceEvents left
      return event :: rest
    else return event :: List.replicate left {}

def parseHmdfsTraceEvents : Reader Trace := do
  let out ← get
  if out.length < 20 then return ⟨0, 0, []⟩
  let ratio ← attempt (uint64 ())
  let offset ← attempt (uint64 ())
  let count ← attempt (uint32 ())
  let events ← readTraceEvents (count.getD 0).toNat
  return ⟨ratio.getD 0, (offset.getD 0).toInt64, events⟩

def HmdfsEvent.traced (e : HmdfsEvent) : HmdfsTraceEvent :=
  { timestamp := e.timestamp, funcId := e.funcId, ret := e.ret, ino := e.ino, args := e.args, off := e.off }

def Collected.trace (t : Collected) : Trace := ⟨t.tscNsRatio, t.tscOffset, t.events.map HmdfsEvent.traced⟩

variable {r r' : Region}

theorem HmdfsEvent.length_bytes (e : HmdfsEvent) : e.bytes.length = 80 := by
  simp [bytes, argList]

theorem HmdfsEvent.write_appends {e : HmdfsEvent} (wrote : e.write r = some r') : Region.Appends r e.bytes r' := by
  simp only [write, Option.bind_eq_bind, Option.bind_eq_some_iff] at wrote
  obtain ⟨r1, ts, r2, fid, r3, ret, r4, ino, r5, args, off⟩ := wrote
  have start := Region.writeOutput64_appends ino
  have words := Region.foldlM_appends (fun _ _ _ _ _ one => Region.writeOutput64_appends one) args start.posValue
  have last := start.trans (words.trans (Region.writeOutput64_appends off))
  exact (Region.writeOutput64_appends ts).trans
    ((Region.writeOutput_appends fid).trans ((Region.writeOutput_appends ret).trans last))

theorem stopCollectHmdfsTrace_appends {t : Collected} (wrote : stopCollectHmdfsTrace t r = some r') :
    Region.Appends r t.bytes r' := by
  simp only [stopCollectHmdfsTrace, Option.bind_eq_bind, Option.bind_eq_some_iff] at wrote
  obtain ⟨r1, ratio, r2, offset, r3, count, events⟩ := wrote
  have counted := Region.writeOutput_appends count
  have rest := Region.foldlM_appends (fun _ _ _ _ _ one => HmdfsEvent.write_appends one) events counted.posValue
  exact (Region.writeOutput64_appends ratio).trans
    ((Region.writeOutput64_appends offset).trans (counted.trans rest))

theorem Collected.length_bytes (t : Collected) : t.bytes.length = 20 + 80 * t.events.length := by
  have body : (t.events.flatMap HmdfsEvent.bytes).length = 80 * t.events.length := by
    rw [List.length_flatMap]
    simp [HmdfsEvent.length_bytes, List.map_const', Nat.mul_comm]
  simp only [bytes, List.length_append, length_le64, length_le32, body]
  omega

theorem reads_args (vs : List UInt64) : Reads (readArgs vs.length) (vs.flatMap le64) vs := by
  induction vs with
  | nil => exact Reads.pure []
  | cons v vs ih =>
    have whole := (Reads.attempt (reads_uint64 () v)).bind (f := fun v => match v with
      | none => (return [] : Reader (List UInt64))
      | some v => do
        let rest ← readArgs vs.length
        return v :: rest) (ih.map (v :: ·))
    exact whole

theorem HmdfsEvent.reads (e : HmdfsEvent) : Reads readTraceEvent e.bytes (e.traced, true) := by
  have six : e.argList.length = 6 := List.length_ofFn
  have args := reads_args e.argList
  rw [six] at args
  have same : (fun j : Fin 6 => e.argList.getD j 0) = e.args := by
    funext j
    have inside : j < e.argList.length := by rw [six]; exact j.isLt
    rw [List.getD_eq_getElem?_getD, List.getElem?_eq_getElem inside, Option.getD_some]
    exact List.getElem_ofFn inside
  refine (Reads.attempt (reads_uint64 () _)).bind ((Reads.attempt (reads_uint32 () _)).bind ?_)
  refine (Reads.attempt (reads_uint32 () _)).bind ((Reads.attempt (reads_uint64 () _)).bind (args.bind ?_))
  rw [same]
  exact (Reads.attempt (reads_uint64 () e.off)).map _

theorem reads_traceEvents (events : List HmdfsEvent) :
    Reads (readTraceEvents events.length) (events.flatMap HmdfsEvent.bytes) (events.map HmdfsEvent.traced) := by
  induction events with
  | nil => exact Reads.pure []
  | cons e events ih => exact e.reads.bind (ih.map (e.traced :: ·))

theorem reads_trace {t : Collected} (count : t.events.length < UInt32.size) :
    Reads parseHmdfsTraceEvents t.bytes t.trace := by
  apply Reads.look
  intro rest
  have enough : ¬ (t.bytes ++ rest).length < 20 := by
    rw [List.length_append, t.length_bytes]
    omega
  rw [if_neg enough]
  have events := reads_traceEvents t.events
  have size : (UInt32.ofNat t.events.length).toNat = t.events.length := UInt32.toNat_ofNat_of_lt' count
  refine (Reads.attempt (reads_uint64 () _)).bind ((Reads.attempt (reads_uint64 () _)).bind ?_)
  refine (Reads.attempt (reads_uint32 () _)).bind ?_
  rw [Option.getD_some, size]
  exact events.map _

end DfsFuzz.Output
