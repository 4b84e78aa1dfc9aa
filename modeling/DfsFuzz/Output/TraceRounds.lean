import DfsFuzz.Lib.SliceSort
import DfsFuzz.Lib.SlotBuffer
import DfsFuzz.Output.Trace
import Mathlib.Data.Fin.VecNotation
import Mathlib.Data.List.Induction

/-!
The rounds of `hmdfs_trace.cc` in the loop process: two sources of events fill one array, which is sorted in place,
written and filled again from its start in the next round.
-/

namespace DfsFuzz.Output

open Bytes ByteReader SlotBuffer

def maxHmdfsTraceEvents : Nat := 4096

def funcWritepageCb : UInt32 := 15

/-- An element of `collected` when the process starts. -/
def HmdfsEvent.zero : HmdfsEvent := { timestamp := 0, funcId := 0, ret := 0, ino := 0, args := fun _ => 0, off := 0 }

/-- `collected` and `collected_count`. -/
abbrev TraceBuffer := Buf HmdfsEvent

def TraceBuffer.start : TraceBuffer := ⟨fun _ => HmdfsEvent.zero, 0⟩

/-- The offsets of `perf_state`, without a value where the format has no such field. -/
structure PerfFields where
  err : Option Nat
  inoRaw : Option Nat
  remoteIno : Option Nat
  deviceId : Option Nat
  pageIndex : Option Nat

/-- A record of the perf ring: its time and what is at `data` behind the size. -/
structure Sample where
  time : UInt64
  raw : Image

def Sample.word (s : Sample) (width : Nat) : Option Nat → Nat
  | none => 0
  | some off => ofLe (s.raw.slice off width)

def handleEvent (b : TraceBuffer) (data : HmdfsEvent) : TraceBuffer := b.push maxHmdfsTraceEvents fun _ => data

/-- The stores for one record. There is none to `off`. -/
def PerfFields.store (ps : PerfFields) (s : Sample) (slot : HmdfsEvent) : HmdfsEvent :=
  { slot with
    timestamp := s.time
    funcId := funcWritepageCb
    ret := (UInt32.ofNat (s.word 4 ps.err)).toInt32
    ino := UInt64.ofNat (s.word 8 ps.inoRaw)
    args := ![UInt64.ofNat (s.word 8 ps.remoteIno), UInt64.ofNat (s.word 8 ps.deviceId),
      UInt64.ofNat (s.word 8 ps.pageIndex), 0, 0, 0] }

def drainWbEvents (ps : PerfFields) (b : TraceBuffer) (samples : List Sample) : TraceBuffer :=
  samples.foldl (fun b s => b.push maxHmdfsTraceEvents (ps.store s)) b

/-- What does not change from round to round. `std::sort` is any sort by the comparator. -/
structure Tracing where
  ps : PerfFields
  sort : Go.SliceSort
  tscNsToGlobal : UInt64 → UInt64
  tscNsRatio : UInt64
  tscOffset : Int64

/-- The events that `handle_event` gets, and the records that `drain_wb_events` finds. -/
structure Round where
  delivered : List HmdfsEvent
  samples : List Sample

namespace Tracing

variable (t : Tracing)

/-- Sorted by the time stamps, which then become global. -/
def inOrder (events : List HmdfsEvent) : List HmdfsEvent :=
  (t.sort.sort (Go.lessBy fun e : HmdfsEvent => e.timestamp.toNat) events).map fun e =>
    { e with timestamp := t.tscNsToGlobal e.timestamp }

def record (events : List HmdfsEvent) : Collected := { tscNsRatio := t.tscNsRatio, tscOffset := t.tscOffset, events }

/-- `stop_collect_hmdfs_trace`: what is written, and what is left. -/
def stopCollect (b : TraceBuffer) (round : Round) : Collected × TraceBuffer :=
  let filled := drainWbEvents t.ps (round.delivered.foldl handleEvent b) round.samples
  let sorted := filled.rewrite (t.inOrder filled.contents)
  (t.record sorted.contents, sorted.reset)

def after (history : List Round) : TraceBuffer :=
  history.foldl (fun b round => (t.stopCollect b round).2) TraceBuffer.start

/-- The event of a record, which has no offset. -/
def written (s : Sample) : HmdfsEvent := t.ps.store s HmdfsEvent.zero

/-- What a round should write: its first events, in order. -/
def trace (round : Round) : Collected :=
  t.record (t.inOrder ((round.delivered ++ round.samples.map t.written).take maxHmdfsTraceEvents))

/-- What each event of a round makes of its slot. -/
def puts (round : Round) : List (HmdfsEvent → HmdfsEvent) :=
  (round.delivered.map fun e _ => e) ++ round.samples.map t.ps.store

theorem filled_eq (b : TraceBuffer) (round : Round) :
    drainWbEvents t.ps (round.delivered.foldl handleEvent b) round.samples =
      (t.puts round).foldl (Buf.push maxHmdfsTraceEvents) b := by
  rw [puts, List.foldl_append, List.foldl_map, List.foldl_map]
  rfl

theorem length_inOrder (events : List HmdfsEvent) : (t.inOrder events).length = events.length := by
  rw [inOrder, List.length_map, (t.sort.perm _ events).length_eq]

/-- The slots of a round, as its events leave them and as they would on an array of zeros. -/
def slotPairs (b : TraceBuffer) (round : Round) : List (HmdfsEvent × HmdfsEvent) :=
  ((t.puts round).take maxHmdfsTraceEvents).mapIdx fun i put => (put (b.slots i), put HmdfsEvent.zero)

theorem slotPairs_fst (b : TraceBuffer) (round : Round) :
    (t.slotPairs b round).map Prod.fst = ((t.puts round).take maxHmdfsTraceEvents).mapIdx fun i put => put (b.slots i) :=
  List.ext_getElem (by simp [slotPairs]) fun i _ _ => by simp [slotPairs]

theorem slotPairs_snd (b : TraceBuffer) (round : Round) :
    (t.slotPairs b round).map Prod.snd = ((t.puts round).take maxHmdfsTraceEvents).map fun put => put HmdfsEvent.zero :=
  List.ext_getElem (by simp [slotPairs]) fun i _ _ => by simp [slotPairs]

theorem stopCollect_fst {b : TraceBuffer} (empty : b.count = 0) (round : Round) :
    (t.stopCollect b round).1 = t.record (t.inOrder ((t.slotPairs b round).map Prod.fst)) := by
  have same : b.reset = b := by
    cases b
    cases empty
    rfl
  have contents : ((t.puts round).foldl (Buf.push maxHmdfsTraceEvents) b.reset).contents = _ := contents_fill b (t.puts round)
  rw [same] at contents
  have counted : (t.inOrder ((t.puts round).foldl (Buf.push maxHmdfsTraceEvents) b).contents).length =
      ((t.puts round).foldl (Buf.push maxHmdfsTraceEvents) b).count := by
    rw [length_inOrder]
    exact (List.length_map _).trans List.length_range
  rw [stopCollect, filled_eq]
  simp only [contents_rewrite counted]
  rw [contents, slotPairs_fst]

theorem trace_eq (b : TraceBuffer) (round : Round) :
    t.trace round = t.record (t.inOrder ((t.slotPairs b round).map Prod.snd)) := by
  have plain : (round.delivered ++ round.samples.map t.written) = (t.puts round).map fun put => put HmdfsEvent.zero := by
    rw [puts, List.map_append, List.map_map, List.map_map]
    exact congrArg (· ++ _) (List.map_id _).symm
  rw [trace, plain, slotPairs_snd, List.map_take]

/-! ### When a round is written right -/

theorem inOrder_pairs {pairs : List (HmdfsEvent × HmdfsEvent)} (times : ∀ p ∈ pairs, p.1.timestamp = p.2.timestamp) :
    t.inOrder (pairs.map Prod.fst) = t.inOrder (pairs.map Prod.snd) ↔ ∀ p ∈ pairs, p.1 = p.2 := by
  let Twins := { p : HmdfsEvent × HmdfsEvent // p.1.timestamp = p.2.timestamp }
  let twins : List Twins := pairs.attachWith _ times
  let key (p : Twins) : Nat := p.1.1.timestamp.toNat
  have back : twins.map Subtype.val = pairs := List.attachWith_map_subtype_val times
  have first : t.sort.sort (Go.lessBy fun e : HmdfsEvent => e.timestamp.toNat) (pairs.map Prod.fst) =
      (t.sort.sort (Go.lessBy key) twins).map fun p => p.1.1 := by
    rw [← back, List.map_map]
    exact t.sort.natural _ _ _ _ fun a b => rfl
  have second : t.sort.sort (Go.lessBy fun e : HmdfsEvent => e.timestamp.toNat) (pairs.map Prod.snd) =
      (t.sort.sort (Go.lessBy key) twins).map fun p => p.1.2 := by
    rw [← back, List.map_map]
    refine t.sort.natural _ _ _ _ fun a b => ?_
    simp only [Go.lessBy, Function.comp_apply, key, a.2, b.2]
  rw [inOrder, inOrder, first, second, List.map_map, List.map_map, List.map_inj_left]
  have members (p : Twins) : p ∈ t.sort.sort (Go.lessBy key) twins ↔ p.1 ∈ pairs := by
    rw [(t.sort.perm _ twins).mem_iff, ← back, List.mem_map]
    constructor
    · intro member
      exact ⟨p, member, rfl⟩
    · rintro ⟨q, member, same⟩
      exact Subtype.ext same ▸ member
  constructor
  · intro same p member
    have here := same ⟨p, times p member⟩ ((members _).mpr member)
    simp only [Function.comp_apply, HmdfsEvent.mk.injEq] at here
    cases p with
    | mk e e' =>
      cases e
      cases e'
      simp only [HmdfsEvent.mk.injEq]
      exact ⟨times _ member, here.2⟩
  · intro same p member
    simp only [Function.comp_apply, same p.1 ((members p).mp member)]

theorem slotPairs_get (b : TraceBuffer) (round : Round) (i : Nat) :
    (t.slotPairs b round)[i]? =
      if i < maxHmdfsTraceEvents then (t.puts round)[i]?.map fun put => (put (b.slots i), put HmdfsEvent.zero) else none := by
  rw [slotPairs, List.getElem?_mapIdx, List.getElem?_take]
  split <;> rfl

theorem store_eq_iff {ps : PerfFields} {s : Sample} {slot : HmdfsEvent} :
    ps.store s slot = ps.store s HmdfsEvent.zero ↔ slot.off = 0 := by
  simp [PerfFields.store, HmdfsEvent.zero]

theorem slotPairs_times (b : TraceBuffer) (round : Round) :
    ∀ p ∈ t.slotPairs b round, p.1.timestamp = p.2.timestamp := by
  intro p member
  obtain ⟨i, here⟩ := List.mem_iff_getElem?.mp member
  rw [slotPairs_get, Option.ite_none_right_eq_some] at here
  obtain ⟨-, here⟩ := here
  obtain ⟨put, found, rfl⟩ := Option.map_eq_some_iff.mp here
  have inside := List.mem_of_getElem? found
  rw [puts, List.mem_append, List.mem_map, List.mem_map] at inside
  obtain ⟨e, -, rfl⟩ | ⟨s, -, rfl⟩ := inside
  · rfl
  · rfl

/-- The slots that the writepage events of a round get. -/
def WritepageSlot (round : Round) (i : Nat) : Prop :=
  round.delivered.length ≤ i ∧ i < min maxHmdfsTraceEvents (round.delivered.length + round.samples.length)

theorem slotPairs_same_iff (b : TraceBuffer) (round : Round) :
    (∀ p ∈ t.slotPairs b round, p.1 = p.2) ↔ ∀ i, WritepageSlot round i → (b.slots i).off = 0 := by
  have cells : (∀ p ∈ t.slotPairs b round, p.1 = p.2) ↔
      ∀ (i : Nat) (p : HmdfsEvent × HmdfsEvent), (t.slotPairs b round)[i]? = some p → p.1 = p.2 := by
    simp only [List.mem_iff_getElem?]
    exact ⟨fun all i p here => all p ⟨i, here⟩, fun all p ⟨i, here⟩ => all i p here⟩
  rw [cells]
  refine forall_congr' fun i => ?_
  rw [slotPairs_get, puts, WritepageSlot]
  by_cases small : i < maxHmdfsTraceEvents
  · rw [if_pos small]
    rcases Nat.lt_or_ge i round.delivered.length with early | late
    · have delivered : i < (round.delivered.map fun e (_ : HmdfsEvent) => e).length := by rwa [List.length_map]
      rw [List.getElem?_append_left delivered, List.getElem?_map, List.getElem?_eq_getElem early]
      refine ⟨fun _ slot => absurd slot.1 (Nat.not_le.mpr early), fun _ p here => ?_⟩
      cases here
      rfl
    · have behind : (round.delivered.map fun e (_ : HmdfsEvent) => e).length ≤ i := by rwa [List.length_map]
      rw [List.getElem?_append_right behind, List.length_map, List.getElem?_map]
      cases found : round.samples[i - round.delivered.length]? with
      | none =>
        have beyond := List.getElem?_eq_none_iff.mp found
        exact ⟨fun _ slot => absurd slot.2 (by omega), fun _ p here => (nomatch here)⟩
      | some s =>
        have within := (List.getElem?_eq_some_iff.mp found).1
        refine ⟨fun all _ => store_eq_iff.mp (all _ rfl), fun clean p here => ?_⟩
        cases here
        exact store_eq_iff.mpr (clean ⟨late, by omega⟩)
  · rw [if_neg small]
    exact ⟨fun _ slot => absurd slot.2 (by omega), fun _ p here => (nomatch here)⟩

end Tracing

theorem Collected.events_inj {c c' : Collected} (few : c.events.length < UInt32.size) (few' : c'.events.length < UInt32.size)
    (same : c.bytes = c'.bytes) : c.events = c'.events := by
  have read := reads_trace few []
  rw [same, reads_trace few' []] at read
  have traces : c'.trace = c.trace := congrArg Prod.fst (Except.ok.inj read)
  have traced : Function.Injective HmdfsEvent.traced := by
    rintro ⟨⟩ ⟨⟩ same
    simpa [HmdfsEvent.traced] using same
  exact (List.map_injective_iff.mpr traced (congrArg Trace.events traces)).symm

namespace Tracing

variable (t : Tracing)

theorem after_count (history : List Round) : (t.after history).count = 0 := by
  rcases List.eq_nil_or_concat history with rfl | ⟨rounds, round, rfl⟩
  · rfl
  · rw [after, List.concat_eq_append, List.foldl_append]
    rfl

theorem few_events (b : TraceBuffer) (round : Round) (events : List HmdfsEvent)
    (counted : events.length = (t.slotPairs b round).length) : (t.record (t.inOrder events)).events.length < UInt32.size := by
  have bound : (t.slotPairs b round).length ≤ maxHmdfsTraceEvents := by
    rw [slotPairs, List.length_mapIdx, List.length_take]
    exact Nat.min_le_left _ _
  have small : maxHmdfsTraceEvents < UInt32.size := by decide
  have length : (t.record (t.inOrder events)).events.length = events.length := t.length_inOrder events
  omega

/-- After a history a round is written as it should be exactly when its writepage events get slots without an offset. -/
theorem stopCollect_bytes_iff (history : List Round) (round : Round) :
    (t.stopCollect (t.after history) round).1.bytes = (t.trace round).bytes ↔
      ∀ i, WritepageSlot round i → ((t.after history).slots i).off = 0 := by
  have empty := t.after_count history
  rw [t.stopCollect_fst empty, t.trace_eq (t.after history), ← slotPairs_same_iff,
    ← t.inOrder_pairs (t.slotPairs_times (t.after history) round)]
  constructor
  · intro same
    exact Collected.events_inj (t.few_events _ round _ (List.length_map _)) (t.few_events _ round _ (List.length_map _)) same
  · intro same
    rw [same]

/-- Two histories leave no mark on a round, which is written as it should be, exactly when after both its writepage
events get slots without an offset. -/
theorem trace_independent_iff (history history' : List Round) (round : Round) :
    ((t.stopCollect (t.after history) round).1.bytes = (t.stopCollect (t.after history') round).1.bytes ∧
        (t.stopCollect (t.after history) round).1.bytes = (t.trace round).bytes) ↔
      ∀ i, WritepageSlot round i → ((t.after history).slots i).off = 0 ∧ ((t.after history').slots i).off = 0 := by
  have each : (∀ i, WritepageSlot round i → ((t.after history).slots i).off = 0 ∧ ((t.after history').slots i).off = 0) ↔
      (t.stopCollect (t.after history) round).1.bytes = (t.trace round).bytes ∧
        (t.stopCollect (t.after history') round).1.bytes = (t.trace round).bytes := by
    rw [stopCollect_bytes_iff, stopCollect_bytes_iff, ← forall_and]
    exact forall_congr' fun i => imp_and
  rw [each]
  exact ⟨fun ⟨same, right⟩ => ⟨right, same ▸ right⟩, fun ⟨right, right'⟩ => ⟨right.trans right'.symm, right⟩⟩

variable {t}

end Tracing

def bareTracing : Tracing where
  ps := ⟨none, none, none, none, none⟩
  sort := Go.insertionSort
  tscNsToGlobal := id
  tscNsRatio := 1000000000
  tscOffset := 0

def writeRound : Round where
  delivered := [{ HmdfsEvent.zero with timestamp := 1, funcId := 5, off := 4096 }]
  samples := []

def writepageRound : Round where
  delivered := []
  samples := [{ time := 2, raw := fun _ => 0 }]

/-- The completion of a write-back gets the offset of the write of the round before. -/
theorem writepage_keeps_offset :
    (bareTracing.stopCollect (bareTracing.after []) writepageRound).1.bytes ≠
      (bareTracing.stopCollect (bareTracing.after [writeRound]) writepageRound).1.bytes := by
  intro same
  have events := Collected.events_inj (by decide) (by decide) same
  have offsets := congrArg (List.map HmdfsEvent.off) events
  exact absurd offsets (by decide)

end DfsFuzz.Output
