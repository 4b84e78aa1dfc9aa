import DfsFuzz.Output.ClientDecode
import Mathlib.Data.List.Destutter

/-!
The coverage of a server: `write_server_output` writes the signals and the program counters of one buffer behind the
other and records only the two totals; the fuzzer takes the first words of them all for the signals.
-/

namespace DfsFuzz.Output

open Bytes ByteReader Region

/-! ### Signals of a buffer -/

def hash (a : UInt32) : UInt32 :=
  let a := (a ^^^ (61 : UInt32)) ^^^ (a >>> (16 : UInt32))
  let a := a + (a <<< (3 : UInt32))
  let a := a ^^^ (a >>> (4 : UInt32))
  let a := a * 0x27d4eb2d
  a ^^^ (a >>> (15 : UInt32))

def dedupTableSize : UInt32 := 8192

/-- `dedup_table`, by position. -/
abbrev DedupTable := Nat → UInt32

/-- What is left of the four probes of `dedup`. -/
def probe (sig : UInt32) : Nat → UInt32 → DedupTable → Bool × DedupTable
  | 0, _, table => (false, Function.update table (sig % dedupTableSize).toNat sig)
  | left + 1, i, table =>
    let pos := ((sig + i) % dedupTableSize).toNat
    if table pos = sig then (true, table)
    else if table pos = 0 then (false, Function.update table pos sig)
    else probe sig left (i + 1) table

def dedup (sig : UInt32) (table : DedupTable) : Bool × DedupTable := probe sig 4 0 table

/-- What decides on the coverage of a round. `useCoverEdges` has no value where it ends the executor. -/
structure CoverFlags where
  flagCoverage : Bool
  flagComparisons : Bool
  flagCollectCover : Bool
  flagDedupCover : Bool
  isKernel64 : Bool
  inUserspace : Bool
  coverageFilter : UInt64 → Bool
  useCoverEdges : UInt64 → Option Bool

/-- An element of `usp_covers` behind `cover_collect`: its program counters, if it is mapped. -/
structure UspCover where
  data : Option (List UInt64)
  pcOffset : UInt64

namespace CoverFlags

variable (t : CoverFlags)

/-- A value of `cover_data_t`. -/
def coverData (v : UInt64) : UInt64 := if t.isKernel64 then v else v.toUInt32.toUInt64

def edges (pc : UInt64) : Option Bool := if t.inUserspace || !t.isKernel64 then some true else t.useCoverEdges pc

/-- The loop of `write_coverage_signal` over the program counters. -/
def signalsFrom (pcOffset : UInt64) : List UInt64 → UInt64 → Bool → DedupTable → Option (List UInt32 × DedupTable)
  | [], _, _, table => some ([], table)
  | v :: rest, prevPc, prevFilter, table =>
    let pc := t.coverData (v + pcOffset)
    (t.edges pc).bind fun edge =>
      let sig := if edge then pc.toUInt32 ^^^ hash prevPc.toUInt32 else pc.toUInt32
      let filter := t.coverageFilter pc
      if !filter && !prevFilter then signalsFrom pcOffset rest pc filter table
      else if (dedup sig table).1 then signalsFrom pcOffset rest pc filter (dedup sig table).2
      else (signalsFrom pcOffset rest pc filter (dedup sig table).2).map fun s => (sig :: s.1, s.2)

def coverPcs (pcOffset : UInt64) (data : List UInt64) : List UInt32 :=
  (if t.flagDedupCover then (data.mergeSort fun a b => decide (a ≤ b)).destutter (· ≠ ·) else data).map fun v =>
    (v + pcOffset).toUInt32

/-- What is there to be written for the buffers that are mapped and not empty. -/
def emit : List UspCover → DedupTable → Option (List Cover × DedupTable)
  | [], table => some ([], table)
  | cov :: covs, table =>
    match cov.data with
    | none | some [] => emit covs table
    | some data =>
      if t.flagComparisons || !t.flagCoverage then emit covs table
      else
        (t.signalsFrom cov.pcOffset data 0 true table).bind fun s =>
          (emit covs s.2).map fun rest => (⟨s.1, t.coverPcs cov.pcOffset data⟩ :: rest.1, rest.2)

end CoverFlags

/-- `*pos` -/
def Region.word (r : Region) (place : Nat) : UInt32 := UInt32.ofNat (ofLe (r.data.slice place 4))

/-- `write_coverage_signal` for a buffer of a server, which adds to the counts. -/
def writeServerSignal (collect : Bool) (signalCountPos coverCountPos : Nat) (r : Region) (cov : Cover) : Option Region := do
  let orgSignalCnt := r.word signalCountPos
  let orgCoverCnt := r.word coverCountPos
  let r ← r.writeAll cov.signal
  let r := r.patch signalCountPos (UInt32.ofNat cov.signal.length + orgSignalCnt)
  if collect then
    let r ← r.writeAll cov.cover
    return r.patch coverCountPos (UInt32.ofNat cov.cover.length + orgCoverCnt)
  else return r

/-- `write_call_output` with the buffers of a server. -/
def writeServerOutput (collect : Bool) (th : Thread) (covs : List Cover) (r : Region) : Option Region := do
  let r := { r with completed := r.readCompleted }
  let r ← writeHeader ⟨th.callIndex, th.callNum, replyErrno true th, th.info, th.stime, th.etime, replyFlags true th⟩ r
  let signalCountPos := r.pos
  let r ← r.writeOutput 0
  let coverCountPos := r.pos
  let r ← r.writeOutput 0
  let r ← r.writeOutput 0
  let r ← covs.foldlM (writeServerSignal collect signalCountPos coverCountPos) r
  let r ← r.writeOutput64 th.res
  let r := { r with completed := r.completed + 1 }
  return r.writeCompleted r.completed

/-- `collect_srv_cover` -/
def collectSrvCover (t : CoverFlags) (th : Thread) (bufs : List UspCover) (table : DedupTable) (r : Region) : Option Region :=
  (t.emit bufs table).bind fun emitted => writeServerOutput t.flagCollectCover th emitted.1 r

namespace Cover

def emitted (collect : Bool) (cov : Cover) : List UInt32 := if collect then cov.cover else []

/-- The words of all buffers in the order in which they are written. -/
def stream (collect : Bool) (covs : List Cover) : List UInt32 := covs.flatMap fun cov => cov.signal ++ cov.emitted collect

def signals (covs : List Cover) : List UInt32 := covs.flatMap Cover.signal

def pcs (collect : Bool) (covs : List Cover) : List UInt32 := covs.flatMap (Cover.emitted collect)

end Cover

/-- The record of a server, in which the words are divided as the totals say. -/
def serverRecord (collect : Bool) (th : Thread) (covs : List Cover) (info : List UInt8) : Record where
  index := th.callIndex
  num := th.callNum
  errno := replyErrno true th
  infotype := (th.info.map Prod.fst).getD (-1)
  info
  stime := th.stime
  etime := th.etime
  flags := replyFlags true th
  signal := (Cover.stream collect covs).take (Cover.signals covs).length
  cover := (Cover.stream collect covs).drop (Cover.signals covs).length
  ret := th.res

theorem length_stream (collect : Bool) (covs : List Cover) :
    (Cover.stream collect covs).length = (Cover.signals covs).length + (Cover.pcs collect covs).length := by
  induction covs with
  | nil => rfl
  | cons cov covs ih =>
    simp only [Cover.stream, Cover.signals, Cover.pcs, List.flatMap_cons, List.length_append] at ih ⊢
    omega

theorem serverRecord_lengths (collect : Bool) (th : Thread) (covs : List Cover) (info : List UInt8) :
    (serverRecord collect th covs info).signal.length = (Cover.signals covs).length ∧
      (serverRecord collect th covs info).cover.length = (Cover.pcs collect covs).length := by
  have total := length_stream collect covs
  constructor
  · rw [serverRecord, List.length_take]
    omega
  · rw [serverRecord, List.length_drop]
    omega

/-! ### What is written -/

variable {r r' : Region}

variable {before : List UInt8}

theorem word_of_written {behind : List UInt8} {v : UInt32} (known : r.written = before ++ (le32 v ++ behind)) :
    r.word before.length = v := by
  have size : r.pos = before.length + (4 + behind.length) := by
    rw [← length_written, known]
    simp
  rw [Region.written, size, Image.slice_add, Image.slice_add, Nat.zero_add] at known
  obtain ⟨_, rest⟩ := List.append_inj known (by simp)
  rw [Region.word, (List.append_inj rest (by simp)).1, ofLe_le32]

/-- The counts and the words of the buffers so far, behind some bytes. -/
def Covered (before : List UInt8) (signals pcs : Nat) (ws : List UInt32) (r : Region) : Prop :=
  r.written = before ++ (le32 (UInt32.ofNat signals) ++ (le32 (UInt32.ofNat pcs) ++ (le32 0 ++ words ws)))

theorem words_append (vs ws : List UInt32) : words (vs ++ ws) = words vs ++ words ws := List.flatMap_append

variable {collect : Bool}

theorem writeServerSignal_covered {cov : Cover} {signals pcs : Nat} {ws : List UInt32}
    (covered : Covered before signals pcs ws r) (saved : r.posValue = r.pos / 4)
    (wrote : writeServerSignal collect before.length (before.length + 4) r cov = some r') :
    Covered before (signals + cov.signal.length) (pcs + (cov.emitted collect).length)
        (ws ++ (cov.signal ++ cov.emitted collect)) r' ∧
      r'.completed = r.completed ∧ r'.posValue = r'.pos / 4 := by
  have orgSignal : r.word before.length = UInt32.ofNat signals := word_of_written covered
  have orgCover : r.word (before.length + 4) = UInt32.ofNat pcs := by
    have known : r.written = (before ++ le32 (UInt32.ofNat signals)) ++ (le32 (UInt32.ofNat pcs) ++ (le32 0 ++ words ws)) := by
      rw [covered, List.append_assoc]
    have here := word_of_written known
    rwa [List.length_append, length_le32] at here
  simp only [writeServerSignal, orgSignal, orgCover, Option.bind_eq_bind, Option.bind_eq_some_iff] at wrote
  obtain ⟨r1, signal, rest⟩ := wrote
  have one := writeAll_appends signal saved
  rw [← UInt32.ofNat_add, Nat.add_comm] at rest
  have counted := written_patch (r := r1) (UInt32.ofNat (signals + cov.signal.length))
    (show r1.written = before ++ (le32 (UInt32.ofNat signals) ++
        (le32 (UInt32.ofNat pcs) ++ (le32 0 ++ (words ws ++ words cov.signal)))) by
      rw [one.written, covered]
      simp only [List.append_assoc])
  cases collect with
  | false =>
    cases rest
    refine ⟨?_, one.completed, one.posValue⟩
    rw [Covered, counted, words_append, words_append]
    simp [Cover.emitted, words]
  | true =>
    simp only [if_true, Option.bind_eq_some_iff] at rest
    obtain ⟨r2, cover, last⟩ := rest
    cases last
    have two := writeAll_appends (r := r1.patch before.length (UInt32.ofNat (signals + cov.signal.length))) cover one.posValue
    have both := written_patch (r := r2) (UInt32.ofNat (pcs + cov.cover.length))
      (show r2.written = (before ++ le32 (UInt32.ofNat (signals + cov.signal.length))) ++
          (le32 (UInt32.ofNat pcs) ++ (le32 0 ++ ((words ws ++ words cov.signal) ++ words cov.cover))) by
        rw [two.written, counted]
        simp only [List.append_assoc])
    rw [List.length_append, length_le32] at both
    refine ⟨?_, two.completed.trans one.completed, two.posValue⟩
    rw [← UInt32.ofNat_add, Nat.add_comm cov.cover.length, Covered, both, words_append, words_append]
    simp only [Cover.emitted, if_true, List.append_assoc]

variable {covs : List Cover}

theorem writeServerSignals_covered {signals pcs : Nat} {ws : List UInt32} (covered : Covered before signals pcs ws r)
    (saved : r.posValue = r.pos / 4)
    (wrote : covs.foldlM (writeServerSignal collect before.length (before.length + 4)) r = some r') :
    Covered before (signals + (Cover.signals covs).length) (pcs + (Cover.pcs collect covs).length)
        (ws ++ Cover.stream collect covs) r' ∧
      r'.completed = r.completed ∧ r'.posValue = r'.pos / 4 := by
  induction covs generalizing r signals pcs ws with
  | nil =>
    cases wrote
    refine ⟨?_, rfl, saved⟩
    simpa [Cover.signals, Cover.pcs, Cover.stream] using covered
  | cons cov covs ih =>
    rw [List.foldlM_cons] at wrote
    obtain ⟨r1, one, rest⟩ := Option.bind_eq_some_iff.mp wrote
    obtain ⟨next, completed, saved1⟩ := writeServerSignal_covered covered saved one
    obtain ⟨whole, completed', saved'⟩ := ih next saved1 rest
    refine ⟨?_, completed'.trans completed, saved'⟩
    simp only [Cover.signals, Cover.pcs, Cover.stream, List.flatMap_cons, List.length_append, List.append_assoc,
      Nat.add_assoc] at whole ⊢
    exact whole

/-- The record of a server goes to the end of the region, and has fewer words than the region. -/
theorem writeServerOutput_counts {th : Thread} {n : UInt32} {body : List UInt8} (counts : Counts n body r)
    (wrote : writeServerOutput collect th covs r = some r') :
    ∃ info, info.length = INFOLIMIT ∧ Counts (n + 1) (body ++ (serverRecord collect th covs info).bytes) r' ∧
      (Cover.stream collect covs).length < kMaxOutput := by
  simp only [writeServerOutput, Option.bind_eq_bind, Option.bind_eq_some_iff] at wrote
  obtain ⟨r1, header, r2, one, r3, two, r4, three, r5, payload, r6, ret, last⟩ := wrote
  obtain ⟨info, size, start, -⟩ := writeHeader_appends header
  have first := writeOutput_appends one
  have zeros := (first.trans (writeOutput_appends two)).trans (writeOutput_appends three)
  have place : r2.pos = r1.pos + 4 := by
    rw [← length_written r2, first.written]
    simp
  have known : Covered r1.written 0 0 [] r4 := by
    rw [Covered, zeros.written]
    simp only [words, List.flatMap_nil, List.append_nil, List.append_assoc]
    rfl
  rw [place, ← length_written r1] at payload
  obtain ⟨whole, completed, saved⟩ := writeServerSignals_covered known zeros.posValue payload
  simp only [Nat.zero_add, List.nil_append] at whole
  have returned := writeOutput64_appends ret
  have counted : r6.completed + 1 = n + 1 := by
    rw [returned.completed, completed, zeros.completed, start.completed]
    exact congrArg (· + 1) counts.readCompleted
  obtain rfl := Option.some.inj last
  have behind : Counts n (body ++ (serverRecord collect th covs info).bytes) r6 := by
    refine ⟨?_, returned.posValue⟩
    have before : ({ r with completed := r.readCompleted } : Region).written = le32 n ++ body := counts.written
    obtain ⟨signals, pcs⟩ := serverRecord_lengths collect th covs info
    have divided : words (serverRecord collect th covs info).signal ++ words (serverRecord collect th covs info).cover =
        words (Cover.stream collect covs) := by
      rw [← words_append]
      exact congrArg words (List.take_append_drop _ _)
    have text : (serverRecord collect th covs info).bytes = (serverRecord collect th covs info).headerBytes ++
        ((serverRecord collect th covs info).countBytes ++ (words (Cover.stream collect covs) ++ le64 th.res)) := by
      rw [← divided, List.append_assoc]
      rfl
    rw [returned.written, whole, start.written, before, text, Record.countBytes, signals, pcs]
    simp only [Record.headerBytes, serverRecord, Header.bytes, List.append_assoc]
  have bumped := behind.writeCompleted (r6.completed + 1)
  rw [counted] at bumped
  refine ⟨info, size, ⟨counted ▸ bumped.written, bumped.saved⟩, ?_⟩
  -- the last word is written below the limit, and all words lie before it
  have room : r5.pos + 4 < kMaxOutput := by
    rw [writeOutput64, Option.ite_none_left_eq_some] at ret
    exact Nat.lt_of_not_le ret.1
  have long := congrArg List.length whole
  rw [length_written, List.length_append, List.length_append, List.length_append, List.length_append, length_words] at long
  omega

/-- The extra part has the signals that were written, and the program counters. -/
structure Apart (collect : Bool) (covs : List Cover) (part : CallInfo) : Prop where
  signal : part.signal = Cover.signals covs
  cover : part.cover = Cover.pcs collect covs

theorem apart_iff {th : Thread} {info : List UInt8} :
    Apart collect covs ((serverRecord collect th covs info).callInfo false) ↔
      Cover.stream collect covs = Cover.signals covs ++ Cover.pcs collect covs := by
  constructor
  · rintro ⟨signal, cover⟩
    rw [← signal, ← cover]
    exact (List.take_append_drop _ _).symm
  · intro same
    exact ⟨(congrArg (List.take _) same).trans List.take_left, (congrArg (List.drop _) same).trans List.drop_left⟩

/-- No buffer with signals comes behind one whose program counters are written. -/
def NoLateSignal (collect : Bool) : List Cover → Prop
  | [] => True
  | cov :: covs => (cov.emitted collect ≠ [] → Cover.signals covs = []) ∧ NoLateSignal collect covs

theorem stream_of_noLateSignal (none : NoLateSignal collect covs) :
    Cover.stream collect covs = Cover.signals covs ++ Cover.pcs collect covs := by
  induction covs with
  | nil => rfl
  | cons cov covs ih =>
    have rest := ih none.2
    simp only [Cover.stream, Cover.signals, Cover.pcs, List.flatMap_cons] at rest ⊢
    rw [rest]
    by_cases silent : cov.emitted collect = []
    · simp only [silent, List.append_nil, List.nil_append, List.append_assoc]
    · have later : covs.flatMap Cover.signal = [] := none.1 silent
      simp only [later, List.append_nil, List.nil_append, List.append_assoc]

theorem reads_serverRecord (t : CoverFlags) {bufs : List UspCover} {table table' : DedupTable}
    (emitted : t.emit bufs table = some (covs, table')) (th : Thread) (index : th.callIndex = -1) {n : UInt32}
    {body : List UInt8} (counts : Counts n body r) (wrote : collectSrvCover t th bufs table r = some r')
    (config : FuzzerConfig) (nums : List Nat) (idx i : Nat) (st : Received) :
    ∃ info, Counts (n + 1) (body ++ (serverRecord t.flagCollectCover th covs info).bytes) r' ∧
      Reads (receiveReply config nums idx i st) (serverRecord t.flagCollectCover th covs info).bytes
        { st with extraParts := st.extraParts ++ [(serverRecord t.flagCollectCover th covs info).callInfo false] } := by
  have written : writeServerOutput t.flagCollectCover th covs r = some r' := by
    rw [collectSrvCover, emitted, Option.bind_some] at wrote
    exact wrote
  obtain ⟨info, size, counted, few⟩ := writeServerOutput_counts counts written
  obtain ⟨signals, pcs⟩ := serverRecord_lengths t.flagCollectCover th covs info
  have total := length_stream t.flagCollectCover covs
  have limit : kMaxOutput < UInt32.size := by decide
  have framed : (serverRecord t.flagCollectCover th covs info).Framed :=
    ⟨size, by rw [signals]; omega, by rw [pcs]; omega⟩
  exact ⟨info, counted, reads_extraReply framed index i⟩

/-- The record of a server is read as an extra part, with signals and program counters kept apart exactly when the
words of its buffers, one buffer behind the other, are the words of all signals and then of all program counters:
as where no signals come behind program counters that are written. -/
theorem serverCover_apart_iff (t : CoverFlags) {bufs : List UspCover} {table table' : DedupTable} {covs : List Cover}
    (emitted : t.emit bufs table = some (covs, table')) (th : Thread) (index : th.callIndex = -1) {n : UInt32}
    {body : List UInt8} {r r' : Region} (counts : Counts n body r) (wrote : collectSrvCover t th bufs table r = some r')
    (config : FuzzerConfig) (nums : List Nat) (idx i : Nat) (st : Received) :
    ∃ bytes part, Counts (n + 1) (body ++ bytes) r' ∧
      Reads (receiveReply config nums idx i st) bytes { st with extraParts := st.extraParts ++ [part] } ∧
      (Apart t.flagCollectCover covs part ↔
        Cover.stream t.flagCollectCover covs = Cover.signals covs ++ Cover.pcs t.flagCollectCover covs) ∧
      (NoLateSignal t.flagCollectCover covs → Apart t.flagCollectCover covs part) := by
  obtain ⟨info, counted, reads⟩ := reads_serverRecord t emitted th index counts wrote config nums idx i st
  exact ⟨_, _, counted, reads, apart_iff, fun none => apart_iff.mpr (stream_of_noLateSignal none)⟩

def userspace : CoverFlags where
  flagCoverage := true
  flagComparisons := false
  flagCollectCover := true
  flagDedupCover := false
  isKernel64 := true
  inUserspace := true
  coverageFilter _ := true
  useCoverEdges _ := none

def uspCover (pc : UInt64) : UspCover := ⟨some [pc], 0⟩

/-- What is written for such a buffer: the first edge starts at the program counter 0. -/
def firstEdge (pc : UInt32) : Cover := ⟨[pc ^^^ hash 0], [pc]⟩

/-- The placeholder of `collect_srv_cover`. -/
def placeholder : Thread := ⟨-1, 0, 0, 0, false, false, none, 10, 11, ⟨[], []⟩⟩

def countedRegion : Region := ⟨fun _ => 0, 4, 1, 0⟩

theorem countedRegion_counts : Counts 0 [] countedRegion := ⟨by decide, rfl⟩

/-- The edge of the second buffer is known from the first one, so only its program counter is left. -/
theorem emit_sameCovers :
    ∃ table', userspace.emit [uspCover 7, uspCover 7] (fun _ => 0) = some ([firstEdge 7, ⟨[], [7]⟩], table') := ⟨_, rfl⟩

theorem emit_uspCovers :
    ∃ table', userspace.emit [uspCover 7, uspCover 9] (fun _ => 0) = some ([firstEdge 7, firstEdge 9], table') := ⟨_, rfl⟩

theorem writes_of_isSome {bufs : List UspCover} {table table' : DedupTable}
    (emitted : userspace.emit bufs table = some (covs, table'))
    (runs : (writeServerOutput true placeholder covs countedRegion).isSome = true) :
    ∃ r', collectSrvCover userspace placeholder bufs table countedRegion = some r' := by
  rw [collectSrvCover, emitted, Option.bind_some]
  exact Option.isSome_iff_exists.mp runs

theorem serverCover_apart_two :
    ∃ r' bytes part, collectSrvCover userspace placeholder [uspCover 7, uspCover 7] (fun _ => 0) countedRegion = some r' ∧
      Counts 1 bytes r' ∧ Reads (receiveReply ⟨1, false⟩ [] 0 0 ⟨[], [], []⟩) bytes ⟨[], [part], []⟩ ∧
      Apart true [firstEdge 7, ⟨[], [7]⟩] part := by
  obtain ⟨table', emitted⟩ := emit_sameCovers
  obtain ⟨r', wrote⟩ := writes_of_isSome emitted (by decide +kernel)
  obtain ⟨bytes, part, counted, reads, apart, -⟩ := serverCover_apart_iff userspace emitted placeholder rfl
    countedRegion_counts wrote ⟨1, false⟩ [] 0 0 ⟨[], [], []⟩
  exact ⟨r', bytes, part, wrote, counted, reads, apart.mpr (by decide +kernel)⟩

/-- The signal of the second buffer is read as a program counter, and the program counter of the first as a signal. -/
theorem serverCover_mixed_two :
    ∃ r' bytes part, collectSrvCover userspace placeholder [uspCover 7, uspCover 9] (fun _ => 0) countedRegion = some r' ∧
      Counts 1 bytes r' ∧ Reads (receiveReply ⟨1, false⟩ [] 0 0 ⟨[], [], []⟩) bytes ⟨[], [part], []⟩ ∧
      ¬ Apart true [firstEdge 7, firstEdge 9] part := by
  obtain ⟨table', emitted⟩ := emit_uspCovers
  obtain ⟨r', wrote⟩ := writes_of_isSome emitted (by decide +kernel)
  obtain ⟨info, counted, reads⟩ := reads_serverRecord userspace emitted placeholder rfl countedRegion_counts wrote
    ⟨1, false⟩ [] 0 0 ⟨[], [], []⟩
  have mixed : ¬ Apart true [firstEdge 7, firstEdge 9]
      ((serverRecord true placeholder [firstEdge 7, firstEdge 9] info).callInfo false) :=
    fun apart => absurd (apart_iff.mp apart) (by decide +kernel)
  rw [List.nil_append] at counted
  exact ⟨r', _, _, wrote, counted, reads, mixed⟩

end DfsFuzz.Output
