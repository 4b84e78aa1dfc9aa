import DfsFuzz.Lib.ByteImage

/-!
The executor's side of the output region: `write_output`, `write_call_output` and
`write_extra_output`. The counts of a record are written as zero and patched once its payload is
behind them; the number of records is the first word of the region.
-/

namespace DfsFuzz.Output

open Bytes

def kMaxOutput : Nat := 16777216

def INFOLIMIT : Nat := 144

def callFlagExecuted : UInt32 := 1
def callFlagFinished : UInt32 := 2
def callFlagBlocked : UInt32 := 4
def callFlagFaultInjected : UInt32 := 8

/-- The region from `output_data` on, with the process's `output_pos` (in bytes) and `completed` and
the shared `*output_pos_value` (in words). -/
structure Region where
  data : Image
  pos : Nat
  posValue : Nat
  completed : UInt32

namespace Region

def written (r : Region) : List UInt8 := r.data.slice 0 r.pos

/-- A copy to `output_pos`, which then stands behind it. -/
def put (r : Region) (bs : List UInt8) : Region :=
  { r with data := r.data.store r.pos bs, pos := r.pos + bs.length }

def patch (r : Region) (place : Nat) (v : UInt32) : Region := { r with data := r.data.store place (le32 v) }

/-- `*output_pos_value = output_pos - output_data`, a difference of word pointers. -/
def savePos (r : Region) : Region := { r with posValue := r.pos / 4 }

def writeOutput (v : UInt32) (r : Region) : Option Region :=
  if kMaxOutput ≤ r.pos then none else some (r.put (le32 v)).savePos

def occupyNbytes (n : Nat) (r : Region) : Option Region :=
  if kMaxOutput ≤ r.pos then none else some { r with pos := r.pos + n }

def writeOutput64 (v : UInt64) (r : Region) : Option Region :=
  if kMaxOutput ≤ r.pos + 4 then none else some (r.put (le64 v)).savePos

def readCompleted (r : Region) : UInt32 := UInt32.ofNat (ofLe (r.data.slice 0 4))

def writeCompleted (r : Region) (completed : UInt32) : Region := r.patch 0 completed

def writeAll (vs : List UInt32) (r : Region) : Option Region := vs.foldlM (fun r v => r.writeOutput v) r

end Region

structure Config where
  isDfsClient : Bool
  flagCoverage : Bool
  flagExtraCoverage : Bool
  flagCollectCover : Bool

/-- What `write_coverage_signal` writes for a coverage buffer: the signal left by the filter and the
deduplication table, and the program counters. -/
structure Cover where
  signal : List UInt32
  cover : List UInt32

structure Thread where
  callIndex : UInt32
  callNum : UInt32
  res : UInt64
  reserrno : UInt32
  faultInjected : Bool
  lastScheduled : Bool
  /-- What the switch over `sys_nr` stores: the type and the bytes copied to `info`. -/
  info : Option (UInt32 × List UInt8)
  stime : UInt64
  etime : UInt64
  cov : Cover

def writeCoverageSignal (c : Config) (cov : Cover) (signalCountPos coverCountPos : Nat) (r : Region) :
    Option Region := do
  let r ← r.writeAll cov.signal
  let r := r.patch signalCountPos (UInt32.ofNat cov.signal.length)
  if c.flagCollectCover then
    let r ← r.writeAll cov.cover
    return r.patch coverCountPos (UInt32.ofNat cov.cover.length)
  else return r

/-- The fixed part of a record up to the flags, common to calls and extra coverage. -/
structure Header where
  index : UInt32
  num : UInt32
  errno : UInt32
  info : Option (UInt32 × List UInt8)
  stime : UInt64
  etime : UInt64
  flags : UInt32

def storeInfo (infotypePos infoPos : Nat) (info : Option (UInt32 × List UInt8)) (r : Region) : Region :=
  info.elim r fun (infotype, payload) =>
    { r.patch infotypePos infotype with data := (r.patch infotypePos infotype).data.store infoPos payload }

def writeHeader (h : Header) (r : Region) : Option Region := do
  let r ← r.writeOutput h.index
  let r ← r.writeOutput h.num
  let r ← r.writeOutput h.errno
  let infotypePos := r.pos
  let r ← r.writeOutput (-1)
  let infoPos := r.pos
  let r ← r.occupyNbytes INFOLIMIT
  let r := storeInfo infotypePos infoPos h.info r
  let r ← r.writeOutput64 h.stime
  let r ← r.writeOutput64 h.etime
  r.writeOutput h.flags

def replyErrno (finished : Bool) (th : Thread) : UInt32 :=
  if finished then (if th.res ≠ -1 then 0 else th.reserrno) else 999

def replyFlags (finished : Bool) (th : Thread) : UInt32 :=
  let blocked := finished && !th.lastScheduled
  let flags := callFlagExecuted ||| (if blocked then callFlagBlocked else 0)
  if finished then flags ||| (callFlagFinished ||| (if th.faultInjected then callFlagFaultInjected else 0))
  else flags

/-- Only clients write the coverage of each call. -/
def writeCallCover (c : Config) (cov : Cover) (signalCountPos coverCountPos : Nat) (r : Region) : Option Region :=
  if c.isDfsClient && c.flagCoverage then writeCoverageSignal c cov signalCountPos coverCountPos r else some r

/-- `write_call_output` without server coverage (`usp_covers` is null) and with comparisons off. -/
def writeCallOutput (c : Config) (th : Thread) (finished : Bool) (r : Region) : Option Region := do
  let r := { r with completed := r.readCompleted }
  let r ← writeHeader ⟨th.callIndex, th.callNum, replyErrno finished th, th.info, th.stime, th.etime,
    replyFlags finished th⟩ r
  let signalCountPos := r.pos
  let r ← r.writeOutput 0
  let coverCountPos := r.pos
  let r ← r.writeOutput 0
  let r ← r.writeOutput 0
  let r ← writeCallCover c th.cov signalCountPos coverCountPos r
  let r ← r.writeOutput64 th.res
  let r := { r with completed := r.completed + 1 }
  return r.writeCompleted r.completed

/-- `write_extra_output` with comparisons off; `extraCov` is `none` when no extra coverage was
collected. -/
def writeExtraOutput (c : Config) (extraCov : Option Cover) (r : Region) : Option Region :=
  if !c.flagCoverage || !c.flagExtraCoverage || !c.isDfsClient then some r
  else
    extraCov.elim (some r) fun cov => do
      let r ← writeHeader ⟨-1, -1, 999, some (-1, List.replicate INFOLIMIT 0), 0, 0, 0⟩ r
      let signalCountPos := r.pos
      let r ← r.writeOutput 0
      let coverCountPos := r.pos
      let r ← r.writeOutput 0
      let r ← r.writeOutput 0
      let r ← writeCoverageSignal c cov signalCountPos coverCountPos r
      let r := { r with completed := r.completed + 1 }
      let r := r.writeCompleted r.completed
      r.writeOutput64 0

structure Record where
  index : UInt32
  num : UInt32
  errno : UInt32
  infotype : UInt32
  info : List UInt8
  stime : UInt64
  etime : UInt64
  flags : UInt32
  signal : List UInt32
  cover : List UInt32
  ret : UInt64

namespace Record

def headerBytes (rec : Record) : List UInt8 :=
  le32 rec.index ++ (le32 rec.num ++ (le32 rec.errno ++ (le32 rec.infotype ++ (rec.info ++
    (le64 rec.stime ++ (le64 rec.etime ++ le32 rec.flags))))))

def countBytes (rec : Record) : List UInt8 :=
  le32 (UInt32.ofNat rec.signal.length) ++ (le32 (UInt32.ofNat rec.cover.length) ++ le32 0)

def bytes (rec : Record) : List UInt8 :=
  rec.headerBytes ++ (rec.countBytes ++ (words rec.signal ++ (words rec.cover ++ le64 rec.ret)))

end Record

def Cover.collected (c : Config) (cov : Cover) : List UInt32 := if c.flagCollectCover then cov.cover else []

def Thread.record (c : Config) (th : Thread) (finished : Bool) (info : List UInt8) : Record where
  index := th.callIndex
  num := th.callNum
  errno := replyErrno finished th
  infotype := (th.info.map Prod.fst).getD (-1)
  info
  stime := th.stime
  etime := th.etime
  flags := replyFlags finished th
  signal := if c.isDfsClient && c.flagCoverage then th.cov.signal else []
  cover := if c.isDfsClient && c.flagCoverage then th.cov.collected c else []
  ret := th.res

def Cover.extraRecord (c : Config) (cov : Cover) (info : List UInt8) : Record where
  index := -1
  num := -1
  errno := 999
  infotype := -1
  info
  stime := 0
  etime := 0
  flags := 0
  signal := cov.signal
  cover := cov.collected c
  ret := 0

namespace Region

variable {r r' : Region}

@[simp] theorem length_written (r : Region) : r.written.length = r.pos := Image.length_slice r.data 0 r.pos

theorem written_put (r : Region) (bs : List UInt8) : (r.put bs).written = r.written ++ bs := by
  have front := Image.slice_store_before r.data bs (Nat.le_of_eq (Nat.zero_add r.pos))
  rw [written, written, put, Image.slice_add, front, Nat.zero_add, Image.slice_store_self]

/-- A patch replaces the word at its place and nothing else of what is written. -/
theorem written_patch {before behind : List UInt8} {old : UInt32} (v : UInt32)
    (known : r.written = before ++ (le32 old ++ behind)) :
    (r.patch before.length v).written = before ++ (le32 v ++ behind) := by
  have size : r.pos = before.length + ((le32 old).length + behind.length) := by
    rw [← length_written, known]
    simp
  rw [written, size] at known
  rw [written, patch, size]
  exact Image.slice_patch r.data (by simp) known

structure Appends (r : Region) (bs : List UInt8) (r' : Region) : Prop where
  written : r'.written = r.written ++ bs
  completed : r'.completed = r.completed
  posValue : r'.posValue = r'.pos / 4

theorem Appends.trans {r'' : Region} {bs bs' : List UInt8} (first : Appends r bs r') (second : Appends r' bs' r'') :
    Appends r (bs ++ bs') r'' where
  written := by rw [second.written, first.written, List.append_assoc]
  completed := second.completed.trans first.completed
  posValue := second.posValue

theorem writeOutput_appends {v : UInt32} (wrote : r.writeOutput v = some r') : Appends r (le32 v) r' := by
  unfold writeOutput at wrote
  split at wrote
  · cases wrote
  · obtain rfl := Option.some.inj wrote
    exact ⟨written_put r (le32 v), rfl, rfl⟩

theorem writeOutput64_appends {v : UInt64} (wrote : r.writeOutput64 v = some r') : Appends r (le64 v) r' := by
  unfold writeOutput64 at wrote
  split at wrote
  · cases wrote
  · obtain rfl := Option.some.inj wrote
    exact ⟨written_put r (le64 v), rfl, rfl⟩

/-- Writes one behind the other, each of which appends the bytes of its value. -/
theorem foldlM_appends {α : Type} {write : α → Region → Option Region} {bytes : α → List UInt8} {vs : List α}
    (step : ∀ v ∈ vs, ∀ r r', r.posValue = r.pos / 4 → write v r = some r' → Appends r (bytes v) r')
    (wrote : vs.foldlM (fun r v => write v r) r = some r') (saved : r.posValue = r.pos / 4) :
    Appends r (vs.flatMap bytes) r' := by
  induction vs generalizing r with
  | nil =>
    obtain rfl := Option.some.inj wrote
    exact ⟨(List.append_nil r.written).symm, rfl, saved⟩
  | cons v vs ih =>
    rw [List.foldlM_cons] at wrote
    obtain ⟨r1, one, rest⟩ := Option.bind_eq_some_iff.mp wrote
    have first := step v List.mem_cons_self r r1 saved one
    have others := fun v member => step v (List.mem_cons_of_mem _ member)
    exact first.trans (ih others rest first.posValue)

theorem writeAll_appends {vs : List UInt32} (wrote : r.writeAll vs = some r') (saved : r.posValue = r.pos / 4) :
    Appends r (words vs) r' :=
  foldlM_appends (fun _ _ _ _ _ one => writeOutput_appends one) wrote saved

end Region

open Region

variable {c : Config} {r r' : Region}

theorem storeInfo_completed (infotypePos infoPos : Nat) (info : Option (UInt32 × List UInt8)) (r : Region) :
    (storeInfo infotypePos infoPos info r).completed = r.completed ∧
      (storeInfo infotypePos infoPos info r).pos = r.pos := by
  cases info <;> exact ⟨rfl, rfl⟩

/-- What was stored stands at the front of the info bytes, when it fits there. -/
def InfoHolds (stored : Option (UInt32 × List UInt8)) (info : List UInt8) : Prop :=
  ∀ infotype payload, stored = some (infotype, payload) → payload.length ≤ info.length → payload <+: info

/-- The info bytes may be any, also bytes of an earlier round; only the type before them is set. -/
theorem storeInfo_written {before info : List UInt8} (payload : Option (UInt32 × List UInt8))
    (known : r.written = before ++ (le32 (-1) ++ info)) :
    ∃ info', info'.length = info.length ∧
      (storeInfo before.length (before.length + 4) payload r).written =
        before ++ (le32 ((payload.map Prod.fst).getD (-1)) ++ info') ∧ InfoHolds payload info' := by
  cases payload with
  | none => exact ⟨info, rfl, known, nofun⟩
  | some typed =>
    obtain ⟨infotype, payload⟩ := typed
    have patched := written_patch infotype known
    have size : r.pos = before.length + 4 + info.length := by
      rw [← length_written, known]
      simp [Nat.add_assoc]
    let stored := (r.patch before.length infotype).data.store (before.length + 4) payload
    have holds : InfoHolds (some (infotype, payload)) (stored.slice (before.length + 4) info.length) := by
      rintro _ _ ⟨rfl, rfl⟩ fits
      rw [Image.length_slice] at fits
      obtain ⟨more, total⟩ := Nat.exists_eq_add_of_le fits
      have own : stored.slice (before.length + 4) payload.length = payload := Image.slice_store_self _ _ payload
      rw [total, Image.slice_add, own]
      exact List.prefix_append payload _
    refine ⟨stored.slice (before.length + 4) info.length, Image.length_slice stored _ _, ?_, holds⟩
    have front : stored.slice 0 (before.length + 4) = before ++ le32 infotype := by
      have whole : (r.patch before.length infotype).data.slice 0 (before.length + 4 + info.length) =
          (before ++ le32 infotype) ++ info := by
        rw [List.append_assoc, ← patched, written, ← size]
        rfl
      rw [Image.slice_add] at whole
      exact (Image.slice_store_before _ payload (by omega)).trans (List.append_inj whole (by simp)).1
    change stored.slice 0 r.pos = _
    rw [size, Image.slice_add, front, Nat.zero_add, List.append_assoc]
    rfl

def Header.bytes (h : Header) (info : List UInt8) : List UInt8 :=
  le32 h.index ++ (le32 h.num ++ (le32 h.errno ++ (le32 ((h.info.map Prod.fst).getD (-1)) ++ (info ++
    (le64 h.stime ++ (le64 h.etime ++ le32 h.flags))))))

theorem writeHeader_appends {h : Header} (wrote : writeHeader h r = some r') :
    ∃ info, info.length = INFOLIMIT ∧ Appends r (h.bytes info) r' ∧ InfoHolds h.info info := by
  simp only [writeHeader, Option.bind_eq_bind, Option.bind_eq_some_iff] at wrote
  obtain ⟨r1, index, r2, num, r3, errno, r4, infotype, r5, occupied, r6, stime, r7, etime, flags⟩ := wrote
  have three := ((writeOutput_appends index).trans (writeOutput_appends num)).trans (writeOutput_appends errno)
  have four := writeOutput_appends infotype
  have place : r4.pos = r3.written.length + 4 := by
    rw [← length_written, four.written]
    simp
  obtain ⟨info, known, kept⟩ : ∃ info, info.length = INFOLIMIT ∧
      r5.written = r3.written ++ (le32 (-1) ++ info) ∧ r5.completed = r4.completed := by
    unfold occupyNbytes at occupied
    split at occupied
    · cases occupied
    · obtain rfl := Option.some.inj occupied
      refine ⟨r4.data.slice r4.pos INFOLIMIT, Image.length_slice r4.data _ _, ?_, rfl⟩
      have front : r4.data.slice 0 r4.pos = r3.written ++ le32 (-1) := four.written
      rw [written, Image.slice_add, front, Nat.zero_add, List.append_assoc]
  obtain ⟨info', same, stored, holds⟩ := storeInfo_written h.info kept.1
  rw [← place, length_written] at stored
  refine ⟨info', same.trans known, ?_, holds⟩
  have last := ((writeOutput64_appends stime).trans (writeOutput64_appends etime)).trans (writeOutput_appends flags)
  refine ⟨?_, ?_, last.posValue⟩
  · rw [last.written, stored, three.written]
    simp only [Header.bytes, List.append_assoc]
  · rw [last.completed, (storeInfo_completed _ _ _ _).1, kept.2, four.completed, three.completed]

/-- The three counts stand as zero before the payload and are patched behind it. -/
theorem writeCoverageSignal_written {cov : Cover} {before : List UInt8} (saved : r.posValue = r.pos / 4)
    (known : r.written = before ++ (le32 0 ++ (le32 0 ++ le32 0)))
    (wrote : writeCoverageSignal c cov before.length (before.length + 4) r = some r') :
    r'.written = before ++ (le32 (UInt32.ofNat cov.signal.length) ++
        (le32 (UInt32.ofNat (cov.collected c).length) ++ (le32 0 ++ (words cov.signal ++ words (cov.collected c))))) ∧
      r'.completed = r.completed ∧ r'.posValue = r'.pos / 4 := by
  simp only [writeCoverageSignal, Option.bind_eq_bind, Option.bind_eq_some_iff] at wrote
  obtain ⟨r1, signal, rest⟩ := wrote
  have one := writeAll_appends signal saved
  have counted := written_patch (UInt32.ofNat cov.signal.length)
    (show r1.written = before ++ (le32 0 ++ (le32 0 ++ (le32 0 ++ words cov.signal))) by
      rw [one.written, known]
      simp only [List.append_assoc])
  split at rest
  next collect =>
    have all : cov.collected c = cov.cover := if_pos collect
    simp only [Option.bind_eq_some_iff] at rest
    obtain ⟨r2, cover, last⟩ := rest
    obtain rfl := Option.some.inj last
    have two := writeAll_appends cover (r := r1.patch before.length (UInt32.ofNat cov.signal.length)) one.posValue
    have both := written_patch (r := r2) (UInt32.ofNat cov.cover.length)
      (show r2.written = (before ++ le32 (UInt32.ofNat cov.signal.length)) ++
          (le32 0 ++ (le32 0 ++ (words cov.signal ++ words cov.cover))) by
        rw [two.written, counted]
        simp only [List.append_assoc])
    rw [List.length_append, length_le32] at both
    refine ⟨?_, two.completed.trans one.completed, two.posValue⟩
    rw [both, all]
    simp only [List.append_assoc]
  next skip =>
    have none : cov.collected c = [] := if_neg skip
    obtain rfl := Option.some.inj rest
    refine ⟨?_, one.completed, one.posValue⟩
    rw [counted, none]
    simp [words]

/-- The region holds the number of records and, behind it, `body`. -/
structure Counts (n : UInt32) (body : List UInt8) (r : Region) : Prop where
  written : r.written = le32 n ++ body
  saved : r.posValue = r.pos / 4

theorem Counts.readCompleted {n : UInt32} {body : List UInt8} (counts : Counts n body r) : r.readCompleted = n := by
  have size : r.pos = 4 + body.length := by
    rw [← length_written, counts.written]
    simp
  have whole := counts.written
  rw [Region.written, size, Image.slice_add] at whole
  rw [Region.readCompleted, (List.append_inj whole (by simp)).1, ofLe_le32]

theorem Counts.writeCompleted {n : UInt32} {body : List UInt8} (counts : Counts n body r) (m : UInt32) :
    Counts m body (r.writeCompleted m) := by
  have known : r.written = [] ++ (le32 n ++ body) := counts.written
  exact ⟨written_patch m known, counts.saved⟩

theorem counts_payload {cov : Cover} {collect : Bool} {r1 r2 r3 r4 : Region}
    (one : r.writeOutput 0 = some r1) (two : r1.writeOutput 0 = some r2) (three : r2.writeOutput 0 = some r3)
    (payload : (if collect then writeCoverageSignal c cov r.pos r1.pos r3 else some r3) = some r4) :
    r4.written = r.written ++ (le32 (UInt32.ofNat (if collect then cov.signal else []).length) ++
        (le32 (UInt32.ofNat (if collect then cov.collected c else []).length) ++ (le32 0 ++
          (words (if collect then cov.signal else []) ++ words (if collect then cov.collected c else []))))) ∧
      r4.completed = r.completed ∧ r4.posValue = r4.pos / 4 := by
  have first := writeOutput_appends one
  have zeros := (first.trans (writeOutput_appends two)).trans (writeOutput_appends three)
  have known : r3.written = r.written ++ (le32 0 ++ (le32 0 ++ le32 0)) := by
    rw [zeros.written]
    simp only [List.append_assoc]
  cases collect with
  | false =>
    obtain rfl := Option.some.inj payload
    exact ⟨known.trans (by simp [words]), zeros.completed, zeros.posValue⟩
  | true =>
    have place : r1.pos = r.pos + 4 := by
      rw [← length_written r1, first.written]
      simp
    rw [if_pos rfl, place, ← length_written r] at payload
    obtain ⟨whole, completed, saved⟩ := writeCoverageSignal_written zeros.posValue known payload
    exact ⟨whole, completed.trans zeros.completed, saved⟩

/-- A call's record goes to the end of the region and the count grows by one. -/
theorem writeCallOutput_counts {th : Thread} {finished : Bool} {n : UInt32} {body : List UInt8}
    (counts : Counts n body r) (wrote : writeCallOutput c th finished r = some r') :
    ∃ info, info.length = INFOLIMIT ∧ Counts (n + 1) (body ++ (th.record c finished info).bytes) r' ∧
      r'.completed = n + 1 ∧ InfoHolds th.info info := by
  simp only [writeCallOutput, Option.bind_eq_bind, Option.bind_eq_some_iff] at wrote
  obtain ⟨r1, header, r2, one, r3, two, r4, three, r5, payload, r6, ret, last⟩ := wrote
  obtain ⟨info, size, start, holds⟩ := writeHeader_appends header
  obtain ⟨whole, completed, saved⟩ := counts_payload one two three payload
  have returned := writeOutput64_appends ret
  have counted : r6.completed + 1 = n + 1 := by
    rw [returned.completed, completed, start.completed]
    exact congrArg (· + 1) counts.readCompleted
  obtain rfl := Option.some.inj last
  have behind : Counts n (body ++ (th.record c finished info).bytes) r6 := by
    refine ⟨?_, returned.posValue⟩
    have before : ({ r with completed := r.readCompleted } : Region).written = le32 n ++ body := counts.written
    rw [returned.written, whole, start.written, before]
    simp only [Record.bytes, Record.headerBytes, Record.countBytes, Thread.record, Header.bytes, List.append_assoc]
  have bumped := behind.writeCompleted (r6.completed + 1)
  rw [counted] at bumped
  exact ⟨info, size, ⟨counted ▸ bumped.written, bumped.saved⟩, counted, holds⟩

theorem writeExtraOutput_counts {extraCov : Option Cover} {n : UInt32} {body : List UInt8}
    (counts : Counts n body r) (completed : r.completed = n) (wrote : writeExtraOutput c extraCov r = some r') :
    r' = r ∨ ∃ cov info, info.length = INFOLIMIT ∧ extraCov = some cov ∧
      Counts (n + 1) (body ++ (cov.extraRecord c info).bytes) r' ∧ r'.completed = n + 1 := by
  unfold writeExtraOutput at wrote
  split at wrote
  next => exact .inl (Option.some.inj wrote).symm
  next =>
    cases extraCov with
    | none => exact .inl (Option.some.inj wrote).symm
    | some cov =>
      right
      simp only [Option.elim_some, Option.bind_eq_bind, Option.bind_eq_some_iff] at wrote
      obtain ⟨r1, header, r2, one, r3, two, r4, three, r5, payload, ret⟩ := wrote
      obtain ⟨info, size, start, _⟩ := writeHeader_appends header
      have collected : (if true then writeCoverageSignal c cov r1.pos r2.pos r4 else some r4) = some r5 := payload
      obtain ⟨whole, kept, saved⟩ := counts_payload one two three collected
      have counted : r5.completed + 1 = n + 1 := by rw [kept, start.completed, completed]
      have returned := writeOutput64_appends ret
      have before : Counts n (body ++ (cov.extraRecord c info).headerBytes ++ ((cov.extraRecord c info).countBytes ++
          (words cov.signal ++ words (cov.collected c)))) r5 := by
        refine ⟨?_, saved⟩
        rw [whole, start.written, counts.written]
        simp only [Record.headerBytes, Record.countBytes, Cover.extraRecord, Header.bytes, List.append_assoc,
          if_true, Option.map_some, Option.getD_some]
      have bumped := (before.writeCompleted (r5.completed + 1)).written
      refine ⟨cov, info, size, rfl, ⟨?_, returned.posValue⟩, returned.completed.trans counted⟩
      rw [returned.written]
      calc _ = (r5.writeCompleted (r5.completed + 1)).written ++ le64 0 := rfl
        _ = _ := by
          rw [bumped, counted]
          simp only [Record.bytes, Cover.extraRecord, List.append_assoc]

/-- A write that ends `n` bytes on, which it does where the region has room for them. -/
def Advances (w : Region → Option Region) (n : Nat) : Prop :=
  ∀ r, r.pos + n ≤ kMaxOutput → ∃ r', w r = some r' ∧ r'.pos = r.pos + n

theorem writeOutput_advances (v : UInt32) : Advances (Region.writeOutput v) 4 := by
  intro r room
  exact ⟨_, if_neg (by omega), by simp [Region.savePos, Region.put]⟩

theorem writeOutput64_advances (v : UInt64) : Advances (Region.writeOutput64 v) 8 := by
  intro r room
  exact ⟨_, if_neg (by omega), by simp [Region.savePos, Region.put]⟩

theorem writeHeader_advances (h : Header) : Advances (writeHeader h) 180 := by
  intro r room
  obtain ⟨r1, index, p1⟩ := writeOutput_advances h.index r (by omega)
  obtain ⟨r2, num, p2⟩ := writeOutput_advances h.num r1 (by omega)
  obtain ⟨r3, errno, p3⟩ := writeOutput_advances h.errno r2 (by omega)
  obtain ⟨r4, infotype, p4⟩ := writeOutput_advances (-1) r3 (by omega)
  have occupied : r4.occupyNbytes INFOLIMIT = some { r4 with pos := r4.pos + INFOLIMIT } := if_neg (by omega)
  have p5 := (storeInfo_completed r3.pos r4.pos h.info { r4 with pos := r4.pos + INFOLIMIT }).2
  simp only [INFOLIMIT] at p5
  obtain ⟨r6, stime, p6⟩ := writeOutput64_advances h.stime
    (storeInfo r3.pos r4.pos h.info { r4 with pos := r4.pos + INFOLIMIT }) (by simp only [INFOLIMIT]; omega)
  obtain ⟨r7, etime, p7⟩ := writeOutput64_advances h.etime r6 (by simp only [INFOLIMIT] at p6; omega)
  obtain ⟨r8, flags, p8⟩ := writeOutput_advances h.flags r7 (by simp only [INFOLIMIT] at p6; omega)
  refine ⟨r8, ?_, by simp only [INFOLIMIT] at p6; omega⟩
  simp only [writeHeader, Option.bind_eq_bind, index, num, errno, infotype, occupied, stime, etime, flags,
    Option.bind_some]

theorem writeCallOutput_advances (th : Thread) (finished : Bool) (quiet : (c.isDfsClient && c.flagCoverage) = false) :
    Advances (writeCallOutput c th finished) 200 := by
  intro r room
  obtain ⟨r1, header, p1⟩ := writeHeader_advances ⟨th.callIndex, th.callNum, replyErrno finished th, th.info,
    th.stime, th.etime, replyFlags finished th⟩ { r with completed := r.readCompleted } (by simp only; omega)
  simp only at p1
  obtain ⟨r2, one, p2⟩ := writeOutput_advances 0 r1 (by omega)
  obtain ⟨r3, two, p3⟩ := writeOutput_advances 0 r2 (by omega)
  obtain ⟨r4, three, p4⟩ := writeOutput_advances 0 r3 (by omega)
  have silent : writeCallCover c th.cov r1.pos r2.pos r4 = some r4 := if_neg (by simp [quiet])
  obtain ⟨r5, ret, p5⟩ := writeOutput64_advances th.res r4 (by omega)
  refine ⟨Region.writeCompleted { r5 with completed := r5.completed + 1 } (r5.completed + 1), ?_, ?_⟩
  · simp only [writeCallOutput, Option.bind_eq_bind, header, one, two, three, silent, ret, Option.bind_some,
      Option.pure_def]
  · simp only [Region.writeCompleted, Region.patch]
    omega

end DfsFuzz.Output
