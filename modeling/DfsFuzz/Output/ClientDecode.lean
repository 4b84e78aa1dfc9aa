import DfsFuzz.Output.ClientStream

/-!
What `parseClientOutput` makes of the stream of a client: each reply in the slot of its call, the trace
and the map of the metadata.
-/

namespace DfsFuzz.Output

open Bytes ByteReader

variable {c : Config} {crc32 : List UInt8 → UInt32} {config : FuzzerConfig} {nums : List Nat} {idx : Nat}

/-- The records of a list of items; extra coverage that was not collected has none. -/
inductive Wrote (c : Config) (crc32 : List UInt8 → UInt32) : List Item → List Record → Prop
  | nil : Wrote c crc32 [] []
  | call {th sys finished info items recs} (size : info.length = INFOLIMIT)
      (holds : InfoHolds (th.withInfo crc32 sys).info info) (rest : Wrote c crc32 items recs) :
      Wrote c crc32 (.call th sys finished :: items) ((th.withInfo crc32 sys).record c finished info :: recs)
  | extra {cov info items recs} (size : info.length = INFOLIMIT) (rest : Wrote c crc32 items recs) :
      Wrote c crc32 (.extra (some cov) :: items) (Cover.extraRecord c cov info :: recs)
  | silent {extraCov items recs} (rest : Wrote c crc32 items recs) : Wrote c crc32 (.extra extraCov :: items) recs

theorem writeItems_counts {items : List Item} {n : UInt32} {body : List UInt8} {r r' : Region}
    (counts : Counts n body r) (completed : r.completed = n)
    (wrote : items.foldlM (fun r item => item.write c crc32 r) r = some r') :
    ∃ recs, Wrote c crc32 items recs ∧ Counts (n + UInt32.ofNat recs.length) (body ++ recs.flatMap Record.bytes) r' := by
  induction items generalizing n body r with
  | nil =>
    obtain rfl := Option.some.inj wrote
    refine ⟨[], .nil, ?_⟩
    rw [List.flatMap_nil, List.append_nil]
    exact (UInt32.add_zero n).symm ▸ counts
  | cons item items ih =>
    rw [List.foldlM_cons] at wrote
    obtain ⟨r1, one, rest⟩ := Option.bind_eq_some_iff.mp wrote
    have longer : ∀ recs : List Record, n + 1 + UInt32.ofNat recs.length = n + UInt32.ofNat (recs.length + 1) := by
      intro recs
      rw [UInt32.ofNat_add, UInt32.add_assoc]
      exact congrArg (n + ·) (UInt32.add_comm 1 _)
    cases item with
    | call th sys finished =>
      obtain ⟨info, size, bumped, more, holds⟩ := writeCallOutput_counts counts one
      obtain ⟨recs, others, whole⟩ := ih bumped more rest
      refine ⟨_, .call size holds others, ?_⟩
      rw [List.length_cons, ← longer, List.flatMap_cons, ← List.append_assoc]
      exact whole
    | extra extraCov =>
      rcases writeExtraOutput_counts counts completed one with rfl | ⟨cov, info, size, rfl, bumped, more⟩
      · obtain ⟨recs, others, whole⟩ := ih counts completed rest
        exact ⟨recs, .silent others, whole⟩
      · obtain ⟨recs, others, whole⟩ := ih bumped more rest
        refine ⟨_, .extra size others, ?_⟩
        rw [List.length_cons, ← longer, List.flatMap_cons, ← List.append_assoc]
        exact whole

def Item.index : Item → Option UInt32
  | call th _ _ => some th.callIndex
  | extra _ => none

/-- What the slot of a call holds once its reply was read. -/
def Thread.callInfo (c : Config) (th : Thread) (finished : Bool) : CallInfo where
  flags := replyFlags finished th
  signal := if c.isDfsClient && c.flagCoverage then th.cov.signal else []
  cover := if c.isDfsClient && c.flagCoverage then th.cov.collected c else []
  errno := (replyErrno finished th).toNat

/-- The reply to the call is in its slot, its times and its value in the `CheckInfo` of the call. -/
def Answered (c : Config) (th : Thread) (finished : Bool) (calls : List CallInfo)
    (checks : List (Option FileMetadata)) : Prop :=
  calls[th.callIndex.toNat]? = some (th.callInfo c finished) ∧
    ∃ md, checks[th.callIndex.toNat]? = some (some md) ∧ md.stime = th.stime ∧ md.etime = th.etime ∧
      md.retv = th.res.toInt64

/-- No reply was read yet for the call at `index`, and the writer has its number. -/
structure Blank (nums : List Nat) (th : Thread) (st : Received) : Prop where
  call : st.calls[th.callIndex.toNat]? = some {}
  check : st.checks[th.callIndex.toNat]? = some none
  num : nums[th.callIndex.toNat]? = some th.callNum.toNat
  own : th.callIndex ≠ extraReplyIndex

theorem reads_record {rec : Record} (framed : rec.Framed) {α : Type} (i : Nat) (f : CallReply → Reader α) (a : α)
    (behind : Reads (f rec.reply) (words rec.signal ++ (words rec.cover ++ ([] ++ (le64 rec.ret ++ [])))) a) :
    Reads (readCallReply i >>= f) rec.bytes a := by
  have whole := (Record.reads_callReply framed i).bind behind
  simpa only [Record.bytes, List.append_assoc, List.append_nil, List.nil_append] using whole

variable {rec : Record} {st : Received}

def Record.callInfo (rec : Record) (own : Bool) : CallInfo where
  flags := if own then rec.flags else 0
  signal := rec.signal
  cover := rec.cover
  errno := if own then rec.errno.toNat else 0

theorem reads_ownReply {md : FileMetadata} (framed : rec.Framed) (client : config.servNum ≤ idx)
    (own : rec.index ≠ extraReplyIndex) (i : Nat) (valid : checkReply nums i rec.reply st = .ok ())
    (place : rec.index.toNat < st.checks.length) (info : readCheckInfo rec.reply rec.ret = .ok md) :
    Reads (receiveReply config nums idx i st) rec.bytes
      { st with calls := st.calls.set rec.index.toNat (rec.callInfo true)
                checks := st.checks.set rec.index.toNat (some md) } := by
  have mine : decide (rec.reply.index ≠ extraReplyIndex ∧ config.servNum ≤ idx) = true := decide_eq_true ⟨own, client⟩
  have inside : ¬ st.checks.length ≤ rec.reply.index.toNat := Nat.not_le.mpr place
  have called : rec.reply.index ≠ -1 := own
  apply reads_record framed
  simp only [mine, if_true]
  refine (Reads.lift valid).bind ((Record.reads_payload framed i).followed ?_)
  rw [if_neg called, if_neg inside]
  exact (Reads.lift info).map _

theorem reads_extraReply (framed : rec.Framed) (other : rec.index = extraReplyIndex) (i : Nat) :
    Reads (receiveReply config nums idx i st) rec.bytes
      { st with extraParts := st.extraParts ++ [rec.callInfo false] } := by
  have foreign : ¬ decide (rec.reply.index ≠ extraReplyIndex ∧ config.servNum ≤ idx) = true := by
    rw [decide_eq_true_eq]
    exact fun both => both.1 other
  have none : rec.reply.index = -1 := other
  apply reads_record framed
  simp only [if_neg foreign]
  refine (Record.reads_payload framed i).followed ?_
  rw [if_pos none]
  exact Reads.pure _

theorem checkReply_ok {reply : CallReply} (slot : st.calls[reply.index.toNat]? = some {})
    (num : nums[reply.index.toNat]? = some reply.num.toNat) (i : Nat) : checkReply nums i reply st = .ok () := by
  have same : nums.getD reply.index.toNat 0 = reply.num.toNat := by
    rw [List.getD_eq_getElem?_getD, num, Option.getD_some]
  simp only [checkReply, slot, same, ne_eq, not_true_eq_false, if_false, or_self]
  rfl

theorem reads_callReply {th : Thread} {sys : Option SysCall} {finished : Bool} {info : List UInt8}
    (client : config.servNum ≤ idx) (blank : Blank nums th st) (size : info.length = INFOLIMIT)
    (holds : InfoHolds (th.withInfo crc32 sys).info info)
    (framed : ((th.withInfo crc32 sys).record c finished info).Framed) (i : Nat) :
    ∃ md, Reads (receiveReply config nums idx i st) ((th.withInfo crc32 sys).record c finished info).bytes
        { st with calls := st.calls.set th.callIndex.toNat (th.callInfo c finished)
                  checks := st.checks.set th.callIndex.toNat (some md) } ∧
      md.stime = th.stime ∧ md.etime = th.etime ∧ md.retv = th.res.toInt64 := by
  obtain ⟨md, checked, times⟩ := readInfo_ok (infoSized_of_switch size holds)
    { stime := th.stime, etime := th.etime, retv := th.res.toInt64 }
  obtain ⟨place, _⟩ := List.getElem?_eq_some_iff.mp blank.check
  have valid : checkReply nums i ((th.withInfo crc32 sys).record c finished info).reply st = .ok () :=
    checkReply_ok blank.call blank.num i
  exact ⟨md, reads_ownReply framed client blank.own i valid place checked, times⟩

variable {items : List Item} {recs : List Record}

def callIndexes (items : List Item) : List UInt32 := items.filterMap Item.index

def AllBlank (nums : List Nat) (items : List Item) (st : Received) : Prop :=
  ∀ th sys finished, .call th sys finished ∈ items → Blank nums th st

/-- Replies are read one after the other; each changes the slot of its own call only. -/
theorem reads_items (client : config.servNum ≤ idx) (wrote : Wrote c crc32 items recs)
    (framed : ∀ rec ∈ recs, rec.Framed) (distinct : (callIndexes items).Nodup) (blank : AllBlank nums items st)
    (i : Nat) :
    ∃ st', Reads (receiveReplies config nums idx i recs.length st) (recs.flatMap Record.bytes) st' ∧
      (∀ th sys finished, .call th sys finished ∈ items → Answered c th finished st'.calls st'.checks) ∧
      ∀ j, (∀ index ∈ callIndexes items, index.toNat ≠ j) →
        st'.calls[j]? = st.calls[j]? ∧ st'.checks[j]? = st.checks[j]? := by
  induction wrote generalizing st i with
  | nil => exact ⟨st, Reads.pure st, nofun, fun j _ => ⟨rfl, rfl⟩⟩
  | silent rest ih =>
    obtain ⟨st', reads, answered, kept⟩ := ih framed distinct
      (fun th sys finished member => blank th sys finished (List.mem_cons_of_mem _ member)) i
    refine ⟨st', reads, fun th sys finished member => ?_, kept⟩
    rcases List.mem_cons.mp member with new | old
    · cases new
    · exact answered th sys finished old
  | @extra cov info items recs size rest ih =>
    have own := framed (cov.extraRecord c info) List.mem_cons_self
    have same : AllBlank nums items { st with extraParts := st.extraParts ++ [(cov.extraRecord c info).callInfo false] } := by
      intro th sys finished member
      have before := blank th sys finished (List.mem_cons_of_mem _ member)
      exact ⟨before.call, before.check, before.num, before.own⟩
    obtain ⟨st', reads, answered, kept⟩ :=
      ih (fun rec member => framed rec (List.mem_cons_of_mem _ member)) distinct same (i + 1)
    refine ⟨st', (reads_extraReply own rfl i).bind reads, fun th sys finished member => ?_, kept⟩
    rcases List.mem_cons.mp member with new | old
    · cases new
    · exact answered th sys finished old
  | @call th sys finished info items recs size holds rest ih =>
    have here := blank th sys finished List.mem_cons_self
    obtain ⟨away, others⟩ := List.nodup_cons.mp distinct
    obtain ⟨md, first, stime, etime, retv⟩ :=
      reads_callReply client here size holds (framed _ List.mem_cons_self) i
    have differs : ∀ index ∈ callIndexes items, th.callIndex.toNat ≠ index.toNat := by
      intro index member same
      exact away (UInt32.toNat_inj.mp same ▸ member)
    have still : AllBlank nums items
        { st with calls := st.calls.set th.callIndex.toNat (th.callInfo c finished)
                  checks := st.checks.set th.callIndex.toNat (some md) } := by
      intro th' sys' finished' member
      have before := blank th' sys' finished' (List.mem_cons_of_mem _ member)
      have apart := differs th'.callIndex (List.mem_filterMap.mpr ⟨_, member, rfl⟩)
      refine ⟨?_, ?_, before.num, before.own⟩
      · rw [List.getElem?_set_ne apart]
        exact before.call
      · rw [List.getElem?_set_ne apart]
        exact before.check
    obtain ⟨st', reads, answered, kept⟩ :=
      ih (fun rec member => framed rec (List.mem_cons_of_mem _ member)) others still (i + 1)
    obtain ⟨slot, _⟩ := List.getElem?_eq_some_iff.mp here.call
    obtain ⟨place, _⟩ := List.getElem?_eq_some_iff.mp here.check
    refine ⟨st', first.bind reads, fun th' sys' finished' member => ?_, fun j free => ?_⟩
    · rcases List.mem_cons.mp member with new | old
      · obtain ⟨rfl, rfl, rfl⟩ := Item.call.inj new
        obtain ⟨calls, checks⟩ := kept th'.callIndex.toNat fun index member same => differs index member same.symm
        refine ⟨?_, md, ?_, stime, etime, retv⟩
        · rw [calls, List.getElem?_set_self slot]
        · rw [checks, List.getElem?_set_self place]
      · exact answered th' sys' finished' old
    · obtain ⟨calls, checks⟩ := kept j fun index member => free index (List.mem_cons_of_mem _ member)
      have apart := free th.callIndex List.mem_cons_self
      rw [calls, checks, List.getElem?_set_ne apart, List.getElem?_set_ne apart]
      exact ⟨rfl, rfl⟩

/-! ### The whole stream -/

theorem Wrote.info_length (wrote : Wrote c crc32 items recs) : ∀ rec ∈ recs, rec.info.length = INFOLIMIT := by
  induction wrote with
  | nil => nofun
  | silent _ ih => exact ih
  | extra size _ ih => exact List.forall_mem_cons.mpr ⟨size, ih⟩
  | call size _ _ ih => exact List.forall_mem_cons.mpr ⟨size, ih⟩

theorem Record.length_bytes (size : rec.info.length = INFOLIMIT) :
    rec.bytes.length = 200 + 4 * (rec.signal.length + rec.cover.length) := by
  simp only [bytes, headerBytes, countBytes, List.length_append, length_le32, length_le64, length_words, size, INFOLIMIT]
  omega

theorem dvd_length_records (size : ∀ rec ∈ recs, rec.info.length = INFOLIMIT) :
    4 ∣ (recs.flatMap Record.bytes).length := by
  induction recs with
  | nil => exact Nat.dvd_zero 4
  | cons rec recs ih =>
    obtain ⟨own, others⟩ := List.forall_mem_cons.mp size
    rw [List.flatMap_cons, List.length_append, Record.length_bytes own]
    exact (Nat.dvd_add_right (by omega)).mpr (ih others)

/-- The records, the trace and the metadata stand one behind the other. -/
def streamBytes (c : Config) (testdirIno : UInt64) (recs : List Record) (t : Collected) (m : MetadataMode)
    (files : List FileRecord) : List UInt8 :=
  (le32 (UInt32.ofNat recs.length) ++ (le64 testdirIno ++ recs.flatMap Record.bytes)) ++
    (t.bytes ++ metadataBytes m c.isDfsClient files)

variable {testdirIno : UInt64} {t : Collected} {m : MetadataMode} {files : List FileRecord} {init r : Region}

theorem Region.reset (aligned : 4 ∣ r.pos) (saved : r.posValue = r.pos / 4) :
    ({ r with pos := 4 * r.posValue } : Region) = r := by
  have same : 4 * r.posValue = r.pos := by omega
  rw [same]

theorem clientOutput_written (wrote : clientOutput c crc32 testdirIno items t m files init = some r) :
    ∃ recs, Wrote c crc32 items recs ∧ r.written = streamBytes c testdirIno recs t m files := by
  simp only [clientOutput, Option.bind_eq_bind, Option.bind_eq_some_iff] at wrote
  obtain ⟨r1, zero, r2, ino, r3, replies, r4, trace, metadata⟩ := wrote
  have start := (Region.writeOutput_appends zero).trans (Region.writeOutput64_appends ino)
  have counts : Counts 0 (le64 testdirIno) r2 := ⟨start.written, start.posValue⟩
  obtain ⟨recs, records, whole⟩ := writeItems_counts counts start.completed replies
  rw [UInt32.zero_add] at whole
  have aligned : 4 ∣ r3.pos := by
    have body := dvd_length_records records.info_length
    have size := r3.length_written
    simp only [whole.written, List.length_append, length_le32, length_le64] at size
    omega
  rw [Region.reset aligned whole.saved] at trace
  have traced := stopCollectHmdfsTrace_appends trace
  have end4 : 4 * r4.posValue = r4.pos := by
    have size := r4.length_written
    rw [traced.written, List.length_append, r3.length_written, t.length_bytes] at size
    have := traced.posValue
    omega
  refine ⟨recs, records, ?_⟩
  rw [writeMetadata_written metadata end4, traced.written, whole.written, streamBytes, List.append_assoc]

/-- The metadata records the executor puts on the stream. -/
def recordedFiles (m : MetadataMode) (isDfsClient : Bool) (files : List FileRecord) : List FileRecord :=
  if !m.flagSkipFsMd && m.collects isDfsClient then writtenFiles m files else []

/-- What the fuzzer knows after the stream: each written reply in the slot of its call and no other slot
filled, the trace, and the records of `kept` under their paths. -/
structure Decodes (c : Config) (nums : List Nat) (idx : Nat) (testdirIno : UInt64) (items : List Item) (t : Collected)
    (kept : List FileRecord) (ret : ParseRet) : Prop where
  err : ret.err = none
  calls : ∃ info, ret.info = some info ∧
    (∀ th sys finished, .call th sys finished ∈ items → Answered c th finished info.calls ret.checks) ∧
    ∀ j < nums.length, (∀ index ∈ callIndexes items, index.toNat ≠ j) → info.calls[j]? = some {}
  testdirIno : ret.testdirIno = testdirIno
  events : ret.hmdfsTraceEvents = t.events.map fun e => { e.traced with progIdx := idx }
  ratio : ret.tscRatio = t.tscNsRatio
  offset : ret.tscOffset = t.tscOffset
  fsMd : ∀ path md, (∃ fsMd, ret.fsMd = some fsMd ∧ fsMd.lookup path = some md) ↔
    ∃ f ∈ kept, f.filepath = path ∧ f.metadata = md

/-- The program's own call numbers under distinct indices. -/
structure Numbered (nums : List Nat) (items : List Item) : Prop where
  num : ∀ th sys finished, .call th sys finished ∈ items → nums[th.callIndex.toNat]? = some th.callNum.toNat
  distinct : (callIndexes items).Nodup

theorem Numbered.blank {p : ClientProg} (numbered : Numbered p.nums items) :
    AllBlank p.nums items ⟨List.replicate p.nums.length {}, [], List.replicate p.nums.length none⟩ := by
  intro th sys finished member
  have num := numbered.num th sys finished member
  obtain ⟨inside, _⟩ := List.getElem?_eq_some_iff.mp num
  have slots := p.fits
  refine ⟨List.getElem?_replicate_of_lt inside, List.getElem?_replicate_of_lt inside, num, ?_⟩
  intro extra
  rw [extra] at inside
  have top : extraReplyIndex.toNat = 4294967295 := rfl
  simp only [kMaxInput] at slots
  omega

theorem framed_of_length (size : ∀ rec ∈ recs, rec.info.length = INFOLIMIT)
    (small : (recs.flatMap Record.bytes).length < UInt32.size) : ∀ rec ∈ recs, rec.Framed := by
  intro rec member
  have own : rec.bytes.length ≤ (recs.flatMap Record.bytes).length := length_le_flatMap_of_mem member
  rw [Record.length_bytes (size rec member)] at own
  exact ⟨size rec member, by omega, by omega⟩

theorem reads_progOutput {p : ClientProg} (client : config.servNum ≤ idx) (wrote : Wrote c crc32 items recs)
    (numbered : Numbered p.nums items) (small : (recs.flatMap Record.bytes).length < UInt32.size) :
    ∃ st, Reads (readProgOutput config p.nums idx)
        (le32 (UInt32.ofNat recs.length) ++ (le64 testdirIno ++ recs.flatMap Record.bytes)) (testdirIno, st) ∧
      (∀ th sys finished, .call th sys finished ∈ items → Answered c th finished st.calls st.checks) ∧
      ∀ j < p.nums.length, (∀ index ∈ callIndexes items, index.toNat ≠ j) → st.calls[j]? = some {} := by
  have framed := framed_of_length wrote.info_length small
  obtain ⟨st, replies, answered, kept⟩ := reads_items client wrote framed numbered.distinct numbered.blank 0
  have count : recs.length ≤ (recs.flatMap Record.bytes).length :=
    length_le_flatMap fun rec member => by
      rw [Record.length_bytes (wrote.info_length rec member)]
      omega
  have ncmd : (UInt32.ofNat recs.length).toNat = recs.length := UInt32.toNat_ofNat_of_lt' (by omega)
  refine ⟨st, (reads_uint32 _ _).bind ((reads_uint64 _ _).bind ?_), answered, fun j inside free => ?_⟩
  · rw [ncmd]
    exact replies.map _
  · rw [(kept j free).1]
    exact List.getElem?_replicate_of_lt inside

theorem reads_tail {isDfsClient : Bool} (events : t.events.length < UInt32.size)
    (small : (metadataBytes m isDfsClient files).length < UInt32.size) (paths : (files.map FileRecord.filepath).Nodup) :
    Reads readTail (t.bytes ++ metadataBytes m isDfsClient files) (t.trace, readMap m isDfsClient files) :=
  (reads_trace events).bind ((reads_fsMd small paths).map _)

/-- What the fuzzer sees of a region begins, behind the saved position, with what was written there. -/
theorem clientMemory_written (fits : r.pos ≤ outSize) :
    ∃ rest, (if (clientMemory r).length < 8 then clientMemory r else (clientMemory r).drop 8) = r.written ++ rest := by
  obtain ⟨more, size⟩ := Nat.exists_eq_add_of_le fits
  refine ⟨r.data.slice r.pos more, ?_⟩
  have long : ¬ (clientMemory r).length < 8 := by simp [clientMemory]
  rw [if_neg long, clientMemory, List.drop_left' (length_le64 _), size, Image.slice_add, Nat.zero_add]
  rfl

theorem lookup_readMap (m : MetadataMode) (isDfsClient : Bool) (paths : (files.map FileRecord.filepath).Nodup) (path : List UInt8)
    (md : FileMetadata) :
    (∃ fsMd, readMap m isDfsClient files = some fsMd ∧ fsMd.lookup path = some md) ↔
      ∃ f ∈ recordedFiles m isDfsClient files, f.filepath = path ∧ f.metadata = md := by
  unfold readMap recordedFiles
  split
  next =>
    have names := paths.sublist ((writtenFiles_sublist m files).map FileRecord.filepath)
    rw [← lookup_mapOf names path md]
    constructor
    · rintro ⟨fsMd, same, found⟩
      rwa [Option.some.inj same]
    · exact fun found => ⟨_, rfl, found⟩
  next => simp

theorem parseClientOutput_eq {range : Go.RangeOrder} {p : ClientProg} {out out1 out2 out3 : List UInt8} {st : Received}
    {trace : Trace} {fsMd : Option FsMd} (skipped : (if out.length < 8 then out else out.drop 8) = out1)
    (replies : (readProgOutput config p.nums idx).run out1 = .ok ((testdirIno, st), out2))
    (tail : readTail.run out2 = .ok ((trace, fsMd), out3)) :
    parseClientOutput range config p idx out =
      { idx, info := some ⟨st.calls, if st.extraParts.isEmpty then {} else convertExtra range st.extraParts⟩,
        checks := st.checks, testdirIno, hmdfsTraceEvents := trace.events.map fun e => { e with progIdx := idx },
        tscRatio := trace.ratio, tscOffset := trace.tscOffset,
        fsMd := if config.enableCsan && decide (config.servNum ≤ idx) then fsMd else none } := by
  unfold parseClientOutput
  rw [skipped, replies]
  dsimp only
  rw [tail]

/-- A client's stream is read back whole; the metadata is kept where the configuration asks for the
consistency sanitizer and consumed elsewhere. -/
theorem parseClientOutput_decodes (range : Go.RangeOrder) (config : FuzzerConfig) (p : ClientProg) (idx : Nat)
    (c : Config) (crc32 : List UInt8 → UInt32) (testdirIno : UInt64) (items : List Item) (t : Collected)
    (m : MetadataMode) (files : List FileRecord) (init r : Region) (client : config.servNum ≤ idx)
    (numbered : Numbered p.nums items) (paths : (files.map FileRecord.filepath).Nodup)
    (wrote : clientOutput c crc32 testdirIno items t m files init = some r) (fits : r.pos ≤ outSize) :
    Decodes c p.nums idx testdirIno items t
      (if config.enableCsan then recordedFiles m c.isDfsClient files else [])
      (parseClientOutput range config p idx (clientMemory r)) := by
  obtain ⟨recs, records, whole⟩ := clientOutput_written wrote
  obtain ⟨rest, memory⟩ := clientMemory_written fits
  have total := r.length_written
  simp only [whole, streamBytes, List.length_append, length_le32, length_le64, t.length_bytes] at total
  have limit : outSize = 16777180 := rfl
  have words : UInt32.size = 4294967296 := rfl
  have records32 : (recs.flatMap Record.bytes).length < UInt32.size := by omega
  obtain ⟨st, output, answered, blank⟩ := reads_progOutput client records numbered records32
  have events32 : t.events.length < UInt32.size := by omega
  have metadata32 : (metadataBytes m c.isDfsClient files).length < UInt32.size := by omega
  have tail := reads_tail events32 metadata32 paths rest
  have first := output ((t.bytes ++ metadataBytes m c.isDfsClient files) ++ rest)
  rw [← List.append_assoc, ← streamBytes, ← whole, ← memory] at first
  rw [parseClientOutput_eq rfl first tail]
  refine ⟨rfl, ⟨_, rfl, answered, blank⟩, rfl, ?_, rfl, rfl, fun path md => ?_⟩
  · exact List.map_map
  · have known := lookup_readMap m c.isDfsClient paths path md
    cases csan : config.enableCsan with
    | true => simpa [client] using known
    | false => simp

/-! A small round: one call, extra coverage that is not collected, one event and one file. -/

def smallConfig : Config := ⟨true, true, true, true⟩

def smallThread : Thread := ⟨0, 7, 3, 0, false, true, none, 10, 11, ⟨[5, 6], [8]⟩⟩

def smallItems : List Item := [.call smallThread none true, .extra none]

def smallTrace : Collected := ⟨1000000000, -2, [⟨10, 3, -5, 4, fun _ => 1, 9⟩]⟩

theorem length_noStat : (List.replicate statSize (0 : UInt8)).length = statSize := List.length_replicate

def smallFile : FileRecord := ⟨[97], [], none, none, List.replicate statSize 0, length_noStat⟩

def emptyRegion : Region := ⟨fun _ => 0, 0, 0, 0⟩

/-- A full round for the consistency sanitizer or for the crash consistency sanitizer. -/
def fullRound (enableCsan : Bool) : MetadataMode := ⟨false, enableCsan, !enableCsan, false, false⟩

def smallOutput (enableCsan : Bool) : Option Region :=
  clientOutput smallConfig (fun _ => 0) 2 smallItems smallTrace (fullRound enableCsan) [smallFile] emptyRegion

theorem smallOutput_fits (enableCsan : Bool) : ∃ r, smallOutput enableCsan = some r ∧ r.pos ≤ outSize := by
  have known : ((smallOutput enableCsan).elim false fun r => decide (r.pos ≤ outSize)) = true := by
    cases enableCsan <;> decide +kernel
  cases out : smallOutput enableCsan with
  | none =>
    rw [out] at known
    cases known
  | some r =>
    rw [out] at known
    exact ⟨r, rfl, of_decide_eq_true known⟩

theorem small_numbered : Numbered [7] smallItems := by
  refine ⟨fun th sys finished member => ?_, by decide⟩
  have same : th = smallThread := by
    rcases List.mem_cons.mp member with call | extra
    · exact (Item.call.inj call).1
    · simp at extra
  rw [same]
  rfl

def smallProg : ClientProg := ⟨[7], by decide⟩

theorem parseClientOutput_decodes_small :
    ∃ r, smallOutput true = some r ∧ Decodes smallConfig [7] 1 2 smallItems smallTrace
      (if true then recordedFiles (fullRound true) true [smallFile] else [])
      (parseClientOutput .stored ⟨1, true⟩ smallProg 1 (clientMemory r)) := by
  obtain ⟨r, wrote, fits⟩ := smallOutput_fits true
  exact ⟨r, wrote, parseClientOutput_decodes .stored ⟨1, true⟩ smallProg 1 smallConfig (fun _ => 0) 2 smallItems smallTrace
    (fullRound true) [smallFile] emptyRegion r (Nat.le_refl 1) small_numbered (List.nodup_singleton _) wrote fits⟩

theorem parseClientOutput_fsMd_none {range : Go.RangeOrder} {p : ClientProg} (off : config.enableCsan = false)
    (out : List UInt8) : (parseClientOutput range config p idx out).fsMd = none := by
  unfold parseClientOutput
  split
  · rfl
  · dsimp only
    split
    · rfl
    · simp [off]

/-- The records written for the crash consistency sanitizer alone are consumed and give no map. -/
theorem parseClientOutput_discards :
    ¬ ∀ (range : Go.RangeOrder) (config : FuzzerConfig) (p : ClientProg) (idx : Nat) (c : Config)
      (crc32 : List UInt8 → UInt32) (testdirIno : UInt64) (items : List Item) (t : Collected) (m : MetadataMode)
      (files : List FileRecord) (init r : Region), config.servNum ≤ idx → Numbered p.nums items →
      (files.map FileRecord.filepath).Nodup → clientOutput c crc32 testdirIno items t m files init = some r →
      r.pos ≤ outSize → Decodes c p.nums idx testdirIno items t (recordedFiles m c.isDfsClient files)
        (parseClientOutput range config p idx (clientMemory r)) := by
  intro claim
  obtain ⟨r, wrote, fits⟩ := smallOutput_fits false
  have decodes := claim .stored ⟨1, false⟩ smallProg 1 smallConfig (fun _ => 0) 2 smallItems smallTrace (fullRound false)
    [smallFile] emptyRegion r (Nat.le_refl 1) small_numbered (List.nodup_singleton _) wrote fits
  have recorded : smallFile ∈ recordedFiles (fullRound false) smallConfig.isDfsClient [smallFile] := by
    have all : recordedFiles (fullRound false) smallConfig.isDfsClient [smallFile] = [smallFile] := rfl
    rw [all]
    exact List.mem_singleton_self smallFile
  obtain ⟨fsMd, some, _⟩ := (decodes.fsMd smallFile.filepath smallFile.metadata).mpr ⟨smallFile, recorded, rfl, rfl⟩
  rw [parseClientOutput_fsMd_none rfl] at some
  cases some

end DfsFuzz.Output
