import DfsFuzz.Lib.ByteReader
import DfsFuzz.Lib.GoMap

/-!
The corpus database (`pkg/db/db.go`): a header and a log of records in a file, the records in memory, and writes that wait
for the next flush. Values are compressed by `compress/flate`.
-/

namespace DfsFuzz.CorpusDb

structure Flate where
  compress : List UInt8 → List UInt8
  /-- what is read from the bytes that the reader is limited to -/
  inflate : List UInt8 → Option (List UInt8)
  compress_ne_nil : ∀ v, compress v ≠ []
  inflate_compress : ∀ v, inflate (compress v) = some v
  inflate_torn : ∀ v part, part <+: compress v → part ≠ compress v → inflate part = none

/-- A stored block for each byte, and the last block, which is empty. -/
def storedBlocks (v : List UInt8) : List UInt8 := v.flatMap (fun b => [0, 1, 0, 0xfe, 0xff, b]) ++ [1, 0, 0, 0xff, 0xff]

def readBlocks : List UInt8 → Option (List UInt8)
  | 0 :: 1 :: 0 :: 0xfe :: 0xff :: b :: rest => (readBlocks rest).map fun v => b :: v
  | [1, 0, 0, 0xff, 0xff] => some []
  | _ => none

theorem readBlocks_eq {part v : List UInt8} (read : readBlocks part = some v) : part = storedBlocks v := by
  fun_induction readBlocks part generalizing v with
  | case1 b rest ih =>
    obtain ⟨v, tail, rfl⟩ := Option.map_eq_some_iff.mp read
    rw [ih tail]
    rfl
  | case2 => exact Option.some.inj read ▸ rfl
  | case3 => cases read

theorem storedBlocks_inj {u v : List UInt8} (before : storedBlocks u <+: storedBlocks v) : u = v := by
  induction u generalizing v with
  | nil => cases v <;> simp [storedBlocks] at before ⊢
  | cons b u ih =>
    cases v with
    | nil => simp [storedBlocks] at before
    | cons c v =>
      simp only [storedBlocks, List.flatMap_cons, List.cons_append, List.nil_append, List.cons_prefix_cons] at before
      rw [before.2.2.2.2.2.1, ih before.2.2.2.2.2.2]

def Flate.stored : Flate where
  compress := storedBlocks
  inflate := readBlocks
  compress_ne_nil v := List.append_ne_nil_of_right_ne_nil _ (by decide)
  inflate_compress v := by
    induction v with
    | nil => rfl
    | cons b v ih => exact congrArg (Option.map (b :: ·)) ih
  inflate_torn v part before strict := by
    refine Option.eq_none_iff_forall_ne_some.mpr fun u read => strict ?_
    obtain rfl := readBlocks_eq read
    rw [storedBlocks_inj before]

structure Record where
  val : List (List UInt8)
  seq : UInt64

abbrev Records := Go.Map (List UInt8) Record

/-- What `serializeRecord` is given. -/
structure Write where
  key : List UInt8
  val : List (List UInt8)
  seq : UInt64

def dbMagic : UInt32 := 0xbaddb
def recMagic : UInt32 := 0xfee1bad
def curVersion : UInt32 := 2
def seqDeleted : UInt64 := 0xffffffffffffffff

def serializeHeader (version : UInt64) : List UInt8 := Bytes.le32 dbMagic ++ (Bytes.le32 curVersion ++ Bytes.le64 version)

abbrev Reader (α : Type) := ByteReader Unit α

def deserializeHeader : Reader UInt64 := get >>= fun out =>
  if out.isEmpty then return 0
  else do
    let magic ← ByteReader.uint32 ()
    if magic ≠ dbMagic then throw ()
    else do
      let ver ← ByteReader.uint32 ()
      if ver = 0 ∨ ver > curVersion then throw ()
      else if ver ≥ 2 then ByteReader.uint64 () else return 0

variable (flate : Flate)

def serializeVal (v : List UInt8) : List UInt8 := Bytes.le32 (.ofNat (flate.compress v).length) ++ flate.compress v

/-- A deleted record has no value: `Save` refuses its number and `Delete` gives none. -/
def serializeRecord (w : Write) : List UInt8 :=
  Bytes.le32 recMagic ++ (Bytes.le32 (.ofNat w.key.length) ++ (w.key ++ (Bytes.le64 w.seq ++
    if w.seq = seqDeleted then []
    else Bytes.le32 (.ofNat w.val.length) ++ (w.val.take (UInt32.ofNat w.val.length).toNat).flatMap (serializeVal flate))))

/-- `ioutil.ReadAll` of a value that `count` bytes are left for. -/
def inflated (count : Nat) : Reader (List UInt8) := fun out =>
  match flate.inflate (out.take count) with
  | none => .error ()
  | some v => .ok (v, out.drop count)

def readVal : Reader (Option (List UInt8)) := do
  let valLen ← ByteReader.uint32 ()
  if valLen = 0 then return none
  else do
    let v ← inflated flate valLen.toNat
    return some v

def readVals : Nat → Reader (List (List UInt8))
  | 0 => return []
  | count + 1 => do
    let v ← readVal flate
    let rest ← readVals count
    return v.toList ++ rest

def deserializeRecord : Reader Write := do
  let magic ← ByteReader.uint32 ()
  if magic ≠ recMagic then throw ()
  else do
    let keyLen ← ByteReader.uint32 ()
    let key ← ByteReader.bytes () keyLen.toNat
    let seq ← ByteReader.uint64 ()
    if seq = seqDeleted then return ⟨key, [], seq⟩
    else do
      let subTestcaseNum ← ByteReader.uint32 ()
      let val ← readVals flate subTestcaseNum.toNat
      return ⟨key, val, seq⟩

def ofRecord (e : List UInt8 × Record) : Write := ⟨e.1, e.2.val, e.2.seq⟩

def Write.apply (records : Records) (w : Write) : Records :=
  if w.seq = seqDeleted then records.erase w.key else records.insert w.key ⟨w.val, w.seq⟩

/-- The loop of `deserializeDB`. A record takes a byte or more. -/
def deserializeRecords : Nat → List UInt8 → Records → Nat → Records × Nat
  | 0, _, records, uncompacted => (records, uncompacted)
  | fuel + 1, out, records, uncompacted =>
    match (deserializeRecord flate).run out with
    | .error _ => (records, uncompacted)
    | .ok (w, left) => deserializeRecords fuel left (w.apply records) (uncompacted + 1)

def deserializeDB (file : List UInt8) : UInt64 × Records × Nat :=
  match deserializeHeader.run file with
  | .error _ => (0, ∅, 0)
  | .ok (version, left) => (version, deserializeRecords flate left.length left ∅ 0)

structure DB where
  version : UInt64
  records : Records
  uncompacted : Nat
  pending : Option (List UInt8) := none
  /-- what `filename` holds -/
  file : List UInt8

namespace DB

def serialize (db : DB) (w : Write) : DB := { db with pending := some (db.pending.getD [] ++ serializeRecord flate w) }

/-- `none` is the panic. -/
def save (db : DB) (key : List UInt8) (val : List (List UInt8)) (seq : UInt64) : Option DB :=
  if seq = seqDeleted then none
  else if (db.records.lookup key).any fun rec => seq == rec.seq && val.flatten == rec.val.flatten then some db
  else
    let records := db.records.insert key ⟨val, seq⟩
    some { db.serialize flate ⟨key, val, seq⟩ with records, uncompacted := db.uncompacted + 1 }

def delete (db : DB) (key : List UInt8) : DB :=
  if (db.records.lookup key).isNone then db
  else { db.serialize flate ⟨key, [], seqDeleted⟩ with records := db.records.erase key, uncompacted := db.uncompacted + 1 }

def compact (db : DB) (order : Go.RangeOrder) : DB :=
  let log := (order.arrange db.records.items).flatMap fun e => serializeRecord flate (ofRecord e)
  { db with file := serializeHeader db.version ++ log, uncompacted := db.records.items.length, pending := none }

def flush (db : DB) (order : Go.RangeOrder) : DB :=
  if db.uncompacted / 10 * 9 > db.records.items.length then db.compact flate order
  else { db with file := db.file ++ db.pending.getD [], pending := none }

def bumpVersion (db : DB) (version : UInt64) (order : Go.RangeOrder) : DB :=
  if db.version = version then db.flush flate order else { db with version }.compact flate order

/-- `Open`, on a file with these bytes; a new file has none. -/
def load (order : Go.RangeOrder) (file : List UInt8) : DB :=
  let (version, records, uncompacted) := deserializeDB flate file
  let db : DB := { version, records, uncompacted, file }
  if records.items.length = 0 ∨ uncompacted / 10 * 9 > records.items.length then db.compact flate order else db

end DB

inductive Action where
  | save (key : List UInt8) (val : List (List UInt8)) (seq : UInt64)
  | delete (key : List UInt8)
  | flush (order : Go.RangeOrder)
  | bumpVersion (version : UInt64) (order : Go.RangeOrder)
  /-- The process ends without a flush, and the next one opens the file. -/
  | reopen (order : Go.RangeOrder)

def step (db : DB) : Action → Option DB
  | .save key val seq => db.save flate key val seq
  | .delete key => some (db.delete flate key)
  | .flush order => some (db.flush flate order)
  | .bumpVersion version order => some (db.bumpVersion flate version order)
  | .reopen order => some (DB.load flate order db.file)

def DB.Agrees (db other : DB) : Prop := db.version = other.version ∧ ∀ key, db.records.lookup key = other.records.lookup key

def run (db : DB) (actions : List Action) : Option DB := actions.foldlM (step flate) db

structure Sized (w : Write) : Prop where
  key : w.key.length < 2 ^ 32
  val : w.val.length < 2 ^ 32
  each : ∀ v ∈ w.val, (flate.compress v).length < 2 ^ 32

def Action.Sized : Action → Prop
  | .save key val seq => CorpusDb.Sized flate ⟨key, val, seq⟩
  | _ => True

structure Written (w : Write) : Prop extends Sized flate w where
  deleted : w.seq = seqDeleted → w.val = []

/-! ### What is written is read -/

open ByteReader

theorem reads_header (version : UInt64) : Reads deserializeHeader (serializeHeader version) version := by
  refine Reads.look fun rest => ?_
  exact (frames_uint32 () dbMagic).reads.bind ((frames_uint32 () curVersion).reads.bind (frames_uint64 () version).reads)

theorem frames_inflated (v : List UInt8) : Frames (inflated flate (flate.compress v).length) (flate.compress v) v where
  reads rest := by
    simp only [inflated, StateT.run, List.take_left, List.drop_left, flate.inflate_compress]
  torn part before strict := by
    refine ⟨(), ?_⟩
    simp only [inflated, StateT.run, List.take_of_length_le before.length_le, flate.inflate_torn v part before strict]

variable {flate} {w : Write} {ws pend : List Write}

theorem frames_readVal {v : List UInt8} (small : (flate.compress v).length < 2 ^ 32) :
    Frames (readVal flate) (serializeVal flate v) (some v) := by
  have size : (UInt32.ofNat (flate.compress v).length).toNat = (flate.compress v).length := UInt32.toNat_ofNat_of_lt' small
  have nonzero : UInt32.ofNat (flate.compress v).length ≠ 0 := by
    intro zero
    rw [zero] at size
    exact flate.compress_ne_nil v (List.length_eq_zero_iff.mp size.symm)
  refine (frames_uint32 () _).bind ?_
  rw [if_neg nonzero, size]
  exact (frames_inflated flate v).map some

theorem frames_readVals {vs : List (List UInt8)} (small : ∀ v ∈ vs, (flate.compress v).length < 2 ^ 32) :
    Frames (readVals flate vs.length) (vs.flatMap (serializeVal flate)) vs := by
  induction vs with
  | nil => exact Frames.pure []
  | cons v vs ih =>
    rw [List.forall_mem_cons] at small
    exact (frames_readVal small.1).bind ((ih small.2).map fun rest => (some v).toList ++ rest)

theorem frames_record (written : Written flate w) : Frames (deserializeRecord flate) (serializeRecord flate w) w := by
  have keySize : (UInt32.ofNat w.key.length).toNat = w.key.length := UInt32.toNat_ofNat_of_lt' written.key
  have valSize : (UInt32.ofNat w.val.length).toNat = w.val.length := UInt32.toNat_ofNat_of_lt' written.val
  refine (frames_uint32 () recMagic).bind ?_
  rw [if_neg (not_not.mpr rfl)]
  refine (frames_uint32 () _).bind ?_
  rw [keySize]
  refine (frames_bytes () w.key).bind ((frames_uint64 () w.seq).bind ?_)
  split
  · rename_i deleted
    obtain ⟨key, val, seq⟩ := w
    obtain rfl : val = [] := written.deleted deleted
    exact Frames.pure _
  · refine (frames_uint32 () _).bind ?_
    rw [valSize, List.take_length]
    exact (frames_readVals written.each).map fun val => (⟨w.key, val, w.seq⟩ : Write)

def log (flate : Flate) (ws : List Write) : List UInt8 := ws.flatMap (serializeRecord flate)

def replay (ws : List Write) : Records := ws.foldl Write.apply ∅

/-- A record that the end of the file cuts off, or nothing. -/
def Cut (flate : Flate) (part : List UInt8) : Prop :=
  ∃ w, Written flate w ∧ part <+: serializeRecord flate w ∧ part ≠ serializeRecord flate w

theorem serializeRecord_ne_nil (w : Write) : serializeRecord flate w ≠ [] := by
  simp [serializeRecord, Bytes.le32, Bytes.le]

theorem cut_nil : Cut flate [] :=
  ⟨⟨[], [], seqDeleted⟩, ⟨⟨by decide, by decide, nofun⟩, fun _ => rfl⟩, List.nil_prefix, (serializeRecord_ne_nil _).symm⟩

theorem deserializeRecords_log (written : ∀ w ∈ ws, Written flate w) {part : List UInt8} (cut : Cut flate part) {fuel : Nat}
    (enough : ws.length ≤ fuel) (records : Records) (uncompacted : Nat) :
    deserializeRecords flate fuel (log flate ws ++ part) records uncompacted = (ws.foldl Write.apply records, uncompacted + ws.length) := by
  induction ws generalizing fuel records uncompacted with
  | nil =>
    obtain ⟨w, whole, before, strict⟩ := cut
    obtain ⟨err, failed⟩ := (frames_record whole).torn part before strict
    cases fuel with
    | zero => rfl
    | succ fuel =>
      change (deserializeRecord flate).run (log flate [] ++ part) = _ at failed
      rw [deserializeRecords, failed]
      rfl
  | cons w ws ih =>
    rw [List.forall_mem_cons] at written
    cases fuel with
    | zero => cases enough
    | succ fuel =>
      have first := (frames_record written.1).reads (ws.flatMap (serializeRecord flate) ++ part)
      rw [log, List.flatMap_cons, List.append_assoc, deserializeRecords]
      rw [first]
      refine (ih written.2 (Nat.le_of_succ_le_succ enough) _ _).trans ?_
      rw [List.foldl_cons, List.length_cons, Nat.add_assoc, Nat.add_comm 1]

theorem deserializeDB_log (version : UInt64) (written : ∀ w ∈ ws, Written flate w) {part : List UInt8} (cut : Cut flate part) :
    deserializeDB flate (serializeHeader version ++ (log flate ws ++ part)) = (version, replay ws, ws.length) := by
  have enough : ws.length ≤ (log flate ws ++ part).length := by
    rw [List.length_append]
    exact (length_le_flatMap fun w _ => List.length_pos_iff.mpr (serializeRecord_ne_nil w)).trans (Nat.le_add_right _ _)
  rw [deserializeDB, reads_header version (log flate ws ++ part)]
  show (version, _) = _
  rw [deserializeRecords_log written cut enough, Nat.zero_add]
  rfl

theorem take_log (written : ∀ w ∈ ws, Written flate w) (n : Nat) :
    ∃ j part, Cut flate part ∧ (log flate ws).take n = log flate (ws.take j) ++ part := by
  induction ws generalizing n with
  | nil => exact ⟨0, [], cut_nil, List.take_nil⟩
  | cons w ws ih =>
    rw [List.forall_mem_cons] at written
    rw [log, List.flatMap_cons]
    by_cases short : n < (serializeRecord flate w).length
    · refine ⟨0, (serializeRecord flate w).take n, ⟨w, written.1, List.take_prefix _ _, fun same => ?_⟩, ?_⟩
      · have length := congrArg List.length same
        rw [List.length_take] at length
        omega
      · exact List.take_append_of_le_length short.le
    · obtain ⟨j, part, cut, same⟩ := ih written.2 (n - (serializeRecord flate w).length)
      refine ⟨j + 1, part, cut, ?_⟩
      rw [List.take_append, List.take_of_length_le (Nat.not_lt.mp short)]
      change _ ++ (log flate ws).take _ = log flate (w :: ws.take j) ++ part
      rw [same, log, log, List.flatMap_cons, List.append_assoc]

/-! ### Runs -/

/-- The file holds `ws`, and `pend` waits for a flush. -/
structure Logged (flate : Flate) (db : DB) (ws pend : List Write) : Prop where
  file : db.file = serializeHeader db.version ++ log flate ws
  pending : db.pending.getD [] = log flate pend
  written : ∀ w ∈ ws ++ pend, Written flate w
  records : ∀ key, db.records.lookup key = (replay (ws ++ pend)).lookup key

theorem log_append (ws pend : List Write) : log flate (ws ++ pend) = log flate ws ++ log flate pend := List.flatMap_append

theorem replay_concat (ws : List Write) (w : Write) : replay (ws ++ [w]) = w.apply (replay ws) := List.foldl_concat ..

theorem lookup_apply (records : Records) (w : Write) (key : List UInt8) : (w.apply records).lookup key =
    if key = w.key then (if w.seq = seqDeleted then none else some ⟨w.val, w.seq⟩) else records.lookup key := by
  unfold Write.apply
  by_cases same : key = w.key
  · subst same
    split <;> simp
  · rw [if_neg same]
    split
    · exact AList.lookup_erase_ne same
    · exact AList.lookup_insert_ne same

def Known (flate : Flate) (records : Records) : Prop :=
  ∀ key rec, records.lookup key = some rec → Written flate (ofRecord (key, rec)) ∧ rec.seq ≠ seqDeleted

theorem known_replay (written : ∀ w ∈ ws, Written flate w) : Known flate (replay ws) := by
  intro key rec found
  induction ws using List.reverseRecOn with
  | nil => cases found
  | append_singleton ws w ih =>
    rw [List.forall_mem_append, List.forall_mem_singleton] at written
    rw [replay_concat, lookup_apply] at found
    split at found
    · rename_i same
      subst same
      split at found
      · cases found
      · obtain rfl := Option.some.inj found
        exact ⟨written.2, ‹_›⟩
    · exact ih written.1 found

variable {db db' : DB}

theorem Logged.known (logged : Logged flate db ws pend) : Known flate db.records :=
  fun key rec found => known_replay logged.written key rec (logged.records key ▸ found)

theorem Known.compact (db : DB) (known : Known flate db.records) (order : Go.RangeOrder) :
    ∃ ws', Logged flate (db.compact flate order) ws' [] := by
  have perm := order.perm db.records.items
  refine ⟨(order.arrange db.records.items).map ofRecord, ?_, rfl, ?_, fun key => ?_⟩
  · rw [log, List.flatMap_map]
    rfl
  · rw [List.append_nil, List.forall_mem_map]
    exact fun e member => (known e.1 e.2 (Go.Map.mem_items.mp (perm.mem_iff.mp member))).1
  · have filled : replay ((order.arrange db.records.items).map ofRecord) =
        (order.arrange db.records.items).foldl (fun records e => records.insert e.1 e.2) ∅ := by
      rw [replay, List.foldl_map]
      refine List.foldl_ext _ _ _ fun records e member => if_neg ?_
      exact (known e.1 e.2 (Go.Map.mem_items.mp (perm.mem_iff.mp member))).2
    have nodup := (perm.map Prod.fst).nodup_iff.mpr db.records.nodup_items_keys
    rw [List.append_nil, filled]
    refine Option.ext fun rec => (perm.mem_iff.trans Go.Map.mem_items).symm.trans (Iff.trans ?_ (Go.Map.lookup_filled nodup key rec).symm)
    exact ⟨fun member => ⟨_, member, rfl, rfl⟩, by rintro ⟨e, member, rfl, rfl⟩; exact member⟩

theorem Logged.flushed (logged : Logged flate db ws pend) :
    Logged flate { db with file := db.file ++ db.pending.getD [], pending := none } (ws ++ pend) [] where
  file := by rw [logged.file, logged.pending, log_append, List.append_assoc]
  pending := rfl
  written := by rw [List.append_nil]; exact logged.written
  records := by rw [List.append_nil]; exact logged.records

theorem Logged.flush (logged : Logged flate db ws pend) (order : Go.RangeOrder) : ∃ ws', Logged flate (db.flush flate order) ws' [] := by
  unfold DB.flush
  split
  · exact logged.known.compact db order
  · exact ⟨_, logged.flushed⟩

theorem load_log (order : Go.RangeOrder) (version : UInt64) (written : ∀ w ∈ ws, Written flate w)
    {part : List UInt8} (cut : Cut flate part) :
    let db := DB.load flate order (serializeHeader version ++ (log flate ws ++ part))
    db.version = version ∧ db.records = replay ws ∧ (part = [] → ∃ ws', Logged flate db ws' []) := by
  simp only [DB.load, deserializeDB_log version written cut]
  split
  · exact ⟨rfl, rfl, fun _ => Known.compact ⟨version, replay ws, _, _, _⟩ (known_replay written) order⟩
  · refine ⟨rfl, rfl, ?_⟩
    rintro rfl
    exact ⟨ws, by rw [List.append_nil], rfl, by rwa [List.append_nil], fun _ => by simp⟩

theorem Logged.load (logged : Logged flate db ws pend) (order : Go.RangeOrder) :
    let opened := DB.load flate order db.file
    opened.version = db.version ∧ opened.records = replay ws ∧ ∃ ws', Logged flate opened ws' [] := by
  have written : ∀ w ∈ ws, Written flate w := fun w member => logged.written w (List.mem_append_left _ member)
  have loaded := load_log order db.version written cut_nil
  rw [List.append_nil, ← logged.file] at loaded
  exact ⟨loaded.1, loaded.2.1, loaded.2.2 rfl⟩

theorem Logged.start (order : Go.RangeOrder) : ∃ ws, Logged flate (DB.load flate order []) ws [] :=
  Known.compact ⟨0, ∅, 0, none, []⟩ (fun _ _ found => nomatch found) order

theorem Logged.write (logged : Logged flate db ws pend) (written : Written flate w) {records : Records} {uncompacted : Nat}
    (applied : records = w.apply db.records) : Logged flate { db.serialize flate w with records, uncompacted } ws (pend ++ [w]) where
  file := logged.file
  pending := by
    show db.pending.getD [] ++ serializeRecord flate w = _
    rw [logged.pending, log_append, log, log, List.flatMap_singleton]
  written := by
    rw [← List.append_assoc, List.forall_mem_append, List.forall_mem_singleton]
    exact ⟨logged.written, written⟩
  records key := by
    rw [← List.append_assoc, replay_concat, lookup_apply, ← logged.records, ← lookup_apply, ← applied]

def Action.Edits : Action → Prop
  | .save .. | .delete _ => True
  | _ => False

theorem Logged.edit (logged : Logged flate db ws pend) {action : Action} (sized : action.Sized flate) (edits : action.Edits)
    (stepped : step flate db action = some db') :
    db'.version = db.version ∧ ∃ more, more.length ≤ 1 ∧ Logged flate db' ws (pend ++ more) := by
  have same : Logged flate db ws (pend ++ []) := (List.append_nil pend).symm ▸ logged
  cases action with
  | save key val seq =>
    simp only [step, DB.save] at stepped
    split at stepped
    · cases stepped
    · rename_i kept
      split at stepped <;> obtain rfl := Option.some.inj stepped
      · exact ⟨rfl, [], Nat.zero_le 1, same⟩
      · exact ⟨rfl, [_], Nat.le_refl 1, logged.write ⟨sized, fun deleted => absurd deleted kept⟩ (if_neg kept).symm⟩
  | delete key =>
    obtain rfl := Option.some.inj stepped
    unfold DB.delete
    split
    · exact ⟨rfl, [], Nat.zero_le 1, same⟩
    · rename_i there
      obtain ⟨rec, found⟩ := Option.ne_none_iff_exists'.mp (mt Option.isNone_iff_eq_none.mpr there)
      have size := (logged.known key rec found).1.key
      exact ⟨rfl, [_], Nat.le_refl 1, logged.write (w := ⟨key, [], seqDeleted⟩) ⟨⟨size, Nat.two_pow_pos 32, nofun⟩, fun _ => rfl⟩ (if_pos rfl).symm⟩
  | _ => exact edits.elim

theorem Logged.step (logged : Logged flate db ws pend) {action : Action} (sized : action.Sized flate)
    (stepped : step flate db action = some db') : ∃ ws' pend', Logged flate db' ws' pend' := by
  cases action with
  | flush order =>
    obtain rfl := Option.some.inj stepped
    exact (logged.flush order).imp fun _ flushed => ⟨[], flushed⟩
  | bumpVersion version order =>
    obtain rfl := Option.some.inj stepped
    unfold DB.bumpVersion
    split
    · exact (logged.flush order).imp fun _ flushed => ⟨[], flushed⟩
    · exact (Known.compact { db with version } logged.known order).imp fun _ compacted => ⟨[], compacted⟩
  | reopen order =>
    obtain rfl := Option.some.inj stepped
    exact (logged.load order).2.2.imp fun _ opened => ⟨[], opened⟩
  | save | delete =>
    obtain ⟨-, more, -, edited⟩ := logged.edit sized trivial stepped
    exact ⟨ws, _, edited⟩

theorem Logged.run {actions : List Action} (logged : Logged flate db ws pend) (sized : ∀ a ∈ actions, a.Sized flate)
    (ran : run flate db actions = some db') : ∃ ws' pend', Logged flate db' ws' pend' := by
  induction actions generalizing db ws pend with
  | nil => exact ⟨ws, pend, Option.some.inj ran ▸ logged⟩
  | cons a actions ih =>
    rw [List.forall_mem_cons] at sized
    obtain ⟨db₁, stepped, rest⟩ := Option.bind_eq_some_iff.mp (List.foldlM_cons.symm.trans ran)
    obtain ⟨ws₁, pend₁, logged₁⟩ := logged.step sized.1 stepped
    exact ih logged₁ sized.2 rest

/-- Every first part of the writes that wait is the database at some moment since the flush. -/
theorem Logged.moments {edits : List Action} (logged : Logged flate db ws []) (sized : ∀ a ∈ edits, a.Sized flate)
    (edit : ∀ a ∈ edits, a.Edits) (ran : CorpusDb.run flate db edits = some db') :
    db'.version = db.version ∧ ∃ pend, Logged flate db' ws pend ∧ ∀ j, ∃ m mid, CorpusDb.run flate db (edits.take m) = some mid ∧
      mid.version = db.version ∧ ∀ key, mid.records.lookup key = (replay (ws ++ pend.take j)).lookup key := by
  induction edits using List.reverseRecOn generalizing db' with
  | nil =>
    obtain rfl := Option.some.inj ran
    exact ⟨rfl, [], logged, fun j => ⟨0, db, rfl, rfl, by rw [List.take_nil]; exact logged.records⟩⟩
  | append_singleton edits a ih =>
    rw [List.forall_mem_append, List.forall_mem_singleton] at sized edit
    have whole := ran
    rw [CorpusDb.run, List.foldlM_append] at ran
    obtain ⟨db₁, ran₁, last⟩ := Option.bind_eq_some_iff.mp ran
    simp only [List.foldlM_cons, List.foldlM_nil, bind_pure] at last
    obtain ⟨version, pend, logged₁, each⟩ := ih sized.1 edit.1 ran₁
    obtain ⟨kept, more, one, logged'⟩ := logged₁.edit sized.2 edit.2 last
    refine ⟨kept.trans version, _, logged', fun j => ?_⟩
    by_cases early : j ≤ pend.length
    · obtain ⟨m, mid, ran', read⟩ := each j
      refine ⟨min m edits.length, mid, ?_, ?_⟩
      · rwa [List.take_append_of_le_length (Nat.min_le_right ..), ← List.take_eq_take_min]
      · rwa [List.take_append_of_le_length early]
    · refine ⟨edits.length + 1, db', by rwa [List.take_of_length_le (by simp)], kept.trans version, ?_⟩
      rw [List.take_of_length_le (by rw [List.length_append]; omega)]
      exact logged'.records

/-- What was there at a flush is there when the file is opened again. -/
theorem flush_persists (actions : List Action) {order : Go.RangeOrder} (sized : ∀ a ∈ actions, a.Sized flate)
    (ran : run flate (DB.load flate order []) actions = some db) (order₁ order₂ : Go.RangeOrder) :
    (DB.load flate order₂ (db.flush flate order₁).file).Agrees db := by
  obtain ⟨ws, start⟩ := @Logged.start flate order
  obtain ⟨ws', pend, logged⟩ := start.run sized ran
  obtain ⟨ws₁, flushed⟩ := logged.flush order₁
  obtain ⟨version, records, -⟩ := flushed.load order₂
  have same : (db.flush flate order₁).version = db.version ∧ (db.flush flate order₁).records = db.records := by
    unfold DB.flush
    split <;> exact ⟨rfl, rfl⟩
  refine ⟨version.trans same.1, fun key => (congrArg _ records).trans ?_⟩
  rw [← same.2, flushed.records, List.append_nil]

/-- Two records are saved and one of them is deleted; the version is raised and the file opened again; then the other one is
deleted and a third saved. -/
def history : List Action :=
  [.save [107] [[]] 7, .save [108] [[], []] 8, .delete [107], .bumpVersion 3 .stored, .reopen .stored, .delete [108],
    .save [109] [[]] 9]

theorem sized_history : ∀ a ∈ history, a.Sized .stored := by
  have sized : ∀ w ∈ ([⟨[107], [[]], 7⟩, ⟨[108], [[], []], 8⟩, ⟨[109], [[]], 9⟩] : List Write), Sized .stored w := by
    simp only [List.forall_mem_cons]
    exact ⟨⟨by decide, by decide, by decide⟩, ⟨by decide, by decide, by decide⟩, ⟨by decide, by decide, by decide⟩, by simp⟩
  simp only [List.forall_mem_cons] at sized
  simp only [history, List.forall_mem_cons]
  exact ⟨sized.1, sized.2.1, trivial, trivial, trivial, trivial, sized.2.2.1, by simp⟩

theorem flush_persists_history : ∃ db, run .stored (DB.load .stored .stored []) history = some db ∧
    (db.version = 3 ∧ (db.records.lookup [109]).isSome = true ∧ (db.records.lookup [108]).isSome = false) ∧
    (DB.load .stored .stored (db.flush .stored .stored).file).Agrees db := by
  have runs : ((run .stored (DB.load .stored .stored []) history).map fun db =>
      decide (db.version = 3 ∧ (db.records.lookup [109]).isSome = true ∧ (db.records.lookup [108]).isSome = false)) = some true := by
    decide +kernel
  obtain ⟨db, ran, holds⟩ := Option.map_eq_some_iff.mp runs
  exact ⟨db, ran, of_decide_eq_true holds, flush_persists history sized_history ran .stored .stored⟩

/-- A crash in the middle of a flush: what is opened is the database at a moment since the flush before. -/
theorem torn_recovers (actions edits : List Action) {order : Go.RangeOrder} (sized : ∀ a ∈ actions ++ edits, a.Sized flate)
    (ran : run flate (DB.load flate order []) actions = some db) (flushed : db.pending = none) (edit : ∀ a ∈ edits, a.Edits)
    (ran' : run flate db edits = some db') (n : Nat) (order' : Go.RangeOrder) :
    ∃ m mid, run flate db (edits.take m) = some mid ∧ (DB.load flate order' (db'.file ++ (db'.pending.getD []).take n)).Agrees mid := by
  rw [List.forall_mem_append] at sized
  obtain ⟨ws, start⟩ := @Logged.start flate order
  obtain ⟨ws', pend, logged⟩ := start.run sized.1 ran
  have settled : Logged flate db (ws' ++ pend) [] := by
    have settled := logged.flushed
    rw [flushed, Option.getD_none, List.append_nil] at settled
    rcases db with ⟨⟩
    cases flushed
    exact settled
  obtain ⟨version, pend', logged', each⟩ := settled.moments sized.2 edit ran'
  have written := List.forall_mem_append.mp logged'.written
  obtain ⟨j, part, cut, torn⟩ := take_log written.2 n
  obtain ⟨m, mid, ran₁, version₁, records⟩ := each j
  have known : ∀ w ∈ ws' ++ pend ++ pend'.take j, Written flate w :=
    List.forall_mem_append.mpr ⟨written.1, fun w member => written.2 w (List.mem_of_mem_take member)⟩
  obtain ⟨opened, read, -⟩ := load_log order' db'.version known cut
  rw [log_append, List.append_assoc, ← torn, ← logged'.pending, ← List.append_assoc, ← logged'.file] at opened read
  exact ⟨m, mid, ran₁, opened.trans (version.trans version₁.symm), fun key => (congrArg _ read).trans (records key).symm⟩

def lastEdits : List Action := [.delete [109], .save [110] [[]] 10]

theorem torn_recovers_history : ∃ db db', run .stored (DB.load .stored .stored []) (history ++ [.flush .stored]) = some db ∧
    run .stored db lastEdits = some db' ∧ (db'.pending.getD []).length = 47 ∧
    ∃ m mid, run .stored db (lastEdits.take m) = some mid ∧
      (DB.load .stored .stored (db'.file ++ (db'.pending.getD []).take 40)).Agrees mid := by
  have runs : ((run .stored (DB.load .stored .stored []) (history ++ [.flush .stored])).bind fun db =>
      (run .stored db lastEdits).map fun db' => decide (db.pending = none ∧ (db'.pending.getD []).length = 47)) = some true := by
    decide +kernel
  obtain ⟨db, ran, runs⟩ := Option.bind_eq_some_iff.mp runs
  obtain ⟨db', ran', holds⟩ := Option.map_eq_some_iff.mp runs
  obtain ⟨flushed, size⟩ := of_decide_eq_true holds
  refine ⟨db, db', ran, ran', size, torn_recovers (history ++ [.flush .stored]) lastEdits ?_ ran flushed ?_ ran' 40 .stored⟩
  · simp only [List.forall_mem_append, lastEdits, List.forall_mem_cons]
    exact ⟨⟨sized_history, trivial, by simp⟩, trivial, ⟨by decide, by decide, by decide⟩, by simp⟩
  · simp only [lastEdits, List.forall_mem_cons]
    exact ⟨trivial, trivial, by simp⟩

end DfsFuzz.CorpusDb
