import DfsFuzz.Output.CheckInfo

/-!
The metadata of the files behind the trace: `write_metadata` and `write_stat` of the executor,
`parseFsMd` of the fuzzer.
-/

namespace DfsFuzz.Output

open Bytes ByteReader

def direntSize : Nat := 280

/-- What `write_dir_info` finds of a file: its path below the directory, the bytes of its extended
attributes, what `get_file_chksum` and `readlink` give (`none` where they fail) and its stat. -/
structure FileRecord where
  relPath : List UInt8
  xattr : List UInt8
  chksum : Option UInt32
  link : Option (List UInt8)
  stat : List UInt8
  statFull : stat.length = statSize

namespace FileRecord

def mode (f : FileRecord) : Nat := ofLe ((f.stat.drop 24).take 4)

def isReg (f : FileRecord) : Bool := f.mode &&& 0o170000 == 0o100000

def isLnk (f : FileRecord) : Bool := f.mode &&& 0o170000 == 0o120000

def filepath (f : FileRecord) : List UInt8 := [46, 47] ++ f.relPath

def crc (f : FileRecord) : UInt32 := if f.isReg then f.chksum.getD 0 else 0

def symlinkPath (f : FileRecord) : List UInt8 := if f.isLnk then (f.link.getD []).take 4096 else []

/-- Neither the checksum nor the link of the file ends the executor. -/
def readable (f : FileRecord) : Bool := (!f.isReg || f.chksum.isSome) && (!f.isLnk || f.link.isSome)

/-- The path fits the buffer it is printed to. -/
def named (f : FileRecord) : Bool := f.filepath.length < 512

/-- `write_stat`, with the number of records written. -/
def writeStat (f : FileRecord) (st : Region × UInt32) : Option (Region × UInt32) := do
  let (r, statCnt) := st
  if kMaxOutput ≤ r.pos + statSize + direntSize then none
  else if !f.readable then none
  else if !f.named then return st
  else
    let r ← r.writeOutput (UInt32.ofNat f.filepath.length)
    let r ← r.writeOutput (UInt32.ofNat f.xattr.length)
    let r ← r.writeOutput (UInt32.ofNat f.symlinkPath.length)
    let r := ((((r.put f.filepath).put f.xattr).put (le32 f.crc)).put f.symlinkPath).put f.stat
    return (r.savePos, statCnt + 1)

def bytes (f : FileRecord) : List UInt8 :=
  le32 (UInt32.ofNat f.filepath.length) ++ (le32 (UInt32.ofNat f.xattr.length) ++
    (le32 (UInt32.ofNat f.symlinkPath.length) ++ (f.filepath ++ (f.xattr ++ (le32 f.crc ++
      (f.symlinkPath ++ f.stat))))))

end FileRecord

/-- What decides on the metadata: the flag of a light round and the configuration. `dirLost` is the
test directory of glusterfs that cannot be read. -/
structure MetadataMode where
  flagSkipFsMd : Bool
  enableCsan : Bool
  enableC2san : Bool
  lfsBased : Bool
  dirLost : Bool

def MetadataMode.collects (m : MetadataMode) (isDfsClient : Bool) : Bool :=
  ((isDfsClient || (!isDfsClient && m.lfsBased)) && m.enableCsan) || (isDfsClient && m.enableC2san)

/-- `write_metadata` for a client or a server; `files` in the order of the traversal. -/
def writeMetadata (m : MetadataMode) (isDfsClient : Bool) (files : List FileRecord) (r : Region) : Option Region := do
  let r := { r with pos := 4 * r.posValue }
  if m.flagSkipFsMd then r.writeOutput 0xFFFFFFFF
  else
    let statCntPos := r.pos
    let r ← r.writeOutput 0
    if m.collects isDfsClient then
      if m.dirLost then return r
      else
        let (r, statCnt) ← files.foldlM (fun st f => f.writeStat st) (r, 0)
        return r.patch statCntPos statCnt
    else return r.patch statCntPos (-1)

/-- The records of a round that collects metadata: a file whose path was cut has none. -/
def writtenFiles (m : MetadataMode) (files : List FileRecord) : List FileRecord :=
  if m.dirLost then [] else files.filter FileRecord.named

abbrev FsMd := Go.Map (List UInt8) FileMetadata

def sizeError (kind : String) (size : UInt32) (left : Nat) : String :=
  "bad " ++ kind ++ " size " ++ toString size ++ "/" ++ toString left

/-- The names and values of a file's attributes; the last byte of the buffer is dropped. -/
def parseXattrs (xattr : List UInt8) : Go.Map String String :=
  let xattrs := Go.ofBytes xattr.dropLast
  if xattrs = "" then ∅
  else
    (Go.split xattrs ';').foldl (fun m attr =>
      if xattrFilter attr then m
      else
        let ret := Go.split attr ':'
        m.insert (ret.headD "") (if ret.length = 2 then
          serialize2Str (((ret.getD 1 "").toList).map fun c => UInt8.ofNat c.toNat) else "")) ∅

def readFile : Reader (List UInt8 × FileMetadata) := do
  let filepathSize ← uint32 "failed to read filepathSize"
  let xattrSize ← uint32 "failed to read xattrSize"
  let sympathSize ← uint32 "failed to read sympathSize"
  let out ← get
  let filepath ← bytes (sizeError "filepath" filepathSize out.length) filepathSize.toNat
  let out ← get
  let xattr ← bytes (sizeError "xattr" xattrSize out.length) xattrSize.toNat
  let checksum ← uint32 "failed to read checksum"
  let out ← get
  let symlinkPath ← bytes (sizeError "symlink" sympathSize out.length) sympathSize.toNat
  let out ← get
  let statMd ← bytes (sizeError "stat" (UInt32.ofNat statSize) out.length) statSize
  return (filepath, { statMd, xattr := parseXattrs xattr, checksum, symlinkPath })

def readFiles : Nat → FsMd → Reader FsMd
  | 0, fsMd => return fsMd
  | left + 1, fsMd => do
    let (filepath, fileMd) ← readFile
    if (fsMd.lookup filepath).isSome then throw "Duplicated file in received metadata"
    else readFiles left (fsMd.insert filepath fileMd)

/-- `none` is the nil map of a round without metadata. -/
def parseFsMd : Reader (Option FsMd) := do
  let statCnt ← uint32 "failed to read number of stat_cnt"
  if statCnt = 0xFFFFFFFF then return none
  else
    let fsMd ← readFiles statCnt.toNat ∅
    return some fsMd

def FileRecord.metadata (f : FileRecord) : FileMetadata :=
  { statMd := f.stat, xattr := parseXattrs f.xattr, checksum := f.crc, symlinkPath := f.symlinkPath }

namespace FileRecord

variable {f : FileRecord} {r r' : Region} {n n' : UInt32}

theorem writeStat_appends (wrote : f.writeStat (r, n) = some (r', n')) (saved : r.posValue = r.pos / 4) :
    Region.Appends r (if f.named then f.bytes else []) r' ∧ n' = if f.named then n + 1 else n := by
  simp only [writeStat] at wrote
  obtain ⟨_, wrote⟩ := Option.ite_none_left_eq_some.mp wrote
  obtain ⟨_, wrote⟩ := Option.ite_none_left_eq_some.mp wrote
  cases named : f.named with
  | false =>
    rw [named] at wrote
    obtain ⟨rfl, rfl⟩ := Prod.mk.inj (Option.some.inj wrote)
    exact ⟨⟨(List.append_nil _).symm, rfl, saved⟩, rfl⟩
  | true =>
    rw [named] at wrote
    simp only [Bool.not_true, Bool.false_eq_true, if_false, Option.bind_eq_bind, Option.bind_eq_some_iff] at wrote
    obtain ⟨r1, path, r2, xattr, r3, link, last⟩ := wrote
    obtain ⟨rfl, rfl⟩ := Prod.mk.inj (Option.some.inj last)
    have sizes := (Region.writeOutput_appends path).trans
      ((Region.writeOutput_appends xattr).trans (Region.writeOutput_appends link))
    refine ⟨⟨?_, sizes.completed, rfl⟩, rfl⟩
    have copied := Region.written_put ((((r3.put f.filepath).put f.xattr).put (le32 f.crc)).put f.symlinkPath) f.stat
    refine copied.trans ?_
    rw [Region.written_put, Region.written_put, Region.written_put, Region.written_put, sizes.written]
    simp only [bytes, if_true, List.append_assoc]

/-- The sizes of the record fit the words they are written to. -/
structure Fits (f : FileRecord) : Prop where
  filepath : f.filepath.length < UInt32.size
  xattr : f.xattr.length < UInt32.size
  symlinkPath : f.symlinkPath.length < UInt32.size

theorem fits_of_length (small : f.bytes.length < UInt32.size) : f.Fits := by
  simp only [bytes, List.length_append] at small
  constructor <;> omega

theorem reads (fits : f.Fits) : Reads readFile f.bytes (f.filepath, f.metadata) := by
  have path : (UInt32.ofNat f.filepath.length).toNat = f.filepath.length := UInt32.toNat_ofNat_of_lt' fits.filepath
  have xattr : (UInt32.ofNat f.xattr.length).toNat = f.xattr.length := UInt32.toNat_ofNat_of_lt' fits.xattr
  have link : (UInt32.ofNat f.symlinkPath.length).toNat = f.symlinkPath.length :=
    UInt32.toNat_ofNat_of_lt' fits.symlinkPath
  refine (reads_uint32 _ _).bind ((reads_uint32 _ _).bind ((reads_uint32 _ _).bind (Reads.look fun rest => ?_)))
  rw [path]
  refine (reads_bytes _ f.filepath).bind (Reads.look fun rest => ?_)
  rw [xattr]
  refine (reads_bytes _ f.xattr).bind ((reads_uint32 _ f.crc).bind (Reads.look fun rest => ?_))
  rw [link]
  refine (reads_bytes _ f.symlinkPath).bind (Reads.look fun rest => ?_)
  have stat := reads_bytes (sizeError "stat" (UInt32.ofNat statSize) (f.stat ++ rest).length) f.stat
  rw [f.statFull] at stat
  exact stat.map _

end FileRecord

section Files
variable {m : MetadataMode} {files : List FileRecord} {r r' : Region} {n n' : UInt32}

theorem writeFiles_appends (wrote : files.foldlM (fun st f => f.writeStat st) (r, n) = some (r', n'))
    (saved : r.posValue = r.pos / 4) :
    Region.Appends r ((files.filter FileRecord.named).flatMap FileRecord.bytes) r' ∧
      n' = n + UInt32.ofNat (files.filter FileRecord.named).length := by
  induction files generalizing r n with
  | nil =>
    obtain ⟨rfl, rfl⟩ := Prod.mk.inj (Option.some.inj wrote)
    exact ⟨⟨(List.append_nil _).symm, rfl, saved⟩, (UInt32.add_zero n).symm⟩
  | cons f files ih =>
    rw [List.foldlM_cons] at wrote
    obtain ⟨⟨r1, n1⟩, one, rest⟩ := Option.bind_eq_some_iff.mp wrote
    obtain ⟨first, counted⟩ := FileRecord.writeStat_appends one saved
    obtain ⟨others, total⟩ := ih rest first.posValue
    have both := first.trans others
    cases named : f.named with
    | false =>
      rw [named] at both counted
      rw [List.filter_cons_of_neg (by simp [named]), total, counted]
      exact ⟨both, rfl⟩
    | true =>
      rw [named] at both counted
      rw [List.filter_cons_of_pos named, total, counted, List.length_cons, UInt32.ofNat_add, if_pos rfl, UInt32.add_assoc]
      exact ⟨both, congrArg (n + ·) (UInt32.add_comm 1 _)⟩

def metadataBytes (m : MetadataMode) (isDfsClient : Bool) (files : List FileRecord) : List UInt8 :=
  if m.flagSkipFsMd then le32 0xFFFFFFFF
  else if m.collects isDfsClient then
    le32 (UInt32.ofNat (writtenFiles m files).length) ++ (writtenFiles m files).flatMap FileRecord.bytes
  else le32 (-1)

/-- The count stands as zero before the records and is patched behind them. -/
theorem writeMetadata_written {isDfsClient : Bool} (wrote : writeMetadata m isDfsClient files r = some r')
    (aligned : 4 * r.posValue = r.pos) : r'.written = r.written ++ metadataBytes m isDfsClient files := by
  have start : ({ r with pos := 4 * r.posValue } : Region).written = r.written := by
    rw [Region.written, Region.written, aligned]
  simp only [writeMetadata] at wrote
  unfold metadataBytes
  split at wrote
  next skip =>
    rw [if_pos skip, ← start]
    exact (Region.writeOutput_appends wrote).written
  next full =>
    simp only [Option.bind_eq_bind, Option.bind_eq_some_iff] at wrote
    obtain ⟨r1, zero, wrote⟩ := wrote
    have counted : r1.written = r.written ++ le32 0 := (Region.writeOutput_appends zero).written.trans (by rw [start])
    have place : 4 * r.posValue = r.written.length := aligned.trans (Region.length_written r).symm
    rw [if_neg full]
    split at wrote
    next collects =>
      rw [if_pos collects]
      split at wrote
      next lost =>
        obtain rfl := Option.some.inj wrote
        rw [counted, writtenFiles, if_pos lost]
        rfl
      next found =>
        simp only [Option.bind_eq_some_iff] at wrote
        obtain ⟨⟨r2, statCnt⟩, records, last⟩ := wrote
        obtain rfl := Option.some.inj last
        obtain ⟨appended, total⟩ := writeFiles_appends records (Region.writeOutput_appends zero).posValue
        have known : r2.written = r.written ++ (le32 0 ++ (files.filter FileRecord.named).flatMap FileRecord.bytes) := by
          rw [appended.written, counted, List.append_assoc]
        rw [place, Region.written_patch statCnt known, total, UInt32.zero_add, writtenFiles, if_neg found]
    next skip =>
      rw [if_neg skip]
      obtain rfl := Option.some.inj wrote
      have known : r1.written = r.written ++ (le32 0 ++ []) := counted
      rw [place, Region.written_patch (-1) known, List.append_nil]

theorem reads_files (fits : ∀ f ∈ files, f.Fits) (distinct : (files.map FileRecord.filepath).Nodup) {fsMd : FsMd}
    (fresh : ∀ f ∈ files, fsMd.lookup f.filepath = none) :
    Reads (readFiles files.length fsMd) (files.flatMap FileRecord.bytes)
      (files.foldl (fun fsMd f => fsMd.insert f.filepath f.metadata) fsMd) := by
  induction files generalizing fsMd with
  | nil => exact Reads.pure fsMd
  | cons f files ih =>
    obtain ⟨away, rest⟩ := List.nodup_cons.mp distinct
    have later : ∀ g ∈ files, (fsMd.insert f.filepath f.metadata).lookup g.filepath = none := by
      intro g member
      have differs : g.filepath ≠ f.filepath := fun same => away (List.mem_map.mpr ⟨g, member, same⟩)
      rw [AList.lookup_insert_ne differs]
      exact fresh g (List.mem_cons_of_mem f member)
    have tail := ih (fun g member => fits g (List.mem_cons_of_mem f member)) rest later
    refine (FileRecord.reads (fits f List.mem_cons_self)).bind ?_
    have missing : ¬ (fsMd.lookup f.filepath).isSome := by
      rw [fresh f List.mem_cons_self]
      nofun
    dsimp only
    rw [if_neg missing]
    exact tail

def mapOf (files : List FileRecord) : FsMd := files.foldl (fun fsMd f => fsMd.insert f.filepath f.metadata) ∅

theorem lookup_mapOf (distinct : (files.map FileRecord.filepath).Nodup) (path : List UInt8) (md : FileMetadata) :
    (mapOf files).lookup path = some md ↔ ∃ f ∈ files, f.filepath = path ∧ f.metadata = md :=
  Go.Map.lookup_filled distinct path md

/-- The map the fuzzer reads: none of a round that collected nothing. -/
def readMap (m : MetadataMode) (isDfsClient : Bool) (files : List FileRecord) : Option FsMd :=
  if !m.flagSkipFsMd && m.collects isDfsClient then some (mapOf (writtenFiles m files)) else none

theorem writtenFiles_sublist (m : MetadataMode) (files : List FileRecord) : (writtenFiles m files).Sublist files := by
  unfold writtenFiles
  split
  · exact List.nil_sublist files
  · exact List.filter_sublist

theorem reads_fsMd {isDfsClient : Bool} (small : (metadataBytes m isDfsClient files).length < UInt32.size)
    (distinct : (files.map FileRecord.filepath).Nodup) :
    Reads parseFsMd (metadataBytes m isDfsClient files) (readMap m isDfsClient files) := by
  have nothing : Reads parseFsMd (le32 0xFFFFFFFF) (none : Option FsMd) := by
    have sentinel := (reads_uint32 "failed to read number of stat_cnt" 0xFFFFFFFF).bind (f := fun statCnt =>
      if statCnt = 0xFFFFFFFF then return none
      else do
        let fsMd ← readFiles statCnt.toNat ∅
        return some fsMd) (Reads.pure none)
    exact sentinel
  unfold metadataBytes readMap at *
  cases skip : m.flagSkipFsMd with
  | true => exact nothing
  | false =>
    cases collects : m.collects isDfsClient with
    | false => exact nothing
    | true =>
      simp only [skip, collects, Bool.false_eq_true, if_false, if_true, Bool.not_false, Bool.and_self] at small ⊢
      rw [List.length_append, length_le32] at small
      have count : (writtenFiles m files).length ≤ ((writtenFiles m files).flatMap FileRecord.bytes).length :=
        length_le_flatMap fun f _ => by
          rw [FileRecord.bytes, List.length_append, length_le32]
          omega
      have limit : UInt32.size = 4294967296 := rfl
      have size : (UInt32.ofNat (writtenFiles m files).length).toNat = (writtenFiles m files).length :=
        UInt32.toNat_ofNat_of_lt' (by omega)
      have many : UInt32.ofNat (writtenFiles m files).length ≠ 0xFFFFFFFF := by
        intro same
        have value := congrArg UInt32.toNat same
        rw [size] at value
        have top : (0xFFFFFFFF : UInt32).toNat = 4294967295 := rfl
        omega
      have fits : ∀ f ∈ writtenFiles m files, f.Fits := fun f member => FileRecord.fits_of_length (by
        have own : f.bytes.length ≤ ((writtenFiles m files).flatMap FileRecord.bytes).length :=
          length_le_flatMap_of_mem member
        omega)
      have names := distinct.sublist ((writtenFiles_sublist m files).map FileRecord.filepath)
      have body := reads_files fits names fun f _ => AList.lookup_empty f.filepath
      refine (reads_uint32 _ _).bind ?_
      rw [if_neg many, size]
      exact body.map some

end Files

end DfsFuzz.Output
