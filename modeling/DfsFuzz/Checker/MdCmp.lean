import DfsFuzz.Hmdfs.Conflict
import DfsFuzz.Prog.Types

/-! The comparison of the clients' snapshots (`checker/conc-fs.go`). -/

namespace DfsFuzz.Checker

def sIFDIR : UInt32 := 0x4000

def octal (n : UInt32) : String := String.ofList (Nat.toDigits 8 n.toNat)

def xattrCmp (xattr1 xattr2 : Go.Map String String) : Bool :=
  xattr1.items.all fun e => xattr2.lookup e.1 = some e.2

def compareFileMeta (path : String) (m1 m2 : FileMetadata) (fsType : String) : List String :=
  if m1.statMd.mode &&& sIFDIR ≠ m2.statMd.mode &&& sIFDIR then
    [s!"{path}: dirtype {octal (m1.statMd.mode &&& sIFDIR)} vs {octal (m2.statMd.mode &&& sIFDIR)}"]
  else
    let isDir : Bool := m1.statMd.mode &&& sIFDIR ≠ 0
    (if m1.checksum ≠ m2.checksum then [s!"{path}: checksum {m1.checksum} vs {m2.checksum}"] else []) ++
    (if fsType ≠ "hmdfs" ∧ m1.statMd.nlink ≠ m2.statMd.nlink then
      [s!"{path}: nlink {m1.statMd.nlink} vs {m2.statMd.nlink}"] else []) ++
    (if fsType ≠ "hmdfs" ∧ m1.statMd.mode ≠ m2.statMd.mode then
      [s!"{path}: mode {octal m1.statMd.mode} vs {octal m2.statMd.mode}"] else []) ++
    (if fsType ≠ "hmdfs" ∧ m1.statMd.mtimSec ≠ m2.statMd.mtimSec then
      [s!"{path}: mtime {m1.statMd.mtimSec} vs {m2.statMd.mtimSec}"] else []) ++
    (if fsType ≠ "hmdfs" ∧ isDir = false ∧ m1.statMd.size ≠ m2.statMd.size then
      [s!"{path}: size {m1.statMd.size} vs {m2.statMd.size}"] else []) ++
    (if xattrCmp m1.xattr m2.xattr then [] else [s!"{path}: xattr differ"])

def compareEntry (fsMd2 : FsMd) (fsType : String) (e : String × FileMetadata) : List String :=
  match fsMd2.lookup e.1 with
  | none => [s!"{e.1}: missing from client2"]
  | some md2 => compareFileMeta e.1 e.2 md2 fsType

def mdCmp (order : Go.RangeOrder) (fsMd1 fsMd2 : FsMd) (fsType : String) : List String :=
  let ics := if fsMd1.items.length ≠ fsMd2.items.length then
    [s!"file count: {fsMd1.items.length} vs {fsMd2.items.length}"] else []
  if fsMd1.items.length = 0 ∧ fsMd2.items.length = 0 then ics
  else
    ics ++
    (order.arrange fsMd1.items).flatMap (compareEntry fsMd2 fsType) ++
    (order.arrange fsMd2.items).flatMap fun e =>
      if (fsMd1.lookup e.1).isSome then [] else [s!"{e.1}: missing from client1"]

/-- The device id of a conflicting file name, or -1. -/
def conflictDevID (path : String) : Int64 :=
  let chars := path.toList
  let base := chars.drop (((Go.lastIndexByte chars '/').map (· + 1)).getD 0)
  let dot := (Go.lastIndexByte base '.').getD base.length
  let digitStart := ((base.take dot).rdropWhile Char.isDigit).length
  let suffix := Hmdfs.conflictFileSuffix.toList
  if digitStart = dot then -1
  else if digitStart < suffix.length ∨ (base.take digitStart).drop (digitStart - suffix.length) ≠ suffix then -1
  else ((base.take dot).drop digitStart).foldl (fun n c => n * 10 + Int64.ofNat (c.toNat - '0'.toNat)) 0

structure Backup where
  dev : Int64
  name : String
  md : FileMetadata

def keepBackup (backups : Go.Map String Backup) (name : String) (md : FileMetadata) : Go.Map String Backup :=
  let canon := Hmdfs.canonicalHmdfsName name
  let dev := conflictDevID name
  let better := match backups.lookup canon with
    | none => true
    | some old => decide (dev < old.dev ∨ (dev = old.dev ∧ name < old.name))
  if better then backups.insert canon { dev, name, md } else backups

def canonicalizeFsMd (order : Go.RangeOrder) (fsMd : FsMd) : FsMd :=
  if fsMd.items.length = 0 then fsMd
  else
    let both := (order.arrange fsMd.items).foldl (fun (both : FsMd × Go.Map String Backup) e =>
      if Hmdfs.canonicalHmdfsName e.1 = e.1 then (both.1.insert e.1 e.2, both.2)
      else (both.1, keepBackup both.2 e.1 e.2)) (∅, ∅)
    (order.arrange both.2.items).foldl (fun out e => out.putNew e.1 e.2.md) both.1

/-- The snapshots that `ConcFSCheck` compares: those of the clients. -/
def clients (order : Go.RangeOrder) (fsMds : List FsMd) (srvNum : Nat) (fsType : String) : List FsMd :=
  (if fsType = "hmdfs" then fsMds.map (canonicalizeFsMd order) else fsMds).drop srvNum

/-- `for i := srvNum; i < len(fsMds)-1; i++ { ... MdCmp(fsMds[i], fsMds[i+1]) ... }` -/
def adjacentCmp (order : Go.RangeOrder) (fsType : String) : List FsMd → List String
  | a :: b :: rest => mdCmp order a b fsType ++ adjacentCmp order fsType (b :: rest)
  | _ => []

/-- The cross-client check of `ConcFSCheck`: what it reports. -/
def concFSCheck (order : Go.RangeOrder) (fsMds : List FsMd) (srvNum : Nat) (fsType : String) : List String :=
  adjacentCmp order fsType (clients order fsMds srvNum fsType)

/-! ### What an empty report means -/

/-- Everything `compareFileMeta` compares but the extended attributes. -/
structure SameMeta (fsType : String) (m1 m2 : FileMetadata) : Prop where
  dirBit : m1.statMd.mode &&& sIFDIR = m2.statMd.mode &&& sIFDIR
  checksum : m1.checksum = m2.checksum
  nlink : fsType ≠ "hmdfs" → m1.statMd.nlink = m2.statMd.nlink
  mode : fsType ≠ "hmdfs" → m1.statMd.mode = m2.statMd.mode
  mtime : fsType ≠ "hmdfs" → m1.statMd.mtimSec = m2.statMd.mtimSec
  size : fsType ≠ "hmdfs" → m1.statMd.mode &&& sIFDIR = 0 → m1.statMd.size = m2.statMd.size

variable {fsType : String}

theorem SameMeta.symm {m1 m2 : FileMetadata} (same : SameMeta fsType m1 m2) : SameMeta fsType m2 m1 where
  dirBit := same.dirBit.symm
  checksum := same.checksum.symm
  nlink strict := (same.nlink strict).symm
  mode strict := (same.mode strict).symm
  mtime strict := (same.mtime strict).symm
  size strict file := (same.size strict (same.dirBit.trans file)).symm

theorem SameMeta.trans {m1 m2 m3 : FileMetadata} (first : SameMeta fsType m1 m2) (second : SameMeta fsType m2 m3) :
    SameMeta fsType m1 m3 where
  dirBit := first.dirBit.trans second.dirBit
  checksum := first.checksum.trans second.checksum
  nlink strict := (first.nlink strict).trans (second.nlink strict)
  mode strict := (first.mode strict).trans (second.mode strict)
  mtime strict := (first.mtime strict).trans (second.mtime strict)
  size strict file := (first.size strict file).trans (second.size strict (first.dirBit.symm.trans file))

/-- The attributes of a path; a missing path has none. -/
def attrs (fsMd : FsMd) (path : String) : Go.Map String String := ((fsMd.lookup path).map FileMetadata.xattr).getD ∅

/-- Every extended attribute in `a` is in `b` too. -/
def AttrsAmong (a b : FsMd) : Prop :=
  ∀ path name value, (attrs a path).lookup name = some value → (attrs b path).lookup name = some value

/-- The same paths with the same metadata, the extended attributes apart. -/
structure Agree (fsType : String) (a b : FsMd) : Prop where
  count : a.items.length = b.items.length
  paths : ∀ path, (a.lookup path).isSome ↔ (b.lookup path).isSome
  same : ∀ path m1 m2, a.lookup path = some m1 → b.lookup path = some m2 → SameMeta fsType m1 m2

variable {a b : FsMd}

theorem Agree.symm (agree : Agree fsType a b) : Agree fsType b a where
  count := agree.count.symm
  paths path := (agree.paths path).symm
  same path m1 m2 first second := (agree.same path m2 m1 second first).symm

theorem Agree.trans {c : FsMd} (first : Agree fsType a b) (second : Agree fsType b c) : Agree fsType a c where
  count := first.count.trans second.count
  paths path := (first.paths path).trans (second.paths path)
  same path m1 m3 here there := by
    obtain ⟨m2, between⟩ := Option.isSome_iff_exists.mp ((first.paths path).mp (by rw [here]; rfl))
    exact (first.same path m1 m2 here between).trans (second.same path m2 m3 between there)

theorem AttrsAmong.trans {c : FsMd} (first : AttrsAmong a b) (second : AttrsAmong b c) : AttrsAmong a c :=
  fun path name value here => second path name value (first path name value here)

/-- The order behind `MdCmp`: agreement, with the attributes of the first among those of the second. -/
def Follows (fsType : String) (a b : FsMd) : Prop := Agree fsType a b ∧ AttrsAmong a b

theorem Follows.refl (fsType : String) (a : FsMd) : Follows fsType a a := by
  refine ⟨⟨rfl, fun _ => Iff.rfl, fun path m1 m2 here there => ?_⟩, fun _ _ _ here => here⟩
  obtain rfl := Option.some.inj (here.symm.trans there)
  exact ⟨rfl, rfl, fun _ => rfl, fun _ => rfl, fun _ => rfl, fun _ _ => rfl⟩

instance (fsType : String) : Trans (Follows fsType) (Follows fsType) (Follows fsType) :=
  ⟨fun first second => ⟨first.1.trans second.1, first.2.trans second.2⟩⟩

theorem xattrCmp_iff {xattr1 xattr2 : Go.Map String String} :
    xattrCmp xattr1 xattr2 = true ↔ ∀ name value, xattr1.lookup name = some value → xattr2.lookup name = some value := by
  simp only [xattrCmp, List.all_eq_true, decide_eq_true_eq]
  constructor
  · exact fun all name value here => all (name, value) (Go.Map.mem_items.mpr here)
  · exact fun all e member => all e.1 e.2 (Go.Map.mem_items.mp member)

theorem compareFileMeta_nil_iff {path : String} {m1 m2 : FileMetadata} :
    compareFileMeta path m1 m2 fsType = [] ↔ SameMeta fsType m1 m2 ∧ xattrCmp m1.xattr m2.xattr = true := by
  have guarded : ∀ {p : Prop} [Decidable p] {message : String}, (if p then [message] else []) = [] ↔ ¬ p := by
    intro p _ message
    split
    · simp [*]
    · simp [*]
  have passed : ∀ {b : Bool} {message : String}, (if b = true then [] else [message]) = [] ↔ b = true := by
    intro b message
    cases b <;> simp
  unfold compareFileMeta
  split
  · rename_i different
    exact iff_of_false (by simp) fun both => different both.1.dirBit
  · rename_i dirBit
    simp only [List.append_eq_nil_iff, guarded, passed, decide_eq_false_iff_not, ne_eq, not_and, not_not] at dirBit ⊢
    constructor
    · rintro ⟨⟨⟨⟨⟨checksum, nlink⟩, mode⟩, mtime⟩, size⟩, xattr⟩
      exact ⟨⟨dirBit, checksum, nlink, mode, mtime, size⟩, xattr⟩
    · rintro ⟨same, xattr⟩
      exact ⟨⟨⟨⟨⟨same.checksum, same.nlink⟩, same.mode⟩, same.mtime⟩, same.size⟩, xattr⟩

variable {order : Go.RangeOrder}

/-- No row of the first loop of `MdCmp` reports anything. -/
theorem firstLoop_nil_iff :
    (order.arrange a.items).flatMap (compareEntry b fsType) = [] ↔
    ∀ path m1, a.lookup path = some m1 →
      ∃ m2, b.lookup path = some m2 ∧ SameMeta fsType m1 m2 ∧ xattrCmp m1.xattr m2.xattr = true := by
  rw [List.flatMap_eq_nil_iff]
  constructor
  · intro all path m1 here
    have row := all (path, m1) ((order.perm _).mem_iff.mpr (Go.Map.mem_items.mpr here))
    cases there : b.lookup path with
    | none => simp [compareEntry, there] at row
    | some m2 =>
      simp only [compareEntry, there] at row
      exact ⟨m2, rfl, compareFileMeta_nil_iff.mp row⟩
  · rintro all ⟨path, m1⟩ member
    obtain ⟨m2, there, same⟩ := all path m1 (Go.Map.mem_items.mp ((order.perm _).mem_iff.mp member))
    simp only [compareEntry, there]
    exact compareFileMeta_nil_iff.mpr same

theorem secondLoop_nil_iff :
    ((order.arrange b.items).flatMap fun e =>
      if (a.lookup e.1).isSome then [] else [s!"{e.1}: missing from client1"]) = [] ↔
    ∀ path, (b.lookup path).isSome → (a.lookup path).isSome := by
  rw [List.flatMap_eq_nil_iff]
  constructor
  · intro all path there
    obtain ⟨m2, there⟩ := Option.isSome_iff_exists.mp there
    have row := all (path, m2) ((order.perm _).mem_iff.mpr (Go.Map.mem_items.mpr there))
    by_contra missing
    simp [missing] at row
  · rintro all ⟨path, m2⟩ member
    have there := Go.Map.mem_items.mp ((order.perm _).mem_iff.mp member)
    simp [all path (by rw [there]; rfl)]

theorem mdCmp_loops :
    mdCmp order a b fsType = [] ↔ a.items.length = b.items.length ∧
      (order.arrange a.items).flatMap (compareEntry b fsType) = [] ∧
      ((order.arrange b.items).flatMap fun e =>
        if (a.lookup e.1).isSome then [] else [s!"{e.1}: missing from client1"]) = [] := by
  unfold mdCmp
  by_cases count : a.items.length = b.items.length
  · by_cases empty : a.items.length = 0
    · have nothing : a.items = [] ∧ b.items = [] :=
        ⟨List.length_eq_zero_iff.mp empty, List.length_eq_zero_iff.mp (count ▸ empty)⟩
      have arranged : order.arrange ([] : List (String × FileMetadata)) = [] := (order.perm _).eq_nil
      simp [nothing.1, nothing.2, arranged]
    · simp [count, count ▸ empty]
  · have some : ¬ (a.items.length = 0 ∧ b.items.length = 0) := fun both => count (both.1.trans both.2.symm)
    simp only [ne_eq, count, not_false_eq_true, if_true, if_neg some, false_and, iff_false]
    simp

theorem mdCmp_nil_iff :
    mdCmp order a b fsType = [] ↔ Follows fsType a b := by
  rw [mdCmp_loops, firstLoop_nil_iff, secondLoop_nil_iff]
  constructor
  · rintro ⟨count, first, second⟩
    refine ⟨⟨count, fun path => ⟨fun here => ?_, second path⟩, fun path m1 m2 here there => ?_⟩, ?_⟩
    · obtain ⟨m1, here⟩ := Option.isSome_iff_exists.mp here
      obtain ⟨m2, there, -⟩ := first path m1 here
      rw [there]
      rfl
    · obtain ⟨m2', there', same, -⟩ := first path m1 here
      obtain rfl := Option.some.inj (there.symm.trans there')
      exact same
    · intro path name value here
      cases found : a.lookup path with
      | none => simp [attrs, found] at here
      | some m1 =>
        obtain ⟨m2, there, -, xattr⟩ := first path m1 found
        simp only [attrs, found, there, Option.map_some, Option.getD_some] at here ⊢
        exact xattrCmp_iff.mp xattr name value here
  · rintro ⟨agree, among⟩
    refine ⟨agree.count, fun path m1 here => ?_, fun path there => (agree.paths path).mpr there⟩
    obtain ⟨m2, there⟩ := Option.isSome_iff_exists.mp ((agree.paths path).mp (by rw [here]; rfl))
    refine ⟨m2, there, agree.same path m1 m2 here there, xattrCmp_iff.mpr fun name value stored => ?_⟩
    have kept := among path name value
    simp only [attrs, here, there, Option.map_some, Option.getD_some] at kept
    exact kept stored

theorem mdCmp_trans {c : FsMd} (first : mdCmp order a b fsType = []) (second : mdCmp order b c fsType = []) :
    mdCmp order a c fsType = [] := by
  rw [mdCmp_nil_iff] at first second ⊢
  exact Trans.trans first second

/-- `b` has the attributes of `a`, and on some path one that `a` lacks. -/
def AttrsGrow (a b : FsMd) : Prop := AttrsAmong a b ∧ ¬ AttrsAmong b a

theorem mdCmp_symm_iff :
    (mdCmp order a b fsType = [] ↔ mdCmp order b a fsType = []) ↔
      ¬ (Agree fsType a b ∧ (AttrsGrow a b ∨ AttrsGrow b a)) := by
  rw [mdCmp_nil_iff, mdCmp_nil_iff]
  have agree : Agree fsType b a ↔ Agree fsType a b := ⟨Agree.symm, Agree.symm⟩
  simp only [Follows, AttrsGrow, agree]
  tauto

/-- The clients agree and the attributes only grow from each to the next, but they do grow. -/
def GrowsAlong (fsType : String) (l : List FsMd) : Prop :=
  l.IsChain (Follows fsType) ∧ ∃ a ∈ l, ∃ b ∈ l, AttrsGrow a b

theorem adjacentCmp_nil_iff (l : List FsMd) : adjacentCmp order fsType l = [] ↔ l.IsChain (Follows fsType) := by
  induction l with
  | nil => simp [adjacentCmp]
  | cons a rest ih =>
    cases rest with
    | nil => simp [adjacentCmp]
    | cons b rest =>
      rw [adjacentCmp, List.append_eq_nil_iff, mdCmp_nil_iff, ih, List.isChain_cons_cons]

theorem GrowsAlong.of_chain {l : List FsMd} (chain : l.IsChain (Follows fsType)) (still : ¬ GrowsAlong fsType l) :
    ∀ a ∈ l, ∀ b ∈ l, Follows fsType a b := by
  have pairs : l.Pairwise (Follows fsType) := chain.pairwise
  refine List.Pairwise.forall_of_forall_of_flip (fun a _ => Follows.refl fsType a) pairs ?_
  refine pairs.imp_of_mem fun {a b} memberA memberB follows => ⟨follows.1.symm, ?_⟩
  by_contra more
  exact still ⟨chain, a, memberA, b, memberB, follows.2, more⟩

theorem concFSCheck_nil_iff {fsMds : List FsMd} {srvNum : Nat} :
    (concFSCheck order fsMds srvNum fsType = [] ↔
      ∀ a ∈ clients order fsMds srvNum fsType, ∀ b ∈ clients order fsMds srvNum fsType, mdCmp order a b fsType = []) ↔
    ¬ GrowsAlong fsType (clients order fsMds srvNum fsType) := by
  simp only [concFSCheck, adjacentCmp_nil_iff, mdCmp_nil_iff]
  generalize clients order fsMds srvNum fsType = l
  constructor
  · rintro same ⟨chain, a, memberA, b, memberB, grow⟩
    exact grow.2 (same.mp chain b memberB a memberA).2
  · intro still
    constructor
    · exact fun chain => GrowsAlong.of_chain chain still
    · intro all
      refine (List.pairwise_iff_forall_sublist.mpr fun {a b} sublist => ?_).isChain
      exact all a (sublist.subset (by simp)) b (sublist.subset (by simp))

theorem mdCmp_equivalence_iff (order : Go.RangeOrder) (fsType : String) :
    (∀ a b, (mdCmp order a b fsType = [] ↔ mdCmp order b a fsType = []) ↔
      ¬ (Agree fsType a b ∧ (AttrsGrow a b ∨ AttrsGrow b a))) ∧
    (∀ a b c, mdCmp order a b fsType = [] → mdCmp order b c fsType = [] → mdCmp order a c fsType = []) ∧
    ∀ fsMds srvNum,
      (concFSCheck order fsMds srvNum fsType = [] ↔
        ∀ a ∈ clients order fsMds srvNum fsType, ∀ b ∈ clients order fsMds srvNum fsType,
          mdCmp order a b fsType = []) ↔
      ¬ GrowsAlong fsType (clients order fsMds srvNum fsType) :=
  ⟨fun _ _ => mdCmp_symm_iff, fun _ _ _ => mdCmp_trans, fun _ _ => concFSCheck_nil_iff⟩

/-- One client lists a file without attributes, the other one the same file with an attribute. -/
theorem mdCmp_oneSided :
    let bare : FsMd := (∅ : FsMd).insert "./f" {}
    let tagged : FsMd := (∅ : FsMd).insert "./f" { xattr := (∅ : Go.Map String String).insert "user.a" "1" }
    mdCmp .stored bare tagged "nfs" = [] ∧ mdCmp .stored tagged bare "nfs" = ["./f: xattr differ"] ∧
      concFSCheck .stored [bare, tagged] 0 "nfs" = [] ∧ concFSCheck .stored [tagged, bare] 0 "nfs" ≠ [] := by
  decide +kernel

end DfsFuzz.Checker
