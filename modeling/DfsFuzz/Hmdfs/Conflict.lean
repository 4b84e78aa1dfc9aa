import DfsFuzz.Lib.GoStrings

/-!
Conflicting names of the merge view: the kernel side that makes them (`hmdfs/file_merge.c`) and the
fuzzer side that undoes them (`prog/hmdfs_conflict.go`).
-/

namespace DfsFuzz.Hmdfs

def conflictFileSuffix : String := "_conflict_dev"
def conflictDirSuffix : String := "_remote_directory"

def nameMax : Nat := 255

/-- `DENTRY_PER_GROUP * DENTRY_NAME_LEN` -/
def dentryNameMaxLen : Nat := 80 * 8

/-- What `snprintf` leaves of a text in a buffer of `size` bytes, without the final zero. -/
def snprintf (size : Nat) (text : List Char) : List Char := text.take (size - 1)

/-- The last dot of the name, from the loop that stops at a slash. -/
def dotPos (name : List Char) : Option Nat :=
  let front := name.rdropWhile fun c => c ≠ '/' && c ≠ '.'
  if front.getLast? = some '.' then some (front.length - 1) else none

/-- `CONFLICTING_FILE_SUFFIX`, with the device id in decimal. -/
def fileSuffix (devId : UInt32) : List Char := conflictFileSuffix.toList ++ Nat.toDigits 10 devId.toNat

def renameConflictingFile (dentryName : String) (devId : UInt32) : String :=
  let name := dentryName.toList
  match dotPos name with
  | none => String.ofList (name ++ snprintf (dentryNameMaxLen - name.length) (fileSuffix devId))
  | some dot =>
    -- the part from the dot on is saved, overwritten and appended again
    String.ofList (name.take dot ++ snprintf (dentryNameMaxLen - dot) (fileSuffix devId) ++ name.drop dot)

def renameConflictingDirectory (dentryName : String) : String :=
  let name := dentryName.toList
  String.ofList (name ++ snprintf (dentryNameMaxLen - name.length) conflictDirSuffix.toList)

def canonicalHmdfsComponent (base : String) : String :=
  if base = "" then base
  else if Go.hasSuffix base conflictDirSuffix then
    if Go.trimSuffix base conflictDirSuffix ≠ "" then Go.trimSuffix base conflictDirSuffix else base
  else
    let chars := base.toList
    let digitEnd := (Go.lastIndexByte chars '.').getD chars.length
    let digitStart := ((chars.take digitEnd).rdropWhile Char.isDigit).length
    if digitStart = digitEnd then base
    else
      let suffixStart := digitStart - conflictFileSuffix.toList.length
      if digitStart < conflictFileSuffix.toList.length ||
          (chars.take digitStart).drop suffixStart ≠ conflictFileSuffix.toList then base
      else
        let orig := chars.take suffixStart
        if orig = [] then base else String.ofList (orig ++ chars.drop digitEnd)

def canonicalHmdfsName (path : String) : String :=
  if path = "" then path
  else
    let parts := Go.split path '/'
    let canon := parts.map canonicalHmdfsComponent
    if canon = parts then path else Go.join canon

theorem snprintf_fits {size : Nat} {text : List Char} (fits : text.length < size) : snprintf size text = text := by
  rw [snprintf, List.take_of_length_le (by omega)]

theorem fileSuffix_length (devId : UInt32) : (fileSuffix devId).length ≤ 23 := by
  have digits : (Nat.toDigits 10 devId.toNat).length ≤ 10 := by
    rw [Nat.length_toDigits_le_iff (by omega) (by omega)]
    have := devId.toNat_lt
    omega
  rw [fileSuffix, List.length_append, show conflictFileSuffix.toList.length = 13 by decide]
  omega

theorem dotPos_none {name : List Char} (noSlash : '/' ∉ name) (noDot : '.' ∉ name) : dotPos name = none := by
  have empty : (name.rdropWhile fun c => c ≠ '/' && c ≠ '.') = [] := by
    rw [List.rdropWhile_eq_nil_iff]
    intro c member
    simp only [Bool.and_eq_true, decide_eq_true_eq]
    exact ⟨fun slash => noSlash (slash ▸ member), fun dot => noDot (dot ▸ member)⟩
  simp only [dotPos, empty]
  rfl

theorem dotPos_some {front ext : List Char} (noSlash : '/' ∉ front ++ '.' :: ext) (last : '.' ∉ ext) :
    dotPos (front ++ '.' :: ext) = some front.length := by
  have stopped : ((front ++ '.' :: ext).rdropWhile fun c => c ≠ '/' && c ≠ '.') = front ++ ['.'] := by
    refine Go.rdropWhile_append_stop front (by decide) ?_
    intro c member
    simp only [Bool.and_eq_true, decide_eq_true_eq]
    refine ⟨fun slash => noSlash ?_, fun dot => last (dot ▸ member)⟩
    rw [← slash]
    exact List.mem_append_right _ (List.mem_cons_of_mem _ member)
  simp only [dotPos, stopped]
  simp

/-- A name cut at its last dot: `stem` is everything if there is none. -/
structure Cut (name stem tail : List Char) : Prop where
  whole : name = stem ++ tail
  last : (tail = [] ∧ '.' ∉ stem) ∨ ∃ ext, tail = '.' :: ext ∧ '.' ∉ ext

theorem exists_cut (name : List Char) : ∃ stem tail, Cut name stem tail := by
  by_cases dotted : '.' ∈ name
  · obtain ⟨front, ext, split, last⟩ := Go.exists_last dotted
    exact ⟨front, '.' :: ext, split, .inr ⟨ext, rfl, last⟩⟩
  · exact ⟨name, [], by simp, .inl ⟨rfl, dotted⟩⟩

theorem renameConflictingFile_eq {name : String} {stem tail : List Char} (cut : Cut name.toList stem tail)
    (noSlash : '/' ∉ name.toList) (short : name.toList.length ≤ 238) (devId : UInt32) :
    renameConflictingFile name devId = String.ofList (stem ++ fileSuffix devId ++ tail) := by
  have bound := fileSuffix_length devId
  rcases cut.last with ⟨rfl, noDot⟩ | ⟨ext, rfl, last⟩
  · have whole : name.toList = stem := by simpa using cut.whole
    rw [whole] at noSlash short
    simp only [renameConflictingFile, whole, dotPos_none noSlash noDot, List.append_nil]
    rw [snprintf_fits (by rw [dentryNameMaxLen]; omega)]
  · rw [cut.whole] at noSlash short
    have inside : stem.length ≤ 238 := by
      rw [List.length_append] at short
      omega
    simp only [renameConflictingFile, cut.whole, dotPos_some noSlash last, List.take_left, List.drop_left]
    rw [snprintf_fits (by rw [dentryNameMaxLen]; omega)]

theorem renameConflictingDirectory_eq {name : String} (short : name.toList.length ≤ 238) :
    renameConflictingDirectory name = name ++ conflictDirSuffix := by
  have length : conflictDirSuffix.toList.length = 17 := by decide
  apply String.toList_inj.mp
  simp only [renameConflictingDirectory]
  rw [snprintf_fits (by rw [length, dentryNameMaxLen]; omega), String.toList_ofList, String.toList_append]

/-! ### What the canonical form makes of it -/

theorem isDigit_devId {devId : UInt32} {c : Char} (member : c ∈ Nat.toDigits 10 devId.toNat) : c.isDigit = true :=
  Nat.isDigit_of_mem_toDigits (by omega) (by omega) member

theorem fileSuffix_noDot (devId : UInt32) : '.' ∉ fileSuffix devId := by
  intro member
  rcases List.mem_append.mp member with constant | digit
  · revert constant
    decide
  · exact absurd (isDigit_devId digit) (by decide)

/-- The byte in front of the end of a suffix is the one in front of the end of the list. -/
theorem last_eq_of_suffix {front back front' : List Char} {x y : Char} (suffix : front ++ [x] <:+ front' ++ (back ++ [y])) :
    x = y := by
  have one : [x] <:+ front' ++ (back ++ [y]) := (List.suffix_append front [x]).trans suffix
  have two : [y] <:+ front' ++ (back ++ [y]) := (List.suffix_append back [y]).trans (List.suffix_append front' _)
  have same := List.suffix_of_suffix_length_le one two (Nat.le_refl 1)
  simpa using same.eq_of_length rfl

section Renamed

variable {name stem tail : List Char} (cut : Cut name stem tail) (devId : UInt32)

include cut

theorem dirSuffix_renamed :
    conflictDirSuffix.toList <:+ stem ++ fileSuffix devId ++ tail ↔ '.' ∈ name ∧ conflictDirSuffix.toList <:+ name := by
  rw [cut.whole]
  rcases cut.last with ⟨rfl, noDot⟩ | ⟨ext, rfl, last⟩
  · have closed : ¬ conflictDirSuffix.toList <:+ stem ++ fileSuffix devId ++ [] := by
      intro suffix
      obtain ⟨digits, digit, split⟩ := (List.eq_nil_or_concat (Nat.toDigits 10 devId.toNat)).resolve_left Nat.toDigits_ne_nil
      rw [List.append_nil, fileSuffix, split, List.concat_eq_append, ← List.append_assoc,
        show conflictDirSuffix.toList = "_remote_director".toList ++ ['y'] by decide] at suffix
      have same := last_eq_of_suffix suffix
      have isDigit : digit.isDigit = true := @isDigit_devId devId digit (by rw [split]; simp)
      rw [← same] at isDigit
      exact absurd isDigit (by decide)
    rw [List.append_nil stem]
    exact ⟨fun suffix => absurd suffix closed, fun dotted => absurd dotted.1 noDot⟩
  · rw [Go.suffix_behind (by decide), Go.suffix_behind (by decide)]
    simp

theorem digitEnd_renamed :
    (Go.lastIndexByte (stem ++ fileSuffix devId ++ tail) '.').getD (stem ++ fileSuffix devId ++ tail).length =
      (stem ++ fileSuffix devId).length := by
  rcases cut.last with ⟨rfl, noDot⟩ | ⟨ext, rfl, last⟩
  · have absent : '.' ∉ stem ++ fileSuffix devId := by
      simp only [List.mem_append, not_or]
      exact ⟨noDot, fileSuffix_noDot devId⟩
    rw [List.append_nil, Go.lastIndexByte_none absent, Option.getD_none]
  · rw [Go.lastIndexByte_append _ last, Option.getD_some]

omit cut in
theorem digitStart_renamed :
    (stem ++ fileSuffix devId).rdropWhile Char.isDigit = stem ++ conflictFileSuffix.toList := by
  rw [fileSuffix, show conflictFileSuffix.toList = "_conflict_de".toList ++ ['v'] by decide]
  have stopped := @Go.rdropWhile_append_stop _ Char.isDigit (stem ++ "_conflict_de".toList) 'v'
    (Nat.toDigits 10 devId.toNat) (by decide) (fun c member => isDigit_devId member)
  simpa using stopped

theorem canonical_renamed (ordinary : ¬ ('.' ∈ name ∧ conflictDirSuffix.toList <:+ name)) :
    canonicalHmdfsComponent (String.ofList (stem ++ fileSuffix devId ++ tail)) =
      if stem = [] then String.ofList (stem ++ fileSuffix devId ++ tail) else String.ofList (stem ++ tail) := by
  have digits : 0 < (Nat.toDigits 10 devId.toNat).length := Nat.length_toDigits_pos
  have notDir : ¬ conflictDirSuffix.toList <:+ stem ++ fileSuffix devId ++ tail := by
    rw [dirSuffix_renamed cut]
    exact ordinary
  have named : String.ofList (stem ++ fileSuffix devId ++ tail) ≠ "" := by
    intro empty
    have none := congrArg (List.length ∘ String.toList) empty
    simp only [Function.comp_apply, String.toList_ofList, List.length_append, fileSuffix] at none
    change _ = 0 at none
    omega
  have front : (stem ++ fileSuffix devId ++ tail).take (stem ++ fileSuffix devId).length = stem ++ fileSuffix devId :=
    List.take_left
  have back : (stem ++ fileSuffix devId ++ tail).drop (stem ++ fileSuffix devId).length = tail := List.drop_left
  have start : (stem ++ fileSuffix devId ++ tail).take (stem ++ conflictFileSuffix.toList).length =
      stem ++ conflictFileSuffix.toList := by
    rw [fileSuffix, ← List.append_assoc, List.append_assoc]
    exact List.take_left
  have apart : (stem ++ conflictFileSuffix.toList).length ≠ (stem ++ fileSuffix devId).length := by
    simp only [List.length_append, fileSuffix]
    omega
  have original : (stem ++ conflictFileSuffix.toList).length - conflictFileSuffix.toList.length = stem.length := by
    simp
  have orig : (stem ++ fileSuffix devId ++ tail).take stem.length = stem := by
    rw [List.append_assoc]
    exact List.take_left
  have roomy : ¬ (stem ++ conflictFileSuffix.toList).length < conflictFileSuffix.toList.length := by
    simp
  unfold canonicalHmdfsComponent
  rw [if_neg named, if_neg (by simpa [Go.hasSuffix] using notDir)]
  simp only [String.toList_ofList, digitEnd_renamed cut, front, digitStart_renamed, apart, if_false, original, start,
    roomy, List.drop_left, back, orig, decide_false, Bool.false_or, ne_eq, not_true_eq_false, Bool.false_eq_true]

end Renamed

/-- The only dot of the name is its first byte. -/
def DotFile (name : String) : Prop := name.toList.head? = some '.' ∧ '.' ∉ name.toList.tail

/-- The name has a dot and ends like a renamed directory. -/
def DirLikeExtension (name : String) : Prop := '.' ∈ name.toList ∧ Go.hasSuffix name conflictDirSuffix = true

theorem cut_stem_nil {name : String} {tail : List Char} (cut : Cut name.toList [] tail) (named : name ≠ "") : DotFile name := by
  rcases cut.last with ⟨rfl, _⟩ | ⟨ext, rfl, last⟩
  · exact absurd (String.toList_inj.mp cut.whole) named
  · rw [DotFile, cut.whole]
    exact ⟨rfl, last⟩

theorem cut_stem_cons {name : String} {c : Char} {stem tail : List Char} (cut : Cut name.toList (c :: stem) tail) :
    ¬ DotFile name := by
  rintro ⟨head, single⟩
  rw [cut.whole] at head single
  rcases cut.last with ⟨rfl, noDot⟩ | ⟨ext, rfl, last⟩
  · have dot : c = '.' := by simpa using head
    exact noDot (by simp [dot])
  · exact single (by simp)

theorem canonical_dirSuffix {name : String} (named : name ≠ "") :
    canonicalHmdfsComponent (name ++ conflictDirSuffix) = name := by
  have long : name ++ conflictDirSuffix ≠ "" := by
    intro empty
    have trimmed := congrArg (fun s => Go.trimSuffix s conflictDirSuffix) empty
    rw [Go.trimSuffix_append] at trimmed
    exact named (trimmed.trans (by decide))
  rw [canonicalHmdfsComponent, if_neg long, if_pos (Go.hasSuffix_append _ _), Go.trimSuffix_append, if_pos named]

theorem canonical_file {name : String} (named : name ≠ "") (noSlash : '/' ∉ name.toList)
    (short : name.toList.length ≤ 238) (devId : UInt32) :
    canonicalHmdfsComponent (renameConflictingFile name devId) = name ↔ ¬ DotFile name ∧ ¬ DirLikeExtension name := by
  obtain ⟨stem, tail, cut⟩ := exists_cut name.toList
  have digits : 0 < (Nat.toDigits 10 devId.toNat).length := Nat.length_toDigits_pos
  rw [renameConflictingFile_eq cut noSlash short]
  have like : DirLikeExtension name ↔ '.' ∈ name.toList ∧ conflictDirSuffix.toList <:+ name.toList := by
    simp [DirLikeExtension, Go.hasSuffix]
  by_cases extension : DirLikeExtension name
  · -- taken for a directory: what is left still begins with the conflict suffix behind the stem
    simp only [extension, not_true_eq_false, and_false, iff_false]
    obtain ⟨dotted, suffix⟩ := like.mp extension
    obtain ⟨ext, rfl, last⟩ : ∃ ext, tail = '.' :: ext ∧ '.' ∉ ext := by
      refine cut.last.resolve_left ?_
      rintro ⟨rfl, noDot⟩
      rw [cut.whole, List.append_nil] at dotted
      exact noDot dotted
    rw [cut.whole, Go.suffix_behind (by decide)] at suffix
    obtain ⟨inner, rfl⟩ := suffix
    have taken : String.ofList (stem ++ fileSuffix devId ++ '.' :: (inner ++ conflictDirSuffix.toList)) =
        String.ofList (stem ++ fileSuffix devId ++ '.' :: inner) ++ conflictDirSuffix := by
      apply String.toList_inj.mp
      simp
    rw [taken, canonical_dirSuffix (by simp [← String.toList_inj])]
    intro same
    have chars := congrArg String.toList same
    rw [String.toList_ofList, cut.whole, List.append_assoc, List.append_cancel_left_eq, fileSuffix] at chars
    cases chars
  · rw [canonical_renamed cut devId (fun dotted => extension (like.mpr dotted))]
    cases stem with
    | nil =>
      simp only [if_true, cut_stem_nil cut named, not_true_eq_false, false_and, iff_false]
      intro same
      have lengths := congrArg (List.length ∘ String.toList) same
      simp only [Function.comp_apply, String.toList_ofList, cut.whole, List.length_append, fileSuffix] at lengths
      omega
    | cons c stem =>
      simp only [cut_stem_cons cut, extension, not_false_eq_true, and_self, iff_true, reduceCtorEq, if_false]
      rw [← cut.whole, String.ofList_toList]

/-! ### Paths -/

inductive Renaming where
  | file (devId : UInt32)
  | directory
deriving DecidableEq

/-- A name in the merge view and how it was renamed there. -/
structure Component where
  name : String
  how : Renaming
deriving DecidableEq

def Component.renamed (c : Component) : String :=
  match c.how with
  | .file devId => renameConflictingFile c.name devId
  | .directory => renameConflictingDirectory c.name

/-- The length test of `hmdfs_actor_merge` before it renames. -/
def Component.fits (c : Component) : Prop :=
  match c.how with
  | .file _ => "_conflict_dev%u".toList.length + 2 ≤ nameMax - c.name.toList.length
  | .directory => conflictDirSuffix.toList.length ≤ nameMax - c.name.toList.length

structure Component.Valid (c : Component) : Prop where
  named : c.name ≠ ""
  noSlash : '/' ∉ c.name.toList
  fits : c.fits

def Component.Recoverable (c : Component) : Prop :=
  match c.how with
  | .file _ => ¬ DotFile c.name ∧ ¬ DirLikeExtension c.name
  | .directory => True

theorem Component.Valid.short {c : Component} (valid : c.Valid) : c.name.toList.length ≤ 238 := by
  have fits := valid.fits
  unfold Component.fits at fits
  cases how : c.how with
  | file devId =>
    rw [how] at fits
    have length : "_conflict_dev%u".toList.length = 15 := by decide
    simp only [length, nameMax] at fits
    omega
  | directory =>
    rw [how] at fits
    have length : conflictDirSuffix.toList.length = 17 := by decide
    simp only [length, nameMax] at fits
    omega

theorem Component.canonical_renamed {c : Component} (valid : c.Valid) :
    canonicalHmdfsComponent c.renamed = c.name ↔ c.Recoverable := by
  unfold Component.renamed Component.Recoverable
  cases c.how with
  | file devId => exact canonical_file valid.named valid.noSlash valid.short devId
  | directory =>
    simp only [renameConflictingDirectory_eq valid.short, canonical_dirSuffix valid.named]

theorem Component.renamed_noSlash {c : Component} (valid : c.Valid) : '/' ∉ c.renamed.toList := by
  have noSlash := valid.noSlash
  unfold Component.renamed
  cases c.how with
  | file devId =>
    obtain ⟨stem, tail, cut⟩ := exists_cut c.name.toList
    simp only [renameConflictingFile_eq cut noSlash valid.short, String.toList_ofList, fileSuffix]
    rw [cut.whole] at noSlash
    intro member
    simp only [List.mem_append, not_or] at member noSlash
    rcases member with (inStem | constant | digit) | inTail
    · exact noSlash.1 inStem
    · revert constant
      decide
    · exact absurd (isDigit_devId digit) (by decide)
    · exact noSlash.2 inTail
  | directory =>
    simp only [renameConflictingDirectory_eq valid.short, String.toList_append, List.mem_append, not_or]
    exact ⟨noSlash, by decide⟩

theorem canonicalHmdfsComponent_subset (base : String) : (canonicalHmdfsComponent base).toList ⊆ base.toList := by
  unfold canonicalHmdfsComponent
  split_ifs with empty dir trimmed
  · exact List.Subset.refl _
  · rw [Go.trimSuffix, if_pos dir, String.toList_ofList]
    exact List.take_subset _ _
  · exact List.Subset.refl _
  · dsimp only
    split_ifs
    · exact List.Subset.refl _
    · exact List.Subset.refl _
    · exact List.Subset.refl _
    · rw [String.toList_ofList]
      exact List.append_subset.mpr ⟨List.take_subset _ _, List.drop_subset _ _⟩

theorem canonicalHmdfsName_eq (path : String) :
    canonicalHmdfsName path = Go.join ((Go.split path '/').map canonicalHmdfsComponent) := by
  unfold canonicalHmdfsName
  split_ifs with empty
  · rw [empty]
    decide
  · dsimp only
    split_ifs with same
    · rw [same, Go.join_split]
    · rfl

theorem join_injective {xs ys : List String} (nonempty : xs ≠ []) (sameLength : xs.length = ys.length)
    (freeX : ∀ x ∈ xs, '/' ∉ x.toList) (freeY : ∀ y ∈ ys, '/' ∉ y.toList) : Go.join xs = Go.join ys ↔ xs = ys := by
  constructor
  · intro same
    have nonemptyY : ys ≠ [] := by
      rintro rfl
      exact nonempty (List.length_eq_zero_iff.mp sameLength)
    rw [← Go.split_join nonempty freeX, same, Go.split_join nonemptyY freeY]
  · intro same
    rw [same]

/-- A path of renamed components gets its original name back exactly when each of its files has a
name that can be told from its renamed form. -/
theorem canonicalHmdfsName_undoes (components : List Component) (nonempty : components ≠ [])
    (valid : ∀ c ∈ components, c.Valid) :
    canonicalHmdfsName (Go.join (components.map Component.renamed)) = Go.join (components.map Component.name) ↔
      ∀ c ∈ components, c.Recoverable := by
  have free : ∀ part ∈ components.map Component.renamed, '/' ∉ part.toList := by
    intro part member
    obtain ⟨c, inside, rfl⟩ := List.mem_map.mp member
    exact Component.renamed_noSlash (valid c inside)
  have freeCanon : ∀ part ∈ (components.map Component.renamed).map canonicalHmdfsComponent, '/' ∉ part.toList := by
    intro part member
    obtain ⟨base, inside, rfl⟩ := List.mem_map.mp member
    exact fun slash => free base inside (canonicalHmdfsComponent_subset base slash)
  have freeNames : ∀ part ∈ components.map Component.name, '/' ∉ part.toList := by
    intro part member
    obtain ⟨c, inside, rfl⟩ := List.mem_map.mp member
    exact (valid c inside).noSlash
  rw [canonicalHmdfsName_eq, Go.split_join (by simpa using nonempty) free,
    join_injective (by simpa using nonempty) (by simp) freeCanon freeNames, List.map_map, List.map_inj_left]
  constructor
  · exact fun same c member => (Component.canonical_renamed (valid c member)).mp (same c member)
  · exact fun recoverable c member => (Component.canonical_renamed (valid c member)).mpr (recoverable c member)

def samplePath : List Component := [⟨"d", .directory⟩, ⟨"a.b.c", .file 12⟩]

theorem samplePath_valid : ∀ c ∈ samplePath, c.Valid := by
  intro c member
  rcases List.mem_cons.mp member with rfl | last
  · exact ⟨by decide, by decide, by unfold Component.fits; decide⟩
  · rw [List.mem_singleton.mp last]
    exact ⟨by decide, by decide, by unfold Component.fits; decide⟩

theorem canonicalHmdfsName_undoes_sample :
    Go.join (samplePath.map Component.renamed) = "d_remote_directory/a.b_conflict_dev12.c" ∧
      canonicalHmdfsName (Go.join (samplePath.map Component.renamed)) = Go.join (samplePath.map Component.name) := by
  refine ⟨by decide +kernel, (canonicalHmdfsName_undoes samplePath (by decide) samplePath_valid).mpr ?_⟩
  intro c member
  rcases List.mem_cons.mp member with rfl | last
  · trivial
  · rw [List.mem_singleton.mp last]
    exact ⟨by unfold DotFile; decide, by unfold DirLikeExtension; decide⟩

/-- A dot file keeps its conflict name, and an extension that looks like a renamed directory is
cut off. -/
theorem canonicalHmdfsName_keeps :
    ((⟨".bashrc", .file 1⟩ : Component).Valid ∧
      canonicalHmdfsName (renameConflictingFile ".bashrc" 1) = "_conflict_dev1.bashrc" ∧
      canonicalHmdfsName (renameConflictingFile ".bashrc" 1) ≠ ".bashrc") ∧
    ((⟨"a._remote_directory", .file 1⟩ : Component).Valid ∧
      canonicalHmdfsName (renameConflictingFile "a._remote_directory" 1) = "a_conflict_dev1." ∧
      canonicalHmdfsName (renameConflictingFile "a._remote_directory" 1) ≠ "a._remote_directory") :=
  ⟨⟨⟨by decide, by decide, by unfold Component.fits; decide⟩, by decide +kernel, by decide +kernel⟩,
    ⟨by decide, by decide, by unfold Component.fits; decide⟩, by decide +kernel, by decide +kernel⟩

end DfsFuzz.Hmdfs
