import DfsFuzz.Symsc.Checksum

/-!
The metadata of a file in the snapshot against that of the emulator: the field of the extended attributes
(`checker/conc-fs.go`), and `check_meta` and `check_symlink` (`checker.py`).
-/

namespace DfsFuzz.Checker

open DfsFuzz.Symsc

/-- The attributes of a file as `ConcFSCheck` writes them, in the order in which it visits them. -/
def xattrField (order : Go.RangeOrder) (xattr : Go.Map String String) : String :=
  (order.arrange xattr.items).zipIdx.foldl
    (fun xattrs e => (if e.2 ≠ 0 then xattrs ++ ";" else xattrs) ++ e.1.1 ++ ":" ++ e.1.2) ""

def xattrBlackList : List Str := ["system.nfs4_acl".toList]

/-- The values differ at an index that both have. -/
def wrongValue (emul crash : Str) : Bool := (emul.zip crash).any fun p => decide (p.1 ≠ p.2)

/-- The loop over the attributes that were found. -/
def checkXattrs (xattr : Go.Map Str Str) : List (Str × Str) → Int
  | [] => 0
  | tup :: found =>
    if tup.1 ∈ xattrBlackList then checkXattrs xattr found
    else
      match xattr.lookup tup.1 with
      | none => 1
      | some emul => if wrongValue emul tup.2 then 1 else checkXattrs xattr found

/-- The last part of `check_meta`; a piece without a name raises `IndexError`. -/
def checkXattrField (w : Py.WordClass) (xattrCrashed : Str) (xattr : Go.Map Str Str) : Option Int :=
  if (Py.matchNamed w xattrCrashed).isSome then
    ((Py.split [';'] xattrCrashed).mapM (Py.searchNamed w)).map (checkXattrs xattr)
  else some 0

/-- `int(s, 8)` of a mode as it is printed. -/
def parseOctal (s : Str) : Option Nat :=
  if s ≠ [] ∧ s.all (fun c => '0' ≤ c && c ≤ '7') then some (Nat.ofDigitChars 8 s 0) else none

/-- `check_meta` -/
def checkMeta (w : Py.WordClass) (isHmdfs : Bool) (i : Inode) (entry : List Str) : Option Int := do
  if !isHmdfs ∧ i.type ≠ .dir then
    let nlink ← entry[3]?.bind parseInt
    if i.linkcnt ≠ nlink then return 1
  if !isHmdfs then
    let mode ← entry[7]?.bind parseOctal
    if i.mode &&& 0o777 ≠ mode &&& 0o777 then return 1
  if !isHmdfs ∧ i.type = .file then
    let size ← entry[4]?.bind parseInt
    if i.size ≠ size then return 1
  let xattrCrashed ← entry[10]?
  checkXattrField w xattrCrashed i.xattr

/-- `check_symlink` -/
def checkSymlink (i : Inode) (entry : List Str) : Option Int := do
  let symlinkCrashed ← entry[9]?
  return if i.target ≠ symlinkCrashed ∧ i.target ≠ ['.', '/'] ++ symlinkCrashed then 1 else 0

/-- The part of a value before its first semicolon, and the parts behind. -/
def firstPart (value : String) : Str := (Py.split [';'] value.toList).headD []

def laterParts (value : String) : List Str := (Py.split [';'] value.toList).tail

theorem split_value (value : String) : Py.split [';'] value.toList = firstPart value :: laterParts value := by
  rw [firstPart, laterParts]
  cases pieces : Py.split [';'] value.toList with
  | nil => exact absurd pieces (Py.splitFrom_ne_nil [';'] 0 value.toList)
  | cons first rest => rfl

def attrText (e : String × String) : Str := e.1.toList ++ ':' :: e.2.toList

theorem foldl_field (l : List (String × String)) {n : Nat} (later : 0 < n) (acc : String) :
    ((l.zipIdx n).foldl (fun xattrs e => (if e.2 ≠ 0 then xattrs ++ ";" else xattrs) ++ e.1.1 ++ ":" ++ e.1.2) acc).toList =
      acc.toList ++ l.flatMap fun e => ';' :: attrText e := by
  induction l generalizing n acc with
  | nil => simp
  | cons e l ih =>
    rw [List.zipIdx_cons, List.foldl_cons, ih (by omega), if_pos (by simp; omega)]
    simp [attrText]

theorem intercalate_semicolon (part : Str) (parts : List Str) :
    [';'].intercalate (part :: parts) = part ++ parts.flatMap fun t => ';' :: t := by
  induction parts generalizing part with
  | nil => simp
  | cons next parts ih =>
    rw [List.intercalate_cons_cons, ih, List.flatMap_cons, List.append_assoc]
    rfl

theorem xattrField_toList (order : Go.RangeOrder) (xattr : Go.Map String String) :
    (xattrField order xattr).toList = [';'].intercalate ((order.arrange xattr.items).map attrText) := by
  rw [xattrField]
  cases order.arrange xattr.items with
  | nil => rfl
  | cons e l =>
    rw [List.zipIdx_cons, List.foldl_cons, foldl_field l (by omega), List.map_cons, intercalate_semicolon, List.flatMap_map]
    simp [attrText]

/-- The pieces of one attribute: its name with the first part, and the later parts by themselves. -/
theorem split_attrText {w : Py.WordClass} {e : String × String} (is : w.IsName e.1.toList) :
    Py.split [';'] (attrText e) = (e.1.toList ++ ':' :: firstPart e.2) :: laterParts e.2 := by
  have free : ';' ∉ e.1.toList ++ [':'] := by
    intro member
    rcases List.mem_append.mp member with inside | last
    · exact absurd (is.2 _ inside) (by simp [w.semicolon])
    · cases List.mem_singleton.mp last
  have regroup : attrText e = (e.1.toList ++ [':']) ++ e.2.toList := by simp [attrText]
  rw [regroup, Py.split_append_free free, split_value, List.modifyHead_cons, List.append_assoc]
  rfl

/-- The emulator has not the name, or neither value starts with the other. -/
def Clashes (xattr : Go.Map Str Str) (tup : Str × Str) : Prop :=
  tup.1 ∉ xattrBlackList ∧ ∀ emul, xattr.lookup tup.1 = some emul → ¬ (emul <+: tup.2 ∨ tup.2 <+: emul)

theorem wrongValue_iff {emul crash : Str} : wrongValue emul crash = true ↔ ¬ (emul <+: crash ∨ crash <+: emul) := by
  induction emul generalizing crash with
  | nil => simp [wrongValue]
  | cons c emul ih =>
    cases crash with
    | nil => simp [wrongValue]
    | cons d crash =>
      have step : wrongValue (c :: emul) (d :: crash) = (decide (c ≠ d) || wrongValue emul crash) := rfl
      rw [step, Bool.or_eq_true, ih, decide_eq_true_eq, List.cons_prefix_cons, List.cons_prefix_cons]
      by_cases same : c = d
      · simp [same]
      · simp [same, Ne.symm same]

theorem checkXattrs_iff {xattr : Go.Map Str Str} {found : List (Str × Str)} :
    checkXattrs xattr found ≠ 0 ↔ ∃ tup ∈ found, Clashes xattr tup := by
  induction found with
  | nil => simp [checkXattrs]
  | cons tup found ih =>
    rw [List.exists_mem_cons_iff, checkXattrs]
    by_cases black : tup.1 ∈ xattrBlackList
    · have unseen : ¬ Clashes xattr tup := fun clash => clash.1 black
      simp only [black, if_true, ih, unseen, false_or]
    · simp only [black, if_false]
      cases stored : xattr.lookup tup.1 with
      | none =>
        have clash : Clashes xattr tup := ⟨black, fun emul found => by rw [stored] at found; cases found⟩
        simp [clash]
      | some emul =>
        have same : Clashes xattr tup ↔ wrongValue emul tup.2 = true := by
          rw [wrongValue_iff]
          constructor
          · exact fun clash => clash.2 emul stored
          · intro wrong
            refine ⟨black, fun other found => ?_⟩
            cases stored.symm.trans found
            exact wrong
        rw [same]
        cases wrong : wrongValue emul tup.2 with
        | true => simp [wrong]
        | false => simpa [wrong] using ih

/-- Either every element has a value and these are found, or one has none. -/
theorem mapM_cases {α β : Type} (f : α → Option β) (l : List α) :
    (∃ ys, l.mapM f = some ys ∧ (∀ x ∈ l, ∃ y, f x = some y) ∧ ∀ y, y ∈ ys ↔ ∃ x ∈ l, f x = some y) ∨
      (l.mapM f = none ∧ ∃ x ∈ l, f x = none) := by
  induction l with
  | nil => exact .inl ⟨[], rfl, by simp, by simp⟩
  | cons x l ih =>
    cases here : f x with
    | none =>
      refine .inr ⟨?_, x, List.mem_cons_self, here⟩
      rw [List.mapM_cons, here]
      rfl
    | some y =>
      rcases ih with ⟨ys, later, each, all⟩ | ⟨later, z, member, missing⟩
      · refine .inl ⟨y :: ys, ?_, List.forall_mem_cons.mpr ⟨⟨y, here⟩, each⟩, fun t => ?_⟩
        · rw [List.mapM_cons, here, later]
          rfl
        · rw [List.mem_cons, all, List.exists_mem_cons_iff, here, Option.some.injEq, eq_comm]
      · refine .inr ⟨?_, z, List.mem_cons_of_mem x member, missing⟩
        rw [List.mapM_cons, here, later]
        rfl

section Field

variable (w : Py.WordClass) (R : Go.Map String String) (E : Go.Map Str Str)

def WordNames : Prop := ∀ name value, R.lookup name = some value → w.IsName name.toList

/-- Outside of the black list both have the same names and values. -/
def SameAttrs : Prop := ∀ name : String, name.toList ∉ xattrBlackList → (R.lookup name).map String.toList = E.lookup name.toList

/-- A part of some value behind a semicolon; the check takes it for an attribute of its own. -/
def Behind (part : Str) : Prop := ∃ name value, R.lookup name = some value ∧ part ∈ laterParts value

/-- What the check can tell from the pieces of the field. -/
structure Separable : Prop where
  parts : ∀ part, Behind R part → ∃ tup, Py.searchNamed w part = some tup
  agree : SameAttrs R E → ∀ part tup, Behind R part → Py.searchNamed w part = some tup → ¬ Clashes E tup
  differ : ¬ SameAttrs R E →
    (∃ name value, R.lookup name = some value ∧ Clashes E (name.toList, firstPart value)) ∨
    ∃ part tup, Behind R part ∧ Py.searchNamed w part = some tup ∧ Clashes E tup

/-- The check returns, and it reports a mismatch exactly if the two differ. -/
def TellsApart (ret : Option Int) : Prop := ∃ n, ret = some n ∧ (n ≠ 0 ↔ ¬ SameAttrs R E)

variable {w R E}

theorem SameAttrs.noClash (agree : SameAttrs R E) {name value : String} (stored : R.lookup name = some value) :
    ¬ Clashes E (name.toList, firstPart value) := by
  intro clash
  have same := agree name clash.1
  rw [stored, Option.map_some] at same
  refine clash.2 _ same.symm (.inr ?_)
  have whole := Py.intercalate_split ';' value.toList
  rw [split_value, intercalate_semicolon] at whole
  exact ⟨_, whole⟩

theorem mem_pieces (named : WordNames w R) (order : Go.RangeOrder) (nonempty : R.items ≠ []) (piece : Str) :
    piece ∈ Py.split [';'] (xattrField order R).toList ↔
      (∃ name value, R.lookup name = some value ∧ piece = name.toList ++ ':' :: firstPart value) ∨ Behind R piece := by
  have some_ : (order.arrange R.items).map attrText ≠ [] := by
    intro none_
    exact nonempty (List.perm_nil.mp ((List.map_eq_nil_iff.mp none_) ▸ (order.perm R.items).symm))
  rw [xattrField_toList, Py.split_intercalate_flatMap some_, List.mem_flatMap]
  have visited : ∀ e : String × String, e ∈ order.arrange R.items ↔ R.lookup e.1 = some e.2 := by
    intro e
    rw [(order.perm R.items).mem_iff]
    exact Go.Map.mem_items
  constructor
  · rintro ⟨text, member, inside⟩
    obtain ⟨e, there, rfl⟩ := List.mem_map.mp member
    have stored := (visited e).mp there
    rw [split_attrText (named e.1 e.2 stored), List.mem_cons] at inside
    rcases inside with rfl | later
    · exact .inl ⟨e.1, e.2, stored, rfl⟩
    · exact .inr ⟨e.1, e.2, stored, later⟩
  · rintro (⟨name, value, stored, rfl⟩ | ⟨name, value, stored, later⟩)
    · refine ⟨attrText (name, value), List.mem_map_of_mem ((visited (name, value)).mpr stored), ?_⟩
      rw [split_attrText (e := (name, value)) (named name value stored)]
      exact List.mem_cons_self
    · refine ⟨attrText (name, value), List.mem_map_of_mem ((visited (name, value)).mpr stored), ?_⟩
      rw [split_attrText (e := (name, value)) (named name value stored)]
      exact List.mem_cons_of_mem _ later

theorem matchNamed_field (named : WordNames w R) (order : Go.RangeOrder) (nonempty : R.items ≠ []) :
    (Py.matchNamed w (xattrField order R).toList).isSome = true := by
  rw [xattrField_toList]
  cases visited : order.arrange R.items with
  | nil =>
    have none_ := order.perm R.items
    rw [visited] at none_
    exact absurd (List.perm_nil.mp none_.symm) nonempty
  | cons e l =>
    have member : e ∈ R.items := (order.perm R.items).mem_iff.mp (visited ▸ List.mem_cons_self)
    have is := named e.1 e.2 (Go.Map.mem_items.mp member)
    rw [List.map_cons, intercalate_semicolon, attrText, List.append_assoc, List.cons_append, Py.matchNamed_named is]
    rfl

/-- What the check returns for the field of `R`. -/
theorem checkXattrField_cases (named : WordNames w R) (order : Go.RangeOrder) :
    ((∃ part, Behind R part ∧ Py.searchNamed w part = none) ∧ checkXattrField w (xattrField order R).toList E = none) ∨
    ((∀ part, Behind R part → ∃ tup, Py.searchNamed w part = some tup) ∧
      ∃ n, checkXattrField w (xattrField order R).toList E = some n ∧
        (n ≠ 0 ↔ (∃ name value, R.lookup name = some value ∧ Clashes E (name.toList, firstPart value)) ∨
          ∃ part tup, Behind R part ∧ Py.searchNamed w part = some tup ∧ Clashes E tup)) := by
  by_cases nonempty : R.items = []
  · have missing : ∀ name, R.lookup name = none := by
      intro name
      cases stored : R.lookup name with
      | none => rfl
      | some value =>
        have member := Go.Map.mem_items.mpr stored
        rw [nonempty] at member
        cases member
    have field : (xattrField order R).toList = [] := by
      rw [xattrField_toList, nonempty, List.perm_nil.mp (order.perm [])]
      rfl
    refine .inr ⟨?_, 0, ?_, ?_⟩
    · rintro part ⟨name, value, stored, _⟩
      rw [missing name] at stored
      cases stored
    · rw [field]
      rfl
    · simp [Behind, missing]
  · rw [checkXattrField, if_pos (matchNamed_field named order nonempty)]
    have pieces := mem_pieces named order nonempty
    rcases mapM_cases (Py.searchNamed w) (Py.split [';'] (xattrField order R).toList) with
      ⟨found, read, each, all⟩ | ⟨read, piece, member, unread⟩
    · refine .inr ⟨fun part behind => each part ((pieces part).mpr (.inr behind)), checkXattrs E found, ?_, ?_⟩
      · rw [read, Option.map_some]
      · rw [checkXattrs_iff]
        constructor
        · rintro ⟨tup, member, clash⟩
          obtain ⟨piece, there, search⟩ := (all tup).mp member
          rcases (pieces piece).mp there with ⟨name, value, stored, rfl⟩ | behind
          · rw [Py.searchNamed_named (named name value stored)] at search
            cases search
            exact .inl ⟨name, value, stored, clash⟩
          · exact .inr ⟨piece, tup, behind, search, clash⟩
        · rintro (⟨name, value, stored, clash⟩ | ⟨part, tup, behind, search, clash⟩)
          · refine ⟨_, (all _).mpr ⟨_, (pieces _).mpr (.inl ⟨name, value, stored, rfl⟩), ?_⟩, clash⟩
            exact Py.searchNamed_named (named name value stored) _
          · exact ⟨tup, (all tup).mpr ⟨part, (pieces part).mpr (.inr behind), search⟩, clash⟩
    · refine .inl ⟨?_, by rw [read, Option.map_none]⟩
      rcases (pieces piece).mp member with ⟨name, value, stored, rfl⟩ | behind
      · rw [Py.searchNamed_named (named name value stored)] at unread
        cases unread
      · exact ⟨piece, behind, unread⟩

/-- The check of the field tells the two apart exactly where the pieces let it. -/
theorem checkXattrField_exact_iff (named : WordNames w R) (order : Go.RangeOrder) :
    TellsApart R E (checkXattrField w (xattrField order R).toList E) ↔ Separable w R E := by
  rcases checkXattrField_cases (E := E) named order with ⟨⟨part, behind, unread⟩, raised⟩ | ⟨parts, n, returned, mismatch⟩
  · constructor
    · rintro ⟨n, returned, _⟩
      rw [raised] at returned
      cases returned
    · intro separable
      obtain ⟨tup, read⟩ := separable.parts part behind
      rw [unread] at read
      cases read
  · have exact_ : TellsApart R E (checkXattrField w (xattrField order R).toList E) ↔ (n ≠ 0 ↔ ¬ SameAttrs R E) := by
      constructor
      · rintro ⟨m, taken, reported⟩
        cases returned.symm.trans taken
        exact reported
      · exact fun reported => ⟨n, returned, reported⟩
    rw [exact_, mismatch]
    constructor
    · intro reported
      exact ⟨parts, fun agree part tup behind read clash => reported.mp (.inr ⟨part, tup, behind, read, clash⟩) agree,
        reported.mpr⟩
    · intro separable
      refine ⟨?_, separable.differ⟩
      rintro (⟨name, value, stored, clash⟩ | ⟨part, tup, behind, read, clash⟩) agree
      · exact agree.noClash stored clash
      · exact separable.agree agree part tup behind read clash

end Field

/-- All that `check_meta` looks at before the attributes is the same. -/
structure OtherFieldsAgree (isHmdfs : Bool) (i : Inode) (entry : List Str) : Prop where
  nlink : isHmdfs = false → i.type ≠ .dir → entry[3]?.bind parseInt = some i.linkcnt
  mode : isHmdfs = false → ∃ mode, entry[7]?.bind parseOctal = some mode ∧ i.mode &&& 0o777 = mode &&& 0o777
  size : isHmdfs = false → i.type = .file → entry[4]?.bind parseInt = some i.size

theorem checkMeta_eq {w : Py.WordClass} {isHmdfs : Bool} {i : Inode} {entry : List Str}
    (others : OtherFieldsAgree isHmdfs i entry) {field : Str} (written : entry[10]? = some field) :
    checkMeta w isHmdfs i entry = checkXattrField w field i.xattr := by
  cases isHmdfs with
  | true => simp [checkMeta, written]
  | false =>
    obtain ⟨mode, read, same⟩ := others.mode rfl
    have nlink := others.nlink rfl
    have size := others.size rfl
    cases type : i.type with
    | file => simp [checkMeta, written, type, nlink (by simp [type]), size type, read, same]
    | dir => simp [checkMeta, written, type, read, same]
    | symlink => simp [checkMeta, written, type, nlink (by simp [type]), read, same]

/-- `check_meta` on the attributes that `ConcFSCheck` writes, where nothing else differs. -/
theorem checkMeta_xattr_exact_iff (w : Py.WordClass) (isHmdfs : Bool) (i : Inode) (entry : List Str)
    (R : Go.Map String String) (order : Go.RangeOrder) (named : WordNames w R) (others : OtherFieldsAgree isHmdfs i entry)
    (written : entry[10]? = some (xattrField order R).toList) :
    TellsApart R i.xattr (checkMeta w isHmdfs i entry) ↔ Separable w R i.xattr := by
  rw [checkMeta_eq others written]
  exact checkXattrField_exact_iff named order

def asciiWords : Py.WordClass := ⟨fun c => c.isAlphanum || c == '_', fun _ _ => rfl⟩

def oneAttr (value : String) : Go.Map String String := (∅ : Go.Map String String).insert "user.a" value

def taggedFile (value : String) : Inode :=
  { name := ["f".toList], type := .file, mode := 0o644, size := 3, linkcnt := 1,
    xattr := (∅ : Go.Map Str Str).insert "user.a".toList value.toList }

def taggedEntry (field : Str) : List Str :=
  ["./f", "1", "12", "1", "3", "4096", "8", "644", "0", ""].map String.toList ++ [field]

theorem taggedEntry_agrees (value : String) (field : Str) : OtherFieldsAgree false (taggedFile value) (taggedEntry field) where
  nlink _ _ := rfl
  mode _ := ⟨0o644, rfl, rfl⟩
  size _ _ := rfl

theorem oneAttr_stored {value name other : String} (stored : (oneAttr value).lookup name = some other) :
    name = "user.a" ∧ other = value := by
  by_cases same : name = "user.a"
  · subst same
    rw [oneAttr, AList.lookup_insert] at stored
    exact ⟨rfl, (Option.some.inj stored).symm⟩
  · rw [oneAttr, AList.lookup_insert_ne same] at stored
    cases stored

theorem oneAttr_named (value : String) : WordNames asciiWords (oneAttr value) := by
  intro name _ stored
  rw [(oneAttr_stored stored).1]
  have all : "user.a".toList.all asciiWords.isNameChar = true := by decide
  exact ⟨by decide, List.all_eq_true.mp all⟩

theorem oneAttr_agree_iff {value value' : String} : SameAttrs (oneAttr value) (taggedFile value').xattr ↔ value = value' := by
  constructor
  · intro agree
    have same := agree "user.a" (by decide)
    rw [oneAttr, taggedFile, AList.lookup_insert, AList.lookup_insert, Option.map_some] at same
    exact String.toList_inj.mp (Option.some.inj same)
  · rintro rfl name _
    by_cases same : name = "user.a"
    · subst same
      rw [oneAttr, taggedFile, AList.lookup_insert, AList.lookup_insert, Option.map_some]
    · have other : name.toList ≠ "user.a".toList := fun equal => same (String.toList_inj.mp equal)
      rw [oneAttr, taggedFile, AList.lookup_insert_ne same, AList.lookup_insert_ne other]
      rfl

theorem checkMeta_xattr_exact_iff_oneAttr :
    TellsApart (oneAttr "1") (taggedFile "2").xattr
      (checkMeta asciiWords false (taggedFile "2") (taggedEntry (xattrField .stored (oneAttr "1")).toList)) := by
  have noPart : ∀ part, ¬ Behind (oneAttr "1") part := by
    rintro part ⟨name, value, stored, member⟩
    rw [(oneAttr_stored stored).2] at member
    have none_ : laterParts "1" = [] := by decide
    rw [none_] at member
    cases member
  refine (checkMeta_xattr_exact_iff asciiWords false (taggedFile "2") (taggedEntry _) (oneAttr "1") .stored
    (oneAttr_named "1") (taggedEntry_agrees "2" _) rfl).mpr ⟨fun part behind => absurd behind (noPart part),
      fun _ part _ behind => absurd behind (noPart part), fun _ => .inl ⟨"user.a", "1", by rfl, by decide, ?_⟩⟩
  intro emul stored
  rw [taggedFile, AList.lookup_insert] at stored
  cases stored
  decide

/-- A value that the other one starts with is not told from it. -/
theorem checkMeta_prefix_unseen :
    ¬ ∀ (w : Py.WordClass) (isHmdfs : Bool) (i : Inode) (entry : List Str) (R : Go.Map String String) (order : Go.RangeOrder),
      WordNames w R → OtherFieldsAgree isHmdfs i entry → entry[10]? = some (xattrField order R).toList →
        TellsApart R i.xattr (checkMeta w isHmdfs i entry) := by
  intro always
  obtain ⟨n, returned, reported⟩ := always asciiWords false (taggedFile "12") (taggedEntry _) (oneAttr "1") .stored
    (oneAttr_named "1") (taggedEntry_agrees "12" _) rfl
  have unseen : checkMeta asciiWords false (taggedFile "12") (taggedEntry (xattrField .stored (oneAttr "1")).toList) = some 0 := by
    decide
  cases unseen.symm.trans returned
  exact reported.mpr (fun agree => absurd (oneAttr_agree_iff.mp agree) (by decide)) rfl

end DfsFuzz.Checker
