import DfsFuzz.Checker.CheckMeta
import DfsFuzz.Checker.Entries
import DfsFuzz.Lib.Totals

/-!
`test_fs_history` (`checker.py`): the entries of the emulated tree against the snapshot of the file system. The
entries whose names may be gone are cut off first; the others are tested in four classes, by whether the name
and the metadata are persisted. The checks count what differs, so a sum of them is zero only where each is.
-/

namespace DfsFuzz.Checker

open DfsFuzz.Symsc Tally

structure CheckSetup where
  words : Py.WordClass
  isHmdfs : Bool
  crc : StreamSum

section Tests

variable (cfg : CheckSetup) (lines : List Line)

/-- The three checks of an inode against a line, added up. -/
def checkAll (i : Inode) (line : Line) : Option Int :=
  total id [checkMeta cfg.words cfg.isHmdfs i line.fields,
    if i.type = .symlink then checkSymlink i line.fields else some 0,
    if i.type = .file then checkData cfg.crc i line.fields else some 0]

def linesAt (path : Str) : List Line := lines.filter fun line => line.path = path

/-- The checks of an entry against every line of its path. -/
def checkLines (e : Entry) : Option Int := total (checkAll cfg e.inode) (linesAt lines e.path)

def missing (e : Entry) : Int := if linesAt lines e.path = [] then 1 else 0

/-- Name and metadata persisted: what the checks return is not used. -/
def caseOne (e : Entry) : Option Int := (checkLines cfg lines e).map fun _ => missing lines e

def caseTwo (e : Entry) : Option Int := some (missing lines e)

/-- `ret` of an entry whose path several entries have. -/
def groupRet (e : Entry) : Option Int := if e.metaPersisted then checkLines cfg lines e else some 0

/-- The lines that differ from an entry whose path it has alone. -/
def singleBugs (e : Entry) : Option Int :=
  if e.metaPersisted then
    total (fun line => (checkAll cfg e.inode line).map fun ret => if 0 < ret then 1 else 0) (linesAt lines e.path)
  else some 0

/-- The name not persisted: the returns by the paths that several entries have, and the mismatches of the others. -/
def caseThree (nonameAll : List Entry) : Option (Go.Map Str (List Int) × Int) :=
  nonameAll.foldlM (fun (grp, bugs) e =>
    if 1 < (nonameAll.map Entry.path).count e.path then (groupRet cfg lines e).map fun ret => (grp.push e.path ret, bugs)
    else (singleBugs cfg lines e).map fun n => (grp, bugs + n)) (∅, 0)

/-- A group in which every entry differs; its checks are run again for what they print. -/
def groupBug (nonameAll : List Entry) (group : Str × List Int) : Option Int :=
  if 0 ∈ group.2 then some 0
  else (total (checkLines cfg lines) (nonameAll.filter fun e => e.path = group.1)).map fun _ => 1

def caseFour (e : Entry) : Option Int := (checkLines cfg lines e).map fun ret => ret + missing lines e

/-- The tests of the four classes on the entries that are left. -/
def testEntries (entries : List Entry) : Option Bool := do
  let ofClass (name metadata : Bool) : List Entry := entries.filter fun e => e.namePersisted = name && e.metaPersisted = metadata
  let bug1 ← total (caseOne cfg lines) (ofClass true true)
  let bug2 ← total (caseTwo lines) (ofClass true false)
  let nonameAll := ofClass false true ++ ofClass false false
  let (dupGrp, bug3) ← caseThree cfg lines nonameAll
  let bugGrp ← total (groupBug cfg lines nonameAll) dupGrp.items
  let ret ← total (caseFour cfg lines) (ofClass false false)
  return decide (bug1 + bug2 + bug3 + bugGrp + (if 0 < ret then 1 else 0) ≤ 0)

/-- `test_fs_history`, without a value where it raises. -/
def testFsHistory (s : State) : Option Bool := do
  let entries ← entryList s
  testEntries cfg lines ((finalEntries lines entries).filter fun e => e.cur.2 ≠ ['.'])

end Tests

/-! ### The checks count -/

theorem checkXattrs_nonneg (xattr : Go.Map Str Str) (found : List (Str × Str)) : 0 ≤ checkXattrs xattr found := by
  induction found with
  | nil => exact Int.le_refl 0
  | cons tup found ih =>
    rw [checkXattrs]
    split
    · exact ih
    · split
      · decide
      · split
        · decide
        · exact ih

theorem checkXattrField_nonneg (w : Py.WordClass) (field : Str) (xattr : Go.Map Str Str) :
    NonNeg (checkXattrField w field xattr) := by
  rw [checkXattrField]
  split
  · exact .map (checkXattrs_nonneg xattr)
  · exact .some (Int.le_refl 0)

theorem nonneg_guarded {β : Type} {c : Prop} [Decidable c] {field : Option β} {differs : β → Prop}
    [∀ a, Decidable (differs a)] {rest : Option Int} (later : NonNeg rest) :
    NonNeg (if c then field.bind fun a => if differs a then some 1 else rest else rest) := by
  split
  · refine .bind fun a => ?_
    split
    · exact .some Int.one_nonneg
    · exact later
  · exact later

theorem checkMeta_nonneg (w : Py.WordClass) (isHmdfs : Bool) (i : Inode) (fields : List Str) :
    NonNeg (checkMeta w isHmdfs i fields) := by
  have attrs : NonNeg (fields[10]?.bind fun field => checkXattrField w field i.xattr) :=
    .bind fun field => checkXattrField_nonneg w field i.xattr
  exact nonneg_guarded (nonneg_guarded (nonneg_guarded attrs))

theorem checkSymlink_nonneg (i : Inode) (fields : List Str) : NonNeg (checkSymlink i fields) := by
  refine .bind fun target => .some ?_
  split <;> decide

theorem checkData_nonneg (crc : StreamSum) (i : Inode) (fields : List Str) : NonNeg (checkData crc i fields) := by
  have zero : NonNeg (some 0) := .some (Int.le_refl 0)
  rw [checkData]
  split
  · exact zero
  refine .bind fun ftype => ?_
  split
  · exact zero
  split
  · exact zero
  refine .bind fun block => ?_
  split
  · exact zero
  refine .bind fun crash => .some ?_
  generalize (if 0 < _ then _ else _ : UInt32) = sum
  split
  · exact Int.one_nonneg
  · exact Int.le_refl 0

variable {cfg : CheckSetup} {lines : List Line}

structure Passes (cfg : CheckSetup) (i : Inode) (line : Line) : Prop where
  metadata : checkMeta cfg.words cfg.isHmdfs i line.fields = some 0
  link : i.type = .symlink → checkSymlink i line.fields = some 0
  data : i.type = .file → checkData cfg.crc i line.fields = some 0

theorem nonneg_ite {c : Prop} [Decidable c] {o : Option Int} (nonneg : NonNeg o) : NonNeg (if c then o else some 0) := by
  split
  · exact nonneg
  · exact .some (Int.le_refl 0)

theorem ite_zero_iff {c : Prop} [Decidable c] {o : Option Int} : (if c then o else some 0) = some 0 ↔ (c → o = some 0) := by
  by_cases holds : c
  · rw [if_pos holds]
    exact ⟨fun same _ => same, fun all => all holds⟩
  · rw [if_neg holds]
    exact iff_of_true rfl fun other => absurd other holds

theorem three_nonneg (cfg : CheckSetup) (i : Inode) (line : Line) :
    ∀ o ∈ [checkMeta cfg.words cfg.isHmdfs i line.fields,
      if i.type = .symlink then checkSymlink i line.fields else some 0,
      if i.type = .file then checkData cfg.crc i line.fields else some 0], NonNeg (id o) := by
  simp only [List.forall_mem_cons, List.not_mem_nil, false_implies, implies_true, and_true, id]
  exact ⟨checkMeta_nonneg _ _ _ _, nonneg_ite (checkSymlink_nonneg _ _), nonneg_ite (checkData_nonneg _ _ _)⟩

theorem counts_checkAll (cfg : CheckSetup) (i : Inode) : Counts (checkAll cfg i) :=
  fun line => nonNeg_total (three_nonneg cfg i line)

theorem checkAll_eq_zero_iff {i : Inode} {line : Line} : checkAll cfg i line = some 0 ↔ Passes cfg i line := by
  rw [checkAll, total_eq_zero_iff (three_nonneg cfg i line)]
  simp only [List.forall_mem_cons, List.not_mem_nil, false_implies, implies_true, and_true, id, ite_zero_iff]
  exact ⟨fun all => ⟨all.1, all.2.1, all.2.2⟩, fun passes => ⟨passes.metadata, passes.link, passes.data⟩⟩

theorem counts_checkLines (cfg : CheckSetup) (lines : List Line) : Counts (checkLines cfg lines) :=
  fun e => (counts_checkAll cfg e.inode).total _

theorem mem_linesAt {path : Str} {line : Line} : line ∈ linesAt lines path ↔ line ∈ lines ∧ line.path = path := by
  simp [linesAt]

def Found (lines : List Line) (e : Entry) : Prop := InSnapshot lines e.path

/-- Every line of the path of the entry passes. -/
def Clean (cfg : CheckSetup) (lines : List Line) (e : Entry) : Prop :=
  ∀ line ∈ lines, line.path = e.path → Passes cfg e.inode line

/-- The checks do not raise on the lines of the path. -/
def Checkable (cfg : CheckSetup) (lines : List Line) (e : Entry) : Prop :=
  ∀ line ∈ lines, line.path = e.path → (checkAll cfg e.inode line).isSome

theorem checkLines_eq_zero_iff {e : Entry} : checkLines cfg lines e = some 0 ↔ Clean cfg lines e := by
  rw [checkLines, total_eq_zero_iff fun line _ => counts_checkAll cfg e.inode line]
  simp only [mem_linesAt, and_imp, checkAll_eq_zero_iff, Clean]

theorem checkLines_isSome_iff {e : Entry} : (checkLines cfg lines e).isSome ↔ Checkable cfg lines e := by
  rw [checkLines, total_isSome_iff]
  simp only [mem_linesAt, and_imp, Checkable]

theorem Clean.checkable {e : Entry} (clean : Clean cfg lines e) : Checkable cfg lines e := by
  rw [← checkLines_isSome_iff, checkLines_eq_zero_iff.mpr clean]
  rfl

theorem missing_nonneg (lines : List Line) (e : Entry) : 0 ≤ missing lines e := by
  rw [missing]
  split
  · exact Int.one_nonneg
  · exact Int.le_refl 0

theorem missing_eq_zero_iff {e : Entry} : missing lines e = 0 ↔ Found lines e := by
  rw [missing, Found]
  by_cases none_ : linesAt lines e.path = []
  · rw [if_pos none_]
    refine iff_of_false (by decide) ?_
    rintro ⟨line, member, same⟩
    have here := mem_linesAt.mpr ⟨member, same⟩
    rw [none_] at here
    cases here
  · rw [if_neg none_]
    obtain ⟨line, here⟩ := List.exists_mem_of_ne_nil _ none_
    exact iff_of_true rfl ⟨line, mem_linesAt.mp here⟩

end DfsFuzz.Checker
