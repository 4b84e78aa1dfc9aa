import Mathlib.Data.List.DropRight
import Mathlib.Data.List.Infix
import Mathlib.Data.List.Basic

/-!
Go's `strings` and `path/filepath` (Unix) functions. A Go string is a byte sequence; here it is
a `String` with one `Char` for each byte, so that lengths, prefixes and splits are the byte ones.
-/

namespace Go

def hasPrefix (s p : String) : Bool := p.toList.isPrefixOf s.toList

def contains (s sub : String) : Bool := decide (sub.toList <:+: s.toList)

def trimPrefix (s p : String) : String :=
  if hasPrefix s p then String.ofList (s.toList.drop p.toList.length) else s

def hasSuffix (s p : String) : Bool := p.toList.isSuffixOf s.toList

def trimSuffix (s p : String) : String :=
  if hasSuffix s p then String.ofList (s.toList.take (s.toList.length - p.toList.length)) else s

def split (s : String) (sep : Char) : List String := (s.toList.splitOn sep).map String.ofList

def count (s : String) (c : Char) : Nat := s.toList.count c

def ofBytes (bytes : List UInt8) : String := String.ofList (bytes.map fun b => Char.ofNat b.toNat)

def join (parts : List String) : String := String.ofList (['/'].intercalate (parts.map String.toList))

theorem split_ne_nil (s : String) (sep : Char) : split s sep ≠ [] := by
  simp [split, List.splitOn_ne_nil]

theorem join_split (s : String) : join (split s '/') = s := by
  have chars : (split s '/').map String.toList = s.toList.splitOn '/' := by
    simp [split, Function.comp_def]
  rw [join, chars, List.intercalate_splitOn, String.ofList_toList]

theorem split_join {parts : List String} (nonempty : parts ≠ []) (free : ∀ p ∈ parts, '/' ∉ p.toList) :
    split (join parts) '/' = parts := by
  have pieces : (['/'].intercalate (parts.map String.toList)).splitOn '/' = parts.map String.toList := by
    refine List.splitOn_intercalate '/' ?_ (by simpa using nonempty)
    intro l member
    obtain ⟨p, inside, rfl⟩ := List.mem_map.mp member
    exact free p inside
  rw [split, join, String.toList_ofList, pieces]
  simp [Function.comp_def]

theorem not_mem_of_mem_splitOn (sep : Char) (chars : List Char) : ∀ l ∈ chars.splitOn sep, sep ∉ l := by
  induction chars with
  | nil => simp [List.splitOn_nil]
  | cons c chars ih =>
    rw [List.splitOn_cons_eq_if_modifyHead]
    split
    · simpa using ih
    · rename_i different
      intro l member
      cases pieces : chars.splitOn sep with
      | nil => exact absurd pieces (List.splitOn_ne_nil sep chars)
      | cons first rest =>
        rw [pieces] at ih member
        rcases List.mem_cons.mp member with rfl | later
        · have head := ih first List.mem_cons_self
          simp only [List.mem_cons, not_or]
          exact ⟨fun same => different (by simp [same]), head⟩
        · exact ih l (List.mem_cons_of_mem _ later)

theorem not_mem_of_mem_split {s : String} {sep : Char} {p : String} (member : p ∈ split s sep) : sep ∉ p.toList := by
  obtain ⟨l, inside, rfl⟩ := List.mem_map.mp member
  rw [String.toList_ofList]
  exact not_mem_of_mem_splitOn sep s.toList l inside

theorem trimPrefix_append (p s : String) : trimPrefix (p ++ s) p = s := by
  have starts : hasPrefix (p ++ s) p = true := by
    rw [hasPrefix, List.isPrefixOf_iff_prefix, String.toList_append]
    exact List.prefix_append _ _
  rw [trimPrefix, if_pos starts, String.toList_append, List.drop_left, String.ofList_toList]

theorem append_trimPrefix {s p : String} (starts : hasPrefix s p = true) : p ++ trimPrefix s p = s := by
  rw [trimPrefix, if_pos starts]
  rw [hasPrefix, List.isPrefixOf_iff_prefix] at starts
  obtain ⟨t, whole⟩ := starts
  apply String.toList_inj.mp
  rw [String.toList_append, String.toList_ofList, ← whole, List.drop_left]

theorem hasSuffix_append (s p : String) : hasSuffix (s ++ p) p = true := by
  rw [hasSuffix, List.isSuffixOf_iff_suffix, String.toList_append]
  exact List.suffix_append _ _

theorem trimSuffix_append (s p : String) : trimSuffix (s ++ p) p = s := by
  rw [trimSuffix, if_pos (hasSuffix_append s p), String.toList_append, List.length_append, Nat.add_sub_cancel,
    List.take_left, String.ofList_toList]

/-- One component of `filepath.Clean`, on the kept components in reverse. -/
def cleanStep (rooted : Bool) (out : List String) (part : String) : List String :=
  if part = "" ∨ part = "." then out
  else if part = ".." then
    match out with
    | [] => if rooted then [] else [".."]
    | top :: rest => if top = ".." then ".." :: out else rest
  else part :: out

def clean (path : String) : String :=
  if path = "" then "."
  else
    let rooted := hasPrefix path "/"
    let body := join ((split path '/').foldl (cleanStep rooted) []).reverse
    if rooted then "/" ++ body else if body = "" then "." else body

/-- `filepath.Dir`: everything up to the last slash, cleaned. -/
def dir (path : String) : String :=
  clean (String.ofList (path.toList.reverse.dropWhile (· ≠ '/')).reverse)

theorem rdropWhile_append_all {α : Type} {p : α → Bool} (front : List α) {run : List α} (all : ∀ x ∈ run, p x = true) :
    (front ++ run).rdropWhile p = front.rdropWhile p := by
  rw [List.rdropWhile, List.reverse_append, List.dropWhile_append_of_pos (by simpa using all), List.rdropWhile]

theorem rdropWhile_append_stop {α : Type} {p : α → Bool} (front : List α) {stop : α} {run : List α}
    (stops : p stop = false) (all : ∀ x ∈ run, p x = true) :
    (front ++ stop :: run).rdropWhile p = front ++ [stop] := by
  rw [show front ++ stop :: run = (front ++ [stop]) ++ run by simp, rdropWhile_append_all _ all]
  exact List.rdropWhile_concat_neg p front stop (by simp [stops])

/-- The index of the last `c`, as `strings.LastIndex` finds it. -/
def lastIndexByte (s : List Char) (c : Char) : Option Nat :=
  let front := s.rdropWhile (· ≠ c)
  if front = [] then none else some (front.length - 1)

theorem lastIndexByte_none {s : List Char} {c : Char} (absent : c ∉ s) : lastIndexByte s c = none := by
  have empty : s.rdropWhile (· ≠ c) = [] := by
    rw [List.rdropWhile_eq_nil_iff]
    intro x member
    simp only [decide_eq_true_eq]
    rintro rfl
    exact absent member
  simp only [lastIndexByte, empty, if_true]

theorem lastIndexByte_append (front : List Char) {c : Char} {rest : List Char} (last : c ∉ rest) :
    lastIndexByte (front ++ c :: rest) c = some front.length := by
  have stopped : (front ++ c :: rest).rdropWhile (· ≠ c) = front ++ [c] := by
    refine rdropWhile_append_stop front (by simp) ?_
    intro x member
    simp only [decide_eq_true_eq]
    rintro rfl
    exact last member
  simp only [lastIndexByte, stopped]
  simp

theorem exists_last {s : List Char} {c : Char} (member : c ∈ s) : ∃ front rest, s = front ++ c :: rest ∧ c ∉ rest := by
  obtain ⟨rest, front, split, last⟩ := List.eq_append_cons_of_mem (List.mem_reverse.mpr member)
  refine ⟨front.reverse, rest.reverse, ?_, by simpa using last⟩
  rw [← List.reverse_reverse s, split]
  simp

/-- A suffix without `c` of a list whose last `c` is known lies behind it. -/
theorem suffix_behind {front rest tail : List Char} {c : Char} (free : c ∉ tail) :
    tail <:+ front ++ c :: rest ↔ tail <:+ rest := by
  constructor
  · intro suffix
    by_cases short : tail.length ≤ rest.length
    · have behind : rest <:+ front ++ c :: rest := (List.suffix_cons c rest).trans (List.suffix_append front _)
      exact List.suffix_of_suffix_length_le suffix behind short
    · have whole : c :: rest <:+ tail :=
        List.suffix_of_suffix_length_le (List.suffix_append front _) suffix (by simp; omega)
      exact absurd (whole.subset List.mem_cons_self) free
  · intro suffix
    exact (suffix.trans (List.suffix_cons c rest)).trans (List.suffix_append front _)

end Go
