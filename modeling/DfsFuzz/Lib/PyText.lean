import Mathlib.Algebra.Group.Nat.Defs
import Mathlib.Data.List.Basic
import Mathlib.Data.List.Infix
import Mathlib.Tactic.Common

/-!
The string methods of Python that a line parser uses, on strings as lists of characters.
-/

namespace Py

/-- `sub in s` -/
def contains (sub s : List Char) : Bool := decide (sub <:+: s)

/-- The characters that `str.strip` removes. -/
def isSpace (c : Char) : Bool :=
  let n := c.toNat
  (9 ≤ n && n ≤ 13) || (28 ≤ n && n ≤ 32) || n == 0x85 || n == 0xa0 || n == 0x1680 ||
    (0x2000 ≤ n && n ≤ 0x200a) || n == 0x2028 || n == 0x2029 || n == 0x202f || n == 0x205f || n == 0x3000

def strip (s : List Char) : List Char := ((s.dropWhile isSpace).reverse.dropWhile isSpace).reverse

/-- `s.split(sep)` from the position where `skip` characters of a found separator are left. -/
def splitFrom (sep : List Char) : Nat → List Char → List (List Char)
  | _, [] => [[]]
  | skip + 1, _ :: t => splitFrom sep skip t
  | 0, c :: t =>
    if sep.isPrefixOf (c :: t) then [] :: splitFrom sep (sep.length - 1) t
    else (splitFrom sep 0 t).modifyHead (c :: ·)

def split (sep s : List Char) : List (List Char) := splitFrom sep 0 s

/-! ### Splitting -/

theorem splitFrom_ne_nil (sep : List Char) (skip : Nat) (s : List Char) : splitFrom sep skip s ≠ [] := by
  induction s generalizing skip with
  | nil => cases skip <;> simp [splitFrom]
  | cons c t ih =>
    cases skip with
    | succ skip => exact ih skip
    | zero =>
      rw [splitFrom]
      split
      · simp
      · cases pieces : splitFrom sep 0 t with
        | nil => exact absurd pieces (ih 0)
        | cons first rest => simp

theorem splitFrom_skip (sep dropped t : List Char) : splitFrom sep dropped.length (dropped ++ t) = splitFrom sep 0 t := by
  induction dropped with
  | nil => rfl
  | cons c dropped ih => exact ih

theorem split_cons_other {sep t : List Char} {c : Char} (other : ¬ sep <+: c :: t) :
    split sep (c :: t) = (split sep t).modifyHead (c :: ·) := by
  rw [← List.isPrefixOf_iff_prefix] at other
  rw [split, splitFrom, if_neg other]
  rfl

theorem split_separator {c : Char} {sep : List Char} (t : List Char) :
    split (c :: sep) (c :: sep ++ t) = [] :: split (c :: sep) t := by
  have found : (c :: sep).isPrefixOf (c :: sep ++ t) = true :=
    List.isPrefixOf_iff_prefix.mpr (List.prefix_append _ _)
  rw [List.cons_append] at found ⊢
  rw [split, splitFrom, if_pos found]
  exact congrArg _ (splitFrom_skip (c :: sep) sep t)

theorem split_append {c : Char} {sep piece : List Char} (free : c ∉ piece) (t : List Char) :
    split (c :: sep) (piece ++ (c :: sep ++ t)) = piece :: split (c :: sep) t := by
  induction piece with
  | nil => exact split_separator t
  | cons d piece ih =>
    have other : ¬ c :: sep <+: d :: piece ++ (c :: sep ++ t) := by
      intro found
      exact free (by simp [(List.cons_prefix_cons.mp found).1])
    rw [List.cons_append] at other ⊢
    rw [split_cons_other other, ih fun inside => free (List.mem_cons_of_mem _ inside)]
    rfl

theorem split_free {sep s : List Char} {d : Char} (marker : d ∈ sep) (free : d ∉ s) : split sep s = [s] := by
  induction s with
  | nil => rfl
  | cons c s ih =>
    have other : ¬ sep <+: c :: s := fun found => free (found.subset marker)
    rw [split_cons_other other, ih fun inside => free (List.mem_cons_of_mem _ inside)]
    rfl

theorem split_intercalate {c : Char} {sep : List Char} {pieces : List (List Char)} (nonempty : pieces ≠ [])
    (free : ∀ piece ∈ pieces, c ∉ piece) : split (c :: sep) ((c :: sep).intercalate pieces) = pieces := by
  induction pieces with
  | nil => exact absurd rfl nonempty
  | cons piece pieces ih =>
    have first := free piece List.mem_cons_self
    cases pieces with
    | nil => simpa using split_free List.mem_cons_self first
    | cons next pieces =>
      rw [List.intercalate_cons_cons, List.append_assoc, split_append first,
        ih (by simp) fun piece member => free piece (List.mem_cons_of_mem _ member)]

theorem split_char_cons (c d : Char) (t : List Char) :
    split [c] (d :: t) = if d = c then [] :: split [c] t else (split [c] t).modifyHead (d :: ·) := by
  split
  · rename_i same
    subst same
    exact @split_separator d [] t
  · rename_i other
    exact split_cons_other fun found => other (List.cons_prefix_cons.mp found).1.symm

theorem not_mem_of_mem_split {c : Char} {s piece : List Char} (member : piece ∈ split [c] s) : c ∉ piece := by
  induction s generalizing piece with
  | nil =>
    cases List.mem_singleton.mp member
    exact List.not_mem_nil
  | cons d t ih =>
    rw [split_char_cons] at member
    split at member
    · rcases List.mem_cons.mp member with rfl | later
      · exact List.not_mem_nil
      · exact ih later
    · rename_i other
      cases pieces : split [c] t with
      | nil => exact absurd pieces (splitFrom_ne_nil [c] 0 t)
      | cons first rest =>
        rw [pieces, List.modifyHead_cons, List.mem_cons] at member
        rcases member with rfl | later
        · have free := ih (pieces ▸ List.mem_cons_self)
          simp [free, Ne.symm other]
        · exact ih (pieces ▸ List.mem_cons_of_mem _ later)

theorem intercalate_split (c : Char) (s : List Char) : [c].intercalate (split [c] s) = s := by
  induction s with
  | nil => rfl
  | cons d t ih =>
    rw [split_char_cons]
    cases pieces : split [c] t with
    | nil => exact absurd pieces (splitFrom_ne_nil [c] 0 t)
    | cons first rest =>
      rw [pieces] at ih
      split
      · rename_i same
        rw [List.intercalate_cons_cons, ih, same]
        rfl
      · rw [List.modifyHead_cons]
        cases rest with
        | nil =>
          rw [List.intercalate_singleton] at ih ⊢
          rw [ih]
        | cons second rest =>
          rw [List.intercalate_cons_cons] at ih ⊢
          rw [List.cons_append, List.cons_append, ih]

/-! ### Substrings -/

theorem contains_iff {sub s : List Char} : contains sub s = true ↔ sub <:+: s := by simp [contains]

theorem not_contains_of_free {sub s : List Char} {d : Char} (marker : d ∈ sub) (free : d ∉ s) : contains sub s = false := by
  rw [Bool.eq_false_iff]
  intro found
  exact free ((contains_iff.mp found).subset marker)

/-- A substring without the character `q` lies on one side of it. -/
theorem infix_around {sub a b : List Char} {q : Char} (free : q ∉ sub) : sub <:+: a ++ q :: b ↔ sub <:+: a ∨ sub <:+: b := by
  constructor
  · rintro ⟨s, t, whole⟩
    rw [List.append_assoc] at whole
    rcases List.append_eq_append_iff.mp whole with ⟨m, rfl, rest⟩ | ⟨m, rfl, rest⟩
    · rcases List.append_eq_append_iff.mp rest with ⟨k, rfl, _⟩ | ⟨k, rfl, tail⟩
      · exact .inl ⟨s, k, by simp⟩
      · cases k with
        | nil => exact .inl ⟨s, [], by simp⟩
        | cons d k =>
          obtain ⟨rfl, _⟩ := List.cons.inj tail
          exact absurd (by simp) free
    · cases m with
      | nil =>
        cases sub with
        | nil => exact .inl (List.nil_infix)
        | cons d sub =>
          obtain ⟨rfl, _⟩ := List.cons.inj rest
          exact absurd (by simp) free
      | cons d m =>
        obtain ⟨_, rfl⟩ := List.cons.inj rest
        exact .inr ⟨m, t, by simp⟩
  · rintro (left | right)
    · exact left.trans (List.prefix_append a (q :: b)).isInfix
    · exact right.trans ((List.suffix_cons q b).trans (List.suffix_append a (q :: b))).isInfix

/-- A word that neither starts nor ends with a space is not touched by `strip`. -/
theorem strip_eq {s : List Char} (first : ∀ c, s.head? = some c → isSpace c = false)
    (last : ∀ c, s.getLast? = some c → isSpace c = false) : strip s = s := by
  have front : s.dropWhile isSpace = s := by
    cases s with
    | nil => rfl
    | cons c s => rw [List.dropWhile_cons_of_neg (by simp [first c rfl])]
  have back : s.reverse.dropWhile isSpace = s.reverse := by
    cases reversed : s.reverse with
    | nil => rfl
    | cons c r =>
      have final : s.getLast? = some c := by rw [← List.head?_reverse, reversed]; rfl
      rw [List.dropWhile_cons_of_neg (by simp [last c final])]
  rw [strip, front, back, List.reverse_reverse]

/-! ### Searches for a name with a colon behind it, as `re` makes them with `([\w.]+):(.*)` -/

/-- What `\w` matches; the letters beyond ASCII are left open. -/
structure WordClass where
  isWord : Char → Bool
  ascii : ∀ c : Char, c.toNat < 128 → isWord c = (c.isAlphanum || c == '_')

def WordClass.isNameChar (w : WordClass) (c : Char) : Bool := w.isWord c || c == '.'

theorem WordClass.colon (w : WordClass) : w.isNameChar ':' = false := by
  rw [isNameChar, w.ascii ':' (by decide)]
  decide

theorem WordClass.semicolon (w : WordClass) : w.isNameChar ';' = false := by
  rw [isNameChar, w.ascii ';' (by decide)]
  decide

def WordClass.IsName (w : WordClass) (name : List Char) : Prop := name ≠ [] ∧ ∀ c ∈ name, w.isNameChar c = true

/-- `pat.match(s)`: the two groups. The name takes all that it can, and no shorter one has a colon behind it. -/
def matchNamed (w : WordClass) (s : List Char) : Option (List Char × List Char) :=
  match s.takeWhile w.isNameChar, s.dropWhile w.isNameChar with
  | c :: name, ':' :: value => some (c :: name, value)
  | _, _ => none

/-- `pat.search(s)`, from the left. -/
def searchNamed (w : WordClass) : List Char → Option (List Char × List Char)
  | [] => none
  | c :: s => (matchNamed w (c :: s)).or (searchNamed w s)

theorem matchNamed_named {w : WordClass} {name : List Char} (is : w.IsName name) (value : List Char) :
    matchNamed w (name ++ ':' :: value) = some (name, value) := by
  obtain ⟨nonempty, chars⟩ := is
  have taken : (name ++ ':' :: value).takeWhile w.isNameChar = name := by
    rw [List.takeWhile_append_of_pos chars, List.takeWhile_cons_of_neg (by simp [w.colon]), List.append_nil]
  have dropped : (name ++ ':' :: value).dropWhile w.isNameChar = ':' :: value := by
    rw [List.dropWhile_append_of_pos chars, List.dropWhile_cons_of_neg (by simp [w.colon])]
  cases name with
  | nil => exact absurd rfl nonempty
  | cons c name => simp only [matchNamed, taken, dropped]

theorem searchNamed_named {w : WordClass} {name : List Char} (is : w.IsName name) (value : List Char) :
    searchNamed w (name ++ ':' :: value) = some (name, value) := by
  have matched := matchNamed_named is value
  cases name with
  | nil => exact absurd rfl is.1
  | cons c name =>
    rw [List.cons_append] at matched ⊢
    rw [searchNamed, matched, Option.some_or]

/-! ### Joined pieces -/

theorem split_append_free {c : Char} {pre : List Char} (free : c ∉ pre) (s : List Char) :
    split [c] (pre ++ s) = (split [c] s).modifyHead (pre ++ ·) := by
  induction pre with
  | nil =>
    rw [List.nil_append]
    cases split [c] s <;> rfl
  | cons d pre ih =>
    have other : d ≠ c := fun same => free (same ▸ List.mem_cons_self)
    rw [List.cons_append, split_char_cons, if_neg other, ih fun inside => free (List.mem_cons_of_mem d inside)]
    cases split [c] s <;> rfl

theorem split_join {c : Char} (s t : List Char) : split [c] (s ++ c :: t) = split [c] s ++ split [c] t := by
  induction s with
  | nil => exact @split_separator c [] t
  | cons d s ih =>
    rw [List.cons_append, split_char_cons, split_char_cons, ih]
    split
    · rfl
    · cases pieces : split [c] s with
      | nil => exact absurd pieces (splitFrom_ne_nil [c] 0 s)
      | cons first rest => rfl

theorem split_intercalate_flatMap {c : Char} {parts : List (List Char)} (nonempty : parts ≠ []) :
    split [c] ([c].intercalate parts) = parts.flatMap (split [c]) := by
  induction parts with
  | nil => exact absurd rfl nonempty
  | cons part parts ih =>
    cases parts with
    | nil => simp
    | cons next parts =>
      have rest := ih (by simp)
      rw [List.intercalate_cons_cons, List.append_assoc, List.singleton_append, split_join, rest]
      rfl

end Py

/-! Numbers as text: the digit at a place, and leading zeros. -/

namespace DigitText

/-- `s.zfill(width)`, of text without a sign. -/
def zfill (width : Nat) (s : List Char) : List Char := List.replicate (width - s.length) '0' ++ s

/-- `int(c)` of a digit. -/
def digit (c : Char) : Nat := c.toNat - '0'.toNat

def fromRight (s : List Char) (place : Nat) : Nat := digit (s.reverse.getD place '0')

theorem digit_digitChar {n : Nat} (small : n < 10) : digit n.digitChar = n :=
  Nat.toNat_digitChar_sub_48_of_lt_ten small

theorem fromRight_concat_zero (s : List Char) (c : Char) : fromRight (s ++ [c]) 0 = digit c := by
  simp [fromRight]

theorem fromRight_concat_succ (s : List Char) (c : Char) (place : Nat) : fromRight (s ++ [c]) (place + 1) = fromRight s place := by
  simp [fromRight]

theorem fromRight_zfill (width : Nat) (s : List Char) (place : Nat) : fromRight (zfill width s) place = fromRight s place := by
  rw [fromRight, fromRight, zfill, List.reverse_append, List.reverse_replicate, List.getD_eq_getElem?_getD, List.getD_eq_getElem?_getD]
  rcases Nat.lt_or_ge place s.reverse.length with inside | beyond
  · rw [List.getElem?_append_left inside]
  · rw [List.getElem?_append_right beyond, List.getElem?_eq_none beyond, List.getElem?_replicate]
    split
    · rfl
    · rfl

theorem fromRight_toDigits {b : Nat} (base : 1 < b) (small : b ≤ 10) (n place : Nat) :
    fromRight (Nat.toDigits b n) place = n / b ^ place % b := by
  induction place generalizing n with
  | zero =>
    have last : digit (n % b).digitChar = n % b := digit_digitChar (Nat.lt_of_lt_of_le (Nat.mod_lt n (by omega)) small)
    rw [Nat.pow_zero, Nat.div_one, Nat.toDigits_eq_if base]
    split
    · rename_i single
      rw [Nat.mod_eq_of_lt single] at last ⊢
      exact last
    · rw [fromRight_concat_zero, last]
  | succ place ih =>
    rw [Nat.pow_succ, Nat.mul_comm, ← Nat.div_div_eq_div_mul, Nat.toDigits_eq_if base]
    split
    · rename_i single
      rw [Nat.div_eq_of_lt single, Nat.zero_div, Nat.zero_mod]
      rfl
    · rw [fromRight_concat_succ, ih]

end DigitText
