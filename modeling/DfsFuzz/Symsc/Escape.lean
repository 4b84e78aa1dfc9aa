import Mathlib.Algebra.Group.Int.Defs
import Mathlib.Algebra.GroupWithZero.Nat
import Mathlib.Data.List.Infix
import Mathlib.Data.List.Basic
import Mathlib.Data.Fintype.Basic
import Mathlib.Tactic.Common

/-!
How a data buffer is printed into the program text (`symc3serializeData` in `encoding.go`) and
read back by the emulator (`_unescape` in `utils.py`). The printer writes every printable byte as
itself, the backslash included; the reader takes a backslash for the start of an escape.
-/

namespace DfsFuzz.Symsc

/-- The character a byte is printed as and decoded to: the one with its code. -/
def chr (b : UInt8) : Char := Char.ofNat b.toNat

def isPrintable (v : UInt8) : Bool := 0x20 ≤ v && v < 0x7f

def toHexChar (v : UInt8) : Char := if v < 10 then chr (48 + v) else chr (97 + v - 10)

def hexHi (b : UInt8) : Char := toHexChar (b >>> 4)

def hexLo (b : UInt8) : Char := toHexChar (b &&& 0xf)

def escapeByte (b : UInt8) : List Char :=
  if isPrintable b then [chr b] else ['\\', 'x', hexHi b, hexLo b]

def escape (data : List UInt8) : List Char := data.flatMap escapeByte

def isHexDigit (c : Char) : Bool := "0123456789abcdefABCDEF".toList.contains c

def hexDigit (c : Char) : Nat :=
  if c.isDigit then c.toNat - 48 else if c.isLower then c.toNat - 87 else c.toNat - 55

/-- `chr(int(hl, 16))` -/
def hexChar (h l : Char) : Char := Char.ofNat (16 * hexDigit h + hexDigit l)

/-- `_ESCAPE_MAP.get(nxt, '\\' + nxt)` -/
def escapeMap (nxt : Char) : List Char :=
  if nxt = 'n' then ['\n'] else if nxt = 't' then ['\t'] else if nxt = 'r' then ['\r']
  else if nxt = '0' then [Char.ofNat 0] else if nxt = '\\' then ['\\'] else if nxt = '"' then ['"']
  else ['\\', nxt]

def unescape : List Char → List Char
  | [] => []
  | [c] => [c]
  | c :: nxt :: rest =>
    if c = '\\' then
      if nxt = 'x' then
        match rest with
        | h :: l :: rest' =>
          if isHexDigit h && isHexDigit l then hexChar h l :: unescape rest'
          else escapeMap nxt ++ unescape (h :: l :: rest')
        | [h] => escapeMap nxt ++ unescape [h]
        | [] => escapeMap nxt
      else escapeMap nxt ++ unescape rest
    else c :: unescape (nxt :: rest)

def startsHex : List Char → Bool
  | h :: l :: _ => isHexDigit h && isHexDigit l
  | _ => false

theorem unescape_plain {c : Char} (plain : c ≠ '\\') (t : List Char) : unescape (c :: t) = c :: unescape t := by
  cases t with
  | nil => simp [unescape]
  | cons d t =>
    rw [unescape.eq_def]
    simp only [if_neg plain]

theorem unescape_hex {h l : Char} (digits : isHexDigit h = true ∧ isHexDigit l = true) (t : List Char) :
    unescape ('\\' :: 'x' :: h :: l :: t) = hexChar h l :: unescape t := by
  simp [unescape, digits.1, digits.2]

theorem unescape_notHex {t : List Char} (other : startsHex t = false) :
    unescape ('\\' :: 'x' :: t) = '\\' :: 'x' :: unescape t := by
  have kept : escapeMap 'x' = ['\\', 'x'] := by decide
  rcases t with _ | ⟨h, _ | ⟨l, t⟩⟩
  · simp [unescape, kept]
  · simp [unescape, kept]
  · have unhexed : (isHexDigit h && isHexDigit l) = false := other
    rw [unescape]
    simp only [if_true, unhexed, Bool.false_eq_true, if_false, kept, List.cons_append, List.nil_append]

theorem unescape_map {nxt : Char} (other : nxt ≠ 'x') (t : List Char) :
    unescape ('\\' :: nxt :: t) = escapeMap nxt ++ unescape t := by
  rw [unescape.eq_def]
  simp only [if_true, if_neg other]

/-! ### What the reader makes of the printed bytes -/

def decoded : List UInt8 → List Char
  | [] => []
  | [b] => [chr b]
  | b :: c :: rest =>
    if b = 0x5c then
      if isPrintable c then
        if chr c = 'x' then
          match rest with
          | h :: l :: rest' =>
            if isHexDigit (chr h) && isHexDigit (chr l) then hexChar (chr h) (chr l) :: decoded rest'
            else '\\' :: 'x' :: decoded (h :: l :: rest')
          | [h] => ['\\', 'x', chr h]
          | [] => ['\\', 'x']
        else escapeMap (chr c) ++ decoded rest
      else '\\' :: 'x' :: hexHi c :: hexLo c :: decoded rest
    else chr b :: decoded (c :: rest)

/-- A measure that reading back never raises: what an escape stands for weighs no more than the
bytes it is read from. -/
def charWeight (c : Char) : Nat := if c = '\\' then 2 else if 0x20 ≤ c.toNat ∧ c.toNat < 0x7f then 1 else 3

def weight (t : List Char) : Nat := (t.map charWeight).sum

def escapeLetter (c : UInt8) : Bool := "ntr0\\\"".toList.contains (chr c)

theorem forall_byte {p : UInt8 → Prop} (checked : ∀ n : Fin 256, p (UInt8.ofFin n)) (b : UInt8) : p b :=
  checked b.toFin

theorem byte_facts : ∀ b : UInt8,
    ((chr b).toNat = b.toNat ∧ (chr b = '\\' ↔ b = 0x5c) ∧
      (isHexDigit (hexHi b) = true ∧ isHexDigit (hexLo b) = true ∧ hexChar (hexHi b) (hexLo b) = chr b ∧
        hexHi b ≠ '\\' ∧ hexLo b ≠ '\\') ∧
      (isHexDigit (chr b) = true → isPrintable b = true)) ∧
    (isPrintable b = true → weight (escapeMap (chr b)) ≤ 2 + charWeight (chr b)) ∧
    (charWeight (hexHi b) = 1 ∧ charWeight (hexLo b) = 1) ∧
    (isPrintable b = false → charWeight (chr b) = 3) ∧
    ((escapeLetter b = false → escapeMap (chr b) = ['\\', chr b]) ∧
      (escapeLetter b = true → (escapeMap (chr b)).length = 1)) ∧
    ('x' = chr b → isPrintable b = true) ∧ ((chr b).isAlpha = true → isPrintable b = true) :=
  forall_byte (by decide +kernel)

theorem chr_injective : Function.Injective chr := by
  intro a b same
  have codes : (chr a).toNat = (chr b).toNat := congrArg Char.toNat same
  have code : ∀ b : UInt8, (chr b).toNat = b.toNat := fun b => (byte_facts b).1.1
  rw [code, code] at codes
  exact UInt8.toNat_inj.mp codes

theorem chr_backslash (b : UInt8) : chr b = '\\' ↔ b = 0x5c := (byte_facts b).1.2.1

theorem hexDigits_escapeByte (b : UInt8) :
    isHexDigit (hexHi b) = true ∧ isHexDigit (hexLo b) = true ∧ hexChar (hexHi b) (hexLo b) = chr b ∧
      hexHi b ≠ '\\' ∧ hexLo b ≠ '\\' :=
  (byte_facts b).1.2.2.1

theorem isHexDigit_chr (b : UInt8) : isHexDigit (chr b) = true → isPrintable b = true := (byte_facts b).1.2.2.2

theorem escape_cons (b : UInt8) (r : List UInt8) : escape (b :: r) = escapeByte b ++ escape r := rfl

variable {b : UInt8}

theorem escape_printable (printable : isPrintable b = true) (r : List UInt8) : escape (b :: r) = chr b :: escape r := by
  simp [escape_cons, escapeByte, printable]

theorem escape_hex (hidden : isPrintable b = false) (r : List UInt8) :
    escape (b :: r) = '\\' :: 'x' :: hexHi b :: hexLo b :: escape r := by
  simp [escape_cons, escapeByte, hidden]

theorem startsHex_escape_single (h : UInt8) : startsHex (escape [h]) = false := by
  by_cases printable : isPrintable h = true
  · rw [escape_printable printable]
    rfl
  · rw [escape_hex (by simpa using printable)]
    rfl

theorem startsHex_escape (h l : UInt8) (r : List UInt8) :
    startsHex (escape (h :: l :: r)) = (isHexDigit (chr h) && isHexDigit (chr l)) := by
  have backslash : isHexDigit '\\' = false := by decide
  have unhexed {b : UInt8} (hidden : ¬ isPrintable b = true) : isHexDigit (chr b) = false := by
    cases digit : isHexDigit (chr b) with
    | false => rfl
    | true => exact absurd (isHexDigit_chr b digit) hidden
  by_cases first : isPrintable h = true
  · rw [escape_printable first]
    by_cases second : isPrintable l = true
    · rw [escape_printable second]
      rfl
    · rw [escape_hex (by simpa using second), unhexed second]
      simp [startsHex, backslash]
  · rw [escape_hex (by simpa using first), unhexed first]
    simp [startsHex, backslash]

theorem unescape_escape_plain (plain : b ≠ 0x5c) (r : List UInt8) :
    unescape (escape (b :: r)) = chr b :: unescape (escape r) := by
  by_cases printable : isPrintable b = true
  · rw [escape_printable printable]
    exact unescape_plain (fun same => plain ((chr_backslash b).mp same)) _
  · have digits := hexDigits_escapeByte b
    rw [escape_hex (by simpa using printable), unescape_hex ⟨digits.1, digits.2.1⟩, digits.2.2.1]

theorem escape_backslash (r : List UInt8) : escape (0x5c :: r) = '\\' :: escape r := by
  have printed : chr 0x5c = '\\' := by decide
  rw [escape_printable (by decide), printed]

theorem unescape_escape (r : List UInt8) : unescape (escape r) = decoded r := by
  have alone (h : UInt8) : unescape (escape [h]) = [chr h] := by
    by_cases plain : h = 0x5c
    · subst plain
      decide
    · rw [unescape_escape_plain plain]
      rfl
  fun_induction decoded r with
  | case1 => rfl
  | case2 b => exact alone b
  | case3 c printable isX h l rest' hex ih =>
    obtain ⟨first, second⟩ := Bool.and_eq_true_iff.mp hex
    rw [escape_backslash, escape_printable printable, isX, escape_printable (isHexDigit_chr h first),
      escape_printable (isHexDigit_chr l second), unescape_hex ⟨first, second⟩, ih]
  | case4 c printable isX h l rest' unhexed ih =>
    have other : startsHex (escape (h :: l :: rest')) = false := by
      rw [startsHex_escape]
      simpa using unhexed
    rw [escape_backslash, escape_printable printable, isX, unescape_notHex other, ih]
  | case5 c printable isX h =>
    rw [escape_backslash, escape_printable printable, isX, unescape_notHex (startsHex_escape_single h), alone]
  | case6 c printable isX =>
    rw [escape_backslash, escape_printable printable, isX, unescape_notHex rfl]
    rfl
  | case7 c rest printable notX ih =>
    rw [escape_backslash, escape_printable printable, unescape_map notX, ih]
  | case8 c rest hidden ih =>
    -- the two backslashes are read as one, and the digits of the escape stay as text
    have digits := hexDigits_escapeByte c
    rw [escape_backslash, escape_hex (by simpa using hidden), unescape_map (by decide),
      unescape_plain (by decide), unescape_plain digits.2.2.2.1, unescape_plain digits.2.2.2.2, ih]
    rfl
  | case9 b c rest plain ih => rw [unescape_escape_plain plain, ih]

/-! ### When the bytes come back -/

/-- A backslash at the head of the bytes is read back as itself. -/
def harmless : List UInt8 → Bool
  | b :: c :: rest =>
    b != 0x5c || isPrintable c && !"ntr0\\\"".toList.contains (chr c) &&
      !(chr c == 'x' && startsHex (rest.map chr))
  | _ => true

/-- Every backslash of the bytes is the last byte, or is followed by a printable byte that
neither is the letter of an escape nor starts `xHH`. -/
def Verbatim (r : List UInt8) : Prop := ∀ t ∈ r.tails, harmless t = true

instance (r : List UInt8) : Decidable (Verbatim r) := inferInstanceAs (Decidable (∀ t ∈ r.tails, harmless t = true))

theorem verbatim_nil : Verbatim [] := by decide

variable {r : List UInt8}

theorem verbatim_cons : Verbatim (b :: r) ↔ harmless (b :: r) = true ∧ Verbatim r := by
  simp [Verbatim]

@[simp] theorem weight_nil : weight [] = 0 := rfl

@[simp] theorem weight_cons (c : Char) (t : List Char) : weight (c :: t) = charWeight c + weight t := by
  simp [weight]

@[simp] theorem weight_append (s t : List Char) : weight (s ++ t) = weight s + weight t := by
  simp [weight]

theorem charWeight_le (c : Char) : charWeight c ≤ 3 := by
  unfold charWeight
  split
  · omega
  · split <;> omega

theorem charWeight_pos (c : Char) : 0 < charWeight c := by
  unfold charWeight
  split
  · omega
  · split <;> omega

theorem weight_escapeMap (c : UInt8) : isPrintable c = true → weight (escapeMap (chr c)) ≤ 2 + charWeight (chr c) :=
  (byte_facts c).2.1

theorem weight_hex (c : UInt8) : charWeight (hexHi c) = 1 ∧ charWeight (hexLo c) = 1 := (byte_facts c).2.2.1

theorem charWeight_hidden (c : UInt8) : isPrintable c = false → charWeight (chr c) = 3 := (byte_facts c).2.2.2.1

theorem weight_decoded (r : List UInt8) : weight (decoded r) ≤ weight (r.map chr) := by
  have backslash : charWeight (chr 0x5c) = 2 := by decide
  have backslashChar : charWeight '\\' = 2 := by decide
  have letter : charWeight 'x' = 1 := by decide
  fun_induction decoded r with
  | case1 => simp
  | case2 b => simp
  | case3 c printable isX h l rest' hex ih =>
    have small := charWeight_le (hexChar (chr h) (chr l))
    simp only [List.map_cons, weight_cons, backslash, isX, letter]
    have := charWeight_pos (chr h)
    omega
  | case4 c printable isX h l rest' unhexed ih =>
    simp only [List.map_cons, weight_cons, backslash, backslashChar, isX] at ih ⊢
    omega
  | case5 c printable isX h => simp [isX, backslash, backslashChar]
  | case6 c printable isX => simp [isX, backslash, backslashChar]
  | case7 c rest printable notX ih =>
    have small := weight_escapeMap c printable
    simp only [List.map_cons, weight_cons, weight_append, backslash]
    omega
  | case8 c rest hidden ih =>
    obtain ⟨hi, lo⟩ := weight_hex c
    have heavy := charWeight_hidden c (by simpa using hidden)
    simp only [List.map_cons, weight_cons, backslash, backslashChar, letter, hi, lo, heavy]
    omega
  | case9 b c rest plain ih =>
    simp only [List.map_cons, weight_cons] at ih ⊢
    omega

theorem weight_pos {t : List Char} (something : t ≠ []) : 0 < weight t := by
  cases t with
  | nil => exact absurd rfl something
  | cons c t =>
    have := charWeight_pos c
    rw [weight_cons]
    omega

theorem decoded_ne_longer {w : List Char} (something : w ≠ []) : decoded r ≠ w ++ r.map chr := by
  intro same
  have small := weight_decoded r
  have := weight_pos something
  rw [same, weight_append] at small
  omega

theorem decoded_ne_extended {z : List UInt8} (something : z ≠ []) : decoded r ≠ (r ++ z).map chr := by
  intro same
  have small := weight_decoded r
  have := weight_pos (t := z.map chr) (by simpa using something)
  rw [same, List.map_append, weight_append] at small
  omega

theorem harmless_plain (plain : b ≠ 0x5c) (r : List UInt8) : harmless (b :: r) = true := by
  cases r <;> simp [harmless, plain]

theorem escapeMap_other (c : UInt8) : escapeLetter c = false → escapeMap (chr c) = ['\\', chr c] :=
  (byte_facts c).2.2.2.2.1.1

theorem escapeMap_letter (c : UInt8) : escapeLetter c = true → (escapeMap (chr c)).length = 1 :=
  (byte_facts c).2.2.2.2.1.2

theorem harmless_backslash (c : UInt8) (rest : List UInt8) :
    harmless (0x5c :: c :: rest) =
      (isPrintable c && !escapeLetter c && !(chr c == 'x' && startsHex (rest.map chr))) := by
  simp [harmless, escapeLetter]

theorem verbatim_backslash (c : UInt8) (rest : List UInt8) :
    Verbatim (0x5c :: c :: rest) ↔ harmless (0x5c :: c :: rest) = true ∧ Verbatim rest := by
  rw [verbatim_cons]
  refine and_congr_right fun safe => ?_
  have plain : c ≠ 0x5c := by
    rintro rfl
    exact absurd safe (by simp [harmless_backslash, show escapeLetter 0x5c = true by decide])
  rw [verbatim_cons, harmless_plain plain]
  simp

theorem decoded_eq_iff (r : List UInt8) : decoded r = r.map chr ↔ Verbatim r := by
  have printed : chr 0x5c = '\\' := by decide
  have letterX {c : UInt8} (isX : chr c = 'x') : escapeLetter c = false := by
    rw [escapeLetter, isX]
    decide
  fun_induction decoded r with
  | case1 => simp [verbatim_nil]
  | case2 b => simp [verbatim_cons, verbatim_nil, harmless]
  | case3 c printable isX h l rest' hex ih =>
    refine iff_of_false ?_ ?_
    · intro same
      have tails := (List.cons.inj same).2
      exact decoded_ne_longer (w := [chr c, chr h, chr l]) (by simp) tails
    · rw [verbatim_backslash, harmless_backslash]
      simp [isX, startsHex, hex]
  | case4 c printable isX h l rest' unhexed ih =>
    rw [verbatim_backslash, harmless_backslash]
    simpa [printed, isX, printable, letterX isX, startsHex, unhexed] using ih
  | case5 c printable isX h =>
    rw [verbatim_backslash, harmless_backslash]
    simp [printed, isX, printable, letterX isX, startsHex, verbatim_cons, verbatim_nil, harmless]
  | case6 c printable isX =>
    rw [verbatim_backslash, harmless_backslash]
    simp [printed, isX, printable, letterX isX, startsHex, verbatim_nil]
  | case7 c rest printable notX ih =>
    rw [verbatim_backslash, harmless_backslash, List.map_cons, List.map_cons, printed]
    cases letter : escapeLetter c with
    | false =>
      rw [escapeMap_other c letter]
      simpa [printable, notX] using ih
    | true =>
      -- the escape is read as one character, so the rest would have to grow
      obtain ⟨d, single⟩ := List.length_eq_one_iff.mp (escapeMap_letter c letter)
      refine iff_of_false ?_ (by simp)
      intro same
      rw [single] at same
      exact decoded_ne_longer (w := [chr c]) (by simp) (List.cons.inj same).2
  | case8 c rest hidden ih =>
    refine iff_of_false ?_ ?_
    · intro same
      have second := (List.cons.inj (List.cons.inj same).2).1
      exact hidden ((byte_facts c).2.2.2.2.2.1 second)
    · rw [verbatim_backslash, harmless_backslash]
      simp [hidden]
  | case9 b c rest plain ih =>
    rw [verbatim_cons]
    simpa [harmless_plain plain] using ih

theorem decoded_of_plain (plain : ∀ b ∈ r, b ≠ 0x5c) : decoded r = r.map chr := by
  rw [decoded_eq_iff]
  induction r with
  | nil => exact verbatim_nil
  | cons b r ih =>
    rw [verbatim_cons]
    exact ⟨harmless_plain (plain b List.mem_cons_self) r, ih fun c member => plain c (List.mem_cons_of_mem _ member)⟩

theorem decoded_plain (plain : b ≠ 0x5c) (r : List UInt8) : decoded (b :: r) = chr b :: decoded r := by
  rw [← unescape_escape, unescape_escape_plain plain, unescape_escape]

theorem decoded_x {c : UInt8} (printable : isPrintable c = true) (isX : chr c = 'x')
    (unhexed : startsHex (escape r) = false) : decoded (0x5c :: c :: r) = '\\' :: 'x' :: decoded r := by
  rw [← unescape_escape, escape_backslash, escape_printable printable, isX, unescape_notHex unhexed, unescape_escape]

theorem decoded_map {c : UInt8} (printable : isPrintable c = true) (notX : chr c ≠ 'x') (r : List UInt8) :
    decoded (0x5c :: c :: r) = escapeMap (chr c) ++ decoded r := by
  rw [← unescape_escape, escape_backslash, escape_printable printable, unescape_map notX, unescape_escape]

theorem decoded_hidden {c : UInt8} (hidden : ¬ isPrintable c = true) (r : List UInt8) :
    decoded (0x5c :: c :: r) = '\\' :: 'x' :: hexHi c :: hexLo c :: decoded r := by
  rw [decoded.eq_def]
  simp only [if_true, if_neg hidden]

/-- A slash and digits printed after the bytes are always read as text. -/
theorem decoded_slash (r digits : List UInt8) (plain : ∀ d ∈ digits, d ≠ 0x5c) :
    ∃ before, decoded (r ++ 0x2f :: digits) = before ++ digits.map chr := by
  have slash : isHexDigit (chr 0x2f) = false := by decide
  have alone : ∃ before, decoded (0x2f :: digits) = before ++ digits.map chr :=
    ⟨[chr 0x2f], by rw [decoded_plain (by decide), decoded_of_plain plain]; rfl⟩
  have afterOne (b : UInt8) : ∃ before, decoded (b :: 0x2f :: digits) = before ++ digits.map chr := by
    by_cases backslash : b = 0x5c
    · subst backslash
      refine ⟨escapeMap '/', ?_⟩
      rw [← unescape_escape, escape_backslash, escape_printable (by decide), show chr 0x2f = '/' by decide,
        unescape_map (by decide), unescape_escape, decoded_of_plain plain]
    · obtain ⟨before, same⟩ := alone
      exact ⟨chr b :: before, by rw [decoded_plain backslash, same]; rfl⟩
  have grown {w : List Char} {r : List UInt8} {t : List Char} (step : t = w ++ decoded (r ++ 0x2f :: digits))
      (rest : ∃ before, decoded (r ++ 0x2f :: digits) = before ++ digits.map chr) :
      ∃ before, t = before ++ digits.map chr := by
    obtain ⟨before, same⟩ := rest
    exact ⟨w ++ before, by rw [step, same, List.append_assoc]⟩
  fun_induction decoded r with
  | case1 => exact alone
  | case2 b => exact afterOne b
  | case3 c printable isX h l rest' hex ih =>
    refine grown (w := [hexChar (chr h) (chr l)]) ?_ ih
    simp [decoded, printable, isX, hex]
  | case4 c printable isX h l rest' unhexed ih =>
    refine grown (w := ['\\', 'x']) (r := h :: l :: rest') (decoded_x printable isX ?_) ih
    simpa [startsHex_escape] using unhexed
  | case5 c printable isX h =>
    refine grown (w := ['\\', 'x']) (r := [h]) (decoded_x printable isX ?_) (afterOne h)
    show startsHex (escape (h :: 0x2f :: digits)) = false
    rw [startsHex_escape, slash, Bool.and_false]
  | case6 c printable isX =>
    refine grown (w := ['\\', 'x']) (r := []) (decoded_x printable isX ?_) alone
    cases digits with
    | nil => exact startsHex_escape_single _
    | cons d digits =>
      show startsHex (escape (0x2f :: d :: digits)) = false
      rw [startsHex_escape, slash, Bool.false_and]
  | case7 c rest printable notX ih => exact grown (decoded_map printable notX (rest ++ 0x2f :: digits)) ih
  | case8 c rest hidden ih =>
    exact grown (w := ['\\', 'x', hexHi c, hexLo c]) (decoded_hidden hidden (rest ++ 0x2f :: digits)) ih
  | case9 b c rest plain ih =>
    exact grown (w := [chr b]) (r := c :: rest) (decoded_plain plain (c :: rest ++ 0x2f :: digits)) ih

theorem isPrintable_letter (b : UInt8) : (chr b).isAlpha = true → isPrintable b = true := (byte_facts b).2.2.2.2.2.2

theorem escapeByte_hexDigits : ∀ b : UInt8, ∀ c ∈ ['\\', 'x', hexHi b, hexLo b], c.isAlpha = true → c = 'x' ∨ isHexDigit c = true := by
  intro b c member alpha
  have digits := hexDigits_escapeByte b
  rcases List.mem_cons.mp member with rfl | member
  · exact absurd alpha (by decide)
  · rcases List.mem_cons.mp member with rfl | member
    · exact .inl rfl
    · rcases List.mem_cons.mp member with rfl | member
      · exact .inr digits.1
      · rw [List.mem_singleton.mp member]
        exact .inr digits.2.1

theorem prefix_escape {word : List Char} (letters : ∀ c ∈ word, c.isAlpha = true) (r : List UInt8) :
    word <+: escape r ↔ word <+: r.map chr := by
  induction word generalizing r with
  | nil => simp
  | cons c word ih =>
    have alpha := letters c List.mem_cons_self
    cases r with
    | nil => simp [escape]
    | cons b r =>
      by_cases printable : isPrintable b = true
      · rw [escape_printable printable, List.map_cons, List.cons_prefix_cons, List.cons_prefix_cons,
          ih (fun d member => letters d (List.mem_cons_of_mem _ member)) r]
      · rw [escape_hex (by simpa using printable), List.map_cons, List.cons_prefix_cons, List.cons_prefix_cons]
        refine iff_of_false ?_ ?_
        · rintro ⟨rfl, _⟩
          exact absurd alpha (by decide)
        · rintro ⟨rfl, _⟩
          exact printable (isPrintable_letter b alpha)

/-- A word of letters that does not start like an escape is in the printed text where it is in the bytes. -/
theorem infix_escape {c : Char} {word : List Char} (letters : ∀ d ∈ c :: word, d.isAlpha = true) (notX : c ≠ 'x')
    (notHex : isHexDigit c = false) (r : List UInt8) : c :: word <:+: escape r ↔ c :: word <:+: r.map chr := by
  induction r with
  | nil => simp [escape]
  | cons b r ih =>
    by_cases printable : isPrintable b = true
    · have whole := prefix_escape letters (b :: r)
      rw [escape_printable printable, List.map_cons] at whole ⊢
      rw [List.infix_cons_iff, List.infix_cons_iff, ih, whole]
    · have alpha := letters c List.mem_cons_self
      have skip {e : Char} {t : List Char} (digit : e ∈ ['\\', 'x', hexHi b, hexLo b]) :
          c :: word <:+: e :: t ↔ c :: word <:+: t := by
        rw [List.infix_cons_iff, List.cons_prefix_cons]
        refine or_iff_right ?_
        rintro ⟨rfl, _⟩
        rcases escapeByte_hexDigits b c digit alpha with rfl | hex
        · exact notX rfl
        · rw [hex] at notHex
          cases notHex
      have skipByte : c :: word <:+: chr b :: r.map chr ↔ c :: word <:+: r.map chr := by
        rw [List.infix_cons_iff, List.cons_prefix_cons]
        refine or_iff_right ?_
        rintro ⟨rfl, _⟩
        exact printable (isPrintable_letter b alpha)
      rw [escape_hex (by simpa using printable), List.map_cons, skipByte, skip (by simp), skip (by simp),
        skip (by simp), skip (by simp), ih]

end DfsFuzz.Symsc
