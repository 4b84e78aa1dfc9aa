import DfsFuzz.Symsc.NameCalls
import Mathlib.Data.Nat.Bitwise

/-!
`_parse_open_flags` as the source has it: the flags as octal text, a digit as binary text, and the options by
their places in it.
-/

namespace DfsFuzz.Symsc

open DigitText

inductive OpenOption where
  | rdonly | wronly | rdwr | accmode
  | creat | excl | noctty | trunc | append | nonblock | dsync | fasync | direct | largefile | directory | nofollow
  | noatime | cloexec | sync
deriving DecidableEq

namespace OpenOption

/-- The constants of `common.py`. -/
def value : OpenOption → Nat
  | rdonly => 0o0000000
  | wronly => 0o0000001
  | rdwr => 0o0000002
  | accmode => 0o0000003
  | creat => 0o0000100
  | excl => 0o0000200
  | noctty => 0o0000400
  | trunc => 0o0001000
  | append => 0o0002000
  | nonblock => 0o0004000
  | dsync => 0o0010000
  | fasync => 0o0020000
  | direct => 0o0040000
  | largefile => 0o0100000
  | directory => 0o0200000
  | nofollow => 0o0400000
  | noatime => 0o1000000
  | cloexec => 0o2000000
  | sync => 0o4000000

/-- One of the four that the access mode selects. -/
def isAccess : OpenOption → Bool
  | rdonly | wronly | rdwr | accmode => true
  | _ => false

end OpenOption

/-- `[int(d) for d in str_flags.zfill(7)]` at a place from the right. -/
def flagDigit (flags place : Nat) : Nat := fromRight (zfill 7 (Nat.toDigits 8 flags)) place

/-- `bin(digit)[2:].zfill(width)` -/
def digitBits (width digit : Nat) : List Char := zfill width (Nat.toDigits 2 digit)

/-- `int(bds[i])` -/
def bitAt (bds : List Char) (i : Nat) : Nat := digit (bds.getD i '0')

def digitOption (flags place i : Nat) : Nat := bitAt (digitBits 3 (flagDigit flags place)) i

/-- The bits of the last digit, at least two. -/
def accessBds (flags : Nat) : List Char := digitBits 2 (flagDigit flags 0)

/-- What `opt_dict` has for an option. -/
def flagOption (flags : Nat) : OpenOption → Nat
  | .sync => digitOption flags 6 0
  | .cloexec => digitOption flags 6 1
  | .noatime => digitOption flags 6 2
  | .nofollow => digitOption flags 5 0
  | .directory => digitOption flags 5 1
  | .largefile => digitOption flags 5 2
  | .direct => digitOption flags 4 0
  | .fasync => digitOption flags 4 1
  | .dsync => digitOption flags 4 2
  | .nonblock => digitOption flags 3 0
  | .append => digitOption flags 3 1
  | .trunc => digitOption flags 3 2
  | .noctty => digitOption flags 2 0
  | .excl => digitOption flags 2 1
  | .creat => digitOption flags 2 2
  | .accmode => if accessBds flags = ['1', '1'] then 1 else 0
  | .rdwr => if accessBds flags = ['1', '1'] then 0 else bitAt (accessBds flags) 0
  | .wronly => if accessBds flags = ['1', '1'] then 0 else bitAt (accessBds flags) 1
  | .rdonly =>
    if accessBds flags = ['1', '1'] then 0
    else if bitAt (accessBds flags) 0 = 0 ∧ bitAt (accessBds flags) 1 = 0 then 1 else 0

/-- `_parse_open_flags`, without a dictionary where the flags are refused. -/
def parseOpenFlagsText (flags : Nat) : Option (OpenOption → Nat) :=
  let oPath := 0o10000000
  if oPath &&& flags ≠ 0 then none else some (flagOption flags)

/-- The options are the bits of the flags, and one of the access options is set. -/
structure FlagsDecoded (flags : Nat) (opts : OpenOption → Nat) : Prop where
  bits : ∀ o : OpenOption, o.isAccess = false → opts o = flags / o.value % 2
  access : ∀ o : OpenOption, o.isAccess = true → opts o = if o.value = flags % 4 then 1 else 0

theorem flagDigit_eq (flags place : Nat) : flagDigit flags place = flags / 8 ^ place % 8 := by
  rw [flagDigit, fromRight_zfill, fromRight_toDigits (by decide) (by decide)]

theorem bitAt_digitBits {digit i : Nat} (octal : digit < 8) (place : i < 3) : bitAt (digitBits 3 digit) i = digit / 2 ^ (2 - i) % 2 := by
  have all : ∀ digit < 8, ∀ i < 3, bitAt (digitBits 3 digit) i = digit / 2 ^ (2 - i) % 2 := by decide
  exact all digit octal i place

theorem digitOption_octal (flags place : Nat) {i : Nat} (bit : i < 3) :
    digitOption flags place i = octalDigit flags place / 2 ^ (2 - i) % 2 := by
  rw [digitOption, flagDigit_eq, bitAt_digitBits (Nat.mod_lt _ (by decide)) bit, octalDigit]

theorem digitOption_eq (flags place : Nat) {i : Nat} (bit : i < 3) : digitOption flags place i = flags / 8 ^ place / 2 ^ (2 - i) % 2 := by
  rw [digitOption_octal flags place bit, octalDigit]
  have three : i = 0 ∨ i = 1 ∨ i = 2 := by omega
  rcases three with rfl | rfl | rfl
  all_goals omega

theorem oPath_iff (flags : Nat) : 0o10000000 &&& flags ≠ 0 ↔ flags / 0o10000000 % 2 = 1 := by
  have power : 0o10000000 = 2 ^ 21 := by decide
  rw [Nat.and_comm, power, Nat.and_two_pow, Nat.testBit_eq_decide_div_mod_eq]
  simp

theorem flagOption_bits (flags : Nat) : ∀ o : OpenOption, o.isAccess = false → flagOption flags o = flags / o.value % 2 := by
  intro o bit
  cases o
  case rdonly | wronly | rdwr | accmode => cases bit
  all_goals
    rw [OpenOption.value]
    refine (digitOption_eq _ _ (by decide)).trans ?_
    rw [Nat.div_div_eq_div_mul]
    rfl

theorem accessBds_eq (flags : Nat) : accessBds flags = digitBits 2 (flags % 8) := by
  rw [accessBds, flagDigit_eq, Nat.pow_zero, Nat.div_one]

theorem flagOption_access {flags flags' : Nat} (same : flags % 8 = flags' % 8) {o : OpenOption} (access : o.isAccess = true) :
    flagOption flags o = flagOption flags' o := by
  cases o
  case rdonly | wronly | rdwr | accmode => simp only [flagOption, accessBds_eq, same]
  all_goals cases access

/-- The last digit selects one access option, unless it has a third bit. -/
theorem access_digit {digit : Nat} (octal : digit < 8) :
    (∀ o ∈ [OpenOption.rdonly, .wronly, .rdwr, .accmode], flagOption digit o = if o.value = digit % 4 then 1 else 0) ↔
      digit / 4 = 0 := by
  revert digit
  decide

theorem flagOption_access_iff (flags : Nat) :
    (∀ o : OpenOption, o.isAccess = true → flagOption flags o = if o.value = flags % 4 then 1 else 0) ↔ flags / 4 % 2 = 0 := by
  have mode : flags % 8 % 4 = flags % 4 := by omega
  have third : flags / 4 % 2 = 0 ↔ flags % 8 / 4 = 0 := by omega
  rw [third, ← access_digit (Nat.mod_lt flags (by decide)), mode]
  have read : ∀ o : OpenOption, o.isAccess = true → flagOption flags o = flagOption (flags % 8) o := fun o access =>
    flagOption_access (Nat.mod_mod flags 8).symm access
  have listed : ∀ o : OpenOption, o.isAccess = true ↔ o ∈ [OpenOption.rdonly, .wronly, .rdwr, .accmode] := by
    intro o
    cases o <;> decide
  constructor
  · intro all o member
    rw [← read o ((listed o).mpr member)]
    exact all o ((listed o).mpr member)
  · intro all o access
    rw [read o access]
    exact all o ((listed o).mp access)

/-- The flags are decoded right exactly where the bit next to the access mode is not set. -/
theorem parseOpenFlags_decoded_iff (flags : Nat) (noPath : flags / 0o10000000 % 2 = 0) :
    (∃ opts, parseOpenFlagsText flags = some opts ∧ FlagsDecoded flags opts) ↔ flags / 4 % 2 = 0 := by
  have parsed : parseOpenFlagsText flags = some (flagOption flags) := if_neg fun path => by
    rw [oPath_iff, noPath] at path
    exact absurd path (by decide)
  constructor
  · rintro ⟨opts, parsed', decoded⟩
    cases parsed.symm.trans parsed'
    exact (flagOption_access_iff flags).mp decoded.access
  · intro clear
    exact ⟨_, parsed, flagOption_bits flags, (flagOption_access_iff flags).mpr clear⟩

theorem decoded_creat_rdwr : ∃ opts, parseOpenFlagsText 0o102 = some opts ∧ FlagsDecoded 0o102 opts :=
  (parseOpenFlags_decoded_iff 0o102 (by decide)).mpr (by decide)

/-- The flag 4 is read as `O_RDWR`. -/
theorem flag_four_rdwr :
    ¬ ∀ flags : Nat, flags / 0o10000000 % 2 = 0 → ∃ opts, parseOpenFlagsText flags = some opts ∧ FlagsDecoded flags opts := by
  intro always
  obtain ⟨opts, parsed, decoded⟩ := always 4 (by decide)
  have wrong : (parseOpenFlagsText 4).map (· .rdwr) = some 1 := by decide
  have right : opts .rdwr = 0 := decoded.access .rdwr rfl
  rw [parsed, Option.map_some, right] at wrong
  exact absurd wrong (by decide)

def emulatedOptions (opts : OpenOption → Nat) : OpenOpts where
  nofollow := opts .nofollow = 1
  directory := opts .directory = 1
  append := opts .append = 1
  trunc := opts .trunc = 1
  excl := opts .excl = 1
  creat := opts .creat = 1
  accmode := opts .accmode = 1
  rdwr := opts .rdwr = 1
  wronly := opts .wronly = 1
  rdonly := opts .rdonly = 1

theorem access_accessBits {digit : Nat} (octal : digit < 8) :
    let accmode := decide (digit = 3)
    let access := accessBits digit
    decide (flagOption digit .accmode = 1) = accmode ∧ decide (flagOption digit .rdwr = 1) = (!accmode && access.1) ∧
      decide (flagOption digit .wronly = 1) = (!accmode && access.2) ∧
      decide (flagOption digit .rdonly = 1) = (!accmode && !access.1 && !access.2) := by
  revert digit
  decide

/-- What the emulator works with is what the text gives. -/
theorem parseOpenFlags_text (flags : Nat) :
    parseOpenFlags (flags : Int) = some ((parseOpenFlagsText flags).map emulatedOptions) := by
  have path : ((flags : Int) / 0o10000000 % 2 = 1) ↔ (0o10000000 &&& flags ≠ 0) := by
    rw [oPath_iff]
    omega
  rw [parseOpenFlags, parseOpenFlagsText]
  by_cases refused : 0o10000000 &&& flags ≠ 0
  · rw [if_pos (path.mpr refused), if_pos refused]
    rfl
  · rw [if_neg (fun other => refused (path.mp other)), if_neg (by omega), if_neg refused, Option.map_some]
    have last : octalDigit flags 0 = flags % 8 := by rw [octalDigit, Nat.pow_zero, Nat.div_one]
    obtain ⟨accmode, rdwr, wronly, rdonly⟩ := access_accessBits (Nat.mod_lt flags (by decide))
    have read : ∀ o : OpenOption, o.isAccess = true → flagOption flags o = flagOption (flags % 8) o := fun o access =>
      flagOption_access (Nat.mod_mod flags 8).symm access
    simp only [Int.toNat_natCast, emulatedOptions, last, read .accmode rfl, read .rdwr rfl, read .wronly rfl, read .rdonly rfl,
      accmode, rdwr, wronly, rdonly]
    have first : ∀ place, digitOption flags place 0 = octalDigit flags place / 4 % 2 := fun place => digitOption_octal flags place (by decide)
    have second : ∀ place, digitOption flags place 1 = octalDigit flags place / 2 % 2 := fun place => digitOption_octal flags place (by decide)
    have third : ∀ place, digitOption flags place 2 = octalDigit flags place / 1 % 2 := fun place => digitOption_octal flags place (by decide)
    simp only [flagOption, first, second, third]

end DfsFuzz.Symsc
