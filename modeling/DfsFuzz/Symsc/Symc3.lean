import DfsFuzz.Minimize.Args
import DfsFuzz.Symsc.Parse
import Mathlib.Data.List.TakeWhile

/-!
`SerializeForSymc3` (`prog/encoding.go`): the text of a program that the emulator reads. The
definitions of the buffer variables are collected in `vbuf`, the calls in `symc3buf`. Which buffers come
back as they were printed is decided one buffer at a time, by the cut of the trailing zeros and the
escapes of the text.
-/

namespace DfsFuzz.Symsc

open DfsFuzz.Minimize (BufferKind)

/-- A data argument that carries bytes, with the parts of its type that the printer reads. -/
structure Buffer where
  kind : BufferKind
  varlen : Bool
  data : List UInt8
deriving DecidableEq

def Buffer.readable (b : Buffer) : Bool := b.kind = .string || b.kind = .filename || b.kind = .glob

/-- An argument of a call. A descriptor names the call that returned it, or is a plain value. -/
inductive SymArg where
  | const (val : UInt64)
  | fd (res : Nat)
  | fdVal (val : UInt64)
  | inData (b : Buffer)
  | outData (size : UInt64)
deriving DecidableEq

/-- The name of a call in the descriptions: an identifier, with a variant after a dollar sign. -/
structure CallName where
  text : List Char
  ident : ∀ c ∈ text, c.isAlphanum ∨ c = '_' ∨ c = '$'
deriving DecidableEq

/-- `strings.Split(c.Meta.Name, "$")[0]` -/
def CallName.base (n : CallName) : List Char := n.text.takeWhile (· ≠ '$')

structure SymCall where
  name : CallName
  args : List SymArg
deriving DecidableEq

def SymCall.sysName (c : SymCall) : List Char := "SYS_".toList ++ c.name.base

/-- Programs whose calls have an argument and use only descriptors returned by earlier calls. -/
structure SymProg where
  calls : List SymCall
  nonempty : ∀ c ∈ calls, c.args ≠ []
  earlier : ∀ i c, calls[i]? = some c → ∀ j, SymArg.fd j ∈ c.args →
    j < i ∧ ∃ d, calls[j]? = some d ∧ fdCalls.contains d.sysName = true

/-- `len(c.Ret.uses) != 0` for the call at `i`. -/
def SymProg.used (p : SymProg) (i : Nat) : Bool := p.calls.any fun c => c.args.contains (.fd i)

structure Serializer where
  varSeq : Nat := 0
  vbuf : List Char := []
  symc3buf : List Char := []
  vars : Go.Map Nat Nat := ∅
  varMap : Go.Map (List Char) Nat := ∅
  correct : Bool := true

def decimal (n : Nat) : List Char := Nat.toDigits 10 n

def decimalInt (n : Int) : List Char := if n < 0 then '-' :: decimal n.natAbs else decimal n.natAbs

def varName (id : Nat) : List Char := 'v' :: decimal id

def Serializer.vprintf (ctx : Serializer) (text : List Char) : Serializer := { ctx with vbuf := ctx.vbuf ++ text }

def Serializer.symc3printf (ctx : Serializer) (text : List Char) : Serializer :=
  { ctx with symc3buf := ctx.symc3buf ++ text }

def Serializer.alloc (ctx : Serializer) : Serializer := { ctx with varSeq := ctx.varSeq + 1 }

/-- `data[:len(data)-1]` as long as the last two bytes are zero, on the reversed bytes. -/
def trimReversed : List UInt8 → List UInt8
  | a :: b :: r => if a = 0 ∧ b = 0 then trimReversed (b :: r) else a :: b :: r
  | r => r

def trimZeros (data : List UInt8) : List UInt8 := (trimReversed data.reverse).reverse

/-- The bytes that are printed: a short run of zeros is put back where the type is of variable length. -/
def Buffer.kept (b : Buffer) : List UInt8 :=
  if b.varlen && b.data.length ≤ (trimZeros b.data).length + 8 then b.data else trimZeros b.data

/-- `symc3serializeData` -/
def symc3serializeData (data : List UInt8) (readable : Bool) : List Char :=
  if readable && 1 < data.length && data.getLast? = some 0 then escape data.dropLast else escape data

/-- `DataArg.symc3serialize` for an input. -/
def Buffer.text (b : Buffer) : List Char :=
  symc3serializeData b.kept b.readable ++
    if b.varlen && b.data.length ≠ b.kept.length then '/' :: decimal b.data.length else []

def outDef (id size : Nat) : List Char := varName id ++ '[' :: decimal size ++ "];\n".toList

def textDef (id : Nat) (str : List Char) : List Char :=
  if str = [] then varName id ++ "[0];\n".toList else varName id ++ "[] = \"".toList ++ str ++ "\";\n".toList

def Serializer.arg (ctx : Serializer) : SymArg → Serializer
  | .const val => ctx.symc3printf (decimal val.toNat)
  | .fdVal val => ctx.symc3printf (decimalInt val.toInt64.toInt)
  | .fd res =>
    match ctx.vars.lookup res with
    | none => { ctx with correct := false }
    | some id => ctx.symc3printf (varName id)
  | .outData size => (ctx.alloc.vprintf (outDef ctx.varSeq size.toNat)).symc3printf (varName ctx.varSeq)
  | .inData b =>
    match ctx.varMap.lookup b.text with
    | some id => ctx.symc3printf (varName id)
    | none =>
      let ctx' := ctx.alloc.vprintf (textDef ctx.varSeq b.text)
      { ctx' with varMap := ctx.varMap.insert b.text ctx.varSeq }.symc3printf (varName ctx.varSeq)

def Serializer.moreArgs (ctx : Serializer) (args : List SymArg) : Serializer :=
  args.foldl (fun ctx a => (ctx.symc3printf ", ".toList).arg a) ctx

def Serializer.args (ctx : Serializer) : List SymArg → Serializer
  | [] => ctx
  | a :: rest => (ctx.arg a).moreArgs rest

/-- The variable for the result of the call at `i`, where one is used. -/
def Serializer.result (ctx : Serializer) (i : Nat) (used : Bool) : Serializer :=
  if used then
    { ctx.alloc with vars := ctx.vars.insert i ctx.varSeq }.symc3printf (varName ctx.varSeq ++ " = ".toList)
  else ctx

def Serializer.call (ctx : Serializer) (i : Nat) (used : Bool) (c : SymCall) : Serializer :=
  let ctx' := (ctx.result i used).symc3printf ("syscall(".toList ++ c.sysName ++ ", ".toList)
  (ctx'.args c.args).symc3printf ");\n".toList

def SymProg.serializer (p : SymProg) : Serializer :=
  p.calls.zipIdx.foldl (fun ctx e => ctx.call e.2 (p.used e.2) e.1) {}

def SymProg.serializeForSymc3 (p : SymProg) : List Char :=
  if p.serializer.correct then p.serializer.vbuf ++ p.serializer.symc3buf ++ ['\n'] else []

/-! ### What the emulator should see -/

/-- What the emulator should see of a buffer: its bytes, less one final NUL for the string types. -/
def Buffer.content (b : Buffer) : List UInt8 :=
  if b.readable && b.data.getLast? = some 0 then b.data.dropLast else b.data

def trailingZeros (data : List UInt8) : Nat := (data.reverse.takeWhile (· = 0)).length

/-- The printer drops nothing that the emulator should see: at most eight zeros are cut where the
length varies and none where it is fixed. A string that is a single NUL keeps it, so of the
strings of NULs only two of a fixed length come out right. -/
def Buffer.Kept (b : Buffer) : Prop :=
  if b.varlen then trailingZeros b.data ≤ 9 ∧ ¬ (b.readable = true ∧ b.data = [0])
  else (trailingZeros b.data ≤ 1 ∧ ¬ (b.readable = true ∧ b.data = [0])) ∨ (b.readable = true ∧ b.data = [0, 0])

instance (b : Buffer) : Decidable b.Kept :=
  inferInstanceAs (Decidable (if b.varlen then _ else _))

theorem trailingZeros_append {core : List UInt8} (solid : core.getLast? ≠ some 0) (k : Nat) :
    trailingZeros (core ++ List.replicate k 0) = k := by
  have stops : core.reverse.takeWhile (fun x => decide (x = 0)) = [] := by
    cases reversed : core.reverse with
    | nil => rfl
    | cons c r =>
      have last : core.getLast? = some c := by rw [← List.head?_reverse, reversed]; rfl
      rw [List.takeWhile_cons_of_neg]
      rintro zero
      exact solid (by rw [last, of_decide_eq_true zero])
  rw [trailingZeros, List.reverse_append, List.reverse_replicate, List.takeWhile_append_of_pos, stops]
  · simp
  · intro x member
    simp [List.eq_of_mem_replicate member]

theorem split_zeros (data : List UInt8) :
    ∃ core k, data = core ++ List.replicate k 0 ∧ core.getLast? ≠ some 0 := by
  refine ⟨(data.reverse.dropWhile (· = 0)).reverse, trailingZeros data, ?_, ?_⟩
  · have zeros : data.reverse.takeWhile (· = 0) = List.replicate (trailingZeros data) 0 := by
      refine List.eq_replicate_of_mem ?_
      intro x member
      simpa using List.mem_takeWhile_imp member
    have whole := List.takeWhile_append_dropWhile (p := fun x => decide (x = 0)) (l := data.reverse)
    rw [zeros] at whole
    have reversed := congrArg List.reverse whole
    rw [List.reverse_append, List.reverse_replicate, List.reverse_reverse] at reversed
    exact reversed.symm
  · rw [List.getLast?_reverse]
    intro zero
    have := List.head?_dropWhile_not (fun x : UInt8 => decide (x = 0)) data.reverse
    rw [zero] at this
    simp at this

theorem trimReversed_solid {r : List UInt8} (solid : r.head? ≠ some 0) : trimReversed r = r := by
  rcases r with _ | ⟨a, _ | ⟨b, r⟩⟩
  · rfl
  · rfl
  · rw [trimReversed, if_neg]
    rintro ⟨rfl, _⟩
    exact solid rfl

theorem trimReversed_zeros {r : List UInt8} (solid : r.head? ≠ some 0) (k : Nat) :
    trimReversed (List.replicate (k + 1) 0 ++ r) = 0 :: r := by
  induction k with
  | zero =>
    cases r with
    | nil => rfl
    | cons b r =>
      show trimReversed (0 :: b :: r) = 0 :: b :: r
      rw [trimReversed, if_neg]
      rintro ⟨_, rfl⟩
      exact solid rfl
  | succ k ih =>
    show trimReversed (0 :: 0 :: (List.replicate k 0 ++ r)) = 0 :: r
    rw [trimReversed, if_pos ⟨rfl, rfl⟩]
    exact ih

theorem trimZeros_solid {core : List UInt8} (solid : core.getLast? ≠ some 0) : trimZeros core = core := by
  rw [trimZeros, trimReversed_solid (by rwa [List.head?_reverse]), List.reverse_reverse]

theorem trimZeros_zeros {core : List UInt8} (solid : core.getLast? ≠ some 0) (k : Nat) :
    trimZeros (core ++ List.replicate (k + 1) 0) = core ++ [0] := by
  rw [trimZeros, List.reverse_append, List.reverse_replicate,
    trimReversed_zeros (by rwa [List.head?_reverse]), List.reverse_cons, List.reverse_reverse]

section Shape

variable {b : Buffer} {core : List UInt8} {k : Nat} (shape : b.data = core ++ List.replicate k 0)
  (solid : core.getLast? ≠ some 0)

include shape solid

theorem kept_whole (few : k ≤ 1 ∨ (b.varlen = true ∧ k ≤ 9)) : b.kept = b.data := by
  rw [Buffer.kept]
  split
  · rfl
  · rename_i longRun
    rw [shape] at longRun ⊢
    match k, few with
    | 0, _ => simp [trimZeros_solid solid]
    | 1, _ => rw [trimZeros_zeros solid]; rfl
    | k + 2, .inr few =>
      rw [trimZeros_zeros solid] at longRun
      simp [few.1] at longRun
      omega

theorem kept_cut (many : 2 ≤ k) (long : b.varlen = true → 10 ≤ k) : b.kept = core ++ [0] := by
  obtain ⟨k, rfl⟩ : ∃ j, k = j + 1 := ⟨k - 1, by omega⟩
  rw [Buffer.kept, if_neg, shape, trimZeros_zeros solid]
  rw [shape, trimZeros_zeros solid]
  simp
  intro varlen
  have := long varlen
  omega

end Shape

theorem text_whole {b : Buffer} (whole : b.kept = b.data) (proper : ¬ (b.readable = true ∧ b.data = [0])) :
    b.text = escape b.content := by
  have none : ¬ (b.varlen && b.data.length ≠ b.kept.length) = true := by simp [whole]
  rw [Buffer.text, if_neg none, List.append_nil, whole, symc3serializeData, Buffer.content]
  by_cases nul : b.readable = true ∧ b.data.getLast? = some 0
  · have long : 1 < b.data.length := by
      rcases data : b.data with _ | ⟨a, _ | ⟨c, r⟩⟩
      · simp [data] at nul
      · exact absurd ⟨nul.1, by simpa [data] using nul.2⟩ proper
      · simp
    rw [if_pos (by simp [nul, long]), if_pos (by simp [nul])]
  · have left : ¬ (b.readable && decide (b.data.getLast? = some 0)) = true := by simpa using nul
    rw [if_neg left, if_neg]
    simp only [Bool.and_eq_true, decide_eq_true_eq] at left ⊢
    exact fun all => left ⟨all.1.1, all.2⟩

theorem text_fixed {b : Buffer} (fixed : b.varlen = false) : b.text = symc3serializeData b.kept b.readable := by
  rw [Buffer.text]
  simp [fixed]

theorem isDigit_byte {c : Char} (digit : c.isDigit = true) :
    ∃ d : UInt8, chr d = c ∧ d ≠ 0x5c ∧ d ≠ 0 ∧ isPrintable d = true := by
  have bounds : 48 ≤ c.toNat ∧ c.toNat ≤ 57 := by
    simpa [Char.isDigit, UInt32.le_iff_toNat_le] using digit
  have digits : ∀ n : Fin 58, 48 ≤ n.val →
      chr (UInt8.ofNat n) = Char.ofNat n ∧ UInt8.ofNat n ≠ 0x5c ∧ UInt8.ofNat n ≠ 0 ∧ isPrintable (UInt8.ofNat n) = true := by
    decide +kernel
  refine ⟨UInt8.ofNat c.toNat, ?_⟩
  simpa [Char.ofNat_toNat] using digits ⟨c.toNat, by omega⟩ bounds.1

theorem decimal_isDigit {n : Nat} {c : Char} (member : c ∈ decimal n) : c.isDigit = true :=
  Nat.isDigit_of_mem_toDigits (by decide) (by decide) member

theorem digits_bytes {t : List Char} (digits : ∀ c ∈ t, c.isDigit = true) :
    ∃ ds : List UInt8, ds.map chr = t ∧ escape ds = t ∧ ∀ d ∈ ds, d ≠ 0x5c ∧ d ≠ 0 := by
  induction t with
  | nil => exact ⟨[], rfl, rfl, by simp⟩
  | cons c t ih =>
    obtain ⟨ds, same, printed, others⟩ := ih fun d member => digits d (List.mem_cons_of_mem _ member)
    obtain ⟨d, rfl, plain, nonzero, printable⟩ := isDigit_byte (digits c List.mem_cons_self)
    refine ⟨d :: ds, by rw [List.map_cons, same], by rw [escape_printable printable, printed], ?_⟩
    intro e member
    rcases List.mem_cons.mp member with rfl | later
    · exact ⟨plain, nonzero⟩
    · exact others e later

/-- With the length printed behind it a buffer is never read back: the last character is a digit. -/
theorem unescape_with_length (r : List UInt8) (n : Nat) :
    ∃ before d, unescape (escape r ++ '/' :: decimal n) = before ++ [chr d] ∧ d ≠ 0 := by
  obtain ⟨ds, same, printed, plain⟩ := digits_bytes (t := decimal n) fun c member => decimal_isDigit member
  have joined : escape r ++ '/' :: decimal n = escape (r ++ 0x2f :: ds) := by
    rw [escape, escape, List.flatMap_append]
    show _ = _ ++ escape (0x2f :: ds)
    rw [escape_printable (by decide), printed]
    rfl
  have nonempty : ds ≠ [] := by
    rintro rfl
    exact Nat.toDigits_ne_nil (n := n) (b := 10) same.symm
  obtain ⟨before, ends⟩ := decoded_slash r ds fun d member => (plain d member).1
  refine ⟨before ++ ds.dropLast.map chr, ds.getLast nonempty, ?_, (plain _ (List.getLast_mem nonempty)).2⟩
  rw [joined, unescape_escape, ends, List.append_assoc]
  conv_lhs => rw [← List.dropLast_append_getLast nonempty]
  simp

/-! ### Which buffers come back -/

theorem symc3serializeData_escape (data : List UInt8) (readable : Bool) :
    ∃ r, symc3serializeData data readable = escape r := by
  rw [symc3serializeData]
  split
  · exact ⟨_, rfl⟩
  · exact ⟨_, rfl⟩

theorem content_zeros {b : Buffer} {core : List UInt8} {k : Nat} (shape : b.data = core ++ List.replicate (k + 1) 0) :
    b.content = if b.readable then core ++ List.replicate k 0 else core ++ List.replicate (k + 1) 0 := by
  have last : b.data.getLast? = some 0 := by
    rw [shape, List.replicate_succ', ← List.append_assoc]
    simp
  have shorter : b.data.dropLast = core ++ List.replicate k 0 := by
    rw [shape, List.replicate_succ', ← List.append_assoc, List.dropLast_concat]
  rw [Buffer.content, last, shorter, shape]
  simp

theorem text_of_kept {b : Buffer} (kept : b.Kept) : b.text = escape b.content := by
  obtain ⟨core, k, shape, solid⟩ := split_zeros b.data
  have zeros : trailingZeros b.data = k := by rw [shape, trailingZeros_append solid]
  rw [Buffer.Kept, zeros] at kept
  split at kept
  · rename_i varlen
    exact text_whole (kept_whole shape solid (.inr ⟨varlen, kept.1⟩)) kept.2
  · rename_i fixed
    rcases kept with ⟨few, proper⟩ | ⟨readable, pair⟩
    · exact text_whole (kept_whole shape solid (.inl few)) proper
    · rw [text_fixed (by simpa using fixed), Buffer.content, Buffer.kept, pair]
      simp [fixed, readable, trimZeros, trimReversed, symc3serializeData]

theorem unescape_text_nul {b : Buffer} (whole : b.kept = b.data) (readable : b.readable = true) (nul : b.data = [0]) :
    unescape b.text ≠ b.content.map chr := by
  have text : b.text = escape [0] := by
    rw [Buffer.text, symc3serializeData, whole, nul]
    simp
  have content : b.content = [] := by
    rw [Buffer.content, nul]
    simp [readable]
  rw [text, content]
  decide

theorem unescape_text_length {b : Buffer} {core : List UInt8} {k : Nat}
    (shape : b.data = core ++ List.replicate k 0) (varlen : b.varlen = true) (many : 10 ≤ k)
    (cut : b.kept = core ++ [0]) : unescape b.text ≠ b.content.map chr := by
  obtain ⟨k, rfl⟩ : ∃ j, k = j + 2 := ⟨k - 2, by omega⟩
  obtain ⟨r, printed⟩ := symc3serializeData_escape b.kept b.readable
  have shown : b.text = escape r ++ '/' :: decimal b.data.length := by
    rw [Buffer.text, printed, if_pos]
    simp [varlen, shape, cut]
  obtain ⟨before, d, ends, nonzero⟩ := unescape_with_length r b.data.length
  have zero : ∃ front, b.content = front ++ [0] := by
    rw [content_zeros shape]
    split
    · exact ⟨core ++ List.replicate k 0, by rw [List.replicate_succ', List.append_assoc]⟩
    · exact ⟨core ++ List.replicate (k + 1) 0, by rw [List.replicate_succ', List.append_assoc]⟩
  obtain ⟨front, content⟩ := zero
  rw [shown, ends, content, List.map_append]
  intro same
  have last := (List.append_inj' same rfl).2
  exact nonzero (chr_injective (List.cons.inj last).1)

theorem unescape_text_fixed {b : Buffer} {core : List UInt8} {k : Nat}
    (shape : b.data = core ++ List.replicate (k + 2) 0) (fixed : b.varlen = false)
    (lost : ¬ (b.readable = true ∧ b.data = [0, 0])) (cut : b.kept = core ++ [0]) :
    unescape b.text ≠ b.content.map chr := by
  rw [text_fixed fixed, symc3serializeData, cut, content_zeros shape]
  by_cases readable : b.readable = true
  · cases core with
    | nil =>
      -- the NUL that is left is not taken for the final one
      cases k with
      | zero => exact absurd ⟨readable, by simpa using shape⟩ lost
      | succ k =>
        simp only [readable, if_true, List.nil_append]
        rw [if_neg (by simp), unescape_escape]
        exact decoded_ne_extended (r := [0]) (z := List.replicate (k + 1) 0) (by simp)
    | cons c core =>
      have last : (c :: core ++ [0]).getLast? = some 0 := List.getLast?_concat
      have final : (true && decide (1 < (c :: core ++ [0]).length) && decide ((c :: core ++ [0]).getLast? = some 0)) = true := by
        rw [last]
        simp
      simp only [readable, if_true]
      rw [if_pos final, List.dropLast_concat, unescape_escape]
      exact decoded_ne_extended (by simp)
  · have other : b.readable = false := by simpa using readable
    simp only [other, Bool.false_and, Bool.false_eq_true, if_false]
    rw [unescape_escape, List.replicate_succ, List.append_cons core 0 (List.replicate (k + 1) 0)]
    exact decoded_ne_extended (z := List.replicate (k + 1) 0) (by simp)

/-- A buffer that loses bytes is not read back, whatever the bytes are. -/
theorem unescape_text_ne {b : Buffer} (lost : ¬ b.Kept) : unescape b.text ≠ b.content.map chr := by
  obtain ⟨core, k, shape, solid⟩ := split_zeros b.data
  have zeros : trailingZeros b.data = k := by rw [shape, trailingZeros_append solid]
  rw [Buffer.Kept, zeros] at lost
  by_cases few : k ≤ 1 ∨ (b.varlen = true ∧ k ≤ 9)
  · have nul : b.readable = true ∧ b.data = [0] := by
      by_contra proper
      apply lost
      split
      · exact ⟨by omega, proper⟩
      · rename_i fixed
        exact .inl ⟨by simpa [fixed] using few, proper⟩
    exact unescape_text_nul (kept_whole shape solid few) nul.1 nul.2
  · have many : 2 ≤ k := by omega
    have cut := kept_cut shape solid many fun varlen => by
      by_contra small
      exact few (.inr ⟨varlen, by omega⟩)
    by_cases varlen : b.varlen = true
    · exact unescape_text_length shape varlen (by by_contra small; exact few (.inr ⟨varlen, by omega⟩)) cut
    · obtain ⟨k, rfl⟩ : ∃ j, k = j + 2 := ⟨k - 2, by omega⟩
      rw [if_neg varlen] at lost
      exact unescape_text_fixed shape (by simpa using varlen) (fun pair => lost (.inr pair)) cut

theorem unescape_text_iff (b : Buffer) : unescape b.text = b.content.map chr ↔ b.Kept ∧ Verbatim b.content := by
  by_cases kept : b.Kept
  · rw [text_of_kept kept, unescape_escape, decoded_eq_iff]
    simp [kept]
  · exact iff_of_false (unescape_text_ne kept) fun both => kept both.1

end DfsFuzz.Symsc
