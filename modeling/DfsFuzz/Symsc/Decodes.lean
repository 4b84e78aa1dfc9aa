import DfsFuzz.Symsc.RoundTrip

/-!
The program text handed to the emulator decodes to the program exactly when no input buffer holds
bytes that the printer cuts or the reader takes for something else.
-/

namespace DfsFuzz.Symsc

/-- What the token of an argument should mean to the emulator. -/
def TokenReads (st : Parsed) : SymArg → List Char → Prop
  | .const val, t => t = decimal val.toNat
  | .fdVal val, t => t = decimalInt val.toInt64.toInt
  | .fd j, t => t ≠ [] ∧ ∃ e, st.syscallStack[j]? = some e ∧ e.ret = t
  | .inData b, t => st.bufData.lookup t = some (b.content.map chr) ∧ st.bufSize.lookup t = some b.content.length
  | .outData size, t => st.bufSize.lookup t = some size.toNat

/-- The emulator has the program: one entry for each call, in order, with its name and tokens for
its arguments, and a variable of its own for each output buffer. -/
structure Decodes (p : SymProg) (st : Parsed) : Prop where
  entries : List.Forall₂ (fun c e => e.name = c.sysName ∧ List.Forall₂ (TokenReads st) c.args e.args)
    p.calls st.syscallStack
  outs : (outTokens p.calls (st.syscallStack.map Syscall.args)).Nodup

/-- The bytes of a buffer survive the printer and the line parser. -/
structure Buffer.Clean (b : Buffer) : Prop where
  kept : b.Kept
  verbatim : Verbatim b.content
  noSyscall : ¬ syscallWord <:+: b.content.map chr
  noMemcpy : ¬ memcpyWord <:+: b.content.map chr

theorem syscall_escape (r : List UInt8) : syscallWord <:+: escape r ↔ syscallWord <:+: r.map chr :=
  infix_escape (c := 's') (List.all_eq_true.mp (by decide)) (by decide) (by decide) r

theorem memcpy_escape (r : List UInt8) : memcpyWord <:+: escape r ↔ memcpyWord <:+: r.map chr :=
  infix_escape (c := 'm') (List.all_eq_true.mp (by decide)) (by decide) (by decide) r

/-! ### Lines of the printed text -/

theorem newline_escape (r : List UInt8) : '\n' ∉ escape r := by
  rw [escape, List.mem_flatMap]
  rintro ⟨b, _, member⟩
  have never : ∀ b : UInt8, '\n' ∉ escapeByte b := forall_byte (by decide +kernel)
  exact never b member

theorem newline_text (b : Buffer) : '\n' ∉ b.text := by
  obtain ⟨r, printed⟩ := symc3serializeData_escape b.kept b.readable
  rw [Buffer.text, printed, List.mem_append, not_or]
  refine ⟨newline_escape r, ?_⟩
  split
  · rw [List.mem_cons, not_or]
    exact ⟨by decide, not_mem_decimal (by decide)⟩
  · simp

theorem newline_line {d : VarDef} (free : ∀ id str, d = .text id str → '\n' ∉ str) : '\n' ∉ d.line := by
  have name (id : Nat) : '\n' ∉ varName id := not_mem_varName (by decide) (by decide)
  cases d with
  | out id size =>
    simp only [VarDef.line, List.mem_append, List.mem_cons, not_or]
    exact ⟨⟨name id, by decide, not_mem_decimal (by decide)⟩, by decide⟩
  | text id str =>
    rw [VarDef.line]
    split
    · rw [List.mem_append, not_or]
      exact ⟨name id, by decide⟩
    · simp only [List.mem_append, not_or]
      exact ⟨⟨⟨name id, by decide⟩, free id str rfl⟩, by decide⟩

theorem newline_row {r : Row} (plain : RowPlain r) : '\n' ∉ r.line := by
  simp only [Row.line, List.mem_append, not_or]
  exact ⟨⟨⟨not_mem_retText (by decide) (by decide), by decide⟩,
    not_mem_intercalate (by decide) fun t member => (plain t member).2.2⟩, by decide⟩

theorem plain_decimalInt (n : Int) {c : Char} (other : c.isDigit = false) (notMinus : c ≠ '-') : c ∉ decimalInt n := by
  rw [decimalInt]
  split
  · rw [List.mem_cons, not_or]
    exact ⟨notMinus, not_mem_decimal other⟩
  · exact not_mem_decimal other

theorem TokenFor.plain {defs : List VarDef} {rets : List (Option Nat)} {a : SymArg} {t : List Char}
    (token : TokenFor defs rets a t) {c : Char} (other : c.isDigit = false) (notV : c ≠ 'v') (notMinus : c ≠ '-') : c ∉ t := by
  cases a with
  | const val => exact token ▸ not_mem_decimal other
  | fdVal val => exact token ▸ plain_decimalInt _ other notMinus
  | fd j =>
    obtain ⟨id, _, rfl⟩ := token
    exact not_mem_varName other notV
  | inData b =>
    obtain ⟨id, _, rfl⟩ := token
    exact not_mem_varName other notV
  | outData size =>
    obtain ⟨id, _, rfl⟩ := token
    exact not_mem_varName other notV

theorem sysName_plain (call : SymCall) {c : Char} (letter : c.isAlphanum = false) (other : c ∉ "_$".toList) : c ∉ call.sysName := by
  rw [SymCall.sysName, List.mem_append, not_or]
  refine ⟨?_, fun member => ?_⟩
  · intro member
    have known : ∀ d ∈ "SYS_".toList, d.isAlphanum = true ∨ d = '_' := by simp
    rcases known c member with alpha | rfl
    · rw [alpha] at letter
      cases letter
    · exact other (by decide)
  · rcases call.name.ident c ((List.takeWhile_sublist _).subset member) with alpha | rfl | rfl
    · rw [alpha] at letter
      cases letter
    · exact other (by decide)
    · exact other (by decide)

theorem RowFor.plain {defs : List VarDef} {rets : List (Option Nat)} {c : SymCall} {r : Row}
    (row : RowFor defs rets c r) : RowPlain r := by
  intro t member
  rcases List.mem_cons.mp member with rfl | token
  · rw [row.name]
    exact ⟨sysName_plain c (by decide) (by decide), sysName_plain c (by decide) (by decide), sysName_plain c (by decide) (by decide)⟩
  · obtain ⟨a, known⟩ : ∃ a, TokenFor defs rets a t := by
      obtain ⟨a, pair⟩ : ∃ a, (a, t) ∈ c.args.zip r.toks := by
        have second : (c.args.zip r.toks).map Prod.snd = r.toks := List.map_snd_zip (Nat.le_of_eq row.tokens.length_eq.symm)
        rw [← second] at token
        obtain ⟨⟨a, t'⟩, pair, rfl⟩ := List.mem_map.mp token
        exact ⟨a, pair⟩
      exact ⟨a, (List.forall₂_iff_zip.mp row.tokens).2 pair⟩
    exact ⟨known.plain (by decide) (by decide) (by decide), known.plain (by decide) (by decide) (by decide),
      known.plain (by decide) (by decide) (by decide)⟩

theorem split_written {lines : List (List Char)} (free : ∀ l ∈ lines, '\n' ∉ l) (t : List Char) :
    Py.split ['\n'] (written lines ++ t) = lines ++ Py.split ['\n'] t := by
  induction lines with
  | nil => rfl
  | cons l lines ih =>
    have shape : written (l :: lines) ++ t = l ++ ('\n' :: [] ++ (written lines ++ t)) := by simp [written]
    rw [shape, Py.split_append (free l List.mem_cons_self), ih fun m member => free m (List.mem_cons_of_mem _ member)]
    rfl

section Program

variable {p : SymProg} {defs : List VarDef} {rows : List Row} (printed : Printed p.used p.calls defs rows p.serializer)

include printed

theorem rows_plain : ∀ r ∈ rows, RowPlain r := by
  intro r member
  have second : (p.calls.zip rows).map Prod.snd = rows := List.map_snd_zip (Nat.le_of_eq printed.rowFor.length_eq.symm)
  rw [← second] at member
  obtain ⟨⟨c, r'⟩, pair, rfl⟩ := List.mem_map.mp member
  exact ((List.forall₂_iff_zip.mp printed.rowFor).2 pair).plain

theorem parseProgram_printed :
    parseProgram p.serializeForSymc3 = parseLines (defs.map VarDef.line ++ (rows.map Row.line ++ [[], []])) {} := by
  have text : p.serializeForSymc3 = written (defs.map VarDef.line ++ rows.map Row.line) ++ ['\n'] := by
    rw [SymProg.serializeForSymc3, if_pos printed.tables.correct, printed.tables.vbuf, printed.text, written_append]
  have free : ∀ l ∈ defs.map VarDef.line ++ rows.map Row.line, '\n' ∉ l := by
    intro l member
    rcases List.mem_append.mp member with inDefs | inRows
    · obtain ⟨d, inside, rfl⟩ := List.mem_map.mp inDefs
      refine newline_line fun id str same => ?_
      obtain ⟨_, _, b, _, rfl⟩ := printed.texts id str (same ▸ inside)
      exact newline_text b
    · obtain ⟨r, inside, rfl⟩ := List.mem_map.mp inRows
      exact newline_row (rows_plain printed r inside)
  rw [parseProgram, text, split_written free, List.append_assoc]
  rfl

theorem parseProgram_quiet (quiet : ∀ d ∈ defs, d.mentions syscallWord = false) :
    parseProgram p.serializeForSymc3 =
      some { defs.foldl VarDef.read {} with syscallStack := rows.map Row.entry } := by
  rw [parseProgram_printed printed, parseLines_defs quiet, parseLines_rows (rows_plain printed), foldl_read_stack]
  rfl

theorem quiet_of_decodes {st : Parsed} (read : parseProgram p.serializeForSymc3 = some st) (decodes : Decodes p st) :
    ∀ d ∈ defs, d.mentions syscallWord = false := by
  intro d member
  rw [parseProgram_printed printed] at read
  obtain ⟨mid, count, later⟩ := parseLines_defs_count read
  rw [parseLines_rows (rows_plain printed)] at later
  have final : st.syscallStack = mid.syscallStack ++ rows.map Row.entry := by
    have same : some { mid with syscallStack := mid.syscallStack ++ rows.map Row.entry } = some st := later
    rw [← Option.some.inj same]
  have length := decodes.entries.length_eq
  have rowCount := printed.rowFor.length_eq
  rw [final, List.length_append, List.length_map, count] at length
  have none : (defs.filter (·.mentions syscallWord)).length = 0 := by
    have : ({} : Parsed).syscallStack.length = 0 := rfl
    omega
  have empty := List.length_eq_zero_iff.mp none
  rw [List.filter_eq_nil_iff] at empty
  simpa using empty d member

/-- The token of an input buffer in the rows, with the definition it names. -/
theorem inData_token {c : SymCall} (call : c ∈ p.calls) {b : Buffer} (buffer : SymArg.inData b ∈ c.args) :
    ∃ r t id, (c, r) ∈ p.calls.zip rows ∧ (SymArg.inData b, t) ∈ c.args.zip r.toks ∧
      VarDef.text id b.text ∈ defs ∧ t = varName id := by
  have first : (p.calls.zip rows).map Prod.fst = p.calls := List.map_fst_zip (Nat.le_of_eq printed.rowFor.length_eq)
  rw [← first] at call
  obtain ⟨⟨c', r⟩, pair, rfl⟩ := List.mem_map.mp call
  have row := (List.forall₂_iff_zip.mp printed.rowFor).2 pair
  have args : (c'.args.zip r.toks).map Prod.fst = c'.args := List.map_fst_zip (Nat.le_of_eq row.tokens.length_eq)
  have inside := buffer
  rw [← args] at inside
  obtain ⟨⟨a, t⟩, token, same⟩ := List.mem_map.mp inside
  have isBuffer : a = .inData b := same
  subst isBuffer
  obtain ⟨id, defined, name⟩ := (List.forall₂_iff_zip.mp row.tokens).2 token
  exact ⟨r, t, id, pair, token, defined, name⟩

end Program

/-- What the emulator reads for an input buffer of a program that decodes. -/
theorem inData_reads {p : SymProg} {st : Parsed} (decodes : Decodes p st) {rows : List Row}
    (stack : st.syscallStack = rows.map Row.entry) {c : SymCall} {r : Row} (pair : (c, r) ∈ p.calls.zip rows)
    {a : SymArg} {t : List Char} (token : (a, t) ∈ c.args.zip r.toks) : TokenReads st a t := by
  have entries := decodes.entries
  rw [stack, List.forall₂_map_right_iff] at entries
  have reads := ((List.forall₂_iff_zip.mp entries).2 pair).2
  exact (List.forall₂_iff_zip.mp reads).2 token

theorem decodes_clean {p : SymProg} {st : Parsed} (read : parseProgram p.serializeForSymc3 = some st)
    (decodes : Decodes p st) {c : SymCall} (call : c ∈ p.calls) {b : Buffer} (buffer : SymArg.inData b ∈ c.args) :
    b.Clean := by
  obtain ⟨defs, rows, printed⟩ := printed_serializer p
  have quiet := quiet_of_decodes printed read decodes
  rw [parseProgram_quiet printed quiet] at read
  have state := Option.some.inj read
  have stack : st.syscallStack = rows.map Row.entry := by rw [← state]
  have size : st.bufSize = (defs.foldl VarDef.read {}).bufSize := by rw [← state]
  have data : st.bufData = (defs.foldl VarDef.read {}).bufData := by rw [← state]
  -- a definition that is read as a copy leaves its variable without a size
  have plain : ∀ d ∈ defs, d.mentions memcpyWord = false := by
    intro d member
    cases d with
    | out id n => rfl
    | text id str =>
      obtain ⟨c', call', b', buffer', rfl⟩ := printed.texts id str member
      obtain ⟨r, t, id', pair, token, defined, rfl⟩ := inData_token printed call' buffer'
      have reads := (inData_reads decodes stack pair token).2
      have found := foldl_read_size printed.tables.nodup defined {}
      rw [size] at reads
      rw [VarDef.id, reads] at found
      cases copied : (VarDef.text id b'.text).mentions memcpyWord with
      | false => rfl
      | true =>
        have same : (VarDef.text id' b'.text).mentions memcpyWord = true := copied
        rw [same, if_pos rfl] at found
        cases found
  obtain ⟨r, t, id, pair, token, defined, rfl⟩ := inData_token printed call buffer
  have reads := (inData_reads decodes stack pair token).1
  have found := foldl_store_data printed.tables.nodup defined {}
  rw [data, foldl_read_plain plain] at reads
  rw [VarDef.id, reads] at found
  have back : unescape b.text = b.content.map chr := (Option.some.inj found).symm
  obtain ⟨kept, verbatim⟩ := (unescape_text_iff b).mp back
  have noWord {word : List Char} (absent : (VarDef.text id b.text).mentions word = false) : ¬ word <:+: escape b.content := by
    rw [← text_of_kept kept, ← Py.contains_iff]
    simpa [VarDef.mentions] using absent
  exact
    { kept := kept
      verbatim := verbatim
      noSyscall := by
        rw [← syscall_escape]
        exact noWord (quiet _ defined)
      noMemcpy := by
        rw [← memcpy_escape]
        exact noWord (plain _ defined) }

theorem clean_mentions {b : Buffer} (clean : b.Clean) (id : Nat) :
    (VarDef.text id b.text).mentions syscallWord = false ∧ (VarDef.text id b.text).mentions memcpyWord = false := by
  have text := text_of_kept clean.kept
  refine ⟨?_, ?_⟩
  · rw [VarDef.mentions, Bool.eq_false_iff, ne_eq, Py.contains_iff, text, syscall_escape]
    exact clean.noSyscall
  · rw [VarDef.mentions, Bool.eq_false_iff, ne_eq, Py.contains_iff, text, memcpy_escape]
    exact clean.noMemcpy

theorem entry_ret {p : SymProg} {defs : List VarDef} {rows : List Row}
    (printed : Printed p.used p.calls defs rows p.serializer) {j id : Nat}
    (known : (rows.map Row.ret)[j]? = some (some id)) :
    ∃ r, rows[j]? = some r ∧ r.entry.ret = varName id := by
  rw [List.getElem?_map, Option.map_eq_some_iff] at known
  obtain ⟨r, found, ret⟩ := known
  refine ⟨r, found, ?_⟩
  have used : p.used j = true := by rw [← printed.rets j r found, ret]; rfl
  obtain ⟨c, member, arg⟩ := List.any_eq_true.mp used
  obtain ⟨i, within, here⟩ := List.getElem_of_mem member
  obtain ⟨_, d, producer, returns⟩ := p.earlier i c (by rw [← here]; exact List.getElem?_eq_getElem within) j (by simpa using arg)
  have pair : (d, r) ∈ p.calls.zip rows := by
    refine List.mem_iff_getElem?.mpr ⟨j, ?_⟩
    rw [List.getElem?_zip_eq_some]
    exact ⟨producer, found⟩
  have name := ((List.forall₂_iff_zip.mp printed.rowFor).2 pair).name
  rw [Row.entry, name, returns, ret]
  rfl

theorem outNames_nodup {defs : List VarDef} (nodup : (defs.map VarDef.id).Nodup) : (defs.filterMap VarDef.outName).Nodup := by
  induction defs with
  | nil => exact List.nodup_nil
  | cons d defs ih =>
    rw [List.map_cons, List.nodup_cons] at nodup
    cases d with
    | text id str => exact ih nodup.2
    | out id size =>
      show (varName id :: defs.filterMap VarDef.outName).Nodup
      refine List.nodup_cons.mpr ⟨?_, ih nodup.2⟩
      intro member
      obtain ⟨e, inside, name⟩ := List.mem_filterMap.mp member
      cases e with
      | text _ _ => cases name
      | out id' size' =>
        have same := varName_injective (Option.some.inj name)
        exact nodup.1 (List.mem_map.mpr ⟨_, inside, same⟩)

theorem clean_decodes {p : SymProg} (clean : ∀ c ∈ p.calls, ∀ b, SymArg.inData b ∈ c.args → b.Clean) :
    ∃ st, parseProgram p.serializeForSymc3 = some st ∧ Decodes p st := by
  obtain ⟨defs, rows, printed⟩ := printed_serializer p
  have buffers : ∀ id str, VarDef.text id str ∈ defs → ∃ b : Buffer, b.Clean ∧ b.text = str := by
    intro id str member
    obtain ⟨c, call, b, buffer, same⟩ := printed.texts id str member
    exact ⟨b, clean c call b buffer, same⟩
  have quiet : ∀ d ∈ defs, d.mentions syscallWord = false ∧ d.mentions memcpyWord = false := by
    intro d member
    cases d with
    | out id size => exact ⟨rfl, rfl⟩
    | text id str =>
      obtain ⟨b, isClean, rfl⟩ := buffers id str member
      exact clean_mentions isClean id
  have plain := foldl_read_plain (fun d member => (quiet d member).2) ({} : Parsed)
  refine ⟨_, parseProgram_quiet printed fun d member => (quiet d member).1, ?_⟩
  have size {d : VarDef} (member : d ∈ defs) : (defs.foldl VarDef.read {}).bufSize.lookup (varName d.id) = some d.size := by
    rw [foldl_read_size printed.tables.nodup member, (quiet d member).2, if_neg (by simp)]
  have data {d : VarDef} (member : d ∈ defs) : (defs.foldl VarDef.read {}).bufData.lookup (varName d.id) = some d.value := by
    rw [plain, foldl_store_data printed.tables.nodup member]
  refine ⟨?_, ?_⟩
  · rw [List.forall₂_map_right_iff, List.forall₂_iff_zip]
    refine ⟨printed.rowFor.length_eq, fun {c r} pair => ?_⟩
    have row := (List.forall₂_iff_zip.mp printed.rowFor).2 pair
    refine ⟨row.name, ?_⟩
    show List.Forall₂ _ c.args r.toks
    rw [List.forall₂_iff_zip]
    refine ⟨row.tokens.length_eq, fun {a t} inside => ?_⟩
    have token := (List.forall₂_iff_zip.mp row.tokens).2 inside
    cases a with
    | const val => exact token
    | fdVal val => exact token
    | fd j =>
      obtain ⟨id, known, rfl⟩ := token
      obtain ⟨r', found, ret⟩ := entry_ret printed known
      refine ⟨by simp [varName], r'.entry, ?_, ret⟩
      rw [List.getElem?_map, found]
      rfl
    | outData n =>
      obtain ⟨id, defined, rfl⟩ := token
      exact size defined
    | inData b =>
      obtain ⟨id, defined, rfl⟩ := token
      have isClean := clean c (List.of_mem_zip pair).1 b (List.of_mem_zip inside).1
      have back := (unescape_text_iff b).mpr ⟨isClean.kept, isClean.verbatim⟩
      have found := data defined
      have length := size defined
      rw [VarDef.value, back] at found
      rw [VarDef.size, back, List.length_map] at length
      exact ⟨found, length⟩
  · have outs := printed.outs
    rw [List.map_map]
    show (outTokens p.calls (rows.map Row.toks)).Nodup
    rw [outs]
    exact outNames_nodup printed.tables.nodup

/-- The text of a program decodes to it exactly when every input buffer is clean. -/
theorem serializeForSymc3_decodes_iff (p : SymProg) :
    (∃ st, parseProgram p.serializeForSymc3 = some st ∧ Decodes p st) ↔
      ∀ c ∈ p.calls, ∀ b, SymArg.inData b ∈ c.args → b.Clean := by
  constructor
  · rintro ⟨st, read, decodes⟩ c call b buffer
    exact decodes_clean read decodes call buffer
  · exact clean_decodes

def sampleOpen : SymCall :=
  ⟨⟨"open".toList, by simp⟩, [.inData ⟨.filename, true, [0x2e, 0x2f, 0x61, 0]⟩, .const 66, .const 511]⟩

def sampleWrite (data : List UInt8) : SymCall :=
  ⟨⟨"write".toList, by simp⟩, [.fd 0, .inData ⟨.blobRand, true, data⟩, .const 3]⟩

/-- `open("./a")`, then a write of the given bytes. -/
def writeProg (data : List UInt8) : SymProg where
  calls := [sampleOpen, sampleWrite data]
  nonempty := by simp [sampleOpen, sampleWrite]
  earlier := by
    intro i c found j member
    rcases i with _ | _ | i
    · obtain rfl := Option.some.inj found
      simp [sampleOpen] at member
    · obtain rfl := Option.some.inj found
      have first : j = 0 := by simpa [sampleWrite] using member
      subst first
      exact ⟨by omega, sampleOpen, rfl, by decide⟩
    · cases found

/-- Three printable bytes, a backslash and an `n` among them, come back as two. -/
theorem writeProg_backslash :
    ¬ ∃ st, parseProgram (writeProg [0x61, 0x5c, 0x6e]).serializeForSymc3 = some st ∧
      Decodes (writeProg [0x61, 0x5c, 0x6e]) st := by
  rintro ⟨st, read, decodes⟩
  have second : sampleWrite [0x61, 0x5c, 0x6e] ∈ (writeProg [0x61, 0x5c, 0x6e]).calls := by simp [writeProg]
  have buffer : SymArg.inData ⟨.blobRand, true, [0x61, 0x5c, 0x6e]⟩ ∈ (sampleWrite [0x61, 0x5c, 0x6e]).args := by
    simp [sampleWrite]
  have clean := decodes_clean read decodes second buffer
  exact absurd clean.verbatim (by decide)

end DfsFuzz.Symsc
