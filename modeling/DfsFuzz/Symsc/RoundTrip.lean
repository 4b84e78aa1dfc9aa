import DfsFuzz.Symsc.Printed

/-!
Reading a printed program: what `parse_wrapper` makes of the line of a definition and of the line
of a call, and from these of the whole text.
-/

namespace DfsFuzz.Symsc

variable {c : Char}

theorem takeWhile_decimal (n : Nat) (other : c.isDigit = false) (t : List Char) :
    (decimal n ++ c :: t).takeWhile Char.isDigit = decimal n := by
  rw [List.takeWhile_append_of_pos fun d member => decimal_isDigit member, List.takeWhile_cons_of_neg (by simp [other]),
    List.append_nil]

theorem dropWhile_decimal (n : Nat) (other : c.isDigit = false) (t : List Char) :
    (decimal n ++ c :: t).dropWhile Char.isDigit = c :: t := by
  rw [List.dropWhile_append_of_pos fun d member => decimal_isDigit member, List.dropWhile_cons_of_neg (by simp [other])]

theorem decimal_ne_nil (n : Nat) : decimal n ≠ [] := Nat.toDigits_ne_nil

theorem not_mem_decimal {n : Nat} (other : c.isDigit = false) : c ∉ decimal n := by
  intro member
  rw [decimal_isDigit member] at other
  cases other

theorem not_mem_varName {id : Nat} (other : c.isDigit = false) (notV : c ≠ 'v') : c ∉ varName id := by
  rw [varName, List.mem_cons]
  rintro (same | member)
  · exact notV same
  · exact not_mem_decimal other member

theorem varName_injective {i j : Nat} (same : varName i = varName j) : i = j := by
  have digits : decimal i = decimal j := (List.cons.inj same).2
  rw [← Nat.ofDigitChars_ten_toDigits (n := i), ← Nat.ofDigitChars_ten_toDigits (n := j)]
  exact congrArg (fun t => Nat.ofDigitChars 10 t 0) digits

theorem beforeLast_append {t : List Char} (free : c ∉ t) (s : List Char) : beforeLast c (s ++ c :: t) = some s := by
  have dropped : (s ++ c :: t).reverse.dropWhile (fun d => decide (d ≠ c)) = c :: s.reverse := by
    rw [List.reverse_append, List.reverse_cons, List.append_assoc, List.dropWhile_append_of_pos]
    · rw [List.singleton_append, List.dropWhile_cons_of_neg (by simp)]
    · intro d member
      have : d ≠ c := fun same => free (by simpa [same] using member)
      simpa using this
  rw [beforeLast, dropped]
  exact congrArg some (List.reverse_reverse s)

theorem between_append {o : Char} {s t : List Char} (first : o ∉ s) (last : c ∉ t) (inner : List Char) :
    between o c (s ++ o :: (inner ++ c :: t)) = some inner := by
  have dropped : (s ++ o :: (inner ++ c :: t)).dropWhile (fun d => decide (d ≠ o)) = o :: (inner ++ c :: t) := by
    rw [List.dropWhile_append_of_pos, List.dropWhile_cons_of_neg (by simp)]
    intro d member
    have : d ≠ o := fun same => first (same ▸ member)
    simpa using this
  rw [between, dropped]
  exact beforeLast_append last inner

/-! ### The line of a definition -/

/-- The text of a definition holds a word that changes how its line is read. -/
def VarDef.mentions (d : VarDef) (word : List Char) : Bool :=
  match d with
  | .out _ _ => false
  | .text _ str => Py.contains word str

def VarDef.size : VarDef → Nat
  | .out _ size => size
  | .text _ str => (unescape str).length

def VarDef.value : VarDef → List Char
  | .out _ size => List.replicate size (Char.ofNat 0)
  | .text _ str => unescape str

/-- The definition is entered in both tables. -/
def VarDef.store (st : Parsed) (d : VarDef) : Parsed :=
  { st with bufSize := st.bufSize.insert (varName d.id) d.size
            bufData := st.bufData.insert (varName d.id) d.value }

theorem matchVarDef_varName (id : Nat) (size : List Char) (digits : ∀ c ∈ size, c.isDigit = true) (t : List Char) :
    matchVarDef (varName id ++ '[' :: (size ++ ']' :: t)) = some (varName id, size, quotedData t) := by
  have taken := takeWhile_decimal id (c := '[') (by decide) (size ++ ']' :: t)
  have dropped := dropWhile_decimal id (c := '[') (by decide) (size ++ ']' :: t)
  have sizeTaken : (size ++ ']' :: t).takeWhile Char.isDigit = size := by
    rw [List.takeWhile_append_of_pos digits, List.takeWhile_cons_of_neg (by decide), List.append_nil]
  have sizeDropped : (size ++ ']' :: t).dropWhile Char.isDigit = ']' :: t := by
    rw [List.dropWhile_append_of_pos digits, List.dropWhile_cons_of_neg (by decide)]
  rw [varName, List.cons_append, matchVarDef, taken, dropped, if_neg (decimal_ne_nil id)]
  simp only [sizeTaken, sizeDropped]

theorem quotedData_text (str : List Char) : quotedData (" = \"".toList ++ str ++ "\";".toList) = some str := by
  show beforeLast '"' (str ++ '"' :: [';']) = some str
  exact beforeLast_append (by decide) str

theorem quotedData_end : quotedData [';'] = none := by decide

theorem findSome?_tails {β : Type} {f : List Char → Option β} {s : List Char} {b : β} (here : f s = some b) :
    s.tails.findSome? f = some b := by
  cases s with
  | nil => simp [here]
  | cons c s => simp [List.tails, here]

theorem parseVarDef_line (d : VarDef) (st : Parsed) : parseVarDef d.line st = some (d.store st) := by
  cases d with
  | out id size =>
    have found : matchVarDef (VarDef.out id size).line = some (varName id, decimal size, none) := by
      have matched := matchVarDef_varName id (decimal size) (fun c member => decimal_isDigit member) [';']
      simpa [VarDef.line, quotedData_end] using matched
    have number : Nat.ofDigitChars 10 (decimal size) 0 = size := Nat.ofDigitChars_ten_toDigits
    rw [parseVarDef, findSome?_tails found]
    simp only [if_neg (decimal_ne_nil size), number]
    rfl
  | text id str =>
    by_cases empty : str = []
    · have found : matchVarDef (VarDef.text id str).line = some (varName id, ['0'], none) := by
        have matched := matchVarDef_varName id ['0'] (List.all_eq_true.mp (by decide)) [';']
        simpa [VarDef.line, empty, quotedData_end] using matched
      rw [parseVarDef, findSome?_tails found, empty]
      rfl
    · have found : matchVarDef (VarDef.text id str).line = some (varName id, [], some str) := by
        have matched := matchVarDef_varName id [] (by simp) (" = \"".toList ++ str ++ "\";".toList)
        rw [quotedData_text] at matched
        simpa [VarDef.line, empty] using matched
      rw [parseVarDef, findSome?_tails found]
      rfl

theorem line_text {id : Nat} {str : List Char} (some : str ≠ []) :
    (VarDef.text id str).line = (varName id ++ "[] = ".toList) ++ '"' :: (str ++ '"' :: [';']) := by
  simp [VarDef.line, some]

theorem line_empty (id : Nat) : (VarDef.text id []).line = varName id ++ "[0];".toList := by
  simp [VarDef.line]

/-- The characters of a definition outside its digits and its text. -/
def defChars : List Char := "v[]0 = ;".toList

/-- A word with a letter that no definition prints of its own is found in the text only. -/
theorem contains_line {word : List Char} (letter : c ∈ word) (notDigit : c.isDigit = false) (other : c ∉ defChars)
    (unquoted : '"' ∉ word) (d : VarDef) : Py.contains word d.line = d.mentions word := by
  have absent {t : List Char} (part : t ⊆ defChars) : c ∉ t := fun member => other (part member)
  have name (id : Nat) : c ∉ varName id := not_mem_varName notDigit fun same => other (by rw [same]; decide)
  cases d with
  | out id size =>
    refine Py.not_contains_of_free letter ?_
    simp only [VarDef.line, List.mem_append, List.mem_cons, not_or]
    exact ⟨⟨name id, fun same => other (by rw [same]; decide), not_mem_decimal notDigit⟩, absent (by decide)⟩
  | text id str =>
    by_cases empty : str = []
    · subst empty
      have nothing : Py.contains word [] = false := Py.not_contains_of_free letter (by simp)
      rw [line_empty, VarDef.mentions, nothing]
      refine Py.not_contains_of_free letter ?_
      rw [List.mem_append, not_or]
      exact ⟨name id, absent (by decide)⟩
    · rw [line_text empty, VarDef.mentions]
      have front : ¬ word <:+: varName id ++ "[] = ".toList := by
        intro found
        rcases List.mem_append.mp (found.subset letter) with named | framed
        · exact name id named
        · exact absent (by decide) framed
      have back : ¬ word <:+: [';'] := fun found => absent (by decide) (found.subset letter)
      refine Bool.eq_iff_iff.mpr ?_
      rw [Py.contains_iff, Py.contains_iff, Py.infix_around unquoted, Py.infix_around unquoted]
      tauto

theorem mentions_syscall (d : VarDef) : Py.contains syscallWord d.line = d.mentions syscallWord :=
  contains_line (c := 's') (by decide) (by decide) (by decide) (by decide) d

theorem mentions_memcpy (d : VarDef) : Py.contains memcpyWord d.line = d.mentions memcpyWord :=
  contains_line (c := 'm') (by decide) (by decide) (by decide) (by decide) d

theorem strip_ends {s : List Char} {d : Char} (first : Py.isSpace c = false) (last : Py.isSpace d = false) :
    Py.strip (c :: s ++ [d]) = c :: s ++ [d] := by
  refine Py.strip_eq ?_ ?_
  · intro e head
    have same : c = e := by simpa using head
    exact same ▸ first
  · intro e final
    rw [List.getLast?_concat] at final
    exact Option.some.inj final ▸ last

theorem strip_line (d : VarDef) : Py.strip d.line = d.line := by
  have shape : ∃ s, d.line = 'v' :: s ++ [';'] := by
    cases d with
    | out id size => exact ⟨decimal id ++ '[' :: (decimal size ++ [']']), by simp [VarDef.line, varName]⟩
    | text id str =>
      by_cases empty : str = []
      · subst empty
        exact ⟨decimal id ++ ['[', '0', ']'], by simp [VarDef.line, varName]⟩
      · exact ⟨decimal id ++ "[] = \"".toList ++ str ++ ['"'], by simp [VarDef.line, varName, empty]⟩
  obtain ⟨s, whole⟩ := shape
  rw [whole]
  exact strip_ends (by decide) (by decide)

theorem line_ends (d : VarDef) : [';'] <:+ d.line ∧ '[' ∈ d.line ∧ ']' ∈ d.line := by
  cases d with
  | out id size => exact ⟨⟨varName id ++ '[' :: (decimal size ++ [']']), by simp [VarDef.line]⟩, by simp [VarDef.line], by simp [VarDef.line]⟩
  | text id str =>
    by_cases empty : str = []
    · subst empty
      exact ⟨⟨varName id ++ ['[', '0', ']'], by simp [VarDef.line]⟩, by simp [VarDef.line], by simp [VarDef.line]⟩
    · exact ⟨⟨varName id ++ "[] = \"".toList ++ str ++ ['"'], by simp [VarDef.line, empty]⟩, by simp [VarDef.line, empty], by simp [VarDef.line, empty]⟩

/-- How a definition is read where its text does not mention a call. -/
def VarDef.read (st : Parsed) (d : VarDef) : Parsed :=
  if d.mentions memcpyWord then parseMemcpy d.line st else d.store st

variable {d : VarDef}

theorem parseWrapper_def (quiet : d.mentions syscallWord = false) (st : Parsed) :
    parseWrapper d.line st = some (d.read st) := by
  obtain ⟨ends, opening, closing⟩ := line_ends d
  rw [parseWrapper, strip_line, mentions_syscall, quiet, mentions_memcpy, if_neg (by simp), if_pos ends, VarDef.read]
  cases copied : d.mentions memcpyWord with
  | true => rw [if_neg (by simp), if_pos rfl, if_pos rfl]
  | false =>
    simp only [parseVarDef_line, Bool.false_eq_true, if_false, opening, closing, and_self, if_true]
    split <;> rfl

theorem parseWrapper_def_syscall (loud : d.mentions syscallWord = true) (st : Parsed) :
    parseWrapper d.line st = parseCall d.line st := by
  rw [parseWrapper, strip_line, mentions_syscall, loud, if_pos rfl]

theorem parseCall_grows {line : List Char} {st st' : Parsed} (read : parseCall line st = some st') :
    st'.syscallStack.length = st.syscallStack.length + 1 := by
  rw [parseCall] at read
  split at read
  · rw [← Option.some.inj read]
    simp
  · cases read

theorem parseMemcpy_frame (line : List Char) (st : Parsed) :
    (parseMemcpy line st).syscallStack = st.syscallStack ∧ (parseMemcpy line st).bufSize = st.bufSize := by
  unfold parseMemcpy
  split
  · exact ⟨rfl, rfl⟩
  · dsimp only
    split
    · exact ⟨rfl, rfl⟩
    · split <;> exact ⟨rfl, rfl⟩

theorem read_frame (d : VarDef) (st : Parsed) : (d.read st).syscallStack = st.syscallStack := by
  rw [VarDef.read]
  split
  · exact (parseMemcpy_frame _ _).1
  · rfl

/-! ### The definitions -/

theorem parseLines_cons {l : List Char} (visible : Py.strip l ≠ []) (rest : List (List Char)) (st : Parsed) :
    parseLines (l :: rest) st = (parseWrapper l st).bind (parseLines rest) := by
  rw [parseLines, if_neg (by simpa using visible)]
  cases parseWrapper l st <;> rfl

theorem line_visible (d : VarDef) : Py.strip d.line ≠ [] := by
  rw [strip_line]
  intro empty
  have opening := (line_ends d).2.1
  rw [empty] at opening
  cases opening

variable {defs : List VarDef}

theorem parseLines_defs (quiet : ∀ d ∈ defs, d.mentions syscallWord = false) (rest : List (List Char)) (st : Parsed) :
    parseLines (defs.map VarDef.line ++ rest) st = parseLines rest (defs.foldl VarDef.read st) := by
  induction defs generalizing st with
  | nil => rfl
  | cons d defs ih =>
    rw [List.map_cons, List.cons_append, parseLines_cons (line_visible d),
      parseWrapper_def (quiet d List.mem_cons_self), Option.bind_some,
      ih fun e member => quiet e (List.mem_cons_of_mem _ member)]
    rfl

theorem parseLines_defs_count {rest : List (List Char)} {st st' : Parsed}
    (read : parseLines (defs.map VarDef.line ++ rest) st = some st') :
    ∃ mid, mid.syscallStack.length = st.syscallStack.length + (defs.filter (·.mentions syscallWord)).length ∧
      parseLines rest mid = some st' := by
  induction defs generalizing st with
  | nil => exact ⟨st, by simp, read⟩
  | cons d defs ih =>
    rw [List.map_cons, List.cons_append, parseLines_cons (line_visible d)] at read
    cases loud : d.mentions syscallWord with
    | true =>
      rw [parseWrapper_def_syscall loud] at read
      obtain ⟨st₁, call, later⟩ := Option.bind_eq_some_iff.mp read
      obtain ⟨mid, count, final⟩ := ih later
      refine ⟨mid, ?_, final⟩
      rw [count, parseCall_grows call, List.filter_cons_of_pos (by exact loud), List.length_cons]
      omega
    | false =>
      rw [parseWrapper_def loud, Option.bind_some] at read
      obtain ⟨mid, count, final⟩ := ih read
      refine ⟨mid, ?_, final⟩
      rw [count, read_frame, List.filter_cons_of_neg (by simp [loud])]

theorem foldl_read_stack (defs : List VarDef) (st : Parsed) : (defs.foldl VarDef.read st).syscallStack = st.syscallStack := by
  induction defs generalizing st with
  | nil => rfl
  | cons d defs ih => exact (ih (d.read st)).trans (read_frame d st)

theorem read_size_other {i : Nat} (other : i ≠ d.id) (st : Parsed) :
    (d.read st).bufSize.lookup (varName i) = st.bufSize.lookup (varName i) := by
  rw [VarDef.read]
  split
  · rw [(parseMemcpy_frame _ _).2]
  · exact AList.lookup_insert_ne fun same => other (varName_injective same)

theorem foldl_read_size_other {i : Nat} (absent : i ∉ defs.map VarDef.id) (st : Parsed) :
    (defs.foldl VarDef.read st).bufSize.lookup (varName i) = st.bufSize.lookup (varName i) := by
  induction defs generalizing st with
  | nil => rfl
  | cons d defs ih =>
    rw [List.map_cons, List.mem_cons, not_or] at absent
    exact (ih absent.2 (d.read st)).trans (read_size_other absent.1 st)

/-- A buffer whose text mentions `memcpy` never gets a size. -/
theorem foldl_read_size (nodup : (defs.map VarDef.id).Nodup) (member : d ∈ defs) (st : Parsed) :
    (defs.foldl VarDef.read st).bufSize.lookup (varName d.id) =
      if d.mentions memcpyWord then st.bufSize.lookup (varName d.id) else some d.size := by
  induction defs generalizing st with
  | nil => cases member
  | cons e defs ih =>
    rw [List.map_cons, List.nodup_cons] at nodup
    rw [List.foldl_cons]
    rcases List.mem_cons.mp member with rfl | later
    · rw [foldl_read_size_other nodup.1, VarDef.read]
      split
      · rw [(parseMemcpy_frame _ _).2]
      · exact AList.lookup_insert _
    · have other : d.id ≠ e.id := fun same => nodup.1 (same ▸ List.mem_map_of_mem later)
      rw [ih nodup.2 later, read_size_other other]

theorem foldl_store_data_other {i : Nat} (absent : i ∉ defs.map VarDef.id) (st : Parsed) :
    (defs.foldl VarDef.store st).bufData.lookup (varName i) = st.bufData.lookup (varName i) := by
  induction defs generalizing st with
  | nil => rfl
  | cons d defs ih =>
    rw [List.map_cons, List.mem_cons, not_or] at absent
    refine (ih absent.2 (d.store st)).trans ?_
    exact AList.lookup_insert_ne fun same => absent.1 (varName_injective same)

theorem foldl_store_data (nodup : (defs.map VarDef.id).Nodup) (member : d ∈ defs) (st : Parsed) :
    (defs.foldl VarDef.store st).bufData.lookup (varName d.id) = some d.value := by
  induction defs generalizing st with
  | nil => cases member
  | cons e defs ih =>
    rw [List.map_cons, List.nodup_cons] at nodup
    rw [List.foldl_cons]
    rcases List.mem_cons.mp member with rfl | later
    · rw [foldl_store_data_other nodup.1]
      exact AList.lookup_insert _
    · exact ih nodup.2 later _

theorem foldl_read_plain (plain : ∀ d ∈ defs, d.mentions memcpyWord = false) (st : Parsed) :
    defs.foldl VarDef.read st = defs.foldl VarDef.store st := by
  induction defs generalizing st with
  | nil => rfl
  | cons d defs ih =>
    have first : d.read st = d.store st := by
      rw [VarDef.read, plain d List.mem_cons_self, if_neg (by simp)]
    rw [List.foldl_cons, List.foldl_cons, first, ih fun e member => plain e (List.mem_cons_of_mem _ member)]

/-! ### The calls -/

/-- The characters of the tokens and of the name of a row keep out of its frame. -/
def RowPlain (r : Row) : Prop := ∀ t ∈ r.name :: r.toks, ',' ∉ t ∧ '=' ∉ t ∧ '\n' ∉ t

def Row.entry (r : Row) : Syscall :=
  ⟨r.name, r.toks, if fdCalls.contains r.name then (r.ret.map varName).getD [] else []⟩

theorem not_mem_retText {r : Row} (other : c.isDigit = false) (frame : c ∉ "v = ".toList) : c ∉ r.retText := by
  rw [Row.retText]
  cases r.ret with
  | none => simp
  | some id =>
    rw [Option.map_some, Option.getD_some, List.mem_append, not_or]
    exact ⟨not_mem_varName other fun same => frame (by rw [same]; decide), fun member => frame (by
      have part : " = ".toList ⊆ "v = ".toList := by decide
      exact part member)⟩

theorem not_mem_intercalate {pieces : List (List Char)} (separate : c ∉ [',', ' ']) (free : ∀ t ∈ pieces, c ∉ t) :
    c ∉ [',', ' '].intercalate pieces := by
  cases pieces with
  | nil => simp
  | cons t pieces =>
    rw [intercalate_cons_eq, List.mem_append, not_or]
    refine ⟨free t List.mem_cons_self, ?_⟩
    intro member
    obtain ⟨u, inside, at_⟩ := List.mem_flatMap.mp member
    rcases List.mem_append.mp at_ with sep | piece
    · exact separate sep
    · exact free u (List.mem_cons_of_mem _ inside) piece

theorem syscallRet_row {r : Row} (plain : RowPlain r) :
    syscallRet r.name r.line = if fdCalls.contains r.name then (r.ret.map varName).getD [] else [] := by
  rw [syscallRet]
  refine if_congr Iff.rfl ?_ rfl
  cases ret : r.ret with
  | none =>
    have text : r.retText = [] := by rw [Row.retText, ret]; rfl
    have free : '=' ∉ r.line := by
      have inner := not_mem_intercalate (c := '=') (by decide) fun t member => (plain t member).2.1
      rw [Row.line, text]
      simp only [List.mem_append, not_or]
      exact ⟨⟨⟨by decide, by decide⟩, inner⟩, by decide⟩
    rw [Py.split_free (d := '=') (by decide) free]
    rfl
  | some id =>
    have text : r.retText = varName id ++ " = ".toList := by rw [Row.retText, ret]; rfl
    have shape : r.line = varName id ++ (' ' :: ['=', ' '] ++
        ("syscall(".toList ++ [',', ' '].intercalate (r.name :: r.toks) ++ ");".toList)) := by
      rw [Row.line, text]
      simp
    rw [shape, Py.split_append (not_mem_varName (by decide) (by decide))]
    obtain ⟨second, rest, more⟩ := List.exists_cons_of_ne_nil (Py.splitFrom_ne_nil [' ', '=', ' '] 0
      ("syscall(".toList ++ [',', ' '].intercalate (r.name :: r.toks) ++ ");".toList))
    rw [Py.split, more]
    rfl

theorem parseCall_row {r : Row} (plain : RowPlain r) (st : Parsed) :
    parseCall r.line st = some { st with syscallStack := st.syscallStack ++ [r.entry] } := by
  have shape : r.line = (r.retText ++ "syscall".toList) ++ '(' :: ([',', ' '].intercalate (r.name :: r.toks) ++ ')' :: [';']) := by
    simp [Row.line]
  have opening : '(' ∉ r.retText ++ "syscall".toList := by
    rw [List.mem_append, not_or]
    exact ⟨not_mem_retText (by decide) (by decide), by decide⟩
  have pieces : (between '(' ')' r.line).map (Py.split [',', ' ']) = some (r.name :: r.toks) := by
    rw [shape, between_append opening (by decide), Option.map_some,
      Py.split_intercalate (by simp) fun t member => (plain t member).1]
  rw [parseCall, pieces, Row.entry, ← syscallRet_row plain]

theorem parseWrapper_row {r : Row} (plain : RowPlain r) (st : Parsed) :
    Py.strip r.line ≠ [] ∧ parseWrapper r.line st = some { st with syscallStack := st.syscallStack ++ [r.entry] } := by
  have called : Py.contains syscallWord r.line = true := by
    rw [Py.contains_iff, Row.line]
    exact ⟨r.retText, '(' :: ([',', ' '].intercalate (r.name :: r.toks) ++ ");".toList), by simp [syscallWord]⟩
  have stripped : Py.strip r.line = r.line := by
    have shape : ∃ c s, r.line = c :: s ++ [';'] ∧ Py.isSpace c = false := by
      rw [Row.line, Row.retText]
      cases r.ret with
      | none => exact ⟨'s', "yscall(".toList ++ [',', ' '].intercalate (r.name :: r.toks) ++ [')'], by simp, by decide⟩
      | some id =>
        exact ⟨'v', decimal id ++ " = syscall(".toList ++ [',', ' '].intercalate (r.name :: r.toks) ++ [')'],
          by simp [varName], by decide⟩
    obtain ⟨c, s, whole, first⟩ := shape
    rw [whole]
    exact strip_ends first (by decide)
  refine ⟨?_, ?_⟩
  · rw [stripped]
    intro empty
    rw [empty] at called
    exact absurd called (by decide)
  · rw [parseWrapper, stripped, if_pos called]
    exact parseCall_row plain st

theorem parseLines_rows {rows : List Row} (plain : ∀ r ∈ rows, RowPlain r) (rest : List (List Char)) (st : Parsed) :
    parseLines (rows.map Row.line ++ rest) st =
      parseLines rest { st with syscallStack := st.syscallStack ++ rows.map Row.entry } := by
  induction rows generalizing st with
  | nil => simp
  | cons r rows ih =>
    obtain ⟨visible, read⟩ := parseWrapper_row (plain r List.mem_cons_self) st
    rw [List.map_cons, List.cons_append, parseLines_cons visible, read, Option.bind_some,
      ih fun s member => plain s (List.mem_cons_of_mem _ member)]
    simp

end DfsFuzz.Symsc
