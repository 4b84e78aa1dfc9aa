import DfsFuzz.Symsc.Symc3

/-!
What the printer leaves behind: the definitions of the variables and one row for each call, in
order, with tokens that name what the arguments stand for.
-/

namespace DfsFuzz.Symsc

inductive VarDef where
  | out (id size : Nat)
  | text (id : Nat) (str : List Char)
deriving DecidableEq

namespace VarDef

def id : VarDef → Nat
  | .out id _ => id
  | .text id _ => id

def line : VarDef → List Char
  | .out id size => varName id ++ '[' :: decimal size ++ "];".toList
  | .text id str => if str = [] then varName id ++ "[0];".toList else varName id ++ "[] = \"".toList ++ str ++ "\";".toList

def outName : VarDef → Option (List Char)
  | .out id _ => some (varName id)
  | .text _ _ => none

end VarDef

structure Row where
  ret : Option Nat
  name : List Char
  toks : List (List Char)

def Row.retText (r : Row) : List Char := (r.ret.map fun id => varName id ++ " = ".toList).getD []

def Row.line (r : Row) : List Char :=
  r.retText ++ "syscall(".toList ++ [',', ' '].intercalate (r.name :: r.toks) ++ ");".toList

def written (lines : List (List Char)) : List Char := lines.flatMap (· ++ ['\n'])

def outToken (a : SymArg × List Char) : Option (List Char) :=
  match a.1 with
  | .outData _ => some a.2
  | _ => none

/-- What the token of an argument is, for the definitions and the result variables so far. -/
def TokenFor (defs : List VarDef) (rets : List (Option Nat)) : SymArg → List Char → Prop
  | .const val, t => t = decimal val.toNat
  | .fdVal val, t => t = decimalInt val.toInt64.toInt
  | .fd j, t => ∃ id, rets[j]? = some (some id) ∧ t = varName id
  | .inData b, t => ∃ id, VarDef.text id b.text ∈ defs ∧ t = varName id
  | .outData size, t => ∃ id, VarDef.out id size.toNat ∈ defs ∧ t = varName id

theorem TokenFor.mono {defs defs' : List VarDef} {rets rets' : List (Option Nat)} {a : SymArg} {t : List Char}
    (token : TokenFor defs rets a t) : TokenFor (defs ++ defs') (rets ++ rets') a t := by
  cases a with
  | const val => exact token
  | fdVal val => exact token
  | fd j =>
    obtain ⟨id, found, rfl⟩ := token
    refine ⟨id, ?_, rfl⟩
    rw [List.getElem?_append_left (List.getElem?_eq_some_iff.mp found).1, found]
  | inData b =>
    obtain ⟨id, member, rfl⟩ := token
    exact ⟨id, List.mem_append_left _ member, rfl⟩
  | outData size =>
    obtain ⟨id, member, rfl⟩ := token
    exact ⟨id, List.mem_append_left _ member, rfl⟩

/-- The definitions written so far, and the table of the strings that have a variable. -/
structure Tables (defs : List VarDef) (ctx : Serializer) : Prop where
  vbuf : ctx.vbuf = written (defs.map VarDef.line)
  nodup : (defs.map VarDef.id).Nodup
  below : ∀ d ∈ defs, d.id < ctx.varSeq
  known : ∀ str id, ctx.varMap.lookup str = some id → VarDef.text id str ∈ defs
  correct : ctx.correct = true

structure Prints (defs : List VarDef) (rets : List (Option Nat)) (ctx : Serializer) (args : List SymArg)
    (toks : List (List Char)) (added : List VarDef) (ctx' : Serializer) : Prop where
  tables : Tables (defs ++ added) ctx'
  vars : ctx'.vars = ctx.vars
  tokens : List.Forall₂ (TokenFor (defs ++ added) rets) args toks
  outs : (args.zip toks).filterMap outToken = added.filterMap VarDef.outName
  texts : ∀ id str, VarDef.text id str ∈ added → ∃ b, SymArg.inData b ∈ args ∧ b.text = str

/-- The result variables that the printer knows. -/
def KnowsResults (rets : List (Option Nat)) (ctx : Serializer) : Prop := ∀ j, ctx.vars.lookup j = (rets[j]?).join

theorem written_append (a b : List (List Char)) : written (a ++ b) = written a ++ written b := by
  simp [written]

theorem written_singleton (l : List Char) : written [l] = l ++ ['\n'] := by
  simp [written]

section Arg

variable {defs : List VarDef} {rets : List (Option Nat)} {ctx : Serializer} (tables : Tables defs ctx)

include tables

theorem Tables.define (d : VarDef) (fresh : d.id = ctx.varSeq) :
    Tables (defs ++ [d]) (ctx.alloc.vprintf (d.line ++ ['\n'])) where
  vbuf := by
    rw [List.map_append, written_append, ← tables.vbuf, List.map_singleton, written_singleton]
    rfl
  nodup := by
    rw [List.map_append, List.map_singleton, List.nodup_append]
    refine ⟨tables.nodup, List.nodup_singleton _, ?_⟩
    rintro i member j single rfl
    obtain ⟨e, inside, rfl⟩ := List.mem_map.mp member
    have := tables.below e inside
    rw [List.mem_singleton, fresh] at single
    omega
  below := by
    intro e member
    show e.id < ctx.varSeq + 1
    rcases List.mem_append.mp member with old | new
    · have := tables.below e old
      omega
    · rw [List.mem_singleton.mp new, fresh]
      omega
  known := fun str id found => List.mem_append_left _ (tables.known str id found)
  correct := tables.correct

theorem Tables.symc3printf (text : List Char) : Tables defs (ctx.symc3printf text) where
  vbuf := tables.vbuf
  nodup := tables.nodup
  below := tables.below
  known := tables.known
  correct := tables.correct

theorem Tables.prints_nothing {a : SymArg} {t : List Char} (token : TokenFor defs rets a t)
    (notOut : outToken (a, t) = none) : Prints defs rets ctx [a] [t] [] (ctx.symc3printf t) where
  tables := by
    rw [List.append_nil]
    exact tables.symc3printf t
  vars := rfl
  tokens := by
    rw [List.append_nil]
    exact .cons token .nil
  outs := by simp [notOut]
  texts := by simp

theorem Tables.prints_arg (results : KnowsResults rets ctx) (a : SymArg)
    (resolved : ∀ j, a = .fd j → ∃ id, rets[j]? = some (some id)) :
    ∃ t added, (ctx.arg a).symc3buf = ctx.symc3buf ++ t ∧ Prints defs rets ctx [a] [t] added (ctx.arg a) := by
  cases a with
  | const val => exact ⟨_, [], rfl, tables.prints_nothing rfl rfl⟩
  | fdVal val => exact ⟨_, [], rfl, tables.prints_nothing rfl rfl⟩
  | fd j =>
    obtain ⟨id, found⟩ := resolved j rfl
    have known : ctx.vars.lookup j = some id := by rw [results j, found]; rfl
    have printed : ctx.arg (.fd j) = ctx.symc3printf (varName id) := by simp only [Serializer.arg, known]
    rw [printed]
    exact ⟨_, [], rfl, tables.prints_nothing ⟨id, found, rfl⟩ rfl⟩
  | outData size =>
    have line : outDef ctx.varSeq size.toNat = (VarDef.out ctx.varSeq size.toNat).line ++ ['\n'] := by
      simp [outDef, VarDef.line]
    refine ⟨varName ctx.varSeq, [.out ctx.varSeq size.toNat], rfl, ?_⟩
    rw [Serializer.arg, line]
    exact
      { tables := (tables.define _ rfl).symc3printf _
        vars := rfl
        tokens := .cons ⟨ctx.varSeq, by simp, rfl⟩ .nil
        outs := by simp [outToken, VarDef.outName]
        texts := by simp }
  | inData b =>
    cases found : ctx.varMap.lookup b.text with
    | some id =>
      have printed : ctx.arg (.inData b) = ctx.symc3printf (varName id) := by simp only [Serializer.arg, found]
      rw [printed]
      exact ⟨_, [], rfl, tables.prints_nothing ⟨id, tables.known _ _ found, rfl⟩ rfl⟩
    | none =>
      have line : textDef ctx.varSeq b.text = (VarDef.text ctx.varSeq b.text).line ++ ['\n'] := by
        rw [textDef, VarDef.line]
        split <;> simp
      have defined := tables.define (.text ctx.varSeq b.text) rfl
      refine ⟨varName ctx.varSeq, [.text ctx.varSeq b.text], ?_, ?_⟩
      · simp only [Serializer.arg, found]
        rfl
      simp only [Serializer.arg, found, line]
      exact
        { tables :=
            { vbuf := defined.vbuf
              nodup := defined.nodup
              below := defined.below
              known := by
                intro str id inside
                by_cases same : str = b.text
                · subst same
                  rw [show id = ctx.varSeq by simpa [Serializer.symc3printf] using inside.symm]
                  simp
                · refine List.mem_append_left _ (tables.known str id ?_)
                  rwa [Serializer.symc3printf, AList.lookup_insert_ne same] at inside
              correct := defined.correct }
          vars := rfl
          tokens := .cons ⟨ctx.varSeq, by simp, rfl⟩ .nil
          outs := rfl
          texts := by simp }

end Arg

/-! ### The arguments of a call -/

theorem Prints.trans {defs added more : List VarDef} {rets : List (Option Nat)} {ctx ctx' ctx'' : Serializer}
    {args args' : List SymArg} {toks toks' : List (List Char)} (first : Prints defs rets ctx args toks added ctx')
    (second : Prints (defs ++ added) rets ctx' args' toks' more ctx'') :
    Prints defs rets ctx (args ++ args') (toks ++ toks') (added ++ more) ctx'' where
  tables := by
    rw [← List.append_assoc]
    exact second.tables
  vars := second.vars.trans first.vars
  tokens := by
    rw [← List.append_assoc]
    refine List.rel_append (first.tokens.imp ?_) second.tokens
    intro a t token
    have grown : TokenFor (defs ++ added ++ more) (rets ++ []) a t := token.mono
    rwa [List.append_nil] at grown
  outs := by
    rw [List.zip_append first.tokens.length_eq, List.filterMap_append, List.filterMap_append, first.outs, second.outs]
  texts := by
    intro id str member
    rcases List.mem_append.mp member with old | new
    · obtain ⟨b, inside, same⟩ := first.texts id str old
      exact ⟨b, List.mem_append_left _ inside, same⟩
    · obtain ⟨b, inside, same⟩ := second.texts id str new
      exact ⟨b, List.mem_append_right _ inside, same⟩

section Args

variable {rets : List (Option Nat)}

theorem Tables.prints_moreArgs {defs : List VarDef} {ctx : Serializer} (tables : Tables defs ctx)
    (results : KnowsResults rets ctx) (args : List SymArg)
    (resolved : ∀ j, SymArg.fd j ∈ args → ∃ id, rets[j]? = some (some id)) :
    ∃ toks added, (ctx.moreArgs args).symc3buf = ctx.symc3buf ++ toks.flatMap ([',', ' '] ++ ·) ∧
      Prints defs rets ctx args toks added (ctx.moreArgs args) := by
  induction args generalizing ctx defs with
  | nil => exact ⟨[], [], by simp [Serializer.moreArgs], ⟨by rw [List.append_nil]; exact tables, rfl, .nil, rfl, by simp⟩⟩
  | cons a args ih =>
    obtain ⟨t, added, text, first⟩ := (tables.symc3printf ", ".toList).prints_arg results a
      fun j same => resolved j (by simp [same])
    have results' : KnowsResults rets ((ctx.symc3printf ", ".toList).arg a) := by
      intro j
      rw [first.vars]
      exact results j
    obtain ⟨toks, more, rest, second⟩ := ih first.tables results' fun j member => resolved j (List.mem_cons_of_mem _ member)
    have both := first.trans second
    refine ⟨t :: toks, added ++ more, ?_, ⟨both.tables, both.vars, both.tokens, both.outs, both.texts⟩⟩
    show (((ctx.symc3printf ", ".toList).arg a).moreArgs args).symc3buf = _
    rw [rest, text]
    simp [Serializer.symc3printf]

theorem intercalate_cons_eq (sep t : List Char) (ts : List (List Char)) :
    sep.intercalate (t :: ts) = t ++ ts.flatMap (sep ++ ·) := by
  induction ts generalizing t with
  | nil => simp
  | cons u ts ih =>
    rw [List.intercalate_cons_cons, ih u]
    simp

theorem Tables.prints_args {defs : List VarDef} {ctx : Serializer} (tables : Tables defs ctx)
    (results : KnowsResults rets ctx) {args : List SymArg} (nonempty : args ≠ [])
    (resolved : ∀ j, SymArg.fd j ∈ args → ∃ id, rets[j]? = some (some id)) :
    ∃ toks added, toks ≠ [] ∧ (ctx.args args).symc3buf = ctx.symc3buf ++ [',', ' '].intercalate toks ∧
      Prints defs rets ctx args toks added (ctx.args args) := by
  cases args with
  | nil => exact absurd rfl nonempty
  | cons a args =>
    obtain ⟨t, added, text, first⟩ := tables.prints_arg results a fun j same => resolved j (by simp [same])
    have results' : KnowsResults rets (ctx.arg a) := by
      intro j
      rw [first.vars]
      exact results j
    obtain ⟨toks, more, rest, second⟩ := first.tables.prints_moreArgs results' args
      fun j member => resolved j (List.mem_cons_of_mem _ member)
    refine ⟨t :: toks, added ++ more, by simp, ?_, first.trans second⟩
    show ((ctx.arg a).moreArgs args).symc3buf = _
    rw [rest, text, intercalate_cons_eq, List.append_assoc]

end Args

/-! ### The calls -/

/-- A row stands for a call: its name and its tokens. -/
structure RowFor (defs : List VarDef) (rets : List (Option Nat)) (c : SymCall) (r : Row) : Prop where
  name : r.name = c.sysName
  nonempty : r.toks ≠ []
  tokens : List.Forall₂ (TokenFor defs rets) c.args r.toks

def outTokens (calls : List SymCall) (toks : List (List (List Char))) : List (List Char) :=
  (calls.zip toks).flatMap fun e => (e.1.args.zip e.2).filterMap outToken

structure Printed (used : Nat → Bool) (calls : List SymCall) (defs : List VarDef) (rows : List Row)
    (ctx : Serializer) : Prop where
  tables : Tables defs ctx
  text : ctx.symc3buf = written (rows.map Row.line)
  results : KnowsResults (rows.map Row.ret) ctx
  rets : ∀ i r, rows[i]? = some r → r.ret.isSome = used i
  rowFor : List.Forall₂ (RowFor defs (rows.map Row.ret)) calls rows
  outs : outTokens calls (rows.map Row.toks) = defs.filterMap VarDef.outName
  texts : ∀ id str, VarDef.text id str ∈ defs → ∃ c ∈ calls, ∃ b, SymArg.inData b ∈ c.args ∧ b.text = str

theorem Tables.result {defs : List VarDef} {ctx : Serializer} (tables : Tables defs ctx) (i : Nat) (used : Bool) :
    Tables defs (ctx.result i used) := by
  cases used with
  | false => exact tables
  | true =>
    exact
      { vbuf := tables.vbuf
        nodup := tables.nodup
        below := fun d member => Nat.lt_succ_of_lt (tables.below d member)
        known := tables.known
        correct := tables.correct }

theorem KnowsResults.result {rets : List (Option Nat)} {ctx : Serializer} (results : KnowsResults rets ctx) (used : Bool) :
    KnowsResults (rets ++ [if used then some ctx.varSeq else none]) (ctx.result rets.length used) := by
  intro j
  cases used with
  | false =>
    show ctx.vars.lookup j = _
    rw [results j]
    rcases Nat.lt_trichotomy j rets.length with before | rfl | after
    · rw [List.getElem?_append_left before]
    · simp
    · rw [List.getElem?_eq_none (by omega), List.getElem?_eq_none (by simp; omega)]
  | true =>
    show (ctx.vars.insert rets.length ctx.varSeq).lookup j = _
    rcases Nat.lt_trichotomy j rets.length with before | rfl | after
    · rw [AList.lookup_insert_ne (by omega), results j, List.getElem?_append_left before]
    · simp
    · rw [AList.lookup_insert_ne (by omega), results j, List.getElem?_eq_none (by omega),
        List.getElem?_eq_none (by simp; omega)]

theorem result_symc3buf (ctx : Serializer) (i : Nat) (used : Bool) (name : List Char) (toks : List (List Char)) :
    (ctx.result i used).symc3buf = ctx.symc3buf ++ Row.retText ⟨if used then some ctx.varSeq else none, name, toks⟩ := by
  cases used with
  | false => simp [Serializer.result, Row.retText]
  | true => simp [Serializer.result, Row.retText, Serializer.symc3printf, Serializer.alloc]

theorem RowFor.mono {defs added : List VarDef} {rets more : List (Option Nat)} {c : SymCall} {r : Row}
    (row : RowFor defs rets c r) : RowFor (defs ++ added) (rets ++ more) c r :=
  ⟨row.name, row.nonempty, row.tokens.imp fun _ _ token => token.mono⟩

theorem Printed.call {used : Nat → Bool} {calls : List SymCall} {defs : List VarDef} {rows : List Row}
    {ctx : Serializer} (printed : Printed used calls defs rows ctx) {c : SymCall} (nonempty : c.args ≠ [])
    (resolved : ∀ j, SymArg.fd j ∈ c.args → j < rows.length ∧ used j = true) :
    ∃ defs' r, Printed used (calls ++ [c]) defs' (rows ++ [r]) (ctx.call calls.length (used calls.length) c) := by
  have count : calls.length = rows.length := printed.rowFor.length_eq
  let ret := if used calls.length then some ctx.varSeq else none
  have tables := (printed.tables.result calls.length (used calls.length)).symc3printf
    ("syscall(".toList ++ c.sysName ++ ", ".toList)
  have results : KnowsResults (rows.map Row.ret ++ [ret]) (ctx.result calls.length (used calls.length)) := by
    have known := printed.results.result (used calls.length)
    rwa [List.length_map, ← count] at known
  have known : ∀ j, SymArg.fd j ∈ c.args → ∃ id, (rows.map Row.ret ++ [ret])[j]? = some (some id) := by
    intro j member
    obtain ⟨before, isUsed⟩ := resolved j member
    have row := printed.rets j rows[j] (List.getElem?_eq_getElem before)
    obtain ⟨id, some⟩ := Option.isSome_iff_exists.mp (row.trans isUsed)
    refine ⟨id, ?_⟩
    rw [List.getElem?_append_left (by simpa using before), List.getElem?_map, List.getElem?_eq_getElem before]
    exact congrArg _ some
  obtain ⟨toks, added, some, text, prints⟩ := tables.prints_args results nonempty known
  have retRow : (rows ++ [Row.mk ret c.sysName toks]).map Row.ret = rows.map Row.ret ++ [ret] := by simp
  refine ⟨defs ++ added, ⟨ret, c.sysName, toks⟩, ?_⟩
  exact
    { tables := prints.tables.symc3printf _
      text := by
        show (Serializer.symc3printf _ _).symc3buf = _
        obtain ⟨t, ts, rfl⟩ := List.exists_cons_of_ne_nil some
        rw [List.map_append, written_append, ← printed.text, List.map_singleton, written_singleton, Row.line,
          List.intercalate_cons_cons]
        simp only [Serializer.symc3printf] at text ⊢
        rw [text, result_symc3buf ctx calls.length (used calls.length) c.sysName (t :: ts)]
        simp [ret]
      results := by
        rw [retRow]
        intro j
        show (Serializer.args _ _).vars.lookup j = _
        rw [prints.vars]
        exact results j
      rets := by
        intro i r found
        rcases Nat.lt_trichotomy i rows.length with before | rfl | after
        · rw [List.getElem?_append_left before] at found
          exact printed.rets i r found
        · have same : r = ⟨ret, c.sysName, toks⟩ := by simpa using found.symm
          rw [same, ← count]
          cases known : used calls.length <;> simp [ret, known]
        · rw [List.getElem?_eq_none (by simp; omega)] at found
          cases found
      rowFor := by
        rw [retRow]
        refine List.rel_append (printed.rowFor.imp fun _ _ row => row.mono) (.cons ?_ .nil)
        exact ⟨rfl, some, prints.tokens⟩
      outs := by
        have zipped : (calls ++ [c]).zip ((rows ++ [Row.mk ret c.sysName toks]).map Row.toks) =
            calls.zip (rows.map Row.toks) ++ [(c, toks)] := by
          rw [List.map_append, List.zip_append (by simpa using count)]
          rfl
        rw [outTokens, zipped, List.flatMap_append, List.filterMap_append, ← printed.outs, ← prints.outs]
        simp [outTokens]
      texts := by
        intro id str member
        rcases List.mem_append.mp member with old | new
        · obtain ⟨d, inside, b, buffer, same⟩ := printed.texts id str old
          exact ⟨d, List.mem_append_left _ inside, b, buffer, same⟩
        · obtain ⟨b, buffer, same⟩ := prints.texts id str new
          exact ⟨c, by simp, b, buffer, same⟩ }

theorem printed_prefix (p : SymProg) (n : Nat) (within : n ≤ p.calls.length) :
    ∃ defs rows, Printed p.used (p.calls.take n) defs rows
      ((p.calls.zipIdx.take n).foldl (fun ctx e => ctx.call e.2 (p.used e.2) e.1) {}) := by
  induction n with
  | zero =>
    refine ⟨[], [], ?_⟩
    exact
      { tables := ⟨rfl, List.nodup_nil, by simp, by simp, rfl⟩
        text := rfl
        results := fun j => by simp
        rets := by simp
        rowFor := .nil
        outs := rfl
        texts := by simp }
  | succ n ih =>
    obtain ⟨defs, rows, printed⟩ := ih (by omega)
    have here : p.calls[n]? = some p.calls[n] := List.getElem?_eq_getElem within
    have count : n = rows.length := by simpa [Nat.le_of_succ_le within] using printed.rowFor.length_eq
    obtain ⟨defs', r, next⟩ := printed.call (p.nonempty p.calls[n] (List.getElem_mem within)) fun j member => by
      obtain ⟨before, _⟩ := p.earlier n _ here j member
      refine ⟨by omega, ?_⟩
      rw [SymProg.used, List.any_eq_true]
      exact ⟨p.calls[n], List.getElem_mem within, by simpa using member⟩
    refine ⟨defs', rows ++ [r], ?_⟩
    rw [List.take_add_one, here, Option.toList_some, List.take_add_one, List.getElem?_zipIdx, here]
    simpa [Nat.le_of_succ_le within] using next

theorem printed_serializer (p : SymProg) : ∃ defs rows, Printed p.used p.calls defs rows p.serializer := by
  obtain ⟨defs, rows, printed⟩ := printed_prefix p p.calls.length (Nat.le_refl _)
  refine ⟨defs, rows, ?_⟩
  rw [List.take_length, List.take_of_length_le (by simp)] at printed
  exact printed

end DfsFuzz.Symsc
