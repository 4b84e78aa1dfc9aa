import DfsFuzz.Lib.GoMap
import DfsFuzz.Lib.PyText
import DfsFuzz.Symsc.Escape

/-!
How the emulator reads the text of a program: the line loop of `init_state` and `parse_wrapper`
(`utils.py`). The regular expressions are written out as the matches they find on a line, which
never holds a newline.
-/

namespace DfsFuzz.Symsc

/-- An entry of `SYSCALL_STACK`. -/
structure Syscall where
  name : List Char
  args : List (List Char)
  ret : List Char
deriving DecidableEq

/-- The parts of the state that reading the program writes. -/
structure Parsed where
  bufData : Go.Map (List Char) (List Char) := ∅
  bufSize : Go.Map (List Char) Nat := ∅
  fdStack : Go.Map (List Char) (List Char) := ∅
  syscallStack : List Syscall := []

/-- What stands before the last `c`. -/
def beforeLast (c : Char) (s : List Char) : Option (List Char) :=
  match s.reverse.dropWhile (· ≠ c) with
  | [] => none
  | _ :: r => some r.reverse

/-- What stands between the first `o` and the last `c` after it. -/
def between (o c : Char) (s : List Char) : Option (List Char) :=
  match s.dropWhile (· ≠ o) with
  | [] => none
  | _ :: t => beforeLast c t

/-- The group of `p_var_def` for the data, after the closing bracket. -/
def quotedData (s : List Char) : Option (List Char) :=
  match s.dropWhile (· = ' ') with
  | '=' :: t =>
    match t.dropWhile (· = ' ') with
    | '"' :: u => beforeLast '"' u
    | _ => none
  | _ => none

/-- `p_var_def` at the start of `s`: the name, the size and the data. -/
def matchVarDef (s : List Char) : Option (List Char × List Char × Option (List Char)) :=
  match s with
  | 'v' :: t =>
    if t.takeWhile Char.isDigit = [] then none
    else
      match t.dropWhile Char.isDigit with
      | '[' :: u =>
        match u.dropWhile Char.isDigit with
        | ']' :: w => some ('v' :: t.takeWhile Char.isDigit, u.takeWhile Char.isDigit, quotedData w)
        | _ => none
      | _ => none
  | _ => none

/-- `p_var_fd` at the start of `s`. -/
def matchVarFd (s : List Char) : Option (List Char) :=
  match s with
  | 'v' :: t =>
    if t.takeWhile Char.isDigit = [] then none
    else
      match t.dropWhile Char.isDigit with
      | ';' :: _ => some ('v' :: t.takeWhile Char.isDigit)
      | _ => none
  | _ => none

def parseVarDef (line : List Char) (st : Parsed) : Option Parsed :=
  match line.tails.findSome? matchVarDef with
  | none => some st
  | some (name, _, some data) =>
    some { st with bufSize := st.bufSize.insert name (unescape data).length
                   bufData := st.bufData.insert name (unescape data) }
  | some (name, size, none) =>
    -- `int("")` raises
    if size = [] then none
    else
      some { st with bufSize := st.bufSize.insert name (Nat.ofDigitChars 10 size 0)
                     bufData := st.bufData.insert name (List.replicate (Nat.ofDigitChars 10 size 0) (Char.ofNat 0)) }

def parseFd (line : List Char) (st : Parsed) : Parsed :=
  match line.tails.findSome? matchVarFd with
  | none => st
  | some name => { st with fdStack := st.fdStack.insert name [] }

def digitGroups (s : List Char) : Option Nat :=
  let groups := Py.split ['_'] s
  if groups.all fun g => g != [] && g.all Char.isDigit then some (Nat.ofDigitChars 10 groups.flatten 0) else none

/-- `int(s)`, without a value where it raises `ValueError`. -/
def parseInt (s : List Char) : Option Int :=
  match Py.strip s with
  | '-' :: t => (digitGroups t).map fun n => -(n : Int)
  | '+' :: t => (digitGroups t).map fun n => (n : Int)
  | t => (digitGroups t).map fun n => (n : Int)

/-- `s[:n]` -/
def sliceTo (s : List Char) (n : Int) : List Char :=
  if 0 ≤ n then s.take n.toNat else s.take (s.length - n.natAbs)

def parseMemcpy (line : List Char) (st : Parsed) : Parsed :=
  match between '(' ')' line with
  | none => st
  | some inPar =>
    let parts := Py.split [',', ' '] inPar
    if parts.length < 3 then st
    else
      match parts.head?, parts.getLast?.bind parseInt, between '"' '"' inPar with
      | some name, some size, some text =>
        { st with bufData := st.bufData.insert name (sliceTo (unescape text) size) }
      | _, _, _ => st

def fdCalls : List (List Char) := ["SYS_open", "SYS_creat", "SYS_dup", "SYS_dup2"].map String.toList

/-- The result variable of a call that returns a descriptor. -/
def syscallRet (name line : List Char) : List Char :=
  if fdCalls.contains name then
    match Py.split [' ', '=', ' '] line with
    | first :: _ :: _ => first
    | _ => []
  else []

/-- Without a match of `p_arg`, `m_arg.group` raises. -/
def parseCall (line : List Char) (st : Parsed) : Option Parsed :=
  match (between '(' ')' line).map (Py.split [',', ' ']) with
  | some (name :: args) =>
    some { st with syscallStack := st.syscallStack ++ [⟨name, args, syscallRet name line⟩] }
  | _ => none

def syscallWord : List Char := "syscall".toList

def memcpyWord : List Char := "memcpy".toList

def parseWrapper (raw : List Char) (st : Parsed) : Option Parsed :=
  let line := Py.strip raw
  if Py.contains syscallWord line then parseCall line st
  else if [';'] <:+ line then
    if '=' ∈ line ∧ ¬ Py.contains "\x7b 0, \x7d".toList line ∧ ¬ Py.contains memcpyWord line then parseVarDef line st
    else if Py.contains memcpyWord line then some (parseMemcpy line st)
    else if '[' ∈ line ∧ ']' ∈ line then parseVarDef line st
    else if 'v' ∈ line ∧ ¬ Py.contains "close".toList line then some (parseFd line st)
    else some st
  else some st

def parseLines : List (List Char) → Parsed → Option Parsed
  | [], st => some st
  | raw :: rest, st =>
    if (Py.strip raw).length = 0 then parseLines rest st
    else
      match parseWrapper raw st with
      | none => none
      | some st' => parseLines rest st'

/-- What `init_state` makes of the program text, without a value where it raises. -/
def parseProgram (prog : List Char) : Option Parsed := parseLines (Py.split ['\n'] prog) {}

end DfsFuzz.Symsc
