import DfsFuzz.Lib.GoStrings
import DfsFuzz.Lib.Ranges
import Mathlib.Data.List.Sort

/-!
Where the data of a program lies: the sizes of arguments (`prog/prog.go`), the allocator that is told
of all buffers (`prog/alloc.go`, `stateFromProg`), and the mutations that rewrite a buffer
(`prog/mutation.go`). Constants have only their size here; the lengths that `assignSizesCall`
computes are constants.
-/

namespace DfsFuzz.Buffers

open Ranges

/-- How the size of a group comes about: its type has a fixed one, or the fields are added up. -/
inductive Layout where
  | fixed (size : Nat)
  | struct (alignAttr : Nat)
  | array
deriving DecidableEq

/-- A pointer type: its own size and the alignment of its elements. -/
structure PtrType where
  size : Nat
  elemAlign : Nat
deriving DecidableEq

/-- `plain` are constants, results, and pointers without a pointee. -/
inductive Arg where
  | plain (size : Nat)
  | pointer (type : PtrType) (address : Nat) (res : Arg)
  | data (isOut : Bool) (bytes : List UInt8) (size : Nat)
  | group (layout : Layout) (inner : List Arg)
  | union (fixed : Option Nat) (option : Arg)

structure Call where
  name : String
  args : List Arg

structure Prog where
  calls : List Call
  hasNetFail : Bool := false

def alignUp (align size : Nat) : Nat := if align ≠ 0 ∧ size % align ≠ 0 then size + (align - size % align) else size

mutual

def Arg.size : Arg → Nat
  | .plain size => size
  | .pointer type _ _ => type.size
  | .data _ bytes size => if bytes.length ≠ 0 then bytes.length else size
  | .group (.fixed size) _ => size
  | .group (.struct alignAttr) inner => alignUp alignAttr (sizes inner)
  | .group .array inner => sizes inner
  | .union (some size) _ => size
  | .union none option => option.size

def sizes : List Arg → Nat
  | [] => 0
  | arg :: rest => arg.size + sizes rest

end

mutual

/-- The ranges of the pointees, as `ForeachArg` visits the pointers. -/
def Arg.pointees : Arg → List Span
  | .plain _ | .data _ _ _ => []
  | .pointer _ address res => ⟨address, res.size⟩ :: res.pointees
  | .group _ inner => pointeesOf inner
  | .union _ option => option.pointees

def pointeesOf : List Arg → List Span
  | [] => []
  | arg :: rest => arg.pointees ++ pointeesOf rest

end

def Prog.pointees (p : Prog) : List Span := p.calls.flatMap fun c => pointeesOf c.args

def memAllocGranule : Nat := 64

/-- The noted granules, and the number of granules there are. -/
structure MemAlloc where
  size : Nat
  noted : Nat → Bool

def MemAlloc.noteAlloc (ma : MemAlloc) (addr0 size0 : Nat) : MemAlloc :=
  { ma with noted := fun i =>
      ma.noted i || decide (addr0 / memAllocGranule ≤ i ∧ i < (addr0 + size0 + memAllocGranule - 1) / memAllocGranule) }

def granulesOf (size : Nat) : Nat := ((if size = 0 then 1 else size) + memAllocGranule - 1) / memAllocGranule

/-- The first free place; `none` is where the source forgets all allocations and starts again. -/
def MemAlloc.alloc (ma : MemAlloc) (size0 alignment0 : Nat) : Option Nat :=
  let size := granulesOf size0
  let alignment := granulesOf alignment0
  if ma.size < size then none
  else
    let starts := (List.range ((ma.size - size) / alignment + 1)).map (· * alignment)
    (starts.find? fun start => (List.range size).all fun i => !ma.noted (start + i)).map (· * memAllocGranule)

/-- `stateFromProg`: the allocator knows of every pointee. -/
def stateFromProg (memSize : Nat) (p : Prog) : MemAlloc :=
  p.pointees.foldl (fun ma range => ma.noteAlloc range.start range.size) { size := memSize / memAllocGranule, noted := fun _ => false }

/-- A pointer to data, with what the `DataArg` holds. -/
structure DataSlot where
  type : PtrType
  address : Nat
  isOut : Bool
  bytes : List UInt8
  size : Nat

def DataSlot.arg (slot : DataSlot) : Arg := .pointer slot.type slot.address (.data slot.isOut slot.bytes slot.size)

/-- `call.Args[argIdx].(*PointerArg).Res.(*DataArg)`. -/
def argSlot : Arg → Option DataSlot
  | .pointer type address (.data isOut bytes size) => some ⟨type, address, isOut, bytes, size⟩
  | _ => none

def argAt (p : Prog) (callIdx argIdx : Nat) : Option Arg := p.calls[callIdx]?.bind fun call => call.args[argIdx]?

def dataSlot (p : Prog) (callIdx argIdx : Nat) : Option DataSlot := (argAt p callIdx argIdx).bind argSlot

def setArg (p : Prog) (callIdx argIdx : Nat) (arg : Arg) : Prog :=
  { p with calls := p.calls.modify callIdx fun c => { c with args := c.args.set argIdx arg } }

/-- `dataArg.data = data` in the pointee of an argument; the address stays. -/
def setData (p : Prog) (callIdx argIdx : Nat) (data : List UInt8) : Prog :=
  match dataSlot p callIdx argIdx with
  | some slot => setArg p callIdx argIdx { slot with bytes := data }.arg
  | none => p

/-- The bytes of a text that holds one byte in each character. -/
def toBytes (s : String) : List UInt8 := s.toList.map fun c => UInt8.ofNat c.toNat

/-- `suffix` is what `randomSuffix` draws. -/
def updateCallPathInProg (p : Prog) (callIdx : Nat) (newPath suffix : List UInt8) : Prog :=
  match p.calls[callIdx]? with
  | none => p
  | some call =>
    if (dataSlot p callIdx 0).isNone then p
    else
      let p := setData p callIdx 0 (newPath ++ [0])
      if Go.contains call.name "rename" then setData p callIdx 1 (newPath ++ toBytes "._renamed_" ++ suffix ++ [0]) else p

structure PathUpdate where
  progIdx : Nat
  callIdx : Nat
  newPath : List UInt8
  suffix : List UInt8

def applyUpdate (ps : List Prog) (u : PathUpdate) : List Prog :=
  ps.modify u.progIdx fun p => updateCallPathInProg p u.callIdx u.newPath u.suffix

/-- The updates are what the anchor, its peers and the file tree come to. -/
def mutateGroupPathDynamic (ps : List Prog) (updates : List PathUpdate) : List Prog := updates.foldl applyUpdate ps

structure HmdfsConfig where
  nodeNum : Nat
  initIp : String

def atoi (s : String) : Option Int :=
  let (sign, digits) : Int × List Char := match s.toList with
    | '-' :: digits => (-1, digits)
    | '+' :: digits => (1, digits)
    | digits => (1, digits)
  if digits = [] ∨ digits.all Char.isDigit = false then none
  else
    let n := sign * digits.foldl (fun n c => 10 * n + ((c.toNat : Int) - 48)) 0
    if -(2 ^ 63 : Int) ≤ n ∧ n < 2 ^ 63 then some n else none

def dropRule (chain flag : String) (net : String) (host : Int) : String :=
  "iptables -A " ++ chain ++ " " ++ flag ++ " " ++ net ++ "." ++ toString host ++ " -j DROP;"

def genIptablesDropCmd (initIp : String) (nodes : List Nat) : String :=
  match Go.split initIp '.' with
  | [b0, b1, b2, b3] =>
    match atoi b3 with
    | none => ""
    | some lastByte =>
      let net := b0 ++ "." ++ b1 ++ "." ++ b2
      String.join (nodes.map fun node => dropRule "INPUT" "-s" net (lastByte + node)) ++
        String.join (nodes.map fun node => dropRule "OUTPUT" "-d" net (lastByte + node))
  | _ => ""

/-- `perm` is what `Perm` draws of the range. -/
def randSetExcept (startRange setSize except : Nat) (perm : List Nat) : List Nat :=
  let set := perm.foldl (fun set val =>
    if setSize ≤ set.length then set else if startRange + val ≠ except then set ++ [startRange + val] else set) []
  set.insertionSort (· ≤ ·)

def newCmd (cfg : HmdfsConfig) (nodes : List Nat) : List UInt8 :=
  toBytes ("iptables -F;iptables -X;" ++ genIptablesDropCmd cfg.initIp nodes)

/-- The position of the call that `mutateStashTargetNodes` stops at: the first partition of a program that has one to edit. -/
def targetCall (ps : List Prog) : Option (Nat × Nat) :=
  (ps.zipIdx.filterMap fun (p, pidx) =>
    if p.hasNetFail then
      match p.calls.findIdx? fun c => Go.contains c.name "syz_failure_net_down" with
      | none => none
      | some callIdx => if (dataSlot p callIdx 0).isSome then some (pidx, callIdx) else none
    else none).head?

/-- `Data()` of a pointee, which panics on one that the call fills. -/
def readable (ps : List Prog) (progIdx callIdx argIdx : Nat) : Bool :=
  match ps[progIdx]?.bind fun p => dataSlot p callIdx argIdx with
  | some slot => !slot.isOut
  | none => false

/-- `setSize` and `perm` are the draws of the new target nodes. -/
def mutateStashTargetNodes (cfg : HmdfsConfig) (ps : List Prog) (setSize : Nat) (perm : List Nat) : Option (List Prog) :=
  match targetCall ps with
  | none => some ps
  | some (pidx, callIdx) =>
    if readable ps pidx callIdx 0 = false then none
    else if cfg.nodeNum ≤ 1 then some ps
    else some (ps.modify pidx fun p => setData p callIdx 0 (newCmd cfg (randSetExcept 0 setSize pidx perm)))

/-- The pointee becomes a new pointer, which has the data at a fresh address of the program `source`. -/
def reassignDataArg (memSize : Nat) (source p : Prog) (callIdx : Nat) (newData : List UInt8) : Option Prog :=
  match argAt p callIdx 1 with
  | some (.pointer type address _) =>
    ((stateFromProg memSize source).alloc (Arg.data false newData 0).size type.elemAlign).map fun fresh =>
      setArg p callIdx 1 (.pointer type address (.pointer type fresh (.data false newData 0)))
  | _ => some p

/-- The callers of `reassignDataArg` read the old data first. `mutateWriteLength` and `mutateWriteData` put the new bytes in place
before the call and name `ps[0]`, whichever program has the call; `updateWriteDataBuf` names that program. -/
def changeWriteBuffer (memSize : Nat) (ps : List Prog) (source progIdx callIdx : Nat) (inPlace : Bool) (newData : List UInt8) :
    Option (List Prog) :=
  if readable ps progIdx callIdx 1 = false then none
  else
    let ps := if inPlace then ps.modify progIdx fun p => setData p callIdx 1 newData else ps
    ps[source]?.bind fun owner =>
      ps[progIdx]?.bind fun p =>
        (reassignDataArg memSize owner p callIdx newData).map fun p => ps.set progIdx p

/-- `dataArg.size = newLen` in the buffer of a call that reads. -/
def resizeRead (newLen : Nat) (p : Prog) (callIdx : Nat) : Prog :=
  match dataSlot p callIdx 1 with
  | some slot => if slot.isOut then setArg p callIdx 1 { slot with size := newLen }.arg else p
  | none => p

/-- `reads` are the programs and calls that read the old region. -/
def syncStashReadVerification (ps : List Prog) (reads : List (Nat × Nat)) (newLen : Nat) : List Prog :=
  reads.foldl (fun ps (progIdx, callIdx) => ps.modify progIdx fun p => resizeRead newLen p callIdx) ps

end DfsFuzz.Buffers
