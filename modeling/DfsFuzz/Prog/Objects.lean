import DfsFuzz.Prog.Types
import Mathlib.Logic.Function.Basic
import Mathlib.Data.List.Nodup

/-!
Programs as objects (`prog/prog.go`, `prog/clone.go`): the arguments are trees of allocated objects, and
a `ResultArg` points to the one it uses and back to those that use it.
-/

namespace DfsFuzz.Refs

/-- Where an object is allocated; two pointers are equal iff their addresses are. -/
abbrev Addr := Nat

inductive Dir where
  | dirIn
  | dirOut
  | dirInOut
deriving DecidableEq

structure ArgCommon where
  ref : Nat
  dir : Dir
deriving DecidableEq

/-- A pointer without a pointee is a `vma`. What a `ResultArg` holds is in the memory. -/
inductive Arg where
  | const (addr : Addr) (common : ArgCommon) (val : UInt64)
  | vma (addr : Addr) (common : ArgCommon) (address vmaSize : UInt64)
  | pointer (addr : Addr) (common : ArgCommon) (address vmaSize : UInt64) (res : Arg)
  | data (addr : Addr) (common : ArgCommon) (data : List UInt8) (size : UInt64)
  | group (addr : Addr) (common : ArgCommon) (inner : List Arg)
  | union (addr : Addr) (common : ArgCommon) (option : Arg) (index : Int)
  | result (addr : Addr)

/-- `uses` lists the keys of the map in the order in which `range` visits them. -/
structure ResultArg where
  common : ArgCommon
  res : Option Addr
  opDiv : UInt64
  opAdd : UInt64
  val : UInt64
  uses : List Addr
deriving DecidableEq

/-- Everything below `next` is allocated. -/
structure Memory where
  next : Addr
  results : Addr → ResultArg

structure CallProps where
  failNth : Int := 0
deriving DecidableEq

structure Call where
  name : String
  args : List Arg
  ret : Option Addr
  props : CallProps := {}
  comment : String := ""
  isFCall : Bool := false
  checkInfo : Option FileMetadata := none
  procId : Int := 0
  argstr : String := ""

/-- The scalar fields of a program, as `Clone` copies them. -/
structure Flags where
  syncIdx : UInt64 := 0
  barrierIdx : UInt64 := 0
  hasCrashFail : Bool := false
  hasNetFail : Bool := false
  isStash : Bool := false
  isDCache : Bool := false
  isFileOps : Bool := false
  isInodeOps : Bool := false
  c2test : Bool := false
deriving DecidableEq

structure Prog where
  calls : List Call
  comments : List String := []
  flags : Flags := {}
  srvFailPos : List (List Int) := []
  srvFailOrder : List Int := []
  generalFailPos : List (List Int) := []
  generalBarrierPos : List (List Int) := []

namespace Memory

def set (m : Memory) (a : Addr) (node : ResultArg) : Memory := { m with results := Function.update m.results a node }

/-- `new(ResultArg)` with its first value; the address is the old `next`. -/
def alloc (m : Memory) (node : ResultArg) : Memory :=
  { next := m.next + 1, results := Function.update m.results m.next node }

/-- `r.uses[a] = true`. -/
def addUse (m : Memory) (r a : Addr) : Memory :=
  if a ∈ (m.results r).uses then m else m.set r { m.results r with uses := (m.results r).uses ++ [a] }

/-- `delete(r.uses, a)`. -/
def deleteUse (m : Memory) (r a : Addr) : Memory :=
  m.set r { m.results r with uses := (m.results r).uses.erase a }

end Memory

mutual

def resultsOf : Arg → List Addr
  | .const _ _ _ | .vma _ _ _ _ | .data _ _ _ _ => []
  | .pointer _ _ _ _ res => resultsOf res
  | .group _ _ inner => resultsOfList inner
  | .union _ _ option _ => resultsOf option
  | .result a => [a]

def resultsOfList : List Arg → List Addr
  | [] => []
  | arg :: rest => resultsOf arg ++ resultsOfList rest

end

mutual

def objectsOf : Arg → List Addr
  | .const a _ _ | .vma a _ _ _ | .data a _ _ _ | .result a => [a]
  | .pointer a _ _ _ res => a :: objectsOf res
  | .group a _ inner => a :: objectsOfList inner
  | .union a _ option _ => a :: objectsOf option

def objectsOfList : List Arg → List Addr
  | [] => []
  | arg :: rest => objectsOf arg ++ objectsOfList rest

end

/-- The result arguments of a call in the order in which `Clone` copies them. -/
def Call.results (c : Call) : List Addr := c.ret.toList ++ resultsOfList c.args

def Call.objects (c : Call) : List Addr := c.ret.toList ++ objectsOfList c.args

def Prog.results (p : Prog) : List Addr := p.calls.flatMap Call.results

def Prog.objects (p : Prog) : List Addr := p.calls.flatMap Call.objects

/-- The memory and the map from the copied result arguments to their copies. -/
structure Cloning where
  memory : Memory
  newargs : Addr → Option Addr

/-- `new` of an argument that is not a `ResultArg`. -/
def Cloning.new (s : Cloning) : Cloning := { s with memory := { s.memory with next := s.memory.next + 1 } }

def cloneResult (a : Addr) (s : Cloning) : Option (Addr × Cloning) :=
  let a1 := s.memory.next
  let node := s.memory.results a
  match node.res with
  | none =>
    some (a1, { memory := s.memory.alloc { node with uses := [] }, newargs := Function.update s.newargs a (some a1) })
  | some res =>
    match s.newargs res with
    -- `r.uses` of a nil `r`
    | none => none
    | some r =>
      let memory := (s.memory.alloc { node with res := some r }).addUse r a1
      some (a1, { memory := memory.set a1 { memory.results a1 with uses := [] },
                  newargs := Function.update s.newargs a (some a1) })

mutual

def clone : Arg → Cloning → Option (Arg × Cloning)
  | .const _ common val, s => some (.const s.memory.next common val, s.new)
  | .vma _ common address vmaSize, s => some (.vma s.memory.next common address vmaSize, s.new)
  | .pointer _ common address vmaSize res, s =>
    (clone res s.new).map fun (res1, s1) => (.pointer s.memory.next common address vmaSize res1, s1)
  | .data _ common data size, s => some (.data s.memory.next common data size, s.new)
  | .group _ common inner, s => (cloneList inner s.new).map fun (inner1, s1) => (.group s.memory.next common inner1, s1)
  | .union _ common option index, s =>
    (clone option s.new).map fun (option1, s1) => (.union s.memory.next common option1 index, s1)
  | .result a, s => (cloneResult a s).map fun (a1, s1) => (.result a1, s1)

def cloneList : List Arg → Cloning → Option (List Arg × Cloning)
  | [], s => some ([], s)
  | arg :: rest, s =>
    (clone arg s).bind fun (arg1, s1) => (cloneList rest s1).map fun (rest1, s2) => (arg1 :: rest1, s2)

end

def cloneRet : Option Addr → Cloning → Option (Option Addr × Cloning)
  | none, s => some (none, s)
  | some a, s => (cloneResult a s).map fun (a1, s1) => (some a1, s1)

def cloneCall (c : Call) (s : Cloning) : Option (Call × Cloning) :=
  (cloneRet c.ret s).bind fun (ret1, s1) =>
    (cloneList c.args s1).map fun (args1, s2) =>
      ({ name := c.name, isFCall := c.isFCall, ret := ret1, args := args1, props := c.props, checkInfo := c.checkInfo }, s2)

def cloneCalls : List Call → Cloning → Option (List Call × Cloning)
  | [], s => some ([], s)
  | c :: rest, s =>
    (cloneCall c s).bind fun (c1, s1) => (cloneCalls rest s1).map fun (rest1, s2) => (c1 :: rest1, s2)

def Prog.clone (p : Prog) (m : Memory) : Option (Prog × Memory) :=
  (cloneCalls p.calls ⟨m, fun _ => none⟩).map fun (calls, s) =>
    ({ calls := calls, flags := p.flags, srvFailPos := p.srvFailPos, srvFailOrder := p.srvFailOrder,
       generalFailPos := p.generalFailPos, generalBarrierPos := p.generalBarrierPos }, s.memory)

/-- The result arguments of a call that later calls may refer to. -/
def Call.owned (m : Memory) (c : Call) : List Addr :=
  c.ret.toList ++ (resultsOfList c.args).filter fun a => (m.results a).common.dir ≠ .dirIn

/-- The map of the owners, `owners[a] = i` for everything that call `i` owns. -/
def register (m : Memory) (known : Addr → Option Nat) (entry : Call × Nat) : Addr → Option Nat :=
  (entry.1.owned m).foldl (fun known a => Function.update known a (some entry.2)) known

def owners (m : Memory) (calls : List Call) : Addr → Option Nat := calls.zipIdx.foldl (register m) fun _ => none

def hasBrokenRefs (m : Memory) (p : Prog) : Bool :=
  p.calls.zipIdx.any fun (c, i) =>
    (resultsOfList c.args ++ c.ret.toList).any fun a =>
      match (m.results a).res with
      | none => false
      | some res =>
        match owners m p.calls res with
        | none => true
        | some owner => decide (owner ≥ i)

def replaceResultArg (m : Memory) (arg arg1 : Addr) : Memory :=
  let m := match (m.results arg).res with
    | none => m
    | some res => m.deleteUse res arg
  let m := m.set arg { m.results arg1 with uses := (m.results arg).uses }
  match (m.results arg).res with
  | none => m
  | some res => (m.deleteUse res arg1).addUse res arg

/-- The default of a resource type, by the reference to the type. -/
abbrev Defaults := Nat → UInt64

/-- `arg1.Type().DefaultArg(arg1.Dir())`. -/
def defaultArg (defaults : Defaults) (common : ArgCommon) : ResultArg :=
  { common := common, res := none, opDiv := 0, opAdd := 0, val := defaults common.ref, uses := [] }

def replaceByDefault (defaults : Defaults) (m : Memory) (arg1 : Addr) : Memory :=
  replaceResultArg (m.alloc (defaultArg defaults (m.results arg1).common)) arg1 m.next

/-- `removeArg` takes `a` out of the uses of its referent; `none` is the panic "broken tree". -/
def unlink (m : Memory) (a : Addr) : Option Memory :=
  match (m.results a).res with
  | none => some m
  | some res => if a ∈ (m.results res).uses then some (m.deleteUse res a) else none

def removeResult (defaults : Defaults) (m : Memory) (a : Addr) : Option Memory :=
  (unlink m a).map fun m => (m.results a).uses.foldl (replaceByDefault defaults) m

def removeArg (defaults : Defaults) (m : Memory) (arg0 : Arg) : Option Memory :=
  (resultsOf arg0).foldlM (removeResult defaults) m

def Prog.removeCall (defaults : Defaults) (p : Prog) (idx : Nat) (m : Memory) : Option (Prog × Memory) := do
  let c ← p.calls[idx]?
  let m ← c.args.foldlM (removeArg defaults) m
  let m ← match c.ret with
    | none => some m
    | some ret => removeArg defaults m (.result ret)
  some ({ p with calls := p.calls.eraseIdx idx }, m)

end DfsFuzz.Refs
