import DfsFuzz.Mutation.Dcache

/-!
The general mutations of a program with failures (`prog/mutation.go`, `Mutate` with `hasFail`): the
steps of its loop on one program and the table `SrvFailPos` that they keep. What a step returns only
decides how many steps the loop makes, so it is left out.
-/

namespace DfsFuzz.Mutation

open DfsFuzz.Choice

/-- The mutator: its program, the allowed number of calls and the number of the next call object. -/
structure Mutator where
  p : SeedProg
  ncalls : Nat
  next : Nat

def isFailure (name : String) : Bool := Go.contains name "syz_failure"
def isSync (name : String) : Bool := Go.contains name "syz_failure_sync"

def shiftSrvFailPos (p : SeedProg) (shiftPos : Nat) (delta : Int) : SeedProg :=
  { p with srvFailPos := p.srvFailPos.map fun item =>
      item.modify 1 fun pos => if pos ≥ shiftPos then pos + delta else pos }

def movedEntry (oldPos newPos : Nat) (pos : Int) : Int :=
  if pos = oldPos then newPos
  else if oldPos < newPos ∧ pos > oldPos ∧ pos ≤ newPos then pos - 1
  else if newPos < oldPos ∧ pos ≥ newPos ∧ pos < oldPos then pos + 1
  else pos

def moveSrvFailPosEntry (p : SeedProg) (oldPos newPos : Nat) : SeedProg :=
  if oldPos = newPos then p
  else { p with srvFailPos := p.srvFailPos.map fun item => item.modify 1 (movedEntry oldPos newPos) }

/-- Which pointers are complex, and the address and contents of one after it has been squashed and
its blob mutated. -/
structure AnyChoice where
  draw : Draw
  isComplexPtr : UInt64 → Option Arg → Bool
  squashed : UInt64 → Option Arg → UInt64 × Arg

mutual

/-- What an argument can become: one of its complex pointers, as `ForeachArg` visits them, is
squashed. -/
def squashesOf (ch : AnyChoice) : Arg → List Arg
  | .pointer address res =>
    if ch.isComplexPtr address res then [.pointer (ch.squashed address res).1 (some (ch.squashed address res).2)]
    else (squashesOfOption ch res).map fun res => .pointer address (some res)
  | .group inner => (squashesOfList ch inner).map .group
  | .union option => (squashesOf ch option).map .union
  | .const _ | .data _ | .outData _ | .result _ _ _ => []

def squashesOfList (ch : AnyChoice) : List Arg → List (List Arg)
  | [] => []
  | arg :: rest => (squashesOf ch arg).map (· :: rest) ++ (squashesOfList ch rest).map (arg :: ·)

def squashesOfOption (ch : AnyChoice) : Option Arg → List Arg
  | none => []
  | some arg => squashesOf ch arg

end

def CallObj.withArgs (o : CallObj) (args : List Arg) : CallObj := { o with call := { o.call with args } }

def squashesOfCalls (ch : AnyChoice) : List CallObj → List (List CallObj)
  | [] => []
  | o :: rest =>
    ((squashesOfList ch o.call.args).map fun args => o.withArgs args :: rest) ++ (squashesOfCalls ch rest).map (o :: ·)

def squashAny (m : Mutator) (ch : AnyChoice) : Mutator :=
  let complexPtrs := squashesOfCalls ch m.p.calls
  match complexPtrs[ch.draw.intn complexPtrs.length]? with
  | none => m
  | some calls => { m with p := { m.p with calls } }

/-- A call and its resource constructors, as the generator makes them for a name of the target:
failure calls are generated under their own names only. -/
structure Generator where
  generateParticularCall : String → List Call
  plain : ∀ name, isFailure name = false → ∀ call ∈ generateParticularCall name,
    isFailure call.name = false ∧ call.isFCall = false

/-- `c2san` holds the draws of its branch, if that is taken, and `names` the names that the choice
table draws. -/
structure InsertChoice where
  point : Draw
  gen : Generator
  names : Nat → String
  c2san : Option (Draw × Draw) := none
  dflt : ResultId → UInt64 := fun _ => 0

def c2sanName (draws : Draw × Draw) : String :=
  if draws.1.intn 10 < 1 then "sync" else if draws.2.intn 10 < 4 then "fdatasync" else "fsync"

/-- Failure calls are drawn again, and after twenty of them nothing is generated. -/
def generateCall (ch : InsertChoice) : List Call :=
  match ch.c2san with
  | some draws => ch.gen.generateParticularCall (c2sanName draws)
  | none =>
    match (List.range 20).find? fun cnt => !isFailure (ch.names cnt) with
    | some cnt => ch.gen.generateParticularCall (ch.names cnt)
    | none => []

/-- `insertBefore` with the new objects: before the call object `c`, or at the end for `nil`. -/
def Mutator.insertBefore (m : Mutator) (c : Option Nat) (calls : List Call) : Mutator :=
  let idx := m.p.calls.findIdx fun o => some o.ref == c
  { m with
    p := { m.p with calls := Edits.insertAt m.p.calls idx (calls.mapIdx fun i call => ⟨m.next + i, call⟩) }
    next := m.next + calls.length }

/-- `RemoveCall` and the shift that follows it everywhere. -/
def removeCallAt (dflt : ResultId → UInt64) (p : SeedProg) (idx : Nat) : SeedProg :=
  shiftSrvFailPos { p with calls := removeAt dflt p.calls idx } idx (-1)

/-- The loop that trims an insertion: `n` calls are too many. -/
def trimAt (dflt : ResultId → UInt64) (idx : Nat) : Nat → SeedProg → SeedProg
  | 0, p => p
  | n + 1, p => trimAt dflt idx n (removeCallAt dflt p idx)

def insertCall (m : Mutator) (ch : InsertChoice) : Mutator :=
  if m.p.calls.length ≥ m.ncalls then m
  else
    let idx := ch.point.intn (m.p.calls.length + 1)
    let calls := generateCall ch
    if calls.length = 0 then m
    else
      let m := m.insertBefore (m.p.calls[idx]?.map CallObj.ref) calls
      let p := shiftSrvFailPos m.p idx calls.length
      { m with p := trimAt ch.dflt idx (p.calls.length - m.ncalls) p }

/-- A call that is no failure call, in at most 21 draws. -/
def chosenPlain (calls : List CallObj) (draw : Nat → Draw) : Option Nat :=
  (List.range 21).findSome? fun cnt =>
    let idx := (draw cnt).intn calls.length
    match calls[idx]? with
    | some o => if isFailure o.name then none else some idx
    | none => none

structure RemoveChoice where
  draw : Nat → Draw
  dflt : ResultId → UInt64 := fun _ => 0

def removeCall (m : Mutator) (ch : RemoveChoice) : Mutator :=
  match chosenPlain m.p.calls ch.draw with
  | none => m
  | some idx => { m with p := removeCallAt ch.dflt m.p idx }

/-- One round: the new arguments of the call, the results that went with the old ones, and the
calls that the new arguments need. -/
structure ArgRound where
  args : List Arg
  gone : List ResultId := []
  calls : List Call := []
  plain : ∀ call ∈ calls, isFailure call.name = false ∧ call.isFCall = false

/-- `noPrio` is the case in which `chooseCall` finds no call with arguments. -/
structure ArgChoice where
  draw : Nat → Draw
  noPrio : Bool := false
  rounds : List ArgRound
  dflt : ResultId → UInt64 := fun _ => 0

/-- The trimming loop of `mutateArg`, which takes the call before the mutated one each time. -/
def trimBefore (dflt : ResultId → UInt64) : Nat → SeedProg × Nat → SeedProg × Nat
  | 0, (p, idx) => (p, idx)
  | n + 1, (p, idx) => trimBefore dflt n (removeCallAt dflt p (idx - 1), idx - 1)

def setArgs (dflt : ResultId → UInt64) (calls : List CallObj) (c : Nat) (round : ArgRound) : List CallObj :=
  calls.map fun o => detachCall dflt round.gone (if o.ref = c then o.withArgs round.args else o)

def argRound (dflt : ResultId → UInt64) (c : Nat) : Mutator × Nat → ArgRound → Mutator × Nat
  | (m, idx), round =>
    let m := { m with p := { m.p with calls := setArgs dflt m.p.calls c round } }
    let m := m.insertBefore (some c) round.calls
    let p := shiftSrvFailPos m.p idx round.calls.length
    let (p, idx) := trimBefore dflt (p.calls.length - m.ncalls) (p, idx + round.calls.length)
    ({ m with p }, idx)

def mutateArg (m : Mutator) (ch : ArgChoice) : Mutator :=
  if ch.noPrio then m
  else
    match chosenPlain m.p.calls ch.draw with
    | none => m
    | some idx =>
      match m.p.calls[idx]? with
      | none => m
      | some o => (ch.rounds.foldl (argRound ch.dflt o.ref) (m, idx)).1

/-- The search upwards from `idx`; `loc` is still zero when it meets a failure call. -/
def lastNNonFailCall (calls : List CallObj) (nOutOf : Nat → Bool) (idx : Nat) : Option Nat :=
  (List.range (idx + 1)).reverse.findSome? fun i =>
    match calls[i]? with
    | some o => if isFailure o.name then some 0 else if nOutOf i then some i else none
    | none => none

/-- The search downwards from `idx`, past other failure calls. -/
def nextNNonFailCall (calls : List CallObj) (nOutOf : Nat → Bool) (idx : Nat) : Option Nat :=
  (List.range' idx (calls.length - idx)).find? fun i =>
    match calls[i]? with
    | some o => !isFailure o.name && nOutOf i
    | none => false

/-- `up` and `down` are the draws of the two searches in each attempt. -/
structure FailPosChoice where
  draw : Nat → Draw
  up : Nat → Nat → Bool
  down : Nat → Nat → Bool

/-- The sync that an attempt moves and where it goes. -/
def attemptedMove (calls : List CallObj) (ch : FailPosChoice) (cnt : Nat) : Option (Nat × Nat) :=
  let idx := (ch.draw cnt).intn calls.length
  match calls[idx]? with
  | none => none
  | some o =>
    if isSync o.name then
      match o.call.args.head? with
      | some (.const id) =>
        let insertPoint :=
          if id % 2 = 0 then lastNNonFailCall calls (ch.up cnt) idx else nextNNonFailCall calls (ch.down cnt) idx
        insertPoint.map fun insertPoint => (idx, insertPoint)
      | _ => none
    else none

def chosenMove (calls : List CallObj) (ch : FailPosChoice) : Option (Nat × Nat) :=
  (List.range 21).findSome? (attemptedMove calls ch)

def mutateFailPos (m : Mutator) (ch : FailPosChoice) : Mutator :=
  match chosenMove m.p.calls ch with
  | none => m
  | some (idx, insertPoint) =>
    { m with p := moveSrvFailPosEntry { m.p with calls := Edits.move m.p.calls idx insertPoint } idx insertPoint }

inductive MutateStep where
  | squashAny (ch : AnyChoice)
  | insertCall (ch : InsertChoice)
  | removeCall (ch : RemoveChoice)
  | mutateArg (ch : ArgChoice)
  | mutateFailPos (ch : FailPosChoice)

def mutateStep (m : Mutator) : MutateStep → Mutator
  | .squashAny ch => squashAny m ch
  | .insertCall ch => insertCall m ch
  | .removeCall ch => removeCall m ch
  | .mutateArg ch => mutateArg m ch
  | .mutateFailPos ch => mutateFailPos m ch

/-- `Mutate` raises the allowed number of calls to the length of the program. -/
def newMutator (p : SeedProg) (ncalls next : Nat) : Mutator := { p, ncalls := max ncalls p.calls.length, next }

def runMutate (m : Mutator) (steps : List MutateStep) : Mutator := steps.foldl mutateStep m

end DfsFuzz.Mutation
