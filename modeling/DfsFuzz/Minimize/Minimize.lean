import DfsFuzz.Minimize.Args
import DfsFuzz.Mutation.Mutator

/-!
Minimization of a program group (`prog/minimization.go`). Candidates are made on clones and go to a
predicate, which sanitizes them in place first; what it accepts is committed. Integers and resource
references have a `minimize` of their own in the source that `argMinimizable` keeps from being
called, so they are left out.
-/

namespace DfsFuzz.Minimize

open DfsFuzz.Mutation (isFailure)

/-- A call with the names of its fields and its fault injection. Its `ref` tells it from the others
in every clone. -/
structure MinCall where
  ref : Nat
  name : String
  fields : List String := []
  args : List MinArg := []
  ret : Option ResultId := none
  failNth : Int := 0

abbrev MinProg := List MinCall

abbrev MinGroup := List MinProg

/-- What minimization takes from the target: the assignment of length arguments, the sanitizer, the
default of a result argument and the first special pointer. -/
structure Target where
  assignSizesCall : MinCall → MinCall
  sanitize : MinCall → MinCall
  dflt : ResultId → UInt64
  special : UInt64

structure Job where
  target : Target
  crash : Bool
  pred0 : MinGroup → Int → Bool

def Job.pred (job : Job) (ps : MinGroup) (callIndex : Int) : MinGroup × Bool :=
  let ps := ps.map fun p => p.map job.target.sanitize
  (ps, job.pred0 ps callIndex)

def detachCall (dflt : ResultId → UInt64) (gone : List ResultId) (c : MinCall) : MinCall :=
  { c with args := detachArgs dflt gone c.args }

def removeCall (dflt : ResultId → UInt64) (i : Nat) (p : MinProg) : MinProg :=
  match p[i]? with
  | none => p
  | some c => (p.eraseIdx i).map (detachCall dflt (resultsOfList c.args ++ c.ret.toList))

/-- A candidate without call `i` of program `j`; only that program is committed. -/
def tryRemove (job : Job) (ps0 : MinGroup) (j i : Nat) (callIndex : Int) : Option MinGroup :=
  match job.pred (ps0.modify j (removeCall job.target.dflt i)) callIndex with
  | (ps, true) => some (ps0.set j (ps.getD j []))
  | (_, false) => none

def removeStep (job : Job) (subNum : Int) (j i : Nat) (ps0 : MinGroup) (callIndex0 : Int) : MinGroup × Int :=
  if j = subNum then
    match ps0[j]?.bind fun p => p[i]? with
    | none => (ps0, callIndex0)
    | some c =>
      if i = callIndex0 || isFailure c.name then (ps0, callIndex0)
      else
        let callIndex := if i < callIndex0 then callIndex0 - 1 else callIndex0
        match tryRemove job ps0 j i callIndex with
        | some ps => (ps, callIndex)
        | none => (ps0, callIndex0)
  else
    -- no failure call is spared here
    match tryRemove job ps0 j i callIndex0 with
    | some ps => (ps, callIndex0)
    | none => (ps0, callIndex0)

/-- The calls of program `j` below `n`, the last one first. -/
def removeLoop (job : Job) (subNum : Int) (j : Nat) : Nat → MinGroup × Int → MinGroup × Int
  | 0, st => st
  | i + 1, st => removeLoop job subNum j i (removeStep job subNum j i st.1 st.2)

def removeProg (job : Job) (subNum srvNum : Int) (st : MinGroup × Int) (j : Nat) : MinGroup × Int :=
  if j < srvNum then st else removeLoop job subNum j (st.1.getD j []).length st

def removeCalls (job : Job) (ps0 : MinGroup) (callIndex0 subNum srvNum : Int) : MinGroup × Int :=
  (List.range ps0.length).foldl (removeProg job subNum srvNum) (ps0, callIndex0)

/-! ### Minimization of arguments -/

/-- The call in work is call `i` of program `j`. -/
structure ArgsCtx extends Job where
  callIndex0 : Int
  j : Nat
  i : Nat

structure ArgsState where
  ps0 : MinGroup
  ps : MinGroup
  triedPaths : List String

def ArgsCtx.call (ctx : ArgsCtx) (ps : MinGroup) : Option MinCall := ps[ctx.j]?.bind fun p => p[ctx.i]?

def ArgsCtx.modCall (ctx : ArgsCtx) (f : MinCall → MinCall) (ps : MinGroup) : MinGroup :=
  ps.modify ctx.j fun p => p.modify ctx.i f

/-- An edit of the arguments of the call, and its lengths assigned again. -/
def ArgsCtx.edit (ctx : ArgsCtx) (f : MinArg → MinArg) (loc : List Nat) (ps : MinGroup) : MinGroup :=
  ctx.modCall (fun c => ctx.target.assignSizesCall { c with args := modArgs f loc c.args }) ps

/-- Something with results is dropped from the call: the candidate is committed if it is accepted,
and either way the pass starts anew. -/
def ArgsCtx.drop (ctx : ArgsCtx) (gone : List ResultId) (f : MinArg → MinArg) (loc : List Nat) (path : String)
    (st : ArgsState) : Bool × ArgsState :=
  let ps := st.ps.modify ctx.j fun p => p.map (detachCall ctx.target.dflt gone)
  match ctx.pred (ctx.edit f loc ps) ctx.callIndex0 with
  | (ps, true) => (true, { ps0 := ps, ps, triedPaths := path :: st.triedPaths })
  | (ps, false) => (true, { st with ps, triedPaths := path :: st.triedPaths })

/-- The loop of `BufferType.minimize` on a buffer that holds the first `len` bytes of `bytes`. -/
def ArgsCtx.shrink (ctx : ArgsCtx) (loc : List Nat) (bytes : List UInt8) (minLen len step : Nat) (ps : MinGroup) :
    Nat × MinGroup :=
  if minLen < len ∧ 0 < step then
    if minLen + step ≤ len then
      match ctx.pred (ctx.edit (setData (bytes.take (len - step))) loc ps) ctx.callIndex0 with
      | (ps, true) => shrink ctx loc bytes minLen (len - step) step ps
      | (ps, false) =>
        let ps := ctx.edit (setData (bytes.take len)) loc ps
        if ctx.crash then (len, ps) else shrink ctx loc bytes minLen len (step / 2) ps
    else if ctx.crash then (len, ps)
    else shrink ctx loc bytes minLen len (step / 2) ps
  else (len, ps)
termination_by len + step
decreasing_by all_goals omega

def ArgsCtx.minimizeBuffer (ctx : ArgsCtx) (kind : BufferKind) (rangeBegin : Nat) (isOut : Bool) (bytes : List UInt8)
    (path : String) (loc : List Nat) (st : ArgsState) : Bool × ArgsState :=
  if (kind ≠ .blobRand && kind ≠ .blobRange) || isOut then (false, st)
  else
    let (len, ps) := ctx.shrink loc bytes rangeBegin bytes.length (bytes.length - rangeBegin) st.ps
    if len ≠ bytes.length then (true, { ps0 := ps, ps, triedPaths := path :: st.triedPaths })
    else (false, { st with ps })

/-- `do` around the `minimize` of a type. -/
def attempt (arg : MinArg) (path : String) (minimize : ArgsState → Bool × ArgsState) (st : ArgsState) : Bool × ArgsState :=
  if !argMinimizable arg || path ∈ st.triedPaths then (false, st)
  else
    match minimize st with
    | (true, st) => (true, st)
    | (false, st) => (false, { st with triedPaths := path :: st.triedPaths })

mutual

/-- `path` already has the name of the field. -/
def doArg (ctx : ArgsCtx) : MinArg → String → List Nat → ArgsState → Bool × ArgsState
  | .data kind rangeBegin isOut bytes, path, loc, st =>
    attempt (.data kind rangeBegin isOut bytes) path (ctx.minimizeBuffer kind rangeBegin isOut bytes path loc) st
  | .pointer address res, path, loc, st =>
    attempt (.pointer address res) path (fun st =>
      if path ++ ">" ∉ st.triedPaths then
        ctx.drop (resultsOf res) (dropTarget ctx.target.special) loc (path ++ ">") st
      else doArg ctx res (path ++ "-") (loc ++ [0]) st) st
  | .struct fields inner, path, loc, st =>
    attempt (.struct fields inner) path (doFields ctx inner fields path loc 0) st
  | .array kind rangeBegin inner, path, loc, st =>
    attempt (.array kind rangeBegin inner) path
      (doElems ctx inner (kind = .randLen || kind = .rangeLen && inner.length > rangeBegin) path loc 0) st
  | .union field option, path, loc, st =>
    attempt (.union field option) path (doArg ctx option (path ++ "-" ++ field) (loc ++ [0])) st
  | .const _, _, _, st | .result _ _ _, _, _, st | .null _, _, _, st => (false, st)

def doFields (ctx : ArgsCtx) : List MinArg → List String → String → List Nat → Nat → ArgsState → Bool × ArgsState
  | [], _, _, _, _, st => (false, st)
  | arg :: rest, fields, path, loc, k, st =>
    match doArg ctx arg (path ++ "-" ++ fields.headD "") (loc ++ [k]) st with
    | (true, st) => (true, st)
    | (false, st) => doFields ctx rest fields.tail path loc (k + 1) st

/-- The elements from the last one down; `removable` is whether the type allows fewer. -/
def doElems (ctx : ArgsCtx) : List MinArg → Bool → String → List Nat → Nat → ArgsState → Bool × ArgsState
  | [], _, _, _, _, st => (false, st)
  | elem :: rest, removable, path, loc, k, st =>
    match doElems ctx rest removable path loc (k + 1) st with
    | (true, st) => (true, st)
    | (false, st) =>
      let elemPath := path ++ "-" ++ toString k
      if !ctx.crash && elemPath ∉ st.triedPaths && removable then
        ctx.drop (resultsOf elem) (dropElem k) loc elemPath st
      else doArg ctx elem (elemPath ++ "-") (loc ++ [k]) st

end

/-- The passes over the arguments of one call, each on a new clone, until one finds nothing to try. -/
def ArgsCtx.minimizeArgs (ctx : ArgsCtx) : Nat → MinGroup → List String → Option MinGroup
  | 0, _, _ => none
  | fuel + 1, ps0, triedPaths =>
    match ctx.call ps0 with
    | none => some ps0
    | some c =>
      match doFields ctx c.args c.fields "" [] 0 { ps0, ps := ps0, triedPaths } with
      | (true, st) => minimizeArgs ctx fuel st.ps0 st.triedPaths
      | (false, st) => some st.ps0

def ArgsCtx.minimizeCallProps (ctx : ArgsCtx) (ps0 : MinGroup) : MinGroup :=
  match ctx.call ps0 with
  | none => ps0
  | some c =>
    if c.failNth > 0 then
      match ctx.pred (ctx.modCall (fun c => { c with failNth := 0 }) ps0) ctx.callIndex0 with
      | (ps, true) => ps
      | (_, false) => ps0
    else ps0

def ArgsCtx.minimizeCall (ctx : ArgsCtx) (fuel : Nat) (ps0 : MinGroup) : Option MinGroup :=
  match ctx.call ps0 with
  | none => some ps0
  | some c =>
    if isFailure c.name then some ps0 else (ctx.minimizeArgs fuel ps0 []).map ctx.minimizeCallProps

/-- What keeps `Minimize` from returning: its panics, and no passes left. -/
inductive Stop where
  | badCallIndex | badCallIndexAfter | outOfRange | outOfFuel
deriving DecidableEq

/-- `ps[subNum].Calls[callIndex]` -/
def callAt (ps : MinGroup) (subNum callIndex : Int) : Except Stop MinCall :=
  if callIndex < 0 then .error .badCallIndex
  else if subNum < 0 ∨ ps.length ≤ subNum then .error .outOfRange
  else
    match (ps.getD subNum.toNat [])[callIndex.toNat]? with
    | some c => .ok c
    | none => .error .badCallIndex

/-- The places of the calls of the clients, in the order in which they are minimized. No call is added
or removed meanwhile. -/
def places (srvNum : Nat) (ps : MinGroup) : List (Nat × Nat) :=
  (List.range' srvNum (ps.length - srvNum)).flatMap fun j => (List.range (ps.getD j []).length).map fun i => (j, i)

def minimizeCalls (job : Job) (fuel : Nat) (callIndex0 : Int) : List (Nat × Nat) → MinGroup → Option MinGroup
  | [], ps0 => some ps0
  | (j, i) :: rest, ps0 =>
    (ArgsCtx.minimizeCall { job with callIndex0, j, i } fuel ps0).bind (minimizeCalls job fuel callIndex0 rest)

def nameBefore (ps0 : MinGroup) (callIndex0 subNum : Int) : Except Stop String :=
  if callIndex0 = -1 then .ok "" else (callAt ps0 subNum callIndex0).map fun c => c.name

def checkAfter (ps : MinGroup) (callIndex0 subNum : Int) (name0 : String) : Except Stop Unit :=
  if callIndex0 = -1 then .ok ()
  else
    match callAt ps subNum callIndex0 with
    | .ok c => if c.name = name0 then .ok () else .error .badCallIndexAfter
    | .error _ => .error .badCallIndexAfter

/-- Minimization with at most `fuel` passes for each call. -/
def minimize (job : Job) (fuel : Nat) (ps0 : MinGroup) (callIndex0 subNum srvNum : Int) : Except Stop (MinGroup × Int) := do
  let name0 ← nameBefore ps0 callIndex0 subNum
  let (ps0, callIndex0) := removeCalls job ps0 callIndex0 subNum srvNum
  -- the loop over the clients starts with a read of `ps0[srvNum]`
  if srvNum < 0 then .error .outOfRange
  else
    match minimizeCalls job fuel callIndex0 (places srvNum.toNat ps0) ps0 with
    | none => .error .outOfFuel
    | some ps => (checkAfter ps callIndex0 subNum name0).map fun _ => (ps, callIndex0)

end DfsFuzz.Minimize
