import DfsFuzz.Mutation.Dcache

/-!
The mutations of stash seeds (`prog/mutation.go`). In such a seed `ps[0]` writes around a failure
window of six calls whose ends `GeneralFailPos[0]` records, and the other programs read back what
was written.
-/

namespace DfsFuzz.Mutation

open DfsFuzz.Choice

/-- A group and the result objects behind its arguments: who is in the `uses` set of whom, and the
number of the next object. -/
structure StashGroup where
  progs : List SeedProg
  uses : List (ResultId × ResultId) := []
  next : Nat := 0

/-- What one mutation draws: the results of `Intn` in order, which calls the target has, and the
buffer, size, position and address that the call builders draw. -/
structure StashChoice where
  draw : Nat → Draw
  has : String → Bool := fun _ => true
  bufData : List UInt8 := []
  bufSize : UInt64 := 0
  pos : UInt64 := 0
  addr : UInt64 := 0
  dflt : ResultId → UInt64 := fun _ => 0

def stashChoice (draws : List Nat) : StashChoice := { draw := fun i => fixedDraw (draws.getD i 0) }

/-- `MakeResultArg` for a result `res`: a new object, entered into the `uses` set of `res`. -/
def makeResultArg (g : StashGroup) (res : ResultId) : ResultId × StashGroup :=
  (g.next, { g with uses := (res, g.next) :: g.uses, next := g.next + 1 })

def moveFailCalls (calls : List CallObj) (oldPos newPos : Int) : Option (List CallObj) :=
  if oldPos = newPos || oldPos < 0 || newPos < 0 then none
  else if oldPos + 6 > calls.length || newPos + 6 > calls.length then none
  else
    let failCalls := (calls.drop oldPos.toNat).take 6
    let remainingBefore := calls.take oldPos.toNat
    let remainingAfter := calls.drop (oldPos.toNat + 6)
    if newPos < oldPos then
      some (remainingBefore.take newPos.toNat ++ failCalls ++ (remainingBefore.drop newPos.toNat ++ remainingAfter))
    else
      let delta := (newPos - oldPos).toNat
      some (remainingBefore ++ remainingAfter.take delta ++ (failCalls ++ remainingAfter.drop delta))

/-- One row of the table: the moved calls and the new row, or `none` where the loop continues. -/
def failPosStep (calls : List CallObj) (failPos : List Int) (shiftDraw : Draw) : Option (List CallObj × List Int) :=
  if failPos.length < 4 then none
  else
    let failStart := failPos.getD 1 0
    let failEnd := failPos.getD 3 0
    if failStart ≤ 0 || failEnd ≤ failStart then none
    else
      let shift := shiftOf shiftDraw
      let newFailStart := if failStart + shift < 1 then 1 else failStart + shift
      let newFailEnd := if failStart + shift < 1 then 1 + (failEnd - failStart) else failEnd + shift
      (moveFailCalls calls failStart newFailStart).map fun moved =>
        (moved, (failPos.set 1 newFailStart).set 3 newFailEnd)

def failPosRows (p : SeedProg) (draw : Nat → Draw) : List (List Int × Nat) → Option SeedProg
  | [] => none
  | (failPos, r) :: rest =>
    match failPosStep p.calls failPos (draw r) with
    | some (calls, failPos) => some { p with calls, generalFailPos := p.generalFailPos.set r failPos }
    | none => failPosRows p draw rest

def failPosLoop (g : StashGroup) (draw : Nat → Nat → Draw) : List (SeedProg × Nat) → StashGroup × Bool
  | [] => (g, false)
  | (p, pidx) :: rest =>
    if !p.hasNetFail || p.generalFailPos.length = 0 then failPosLoop g draw rest
    else
      match failPosRows p (draw pidx) p.generalFailPos.zipIdx with
      | some p => ({ g with progs := g.progs.set pidx p }, true)
      | none => failPosLoop g draw rest

/-- `draw pidx r` is the draw for row `r` of program `pidx`. -/
def mutateStashFailPos (g : StashGroup) (draw : Nat → Nat → Draw) : StashGroup × Bool :=
  failPosLoop g draw g.progs.zipIdx

/-- The builders put the result object of the open itself into the new call. -/
def fdArg (fd : ResultId) : Arg := .result fd none 0

def readCall (addr : UInt64) (fd : ResultId) (offset length : UInt64) : Call :=
  { name := "pread64", args := [fdArg fd, .pointer addr (some (.outData length)), .const length, .const offset] }

def genPwriteCallWithFd (ch : StashChoice) (fd : ResultId) : Option Call :=
  if ch.has "pwrite64" then
    some { name := "pwrite64",
           args := [fdArg fd, .pointer ch.addr (some (.data ch.bufData)), .const (UInt64.ofNat ch.bufData.length),
             .const ch.pos] }
  else none

def genPreadCallWithFd (ch : StashChoice) (fd : ResultId) : Option Call :=
  if ch.has "pread64" then some (readCall ch.addr fd ch.pos ch.bufSize) else none

def genPreadCallWithFdAt (ch : StashChoice) (fd : ResultId) (offset length : UInt64) : Option Call :=
  if ch.has "pread64" then some (readCall ch.addr fd offset length) else none

/-- `genFsyncCallWithFd` and `genFdatasyncCallWithFd`. -/
def genSyncCallWithFd (name : String) (ch : StashChoice) (fd : ResultId) : Option Call :=
  if ch.has name then some { name, args := [fdArg fd] } else none

def genFsyncCallWithFd : StashChoice → ResultId → Option Call := genSyncCallWithFd "fsync"
def genFdatasyncCallWithFd : StashChoice → ResultId → Option Call := genSyncCallWithFd "fdatasync"

def usesFd (call : Call) (openRet : ResultId) : Bool :=
  call.args.any fun arg => match arg with
    | .result _ (some res) _ => res == openRet
    | _ => false

structure FdRange where
  openIdx : Nat
  closeIdx : Nat
  fd : ResultId

/-- The search for the close of an open: the probe is compared, not the result it refers to. -/
def correspondingClose (calls : List CallObj) (openIdx : Nat) (fdarg : ResultId) : Nat :=
  let found := (indicesWhere calls fun name => Go.contains name "close").find? fun closeIdx =>
    closeIdx > openIdx && match calls[closeIdx]? with
      | some o => usesFd o.call fdarg
      | none => false
  found.getD calls.length

def fdRangesFrom (calls : List CallObj) (g : StashGroup) : List Nat → List FdRange × StashGroup
  | [] => ([], g)
  | openIdx :: rest =>
    match calls[openIdx]?.bind fun o => o.call.ret with
    | none => fdRangesFrom calls g rest
    | some fd =>
      let (fdarg, g) := makeResultArg g fd
      let (ranges, g) := fdRangesFrom calls g rest
      (⟨openIdx, correspondingClose calls openIdx fdarg, fd⟩ :: ranges, g)

def openIndices (calls : List CallObj) : List Nat := indicesWhere calls fun name => Go.contains name "open"

def stashCallTypes : List String := ["pwrite64", "pread64", "fsync", "fdatasync"]

def genStashCall (callType : String) (ch : StashChoice) (fd : ResultId) : Option Call :=
  if callType = "pwrite64" then genPwriteCallWithFd ch fd
  else if callType = "pread64" then genPreadCallWithFd ch fd
  else if callType = "fsync" then genFsyncCallWithFd ch fd
  else genFdatasyncCallWithFd ch fd

/-- The slots for a new call: before the window, behind it, or anywhere if both are empty. -/
def insertSlots (validStart validEnd failStart failEnd : Int) : List (Int × Int) :=
  let before := if failStart > validStart && failStart < validEnd then [(validStart, failStart)] else []
  let behind := if failEnd + 1 ≥ validStart && failEnd + 1 < validEnd then [(failEnd + 1, validEnd)] else []
  if before ++ behind = [] then [(validStart, validEnd)] else before ++ behind

/-- The ends of the window that the program records, -1 where it records none. -/
def failWindow (p : SeedProg) : Int × Int :=
  match p.generalFailPos with
  | [] => (-1, -1)
  | failPos :: _ => if failPos.length < 4 then (-1, -1) else (failPos.getD 1 0, failPos.getD 3 0)

def insertPosIn (slots : List (Int × Int)) (slotDraw posDraw : Draw) : Int :=
  let slot := slots.getD (slotDraw.intn slots.length) (0, 0)
  slot.1 + posDraw.intn (slot.2 - slot.1).toNat

def bumpWindow (p : SeedProg) : SeedProg :=
  { p with generalFailPos := p.generalFailPos.modify 0 fun failPos =>
      (failPos.modify 1 (· + 1)).modify 3 (· + 1) }

/-! ### Read verification -/

def isRead (name : String) : Bool := Go.contains name "pread64"

/-- Only the entries of the node's two keys move; a position that equals a key is taken for one. -/
def shiftFailPosRow (startKey endKey shiftPos delta : Int) (failPos : List Int) : List Int :=
  (List.range (failPos.length - 1)).foldl (fun row i =>
    if (row.getD i 0 = startKey || row.getD i 0 = endKey) && row.getD (i + 1) 0 > 0 && row.getD (i + 1) 0 ≥ shiftPos then
      row.set (i + 1) (row.getD (i + 1) 0 + delta)
    else row) failPos

def shiftGeneralFailPos (ps : List SeedProg) (progIdx : Nat) (shiftPos delta : Int) : List SeedProg :=
  let shiftRow := shiftFailPosRow (progIdx * 100 + 1) (progIdx * 100 + 2) shiftPos delta
  ps.modify 0 fun p => { p with generalFailPos := p.generalFailPos.map shiftRow }

def readersOf (ps : List SeedProg) (writer : Nat) : List (SeedProg × Nat) :=
  ps.zipIdx.filter fun q => q.2 ≠ writer && q.1.isStash && q.1.calls.any fun o => isRead o.name

def writerPathOf (calls : List CallObj) : String :=
  ((openIndices calls).filterMap fun idx =>
    match calls[idx]? with
    | some o => if extractPathFromCall o.call ≠ "" then some (extractPathFromCall o.call) else none
    | none => none).headD ""

def fdOfOpen (calls : List CallObj) (idx : Nat) : Option ResultId := calls[idx]?.bind fun o => o.call.ret

/-- The reader's open of the writer's file, else any open. -/
def readerFd (calls : List CallObj) (writerPath : String) : Option ResultId :=
  let matching := (openIndices calls).filter fun idx =>
    writerPath = "" || (calls[idx]?.map fun o => extractPathFromCall o.call) == some writerPath
  match matching.findSome? (fdOfOpen calls) with
  | some fd => some fd
  | none => (openIndices calls).findSome? (fdOfOpen calls)

def verificationIdx (calls : List CallObj) : Nat :=
  match (indicesWhere calls isRead).getLast? with
  | some i => i + 1
  | none => calls.length

def chosenReader (ps : List SeedProg) (writer : Nat) (draw : Draw) : Option (SeedProg × Nat) :=
  (readersOf ps writer)[draw.intn (readersOf ps writer).length]?

def addStashReadVerification (g : StashGroup) (writer : Nat) (ch : StashChoice) (offset length : UInt64) : StashGroup :=
  match chosenReader g.progs writer (ch.draw 5), g.progs[writer]? with
  | some (reader, readerIdx), some writerProg =>
    match (readerFd reader.calls (writerPathOf writerProg.calls)).bind fun fd => genPreadCallWithFdAt ch fd offset length with
    | none => g
    | some call =>
      let insertIdx := verificationIdx reader.calls
      let calls := Edits.insertAt reader.calls insertIdx [⟨g.next, call⟩]
      { g with
        progs := shiftGeneralFailPos (setCalls g.progs readerIdx calls) readerIdx insertIdx 1
        next := g.next + 1 }
  | _, _ => g

/-- The region of a write whose arguments are as the builder leaves them. -/
def writeRegion (call : Call) : Option (UInt64 × UInt64) :=
  match call.args with
  | _ :: _ :: .const length :: .const offset :: _ => some (offset, length)
  | _ => none

/-- The position drawn for a new call behind the open of `range`. -/
def stashInsertPos (p : SeedProg) (range : FdRange) (slotDraw posDraw : Draw) : Int :=
  insertPosIn (insertSlots (range.openIdx + 1) range.closeIdx (failWindow p).1 (failWindow p).2) slotDraw posDraw

/-- The program with a new call; what comes before the window moves its recorded ends. -/
def withCallAt (p : SeedProg) (insertPos : Int) (o : CallObj) : SeedProg :=
  let inserted := { p with calls := Edits.insertAt p.calls insertPos.toNat [o] }
  if (failWindow p).1 ≥ 0 && insertPos ≤ (failWindow p).1 then bumpWindow inserted else inserted

/-- The insertion proper, once the call is built: slot, position, table and verification. -/
def placeStashCall (g : StashGroup) (pidx : Nat) (p : SeedProg) (ch : StashChoice) (range : FdRange) (callType : String)
    (newCall : Call) : StashGroup × Bool :=
  let validStart : Int := range.openIdx + 1
  let validEnd : Int := range.closeIdx
  if validStart ≥ validEnd then (g, false)
  else
    let p := withCallAt p (stashInsertPos p range (ch.draw 3) (ch.draw 4)) ⟨g.next, newCall⟩
    let g := { g with progs := g.progs.set pidx p, next := g.next + 1 }
    if callType = "pwrite64" then
      match writeRegion newCall with
      | some (offset, length) => (addStashReadVerification g pidx ch offset length, true)
      | none => (g, true)
    else (g, true)

def fdRangesOf (g : StashGroup) (p : SeedProg) : List FdRange := (fdRangesFrom p.calls g (openIndices p.calls)).1

def chosenRange (g : StashGroup) (p : SeedProg) (draw : Draw) : Option FdRange :=
  (fdRangesOf g p)[draw.intn (fdRangesOf g p).length]?

def chosenType (draw : Draw) : String := stashCallTypes.getD (draw.intn stashCallTypes.length) ""

def insertStashCall (g : StashGroup) (pidx : Nat) (p : SeedProg) (ch : StashChoice) : StashGroup × Bool :=
  if p.calls.length = 0 then (g, false)
  else
    -- the probes stay in the uses sets whatever happens next
    let probed := (fdRangesFrom p.calls g (openIndices p.calls)).2
    match chosenRange g p (ch.draw 1) with
    | none => (probed, false)
    | some range =>
      match genStashCall (chosenType (ch.draw 2)) ch range.fd with
      | none => (probed, false)
      | some newCall => placeStashCall probed pidx p ch range (chosenType (ch.draw 2)) newCall

def isStashCandidate (name : String) : Bool := Go.contains name "pwrite64" || Go.contains name "pread64"

/-- `RemoveCall` with the `uses` sets: the call's objects leave them and theirs are emptied. -/
def StashGroup.removeCall (g : StashGroup) (pidx : Nat) (calls : List CallObj) (dflt : ResultId → UInt64) (idx : Nat) :
    StashGroup :=
  let gone := ((calls[idx]?).map fun o => callResults o.call).getD []
  { g with
    progs := setCalls g.progs pidx (removeAt dflt calls idx)
    uses := g.uses.filter fun use => use.1 ∉ gone && use.2 ∉ gone }

def chosenRemoval (p : SeedProg) (draw : Draw) : Option Nat :=
  (indicesWhere p.calls isStashCandidate)[draw.intn (indicesWhere p.calls isStashCandidate).length]?

def removeStashCall (g : StashGroup) (pidx : Nat) (p : SeedProg) (ch : StashChoice) : StashGroup × Bool :=
  if p.calls.length ≤ 3 then (g, false)
  else
    match chosenRemoval p (ch.draw 1) with
    | none => (g, false)
    -- the table is not updated here
    | some idx => (g.removeCall pidx p.calls ch.dflt idx, true)

def mutateStashOpSequence (g : StashGroup) (ch : StashChoice) : StashGroup × Bool :=
  match g.progs.findIdx? SeedProg.isStash with
  | none => (g, false)
  | some pidx =>
    match g.progs[pidx]? with
    | none => (g, false)
    | some p => if (ch.draw 0).intn 2 = 0 then insertStashCall g pidx p ch else removeStashCall g pidx p ch

end DfsFuzz.Mutation
