import DfsFuzz.Choice.Relation
import DfsFuzz.Mutation.Program

/-!
The mutations of dcache seeds (`prog/mutation.go`) and the table of barrier positions. Every program
of such a seed waits at one barrier, and `ps[0].GeneralBarrierPos[0]` records where.
-/

namespace DfsFuzz.Mutation

open DfsFuzz.Choice

/-- The draw that always gives `k`, as far as the range allows. -/
def fixedDraw (k : Nat) : Draw := ⟨fun n => k % n, fun _ positive => Nat.mod_lt _ positive⟩

/-- A call as a generator returns it: a new object with these arguments. -/
structure NewCall where
  ref : Nat
  args : List Arg := []
  ret : Option ResultId := none

def NewCall.named (c : NewCall) (name : String) : CallObj := ⟨c.ref, { name, args := c.args, ret := c.ret }⟩

/-- What one mutation draws: the results of `Intn` in order, and the call that a generator returns
for a call name and a path (`none` where the target lacks the call). -/
structure DcacheChoice where
  draw : Nat → Draw
  gen : String → String → Option NewCall
  dflt : ResultId → UInt64

def barrierRow (ps : List SeedProg) : List Int := ((ps.head?.map fun p0 => p0.generalBarrierPos.headD [])).getD []

def setBarrierPos (ps : List SeedProg) (pidx : Nat) (pos : Int) : List SeedProg :=
  ps.modify 0 fun p0 => { p0 with generalBarrierPos := p0.generalBarrierPos.modify 0 fun row => row.set pidx pos }

def updateBarrierPosTable (ps : List SeedProg) (pidx : Nat) (shiftPos delta : Int) : List SeedProg :=
  match (barrierRow ps)[pidx]? with
  | none => ps
  | some b => if shiftPos ≤ b then setBarrierPos ps pidx (b + delta) else ps

def setCalls (ps : List SeedProg) (pidx : Nat) (calls : List CallObj) : List SeedProg :=
  ps.modify pidx fun p => { p with calls }

theorem setCalls_eq_set {ps : List SeedProg} {pidx : Nat} {p : SeedProg} (here : ps[pidx]? = some p)
    (calls : List CallObj) : setCalls ps pidx calls = ps.set pidx { p with calls } := Edits.modify_eq_set here _

def dcacheCallTypes : List String := ["mkdir", "rmdir", "creat", "unlink", "getdents64", "rename"]

def collectPaths (calls : List CallObj) : List String :=
  ((calls.map fun o => extractPathFromCall o.call).filter fun path => path ≠ "").eraseDups

def dirCandidates (calls : List CallObj) : List String :=
  let dirs := collectPaths (calls.filter fun o => Go.contains o.name "mkdir" || Go.contains o.name "rmdir")
  if dirs = [] then collectPaths calls else dirs

/-- open, getdents64 and close on a directory of the seed; the draws are the directory and the
position. -/
def insertGetdents64Call (ps : List SeedProg) (pidx : Nat) (p : SeedProg) (path pos : Draw)
    (gen : String → String → Option NewCall) : List SeedProg × Bool :=
  match (dirCandidates p.calls)[path.intn (dirCandidates p.calls).length]? with
  | none => (ps, false)
  | some dirPath =>
    match gen "open" dirPath, gen "getdents64" dirPath, gen "close" dirPath with
    | some openCall, some gdCall, some closeCall =>
      if openCall.ret = none then (ps, false)
      else
        let insertPos := pos.intn (p.calls.length + 1)
        let newCalls := [openCall.named "open", gdCall.named "getdents64", closeCall.named "close"]
        (updateBarrierPosTable (setCalls ps pidx (Edits.insertAt p.calls insertPos newCalls)) pidx insertPos 3, true)
    | _, _, _ => (ps, false)

def insertDcacheCall (ps : List SeedProg) (pidx : Nat) (p : SeedProg) (ch : DcacheChoice) : List SeedProg × Bool :=
  if p.calls.length = 0 then (ps, false)
  else
    let callType := dcacheCallTypes.getD ((ch.draw 1).intn dcacheCallTypes.length) ""
    if callType = "getdents64" then insertGetdents64Call ps pidx p (ch.draw 2) (ch.draw 3) ch.gen
    else
      let insertPos := (ch.draw 2).intn (p.calls.length + 1)
      match ch.gen callType "" with
      | none => (ps, false)
      -- the table is not updated here
      | some newCall => (setCalls ps pidx (Edits.insertAt p.calls insertPos [newCall.named callType]), true)

def indicesWhere (calls : List CallObj) (test : String → Bool) : List Nat :=
  (calls.zipIdx.filter fun entry => test entry.1.name).map Prod.snd

theorem mem_indicesWhere {calls : List CallObj} {test : String → Bool} {k : Nat} :
    k ∈ indicesWhere calls test ↔ ∃ o, calls[k]? = some o ∧ test o.name = true := by
  simp only [indicesWhere, List.mem_map, List.mem_filter, Prod.exists, List.mem_zipIdx_iff_getElem?]
  constructor
  · rintro ⟨o, i, ⟨read, passes⟩, rfl⟩
    exact ⟨o, read, passes⟩
  · rintro ⟨o, read, passes⟩
    exact ⟨o, k, ⟨read, passes⟩, rfl⟩

def isDcacheCandidate (name : String) : Bool :=
  Go.contains name "mkdir" || Go.contains name "rmdir" || Go.contains name "creat" || Go.contains name "unlink" ||
    Go.contains name "getdents64" || Go.contains name "rename"

def removeDcacheCall (ps : List SeedProg) (pidx : Nat) (p : SeedProg) (ch : DcacheChoice) : List SeedProg × Bool :=
  if p.calls.length ≤ 2 then (ps, false)
  else
    let candidates := indicesWhere p.calls isDcacheCandidate
    match candidates[(ch.draw 1).intn candidates.length]? with
    | none => (ps, false)
    | some idx => (updateBarrierPosTable (setCalls ps pidx (removeAt ch.dflt p.calls idx)) pidx idx (-1), true)

def isSwappable (name : String) : Bool :=
  !(Go.contains name "syz_failure" || Go.contains name "open" || Go.contains name "close" || Go.contains name "getdents64")

def swapAt (calls : List CallObj) (idx1 idx2 : Nat) : List CallObj :=
  match calls[idx1]?, calls[idx2]? with
  | some a, some b => (calls.set idx1 b).set idx2 a
  | _, _ => calls

/-- The second index is drawn until it differs; `ch.draw 2` is the draw that ends the loop. -/
def swapDcacheCalls (ps : List SeedProg) (pidx : Nat) (p : SeedProg) (ch : DcacheChoice) : List SeedProg × Bool :=
  if p.calls.length < 3 then (ps, false)
  else
    let candidates := indicesWhere p.calls isSwappable
    if candidates.length < 2 then (ps, false)
    else
      let idx1 := candidates.getD ((ch.draw 1).intn candidates.length) 0
      let idx2 := candidates.getD ((ch.draw 2).intn candidates.length) 0
      if idx2 = idx1 then (ps, false) else (setCalls ps pidx (swapAt p.calls idx1 idx2), true)

def mutateDcacheOpType (ps : List SeedProg) (ch : DcacheChoice) : List SeedProg × Bool :=
  match ps.findIdx? SeedProg.isDCache with
  | none => (ps, false)
  | some pidx =>
    match ps[pidx]? with
    | none => (ps, false)
    | some p =>
      match (ch.draw 0).intn 3 with
      | 0 => insertDcacheCall ps pidx p ch
      | 1 => removeDcacheCall ps pidx p ch
      | _ => swapDcacheCalls ps pidx p ch

/-! ### Barrier moves -/

def barrierName : String := "syz_failure_barrier"

def isBarrier (name : String) : Bool := Go.contains name barrierName

/-- The `int` of the first argument, -1 where it is no constant. -/
def extractSyncId (call : Call) : Int :=
  match call.args.head? with
  | some (.const val) => val.toInt64.toInt
  | _ => -1

def updateGeneralFailPos (table : List (List Int)) (progIdx : Nat) (syncId newPos : Int) : List (List Int) :=
  let targetIdx : Int := progIdx * 100 + syncId + 1
  let hit (row : List Int) : Option Nat := (row.dropLast).findIdx? fun v => v = targetIdx
  match table.findIdx? fun row => (hit row).isSome with
  | none => table
  | some r => table.modify r fun row =>
      match hit row with
      | none => row
      | some i => row.set (i + 1) newPos

structure SyncInfo where
  callIdx : Nat
  syncId : Int
deriving DecidableEq

def syncInfosOf (calls : List CallObj) : List SyncInfo :=
  (indicesWhere calls isBarrier).filterMap fun callIdx =>
    match calls[callIdx]? with
    | none => none
    | some o => if extractSyncId o.call ≥ 0 then some ⟨callIdx, extractSyncId o.call⟩ else none

/-- `r.Intn(3) - 1`, with 1 in place of 0. -/
def shiftOf (draw : Draw) : Int := if draw.intn 3 = 1 then 1 else (draw.intn 3 : Int) - 1

/-- A start must stay before its end and an end behind its start. -/
def pairBlocks (syncInfos : List SyncInfo) (chosen : SyncInfo) (newCallIdx : Int) : Bool :=
  let pairSyncId := if chosen.syncId % 2 = 0 then chosen.syncId + 1 else chosen.syncId - 1
  match syncInfos.find? fun info => info.syncId = pairSyncId with
  | none => false
  | some pair =>
    (chosen.syncId % 2 = 0 && newCallIdx ≥ pair.callIdx) || (chosen.syncId % 2 = 1 && newCallIdx ≤ pair.callIdx)

/-- Where the body of the loop moves a barrier of `p`, or `none` where it continues. -/
def barrierMove (p : SeedProg) (which shiftDraw : Draw) : Option (SyncInfo × Nat) :=
  let syncInfos := syncInfosOf p.calls
  match syncInfos[which.intn syncInfos.length]? with
  | none => none
  | some chosen =>
    let newCallIdx : Int := chosen.callIdx + shiftOf shiftDraw
    if newCallIdx < 1 || newCallIdx ≥ (p.calls.length : Int) - 1 then none
    else if pairBlocks syncInfos chosen newCallIdx then none
    else some (chosen, newCallIdx.toNat)

def moveBarrier (ps : List SeedProg) (progIdx : Nat) (p : SeedProg) (chosen : SyncInfo) (newCallIdx : Nat) :
    List SeedProg :=
  let ps := setCalls ps progIdx (Edits.move p.calls chosen.callIdx newCallIdx)
  let ps := ps.modify 0 fun p0 =>
    { p0 with generalFailPos := updateGeneralFailPos p0.generalFailPos progIdx chosen.syncId newCallIdx }
  setBarrierPos ps progIdx newCallIdx

def syncPosLoop (ps : List SeedProg) (ch : DcacheChoice) : List (SeedProg × Nat) → List SeedProg × Bool
  | [] => (ps, false)
  | (p, progIdx) :: rest =>
    if !p.isDCache then syncPosLoop ps ch rest
    else
      match barrierMove p (ch.draw (2 * progIdx + 1)) (ch.draw (2 * progIdx + 2)) with
      | none => syncPosLoop ps ch rest
      | some (chosen, newCallIdx) => (moveBarrier ps progIdx p chosen newCallIdx, true)

def mutateDcacheSyncPos (ps : List SeedProg) (ch : DcacheChoice) : List SeedProg × Bool := syncPosLoop ps ch ps.zipIdx

inductive DcacheMutation where
  | opType | syncPos
deriving DecidableEq

/-- `MutateDcacheProg` without the change of path names, which leaves the calls in place. -/
def mutateDcacheProg (ps : List SeedProg) (mutType : DcacheMutation) (ch : DcacheChoice) : List SeedProg × Bool :=
  if ps.length = 0 then (ps, false)
  else
    match mutType with
    | .opType => mutateDcacheOpType ps ch
    | .syncPos => mutateDcacheSyncPos ps ch

end DfsFuzz.Mutation
