import DfsFuzz.Lib.SliceSort
import DfsFuzz.Prog.Types

/-!
Failure injection (`prog/mutation.go`, `prog/prog.go`). Every failed server gets a recv/send
block around its down and up calls; every client gets one start and one end sync per failed
server. `insertFailure` enumerates the positions of the syncs breadth first, client by client
and server by server. A `none` is a `log.Fatalf` or a failed type assertion.
-/

namespace DfsFuzz.Failure

structure SrvFailInfo where
  srv : Nat
  partNodes : List Nat := []

/-- What the generator draws for the failure calls of a server: `generateParticularCall` for a
named call, and the arguments of the network-down call on the state of the server's program. -/
structure FailGen where
  generateParticularCall : String → SrvFailInfo → List Call
  netDownArgs : SrvFailInfo → Prog → List Arg

abbrev Group := List Prog

def failureCall (name : String) (args : List UInt64) : Call :=
  { name := name, args := args.map Arg.const, isFCall := true }

def genSyncCall (idxArg : UInt64) (cltArg : Nat) : List Call × UInt64 :=
  ([failureCall "syz_failure_sync" [idxArg, UInt64.ofNat cltArg]], idxArg + 1)

def genRecvCall (idxArg : UInt64) : List Call := [failureCall "syz_failure_recv" [idxArg]]

def genSendCall (arg : UInt64) : List Call × UInt64 := ([failureCall "syz_failure_send" [arg]], arg + 1)

def markLast (calls : List Call) : List Call :=
  calls.modify (calls.length - 1) fun call => { call with isFCall := true }

def genDownCall (gen : FailGen) (crashFailure : Bool) (failInfo : SrvFailInfo) (p : Prog) : List Call :=
  if crashFailure then markLast (gen.generateParticularCall "syz_failure_down" failInfo)
  else [{ name := "syz_failure_net_down", args := gen.netDownArgs failInfo p, isFCall := true }]

def genUpCall (gen : FailGen) (crashFailure : Bool) (failInfo : SrvFailInfo) : List Call :=
  markLast (gen.generateParticularCall (if crashFailure then "syz_failure_up" else "syz_failure_net_up") failInfo)

def insertBefore (p : Prog) (loc : Nat) (calls : List Call) : Prog :=
  { p with calls := p.calls.take loc ++ (calls ++ p.calls.drop loc) }

def insertEnd (p : Prog) (calls : List Call) : Prog := { p with calls := p.calls ++ calls }

def genSrvFailCalls (gen : FailGen) (startIdx : UInt64) (crashFailure : Bool) (failInfo : SrvFailInfo) (p : Prog) :
    Prog × UInt64 :=
  let recv1 := genRecvCall startIdx
  let (send1, idx1) := genSendCall startIdx
  let recv2 := genRecvCall idx1
  let (send2, idx2) := genSendCall idx1
  (insertEnd p (recv1 ++ genDownCall gen crashFailure failInfo p ++ send1 ++ recv2 ++
    genUpCall gen crashFailure failInfo ++ send2), idx2)

def startCode (srv : Nat) : Nat := srv * 100 + 0 * 10 + 1
def endCode (srv : Nat) : Nat := srv * 100 + 0 * 10 + 2

def insertAtLast (cltSyncIdx : UInt64) (p : Prog) (clt : Nat) : Prog × UInt64 × Nat :=
  let (newCalls, next) := genSyncCall cltSyncIdx clt
  let p := insertEnd p newCalls
  (p, next, p.calls.length - 1)

/-- The target call is a pointer in the source and its position here. -/
def findAndInsert (cltSyncIdx : UInt64) (p : Prog) (clt : Nat) (target : Nat) : Prog × UInt64 × Nat :=
  let (newCalls, next) := genSyncCall cltSyncIdx clt
  (insertBefore p target newCalls, next, target)

def insertAtOrLast (cltSyncIdx : UInt64) (p : Prog) (clt : Nat) (inside : Bool) (target : Nat) :
    Prog × UInt64 × Nat :=
  if inside then findAndInsert cltSyncIdx p clt target else insertAtLast cltSyncIdx p clt

def shiftLoc (start stop : Int) (loc : Nat) : Nat :=
  if start ≤ loc ∧ stop ≤ loc then loc + 2 else if start ≤ loc ∨ stop ≤ loc then loc + 1 else loc

/-- `insertSync` with the update of `SyncIdx` that both its callers make right after it. -/
def insertSync (start stop : Int) (p : Prog) (clt srv : Nat) : Option Prog :=
  if clt = 0 then none
  else
    let callNum := p.calls.length
    let last := start == -1 && stop == -1
    let (p1, idx1, loc1) := insertAtOrLast p.syncIdx p clt (!last && start < callNum) start.toNat
    -- the call at `stop` has moved behind the first sync when that was put before it
    let target := if loc1 ≤ stop.toNat then stop.toNat + 1 else stop.toNat
    let (p2, idx2, loc2) := insertAtOrLast idx1 p1 clt (!last && stop < callNum) target
    some { p2 with
      syncIdx := idx2
      srvFailPos := p.srvFailPos.map (fun item => (item.1, shiftLoc start stop item.2)) ++
        [(startCode srv, loc1), (endCode srv, loc2)] }

def filterFailureCalls (start stop : Nat) (p : Prog) : List Nat :=
  let callNum := p.calls.length
  List.range' start (min (stop + 1) callNum - start) ++ if callNum ≤ stop then [callNum] else []

def arraySearch (srvFailPos : List (Nat × Nat)) (srv : Nat) : Option Nat :=
  (srvFailPos.find? fun item => item.1 == srv).map Prod.snd

def getPosRange (srvFailOrder : List Nat) (p : Prog) (cur : Nat) : List Nat :=
  let low := (((srvFailOrder.take (cur + 1)).reverse.findSome? (arraySearch p.srvFailPos)).map (· + 1)).getD 0
  let high := ((srvFailOrder.drop cur).findSome? (arraySearch p.srvFailPos)).getD p.calls.length
  filterFailureCalls low high p

/-- The loop over the order of the first client: a match overwrites what an earlier one left. -/
def orderedPos (srvFailOrder : List Nat) (p : Prog) (code : Nat) : List Nat :=
  srvFailOrder.zipIdx.foldl (fun posList item =>
    if item.1 = code then getPosRange srvFailOrder p item.2 else posList) []

def insertablePos (ps1 : Group) (clt srv srvNum : Nat) : List Nat × List Nat :=
  let p := ps1.getD clt {}
  if clt = srvNum then
    let startPosList := filterFailureCalls 0 p.calls.length p
    (startPosList, startPosList)
  else
    let order := (ps1.getD srvNum {}).srvFailOrder
    (orderedPos order p (startCode srv), orderedPos order p (endCode srv))

def isAdjacent (call1 call2 : Nat) : Bool := call1 ≤ call2

def enumSyncPoint (ps1 : Group) (clt srv srvNum : Nat) : Option (List Group) :=
  let p := ps1.getD clt {}
  if p.calls = [] then (insertSync (-1) (-1) p clt srv).map fun p2 => [ps1.set clt p2]
  else
    let (startPosList, endPosList) := insertablePos ps1 clt srv srvNum
    let points := startPosList.flatMap fun call1 => (endPosList.filter (isAdjacent call1)).map fun call2 => (call1, call2)
    points.mapM fun point => (insertSync point.1 point.2 p clt srv).map fun p2 => ps1.set clt p2

/-- `extractOrder` sorts the recorded positions in place. The sort is `sort.SliceStable`. -/
def extractOrder (p : Prog) : Prog :=
  let srvFailPos := Go.insertionSort.sort (Go.lessBy Prod.snd) p.srvFailPos
  { p with srvFailPos := srvFailPos, srvFailOrder := srvFailPos.map Prod.fst }

def withOrder (ps1 : Group) (clt srvNum : Nat) : Group :=
  if srvNum < clt ∧ (ps1.getD srvNum {}).srvFailOrder = [] then
    ps1.set srvNum (extractOrder (ps1.getD srvNum {}))
  else ps1

def extendQueue (srvNum clt srv : Nat) (queue : List Group) : Option (List Group) :=
  (queue.mapM fun ps1 => enumSyncPoint (withOrder ps1 clt srvNum) clt srv srvNum).map List.flatten

def setFailFlag (crashFailure : Bool) (p : Prog) : Prog :=
  if crashFailure then { p with hasCrashFail := true } else { p with hasNetFail := true }

def failServers (gen : FailGen) (crashFailure : Bool) : List SrvFailInfo → UInt64 → Group → Group
  | [], _, ps => ps
  | srvItem :: srvComb, srvSyncIdx, ps =>
    let (p, next) := genSrvFailCalls gen srvSyncIdx crashFailure srvItem (ps.getD srvItem.srv {})
    failServers gen crashFailure srvComb next (ps.set srvItem.srv p)

def insertFailure (gen : FailGen) (ps : Group) (srvComb : List SrvFailInfo) (syncStartIdx : UInt64)
    (crashFailure : Bool) (srvNum : Nat) : Option (List Group) :=
  let ps := failServers gen crashFailure srvComb syncStartIdx (ps.modify 0 (setFailFlag crashFailure))
  (List.range' srvNum (ps.length - srvNum)).foldlM
    (fun queue clt => srvComb.foldlM (fun queue srvItem => extendQueue srvNum clt srvItem.srv queue) queue) [ps]

def curOrder (p : Prog) : Option (List Int64) :=
  (p.calls.filter (·.isFCall)).mapM fun call =>
    match call.args.head? with
    | some (.const val) => some val.toInt64
    | _ => none

def cmpOrder (lastProgOrder : Option (List Int64)) (p : Prog) : Option (Option (List Int64)) :=
  (curOrder p).bind fun cur =>
    match lastProgOrder with
    | none => some (some cur)
    | some order => if order = cur then some (some order) else none

/-- `some` when the program group is accepted. -/
def cmpProgs (ps : Group) (srvNum : Nat) : Option Unit :=
  if !(ps.getD 0 {}).hasNetFail && !(ps.getD 0 {}).hasCrashFail then some ()
  else ((ps.drop srvNum).foldlM cmpOrder none).map fun _ => ()

end DfsFuzz.Failure
