import DfsFuzz.Dag.Pairs
import Mathlib.Data.Prod.Lex

/-! `BuildVertices` (`prog/dag.go`): trace events to vertices, with the diagnostics. -/

namespace DfsFuzz.Dag

/-! ### Matching events to calls -/

def isPathResolvingCall (name : String) : Bool :=
  Go.contains name "mkdir" || Go.contains name "creat" || name = "rmdir" || name = "unlink" || name = "rename" ||
    Go.contains name "open" || name = "stat" || Go.contains name "fstatat" || Go.contains name "chmod" ||
    Go.contains name "truncate" || Go.contains name "utime"

def funcMatchesCall (fid : UInt32) (name : String) : Bool :=
  if fid = funcMkdir then Go.contains name "mkdir"
  else if fid = funcCreate then Go.contains name "creat" || Go.contains name "open"
  else if fid = funcRmdir then name = "rmdir"
  else if fid = funcUnlink then name = "unlink"
  else if fid = funcRename then name = "rename"
  else if fid = funcWrite then Go.contains name "write"
  else if fid = funcRead then Go.contains name "read" && !Go.contains name "getdents"
  else if fid = funcFileOpen || fid = funcDirOpen then Go.contains name "open"
  else if fid = funcGetattr then name = "stat" || Go.contains name "fstatat"
  else if fid = funcSetattr then Go.contains name "chmod" || Go.contains name "truncate" || Go.contains name "utime"
  else if fid = funcFsync then Go.contains name "fsync" || Go.contains name "fdatasync"
  else if fid = funcRelease then name = "close"
  else if fid = funcLookup then isPathResolvingCall name
  else if fid = funcIterate then Go.contains name "getdents"
  else false

def tscoffFor (tscoffs : List Int64) (idx : Int) : Int64 :=
  if 0 ≤ idx && idx < tscoffs.length then tscoffs.getD idx.toNat 0 else tscoffs.getLastD 0

/-- The negative results -2, -3 and -4 of `matchEventToCall`. -/
inductive MatchFailure where
  | noFunc | noCI | outside
deriving DecidableEq

structure MatchState where
  best : Option Nat := none
  bestStime : Int64 := 0
  hasFunc : Bool := false
  hasCI : Bool := false

def matchStep (tol : Int64) (ev : HmdfsTraceEvent) (off : Int64) (st : MatchState) (call : Call × Nat) : MatchState :=
  if !funcMatchesCall ev.funcID call.1.name then st
  else
    let st := { st with hasFunc := true }
    match call.1.checkInfo with
    | none => st
    | some ci =>
      let st := { st with hasCI := true }
      let ts := ev.timestamp.toInt64
      let ws := ci.stime.toInt64 - off
      let we := ci.etime.toInt64 - off
      if ts ≥ ws - tol && ts ≤ we + tol && (st.best = none || ws > st.bestStime) then
        { st with best := some call.2, bestStime := ws }
      else st

/-- The call whose window, widened by `tol` (`mfTolTicks`), holds the event's timestamp. -/
def matchEventToCall (tol : Int64) (ev : HmdfsTraceEvent) (p : Prog) (tscoffs : List Int64) : Except MatchFailure Nat :=
  let off := tscoffFor tscoffs ev.progIdx
  let st := p.calls.zipIdx.foldl (matchStep tol ev off) {}
  match st.best with
  | some i => .ok i
  | none => if !st.hasFunc then .error .noFunc else if !st.hasCI then .error .noCI else .error .outside

structure Nearest where
  delta : Int64 := 0
  stime : UInt64 := 0
  etime : UInt64 := 0
  prevE : Int64 := -1
  nextS : Int64 := -1
  found : Bool := false
  bestAbs : Int64 := -1

def nearestLoop (ev : HmdfsTraceEvent) (off : Int64) : List Call → Nearest → Nearest
  | [], acc => acc
  | call :: rest, acc =>
    if !funcMatchesCall ev.funcID call.name then nearestLoop ev off rest acc
    else
      match call.checkInfo with
      | none => nearestLoop ev off rest acc
      | some ci =>
        let ts := ev.timestamp.toInt64
        let ws := ci.stime.toInt64 - off
        let we := ci.etime.toInt64 - off
        let prevE := if we < ts && (acc.prevE = -1 || we > acc.prevE) then we else acc.prevE
        let nextS := if ws > ts && (acc.nextS = -1 || ws < acc.nextS) then ws else acc.nextS
        if ts > we || ts < ws then
          let d := if ts > we then ts - we else -(ws - ts)
          let abs := if d < 0 then -d else d
          if acc.bestAbs = -1 || abs < acc.bestAbs then
            nearestLoop ev off rest
              { acc with prevE, nextS, bestAbs := abs, delta := d, stime := ws.toUInt64, etime := we.toUInt64, found := true }
          else nearestLoop ev off rest { acc with prevE, nextS }
        else { acc with delta := 0, stime := ws.toUInt64, etime := we.toUInt64, prevE, nextS, found := true }

def nearestWindowOfFunc (ev : HmdfsTraceEvent) (p : Prog) (tscoffs : List Int64) : Nearest :=
  nearestLoop ev (tscoffFor tscoffs ev.progIdx) p.calls {}

def matchDistBucket (ticks : Int64) : Nat :=
  if ticks < 24000 then 0
  else if ticks < 72000 then 1
  else if ticks < 178000 then 2
  else if ticks < 479000 then 3
  else if ticks < 1196000 then 4
  else if ticks < 3418000 then 5
  else 6

def inoMask (ino : UInt64) : UInt64 := ino &&& 0xFFFFFFFF

/-- The lookups made from the post-execution snapshots. -/
structure Snapshots where
  inoToPathByNode : Go.Map Int (Go.Map UInt64 String) := ∅
  inoToPath : Go.Map UInt64 String := ∅
  nodeType : Go.Map String Bool := ∅
  pathSize : Go.Map String UInt64 := ∅

def recordEntry (acc : Go.Map UInt64 String × Snapshots) (e : String × FileMetadata) :
    Go.Map UInt64 String × Snapshots :=
  let path := normalizeMergeViewPath e.1
  let ino := inoMask e.2.statMd.ino
  let s := acc.2
  (acc.1.putNew ino path,
    { s with
      inoToPath := s.inoToPath.putNew ino path
      nodeType := s.nodeType.insert path (e.2.statMd.mode &&& 0xF000 = 0x4000)
      pathSize := if e.2.statMd.size ≥ 0 then s.pathSize.insert path e.2.statMd.size.toUInt64 else s.pathSize })

def recordNode (s : Snapshots) (node : Option FsMd × Nat) : Snapshots :=
  match node.1 with
  | none => s
  | some fsMd =>
    let r := fsMd.items.foldl recordEntry (∅, s)
    { r.2 with inoToPathByNode := r.2.inoToPathByNode.insert (node.2 : Int) r.1 }

def snapshotsOf (fsMds : List (Option FsMd)) : Snapshots := fsMds.zipIdx.foldl recordNode {}

/-! ### Rename and delete timelines -/

structure RenameEvent where
  ts : UInt64
  oldPath : String
  newPath : String
  ret : Int32
deriving DecidableEq

structure DeleteEvent where
  ts : UInt64
  path : String
  ret : Int32
deriving DecidableEq

structure Timelines where
  renameTLByPath : Go.Map String (List RenameEvent) := ∅
  deleteTLByNode : Go.Map (Int × UInt64) (List DeleteEvent) := ∅

/-- Everything the loops over the events read besides the event. -/
structure BuildInput where
  ps : List Prog
  fsMds : List (Option FsMd)
  hmcfg : FeedbackConfig
  tscoffs : List Int64
  /-- `mfTolTicks` -/
  tol : Int64 := 205200

def BuildInput.progOf (inp : BuildInput) (ev : HmdfsTraceEvent) : Option Prog :=
  if ev.progIdx < 0 || ev.progIdx ≥ inp.ps.length then none else inp.ps[ev.progIdx.toNat]?

def BuildInput.callOf (inp : BuildInput) (ev : HmdfsTraceEvent) : Option (Prog × Call) := do
  let p ← inp.progOf ev
  match matchEventToCall inp.tol ev p inp.tscoffs with
  | .error _ => none
  | .ok i => p.calls[i]?.map fun call => (p, call)

def renameOf (inp : BuildInput) (ev : HmdfsTraceEvent) : Option (String × RenameEvent) :=
  (inp.callOf ev).bind fun pc =>
    let paths := extractRenamePaths pc.2
    if ev.funcID = funcRename && paths.1 ≠ "" && paths.2 ≠ "" then
      some (paths.1, ⟨ev.timestamp, paths.1, paths.2, ev.ret⟩)
    else none

def deleteOf (inp : BuildInput) (ev : HmdfsTraceEvent) : Option ((Int × UInt64) × DeleteEvent) :=
  (inp.callOf ev).bind fun pc =>
    let path := extractPathFromCall pc.2
    if (ev.funcID = funcUnlink || ev.funcID = funcRmdir) && path ≠ "" then
      some ((ev.progIdx, ev.ino), ⟨ev.timestamp, path, ev.ret⟩)
    else none

def timelineStep (inp : BuildInput) (tl : Timelines) (ev : HmdfsTraceEvent) : Timelines :=
  { renameTLByPath := match renameOf inp ev with
      | some (k, r) => tl.renameTLByPath.push k r
      | none => tl.renameTLByPath
    deleteTLByNode := match deleteOf inp ev with
      | some (k, d) => tl.deleteTLByNode.push k d
      | none => tl.deleteTLByNode }

def sortTimeline {κ ε : Type} [DecidableEq κ] (srt : Go.SliceSort) (ts : ε → UInt64) (tl : Go.Map κ (List ε)) :
    Go.Map κ (List ε) :=
  tl.mapValues (srt.sort (Go.lessBy fun x => (ts x).toNat))

def timelinesOf (srt : Go.SliceSort) (inp : BuildInput) (events : List HmdfsTraceEvent) : Timelines :=
  let tl := events.foldl (timelineStep inp) {}
  { renameTLByPath := sortTimeline srt RenameEvent.ts tl.renameTLByPath
    deleteTLByNode := sortTimeline srt DeleteEvent.ts tl.deleteTLByNode }

def applyRename (cur : String) (r : RenameEvent) : String :=
  if cur = r.oldPath || Go.hasPrefix cur (r.oldPath ++ "/") then r.newPath ++ Go.trimPrefix cur r.oldPath else cur

def renamesUpTo (ts : UInt64) (renameTL : Go.Map String (List RenameEvent)) : List RenameEvent :=
  renameTL.items.flatMap fun e => e.2.filter fun r => r.ret = 0 && r.ts ≤ ts

def renamePathAt (srt : Go.SliceSort) (path : String) (ts : UInt64) (renameTL : Go.Map String (List RenameEvent)) :
    String :=
  let apps := renamesUpTo ts renameTL
  if apps = [] then ""
  else (srt.sort (Go.lessBy fun r => r.ts.toNat) apps).foldl applyRename path

def lastDelete (ts : UInt64) : List DeleteEvent → String → String
  | [], last => last
  | d :: rest, last =>
    if d.ret ≠ 0 then lastDelete ts rest last
    else if d.ts ≤ ts then lastDelete ts rest d.path
    else last

def deletePathAt (nodeIdx : Int) (ino ts : UInt64) (deleteTL : Go.Map (Int × UInt64) (List DeleteEvent)) : String :=
  match deleteTL.lookup (nodeIdx, ino) with
  | none => ""
  | some dels => lastDelete ts dels ""

def lookupClimb (parentPath full : String) : Nat → String → String
  | 0, _ => full
  | fuel + 1, comp =>
    if comp = "" then full
    else if getParentDir comp = parentPath then comp
    else if getParentDir comp = comp then full
    else lookupClimb parentPath full fuel (getParentDir comp)

def ownPath (s : Snapshots) (node : Int) (ino : UInt64) : Option String :=
  (s.inoToPathByNode.getD node ∅).lookup ino

def inoPath (s : Snapshots) (node : Int) (ino : UInt64) : Option String :=
  (ownPath s node ino).or (s.inoToPath.lookup ino)

/-- `GetParentDir` shortens a path until it is `.` or `/`, so the fuel is never used up. -/
def lookupPath (s : Snapshots) (ev : HmdfsTraceEvent) (call : Call) : String :=
  let full := extractPathFromCall call
  if full = "" then ""
  else
    match inoPath s ev.progIdx (inoMask ev.ino) with
    | none => full
    | some parentPath => lookupClimb parentPath full (full.length + 2) full

def writepagePath (srt : Go.SliceSort) (s : Snapshots) (tl : Timelines) (ev : HmdfsTraceEvent) : String :=
  let own := (ownPath s ev.progIdx (inoMask ev.ino)).getD ""
  let pth := if own = "" then s.inoToPath.getD (inoMask ev.ino) "" else own
  let pth := if pth ≠ "" then renamePathAt srt pth ev.timestamp tl.renameTLByPath else pth
  if pth = "" then deletePathAt ev.progIdx ev.ino ev.timestamp tl.deleteTLByNode else pth

def movedPath (srt : Go.SliceSort) (path : String) (ev : HmdfsTraceEvent) (tl : Timelines) : String :=
  let pth := renamePathAt srt path ev.timestamp tl.renameTLByPath
  if pth ≠ "" then pth else path

def callPaths (srt : Go.SliceSort) (s : Snapshots) (tl : Timelines) (p : Prog) (call : Call) (ev : HmdfsTraceEvent) :
    String × String :=
  if ev.funcID = funcMkdir || ev.funcID = funcCreate then ("", extractPathFromCall call)
  else if ev.funcID = funcRmdir || ev.funcID = funcUnlink then ("", movedPath srt (extractPathFromCall call) ev tl)
  else if ev.funcID = funcRename then extractRenamePaths call
  else if ev.funcID = funcLookup then ("", lookupPath s ev call)
  else
    let path := extractPathFromCall call
    let path := if path = "" then resolveFdToPath p call else path
    ("", movedPath srt path ev tl)

/-! ### The vertex pass -/

/-- What the vertex pass makes of one event. The last two carry the distance to the nearest edge
of the matched window, which only matched calls have. -/
inductive Outcome where
  | progIdxBad
  | matchFailed (p : Prog) (why : MatchFailure)
  | noCheckInfo
  | pathEmpty (dist : Option Int64)
  | vertex (dist : Option Int64) (v : DAGVertex)

def finishVertex (s : Snapshots) (ev : HmdfsTraceEvent) (dist : Option Int64) (v : DAGVertex) : Outcome :=
  if v.path = "" then .pathEmpty dist
  else .vertex dist
    { v with isDir := s.nodeType.getD v.path false, off := ev.off, size := s.pathSize.getD v.path 0 }

def baseVertex (ev : HmdfsTraceEvent) : DAGVertex :=
  { funcID := ev.funcID, retBucket := bucketizeRet ev.funcID ev.ret, ino := ev.ino, progIdx := ev.progIdx }

def outcomeOf (srt : Go.SliceSort) (inp : BuildInput) (s : Snapshots) (tl : Timelines) (ev : HmdfsTraceEvent) : Outcome :=
  match inp.progOf ev with
  | none => .progIdxBad
  | some p =>
    if ev.funcID = funcWritepage then
      -- async callback: no call window, point-in-time vertex
      finishVertex s ev none
        { baseVertex ev with stime := ev.timestamp, etime := ev.timestamp, path := writepagePath srt s tl ev }
    else
      match matchEventToCall inp.tol ev p inp.tscoffs with
      | .error why => .matchFailed p why
      | .ok i =>
        match p.calls[i]? with
        | none => .noCheckInfo
        | some call =>
          match call.checkInfo with
          | none => .noCheckInfo
          | some ci =>
            let off := tscoffFor inp.tscoffs ev.progIdx
            let ws := ci.stime.toInt64 - off
            let we := ci.etime.toInt64 - off
            let dist := ev.timestamp.toInt64 - ws
            let d2 := we - ev.timestamp.toInt64
            let paths := callPaths srt s tl p call ev
            finishVertex s ev (some (if d2 < dist then d2 else dist))
              { baseVertex ev with
                callName := call.name, stime := ws.toUInt64, etime := we.toUInt64
                oldPath := paths.1, path := paths.2 }

def signed (d : Int64) : String := if d ≥ 0 then "+" ++ toString d else toString d

def mfSample (ev : HmdfsTraceEvent) (w : Nearest) : String :=
  "idx=" ++ toString ev.progIdx ++ " func=" ++ toString ev.funcID ++ " d=" ++ signed w.delta ++
    " win=[" ++ toString w.stime ++ "," ++ toString w.etime ++ "] prevE=" ++ toString w.prevE ++
    " nextS=" ++ toString w.nextS

def countOutside (inp : BuildInput) (p : Prog) (ev : HmdfsTraceEvent) (d : DagDiag) : DagDiag :=
  let d := { d with
    matchFailTime := d.matchFailTime + 1
    matchFailByNode :=
      bump (if d.matchFailByNode = [] then List.replicate inp.ps.length 0 else d.matchFailByNode) ev.progIdx.toNat }
  let w := nearestWindowOfFunc ev p inp.tscoffs
  if w.found then
    { d with
      mfTimeLate := if w.delta > 0 then d.mfTimeLate + 1 else d.mfTimeLate
      mfTimeEarly := if w.delta < 0 then d.mfTimeEarly + 1 else d.mfTimeEarly
      mfGap := if w.prevE ≠ -1 && w.nextS ≠ -1 then d.mfGap + 1 else d.mfGap
      mfShift := if w.prevE ≠ -1 && w.nextS ≠ -1 then d.mfShift else d.mfShift + 1
      matchDistOut := bump d.matchDistOut (matchDistBucket (if w.delta < 0 then -w.delta else w.delta))
      mfSamples := if d.mfSamples.length < 4 then d.mfSamples ++ [mfSample ev w] else d.mfSamples }
  else d

def countMatchFailed (inp : BuildInput) (p : Prog) (why : MatchFailure) (ev : HmdfsTraceEvent) (d : DagDiag) : DagDiag :=
  let b := bucketizeRet ev.funcID ev.ret
  let d := { d with
    matchFailed := d.matchFailed + 1
    matchFailFunc := bump d.matchFailFunc ev.funcID.toNat
    matchFailRetOK := if b = .success || b = .writepageDone then bump d.matchFailRetOK ev.funcID.toNat
      else d.matchFailRetOK }
  match why with
  | .noFunc => { d with matchFailNoFunc := d.matchFailNoFunc + 1 }
  | .noCI => { d with matchFailNoCI := d.matchFailNoCI + 1 }
  | .outside => countOutside inp p ev d

def countDist (dist : Option Int64) (d : DagDiag) : DagDiag :=
  match dist with
  | none => d
  | some t => { d with matchDistIn := bump d.matchDistIn (matchDistBucket t) }

def countVertex (inp : BuildInput) (ev : HmdfsTraceEvent) (v : DAGVertex) (d : DagDiag) : DagDiag :=
  { d with
    perFuncVertices := bump d.perFuncVertices v.funcID.toNat
    retHist := fun b => if b = v.retBucket then d.retHist b + 1 else d.retHist b
    retByFunc := fun f b =>
      if v.funcID < 16 ∧ f = v.funcID ∧ b = v.retBucket then d.retByFunc f b + 1 else d.retByFunc f b
    errHist := if ev.ret < 0 && ev.ret ≥ -64 then bump d.errHist (-ev.ret.toInt - 1).toNat else d.errHist
    depthHist := bump d.depthHist (depthBucketOf v.path).toNat
    offHist := bump d.offHist (offsetBucketOf v).toNat
    typeHist := bump d.typeHist (if v.isDir then 1 else 0)
    persistHist := bump d.persistHist (if inPersistence v.path inp.hmcfg then 1 else 0)
    perNodeVertices :=
      bump (if d.perNodeVertices = [] then List.replicate inp.ps.length 0 else d.perNodeVertices) v.progIdx.toNat }

structure BuildState where
  vertices : List DAGVertex := []
  diag : DagDiag

def buildStep (srt : Go.SliceSort) (inp : BuildInput) (s : Snapshots) (tl : Timelines) (st : BuildState)
    (ev : HmdfsTraceEvent) : BuildState :=
  match outcomeOf srt inp s tl ev with
  | .progIdxBad => { st with diag := { st.diag with progIdxBad := st.diag.progIdxBad + 1 } }
  | .matchFailed p why => { st with diag := countMatchFailed inp p why ev st.diag }
  | .noCheckInfo => st
  | .pathEmpty dist =>
    let d := countDist dist st.diag
    { st with diag := { d with pathEmpty := d.pathEmpty + 1 } }
  | .vertex dist v => { vertices := st.vertices ++ [v], diag := countVertex inp ev v (countDist dist st.diag) }

/-- By program, then by start time; nothing orders vertices of one call. -/
def vertexKey (v : DAGVertex) : Int ×ₗ Nat := toLex (v.progIdx, v.stime.toNat)

def vertexLess (a b : DAGVertex) : Bool := Go.lessBy vertexKey a b

def buildVertices (srt : Go.SliceSort) (inp : BuildInput) (events : List HmdfsTraceEvent) : List DAGVertex × DagDiag :=
  let s := snapshotsOf inp.fsMds
  let tl := timelinesOf srt inp events
  let st := events.foldl (buildStep srt inp s tl) { diag := { events := events.length } }
  (srt.sort vertexLess st.vertices, st.diag)

/-- The whole pipeline: trace events to novelty bits. -/
def dagFeedback (srt : Go.SliceSort) (inp : BuildInput) (events : List HmdfsTraceEvent) : Feedback :=
  let built := buildVertices srt inp events
  let r := extractPairs built.1 built.2
  (computeFeedback srt r.hbPairs r.ccPairs inp.hmcfg r.diag).1

end DfsFuzz.Dag
