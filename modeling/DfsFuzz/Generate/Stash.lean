import DfsFuzz.Generate.Calls

/-!
The stash seeds (`prog/generation.go`, `prog/rand.go`). `ps[0]` writes around a failure window, the
second program writes too or reads, and all others read back what was written; the programs meet the
window in two syncs.
-/

namespace DfsFuzz.Generate

open DfsFuzz.Choice DfsFuzz.Mutation DfsFuzz.Tree

/-- An open file: the result of the open, and the argument that the reads or writes share. -/
structure Opened where
  path : String
  ret : ResultId
  fd : Arg

def openFile (addr : UInt64) (flags mode : UInt64) (path : String) (g : StashGroup) : (Opened × Call) × StashGroup :=
  let (fd, g') := makeResultArg { g with next := g.next + 1 } g.next
  ((⟨path, g.next, .result fd (some g.next) 0⟩, openCall addr path flags mode g.next), g')

def openFiles (addr : String → UInt64) (flags mode : UInt64) : List String → StashGroup → List (Opened × Call) × StashGroup
  | [], g => ([], g)
  | path :: rest, g =>
    let (file, g) := openFile (addr path) flags mode path g
    let (files, g) := openFiles addr flags mode rest g
    (file :: files, g)

/-- `fileFds[path]`: a second open of a path takes the place of the first. -/
def fileFd (opened : List Opened) (path : String) : Option Opened := opened.reverse.find? fun o => o.path = path

def closeFiles (opened : List Opened) : List String → StashGroup → List Call × StashGroup
  | [], g => ([], g)
  | path :: rest, g =>
    match fileFd opened path with
    | none => closeFiles opened rest g
    | some o =>
      let (fd, g) := makeResultArg g o.ret
      let (calls, g) := closeFiles opened rest g
      (closeCall (.result fd (some o.ret) 0) :: calls, g)

/-- What one write draws; `randInt` is the result of that function. -/
structure RegionChoice where
  draw : Nat → Draw
  randInt : UInt64
  data : Nat → Draw
  addr : UInt64

def drawRegion (fileSize : UInt64) (ch : RegionChoice) : Option WriteInfo :=
  if fileSize > 0 && nOutOf (ch.draw 0) 4 5 then
    (randRange (ch.draw 1) 0 (fileSize + 4096)).bind fun pos =>
      (randRange (ch.draw 2) 1 (minInt (fileSize + 4096).toInt64 8192).toUInt64).map fun size => ⟨pos, size⟩
  else some ⟨ch.randInt, randBufLen fun i => ch.draw (i + 1)⟩

structure Write where
  path : String
  info : WriteInfo
  data : List UInt8
  addr : UInt64

def drawWrite (fileTree : Option FileTree) (path : String) (ch : RegionChoice) : Option Write :=
  (drawRegion (sizeOfPath fileTree path) ch).map fun info =>
    { path, info, data := (List.range info.length.toNat).map fun j => UInt8.ofNat ((ch.data j).intn 256), addr := ch.addr }

/-- The draws of the writes to the files of `order`. -/
def drawWrites (fileTree : Option FileTree) (ch : Nat → RegionChoice) (order : List String) : Option (List Write) :=
  order.zipIdx.mapM fun (path, i) => drawWrite fileTree path (ch i)

def writeCalls (opened : List Opened) (writes : List Write) : List Call :=
  writes.filterMap fun w => (fileFd opened w.path).map fun o => pwriteCall w.addr o.fd w.data w.info

def readCalls (addr : Nat → UInt64) (opened : List Opened) (reads : List (String × WriteInfo)) : List Call :=
  reads.zipIdx.filterMap fun ((path, info), i) => (fileFd opened path).map fun o => preadCall (addr i) o.fd info

/-- `writeInfosMap`; a missing file has none. -/
abbrev WriteInfos := String → List WriteInfo

def infosOf (writes : List Write) : WriteInfos := fun path => (writes.filter fun w => w.path = path).map Write.info

/-- The calls so far, the sync counter, and the recorded positions. -/
structure Build where
  calls : List Call
  syncIdx : UInt64 := 0
  start : Int := -1
  finish : Int := -1

namespace Build

def add (b : Build) (calls : List Call) : Build := { b with calls := b.calls ++ calls }

def syncStart (nodeIdx : Nat) (b : Build) : Build :=
  { b with calls := b.calls ++ [genSyncCall b.syncIdx nodeIdx], syncIdx := b.syncIdx + 1, start := b.calls.length }

def syncEnd (nodeIdx : Nat) (b : Build) : Build :=
  { b with calls := b.calls ++ [genSyncCall b.syncIdx nodeIdx], syncIdx := b.syncIdx + 1, finish := b.calls.length }

def failureWindow (hmcfg : HmdfsConfig) (addr : UInt64) (targetNodes : List Nat) (b : Build) : Build :=
  { calls := b.calls ++ [genRecvCall b.syncIdx, genNetDownCall hmcfg addr targetNodes, genSendCall b.syncIdx,
      genRecvCall (b.syncIdx + 1), genNetUpCall, genSendCall (b.syncIdx + 1)]
    syncIdx := b.syncIdx + 2
    start := b.calls.length
    finish := b.calls.length + 5 }

end Build

/-- A write, and behind the one at `netInsertPos` the window. -/
def netStep (hmcfg : HmdfsConfig) (addr : UInt64) (targetNodes : List Nat) (netInsertPos : Nat) (b : Build) (op : Call × Nat) :
    Build :=
  let b := b.add [op.1]
  if op.2 = netInsertPos then b.failureWindow hmcfg addr targetNodes else b

/-- A read or a write, and around the one at `netInsertPos` the two syncs. -/
def syncStep (insertSync : Bool) (nodeIdx netInsertPos : Nat) (b : Build) (op : Call × Nat) : Build :=
  let b := if insertSync && op.2 = netInsertPos then b.syncStart nodeIdx else b
  let b := b.add [op.1]
  if insertSync && op.2 = netInsertPos then b.syncEnd nodeIdx else b

def halfwayStep (insertSync : Bool) (nodeIdx : Nat) (b : Build) (op : Call × Nat) : Build :=
  let b := if insertSync && op.2 = 2 then b.syncStart nodeIdx else b
  b.add [op.1]

/-- The opens, the loop over the reads or writes, and the closes. -/
def openLoopClose (addr : String → UInt64) (flags mode : UInt64) (paths : List String) (ops : List Opened → List Call)
    (loop : Build → List Call → Build) (g : StashGroup) : Build × StashGroup :=
  let (files, g) := openFiles addr flags mode paths g
  let opened := files.map Prod.fst
  let b := loop { calls := files.map Prod.snd } (ops opened)
  let (closes, g) := closeFiles opened paths g
  (b.add closes, g)

structure ProgChoice where
  netInsertPos : Draw
  openAddr : String → UInt64
  cmdAddr : UInt64
  region : Nat → RegionChoice
  readAddr : Nat → UInt64

/-- The program with the window: its writes, the position of the window among them, and the program. -/
def writeWithNet (hmcfg : HmdfsConfig) (ch : ProgChoice) (flags : UInt64) (paths order : List String) (targetNodes : List Nat)
    (g : StashGroup) : Option (List Write × Nat × Build × StashGroup) :=
  let netInsertPos := ch.netInsertPos.intn order.length
  (drawWrites hmcfg.fileTree ch.region order).map fun writes =>
    let (b, g) := openLoopClose ch.openAddr flags 0o666 paths (fun opened => writeCalls opened writes)
      (fun b ops => ops.zipIdx.foldl (netStep hmcfg ch.cmdAddr targetNodes netInsertPos) b) g
    (writes, netInsertPos, b, g)

/-- The writes go round the files, `rounds` times. -/
def writeOrder (rounds : Nat) (paths : List String) : List String := (List.replicate rounds paths).flatten

def generateWriteCallsWithNetCallForHmdfsStash (hmcfg : HmdfsConfig) (ch : ProgChoice) (filePath : String)
    (targetNodes : List Nat) (g : StashGroup) : Option (List Write × Nat × Build × StashGroup) :=
  writeWithNet hmcfg ch 2 [filePath] (writeOrder 4 [filePath]) targetNodes g

def generateMultiFileWriteCallsForStash (hmcfg : HmdfsConfig) (ch : ProgChoice) (filePaths : List String)
    (targetNodes : List Nat) (g : StashGroup) : Option (List Write × Nat × Build × StashGroup) :=
  writeWithNet hmcfg ch (2 ||| 64) filePaths (writeOrder 2 filePaths) targetNodes g

def generateWriteCallsWithoutNetCallForHmdfsStash (hmcfg : HmdfsConfig) (ch : ProgChoice) (filePath : String) (nodeIdx : Nat)
    (insertSync : Bool) (g : StashGroup) : Option (List Write × Build × StashGroup) :=
  (drawWrites hmcfg.fileTree ch.region (writeOrder 4 [filePath])).map fun writes =>
    let (b, g) := openLoopClose ch.openAddr 2 0o666 [filePath] (fun opened => writeCalls opened writes)
      (fun b ops =>
        let b := ops.zipIdx.foldl (halfwayStep insertSync nodeIdx) b
        if insertSync then b.syncEnd nodeIdx else b) g
    (writes, b, g)

def generateNormalWriteCallsForStash (hmcfg : HmdfsConfig) (ch : ProgChoice) (filePaths : List String) (nodeIdx : Nat)
    (insertSync : Bool) (netInsertPos : Nat) (g : StashGroup) : Option (List Write × Build × StashGroup) :=
  (drawWrites hmcfg.fileTree ch.region (writeOrder 2 filePaths)).map fun writes =>
    let (b, g) := openLoopClose ch.openAddr (2 ||| 64) 0o666 filePaths (fun opened => writeCalls opened writes)
      (fun b ops => ops.zipIdx.foldl (syncStep insertSync nodeIdx netInsertPos) b) g
    (writes, b, g)

def readBack (ch : ProgChoice) (paths : List String) (reads : List (String × WriteInfo)) (nodeIdx : Nat) (insertSync : Bool)
    (netInsertPos : Nat) (g : StashGroup) : Build × StashGroup :=
  openLoopClose ch.openAddr 0 0o444 paths (fun opened => readCalls ch.readAddr opened reads)
    (fun b ops => ops.zipIdx.foldl (syncStep insertSync nodeIdx netInsertPos) b) g

def generateReadCallsForHmdfsStash (ch : ProgChoice) (filePath : String) (writeInfos : List WriteInfo) (nodeIdx : Nat)
    (insertSync : Bool) (netInsertPos : Nat) (g : StashGroup) : Build × StashGroup :=
  readBack ch [filePath] (writeInfos.map fun wi => (filePath, wi)) nodeIdx insertSync netInsertPos g

/-- The `i`-th write of every file that has one, for all `i`. -/
def readOrder (filePaths : List String) (writeInfosMap : WriteInfos) : List (String × WriteInfo) :=
  let maxInfoLen := (filePaths.map fun path => (writeInfosMap path).length).foldl max 0
  (List.range maxInfoLen).flatMap fun i => filePaths.filterMap fun path => (writeInfosMap path)[i]?.map fun wi => (path, wi)

def generateMultiFileReadCallsForStash (ch : ProgChoice) (filePaths : List String) (writeInfosMap : WriteInfos) (nodeIdx : Nat)
    (insertSync : Bool) (netInsertPos : Nat) (g : StashGroup) : Build × StashGroup :=
  readBack ch filePaths (readOrder filePaths writeInfosMap) nodeIdx insertSync netInsertPos g

/-- The finished program joins the group; every call is a new object. -/
def addProg (g : StashGroup) (calls : List Call) (hasNetFail : Bool) : StashGroup :=
  { g with
    progs := g.progs ++ [{ calls := calls.mapIdx fun i call => ⟨g.next + i, call⟩, isStash := true, hasNetFail }]
    next := g.next + calls.length }

/-- The entries of one program; a position that was never set has none. -/
def failEntries (nodeIdx : Nat) (b : Build) : List Int :=
  (if b.start ≥ 0 then [(nodeIdx : Int) * 100 + 1, b.start] else []) ++
    if b.finish ≥ 0 then [(nodeIdx : Int) * 100 + 2, b.finish] else []

/-- The programs from `nodeIdx` on read; `reader` makes their calls. -/
def addReaders (reader : Nat → StashGroup → Build × StashGroup) : List Nat → StashGroup × List Int → StashGroup × List Int
  | [], st => st
  | nodeIdx :: rest, (g, failPos) =>
    let (b, g) := reader nodeIdx g
    addReaders reader rest (addProg g b.calls false, failPos ++ failEntries nodeIdx b)

/-- `idxSlice`: every node but the one with the window. -/
def targetNodesOf (hmcfg : HmdfsConfig) : List Nat := (List.range hmcfg.nodeNum).filter (· ≠ 0)

def recordFailPos (st : StashGroup × List Int) : StashGroup :=
  { st.1 with progs := st.1.progs.modify 0 fun p0 => { p0 with generalFailPos := [st.2] } }

structure StashSeedChoice where
  mode : Draw
  /-- the keys of `FilesByCid` in the order in which `range` visits them -/
  cids : List String
  file : Nat → Draw
  suffix : Nat → String
  prog : Nat → ProgChoice

def numFiles (hmcfg : HmdfsConfig) : Nat := if hmcfg.nodeNum < 4 then hmcfg.nodeNum - 1 else 3

/-- `filePaths`; `none` where `Cids` is too short. -/
def stashFiles (hmcfg : HmdfsConfig) (ch : StashSeedChoice) : Option (List String) :=
  (List.range (numFiles hmcfg)).mapM fun i =>
    hmcfg.cids[i + 1]?.map fun cid => selectFileInOneNode hmcfg cid (ch.file i) (ch.suffix i)

def generateProgsForMultiFileStash (hmcfg : HmdfsConfig) (ch : StashSeedChoice) : Option StashGroup :=
  (stashFiles hmcfg ch).bind fun filePaths =>
    (generateMultiFileWriteCallsForStash hmcfg (ch.prog 0) filePaths (targetNodesOf hmcfg) { progs := [] }).bind
      fun (writes0, netInsertPos, b0, g) =>
        let g := addProg g b0.calls true
        let failPos := [1, b0.start, 2, b0.finish]
        if hmcfg.nodeNum > 1 then
          (generateNormalWriteCallsForStash hmcfg (ch.prog 1) filePaths 1 true netInsertPos g).map fun (writes1, b1, g) =>
            let writeInfosMap : WriteInfos := fun path => infosOf writes0 path ++ infosOf writes1 path
            recordFailPos (addReaders
              (fun i => generateMultiFileReadCallsForStash (ch.prog i) filePaths writeInfosMap i true netInsertPos)
              (List.range' 2 (hmcfg.nodeNum - 2)) (addProg g b1.calls false, failPos ++ failEntries 1 b1))
        else some (recordFailPos (g, failPos))

def generateProgsForHmdfsStash (hmcfg : HmdfsConfig) (ch : StashSeedChoice) : Option StashGroup :=
  let mode := ch.mode.intn 3
  if mode = 2 && hmcfg.nodeNum ≥ 2 then generateProgsForMultiFileStash hmcfg ch
  else
    hmcfg.cids[0]?.bind fun cid =>
      let filePath := selectRemoteFile hmcfg ch.cids cid (ch.file 0)
      (generateWriteCallsWithNetCallForHmdfsStash hmcfg (ch.prog 0) filePath (targetNodesOf hmcfg) { progs := [] }).bind
        fun (writes0, netInsertPos, b0, g) =>
          let g := addProg g b0.calls true
          let failPos := [1, b0.start, 2, b0.finish]
          let readers (startIdx : Nat) (infos : List WriteInfo) (st : StashGroup × List Int) : StashGroup :=
            recordFailPos (addReaders
              (fun i => generateReadCallsForHmdfsStash (ch.prog i) filePath infos i true netInsertPos)
              (List.range' startIdx (hmcfg.nodeNum - startIdx)) st)
          if mode = 1 && hmcfg.nodeNum ≥ 2 then
            (generateWriteCallsWithoutNetCallForHmdfsStash hmcfg (ch.prog 1) filePath 1 true g).map fun (writes1, b1, g) =>
              readers 2 ((writes0 ++ writes1).map Write.info) (addProg g b1.calls false, failPos ++ failEntries 1 b1)
          else some (readers (if mode = 1 then 2 else 1) (writes0.map Write.info) (g, failPos))

end DfsFuzz.Generate
