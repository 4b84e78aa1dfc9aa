import DfsFuzz.Generate.Aligned

/-!
How a group of programs grows by a predefined pattern: `insertCallFromPattern` (`prog/mutation.go`), the
patterns (`prog/distributed_choice.go`) and the calls of their operations (`prog/rand.go`).
-/

namespace DfsFuzz.Generate

open DfsFuzz.Choice DfsFuzz.Mutation DfsFuzz.Tree

inductive OffsetRelationType where
  | unspecified | same | different
deriving DecidableEq

/-- The relations of the path arguments are those of its `PathArgs`. -/
structure ConcurrentOp where
  callName : String
  pathArgs : List PathRelation
deriving DecidableEq

structure ConcurrentPattern where
  name : String
  clientCount : Nat
  operations : List (List ConcurrentOp)
  offsetRel : OffsetRelationType := .unspecified

def fileopsPatterns : List ConcurrentPattern :=
  [{ name := "write_write_diff_offset", clientCount := 2, offsetRel := .different,
     operations := [[⟨"write", [.self]⟩], [⟨"write", [.same]⟩]] },
   { name := "write_write_same_offset", clientCount := 2, offsetRel := .same,
     operations := [[⟨"write", [.self]⟩], [⟨"write", [.same]⟩]] },
   { name := "write_read_concurrent", clientCount := 2, offsetRel := .same,
     operations := [[⟨"write", [.self]⟩], [⟨"read", [.same]⟩]] },
   { name := "truncate_read_write_concurrent", clientCount := 2,
     operations := [[⟨"truncate", [.self]⟩], [⟨"read", [.same]⟩], [⟨"write", [.same]⟩]] },
   { name := "fsync_concurrent", clientCount := 2,
     operations := [[⟨"write", [.self]⟩, ⟨"fsync", []⟩], [⟨"read", [.same]⟩]] }]

def inodeopsPatterns : List ConcurrentPattern :=
  [{ name := "concurrent_mkdir_same", clientCount := 3,
     operations := [[⟨"mkdir", [.self]⟩], [⟨"mkdir", [.same]⟩], [⟨"mkdir", [.same]⟩]] },
   { name := "create_unlink_same", clientCount := 2, operations := [[⟨"creat", [.self]⟩], [⟨"unlink", [.same]⟩]] },
   { name := "mkdir_stat_concurrent", clientCount := 2, operations := [[⟨"mkdir", [.self]⟩], [⟨"stat", [.same]⟩]] },
   { name := "rename_open_concurrent", clientCount := 2,
     operations := [[⟨"rename", [.selfTwo, .selfTwo]⟩], [⟨"open", [.same]⟩]] },
   { name := "rename_rename_concurrent", clientCount := 2,
     operations := [[⟨"rename", [.selfTwo, .selfTwo]⟩], [⟨"rename", [.same, .sibling]⟩]] },
   { name := "readdir_creat_concurrent", clientCount := 2,
     operations := [[⟨"getdents64", [.self]⟩], [⟨"creat", [.child]⟩]] },
   { name := "chmod_getattr_concurrent", clientCount := 2, operations := [[⟨"chmod", [.self]⟩], [⟨"stat", [.same]⟩]] },
   { name := "rmdir_mkdir_child_concurrent", clientCount := 2,
     operations := [[⟨"rmdir", [.self]⟩], [⟨"mkdir", [.child]⟩]] },
   { name := "multi_rename_same_file", clientCount := 3,
     operations := [[⟨"rename", [.selfTwo, .selfTwo]⟩], [⟨"rename", [.same, .sibling]⟩], [⟨"rename", [.same, .sibling]⟩]] },
   { name := "rmdir_mkdir_same_name", clientCount := 2,
     operations := [[⟨"rmdir", [.self]⟩], [⟨"mkdir", [.same]⟩]] }]

def patternsOf (seedType : String) : List ConcurrentPattern :=
  if seedType = "fileops" then fileopsPatterns else if seedType = "inodeops" then inodeopsPatterns else []

/-- What one operation draws; `wide` is what `randInt(64)` gives. -/
structure OpChoice where
  call : CallChoice
  coin : Draw
  path : Draw
  emptyDir : Draw
  rootSuffix : String
  childSuffix : String
  wide : UInt64

/-- What `findInsertPosition` draws. -/
structure PositionChoice where
  range : Draw
  inRange : Draw
  position : Draw

/-- The draws for a program: `at_` for the search with a descriptor, `other` for the one without. -/
structure PatternNode where
  at_ : PositionChoice
  other : PositionChoice
  op : Nat → OpChoice
  verification : Draw
  verify : CallChoice

/-- What one insertion draws, and the end times and clock offsets that it finds. -/
structure PatternChoice where
  seedType : String
  ft : FileTree
  etime : Nat → Option UInt64
  tscoff : Nat → Int64
  pattern : Draw
  candidate : Draw
  file : Draw
  dir : Draw
  nearOffset : Draw
  offset : Draw
  wideOffset : UInt64
  node : Nat → PatternNode

def getRandomPattern (ch : PatternChoice) : Option ConcurrentPattern :=
  (patternsOf ch.seedType)[ch.pattern.intn (patternsOf ch.seedType).length]?

def patternBaseMatches (ft : FileTree) (seedType basePath : String) : Bool :=
  match ft.findNode basePath with
  | none => false
  | some node => if seedType = "fileops" then (ft.node node).type = .file else (ft.node node).type ≠ .file

/-- A path that a call of the first program names, else one of the tree. -/
def patternBasePath (ch : PatternChoice) (cid : String) (calls : List CallObj) : Option String :=
  let found := (pathCandidates calls).filter (patternBaseMatches ch.ft ch.seedType)
  match found[ch.candidate.intn found.length]? with
  | some path => some path
  | none =>
    (if ch.seedType = "fileops" then getRandomFile ch.ft cid ch.file else getRandomDir ch.ft cid ch.dir).map (nodePath ch.ft)

def getRandomEmptyDir (ft : FileTree) (cid : String) (draw : Draw) : Option NodeRef :=
  drawNode ((ft.dirsByCid cid).filter fun n => (ft.node n).type = .emptyDir) draw

/-- The base path of an operation of the first program; `none` where there is no empty directory. -/
def preprocessPatternRootOp (ch : OpChoice) (basePath cid opName : String) (ft : FileTree) : Option String :=
  if opName = "mkdir" then some (basePath ++ "/mut_dir_" ++ ch.rootSuffix)
  else if opName = "creat" then some (basePath ++ "/._creat_" ++ ch.rootSuffix ++ ".txt")
  else if opName = "rmdir" then (getRandomEmptyDir ft cid ch.emptyDir).map (nodePath ft)
  else some basePath

def sharedOffset (ch : PatternChoice) (offsetRel : OffsetRelationType) (basePath : String) : Option UInt64 :=
  if offsetRel = .same then
    let size := sizeOfPath (some ch.ft) basePath
    if size > 0 && nOutOf ch.nearOffset 4 5 then randRange ch.offset 0 (size + 4096) else some ch.wideOffset
  else some 0

def isOpenDirectory (call : Call) : Bool :=
  match (call.args[1]? : Option Arg) with
  | some (.const val) => val &&& 0x10000 ≠ 0
  | _ => false

/-- The opens that have a result, each up to its close; `useFd` is 1 for files, 2 for directories, 3 for both. -/
def fdRanges (useFd : Nat) (calls : List CallObj) : List FdRange :=
  (openIndices calls).filterMap fun openIdx =>
    calls[openIdx]?.bind fun o => o.call.ret.bind fun fd =>
      if useFd = 3 || isOpenDirectory o.call == decide (useFd = 2) then
        some ⟨openIdx, correspondingClose calls openIdx fd, fd⟩
      else none

def drawnRange (useFd : Nat) (ch : PositionChoice) (calls : List CallObj) : Option FdRange :=
  (fdRanges useFd calls)[ch.range.intn (fdRanges useFd calls).length]?

/-- Where to insert, and the open descriptor to use there. -/
def findInsertPosition (etime : Nat → Option UInt64) (refTime tscoff : Int64) (useFd : Nat) (ch : PositionChoice)
    (calls : List CallObj) : Nat × Option ResultId :=
  let anywhere := ch.position.intn (calls.length + 1)
  if useFd > 0 && useFd ≤ 3 then
    if calls.length = 0 then (anywhere, none)
    else
      match drawnRange useFd ch calls with
      | none => (anywhere, none)
      | some range =>
        let first := range.openIdx + 1
        let aligned := timeAlignedInRange etime refTime tscoff calls first range.closeIdx
        (aligned.getD (first + ch.inRange.intn (range.closeIdx - first + 1)), some range.fd)
  else if calls.length = 0 then (0, none)
  else ((timeAlignedInRange etime refTime tscoff calls 0 calls.length).getD anywhere, none)

/-- A seed of file operations takes an open file, any other seed an open directory. -/
def wantedFd (seedType : String) : Nat := if seedType = "fileops" then 1 else 2

/-- The position in a program and the open descriptor there, if it has one of the wanted kind. -/
def nodePosition (ch : PatternChoice) (nodeIdx : Nat) (refTime : Int64) (calls : List CallObj) : Nat × Option ResultId :=
  let own := ch.node nodeIdx
  let found := findInsertPosition ch.etime refTime (ch.tscoff nodeIdx) (wantedFd ch.seedType) own.at_ calls
  if found.2.isSome then found
  else ((findInsertPosition ch.etime refTime (ch.tscoff nodeIdx) 0 own.other calls).1, none)

/-! ### The calls of an operation -/

/-- A fresh child of a directory, for a creat or a mkdir. -/
def freshChildOf (dirPath kind suffix : String) : String :=
  if kind = "creat" then dirPath ++ "/._creat_" ++ suffix ++ ".txt" else freshChildPath dirPath suffix

/-- The two paths of an operation; the first is empty where its relation has none. -/
def opPaths (ch : OpChoice) (ft : FileTree) (op : ConcurrentOp) (basePath : String) : String × String :=
  if op.callName = "creat" ∨ op.callName = "mkdir" then
    match ft.findNode basePath with
    | none => (basePath, "")
    | some node =>
      (if (ft.node node).type ≠ .file then freshChildOf basePath op.callName ch.childSuffix else basePath, "")
  else
    match op.pathArgs with
    | [] => (basePath, "")
    | [relation] =>
      let constraint := callNameConstraint op.callName
      let path := getPathByRelation ft basePath "" relation ch.coin ch.path false constraint
      (if path = "" && basePathCompatible ft basePath constraint then basePath else path, "")
    | _ :: relation :: _ => getPathsForRenameVariant ft basePath relation ch.coin ch.path ch.childSuffix

def smallLength (draw : Draw) : UInt64 := UInt64.ofNat (draw.intn 4096) + 1

/-- The region of a read; near the size of the file 4 of 5 times. -/
def readRegion (ch : OpChoice) (offsetRel : OffsetRelationType) (shared fileSize : UInt64) : Option WriteInfo :=
  let draw := ch.call.draw
  if fileSize > 0 && nOutOf (draw 1) 4 5 then
    (if offsetRel = .different then randRange (draw 2) 0 (fileSize + 4096) else some shared).bind fun offset =>
      (if offset < fileSize then upTo8192 (draw 3) (fileSize - offset + 4096) else randRange (draw 3) 1 8192).map
        fun size => ⟨offset, size⟩
  else some ⟨if offsetRel = .different then ch.wide else shared, smallLength (draw 0)⟩

def pwriteOpRegion (ch : OpChoice) (offsetRel : OffsetRelationType) (shared fileSize : UInt64) : Option WriteInfo :=
  let draw := ch.call.draw
  if fileSize > 0 && nOutOf (draw 1) 4 5 then
    (if offsetRel = .different then randRange (draw 2) 0 (fileSize + 4096) else some shared).bind fun offset =>
      (upTo8192 (draw 3) (fileSize + 4096)).map fun size => ⟨offset, size⟩
  else some ⟨if offsetRel = .different then ch.wide else shared, smallLength (draw 0)⟩

/-- A call on the existing descriptor, or on one that is opened before it and stays open. -/
def onOpenFd (ch : CallChoice) (path : String) (flags : UInt64) (existingFd : Option ResultId)
    (use : ResultId → StashGroup → Call × StashGroup) (g : StashGroup) : List Call × StashGroup :=
  match existingFd with
  | some fd =>
    let (call, g) := use fd g
    ([call], g)
  | none =>
    let fd := g.next
    let (opened, g) := generateOpenCallSeq ch path flags g
    let (call, g) := use fd g
    ([opened, call], g)

def generateCallFromPatternOp (ch : OpChoice) (ft : FileTree) (op : ConcurrentOp) (basePath : String)
    (existingFd : Option ResultId) (offsetRel : OffsetRelationType) (shared : UInt64) (g : StashGroup) :
    Option (List Call × StashGroup) :=
  let paths := opPaths ch ft op basePath
  let path := paths.1
  if path = "" then single (generateStatCallWithPath ch.call basePath g)
  else
    let flags := openFlags ft path
    let fileSize := sizeOfPath (some ft) path
    let onFd (use : ResultId → StashGroup → Call × StashGroup) := onOpenFd ch.call path flags existingFd use g
    if op.callName = "open" then single (generateOpenCallSeq ch.call path flags g)
    else if op.callName = "close" then some (onFd generateCloseCall)
    else if op.callName = "read" then
      if offsetRel ≠ .unspecified then
        (readRegion ch offsetRel shared fileSize).map fun info => onFd (generatePreadCallsSeq ch.call info)
      else some (onFd (generateReadCallsSeq ch.call (smallLength (ch.call.draw 0))))
    else if op.callName = "write" then
      if offsetRel ≠ .unspecified then
        (pwriteOpRegion ch offsetRel shared fileSize).map fun info => onFd (generatePwriteCallsSeq ch.call info)
      else some (onFd (generateWriteCallsSeq ch.call (smallLength (ch.call.draw 0))))
    else if op.callName = "truncate" then
      (generateTruncateCallWithPath ch.call path fileSize).map fun call => ([call], g)
    else if op.callName = "chmod" then single (generateChmodCallWithPath ch.call path, g)
    else if op.callName = "mkdir" then single (generateMkdirCallWithPath ch.call path, g)
    else if op.callName = "rmdir" then single (generateRmdirCallWithPath ch.call path, g)
    else if op.callName = "creat" then single (generateCreatCallWithPath ch.call path g)
    else if op.callName = "unlink" then single (generateUnlinkCallWithPath ch.call path, g)
    else if op.callName = "rename" then
      let path2 := if paths.2 ≠ "" then paths.2 else path ++ "._renamed_" ++ ch.call.suffix
      single (generateRenameCallWithPaths ch.call path path2, g)
    else if op.callName = "stat" then single (generateStatCallWithPath ch.call path g)
    else if op.callName = "fsync" then some (onFd generateFsyncCall)
    else if op.callName = "getdents64" then some (onFd (generateGetdents64CallWithFd ch.call))
    else some ([], g)

/-- The reads behind the pattern in the programs that it does not name. -/
def generateVerificationCalls (kind : Draw) (ch : CallChoice) (basePath : String) (flags : UInt64) (g : StashGroup) :
    List Call × StashGroup :=
  if kind.intn 3 = 0 then
    let (opened, g) := generateOpenCallSeq ch basePath flags g
    ([opened], g)
  else if kind.intn 3 = 1 then
    let fd := g.next
    let info : WriteInfo := ⟨UInt64.ofNat ((ch.draw 1).intn 1024) + 1, UInt64.ofNat ((ch.draw 0).intn 1024) + 1⟩
    let (opened, g) := generateOpenCallSeq ch basePath flags g
    let (call, g) := generatePreadCallsSeq ch info fd g
    let (closed, g) := generateCloseCall fd g
    ([opened, call, closed], g)
  else
    let (call, g) := generateStatCallWithPath ch basePath g
    ([call], g)

/-! ### The insertion -/

/-- The calls of one operation, with the base path in effect when they are made. -/
structure PatternCalls where
  op : ConcurrentOp
  basePath : String
  inserted : Inserted

/-- The operations of one program from its `k`-th on, each behind the one before. -/
def insertOps (ch : PatternChoice) (cid : String) (nodeIdx : Nat) (existingFd : Option ResultId)
    (offsetRel : OffsetRelationType) (shared : UInt64) :
    Nat → List ConcurrentOp → Nat → String → StashGroup → Option (Bool × List PatternCalls × String × StashGroup)
  | _, [], _, basePath, g => some (true, [], basePath, g)
  | k, op :: ops, pos, basePath, g =>
    let own := (ch.node nodeIdx).op k
    match if nodeIdx = 0 then preprocessPatternRootOp own basePath cid op.callName ch.ft else some basePath with
    | none => some (false, [], "", g)
    | some basePath =>
      (generateCallFromPatternOp own ch.ft op basePath existingFd offsetRel shared g).bind fun (calls, g) =>
        let ins : Inserted := ⟨nodeIdx, op.callName, basePath, pos, calls⟩
        (insertOps ch cid nodeIdx existingFd offsetRel shared (k + 1) ops (pos + calls.length) basePath
          (insertBlock g ins)).map fun (ok, others, last, g) => (ok, ⟨op, basePath, ins⟩ :: others, last, g)

/-- The position of the first program and the time there, to which the others are aligned. -/
structure Reference where
  pos : Nat
  time : Int64

def referenceAt (ch : PatternChoice) (insertPos : Nat) (calls : List CallObj) : Reference where
  pos := insertPos
  time :=
    if insertPos = 0 then 0
    else
      match calls[insertPos - 1]?.bind fun o => ch.etime o.ref with
      | none => -1
      | some etime => etime.toInt64 - ch.tscoff 0

/-- The programs that the pattern names, one after the other. -/
def insertNodes (ch : PatternChoice) (cids : List String) (offsetRel : OffsetRelationType) (shared : UInt64) :
    Nat → List (List ConcurrentOp) → Option Reference → String → StashGroup →
      Option (Bool × List PatternCalls × Option Reference × String × StashGroup)
  | _, [], ref, basePath, g => some (true, [], ref, basePath, g)
  | nodeIdx, ops :: rest, ref, basePath, g =>
    match g.progs[nodeIdx]? with
    | none => some (true, [], ref, basePath, g)
    | some p =>
      cids[nodeIdx]?.bind fun cid =>
        let found := nodePosition ch nodeIdx ((ref.map Reference.time).getD (-1)) p.calls
        let ref := ref.getD (referenceAt ch found.1 p.calls)
        (insertOps ch cid nodeIdx found.2 offsetRel shared 0 ops found.1 basePath g).bind fun (ok, first, basePath, g) =>
          if ok then
            (insertNodes ch cids offsetRel shared (nodeIdx + 1) rest (some ref) basePath g).map
              fun (ok, others, ref, basePath, g) => (ok, first ++ others, ref, basePath, g)
          else some (false, first, some ref, basePath, g)

/-- Verification calls in the programs behind those of the pattern. -/
def insertVerification (ch : PatternChoice) (cids : List String) (ref : Option Reference) (basePath : String) :
    List Nat → StashGroup → Option StashGroup
  | [], g => some g
  | nodeIdx :: rest, g =>
    match g.progs[nodeIdx]? with
    | none => some g
    | some p =>
      cids[nodeIdx]?.bind fun _ =>
        let own := ch.node nodeIdx
        let time := (ref.map Reference.time).getD (-1)
        let aligned := timeAlignedInRange ch.etime time (ch.tscoff nodeIdx) p.calls 0 p.calls.length
        let pos := min ((aligned.or (ref.map Reference.pos)).getD p.calls.length) p.calls.length
        let (calls, g) := generateVerificationCalls own.verification own.verify basePath (openFlags ch.ft basePath) g
        insertVerification ch cids ref basePath rest (insertBlock g ⟨nodeIdx, "", basePath, pos, calls⟩)

/-- `false` where nothing more is inserted; `none` where it panics. The list of what is inserted for the
operations is not kept by the source. -/
def insertCallFromPattern (cids : List String) (ch : PatternChoice) (g : StashGroup) :
    Option (Bool × List PatternCalls × StashGroup) :=
  match getRandomPattern ch with
  | none => some (false, [], g)
  | some pattern =>
    if pattern.clientCount > g.progs.length then some (false, [], g)
    else
      (g.progs[0]?).bind fun p0 => cids[0]?.bind fun cid0 =>
        match patternBasePath ch cid0 p0.calls with
        | none => some (false, [], g)
        | some basePath =>
          (sharedOffset ch pattern.offsetRel basePath).bind fun shared =>
            (insertNodes ch cids pattern.offsetRel shared 0 pattern.operations none basePath g).bind
              fun (ok, inserted, ref, basePath, g) =>
                if ok then
                  let others := List.range' pattern.operations.length (g.progs.length - pattern.operations.length)
                  (insertVerification ch cids ref basePath others g).map fun g => (true, inserted, g)
                else some (false, inserted, g)

end DfsFuzz.Generate
