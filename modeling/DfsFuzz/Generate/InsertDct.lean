import DfsFuzz.Choice.Temporal
import DfsFuzz.Generate.Calls

/-!
How a group of programs grows by a root call and its variants (`prog/mutation.go`,
`prog/generation.go`).
-/

namespace DfsFuzz.Generate

open DfsFuzz.Choice DfsFuzz.Dag DfsFuzz.Mutation DfsFuzz.Tree

def fdRequiredCalls : List String :=
  ["read", "write", "pread64", "pwrite64", "fsync", "fdatasync", "getdents64", "close", "fstat", "fchmod"]

def isFdRequiredCall (callName : String) : Bool := fdRequiredCalls.any fun name => Go.contains callName name

def opens (name : String) : Bool := Go.contains name "open" || Go.contains name "creat"

/-- `o` closes `fd`. -/
def closesFd (fd : ResultId) (o : CallObj) : Bool := Go.contains o.name "close" && usesFd o.call fd

/-- The scan of `calls`; every open is looked at with the calls behind it. -/
def openFdIn (filePath : String) : List CallObj → Option ResultId
  | [] => none
  | o :: rest =>
    if opens o.name && extractPathFromCall o.call = filePath then
      match o.call.ret with
      | none => openFdIn filePath rest
      | some fd => if rest.any (closesFd fd) then openFdIn filePath rest else some fd
    else openFdIn filePath rest

def findOpenFdForPath (p : SeedProg) (filePath : String) (beforeIdx : Nat) : Option ResultId :=
  openFdIn filePath (p.calls.take beforeIdx)

/-- `filepath.Ext` -/
def ext (path : String) : String :=
  let tail := path.toList.reverse.takeWhile (· ≠ '/')
  if '.' ∈ tail then String.ofList ('.' :: (tail.takeWhile (· ≠ '.')).reverse) else ""

def freshChildPath (dirPath suffix : String) : String := dirPath ++ "/mut_dir_" ++ suffix

def getPathsForRenameVariant (ft : FileTree) (basePath : String) (pathRelation : PathRelation) (coin draw : Draw)
    (suffix : String) : String × String :=
  let srcPath := getPathByRelation ft basePath "" pathRelation coin draw false .any
  if srcPath = "" then ("", "")
  else if Go.contains (ext srcPath) "._renamed_" then (srcPath, Go.trimSuffix srcPath (ext srcPath) ++ "._renamed_" ++ suffix)
  else (srcPath, srcPath ++ "._renamed_" ++ suffix)

def basePathCompatible (ft : FileTree) (basePath : String) (constraint : RelTarget) : Bool :=
  match constraint with
  | .file => !isDirPath ft basePath
  | .dir => isDirPath ft basePath
  | .any => true

def getRandomDir (ft : FileTree) (cid : String) (draw : Draw) : Option NodeRef :=
  drawNode ((ft.dirsByCid cid).filter fun n => (ft.node n).type ≠ .tmpDir) draw

structure NodeChoice where
  variant : Draw
  temporal : Draw
  coin : Draw
  path : Draw
  unrelated : Draw
  suffix : String
  call : CallChoice

/-- What one round draws, and the state it finds: the tables, the end times of the calls (by their
`ref`; a call that was not executed has none) and the clock offsets. -/
structure RoundChoice where
  lcs : LayeredChoiceStrategy
  temporalWeights : Go.Map String (Go.Map CallVariant TemporalWeight)
  seedType : String
  etime : Nat → Option UInt64
  tscoff : Nat → Int64
  useFreshPath : Bool
  candidate : Draw
  insertPos : Draw
  /-- what `ct.choose` gives for one attempt after the other -/
  rootPicks : List String
  file : Draw
  dir : Draw
  otherDir : Draw
  bin : Bool
  suffix : String
  root : CallChoice
  node : Nat → NodeChoice

def chooseRootCallName (picks : List String) : String := (picks.find? fun name => name ≠ "close").getD ""

def pathCandidates (calls : List CallObj) : List String :=
  (calls.flatMap fun o =>
    if o.name = "rename" then [(extractRenamePaths o.call).1, (extractRenamePaths o.call).2] else [extractPathFromCall o.call]).filter
      fun path => path ≠ ""

/-- The base path, or `none` where the tree has no file or directory to draw. -/
def drawBasePath (ch : RoundChoice) (ft : FileTree) (cid rootCallName : String) (calls : List CallObj) : Option String :=
  let candidates := pathCandidates calls
  let basePath := if ch.useFreshPath then "" else (candidates[ch.candidate.intn candidates.length]?).getD ""
  let file := (getRandomFile ft cid ch.file).map (nodePath ft)
  let dir := (getRandomDir ft cid ch.dir).map (nodePath ft)
  if basePath ≠ "" then some basePath
  else if ch.seedType = "fileops" then file
  else if isDirOnlyCall rootCallName then dir
  else
    let basePath := if ch.bin then file.getD "" else ""
    if basePath = "" then dir else some basePath

/-- A mkdir or a creat gets a new name; a mkdir goes into a directory of the tree. -/
def rootPath (ch : RoundChoice) (ft : FileTree) (cid rootCallName basePath : String) : Option String :=
  if rootCallName = "mkdir" then
    let dir :=
      match ft.findNode basePath with
      | some node =>
        if (ft.node node).type = FileNodeType.dir || (ft.node node).type = FileNodeType.emptyDir then some basePath
        else some (((getParent ft node).map (nodePath ft)).getD basePath)
      | none => (getRandomDir ft cid ch.otherDir).map (nodePath ft)
    dir.map fun dir => dir ++ "/mut_dir_" ++ ch.suffix
  else if rootCallName = "creat" then some (basePath ++ "._creat_" ++ ch.suffix ++ ".txt")
  else some basePath

def oDirectory : UInt64 := 0x10000

def openFlags (ft : FileTree) (path : String) : UInt64 := if isDirPath ft path then oDirectory else 2

/-- One insertion. The list of them is not kept by the source, which counts the root and the variant
only. -/
structure Inserted where
  progIdx : Nat
  callName : String
  path : String
  pos : Nat
  calls : List Call

/-- The block goes into the program; every call is a new object. -/
def insertBlock (g : StashGroup) (ins : Inserted) : StashGroup :=
  { g with
    progs := g.progs.modify ins.progIdx fun p =>
      { p with calls := Edits.insertAt p.calls ins.pos (ins.calls.mapIdx fun i call => ⟨g.next + i, call⟩) }
    next := g.next + ins.calls.length }

/-- The root call of `p0` at `insertPos`. -/
def insertRoot (ch : RoundChoice) (ft : FileTree) (rootCallName basePath : String) (insertPos : Nat) (p0 : SeedProg)
    (g : StashGroup) : Option (Inserted × StashGroup) :=
  let existingFd := if isFdRequiredCall rootCallName then findOpenFdForPath p0 basePath insertPos else none
  let path2 := if rootCallName = "rename" then basePath ++ "._renamed" ++ ch.suffix else ""
  (generateCallByName ch.root rootCallName basePath path2 existingFd existingFd.isSome (sizeOfPath (some ft) basePath)
    (openFlags ft basePath) g).map fun (calls, g) =>
      let ins : Inserted := ⟨0, rootCallName, basePath, insertPos, calls⟩
      (ins, insertBlock g ins)

/-- The end of the call before boundary `j`; the first boundary is at time 0. -/
def boundaryTime (etime : Nat → Option UInt64) (tscoff : Int64) (calls : List CallObj) (j : Nat) : Option UInt64 :=
  if j = 0 then some 0
  else (calls[j - 1]?.bind fun o => etime o.ref).map fun etime => (etime.toInt64 - tscoff).toUInt64

def hasTiming (etime : Nat → Option UInt64) (calls : List CallObj) : Bool := calls.any fun o => (etime o.ref).isSome

def timeAlignedInsertPos (etime : Nat → Option UInt64) (refTime tscoff : Int64) (calls : List CallObj) : Option Nat :=
  if refTime < 0 || !hasTiming etime calls then none
  else
    let nearer (best : Option (Nat × UInt64)) (j : Nat) : Option (Nat × UInt64) :=
      match boundaryTime etime tscoff calls j with
      | none => best
      | some t =>
        let ref := refTime.toUInt64
        let d := if t ≥ ref then t - ref else ref - t
        match best with
        | none => some (j, d)
        | some (_, bestDist) => if d < bestDist then some (j, d) else best
    ((List.range (calls.length + 1)).foldl nearer none).map Prod.fst

def firstBoundaryAfter (etime : Nat → Option UInt64) (refTime tscoff : Int64) (calls : List CallObj) : Option Nat :=
  if refTime < 0 || !hasTiming etime calls then none
  else some (((List.range (calls.length + 1)).find? fun j =>
    ((boundaryTime etime tscoff calls j).map fun t => decide (refTime ≤ t.toInt64)).getD false).getD calls.length)

/-- The reference time of a round, from the call before the root. -/
def rootRefTime (ch : RoundChoice) (insertPos : Nat) (calls : List CallObj) : Int64 :=
  if insertPos = 0 then 0
  else
    match calls[insertPos - 1]?.bind fun o => ch.etime o.ref with
    | none => -1
    | some etime => etime.toInt64 - ch.tscoff 0

/-! ### The variants -/

/-- The paths of a variant, or `none` where its relation has none. -/
def variantPaths (ch : NodeChoice) (ft : FileTree) (basePath : String) (variant : CallVariant) : Option (String × String) :=
  let newDir :=
    if variant.callName = "mkdir" then
      match variant.pathRelation with
      | .child => freshChildPath basePath ch.suffix
      | .sibling => freshChildPath (getParentDir basePath) ch.suffix
      | .noRel =>
        let dir := getRandomUnrelatedPath ft basePath ch.unrelated .dir
        if dir ≠ "" then freshChildPath dir ch.suffix else ""
      | _ => ""
    else ""
  if variant.callName = "rename" then
    let paths := getPathsForRenameVariant ft basePath variant.pathRelation ch.coin ch.path ch.suffix
    if paths.1 = "" then none else some paths
  else if newDir ≠ "" then some (newDir, "")
  else
    let constraint := callNameConstraint variant.callName
    let path := getPathByRelation ft basePath "" variant.pathRelation ch.coin ch.path false constraint
    let path := if path = "" && basePathCompatible ft basePath constraint then basePath else path
    if path = "" then none else some (path, "")

/-- Where the variant goes, and the descriptor it uses there. -/
def variantFd (callName path : String) (insertPos : Nat) (alignedPos : Option Nat) (pos : Nat) (p : SeedProg) :
    Nat × Option ResultId × Bool :=
  if isFdRequiredCall callName then
    match findOpenFdForPath p path pos with
    | some fd => (pos, some fd, true)
    | none =>
      if alignedPos.isSome then
        let pos := min insertPos p.calls.length
        let fd := findOpenFdForPath p path pos
        (pos, fd, fd.isSome)
      else (pos, none, false)
  else (pos, none, true)

/-- The variant of one node; nothing is inserted where none is eligible or has a path. -/
def insertVariant (ch : RoundChoice) (ft : FileTree) (rootCallName basePath : String) (insertPos : Nat) (refTime : Int64)
    (nodeIdx : Nat) (p : SeedProg) (g : StashGroup) : Option (List Inserted × StashGroup) :=
  let own := ch.node nodeIdx
  match ch.lcs.chooseConcurrentCallFiltered rootCallName own.variant (basePathIsFile ft rootCallName basePath) basePath with
  | none => some ([], g)
  | some variant =>
    let dct : TemporalTable := { ch.lcs.getDCT with temporalWeights := ch.temporalWeights }
    let alignedPos := timeAlignedInsertPos ch.etime refTime (ch.tscoff nodeIdx) p.calls
    let hbPos :=
      if (dct.chooseTemporal rootCallName variant own.temporal).1 = .hb then
        firstBoundaryAfter ch.etime refTime (ch.tscoff nodeIdx) p.calls
      else none
    let pos := (hbPos.or alignedPos).getD (min insertPos p.calls.length)
    match variantPaths own ft basePath variant with
    | none => some ([], g)
    | some (path, path2) =>
      let (pos, existingFd, useExistFd) := variantFd variant.callName path insertPos alignedPos pos p
      (generateCallByName own.call variant.callName path path2 existingFd useExistFd (sizeOfPath (some ft) path)
        (openFlags ft path) g).map fun (calls, g) =>
          let ins : Inserted := ⟨nodeIdx, variant.callName, path, pos, calls⟩
          ([ins], insertBlock g ins)

/-- The nodes from `ps[1]` on, one after the other. -/
def insertVariants (ch : RoundChoice) (ft : FileTree) (rootCallName basePath : String) (insertPos : Nat) (refTime : Int64) :
    List Nat → StashGroup → Option (List Inserted × StashGroup)
  | [], g => some ([], g)
  | nodeIdx :: rest, g =>
    match g.progs[nodeIdx]? with
    | none => some ([], g)
    | some p =>
      (insertVariant ch ft rootCallName basePath insertPos refTime nodeIdx p g).bind fun (first, g) =>
        (insertVariants ch ft rootCallName basePath insertPos refTime rest g).map fun (others, g) => (first ++ others, g)

/-- `false` where nothing is inserted; `none` where it panics. -/
def insertCallFromDCT (cids : List String) (ch : RoundChoice) (g : StashGroup) : Option (Bool × List Inserted × StashGroup) :=
  match g.progs[0]? with
  | none => some (false, [], g)
  | some p0 =>
    cids[0]?.bind fun cid0 => ch.lcs.fileTree.bind fun ft =>
      let insertPos := ch.insertPos.intn (p0.calls.length + 1)
      let rootCallName := chooseRootCallName ch.rootPicks
      let basePath := (drawBasePath ch ft cid0 rootCallName p0.calls).bind (rootPath ch ft cid0 rootCallName)
      if rootCallName = "" then some (false, [], g)
      else
        match basePath with
        | none => some (false, [], g)
        | some basePath =>
          (insertRoot ch ft rootCallName basePath insertPos p0 g).bind fun (first, g) =>
            let refTime := rootRefTime ch insertPos p0.calls
            if g.progs.length > cids.length then none
            else
              (insertVariants ch ft rootCallName basePath insertPos refTime (List.range' 1 (g.progs.length - 1)) g).map
                fun (others, g) => (true, first :: others, g)

def insertRounds (cids : List String) : List RoundChoice → StashGroup → Option (List (List Inserted) × StashGroup)
  | [], g => some ([], g)
  | ch :: rest, g =>
    (insertCallFromDCT cids ch g).bind fun (_, inserted, g) =>
      (insertRounds cids rest g).map fun (others, g) => (inserted :: others, g)

def avgCalls (ps : List SeedProg) : Nat := (ps.map fun p => p.calls.length).sum / ps.length

/-- The loop of `expandWithDCT`: at most nine rounds, and it gives up after three failures in a row. -/
def expandLoop (cids : List String) (target : Nat) : List RoundChoice → Nat → StashGroup → Option StashGroup
  | [], _, g => some g
  | ch :: rest, failed, g =>
    if failed ≥ 3 || avgCalls g.progs ≥ target then some g
    else
      (insertCallFromDCT cids ch g).bind fun (inserted, _, g) => expandLoop cids target rest (if inserted then 0 else failed + 1) g

def expandWithDCT (cids : List String) (target : Draw) (rounds : Nat → RoundChoice) (g : StashGroup) : Option StashGroup :=
  if g.progs.length = 0 then some g
  else expandLoop cids (7 + target.intn 4) ((List.range 9).map rounds) 0 g

end DfsFuzz.Generate
