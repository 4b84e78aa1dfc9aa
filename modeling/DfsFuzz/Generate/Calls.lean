import DfsFuzz.Mutation.Buffers
import DfsFuzz.Mutation.StashRefs

/-!
The call builders of the hmdfs generators (`prog/rand.go`) and what they draw. The address of a buffer
comes from the allocator of the program; nothing here reads it. A call on a descriptor that the choice
tables ask for by name uses one that is open, or opens the file for itself and closes it again.
-/

namespace DfsFuzz.Generate

open DfsFuzz.Choice DfsFuzz.Mutation DfsFuzz.Tree

/-- The part of `Hmdfs_config` that the generators read. -/
structure HmdfsConfig where
  nodeNum : Nat
  cids : List String
  initIp : String := ""
  fileTree : Option FileTree := none

structure WriteInfo where
  offset : UInt64
  length : UInt64
deriving DecidableEq

/-- `r.Intn(n)`; `none` is its panic on an `int` that is not positive. -/
def intn (draw : Draw) (n : Int64) : Option UInt64 :=
  if n ≤ 0 then none else some (UInt64.ofNat (draw.intn n.toInt.toNat))

def nOutOf (draw : Draw) (n outOf : Nat) : Bool := draw.intn outOf < n

def randRange (draw : Draw) (first last : UInt64) : Option UInt64 :=
  (intn draw (last - first + 1).toInt64).map (first + ·)

def randBufLen (draw : Nat → Draw) : UInt64 :=
  if nOutOf (draw 0) 50 56 then UInt64.ofNat ((draw 1).intn 512) else if nOutOf (draw 2) 5 6 then 4096 else 0

def minInt (a b : Int64) : Int64 := if a < b then a else b

/-- `selectRemoteFile` and `selectFileInOneNode` draw a node from a list. -/
def drawNode (nodes : List NodeRef) (draw : Draw) : Option NodeRef := nodes[draw.intn nodes.length]?

/-- `cids` are the keys of `FilesByCid` in the order in which `range` visits them. -/
def getRandomFileExcluding (ft : FileTree) (cids : List String) (excludeCid : String) (draw : Draw) : Option NodeRef :=
  drawNode ((cids.filter (· ≠ excludeCid)).flatMap ft.filesByCid) draw

def getRandomFile (ft : FileTree) (cid : String) (draw : Draw) : Option NodeRef := drawNode (ft.filesByCid cid) draw

def nodePath (ft : FileTree) (node : NodeRef) : String := (ft.node node).fullPath

def selectRemoteFile (hmcfg : HmdfsConfig) (cids : List String) (localCid : String) (draw : Draw) : String :=
  (hmcfg.fileTree.bind fun ft => (getRandomFileExcluding ft cids localCid draw).map (nodePath ft)).getD
    "merge_view/default_test_file.txt"

def selectFileInOneNode (hmcfg : HmdfsConfig) (localCid : String) (draw : Draw) (suffix : String) : String :=
  (hmcfg.fileTree.bind fun ft => (getRandomFile ft localCid draw).map (nodePath ft)).getD
    ("merge_view/default_test_file_" ++ suffix ++ ".txt")

def sizeOfPath (fileTree : Option FileTree) (path : String) : UInt64 :=
  ((fileTree.bind fun ft => (ft.findNode path).map fun n => (ft.node n).size)).getD 0

def pathArg (addr : UInt64) (path : String) : Arg := .pointer addr (some (.data (Buffers.toBytes path ++ [0])))

/-- `ret` is the `Ret` that `MakeCall` makes. -/
def openCall (addr : UInt64) (path : String) (flags mode : UInt64) (ret : ResultId) : Call :=
  { name := "open", args := [pathArg addr path, .const flags, .const mode], ret := some ret }

def closeCall (fd : Arg) : Call := { name := "close", args := [fd] }

def pwriteCall (addr : UInt64) (fd : Arg) (data : List UInt8) (info : WriteInfo) : Call :=
  { name := "pwrite64", args := [fd, .pointer addr (some (.data data)), .const info.length, .const info.offset] }

def preadCall (addr : UInt64) (fd : Arg) (info : WriteInfo) : Call :=
  { name := "pread64", args := [fd, .pointer addr (some (.outData info.length)), .const info.length, .const info.offset] }

def genRecvCall (syncIdx : UInt64) : Call := { name := "syz_failure_recv", args := [.const syncIdx], isFCall := true }

def genSendCall (syncIdx : UInt64) : Call := { name := "syz_failure_send", args := [.const syncIdx], isFCall := true }

def genSyncCall (syncIdx : UInt64) (nodeIdx : Nat) : Call :=
  { name := "syz_failure_sync", args := [.const syncIdx, .const (UInt64.ofNat nodeIdx)], isFCall := true }

def genNetDownCall (hmcfg : HmdfsConfig) (addr : UInt64) (targetNodes : List Nat) : Call :=
  { name := "syz_failure_net_down", isFCall := true,
    args := [.pointer addr (some (.data (Buffers.newCmd ⟨hmcfg.nodeNum, hmcfg.initIp⟩ targetNodes)))] }

def genNetUpCall : Call := { name := "syz_failure_net_up", isFCall := true }

/-- The arguments that `generateArg` makes for an out buffer: its result objects are new and refer to
nothing. `build n` numbers them from `n` on. -/
structure OutBuffer where
  build : Nat → Arg
  size : Nat
  results : ∀ n, argResults (build n) = List.range' n size
  refs : ∀ n, argRefs (build n) = []

/-- The result of `generateArg` for a plain buffer. -/
def OutBuffer.plain (addr size : UInt64) : OutBuffer where
  build _ := .pointer addr (some (.outData size))
  size := 0
  results _ := rfl
  refs _ := rfl

structure CallChoice where
  draw : Nat → Draw
  data : Nat → Draw
  addr : Nat → UInt64
  suffix : String
  buffer : OutBuffer
  count : UInt64

def smallSize (draw : Draw) : UInt64 := UInt64.ofNat (draw.intn 1024) + 1

def upTo8192 (draw : Draw) (limit : UInt64) : Option UInt64 := randRange draw 1 (minInt limit.toInt64 8192).toUInt64

/-- The size of a read or a write, from the size of the file 4 of 5 times. -/
def drawSize (ch : CallChoice) (fileSize limit : UInt64) : Option UInt64 :=
  if fileSize > 0 && nOutOf (ch.draw 1) 4 5 then upTo8192 (ch.draw 2) limit else some (smallSize (ch.draw 0))

def preadRegion (ch : CallChoice) (fileSize : UInt64) : Option WriteInfo :=
  if fileSize > 0 && nOutOf (ch.draw 2) 4 5 then
    (randRange (ch.draw 3) 0 (fileSize + 4096)).bind fun offset =>
      (if offset < fileSize then upTo8192 (ch.draw 4) (fileSize - offset + 4096) else randRange (ch.draw 4) 1 8192).map
        fun size => ⟨offset, size⟩
  else some ⟨UInt64.ofNat ((ch.draw 0).intn 1024), smallSize (ch.draw 1)⟩

def pwriteRegion (ch : CallChoice) (fileSize : UInt64) : Option WriteInfo :=
  if fileSize > 0 && nOutOf (ch.draw 2) 4 5 then
    (randRange (ch.draw 3) 0 (fileSize + 4096)).bind fun offset =>
      (upTo8192 (ch.draw 4) (fileSize + 4096)).map fun size => ⟨offset, size⟩
  else some ⟨UInt64.ofNat ((ch.draw 0).intn 1024), smallSize (ch.draw 1)⟩

def truncLen (ch : CallChoice) (fileSize : UInt64) : Option UInt64 :=
  if fileSize > 0 && nOutOf (ch.draw 0) 4 5 then randRange (ch.draw 1) 0 (fileSize * 2)
  else some (UInt64.ofNat ((ch.draw 1).intn 8192))

def randomData (ch : CallChoice) (length : UInt64) : List UInt8 :=
  (List.range length.toNat).map fun j => UInt8.ofNat ((ch.data j).intn 256)

def pathCall (name : String) (ch : CallChoice) (path : String) (rest : List Arg) : Call :=
  { name, args := pathArg (ch.addr 0) path :: rest }

def generateTruncateCallWithPath (ch : CallChoice) (path : String) (fileSize : UInt64) : Option Call :=
  (truncLen ch fileSize).map fun len => pathCall "truncate" ch path [.const len]

def generateChmodCallWithPath (ch : CallChoice) (path : String) : Call :=
  pathCall "chmod" ch path [.const (UInt64.ofNat ((ch.draw 0).intn 0o777) + 1)]

def generateMkdirCallWithPath (ch : CallChoice) (path : String) : Call := pathCall "mkdir" ch path [.const 0o755]

def generateRmdirCallWithPath (ch : CallChoice) (path : String) : Call := pathCall "rmdir" ch path []

def generateUnlinkCallWithPath (ch : CallChoice) (path : String) : Call := pathCall "unlink" ch path []

def generateRenameCallWithPaths (ch : CallChoice) (oldPath newPath : String) : Call :=
  pathCall "rename" ch oldPath [pathArg (ch.addr 1) newPath]

def generateStatCallWithPath (ch : CallChoice) (path : String) (g : StashGroup) : Call × StashGroup :=
  (pathCall "stat" ch path [ch.buffer.build g.next], { g with next := g.next + ch.buffer.size })

def generateCreatCallWithPath (ch : CallChoice) (path : String) (g : StashGroup) : Call × StashGroup :=
  ({ pathCall "creat" ch path [.const 0o666] with ret := some g.next }, { g with next := g.next + 1 })

def generateOpenCallSeq (ch : CallChoice) (path : String) (flags : UInt64) (g : StashGroup) : Call × StashGroup :=
  (openCall (ch.addr 0) path flags 0o666 g.next, { g with next := g.next + 1 })

/-- A call whose first argument is a reference to the result `fd`. -/
def fdCall (name : String) (rest : List Arg) (fd : ResultId) (g : StashGroup) : Call × StashGroup :=
  let (id, g) := makeResultArg g fd
  ({ name, args := .result id (some fd) 0 :: rest }, g)

def generateCloseCall : ResultId → StashGroup → Call × StashGroup := fdCall "close" []

def generateFsyncCall : ResultId → StashGroup → Call × StashGroup := fdCall "fsync" []

def generateReadCallsSeq (ch : CallChoice) (size : UInt64) : ResultId → StashGroup → Call × StashGroup :=
  fdCall "read" [.pointer (ch.addr 1) (some (.outData size)), .const size]

def generateWriteCallsSeq (ch : CallChoice) (size : UInt64) : ResultId → StashGroup → Call × StashGroup :=
  fdCall "write" [.pointer (ch.addr 1) (some (.data (randomData ch size))), .const size]

def generatePreadCallsSeq (ch : CallChoice) (info : WriteInfo) : ResultId → StashGroup → Call × StashGroup :=
  fdCall "pread64" [.pointer (ch.addr 1) (some (.outData info.length)), .const info.length, .const info.offset]

def generatePwriteCallsSeq (ch : CallChoice) (info : WriteInfo) : ResultId → StashGroup → Call × StashGroup :=
  fdCall "pwrite64" [.pointer (ch.addr 1) (some (.data (randomData ch info.length))), .const info.length, .const info.offset]

/-- The buffer's objects come behind the argument for the descriptor. -/
def generateGetdents64CallWithFd (ch : CallChoice) (fd : ResultId) (g : StashGroup) : Call × StashGroup :=
  let (call, g) := fdCall "getdents64" [ch.buffer.build (g.next + 1), .const ch.count] fd g
  (call, { g with next := g.next + ch.buffer.size })

/-- The existing descriptor is used, or one that is opened before and closed behind; `use` is `none`
where its draws panic. Without the descriptor that it is told to use the call is left out. -/
def onFd (ch : CallChoice) (path : String) (flags : UInt64) (existingFd : Option ResultId) (useExistFd : Bool)
    (use : Option (ResultId → StashGroup → Call × StashGroup)) (g : StashGroup) : Option (List Call × StashGroup) :=
  if useExistFd then
    match existingFd with
    | none => some ([], g)
    | some fd => use.map fun use =>
      let (call, g) := use fd g
      ([call], g)
  else use.map fun use =>
    let fd := g.next
    let (opened, g) := generateOpenCallSeq ch path flags g
    let (call, g) := use fd g
    let (closed, g) := generateCloseCall fd g
    ([opened, call, closed], g)

def single (made : Call × StashGroup) : Option (List Call × StashGroup) := some ([made.1], made.2)

def generateCallByName (ch : CallChoice) (callName path path2 : String) (existingFd : Option ResultId) (useExistFd : Bool)
    (fileSize flags : UInt64) (g : StashGroup) : Option (List Call × StashGroup) :=
  if callName = "open" then single (generateOpenCallSeq ch path flags g)
  else if callName = "close" then
    if useExistFd then
      match existingFd with
      | none => some ([], g)
      | some fd => single (generateCloseCall fd g)
    else
      let (opened, g') := generateOpenCallSeq ch path flags g
      let (closed, g') := generateCloseCall g.next g'
      some ([opened, closed], g')
  else if callName = "read" then
    (drawSize ch fileSize fileSize).bind fun size =>
      onFd ch path flags existingFd useExistFd (some (generateReadCallsSeq ch size)) g
  else if callName = "write" then
    (drawSize ch fileSize (fileSize + 4096)).bind fun size =>
      onFd ch path flags existingFd useExistFd (some (generateWriteCallsSeq ch size)) g
  else if callName = "pread64" then
    onFd ch path flags existingFd useExistFd ((preadRegion ch fileSize).map (generatePreadCallsSeq ch)) g
  else if callName = "pwrite64" then
    onFd ch path flags existingFd useExistFd ((pwriteRegion ch fileSize).map (generatePwriteCallsSeq ch)) g
  else if callName = "truncate" then (generateTruncateCallWithPath ch path fileSize).map fun call => ([call], g)
  else if callName = "chmod" then single (generateChmodCallWithPath ch path, g)
  else if callName = "mkdir" then single (generateMkdirCallWithPath ch path, g)
  else if callName = "rmdir" then single (generateRmdirCallWithPath ch path, g)
  else if callName = "creat" then single (generateCreatCallWithPath ch path g)
  else if callName = "unlink" then single (generateUnlinkCallWithPath ch path, g)
  else if callName = "rename" then
    let path2 := if path2 ≠ "" then path2 else path ++ "._renamed_" ++ ch.suffix
    single (generateRenameCallWithPaths ch path path2, g)
  else if callName = "stat" then single (generateStatCallWithPath ch path g)
  else if callName = "fsync" then onFd ch path flags existingFd useExistFd (some generateFsyncCall) g
  else if callName = "getdents64" then onFd ch path flags existingFd useExistFd (some (generateGetdents64CallWithFd ch)) g
  else some ([], g)

end DfsFuzz.Generate
