import DfsFuzz.Generate.InsertDct
import DfsFuzz.Mutation.DynamicGroup
import DfsFuzz.Mutation.RelationKept
import DfsFuzz.Prog.FdInfo

/-!
Path migration of a dynamic group (`MutateGroupPathDynamic` of `prog/mutation.go`): the anchor and its
group move to a new base path, each through the open that its descriptor goes back to.
-/

namespace DfsFuzz.Mutation

open DfsFuzz.Choice DfsFuzz.Generate DfsFuzz.Tree

structure PathDraws where
  /-- the call that an attempt looks at -/
  anchor : Nat → Draw
  /-- the keys of the maps by client, in the order in which `range` visits them -/
  cids : List String
  /-- the node when no client has a candidate -/
  fallback : Draw
  /-- where the weighted choice falls, in eighths -/
  weight : Nat
  /-- the node for a call of the group -/
  node : Nat → Draw
  /-- the suffix of an update of a rename -/
  suffix : Nat → String

def pickAttempt (ps : List Prog) (p : Prog) (wantReadWrite : Bool) (draw : Draw) : Option (GroupPosition × String) :=
  let idx := draw.intn p.calls.length
  match p.calls[idx]? with
  | none => none
  | some call =>
    if wantReadWrite && !Refs.isWriteCall call.name && !Refs.isReadCall call.name then none
    else
      let path := pathOfCall ps ⟨0, idx⟩
      if path = "" || call.checkInfo.isNone then none else some (⟨0, idx⟩, path)

def pickAnchor (ps : List Prog) (draws : Nat → Draw) (wantReadWrite : Bool) : Option (GroupPosition × String) :=
  match ps[0]? with
  | none => none
  | some p =>
    if p.calls.length = 0 then none
    else (List.range 8).findSome? fun attempt => pickAttempt ps p wantReadWrite (draws attempt)

def getAllFileNodesExcluding (ft : FileTree) (cids : List String) (excludeCid : String) : List NodeRef :=
  (cids.filter (· ≠ excludeCid)).flatMap ft.filesByCid

def getAllNonTmpDirNodesExcluding (ft : FileTree) (cids : List String) (excludeCid : String) : List NodeRef :=
  ((cids.filter (· ≠ excludeCid)).flatMap ft.dirsByCid).filter fun n =>
    (ft.node n).type = .dir || (ft.node n).type = .emptyDir

def getLengthBucket (l : Nat) : Nat :=
  if l < 64 then 0
  else if l < 128 then 1
  else if l < 256 then 2
  else if l < 512 then 3
  else if l < 1024 then 4
  else if l < 2048 then 5
  else if l < 4096 then 6
  else 7

def getMaxComponentLength (fullPath : String) : Nat := ((Go.split fullPath '/').map String.length).foldl max 0

def totalLenWeights : List Nat := [6, 4, 3, 2, 2, 3, 4, 6]

def maxCompWeights : List Nat := [2, 2, 2, 3, 4, 4, 4, 4]

/-- In eighths: each of the last three factors is a number of halves. -/
def calculateNodeWeight (node : FileNode) : Nat :=
  let w := if node.size ≤ 4096 then 2 else 1
  let w := if node.size > 1048576 then w * 2 else w
  let depth := Go.count node.fullPath '/'
  let w := if depth ≥ 4 then w * 4 else if depth ≥ 2 then w * 3 else w * 2
  let w := w * totalLenWeights.getD (getLengthBucket node.pathLength) 0
  w * maxCompWeights.getD (getLengthBucket (getMaxComponentLength node.fullPath)) 0

def baseCandidates (ft : FileTree) (seedType excludeCid : String) (r : PathDraws) : List NodeRef :=
  if seedType = "fileops" then
    let candidates := getAllFileNodesExcluding ft r.cids excludeCid
    if candidates = [] then (getRandomFile ft "" r.fallback).toList else candidates
  else
    let candidates := getAllNonTmpDirNodesExcluding ft r.cids excludeCid
    if candidates = [] then (getRandomDir ft "" r.fallback).toList else candidates

def pickNewBasePath (ft : FileTree) (seedType excludeCid : String) (r : PathDraws) : String :=
  let candidates := baseCandidates ft seedType excludeCid r
  match (WeightedPick.pick (fun n => calculateNodeWeight (ft.node n)) r.weight 0 candidates).or candidates.getLast? with
  | some n => (ft.node n).fullPath
  | none => ""

def resultOf : Arg → Option ResultId
  | .result _ res _ => res
  | _ => none

def dataOf : Arg → Option (List UInt8)
  | .pointer _ (some (.data bytes)) => some bytes
  | _ => none

/-- The object that argument `argIdx` refers to. -/
def argResult (call : Call) (argIdx : Nat) : Option ResultId := call.args[argIdx]?.bind resultOf

/-- What a pointer to data in argument `argIdx` holds. -/
def argData (call : Call) (argIdx : Nat) : Option (List UInt8) := call.args[argIdx]?.bind dataOf

/-- The loop `for i := pos.CallIdx - 1; i >= 0; i--` that looks for the open or creat behind a descriptor. -/
def openBefore (p : Prog) (fdRes : ResultId) : Nat → Option Nat
  | 0 => none
  | i + 1 =>
    match p.calls[i]? with
    | none => openBefore p fdRes i
    | some prevCall =>
      if (Go.contains prevCall.name "open" || Go.contains prevCall.name "creat") && prevCall.ret == some fdRes then some i
      else openBefore p fdRes i

def resolveFdTarget (ps : List Prog) (pos : GroupPosition) : GroupPosition :=
  match ps[pos.progIdx]? with
  | none => pos
  | some p =>
    match p.calls[pos.callIdx]? with
    | none => pos
    | some call =>
      if metaCallName call.name ∈ pathArgCalls then pos
      else
        match argResult call 0 with
        | none => pos
        | some fdRes => ((openBefore p fdRes pos.callIdx).map fun i => ⟨pos.progIdx, i⟩).getD pos

section Rewrite

variable (assignSizesCall : Call → Call)

def updateCallPathByArgIdx (call : Call) (argIdx : Nat) (newPath : String) : Call :=
  match call.args[argIdx]? with
  | some (.pointer address (some (.data _))) => assignSizesCall { call with args := call.args.set argIdx (pathArg address newPath) }
  | _ => call

def updateCallPath (call : Call) (newPath suffix : String) : Call :=
  if (argData call 0).isNone then call
  else
    let call := updateCallPathByArgIdx assignSizesCall call 0 newPath
    if Go.contains call.name "rename" then updateCallPathByArgIdx assignSizesCall call 1 (newPath ++ "._renamed_" ++ suffix)
    else call

def updateCallPathInProg (p : Prog) (callIdx : Nat) (newPath suffix : String) : Prog :=
  { p with calls := p.calls.modify callIdx fun call => updateCallPath assignSizesCall call newPath suffix }

structure PathUpdate where
  pos : GroupPosition
  newPath : String
  suffix : String

def applyUpdate (ps : List Prog) (u : PathUpdate) : List Prog :=
  ps.modify u.pos.progIdx fun p => updateCallPathInProg assignSizesCall p u.pos.callIdx u.newPath u.suffix

end Rewrite

structure Migration where
  anchor : GroupPosition
  anchorPath : String
  conc : List ConcurrentCall
  newBasePath : String
deriving DecidableEq

/-- The first half of the function; `none` is an early `return false`. -/
def startMigration (ps : List Prog) (ft : FileTree) (tscoffs : List Int64) (r : PathDraws) : Option Migration :=
  match pickAnchor ps r.anchor false with
  | none => none
  | some (anchor, anchorPath) =>
    let conc := findGroupCalls ps anchor anchorPath tscoffs
    if conc = [] then none
    else
      let seedType := if isDirPath ft anchorPath then "inodeops" else "fileops"
      let newBasePath := pickNewBasePath ft seedType "" r
      if newBasePath = "" then none else some { anchor, anchorPath, conc, newBasePath }

/-- The path for a call in relation `rel` to the anchor. -/
def memberPath (ft : FileTree) (newBasePath : String) (rel : PathRelation) (draw : Draw) : String :=
  let newPath := getPathByRelation ft newBasePath "" rel draw draw false .any
  if newPath = "" then newBasePath else newPath

def memberUpdate (ps : List Prog) (ft : FileTree) (r : PathDraws) (newBasePath : String) (cc : ConcurrentCall × Nat) :
    PathUpdate :=
  ⟨resolveFdTarget ps cc.1.pos, memberPath ft newBasePath cc.1.rel (r.node cc.2), r.suffix (cc.2 + 1)⟩

def pathUpdates (ps : List Prog) (ft : FileTree) (r : PathDraws) (m : Migration) : List PathUpdate :=
  ⟨resolveFdTarget ps m.anchor, m.newBasePath, r.suffix 0⟩ :: m.conc.zipIdx.map (memberUpdate ps ft r m.newBasePath)

def mutateGroupPathDynamic (assignSizesCall : Call → Call) (ps : List Prog) (fileTree : Option FileTree)
    (tscoffs : List Int64) (r : PathDraws) : List Prog × Bool :=
  match fileTree with
  | none => (ps, false)
  | some ft =>
    match startMigration ps ft tscoffs r with
    | none => (ps, false)
    | some m => ((pathUpdates ps ft r m).foldl (applyUpdate assignSizesCall) ps, true)

/-- The open or creat behind the descriptor of a call. -/
def fdOpen (ps : List Prog) (pos : GroupPosition) : Option GroupPosition :=
  ps[pos.progIdx]?.bind fun p =>
    (p.calls[pos.callIdx]?.bind fun call => argResult call 0).bind fun fdRes =>
      (openBefore p fdRes pos.callIdx).map fun i => ⟨pos.progIdx, i⟩

/-- The path in the arguments of the call itself. -/
def ownPath (ps : List Prog) (pos : GroupPosition) : String := ((callAt ps pos).map extractPathFromCall).getD ""

/-- The first argument of the call holds a path that can be rewritten. -/
def TakesPath (ps : List Prog) (pos : GroupPosition) : Prop := ((callAt ps pos).bind fun call => argData call 0).isSome = true

instance (ps : List Prog) (pos : GroupPosition) : Decidable (TakesPath ps pos) := inferInstanceAs (Decidable (_ = true))

/-! ### What `assignSizesCall` and the tree promise -/

/-- `assignSizesCall` sets values of constants: buffers, references and the rest of the call stay. -/
structure SizesOnly (assignSizesCall : Call → Call) : Prop where
  name : ∀ call, (assignSizesCall call).name = call.name
  ret : ∀ call, (assignSizesCall call).ret = call.ret
  data : ∀ call argIdx, argData (assignSizesCall call) argIdx = argData call argIdx
  result : ∀ call argIdx, argResult (assignSizesCall call) argIdx = argResult call argIdx

/-- The text has one character for each byte, as a Go string has. -/
def ByteText (s : String) : Prop := ∀ c ∈ s.toList, c.toNat < 256

instance (s : String) : Decidable (ByteText s) := List.decidableBAll _ s.toList

def ByteTexts (ft : FileTree) : Prop := ∀ n, ByteText (ft.node n).fullPath

theorem ByteText.append {s t : String} (left : ByteText s) (right : ByteText t) : ByteText (s ++ t) := by
  intro c member
  rw [String.toList_append] at member
  exact (List.mem_append.mp member).elim (left c) (right c)

variable {ft : FileTree}

theorem ByteTexts.modify (texts : ByteTexts ft) (n : NodeRef) {f : FileNode → FileNode}
    (path : (f (ft.node n)).fullPath = (ft.node n).fullPath) : ByteTexts (ft.modify n f) := by
  intro k
  unfold FileTree.modify
  dsimp only
  rw [Function.update_apply]
  split_ifs
  · exact path ▸ texts n
  · exact texts k

theorem ByteTexts.newChild (texts : ByteTexts ft) (parent : NodeRef) {part : String} (text : ByteText part)
    (type : FileNodeType) (ownerCid : String) : ByteTexts (ft.newChild parent part type ownerCid) := by
  unfold FileTree.newChild
  apply ByteTexts.modify
  · intro k
    dsimp only
    rw [Function.update_apply]
    split_ifs
    · exact ((texts parent).append (by decide)).append text
    · exact texts k
  · rfl

theorem ByteTexts.register (texts : ByteTexts ft) (current : NodeRef) (nodeType : FileNodeType) (ownerCid : String) :
    ByteTexts (ft.register current nodeType ownerCid) := by
  have measured : ByteTexts (({ ft with nodesByCid := ft.nodesByCid.appendNew ownerCid current } : FileTree).modify current
      fun n => { n with pathLength := n.fullPath.length }) := by
    apply ByteTexts.modify
    · exact texts
    · rfl
  unfold FileTree.register
  dsimp only
  split_ifs
  · exact measured
  · exact measured

theorem ByteTexts.addLoop (texts : ByteTexts ft) {parts : List String} (byteParts : ∀ part ∈ parts, ByteText part)
    (nodeType : FileNodeType) (ownerCid : String) (current : NodeRef) :
    ByteTexts (ft.addLoop nodeType ownerCid current parts).1 := by
  induction parts generalizing ft current with
  | nil => exact texts
  | cons part rest ih =>
    have later : ∀ part ∈ rest, ByteText part := fun part member => byteParts part (List.mem_cons_of_mem _ member)
    have first := byteParts part List.mem_cons_self
    rw [FileTree.addLoop]
    split_ifs with empty
    · exact ih texts later _
    · dsimp only
      split
      · split_ifs
        · exact ih (texts.modify _ rfl) later _
        · exact ih texts later _
      · split_ifs
        · exact ih (texts.newChild _ first _ _) later _
        · exact ih (texts.newChild _ first _ _) later _

variable {path : String}

theorem ByteTexts.addNode (texts : ByteTexts ft)
    (byteParts : ∀ part ∈ Go.split (FileTree.cleanPath path) '/', ByteText part) (nodeType : FileNodeType)
    (ownerCid : String) : ByteTexts (ft.addNode path nodeType ownerCid) := by
  unfold FileTree.addNode FileTree.addNodeLocked
  split_ifs
  · exact texts
  · exact (texts.addLoop byteParts nodeType ownerCid root).register _ _ _

theorem newFileTree_byteTexts : ByteTexts newFileTree := by
  intro n
  unfold newFileTree
  dsimp only
  rw [Function.update_apply]
  split_ifs
  · decide
  · decide

variable {bytes : List UInt8}

theorem dataOf_eq_some {arg : Arg} :
    dataOf arg = some bytes ↔ ∃ address, arg = .pointer address (some (.data bytes)) := by
  constructor
  · intro holds
    unfold dataOf at holds
    split at holds
    · cases holds
      exact ⟨_, rfl⟩
    · cases holds
  · rintro ⟨address, rfl⟩
    rfl

variable {call : Call} {argIdx : Nat}

theorem argData_eq_some :
    argData call argIdx = some bytes ↔ ∃ address, call.args[argIdx]? = some (.pointer address (some (.data bytes))) := by
  rw [argData, Option.bind_eq_some_iff]
  constructor
  · rintro ⟨arg, read, holds⟩
    obtain ⟨address, rfl⟩ := dataOf_eq_some.mp holds
    exact ⟨address, read⟩
  · rintro ⟨address, read⟩
    exact ⟨_, read, rfl⟩

theorem extractPath_eq (call : Call) (argIdx : Nat) :
    extractPathFromCallByArgIdx call argIdx =
      ((argData call argIdx).map fun bytes => Go.trimSuffix (Go.ofBytes bytes) "\x00").getD "" := by
  cases holds : argData call argIdx with
  | some bytes =>
    obtain ⟨address, read⟩ := argData_eq_some.mp holds
    rw [extractPathFromCallByArgIdx, read]
    rfl
  | none =>
    unfold extractPathFromCallByArgIdx
    split
    · rename_i read
      rw [argData_eq_some.mpr ⟨_, read⟩] at holds
      cases holds
    · rfl

theorem argResult_none_of_data (holds : argData call argIdx = some bytes) : argResult call argIdx = none := by
  obtain ⟨address, read⟩ := argData_eq_some.mp holds
  rw [argResult, read]
  rfl

theorem trimSuffix_zero (chars : List Char) : Go.trimSuffix (String.ofList (chars ++ ['\x00'])) "\x00" = String.ofList chars := by
  have ends : Go.hasSuffix (String.ofList (chars ++ ['\x00'])) "\x00" = true := by
    rw [Go.hasSuffix, List.isSuffixOf_iff_suffix, String.toList_ofList, String.toList_ofList]
    exact List.suffix_append _ _
  have one : "\x00".toList.length = 1 := rfl
  rw [Go.trimSuffix, if_pos ends, String.toList_ofList, one, List.length_append, List.length_singleton,
    Nat.add_sub_cancel, List.take_left']
  rfl

theorem text_readBack (text : ByteText path) :
    Go.trimSuffix (Go.ofBytes (Buffers.toBytes path ++ [0])) "\x00" = path := by
  have chars : (Buffers.toBytes path).map (fun b => Char.ofNat b.toNat) = path.toList := by
    rw [Buffers.toBytes, List.map_map]
    conv_rhs => rw [← List.map_id path.toList]
    refine List.map_congr_left fun c member => ?_
    simp only [Function.comp_apply, id_eq, UInt8.toNat_ofNat']
    rw [Nat.mod_eq_of_lt (text c member), Char.ofNat_toNat]
  rw [Go.ofBytes, List.map_append, chars, show [(0 : UInt8)].map (fun b => Char.ofNat b.toNat) = ['\x00'] from rfl,
    trimSuffix_zero, String.ofList_toList]

/-! ### One update -/

structure Keeps (call call' : Call) : Prop where
  name : call'.name = call.name
  ret : call'.ret = call.ret
  result : ∀ argIdx, argResult call' argIdx = argResult call argIdx

theorem Keeps.rfl : Keeps call call := ⟨Eq.refl _, Eq.refl _, fun _ => Eq.refl _⟩

theorem Keeps.trans {a b c : Call} (one : Keeps a b) (two : Keeps b c) : Keeps a c where
  name := two.name.trans one.name
  ret := two.ret.trans one.ret
  result argIdx := (two.result argIdx).trans (one.result argIdx)

theorem updateCallPathByArgIdx_none {assignSizesCall : Call → Call} (none : argData call argIdx = none)
    (newPath : String) : updateCallPathByArgIdx assignSizesCall call argIdx newPath = call := by
  unfold updateCallPathByArgIdx
  split
  · rename_i read
    rw [argData_eq_some.mpr ⟨_, read⟩] at none
    cases none
  · rfl

/-- The path that the updates leave in a call. -/
def newPathOf (updates : List PathUpdate) (pos : GroupPosition) : Option String :=
  (updates.reverse.find? fun u => u.pos = pos).map PathUpdate.newPath

/-- The updates give this path to a call that takes one. -/
structure Moves (ps : List Prog) (updates : List PathUpdate) (pos : GroupPosition) (path : String) : Prop where
  takes : TakesPath ps pos
  given : newPathOf updates pos = some path

theorem newPathOf_cons (u : PathUpdate) (updates : List PathUpdate) (pos : GroupPosition) :
    newPathOf (u :: updates) pos = (newPathOf updates pos).or (if u.pos = pos then some u.newPath else none) := by
  rw [newPathOf, newPathOf, List.reverse_cons, List.find?_append]
  cases updates.reverse.find? fun u => u.pos = pos with
  | some later => rfl
  | none =>
    by_cases here : u.pos = pos
    · simp [here]
    · simp [here]

variable {updates : List PathUpdate} {pos : GroupPosition}

theorem newPathOf_eq_some :
    newPathOf updates pos = some path ↔
      ∃ (k : Nat) (u : PathUpdate), updates[k]? = some u ∧ u.pos = pos ∧ u.newPath = path ∧
        ∀ (j : Nat) (v : PathUpdate), k < j → updates[j]? = some v → v.pos ≠ pos := by
  induction updates with
  | nil => simp [newPathOf]
  | cons u updates ih =>
    rw [newPathOf_cons, Option.or_eq_some_iff]
    constructor
    · rintro (later | ⟨none, here⟩)
      · obtain ⟨k, v, place, at_pos, given, last⟩ := ih.mp later
        refine ⟨k + 1, v, place, at_pos, given, fun j w behind read => ?_⟩
        obtain ⟨j, rfl⟩ : ∃ i, j = i + 1 := ⟨j - 1, by omega⟩
        exact last j w (by omega) read
      · split_ifs at here with at_pos
        cases here
        refine ⟨0, u, rfl, at_pos, rfl, fun j w behind read same => ?_⟩
        obtain ⟨j, rfl⟩ : ∃ i, j = i + 1 := ⟨j - 1, by omega⟩
        rw [newPathOf, Option.map_eq_none_iff, List.find?_eq_none] at none
        exact none w (List.mem_reverse.mpr (List.mem_of_getElem? read)) (by simpa using same)
    · rintro ⟨k, v, place, at_pos, given, last⟩
      cases k with
      | succ k =>
        refine .inl (ih.mpr ⟨k, v, place, at_pos, given, fun j w behind read => ?_⟩)
        exact last (j + 1) w (by omega) read
      | zero =>
        cases place
        refine .inr ⟨?_, by rw [if_pos at_pos, given]⟩
        rw [newPathOf, Option.map_eq_none_iff, List.find?_eq_none]
        intro w member same
        obtain ⟨j, read⟩ := List.getElem?_of_mem (List.mem_reverse.mp member)
        exact last (j + 1) w (by omega) read (by simpa using same)

/-- What the search for an open reads of a call. -/
def signature (call : Call) : String × Option ResultId := (call.name, call.ret)

section Update

variable {assignSizesCall : Call → Call} (sizes : SizesOnly assignSizesCall)

include sizes

theorem updateCallPathByArgIdx_keeps (call : Call) (argIdx : Nat) (newPath : String) :
    Keeps call (updateCallPathByArgIdx assignSizesCall call argIdx newPath) := by
  cases holds : argData call argIdx with
  | none => rw [updateCallPathByArgIdx_none holds]; exact Keeps.rfl
  | some bytes =>
    obtain ⟨address, read⟩ := argData_eq_some.mp holds
    simp only [updateCallPathByArgIdx, read]
    refine ⟨sizes.name _, sizes.ret _, fun j => ?_⟩
    rw [sizes.result, argResult, argResult, List.getElem?_set]
    split_ifs with here inside
    · rw [← here, read]
      rfl
    · rw [List.getElem?_eq_none (by omega)]
    · rfl

theorem updateCallPathByArgIdx_data (holds : argData call argIdx = some bytes) (newPath : String) (j : Nat) :
    argData (updateCallPathByArgIdx assignSizesCall call argIdx newPath) j =
      if argIdx = j then some (Buffers.toBytes newPath ++ [0]) else argData call j := by
  obtain ⟨address, read⟩ := argData_eq_some.mp holds
  obtain ⟨inside, -⟩ := List.getElem?_eq_some_iff.mp read
  simp only [updateCallPathByArgIdx, read]
  rw [sizes.data, argData, List.getElem?_set]
  split_ifs
  · rfl
  · rfl

theorem updateCallPath_keeps (call : Call) (newPath suffix : String) :
    Keeps call (updateCallPath assignSizesCall call newPath suffix) := by
  unfold updateCallPath
  dsimp only
  split_ifs
  · exact Keeps.rfl
  · exact (updateCallPathByArgIdx_keeps sizes call 0 newPath).trans (updateCallPathByArgIdx_keeps sizes _ 1 _)
  · exact updateCallPathByArgIdx_keeps sizes call 0 newPath

theorem updateCallPath_data (call : Call) (newPath suffix : String) :
    argData (updateCallPath assignSizesCall call newPath suffix) 0 =
      (argData call 0).map fun _ => Buffers.toBytes newPath ++ [0] := by
  unfold updateCallPath
  cases holds : argData call 0 with
  | none => simpa using holds
  | some bytes =>
    have first := updateCallPathByArgIdx_data sizes holds newPath 0
    rw [if_pos rfl] at first
    simp only [Option.isNone_some, Bool.false_eq_true, if_false, Option.map_some]
    split_ifs
    · cases second : argData (updateCallPathByArgIdx assignSizesCall call 0 newPath) 1 with
      | none => rw [updateCallPathByArgIdx_none second, first]
      | some bytes' => rw [updateCallPathByArgIdx_data sizes second, if_neg (by decide), first]
    · exact first

theorem updateCallPath_path {newPath : String} (text : ByteText newPath) (call : Call) (suffix : String) :
    extractPathFromCall (updateCallPath assignSizesCall call newPath suffix) =
      if (argData call 0).isSome then newPath else extractPathFromCall call := by
  rw [extractPathFromCall, extractPathFromCall, extractPath_eq, extractPath_eq, updateCallPath_data sizes]
  cases argData call 0 with
  | none => rfl
  | some bytes => simpa using text_readBack text

/-! ### The programs after an update -/

omit sizes in
theorem callAt_applyUpdate (ps : List Prog) (u : PathUpdate) (pos : GroupPosition) :
    callAt (applyUpdate assignSizesCall ps u) pos =
      if u.pos = pos then (callAt ps pos).map fun call => updateCallPath assignSizesCall call u.newPath u.suffix
      else callAt ps pos := by
  obtain ⟨progIdx, callIdx⟩ := pos
  rw [callAt, callAt, applyUpdate, List.getElem?_modify]
  cases ps[progIdx]? with
  | none => simp
  | some p =>
    by_cases here : u.pos.progIdx = progIdx
    · simp only [here, if_true, Option.map_eq_map, Option.map_some, Option.bind_some, updateCallPathInProg, List.getElem?_modify]
      by_cases place : u.pos.callIdx = callIdx
      · have same : u.pos = ⟨progIdx, callIdx⟩ := by rw [← here, ← place]
        simp [same]
      · have other : u.pos ≠ ⟨progIdx, callIdx⟩ := fun same => place (by rw [same])
        simp [place, other]
    · have other : u.pos ≠ ⟨progIdx, callIdx⟩ := fun same => here (by rw [same])
      simp [here, other]

omit sizes in
theorem openBefore_congr {p p' : Prog}
    (same : ∀ i : Nat, p'.calls[i]?.map signature = p.calls[i]?.map signature)
    (fdRes : ResultId) (n : Nat) : openBefore p' fdRes n = openBefore p fdRes n := by
  induction n with
  | zero => rfl
  | succ i ih =>
    have here := same i
    rw [openBefore, openBefore]
    cases before : p.calls[i]? with
    | none =>
      rw [before, Option.map_none, Option.map_eq_none_iff] at here
      rw [here]
      exact ih
    | some call =>
      rw [before, Option.map_some, Option.map_eq_some_iff] at here
      obtain ⟨call', after, sig⟩ := here
      obtain ⟨name, ret⟩ := Prod.mk.inj sig
      rw [after]
      dsimp only
      rw [name, ret, ih]

theorem updateCallPathInProg_signature (p : Prog) (callIdx : Nat) (newPath suffix : String) (i : Nat) :
    (updateCallPathInProg assignSizesCall p callIdx newPath suffix).calls[i]?.map signature = p.calls[i]?.map signature := by
  rw [updateCallPathInProg, List.getElem?_modify]
  cases p.calls[i]? with
  | none => rfl
  | some call =>
    have keeps := updateCallPath_keeps sizes call newPath suffix
    by_cases here : callIdx = i
    · simp [here, signature, keeps.name, keeps.ret]
    · simp [here]

theorem fdOpen_applyUpdate (ps : List Prog) (u : PathUpdate) (pos : GroupPosition) :
    fdOpen (applyUpdate assignSizesCall ps u) pos = fdOpen ps pos := by
  rw [fdOpen, fdOpen, applyUpdate, List.getElem?_modify]
  cases ps[pos.progIdx]? with
  | none => rfl
  | some p =>
    by_cases here : u.pos.progIdx = pos.progIdx
    · have found : ∀ fdRes n, openBefore (updateCallPathInProg assignSizesCall p u.pos.callIdx u.newPath u.suffix) fdRes n =
          openBefore p fdRes n := openBefore_congr (updateCallPathInProg_signature sizes p _ _ _)
      have result : ((updateCallPathInProg assignSizesCall p u.pos.callIdx u.newPath u.suffix).calls[pos.callIdx]?.bind
          fun call => argResult call 0) = p.calls[pos.callIdx]?.bind fun call => argResult call 0 := by
        rw [updateCallPathInProg, List.getElem?_modify]
        cases p.calls[pos.callIdx]? with
        | none => rfl
        | some call =>
          by_cases place : u.pos.callIdx = pos.callIdx
          · simp [place, (updateCallPath_keeps sizes call u.newPath u.suffix).result]
          · simp [place]
      simp only [here, if_true, Option.map_eq_map, Option.map_some, Option.bind_some, found, result]
    · simp [here]

theorem takesPath_applyUpdate (ps : List Prog) (u : PathUpdate) (pos : GroupPosition) :
    TakesPath (applyUpdate assignSizesCall ps u) pos ↔ TakesPath ps pos := by
  rw [TakesPath, TakesPath, callAt_applyUpdate]
  split_ifs
  · cases callAt ps pos with
    | none => rfl
    | some call => simp [updateCallPath_data sizes]
  · rfl

theorem ownPath_applyUpdate (ps : List Prog) {u : PathUpdate} (text : ByteText u.newPath) (pos : GroupPosition) :
    ownPath (applyUpdate assignSizesCall ps u) pos =
      if u.pos = pos ∧ TakesPath ps pos then u.newPath else ownPath ps pos := by
  rw [ownPath, ownPath, callAt_applyUpdate]
  by_cases here : u.pos = pos
  · rw [if_pos here]
    cases called : callAt ps pos with
    | none => simp [TakesPath, called]
    | some call => simp [here, TakesPath, called, updateCallPath_path sizes text]
  · rw [if_neg here, if_neg fun both => here both.1]

theorem fdOpen_run (updates : List PathUpdate) (ps : List Prog) (pos : GroupPosition) :
    fdOpen (updates.foldl (applyUpdate assignSizesCall) ps) pos = fdOpen ps pos := by
  induction updates generalizing ps with
  | nil => rfl
  | cons u updates ih => rw [List.foldl_cons, ih, fdOpen_applyUpdate sizes]

theorem ownPath_run (texts : ∀ u ∈ updates, ByteText u.newPath) (ps : List Prog) (pos : GroupPosition) :
    ownPath (updates.foldl (applyUpdate assignSizesCall) ps) pos =
      if TakesPath ps pos then (newPathOf updates pos).getD (ownPath ps pos) else ownPath ps pos := by
  induction updates generalizing ps with
  | nil => simp [newPathOf]
  | cons u updates ih =>
    rw [List.foldl_cons, ih (fun v later => texts v (List.mem_cons_of_mem _ later)),
      if_congr (takesPath_applyUpdate sizes ps u pos) rfl rfl, ownPath_applyUpdate sizes ps (texts u List.mem_cons_self)]
    split_ifs with holds both
    · rw [newPathOf_cons, if_pos both.1]
      cases newPathOf updates pos <;> rfl
    · rw [newPathOf_cons, if_neg fun here => both ⟨here, holds⟩, Option.or_none]
    · rename_i both
      exact absurd both.2 holds
    · rfl

theorem ownPath_moved (texts : ∀ u ∈ updates, ByteText u.newPath) {ps : List Prog} (moves : Moves ps updates pos path) :
    ownPath (updates.foldl (applyUpdate assignSizesCall) ps) pos = path := by
  rw [ownPath_run sizes texts, if_pos moves.1, moves.2]
  rfl

theorem ownPath_stays (texts : ∀ u ∈ updates, ByteText u.newPath) {ps : List Prog}
    (stays : ¬ ∃ path, Moves ps updates pos path) :
    ownPath (updates.foldl (applyUpdate assignSizesCall) ps) pos = ownPath ps pos := by
  rw [ownPath_run sizes texts]
  split_ifs with holds
  · cases read : newPathOf updates pos with
    | none => rfl
    | some path => exact absurd ⟨path, holds, read⟩ stays
  · rfl

end Update

end DfsFuzz.Mutation
