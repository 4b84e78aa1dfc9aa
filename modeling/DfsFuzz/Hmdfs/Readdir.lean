import DfsFuzz.Hmdfs.Conflict
import Mathlib.Logic.Function.Basic

/-!
Readdir of the merge view (`hmdfs/file_merge.c`): one call of `hmdfs_iterate_merge` fills the
caller's buffer from the directories of the devices, and leaves in the open file where it stopped
and the names it has shown.
-/

namespace DfsFuzz.Hmdfs

inductive DType where
  | dir
  | reg
  | lnk
  deriving DecidableEq, Repr

/-- What `iterate_dir` reports of an entry, `.` and `..` left out. -/
structure DirEntry where
  name : String
  ino : Nat
  dType : DType
  proper : name ≠ "." ∧ name ≠ ".."
  fits : name.toList.length ≤ nameMax
  deriving DecidableEq

/-- The open directory of one device. The iterator of a remote one returns 1 when it was stopped. -/
structure Device where
  deviceId : UInt32
  remote : Bool
  entries : List DirEntry
  distinct : (entries.map DirEntry.name).Nodup
  deriving DecidableEq

/-- The comrades of a directory as `link_comrade` lists them: every device once, the local one first. -/
structure Comrades where
  list : List Device
  distinct : (list.map Device.deviceId).Nodup
  localFirst : ∀ device ∈ list.tail, device.deviceId ≠ 0

/-- One entry that the caller's actor took, and the name it was given for it. -/
structure Emitted where
  device : UInt32
  entry : DirEntry
  name : String
  deriving DecidableEq

/-- The names shown so far with their types, `fi_head->root`. -/
abbrev NameTree := String → Option DType

/-- `hmdfs_iterate_callback_merge`, with the caller's buffer: the entries it still has room for and those it took. -/
structure MergeContext where
  root : NameTree
  result : Bool
  room : Nat
  taken : List Emitted

/-- `ctx->pos`: -1, or the device and the sequence number of `hmdfs_set_pos`. -/
inductive MergePos where
  | eof
  | inside (device : UInt32) (seq : Nat)
  deriving DecidableEq, Repr

/-- What `fi_head` and the file keep between two calls. A `cur_dev` of -1 is `none`. -/
structure MergeFile where
  root : NameTree
  curDev : Option UInt32
  devPos : Nat
  seq : Nat
  pos : MergePos

def conflictingDirSuffixLen : Nat := 17

/-- `strlen("_conflict_dev%u") + max_devid_len` -/
def conflictingFileSuffixLen : Nat := 15 + 2

/-- `org_ctx->actor`: it takes the entry when the buffer has room. -/
def callerActor (ctx : MergeContext) (emitted : Emitted) : MergeContext × Bool :=
  if ctx.room = 0 then ({ ctx with result := false }, false)
  else ({ ctx with result := true, room := ctx.room - 1, taken := ctx.taken ++ [emitted] }, true)

def insertFilename (root : NameTree) (entry : DirEntry) : NameTree × Option DType :=
  match root entry.name with
  | some fileType => (root, some fileType)
  | none => (Function.update root entry.name (some entry.dType), none)

def deleteFilename (root : NameTree) (name : String) : NameTree := Function.update root name none

def setFileType (root : NameTree) (name : String) (fileType : DType) : NameTree :=
  Function.update root name (some fileType)

def hmdfsActorMerge (devId : UInt32) (ctx : MergeContext) (entry : DirEntry) : MergeContext × Bool :=
  if entry.name = "." ∨ entry.name = ".." then (ctx, true)
  else
    let len := entry.name.toList.length
    if len > nameMax then (ctx, false)
    else
      let (root, insertRes) := insertFilename ctx.root entry
      if entry.dType = .dir ∧ insertRes = some .dir then ({ ctx with root := root }, true)
      else if entry.dType = .dir ∧ (insertRes = some .reg ∨ insertRes = some .lnk) then
        if conflictingDirSuffixLen > nameMax - len then ({ ctx with root := root }, false)
        else
          let (ctx, ret) := callerActor { ctx with root := setFileType root entry.name .dir }
            ⟨devId, entry, renameConflictingDirectory entry.name⟩
          -- a refused directory gives the name back to the file
          if ret then (ctx, true) else ({ ctx with root := setFileType ctx.root entry.name .reg }, false)
      else if (entry.dType = .reg ∨ entry.dType = .lnk) ∧ insertRes ≠ none then
        if conflictingFileSuffixLen > nameMax - len then ({ ctx with root := root }, false)
        else callerActor { ctx with root := root } ⟨devId, entry, renameConflictingFile entry.name devId⟩
      else
        let (ctx, ret) := callerActor { ctx with root := root } ⟨devId, entry, entry.name⟩
        if ret then (ctx, true) else ({ ctx with root := deleteFilename ctx.root entry.name }, false)

/-- `iterate_dir` from the entry at `pos` on: the position it stores, and whether the actor stopped it. -/
def iterateDir (devId : UInt32) : MergeContext → List DirEntry → Nat → MergeContext × Nat × Bool
  | ctx, [], pos => (ctx, pos, false)
  | ctx, entry :: rest, pos =>
    let (ctx, ret) := hmdfsActorMerge devId ctx entry
    if ret then iterateDir devId ctx rest (pos + 1) else (ctx, pos, true)

def getHmdfsFileInfo (comrades : List Device) (deviceId : Option UInt32) : Option Device :=
  comrades.find? fun device => some device.deviceId = deviceId

def getNextHmdfsFileInfo (comrades : List Device) (deviceId : UInt32) : Option Device :=
  ((comrades.dropWhile fun device => device.deviceId ≠ deviceId).drop 1).head?

/-- The loop over the devices. The fuel is the number of comrades. -/
def iterateDevices (comrades : List Device) : Nat → MergeFile → MergeContext → Device → MergeFile × List Emitted
  | 0, file, ctx, _ => (file, ctx.taken)
  | fuel + 1, file, ctx, device =>
    let (ctx, devPos, stopped) := iterateDir device.deviceId ctx (device.entries.drop file.devPos) file.devPos
    let err := if stopped && device.remote then 1 else 0
    let file := { file with root := ctx.root, devPos := devPos }
    if err > 0 ∨ ctx.result = false then
      ({ file with seq := file.seq + 1, pos := .inside device.deviceId (file.seq + 1) }, ctx.taken)
    else
      match getNextHmdfsFileInfo comrades device.deviceId with
      | none => ({ file with devPos := 0, curDev := none, pos := .eof }, ctx.taken)
      | some next =>
        iterateDevices comrades fuel
          { file with devPos := 0, curDev := some next.deviceId, pos := .inside next.deviceId 0 } ctx next

def currentDevice (comrades : List Device) (file : MergeFile) : Option Device :=
  match getHmdfsFileInfo comrades file.curDev with
  | some device => some device
  | none => comrades.head?

/-- One call with a buffer for `room` entries. `result` is false until the caller's actor has been called. -/
def hmdfsIterateMerge (comrades : List Device) (file : MergeFile) (room : Nat) : MergeFile × List Emitted :=
  if file.pos = .eof then (file, [])
  else
    match currentDevice comrades file with
    | none => (file, [])
    | some device =>
      iterateDevices comrades comrades.length { file with curDev := some device.deviceId }
        { root := file.root, result := false, room := room, taken := [] } device

/-- A freshly opened directory; `kzalloc` leaves a `cur_dev` of 0. -/
def opened : MergeFile :=
  { root := fun _ => none, curDev := some 0, devPos := 0, seq := 0, pos := .inside 0 0 }

/-! ### What a visited entry comes to -/

/-- The shown names, and whether one of them is a directory. -/
abbrev Known := String → Option Bool

def NameTree.known (root : NameTree) : Known := fun name => (root name).map fun fileType => fileType = .dir

def longestRenamed : Nat := 238

inductive Verdict where
  | skip
  | stuck
  | emit (name : String)
  deriving DecidableEq

/-- A directory is shown once; any other entry whose name is taken needs a conflict name. -/
def verdict (known : Known) (devId : UInt32) (entry : DirEntry) : Verdict :=
  match known entry.name with
  | none => .emit entry.name
  | some shownDir =>
    if entry.dType = .dir ∧ shownDir = true then .skip
    else if entry.name.toList.length > longestRenamed then .stuck
    else if entry.dType = .dir then .emit (renameConflictingDirectory entry.name)
    else .emit (renameConflictingFile entry.name devId)

variable {devId : UInt32} {entry : DirEntry}

theorem isDir_of_skip {known : Known} (judged : verdict known devId entry = .skip) :
    entry.dType = .dir ∧ known entry.name = some true := by
  cases here : known entry.name with
  | none => simp [verdict, here] at judged
  | some shownDir =>
    simp only [verdict, here] at judged
    split at judged
    · rename_i both
      exact ⟨both.1, congrArg some both.2⟩
    · repeat' split at judged
      all_goals cases judged

theorem short_of_emit {known : Known} {name : String} (judged : verdict known devId entry = .emit name)
    (taken : known entry.name ≠ none) : entry.name.toList.length ≤ longestRenamed := by
  by_contra long
  cases here : known entry.name with
  | none => exact taken here
  | some shownDir =>
    simp only [verdict, here, Nat.lt_of_not_le long, if_true] at judged
    split at judged <;> cases judged

theorem taken_of_stuck {known : Known} (judged : verdict known devId entry = .stuck) :
    longestRenamed < entry.name.toList.length ∧ ∃ shownDir, known entry.name = some shownDir ∧ ¬ (entry.dType = .dir ∧ shownDir = true) := by
  cases here : known entry.name with
  | none => simp [verdict, here] at judged
  | some shownDir =>
    simp only [verdict, here] at judged
    split at judged
    · cases judged
    · rename_i other
      split at judged
      · rename_i long
        exact ⟨long, shownDir, rfl, other⟩
      · split at judged <;> cases judged

def learn (known : Known) (entry : DirEntry) : Known :=
  Function.update known entry.name (some (entry.dType = .dir || known entry.name = some true))

theorem known_update (root : NameTree) (name : String) (fileType : DType) :
    NameTree.known (Function.update root name (some fileType)) =
      Function.update root.known name (some (decide (fileType = .dir))) := by
  funext other
  by_cases same : other = name
  · subst same
    simp [NameTree.known]
  · simp [NameTree.known, same]

theorem delete_new {root : NameTree} {name : String} (fileType : DType) (absent : root name = none) :
    deleteFilename (Function.update root name (some fileType)) name = root := by
  rw [deleteFilename, Function.update_idem, ← absent, Function.update_eq_self]

theorem known_same {root : NameTree} {name : String} {fileType now : DType} (here : root name = some fileType)
    (kind : decide (now = .dir) = decide (fileType = .dir)) :
    NameTree.known (Function.update root name (some now)) = root.known := by
  rw [known_update, kind, Function.update_eq_iff]
  simp [NameTree.known, here]

/-- Both suffixes take 17 bytes, so that the test of the actor is one on the length of the name. -/
theorem suffix_long_iff (entry : DirEntry) :
    17 > nameMax - entry.name.toList.length ↔ longestRenamed < entry.name.toList.length := by
  have fits := entry.fits
  rw [nameMax] at fits ⊢
  rw [longestRenamed]
  omega

/-- The actor does what the verdict says; an entry that finds no room leaves the names as they were. -/
inductive ActorRun (devId : UInt32) (ctx : MergeContext) (entry : DirEntry) : MergeContext × Bool → Prop where
  | skip {root : NameTree} (judged : verdict ctx.root.known devId entry = .skip) (kept : root.known = ctx.root.known) :
    ActorRun devId ctx entry ({ ctx with root := root }, true)
  | stuck {root : NameTree} (judged : verdict ctx.root.known devId entry = .stuck) (kept : root.known = ctx.root.known) :
    ActorRun devId ctx entry ({ ctx with root := root }, false)
  | full {root : NameTree} {name : String} (judged : verdict ctx.root.known devId entry = .emit name)
    (empty : ctx.room = 0) (kept : root.known = ctx.root.known) :
    ActorRun devId ctx entry ({ ctx with root := root, result := false }, false)
  | emit {root : NameTree} {name : String} (judged : verdict ctx.root.known devId entry = .emit name)
    (room : ctx.room ≠ 0) (learnt : root.known = learn ctx.root.known entry) :
    ActorRun devId ctx entry (⟨root, true, ctx.room - 1, ctx.taken ++ [⟨devId, entry, name⟩]⟩, true)

variable {ctx : MergeContext}

theorem actor_new (absent : ctx.root entry.name = none) :
    ActorRun devId ctx entry (hmdfsActorMerge devId ctx entry) := by
  have judged : verdict ctx.root.known devId entry = .emit entry.name := by
    simp [verdict, NameTree.known, absent]
  have inside : ¬ entry.name.toList.length > nameMax := Nat.not_lt.mpr entry.fits
  by_cases full : ctx.room = 0
  · have run : hmdfsActorMerge devId ctx entry = ({ ctx with result := false }, false) := by
      simp [hmdfsActorMerge, entry.proper.1, entry.proper.2, inside, insertFilename, absent, callerActor, full,
        delete_new _ absent]
    rw [run]
    exact .full judged full rfl
  · have run : hmdfsActorMerge devId ctx entry =
        (⟨Function.update ctx.root entry.name (some entry.dType), true, ctx.room - 1,
          ctx.taken ++ [⟨devId, entry, entry.name⟩]⟩, true) := by
      simp [hmdfsActorMerge, entry.proper.1, entry.proper.2, inside, insertFilename, absent, callerActor, full]
    rw [run]
    refine .emit judged full ?_
    rw [known_update, learn]
    simp [NameTree.known, absent]

theorem actor_dir {fileType : DType} (here : ctx.root entry.name = some fileType) (directory : entry.dType = .dir) :
    ActorRun devId ctx entry (hmdfsActorMerge devId ctx entry) := by
  have inside : ¬ entry.name.toList.length > nameMax := Nat.not_lt.mpr entry.fits
  by_cases shown : fileType = .dir
  · have run : hmdfsActorMerge devId ctx entry = (ctx, true) := by
      simp [hmdfsActorMerge, entry.proper.1, entry.proper.2, inside, insertFilename, here, directory, shown]
    rw [run]
    exact .skip (by simp [verdict, NameTree.known, here, directory, shown]) rfl
  · have file : fileType = .reg ∨ fileType = .lnk := by
      cases fileType <;> simp at shown ⊢
    by_cases long : conflictingDirSuffixLen > nameMax - entry.name.toList.length
    · have run : hmdfsActorMerge devId ctx entry = (ctx, false) := by
        simp [hmdfsActorMerge, entry.proper.1, entry.proper.2, inside, insertFilename, here, directory, shown, file, long]
      rw [run]
      refine .stuck ?_ rfl
      have beyond := (suffix_long_iff entry).mp long
      simpa [verdict, NameTree.known, here, directory, shown] using beyond
    · have short := mt (suffix_long_iff entry).mpr long
      have judged : verdict ctx.root.known devId entry = .emit (renameConflictingDirectory entry.name) := by
        simpa [verdict, NameTree.known, here, directory, shown] using short
      by_cases full : ctx.room = 0
      · have run : hmdfsActorMerge devId ctx entry =
            ({ ctx with root := setFileType (setFileType ctx.root entry.name .dir) entry.name .reg, result := false }, false) := by
          simp [hmdfsActorMerge, entry.proper.1, entry.proper.2, inside, insertFilename, here, directory, shown, file, long,
            callerActor, full]
        rw [run]
        refine .full judged full ?_
        rw [setFileType, setFileType, Function.update_idem]
        exact known_same here (by simp [shown])
      · have run : hmdfsActorMerge devId ctx entry =
            (⟨setFileType ctx.root entry.name .dir, true, ctx.room - 1,
              ctx.taken ++ [⟨devId, entry, renameConflictingDirectory entry.name⟩]⟩, true) := by
          simp [hmdfsActorMerge, entry.proper.1, entry.proper.2, inside, insertFilename, here, directory, shown, file, long,
            callerActor, full]
        rw [run]
        refine .emit judged full ?_
        rw [setFileType, known_update, learn]
        simp [directory]

theorem actor_file {fileType : DType} (here : ctx.root entry.name = some fileType) (file : entry.dType ≠ .dir) :
    ActorRun devId ctx entry (hmdfsActorMerge devId ctx entry) := by
  have inside : ¬ entry.name.toList.length > nameMax := Nat.not_lt.mpr entry.fits
  have kind : entry.dType = .reg ∨ entry.dType = .lnk := by
    cases type : entry.dType <;> simp [type] at file ⊢
  by_cases long : conflictingFileSuffixLen > nameMax - entry.name.toList.length
  · have run : hmdfsActorMerge devId ctx entry = (ctx, false) := by
      simp [hmdfsActorMerge, entry.proper.1, entry.proper.2, inside, insertFilename, here, file, kind, long]
    rw [run]
    refine .stuck ?_ rfl
    have beyond := (suffix_long_iff entry).mp long
    simpa [verdict, NameTree.known, here, file] using beyond
  · have short := mt (suffix_long_iff entry).mpr long
    have judged : verdict ctx.root.known devId entry = .emit (renameConflictingFile entry.name devId) := by
      simpa [verdict, NameTree.known, here, file] using short
    have run : hmdfsActorMerge devId ctx entry =
        callerActor ctx ⟨devId, entry, renameConflictingFile entry.name devId⟩ := by
      simp [hmdfsActorMerge, entry.proper.1, entry.proper.2, inside, insertFilename, here, file, kind, long]
    rw [run, callerActor]
    split
    · rename_i full
      exact .full judged full rfl
    · rename_i room
      refine .emit judged room ?_
      rw [learn, eq_comm, Function.update_eq_iff]
      simp [NameTree.known, here, file]

theorem actor_run (devId : UInt32) (ctx : MergeContext) (entry : DirEntry) :
    ActorRun devId ctx entry (hmdfsActorMerge devId ctx entry) := by
  cases found : ctx.root entry.name with
  | none => exact actor_new found
  | some fileType =>
    by_cases directory : entry.dType = .dir
    · exact actor_dir found directory
    · exact actor_file found directory

end DfsFuzz.Hmdfs
