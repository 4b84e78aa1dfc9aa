import DfsFuzz.Hmdfs.Readdir

/-!
A whole run of readdir on the merge view: calls with any buffers, until one takes nothing.
-/

namespace DfsFuzz.Hmdfs

/-! ### The listing without buffers -/

/-- The entries that are still to be visited, in the order of the devices. -/
abbrev Visits := List (UInt32 × DirEntry)

def Device.visits (device : Device) (pos : Nat) : Visits :=
  (device.entries.drop pos).map fun entry => (device.deviceId, entry)

def visitsOf (devices : List Device) : Visits := devices.flatMap fun device => device.visits 0

/-- Visiting the entries one after the other emits `out`, and no verdict is `stuck`. -/
inductive Lists : Known → Visits → List Emitted → Known → Prop where
  | done (known : Known) : Lists known [] [] known
  | skip {known last : Known} {devId : UInt32} {entry : DirEntry} {rest : Visits} {out : List Emitted}
    (judged : verdict known devId entry = .skip) (tail : Lists known rest out last) :
    Lists known ((devId, entry) :: rest) out last
  | emit {known last : Known} {devId : UInt32} {entry : DirEntry} {name : String} {rest : Visits} {out : List Emitted}
    (judged : verdict known devId entry = .emit name) (tail : Lists (learn known entry) rest out last) :
    Lists known ((devId, entry) :: rest) (⟨devId, entry, name⟩ :: out) last

theorem Lists.split {known last : Known} {front back : Visits} {out : List Emitted} (lists : Lists known (front ++ back) out last) :
    ∃ here later middle, out = here ++ later ∧ Lists known front here middle ∧ Lists middle back later last := by
  induction front generalizing known out with
  | nil => exact ⟨[], out, known, rfl, .done known, lists⟩
  | cons visit front ih =>
    cases lists with
    | skip judged tail =>
      obtain ⟨here, later, middle, rfl, first, second⟩ := ih tail
      exact ⟨here, later, middle, rfl, .skip judged first, second⟩
    | emit judged tail =>
      obtain ⟨here, later, middle, rfl, first, second⟩ := ih tail
      exact ⟨_ :: here, later, middle, rfl, .emit judged first, second⟩

theorem Lists.append {known middle last : Known} {front back : Visits} {here later : List Emitted} (first : Lists known front here middle)
    (second : Lists middle back later last) : Lists known (front ++ back) (here ++ later) last := by
  induction first with
  | done => exact second
  | skip judged _ ih => exact .skip judged (ih second)
  | emit judged _ ih => exact .emit judged (ih second)

/-- The next visit is one of this device, and it emits. -/
def Starts (known : Known) (devId : UInt32) (entries : List DirEntry) : Prop :=
  ∃ entry rest name, entries = entry :: rest ∧ verdict known devId entry = .emit name

theorem Starts.emits {known last : Known} {device : Device} {pos : Nat} {out : List Emitted}
    (starts : Starts known device.deviceId (device.entries.drop pos)) (lists : Lists known (device.visits pos) out last) : out ≠ [] := by
  obtain ⟨entry, rest, name, cut, judged⟩ := starts
  rw [Device.visits, cut, List.map_cons] at lists
  cases lists with
  | skip other => cases judged.symm.trans other
  | emit => exact List.cons_ne_nil _ _

/-! ### One device -/

/-- `iterate_dir` either lists the rest of the directory, or stops at the entry that finds the buffer full. -/
inductive DirRun (devId : UInt32) (ctx : MergeContext) (entries : List DirEntry) (pos : Nat) (out : List Emitted) (last : Known) :
    MergeContext × Nat × Bool → Prop where
  | listed {root : NameTree} {result : Bool} (kept : root.known = last) (fits : out.length ≤ ctx.room)
    (took : result = true ↔ ctx.result = true ∨ out ≠ []) :
    DirRun devId ctx entries pos out last
      (⟨root, result, ctx.room - out.length, ctx.taken ++ out⟩, pos + entries.length, false)
  | stopped {root : NameTree} {front back : List DirEntry} {here later : List Emitted} (cut : entries = front ++ back)
    (split : out = here ++ later) (full : here.length = ctx.room) (starts : Starts root.known devId back)
    (rest : Lists root.known (back.map fun entry => (devId, entry)) later last) :
    DirRun devId ctx entries pos out last (⟨root, false, 0, ctx.taken ++ here⟩, pos + front.length, true)

/-- One visited entry in front of a run: `new` is what the actor took for it. -/
theorem DirRun.cons {devId : UInt32} {ctx next : MergeContext} {entry : DirEntry} {entries : List DirEntry} {pos : Nat}
    {out : List Emitted} {last : Known} {run : MergeContext × Nat × Bool} (new : List Emitted)
    (tail : DirRun devId next entries (pos + 1) out last run) (taken : next.taken = ctx.taken ++ new)
    (room : next.room + new.length = ctx.room) (took : next.result = true ↔ ctx.result = true ∨ new ≠ []) :
    DirRun devId ctx (entry :: entries) pos (new ++ out) last run := by
  cases tail with
  | @listed root result kept fits tookTail =>
    have left : next.room - out.length = ctx.room - (new ++ out).length := by
      rw [List.length_append]
      omega
    have place : pos + 1 + entries.length = pos + (entry :: entries).length := by
      rw [List.length_cons]
      omega
    rw [left, place, taken, List.append_assoc]
    refine .listed kept ?_ ?_
    · rw [List.length_append]
      omega
    · rw [tookTail, took, or_assoc]
      cases new <;> simp
  | @stopped root front back here later cut split full starts rest =>
    have place : pos + 1 + front.length = pos + (entry :: front).length := by
      rw [List.length_cons]
      omega
    rw [place, taken, List.append_assoc]
    refine .stopped (by rw [cut, List.cons_append]) (by rw [split, List.append_assoc]) ?_ starts rest
    rw [List.length_append]
    omega

theorem iterateDir_run {devId : UInt32} {ctx : MergeContext} {entries : List DirEntry} {pos : Nat} {out : List Emitted}
    {last : Known} (lists : Lists ctx.root.known (entries.map fun entry => (devId, entry)) out last) :
    DirRun devId ctx entries pos out last (iterateDir devId ctx entries pos) := by
  induction entries generalizing ctx pos out with
  | nil =>
    cases lists
    have run : iterateDir devId ctx [] pos =
        (⟨ctx.root, ctx.result, ctx.room - ([] : List Emitted).length, ctx.taken ++ []⟩, pos + ([] : List DirEntry).length, false) := by
      simp [iterateDir]
    rw [run]
    exact .listed rfl (Nat.zero_le _) (by simp)
  | cons entry entries ih =>
    have ran := actor_run devId ctx entry
    rw [iterateDir]
    generalize hmdfsActorMerge devId ctx entry = result at ran
    cases lists with
    | skip judged tail =>
      cases ran with
      | @skip root _ kept =>
        rw [← kept] at tail
        exact DirRun.cons [] (@ih { ctx with root := root } (pos + 1) _ tail) (List.append_nil ctx.taken).symm rfl (by simp)
      | stuck other | full other | emit other => cases judged.symm.trans other
    | @emit _ _ _ _ name _ out judged tail =>
      cases ran with
      | skip other | stuck other => cases judged.symm.trans other
      | @full root _ other empty kept =>
        have stop : DirRun devId ctx (entry :: entries) pos (⟨devId, entry, name⟩ :: out) last
            (⟨root, false, 0, ctx.taken ++ []⟩, pos + ([] : List DirEntry).length, true) := by
          refine .stopped rfl rfl empty.symm ⟨entry, entries, name, rfl, kept ▸ judged⟩ ?_
          rw [kept]
          exact .emit judged tail
        simpa [empty] using stop
      | @emit root _ other room learnt =>
        obtain rfl := Verdict.emit.inj (judged.symm.trans other)
        rw [← learnt] at tail
        have rest := @ih ⟨root, true, ctx.room - 1, ctx.taken ++ [⟨devId, entry, name⟩]⟩ (pos + 1) _ tail
        refine DirRun.cons [⟨devId, entry, name⟩] rest rfl ?_ (by simp)
        simp only [List.length_singleton]
        omega

/-! ### One call -/

theorem getHmdfsFileInfo_at {before after : List Device} {device : Device}
    (distinct : ((before ++ device :: after).map Device.deviceId).Nodup) :
    getHmdfsFileInfo (before ++ device :: after) (some device.deviceId) = some device := by
  rw [getHmdfsFileInfo, List.find?_append, List.find?_eq_none.mpr, Option.none_or, List.find?_cons_of_pos (by simp)]
  intro other member same
  rw [List.map_append, List.map_cons, List.nodup_append] at distinct
  exact distinct.2.2 _ (List.mem_map_of_mem member) _ List.mem_cons_self (by simpa using same)

theorem getNextHmdfsFileInfo_at {before after : List Device} {device : Device}
    (distinct : ((before ++ device :: after).map Device.deviceId).Nodup) :
    getNextHmdfsFileInfo (before ++ device :: after) device.deviceId = after.head? := by
  rw [getNextHmdfsFileInfo, List.dropWhile_append_of_pos, List.dropWhile_cons_of_neg (by simp), List.drop_one, List.tail_cons]
  intro other member
  rw [List.map_append, List.map_cons, List.nodup_append] at distinct
  simpa using distinct.2.2 _ (List.mem_map_of_mem member) _ List.mem_cons_self

/-- The open file stands at an entry that emits, and `out` is what is left to list. -/
structure Ready (comrades : List Device) (file : MergeFile) (out : List Emitted) : Prop where
  inside : file.pos ≠ .eof
  standing : ∃ before device after last, comrades = before ++ device :: after ∧ currentDevice comrades file = some device ∧
    Starts file.root.known device.deviceId (device.entries.drop file.devPos) ∧
    Lists file.root.known (device.visits file.devPos ++ visitsOf after) out last

inductive LoopRun (comrades : List Device) (ctx : MergeContext) (out : List Emitted) : MergeFile × List Emitted → Prop where
  | listed {file : MergeFile} (ended : file.pos = .eof) : LoopRun comrades ctx out (file, ctx.taken ++ out)
  | stopped {file : MergeFile} {here later : List Emitted} (split : out = here ++ later) (full : here.length = ctx.room)
    (ready : Ready comrades file later) : LoopRun comrades ctx out (file, ctx.taken ++ here)

theorem LoopRun.after {comrades : List Device} {ctx next : MergeContext} {here out : List Emitted} {run : MergeFile × List Emitted}
    (tail : LoopRun comrades next out run) (taken : next.taken = ctx.taken ++ here) (room : next.room + here.length = ctx.room) :
    LoopRun comrades ctx (here ++ out) run := by
  cases tail with
  | listed ended =>
    rw [taken, List.append_assoc]
    exact .listed ended
  | stopped split full ready =>
    rw [taken, List.append_assoc]
    refine .stopped (by rw [split, List.append_assoc]) ?_ ready
    rw [List.length_append]
    omega

theorem iterateDevices_run {comrades : List Device} (distinct : (comrades.map Device.deviceId).Nodup) {fuel : Nat}
    {before after : List Device} {device : Device} {file : MergeFile} {ctx : MergeContext} {out : List Emitted} {last : Known}
    (cut : comrades = before ++ device :: after) (enough : after.length < fuel) (current : file.curDev = some device.deviceId)
    (lists : Lists ctx.root.known (device.visits file.devPos ++ visitsOf after) out last)
    (started : ctx.result = true ∨ Starts ctx.root.known device.deviceId (device.entries.drop file.devPos)) :
    LoopRun comrades ctx out (iterateDevices comrades fuel file ctx device) := by
  induction fuel generalizing before after device file ctx out with
  | zero => omega
  | succ fuel ih =>
    obtain ⟨here, later, middle, rfl, first, second⟩ := lists.split
    have ran : DirRun device.deviceId ctx (device.entries.drop file.devPos) file.devPos here middle _ := iterateDir_run first
    rw [iterateDevices]
    generalize iterateDir device.deviceId ctx (device.entries.drop file.devPos) file.devPos = run at ran
    cases ran with
    | @listed root result kept fits took =>
      have going : result = true := by
        rw [took]
        exact started.imp id fun starts => starts.emits first
      have next : getNextHmdfsFileInfo comrades device.deviceId = after.head? := by
        subst cut
        exact getNextHmdfsFileInfo_at distinct
      simp only [Bool.false_and, Bool.false_eq_true, if_false, gt_iff_lt, Nat.lt_irrefl, false_or, going, Bool.true_eq_false, next]
      cases after with
      | nil =>
        cases second
        rw [List.append_nil]
        exact .listed rfl
      | cons following after =>
        refine LoopRun.after (ih (by rw [cut, List.append_cons]) ?_ rfl ?_ (.inl rfl)) rfl ?_
        · rw [List.length_cons] at enough
          omega
        · rw [← kept] at second
          exact second
        · exact Nat.sub_add_cancel fits
    | @stopped root front back here' later' split parts full starts rest =>
      simp only [or_true, if_true]
      have place : device.entries.drop (file.devPos + front.length) = back := by
        rw [← List.drop_drop, split, List.drop_left]
      rw [parts, List.append_assoc]
      refine .stopped rfl full ⟨nofun, before, device, after, last, cut, ?_, ?_, ?_⟩
      · subst cut
        simp only [currentDevice, current, getHmdfsFileInfo_at distinct]
      · rw [place]
        exact starts
      · rw [Device.visits, place]
        exact rest.append second

/-- A call takes something, and either it comes to the end or the next one can go on. -/
theorem iterateMerge_run {comrades : Comrades} {file : MergeFile} {out : List Emitted} {room : Nat}
    (ready : Ready comrades.list file out) (some_room : room ≠ 0) :
    (hmdfsIterateMerge comrades.list file room).2 ≠ [] ∧
      (((hmdfsIterateMerge comrades.list file room).1.pos = .eof ∧ (hmdfsIterateMerge comrades.list file room).2 = out) ∨
        ∃ later, out = (hmdfsIterateMerge comrades.list file room).2 ++ later ∧
          Ready comrades.list (hmdfsIterateMerge comrades.list file room).1 later) := by
  obtain ⟨before, device, after, last, cut, current, starts, lists⟩ := ready.standing
  have call : hmdfsIterateMerge comrades.list file room = iterateDevices comrades.list comrades.list.length
      { file with curDev := some device.deviceId } ⟨file.root, false, room, []⟩ device := by
    simp only [hmdfsIterateMerge, ready.inside, if_false, current]
  have enough : after.length < comrades.list.length := by
    rw [cut, List.length_append, List.length_cons]
    omega
  have some_out : out ≠ [] := by
    obtain ⟨here, later, middle, rfl, first, -⟩ := lists.split
    exact List.append_ne_nil_of_left_ne_nil (starts.emits first) later
  have ran : LoopRun comrades.list ⟨file.root, false, room, []⟩ out (iterateDevices comrades.list comrades.list.length
      { file with curDev := some device.deviceId } ⟨file.root, false, room, []⟩ device) :=
    iterateDevices_run comrades.distinct cut enough rfl lists (.inr starts)
  rw [call]
  generalize iterateDevices comrades.list comrades.list.length { file with curDev := some device.deviceId }
    ⟨file.root, false, room, []⟩ device = run at ran
  cases ran with
  | listed ended => exact ⟨some_out, .inl ⟨ended, rfl⟩⟩
  | stopped split full next =>
    refine ⟨?_, .inr ⟨_, split, next⟩⟩
    intro nothing
    rw [List.append_eq_nil_iff.mp nothing |>.2] at full
    exact some_room full.symm

/-! ### A run of calls -/

/-- The open file before call `n`, when call `i` has room for `rooms i` entries. -/
def fileAt (comrades : List Device) (rooms : Nat → Nat) : Nat → MergeFile
  | 0 => opened
  | n + 1 => (hmdfsIterateMerge comrades (fileAt comrades rooms n) (rooms n)).1

def takenBy (comrades : List Device) (rooms : Nat → Nat) (n : Nat) : List Emitted :=
  (hmdfsIterateMerge comrades (fileAt comrades rooms n) (rooms n)).2

/-- What the first `n` calls take. -/
def takenBefore (comrades : List Device) (rooms : Nat → Nat) (n : Nat) : List Emitted :=
  (List.range n).flatMap (takenBy comrades rooms)

/-- Call `n` is the first one that takes nothing. -/
def EndsAt (comrades : List Device) (rooms : Nat → Nat) (n : Nat) : Prop :=
  takenBy comrades rooms n = [] ∧ ∀ m < n, takenBy comrades rooms m ≠ []

theorem takenBefore_succ (comrades : List Device) (rooms : Nat → Nat) (n : Nat) :
    takenBefore comrades rooms (n + 1) = takenBefore comrades rooms n ++ takenBy comrades rooms n := by
  simp [takenBefore, List.range_succ]

theorem Ready.ends {comrades : Comrades} {rooms : Nat → Nat} (some_room : ∀ n, rooms n ≠ 0) {n : Nat} {out : List Emitted}
    (ready : Ready comrades.list (fileAt comrades.list rooms n) out) (before : ∀ m < n, takenBy comrades.list rooms m ≠ []) :
    ∃ last, EndsAt comrades.list rooms last ∧
      takenBefore comrades.list rooms last = takenBefore comrades.list rooms n ++ out := by
  generalize size : out.length = count
  induction count using Nat.strongRecOn generalizing n out with
  | ind count ih =>
    obtain ⟨taken, run⟩ := iterateMerge_run ready (some_room n)
    have here : ∀ m < n + 1, takenBy comrades.list rooms m ≠ [] := by
      intro m below
      rcases Nat.lt_succ_iff_lt_or_eq.mp below with earlier | rfl
      · exact before m earlier
      · exact taken
    rcases run with ⟨ended, all⟩ | ⟨later, split, next⟩
    · refine ⟨n + 1, ⟨?_, here⟩, ?_⟩
      · rw [takenBy, hmdfsIterateMerge, if_pos]
        exact ended
      · rw [takenBefore_succ, takenBy, all]
    · have shorter : later.length < count := by
        have some := List.length_pos_iff.mpr taken
        rw [← size, split, List.length_append]
        omega
      obtain ⟨last, ends, total⟩ := ih later.length shorter (n := n + 1) next here rfl
      refine ⟨last, ends, ?_⟩
      rw [total, takenBefore_succ, List.append_assoc, takenBy, ← split]

end DfsFuzz.Hmdfs
