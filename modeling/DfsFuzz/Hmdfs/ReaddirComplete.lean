import DfsFuzz.Hmdfs.ReaddirRuns
import Mathlib.Data.List.Nodup
import Mathlib.Data.List.Count
import Mathlib.Data.List.Pairwise

/-!
Which directories the merge view lists completely.
-/

namespace DfsFuzz.Hmdfs

/-- The name an entry is shown under where its own is taken. -/
def Emitted.conflictName (emitted : Emitted) : String :=
  if emitted.entry.dType = .dir then renameConflictingDirectory emitted.entry.name
  else renameConflictingFile emitted.entry.name emitted.device

/-- Each file of each device once, each directory name once, and nothing else. -/
structure Complete (devices : List Device) (out : List Emitted) : Prop where
  files : ∀ device ∈ devices, ∀ entry ∈ device.entries, entry.dType ≠ .dir →
    out.countP (fun emitted => emitted.device = device.deviceId ∧ emitted.entry = entry) = 1
  directories : ∀ device ∈ devices, ∀ entry ∈ device.entries, entry.dType = .dir →
    out.countP (fun emitted => emitted.entry.dType = .dir ∧ emitted.entry.name = entry.name) = 1
  sound : ∀ emitted ∈ out, (∃ device ∈ devices, emitted.device = device.deviceId ∧ emitted.entry ∈ device.entries) ∧
    (emitted.name = emitted.entry.name ∨ emitted.name = emitted.conflictName)

/-- The first device has something to show, and no name has to be renamed that is too long for it. -/
structure Unobstructed (devices : List Device) : Prop where
  started : (∀ device ∈ devices.head?, device.entries ≠ []) ∨ ∀ device ∈ devices, device.entries = []
  renamable : ∀ device ∈ devices, ∀ other ∈ devices, device ≠ other →
    ∀ entry ∈ device.entries, ∀ same ∈ other.entries, entry.name = same.name →
      (entry.dType = .dir ∧ same.dType = .dir) ∨ entry.name.toList.length ≤ longestRenamed

/-- The names of the visited entries are known, and those of directories as such. -/
def Knows (seen : Visits) (known : Known) : Prop :=
  ∀ name, (known name = none ↔ ∀ visit ∈ seen, visit.2.name ≠ name) ∧
    (known name = some true ↔ ∃ visit ∈ seen, visit.2.name = name ∧ visit.2.dType = .dir)

variable {seen : Visits} {known : Known}

theorem Knows.learn (knows : Knows seen known) (devId : UInt32) (entry : DirEntry) :
    Knows (seen ++ [(devId, entry)]) (learn known entry) := by
  intro name
  obtain ⟨absent, directory⟩ := knows name
  have added : ∀ p : UInt32 × DirEntry → Prop, (∃ visit ∈ seen ++ [(devId, entry)], p visit) ↔ (∃ visit ∈ seen, p visit) ∨ p (devId, entry) := by
    intro p
    simp only [List.mem_append, List.mem_singleton, or_and_right, exists_or, exists_eq_left]
  rw [List.forall_mem_append, List.forall_mem_singleton, added]
  by_cases same : name = entry.name
  · subst same
    simp [Hmdfs.learn, directory, or_comm]
  · simp [Hmdfs.learn, same, absent, directory, Ne.symm same]

variable {entry : DirEntry}

theorem Knows.skip (knows : Knows seen known) {devId : UInt32} (judged : verdict known devId entry = .skip) :
    Knows (seen ++ [(devId, entry)]) known := by
  have shown := (isDir_of_skip judged).2
  have learnt : Hmdfs.learn known entry = known := by
    rw [Hmdfs.learn, Function.update_eq_iff]
    simp [shown]
  rw [← learnt]
  exact knows.learn devId entry

/-- Two visited entries of one name need no conflict name, or it fits. -/
def Fitting (first second : UInt32 × DirEntry) : Prop :=
  first.2.name = second.2.name → (first.2.dType = .dir ∧ second.2.dType = .dir) ∨ second.2.name.toList.length ≤ longestRenamed

theorem verdict_ne_stuck (knows : Knows seen known) {devId : UInt32}
    (fitting : ∀ visit ∈ seen, Fitting visit (devId, entry)) : verdict known devId entry ≠ .stuck := by
  intro judged
  obtain ⟨long, shownDir, here, notTwice⟩ := taken_of_stuck judged
  obtain ⟨visit, member, same⟩ : ∃ visit ∈ seen, visit.2.name = entry.name := by
    by_contra none
    push Not at none
    rw [((knows entry.name).1).mpr none] at here
    cases here
  rcases fitting visit member same with ⟨first, second⟩ | short
  · have directory := (knows entry.name).2.mpr ⟨visit, member, same, first⟩
    rw [here] at directory
    exact notTwice ⟨second, Option.some.inj directory⟩
  · exact absurd short (Nat.not_le.mpr long)

variable {visits : Visits}

theorem lists_exists (knows : Knows seen known) (fitting : (seen ++ visits).Pairwise Fitting) :
    ∃ out last, Lists known visits out last := by
  induction visits generalizing seen known with
  | nil => exact ⟨[], known, .done known⟩
  | cons visit visits ih =>
    obtain ⟨devId, entry⟩ := visit
    rw [List.append_cons] at fitting
    have one := (List.pairwise_append.mp (List.pairwise_append.mp fitting).1).2.2
    cases judged : verdict known devId entry with
    | skip =>
      obtain ⟨out, last, tail⟩ := ih (knows.skip judged) fitting
      exact ⟨out, last, .skip judged tail⟩
    | stuck => exact absurd judged (verdict_ne_stuck knows fun visit member => one visit member _ (by simp))
    | emit name =>
      obtain ⟨out, last, tail⟩ := ih (knows.learn devId entry) fitting
      exact ⟨_, last, .emit judged tail⟩

/-! ### The listing is complete -/

theorem name_of_emit {devId : UInt32} {name : String} (judged : verdict known devId entry = .emit name) :
    name = entry.name ∨ name = Emitted.conflictName ⟨devId, entry, name⟩ := by
  cases here : known entry.name with
  | none =>
    simp only [verdict, here, Verdict.emit.injEq] at judged
    exact .inl judged.symm
  | some shownDir =>
    simp only [verdict, here] at judged
    split at judged
    · cases judged
    · split at judged
      · cases judged
      · rw [Emitted.conflictName]
        split at judged
        · rename_i directory
          rw [if_pos directory]
          exact .inr (Verdict.emit.inj judged).symm
        · rename_i file
          rw [if_neg file]
          exact .inr (Verdict.emit.inj judged).symm

variable {last : Known} {out : List Emitted}

theorem Lists.sound (lists : Lists known visits out last) :
    ∀ emitted ∈ out, (emitted.device, emitted.entry) ∈ visits ∧
      (emitted.name = emitted.entry.name ∨ emitted.name = emitted.conflictName) := by
  induction lists with
  | done => simp
  | skip judged _ ih => exact fun emitted member => ⟨List.mem_cons_of_mem _ (ih emitted member).1, (ih emitted member).2⟩
  | emit judged _ ih =>
    intro emitted member
    rcases List.mem_cons.mp member with rfl | later
    · exact ⟨List.mem_cons_self, name_of_emit judged⟩
    · exact ⟨List.mem_cons_of_mem _ (ih emitted later).1, (ih emitted later).2⟩

theorem Lists.files (lists : Lists known visits out last) (devId : UInt32) (file : entry.dType ≠ .dir) :
    out.countP (fun emitted => emitted.device = devId ∧ emitted.entry = entry) = visits.count (devId, entry) := by
  induction lists with
  | done => rfl
  | skip judged _ ih =>
    rw [ih, List.count_cons_of_ne]
    rintro same
    cases same
    exact file (isDir_of_skip judged).1
  | emit judged _ ih =>
    rw [List.countP_cons, List.count_cons, ih]
    simp

/-- A directory name that is known as one is not shown again; any other is shown once. -/
theorem Lists.directories (lists : Lists known visits out last) (name : String) :
    out.countP (fun emitted => emitted.entry.dType = .dir ∧ emitted.entry.name = name) =
      if known name ≠ some true ∧ ∃ visit ∈ visits, visit.2.dType = .dir ∧ visit.2.name = name then 1 else 0 := by
  induction lists with
  | done => simp
  | @skip known _ _ entry rest _ judged _ ih =>
    obtain ⟨directory, shown⟩ := isDir_of_skip judged
    rw [ih]
    simp only [List.exists_mem_cons_iff]
    by_cases same : entry.name = name
    · subst same
      simp [shown]
    · exact if_congr (by simp [same]) rfl rfl
  | @emit known _ _ entry _ rest _ judged _ ih =>
    rw [List.countP_cons, ih]
    simp only [List.exists_mem_cons_iff]
    by_cases here : entry.dType = .dir ∧ entry.name = name
    · obtain ⟨directory, rfl⟩ := here
      have unknown : known entry.name ≠ some true := by
        intro shown
        simp [verdict, shown, directory] at judged
      simp [learn, directory, unknown]
    · have kept : learn known entry name = some true ↔ known name = some true := by
        by_cases same : name = entry.name
        · subst same
          have file : entry.dType ≠ .dir := fun directory => here ⟨directory, rfl⟩
          simp [learn, file]
        · simp [learn, same]
      rw [decide_eq_false here, if_neg Bool.false_ne_true, Nat.add_zero]
      exact if_congr (by simp [here, kept]) rfl rfl

theorem mem_visitsOf {devices : List Device} {visit : UInt32 × DirEntry} :
    visit ∈ visitsOf devices ↔ ∃ device ∈ devices, visit.1 = device.deviceId ∧ visit.2 ∈ device.entries := by
  simp only [visitsOf, Device.visits, List.mem_flatMap, List.drop_zero, List.mem_map]
  constructor
  · rintro ⟨device, member, entry, inside, rfl⟩
    exact ⟨device, member, rfl, inside⟩
  · rintro ⟨device, member, same, inside⟩
    exact ⟨device, member, visit.2, inside, by rw [← same]⟩

theorem nodup_visitsOf (comrades : Comrades) : (visitsOf comrades.list).Nodup := by
  rw [visitsOf, List.nodup_flatMap]
  constructor
  · intro device _
    rw [Device.visits, List.drop_zero]
    exact (List.Nodup.of_map _ device.distinct).map fun _ _ same => (Prod.mk.inj same).2
  · refine (List.pairwise_map.mp comrades.distinct).imp fun different visit first second => ?_
    obtain ⟨_, _, rfl⟩ := List.mem_map.mp first
    obtain ⟨_, _, same⟩ := List.mem_map.mp second
    exact different (Prod.mk.inj same).1.symm

variable {comrades : Comrades}

theorem fitting_visitsOf (fine : Unobstructed comrades.list) : (visitsOf comrades.list).Pairwise Fitting := by
  rw [visitsOf, List.pairwise_flatMap]
  constructor
  · intro device _
    rw [Device.visits, List.drop_zero, List.pairwise_map]
    exact (List.pairwise_map.mp device.distinct).imp fun different same => absurd same different
  · have distinct : comrades.list.Pairwise (· ≠ ·) := List.Nodup.of_map _ comrades.distinct
    refine distinct.imp_of_mem fun {device other} member otherMember different first inFirst second inSecond same => ?_
    obtain ⟨entry, inside, rfl⟩ := List.mem_map.mp inFirst
    obtain ⟨later, laterInside, rfl⟩ := List.mem_map.mp inSecond
    have renamable := fine.renamable device member other otherMember different entry inside later laterInside same
    rwa [show entry.name = later.name from same] at renamable

theorem complete_of_lists (lists : Lists (NameTree.known fun _ => none) (visitsOf comrades.list) out last) :
    Complete comrades.list out where
  files := by
    intro device member entry inside file
    rw [lists.files device.deviceId file]
    exact List.count_eq_one_of_mem (nodup_visitsOf comrades) (mem_visitsOf.mpr ⟨device, member, rfl, inside⟩)
  directories := by
    intro device member entry inside directory
    rw [lists.directories entry.name, if_pos]
    exact ⟨nofun, (device.deviceId, entry), mem_visitsOf.mpr ⟨device, member, rfl, inside⟩, directory, rfl⟩
  sound := fun emitted member => ⟨mem_visitsOf.mp (lists.sound emitted member).1, (lists.sound emitted member).2⟩

/-! ### What any run shows -/

/-- The names of what was taken are known, and no name is shown a second time if it is too long to be renamed. -/
structure Spaced (out : List Emitted) (known : Known) : Prop where
  known : ∀ emitted ∈ out, known emitted.entry.name ≠ none
  short : out.Pairwise fun first second => first.entry.name = second.entry.name → second.entry.name.toList.length ≤ longestRenamed

instance : Std.Symm fun first second : Emitted =>
    first.entry.name = second.entry.name → second.entry.name.toList.length ≤ longestRenamed where
  symm _ _ short equal := equal ▸ short equal.symm

variable {prior : List Emitted} {ctx : MergeContext}

theorem actor_spaced (devId : UInt32) (entry : DirEntry) (spaced : Spaced (prior ++ ctx.taken) ctx.root.known) :
    Spaced (prior ++ (hmdfsActorMerge devId ctx entry).1.taken) (hmdfsActorMerge devId ctx entry).1.root.known := by
  have ran := actor_run devId ctx entry
  generalize hmdfsActorMerge devId ctx entry = result at ran
  cases ran with
  | skip _ kept | stuck _ kept | full _ _ kept =>
    rw [← kept] at spaced
    exact spaced
  | @emit root name judged room learnt =>
    simp only [learnt, ← List.append_assoc]
    refine ⟨fun emitted member => ?_, List.pairwise_append.mpr ⟨spaced.short, List.pairwise_singleton _ _, ?_⟩⟩
    · by_cases same : emitted.entry.name = entry.name
      · simp [learn, same]
      · rcases List.mem_append.mp member with earlier | new
        · simpa [learn, same] using spaced.known emitted earlier
        · exact absurd (by rw [List.mem_singleton.mp new]) same
    · intro first earlier second new same
      obtain rfl := List.mem_singleton.mp new
      exact short_of_emit judged (same ▸ spaced.known first earlier)

theorem iterateDir_spaced (devId : UInt32) (entries : List DirEntry) (pos : Nat)
    (spaced : Spaced (prior ++ ctx.taken) ctx.root.known) :
    Spaced (prior ++ (iterateDir devId ctx entries pos).1.taken) (iterateDir devId ctx entries pos).1.root.known := by
  induction entries generalizing ctx pos with
  | nil => exact spaced
  | cons entry entries ih =>
    rw [iterateDir]
    have next := actor_spaced devId entry spaced
    split
    rename_i after ret same
    rw [same] at next
    split
    · exact ih _ next
    · exact next

variable {device : Device}

theorem iterateDevices_spaced {comrades : List Device} {fuel : Nat} {file : MergeFile}
    (root : file.root.known = ctx.root.known) (spaced : Spaced (prior ++ ctx.taken) ctx.root.known) :
    Spaced (prior ++ (iterateDevices comrades fuel file ctx device).2) (iterateDevices comrades fuel file ctx device).1.root.known := by
  induction fuel generalizing file ctx device with
  | zero =>
    rw [← root] at spaced
    exact spaced
  | succ fuel ih =>
    have next := iterateDir_spaced device.deviceId (device.entries.drop file.devPos) file.devPos spaced
    rw [iterateDevices]
    generalize iterateDir device.deviceId ctx (device.entries.drop file.devPos) file.devPos = run at next
    obtain ⟨after, devPos, stopped⟩ := run
    by_cases full : (if (stopped && device.remote) = true then 1 else 0) > 0 ∨ after.result = false
    · simp only [full, if_true]
      exact next
    · simp only [full, if_false]
      cases getNextHmdfsFileInfo comrades device.deviceId with
      | none => exact next
      | some following => exact ih rfl next

theorem takenBefore_spaced (comrades : List Device) (rooms : Nat → Nat) (n : Nat) :
    Spaced (takenBefore comrades rooms n) (fileAt comrades rooms n).root.known := by
  induction n with
  | zero => exact ⟨by simp [takenBefore], List.Pairwise.nil⟩
  | succ n ih =>
    rw [takenBefore_succ, takenBy, fileAt, hmdfsIterateMerge]
    split
    · simpa using ih
    · cases currentDevice comrades (fileAt comrades rooms n) with
      | none => simpa using ih
      | some device => exact iterateDevices_spaced rfl (by simpa using ih)

/-! ### Complete runs -/

theorem currentDevice_opened (comrades : Comrades) : currentDevice comrades.list opened = comrades.list.head? := by
  obtain ⟨list, distinct, localFirst⟩ := comrades
  cases list with
  | nil => rfl
  | cons device rest =>
    have others : rest.find? (fun other => some other.deviceId = opened.curDev) = none :=
      List.find?_eq_none.mpr fun other member same => localFirst other member (by simpa [opened] using same)
    rw [currentDevice, getHmdfsFileInfo, List.find?_cons]
    split
    · rename_i found
      split at found <;> simp_all
    · rfl

/-- With nothing on the first device, the first call takes the end of its directory for a full buffer. -/
theorem takenBy_zero (rooms : Nat → Nat) (nothing : ∀ device ∈ comrades.list.head?, device.entries = []) :
    takenBy comrades.list rooms 0 = [] := by
  rw [takenBy, fileAt, hmdfsIterateMerge, if_neg MergePos.noConfusion, currentDevice_opened]
  cases here : comrades.list with
  | nil => rfl
  | cons device rest =>
    have empty : device.entries = [] := nothing device (by simp [here])
    simp [iterateDevices, iterateDir, empty]

/-- Calls until one takes nothing come to an end, and together they list the merged directory. -/
def ListsDirectory (comrades : Comrades) (rooms : Nat → Nat) : Prop :=
  ∃ n, EndsAt comrades.list rooms n ∧ Complete comrades.list (takenBefore comrades.list rooms n)

variable {rooms : Nat → Nat}

theorem listsDirectory_empty (empty : ∀ device ∈ comrades.list, device.entries = []) :
    ListsDirectory comrades rooms := by
  have first := takenBy_zero rooms fun device member => empty device (List.mem_of_mem_head? member)
  refine ⟨0, ⟨first, by simp⟩, ?_, ?_, by simp [takenBefore]⟩
  all_goals
    intro device member entry inside
    rw [empty device member] at inside
    cases inside

theorem listsDirectory_started (some_room : ∀ n, rooms n ≠ 0) (fine : Unobstructed comrades.list) {rest : List Device}
    (cut : comrades.list = device :: rest) (started : device.entries ≠ []) : ListsDirectory comrades rooms := by
  have none_known : Knows [] (NameTree.known fun _ => none) := by
    intro name
    simp [NameTree.known]
  obtain ⟨out, last, lists⟩ := lists_exists none_known (fitting_visitsOf fine)
  have ready : Ready comrades.list (fileAt comrades.list rooms 0) out := by
    refine ⟨MergePos.noConfusion, [], device, rest, last, cut, ?_, ?_, ?_⟩
    · rw [fileAt, currentDevice_opened, cut, List.head?_cons]
    · obtain ⟨entry, entries, first⟩ := List.exists_cons_of_ne_nil started
      exact ⟨entry, entries, entry.name, first, rfl⟩
    · rw [cut] at lists
      exact lists
  obtain ⟨n, ends, total⟩ := ready.ends some_room (by simp)
  refine ⟨n, ends, ?_⟩
  rw [total]
  exact complete_of_lists lists

theorem started_of_complete (run : ListsDirectory comrades rooms) :
    (∀ device ∈ comrades.list.head?, device.entries ≠ []) ∨ ∀ device ∈ comrades.list, device.entries = [] := by
  by_contra neither
  push Not at neither
  obtain ⟨⟨first, head, empty⟩, device, member, some⟩ := neither
  obtain ⟨n, ends, complete⟩ := run
  have nothing := takenBy_zero rooms fun other same => (Option.mem_unique same head) ▸ empty
  have zero : n = 0 := by
    by_contra later
    exact ends.2 0 (Nat.pos_of_ne_zero later) nothing
  subst zero
  obtain ⟨entry, entries, cut⟩ := List.exists_cons_of_ne_nil some
  have inside : entry ∈ device.entries := by
    rw [cut]
    exact List.mem_cons_self
  by_cases directory : entry.dType = .dir
  · have once := complete.directories device member entry inside directory
    simp [takenBefore] at once
  · have once := complete.files device member entry inside directory
    simp [takenBefore] at once

/-- An entry of a complete listing is there itself, or for a directory another one of its name. -/
theorem Complete.shown {devices : List Device} (complete : Complete devices out) (member : device ∈ devices)
    (inside : entry ∈ device.entries) :
    ∃ emitted ∈ out, emitted.entry.name = entry.name ∧ emitted.entry.dType = entry.dType ∧
      (entry.dType ≠ .dir → emitted.device = device.deviceId) := by
  by_cases directory : entry.dType = .dir
  · have once := complete.directories device member entry inside directory
    obtain ⟨emitted, there, same⟩ := List.countP_pos_iff.mp (once ▸ Nat.one_pos)
    obtain ⟨isDir, name⟩ := of_decide_eq_true same
    exact ⟨emitted, there, name, isDir.trans directory.symm, absurd directory⟩
  · have once := complete.files device member entry inside directory
    obtain ⟨emitted, there, same⟩ := List.countP_pos_iff.mp (once ▸ Nat.one_pos)
    obtain ⟨from_device, rfl⟩ := of_decide_eq_true same
    exact ⟨emitted, there, rfl, rfl, fun _ => from_device⟩

theorem renamable_of_complete (complete : Complete comrades.list out) (spaced : Spaced out known) {other : Device}
    (member : device ∈ comrades.list) (otherMember : other ∈ comrades.list) (different : device ≠ other)
    {same : DirEntry} (inside : entry ∈ device.entries) (otherInside : same ∈ other.entries)
    (name : entry.name = same.name) :
    (entry.dType = .dir ∧ same.dType = .dir) ∨ entry.name.toList.length ≤ longestRenamed := by
  by_cases both : entry.dType = .dir ∧ same.dType = .dir
  · exact .inl both
  · obtain ⟨first, inFirst, firstName, firstType, firstDevice⟩ := complete.shown member inside
    obtain ⟨second, inSecond, secondName, secondType, secondDevice⟩ := complete.shown otherMember otherInside
    have ids : device.deviceId ≠ other.deviceId := fun equal =>
      different (List.inj_on_of_nodup_map comrades.distinct member otherMember equal)
    have apart : first ≠ second := by
      rintro rfl
      have types : entry.dType = same.dType := firstType.symm.trans secondType
      have file : entry.dType ≠ .dir := fun directory => both ⟨directory, types ▸ directory⟩
      exact ids ((firstDevice file).symm.trans (secondDevice (types ▸ file)))
    have short := spaced.short.forall inFirst inSecond apart (by rw [firstName, secondName, name])
    rw [secondName, ← name] at short
    exact .inr short

/-- Readdir lists a merged directory exactly when its first device shows something (or none does) and every
name that two devices need a second time can be renamed. -/
theorem listsDirectory_iff (comrades : Comrades) (rooms : Nat → Nat) (some_room : ∀ n, rooms n ≠ 0) :
    ListsDirectory comrades rooms ↔ Unobstructed comrades.list := by
  constructor
  · intro run
    refine ⟨started_of_complete run, ?_⟩
    obtain ⟨n, -, complete⟩ := run
    intro device member other otherMember different entry inside same otherInside name
    exact renamable_of_complete complete (takenBefore_spaced comrades.list rooms n) member otherMember different inside
      otherInside name
  · intro fine
    cases cut : comrades.list with
    | nil => exact listsDirectory_empty (by simp [cut])
    | cons device rest =>
      rcases fine.started with started | empty
      · exact listsDirectory_started some_room fine cut (started device (by simp [cut]))
      · exact listsDirectory_empty empty

def plainFile (name : String) (proper : name ≠ "." ∧ name ≠ "..") (fits : name.toList.length ≤ nameMax) : DirEntry :=
  ⟨name, 1, .reg, proper, fits⟩

/-- The file `a` on the local device and on a remote one. -/
def sharedFile : Comrades where
  list := [⟨0, false, [plainFile "a" (by decide) (by decide)], by decide⟩, ⟨1, true, [plainFile "a" (by decide) (by decide)], by decide⟩]
  distinct := by decide
  localFirst := by decide

theorem listsDirectory_iff_sharedFile : ListsDirectory sharedFile (fun _ => 1) := by
  refine (listsDirectory_iff sharedFile (fun _ => 1) (fun _ => Nat.one_ne_zero)).mpr ⟨.inl ?_, ?_⟩
  · decide
  · intro device member other otherMember _ entry inside same otherInside _
    right
    simp only [sharedFile, List.mem_cons, List.not_mem_nil, or_false] at member
    rcases member with rfl | rfl
    all_goals
      obtain rfl := List.mem_singleton.mp inside
      decide

/-- The local directory is empty, the remote one holds the file `a`. -/
def remoteFile : Comrades where
  list := [⟨0, false, [], by decide⟩, ⟨1, true, [plainFile "a" (by decide) (by decide)], by decide⟩]
  distinct := by decide
  localFirst := by decide

/-- The only file of the directory is never listed. -/
theorem readdir_remoteFile : takenBy remoteFile.list (fun _ => 1) 0 = [] ∧ ¬ ListsDirectory remoteFile fun _ => 1 := by
  refine ⟨rfl, fun run => ?_⟩
  rcases started_of_complete run with started | empty
  · exact started _ rfl rfl
  · exact List.cons_ne_nil _ _ (empty ⟨1, true, [plainFile "a" (by decide) (by decide)], by decide⟩ (by simp [remoteFile]))

end DfsFuzz.Hmdfs
