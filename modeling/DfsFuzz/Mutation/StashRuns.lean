import DfsFuzz.Mutation.StashSync

/-!
Runs of the steps that edit a stash group. The writer's insertions and removals move only its own
window, and every step keeps the table of the syncs. It is lost where a position reaches the keys.
-/

namespace DfsFuzz.Mutation

open DfsFuzz.Choice

/-! ### The writer's insertions and removals -/

variable {entries : List (Int × Int)} {more : List (List Int)}

theorem bumpWindow_row {p : SeedProg} {s e : Int}
    (row : p.generalFailPos = flat ((1, s) :: (2, e) :: entries) :: more) :
    (bumpWindow p).generalFailPos = flat ((1, s + 1) :: (2, e + 1) :: entries) :: more := by
  rw [bumpWindow, row]
  rfl

theorem genStashCall_plain {callType : String} {ch : StashChoice} {fd : ResultId} {call : Call}
    (built : genStashCall callType ch fd = some call) : isSync call.name = false := by
  simp only [genStashCall, genPwriteCallWithFd, genPreadCallWithFd, genFsyncCallWithFd, genFdatasyncCallWithFd,
    genSyncCallWithFd, readCall] at built
  have known : ∀ name ∈ stashCallTypes, isSync name = false := by decide
  split_ifs at built <;>
    · obtain rfl := Option.some.inj built
      exact known _ (by simp [stashCallTypes])

theorem genPreadCallWithFdAt_plain {ch : StashChoice} {fd : ResultId} {offset length : UInt64} {call : Call}
    (built : genPreadCallWithFdAt ch fd offset length = some call) : isSync call.name = false := by
  unfold genPreadCallWithFdAt at built
  split at built
  · obtain rfl := Option.some.inj built
    show isSync "pread64" = false
    decide
  · cases built

variable {ps : List SeedProg} {p0 : SeedProg}

/-- The new call of the writer moves at most the ends of its own window. -/
theorem withCallAt_row {s e : Int} (row : SyncRow ps p0 s e entries more) (low : s < 100 ∧ e < 100) (insertPos : Int)
    {o : CallObj} (plain : isSync o.name = false) : ∃ p0' s' e', withCallAt p0 insertPos o = p0' ∧ s' < 101 ∧ e' < 101 ∧
      SyncRow (ps.set 0 p0') p0' s' e' entries more := by
  have calls : ∀ x ∈ Edits.insertAt p0.calls insertPos.toNat [o], isSync x.name = false := by
    intro x member
    rcases Edits.mem_insertAt member with old | new
    · exact row.plain x old
    · rw [List.mem_singleton.mp new]
      exact plain
  unfold withCallAt
  dsimp only
  split
  · exact ⟨_, s + 1, e + 1, rfl, by omega, by omega, row.writer_only calls (bumpWindow_row row.row)⟩
  · exact ⟨_, s, e, rfl, by omega, by omega, row.writer_only calls row.row⟩

theorem verificationIdx_bounds {calls : List CallObj} (reads : calls.any (fun o => isRead o.name) = true) :
    1 ≤ verificationIdx calls ∧ verificationIdx calls ≤ calls.length := by
  obtain ⟨o, member, read⟩ := List.any_eq_true.mp reads
  obtain ⟨k, here⟩ := List.getElem?_of_mem member
  have found : indicesWhere calls isRead ≠ [] := List.ne_nil_of_mem (mem_indicesWhere.mpr ⟨o, here, read⟩)
  unfold verificationIdx
  rw [List.getLast?_eq_getLast_of_ne_nil found]
  obtain ⟨o', last, -⟩ := mem_indicesWhere.mp (List.getLast_mem found)
  have bound := (List.getElem?_eq_some_iff.mp last).1
  dsimp only
  omega

theorem SyncEntries.shift (table : SyncEntries ps entries) {r a b k : Nat}
    (first : ((r * 100 + 1 : Int), (a : Int)) ∈ entries) (second : ((r * 100 + 2 : Int), (b : Int)) ∈ entries)
    (positive : 1 ≤ k) :
    entries.map (shiftEntry (r * 100 + 1) (r * 100 + 2) k 1) =
      entries.map (assign r (Edits.shifted k 1 a) (Edits.shifted k 1 b)) := by
  have moved : ∀ pos : Nat, ((Edits.shifted k 1 pos : Nat) : Int) = if (pos : Int) > 0 ∧ (pos : Int) ≥ k then (pos : Int) + 1 else pos := by
    intro pos
    unfold Edits.shifted
    split_ifs <;> omega
  refine List.map_congr_left fun entry member => ?_
  by_cases one : entry.1 = r * 100 + 1
  · have value : entry.2 = (a : Int) := table.value member (by rw [one]; exact first)
    rw [shiftEntry, assign, if_pos one, moved, value]
    simp only [one, decide_true, Bool.true_or, Bool.true_and, Bool.and_eq_true, decide_eq_true_eq]
    split
    · rfl
    · rw [← value, ← one]
  · by_cases two : entry.1 = r * 100 + 2
    · have value : entry.2 = (b : Int) := table.value member (by rw [two]; exact second)
      rw [shiftEntry, assign, if_neg one, if_pos two, moved, value]
      simp only [two, decide_true, Bool.or_true, Bool.true_and, Bool.and_eq_true, decide_eq_true_eq]
      split
      · rfl
      · rw [← value, ← two]
    · rw [shiftEntry, assign, if_neg one, if_neg two]
      simp [one, two]

theorem verification_table {s e : Int} (row : SyncRow ps p0 s e entries more) (low : s < 101 ∧ e < 101) {r : Nat}
    (positive : 0 < r) {reader : SeedProg} (here : ps[r]? = some reader) (short : Short ps) {k : Nat}
    (inside : 1 ≤ k ∧ k ≤ reader.calls.length) {o : CallObj} (plain : isSync o.name = false) :
    SyncsRecorded (shiftGeneralFailPos (setCalls ps r (Edits.insertAt reader.calls k [o])) r k 1) := by
  obtain ⟨a, b, pair, first, second⟩ := row.entries.recorded r reader positive here
  have bound : r < ps.length := (List.getElem?_eq_some_iff.mp here).1
  have own : ∀ key pos : Int, key < 101 → shiftEntry (r * 100 + 1) (r * 100 + 2) k 1 (key, pos) = (key, pos) := by
    intro key pos small
    have one : ¬ key = r * 100 + 1 := by omega
    have two : ¬ key = r * 100 + 2 := by omega
    simp [shiftEntry, one, two]
  have apart : ∀ entry ∈ (1, s) :: (2, e) :: entries, (shiftEntry (r * 100 + 1) (r * 100 + 2) k 1 entry).2 < 101 := by
    intro entry member
    rcases List.mem_cons.mp member with rfl | member
    · rw [own 1 s (by omega)]
      exact low.1
    · rcases List.mem_cons.mp member with rfl | member
      · rw [own 2 e (by omega)]
        exact low.2
      · have bounds := row.entries.bounds short member
        unfold shiftEntry
        split_ifs <;> omega
  rw [setCalls_eq_set here, shiftGeneralFailPos]
  refine row.replace positive bound { reader with calls := Edits.insertAt reader.calls k [o] } (pair.insert inside.2 plain)
    (fun rows => rows.map (shiftFailPosRow (r * 100 + 1) (r * 100 + 2) k 1))
    (more.map (shiftFailPosRow (r * 100 + 1) (r * 100 + 2) k 1)) ?_
  rw [List.map_cons, shiftFailPosRow_flat, List.map_cons, List.map_cons, own 1 s (by omega), own 2 e (by omega),
    row.entries.shift first second inside.1]
  intro entry member
  have small := apart entry member
  omega

variable {g : StashGroup}

theorem addStashReadVerification_table {s e : Int} (row : SyncRow g.progs p0 s e entries more)
    (low : s < 101 ∧ e < 101) (short : Short g.progs) (ch : StashChoice) (offset length : UInt64) :
    SyncsRecorded (addStashReadVerification g 0 ch offset length).progs := by
  unfold addStashReadVerification
  split
  · rename_i reader r writerProg chosen _
    split
    · exact ⟨p0, s, e, entries, more, row⟩
    · rename_i call built
      obtain ⟨fd, -, gen⟩ := Option.bind_eq_some_iff.mp built
      obtain ⟨member, passes⟩ := List.mem_filter.mp (List.mem_of_getElem? chosen)
      simp only [Bool.and_eq_true, decide_eq_true_eq] at passes
      exact verification_table row low (Nat.pos_of_ne_zero passes.1.1) (List.mem_zipIdx_iff_getElem?.mp member) short
        (verificationIdx_bounds passes.2) (genPreadCallWithFdAt_plain gen)
  · exact ⟨p0, s, e, entries, more, row⟩

theorem fdRangesFrom_progs (calls : List CallObj) (g : StashGroup) (opens : List Nat) : (fdRangesFrom calls g opens).2.progs = g.progs := by
  induction opens generalizing g with
  | nil => rfl
  | cons openIdx opens ih =>
    rw [fdRangesFrom]
    split
    · exact ih g
    · exact ih _

theorem insertStashCall_table (table : SyncsRecorded g.progs) (range : InRange g.progs) (here : g.progs[0]? = some p0)
    (ch : StashChoice) : SyncsRecorded (insertStashCall g 0 p0 ch).1.progs := by
  unfold insertStashCall
  split
  · exact table
  · dsimp only
    have probed := fdRangesFrom_progs p0.calls g (openIndices p0.calls)
    generalize (fdRangesFrom p0.calls g (openIndices p0.calls)).2 = g' at probed ⊢
    rw [← probed] at table range here
    clear probed
    split
    · exact table
    · split
      · exact table
      · rename_i fdRange _ _ newCall built
        obtain ⟨p0', s, e, entries, more, row⟩ := table
        obtain rfl : p0' = p0 := Option.some.inj (row.writer.symm.trans here)
        obtain ⟨p0', s', e', same, low, low', row'⟩ := withCallAt_row row (range.low row)
          (stashInsertPos p0' fdRange (ch.draw 3) (ch.draw 4)) (o := ⟨g'.next, newCall⟩) (genStashCall_plain built)
        have short : Short (g'.progs.set 0 p0') := by
          intro i p positive read
          rw [List.getElem?_set_ne (by omega)] at read
          exact range.short i p positive read
        unfold placeStashCall
        dsimp only
        split
        · exact ⟨_, s, e, entries, more, row⟩
        · rw [same]
          split
          · split
            · exact addStashReadVerification_table row' ⟨low, low'⟩ short ch _ _
            · exact ⟨p0', s', e', entries, more, row'⟩
          · exact ⟨p0', s', e', entries, more, row'⟩

theorem removeStashCall_table (table : SyncsRecorded g.progs) (here : g.progs[0]? = some p0) (ch : StashChoice) :
    SyncsRecorded (removeStashCall g 0 p0 ch).1.progs := by
  unfold removeStashCall
  split
  · exact table
  · split
    · exact table
    · rename_i idx _
      obtain ⟨p0', s, e, entries, more, row⟩ := table
      obtain rfl : p0' = p0 := Option.some.inj (row.writer.symm.trans here)
      have calls : ∀ o ∈ removeAt ch.dflt p0'.calls idx, isSync o.name = false := by
        intro o member
        unfold removeAt at member
        split at member
        · exact row.plain o member
        · obtain ⟨old, before, rfl⟩ := List.mem_map.mp member
          exact row.plain old (List.mem_of_mem_eraseIdx before)
      simp only [StashGroup.removeCall, setCalls_eq_set here]
      exact ⟨_, s, e, entries, more, row.writer_only calls row.row⟩

/-- A step of the group: a sync is moved, the writer gets or loses a call, or a program is edited in
any way that leaves it its two syncs and the table is refreshed. -/
inductive SyncStep where
  | syncPos (draw : Nat → Draw)
  | insert (ch : StashChoice)
  | remove (ch : StashChoice)
  | edit (i : Nat) (p : SeedProg)

def syncStep (g : StashGroup) : SyncStep → StashGroup
  | .syncPos draw => { g with progs := (mutateStashSyncPos g.progs draw).1 }
  | .insert ch =>
    match g.progs[0]? with
    | none => g
    | some p0 => (insertStashCall g 0 p0 ch).1
  | .remove ch =>
    match g.progs[0]? with
    | none => g
    | some p0 => (removeStashCall g 0 p0 ch).1
  | .edit i p => { g with progs := refreshGeneralFailPos (g.progs.set i p) i }

/-- The edits of the claim: of a program behind the writer, with its syncs in order. -/
def Allowed (g : StashGroup) : SyncStep → Prop
  | .edit i p => 0 < i ∧ i < g.progs.length ∧ ∃ a b, SyncPair p.calls a b
  | _ => True

/-- No position has reached a key when the step begins, and an edit keeps its program short. -/
def StepInRange (g : StashGroup) (step : SyncStep) : Prop :=
  InRange g.progs ∧ ∀ i p, step = .edit i p → p.calls.length ≤ 100

theorem syncStep_table (table : SyncsRecorded g.progs) {step : SyncStep} (allowed : Allowed g step)
    (range : StepInRange g step) : SyncsRecorded (syncStep g step).progs := by
  have writer := table
  obtain ⟨p0, s, e, entries, more, row⟩ := writer
  cases step with
  | syncPos draw => exact mutateStashSyncPos_table table range.1 draw
  | insert ch =>
    simp only [syncStep, row.writer]
    exact insertStashCall_table table range.1 row.writer ch
  | remove ch =>
    simp only [syncStep, row.writer]
    exact removeStashCall_table table row.writer ch
  | edit i p =>
    obtain ⟨positive, inside, a, b, pair⟩ := allowed
    exact refresh_table table range.1 positive inside pair (range.2 i p rfl)

def runSync (g : StashGroup) (steps : List SyncStep) : StashGroup := steps.foldl syncStep g

/-- Every step of the run meets a condition where it is made. -/
def AllSteps (meets : StashGroup → SyncStep → Prop) (g : StashGroup) : List SyncStep → Prop
  | [] => True
  | step :: rest => meets g step ∧ AllSteps meets (syncStep g step) rest

/-- In every run in which no recorded position reaches the keys, the table follows the syncs. -/
theorem syncTable_run {g : StashGroup} (table : SyncsRecorded g.progs) {steps : List SyncStep} (allowed : AllSteps Allowed g steps)
    (range : AllSteps StepInRange g steps) (n : Nat) : SyncsRecorded (runSync g (steps.take n)).progs := by
  induction steps generalizing g n with
  | nil => simpa [runSync] using table
  | cons step rest ih =>
    cases n with
    | zero => exact table
    | succ n =>
      rw [List.take_succ_cons, runSync, List.foldl_cons]
      exact ih (syncStep_table table allowed.1 range.1) allowed.2 range.2 n

theorem allSteps_of {meets : StashGroup → SyncStep → Prop} {steps : List SyncStep}
    (each : ∀ (n : Nat) step, steps[n]? = some step → meets (runSync g (steps.take n)) step) :
    AllSteps meets g steps := by
  induction steps generalizing g with
  | nil => trivial
  | cons step rest ih => exact ⟨each 0 step rfl, ih fun n later here => each (n + 1) later here⟩

/-! ### A writer and one reader -/

/-- The reader opens the file, reads, and meets the failure in two syncs. -/
def syncReader : SeedProg where
  calls := [⟨0, { name := "open", ret := some 0 }⟩, ⟨1, { name := "pread64" }⟩,
    ⟨2, { name := "syz_failure_sync", args := [.const 0, .const 1] }⟩, ⟨3, { name := "pread64" }⟩,
    ⟨4, { name := "syz_failure_sync", args := [.const 1, .const 1] }⟩, ⟨5, { name := "close" }⟩]
  isStash := true

theorem syncReader_pair : SyncPair syncReader.calls 2 4 := by
  refine ⟨by decide, ⟨_, rfl, by decide, by decide⟩, ⟨_, rfl, by decide, by decide⟩, fun k o read sync => ?_⟩
  have listed : ∀ entry ∈ syncReader.calls.zipIdx, isSync entry.1.name = true → entry.2 = 2 ∨ entry.2 = 4 := by
    simp only [syncReader, List.zipIdx_cons, List.zipIdx_nil, List.mem_cons, List.not_mem_nil, or_false]
    rintro entry (rfl | rfl | rfl | rfl | rfl | rfl) <;> decide
  exact listed (o, k) (List.mem_zipIdx_iff_getElem?.mpr read) sync

/-- A writer with `before` writes before its window, and the reader. -/
def syncGroup (before : Nat) : StashGroup where
  progs :=
    [{ calls := ⟨0, { name := "open", ret := some 0 }⟩ ::
         (List.replicate before "pwrite64" ++ ["syz_failure_recv", "syz_failure_net_down", "syz_failure_send",
           "syz_failure_recv", "syz_failure_net_up", "syz_failure_send"]).mapIdx fun i name => ⟨i + 1, { name }⟩
       isStash := true
       generalFailPos := [[1, before + 1, 2, before + 6, 101, 2, 102, 4]] }, syncReader]
  next := before + 7

theorem syncGroup_table (before : Nat) : SyncsRecorded (syncGroup before).progs := by
  refine ⟨_, before + 1, before + 6, [(101, 2), (102, 4)], [], rfl, ?_, rfl, ?_⟩
  · intro o member
    have known : ∀ name ∈ ["pwrite64", "syz_failure_recv", "syz_failure_net_down", "syz_failure_send", "syz_failure_recv",
        "syz_failure_net_up", "syz_failure_send"], isSync name = false := by decide
    rcases List.mem_cons.mp member with rfl | member
    · show isSync "open" = false
      decide
    · obtain ⟨i, inside, rfl⟩ := List.mem_mapIdx.mp member
      refine known _ ?_
      rcases List.mem_append.mp (List.getElem_mem inside) with write | fail
      · exact List.mem_cons.mpr (Or.inl (List.eq_of_mem_replicate write))
      · exact List.mem_cons_of_mem _ fail
  · refine ⟨by decide, ?_, ?_⟩
    · intro entry member
      refine ⟨1, by decide, by simp [syncGroup], ?_⟩
      simpa using List.mem_map_of_mem (f := Prod.fst) member
    · intro i p positive here
      match i, positive with
      | 1, _ =>
        obtain rfl := Option.some.inj here
        exact ⟨2, 4, syncReader_pair, by simp, by simp⟩
      | i + 2, _ => simp [syncGroup] at here

/-- The window of the writer is recorded one further at every insertion and stays so when a call
before it is removed. -/
def driftSteps : List SyncStep :=
  (List.replicate 4 [.remove (stashChoice [0, 0]), .insert (stashChoice [0, 0, 2, 0, 0])]).flatten ++ [.edit 1 syncReader]

def unflat : List Int → List (Int × Int)
  | key :: pos :: row => (key, pos) :: unflat row
  | _ => []

theorem unflat_flat (entries : List (Int × Int)) : unflat (flat entries) = entries := by
  induction entries with
  | nil => rfl
  | cons entry entries ih => rw [flat, unflat, ih]

/-- The length of the programs and the tables, before the run and after each step. -/
def driftTrace : List (List (Nat × List (List Int))) :=
  [[(98, [[1, 92, 2, 97, 101, 2, 102, 4]]), (6, [])], [(97, [[1, 92, 2, 97, 101, 2, 102, 4]]), (6, [])],
    [(98, [[1, 93, 2, 98, 101, 2, 102, 4]]), (6, [])], [(97, [[1, 93, 2, 98, 101, 2, 102, 4]]), (6, [])],
    [(98, [[1, 94, 2, 99, 101, 2, 102, 4]]), (6, [])], [(97, [[1, 94, 2, 99, 101, 2, 102, 4]]), (6, [])],
    [(98, [[1, 95, 2, 100, 101, 2, 102, 4]]), (6, [])], [(97, [[1, 95, 2, 100, 101, 2, 102, 4]]), (6, [])],
    [(98, [[1, 96, 2, 101, 101, 2, 102, 4]]), (6, [])], [(98, [[1, 96, 2, 101, 2, 2, 102, 4]]), (6, [])]]

def sameArg : Arg → Arg → Bool
  | .const a, .const b => a == b
  | .result a r v, .result b t w => a == b && r == t && v == w
  | _, _ => false

def sameList {α : Type} (same : α → α → Bool) : List α → List α → Bool
  | [], [] => true
  | a :: as, b :: bs => same a b && sameList same as bs
  | _, _ => false

def sameCall (a b : CallObj) : Bool :=
  a.ref == b.ref && a.call.name == b.call.name && sameList sameArg a.call.args b.call.args && a.call.ret == b.call.ret &&
    a.call.isFCall == b.call.isFCall && a.call.checkInfo.isNone && b.call.checkInfo.isNone

def sameProg (a b : SeedProg) : Bool :=
  sameList sameCall a.calls b.calls && a.hasCrashFail == b.hasCrashFail && a.hasNetFail == b.hasNetFail &&
    a.isStash == b.isStash && a.isDCache == b.isDCache && a.srvFailPos == b.srvFailPos &&
    a.generalFailPos == b.generalFailPos && a.generalBarrierPos == b.generalBarrierPos

/-- Equality of groups without buffers, as a computation. -/
def sameGroup (a b : StashGroup) : Bool := sameList sameProg a.progs b.progs && a.uses == b.uses && a.next == b.next

theorem eq_of_sameList {α : Type} {same : α → α → Bool} (sound : ∀ a b, same a b = true → a = b) :
    ∀ as bs : List α, sameList same as bs = true → as = bs
  | [], [], _ => rfl
  | [], _ :: _, h => nomatch h
  | _ :: _, [], h => nomatch h
  | a :: as, b :: bs, h => by
    obtain ⟨head, tail⟩ := Bool.and_eq_true_iff.mp h
    rw [sound a b head, eq_of_sameList sound as bs tail]

theorem eq_of_sameArg (a b : Arg) (same : sameArg a b = true) : a = b := by
  cases a <;> cases b <;> simp_all [sameArg]

theorem eq_of_sameCall (a b : CallObj) (same : sameCall a b = true) : a = b := by
  obtain ⟨ref, call⟩ := a
  obtain ⟨ref', call'⟩ := b
  obtain ⟨name, args, ret, isFCall, checkInfo⟩ := call
  obtain ⟨name', args', ret', isFCall', checkInfo'⟩ := call'
  simp only [sameCall, Bool.and_eq_true, beq_iff_eq, Option.isNone_iff_eq_none] at same
  obtain ⟨⟨⟨⟨⟨⟨rfl, rfl⟩, listed⟩, rfl⟩, rfl⟩, rfl⟩, rfl⟩ := same
  rw [eq_of_sameList eq_of_sameArg _ _ listed]

theorem eq_of_sameProg (a b : SeedProg) (same : sameProg a b = true) : a = b := by
  cases a
  cases b
  simp only [sameProg, Bool.and_eq_true, beq_iff_eq] at same
  obtain ⟨⟨⟨⟨⟨⟨⟨listed, rfl⟩, rfl⟩, rfl⟩, rfl⟩, rfl⟩, rfl⟩, rfl⟩ := same
  rw [eq_of_sameList eq_of_sameCall _ _ listed]

theorem eq_of_sameGroup (a b : StashGroup) (same : sameGroup a b = true) : a = b := by
  cases a
  cases b
  simp only [sameGroup, Bool.and_eq_true, beq_iff_eq] at same
  obtain ⟨⟨listed, rfl⟩, rfl⟩ := same
  rw [eq_of_sameList eq_of_sameProg _ _ listed]

/-- The group of the run after `added` insertions and the removal of the first `removed` writes. -/
def driftGroup (added removed : Nat) : StashGroup where
  progs :=
    [{ calls := ⟨0, { name := "open", ret := some 0 }⟩ ::
         (((List.range added).reverse.map fun i => ⟨99 + 2 * i, { name := "fsync", args := [.result 0 none 0] }⟩) ++
          ((List.range (91 - removed)).map fun i => ⟨removed + 1 + i, { name := "pwrite64" }⟩) ++
          ["syz_failure_recv", "syz_failure_net_down", "syz_failure_send", "syz_failure_recv", "syz_failure_net_up",
            "syz_failure_send"].mapIdx fun i name => ⟨92 + i, { name }⟩)
       isStash := true
       generalFailPos := [[1, 92 + added, 2, 97 + added, 101, 2, 102, 4]] }, syncReader]
  uses := (List.range added).reverse.map fun i => (0, 98 + 2 * i)
  next := 98 + 2 * added

theorem driftGroup_start : syncGroup 91 = driftGroup 0 0 := eq_of_sameGroup _ _ (by decide +kernel)

theorem drift_remove {k : Nat} (small : k < 4) :
    syncStep (driftGroup k k) (.remove (stashChoice [0, 0])) = driftGroup k (k + 1) := by
  apply eq_of_sameGroup
  match k, small with
  | 0, _ | 1, _ | 2, _ | 3, _ => decide +kernel

theorem drift_insert {k : Nat} (small : k < 4) :
    syncStep (driftGroup k (k + 1)) (.insert (stashChoice [0, 0, 2, 0, 0])) = driftGroup (k + 1) (k + 1) := by
  apply eq_of_sameGroup
  match k, small with
  | 0, _ | 1, _ | 2, _ | 3, _ => decide +kernel

/-- The states of the run one by one, and what the trace says of each. -/
theorem drift_trace : ((driftSteps.scanl syncStep (syncGroup 91)).map fun g =>
    g.progs.map fun p => (p.calls.length, p.generalFailPos)) = driftTrace := by
  simp only [driftSteps, List.replicate, List.flatten_cons, List.flatten_nil, List.cons_append, List.nil_append,
    List.scanl_cons, List.scanl_nil, driftGroup_start, drift_remove (show 0 < 4 by decide), drift_insert (show 0 < 4 by decide),
    drift_remove (show 1 < 4 by decide), drift_insert (show 1 < 4 by decide), drift_remove (show 2 < 4 by decide),
    drift_insert (show 2 < 4 by decide), drift_remove (show 3 < 4 by decide), drift_insert (show 3 < 4 by decide)]
  decide +kernel

theorem drift_at {n : Nat} {group : List (Nat × List (List Int))} (here : driftTrace[n]? = some group) :
    ((runSync (syncGroup 91) (driftSteps.take n)).progs.map fun p => (p.calls.length, p.generalFailPos)) = group := by
  rw [← drift_trace, List.getElem?_map, List.getElem?_scanl] at here
  split at here
  · exact Option.some.inj here
  · cases here

/-- The end of the writer's window drifts to 101, and the refresh of the reader takes it for a key. -/
theorem syncTable_lost :
    SyncsRecorded (syncGroup 91).progs ∧ AllSteps Allowed (syncGroup 91) driftSteps ∧
      (∀ n ≤ driftSteps.length, ∀ p ∈ (runSync (syncGroup 91) (driftSteps.take n)).progs, p.calls.length < 100) ∧
      ¬ SyncsRecorded (runSync (syncGroup 91) driftSteps).progs := by
  have ended : (runSync (syncGroup 91) driftSteps).progs.map SeedProg.generalFailPos = [[[1, 96, 2, 101, 2, 2, 102, 4]], []] := by
    have last := congrArg (fun tables => tables.map Prod.snd) (drift_at (n := 9) rfl)
    have whole : driftSteps.take 9 = driftSteps := List.take_of_length_le (Nat.le_refl driftSteps.length)
    rw [List.map_map, whole] at last
    exact last
  refine ⟨syncGroup_table 91, ?_, ?_, ?_⟩
  · have inside : 1 < (runSync (syncGroup 91) (driftSteps.take 8)).progs.length := by
      have two := congrArg List.length (drift_at (n := 8) rfl)
      rw [List.length_map] at two
      rw [two]
      decide
    refine allSteps_of fun n step here => ?_
    match n with
    | 0 | 2 | 4 | 6 | 1 | 3 | 5 | 7 =>
      obtain rfl := Option.some.inj here
      trivial
    | 8 =>
      obtain rfl := Option.some.inj here
      exact ⟨by decide, inside, 2, 4, syncReader_pair⟩
    | n + 9 => cases here
  · have short : (driftTrace.all fun group => group.all fun p => p.1 < 100) = true := by decide
    intro n le p member
    obtain ⟨group, here⟩ : ∃ group, driftTrace[n]? = some group :=
      ⟨_, List.getElem?_eq_getElem (Nat.lt_succ_of_le le : n < driftTrace.length)⟩
    have each := List.all_eq_true.mp (List.all_eq_true.mp short group (List.mem_of_getElem? here)) (p.calls.length, p.generalFailPos)
    rw [← drift_at here] at each
    simpa using each (List.mem_map_of_mem member)
  · rintro ⟨p0, s, e, entries, more, row⟩
    have first := congrArg (fun tables => (tables[0]?).bind fun table : List (List Int) => table[0]?) ended
    have recorded : unflat [1, 96, 2, 101, 2, 2, 102, 4] = (1, s) :: (2, e) :: entries := by
      rw [← unflat_flat ((1, s) :: (2, e) :: entries)]
      simp only [List.getElem?_map, row.writer, Option.map_some, row.row] at first
      exact congrArg unflat (Option.some.inj first).symm
    have reader : (runSync (syncGroup 91) driftSteps).progs.length = 2 := by
      simpa using congrArg List.length ended
    obtain ⟨a, _, -, known, -⟩ := row.entries.recorded 1 _ (by decide) (List.getElem?_eq_getElem (by omega))
    have member : ((101 : Int), (a : Int)) ∈ (unflat [1, 96, 2, 101, 2, 2, 102, 4]).drop 2 := by
      rw [recorded]
      exact known
    simp [unflat] at member

def shortSteps : List SyncStep :=
  [.syncPos fun _ => fixedDraw 0, .insert (stashChoice [0, 0, 0, 0, 0, 0]), .remove (stashChoice [0, 0]), .edit 1 syncReader]

theorem syncTable_run_short :
    SyncsRecorded (runSync (syncGroup 2) (shortSteps.take 4)).progs ∧
      (runSync (syncGroup 2) (shortSteps.take 2)).progs.map SeedProg.generalFailPos = [[[1, 4, 2, 9, 101, 1, 102, 5]], []] := by
  have inRange : ((List.range 4).all fun n =>
      (runSync (syncGroup 2) (shortSteps.take n)).progs.all fun p => p.calls.length ≤ 100 &&
        p.generalFailPos.all fun row => row.getD 1 0 < 100 && row.getD 3 0 < 100) = true := by
    decide +kernel
  have range : ∀ n < 4, InRange (runSync (syncGroup 2) (shortSteps.take n)).progs := by
    intro n below
    have each := List.all_eq_true.mp (List.all_eq_true.mp inRange n (List.mem_range.mpr below))
    simp only [Bool.and_eq_true, decide_eq_true_eq, List.all_eq_true] at each
    exact ⟨fun i p _ here => (each p (List.mem_of_getElem? here)).1,
      fun p0 row here first => (each p0 (List.mem_of_getElem? here)).2 row (List.mem_of_getElem? first)⟩
  have inside : 1 < (runSync (syncGroup 2) (shortSteps.take 3)).progs.length := by decide +kernel
  refine ⟨syncTable_run (syncGroup_table 2) ?_ ?_ 4, by decide +kernel⟩
  · refine allSteps_of fun n step here => ?_
    match n with
    | 0 | 1 | 2 =>
      obtain rfl := Option.some.inj here
      trivial
    | 3 =>
      obtain rfl := Option.some.inj here
      exact ⟨by decide, inside, 2, 4, syncReader_pair⟩
    | n + 4 => cases here
  · refine allSteps_of fun n step here => ?_
    refine ⟨range n (List.getElem?_eq_some_iff.mp here).1, fun i p same => ?_⟩
    have last := List.mem_of_getElem? here
    simp only [shortSteps, same, List.mem_cons, List.not_mem_nil, or_false, reduceCtorEq, false_or, SyncStep.edit.injEq] at last
    rw [last.2]
    decide

end DfsFuzz.Mutation
