import DfsFuzz.Generate.StashProgs
import Mathlib.Data.UInt

/-!
A stash seed has what the stash mutators assume, unless the size of a file makes a draw panic.
-/

namespace DfsFuzz.Generate

open DfsFuzz.Choice DfsFuzz.Mutation DfsFuzz.Tree

/-! ### The seed under construction -/

theorem flat_append (first second : List (Int × Int)) : flat (first ++ second) = flat first ++ flat second := by
  induction first with
  | nil => rfl
  | cons entry rest ih => simp [flat, ih]

/-- The two entries of node `i`. -/
def nodeEntries (i a e : Nat) : List (Int × Int) := [(i * 100 + 1, a), (i * 100 + 2, e)]

variable {entries : List (Int × Int)}

theorem syncEntries_add {ps : List SeedProg} (table : SyncEntries ps entries) (present : 0 < ps.length) {p : SeedProg}
    {a e : Nat} (pair : SyncPair p.calls a e) : SyncEntries (ps ++ [p]) (entries ++ nodeEntries ps.length a e) := by
  refine ⟨?_, ?_, ?_⟩
  · rw [List.map_append, List.nodup_append]
    refine ⟨table.distinct, by simp [nodeEntries], ?_⟩
    intro key old key' new
    obtain ⟨entry, member, rfl⟩ := List.mem_map.mp old
    obtain ⟨i, -, inside, found⟩ := table.node entry member
    simp only [nodeEntries, List.map_cons, List.map_nil, List.mem_cons, List.not_mem_nil, or_false] at new
    omega
  · intro entry member
    rw [List.length_append, List.length_singleton]
    rcases List.mem_append.mp member with old | new
    · obtain ⟨i, positive, inside, key⟩ := table.node entry old
      exact ⟨i, positive, by omega, key⟩
    · refine ⟨ps.length, present, by omega, ?_⟩
      simp only [nodeEntries, List.mem_cons, List.not_mem_nil, or_false] at new
      rcases new with rfl | rfl
      · exact .inl rfl
      · exact .inr rfl
  · intro i q positive found
    rw [List.getElem?_append] at found
    split at found
    · obtain ⟨a', e', old, first, second⟩ := table.recorded i q positive found
      exact ⟨a', e', old, List.mem_append_left _ first, List.mem_append_left _ second⟩
    · rename_i behind
      obtain ⟨inside, rfl⟩ := List.getElem?_eq_some_iff.mp found
      obtain rfl : i = ps.length := by simp at inside; omega
      refine ⟨a, e, by simpa using pair, List.mem_append_right _ ?_, List.mem_append_right _ ?_⟩
      · simp [nodeEntries]
      · simp [nodeEntries]

def Reads (calls : List Call) : Prop := ∃ c ∈ calls, isRead c.name = true

/-- The programs so far and `failPos`; the window begins at `s`. -/
structure SeedState (written : List (String × WriteInfo)) (s : Nat) (entries : List (Int × Int)) (st : StashGroup × List Int) :
    Prop where
  writer : ∃ p0, st.1.progs[0]? = some p0 ∧ (∀ o ∈ p0.calls, isSync o.name = false) ∧ HoldsWindow (callsOf p0) s
  row : st.2 = flat ((1, s) :: (2, s + 5) :: entries)
  entries : SyncEntries st.1.progs entries
  good : ∀ p ∈ st.1.progs, GoodProg written (callsOf p)

theorem callsOf_addProg (g : StashGroup) (calls : List Call) (hasNetFail : Bool) :
    ∃ p, (addProg g calls hasNetFail).progs = g.progs ++ [p] ∧ p.calls = numbered g.next calls ∧ callsOf p = calls :=
  ⟨_, rfl, rfl, map_numbered g.next calls⟩

variable {written : List (String × WriteInfo)}

theorem SeedState.start {b : Build} (window : WindowProg written b) {g : StashGroup} (empty : g.progs = []) :
    ∃ s : Nat, SeedState written s [] (addProg g b.calls true, [1, b.start, 2, b.finish]) := by
  obtain ⟨s, start, finish, holds⟩ := window.window
  obtain ⟨p, progs, calls, same⟩ := callsOf_addProg g b.calls true
  rw [empty, List.nil_append] at progs
  refine ⟨s, ⟨p, by rw [progs]; rfl, ?_, same.symm ▸ holds⟩, by rw [start, finish]; rfl, ?_, ?_⟩
  · intro o member
    have inCalls : o.call ∈ callsOf p := List.mem_map_of_mem member
    exact window.plain o.call (same ▸ inCalls)
  · rw [progs]
    refine ⟨List.nodup_nil, by simp, fun i q positive found => ?_⟩
    rw [List.getElem?_singleton, if_neg (by omega)] at found
    cases found
  · rw [progs]
    intro q member
    rw [List.mem_singleton.mp member, same]
    exact window.good

variable {st : StashGroup × List Int}

theorem SeedState.add {s : Nat} (state : SeedState written s entries st) {b : Build} (synced : SyncProg written b)
    {g : StashGroup} (progs : g.progs = st.1.progs) :
    ∃ more, SeedState written s (entries ++ more)
      (addProg g b.calls false, st.2 ++ failEntries st.1.progs.length b) := by
  obtain ⟨p0, writer, plain, window⟩ := state.writer
  have present : 0 < st.1.progs.length := (List.getElem?_eq_some_iff.mp writer).1
  obtain ⟨a, e, start, finish, pair⟩ := synced.syncs
  obtain ⟨p, joined, calls, same⟩ := callsOf_addProg g b.calls false
  rw [progs] at joined
  refine ⟨nodeEntries st.1.progs.length a e, ⟨p0, ?_, plain, window⟩, ?_, ?_, ?_⟩
  · rw [joined, List.getElem?_append_left present, writer]
  · have two : failEntries st.1.progs.length b = flat (nodeEntries st.1.progs.length a e) := by
      simp [failEntries, start, finish, nodeEntries, flat]
    rw [two, state.row, ← flat_append]
    rfl
  · rw [joined]
    exact syncEntries_add state.entries present (calls ▸ pair g.next)
  · rw [joined]
    intro q member
    rcases List.mem_append.mp member with old | new
    · exact state.good q old
    · rw [List.mem_singleton.mp new, same]
      exact synced.good

theorem addReaders_cons (reader : Nat → StashGroup → Build × StashGroup) (i : Nat) (rest : List Nat) (st : StashGroup × List Int) :
    addReaders reader (i :: rest) st = addReaders reader rest
      (addProg (reader i st.1).2 (reader i st.1).1.calls false, st.2 ++ failEntries i (reader i st.1).1) := rfl

def IsReader (written : List (String × WriteInfo)) (reader : Nat → StashGroup → Build × StashGroup) : Prop :=
  ∀ i g, (SyncProg written (reader i g).1 ∧ Reads (reader i g).1.calls) ∧ (reader i g).2.progs = g.progs

theorem SeedState.readers {reader : Nat → StashGroup → Build × StashGroup} (isReader : IsReader written reader)
    {s : Nat} (count : Nat) (state : SeedState written s entries st) :
    ∃ more, SeedState written s (entries ++ more) (addReaders reader (List.range' st.1.progs.length count) st) ∧
      (addReaders reader (List.range' st.1.progs.length count) st).1.progs.length = st.1.progs.length + count ∧
      ((∃ p ∈ st.1.progs, Reads (callsOf p)) ∨ 0 < count →
        ∃ p ∈ (addReaders reader (List.range' st.1.progs.length count) st).1.progs, Reads (callsOf p)) := by
  induction count generalizing entries st with
  | zero => exact ⟨[], by simpa [addReaders] using state, rfl, fun reads => reads.resolve_right (Nat.lt_irrefl 0)⟩
  | succ count ih =>
    obtain ⟨⟨synced, reads⟩, progs⟩ := isReader st.1.progs.length st.1
    obtain ⟨here, next⟩ := state.add synced progs
    obtain ⟨p, joined, -, same⟩ := callsOf_addProg (reader st.1.progs.length st.1).2 (reader st.1.progs.length st.1).1.calls false
    rw [progs] at joined
    obtain ⟨later, final, length, reading⟩ := ih next
    have long : (addProg (reader st.1.progs.length st.1).2 (reader st.1.progs.length st.1).1.calls false).progs.length =
        st.1.progs.length + 1 := by rw [joined, List.length_append, List.length_singleton]
    rw [long] at final length reading
    rw [List.range'_succ, addReaders_cons]
    refine ⟨here ++ later, by rw [← List.append_assoc]; exact final, by omega, fun _ => reading (.inl ⟨p, ?_, same.symm ▸ reads⟩)⟩
    rw [joined]
    exact List.mem_append_right _ List.mem_cons_self

/-! ### The finished seed -/

structure SeedSound (nodeNum : Nat) (ps : List SeedProg) : Prop where
  count : ps.length = nodeNum
  recorded : ∃ p0 entries, ∃ s : Nat, SyncRow ps p0 s (s + 5) entries [] ∧ HoldsWindow (callsOf p0) s
  bracketed : ∀ p ∈ ps, FdsBracketed (callsOf p)
  readBack : ∀ p ∈ ps, ∀ c ∈ callsOf p, isWrite c.name = true → ∃ region, writeRegion c = some region ∧
    ∀ q ∈ ps, Reads (callsOf q) → ∃ r ∈ callsOf q, isRead r.name = true ∧ fileOf (callsOf q) r = fileOf (callsOf p) c ∧
      writeRegion r = some region
  reader : ∃ p ∈ ps, Reads (callsOf p)

theorem SeedState.finish {s : Nat} (state : SeedState written s entries st)
    (reader : ∃ p ∈ st.1.progs, Reads (callsOf p)) : SeedSound st.1.progs.length (recordFailPos st).progs := by
  obtain ⟨p0, writer, plain, window⟩ := state.writer
  have same : ∀ p ∈ (recordFailPos st).progs, ∃ q ∈ st.1.progs, callsOf p = callsOf q := by
    intro p member
    obtain ⟨i, found⟩ := List.getElem?_of_mem member
    rw [recordFailPos, List.getElem?_modify, Option.map_eq_map, Option.map_eq_some_iff] at found
    obtain ⟨q, there, rfl⟩ := found
    exact ⟨q, List.mem_of_getElem? there, by split <;> rfl⟩
  have kept : ∀ q ∈ st.1.progs, ∃ p ∈ (recordFailPos st).progs, callsOf p = callsOf q := by
    intro q member
    obtain ⟨i, found⟩ := List.getElem?_of_mem member
    refine ⟨if 0 = i then { q with generalFailPos := [st.2] } else q, List.mem_of_getElem? (i := i) ?_, by split <;> rfl⟩
    rw [recordFailPos, List.getElem?_modify, found]
    rfl
  refine ⟨by simp [recordFailPos], ⟨{ p0 with generalFailPos := [st.2] }, entries, s, ⟨?_, plain, ?_, ?_⟩, window⟩, ?_, ?_, ?_⟩
  · rw [recordFailPos, List.getElem?_modify_eq, writer]
    rfl
  · rw [state.row]
  · refine state.entries.congr (by simp [recordFailPos]) fun i positive => ?_
    rw [recordFailPos, List.getElem?_modify_ne _ _ (by omega)]
  · intro p member
    obtain ⟨q, inside, calls⟩ := same p member
    rw [calls]
    exact (state.good q inside).bracketed
  · intro p member c inCalls isWrite
    obtain ⟨q, inside, calls⟩ := same p member
    rw [calls] at inCalls ⊢
    obtain ⟨w, known, file, region⟩ := (state.good q inside).writes c inCalls isWrite
    refine ⟨_, region, fun q' member' reads => ?_⟩
    obtain ⟨q'', inside', calls'⟩ := same q' member'
    rw [calls'] at reads ⊢
    rw [file]
    exact (state.good q'' inside').reads reads w known
  · obtain ⟨q, member, reads⟩ := reader
    obtain ⟨p, inside, calls⟩ := kept q member
    exact ⟨p, inside, calls.symm ▸ reads⟩

theorem SeedState.finished {reader : Nat → StashGroup → Build × StashGroup} (isReader : IsReader written reader)
    {s nodeNum built : Nat} (state : SeedState written s entries st) (here : st.1.progs.length = built)
    (more : built < nodeNum) :
    SeedSound nodeNum (recordFailPos (addReaders reader (List.range' built (nodeNum - built)) st)).progs := by
  subst here
  obtain ⟨_, final, length, reading⟩ := state.readers isReader (nodeNum - st.1.progs.length)
  have sound := final.finish (reading (.inr (by omega)))
  rwa [length, Nat.add_sub_cancel' (Nat.le_of_lt more)] at sound

/-! ### What is read back -/

theorem Synced.reads {ws : List (String × WriteInfo)} {b : Build} (synced : Synced "pread64" ws b) (some : 0 < ws.length) :
    Reads b.calls := by
  have read : isRead "pread64" = true := call_kinds.2.2.1.2.2.1
  obtain ⟨opened, body, framed, -, -, all⟩ := synced.frame
  obtain ⟨c, member, op⟩ := all ws[0] (List.getElem_mem some)
  exact ⟨c, framed.body_subset member, op.named ▸ read⟩

theorem isReader_readBack {paths : List String} (distinct : paths.Nodup) {reads : List (String × WriteInfo)}
    (known : ∀ w ∈ reads, w.1 ∈ paths) (covers : written ⊆ reads) {pos : Nat} (inside : pos < reads.length)
    (ch : Nat → ProgChoice) : IsReader written fun i => readBack (ch i) paths reads i true pos := by
  have names : isSync "pread64" = false ∧ Go.contains "pread64" "close" = false := ⟨call_kinds.2.2.1.1, call_kinds.2.2.1.2.2.2⟩
  intro i g
  obtain ⟨synced, progs⟩ :=
    synced_around names distinct (does_reads distinct known (ch i).readAddr) inside i (ch i).openAddr 0 0o444 g
  exact ⟨⟨synced.reader covers, synced.reads (Nat.zero_lt_of_lt inside)⟩, progs⟩

theorem single_known (filePath : String) (infos : List WriteInfo) :
    ∀ w ∈ infos.map fun wi => (filePath, wi), w.1 ∈ [filePath] := by
  intro w member
  obtain ⟨_, -, rfl⟩ := List.mem_map.mp member
  exact List.mem_singleton_self filePath

theorem regionsOf_single {filePath : String} {writes : List Write} (one : ∀ w ∈ writes, w.path = filePath) :
    regionsOf writes = (writes.map Write.info).map fun wi => (filePath, wi) := by
  rw [regionsOf, List.map_map]
  exact List.map_congr_left fun w member => by rw [one w member, Function.comp_apply]

theorem infosOf_append (first second : List Write) (path : String) :
    infosOf (first ++ second) path = infosOf first path ++ infosOf second path := by
  rw [infosOf, List.filter_append, List.map_append]
  rfl

theorem infosOf_length (writes : List Write) (path : String) :
    (infosOf writes path).length = (writes.map Write.path).count path := by
  rw [infosOf, List.length_map, List.count, List.countP_map, List.countP_eq_length_filter]
  rfl

section ReadOrder

variable {filePaths : List String} {writeInfosMap : WriteInfos}

theorem readOrder_known : ∀ w ∈ readOrder filePaths writeInfosMap, w.1 ∈ filePaths := by
  intro w member
  obtain ⟨i, -, here⟩ := List.mem_flatMap.mp member
  obtain ⟨path, inside, found⟩ := List.mem_filterMap.mp here
  obtain ⟨_, -, rfl⟩ := Option.map_eq_some_iff.mp found
  exact inside

variable {n : Nat} (each : ∀ path ∈ filePaths, (writeInfosMap path).length = n)

include each

theorem readOrder_eq (some : filePaths ≠ []) : readOrder filePaths writeInfosMap =
    (List.range n).flatMap fun i => filePaths.filterMap fun path => (writeInfosMap path)[i]?.map fun wi => (path, wi) := by
  have longest : ∀ k, (List.replicate k n).foldl max n = n := by
    intro k
    induction k with
    | zero => rfl
    | succ k ih => rw [List.replicate_succ, List.foldl_cons, max_self, ih]
  have lengths : filePaths.map (fun path => (writeInfosMap path).length) = List.replicate filePaths.length n := by
    rw [List.map_congr_left each, List.map_const']
  obtain ⟨path, rest, rfl⟩ := List.exists_cons_of_ne_nil some
  rw [readOrder, lengths, List.length_cons, List.replicate_succ, List.foldl_cons, Nat.zero_max, longest]

theorem readOrder_length (some : filePaths ≠ []) : (readOrder filePaths writeInfosMap).length = n * filePaths.length := by
  have round : ∀ i ∈ List.range n,
      (filePaths.filterMap fun path => (writeInfosMap path)[i]?.map fun wi => (path, wi)).length = filePaths.length := by
    intro i member
    have found : List.Forall₂ (fun _ _ => True) filePaths
        (filePaths.filterMap fun path => (writeInfosMap path)[i]?.map fun wi => (path, wi)) := by
      refine forall₂_filterMap fun path inside => ?_
      have short : i < (writeInfosMap path).length := each path inside ▸ List.mem_range.mp member
      exact ⟨(path, (writeInfosMap path)[i]), by rw [List.getElem?_eq_getElem short, Option.map_some], trivial⟩
    exact found.length_eq.symm
  rw [readOrder_eq each some, List.length_flatMap, List.map_congr_left round]
  simp

theorem mem_readOrder {path : String} (inside : path ∈ filePaths) {wi : WriteInfo} (member : wi ∈ writeInfosMap path) :
    (path, wi) ∈ readOrder filePaths writeInfosMap := by
  obtain ⟨i, found⟩ := List.getElem?_of_mem member
  have short : i < n := each path inside ▸ (List.getElem?_eq_some_iff.mp found).1
  rw [readOrder_eq each (List.ne_nil_of_mem inside)]
  refine List.mem_flatMap.mpr ⟨i, List.mem_range.mpr short, List.mem_filterMap.mpr ⟨path, inside, ?_⟩⟩
  rw [found, Option.map_some]

end ReadOrder

/-! ### What is written -/

theorem writeOrder_subset (rounds : Nat) (paths : List String) : writeOrder rounds paths ⊆ paths := by
  intro path member
  obtain ⟨round, isRound, inside⟩ := List.mem_flatten.mp member
  exact List.eq_of_mem_replicate isRound ▸ inside

theorem length_writeOrder (rounds : Nat) (paths : List String) : (writeOrder rounds paths).length = rounds * paths.length := by
  simp [writeOrder]

theorem count_writeOrder {rounds : Nat} {paths : List String} (distinct : paths.Nodup) {path : String} (member : path ∈ paths) :
    (writeOrder rounds paths).count path = rounds := by
  simp [writeOrder, List.count_flatten, List.count_eq_one_of_mem distinct member]

theorem path_of_order {writes : List Write} {order : List String} (same : writes.map Write.path = order) :
    ∀ w ∈ writes, w.path ∈ order := fun _ member => same ▸ List.mem_map_of_mem member

section Writers

variable {hmcfg : HmdfsConfig} {ch : ProgChoice} {rounds : Nat} {paths : List String} (distinct : paths.Nodup)
  (regular : RegularDraws hmcfg.fileTree ch.region (writeOrder rounds paths)) (g : StashGroup)

include distinct regular

theorem writeWithNet_spec (some : 0 < (writeOrder rounds paths).length) (flags : UInt64) (targetNodes : List Nat) :
    ∃ writes pos b g', writeWithNet hmcfg ch flags paths (writeOrder rounds paths) targetNodes g = .some (writes, pos, b, g') ∧
      writes.map Write.path = writeOrder rounds paths ∧ pos < (writeOrder rounds paths).length ∧ g'.progs = g.progs ∧
      ∀ written, regionsOf writes ⊆ written → WindowProg written b := by
  obtain ⟨writes, drawn, same⟩ := drawWrites_isSome regular
  have pos := ch.netInsertPos.lt _ some
  have long : (writeOrder rounds paths).length = writes.length := by rw [← same, List.length_map]
  have known : ∀ w ∈ writes, w.path ∈ paths := fun w member => writeOrder_subset _ _ (path_of_order same w member)
  have window : ∀ written, regionsOf writes ⊆ written → _ := fun written covered =>
    @windowProg_of_loop paths written hmcfg ch.cmdAddr targetNodes _ distinct writes known (Nat.lt_of_lt_of_eq pos long) covered
      ch.openAddr flags 0o666 g
  refine ⟨writes, _, _, _, ?_, same, pos, (window _ (List.Subset.refl _)).2, fun written covered => (window written covered).1⟩
  rw [writeWithNet, drawn]
  rfl

theorem normalWrite_spec (rounds_eq : rounds = 2) (nodeIdx : Nat) {pos : Nat} (inside : pos < (writeOrder rounds paths).length) :
    ∃ writes b g', generateNormalWriteCallsForStash hmcfg ch paths nodeIdx true pos g = some (writes, b, g') ∧
      writes.map Write.path = writeOrder rounds paths ∧ g'.progs = g.progs ∧ Synced "pwrite64" (regionsOf writes) b := by
  have names : isSync "pwrite64" = false ∧ Go.contains "pwrite64" "close" = false := ⟨call_kinds.2.2.2.1.1, call_kinds.2.2.2.1.2.2⟩
  subst rounds_eq
  obtain ⟨writes, drawn, same⟩ := drawWrites_isSome regular
  have long : (writeOrder 2 paths).length = (regionsOf writes).length := by rw [← same, regionsOf, List.length_map, List.length_map]
  have known : ∀ w ∈ writes, w.path ∈ paths := fun w member => writeOrder_subset _ _ (path_of_order same w member)
  obtain ⟨synced, progs⟩ := synced_around names distinct (does_writes distinct known) (Nat.lt_of_lt_of_eq inside long) nodeIdx
    ch.openAddr (2 ||| 64) 0o666 g
  refine ⟨writes, _, _, ?_, same, progs, synced⟩
  rw [generateNormalWriteCallsForStash, drawn]
  rfl

theorem secondWrite_spec {filePath : String} (rounds_eq : rounds = 4) (paths_eq : paths = [filePath]) (nodeIdx : Nat) :
    ∃ writes b g', generateWriteCallsWithoutNetCallForHmdfsStash hmcfg ch filePath nodeIdx true g = some (writes, b, g') ∧
      writes.map Write.path = writeOrder rounds paths ∧ g'.progs = g.progs ∧ Synced "pwrite64" (regionsOf writes) b := by
  subst rounds_eq paths_eq
  obtain ⟨writes, drawn, same⟩ := drawWrites_isSome regular
  have long : (writeOrder 4 [filePath]).length = (regionsOf writes).length := by
    rw [← same, regionsOf, List.length_map, List.length_map]
  rw [length_writeOrder, List.length_singleton] at long
  have known : ∀ w ∈ writes, w.path ∈ [filePath] := fun w member => writeOrder_subset _ _ (path_of_order same w member)
  obtain ⟨synced, progs⟩ := synced_halfway distinct (does_writes distinct known) (by omega) nodeIdx ch.openAddr 2 0o666 g
  refine ⟨writes, _, _, ?_, same, progs, synced⟩
  rw [generateWriteCallsWithoutNetCallForHmdfsStash, drawn]
  rfl

end Writers

/-! ### The seed -/

def seedPaths (hmcfg : HmdfsConfig) (ch : StashSeedChoice) : List String :=
  if ch.mode.intn 3 = 2 then (stashFiles hmcfg ch).getD []
  else (hmcfg.cids[0]?.map fun cid => selectRemoteFile hmcfg ch.cids cid (ch.file 0)).toList

def seedRounds (ch : StashSeedChoice) : Nat := if ch.mode.intn 3 = 2 then 2 else 4

def seedWriters (ch : StashSeedChoice) : List Nat := if ch.mode.intn 3 = 0 then [0] else [0, 1]

/-- No write of the seed draws from an irregular size. -/
def RegularSeed (hmcfg : HmdfsConfig) (ch : StashSeedChoice) : Prop :=
  ∀ i ∈ seedWriters ch, RegularDraws hmcfg.fileTree (ch.prog i).region (writeOrder (seedRounds ch) (seedPaths hmcfg ch))

theorem stashFiles_isSome {hmcfg : HmdfsConfig} (nodes : 3 ≤ hmcfg.nodeNum) (cids : hmcfg.nodeNum ≤ hmcfg.cids.length)
    (ch : StashSeedChoice) : ∃ paths, stashFiles hmcfg ch = some paths ∧ 2 ≤ paths.length := by
  have few : 2 ≤ numFiles hmcfg ∧ numFiles hmcfg < hmcfg.nodeNum := by
    unfold numFiles
    split <;> omega
  obtain ⟨paths, found, related⟩ := exists_mapM (R := fun _ _ => True) (l := List.range (numFiles hmcfg))
    (f := fun i => hmcfg.cids[i + 1]?.map fun cid => selectFileInOneNode hmcfg cid (ch.file i) (ch.suffix i)) fun i member => by
      have inside : i + 1 < hmcfg.cids.length := by
        rw [List.mem_range] at member
        omega
      exact ⟨_, by rw [List.getElem?_eq_getElem inside, Option.map_some], trivial⟩
  exact ⟨paths, found, by rw [← related.length_eq, List.length_range]; exact few.1⟩

theorem multiFile_sound {hmcfg : HmdfsConfig} {ch : StashSeedChoice} (nodes : 3 ≤ hmcfg.nodeNum) {paths : List String}
    (files : stashFiles hmcfg ch = some paths) (two : 2 ≤ paths.length) (distinct : paths.Nodup)
    (regular : ∀ i ∈ [0, 1], RegularDraws hmcfg.fileTree (ch.prog i).region (writeOrder 2 paths)) :
    ∃ g, generateProgsForMultiFileStash hmcfg ch = some g ∧ SeedSound hmcfg.nodeNum g.progs := by
  have some : 0 < (writeOrder 2 paths).length := by
    rw [length_writeOrder]
    omega
  obtain ⟨writes0, pos, b0, g0, first, paths0, inside, progs0, window⟩ := writeWithNet_spec distinct (regular 0 (by simp))
    { progs := [] } some (2 ||| 64) (targetNodesOf hmcfg)
  obtain ⟨writes1, b1, g1, second, paths1, progs1, synced⟩ := normalWrite_spec distinct (regular 1 (by simp))
    (addProg g0 b0.calls true) rfl 1 inside
  have infos : (fun path => infosOf writes0 path ++ infosOf writes1 path) = infosOf (writes0 ++ writes1) :=
    funext fun path => (infosOf_append writes0 writes1 path).symm
  have each : ∀ path ∈ paths, (infosOf (writes0 ++ writes1) path).length = 4 := by
    intro path member
    rw [infosOf_length, List.map_append, paths0, paths1, List.count_append, count_writeOrder distinct member]
  have nonempty : paths ≠ [] := fun none => by
    rw [none] at two
    cases two
  have covered : regionsOf (writes0 ++ writes1) ⊆ readOrder paths (infosOf (writes0 ++ writes1)) := by
    intro region member
    obtain ⟨w, isWrite, rfl⟩ := List.mem_map.mp member
    have known : w.path ∈ paths := by
      rcases List.mem_append.mp isWrite with early | late
      · exact writeOrder_subset _ _ (path_of_order paths0 w early)
      · exact writeOrder_subset _ _ (path_of_order paths1 w late)
    exact mem_readOrder each known (List.mem_map_of_mem (List.mem_filter.mpr ⟨isWrite, by simp⟩))
  have isReader : IsReader (regionsOf (writes0 ++ writes1))
      fun i => generateMultiFileReadCallsForStash (ch.prog i) paths (infosOf (writes0 ++ writes1)) i true pos := by
    refine isReader_readBack distinct readOrder_known covered ?_ ch.prog
    rw [readOrder_length each nonempty]
    rw [length_writeOrder] at inside
    omega
  have both : regionsOf writes0 ⊆ regionsOf (writes0 ++ writes1) ∧ regionsOf writes1 ⊆ regionsOf (writes0 ++ writes1) := by
    simp [regionsOf]
  obtain ⟨s, started⟩ := SeedState.start (window _ both.1) progs0
  have here : (addProg g0 b0.calls true).progs.length = 1 := by simp [addProg, progs0]
  obtain ⟨_, next⟩ := started.add (synced.writer both.2) progs1
  rw [here] at next
  refine ⟨_, ?_, next.finished isReader (by simp [addProg, progs1, progs0]) nodes⟩
  rw [generateProgsForMultiFileStash, files, Option.bind_some, generateMultiFileWriteCallsForStash, first, Option.bind_some]
  dsimp only
  rw [if_pos (by omega), second, Option.map_some, ← infos]

section Single

variable {hmcfg : HmdfsConfig} {ch : StashSeedChoice} (nodes : 3 ≤ hmcfg.nodeNum) {cid : String} (first : hmcfg.cids[0]? = some cid)

include nodes first

theorem oneWriter_sound (mode : ch.mode.intn 3 = 0)
    (regular : RegularDraws hmcfg.fileTree (ch.prog 0).region (writeOrder 4 [selectRemoteFile hmcfg ch.cids cid (ch.file 0)])) :
    ∃ g, generateProgsForHmdfsStash hmcfg ch = some g ∧ SeedSound hmcfg.nodeNum g.progs := by
  obtain ⟨writes, pos, b, g, drawn, paths, inside, progs, window⟩ := writeWithNet_spec (List.nodup_singleton _) regular
    { progs := [] } (by simp [length_writeOrder]) 2 (targetNodesOf hmcfg)
  have one : ∀ w ∈ writes, w.path = selectRemoteFile hmcfg ch.cids cid (ch.file 0) := fun w member =>
    List.mem_singleton.mp (writeOrder_subset _ _ (path_of_order paths w member))
  have isReader : IsReader (regionsOf writes) fun i => generateReadCallsForHmdfsStash (ch.prog i)
      (selectRemoteFile hmcfg ch.cids cid (ch.file 0)) (writes.map Write.info) i true pos := by
    refine isReader_readBack (List.nodup_singleton _) (single_known _ _) (regionsOf_single one ▸ List.Subset.refl _) ?_ ch.prog
    rw [List.length_map, List.length_map, ← List.length_map (f := Write.path), paths]
    exact inside
  obtain ⟨s, started⟩ := SeedState.start (window _ (List.Subset.refl _)) progs
  refine ⟨_, ?_, started.finished isReader (show _ = 1 by simp [addProg, progs]) (by omega)⟩
  rw [generateProgsForHmdfsStash, mode, if_neg (by simp), first, Option.bind_some]
  dsimp only
  rw [generateWriteCallsWithNetCallForHmdfsStash, drawn]
  rfl

theorem twoWriters_sound (mode : ch.mode.intn 3 = 1)
    (regular : ∀ i ∈ [0, 1], RegularDraws hmcfg.fileTree (ch.prog i).region
      (writeOrder 4 [selectRemoteFile hmcfg ch.cids cid (ch.file 0)])) :
    ∃ g, generateProgsForHmdfsStash hmcfg ch = some g ∧ SeedSound hmcfg.nodeNum g.progs := by
  obtain ⟨writes0, pos, b0, g0, drawn, paths0, inside, progs0, window⟩ := writeWithNet_spec (List.nodup_singleton _)
    (regular 0 (by simp)) { progs := [] } (by simp [length_writeOrder]) 2 (targetNodesOf hmcfg)
  obtain ⟨writes1, b1, g1, second, paths1, progs1, synced⟩ := secondWrite_spec (List.nodup_singleton _) (regular 1 (by simp))
    (addProg g0 b0.calls true) rfl rfl 1
  have one : ∀ w ∈ writes0 ++ writes1, w.path = selectRemoteFile hmcfg ch.cids cid (ch.file 0) := by
    intro w member
    rcases List.mem_append.mp member with early | late
    · exact List.mem_singleton.mp (writeOrder_subset _ _ (path_of_order paths0 w early))
    · exact List.mem_singleton.mp (writeOrder_subset _ _ (path_of_order paths1 w late))
  have isReader : IsReader (regionsOf (writes0 ++ writes1)) fun i => generateReadCallsForHmdfsStash (ch.prog i)
      (selectRemoteFile hmcfg ch.cids cid (ch.file 0)) ((writes0 ++ writes1).map Write.info) i true pos := by
    refine isReader_readBack (List.nodup_singleton _) (single_known _ _) (regionsOf_single one ▸ List.Subset.refl _) ?_ ch.prog
    have long : writes0.length = (writeOrder 4 [selectRemoteFile hmcfg ch.cids cid (ch.file 0)]).length := by
      rw [← paths0, List.length_map]
    rw [List.length_map, List.length_map, List.length_append]
    omega
  have both : regionsOf writes0 ⊆ regionsOf (writes0 ++ writes1) ∧ regionsOf writes1 ⊆ regionsOf (writes0 ++ writes1) := by
    simp [regionsOf]
  obtain ⟨s, started⟩ := SeedState.start (window _ both.1) progs0
  have here : (addProg g0 b0.calls true).progs.length = 1 := by simp [addProg, progs0]
  obtain ⟨_, next⟩ := started.add (synced.writer both.2) progs1
  rw [here] at next
  refine ⟨_, ?_, next.finished isReader (by simp [addProg, progs1, progs0]) nodes⟩
  rw [generateProgsForHmdfsStash, mode, if_neg (by simp), first, Option.bind_some]
  dsimp only
  rw [generateWriteCallsWithNetCallForHmdfsStash, drawn, Option.bind_some]
  dsimp only
  rw [if_pos (by simp; omega), second]
  rfl

end Single

/-! ### When the draws succeed -/

theorem RegularDraws.of_writeWithNet {hmcfg : HmdfsConfig} {ch : ProgChoice} {flags : UInt64} {paths order : List String}
    {targetNodes : List Nat} {g : StashGroup} {result : List Write × Nat × Build × StashGroup}
    (made : writeWithNet hmcfg ch flags paths order targetNodes g = some result) : RegularDraws hmcfg.fileTree ch.region order := by
  obtain ⟨writes, drawn, -⟩ := Option.map_eq_some_iff.mp made
  exact .of_drawn drawn

theorem RegularSeed.of_generated {hmcfg : HmdfsConfig} {ch : StashSeedChoice} (nodes : 3 ≤ hmcfg.nodeNum) {g : StashGroup}
    (generated : generateProgsForHmdfsStash hmcfg ch = some g) : RegularSeed hmcfg ch := by
  have modes := ch.mode.lt 3 (by decide)
  by_cases multi : ch.mode.intn 3 = 2
  · rw [generateProgsForHmdfsStash, multi, if_pos (by simp; omega), generateProgsForMultiFileStash, Option.bind_eq_some_iff] at generated
    obtain ⟨paths, files, generated⟩ := generated
    obtain ⟨⟨writes0, pos, b0, g0⟩, first, generated⟩ := Option.bind_eq_some_iff.mp generated
    dsimp only at generated
    rw [if_pos (by omega)] at generated
    obtain ⟨_, second, -⟩ := Option.map_eq_some_iff.mp generated
    obtain ⟨_, drawn, -⟩ := Option.map_eq_some_iff.mp second
    rw [RegularSeed, seedWriters, multi, if_neg (by decide), seedRounds, multi, if_pos rfl, seedPaths, multi, if_pos rfl, files]
    exact List.forall_mem_cons.mpr ⟨.of_writeWithNet first, List.forall_mem_singleton.mpr (.of_drawn drawn)⟩
  · rw [generateProgsForHmdfsStash, if_neg (by simp [multi]), Option.bind_eq_some_iff] at generated
    obtain ⟨cid, isCid, generated⟩ := generated
    obtain ⟨⟨writes0, pos, b0, g0⟩, first, generated⟩ := Option.bind_eq_some_iff.mp generated
    rw [RegularSeed, seedWriters, seedRounds, if_neg multi, seedPaths, if_neg multi, isCid]
    by_cases zero : ch.mode.intn 3 = 0
    · rw [if_pos zero]
      exact List.forall_mem_singleton.mpr (.of_writeWithNet first)
    · rw [if_neg zero]
      dsimp only at generated
      rw [if_pos (by simp; omega)] at generated
      obtain ⟨_, second, -⟩ := Option.map_eq_some_iff.mp generated
      obtain ⟨_, drawn, -⟩ := Option.map_eq_some_iff.mp second
      exact List.forall_mem_cons.mpr ⟨.of_writeWithNet first, List.forall_mem_singleton.mpr (.of_drawn drawn)⟩

/-- A stash seed is what the mutators assume exactly when no write of it draws from an irregular size. -/
theorem generateProgsForHmdfsStash_sound {hmcfg : HmdfsConfig} {ch : StashSeedChoice} (nodes : 3 ≤ hmcfg.nodeNum)
    (cids : hmcfg.nodeNum ≤ hmcfg.cids.length) (distinct : ch.mode.intn 3 = 2 → (seedPaths hmcfg ch).Nodup) :
    (∃ g, generateProgsForHmdfsStash hmcfg ch = some g ∧ SeedSound hmcfg.nodeNum g.progs) ↔ RegularSeed hmcfg ch := by
  refine ⟨fun ⟨g, generated, _⟩ => .of_generated nodes generated, fun regular => ?_⟩
  have modes := ch.mode.lt 3 (by decide)
  have first : hmcfg.cids[0]? = some hmcfg.cids[0] := List.getElem?_eq_getElem (by omega)
  by_cases multi : ch.mode.intn 3 = 2
  · obtain ⟨paths, files, two⟩ := stashFiles_isSome nodes cids ch
    have same : seedPaths hmcfg ch = paths := by rw [seedPaths, if_pos multi, files, Option.getD_some]
    rw [RegularSeed, seedWriters, if_neg (by omega), seedRounds, if_pos multi, same] at regular
    rw [generateProgsForHmdfsStash, if_pos (by simp [multi]; omega)]
    exact multiFile_sound nodes files two (same ▸ distinct multi) regular
  · rw [RegularSeed, seedWriters, seedRounds, if_neg multi, seedPaths, if_neg multi, first] at regular
    by_cases zero : ch.mode.intn 3 = 0
    · rw [if_pos zero] at regular
      exact oneWriter_sound nodes first zero (regular 0 (by simp))
    · rw [if_neg zero] at regular
      exact twoWriters_sound nodes first (by omega) regular

/-! ### Three nodes -/

def firstDraws (mode : Nat) : StashSeedChoice where
  mode := fixedDraw mode
  cids := ["a", "b", "c"]
  file _ := fixedDraw 0
  suffix i := if i = 0 then "x" else "y"
  prog _ := { netInsertPos := fixedDraw 0, openAddr := fun _ => 0, cmdAddr := 0, readAddr := fun _ => 0,
              region := fun _ => ⟨fun _ => fixedDraw 0, 0, fun _ => fixedDraw 0, 0⟩ }

def threeNodes (fileTree : Option FileTree) : HmdfsConfig := { nodeNum := 3, cids := ["a", "b", "c"], fileTree }

theorem stashSeed_threeNodes : ∃ g, generateProgsForHmdfsStash (threeNodes none) (firstDraws 2) = some g ∧ SeedSound 3 g.progs :=
  (@generateProgsForHmdfsStash_sound (threeNodes none) (firstDraws 2) (by decide) (by decide) fun _ => by decide +kernel).mpr
    fun _ _ _ _ => .inl (.inl (show (0 : UInt64).toNat < 2 ^ 63 - 4097 by decide))

def hugeFile : FileTree := (newFileTree.addNode "merge_view/f" .file "b").updateNodeSize "merge_view/f" (2 ^ 63)

theorem stashSeed_hugeFile :
    ¬ ∃ g, generateProgsForHmdfsStash (threeNodes (some hugeFile)) (firstDraws 0) = some g ∧ SeedSound 3 g.progs := by
  rintro ⟨g, generated, -⟩
  have panics : (generateProgsForHmdfsStash (threeNodes (some hugeFile)) (firstDraws 0)).isNone = true := by decide +kernel
  rw [generated] at panics
  cases panics

end DfsFuzz.Generate
