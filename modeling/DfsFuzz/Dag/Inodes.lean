import DfsFuzz.Dag.PairsSound
import DfsFuzz.Dag.Resolve

/-!
Renaming the inode numbers of one node. The numbers are local to a node, and path resolution
treats them so; the same-inode test of `determinePathRel` compares them across nodes.
-/

namespace DfsFuzz.Dag

/-- Inode numbers are below this bound; the source masks them with `0xFFFFFFFF`. -/
def inoBound : UInt64 := 0x100000000

/-- A renaming of inode numbers: injective below the bound, and zero stays "no inode". -/
structure InodeRenaming where
  apply : UInt64 → UInt64
  zero : apply 0 = 0
  bounded : ∀ i, i < inoBound → apply i < inoBound
  injective : ∀ i j, i < inoBound → j < inoBound → apply i = apply j → i = j

namespace InodeRenaming

def identity : InodeRenaming := ⟨id, rfl, fun _ bound => bound, fun _ _ _ _ same => same⟩

def onNode (ρ : InodeRenaming) (k : Nat) (node : Int) : InodeRenaming := if node = k then ρ else identity

theorem apply_eq_iff (ρ : InodeRenaming) {i j : UInt64} (bi : i < inoBound) (bj : j < inoBound) :
    ρ.apply i = ρ.apply j ↔ i = j :=
  ⟨ρ.injective i j bi bj, congrArg ρ.apply⟩

theorem apply_eq_zero (ρ : InodeRenaming) {i : UInt64} (bound : i < inoBound) : ρ.apply i = 0 ↔ i = 0 := by
  have same := ρ.apply_eq_iff (j := 0) bound (by decide)
  rwa [ρ.zero] at same

end InodeRenaming

theorem inoMask_of_lt {i : UInt64} (bound : i < inoBound) : inoMask i = i := by
  have small : i.toNat < 2 ^ 32 := UInt64.lt_iff_toNat_lt.mp bound
  apply UInt64.toNat_inj.mp
  rw [inoMask, UInt64.toNat_and]
  show i.toNat &&& (2 ^ 32 - 1) = i.toNat
  rw [Nat.and_two_pow_sub_one_eq_mod]
  exact Nat.mod_eq_of_lt small

def renameEvent (k : Nat) (ρ : InodeRenaming) (ev : HmdfsTraceEvent) : HmdfsTraceEvent :=
  { ev with ino := (ρ.onNode k ev.progIdx).apply ev.ino }

def renameMetadata (ρ : InodeRenaming) (md : FileMetadata) : FileMetadata :=
  { md with statMd := { md.statMd with ino := ρ.apply md.statMd.ino } }

def renameInput (k : Nat) (ρ : InodeRenaming) (inp : BuildInput) : BuildInput :=
  { inp with fsMds := inp.fsMds.zipIdx.map fun m => m.1.map (Go.Map.mapValues (renameMetadata (ρ.onNode k m.2))) }

def renameVertex (k : Nat) (ρ : InodeRenaming) (v : DAGVertex) : DAGVertex :=
  { v with ino := (ρ.onNode k v.progIdx).apply v.ino }

/-- Every node in the trace has its own snapshot, every inode number of an event is zero or
occurs in it, and the numbers are below the bound. -/
structure LocalInodes (inp : BuildInput) (events : List HmdfsTraceEvent) : Prop where
  own : ∀ ev ∈ events, (inp.progOf ev).isSome → ∃ m, inp.fsMds[ev.progIdx.toNat]? = some (some m) ∧
    (ev.ino = 0 ∨ ∃ e ∈ m.items, e.2.statMd.ino = ev.ino)
  traced : ∀ ev ∈ events, ev.ino < inoBound
  stored : ∀ m, some m ∈ inp.fsMds → ∀ e ∈ m.items, e.2.statMd.ino < inoBound

/-! ### Snapshots under a renaming -/

def firstPath (m : FsMd) (ino : UInt64) : Option String :=
  (m.items.find? fun e => inoMask e.2.statMd.ino = ino).map fun e => normalizeMergeViewPath e.1

theorem ownPath_recordNode (s : Snapshots) (fsMd : Option FsMd) (node i : Nat) (ino : UInt64) :
    ownPath (recordNode s (fsMd, node)) i ino =
      match fsMd with
      | some m => if i = node then firstPath m ino else ownPath s i ino
      | none => ownPath s i ino := by
  cases fsMd with
  | none => rfl
  | some m =>
    simp only [recordNode, recordEntries_eq, ownPath]
    by_cases same : i = node
    · subst same
      rw [Go.Map.getD_insert_self, Go.Map.lookup_foldl_putNew, if_pos rfl]
      rfl
    · have apart : (i : Int) ≠ (node : Int) := by exact_mod_cast same
      rw [Go.Map.getD_insert_ne _ _ _ apart, if_neg same]

theorem ownPath_recordNodes (fsMds : List (Option FsMd)) (n : Nat) (s : Snapshots) (i : Nat) (ino : UInt64) :
    ownPath ((fsMds.zipIdx n).foldl recordNode s) i ino =
      if n ≤ i then ((fsMds[i - n]?.join.map fun m => firstPath m ino).getD (ownPath s i ino)) else ownPath s i ino := by
  induction fsMds generalizing n s with
  | nil => simp
  | cons fsMd fsMds ih =>
    rw [List.zipIdx_cons, List.foldl_cons, ih, ownPath_recordNode]
    rcases Nat.lt_trichotomy i n with before | rfl | after
    · have h1 : ¬ n + 1 ≤ i := by omega
      have h2 : ¬ n ≤ i := by omega
      have h3 : i ≠ n := by omega
      cases fsMd <;> simp [h1, h2, h3]
    · have h1 : ¬ i + 1 ≤ i := by omega
      cases fsMd <;> simp [h1]
    · have h1 : n + 1 ≤ i := by omega
      have h2 : n ≤ i := by omega
      have h3 : i ≠ n := by omega
      have h4 : i - n = (i - (n + 1)) + 1 := by omega
      cases fsMd <;> simp [h1, h2, h3, h4]

theorem ownPath_snapshotsOf (fsMds : List (Option FsMd)) (i : Nat) (ino : UInt64) :
    ownPath (snapshotsOf fsMds) i ino = fsMds[i]?.join.bind fun m => firstPath m ino := by
  have run := ownPath_recordNodes fsMds 0 {} i ino
  have empty : ownPath {} i ino = none := rfl
  rw [snapshotsOf, run, empty]
  cases fsMds[i]?.join <;> simp

theorem find?_renamed (ρ : InodeRenaming) {items : List (String × FileMetadata)} {ino : UInt64} (bound : ino < inoBound)
    (stored : ∀ e ∈ items, e.2.statMd.ino < inoBound) :
    ((items.map fun e => (e.1, renameMetadata ρ e.2)).find? fun e => inoMask e.2.statMd.ino = ρ.apply ino) =
      (items.find? fun e => inoMask e.2.statMd.ino = ino).map fun e => (e.1, renameMetadata ρ e.2) := by
  rw [List.find?_map]
  congr 1
  induction items with
  | nil => rfl
  | cons e items ih =>
    have small := stored e List.mem_cons_self
    have test : (inoMask (ρ.apply e.2.statMd.ino) = ρ.apply ino) = (inoMask e.2.statMd.ino = ino) := by
      rw [inoMask_of_lt small, inoMask_of_lt (ρ.bounded _ small)]
      exact propext (ρ.apply_eq_iff small bound)
    have rest := ih fun e member => stored e (List.mem_cons_of_mem _ member)
    rw [List.find?_cons, List.find?_cons, rest]
    simp only [Function.comp_apply, renameMetadata, test]

theorem firstPath_renamed (ρ : InodeRenaming) {m : FsMd} {ino : UInt64} (bound : ino < inoBound)
    (stored : ∀ e ∈ m.items, e.2.statMd.ino < inoBound) :
    firstPath (m.mapValues (renameMetadata ρ)) (ρ.apply ino) = firstPath m ino := by
  rw [firstPath, Go.Map.items_mapValues, find?_renamed ρ bound stored, Option.map_map]
  rfl

theorem normalizeMergeViewPath_ne_empty (path : String) : normalizeMergeViewPath path ≠ "" := by
  intro empty
  have chars := congrArg String.toList empty
  simp only [normalizeMergeViewPath] at chars
  split at chars
  · simp [mergeViewPrefix] at chars
  · rename_i merged
    rw [Bool.not_eq_true, Bool.not_eq_false'] at merged
    simp [Go.hasPrefix, chars, mergeViewPrefix] at merged

theorem firstPath_ne_empty {m : FsMd} {ino : UInt64} {path : String} (found : firstPath m ino = some path) : path ≠ "" := by
  obtain ⟨e, _, rfl⟩ := Option.map_eq_some_iff.mp found
  exact normalizeMergeViewPath_ne_empty e.1

/-- The snapshots of a run and of the renamed run, as far as the vertex pass asks them. -/
structure RenamedSnapshots (k : Nat) (ρ : InodeRenaming) (s s' : Snapshots) : Prop where
  own : ∀ (node : Nat) (ino : UInt64), ino < inoBound →
    ownPath s' node ((ρ.onNode k node).apply ino) = ownPath s node ino
  merged : s'.inoToPath.lookup 0 = s.inoToPath.lookup 0
  type : s'.nodeType = s.nodeType
  size : s'.pathSize = s.pathSize

theorem recordNodes_renamed (k : Nat) (ρ : InodeRenaming) (fsMds : List (Option FsMd))
    (stored : ∀ m, some m ∈ fsMds → ∀ e ∈ m.items, e.2.statMd.ino < inoBound) (n : Nat) (s s' : Snapshots)
    (merged : s'.inoToPath.lookup 0 = s.inoToPath.lookup 0) (type : s'.nodeType = s.nodeType)
    (size : s'.pathSize = s.pathSize) :
    let t := (fsMds.zipIdx n).foldl recordNode s
    let t' := (((fsMds.zipIdx n).map fun m =>
      m.1.map (Go.Map.mapValues (renameMetadata (ρ.onNode k m.2)))).zipIdx n).foldl recordNode s'
    t'.inoToPath.lookup 0 = t.inoToPath.lookup 0 ∧ t'.nodeType = t.nodeType ∧ t'.pathSize = t.pathSize := by
  induction fsMds generalizing n s s' with
  | nil => exact ⟨merged, type, size⟩
  | cons fsMd fsMds ih =>
    simp only [List.zipIdx_cons, List.map_cons, List.foldl_cons]
    have later := fun m member => stored m (List.mem_cons_of_mem _ member)
    cases fsMd with
    | none => exact ih later (n + 1) s s' merged type size
    | some m =>
      apply ih later (n + 1)
      · have here := stored m List.mem_cons_self
        have zero : (0 : UInt64) < inoBound := by decide
        have first := find?_renamed (ρ.onNode k n) zero here
        rw [(ρ.onNode k n).zero] at first
        simp only [recordNode, Option.map_some, recordEntries_eq, Go.Map.items_mapValues]
        rw [Go.Map.lookup_foldl_putNew, Go.Map.lookup_foldl_putNew, merged, first, Option.map_map]
        rfl
      · simp only [recordNode, Option.map_some, recordEntries_eq, Go.Map.items_mapValues]
        rw [List.foldl_map, type]
        rfl
      · simp only [recordNode, Option.map_some, recordEntries_eq, Go.Map.items_mapValues]
        rw [List.filter_map, List.foldl_map, size]
        rfl

theorem snapshotsOf_renamed (k : Nat) (ρ : InodeRenaming) {inp : BuildInput}
    (stored : ∀ m, some m ∈ inp.fsMds → ∀ e ∈ m.items, e.2.statMd.ino < inoBound) :
    RenamedSnapshots k ρ (snapshotsOf inp.fsMds) (snapshotsOf (renameInput k ρ inp).fsMds) := by
  obtain ⟨merged, type, size⟩ := recordNodes_renamed k ρ inp.fsMds stored 0 {} {} rfl rfl rfl
  refine ⟨?_, merged, type, size⟩
  intro node ino bound
  rw [ownPath_snapshotsOf, ownPath_snapshotsOf, renameInput, List.getElem?_map, List.getElem?_zipIdx]
  cases found : inp.fsMds[node]? with
  | none => rfl
  | some fsMd =>
    cases fsMd with
    | none => rfl
    | some m =>
      have here := stored m (List.mem_of_getElem? found)
      simpa using firstPath_renamed (ρ.onNode k node) bound here

/-! ### Timelines under a renaming -/

theorem deleteOf_renamed (k : Nat) (ρ : InodeRenaming) (inp : BuildInput) (ev : HmdfsTraceEvent) :
    deleteOf (renameInput k ρ inp) (renameEvent k ρ ev) =
      (deleteOf inp ev).map fun x => ((x.1.1, (ρ.onNode k x.1.1).apply x.1.2), x.2) := by
  show ((inp.callOf ev).bind fun pc => _) = Option.map _ ((inp.callOf ev).bind fun pc => _)
  cases inp.callOf ev with
  | none => rfl
  | some pc =>
    simp only [Option.bind_some, renameEvent]
    rw [apply_ite (Option.map _)]
    rfl

theorem deleteOf_key {inp : BuildInput} {ev : HmdfsTraceEvent} {key : Int × UInt64} {d : DeleteEvent}
    (found : deleteOf inp ev = some (key, d)) : key = (ev.progIdx, ev.ino) := by
  obtain ⟨pc, _, found⟩ := Option.bind_eq_some_iff.mp found
  obtain ⟨_, same⟩ := Option.ite_none_right_eq_some.mp found
  exact (congrArg Prod.fst (Option.some.inj same)).symm

theorem timelinesOf_rename_renamed (srt : Go.SliceSort) (k : Nat) (ρ : InodeRenaming) (inp : BuildInput)
    (events : List HmdfsTraceEvent) :
    (timelinesOf srt (renameInput k ρ inp) (events.map (renameEvent k ρ))).renameTLByPath =
      (timelinesOf srt inp events).renameTLByPath := by
  simp only [timelinesOf, timelineLoop, List.filterMap_map]
  rfl

theorem deletePathAt_renamed (srt : Go.SliceSort) (k : Nat) (ρ : InodeRenaming) (inp : BuildInput)
    {events : List HmdfsTraceEvent} (traced : ∀ ev ∈ events, ev.ino < inoBound) (node : Int) {ino : UInt64}
    (bound : ino < inoBound) (ts : UInt64) :
    deletePathAt node ((ρ.onNode k node).apply ino) ts
        (timelinesOf srt (renameInput k ρ inp) (events.map (renameEvent k ρ))).deleteTLByNode =
      deletePathAt node ino ts (timelinesOf srt inp events).deleteTLByNode := by
  rw [deletePathAt_eq, deletePathAt_eq, deletes_eq, deletes_eq]
  have same : tracedDeletes (renameInput k ρ inp) (events.map (renameEvent k ρ)) (node, (ρ.onNode k node).apply ino) =
      tracedDeletes inp events (node, ino) := by
    induction events with
    | nil => rfl
    | cons ev events ih =>
      have small := traced ev List.mem_cons_self
      have rest := ih fun ev member => traced ev (List.mem_cons_of_mem _ member)
      simp only [tracedDeletes] at rest ⊢
      simp only [List.map_cons, List.filterMap_cons, deleteOf_renamed]
      cases found : deleteOf inp ev with
      | none => simpa using rest
      | some x =>
        obtain ⟨key, d⟩ := x
        obtain rfl := deleteOf_key found
        have test : ((ev.progIdx, (ρ.onNode k ev.progIdx).apply ev.ino) = (node, (ρ.onNode k node).apply ino)) =
            ((ev.progIdx, ev.ino) = (node, ino)) := by
          simp only [Prod.mk.injEq, eq_iff_iff]
          refine and_congr_right fun here => ?_
          rw [here]
          exact InodeRenaming.apply_eq_iff _ small bound
        simp only [Option.map_some, List.filter_cons, test]
        split <;> simp only [List.map_cons, rest]
  rw [same]

/-! ### Vertices under a renaming -/

def Outcome.mapVertex (f : DAGVertex → DAGVertex) : Outcome → Outcome
  | .vertex dist v => .vertex dist (f v)
  | other => other

theorem progIdx_toNat {inp : BuildInput} {ev : HmdfsTraceEvent} (valid : (inp.progOf ev).isSome) :
    (ev.progIdx.toNat : Int) = ev.progIdx := by
  have inRange : ¬ (ev.progIdx < 0 || ev.progIdx ≥ inp.ps.length) = true := by
    intro bad
    simp [BuildInput.progOf, bad] at valid
  simp only [Bool.or_eq_true, decide_eq_true_eq, not_or, not_lt] at inRange
  exact Int.toNat_of_nonneg inRange.1

theorem LocalInodes.known {inp : BuildInput} {events : List HmdfsTraceEvent} (nodeLocal : LocalInodes inp events)
    {ev : HmdfsTraceEvent} (present : ev ∈ events) (valid : (inp.progOf ev).isSome) :
    ev.ino = 0 ∨ ∃ path, path ≠ "" ∧ ownPath (snapshotsOf inp.fsMds) ev.progIdx ev.ino = some path := by
  obtain ⟨m, snapshot, zero | ⟨e, stored, same⟩⟩ := nodeLocal.own ev present valid
  · exact Or.inl zero
  refine Or.inr ?_
  have found := ownPath_snapshotsOf inp.fsMds ev.progIdx.toNat ev.ino
  rw [progIdx_toNat valid, snapshot] at found
  have hit : (m.items.find? fun e => inoMask e.2.statMd.ino = ev.ino).isSome := by
    refine List.find?_isSome.mpr ⟨e, stored, ?_⟩
    rw [same, inoMask_of_lt (nodeLocal.traced ev present)]
    simp
  obtain ⟨e', first⟩ := Option.isSome_iff_exists.mp hit
  have path : firstPath m ev.ino = some (normalizeMergeViewPath e'.1) := by rw [firstPath, first]; rfl
  exact ⟨_, firstPath_ne_empty path, found.trans path⟩

section Vertices
variable {srt : Go.SliceSort} {k : Nat} {ρ : InodeRenaming} {inp : BuildInput} {events : List HmdfsTraceEvent}

theorem paths_renamed (nodeLocal : LocalInodes inp events) {ev : HmdfsTraceEvent} (present : ev ∈ events)
    (valid : (inp.progOf ev).isSome) :
    let s := snapshotsOf inp.fsMds
    let s' := snapshotsOf (renameInput k ρ inp).fsMds
    let tl := timelinesOf srt inp events
    let tl' := timelinesOf srt (renameInput k ρ inp) (events.map (renameEvent k ρ))
    writepagePath srt s' tl' (renameEvent k ρ ev) = writepagePath srt s tl ev ∧
      ∀ p call, callPaths srt s' tl' p call (renameEvent k ρ ev) = callPaths srt s tl p call ev := by
  intro s s' tl tl'
  have snaps : RenamedSnapshots k ρ s s' := snapshotsOf_renamed k ρ nodeLocal.stored
  have bound := nodeLocal.traced ev present
  have renames : tl'.renameTLByPath = tl.renameTLByPath := timelinesOf_rename_renamed srt k ρ inp events
  have node : (ev.progIdx.toNat : Int) = ev.progIdx := progIdx_toNat valid
  have mask : inoMask ev.ino = ev.ino := inoMask_of_lt bound
  have mask' : inoMask (renameEvent k ρ ev).ino = (renameEvent k ρ ev).ino :=
    inoMask_of_lt ((ρ.onNode k ev.progIdx).bounded _ bound)
  have own : ownPath s' ev.progIdx (renameEvent k ρ ev).ino = ownPath s ev.progIdx ev.ino := by
    have := snaps.own ev.progIdx.toNat ev.ino bound
    rwa [node] at this
  have inode : inoPath s' ev.progIdx (renameEvent k ρ ev).ino = inoPath s ev.progIdx ev.ino ∧
      ((ownPath s ev.progIdx ev.ino).getD "" = "" →
        s'.inoToPath.getD (renameEvent k ρ ev).ino "" = s.inoToPath.getD ev.ino "") := by
    rw [inoPath, inoPath, own]
    rcases nodeLocal.known present valid with zero | ⟨path, nonempty, found⟩
    · have merged : s'.inoToPath.lookup (renameEvent k ρ ev).ino = s.inoToPath.lookup ev.ino := by
        have both : ∀ i j : UInt64, i = 0 → j = 0 → s'.inoToPath.lookup i = s.inoToPath.lookup j := by
          rintro _ _ rfl rfl
          exact snaps.merged
        exact both _ _ (((ρ.onNode k ev.progIdx).apply_eq_zero bound).mpr zero) zero
      rw [Go.Map.getD, Go.Map.getD, merged]
      exact ⟨rfl, fun _ => rfl⟩
    · have found : ownPath s ev.progIdx ev.ino = some path := found
      rw [found]
      exact ⟨rfl, fun empty => absurd empty nonempty⟩
  constructor
  · have deleted := deletePathAt_renamed srt k ρ inp nodeLocal.traced ev.progIdx bound ev.timestamp
    have deleted : deletePathAt ev.progIdx (renameEvent k ρ ev).ino ev.timestamp tl'.deleteTLByNode =
        deletePathAt ev.progIdx ev.ino ev.timestamp tl.deleteTLByNode := deleted
    unfold writepagePath
    rw [mask, mask', renames]
    simp only [show (renameEvent k ρ ev).progIdx = ev.progIdx from rfl,
      show (renameEvent k ρ ev).timestamp = ev.timestamp from rfl, own, deleted]
    by_cases unknown : (ownPath s ev.progIdx ev.ino).getD "" = ""
    · rw [if_pos unknown, if_pos unknown, inode.2 unknown]
    · rw [if_neg unknown, if_neg unknown]
  · intro p call
    have looked : lookupPath s' (renameEvent k ρ ev) call = lookupPath s ev call := by
      unfold lookupPath
      rw [mask, mask']
      simp only [show (renameEvent k ρ ev).progIdx = ev.progIdx from rfl, inode.1]
    unfold callPaths movedPath
    rw [renames, looked]
    rfl

theorem outcomeOf_renamed (nodeLocal : LocalInodes inp events) {ev : HmdfsTraceEvent} (present : ev ∈ events) :
    outcomeOf srt (renameInput k ρ inp) (snapshotsOf (renameInput k ρ inp).fsMds)
        (timelinesOf srt (renameInput k ρ inp) (events.map (renameEvent k ρ))) (renameEvent k ρ ev) =
      (outcomeOf srt inp (snapshotsOf inp.fsMds) (timelinesOf srt inp events) ev).mapVertex (renameVertex k ρ) := by
  have snaps := snapshotsOf_renamed k ρ nodeLocal.stored
  have finish : ∀ dist v v', v' = renameVertex k ρ v →
      finishVertex (snapshotsOf (renameInput k ρ inp).fsMds) (renameEvent k ρ ev) dist v' =
        (finishVertex (snapshotsOf inp.fsMds) ev dist v).mapVertex (renameVertex k ρ) := by
    rintro dist v v' rfl
    unfold finishVertex
    rw [snaps.type, snaps.size, apply_ite (Outcome.mapVertex (renameVertex k ρ))]
    rfl
  unfold outcomeOf
  have prog : (renameInput k ρ inp).progOf (renameEvent k ρ ev) = inp.progOf ev := rfl
  rw [prog]
  cases valid : inp.progOf ev with
  | none => rfl
  | some p =>
    obtain ⟨written, called⟩ := @paths_renamed srt k ρ inp events nodeLocal ev present (by rw [valid]; rfl)
    by_cases page : ev.funcID = funcWritepage
    · have page' : (renameEvent k ρ ev).funcID = funcWritepage := page
      simp only [page, page', if_true]
      apply finish
      rw [written]
      rfl
    · have page' : ¬ (renameEvent k ρ ev).funcID = funcWritepage := page
      simp only [page, page', if_false]
      have matched : matchEventToCall (renameInput k ρ inp).tol (renameEvent k ρ ev) p (renameInput k ρ inp).tscoffs =
          matchEventToCall inp.tol ev p inp.tscoffs := rfl
      rw [matched]
      cases matchEventToCall inp.tol ev p inp.tscoffs with
      | error why => rfl
      | ok i =>
        dsimp only
        cases p.calls[i]? with
        | none => rfl
        | some call =>
          dsimp only
          cases call.checkInfo with
          | none => rfl
          | some ci =>
            apply finish
            rw [called]
            rfl

theorem rawVertices_renamed (nodeLocal : LocalInodes inp events) :
    rawVertices srt (renameInput k ρ inp) (events.map (renameEvent k ρ)) =
      (rawVertices srt inp events).map (renameVertex k ρ) := by
  unfold rawVertices
  rw [List.filterMap_map, List.map_filterMap]
  refine List.filterMap_congr fun ev present => ?_
  rw [Function.comp_apply, vertexOf, vertexOf, outcomeOf_renamed nodeLocal present]
  cases outcomeOf srt inp _ _ ev <;> rfl

theorem buildVertices_renamed (nodeLocal : LocalInodes inp events) :
    (buildVertices srt (renameInput k ρ inp) (events.map (renameEvent k ρ))).1 =
      (buildVertices srt inp events).1.map (renameVertex k ρ) := by
  rw [buildVertices_fst, buildVertices_fst, rawVertices_renamed nodeLocal]
  exact srt.natural (renameVertex k ρ) vertexLess vertexLess _ fun _ _ => rfl

end Vertices

end DfsFuzz.Dag
