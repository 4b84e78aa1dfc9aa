import DfsFuzz.Dag.Build

/-!
What the vertex pass makes of one event depends on the other events only through the rename and
delete timelines, and on the snapshots only through lookups. With distinct timestamps neither
the order of the events nor the iteration order of the maps can show in a vertex.
-/

namespace DfsFuzz.Dag

def vertexOf (srt : Go.SliceSort) (inp : BuildInput) (s : Snapshots) (tl : Timelines) (ev : HmdfsTraceEvent) :
    Option DAGVertex :=
  match outcomeOf srt inp s tl ev with
  | .vertex _ v => some v
  | _ => none

theorem buildStep_vertices (srt : Go.SliceSort) (inp : BuildInput) (s : Snapshots) (tl : Timelines) (st : BuildState)
    (ev : HmdfsTraceEvent) :
    (buildStep srt inp s tl st ev).vertices = st.vertices ++ (vertexOf srt inp s tl ev).toList := by
  unfold buildStep vertexOf
  cases outcomeOf srt inp s tl ev <;> simp

theorem buildLoop_vertices (srt : Go.SliceSort) (inp : BuildInput) (s : Snapshots) (tl : Timelines)
    (events : List HmdfsTraceEvent) (st : BuildState) :
    (events.foldl (buildStep srt inp s tl) st).vertices = st.vertices ++ events.filterMap (vertexOf srt inp s tl) := by
  induction events generalizing st with
  | nil => simp
  | cons ev events ih =>
    rw [List.foldl_cons, ih, buildStep_vertices]
    cases found : vertexOf srt inp s tl ev <;> simp [found]

def rawVertices (srt : Go.SliceSort) (inp : BuildInput) (events : List HmdfsTraceEvent) : List DAGVertex :=
  events.filterMap (vertexOf srt inp (snapshotsOf inp.fsMds) (timelinesOf srt inp events))

theorem buildVertices_fst (srt : Go.SliceSort) (inp : BuildInput) (events : List HmdfsTraceEvent) :
    (buildVertices srt inp events).1 = srt.sort vertexLess (rawVertices srt inp events) := by
  simp [buildVertices, rawVertices, buildLoop_vertices]

/-! ### Timelines -/

def DistinctTimes (events : List HmdfsTraceEvent) : Prop := (events.map HmdfsTraceEvent.timestamp).Nodup

variable {events : List HmdfsTraceEvent}

theorem DistinctTimes.inj (distinct : DistinctTimes events) {a b : HmdfsTraceEvent} (ina : a ∈ events)
    (inb : b ∈ events) (same : a.timestamp = b.timestamp) : a = b :=
  List.inj_on_of_nodup_map distinct ina inb same

theorem timelineLoop (inp : BuildInput) (events : List HmdfsTraceEvent) (tl : Timelines) :
    events.foldl (timelineStep inp) tl =
      { renameTLByPath := tl.renameTLByPath.pushAll (events.filterMap (renameOf inp))
        deleteTLByNode := tl.deleteTLByNode.pushAll (events.filterMap (deleteOf inp)) } := by
  induction events generalizing tl with
  | nil => rfl
  | cons ev events ih =>
    rw [List.foldl_cons, ih, timelineStep]
    cases rename : renameOf inp ev <;> cases delete : deleteOf inp ev <;>
      simp [rename, delete, Go.Map.pushAll]

variable {inp : BuildInput}

theorem renameOf_ts {ev : HmdfsTraceEvent} {k : String} {r : RenameEvent} (found : renameOf inp ev = some (k, r)) :
    r.ts = ev.timestamp := by
  obtain ⟨pc, _, found⟩ := Option.bind_eq_some_iff.mp found
  obtain ⟨_, same⟩ := Option.ite_none_right_eq_some.mp found
  exact (congrArg (fun x => x.2.ts) (Option.some.inj same)).symm

theorem renamesUpTo_flat (ts : UInt64) (tl : Go.Map String (List RenameEvent)) :
    renamesUpTo ts tl = tl.flat.filter fun r => r.ret = 0 && r.ts ≤ ts := by
  rw [renamesUpTo, Go.Map.flat, List.filter_flatMap]

def tracedRenames (inp : BuildInput) (events : List HmdfsTraceEvent) (ts : UInt64) : List RenameEvent :=
  ((events.filterMap (renameOf inp)).map Prod.snd).filter fun r => r.ret = 0 && r.ts ≤ ts

theorem renamesUpTo_perm (srt : Go.SliceSort) (inp : BuildInput) (events : List HmdfsTraceEvent) (ts : UInt64) :
    (renamesUpTo ts (timelinesOf srt inp events).renameTLByPath).Perm (tracedRenames inp events ts) := by
  rw [renamesUpTo_flat, tracedRenames, timelinesOf, timelineLoop]
  refine List.Perm.filter _ ?_
  refine (Go.Map.flat_mapValues_perm (fun l => srt.perm _ l) _).trans ?_
  simpa [Go.Map.flat, Go.Map.items] using
    Go.Map.flat_pushAll_perm (∅ : Go.Map String (List RenameEvent)) (events.filterMap (renameOf inp))

theorem tracedRenames_inj (distinct : DistinctTimes events) (ts : UInt64) {a b : RenameEvent}
    (ina : a ∈ tracedRenames inp events ts) (inb : b ∈ tracedRenames inp events ts) (same : a.ts.toNat = b.ts.toNat) :
    a = b := by
  have origin : ∀ r ∈ tracedRenames inp events ts, ∃ ev ∈ events, ∃ k, renameOf inp ev = some (k, r) := by
    intro r member
    obtain ⟨⟨k, r'⟩, inner, rfl⟩ := List.mem_map.mp (List.mem_of_mem_filter member)
    obtain ⟨ev, present, found⟩ := List.mem_filterMap.mp inner
    exact ⟨ev, present, k, found⟩
  obtain ⟨ev, present, k, found⟩ := origin a ina
  obtain ⟨ev', present', k', found'⟩ := origin b inb
  have times : ev.timestamp = ev'.timestamp := by
    rw [← renameOf_ts found, ← renameOf_ts found']
    exact UInt64.toNat_inj.mp same
  obtain rfl := distinct.inj present present' times
  rw [found] at found'
  exact (Prod.mk.inj (Option.some.inj found')).2

theorem deletePathAt_eq (node : Int) (ino ts : UInt64) (tl : Go.Map (Int × UInt64) (List DeleteEvent)) :
    deletePathAt node ino ts tl = lastDelete ts (tl.getD (node, ino) []) "" := by
  unfold deletePathAt Go.Map.getD
  cases tl.lookup (node, ino) <;> rfl

def tracedDeletes (inp : BuildInput) (events : List HmdfsTraceEvent) (key : Int × UInt64) : List DeleteEvent :=
  ((events.filterMap (deleteOf inp)).filter fun x => x.1 = key).map Prod.snd

theorem deletes_eq (srt : Go.SliceSort) (inp : BuildInput) (events : List HmdfsTraceEvent) (key : Int × UInt64) :
    (timelinesOf srt inp events).deleteTLByNode.getD key [] =
      srt.sort (Go.lessBy fun d => d.ts.toNat) (tracedDeletes inp events key) := by
  have grouped := Go.Map.getD_pushAll (∅ : Go.Map (Int × UInt64) (List DeleteEvent))
    (events.filterMap (deleteOf inp)) key
  have none_sorted : srt.sort (Go.lessBy fun d : DeleteEvent => d.ts.toNat) [] = [] :=
    List.perm_nil.mp (srt.perm _ [])
  rw [timelinesOf, timelineLoop]
  simp only [Go.Map.getD_empty, List.nil_append] at grouped
  show Go.Map.getD (Go.Map.mapValues _ _) key [] = _
  rw [tracedDeletes, ← grouped, Go.Map.getD, Go.Map.lookup_mapValues, Go.Map.getD]
  cases Go.Map.pushAll (∅ : Go.Map (Int × UInt64) (List DeleteEvent)) _ |>.lookup key <;> simp [none_sorted]

/-- Two runs' timelines answer every question of the vertex pass alike. -/
structure Timelines.Agree (srt srt' : Go.SliceSort) (tl tl' : Timelines) : Prop where
  rename : ∀ path ts, renamePathAt srt path ts tl.renameTLByPath = renamePathAt srt' path ts tl'.renameTLByPath
  delete : ∀ node ino ts, deletePathAt node ino ts tl.deleteTLByNode = deletePathAt node ino ts tl'.deleteTLByNode

structure Snapshots.Agree (s s' : Snapshots) : Prop where
  own : ∀ node ino, ownPath s node ino = ownPath s' node ino
  merged : ∀ ino, s.inoToPath.lookup ino = s'.inoToPath.lookup ino
  type : ∀ path, s.nodeType.lookup path = s'.nodeType.lookup path
  size : ∀ path, s.pathSize.lookup path = s'.pathSize.lookup path

variable {fsMds' : List (Option FsMd)}

theorem recordEntries_eq (items : List (String × FileMetadata)) (m : Go.Map UInt64 String) (s : Snapshots) :
    items.foldl recordEntry (m, s) =
      (items.foldl (fun m e => m.putNew (inoMask e.2.statMd.ino) (normalizeMergeViewPath e.1)) m,
        { s with
          inoToPath := items.foldl
            (fun m e => m.putNew (inoMask e.2.statMd.ino) (normalizeMergeViewPath e.1)) s.inoToPath
          nodeType := items.foldl
            (fun m e => m.insert (normalizeMergeViewPath e.1) (e.2.statMd.mode &&& 0xF000 = 0x4000)) s.nodeType
          pathSize := (items.filter fun e => e.2.statMd.size ≥ 0).foldl
            (fun m e => m.insert (normalizeMergeViewPath e.1) e.2.statMd.size.toUInt64) s.pathSize }) := by
  induction items generalizing m s with
  | nil => rfl
  | cons e items ih =>
    rw [List.foldl_cons, recordEntry, ih]
    by_cases sized : e.2.statMd.size ≥ 0 <;> simp [sized]

end DfsFuzz.Dag
