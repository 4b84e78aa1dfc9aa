import DfsFuzz.Dag.Inodes

/-! When an asynchronous `writepage` event of a known inode gets its vertex, and with which path. -/

namespace DfsFuzz.Dag

/-- The vertices that one event of the trace yields. -/
def eventVertices (srt : Go.SliceSort) (inp : BuildInput) (events : List HmdfsTraceEvent) (ev : HmdfsTraceEvent) :
    List DAGVertex :=
  (vertexOf srt inp (snapshotsOf inp.fsMds) (timelinesOf srt inp events) ev).toList

/-- The rename moves the path or an ancestor of it. -/
def RenameEvent.Touches (r : RenameEvent) (path : String) : Prop :=
  path = r.oldPath ∨ Go.hasPrefix path (r.oldPath ++ "/") = true

theorem applyRename_untouched {r : RenameEvent} {path : String} (untouched : ¬ r.Touches path) :
    applyRename path r = path := by
  rw [applyRename, if_neg]
  simpa [RenameEvent.Touches] using untouched

theorem foldl_applyRename_untouched {rs : List RenameEvent} {path : String} (untouched : ∀ r ∈ rs, ¬ r.Touches path) :
    rs.foldl applyRename path = path := by
  induction rs with
  | nil => rfl
  | cons r rs ih =>
    rw [List.foldl_cons, applyRename_untouched (untouched r List.mem_cons_self)]
    exact ih fun r' member => untouched r' (List.mem_cons_of_mem _ member)

theorem foldl_applyRename_ne_empty {rs : List RenameEvent} (named : ∀ r ∈ rs, r.newPath ≠ "") {path : String}
    (nonempty : path ≠ "") : rs.foldl applyRename path ≠ "" := by
  induction rs generalizing path with
  | nil => exact nonempty
  | cons r rs ih =>
    refine ih (fun r' member => named r' (List.mem_cons_of_mem _ member)) ?_
    unfold applyRename
    split
    · intro empty
      have chars := congrArg String.toList empty
      rw [String.toList_append] at chars
      exact named r List.mem_cons_self (String.toList_inj.mp (List.append_eq_nil_iff.mp chars).1)
    · exact nonempty

theorem renameOf_paths {inp : BuildInput} {ev : HmdfsTraceEvent} {k : String} {r : RenameEvent}
    (found : renameOf inp ev = some (k, r)) : r.newPath ≠ "" := by
  obtain ⟨pc, _, found⟩ := Option.bind_eq_some_iff.mp found
  obtain ⟨given, same⟩ := Option.ite_none_right_eq_some.mp found
  simp only [Bool.and_eq_true, decide_eq_true_eq] at given
  have new : (extractRenamePaths pc.2).2 = r.newPath := congrArg (fun x => x.2.newPath) (Option.some.inj same)
  rw [← new]
  simpa using given.2

theorem tracedRenames_named {inp : BuildInput} {events : List HmdfsTraceEvent} {ts : UInt64} {r : RenameEvent}
    (member : r ∈ tracedRenames inp events ts) : r.newPath ≠ "" := by
  obtain ⟨⟨k, r'⟩, inner, rfl⟩ := List.mem_map.mp (List.mem_of_mem_filter member)
  obtain ⟨ev, _, found⟩ := List.mem_filterMap.mp inner
  exact renameOf_paths found

section Renamed
variable (srt : Go.SliceSort) (inp : BuildInput) (events : List HmdfsTraceEvent)

theorem renamePathAt_none {ts : UInt64} (path : String) (none : tracedRenames inp events ts = []) :
    renamePathAt srt path ts (timelinesOf srt inp events).renameTLByPath = "" := by
  have empty : renamesUpTo ts (timelinesOf srt inp events).renameTLByPath = [] :=
    List.perm_nil.mp (none ▸ renamesUpTo_perm srt inp events ts)
  rw [renamePathAt, if_pos empty]

/-- With some rename before it, a path is the old one or one that the renames gave it. -/
theorem renamePathAt_some {ts : UInt64} {path : String} (some_ : tracedRenames inp events ts ≠ []) (nonempty : path ≠ "") :
    renamePathAt srt path ts (timelinesOf srt inp events).renameTLByPath ≠ "" ∧
      ((∀ r ∈ tracedRenames inp events ts, ¬ r.Touches path) →
        renamePathAt srt path ts (timelinesOf srt inp events).renameTLByPath = path) := by
  have perm := renamesUpTo_perm srt inp events ts
  have applied : renamesUpTo ts (timelinesOf srt inp events).renameTLByPath ≠ [] := by
    intro empty
    rw [empty] at perm
    exact some_ (List.nil_perm.mp perm)
  have sorted : ∀ r, r ∈ srt.sort (Go.lessBy fun r => r.ts.toNat) (renamesUpTo ts (timelinesOf srt inp events).renameTLByPath) →
      r ∈ tracedRenames inp events ts := fun r member => perm.mem_iff.mp ((srt.perm _ _).mem_iff.mp member)
  rw [renamePathAt, if_neg applied]
  refine ⟨foldl_applyRename_ne_empty (fun r member => tracedRenames_named (sorted r member)) nonempty, fun untouched => ?_⟩
  exact foldl_applyRename_untouched fun r member => untouched r (sorted r member)

end Renamed

/-- The successful deletes up to a time, in a timeline that is sorted by time. -/
def deletesUpTo (ts : UInt64) (dels : List DeleteEvent) : List DeleteEvent := dels.filter fun d => d.ret = 0 && d.ts ≤ ts

theorem lastDelete_eq {ts : UInt64} {dels : List DeleteEvent} (sorted : dels.Pairwise fun a b => a.ts ≤ b.ts) (last : String) :
    lastDelete ts dels last = (((deletesUpTo ts dels).getLast?).map DeleteEvent.path).getD last := by
  induction dels generalizing last with
  | nil => rfl
  | cons d dels ih =>
    obtain ⟨later, sorted⟩ := List.pairwise_cons.mp sorted
    rw [lastDelete, deletesUpTo, List.filter_cons]
    by_cases failed : d.ret ≠ 0
    · rw [if_pos failed, ih sorted, if_neg (by simp [failed])]
      rfl
    · rw [if_neg failed]
      by_cases early : d.ts ≤ ts
      · have kept : (decide (d.ret = 0) && decide (d.ts ≤ ts)) = true := by simp [not_not.mp failed, early]
        rw [if_pos early, ih sorted, if_pos kept, List.getLast?_cons]
        unfold deletesUpTo
        cases (dels.filter fun d => d.ret = 0 && d.ts ≤ ts).getLast? <;> rfl
      · -- what follows is later still
        have rest : (dels.filter fun d => d.ret = 0 && d.ts ≤ ts) = [] := by
          refine List.filter_eq_nil_iff.mpr fun d' member => ?_
          have after : ¬ d'.ts ≤ ts := fun before => early (UInt64.le_trans (later d' member) before)
          simp [after]
        rw [if_neg early, if_neg (by simp [early]), rest]
        rfl

/-- The last successful delete of the event's inode on its node, up to the event. -/
def lastDeleted (srt : Go.SliceSort) (inp : BuildInput) (events : List HmdfsTraceEvent) (ev : HmdfsTraceEvent) :
    Option DeleteEvent :=
  (deletesUpTo ev.timestamp
    (srt.sort (Go.lessBy fun d => d.ts.toNat) (tracedDeletes inp events (ev.progIdx, ev.ino)))).getLast?

theorem deletePathAt_lastDeleted (srt : Go.SliceSort) (inp : BuildInput) (events : List HmdfsTraceEvent) (ev : HmdfsTraceEvent) :
    deletePathAt ev.progIdx ev.ino ev.timestamp (timelinesOf srt inp events).deleteTLByNode =
      ((lastDeleted srt inp events ev).map DeleteEvent.path).getD "" := by
  rw [deletePathAt_eq, deletes_eq, lastDelete_eq]
  · rfl
  · refine (srt.sorted (Go.lessBy_strictWeak fun d : DeleteEvent => d.ts.toNat) _).imp fun ordered => ?_
    simpa [Go.lessBy, UInt64.le_iff_toNat_le] using ordered

/-! ### The vertex -/

/-- The event has one vertex, whose path is `path` unless a successful rename before it moved that. -/
def PageKept (srt : Go.SliceSort) (inp : BuildInput) (events : List HmdfsTraceEvent) (ev : HmdfsTraceEvent) (path : String) :
    Prop :=
  ∃ v, eventVertices srt inp events ev = [v] ∧
    ((∀ r ∈ tracedRenames inp events ev.timestamp, ¬ r.Touches path) → v.path = path)

/-- A `writepage` event of a node whose snapshot has `e` under its inode. -/
structure PageOf (inp : BuildInput) (ev : HmdfsTraceEvent) (fsMd : FsMd) (e : String × FileMetadata) : Prop where
  page : ev.funcID = funcWritepage
  valid : (inp.progOf ev).isSome = true
  snapshot : inp.fsMds[ev.progIdx.toNat]? = some (some fsMd)
  stored : e ∈ fsMd.items
  ino : inoMask e.2.statMd.ino = inoMask ev.ino

/-- Without any successful rename before the event only a delete can name the path. With one, it is the path that the
snapshot lists first for the inode, after the renames. -/
def PageFits (srt : Go.SliceSort) (inp : BuildInput) (events : List HmdfsTraceEvent) (ev : HmdfsTraceEvent) (fsMd : FsMd)
    (path : String) : Prop :=
  if tracedRenames inp events ev.timestamp = [] then (lastDeleted srt inp events ev).map DeleteEvent.path = some path
  else
    (∃ r ∈ tracedRenames inp events ev.timestamp, r.Touches path) ∨
      ∃ first, firstPath fsMd (inoMask ev.ino) = some first ∧
        renamePathAt srt first ev.timestamp (timelinesOf srt inp events).renameTLByPath = path

section Page
variable {inp : BuildInput} {ev : HmdfsTraceEvent} {fsMd : FsMd} {e : String × FileMetadata}

theorem PageOf.first (pageOf : PageOf inp ev fsMd e) :
    ∃ first, firstPath fsMd (inoMask ev.ino) = some first ∧ first ≠ "" ∧
      ownPath (snapshotsOf inp.fsMds) ev.progIdx (inoMask ev.ino) = some first := by
  have hit : (fsMd.items.find? fun e => inoMask e.2.statMd.ino = inoMask ev.ino).isSome :=
    List.find?_isSome.mpr ⟨e, pageOf.stored, decide_eq_true pageOf.ino⟩
  obtain ⟨e', found⟩ := Option.isSome_iff_exists.mp hit
  have path : firstPath fsMd (inoMask ev.ino) = some (normalizeMergeViewPath e'.1) := by rw [firstPath, found]; rfl
  have own := ownPath_snapshotsOf inp.fsMds ev.progIdx.toNat (inoMask ev.ino)
  rw [progIdx_toNat pageOf.valid, pageOf.snapshot] at own
  exact ⟨_, path, firstPath_ne_empty path, own.trans path⟩

theorem PageOf.eventVertices (pageOf : PageOf inp ev fsMd e) (srt : Go.SliceSort) (events : List HmdfsTraceEvent) :
    let path := writepagePath srt (snapshotsOf inp.fsMds) (timelinesOf srt inp events) ev
    (path = "" ∧ eventVertices srt inp events ev = []) ∨
      path ≠ "" ∧ ∃ v, eventVertices srt inp events ev = [v] ∧ v.path = path := by
  intro path
  obtain ⟨p, valid⟩ := Option.isSome_iff_exists.mp pageOf.valid
  unfold DfsFuzz.Dag.eventVertices vertexOf outcomeOf
  simp only [valid, pageOf.page, if_true, finishVertex]
  by_cases empty : path = ""
  · refine Or.inl ⟨empty, ?_⟩
    rw [if_pos empty]
    rfl
  · refine Or.inr ⟨empty, ?_⟩
    rw [if_neg empty]
    exact ⟨_, rfl, rfl⟩

theorem PageOf.writepagePath (pageOf : PageOf inp ev fsMd e) (srt : Go.SliceSort) (events : List HmdfsTraceEvent)
    {first : String} (found : firstPath fsMd (inoMask ev.ino) = some first) :
    writepagePath srt (snapshotsOf inp.fsMds) (timelinesOf srt inp events) ev =
      if tracedRenames inp events ev.timestamp = [] then ((lastDeleted srt inp events ev).map DeleteEvent.path).getD ""
      else renamePathAt srt first ev.timestamp (timelinesOf srt inp events).renameTLByPath := by
  obtain ⟨first', found', nonempty, own⟩ := pageOf.first
  obtain rfl := Option.some.inj (found.symm.trans found')
  unfold DfsFuzz.Dag.writepagePath
  simp only [own, Option.getD_some, nonempty, if_false, ne_eq, not_false_eq_true, if_true, deletePathAt_lastDeleted]
  by_cases none : tracedRenames inp events ev.timestamp = []
  · rw [renamePathAt_none srt inp events first none, if_pos rfl, if_pos none]
  · rw [if_neg none, if_neg (renamePathAt_some srt inp events none nonempty).1]

/-- A `writepage` event of a known inode is kept, with the path of its snapshot, exactly in these cases. -/
theorem pageKept_iff (srt : Go.SliceSort) (events : List HmdfsTraceEvent) (pageOf : PageOf inp ev fsMd e) :
    PageKept srt inp events ev (normalizeMergeViewPath e.1) ↔
      PageFits srt inp events ev fsMd (normalizeMergeViewPath e.1) := by
  obtain ⟨first, found, nonempty, -⟩ := pageOf.first
  have vertices := pageOf.eventVertices srt events
  rw [pageOf.writepagePath srt events found] at vertices
  unfold PageKept PageFits
  by_cases none : tracedRenames inp events ev.timestamp = []
  · rw [if_pos none] at vertices ⊢
    rw [none]
    constructor
    · rintro ⟨v, only, kept⟩
      rcases vertices with ⟨-, dropped⟩ | ⟨-, v', only', path⟩
      · rw [dropped] at only
        cases only
      · obtain rfl : v = v' := List.singleton_inj.mp (only.symm.trans only')
        rw [kept fun r member => nomatch member] at path
        cases deleted : (lastDeleted srt inp events ev).map DeleteEvent.path with
        | none =>
          rw [deleted] at path
          exact absurd path (normalizeMergeViewPath_ne_empty e.1)
        | some last =>
          rw [deleted] at path
          exact congrArg some path.symm
    · intro deleted
      rw [deleted] at vertices
      rcases vertices with ⟨empty, -⟩ | ⟨-, v, only, path⟩
      · exact absurd empty (normalizeMergeViewPath_ne_empty e.1)
      · exact ⟨v, only, fun _ => path⟩
  · rw [if_neg none] at vertices ⊢
    obtain ⟨v, only, path⟩ := (vertices.resolve_left fun lost => (renamePathAt_some srt inp events none nonempty).1 lost.1).2
    constructor
    · rintro ⟨v', only', kept⟩
      obtain rfl : v = v' := List.singleton_inj.mp (only.symm.trans only')
      by_cases touched : ∃ r ∈ tracedRenames inp events ev.timestamp, r.Touches (normalizeMergeViewPath e.1)
      · exact Or.inl touched
      · refine Or.inr ⟨first, found, path.symm.trans (kept fun r member touches => touched ⟨r, member, touches⟩)⟩
    · rintro (⟨r, member, touches⟩ | ⟨first', found', same⟩)
      · exact ⟨v, only, fun untouched => absurd touches (untouched r member)⟩
      · obtain rfl := Option.some.inj (found.symm.trans found')
        exact ⟨v, only, fun _ => path.trans same⟩

end Page

def pageSnapshot : FsMd := (∅ : FsMd).insert "./f" { statMd := { ino := 7 } }

def pathArg (path : String) : Arg := .pointer 0 (some (.data (path.toList.map fun c => UInt8.ofNat c.toNat)))

/-- A file of the node, and a call that renames another one. -/
def pageInput : BuildInput where
  ps := [{ calls := [{
    name := "rename"
    args := [pathArg "merge_view/a", pathArg "merge_view/b"]
    checkInfo := some { stime := 100, etime := 200 } }] }]
  fsMds := [some pageSnapshot]
  hmcfg := {}
  tscoffs := [0]
  tol := 0

def pageEvent : HmdfsTraceEvent := { timestamp := 300, funcID := funcWritepage, ret := 0, ino := 7, progIdx := 0 }

def pageRename : HmdfsTraceEvent := { timestamp := 150, funcID := funcRename, ret := 0, ino := 0, progIdx := 0 }

theorem pageOf_pageEvent : PageOf pageInput pageEvent pageSnapshot ("./f", { statMd := { ino := 7 } }) := by
  exact ⟨rfl, by decide, rfl, List.mem_singleton.mpr rfl, by decide⟩

theorem pageKept_iff_afterRename :
    PageKept Go.insertionSort pageInput [pageRename, pageEvent] pageEvent (normalizeMergeViewPath "./f") := by
  refine (pageKept_iff Go.insertionSort [pageRename, pageEvent] pageOf_pageEvent).mpr ?_
  have renamed : ¬ tracedRenames pageInput [pageRename, pageEvent] pageEvent.timestamp = [] := by decide
  unfold PageFits
  rw [if_neg renamed]
  exact Or.inr ⟨"merge_view/f", by decide, by decide⟩

/-- The event alone is dropped. -/
theorem writepage_dropped : ¬ ∀ srt inp events ev fsMd e, ev ∈ events → PageOf inp ev fsMd e →
    PageKept srt inp events ev (normalizeMergeViewPath e.1) := by
  intro claim
  obtain ⟨v, only, -⟩ := claim Go.insertionSort pageInput [pageEvent] pageEvent pageSnapshot _ (by simp) pageOf_pageEvent
  have lost : eventVertices Go.insertionSort pageInput [pageEvent] pageEvent = [] := by decide
  rw [lost] at only
  cases only

end DfsFuzz.Dag
