import DfsFuzz.Tree.Reach

/-!
The two loops of the sync on a snapshot with clean, distinct keys that are closed under parent
directories: what the tree and the index are after them, whatever the iteration orders.
-/

namespace DfsFuzz.Tree

open FileTree

def keyParts (e : String × FileMetadata) : List String := pathParts (keyPath e)

/-- The keys of a snapshot after `NormalizeMergeViewPath`: clean, distinct and closed under parent
directories. -/
structure SnapshotKeys (inp : SyncInput) : Prop where
  clean : ∀ e ∈ inp.fsMd.items, CleanPath (keyPath e)
  distinct : inp.paths.Nodup
  closed : ∀ e ∈ inp.fsMd.items, (keyParts e).dropLast = [] ∨ ∃ e' ∈ inp.fsMd.items, keyParts e' = (keyParts e).dropLast

theorem keyPath_eq_of_keyParts {e e' : String × FileMetadata} (same : keyParts e = keyParts e') : keyPath e = keyPath e' := by
  rw [← render_keyPath e, ← render_keyPath e']
  exact congrArg render same

theorem SnapshotKeys.inj {inp : SyncInput} (keys : SnapshotKeys inp) {e e' : String × FileMetadata}
    (member : e ∈ inp.fsMd.items) (member' : e' ∈ inp.fsMd.items) (same : keyParts e = keyParts e') : e = e' :=
  List.inj_on_of_nodup_map keys.distinct member member' (keyPath_eq_of_keyParts same)

def FileNode.data (nd : FileNode) : FileNodeType × String × UInt64 := (nd.type, nd.ownerCid, nd.size)

theorem syncedNode_data {inp : SyncInput} {path : String} {stat : Stat} {nd nd' : FileNode} (same : nd.data = nd'.data) :
    (syncedNode inp path stat nd).data = (syncedNode inp path stat nd').data := by
  simp only [FileNode.data, Prod.mk.injEq] at same
  obtain ⟨type, owner, size⟩ := same
  simp only [syncedNode, FileNode.data, type, owner, size]

def syncedRow (inp : SyncInput) (e : String × FileMetadata) (nd : FileNode) (row : Row) : Row :=
  row.synced nd.type (syncedNode inp (keyPath e) e.2.statMd nd).type nd.ownerCid
    (syncedNode inp (keyPath e) e.2.statMd nd).ownerCid

structure Created (inp : SyncInput) (e : String × FileMetadata) (nd : FileNode) (row : Row) : Prop where
  type : nd.type = snapshotType inp.paths e.2.statMd (keyPath e)
  owner : nd.ownerCid = resolveCidForPath (keyPath e) inp.ownerMap inp.hmcfg
  size : nd.size = if nd.type = .file ∧ e.2.statMd.size > 0 then e.2.statMd.size.toUInt64 else 0
  row : row = Row.unit nd.type nd.ownerCid

/-- The state of the first loop after the entries of `done`, from the tree `ft₀`. -/
structure SyncInv (inp : SyncInput) (ft₀ : FileTree) (done : List (String × FileMetadata)) (st : SyncState) : Prop
    extends SyncLinked ft₀ st where
  kept : ∀ q m, ft₀.nodeAt q = some m → st.ft.nodeAt q = some m
  added : ∀ q m, st.ft.nodeAt q = some m →
    ft₀.nodeAt q = some m ∨ (ft₀.nodeAt q = none ∧ ft₀.next ≤ m ∧ ∃ e ∈ done, q <+: keyParts e)
  present : ∀ e ∈ done, ∃ m, st.ft.nodeAt (keyParts e) = some m
  untouched : ∀ m, m < ft₀.next → (∀ e ∈ done, ft₀.nodeAt (keyParts e) ≠ some m) →
    (st.ft.node m).data = (ft₀.node m).data ∧ st.ft.row m = ft₀.row m
  updated : ∀ e ∈ done, ∀ m, ft₀.nodeAt (keyParts e) = some m →
    (st.ft.node m).data = (syncedNode inp (keyPath e) e.2.statMd (ft₀.node m)).data ∧
      st.ft.row m = syncedRow inp e (ft₀.node m) (ft₀.row m)
  created : ∀ e ∈ done, ft₀.nodeAt (keyParts e) = none → ∀ m, st.ft.nodeAt (keyParts e) = some m →
    Created inp e (st.ft.node m) (st.ft.row m)
  between : ∀ m, ft₀.next ≤ m → (∀ e ∈ done, st.ft.nodeAt (keyParts e) ≠ some m) →
    (m < st.ft.next → (st.ft.node m).size = 0) ∧ st.ft.row m = Row.zero
  recorded : ∀ q n, q ≠ [] → ft₀.nodeAt q = some n → (∀ e ∈ done, keyParts e ≠ q) →
    st.oldNodes.lookup (render q) = some n
  erased : ∀ e ∈ done, st.oldNodes.lookup (keyPath e) = none

def ListedAllocated (ft : FileTree) : Prop := ∀ m, ft.next ≤ m → ft.row m = Row.zero

theorem syncStart_inv (inp : SyncInput) {ft : FileTree} (linked : Linked ft) (listed : ListedAllocated ft) (sizes : FileSizes) :
    SyncInv inp ft [] { ft, fileSize := sizes, oldNodes := collectOld ft.next ft root ∅ } where
  toSyncLinked := syncStart_linked linked sizes
  kept _ _ found := found
  added _ _ found := Or.inl found
  present _ member := absurd member List.not_mem_nil
  untouched _ _ _ := ⟨rfl, rfl⟩
  updated _ member := absurd member List.not_mem_nil
  created _ member := absurd member List.not_mem_nil
  between m high _ := ⟨fun low => absurd (Nat.lt_of_lt_of_le low high) (Nat.lt_irrefl _), listed m high⟩
  recorded q _ nonempty found _ := (lookup_collectOld linked).mpr ⟨q, nonempty, found, rfl⟩
  erased _ member := absurd member List.not_mem_nil

section Step
variable {inp : SyncInput} {ft₀ : FileTree} {done : List (String × FileMetadata)} {st : SyncState}
  {e : String × FileMetadata}

theorem syncEntry_recorded (inv : SyncInv inp ft₀ done st) (linked₀ : Linked ft₀) :
    (∀ q n, q ≠ [] → ft₀.nodeAt q = some n → (∀ e' ∈ e :: done, keyParts e' ≠ q) →
        (syncEntry inp st e).oldNodes.lookup (render q) = some n) ∧
      ∀ e' ∈ e :: done, (syncEntry inp st e).oldNodes.lookup (keyPath e') = none := by
  constructor
  · intro q n nonempty found unseen
    refine lookup_erase_some.mpr ⟨inv.recorded q n nonempty found fun e' member => unseen e' (List.mem_cons_of_mem _ member), ?_⟩
    intro same
    refine unseen e List.mem_cons_self ?_
    rw [keyParts, ← same, pathParts_render nonempty (linked₀.components found)]
  · intro e' member
    by_cases same : keyPath e' = keyPath e
    · rw [same]
      exact AList.lookup_erase _ _
    · have old : e' ∈ done := (List.mem_cons.mp member).resolve_left fun here => same (by rw [here])
      have erased := inv.erased e' old
      show AList.lookup (keyPath e') (st.oldNodes.erase (keyPath e)) = none
      rw [AList.lookup_erase_ne same]
      exact erased

theorem syncEntry_known_inv (inv : SyncInv inp ft₀ done st) (linked₀ : Linked ft₀)
    (new : ∀ e' ∈ done, keyParts e' ≠ keyParts e) (clean : CleanPath (keyPath e)) {n : NodeRef}
    (known : st.oldNodes.lookup (keyPath e) = some n) : SyncInv inp ft₀ (e :: done) (syncEntry inp st e) := by
  have next := @syncEntry_linked inp ft₀ st inv.toSyncLinked e clean
  obtain ⟨recorded, erased⟩ := @syncEntry_recorded inp ft₀ done st e inv linked₀
  have here : ft₀.nodeAt (keyParts e) = some n := by
    obtain ⟨q, nonempty, found, path⟩ := inv.old _ _ known
    rw [keyParts, ← path, pathParts_render nonempty (linked₀.components found), found]
  have update := syncOld_update inp (keyPath e) e.2.statMd n st.ft st.fileSize
  rw [syncEntry_old known] at next recorded erased ⊢
  generalize syncOld inp (keyPath e) e.2.statMd n st.ft st.fileSize = r at *
  have edges : r.1.edge = st.ft.edge := (update.linked inv.linked rfl rfl rfl rfl).2
  have at_ : ∀ q, r.1.nodeAt q = st.ft.nodeAt q := fun q => by rw [nodeAt, nodeAt, edges]
  -- no earlier entry had this node
  have unseen : ∀ e' ∈ done, ft₀.nodeAt (keyParts e') ≠ some n :=
    fun e' member found => new e' member (linked₀.unique found here)
  have before := inv.untouched n (linked₀.allocated here) unseen
  refine ⟨next, ?_, ?_, ?_, ?_, ?_, ?_, ?_, recorded, erased⟩
  · exact fun q m found => (at_ q).trans (inv.kept q m found)
  · intro q m found
    rcases inv.added q m ((at_ q).symm.trans found) with old | ⟨absent, high, e', member, inside⟩
    · exact Or.inl old
    · exact Or.inr ⟨absent, high, e', List.mem_cons_of_mem _ member, inside⟩
  · intro e' member
    rcases List.mem_cons.mp member with rfl | old
    · exact ⟨n, (at_ _).trans (inv.kept _ _ here)⟩
    · obtain ⟨m, found⟩ := inv.present e' old
      exact ⟨m, (at_ _).trans found⟩
  · intro m low away
    have other : m ≠ n := fun same => away e List.mem_cons_self (same ▸ here)
    rw [update.others m other, update.row_others m other]
    exact inv.untouched m low fun e' member => away e' (List.mem_cons_of_mem _ member)
  · intro e' member m found
    rcases List.mem_cons.mp member with rfl | old
    · obtain rfl := Option.some.inj (found.symm.trans here)
      rw [update.self, update.row_self]
      have data := before.1
      simp only [FileNode.data, Prod.mk.injEq] at data
      refine ⟨syncedNode_data before.1, ?_⟩
      rw [syncedRow, before.2, data.1, data.2.1]
      rfl
    · have other : m ≠ n := fun same => unseen e' old (same ▸ found)
      rw [update.others m other, update.row_others m other]
      exact inv.updated e' old m found
  · intro e' member absent m found
    rcases List.mem_cons.mp member with rfl | old
    · rw [here] at absent
      cases absent
    · rw [at_] at found
      have other : m ≠ n := by
        rintro rfl
        exact new e' old (inv.linked.unique found (inv.kept _ _ here))
      rw [update.others m other, update.row_others m other]
      exact inv.created e' old absent m found
  · intro m high away
    have other : m ≠ n := Nat.ne_of_gt (Nat.lt_of_lt_of_le (linked₀.allocated here) high)
    rw [update.others m other, update.row_others m other, update.next]
    refine inv.between m high fun e' member found => ?_
    exact away e' (List.mem_cons_of_mem _ member) ((at_ _).trans found)

theorem syncEntry_unknown_inv (inv : SyncInv inp ft₀ done st) (linked₀ : Linked ft₀)
    (new : ∀ e' ∈ done, keyParts e' ≠ keyParts e) (clean : CleanPath (keyPath e))
    (unknown : st.oldNodes.lookup (keyPath e) = none) : SyncInv inp ft₀ (e :: done) (syncEntry inp st e) := by
  have next := @syncEntry_linked inp ft₀ st inv.toSyncLinked e clean
  obtain ⟨recorded, erased⟩ := @syncEntry_recorded inp ft₀ done st e inv linked₀
  have absent : ft₀.nodeAt (keyParts e) = none := by
    cases found : ft₀.nodeAt (keyParts e) with
    | none => rfl
    | some m =>
      have known := inv.recorded _ m (pathParts_ne_nil _) found new
      rw [render_keyPath, unknown] at known
      cases known
  obtain ⟨n, spec⟩ := @syncNew_spec inp (keyPath e) clean e.2.statMd st.ft inv.linked st.fileSize
  rw [syncEntry_new unknown] at next recorded erased ⊢
  generalize syncNew inp (keyPath e) e.2.statMd st.ft st.fileSize = r at *
  have found : r.1.nodeAt (keyParts e) = some n := spec.found
  have added : ∀ q m, r.1.nodeAt q = some m →
      ft₀.nodeAt q = some m ∨ (ft₀.nodeAt q = none ∧ ft₀.next ≤ m ∧ ∃ e' ∈ e :: done, q <+: keyParts e') := by
    intro q m here
    rcases spec.added q m here with before | ⟨missing, inside, high⟩
    · rcases inv.added q m before with old | ⟨missing, high, e', member, inside⟩
      · exact Or.inl old
      · exact Or.inr ⟨missing, high, e', List.mem_cons_of_mem _ member, inside⟩
    · refine Or.inr ⟨?_, Nat.le_trans inv.next high, e, List.mem_cons_self, inside⟩
      cases old : ft₀.nodeAt q with
      | none => rfl
      | some k =>
        rw [inv.kept q k old] at missing
        cases missing
  have high : ft₀.next ≤ n := by
    rcases added _ n found with old | ⟨_, high, _⟩
    · rw [absent] at old
      cases old
    · exact high
  -- no earlier entry had this node
  have unseen : ∀ e' ∈ done, st.ft.nodeAt (keyParts e') ≠ some n := by
    intro e' member here
    exact new e' member (spec.linked.unique (spec.kept _ _ here) found)
  have before := inv.between n high unseen
  have frame : ∀ m, m < st.ft.next → m ≠ n → (r.1.node m).data = (st.ft.node m).data ∧ r.1.row m = st.ft.row m := by
    intro m low other
    have same := congrArg FileNode.data (spec.old m low other)
    exact ⟨same, spec.rows m other⟩
  refine ⟨next, ?_, added, ?_, ?_, ?_, ?_, ?_, recorded, erased⟩
  · exact fun q m here => spec.kept q m (inv.kept q m here)
  · intro e' member
    rcases List.mem_cons.mp member with rfl | old
    · exact ⟨n, found⟩
    · obtain ⟨m, here⟩ := inv.present e' old
      exact ⟨m, spec.kept _ _ here⟩
  · intro m low away
    obtain ⟨data, row⟩ := frame m (Nat.lt_of_lt_of_le low inv.next) (Nat.ne_of_lt (Nat.lt_of_lt_of_le low high))
    obtain ⟨data', row'⟩ := inv.untouched m low fun e' member => away e' (List.mem_cons_of_mem _ member)
    exact ⟨data.trans data', row.trans row'⟩
  · intro e' member m here
    rcases List.mem_cons.mp member with rfl | old
    · rw [absent] at here
      cases here
    · have low := linked₀.allocated here
      obtain ⟨data, row⟩ := frame m (Nat.lt_of_lt_of_le low inv.next) (Nat.ne_of_lt (Nat.lt_of_lt_of_le low high))
      obtain ⟨data', row'⟩ := inv.updated e' old m here
      exact ⟨data.trans data', row.trans row'⟩
  · intro e' member missing m here
    rcases List.mem_cons.mp member with rfl | old
    · obtain rfl := Option.some.inj (found.symm.trans here)
      refine ⟨spec.type, spec.owner, ?_, ?_⟩
      · have size := spec.size
        rw [← spec.type] at size
        refine size.trans ?_
        split
        · rfl
        · split
          · rename_i low
            exact before.1 low
          · rfl
      · rw [spec.row, before.2, Row.zero_added, spec.type, spec.owner]
    · obtain ⟨k, there⟩ := inv.present e' old
      obtain rfl := Option.some.inj ((spec.kept _ _ there).symm.trans here)
      have other : k ≠ n := fun same => unseen e' old (same ▸ there)
      obtain ⟨data, row⟩ := frame k (inv.linked.allocated there) other
      have made := inv.created e' old missing k there
      simp only [FileNode.data, Prod.mk.injEq] at data
      obtain ⟨type, owner, size⟩ := data
      refine ⟨type.trans made.type, owner.trans made.owner, ?_, ?_⟩
      · exact (size.trans made.size).trans (by rw [type])
      · exact (row.trans made.row).trans (by rw [type, owner])
  · intro m high' away
    have other : m ≠ n := fun same => away e List.mem_cons_self (same ▸ found)
    have earlier := inv.between m high' fun e' member here => away e' (List.mem_cons_of_mem _ member) (spec.kept _ _ here)
    refine ⟨fun low => ?_, (spec.rows m other).trans earlier.2⟩
    by_cases old : m < st.ft.next
    · have same := congrArg FileNode.size (spec.old m old other)
      exact same.trans (earlier.1 old)
    · exact spec.between m (Nat.not_lt.mp old) low other

theorem syncEntry_inv (inv : SyncInv inp ft₀ done st) (linked₀ : Linked ft₀)
    (new : ∀ e' ∈ done, keyParts e' ≠ keyParts e) (clean : CleanPath (keyPath e)) :
    SyncInv inp ft₀ (e :: done) (syncEntry inp st e) := by
  cases known : st.oldNodes.lookup (keyPath e) with
  | none => exact syncEntry_unknown_inv inv linked₀ new clean known
  | some n => exact syncEntry_known_inv inv linked₀ new clean known

end Step

theorem syncEntries_inv {inp : SyncInput} (keys : SnapshotKeys inp) {ft₀ : FileTree} (linked₀ : Linked ft₀)
    (es : List (String × FileMetadata)) {done : List (String × FileMetadata)} {st : SyncState}
    (inv : SyncInv inp ft₀ done st) (members : ∀ e ∈ es, e ∈ inp.fsMd.items) (members' : ∀ e ∈ done, e ∈ inp.fsMd.items)
    (nodup : (es ++ done).Nodup) : SyncInv inp ft₀ (es.reverse ++ done) (es.foldl (syncEntry inp) st) := by
  induction es generalizing done st with
  | nil => exact inv
  | cons e es ih =>
    have member := members e List.mem_cons_self
    have new : ∀ e' ∈ done, keyParts e' ≠ keyParts e := by
      intro e' inside same
      obtain rfl := keys.inj (members' e' inside) member same
      exact (List.nodup_cons.mp nodup).1 (List.mem_append_right _ inside)
    have step := syncEntry_inv inv linked₀ new (keys.clean e member)
    rw [List.foldl_cons, List.reverse_cons, List.append_assoc]
    refine ih step (fun e' inside => members e' (List.mem_cons_of_mem _ inside)) ?_ ?_
    · intro e' inside
      rcases List.mem_cons.mp inside with rfl | old
      · exact member
      · exact members' e' old
    · exact (List.perm_middle.nodup_iff).mpr nodup

end DfsFuzz.Tree
