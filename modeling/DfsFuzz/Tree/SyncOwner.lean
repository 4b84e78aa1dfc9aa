import DfsFuzz.Tree.SyncExact

/-! When the sync leaves the lists of the cids exact. -/

namespace DfsFuzz.Tree

open FileTree

namespace Row

structure ListedOnce (row : Row) (type : FileNodeType) (cid : String) : Prop where
  nodes : row.nodes cid = 1
  byType : row.byType type cid = 1
  elsewhere : ∀ c, c ≠ cid → row.nodes c = 0 ∧ row.files c = 0 ∧ row.dirs c = 0

/-- How a node of type `old` and owner `c₀` has to be listed for the sync to list it once as a node
of type `new` and owner `c`. A new owner takes one place from every list of nodes and of the old
kind, and only a new type puts the node back into a list of its kind. -/
@[mk_iff] structure Relisted (row : Row) (old new : FileNodeType) (c₀ c : String) : Prop where
  nodes : if c₀ = c then row.nodes c = 1 else row.nodes c ≤ 1
  byType : if old = new then row.byType old c = if c₀ = c then 1 else 2
    else if old = .file ↔ new = .file then row.byType old c ≤ if c₀ = c then 1 else 2
    else row.otherType old c = 0
  elsewhere : ∀ c', c' ≠ c → row.nodes c' ≤ (if c₀ = c then 0 else 1) ∧ row.byType old c' ≤ (if c₀ = c then 0 else 1) ∧
    row.otherType old c' = 0

theorem listedOnce_iff {row : Row} {type : FileNodeType} {cid : String} :
    row.ListedOnce type cid ↔ row.nodes cid = 1 ∧ row.byType type cid = 1 ∧
      ∀ c, c ≠ cid → row.nodes c = 0 ∧ row.byType type c = 0 ∧ row.otherType type c = 0 := by
  constructor
  · rintro ⟨nodes, byType, elsewhere⟩
    exact ⟨nodes, byType, fun c other => ⟨(elsewhere c other).1, (row.kinds_zero_iff type c).mp (elsewhere c other).2⟩⟩
  · rintro ⟨nodes, byType, elsewhere⟩
    exact ⟨nodes, byType, fun c other => ⟨(elsewhere c other).1, (row.kinds_zero_iff type c).mpr (elsewhere c other).2⟩⟩

theorem synced_listedOnce_iff (row : Row) (old new : FileNodeType) (c₀ c : String) :
    (row.synced old new c₀ c).ListedOnce new c ↔ row.Relisted old new c₀ c := by
  rw [listedOnce_iff, relisted_iff]
  unfold synced moved retyped mapType byType otherType lessAll lessAt moreAt
  refine and_congr ?_ (and_congr ?_ (forall₂_congr fun c' other => ?_))
  · by_cases owner : c₀ = c <;> cases old <;> cases new <;> simp [owner, Nat.sub_eq_zero_iff_le]
  · by_cases owner : c₀ = c <;> cases old <;> cases new <;> simp [owner] <;> omega
  · by_cases owner : c₀ = c <;> cases old <;> cases new <;> simp [owner, other] <;> omega

theorem unit_listedOnce (type : FileNodeType) (cid : String) : (unit type cid).ListedOnce type cid := by
  rw [listedOnce_iff]
  unfold unit mapType byType otherType moreAt zero
  cases type <;> simp +contextual

end Row

/-! ### The lists -/

structure OwnedOnce (ft : FileTree) (n : NodeRef) : Prop where
  nodes : (ft.nodesByCid (ft.node n).ownerCid).count n = 1
  byType : ((if (ft.node n).type = .file then ft.filesByCid else ft.dirsByCid) (ft.node n).ownerCid).count n = 1
  elsewhere : ∀ c, c ≠ (ft.node n).ownerCid → n ∉ ft.nodesByCid c ∧ n ∉ ft.filesByCid c ∧ n ∉ ft.dirsByCid c

theorem ownedOnce_iff (ft : FileTree) (n : NodeRef) :
    OwnedOnce ft n ↔ (ft.row n).ListedOnce (ft.node n).type (ft.node n).ownerCid := by
  have byType : (ft.row n).byType (ft.node n).type (ft.node n).ownerCid =
      ((if (ft.node n).type = .file then ft.filesByCid else ft.dirsByCid) (ft.node n).ownerCid).count n := by
    unfold Row.byType
    split <;> rfl
  constructor
  · rintro ⟨nodes, kind, elsewhere⟩
    refine ⟨nodes, byType.trans kind, fun c other => ?_⟩
    obtain ⟨left, files, dirs⟩ := elsewhere c other
    exact ⟨List.count_eq_zero.mpr left, List.count_eq_zero.mpr files, List.count_eq_zero.mpr dirs⟩
  · rintro ⟨nodes, kind, elsewhere⟩
    refine ⟨nodes, byType.symm.trans kind, fun c other => ?_⟩
    obtain ⟨left, files, dirs⟩ := elsewhere c other
    exact ⟨List.count_eq_zero.mp left, List.count_eq_zero.mp files, List.count_eq_zero.mp dirs⟩

structure OwnershipExact (inp : SyncInput) (old new : FileTree) : Prop where
  present : ∀ e ∈ inp.fsMd.items, ∃ n, new.findNode (keyPath e) = some n
  owner : ∀ e ∈ inp.fsMd.items, ∀ n, new.findNode (keyPath e) = some n →
    (∀ c, inp.ownerMap.lookup (keyPath e) = some c → (new.node n).ownerCid = c) ∧
      (inp.ownerMap.lookup (keyPath e) = none → ∀ m, old.findNode (keyPath e) = some m →
        (new.node n).ownerCid = (old.node m).ownerCid)
  once : ∀ e ∈ inp.fsMd.items, ∀ n, new.findNode (keyPath e) = some n → OwnedOnce new n
  listed : ∀ n, Listed new n → (new.node n).fullPath ∈ inp.paths

/-- What the lists have to be before the sync for the index to be exact after it. -/
structure OwnershipKept (inp : SyncInput) (ft : FileTree) : Prop where
  seen : ∀ e ∈ inp.fsMd.items, ∀ n, ft.findNode (keyPath e) = some n →
    (ft.row n).Relisted (ft.node n).type (resolveNodeType inp.paths (ft.node n).type e.2.statMd (keyPath e))
      (ft.node n).ownerCid ((inp.ownerMap.lookup (keyPath e)).getD (ft.node n).ownerCid)
  /-- a removed node whose directory stays -/
  gone : ∀ a, AbsentPath inp ft a → ¬ AbsentPath inp ft a.dropLast → ∀ n, ft.nodeAt a = some n →
    (ft.row n).Removable (ft.node n).type
  /-- a removed node whose directory is removed too, maybe before it -/
  orphan : ∀ a, AbsentPath inp ft a → AbsentPath inp ft a.dropLast → ∀ n, ft.nodeAt a = some n → ¬ Listed ft n
  outside : ∀ n, (∀ q, q ≠ [] → ft.nodeAt q ≠ some n) → Listed ft n → (ft.node n).fullPath ∈ inp.paths

section Ownership
variable {inp : SyncInput} {ft : FileTree}

theorem AbsentPath.dropLast (keys : SnapshotKeys inp) {a b : List String} (absent : AbsentPath inp ft a)
    (above : AbsentPath inp ft b) (inside : b <+: a) (strict : b ≠ a) : AbsentPath inp ft a.dropLast := by
  obtain ⟨q, x, rfl⟩ := (List.eq_nil_or_concat' a).resolve_left absent.1
  obtain ⟨s, path⟩ := inside
  rcases List.eq_nil_or_concat' s with rfl | ⟨t, y, rfl⟩
  · exact absurd (by simpa using path) strict
  · rw [← List.append_assoc] at path
    obtain ⟨rfl, -⟩ := List.append_inj' path rfl
    rw [List.dropLast_concat]
    obtain ⟨n, found⟩ := absent.2.1
    refine ⟨fun empty => above.1 (List.append_eq_nil_iff.mp empty).1, nodeAt_of_prefix found, fun e member same => ?_⟩
    obtain ⟨e', member', path'⟩ := keys.closed_prefix member above.1 ⟨t, same.symm⟩
    exact above.2.2 e' member' path'

theorem AbsentPath.not_mem_paths (linked : Linked ft) {a : List String} (absent : AbsentPath inp ft a) :
    render a ∉ inp.paths := by
  intro member
  obtain ⟨e, inside, path⟩ := List.mem_map.mp member
  obtain ⟨n, found⟩ := absent.2.1
  refine absent.2.2 e inside ?_
  rw [keyParts, path, pathParts_render absent.1 (linked.components found)]

theorem SyncResult.ownershipExact (keys : SnapshotKeys inp) (linked : Linked ft) {gone : List (List String)}
    (nodup : gone.Nodup) (absent : ∀ a, a ∈ gone ↔ AbsentPath inp ft a) {ft' : FileTree}
    (result : SyncResult inp ft gone ft') (kept : OwnershipKept inp ft) : OwnershipExact inp ft ft' := by
  have find : ∀ (ft : FileTree), ∀ e ∈ inp.fsMd.items, ft.findNode (keyPath e) = ft.nodeAt (keyParts e) :=
    fun ft e member => findNode_eq ft (keys.clean e member)
  refine ⟨fun e member => ?_, fun e member n here => ?_, fun e member n here => ?_, fun n listed => ?_⟩
  · rw [find _ e member]
    exact (result.paths _ (pathParts_ne_nil _)).mpr ⟨e, member, rfl⟩
  · rw [find _ e member] at here
    rw [find _ e member]
    cases before : ft.nodeAt (keyParts e) with
    | none =>
      have owner := (result.created e member before n here).owner
      rw [resolveCidForPath] at owner
      refine ⟨fun c mapped => by rw [owner, mapped]; rfl, fun _ m found => by cases found⟩
    | some k =>
      obtain ⟨here', data, _⟩ := result.updated e member k before
      obtain rfl := Option.some.inj (here'.symm.trans here)
      have owner : (ft'.node k).ownerCid = (inp.ownerMap.lookup (keyPath e)).getD (ft.node k).ownerCid :=
        congrArg (fun d => d.2.1) data
      refine ⟨fun c mapped => by rw [owner, mapped]; rfl, fun unmapped m found => ?_⟩
      obtain rfl := Option.some.inj found
      rw [owner, unmapped]
      rfl
  · rw [find _ e member] at here
    rw [ownedOnce_iff]
    cases before : ft.nodeAt (keyParts e) with
    | none =>
      rw [(result.created e member before n here).row]
      exact Row.unit_listedOnce _ _
    | some k =>
      obtain ⟨here', data, row⟩ := result.updated e member k before
      obtain rfl := Option.some.inj (here'.symm.trans here)
      simp only [FileNode.data, syncedNode, Prod.mk.injEq] at data
      rw [row, data.1, data.2.1]
      exact (Row.synced_listedOnce_iff _ _ _ _ _).mpr (kept.seen e member k (by rw [find _ e member, before]))
  · by_contra outside
    have unlisted : ∀ row, row = Row.zero → ft'.row n ≠ row := by
      rintro row zero same
      exact (row_eq_zero_iff ft' n).mp (same.trans zero) listed
    by_cases low : n < ft.next
    · rw [result.fullPath n low] at outside
      by_cases below : ∃ q, q ≠ [] ∧ ft.nodeAt q = some n
      · obtain ⟨q, nonempty, found⟩ := below
        have missing : AbsentPath inp ft q := by
          refine ⟨nonempty, ⟨n, found⟩, fun e member same => outside ?_⟩
          rw [linked.fullPath found, ← same, keyParts, render_keyPath]
          exact List.mem_map.mpr ⟨e, member, rfl⟩
        obtain ⟨later, earlier, split⟩ := List.append_of_mem ((absent q).mpr missing)
        have ancestor : ∀ b ∈ earlier, b <+: q → AbsentPath inp ft q.dropLast := by
          intro b member inside
          refine missing.dropLast keys ((absent b).mp (by simp [split, member])) inside ?_
          rintro rfl
          rw [split] at nodup
          exact (List.nodup_cons.mp (List.nodup_append.mp nodup).2.1).1 member
        by_cases blocked : ∃ b ∈ earlier, b <+: q
        · obtain ⟨b, member, inside⟩ := blocked
          have none := kept.orphan q missing (ancestor b member inside) n found
          exact unlisted _ ((row_eq_zero_iff ft n).mpr none) (result.missed later q earlier split ⟨b, member, inside⟩ n found)
        · push Not at blocked
          refine unlisted _ ?_ (result.removed later q earlier split blocked n found)
          by_cases parent : AbsentPath inp ft q.dropLast
          · rw [(row_eq_zero_iff ft n).mpr (kept.orphan q missing parent n found), Row.removed_zero]
          · exact (Row.removed_eq_zero_iff _ _).mpr (kept.gone q missing parent n found)
      · push Not at below
        have row := result.outside n low below
        have none : ¬ Listed ft n := fun here => outside (kept.outside n below here)
        exact unlisted _ ((row_eq_zero_iff ft n).mpr none) row
    · refine unlisted _ rfl (result.fresh n (Nat.not_lt.mp low) fun e member here => outside ?_)
      rw [result.linked.fullPath here, keyParts, render_keyPath]
      exact List.mem_map.mpr ⟨e, member, rfl⟩

theorem OwnershipExact.row_zero (linked : Linked ft) {gone : List (List String)} {ft' : FileTree}
    (result : SyncResult inp ft gone ft') (exact : OwnershipExact inp ft ft') {a : List String}
    (absent : AbsentPath inp ft a) {n : NodeRef} (found : ft.nodeAt a = some n) : ft'.row n = Row.zero := by
  rw [row_eq_zero_iff]
  intro listed
  have path := exact.listed n listed
  rw [result.fullPath n (linked.allocated found), linked.fullPath found] at path
  exact absent.not_mem_paths linked path

/-- Removing the paths of `gone` in one order and in the other tells what the lists were. -/
theorem OwnershipKept.of_exact (keys : SnapshotKeys inp) (linked : Linked ft) (listed : ListedAllocated ft)
    {gone : List (List String)} (nodup : gone.Nodup) (absent : ∀ a, a ∈ gone ↔ AbsentPath inp ft a) {ft₁ ft₂ : FileTree}
    (result₁ : SyncResult inp ft gone ft₁) (result₂ : SyncResult inp ft gone.reverse ft₂)
    (exact₁ : OwnershipExact inp ft ft₁) (exact₂ : OwnershipExact inp ft ft₂) : OwnershipKept inp ft := by
  have find : ∀ (ft : FileTree), ∀ e ∈ inp.fsMd.items, ft.findNode (keyPath e) = ft.nodeAt (keyParts e) :=
    fun ft e member => findNode_eq ft (keys.clean e member)
  refine ⟨fun e member n found => ?_, fun a missing parent n found => ?_, fun a missing parent n found => ?_,
    fun n below here => ?_⟩
  · rw [find _ e member] at found
    obtain ⟨here, data, row⟩ := result₁.updated e member n found
    have once := (ownedOnce_iff _ n).mp (exact₁.once e member n (by rw [find _ e member, here]))
    simp only [FileNode.data, syncedNode, Prod.mk.injEq] at data
    rw [row, data.1, data.2.1] at once
    exact (Row.synced_listedOnce_iff _ _ _ _ _).mp once
  · -- nothing above the path is removed, so the node is found whatever the order
    obtain ⟨later, earlier, split⟩ := List.append_of_mem ((absent a).mpr missing)
    rw [← Row.removed_eq_zero_iff, ← result₁.removed later a earlier split ?_ n found]
    · exact exact₁.row_zero linked result₁ missing found
    · intro b inside above
      refine parent (missing.dropLast keys ((absent b).mp (by simp [split, inside])) above ?_)
      rintro rfl
      rw [split] at nodup
      exact (List.nodup_cons.mp (List.nodup_append.mp nodup).2.1).1 inside
  · -- one of the two orders removes the directory first
    rw [← row_eq_zero_iff]
    obtain ⟨later, earlier, split⟩ := List.append_of_mem ((absent a).mpr missing)
    have above : a.dropLast <+: a := List.dropLast_prefix a
    have other : a.dropLast ≠ a := by
      intro same
      have lengths := congrArg List.length same
      rw [List.length_dropLast] at lengths
      have positive := List.length_pos_iff.mpr missing.1
      omega
    have member := (absent _).mpr parent
    rw [split, List.mem_append, List.mem_cons] at member
    rcases member with after | here | before
    · have split' : gone.reverse = earlier.reverse ++ a :: later.reverse := by simp [split]
      rw [← result₂.missed _ a _ split' ⟨_, List.mem_reverse.mpr after, above⟩ n found]
      exact exact₂.row_zero linked result₂ missing found
    · exact absurd here other
    · rw [← result₁.missed later a earlier split ⟨_, before, above⟩ n found]
      exact exact₁.row_zero linked result₁ missing found
  · have low : n < ft.next := by
      by_contra high
      exact (row_eq_zero_iff ft n).mp (listed n (Nat.not_lt.mp high)) here
    have row := result₁.outside n low below
    have still : Listed ft₁ n := by
      by_contra none
      exact (row_eq_zero_iff ft n).mp (row.symm.trans ((row_eq_zero_iff _ n).mpr none)) here
    rw [← result₁.fullPath n low]
    exact exact₁.listed n still

end Ownership

/-- The index is exact after the sync, in whatever order the maps are iterated, exactly when the
lists before it were as `OwnershipKept` says. -/
theorem syncTree_ownershipExact_iff {inp : SyncInput} (keys : SnapshotKeys inp) {ft : FileTree} (built : Reachable ft) :
    (∀ visit sweep, OwnershipExact inp ft (syncTree visit sweep inp ft).1) ↔ OwnershipKept inp ft := by
  constructor
  · intro exact
    obtain ⟨es, distinct, absent, results⟩ := syncTree_result keys built.linked built.listed .stored
    have exact₁ := exact .stored .reversed
    have exact₂ := exact .stored .stored
    have result₁ := results .reversed
    have result₂ := results .stored
    simp only [Go.RangeOrder.reversed, Go.RangeOrder.stored, List.map_reverse, List.reverse_reverse, id_eq] at result₁ result₂
    exact .of_exact keys built.linked built.listed distinct absent result₁ result₂ exact₁ exact₂
  · intro kept visit sweep
    obtain ⟨es, distinct, absent, results⟩ := syncTree_result keys built.linked built.listed visit
    have order := sweep.perm es
    refine (results sweep).ownershipExact keys built.linked ?_ (fun a => ?_) kept
    · rw [List.nodup_reverse]
      exact (order.map _).nodup_iff.mpr distinct
    · rw [List.mem_reverse, (order.map _).mem_iff, absent]

theorem syncTree_ownershipExact_newTree :
    let fsMd : FsMd := ((∅ : FsMd).insert "./d" { statMd := { mode := 0x4000 } }).insert "./d/f" {}
    let ownerMap := (∅ : Go.Map String String).insert "merge_view/d/f" "c1"
    let inp : SyncInput := { fsMd, ownerMap, hmcfg := {} }
    ∀ visit sweep, OwnershipExact inp newFileTree (syncTree visit sweep inp newFileTree).1 := by
  have only : ∀ {q n}, newFileTree.nodeAt q = some n → q = [] := fun found => ((Walk.walk_leaf (by intro x; rfl)).mp found).1
  refine (syncTree_ownershipExact_iff ⟨?_, ?_, ?_⟩ .new).mpr ⟨?_, ?_, ?_, ?_⟩
  · decide +kernel
  · decide +kernel
  · decide +kernel
  · intro e member n found
    have missing : ∀ e ∈ Go.Map.items (((∅ : FsMd).insert "./d" { statMd := { mode := 0x4000 } }).insert "./d/f" {}),
        newFileTree.findNode (keyPath e) = none := by decide +kernel
    rw [missing e member] at found
    cases found
  · exact fun a absent _ n found => absurd (only found) absent.1
  · exact fun a absent _ n found => absurd (only found) absent.1
  · rintro n _ ⟨c, listed⟩
    rcases listed with inside | inside | inside <;> exact absurd inside List.not_mem_nil

/-- A path that only changes its owner leaves the lists of files. -/
theorem syncTree_ownerChange :
    let inp : SyncInput :=
      { fsMd := (∅ : FsMd).insert "./f" {}, ownerMap := (∅ : Go.Map String String).insert "merge_view/f" "c2", hmcfg := {} }
    let ft := newFileTree.addNode "merge_view/f" .file "c1"
    let synced := (syncTree .stored .stored inp ft).1
    Reachable ft ∧ SnapshotKeys inp ∧ synced.nodesByCid "c2" = [1] ∧ synced.filesByCid "c1" = [] ∧
      synced.filesByCid "c2" = [] ∧ ¬ OwnershipExact inp ft synced := by
  refine ⟨.addNode .new (by decide) _ _, ⟨by decide, by decide, by decide⟩, by decide +kernel, by decide +kernel,
    by decide +kernel, fun exact => ?_⟩
  have once := exact.once ("./f", {}) (Go.Map.mem_items.mpr (AList.lookup_insert _)) 1 (by decide +kernel)
  exact absurd once.byType (by decide +kernel)

end DfsFuzz.Tree
