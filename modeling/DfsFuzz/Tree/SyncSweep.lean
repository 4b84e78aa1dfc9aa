import DfsFuzz.Tree.SyncLoop

/-!
The loop of the sync that removes the nodes the snapshot does not have. A node whose ancestor was
removed before it is no longer found, so it leaves the tree but keeps its places in the lists.
-/

namespace DfsFuzz.Tree

open FileTree

/-- The tree after the paths of `gone` were removed from `ft₁`, the last of them first. -/
structure SweepInv (ft₁ : FileTree) (gone : List (List String)) (ft : FileTree) : Prop where
  linked : Linked ft
  node : ∀ m, ft.node m = { ft₁.node m with children := (ft.node m).children }
  next : ft.next = ft₁.next
  reached : ∀ q m, ft.nodeAt q = some m ↔ ft₁.nodeAt q = some m ∧ ∀ a ∈ gone, ¬ a <+: q
  kept : ∀ m, (∀ a ∈ gone, ft₁.nodeAt a ≠ some m) → ft.row m = ft₁.row m
  removed : ∀ later a earlier, gone = later ++ a :: earlier → (∀ b ∈ earlier, ¬ b <+: a) →
    ∀ m, ft₁.nodeAt a = some m → ft.row m = (ft₁.row m).removed (ft₁.node m).type
  missed : ∀ later a earlier, gone = later ++ a :: earlier → (∃ b ∈ earlier, b <+: a) →
    ∀ m, ft₁.nodeAt a = some m → ft.row m = ft₁.row m

theorem sweepStart_inv {ft : FileTree} (linked : Linked ft) : SweepInv ft [] ft where
  linked := linked
  node _ := rfl
  next := rfl
  reached _ _ := by simp
  kept _ _ := rfl
  removed later a earlier split := by simp at split
  missed later a earlier split := by simp at split

section Step
variable {ft₁ ft : FileTree} {gone : List (List String)} {a : List String} {n : NodeRef}

theorem cons_split {α : Type} {a b : α} {gone later earlier : List α} (split : a :: gone = later ++ b :: earlier) :
    (later = [] ∧ b = a ∧ earlier = gone) ∨ ∃ later', later = a :: later' ∧ gone = later' ++ b :: earlier := by
  cases later with
  | nil =>
    obtain ⟨rfl, rfl⟩ := List.cons.inj split
    exact Or.inl ⟨rfl, rfl, rfl⟩
  | cons c later' =>
    obtain ⟨rfl, rest⟩ := List.cons.inj split
    exact Or.inr ⟨later', rfl, rest⟩

theorem SweepInv.step (inv : SweepInv ft₁ gone ft) (linked₁ : Linked ft₁) (nonempty : a ≠ [])
    (found : ft₁.nodeAt a = some n) (new : a ∉ gone) {e : String × NodeRef} (entry : e.2 = n) :
    SweepInv ft₁ (a :: gone) (syncSweep ft e) := by
  have good := linked₁.components found
  have path : (ft.node e.2).fullPath = render a := by
    rw [entry, inv.node n]
    exact linked₁.fullPath found
  -- no other path has this node
  have away : ∀ b ∈ gone, ∀ m, ft₁.nodeAt b = some m → m ≠ n := by
    rintro b member m here rfl
    exact new (linked₁.unique found here ▸ member)
  rw [syncSweep, path, removeNodeLocked_eq ft (cleanPath_render' nonempty good), pathParts_render nonempty good]
  by_cases before : ∀ b ∈ gone, ¬ b <+: a
  · -- the node is still in the tree
    have here : ft.nodeAt a = some n := (inv.reached a n).mpr ⟨found, before⟩
    obtain ⟨linked, node, next, reached, row, rows⟩ := remove_spec inv.linked nonempty here
    rw [here]
    dsimp only
    generalize (ft.detach n).removeNodeFromCidLists n = ft' at linked node next reached row rows
    refine ⟨linked, fun m => ?_, next.trans inv.next, fun q m => ?_, fun m outside => ?_, ?_, ?_⟩
    · rw [node m, inv.node m]
    · rw [reached, inv.reached, List.forall_mem_cons]
      tauto
    · have different : m ≠ n := fun same => outside a List.mem_cons_self (same ▸ found)
      rw [rows m different]
      exact inv.kept m fun b member => outside b (List.mem_cons_of_mem _ member)
    · intro later b earlier split clear m there
      rcases cons_split split with ⟨_, rfl, _⟩ | ⟨later', _, rest⟩
      · obtain rfl := Option.some.inj (there.symm.trans found)
        rw [row, inv.kept m fun c member here => away c member m here rfl, inv.node m]
      · have member : b ∈ gone := by simp [rest]
        rw [rows m (away b member m there)]
        exact inv.removed later' b earlier rest clear m there
    · intro later b earlier split blocked m there
      rcases cons_split split with ⟨_, rfl, rfl⟩ | ⟨later', _, rest⟩
      · obtain ⟨c, member, inside⟩ := blocked
        exact absurd inside (before c member)
      · have member : b ∈ gone := by simp [rest]
        rw [rows m (away b member m there)]
        exact inv.missed later' b earlier rest blocked m there
  · -- an ancestor was removed before
    push Not at before
    obtain ⟨c, member, inside⟩ := before
    have absent : ft.nodeAt a = none := by
      cases here : ft.nodeAt a with
      | none => rfl
      | some m => exact absurd inside (((inv.reached a m).mp here).2 c member)
    rw [absent]
    refine ⟨inv.linked, inv.node, inv.next, fun q m => ?_, fun m outside => ?_, ?_, ?_⟩
    · rw [inv.reached, List.forall_mem_cons]
      refine and_congr_right fun _ => ⟨fun clear => ⟨fun here => ?_, clear⟩, And.right⟩
      exact clear c member (inside.trans here)
    · exact inv.kept m fun b inside => outside b (List.mem_cons_of_mem _ inside)
    · intro later b earlier split clear m there
      rcases cons_split split with ⟨_, rfl, rfl⟩ | ⟨later', _, rest⟩
      · exact absurd inside (clear c member)
      · exact inv.removed later' b earlier rest clear m there
    · intro later b earlier split blocked m there
      rcases cons_split split with ⟨_, rfl, _⟩ | ⟨later', _, rest⟩
      · obtain rfl := Option.some.inj (there.symm.trans found)
        exact inv.kept m fun d inside here => away d inside m here rfl
      · exact inv.missed later' b earlier rest blocked m there

end Step

theorem syncSweeps_inv {ft₁ : FileTree} (linked₁ : Linked ft₁) (es : List (String × NodeRef)) (parts : String × NodeRef → List String)
    (found : ∀ e ∈ es, parts e ≠ [] ∧ ft₁.nodeAt (parts e) = some e.2) {gone : List (List String)} {ft : FileTree}
    (distinct : (es.map parts).Nodup) (fresh : ∀ e ∈ es, parts e ∉ gone) (inv : SweepInv ft₁ gone ft) :
    SweepInv ft₁ ((es.map parts).reverse ++ gone) (es.foldl syncSweep ft) := by
  induction es generalizing gone ft with
  | nil => exact inv
  | cons e es ih =>
    obtain ⟨nonempty, here⟩ := found e List.mem_cons_self
    rw [List.map_cons, List.nodup_cons] at distinct
    have step := inv.step linked₁ nonempty here (fresh e List.mem_cons_self) (Eq.refl e.2)
    rw [List.foldl_cons, List.map_cons, List.reverse_cons, List.append_assoc]
    refine ih (fun e' member => found e' (List.mem_cons_of_mem _ member)) distinct.2 (fun e' member inside => ?_) step
    rcases List.mem_cons.mp inside with same | old
    · exact distinct.1 (List.mem_map.mpr ⟨e', member, same⟩)
    · exact fresh e' (List.mem_cons_of_mem _ member) old

/-! ### Both loops -/

theorem SnapshotKeys.closed_prefix {inp : SyncInput} (keys : SnapshotKeys inp) {e : String × FileMetadata}
    (member : e ∈ inp.fsMd.items) {q : List String} (nonempty : q ≠ []) (inside : q <+: keyParts e) :
    ∃ e' ∈ inp.fsMd.items, keyParts e' = q := by
  obtain ⟨s, path⟩ := inside
  induction s using List.reverseRecOn generalizing e with
  | nil => exact ⟨e, member, by simpa using path.symm⟩
  | append_singleton s x ih =>
    rw [← List.append_assoc] at path
    have parent : (keyParts e).dropLast = q ++ s := by rw [← path, List.dropLast_concat]
    have closed := keys.closed e member
    rw [parent] at closed
    rcases closed with empty | ⟨e', member', path'⟩
    · exact absurd (List.append_eq_nil_iff.mp empty).1 nonempty
    · exact ih member' path'.symm

/-- What a sync makes of the tree `ft`, with the paths of `gone` removed, the last of them first. -/
structure SyncResult (inp : SyncInput) (ft : FileTree) (gone : List (List String)) (ft' : FileTree) : Prop where
  linked : Linked ft'
  paths : ∀ q, q ≠ [] → ((∃ m, ft'.nodeAt q = some m) ↔ ∃ e ∈ inp.fsMd.items, keyParts e = q)
  updated : ∀ e ∈ inp.fsMd.items, ∀ m, ft.nodeAt (keyParts e) = some m → ft'.nodeAt (keyParts e) = some m ∧
    (ft'.node m).data = (syncedNode inp (keyPath e) e.2.statMd (ft.node m)).data ∧
      ft'.row m = syncedRow inp e (ft.node m) (ft.row m)
  created : ∀ e ∈ inp.fsMd.items, ft.nodeAt (keyParts e) = none → ∀ m, ft'.nodeAt (keyParts e) = some m →
    Created inp e (ft'.node m) (ft'.row m)
  fullPath : ∀ m, m < ft.next → (ft'.node m).fullPath = (ft.node m).fullPath
  removed : ∀ later a earlier, gone = later ++ a :: earlier → (∀ b ∈ earlier, ¬ b <+: a) →
    ∀ m, ft.nodeAt a = some m → ft'.row m = (ft.row m).removed (ft.node m).type
  missed : ∀ later a earlier, gone = later ++ a :: earlier → (∃ b ∈ earlier, b <+: a) →
    ∀ m, ft.nodeAt a = some m → ft'.row m = ft.row m
  outside : ∀ m, m < ft.next → (∀ q, q ≠ [] → ft.nodeAt q ≠ some m) → ft'.row m = ft.row m
  fresh : ∀ m, ft.next ≤ m → (∀ e ∈ inp.fsMd.items, ft'.nodeAt (keyParts e) ≠ some m) → ft'.row m = Row.zero

def AbsentPath (inp : SyncInput) (ft : FileTree) (a : List String) : Prop :=
  a ≠ [] ∧ (∃ n, ft.nodeAt a = some n) ∧ ∀ e ∈ inp.fsMd.items, keyParts e ≠ a

theorem SweepInv.result {inp : SyncInput} (keys : SnapshotKeys inp) {ft ft' : FileTree} (linked : Linked ft)
    {done : List (String × FileMetadata)} (all : ∀ e, e ∈ done ↔ e ∈ inp.fsMd.items) {st : SyncState}
    (first : SyncInv inp ft done st) {gone : List (List String)} (absent : ∀ a, a ∈ gone ↔ AbsentPath inp ft a)
    (second : SweepInv st.ft gone ft') : SyncResult inp ft gone ft' := by
  -- a node is at a key or at a removed path, and at only one path
  have unseen : ∀ a ∈ gone, ∀ m, ft.nodeAt a = some m → ∀ e ∈ done, ft.nodeAt (keyParts e) ≠ some m := by
    intro a member m here e inside there
    exact ((absent a).mp member).2.2 e ((all e).mp inside) (linked.unique there here)
  have safe : ∀ e ∈ inp.fsMd.items, ∀ a ∈ gone, ¬ a <+: keyParts e := by
    intro e member a inside above
    obtain ⟨nonempty, _, other⟩ := (absent a).mp inside
    obtain ⟨e', member', path⟩ := keys.closed_prefix member nonempty above
    exact other e' member' path
  have apart : ∀ e ∈ inp.fsMd.items, ∀ m, st.ft.nodeAt (keyParts e) = some m → ∀ a ∈ gone, st.ft.nodeAt a ≠ some m := by
    intro e member m here a inside there
    exact ((absent a).mp inside).2.2 e member (first.linked.unique here there)
  have at_ : ∀ e ∈ inp.fsMd.items, ∀ m, ft'.nodeAt (keyParts e) = some m ↔ st.ft.nodeAt (keyParts e) = some m := by
    intro e member m
    rw [second.reached]
    exact and_iff_left (safe e member)
  have data : ∀ m, (ft'.node m).data = (st.ft.node m).data := by
    intro m
    rw [second.node m]
    rfl
  refine ⟨second.linked, ?_, ?_, ?_, ?_, ?_, ?_, ?_, ?_⟩
  · intro q nonempty
    constructor
    · rintro ⟨m, here⟩
      obtain ⟨before, outside⟩ := (second.reached q m).mp here
      rcases first.added q m before with old | ⟨_, _, e, inside, above⟩
      · by_contra other
        push Not at other
        exact outside q ((absent q).mpr ⟨nonempty, ⟨m, old⟩, other⟩) (List.prefix_refl q)
      · exact keys.closed_prefix ((all e).mp inside) nonempty above
    · rintro ⟨e, member, rfl⟩
      obtain ⟨m, here⟩ := first.present e ((all e).mpr member)
      exact ⟨m, (at_ e member m).mpr here⟩
  · intro e member m here
    have here' := first.kept _ _ here
    obtain ⟨same, row⟩ := first.updated e ((all e).mpr member) m here
    exact ⟨(at_ e member m).mpr here', (data m).trans same, (second.kept m (apart e member m here')).trans row⟩
  · intro e member missing m here
    have here' := (at_ e member m).mp here
    have made := first.created e ((all e).mpr member) missing m here'
    have same := data m
    simp only [FileNode.data, Prod.mk.injEq] at same
    obtain ⟨type, owner, size⟩ := same
    refine ⟨type.trans made.type, owner.trans made.owner, ?_, ?_⟩
    · rw [size, made.size, type]
    · rw [second.kept m (apart e member m here'), made.row, type, owner]
  · intro m low
    rw [second.node m]
    exact first.fullPath m low
  · intro later a earlier split clear m here
    have member : a ∈ gone := by simp [split]
    obtain ⟨same, row⟩ := first.untouched m (linked.allocated here) (unseen a member m here)
    rw [second.removed later a earlier split clear m (first.kept a m here), row]
    exact congrArg _ (congrArg Prod.fst same)
  · intro later a earlier split blocked m here
    have member : a ∈ gone := by simp [split]
    obtain ⟨_, row⟩ := first.untouched m (linked.allocated here) (unseen a member m here)
    exact (second.missed later a earlier split blocked m (first.kept a m here)).trans row
  · intro m low nowhere
    have untouched := first.untouched m low fun e _ => nowhere (keyParts e) (pathParts_ne_nil _)
    rw [second.kept m fun a member here => ?_, untouched.2]
    rcases first.added a m here with old | ⟨_, high, _⟩
    · exact nowhere a ((absent a).mp member).1 old
    · exact Nat.lt_irrefl _ (Nat.lt_of_lt_of_le low high)
  · intro m high nowhere
    have between := first.between m high fun e inside here =>
      nowhere e ((all e).mp inside) ((at_ e ((all e).mp inside) m).mpr here)
    rw [second.kept m fun a member here => ?_, between.2]
    obtain ⟨n, old⟩ := ((absent a).mp member).2.1
    obtain rfl := Option.some.inj ((first.kept a n old).symm.trans here)
    exact Nat.lt_irrefl _ (Nat.lt_of_lt_of_le (linked.allocated old) high)

/-- The nodes left over by the first loop, and the result for every order in which they are removed. -/
theorem syncTree_result {inp : SyncInput} (keys : SnapshotKeys inp) {ft : FileTree} (linked : Linked ft)
    (listed : ListedAllocated ft) (visit : Go.RangeOrder) :
    ∃ es : List (String × NodeRef), (es.map fun e => pathParts e.1).Nodup ∧
      (∀ a, a ∈ es.map (fun e => pathParts e.1) ↔ AbsentPath inp ft a) ∧
      ∀ sweep : Go.RangeOrder, SyncResult inp ft ((sweep.arrange es).map fun e => pathParts e.1).reverse
        (syncTree visit sweep inp ft).1 := by
  have perm := visit.perm inp.fsMd.items
  have items : inp.fsMd.items.Nodup := List.Nodup.of_map _ (Go.Map.nodup_items_keys inp.fsMd)
  have first := syncEntries_inv keys linked (visit.arrange inp.fsMd.items) (syncStart_inv inp linked listed inp.hmcfg.fileSize)
    (fun e member => perm.mem_iff.mp member) (by simp) (by simpa using perm.nodup_iff.mpr items)
  have all : ∀ e, e ∈ (visit.arrange inp.fsMd.items).reverse ++ [] ↔ e ∈ inp.fsMd.items := by
    simp [perm.mem_iff]
  unfold syncTree
  dsimp only
  generalize (visit.arrange inp.fsMd.items).foldl (syncEntry inp) _ = st at first
  have left : ∀ p n, (p, n) ∈ st.oldNodes.items ↔
      ∃ q, q ≠ [] ∧ ft.nodeAt q = some n ∧ render q = p ∧ ∀ e ∈ inp.fsMd.items, keyParts e ≠ q := by
    intro p n
    rw [Go.Map.mem_items]
    constructor
    · intro known
      obtain ⟨q, nonempty, here, path⟩ := first.old p n known
      refine ⟨q, nonempty, here, path, fun e member same => ?_⟩
      have erased := first.erased e ((all e).mpr member)
      rw [← render_keyPath e, show pathParts (keyPath e) = q from same, path, known] at erased
      cases erased
    · rintro ⟨q, nonempty, here, rfl, other⟩
      exact first.recorded q n nonempty here fun e inside => other e ((all e).mp inside)
  have parts : ∀ e ∈ st.oldNodes.items, pathParts e.1 ≠ [] ∧ ft.nodeAt (pathParts e.1) = some e.2 ∧
      ∀ e' ∈ inp.fsMd.items, keyParts e' ≠ pathParts e.1 := by
    rintro ⟨p, n⟩ member
    obtain ⟨q, nonempty, here, rfl, other⟩ := (left p n).mp member
    rw [pathParts_render nonempty (linked.components here)]
    exact ⟨nonempty, here, other⟩
  have absent : ∀ a, a ∈ st.oldNodes.items.map (fun e => pathParts e.1) ↔ AbsentPath inp ft a := by
    intro a
    constructor
    · intro member
      obtain ⟨e, inside, rfl⟩ := List.mem_map.mp member
      obtain ⟨nonempty, here, other⟩ := parts e inside
      exact ⟨nonempty, ⟨e.2, here⟩, other⟩
    · rintro ⟨nonempty, ⟨n, here⟩, other⟩
      refine List.mem_map.mpr ⟨(render a, n), (left _ n).mpr ⟨a, nonempty, here, rfl, other⟩, ?_⟩
      exact pathParts_render nonempty (linked.components here)
  have distinct : (st.oldNodes.items.map fun e => pathParts e.1).Nodup := by
    refine List.Nodup.map_on ?_ (List.Nodup.of_map _ (Go.Map.nodup_items_keys st.oldNodes))
    rintro ⟨p, n⟩ member ⟨p', n'⟩ member' same
    obtain ⟨q, nonempty, here, rfl, _⟩ := (left p n).mp member
    obtain ⟨q', nonempty', here', rfl, _⟩ := (left p' n').mp member'
    simp only [pathParts_render nonempty (linked.components here),
      pathParts_render nonempty' (linked.components here')] at same
    subst same
    rw [Option.some.inj (here.symm.trans here')]
  refine ⟨st.oldNodes.items, distinct, absent, fun sweep => ?_⟩
  have order := sweep.perm st.oldNodes.items
  have second := syncSweeps_inv first.linked (sweep.arrange st.oldNodes.items) (fun e => pathParts e.1) ?_ ?_ ?_
    (sweepStart_inv first.linked)
  · rw [List.append_nil] at second
    refine second.result keys linked all first fun a => ?_
    rw [List.mem_reverse, (order.map _).mem_iff, absent]
  · intro e member
    obtain ⟨nonempty, here, _⟩ := parts e (order.mem_iff.mp member)
    exact ⟨nonempty, first.kept _ _ here⟩
  · exact (order.map _).nodup_iff.mpr distinct
  · simp

end DfsFuzz.Tree
