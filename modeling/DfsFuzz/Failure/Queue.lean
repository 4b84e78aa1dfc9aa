import DfsFuzz.Failure.Consistent
import DfsFuzz.Lib.Enumerate

/-!
The queue of `insertFailure`. Every group of the queue is a placement written out (`Tracks`),
and the queue enumerates the consistent placements of what is done so far (`QueueInv`). One
round of the loops replaces every group by its extensions and keeps both.
-/

namespace DfsFuzz.Failure
open Interleave Enumerate

def placementOf (srvNum : Nat) (g : Group) : Placement := fun c =>
  if srvNum ≤ c ∧ c < g.length then placeOf (g.getD c {}) else []

/-- The group is the placement it shows: every client is written out with the sync ids `ids`,
its `SyncIdx` counts its syncs, and the servers are those of `base`. -/
structure Tracks (base : Group) (srvNum : Nat) (ids : Nat → UInt64) (idx : UInt64) (done : Nat → List Nat)
    (g : Group) : Prop where
  length : g.length = base.length
  server : ∀ s, s < srvNum → g.getD s {} = base.getD s {}
  placed : ∀ c, IsClient base srvNum c → Placed ids c (placementOf srvNum g c) (g.getD c {})
  syncIdx : ∀ c, IsClient base srvNum c → (g.getD c {}).syncIdx = idx + UInt64.ofNat (2 * (done c).length)

/-- `SrvFailOrder` of the first client is still empty, and must be while the others have
nothing, or it is the order of its syncs. -/
structure OrderKept (srvNum : Nat) (done : Nat → List Nat) (g : Group) : Prop where
  early : (∀ c, c ≠ srvNum → done c = []) → (g.getD srvNum {}).srvFailOrder = []
  order : (g.getD srvNum {}).srvFailOrder = [] ∨
    (g.getD srvNum {}).srvFailOrder = rights (placementOf srvNum g srvNum)

variable {base g : Group} {srvNum : Nat} {ids : Nat → UInt64} {idx : UInt64} {done : Nat → List Nat}
variable {c srv : Nat} {l : List (Call ⊕ Nat)} {p : Prog}

theorem getD_set_ne (g : Group) {c c' : Nat} (p : Prog) (differ : c' ≠ c) : (g.set c p).getD c' {} = g.getD c' {} := by
  rw [List.getD_eq_getElem?_getD, List.getD_eq_getElem?_getD, List.getElem?_set_ne (Ne.symm differ)]

theorem getD_set (g : Group) (c c' : Nat) (p : Prog) (bound : c < g.length) :
    (g.set c p).getD c' {} = if c' = c then p else g.getD c' {} := by
  by_cases same : c' = c
  · subst same
    simp [List.getD_eq_getElem?_getD, bound]
  · rw [getD_set_ne g p same, if_neg same]

theorem placementOf_set (first : srvNum ≤ c) (bound : c < g.length) (placed : Placed ids c l p) :
    placementOf srvNum (g.set c p) = Function.update (placementOf srvNum g) c l := by
  funext c'
  unfold placementOf
  rw [getD_set g c c' p bound, List.length_set]
  by_cases same : c' = c
  · subst same
    simp [first, bound, placed.placeOf_eq]
  · simp [same]

theorem Tracks.set (tracks : Tracks base srvNum ids idx done g) (client : IsClient base srvNum c)
    {now : List Nat} (placed : Placed ids c l p) (counted : p.syncIdx = idx + UInt64.ofNat (2 * now.length)) :
    Tracks base srvNum ids idx (Function.update done c now) (g.set c p) where
  length := by rw [List.length_set, tracks.length]
  server s below := by
    have differ : s ≠ c := by
      have := client.1
      omega
    rw [getD_set_ne g p differ, tracks.server s below]
  placed c' client' := by
    have bound : c < g.length := tracks.length ▸ client.2
    rw [placementOf_set client.1 bound placed, getD_set g c c' p bound]
    by_cases same : c' = c
    · subst same
      simpa using placed
    · simpa [same] using tracks.placed c' client'
  syncIdx c' client' := by
    rw [getD_set g c c' p (tracks.length ▸ client.2)]
    by_cases same : c' = c
    · subst same
      simpa using counted
    · simpa [same] using tracks.syncIdx c' client'

theorem Placed.extractOrder (placed : Placed ids c l p) : Placed ids c l (extractOrder p) where
  calls := placed.calls
  located := placed.located.perm (Go.insertionSort.perm _ _)

theorem extractOrder_order (placed : Placed ids c l p) : (extractOrder p).srvFailOrder = rights l := by
  simp only [Failure.extractOrder]
  rw [placed.located.sort_eq, map_fst_positions]

theorem withOrder_spec (tracks : Tracks base srvNum ids idx done g) (kept : OrderKept srvNum done g)
    (turn : Turn base srvNum done c srv) :
    Tracks base srvNum ids idx done (withOrder g c srvNum) ∧
      placementOf srvNum (withOrder g c srvNum) = placementOf srvNum g ∧
      (c = srvNum → ((withOrder g c srvNum).getD srvNum {}).srvFailOrder = []) ∧
      (c ≠ srvNum → ((withOrder g c srvNum).getD srvNum {}).srvFailOrder = rights (placementOf srvNum g srvNum)) := by
  have bound : srvNum < g.length := tracks.length ▸ turn.first.2
  unfold withOrder
  split_ifs with extract
  · have placed := tracks.placed srvNum turn.first
    have again := tracks.set turn.first placed.extractOrder (tracks.syncIdx srvNum turn.first)
    have same := placementOf_set (Nat.le_refl srvNum) bound placed.extractOrder
    rw [Function.update_eq_self] at again same
    refine ⟨again, same, fun lead => absurd extract.1 (by omega), fun _ => ?_⟩
    rw [getD_set g srvNum srvNum _ bound, if_pos rfl, extractOrder_order placed]
  · refine ⟨tracks, rfl, fun lead => kept.early (turn.leads lead), fun other => ?_⟩
    have behind : srvNum < c := Nat.lt_of_le_of_ne turn.client.1 (Ne.symm other)
    exact kept.order.resolve_left fun empty => extract ⟨behind, empty⟩

/-! ### The extensions of one group -/

theorem mapM_eq_some_map {α β : Type} {f : α → Option β} {h : α → β} {xs : List α}
    (all : ∀ x ∈ xs, f x = some (h x)) : xs.mapM f = some (xs.map h) := by
  induction xs with
  | nil => rfl
  | cons x xs ih =>
    rw [List.mapM_cons, all x List.mem_cons_self, ih fun y member => all y (List.mem_cons_of_mem x member)]
    rfl

structure Ready (base : Group) (srvNum : Nat) (ids : Nat → UInt64) (idx : UInt64) (done : Nat → List Nat)
    (c srv : Nat) (g : Group) : Prop where
  tracks : Tracks base srvNum ids idx done g
  turn : Turn base srvNum done c srv
  consistent : Consistent base srvNum done (placementOf srvNum g)
  order : c ≠ srvNum → (g.getD srvNum {}).srvFailOrder = rights (placementOf srvNum g srvNum)

theorem mem_insertablePos (ready : Ready base srvNum ids idx done c srv g) (i : Nat) :
    (i ∈ (insertablePos g c srv srvNum).1 ↔
      i ≤ (placementOf srvNum g c).length ∧ Follows (placementOf srvNum g) srvNum c (startCode srv) i) ∧
    (i ∈ (insertablePos g c srv srvNum).2 ↔
      i ≤ (placementOf srvNum g c).length ∧ Follows (placementOf srvNum g) srvNum c (endCode srv) i) := by
  have turn := ready.turn
  have placed := ready.tracks.placed c turn.client
  unfold insertablePos
  split_ifs with lead
  · have free : i ∈ filterFailureCalls 0 (g.getD c {}).calls.length (g.getD c {}) ↔
        i ≤ (placementOf srvNum g c).length := by
      rw [mem_filterFailureCalls (Nat.zero_le _), placed.length]
      omega
    have follows : ∀ code, Follows (placementOf srvNum g) srvNum c code i := fun code other => absurd lead other
    exact ⟨free.trans (and_iff_left (follows _)).symm, free.trans (and_iff_left (follows _)).symm⟩
  · have distinct := ready.consistent.nodup turn.client (turn.distinct c)
    have once := ready.consistent.nodup turn.first (turn.distinct srvNum)
    have held := ready.consistent.rights_eq_present turn.client lead
    have known := ready.consistent.mem_rights_iff turn.first
    have ranged : ∀ code ∈ rights (placementOf srvNum g srvNum), code ∉ rights (placementOf srvNum g c) →
        (i ∈ orderedPos (rights (placementOf srvNum g srvNum)) (g.getD c {}) code ↔
          i ≤ (placementOf srvNum g c).length ∧ Follows (placementOf srvNum g) srvNum c code i) := by
      intro code member fresh
      rw [mem_orderedPos placed distinct held once member fresh]
      simp [Follows, lead]
    rw [ready.order lead]
    exact ⟨ranged _ ((known _).mpr (startCode_mem_codes.mpr (turn.known lead))) (turn.startCode_fresh ready.consistent),
      ranged _ ((known _).mpr (endCode_mem_codes.mpr (turn.known lead))) (turn.endCode_fresh ready.consistent)⟩

theorem insertablePos_nodup (g : Group) (c srv srvNum : Nat) :
    (insertablePos g c srv srvNum).1.Nodup ∧ (insertablePos g c srv srvNum).2.Nodup := by
  unfold insertablePos
  split_ifs with lead
  · exact ⟨filterFailureCalls_nodup _ _ _, filterFailureCalls_nodup _ _ _⟩
  · exact ⟨orderedPos_nodup _ _ _, orderedPos_nodup _ _ _⟩

def points (g : Group) (c srv srvNum : Nat) : List (Nat × Nat) :=
  let (startPosList, endPosList) := insertablePos g c srv srvNum
  startPosList.flatMap fun call1 => (endPosList.filter (isAdjacent call1)).map fun call2 => (call1, call2)

theorem points_nodup (g : Group) (c srv srvNum : Nat) : (points g c srv srvNum).Nodup := by
  obtain ⟨starts, stops⟩ := insertablePos_nodup g c srv srvNum
  refine List.nodup_flatMap.mpr ⟨?_, ?_⟩
  · intro call1 _
    exact (stops.filter _).map fun _ _ same => (Prod.mk.inj same).2
  · refine starts.imp ?_
    intro call1 call1' differ point member member'
    obtain ⟨_, -, rfl⟩ := List.mem_map.mp member
    obtain ⟨_, -, same⟩ := List.mem_map.mp member'
    exact differ (Prod.mk.inj same).1.symm

theorem mem_points (ready : Ready base srvNum ids idx done c srv g) (i j : Nat) :
    (i, j) ∈ points g c srv srvNum ↔
      i ≤ j ∧ j ≤ (placementOf srvNum g c).length ∧ Fits (placementOf srvNum g) srvNum c srv i j := by
  have starts := (mem_insertablePos ready i).1
  have stops := (mem_insertablePos ready j).2
  simp only [points, List.mem_flatMap, List.mem_map, List.mem_filter, isAdjacent, decide_eq_true_eq, Prod.mk.injEq]
  constructor
  · rintro ⟨_, inStarts, _, ⟨inStops, upto⟩, rfl, rfl⟩
    exact ⟨upto, (stops.mp inStops).1, (starts.mp inStarts).2, (stops.mp inStops).2⟩
  · rintro ⟨upto, bound, fits⟩
    exact ⟨i, starts.mpr ⟨by omega, fits.start⟩, j, ⟨stops.mpr ⟨bound, fits.stop⟩, upto⟩, rfl, rfl⟩

theorem enumSyncPoint_eq (ready : Ready base srvNum ids idx done c srv g) (positive : 0 < srvNum) :
    ∃ pts : List (Nat × Nat), pts.Nodup ∧
      (∀ i j, (i, j) ∈ pts ↔
        i ≤ j ∧ j ≤ (placementOf srvNum g c).length ∧ Fits (placementOf srvNum g) srvNum c srv i j) ∧
      enumSyncPoint g c srv srvNum =
        some (pts.map fun point => g.set c (synced point.1 point.2 (g.getD c {}) c srv)) := by
  have placed := ready.tracks.placed c ready.turn.client
  have client : c ≠ 0 := by
    have := ready.turn.client.1
    omega
  by_cases empty : (g.getD c {}).calls = []
  · have none : placementOf srvNum g c = [] := List.length_eq_zero_iff.mp (by rw [← placed.length, empty]; rfl)
    have unlocated : (g.getD c {}).srvFailPos = [] := by
      refine List.eq_nil_iff_forall_not_mem.mpr ?_
      rintro ⟨code, n⟩ member
      have here := (placed.located.covers code n).mp member
      simp [none] at here
    have follows : ∀ code i, Follows (placementOf srvNum g) srvNum c code i := fun code i _ => by simp [none, present]
    refine ⟨[(0, 0)], by simp, ?_, ?_⟩
    · intro i j
      rw [List.mem_singleton, Prod.mk.injEq, none, List.length_nil]
      constructor
      · rintro ⟨rfl, rfl⟩
        exact ⟨Nat.le_refl 0, Nat.le_refl 0, follows _ _, follows _ _⟩
      · rintro ⟨upto, bound, -⟩
        omega
    · rw [enumSyncPoint, if_pos empty, insertSync_empty client empty unlocated]
      rfl
  · refine ⟨points g c srv srvNum, points_nodup g c srv srvNum, mem_points ready, ?_⟩
    rw [enumSyncPoint, if_neg empty]
    refine mapM_eq_some_map ?_
    rintro ⟨i, j⟩ member
    obtain ⟨upto, bound, -⟩ := (mem_points ready i j).mp member
    rw [insertSync_eq client upto (by rw [placed.length]; exact bound)]
    rfl

structure Written (base : Group) (srvNum : Nat) (ids : Nat → UInt64) (idx : UInt64) (done : Nat → List Nat)
    (g : Group) : Prop where
  tracks : Tracks base srvNum ids idx done g
  kept : OrderKept srvNum done g

structure NextIds (ids : Nat → UInt64) (idx : UInt64) (done : Nat → List Nat) (c srv : Nat) : Prop where
  start : ids (startCode srv) = idx + UInt64.ofNat (2 * (done c).length)
  stop : ids (endCode srv) = idx + UInt64.ofNat (2 * (done c).length) + 1

theorem id_succ (idx : UInt64) (n : Nat) : idx + UInt64.ofNat (n + 1) = idx + UInt64.ofNat n + 1 := by
  rw [UInt64.ofNat_add, UInt64.add_assoc]
  rfl

theorem synced_written (ready : Ready base srvNum ids idx done c srv g) (next : NextIds ids idx done c srv)
    (early : c = srvNum → (g.getD srvNum {}).srvFailOrder = []) {i j : Nat} (upto : i ≤ j)
    (bound : j ≤ (placementOf srvNum g c).length) :
    Written base srvNum ids idx (advance done c srv) (g.set c (synced i j (g.getD c {}) c srv)) ∧
      placementOf srvNum (g.set c (synced i j (g.getD c {}) c srv)) = place (placementOf srvNum g) c srv i j := by
  have turn := ready.turn
  have inside : c < g.length := ready.tracks.length ▸ turn.client.2
  have counted := ready.tracks.syncIdx c turn.client
  have placed := (ready.tracks.placed c turn.client).synced upto bound (counted ▸ next.start) (counted ▸ next.stop)
  have shown := placementOf_set turn.client.1 inside placed
  refine ⟨⟨ready.tracks.set turn.client placed ?_, ?_⟩, shown⟩
  · rw [synced, counted, List.length_append, List.length_singleton, Nat.mul_add, id_succ _ (2 * (done c).length + 1),
      id_succ]
  · by_cases lead : c = srvNum
    · have none : ((g.set c (synced i j (g.getD c {}) c srv)).getD srvNum {}).srvFailOrder = [] := by
        rw [getD_set g c srvNum _ inside, if_pos lead.symm]
        exact lead ▸ early lead
      exact ⟨fun _ => none, Or.inl none⟩
    · have same : (g.set c (synced i j (g.getD c {}) c srv)).getD srvNum {} = g.getD srvNum {} := by
        rw [getD_set_ne g _ (Ne.symm lead)]
      refine ⟨fun all => ?_, Or.inr ?_⟩
      · have := all c lead
        simp [advance] at this
      · rw [same, shown, Function.update_of_ne (Ne.symm lead)]
        exact ready.order lead

/-- The extensions of a group are the placements that `forget` sends back to it. -/
theorem enumSyncPoint_enumerates (ready : Ready base srvNum ids idx done c srv g)
    (next : NextIds ids idx done c srv) (early : c = srvNum → (g.getD srvNum {}).srvFailOrder = [])
    (positive : 0 < srvNum) :
    ∃ children, enumSyncPoint g c srv srvNum = some children ∧
      Enumerates (placementOf srvNum)
        (fun π => Consistent base srvNum (advance done c srv) π ∧ forget c srv π = placementOf srvNum g) children ∧
      ∀ g' ∈ children, Written base srvNum ids idx (advance done c srv) g' := by
  obtain ⟨pts, distinct, fitting, eq⟩ := enumSyncPoint_eq ready positive
  have turn := ready.turn
  have written := fun {i j} => synced_written ready next early (i := i) (j := j)
  refine ⟨_, eq, ⟨?_, ?_⟩, ?_⟩
  · rw [List.map_map]
    refine distinct.map_on ?_
    rintro ⟨i, j⟩ member ⟨i', j'⟩ member' same
    obtain ⟨upto, bound, -⟩ := (fitting i j).mp member
    obtain ⟨upto', bound', -⟩ := (fitting i' j').mp member'
    simp only [Function.comp_apply, (written upto bound).2, (written upto' bound').2] at same
    have own := congrFun same c
    simp only [place, Function.update_self] at own
    have positions := insertPair_inj (startCode_ne_endCode srv srv) (turn.startCode_fresh ready.consistent)
      (turn.endCode_fresh ready.consistent) upto bound upto' bound' own
    exact Prod.ext positions.1 positions.2
  · intro π
    rw [List.map_map, List.mem_map]
    constructor
    · rintro ⟨⟨i, j⟩, member, rfl⟩
      obtain ⟨upto, bound, fits⟩ := (fitting i j).mp member
      simp only [Function.comp_apply, (written upto bound).2]
      exact ⟨ready.consistent.place turn upto fits, forget_place ready.consistent turn upto⟩
    · rintro ⟨consistent, back⟩
      obtain ⟨i, j, upto, bound, fits, rebuilt⟩ := consistent.exists_place turn
      rw [back] at bound fits rebuilt
      refine ⟨(i, j), (fitting i j).mpr ⟨upto, bound, fits⟩, ?_⟩
      simp only [Function.comp_apply, (written upto bound).2]
      exact rebuilt
  · intro g' member
    obtain ⟨⟨i, j⟩, inPts, rfl⟩ := List.mem_map.mp member
    obtain ⟨upto, bound, -⟩ := (fitting i j).mp inPts
    exact (written upto bound).1

structure QueueInv (base : Group) (srvNum : Nat) (ids : Nat → UInt64) (idx : UInt64) (done : Nat → List Nat)
    (queue : List Group) : Prop where
  lists : Enumerates (placementOf srvNum) (Consistent base srvNum done) queue
  written : ∀ g ∈ queue, Written base srvNum ids idx done g

theorem extendQueue_inv {queue : List Group} (inv : QueueInv base srvNum ids idx done queue)
    (turn : Turn base srvNum done c srv) (next : NextIds ids idx done c srv) (positive : 0 < srvNum) :
    ∃ queue', extendQueue srvNum c srv queue = some queue' ∧
      QueueInv base srvNum ids idx (advance done c srv) queue' := by
  have each : ∀ g ∈ queue, ∃ children, enumSyncPoint (withOrder g c srvNum) c srv srvNum = some children ∧
      Enumerates (placementOf srvNum)
        (fun π => Consistent base srvNum (advance done c srv) π ∧ forget c srv π = placementOf srvNum g) children ∧
      ∀ g' ∈ children, Written base srvNum ids idx (advance done c srv) g' := by
    intro g member
    have consistent := inv.lists.sound member
    obtain ⟨tracks, kept⟩ := inv.written g member
    obtain ⟨tracks', same, early, order⟩ := withOrder_spec tracks kept turn
    have ready : Ready base srvNum ids idx done c srv (withOrder g c srvNum) :=
      ⟨tracks', turn, same.symm ▸ consistent, fun other => (order other).trans (by rw [same])⟩
    rw [← same]
    exact enumSyncPoint_enumerates ready next early positive
  let children : Group → List Group := fun g => (enumSyncPoint (withOrder g c srvNum) c srv srvNum).getD []
  have total : ∀ g ∈ queue, enumSyncPoint (withOrder g c srvNum) c srv srvNum = some (children g) := by
    intro g member
    obtain ⟨list, eq, -⟩ := each g member
    simp [children, eq]
  refine ⟨queue.flatMap children, ?_, ?_, ?_⟩
  · rw [extendQueue, mapM_eq_some_map total, Option.map_some, List.flatMap_def]
  · refine inv.lists.flatMap ?_ fun π consistent => consistent.forget turn
    intro g member
    obtain ⟨list, eq, lists, -⟩ := each g member
    rw [Option.some.inj ((total g member).symm.trans eq)]
    exact lists
  · intro g' member'
    obtain ⟨g, member, inChildren⟩ := List.mem_flatMap.mp member'
    obtain ⟨list, eq, -, written⟩ := each g member
    rw [Option.some.inj ((total g member).symm.trans eq)] at inChildren
    exact written g' inChildren

end DfsFuzz.Failure
