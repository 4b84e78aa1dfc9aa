import DfsFuzz.Choice.Relation
import DfsFuzz.Failure.Complete

/-!
`RandomInsertFailure` of `prog/mutation.go`: one sync pair per failed server and client, at drawn
positions, with the order of the failures taken from the first client once.
-/

namespace DfsFuzz.Failure

open DfsFuzz.Choice (Draw)
open Interleave

/-- What `RandomInsertFailure` draws: the servers, and in each round the kind of the failure, the nodes of a partition and a
position for every client. -/
structure FailDraws (srvNum : Nat) where
  size : Draw
  perm : List Nat
  perm_range : perm.Perm (List.range srvNum)
  crashCoin : Nat → Bool
  partNodes : Nat → List Nat
  position : Nat → Nat → Draw

def randSet (startRange setSize : Nat) (perm : List Nat) : List Nat :=
  ((perm.take setSize).map (startRange + ·)).insertionSort (· ≤ ·)

def FailDraws.randomSrvs {srvNum : Nat} (draws : FailDraws srvNum) : List Nat :=
  randSet 0 (draws.size.intn srvNum + 1) draws.perm

/-- Whether a failure is a crash; `none` leaves the loop. -/
def failureKind (nodecrash netfailure coin : Bool) : Option Bool :=
  if !netfailure && nodecrash then some true
  else if netfailure && !nodecrash then some false
  else if !netfailure && !nodecrash then none
  else some coin

/-- `none` is the `log.Fatalf` that there is no position. -/
def randSelectCandidates (draw : Draw) (startPosList endPosList : List Nat) : Option (Nat × Nat) :=
  let candidates := startPosList.flatMap fun call1 => (endPosList.filter (isAdjacent call1)).map fun call2 => (call1, call2)
  if candidates.length = 0 then none else candidates[draw.intn candidates.length]?

/-- The sync pair of one client; the sync ids start from 0 in the first round. -/
def insertClient (draw : Draw) (firstRound : Bool) (srv srvNum : Nat) (ps : Group) (clt : Nat) : Option Group :=
  let ps := withOrder ps clt srvNum
  (randSelectCandidates draw (insertablePos ps clt srv srvNum).1 (insertablePos ps clt srv srvNum).2).bind fun pos =>
    let p := ps.getD clt {}
    (insertSync pos.1 pos.2 { p with syncIdx := if firstRound then 0 else p.syncIdx } clt srv).map fun p => ps.set clt p

def insertClients {srvNum : Nat} (draws : FailDraws srvNum) (i srv : Nat) (ps : Group) : Option Group :=
  (List.range' srvNum (ps.length - srvNum)).foldlM
    (fun ps clt => insertClient (draws.position i clt) (i == 0) srv srvNum ps clt) ps

/-- The rounds from the `i`-th on. -/
def failRounds (gen : FailGen) {srvNum : Nat} (draws : FailDraws srvNum) (nodecrash netfailure : Bool) :
    Nat → List Nat → UInt64 → Group → Option Group
  | _, [], _, ps => some ps
  | i, srv :: rest, srvStartIdx, ps =>
    match failureKind nodecrash netfailure (draws.crashCoin i) with
    | none => some ps
    | some crashFail =>
      let failInfo : SrvFailInfo := ⟨srv, if crashFail then [] else draws.partNodes i⟩
      let (p, next) := genSrvFailCalls gen srvStartIdx crashFail failInfo (ps.getD srv {})
      (insertClients draws i srv (ps.set srv p)).bind fun ps =>
        failRounds gen draws nodecrash netfailure (i + 1) rest next (ps.modify 0 (setFailFlag crashFail))

def randomInsertFailure (gen : FailGen) {srvNum : Nat} (draws : FailDraws srvNum) (nodecrash netfailure : Bool) (ps : Group) :
    Option Group :=
  if srvNum = 0 then some ps else failRounds gen draws nodecrash netfailure 0 draws.randomSrvs 0 ps

/-! ### The drawn servers and positions -/

theorem mem_randomSrvs {srvNum : Nat} (draws : FailDraws srvNum) {srv : Nat} (member : srv ∈ draws.randomSrvs) :
    srv < srvNum := by
  unfold FailDraws.randomSrvs randSet at member
  rw [(List.perm_insertionSort _ _).mem_iff, List.mem_map] at member
  obtain ⟨val, taken, rfl⟩ := member
  rw [Nat.zero_add]
  exact List.mem_range.mp (draws.perm_range.mem_iff.mp (List.mem_of_mem_take taken))

theorem randomSrvs_nodup {srvNum : Nat} (draws : FailDraws srvNum) : draws.randomSrvs.Nodup := by
  unfold FailDraws.randomSrvs randSet
  rw [(List.perm_insertionSort _ _).nodup_iff]
  refine List.Nodup.map (fun a b same => Nat.add_left_cancel same) ?_
  exact (draws.perm_range.nodup_iff.mpr List.nodup_range).sublist (List.take_sublist _ _)

theorem randomSrvs_ne_nil {srvNum : Nat} (draws : FailDraws srvNum) (positive : 0 < srvNum) : draws.randomSrvs ≠ [] := by
  have length : draws.randomSrvs.length = draws.size.intn srvNum + 1 := by
    have drawn := draws.size.lt srvNum positive
    have whole := draws.perm_range.length_eq
    rw [List.length_range] at whole
    unfold FailDraws.randomSrvs randSet
    rw [List.length_insertionSort, List.length_map, List.length_take, whole]
    omega
  intro none
  rw [none] at length
  cases length

theorem randSelectCandidates_spec {draw : Draw} {starts ends : List Nat} {pos : Nat × Nat}
    (selected : randSelectCandidates draw starts ends = some pos) : pos.1 ∈ starts ∧ pos.2 ∈ ends ∧ pos.1 ≤ pos.2 := by
  unfold randSelectCandidates at selected
  dsimp only at selected
  split at selected
  · cases selected
  · obtain ⟨call1, inStarts, member⟩ := List.mem_flatMap.mp (List.mem_of_getElem? selected)
    obtain ⟨call2, kept, rfl⟩ := List.mem_map.mp member
    obtain ⟨inEnds, adjacent⟩ := List.mem_filter.mp kept
    exact ⟨inStarts, inEnds, of_decide_eq_true adjacent⟩

theorem randSelectCandidates_some {draw : Draw} {starts ends : List Nat} {start stop : Nat} (inStarts : start ∈ starts)
    (inEnds : stop ∈ ends) (order : start ≤ stop) : ∃ pos, randSelectCandidates draw starts ends = some pos := by
  have member : (start, stop) ∈ starts.flatMap fun call1 =>
      (ends.filter (isAdjacent call1)).map fun call2 => (call1, call2) :=
    List.mem_flatMap.mpr ⟨start, inStarts, List.mem_map.mpr ⟨stop, List.mem_filter.mpr ⟨inEnds, decide_eq_true order⟩, rfl⟩⟩
  have nonempty := List.length_pos_of_mem member
  unfold randSelectCandidates
  dsimp only
  rw [if_neg (Nat.ne_of_gt nonempty), List.getElem?_eq_getElem (draw.lt _ nonempty)]
  exact ⟨_, rfl⟩

theorem le_of_mem_insertablePos {g : Group} {clt srv srvNum i : Nat}
    (member : i ∈ (insertablePos g clt srv srvNum).1 ∨ i ∈ (insertablePos g clt srv srvNum).2) :
    i ≤ (g.getD clt {}).calls.length := by
  have filtered : ∀ (start stop : Nat) (p : Prog), ∀ i ∈ filterFailureCalls start stop p, i ≤ p.calls.length := by
    intro start stop p i inside
    unfold filterFailureCalls at inside
    rcases List.mem_append.mp inside with ranged | last
    · have := List.mem_range'_1.mp ranged
      omega
    · split at last
      · rw [List.mem_singleton.mp last]
      · cases last
  have ordered : ∀ (order : List Nat) (p : Prog) (code : Nat), ∀ i ∈ orderedPos order p code, i ≤ p.calls.length := by
    intro order p code
    unfold orderedPos
    suffices general : ∀ (xs : List (Nat × Nat)) (list : List Nat), (∀ i ∈ list, i ≤ p.calls.length) →
        ∀ i ∈ xs.foldl (fun list item => if item.1 = code then getPosRange order p item.2 else list) list,
          i ≤ p.calls.length from general _ _ (by simp)
    intro xs
    induction xs with
    | nil => exact fun list inside => inside
    | cons item xs ih =>
      intro list inside
      rw [List.foldl_cons]
      refine ih _ ?_
      split
      · exact filtered _ _ _
      · exact inside
  unfold insertablePos at member
  dsimp only at member
  split at member
  · rcases member with first | second
    · exact filtered _ _ _ i first
    · exact filtered _ _ _ i second
  · rcases member with first | second
    · exact ordered _ _ _ i first
    · exact ordered _ _ _ i second

/-! ### One client -/

/-- A client after its pair: the syncs are at positions of the program and carry consecutive ids. -/
structure Paired (firstRound : Bool) (srv srvNum : Nat) (ps : Group) (clt : Nat) (ps' : Group) : Prop where
  pair : ∃ start stop, start ≤ stop ∧ stop ≤ ((withOrder ps clt srvNum).getD clt {}).calls.length ∧
    ps' = (withOrder ps clt srvNum).set clt (synced start stop
      { (withOrder ps clt srvNum).getD clt {} with
        syncIdx := if firstRound then 0 else ((withOrder ps clt srvNum).getD clt {}).syncIdx } clt srv)

theorem insertClient_paired {draw : Draw} {firstRound : Bool} {srv srvNum clt : Nat} {ps ps' : Group} (client : clt ≠ 0)
    (inserted : insertClient draw firstRound srv srvNum ps clt = some ps') : Paired firstRound srv srvNum ps clt ps' := by
  unfold insertClient at inserted
  dsimp only at inserted
  obtain ⟨pos, selected, inserted⟩ := Option.bind_eq_some_iff.mp inserted
  obtain ⟨inStarts, inEnds, order⟩ := randSelectCandidates_spec selected
  have last := le_of_mem_insertablePos (Or.inr inEnds)
  rw [insertSync_eq client order (by exact last), Option.map_some] at inserted
  exact ⟨pos.1, pos.2, order, last, (Option.some.inj inserted).symm⟩

theorem insertClient_some {draw : Draw} {firstRound : Bool} {srv srvNum clt : Nat} {ps : Group} (client : clt ≠ 0) {i j : Nat}
    (start : i ∈ (insertablePos (withOrder ps clt srvNum) clt srv srvNum).1)
    (stop : j ∈ (insertablePos (withOrder ps clt srvNum) clt srv srvNum).2) (order : i ≤ j) :
    ∃ ps', insertClient draw firstRound srv srvNum ps clt = some ps' := by
  obtain ⟨pos, selected⟩ := @randSelectCandidates_some draw _ _ i j start stop order
  obtain ⟨inStarts, inEnds, order'⟩ := randSelectCandidates_spec selected
  have last := le_of_mem_insertablePos (Or.inr inEnds)
  unfold insertClient
  dsimp only
  rw [selected, Option.bind_some, insertSync_eq client order' (by exact last)]
  exact ⟨_, rfl⟩

theorem foldlM_range' {σ : Type} {f : σ → Nat → Option σ} {P : Nat → σ → Prop} (n : Nat) :
    ∀ {a : Nat} {s : σ}, (∀ k s, a ≤ k → k < a + n → P k s → ∃ s', f s k = some s' ∧ P (k + 1) s') → P a s →
      ∃ s', (List.range' a n).foldlM f s = some s' ∧ P (a + n) s' := by
  induction n with
  | zero => exact fun _ start => ⟨_, rfl, start⟩
  | succ n ih =>
    intro a s step start
    obtain ⟨s1, made, next⟩ := step a s (Nat.le_refl a) (by omega) start
    obtain ⟨s', run, last⟩ := @ih (a + 1) s1 (fun k s low high => step k s (by omega) (by omega)) next
    refine ⟨s', ?_, by rwa [show a + (n + 1) = a + 1 + n by omega]⟩
    rw [List.range'_succ, List.foldlM_cons, made]
    exact run

theorem withOrder_self (ps : Group) (srvNum : Nat) : withOrder ps srvNum srvNum = ps := by
  unfold withOrder
  rw [if_neg fun both => Nat.lt_irrefl _ both.1]

theorem length_withOrder (ps : Group) (clt srvNum : Nat) : (withOrder ps clt srvNum).length = ps.length := by
  unfold withOrder
  split <;> simp

theorem getD_withOrder_ne (ps : Group) (clt : Nat) {srvNum c : Nat} (other : c ≠ srvNum) :
    (withOrder ps clt srvNum).getD c {} = ps.getD c {} := by
  unfold withOrder
  split
  · exact getD_set_ne ps _ other
  · rfl

theorem zero_mem_filterFailureCalls (p : Prog) : 0 ∈ filterFailureCalls 0 p.calls.length p :=
  (mem_filterFailureCalls (Nat.zero_le _)).mpr ⟨Nat.le_refl 0, Nat.zero_le _, Nat.zero_le _⟩

theorem insertClient_first (draw : Draw) (firstRound : Bool) (srv : Nat) {srvNum : Nat} (positive : 0 < srvNum) (ps : Group) :
    ∃ ps', insertClient draw firstRound srv srvNum ps srvNum = some ps' := by
  have anywhere : 0 ∈ (insertablePos (withOrder ps srvNum srvNum) srvNum srv srvNum).1 ∧
      0 ∈ (insertablePos (withOrder ps srvNum srvNum) srvNum srv srvNum).2 := by
    unfold insertablePos
    dsimp only
    rw [if_pos rfl]
    exact ⟨zero_mem_filterFailureCalls _, zero_mem_filterFailureCalls _⟩
  exact insertClient_some (Nat.ne_of_gt positive) anywhere.1 anywhere.2 (Nat.le_refl 0)

theorem orderedPos_fresh {order : List Nat} {p : Prog} (none : p.srvFailPos = []) {code : Nat} (once : order.Nodup)
    (member : code ∈ order) : orderedPos order p code = filterFailureCalls 0 p.calls.length p := by
  obtain ⟨front, back, rfl⟩ := List.append_of_mem member
  rw [List.nodup_append, List.nodup_cons] at once
  have nowhere : ∀ l : List Nat, l.findSome? (arraySearch []) = Option.none := fun l =>
    List.findSome?_eq_none_iff.mpr fun _ _ => rfl
  rw [orderedPos_eq once.2.1.1, getPosRange, none, nowhere, nowhere]
  rfl

/-- A client without syncs has a position when the order of the first client knows the server. -/
theorem insertClient_later (draw : Draw) (firstRound : Bool) {srv srvNum clt : Nat} (later : srvNum < clt) {ps : Group}
    (none : (ps.getD clt {}).srvFailPos = [])
    (order : ((withOrder ps clt srvNum).getD srvNum {}).srvFailOrder.Perm [startCode srv, endCode srv]) :
    ∃ ps', insertClient draw firstRound srv srvNum ps clt = some ps' := by
  have once : ((withOrder ps clt srvNum).getD srvNum {}).srvFailOrder.Nodup :=
    order.nodup_iff.mpr (by simpa using startCode_ne_endCode srv srv)
  have same := getD_withOrder_ne ps clt (Nat.ne_of_gt later)
  have anywhere : ∀ code ∈ [startCode srv, endCode srv],
      0 ∈ orderedPos ((withOrder ps clt srvNum).getD srvNum {}).srvFailOrder ((withOrder ps clt srvNum).getD clt {}) code := by
    intro code member
    rw [orderedPos_fresh (by rw [same, none]) once (order.mem_iff.mpr member)]
    exact zero_mem_filterFailureCalls _
  refine @insertClient_some draw firstRound srv srvNum clt ps (by omega) 0 0 ?_ ?_ (Nat.le_refl 0)
  · unfold insertablePos
    dsimp only
    rw [if_neg (Nat.ne_of_gt later)]
    exact anywhere _ (by simp)
  · unfold insertablePos
    dsimp only
    rw [if_neg (Nat.ne_of_gt later)]
    exact anywhere _ (by simp)

/-- A later client has no position when the order of the first client was taken without the server. -/
theorem insertClient_unknown (draw : Draw) (firstRound : Bool) {srv srvNum clt : Nat} (later : srvNum < clt) {ps : Group}
    (taken : (ps.getD srvNum {}).srvFailOrder ≠ []) (unknown : startCode srv ∉ (ps.getD srvNum {}).srvFailOrder) :
    insertClient draw firstRound srv srvNum ps clt = none := by
  have same : withOrder ps clt srvNum = ps := by
    unfold withOrder
    rw [if_neg fun both => taken both.2]
  have nowhere : (insertablePos ps clt srv srvNum).1 = [] := by
    unfold insertablePos
    dsimp only
    rw [if_neg (Nat.ne_of_gt later)]
    exact foldl_zipIdx_of_notMem unknown _ 0 []
  unfold insertClient
  dsimp only
  rw [same, nowhere]
  rfl

/-! ### The first round -/

theorem curOrder_first {p : Prog} (plain : ∀ call ∈ p.calls, call.isFCall = false) (none : p.srvFailPos = [])
    {start stop : Nat} (order : start ≤ stop) (last : stop ≤ p.calls.length) (clt srv : Nat) :
    curOrder (synced start stop { p with syncIdx := 0 } clt srv) = some [0, 1] := by
  let ids : Nat → UInt64 := fun code => if code = startCode srv then 0 else 1
  have placed : Placed ids clt (p.calls.map Sum.inl) { p with syncIdx := 0 } := @placed_inl { p with syncIdx := 0 } none ids clt
  have startId : ids (startCode srv) = 0 := by simp [ids]
  have endId : ids (endCode srv) = 0 + 1 := by simp [ids, (startCode_ne_endCode srv srv).symm]
  have pair := placed.synced order (by rwa [List.length_map]) startId endId
  rw [curOrder_eq pair (by rw [lefts_insertPair order, lefts_map_inl]; exact plain), rights_insertPair]
  have empty : ∀ l : List Call, rights (l.map (Sum.inl : Call → Call ⊕ Nat)) = [] := rights_map_inl
  simp [← List.map_take, ← List.map_drop, empty, ids, (startCode_ne_endCode srv srv).symm]

/-- The clients below `k` have their pairs of the first round, the others are those of `base`. -/
structure FirstRound (base : Group) (srv srvNum k : Nat) (ps : Group) : Prop where
  length : ps.length = base.length
  waiting : ∀ c, k ≤ c → ps.getD c {} = base.getD c {}
  paired : ∀ c, srvNum ≤ c → c < k → curOrder (ps.getD c {}) = some [0, 1]
  positions : srvNum < k → ((ps.getD srvNum {}).srvFailPos.map Prod.fst).Perm [startCode srv, endCode srv]
  untaken : k = srvNum + 1 → (ps.getD srvNum {}).srvFailOrder = []
  taken : srvNum + 1 < k → (ps.getD srvNum {}).srvFailOrder.Perm [startCode srv, endCode srv]

theorem extractOrder_perm (p : Prog) : (extractOrder p).srvFailOrder.Perm (p.srvFailPos.map Prod.fst) :=
  (Go.insertionSort.perm _ _).map Prod.fst

theorem withOrder_calls (ps : Group) (clt srvNum c : Nat) : ((withOrder ps clt srvNum).getD c {}).calls = (ps.getD c {}).calls := by
  by_cases other : c = srvNum
  · subst other
    unfold withOrder
    split
    · rename_i both
      by_cases bound : c < ps.length
      · rw [getD_set ps c c _ bound, if_pos rfl]
        rfl
      · rw [List.set_eq_of_length_le (Nat.not_lt.mp bound)]
    · rfl
  · rw [getD_withOrder_ne ps clt other]

theorem curOrder_withOrder (ps : Group) (clt srvNum c : Nat) :
    curOrder ((withOrder ps clt srvNum).getD c {}) = curOrder (ps.getD c {}) := by
  rw [curOrder, curOrder, withOrder_calls]

/-- The first client before another one gets its pair: its order is that of its pair. -/
theorem FirstRound.withOrder_taken {base ps : Group} {srv srvNum k : Nat} (round : FirstRound base srv srvNum k ps)
    (later : srvNum < k) (bound : srvNum < ps.length) :
    (((withOrder ps k srvNum).getD srvNum {}).srvFailPos.map Prod.fst).Perm [startCode srv, endCode srv] ∧
      ((withOrder ps k srvNum).getD srvNum {}).srvFailOrder.Perm [startCode srv, endCode srv] := by
  unfold withOrder
  split
  · rw [getD_set ps srvNum srvNum _ bound, if_pos rfl]
    refine ⟨?_, (extractOrder_perm _).trans (round.positions later)⟩
    exact ((Go.insertionSort.perm _ _).map Prod.fst).trans (round.positions later)
  · rename_i notNow
    refine ⟨round.positions later, round.taken ?_⟩
    by_contra early
    exact notNow ⟨later, round.untaken (by omega)⟩

theorem FirstRound.step {base ps : Group} {srv srvNum k : Nat} (fresh : NoFailureSyncs base srvNum) (positive : 0 < srvNum)
    (round : FirstRound base srv srvNum k ps) (client : IsClient base srvNum k) (draw : Draw) :
    ∃ ps', insertClient draw true srv srvNum ps k = some ps' ∧ FirstRound base srv srvNum (k + 1) ps' := by
  have bound : k < ps.length := round.length ▸ client.2
  have own := round.waiting k (Nat.le_refl k)
  have possible : ∃ ps', insertClient draw true srv srvNum ps k = some ps' := by
    rcases Nat.lt_or_eq_of_le client.1 with later | rfl
    · exact insertClient_later draw true later (by rw [own]; exact fresh.positions k client)
        (round.withOrder_taken later (by omega)).2
    · exact insertClient_first draw true srv positive ps
  obtain ⟨ps', inserted⟩ := possible
  obtain ⟨start, stop, order, last, result⟩ := (insertClient_paired (by have := client.1; omega) inserted).pair
  have bound' : k < (withOrder ps k srvNum).length := by rwa [length_withOrder]
  -- the client itself is still that of the start
  have untouched : (withOrder ps k srvNum).getD k {} = base.getD k {} := by
    rcases Nat.lt_or_eq_of_le client.1 with later | rfl
    · rw [getD_withOrder_ne ps k (Nat.ne_of_gt later), own]
    · rw [withOrder_self, own]
  rw [untouched] at last result
  subst result
  refine ⟨_, inserted, by rw [List.length_set, length_withOrder, round.length], fun c above => ?_,
    fun c first below => ?_, fun _ => ?_, fun same => ?_, fun behind => ?_⟩
  · rw [getD_set_ne _ _ (by omega), getD_withOrder_ne ps k (by have := client.1; omega)]
    exact round.waiting c (by omega)
  · rw [getD_set _ k c _ bound']
    split
    · exact curOrder_first (fresh.calls k client) (fresh.positions k client) order last k srv
    · rw [curOrder_withOrder]
      exact round.paired c first (by omega)
  · rw [getD_set _ k srvNum _ bound']
    split
    · dsimp only [synced]
      rw [fresh.positions k client]
      exact List.Perm.refl _
    · have := client.1
      exact (round.withOrder_taken (by omega) (by omega)).1
  · obtain rfl : k = srvNum := by omega
    rw [getD_set _ k k _ bound', if_pos rfl]
    exact fresh.order k client
  · rw [getD_set_ne _ _ (by omega)]
    exact (round.withOrder_taken (by omega) (by omega)).2

theorem insertClients_first {srvNum : Nat} (draws : FailDraws srvNum) {base : Group} (srv : Nat)
    (fresh : NoFailureSyncs base srvNum) (positive : 0 < srvNum) (clients : srvNum < base.length) :
    ∃ ps', insertClients draws 0 srv base = some ps' ∧ FirstRound base srv srvNum base.length ps' := by
  have start : FirstRound base srv srvNum srvNum base :=
    ⟨rfl, fun _ _ => rfl, fun c first below => absurd below (Nat.not_lt.mpr first), fun impossible => absurd impossible
      (Nat.lt_irrefl _), fun impossible => absurd impossible (by omega), fun impossible => absurd impossible (by omega)⟩
  have step : ∀ k ps, srvNum ≤ k → k < srvNum + (base.length - srvNum) → FirstRound base srv srvNum k ps →
      ∃ ps', insertClient (draws.position 0 k) true srv srvNum ps k = some ps' ∧ FirstRound base srv srvNum (k + 1) ps' :=
    fun k ps low high round => round.step fresh positive ⟨low, by omega⟩ (draws.position 0 k)
  have whole := foldlM_range' (base.length - srvNum) step start
  rwa [Nat.add_sub_cancel' (Nat.le_of_lt clients)] at whole

theorem failureKind_some {nodecrash netfailure : Bool} (enabled : (nodecrash || netfailure) = true) (coin : Bool) :
    ∃ crashFail, failureKind nodecrash netfailure coin = some crashFail := by
  cases nodecrash <;> cases netfailure <;> simp_all [failureKind]

/-- What one round does to the group before the syncs: the server of the round has its block. -/
def withBlock (gen : FailGen) {srvNum : Nat} (draws : FailDraws srvNum) (i srv : Nat) (srvStartIdx : UInt64) (crashFail : Bool)
    (ps : Group) : Group :=
  ps.set srv (genSrvFailCalls gen srvStartIdx crashFail ⟨srv, if crashFail then [] else draws.partNodes i⟩ (ps.getD srv {})).1

theorem failRounds_cons {gen : FailGen} {srvNum : Nat} {draws : FailDraws srvNum} {nodecrash netfailure : Bool} {i srv : Nat}
    {rest : List Nat} {srvStartIdx : UInt64} {ps : Group} {crashFail : Bool}
    (kind : failureKind nodecrash netfailure (draws.crashCoin i) = some crashFail) :
    ∃ next, failRounds gen draws nodecrash netfailure i (srv :: rest) srvStartIdx ps =
      (insertClients draws i srv (withBlock gen draws i srv srvStartIdx crashFail ps)).bind fun ps =>
        failRounds gen draws nodecrash netfailure (i + 1) rest next (ps.modify 0 (setFailFlag crashFail)) := by
  rw [failRounds, kind]
  exact ⟨_, rfl⟩

section
variable {gen : FailGen} {srvNum : Nat} {draws : FailDraws srvNum} {i srv : Nat} {srvStartIdx : UInt64} {crashFail : Bool} {ps : Group}

theorem withBlock_client {c : Nat} (server : srv < srvNum) (client : srvNum ≤ c) :
    (withBlock gen draws i srv srvStartIdx crashFail ps).getD c {} = ps.getD c {} := getD_set_ne _ _ (by omega)

@[simp] theorem length_withBlock : (withBlock gen draws i srv srvStartIdx crashFail ps).length = ps.length := List.length_set

theorem NoFailureSyncs.withBlock (fresh : NoFailureSyncs ps srvNum) (server : srv < srvNum) :
    NoFailureSyncs (withBlock gen draws i srv srvStartIdx crashFail ps) srvNum := by
  have same : ∀ c, IsClient (Failure.withBlock gen draws i srv srvStartIdx crashFail ps) srvNum c →
      IsClient ps srvNum c ∧ (Failure.withBlock gen draws i srv srvStartIdx crashFail ps).getD c {} = ps.getD c {} :=
    fun c client => ⟨⟨client.1, by simpa using client.2⟩, withBlock_client server client.1⟩
  refine ⟨fun c client => ?_, fun c client => ?_, fun c client => ?_⟩
  · rw [(same c client).2]
    exact fresh.calls c (same c client).1
  · rw [(same c client).2]
    exact fresh.positions c (same c client).1
  · rw [(same c client).2]
    exact fresh.order c (same c client).1

theorem getD_flagged_client {c : Nat} (positive : 0 < srvNum) (client : srvNum ≤ c) :
    (ps.modify 0 (setFailFlag crashFail)).getD c {} = ps.getD c {} := by
  obtain ⟨n, rfl⟩ : ∃ n, c = n + 1 := ⟨c - 1, by omega⟩
  exact getD_flagged_succ ps n

end

/-- A second failed server ends at the second client, whose order does not know it. -/
theorem insertClients_second {srvNum : Nat} {draws : FailDraws srvNum} {i srv srv' : Nat} {ps : Group} (positive : 0 < srvNum)
    (two : srvNum + 1 < ps.length) (order : (ps.getD srvNum {}).srvFailOrder.Perm [startCode srv, endCode srv])
    (apart : srv' ≠ srv) : insertClients draws i srv' ps = none := by
  unfold insertClients
  obtain ⟨n, more⟩ : ∃ n, ps.length - srvNum = n + 2 := ⟨ps.length - srvNum - 2, by omega⟩
  rw [more, List.range'_succ, List.foldlM_cons]
  cases inserted : insertClient (draws.position i srvNum) (i == 0) srv' srvNum ps srvNum with
  | none => rfl
  | some ps1 =>
    obtain ⟨start, stop, _, _, rfl⟩ := (insertClient_paired (Nat.ne_of_gt positive) inserted).pair
    have kept : (((withOrder ps srvNum srvNum).set srvNum (synced start stop
        { (withOrder ps srvNum srvNum).getD srvNum {} with
          syncIdx := if (i == 0) = true then 0 else ((withOrder ps srvNum srvNum).getD srvNum {}).syncIdx }
        srvNum srv')).getD srvNum {}).srvFailOrder = (ps.getD srvNum {}).srvFailOrder := by
      rw [getD_set _ srvNum srvNum _ (by rw [length_withOrder]; omega), if_pos rfl, withOrder_self]
      rfl
    have taken : (ps.getD srvNum {}).srvFailOrder ≠ [] := by
      intro none
      rw [none] at order
      cases List.nil_perm.mp order
    have unknown : startCode srv' ∉ (ps.getD srvNum {}).srvFailOrder := by
      rw [order.mem_iff, List.mem_cons, List.mem_singleton, startCode_inj]
      rintro (same | same)
      · exact apart same
      · exact startCode_ne_endCode _ _ same
    dsimp only [Option.bind_eq_bind, Option.bind_some]
    rw [List.range'_succ, List.foldlM_cons, insertClient_unknown _ _ (Nat.lt_succ_self srvNum) (by rw [kept]; exact taken)
      (by rw [kept]; exact unknown)]
    rfl

/-- The failure calls of the program have a constant as their first argument. -/
def ConstOrders (p : Prog) : Prop :=
  ∀ call ∈ p.calls, call.isFCall = true → ∃ val, call.args.head? = some (.const val)

theorem ConstOrders.curOrder {p : Prog} (consts : ConstOrders p) : ∃ order, curOrder p = some order := by
  refine ⟨_, mapM_eq_some_map (h := constOf) fun call member => ?_⟩
  obtain ⟨inside, failure⟩ := List.mem_filter.mp member
  obtain ⟨val, head⟩ := consts call inside failure
  rw [constOf, head]

theorem ConstOrders.synced {p : Prog} (consts : ConstOrders p) (start stop clt srv : Nat) (idx : UInt64) :
    ConstOrders (synced start stop { p with syncIdx := idx } clt srv) := by
  intro call member failure
  have cases : call ∈ p.calls ∨ ∃ id, call = syncCall id clt := by
    dsimp only [Failure.synced, insertPair] at member
    rcases List.mem_append.mp member with before | member
    · exact Or.inl (List.mem_of_mem_take before)
    · rcases List.mem_cons.mp member with first | member
      · exact Or.inr ⟨_, first⟩
      · rcases List.mem_append.mp member with between | member
        · exact Or.inl (List.mem_of_mem_take (List.mem_of_mem_drop between))
        · rcases List.mem_cons.mp member with second | behind
          · exact Or.inr ⟨_, second⟩
          · exact Or.inl (List.mem_of_mem_drop behind)
  rcases cases with old | ⟨id, rfl⟩
  · exact consts call old failure
  · exact ⟨id, rfl⟩

theorem failRounds_single {gen : FailGen} {srvNum : Nat} {draws : FailDraws srvNum} {nodecrash netfailure : Bool}
    (enabled : (nodecrash || netfailure) = true) (positive : 0 < srvNum) (srvs : List Nat) (servers : ∀ srv ∈ srvs, srv < srvNum) :
    ∀ (i : Nat) (srvStartIdx : UInt64) (ps : Group), ps.length = srvNum + 1 → ConstOrders (ps.getD srvNum {}) →
      ∃ ps', failRounds gen draws nodecrash netfailure i srvs srvStartIdx ps = some ps' ∧ ps'.length = srvNum + 1 ∧
        ConstOrders (ps'.getD srvNum {}) := by
  induction srvs with
  | nil => exact fun i srvStartIdx ps length consts => ⟨ps, rfl, length, consts⟩
  | cons srv rest ih =>
    intro i srvStartIdx ps length consts
    obtain ⟨crashFail, kind⟩ := failureKind_some enabled (draws.crashCoin i)
    obtain ⟨next, round⟩ := @failRounds_cons gen srvNum draws nodecrash netfailure i srv rest srvStartIdx ps crashFail kind
    rw [round]
    have own := @withBlock_client gen srvNum draws i srv srvStartIdx crashFail ps srvNum (servers srv List.mem_cons_self)
      (Nat.le_refl _)
    have blockLength := @length_withBlock gen srvNum draws i srv srvStartIdx crashFail ps
    generalize withBlock gen draws i srv srvStartIdx crashFail ps = base at own blockLength
    obtain ⟨ps1, inserted⟩ := insertClient_first (draws.position i srvNum) (i == 0) srv positive base
    obtain ⟨start, stop, _, _, result⟩ := (insertClient_paired (Nat.ne_of_gt positive) inserted).pair
    have clients : insertClients draws i srv base = some ps1 := by
      unfold insertClients
      rw [blockLength, length, Nat.add_sub_cancel_left, List.range'_one, List.foldlM_cons, inserted]
      rfl
    rw [clients, Option.bind_some]
    refine ih (fun s member => servers s (List.mem_cons_of_mem _ member)) _ _ _ ?_ ?_
    · rw [List.length_modify, result, List.length_set, length_withOrder, blockLength, length]
    · rw [getD_flagged_client positive (Nat.le_refl _), result,
        getD_set _ srvNum srvNum _ (by rw [length_withOrder, blockLength, length]; omega), if_pos rfl, withOrder_self, own]
      exact consts.synced _ _ _ _ _

/-! ### When the insertion is safe -/

theorem mem_drop_getD {g : Group} {srvNum : Nat} {p : Prog} (member : p ∈ g.drop srvNum) :
    ∃ c, srvNum ≤ c ∧ c < g.length ∧ g.getD c {} = p := by
  obtain ⟨k, bound, rfl⟩ := List.mem_iff_getElem.mp member
  rw [List.length_drop] at bound
  refine ⟨srvNum + k, by omega, by omega, ?_⟩
  rw [List.getElem_drop, List.getD_eq_getElem?_getD, List.getElem?_eq_getElem (by omega), Option.getD_some]

theorem randomInsertFailure_safe_iff (gen : FailGen) {srvNum : Nat} (draws : FailDraws srvNum) {nodecrash netfailure : Bool}
    {ps : Group} (fresh : NoFailureSyncs ps srvNum) (positive : 0 < srvNum) (clients : srvNum < ps.length)
    (enabled : (nodecrash || netfailure) = true) :
    (∃ ps', randomInsertFailure gen draws nodecrash netfailure ps = some ps' ∧ cmpProgs ps' srvNum = some ()) ↔
      draws.randomSrvs.length = 1 ∨ ps.length = srvNum + 1 := by
  unfold randomInsertFailure
  rw [if_neg (Nat.ne_of_gt positive)]
  have servers := fun srv => @mem_randomSrvs srvNum draws srv
  have distinct := randomSrvs_nodup draws
  have nonempty := randomSrvs_ne_nil draws positive
  generalize draws.randomSrvs = srvs at *
  cases srvs with
  | nil => exact absurd rfl nonempty
  | cons srv rest =>
    have server := servers srv List.mem_cons_self
    obtain ⟨crashFail, kind⟩ := failureKind_some enabled (draws.crashCoin 0)
    obtain ⟨next, round⟩ := @failRounds_cons gen srvNum draws nodecrash netfailure 0 srv rest 0 ps crashFail kind
    obtain ⟨ps1, inserted, first⟩ := insertClients_first draws srv
      (@NoFailureSyncs.withBlock gen srvNum draws 0 srv 0 crashFail ps fresh server) positive (by rwa [length_withBlock])
    have length : ps1.length = ps.length := first.length.trans length_withBlock
    constructor
    · rintro ⟨ps', run, _⟩
      by_contra unsafe_case
      obtain ⟨more, several⟩ := not_or.mp unsafe_case
      cases rest with
      | nil => exact more rfl
      | cons srv' rest =>
        have apart : srv' ≠ srv := by
          rintro rfl
          exact (List.nodup_cons.mp distinct).1 List.mem_cons_self
        obtain ⟨crashFail', kind'⟩ := failureKind_some enabled (draws.crashCoin 1)
        obtain ⟨next', round'⟩ := @failRounds_cons gen srvNum draws nodecrash netfailure 1 srv' rest next
          (ps1.modify 0 (setFailFlag crashFail)) crashFail' kind'
        have same : (withBlock gen draws 1 srv' next crashFail' (ps1.modify 0 (setFailFlag crashFail))).getD srvNum {} =
            ps1.getD srvNum {} := by
          rw [withBlock_client (servers srv' (List.mem_cons_of_mem _ List.mem_cons_self)) (Nat.le_refl _),
            getD_flagged_client positive (Nat.le_refl _)]
        have stuck := @insertClients_second srvNum draws 1 srv srv'
          (withBlock gen draws 1 srv' next crashFail' (ps1.modify 0 (setFailFlag crashFail))) positive
          (by rw [length_withBlock, List.length_modify, length]; omega)
          (by rw [same]; exact first.taken (by rw [length_withBlock]; omega)) apart
        rw [round, inserted, Option.bind_some, round', stuck] at run
        cases run
    · rintro (single | single)
      · have last : rest = [] := by simpa using single
        subst last
        rw [round, inserted, Option.bind_some]
        refine ⟨_, rfl, @cmpProgs_accepts _ srvNum [0, 1] fun p member => ?_⟩
        obtain ⟨c, client, bound, rfl⟩ := mem_drop_getD member
        rw [List.length_modify, length] at bound
        rw [getD_flagged_client positive client]
        exact first.paired c client (by rwa [length_withBlock])
      · have consts : ConstOrders (ps.getD srvNum {}) := fun call member failure =>
          absurd failure (by rw [fresh.calls srvNum ⟨Nat.le_refl _, clients⟩ call member]; decide)
        obtain ⟨ps', run, length', consts'⟩ := @failRounds_single gen srvNum draws nodecrash netfailure enabled positive (srv :: rest)
          servers 0 0 ps single consts
        obtain ⟨order, known⟩ := consts'.curOrder
        refine ⟨ps', run, @cmpProgs_accepts ps' srvNum order fun p member => ?_⟩
        obtain ⟨c, client, bound, rfl⟩ := mem_drop_getD member
        obtain rfl : c = srvNum := by omega
        exact known

def plainGen : FailGen := ⟨fun name _ => [{ name := name, args := [.const 0] }], fun _ _ => [.const 0]⟩

/-- All servers fail; the positions are the first ones. -/
def allFail (srvNum : Nat) : FailDraws srvNum where
  size := ⟨fun n => n - 1, fun _ positive => Nat.sub_lt positive Nat.one_pos⟩
  perm := List.range srvNum
  perm_range := List.Perm.refl _
  crashCoin := fun _ => true
  partNodes := fun _ => []
  position := fun _ _ => ⟨fun _ => 0, fun _ positive => positive⟩

/-- A server without calls and clients with two and one. -/
def busyGroup : Group :=
  [{}, { calls := [{ name := "mkdir" }, { name := "rmdir" }] }, { calls := [{ name := "sync" }] }]

theorem busyGroup_fresh : NoFailureSyncs busyGroup 1 := by
  have each : ∀ c < 3, (∀ call ∈ (busyGroup.getD c {}).calls, call.isFCall = false) ∧ (busyGroup.getD c {}).srvFailPos = [] ∧
      (busyGroup.getD c {}).srvFailOrder = [] := by decide +kernel
  exact ⟨fun c client => (each c client.2).1, fun c client => (each c client.2).2.1, fun c client => (each c client.2).2.2⟩

theorem randomInsertFailure_safe_one : ∃ ps',
    randomInsertFailure plainGen (allFail 1) true true busyGroup = some ps' ∧ cmpProgs ps' 1 = some () :=
  (randomInsertFailure_safe_iff plainGen (allFail 1) busyGroup_fresh (by decide) (by decide) rfl).mpr (Or.inl (by decide))

/-- Two failed servers and two clients without calls. -/
theorem randomInsertFailure_aborts :
    randomInsertFailure plainGen (allFail 2) true true (List.replicate 4 {}) = none := by
  decide +kernel

end DfsFuzz.Failure
