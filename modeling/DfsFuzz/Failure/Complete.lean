import DfsFuzz.Failure.Rounds

/-!
`insertFailure` enumerates exactly the order-consistent placements. `Realises` says what a group
looks like that carries a placement; the emitted groups carry order-consistent placements, pass
`cmpProgs`, and every order-consistent placement is carried by exactly one of them.
-/

namespace DfsFuzz.Failure
open Interleave Enumerate

/-! ### The servers -/

def failBlock (id : UInt64) (down up : List Call) : List Call :=
  failureCall "syz_failure_recv" [id] :: (down ++ failureCall "syz_failure_send" [id] ::
    failureCall "syz_failure_recv" [id + 1] :: (up ++ [failureCall "syz_failure_send" [id + 1]]))

variable {gen : FailGen} {crashFailure : Bool}

theorem genSrvFailCalls_eq (startIdx : UInt64) (failInfo : SrvFailInfo) (p : Prog) :
    genSrvFailCalls gen startIdx crashFailure failInfo p =
      (insertEnd p (failBlock startIdx (genDownCall gen crashFailure failInfo p) (genUpCall gen crashFailure failInfo)),
        startIdx + 1 + 1) := by
  simp [genSrvFailCalls, genRecvCall, genSendCall, insertEnd, failBlock]

theorem length_failServers (srvComb : List SrvFailInfo) (idx : UInt64) (ps : Group) :
    (failServers gen crashFailure srvComb idx ps).length = ps.length := by
  induction srvComb generalizing idx ps with
  | nil => rfl
  | cons srvItem srvComb ih => rw [failServers, ih, List.length_set]

theorem failServers_other {srvComb : List SrvFailInfo} {s : Nat} (other : s ∉ srvComb.map SrvFailInfo.srv)
    (idx : UInt64) (ps : Group) : (failServers gen crashFailure srvComb idx ps).getD s {} = ps.getD s {} := by
  induction srvComb generalizing idx ps with
  | nil => rfl
  | cons srvItem srvComb ih =>
    rw [List.map_cons, List.mem_cons, not_or] at other
    rw [failServers, ih other.2, getD_set_ne ps _ other.1]

theorem failServers_flags (srvComb : List SrvFailInfo) (idx : UInt64) (ps : Group) (s : Nat) :
    ((failServers gen crashFailure srvComb idx ps).getD s {}).hasCrashFail = (ps.getD s {}).hasCrashFail ∧
      ((failServers gen crashFailure srvComb idx ps).getD s {}).hasNetFail = (ps.getD s {}).hasNetFail := by
  induction srvComb generalizing idx ps with
  | nil => exact ⟨rfl, rfl⟩
  | cons srvItem srvComb ih =>
    rw [failServers, (ih _ _).1, (ih _ _).2, genSrvFailCalls_eq]
    by_cases inside : srvItem.srv < ps.length
    · rw [getD_set ps srvItem.srv s _ inside]
      split_ifs with own
      · subst own
        exact ⟨rfl, rfl⟩
      · exact ⟨rfl, rfl⟩
    · rw [List.set_eq_of_length_le (Nat.le_of_not_lt inside)]
      exact ⟨rfl, rfl⟩

theorem failServers_failed {srvComb : List SrvFailInfo} (distinct : (srvComb.map SrvFailInfo.srv).Nodup)
    {n : Nat} {srvItem : SrvFailInfo} (member : srvComb[n]? = some srvItem) (idx : UInt64) (ps : Group)
    (inside : srvItem.srv < ps.length) :
    ∃ down up, ((failServers gen crashFailure srvComb idx ps).getD srvItem.srv {}).calls =
      (ps.getD srvItem.srv {}).calls ++ failBlock (idx + UInt64.ofNat (2 * n)) down up := by
  induction srvComb generalizing n idx ps with
  | nil => cases member
  | cons head srvComb ih =>
    rw [List.map_cons, List.nodup_cons] at distinct
    rw [failServers, genSrvFailCalls_eq]
    cases n with
    | zero =>
      obtain rfl : head = srvItem := by simpa using member
      refine ⟨genDownCall gen crashFailure head (ps.getD head.srv {}), genUpCall gen crashFailure head, ?_⟩
      rw [failServers_other distinct.1, getD_set ps head.srv head.srv _ inside, if_pos rfl, Nat.mul_zero]
      exact congrArg (fun id => _ ++ failBlock id _ _) (UInt64.add_zero idx).symm
    | succ n =>
      have rest : srvComb[n]? = some srvItem := by simpa using member
      have differ : srvItem.srv ≠ head.srv := by
        intro same
        exact distinct.1 (same ▸ List.mem_map_of_mem (List.mem_of_getElem? rest))
      let p := insertEnd (ps.getD head.srv {}) (failBlock idx (genDownCall gen crashFailure head (ps.getD head.srv {}))
        (genUpCall gen crashFailure head))
      obtain ⟨down, up, eq⟩ :=
        ih distinct.2 rest (idx + 1 + 1) (ps.set head.srv p) (by rw [List.length_set]; exact inside)
      have ids : idx + UInt64.ofNat (2 * (n + 1)) = idx + 1 + 1 + UInt64.ofNat (2 * n) := by
        rw [Nat.mul_add, id_succ _ (2 * n + 1), id_succ]
        ac_rfl
      rw [getD_set_ne ps p differ, ← ids] at eq
      exact ⟨down, up, eq⟩

/-- The group before the enumeration: `insertFailure` flags the first program and gives the
failed servers their blocks. -/
def withBlocks (gen : FailGen) (crashFailure : Bool) (srvComb : List SrvFailInfo) (syncStartIdx : UInt64) (ps : Group) :
    Group :=
  failServers gen crashFailure srvComb syncStartIdx (ps.modify 0 (setFailFlag crashFailure))

theorem getD_flagged_calls (ps : Group) (s : Nat) :
    ((ps.modify 0 (setFailFlag crashFailure)).getD s {}).calls = (ps.getD s {}).calls := by
  cases ps with
  | nil => rfl
  | cons p ps =>
    cases s with
    | zero => cases crashFailure <;> rfl
    | succ s => rfl

theorem getD_flagged_succ (ps : Group) (s : Nat) :
    (ps.modify 0 (setFailFlag crashFailure)).getD (s + 1) {} = ps.getD (s + 1) {} := by
  cases ps with
  | nil => rfl
  | cons p ps => rfl

theorem length_withBlocks (srvComb : List SrvFailInfo) (syncStartIdx : UInt64) (ps : Group) :
    (withBlocks gen crashFailure srvComb syncStartIdx ps).length = ps.length := by
  rw [withBlocks, length_failServers, List.length_modify]

theorem withBlocks_client {srvComb : List SrvFailInfo} {ps : Group} {srvNum c : Nat} (positive : 0 < srvNum)
    (servers : ∀ srvItem ∈ srvComb, srvItem.srv < srvNum) (client : IsClient ps srvNum c) (syncStartIdx : UInt64) :
    (withBlocks gen crashFailure srvComb syncStartIdx ps).getD c {} = ps.getD c {} := by
  have notServer : c ∉ srvComb.map SrvFailInfo.srv := by
    intro member
    obtain ⟨srvItem, inside, rfl⟩ := List.mem_map.mp member
    have := servers srvItem inside
    have := client.1
    omega
  obtain ⟨n, rfl⟩ : ∃ n, c = n + 1 := ⟨c - 1, by have := client.1; omega⟩
  rw [withBlocks, failServers_other notServer, getD_flagged_succ]

theorem withBlocks_flagged {ps : Group} (some : 0 < ps.length) (srvComb : List SrvFailInfo) (syncStartIdx : UInt64) :
    ((withBlocks gen crashFailure srvComb syncStartIdx ps).getD 0 {}).hasCrashFail = true ∨
      ((withBlocks gen crashFailure srvComb syncStartIdx ps).getD 0 {}).hasNetFail = true := by
  rw [withBlocks, (failServers_flags _ _ _ _).1, (failServers_flags _ _ _ _).2]
  cases ps with
  | nil => cases some
  | cons p ps =>
    cases crashFailure with
    | false => exact Or.inr rfl
    | true => exact Or.inl rfl

theorem filter_isFCall_render {ids : Nat → UInt64} {c : Nat} {l : List (Call ⊕ Nat)}
    (plain : ∀ call ∈ lefts l, call.isFCall = false) :
    (l.map (render ids c)).filter (·.isFCall) = (rights l).map fun code => syncCall (ids code) c := by
  induction l with
  | nil => rfl
  | cons x l ih =>
    cases x with
    | inl call =>
      have plain' : ∀ call' ∈ call :: lefts l, call'.isFCall = false := plain
      have tail := ih fun call' member => plain' call' (List.mem_cons_of_mem call member)
      rw [List.map_cons, render, List.filter_cons_of_neg (by simp [plain' call List.mem_cons_self]), tail]
      rfl
    | inr code =>
      have tail := ih plain
      rw [List.map_cons, render, List.filter_cons_of_pos (by rfl), tail]
      rfl

/-- What `curOrder` reads of a failure call with a constant. -/
def constOf (call : Call) : Int64 :=
  match call.args.head? with
  | some (.const val) => val.toInt64
  | _ => 0

theorem curOrder_eq {ids : Nat → UInt64} {c : Nat} {l : List (Call ⊕ Nat)} {p : Prog} (placed : Placed ids c l p)
    (plain : ∀ call ∈ lefts l, call.isFCall = false) :
    curOrder p = some ((rights l).map fun code => (ids code).toInt64) := by
  rw [curOrder, placed.calls, filter_isFCall_render plain]
  rw [mapM_eq_some_map (h := constOf)]
  · simp [Function.comp_def, constOf, syncCall, failureCall]
  · intro call member
    obtain ⟨code, -, rfl⟩ := List.mem_map.mp member
    rfl

theorem cmpOrder_accepts {order : List Int64} {progs : List Prog} (same : ∀ p ∈ progs, curOrder p = some order)
    {last : Option (List Int64)} (start : last = none ∨ last = some order) :
    ∃ last', progs.foldlM cmpOrder last = some last' := by
  induction progs generalizing last with
  | nil => exact ⟨last, rfl⟩
  | cons p progs ih =>
    have step : cmpOrder last p = some (some order) := by
      rcases start with rfl | rfl <;> simp [cmpOrder, same p List.mem_cons_self]
    rw [List.foldlM_cons, step]
    exact ih (fun q member => same q (List.mem_cons_of_mem p member)) (Or.inr rfl)

theorem cmpProgs_accepts {g : Group} {srvNum : Nat} {order : List Int64}
    (same : ∀ p ∈ g.drop srvNum, curOrder p = some order) : cmpProgs g srvNum = some () := by
  obtain ⟨last, eq⟩ := cmpOrder_accepts same (Or.inl rfl)
  rw [cmpProgs, eq]
  split_ifs <;> rfl

/-! ### Order-consistent placements and the emitted groups -/

def clientsOnly (ps : Group) (srvNum : Nat) (π : Placement) : Placement := fun c =>
  if srvNum ≤ c ∧ c < ps.length then π c else []

variable {ps base : Group} {srvNum : Nat} {srvs : List Nat} {π : Placement} {idx : UInt64}

theorem clientsOnly_client {c : Nat} (client : IsClient ps srvNum c) : clientsOnly ps srvNum π c = π c := if_pos client

theorem clientsOnly_idem (π : Placement) : clientsOnly ps srvNum (clientsOnly ps srvNum π) = clientsOnly ps srvNum π := by
  funext c
  unfold clientsOnly
  split_ifs <;> rfl

theorem stage_done (srvs : List Nat) {c : Nat} (client : IsClient base srvNum c) :
    stage srvNum srvs base.length [] c = srvs := by
  simp [stage, Nat.not_lt.mpr client.1, client.2]

theorem filter_codes_eq_self {xs : List Nat} (perm : xs.Perm (codes srvs)) :
    xs.filter (fun code => decide (code ∈ codes srvs)) = xs :=
  List.filter_eq_self.mpr fun _ member => decide_eq_true (perm.mem_iff.mp member)

theorem OrderConsistent.consistent (first : IsClient ps srvNum srvNum) (consistent : OrderConsistent ps srvNum srvs π) :
    Consistent ps srvNum (stage srvNum srvs ps.length []) (clientsOnly ps srvNum π) where
  outside c outside := if_neg outside
  calls c client := by
    rw [clientsOnly_client client]
    exact consistent.calls c client
  once c client := by
    rw [clientsOnly_client client, stage_done srvs client]
    exact consistent.once c client
  ordered c client := by
    rw [clientsOnly_client client, stage_done srvs client]
    exact consistent.ordered c client
  agrees c client other := by
    rw [clientsOnly_client client, clientsOnly_client first, stage_done srvs client,
      filter_codes_eq_self (consistent.once srvNum first)]
    exact consistent.sameOrder c srvNum client first

theorem Consistent.orderConsistent (first : IsClient ps srvNum srvNum)
    (consistent : Consistent ps srvNum (stage srvNum srvs ps.length []) π) : OrderConsistent ps srvNum srvs π := by
  have once : ∀ c, IsClient ps srvNum c → (rights (π c)).Perm (codes srvs) := fun c client =>
    stage_done srvs client ▸ consistent.once c client
  have lead : ∀ c, IsClient ps srvNum c → rights (π c) = rights (π srvNum) := by
    intro c client
    by_cases same : c = srvNum
    · rw [same]
    · rw [consistent.agrees c client same, stage_done srvs client, filter_codes_eq_self (once srvNum first)]
  refine ⟨consistent.calls, once, ?_, ?_⟩
  · intro c client
    exact stage_done srvs client ▸ consistent.ordered c client
  · intro c c' client client'
    rw [lead c client, lead c' client']

theorem OrderConsistent.congr (length : base.length = ps.length)
    (clients : ∀ c, IsClient ps srvNum c → base.getD c {} = ps.getD c {}) :
    OrderConsistent base srvNum srvs π ↔ OrderConsistent ps srvNum srvs π := by
  have same : ∀ c, IsClient base srvNum c ↔ IsClient ps srvNum c := fun c => by rw [IsClient, IsClient, length]
  constructor
  · rintro ⟨calls, once, ordered, sameOrder⟩
    simp only [same] at calls once ordered sameOrder
    exact ⟨fun c client => clients c client ▸ calls c client, once, ordered, sameOrder⟩
  · rintro ⟨calls, once, ordered, sameOrder⟩
    simp only [← same] at calls once ordered sameOrder
    exact ⟨fun c client => clients c ((same c).mp client) ▸ calls c client, once, ordered, sameOrder⟩

/-- The group carries the placement: the failed servers have their blocks, the other servers are
as before, and every client is its list of calls and syncs, with `SrvFailPos` listing exactly
the positions of the syncs. -/
structure Realises (ps : Group) (srvComb : List SrvFailInfo) (syncStartIdx idx : UInt64) (srvNum : Nat) (π : Placement)
    (g : Group) : Prop where
  length : g.length = ps.length
  failed : ∀ (n : Nat) (srvItem : SrvFailInfo), srvComb[n]? = some srvItem → ∃ down up,
    (g.getD srvItem.srv {}).calls =
      (ps.getD srvItem.srv {}).calls ++ failBlock (syncStartIdx + UInt64.ofNat (2 * n)) down up
  spared : ∀ s, s < srvNum → s ∉ srvComb.map SrvFailInfo.srv → (g.getD s {}).calls = (ps.getD s {}).calls
  client : ∀ c, IsClient ps srvNum c → Placed (syncId (srvComb.map SrvFailInfo.srv) idx) c (π c) (g.getD c {})

theorem tracks_realises {srvComb : List SrvFailInfo} {syncStartIdx : UInt64} {g : Group} {done : Nat → List Nat}
    (clients : srvNum < ps.length) (servers : ∀ srvItem ∈ srvComb, srvItem.srv < srvNum)
    (distinct : (srvComb.map SrvFailInfo.srv).Nodup)
    (tracks : Tracks (withBlocks gen crashFailure srvComb syncStartIdx ps) srvNum
      (syncId (srvComb.map SrvFailInfo.srv) idx) idx done g) :
    Realises ps srvComb syncStartIdx idx srvNum π g ↔ placementOf srvNum g = clientsOnly ps srvNum π := by
  have length : g.length = ps.length := tracks.length.trans (length_withBlocks _ _ _)
  have same : ∀ c, IsClient (withBlocks gen crashFailure srvComb syncStartIdx ps) srvNum c ↔ IsClient ps srvNum c :=
    fun c => by rw [IsClient, IsClient, length_withBlocks]
  constructor
  · intro realises
    funext c
    by_cases client : IsClient ps srvNum c
    · rw [clientsOnly_client client, ← (realises.client c client).placeOf_eq]
      exact if_pos ⟨client.1, length.symm ▸ client.2⟩
    · have outside : ¬ (srvNum ≤ c ∧ c < g.length) := length.symm ▸ client
      exact (if_neg outside).trans (if_neg client).symm
  · intro shown
    refine ⟨length, ?_, ?_, ?_⟩
    · intro n srvItem member
      have server := servers srvItem (List.mem_of_getElem? member)
      have inside : srvItem.srv < (ps.modify 0 (setFailFlag crashFailure)).length := by
        rw [List.length_modify]
        omega
      rw [tracks.server _ server, withBlocks, ← @getD_flagged_calls crashFailure ps srvItem.srv]
      exact failServers_failed distinct member _ _ inside
    · intro s server spared
      rw [tracks.server s server, withBlocks, failServers_other spared, getD_flagged_calls]
    · intro c client
      have placed := tracks.placed c ((same c).mpr client)
      rw [shown, clientsOnly_client client] at placed
      exact placed

theorem Realises.cmpProgs {srvComb : List SrvFailInfo} {syncStartIdx : UInt64} {g : Group}
    (realises : Realises ps srvComb syncStartIdx idx srvNum π g) (fresh : NoFailureSyncs ps srvNum)
    (consistent : OrderConsistent ps srvNum srvs π) : cmpProgs g srvNum = some () := by
  refine @cmpProgs_accepts g srvNum
    ((rights (π srvNum)).map fun code => (syncId (srvComb.map SrvFailInfo.srv) idx code).toInt64) ?_
  intro p member
  obtain ⟨n, inside, rfl⟩ := List.mem_iff_getElem.mp member
  rw [List.length_drop] at inside
  have bound : srvNum + n < g.length := by omega
  have client : IsClient ps srvNum (srvNum + n) := ⟨Nat.le_add_right _ _, realises.length ▸ bound⟩
  have first : IsClient ps srvNum srvNum := ⟨Nat.le_refl _, Nat.lt_of_le_of_lt client.1 client.2⟩
  have plain : ∀ call ∈ lefts (π (srvNum + n)), call.isFCall = false := by
    rw [consistent.calls _ client]
    exact fresh.calls _ client
  have order := curOrder_eq (realises.client _ client) plain
  rw [consistent.sameOrder _ _ client first] at order
  have read : g.getD (srvNum + n) {} = g[srvNum + n] := by simp [List.getD_eq_getElem?_getD, bound]
  rw [List.getElem_drop, ← read]
  exact order

/-- The ids of a server's syncs are the ids of its block exactly when the ids of the clients and
those of the blocks start alike. -/
theorem syncId_eq_block_iff {srvComb : List SrvFailInfo} (distinct : (srvComb.map SrvFailInfo.srv).Nodup)
    {n : Nat} {srvItem : SrvFailInfo} (member : srvComb[n]? = some srvItem) (idx syncStartIdx : UInt64) :
    syncId (srvComb.map SrvFailInfo.srv) idx (startCode srvItem.srv) = syncStartIdx + UInt64.ofNat (2 * n) ∧
        syncId (srvComb.map SrvFailInfo.srv) idx (endCode srvItem.srv) = syncStartIdx + UInt64.ofNat (2 * n) + 1 ↔
      idx = syncStartIdx := by
  obtain ⟨inside, rfl⟩ := List.getElem?_eq_some_iff.mp member
  have split : srvComb.map SrvFailInfo.srv =
      (srvComb.map SrvFailInfo.srv).take n ++ srvComb[n].srv :: (srvComb.map SrvFailInfo.srv).drop (n + 1) := by
    have cut := List.take_append_drop n (srvComb.map SrvFailInfo.srv)
    rw [List.drop_eq_getElem_cons (by rw [List.length_map]; exact inside), List.getElem_map] at cut
    exact cut.symm
  have fresh : srvComb[n].srv ∉ (srvComb.map SrvFailInfo.srv).take n := by
    rw [split] at distinct
    intro early
    exact (List.nodup_append.mp distinct).2.2 _ early _ List.mem_cons_self rfl
  obtain ⟨start, stop⟩ := @syncId_eq _ ((srvComb.map SrvFailInfo.srv).drop (n + 1)) _ fresh idx
  have place : ((srvComb.map SrvFailInfo.srv).take n).length = n := by
    rw [List.length_take, List.length_map]
    omega
  rw [← split, place] at start stop
  rw [start, stop]
  constructor
  · intro same
    exact (UInt64.add_left_inj _).mp same.1
  · rintro rfl
    exact ⟨rfl, rfl⟩

section Emitted

variable {srvComb : List SrvFailInfo} {syncStartIdx : UInt64}

theorem insertFailure_queueInv (positive : 0 < srvNum) (clients : srvNum < ps.length)
    (servers : ∀ srvItem ∈ srvComb, srvItem.srv < srvNum) (distinct : (srvComb.map SrvFailInfo.srv).Nodup)
    (fresh : NoFailureSyncs ps srvNum) (equal : ∀ c, IsClient ps srvNum c → (ps.getD c {}).syncIdx = idx) :
    ∃ emitted, insertFailure gen ps srvComb syncStartIdx crashFailure srvNum = some emitted ∧
      QueueInv (withBlocks gen crashFailure srvComb syncStartIdx ps) srvNum (syncId (srvComb.map SrvFailInfo.srv) idx) idx
        (stage srvNum (srvComb.map SrvFailInfo.srv) (withBlocks gen crashFailure srvComb syncStartIdx ps).length [])
        emitted := by
  have length := @length_withBlocks gen crashFailure srvComb syncStartIdx ps
  have same : ∀ c, IsClient (withBlocks gen crashFailure srvComb syncStartIdx ps) srvNum c → IsClient ps srvNum c :=
    fun c client => ⟨client.1, length ▸ client.2⟩
  have kept := fun c client => @withBlocks_client gen crashFailure _ _ _ c positive servers (same c client) syncStartIdx
  have first : IsClient (withBlocks gen crashFailure srvComb syncStartIdx ps) srvNum srvNum :=
    ⟨Nat.le_refl _, length.symm ▸ clients⟩
  have fresh' : NoFailureSyncs (withBlocks gen crashFailure srvComb syncStartIdx ps) srvNum :=
    ⟨fun c client => (kept c client).symm ▸ fresh.calls c (same c client),
      fun c client => (kept c client).symm ▸ fresh.positions c (same c client),
      fun c client => (kept c client).symm ▸ fresh.order c (same c client)⟩
  have init := @queueInv_init _ _ (srvComb.map SrvFailInfo.srv) idx fresh' (syncId (srvComb.map SrvFailInfo.srv) idx) first
    fun c client => (kept c client).symm ▸ equal c (same c client)
  exact all_rounds positive srvComb distinct (Nat.le_refl srvNum) (Nat.add_sub_cancel' (Nat.le_of_lt first.2)) init

theorem queueInv_orderConsistent {ids : Nat → UInt64} {emitted : List Group} (positive : 0 < srvNum)
    (clients : srvNum < ps.length) (servers : ∀ srvItem ∈ srvComb, srvItem.srv < srvNum)
    (inv : QueueInv (withBlocks gen crashFailure srvComb syncStartIdx ps) srvNum ids idx
      (stage srvNum srvs (withBlocks gen crashFailure srvComb syncStartIdx ps).length []) emitted) :
    Enumerates (placementOf srvNum)
      (fun π => OrderConsistent ps srvNum srvs π ∧ clientsOnly ps srvNum π = π) emitted := by
  have length := @length_withBlocks gen crashFailure srvComb syncStartIdx ps
  have first : IsClient (withBlocks gen crashFailure srvComb syncStartIdx ps) srvNum srvNum :=
    ⟨Nat.le_refl _, length.symm ▸ clients⟩
  have congr := fun π => @OrderConsistent.congr ps (withBlocks gen crashFailure srvComb syncStartIdx ps) srvNum srvs π
    length fun c client => withBlocks_client positive servers client syncStartIdx
  have only : ∀ π, clientsOnly (withBlocks gen crashFailure srvComb syncStartIdx ps) srvNum π = clientsOnly ps srvNum π :=
    fun π => funext fun c => by simp only [clientsOnly, length]
  refine inv.lists.congr fun π => ?_
  constructor
  · intro consistent
    refine ⟨(congr π).mp (consistent.orderConsistent first), ?_⟩
    funext c
    by_cases client : IsClient ps srvNum c
    · exact clientsOnly_client client
    · exact (if_neg client).trans (consistent.outside c (by rw [IsClient, length]; exact client)).symm
  · rintro ⟨consistent, own⟩
    have whole := ((congr π).mpr consistent).consistent first
    rw [only, own] at whole
    exact whole

end Emitted

/-- Failure injection is order-consistent and complete. Every emitted group carries an
order-consistent placement and is accepted by `cmpProgs`; every order-consistent placement is
carried by exactly one emitted group; and the sync ids of a server in the clients are the ids of
its recv/send block exactly when `syncStartIdx` is the clients' `SyncIdx`. -/
theorem insertFailure_complete (gen : FailGen) (crashFailure : Bool) (syncStartIdx : UInt64) {srvComb : List SrvFailInfo}
    (positive : 0 < srvNum) (clients : srvNum < ps.length) (servers : ∀ srvItem ∈ srvComb, srvItem.srv < srvNum)
    (distinct : (srvComb.map SrvFailInfo.srv).Nodup) (fresh : NoFailureSyncs ps srvNum)
    (equal : ∀ c, IsClient ps srvNum c → (ps.getD c {}).syncIdx = idx) :
    ∃ emitted, insertFailure gen ps srvComb syncStartIdx crashFailure srvNum = some emitted ∧
      (∀ g ∈ emitted,
        (∃ π, OrderConsistent ps srvNum (srvComb.map SrvFailInfo.srv) π ∧
          Realises ps srvComb syncStartIdx idx srvNum π g) ∧
        ((g.getD 0 {}).hasCrashFail = true ∨ (g.getD 0 {}).hasNetFail = true) ∧ cmpProgs g srvNum = some ()) ∧
      (∀ π, OrderConsistent ps srvNum (srvComb.map SrvFailInfo.srv) π →
        ∃! i : Fin emitted.length, Realises ps srvComb syncStartIdx idx srvNum π (emitted.get i)) ∧
      (∀ (n : Nat) (srvItem : SrvFailInfo), srvComb[n]? = some srvItem →
        (syncId (srvComb.map SrvFailInfo.srv) idx (startCode srvItem.srv) = syncStartIdx + UInt64.ofNat (2 * n) ∧
            syncId (srvComb.map SrvFailInfo.srv) idx (endCode srvItem.srv) = syncStartIdx + UInt64.ofNat (2 * n) + 1 ↔
          idx = syncStartIdx)) := by
  obtain ⟨emitted, eq, inv⟩ := @insertFailure_queueInv gen crashFailure ps srvNum idx srvComb syncStartIdx positive clients
    servers distinct fresh equal
  have lists := queueInv_orderConsistent positive clients servers inv
  have realises : ∀ g ∈ emitted, ∀ π, Realises ps srvComb syncStartIdx idx srvNum π g ↔
      placementOf srvNum g = clientsOnly ps srvNum π := fun g member π =>
    tracks_realises clients servers distinct (inv.written g member).tracks
  refine ⟨emitted, eq, ?_, ?_, fun n srvItem member => syncId_eq_block_iff distinct member idx syncStartIdx⟩
  · intro g member
    obtain ⟨consistent, own⟩ := lists.sound member
    have carried := (realises g member _).mpr own.symm
    refine ⟨⟨_, consistent, carried⟩, ?_, ?_⟩
    · rw [(inv.written g member).tracks.server 0 positive]
      exact withBlocks_flagged (Nat.zero_lt_of_lt clients) srvComb syncStartIdx
    · exact carried.cmpProgs fresh consistent
  · intro π consistent
    have first : IsClient ps srvNum srvNum := ⟨Nat.le_refl _, clients⟩
    have whole := (consistent.consistent first).orderConsistent first
    refine (existsUnique_congr fun i => ?_).mp (lists.existsUnique ⟨whole, clientsOnly_idem π⟩)
    exact (realises _ (List.get_mem emitted i) π).symm

def sampleGen : FailGen where
  generateParticularCall name _ := [{ name := name }]
  netDownArgs _ _ := []

def sampleGroup (cltSyncIdx : UInt64) : Group :=
  [{}, { calls := [{ name := "open" }], syncIdx := cltSyncIdx }, { calls := [{ name := "read" }], syncIdx := cltSyncIdx }]

theorem sampleGroup_client {idx : UInt64} {c : Nat} (client : IsClient (sampleGroup idx) 1 c) : c = 1 ∨ c = 2 := by
  have first := client.1
  have last : c < 3 := client.2
  omega

theorem sampleGroup_fresh (idx : UInt64) : NoFailureSyncs (sampleGroup idx) 1 where
  calls c client := by
    rcases sampleGroup_client client with rfl | rfl <;> simp [sampleGroup]
  positions c client := by
    rcases sampleGroup_client client with rfl | rfl <;> rfl
  order c client := by
    rcases sampleGroup_client client with rfl | rfl <;> rfl

theorem sampleGroup_equal (idx : UInt64) (c : Nat) (client : IsClient (sampleGroup idx) 1 c) :
    ((sampleGroup idx).getD c {}).syncIdx = idx := by
  rcases sampleGroup_client client with rfl | rfl <;> rfl

theorem insertFailure_complete_sample :
    ∃ emitted, insertFailure sampleGen (sampleGroup 0) [{ srv := 0 }] 0 true 1 = some emitted ∧
      ∀ π, OrderConsistent (sampleGroup 0) 1 [0] π →
        ∃! i : Fin emitted.length, Realises (sampleGroup 0) [{ srv := 0 }] 0 0 1 π (emitted.get i) := by
  have servers : ∀ srvItem ∈ [({ srv := 0 } : SrvFailInfo)], srvItem.srv < 1 := by simp
  obtain ⟨emitted, eq, -, unique, -⟩ := insertFailure_complete sampleGen true 0 Nat.one_pos (by decide) servers
    (by decide) (sampleGroup_fresh 0) (sampleGroup_equal 0)
  exact ⟨emitted, eq, unique⟩

def callIds (name : String) (p : Prog) : List UInt64 :=
  p.calls.filterMap fun call =>
    if call.name = name then
      match call.args.head? with
      | some (.const val) => some val
      | _ => none
    else none

/-- The blocks start at the `SyncIdx` of the first server, which the caller passes, and the syncs
at the `SyncIdx` of the clients: every emitted group waits for ids that nobody sends. -/
theorem insertFailure_idsApart :
    NoFailureSyncs (sampleGroup 1) 1 ∧
      (∀ c, IsClient (sampleGroup 1) 1 c → ((sampleGroup 1).getD c {}).syncIdx = 1) ∧
      ((sampleGroup 1).getD 0 {}).syncIdx = 0 ∧
      (insertFailure sampleGen (sampleGroup 1) [{ srv := 0 }] 0 true 1).map
          (List.map fun g => (callIds "syz_failure_recv" (g.getD 0 {}), callIds "syz_failure_send" (g.getD 0 {}),
            callIds "syz_failure_sync" (g.getD 1 {}))) =
        some (List.replicate 9 ([0, 1], [0, 1], [1, 2])) :=
  ⟨sampleGroup_fresh 1, sampleGroup_equal 1, rfl, by decide +kernel⟩

end DfsFuzz.Failure
