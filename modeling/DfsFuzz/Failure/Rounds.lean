import DfsFuzz.Failure.Queue

/-!
The loops of `insertFailure` around `extendQueue`: the servers of one client, then the clients.
The sync id of a code is the first id of the group plus the place of the code in the
enumeration of the servers, in every client alike.
-/

namespace DfsFuzz.Failure
open Interleave Enumerate

def syncId (srvs : List Nat) (idx : UInt64) (code : Nat) : UInt64 := idx + UInt64.ofNat ((codes srvs).idxOf code)

theorem length_codes (srvs : List Nat) : (codes srvs).length = 2 * srvs.length := by
  induction srvs with
  | nil => rfl
  | cons srv srvs ih =>
    rw [codes, List.flatMap_cons, List.length_append, ← codes, ih]
    simp only [List.length_cons, List.length_nil]
    omega

theorem syncId_eq {pre rest : List Nat} {srv : Nat} (fresh : srv ∉ pre) (idx : UInt64) :
    syncId (pre ++ srv :: rest) idx (startCode srv) = idx + UInt64.ofNat (2 * pre.length) ∧
      syncId (pre ++ srv :: rest) idx (endCode srv) = idx + UInt64.ofNat (2 * pre.length) + 1 := by
  have split : codes (pre ++ srv :: rest) = codes pre ++ startCode srv :: endCode srv :: codes rest := by
    simp [codes]
  have start : (codes (pre ++ srv :: rest)).idxOf (startCode srv) = 2 * pre.length := by
    rw [split, List.idxOf_append_of_notMem (by simpa using fresh), List.idxOf_cons_self, length_codes]
    rfl
  have stop : (codes (pre ++ srv :: rest)).idxOf (endCode srv) = 2 * pre.length + 1 := by
    rw [split, List.idxOf_append_of_notMem (by simpa using fresh), length_codes,
      List.idxOf_cons_ne _ (startCode_ne_endCode srv srv), List.idxOf_cons_self]
  exact ⟨by rw [syncId, start], by rw [syncId, stop, id_succ]⟩

/-- The servers each client has when client `clt` is at work and has taken `pre`. -/
def stage (srvNum : Nat) (srvs : List Nat) (clt : Nat) (pre : List Nat) : Nat → List Nat := fun c =>
  if c < srvNum then [] else if c < clt then srvs else if c = clt then pre else []

variable {base : Group} {srvNum clt srv : Nat} {srvs pre rest : List Nat} {idx : UInt64}

theorem stage_own (client : srvNum ≤ clt) : stage srvNum srvs clt pre clt = pre := by
  simp [stage, Nat.not_lt.mpr client]

theorem advance_stage (client : srvNum ≤ clt) :
    advance (stage srvNum srvs clt pre) clt srv = stage srvNum srvs clt (pre ++ [srv]) := by
  funext c
  rw [advance, stage_own client]
  by_cases same : c = clt
  · subst same
    simp [stage, Nat.not_lt.mpr client]
  · simp [stage, same]

theorem stage_next : stage srvNum srvs clt srvs = stage srvNum srvs (clt + 1) [] := by
  funext c
  unfold stage
  split_ifs <;> first | rfl | omega

theorem stage_turn (client : IsClient base srvNum clt) (distinct : srvs.Nodup) (split : srvs = pre ++ srv :: rest) :
    Turn base srvNum (stage srvNum srvs clt pre) clt srv where
  client := client
  distinct c := by
    have before : pre.Nodup := (List.nodup_append.mp (split ▸ distinct)).1
    unfold stage
    split_ifs <;> first | exact distinct | exact before | exact List.nodup_nil
  fresh := by
    rw [stage_own client.1]
    intro member
    exact (List.nodup_append.mp (split ▸ distinct)).2.2 srv member srv List.mem_cons_self rfl
  known other := by
    have behind : srvNum < clt := Nat.lt_of_le_of_ne client.1 (Ne.symm other)
    simp [stage, behind, split]
  leads lead c other := by
    unfold stage
    split_ifs <;> first | rfl | omega

theorem client_rounds (positive : 0 < srvNum) (client : IsClient base srvNum clt) (srvComb : List SrvFailInfo)
    {rest : List SrvFailInfo} {pre : List Nat} (distinct : (srvComb.map SrvFailInfo.srv).Nodup)
    (split : srvComb.map SrvFailInfo.srv = pre ++ rest.map SrvFailInfo.srv) {queue : List Group}
    (inv : QueueInv base srvNum (syncId (srvComb.map SrvFailInfo.srv) idx) idx
      (stage srvNum (srvComb.map SrvFailInfo.srv) clt pre) queue) :
    ∃ queue', rest.foldlM (fun queue srvItem => extendQueue srvNum clt srvItem.srv queue) queue = some queue' ∧
      QueueInv base srvNum (syncId (srvComb.map SrvFailInfo.srv) idx) idx
        (stage srvNum (srvComb.map SrvFailInfo.srv) (clt + 1) []) queue' := by
  induction rest generalizing pre queue with
  | nil =>
    rw [List.map_nil, List.append_nil] at split
    rw [← split, stage_next] at inv
    exact ⟨queue, rfl, inv⟩
  | cons srvItem rest ih =>
    rw [List.map_cons] at split
    have turn := stage_turn client distinct split
    have next : NextIds (syncId (srvComb.map SrvFailInfo.srv) idx) idx
        (stage srvNum (srvComb.map SrvFailInfo.srv) clt pre) clt srvItem.srv := by
      have fresh := turn.fresh
      rw [stage_own client.1] at fresh
      obtain ⟨start, stop⟩ := @syncId_eq pre (rest.map SrvFailInfo.srv) srvItem.srv fresh idx
      rw [← split] at start stop
      exact ⟨by rw [start, stage_own client.1], by rw [stop, stage_own client.1]⟩
    obtain ⟨queue', extended, inv'⟩ := extendQueue_inv inv turn next positive
    rw [advance_stage client.1] at inv'
    obtain ⟨queue'', rounds, inv''⟩ := ih (by rw [split]; simp) inv'
    refine ⟨queue'', ?_, inv''⟩
    rw [List.foldlM_cons, extended]
    exact rounds

theorem all_rounds (positive : 0 < srvNum) (srvComb : List SrvFailInfo)
    (distinct : (srvComb.map SrvFailInfo.srv).Nodup) {k : Nat} (client : srvNum ≤ clt)
    (last : clt + k = base.length) {queue : List Group}
    (inv : QueueInv base srvNum (syncId (srvComb.map SrvFailInfo.srv) idx) idx
      (stage srvNum (srvComb.map SrvFailInfo.srv) clt []) queue) :
    ∃ queue', (List.range' clt k).foldlM (fun queue clt =>
          srvComb.foldlM (fun queue srvItem => extendQueue srvNum clt srvItem.srv queue) queue) queue = some queue' ∧
      QueueInv base srvNum (syncId (srvComb.map SrvFailInfo.srv) idx) idx
        (stage srvNum (srvComb.map SrvFailInfo.srv) base.length []) queue' := by
  induction k generalizing clt queue with
  | zero =>
    rw [Nat.add_zero] at last
    exact ⟨queue, rfl, last ▸ inv⟩
  | succ k ih =>
    obtain ⟨queue', rounds, inv'⟩ :=
      client_rounds positive ⟨client, by omega⟩ srvComb distinct (List.nil_append _).symm inv
    obtain ⟨queue'', more, inv''⟩ := ih (by omega) (by omega) inv'
    refine ⟨queue'', ?_, inv''⟩
    rw [List.range'_succ, List.foldlM_cons, rounds]
    exact more

/-- The clients carry no failure calls and no record of any. -/
structure NoFailureSyncs (ps : Group) (srvNum : Nat) : Prop where
  calls : ∀ c, IsClient ps srvNum c → ∀ call ∈ (ps.getD c {}).calls, call.isFCall = false
  positions : ∀ c, IsClient ps srvNum c → (ps.getD c {}).srvFailPos = []
  order : ∀ c, IsClient ps srvNum c → (ps.getD c {}).srvFailOrder = []

theorem placed_inl {p : Prog} (none : p.srvFailPos = []) (ids : Nat → UInt64) (c : Nat) :
    Placed ids c (p.calls.map Sum.inl) p where
  calls := by
    rw [List.map_map]
    exact (List.map_id _).symm
  located := by
    rw [none]
    refine ⟨List.nodup_nil, ?_⟩
    intro code n
    simp

theorem placementOf_fresh (fresh : NoFailureSyncs base srvNum) {c : Nat} (client : IsClient base srvNum c) :
    placementOf srvNum base c = (base.getD c {}).calls.map Sum.inl := by
  have own := (placed_inl (fresh.positions c client) (fun _ => 0) c).placeOf_eq
  exact (if_pos client).trans own

theorem consistent_nil_iff (fresh : NoFailureSyncs base srvNum) (π : Placement) :
    Consistent base srvNum (fun _ => []) π ↔ π = placementOf srvNum base := by
  constructor
  · intro consistent
    funext c
    by_cases client : IsClient base srvNum c
    · rw [placementOf_fresh fresh client, ← consistent.calls c client]
      exact eq_map_inl (consistent.once c client).eq_nil
    · rw [consistent.outside c client]
      exact (if_neg client).symm
  · rintro rfl
    refine ⟨fun c outside => if_neg outside, ?_, ?_, ?_, ?_⟩
    · intro c client
      rw [placementOf_fresh fresh client, lefts_map_inl]
    · intro c client
      rw [placementOf_fresh fresh client, rights_map_inl]
      exact List.Perm.nil
    · intro c client srv member
      cases member
    · intro c client other
      rw [placementOf_fresh fresh client, rights_map_inl]
      simp [codes]

theorem queueInv_init (fresh : NoFailureSyncs base srvNum) (ids : Nat → UInt64)
    (first : IsClient base srvNum srvNum)
    (equal : ∀ c, IsClient base srvNum c → (base.getD c {}).syncIdx = idx) :
    QueueInv base srvNum ids idx (stage srvNum srvs srvNum []) [base] := by
  have start : stage srvNum srvs srvNum [] = fun _ => [] := by
    funext c
    unfold stage
    split_ifs <;> rfl
  rw [start]
  refine ⟨Enumerates.singleton (consistent_nil_iff fresh), ?_⟩
  intro g member
  obtain rfl := List.mem_singleton.mp member
  refine ⟨⟨rfl, fun _ _ => rfl, ?_, ?_⟩, ⟨fun _ => fresh.order srvNum first, Or.inl (fresh.order srvNum first)⟩⟩
  · intro c client
    rw [placementOf_fresh fresh client]
    exact placed_inl (fresh.positions c client) ids c
  · intro c client
    rw [equal c client]
    exact (UInt64.add_zero idx).symm

end DfsFuzz.Failure
