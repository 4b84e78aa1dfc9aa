import DfsFuzz.Lib.BitWord
import Mathlib.Algebra.GroupWithZero.Nat
import Mathlib.Data.Nat.Find
import Mathlib.Data.List.Nodup
import Mathlib.Data.List.Pairwise
import Mathlib.Data.List.Perm.Basic
import Mathlib.Logic.Relation
import Mathlib.Logic.Function.Basic

/-!
The synchronisation around an injected failure (`executor/common_linux.h`): the leader of a sync id
collects one bit of every other client in `synchBit`, injects its fault and releases the clients.
-/

namespace DfsFuzz.Executor

open DfsFuzz.Lib

inductive FailureCall where
  | sync (idx : UInt8)
  | recv (idx : UInt8)
  | fault (idx : UInt8)
  | send (idx : UInt8)
deriving DecidableEq, Repr

def FailureCall.idx : FailureCall → UInt8
  | sync idx | recv idx | fault idx | send idx => idx

def maxClt : Nat := 3

def shiftBit : Nat := maxClt + 1

/-- `(uint64_t)1 << (idx * SHIFTBIT) << k`. The machine takes a variable shift count modulo 64. -/
def syncBit (idx : UInt8) (k : Nat) : BitVec 64 := 1#64 <<< (idx.toNat * shiftBit % 64) <<< k

/-- Which executors take part, and which of them leads the failure of each id. The ids stand in the
order in which everybody meets them. -/
structure SyncPlan where
  vmCount : Nat
  serverNum : Nat
  ids : List UInt8
  leader : UInt8 → Fin vmCount
  supported : vmCount ≤ 64
  someClient : serverNum < vmCount
  led : ∀ idx ∈ ids, (leader idx).val < serverNum ∨ serverNum = 0 ∧ (leader idx).val = 0

namespace SyncPlan

variable (c : SyncPlan)

instance : NeZero c.vmCount := ⟨Nat.ne_of_gt (Nat.lt_of_le_of_lt (Nat.zero_le _) c.someClient)⟩

def IsClient (e : Fin c.vmCount) : Prop := c.serverNum ≤ e

instance (e : Fin c.vmCount) : Decidable (c.IsClient e) := inferInstanceAs (Decidable (_ ≤ _))

/-- `clt - server_num`, in 64 bits. -/
def cltNo (clt : Nat) : Nat := (2 ^ 64 - c.serverNum + clt) % 2 ^ 64

def clients : Nat := c.vmCount - c.serverNum

def callsOf (e : Fin c.vmCount) (idx : UInt8) : List FailureCall :=
  if c.leader idx = e then [.recv idx, .fault idx, .send idx]
  else if c.IsClient e then [.sync idx]
  else []

def program (e : Fin c.vmCount) : List FailureCall := c.ids.flatMap (c.callsOf e)

end SyncPlan

/-- An executor: its calls to come, the current one first, and how far it is in that call (the loop
counter of `syz_failure_recv`; for `syz_failure_sync` whether its bit is posted). -/
structure ExecState where
  todo : List FailureCall
  pos : Nat := 0
  aborted : Bool := false
deriving DecidableEq

structure SyncState (c : SyncPlan) where
  synchBit : BitVec 64
  exec : Fin c.vmCount → ExecState

variable {call : FailureCall}

namespace SyncState

variable {c : SyncPlan}

def initial (c : SyncPlan) : SyncState c := ⟨0#64, fun e => { todo := c.program e }⟩

def put (s : SyncState c) (e : Fin c.vmCount) (x : ExecState) : SyncState c :=
  { s with exec := Function.update s.exec e x }

/-- One atomic step of an executor; a wait whose test fails is no step. -/
def step (s : SyncState c) (e : Fin c.vmCount) : Option (SyncState c) :=
  if (s.exec e).aborted then none
  else match (s.exec e).todo with
  | [] => none
  | .sync idx :: rest =>
    if (s.exec e).pos = 0 then
      if c.cltNo e ≥ maxClt then some (s.put e { s.exec e with aborted := true })
      else some { s.put e { s.exec e with pos := 1 } with synchBit := s.synchBit ||| syncBit idx (c.cltNo e) }
    else if s.synchBit &&& syncBit idx maxClt ≠ 0#64 then some (s.put e { todo := rest })
    else none
  | .recv idx :: rest =>
    if (s.exec e).pos < c.clients then
      if c.IsClient e ∧ (s.exec e).pos = c.cltNo e then some (s.put e { s.exec e with pos := (s.exec e).pos + 1 })
      else if s.synchBit &&& syncBit idx (s.exec e).pos ≠ 0#64 then
        some (s.put e { s.exec e with pos := (s.exec e).pos + 1 })
      else none
    else some (s.put e { todo := rest })
  | .fault _ :: rest => some (s.put e { todo := rest })
  | .send idx :: rest => some { s.put e { todo := rest } with synchBit := s.synchBit ||| syncBit idx maxClt }

def Steps (s t : SyncState c) : Prop := ∃ e, s.step e = some t

def Reachable (s : SyncState c) : Prop := Relation.ReflTransGen Steps (initial c) s

def Pending (s : SyncState c) (e : Fin c.vmCount) (call : FailureCall) : Prop := call ∈ (s.exec e).todo

/-- The client has posted its bit for this id. -/
def Entered (s : SyncState c) (e : Fin c.vmCount) (idx : UInt8) : Prop :=
  ¬ s.Pending e (.sync idx) ∨ (s.exec e).todo.head? = some (.sync idx) ∧ (s.exec e).pos ≠ 0

/-- A client of the plan that has to sync with the leader of `idx`. -/
structure Follows (c : SyncPlan) (idx : UInt8) (e : Fin c.vmCount) : Prop where
  id : idx ∈ c.ids
  client : c.IsClient e
  other : c.leader idx ≠ e

/-- A leader passes `recv` only after every other client entered, a client passes `sync` only after
the leader's `send`. -/
structure Ordered (s : SyncState c) : Prop where
  recv : ∀ idx e, Follows c idx e → ¬ s.Pending (c.leader idx) (.recv idx) → s.Entered e idx
  sync : ∀ idx e, Follows c idx e → ¬ s.Pending e (.sync idx) → ¬ s.Pending (c.leader idx) (.send idx)

def Finished (s : SyncState c) : Prop := ∀ e, (s.exec e).todo = []

/-- The things a step can do, each with the tests it passed. -/
inductive Moves (s : SyncState c) (e : Fin c.vmCount) (t : SyncState c) : Prop where
  | abort {idx : UInt8} {rest : List FailureCall} (here : (s.exec e).todo = .sync idx :: rest) (many : maxClt ≤ c.cltNo e)
      (next : t = s.put e { s.exec e with aborted := true })
  | post {idx : UInt8} {rest : List FailureCall} (here : (s.exec e).todo = .sync idx :: rest) (fresh : (s.exec e).pos = 0)
      (few : c.cltNo e < maxClt)
      (next : t = { s.put e { s.exec e with pos := 1 } with synchBit := s.synchBit ||| syncBit idx (c.cltNo e) })
  | released {idx : UInt8} {rest : List FailureCall} (here : (s.exec e).todo = .sync idx :: rest)
      (posted : (s.exec e).pos ≠ 0) (flag : s.synchBit &&& syncBit idx maxClt ≠ 0#64) (next : t = s.put e { todo := rest })
  | scanned {idx : UInt8} {rest : List FailureCall} (here : (s.exec e).todo = .recv idx :: rest)
      (inside : (s.exec e).pos < c.clients)
      (seen : c.IsClient e ∧ (s.exec e).pos = c.cltNo e ∨ s.synchBit &&& syncBit idx (s.exec e).pos ≠ 0#64)
      (next : t = s.put e { s.exec e with pos := (s.exec e).pos + 1 })
  | received {idx : UInt8} {rest : List FailureCall} (here : (s.exec e).todo = .recv idx :: rest)
      (all : c.clients ≤ (s.exec e).pos) (next : t = s.put e { todo := rest })
  | injected {idx : UInt8} {rest : List FailureCall} (here : (s.exec e).todo = .fault idx :: rest)
      (next : t = s.put e { todo := rest })
  | sent {idx : UInt8} {rest : List FailureCall} (here : (s.exec e).todo = .send idx :: rest)
      (next : t = { s.put e { todo := rest } with synchBit := s.synchBit ||| syncBit idx maxClt })

theorem step_moves {s t : SyncState c} {e : Fin c.vmCount} (moved : s.step e = some t) : Moves s e t := by
  unfold step at moved
  split at moved
  · cases moved
  · split at moved
    · cases moved
    · rename_i here
      split at moved
      · rename_i fresh
        split at moved
        · rename_i many
          exact .abort here many (Option.some.inj moved).symm
        · rename_i few
          exact .post here fresh (Nat.lt_of_not_ge few) (Option.some.inj moved).symm
      · rename_i posted
        split at moved
        · rename_i flag
          exact .released here posted flag (Option.some.inj moved).symm
        · cases moved
    · rename_i here
      split at moved
      · rename_i inside
        split at moved
        · rename_i own
          exact .scanned here inside (.inl own) (Option.some.inj moved).symm
        · split at moved
          · rename_i seen
            exact .scanned here inside (.inr seen) (Option.some.inj moved).symm
          · cases moved
      · rename_i all
        exact .received here (Nat.le_of_not_lt all) (Option.some.inj moved).symm
    · rename_i here
      exact .injected here (Option.some.inj moved).symm
    · rename_i here
      exact .sent here (Option.some.inj moved).symm

theorem mem_program {e : Fin c.vmCount} (member : call ∈ c.program e) :
    call.idx ∈ c.ids ∧ (c.leader call.idx = e ∧ (call = .recv call.idx ∨ call = .fault call.idx ∨ call = .send call.idx) ∨
      Follows c call.idx e ∧ call = .sync call.idx) := by
  obtain ⟨idx, inside, member⟩ := List.mem_flatMap.mp member
  unfold SyncPlan.callsOf at member
  split at member
  · rename_i leads
    have same : call.idx = idx := by
      simp only [List.mem_cons, List.not_mem_nil, or_false] at member
      rcases member with rfl | rfl | rfl <;> rfl
    subst same
    refine ⟨inside, Or.inl ⟨leads, ?_⟩⟩
    simpa using member
  · rename_i follows
    split at member
    · rename_i client
      have call_eq := List.mem_singleton.mp member
      subst call_eq
      exact ⟨inside, Or.inr ⟨⟨inside, client, follows⟩, rfl⟩⟩
    · cases member

theorem recv_mem {e : Fin c.vmCount} {idx : UInt8} (member : .recv idx ∈ c.program e) : idx ∈ c.ids ∧ c.leader idx = e := by
  obtain ⟨inside, ⟨leads, -⟩ | ⟨-, other⟩⟩ := mem_program member
  · exact ⟨inside, leads⟩
  · cases other

theorem send_mem {e : Fin c.vmCount} {idx : UInt8} (member : .send idx ∈ c.program e) : idx ∈ c.ids ∧ c.leader idx = e := by
  obtain ⟨inside, ⟨leads, -⟩ | ⟨-, other⟩⟩ := mem_program member
  · exact ⟨inside, leads⟩
  · cases other

theorem sync_mem {e : Fin c.vmCount} {idx : UInt8} (member : .sync idx ∈ c.program e) : Follows c idx e := by
  obtain ⟨-, ⟨-, other⟩ | ⟨follows, -⟩⟩ := mem_program member
  · rcases other with other | other | other <;> cases other
  · exact follows

def rankOf (c : SyncPlan) (call : FailureCall) : Nat := c.ids.idxOf call.idx

theorem callsOf_idx {e : Fin c.vmCount} {idx : UInt8} (member : call ∈ c.callsOf e idx) : call.idx = idx := by
  unfold SyncPlan.callsOf at member
  split at member
  · simp only [List.mem_cons, List.not_mem_nil, or_false] at member
    rcases member with rfl | rfl | rfl <;> rfl
  · split at member
    · rw [List.mem_singleton.mp member]
      rfl
    · cases member

theorem callsOf_nodup (e : Fin c.vmCount) (idx : UInt8) : (c.callsOf e idx).Nodup := by
  unfold SyncPlan.callsOf
  split
  · simp
  · split <;> simp

theorem program_nodup (distinct : c.ids.Nodup) (e : Fin c.vmCount) : (c.program e).Nodup := by
  refine List.nodup_flatMap.mpr ⟨fun idx _ => callsOf_nodup e idx, ?_⟩
  refine distinct.imp fun different call first second => different ?_
  rw [← callsOf_idx first, callsOf_idx second]

theorem program_ordered (distinct : c.ids.Nodup) (e : Fin c.vmCount) :
    (c.program e).Pairwise fun a b => rankOf c a ≤ rankOf c b := by
  refine List.pairwise_flatMap.mpr ⟨fun idx _ => ?_, ?_⟩
  · refine List.Pairwise.imp_of_mem (R := fun _ _ => True) ?_ (List.pairwise_of_forall fun _ _ => trivial)
    intro a b first second _
    rw [rankOf, rankOf, callsOf_idx first, callsOf_idx second]
  · rw [List.pairwise_iff_getElem]
    intro i j below bound less a first b second
    rw [rankOf, rankOf, callsOf_idx first, callsOf_idx second, distinct.idxOf_getElem, distinct.idxOf_getElem]
    exact Nat.le_of_lt less

/-- The bit of `synchBit` that stands for the `k`-th flag of an id. -/
def flagAt (idx : UInt8) (k : Nat) : Nat := idx.toNat % 16 * shiftBit + k

theorem syncBit_eq (idx : UInt8) (k : Nat) : syncBit idx k = bit (flagAt idx k) := by
  have count : idx.toNat * shiftBit % 64 = idx.toNat % 16 * shiftBit := by
    unfold shiftBit maxClt
    omega
  rw [syncBit, count, ← BitVec.shiftLeft_add]
  rfl

def Raised (s : SyncState c) (idx : UInt8) (k : Nat) : Prop := s.synchBit.getLsbD (flagAt idx k) = true

theorem raised_iff (s : SyncState c) (idx : UInt8) (k : Nat) : s.synchBit &&& syncBit idx k ≠ 0#64 ↔ s.Raised idx k := by
  rw [syncBit_eq, ne_eq, and_bit_eq_zero_iff, Bool.not_eq_false, Raised]

/-- Every id has four bits of the word for itself. -/
def Apart (c : SyncPlan) : Prop := c.ids.Pairwise fun a b => a.toNat % 16 ≠ b.toNat % 16

theorem Apart.nodup (apart : Apart c) : c.ids.Nodup := apart.imp fun different same => different (by rw [same])

theorem Apart.inj (apart : Apart c) {a b : UInt8} (first : a ∈ c.ids) (second : b ∈ c.ids)
    (same : a.toNat % 16 = b.toNat % 16) : a = b := by
  have symmetric : Std.Symm fun a b : UInt8 => a.toNat % 16 ≠ b.toNat % 16 := ⟨fun _ _ different => different.symm⟩
  by_contra different
  exact apart.forall first second different same

theorem raised_or (apart : Apart c) {s t : SyncState c} {idx idx' : UInt8} {k k' : Nat} (known : idx ∈ c.ids)
    (known' : idx' ∈ c.ids) (flag : k ≤ maxClt) (flag' : k' ≤ maxClt) (word : t.synchBit = s.synchBit ||| syncBit idx k) :
    t.Raised idx' k' ↔ s.Raised idx' k' ∨ idx' = idx ∧ k' = k := by
  have small : flagAt idx' k' < 64 := by
    unfold flagAt shiftBit maxClt at *
    omega
  have here : flagAt idx k = flagAt idx' k' ↔ idx' = idx ∧ k' = k := by
    constructor
    · intro same
      unfold flagAt shiftBit maxClt at same
      unfold maxClt at flag flag'
      exact ⟨apart.inj known' known (by omega), by omega⟩
    · rintro ⟨rfl, rfl⟩
      rfl
  have read : t.synchBit.getLsbD (flagAt idx' k') = (raise s.synchBit (flagAt idx k)).getLsbD (flagAt idx' k') := by
    rw [word, syncBit_eq]
    rfl
  rw [Raised, read, getLsbD_raise, Raised]
  simp [small, here]

theorem cltNo_client {e : Fin c.vmCount} (client : c.IsClient e) : c.cltNo e = e.val - c.serverNum := by
  have small := c.supported
  have bound := e.isLt
  have below : c.serverNum ≤ e.val := client
  unfold SyncPlan.cltNo
  omega

theorem cltNo_lt {e : Fin c.vmCount} (client : c.IsClient e) : c.cltNo e < c.clients := by
  rw [cltNo_client client]
  have bound := e.isLt
  have below : c.serverNum ≤ e.val := client
  unfold SyncPlan.clients
  omega

theorem cltNo_inj {e e' : Fin c.vmCount} (client : c.IsClient e) (client' : c.IsClient e') (same : c.cltNo e = c.cltNo e') : e = e' := by
  rw [cltNo_client client, cltNo_client client'] at same
  have below : c.serverNum ≤ e.val := client
  have below' : c.serverNum ≤ e'.val := client'
  exact Fin.ext (by omega)

section Observed

variable {s t : SyncState c} {e : Fin c.vmCount}

theorem pending_pop {rest : List FailureCall} (distinct : (s.exec e).todo.Nodup)
    (here : (s.exec e).todo = call :: rest) (after : t.exec = Function.update s.exec e { todo := rest })
    (e' : Fin c.vmCount) (x : FailureCall) : t.Pending e' x ↔ s.Pending e' x ∧ ¬ (e' = e ∧ x = call) := by
  rw [here] at distinct
  have fresh := (List.nodup_cons.mp distinct).1
  unfold Pending
  rw [after]
  by_cases own : e' = e
  · subst own
    rw [Function.update_self, here]
    simp only [List.mem_cons, true_and]
    constructor
    · exact fun member => ⟨Or.inr member, fun same => fresh (same ▸ member)⟩
    · exact fun ⟨member, different⟩ => member.resolve_left different
  · rw [Function.update_of_ne own]
    simp [own]

theorem entered_pop {rest : List FailureCall} (distinct : (s.exec e).todo.Nodup)
    (here : (s.exec e).todo = call :: rest) (after : t.exec = Function.update s.exec e { todo := rest })
    (posted : call = .sync call.idx → (s.exec e).pos ≠ 0) (e' : Fin c.vmCount) (idx : UInt8) :
    t.Entered e' idx ↔ s.Entered e' idx := by
  unfold Entered
  rw [pending_pop distinct here after]
  by_cases own : e' = e
  · subst own
    rw [after, Function.update_self, here]
    by_cases same : FailureCall.sync idx = call
    · subst same
      have := posted rfl
      simp [this]
    · have different : call ≠ .sync idx := fun other => same other.symm
      simp [same, different]
  · rw [after, Function.update_of_ne own]
    simp [own]

theorem pending_stay {x : ExecState} (same : x.todo = (s.exec e).todo) (after : t.exec = Function.update s.exec e x)
    (e' : Fin c.vmCount) (call : FailureCall) : t.Pending e' call ↔ s.Pending e' call := by
  unfold Pending
  rw [after]
  by_cases own : e' = e
  · subst own
    rw [Function.update_self, same]
  · rw [Function.update_of_ne own]

end Observed

/-! ### The invariant -/

structure Inv (s : SyncState c) : Prop where
  suffix : ∀ e, (s.exec e).todo <:+ c.program e
  posted : ∀ idx e, Follows c idx e → (s.Raised idx (c.cltNo e) ↔ s.Entered e idx)
  flag : ∀ idx ∈ c.ids, s.Raised idx maxClt ↔ ¬ s.Pending (c.leader idx) (.send idx)
  scan : ∀ e idx rest, (s.exec e).todo = .recv idx :: rest → ∀ j, Follows c idx j → c.cltNo j < (s.exec e).pos → s.Entered j idx
  ordered : Ordered s
  running : ∀ e, (s.exec e).aborted = false

section Preserved

variable {s t : SyncState c} {e : Fin c.vmCount}

theorem Inv.distinct (apart : Apart c) (inv : Inv s) (e : Fin c.vmCount) : (s.exec e).todo.Nodup :=
  (program_nodup apart.nodup e).sublist (inv.suffix e).sublist

theorem Inv.head_mem (inv : Inv s) {rest : List FailureCall} (here : (s.exec e).todo = call :: rest) :
    call ∈ c.program e :=
  (inv.suffix e).subset (by rw [here]; exact List.mem_cons_self)

/-- A call returns without touching the word: what was entered stays so, and only this call is no
longer pending. The two orders are what its return has to respect. -/
theorem Inv.pop (apart : Apart c) (inv : Inv s) {rest : List FailureCall} (here : (s.exec e).todo = call :: rest)
    (next : t.exec = Function.update s.exec e { todo := rest }) (posted : call = .sync call.idx → (s.exec e).pos ≠ 0)
    (words : ∀ idx ∈ c.ids, ∀ k < maxClt, t.Raised idx k ↔ s.Raised idx k) (few : c.clients ≤ maxClt)
    (flag : ∀ idx ∈ c.ids, t.Raised idx maxClt ↔ s.Raised idx maxClt ∨ call = .send idx)
    (recv : ∀ idx, call = .recv idx → ∀ j, Follows c idx j → s.Entered j idx)
    (sync : ∀ idx, call = .sync idx → ¬ s.Pending (c.leader idx) (.send idx)) : Inv t := by
  have pending := pending_pop (inv.distinct apart e) here next
  have entered := entered_pop (inv.distinct apart e) here next posted
  refine ⟨fun e' => ?_, fun idx e' follows => ?_, fun idx inside => ?_, fun e' idx rest' top j follows less => ?_, ⟨?_, ?_⟩, fun e' => ?_⟩
  · rw [next]
    by_cases own : e' = e
    · subst own
      rw [Function.update_self]
      exact (List.suffix_cons call rest).trans (here ▸ inv.suffix e')
    · rw [Function.update_of_ne own]
      exact inv.suffix e'
  · rw [words idx follows.id _ (Nat.lt_of_lt_of_le (cltNo_lt follows.client) few), entered]
    exact inv.posted idx e' follows
  · rw [flag idx inside, inv.flag idx inside, pending]
    constructor
    · rintro (done | rfl) ⟨still, other⟩
      · exact done still
      · exact other ⟨(send_mem (inv.head_mem here)).2, rfl⟩
    · intro done
      by_cases still : s.Pending (c.leader idx) (.send idx)
      · have both : c.leader idx = e ∧ FailureCall.send idx = call := by
          by_contra other
          exact done ⟨still, other⟩
        exact Or.inr both.2.symm
      · exact Or.inl still
  · rw [entered]
    by_cases own : e' = e
    · subst own
      rw [next, Function.update_self] at less
      exact absurd less (Nat.not_lt_zero _)
    · rw [next, Function.update_of_ne own] at top less
      exact inv.scan e' idx rest' top j follows less
  · intro idx j follows done
    rw [entered]
    by_cases still : s.Pending (c.leader idx) (.recv idx)
    · rw [pending] at done
      have both : c.leader idx = e ∧ FailureCall.recv idx = call := by
        by_contra other
        exact done ⟨still, other⟩
      exact recv idx both.2.symm j follows
    · exact inv.ordered.recv idx j follows still
  · intro idx j follows done
    have before : ¬ s.Pending (c.leader idx) (.send idx) := by
      by_cases still : s.Pending j (.sync idx)
      · rw [pending] at done
        have both : j = e ∧ FailureCall.sync idx = call := by
          by_contra other
          exact done ⟨still, other⟩
        exact sync idx both.2.symm
      · exact inv.ordered.sync idx j follows still
    exact fun after => before ((pending _ _).mp after).1
  · rw [next]
    by_cases own : e' = e
    · subst own
      rw [Function.update_self]
    · rw [Function.update_of_ne own]
      exact inv.running e'

theorem Inv.stay (inv : Inv s) {x : ExecState} (next : t.exec = Function.update s.exec e x)
    (same : x.todo = (s.exec e).todo) (alive : x.aborted = false) (grows : ∀ j idx, s.Entered j idx → t.Entered j idx)
    (posted : ∀ idx j, Follows c idx j → (t.Raised idx (c.cltNo j) ↔ t.Entered j idx))
    (flag : ∀ idx ∈ c.ids, t.Raised idx maxClt ↔ s.Raised idx maxClt)
    (scan : ∀ idx rest, x.todo = .recv idx :: rest → ∀ j, Follows c idx j → c.cltNo j < x.pos → t.Entered j idx) : Inv t := by
  have pending := pending_stay same next
  refine ⟨fun e' => ?_, posted, fun idx inside => ?_, fun e' idx rest top j follows less => ?_, ⟨?_, ?_⟩, fun e' => ?_⟩
  · rw [next]
    by_cases own : e' = e
    · subst own
      rw [Function.update_self, same]
      exact inv.suffix e'
    · rw [Function.update_of_ne own]
      exact inv.suffix e'
  · rw [flag idx inside, pending]
    exact inv.flag idx inside
  · by_cases own : e' = e
    · subst own
      rw [next, Function.update_self] at top less
      exact scan idx rest top j follows less
    · rw [next, Function.update_of_ne own] at top less
      exact grows j idx (inv.scan e' idx rest top j follows less)
  · intro idx j follows done
    exact grows j idx (inv.ordered.recv idx j follows fun still => done ((pending _ _).mpr still))
  · intro idx j follows done still
    exact inv.ordered.sync idx j follows (fun old => done ((pending _ _).mpr old)) ((pending _ _).mp still)
  · rw [next]
    by_cases own : e' = e
    · subst own
      rw [Function.update_self]
      exact alive
    · rw [Function.update_of_ne own]
      exact inv.running e'

theorem Inv.post (apart : Apart c) (few : c.clients ≤ maxClt) (inv : Inv s) {idx : UInt8} {rest : List FailureCall}
    (here : (s.exec e).todo = .sync idx :: rest) (next : t.exec = Function.update s.exec e { s.exec e with pos := 1 })
    (word : t.synchBit = s.synchBit ||| syncBit idx (c.cltNo e)) : Inv t := by
  have follows := sync_mem (inv.head_mem here)
  have number : ∀ {idx'} {j}, Follows c idx' j → c.cltNo j < maxClt :=
    fun other => Nat.lt_of_lt_of_le (cltNo_lt other.client) few
  have pending := pending_stay (x := { s.exec e with pos := 1 }) rfl next
  have raised : ∀ idx' ∈ c.ids, ∀ k ≤ maxClt, t.Raised idx' k ↔ s.Raised idx' k ∨ idx' = idx ∧ k = c.cltNo e :=
    fun idx' inside k bound => raised_or apart follows.id inside (Nat.le_of_lt (number follows)) bound word
  have entered : ∀ j idx', t.Entered j idx' ↔ s.Entered j idx' ∨ j = e ∧ idx' = idx := by
    intro j idx'
    unfold Entered
    rw [pending, next]
    by_cases own : j = e
    · subst own
      rw [Function.update_self, here]
      by_cases same : idx' = idx
      · subst same
        simp
      · have different : ¬ idx = idx' := fun other => same other.symm
        simp [same, different]
    · rw [Function.update_of_ne own]
      simp [own]
  refine inv.stay next rfl (inv.running e) (fun j idx' old => (entered j idx').mpr (Or.inl old)) ?_ ?_ ?_
  · intro idx' j other
    rw [raised idx' other.id _ (Nat.le_of_lt (number other)), entered, inv.posted idx' j other]
    have same : idx' = idx ∧ c.cltNo j = c.cltNo e ↔ j = e ∧ idx' = idx := by
      constructor
      · exact fun ⟨first, second⟩ => ⟨cltNo_inj other.client follows.client second, first⟩
      · rintro ⟨rfl, rfl⟩
        exact ⟨rfl, rfl⟩
    rw [same]
  · intro idx' inside
    rw [raised idx' inside maxClt (Nat.le_refl _)]
    have low := number follows
    constructor
    · rintro (done | ⟨-, same⟩)
      · exact done
      · omega
    · exact Or.inl
  · intro idx' rest' top
    simp [here] at top

theorem Inv.scanned (inv : Inv s) {idx : UInt8} {rest : List FailureCall} (here : (s.exec e).todo = .recv idx :: rest)
    (seen : ∀ j, Follows c idx j → c.cltNo j = (s.exec e).pos → s.Entered j idx)
    (next : t.exec = Function.update s.exec e { s.exec e with pos := (s.exec e).pos + 1 })
    (word : t.synchBit = s.synchBit) : Inv t := by
  have pending := pending_stay (x := { s.exec e with pos := (s.exec e).pos + 1 }) rfl next
  have entered : ∀ j idx', t.Entered j idx' ↔ s.Entered j idx' := by
    intro j idx'
    unfold Entered
    rw [pending, next]
    by_cases own : j = e
    · subst own
      rw [Function.update_self, here]
      simp
    · rw [Function.update_of_ne own]
  have raised : ∀ idx' k, t.Raised idx' k ↔ s.Raised idx' k := by
    intro idx' k
    rw [Raised, word, Raised]
  refine inv.stay next rfl (inv.running e) (fun j idx' => (entered j idx').mpr) ?_ (fun idx' _ => raised idx' maxClt) ?_
  · intro idx' j other
    rw [raised, entered]
    exact inv.posted idx' j other
  · intro idx' rest' top j other less
    rw [entered]
    have same : idx' = idx := by
      have heads := here.symm.trans top
      injection heads with first _
      injection first with first
      exact first.symm
    subst same
    rcases Nat.lt_succ_iff_lt_or_eq.mp less with before | now
    · exact inv.scan e idx' rest here j other before
    · exact seen j other now

theorem step_inv (apart : Apart c) (few : c.clients ≤ maxClt) (inv : Inv s) (moves : Moves s e t) : Inv t := by
  have sameWord : t.synchBit = s.synchBit → ∀ idx k, t.Raised idx k ↔ s.Raised idx k := by
    intro word idx k
    rw [Raised, word, Raised]
  cases moves with
  | abort here many next =>
    have follows := sync_mem (inv.head_mem here)
    have number := cltNo_lt follows.client
    omega
  | post here _ _ next =>
    subst next
    exact inv.post apart few here rfl rfl
  | released here posted flag next =>
    subst next
    have known := (sync_mem (inv.head_mem here)).id
    have done := (inv.flag _ known).mp ((raised_iff s _ _).mp flag)
    refine inv.pop apart here rfl (fun _ => posted) (fun idx _ k _ => sameWord rfl idx k) few (fun idx _ => ?_) nofun ?_
    · simp [sameWord rfl]
    · rintro idx ⟨⟩
      exact done
  | scanned here _ seen next =>
    subst next
    refine inv.scanned here (fun j follows number => ?_) rfl rfl
    rcases seen with ⟨client, own⟩ | bit
    · have same := cltNo_inj follows.client client (number.trans own)
      exact absurd ((recv_mem (inv.head_mem here)).2.trans same.symm) follows.other
    · rw [raised_iff, ← number] at bit
      exact (inv.posted _ j follows).mp bit
  | received here all next =>
    subst next
    refine inv.pop apart here rfl nofun (fun idx _ k _ => sameWord rfl idx k) few (fun idx _ => ?_) ?_ nofun
    · simp [sameWord rfl]
    · rintro idx ⟨⟩ j follows
      exact inv.scan e _ _ here j follows (Nat.lt_of_lt_of_le (cltNo_lt follows.client) all)
  | injected here next =>
    subst next
    refine inv.pop apart here rfl nofun (fun idx _ k _ => sameWord rfl idx k) few (fun idx _ => ?_) nofun nofun
    simp [sameWord rfl]
  | @sent idx rest here next =>
    have known := (send_mem (inv.head_mem here)).1
    have raised : ∀ idx' ∈ c.ids, ∀ k ≤ maxClt, t.Raised idx' k ↔ s.Raised idx' k ∨ idx' = idx ∧ k = maxClt :=
      fun idx' inside k bound => raised_or apart known inside (Nat.le_refl _) bound (by rw [next])
    refine inv.pop apart here (by rw [next]; rfl) nofun (fun idx' inside k low => ?_) few (fun idx' inside => ?_) nofun nofun
    · rw [raised idx' inside k (Nat.le_of_lt low)]
      simp [Nat.ne_of_lt low]
    · rw [raised idx' inside maxClt (Nat.le_refl _)]
      simp [eq_comm]

end Preserved

theorem leads_program {idx : UInt8} (known : idx ∈ c.ids) :
    .recv idx ∈ c.program (c.leader idx) ∧ .send idx ∈ c.program (c.leader idx) := by
  refine ⟨List.mem_flatMap.mpr ⟨idx, known, ?_⟩, List.mem_flatMap.mpr ⟨idx, known, ?_⟩⟩ <;> simp [SyncPlan.callsOf]

theorem follows_program {idx : UInt8} {e : Fin c.vmCount} (follows : Follows c idx e) : .sync idx ∈ c.program e :=
  List.mem_flatMap.mpr ⟨idx, follows.id, by simp [SyncPlan.callsOf, follows.client, follows.other]⟩

theorem initial_inv (c : SyncPlan) : Inv (initial c) := by
  have none : ∀ idx k, ¬ (initial c).Raised idx k := by
    intro idx k
    simp [Raised, initial]
  have outside : ∀ idx e, Follows c idx e → ¬ (initial c).Entered e idx := by
    rintro idx e follows (done | ⟨-, posted⟩)
    · exact done (follows_program follows)
    · exact posted rfl
  refine ⟨fun e => List.suffix_rfl, fun idx e follows => ?_, fun idx known => ?_, fun e idx rest top j follows less => ?_, ⟨?_, ?_⟩,
    fun e => rfl⟩
  · exact iff_of_false (none _ _) (outside idx e follows)
  · exact iff_of_false (none _ _) fun done => done (leads_program known).2
  · exact absurd less (Nat.not_lt_zero _)
  · exact fun idx e follows done => absurd (leads_program follows.id).1 done
  · exact fun idx e follows done => absurd (follows_program follows) done

theorem reachable_inv (apart : Apart c) (few : c.clients ≤ maxClt) {s : SyncState c} (reached : Reachable s) : Inv s := by
  induction reached with
  | refl => exact initial_inv c
  | tail _ last inv =>
    obtain ⟨e, moved⟩ := last
    exact step_inv apart few inv (step_moves moved)

section Progress

variable {s : SyncState c} {e : Fin c.vmCount} {idx : UInt8} {rest : List FailureCall}

theorem Inv.sync_enabled (inv : Inv s) (here : (s.exec e).todo = .sync idx :: rest)
    (free : (s.exec e).pos = 0 ∨ s.Raised idx maxClt) : s.step e ≠ none := by
  rw [← raised_iff] at free
  simp only [step, inv.running e, here]
  by_cases fresh : (s.exec e).pos = 0
  · simp only [fresh, if_true, Bool.false_eq_true, if_false]
    split <;> simp
  · simp [fresh, free.resolve_left fresh]

theorem Inv.recv_enabled (inv : Inv s) (here : (s.exec e).todo = .recv idx :: rest)
    (all : ∀ j, Follows c idx j → s.Entered j idx) : s.step e ≠ none := by
  have leads := recv_mem (inv.head_mem here)
  simp only [step, inv.running e, here]
  by_cases inside : (s.exec e).pos < c.clients
  · by_cases own : c.IsClient e ∧ (s.exec e).pos = c.cltNo e
    · simp only [if_pos inside, if_pos own]
      simp
    · -- the client the leader is looking at is another one, so it has entered
      have bound : c.serverNum + (s.exec e).pos < c.vmCount := by
        unfold SyncPlan.clients at inside
        omega
      have client : c.IsClient ⟨c.serverNum + (s.exec e).pos, bound⟩ := Nat.le_add_right _ _
      have number : c.cltNo (⟨c.serverNum + (s.exec e).pos, bound⟩ : Fin c.vmCount) = (s.exec e).pos := by
        rw [cltNo_client client]
        simp
      have follows : Follows c idx ⟨c.serverNum + (s.exec e).pos, bound⟩ := by
        refine ⟨leads.1, client, fun same => own ?_⟩
        rw [leads.2] at same
        rw [← same] at client number
        exact ⟨client, number.symm⟩
      have seen := (inv.posted idx _ follows).mpr (all _ follows)
      rw [number, ← raised_iff] at seen
      simp [inside, own, seen]
  · simp [inside]

/-- Look at the first id somebody is not done with: whoever has a call of it left is at that call. -/
theorem Inv.progress (apart : Apart c) (inv : Inv s) (unfinished : ¬ Finished s) : ∃ e t, s.step e = some t := by
  classical
  have existsLeft : ∃ n e call, s.Pending e call ∧ rankOf c call = n := by
    simp only [Finished, not_forall] at unfinished
    obtain ⟨e, left⟩ := unfinished
    obtain ⟨call, member⟩ := List.exists_mem_of_ne_nil _ left
    exact ⟨_, e, call, member, rfl⟩
  obtain ⟨e₀, call₀, pending₀, rank₀⟩ := Nat.find_spec existsLeft
  have least : ∀ e call, s.Pending e call → rankOf c call₀ ≤ rankOf c call := by
    intro e call pending
    rw [rank₀]
    exact Nat.find_min' existsLeft ⟨e, call, pending, rfl⟩
  set idx := call₀.idx with idx_eq
  have known : idx ∈ c.ids := (mem_program ((inv.suffix e₀).subset pending₀)).1
  -- whoever has a call of this id left has such a call at the head
  have head : ∀ e call, s.Pending e call → call.idx = idx → ∃ top rest, (s.exec e).todo = top :: rest ∧ top.idx = idx := by
    intro e call pending same
    obtain ⟨top, rest, here⟩ := List.exists_cons_of_ne_nil (List.ne_nil_of_mem pending)
    refine ⟨top, rest, here, ?_⟩
    have sorted := (program_ordered apart.nodup e).sublist (inv.suffix e).sublist
    have below : rankOf c top ≤ rankOf c call := by
      have member : call ∈ top :: rest := here ▸ pending
      rw [here] at sorted
      rcases List.mem_cons.mp member with rfl | later
      · exact Nat.le_refl _
      · exact List.rel_of_pairwise_cons sorted later
    have above : c.ids.idxOf idx ≤ c.ids.idxOf top.idx := least e top (by rw [Pending, here]; exact List.mem_cons_self)
    have equal : c.ids.idxOf top.idx = c.ids.idxOf idx := by
      rw [rankOf, rankOf, same] at below
      omega
    exact (List.idxOf_inj (mem_program (inv.head_mem here)).1).mp equal
  have entered_or_moves : ∀ j, Follows c idx j → s.Entered j idx ∨ ∃ e t, s.step e = some t := by
    intro j follows
    by_cases pending : s.Pending j (.sync idx)
    · obtain ⟨top, rest, here, same⟩ := head j _ pending rfl
      have sync : top = .sync idx := by
        obtain ⟨-, ⟨leads, -⟩ | ⟨-, other⟩⟩ := mem_program (inv.head_mem here)
        · rw [same] at leads
          exact absurd leads follows.other
        · rw [other, same]
      subst sync
      by_cases fresh : (s.exec j).pos = 0
      · exact Or.inr ⟨j, Option.ne_none_iff_exists'.mp (inv.sync_enabled here (Or.inl fresh))⟩
      · exact Or.inl (Or.inr ⟨by rw [here]; rfl, fresh⟩)
    · exact Or.inl (Or.inl pending)
  by_cases leading : ∃ call, s.Pending (c.leader idx) call ∧ call.idx = idx
  · obtain ⟨call, pending, same⟩ := leading
    obtain ⟨top, rest, here, topIdx⟩ := head _ call pending same
    obtain ⟨-, ⟨-, kind⟩ | ⟨follows, -⟩⟩ := mem_program (inv.head_mem here)
    · rw [topIdx] at kind
      rcases kind with rfl | rfl | rfl
      · by_cases all : ∀ j, Follows c idx j → s.Entered j idx
        · exact ⟨_, Option.ne_none_iff_exists'.mp (inv.recv_enabled here all)⟩
        · simp only [not_forall] at all
          obtain ⟨j, follows, out⟩ := all
          exact (entered_or_moves j follows).resolve_left out
      · exact ⟨c.leader idx, _, by simp only [step, inv.running, here]; rfl⟩
      · exact ⟨c.leader idx, _, by simp only [step, inv.running, here]; rfl⟩
    · rw [topIdx] at follows
      exact absurd rfl follows.other
  · have released : s.Raised idx maxClt := (inv.flag idx known).mpr fun pending => leading ⟨_, pending, rfl⟩
    obtain ⟨top, rest, here, same⟩ := head e₀ call₀ pending₀ rfl
    obtain ⟨-, ⟨leads, -⟩ | ⟨-, other⟩⟩ := mem_program (inv.head_mem here)
    · rw [same] at leads
      subst leads
      exact absurd ⟨call₀, pending₀, rfl⟩ leading
    · rw [same] at other
      subst other
      exact ⟨e₀, Option.ne_none_iff_exists'.mp (inv.sync_enabled here (Or.inr released))⟩

end Progress

/-- With at most `MAXCLT` clients and four bits of the word for every id, no call fails, both orders
hold in every state, and only the finished state has no step. -/
theorem failure_sync (few : c.clients ≤ maxClt) (apart : Apart c) {s : SyncState c} (reached : Reachable s) :
    (∀ e, (s.exec e).aborted = false) ∧ Ordered s ∧ (Finished s ∨ ∃ e t, s.step e = some t) := by
  have inv := reachable_inv apart few reached
  exact ⟨inv.running, inv.ordered, or_iff_not_imp_left.mpr (inv.progress apart)⟩

/-- A schedule; an executor that cannot step is passed over. -/
def runSchedule (s : SyncState c) (schedule : List (Fin c.vmCount)) : SyncState c :=
  schedule.foldl (fun s e => (s.step e).getD s) s

theorem reachable_runSchedule (schedule : List (Fin c.vmCount)) {s : SyncState c} (reached : Reachable s) :
    Reachable (runSchedule s schedule) := by
  induction schedule generalizing s with
  | nil => exact reached
  | cons e schedule ih =>
    refine ih ?_
    show Reachable ((s.step e).getD s)
    cases next : s.step e with
    | none => exact reached
    | some t => exact reached.tail ⟨e, next⟩

def leaderZero (vmCount serverNum : Nat) (ids : List UInt8) (supported : vmCount ≤ 64) (some : serverNum < vmCount) : SyncPlan where
  vmCount := vmCount
  serverNum := serverNum
  ids := ids
  leader _ := ⟨0, Nat.lt_of_le_of_lt (Nat.zero_le _) some⟩
  supported := supported
  someClient := some
  led _ _ := (Nat.eq_zero_or_pos serverNum).symm.imp id fun none => ⟨none, rfl⟩

/-- Three nodes without servers: two of them sync with the first. -/
abbrev threeNodes : SyncPlan := leaderZero 3 0 [0, 1] (by decide) (by decide)

/-- Both clients enter, the leader collects their bits, injects the fault and releases them; twice. -/
def twoRounds : List (Fin threeNodes.vmCount) := [1, 2, 0, 0, 0, 0, 0, 0, 1, 2, 1, 2, 0, 0, 0, 0, 0, 0, 1, 2]

theorem failure_sync_threeNodes :
    (∀ e, ((runSchedule (initial threeNodes) twoRounds).exec e).todo = []) ∧
      (∀ e, ((runSchedule (initial threeNodes) twoRounds).exec e).aborted = false) ∧
      Ordered (runSchedule (initial threeNodes) twoRounds) := by
  have apart : Apart threeNodes := by
    unfold Apart
    decide
  have held := failure_sync (by decide) apart (reachable_runSchedule twoRounds .refl)
  exact ⟨by decide +kernel, held.1, held.2.1⟩

abbrev fourNodes : SyncPlan := leaderZero 4 0 [0] (by decide) (by decide)

/-- Two clients behind one server; the second id takes the bits of the first. -/
abbrev wrappedId : SyncPlan := leaderZero 3 1 [0, 16] (by decide) (by decide)

/-- The sync of a fourth client aborts. With ids that share their bits, the leader passes the second
`recv` while the clients are still in the sync of the first id. -/
theorem failure_sync_overflow :
    (∃ s : SyncState fourNodes, Reachable s ∧ (s.exec 3).aborted = true) ∧ ∃ s : SyncState wrappedId, Reachable s ∧ ¬ Ordered s := by
  refine ⟨⟨_, reachable_runSchedule [3] .refl, by decide +kernel⟩,
    ⟨_, reachable_runSchedule [1, 2, 0, 0, 0, 0, 0, 0, 0, 0] .refl, fun ordered => ?_⟩⟩
  have passed : ¬ Pending (runSchedule (initial wrappedId) [1, 2, 0, 0, 0, 0, 0, 0, 0, 0]) 0 (.recv 16) := by
    unfold Pending
    decide +kernel
  have outside : ¬ Entered (runSchedule (initial wrappedId) [1, 2, 0, 0, 0, 0, 0, 0, 0, 0]) 1 16 := by
    unfold Entered Pending
    decide +kernel
  exact outside (ordered.recv 16 1 ⟨by decide, by decide, by decide⟩ passed)

end SyncState

end DfsFuzz.Executor
