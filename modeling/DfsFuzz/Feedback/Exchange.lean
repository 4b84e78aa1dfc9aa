import DfsFuzz.Feedback.Signal
import DfsFuzz.Lib.GuardedRun

/-!
How fuzzers share the bits of novel pairs (`syz-fuzzer/fuzzer.go`, `syz-manager/rpc.go`): a fuzzer
sends what it found with its next poll and gets what the others found with the response. A fuzzer
process polls under the name of its VM, which a later process takes over. No fuzzer is ever `rotated`.
-/

namespace DfsFuzz.Feedback

inductive Pending where
  | idle
  | request (maxDagSignal : Serial)
  | response (maxDagSignal : Serial)

structure Fuzzer where
  name : String
  maxDagSignal : Signal := ∅
  newDagSignal : Signal := ∅
  pending : Pending := .idle
  /-- the bits that `checkNewDagSignal` has returned so far -/
  novel : List UInt32 := []

namespace Fuzzer

def checkNewDagSignal (f : Fuzzer) (raw : List UInt32) : Signal × Fuzzer :=
  if raw = [] then (∅, f)
  else
    let diff := Signal.diff f.maxDagSignal (Signal.fromRaw raw 0)
    if diff.items = [] then (∅, f)
    else
      (diff, { f with
        maxDagSignal := Signal.merge f.maxDagSignal diff
        newDagSignal := Signal.merge f.newDagSignal diff })

def discover (f : Fuzzer) (raw : List UInt32) : Fuzzer :=
  let (diff, f) := f.checkNewDagSignal raw
  { f with novel := f.novel ++ diff.items.map Prod.fst }

def grabNewDagSignal (f : Fuzzer) : Signal × Fuzzer :=
  if f.newDagSignal.items = [] then (∅, f) else (f.newDagSignal, { f with newDagSignal := ∅ })

def addMaxDagSignal (f : Fuzzer) (sign : Signal) : Fuzzer :=
  if sign.items = [] then f else { f with maxDagSignal := Signal.merge f.maxDagSignal sign }

/-- The first half of `poll`. -/
def send (f : Fuzzer) : Fuzzer :=
  match f.pending with
  | .idle =>
    let (sign, f) := f.grabNewDagSignal
    { f with pending := .request sign.serialize }
  | _ => f

/-- The second half of `poll`. -/
def receive (f : Fuzzer) : Fuzzer :=
  match f.pending with
  | .response ser => { f.addMaxDagSignal (Signal.deserialize ser) with pending := .idle }
  | _ => f

def sending (f : Fuzzer) : Signal :=
  match f.pending with
  | .request ser => Signal.deserialize ser
  | _ => ∅

def receiving (f : Fuzzer) : Signal :=
  match f.pending with
  | .response ser => Signal.deserialize ser
  | _ => ∅

end Fuzzer

/-- The manager's `Fuzzer`; `process` is the process that connected. -/
structure Connection where
  process : Nat
  newDagSignal : Signal

structure RPCServer where
  maxDagSignal : Signal := ∅
  fuzzers : Go.Map String Connection := ∅

namespace RPCServer

def connect (serv : RPCServer) (name : String) (process : Nat) : RPCServer :=
  { serv with fuzzers := serv.fuzzers.insert name ⟨process, serv.maxDagSignal⟩ }

/-- New bits go to everyone but the one who reports them. -/
def report (serv : RPCServer) (name : String) (f : Connection) (sign : Signal) : RPCServer :=
  let newDagSignal := Signal.diff serv.maxDagSignal sign
  if newDagSignal.items = [] then serv
  else
    { maxDagSignal := Signal.merge serv.maxDagSignal newDagSignal
      fuzzers := (serv.fuzzers.mapValues fun f1 =>
        { f1 with newDagSignal := Signal.merge f1.newDagSignal newDagSignal }).insert name f }

def poll (visit : Go.RangeOrder) (serv : RPCServer) (name : String) (maxDagSignal : Serial) : RPCServer × Serial :=
  match serv.fuzzers.lookup name with
  -- shut down, but the request was in flight
  | none => (serv, Signal.serialize ∅)
  | some f =>
    let serv := serv.report name f (Signal.deserialize maxDagSignal)
    let (taken, left) := Signal.split visit f.newDagSignal 2000
    ({ serv with fuzzers := serv.fuzzers.insert name { f with newDagSignal := left } }, taken.serialize)

def shutdownInstance (serv : RPCServer) (name : String) : RPCServer := { serv with fuzzers := serv.fuzzers.erase name }

end RPCServer

structure Exchange where
  server : RPCServer := {}
  fuzzers : List Fuzzer := []

inductive Action where
  | connect (name : String)
  | discover (process : Nat) (raw : List UInt32)
  | send (process : Nat)
  | serve (process : Nat) (visit : Go.RangeOrder)
  | receive (process : Nat)
  | shutdownInstance (name : String)

namespace Exchange

/-- The manager handles the request of a process. -/
def serve (x : Exchange) (process : Nat) (visit : Go.RangeOrder) : Exchange :=
  match x.fuzzers[process]? with
  | none => x
  | some f =>
    match f.pending with
    | .request ser =>
      let (server, res) := RPCServer.poll visit x.server f.name ser
      { server, fuzzers := x.fuzzers.set process { f with pending := .response res } }
    | _ => x

def step (x : Exchange) : Action → Exchange
  | .connect name => { server := x.server.connect name x.fuzzers.length, fuzzers := x.fuzzers ++ [{ name }] }
  | .discover process raw => { x with fuzzers := x.fuzzers.modify process fun f => f.discover raw }
  | .send process => { x with fuzzers := x.fuzzers.modify process Fuzzer.send }
  | .serve process visit => x.serve process visit
  | .receive process => { x with fuzzers := x.fuzzers.modify process Fuzzer.receive }
  | .shutdownInstance name => { x with server := x.server.shutdownInstance name }

/-- `f` runs under `name`, where the manager has `c` for it. -/
structure Connected (x : Exchange) (name : String) (c : Connection) (f : Fuzzer) : Prop where
  registered : x.server.fuzzers.lookup name = some c
  process : x.fuzzers[c.process]? = some f

structure NoBitLost (x : Exchange) : Prop where
  spread : ∀ name c f, x.Connected name c f → ∀ b ∈ x.server.maxDagSignal,
    b ∈ f.maxDagSignal ∨ b ∈ c.newDagSignal ∨ b ∈ f.receiving
  reported : ∀ name c f, x.Connected name c f → ∀ b ∈ f.novel,
    b ∈ x.server.maxDagSignal ∨ b ∈ f.newDagSignal ∨ b ∈ f.sending
  once : ∀ f ∈ x.fuzzers, f.novel.Nodup

end Exchange

/-! ### What a fuzzer keeps -/

open Signal in
/-- Whatever a fuzzer holds is of priority 0, and what it found or is about to report it knows. -/
structure Fuzzer.Sound (f : Fuzzer) : Prop where
  flatMax : Flat f.maxDagSignal
  flatNew : Flat f.newDagSignal
  flatSending : Flat f.sending
  flatReceiving : Flat f.receiving
  novel : ∀ b ∈ f.novel, b ∈ f.maxDagSignal
  fresh : ∀ b ∈ f.newDagSignal, b ∈ f.maxDagSignal
  sent : ∀ b ∈ f.sending, b ∈ f.maxDagSignal
  once : f.novel.Nodup

theorem not_mem_of_items {s : Signal} (empty : s.items = []) (b : UInt32) : b ∉ s := by
  rw [← Signal.mem_items_fst, empty]
  exact List.not_mem_nil

theorem sending_request (f : Fuzzer) {s : Signal} (flat : Signal.Flat s) :
    Signal.Flat { f with pending := .request s.serialize : Fuzzer }.sending ∧
      ∀ b, b ∈ { f with pending := .request s.serialize : Fuzzer }.sending ↔ b ∈ s :=
  Signal.deserialize_spec flat

theorem Fuzzer.Sound.start (name : String) : Fuzzer.Sound { name } where
  flatMax := Signal.flat_empty
  flatNew := Signal.flat_empty
  flatSending := Signal.flat_empty
  flatReceiving := Signal.flat_empty
  novel _ member := absurd member List.not_mem_nil
  fresh _ member := absurd member (AList.notMem_empty _)
  sent _ member := absurd member (AList.notMem_empty _)
  once := List.nodup_nil

/-- What a discovery does: new bits are known, to be reported, and returned once. -/
structure Fuzzer.Discovered (f f' : Fuzzer) : Prop where
  sound : f'.Sound
  known : ∀ b ∈ f.maxDagSignal, b ∈ f'.maxDagSignal
  pending : f'.pending = f.pending
  kept : ∀ b ∈ f.newDagSignal, b ∈ f'.newDagSignal
  new : ∀ b ∈ f'.novel, b ∈ f.novel ∨ b ∈ f'.newDagSignal

theorem checkNewDagSignal_cases (f : Fuzzer) (raw : List UInt32) :
    let diff := Signal.diff f.maxDagSignal (Signal.fromRaw raw 0)
    f.checkNewDagSignal raw = (∅, f) ∨
      f.checkNewDagSignal raw = (diff, { f with
        maxDagSignal := Signal.merge f.maxDagSignal diff
        newDagSignal := Signal.merge f.newDagSignal diff }) := by
  intro diff
  unfold Fuzzer.checkNewDagSignal
  by_cases empty : raw = []
  · exact Or.inl (if_pos empty)
  · rw [if_neg empty]
    by_cases known : diff.items = []
    · exact Or.inl (if_pos known)
    · exact Or.inr (if_neg known)

theorem grabNewDagSignal_cases (f : Fuzzer) :
    f.grabNewDagSignal = (∅, f) ∨ f.grabNewDagSignal = (f.newDagSignal, { f with newDagSignal := ∅ }) := by
  unfold Fuzzer.grabNewDagSignal
  split
  · exact Or.inl rfl
  · exact Or.inr rfl

theorem Fuzzer.Sound.discover {f : Fuzzer} (sound : f.Sound) (raw : List UInt32) : f.Discovered (f.discover raw) := by
  have same : f.Discovered { f with novel := f.novel ++ (∅ : Signal).items.map Prod.fst } := by
    have unchanged : f.novel ++ (∅ : Signal).items.map Prod.fst = f.novel := List.append_nil _
    rw [unchanged]
    exact ⟨sound, fun _ known => known, rfl, fun _ kept => kept, fun _ old => Or.inl old⟩
  unfold Fuzzer.discover
  rcases checkNewDagSignal_cases f raw with nothing | found
  · rw [nothing]
    exact same
  · rw [found]
    obtain ⟨flatRaw, -⟩ := Signal.fromRaw_spec raw
    obtain ⟨flatDiff, diff⟩ := Signal.diff_spec sound.flatMax flatRaw
    obtain ⟨flatMax, max⟩ := Signal.merge_spec sound.flatMax flatDiff
    obtain ⟨flatNew, new⟩ := Signal.merge_spec sound.flatNew flatDiff
    have returned : ∀ b, b ∈ (Signal.diff f.maxDagSignal (Signal.fromRaw raw 0)).items.map Prod.fst ↔
        b ∈ Signal.diff f.maxDagSignal (Signal.fromRaw raw 0) := fun b => Signal.mem_items_fst
    refine ⟨⟨flatMax, flatNew, sound.flatSending, sound.flatReceiving, ?_, ?_, ?_, ?_⟩, ?_, rfl, ?_, ?_⟩
    · intro b member
      rcases List.mem_append.mp member with old | found
      · exact (max b).mpr (Or.inl (sound.novel b old))
      · exact (max b).mpr (Or.inr ((returned b).mp found))
    · exact fun b member => (max b).mpr (((new b).mp member).imp_left (sound.fresh b))
    · exact fun b member => (max b).mpr (Or.inl (sound.sent b member))
    · refine List.Nodup.append sound.once (Go.Map.nodup_items_keys _) fun b old found => ?_
      exact ((diff b).mp ((returned b).mp found)).2 (sound.novel b old)
    · exact fun b known => (max b).mpr (Or.inl known)
    · exact fun b kept => (new b).mpr (Or.inl kept)
    · exact fun b member => (List.mem_append.mp member).imp_right fun found => (new b).mpr (Or.inr ((returned b).mp found))

/-- What a fuzzer sends leaves `newDagSignal` for the request. -/
structure Fuzzer.Sent (f f' : Fuzzer) : Prop where
  sound : f'.Sound
  max : f'.maxDagSignal = f.maxDagSignal
  novel : f'.novel = f.novel
  receiving : ∀ b ∈ f.receiving, b ∈ f'.receiving
  moved : ∀ b, b ∈ f.newDagSignal ∨ b ∈ f.sending → b ∈ f'.newDagSignal ∨ b ∈ f'.sending

theorem Fuzzer.Sound.send {f : Fuzzer} (sound : f.Sound) : f.Sent f.send := by
  have same : f.Sent f := ⟨sound, rfl, rfl, fun _ h => h, fun _ h => h⟩
  unfold Fuzzer.send
  split
  · rename_i idle
    have none : ∀ b, b ∉ f.sending := by
      intro b member
      rw [Fuzzer.sending, idle] at member
      exact AList.notMem_empty _ member
    have nothing : ∀ b, b ∉ f.receiving := by
      intro b member
      rw [Fuzzer.receiving, idle] at member
      exact AList.notMem_empty _ member
    rcases grabNewDagSignal_cases f with grabbed | grabbed
    · rw [grabbed]
      obtain ⟨flat, bits⟩ := sending_request f Signal.flat_empty
      refine ⟨⟨sound.flatMax, sound.flatNew, flat, Signal.flat_empty, sound.novel, sound.fresh, ?_, sound.once⟩, rfl, rfl,
        fun b member => absurd member (nothing b), fun b member => ?_⟩
      · exact fun b member => absurd ((bits b).mp member) (AList.notMem_empty _)
      · exact Or.inl (member.resolve_right (none b))
    · rw [grabbed]
      obtain ⟨flat, bits⟩ := sending_request { f with newDagSignal := ∅ } sound.flatNew
      refine ⟨⟨sound.flatMax, Signal.flat_empty, flat, Signal.flat_empty, sound.novel, ?_, ?_, sound.once⟩, rfl, rfl,
        fun b member => absurd member (nothing b), fun b member => ?_⟩
      · exact fun b member => absurd member (AList.notMem_empty _)
      · exact fun b member => sound.fresh b ((bits b).mp member)
      · exact Or.inr ((bits b).mpr (member.resolve_right (none b)))
  · exact same

structure Fuzzer.Received (f f' : Fuzzer) : Prop where
  sound : f'.Sound
  new : f'.newDagSignal = f.newDagSignal
  novel : f'.novel = f.novel
  sending : ∀ b ∈ f.sending, b ∈ f'.sending
  known : ∀ b, b ∈ f.maxDagSignal ∨ b ∈ f.receiving → b ∈ f'.maxDagSignal ∨ b ∈ f'.receiving

theorem Fuzzer.Sound.receive {f : Fuzzer} (sound : f.Sound) : f.Received f.receive := by
  have same : f.Received f := ⟨sound, rfl, rfl, fun _ h => h, fun _ h => h⟩
  unfold Fuzzer.receive
  split
  · rename_i ser here
    have arrived : f.receiving = Signal.deserialize ser := by rw [Fuzzer.receiving, here]
    have none : ∀ b, b ∉ f.sending := by
      intro b member
      rw [Fuzzer.sending, here] at member
      exact AList.notMem_empty _ member
    rw [← arrived]
    unfold Fuzzer.addMaxDagSignal
    split
    · rename_i empty
      refine ⟨⟨sound.flatMax, sound.flatNew, Signal.flat_empty, Signal.flat_empty, sound.novel, sound.fresh, ?_, sound.once⟩, rfl,
        rfl, fun b member => absurd member (none b), fun b member => ?_⟩
      · exact fun b member => absurd member (AList.notMem_empty _)
      · exact Or.inl (member.resolve_right (not_mem_of_items empty b))
    · obtain ⟨flat, max⟩ := Signal.merge_spec sound.flatMax sound.flatReceiving
      refine ⟨⟨flat, sound.flatNew, Signal.flat_empty, Signal.flat_empty, ?_, ?_, ?_, sound.once⟩, rfl,
        rfl, fun b member => absurd member (none b), fun b member => Or.inl ((max b).mpr member)⟩
      · exact fun b member => (max b).mpr (Or.inl (sound.novel b member))
      · exact fun b member => (max b).mpr (Or.inl (sound.fresh b member))
      · exact fun b member => absurd member (AList.notMem_empty _)
  · exact same

end DfsFuzz.Feedback
