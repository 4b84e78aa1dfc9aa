import DfsFuzz.Feedback.Exchange

/-! No bit is lost between the fuzzers and the manager, as long as a poll is served under its own connection. -/

namespace DfsFuzz.Feedback

open Signal

/-- What a poll of `name`, where the manager has `c`, does to the manager; `sign` are the bits it brings. -/
structure RPCServer.Polled (serv : RPCServer) (name : String) (c : Connection) (sign : Signal)
    (res : RPCServer × Serial) : Prop where
  flatMax : Flat res.1.maxDagSignal
  max : ∀ b, b ∈ res.1.maxDagSignal ↔ b ∈ serv.maxDagSignal ∨ b ∈ sign
  own : ∃ left : Signal, res.1.fuzzers.lookup name = some { c with newDagSignal := left } ∧ Flat left ∧
    ∀ b ∈ c.newDagSignal, b ∈ left ∨ b ∈ deserialize res.2
  others : ∀ other c', other ≠ name → res.1.fuzzers.lookup other = some c' →
    ∃ c1, serv.fuzzers.lookup other = some c1 ∧ c'.process = c1.process ∧ Flat c'.newDagSignal ∧
      ∀ b, b ∈ c1.newDagSignal ∨ (b ∈ sign ∧ b ∉ serv.maxDagSignal) → b ∈ c'.newDagSignal
  flatResponse : Flat (deserialize res.2)

structure RPCServer.Reported (serv : RPCServer) (name : String) (sign : Signal) (serv' : RPCServer) : Prop where
  flatMax : Flat serv'.maxDagSignal
  max : ∀ b, b ∈ serv'.maxDagSignal ↔ b ∈ serv.maxDagSignal ∨ b ∈ sign
  others : ∀ other c', other ≠ name → serv'.fuzzers.lookup other = some c' →
    ∃ c1, serv.fuzzers.lookup other = some c1 ∧ c'.process = c1.process ∧ Flat c'.newDagSignal ∧
      ∀ b, b ∈ c1.newDagSignal ∨ (b ∈ sign ∧ b ∉ serv.maxDagSignal) → b ∈ c'.newDagSignal

section Server
variable {serv : RPCServer} (flatMax : Flat serv.maxDagSignal)
  (flatConns : ∀ name c, serv.fuzzers.lookup name = some c → Flat c.newDagSignal)
include flatMax flatConns

theorem report_spec (name : String) (c : Connection) {sign : Signal} (flat : Flat sign) :
    serv.Reported name sign (serv.report name c sign) := by
  obtain ⟨flatDiff, diff⟩ := diff_spec flatMax flat
  unfold RPCServer.report
  by_cases known : (Signal.diff serv.maxDagSignal sign).items = []
  · rw [if_pos known]
    have old : ∀ b ∈ sign, b ∈ serv.maxDagSignal := by
      intro b reported
      by_contra new
      exact not_mem_of_items known b ((diff b).mpr ⟨reported, new⟩)
    refine ⟨flatMax, fun b => (or_iff_left_of_imp (old b)).symm, fun other c' _ here => ?_⟩
    refine ⟨c', here, rfl, flatConns other c' here, fun b bits => ?_⟩
    exact bits.resolve_right fun new => new.2 (old b new.1)
  · rw [if_neg known]
    obtain ⟨flat', max⟩ := merge_spec flatMax flatDiff
    refine ⟨flat', fun b => ?_, fun other c' different here => ?_⟩
    · rw [max, diff]
      by_cases old : b ∈ serv.maxDagSignal <;> simp [old]
    · rw [AList.lookup_insert_ne different, Go.Map.lookup_mapValues] at here
      obtain ⟨c1, found, rfl⟩ := Option.map_eq_some_iff.mp here
      obtain ⟨flatNew, new⟩ := merge_spec (flatConns other c1 found) flatDiff
      exact ⟨c1, found, rfl, flatNew, fun b bits => (new b).mpr (bits.imp_right fun fresh => (diff b).mpr fresh)⟩

theorem poll_spec (visit : Go.RangeOrder) {name : String} {c : Connection} (found : serv.fuzzers.lookup name = some c)
    {ser : Serial} (flat : Flat (deserialize ser)) :
    serv.Polled name c (deserialize ser) (RPCServer.poll visit serv name ser) := by
  have reported := report_spec flatMax flatConns name c flat
  obtain ⟨flatTaken, flatLeft, whole⟩ := split_spec (flatConns name c found) visit 2000
  obtain ⟨flatResponse, response⟩ := deserialize_spec flatTaken
  have result : RPCServer.poll visit serv name ser =
      ({ serv.report name c (deserialize ser) with
          fuzzers := (serv.report name c (deserialize ser)).fuzzers.insert name
            { c with newDagSignal := (Signal.split visit c.newDagSignal 2000).2 } },
        (Signal.split visit c.newDagSignal 2000).1.serialize) := by
    unfold RPCServer.poll
    rw [found]
  rw [result]
  refine ⟨reported.flatMax, reported.max, ⟨_, AList.lookup_insert _, flatLeft, fun b member => ?_⟩, ?_, flatResponse⟩
  · exact ((whole b).mp member).symm.imp_right (response b).mpr
  · intro other c' different here
    rw [AList.lookup_insert_ne different] at here
    exact reported.others other c' different here

end Server

/-! ### The invariant -/

structure Linked (max : Signal) (c : Connection) (f : Fuzzer) : Prop where
  spread : ∀ b ∈ max, b ∈ f.maxDagSignal ∨ b ∈ c.newDagSignal ∨ b ∈ f.receiving
  reported : ∀ b ∈ f.novel, b ∈ max ∨ b ∈ f.newDagSignal ∨ b ∈ f.sending

variable {x : Exchange}

namespace Exchange

structure Inv (x : Exchange) : Prop where
  flatMax : Flat x.server.maxDagSignal
  flatConns : ∀ name c, x.server.fuzzers.lookup name = some c → Flat c.newDagSignal
  sound : ∀ (i : Nat) (f : Fuzzer), x.fuzzers[i]? = some f → f.Sound
  linked : ∀ name c, x.server.fuzzers.lookup name = some c →
    ∃ f, x.fuzzers[c.process]? = some f ∧ f.name = name ∧ Linked x.server.maxDagSignal c f

theorem Inv.noBitLost (inv : x.Inv) : x.NoBitLost where
  spread name c f connected := by
    obtain ⟨f', here, -, linked⟩ := inv.linked name c connected.registered
    obtain rfl := Option.some.inj (here.symm.trans connected.process)
    exact linked.spread
  reported name c f connected := by
    obtain ⟨f', here, -, linked⟩ := inv.linked name c connected.registered
    obtain rfl := Option.some.inj (here.symm.trans connected.process)
    exact linked.reported
  once f member := by
    obtain ⟨i, here⟩ := List.getElem?_of_mem member
    exact (inv.sound i f here).once

theorem Inv.start : Inv {} where
  flatMax := flat_empty
  flatConns _ _ found := nomatch found
  sound _ _ found := nomatch found
  linked _ _ found := nomatch found

/-- A step of one fuzzer that keeps what ties it to its connection. -/
theorem Inv.modify (inv : x.Inv) (process : Nat) {g : Fuzzer → Fuzzer} (name : ∀ f, (g f).name = f.name)
    (sound : ∀ f, f.Sound → (g f).Sound) (linked : ∀ f max c, f.Sound → Linked max c f → Linked max c (g f)) :
    Inv { x with fuzzers := x.fuzzers.modify process g } where
  flatMax := inv.flatMax
  flatConns := inv.flatConns
  sound i f here := by
    rw [List.getElem?_modify] at here
    obtain ⟨f₀, before, rfl⟩ := Option.map_eq_some_iff.mp here
    have old := inv.sound i f₀ before
    split
    · exact sound f₀ old
    · exact old
  linked other c registered := by
    obtain ⟨f, here, named, tie⟩ := inv.linked other c registered
    refine ⟨if process = c.process then g f else f, ?_, ?_, ?_⟩
    · rw [List.getElem?_modify, here]
      rfl
    · split
      · exact (name f).trans named
      · exact named
    · split
      · exact linked f _ c (inv.sound _ f here) tie
      · exact tie

theorem Inv.connect (inv : x.Inv) (name : String) : (x.step (.connect name)).Inv where
  flatMax := inv.flatMax
  flatConns other c registered := by
    by_cases same : other = name
    · subst same
      obtain rfl := Option.some.inj ((AList.lookup_insert _).symm.trans registered)
      exact inv.flatMax
    · exact inv.flatConns other c ((AList.lookup_insert_ne same).symm.trans registered)
  sound i f here := by
    rcases Nat.lt_or_ge i x.fuzzers.length with old | new
    · exact inv.sound i f ((List.getElem?_append_left old).symm.trans here)
    · have last : f ∈ [({ name } : Fuzzer)] := List.mem_of_getElem? ((List.getElem?_append_right new).symm.trans here)
      obtain rfl := List.mem_singleton.mp last
      exact Fuzzer.Sound.start name
  linked other c registered := by
    by_cases same : other = name
    · subst same
      obtain rfl := Option.some.inj ((AList.lookup_insert _).symm.trans registered)
      refine ⟨{ name := other }, List.getElem?_concat_length, rfl, ?_⟩
      exact ⟨fun b member => Or.inr (Or.inl member), fun b member => absurd member List.not_mem_nil⟩
    · obtain ⟨f, here, tie⟩ := inv.linked other c ((AList.lookup_insert_ne same).symm.trans registered)
      have inside : c.process < x.fuzzers.length := (List.getElem?_eq_some_iff.mp here).1
      exact ⟨f, (List.getElem?_append_left inside).trans here, tie⟩

theorem Inv.shutdownInstance (inv : x.Inv) (name : String) : (x.step (.shutdownInstance name)).Inv := by
  have kept : ∀ other c, (x.server.fuzzers.erase name).lookup other = some c → x.server.fuzzers.lookup other = some c := by
    intro other c registered
    by_cases same : other = name
    · subst same
      rw [AList.lookup_erase] at registered
      cases registered
    · rwa [AList.lookup_erase_ne same] at registered
  exact ⟨inv.flatMax, fun other c registered => inv.flatConns other c (kept other c registered), inv.sound,
    fun other c registered => inv.linked other c (kept other c registered)⟩

/-- The manager serves a poll only for the process that is connected under its name, or for none. -/
def OwnConnection (x : Exchange) : Action → Prop
  | .serve process _ =>
    (((x.fuzzers[process]?).bind fun f => x.server.fuzzers.lookup f.name).all fun c => decide (c.process = process)) = true
  | _ => True

instance (x : Exchange) : ∀ action, Decidable (x.OwnConnection action)
  | .serve _ _ => inferInstanceAs (Decidable (_ = true))
  | .connect _ | .discover _ _ | .send _ | .receive _ | .shutdownInstance _ => inferInstanceAs (Decidable True)

theorem serve_cases (x : Exchange) (process : Nat) (visit : Go.RangeOrder) :
    x.serve process visit = x ∨ ∃ f ser, x.fuzzers[process]? = some f ∧ f.pending = .request ser ∧
      x.serve process visit =
        { server := (RPCServer.poll visit x.server f.name ser).1
          fuzzers := x.fuzzers.set process { f with pending := .response (RPCServer.poll visit x.server f.name ser).2 } } := by
  unfold Exchange.serve
  cases here : x.fuzzers[process]? with
  | none => exact Or.inl rfl
  | some f =>
    cases pending : f.pending with
    | request ser => exact Or.inr ⟨f, ser, rfl, pending, by simp only [pending]⟩
    | idle => exact Or.inl (by simp only [pending])
    | response ser => exact Or.inl (by simp only [pending])

theorem answered_sound {f : Fuzzer} (sound : f.Sound) {res : Serial} (flat : Flat (deserialize res)) :
    Fuzzer.Sound { f with pending := .response res } where
  flatMax := sound.flatMax
  flatNew := sound.flatNew
  flatSending := flat_empty
  flatReceiving := flat
  novel := sound.novel
  fresh := sound.fresh
  sent _ member := absurd member (AList.notMem_empty _)
  once := sound.once

/-- A poll under a name that nobody is connected under does nothing but answer. -/
theorem Inv.answer (inv : x.Inv) {process : Nat} {f : Fuzzer} (here : x.fuzzers[process]? = some f)
    (gone : x.server.fuzzers.lookup f.name = none) :
    Inv { x with fuzzers := x.fuzzers.set process { f with pending := .response (Signal.serialize ∅) } } where
  flatMax := inv.flatMax
  flatConns := inv.flatConns
  sound i g there := by
    by_cases same : process = i
    · subst same
      rw [List.getElem?_set_self (List.getElem?_eq_some_iff.mp here).1] at there
      obtain rfl := Option.some.inj there
      exact answered_sound (inv.sound process f here) (deserialize_spec flat_empty).1
    · rw [List.getElem?_set_ne same] at there
      exact inv.sound i g there
  linked name c registered := by
    obtain ⟨g, there, named, tie⟩ := inv.linked name c registered
    refine ⟨g, ?_, named, tie⟩
    have different : process ≠ c.process := by
      intro same
      obtain rfl := Option.some.inj (here.symm.trans (same ▸ there))
      rw [named, registered] at gone
      cases gone
    rwa [List.getElem?_set_ne different]

/-- What was sent arrives at the manager, and what was pending there is on its way. -/
theorem Inv.polled (inv : x.Inv) {process : Nat} {f : Fuzzer} (here : x.fuzzers[process]? = some f) {ser : Serial}
    (request : f.pending = .request ser) {c : Connection} (registered : x.server.fuzzers.lookup f.name = some c)
    (own : c.process = process) {res : RPCServer × Serial} (polled : x.server.Polled f.name c f.sending res) :
    Inv { server := res.1, fuzzers := x.fuzzers.set process { f with pending := .response res.2 } } where
  flatMax := polled.flatMax
  flatConns name c' there := by
    by_cases same : name = f.name
    · subst same
      obtain ⟨left, kept, flat, -⟩ := polled.own
      obtain rfl := Option.some.inj (kept.symm.trans there)
      exact flat
    · obtain ⟨_, -, -, flat, -⟩ := polled.others name c' same there
      exact flat
  sound i g there := by
    by_cases same : process = i
    · subst same
      rw [List.getElem?_set_self (List.getElem?_eq_some_iff.mp here).1] at there
      obtain rfl := Option.some.inj there
      exact answered_sound (inv.sound process f here) polled.flatResponse
    · rw [List.getElem?_set_ne same] at there
      exact inv.sound i g there
  linked name c' there := by
    have inside : process < x.fuzzers.length := (List.getElem?_eq_some_iff.mp here).1
    obtain ⟨f₀, before, -, tie⟩ := inv.linked f.name c registered
    obtain rfl : f = f₀ := Option.some.inj (here.symm.trans (own ▸ before))
    by_cases same : name = f.name
    · subst same
      obtain ⟨left, kept, -, split⟩ := polled.own
      obtain rfl := Option.some.inj (kept.symm.trans there)
      refine ⟨{ f with pending := .response res.2 }, ?_, rfl, ?_, ?_⟩
      · rw [own]
        exact List.getElem?_set_self inside
      · intro b member
        rcases (polled.max b).mp member with old | sent
        · rcases tie.spread b old with known | waiting | coming
          · exact Or.inl known
          · exact Or.inr (split b waiting)
          · rw [Fuzzer.receiving, request] at coming
            exact absurd coming (AList.notMem_empty _)
        · exact Or.inl ((inv.sound process f here).sent b sent)
      · intro b found
        rcases tie.reported b found with old | new | sent
        · exact Or.inl ((polled.max b).mpr (Or.inl old))
        · exact Or.inr (Or.inl new)
        · exact Or.inl ((polled.max b).mpr (Or.inr sent))
    · obtain ⟨c1, old, moved, -, more⟩ := polled.others name c' same there
      obtain ⟨g, place, named, other⟩ := inv.linked name c1 old
      have different : process ≠ c'.process := by
        intro equal
        rw [← moved, ← equal, here] at place
        exact same ((Option.some.inj place).symm ▸ named).symm
      refine ⟨g, ?_, named, ?_, fun b found => ?_⟩
      · rw [List.getElem?_set_ne different, moved, place]
      · intro b member
        by_cases known : b ∈ x.server.maxDagSignal
        · exact (other.spread b known).imp_right fun rest => rest.imp_left fun waiting => more b (Or.inl waiting)
        · have sent := ((polled.max b).mp member).resolve_left known
          exact Or.inr (Or.inl (more b (Or.inr ⟨sent, known⟩)))
      · exact (other.reported b found).imp_left fun old => (polled.max b).mpr (Or.inl old)

theorem Inv.serve (inv : x.Inv) (process : Nat) (visit : Go.RangeOrder) (own : x.OwnConnection (.serve process visit)) :
    (x.serve process visit).Inv := by
  rcases serve_cases x process visit with same | ⟨f, ser, here, request, result⟩
  · rw [same]
    exact inv
  · rw [result]
    cases registered : x.server.fuzzers.lookup f.name with
    | none =>
      have nothing : RPCServer.poll visit x.server f.name ser = (x.server, Signal.serialize ∅) := by
        unfold RPCServer.poll
        rw [registered]
      rw [nothing]
      exact inv.answer here registered
    | some c =>
      have process_eq : c.process = process := by
        simpa [OwnConnection, here, registered] using own
      have sent : f.sending = deserialize ser := by rw [Fuzzer.sending, request]
      have flat : Flat (deserialize ser) := sent ▸ (inv.sound process f here).flatSending
      have polled := poll_spec inv.flatMax inv.flatConns visit registered flat
      exact inv.polled here request registered process_eq (sent ▸ polled)

/-- One step keeps the invariant, if a poll it serves belongs to the connection it is served under. -/
theorem Inv.step (inv : x.Inv) (action : Action) (own : x.OwnConnection action) : (x.step action).Inv := by
  cases action with
  | connect name => exact inv.connect name
  | discover process raw =>
    refine inv.modify process (fun f => ?_) (fun f sound => (sound.discover raw).sound) fun f max c sound tie => ?_
    · unfold Fuzzer.discover
      rcases checkNewDagSignal_cases f raw with result | result <;> rw [result]
    · have found := sound.discover raw
      have pending : (f.discover raw).receiving = f.receiving ∧ (f.discover raw).sending = f.sending := by
        simp only [Fuzzer.receiving, Fuzzer.sending, found.pending, and_self]
      refine ⟨fun b member => ?_, fun b novel => ?_⟩
      · exact (tie.spread b member).imp (found.known b) (Or.imp_right fun coming => pending.1 ▸ coming)
      · rcases found.new b novel with old | new
        · exact (tie.reported b old).imp_right (Or.imp (found.kept b) fun sent => pending.2 ▸ sent)
        · exact Or.inr (Or.inl new)
  | send process =>
    refine inv.modify process (fun f => ?_) (fun f sound => sound.send.sound) fun f max c sound tie => ?_
    · unfold Fuzzer.send
      split
      · rcases grabNewDagSignal_cases f with result | result <;> rw [result]
      · rfl
    · have sent := sound.send
      refine ⟨fun b member => ?_, fun b novel => ?_⟩
      · exact (tie.spread b member).imp (fun known => sent.max ▸ known) (Or.imp_right (sent.receiving b))
      · exact (tie.reported b (sent.novel ▸ novel)).imp_right (sent.moved b)
  | serve process visit => exact inv.serve process visit own
  | receive process =>
    refine inv.modify process (fun f => ?_) (fun f sound => sound.receive.sound) fun f max c sound tie => ?_
    · unfold Fuzzer.receive Fuzzer.addMaxDagSignal
      split
      · split <;> rfl
      · rfl
    · have received := sound.receive
      refine ⟨fun b member => ?_, fun b novel => ?_⟩
      · rcases tie.spread b member with known | waiting | coming
        · exact (received.known b (Or.inl known)).imp_right Or.inr
        · exact Or.inr (Or.inl waiting)
        · exact (received.known b (Or.inr coming)).imp_right Or.inr
      · exact (tie.reported b (received.novel ▸ novel)).imp_right (Or.imp (fun new => received.new ▸ new) (received.sending b))
  | shutdownInstance name => exact inv.shutdownInstance name

/-- No bit is lost or reported twice in a run that serves each poll under the connection of its own process. -/
theorem exchange_noBitLost {steps : List Action} (own : GuardedRun.Each step OwnConnection {} steps) (n : Nat) :
    NoBitLost (GuardedRun.run step {} (steps.take n)) := by
  have keeps : ∀ x action, Inv x → OwnConnection x action → Inv (x.step action) := fun x action inv own => inv.step action own
  exact (own.invariant keeps Inv.start n).noBitLost

/-- Two VMs share a bit, and the first is shut down with a poll under way. -/
def sharing : List Action :=
  [.connect "vm-0", .connect "vm-1", .discover 0 [5], .send 0, .serve 0 .stored, .send 1, .discover 0 [6], .serve 1 .stored,
    .receive 0, .send 0, .shutdownInstance "vm-0", .serve 0 .stored, .receive 1, .connect "vm-0", .discover 2 [5, 7]]

theorem sharing_noBitLost : NoBitLost (GuardedRun.run step {} (sharing.take 15)) :=
  exchange_noBitLost (by decide +kernel) 15

/-- A poll of the first process on `vm-0` is still under way when the second one connects. -/
def takenOver : List Action :=
  [.connect "vm-0", .discover 0 [5], .send 0, .shutdownInstance "vm-0", .connect "vm-0", .serve 0 .stored]

theorem takenOver_lost : ((GuardedRun.run step {} takenOver).server.fuzzers.lookup "vm-0").any (fun c =>
    ((GuardedRun.run step {} takenOver).fuzzers[c.process]?).any fun f =>
      decide (5 ∈ (GuardedRun.run step {} takenOver).server.maxDagSignal ∧ 5 ∉ f.maxDagSignal ∧ 5 ∉ c.newDagSignal ∧
        5 ∉ f.receiving)) = true := by
  decide +kernel

theorem stalePoll_losesBit : ¬ ∀ (steps : List Action) n, NoBitLost (GuardedRun.run step {} (steps.take n)) := by
  intro claim
  obtain ⟨c, registered, rest⟩ := (Option.any_eq_true _ _).mp takenOver_lost
  obtain ⟨f, process, found⟩ := (Option.any_eq_true _ _).mp rest
  obtain ⟨discovered, unknown, unsent, unseen⟩ := of_decide_eq_true found
  rcases (claim takenOver 6).spread "vm-0" c f ⟨registered, process⟩ 5 discovered with known | waiting | coming
  · exact unknown known
  · exact unsent waiting
  · exact unseen coming

end Exchange

end DfsFuzz.Feedback
