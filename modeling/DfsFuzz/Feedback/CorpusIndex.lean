import DfsFuzz.Lib.GuardedRun
import Mathlib.Data.List.Nodup

/-!
The corpus of a fuzzer and the hashes of what is in it (`syz-fuzzer/proc.go`, `syz-fuzzer/fuzzer.go`).
A triage takes the hash and the texts of its programs when it begins, and goes on with what
`Minimize` leaves of them; others run in between.
-/

namespace DfsFuzz.Feedback

/-- What the fuzzer is run with. `hash` is `hash.Hash` on the joined pieces, without its collisions. -/
structure CorpusSetup where
  Prog : Type
  serialize : Prog → List UInt8
  deserializeInput : List (List UInt8) → Option (List Prog)
  isStash : Prog → Bool
  servNum : Nat
  Sig : Type
  [decidableSig : DecidableEq Sig]
  hash : List UInt8 → Sig
  hash_injective : Function.Injective hash

attribute [instance] CorpusSetup.decidableSig

namespace CorpusSetup

variable (setup : CorpusSetup)

def texts (ps : List setup.Prog) : List (List UInt8) := ps.map setup.serialize

def sigOf (data : List (List UInt8)) : setup.Sig := setup.hash data.flatten

structure WorkTriage where
  ps : List setup.Prog
  triageDag : Bool
  /-- `flags & ProgMinimized` -/
  minimized : Bool
  subNum : Nat

/-- A run of `triageInput` or `triageFailure` behind its hash. -/
structure Task where
  ps : List setup.Prog
  mayMinimize : Bool
  data : List (List UInt8)
  sig : setup.Sig
  sent : Bool := false

/-- A program group of the corpus, and the texts that the manager was sent for it. -/
structure Entry where
  ps : List setup.Prog
  sent : Option (List (List UInt8))

structure Corpus where
  corpus : List setup.Entry := []
  corpusHashes : List setup.Sig := []
  tasks : List (Option setup.Task) := []
  /-- what was dropped because its hash was known -/
  duplicates : List (List (List UInt8)) := []

variable {setup}

def Corpus.taskAt (c : setup.Corpus) (task : Nat) : Option setup.Task := (c.tasks[task]?).join

def Corpus.drop (c : setup.Corpus) (data : List (List UInt8)) : setup.Corpus :=
  { c with duplicates := c.duplicates ++ [data] }

def addInputToCorpus (c : setup.Corpus) (ps : List setup.Prog) (sig : setup.Sig) (sent : Option (List (List UInt8))) :
    setup.Corpus :=
  if sig ∈ c.corpusHashes then c.drop (setup.texts ps)
  else { c with corpus := c.corpus ++ [⟨ps, sent⟩], corpusHashes := c.corpusHashes ++ [sig] }

/-- `triageInput` up to its check for duplicates. -/
def triageInput (c : setup.Corpus) (item : setup.WorkTriage) : setup.Corpus :=
  let data := setup.texts item.ps
  let sig := setup.sigOf data
  if sig ∈ c.corpusHashes then c.drop data
  else
    let mayMinimize := !item.triageDag && !item.minimized && decide (setup.servNum ≤ item.subNum) && !item.ps.head?.any setup.isStash
    { c with tasks := c.tasks ++ [some { ps := item.ps, mayMinimize, data, sig }] }

/-- `triageFailure` checks for no duplicates, and does not minimize. -/
def triageFailure (c : setup.Corpus) (ps : List setup.Prog) : setup.Corpus :=
  let data := setup.texts ps
  { c with tasks := c.tasks ++ [some { ps, mayMinimize := false, data, sig := setup.sigOf data }] }

def addInputFromAnotherFuzzer (c : setup.Corpus) (data : List (List UInt8)) : setup.Corpus :=
  match setup.deserializeInput data with
  | none => c
  | some ps => addInputToCorpus c ps (setup.sigOf data) none

inductive CorpusAction (setup : CorpusSetup) where
  | triageInput (item : setup.WorkTriage)
  | triageFailure (ps : List setup.Prog)
  /-- `ps` is what `Minimize` leaves -/
  | minimize (task : Nat) (ps : List setup.Prog)
  | sendInputToManager (task : Nat)
  | addInputToCorpus (task : Nat)
  /-- any of the returns on the way -/
  | giveUp (task : Nat)
  | addInputFromAnotherFuzzer (data : List (List UInt8))

def Corpus.ofTask (c : setup.Corpus) (task : Nat) (step : setup.Task → setup.Corpus) : setup.Corpus :=
  match c.taskAt task with
  | none => c
  | some t => step t

def Corpus.setTask (c : setup.Corpus) (task : Nat) (t : Option setup.Task) : setup.Corpus :=
  { c with tasks := c.tasks.set task t }

def Corpus.step (c : setup.Corpus) : CorpusAction setup → setup.Corpus
  | .triageInput item => CorpusSetup.triageInput c item
  | .triageFailure ps => CorpusSetup.triageFailure c ps
  | .minimize task ps => c.ofTask task fun t => if t.mayMinimize then c.setTask task (some { t with ps }) else c
  | .sendInputToManager task => c.ofTask task fun t => c.setTask task (some { t with sent := true })
  | .addInputToCorpus task => c.ofTask task fun t =>
    if t.sent then (CorpusSetup.addInputToCorpus c t.ps t.sig (some t.data)).setTask task none else c
  | .giveUp task => c.setTask task none
  | .addInputFromAnotherFuzzer data => CorpusSetup.addInputFromAnotherFuzzer c data

structure Corpus.Exact (c : setup.Corpus) : Prop where
  index : ∀ sig, sig ∈ c.corpusHashes ↔ ∃ e ∈ c.corpus, sig = setup.sigOf (setup.texts e.ps)
  distinct : (c.corpus.map fun e => setup.texts e.ps).Nodup
  sent : ∀ e ∈ c.corpus, ∀ data, e.sent = some data → data = setup.texts e.ps
  duplicates : ∀ data ∈ c.duplicates, ∃ e ∈ c.corpus, setup.texts e.ps = data

/-- No group of the corpus has the joined text of `data` without its texts. -/
def Corpus.Unambiguous (c : setup.Corpus) (data : List (List UInt8)) : Prop :=
  ∀ e ∈ c.corpus, (setup.texts e.ps).flatten = data.flatten → setup.texts e.ps = data

/-- A step whose hash stands for the texts of its programs. -/
def Corpus.Faithful (c : setup.Corpus) : CorpusAction setup → Prop
  | .triageInput item => c.Unambiguous (setup.texts item.ps)
  | .minimize task ps => ∀ t, c.taskAt task = some t → t.mayMinimize = true → setup.texts ps = setup.texts t.ps
  | .addInputToCorpus task => ∀ t, c.taskAt task = some t → c.Unambiguous (setup.texts t.ps)
  | .addInputFromAnotherFuzzer data => c.Unambiguous data ∧ ∀ ps, setup.deserializeInput data = some ps → setup.texts ps = data
  | _ => True

/-! ### What a step keeps -/

theorem Corpus.Exact.same {c c' : setup.Corpus} (exact_ : c.Exact) (corpus : c'.corpus = c.corpus)
    (hashes : c'.corpusHashes = c.corpusHashes) (duplicates : c'.duplicates = c.duplicates) : c'.Exact := by
  refine ⟨?_, ?_, ?_, ?_⟩
  · rw [corpus, hashes]
    exact exact_.index
  · rw [corpus]
    exact exact_.distinct
  · rw [corpus]
    exact exact_.sent
  · rw [corpus, duplicates]
    exact exact_.duplicates

theorem Corpus.Exact.known {c : setup.Corpus} (exact_ : c.Exact) {data : List (List UInt8)} (clear : c.Unambiguous data)
    (known : setup.sigOf data ∈ c.corpusHashes) : ∃ e ∈ c.corpus, setup.texts e.ps = data := by
  obtain ⟨e, member, same⟩ := (exact_.index _).mp known
  exact ⟨e, member, clear e member (setup.hash_injective same).symm⟩

theorem Corpus.Exact.drop {c : setup.Corpus} (exact_ : c.Exact) {data : List (List UInt8)}
    (there : ∃ e ∈ c.corpus, setup.texts e.ps = data) : (c.drop data).Exact := by
  refine ⟨exact_.index, exact_.distinct, exact_.sent, fun data' member => ?_⟩
  rcases List.mem_append.mp member with old | new
  · exact exact_.duplicates data' old
  · obtain rfl := List.mem_singleton.mp new
    exact there

theorem Corpus.Exact.addInputToCorpus {c : setup.Corpus} (exact_ : c.Exact) {ps : List setup.Prog}
    (clear : c.Unambiguous (setup.texts ps)) (sent : Option (List (List UInt8)))
    (own : ∀ data, sent = some data → data = setup.texts ps) :
    (CorpusSetup.addInputToCorpus c ps (setup.sigOf (setup.texts ps)) sent).Exact := by
  unfold CorpusSetup.addInputToCorpus
  by_cases known : setup.sigOf (setup.texts ps) ∈ c.corpusHashes
  · rw [if_pos known]
    exact exact_.drop (exact_.known clear known)
  · rw [if_neg known]
    have new : ∀ e ∈ c.corpus, setup.texts e.ps ≠ setup.texts ps := by
      intro e member same
      exact known ((exact_.index _).mpr ⟨e, member, by rw [same]⟩)
    refine ⟨fun sig => ?_, ?_, fun e member => ?_, fun data member => ?_⟩
    · rw [List.mem_append, exact_.index, List.mem_singleton]
      simp only [List.mem_append, List.mem_singleton, or_and_right, exists_or, exists_eq_left]
    · rw [List.map_append]
      refine exact_.distinct.append (List.nodup_singleton _) fun data old added => ?_
      obtain ⟨e, member, rfl⟩ := List.mem_map.mp old
      exact new e member (List.mem_singleton.mp added)
    · rcases List.mem_append.mp member with old | added
      · exact exact_.sent e old
      · obtain rfl := List.mem_singleton.mp added
        exact own
    · obtain ⟨e, old, same⟩ := exact_.duplicates data member
      exact ⟨e, List.mem_append_left _ old, same⟩

/-- The texts and the hash that a task carries are those of its programs. -/
def Task.Own (t : setup.Task) : Prop := t.data = setup.texts t.ps ∧ t.sig = setup.sigOf t.data

structure Corpus.Inv (c : setup.Corpus) : Prop where
  exact_ : c.Exact
  own : ∀ t, some t ∈ c.tasks → t.Own

theorem Corpus.taskAt_mem {c : setup.Corpus} {task : Nat} {t : setup.Task} (found : c.taskAt task = some t) :
    some t ∈ c.tasks := by
  unfold Corpus.taskAt at found
  cases here : c.tasks[task]? with
  | none =>
    rw [here] at found
    cases found
  | some t' =>
    rw [here] at found
    obtain rfl : t' = some t := found
    exact List.mem_of_getElem? here

theorem Corpus.Inv.setTask {c : setup.Corpus} (inv : c.Inv) (task : Nat) {t : Option setup.Task}
    (own : ∀ t', t = some t' → t'.Own) : (c.setTask task t).Inv := by
  refine ⟨inv.exact_.same rfl rfl rfl, fun t' member => ?_⟩
  rcases List.mem_or_eq_of_mem_set member with old | new
  · exact inv.own t' old
  · exact own t' new.symm

theorem Corpus.Inv.newTask {c : setup.Corpus} (inv : c.Inv) {t : setup.Task} (own : t.Own) :
    Corpus.Inv { c with tasks := c.tasks ++ [some t] } := by
  refine ⟨inv.exact_.same rfl rfl rfl, fun t' member => ?_⟩
  rcases List.mem_append.mp member with old | new
  · exact inv.own t' old
  · obtain rfl := Option.some.inj (List.mem_singleton.mp new)
    exact own

theorem addInputToCorpus_tasks (c : setup.Corpus) (ps : List setup.Prog) (sig : setup.Sig)
    (sent : Option (List (List UInt8))) : (CorpusSetup.addInputToCorpus c ps sig sent).tasks = c.tasks := by
  unfold CorpusSetup.addInputToCorpus
  split <;> rfl

theorem Corpus.Inv.ofTask {c : setup.Corpus} (inv : c.Inv) (task : Nat) {step : setup.Task → setup.Corpus}
    (each : ∀ t, c.taskAt task = some t → t.Own → (step t).Inv) : (c.ofTask task step).Inv := by
  unfold Corpus.ofTask
  cases found : c.taskAt task with
  | none => exact inv
  | some t => exact each t found (inv.own t (Corpus.taskAt_mem found))

theorem Corpus.Inv.step {c : setup.Corpus} (inv : c.Inv) (action : CorpusAction setup) (faithful : c.Faithful action) :
    (c.step action).Inv := by
  cases action with
  | triageInput item =>
    unfold Corpus.step CorpusSetup.triageInput
    dsimp only
    split
    · rename_i known
      exact ⟨inv.exact_.drop (inv.exact_.known faithful known), inv.own⟩
    · exact inv.newTask ⟨rfl, rfl⟩
  | triageFailure ps => exact inv.newTask ⟨rfl, rfl⟩
  | minimize task ps =>
    refine inv.ofTask task fun t found own => ?_
    by_cases may : t.mayMinimize = true
    · rw [if_pos may]
      refine inv.setTask task fun t' same => ?_
      obtain rfl := Option.some.inj same
      exact ⟨own.1.trans (faithful t found may).symm, own.2⟩
    · rw [if_neg may]
      exact inv
  | sendInputToManager task =>
    refine inv.ofTask task fun t found own => inv.setTask task fun t' same => ?_
    obtain rfl := Option.some.inj same
    exact own
  | addInputToCorpus task =>
    refine inv.ofTask task fun t found own => ?_
    split
    · have added := inv.exact_.addInputToCorpus (faithful t found) (some t.data) (fun data same => by
        rw [← Option.some.inj same]
        exact own.1)
      rw [own.2, own.1]
      rw [own.1] at added
      refine Corpus.Inv.setTask ⟨added, fun t' member => ?_⟩ task fun t' none => nomatch none
      rw [addInputToCorpus_tasks] at member
      exact inv.own t' member
    · exact inv
  | giveUp task => exact inv.setTask task fun t' none => nomatch none
  | addInputFromAnotherFuzzer data =>
    unfold Corpus.step CorpusSetup.addInputFromAnotherFuzzer
    dsimp only
    cases found : setup.deserializeInput data with
    | none => exact inv
    | some ps =>
      have texts := faithful.2 ps found
      have added := inv.exact_.addInputToCorpus (texts ▸ faithful.1) none (fun data none => nomatch none)
      rw [texts] at added
      refine ⟨added, fun t member => ?_⟩
      rw [addInputToCorpus_tasks] at member
      exact inv.own t member

/-- The index is exact in every state of a run whose hashes stand for the texts of the programs. -/
theorem corpus_exact {steps : List (CorpusAction setup)} (faithful : GuardedRun.Each Corpus.step Corpus.Faithful {} steps)
    (n : Nat) : (GuardedRun.run Corpus.step ({} : setup.Corpus) (steps.take n)).Exact := by
  have start : Corpus.Inv ({} : setup.Corpus) := by
    refine ⟨⟨fun sig => ?_, List.nodup_nil, fun e none => (nomatch none), fun data none => (nomatch none)⟩, fun t none => nomatch none⟩
    exact ⟨fun none => (nomatch none), fun ⟨e, empty, _⟩ => nomatch empty⟩
  exact (faithful.invariant (fun c action inv meets => inv.step action meets) start n).exact_

def lines : CorpusSetup where
  Prog := List (List UInt8)
  serialize calls := calls.flatten
  deserializeInput _ := none
  isStash _ := false
  servNum := 0
  Sig := List UInt8
  hash := id
  hash_injective := Function.injective_id

/-- A client program of two calls, found by its coverage. -/
def twoCalls : lines.WorkTriage := { ps := [[[97, 10], [98, 10]]], triageDag := false, minimized := false, subNum := 0 }

/-- A found input that `Minimize` leaves as it is. -/
def unminimized : List (CorpusAction lines) :=
  [.triageInput twoCalls, .minimize 0 twoCalls.ps, .sendInputToManager 0, .addInputToCorpus 0]

theorem corpus_exact_unminimized : (GuardedRun.run Corpus.step ({} : lines.Corpus) (unminimized.take 4)).Exact := by
  have faithful : GuardedRun.Each Corpus.step Corpus.Faithful {} unminimized := by
    refine ⟨fun e none => (nomatch none), fun t found may => ?_, trivial, fun t found e none => (nomatch none), trivial⟩
    obtain rfl := Option.some.inj found
    rfl
  exact corpus_exact faithful 4

def minimized : List (CorpusAction lines) :=
  [.triageInput twoCalls, .minimize 0 [[[97, 10]]], .sendInputToManager 0, .addInputToCorpus 0]

/-- The manager has another program than the corpus, and the hash is of that one. -/
theorem minimized_notExact : ¬ ∀ (setup : CorpusSetup) (steps : List (CorpusAction setup)) (n : Nat),
    (GuardedRun.run Corpus.step ({} : setup.Corpus) (steps.take n)).Exact := by
  intro claim
  have exact_ := claim lines minimized 4
  have member : (⟨[[[97, 10]]], some [[97, 10, 98, 10]]⟩ : lines.Entry) ∈
      (GuardedRun.run Corpus.step ({} : lines.Corpus) (minimized.take 4)).corpus := List.mem_singleton.mpr rfl
  exact absurd (exact_.sent _ member _ rfl) (by decide)

end CorpusSetup

end DfsFuzz.Feedback
