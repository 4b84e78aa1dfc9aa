import DfsFuzz.Feedback.Signal

/-!
The inputs that `signal.Minimize` keeps of the manager's corpus (`pkg/signal/signal.go`): they have every bit at
the highest priority that an input has it at.
-/

namespace DfsFuzz.Feedback

structure RPCInput where
  call : String
  prog : List (List UInt8)
  cliSignal : Serial
  srvSignal : Serial
  cliCover : List UInt32

namespace CampaignSetup

/-- `signal.Minimize` up to its result: for each bit the index of the first input that has it at its highest priority. -/
def covered (corpus : List RPCInput) : Go.Map UInt32 (Int8 × Nat) :=
  corpus.zipIdx.foldl
    (fun covered (inp, i) =>
      let allSignal := Signal.merge (Signal.merge ∅ (Signal.deserialize inp.cliSignal)) (Signal.deserialize inp.srvSignal)
      allSignal.items.foldl
        (fun covered (e, p) =>
          match covered.lookup e with
          | some prev => if p > prev.1 then covered.insert e (p, i) else covered
          | none => covered.insert e (p, i))
        covered)
    ∅

def minimize (corpus : List RPCInput) : List RPCInput :=
  let indices := (covered corpus).items.map fun (_, cp) => cp.2
  corpus.zipIdx.filterMap fun (inp, i) => if i ∈ indices then some inp else none

def allSignal (inp : RPCInput) : Signal :=
  Signal.merge (Signal.merge ∅ (Signal.deserialize inp.cliSignal)) (Signal.deserialize inp.srvSignal)

/-- Some input has the bit at this priority or a higher one. -/
def Reaches (corpus : List RPCInput) (e : UInt32) (q : Int8) : Prop :=
  ∃ inp ∈ corpus, ∃ p, (allSignal inp).lookup e = some p ∧ q ≤ p

/-- The map has an entry that was seen for each bit, and the highest. -/
def Best (m : Go.Map UInt32 (Int8 × Nat)) (seen : List (UInt32 × Int8 × Nat)) : Prop :=
  (∀ e p i, m.lookup e = some (p, i) → (e, p, i) ∈ seen) ∧ ∀ e p i, (e, p, i) ∈ seen → ∃ best, m.lookup e = some best ∧ p ≤ best.1

def coverStep (m : Go.Map UInt32 (Int8 × Nat)) (x : UInt32 × Int8 × Nat) : Go.Map UInt32 (Int8 × Nat) :=
  match m.lookup x.1 with
  | some prev => if x.2.1 > prev.1 then m.insert x.1 x.2 else m
  | none => m.insert x.1 x.2

theorem Best.foldl {m : Go.Map UInt32 (Int8 × Nat)} {seen : List (UInt32 × Int8 × Nat)} (best : Best m seen)
    (xs : List (UInt32 × Int8 × Nat)) : Best (xs.foldl coverStep m) (seen ++ xs) := by
  induction xs generalizing m seen with
  | nil => rwa [List.append_nil]
  | cons x xs ih =>
    have next : Best (coverStep m x) (seen ++ [x]) := by
      unfold Best coverStep at *
      grind [AList.lookup_insert, AList.lookup_insert_ne]
    simpa using ih next

theorem mem_minimize {corpus : List RPCInput} {inp : RPCInput} :
    inp ∈ minimize corpus ↔ ∃ i, (inp, i) ∈ corpus.zipIdx ∧ ∃ e p, (covered corpus).lookup e = some (p, i) := by
  simp only [minimize, List.mem_filterMap, List.mem_map, Prod.exists, Go.Map.mem_items.symm]
  grind

/-- The inputs that are kept have every bit at the highest priority that an input has it at. -/
theorem minimize_reaches (corpus : List RPCInput) (e : UInt32) (q : Int8) : Reaches (minimize corpus) e q ↔ Reaches corpus e q := by
  constructor
  · rintro ⟨inp, member, reaches⟩
    obtain ⟨i, inside, -⟩ := mem_minimize.mp member
    exact ⟨inp, List.fst_mem_of_mem_zipIdx inside, reaches⟩
  · rintro ⟨inp, member, p, found, low⟩
    let entries := corpus.zipIdx.flatMap fun x => (allSignal x.1).items.map fun y => (y.1, y.2, x.2)
    have best : Best (covered corpus) entries := by
      have start : Best ∅ [] := ⟨nofun, nofun⟩
      have folded := start.foldl entries
      simp only [List.nil_append, entries, List.foldl_flatMap, List.foldl_map] at folded
      exact folded
    have listed : ∀ {e p i}, (e, p, i) ∈ entries ↔ ∃ inp, (inp, i) ∈ corpus.zipIdx ∧ (allSignal inp).lookup e = some p := by
      simp [entries, Go.Map.mem_items]
    obtain ⟨i, here⟩ := List.getElem?_of_mem member
    obtain ⟨⟨p', j⟩, top, above⟩ := best.2 e p i (listed.mpr ⟨inp, List.mk_mem_zipIdx_iff_getElem?.mpr here, found⟩)
    obtain ⟨kept, there, has⟩ := listed.mp (best.1 e p' j top)
    exact ⟨kept, mem_minimize.mpr ⟨j, there, e, p', top⟩, p', has, Int8.le_trans low above⟩

end CampaignSetup

end DfsFuzz.Feedback
