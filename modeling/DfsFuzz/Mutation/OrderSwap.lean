import DfsFuzz.Choice.Relation
import DfsFuzz.Lib.Edits
import DfsFuzz.Prog.BrokenRefs

/-!
The mutators that exchange two calls (`swapDcacheCalls` and `mutateInodeOpsSequence` of
`prog/mutation.go`), and the exchanges that put a use before what it uses.
-/

namespace DfsFuzz.Refs

open DfsFuzz.Choice (Draw)

/-- The calls that `swapDcacheCalls` leaves in place. -/
def fixedInDcache (name : String) : Bool :=
  Go.contains name "syz_failure" || Go.contains name "open" || Go.contains name "close" || Go.contains name "getdents64"

/-- The calls that `mutateInodeOpsSequence` leaves in place. -/
def fixedInInodeOps (name : String) : Bool :=
  Go.contains name "syz_failure" || Go.contains name "open" || Go.contains name "close"

def swapCandidates (fixed : String → Bool) (calls : List Call) : List Nat :=
  (List.range calls.length).filter fun i =>
    match calls[i]? with
    | none => false
    | some call => !fixed call.name

/-- The two positions that are drawn. The second is drawn until it differs from the first. -/
def drawTwo (first second : Draw) (candidates : List Nat) : Nat × Nat :=
  let idx1 := candidates.getD (first.intn candidates.length) 0
  let others := candidates.filter (· ≠ idx1)
  (idx1, others.getD (second.intn others.length) 0)

/-- The exchange that a program is due, if it has enough calls. -/
def drawnSwap (fixed : String → Bool) (first second : Draw) (calls : List Call) : Option (Nat × Nat) :=
  if calls.length < 3 then none
  else if (swapCandidates fixed calls).length < 2 then none
  else some (drawTwo first second (swapCandidates fixed calls))

def swapDcacheCalls (first second : Draw) (p : Prog) : Prog × Bool :=
  match drawnSwap fixedInDcache first second p.calls with
  | none => (p, false)
  | some (idx1, idx2) => ({ p with calls := Swap.swapTwo p.calls idx1 idx2 }, true)

/-- The exchange that `mutateInodeOpsSequence` makes in a program if no program before it has one. -/
def inodeOpsSwap (first second : Draw) (p : Prog) : Option (Nat × Nat) :=
  if !p.flags.isInodeOps then none else drawnSwap fixedInInodeOps first second p.calls

def mutateInodeOpsSequence (first second : Draw) : List Prog → List Prog × Bool
  | [] => ([], false)
  | p :: rest =>
    match inodeOpsSwap first second p with
    | none => (p :: (mutateInodeOpsSequence first second rest).1, (mutateInodeOpsSequence first second rest).2)
    | some (idx1, idx2) => ({ p with calls := Swap.swapTwo p.calls idx1 idx2 } :: rest, true)

/-- `c` refers to a result of `d`. -/
def Uses (m : Memory) (c d : Call) : Prop := ∃ a ∈ c.results, ∃ res ∈ d.owned m, (m.results a).res = some res

/-- The later of the two calls refers to the first or to one between them, or one between them refers to the first. -/
def Crossed (m : Memory) (calls : List Call) (i j : Nat) : Prop :=
  ∃ k l c d, calls[k]? = some c ∧ calls[l]? = some d ∧ Uses m c d ∧ l < k ∧ ((k = j ∧ i ≤ l) ∨ (l = i ∧ k < j))

theorem backward_swapTwo_iff {m : Memory} {calls : List Call} (once : (calls.flatMap Call.results).Nodup)
    (backward : Backward m calls) {i j : Nat} (order : i < j) (inside : j < calls.length) :
    Backward m (Swap.swapTwo calls i j) ↔ ¬ Crossed m calls i j := by
  have read := Swap.getElem?_swapTwo (Nat.lt_trans order inside) inside
  constructor
  · rintro swapped ⟨k, l, c, d, here, there, ⟨a, inC, res, inD, link⟩, before, crossed⟩
    obtain ⟨l', earlier, d', there', inD'⟩ :=
      swapped (Swap.moved i j k) c (by rw [read, Swap.moved_moved, here]) a inC res link
    rw [read] at there'
    have same := index_eq_of_mem_results once there' there (mem_results_of_owned inD') (mem_results_of_owned inD)
    have kept : Swap.moved i j l < Swap.moved i j k := by rwa [← same, Swap.moved_moved]
    obtain ⟨notLast, notFirst⟩ := (Swap.moved_lt_iff order before).mp kept
    rcases crossed with last | first
    · exact notLast last
    · exact notFirst first
  · intro uncrossed k c here a inC res link
    rw [read] at here
    obtain ⟨l, before, d, there, inD⟩ := backward _ c here a inC res link
    refine ⟨Swap.moved i j l, ?_, d, by rw [read, Swap.moved_moved, there], inD⟩
    have kept : Swap.moved i j l < Swap.moved i j (Swap.moved i j k) := by
      refine (Swap.moved_lt_iff order before).mpr ⟨fun last => ?_, fun first => ?_⟩
      · exact uncrossed ⟨_, l, c, d, here, there, ⟨a, inC, res, inD, link⟩, before, Or.inl last⟩
      · exact uncrossed ⟨_, l, c, d, here, there, ⟨a, inC, res, inD, link⟩, before, Or.inr first⟩
    rwa [Swap.moved_moved] at kept

theorem hasBrokenRefs_swapTwo_iff {m : Memory} {p : Prog} (once : p.results.Nodup) (unbroken : hasBrokenRefs m p = false)
    {i j : Nat} (first : i < p.calls.length) (second : j < p.calls.length) (apart : i ≠ j) :
    hasBrokenRefs m { p with calls := Swap.swapTwo p.calls i j } = false ↔ ¬ Crossed m p.calls (min i j) (max i j) := by
  have nodup : ({ p with calls := Swap.swapTwo p.calls i j } : Prog).results.Nodup :=
    ((Swap.swapTwo_perm first second).flatMap_right _).nodup_iff.mpr once
  have backward := (hasBrokenRefs_iff once).mp unbroken
  rw [hasBrokenRefs_iff nodup]
  rcases Nat.lt_or_gt_of_ne apart with before | after
  · rw [Nat.min_eq_left (Nat.le_of_lt before), Nat.max_eq_right (Nat.le_of_lt before)]
    exact backward_swapTwo_iff once backward before second
  · rw [Nat.min_eq_right (Nat.le_of_lt after), Nat.max_eq_left (Nat.le_of_lt after)]
    dsimp only
    rw [Swap.swapTwo_comm first second]
    exact backward_swapTwo_iff once backward after first

theorem mem_swapCandidates {fixed : String → Bool} {calls : List Call} {i : Nat}
    (member : i ∈ swapCandidates fixed calls) : i < calls.length :=
  List.mem_range.mp (List.mem_filter.mp member).1

theorem drawTwo_spec {first second : Draw} {candidates : List Nat} (nodup : candidates.Nodup) (two : ¬ candidates.length < 2) :
    (drawTwo first second candidates).1 ∈ candidates ∧ (drawTwo first second candidates).2 ∈ candidates ∧
      (drawTwo first second candidates).1 ≠ (drawTwo first second candidates).2 := by
  have drawn : ∀ (draw : Draw) (l : List Nat), 0 < l.length → l.getD (draw.intn l.length) 0 ∈ l := by
    intro draw l nonempty
    have below := draw.lt l.length nonempty
    rw [List.getD_eq_getElem?_getD, List.getElem?_eq_getElem below, Option.getD_some]
    exact List.getElem_mem _
  have chosen := drawn first candidates (by omega)
  unfold drawTwo
  dsimp only
  generalize candidates.getD (first.intn candidates.length) 0 = idx1 at *
  have others : 0 < (candidates.filter (· ≠ idx1)).length := by
    have erased : candidates.filter (· ≠ idx1) = candidates.erase idx1 := by
      rw [nodup.erase_eq_filter idx1]
      refine List.filter_congr fun x _ => ?_
      by_cases same : x = idx1 <;> simp [same]
    rw [erased, List.length_erase_of_mem chosen]
    omega
  obtain ⟨member, apart⟩ := List.mem_filter.mp (drawn second _ others)
  exact ⟨chosen, member, fun same => (of_decide_eq_true apart) same.symm⟩

theorem drawnSwap_spec {fixed : String → Bool} {first second : Draw} {calls : List Call} {swap : Nat × Nat}
    (drawn : drawnSwap fixed first second calls = some swap) :
    swap.1 < calls.length ∧ swap.2 < calls.length ∧ swap.1 ≠ swap.2 := by
  unfold drawnSwap at drawn
  split at drawn
  · cases drawn
  · split at drawn
    · cases drawn
    · rename_i two
      obtain rfl := Option.some.inj drawn
      obtain ⟨one, other, apart⟩ := @drawTwo_spec first second _ (List.nodup_range.filter _) two
      exact ⟨mem_swapCandidates one, mem_swapCandidates other, apart⟩

/-! ### Programs after an exchange -/

/-- No exchange is drawn that a reference crosses. -/
def Uncrossed (m : Memory) (calls : List Call) (drawn : Option (Nat × Nat)) : Prop :=
  ∀ swap, drawn = some swap → ¬ Crossed m calls (min swap.1 swap.2) (max swap.1 swap.2)

theorem swapDcacheCalls_unbroken_iff {m : Memory} {p : Prog} (once : p.results.Nodup) (unbroken : hasBrokenRefs m p = false)
    (first second : Draw) : hasBrokenRefs m (swapDcacheCalls first second p).1 = false ↔
      Uncrossed m p.calls (drawnSwap fixedInDcache first second p.calls) := by
  unfold swapDcacheCalls
  cases drawn : drawnSwap fixedInDcache first second p.calls with
  | none =>
    refine iff_of_true unbroken fun swap impossible => ?_
    cases impossible
  | some swap =>
    obtain ⟨one, other, apart⟩ := drawnSwap_spec drawn
    dsimp only
    rw [hasBrokenRefs_swapTwo_iff once unbroken one other apart]
    constructor
    · intro uncrossed swap' same
      rwa [← Option.some.inj same]
    · exact fun uncrossed => uncrossed swap rfl

/-- The exchange that a group is due: that of the first program that has one. -/
def inodeOpsTarget (first second : Draw) (ps : List Prog) : Option Prog :=
  ps.find? fun p => (inodeOpsSwap first second p).isSome

theorem mutateInodeOpsSequence_unbroken_iff {m : Memory} {ps : List Prog}
    (sound : ∀ p ∈ ps, p.results.Nodup ∧ hasBrokenRefs m p = false) (first second : Draw) :
    (∀ p ∈ (mutateInodeOpsSequence first second ps).1, hasBrokenRefs m p = false) ↔
      ∀ p, inodeOpsTarget first second ps = some p → Uncrossed m p.calls (inodeOpsSwap first second p) := by
  induction ps with
  | nil => exact iff_of_true (fun _ member => by cases member) fun _ none => by cases none
  | cons p rest ih =>
    have others : ∀ q ∈ rest, q.results.Nodup ∧ hasBrokenRefs m q = false := fun q member =>
      sound q (List.mem_cons_of_mem _ member)
    obtain ⟨once, unbroken⟩ := sound p List.mem_cons_self
    unfold mutateInodeOpsSequence inodeOpsTarget
    cases drawn : inodeOpsSwap first second p with
    | none =>
      rw [List.find?_cons_of_neg (by rw [drawn]; decide)]
      dsimp only
      rw [List.forall_mem_cons]
      exact (and_iff_right unbroken).trans (ih others)
    | some swap =>
      have positions : swap.1 < p.calls.length ∧ swap.2 < p.calls.length ∧ swap.1 ≠ swap.2 := by
        unfold inodeOpsSwap at drawn
        split at drawn
        · cases drawn
        · exact drawnSwap_spec drawn
      rw [List.find?_cons_of_pos (by rw [drawn]; rfl)]
      dsimp only
      rw [List.forall_mem_cons, hasBrokenRefs_swapTwo_iff once unbroken positions.1 positions.2.1 positions.2.2]
      constructor
      · rintro ⟨uncrossed, _⟩ p' same swap' drawn'
        obtain rfl := Option.some.inj same
        rw [drawn] at drawn'
        rwa [← Option.some.inj drawn']
      · exact fun uncrossed => ⟨uncrossed p rfl swap drawn, fun q member => (others q member).2⟩

/-- Both mutators keep the references in order exactly when no reference crosses the exchange they draw. -/
theorem orderSwaps_unbroken_iff (m : Memory) (first second : Draw) :
    (∀ p : Prog, p.results.Nodup → hasBrokenRefs m p = false →
      (hasBrokenRefs m (swapDcacheCalls first second p).1 = false ↔
        Uncrossed m p.calls (drawnSwap fixedInDcache first second p.calls))) ∧
    ∀ ps : List Prog, (∀ p ∈ ps, p.results.Nodup ∧ hasBrokenRefs m p = false) →
      ((∀ p ∈ (mutateInodeOpsSequence first second ps).1, hasBrokenRefs m p = false) ↔
        ∀ p, inodeOpsTarget first second ps = some p → Uncrossed m p.calls (inodeOpsSwap first second p)) :=
  ⟨fun _ once unbroken => swapDcacheCalls_unbroken_iff once unbroken first second,
    fun _ sound => mutateInodeOpsSequence_unbroken_iff sound first second⟩

/-- `r0 = creat(...)`, `write(r0)` and `mkdir`, in a program of either kind. -/
def creatWrite : Prog where
  calls := [{ name := "creat", args := [.pointer 2 ⟨1, .dirIn⟩ 0 0 (.data 3 ⟨2, .dirIn⟩ [47, 97, 0] 0)], ret := some 0 },
    { name := "write", args := [.result 1], ret := none },
    { name := "mkdir", args := [.pointer 4 ⟨1, .dirIn⟩ 0 0 (.data 5 ⟨2, .dirIn⟩ [47, 98, 0] 0)], ret := none }]
  flags := { isInodeOps := true, isDCache := true }

def creatWriteMemory : Memory where
  next := 6
  results := fun a => if a = 0 then ⟨⟨3, .dirOut⟩, none, 0, 0, 0, [1]⟩ else ⟨⟨3, .dirIn⟩, some 0, 0, 0, 0, []⟩

def lowest : Draw := ⟨fun _ => 0, fun _ positive => positive⟩

/-- The `creat` changes places with the `write` to its descriptor. -/
theorem orderSwaps_break : hasBrokenRefs creatWriteMemory creatWrite = false ∧
    hasBrokenRefs creatWriteMemory (swapDcacheCalls lowest lowest creatWrite).1 = true ∧
    ((mutateInodeOpsSequence lowest lowest [creatWrite]).1.map (hasBrokenRefs creatWriteMemory)) = [true] := by
  decide +kernel

theorem orderSwaps_unbroken_iff_creatWrite :
    ¬ Uncrossed creatWriteMemory creatWrite.calls (drawnSwap fixedInDcache lowest lowest creatWrite.calls) ∧
    ¬ ∀ p, inodeOpsTarget lowest lowest [creatWrite] = some p →
      Uncrossed creatWriteMemory p.calls (inodeOpsSwap lowest lowest p) := by
  have once : creatWrite.results.Nodup := by decide
  have unbroken : hasBrokenRefs creatWriteMemory creatWrite = false := by decide +kernel
  have broken : hasBrokenRefs creatWriteMemory (swapDcacheCalls lowest lowest creatWrite).1 = true := by decide +kernel
  have brokenGroup : (mutateInodeOpsSequence lowest lowest [creatWrite]).1.all
      (fun p => !hasBrokenRefs creatWriteMemory p) = false := by decide +kernel
  obtain ⟨single, group⟩ := orderSwaps_unbroken_iff creatWriteMemory lowest lowest
  constructor
  · intro uncrossed
    exact absurd (broken.symm.trans ((single creatWrite once unbroken).mpr uncrossed)) (by decide)
  · intro uncrossed
    have kept := (group [creatWrite] fun p member => by
      obtain rfl := List.mem_singleton.mp member
      exact ⟨once, unbroken⟩).mpr uncrossed
    rw [List.all_eq_false] at brokenGroup
    obtain ⟨p, member, bad⟩ := brokenGroup
    exact bad (by rw [kept p member]; rfl)

end DfsFuzz.Refs
