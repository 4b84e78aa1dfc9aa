import DfsFuzz.Symsc.Runs

/-! The orders that the exploration runs, against program order and real-time order. -/

namespace DfsFuzz.Symsc

open Linearize

variable {σ : Type} {t : Times} {w : World σ} {start : σ} {P : Programs}

/-- Times consistent with program order: each operation ends before the next one of its program starts. -/
structure Consistent (t : Times) (P : Programs) : Prop where
  nodup : P.flatten.Nodup
  window : ∀ op ∈ P.flatten, t.stime op ≤ t.etime op
  program : ∀ prog ∈ P, prog.IsChain fun x y => t.etime x ≤ t.stime y

/-- `x` comes earlier in the program of `y`, or ended before `y` started. -/
def Before (t : Times) (P : Programs) (x y : Op) : Prop :=
  (∃ prog ∈ P, [x, y].Sublist prog) ∨ (x ∈ P.flatten ∧ y ∈ P.flatten ∧ t.etime x < t.stime y)

/-- A sequence that runs no operation twice and each one only after all that precede it in its program or in time. -/
structure InOrder (t : Times) (P : Programs) (order : List Op) : Prop where
  nodup : order.Nodup
  known : ∀ x ∈ order, x ∈ P.flatten
  program : ∀ prog ∈ P, ∀ x y, [x, y].Sublist prog → y ∈ order → [x, y].Sublist order
  realTime : ∀ x ∈ P.flatten, ∀ y ∈ order, t.etime x < t.stime y → [x, y].Sublist order

theorem inOrder_iff {order : List Op} :
    InOrder t P order ↔ (∀ x ∈ order, x ∈ P.flatten) ∧ Legal (Before t P) [] order := by
  rw [legal_iff_sublist]
  constructor
  · intro inOrder
    refine ⟨inOrder.known, inOrder.nodup, ?_⟩
    rintro x y (⟨prog, member, early⟩ | ⟨known, -, ended⟩) ran
    · exact inOrder.program prog member x y early ran
    · exact inOrder.realTime x known y ran ended
  · rintro ⟨known, nodup, ordered⟩
    refine ⟨nodup, known, fun prog member x y early ran => ?_, fun x here y ran ended => ?_⟩
    · exact ordered x y (.inl ⟨prog, member, early⟩) ran
    · exact ordered x y (.inr ⟨here, known y ran, ended⟩) ran

/-- Everything that precedes the operation has run. -/
def Preds (t : Times) (P : Programs) (done : List Op) (op : Op) : Prop := ∀ x, Before t P x op → x ∈ done

/-! ### The operation that starts first -/

theorem Consistent.pairwise (consistent : Consistent t P) {prog : List Op} (member : prog ∈ P) :
    prog.Pairwise fun x y => t.etime x ≤ t.stime y := by
  have window : ∀ op ∈ prog, t.stime op ≤ t.etime op :=
    fun op inside => consistent.window op (List.mem_flatten.mpr ⟨prog, member, inside⟩)
  have chain := consistent.program prog member
  clear member
  induction prog with
  | nil => exact List.Pairwise.nil
  | cons x rest ih =>
    have window' : ∀ op ∈ rest, t.stime op ≤ t.etime op := fun op inside => window op (List.mem_cons_of_mem _ inside)
    cases rest with
    | nil => exact List.pairwise_singleton _ _
    | cons y rest =>
      rw [List.isChain_cons_cons] at chain
      have later := ih window' chain.2
      refine List.pairwise_cons.mpr ⟨fun z inside => ?_, later⟩
      have here := window y (by simp)
      rcases List.mem_cons.mp inside with rfl | behind
      · exact chain.1
      · have next := (List.pairwise_cons.mp later).1 z behind
        omega

theorem Consistent.starts_pairwise (consistent : Consistent t P) {prog : List Op} (member : prog ∈ P) :
    prog.Pairwise fun x y => t.stime x ≤ t.stime y := by
  refine (consistent.pairwise member).imp_of_mem fun {x y} inside _ ended => ?_
  have window := consistent.window x (List.mem_flatten.mpr ⟨prog, member, inside⟩)
  omega

theorem Consistent.leftover (consistent : Consistent t P) (done : List Op) : Consistent t (left P done) := by
  constructor
  · rw [left_flatten]
    exact consistent.nodup.filter _
  · intro x member
    rw [left_flatten] at member
    exact consistent.window x (List.mem_filter.mp member).1
  · intro prog member
    obtain ⟨own, listed, rfl⟩ := List.mem_map.mp member
    exact ((consistent.pairwise listed).filter _).isChain

/-- In a program only operations that have run stand before the first one that is left. -/
theorem before_head {prog rest done : List Op} {x y : Op} (head : (prog.filter fun op => op ∉ done) = y :: rest)
    (early : [x, y].Sublist prog) (nodup : prog.Nodup) : x ∈ done := by
  by_contra waiting
  have both : ([x, y].filter fun op => op ∉ done).Sublist (prog.filter fun op => op ∉ done) := early.filter _
  have fresh : y ∉ done := by
    have inside : y ∈ prog.filter fun op => op ∉ done := head ▸ List.mem_cons_self
    simpa using (List.mem_filter.mp inside).2
  have once : (y :: rest).Nodup := head ▸ nodup.filter _
  rw [head] at both
  simp only [List.filter_cons, waiting, fresh, not_false_eq_true, decide_true, if_true, List.filter_nil] at both
  rcases List.cons_sublist_cons'.mp both with inside | ⟨-, inside⟩
  · exact (List.nodup_cons.mp once).1 (inside.subset (by simp))
  · exact (List.nodup_cons.mp once).1 (inside.subset (by simp))

theorem same_program (nodup : P.flatten.Nodup) {i j : Nat} {p q : List Op} (here : P[i]? = some p) (there : P[j]? = some q)
    {x : Op} (inside : x ∈ p) (inside' : x ∈ q) : i = j := by
  have apart := List.pairwise_iff_getElem.mp (List.nodup_flatten.mp nodup).2
  obtain ⟨hi, rfl⟩ := List.getElem?_eq_some_iff.mp here
  obtain ⟨hj, rfl⟩ := List.getElem?_eq_some_iff.mp there
  rcases Nat.lt_trichotomy i j with less | same | more
  · exact absurd inside' (List.disjoint_left.mp (apart i j hi hj less) inside)
  · exact same
  · exact absurd inside (List.disjoint_left.mp (apart j i hj hi more) inside')

theorem Consistent.starts (consistent : Consistent t P) {done : List Op} {choice : Choice}
    (next : getNextOp t (left P done) = some choice) : Preds t P done choice.1 := by
  obtain ⟨⟨rest, head⟩, least⟩ := getNextOp_some next
  obtain ⟨own, here, filtered⟩ := getElem?_left.mp head
  have inside : choice.1 ∈ own := (List.mem_filter.mp (filtered ▸ List.mem_cons_self : choice.1 ∈ own.filter _)).1
  rintro x (⟨prog, listed, early⟩ | ⟨known, -, ended⟩)
  · obtain ⟨idx, there⟩ := List.getElem?_of_mem listed
    obtain rfl := same_program consistent.nodup there here (early.subset (by simp)) inside
    obtain rfl := Option.some.inj (there.symm.trans here)
    exact before_head filtered.symm early ((List.nodup_flatten.mp consistent.nodup).1 prog listed)
  · by_contra waiting
    obtain ⟨prog, listed, found⟩ := List.mem_flatten.mp known
    obtain ⟨idx, at_⟩ := List.getElem?_of_mem listed
    have left_ : x ∈ prog.filter fun op => op ∉ done := List.mem_filter.mpr ⟨found, by simpa using waiting⟩
    cases remaining : prog.filter fun op => op ∉ done with
    | nil => exact absurd (remaining ▸ left_) (List.not_mem_nil)
    | cons first later =>
      have earliest := least idx first later (getElem?_left.mpr ⟨prog, at_, remaining.symm⟩)
      have sorted := (consistent.starts_pairwise listed).filter fun op => decide (op ∉ done)
      rw [remaining] at sorted left_
      have monotone : t.stime first ≤ t.stime x := by
        rcases List.mem_cons.mp left_ with rfl | behind
        · exact Nat.le_refl _
        · exact (List.pairwise_cons.mp sorted).1 x behind
      have window := consistent.window x known
      omega

/-! ### From stacks to orders -/

theorem Good.readied {done : List Op} {choice : Choice} (good : Good P (Preds w P) done choice) :
    Ready (Before w P) done choice.1 := ⟨good.fresh, good.meets⟩

theorem Sound.inOrder {stack : List (Entry σ)} (sound : Sound w start P (Preds w P) stack) : InOrder w P (ops stack) := by
  rw [inOrder_iff]
  induction stack with
  | nil => simp [Legal]
  | cons s below ih =>
    obtain ⟨good, -, rest⟩ := sound
    obtain ⟨known, legal⟩ := ih rest
    refine ⟨fun x member => ?_, ?_⟩
    · rw [ops_cons] at member
      rcases List.mem_append.mp member with old | new
      · exact known x old
      · rw [List.mem_singleton.mp new]
        exact good.mem_flatten
    · rw [ops_cons, legal_append]
      exact ⟨legal, good.readied, trivial⟩

/-- One operation is emulated and its result is checked. -/
def step (w : World σ) (s : σ) (op : Op) : Option σ := if accepted w s op then some (w.emulate s op).2 else none

/-- Every state check along the order and the final check succeed. -/
def Succeeds (w : World σ) (start : σ) (order : List Op) : Prop :=
  ∃ s, run (step w) start order = some s ∧ w.checkPersistenceState s = true

theorem Sound.run {extra : List Op → Op → Prop} {stack : List (Entry σ)} (sound : Sound w start P extra stack)
    (passed : Passed w start stack) : run (step w) start (ops stack) = some (topState start stack) := by
  induction stack with
  | nil => rfl
  | cons s below ih =>
    obtain ⟨-, state, rest⟩ := sound
    rw [ops_cons, run_append, ih rest passed.2, Option.bind_some]
    simp [Linearize.run, step, passed.1, state]

theorem perm_of_finished (nodup : P.flatten.Nodup) {order : List Op} (inOrder : InOrder w P order)
    (finished : getNextOp w (left P order) = none) : order.Perm P.flatten := by
  refine (List.perm_ext_iff_of_nodup inOrder.nodup nodup).mpr fun x => ⟨inOrder.known x, fun known => ?_⟩
  by_contra waiting
  have inside : x ∈ (left P order).flatten := by
    rw [left_flatten]
    exact List.mem_filter.mpr ⟨known, by simpa using waiting⟩
  obtain ⟨prog, member, here⟩ := List.mem_flatten.mp inside
  rw [getNextOp_none.mp finished prog member] at here
  simp at here

/-- In a run that records no operation for a state in which one of its predecessors is still to run, every sequence
is in order, and success comes from an order of all operations. -/
theorem explore_inOrder (consistent : Consistent w P) {budget depth : Nat} (enough : P.flatten.length < budget)
    (deep : P.flatten.length < depth) :
    ∃ res m, explore w start budget depth [] P {} = some (res, m) ∧
      ((∀ b ∈ m.log, Records w (Preds w P) b) →
        (∀ b ∈ m.log, InOrder w P (ops b.stack)) ∧
        (res = true → ∃ order, InOrder w P order ∧ order.Perm P.flatten ∧ Succeeds w start order)) := by
  have ends := explore_ends w start consistent.nodup enough depth [] (by simpa [left_nil] using deep)
  obtain ⟨⟨res, m⟩, ran⟩ := ends {} [] .nil trivial trivial (.inl rfl) (by simp)
  rw [ops_nil, left_nil] at ran
  refine ⟨res, m, ran, fun records => ?_⟩
  have explored : ExploreSpec w start P (Preds w P) (explore w start budget depth) :=
    explore_sound start consistent.nodup (fun _ _ next => consistent.starts next) budget depth
  have spec := explored [] {} res m []
  rw [ops_nil, left_nil] at spec
  obtain ⟨-, wells, completed⟩ := spec ran .nil trivial trivial (.inl rfl) records (by simp)
  refine ⟨fun b member => (wells b member).sound.inOrder, fun success => ?_⟩
  obtain ⟨full, sound, passed, finished, final⟩ := completed success
  exact ⟨ops full, sound.inOrder, perm_of_finished consistent.nodup sound.inOrder finished, topState start full,
    sound.run passed, final⟩

/-! ### A program whose second operation is run before its first

Operation 0 is one program and lasts from 0 to 100; operations 1 and 2 are the other, from 10 to 20 and from 30 to 40.
Only 0 and 2 are dependent. When 2 is next, 0 is on the stack and 2 is recorded for the state in which neither
had run; from there 2 runs without 1. -/

/-- The state is the sequence itself, and the final check accepts one sequence only. -/
def historyWorld (last : List Op) : World (List Op) where
  stime op := [0, 10, 30].getD op 0
  etime op := [100, 20, 40].getD op 0
  emulate s op := (0, s ++ [op])
  stateCheck _ _ _ := true
  checkPersistenceState s := s = last
  related _ s b := (s.op, b) = (0, 2) || (s.op, b) = (2, 0)
  listSet l := l
  mem_listSet _ _ := Iff.rfl

theorem historyWorld_consistent (last : List Op) : Consistent (historyWorld last) [[0], [1, 2]] := by
  refine ⟨by decide, by simp [historyWorld], ?_⟩
  intro prog member
  rcases List.mem_cons.mp member with rfl | second
  · simp
  · rw [List.mem_singleton.mp second]
    simp [historyWorld]

theorem run_history (last s order : List Op) : run (step (historyWorld last)) s order = some (s ++ order) := by
  induction order generalizing s with
  | nil => simp [run]
  | cons op order ih =>
    have one : step (historyWorld last) s op = some (s ++ [op]) := rfl
    rw [run, one, Option.bind_some, ih]
    simp

/-- Two dependent operations that overlap are tried in both orders, and both are in order. -/
theorem explore_inOrder_race :
    ∃ res m, explore (historyWorld [2, 0]) [] 3 3 [] [[0], [2]] {} = some (res, m) ∧
      (∀ b ∈ m.log, Records (historyWorld [2, 0]) (Preds (historyWorld [2, 0]) [[0], [2]]) b) ∧
      ∀ b ∈ m.log, InOrder (historyWorld [2, 0]) [[0], [2]] (ops b.stack) := by
  have consistent : Consistent (historyWorld [2, 0]) [[0], [2]] := by
    refine ⟨by decide, by simp [historyWorld], fun prog member => ?_⟩
    rcases List.mem_cons.mp member with rfl | second
    · simp
    · rw [List.mem_singleton.mp second]
      simp
  have unordered : ∀ x y, ¬ Before (historyWorld [2, 0]) [[0], [2]] x y := by
    rintro x y (⟨prog, member, early⟩ | ⟨known, known', ended⟩)
    · rcases List.mem_cons.mp member with rfl | second
      · simpa using early.length_le
      · rw [List.mem_singleton.mp second] at early
        simpa using early.length_le
    · simp only [List.flatten_cons, List.flatten_nil, List.append_nil, List.cons_append, List.nil_append, List.mem_cons,
        List.not_mem_nil, or_false] at known known'
      rcases known with rfl | rfl <;> rcases known' with rfl | rfl <;> simp [historyWorld] at ended
  have both := @explore_inOrder _ _ [] _ consistent 3 3 (by decide) (by decide)
  obtain ⟨res, m, ran, legal⟩ := both
  have records : ∀ b ∈ m.log, Records (historyWorld [2, 0]) (Preds (historyWorld [2, 0]) [[0], [2]]) b :=
    fun b _ idx nextOp rest _ s below _ x first => absurd first (unordered x nextOp)
  exact ⟨res, m, ran, records, (legal records).1⟩

theorem explore_outOfOrder :
    Consistent (historyWorld [2, 0, 1]) [[0], [1, 2]] ∧
    (explore (historyWorld [2, 0, 1]) [] 4 4 [] [[0], [1, 2]] {}).map
        (fun out => (out.1, out.2.log.map fun b => ops b.stack)) =
      some (true, [[0], [0, 1], [0, 1, 2], [2], [2, 0], [2, 0, 1]]) ∧
    ¬ InOrder (historyWorld [2, 0, 1]) [[0], [1, 2]] [2, 0, 1] ∧
    ¬ ∃ order, InOrder (historyWorld [2, 0, 1]) [[0], [1, 2]] order ∧ Succeeds (historyWorld [2, 0, 1]) [] order := by
  have wrong : ¬ InOrder (historyWorld [2, 0, 1]) [[0], [1, 2]] [2, 0, 1] := fun inOrder =>
    absurd (inOrder.program [1, 2] (by decide) 1 2 (List.Sublist.refl _) (by decide)) (by decide)
  refine ⟨historyWorld_consistent _, by decide +kernel, wrong, ?_⟩
  rintro ⟨order, inOrder, s, ran, final⟩
  rw [run_history, Option.some.injEq, List.nil_append] at ran
  subst ran
  have same : order = [2, 0, 1] := of_decide_eq_true final
  exact wrong (same ▸ inOrder)

end DfsFuzz.Symsc
