import DfsFuzz.Symsc.Frames

/-! What holds along every run of the exploration whose recorded choices are good. -/

namespace DfsFuzz.Symsc

variable {σ : Type} {t : Times} {w : World σ} {start : σ}

theorem getNextOp_some {progs : Programs} {choice : Choice} (next : getNextOp t progs = some choice) :
    (∃ rest, progs[choice.2]? = some (choice.1 :: rest)) ∧
      ∀ (idx : Nat) (op : Op) (rest : List Op), progs[idx]? = some (op :: rest) → t.stime choice.1 ≤ t.stime op := by
  have found : BestScan.Found (fun p : List Op × Nat => p.1.head?.map t.stime) progs.zipIdx _ := BestScan.best_found _ _
  rw [getNextOp, Option.bind_eq_some_iff] at next
  obtain ⟨⟨⟨prog, idx⟩, time⟩, best, chosen⟩ := next
  rw [best] at found
  obtain ⟨op, head, rfl⟩ := Option.map_eq_some_iff.mp chosen
  obtain ⟨before, after, split, -⟩ := found.first
  have scored : time = t.stime op := by
    have := found.scored
    simpa [head] using this.symm
  obtain ⟨rest, rfl⟩ : ∃ rest, prog = op :: rest := by
    cases prog with
    | nil => simp at head
    | cons first rest => exact ⟨rest, by simpa using head⟩
  refine ⟨⟨rest, List.mk_mem_zipIdx_iff_getElem?.mp (by rw [split]; simp)⟩, fun idx' op' rest' here => ?_⟩
  have least := found.least (op' :: rest', idx') (List.mk_mem_zipIdx_iff_getElem?.mpr here) (t.stime op') rfl
  rwa [scored] at least

theorem getNextOp_none {progs : Programs} : getNextOp t progs = none ↔ ∀ prog ∈ progs, prog = [] := by
  have found : BestScan.Found (fun p : List Op × Nat => p.1.head?.map t.stime) progs.zipIdx _ := BestScan.best_found _ _
  constructor
  · intro nothing prog member
    obtain ⟨idx, here⟩ := List.getElem?_of_mem member
    cases best : BestScan.best (fun p : List Op × Nat => p.1.head?.map t.stime) progs.zipIdx with
    | none =>
      rw [best] at found
      simpa using found (prog, idx) (List.mk_mem_zipIdx_iff_getElem?.mpr here)
    | some entry =>
      rw [best] at found
      have scored := found.scored
      obtain ⟨op, head, -⟩ := Option.map_eq_some_iff.mp scored
      simp [getNextOp, best, head] at nothing
  · intro empty
    cases next : getNextOp t progs with
    | none => rfl
    | some choice =>
      obtain ⟨⟨rest, here⟩, -⟩ := getNextOp_some next
      have := empty _ (List.mem_of_getElem? here)
      simp at this

section Recording
variable {P : Programs} {extra : List Op → Op → Prop} {m : Memory σ} {stack : List (Entry σ)} {refs : List Nat}

theorem updateOne_framed (framed : Framed P extra m stack refs) (records : Records w extra ⟨stack, left P (ops stack)⟩)
    {p : List Op × Nat} (here : (left P (ops stack))[p.2]? = some p.1) :
    Framed P extra (updateOne w stack m p) stack refs := by
  obtain ⟨prog, idx⟩ := p
  cases prog with
  | nil => exact framed
  | cons nextOp rest =>
    simp only [updateOne]
    cases hit : scan w stack idx nextOp stack with
    | none => exact framed
    | some found =>
      obtain ⟨s, below⟩ := found
      obtain ⟨above, split⟩ := scan_split hit
      obtain ⟨member, fresh⟩ := mem_left here (List.mem_cons_self : nextOp ∈ nextOp :: rest)
      refine (framed.record split ⟨member, fun ran => fresh ?_, records idx nextOp rest here s below hit⟩).1
      rw [split]
      have inside : nextOp ∈ ops (s :: below) := by simp [ran]
      exact mem_ops_append inside

theorem updateBacktrack_framed (framed : Framed P extra m stack refs)
    (records : Records w extra ⟨stack, left P (ops stack)⟩) :
    Framed P extra (updateBacktrack w stack (left P (ops stack)) m) stack refs := by
  have each : ∀ ps : List (List Op × Nat), (∀ p ∈ ps, (left P (ops stack))[p.2]? = some p.1) →
      ∀ m, Framed P extra m stack refs → Framed P extra (ps.foldl (updateOne w stack) m) stack refs := by
    intro ps
    induction ps with
    | nil => exact fun _ _ framed => framed
    | cons p ps ih =>
      intro all m framed
      exact ih (fun q member => all q (List.mem_cons_of_mem _ member)) _ (updateOne_framed framed records (all p (by simp)))
  exact each _ (fun p member => List.mk_mem_zipIdx_iff_getElem?.mp member) m framed

structure Kept (m m' : Memory σ) : Prop where
  log : m'.log = m.log
  length : m'.lists.length = m.lists.length
  backtracks : m'.backtracks = m.backtracks

theorem updateOne_kept (w : World σ) (stack : List (Entry σ)) (m : Memory σ) (p : List Op × Nat) :
    Kept m (updateOne w stack m p) := by
  unfold updateOne
  split
  · exact ⟨rfl, rfl, rfl⟩
  · split
    · exact ⟨rfl, rfl, rfl⟩
    · exact ⟨by simp, by simp, by simp⟩

theorem updates_kept (w : World σ) (stack : List (Entry σ)) (ps : List (List Op × Nat)) (m : Memory σ) :
    Kept m (ps.foldl (updateOne w stack) m) := by
  induction ps generalizing m with
  | nil => exact ⟨rfl, rfl, rfl⟩
  | cons p ps ih =>
    have here := updateOne_kept w stack m p
    have rest := ih (updateOne w stack m p)
    exact ⟨rest.log.trans here.log, rest.length.trans here.length, rest.backtracks.trans here.backtracks⟩

theorem updateBacktrack_kept (w : World σ) (stack : List (Entry σ)) (progs : Programs) (m : Memory σ) :
    Kept m (updateBacktrack w stack progs m) := updates_kept w stack _ m

end Recording

/-! ### Whole runs -/

/-- A branch in the log: its last operation ran from a stack whose checks all succeeded. -/
structure Well (w : World σ) (start : σ) (P : Programs) (extra : List Op → Op → Prop) (b : Branch σ) : Prop where
  sound : Sound w start P extra b.stack
  passed : Passed w start b.stack.tail
  progs : b.progs = left P (ops b.stack)

/-- Some order of all operations passes every check. -/
def Completed (w : World σ) (start : σ) (P : Programs) (extra : List Op → Op → Prop) : Prop :=
  ∃ full, Sound w start P extra full ∧ Passed w start full ∧ getNextOp w (left P (ops full)) = none ∧
    w.checkPersistenceState (topState start full) = true

/-- The result of exploring from a stack, if everything recorded is good. -/
def ExploreSpec (w : World σ) (start : σ) (P : Programs) (extra : List Op → Op → Prop)
    (again : List (Entry σ) → Programs → Memory σ → Outcome σ) : Prop :=
  ∀ stack m res m' refs, again stack (left P (ops stack)) m = some (res, m') →
    Framed P extra m stack refs → Sound w start P extra stack → Passed w start stack →
    (stack = [] ∨ ⟨stack, left P (ops stack)⟩ ∈ m.log) →
    (∀ b ∈ m'.log, Records w extra b) → (∀ b ∈ m.log, Well w start P extra b) →
    Framed P extra m' stack refs ∧ (∀ b ∈ m'.log, Well w start P extra b) ∧ (res = true → Completed w start P extra)

/-- The state of a loop: the frames below, and the list it runs over. -/
structure LoopInv (P : Programs) (extra : List Op → Op → Prop) (m : Memory σ) (stack : List (Entry σ)) (refs : List Nat)
    (ref : Nat) : Prop where
  framed : Framed P extra m stack refs
  live : ref < m.lists.length
  newer : ∀ old ∈ refs, old < ref
  good : ∀ choice ∈ m.list ref, Good P extra (ops stack) choice

section Loop
variable {P : Programs} {extra : List Op → Op → Prop} {again : List (Entry σ) → Programs → Memory σ → Outcome σ}
  {m m' : Memory σ} {stack : List (Entry σ)} {refs : List Nat} {ref : Nat} {choice : Choice}

theorem LoopInv.push (w : World σ) (start : σ) (inv : LoopInv P extra m stack refs ref)
    (good : Good P extra (ops stack) choice) (progs : Programs) :
    Framed P extra (executed w start stack progs ref m choice) (push w start stack choice) (ref :: refs) := by
  refine .cons (inv.framed.congr (fun _ _ => rfl) (fun s member => ?_) (Nat.le_refl _)) ?_ inv.live inv.newer inv.good
  · have different : s.op ≠ choice.1 := by
      rintro same
      refine good.fresh ?_
      rw [← same]
      simpa [ops] using ⟨s, member, rfl⟩
    simp [executed, Memory.ran, Memory.assign, different]
  · simp [executed, Memory.ran, Memory.assign]

theorem Framed.loopInv (framed : Framed P extra m (push w start stack choice) (ref :: refs)) :
    LoopInv P extra m stack refs ref := by
  cases framed with
  | cons rest bound live newer good => exact ⟨rest, live, newer, good⟩

theorem well_executed (ref : Nat) (nodup : P.flatten.Nodup) (sound : Sound w start P extra stack) (passed : Passed w start stack)
    (logged : ∀ b ∈ m.log, Well w start P extra b) (good : Good P extra (ops stack) choice) :
    ∀ b ∈ (executed w start stack (left P (ops stack)) ref m choice).log, Well w start P extra b := by
  intro b member
  rcases List.mem_append.mp member with old | new
  · exact logged b old
  · rw [List.mem_singleton.mp new]
    exact ⟨sound.push good, passed, by simp [Symsc.push, removeOneOp_left nodup]⟩

theorem Tried.sound (nodup : P.flatten.Nodup) (spec : ExploreSpec w start P extra again)
    (sound : Sound w start P extra stack) (passed : Passed w start stack) (inv : LoopInv P extra m stack refs ref)
    (good : Good P extra (ops stack) choice) {next : Memory σ}
    (tried : Tried w again start stack (left P (ops stack)) ref m choice next)
    (records : ∀ b ∈ next.log, Records w extra b) (logged : ∀ b ∈ m.log, Well w start P extra b) :
    LoopInv P extra next stack refs ref ∧ ∀ b ∈ next.log, Well w start P extra b := by
  have framed := inv.push w start good (left P (ops stack))
  have logged' := well_executed ref nodup sound passed logged good
  have progs : removeOneOp (left P (ops stack)) choice.1 = left P (ops (Symsc.push w start stack choice)) := by
    simp [Symsc.push, removeOneOp_left nodup]
  have here := executed_logged w start stack (left P (ops stack)) ref m choice
  rw [progs] at here
  cases tried with
  | explored checked nothing =>
    rw [progs] at nothing
    obtain ⟨after, wells, -⟩ :=
      spec _ _ _ _ _ nothing framed (sound.push good) ⟨checked, passed⟩ (.inr here) records logged'
    exact ⟨after.loopInv, wells⟩
  | refused failed =>
    rw [progs] at records ⊢
    have kept := updateBacktrack_kept w (Symsc.push w start stack choice) (left P (ops (Symsc.push w start stack choice)))
      (executed w start stack (left P (ops stack)) ref m choice)
    rw [kept.log] at records ⊢
    exact ⟨(updateBacktrack_framed framed (records _ here)).loopInv, logged'⟩

theorem loop_sound (nodup : P.flatten.Nodup) (spec : ExploreSpec w start P extra again)
    (again_grows : ∀ stack progs m res m', again stack progs m = some (res, m') → Grows m m')
    (sound : Sound w start P extra stack) (passed : Passed w start stack) {budget : Nat} {done : List Choice} {res : Bool}
    (ran : loop w again start stack (left P (ops stack)) ref budget done m = some (res, m'))
    (inv : LoopInv P extra m stack refs ref) (records : ∀ b ∈ m'.log, Records w extra b)
    (logged : ∀ b ∈ m.log, Well w start P extra b) :
    LoopInv P extra m' stack refs ref ∧ (∀ b ∈ m'.log, Well w start P extra b) ∧
      (res = true → Completed w start P extra) := by
  induction budget generalizing done m with
  | zero => simp [loop] at ran
  | succ budget ih =>
    rcases loop_cases ran with ⟨-, rfl, rfl⟩ | ⟨choice, listed, ⟨checked, rfl, called⟩ | ⟨next, tried, rest⟩⟩
    · exact ⟨inv, logged, by simp⟩
    · have good := inv.good choice (mem_remaining.mp listed).1
      have here := executed_logged w start stack (left P (ops stack)) ref m choice
      have progs : removeOneOp (left P (ops stack)) choice.1 = left P (ops (Symsc.push w start stack choice)) := by
        simp [Symsc.push, removeOneOp_left nodup]
      rw [progs] at called here
      obtain ⟨after, wells, completed⟩ := spec _ _ _ _ _ called (inv.push w start good _) (sound.push good) ⟨checked, passed⟩
        (.inr here) records (well_executed ref nodup sound passed logged good)
      exact ⟨after.loopInv, wells, completed⟩
    · have good := inv.good choice (mem_remaining.mp listed).1
      have later : Grows next m' := loop_grows again_grows rest
      obtain ⟨inv', logged'⟩ := tried.sound nodup spec sound passed inv good
        (fun b member => records b (later.log b member)) logged
      exact ih rest inv' logged'

end Loop

theorem Framed.alloc {P : Programs} {extra : List Op → Op → Prop} {m : Memory σ} {stack : List (Entry σ)} {refs : List Nat}
    (framed : Framed P extra m stack refs) {choice : Choice} (next : getNextOp w (left P (ops stack)) = some choice)
    (meets : extra (ops stack) choice.1) : LoopInv P extra (m.alloc [choice]) stack refs m.lists.length := by
  obtain ⟨⟨rest, head⟩, -⟩ := getNextOp_some next
  obtain ⟨member, fresh⟩ := mem_left head (List.mem_cons_self : choice.1 ∈ choice.1 :: rest)
  refine ⟨framed.congr (fun ref old => ?_) (fun _ _ => rfl) (by simp [Memory.alloc]), by simp [Memory.alloc],
    framed.live, fun c listed => ?_⟩
  · rw [Memory.list_alloc, if_neg (Nat.ne_of_lt (framed.live ref old))]
  · rw [Memory.list_alloc, if_pos rfl] at listed
    rw [List.mem_singleton.mp listed]
    exact ⟨member, fresh, meets⟩

theorem explore_sound (start : σ) {P : Programs} {extra : List Op → Op → Prop} (nodup : P.flatten.Nodup)
    (starts : ∀ done choice, getNextOp w (left P done) = some choice → extra done choice.1) (budget depth : Nat) :
    ExploreSpec w start P extra (explore w start budget depth) := by
  induction depth with
  | zero =>
    intro stack m res m' refs ran
    simp [explore] at ran
  | succ depth ih =>
    intro stack m res m' refs ran framed sound passed here records logged
    have grows := explore_grows ran
    have kept := updateBacktrack_kept w stack (left P (ops stack)) m
    have top : Records w extra ⟨stack, left P (ops stack)⟩ := by
      rcases here with rfl | member
      · intro idx nextOp rest head s below hit
        simp [scan] at hit
      · exact records _ (grows.log _ (by rwa [kept.log]))
    have framed' := updateBacktrack_framed framed top
    have logged' : ∀ b ∈ (updateBacktrack w stack (left P (ops stack)) m).log, Well w start P extra b := by
      rwa [kept.log]
    rw [explore] at ran
    cases next : getNextOp w (left P (ops stack)) with
    | none =>
      simp only [next, Option.some.injEq, Prod.mk.injEq] at ran
      obtain ⟨rfl, rfl⟩ := ran
      exact ⟨framed', logged', fun final => ⟨stack, sound, passed, next, final⟩⟩
    | some choice =>
      simp only [next] at ran
      have inv := framed'.alloc next (starts _ _ next)
      obtain ⟨after, wells, completed⟩ := loop_sound nodup ih
        (fun stack progs m res m' called => (updateBacktrack_grows stack progs m).trans (explore_grows called))
        sound passed ran inv records logged'
      exact ⟨after.framed, wells, completed⟩

/-! ### The exploration ends -/

def allChoices (P : Programs) : List Choice := P.zipIdx.flatMap fun p => p.1.map fun op => (op, p.2)

theorem length_allChoices (P : Programs) : (allChoices P).length = P.flatten.length := by
  have from_ : ∀ n, ((P.zipIdx n).flatMap fun p => p.1.map fun op => (op, p.2)).length = P.flatten.length := by
    induction P with
    | nil => simp
    | cons prog P ih =>
      intro n
      simp [List.zipIdx_cons, ih]
  exact from_ 0

theorem Good.listed {P : Programs} {extra : List Op → Op → Prop} {done : List Op} {choice : Choice}
    (good : Good P extra done choice) : choice ∈ allChoices P := by
  obtain ⟨prog, here, member⟩ := good.found
  exact List.mem_flatMap.mpr ⟨(prog, choice.2), List.mk_mem_zipIdx_iff_getElem?.mpr here, List.mem_map.mpr ⟨_, member, rfl⟩⟩

theorem Good.mem_flatten {P : Programs} {extra : List Op → Op → Prop} {done : List Op} {choice : Choice}
    (good : Good P extra done choice) : choice.1 ∈ P.flatten := by
  obtain ⟨p, member, inside⟩ := List.mem_flatMap.mp good.listed
  obtain ⟨op, here, rfl⟩ := List.mem_map.mp inside
  exact List.mem_flatten.mpr ⟨p.1, List.mem_of_getElem? (List.mk_mem_zipIdx_iff_getElem?.mp member), here⟩

theorem left_flatten (P : Programs) (done : List Op) : (left P done).flatten = P.flatten.filter fun op => op ∉ done := by
  rw [left, List.filter_flatten]

theorem length_left_push (w : World σ) (start : σ) {P : Programs} {extra : List Op → Op → Prop} {stack : List (Entry σ)} {choice : Choice}
    (good : Good P extra (ops stack) choice) :
    (left P (ops (push w start stack choice))).flatten.length < (left P (ops stack)).flatten.length := by
  have shorter : (left P (ops (push w start stack choice))).flatten =
      (left P (ops stack)).flatten.filter fun op => op ≠ choice.1 := by
    rw [left_flatten, left_flatten, List.filter_filter]
    refine List.filter_congr fun x _ => ?_
    by_cases same : x = choice.1 <;> simp [push, same]
  rw [shorter]
  refine List.length_filter_lt_length_iff_exists.mpr ⟨choice.1, ?_, by simp⟩
  rw [left_flatten]
  exact List.mem_filter.mpr ⟨good.mem_flatten, by simpa using good.fresh⟩

section Ends
variable {P : Programs} {again : List (Entry σ) → Programs → Memory σ → Outcome σ} {stack : List (Entry σ)} {refs : List Nat}
  {ref : Nat}

/-- Nothing is asked of a choice beyond being an operation left in its program. -/
abbrev anyOp : List Op → Op → Prop := fun _ _ => True

theorem records_any (b : Branch σ) : Records w anyOp b := fun _ _ _ _ _ _ _ => trivial

def EndsFrom (w : World σ) (start : σ) (P : Programs) (again : List (Entry σ) → Programs → Memory σ → Outcome σ)
    (stack : List (Entry σ)) : Prop :=
  ∀ m refs, Framed P anyOp m stack refs → Sound w start P anyOp stack → Passed w start stack →
    (stack = [] ∨ ⟨stack, left P (ops stack)⟩ ∈ m.log) → (∀ b ∈ m.log, Well w start P anyOp b) →
    ∃ outcome, again stack (left P (ops stack)) m = some outcome

theorem loop_ends (nodup : P.flatten.Nodup) (spec : ExploreSpec w start P anyOp again)
    (ends : ∀ choice, Good P anyOp (ops stack) choice → EndsFrom w start P again (push w start stack choice))
    (sound : Sound w start P anyOp stack) (passed : Passed w start stack) {budget : Nat} {done : List Choice} {m : Memory σ}
    (enough : P.flatten.length < budget + done.length) (distinct : done.Nodup)
    (within : ∀ choice ∈ done, choice ∈ allChoices P) (inv : LoopInv P anyOp m stack refs ref)
    (logged : ∀ b ∈ m.log, Well w start P anyOp b) :
    ∃ outcome, loop w again start stack (left P (ops stack)) ref budget done m = some outcome := by
  induction budget generalizing done m with
  | zero =>
    have fits := (List.subperm_of_subset distinct within).length_le
    rw [length_allChoices] at fits
    omega
  | succ budget ih =>
    rw [loop]
    cases listed : remaining w m ref done with
    | nil => exact ⟨_, rfl⟩
    | cons choice rest =>
      obtain ⟨member, new⟩ := mem_remaining (w := w).mp (listed ▸ List.mem_cons_self : choice ∈ remaining w m ref done)
      have good := inv.good choice member
      have progs : removeOneOp (left P (ops stack)) choice.1 = left P (ops (push w start stack choice)) := by
        simp [push, removeOneOp_left nodup]
      have next : ∀ m', Tried w again start stack (left P (ops stack)) ref m choice m' →
          ∃ outcome, loop w again start stack (left P (ops stack)) ref budget (done ++ [choice]) m' = some outcome := by
        intro m' tried
        obtain ⟨inv', logged'⟩ := tried.sound nodup spec sound passed inv good (fun b _ => records_any b) logged
        refine ih (by rw [List.length_append, List.length_singleton]; omega) (distinct.append (by simp) (by simpa using new)) (fun c inside => ?_) inv' logged'
        rcases List.mem_append.mp inside with old | last
        · exact within c old
        · rw [List.mem_singleton.mp last]
          exact good.listed
      by_cases checked : accepted w (topState start stack) choice.1 = true
      · have here := executed_logged w start stack (left P (ops stack)) ref m choice
        rw [progs] at here
        obtain ⟨⟨found, m'⟩, called⟩ := ends choice good _ _ (inv.push w start good _) (sound.push good) ⟨checked, passed⟩
          (.inr here) (well_executed ref nodup sound passed logged good)
        have called' := called
        rw [← progs] at called'
        unfold executed at called'
        cases found with
        | true => simp [checked, called']
        | false =>
          simp only [checked, if_true, called']
          exact next m' (.explored checked (by rw [progs]; exact called))
      · simp only [checked]
        exact next _ (.refused (by simpa using checked))

theorem explore_ends (w : World σ) (start : σ) (nodup : P.flatten.Nodup) {budget : Nat} (enough : P.flatten.length < budget) (depth : Nat)
    (stack : List (Entry σ)) (deep : (left P (ops stack)).flatten.length < depth) :
    EndsFrom w start P (explore w start budget depth) stack := by
  induction depth generalizing stack with
  | zero => omega
  | succ depth ih =>
    intro m refs framed sound passed here logged
    rw [explore]
    cases next : getNextOp w (left P (ops stack)) with
    | none => exact ⟨_, rfl⟩
    | some choice =>
      have kept := updateBacktrack_kept w stack (left P (ops stack)) m
      refine loop_ends nodup (explore_sound start nodup (fun _ _ _ => trivial) budget depth) (fun choice good => ?_) sound passed
        (by simpa using enough) List.nodup_nil (by simp)
        ((updateBacktrack_framed framed (records_any _)).alloc next trivial) ?_
      · have less := length_left_push w start good
        exact ih _ (by omega)
      · simpa [Memory.alloc, kept.log] using logged

end Ends

end DfsFuzz.Symsc
