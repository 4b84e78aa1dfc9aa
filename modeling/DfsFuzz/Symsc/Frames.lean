import DfsFuzz.Symsc.Dpor
import Mathlib.Data.List.Nodup

/-!
The shared table of the exploration. Every operation on the stack maps to the list of the call that ran it, so a
choice recorded for an entry is one for the state below that entry.
-/

namespace DfsFuzz.Symsc

variable {σ : Type} {w : World σ} {start : σ}

/-! ### The lists and the log only grow -/

structure Grows (m m' : Memory σ) : Prop where
  log : ∀ b ∈ m.log, b ∈ m'.log
  list : ∀ ref, ∀ choice ∈ m.list ref, choice ∈ m'.list ref

theorem Grows.refl (m : Memory σ) : Grows m m := ⟨fun _ member => member, fun _ _ member => member⟩

theorem Grows.trans {m₁ m₂ m₃ : Memory σ} (first : Grows m₁ m₂) (second : Grows m₂ m₃) : Grows m₁ m₃ :=
  ⟨fun b member => second.log b (first.log b member),
    fun ref choice member => second.list ref choice (first.list ref choice member)⟩

namespace Memory

theorem record_of_none {m : Memory σ} {op : Op} (unbound : m.backtracks op = none) (choice : Choice) :
    m.record op choice = m := by
  simp [record, unbound]

theorem record_of_some {m : Memory σ} {op : Op} {ref : Nat} (bound : m.backtracks op = some ref) (choice : Choice) :
    m.record op choice = { m with lists := m.lists.modify ref (· ++ [choice]) } := by
  simp [record, bound]

theorem list_record {m : Memory σ} {op : Op} {ref : Nat} (bound : m.backtracks op = some ref)
    (live : ref < m.lists.length) (choice : Choice) (other : Nat) :
    (m.record op choice).list other = if other = ref then m.list other ++ [choice] else m.list other := by
  simp only [record_of_some bound, list, List.getD_eq_getElem?_getD, List.getElem?_modify]
  by_cases same : other = ref
  · subst same
    simp [List.getElem?_eq_getElem live]
  · simp [same, Ne.symm same]

@[simp] theorem backtracks_record (m : Memory σ) (op : Op) (choice : Choice) :
    (m.record op choice).backtracks = m.backtracks := by
  unfold record
  split <;> rfl

@[simp] theorem length_record (m : Memory σ) (op : Op) (choice : Choice) :
    (m.record op choice).lists.length = m.lists.length := by
  unfold record
  split <;> simp

@[simp] theorem log_record (m : Memory σ) (op : Op) (choice : Choice) : (m.record op choice).log = m.log := by
  unfold record
  split <;> rfl

@[simp] theorem list_assign (m : Memory σ) (op : Op) (ref other : Nat) : (m.assign op ref).list other = m.list other := rfl

@[simp] theorem list_ran (m : Memory σ) (stack : List (Entry σ)) (progs : Programs) (ref : Nat) :
    (m.ran stack progs).list ref = m.list ref := rfl

theorem list_alloc (m : Memory σ) (sets : List Choice) (ref : Nat) :
    (m.alloc sets).list ref = if ref = m.lists.length then sets else m.list ref := by
  simp only [alloc, list, List.getD_eq_getElem?_getD, List.getElem?_append]
  by_cases same : ref = m.lists.length
  · simp [same]
  · by_cases old : ref < m.lists.length
    · simp [same, old]
    · have beyond : m.lists.length < ref := by omega
      simp only [old, if_false, same]
      rw [List.getElem?_eq_none (by simp; omega), List.getElem?_eq_none (by omega)]

theorem record_grows (m : Memory σ) (op : Op) (choice : Choice) : Grows m (m.record op choice) := by
  refine ⟨fun b member => by rwa [log_record], fun ref c member => ?_⟩
  cases bound : m.backtracks op with
  | none => rwa [record_of_none bound]
  | some bad =>
    simp only [record_of_some bound, list, List.getD_eq_getElem?_getD, List.getElem?_modify] at member ⊢
    cases found : m.lists[ref]? with
    | none => simp [found] at member
    | some l =>
      rw [found] at member
      simp only [Option.getD_some] at member
      by_cases same : bad = ref <;> simp [same, member]

theorem alloc_grows (m : Memory σ) (sets : List Choice) : Grows m (m.alloc sets) := by
  refine ⟨fun b member => member, fun ref c member => ?_⟩
  rw [list_alloc]
  split
  · rename_i same
    simp [list, same] at member
  · exact member

end Memory

theorem updateOne_grows (stack : List (Entry σ)) (m : Memory σ) (p : List Op × Nat) : Grows m (updateOne w stack m p) := by
  unfold updateOne
  split
  · exact .refl m
  · split
    · exact .refl m
    · exact m.record_grows _ _

theorem updates_grow (stack : List (Entry σ)) (ps : List (List Op × Nat)) (m : Memory σ) :
    Grows m (ps.foldl (updateOne w stack) m) := by
  induction ps generalizing m with
  | nil => exact .refl m
  | cons p ps ih => exact (updateOne_grows stack m p).trans (ih _)

theorem updateBacktrack_grows (stack : List (Entry σ)) (progs : Programs) (m : Memory σ) :
    Grows m (updateBacktrack w stack progs m) := updates_grow stack _ m

section Growth
variable {again : List (Entry σ) → Programs → Memory σ → Outcome σ} {stack : List (Entry σ)} {progs : Programs} {ref : Nat}

theorem executed_grows (m : Memory σ) (choice : Choice) : Grows m (executed w start stack progs ref m choice) :=
  ⟨fun _ member => List.mem_append_left _ member, fun _ _ member => member⟩

theorem executed_logged (w : World σ) (start : σ) (stack : List (Entry σ)) (progs : Programs) (ref : Nat) (m : Memory σ)
    (choice : Choice) : { stack := push w start stack choice, progs := removeOneOp progs choice.1 } ∈
      (executed w start stack progs ref m choice).log := by
  simp [executed, Memory.ran]

theorem Tried.grows (again_grows : ∀ stack progs m res m', again stack progs m = some (res, m') → Grows m m')
    {m next : Memory σ} {choice : Choice} (tried : Tried w again start stack progs ref m choice next) :
    Grows (executed w start stack progs ref m choice) next := by
  cases tried with
  | explored _ nothing => exact again_grows _ _ _ _ _ nothing
  | refused _ => exact updateBacktrack_grows _ _ _

theorem loop_grows (again_grows : ∀ stack progs m res m', again stack progs m = some (res, m') → Grows m m')
    {budget : Nat} {done : List Choice} {m m' : Memory σ} {res : Bool}
    (ran : loop w again start stack progs ref budget done m = some (res, m')) : Grows m m' := by
  induction budget generalizing done m with
  | zero => simp [loop] at ran
  | succ budget ih =>
    rcases loop_cases ran with ⟨-, -, rfl⟩ | ⟨choice, -, ⟨-, -, called⟩ | ⟨next, tried, rest⟩⟩
    · exact .refl _
    · exact (executed_grows m choice).trans (again_grows _ _ _ _ _ called)
    · exact ((executed_grows m choice).trans (tried.grows again_grows)).trans (ih rest)

theorem explore_grows {budget depth : Nat} {stack : List (Entry σ)} {progs : Programs} {m m' : Memory σ} {res : Bool}
    (ran : explore w start budget depth stack progs m = some (res, m')) :
    Grows (updateBacktrack w stack progs m) m' := by
  induction depth generalizing stack progs m res m' with
  | zero => simp [explore] at ran
  | succ depth ih =>
    rw [explore] at ran
    cases next : getNextOp w progs with
    | none =>
      simp only [next, Option.some.injEq, Prod.mk.injEq] at ran
      rw [← ran.2]
      exact .refl _
    | some choice =>
      simp only [next] at ran
      refine (Memory.alloc_grows _ [choice]).trans (loop_grows (fun stack progs m res m' called => ?_) ran)
      exact (updateBacktrack_grows stack progs m).trans (ih called)

end Growth

/-- The operations of a stack in the order in which they ran. -/
def ops (stack : List (Entry σ)) : List Op := (stack.map Entry.op).reverse

@[simp] theorem ops_nil : ops ([] : List (Entry σ)) = [] := rfl

@[simp] theorem ops_cons (s : Entry σ) (below : List (Entry σ)) : ops (s :: below) = ops below ++ [s.op] := by
  simp [ops]

theorem mem_ops_append {x : Op} {above below : List (Entry σ)} (member : x ∈ ops below) : x ∈ ops (above ++ below) := by
  simp only [ops, List.map_append, List.reverse_append, List.mem_append]
  exact .inl member

/-- What is left of the programs when the operations of `done` have run. -/
def left (P : Programs) (done : List Op) : Programs := P.map fun prog => prog.filter fun op => op ∉ done

theorem left_nil (P : Programs) : left P [] = P := by
  simp [left]

theorem removeOneOp_left {P : Programs} (nodup : P.flatten.Nodup) (done : List Op) (op : Op) :
    removeOneOp (left P done) op = left P (done ++ [op]) := by
  simp only [removeOneOp, left, List.map_map]
  refine List.map_congr_left fun prog member => ?_
  have once : prog.Nodup := (List.nodup_flatten.mp nodup).1 prog member
  simp only [Function.comp_apply, List.Nodup.erase_eq_filter (once.filter _), List.filter_filter]
  refine List.filter_congr fun x _ => ?_
  by_cases same : x = op <;> simp [same]

theorem getElem?_left {P : Programs} {done : List Op} {idx : Nat} {prog : List Op} :
    (left P done)[idx]? = some prog ↔ ∃ whole, P[idx]? = some whole ∧ prog = whole.filter fun op => op ∉ done := by
  simp only [left, List.getElem?_map, Option.map_eq_some_iff]
  constructor
  · rintro ⟨whole, here, rfl⟩
    exact ⟨whole, here, rfl⟩
  · rintro ⟨whole, here, rfl⟩
    exact ⟨whole, here, rfl⟩

theorem mem_left {P : Programs} {done : List Op} {idx : Nat} {prog : List Op} (here : (left P done)[idx]? = some prog)
    {op : Op} (member : op ∈ prog) : op ∈ P.getD idx [] ∧ op ∉ done := by
  obtain ⟨whole, found, rfl⟩ := getElem?_left.mp here
  rw [List.getD_eq_getElem?_getD, found, Option.getD_some]
  simpa using member

/-- A choice that can be made when the operations of `done` have run; `extra` is what is asked beyond that. -/
structure Good (P : Programs) (extra : List Op → Op → Prop) (done : List Op) (choice : Choice) : Prop where
  member : choice.1 ∈ P.getD choice.2 []
  fresh : choice.1 ∉ done
  meets : extra done choice.1

theorem Good.found {P : Programs} {extra : List Op → Op → Prop} {done : List Op} {choice : Choice}
    (good : Good P extra done choice) : ∃ prog, P[choice.2]? = some prog ∧ choice.1 ∈ prog := by
  have member := good.member
  rw [List.getD_eq_getElem?_getD] at member
  cases here : P[choice.2]? with
  | none => simp [here] at member
  | some prog =>
    rw [here, Option.getD_some] at member
    exact ⟨prog, rfl, member⟩

/-- Every entry was a good choice, and its state is the one its call is emulated to. -/
def Sound (w : World σ) (start : σ) (P : Programs) (extra : List Op → Op → Prop) : List (Entry σ) → Prop
  | [] => True
  | s :: below => Good P extra (ops below) (s.op, s.procId) ∧
      s.emulState = (w.emulate (topState start below) s.op).2 ∧ Sound w start P extra below

def Passed (w : World σ) (start : σ) : List (Entry σ) → Prop
  | [] => True
  | s :: below => accepted w (topState start below) s.op = true ∧ Passed w start below

theorem Sound.push {P : Programs} {extra : List Op → Op → Prop} {stack : List (Entry σ)}
    (sound : Sound w start P extra stack) {choice : Choice} (good : Good P extra (ops stack) choice) :
    Sound w start P extra (push w start stack choice) := ⟨good, rfl, sound⟩

theorem scan_split {stack rest : List (Entry σ)} {idx : Nat} {nextOp : Op} {s : Entry σ} {below : List (Entry σ)}
    (hit : scan w stack idx nextOp rest = some (s, below)) : ∃ above, rest = above ++ s :: below := by
  induction rest with
  | nil => simp [scan] at hit
  | cons top rest ih =>
    rw [scan] at hit
    split at hit
    · obtain ⟨above, rfl⟩ := ih hit
      exact ⟨top :: above, rfl⟩
    · split at hit
      · obtain ⟨rfl, rfl⟩ := Prod.mk.inj (Option.some.inj hit)
        exact ⟨[], rfl⟩
      · split at hit
        · simp at hit
        · obtain ⟨above, rfl⟩ := ih hit
          exact ⟨top :: above, rfl⟩

/-- What `update_backtrack` records at a stack is good below the entry it is recorded for. -/
def Records (w : World σ) (extra : List Op → Op → Prop) (b : Branch σ) : Prop :=
  ∀ idx nextOp rest, b.progs[idx]? = some (nextOp :: rest) →
    ∀ s below, scan w b.stack idx nextOp b.stack = some (s, below) → extra (ops below) nextOp

/-- Each operation of the stack maps to the list of the call that ran it, and that list holds good choices. -/
inductive Framed (P : Programs) (extra : List Op → Op → Prop) (m : Memory σ) : List (Entry σ) → List Nat → Prop
  | nil : Framed P extra m [] []
  | cons {s : Entry σ} {below : List (Entry σ)} {ref : Nat} {refs : List Nat} (rest : Framed P extra m below refs)
      (bound : m.backtracks s.op = some ref) (live : ref < m.lists.length) (newer : ∀ old ∈ refs, old < ref)
      (good : ∀ choice ∈ m.list ref, Good P extra (ops below) choice) : Framed P extra m (s :: below) (ref :: refs)

section Frames
variable {P : Programs} {extra : List Op → Op → Prop} {m m' : Memory σ} {stack : List (Entry σ)} {refs : List Nat}

theorem Framed.congr (framed : Framed P extra m stack refs) (lists : ∀ ref ∈ refs, m'.list ref = m.list ref)
    (bound : ∀ s ∈ stack, m'.backtracks s.op = m.backtracks s.op) (length : m.lists.length ≤ m'.lists.length) :
    Framed P extra m' stack refs := by
  induction framed with
  | nil => exact .nil
  | cons rest here live newer good ih =>
    refine .cons (ih (fun ref member => lists ref (List.mem_cons_of_mem _ member))
      fun s member => bound s (List.mem_cons_of_mem _ member)) ?_ (by omega) newer ?_
    · rw [bound _ (by simp), here]
    · rw [lists _ (by simp)]
      exact good

theorem Framed.live (framed : Framed P extra m stack refs) : ∀ ref ∈ refs, ref < m.lists.length := by
  induction framed with
  | nil => simp
  | cons rest here live newer good ih =>
    intro ref member
    rcases List.mem_cons.mp member with rfl | old
    · exact live
    · exact ih ref old

theorem Framed.record (framed : Framed P extra m stack refs) {above below : List (Entry σ)} {s : Entry σ}
    (split : stack = above ++ s :: below) {choice : Choice} (good : Good P extra (ops below) choice) :
    Framed P extra (m.record s.op choice) stack refs ∧ ∃ ref ∈ refs, m.backtracks s.op = some ref := by
  induction framed generalizing above with
  | nil => simp at split
  | @cons top stack' ref refs rest here live newer old ih =>
    cases above with
    | nil =>
      obtain ⟨rfl, rfl⟩ := List.cons.inj split
      refine ⟨.cons (rest.congr (fun other member => ?_) (by simp) (by simp)) (by simpa using here) (by simpa using live)
        newer fun c member => ?_, ref, by simp, here⟩
      · have different : other ≠ ref := Nat.ne_of_lt (newer other member)
        rw [Memory.list_record here live, if_neg different]
      · rw [Memory.list_record here live, if_pos rfl] at member
        rcases List.mem_append.mp member with known | new
        · exact old c known
        · rwa [List.mem_singleton.mp new]
    | cons top' above =>
      obtain ⟨framed, deep, member, bound⟩ := ih (List.cons.inj split).2
      have different : ref ≠ deep := Nat.ne_of_gt (newer deep member)
      refine ⟨.cons framed (by simpa using here) (by simpa using live) newer fun c known => ?_, deep, by simp [member], bound⟩
      rw [Memory.list_record bound (rest.live deep member), if_neg different] at known
      exact old c known

end Frames

end DfsFuzz.Symsc
