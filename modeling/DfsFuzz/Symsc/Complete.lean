import DfsFuzz.Symsc.Coverage
import Mathlib.Data.Set.Insert

/-!
When the exploration finds a successful order. It does for every emulator and check exactly when what it tries covers
the orders of what is left, in the first state and in every state that the choices it tries lead to.
-/

namespace DfsFuzz.Symsc

open Linearize

variable {σ : Type} {w : World σ} {start : σ} {p q : Problem} {touching : Op → Op → Prop}

namespace Problem

/-- The exploration is one of the problem: `is_dependent` answers as it says on every stack that can be met. -/
structure Fits (p : Problem) (w : World σ) (start : σ) : Prop where
  times : w.toTimes = p.toTimes
  related : ∀ stack, Sound w start p.progs anyOp stack → ∀ s ∈ stack, ∀ x,
    w.related stack s x = p.depends (ops stack) s.op x

end Problem

theorem Sound.unique {P : Programs} (nodup : P.flatten.Nodup) {stack stack' : List (Entry σ)}
    (sound : Sound w start P anyOp stack) (sound' : Sound w start P anyOp stack') (same : ops stack = ops stack') :
    stack = stack' := by
  induction stack generalizing stack' with
  | nil =>
    cases stack' with
    | nil => rfl
    | cons s below => simp at same
  | cons s below ih =>
    cases stack' with
    | nil => simp at same
    | cons s' below' =>
      obtain ⟨good, state, rest⟩ := sound
      obtain ⟨good', state', rest'⟩ := sound'
      rw [ops_cons, ops_cons] at same
      obtain ⟨same, last⟩ := List.append_inj' same rfl
      obtain rfl := ih rest rest' same
      obtain ⟨_, op, procId⟩ := s
      obtain ⟨_, op', procId'⟩ := s'
      obtain rfl : op = op' := by simpa using last
      obtain ⟨prog, here, inside⟩ := good.found
      obtain ⟨prog', here', inside'⟩ := good'.found
      have own : procId = procId' := same_program nodup here here' inside inside'
      dsimp only at state state'
      rw [own, state, state']

theorem Sound.entry_unique {P : Programs} {stack : List (Entry σ)} (sound : Sound w start P anyOp stack)
    {s s' : Entry σ} (member : s ∈ stack) (member' : s' ∈ stack) (same : s.op = s'.op) : s = s' := by
  induction stack with
  | nil => simp at member
  | cons top below ih =>
    obtain ⟨good, -, rest⟩ := sound
    have fresh : ∀ e ∈ below, e.op ≠ top.op := by
      intro e inside same
      apply good.fresh
      show top.op ∈ ops below
      rw [← same]
      simpa [ops] using ⟨e, inside, rfl⟩
    rcases List.mem_cons.mp member with rfl | here <;> rcases List.mem_cons.mp member' with rfl | here'
    · rfl
    · exact absurd same.symm (fresh s' here')
    · exact absurd same (fresh s here)
    · exact ih rest here here'

/-- On a stack that can be met `is_dependent` rejects the operations. -/
def RejectedOn (w : World σ) (start : σ) (P : Programs) (done : List Op) (a b : Op) : Prop :=
  ∃ stack s, Sound w start P anyOp stack ∧ ops stack = done ∧ s ∈ stack ∧ s.op = a ∧ w.related stack s b = false

open Classical in
/-- The answers of `is_dependent` in an exploration, by the operations that have run. -/
noncomputable def Problem.of (w : World σ) (start : σ) (P : Programs) : Problem where
  toTimes := w.toTimes
  depends done a b := !decide (RejectedOn w start P done a b)
  progs := P

theorem Problem.of_fits {P : Programs} (nodup : P.flatten.Nodup) : (Problem.of w start P).Fits w start := by
  classical
  constructor
  · rfl
  · intro stack sound s member x
    show w.related stack s x = !decide (RejectedOn w start P (ops stack) s.op x)
    cases related : w.related stack s x with
    | false =>
      have rejected : RejectedOn w start P (ops stack) s.op x := ⟨stack, s, sound, rfl, member, rfl, related⟩
      simp [rejected]
    | true =>
      have accepted : ¬ RejectedOn w start P (ops stack) s.op x := by
        rintro ⟨stack', s', sound', same, member', op, rejected⟩
        obtain rfl := sound'.unique nodup sound same
        obtain rfl := sound.entry_unique member' member op
        rw [related] at rejected
        simp at rejected
      simp [accepted]

/-! ### What is tried at a state is explored -/

/-- The problem that is left when the operations of a stack have run. -/
def Problem.rest (p : Problem) (stack : List (Entry σ)) : Problem :=
  { p with progs := left p.progs (ops stack), depends := fun done => p.depends (ops stack ++ done) }

def Fails (touching : Op → Op → Prop) (q : Problem) (w : World σ) (s : σ) : Prop :=
  ∀ order, q.Linearises touching order → ¬ Succeeds w s order

structure Explored (touching : Op → Op → Prop) (p : Problem) (w : World σ) (start : σ) (stack : List (Entry σ)) (ref : Nat)
    (m : Memory σ) (choice : Choice) : Prop where
  fails : (p.rest stack).Tries choice → accepted w (topState start stack) choice.1 = true →
    Fails touching (p.rest (push w start stack choice)) w (w.emulate (topState start stack) choice.1).2
  closed : ∀ (idx : Nat) (x : Op) (rest : List Op),
    (left p.progs (ops (push w start stack choice)))[idx]? = some (x :: rest) → idx ≠ choice.2 →
    timeOrdered p choice.1 x = false → p.depends (ops (push w start stack choice)) choice.1 x = true →
    (x, idx) ∈ m.list ref

theorem Explored.grow {stack : List (Entry σ)} {ref : Nat} {m m' : Memory σ} {choice : Choice}
    (explored : Explored touching p w start stack ref m choice) (grows : Grows m m') :
    Explored touching p w start stack ref m' choice where
  fails := explored.fails
  closed idx x rest head other apart dependent := grows.list ref _ (explored.closed idx x rest head other apart dependent)

section Loop
variable {again : List (Entry σ) → Programs → Memory σ → Outcome σ} {m : Memory σ} {stack : List (Entry σ)}
  {refs : List Nat} {ref : Nat} {choice : Choice}

/-- The results of the recursive calls that the loop relies on. -/
structure Deeper (touching : Op → Op → Prop) (p : Problem) (w : World σ) (start : σ)
    (again : List (Entry σ) → Programs → Memory σ → Outcome σ) : Prop where
  spec : ExploreSpec w start p.progs anyOp again
  grows : ∀ stack progs m res m', again stack progs m = some (res, m') → Grows (updateBacktrack w stack progs m) m'
  fails : ∀ stack m m' refs, (∀ q, (p.rest stack).Leads q → q.Covered touching) →
    again stack (left p.progs (ops stack)) m = some (false, m') →
    Framed p.progs anyOp m stack refs → Sound w start p.progs anyOp stack → Passed w start stack →
    (stack = [] ∨ ⟨stack, left p.progs (ops stack)⟩ ∈ m.log) → (∀ b ∈ m.log, Well w start p.progs anyOp b) →
    Fails touching (p.rest stack) w (topState start stack)

theorem Deeper.grows' (deeper : Deeper touching p w start again) (stack : List (Entry σ)) (progs : Programs)
    (m : Memory σ) (res : Bool) (m' : Memory σ) (called : again stack progs m = some (res, m')) : Grows m m' :=
  (updateBacktrack_grows stack progs m).trans (deeper.grows stack progs m res m' called)

end Loop

section Needy
variable {order : List Op}

theorem Problem.Tries.known {choice : Choice} (nodup : p.progs.flatten.Nodup) (tries : p.Tries choice) :
    choice.1 ∈ p.progs.flatten := by
  cases tries with
  | next first =>
    obtain ⟨⟨rest, head⟩, -⟩ := getNextOp_some first
    exact List.mem_flatten.mpr ⟨_, List.mem_of_getElem? head, List.mem_cons_self⟩
  | race earlier head =>
    exact ((Problem.mem_removeOneOp nodup).mp
      (List.mem_flatten.mpr ⟨_, List.mem_of_getElem? head, List.mem_cons_self⟩)).1

end Needy

end DfsFuzz.Symsc
