import DfsFuzz.Symsc.Orders

/-!
What the exploration tries from a state, as a matter of the programs, their times and the dependences alone, and
when that covers every order of what is left.
-/

namespace DfsFuzz.Symsc

open Linearize

/-- What the exploration is given, but for the emulator and the checks: the programs, the windows of their
operations, and what `is_dependent` says of an entry and an operation that overlap when the operations of the list
have run. -/
structure Problem extends Times where
  depends : List Op → Op → Op → Bool
  progs : Programs

instance : Coe Problem Times := ⟨Problem.toTimes⟩

def Problem.after (p : Problem) (op : Op) : Problem :=
  { p with progs := removeOneOp p.progs op, depends := fun done => p.depends (op :: done) }

/-- The choices that are tried first: the operation that starts first, and the head of another program that depends
on one of them. -/
inductive Problem.Tries (p : Problem) : Choice → Prop
  | next {choice : Choice} (first : getNextOp p p.progs = some choice) : p.Tries choice
  | race {choice : Choice} {idx : Nat} {x : Op} {rest : List Op} (earlier : p.Tries choice)
      (head : (removeOneOp p.progs choice.1)[idx]? = some (x :: rest)) (other : idx ≠ choice.2)
      (apart : timeOrdered p choice.1 x = false) (dependent : p.depends [choice.1] choice.1 x = true) : p.Tries (x, idx)

/-- What is left along the operations that are tried. -/
inductive Problem.Leads : Problem → Problem → Prop
  | refl (p : Problem) : Leads p p
  | step {p q : Problem} {choice : Choice} (tried : p.Tries choice) (rest : Leads (p.after choice.1) q) : Leads p q

namespace Problem

variable {p q : Problem} {touching : Op → Op → Prop}

theorem Leads.trans {r : Problem} (first : p.Leads q) (second : q.Leads r) : p.Leads r := by
  induction first with
  | refl => exact second
  | step tried _ ih => exact .step tried (ih second)

/-- In some state `is_dependent` rejects the two operations. -/
def Rejects (p : Problem) (a b : Op) : Prop := ∃ done, p.depends done a b = false

/-- The operations overlap and `is_dependent` rejects them, in one order or the other. -/
def Independent (p : Problem) (a b : Op) : Prop := timeOrdered p a b = false ∧ (p.Rejects a b ∨ p.Rejects b a)

/-- An order of all operations that respects program order and real time. Operations whose windows only touch are
in order in real time as `touching` says. -/
structure Linearises (touching : Op → Op → Prop) (p : Problem) (order : List Op) : Prop where
  perm : order.Perm p.progs.flatten
  inOrder : InOrder p p.progs order
  touch : ∀ x ∈ order, ∀ y ∈ order, x ≠ y → p.etime x = p.stime y → touching x y → [x, y].Sublist order

/-- In every order of what is left, one of the operations that are tried comes after operations only that are
independent of it. -/
def Covered (touching : Op → Op → Prop) (p : Problem) : Prop :=
  ∀ order, p.Linearises touching order → order ≠ [] →
    ∃ choice u v, p.Tries choice ∧ order = u ++ choice.1 :: v ∧ ∀ y ∈ u, p.Independent y choice.1

/-- `x` comes before `y` in a program or in real time. -/
def Precedes (touching : Op → Op → Prop) (p : Problem) (x y : Op) : Prop :=
  Before p p.progs x y ∨
    (x ∈ p.progs.flatten ∧ y ∈ p.progs.flatten ∧ x ≠ y ∧ p.etime x = p.stime y ∧ touching x y)

theorem linearises_iff {order : List Op} :
    p.Linearises touching order ↔ order.Perm p.progs.flatten ∧ Legal (Precedes touching p) [] order := by
  constructor
  · rintro ⟨perm, inOrder, touch⟩
    have before := (legal_iff_sublist.mp (inOrder_iff.mp inOrder).2).2
    refine ⟨perm, legal_iff_sublist.mpr ⟨inOrder.nodup, ?_⟩⟩
    rintro x y (first | ⟨known, -, different, meet, first⟩) ran
    · exact before x y first ran
    · exact touch x (perm.mem_iff.mpr known) y ran different meet first
  · rintro ⟨perm, legal⟩
    obtain ⟨nodup, ordered⟩ := legal_iff_sublist.mp legal
    refine ⟨perm, inOrder_iff.mpr ⟨fun x member => perm.mem_iff.mp member, ?_⟩, ?_⟩
    · exact legal_iff_sublist.mpr ⟨nodup, fun x y first ran => ordered x y (.inl first) ran⟩
    · intro x known y ran different meet first
      exact ordered x y (.inr ⟨perm.mem_iff.mp known, perm.mem_iff.mp ran, different, meet, first⟩) ran

theorem removeOneOp_eq {P : Programs} (nodup : P.flatten.Nodup) (op : Op) : removeOneOp P op = left P [op] := by
  have whole := removeOneOp_left nodup [] op
  rwa [left_nil, List.nil_append] at whole

theorem mem_removeOneOp {P : Programs} (nodup : P.flatten.Nodup) {op x : Op} :
    x ∈ (removeOneOp P op).flatten ↔ x ∈ P.flatten ∧ x ≠ op := by
  rw [removeOneOp_eq nodup, left_flatten, List.mem_filter, decide_eq_true_eq, List.mem_singleton]

theorem consistent_after (consistent : Consistent p p.progs) (op : Op) :
    Consistent (p.after op) (p.after op).progs := by
  show Consistent p (removeOneOp p.progs op)
  rw [removeOneOp_eq consistent.nodup]
  exact consistent.leftover [op]

theorem Leads.consistent (leads : p.Leads q) (consistent : Consistent p p.progs) : Consistent q q.progs := by
  induction leads with
  | refl => exact consistent
  | step _ _ ih => exact ih (consistent_after consistent _)

theorem Precedes.of_after {op x y : Op} (nodup : p.progs.flatten.Nodup)
    (first : Precedes touching (p.after op) x y) : Precedes touching p x y ∧ x ≠ op := by
  have inside : ∀ {z}, z ∈ (p.after op).progs.flatten → z ∈ p.progs.flatten ∧ z ≠ op := (mem_removeOneOp nodup).mp
  rcases first with (⟨prog, member, early⟩ | ⟨known, known', ended⟩) | ⟨known, known', different, meet, first⟩
  · obtain ⟨own, listed, rfl⟩ := List.mem_map.mp member
    have kept : x ∈ (p.after op).progs.flatten := List.mem_flatten.mpr ⟨_, member, early.subset (by simp)⟩
    exact ⟨.inl (.inl ⟨own, listed, early.trans List.erase_sublist⟩), (inside kept).2⟩
  · exact ⟨.inl (.inr ⟨(inside known).1, (inside known').1, ended⟩), (inside known).2⟩
  · exact ⟨.inr ⟨(inside known).1, (inside known').1, different, meet, first⟩, (inside known).2⟩

theorem Linearises.after {op : Op} {rest : List Op} (nodup : p.progs.flatten.Nodup)
    (linearises : p.Linearises touching (op :: rest)) : (p.after op).Linearises touching rest := by
  obtain ⟨perm, legal⟩ := linearises_iff.mp linearises
  have once := legal.nodup
  refine linearises_iff.mpr ⟨?_, ?_⟩
  · refine (List.perm_ext_iff_of_nodup (List.nodup_cons.mp once).2 ?_).mpr fun x => ?_
    · show (removeOneOp p.progs op).flatten.Nodup
      rw [removeOneOp_eq nodup, left_flatten]
      exact nodup.filter _
    · show x ∈ rest ↔ x ∈ (removeOneOp p.progs op).flatten
      rw [mem_removeOneOp nodup, ← perm.mem_iff, List.mem_cons]
      constructor
      · intro member
        exact ⟨.inr member, fun same => (List.nodup_cons.mp once).1 (same ▸ member)⟩
      · rintro ⟨rfl | member, different⟩
        · exact absurd rfl different
        · exact member
  · refine legal_iff_split.mpr fun u x v split => ?_
    have ready := legal_iff_split.mp legal (op :: u) x v (by rw [split, List.cons_append])
    refine ⟨fun ran => ready.1 (by simpa using .inr ran), fun y first => ?_⟩
    obtain ⟨earlier, different⟩ := first.of_after nodup
    simpa [different] using ready.2 y earlier

theorem Precedes.timeOrdered {x y : Op} (consistent : Consistent p p.progs) (first : Precedes touching p x y) :
    timeOrdered p x y = true := by
  have ends : p.etime x ≤ p.stime y := by
    rcases first with (⟨prog, member, early⟩ | ⟨-, -, ended⟩) | ⟨-, -, -, meet, -⟩
    · exact List.pairwise_iff_forall_sublist.mp (consistent.pairwise member) early
    · omega
    · omega
  simp [Symsc.timeOrdered, ends]

end Problem

end DfsFuzz.Symsc
