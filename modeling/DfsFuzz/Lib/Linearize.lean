import Mathlib.Data.List.Perm.Basic

/-!
Linearisations of a set of operations under a precedence relation: an operation that can run now and commutes with
everything before it can run first.
-/

namespace Linearize

variable {ι σ : Type} {before : ι → ι → Prop}

/-- The operation has not run and all its predecessors have. -/
def Ready (before : ι → ι → Prop) (done : List ι) (x : ι) : Prop := x ∉ done ∧ ∀ y, before y x → y ∈ done

/-- Each operation of the list is ready when its turn comes. -/
def Legal (before : ι → ι → Prop) : List ι → List ι → Prop
  | _, [] => True
  | done, x :: rest => Ready before done x ∧ Legal before (done ++ [x]) rest

theorem Ready.congr {done done' : List ι} {x : ι} (ready : Ready before done x) (same : ∀ y, y ∈ done ↔ y ∈ done') :
    Ready before done' x :=
  ⟨fun ran => ready.1 ((same x).mpr ran), fun y first => (same y).mp (ready.2 y first)⟩

theorem Legal.congr {done done' w : List ι} (legal : Legal before done w) (same : ∀ y, y ∈ done ↔ y ∈ done') :
    Legal before done' w := by
  induction w generalizing done done' with
  | nil => trivial
  | cons x rest ih => exact ⟨legal.1.congr same, ih legal.2 fun y => by simp [same y]⟩

theorem legal_append {done u v : List ι} :
    Legal before done (u ++ v) ↔ Legal before done u ∧ Legal before (done ++ u) v := by
  induction u generalizing done with
  | nil => simp [Legal]
  | cons x u ih => simp only [List.cons_append, Legal, ih, List.append_assoc, List.nil_append, and_assoc]

theorem Legal.not_mem {done w : List ι} (legal : Legal before done w) {x : ι} (member : x ∈ w) : x ∉ done := by
  induction w generalizing done with
  | nil => simp at member
  | cons y rest ih =>
    rcases List.mem_cons.mp member with rfl | later
    · exact legal.1.1
    · exact fun ran => ih legal.2 later (List.mem_append_left _ ran)

theorem Legal.nodup {done w : List ι} (legal : Legal before done w) : w.Nodup := by
  induction w generalizing done with
  | nil => exact List.nodup_nil
  | cons x rest ih =>
    exact List.nodup_cons.mpr ⟨fun again => legal.2.not_mem again (by simp), ih legal.2⟩

theorem Legal.weaken {done u : List ι} {e : ι} (legal : Legal before done u) (absent : e ∉ u) :
    Legal before (done ++ [e]) u := by
  induction u generalizing done with
  | nil => trivial
  | cons x u ih =>
    have different : x ≠ e := fun same => absent (by simp [same])
    refine ⟨⟨?_, fun y first => List.mem_append_left _ (legal.1.2 y first)⟩, ?_⟩
    · intro ran
      rcases List.mem_append.mp ran with old | new
      · exact legal.1.1 old
      · exact different (List.mem_singleton.mp new)
    · refine (ih legal.2 fun inside => absent (List.mem_cons_of_mem _ inside)).congr fun y => ?_
      simp only [List.mem_append, List.mem_singleton]
      tauto

theorem legal_iff_split {done w : List ι} :
    Legal before done w ↔ ∀ u x v, w = u ++ x :: v → Ready before (done ++ u) x := by
  induction w generalizing done with
  | nil => simp [Legal]
  | cons y w ih =>
    rw [Legal, ih]
    constructor
    · rintro ⟨ready, later⟩ u x v split
      cases u with
      | nil =>
        obtain ⟨rfl, rfl⟩ := List.cons.inj split
        simpa using ready
      | cons z u =>
        obtain ⟨rfl, rfl⟩ := List.cons.inj split
        simpa using later u x v rfl
    · intro all
      refine ⟨by simpa using all [] y w rfl, fun u x v split => ?_⟩
      simpa using all (y :: u) x v (by simp [split])

/-- In a list without repetition, what stands before an element comes before it. -/
theorem mem_of_sublist {u v : List ι} {x y : ι} (nodup : (u ++ y :: v).Nodup) (early : [x, y].Sublist (u ++ y :: v)) :
    x ∈ u := by
  have fresh : y ∉ u := fun again => (List.nodup_append.mp nodup).2.2 y again y (by simp) rfl
  have late : y ∉ v := (List.nodup_cons.mp (List.nodup_append.mp nodup).2.1).1
  have pair : ([x] ++ [y]).Sublist (u ++ y :: v) := early
  obtain ⟨front, back, whole, before', after⟩ := List.append_sublist_iff.mp pair
  rw [List.singleton_sublist] at before' after
  rcases List.append_eq_append_iff.mp whole with ⟨middle, rfl, rest⟩ | ⟨middle, rfl, rest⟩
  · cases middle with
    | nil => simpa using before'
    | cons z middle =>
      obtain ⟨rfl, rfl⟩ := List.cons.inj rest
      exact absurd (List.mem_append_right middle after) late
  · simp [before']

/-- An order is legal if nothing runs twice and each operation comes after its predecessors. -/
theorem legal_iff_sublist {w : List ι} :
    Legal before [] w ↔ w.Nodup ∧ ∀ x y, before x y → y ∈ w → [x, y].Sublist w := by
  constructor
  · intro legal
    refine ⟨legal.nodup, fun x y first member => ?_⟩
    obtain ⟨u, v, rfl⟩ := List.append_of_mem member
    have ran := (legal_iff_split.mp legal u y v rfl).2 x first
    rw [List.nil_append] at ran
    exact List.Sublist.append (List.singleton_sublist.mpr ran) (List.Sublist.cons_cons y (List.nil_sublist v))
  · rintro ⟨nodup, ordered⟩
    refine legal_iff_split.mpr fun u y v split => ?_
    subst split
    have early : y ∉ u := fun again => (List.nodup_append.mp nodup).2.2 y again y (by simp) rfl
    exact ⟨by simpa using early, fun x first => by simpa using mem_of_sublist nodup (ordered x y first (by simp))⟩

variable (step : σ → ι → Option σ)

/-- The state after the operations, if each of them is accepted. -/
def run : σ → List ι → Option σ
  | s, [] => some s
  | s, x :: rest => (step s x).bind fun s' => run s' rest

theorem run_append (s : σ) (u v : List ι) : run step s (u ++ v) = (run step s u).bind fun s' => run step s' v := by
  induction u generalizing s with
  | nil => rfl
  | cons x u ih =>
    simp only [List.cons_append, run, ih]
    rw [Option.bind_assoc]

def Commute (x y : ι) : Prop :=
  ∀ s, ((step s x).bind fun s' => step s' y) = (step s y).bind fun s' => step s' x

variable {step}

theorem Commute.symm {x y : ι} (commute : Commute step x y) : Commute step y x := fun s => (commute s).symm

end Linearize
