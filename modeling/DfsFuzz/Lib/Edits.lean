import Mathlib.Data.List.Basic
import Mathlib.Data.List.InsertIdx

/-!
Edits of a list and where they take its elements: a block inserted at a position, an element taken
out, an element moved, two exchanged. A property of every element and of what is before it (definitions
before uses, opens before closes), and how it is put together when the list is.
-/

namespace Edits

variable {α β : Type}

def insertAt (xs : List α) (i : Nat) (block : List α) : List α := xs.take i ++ (block ++ xs.drop i)

/-- Takes the element at `i` out and puts it back so that it ends up at `j`. -/
def move (xs : List α) (i j : Nat) : List α :=
  match xs[i]? with
  | some x => insertAt (xs.eraseIdx i) j [x]
  | none => xs

theorem getElem?_insertAt {xs : List α} {i : Nat} (inside : i ≤ xs.length) (block : List α) (k : Nat) :
    (insertAt xs i block)[k]? =
      if k < i then xs[k]? else if k < i + block.length then block[k - i]? else xs[k - block.length]? := by
  have front : (xs.take i).length = i := by
    rw [List.length_take]
    omega
  rw [insertAt, List.getElem?_append, front]
  split
  · rename_i before
    rw [List.getElem?_take_of_lt before]
  · rename_i behind
    rw [List.getElem?_append]
    by_cases within : k < i + block.length
    · rw [if_pos (by omega), if_pos within]
    · rw [if_neg (by omega), if_neg within, List.getElem?_drop]
      congr 1
      omega

/-- Where a block of `n` elements inserted at `i` takes position `k`. -/
def shifted (i n k : Nat) : Nat := if i ≤ k then k + n else k

theorem insertAt_shifted {xs : List α} {i : Nat} (inside : i ≤ xs.length) (block : List α) (k : Nat) :
    (insertAt xs i block)[shifted i block.length k]? = xs[k]? := by
  rw [getElem?_insertAt inside, shifted]
  split
  · rename_i behind
    rw [if_neg (by omega), if_neg (by omega), Nat.add_sub_cancel]
  · rw [if_pos (by omega)]

theorem length_insertAt {xs : List α} {i : Nat} (inside : i ≤ xs.length) (block : List α) :
    (insertAt xs i block).length = xs.length + block.length := by
  simp only [insertAt, List.length_append, List.length_take, List.length_drop]
  omega

theorem mem_insertAt {xs block : List α} {i : Nat} {x : α} (member : x ∈ insertAt xs i block) : x ∈ xs ∨ x ∈ block := by
  simp only [insertAt, List.mem_append] at member
  rcases member with front | new | back
  · exact .inl (List.mem_of_mem_take front)
  · exact .inr new
  · exact .inl (List.mem_of_mem_drop back)

theorem modify_eq_set {xs : List α} {i : Nat} {x : α} (here : xs[i]? = some x) (f : α → α) :
    xs.modify i f = xs.set i (f x) := by
  apply List.ext_getElem?
  intro k
  rw [List.getElem?_modify, List.getElem?_set]
  by_cases same : i = k
  · subst same
    rw [here, if_pos rfl, if_pos (List.getElem?_eq_some_iff.mp here).1]
    simp
  · simp [same]

theorem insertAt_append_left {front : List α} {i : Nat} (inside : i ≤ front.length) (back block : List α) :
    insertAt (front ++ back) i block = insertAt front i block ++ back := by
  simp [insertAt, List.take_append_of_le_length inside, List.drop_append_of_le_length inside]

theorem insertAt_append_right {front : List α} {i : Nat} (behind : front.length ≤ i) (back block : List α) :
    insertAt (front ++ back) i block = front ++ insertAt back (i - front.length) block := by
  simp [insertAt, List.take_append, List.drop_append, List.take_of_length_le behind, List.drop_eq_nil_of_le behind]

/-- Where taking out position `i` takes another position `k`. -/
def closed (i k : Nat) : Nat := if i < k then k - 1 else k

theorem eraseIdx_closed (xs : List α) {i k : Nat} (other : k ≠ i) : (xs.eraseIdx i)[closed i k]? = xs[k]? := by
  rw [List.getElem?_eraseIdx, closed]
  split
  · rename_i behind
    rw [if_neg (by omega)]
    congr 1
    omega
  · rw [if_pos (by omega)]

/-- Where a move from `i` to `j` takes position `k`. -/
def moved (i j k : Nat) : Nat :=
  if k = i then j
  else if i < j ∧ i < k ∧ k ≤ j then k - 1
  else if j < i ∧ j ≤ k ∧ k < i then k + 1
  else k

theorem move_moved {xs : List α} {i j k : Nat} (fromIn : i < xs.length) (toIn : j < xs.length) :
    (move xs i j)[moved i j k]? = xs[k]? := by
  have rest : (xs.eraseIdx i).length = xs.length - 1 := List.length_eraseIdx_of_lt fromIn
  have shape : move xs i j = insertAt (xs.eraseIdx i) j [xs.get ⟨i, fromIn⟩] := by
    simp [move, List.getElem?_eq_getElem fromIn]
  rw [shape]
  by_cases same : k = i
  · rw [moved, if_pos same, getElem?_insertAt (by omega), if_neg (by omega), if_pos (by simp), same,
      List.getElem?_eq_getElem fromIn]
    simp
  · -- every other element first closes the gap and then makes room
    have both : moved i j k = shifted j 1 (closed i k) := by
      unfold moved shifted closed
      split_ifs <;> omega
    rw [both, ← eraseIdx_closed xs same]
    exact insertAt_shifted (by omega) [xs.get ⟨i, fromIn⟩] (closed i k)

theorem length_move {xs : List α} {i j : Nat} (fromIn : i < xs.length) (toIn : j < xs.length) :
    (move xs i j).length = xs.length := by
  have rest : (xs.eraseIdx i).length = xs.length - 1 := List.length_eraseIdx_of_lt fromIn
  simp only [move, List.getElem?_eq_getElem fromIn]
  rw [length_insertAt (by omega), rest, List.length_singleton]
  omega

/-- The inverse of `moved`: what stands at `k` after the move. -/
theorem moved_moved (i j k : Nat) : moved i j (moved j i k) = k := by
  unfold moved
  split_ifs <;> omega

theorem getElem?_move {xs : List α} {i j : Nat} (fromIn : i < xs.length) (toIn : j < xs.length) (k : Nat) :
    (move xs i j)[k]? = xs[moved j i k]? := by
  have found := move_moved (k := moved j i k) fromIn toIn
  rwa [moved_moved] at found

theorem move_back (front block back : List α) (x : α) :
    move (front ++ (block ++ x :: back)) (front.length + block.length) front.length = front ++ (x :: (block ++ back)) := by
  have here : (front ++ (block ++ x :: back))[front.length + block.length]? = some x := by
    rw [List.getElem?_append_right (by omega), List.getElem?_append_right (by omega)]
    simp
  rw [move, here]
  simp [insertAt, List.eraseIdx_append_of_length_le]

theorem move_ahead (front block back : List α) (x : α) :
    move (front ++ (x :: (block ++ back))) front.length (front.length + block.length) = front ++ (block ++ x :: back) := by
  have here : (front ++ (x :: (block ++ back)))[front.length]? = some x := by simp
  rw [move, here]
  have outside : front.length ≤ front.length + block.length := Nat.le_add_right _ _
  simp [insertAt, List.eraseIdx_append_of_length_le, List.take_append, List.drop_append, List.take_of_length_le outside,
    List.drop_eq_nil_of_le outside]

/-- A list with an element at `i`, taken apart there and at an earlier position. -/
theorem split_before {xs : List α} {i j : Nat} {x : α} (here : xs[i]? = some x) (before : j ≤ i) :
    ∃ front block back, xs = front ++ (block ++ x :: back) ∧ front.length = j ∧ front.length + block.length = i := by
  obtain ⟨inside, rfl⟩ := List.getElem?_eq_some_iff.mp here
  refine ⟨(xs.take i).take j, (xs.take i).drop j, xs.drop (i + 1), ?_, ?_, ?_⟩
  · rw [List.getElem_cons_drop, ← List.append_assoc, List.take_append_drop, List.take_append_drop]
  · rw [List.length_take, List.length_take]
    omega
  · rw [← List.length_append, List.take_append_drop, List.length_take]
    omega

/-- A list with an element at `i`, taken apart there and at a later position. -/
theorem split_behind {xs : List α} {i j : Nat} {x : α} (here : xs[i]? = some x) (behind : i ≤ j) (inside : j < xs.length) :
    ∃ front block back, xs = front ++ (x :: (block ++ back)) ∧ front.length = i ∧ front.length + block.length = j := by
  obtain ⟨_, rfl⟩ := List.getElem?_eq_some_iff.mp here
  refine ⟨xs.take i, (xs.drop (i + 1)).take (j - i), (xs.drop (i + 1)).drop (j - i), ?_, ?_, ?_⟩
  · rw [List.take_append_drop, List.getElem_cons_drop, List.take_append_drop]
  · rw [List.length_take]
    omega
  · rw [List.length_take, List.length_take, List.length_drop]
    omega

theorem concat_eq_cons_iff {xs : List α} {x : α} : xs ++ [x] = x :: xs ↔ ∀ y ∈ xs, y = x := by
  induction xs with
  | nil => simp
  | cons y xs ih =>
    simp only [List.cons_append, List.cons.injEq, List.mem_cons, forall_eq_or_imp]
    constructor
    · rintro ⟨rfl, rest⟩
      exact ⟨rfl, ih.mp rest⟩
    · rintro ⟨rfl, rest⟩
      exact ⟨rfl, ih.mpr rest⟩

end Edits

namespace Swap

variable {α : Type}

/-- `l[i], l[j] = l[j], l[i]`. -/
def swapTwo (l : List α) (i j : Nat) : List α :=
  match l[i]?, l[j]? with
  | some a, some b => (l.set i b).set j a
  | _, _ => l

/-- Where the exchange moves position `k`. -/
def moved (i j k : Nat) : Nat := if k = i then j else if k = j then i else k

theorem moved_moved (i j k : Nat) : moved i j (moved i j k) = k := by
  unfold moved
  split_ifs <;> omega

theorem moved_comm (i j k : Nat) : moved i j k = moved j i k := by
  unfold moved
  split_ifs <;> omega

theorem getElem?_swapTwo {l : List α} {i j : Nat} (first : i < l.length) (second : j < l.length) (k : Nat) :
    (swapTwo l i j)[k]? = l[moved i j k]? := by
  unfold swapTwo moved
  rw [List.getElem?_eq_getElem first, List.getElem?_eq_getElem second]
  dsimp only
  rw [List.getElem?_set, List.length_set, List.getElem?_set]
  by_cases at_i : k = i
  · subst at_i
    by_cases same : j = k
    · subst same
      simp [first]
    · simp [same, first, second]
  · by_cases at_j : k = j
    · subst at_j
      simp [at_i, first, second]
    · simp [at_i, at_j, Ne.symm at_i, Ne.symm at_j]

theorem swapTwo_perm {l : List α} {i j : Nat} (first : i < l.length) (second : j < l.length) : (swapTwo l i j).Perm l := by
  unfold swapTwo
  rw [List.getElem?_eq_getElem first, List.getElem?_eq_getElem second]
  exact List.set_set_perm first second

theorem swapTwo_comm {l : List α} {i j : Nat} (first : i < l.length) (second : j < l.length) :
    swapTwo l i j = swapTwo l j i := by
  refine List.ext_getElem? fun k => ?_
  rw [getElem?_swapTwo first second, getElem?_swapTwo second first, moved_comm]

theorem moved_lt_iff {i j k l : Nat} (order : i < j) (before : l < k) :
    moved i j l < moved i j k ↔ ¬ (k = j ∧ i ≤ l) ∧ ¬ (l = i ∧ k < j) := by
  unfold moved
  split_ifs <;> omega

end Swap

/-- Every element, together with the elements before it, has the property. -/
def EachAfter {α : Type} (P : List α → α → Prop) (xs : List α) : Prop := ∀ front x back, xs = front ++ x :: back → P front x

namespace EachAfter

variable {α : Type} {P Q : List α → α → Prop} {xs ys : List α}

theorem singleton {x : α} : EachAfter P [x] ↔ P [] x := by
  constructor
  · intro each
    exact each [] x [] rfl
  · intro holds front y back split
    rcases List.append_eq_cons_iff.mp split.symm with ⟨rfl, tail⟩ | ⟨rest, rfl, tail⟩
    · rw [(List.cons.inj tail).1]
      exact holds
    · simp at tail

theorem append : EachAfter P (xs ++ ys) ↔ EachAfter P xs ∧ EachAfter (fun front x => P (xs ++ front) x) ys := by
  constructor
  · intro each
    refine ⟨fun front x back split => each front x (back ++ ys) ?_, fun front x back split => each (xs ++ front) x back ?_⟩
    · rw [split, List.append_assoc, List.cons_append]
    · rw [split, List.append_assoc]
  · rintro ⟨first, second⟩ front x back split
    rcases List.append_eq_append_iff.mp split with ⟨middle, rfl, rest⟩ | ⟨middle, rfl, rest⟩
    · exact second middle x back rest
    · cases middle with
      | nil =>
        have here := second [] x back rest.symm
        rwa [List.append_nil, List.append_nil] at here
      | cons y middle =>
        rw [(List.cons.inj rest).1]
        exact first front y middle rfl

theorem cons {x : α} : EachAfter P (x :: xs) ↔ P [] x ∧ EachAfter (fun front y => P (x :: front) y) xs := by
  rw [← List.singleton_append, append, singleton]
  rfl

theorem imp (each : EachAfter P xs) (weaker : ∀ front, front <+: xs → ∀ x ∈ xs, P front x → Q front x) : EachAfter Q xs := by
  intro front x back split
  refine weaker front ⟨x :: back, split.symm⟩ x ?_ (each front x back split)
  rw [split]
  exact List.mem_append_right _ List.mem_cons_self

/-- A block goes in at a position: the elements in front see nothing of it, those behind all of it. -/
theorem insert {before after block : List α} (each : EachAfter P (before ++ after))
    (new : EachAfter (fun front x => P (before ++ front) x) block)
    (kept : ∀ front x, x ∈ after → P (before ++ front) x → P (before ++ (block ++ front)) x) :
    EachAfter P (before ++ (block ++ after)) := by
  obtain ⟨first, second⟩ := append.mp each
  refine append.mpr ⟨first, append.mpr ⟨new, second.imp fun front _ x member holds => kept front x member holds⟩⟩

theorem iff_getElem? : EachAfter P xs ↔ ∀ (i : Nat) x, xs[i]? = some x → P (xs.take i) x := by
  constructor
  · intro each i x found
    obtain ⟨inside, rfl⟩ := List.getElem?_eq_some_iff.mp found
    refine each (xs.take i) xs[i] (xs.drop (i + 1)) ?_
    rw [List.getElem_cons_drop, List.take_append_drop]
  · rintro each front x back rfl
    have here := each front.length x (by simp)
    rwa [List.take_left] at here

end EachAfter
