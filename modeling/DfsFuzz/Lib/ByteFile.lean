import Mathlib.Data.List.Basic
import Mathlib.Tactic.Common

/-!
Files as sequences with a filler for the holes: reading and overwriting at a position, and setting the
length. A file with more behind its end is written alike where what is more is covered or the filler.
-/

namespace ByteFile

variable {α : Type} (zero : α)

/-- The elements from a position on, at most `count`. -/
def readAt (file : List α) (pos count : Nat) : List α := (file.drop pos).take count

def resize (file : List α) (length : Nat) : List α := file.take length ++ List.replicate (length - file.length) zero

/-- The data at a position, with what is there before and after it. -/
def overwrite (file : List α) (pos : Nat) (data : List α) : List α :=
  resize zero file pos ++ data ++ file.drop (pos + data.length)

@[simp] theorem length_resize (file : List α) (length : Nat) : (resize zero file length).length = length := by
  simp only [resize, List.length_append, List.length_take, List.length_replicate]
  omega

theorem length_readAt (file : List α) (pos count : Nat) : (readAt file pos count).length = min count (file.length - pos) := by
  simp [readAt]

/-- Reading within the new length gives what is there before, and the filler. -/
theorem readAt_resize {file : List α} {length pos count : Nat} (within : pos + count ≤ length) :
    readAt (resize zero file length) pos count =
      readAt file pos count ++ List.replicate (count - (readAt file pos count).length) zero := by
  rw [readAt, readAt, resize, List.drop_append, List.take_append, List.drop_take, List.take_take, List.drop_replicate,
    List.take_replicate, Nat.min_eq_left (show count ≤ length - pos by omega)]
  congr 2
  simp only [List.length_take, List.length_drop]
  omega

theorem length_overwrite (file : List α) (pos : Nat) (data : List α) :
    (overwrite zero file pos data).length = max file.length (pos + data.length) := by
  simp only [overwrite, List.length_append, length_resize, List.length_drop]
  omega

theorem getElem?_resize (file : List α) {length k : Nat} (within : k < length) :
    (resize zero file length)[k]? = some (file[k]?.getD zero) := by
  rcases Nat.lt_or_ge k file.length with inside | behind
  · rw [resize, List.getElem?_append_left (by simp; omega), List.getElem?_take_of_lt within, List.getElem?_eq_getElem inside]
    rfl
  · rw [resize, List.getElem?_append_right (by simp; omega), List.getElem?_replicate, if_pos (by simp; omega),
      List.getElem?_eq_none behind]
    rfl

theorem getElem?_overwrite_before (file data : List α) {pos k : Nat} (before : k < pos) :
    (overwrite zero file pos data)[k]? = some (file[k]?.getD zero) := by
  rw [overwrite, List.append_assoc, List.getElem?_append_left (by rw [length_resize]; exact before), getElem?_resize zero file before]

variable {file more : List α}

theorem getElem?_of_take_eq (starts : more.take file.length = file) {k : Nat} (inside : k < file.length) : more[k]? = file[k]? := by
  rw [← starts, List.getElem?_take_of_lt inside]

/-- The length is set alike exactly if what is more, up to the length, is the filler. -/
theorem resize_eq_iff (starts : more.take file.length = file) {length : Nat} :
    resize zero more length = resize zero file length ↔
      ∀ k a, file.length ≤ k → more[k]? = some a → k < length → a = zero := by
  constructor
  · intro same k a behind here within
    have read := congrArg (fun l : List α => l[k]?) same
    simp only [getElem?_resize zero _ within, here, List.getElem?_eq_none behind] at read
    exact Option.some.inj read
  · intro filler
    refine List.ext_getElem? fun k => ?_
    rcases Nat.lt_or_ge k length with within | beyond
    · rw [getElem?_resize zero _ within, getElem?_resize zero _ within]
      rcases Nat.lt_or_ge k file.length with inside | behind
      · rw [getElem?_of_take_eq starts inside]
      · rw [List.getElem?_eq_none behind]
        cases here : more[k]? with
        | none => rfl
        | some a => rw [filler k a behind here within]; rfl
    · rw [List.getElem?_eq_none (by simpa using beyond), List.getElem?_eq_none (by simpa using beyond)]

/-- Data overwrites alike exactly if it covers what is more, but for the filler before it. -/
theorem overwrite_eq_iff (starts : more.take file.length = file) {pos : Nat} {data : List α} :
    overwrite zero more pos data = overwrite zero file pos data ↔
      ∀ k a, file.length ≤ k → more[k]? = some a → k < pos + data.length ∧ (k < pos → a = zero) := by
  constructor
  · intro same k a behind here
    have lengths := congrArg List.length same
    rw [length_overwrite, length_overwrite] at lengths
    obtain ⟨inside, -⟩ := List.getElem?_eq_some_iff.mp here
    refine ⟨by omega, fun before => ?_⟩
    have read := congrArg (fun l : List α => l[k]?) same
    simp only [getElem?_overwrite_before zero _ _ before, here, List.getElem?_eq_none behind] at read
    exact Option.some.inj read
  · intro covered
    have before : resize zero more pos = resize zero file pos :=
      (resize_eq_iff zero starts).mpr fun k a behind here => (covered k a behind here).2
    have after : more.drop (pos + data.length) = file.drop (pos + data.length) := by
      refine List.ext_getElem? fun k => ?_
      rw [List.getElem?_drop, List.getElem?_drop]
      rcases Nat.lt_or_ge (pos + data.length + k) file.length with inside | behind
      · exact getElem?_of_take_eq starts inside
      · rw [List.getElem?_eq_none behind]
        cases here : more[pos + data.length + k]? with
        | none => rfl
        | some a =>
          have covered := (covered _ a behind here).1
          omega
    rw [overwrite, overwrite, before, after]

end ByteFile
