import Mathlib.Data.List.Nodup
import Mathlib.Data.List.Perm.Basic
import Mathlib.Tactic.Common

/-!
Python dictionaries: entries in the order of their first insertion. Setting a key that is there
keeps its place, a new key goes to the end.
-/

namespace Py

structure Dict (κ α : Type) where
  entries : List (κ × α)
  nodup : (entries.map Prod.fst).Nodup
deriving DecidableEq

namespace Dict

variable {κ α : Type} [DecidableEq κ]

omit [DecidableEq κ] in
@[ext] theorem ext {d e : Dict κ α} (same : d.entries = e.entries) : d = e := by
  cases d
  cases e
  cases same
  rfl

def empty : Dict κ α := ⟨[], List.nodup_nil⟩

instance : Inhabited (Dict κ α) := ⟨empty⟩

def keys (d : Dict κ α) : List κ := d.entries.map Prod.fst

def lookupIn (k : κ) : List (κ × α) → Option α
  | [] => none
  | e :: rest => if e.1 = k then some e.2 else lookupIn k rest

def get? (d : Dict κ α) (k : κ) : Option α := lookupIn k d.entries

def setIn (k : κ) (v : α) : List (κ × α) → List (κ × α)
  | [] => [(k, v)]
  | e :: rest => if e.1 = k then (k, v) :: rest else e :: setIn k v rest

theorem mem_keys_setIn {k i : κ} {v : α} {l : List (κ × α)} :
    i ∈ (setIn k v l).map Prod.fst ↔ i = k ∨ i ∈ l.map Prod.fst := by
  induction l with
  | nil => simp [setIn]
  | cons e rest ih =>
    rw [setIn]
    split
    · rename_i same
      subst same
      simp
    · simp only [List.map_cons, List.mem_cons, ih]
      tauto

theorem nodup_setIn {l : List (κ × α)} (nodup : (l.map Prod.fst).Nodup) (k : κ) (v : α) :
    ((setIn k v l).map Prod.fst).Nodup := by
  induction l with
  | nil => simp [setIn]
  | cons e rest ih =>
    rw [List.map_cons, List.nodup_cons] at nodup
    rw [setIn]
    split
    · rename_i same
      subst same
      exact List.nodup_cons.mpr nodup
    · rename_i other
      refine List.nodup_cons.mpr ⟨?_, ih nodup.2⟩
      rw [mem_keys_setIn, not_or]
      exact ⟨other, nodup.1⟩

/-- `d[k] = v` -/
def set (d : Dict κ α) (k : κ) (v : α) : Dict κ α := ⟨setIn k v d.entries, nodup_setIn d.nodup k v⟩

/-- `d.pop(k, None)` -/
def erase (d : Dict κ α) (k : κ) : Dict κ α :=
  ⟨d.entries.filter fun e => e.1 ≠ k, d.nodup.sublist (List.filter_sublist.map Prod.fst)⟩

/-- `k in d` -/
def has (d : Dict κ α) (k : κ) : Bool := (d.get? k).isSome

/-! ### Lookups -/

@[simp] theorem get?_empty (k : κ) : (empty : Dict κ α).get? k = none := rfl

@[simp] theorem get?_set_self (d : Dict κ α) (k : κ) (v : α) : (d.set k v).get? k = some v := by
  obtain ⟨l, nodup⟩ := d
  simp only [set, get?]
  clear nodup
  induction l with
  | nil => simp [setIn, lookupIn]
  | cons e rest ih =>
    rw [setIn]
    split
    · simp [lookupIn]
    · rename_i other
      rw [lookupIn, if_neg other, ih]

theorem get?_set_ne (d : Dict κ α) {k i : κ} (other : i ≠ k) (v : α) : (d.set k v).get? i = d.get? i := by
  obtain ⟨l, nodup⟩ := d
  simp only [set, get?]
  clear nodup
  induction l with
  | nil => simp [setIn, lookupIn, other.symm]
  | cons e rest ih =>
    rw [setIn]
    split
    · rename_i same
      subst same
      simp [lookupIn, other.symm]
    · rw [lookupIn, lookupIn, ih]

theorem get?_set (d : Dict κ α) (k i : κ) (v : α) : (d.set k v).get? i = if i = k then some v else d.get? i := by
  split
  · rename_i same
    rw [same, get?_set_self]
  · rename_i other
    exact get?_set_ne d other v

theorem get?_erase (d : Dict κ α) (k i : κ) : (d.erase k).get? i = if i = k then none else d.get? i := by
  obtain ⟨l, nodup⟩ := d
  simp only [erase, get?]
  clear nodup
  induction l with
  | nil => simp [lookupIn]
  | cons e rest ih =>
    by_cases dropped : e.1 = k
    · rw [List.filter_cons_of_neg (by simpa using dropped), ih, lookupIn]
      by_cases same : i = k
      · simp [same]
      · have other : ¬ e.1 = i := fun equal => same (equal.symm.trans dropped)
        simp [same, other]
    · rw [List.filter_cons_of_pos (by simpa using dropped), lookupIn, ih, lookupIn]
      by_cases here : e.1 = i
      · subst here
        simp [dropped]
      · simp [here]

theorem mem_keys {d : Dict κ α} {k : κ} : k ∈ d.keys ↔ ∃ v, d.get? k = some v := by
  obtain ⟨l, nodup⟩ := d
  simp only [keys, get?]
  clear nodup
  induction l with
  | nil => simp [lookupIn]
  | cons e rest ih =>
    rw [List.map_cons, List.mem_cons, ih, lookupIn]
    by_cases here : e.1 = k
    · simp [here]
    · have other : k ≠ e.1 := fun same => here same.symm
      simp [here, other]

theorem get?_eq_none {d : Dict κ α} {k : κ} : d.get? k = none ↔ k ∉ d.keys := by
  rw [mem_keys]
  cases d.get? k <;> simp

theorem mem_entries {d : Dict κ α} {k : κ} {v : α} : (k, v) ∈ d.entries ↔ d.get? k = some v := by
  obtain ⟨l, nodup⟩ := d
  simp only [get?]
  induction l with
  | nil => simp [lookupIn]
  | cons e rest ih =>
    obtain ⟨key, value⟩ := e
    rw [List.map_cons, List.nodup_cons] at nodup
    rw [List.mem_cons, lookupIn]
    by_cases here : key = k
    · subst here
      have absent : (key, v) ∉ rest := fun member => nodup.1 (List.mem_map.mpr ⟨_, member, rfl⟩)
      simp [absent, eq_comm]
    · have other : (k, v) ≠ (key, value) := fun same => here (Prod.mk.inj same).1.symm
      simp only [other, false_or]
      rw [if_neg here]
      exact ih nodup.2

/-- Dictionaries with the same keys in the same order and the same values are the same. -/
theorem ext_get {d e : Dict κ α} (keys : d.keys = e.keys) (same : ∀ k, d.get? k = e.get? k) : d = e := by
  apply ext
  have lengths : d.entries.length = e.entries.length := by simpa [Dict.keys] using congrArg List.length keys
  refine List.ext_getElem lengths fun i left right => ?_
  have key : d.entries[i].1 = e.entries[i].1 := by
    have both := List.getElem_of_eq keys (by simpa [Dict.keys] using left)
    simpa [Dict.keys] using both
  have here : d.get? d.entries[i].1 = some d.entries[i].2 := mem_entries.mp (List.getElem_mem left)
  have there : e.get? e.entries[i].1 = some e.entries[i].2 := mem_entries.mp (List.getElem_mem right)
  rw [same, key, there] at here
  exact Prod.ext key (Option.some.inj here).symm

theorem keys_set_old {d : Dict κ α} {k : κ} (present : k ∈ d.keys) (v : α) : (d.set k v).keys = d.keys := by
  obtain ⟨l, nodup⟩ := d
  simp only [set, keys] at present ⊢
  clear nodup
  induction l with
  | nil => simp at present
  | cons e rest ih =>
    rw [setIn]
    split
    · rename_i same
      simp [same]
    · rename_i other
      rw [List.map_cons, List.mem_cons] at present
      rw [List.map_cons, List.map_cons, ih (present.resolve_left fun same => other same.symm)]

theorem keys_set_new {d : Dict κ α} {k : κ} (absent : k ∉ d.keys) (v : α) : (d.set k v).keys = d.keys ++ [k] := by
  obtain ⟨l, nodup⟩ := d
  simp only [set, keys] at absent ⊢
  clear nodup
  induction l with
  | nil => rfl
  | cons e rest ih =>
    rw [List.map_cons, List.mem_cons, not_or] at absent
    rw [setIn, if_neg (Ne.symm absent.1), List.map_cons, ih absent.2, List.map_cons, List.cons_append]

theorem keys_erase (d : Dict κ α) (k : κ) : (d.erase k).keys = d.keys.filter fun i => i ≠ k := by
  simp only [keys, erase, List.filter_map]
  rfl

theorem set_same {d : Dict κ α} {k : κ} {v : α} (found : d.get? k = some v) : d.set k v = d := by
  refine ext_get (keys_set_old (mem_keys.mpr ⟨v, found⟩) v) fun i => ?_
  rw [get?_set]
  split
  · rename_i same
    rw [same, found]
  · rfl

end Dict

end Py
