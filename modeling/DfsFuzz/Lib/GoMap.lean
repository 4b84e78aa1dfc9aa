import Mathlib.Data.List.AList
import Mathlib.Data.List.Induction
import Mathlib.Data.List.Perm.Basic

/-!
Go maps as association lists. The order of the entries is the order in which `range` visits
them, so a statement about every value is a statement about every iteration order.
-/

namespace Go

/-- An iteration order: an arbitrary rearrangement of the entries of a map. -/
structure RangeOrder where
  arrange : {α : Type} → List α → List α
  perm : ∀ {α : Type} (l : List α), (arrange l).Perm l

def RangeOrder.stored : RangeOrder := ⟨id, fun l => List.Perm.refl l⟩

def RangeOrder.reversed : RangeOrder := ⟨List.reverse, fun l => List.reverse_perm l⟩

abbrev Map (α β : Type) := AList (fun _ : α => β)

namespace Map

variable {α β : Type} [DecidableEq α]

def items (m : Map α β) : List (α × β) := m.entries.map fun e => (e.1, e.2)

def getD (m : Map α β) (k : α) (zero : β) : β := (m.lookup k).getD zero

/-- `if _, ok := m[k]; !ok { m[k] = v }`. -/
def putNew (m : Map α β) (k : α) (v : β) : Map α β :=
  if (m.lookup k).isSome then m else m.insert k v

def push (m : Map α (List β)) (k : α) (x : β) : Map α (List β) := m.insert k (m.getD k [] ++ [x])

def mapValues {γ : Type} (f : β → γ) (m : Map α β) : Map α γ where
  entries := m.entries.map fun e => ⟨e.1, f e.2⟩
  nodupKeys := by
    have same : (m.entries.map fun e => (⟨e.1, f e.2⟩ : Sigma fun _ : α => γ)).keys = m.entries.keys := by
      simp [List.keys, Function.comp_def]
    rw [List.NodupKeys, same]
    exact m.nodupKeys

@[simp] theorem getD_empty (k : α) (zero : β) : (∅ : Map α β).getD k zero = zero := rfl

@[simp] theorem getD_insert_self (m : Map α β) (k : α) (v zero : β) : getD (m.insert k v) k zero = v := by
  simp [getD]

theorem getD_insert_ne (m : Map α β) {k k' : α} (v zero : β) (different : k ≠ k') :
    getD (m.insert k' v) k zero = m.getD k zero := by
  simp only [getD]
  rw [AList.lookup_insert_ne different]

theorem mem_items {m : Map α β} {k : α} {v : β} : (k, v) ∈ m.items ↔ m.lookup k = some v := by
  have entry : (k, v) ∈ m.items ↔ (⟨k, v⟩ : Sigma fun _ : α => β) ∈ m.entries := by
    constructor
    · intro member
      obtain ⟨⟨k', v'⟩, inside, same⟩ := List.mem_map.mp member
      obtain ⟨rfl, rfl⟩ := Prod.mk.inj same
      exact inside
    · exact fun inside => List.mem_map.mpr ⟨_, inside, rfl⟩
  rw [entry]
  exact AList.mem_lookup_iff.symm

theorem find?_items (m : Map α β) (k : α) : (m.items.find? fun e => e.1 = k).map Prod.snd = m.lookup k := by
  cases found : m.items.find? fun e => e.1 = k with
  | none =>
    cases stored : m.lookup k with
    | none => rfl
    | some v =>
      rw [List.find?_eq_none] at found
      exact absurd (decide_eq_true rfl) (found (k, v) (mem_items.mpr stored))
  | some e =>
    have hit : e.1 = k := by simpa using List.find?_some found
    have stored : m.lookup e.1 = some e.2 := mem_items.mp (List.mem_of_find?_eq_some found)
    rw [← hit, stored]
    rfl

omit [DecidableEq α] in
theorem nodup_items_keys (m : Map α β) : (m.items.map Prod.fst).Nodup := by
  have keys : m.items.map Prod.fst = m.entries.keys := by simp [items, List.keys, Function.comp_def]
  rw [keys]
  exact m.nodupKeys

theorem lookup_mapValues {γ : Type} (f : β → γ) (m : Map α β) (k : α) :
    (m.mapValues f).lookup k = (m.lookup k).map f := by
  obtain ⟨entries, nodup⟩ := m
  simp only [mapValues, AList.lookup]
  clear nodup
  induction entries with
  | nil => rfl
  | cons e entries ih =>
    obtain ⟨key, value⟩ := e
    by_cases same : k = key
    · subst same
      simp
    · simp only [List.map_cons]
      rw [List.dlookup_cons_ne _ _ same, List.dlookup_cons_ne _ _ same, ih]

omit [DecidableEq α] in
theorem items_mapValues {γ : Type} (f : β → γ) (m : Map α β) :
    (m.mapValues f).items = m.items.map fun e => (e.1, f e.2) := by
  simp [items, mapValues, Function.comp_def]

theorem lookup_putNew (m : Map α β) (k k' : α) (v : β) :
    (m.putNew k' v).lookup k = (m.lookup k).or (if k = k' then some v else none) := by
  unfold putNew
  split
  · rename_i present
    obtain ⟨w, found⟩ := Option.isSome_iff_exists.mp present
    by_cases same : k = k'
    · subst same
      simp [found]
    · simp [same]
  · rename_i absent
    by_cases same : k = k'
    · subst same
      have missing : m.lookup k = none := by simpa using absent
      simp [missing]
    · rw [AList.lookup_insert_ne same]
      simp [same]

section Fill
variable {ι : Type} (key : ι → α) (val : ι → β)

theorem lookup_foldl_putNew (xs : List ι) (m : Map α β) (k : α) :
    (xs.foldl (fun m x => m.putNew (key x) (val x)) m).lookup k =
      (m.lookup k).or ((xs.find? fun x => key x = k).map val) := by
  induction xs generalizing m with
  | nil => simp
  | cons x xs ih =>
    rw [List.foldl_cons, ih, lookup_putNew, List.find?_cons, Option.or_assoc]
    by_cases same : key x = k
    · simp [same]
    · simp [same, Ne.symm same]

theorem lookup_foldl_insert (xs : List ι) (m : Map α β) (k : α) :
    (xs.foldl (fun m x => m.insert (key x) (val x)) m).lookup k =
      ((xs.reverse.find? fun x => key x = k).map val).or (m.lookup k) := by
  induction xs generalizing m with
  | nil => simp
  | cons x xs ih =>
    rw [List.foldl_cons, ih, List.reverse_cons, List.find?_append]
    cases found : xs.reverse.find? fun x => key x = k with
    | some y => simp
    | none =>
      by_cases same : key x = k
      · subst same
        simp
      · rw [AList.lookup_insert_ne (Ne.symm same)]
        simp [same]

end Fill

theorem find?_perm_of_nodup {ι : Type} {key : ι → α} {xs ys : List ι} (perm : xs.Perm ys)
    (nodup : (xs.map key).Nodup) (k : α) :
    (xs.find? fun x => key x = k) = ys.find? fun x => key x = k := by
  have nodup' : (ys.map key).Nodup := (perm.map key).nodup_iff.mp nodup
  cases found : xs.find? fun x => key x = k with
  | none =>
    symm
    rw [List.find?_eq_none] at found ⊢
    exact fun x member => found x (perm.mem_iff.mpr member)
  | some x =>
    have hit : key x = k := by simpa using List.find?_some found
    have member := List.mem_of_find?_eq_some found
    cases found' : ys.find? fun x => key x = k with
    | none =>
      rw [List.find?_eq_none] at found'
      exact absurd hit (by simpa using found' x (perm.mem_iff.mp member))
    | some y =>
      have hit' : key y = k := by simpa using List.find?_some found'
      have member' := perm.mem_iff.mpr (List.mem_of_find?_eq_some found')
      rw [List.inj_on_of_nodup_map nodup member member' (hit.trans hit'.symm)]

/-- With distinct keys the map holds the entries of the list and nothing else. -/
theorem lookup_filled {ι : Type} {key : ι → α} {val : ι → β} {xs : List ι} (nodup : (xs.map key).Nodup) (k : α) (v : β) :
    (xs.foldl (fun m x => m.insert (key x) (val x)) (∅ : Map α β)).lookup k = some v ↔
      ∃ x ∈ xs, key x = k ∧ val x = v := by
  have found := lookup_foldl_insert key val xs ∅ k
  rw [← find?_perm_of_nodup (List.reverse_perm xs).symm nodup k, AList.lookup_empty, Option.or_none] at found
  rw [found, Option.map_eq_some_iff]
  constructor
  · rintro ⟨x, here, same⟩
    exact ⟨x, List.mem_of_find?_eq_some here, by simpa using List.find?_some here, same⟩
  · rintro ⟨x, member, rfl, rfl⟩
    have present : (xs.find? fun y => key y = key x).isSome := List.find?_isSome.mpr ⟨x, member, by simp⟩
    obtain ⟨y, here⟩ := Option.isSome_iff_exists.mp present
    have same : key y = key x := by simpa using List.find?_some here
    exact ⟨y, here, by rw [List.inj_on_of_nodup_map nodup (List.mem_of_find?_eq_some here) member same]⟩

/-! ### Grouping

Appending each element of a list to the group of its key keeps, in every group, the order of
the list, and loses and invents nothing. -/

variable {ε : Type}

/-- `for _, x := range xs { m[x.key] = append(m[x.key], x.value) }`. -/
def pushAll (m : Map α (List ε)) (xs : List (α × ε)) : Map α (List ε) :=
  xs.foldl (fun m x => m.push x.1 x.2) m

theorem getD_pushAll (m : Map α (List ε)) (xs : List (α × ε)) (k : α) :
    (m.pushAll xs).getD k [] = m.getD k [] ++ (xs.filter fun x => x.1 = k).map Prod.snd := by
  induction xs generalizing m with
  | nil => simp [pushAll]
  | cons x xs ih =>
    have step := ih (m.push x.1 x.2)
    simp only [pushAll, List.foldl_cons] at step ⊢
    rw [step]
    by_cases same : x.1 = k
    · subst same
      simp [push]
    · rw [push, getD_insert_ne _ _ _ (Ne.symm same)]
      simp [same]

theorem mem_items_pushAll {xs : List (α × ε)} {k : α} {l : List ε} :
    (k, l) ∈ (pushAll (∅ : Map α (List ε)) xs).items ↔ l ≠ [] ∧ l = (xs.filter fun x => x.1 = k).map Prod.snd := by
  induction xs using List.reverseRecOn generalizing l with
  | nil =>
    simp only [pushAll, List.foldl_nil, List.filter_nil, List.map_nil]
    constructor
    · intro member
      cases member
    · rintro ⟨nonempty, empty⟩
      exact absurd empty nonempty
  | append_singleton xs x ih =>
    have last : pushAll (∅ : Map α (List ε)) (xs ++ [x]) = (pushAll ∅ xs).push x.1 x.2 := List.foldl_append ..
    rw [last, mem_items, push]
    by_cases same : k = x.1
    · subst same
      rw [AList.lookup_insert, getD_pushAll, getD_empty, List.nil_append, Option.some.injEq]
      constructor
      · rintro rfl
        simp
      · rintro ⟨-, rfl⟩
        simp
    · rw [AList.lookup_insert_ne same, ← mem_items, ih]
      simp [Ne.symm same]

def flat (m : Map α (List ε)) : List ε := m.items.flatMap Prod.snd

omit [DecidableEq α] in
theorem flat_eq (m : Map α (List ε)) : m.flat = m.entries.flatMap fun e => e.2 := by
  simp [flat, items, List.flatMap_map]

theorem flat_push_perm (m : Map α (List ε)) (k : α) (x : ε) : (m.push k x).flat.Perm (m.flat ++ [x]) := by
  rw [flat_eq, flat_eq, push, AList.entries_insert]
  simp only [List.flatMap_cons]
  cases found : m.lookup k with
  | none =>
    have absent : k ∉ m.entries.keys := AList.lookup_eq_none.mp found
    have whole : List.kerase k m.entries = m.entries := List.kerase_of_notMem_keys absent
    rw [whole]
    simp only [getD, found, Option.getD_none, List.nil_append]
    exact List.perm_append_comm
  | some v =>
    have present : k ∈ m.entries.keys := by
      have := AList.lookup_isSome.mp (by rw [found]; rfl : (m.lookup k).isSome = true)
      exact AList.mem_keys.mp this
    obtain ⟨w, before, after, _, split, erased⟩ := List.exists_of_kerase present
    have value : v = w := by
      have member : (⟨k, w⟩ : Sigma fun _ : α => List ε) ∈ m.entries := by rw [split]; simp
      have := AList.mem_lookup_iff.mpr member
      rw [found] at this
      simpa using this
    rw [erased, split]
    simp only [getD, found, Option.getD_some, value, List.flatMap_append, List.flatMap_cons]
    calc (w ++ [x]) ++ (before.flatMap (fun e => e.2) ++ after.flatMap fun e => e.2)
        = w ++ ([x] ++ (before.flatMap (fun e => e.2) ++ after.flatMap fun e => e.2)) := by simp
      List.Perm _ (w ++ ((before.flatMap (fun e => e.2) ++ after.flatMap fun e => e.2) ++ [x])) :=
        List.Perm.append_left w List.perm_append_comm
      _ = (w ++ before.flatMap fun e => e.2) ++ ((after.flatMap fun e => e.2) ++ [x]) := by simp
      List.Perm _ ((before.flatMap (fun e => e.2) ++ w) ++ ((after.flatMap fun e => e.2) ++ [x])) :=
        List.Perm.append_right _ List.perm_append_comm
      _ = (before.flatMap (fun e => e.2) ++ (w ++ after.flatMap fun e => e.2)) ++ [x] := by simp

theorem flat_pushAll_perm (m : Map α (List ε)) (xs : List (α × ε)) :
    (m.pushAll xs).flat.Perm (m.flat ++ xs.map Prod.snd) := by
  induction xs generalizing m with
  | nil => simp [pushAll]
  | cons x xs ih =>
    have step := ih (m.push x.1 x.2)
    simp only [pushAll, List.foldl_cons, List.map_cons] at step ⊢
    refine step.trans ?_
    have one := (flat_push_perm m x.1 x.2).append_right (xs.map Prod.snd)
    simpa using one

omit [DecidableEq α] in
theorem flat_mapValues_perm {f : List ε → List ε} (same : ∀ l, (f l).Perm l) (m : Map α (List ε)) :
    (m.mapValues f).flat.Perm m.flat := by
  rw [flat_eq, flat_eq]
  simp only [mapValues, List.flatMap_map]
  exact List.Perm.flatMap_left _ fun e _ => same e.2

end Map

end Go
