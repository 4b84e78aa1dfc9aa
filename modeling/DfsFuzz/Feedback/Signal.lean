import DfsFuzz.Lib.GoMap

/-! Sets of feedback bits with priorities (`pkg/signal/signal.go`). The nil map is the empty one. -/

namespace DfsFuzz.Feedback

abbrev Signal := Go.Map UInt32 Int8

structure Serial where
  elems : List UInt32
  prios : List Int8
  paired : elems.length = prios.length

variable {s : Signal} {b : UInt32}

namespace Signal

def ofEntries (entries : List (UInt32 × Int8)) : Signal := entries.foldl (fun s e => s.insert e.1 e.2) ∅

def fromRaw (raw : List UInt32) (prio : UInt8) : Signal := raw.foldl (fun s e => s.insert e prio.toInt8) ∅

def serialize (s : Signal) : Serial where
  elems := s.items.map Prod.fst
  prios := s.items.map Prod.snd
  paired := by simp

def deserialize (ser : Serial) : Signal := ofEntries (ser.elems.zip ser.prios)

/-- `s` has the bit at this priority or above. -/
def covers (s : Signal) (e : UInt32 × Int8) : Bool :=
  match s.lookup e.1 with
  | some p => p ≥ e.2
  | none => false

def diff (s s1 : Signal) : Signal := ofEntries (s1.items.filter fun e => !s.covers e)

def mergeEntry (s : Signal) (e : UInt32 × Int8) : Signal :=
  match s.lookup e.1 with
  | some p => if p < e.2 then s.insert e.1 e.2 else s
  | none => s.insert e.1 e.2

def merge (s s1 : Signal) : Signal := s1.items.foldl mergeEntry s

/-- The loop of `Split`; what is taken is in front. -/
def splitLoop : List (UInt32 × Int8) → Int → Signal × Signal → Signal × Signal
  | [], _, st => st
  | e :: rest, n, (taken, s) =>
    let st := (taken.insert e.1 e.2, s.erase e.1)
    if n - 1 = 0 then st else splitLoop rest (n - 1) st

def split (visit : Go.RangeOrder) (s : Signal) (n : Int) : Signal × Signal := splitLoop (visit.arrange s.items) n (∅, s)

theorem mem_iff : b ∈ s ↔ ∃ p, s.lookup b = some p := by
  rw [← AList.lookup_isSome, Option.isSome_iff_exists]

theorem mem_insert {e : UInt32} {p : Int8} : b ∈ s.insert e p ↔ b = e ∨ b ∈ s := AList.mem_insert s

/-- Bits of one priority, as the pair feedback has them. -/
def Flat (s : Signal) : Prop := ∀ b p, s.lookup b = some p → p = 0

theorem flat_empty : Flat ∅ := fun _ _ found => nomatch found

theorem Flat.insert (flat : Flat s) (e : UInt32) : Flat (s.insert e 0) := by
  intro b p found
  by_cases same : b = e
  · subst same
    rw [AList.lookup_insert] at found
    exact (Option.some.inj found).symm
  · rw [AList.lookup_insert_ne same] at found
    exact flat b p found

theorem Flat.item (flat : Flat s) {e : UInt32 × Int8} (member : e ∈ s.items) : e.2 = 0 :=
  flat e.1 e.2 (Go.Map.mem_items.mp member)

theorem mem_items_fst : b ∈ s.items.map Prod.fst ↔ b ∈ s := by
  rw [mem_iff, List.mem_map]
  constructor
  · rintro ⟨e, member, rfl⟩
    exact ⟨e.2, Go.Map.mem_items.mp member⟩
  · rintro ⟨p, found⟩
    exact ⟨(b, p), Go.Map.mem_items.mpr found, rfl⟩

/-! ### The operations -/

theorem mem_ofEntries {entries : List (UInt32 × Int8)} : b ∈ ofEntries entries ↔ b ∈ entries.map Prod.fst := by
  have loop : ∀ (l : List (UInt32 × Int8)) (s : Signal),
      b ∈ l.foldl (fun s e => s.insert e.1 e.2) s ↔ b ∈ s ∨ b ∈ l.map Prod.fst := by
    intro l
    induction l with
    | nil => exact fun s => by simp
    | cons e l ih =>
      intro s
      rw [List.foldl_cons, ih, mem_insert, List.map_cons, List.mem_cons, or_comm (a := b = e.1), or_assoc]
  exact (loop entries ∅).trans (by simp)

theorem ofEntries_spec {entries : List (UInt32 × Int8)} (zero : ∀ e ∈ entries, e.2 = 0) :
    Flat (ofEntries entries) ∧ ∀ b, b ∈ ofEntries entries ↔ b ∈ entries.map Prod.fst := by
  refine ⟨List.foldlRecOn entries _ flat_empty fun s flat e member => ?_, fun b => mem_ofEntries⟩
  rw [zero e member]
  exact flat.insert e.1

theorem fromRaw_spec (raw : List UInt32) : Flat (fromRaw raw 0) ∧ ∀ b, b ∈ fromRaw raw 0 ↔ b ∈ raw := by
  have entries : fromRaw raw 0 = ofEntries (raw.map fun b => (b, 0)) := by
    rw [ofEntries, List.foldl_map]
    rfl
  obtain ⟨flat, bits⟩ := @ofEntries_spec (raw.map fun b => (b, 0)) (by simp)
  rw [entries]
  exact ⟨flat, fun b => (bits b).trans (by simp [Function.comp_def])⟩

theorem deserialize_serialize (s : Signal) : deserialize s.serialize = ofEntries s.items := by
  have entries : s.serialize.elems.zip s.serialize.prios = s.items := List.zip_unzip s.items ▸ by
    simp [serialize, List.unzip_eq_map]
  rw [deserialize, entries]

theorem deserialize_spec (flat : Flat s) :
    Flat (deserialize s.serialize) ∧ ∀ b, b ∈ deserialize s.serialize ↔ b ∈ s := by
  rw [deserialize_serialize]
  obtain ⟨flat', bits⟩ := ofEntries_spec fun e => flat.item
  exact ⟨flat', fun b => (bits b).trans mem_items_fst⟩

theorem covers_iff (flat : Flat s) (b : UInt32) : s.covers (b, 0) = true ↔ b ∈ s := by
  rw [mem_iff, covers]
  cases found : s.lookup b with
  | none => simp
  | some p =>
    obtain rfl := flat b p found
    simp

theorem diff_spec {s1 : Signal} (flat : Flat s) (flat1 : Flat s1) :
    Flat (diff s s1) ∧ ∀ b, b ∈ diff s s1 ↔ b ∈ s1 ∧ b ∉ s := by
  obtain ⟨flat', bits⟩ := @ofEntries_spec (s1.items.filter fun e => !s.covers e)
    fun e member => flat1.item (List.mem_of_mem_filter member)
  refine ⟨flat', fun b => (bits b).trans ?_⟩
  rw [← mem_items_fst (s := s1), List.mem_map, List.mem_map]
  constructor
  · rintro ⟨e, member, rfl⟩
    obtain ⟨inside, fresh⟩ := List.mem_filter.mp member
    have zero : e = (e.1, 0) := Prod.ext rfl (flat1.item inside)
    refine ⟨⟨e, inside, rfl⟩, fun old => ?_⟩
    rw [zero, (covers_iff flat e.1).mpr old] at fresh
    cases fresh
  · rintro ⟨⟨e, inside, rfl⟩, fresh⟩
    refine ⟨e, List.mem_filter.mpr ⟨inside, ?_⟩, rfl⟩
    have zero : e = (e.1, 0) := Prod.ext rfl (flat1.item inside)
    rw [zero, Bool.not_eq_true', Bool.eq_false_iff, ne_eq, covers_iff flat]
    exact fresh

theorem mem_mergeEntry {e : UInt32 × Int8} : b ∈ mergeEntry s e ↔ b ∈ s ∨ b = e.1 := by
  unfold mergeEntry
  split
  · rename_i p found
    have known : e.1 ∈ s := mem_iff.mpr ⟨p, found⟩
    split
    · rw [mem_insert, or_comm]
    · exact (or_iff_left_of_imp fun same => same ▸ known).symm
  · rw [mem_insert, or_comm]

theorem mem_merge {s1 : Signal} : b ∈ merge s s1 ↔ b ∈ s ∨ b ∈ s1 := by
  have loop : ∀ (l : List (UInt32 × Int8)) (s : Signal), b ∈ l.foldl mergeEntry s ↔ b ∈ s ∨ b ∈ l.map Prod.fst := by
    intro l
    induction l with
    | nil => exact fun s => by simp
    | cons e l ih =>
      intro s
      rw [List.foldl_cons, ih, mem_mergeEntry, List.map_cons, List.mem_cons, or_assoc]
  exact (loop s1.items s).trans (or_congr_right mem_items_fst)

theorem Flat.mergeEntry (flat : Flat s) (b : UInt32) : Flat (mergeEntry s (b, 0)) := by
  unfold Signal.mergeEntry
  split
  · rename_i p found
    obtain rfl : p = 0 := flat b p found
    rw [if_neg (show ¬ (0 : Int8) < 0 by decide)]
    exact flat
  · exact flat.insert b

theorem merge_spec {s1 : Signal} (flat : Flat s) (flat1 : Flat s1) :
    Flat (merge s s1) ∧ ∀ b, b ∈ merge s s1 ↔ b ∈ s ∨ b ∈ s1 := by
  refine ⟨List.foldlRecOn s1.items _ flat fun s flat e member => ?_, fun b => mem_merge⟩
  have zero : e = (e.1, 0) := Prod.ext rfl (flat1.item member)
  rw [zero]
  exact flat.mergeEntry e.1

theorem mem_erase {e : UInt32} : b ∈ s.erase e ↔ b ≠ e ∧ b ∈ s := AList.mem_erase

theorem Flat.erase (flat : Flat s) (e : UInt32) : Flat (s.erase e) := by
  intro b p found
  by_cases same : b = e
  · subst same
    rw [AList.lookup_erase] at found
    cases found
  · rw [AList.lookup_erase_ne same] at found
    exact flat b p found

theorem split_spec (flat : Flat s) (visit : Go.RangeOrder) (n : Int) :
    Flat (split visit s n).1 ∧ Flat (split visit s n).2 ∧
      ∀ b, b ∈ s ↔ b ∈ (split visit s n).1 ∨ b ∈ (split visit s n).2 := by
  have loop : ∀ (l : List (UInt32 × Int8)) (n : Int) (taken left : Signal), (∀ e ∈ l, e.2 = 0) → Flat taken → Flat left →
      (∀ e ∈ l, e.1 ∈ s) → (∀ b, b ∈ s ↔ b ∈ taken ∨ b ∈ left) →
      Flat (splitLoop l n (taken, left)).1 ∧ Flat (splitLoop l n (taken, left)).2 ∧
        ∀ b, b ∈ s ↔ b ∈ (splitLoop l n (taken, left)).1 ∨ b ∈ (splitLoop l n (taken, left)).2 := by
    intro l
    induction l with
    | nil => exact fun _ _ _ _ flatTaken flatLeft _ whole => ⟨flatTaken, flatLeft, whole⟩
    | cons e l ih =>
      intro n taken left zero flatTaken flatLeft inside whole
      have here : e.2 = 0 := zero e List.mem_cons_self
      have whole' : ∀ b, b ∈ s ↔ b ∈ taken.insert e.1 e.2 ∨ b ∈ left.erase e.1 := by
        intro b
        rw [mem_insert, mem_erase, whole]
        by_cases same : b = e.1
        · subst same
          simpa using (whole e.1).mp (inside e List.mem_cons_self)
        · simp [same]
      have flatTaken' : Flat (taken.insert e.1 e.2) := here ▸ flatTaken.insert e.1
      rw [splitLoop]
      split
      · exact ⟨flatTaken', flatLeft.erase e.1, whole'⟩
      · exact ih _ _ _ (fun e' member => zero e' (List.mem_cons_of_mem _ member)) flatTaken' (flatLeft.erase e.1)
          (fun e' member => inside e' (List.mem_cons_of_mem _ member)) whole'
  have member : ∀ e ∈ visit.arrange s.items, e ∈ s.items := fun e inside => (visit.perm _).mem_iff.mp inside
  exact loop _ n ∅ s (fun e inside => flat.item (member e inside)) flat_empty flat
    (fun e inside => mem_items_fst.mp (List.mem_map_of_mem (member e inside))) (by simp)

end Signal

end DfsFuzz.Feedback
