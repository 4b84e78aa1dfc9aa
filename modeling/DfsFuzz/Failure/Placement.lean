import DfsFuzz.Failure.Insert
import DfsFuzz.Lib.Interleave

/-!
A client with syncs is its old calls with the sync codes set among them, `List (Call ⊕ Nat)`.
`Placed` says that a program is such a list written out, `placeOf` reads the list back, and the
operations on programs become insertions into it.
-/

namespace DfsFuzz.Failure
open Interleave

def syncCall (id : UInt64) (clt : Nat) : Call := failureCall "syz_failure_sync" [id, UInt64.ofNat clt]

def render (ids : Nat → UInt64) (clt : Nat) : Call ⊕ Nat → Call
  | .inl call => call
  | .inr code => syncCall (ids code) clt

/-- The program is the list with every code written as the sync call with its id, and
`SrvFailPos` has the positions of exactly these calls. -/
structure Placed (ids : Nat → UInt64) (clt : Nat) (l : List (Call ⊕ Nat)) (p : Prog) : Prop where
  calls : p.calls = l.map (render ids clt)
  located : Locates p.srvFailPos l

def placeOf (p : Prog) : List (Call ⊕ Nat) :=
  p.calls.zipIdx.map fun item =>
    match p.srvFailPos.find? fun pos => pos.2 == item.2 with
    | some pos => .inr pos.1
    | none => .inl item.1

variable {ids : Nat → UInt64} {clt : Nat} {l : List (Call ⊕ Nat)} {p : Prog}

theorem Placed.length (placed : Placed ids clt l p) : p.calls.length = l.length := by
  rw [placed.calls, List.length_map]

theorem find?_position (located : Locates p.srvFailPos l) (n : Nat) :
    (p.srvFailPos.find? fun pos => pos.2 == n).map Prod.fst = l[n]?.bind Sum.getRight? := by
  cases found : p.srvFailPos.find? fun pos => pos.2 == n with
  | some pos =>
    obtain ⟨code, m⟩ := pos
    obtain rfl : m = n := by simpa using List.find?_some found
    rw [(located.covers code m).mp (List.mem_of_find?_eq_some found)]
    rfl
  | none =>
    refine (Option.bind_eq_none_iff.mpr ?_).symm
    intro x here
    cases x with
    | inl call => rfl
    | inr code =>
      have absent := List.find?_eq_none.mp found (code, n) ((located.covers code n).mpr here)
      simp at absent

theorem Placed.placeOf_eq (placed : Placed ids clt l p) : placeOf p = l := by
  refine List.ext_getElem? fun n => ?_
  have search := find?_position placed.located n
  rw [placeOf, List.getElem?_map, List.getElem?_zipIdx, placed.calls, List.getElem?_map]
  cases here : l[n]? with
  | none => rfl
  | some x =>
    rw [here] at search
    cases x with
    | inl call =>
      have absent : (p.srvFailPos.find? fun pos => pos.2 == n) = none := by simpa using search
      simp [absent, render]
    | inr code =>
      obtain ⟨pos, found, rfl⟩ := Option.map_eq_some_iff.mp search
      simp [found]

def synced (start stop : Nat) (p : Prog) (clt srv : Nat) : Prog :=
  { p with
    calls := insertPair p.calls start stop (syncCall p.syncIdx clt) (syncCall (p.syncIdx + 1) clt)
    syncIdx := p.syncIdx + 1 + 1
    srvFailPos := p.srvFailPos.map (fun item => (item.1, shift start stop item.2)) ++
      [(startCode srv, start), (endCode srv, stop + 1)] }

theorem insertAtOrLast_eq {idx : UInt64} {target : Nat} {inside : Bool}
    (place : inside = true ∧ target ≤ p.calls.length ∨ inside = false ∧ target = p.calls.length) :
    insertAtOrLast idx p clt inside target =
      ({ p with calls := p.calls.take target ++ syncCall idx clt :: p.calls.drop target }, idx + 1, target) := by
  rcases place with ⟨rfl, -⟩ | ⟨rfl, rfl⟩
  · simp [insertAtOrLast, findAndInsert, genSyncCall, insertBefore, syncCall]
  · simp [insertAtOrLast, insertAtLast, genSyncCall, insertEnd, syncCall]

theorem insertSync_eq {start stop : Nat} (client : clt ≠ 0) (first : start ≤ stop)
    (last : stop ≤ p.calls.length) (srv : Nat) :
    insertSync start stop p clt srv = some (synced start stop p clt srv) := by
  have inside : ∀ n : Nat, (!((start : Int) == -1 && (stop : Int) == -1) && decide ((n : Int) < p.calls.length)) =
      decide (n < p.calls.length) := by
    intro n
    have : ((start : Int) == -1) = false := by simp
    simp [this]
  have one := @insertAtOrLast_eq clt p p.syncIdx start (decide (start < p.calls.length)) (by simp; omega)
  let p1 : Prog := { p with calls := p.calls.take start ++ syncCall p.syncIdx clt :: p.calls.drop start }
  have more : p1.calls.length = p.calls.length + 1 := by simp [p1]; omega
  have two := @insertAtOrLast_eq clt p1 (p.syncIdx + 1) (stop + 1) (decide (stop < p.calls.length)) (by simp; omega)
  have calls := insertPair_eq_twice first last (syncCall p.syncIdx clt) (syncCall (p.syncIdx + 1) clt)
  have moved : shiftLoc start stop = shift start stop := by
    funext n
    simp only [shiftLoc, shift, Int.ofNat_le]
  unfold insertSync synced
  rw [if_neg client]
  simp only [inside, Int.toNat_natCast, one, if_pos first]
  rw [two, calls, moved]

theorem insertSync_empty (client : clt ≠ 0) (empty : p.calls = []) (none : p.srvFailPos = []) (srv : Nat) :
    insertSync (-1) (-1) p clt srv = some (synced 0 0 p clt srv) := by
  simp [insertSync, synced, insertAtOrLast, insertAtLast, genSyncCall, insertEnd, insertPair, syncCall, client,
    empty, none]

theorem Placed.synced {start stop srv : Nat} (placed : Placed ids clt l p) (first : start ≤ stop)
    (last : stop ≤ l.length) (startId : ids (startCode srv) = p.syncIdx)
    (endId : ids (endCode srv) = p.syncIdx + 1) :
    Placed ids clt (insertPair l start stop (.inr (startCode srv)) (.inr (endCode srv)))
      (synced start stop p clt srv) where
  calls := by
    rw [map_insertPair, ← placed.calls]
    simp only [Failure.synced, render, startId, endId]
  located := placed.located.insertPair first last _ _

/-! ### The positions between two syncs -/

theorem mem_filterFailureCalls {start stop i : Nat} (inside : start ≤ p.calls.length) :
    i ∈ filterFailureCalls start stop p ↔ start ≤ i ∧ i ≤ stop ∧ i ≤ p.calls.length := by
  simp only [filterFailureCalls]
  split_ifs with reaches
  · simp only [List.mem_append, List.mem_range'_1, List.mem_singleton]
    omega
  · simp only [List.append_nil, List.mem_range'_1]
    omega

theorem filterFailureCalls_nodup (start stop : Nat) (p : Prog) : (filterFailureCalls start stop p).Nodup := by
  simp only [filterFailureCalls]
  split_ifs with reaches
  · refine List.nodup_append.mpr ⟨List.nodup_range', by simp, ?_⟩
    intro i member j last
    rw [List.mem_range'_1] at member
    rw [List.mem_singleton] at last
    omega
  · simpa using List.nodup_range'

theorem arraySearch_eq_some (located : Locates p.srvFailPos l) (distinct : (rights l).Nodup) {code n : Nat} :
    arraySearch p.srvFailPos code = some n ↔ l[n]? = some (.inr code) := by
  unfold arraySearch
  rw [Option.map_eq_some_iff]
  constructor
  · rintro ⟨⟨code', m⟩, found, rfl⟩
    obtain rfl : code' = code := by simpa using List.find?_some found
    exact (located.covers _ _).mp (List.mem_of_find?_eq_some found)
  · intro here
    have member := (located.covers code n).mpr here
    have finds : (p.srvFailPos.find? fun item => item.1 == code).isSome := by
      refine List.find?_isSome.mpr ⟨(code, n), member, ?_⟩
      simp
    obtain ⟨⟨code', m⟩, found⟩ := Option.isSome_iff_exists.mp finds
    obtain rfl : code' = code := by simpa using List.find?_some found
    have there := (located.covers _ _).mp (List.mem_of_find?_eq_some found)
    exact ⟨_, found, position_unique distinct there here⟩

theorem arraySearch_isSome (located : Locates p.srvFailPos l) (distinct : (rights l).Nodup) (code : Nat) :
    (arraySearch p.srvFailPos code).isSome = decide (code ∈ rights l) := by
  rw [Bool.eq_iff_iff, Option.isSome_iff_exists, decide_eq_true_iff, mem_rights_iff_getElem?]
  exact exists_congr fun n => arraySearch_eq_some located distinct

theorem findSome?_eq_head?_filter {α β : Type} (f : α → Option β) (xs : List α) :
    xs.findSome? f = (xs.filter fun x => (f x).isSome).head?.bind f := by
  induction xs with
  | nil => rfl
  | cons x xs ih =>
    cases shown : f x with
    | some y => simp [List.findSome?, shown]
    | none => simp [List.findSome?, shown, ih]

def present (l : List (Call ⊕ Nat)) (xs : List Nat) : List Nat := xs.filter fun code => decide (code ∈ rights l)

/-- The range for a code of the order: the positions with the present codes before it in front
of them, and no others. -/
theorem mem_getPosRange (placed : Placed ids clt l p) (distinct : (rights l).Nodup) {front back : List Nat}
    {code i : Nat} (fresh : code ∉ rights l) (split : rights l = present l front ++ present l back) :
    i ∈ getPosRange (front ++ code :: back) p front.length ↔
      i ≤ l.length ∧ rights (l.take i) = present l front := by
  have missing : arraySearch p.srvFailPos code = none := by
    have absent := arraySearch_isSome placed.located distinct code
    simpa [fresh] using absent
  have nearest : ∀ xs : List Nat,
      xs.findSome? (arraySearch p.srvFailPos) = (present l xs).head?.bind (arraySearch p.srvFailPos) := by
    intro xs
    rw [findSome?_eq_head?_filter, present]
    simp only [arraySearch_isSome placed.located distinct]
  have low : ((front ++ code :: back).take (front.length + 1)).reverse.findSome? (arraySearch p.srvFailPos) =
      (present l front).getLast?.bind (arraySearch p.srvFailPos) := by
    have taken : (front ++ code :: back).take (front.length + 1) = front ++ [code] := by
      simp [List.take_append, List.take_of_length_le]
    have skipped := nearest front.reverse
    rw [present, List.filter_reverse, List.head?_reverse, ← present] at skipped
    simpa [taken, missing] using skipped
  have high : ((front ++ code :: back).drop front.length).findSome? (arraySearch p.srvFailPos) =
      (present l back).head?.bind (arraySearch p.srvFailPos) := by
    simpa [missing] using nearest back
  have stands : ∀ code ∈ rights l, ∃ n, n < l.length ∧ l[n]? = some (.inr code) ∧
      arraySearch p.srvFailPos code = some n := by
    intro code member
    obtain ⟨n, here⟩ := mem_rights_iff_getElem?.mp member
    exact ⟨n, (List.getElem?_eq_some_iff.mp here).1, here,
      (arraySearch_eq_some placed.located distinct).mpr here⟩
  have lowest : ∃ low, low ≤ l.length ∧
      (((present l front).getLast?.bind (arraySearch p.srvFailPos)).map (· + 1)).getD 0 = low ∧
      (low ≤ i ↔ ∀ k n, (present l front).getLast? = some k → l[n]? = some (.inr k) → n < i) := by
    cases last : (present l front).getLast? with
    | none => exact ⟨0, Nat.zero_le _, rfl, by simp⟩
    | some k =>
      obtain ⟨n, inside, here, found⟩ := stands k (by
        rw [split]; exact List.mem_append_left _ (List.mem_of_getLast? last))
      refine ⟨n + 1, inside, by simp [found], ?_⟩
      constructor
      · intro le k' m same there
        obtain rfl : k = k' := Option.some.inj same
        rw [position_unique distinct there here]
        omega
      · intro all
        exact all k n rfl here
  have highest : ∃ high, ((present l back).head?.bind (arraySearch p.srvFailPos)).getD l.length = high ∧
      (i ≤ high ∧ i ≤ l.length ↔
        i ≤ l.length ∧ ∀ k n, (present l back).head? = some k → l[n]? = some (.inr k) → i ≤ n) := by
    cases head : (present l back).head? with
    | none => exact ⟨l.length, rfl, by simp⟩
    | some k =>
      obtain ⟨n, inside, here, found⟩ := stands k (by
        rw [split]; exact List.mem_append_right _ (List.mem_of_head? head))
      refine ⟨n, by simp [found], ?_⟩
      constructor
      · rintro ⟨le, bound⟩
        refine ⟨bound, ?_⟩
        intro k' m same there
        obtain rfl : k = k' := Option.some.inj same
        rw [position_unique distinct there here]
        exact le
      · rintro ⟨bound, all⟩
        exact ⟨all k n rfl here, bound⟩
  obtain ⟨lo, loInside, loEq, loIff⟩ := lowest
  obtain ⟨hi, hiEq, hiIff⟩ := highest
  rw [rights_take_eq_iff split distinct, getPosRange, low, high, placed.length]
  simp only [loEq, hiEq]
  rw [mem_filterFailureCalls (by rw [placed.length]; exact loInside), placed.length, loIff, hiIff]
  exact and_left_comm

theorem foldl_zipIdx_of_notMem {code : Nat} {xs : List Nat} (absent : code ∉ xs) (f : Nat → List Nat) (n : Nat)
    (list : List Nat) :
    (xs.zipIdx n).foldl (fun list item => if item.1 = code then f item.2 else list) list = list := by
  induction xs generalizing n with
  | nil => rfl
  | cons x xs ih =>
    rw [List.mem_cons, not_or] at absent
    rw [List.zipIdx_cons, List.foldl_cons, if_neg (Ne.symm absent.1)]
    exact ih absent.2 (n + 1)

theorem orderedPos_eq {front back : List Nat} {code : Nat} (last : code ∉ back) (p : Prog) :
    orderedPos (front ++ code :: back) p code = getPosRange (front ++ code :: back) p front.length := by
  rw [orderedPos, List.zipIdx_append, List.foldl_append, List.zipIdx_cons, List.foldl_cons, if_pos rfl,
    foldl_zipIdx_of_notMem last, Nat.zero_add]

def before (order : List Nat) (code : Nat) : List Nat := order.takeWhile (· != code)

theorem before_eq {front back : List Nat} {code : Nat} (absent : code ∉ front) :
    before (front ++ code :: back) code = front := by
  have kept : ∀ x ∈ front, (x != code) = true := by
    intro x member
    simp only [bne_iff_ne]
    rintro rfl
    exact absent member
  simp [before, List.takeWhile_append_of_pos kept]

theorem mem_orderedPos (placed : Placed ids clt l p) (distinct : (rights l).Nodup) {order : List Nat}
    (held : rights l = present l order) (once : order.Nodup) {code i : Nat} (member : code ∈ order)
    (fresh : code ∉ rights l) :
    i ∈ orderedPos order p code ↔ i ≤ l.length ∧ rights (l.take i) = present l (before order code) := by
  obtain ⟨front, back, rfl⟩ := List.append_of_mem member
  rw [List.nodup_append, List.nodup_cons] at once
  obtain ⟨-, ⟨notBack, -⟩, apart⟩ := once
  have notFront : code ∉ front := fun inFront => apart code inFront code List.mem_cons_self rfl
  have split : rights l = present l front ++ present l back := by
    rw [held]
    simp [present, fresh]
  rw [orderedPos_eq notBack, mem_getPosRange placed distinct fresh split, before_eq notFront]

theorem orderedPos_nodup (order : List Nat) (p : Prog) (code : Nat) : (orderedPos order p code).Nodup := by
  unfold orderedPos
  suffices ∀ (xs : List (Nat × Nat)) (list : List Nat), list.Nodup →
      (xs.foldl (fun list item => if item.1 = code then getPosRange order p item.2 else list) list).Nodup from
    this _ _ List.nodup_nil
  intro xs
  induction xs with
  | nil => exact fun list nodup => nodup
  | cons item xs ih =>
    intro list nodup
    rw [List.foldl_cons]
    refine ih _ ?_
    split_ifs with found
    · exact filterFailureCalls_nodup _ _ _
    · exact nodup

end DfsFuzz.Failure
