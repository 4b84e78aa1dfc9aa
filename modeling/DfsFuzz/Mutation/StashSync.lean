import DfsFuzz.Mutation.StashSlots
import DfsFuzz.Mutation.Mutator

/-!
The sync positions of a stash group (`prog/mutation.go`). Row 0 of `ps[0].GeneralFailPos` is a flat
list of keys and positions: 1 and 2 for the window of `ps[0]`, `100*i+1` and `100*i+2` for the two
`syz_failure_sync` calls of `ps[i]`.
-/

namespace DfsFuzz.Mutation

open DfsFuzz.Choice

def stashSyncInfos (calls : List CallObj) : List SyncInfo :=
  (indicesWhere calls isSync).filterMap fun callIdx =>
    match calls[callIdx]? with
    | none => none
    | some o => if extractSyncId o.call ≥ 0 then some ⟨callIdx, extractSyncId o.call⟩ else none

/-- Where the body of the loop moves a sync of `p`, or `none` where it continues. -/
def stashSyncMove (p : SeedProg) (which shiftDraw : Draw) : Option (SyncInfo × Nat) :=
  let syncInfos := stashSyncInfos p.calls
  match syncInfos[which.intn syncInfos.length]? with
  | none => none
  | some chosen =>
    let newCallIdx : Int := chosen.callIdx + shiftOf shiftDraw
    if newCallIdx < 1 || newCallIdx ≥ (p.calls.length : Int) - 1 then none
    else if pairBlocks syncInfos chosen newCallIdx then none
    else some (chosen, newCallIdx.toNat)

def recordFailPos (ps : List SeedProg) (progIdx : Nat) (syncId newPos : Int) : List SeedProg :=
  ps.modify 0 fun p0 => { p0 with generalFailPos := updateGeneralFailPos p0.generalFailPos progIdx syncId newPos }

/-- `draw` gives two draws to every program of the loop. -/
def stashSyncLoop (ps : List SeedProg) (draw : Nat → Draw) : List (SeedProg × Nat) → List SeedProg × Bool
  | [] => (ps, false)
  | (p, progIdx) :: rest =>
    if !p.isStash then stashSyncLoop ps draw rest
    else
      match stashSyncMove p (draw (2 * progIdx)) (draw (2 * progIdx + 1)) with
      | none => stashSyncLoop ps draw rest
      | some (chosen, newCallIdx) =>
        (recordFailPos (setCalls ps progIdx (Edits.move p.calls chosen.callIdx newCallIdx)) progIdx chosen.syncId newCallIdx,
          true)

def mutateStashSyncPos (ps : List SeedProg) (draw : Nat → Draw) : List SeedProg × Bool := stashSyncLoop ps draw ps.zipIdx

/-- The positions of the syncs of `ps[progIdx]` written over the entries that exist. -/
def refreshGeneralFailPos (ps : List SeedProg) (progIdx : Nat) : List SeedProg :=
  match ps[progIdx]? with
  | none => ps
  | some p =>
    if progIdx = 0 then ps
    else p.calls.zipIdx.foldl (fun ps entry =>
      if isSync entry.1.name && extractSyncId entry.1.call ≥ 0 then
        recordFailPos ps progIdx (extractSyncId entry.1.call) entry.2
      else ps) ps

/-! ### The row as pairs -/

/-- A row written out: every key followed by its position. -/
def flat : List (Int × Int) → List Int
  | [] => []
  | (key, pos) :: entries => key :: pos :: flat entries

/-- The scan of `shiftGeneralFailPos` from the value `v` on. -/
def shiftScan (startKey endKey shiftPos delta : Int) : Int → List Int → List Int
  | v, [] => [v]
  | v, w :: rest =>
    v :: shiftScan startKey endKey shiftPos delta
      (if (v = startKey || v = endKey) && w > 0 && w ≥ shiftPos then w + delta else w) rest

theorem shiftFailPosRow_eq (startKey endKey shiftPos delta v : Int) (rest : List Int) :
    shiftFailPosRow startKey endKey shiftPos delta (v :: rest) = shiftScan startKey endKey shiftPos delta v rest := by
  have loop : ∀ (rest front : List Int) (v : Int),
      (List.range' front.length rest.length).foldl (fun row i =>
        if (row.getD i 0 = startKey || row.getD i 0 = endKey) && row.getD (i + 1) 0 > 0 && row.getD (i + 1) 0 ≥ shiftPos then
          row.set (i + 1) (row.getD (i + 1) 0 + delta)
        else row) (front ++ v :: rest) = front ++ shiftScan startKey endKey shiftPos delta v rest := by
    intro rest
    induction rest with
    | nil => exact fun front v => rfl
    | cons w rest ih =>
      intro front v
      have here : (front ++ v :: w :: rest).getD front.length 0 = v := by simp
      have next : (front ++ v :: w :: rest).getD (front.length + 1) 0 = w := by
        simp
      have later := ih (front ++ [v]) (if (v = startKey || v = endKey) && w > 0 && w ≥ shiftPos then w + delta else w)
      rw [List.length_append, List.length_singleton, List.append_assoc, List.append_assoc, List.singleton_append,
        List.singleton_append] at later
      rw [List.length_cons, List.range'_succ, List.foldl_cons, shiftScan, ← later, here, next]
      congr 1
      split
      · simp
      · rfl
  have whole := loop rest [] v
  simpa [shiftFailPosRow, List.range_eq_range'] using whole

def shiftEntry (startKey endKey shiftPos delta : Int) (entry : Int × Int) : Int × Int :=
  if (entry.1 = startKey || entry.1 = endKey) && entry.2 > 0 && entry.2 ≥ shiftPos then (entry.1, entry.2 + delta) else entry

/-- As long as no position looks like one of the keys after its shift, the scan over all indices
sees the pairs. -/
theorem shiftFailPosRow_flat {startKey endKey shiftPos delta : Int} {entries : List (Int × Int)}
    (apart : ∀ entry ∈ entries, (shiftEntry startKey endKey shiftPos delta entry).2 ≠ startKey ∧
      (shiftEntry startKey endKey shiftPos delta entry).2 ≠ endKey) :
    shiftFailPosRow startKey endKey shiftPos delta (flat entries) =
      flat (entries.map (shiftEntry startKey endKey shiftPos delta)) := by
  have pair : ∀ key pos : Int, shiftEntry startKey endKey shiftPos delta (key, pos) =
      (key, if (key = startKey || key = endKey) && pos > 0 && pos ≥ shiftPos then pos + delta else pos) := by
    intro key pos
    unfold shiftEntry
    split <;> rfl
  have scan : ∀ (entries : List (Int × Int)) (key pos : Int),
      (∀ entry ∈ (key, pos) :: entries, (shiftEntry startKey endKey shiftPos delta entry).2 ≠ startKey ∧
        (shiftEntry startKey endKey shiftPos delta entry).2 ≠ endKey) →
      shiftScan startKey endKey shiftPos delta key (pos :: flat entries) =
        flat (((key, pos) :: entries).map (shiftEntry startKey endKey shiftPos delta)) := by
    intro entries
    induction entries with
    | nil =>
      intro key pos _
      rw [flat, shiftScan, List.map_cons, List.map_nil, pair]
      rfl
    | cons entry entries ih =>
      intro key pos apart
      obtain ⟨key', pos'⟩ := entry
      have own := apart _ List.mem_cons_self
      have later := ih key' pos' fun entry member => apart entry (List.mem_cons_of_mem _ member)
      rw [pair] at own
      rw [flat, shiftScan, shiftScan, List.map_cons, pair, flat, decide_eq_false own.1, decide_eq_false own.2, Bool.or_false,
        Bool.false_and, Bool.false_and, if_neg Bool.false_ne_true, later]
  cases entries with
  | nil => rfl
  | cons entry entries =>
    obtain ⟨key, pos⟩ := entry
    rw [flat, shiftFailPosRow_eq]
    exact scan entries key pos apart

/-- The write of `updateGeneralFailPos` into one row. -/
def writeScan (target newPos : Int) (row : List Int) : List Int :=
  match row.dropLast.findIdx? fun v => v = target with
  | none => row
  | some i => row.set (i + 1) newPos

def writeEntry (target newPos : Int) (entry : Int × Int) : Int × Int := if entry.1 = target then (target, newPos) else entry

theorem writeScan_cons {target v : Int} (newPos : Int) (other : v ≠ target) (rest : List Int) :
    writeScan target newPos (v :: rest) = v :: writeScan target newPos rest := by
  cases rest with
  | nil => rfl
  | cons w rest =>
    unfold writeScan
    rw [List.dropLast_cons_of_ne_nil (List.cons_ne_nil _ _), List.findIdx?_cons, decide_eq_false other,
      if_neg Bool.false_ne_true]
    cases (w :: rest).dropLast.findIdx? fun v => decide (v = target) <;> rfl

theorem writeScan_flat {target newPos : Int} {entries : List (Int × Int)} (distinct : (entries.map Prod.fst).Nodup)
    (apart : ∀ entry ∈ entries, entry.2 ≠ target) :
    writeScan target newPos (flat entries) = flat (entries.map (writeEntry target newPos)) := by
  induction entries with
  | nil => rfl
  | cons entry entries ih =>
    obtain ⟨key, pos⟩ := entry
    have own : pos ≠ target := apart _ List.mem_cons_self
    obtain ⟨fresh, distinct⟩ := List.nodup_cons.mp distinct
    have later := ih distinct fun entry member => apart entry (List.mem_cons_of_mem _ member)
    by_cases here : key = target
    · subst here
      have rest : entries.map (writeEntry key newPos) = entries := by
        refine (List.map_congr_left fun entry member => ?_).trans (List.map_id entries)
        refine if_neg fun same => fresh ?_
        exact List.mem_map.mpr ⟨entry, member, same⟩
      rw [List.map_cons, rest, writeEntry, if_pos rfl, flat, flat, writeScan,
        List.dropLast_cons_of_ne_nil (List.cons_ne_nil _ _), List.findIdx?_cons, decide_eq_true rfl]
      rfl
    · rw [flat, writeScan_cons _ here, writeScan_cons _ own, later, List.map_cons, writeEntry, if_neg here, flat]

theorem key_mem_flat {entries : List (Int × Int)} {entry : Int × Int} (member : entry ∈ entries) :
    entry.1 ∈ (flat entries).dropLast := by
  induction entries with
  | nil => cases member
  | cons first entries ih =>
    obtain ⟨key, pos⟩ := first
    rw [flat, List.dropLast_cons_of_ne_nil (List.cons_ne_nil _ _)]
    rcases List.mem_cons.mp member with rfl | later
    · exact List.mem_cons_self
    · refine List.mem_cons_of_mem _ ?_
      have inside := ih later
      rw [List.dropLast_cons_of_ne_nil]
      · exact List.mem_cons_of_mem _ inside
      · intro empty
        rw [empty] at inside
        cases inside

theorem updateGeneralFailPos_flat {progIdx : Nat} {syncId newPos : Int} {entries : List (Int × Int)}
    (distinct : (entries.map Prod.fst).Nodup) (apart : ∀ entry ∈ entries, entry.2 ≠ progIdx * 100 + syncId + 1)
    (known : (progIdx * 100 + syncId + 1 : Int) ∈ entries.map Prod.fst) (more : List (List Int)) :
    updateGeneralFailPos (flat entries :: more) progIdx syncId newPos =
      flat (entries.map (writeEntry (progIdx * 100 + syncId + 1) newPos)) :: more := by
  obtain ⟨entry, member, key⟩ := List.mem_map.mp known
  have hit := key_mem_flat member
  rw [key] at hit
  have found : ((flat entries).dropLast.findIdx? fun v => decide (v = (progIdx * 100 + syncId + 1 : Int))).isSome = true := by
    rw [List.findIdx?_isSome]
    exact List.any_eq_true.mpr ⟨_, hit, by simp⟩
  unfold updateGeneralFailPos
  simp only [List.findIdx?_cons, found, if_true]
  rw [← writeScan_flat distinct apart]
  rfl

/-- A position written over the row of a group: the entries of nodes have keys from 101 on, and no
position reaches them. -/
theorem write_row {s e : Int} {entries : List (Int × Int)} (low : s < 101 ∧ e < 101) (distinct : (entries.map Prod.fst).Nodup)
    (high : ∀ entry ∈ entries, 101 ≤ entry.1 ∧ entry.2 < 101) {i : Nat} {syncId newPos : Int} (positive : 0 < i)
    (id : syncId = 0 ∨ syncId = 1) (known : (i * 100 + syncId + 1 : Int) ∈ entries.map Prod.fst) (more : List (List Int)) :
    updateGeneralFailPos (flat ((1, s) :: (2, e) :: entries) :: more) i syncId newPos =
      flat ((1, s) :: (2, e) :: entries.map (writeEntry (i * 100 + syncId + 1) newPos)) :: more := by
  have keys : (((1, s) :: (2, e) :: entries).map Prod.fst).Nodup := by
    have large : ∀ key ∈ entries.map Prod.fst, (101 : Int) ≤ key := by
      intro key member
      obtain ⟨entry, inside, rfl⟩ := List.mem_map.mp member
      exact (high entry inside).1
    simp only [List.map_cons, List.nodup_cons, List.mem_cons, not_or]
    refine ⟨⟨by decide, fun member => ?_⟩, fun member => ?_, distinct⟩
    · have := large _ member
      omega
    · have := large _ member
      omega
  have apart : ∀ entry ∈ (1, s) :: (2, e) :: entries, entry.2 ≠ i * 100 + syncId + 1 := by
    intro entry member
    rcases List.mem_cons.mp member with rfl | member
    · dsimp only
      omega
    · rcases List.mem_cons.mp member with rfl | member
      · dsimp only
        omega
      · have bounds := high entry member
        omega
  have own : ∀ key pos : Int, key < 101 → writeEntry (i * 100 + syncId + 1) newPos (key, pos) = (key, pos) :=
    fun key pos small => if_neg (by dsimp only; omega)
  have inside : (i * 100 + syncId + 1 : Int) ∈ ((1, s) :: (2, e) :: entries).map Prod.fst :=
    List.mem_cons_of_mem _ (List.mem_cons_of_mem _ known)
  rw [updateGeneralFailPos_flat keys apart inside, List.map_cons, List.map_cons, own 1 s (by omega), own 2 e (by omega)]

/-! ### The two syncs of a program -/

/-- The syncs of a program are one of id 0 at `a` and one of id 1 behind it at `b`. -/
structure SyncPair (calls : List CallObj) (a b : Nat) : Prop where
  order : a < b
  first : ∃ o, calls[a]? = some o ∧ isSync o.name = true ∧ extractSyncId o.call = 0
  second : ∃ o, calls[b]? = some o ∧ isSync o.name = true ∧ extractSyncId o.call = 1
  only : ∀ (k : Nat) o, calls[k]? = some o → isSync o.name = true → k = a ∨ k = b

section Pair

variable {calls : List CallObj} {a b : Nat} (pair : SyncPair calls a b)

include pair

theorem SyncPair.bounds : a < calls.length ∧ b < calls.length := by
  obtain ⟨_, first, -⟩ := pair.first
  obtain ⟨_, second, -⟩ := pair.second
  exact ⟨(List.getElem?_eq_some_iff.mp first).1, (List.getElem?_eq_some_iff.mp second).1⟩

theorem SyncPair.insert {i : Nat} (inside : i ≤ calls.length) {o : CallObj} (plain : isSync o.name = false) :
    SyncPair (Edits.insertAt calls i [o]) (Edits.shifted i 1 a) (Edits.shifted i 1 b) := by
  have order := pair.order
  refine ⟨?_, ?_, ?_, ?_⟩
  · unfold Edits.shifted
    split_ifs <;> omega
  · obtain ⟨x, read, rest⟩ := pair.first
    exact ⟨x, (Edits.insertAt_shifted inside [o] a).trans read, rest⟩
  · obtain ⟨x, read, rest⟩ := pair.second
    exact ⟨x, (Edits.insertAt_shifted inside [o] b).trans read, rest⟩
  · intro k x read sync
    rw [Edits.getElem?_insertAt inside] at read
    unfold Edits.shifted
    split at read
    · rename_i before
      rcases pair.only k x read sync with rfl | rfl
      · rw [if_neg (by omega)]
        exact Or.inl rfl
      · rw [if_neg (by omega : ¬ i ≤ k)]
        exact Or.inr rfl
    · split at read
      · rename_i notBefore new
        have single : k - i = 0 := by
          simp only [List.length_singleton] at new
          omega
        rw [single, List.getElem?_cons_zero, Option.some.injEq] at read
        rw [← read, plain] at sync
        cases sync
      · rename_i notBefore notNew
        simp only [List.length_singleton] at notNew read
        rcases pair.only (k - 1) x read sync with same | same
        · left
          rw [← same, if_pos (by omega)]
          omega
        · right
          rw [← same, if_pos (by omega)]
          omega

theorem SyncPair.move {i j : Nat} (fromIn : i < calls.length) (toIn : j < calls.length)
    (order : Edits.moved i j a < Edits.moved i j b) :
    SyncPair (Edits.move calls i j) (Edits.moved i j a) (Edits.moved i j b) := by
  refine ⟨order, ?_, ?_, ?_⟩
  · obtain ⟨x, read, rest⟩ := pair.first
    exact ⟨x, (Edits.move_moved fromIn toIn).trans read, rest⟩
  · obtain ⟨x, read, rest⟩ := pair.second
    exact ⟨x, (Edits.move_moved fromIn toIn).trans read, rest⟩
  · intro k x read sync
    rw [Edits.getElem?_move fromIn toIn] at read
    have back := Edits.moved_moved i j k
    rcases pair.only _ x read sync with same | same
    · exact Or.inl (by rw [← same, back])
    · exact Or.inr (by rw [← same, back])

theorem SyncPair.syncs : ∃ x y, calls.zipIdx.filter (fun entry => isSync entry.1.name) = [(x, a), (y, b)] ∧
    extractSyncId x.call = 0 ∧ extractSyncId y.call = 1 := by
  obtain ⟨x, first, syncX, idX⟩ := pair.first
  obtain ⟨y, second, syncY, idY⟩ := pair.second
  have order := pair.order
  refine ⟨x, y, ?_, idX, idY⟩
  have increasing : (calls.zipIdx.filter fun entry => isSync entry.1.name).Pairwise fun p q => p.2 < q.2 := by
    refine List.Pairwise.filter _ ?_
    rw [← List.pairwise_map, List.zipIdx_map_snd]
    exact List.pairwise_lt_range'
  have listed : [(x, a), (y, b)].Pairwise fun p q : CallObj × Nat => p.2 < q.2 := by simpa using order
  have members : ∀ entry, entry ∈ calls.zipIdx.filter (fun entry => isSync entry.1.name) ↔ entry ∈ [(x, a), (y, b)] := by
    rintro ⟨o, k⟩
    rw [List.mem_filter, List.mem_zipIdx_iff_getElem?]
    simp only [List.mem_cons, Prod.mk.injEq, List.not_mem_nil, or_false]
    constructor
    · rintro ⟨read, sync⟩
      rcases pair.only k o read sync with rfl | rfl
      · exact Or.inl ⟨Option.some.inj (read.symm.trans first), rfl⟩
      · exact Or.inr ⟨Option.some.inj (read.symm.trans second), rfl⟩
    · rintro (⟨rfl, rfl⟩ | ⟨rfl, rfl⟩)
      · exact ⟨first, syncX⟩
      · exact ⟨second, syncY⟩
  have distinct : ∀ {l : List (CallObj × Nat)}, l.Pairwise (fun p q => p.2 < q.2) → l.Nodup := fun sorted =>
    sorted.imp fun less same => by rw [same] at less; exact absurd less (Nat.lt_irrefl _)
  refine List.Perm.eq_of_pairwise (fun p q _ _ less more => ?_) increasing listed ?_
  · exact absurd less (Nat.lt_asymm more)
  · exact (List.perm_ext_iff_of_nodup (distinct increasing) (distinct listed)).mpr members

theorem SyncPair.infos : stashSyncInfos calls = [⟨a, 0⟩, ⟨b, 1⟩] := by
  obtain ⟨x, y, found, idX, idY⟩ := pair.syncs
  have member : ∀ entry ∈ [(x, a), (y, b)], calls[entry.2]? = some entry.1 := by
    intro entry inside
    rw [← found] at inside
    exact List.mem_zipIdx_iff_getElem?.mp (List.mem_filter.mp inside).1
  have first : calls[a]? = some x := member (x, a) (by simp)
  have second : calls[b]? = some y := member (y, b) (by simp)
  rw [stashSyncInfos, indicesWhere, found]
  simp [first, second, idX, idY]

end Pair

/-! ### The table of a group -/

/-- The entries of the nodes other than the writer: every node has its two keys once, and under them
the positions of its syncs. -/
structure SyncEntries (ps : List SeedProg) (entries : List (Int × Int)) : Prop where
  distinct : (entries.map Prod.fst).Nodup
  node : ∀ entry ∈ entries, ∃ i : Nat, 0 < i ∧ i < ps.length ∧ (entry.1 = i * 100 + 1 ∨ entry.1 = i * 100 + 2)
  recorded : ∀ (i : Nat) p, 0 < i → ps[i]? = some p → ∃ a b : Nat, SyncPair p.calls a b ∧
    ((i * 100 + 1 : Int), (a : Int)) ∈ entries ∧ ((i * 100 + 2 : Int), (b : Int)) ∈ entries

/-- The writer has no sync, and its row 0 records the window under 1 and 2 and then the syncs. -/
structure SyncRow (ps : List SeedProg) (p0 : SeedProg) (s e : Int) (entries : List (Int × Int)) (more : List (List Int)) :
    Prop where
  writer : ps[0]? = some p0
  plain : ∀ o ∈ p0.calls, isSync o.name = false
  row : p0.generalFailPos = flat ((1, s) :: (2, e) :: entries) :: more
  entries : SyncEntries ps entries

def SyncsRecorded (ps : List SeedProg) : Prop := ∃ p0 s e entries more, SyncRow ps p0 s e entries more

theorem SyncEntries.value {ps : List SeedProg} {entries : List (Int × Int)} (table : SyncEntries ps entries)
    {entry : Int × Int} (member : entry ∈ entries) {pos : Int} (known : (entry.1, pos) ∈ entries) : entry.2 = pos :=
  congrArg Prod.snd (List.inj_on_of_nodup_map table.distinct member known rfl)

/-- No program but the writer has more than 100 calls. -/
def Short (ps : List SeedProg) : Prop := ∀ (i : Nat) p, 0 < i → ps[i]? = some p → p.calls.length ≤ 100

theorem SyncEntries.bounds {ps : List SeedProg} {entries : List (Int × Int)} (table : SyncEntries ps entries)
    (short : Short ps) {entry : Int × Int} (member : entry ∈ entries) :
    101 ≤ entry.1 ∧ 0 ≤ entry.2 ∧ entry.2 < 100 := by
  obtain ⟨i, positive, inside, key⟩ := table.node entry member
  obtain ⟨a, b, pair, first, second⟩ := table.recorded i ps[i] positive (List.getElem?_eq_getElem inside)
  have len := short i ps[i] positive (List.getElem?_eq_getElem inside)
  have bounds := pair.bounds
  rcases key with key | key
  · have value := table.value member (key ▸ first)
    omega
  · have value := table.value member (key ▸ second)
    omega

theorem SyncEntries.congr {ps ps' : List SeedProg} {entries : List (Int × Int)} (table : SyncEntries ps entries)
    (long : ps'.length = ps.length) (others : ∀ i : Nat, 0 < i → ps'[i]? = ps[i]?) : SyncEntries ps' entries := by
  refine ⟨table.distinct, ?_, ?_⟩
  · rw [long]
    exact table.node
  · intro i p positive here
    rw [others i positive] at here
    exact table.recorded i p positive here

/-- The entries with the positions of one node replaced. -/
def assign (i a b : Nat) (entry : Int × Int) : Int × Int :=
  if entry.1 = i * 100 + 1 then (entry.1, a) else if entry.1 = i * 100 + 2 then (entry.1, b) else entry

theorem assign_fst (i a b : Nat) (entry : Int × Int) : (assign i a b entry).1 = entry.1 := by
  unfold assign
  split_ifs <;> rfl

theorem SyncEntries.replace {ps : List SeedProg} {entries : List (Int × Int)} (table : SyncEntries ps entries) {i a b : Nat}
    {p' : SeedProg} (positive : 0 < i) (inside : i < ps.length) (pair : SyncPair p'.calls a b) :
    SyncEntries (ps.set i p') (entries.map (assign i a b)) := by
  refine ⟨?_, ?_, ?_⟩
  · have keys : Prod.fst ∘ assign i a b = Prod.fst := funext (assign_fst i a b)
    rw [List.map_map, keys]
    exact table.distinct
  · intro entry member
    obtain ⟨old, before, rfl⟩ := List.mem_map.mp member
    rw [assign_fst, List.length_set]
    exact table.node old before
  · intro j q notFirst here
    by_cases same : i = j
    · subst same
      rw [List.getElem?_set_self inside] at here
      obtain ⟨_, _, _, first, second⟩ := table.recorded i ps[i] positive (List.getElem?_eq_getElem inside)
      refine ⟨a, b, Option.some.inj here ▸ pair, List.mem_map.mpr ⟨_, first, ?_⟩, List.mem_map.mpr ⟨_, second, ?_⟩⟩
      · simp [assign]
      · simp [assign]
    · rw [List.getElem?_set_ne same] at here
      obtain ⟨a', b', pair', first, second⟩ := table.recorded j q notFirst here
      refine ⟨a', b', pair', List.mem_map.mpr ⟨_, first, ?_⟩, List.mem_map.mpr ⟨_, second, ?_⟩⟩
      · rw [assign, if_neg (by dsimp only; omega), if_neg (by dsimp only; omega)]
      · rw [assign, if_neg (by dsimp only; omega), if_neg (by dsimp only; omega)]

section Row

variable {ps : List SeedProg} {p0 : SeedProg} {s e : Int} {entries : List (Int × Int)} {more : List (List Int)}
  (table : SyncRow ps p0 s e entries more)

include table

/-- A node gets new calls, and the table the positions of their syncs. -/
theorem SyncRow.replace {i a b : Nat} (positive : 0 < i) (inside : i < ps.length) (p' : SeedProg)
    (pair : SyncPair p'.calls a b) (update : List (List Int) → List (List Int)) (more' : List (List Int))
    (updates : update (flat ((1, s) :: (2, e) :: entries) :: more) = flat ((1, s) :: (2, e) :: entries.map (assign i a b)) :: more') :
    SyncsRecorded ((ps.set i p').modify 0 fun p0 => { p0 with generalFailPos := update p0.generalFailPos }) := by
  have first : (ps.set i p')[0]? = some p0 := by
    rw [List.getElem?_set_ne (by omega)]
    exact table.writer
  refine ⟨{ p0 with generalFailPos := update p0.generalFailPos }, s, e, entries.map (assign i a b), more', ?_, table.plain, ?_, ?_⟩
  · rw [List.getElem?_modify_eq, first]
    rfl
  · rw [table.row, updates]
  · refine (table.entries.replace positive inside pair).congr (by simp) fun j notFirst => ?_
    rw [List.getElem?_modify_ne _ _ (by omega)]

/-- The positions stay where no entry of the node is behind the edit. -/
theorem SyncRow.writer_only {p0' : SeedProg} {s' e' : Int} (plain : ∀ o ∈ p0'.calls, isSync o.name = false)
    (row : p0'.generalFailPos = flat ((1, s') :: (2, e') :: entries) :: more) :
    SyncRow (ps.set 0 p0') p0' s' e' entries more := by
  have inside : 0 < ps.length := (List.getElem?_eq_some_iff.mp table.writer).1
  refine ⟨List.getElem?_set_self inside, plain, row, table.entries.congr (by simp) fun i positive => ?_⟩
  rw [List.getElem?_set_ne (by omega)]

end Row

theorem SyncEntries.known {ps : List SeedProg} {entries : List (Int × Int)} (table : SyncEntries ps entries) {i : Nat}
    (positive : 0 < i) (inside : i < ps.length) {syncId : Int} (id : syncId = 0 ∨ syncId = 1) :
    (i * 100 + syncId + 1 : Int) ∈ entries.map Prod.fst := by
  obtain ⟨a, b, -, first, second⟩ := table.recorded i ps[i] positive (List.getElem?_eq_getElem inside)
  rcases id with rfl | rfl
  · exact List.mem_map.mpr ⟨_, first, by simp⟩
  · exact List.mem_map.mpr ⟨_, second, by simp; omega⟩

theorem SyncEntries.high {ps : List SeedProg} {entries : List (Int × Int)} (table : SyncEntries ps entries)
    (short : Short ps) (entry : Int × Int) (member : entry ∈ entries) : 101 ≤ entry.1 ∧ entry.2 < 101 := by
  have bounds := table.bounds short member
  omega

theorem SyncEntries.write_first {ps : List SeedProg} {entries : List (Int × Int)} (table : SyncEntries ps entries) {i b : Nat}
    (second : ((i * 100 + 2 : Int), (b : Int)) ∈ entries) (a : Nat) :
    entries.map (writeEntry (i * 100 + 0 + 1) a) = entries.map (assign i a b) := by
  refine List.map_congr_left fun entry member => ?_
  unfold writeEntry assign
  by_cases one : entry.1 = i * 100 + 1
  · rw [if_pos (by omega), if_pos one, one, Int.add_zero]
  · rw [if_neg (by omega), if_neg one]
    split
    · rename_i two
      have value : entry.2 = (b : Int) := table.value member (by rw [two]; exact second)
      rw [← value]
    · rfl

theorem SyncEntries.write_second {ps : List SeedProg} {entries : List (Int × Int)} (table : SyncEntries ps entries) {i a : Nat}
    (first : ((i * 100 + 1 : Int), (a : Int)) ∈ entries) (b : Nat) :
    entries.map (writeEntry (i * 100 + 1 + 1) b) = entries.map (assign i a b) := by
  refine List.map_congr_left fun entry member => ?_
  unfold writeEntry assign
  by_cases one : entry.1 = i * 100 + 1
  · have value : entry.2 = (a : Int) := table.value member (by rw [one]; exact first)
    rw [if_neg (by omega), if_pos one, ← value]
  · rw [if_neg one]
    by_cases two : entry.1 = i * 100 + 2
    · rw [if_pos (by omega), if_pos two, two]
      congr 1
    · rw [if_neg (by omega), if_neg two]

/-- The scans over all indices are safe: the ends of the window and the positions of calls are below
the smallest key of a node. -/
structure InRange (ps : List SeedProg) : Prop where
  short : Short ps
  window : ∀ p0 row, ps[0]? = some p0 → p0.generalFailPos[0]? = some row → row.getD 1 0 < 100 ∧ row.getD 3 0 < 100

theorem InRange.low {ps : List SeedProg} (range : InRange ps) {p0 : SeedProg} {s e : Int} {entries : List (Int × Int)}
    {more : List (List Int)} (table : SyncRow ps p0 s e entries more) : s < 100 ∧ e < 100 := by
  have recorded : p0.generalFailPos[0]? = some (flat ((1, s) :: (2, e) :: entries)) := by
    rw [table.row]
    rfl
  exact range.window p0 _ table.writer recorded

/-! ### Moving a sync keeps the table -/

theorem stashSyncMove_spec {p : SeedProg} {a b : Nat} (pair : SyncPair p.calls a b) {which shiftDraw : Draw} {chosen : SyncInfo}
    {newIdx : Nat} (moves : stashSyncMove p which shiftDraw = some (chosen, newIdx)) :
    newIdx < p.calls.length ∧ (chosen = ⟨a, 0⟩ ∧ newIdx < b ∨ chosen = ⟨b, 1⟩ ∧ a < newIdx) := by
  have order := pair.order
  have bounds := pair.bounds
  unfold stashSyncMove at moves
  simp only [pair.infos] at moves
  split at moves
  · cases moves
  · rename_i info found
    split at moves
    · cases moves
    · rename_i inside
      split at moves
      · cases moves
      · rename_i free
        obtain ⟨rfl, rfl⟩ := Prod.mk.inj (Option.some.inj moves)
        simp only [Bool.or_eq_true, decide_eq_true_eq, not_or] at inside
        have member := List.mem_of_getElem? found
        simp only [List.mem_cons, List.not_mem_nil, or_false] at member
        rcases member with rfl | rfl
        · have before : ((a : Int) + shiftOf shiftDraw).toNat < b := by
            simp [pairBlocks] at free
            omega
          exact ⟨by omega, Or.inl ⟨rfl, before⟩⟩
        · have behind : a < ((b : Int) + shiftOf shiftDraw).toNat := by
            simp [pairBlocks] at free
            omega
          refine ⟨?_, Or.inr ⟨rfl, behind⟩⟩
          have := inside.2
          omega

theorem moveSync_table {ps : List SeedProg} (table : SyncsRecorded ps) (range : InRange ps) {i : Nat} (positive : 0 < i) {p : SeedProg}
    (here : ps[i]? = some p) {which shiftDraw : Draw} {chosen : SyncInfo} {newIdx : Nat}
    (moves : stashSyncMove p which shiftDraw = some (chosen, newIdx)) :
    SyncsRecorded (recordFailPos (setCalls ps i (Edits.move p.calls chosen.callIdx newIdx)) i chosen.syncId newIdx) := by
  obtain ⟨p0, s, e, entries, more, row⟩ := table
  obtain ⟨a, b, pair, first, second⟩ := row.entries.recorded i p positive here
  have inside : i < ps.length := (List.getElem?_eq_some_iff.mp here).1
  have low := range.low row
  have order := pair.order
  have bounds := pair.bounds
  obtain ⟨toIn, kind⟩ := stashSyncMove_spec pair moves
  rw [setCalls_eq_set here, recordFailPos]
  rcases kind with ⟨rfl, before⟩ | ⟨rfl, behind⟩
  · have ends : Edits.moved a newIdx a = newIdx ∧ Edits.moved a newIdx b = b := by
      unfold Edits.moved
      split_ifs <;> omega
    have moved := pair.move bounds.1 toIn (by rw [ends.1, ends.2]; exact before)
    rw [ends.1, ends.2] at moved
    refine row.replace positive inside { p with calls := Edits.move p.calls a newIdx } moved
      (fun rows => updateGeneralFailPos rows i 0 newIdx) more ?_
    rw [write_row (by omega) row.entries.distinct (row.entries.high range.short) positive (Or.inl rfl)
      (row.entries.known positive inside (Or.inl rfl)), row.entries.write_first second]
  · have ends : Edits.moved b newIdx a = a ∧ Edits.moved b newIdx b = newIdx := by
      unfold Edits.moved
      split_ifs <;> omega
    have moved := pair.move bounds.2 toIn (by rw [ends.1, ends.2]; exact behind)
    rw [ends.1, ends.2] at moved
    refine row.replace positive inside { p with calls := Edits.move p.calls b newIdx } moved
      (fun rows => updateGeneralFailPos rows i 1 newIdx) more ?_
    rw [write_row (by omega) row.entries.distinct (row.entries.high range.short) positive (Or.inr rfl)
      (row.entries.known positive inside (Or.inr rfl)), row.entries.write_second first]

theorem stashSyncInfos_plain {calls : List CallObj} (plain : ∀ o ∈ calls, isSync o.name = false) : stashSyncInfos calls = [] := by
  have none : calls.zipIdx.filter (fun entry => isSync entry.1.name) = [] := by
    refine List.filter_eq_nil_iff.mpr fun entry member => ?_
    rw [plain entry.1 (List.fst_mem_of_mem_zipIdx member)]
    exact Bool.false_ne_true
  rw [stashSyncInfos, indicesWhere, none]
  rfl

theorem mutateStashSyncPos_table {ps : List SeedProg} (table : SyncsRecorded ps) (range : InRange ps) (draw : Nat → Draw) :
    SyncsRecorded (mutateStashSyncPos ps draw).1 := by
  have loop : ∀ progs : List (SeedProg × Nat), (∀ entry ∈ progs, ps[entry.2]? = some entry.1) →
      SyncsRecorded (stashSyncLoop ps draw progs).1 := by
    intro progs
    induction progs with
    | nil => exact fun _ => table
    | cons entry progs ih =>
      intro ofGroup
      obtain ⟨p, i⟩ := entry
      have here : ps[i]? = some p := ofGroup (p, i) List.mem_cons_self
      have later := ih fun entry member => ofGroup entry (List.mem_cons_of_mem _ member)
      rw [stashSyncLoop]
      split
      · exact later
      · split
        · exact later
        · rename_i chosen newIdx moves
          rcases Nat.eq_zero_or_pos i with rfl | positive
          · -- the writer has no sync to move
            obtain ⟨p0, s, e, entries, more, row⟩ := table
            obtain rfl : p0 = p := Option.some.inj (row.writer.symm.trans here)
            simp [stashSyncMove, stashSyncInfos_plain row.plain] at moves
          · exact moveSync_table table range positive here moves
  exact loop ps.zipIdx fun entry member => List.mem_zipIdx_iff_getElem?.mp member

theorem refreshGeneralFailPos_eq {ps : List SeedProg} {i : Nat} (positive : 0 < i) {p : SeedProg} (here : ps[i]? = some p) {a b : Nat}
    (pair : SyncPair p.calls a b) : refreshGeneralFailPos ps i = recordFailPos (recordFailPos ps i 0 a) i 1 b := by
  obtain ⟨x, y, found, idX, idY⟩ := pair.syncs
  have filtered : p.calls.zipIdx.filter (fun entry => isSync entry.1.name && extractSyncId entry.1.call ≥ 0) = [(x, a), (y, b)] := by
    have both := congrArg (List.filter fun entry : CallObj × Nat => decide (extractSyncId entry.1.call ≥ 0)) found
    rw [List.filter_filter] at both
    refine (List.filter_congr fun entry _ => Bool.and_comm _ _).trans (both.trans ?_)
    simp [idX, idY]
  rw [refreshGeneralFailPos]
  simp only [here, if_neg (Nat.ne_of_gt positive)]
  rw [← List.foldl_filter, filtered]
  simp [idX, idY]

theorem refresh_table {ps : List SeedProg} (table : SyncsRecorded ps) (range : InRange ps) {i : Nat} (positive : 0 < i)
    (inside : i < ps.length) {p' : SeedProg} {a b : Nat} (pair : SyncPair p'.calls a b) (short : p'.calls.length ≤ 100) :
    SyncsRecorded (refreshGeneralFailPos (ps.set i p') i) := by
  obtain ⟨p0, s, e, entries, more, row⟩ := table
  have low := range.low row
  obtain ⟨a₀, b₀, -, first, second⟩ := row.entries.recorded i ps[i] positive (List.getElem?_eq_getElem inside)
  rw [refreshGeneralFailPos_eq positive (List.getElem?_set_self inside) pair, recordFailPos, recordFailPos, List.modify_modify_eq]
  refine row.replace positive inside p' pair
    (fun rows => updateGeneralFailPos (updateGeneralFailPos rows i 0 a) i 1 b) more ?_
  have keys : (entries.map (assign i a b₀)).map Prod.fst = entries.map Prod.fst := by
    rw [List.map_map]
    exact List.map_congr_left fun entry _ => assign_fst i a b₀ entry
  have high : ∀ entry ∈ entries.map (assign i a b₀), 101 ≤ entry.1 ∧ entry.2 < 101 := by
    intro entry member
    obtain ⟨old, before, rfl⟩ := List.mem_map.mp member
    have bounds := row.entries.bounds range.short before
    have position := pair.bounds
    have old₀ := row.entries.bounds range.short second
    unfold assign
    split_ifs <;> omega
  have both : (entries.map (assign i a b₀)).map (writeEntry (i * 100 + 1 + 1) b) = entries.map (assign i a b) := by
    rw [List.map_map]
    refine List.map_congr_left fun entry _ => ?_
    rw [Function.comp_apply, writeEntry, assign_fst]
    by_cases one : entry.1 = i * 100 + 1
    · rw [if_neg (by omega), assign, if_pos one, assign, if_pos one]
    · by_cases two : entry.1 = i * 100 + 2
      · rw [if_pos (by omega), assign, if_neg one, if_pos two, two]
        congr 1
      · rw [if_neg (by omega), assign, if_neg one, if_neg two, assign, if_neg one, if_neg two]
  rw [write_row (by omega) row.entries.distinct (row.entries.high range.short) positive (Or.inl rfl)
      (row.entries.known positive inside (Or.inl rfl)), row.entries.write_first second,
    write_row (by omega) (keys ▸ row.entries.distinct) high positive (Or.inr rfl)
      (keys ▸ row.entries.known positive inside (Or.inr rfl)), both]

end DfsFuzz.Mutation
