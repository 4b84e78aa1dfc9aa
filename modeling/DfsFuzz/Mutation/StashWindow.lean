import DfsFuzz.Mutation.StashSlots

/-!
The failure window of a stash seed along runs of its mutations: the six calls stay together and the
table stays with them, except where a removal or the fallback slot of an insertion forgets them.
-/

namespace DfsFuzz.Mutation

open DfsFuzz.Choice

def windowNames : List String :=
  ["syz_failure_recv", "syz_failure_net_down", "syz_failure_send", "syz_failure_recv", "syz_failure_net_up",
    "syz_failure_send"]

/-- What tells a call from the others: the object and its name. -/
def keyOf (o : CallObj) : Nat × String := (o.ref, o.name)

/-- The calls of the window stand together, the first at `s`. -/
def WindowAt (calls : List CallObj) (s : Nat) (window : List (Nat × String)) : Prop :=
  ∃ front block back, calls = front ++ (block ++ back) ∧ front.length = s ∧ block.map keyOf = window

theorem SameCall.key {o o' : CallObj} (same : SameCall o o') : keyOf o' = keyOf o :=
  Prod.ext same.ref same.name

section Block

variable {calls : List CallObj} {s : Nat} {window : List (Nat × String)} (here : WindowAt calls s window)

include here

theorem WindowAt.inside : s + window.length ≤ calls.length := by
  obtain ⟨front, block, back, rfl, rfl, rfl⟩ := here
  simp only [List.length_append, List.length_map]
  omega

theorem WindowAt.insert_before {i : Nat} (before : i ≤ s) (o : CallObj) :
    WindowAt (Edits.insertAt calls i [o]) (s + 1) window := by
  obtain ⟨front, block, back, rfl, rfl, rfl⟩ := here
  refine ⟨Edits.insertAt front i [o], block, back, Edits.insertAt_append_left before _ _, ?_, rfl⟩
  rw [Edits.length_insertAt before, List.length_singleton]

theorem WindowAt.insert_behind {i : Nat} (behind : s + window.length ≤ i) (o : CallObj) :
    WindowAt (Edits.insertAt calls i [o]) s window := by
  obtain ⟨front, block, back, rfl, rfl, rfl⟩ := here
  rw [List.length_map] at behind
  refine ⟨front, block, Edits.insertAt back (i - front.length - block.length) [o], ?_, rfl, rfl⟩
  rw [Edits.insertAt_append_right (by omega), Edits.insertAt_append_right (by omega)]

theorem WindowAt.map {edit : CallObj → CallObj} (same : ∀ o, SameCall o (edit o)) :
    WindowAt (calls.map edit) s window := by
  obtain ⟨front, block, back, rfl, rfl, rfl⟩ := here
  refine ⟨front.map edit, block.map edit, back.map edit, by simp, by simp, ?_⟩
  rw [List.map_map]
  exact List.map_congr_left fun o _ => (same o).key

theorem WindowAt.remove_behind {i : Nat} (behind : s + window.length ≤ i) (dflt : ResultId → UInt64) :
    WindowAt (removeAt dflt calls i) s window := by
  unfold removeAt
  cases found : calls[i]? with
  | none => exact here
  | some o =>
    refine WindowAt.map ?_ (detachCall_same dflt _)
    obtain ⟨front, block, back, rfl, rfl, rfl⟩ := here
    rw [List.length_map] at behind
    refine ⟨front, block, back.eraseIdx (i - front.length - block.length), ?_, rfl, rfl⟩
    rw [List.eraseIdx_append_of_length_le (by omega), List.eraseIdx_append_of_length_le (by omega)]

end Block

theorem moveFailCalls_window {calls moved : List CallObj} {s s' : Nat} {window : List (Nat × String)}
    (here : WindowAt calls s window) (six : window.length = 6)
    (moves : moveFailCalls calls s s' = some moved) : WindowAt moved s' window := by
  obtain ⟨front, block, back, rfl, rfl, rfl⟩ := here
  rw [List.length_map] at six
  unfold moveFailCalls at moves
  split_ifs at moves with same outside earlier
  all_goals
    simp only [Bool.or_eq_true, decide_eq_true_eq, not_or, not_lt, List.length_append] at same outside
    simp only [Int.toNat_natCast, List.drop_left, List.take_left, ← List.drop_drop, List.take_left' six,
      List.drop_left' six, Option.some.injEq] at moves
    subst moves
  · refine ⟨front.take s', block, front.drop s' ++ back, by simp, ?_, rfl⟩
    rw [List.length_take]
    omega
  · refine ⟨front ++ back.take (s' - front.length), block, back.drop (s' - front.length), ?_, ?_, rfl⟩
    · rw [show ((s' : Int) - front.length).toNat = s' - front.length by omega]
    · rw [List.length_append, List.length_take]
      omega

/-! ### The table -/

/-- A row of the table with the writer's two keys and the ends of the window. -/
structure RowAt (row : List Int) (s : Nat) : Prop where
  startKey : row[0]? = some 1
  start : row[1]? = some (s : Int)
  endKey : row[2]? = some 2
  finish : row[3]? = some ((s : Int) + 5)

variable {row : List Int}

theorem RowAt.long {s : Nat} (at_ : RowAt row s) : 4 ≤ row.length :=
  (List.getElem?_eq_some_iff.mp at_.finish).1

theorem RowAt.getD_start {s : Nat} (at_ : RowAt row s) : row.getD 1 0 = s := by
  rw [List.getD_eq_getElem?_getD, at_.start, Option.getD_some]

theorem RowAt.getD_finish {s : Nat} (at_ : RowAt row s) : row.getD 3 0 = s + 5 := by
  rw [List.getD_eq_getElem?_getD, at_.finish, Option.getD_some]

theorem RowAt.set {s : Nat} (at_ : RowAt row s) (s' : Nat) :
    RowAt ((row.set 1 (s' : Int)).set 3 ((s' : Int) + 5)) s' := by
  have long := at_.long
  refine ⟨?_, ?_, ?_, ?_⟩
  · rw [List.getElem?_set_ne (by decide), List.getElem?_set_ne (by decide), at_.startKey]
  · rw [List.getElem?_set_ne (by decide), List.getElem?_set_self (by omega)]
  · rw [List.getElem?_set_ne (by decide), List.getElem?_set_ne (by decide), at_.endKey]
  · rw [List.getElem?_set_self (by rw [List.length_set]; omega)]

/-- A failure-position move takes the window and its row to the same place. -/
theorem failPosStep_window {calls calls' : List CallObj} {row' : List Int} {s : Nat} {window : List (Nat × String)}
    (here : WindowAt calls s window) (six : window.length = 6) (at_ : RowAt row s) {draw : Draw}
    (moves : failPosStep calls row draw = some (calls', row')) : ∃ s', RowAt row' s' ∧ WindowAt calls' s' window := by
  unfold failPosStep at moves
  simp only [at_.getD_start, at_.getD_finish] at moves
  rw [if_neg (by have := at_.long; omega)] at moves
  split at moves
  · cases moves
  · rename_i placed
    simp only [Bool.or_eq_true, decide_eq_true_eq, not_or, not_le] at placed
    obtain ⟨moved, move, equal⟩ := Option.map_eq_some_iff.mp moves
    obtain ⟨rfl, rfl⟩ := Prod.mk.inj equal
    generalize shiftOf draw = shift at move ⊢
    -- the new start as a position, clamped to 1
    obtain ⟨s', start⟩ : ∃ s' : Nat, (if (s : Int) + shift < 1 then 1 else (s : Int) + shift) = s' := by
      refine ⟨(if (s : Int) + shift < 1 then 1 else (s : Int) + shift).toNat, ?_⟩
      split_ifs <;> omega
    have finish : (if (s : Int) + shift < 1 then 1 + ((s : Int) + 5 - s) else (s : Int) + 5 + shift) = s' + 5 := by
      rw [← start]
      split_ifs <;> omega
    rw [start] at move
    refine ⟨s', ?_, moveFailCalls_window here six move⟩
    rw [start, finish]
    exact at_.set s'

theorem RowAt.bump {s : Nat} (at_ : RowAt row s) : RowAt ((row.modify 1 (· + 1)).modify 3 (· + 1)) (s + 1) := by
  refine ⟨?_, ?_, ?_, ?_⟩
  · simp [at_.startKey]
  · simp [at_.start]
  · simp [at_.endKey]
  · simp [at_.finish]
    omega

/-- A verification read of another node leaves the writer's entries alone unless the start of the
window looks like a key of that node. -/
theorem RowAt.shift {s : Nat} (at_ : RowAt row s) {progIdx : Nat} (other : 0 < progIdx) {shiftPos : Int}
    (keyed : shiftPos ≤ 2 → (s : Int) ≠ progIdx * 100 + 1 ∧ (s : Int) ≠ progIdx * 100 + 2) :
    RowAt (shiftFailPosRow (progIdx * 100 + 1) (progIdx * 100 + 2) shiftPos 1 row) s := by
  unfold shiftFailPosRow
  generalize List.range (row.length - 1) = idxs
  induction idxs generalizing row with
  | nil => exact at_
  | cons i rest ih =>
    rw [List.foldl_cons]
    refine ih ?_
    split
    · rename_i hit
      simp only [Bool.and_eq_true, Bool.or_eq_true, decide_eq_true_eq, ge_iff_le, gt_iff_lt,
        List.getD_eq_getElem?_getD] at hit
      -- entries 0, 1 and 2 are no keys of the other node, the later ones are not the writer's
      match i with
      | 0 =>
        rw [at_.startKey, Option.getD_some] at hit
        omega
      | 1 =>
        rw [at_.start, at_.endKey, Option.getD_some, Option.getD_some] at hit
        have := keyed hit.2
        omega
      | 2 =>
        rw [at_.endKey, Option.getD_some] at hit
        omega
      | i + 3 =>
        refine ⟨?_, ?_, ?_, ?_⟩
        · rw [List.getElem?_set_ne (by omega), at_.startKey]
        · rw [List.getElem?_set_ne (by omega), at_.start]
        · rw [List.getElem?_set_ne (by omega), at_.endKey]
        · rw [List.getElem?_set_ne (by omega), at_.finish]
    · exact at_

/-! ### The group -/

/-- The writer holds the window where its table says, and no other program has a table. -/
structure WindowKept (g : StashGroup) (window : List (Nat × String)) : Prop where
  writer : ∃ p row s, g.progs[0]? = some p ∧ p.generalFailPos = [row] ∧ RowAt row s ∧ WindowAt p.calls s window
  elsewhere : ∀ (i : Nat) p, 0 < i → g.progs[i]? = some p → p.generalFailPos = []
  allocated : Allocated g

theorem Allocated.set {g : StashGroup} (allocated : Allocated g) {n : Nat} (le : g.next ≤ n) {pidx : Nat} {p' : SeedProg}
    (below : ∀ o ∈ p'.calls, ResBelow n o.call) {uses : List (ResultId × ResultId)} :
    Allocated { progs := g.progs.set pidx p', uses, next := n } := by
  intro p member o inside
  rcases List.mem_or_eq_of_mem_set member with old | rfl
  · exact (allocated p old o inside).mono le
  · exact below o inside

/-- One program is replaced: the writer by one that holds the window too, another by one without a
table. -/
theorem WindowKept.set {g : StashGroup} {window : List (Nat × String)} (kept : WindowKept g window) {pidx : Nat}
    {p p' : SeedProg} (here : g.progs[pidx]? = some p) {n : Nat} (le : g.next ≤ n)
    (writer : pidx = 0 → ∃ row s, p'.generalFailPos = [row] ∧ RowAt row s ∧ WindowAt p'.calls s window)
    (other : 0 < pidx → p'.generalFailPos = []) (below : ∀ o ∈ p'.calls, ResBelow n o.call)
    {uses : List (ResultId × ResultId)} : WindowKept { progs := g.progs.set pidx p', uses, next := n } window := by
  have inside : pidx < g.progs.length := (List.getElem?_eq_some_iff.mp here).1
  refine ⟨?_, ?_, kept.allocated.set le below⟩
  · by_cases first : pidx = 0
    · obtain ⟨row, s, table, rowAt, windowAt⟩ := writer first
      subst first
      exact ⟨p', row, s, List.getElem?_set_self inside, table, rowAt, windowAt⟩
    · obtain ⟨p0, row, s, read, spec⟩ := kept.writer
      exact ⟨p0, row, s, by rw [List.getElem?_set_ne first]; exact read, spec⟩
  · intro i q positive there
    by_cases same : pidx = i
    · subst same
      rw [List.getElem?_set_self inside] at there
      rw [← Option.some.inj there]
      exact other positive
    · rw [List.getElem?_set_ne same] at there
      exact kept.elsewhere i q positive there

theorem moveFailCalls_mem {calls moved : List CallObj} {i j : Int} (moves : moveFailCalls calls i j = some moved) :
    ∀ o ∈ moved, o ∈ calls := by
  unfold moveFailCalls at moves
  split_ifs at moves
  all_goals
    rw [Option.some.injEq] at moves
    subst moves
    intro o member
    simp only [List.mem_append] at member
  · rcases member with (front | block) | between | back
    · exact List.mem_of_mem_take (List.mem_of_mem_take front)
    · exact List.mem_of_mem_drop (List.mem_of_mem_take block)
    · exact List.mem_of_mem_take (List.mem_of_mem_drop between)
    · exact List.mem_of_mem_drop back
  · rcases member with (front | between) | block | back
    · exact List.mem_of_mem_take front
    · exact List.mem_of_mem_drop (List.mem_of_mem_take between)
    · exact List.mem_of_mem_drop (List.mem_of_mem_take block)
    · exact List.mem_of_mem_drop (List.mem_of_mem_drop back)

theorem failPosStep_mem {calls calls' : List CallObj} {row' : List Int} {draw : Draw}
    (moves : failPosStep calls row draw = some (calls', row')) : ∀ o ∈ calls', o ∈ calls := by
  unfold failPosStep at moves
  split at moves
  · cases moves
  · dsimp only at moves
    split at moves
    · cases moves
    · obtain ⟨moved, move, equal⟩ := Option.map_eq_some_iff.mp moves
      obtain ⟨rfl, _⟩ := Prod.mk.inj equal
      exact moveFailCalls_mem move

section FailPos

variable {g : StashGroup} {window : List (Nat × String)} (kept : WindowKept g window) (six : window.length = 6)

include kept six

theorem failPosLoop_kept (draw : Nat → Nat → Draw) {entries : List (SeedProg × Nat)}
    (ofGroup : ∀ entry ∈ entries, g.progs[entry.2]? = some entry.1) :
    WindowKept (failPosLoop g draw entries).1 window := by
  induction entries with
  | nil => exact kept
  | cons entry rest ih =>
    obtain ⟨p, pidx⟩ := entry
    have later := ih fun e member => ofGroup e (List.mem_cons_of_mem _ member)
    have here : g.progs[pidx]? = some p := ofGroup (p, pidx) List.mem_cons_self
    unfold failPosLoop
    split
    · exact later
    · rename_i tabled
      simp only [Bool.or_eq_true, decide_eq_true_eq, not_or] at tabled
      -- only the writer has a table, of one row
      obtain rfl : pidx = 0 := by
        by_contra positive
        exact tabled.2 (by rw [kept.elsewhere pidx p (by omega) here]; rfl)
      obtain ⟨p0, row, s, first, table, rowAt, windowAt⟩ := kept.writer
      obtain rfl : p = p0 := Option.some.inj (here.symm.trans first)
      simp only [table, List.zipIdx_singleton, failPosRows]
      cases moves : failPosStep p.calls row (draw 0 0) with
      | none => exact later
      | some result =>
        obtain ⟨calls', row'⟩ := result
        obtain ⟨s', rowAt', windowAt'⟩ := failPosStep_window windowAt six rowAt moves
        refine kept.set here (Nat.le_refl _) (fun _ => ⟨row', s', rfl, rowAt', windowAt'⟩) (fun positive => by cases positive) ?_
        intro o member
        exact kept.allocated p (List.mem_of_getElem? here) o (failPosStep_mem moves o member)

theorem mutateStashFailPos_kept (draw : Nat → Nat → Draw) : WindowKept (mutateStashFailPos g draw).1 window := by
  refine failPosLoop_kept kept six draw ?_
  intro entry member
  exact List.mem_zipIdx_iff_getElem?.mp member

end FailPos

theorem result_of_detach {dflt : ResultId → UInt64} {gone : List ResultId} {arg : Arg} {id r : ResultId} {v : UInt64}
    (detached : detachArg dflt gone arg = .result id (some r) v) : arg = .result id (some r) v := by
  cases arg with
  | result id' res v' =>
    cases res with
    | none => simp [detachArg] at detached
    | some r' =>
      rw [detachArg] at detached
      split at detached
      · cases detached
      · exact detached
  | _ => simp [detachArg] at detached

theorem mem_of_mem_detachArgs {dflt : ResultId → UInt64} {gone : List ResultId} {args : List Arg} {id r : ResultId}
    {v : UInt64} (member : Arg.result id (some r) v ∈ detachArgs dflt gone args) : Arg.result id (some r) v ∈ args := by
  induction args with
  | nil => simp [detachArgs] at member
  | cons arg rest ih =>
    rw [detachArgs] at member
    rcases List.mem_cons.mp member with head | tail
    · rw [result_of_detach head.symm]
      exact List.mem_cons_self
    · exact List.mem_cons_of_mem _ (ih tail)

theorem removeAt_below {n : Nat} {calls : List CallObj} (below : ∀ o ∈ calls, ResBelow n o.call) (dflt : ResultId → UInt64)
    (i : Nat) : ∀ o ∈ removeAt dflt calls i, ResBelow n o.call := by
  unfold removeAt
  split
  · exact below
  · intro o member
    obtain ⟨o', inside, rfl⟩ := List.mem_map.mp member
    intro id r v res
    exact below o' (List.mem_of_mem_eraseIdx inside) id r v (mem_of_mem_detachArgs res)

theorem failWindow_eq {p : SeedProg} {s : Nat} (table : p.generalFailPos = [row]) (rowAt : RowAt row s) :
    failWindow p = ((s : Int), (s : Int) + 5) := by
  have long := rowAt.long
  simp only [failWindow, table, rowAt.getD_start, rowAt.getD_finish]
  rw [if_neg (by omega)]

/-- The call that is removed stands behind the recorded window. -/
def RemoveKeeps (p : SeedProg) (ch : StashChoice) : Prop :=
  3 < p.calls.length → ∀ idx, chosenRemoval p (ch.draw 1) = some idx → (failWindow p).2 < idx

section Removal

variable {g : StashGroup} {window : List (Nat × String)} (kept : WindowKept g window) (six : window.length = 6)

include kept six

theorem removeStashCall_kept {pidx : Nat} {p : SeedProg} (here : g.progs[pidx]? = some p) {ch : StashChoice}
    (behind : RemoveKeeps p ch) : WindowKept (removeStashCall g pidx p ch).1 window := by
  unfold removeStashCall
  split
  · exact kept
  · rename_i long
    cases chosen : chosenRemoval p (ch.draw 1) with
    | none => exact kept
    | some idx =>
      have after := behind (by omega) idx chosen
      simp only [StashGroup.removeCall, setCalls_eq_set here]
      refine kept.set here (Nat.le_refl _) ?_ ?_ ?_
      · rintro rfl
        obtain ⟨p0, row, s, first, table, rowAt, windowAt⟩ := kept.writer
        obtain rfl : p = p0 := Option.some.inj (here.symm.trans first)
        rw [failWindow_eq table rowAt] at after
        exact ⟨row, s, table, rowAt, windowAt.remove_behind (by omega) ch.dflt⟩
      · exact fun positive => kept.elsewhere pidx p positive here
      · exact removeAt_below (kept.allocated p (List.mem_of_getElem? here)) ch.dflt idx

end Removal

/-! ### Insertion -/

theorem not_open_of_window {calls : List CallObj} {s : Nat} {window : List (Nat × String)} (here : WindowAt calls s window)
    (names : window.map Prod.snd = windowNames) {k : Nat} {o : CallObj} (read : calls[k]? = some o)
    (isOpen : Go.contains o.name "open" = true) : k < s ∨ s + 6 ≤ k := by
  by_contra within
  obtain ⟨front, block, back, rfl, rfl, rfl⟩ := here
  have six : block.length = 6 := by simpa [windowNames] using congrArg List.length names
  rw [List.getElem?_append_right (by omega), List.getElem?_append_left (by omega)] at read
  have member : o.name ∈ windowNames := by
    rw [← names, List.map_map]
    exact List.mem_map.mpr ⟨o, List.mem_of_getElem? read, rfl⟩
  have none : ∀ name ∈ windowNames, Go.contains name "open" = false := by decide
  rw [none o.name member] at isOpen
  cases isOpen

/-- The position drawn for a call of the writer, once the fallback slot is not used inside the
window. -/
theorem stashInsertPos_outside {p : SeedProg} {s : Nat} {window : List (Nat × String)} (here : WindowAt p.calls s window)
    (names : window.map Prod.snd = windowNames) (recorded : failWindow p = ((s : Int), (s : Int) + 5)) {range : FdRange}
    (rangeOf : RangeOf p.calls range) (room : range.openIdx + 1 < p.calls.length) {slotDraw posDraw : Draw}
    (outside : ¬ ((range.openIdx : Int) + 1 = (failWindow p).1 ∧ (failWindow p).2 + 1 = p.calls.length ∧
      posDraw.intn (p.calls.length - (range.openIdx + 1)) ≠ 0)) :
    0 ≤ stashInsertPos p range slotDraw posDraw ∧ stashInsertPos p range slotDraw posDraw ≤ p.calls.length ∧
      (stashInsertPos p range slotDraw posDraw ≤ s ∨ (s : Int) + 6 ≤ stashInsertPos p range slotDraw posDraw) := by
  obtain ⟨o, read, isOpen, _⟩ := rangeOf.isOpen
  have place := not_open_of_window here names read isOpen
  have six : window.length = 6 := by simpa [windowNames] using congrArg List.length names
  have fits := here.inside
  rw [six] at fits
  simp only [recorded] at outside
  simp only [stashInsertPos, recorded, rangeOf.toEnd]
  have valid : (range.openIdx : Int) + 1 < p.calls.length := by omega
  have proper : ∀ slot ∈ insertSlots (range.openIdx + 1) p.calls.length s (s + 5), slot.1 < slot.2 :=
    fun slot member => (mem_insertSlots valid member).1
  obtain ⟨slot, member, low, high, value⟩ :=
    insertPosIn_mem (insertSlots_ne_nil _ _ _ _) proper slotDraw posDraw
  obtain ⟨_, from_, to_, which⟩ := mem_insertSlots valid member
  refine ⟨by omega, by omega, ?_⟩
  rcases which with before | behind | ⟨rfl, noRoomBefore, noRoomBehind⟩
  · left
    omega
  · right
    omega
  · -- the fallback slot: the open is behind the window, or right before one that ends the program
    by_cases openBehind : s + 6 ≤ range.openIdx
    · right
      omega
    · left
      have zero : posDraw.intn (p.calls.length - (range.openIdx + 1)) = 0 := by
        by_contra nonzero
        exact outside ⟨by omega, by omega, nonzero⟩
      have width : ((p.calls.length : Int) - ((range.openIdx : Int) + 1)).toNat = p.calls.length - (range.openIdx + 1) := by
        omega
      rw [width, zero] at value
      omega

theorem genStashCall_below {callType : String} {ch : StashChoice} {fd : ResultId} {call : Call}
    (built : genStashCall callType ch fd = some call) (n : Nat) : ResBelow n call := by
  simp only [genStashCall, genPwriteCallWithFd, genPreadCallWithFd, genFsyncCallWithFd, genFdatasyncCallWithFd,
    genSyncCallWithFd, readCall] at built
  split_ifs at built <;> obtain rfl := Option.some.inj built <;> intro id r v member <;>
    simp [fdArg] at member

/-- Where the writer's window starts once the new call is in. -/
def windowStartAfter (p : SeedProg) (inWriter : Bool) (insertPos : Int) : Int :=
  if inWriter && insertPos ≤ (failWindow p).1 then (failWindow p).1 + 1 else (failWindow p).1

/-- The new call does not go into the window from the fallback slot, and its verification read does
not meet a window start that looks like a key of the reader. -/
structure InsertKeeps (g : StashGroup) (pidx : Nat) (p : SeedProg) (ch : StashChoice) (range : FdRange) : Prop where
  outside : ¬ ((range.openIdx : Int) + 1 = (failWindow p).1 ∧ (failWindow p).2 + 1 = p.calls.length ∧
    (ch.draw 4).intn (p.calls.length - (range.openIdx + 1)) ≠ 0)
  keyed : chosenType (ch.draw 2) = "pwrite64" → ∀ p0 reader ridx, g.progs[0]? = some p0 →
    chosenReader g.progs pidx (ch.draw 5) = some (reader, ridx) → verificationIdx reader.calls ≤ 2 →
      windowStartAfter p0 (pidx = 0) (stashInsertPos p range (ch.draw 3) (ch.draw 4)) ≠ ridx * 100 + 1 ∧
      windowStartAfter p0 (pidx = 0) (stashInsertPos p range (ch.draw 3) (ch.draw 4)) ≠ ridx * 100 + 2

theorem withCallAt_calls (p : SeedProg) (insertPos : Int) (o : CallObj) :
    (withCallAt p insertPos o).calls = Edits.insertAt p.calls insertPos.toNat [o] := by
  unfold withCallAt
  dsimp only
  split <;> rfl

theorem withCallAt_table {p : SeedProg} (table : p.generalFailPos = []) (insertPos : Int) (o : CallObj) :
    (withCallAt p insertPos o).generalFailPos = [] := by
  unfold withCallAt
  dsimp only
  split
  · simp [bumpWindow, table]
  · exact table

/-- A call that goes before or behind the window keeps the writer's record. -/
theorem withCallAt_writer {p : SeedProg} {s : Nat} {window : List (Nat × String)} (table : p.generalFailPos = [row])
    (rowAt : RowAt row s) (windowAt : WindowAt p.calls s window) (names : window.map Prod.snd = windowNames)
    {insertPos : Int} {o : CallObj}
    (outside : 0 ≤ insertPos ∧ insertPos ≤ p.calls.length ∧ (insertPos ≤ s ∨ (s : Int) + 6 ≤ insertPos)) :
    ∃ row' s', (withCallAt p insertPos o).generalFailPos = [row'] ∧ RowAt row' s' ∧
      (s' : Int) = windowStartAfter p true insertPos ∧ WindowAt (withCallAt p insertPos o).calls s' window := by
  have six : window.length = 6 := by simpa [windowNames] using congrArg List.length names
  obtain ⟨low, high, which⟩ := outside
  rw [withCallAt_calls]
  unfold withCallAt windowStartAfter
  simp only [failWindow_eq table rowAt, Bool.true_and, Bool.and_eq_true, decide_eq_true_eq]
  by_cases before : insertPos ≤ (s : Int)
  · refine ⟨_, s + 1, ?_, rowAt.bump, ?_, windowAt.insert_before (by omega) o⟩
    · rw [if_pos ⟨by omega, before⟩]
      simp [bumpWindow, table]
    · rw [if_pos before]
      rfl
  · refine ⟨row, s, ?_, rowAt, ?_, windowAt.insert_behind (by omega) o⟩
    · rw [if_neg fun both => before both.2]
      exact table
    · rw [if_neg before]

theorem readersOf_set (ps : List SeedProg) (writer : Nat) (p' : SeedProg) :
    readersOf (ps.set writer p') writer = readersOf ps writer := by
  have entries : ∀ (qs : List SeedProg) (n w : Nat),
      ((qs.set w p').zipIdx n).filter (fun q => q.2 ≠ n + w && q.1.isStash && q.1.calls.any fun o => isRead o.name) =
        (qs.zipIdx n).filter (fun q => q.2 ≠ n + w && q.1.isStash && q.1.calls.any fun o => isRead o.name) := by
    intro qs
    induction qs with
    | nil => simp
    | cons q qs ih =>
      intro n w
      cases w with
      | zero => simp [List.zipIdx_cons]
      | succ w =>
        have later := ih (n + 1) w
        rw [show n + 1 + w = n + (w + 1) by omega] at later
        rw [List.set_cons_succ, List.zipIdx_cons, List.zipIdx_cons, List.filter_cons, List.filter_cons, later]
  simpa [readersOf] using entries ps 0 writer

theorem chosenReader_spec {ps : List SeedProg} {writer : Nat} {draw : Draw} {reader : SeedProg} {ridx : Nat}
    (chosen : chosenReader ps writer draw = some (reader, ridx)) :
    ps[ridx]? = some reader ∧ ridx ≠ writer ∧ reader.isStash = true := by
  obtain ⟨entry, passes⟩ := List.mem_filter.mp (List.mem_of_getElem? chosen)
  simp only [Bool.and_eq_true, decide_eq_true_eq] at passes
  exact ⟨List.mem_zipIdx_iff_getElem?.mp entry, passes.1.1, passes.1.2⟩

section Insertion

variable {g : StashGroup} {window : List (Nat × String)} (kept : WindowKept g window)

include kept

/-- The verification read goes into another program and shifts only that node's entries. -/
theorem addStashReadVerification_kept {writer : Nat} {ch : StashChoice} {offset length : UInt64}
    (positive : ∀ reader ridx, chosenReader g.progs writer (ch.draw 5) = some (reader, ridx) → 0 < ridx)
    (keyed : ∀ p row s reader ridx, g.progs[0]? = some p → p.generalFailPos = [row] → RowAt row s →
      chosenReader g.progs writer (ch.draw 5) = some (reader, ridx) → verificationIdx reader.calls ≤ 2 →
        (s : Int) ≠ ridx * 100 + 1 ∧ (s : Int) ≠ ridx * 100 + 2) :
    WindowKept (addStashReadVerification g writer ch offset length) window := by
  unfold addStashReadVerification
  split
  · rename_i reader ridx writerProg chosen _
    split
    · exact kept
    · rename_i call built
      obtain ⟨there, _, _⟩ := chosenReader_spec chosen
      have other := positive reader ridx chosen
      have below : ∀ o ∈ Edits.insertAt reader.calls (verificationIdx reader.calls) [⟨g.next, call⟩],
          ResBelow (g.next + 1) o.call := by
        intro o member
        rcases Edits.mem_insertAt member with old | new
        · exact (kept.allocated reader (List.mem_of_getElem? there) o old).mono (Nat.le_succ _)
        · obtain ⟨fd, _, gen⟩ := Option.bind_eq_some_iff.mp built
          rw [List.mem_singleton.mp new]
          unfold genPreadCallWithFdAt at gen
          split at gen
          · obtain rfl := Option.some.inj gen
            intro id r v inside
            simp [readCall, fdArg] at inside
          · cases gen
      dsimp only
      generalize Edits.insertAt reader.calls (verificationIdx reader.calls) [⟨g.next, call⟩] = calls' at below ⊢
      have inserted : WindowKept { g with progs := setCalls g.progs ridx calls', next := g.next + 1 } window := by
        rw [setCalls_eq_set there]
        refine kept.set there (Nat.le_succ _) (fun first => absurd first (by omega)) ?_ below
        exact fun _ => kept.elsewhere ridx reader other there
      obtain ⟨p, row, s, first, table, rowAt, windowAt⟩ := kept.writer
      have first' : (setCalls g.progs ridx calls')[0]? = some p := by
        rw [setCalls_eq_set there, List.getElem?_set_ne (by omega), first]
      simp only [shiftGeneralFailPos]
      rw [Edits.modify_eq_set first']
      refine inserted.set first' (Nat.le_refl _) (fun _ => ?_) (fun impossible => by cases impossible) ?_
      · refine ⟨_, s, by rw [table]; rfl, ?_, windowAt⟩
        exact rowAt.shift other fun early => keyed p row s reader ridx first table rowAt chosen (by omega)
      · exact inserted.allocated p (List.mem_of_getElem? first')
  · exact kept

section Placed

variable {pidx : Nat} {p : SeedProg} (here : g.progs[pidx]? = some p) {ch : StashChoice} {range : FdRange} {newCall : Call}

/-- The group with the new call in its place. -/
def placed (g : StashGroup) (pidx : Nat) (p : SeedProg) (ch : StashChoice) (range : FdRange) (newCall : Call) : StashGroup :=
  { g with
    progs := g.progs.set pidx (withCallAt p (stashInsertPos p range (ch.draw 3) (ch.draw 4)) ⟨g.next, newCall⟩)
    next := g.next + 1 }

include here

section Window

variable (names : window.map Prod.snd = windowNames) (rangeOf : RangeOf p.calls range)
  (fits : range.openIdx + 1 < p.calls.length) (keeps : InsertKeeps g pidx p ch range)
include names rangeOf fits keeps

theorem placed_writer (newCall : Call) (isWriter : pidx = 0) : ∃ row s,
    (withCallAt p (stashInsertPos p range (ch.draw 3) (ch.draw 4)) ⟨g.next, newCall⟩).generalFailPos = [row] ∧
    RowAt row s ∧ (s : Int) = windowStartAfter p true (stashInsertPos p range (ch.draw 3) (ch.draw 4)) ∧
    WindowAt (withCallAt p (stashInsertPos p range (ch.draw 3) (ch.draw 4)) ⟨g.next, newCall⟩).calls s window := by
  subst isWriter
  obtain ⟨p0, row, s, read, table, rowAt, windowAt⟩ := kept.writer
  obtain rfl : p = p0 := Option.some.inj (here.symm.trans read)
  exact withCallAt_writer table rowAt windowAt names
    (stashInsertPos_outside windowAt names (failWindow_eq table rowAt) rangeOf fits keeps.outside)

theorem placed_kept (plain : ∀ n, ResBelow n newCall) : WindowKept (placed g pidx p ch range newCall) window := by
  refine kept.set here (Nat.le_succ _) ?_ ?_ ?_
  · intro isWriter
    obtain ⟨row, s, table, rowAt, _, windowAt⟩ := placed_writer kept here names rangeOf fits keeps newCall isWriter
    exact ⟨row, s, table, rowAt, windowAt⟩
  · exact fun positive => withCallAt_table (kept.elsewhere pidx p positive here) _ _
  · intro o member
    rw [withCallAt_calls] at member
    rcases Edits.mem_insertAt member with old | new
    · exact (kept.allocated p (List.mem_of_getElem? here) o old).mono (Nat.le_succ _)
    · rw [List.mem_singleton.mp new]
      exact plain _

/-- The shift for the reader does not take its keys for the start of the window. -/
theorem placed_apart (writes : chosenType (ch.draw 2) = "pwrite64") {p1 reader : SeedProg} {row1 : List Int} {s1 ridx : Nat}
    (read1 : (placed g pidx p ch range newCall).progs[0]? = some p1) (table1 : p1.generalFailPos = [row1])
    (rowAt1 : RowAt row1 s1) (chosen : chosenReader g.progs pidx (ch.draw 5) = some (reader, ridx))
    (early : verificationIdx reader.calls ≤ 2) : (s1 : Int) ≠ ridx * 100 + 1 ∧ (s1 : Int) ≠ ridx * 100 + 2 := by
  unfold placed at read1
  by_cases isWriter : pidx = 0
  · obtain ⟨row, s, table, rowAt, start, _⟩ := placed_writer kept here names rangeOf fits keeps newCall isWriter
    subst isWriter
    rw [List.getElem?_set_self (List.getElem?_eq_some_iff.mp here).1] at read1
    obtain rfl := Option.some.inj read1
    obtain rfl : row = row1 := by simpa using table.symm.trans table1
    have same : (s : Int) = s1 := Option.some.inj (rowAt.start.symm.trans rowAt1.start)
    have apart := keeps.keyed writes p reader ridx here chosen early
    simp only [decide_true, ← start, same] at apart
    exact apart
  · rw [List.getElem?_set_ne isWriter] at read1
    have apart := keeps.keyed writes p1 reader ridx read1 chosen early
    simp only [isWriter, decide_false, windowStartAfter, Bool.false_and, Bool.false_eq_true, if_false,
      failWindow_eq table1 rowAt1] at apart
    exact apart

end Window

theorem placeStashCall_kept (names : window.map Prod.snd = windowNames)
    (first : ∀ j q, j < pidx → g.progs[j]? = some q → q.isStash = false) (rangeOf : RangeOf p.calls range)
    (plain : ∀ n, ResBelow n newCall) (keeps : range.openIdx + 1 < p.calls.length → InsertKeeps g pidx p ch range) :
    WindowKept (placeStashCall g pidx p ch range (chosenType (ch.draw 2)) newCall).1 window := by
  unfold placeStashCall
  dsimp only
  rw [rangeOf.toEnd]
  split
  · exact kept
  · rename_i room
    have fits : range.openIdx + 1 < p.calls.length := by omega
    have inserted := placed_kept kept here names rangeOf fits (keeps fits) plain
    split_ifs with writes
    · split
      · refine addStashReadVerification_kept inserted ?_ ?_
        · intro reader ridx chosen
          simp only [placed, chosenReader, readersOf_set] at chosen
          obtain ⟨there, other, stash⟩ := chosenReader_spec chosen
          by_contra zero
          have before := first ridx reader (by omega) there
          rw [stash] at before
          cases before
        · intro p1 row1 s1 reader ridx read1 table1 rowAt1 chosen early
          simp only [placed, chosenReader, readersOf_set] at chosen
          exact placed_apart kept here names rangeOf fits (keeps fits) writes read1 table1 rowAt1 chosen early
      · exact inserted
    · exact inserted

end Placed

end Insertion

theorem insertStashCall_kept {g : StashGroup} {window : List (Nat × String)} (kept : WindowKept g window)
    (names : window.map Prod.snd = windowNames) {pidx : Nat} {p : SeedProg} (here : g.progs[pidx]? = some p)
    (first : ∀ j q, j < pidx → g.progs[j]? = some q → q.isStash = false) {ch : StashChoice}
    (keeps : ∀ range, chosenRange g p (ch.draw 1) = some range →
      (genStashCall (chosenType (ch.draw 2)) ch range.fd).isSome → range.openIdx + 1 < p.calls.length →
        InsertKeeps g pidx p ch range) : WindowKept (insertStashCall g pidx p ch).1 window := by
  have below := kept.allocated p (List.mem_of_getElem? here)
  have spec := fdRangesFrom_spec below (openIndices p.calls)
  have probed : WindowKept (fdRangesFrom p.calls g (openIndices p.calls)).2 window := by
    refine ⟨?_, ?_, ?_⟩
    · rw [spec.progs]
      exact kept.writer
    · rw [spec.progs]
      exact kept.elsewhere
    · intro q member o inside
      rw [spec.progs] at member
      exact (kept.allocated q member o inside).mono spec.next
  unfold insertStashCall
  split
  · exact kept
  · dsimp only
    cases chosen : chosenRange g p (ch.draw 1) with
    | none => exact probed
    | some range =>
      cases built : genStashCall (chosenType (ch.draw 2)) ch range.fd with
      | none =>
        simp only [built]
        exact probed
      | some newCall =>
        simp only [built]
        refine placeStashCall_kept probed (by rw [spec.progs]; exact here) names ?_ (chosenRange_spec below chosen)
          (genStashCall_below built) ?_
        · rw [spec.progs]
          exact first
        · intro fits
          obtain ⟨outside, keyed⟩ := keeps range chosen (by rw [built]; rfl) fits
          exact ⟨outside, by rw [spec.progs]; exact keyed⟩

/-! ### Runs -/

inductive StashStep where
  | failPos (draw : Nat → Nat → Draw)
  | opSequence (ch : StashChoice)

def stashStep (g : StashGroup) : StashStep → StashGroup
  | .failPos draw => (mutateStashFailPos g draw).1
  | .opSequence ch => (mutateStashOpSequence g ch).1

def StepKeeps (g : StashGroup) : StashStep → Prop
  | .failPos _ => True
  | .opSequence ch => ∀ pidx p, g.progs.findIdx? SeedProg.isStash = some pidx → g.progs[pidx]? = some p →
      if (ch.draw 0).intn 2 = 0 then
        ∀ range, chosenRange g p (ch.draw 1) = some range →
          (genStashCall (chosenType (ch.draw 2)) ch range.fd).isSome → range.openIdx + 1 < p.calls.length →
            InsertKeeps g pidx p ch range
      else RemoveKeeps p ch

theorem stashStep_kept {g : StashGroup} {window : List (Nat × String)} (kept : WindowKept g window)
    (names : window.map Prod.snd = windowNames) {step : StashStep} (keeps : StepKeeps g step) :
    WindowKept (stashStep g step) window := by
  have six : window.length = 6 := by simpa [windowNames] using congrArg List.length names
  cases step with
  | failPos draw => exact mutateStashFailPos_kept kept six draw
  | opSequence ch =>
    unfold stashStep
    dsimp only
    unfold mutateStashOpSequence
    cases found : g.progs.findIdx? SeedProg.isStash with
    | none => exact kept
    | some pidx =>
      cases here : g.progs[pidx]? with
      | none =>
        simp only [here]
        exact kept
      | some p =>
        simp only [here]
        have keeps := keeps pidx p found here
        split_ifs at keeps ⊢ with inserts
        · refine insertStashCall_kept kept names here ?_ keeps
          intro j q before read
          obtain ⟨_, _, earlier⟩ := List.findIdx?_eq_some_iff_getElem.mp found
          have no := earlier j before
          rw [← Option.some.inj ((List.getElem?_eq_getElem _).symm.trans read)]
          simpa using no
        · exact removeStashCall_kept kept six here keeps

def runStash (g : StashGroup) (steps : List StashStep) : StashGroup := steps.foldl stashStep g

def AllStepsKeep (g : StashGroup) : List StashStep → Prop
  | [] => True
  | step :: rest => StepKeeps g step ∧ AllStepsKeep (stashStep g step) rest

/-- In every run whose steps avoid the window, the six calls stay together and recorded in every
state. -/
theorem window_run {g : StashGroup} {window : List (Nat × String)} (kept : WindowKept g window)
    (names : window.map Prod.snd = windowNames) {steps : List StashStep} (keep : AllStepsKeep g steps) (n : Nat) :
    WindowKept (runStash g (steps.take n)) window := by
  induction steps generalizing g n with
  | nil => simpa [runStash] using kept
  | cons step rest ih =>
    cases n with
    | zero => simpa [runStash] using kept
    | succ n => exact ih (stashStep_kept kept names keep.1) keep.2 n

/-- A writer: an open, `before` writes, the window, `behind` writes and, if `closed`, a close. -/
def sampleWriter (before behind : Nat) (closed : Bool) : StashGroup :=
  let names := List.replicate before "pwrite64" ++ windowNames ++ List.replicate behind "pwrite64" ++
    if closed then ["close"] else []
  let calls : List CallObj := ⟨0, { name := "open", ret := some 0 }⟩ :: names.mapIdx fun i name => ⟨i + 1, { name }⟩
  { progs := [{ calls, hasNetFail := true, isStash := true,
                generalFailPos := [[1, before + 1, 2, before + 6]] }]
    next := 100 }

def sampleWindow (before : Nat) : List (Nat × String) := windowNames.mapIdx fun i name => (before + 1 + i, name)

theorem WindowAt.read {calls : List CallObj} {s : Nat} {window : List (Nat × String)} (here : WindowAt calls s window) :
    ((calls.drop s).take window.length).map keyOf = window := by
  obtain ⟨front, block, back, rfl, rfl, rfl⟩ := here
  rw [List.drop_left, List.length_map, List.take_left]

theorem windowAt_of_read {calls : List CallObj} {s : Nat} {window : List (Nat × String)} (inside : s ≤ calls.length)
    (read : ((calls.drop s).take window.length).map keyOf = window) : WindowAt calls s window :=
  ⟨calls.take s, (calls.drop s).take window.length, (calls.drop s).drop window.length, by simp, by simpa using inside, read⟩

/-- A check that decides whether the first program holds the window where its table says. -/
def recordsWindow (g : StashGroup) (window : List (Nat × String)) : Bool :=
  match g.progs with
  | p :: _ => match p.generalFailPos with
    | [_, start, _, _] :: _ => ((p.calls.drop start.toNat).take window.length).map keyOf = window
    | _ => false
  | _ => false

theorem sampleWriter_kept {before behind : Nat} {closed : Bool}
    (read : recordsWindow (sampleWriter before behind closed) (sampleWindow before) = true) :
    WindowKept (sampleWriter before behind closed) (sampleWindow before) := by
  refine ⟨⟨_, _, before + 1, rfl, rfl, ⟨rfl, rfl, rfl, ?_⟩, ?_⟩, ?_, ?_⟩
  · simp
    omega
  · refine windowAt_of_read (by simp) ?_
    simpa [recordsWindow, sampleWriter] using read
  · intro i p positive there
    rw [sampleWriter, List.getElem?_singleton, if_neg (by omega)] at there
    cases there
  · intro p member o inside id r v res
    simp only [sampleWriter, List.mem_singleton] at member
    subst member
    rcases List.mem_cons.mp inside with rfl | named
    · cases res
    · obtain ⟨i, _, rfl⟩ := List.mem_mapIdx.mp named
      cases res

/-- A failure move to the right, then an fsync behind the window. -/
def sampleSteps : List StashStep :=
  [.failPos fun _ _ => (stashChoice [1]).draw 0, .opSequence (stashChoice [0, 0, 2, 1, 0])]

theorem sampleSteps_keep : AllStepsKeep (sampleWriter 0 2 true) sampleSteps := by
  refine ⟨trivial, ?_, trivial⟩
  intro pidx p found here
  obtain rfl : 0 = pidx := Option.some.inj ((by decide : _ = some 0).symm.trans found)
  obtain rfl := Option.some.inj here
  rw [if_pos (by decide)]
  intro range _ _ _
  refine ⟨?_, ?_⟩
  · rintro ⟨_, last, _⟩
    exact absurd last (by decide)
  · intro written
    exact absurd written (by decide)

theorem window_run_sample :
    (WindowKept (sampleWriter 0 2 true) (sampleWindow 0) ∧ (sampleWindow 0).map Prod.snd = windowNames ∧
      AllStepsKeep (sampleWriter 0 2 true) sampleSteps) ∧
    WindowKept (runStash (sampleWriter 0 2 true) (sampleSteps.take 2)) (sampleWindow 0) := by
  have kept : WindowKept (sampleWriter 0 2 true) (sampleWindow 0) := sampleWriter_kept (by decide)
  have names : (sampleWindow 0).map Prod.snd = windowNames := by decide
  exact ⟨⟨kept, names, sampleSteps_keep⟩, window_run kept names sampleSteps_keep 2⟩

theorem WindowKept.recorded {g : StashGroup} {window : List (Nat × String)} (kept : WindowKept g window)
    {p : SeedProg} (first : g.progs[0]? = some p) (table : p.generalFailPos[0]? = some row) :
    ((p.calls.drop (row.getD 1 0).toNat).take window.length).map keyOf = window := by
  obtain ⟨p', row', s, first', table', at_, block⟩ := kept.writer
  obtain rfl := Option.some.inj (first'.symm.trans first)
  rw [table'] at table
  obtain rfl : row' = row := Option.some.inj table
  rw [at_.getD_start, Int.toNat_natCast]
  exact block.read

/-- Removing a write before the window leaves the table one position off, and the fallback slot of
an insertion splits the window. -/
theorem window_lost :
    (WindowKept (sampleWriter 1 0 true) (sampleWindow 1) ∧
      ¬ WindowKept (runStash (sampleWriter 1 0 true) [.opSequence (stashChoice [1, 0])]) (sampleWindow 1)) ∧
    WindowKept (sampleWriter 0 0 false) (sampleWindow 0) ∧
      ¬ WindowKept (runStash (sampleWriter 0 0 false) [.opSequence (stashChoice [0, 0, 2, 0, 1])]) (sampleWindow 0) := by
  refine ⟨⟨sampleWriter_kept (by decide), ?_⟩, sampleWriter_kept (by decide), ?_⟩
  · intro kept
    exact absurd (kept.recorded rfl rfl) (by decide)
  · intro kept
    exact absurd (kept.recorded rfl rfl) (by decide)

end DfsFuzz.Mutation
