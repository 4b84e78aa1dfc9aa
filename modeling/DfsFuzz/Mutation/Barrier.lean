import DfsFuzz.Mutation.Dcache

/-!
The barrier table along runs of dcache mutations. Every mutation keeps it except the insertion of a
single call, which does so exactly when the call goes behind the barrier.
-/

namespace DfsFuzz.Mutation

open DfsFuzz.Choice

/-! ### One program -/

/-- The only barrier of the program stands at `b`. -/
structure BarrierAt (calls : List CallObj) (b : Nat) : Prop where
  here : ∃ o, calls[b]? = some o ∧ o.name = barrierName
  only : ∀ (k : Nat) o, calls[k]? = some o → isBarrier o.name = true → k = b

variable {calls : List CallObj} {b : Nat}

theorem BarrierAt.unique {b' : Nat} (one : BarrierAt calls b) (two : BarrierAt calls b') : b = b' := by
  obtain ⟨o, read, barrier⟩ := one.here
  exact two.only b o read (by rw [barrier]; decide)

theorem BarrierAt.inside (found : BarrierAt calls b) : b < calls.length := by
  obtain ⟨o, read, _⟩ := found.here
  exact (List.getElem?_eq_some_iff.mp read).1

theorem BarrierAt.insert {block : List CallObj} {i : Nat} (found : BarrierAt calls b) (inside : i ≤ calls.length)
    (plain : ∀ o ∈ block, isBarrier o.name = false) :
    BarrierAt (Edits.insertAt calls i block) (Edits.shifted i block.length b) := by
  obtain ⟨o, read, barrier⟩ := found.here
  refine ⟨⟨o, (Edits.insertAt_shifted inside block b).trans read, barrier⟩, ?_⟩
  intro k o' read' barrier'
  rw [Edits.getElem?_insertAt inside] at read'
  unfold Edits.shifted
  split at read'
  · have old := found.only k o' read' barrier'
    rw [if_neg (by omega)]
    exact old
  · split at read'
    · have new := plain o' (List.mem_of_getElem? read')
      rw [new] at barrier'
      cases barrier'
    · have old := found.only _ o' read' barrier'
      rw [if_pos (by omega)]
      omega

theorem BarrierAt.remove {i : Nat} (found : BarrierAt calls b) (inside : i < calls.length) (other : b ≠ i)
    (dflt : ResultId → UInt64) : BarrierAt (removeAt dflt calls i) (Edits.closed i b) := by
  obtain ⟨edit, same, reads⟩ := @getElem?_removeAt dflt _ _ inside
  obtain ⟨o, read, barrier⟩ := found.here
  refine ⟨⟨edit o, ?_, ?_⟩, ?_⟩
  · rw [reads, Edits.eraseIdx_closed calls other, read, Option.map_some]
  · rw [CallObj.name, (same o).name]
    exact barrier
  · intro k o' read' barrier'
    rw [reads] at read'
    obtain ⟨o'', before, rfl⟩ := Option.map_eq_some_iff.mp read'
    rw [CallObj.name, (same o'').name] at barrier'
    rw [List.getElem?_eraseIdx] at before
    unfold Edits.closed
    split at before
    · have old := found.only k o'' before barrier'
      rw [if_neg (by omega)]
      exact old
    · have old := found.only (k + 1) o'' before barrier'
      rw [if_pos (by omega)]
      omega

theorem BarrierAt.swap {i j : Nat} (found : BarrierAt calls b)
    (plain : ∀ k ∈ [i, j], ∀ o, calls[k]? = some o → isBarrier o.name = false) : BarrierAt (swapAt calls i j) b := by
  unfold swapAt
  split
  · rename_i a c readI readJ
    have plainI := plain i (by simp) a readI
    have plainJ := plain j (by simp) c readJ
    have insideI : i < calls.length := (List.getElem?_eq_some_iff.mp readI).1
    have insideJ : j < calls.length := (List.getElem?_eq_some_iff.mp readJ).1
    obtain ⟨o, read, barrier⟩ := found.here
    have apartI : i ≠ b := by
      rintro rfl
      rw [Option.some.inj (readI.symm.trans read), barrier] at plainI
      exact absurd plainI (by decide)
    have apartJ : j ≠ b := by
      rintro rfl
      rw [Option.some.inj (readJ.symm.trans read), barrier] at plainJ
      exact absurd plainJ (by decide)
    refine ⟨⟨o, ?_, barrier⟩, ?_⟩
    · rw [List.getElem?_set_ne apartJ, List.getElem?_set_ne apartI, read]
    · intro k o' read' barrier'
      by_cases atJ : j = k
      · rw [← atJ, List.getElem?_set_self (by simpa using insideJ)] at read'
        rw [← Option.some.inj read', plainI] at barrier'
        cases barrier'
      · rw [List.getElem?_set_ne atJ] at read'
        by_cases atI : i = k
        · rw [← atI, List.getElem?_set_self insideI] at read'
          rw [← Option.some.inj read', plainJ] at barrier'
          cases barrier'
        · rw [List.getElem?_set_ne atI] at read'
          exact found.only k o' read' barrier'
  · exact found

theorem BarrierAt.move {j : Nat} (found : BarrierAt calls b) (toIn : j < calls.length) :
    BarrierAt (Edits.move calls b j) j := by
  obtain ⟨o, read, barrier⟩ := found.here
  have arrives : (Edits.move calls b j)[Edits.moved b j b]? = calls[b]? := Edits.move_moved found.inside toIn
  rw [Edits.moved, if_pos rfl] at arrives
  refine ⟨⟨o, arrives.trans read, barrier⟩, ?_⟩
  intro k o' read' barrier'
  rw [Edits.getElem?_move found.inside toIn] at read'
  have old := found.only _ o' read' barrier'
  rw [← Edits.moved_moved b j k, old, Edits.moved, if_pos rfl]

/-! ### The group -/

/-- The table records the barrier of every program. -/
def BarrierTable (ps : List SeedProg) : Prop :=
  ∀ (i : Nat) p, ps[i]? = some p → ∃ b : Nat, (barrierRow ps)[i]? = some (b : Int) ∧ BarrierAt p.calls b

def callsAt (ps : List SeedProg) (i : Nat) : Option (List CallObj) := ps[i]?.map SeedProg.calls

theorem barrierTable_iff {ps : List SeedProg} :
    BarrierTable ps ↔ ∀ i calls, callsAt ps i = some calls →
      ∃ b : Nat, (barrierRow ps)[i]? = some (b : Int) ∧ BarrierAt calls b := by
  constructor
  · intro table i calls read
    obtain ⟨p, found, rfl⟩ := Option.map_eq_some_iff.mp read
    exact table i p found
  · intro table i p found
    exact table i p.calls (by rw [callsAt, found, Option.map_some])

theorem callsAt_setCalls (ps : List SeedProg) (pidx : Nat) (calls : List CallObj) (i : Nat) :
    callsAt (setCalls ps pidx calls) i = if i = pidx then ps[i]?.map fun _ => calls else callsAt ps i := by
  simp only [callsAt, setCalls, List.getElem?_modify]
  by_cases same : i = pidx
  · simp [same, Option.map_map, Function.comp_def]
  · simp [same, Ne.symm same]

theorem barrierRow_setCalls (ps : List SeedProg) (pidx : Nat) (calls : List CallObj) :
    barrierRow (setCalls ps pidx calls) = barrierRow ps := by
  cases ps with
  | nil => cases pidx <;> rfl
  | cons p0 rest => cases pidx <;> rfl

theorem barrierRow_setFailPos (ps : List SeedProg) (table : SeedProg → List (List Int)) :
    barrierRow (ps.modify 0 fun p0 => { p0 with generalFailPos := table p0 }) = barrierRow ps := by
  cases ps <;> rfl

theorem callsAt_modify {ps : List SeedProg} {edit : SeedProg → SeedProg} (keeps : ∀ p, (edit p).calls = p.calls) (k i : Nat) :
    callsAt (ps.modify k edit) i = callsAt ps i := by
  simp only [callsAt, List.getElem?_modify]
  split
  · simp [Option.map_map, Function.comp_def, keeps]
  · simp

theorem callsAt_setBarrierPos (ps : List SeedProg) (pidx : Nat) (pos : Int) (i : Nat) :
    callsAt (setBarrierPos ps pidx pos) i = callsAt ps i := by
  rw [setBarrierPos, callsAt_modify]
  intro p
  rfl

theorem barrierRow_setBarrierPos (ps : List SeedProg) (pidx : Nat) (pos : Int) :
    barrierRow (setBarrierPos ps pidx pos) = (barrierRow ps).set pidx pos := by
  cases ps with
  | nil => rfl
  | cons p0 rest =>
    cases rows : p0.generalBarrierPos <;> simp [barrierRow, setBarrierPos, rows]

theorem BarrierTable.update {ps ps' : List SeedProg} (table : BarrierTable ps) (pidx b' : Nat) {calls' : List CallObj}
    (calls : ∀ i, callsAt ps' i = if i = pidx then ps[i]?.map fun _ => calls' else callsAt ps i)
    (row : barrierRow ps' = (barrierRow ps).set pidx (b' : Int)) (found : BarrierAt calls' b') : BarrierTable ps' := by
  rw [barrierTable_iff]
  intro i seen read
  rw [calls] at read
  split at read
  · rename_i same
    obtain ⟨p, here, rfl⟩ := Option.map_eq_some_iff.mp read
    obtain ⟨b, recorded, _⟩ := table i p here
    refine ⟨b', ?_, found⟩
    rw [row, ← same, List.getElem?_set_self (List.getElem?_eq_some_iff.mp recorded).1]
  · rename_i other
    obtain ⟨b, recorded, at_⟩ := barrierTable_iff.mp table i seen read
    exact ⟨b, by rw [row, List.getElem?_set_ne (Ne.symm other)]; exact recorded, at_⟩

/-- The table after new calls and an update at the place of the edit. -/
theorem BarrierTable.edit {ps : List SeedProg} (table : BarrierTable ps) {pidx : Nat} {calls' : List CallObj}
    (recorded : (barrierRow ps)[pidx]? = some (b : Int)) {shiftPos delta : Int} {b' : Nat}
    (shift : (b' : Int) = if shiftPos ≤ b then b + delta else b) (found : BarrierAt calls' b') :
    BarrierTable (updateBarrierPosTable (setCalls ps pidx calls') pidx shiftPos delta) := by
  have kept : (barrierRow ps).set pidx (b : Int) = barrierRow ps := by
    rw [List.getElem?_eq_some_iff] at recorded
    obtain ⟨inside, value⟩ := recorded
    rw [← value, List.set_getElem_self]
  unfold updateBarrierPosTable
  rw [barrierRow_setCalls, recorded]
  dsimp only
  split at shift
  · rename_i before
    rw [if_pos before]
    refine table.update pidx b' ?_ ?_ found
    · intro i
      rw [callsAt_setBarrierPos, callsAt_setCalls]
    · rw [barrierRow_setBarrierPos, barrierRow_setCalls, shift]
  · rename_i behind
    rw [if_neg behind]
    refine table.update pidx b' (callsAt_setCalls ps pidx calls') ?_ found
    rw [barrierRow_setCalls, shift, kept]

/-! ### The mutations -/

theorem isSwappable_plain {name : String} (swappable : isSwappable name = true) : isBarrier name = false := by
  have within : "syz_failure".toList <:+: barrierName.toList := by decide
  cases barrier : isBarrier name with
  | false => rfl
  | true =>
    have failure : Go.contains name "syz_failure" = true := by
      simp only [isBarrier, Go.contains, decide_eq_true_eq] at barrier ⊢
      exact within.trans barrier
    simp [isSwappable, failure] at swappable

section Steps

variable {ps : List SeedProg} {pidx : Nat} {p : SeedProg} (table : BarrierTable ps) (here : ps[pidx]? = some p)

include table here

theorem insertGetdents64Call_table (path pos : Draw) (gen : String → String → Option NewCall) :
    BarrierTable (insertGetdents64Call ps pidx p path pos gen).1 := by
  obtain ⟨b, recorded, found⟩ := table pidx p here
  unfold insertGetdents64Call
  split
  · exact table
  · split
    · split
      · exact table
      · rename_i openCall gdCall closeCall _ _ _ _
        have inside : pos.intn (p.calls.length + 1) ≤ p.calls.length := by
          have bound := pos.lt (p.calls.length + 1) (by omega)
          omega
        have plain : ∀ o ∈ [openCall.named "open", gdCall.named "getdents64", closeCall.named "close"],
            isBarrier o.name = false := by
          intro o member
          simp only [List.mem_cons, List.not_mem_nil, or_false] at member
          rcases member with rfl | rfl | rfl
          · exact (by decide : isBarrier "open" = false)
          · exact (by decide : isBarrier "getdents64" = false)
          · exact (by decide : isBarrier "close" = false)
        refine table.edit recorded ?_ (found.insert inside plain)
        unfold Edits.shifted
        simp only [List.length_cons, List.length_nil]
        split_ifs <;> omega
    · exact table

theorem removeDcacheCall_table (ch : DcacheChoice) : BarrierTable (removeDcacheCall ps pidx p ch).1 := by
  obtain ⟨b, recorded, found⟩ := table pidx p here
  unfold removeDcacheCall
  split
  · exact table
  · dsimp only
    split
    · exact table
    · rename_i idx chosen
      obtain ⟨o, read, candidate⟩ := mem_indicesWhere.mp (List.mem_of_getElem? chosen)
      have inside : idx < p.calls.length := (List.getElem?_eq_some_iff.mp read).1
      have other : b ≠ idx := by
        rintro rfl
        obtain ⟨o', read', barrier⟩ := found.here
        rw [Option.some.inj (read.symm.trans read'), barrier] at candidate
        exact absurd candidate (by decide)
      refine table.edit recorded ?_ (found.remove inside other ch.dflt)
      unfold Edits.closed
      split_ifs <;> omega

theorem swapDcacheCalls_table (ch : DcacheChoice) : BarrierTable (swapDcacheCalls ps pidx p ch).1 := by
  obtain ⟨b, recorded, found⟩ := table pidx p here
  have kept : (barrierRow ps).set pidx (b : Int) = barrierRow ps := by
    obtain ⟨inside, value⟩ := List.getElem?_eq_some_iff.mp recorded
    rw [← value, List.set_getElem_self]
  unfold swapDcacheCalls
  dsimp only
  split_ifs with short few same
  · exact table
  · exact table
  · exact table
  · have plain : ∀ draw : Draw, ∀ o,
        p.calls[(indicesWhere p.calls isSwappable).getD (draw.intn (indicesWhere p.calls isSwappable).length) 0]? = some o →
          isBarrier o.name = false := by
      intro draw o read
      have inside := draw.lt (indicesWhere p.calls isSwappable).length (by omega)
      rw [List.getD_eq_getElem?_getD, List.getElem?_eq_getElem inside, Option.getD_some] at read
      obtain ⟨o', read', swappable⟩ := mem_indicesWhere.mp (List.getElem_mem inside)
      rw [← Option.some.inj (read'.symm.trans read)]
      exact isSwappable_plain swappable
    refine table.update pidx b (callsAt_setCalls ps pidx _) ?_ (found.swap ?_)
    · rw [barrierRow_setCalls, kept]
    · intro k member
      simp only [List.mem_cons, List.not_mem_nil, or_false] at member
      rcases member with rfl | rfl
      · exact plain (ch.draw 1)
      · exact plain (ch.draw 2)

theorem moveBarrier_table {which shiftDraw : Draw} {chosen : SyncInfo} {newCallIdx : Nat}
    (moves : barrierMove p which shiftDraw = some (chosen, newCallIdx)) :
    BarrierTable (moveBarrier ps pidx p chosen newCallIdx) := by
  obtain ⟨b, recorded, found⟩ := table pidx p here
  unfold barrierMove at moves
  dsimp only at moves
  split at moves
  · cases moves
  · rename_i info picked
    split_ifs at moves with outside blocked
    simp only [Option.some.injEq, Prod.mk.injEq] at moves
    obtain ⟨rfl, rfl⟩ := moves
    have atBarrier : info.callIdx = b := by
      obtain ⟨callIdx, member, kept⟩ := List.mem_filterMap.mp (List.mem_of_getElem? picked)
      obtain ⟨o, read, barrier⟩ := mem_indicesWhere.mp member
      rw [read] at kept
      simp only [Option.ite_none_right_eq_some, Option.some.injEq] at kept
      rw [← kept.2]
      exact found.only callIdx o read barrier
    simp only [ge_iff_le, Bool.or_eq_true, decide_eq_true_eq, not_or, not_lt, not_le] at outside
    generalize (info.callIdx : Int) + shiftOf shiftDraw = newIdx at outside ⊢
    have inside : newIdx.toNat < p.calls.length := by omega
    refine table.update pidx newIdx.toNat ?_ ?_ (atBarrier ▸ found.move inside)
    · intro i
      rw [moveBarrier, callsAt_setBarrierPos, callsAt_modify (by intro p; rfl), callsAt_setCalls, atBarrier]
    · rw [moveBarrier, barrierRow_setBarrierPos, barrierRow_setFailPos, barrierRow_setCalls]

omit here in
theorem syncPosLoop_table (ch : DcacheChoice) {entries : List (SeedProg × Nat)}
    (ofGroup : ∀ entry ∈ entries, ps[entry.2]? = some entry.1) : BarrierTable (syncPosLoop ps ch entries).1 := by
  induction entries with
  | nil => exact table
  | cons entry rest ih =>
    obtain ⟨q, progIdx⟩ := entry
    have later := ih fun e member => ofGroup e (List.mem_cons_of_mem _ member)
    unfold syncPosLoop
    split
    · exact later
    · split
      · exact later
      · rename_i chosen newCallIdx moves
        exact moveBarrier_table table (ofGroup (q, progIdx) List.mem_cons_self) moves

end Steps

theorem mutateDcacheSyncPos_table {ps : List SeedProg} (table : BarrierTable ps) (ch : DcacheChoice) :
    BarrierTable (mutateDcacheSyncPos ps ch).1 := by
  refine syncPosLoop_table table ch ?_
  intro entry member
  exact List.mem_zipIdx_iff_getElem?.mp member

/-! ### The insertion of a single call -/

/-- The program and the position at which a mutation inserts a single call, if it does. -/
def singleInsert (ps : List SeedProg) (mutType : DcacheMutation) (ch : DcacheChoice) : Option (Nat × Nat) :=
  match mutType, ps.findIdx? SeedProg.isDCache with
  | .opType, some pidx =>
    match ps[pidx]? with
    | none => none
    | some p =>
      let callType := dcacheCallTypes.getD ((ch.draw 1).intn dcacheCallTypes.length) ""
      if (ch.draw 0).intn 3 = 0 ∧ p.calls.length ≠ 0 ∧ callType ≠ "getdents64" ∧ (ch.gen callType "").isSome then
        some (pidx, (ch.draw 2).intn (p.calls.length + 1))
      else none
  | _, _ => none

/-- A single call that the mutation inserts goes behind the barrier. -/
def InsertsBehind (ps : List SeedProg) (mutType : DcacheMutation) (ch : DcacheChoice) : Prop :=
  ∀ pidx insertPos p b, singleInsert ps mutType ch = some (pidx, insertPos) → ps[pidx]? = some p →
    BarrierAt p.calls b → b < insertPos

theorem callType_plain (draw : Draw) :
    isBarrier (dcacheCallTypes.getD (draw.intn dcacheCallTypes.length) "") = false := by
  have bound : draw.intn 6 < 6 := draw.lt 6 (by omega)
  rw [show dcacheCallTypes.length = 6 by rfl]
  generalize draw.intn 6 = k at bound
  have all : ∀ k < 6, isBarrier (dcacheCallTypes.getD k "") = false := by decide
  exact all k bound

/-- Without an update of the table, the barrier is still where it is recorded exactly when the new
call went behind it. -/
theorem setCalls_insert_table {ps : List SeedProg} {pidx : Nat} {p : SeedProg} (table : BarrierTable ps)
    (here : ps[pidx]? = some p) {insertPos : Nat} (inside : insertPos ≤ p.calls.length) {o : CallObj}
    (plain : isBarrier o.name = false) :
    BarrierTable (setCalls ps pidx (Edits.insertAt p.calls insertPos [o])) ↔
      ∀ b, BarrierAt p.calls b → b < insertPos := by
  obtain ⟨b, recorded, found⟩ := table pidx p here
  have after : BarrierAt (Edits.insertAt p.calls insertPos [o]) (Edits.shifted insertPos [o].length b) :=
    found.insert inside (by simpa using plain)
  constructor
  · intro kept b' found'
    obtain rfl := found.unique found'
    obtain ⟨b'', recorded', found''⟩ := barrierTable_iff.mp kept pidx _ (by rw [callsAt_setCalls, if_pos rfl, here]; rfl)
    rw [barrierRow_setCalls, recorded] at recorded'
    have same := after.unique found''
    simp only [Option.some.injEq, Int.natCast_inj] at recorded'
    unfold Edits.shifted at same
    split at same
    · simp only [List.length_singleton] at same
      omega
    · omega
  · intro behind
    have before := behind b found
    refine table.update pidx b (callsAt_setCalls ps pidx _) ?_ ?_
    · obtain ⟨within, value⟩ := List.getElem?_eq_some_iff.mp recorded
      rw [barrierRow_setCalls, ← value, List.set_getElem_self]
    · rw [Edits.shifted, if_neg (by omega)] at after
      exact after

theorem insertDcacheCall_table {ps : List SeedProg} {pidx : Nat} {p : SeedProg} (table : BarrierTable ps)
    (here : ps[pidx]? = some p) {ch : DcacheChoice} (first : ps.findIdx? SeedProg.isDCache = some pidx)
    (inserts : (ch.draw 0).intn 3 = 0) :
    BarrierTable (insertDcacheCall ps pidx p ch).1 ↔ InsertsBehind ps .opType ch := by
  have inside : (ch.draw 2).intn (p.calls.length + 1) ≤ p.calls.length := by
    have bound := (ch.draw 2).lt (p.calls.length + 1) (by omega)
    omega
  have plain := callType_plain (ch.draw 1)
  unfold InsertsBehind singleInsert insertDcacheCall
  simp only [first, here, inserts, true_and]
  generalize dcacheCallTypes.getD ((ch.draw 1).intn dcacheCallTypes.length) "" = callType at plain ⊢
  by_cases empty : p.calls.length = 0
  · simp [empty, table]
  · by_cases getdents : callType = "getdents64"
    · simp [empty, getdents, insertGetdents64Call_table table here]
    · cases call : ch.gen callType "" with
      | none => simp [empty, getdents, table]
      | some newCall =>
        simp only [empty, getdents, if_false, ne_eq, not_false_eq_true, Option.isSome_some, and_self, if_true,
          Option.some.injEq, Prod.mk.injEq]
        rw [setCalls_insert_table table here inside (o := newCall.named callType) plain]
        constructor
        · rintro behind _ _ q b ⟨rfl, rfl⟩ there found
          rw [here] at there
          cases there
          exact behind b found
        · exact fun behind b found => behind pidx _ p b ⟨rfl, rfl⟩ here found

/-- One mutation keeps the table exactly when it inserts no single call before the barrier. -/
theorem mutateDcacheProg_table {ps : List SeedProg} (table : BarrierTable ps) (mutType : DcacheMutation)
    (ch : DcacheChoice) :
    BarrierTable (mutateDcacheProg ps mutType ch).1 ↔ InsertsBehind ps mutType ch := by
  unfold mutateDcacheProg
  split
  · rename_i empty
    obtain rfl := List.length_eq_zero_iff.mp empty
    exact ⟨fun _ _ _ _ _ _ there => by simp at there, fun _ => table⟩
  · cases mutType with
    | syncPos =>
      have kept := mutateDcacheSyncPos_table table ch
      exact ⟨fun _ _ _ _ _ inserted => by simp [singleInsert] at inserted, fun _ => kept⟩
    | opType =>
      dsimp only
      unfold mutateDcacheOpType
      cases first : ps.findIdx? SeedProg.isDCache with
      | none =>
        exact ⟨fun _ _ _ _ _ inserted => by simp [singleInsert, first] at inserted, fun _ => table⟩
      | some pidx =>
        cases here : ps[pidx]? with
        | none =>
          simp only [here]
          exact ⟨fun _ _ _ _ _ inserted => by simp [singleInsert, first, here] at inserted, fun _ => table⟩
        | some p =>
          simp only [here]
          by_cases inserts : (ch.draw 0).intn 3 = 0
          · simp only [inserts]
            exact insertDcacheCall_table table here first inserts
          · have none : singleInsert ps .opType ch = Option.none := by
              simp [singleInsert, first, here, inserts]
            have behind : InsertsBehind ps .opType ch := by
              intro _ _ _ _ inserted
              rw [none] at inserted
              cases inserted
            split
            · rename_i zero
              exact absurd zero inserts
            · exact ⟨fun _ => behind, fun _ => removeDcacheCall_table table here ch⟩
            · exact ⟨fun _ => behind, fun _ => swapDcacheCalls_table table here ch⟩

/-! ### Runs -/

structure DcacheStep where
  mutType : DcacheMutation
  choice : DcacheChoice

def runDcache (ps : List SeedProg) (steps : List DcacheStep) : List SeedProg :=
  steps.foldl (fun ps step => (mutateDcacheProg ps step.mutType step.choice).1) ps

def AllInsertBehind (ps : List SeedProg) : List DcacheStep → Prop
  | [] => True
  | step :: rest =>
    InsertsBehind ps step.mutType step.choice ∧ AllInsertBehind (mutateDcacheProg ps step.mutType step.choice).1 rest

/-- The table is right in every state of a run exactly when every single call that the run inserts
goes behind the barrier of its program. -/
theorem barrierTable_run {ps : List SeedProg} (table : BarrierTable ps) (steps : List DcacheStep) :
    (∀ n, BarrierTable (runDcache ps (steps.take n))) ↔ AllInsertBehind ps steps := by
  induction steps generalizing ps with
  | nil => exact ⟨fun _ => trivial, fun _ n => by simpa [runDcache] using table⟩
  | cons step rest ih =>
    have one := mutateDcacheProg_table table step.mutType step.choice
    constructor
    · intro all
      have next : BarrierTable (mutateDcacheProg ps step.mutType step.choice).1 := by
        simpa [runDcache] using all 1
      exact ⟨one.mp next, (ih next).mp fun n => by simpa [runDcache] using all (n + 1)⟩
    · rintro ⟨behind, later⟩ n
      have next := one.mpr behind
      cases n with
      | zero => simpa [runDcache] using table
      | succ n => simpa [runDcache] using (ih next).mpr later n

def sampleChoice (draws : List Nat) : DcacheChoice :=
  { draw := fun i => fixedDraw (draws.getD i 0), gen := fun _ _ => some { ref := 9 }, dflt := fun _ => 0 }

def namedCalls (names : List String) : List CallObj := names.mapIdx fun i name => ⟨i, { name }⟩

def sampleDcache : List SeedProg :=
  [{ calls := namedCalls ["stat", "rmdir", barrierName], isDCache := true, generalBarrierPos := [[2, 1]] },
    { calls := namedCalls ["stat", barrierName] }]

theorem barrierAt_of_names {names : List String} (here : names[b]? = some barrierName)
    (only : ∀ k < names.length, isBarrier (names.getD k "") = true → k = b) : BarrierAt (namedCalls names) b := by
  refine ⟨⟨⟨b, { name := barrierName }⟩, by simp [namedCalls, here], rfl⟩, ?_⟩
  intro k o read barrier
  simp only [namedCalls, List.getElem?_mapIdx, Option.map_eq_some_iff] at read
  obtain ⟨name, found, rfl⟩ := read
  refine only k (List.getElem?_eq_some_iff.mp found).1 ?_
  rw [List.getD_eq_getElem?_getD, found]
  exact barrier

theorem sampleDcache_table : BarrierTable sampleDcache := by
  intro i p read
  match i with
  | 0 =>
    cases read
    exact ⟨2, rfl, barrierAt_of_names rfl (by decide)⟩
  | 1 =>
    cases read
    exact ⟨1, rfl, barrierAt_of_names rfl (by decide)⟩
  | _ + 2 => cases read

def frontInsert : DcacheStep := ⟨.opType, sampleChoice [0, 0, 0]⟩

theorem barrierTable_stale :
    BarrierTable sampleDcache ∧ ¬ BarrierTable (runDcache sampleDcache [frontInsert]) := by
  refine ⟨sampleDcache_table, fun kept => ?_⟩
  have behind := (mutateDcacheProg_table sampleDcache_table .opType (sampleChoice [0, 0, 0])).mp kept
  have before := behind 0 0 _ 2 (by decide +kernel) rfl (barrierAt_of_names rfl (by decide))
  cases before

/-- A mkdir that goes behind the barrier, a removal and a move of the barrier. -/
def backRun : List DcacheStep :=
  [⟨.opType, sampleChoice [0, 0, 3]⟩, ⟨.opType, sampleChoice [1, 0]⟩, ⟨.syncPos, sampleChoice [0, 0, 1]⟩]

theorem barrierTable_run_sample :
    AllInsertBehind sampleDcache backRun ∧ ∀ n, BarrierTable (runDcache sampleDcache (backRun.take n)) := by
  have behind : AllInsertBehind sampleDcache backRun := by
    refine ⟨?_, ?_, ?_, trivial⟩
    · intro pidx insertPos p b inserted here found
      cases inserted
      cases here
      rw [found.unique (barrierAt_of_names (b := 2) rfl (by decide))]
      decide
    · intro pidx insertPos p b inserted
      cases inserted
    · intro pidx insertPos p b inserted
      cases inserted
  exact ⟨behind, (barrierTable_run sampleDcache_table backRun).mpr behind⟩

end DfsFuzz.Mutation
