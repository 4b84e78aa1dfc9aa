import DfsFuzz.Mutation.PlainEdits

/-!
The table `SrvFailPos` along runs of `Mutate`: every entry keeps its key and follows its sync call
through insertions, trimming, removals and moves.
-/

namespace DfsFuzz.Mutation

open DfsFuzz.Choice

theorem isFailure_of_isSync {name : String} (sync : isSync name = true) : isFailure name = true := by
  simp only [isSync, isFailure, Go.contains, decide_eq_true_eq] at sync ⊢
  exact List.IsInfix.trans ⟨[], "_sync".toList, by decide⟩ sync

/-- The table is a bijection between its keys and the positions of the sync calls. -/
structure SyncTable (p : SeedProg) : Prop where
  entries : ∀ item ∈ p.srvFailPos, ∃ (key : Int) (pos : Nat) (o : CallObj),
    item = [key, (pos : Int)] ∧ p.calls[pos]? = some o ∧ isSync o.name = true
  keys : (p.srvFailPos.map fun item => item.getD 0 0).Nodup
  positions : (p.srvFailPos.map fun item => item.getD 1 0).Nodup
  onto : ∀ (pos : Nat) o, p.calls[pos]? = some o → isSync o.name = true →
    ∃ item ∈ p.srvFailPos, item.getD 1 0 = (pos : Int)

/-- Every entry has its key and points at the sync call it pointed at. -/
structure KeepsEntries (p p' : SeedProg) : Prop where
  count : p'.srvFailPos.length = p.srvFailPos.length
  entry : ∀ (e : Nat) (key : Int) (pos : Nat), p.srvFailPos[e]? = some [key, (pos : Int)] →
    ∃ (pos' : Nat) (o o' : CallObj), p'.srvFailPos[e]? = some [key, (pos' : Int)] ∧ p.calls[pos]? = some o ∧
      p'.calls[pos']? = some o' ∧ isSync o.name = true ∧ SameCall o o'

/-- The positions move by `g`, in the table as in the program. -/
structure Carried (g : Int → Int) (p p' : SeedProg) : Prop where
  table : p'.srvFailPos = p.srvFailPos.map fun item => item.modify 1 g
  forward : ∀ (k : Nat) o, p.calls[k]? = some o → isSync o.name = true →
    ∃ (k' : Nat) (o' : CallObj), g k = k' ∧ p'.calls[k']? = some o' ∧ SameCall o o'
  back : ∀ (k' : Nat) o', p'.calls[k']? = some o' → isSync o'.name = true →
    ∃ (k : Nat) (o : CallObj), g k = k' ∧ p.calls[k]? = some o ∧ SameCall o o'

def Carries (p p' : SeedProg) : Prop := ∃ g, Carried g p p'

theorem SameCall.isSync {o o' : CallObj} (same : SameCall o o') : isSync o'.name = isSync o.name := congrArg _ same.name

theorem Carries.refl (p : SeedProg) : Carries p p := by
  refine ⟨id, ?_, ?_, ?_⟩
  · simp [List.modify_id]
  · intro k o here _
    exact ⟨k, o, rfl, here, SameCall.refl o⟩
  · intro k o here _
    exact ⟨k, o, rfl, here, SameCall.refl o⟩

theorem Carries.trans {p₁ p₂ p₃ : SeedProg} (first : Carries p₁ p₂) (second : Carries p₂ p₃) : Carries p₁ p₃ := by
  obtain ⟨g, first⟩ := first
  obtain ⟨h, second⟩ := second
  refine ⟨h ∘ g, ?_, ?_, ?_⟩
  · rw [second.table, first.table, List.map_map]
    exact List.map_congr_left fun item _ => List.modify_modify_eq g h 1 item
  · intro k o here sync
    obtain ⟨k', o', moves, there, same⟩ := first.forward k o here sync
    obtain ⟨k'', o'', moves', there', same'⟩ := second.forward k' o' there (same.isSync.trans sync)
    exact ⟨k'', o'', (congrArg h moves).trans moves', there', same.trans same'⟩
  · intro k'' o'' there sync
    obtain ⟨k', o', moves', there', same'⟩ := second.back k'' o'' there sync
    obtain ⟨k, o, moves, here, same⟩ := first.back k' o' there' (same'.isSync.symm.trans sync)
    exact ⟨k, o, (congrArg h moves).trans moves', here, same.trans same'⟩

/-! ### The edits -/

variable {p : SeedProg} {calls : List CallObj}

theorem args_carries (same : List.Forall₂ SameFailure p.calls calls) : Carries p { p with calls } := by
  have pointwise := List.forall₂_iff_get.mp same
  refine ⟨id, ?_, ?_, ?_⟩
  · simp [List.modify_id]
  · intro k o here _
    obtain ⟨inside, rfl⟩ := List.getElem?_eq_some_iff.mp here
    have there := pointwise.2 k inside (pointwise.1 ▸ inside)
    exact ⟨k, _, rfl, List.getElem?_eq_getElem _, there.toSameCall⟩
  · intro k o here _
    obtain ⟨inside, rfl⟩ := List.getElem?_eq_some_iff.mp here
    have there := pointwise.2 k (pointwise.1 ▸ inside) inside
    exact ⟨k, _, rfl, List.getElem?_eq_getElem _, there.toSameCall⟩

variable {idx : Nat}

theorem insert_carries {block : List CallObj} (inside : idx ≤ p.calls.length) (plain : ∀ o ∈ block, IsPlain o) :
    Carries p (shiftSrvFailPos { p with calls := Edits.insertAt p.calls idx block } idx block.length) := by
  refine ⟨_, rfl, ?_, ?_⟩
  · intro k o here _
    refine ⟨Edits.shifted idx block.length k, o, ?_, (Edits.insertAt_shifted inside block k).trans here, SameCall.refl o⟩
    unfold Edits.shifted
    split_ifs <;> omega
  · intro k o here sync
    rw [shiftSrvFailPos_calls, Edits.getElem?_insertAt inside] at here
    split_ifs at here with before within
    · exact ⟨k, o, by rw [if_neg (by omega)], here, SameCall.refl o⟩
    · -- what was inserted is no sync
      have ordinary := (plain o (List.mem_of_getElem? here)).1
      rw [isFailure_of_isSync sync] at ordinary
      cases ordinary
    · refine ⟨k - block.length, o, ?_, here, SameCall.refl o⟩
      rw [if_pos (by omega)]
      omega

theorem remove_carries {o : CallObj} (gone : p.calls[idx]? = some o) (plain : isFailure o.name = false)
    (dflt : ResultId → UInt64) : Carries p (removeCallAt dflt p idx) := by
  obtain ⟨edit, same, reads⟩ := @getElem?_removeAt dflt _ _ (List.getElem?_eq_some_iff.mp gone).1
  refine ⟨_, rfl, ?_, ?_⟩
  · intro k o' here sync
    have other : k ≠ idx := by
      rintro rfl
      obtain rfl := Option.some.inj (here.symm.trans gone)
      rw [isFailure_of_isSync sync] at plain
      cases plain
    refine ⟨Edits.closed idx k, edit o', ?_, ?_, same o'⟩
    · unfold Edits.closed
      split_ifs <;> omega
    · rw [removeCallAt_calls, reads, Edits.eraseIdx_closed _ other, here, Option.map_some]
  · intro k o' here _
    rw [removeCallAt_calls, reads, List.getElem?_eraseIdx] at here
    split_ifs at here with before
    · obtain ⟨old, there, rfl⟩ := Option.map_eq_some_iff.mp here
      exact ⟨k, old, by rw [if_neg (by omega)], there, same old⟩
    · obtain ⟨old, there, rfl⟩ := Option.map_eq_some_iff.mp here
      refine ⟨k + 1, old, ?_, there, same old⟩
      rw [if_pos (by omega)]
      omega

theorem PlainEdits.carries {p' : SeedProg} (edits : PlainEdits p p') : Carries p p' := by
  induction edits with
  | refl => exact Carries.refl p
  | tail _ edit ih =>
    refine ih.trans ?_
    cases edit with
    | args same => exact args_carries same
    | insert inside plain => exact insert_carries inside plain
    | remove here plain dflt => exact remove_carries here plain dflt

theorem movedEntry_moved (i j k : Nat) : movedEntry i j k = (Edits.moved i j k : Int) := by
  unfold movedEntry Edits.moved
  split_ifs <;> omega

theorem move_carries {i j : Nat} (fromIn : i < p.calls.length) (toIn : j < p.calls.length) :
    Carries p (moveSrvFailPosEntry { p with calls := Edits.move p.calls i j } i j) := by
  have table : (moveSrvFailPosEntry { p with calls := Edits.move p.calls i j } i j).srvFailPos =
      p.srvFailPos.map fun item => item.modify 1 (movedEntry i j) := by
    unfold moveSrvFailPosEntry
    split_ifs with same
    · have still : movedEntry i j = id := by
        funext pos
        unfold movedEntry
        split_ifs <;> simp only [id] <;> omega
      rw [still]
      simp [List.modify_id]
    · rfl
  have calls : (moveSrvFailPosEntry { p with calls := Edits.move p.calls i j } i j).calls = Edits.move p.calls i j := by
    unfold moveSrvFailPosEntry
    split_ifs <;> rfl
  refine ⟨movedEntry i j, table, ?_, ?_⟩
  · intro k o here _
    exact ⟨Edits.moved i j k, o, movedEntry_moved i j k, by rw [calls, Edits.move_moved fromIn toIn, here], SameCall.refl o⟩
  · intro k o here _
    rw [calls, Edits.getElem?_move fromIn toIn] at here
    exact ⟨Edits.moved j i k, o, by rw [movedEntry_moved, Edits.moved_moved], here, SameCall.refl o⟩

/-! ### The moves -/

theorem lastNNonFailCall_failure {o : CallObj} (here : calls[idx]? = some o) (failure : isFailure o.name = true)
    (nOutOf : Nat → Bool) : lastNNonFailCall calls nOutOf idx = some 0 := by
  simp [lastNNonFailCall, List.range_succ, here, failure]

/-- A move takes a sync call with an even id to the start and one with an odd id to a later plain
call. -/
structure MoveOf (calls : List CallObj) (idx insertPoint : Nat) : Prop where
  sync : ∃ o id, calls[idx]? = some o ∧ isSync o.name = true ∧ o.call.args.head? = some (.const id) ∧
    if id % 2 = 0 then insertPoint = 0
    else idx < insertPoint ∧ ∃ o', calls[insertPoint]? = some o' ∧ isFailure o'.name = false

variable {insertPoint : Nat}

theorem MoveOf.fromIn (move : MoveOf calls idx insertPoint) : idx < calls.length := by
  obtain ⟨o, _, here, _⟩ := move.sync
  exact (List.getElem?_eq_some_iff.mp here).1

theorem MoveOf.toIn (move : MoveOf calls idx insertPoint) : insertPoint < calls.length := by
  have inside := move.fromIn
  obtain ⟨_, _, _, _, _, target⟩ := move.sync
  split_ifs at target
  · omega
  · obtain ⟨_, o', there, _⟩ := target
    exact (List.getElem?_eq_some_iff.mp there).1

theorem chosenMove_spec {ch : FailPosChoice} (chosen : chosenMove calls ch = some (idx, insertPoint)) :
    MoveOf calls idx insertPoint := by
  obtain ⟨cnt, _, attempt⟩ := List.exists_of_findSome?_eq_some chosen
  unfold attemptedMove at attempt
  dsimp only at attempt
  split at attempt
  · cases attempt
  rename_i o here
  split_ifs at attempt with sync
  split at attempt
  swap
  · cases attempt
  rename_i id first
  obtain ⟨_, found, same⟩ := Option.map_eq_some_iff.mp attempt
  obtain ⟨rfl, rfl⟩ := Prod.mk.inj same
  refine ⟨o, id, here, sync, first, ?_⟩
  split_ifs at found ⊢ with even
  · rw [lastNNonFailCall_failure here (isFailure_of_isSync sync)] at found
    exact (Option.some.inj found).symm
  · have passes := List.find?_some found
    have low := (List.mem_range'_1.mp (List.mem_of_find?_eq_some found)).1
    split at passes
    · rename_i o' there
      have ordinary : isFailure o'.name = false := by
        simp only [Bool.and_eq_true, Bool.not_eq_true'] at passes
        exact passes.1
      refine ⟨Nat.lt_of_le_of_ne low ?_, o', there, ordinary⟩
      -- the search starts at the sync itself, which is a failure call
      intro same
      rw [← same] at there
      obtain rfl := Option.some.inj (here.symm.trans there)
      rw [isFailure_of_isSync sync] at ordinary
      cases ordinary
    · cases passes

variable {m : Mutator}

theorem mutateFailPos_eq {ch : FailPosChoice} (chosen : chosenMove m.p.calls ch = some (idx, insertPoint)) :
    mutateFailPos m ch =
      { m with
        p := moveSrvFailPosEntry { m.p with calls := Edits.move m.p.calls idx insertPoint } idx insertPoint } := by
  rw [mutateFailPos, chosen]

@[simp]
theorem moveSrvFailPosEntry_calls (p : SeedProg) (oldPos newPos : Nat) :
    (moveSrvFailPosEntry p oldPos newPos).calls = p.calls := by
  unfold moveSrvFailPosEntry
  split_ifs <;> rfl

theorem mutateFailPos_sound (sound : Sound m) (ch : FailPosChoice) : Sound (mutateFailPos m ch) := by
  cases chosen : chosenMove m.p.calls ch with
  | none =>
    rw [mutateFailPos, chosen]
    exact sound
  | some move =>
    have spec := chosenMove_spec chosen
    rw [mutateFailPos_eq chosen]
    refine ⟨?_, ?_⟩
    · rw [moveSrvFailPosEntry_calls]
      exact sound.objects.move spec.fromIn
    · rw [moveSrvFailPosEntry_calls]
      exact (Edits.length_move spec.fromIn spec.toIn).trans_le sound.fits

/-! ### Runs -/

theorem mutateStep_sound (sound : Sound m) (step : MutateStep) : Sound (mutateStep m step) := by
  cases step with
  | squashAny ch => exact (squashAny_plain sound ch).2
  | insertCall ch => exact (insertCall_plain sound ch).2
  | removeCall ch => exact (removeCall_plain sound ch).2
  | mutateArg ch => exact (mutateArg_plain sound ch).2
  | mutateFailPos ch => exact mutateFailPos_sound sound ch

theorem mutateStep_carries (sound : Sound m) (step : MutateStep) : Carries m.p (mutateStep m step).p := by
  cases step with
  | squashAny ch => exact (squashAny_plain sound ch).1.carries
  | insertCall ch => exact (insertCall_plain sound ch).1.carries
  | removeCall ch => exact (removeCall_plain sound ch).1.carries
  | mutateArg ch => exact (mutateArg_plain sound ch).1.carries
  | mutateFailPos ch =>
    rw [mutateStep]
    cases chosen : chosenMove m.p.calls ch with
    | none =>
      rw [mutateFailPos, chosen]
      exact Carries.refl m.p
    | some move =>
      have spec := chosenMove_spec chosen
      rw [mutateFailPos_eq chosen]
      exact move_carries spec.fromIn spec.toIn

theorem runMutate_carries (sound : Sound m) (steps : List MutateStep) : Carries m.p (runMutate m steps).p := by
  induction steps generalizing m with
  | nil => exact Carries.refl m.p
  | cons step rest ih => exact (mutateStep_carries sound step).trans (ih (mutateStep_sound sound step))

theorem Carries.keepsEntries {p' : SeedProg} (table : SyncTable p) (carries : Carries p p') : KeepsEntries p p' := by
  obtain ⟨g, carried⟩ := carries
  refine ⟨by rw [carried.table, List.length_map], ?_⟩
  intro e key pos entry
  obtain ⟨_, _, o, same, here, sync⟩ := table.entries _ (List.mem_of_getElem? entry)
  simp only [List.cons.injEq, Int.natCast_inj, and_true] at same
  obtain ⟨rfl, rfl⟩ := same
  obtain ⟨pos', o', moves, there, kept⟩ := carried.forward pos o here sync
  refine ⟨pos', o, o', ?_, here, there, sync, kept⟩
  rw [carried.table, List.getElem?_map, entry, ← moves]
  rfl

theorem Carries.syncTable {p' : SeedProg} {next : Nat} (table : SyncTable p) (objects : Objects p.calls next)
    (carries : Carries p p') : SyncTable p' := by
  have kept := carries.keepsEntries table
  obtain ⟨g, carried⟩ := carries
  refine ⟨?_, ?_, ?_, ?_⟩
  · intro item member
    obtain ⟨e, entry⟩ := List.getElem?_of_mem member
    rw [carried.table, List.getElem?_map] at entry
    obtain ⟨old, before, rfl⟩ := Option.map_eq_some_iff.mp entry
    obtain ⟨key, pos, _, rfl, _, _⟩ := table.entries old (List.mem_of_getElem? before)
    obtain ⟨pos', o, o', entry', _, there, sync, same⟩ := kept.entry e key pos before
    rw [carried.table, List.getElem?_map, before] at entry'
    exact ⟨key, pos', o', Option.some.inj entry', there, same.isSync.trans sync⟩
  · have same : (p'.srvFailPos.map fun item => item.getD 0 0) = p.srvFailPos.map fun item => item.getD 0 0 := by
      rw [carried.table, List.map_map]
      refine List.map_congr_left fun item member => ?_
      obtain ⟨key, pos, _, rfl, _⟩ := table.entries item member
      rfl
    rw [same]
    exact table.keys
  · -- two entries at one position would point at one object before, too
    have same : (p'.srvFailPos.map fun item => item.getD 1 0) = (p.srvFailPos.map fun item => item.getD 1 0).map g := by
      rw [carried.table, List.map_map, List.map_map]
      refine List.map_congr_left fun item member => ?_
      obtain ⟨key, pos, _, rfl, _⟩ := table.entries item member
      rfl
    rw [same]
    refine table.positions.map_on ?_
    intro a first b second eq
    obtain ⟨item, member, rfl⟩ := List.mem_map.mp first
    obtain ⟨item', member', rfl⟩ := List.mem_map.mp second
    obtain ⟨key, pos, o, rfl, here, sync⟩ := table.entries item member
    obtain ⟨key', pos', o', rfl, here', sync'⟩ := table.entries item' member'
    obtain ⟨k, o₁, moves, there, same₁⟩ := carried.forward pos o here sync
    obtain ⟨k', o₂, moves', there', same₂⟩ := carried.forward pos' o' here' sync'
    have ends : k = k' := by
      have both : (k : Int) = k' := moves.symm.trans (eq.trans moves')
      omega
    rw [ends] at there
    obtain rfl := Option.some.inj (there.symm.trans there')
    have positions := objects.unique here here' (same₁.ref.symm.trans same₂.ref)
    simp [positions]
  · intro pos' o' there sync
    obtain ⟨pos, o, moves, here, same⟩ := carried.back pos' o' there sync
    obtain ⟨item, member, at_⟩ := table.onto pos o here (same.isSync.symm.trans sync)
    obtain ⟨key, pos₁, _, rfl, _⟩ := table.entries item member
    refine ⟨[key, g pos₁], ?_, ?_⟩
    · rw [carried.table]
      exact List.mem_map_of_mem member
    · have position : (pos₁ : Int) = pos := at_
      rw [position]
      exact moves

/-- Whatever steps `Mutate` takes, the table stays a bijection, and each entry has its key and
points at the sync call it pointed at. -/
theorem srvFailPos_run {p : SeedProg} {next : Nat} (objects : Objects p.calls next) (table : SyncTable p) (ncalls : Nat)
    (steps : List MutateStep) :
    SyncTable (runMutate (newMutator p ncalls next) steps).p ∧
      KeepsEntries p (runMutate (newMutator p ncalls next) steps).p := by
  have carries : Carries p (runMutate (newMutator p ncalls next) steps).p :=
    runMutate_carries (newMutator_sound objects ncalls) steps
  exact ⟨carries.syncTable table objects, carries.keepsEntries table⟩

def namedGenerator : Generator where
  generateParticularCall name := [{ name }]
  plain name ordinary call member := by
    obtain rfl := List.mem_singleton.mp member
    exact ⟨ordinary, rfl⟩

def syncObj (ref : Nat) (id : UInt64) : CallObj :=
  ⟨ref, { name := "syz_failure_sync", args := [.const id, .const 1], isFCall := true }⟩

def sampleClient : SeedProg :=
  { calls := [⟨0, { name := "open" }⟩, syncObj 1 0, ⟨2, { name := "read" }⟩, syncObj 3 1]
    srvFailPos := [[101, 1], [102, 3]] }

/-- An fsync goes before the first sync, and that moves up. -/
def clientSteps : List MutateStep :=
  [.insertCall { point := fixedDraw 1, gen := namedGenerator, names := fun _ => "fsync" },
    .mutateFailPos { draw := fun _ => fixedDraw 2, up := fun _ _ => true, down := fun _ _ => true }]

theorem sampleClient_objects : Objects sampleClient.calls 4 := ⟨by decide, by decide⟩

theorem sampleClient_table : SyncTable sampleClient := by
  refine ⟨?_, by decide, by decide, ?_⟩
  · intro item member
    rcases List.mem_pair.mp member with rfl | rfl
    · exact ⟨101, 1, _, rfl, rfl, by decide⟩
    · exact ⟨102, 3, _, rfl, rfl, by decide⟩
  · intro pos o here sync
    match pos with
    | 0 =>
      obtain rfl := Option.some.inj here
      exact absurd sync (by decide)
    | 1 => exact ⟨[101, 1], by decide, rfl⟩
    | 2 =>
      obtain rfl := Option.some.inj here
      exact absurd sync (by decide)
    | 3 => exact ⟨[102, 3], by decide, rfl⟩
    | _ + 4 => cases here

theorem srvFailPos_run_sample :
    (Objects sampleClient.calls 4 ∧ SyncTable sampleClient) ∧
    (runMutate (newMutator sampleClient 30 4) clientSteps).p.srvFailPos = [[101, 0], [102, 4]] ∧
    SyncTable (runMutate (newMutator sampleClient 30 4) clientSteps).p ∧
      KeepsEntries sampleClient (runMutate (newMutator sampleClient 30 4) clientSteps).p :=
  ⟨⟨sampleClient_objects, sampleClient_table⟩, by decide +kernel,
    srvFailPos_run sampleClient_objects sampleClient_table 30 clientSteps⟩

end DfsFuzz.Mutation
