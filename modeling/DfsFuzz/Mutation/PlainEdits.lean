import DfsFuzz.Mutation.Mutator
import Mathlib.Logic.Relation

/-!
What the steps of `Mutate` do to a program: apart from `mutateFailPos` they are made of insertions
and removals of plain calls and of edits of arguments, and the call objects stay distinct.
-/

namespace DfsFuzz.Mutation

open DfsFuzz.Choice

/-- The sync id that `CmpProgs` reads from a failure call. -/
def failureId (call : Call) : Option Int64 :=
  match call.args.head? with
  | some (.const val) => some val.toInt64
  | _ => none

structure SameFailure (o o' : CallObj) : Prop extends SameCall o o' where
  id : isFailure o.name = true → failureId o'.call = failureId o.call

theorem SameFailure.refl (o : CallObj) : SameFailure o o := ⟨SameCall.refl o, fun _ => rfl⟩

theorem SameFailure.trans {o₁ o₂ o₃ : CallObj} (first : SameFailure o₁ o₂) (second : SameFailure o₂ o₃) :
    SameFailure o₁ o₃ := by
  refine ⟨first.toSameCall.trans second.toSameCall, fun failure => ?_⟩
  have same : isFailure o₂.name = true := by
    rw [CallObj.name, first.name]
    exact failure
  exact (second.id same).trans (first.id failure)

theorem SameFailure.isFailure {o o' : CallObj} (same : SameFailure o o') : isFailure o'.name = isFailure o.name :=
  congrArg _ same.name

theorem detachCall_failure (dflt : ResultId → UInt64) (gone : List ResultId) (o : CallObj) :
    SameFailure o (detachCall dflt gone o) := by
  refine ⟨detachCall_same dflt gone o, fun _ => ?_⟩
  simp only [failureId, detachCall]
  cases o.call.args with
  | nil => rfl
  | cons arg rest =>
    cases arg with
    | result id res val =>
      cases res with
      | none => rfl
      | some res =>
        by_cases member : res ∈ gone
        · simp [detachArgs, detachArg, member]
        · simp [detachArgs, detachArg, member]
    | _ => rfl

structure Objects (calls : List CallObj) (next : Nat) : Prop where
  distinct : (calls.map CallObj.ref).Nodup
  made : ∀ o ∈ calls, o.ref < next

variable {calls : List CallObj} {next : Nat}

theorem Objects.unique (objects : Objects calls next) {i j : Nat} {o o' : CallObj} (first : calls[i]? = some o)
    (second : calls[j]? = some o') (same : o.ref = o'.ref) : i = j := by
  have inside := (List.getElem?_eq_some_iff.mp first).1
  refine (List.getElem?_inj (by simpa using inside) objects.distinct).mp ?_
  rw [List.getElem?_map, List.getElem?_map, first, second, Option.map_some, Option.map_some, same]

variable {calls' : List CallObj}

theorem Objects.edited (objects : Objects calls next) (same : calls'.map CallObj.ref = calls.map CallObj.ref) :
    Objects calls' next := by
  refine ⟨same ▸ objects.distinct, fun o member => ?_⟩
  have old : o.ref ∈ calls.map CallObj.ref := same ▸ List.mem_map_of_mem member
  obtain ⟨o', member', eq⟩ := List.mem_map.mp old
  exact eq ▸ objects.made o' member'

theorem Objects.removeAt (objects : Objects calls next) (dflt : ResultId → UInt64) (idx : Nat) :
    Objects (removeAt dflt calls idx) next := by
  unfold Mutation.removeAt
  split
  · exact objects
  · have erased : Objects (calls.eraseIdx idx) next := by
      refine ⟨?_, fun o member => objects.made o (List.mem_of_mem_eraseIdx member)⟩
      rw [← List.eraseIdx_map]
      exact objects.distinct.sublist (List.eraseIdx_sublist _ _)
    exact erased.edited (by simp [Function.comp_def, detachCall])

def newObjects (next : Nat) (calls : List Call) : List CallObj := calls.mapIdx fun i call => ⟨next + i, call⟩

theorem Objects.insertAt (objects : Objects calls next) (idx : Nat) (new : List Call) :
    Objects (Edits.insertAt calls idx (newObjects next new)) (next + new.length) := by
  have refs : (newObjects next new).map CallObj.ref = (List.range new.length).map (next + ·) := by
    apply List.ext_getElem
    · simp [newObjects]
    · simp [newObjects]
  have fresh : ∀ o ∈ newObjects next new, next ≤ o.ref ∧ o.ref < next + new.length := by
    intro o member
    have ref : o.ref ∈ (List.range new.length).map (next + ·) := refs ▸ List.mem_map_of_mem member
    obtain ⟨i, inside, eq⟩ := List.mem_map.mp ref
    have := List.mem_range.mp inside
    omega
  have perm : (Edits.insertAt calls idx (newObjects next new)).Perm (newObjects next new ++ calls) := by
    rw [Edits.insertAt]
    refine (List.perm_append_comm_assoc _ _ _).trans (List.Perm.append_left _ ?_)
    rw [List.take_append_drop]
  constructor
  · rw [(perm.map CallObj.ref).nodup_iff, List.map_append]
    refine List.Nodup.append ?_ objects.distinct ?_
    · rw [refs]
      exact List.nodup_range.map fun a b same => by simpa using same
    · intro ref isNew isOld
      obtain ⟨o, member, rfl⟩ := List.mem_map.mp isNew
      obtain ⟨o', member', same⟩ := List.mem_map.mp isOld
      have := fresh o member
      have := objects.made o' member'
      omega
  · intro o member
    rcases Edits.mem_insertAt member with old | isNew
    · exact Nat.lt_of_lt_of_le (objects.made o old) (Nat.le_add_right _ _)
    · exact (fresh o isNew).2

theorem Objects.move (objects : Objects calls next) {i j : Nat} (fromIn : i < calls.length) :
    Objects (Edits.move calls i j) next := by
  have perm : (Edits.move calls i j).Perm calls := by
    simp only [Edits.move, List.getElem?_eq_getElem fromIn, Edits.insertAt]
    refine (List.perm_append_comm_assoc _ _ _).trans ?_
    rw [List.take_append_drop]
    exact List.getElem_cons_eraseIdx_perm fromIn
  exact ⟨(perm.map CallObj.ref).nodup_iff.mpr objects.distinct, fun o member => objects.made o (perm.mem_iff.mp member)⟩

def IsPlain (o : CallObj) : Prop := isFailure o.name = false ∧ o.call.isFCall = false

/-- The edits that `SrvFailPos` and the order of the failure calls have to survive. -/
inductive PlainEdit : SeedProg → SeedProg → Prop where
  | args {p : SeedProg} {calls : List CallObj} (same : List.Forall₂ SameFailure p.calls calls) :
      PlainEdit p { p with calls }
  | insert {p : SeedProg} {idx : Nat} {block : List CallObj} (inside : idx ≤ p.calls.length)
      (plain : ∀ o ∈ block, IsPlain o) :
      PlainEdit p (shiftSrvFailPos { p with calls := Edits.insertAt p.calls idx block } idx block.length)
  | remove {p : SeedProg} {idx : Nat} {o : CallObj} (here : p.calls[idx]? = some o) (plain : isFailure o.name = false)
      (dflt : ResultId → UInt64) : PlainEdit p (removeCallAt dflt p idx)

abbrev PlainEdits : SeedProg → SeedProg → Prop := Relation.ReflTransGen PlainEdit

@[simp]
theorem shiftSrvFailPos_calls (p : SeedProg) (shiftPos : Nat) (delta : Int) :
    (shiftSrvFailPos p shiftPos delta).calls = p.calls := rfl

@[simp]
theorem removeCallAt_calls (dflt : ResultId → UInt64) (p : SeedProg) (idx : Nat) :
    (removeCallAt dflt p idx).calls = removeAt dflt p.calls idx := rfl

/-- The calls from `i` on, `n` of them, are no failure calls. -/
def PlainAt (calls : List CallObj) (i n : Nat) : Prop :=
  ∀ k, i ≤ k → k < i + n → ∃ o, calls[k]? = some o ∧ isFailure o.name = false

theorem plainAt_insertAt {block : List CallObj} {i : Nat} (inside : i ≤ calls.length) (plain : ∀ o ∈ block, IsPlain o) :
    PlainAt (Edits.insertAt calls i block) i block.length := by
  intro k low high
  rw [Edits.getElem?_insertAt inside, if_neg (by omega), if_pos high]
  have within : k - i < block.length := by omega
  exact ⟨block.get ⟨k - i, within⟩, List.getElem?_eq_getElem within, (plain _ (List.get_mem _ _)).1⟩

theorem PlainAt.removeAt {i n k : Nat} (plain : PlainAt calls i (n + 1)) (low : i ≤ k) (high : k < i + (n + 1))
    (dflt : ResultId → UInt64) : PlainAt (removeAt dflt calls k) i n := by
  obtain ⟨_, here, _⟩ := plain k low high
  obtain ⟨edit, same, reads⟩ := @getElem?_removeAt dflt _ _ (List.getElem?_eq_some_iff.mp here).1
  intro j below above
  rw [reads, List.getElem?_eraseIdx]
  have found : ∃ o, (if j < k then calls[j]? else calls[j + 1]?) = some o ∧ isFailure o.name = false := by
    split
    · exact plain j below (by omega)
    · exact plain (j + 1) (by omega) (by omega)
  obtain ⟨o, read, ordinary⟩ := found
  rw [read]
  exact ⟨edit o, rfl, (congrArg isFailure (same o).name).trans ordinary⟩

theorem trimAt_plain {p : SeedProg} {idx n : Nat} (plain : PlainAt p.calls idx n) (objects : Objects p.calls next)
    (dflt : ResultId → UInt64) :
    PlainEdits p (trimAt dflt idx n p) ∧ Objects (trimAt dflt idx n p).calls next ∧
      (trimAt dflt idx n p).calls.length = p.calls.length - n := by
  induction n generalizing p with
  | zero => exact ⟨.refl, objects, rfl⟩
  | succ n ih =>
    obtain ⟨o, here, ordinary⟩ := plain idx (by omega) (by omega)
    have rest := @ih (removeCallAt dflt p idx) (plain.removeAt (Nat.le_refl _) (by omega) dflt) (objects.removeAt dflt idx)
    refine ⟨.head (.remove here ordinary dflt) rest.1, rest.2.1, ?_⟩
    rw [trimAt, rest.2.2, removeCallAt_calls, length_removeAt (List.getElem?_eq_some_iff.mp here).1]
    omega

/-- The call behind the block keeps its place in front of the trimming. -/
theorem trimBefore_plain {p : SeedProg} {i n : Nat} (plain : PlainAt p.calls i n) (objects : Objects p.calls next)
    {c : CallObj} (at_ : p.calls[i + n]? = some c) {k : Nat} (few : k ≤ n) (dflt : ResultId → UInt64) :
    PlainEdits p (trimBefore dflt k (p, i + n)).1 ∧ Objects (trimBefore dflt k (p, i + n)).1.calls next ∧
      (trimBefore dflt k (p, i + n)).1.calls.length = p.calls.length - k ∧
      ∃ c', (trimBefore dflt k (p, i + n)).1.calls[(trimBefore dflt k (p, i + n)).2]? = some c' ∧ SameCall c c' := by
  induction k generalizing p n c with
  | zero => exact ⟨.refl, objects, rfl, c, at_, SameCall.refl c⟩
  | succ k ih =>
    obtain ⟨n, rfl⟩ : ∃ n', n = n' + 1 := ⟨n - 1, by omega⟩
    obtain ⟨o, here, ordinary⟩ := plain (i + n) (by omega) (by omega)
    have inside := (List.getElem?_eq_some_iff.mp here).1
    obtain ⟨edit, same, reads⟩ := @getElem?_removeAt dflt _ _ inside
    have next_ : (removeCallAt dflt p (i + n)).calls[i + n]? = some (edit c) := by
      rw [removeCallAt_calls, reads, List.getElem?_eraseIdx, if_neg (by omega), Nat.add_assoc, at_, Option.map_some]
    have rest := @ih (removeCallAt dflt p (i + n)) n (plain.removeAt (by omega) (by omega) dflt)
      (objects.removeAt dflt (i + n)) (edit c) next_ (by omega)
    have back : i + (n + 1) - 1 = i + n := by omega
    rw [trimBefore, back]
    obtain ⟨edits, objects', long, c', found, kept⟩ := rest
    refine ⟨.head (.remove here ordinary dflt) edits, objects', ?_, c', found, (same c).trans kept⟩
    rw [long, removeCallAt_calls, length_removeAt inside]
    omega

/-! ### The steps -/

/-- What `Mutate` starts from and every step keeps. -/
structure Sound (m : Mutator) : Prop where
  objects : Objects m.p.calls m.next
  fits : m.p.calls.length ≤ m.ncalls

theorem newMutator_sound {p : SeedProg} (objects : Objects p.calls next) (ncalls : Nat) :
    Sound (newMutator p ncalls next) := ⟨objects, Nat.le_max_right _ _⟩

theorem findIdx_object (objects : Objects calls next) {idx : Nat} (inside : idx ≤ calls.length) :
    (calls.findIdx fun o => some o.ref == calls[idx]?.map CallObj.ref) = idx := by
  rcases Nat.lt_or_eq_of_le inside with before | rfl
  · rw [List.findIdx_eq before]
    refine ⟨by simp [List.getElem?_eq_getElem before], fun j earlier => ?_⟩
    have first := List.getElem?_eq_getElem (Nat.lt_trans earlier before)
    simp only [List.getElem?_eq_getElem before, Option.map_some, beq_eq_false_iff_ne, ne_eq, Option.some.injEq]
    intro same
    exact Nat.ne_of_lt earlier (objects.unique first (List.getElem?_eq_getElem before) same)
  · rw [List.getElem?_eq_none (Nat.le_refl _), Option.map_none]
    exact List.findIdx_eq_length_of_false fun o _ => by simp

theorem length_newObjects (next : Nat) (calls : List Call) : (newObjects next calls).length = calls.length := by
  simp [newObjects]

theorem newObjects_plain {calls : List Call} (plain : ∀ call ∈ calls, isFailure call.name = false ∧ call.isFCall = false)
    (next : Nat) : ∀ o ∈ newObjects next calls, IsPlain o := by
  intro o member
  obtain ⟨i, inside, rfl⟩ := List.mem_mapIdx.mp member
  exact plain _ (List.getElem_mem inside)

theorem generateCall_plain (ch : InsertChoice) :
    ∀ call ∈ generateCall ch, isFailure call.name = false ∧ call.isFCall = false := by
  unfold generateCall
  split
  · refine ch.gen.plain _ ?_
    unfold c2sanName
    split_ifs <;> decide
  · split
    · rename_i cnt found
      exact ch.gen.plain _ (by simpa using List.find?_some found)
    · intro call member
      cases member

/-- The program once the new calls are in and the table is shifted. -/
def withInserted (m : Mutator) (idx : Nat) (calls : List Call) : SeedProg :=
  shiftSrvFailPos { m.p with calls := Edits.insertAt m.p.calls idx (newObjects m.next calls) } idx calls.length

structure Inserted (m : Mutator) (idx : Nat) (calls : List Call) : Prop where
  edit : PlainEdit m.p (withInserted m idx calls)
  block : PlainAt (withInserted m idx calls).calls idx calls.length
  objects : Objects (withInserted m idx calls).calls (m.next + calls.length)
  long : (withInserted m idx calls).calls.length = m.p.calls.length + calls.length
  behind : ∀ k, (withInserted m idx calls).calls[Edits.shifted idx calls.length k]? = m.p.calls[k]?

section Insertion

variable {m : Mutator} {idx : Nat} (objects : Objects m.p.calls m.next) (inside : idx ≤ m.p.calls.length)

include objects inside

theorem insertBefore_shifted (calls : List Call) :
    shiftSrvFailPos (m.insertBefore (m.p.calls[idx]?.map CallObj.ref) calls).p idx calls.length = withInserted m idx calls := by
  rw [Mutator.insertBefore, findIdx_object objects inside]
  rfl

theorem inserted_plain {calls : List Call} (plain : ∀ call ∈ calls, isFailure call.name = false ∧ call.isFCall = false) :
    Inserted m idx calls := by
  have count := length_newObjects m.next calls
  have new := newObjects_plain plain m.next
  refine ⟨?_, ?_, objects.insertAt idx calls, ?_, fun k => ?_⟩
  · have edit := PlainEdit.insert inside new
    rwa [count] at edit
  · have block := plainAt_insertAt inside new
    rwa [count] at block
  · exact (Edits.length_insertAt inside _).trans (by rw [count])
  · have behind := Edits.insertAt_shifted inside (newObjects m.next calls) k
    rwa [count] at behind

end Insertion

theorem insertCall_plain {m : Mutator} (sound : Sound m) (ch : InsertChoice) :
    PlainEdits m.p (insertCall m ch).p ∧ Sound (insertCall m ch) := by
  unfold insertCall
  split_ifs with full
  · exact ⟨.refl, sound⟩
  dsimp only
  split_ifs with nothing
  · exact ⟨.refl, sound⟩
  have inside : ch.point.intn (m.p.calls.length + 1) ≤ m.p.calls.length :=
    Nat.le_of_lt_succ (ch.point.lt _ (Nat.succ_pos _))
  have inserted := inserted_plain sound.objects inside (generateCall_plain ch)
  rw [insertBefore_shifted sound.objects inside, inserted.long]
  -- fewer calls are trimmed than were inserted, since there was room for one
  have room : m.p.calls.length + (generateCall ch).length - m.ncalls ≤ (generateCall ch).length := by omega
  have few : PlainAt (withInserted m _ (generateCall ch)).calls _ (m.p.calls.length + (generateCall ch).length - m.ncalls) :=
    fun k low high => inserted.block k low (by omega)
  obtain ⟨edits, objects, long⟩ := trimAt_plain few inserted.objects ch.dflt
  refine ⟨.head inserted.edit edits, objects, ?_⟩
  have short : m.p.calls.length + (generateCall ch).length -
      (m.p.calls.length + (generateCall ch).length - m.ncalls) ≤ m.ncalls := by omega
  exact (long.trans (by rw [inserted.long])).trans_le short

theorem chosenPlain_spec {draw : Nat → Draw} {idx : Nat} (chosen : chosenPlain calls draw = some idx) :
    ∃ o, calls[idx]? = some o ∧ isFailure o.name = false := by
  obtain ⟨cnt, _, attempt⟩ := List.exists_of_findSome?_eq_some chosen
  dsimp only at attempt
  split at attempt
  · rename_i o here
    split_ifs at attempt with failure
    obtain rfl := Option.some.inj attempt
    exact ⟨o, here, by simpa using failure⟩
  · cases attempt

theorem removeCall_plain {m : Mutator} (sound : Sound m) (ch : RemoveChoice) :
    PlainEdits m.p (removeCall m ch).p ∧ Sound (removeCall m ch) := by
  unfold removeCall
  split
  · exact ⟨.refl, sound⟩
  · rename_i idx chosen
    obtain ⟨o, here, plain⟩ := chosenPlain_spec chosen
    refine ⟨.single (.remove here plain ch.dflt), sound.objects.removeAt ch.dflt idx, ?_⟩
    have fits := sound.fits
    rw [removeCallAt_calls, length_removeAt (List.getElem?_eq_some_iff.mp here).1]
    dsimp only
    omega

theorem squashesOf_kind {ch : AnyChoice} {arg arg' : Arg} (member : arg' ∈ squashesOf ch arg) (val : UInt64) :
    arg ≠ .const val ∧ arg' ≠ .const val := by
  cases arg with
  | pointer address res =>
    rw [squashesOf] at member
    split_ifs at member
    · rw [List.mem_singleton.mp member]
      exact ⟨nofun, nofun⟩
    · obtain ⟨_, _, rfl⟩ := List.mem_map.mp member
      exact ⟨nofun, nofun⟩
  | group inner =>
    rw [squashesOf] at member
    obtain ⟨_, _, rfl⟩ := List.mem_map.mp member
    exact ⟨nofun, nofun⟩
  | union option =>
    rw [squashesOf] at member
    obtain ⟨_, _, rfl⟩ := List.mem_map.mp member
    exact ⟨nofun, nofun⟩
  | _ => simp [squashesOf] at member

theorem failureId_none {call : Call} (other : ∀ val, call.args.head? ≠ some (.const val)) : failureId call = none := by
  unfold failureId
  split
  · rename_i val here
    exact absurd here (other val)
  · rfl

theorem squashes_failure {ch : AnyChoice} {o : CallObj} {args : List Arg} (member : args ∈ squashesOfList ch o.call.args) :
    SameFailure o (o.withArgs args) := by
  refine ⟨⟨rfl, rfl, rfl⟩, fun _ => ?_⟩
  cases old : o.call.args with
  | nil =>
    rw [old] at member
    cases member
  | cons arg rest =>
    rw [old, squashesOfList, List.mem_append, List.mem_map, List.mem_map] at member
    rcases member with ⟨arg', squashed, rfl⟩ | ⟨rest', _, rfl⟩
    · have kinds := squashesOf_kind squashed
      rw [failureId_none, failureId_none]
      · intro val
        rw [old, List.head?_cons]
        exact fun same => (kinds val).1 (Option.some.inj same)
      · intro val
        exact fun same => (kinds val).2 (Option.some.inj same)
    · simp [failureId, CallObj.withArgs, old]

theorem squashesOfCalls_failure {ch : AnyChoice} (member : calls' ∈ squashesOfCalls ch calls) :
    List.Forall₂ SameFailure calls calls' := by
  induction calls generalizing calls' with
  | nil => cases member
  | cons o rest ih =>
    rw [squashesOfCalls, List.mem_append, List.mem_map, List.mem_map] at member
    rcases member with ⟨args, squashed, rfl⟩ | ⟨rest', later, rfl⟩
    · exact .cons (squashes_failure squashed) (List.forall₂_same.mpr fun o _ => SameFailure.refl o)
    · exact .cons (SameFailure.refl o) (ih later)

theorem Objects.forall₂ (objects : Objects calls next) (same : List.Forall₂ SameFailure calls calls') :
    Objects calls' next := by
  refine objects.edited ?_
  induction same with
  | nil => rfl
  | cons head _ ih => simp [head.ref, ih ⟨objects.distinct.of_cons, fun o member => objects.made o (List.mem_cons_of_mem _ member)⟩]

theorem squashAny_plain {m : Mutator} (sound : Sound m) (ch : AnyChoice) :
    PlainEdits m.p (squashAny m ch).p ∧ Sound (squashAny m ch) := by
  unfold squashAny
  dsimp only
  split
  · exact ⟨.refl, sound⟩
  · rename_i calls chosen
    have same := squashesOfCalls_failure (List.mem_of_getElem? chosen)
    exact ⟨.single (.args same), sound.objects.forall₂ same, same.length_eq ▸ sound.fits⟩

/-- The call that `mutateArg` works on stands at its index; the check that follows each round never
fails. -/
structure RoundAt (c : Nat) (m : Mutator) (idx : Nat) : Prop where
  sound : Sound m
  here : ∃ o, m.p.calls[idx]? = some o ∧ o.ref = c ∧ isFailure o.name = false

theorem setArgs_failure {c : Nat} (plain : ∀ o ∈ calls, o.ref = c → isFailure o.name = false)
    (dflt : ResultId → UInt64) (round : ArgRound) : List.Forall₂ SameFailure calls (setArgs dflt calls c round) := by
  rw [setArgs, List.forall₂_map_right_iff, List.forall₂_same]
  intro o member
  have written : SameFailure o (if o.ref = c then o.withArgs round.args else o) := by
    split_ifs with same
    · refine ⟨⟨rfl, rfl, rfl⟩, fun failure => ?_⟩
      rw [plain o member same] at failure
      cases failure
    · exact SameFailure.refl o
  exact written.trans (detachCall_failure dflt round.gone _)

/-- The state of `mutateArg` with the new arguments written. -/
def Mutator.written (m : Mutator) (dflt : ResultId → UInt64) (c : Nat) (round : ArgRound) : Mutator :=
  { m with p := { m.p with calls := setArgs dflt m.p.calls c round } }

section Round

variable {c idx : Nat} {m : Mutator} (round_at : RoundAt c m idx) (dflt : ResultId → UInt64) (round : ArgRound)
include round_at

theorem RoundAt.same : List.Forall₂ SameFailure m.p.calls (m.written dflt c round).p.calls := by
  obtain ⟨⟨objects, -⟩, o, here, ref, ordinary⟩ := round_at
  apply setArgs_failure
  intro o' member same
  obtain ⟨j, there⟩ := List.getElem?_of_mem member
  obtain rfl := objects.unique there here (same.trans ref.symm)
  obtain rfl := Option.some.inj (there.symm.trans here)
  exact ordinary

theorem RoundAt.count : (m.written dflt c round).p.calls.length = m.p.calls.length :=
  (round_at.same dflt round).length_eq.symm

theorem RoundAt.objects : Objects (m.written dflt c round).p.calls (m.written dflt c round).next :=
  round_at.sound.objects.forall₂ (round_at.same dflt round)

theorem RoundAt.inside : idx ≤ (m.written dflt c round).p.calls.length := by
  obtain ⟨o, here, -⟩ := round_at.here
  rw [round_at.count dflt round]
  exact Nat.le_of_lt (List.getElem?_eq_some_iff.mp here).1

theorem RoundAt.call : ∃ o, (m.written dflt c round).p.calls[idx]? = some o ∧ o.ref = c ∧ isFailure o.name = false := by
  obtain ⟨o, here, ref, ordinary⟩ := round_at.here
  have inside : idx < m.p.calls.length := (List.getElem?_eq_some_iff.mp here).1
  have inside' : idx < (m.written dflt c round).p.calls.length := by rwa [round_at.count dflt round]
  refine ⟨_, List.getElem?_eq_getElem inside', ?_⟩
  have kept := (round_at.same dflt round).get inside inside'
  rw [List.get_eq_getElem, (List.getElem?_eq_some_iff.mp here).2] at kept
  exact ⟨kept.ref.trans ref, kept.isFailure.trans ordinary⟩

theorem RoundAt.argRound_eq : argRound dflt c (m, idx) round =
    let excess := m.p.calls.length + round.calls.length - m.ncalls
    let trimmed := trimBefore dflt excess (withInserted (m.written dflt c round) idx round.calls, idx + round.calls.length)
    ({ p := trimmed.1, ncalls := m.ncalls, next := m.next + round.calls.length }, trimmed.2) := by
  obtain ⟨o, here, ref, -⟩ := round_at.call dflt round
  have shifted := insertBefore_shifted (round_at.objects dflt round) (round_at.inside dflt round) round.calls
  rw [here, Option.map_some, ref] at shifted
  have long := (inserted_plain (round_at.objects dflt round) (round_at.inside dflt round) round.plain).long
  rw [round_at.count dflt round] at long
  unfold Mutator.written at shifted long
  simp only [argRound, shifted, long]
  rfl

theorem argRound_plain : PlainEdits m.p (argRound dflt c (m, idx) round).1.p ∧
    RoundAt c (argRound dflt c (m, idx) round).1 (argRound dflt c (m, idx) round).2 := by
  obtain ⟨o, here, ref, ordinary⟩ := round_at.call dflt round
  have fits := round_at.sound.fits
  have inserted := inserted_plain (round_at.objects dflt round) (round_at.inside dflt round) round.plain
  have long := inserted.long
  rw [round_at.count dflt round] at long
  have behind := inserted.behind idx
  rw [Edits.shifted, if_pos (Nat.le_refl _), here] at behind
  have few : m.p.calls.length + round.calls.length - m.ncalls ≤ round.calls.length := by omega
  obtain ⟨edits, objects, short, o', found, same⟩ := trimBefore_plain inserted.block inserted.objects behind few dflt
  rw [round_at.argRound_eq]
  refine ⟨.head (.args (round_at.same dflt round)) (.head inserted.edit edits), ⟨objects, ?_⟩, o', found, ?_, ?_⟩
  · simp only [short, long]
    omega
  · rw [same.ref, ref]
  · rw [CallObj.name, same.name]
    exact ordinary

end Round

theorem argRounds_plain {c idx : Nat} {m : Mutator} (at_ : RoundAt c m idx) (dflt : ResultId → UInt64)
    (rounds : List ArgRound) :
    PlainEdits m.p (rounds.foldl (argRound dflt c) (m, idx)).1.p ∧ Sound (rounds.foldl (argRound dflt c) (m, idx)).1 := by
  induction rounds generalizing m idx with
  | nil => exact ⟨.refl, at_.sound⟩
  | cons round rest ih =>
    have one := argRound_plain at_ dflt round
    have later := ih one.2
    exact ⟨one.1.trans later.1, later.2⟩

theorem mutateArg_plain {m : Mutator} (sound : Sound m) (ch : ArgChoice) :
    PlainEdits m.p (mutateArg m ch).p ∧ Sound (mutateArg m ch) := by
  unfold mutateArg
  split_ifs
  · exact ⟨.refl, sound⟩
  split
  · exact ⟨.refl, sound⟩
  · rename_i idx chosen
    obtain ⟨o, here, plain⟩ := chosenPlain_spec chosen
    simp only [here]
    exact argRounds_plain ⟨sound, o, here, rfl, plain⟩ ch.dflt ch.rounds

end DfsFuzz.Mutation
