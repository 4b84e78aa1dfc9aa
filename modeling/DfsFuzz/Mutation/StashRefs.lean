import DfsFuzz.Mutation.StashSlots

/-!
The references between the calls of a stash seed. A result object belongs to one call, and later
calls refer to it by arguments of their own; the call builders of `insertStashCall` put the result
object of the open itself into the new call.
-/

namespace DfsFuzz.Mutation

open DfsFuzz.Choice

/-! ### References -/

mutual

/-- The references inside an argument: the result and the object that uses it. -/
def argRefs : Arg → List (ResultId × ResultId)
  | .const _ => []
  | .pointer _ res => optionRefs res
  | .data _ => []
  | .outData _ => []
  | .group inner => argsRefs inner
  | .union option => argRefs option
  | .result _ none _ => []
  | .result id (some res) _ => [(res, id)]

def argsRefs : List Arg → List (ResultId × ResultId)
  | [] => []
  | arg :: rest => argRefs arg ++ argsRefs rest

def optionRefs : Option Arg → List (ResultId × ResultId)
  | none => []
  | some arg => argRefs arg

end

/-- The objects that later calls may refer to: the result and the out-parameters of the call. -/
def providers (out : ResultId → Bool) (call : Call) : List ResultId :=
  call.ret.toList ++ (argsResults call.args).filter out

/-- The owner of a result: the last call that registers it. -/
def ownerOf (out : ResultId → Bool) (calls : List CallObj) (res : ResultId) : Option Nat :=
  ((calls.zipIdx.filter fun entry => res ∈ providers out entry.1.call).map Prod.snd).getLast?

/-- `HasBrokenRefs`; `out` says which result objects are not inputs. -/
def hasBrokenRefs (out : ResultId → Bool) (calls : List CallObj) : Bool :=
  calls.zipIdx.any fun entry => (argsRefs entry.1.call.args).any fun use =>
    match ownerOf out calls use.1 with
    | some ownerIdx => ownerIdx ≥ entry.2
    | none => true

def progResults (p : SeedProg) : List ResultId := p.calls.flatMap fun o => callResults o.call

def groupResults (g : StashGroup) : List ResultId := g.progs.flatMap progResults

/-- The reference discipline: every object occurs once, references go to earlier calls, and the
`uses` sets are their inverse. -/
structure Disciplined (out : ResultId → Bool) (g : StashGroup) : Prop where
  once : (groupResults g).Nodup
  made : ∀ id ∈ groupResults g, id < g.next
  earlier : ∀ p ∈ g.progs, ∀ (i : Nat) o, p.calls[i]? = some o → ∀ use ∈ argsRefs o.call.args,
    ∃ (j : Nat) (o' : CallObj), j < i ∧ p.calls[j]? = some o' ∧ use.1 ∈ providers out o'.call
  uses : ∀ use, use ∈ g.uses ↔ ∃ p ∈ g.progs, ∃ o ∈ p.calls, use ∈ argsRefs o.call.args

theorem providers_subset {out : ResultId → Bool} {call : Call} {id : ResultId} (member : id ∈ providers out call) :
    id ∈ callResults call := by
  rcases List.mem_append.mp member with ret | inner
  · exact List.mem_append_right _ ret
  · exact List.mem_append_left _ (List.mem_of_mem_filter inner)

theorem callResults_unique {calls : List CallObj} (once : (calls.flatMap fun o => callResults o.call).Nodup) {i j : Nat}
    {o o' : CallObj} {id : ResultId} (here : calls[i]? = some o) (there : calls[j]? = some o') (first : id ∈ callResults o.call)
    (second : id ∈ callResults o'.call) : i = j := by
  have apart := (List.nodup_flatMap.mp once).2
  rw [List.pairwise_iff_getElem] at apart
  obtain ⟨hi, rfl⟩ := List.getElem?_eq_some_iff.mp here
  obtain ⟨hj, rfl⟩ := List.getElem?_eq_some_iff.mp there
  rcases Nat.lt_trichotomy i j with before | same | behind
  · exact absurd second (List.disjoint_left.mp (apart i j hi hj before) first)
  · exact same
  · exact absurd first (List.disjoint_left.mp (apart j i hj hi behind) second)

theorem mem_argsRefs {args : List Arg} {arg : Arg} (member : arg ∈ args) {use : ResultId × ResultId} (uses : use ∈ argRefs arg) :
    use ∈ argsRefs args := by
  induction args with
  | nil => cases member
  | cons first rest ih =>
    rcases List.mem_cons.mp member with rfl | later
    · exact List.mem_append_left _ uses
    · exact List.mem_append_right _ (ih later)

section Discipline

variable {out : ResultId → Bool} {g : StashGroup} (disciplined : Disciplined out g)

include disciplined

theorem Disciplined.res_made {p : SeedProg} (member : p ∈ g.progs) {o : CallObj} (inside : o ∈ p.calls)
    {use : ResultId × ResultId} (uses : use ∈ argsRefs o.call.args) : use.1 < g.next := by
  obtain ⟨i, here⟩ := List.getElem?_of_mem inside
  obtain ⟨j, o', _, there, provided⟩ := disciplined.earlier p member i o here use uses
  refine disciplined.made _ (List.mem_flatMap.mpr ⟨p, member, ?_⟩)
  exact List.mem_flatMap.mpr ⟨o', List.mem_of_getElem? there, providers_subset provided⟩

theorem Disciplined.allocated : Allocated g := by
  intro p member o inside id r v arg
  exact disciplined.res_made member inside (mem_argsRefs arg (List.mem_singleton.mpr rfl) : (r, id) ∈ argsRefs o.call.args)

theorem Disciplined.provider_unique {p : SeedProg} (member : p ∈ g.progs) {i j : Nat} {o o' : CallObj} {id : ResultId}
    (here : p.calls[i]? = some o) (there : p.calls[j]? = some o') (first : id ∈ callResults o.call)
    (second : id ∈ callResults o'.call) : i = j :=
  callResults_unique ((List.nodup_flatMap.mp disciplined.once).1 p member) here there first second

theorem Disciplined.unbroken {p : SeedProg} (member : p ∈ g.progs) : hasBrokenRefs out p.calls = false := by
  rw [hasBrokenRefs, List.any_eq_false]
  rintro ⟨o, i⟩ entry
  have here := List.mem_zipIdx_iff_getElem?.mp entry
  rw [Bool.not_eq_true, List.any_eq_false]
  intro use uses
  obtain ⟨j, o', before, there, provided⟩ := disciplined.earlier p member i o here use uses
  -- the one call that provides the result is its owner
  have owner : ownerOf out p.calls use.1 = some j := by
    have only : ∀ k ∈ (p.calls.zipIdx.filter fun entry => use.1 ∈ providers out entry.1.call).map Prod.snd, k = j := by
      intro k found
      obtain ⟨⟨q, _⟩, filtered, rfl⟩ := List.mem_map.mp found
      obtain ⟨entry', provides⟩ := List.mem_filter.mp filtered
      exact disciplined.provider_unique member (List.mem_zipIdx_iff_getElem?.mp entry') there
        (providers_subset (by simpa using provides)) (providers_subset provided)
    have listed : j ∈ (p.calls.zipIdx.filter fun entry => use.1 ∈ providers out entry.1.call).map Prod.snd := by
      refine List.mem_map.mpr ⟨(o', j), List.mem_filter.mpr ⟨List.mem_zipIdx_iff_getElem?.mpr there, ?_⟩, rfl⟩
      simpa using provided
    have nonempty := List.ne_nil_of_mem listed
    rw [ownerOf, List.getLast?_eq_some_getLast nonempty, only _ (List.getLast_mem nonempty)]
  simp only [owner]
  simpa using before

end Discipline

/-! ### When a call is inserted -/

/-- The open that is drawn, among those with a result. -/
def openDrawn (p : SeedProg) (draw : Draw) : Option Nat :=
  let opens := (openIndices p.calls).filter fun i => (fdOfOpen p.calls i).isSome
  opens[draw.intn opens.length]?

/-- A call is inserted: the open that is drawn has a call behind it, and the target has the call
type that is drawn. -/
def Inserts (p : SeedProg) (ch : StashChoice) : Prop :=
  ∃ i, openDrawn p (ch.draw 1) = some i ∧ i + 1 < p.calls.length ∧ ch.has (chosenType (ch.draw 2)) = true

theorem fdRangesFrom_openIdx (calls : List CallObj) (g : StashGroup) (idxs : List Nat) :
    (fdRangesFrom calls g idxs).1.map FdRange.openIdx = idxs.filter fun i => (fdOfOpen calls i).isSome := by
  induction idxs generalizing g with
  | nil => rfl
  | cons openIdx rest ih =>
    unfold fdRangesFrom
    cases found : calls[openIdx]?.bind fun o => o.call.ret with
    | none => simp [fdOfOpen, found, ih]
    | some fd => simp [fdOfOpen, found, ih]

theorem openDrawn_eq (g : StashGroup) (p : SeedProg) (draw : Draw) :
    openDrawn p draw = (chosenRange g p draw).map FdRange.openIdx := by
  have opens := fdRangesFrom_openIdx p.calls g (openIndices p.calls)
  simp only [openDrawn, ← opens, chosenRange, fdRangesOf, List.length_map, List.getElem?_map]

theorem chosenType_mem (draw : Draw) : chosenType draw ∈ stashCallTypes := by
  have inside := draw.lt stashCallTypes.length (by decide)
  rw [chosenType, List.getD_eq_getElem?_getD, List.getElem?_eq_getElem inside]
  exact List.getElem_mem inside

theorem genStashCall_spec {callType : String} (known : callType ∈ stashCallTypes) (ch : StashChoice) (fd : ResultId) :
    if ch.has callType = true then ∃ call, genStashCall callType ch fd = some call ∧ call.args.head? = some (fdArg fd)
    else genStashCall callType ch fd = none := by
  simp only [stashCallTypes, List.mem_cons, List.not_mem_nil, or_false] at known
  rcases known with rfl | rfl | rfl | rfl
  · simp only [genStashCall, if_true, genPwriteCallWithFd]
    split_ifs <;> simp
  · simp only [genStashCall, show "pread64" ≠ "pwrite64" by decide, if_false, if_true, genPreadCallWithFd]
    split_ifs <;> simp [readCall]
  · simp only [genStashCall, show "fsync" ≠ "pwrite64" by decide, show "fsync" ≠ "pread64" by decide, if_false, if_true,
      genFsyncCallWithFd, genSyncCallWithFd]
    split_ifs <;> simp
  · simp only [genStashCall, show "fdatasync" ≠ "pwrite64" by decide, show "fdatasync" ≠ "pread64" by decide,
      show "fdatasync" ≠ "fsync" by decide, if_false, genFdatasyncCallWithFd, genSyncCallWithFd]
    split_ifs <;> simp

/-- The reader's program is another one, so the writer's calls stay. -/
theorem addStashReadVerification_writer (g : StashGroup) (writer : Nat) (ch : StashChoice) (offset length : UInt64) :
    ((addStashReadVerification g writer ch offset length).progs[writer]?).map SeedProg.calls =
      (g.progs[writer]?).map SeedProg.calls := by
  unfold addStashReadVerification
  split
  swap
  · rfl
  rename_i reader readerIdx writerProg chosen _
  split
  · rfl
  have other : readerIdx ≠ writer := by
    have listed := List.mem_of_getElem? chosen
    simp only [readersOf, List.mem_filter, Bool.and_eq_true, decide_eq_true_eq] at listed
    exact listed.2.1.1
  simp only [shiftGeneralFailPos, setCalls, List.getElem?_modify, other, if_false]
  cases g.progs[writer]? with
  | none => rfl
  | some p => by_cases zero : 0 = writer <;> simp [zero]

/-- A successful insertion puts one call with the result object of the open into the program. -/
theorem placeStashCall_inserted {g : StashGroup} {pidx : Nat} {p : SeedProg} (here : g.progs[pidx]? = some p)
    (ch : StashChoice) {range : FdRange} (room : range.openIdx + 1 < range.closeIdx) (callType : String) (newCall : Call) :
    (placeStashCall g pidx p ch range callType newCall).2 = true ∧
      ((placeStashCall g pidx p ch range callType newCall).1.progs[pidx]?).map SeedProg.calls =
        some (Edits.insertAt p.calls (stashInsertPos p range (ch.draw 3) (ch.draw 4)).toNat [⟨g.next, newCall⟩]) := by
  have inside := (List.getElem?_eq_some_iff.mp here).1
  have placed : ((g.progs.set pidx (withCallAt p (stashInsertPos p range (ch.draw 3) (ch.draw 4)) ⟨g.next, newCall⟩))[pidx]?).map
      SeedProg.calls =
        some (Edits.insertAt p.calls (stashInsertPos p range (ch.draw 3) (ch.draw 4)).toNat [⟨g.next, newCall⟩]) := by
    rw [List.getElem?_set_self inside, Option.map_some, withCallAt]
    split_ifs <;> rfl
  unfold placeStashCall
  dsimp only
  rw [if_neg (by omega)]
  split_ifs
  · split
    · exact ⟨rfl, (addStashReadVerification_writer _ _ _ _ _).trans placed⟩
    · exact ⟨rfl, placed⟩
  · exact ⟨rfl, placed⟩

/-- Exactly one call is new in `p`: it refers to a preceding open by a new object, no close of that
file precedes it, and the discipline holds in the whole group again. -/
structure GoodInsert (out : ResultId → Bool) (g : StashGroup) (pidx : Nat) (p : SeedProg) (g' : StashGroup) : Prop where
  inserted : ∃ (p' : SeedProg) (front back : List CallObj) (o : CallObj) (id fd : ResultId) (v : UInt64),
    g'.progs[pidx]? = some p' ∧ p.calls = front ++ back ∧ p'.calls = front ++ o :: back ∧
    o.call.args.head? = some (.result id (some fd) v) ∧ id ∉ groupResults g ∧
    (∃ c ∈ front, Go.contains c.name "open" = true ∧ c.call.ret = some fd) ∧
    ∀ c ∈ front, Go.contains c.name "close" = true → usesFd c.call fd = false
  disciplined : Disciplined out g'
  unbroken : ∀ q ∈ g'.progs, hasBrokenRefs out q.calls = false

theorem eq_of_insertAt {calls front back : List CallObj} {k : Nat} {new o : CallObj} (old : calls = front ++ back)
    (now : Edits.insertAt calls k [new] = front ++ o :: back) : o = new := by
  classical
  have left : (Edits.insertAt calls k [new]).Perm (new :: calls) := by
    have moved := @List.perm_middle _ new (calls.take k) (calls.drop k)
    rwa [List.take_append_drop] at moved
  have right : (front ++ o :: back).Perm (o :: calls) := by
    rw [old]
    exact List.perm_middle
  have same : (new :: calls).Perm (o :: calls) := left.symm.trans (now ▸ right)
  by_contra differ
  have count := same.count_eq o
  rw [List.count_cons_self, List.count_cons_of_ne fun eq => differ eq.symm] at count
  omega

section Insert

variable {out : ResultId → Bool} {g : StashGroup} {pidx : Nat} {p : SeedProg} (disciplined : Disciplined out g)
  (here : g.progs[pidx]? = some p)

include disciplined here

theorem insertStashCall_inserts {ch : StashChoice} (inserts : Inserts p ch) :
    (insertStashCall g pidx p ch).2 = true ∧ ∃ k fd call, call.args.head? = some (fdArg fd) ∧
      ((insertStashCall g pidx p ch).1.progs[pidx]?).map SeedProg.calls =
        some (Edits.insertAt p.calls k [⟨(fdRangesFrom p.calls g (openIndices p.calls)).2.next, call⟩]) := by
  obtain ⟨i, drawn, room, supported⟩ := inserts
  rw [openDrawn_eq g] at drawn
  obtain ⟨range, chosen, rfl⟩ := Option.map_eq_some_iff.mp drawn
  have below := disciplined.allocated p (List.mem_of_getElem? here)
  have toEnd := (chosenRange_spec below chosen).toEnd
  have built := genStashCall_spec (chosenType_mem (ch.draw 2)) ch range.fd
  rw [if_pos supported] at built
  obtain ⟨call, built, head⟩ := built
  have probed := (fdRangesFrom_spec below (openIndices p.calls)).progs
  have placed := placeStashCall_inserted (g := (fdRangesFrom p.calls g (openIndices p.calls)).2) (probed ▸ here) ch
    (show range.openIdx + 1 < range.closeIdx by omega) (chosenType (ch.draw 2)) call
  have unfolded : insertStashCall g pidx p ch =
      placeStashCall (fdRangesFrom p.calls g (openIndices p.calls)).2 pidx p ch range (chosenType (ch.draw 2)) call := by
    rw [insertStashCall, if_neg (by omega)]
    simp only [chosen, built]
  rw [unfolded]
  exact ⟨placed.1, _, range.fd, call, head, placed.2⟩

theorem insertStashCall_refuses {ch : StashChoice} (refused : ¬ Inserts p ch) : (insertStashCall g pidx p ch).2 = false := by
  unfold insertStashCall
  split_ifs
  · rfl
  dsimp only
  split
  · rfl
  rename_i range chosen
  have below := disciplined.allocated p (List.mem_of_getElem? here)
  have toEnd := (chosenRange_spec below chosen).toEnd
  have built := genStashCall_spec (chosenType_mem (ch.draw 2)) ch range.fd
  by_cases supported : ch.has (chosenType (ch.draw 2)) = true
  · rw [if_pos supported] at built
    obtain ⟨call, built, _⟩ := built
    simp only [built]
    have last : ¬ range.openIdx + 1 < p.calls.length := by
      intro room
      exact refused ⟨range.openIdx, by rw [openDrawn_eq g, chosen, Option.map_some], room, supported⟩
    rw [placeStashCall, if_pos (by omega)]
  · rw [if_neg supported] at built
    rw [built]

/-- The insertion is as it should be exactly when nothing is inserted: whatever call goes in carries
the result object of the open where it should carry a reference to it. -/
theorem insertStashCall_refs (ch : StashChoice) :
    ((insertStashCall g pidx p ch).2 = true → GoodInsert out g pidx p (insertStashCall g pidx p ch).1) ↔ ¬ Inserts p ch := by
  constructor
  · intro good inserts
    obtain ⟨success, k, fd, call, head, calls⟩ := insertStashCall_inserts disciplined here inserts
    obtain ⟨p', front, back, o, id, res, v, at_, old, now, first, _⟩ := (good success).inserted
    rw [at_, Option.map_some, now] at calls
    obtain rfl := eq_of_insertAt old (Option.some.inj calls).symm
    rw [head] at first
    cases first
  · intro refused success
    rw [insertStashCall_refuses disciplined here refused] at success
    cases success

end Insert

def openCall : CallObj := ⟨0, { name := "open", ret := some 0 }⟩

/-- A call on a reference of its own to the file. -/
def onFile (id : Nat) (name : String) : CallObj := ⟨id, { name, args := [.result id (some 0) 0] }⟩

def fileUser : SeedProg := { calls := [openCall, onFile 1 "pread64", onFile 2 "close"], isStash := true }

def openReadClose : StashGroup := { progs := [fileUser], uses := [(0, 1), (0, 2)], next := 3 }

theorem openReadClose_disciplined : Disciplined (· = 0) openReadClose := by
  refine ⟨by decide, by decide, ?_, ?_⟩
  · intro p member i o here use uses
    obtain rfl := List.mem_singleton.mp member
    match i with
    | 0 =>
      obtain rfl := Option.some.inj here
      cases uses
    | 1 =>
      obtain rfl := Option.some.inj here
      obtain rfl := List.mem_singleton.mp uses
      exact ⟨0, openCall, by omega, rfl, by decide⟩
    | 2 =>
      obtain rfl := Option.some.inj here
      obtain rfl := List.mem_singleton.mp uses
      exact ⟨0, openCall, by omega, rfl, by decide⟩
    | _ + 3 => cases here
  · intro use
    have listed : openReadClose.uses = (openReadClose.progs.flatMap SeedProg.calls).flatMap fun o => argsRefs o.call.args := by
      decide
    rw [listed]
    simp only [List.mem_flatMap]
    constructor
    · rintro ⟨o, ⟨p, member, inside⟩, uses⟩
      exact ⟨p, member, o, inside, uses⟩
    · rintro ⟨p, member, o, inside, uses⟩
      exact ⟨o, ⟨p, member, inside⟩, uses⟩

/-- An fsync goes behind the read. It carries the result of the open, which so gets a later owner,
and the read that refers to it counts as broken. -/
theorem insertStashCall_embeds :
    (Disciplined (· = 0) openReadClose ∧ openReadClose.progs[0]? = some fileUser ∧
      hasBrokenRefs (· = 0) fileUser.calls = false) ∧
    (insertStashCall openReadClose 0 fileUser (stashChoice [0, 0, 2, 0, 1])).2 = true ∧
    ((insertStashCall openReadClose 0 fileUser (stashChoice [0, 0, 2, 0, 1])).1.progs.map fun q =>
      hasBrokenRefs (· = 0) q.calls) = [true] ∧
    ¬ GoodInsert (· = 0) openReadClose 0 fileUser (insertStashCall openReadClose 0 fileUser (stashChoice [0, 0, 2, 0, 1])).1 := by
  have broken : ((insertStashCall openReadClose 0 fileUser (stashChoice [0, 0, 2, 0, 1])).1.progs.map fun q =>
      hasBrokenRefs (· = 0) q.calls) = [true] := by decide +kernel
  refine ⟨⟨openReadClose_disciplined, rfl, openReadClose_disciplined.unbroken List.mem_cons_self⟩, by decide +kernel, broken,
    fun good => ?_⟩
  have listed : true ∈ (insertStashCall openReadClose 0 fileUser (stashChoice [0, 0, 2, 0, 1])).1.progs.map fun q =>
      hasBrokenRefs (· = 0) q.calls := broken ▸ List.mem_cons_self
  obtain ⟨q, member, isBroken⟩ := List.mem_map.mp listed
  rw [good.unbroken q member] at isBroken
  cases isBroken

def onlyOpen : StashGroup := { progs := [{ calls := [openCall], isStash := true }], next := 1 }

theorem onlyOpen_disciplined : Disciplined (· = 0) onlyOpen := by
  refine ⟨by decide, by decide, ?_, ?_⟩
  · intro p member i o here use uses
    obtain rfl := List.mem_singleton.mp member
    obtain rfl := List.mem_singleton.mp (List.mem_of_getElem? here)
    cases uses
  · intro use
    constructor
    · intro member
      cases member
    · rintro ⟨p, member, o, inside, uses⟩
      obtain rfl := List.mem_singleton.mp member
      obtain rfl := List.mem_singleton.mp inside
      cases uses

theorem insertStashCall_refs_sample :
    Disciplined (· = 0) onlyOpen ∧ ∃ p, onlyOpen.progs[0]? = some p ∧ ¬ Inserts p (stashChoice [0, 0, 2, 0, 0]) ∧
      ((insertStashCall onlyOpen 0 p (stashChoice [0, 0, 2, 0, 0])).2 = true →
        GoodInsert (· = 0) onlyOpen 0 p (insertStashCall onlyOpen 0 p (stashChoice [0, 0, 2, 0, 0])).1) := by
  have refused : ¬ Inserts { calls := [openCall], isStash := true } (stashChoice [0, 0, 2, 0, 0]) := by
    rintro ⟨i, _, room, _⟩
    simp at room
  exact ⟨onlyOpen_disciplined, _, rfl, refused, (insertStashCall_refs onlyOpen_disciplined rfl _).mpr refused⟩

end DfsFuzz.Mutation
