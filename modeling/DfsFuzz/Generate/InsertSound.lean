import DfsFuzz.Choice.Generate
import DfsFuzz.Generate.OpenFds

/-!
However often a group grows, its references stay unbroken and its descriptors are used while they are
open.
-/

namespace DfsFuzz.Generate

open DfsFuzz.Choice DfsFuzz.Mutation DfsFuzz.Tree

/-! ### One block -/

variable {fresh : ResultId} {path : String} {existing : Option ResultId}

/-- A descriptor that is opened by another call than the block's is not closed by the block. -/
theorem Block.closes_none {calls : List Call} (block : Block fresh path existing calls) {fd : ResultId}
    (other : fd ≠ fresh) {o : CallObj} (member : o.call ∈ calls) : closesFd fd o = false := by
  have useFree : ∀ {fd' : ResultId} {c : Call}, IsUse fd' c → o.call = c → closesFd fd o = false := by
    rintro fd' _ use rfl
    rw [closesFd, CallObj.name, use.notClose, Bool.false_and]
  have refFree : argsRefs o.call.args = [] → closesFd fd o = false := by
    intro refs
    by_contra closes
    rw [Bool.not_eq_false, closesFd, Bool.and_eq_true] at closes
    obtain ⟨use, uses, -⟩ := usesFd_refs closes.2
    rw [refs] at uses
    cases uses
  cases block with
  | plain refs => exact refFree (refs o.call member)
  | reuse known use => exact useFree use (List.mem_singleton.mp member)
  | fresh addr flags use id =>
    simp only [List.mem_cons, List.not_mem_nil, or_false] at member
    rcases member with isOpen | isUse | isClose
    · exact refFree (by rw [isOpen]; rfl)
    · exact useFree use isUse
    · rw [closesFd, isClose]
      simp [usesFd, closeCall, Ne.symm other]

/-- Every reference of the block is to a descriptor that is open there. -/
theorem Block.uses_open {block before : List CallObj} (isBlock : Block fresh path existing (block.map CallObj.call))
    (known : ∀ fd, existing = some fd → OpenAt before fd) (new : ∀ o ∈ before, closesFd fresh o = false) :
    EachAfter (fun front o => ∀ use ∈ argsRefs o.call.args, OpenAt (before ++ front) use.1) block := by
  generalize calls : block.map CallObj.call = cs at isBlock
  cases isBlock with
  | plain refs =>
    intro front o back split use uses
    have member : o.call ∈ cs := by
      rw [← calls, split]
      exact List.mem_map_of_mem (List.mem_append_right _ List.mem_cons_self)
    rw [refs o.call member] at uses
    cases uses
  | @reuse fd here c use =>
    obtain ⟨o, rfl, rfl⟩ := List.map_eq_singleton_iff.mp calls
    rw [EachAfter.singleton, List.append_nil]
    intro ref uses
    obtain ⟨id, rest, args, refs⟩ := use.args
    rw [args, argsRefs, refs, argRefs, List.append_nil, List.mem_singleton] at uses
    rw [uses]
    exact known fd here
  | @fresh addr flags c use id =>
    obtain ⟨o₁, rest, rfl, first, behind⟩ := List.map_eq_cons_iff.mp calls
    obtain ⟨o₂, last, rfl, second, final⟩ := List.map_eq_cons_iff.mp behind
    obtain ⟨o₃, rfl, third⟩ := List.map_eq_singleton_iff.mp final
    rw [← second] at use
    have isOpen : opens o₁.name = true := by
      rw [CallObj.name, first]
      exact show opens "open" = true by decide +kernel
    have ret : o₁.call.ret = some fresh := by
      rw [first]
      rfl
    have quiet : closesFd fresh o₁ = false ∧ closesFd fresh o₂ = false := by
      constructor
      · rw [closesFd, CallObj.name, first]
        exact show (Go.contains "open" "close" && _) = false by rw [show Go.contains "open" "close" = false by decide +kernel]; rfl
      · rw [closesFd, CallObj.name, use.notClose, Bool.false_and]
    rw [EachAfter.cons, EachAfter.cons, EachAfter.singleton]
    refine ⟨?_, ?_, ?_⟩
    · intro ref uses
      rw [first] at uses
      cases uses
    · intro ref uses
      obtain ⟨id, rest, args, refs⟩ := use.args
      rw [args, argsRefs, refs, argRefs, List.append_nil, List.mem_singleton] at uses
      rw [uses]
      refine ⟨⟨o₁, by simp, isOpen, ret⟩, fun o member => ?_⟩
      rcases List.mem_append.mp member with old | own
      · exact new o old
      · exact List.mem_singleton.mp own ▸ quiet.1
    · intro ref uses
      rw [third] at uses
      obtain rfl := List.mem_singleton.mp uses
      refine ⟨⟨o₁, by simp, isOpen, ret⟩, fun o member => ?_⟩
      rcases List.mem_append.mp member with old | own
      · exact new o old
      · simp only [List.mem_cons, List.not_mem_nil, or_false] at own
        rcases own with rfl | rfl
        · exact quiet.1
        · exact quiet.2

theorem insert_sound {out : ResultId → Bool} {before block after : List CallObj}
    (isBlock : Block fresh path existing (block.map CallObj.call))
    (known : ∀ fd, existing = some fd → OpenAt before fd) (below : ∀ id ∈ resultsOf (before ++ after), id < fresh)
    (refs : RefsEarlier out (before ++ after)) (fds : FdsOpen (before ++ after)) :
    RefsEarlier out (before ++ (block ++ after)) ∧ FdsOpen (before ++ (block ++ after)) := by
  -- what the program refers to is older than the block
  have older : ∀ o ∈ before ++ after, ∀ use ∈ argsRefs o.call.args, use.1 < fresh := by
    intro o member use uses
    obtain ⟨front, back, split⟩ := List.append_of_mem member
    obtain ⟨o', inFront, provided⟩ := refs front o back split use uses
    refine below use.1 (List.mem_flatMap.mpr ⟨o', ?_, providers_subset provided⟩)
    rw [split]
    exact List.mem_append_left _ inFront
  have quiet : ∀ o ∈ before, closesFd fresh o = false := by
    intro o member
    by_contra closes
    rw [Bool.not_eq_false, closesFd, Bool.and_eq_true] at closes
    obtain ⟨use, uses, same⟩ := usesFd_refs closes.2
    have less := older o (List.mem_append_left _ member) use uses
    rw [same] at less
    exact Nat.lt_irrefl _ less
  have open_ := isBlock.uses_open known quiet
  constructor
  · refine refs.insert (open_.imp fun front _ o _ holds use uses => ?_) fun front o member holds use uses => ?_
    · obtain ⟨o', inFront, -, ret⟩ := (holds use uses).opened
      exact ⟨o', inFront, by simp [providers, ret]⟩
    · obtain ⟨o', inFront, provided⟩ := holds use uses
      refine ⟨o', ?_, provided⟩
      rcases List.mem_append.mp inFront with early | late
      · exact List.mem_append_left _ early
      · exact List.mem_append_right _ (List.mem_append_right _ late)
  · have inRefs : ∀ {o : CallObj} {id fd v}, o.call.args.head? = some (.result id (some fd) v) → (fd, id) ∈ argsRefs o.call.args :=
      fun head => mem_argsRefs (List.mem_of_mem_head? head) (List.mem_singleton.mpr rfl)
    refine fds.insert (open_.imp fun front _ o _ holds id fd v head => holds _ (inRefs head)) fun front o member holds id fd v head => ?_
    obtain ⟨⟨o', inFront, isOpen, ret⟩, notClosed⟩ := holds id fd v head
    have other : fd ≠ fresh := Nat.ne_of_lt (older o (List.mem_append_right _ member) _ (inRefs head))
    refine ⟨⟨o', ?_, isOpen, ret⟩, fun c inAll => ?_⟩
    · rcases List.mem_append.mp inFront with early | late
      · exact List.mem_append_left _ early
      · exact List.mem_append_right _ (List.mem_append_right _ late)
    · rcases List.mem_append.mp inAll with early | rest
      · exact notClosed c (List.mem_append_left _ early)
      · rcases List.mem_append.mp rest with inBlock | late
        · exact isBlock.closes_none other (List.mem_map_of_mem inBlock)
        · exact notClosed c (List.mem_append_right _ late)

/-! ### A group -/

/-- A group that can grow: every result occurs once, no reference is broken, and descriptors are used
while they are open. -/
structure Growable (out : ResultId → Bool) (g : StashGroup) : Prop where
  once : (groupResults g).Nodup
  made : ∀ id ∈ groupResults g, id < g.next
  unbroken : ∀ p ∈ g.progs, hasBrokenRefs out p.calls = false
  fds : ∀ p ∈ g.progs, FdsOpen p.calls

/-- A call of the block on a descriptor has one whose open or creat names the block's path: a call of
the program before the block, or the block's own open. -/
def NamesPath (front : List CallObj) (path : String) (calls : List Call) : Prop :=
  ∀ c ∈ calls, ∀ id fd v, c.args.head? = some (.result id (some fd) v) →
    (∃ o ∈ front, opens o.name = true ∧ o.call.ret = some fd ∧ extractPathFromCall o.call = path) ∨
      ∃ addr flags, openCall addr path flags 0o666 fd ∈ calls

/-- The block is in its program, in one piece and between the calls that were there. -/
def PlacedIn (g g' : StashGroup) (ins : Inserted) : Prop :=
  ∃ p block, g.progs[ins.progIdx]? = some p ∧ block.map CallObj.call = ins.calls ∧
    g'.progs[ins.progIdx]? = some { p with calls := p.calls.take ins.pos ++ (block ++ p.calls.drop ins.pos) } ∧
    NamesPath (p.calls.take ins.pos) ins.path ins.calls

theorem Block.namesPath {calls : List Call} {front : List CallObj} (block : Block fresh path existing calls)
    (known : ∀ fd, existing = some fd →
      ∃ o ∈ front, opens o.name = true ∧ extractPathFromCall o.call = path ∧ o.call.ret = some fd) :
    NamesPath front path calls := by
  intro c member id fd v head
  have ref : (fd, id) ∈ argsRefs c.args := mem_argsRefs (List.mem_of_mem_head? head) (List.mem_singleton.mpr rfl)
  cases block with
  | plain refs =>
    rw [refs c member] at ref
    cases ref
  | reuse here use =>
    obtain rfl := List.mem_singleton.mp member
    obtain ⟨_, rest, args, -⟩ := use.args
    rw [args] at head
    cases head
    obtain ⟨o, inFront, isOpen, named, ret⟩ := known fd here
    exact .inl ⟨o, inFront, isOpen, ret, named⟩
  | fresh addr flags use closeId =>
    refine .inr ⟨addr, flags, ?_⟩
    have own : fd = fresh := by
      simp only [List.mem_cons, List.not_mem_nil, or_false] at member
      rcases member with rfl | rfl | rfl
      · cases ref
      · obtain ⟨_, rest, args, -⟩ := use.args
        rw [args] at head
        cases head
        rfl
      · cases head
        rfl
    rw [own]
    exact List.mem_cons_self

theorem flatMap_insert_perm {α β : Type} (f : α → List β) (before block after : List α) :
    ((before ++ (block ++ after)).flatMap f).Perm ((before ++ after).flatMap f ++ block.flatMap f) := by
  rw [List.flatMap_append, List.flatMap_append, List.flatMap_append, List.append_assoc]
  exact List.Perm.append_left _ List.perm_append_comm

theorem flatMap_replace_perm {α β : Type} {f : α → List β} {front back : List α} {x x' : α} {new : List β}
    (grown : (f x').Perm (f x ++ new)) : ((front ++ x' :: back).flatMap f).Perm ((front ++ x :: back).flatMap f ++ new) := by
  rw [List.flatMap_append, List.flatMap_append, List.flatMap_cons, List.flatMap_cons, List.append_assoc]
  refine List.Perm.append_left _ ((grown.append_right _).trans ?_)
  rw [List.append_assoc, List.append_assoc]
  exact List.Perm.append_left _ List.perm_append_comm

theorem resultsOf_mapIdx (n : Nat) (calls : List Call) :
    resultsOf (calls.mapIdx fun i call => ⟨n + i, call⟩) = calls.flatMap callResults := by
  have same : (calls.mapIdx fun i call => (⟨n + i, call⟩ : CallObj)).map CallObj.call = calls := by
    refine List.ext_getElem? fun k => ?_
    simp [Option.map_map, Function.comp_def]
  conv_rhs => rw [← same]
  rw [resultsOf, List.flatMap_map]

variable {g : StashGroup}

theorem place_sound {out : ResultId → Bool} {g₁ : StashGroup} (grow : Growable out g) {ins : Inserted} {p : SeedProg}
    (here : g.progs[ins.progIdx]? = some p) (block : Block g.next ins.path existing ins.calls)
    (numbers : Numbers g g₁ ins.calls)
    (known : ∀ fd, existing = some fd → findOpenFdForPath p ins.path ins.pos = some fd) :
    Growable out (insertBlock g₁ ins) ∧ PlacedIn g (insertBlock g₁ ins) ins ∧
      (∀ i, i ≠ ins.progIdx → (insertBlock g₁ ins).progs[i]? = g.progs[i]?) ∧
      (insertBlock g₁ ins).progs.length = g.progs.length := by
  obtain ⟨k, results, next⟩ := numbers.count
  have member : p ∈ g.progs := List.mem_of_getElem? here
  have inside : ins.progIdx < g₁.progs.length := by
    rw [numbers.progs]
    exact (List.getElem?_eq_some_iff.mp here).1
  have once : (resultsOf p.calls).Nodup := (List.nodup_flatMap.mp grow.once).1 p member
  have refs := (unbroken_iff once).mp (grow.unbroken p member)
  have found : ∀ fd, existing = some fd → _ := fun fd same => findOpenFdForPath_spec once refs (known fd same)
  -- the new program
  let new : List CallObj := ins.calls.mapIdx fun i call => ⟨g₁.next + i, call⟩
  have isNew : new.map CallObj.call = ins.calls := by
    refine List.ext_getElem? fun k => ?_
    simp [new, Option.map_map, Function.comp_def]
  have newResults : resultsOf new = List.range' g.next k := (resultsOf_mapIdx g₁.next ins.calls).trans results
  have below : ∀ id ∈ resultsOf p.calls, id < g.next := fun id inProg =>
    grow.made id (List.mem_flatMap.mpr ⟨p, member, inProg⟩)
  have inserted : RefsEarlier out (p.calls.take ins.pos ++ (new ++ p.calls.drop ins.pos)) ∧
      FdsOpen (p.calls.take ins.pos ++ (new ++ p.calls.drop ins.pos)) := by
    refine insert_sound (isNew.symm ▸ block) (fun fd same => (found fd same).1) ?_ ?_ ?_
    · rwa [List.take_append_drop]
    · rwa [List.take_append_drop]
    · rw [List.take_append_drop]
      exact grow.fds p member
  -- the new group
  obtain ⟨front, p', back, split, long, modified⟩ := List.exists_of_modify
    (fun p : SeedProg => { p with calls := Edits.insertAt p.calls ins.pos new }) inside
  have same : p' = p := by
    rw [numbers.progs] at split
    rw [split, List.getElem?_append_right (by omega), long, Nat.sub_self, List.getElem?_cons_zero] at here
    exact Option.some.inj here
  subst same
  have progs : (insertBlock g₁ ins).progs =
      front ++ { p' with calls := p'.calls.take ins.pos ++ (new ++ p'.calls.drop ins.pos) } :: back := modified
  have old : g.progs = front ++ p' :: back := numbers.progs ▸ split
  have perm : (groupResults (insertBlock g₁ ins)).Perm (groupResults g ++ List.range' g.next k) := by
    rw [groupResults, groupResults, progs, old]
    refine flatMap_replace_perm ?_
    have parts := flatMap_insert_perm (fun o : CallObj => callResults o.call) (p'.calls.take ins.pos) new (p'.calls.drop ins.pos)
    rw [List.take_append_drop] at parts
    exact newResults ▸ parts
  have newNext : (insertBlock g₁ ins).next = g.next + k + ins.calls.length := by
    rw [insertBlock, next]
  have newOnce : (groupResults (insertBlock g₁ ins)).Nodup := by
    rw [perm.nodup_iff, List.nodup_append]
    refine ⟨grow.once, List.nodup_range', fun id inOld id' inNew => ?_⟩
    have less := grow.made id inOld
    have more := (List.mem_range'_1.mp inNew).1
    exact Nat.ne_of_lt (Nat.lt_of_lt_of_le less more)
  refine ⟨⟨newOnce, fun id inGroup => ?_, fun q inProgs => ?_, fun q inProgs => ?_⟩, ⟨p', new, here, isNew, ?_, ?_⟩, fun i other => ?_, ?_⟩
  · rw [newNext]
    rcases List.mem_append.mp (perm.mem_iff.mp inGroup) with inOld | inNew
    · have less := grow.made id inOld
      exact Nat.lt_of_lt_of_le less (by omega)
    · have less := (List.mem_range'_1.mp inNew).2
      exact Nat.lt_of_lt_of_le less (by omega)
  · have onceHere := (List.nodup_flatMap.mp newOnce).1 q inProgs
    rw [progs, List.mem_append, List.mem_cons] at inProgs
    rcases inProgs with first | rfl | last
    · exact grow.unbroken q (old ▸ List.mem_append_left _ first)
    · exact (unbroken_iff onceHere).mpr inserted.1
    · exact grow.unbroken q (old ▸ List.mem_append_right _ (List.mem_cons_of_mem _ last))
  · rw [progs, List.mem_append, List.mem_cons] at inProgs
    rcases inProgs with first | rfl | last
    · exact grow.fds q (old ▸ List.mem_append_left _ first)
    · exact inserted.2
    · exact grow.fds q (old ▸ List.mem_append_right _ (List.mem_cons_of_mem _ last))
  · rw [progs, List.getElem?_append_right (by omega), long, Nat.sub_self, List.getElem?_cons_zero]
  · exact block.namesPath fun fd same => (found fd same).2
  · rw [insertBlock, List.getElem?_modify_ne _ _ (Ne.symm other), numbers.progs]
  · rw [insertBlock, List.length_modify, numbers.progs]

/-! ### A round -/

/-- The tables of the strategy have the combos that they start with, whatever the feedback was. -/
def Reachable (lcs : LayeredChoiceStrategy) : Prop := ∃ seedType ft inodeops fileops, lcs = strategyAfter seedType ft inodeops fileops

theorem chooseRootCallName_ne_close (picks : List String) : chooseRootCallName picks ≠ "close" := by
  rw [chooseRootCallName]
  cases found : picks.find? fun name => name ≠ "close" with
  | none => decide
  | some name => simpa using List.find?_some found

theorem variant_ne_close {lcs : LayeredChoiceStrategy} (reachable : Reachable lcs) {rootCallName : String} {draw : Draw}
    {baseIsFile : Bool} {basePath : String} {variant : CallVariant}
    (chosen : lcs.chooseConcurrentCallFiltered rootCallName draw baseIsFile basePath = some variant) : variant.callName ≠ "close" := by
  obtain ⟨seedType, ft, inodeops, fileops, rfl⟩ := reachable
  have listed := (List.mem_filter.mp (chooseVariant_eligible chosen)).1
  rw [variantsOf_getDCT] at listed
  have known : variant.callName ∈ variantCallNames seedType := by
    split at listed
    · exact (mem_defaultVariants.mp listed).1
    · cases listed
  rintro isClose
  rw [isClose, variantCallNames] at known
  split at known <;> simp at known

theorem variantFd_spec (callName path : String) (insertPos : Nat) (alignedPos : Option Nat) (pos : Nat) (p : SeedProg) :
    ∀ fd, (variantFd callName path insertPos alignedPos pos p).2.1 = some fd →
      findOpenFdForPath p path (variantFd callName path insertPos alignedPos pos p).1 = some fd := by
  intro fd same
  unfold variantFd at same ⊢
  split
  · split
    · rename_i found
      simp_all
    · split
      · rename_i none aligned
        simpa [none, aligned, *] using same
      · simp_all
  · rename_i other
    simp [other] at same

/-- What insertions make of a group: at most one block in every program, everything else as it was. -/
structure Grown (out : ResultId → Bool) (g : StashGroup) (inserted : List Inserted) (g' : StashGroup) : Prop where
  growable : Growable out g'
  length : g'.progs.length = g.progs.length
  distinct : (inserted.map Inserted.progIdx).Nodup
  untouched : ∀ i, i ∉ inserted.map Inserted.progIdx → g'.progs[i]? = g.progs[i]?
  placed : ∀ ins ∈ inserted, PlacedIn g g' ins

theorem Grown.nil {out : ResultId → Bool} (grow : Growable out g) : Grown out g [] g :=
  ⟨grow, rfl, List.nodup_nil, fun _ _ => rfl, fun _ member => absurd member List.not_mem_nil⟩

variable {g' : StashGroup}

theorem Grown.append {out : ResultId → Bool} {g'' : StashGroup} {first second : List Inserted}
    (one : Grown out g first g') (two : Grown out g' second g'')
    (apart : List.Disjoint (first.map Inserted.progIdx) (second.map Inserted.progIdx)) :
    Grown out g (first ++ second) g'' := by
  refine ⟨two.growable, two.length.trans one.length, ?_, fun i other => ?_, fun ins member => ?_⟩
  · rw [List.map_append]
    exact List.nodup_append'.mpr ⟨one.distinct, two.distinct, apart⟩
  · rw [List.map_append, List.mem_append, not_or] at other
    rw [two.untouched i other.2, one.untouched i other.1]
  · rcases List.mem_append.mp member with early | late
    · obtain ⟨p, block, here, same, there, named⟩ := one.placed ins early
      exact ⟨p, block, here, same, (two.untouched _ (apart (List.mem_map_of_mem early))).trans there, named⟩
    · obtain ⟨p, block, here, same, there, named⟩ := two.placed ins late
      exact ⟨p, block, (one.untouched _ fun before => apart before (List.mem_map_of_mem late)) ▸ here, same, there, named⟩

theorem Grown.of_place {out : ResultId → Bool} {g₁ : StashGroup} (grow : Growable out g) {ins : Inserted}
    {p : SeedProg} (here : g.progs[ins.progIdx]? = some p) (block : Block g.next ins.path existing ins.calls)
    (numbers : Numbers g g₁ ins.calls)
    (known : ∀ fd, existing = some fd → findOpenFdForPath p ins.path ins.pos = some fd) :
    Grown out g [ins] (insertBlock g₁ ins) := by
  obtain ⟨growable, placed, others, length⟩ := place_sound grow here block numbers known
  refine ⟨growable, length, List.nodup_singleton _, fun i other => others i ?_, fun ins' member => ?_⟩
  · simpa using other
  · exact List.mem_singleton.mp member ▸ placed

variable {inserted : List Inserted}

section Round

variable {out : ResultId → Bool} {ch : RoundChoice} {ft : FileTree} {rootCallName basePath : String} {insertPos : Nat}

theorem insertRoot_grown (notClose : rootCallName ≠ "close") (grow : Growable out g) {p0 : SeedProg}
    (here : g.progs[0]? = some p0) {ins : Inserted}
    (inserted : insertRoot ch ft rootCallName basePath insertPos p0 g = some (ins, g')) :
    Grown out g [ins] g' ∧ ins.progIdx = 0 := by
  obtain ⟨⟨calls, g₁⟩, made, same⟩ := Option.map_eq_some_iff.mp inserted
  obtain ⟨block, numbers⟩ := generateCallByName_block notClose made
  cases same
  refine ⟨.of_place grow here block numbers fun fd same => ?_, rfl⟩
  split at same
  · exact same
  · cases same

variable (reachable : Reachable ch.lcs)

include reachable

theorem insertVariant_grown {refTime : Int64} {nodeIdx : Nat} (grow : Growable out g) {p : SeedProg}
    (here : g.progs[nodeIdx]? = some p)
    (made : insertVariant ch ft rootCallName basePath insertPos refTime nodeIdx p g = some (inserted, g')) :
    Grown out g inserted g' ∧ ∀ ins ∈ inserted, ins.progIdx = nodeIdx := by
  have nothing : some (([] : List Inserted), g) = some (inserted, g') → Grown out g inserted g' ∧ ∀ ins ∈ inserted, ins.progIdx = nodeIdx := by
    intro same
    cases same
    exact ⟨.nil grow, fun _ member => absurd member List.not_mem_nil⟩
  unfold insertVariant at made
  dsimp only at made
  split at made
  · exact nothing made
  rename_i variant chosen
  have notClose := variant_ne_close reachable chosen
  split at made
  · exact nothing made
  rename_i path path2 paths
  obtain ⟨⟨calls, g₁⟩, generated, same⟩ := Option.map_eq_some_iff.mp made
  obtain ⟨block, numbers⟩ := generateCallByName_block notClose generated
  cases same
  refine ⟨.of_place grow here block numbers fun fd same => variantFd_spec _ _ _ _ _ p fd same, fun ins member => ?_⟩
  rw [List.mem_singleton.mp member]

theorem insertVariants_grown {refTime : Int64} {nodes : List Nat} (distinct : nodes.Nodup) (grow : Growable out g)
    (made : insertVariants ch ft rootCallName basePath insertPos refTime nodes g = some (inserted, g')) :
    Grown out g inserted g' ∧ ∀ ins ∈ inserted, ins.progIdx ∈ nodes := by
  induction nodes generalizing g inserted with
  | nil =>
    cases made
    exact ⟨.nil grow, fun _ member => absurd member List.not_mem_nil⟩
  | cons nodeIdx rest ih =>
    rw [insertVariants] at made
    split at made
    · cases made
      exact ⟨.nil grow, fun _ member => absurd member List.not_mem_nil⟩
    · rename_i p here
      obtain ⟨⟨first, g₁⟩, one, later⟩ := Option.bind_eq_some_iff.mp made
      obtain ⟨⟨others, g₂⟩, two, same⟩ := Option.map_eq_some_iff.mp later
      cases same
      obtain ⟨grown, own⟩ := insertVariant_grown reachable grow here one
      obtain ⟨behind, known⟩ := ih (List.nodup_cons.mp distinct).2 grown.growable two
      refine ⟨grown.append behind fun i early late => ?_, fun ins member => ?_⟩
      · obtain ⟨ins, member, rfl⟩ := List.mem_map.mp early
        obtain ⟨ins', member', same⟩ := List.mem_map.mp late
        have inRest := known ins' member'
        rw [same, own ins member] at inRest
        exact (List.nodup_cons.mp distinct).1 inRest
      · rcases List.mem_append.mp member with early | late
        · rw [own ins early]
          exact List.mem_cons_self
        · exact List.mem_cons_of_mem _ (known ins late)

theorem insertCallFromDCT_grown {cids : List String} (grow : Growable out g) {success : Bool}
    (made : insertCallFromDCT cids ch g = some (success, inserted, g')) : Grown out g inserted g' := by
  have nothing {b : Bool} : some (b, ([] : List Inserted), g) = some (success, inserted, g') → Grown out g inserted g' := by
    intro same
    cases same
    exact .nil grow
  unfold insertCallFromDCT at made
  split at made
  · exact nothing made
  rename_i p0 here
  obtain ⟨cid0, -, made⟩ := Option.bind_eq_some_iff.mp made
  obtain ⟨ft, -, made⟩ := Option.bind_eq_some_iff.mp made
  dsimp only at made
  split at made
  · exact nothing made
  split at made
  · exact nothing made
  rename_i basePath _
  obtain ⟨⟨first, g₁⟩, root, made⟩ := Option.bind_eq_some_iff.mp made
  dsimp only at made
  split at made
  · cases made
  obtain ⟨⟨others, g₂⟩, variants, same⟩ := Option.map_eq_some_iff.mp made
  obtain ⟨grown, atFirst⟩ := insertRoot_grown (chooseRootCallName_ne_close _) grow here root
  obtain ⟨behind, known⟩ := insertVariants_grown reachable List.nodup_range' grown.growable variants
  cases same
  refine grown.append behind fun i early late => ?_
  obtain ⟨ins, member, rfl⟩ := List.mem_map.mp early
  obtain ⟨ins', member', same⟩ := List.mem_map.mp late
  have inRest := known ins' member'
  rw [same, List.mem_singleton.mp member, atFirst] at inRest
  exact absurd (List.mem_range'_1.mp inRest).1 (by decide)

end Round

/-- One round after the other, with the group growable after each. -/
inductive GrownBy (out : ResultId → Bool) : StashGroup → List (List Inserted) → StashGroup → Prop
  | nil (g : StashGroup) : GrownBy out g [] g
  | cons {g g' g'' : StashGroup} {inserted : List Inserted} {others : List (List Inserted)} (round : Grown out g inserted g')
    (rest : GrownBy out g' others g'') : GrownBy out g (inserted :: others) g''

theorem insertRounds_grown {out : ResultId → Bool} {cids : List String} {rounds : List RoundChoice}
    (reachable : ∀ ch ∈ rounds, Reachable ch.lcs) {g g' : StashGroup} (grow : Growable out g) {inserted : List (List Inserted)}
    (made : insertRounds cids rounds g = some (inserted, g')) : Growable out g' ∧ GrownBy out g inserted g' := by
  induction rounds generalizing g inserted with
  | nil =>
    cases made
    exact ⟨grow, .nil _⟩
  | cons ch rest ih =>
    obtain ⟨⟨success, first, g₁⟩, one, later⟩ := Option.bind_eq_some_iff.mp made
    obtain ⟨⟨others, g₂⟩, two, same⟩ := Option.map_eq_some_iff.mp later
    cases same
    have grown := insertCallFromDCT_grown (reachable ch List.mem_cons_self) grow one
    obtain ⟨growable, run⟩ := ih (fun ch member => reachable ch (List.mem_cons_of_mem _ member)) grown.growable two
    exact ⟨growable, .cons grown run⟩

/-- The loop of `expandWithDCT` is a number of rounds. -/
theorem expandLoop_grown {out : ResultId → Bool} {cids : List String} {target : Nat} {rounds : List RoundChoice}
    (reachable : ∀ ch ∈ rounds, Reachable ch.lcs) {failed : Nat} (grow : Growable out g)
    (made : expandLoop cids target rounds failed g = some g') :
    ∃ inserted, Growable out g' ∧ GrownBy out g inserted g' := by
  induction rounds generalizing failed g with
  | nil =>
    cases made
    exact ⟨[], grow, .nil _⟩
  | cons ch rest ih =>
    rw [expandLoop] at made
    split at made
    · cases made
      exact ⟨[], grow, .nil _⟩
    · obtain ⟨⟨success, first, g₁⟩, one, later⟩ := Option.bind_eq_some_iff.mp made
      have grown := insertCallFromDCT_grown (reachable ch List.mem_cons_self) grow one
      obtain ⟨others, growable, run⟩ := ih (fun ch member => reachable ch (List.mem_cons_of_mem _ member)) grown.growable later
      exact ⟨first :: others, growable, .cons grown run⟩

theorem expandWithDCT_growable {out : ResultId → Bool} {cids : List String} {target : Draw} {rounds : Nat → RoundChoice}
    (reachable : ∀ i, Reachable (rounds i).lcs) {g g' : StashGroup} (grow : Growable out g)
    (made : expandWithDCT cids target rounds g = some g') : ∃ inserted, Growable out g' ∧ GrownBy out g inserted g' := by
  rw [expandWithDCT] at made
  split at made
  · cases made
    exact ⟨[], grow, .nil _⟩
  · refine expandLoop_grown (fun ch member => ?_) grow made
    obtain ⟨i, -, rfl⟩ := List.mem_map.mp member
    exact reachable i

def openClose (n : Nat) : SeedProg :=
  { calls := [⟨n, openCall 0 "merge_view/f" 2 0o666 n⟩, ⟨n + 1, closeCall (.result (n + 1) (some n) 0)⟩] }

def twoProgs : StashGroup := { progs := [openClose 0, openClose 2], next := 4 }

theorem openClose_fdsOpen (n : Nat) : FdsOpen (openClose n).calls := by
  have opening : opens "open" = true ∧ Go.contains "open" "close" = false := by decide +kernel
  rw [FdsOpen, openClose, EachAfter.cons, EachAfter.singleton]
  refine ⟨fun id fd v head => ?_, fun id fd v head => ?_⟩
  · cases head
  · cases head
    refine ⟨⟨_, List.mem_cons_self, opening.1, rfl⟩, fun o member => ?_⟩
    rw [List.mem_singleton.mp member, closesFd]
    exact Bool.and_eq_false_imp.mpr fun close => absurd (opening.2.symm.trans close) (by decide)

theorem twoProgs_growable : Growable (fun _ => false) twoProgs := by
  refine ⟨by decide, by decide, by decide +kernel, fun p member => ?_⟩
  simp only [twoProgs, List.mem_cons, List.not_mem_nil, or_false] at member
  rcases member with rfl | rfl
  · exact openClose_fdsOpen 0
  · exact openClose_fdsOpen 2

def plainCall : CallChoice where
  draw _ := fixedDraw 0
  data _ := fixedDraw 0
  addr _ := 0
  suffix := "a"
  buffer := .plain 0 8
  count := 8

/-- A round that puts a `pread64` behind the open of the first program. -/
def preadRound : RoundChoice where
  lcs := strategyAfter "fileops" (newFileTree.addNode "merge_view/f" .file "b") [] []
  temporalWeights := ∅
  seedType := "fileops"
  etime _ := none
  tscoff _ := 0
  useFreshPath := false
  candidate := fixedDraw 0
  insertPos := fixedDraw 1
  rootPicks := ["close", "pread64"]
  file := fixedDraw 0
  dir := fixedDraw 0
  otherDir := fixedDraw 0
  bin := false
  suffix := "a"
  root := plainCall
  node _ := { variant := fixedDraw 0, temporal := fixedDraw 0, coin := fixedDraw 0, path := fixedDraw 0,
              unrelated := fixedDraw 0, suffix := "a", call := plainCall }

theorem insertRounds_twoProgs : ∃ inserted g', insertRounds ["a", "b"] [preadRound] twoProgs = some (inserted, g') ∧
    Growable (fun _ => false) g' ∧ GrownBy (fun _ => false) twoProgs inserted g' := by
  have runs : (insertRounds ["a", "b"] [preadRound] twoProgs).isSome = true := by decide +kernel
  obtain ⟨⟨inserted, g'⟩, run⟩ := Option.isSome_iff_exists.mp runs
  refine ⟨inserted, g', run, insertRounds_grown (fun ch member => ?_) twoProgs_growable run⟩
  rw [List.mem_singleton.mp member]
  exact ⟨_, _, _, _, rfl⟩

/-- One round that inserts, and then none that does. -/
def oneRound (i : Nat) : RoundChoice := if i = 0 then preadRound else { preadRound with rootPicks := [] }

theorem expandWithDCT_twoProgs : ∃ g', expandWithDCT ["a", "b"] (fixedDraw 0) oneRound twoProgs = some g' ∧
    ∃ inserted, Growable (fun _ => false) g' ∧ GrownBy (fun _ => false) twoProgs inserted g' := by
  have runs : (expandWithDCT ["a", "b"] (fixedDraw 0) oneRound twoProgs).isSome = true := by decide +kernel
  obtain ⟨g', run⟩ := Option.isSome_iff_exists.mp runs
  refine ⟨g', run, expandWithDCT_growable (fun i => ?_) twoProgs_growable run⟩
  unfold oneRound
  split <;> exact ⟨_, _, _, _, rfl⟩

end DfsFuzz.Generate
