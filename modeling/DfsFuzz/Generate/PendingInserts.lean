import DfsFuzz.Generate.InsertSound

/-!
The combos that an insertion leaves for the feedback (`PendingInserts` in `prog/distributed_choice.go`), against
what was inserted.
-/

namespace DfsFuzz.Generate

open DfsFuzz.Choice DfsFuzz.Mutation DfsFuzz.Tree

structure InsertedCombo where
  root : String
  variant : CallVariant
deriving DecidableEq

/-! ### Insertions with the combos -/

/-- `insertVariants` with the list: a node that is not skipped appends its combo, whatever the builder gave. -/
def insertVariantsPending (ch : RoundChoice) (ft : FileTree) (rootCallName basePath : String) (insertPos : Nat)
    (refTime : Int64) : List Nat → StashGroup → List InsertedCombo → Option (List Inserted × StashGroup × List InsertedCombo)
  | [], g, pendingInserts => some ([], g, pendingInserts)
  | nodeIdx :: rest, g, pendingInserts =>
    match g.progs[nodeIdx]? with
    | none => some ([], g, pendingInserts)
    | some p =>
      (insertVariant ch ft rootCallName basePath insertPos refTime nodeIdx p g).bind fun (first, g) =>
        let variant := ch.lcs.chooseConcurrentCallFiltered rootCallName (ch.node nodeIdx).variant
          (basePathIsFile ft rootCallName basePath) basePath
        let combos := first.flatMap fun _ => (variant.map fun variant => ⟨rootCallName, variant⟩).toList
        (insertVariantsPending ch ft rootCallName basePath insertPos refTime rest g (pendingInserts ++ combos)).map
          fun (others, g, pendingInserts) => (first ++ others, g, pendingInserts)

/-- `insertCallFromDCT` with the list. -/
def insertCallFromDCTPending (cids : List String) (ch : RoundChoice) (g : StashGroup) (pendingInserts : List InsertedCombo) :
    Option (Bool × List Inserted × StashGroup × List InsertedCombo) :=
  match g.progs[0]? with
  | none => some (false, [], g, pendingInserts)
  | some p0 =>
    cids[0]?.bind fun cid0 => ch.lcs.fileTree.bind fun ft =>
      let insertPos := ch.insertPos.intn (p0.calls.length + 1)
      let rootCallName := chooseRootCallName ch.rootPicks
      let basePath := (drawBasePath ch ft cid0 rootCallName p0.calls).bind (rootPath ch ft cid0 rootCallName)
      if rootCallName = "" then some (false, [], g, pendingInserts)
      else
        match basePath with
        | none => some (false, [], g, pendingInserts)
        | some basePath =>
          (insertRoot ch ft rootCallName basePath insertPos p0 g).bind fun (first, g) =>
            let refTime := rootRefTime ch insertPos p0.calls
            if g.progs.length > cids.length then none
            else
              (insertVariantsPending ch ft rootCallName basePath insertPos refTime (List.range' 1 (g.progs.length - 1)) g
                pendingInserts).map fun (others, g, pendingInserts) => (true, first :: others, g, pendingInserts)

section Forget

theorem insertVariantsPending_forget (ch : RoundChoice) (ft : FileTree) (rootCallName basePath : String) (insertPos : Nat)
    (refTime : Int64) (nodes : List Nat) (g : StashGroup) (pendingInserts : List InsertedCombo) :
    (insertVariantsPending ch ft rootCallName basePath insertPos refTime nodes g pendingInserts).map
      (fun result => (result.1, result.2.1)) = insertVariants ch ft rootCallName basePath insertPos refTime nodes g := by
  induction nodes generalizing g pendingInserts with
  | nil => rfl
  | cons nodeIdx rest ih =>
    rw [insertVariantsPending, insertVariants]
    cases g.progs[nodeIdx]? with
    | none => rfl
    | some p =>
      cases made : insertVariant ch ft rootCallName basePath insertPos refTime nodeIdx p g with
      | none => simp only [made, Option.bind_none, Option.map_none]
      | some result =>
        simp only [made, Option.bind_some, Option.map_map]
        rw [← ih result.2 (pendingInserts ++ result.1.flatMap _), Option.map_map]
        rfl

theorem insertCallFromDCTPending_forget (cids : List String) (ch : RoundChoice) (g : StashGroup)
    (pendingInserts : List InsertedCombo) :
    (insertCallFromDCTPending cids ch g pendingInserts).map (fun result => (result.1, result.2.1, result.2.2.1)) =
      insertCallFromDCT cids ch g := by
  unfold insertCallFromDCTPending insertCallFromDCT
  cases g.progs[0]? with
  | none => rfl
  | some p0 =>
    cases cids[0]? with
    | none => rfl
    | some cid0 =>
      cases ch.lcs.fileTree with
      | none => rfl
      | some ft =>
        dsimp only [Option.bind_some]
        by_cases empty : chooseRootCallName ch.rootPicks = ""
        · rw [if_pos empty, if_pos empty]
          rfl
        · rw [if_neg empty, if_neg empty]
          cases (drawBasePath ch ft cid0 (chooseRootCallName ch.rootPicks) p0.calls).bind
            (rootPath ch ft cid0 (chooseRootCallName ch.rootPicks)) with
          | none => rfl
          | some basePath =>
            dsimp only
            cases insertRoot ch ft (chooseRootCallName ch.rootPicks) basePath (ch.insertPos.intn (p0.calls.length + 1)) p0 g with
            | none => rfl
            | some result =>
              obtain ⟨first, g₁⟩ := result
              dsimp only [Option.bind_some]
              by_cases more : g₁.progs.length > cids.length
              · rw [if_pos more, if_pos more]
                rfl
              · rw [if_neg more, if_neg more, ← insertVariantsPending_forget _ _ _ _ _ _ _ _ pendingInserts, Option.map_map,
                  Option.map_map]
                rfl

end Forget

/-! ### The builder's own list -/

def builtNames : List String :=
  ["open", "close", "read", "write", "pread64", "pwrite64", "truncate", "chmod", "mkdir", "rmdir", "creat", "unlink",
    "rename", "stat", "fsync", "getdents64"]

def holds (calls : List Call) (name : String) : Bool := calls.any fun c => c.name = name

variable {g g' : StashGroup}

theorem onFd_holds {ch : CallChoice} {path : String} {flags : UInt64} {existing : Option ResultId} {useExistFd : Bool}
    {use : Option (ResultId → StashGroup → Call × StashGroup)} {calls : List Call} {name : String}
    (usable : useExistFd = true → existing.isSome = true) (named : ∀ f, use = some f → ∀ fd g, (f fd g).1.name = name)
    (made : onFd ch path flags existing useExistFd use g = some (calls, g')) : holds calls name = true := by
  unfold onFd at made
  split at made
  · rename_i reuse
    obtain ⟨fd, rfl⟩ := Option.isSome_iff_exists.mp (usable reuse)
    obtain ⟨f, given, same⟩ := Option.map_eq_some_iff.mp made
    obtain ⟨rfl, -⟩ := Prod.mk.inj same
    simp [holds, named f given]
  · obtain ⟨f, given, same⟩ := Option.map_eq_some_iff.mp made
    obtain ⟨rfl, -⟩ := Prod.mk.inj same
    simp [holds, named f given]

/-- The builder inserts a call with the name that it is asked for, if the name is on its list. -/
theorem generateCallByName_holds {ch : CallChoice} {callName path path2 : String} {existing : Option ResultId}
    {useExistFd : Bool} {fileSize flags : UInt64} {calls : List Call}
    (usable : isFdRequiredCall callName = true → useExistFd = true → existing.isSome = true)
    (made : generateCallByName ch callName path path2 existing useExistFd fileSize flags g = some (calls, g')) :
    holds calls callName = true ↔ callName ∈ builtNames := by
  by_cases built : callName ∈ builtNames
  · refine iff_of_true ?_ built
    have onDescriptor : ∀ name ∈ ["close", "read", "write", "pread64", "pwrite64", "fsync", "getdents64"],
        isFdRequiredCall name = true := by decide +kernel
    simp only [builtNames, List.mem_cons, List.not_mem_nil, or_false] at built
    unfold generateCallByName at made
    rcases built with rfl | rfl | rfl | rfl | rfl | rfl | rfl | rfl | rfl | rfl | rfl | rfl | rfl | rfl | rfl | rfl
    all_goals simp only [reduceIte, String.reduceEq] at made
    · cases made
      rfl
    · have usable := usable (onDescriptor _ (by decide))
      split at made
      · rename_i reuse
        obtain ⟨fd, rfl⟩ := Option.isSome_iff_exists.mp (usable reuse)
        cases made
        rfl
      · cases made
        rfl
    · obtain ⟨size, -, made⟩ := Option.bind_eq_some_iff.mp made
      refine onFd_holds (usable (onDescriptor _ (by decide))) ?_ made
      rintro f ⟨rfl⟩
      exact fun _ _ => rfl
    · obtain ⟨size, -, made⟩ := Option.bind_eq_some_iff.mp made
      refine onFd_holds (usable (onDescriptor _ (by decide))) ?_ made
      rintro f ⟨rfl⟩
      exact fun _ _ => rfl
    · refine onFd_holds (usable (onDescriptor _ (by decide))) ?_ made
      intro f same
      obtain ⟨info, -, rfl⟩ := Option.map_eq_some_iff.mp same
      exact fun _ _ => rfl
    · refine onFd_holds (usable (onDescriptor _ (by decide))) ?_ made
      intro f same
      obtain ⟨info, -, rfl⟩ := Option.map_eq_some_iff.mp same
      exact fun _ _ => rfl
    · obtain ⟨call, truncated, same⟩ := Option.map_eq_some_iff.mp made
      obtain ⟨len, -, rfl⟩ := Option.map_eq_some_iff.mp truncated
      cases same
      rfl
    · cases made
      rfl
    · cases made
      rfl
    · cases made
      rfl
    · cases made
      rfl
    · cases made
      rfl
    · cases made
      rfl
    · cases made
      rfl
    · refine onFd_holds (usable (onDescriptor _ (by decide))) ?_ made
      rintro f ⟨rfl⟩
      exact fun _ _ => rfl
    · refine onFd_holds (usable (onDescriptor _ (by decide))) ?_ made
      rintro f ⟨rfl⟩
      exact fun _ _ => rfl
  · refine iff_of_false ?_ built
    simp only [builtNames, List.mem_cons, List.not_mem_nil, or_false, not_or] at built
    simp [generateCallByName, built] at made
    simp [holds, made]

/-! ### What is recorded -/

/-- The variant of a node, where one is picked and has a path. -/
def pickedVariant (ch : RoundChoice) (ft : FileTree) (rootCallName basePath : String) (nodeIdx : Nat) : Option CallVariant :=
  (ch.lcs.chooseConcurrentCallFiltered rootCallName (ch.node nodeIdx).variant (basePathIsFile ft rootCallName basePath)
    basePath).filter fun variant => (variantPaths (ch.node nodeIdx) ft basePath variant).isSome

/-- The variant that a round has for a node: none without a root call or a base path. -/
def roundVariant (cids : List String) (ch : RoundChoice) (g : StashGroup) (nodeIdx : Nat) : Option CallVariant :=
  g.progs[0]?.bind fun p0 => cids[0]?.bind fun cid0 => ch.lcs.fileTree.bind fun ft =>
    let rootCallName := chooseRootCallName ch.rootPicks
    if rootCallName = "" then none
    else
      ((drawBasePath ch ft cid0 rootCallName p0.calls).bind (rootPath ch ft cid0 rootCallName)).bind fun basePath =>
        pickedVariant ch ft rootCallName basePath nodeIdx

/-- A combo for each program behind the first one that got a call of its variant, and then the root call in the
first one. -/
structure RecordsInserted (rootCallName : String) (variantOf : Nat → Option CallVariant) (inserted : List Inserted)
    (combos : List InsertedCombo) : Prop where
  entries : List.Forall₂ (fun combo ins => combo.root = rootCallName ∧ variantOf ins.progIdx = some combo.variant) combos
    (inserted.filter fun ins => 0 < ins.progIdx && (variantOf ins.progIdx).any fun variant => holds ins.calls variant.callName)
  root : combos ≠ [] → ∃ ins ∈ inserted, ins.progIdx = 0 ∧ holds ins.calls rootCallName = true

/-- What is appended to the list is what was inserted. -/
def PendingRight (cids : List String) (ch : RoundChoice) (g : StashGroup) (inserted : List Inserted)
    (pendingInserts pendingInserts' : List InsertedCombo) : Prop :=
  ∃ combos, pendingInserts' = pendingInserts ++ combos ∧
    RecordsInserted (chooseRootCallName ch.rootPicks) (roundVariant cids ch g) inserted combos

/-- No node has a variant that the builder does not know, or any variant of such a root call. -/
def AllBuilt (cids : List String) (ch : RoundChoice) (g : StashGroup) : Prop :=
  ∀ nodeIdx variant, 0 < nodeIdx → nodeIdx < g.progs.length → roundVariant cids ch g nodeIdx = some variant →
    variant.callName ≠ "fdatasync" ∧ chooseRootCallName ch.rootPicks ≠ "fdatasync"

/-- The entry that a block left, and whether the block has the call of its variant. -/
structure Recorded (ch : RoundChoice) (ft : FileTree) (rootCallName basePath : String) (nodes : List Nat)
    (combo : InsertedCombo) (ins : Inserted) : Prop where
  root : combo.root = rootCallName
  node : ins.progIdx ∈ nodes
  picked : pickedVariant ch ft rootCallName basePath ins.progIdx = some combo.variant
  built : holds ins.calls combo.variant.callName = true ↔ combo.variant.callName ∈ builtNames

theorem Recorded.among {ch : RoundChoice} {ft : FileTree} {rootCallName basePath : String} {nodes nodes' : List Nat}
    (more : nodes ⊆ nodes') (combo : InsertedCombo) (ins : Inserted) (recorded : Recorded ch ft rootCallName basePath nodes combo ins) :
    Recorded ch ft rootCallName basePath nodes' combo ins :=
  ⟨recorded.root, more recorded.node, recorded.picked, recorded.built⟩

theorem exists_left {α β : Type} {r : α → β → Prop} {xs : List α} {ys : List β} (matched : List.Forall₂ r xs ys) {y : β}
    (member : y ∈ ys) : ∃ x ∈ xs, r x y := by
  induction matched with
  | nil => cases member
  | @cons x y' xs ys first _ ih =>
    rcases List.mem_cons.mp member with rfl | later
    · exact ⟨x, List.mem_cons_self, first⟩
    · obtain ⟨x', inside, related⟩ := ih later
      exact ⟨x', List.mem_cons_of_mem _ inside, related⟩

variable {inserted : List Inserted}

section Round

variable {ch : RoundChoice} {ft : FileTree} {rootCallName basePath : String} {insertPos : Nat} {refTime : Int64}
  (reachable : Reachable ch.lcs)

theorem insertBlock_length (g : StashGroup) (ins : Inserted) : (insertBlock g ins).progs.length = g.progs.length := by
  rw [insertBlock, List.length_modify]

/-- A root call or a variant of the tables that is not built is an `fdatasync`. -/
theorem built_or_fdatasync {name : String} (seedType : String)
    (listed : name ∈ rootCallNames seedType ∨ name ∈ variantCallNames seedType) : name ∈ builtNames ∨ name = "fdatasync" := by
  have tables : ∀ name ∈ rootCallNames "fileops" ++ rootCallNames "" ++ (variantCallNames "fileops" ++ variantCallNames ""),
      name ∈ builtNames ∨ name = "fdatasync" := by decide +kernel
  have other : rootCallNames seedType = rootCallNames "fileops" ∧ variantCallNames seedType = variantCallNames "fileops" ∨
      rootCallNames seedType = rootCallNames "" ∧ variantCallNames seedType = variantCallNames "" := by
    by_cases fileops : seedType = "fileops"
    · rw [fileops]
      exact .inl ⟨rfl, rfl⟩
    · simp only [rootCallNames, variantCallNames, if_neg fileops]
      exact .inr ⟨rfl, rfl⟩
  apply tables
  simp only [List.mem_append]
  rcases other with ⟨roots, variants⟩ | ⟨roots, variants⟩
  · rw [roots, variants] at listed
    exact listed.imp .inl .inl
  · rw [roots, variants] at listed
    exact listed.imp .inr .inr

include reachable

theorem picked_listed {nodeIdx : Nat} {variant : CallVariant}
    (picked : pickedVariant ch ft rootCallName basePath nodeIdx = some variant) :
    (rootCallName ∈ builtNames ∨ rootCallName = "fdatasync") ∧ (variant.callName ∈ builtNames ∨ variant.callName = "fdatasync") := by
  obtain ⟨chosen, -⟩ := Option.filter_eq_some_iff.mp picked
  obtain ⟨seedType, tree, inodeops, fileops, same⟩ := reachable
  rw [same] at chosen
  have listed := (List.mem_filter.mp (chooseVariant_eligible chosen)).1
  rw [variantsOf_getDCT] at listed
  split at listed
  · rename_i root
    exact ⟨built_or_fdatasync seedType (.inl root), built_or_fdatasync seedType (.inr (mem_defaultVariants.mp listed).1)⟩
  · cases listed

theorem insertVariant_picked {nodeIdx : Nat} {p : SeedProg}
    (made : insertVariant ch ft rootCallName basePath insertPos refTime nodeIdx p g = some (inserted, g')) :
    g'.progs.length = g.progs.length ∧
      ((pickedVariant ch ft rootCallName basePath nodeIdx = none ∧ inserted = []) ∨
        ∃ variant ins, pickedVariant ch ft rootCallName basePath nodeIdx = some variant ∧ inserted = [ins] ∧
          ins.progIdx = nodeIdx ∧ (holds ins.calls variant.callName = true ↔ variant.callName ∈ builtNames)) := by
  unfold insertVariant at made
  dsimp only at made
  split at made
  · rename_i none_
    cases made
    exact ⟨rfl, .inl ⟨by rw [pickedVariant, none_]; rfl, rfl⟩⟩
  rename_i variant chosen
  split at made
  · rename_i none_
    cases made
    refine ⟨rfl, .inl ⟨?_, rfl⟩⟩
    rw [pickedVariant, chosen, Option.filter_some, none_]
    rfl
  rename_i path path2 paths
  obtain ⟨⟨calls, g₁⟩, generated, same⟩ := Option.map_eq_some_iff.mp made
  obtain ⟨-, numbers⟩ := generateCallByName_block (variant_ne_close reachable chosen) generated
  cases same
  refine ⟨?_, .inr ⟨variant, _, ?_, rfl, rfl, generateCallByName_holds ?_ generated⟩⟩
  · rw [insertBlock_length, numbers.progs]
  · rw [pickedVariant, chosen, Option.filter_some, paths]
    rfl
  · -- the descriptor is missing only where it is not to be used
    intro required
    rw [variantFd, if_pos required]
    split
    · exact fun _ => rfl
    · split
      · exact id
      · exact id

theorem insertVariantsPending_spec {nodes : List Nat} {pendingInserts pendingInserts' : List InsertedCombo}
    (inside : ∀ nodeIdx ∈ nodes, nodeIdx < g.progs.length)
    (made : insertVariantsPending ch ft rootCallName basePath insertPos refTime nodes g pendingInserts =
      some (inserted, g', pendingInserts')) :
    ∃ combos, pendingInserts' = pendingInserts ++ combos ∧
      List.Forall₂ (Recorded ch ft rootCallName basePath nodes) combos inserted ∧
      ∀ nodeIdx ∈ nodes, (pickedVariant ch ft rootCallName basePath nodeIdx).isSome = true →
        ∃ ins ∈ inserted, ins.progIdx = nodeIdx := by
  induction nodes generalizing g inserted pendingInserts with
  | nil =>
    cases made
    exact ⟨[], (List.append_nil _).symm, .nil, fun _ member => absurd member List.not_mem_nil⟩
  | cons nodeIdx rest ih =>
    rw [insertVariantsPending, List.getElem?_eq_getElem (inside nodeIdx List.mem_cons_self)] at made
    obtain ⟨⟨first, g₁⟩, one, later⟩ := Option.bind_eq_some_iff.mp made
    obtain ⟨⟨others, g₂, pending₂⟩, two, same⟩ := Option.map_eq_some_iff.mp later
    cases same
    obtain ⟨length, own⟩ := insertVariant_picked reachable one
    obtain ⟨combos, appended, matched, all⟩ := ih (fun i member => length ▸ inside i (List.mem_cons_of_mem _ member)) two
    rcases own with ⟨unpicked, rfl⟩ | ⟨variant, ins, picked, rfl, at_node, built⟩
    · refine ⟨combos, ?_, matched.imp (Recorded.among (List.subset_cons_self _ _)), ?_⟩
      · rw [appended, List.flatMap_nil, List.append_nil]
      · intro i member some_
        rcases List.mem_cons.mp member with rfl | behind
        · rw [unpicked] at some_
          cases some_
        · exact all i behind some_
    · refine ⟨⟨rootCallName, variant⟩ :: combos, ?_, .cons ⟨rfl, ?_, ?_, built⟩
        (matched.imp (Recorded.among (List.subset_cons_self _ _))), ?_⟩
      · obtain ⟨chosen, -⟩ := Option.filter_eq_some_iff.mp picked
        rw [appended, chosen, List.append_assoc]
        rfl
      · rw [at_node]
        exact List.mem_cons_self
      · rw [at_node]
        exact picked
      · intro i member some_
        rcases List.mem_cons.mp member with rfl | behind
        · exact ⟨ins, List.mem_cons_self, at_node⟩
        · obtain ⟨ins', inOthers, at_i⟩ := all i behind some_
          exact ⟨ins', List.mem_cons_of_mem _ inOthers, at_i⟩

/-- The record of one round is right just if neither the root call nor a variant is one without a builder. -/
theorem records_iff {nodes : List Nat} (behind : ∀ nodeIdx ∈ nodes, 0 < nodeIdx) {first : Inserted} (atFirst : first.progIdx = 0)
    (root : holds first.calls rootCallName = true ↔ rootCallName ∈ builtNames) {others : List Inserted}
    {combos : List InsertedCombo}
    (matched : List.Forall₂ (Recorded ch ft rootCallName basePath nodes) combos others)
    (all : ∀ nodeIdx ∈ nodes, (pickedVariant ch ft rootCallName basePath nodeIdx).isSome = true →
      ∃ ins ∈ others, ins.progIdx = nodeIdx) :
    RecordsInserted rootCallName (pickedVariant ch ft rootCallName basePath) (first :: others) combos ↔
      ∀ nodeIdx ∈ nodes, ∀ variant, pickedVariant ch ft rootCallName basePath nodeIdx = some variant →
        variant.callName ≠ "fdatasync" ∧ rootCallName ≠ "fdatasync" := by
  have unbuilt : "fdatasync" ∉ builtNames := by decide +kernel
  have dropFirst : ∀ test : Inserted → Bool, (first :: others).filter (fun ins => decide (0 < ins.progIdx) && test ins) =
      others.filter fun ins => decide (0 < ins.progIdx) && test ins := fun test => by simp [atFirst]
  constructor
  · intro records nodeIdx member variant picked
    obtain ⟨ins, inOthers, at_node⟩ := all nodeIdx member (picked ▸ rfl)
    obtain ⟨combo, inCombos, recorded⟩ := exists_left matched inOthers
    have own := recorded.picked
    obtain rfl : combo.variant = variant := Option.some.inj (own.symm.trans (at_node ▸ picked))
    constructor
    · -- as many entries as blocks, so each block has the call of its variant
      have equal := records.entries.length_eq
      rw [dropFirst, matched.length_eq, eq_comm, List.length_filter_eq_length_iff] at equal
      have held := equal ins inOthers
      rw [own, Option.any_some, Bool.and_eq_true] at held
      exact fun same => unbuilt (same ▸ recorded.built.mp held.2)
    · obtain ⟨ins', inserted, at_first, held⟩ := records.root (List.ne_nil_of_mem inCombos)
      rcases List.mem_cons.mp inserted with rfl | late
      · exact fun same => unbuilt (same ▸ root.mp held)
      · obtain ⟨_, _, other⟩ := exists_left matched late
        exact absurd at_first (Nat.ne_of_gt (behind _ other.node))
  · intro builtOnly
    have held : ∀ ins ∈ others, (decide (0 < ins.progIdx) && (pickedVariant ch ft rootCallName basePath ins.progIdx).any
        fun variant => holds ins.calls variant.callName) = true ∧ rootCallName ∈ builtNames := by
      intro ins late
      obtain ⟨combo, -, recorded⟩ := exists_left matched late
      obtain ⟨variantOk, rootOk⟩ := builtOnly _ recorded.node _ recorded.picked
      obtain ⟨rootListed, listed⟩ := picked_listed reachable recorded.picked
      rw [recorded.picked, Option.any_some, Bool.and_eq_true, decide_eq_true_eq]
      exact ⟨⟨behind _ recorded.node, recorded.built.mpr (listed.resolve_right variantOk)⟩, rootListed.resolve_right rootOk⟩
    refine ⟨?_, fun some_ => ⟨first, List.mem_cons_self, atFirst, ?_⟩⟩
    · rw [dropFirst, List.filter_eq_self.mpr fun ins late => (held ins late).1]
      exact matched.imp fun _ _ recorded => ⟨recorded.root, recorded.picked⟩
    · cases matched with
      | nil => exact absurd rfl some_
      | cons _ _ => exact root.mpr (held _ List.mem_cons_self).2

omit reachable in
theorem pending_of_nothing {cids : List String} {pendingInserts pendingInserts' : List InsertedCombo} {success : Bool}
    (unpicked : ∀ nodeIdx, roundVariant cids ch g nodeIdx = none)
    (same : some (false, ([] : List Inserted), g, pendingInserts) = some (success, inserted, g', pendingInserts')) :
    PendingRight cids ch g inserted pendingInserts pendingInserts' ↔ AllBuilt cids ch g := by
  cases same
  refine iff_of_true ⟨[], (List.append_nil _).symm, .nil, fun some_ => absurd rfl some_⟩ fun nodeIdx variant _ _ picked => ?_
  rw [unpicked] at picked
  cases picked

theorem pendingInserts_iff {cids : List String} {g g' : StashGroup} {pendingInserts pendingInserts' : List InsertedCombo}
    {success : Bool} {inserted : List Inserted}
    (made : insertCallFromDCTPending cids ch g pendingInserts = some (success, inserted, g', pendingInserts')) :
    PendingRight cids ch g inserted pendingInserts pendingInserts' ↔ AllBuilt cids ch g := by
  unfold insertCallFromDCTPending at made
  split at made
  · rename_i empty
    exact pending_of_nothing (fun _ => by rw [roundVariant, empty]; rfl) made
  rename_i p0 here
  obtain ⟨cid0, cid, made⟩ := Option.bind_eq_some_iff.mp made
  obtain ⟨ft, tree, made⟩ := Option.bind_eq_some_iff.mp made
  dsimp only at made
  split at made
  · rename_i none_
    exact pending_of_nothing (fun _ => by simp [roundVariant, here, cid, tree, none_]) made
  rename_i some_
  split at made
  · rename_i none_
    exact pending_of_nothing (fun _ => by simp [roundVariant, here, cid, tree, none_]) made
  rename_i basePath based
  obtain ⟨⟨first, g₁⟩, root, made⟩ := Option.bind_eq_some_iff.mp made
  dsimp only at made
  split at made
  · cases made
  obtain ⟨⟨others, g₂, pending₂⟩, variants, same⟩ := Option.map_eq_some_iff.mp made
  cases same
  have round : roundVariant cids ch g = pickedVariant ch ft (chooseRootCallName ch.rootPicks) basePath := by
    funext nodeIdx
    rw [roundVariant, here, Option.bind_some, cid, Option.bind_some, tree, Option.bind_some, if_neg some_, based, Option.bind_some]
  -- the root call
  obtain ⟨⟨calls, g₀⟩, generated, same⟩ := Option.map_eq_some_iff.mp root
  obtain ⟨-, numbers⟩ := generateCallByName_block (chooseRootCallName_ne_close _) generated
  have rootHolds := generateCallByName_holds (fun _ used => used) generated
  obtain ⟨block, grown⟩ := Prod.mk.inj same
  obtain ⟨atFirst, given⟩ : first.progIdx = 0 ∧ first.calls = calls := by
    rw [← block]
    exact ⟨rfl, rfl⟩
  rw [← given] at rootHolds
  -- the variants
  have length : g₁.progs.length = g.progs.length := by
    rw [← grown, insertBlock_length, numbers.progs]
  rw [length] at variants
  have nodes : ∀ nodeIdx, nodeIdx ∈ List.range' 1 (g.progs.length - 1) ↔ 0 < nodeIdx ∧ nodeIdx < g.progs.length := by
    intro nodeIdx
    rw [List.mem_range'_1]
    omega
  obtain ⟨combos, rfl, matched, all⟩ := insertVariantsPending_spec reachable
    (fun nodeIdx member => length ▸ ((nodes nodeIdx).mp member).2) variants
  have whole := records_iff reachable (fun nodeIdx member => ((nodes nodeIdx).mp member).1) atFirst rootHolds matched all
  rw [PendingRight, AllBuilt, round]
  constructor
  · rintro ⟨combos', same, records⟩ nodeIdx variant positive below
    obtain rfl := List.append_cancel_left same
    exact whole.mp records nodeIdx ((nodes nodeIdx).mpr ⟨positive, below⟩) variant
  · intro builtOnly
    refine ⟨combos, rfl, whole.mpr fun nodeIdx member variant => ?_⟩
    obtain ⟨positive, below⟩ := (nodes nodeIdx).mp member
    exact builtOnly nodeIdx variant positive below

end Round

theorem pendingInserts_iff_pread : ∃ success inserted g' combos,
    insertCallFromDCTPending ["a", "b"] preadRound twoProgs [] = some (success, inserted, g', combos) ∧
      PendingRight ["a", "b"] preadRound twoProgs inserted [] combos ∧ combos ≠ [] := by
  have runs : ((insertCallFromDCTPending ["a", "b"] preadRound twoProgs []).map fun result => result.2.2.2.length) = some 1 := by
    decide +kernel
  obtain ⟨⟨success, inserted, g', combos⟩, run, length⟩ := Option.map_eq_some_iff.mp runs
  refine ⟨success, inserted, g', combos, run, (pendingInserts_iff ⟨_, _, _, _, rfl⟩ run).mpr ?_, ?_⟩
  · intro nodeIdx variant positive below picked
    obtain rfl : nodeIdx = 1 := Nat.le_antisymm (Nat.le_of_lt_succ below) positive
    have names : ∀ variant ∈ roundVariant ["a", "b"] preadRound twoProgs 1,
        variant.callName ≠ "fdatasync" ∧ chooseRootCallName preadRound.rootPicks ≠ "fdatasync" := by decide +kernel
    exact names variant picked
  · exact List.ne_nil_of_length_pos (length.symm ▸ Nat.one_pos)

/-- The tables offer `fdatasync` as a root call. Nothing is inserted for it, and the combo is recorded. -/
def fdatasyncRound : RoundChoice := { preadRound with rootPicks := ["fdatasync"] }

theorem fdatasync_recorded : ∃ success inserted g' combos,
    insertCallFromDCTPending ["a", "b"] fdatasyncRound twoProgs [] = some (success, inserted, g', combos) ∧
      ¬ PendingRight ["a", "b"] fdatasyncRound twoProgs inserted [] combos := by
  have runs : ((insertCallFromDCTPending ["a", "b"] fdatasyncRound twoProgs []).map fun result =>
      (decide (result.2.2.2 = []), result.2.1.any fun ins => holds ins.calls "fdatasync")) = some (false, false) := by
    decide +kernel
  obtain ⟨⟨success, inserted, g', combos⟩, run, facts⟩ := Option.map_eq_some_iff.mp runs
  obtain ⟨recorded, absent⟩ := Prod.mk.inj facts
  refine ⟨success, inserted, g', combos, run, ?_⟩
  rintro ⟨combos', rfl, records⟩
  obtain ⟨ins, member, -, held⟩ := records.root (of_decide_eq_false recorded)
  rw [List.any_eq_false] at absent
  exact absent ins member held

end DfsFuzz.Generate
