import DfsFuzz.Choice.Available
import DfsFuzz.Choice.Budget

/-!
What the choice picks against what the tree can produce: when every combo picked for a base path
has a path of a compatible type.
-/

namespace DfsFuzz.Choice

open DfsFuzz.Tree DistributedChoiceTable

/-! ### What can be chosen -/

variable {rootCall : String} {cv : CallVariant}

theorem chooseVariant_eligible {dct : DistributedChoiceTable} {draw : Draw} {baseIsFile : Bool}
    {relOKByType : Option RelOK} (chosen : dct.chooseVariant rootCall draw baseIsFile relOKByType = some cv) :
    cv ∈ dct.eligibleVariants rootCall baseIsFile relOKByType := by
  unfold chooseVariant at chosen
  dsimp only at chosen
  generalize pool : (if (dct.unexploredVariants rootCall baseIsFile relOKByType).length > 0 then
    dct.unexploredVariants rootCall baseIsFile relOKByType else dct.eligibleVariants rootCall baseIsFile relOKByType) = cand
    at chosen
  have inside : ∀ v ∈ cand, v ∈ dct.eligibleVariants rootCall baseIsFile relOKByType := by
    intro v member
    rw [← pool] at member
    split at member
    · exact (List.mem_filter.mp member).1
    · exact member
  refine inside cv ?_
  split at chosen
  · cases chosen
  · split at chosen
    · exact List.mem_of_getElem? chosen
    · rcases Option.or_eq_some_iff.mp chosen with picked | ⟨_, last⟩
      · exact WeightedPick.pick_mem picked
      · exact List.mem_of_getLast? last

theorem getInitialWeight_bounds (rootCall : String) (cv : CallVariant) :
    1 ≤ getInitialWeight rootCall cv ∧ getInitialWeight rootCall cv ≤ maxComboWeight := by
  have table : ∀ group ∈ conflictPairs, ∀ pair ∈ group.2, 1 ≤ pair.2 ∧ pair.2 ≤ maxComboWeight := by decide
  unfold getInitialWeight
  cases found : (conflictPairs.lookup rootCall).bind fun group => group.lookup cv.callName with
  | none =>
    rw [Option.getD_none]
    cases cv.pathRelation <;> decide
  | some w =>
    obtain ⟨group, named, listed⟩ := Option.bind_eq_some_iff.mp found
    obtain ⟨_, _, split, _⟩ := List.lookup_eq_some_iff.mp named
    obtain ⟨_, _, split', _⟩ := List.lookup_eq_some_iff.mp listed
    exact table (rootCall, group) (by simp [split]) (cv.callName, w) (by simp [split'])

variable {seedType : String}

theorem weightOf_newTable (root : rootCall ∈ rootCallNames seedType) (member : cv ∈ defaultVariants seedType) :
    0 < (newDistributedChoiceTable seedType).weightOf rootCall cv := by
  unfold weightOf Go.Map.getD
  rw [(newTable_initial root).weights, Option.getD_some,
    Go.Map.lookup_foldl_insert (fun cv => cv) (getInitialWeight rootCall)]
  cases found : (defaultVariants seedType).reverse.find? fun v => v = cv with
  | none =>
    rw [List.find?_eq_none] at found
    exact absurd (decide_eq_true rfl) (found cv (List.mem_reverse.mpr member))
  | some v => simpa using Nat.lt_of_succ_le (getInitialWeight_bounds rootCall v).1

theorem exists_draw (root : rootCall ∈ rootCallNames seedType) (member : cv ∈ defaultVariants seedType)
    {baseIsFile : Bool} {relOKByType : Option RelOK} (allowed : eligible baseIsFile relOKByType cv = true) :
    ∃ draw, (newDistributedChoiceTable seedType).chooseVariant rootCall draw baseIsFile relOKByType = some cv := by
  have candidate : cv ∈ (newDistributedChoiceTable seedType).eligibleVariants rootCall baseIsFile relOKByType := by
    refine List.mem_filter.mpr ⟨?_, allowed⟩
    rw [variantsOf_newTable, if_pos root]
    exact member
  have pooled : cv ∈ (newDistributedChoiceTable seedType).unexploredVariants rootCall baseIsFile relOKByType :=
    @mem_unexplored_of_unrewarded seedType rootCall [] cv List.not_mem_nil baseIsFile relOKByType candidate
  have positive := weightOf_newTable root member
  obtain ⟨x, _, below, picked⟩ := WeightedPick.exists_pick pooled positive 0
  have some_total := WeightedPick.total_pos pooled positive
  rw [Nat.zero_add] at below
  refine ⟨⟨fun n => if n = WeightedPick.total ((newDistributedChoiceTable seedType).weightOf rootCall)
    ((newDistributedChoiceTable seedType).unexploredVariants rootCall baseIsFile relOKByType) then x else 0, ?_⟩, ?_⟩
  · intro n nonzero
    split
    · rename_i same
      rw [same]
      exact below
    · exact nonzero
  · have nonempty := List.length_pos_of_mem pooled
    unfold chooseVariant
    dsimp only
    rw [if_pos nonempty, if_neg (Nat.ne_of_gt nonempty), if_neg (Nat.ne_of_gt some_total), if_pos rfl, picked]
    rfl

/-! ### Picked combos and their paths -/

/-- The path of a combo exists whatever is drawn, and a base that is its own target has the type
the call needs. -/
structure Generatable (ft : FileTree) (basePath : String) (v : CallVariant) : Prop where
  path : ∀ coin draw, getPathByRelation ft basePath "" v.pathRelation coin draw false (callNameConstraint v.callName) ≠ ""
  target : v.pathRelation = .same → ∀ n, ft.findNode basePath = some n →
    nodeMatchesConstraint (ft.node n) (callNameConstraint v.callName) = true

def strategyAfter (seedType : String) (ft : FileTree) (inodeops fileops : List TableOp) : LayeredChoiceStrategy where
  dctInodeops := tableAfter "inodeops" inodeops
  dctFileops := tableAfter "fileops" fileops
  fileTree := some ft
  seedType := seedType

/-- Whatever the feedback was and whatever is drawn, a picked combo other than `mkdir` has a path. -/
def PicksGeneratable (seedType : String) (ft : FileTree) (rootCall basePath : String) : Prop :=
  ∀ inodeops fileops draw v,
    (strategyAfter seedType ft inodeops fileops).chooseConcurrentCallFiltered rootCall draw
      (basePathIsFile ft rootCall basePath) basePath = some v →
    v.callName ≠ "mkdir" → Generatable ft basePath v

/-- What the tree has to offer a base path for every combo to have a path. -/
structure BaseSupports (seedType : String) (ft : FileTree) (rootCall basePath : String) : Prop where
  anchored : Anchored ft basePath
  unrelatedFile : HasUnrelated ft basePath .file
  unrelatedDir : seedType ≠ "fileops" → HasUnrelated ft basePath .dir
  fileBase : basePathIsFile ft rootCall basePath = true → ∀ n, ft.findNode basePath = some n → (ft.node n).type = .file
  dirBase : seedType ≠ "fileops" → basePathIsFile ft rootCall basePath = false →
    ∀ n, ft.findNode basePath = some n → (ft.node n).type ≠ .file

theorem mem_defaultVariants :
    cv ∈ defaultVariants seedType ↔ cv.callName ∈ variantCallNames seedType ∧ cv.pathRelation ∈ relations := by
  unfold defaultVariants
  rw [List.mem_flatMap]
  constructor
  · rintro ⟨callName, named, member⟩
    split at member
    · obtain ⟨src, inside, member⟩ := List.mem_flatMap.mp member
      obtain ⟨tgt, _, member⟩ := List.mem_flatMap.mp member
      split at member
      · obtain rfl := List.mem_singleton.mp member
        exact ⟨named, inside⟩
      · cases member
    · obtain ⟨rel, inside, rfl⟩ := List.mem_map.mp member
      exact ⟨named, inside⟩
  · rintro ⟨named, placed⟩
    refine ⟨cv.callName, named, ?_⟩
    split
    · exact List.mem_flatMap.mpr ⟨_, placed, List.mem_flatMap.mpr ⟨_, placed, by simp⟩⟩
    · exact List.mem_map.mpr ⟨_, placed, rfl⟩

theorem eligible_spec {baseIsFile : Bool} {relOK : RelOK} (notMkdir : cv.callName ≠ "mkdir")
    (allowed : eligible baseIsFile (some relOK) cv = true) :
    relOK (callNameConstraint cv.callName) cv.pathRelation = true ∧
      (cv.pathRelation = .same → callNameConstraint cv.callName = .file → baseIsFile = true) ∧
      (cv.pathRelation = .same → callNameConstraint cv.callName = .dir → baseIsFile = false) := by
  unfold eligible at allowed
  rw [if_neg notMkdir] at allowed
  split at allowed
  · cases allowed
  · rename_i notDoomed
    dsimp only at allowed
    split at allowed
    · cases allowed
    · rename_i available
      split at allowed
      · cases allowed
      · rename_i notFileOnly
        refine ⟨by simpa using available, fun same file => ?_, fun same dir => ?_⟩
        · have fileOnly : isFileOnlyCallByName cv.callName = true := by
            by_contra other
            unfold callNameConstraint at file
            rw [if_neg other] at file
            split at file <;> cases file
          simpa [isFileOnlyVariantRel, fileOnly, same] using notFileOnly
        · have dirOnly : isDirOnlyCall cv.callName = true := by
            by_contra other
            unfold callNameConstraint at dir
            rw [if_neg other] at dir
            split at dir <;> cases dir
          simpa [dirOnly, same] using notDoomed

theorem fileops_no_dirs {callName : String} (named : callName ∈ variantCallNames seedType)
    (dir : callNameConstraint callName = .dir) : seedType ≠ "fileops" := by
  rintro rfl
  have none : ∀ c ∈ variantCallNames "fileops", callNameConstraint c ≠ .dir := by decide
  exact none callName named dir

variable {ft : FileTree} {basePath : String}

theorem HasUnrelated.any {constraint : RelTarget} (unrelated : HasUnrelated ft basePath constraint) :
    HasUnrelated ft basePath .any := by
  obtain ⟨n, inside, below, _, apart⟩ := unrelated
  exact ⟨n, inside, below, rfl, apart⟩

theorem BaseSupports.generatable (linked : Linked ft) (clean : CleanPath basePath)
    (supports : BaseSupports seedType ft rootCall basePath) {v : CallVariant} (member : v ∈ defaultVariants seedType)
    (notMkdir : v.callName ≠ "mkdir")
    (allowed : eligible (basePathIsFile ft rootCall basePath) (some (availableRelationsForBase (some ft) basePath)) v = true) :
    Generatable ft basePath v := by
  obtain ⟨named, placed⟩ := mem_defaultVariants.mp member
  obtain ⟨available, fileOnly, dirOnly⟩ := eligible_spec notMkdir allowed
  constructor
  · intro coin draw
    have place : v.pathRelation = .same ∨ v.pathRelation ∈ [PathRelation.parent, .child, .sibling] ∨ v.pathRelation = .noRel := by
      revert placed
      cases v.pathRelation <;> decide
    rcases place with same | placed | unrelated
    · rw [same]
      have path : getPathByRelation ft basePath "" .same coin draw false (callNameConstraint v.callName) = basePath := by
        unfold getPathByRelation
        simp only [Bool.false_and, Bool.false_eq_true, if_false]
        cases ft.findNode basePath <;> rfl
      rw [path]
      rintro rfl
      exact absurd clean (by decide)
    · exact getPathByRelation_available linked clean placed available coin draw
    · rw [unrelated, getPathByRelation_noRel linked]
      refine ⟨supports.anchored, ?_⟩
      cases constraint : callNameConstraint v.callName with
      | any => exact supports.unrelatedFile.any
      | file => exact supports.unrelatedFile
      | dir => exact supports.unrelatedDir (fileops_no_dirs named constraint)
  · intro same n found
    cases constraint : callNameConstraint v.callName with
    | any => rfl
    | file => exact decide_eq_true (supports.fileBase (fileOnly same constraint) n found)
    | dir => exact decide_eq_true (supports.dirBase (fileops_no_dirs named constraint) (dirOnly same constraint) n found)

theorem variantsOf_getDCT (seedType : String) (ft : FileTree) (inodeops fileops : List TableOp) (rootCall : String) :
    (strategyAfter seedType ft inodeops fileops).getDCT.variantsOf rootCall =
      if rootCall ∈ rootCallNames seedType then defaultVariants seedType else [] := by
  unfold LayeredChoiceStrategy.getDCT strategyAfter
  dsimp only
  split
  · rename_i fileops
    rw [variantsOf_tableAfter, fileops]
  · rename_i other
    rw [variantsOf_tableAfter]
    simp only [rootCallNames, defaultVariants, variantCallNames, if_neg other]
    rfl

theorem exists_pick (root : rootCall ∈ rootCallNames seedType) {v : CallVariant}
    (member : v ∈ defaultVariants seedType)
    (allowed : eligible (basePathIsFile ft rootCall basePath) (some (availableRelationsForBase (some ft) basePath)) v = true) :
    ∃ draw, (strategyAfter seedType ft [] []).chooseConcurrentCallFiltered rootCall draw
      (basePathIsFile ft rootCall basePath) basePath = some v := by
  unfold LayeredChoiceStrategy.chooseConcurrentCallFiltered LayeredChoiceStrategy.getDCT strategyAfter
    chooseVariantFiltered
  dsimp only
  split
  · rename_i fileops
    subst fileops
    exact exists_draw root member allowed
  · rename_i other
    have names : rootCallNames seedType = rootCallNames "inodeops" ∧ defaultVariants seedType = defaultVariants "inodeops" := by
      simp only [rootCallNames, defaultVariants, variantCallNames, if_neg other]
      exact ⟨rfl, rfl⟩
    rw [names.1] at root
    rw [names.2] at member
    exact exists_draw root member allowed

theorem PicksGeneratable.supports (linked : Linked ft) (picks : PicksGeneratable seedType ft rootCall basePath)
    (root : rootCall ∈ rootCallNames seedType) : BaseSupports seedType ft rootCall basePath := by
  obtain ⟨same, noRel⟩ : (∀ target, availableRelationsForBase (some ft) basePath target .same = true) ∧
      ∀ target, availableRelationsForBase (some ft) basePath target .noRel = true :=
    ⟨fun target => (available_same _ _ target).1, fun target => (available_same _ _ target).2⟩
  have generatable : ∀ v ∈ defaultVariants seedType, v.callName ≠ "mkdir" →
      eligible (basePathIsFile ft rootCall basePath) (some (availableRelationsForBase (some ft) basePath)) v = true →
      Generatable ft basePath v := by
    intro v member notMkdir allowed
    obtain ⟨draw, chosen⟩ := exists_pick root member allowed
    exact picks [] [] draw v chosen notMkdir
  have first : Draw := ⟨fun _ => 0, fun _ positive => positive⟩
  -- a file-only call that both tables have, and a directory-only one
  have read : ∀ rel ∈ relations, ⟨"read", rel⟩ ∈ defaultVariants seedType := by
    intro rel placed
    have named : "read" ∈ variantCallNames seedType := by
      unfold variantCallNames
      split <;> decide
    exact mem_defaultVariants.mpr ⟨named, placed⟩
  have rmdir : seedType ≠ "fileops" → ∀ rel ∈ relations, ⟨"rmdir", rel⟩ ∈ defaultVariants seedType := by
    intro other rel placed
    have named : "rmdir" ∈ variantCallNames seedType := by
      unfold variantCallNames
      rw [if_neg other]
      decide
    exact mem_defaultVariants.mpr ⟨named, placed⟩
  have file : callNameConstraint "read" = .file := by decide
  have dir : callNameConstraint "rmdir" = .dir := by decide
  have readNoRel := generatable ⟨"read", .noRel⟩ (read _ (by decide)) (by decide) (by
    unfold eligible
    simp [file, noRel, isFileOnlyVariantRel])
  have unrelated := (getPathByRelation_noRel linked first first _).mp (readNoRel.path first first)
  rw [file] at unrelated
  refine ⟨unrelated.1, unrelated.2, fun other => ?_, fun isFile n found => ?_, fun other isDir n found => ?_⟩
  · have rmdirNoRel := generatable ⟨"rmdir", .noRel⟩ (rmdir other _ (by decide)) (by decide) (by
      unfold eligible
      simp [dir, noRel, isFileOnlyVariantRel])
    have unrelated := (getPathByRelation_noRel linked first first _).mp (rmdirNoRel.path first first)
    rw [dir] at unrelated
    exact unrelated.2
  · have readSame := generatable ⟨"read", .same⟩ (read _ (by decide)) (by decide) (by
      have notDir : isDirOnlyCall "read" = false := by decide
      unfold eligible
      simp [file, same, isFile, notDir])
    have target := readSame.target rfl n found
    rw [file] at target
    exact of_decide_eq_true target
  · have rmdirSame := generatable ⟨"rmdir", .same⟩ (rmdir other _ (by decide)) (by decide) (by
      have notFile : isFileOnlyCallByName "rmdir" = false := by decide
      unfold eligible
      simp [dir, same, isDir, isFileOnlyVariantRel, notFile])
    have target := rmdirSame.target rfl n found
    rw [dir] at target
    exact of_decide_eq_true target

/-- Every combo the choice can pick has a path exactly when the call is no root call of the table
or the tree supports the base. -/
theorem picksGeneratable_iff (seedType : String) {ft : FileTree} (built : Reachable ft) (rootCall : String) {basePath : String}
    (clean : CleanPath basePath) :
    PicksGeneratable seedType ft rootCall basePath ↔
      rootCall ∉ rootCallNames seedType ∨ BaseSupports seedType ft rootCall basePath := by
  constructor
  · intro picks
    by_cases root : rootCall ∈ rootCallNames seedType
    · exact Or.inr (picks.supports built.linked root)
    · exact Or.inl root
  · rintro condition inodeops fileops draw v chosen notMkdir
    have candidate := chooseVariant_eligible chosen
    obtain ⟨member, allowed⟩ := List.mem_filter.mp candidate
    rw [variantsOf_getDCT] at member
    split at member
    · rename_i root
      have supports := condition.resolve_left fun absent => absent root
      exact supports.generatable built.linked clean member notMkdir allowed
    · cases member

theorem picksGeneratable_unrelatedFile :
    PicksGeneratable "fileops" ((Tree.newFileTree.addNode "merge_view/a/f" .file "c1").addNode "merge_view/b/g" .file "c2")
      "open" "merge_view/a/f" := by
  refine (picksGeneratable_iff "fileops" ?_ "open" (by decide)).mpr (Or.inr ⟨Or.inl ⟨2, by decide +kernel⟩, ?_, ?_, ?_, ?_⟩)
  · exact .addNode (.addNode .new (by decide) _ _) (by decide) _ _
  · exact ⟨4, ⟨["b", "g"], by decide +kernel⟩, by decide, by decide +kernel, by decide +kernel⟩
  · exact fun other => absurd rfl other
  · intro _ n found
    obtain rfl : n = 2 := Option.some.inj (found.symm.trans (by decide +kernel))
    decide +kernel
  · exact fun other => absurd rfl other

/-- In a tree with one file, `NoRel` can be picked for it and has no path. -/
theorem picksGeneratable_singleFile :
    let ft := Tree.newFileTree.addNode "merge_view/f" .file "c1"
    Reachable ft ∧ CleanPath "merge_view/f" ∧
      (∃ draw, (strategyAfter "fileops" ft [] []).chooseConcurrentCallFiltered "open" draw
        (basePathIsFile ft "open" "merge_view/f") "merge_view/f" = some ⟨"read", .noRel⟩) ∧
      (∀ coin draw, getPathByRelation ft "merge_view/f" "" .noRel coin draw false (callNameConstraint "read") = "") ∧
      ¬ PicksGeneratable "fileops" ft "open" "merge_view/f" := by
  have picked : ∃ draw, (strategyAfter "fileops" (Tree.newFileTree.addNode "merge_view/f" .file "c1") []
      []).chooseConcurrentCallFiltered "open" draw
        (basePathIsFile (Tree.newFileTree.addNode "merge_view/f" .file "c1") "open" "merge_view/f") "merge_view/f" =
          some ⟨"read", .noRel⟩ :=
    exists_pick (by decide) (by decide) (by decide +kernel)
  have empty : ∀ coin draw, getPathByRelation (Tree.newFileTree.addNode "merge_view/f" .file "c1") "merge_view/f" "" .noRel
      coin draw false (callNameConstraint "read") = "" := by
    intro coin draw
    have found : (Tree.newFileTree.addNode "merge_view/f" .file "c1").findNode "merge_view/f" = some 1 := by decide +kernel
    have none : unrelatedWalk (Tree.newFileTree.addNode "merge_view/f" .file "c1").next
        (Tree.newFileTree.addNode "merge_view/f" .file "c1") (fun nd => nodeMatchesConstraint nd (callNameConstraint "read") &&
          isUnrelated "merge_view/f" nd.fullPath) root = [] := by decide +kernel
    unfold getPathByRelation getRandomUnrelatedPath
    simp only [Bool.false_and, Bool.false_eq_true, if_false, found, none]
    rfl
  refine ⟨.addNode .new (by decide) _ _, by decide, picked, empty, fun picks => ?_⟩
  obtain ⟨draw, chosen⟩ := picked
  exact (picks [] [] draw _ chosen (by decide)).path draw draw (empty draw draw)

end DfsFuzz.Choice
