import DfsFuzz.Checker.History

/-!
The verdict of `test_fs_history`. It is held to what `Accepts` says of the entries that it looks at; for those
whose name and metadata are persisted that is only that the snapshot has the path: their checks are run and
not counted. And it does not look at all of them: an entry may lie too deep, or have a path that only starts
with the text of an abandoned one.
-/

namespace DfsFuzz.Checker

open DfsFuzz.Symsc Tally

structure Accepts (cfg : CheckSetup) (lines : List Line) (tested : Entry → Prop) : Prop where
  named : ∀ e, tested e → e.namePersisted = true → Found lines e
  checkable : ∀ e, tested e → e.metaPersisted = true → Checkable cfg lines e
  nameless : ∀ e, tested e → e.namePersisted = false →
    ∃ e', tested e' ∧ e'.namePersisted = false ∧ e'.path = e.path ∧ (e'.metaPersisted = true → Clean cfg lines e')
  neither : ∀ e, tested e → e.namePersisted = false → e.metaPersisted = false → Found lines e ∧ Clean cfg lines e

variable {cfg : CheckSetup} {lines : List Line}

def ofClass (entries : List Entry) (name metadata : Bool) : List Entry :=
  entries.filter fun e => e.namePersisted = name && e.metaPersisted = metadata

def nameless (entries : List Entry) : List Entry := ofClass entries false true ++ ofClass entries false false

theorem mem_ofClass {entries : List Entry} {name metadata : Bool} {e : Entry} :
    e ∈ ofClass entries name metadata ↔ e ∈ entries ∧ e.namePersisted = name ∧ e.metaPersisted = metadata := by
  simp [ofClass]

theorem mem_nameless {entries : List Entry} {e : Entry} : e ∈ nameless entries ↔ e ∈ entries ∧ e.namePersisted = false := by
  rw [nameless, List.mem_append, mem_ofClass, mem_ofClass]
  cases e.metaPersisted <;> simp

theorem caseOne_eq_zero_iff {e : Entry} : caseOne cfg lines e = some 0 ↔ Found lines e ∧ Checkable cfg lines e := by
  rw [caseOne, Option.map_eq_some_iff, ← missing_eq_zero_iff, ← checkLines_isSome_iff, Option.isSome_iff_exists]
  exact ⟨fun ⟨n, run, zero⟩ => ⟨zero, n, run⟩, fun ⟨zero, n, run⟩ => ⟨n, run, zero⟩⟩

theorem caseFour_eq_zero_iff {e : Entry} : caseFour cfg lines e = some 0 ↔ Found lines e ∧ Clean cfg lines e := by
  rw [caseFour, Option.map_eq_some_iff, ← missing_eq_zero_iff, ← checkLines_eq_zero_iff]
  constructor
  · rintro ⟨n, run, sum⟩
    have left := counts_checkLines cfg lines e n run
    have right := missing_nonneg lines e
    obtain rfl : n = 0 := by omega
    exact ⟨by omega, run⟩
  · rintro ⟨found, run⟩
    exact ⟨0, run, by omega⟩

section CaseThree

variable (several : Str → Prop) [DecidablePred several]

def groupPairs (cfg : CheckSetup) (lines : List Line) (l : List Entry) : List (Str × Int) :=
  (l.filter fun e => several e.path).map fun e => (e.path, (groupRet cfg lines e).getD 0)

def singleOf (cfg : CheckSetup) (lines : List Line) (e : Entry) : Option Int :=
  if several e.path then some 0 else singleBugs cfg lines e

/-- The loop of the third case: the groups are filled, and what is not in a group is counted. -/
theorem caseThree_fold {l : List Entry} {g g' : Go.Map Str (List Int)} {b b' : Int} :
    l.foldlM (fun (acc : Go.Map Str (List Int) × Int) e =>
      if several e.path then (groupRet cfg lines e).map fun ret => (acc.1.push e.path ret, acc.2)
      else (singleBugs cfg lines e).map fun n => (acc.1, acc.2 + n)) (g, b) = some (g', b') ↔
    (∀ e ∈ l, several e.path → (groupRet cfg lines e).isSome) ∧ g' = g.pushAll (groupPairs several cfg lines l) ∧
      ∃ n, total (singleOf several cfg lines) l = some n ∧ b' = b + n := by
  induction l generalizing g b with
  | nil =>
    simp only [List.foldlM_nil, pure, Option.some.injEq, Prod.mk.injEq, groupPairs, List.filter_nil, List.map_nil,
      Go.Map.pushAll, List.foldl_nil, total, List.not_mem_nil, false_implies, implies_true, true_and]
    constructor
    · rintro ⟨rfl, rfl⟩
      exact ⟨rfl, 0, rfl, by omega⟩
    · rintro ⟨rfl, n, rfl, rfl⟩
      exact ⟨rfl, by omega⟩
  | cons e l ih =>
    rw [List.foldlM_cons, List.forall_mem_cons]
    by_cases group : several e.path
    · have pairs : groupPairs several cfg lines (e :: l) = (e.path, (groupRet cfg lines e).getD 0) :: groupPairs several cfg lines l := by
        simp [groupPairs, group]
      simp only [group, if_true, forall_true_left, pairs, total_cons_eq_some, singleOf, Go.Map.pushAll, List.foldl_cons]
      cases ret : groupRet cfg lines e with
      | none => simp
      | some n =>
        simp only [Option.map_some, Option.bind_some, bind, ih, Option.isSome_some, true_and, Option.getD_some, Go.Map.pushAll]
        refine and_congr_right fun _ => and_congr_right fun _ => ?_
        constructor
        · rintro ⟨m, later, rfl⟩
          exact ⟨0 + m, ⟨0, m, rfl, later, rfl⟩, by omega⟩
        · rintro ⟨k, ⟨_, m, zero, later, rfl⟩, rfl⟩
          cases zero
          exact ⟨m, later, by omega⟩
    · have pairs : groupPairs several cfg lines (e :: l) = groupPairs several cfg lines l := by
        simp [groupPairs, group]
      simp only [group, if_false, false_implies, pairs, total_cons_eq_some, singleOf, true_and]
      cases ret : singleBugs cfg lines e with
      | none => simp
      | some n =>
        simp only [Option.map_some, Option.bind_some, bind, ih]
        refine and_congr_right fun _ => and_congr_right fun _ => ?_
        constructor
        · rintro ⟨m, later, rfl⟩
          exact ⟨n + m, ⟨n, m, rfl, later, rfl⟩, by omega⟩
        · rintro ⟨k, ⟨_, m, first, later, rfl⟩, rfl⟩
          cases first
          exact ⟨m, later, by omega⟩

theorem mem_groupPairs {l : List Entry} {pair : Str × Int} :
    pair ∈ groupPairs several cfg lines l ↔
      ∃ e ∈ l, several e.path ∧ (e.path, (groupRet cfg lines e).getD 0) = pair := by
  simp [groupPairs, and_assoc]

/-- No group is counted exactly where each has an entry that returns zero. -/
theorem groupBug_zero_iff {l nonameAll : List Entry} (returned : ∀ e ∈ l, several e.path → (groupRet cfg lines e).isSome) :
    (∀ group ∈ (Go.Map.pushAll ∅ (groupPairs several cfg lines l)).items, groupBug cfg lines nonameAll group = some 0) ↔
      ∀ e ∈ l, several e.path → ∃ e' ∈ l, e'.path = e.path ∧ groupRet cfg lines e' = some 0 := by
  have zero : ∀ group : Str × List Int, groupBug cfg lines nonameAll group = some 0 ↔ 0 ∈ group.2 := by
    intro group
    rw [groupBug]
    by_cases has : 0 ∈ group.2
    · rw [if_pos has]
      exact iff_of_true rfl has
    · rw [if_neg has]
      refine iff_of_false (fun same => ?_) has
      obtain ⟨n, -, one⟩ := Option.map_eq_some_iff.mp same
      exact absurd one (by decide)
  constructor
  · intro all e member here
    have pair : (e.path, (groupRet cfg lines e).getD 0) ∈ groupPairs several cfg lines l :=
      (mem_groupPairs several).mpr ⟨e, member, here, rfl⟩
    have inside : ((groupRet cfg lines e).getD 0) ∈
        ((groupPairs several cfg lines l).filter fun x => x.1 = e.path).map Prod.snd :=
      List.mem_map.mpr ⟨_, List.mem_filter.mpr ⟨pair, by simp⟩, rfl⟩
    have group := Go.Map.mem_items_pushAll.mpr ⟨List.ne_nil_of_mem inside, rfl⟩
    have has := (zero _).mp (all _ group)
    obtain ⟨pair', filtered, value⟩ := List.mem_map.mp has
    obtain ⟨member', path⟩ := List.mem_filter.mp filtered
    obtain ⟨e', there, several', rfl⟩ := (mem_groupPairs several).mp member'
    obtain ⟨n, ret⟩ := Option.isSome_iff_exists.mp (returned e' there several')
    rw [ret] at value
    cases value
    exact ⟨e', there, of_decide_eq_true path, ret⟩
  · rintro all ⟨path, rets⟩ group
    obtain ⟨nonempty, rfl⟩ := Go.Map.mem_items_pushAll.mp group
    rw [zero]
    obtain ⟨ret, inside⟩ := List.exists_mem_of_ne_nil _ nonempty
    obtain ⟨pair, filtered, -⟩ := List.mem_map.mp inside
    obtain ⟨member, same⟩ := List.mem_filter.mp filtered
    obtain ⟨e, there, here, rfl⟩ := (mem_groupPairs several).mp member
    have same : e.path = path := of_decide_eq_true same
    obtain ⟨e', there', path', ret'⟩ := all e there here
    refine List.mem_map.mpr ⟨(e'.path, 0), List.mem_filter.mpr ⟨?_, by simp [path', same]⟩, rfl⟩
    exact (mem_groupPairs several).mpr ⟨e', there', path' ▸ here, by rw [ret']; rfl⟩

end CaseThree

theorem singleBugs_nonneg (cfg : CheckSetup) (lines : List Line) : Counts (singleBugs cfg lines) := by
  intro e
  rw [singleBugs]
  refine nonneg_ite (nonNeg_total fun line _ => .map fun ret => ?_)
  split
  · exact Int.one_nonneg
  · exact Int.le_refl 0

theorem singleBugs_eq_zero_iff {e : Entry} : singleBugs cfg lines e = some 0 ↔ (e.metaPersisted = true → Clean cfg lines e) := by
  rw [singleBugs, ite_zero_iff, total_eq_zero_iff fun line _ => .map fun ret => ?_]
  · refine imp_congr_right fun _ => ?_
    simp only [mem_linesAt, and_imp, Clean]
    refine forall₃_congr fun line _ _ => ?_
    rw [← checkAll_eq_zero_iff]
    constructor
    · intro passed
      obtain ⟨ret, run, zero⟩ := Option.map_eq_some_iff.mp passed
      have nonneg := counts_checkAll cfg e.inode line ret run
      split at zero
      · cases zero
      · rename_i small
        rw [run, show ret = 0 by omega]
    · intro run
      rw [run]
      rfl
  · split
    · exact Int.one_nonneg
    · exact Int.le_refl 0

theorem groupRet_isSome_iff {e : Entry} : (groupRet cfg lines e).isSome ↔ (e.metaPersisted = true → Checkable cfg lines e) := by
  rw [groupRet, ← checkLines_isSome_iff]
  split
  · rename_i persisted
    exact ⟨fun run _ => run, fun all => all persisted⟩
  · rename_i not
    exact iff_of_true rfl fun persisted => absurd persisted not

theorem groupRet_eq_zero_iff {e : Entry} : groupRet cfg lines e = some 0 ↔ (e.metaPersisted = true → Clean cfg lines e) := by
  rw [groupRet, ite_zero_iff, checkLines_eq_zero_iff]

section Verdict

variable {entries : List Entry}

/-- Several entries without a persisted name have the path. -/
def Several (entries : List Entry) (path : Str) : Prop := 1 < ((nameless entries).map Entry.path).count path

instance (entries : List Entry) : DecidablePred (Several entries) := fun path =>
  inferInstanceAs (Decidable (1 < ((nameless entries).map Entry.path).count path))

theorem caseThree_eq_some_iff {grp : Go.Map Str (List Int)} {n : Int} :
    caseThree cfg lines (nameless entries) = some (grp, n) ↔
      (∀ e ∈ nameless entries, Several entries e.path → (groupRet cfg lines e).isSome) ∧
      grp = Go.Map.pushAll ∅ (groupPairs (Several entries) cfg lines (nameless entries)) ∧
      total (singleOf (Several entries) cfg lines) (nameless entries) = some n := by
  rw [caseThree]
  refine (caseThree_fold (Several entries)).trans ?_
  refine and_congr_right fun _ => and_congr_right fun _ => ?_
  constructor
  · rintro ⟨m, sum, rfl⟩
    rw [sum, Int.zero_add]
  · intro sum
    exact ⟨n, sum, by omega⟩

theorem singleOf_nonneg (e : Entry) : NonNeg (singleOf (Several entries) cfg lines e) := by
  rw [singleOf]
  split
  · exact .some (Int.le_refl 0)
  · exact singleBugs_nonneg cfg lines e

theorem caseOne_nonneg (e : Entry) : NonNeg (caseOne cfg lines e) := .map fun _ => missing_nonneg lines e

theorem caseTwo_nonneg (e : Entry) : NonNeg (caseTwo lines e) := .some (missing_nonneg lines e)

theorem caseFour_nonneg (e : Entry) : NonNeg (caseFour cfg lines e) := by
  intro k run
  obtain ⟨n, here, rfl⟩ := Option.map_eq_some_iff.mp run
  exact Int.add_nonneg (counts_checkLines cfg lines e n here) (missing_nonneg lines e)

theorem groupBug_nonneg (nonameAll : List Entry) (group : Str × List Int) : NonNeg (groupBug cfg lines nonameAll group) := by
  rw [groupBug]
  split
  · exact .some (Int.le_refl 0)
  · exact .map fun _ => Int.one_nonneg

theorem testEntries_cases : testEntries cfg lines entries = some true ↔
    total (caseOne cfg lines) (ofClass entries true true) = some 0 ∧ total (caseTwo lines) (ofClass entries true false) = some 0 ∧
      (∃ grp, caseThree cfg lines (nameless entries) = some (grp, 0) ∧
        total (groupBug cfg lines (nameless entries)) grp.items = some 0) ∧
      total (caseFour cfg lines) (ofClass entries false false) = some 0 := by
  constructor
  · intro accepted
    obtain ⟨bug1, one, accepted⟩ := Option.bind_eq_some_iff.mp accepted
    obtain ⟨bug2, two, accepted⟩ := Option.bind_eq_some_iff.mp accepted
    obtain ⟨⟨grp, bug3⟩, three, accepted⟩ := Option.bind_eq_some_iff.mp accepted
    obtain ⟨bugGrp, groups, accepted⟩ := Option.bind_eq_some_iff.mp accepted
    obtain ⟨ret, four, accepted⟩ := Option.bind_eq_some_iff.mp accepted
    have sum : bug1 + bug2 + bug3 + bugGrp + (if 0 < ret then 1 else 0) ≤ 0 := of_decide_eq_true (Option.some.inj accepted)
    have one_nonneg := nonNeg_total (fun e _ => caseOne_nonneg e) bug1 one
    have two_nonneg := nonNeg_total (fun e _ => caseTwo_nonneg e) bug2 two
    have three_nonneg := nonNeg_total (fun e _ => singleOf_nonneg e) bug3 (caseThree_eq_some_iff.mp three).2.2
    have groups_nonneg := nonNeg_total (fun group _ => groupBug_nonneg _ group) bugGrp groups
    have four_nonneg := nonNeg_total (fun e _ => caseFour_nonneg e) ret four
    have small : ¬ 0 < ret := by
      intro large
      rw [if_pos large] at sum
      omega
    rw [if_neg small] at sum
    obtain rfl : bug1 = 0 := by omega
    obtain rfl : bug2 = 0 := by omega
    obtain rfl : bug3 = 0 := by omega
    obtain rfl : bugGrp = 0 := by omega
    obtain rfl : ret = 0 := by omega
    exact ⟨one, two, ⟨grp, three, groups⟩, four⟩
  · rintro ⟨one, two, ⟨grp, three, groups⟩, four⟩
    refine Option.bind_eq_some_iff.mpr ⟨0, one, Option.bind_eq_some_iff.mpr ⟨0, two, ?_⟩⟩
    refine Option.bind_eq_some_iff.mpr ⟨(grp, 0), three, Option.bind_eq_some_iff.mpr ⟨0, groups, ?_⟩⟩
    exact Option.bind_eq_some_iff.mpr ⟨0, four, rfl⟩

/-- An entry whose path is not that of several entries is the only one of its path. -/
theorem eq_of_not_several {e e' : Entry} (here : e ∈ nameless entries) (there : e' ∈ nameless entries) (same : e'.path = e.path)
    (few : ¬ Several entries e.path) : e' = e := by
  rw [Several, List.count_eq_countP, List.countP_map, List.countP_eq_length_filter, not_lt] at few
  have inside : e ∈ (nameless entries).filter ((· == e.path) ∘ Entry.path) := List.mem_filter.mpr ⟨here, by simp⟩
  have inside' : e' ∈ (nameless entries).filter ((· == e.path) ∘ Entry.path) := List.mem_filter.mpr ⟨there, by simp [same]⟩
  generalize (nameless entries).filter ((· == e.path) ∘ Entry.path) = alike at *
  rcases alike with _ | ⟨x, _ | ⟨y, rest⟩⟩
  · cases inside
  · rw [List.mem_singleton.mp inside, List.mem_singleton.mp inside']
  · simp only [List.length_cons] at few
    omega

theorem testEntries_iff : testEntries cfg lines entries = some true ↔ Accepts cfg lines (· ∈ entries) := by
  rw [testEntries_cases, total_eq_zero_iff fun e _ => caseOne_nonneg e, total_eq_zero_iff fun e _ => caseTwo_nonneg e,
    total_eq_zero_iff fun e _ => caseFour_nonneg e]
  have third : (∃ grp, caseThree cfg lines (nameless entries) = some (grp, 0) ∧
      total (groupBug cfg lines (nameless entries)) grp.items = some 0) ↔
      (∀ e ∈ nameless entries, Several entries e.path → (groupRet cfg lines e).isSome) ∧
      (∀ e ∈ nameless entries, Several entries e.path → ∃ e' ∈ nameless entries, e'.path = e.path ∧ groupRet cfg lines e' = some 0) ∧
      ∀ e ∈ nameless entries, singleOf (Several entries) cfg lines e = some 0 := by
    simp only [caseThree_eq_some_iff]
    constructor
    · rintro ⟨grp, ⟨returned, rfl, single⟩, groups⟩
      refine ⟨returned, ?_, (total_eq_zero_iff fun e _ => singleOf_nonneg e).mp single⟩
      exact (groupBug_zero_iff _ returned).mp ((total_eq_zero_iff fun group _ => groupBug_nonneg _ group).mp groups)
    · rintro ⟨returned, groups, single⟩
      refine ⟨_, ⟨returned, rfl, (total_eq_zero_iff fun e _ => singleOf_nonneg e).mpr single⟩, ?_⟩
      exact (total_eq_zero_iff fun group _ => groupBug_nonneg _ group).mpr ((groupBug_zero_iff _ returned).mpr groups)
  rw [third]
  simp only [mem_ofClass, caseOne_eq_zero_iff, caseFour_eq_zero_iff, groupRet_isSome_iff, groupRet_eq_zero_iff]
  constructor
  · rintro ⟨one, two, ⟨returned, groups, single⟩, four⟩
    have passes {e : Entry} (member : e ∈ nameless entries) (few : ¬ Several entries e.path) :
        e.metaPersisted = true → Clean cfg lines e := by
      have counted := single e member
      rw [singleOf, if_neg few] at counted
      exact singleBugs_eq_zero_iff.mp counted
    constructor
    case named =>
      intro e member name
      cases metadata : e.metaPersisted with
      | true => exact (one e ⟨member, name, metadata⟩).1
      | false => exact missing_eq_zero_iff.mp (Option.some.inj (two e ⟨member, name, metadata⟩))
    case checkable =>
      intro e member metadata
      cases name : e.namePersisted with
      | true => exact (one e ⟨member, name, metadata⟩).2
      | false =>
        have nameless_ := mem_nameless.mpr ⟨member, name⟩
        by_cases several : Several entries e.path
        · exact returned e nameless_ several metadata
        · exact (passes nameless_ several metadata).checkable
    case nameless =>
      intro e member name
      have nameless_ := mem_nameless.mpr ⟨member, name⟩
      by_cases several : Several entries e.path
      · obtain ⟨e', there, path, clean⟩ := groups e nameless_ several
        obtain ⟨member', name'⟩ := mem_nameless.mp there
        exact ⟨e', member', name', path, clean⟩
      · exact ⟨e, member, name, rfl, passes nameless_ several⟩
    case neither =>
      intro e member name metadata
      exact four e ⟨member, name, metadata⟩
  · intro accepts
    have group {e : Entry} (there : e ∈ nameless entries) :
        ∃ e' ∈ nameless entries, e'.path = e.path ∧ (e'.metaPersisted = true → Clean cfg lines e') := by
      obtain ⟨member, name⟩ := mem_nameless.mp there
      obtain ⟨e', member', name', path, clean⟩ := accepts.nameless e member name
      exact ⟨e', mem_nameless.mpr ⟨member', name'⟩, path, clean⟩
    refine ⟨fun e class_ => ⟨accepts.named e class_.1 class_.2.1, accepts.checkable e class_.1 class_.2.2⟩,
      fun e class_ => congrArg some (missing_eq_zero_iff.mpr (accepts.named e class_.1 class_.2.1)),
      ⟨fun e there _ => accepts.checkable e (mem_nameless.mp there).1, fun e there _ => group there, fun e there => ?_⟩,
      fun e class_ => accepts.neither e class_.1 class_.2.1 class_.2.2⟩
    rw [singleOf]
    split
    · rfl
    · rename_i few
      obtain ⟨e', there', path, clean⟩ := group there
      rw [eq_of_not_several there there' path few] at clean
      exact singleBugs_eq_zero_iff.mpr clean

end Verdict

section Oracle

/-- The path is one of those, or lies below one. -/
def AtOrBelow (gone : Str → Prop) (path : Str) : Prop := ∃ top, gone top ∧ (path = top ∨ top ++ ['/'] <+: path)

/-- An entry of the emulated tree whose name and metadata are persisted, on a path that is not gone. -/
structure MustMatch (s : State) (gone : Str → Prop) (e : Entry) : Prop where
  emulated : Emulated s e
  name : e.namePersisted = true
  metadata : e.metaPersisted = true
  expected : ¬ AtOrBelow gone e.path

/-- An accepted snapshot has every entry that must match, and the checks return 0 on each of its lines. -/
def OracleSound (cfg : CheckSetup) (lines : List Line) (s : State) : Prop :=
  testFsHistory cfg lines s = some true →
    ∀ l, entryList s = some l → ∀ e, MustMatch s (fun path => ∃ tup ∈ abandonList lines l, tup.1 = path) e →
      Found lines e ∧ Clean cfg lines e

/-- The test looks at the entry: it lies among those that are listed, its path starts with the text of no abandoned
one, and its name is not that of the root. -/
structure InSight (lines : List Line) (l : List Entry) (e : Entry) : Prop where
  listed : e ∈ l
  kept : ∀ gone, Abandoned lines l gone → ¬ gone <+: e.path
  name : e.cur.2 ≠ ['.']

inductive Overlooked (cfg : CheckSetup) (lines : List Line) (l : List Entry) (e : Entry) : Prop
  | differs {line : Line} (here : line ∈ lines) (path : line.path = e.path) (fails : ¬ Passes cfg e.inode line)
  | absent (unseen : ¬ InSight lines l e) (missing : ¬ Found lines e)

/-- Where nothing that is counted differs, nothing else does. -/
def NothingOverlooked (cfg : CheckSetup) (lines : List Line) (s : State) (l : List Entry) : Prop :=
  Accepts cfg lines (InSight lines l) → ∀ e, MustMatch s (Abandoned lines l) e → ¬ Overlooked cfg lines l e

variable {s : State} {l : List Entry}

theorem mem_finalEntries {e : Entry} :
    e ∈ (finalEntries lines l).filter (fun e => e.cur.2 ≠ ['.']) ↔ InSight lines l e := by
  have cut : CutOff (abandonList lines l) e.path ↔ ∃ gone, Abandoned lines l gone ∧ gone <+: e.path := by
    simp only [← mem_abandonList]
    constructor
    · rintro ⟨tup, member, starts⟩
      exact ⟨tup.1, ⟨tup, member, rfl⟩, starts⟩
    · rintro ⟨_, ⟨tup, member, rfl⟩, starts⟩
      exact ⟨tup, member, starts⟩
  simp only [finalEntries_eq, List.mem_filter, decide_eq_true_eq, cut, not_exists, not_and]
  exact ⟨fun seen => ⟨seen.1.1, seen.1.2, seen.2⟩, fun seen => ⟨⟨seen.listed, seen.kept⟩, seen.name⟩⟩

theorem testFsHistory_iff (listed : entryList s = some l) :
    testFsHistory cfg lines s = some true ↔ Accepts cfg lines (InSight lines l) := by
  rw [testFsHistory, listed]
  refine testEntries_iff.trans ?_
  simp only [mem_finalEntries]

/-- Found is an entry that must match, if the test looks at it; and the others are missed where they are not there. -/
theorem nothingOverlooked_iff (accepts : Accepts cfg lines (InSight lines l)) :
    (∀ e, MustMatch s (Abandoned lines l) e → Found lines e ∧ Clean cfg lines e) ↔
      ∀ e, MustMatch s (Abandoned lines l) e → ¬ Overlooked cfg lines l e := by
  refine forall₂_congr fun e must => ?_
  constructor
  · rintro ⟨found, clean⟩ overlooked
    cases overlooked with
    | differs here path fails => exact fails (clean _ here path)
    | absent unseen missing => exact missing found
  · intro nothing
    constructor
    · by_contra missing
      by_cases seen : InSight lines l e
      · exact missing (accepts.named e seen must.name)
      · exact nothing (.absent seen missing)
    · intro line here path
      by_contra fails
      exact nothing (.differs here path fails)

theorem oracleSound_listed (cfg : CheckSetup) (lines : List Line) (s : State) :
    OracleSound cfg lines s ↔ ∀ l, entryList s = some l → NothingOverlooked cfg lines s l := by
  simp only [OracleSound, mem_abandonList]
  constructor
  · intro sound l listed accepts
    exact (nothingOverlooked_iff accepts).mp (sound ((testFsHistory_iff listed).mpr accepts) l listed)
  · intro nothing accepted l listed
    have accepts := (testFsHistory_iff listed).mp accepted
    exact (nothingOverlooked_iff accepts).mpr (nothing l listed accepts)

/-- The oracle is sound exactly where nothing is overlooked: in a tree, of its upper levels; where a tuple is found
again below itself, of what the traversal lists. -/
theorem oracleSound_iff (cfg : CheckSetup) (lines : List Line) (s : State) :
    (IsTree s → (OracleSound cfg lines s ↔ (Readable s (maxDfsDepth + 1) rootTup →
      NothingOverlooked cfg lines s (upperLevels s (maxDfsDepth + 1))))) ∧
    (¬ IsTree s → (OracleSound cfg lines s ↔ ∀ l, entryList s = some l → NothingOverlooked cfg lines s l)) := by
  refine ⟨fun tree => ?_, fun _ => oracleSound_listed cfg lines s⟩
  rw [oracleSound_listed]
  simp only [entryList_eq_some_iff tree, and_imp]
  exact ⟨fun all readable => all _ readable rfl, fun all l readable same => same ▸ all readable⟩

/-- `./f` is created, and everything is written to the disk. -/
def syncedProgram : Parsed := pathProgram [("v0", "./f")] [callOf "SYS_creat" ["v0", "511"] "v1", callOf "SYS_sync" [] ""]

/-- The line of `./f` with a size. -/
def sizedLine (size : String) : Line :=
  ⟨"./f".toList, ["1", "1", "1", size, "4096", "0", "755", "0", "", ""].map String.toList⟩

def plainChecks : CheckSetup := ⟨asciiWords, false, StreamSum.crc32⟩

theorem accepts_other_size :
    ∃ s g, Reachable (plainSetup syncedProgram) syncedProgram 1 s g ∧ ¬ OracleSound plainChecks [sizedLine "5"] s := by
  have computed : ((runCalls (plainSetup syncedProgram) [0, 1] (initState syncedProgram 1, {})).bind fun now =>
      (entryList now.1).bind fun l => (upperLevels now.1 2)[1]?.map fun e =>
        decide (testFsHistory plainChecks [sizedLine "5"] now.1 = some true ∧ e.namePersisted = true ∧ e.metaPersisted = true ∧
          abandonList [sizedLine "5"] l = [] ∧ e.path = "./f".toList ∧
          checkMeta asciiWords false e.inode (sizedLine "5").fields = some 1)) = some true := by
    decide +kernel
  obtain ⟨now, run, computed⟩ := Option.bind_eq_some_iff.mp computed
  obtain ⟨l, listed, computed⟩ := Option.bind_eq_some_iff.mp computed
  obtain ⟨e, here, computed⟩ := Option.map_eq_some_iff.mp computed
  obtain ⟨accepted, name, metadata, nothing, path, differs⟩ := of_decide_eq_true computed
  refine ⟨now.1, now.2, reachable_runCalls .init run, fun sound => ?_⟩
  have must : MustMatch now.1 (fun path => ∃ tup ∈ abandonList [sizedLine "5"] l, tup.1 = path) e := by
    refine ⟨⟨2, List.mem_of_getElem? here⟩, name, metadata, ?_⟩
    rw [nothing]
    rintro ⟨_, ⟨tup, member, -⟩, -⟩
    cases member
  have clean := (sound accepted l listed e must).2
  have passes := (clean (sizedLine "5") List.mem_cons_self path.symm).metadata
  exact absurd (differs.symm.trans passes) (by decide)

/-- With the size that the file has, the snapshot is accepted, and nothing is overlooked. -/
theorem oracleSound_synced :
    ∃ s g, Reachable (plainSetup syncedProgram) syncedProgram 1 s g ∧ IsTree s ∧
      testFsHistory plainChecks [sizedLine "0"] s = some true ∧ (∃ e, MustMatch s (Abandoned [sizedLine "0"] (upperLevels s 51)) e) ∧
      OracleSound plainChecks [sizedLine "0"] s := by
  have computed : ((runCalls (plainSetup syncedProgram) [0, 1] (initState syncedProgram 1, {})).bind fun now =>
      (upperLevels now.1 2)[1]?.map fun f =>
        decide (testFsHistory plainChecks [sizedLine "0"] now.1 = some true ∧
          (∀ e ∈ upperLevels now.1 3, e.above.length ≠ 2) ∧
          (∀ e ∈ upperLevels now.1 2, (∀ ch ∈ childrenOf e.inode, ch ∉ e.above ++ [e.cur]) ∧
            (e.isRoot = false → e.namePersisted = true) ∧
            (e.namePersisted = true → e.path = "./f".toList ∧ checkAll plainChecks e.inode (sizedLine "0") = some 0)) ∧
          f.namePersisted = true ∧ f.metaPersisted = true)) = some true := by
    decide +kernel
  obtain ⟨now, run, computed⟩ := Option.bind_eq_some_iff.mp computed
  obtain ⟨f, here, computed⟩ := Option.map_eq_some_iff.mp computed
  obtain ⟨accepted, shallow, entries, name, metadata⟩ := of_decide_eq_true computed
  have entry {e : Entry} (emulated : Emulated now.1 e) := entries e (emulated.mem_upperLevels_of_empty shallow)
  have tree : IsTree now.1 := fun e emulated => (entry emulated).1
  -- no name is unsettled, so no path is abandoned
  have none_ : ∀ path, ¬ Abandoned [sizedLine "0"] (upperLevels now.1 51) path := by
    have settled : ∀ e, ¬ Unsettled (upperLevels now.1 51) e := by
      intro e unsettled
      have persisted := (entry (mem_upperLevels.mp unsettled.member).1).2.1 unsettled.below
      exact absurd unsettled.name (by rw [persisted]; decide)
    intro path gone
    cases gone with
    | absent unsettled => exact settled _ unsettled
    | otherName unsettled => exact settled _ unsettled
    | previous unsettled => exact settled _ unsettled
  refine ⟨now.1, now.2, reachable_runCalls .init run, tree, accepted,
    ⟨f, ⟨⟨2, List.mem_of_getElem? here⟩, name, metadata, fun ⟨top, gone, _⟩ => none_ top gone⟩⟩, ?_⟩
  apply ((oracleSound_iff plainChecks [sizedLine "0"] now.1).1 tree).mpr
  intro _ _ e must overlooked
  obtain ⟨path, passes⟩ := (entry must.emulated).2.2 must.name
  cases overlooked with
  | differs member _ fails =>
    rw [List.mem_singleton.mp member] at fails
    exact fails (checkAll_eq_zero_iff.mp passes)
  | absent _ missing => exact missing ⟨_, List.mem_cons_self, path.symm⟩

end Oracle

end DfsFuzz.Checker
