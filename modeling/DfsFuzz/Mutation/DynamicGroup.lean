import DfsFuzz.Dag.Build
import DfsFuzz.Lib.BestScan
import DfsFuzz.Mutation.PathRel

/-!
The dynamic groups of `prog/mutation.go`: the calls of other programs that ran concurrently with an
anchor or right after it, and how they relate to the classification of `ExtractPairs`.
-/

namespace DfsFuzz.Mutation

open DfsFuzz.Choice DfsFuzz.Dag

structure GroupPosition where
  progIdx : Nat
  callIdx : Nat
deriving DecidableEq

structure ConcurrentCall where
  pos : GroupPosition
  path : String
  rel : PathRelation
deriving DecidableEq

/-- `Meta.CallName`: the name without its variant. -/
def metaCallName (name : String) : String := (Go.split name '$').headD ""

def pathArgCalls : List String :=
  ["open", "creat", "truncate", "chmod", "mkdir", "rmdir", "rename", "stat", "unlink", "getdents64"]

def getFdFilePathForCall (ps : List Prog) (pos : GroupPosition) : String :=
  match ps[pos.progIdx]? with
  | none => ""
  | some p =>
    match p.calls[pos.callIdx]? with
    | none => ""
    | some call =>
      if metaCallName call.name ∈ pathArgCalls then extractPathFromCall call
      else
        match call.args.head? with
        | some (.result _ (some fdRes) _) =>
          -- the nearest producer before the call
          let producer := (p.calls.take pos.callIdx).reverse.find? fun prevCall =>
            (Go.contains prevCall.name "open" || Go.contains prevCall.name "creat") && prevCall.ret == some fdRes
          (producer.map extractPathFromCall).getD ""
        | _ => ""

def callAt (ps : List Prog) (pos : GroupPosition) : Option Call := ps[pos.progIdx]?.bind fun p => p.calls[pos.callIdx]?

def pathOfCall (ps : List Prog) (pos : GroupPosition) : String :=
  match callAt ps pos with
  | none => ""
  | some call => if extractPathFromCall call ≠ "" then extractPathFromCall call else getFdFilePathForCall ps pos

def concurrentCall (ps : List Prog) (anchorPath : String) (pos : GroupPosition) : ConcurrentCall :=
  { pos, path := pathOfCall ps pos, rel := pathRelBetween anchorPath (pathOfCall ps pos) }

/-- The programs of the loop `for i := 1; i < len(ps); i++` with the anchor's own left out. -/
def otherProgs (ps : List Prog) (anchor : GroupPosition) : List (Prog × Nat) :=
  (ps.zipIdx.drop 1).filter fun entry => entry.2 ≠ anchor.progIdx

def findConcurrentCalls (ps : List Prog) (anchor : GroupPosition) (anchorPath : String) (tscoffs : List Int64) :
    List ConcurrentCall :=
  match (callAt ps anchor).bind Call.checkInfo with
  | none => []
  | some ci =>
    let anchorS := ci.stime.toInt64 - tscoffFor tscoffs anchor.progIdx
    let anchorE := ci.etime.toInt64 - tscoffFor tscoffs anchor.progIdx
    (otherProgs ps anchor).flatMap fun (p, i) =>
      let off := tscoffFor tscoffs i
      p.calls.zipIdx.filterMap fun (c, j) =>
        match c.checkInfo with
        | none => none
        | some ci =>
          let s := ci.stime.toInt64 - off
          let e := ci.etime.toInt64 - off
          if s < anchorE && anchorS < e then some (concurrentCall ps anchorPath ⟨i, j⟩) else none

/-- The start of a call that starts when the anchor has finished. -/
def startAfter (anchorE off : Int64) (call : Call × Nat) : Option Int64 :=
  match call.1.checkInfo with
  | none => none
  | some ci =>
    let s := ci.stime.toInt64 - off
    if s ≥ anchorE then some s else none

def findHBCalls (ps : List Prog) (anchor : GroupPosition) (anchorPath : String) (tscoffs : List Int64) :
    List ConcurrentCall :=
  match (callAt ps anchor).bind Call.checkInfo with
  | none => []
  | some ci =>
    let anchorE := ci.etime.toInt64 - tscoffFor tscoffs anchor.progIdx
    (otherProgs ps anchor).filterMap fun (p, i) =>
      (BestScan.best (startAfter anchorE (tscoffFor tscoffs i)) p.calls.zipIdx).map fun found =>
        concurrentCall ps anchorPath ⟨i, found.1.2⟩

def mergeCalls (res calls : List ConcurrentCall) : List ConcurrentCall :=
  calls.foldl (fun res cc => if cc.pos ∈ res.map ConcurrentCall.pos then res else res ++ [cc]) res

def findGroupCalls (ps : List Prog) (anchor : GroupPosition) (anchorPath : String) (tscoffs : List Int64) :
    List ConcurrentCall :=
  mergeCalls (mergeCalls [] (findConcurrentCalls ps anchor anchorPath tscoffs)) (findHBCalls ps anchor anchorPath tscoffs)

/-! ### Windows -/

/-- The window of a call in the global time domain. -/
def windowAt (ps : List Prog) (tscoffs : List Int64) (pos : GroupPosition) : Option (Int64 × Int64) :=
  ((callAt ps pos).bind Call.checkInfo).map fun ci =>
    (ci.stime.toInt64 - tscoffFor tscoffs pos.progIdx, ci.etime.toInt64 - tscoffFor tscoffs pos.progIdx)

theorem windowAt_eq {ps : List Prog} {tscoffs : List Int64} {p : Prog} {c : Call} {i j : Nat} {ci : FileMetadata}
    (prog : ps[i]? = some p) (call : p.calls[j]? = some c) (timed : c.checkInfo = some ci) :
    windowAt ps tscoffs ⟨i, j⟩ =
      some (ci.stime.toInt64 - tscoffFor tscoffs i, ci.etime.toInt64 - tscoffFor tscoffs i) := by
  simp [windowAt, callAt, prog, call, timed]

theorem windowAt_some {ps : List Prog} {tscoffs : List Int64} {pos : GroupPosition} {w : Int64 × Int64}
    (read : windowAt ps tscoffs pos = some w) :
    ∃ p c ci, ps[pos.progIdx]? = some p ∧ p.calls[pos.callIdx]? = some c ∧ c.checkInfo = some ci ∧
      w = (ci.stime.toInt64 - tscoffFor tscoffs pos.progIdx, ci.etime.toInt64 - tscoffFor tscoffs pos.progIdx) := by
  obtain ⟨ci, found, rfl⟩ := Option.map_eq_some_iff.mp read
  obtain ⟨c, called, timed⟩ := Option.bind_eq_some_iff.mp found
  obtain ⟨p, prog, call⟩ := Option.bind_eq_some_iff.mp called
  exact ⟨p, c, ci, prog, call, timed, rfl⟩

theorem mem_otherProgs {ps : List Prog} {anchor : GroupPosition} {p : Prog} {i : Nat} :
    (p, i) ∈ otherProgs ps anchor ↔ 0 < i ∧ i ≠ anchor.progIdx ∧ ps[i]? = some p := by
  rw [otherProgs, List.mem_filter, List.mem_iff_getElem?]
  simp only [decide_eq_true_eq, List.getElem?_drop, List.getElem?_zipIdx, Option.map_eq_some_iff, Prod.mk.injEq]
  constructor
  · rintro ⟨⟨k, p', read, rfl, rfl⟩, other⟩
    exact ⟨by omega, other, by simpa using read⟩
  · rintro ⟨positive, other, read⟩
    exact ⟨⟨i - 1, p, by rwa [show 1 + (i - 1) = i by omega], rfl, by omega⟩, other⟩

theorem mem_zipIdx_iff {α : Type} {xs : List α} {x : α} {j : Nat} : (x, j) ∈ xs.zipIdx ↔ xs[j]? = some x := by
  rw [List.mem_zipIdx_iff_getElem?]

theorem mem_findConcurrentCalls {ps : List Prog} {anchor : GroupPosition} {anchorPath : String} {tscoffs : List Int64}
    {a : Int64 × Int64} (anchored : windowAt ps tscoffs anchor = some a) (pos : GroupPosition) :
    pos ∈ (findConcurrentCalls ps anchor anchorPath tscoffs).map ConcurrentCall.pos ↔
      0 < pos.progIdx ∧ pos.progIdx ≠ anchor.progIdx ∧
        ∃ w, windowAt ps tscoffs pos = some w ∧ w.1 < a.2 ∧ a.1 < w.2 := by
  obtain ⟨ci, found, rfl⟩ := Option.map_eq_some_iff.mp anchored
  simp only [findConcurrentCalls, found, List.map_flatMap, List.mem_flatMap, Prod.exists, mem_otherProgs,
    List.mem_map, List.mem_filterMap, mem_zipIdx_iff]
  constructor
  · rintro ⟨p, i, ⟨positive, other, prog⟩, cc, ⟨c, j, call, kept⟩, rfl⟩
    cases timed : c.checkInfo with
    | none => simp [timed] at kept
    | some ci' =>
      simp only [timed, Option.ite_none_right_eq_some, Bool.and_eq_true, decide_eq_true_eq, Option.some.injEq] at kept
      obtain ⟨meets, rfl⟩ := kept
      exact ⟨positive, other, _, _, windowAt_eq prog call timed, meets⟩
  · rintro ⟨positive, other, s, e, read, meets⟩
    obtain ⟨p, c, ci', prog, call, timed, window⟩ := windowAt_some read
    obtain ⟨rfl, rfl⟩ := Prod.mk.inj window
    refine ⟨p, pos.progIdx, ⟨positive, other, prog⟩, concurrentCall ps anchorPath pos, ⟨c, pos.callIdx, call, ?_⟩, rfl⟩
    simpa only [timed, Option.ite_none_right_eq_some, Bool.and_eq_true, decide_eq_true_eq, and_true] using meets

/-- The first of the earliest calls of program `i` that start at `anchorE` or later. -/
structure Earliest (ps : List Prog) (tscoffs : List Int64) (anchorE : Int64) (i j : Nat) (w : Int64 × Int64) : Prop where
  timed : windowAt ps tscoffs ⟨i, j⟩ = some w
  after : anchorE ≤ w.1
  least : ∀ j' w', windowAt ps tscoffs ⟨i, j'⟩ = some w' → anchorE ≤ w'.1 → w.1 ≤ w'.1
  first : ∀ j' w', windowAt ps tscoffs ⟨i, j'⟩ = some w' → w'.1 = w.1 → j ≤ j'

theorem Earliest.unique {ps : List Prog} {tscoffs : List Int64} {anchorE : Int64} {i j j' : Nat} {w w' : Int64 × Int64}
    (one : Earliest ps tscoffs anchorE i j w) (two : Earliest ps tscoffs anchorE i j' w') : j = j' := by
  have start : w.1 = w'.1 :=
    Int64.le_antisymm (one.least _ _ two.timed two.after) (two.least _ _ one.timed one.after)
  exact Nat.le_antisymm (one.first _ _ two.timed start.symm) (two.first _ _ one.timed start)

theorem startAfter_eq_some {anchorE off s : Int64} {call : Call × Nat} :
    startAfter anchorE off call = some s ↔
      ∃ ci, call.1.checkInfo = some ci ∧ s = ci.stime.toInt64 - off ∧ anchorE ≤ s := by
  unfold startAfter
  cases call.1.checkInfo with
  | none => simp
  | some ci =>
    simp only [Option.ite_none_right_eq_some, Option.some.injEq, exists_eq_left']
    constructor
    · rintro ⟨late, rfl⟩
      exact ⟨rfl, late⟩
    · rintro ⟨rfl, late⟩
      exact ⟨late, rfl⟩

theorem startAfter_window {ps : List Prog} {tscoffs : List Int64} {p : Prog} {i : Nat} {anchorE : Int64}
    (prog : ps[i]? = some p) {c : Call} {j : Nat} (call : p.calls[j]? = some c) (s : Int64) :
    startAfter anchorE (tscoffFor tscoffs i) (c, j) = some s ↔
      ∃ e, windowAt ps tscoffs ⟨i, j⟩ = some (s, e) ∧ anchorE ≤ s := by
  rw [startAfter_eq_some]
  constructor
  · rintro ⟨ci, timed, rfl, late⟩
    exact ⟨_, windowAt_eq prog call timed, late⟩
  · rintro ⟨e, read, late⟩
    obtain ⟨p', c', ci, prog', call', timed, window⟩ := windowAt_some read
    obtain rfl : p = p' := Option.some.inj (prog.symm.trans prog')
    obtain rfl : c = c' := Option.some.inj (call.symm.trans call')
    exact ⟨ci, timed, (Prod.mk.inj window).1, late⟩

section Best

variable {ps : List Prog} {tscoffs : List Int64} {p : Prog} {i : Nat} {anchorE : Int64} (prog : ps[i]? = some p)

include prog

theorem earliest_of_isBest {c : Call} {j : Nat} {s : Int64}
    (isBest : BestScan.IsBest (startAfter anchorE (tscoffFor tscoffs i)) p.calls.zipIdx (c, j) s) :
    ∃ e, Earliest ps tscoffs anchorE i j (s, e) := by
  obtain ⟨pre, post, split, before⟩ := isBest.first
  have place : p.calls[j]? = some c := by
    rw [← mem_zipIdx_iff, split]
    simp
  obtain ⟨e, read, late⟩ := (startAfter_window prog place s).mp isBest.scored
  have scored : ∀ j' w', windowAt ps tscoffs ⟨i, j'⟩ = some w' → anchorE ≤ w'.1 →
      ∃ c', (c', j') ∈ p.calls.zipIdx ∧ startAfter anchorE (tscoffFor tscoffs i) (c', j') = some w'.1 := by
    intro j' w' read' late'
    obtain ⟨p', c', _, prog', call', _, _⟩ := windowAt_some read'
    obtain rfl : p = p' := Option.some.inj (prog.symm.trans prog')
    exact ⟨c', mem_zipIdx_iff.mpr call', (startAfter_window prog call' _).mpr ⟨w'.2, read', late'⟩⟩
  refine ⟨e, read, late, ?_, ?_⟩
  · intro j' w' read' late'
    obtain ⟨c', member, start⟩ := scored j' w' read' late'
    exact isBest.least _ member _ start
  · intro j' w' read' same
    obtain ⟨c', member, start⟩ := scored j' w' read' (by rw [same]; exact late)
    -- a candidate in front of the one kept starts later, and the positions of a list ascend
    by_contra earlier
    have inFront : (c', j') ∈ pre := by
      have ascending : ((pre ++ (c, j) :: post).map Prod.snd).Pairwise (· < ·) := by
        rw [← split, List.zipIdx_map_snd]
        exact List.pairwise_lt_range'
      rw [split] at member
      rcases List.mem_append.mp member with front | back
      · exact front
      · rcases List.mem_cons.mp back with here | behind
        · cases here
          exact absurd (Nat.le_refl _) earlier
        · rw [List.map_append, List.map_cons] at ascending
          have behindLater := (List.pairwise_cons.mp (List.pairwise_append.mp ascending).2.1).1 j'
            (List.mem_map.mpr ⟨_, behind, rfl⟩)
          omega
    have later := before _ inFront _ start
    rw [same] at later
    exact Int64.lt_irrefl later

theorem isBest_iff {j : Nat} :
    (∃ c s, BestScan.best (startAfter anchorE (tscoffFor tscoffs i)) p.calls.zipIdx = some ((c, j), s)) ↔
      ∃ w, Earliest ps tscoffs anchorE i j w := by
  have found := BestScan.best_found (startAfter anchorE (tscoffFor tscoffs i)) p.calls.zipIdx
  constructor
  · rintro ⟨c, s, scan⟩
    rw [scan] at found
    obtain ⟨e, earliest⟩ := earliest_of_isBest prog found
    exact ⟨_, earliest⟩
  · rintro ⟨w, earliest⟩
    obtain ⟨p', c, _, prog', call, _, _⟩ := windowAt_some earliest.timed
    obtain rfl : p = p' := Option.some.inj (prog.symm.trans prog')
    have scored := (startAfter_window prog call w.1).mpr ⟨w.2, earliest.timed, earliest.after⟩
    cases scan : BestScan.best (startAfter anchorE (tscoffFor tscoffs i)) p.calls.zipIdx with
    | none =>
      rw [scan] at found
      exact absurd ((found _ (mem_zipIdx_iff.mpr call)).symm.trans scored) (by simp)
    | some entry =>
      obtain ⟨⟨c', j'⟩, s⟩ := entry
      rw [scan] at found
      obtain ⟨e, first⟩ := earliest_of_isBest prog found
      exact ⟨c', s, by rw [earliest.unique first]⟩

end Best

theorem mem_findHBCalls {ps : List Prog} {anchor : GroupPosition} {anchorPath : String} {tscoffs : List Int64}
    {a : Int64 × Int64} (anchored : windowAt ps tscoffs anchor = some a) (pos : GroupPosition) :
    pos ∈ (findHBCalls ps anchor anchorPath tscoffs).map ConcurrentCall.pos ↔
      0 < pos.progIdx ∧ pos.progIdx ≠ anchor.progIdx ∧ ∃ w, Earliest ps tscoffs a.2 pos.progIdx pos.callIdx w := by
  obtain ⟨ci, found, rfl⟩ := Option.map_eq_some_iff.mp anchored
  simp only [findHBCalls, found, List.mem_map, List.mem_filterMap, Prod.exists, mem_otherProgs, Option.map_eq_some_iff]
  constructor
  · rintro ⟨_, ⟨p, i, ⟨positive, other, prog⟩, c, j, s, scan, rfl⟩, rfl⟩
    obtain ⟨w, earliest⟩ := (isBest_iff prog).mp ⟨c, s, scan⟩
    exact ⟨positive, other, _, _, earliest⟩
  · rintro ⟨positive, other, s, e, earliest⟩
    obtain ⟨p, _, _, prog, _, _, _⟩ := windowAt_some earliest.timed
    obtain ⟨c, s', scan⟩ := (isBest_iff prog).mpr ⟨(s, e), earliest⟩
    exact ⟨concurrentCall ps anchorPath pos, ⟨p, pos.progIdx, ⟨positive, other, prog⟩, c, pos.callIdx, s', scan, rfl⟩, rfl⟩

/-- `ExtractPairs` counts the two vertices as overlapping, in whichever order they stand. -/
def Overlapping (A B : DAGVertex) : Prop :=
  (extractPairs [A, B] {}).diag.overlapPairs = 1 ∧ (extractPairs [B, A] {}).diag.overlapPairs = 1

/-- `ExtractPairs` counts `A` before `B`, in whichever order they stand. -/
def HappensAfter (A B : DAGVertex) : Prop :=
  (extractPairs [A, B] {}).diag.hbForwardPairs = 1 ∧ (extractPairs [B, A] {}).diag.hbReversePairs = 1

theorem pairStep_counts (st : PairState) (p : VertexRef × VertexRef) :
    (pairStep st p).diag.overlapPairs = st.diag.overlapPairs + (if overlap p.1.v p.2.v then 1 else 0) ∧
    (pairStep st p).diag.hbForwardPairs =
      st.diag.hbForwardPairs + (if ¬ overlap p.1.v p.2.v ∧ p.1.v.etime < p.2.v.stime then 1 else 0) ∧
    (pairStep st p).diag.hbReversePairs =
      st.diag.hbReversePairs + (if ¬ overlap p.1.v p.2.v ∧ ¬ p.1.v.etime < p.2.v.stime then 1 else 0) := by
  by_cases meet : overlap p.1.v p.2.v = true
  · simp only [pairStep, meet, if_true, not_true_eq_false, false_and, if_false, Nat.add_zero]
    split_ifs <;> exact ⟨rfl, rfl, rfl⟩
  · simp only [pairStep, meet, Bool.false_eq_true, if_false, not_false_eq_true, true_and, Nat.add_zero]
    by_cases before : p.1.v.etime < p.2.v.stime
    · simp only [before, if_true, not_true_eq_false, if_false, Nat.add_zero]
      split_ifs <;> exact ⟨rfl, rfl, rfl⟩
    · simp only [before, if_false, not_false_eq_true, if_true, Nat.add_zero]
      split_ifs <;> exact ⟨rfl, rfl, rfl⟩

theorem extractPairs_two (A B : DAGVertex) :
    (extractPairs [A, B] {}).diag.overlapPairs = (if overlap A B then 1 else 0) ∧
    (extractPairs [A, B] {}).diag.hbForwardPairs = (if ¬ overlap A B ∧ A.etime < B.stime then 1 else 0) ∧
    (extractPairs [A, B] {}).diag.hbReversePairs = (if ¬ overlap A B ∧ ¬ A.etime < B.stime then 1 else 0) := by
  have counts := pairStep_counts { diag := { totalPairs := 1 } } (⟨0, A⟩, ⟨1, B⟩)
  simpa [extractPairs, refs, Go.pairs] using counts

theorem overlap_comm (A B : DAGVertex) : overlap A B = overlap B A := by
  simp only [overlap, Bool.and_comm]

theorem overlapping_iff {A B : DAGVertex} : Overlapping A B ↔ A.stime ≤ B.etime ∧ B.stime ≤ A.etime := by
  rw [Overlapping, (extractPairs_two A B).1, (extractPairs_two B A).1, overlap_comm B A]
  simp [overlap]

theorem happensAfter_iff {A B : DAGVertex} (properA : A.stime ≤ A.etime) (properB : B.stime ≤ B.etime) :
    HappensAfter A B ↔ A.etime < B.stime := by
  rw [HappensAfter, (extractPairs_two A B).2.1, (extractPairs_two B A).2.2]
  simp only [overlap, Bool.and_eq_true, decide_eq_true_eq, ite_eq_left_iff, zero_ne_one, imp_false, not_not]
  simp only [UInt64.le_iff_toNat_le, UInt64.lt_iff_toNat_lt] at *
  omega

/-! ### Agreement -/

/-- A window that the normalisation left in order and not before time zero. -/
structure ProperWindow (w : Int64 × Int64) : Prop where
  start : 0 ≤ w.1
  ordered : w.1 ≤ w.2

/-- The vertex that `BuildVertices` makes of a call with this window has these times. -/
structure HasWindow (v : DAGVertex) (w : Int64 × Int64) : Prop where
  stime : v.stime = w.1.toUInt64
  etime : v.etime = w.2.toUInt64

theorem toUInt64_le_iff {a b : Int64} (properA : 0 ≤ a) (properB : 0 ≤ b) : a.toUInt64 ≤ b.toUInt64 ↔ a ≤ b := by
  rw [UInt64.le_iff_toNat_le, Int64.toNat_toUInt64_of_le properA, Int64.toNat_toUInt64_of_le properB,
    Int64.le_iff_toInt_le, ← Int64.cast_toNatClampNeg a properA, ← Int64.cast_toNatClampNeg b properB]
  omega

theorem ProperWindow.finish {w : Int64 × Int64} (proper : ProperWindow w) : 0 ≤ w.2 :=
  Int64.le_trans proper.start proper.ordered

theorem HasWindow.proper {v : DAGVertex} {w : Int64 × Int64} (has : HasWindow v w) (proper : ProperWindow w) :
    v.stime ≤ v.etime := by
  rw [has.stime, has.etime, toUInt64_le_iff proper.start proper.finish]
  exact proper.ordered

section Windows

variable {A B : DAGVertex} {a w : Int64 × Int64} (hasA : HasWindow A a) (hasB : HasWindow B w)
  (properA : ProperWindow a) (properB : ProperWindow w)

include hasA hasB properA properB

theorem overlapping_windows : Overlapping A B ↔ a.1 ≤ w.2 ∧ w.1 ≤ a.2 := by
  rw [overlapping_iff, hasA.stime, hasA.etime, hasB.stime, hasB.etime,
    toUInt64_le_iff properA.start properB.finish, toUInt64_le_iff properB.start properA.finish]

theorem happensAfter_windows : HappensAfter A B ↔ a.2 < w.1 := by
  rw [happensAfter_iff (hasA.proper properA) (hasB.proper properB), hasA.etime, hasB.stime, ← UInt64.not_le,
    toUInt64_le_iff properB.start properA.finish, Int64.not_le]

end Windows

theorem int64_lt_iff_le_ne {a b : Int64} : a < b ↔ a ≤ b ∧ a ≠ b := by
  rw [Int64.lt_iff_toInt_lt, Int64.le_iff_toInt_le, Ne, ← Int64.toInt_inj]
  omega

def Executed (ps : List Prog) : Prop :=
  ∀ p ∈ ps, ∀ c ∈ p.calls, ∀ ci ∈ c.checkInfo, ci.stime ≤ ci.etime

/-- The two modules agree on the windows of a group without exception. -/
structure SameTimes (ps : List Prog) (anchor : GroupPosition) (anchorPath : String) (tscoffs : List Int64)
    (a : Int64 × Int64) : Prop where
  concurrent : ∀ pos w, 0 < pos.progIdx → windowAt ps tscoffs pos = some w →
    ∀ A B, HasWindow A a → HasWindow B w →
      (pos ∈ (findConcurrentCalls ps anchor anchorPath tscoffs).map ConcurrentCall.pos ↔ Overlapping A B)
  after : ∀ pos ∈ (findHBCalls ps anchor anchorPath tscoffs).map ConcurrentCall.pos,
    ∀ w, windowAt ps tscoffs pos = some w → ∀ A B, HasWindow A a → HasWindow B w → HappensAfter A B
  earliest : ∀ i j w, 0 < i → windowAt ps tscoffs ⟨i, j⟩ = some w →
    ∀ A B, HasWindow A a → HasWindow B w → HappensAfter A B →
      ∃ j' w', ⟨i, j'⟩ ∈ (findHBCalls ps anchor anchorPath tscoffs).map ConcurrentCall.pos ∧
        windowAt ps tscoffs ⟨i, j'⟩ = some w' ∧ w'.1.toUInt64 ≤ w.1.toUInt64

/-- How the dynamic groups of an anchor with window `a` relate to the DAG's view of time. -/
structure TimeAgreement (ps : List Prog) (anchor : GroupPosition) (anchorPath : String) (tscoffs : List Int64)
    (a : Int64 × Int64) : Prop where
  /-- A call is concurrent exactly when the DAG has it overlapping and neither window starts at the
  instant the other ends. -/
  concurrent : ∀ pos w, 0 < pos.progIdx → windowAt ps tscoffs pos = some w → ProperWindow w →
    ∀ A B, HasWindow A a → HasWindow B w →
      (pos ∈ (findConcurrentCalls ps anchor anchorPath tscoffs).map ConcurrentCall.pos ↔
        Overlapping A B ∧ w.1 ≠ a.2 ∧ a.1 ≠ w.2)
  /-- A successor happens after the anchor, except one that starts at the instant the anchor ends,
  which the DAG has overlapping. -/
  after : ∀ pos ∈ (findHBCalls ps anchor anchorPath tscoffs).map ConcurrentCall.pos,
    ∀ w, windowAt ps tscoffs pos = some w → ProperWindow w → ∀ A B, HasWindow A a → HasWindow B w →
      if w.1 = a.2 then Overlapping A B else HappensAfter A B
  /-- The successor in a program is the first of the earliest calls that start at the anchor's end
  or later; there is one unless no call does. -/
  earliest : ∀ i j, 0 < i → (⟨i, j⟩ ∈ (findHBCalls ps anchor anchorPath tscoffs).map ConcurrentCall.pos ↔
    ∃ w, Earliest ps tscoffs a.2 i j w)
  found : ∀ i, 0 < i → (∃ j w, windowAt ps tscoffs ⟨i, j⟩ = some w ∧ a.2 ≤ w.1) →
    ∃! j, ⟨i, j⟩ ∈ (findHBCalls ps anchor anchorPath tscoffs).map ConcurrentCall.pos

theorem exists_earliest {ps : List Prog} {tscoffs : List Int64} {anchorE : Int64} {i : Nat}
    (late : ∃ j w, windowAt ps tscoffs ⟨i, j⟩ = some w ∧ anchorE ≤ w.1) : ∃ j w, Earliest ps tscoffs anchorE i j w := by
  obtain ⟨j, w, read, start⟩ := late
  obtain ⟨p, c, _, prog, call, _, _⟩ := windowAt_some read
  have found := BestScan.best_found (startAfter anchorE (tscoffFor tscoffs i)) p.calls.zipIdx
  have scored := (startAfter_window prog call w.1).mpr ⟨w.2, read, start⟩
  cases scan : BestScan.best (startAfter anchorE (tscoffFor tscoffs i)) p.calls.zipIdx with
  | none =>
    rw [scan] at found
    exact absurd ((found _ (mem_zipIdx_iff.mpr call)).symm.trans scored) (by simp)
  | some entry =>
    obtain ⟨⟨c', j'⟩, s⟩ := entry
    exact ⟨j', (isBest_iff prog).mp ⟨c', s, scan⟩⟩

theorem dynamicGroup_agrees {ps : List Prog} {anchor : GroupPosition} {anchorPath : String} {tscoffs : List Int64}
    {a : Int64 × Int64} (first : anchor.progIdx = 0) (anchored : windowAt ps tscoffs anchor = some a)
    (proper : ProperWindow a) : TimeAgreement ps anchor anchorPath tscoffs a := by
  have successor : ∀ i j, 0 < i → (⟨i, j⟩ ∈ (findHBCalls ps anchor anchorPath tscoffs).map ConcurrentCall.pos ↔
      ∃ w, Earliest ps tscoffs a.2 i j w) := by
    intro i j positive
    rw [mem_findHBCalls anchored, first]
    exact ⟨fun h => h.2.2, fun h => ⟨positive, by simpa using Nat.ne_of_gt positive, h⟩⟩
  refine ⟨?_, ?_, successor, ?_⟩
  · intro pos w other read properW A B hasA hasB
    rw [mem_findConcurrentCalls anchored, overlapping_windows hasA hasB proper properW, first]
    constructor
    · rintro ⟨_, _, w', read', starts, ends⟩
      obtain rfl : w = w' := Option.some.inj (read.symm.trans read')
      rw [int64_lt_iff_le_ne] at starts ends
      exact ⟨⟨ends.1, starts.1⟩, starts.2, ends.2⟩
    · rintro ⟨⟨ends, starts⟩, apartS, apartE⟩
      exact ⟨other, Nat.ne_of_gt other, w, read, int64_lt_iff_le_ne.mpr ⟨starts, apartS⟩,
        int64_lt_iff_le_ne.mpr ⟨ends, apartE⟩⟩
  · intro pos member w read properW A B hasA hasB
    obtain ⟨_, _, w', earliest⟩ := (mem_findHBCalls anchored pos).mp member
    obtain rfl : w = w' := Option.some.inj (read.symm.trans earliest.timed)
    have late := earliest.after
    split
    · rename_i touching
      rw [overlapping_windows hasA hasB proper properW, touching]
      refine ⟨?_, Int64.le_refl _⟩
      exact Int64.le_trans proper.ordered (Int64.le_trans late properW.ordered)
    · rename_i apart
      rw [happensAfter_windows hasA hasB proper properW]
      exact int64_lt_iff_le_ne.mpr ⟨late, Ne.symm apart⟩
  · intro i positive late
    obtain ⟨j, w, earliest⟩ := exists_earliest late
    refine ⟨j, (successor i j positive).mpr ⟨w, earliest⟩, ?_⟩
    intro j' member
    obtain ⟨w', other⟩ := (successor i j' positive).mp member
    exact other.unique earliest

def timedCall (name : String) (stime etime : UInt64) : Call := { name, checkInfo := some { stime, etime } }

def anchorCall : GroupPosition := ⟨0, 0⟩

/-- A call that starts at the instant the anchor ends, and one that spans time zero of the global
domain after its offset is taken off. -/
def touchingGroup : List Prog := [{ calls := [timedCall "mkdir" 100 200] }, { calls := [timedCall "rmdir" 200 300] }]

def crossingGroup : List Prog := [{ calls := [timedCall "mkdir" 100 200] }, { calls := [timedCall "rmdir" 500 1150] }]

def vertexOf (w : Int64 × Int64) : DAGVertex :=
  { funcID := funcMkdir, retBucket := .success, stime := w.1.toUInt64, etime := w.2.toUInt64 }

theorem dynamicGroup_differs :
    (Executed touchingGroup ∧ windowAt touchingGroup [] anchorCall = some (100, 200) ∧
      ¬ SameTimes touchingGroup anchorCall "" [] (100, 200)) ∧
    (Executed crossingGroup ∧ windowAt crossingGroup [0, 1000] anchorCall = some (100, 200) ∧
      ¬ SameTimes crossingGroup anchorCall "" [0, 1000] (100, 200)) := by
  refine ⟨⟨?_, by decide +kernel, ?_⟩, ?_, by decide +kernel, ?_⟩
  · simp [Executed, touchingGroup, timedCall]
  · intro same
    have concurrent := (same.concurrent ⟨1, 0⟩ (200, 300) (by decide) (by decide +kernel) (vertexOf (100, 200))
      (vertexOf (200, 300)) ⟨rfl, rfl⟩ ⟨rfl, rfl⟩).mpr (overlapping_iff.mpr (by decide +kernel))
    exact absurd concurrent (by decide +kernel)
  · simp [Executed, crossingGroup, timedCall]
  · intro same
    have overlapping := (same.concurrent ⟨1, 0⟩ (-500, 150) (by decide) (by decide +kernel) (vertexOf (100, 200))
      (vertexOf (-500, 150)) ⟨rfl, rfl⟩ ⟨rfl, rfl⟩).mp (by decide +kernel)
    exact absurd (overlapping_iff.mp overlapping) (by decide +kernel)

theorem dynamicGroup_agrees_sample :
    windowAt touchingGroup [] anchorCall = some (100, 200) ∧ TimeAgreement touchingGroup anchorCall "" [] (100, 200) := by
  have anchored : windowAt touchingGroup [] anchorCall = some (100, 200) := by decide +kernel
  exact ⟨anchored, dynamicGroup_agrees rfl anchored ⟨by decide, by decide⟩⟩

end DfsFuzz.Mutation
