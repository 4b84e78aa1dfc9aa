import DfsFuzz.Dag.Matching
import DfsFuzz.Dag.PairsSound
import DfsFuzz.Dag.Resolve

/-!
What the counters of `BuildVertices` come to: each event has one outcome, each outcome adds to its own
counters, and the sums are carried along the loop. The split of the missed events into late and early
ones is short of the events that lie inside of a window which the tolerance moves away from them.
-/

namespace DfsFuzz.Dag

section Scans

variable {tol : Int64} {ev : HmdfsTraceEvent} {off : Int64}

/-- What the scan for the call keeps of the calls it has passed. -/
structure Seen (tol : Int64) (ev : HmdfsTraceEvent) (off : Int64) (xs : List (Call × Nat)) (st : MatchState) : Prop where
  none_iff : st.best = none ↔ ∀ c ∈ xs, ∀ b, boundsOf ev.funcID off c.1 = some b → ¬ b.Widened tol ev.timestamp.toInt64
  some_of : ∀ i, st.best = some i → ∃ c ∈ xs, c.2 = i ∧ ∃ b, boundsOf ev.funcID off c.1 = some b
  hasFunc : st.hasFunc = true ↔ ∃ c ∈ xs, funcMatchesCall ev.funcID c.1.name = true
  hasCI : st.hasCI = true ↔ ∃ c ∈ xs, ∃ b, boundsOf ev.funcID off c.1 = some b

theorem matchStep_seen {xs : List (Call × Nat)} {st : MatchState} (before : Seen tol ev off xs st) (call : Call × Nat) :
    Seen tol ev off (xs ++ [call]) (matchStep tol ev off st call) := by
  obtain ⟨none_iff, some_of, hasFunc, hasCI⟩ := before
  cases bounds : boundsOf ev.funcID off call.1 with
  | none =>
    rw [matchStep_noBounds st bounds]
    refine ⟨?_, fun i held => ?_, ?_, ?_⟩
    · simp only [none_iff, List.forall_mem_append, List.forall_mem_singleton, bounds, reduceCtorEq, false_imp_iff,
        implies_true, and_true]
    · obtain ⟨c, member, same⟩ := some_of i held
      exact ⟨c, List.mem_append_left _ member, same⟩
    · simp only [Bool.or_eq_true, hasFunc, List.mem_append, List.mem_singleton, or_and_right, exists_or, exists_eq_left]
    · simp only [hasCI, List.mem_append, List.mem_singleton, or_and_right, exists_or, exists_eq_left, bounds, reduceCtorEq,
        exists_false, or_false]
  | some b =>
    have fits := (boundsOf_some bounds).1
    have func : ∃ c ∈ xs ++ [call], funcMatchesCall ev.funcID c.1.name = true := ⟨call, by simp, fits⟩
    have info : ∃ c ∈ xs ++ [call], ∃ b, boundsOf ev.funcID off c.1 = some b := ⟨call, by simp, b, bounds⟩
    rw [matchStep_bounds st bounds]
    split
    · rename_i taken
      refine ⟨⟨fun impossible => ?_, fun all => ?_⟩, fun i held => ?_, ⟨fun _ => func, fun _ => rfl⟩, ⟨fun _ => info, fun _ => rfl⟩⟩
      · cases impossible
      · exact absurd taken.1 (all call (by simp) b bounds)
      · cases held
        exact ⟨call, by simp, rfl, b, bounds⟩
    · rename_i passed
      refine ⟨⟨fun empty => ?_, fun all => ?_⟩, fun i held => ?_, ⟨fun _ => func, fun _ => rfl⟩, ⟨fun _ => info, fun _ => rfl⟩⟩
      · intro c member b' bounds'
        rcases List.mem_append.mp member with old | new
        · exact none_iff.mp empty c old b' bounds'
        · rw [List.mem_singleton.mp new] at bounds'
          cases bounds.symm.trans bounds'
          exact fun widened => passed ⟨widened, .inl empty⟩
      · exact none_iff.mpr fun c member => all c (List.mem_append_left _ member)
      · obtain ⟨c, member, same⟩ := some_of i held
        exact ⟨c, List.mem_append_left _ member, same⟩

variable (tol ev off) in
theorem matchLoop_seen (xs : List (Call × Nat)) : Seen tol ev off xs (xs.foldl (matchStep tol ev off) {}) := by
  induction xs using List.reverseRecOn with
  | nil => constructor <;> simp
  | append_singleton xs call ih =>
    rw [List.foldl_concat]
    exact matchStep_seen ih call

theorem exists_zipIdx {p : Prog} (holds : Call → Prop) : (∃ c ∈ p.calls.zipIdx, holds c.1) ↔ ∃ c ∈ p.calls, holds c := by
  constructor
  · rintro ⟨c, member, held⟩
    exact ⟨c.1, List.mem_of_getElem? (List.mem_zipIdx_iff_getElem?.mp member), held⟩
  · rintro ⟨c, member, held⟩
    obtain ⟨i, found⟩ := List.getElem?_of_mem member
    exact ⟨(c, i), List.mem_zipIdx_iff_getElem?.mpr found, held⟩

variable {p : Prog} {tscoffs : List Int64}

/-- A call that is matched is there, can raise the event and has a window. -/
theorem matchEventToCall_ok {i : Nat} (ok : matchEventToCall tol ev p tscoffs = .ok i) :
    ∃ call, p.calls[i]? = some call ∧ ∃ b, boundsOf ev.funcID (tscoffFor tscoffs ev.progIdx) call = some b := by
  have seen := matchLoop_seen tol ev (tscoffFor tscoffs ev.progIdx) p.calls.zipIdx
  rw [matchEventToCall] at ok
  split at ok
  · rename_i j held
    cases ok
    obtain ⟨c, member, rfl, b, bounds⟩ := seen.some_of _ held
    exact ⟨c.1, List.mem_zipIdx_iff_getElem?.mp member, b, bounds⟩
  · split at ok
    · cases ok
    · split at ok <;> cases ok

theorem matchEventToCall_outside : matchEventToCall tol ev p tscoffs = .error .outside ↔
    (∃ c ∈ p.calls, ∃ b, boundsOf ev.funcID (tscoffFor tscoffs ev.progIdx) c = some b) ∧
      ∀ c ∈ p.calls, ∀ b, boundsOf ev.funcID (tscoffFor tscoffs ev.progIdx) c = some b → ¬ b.Widened tol ev.timestamp.toInt64 := by
  have seen := matchLoop_seen tol ev (tscoffFor tscoffs ev.progIdx) p.calls.zipIdx
  have hasCI := seen.hasCI.trans (exists_zipIdx (fun c => ∃ b, boundsOf ev.funcID (tscoffFor tscoffs ev.progIdx) c = some b))
  have hasFunc := seen.hasFunc.trans (exists_zipIdx (fun c => funcMatchesCall ev.funcID c.name = true))
  have none_iff := seen.none_iff
  rw [matchEventToCall]
  generalize p.calls.zipIdx.foldl (matchStep tol ev (tscoffFor tscoffs ev.progIdx)) {} = st at *
  have missed : st.best = none ↔ ∀ c ∈ p.calls, ∀ b, boundsOf ev.funcID (tscoffFor tscoffs ev.progIdx) c = some b →
      ¬ b.Widened tol ev.timestamp.toInt64 := by
    rw [none_iff]
    constructor
    · intro all c member
      obtain ⟨i, found⟩ := List.getElem?_of_mem member
      exact all (c, i) (List.mem_zipIdx_iff_getElem?.mpr found)
    · intro all c member
      exact all c.1 (List.mem_of_getElem? (List.mem_zipIdx_iff_getElem?.mp member))
  have func : st.hasCI = true → st.hasFunc = true := by
    intro info
    obtain ⟨c, member, b, bounds⟩ := hasCI.mp info
    exact hasFunc.mpr ⟨c, member, (boundsOf_some bounds).1⟩
  rw [← missed, ← hasCI]
  cases best : st.best with
  | some i => simp
  | none =>
    cases info : st.hasCI with
    | false => cases st.hasFunc <;> simp
    | true => simp [func info]

/-- What the scan for the nearest window holds while no bounds have held the time. -/
def Nearer (acc : Nearest) : Prop := (acc.found = true ∧ acc.delta ≠ 0) ∨ (acc.found = false ∧ acc.bestAbs = -1)

theorem delta_ne_zero {ts : Int64} {b : Bounds} (outside : ¬ b.Inside ts) : b.delta ts ≠ 0 := by
  rw [Bounds.delta]
  split
  · rename_i late
    intro zero
    rw [Int64.sub_eq_iff_eq_add, Int64.zero_add] at zero
    exact Int64.lt_irrefl (zero ▸ late)
  · rename_i notLate
    intro zero
    have difference : b.ws - ts = 0 := by simpa using congrArg (fun a => -a) zero
    rw [Int64.sub_eq_iff_eq_add, Int64.zero_add] at difference
    exact outside ⟨Int64.le_of_eq difference, Int64.not_lt.mp notLate⟩

variable (ev off) in
/-- By induction over the calls: the scan finds a window if there is one, at no distance exactly if one holds the time. -/
theorem nearestLoop_computed (calls : List Call) {acc : Nearest} (before : Nearer acc) :
    ((nearestLoop ev off calls acc).found = true ↔ acc.found = true ∨ ∃ c ∈ calls, ∃ b, boundsOf ev.funcID off c = some b) ∧
      ((nearestLoop ev off calls acc).found = true → ((nearestLoop ev off calls acc).delta = 0 ↔
        ∃ c ∈ calls, ∃ b, boundsOf ev.funcID off c = some b ∧ b.Inside ev.timestamp.toInt64)) := by
  induction calls generalizing acc with
  | nil =>
    refine ⟨by simp [nearestLoop], fun found => ?_⟩
    rw [nearestLoop] at found
    rcases before with ⟨-, nonzero⟩ | ⟨notFound, -⟩
    · simp [nearestLoop, nonzero]
    · exact absurd (notFound.symm.trans found) Bool.false_ne_true
  | cons call rest ih =>
    cases bounds : boundsOf ev.funcID off call with
    | none =>
      rw [nearestLoop_noBounds rest acc bounds]
      simpa [bounds] using ih before
    | some b =>
      by_cases inside : b.Inside ev.timestamp.toInt64
      · obtain ⟨found, zero⟩ := nearestLoop_inside rest acc bounds inside
        refine ⟨⟨fun _ => .inr ⟨call, List.mem_cons_self, b, bounds⟩, fun _ => found⟩, fun _ => ⟨fun _ => ?_, fun _ => zero⟩⟩
        exact ⟨call, List.mem_cons_self, b, bounds, inside⟩
      · obtain ⟨taken, passed, ⟨found, -, -, delta, -⟩, same, step⟩ := nearestLoop_outside rest acc bounds inside
        simp only [Prod.mk.injEq] at same
        rw [step]
        have rest_ : (∃ c ∈ call :: rest, ∃ b, boundsOf ev.funcID off c = some b ∧ b.Inside ev.timestamp.toInt64) ↔
            ∃ c ∈ rest, ∃ b, boundsOf ev.funcID off c = some b ∧ b.Inside ev.timestamp.toInt64 := by
          simp [bounds, inside]
        have given : ∃ c ∈ call :: rest, ∃ b, boundsOf ev.funcID off c = some b := ⟨call, List.mem_cons_self, b, bounds⟩
        rw [rest_]
        split
        · have taken_ : Nearer taken := .inl ⟨found, delta ▸ delta_ne_zero inside⟩
          have next := ih taken_
          exact ⟨⟨fun _ => .inr given, fun _ => next.1.mpr (.inl found)⟩, next.2⟩
        · rename_i kept
          have held : acc.found = true := by
            rcases before with ⟨held, -⟩ | ⟨-, unset⟩
            · exact held
            · exact absurd (.inl unset) kept
          have nonzero : acc.delta ≠ 0 := by
            rcases before with ⟨-, nonzero⟩ | ⟨notFound, -⟩
            · exact nonzero
            · exact absurd (notFound.symm.trans held) Bool.false_ne_true
          have passed_ : Nearer passed := .inl ⟨same.1.trans held, same.2.2.2.1 ▸ nonzero⟩
          have next := ih passed_
          exact ⟨⟨fun _ => .inr given, fun _ => next.1.mpr (.inl (same.1.trans held))⟩, next.2⟩

end Scans

/-! ### Outcomes -/

/-- The event lies inside of a window, and in no window that the tolerance widens: a difference wraps. -/
def Stray (inp : BuildInput) (ev : HmdfsTraceEvent) : Prop :=
  ∃ p, inp.progOf ev = some p ∧ ev.funcID ≠ funcWritepage ∧
    (∃ c ∈ p.calls, ∃ b, boundsOf ev.funcID (tscoffFor inp.tscoffs ev.progIdx) c = some b ∧ b.Inside ev.timestamp.toInt64) ∧
    ∀ c ∈ p.calls, ∀ b, boundsOf ev.funcID (tscoffFor inp.tscoffs ev.progIdx) c = some b →
      ¬ b.Widened inp.tol ev.timestamp.toInt64

theorem funcMatchesCall_known {fid : UInt32} {name : String} (fits : funcMatchesCall fid name = true) : fid < 16 := by
  by_contra unknown
  have other : ∀ k : UInt32, k < 16 → fid ≠ k := fun k known same => unknown (same ▸ known)
  rw [funcMatchesCall] at fits
  simp [other funcMkdir (by decide), other funcCreate (by decide), other funcRmdir (by decide), other funcUnlink (by decide),
    other funcRename (by decide), other funcWrite (by decide), other funcRead (by decide), other funcFileOpen (by decide),
    other funcDirOpen (by decide), other funcGetattr (by decide), other funcSetattr (by decide), other funcFsync (by decide),
    other funcRelease (by decide), other funcLookup (by decide), other funcIterate (by decide)] at fits

structure FromEvent (inp : BuildInput) (ev : HmdfsTraceEvent) (v : DAGVertex) : Prop where
  funcID : v.funcID = ev.funcID
  known : v.funcID < 16
  progIdx : v.progIdx = ev.progIdx
  node : 0 ≤ v.progIdx ∧ v.progIdx < inp.ps.length
  retBucket : v.retBucket = bucketizeRet ev.funcID ev.ret

theorem progOf_some {inp : BuildInput} {ev : HmdfsTraceEvent} {p : Prog} (found : inp.progOf ev = some p) :
    0 ≤ ev.progIdx ∧ ev.progIdx < inp.ps.length := by
  rw [BuildInput.progOf] at found
  split at found
  · cases found
  · rename_i inside
    simp only [Bool.or_eq_true, decide_eq_true_eq, not_or] at inside
    omega

section Outcomes

variable {srt : Go.SliceSort} {inp : BuildInput} {s : Snapshots} {tl : Timelines} {ev : HmdfsTraceEvent}

variable (s ev) in
theorem finishVertex_cases (dist : Option Int64) (v : DAGVertex) :
    finishVertex s ev dist v = .pathEmpty dist ∨ ∃ v', finishVertex s ev dist v = .vertex dist v' ∧ v'.funcID = v.funcID ∧
      v'.progIdx = v.progIdx ∧ v'.retBucket = v.retBucket := by
  rw [finishVertex]
  split
  · exact .inl rfl
  · exact .inr ⟨_, rfl, rfl, rfl, rfl⟩

/-- The exits of the vertex pass; none is for a call without check info. -/
inductive Exit (inp : BuildInput) (ev : HmdfsTraceEvent) : Outcome → Prop
  | progIdxBad : Exit inp ev .progIdxBad
  | matchFailed {p : Prog} {why : MatchFailure} (prog : inp.progOf ev = some p) (timed : ev.funcID ≠ funcWritepage)
      (failed : matchEventToCall inp.tol ev p inp.tscoffs = .error why) : Exit inp ev (.matchFailed p why)
  | pathEmpty {dist : Option Int64} : Exit inp ev (.pathEmpty dist)
  | vertex {dist : Option Int64} {v : DAGVertex} (fromEvent : FromEvent inp ev v) : Exit inp ev (.vertex dist v)

theorem outcomeOf_exit (srt : Go.SliceSort) (inp : BuildInput) (s : Snapshots) (tl : Timelines) (ev : HmdfsTraceEvent) :
    Exit inp ev (outcomeOf srt inp s tl ev) := by
  rw [outcomeOf]
  cases prog : inp.progOf ev with
  | none => exact .progIdxBad
  | some p =>
    have node := progOf_some prog
    have finish (known : ev.funcID < 16) (dist : Option Int64) (v : DAGVertex) (func : v.funcID = ev.funcID)
        (idx : v.progIdx = ev.progIdx) (ret : v.retBucket = bucketizeRet ev.funcID ev.ret) :
        Exit inp ev (finishVertex s ev dist v) := by
      rcases finishVertex_cases s ev dist v with empty | ⟨v', made, func', idx', ret'⟩
      · rw [empty]
        exact .pathEmpty
      · rw [made]
        have same := func'.trans func
        have place := idx'.trans idx
        exact .vertex ⟨same, same ▸ known, place, place ▸ node, ret'.trans ret⟩
    dsimp only
    split
    · rename_i page
      exact finish (page ▸ by decide) none _ rfl rfl rfl
    · rename_i timed
      cases found : matchEventToCall inp.tol ev p inp.tscoffs with
      | error why => exact .matchFailed prog timed found
      | ok i =>
        obtain ⟨call, here, b, bounds⟩ := matchEventToCall_ok found
        obtain ⟨fits, ci, info, -⟩ := boundsOf_some bounds
        simp only [here, info]
        exact finish (funcMatchesCall_known fits) _ _ rfl rfl rfl

end Outcomes

/-! ### Counters -/

theorem length_bump (h : Hist) (i : Nat) : (bump h i).length = h.length := List.length_modify ..

theorem sum_bump {h : Hist} {i : Nat} (inside : i < h.length) : (bump h i).sum = h.sum + 1 := by
  induction h generalizing i with
  | nil => cases inside
  | cons n h ih =>
    cases i with
    | zero =>
      show (n + 1) + h.sum = n + h.sum + 1
      omega
    | succ i =>
      have rest := ih (Nat.lt_of_succ_lt_succ inside)
      show n + (bump h i).sum = n + h.sum + 1
      omega

/-- The list of counters for the nodes, made at its first use. -/
def perNode (inp : BuildInput) (h : Hist) : Hist := if h = [] then List.replicate inp.ps.length 0 else h

structure Shaped (inp : BuildInput) (d : DagDiag) : Prop where
  perFunc : d.perFuncVertices.length = 16
  failFunc : d.matchFailFunc.length = 16
  failRetOK : d.matchFailRetOK.length = 16
  distIn : d.matchDistIn.length = 7
  distOut : d.matchDistOut.length = 7
  err : d.errHist.length = 64
  depth : d.depthHist.length = 4
  off : d.offHist.length = 5
  persist : d.persistHist.length = 2
  type : d.typeHist.length = 2
  failNode : (perNode inp d.matchFailByNode).length = inp.ps.length
  perNode : (perNode inp d.perNodeVertices).length = inp.ps.length

/-- The marginals of the vertices, each with the number of the vertices for its sum. -/
structure Marginals (n : Nat) (d : DagDiag) : Prop where
  perFunc : d.perFuncVertices.sum = n
  ret : (RetBucket.all.map d.retHist).sum = n
  depth : d.depthHist.sum = n
  off : d.offHist.sum = n
  type : d.typeHist.sum = n
  persist : d.persistHist.sum = n
  perNode : d.perNodeVertices.sum = n

/-- Every event that failed to match has its reason, and every missed one its place between the windows. -/
structure Failures (d : DagDiag) : Prop where
  reasons : d.matchFailed = d.matchFailNoFunc + d.matchFailNoCI + d.matchFailTime
  places : d.mfGap + d.mfShift = d.matchFailTime

/-- The counters after the events of `evs`, of which `n` are vertices. -/
structure Tallied (inp : BuildInput) (evs : List HmdfsTraceEvent) (n : Nat) (d : DagDiag) : Prop where
  exits : d.progIdxBad + d.matchFailed + d.pathEmpty + n = evs.length
  failures : Failures d
  sides_le : d.mfTimeLate + d.mfTimeEarly ≤ d.matchFailTime
  sides : d.mfTimeLate + d.mfTimeEarly = d.matchFailTime ↔ ∀ ev ∈ evs, ¬ Stray inp ev
  marginals : Marginals n d
  shaped : Shaped inp d

theorem offsetBucketOf_le (v : DAGVertex) : (offsetBucketOf v).toNat ≤ 4 := by
  rw [offsetBucketOf]
  split
  · decide
  · split
    · decide
    · split
      · decide
      · dsimp only
        split <;> decide

theorem depthBucketOf_le (path : String) : (depthBucketOf path).toNat ≤ 3 := by
  rw [depthBucketOf]
  split
  · decide
  · split
    · decide
    · split <;> decide

theorem matchDistBucket_le (ticks : Int64) : matchDistBucket ticks ≤ 6 := by
  rw [matchDistBucket]
  repeat' split
  all_goals decide

theorem perNode_bump {inp : BuildInput} {h : Hist} {i : Nat} (shaped : (perNode inp h).length = inp.ps.length)
    (node : i < inp.ps.length) :
    (perNode inp (bump (perNode inp h) i)).length = inp.ps.length := by
  have longer : (bump (perNode inp h) i).length = inp.ps.length := (length_bump _ _).trans shaped
  have nonempty : bump (perNode inp h) i ≠ [] := fun empty => by
    rw [empty] at longer
    have : (0 : Nat) = inp.ps.length := longer
    omega
  rw [perNode, if_neg nonempty, longer]

theorem sum_perNode (inp : BuildInput) (h : Hist) : (perNode inp h).sum = h.sum := by
  rw [perNode]
  split
  · rename_i empty
    rw [empty]
    simp
  · rfl

section Steps

variable {inp : BuildInput} {ev : HmdfsTraceEvent} {d : DagDiag}

theorem Shaped.countDist (shaped : Shaped inp d) (dist : Option Int64) : Shaped inp (countDist dist d) := by
  cases dist with
  | none => exact shaped
  | some t => exact { shaped with distIn := (length_bump _ _).trans shaped.distIn }

theorem Marginals.countDist {n : Nat} (marginals : Marginals n d) (dist : Option Int64) : Marginals n (countDist dist d) := by
  cases dist with
  | none => exact marginals
  | some t => exact { marginals with }

theorem countVertex_shaped (shaped : Shaped inp d) {v : DAGVertex} (fromEvent : FromEvent inp ev v) :
    Shaped inp (countVertex inp ev v d) where
  perFunc := (length_bump _ _).trans shaped.perFunc
  failFunc := shaped.failFunc
  failRetOK := shaped.failRetOK
  distIn := shaped.distIn
  distOut := shaped.distOut
  err := by
    show (if _ then bump d.errHist _ else d.errHist).length = 64
    split
    · exact (length_bump _ _).trans shaped.err
    · exact shaped.err
  depth := (length_bump _ _).trans shaped.depth
  off := (length_bump _ _).trans shaped.off
  persist := (length_bump _ _).trans shaped.persist
  type := (length_bump _ _).trans shaped.type
  failNode := shaped.failNode
  perNode := perNode_bump shaped.perNode (by have := fromEvent.node; omega)

theorem countVertex_marginals {n : Nat} (marginals : Marginals n d) (shaped : Shaped inp d) {v : DAGVertex}
    (fromEvent : FromEvent inp ev v) : Marginals (n + 1) (countVertex inp ev v d) where
  perFunc := by
    have known : v.funcID.toNat < 16 := UInt32.lt_iff_toNat_lt.mp fromEvent.known
    exact (sum_bump (by rw [shaped.perFunc]; exact known)).trans (congrArg Nat.succ marginals.perFunc)
  ret := (sum_bump_bucket d.retHist v.retBucket).trans (congrArg Nat.succ marginals.ret)
  depth := by
    have small := depthBucketOf_le v.path
    exact (sum_bump (by rw [shaped.depth]; omega)).trans (congrArg Nat.succ marginals.depth)
  off := by
    have small := offsetBucketOf_le v
    exact (sum_bump (by rw [shaped.off]; omega)).trans (congrArg Nat.succ marginals.off)
  type := by
    have small : (if v.isDir then 1 else 0) < 2 := by split <;> decide
    exact (sum_bump (by rw [shaped.type]; exact small)).trans (congrArg Nat.succ marginals.type)
  persist := by
    have small : (if inPersistence v.path inp.hmcfg then 1 else 0) < 2 := by split <;> decide
    exact (sum_bump (by rw [shaped.persist]; exact small)).trans (congrArg Nat.succ marginals.persist)
  perNode := by
    have node := fromEvent.node
    refine (sum_bump (h := perNode inp d.perNodeVertices) ?_).trans ?_
    · rw [shaped.perNode]
      omega
    · rw [sum_perNode, marginals.perNode]

/-- What a missed event adds to the counters of its place. -/
structure OutsideSpec (inp : BuildInput) (p : Prog) (ev : HmdfsTraceEvent) (d d' : DagDiag) : Prop where
  time : d'.matchFailTime = d.matchFailTime + 1
  place : d'.mfGap + d'.mfShift = d.mfGap + d.mfShift + 1
  stray : (nearestWindowOfFunc ev p inp.tscoffs).delta = 0 → d'.mfTimeLate + d'.mfTimeEarly = d.mfTimeLate + d.mfTimeEarly
  sided : (nearestWindowOfFunc ev p inp.tscoffs).delta ≠ 0 → d'.mfTimeLate + d'.mfTimeEarly = d.mfTimeLate + d.mfTimeEarly + 1
  others : d'.progIdxBad = d.progIdxBad ∧ d'.matchFailed = d.matchFailed ∧ d'.pathEmpty = d.pathEmpty ∧
    d'.matchFailNoFunc = d.matchFailNoFunc ∧ d'.matchFailNoCI = d.matchFailNoCI
  marginals : ∀ n, Marginals n d → Marginals n d'
  shaped : Shaped inp d → ev.progIdx.toNat < inp.ps.length → Shaped inp d'

theorem countOutside_spec {p : Prog} (found : (nearestWindowOfFunc ev p inp.tscoffs).found = true) :
    OutsideSpec inp p ev d (countOutside inp p ev d) := by
  rw [countOutside]
  dsimp only
  rw [if_pos found]
  generalize window : nearestWindowOfFunc ev p inp.tscoffs = w at *
  have zero : (0 : Int64).toInt = 0 := rfl
  constructor
  · rfl
  · dsimp only
    split <;> omega
  · intro none
    rw [window] at none
    have notLate : ¬ w.delta > 0 := by rw [none]; decide
    have notEarly : ¬ w.delta < 0 := by rw [none]; decide
    simp only [notLate, notEarly, if_false]
  · intro some
    rw [window] at some
    rcases Int.lt_trichotomy w.delta.toInt 0 with early | same | late
    · have isEarly : w.delta < 0 := Int64.lt_iff_toInt_lt.mpr early
      have notLate : ¬ w.delta > 0 := Int64.not_lt.mpr (Int64.le_of_lt isEarly)
      simp only [isEarly, notLate, if_true, if_false]
      omega
    · exact absurd (Int64.toInt_inj.mp (same.trans zero.symm)) some
    · have isLate : w.delta > 0 := Int64.lt_iff_toInt_lt.mpr late
      have notEarly : ¬ w.delta < 0 := Int64.not_lt.mpr (Int64.le_of_lt isLate)
      simp only [isLate, notEarly, if_true, if_false]
      omega
  · exact ⟨rfl, rfl, rfl, rfl, rfl⟩
  · intro n marginals
    exact { marginals with }
  · intro shaped node
    exact { shaped with
      failNode := perNode_bump shaped.failNode node
      distOut := (length_bump _ _).trans shaped.distOut }

/-- The counters by function of an event that failed to match. -/
def countFailedFunc (ev : HmdfsTraceEvent) (d : DagDiag) : DagDiag :=
  let b := bucketizeRet ev.funcID ev.ret
  { d with
    matchFailed := d.matchFailed + 1
    matchFailFunc := bump d.matchFailFunc ev.funcID.toNat
    matchFailRetOK := if b = .success || b = .writepageDone then bump d.matchFailRetOK ev.funcID.toNat else d.matchFailRetOK }

theorem countMatchFailed_eq (inp : BuildInput) (p : Prog) (why : MatchFailure) (ev : HmdfsTraceEvent) (d : DagDiag) :
    countMatchFailed inp p why ev d =
      match why with
      | .noFunc => { countFailedFunc ev d with matchFailNoFunc := d.matchFailNoFunc + 1 }
      | .noCI => { countFailedFunc ev d with matchFailNoCI := d.matchFailNoCI + 1 }
      | .outside => countOutside inp p ev (countFailedFunc ev d) := by
  cases why <;> rfl

variable (ev) in
theorem countFailedFunc_shaped (shaped : Shaped inp d) : Shaped inp (countFailedFunc ev d) :=
  { shaped with
    failFunc := (length_bump _ _).trans shaped.failFunc
    failRetOK := by
      show (if _ then bump d.matchFailRetOK _ else d.matchFailRetOK).length = 16
      split
      · exact (length_bump _ _).trans shaped.failRetOK
      · exact shaped.failRetOK }

theorem outside_stray {p : Prog} (prog : inp.progOf ev = some p) (timed : ev.funcID ≠ funcWritepage)
    (failed : matchEventToCall inp.tol ev p inp.tscoffs = .error .outside) :
    (nearestWindowOfFunc ev p inp.tscoffs).found = true ∧
      ((nearestWindowOfFunc ev p inp.tscoffs).delta = 0 ↔ Stray inp ev) := by
  obtain ⟨given, missed⟩ := matchEventToCall_outside.mp failed
  have start : Nearer {} := .inr ⟨rfl, rfl⟩
  obtain ⟨found_iff, zero_iff⟩ := nearestLoop_computed ev (tscoffFor inp.tscoffs ev.progIdx) p.calls start
  have found := found_iff.mpr (.inr given)
  refine ⟨found, (zero_iff found).trans ⟨fun inside => ⟨p, prog, timed, inside, missed⟩, ?_⟩⟩
  rintro ⟨p', prog', -, inside, -⟩
  cases prog.symm.trans prog'
  exact inside

theorem not_stray {p : Prog} (prog : inp.progOf ev = some p)
    (matched : ev.funcID = funcWritepage ∨ matchEventToCall inp.tol ev p inp.tscoffs ≠ .error .outside) : ¬ Stray inp ev := by
  rintro ⟨p', prog', timed, ⟨c, member, b, bounds, -⟩, missed⟩
  cases prog.symm.trans prog'
  rcases matched with page | other
  · exact timed page
  · exact other (matchEventToCall_outside.mpr ⟨⟨c, member, b, bounds⟩, missed⟩)

theorem countMatchFailed_tallied {evs : List HmdfsTraceEvent} {n : Nat} {p : Prog} {why : MatchFailure}
    (tallied : Tallied inp evs n d) (prog : inp.progOf ev = some p) (timed : ev.funcID ≠ funcWritepage)
    (failed : matchEventToCall inp.tol ev p inp.tscoffs = .error why) :
    Tallied inp (evs ++ [ev]) n (countMatchFailed inp p why ev d) := by
  obtain ⟨exits, ⟨reasons, places⟩, sides_le, sides, marginals, shaped⟩ := tallied
  have shape := countFailedFunc_shaped ev shaped
  have unstray (other : matchEventToCall inp.tol ev p inp.tscoffs ≠ .error .outside) :
      (∀ e ∈ evs ++ [ev], ¬ Stray inp e) ↔ ∀ e ∈ evs, ¬ Stray inp e := by
    rw [List.forall_mem_append, List.forall_mem_singleton]
    exact and_iff_left (not_stray prog (.inr other))
  rw [countMatchFailed_eq]
  cases why with
  | noFunc =>
    refine ⟨?_, ⟨?_, places⟩, sides_le, sides.trans (unstray (by rw [failed]; simp)).symm, { marginals with }, { shape with }⟩
    · show d.progIdxBad + (d.matchFailed + 1) + d.pathEmpty + n = (evs ++ [ev]).length
      simp only [List.length_append, List.length_singleton]
      omega
    · show d.matchFailed + 1 = d.matchFailNoFunc + 1 + d.matchFailNoCI + d.matchFailTime
      omega
  | noCI =>
    refine ⟨?_, ⟨?_, places⟩, sides_le, sides.trans (unstray (by rw [failed]; simp)).symm, { marginals with }, { shape with }⟩
    · show d.progIdxBad + (d.matchFailed + 1) + d.pathEmpty + n = (evs ++ [ev]).length
      simp only [List.length_append, List.length_singleton]
      omega
    · show d.matchFailed + 1 = d.matchFailNoFunc + (d.matchFailNoCI + 1) + d.matchFailTime
      omega
  | outside =>
    obtain ⟨found, stray_iff⟩ := outside_stray prog timed failed
    have spec := countOutside_spec (d := countFailedFunc ev d) found
    have node := progOf_some prog
    dsimp only
    generalize countOutside inp p ev (countFailedFunc ev d) = d' at spec ⊢
    obtain ⟨progIdxBad, matchFailed, pathEmpty, noFunc, noCI⟩ := spec.others
    have time := spec.time
    have place := spec.place
    dsimp only [countFailedFunc] at progIdxBad matchFailed pathEmpty noFunc noCI time place
    have last : (∀ e ∈ evs ++ [ev], ¬ Stray inp e) ↔ (∀ e ∈ evs, ¬ Stray inp e) ∧ ¬ Stray inp ev := by
      rw [List.forall_mem_append, List.forall_mem_singleton]
    refine ⟨?_, ⟨?_, ?_⟩, ?_, ?_, spec.marginals n { marginals with }, spec.shaped shape (by omega)⟩
    · rw [progIdxBad, matchFailed, pathEmpty, List.length_append, List.length_singleton]
      omega
    · rw [matchFailed, noFunc, noCI, time]
      omega
    · rw [place, time]
      omega
    · by_cases stray : (nearestWindowOfFunc ev p inp.tscoffs).delta = 0
      · have kept := spec.stray stray
        dsimp only [countFailedFunc] at kept
        omega
      · have moved := spec.sided stray
        dsimp only [countFailedFunc] at moved
        omega
    · rw [last, ← sides, ← stray_iff]
      by_cases stray : (nearestWindowOfFunc ev p inp.tscoffs).delta = 0
      · have kept := spec.stray stray
        dsimp only [countFailedFunc] at kept
        constructor
        · intro balanced
          omega
        · rintro ⟨-, other⟩
          exact absurd stray other
      · have moved := spec.sided stray
        dsimp only [countFailedFunc] at moved
        constructor
        · intro balanced
          exact ⟨by omega, stray⟩
        · rintro ⟨balanced, -⟩
          omega

end Steps

section Run

variable (srt : Go.SliceSort) (inp : BuildInput) (s : Snapshots) (tl : Timelines)

theorem buildStep_tallied {evs : List HmdfsTraceEvent} {st : BuildState} (tallied : Tallied inp evs st.vertices.length st.diag)
    (ev : HmdfsTraceEvent) :
    Tallied inp (evs ++ [ev]) (buildStep srt inp s tl st ev).vertices.length (buildStep srt inp s tl st ev).diag := by
  have exit := outcomeOf_exit srt inp s tl ev
  have unstray (calm : ¬ Stray inp ev) : (∀ e ∈ evs ++ [ev], ¬ Stray inp e) ↔ ∀ e ∈ evs, ¬ Stray inp e := by
    rw [List.forall_mem_append, List.forall_mem_singleton]
    exact and_iff_left calm
  -- a vertex and an empty path come from an event that is matched or is a written page
  have calm (fine : ∀ p why, outcomeOf srt inp s tl ev ≠ .matchFailed p why) : ¬ Stray inp ev := by
    intro stray
    obtain ⟨p, prog, timed, ⟨c, member, b, bounds, -⟩, missed⟩ := stray
    refine fine p .outside ?_
    have failed := matchEventToCall_outside.mpr ⟨⟨c, member, b, bounds⟩, missed⟩
    rw [outcomeOf, prog]
    simp only [timed, if_false, failed]
  obtain ⟨exits, failures, sides_le, sides, marginals, shaped⟩ := tallied
  rw [buildStep]
  generalize outcomeOf srt inp s tl ev = outcome at *
  cases exit with
  | progIdxBad =>
    have same := sides.trans (unstray (calm fun _ _ other => by cases other)).symm
    refine ⟨?_, { failures with }, sides_le, same, { marginals with }, { shaped with }⟩
    show st.diag.progIdxBad + 1 + st.diag.matchFailed + st.diag.pathEmpty + st.vertices.length = (evs ++ [ev]).length
    simp only [List.length_append, List.length_singleton]
    omega
  | matchFailed prog timed failed =>
    exact countMatchFailed_tallied ⟨exits, failures, sides_le, sides, marginals, shaped⟩ prog timed failed
  | @pathEmpty dist =>
    have same := sides.trans (unstray (calm fun _ _ other => by cases other)).symm
    have counted : (countDist dist st.diag).progIdxBad = st.diag.progIdxBad ∧ (countDist dist st.diag).matchFailed = st.diag.matchFailed ∧
        (countDist dist st.diag).pathEmpty = st.diag.pathEmpty := by
      cases dist <;> exact ⟨rfl, rfl, rfl⟩
    refine ⟨?_, ?_, ?_, ?_, { marginals.countDist dist with }, { shaped.countDist dist with }⟩
    · show (countDist dist st.diag).progIdxBad + (countDist dist st.diag).matchFailed + ((countDist dist st.diag).pathEmpty + 1) +
        st.vertices.length = (evs ++ [ev]).length
      rw [counted.1, counted.2.1, counted.2.2, List.length_append, List.length_singleton]
      omega
    · cases dist <;> exact { failures with }
    · cases dist <;> exact sides_le
    · cases dist <;> exact same
  | @vertex dist v fromEvent =>
    have same := sides.trans (unstray (calm fun _ _ other => by cases other)).symm
    have counted : (countDist dist st.diag).progIdxBad = st.diag.progIdxBad ∧ (countDist dist st.diag).matchFailed = st.diag.matchFailed ∧
        (countDist dist st.diag).pathEmpty = st.diag.pathEmpty := by
      cases dist <;> exact ⟨rfl, rfl, rfl⟩
    have length : (st.vertices ++ [v]).length = st.vertices.length + 1 := by simp
    refine ⟨?_, ?_, ?_, ?_, ?_, countVertex_shaped (shaped.countDist dist) fromEvent⟩
    · show (countDist dist st.diag).progIdxBad + (countDist dist st.diag).matchFailed + (countDist dist st.diag).pathEmpty +
        (st.vertices ++ [v]).length = (evs ++ [ev]).length
      rw [counted.1, counted.2.1, counted.2.2, length, List.length_append, List.length_singleton]
      omega
    · cases dist <;> exact { failures with }
    · cases dist <;> exact sides_le
    · cases dist <;> exact same
    · show Marginals (st.vertices ++ [v]).length _
      rw [length]
      exact countVertex_marginals (marginals.countDist dist) (shaped.countDist dist) fromEvent

theorem buildLoop_tallied {evs : List HmdfsTraceEvent} (rest : List HmdfsTraceEvent) (st : BuildState)
    (tallied : Tallied inp evs st.vertices.length st.diag) :
    Tallied inp (evs ++ rest) (rest.foldl (buildStep srt inp s tl) st).vertices.length (rest.foldl (buildStep srt inp s tl) st).diag := by
  induction rest generalizing evs st with
  | nil =>
    rw [List.append_nil]
    exact tallied
  | cons ev rest ih =>
    have next := ih _ (buildStep_tallied srt inp s tl tallied ev)
    rw [List.append_assoc, List.singleton_append] at next
    exact next

theorem fresh_tallied (k : Nat) : Tallied inp [] 0 { events := k } where
  exits := rfl
  failures := ⟨rfl, rfl⟩
  sides_le := le_rfl
  sides := ⟨fun _ _ member => absurd member List.not_mem_nil, fun _ => rfl⟩
  marginals := ⟨rfl, rfl, rfl, rfl, rfl, rfl, rfl⟩
  shaped :=
    have nodes : (perNode inp []).length = inp.ps.length := by
      rw [perNode, if_pos rfl, List.length_replicate]
    ⟨rfl, rfl, rfl, rfl, rfl, rfl, rfl, rfl, rfl, rfl, nodes, nodes⟩

end Run

end DfsFuzz.Dag
