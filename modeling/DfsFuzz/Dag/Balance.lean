import DfsFuzz.Dag.Tallies

/-!
The diagnostics of `BuildVertices` account for every event, no index leaves its array, and the feature
words keep their fields apart.
-/

namespace DfsFuzz.Dag

/-! ### Indices -/

/-- An index into an array, with the length of the array. -/
structure Access where
  index : Int
  length : Nat

def Access.Within (a : Access) : Prop := 0 ≤ a.index ∧ a.index < a.length

/-- The program and the call that are looked up for an event, in both passes. -/
def lookupAccesses (inp : BuildInput) (ev : HmdfsTraceEvent) : List Access :=
  match inp.progOf ev with
  | none => []
  | some p =>
    ⟨ev.progIdx, inp.ps.length⟩ ::
      match matchEventToCall inp.tol ev p inp.tscoffs with
      | .ok i => [⟨i, p.calls.length⟩]
      | .error _ => []

def failureAccesses (inp : BuildInput) (p : Prog) (why : MatchFailure) (ev : HmdfsTraceEvent) (d : DagDiag) : List Access :=
  (if ev.funcID.toNat < d.matchFailFunc.length then
    [⟨ev.funcID.toNat, d.matchFailFunc.length⟩, ⟨ev.funcID.toNat, d.matchFailRetOK.length⟩] else []) ++
  if why = .outside then
    let w := nearestWindowOfFunc ev p inp.tscoffs
    ⟨ev.progIdx, (perNode inp d.matchFailByNode).length⟩ ::
      if w.found then [⟨matchDistBucket (if w.delta < 0 then -w.delta else w.delta), d.matchDistOut.length⟩] else []
  else []

def distAccesses (dist : Option Int64) (d : DagDiag) : List Access :=
  (dist.map fun t => ⟨matchDistBucket t, d.matchDistIn.length⟩).toList

def vertexAccesses (inp : BuildInput) (ev : HmdfsTraceEvent) (v : DAGVertex) (d : DagDiag) : List Access :=
  (if ev.ret < 0 && ev.ret ≥ -64 then [⟨-ev.ret.toInt - 1, d.errHist.length⟩] else []) ++
    [⟨v.funcID.toNat, d.perFuncVertices.length⟩, ⟨v.retBucket.toNat, 6⟩, ⟨(depthBucketOf v.path).toNat, d.depthHist.length⟩,
      ⟨(offsetBucketOf v).toNat, d.offHist.length⟩, ⟨if v.isDir then 1 else 0, d.typeHist.length⟩,
      ⟨if inPersistence v.path inp.hmcfg then 1 else 0, d.persistHist.length⟩,
      ⟨v.progIdx, (perNode inp d.perNodeVertices).length⟩]

def outcomeAccesses (inp : BuildInput) (ev : HmdfsTraceEvent) (d : DagDiag) : Outcome → List Access
  | .progIdxBad => []
  | .matchFailed p why => failureAccesses inp p why ev d
  | .noCheckInfo => []
  | .pathEmpty dist => distAccesses dist d
  | .vertex dist v => distAccesses dist d ++ vertexAccesses inp ev v (countDist dist d)

/-- The indices that the vertex pass uses for the events, from a state on. -/
def runAccesses (srt : Go.SliceSort) (inp : BuildInput) (s : Snapshots) (tl : Timelines) :
    List HmdfsTraceEvent → BuildState → List Access
  | [], _ => []
  | ev :: rest, st =>
    lookupAccesses inp ev ++ outcomeAccesses inp ev st.diag (outcomeOf srt inp s tl ev) ++
      runAccesses srt inp s tl rest (buildStep srt inp s tl st ev)

/-- The vertices of every pair that `ExtractPairs` looks at, and the buckets of the pairs that it yields. -/
def pairAccesses (vertices : List DAGVertex) (diag : DagDiag) : List Access :=
  ((Go.pairs (refs vertices)).flatMap fun p => [⟨p.1.idx, vertices.length⟩, ⟨p.2.idx, vertices.length⟩]) ++
    ((extractPairs vertices diag).hbPairs ++ (extractPairs vertices diag).ccPairs).flatMap fun p =>
      [⟨p.A.v.retBucket.toNat, 6⟩, ⟨p.B.v.retBucket.toNat, 6⟩]

def accesses (srt : Go.SliceSort) (inp : BuildInput) (events : List HmdfsTraceEvent) : List Access :=
  runAccesses srt inp (snapshotsOf inp.fsMds) (timelinesOf srt inp events) events { diag := { events := events.length } } ++
    pairAccesses (buildVertices srt inp events).1 (buildVertices srt inp events).2

theorem Access.within_nat {i n : Nat} (below : i < n) : (Access.mk i n).Within := ⟨Int.natCast_nonneg i, Int.ofNat_lt.mpr below⟩

theorem RetBucket.toNat_lt (b : RetBucket) : b.toNat < 6 := by
  cases b <;> decide

section Indices

variable {inp : BuildInput} {ev : HmdfsTraceEvent} {d : DagDiag}

theorem lookupAccesses_within : ∀ a ∈ lookupAccesses inp ev, a.Within := by
  intro a member
  rw [lookupAccesses] at member
  cases prog : inp.progOf ev with
  | none => simp [prog] at member
  | some p =>
    have node := progOf_some prog
    simp only [prog] at member
    rcases List.mem_cons.mp member with rfl | member
    · exact node
    · cases found : matchEventToCall inp.tol ev p inp.tscoffs with
      | error why => simp [found] at member
      | ok i =>
        simp only [found, List.mem_singleton] at member
        obtain ⟨call, here, -⟩ := matchEventToCall_ok found
        rw [member]
        exact Access.within_nat (List.getElem?_eq_some_iff.mp here).1

theorem distAccesses_within (shaped : Shaped inp d) (dist : Option Int64) : ∀ a ∈ distAccesses dist d, a.Within := by
  intro a member
  obtain ⟨t, -, rfl⟩ := Option.map_eq_some_iff.mp (Option.mem_toList.mp member)
  have small := matchDistBucket_le t
  exact Access.within_nat (by rw [shaped.distIn]; omega)

theorem vertexAccesses_within (shaped : Shaped inp d) {v : DAGVertex} (fromEvent : FromEvent inp ev v) :
    ∀ a ∈ vertexAccesses inp ev v d, a.Within := by
  intro a member
  have known : v.funcID.toNat < 16 := UInt32.lt_iff_toNat_lt.mp fromEvent.known
  have depth := depthBucketOf_le v.path
  have off := offsetBucketOf_le v
  rcases List.mem_append.mp member with error | member
  · split at error
    · rename_i code
      rw [List.mem_singleton] at error
      rw [Bool.and_eq_true, decide_eq_true_eq, decide_eq_true_eq, ge_iff_le, Int32.lt_iff_toInt_lt, Int32.le_iff_toInt_le] at code
      have zero : (0 : Int32).toInt = 0 := rfl
      have least : (-64 : Int32).toInt = -64 := by decide
      rw [zero, least] at code
      rw [error, Access.Within]
      dsimp only
      rw [shaped.err]
      omega
    · cases error
  · simp only [List.mem_cons, List.not_mem_nil, or_false] at member
    rcases member with rfl | rfl | rfl | rfl | rfl | rfl | rfl
    · exact Access.within_nat (by rw [shaped.perFunc]; exact known)
    · exact Access.within_nat v.retBucket.toNat_lt
    · exact Access.within_nat (by rw [shaped.depth]; omega)
    · exact Access.within_nat (by rw [shaped.off]; omega)
    · rw [Access.Within, shaped.type]
      dsimp only
      split <;> omega
    · rw [Access.Within, shaped.persist]
      dsimp only
      split <;> omega
    · rw [Access.Within, shaped.perNode]
      exact fromEvent.node

theorem failureAccesses_within (shaped : Shaped inp d) {p : Prog} {why : MatchFailure} (prog : inp.progOf ev = some p) :
    ∀ a ∈ failureAccesses inp p why ev d, a.Within := by
  intro a member
  have node := progOf_some prog
  rcases List.mem_append.mp member with func | member
  · split at func
    · rename_i known
      rw [List.mem_pair] at func
      rcases func with rfl | rfl
      · exact Access.within_nat known
      · exact Access.within_nat (by rw [shaped.failRetOK]; rw [shaped.failFunc] at known; exact known)
    · cases func
  · split at member
    · rcases List.mem_cons.mp member with rfl | member
      · rw [Access.Within, shaped.failNode]
        exact node
      · split at member
        · rw [List.mem_singleton] at member
          have small := matchDistBucket_le
            (if (nearestWindowOfFunc ev p inp.tscoffs).delta < 0 then -(nearestWindowOfFunc ev p inp.tscoffs).delta
              else (nearestWindowOfFunc ev p inp.tscoffs).delta)
          rw [member]
          exact Access.within_nat (by rw [shaped.distOut]; omega)
        · cases member
    · cases member

theorem outcomeAccesses_within (shaped : Shaped inp d) {outcome : Outcome} (exit : Exit inp ev outcome) :
    ∀ a ∈ outcomeAccesses inp ev d outcome, a.Within := by
  cases exit with
  | progIdxBad =>
    intro a member
    cases member
  | matchFailed prog timed failed => exact failureAccesses_within shaped prog
  | pathEmpty => exact distAccesses_within shaped _
  | vertex fromEvent =>
    intro a member
    rcases List.mem_append.mp member with dist | vertex
    · exact distAccesses_within shaped _ a dist
    · exact vertexAccesses_within (shaped.countDist _) fromEvent a vertex

theorem runAccesses_within (srt : Go.SliceSort) (s : Snapshots) (tl : Timelines) {evs rest : List HmdfsTraceEvent} {st : BuildState}
    (tallied : Tallied inp evs st.vertices.length st.diag) : ∀ a ∈ runAccesses srt inp s tl rest st, a.Within := by
  induction rest generalizing evs st with
  | nil =>
    intro a member
    cases member
  | cons ev rest ih =>
    intro a member
    rcases List.mem_append.mp member with now | later
    · rcases List.mem_append.mp now with lookup | counted
      · exact lookupAccesses_within a lookup
      · exact outcomeAccesses_within tallied.shaped (outcomeOf_exit srt inp s tl ev) a counted
    · exact ih (buildStep_tallied srt inp s tl tallied ev) a later

theorem pairAccesses_within (vertices : List DAGVertex) (diag : DagDiag) : ∀ a ∈ pairAccesses vertices diag, a.Within := by
  intro a member
  have inside : ∀ r ∈ refs vertices, r.idx < vertices.length := fun r here => (List.getElem?_eq_some_iff.mp (mem_refs.mp here)).1
  rcases List.mem_append.mp member with seen | yielded
  · obtain ⟨p, pair, here⟩ := List.mem_flatMap.mp seen
    obtain ⟨first, second⟩ := Go.mem_of_mem_pairs pair
    rcases List.mem_pair.mp here with rfl | rfl
    · exact Access.within_nat (inside _ first)
    · exact Access.within_nat (inside _ second)
  · obtain ⟨p, -, here⟩ := List.mem_flatMap.mp yielded
    rcases List.mem_pair.mp here with rfl | rfl
    · exact Access.within_nat p.A.v.retBucket.toNat_lt
    · exact Access.within_nat p.B.v.retBucket.toNat_lt

end Indices

/-! ### Features -/

theorem toNat_pack {x y : UInt64} {k bound : Nat} (k_lt : k < 64) (low : x.toNat < 2 ^ k) (high : y.toNat < bound)
    (fits : bound * 2 ^ k ≤ 2 ^ 64) : (x ||| y <<< UInt64.ofNat k).toNat = x.toNat + y.toNat * 2 ^ k := by
  have shift : (UInt64.ofNat k).toNat % 64 = k := by
    rw [UInt64.toNat_ofNat_of_lt' (by show k < 2 ^ 64; omega), Nat.mod_eq_of_lt k_lt]
  have room : y.toNat * 2 ^ k < 2 ^ 64 := lt_of_lt_of_le (Nat.mul_lt_mul_of_pos_right high (Nat.two_pow_pos k)) fits
  rw [UInt64.toNat_or, UInt64.toNat_shiftLeft, shift, Nat.shiftLeft_eq, Nat.mod_eq_of_lt room, Nat.mul_comm,
    Nat.or_comm, ← Nat.two_pow_add_eq_or_of_lt low, Nat.add_comm]

structure Features where
  funcID : Nat
  ret : Nat
  depth : Nat
  nodeType : Nat
  persist : Nat
  offset : Nat
deriving DecidableEq

def featuresIn (v : DAGVertex) (hmcfg : FeedbackConfig) : Features where
  funcID := v.funcID.toNat
  ret := v.retBucket.toNat
  depth := (depthBucketOf v.path).toNat
  nodeType := if v.isDir then 1 else 0
  persist := if inPersistence v.path hmcfg then 1 else 0
  offset := (offsetBucketOf v).toNat

structure Features.Fit (f : Features) : Prop where
  funcID : f.funcID < 2 ^ 5
  ret : f.ret < 2 ^ 3
  depth : f.depth < 2 ^ 2
  nodeType : f.nodeType < 2
  persist : f.persist < 2
  offset : f.offset < 2 ^ 3

/-- The word that has the fields one above the other. -/
def Features.word (f : Features) : Nat :=
  f.funcID + f.ret * 2 ^ 5 + f.depth * 2 ^ 8 + f.nodeType * 2 ^ 10 + f.persist * 2 ^ 11 + f.offset * 2 ^ 12

theorem Features.word_inj {f g : Features} (fit : f.Fit) (fit' : g.Fit) (same : f.word = g.word) : f = g := by
  obtain ⟨func, ret, depth, type, persist, offset⟩ := f
  obtain ⟨func', ret', depth', type', persist', offset'⟩ := g
  obtain ⟨h1, h2, h3, h4, h5, h6⟩ := fit
  obtain ⟨k1, k2, k3, k4, k5, k6⟩ := fit'
  simp only [Features.word] at *
  rw [Features.mk.injEq]
  omega

theorem featuresIn_fit {v : DAGVertex} (known : v.funcID < 16) (hmcfg : FeedbackConfig) : (featuresIn v hmcfg).Fit where
  funcID := by
    have below : v.funcID.toNat < 16 := UInt32.lt_iff_toNat_lt.mp known
    show v.funcID.toNat < 2 ^ 5
    omega
  ret := lt_trans v.retBucket.toNat_lt (by decide)
  depth := Nat.lt_succ_of_le (depthBucketOf_le v.path)
  nodeType := by
    show (if v.isDir then 1 else 0) < 2
    split <;> decide
  persist := by
    show (if inPersistence v.path hmcfg then 1 else 0) < 2
    split <;> decide
  offset := lt_of_le_of_lt (offsetBucketOf_le v) (by decide)

theorem featuresOf_word {v : DAGVertex} (known : v.funcID < 16) (hmcfg : FeedbackConfig) :
    (featuresOf v hmcfg).toNat = (featuresIn v hmcfg).word := by
  have flag (b : Bool) : (if b then 1 else 0 : UInt64).toNat = if b then 1 else 0 := by cases b <;> rfl
  have ret : (UInt64.ofNat v.retBucket.toNat).toNat = v.retBucket.toNat := by cases v.retBucket <;> rfl
  obtain ⟨h1, h2, h3, h4, h5, h6⟩ := featuresIn_fit known hmcfg
  have first : v.funcID.toUInt64.toNat = v.funcID.toNat := UInt32.toNat_toUInt64 _
  dsimp only [featuresIn] at h1 h2 h3 h4 h5 h6
  rw [featuresOf, Features.word, featuresIn]
  dsimp only
  rw [← ret] at h2 ⊢
  rw [← first] at h1 ⊢
  rw [← flag] at h4 h5
  rw [← flag, ← flag]
  generalize v.funcID.toUInt64 = a at *
  generalize UInt64.ofNat v.retBucket.toNat = b at *
  generalize depthBucketOf v.path = c at *
  generalize (if v.isDir then 1 else 0 : UInt64) = e at *
  generalize (if inPersistence v.path hmcfg then 1 else 0 : UInt64) = f at *
  generalize offsetBucketOf v = g at *
  have two : (a ||| b <<< 5).toNat = _ := toNat_pack (k := 5) (by decide) h1 h2 (by decide)
  have three : (a ||| b <<< 5 ||| c <<< 8).toNat = _ := toNat_pack (k := 8) (by decide) (by rw [two]; omega) h3 (by decide)
  have four : (a ||| b <<< 5 ||| c <<< 8 ||| e <<< 10).toNat = _ :=
    toNat_pack (k := 10) (by decide) (by rw [three, two]; omega) h4 (by decide)
  have five : (a ||| b <<< 5 ||| c <<< 8 ||| e <<< 10 ||| f <<< 11).toNat = _ :=
    toNat_pack (k := 11) (by decide) (by rw [four, three, two]; omega) h5 (by decide)
  have six : (a ||| b <<< 5 ||| c <<< 8 ||| e <<< 10 ||| f <<< 11 ||| g <<< 12).toNat = _ :=
    toNat_pack (k := 12) (by decide) (by rw [five, four, three, two]; omega) h6 (by decide)
  have same : UInt64.ofNat b.toNat = b := UInt64.ofNat_toNat
  rw [same, six, five, four, three, two]

theorem featuresOf_eq_iff {v w : DAGVertex} (known : v.funcID < 16) (known' : w.funcID < 16) (hmcfg : FeedbackConfig) :
    featuresOf v hmcfg = featuresOf w hmcfg ↔ featuresIn v hmcfg = featuresIn w hmcfg := by
  rw [← UInt64.toNat_inj, featuresOf_word known, featuresOf_word known']
  exact ⟨Features.word_inj (featuresIn_fit known hmcfg) (featuresIn_fit known' hmcfg), congrArg Features.word⟩

/-! ### The diagnostics of a run -/

/-- No index leaves its array, and the vertices have features that fit in their word. -/
structure Safe (srt : Go.SliceSort) (inp : BuildInput) (events : List HmdfsTraceEvent) : Prop where
  indices : ∀ a ∈ accesses srt inp events, a.Within
  ranges : ∀ v ∈ (buildVertices srt inp events).1, v.funcID < 16 ∧ v.retBucket.toNat ≤ 5
  packed : ∀ v ∈ (buildVertices srt inp events).1,
    (featuresIn v inp.hmcfg).Fit ∧ (featuresOf v inp.hmcfg).toNat = (featuresIn v inp.hmcfg).word
  features : ∀ v ∈ (buildVertices srt inp events).1, ∀ w ∈ (buildVertices srt inp events).1,
    (featuresOf v inp.hmcfg = featuresOf w inp.hmcfg ↔ featuresIn v inp.hmcfg = featuresIn w inp.hmcfg)

/-- The counters account for every event, but for the sides of the missed ones. -/
structure Accounted (vertices : List DAGVertex) (d : DagDiag) : Prop where
  exits : d.events = d.progIdxBad + d.matchFailed + d.pathEmpty + vertices.length
  failures : Failures d
  marginals : Marginals vertices.length d

def Sided (d : DagDiag) : Prop := d.mfTimeLate + d.mfTimeEarly = d.matchFailTime

theorem buildStep_events (srt : Go.SliceSort) (inp : BuildInput) (s : Snapshots) (tl : Timelines) (st : BuildState)
    (ev : HmdfsTraceEvent) : (buildStep srt inp s tl st ev).diag.events = st.diag.events := by
  rw [buildStep]
  cases outcomeOf srt inp s tl ev with
  | progIdxBad => rfl
  | matchFailed p why =>
    show (countMatchFailed inp p why ev st.diag).events = st.diag.events
    rw [countMatchFailed_eq]
    cases why with
    | noFunc => rfl
    | noCI => rfl
    | outside =>
      show (countOutside inp p ev (countFailedFunc ev st.diag)).events = st.diag.events
      rw [countOutside]
      dsimp only
      split <;> rfl
  | noCheckInfo => rfl
  | pathEmpty dist => cases dist <;> rfl
  | vertex dist v => cases dist <;> rfl

theorem buildLoop_events (srt : Go.SliceSort) (inp : BuildInput) (s : Snapshots) (tl : Timelines) (events : List HmdfsTraceEvent)
    (st : BuildState) : (events.foldl (buildStep srt inp s tl) st).diag.events = st.diag.events := by
  induction events generalizing st with
  | nil => rfl
  | cons ev events ih => rw [List.foldl_cons, ih, buildStep_events]

theorem buildVertices_tallied (srt : Go.SliceSort) (inp : BuildInput) (events : List HmdfsTraceEvent) :
    (buildVertices srt inp events).2.events = events.length ∧
      Tallied inp events (buildVertices srt inp events).1.length (buildVertices srt inp events).2 := by
  have run := buildLoop_tallied srt inp (snapshotsOf inp.fsMds) (timelinesOf srt inp events) events
    { diag := { events := events.length } } (fresh_tallied inp events.length)
  have total := buildLoop_events srt inp (snapshotsOf inp.fsMds) (timelinesOf srt inp events) events
    { diag := { events := events.length } }
  rw [List.nil_append] at run
  refine ⟨total, ?_⟩
  rw [buildVertices]
  dsimp only
  rw [(srt.perm _ _).length_eq]
  exact run

theorem buildVertices_fromEvent {srt : Go.SliceSort} {inp : BuildInput} {events : List HmdfsTraceEvent} {v : DAGVertex}
    (member : v ∈ (buildVertices srt inp events).1) : ∃ ev ∈ events, FromEvent inp ev v := by
  rw [buildVertices_fst] at member
  obtain ⟨ev, present, made⟩ := List.mem_filterMap.mp ((srt.perm _ _).mem_iff.mp member)
  have exit := outcomeOf_exit srt inp (snapshotsOf inp.fsMds) (timelinesOf srt inp events) ev
  rw [vertexOf] at made
  refine ⟨ev, present, ?_⟩
  cases outcome : outcomeOf srt inp (snapshotsOf inp.fsMds) (timelinesOf srt inp events) ev with
  | vertex dist w =>
    rw [outcome] at made exit
    cases made
    cases exit
    assumption
  | _ =>
    rw [outcome] at made
    cases made

theorem buildVertices_safe (srt : Go.SliceSort) (inp : BuildInput) (events : List HmdfsTraceEvent) : Safe srt inp events := by
  have known : ∀ v ∈ (buildVertices srt inp events).1, v.funcID < 16 := by
    intro v member
    obtain ⟨ev, -, fromEvent⟩ := buildVertices_fromEvent member
    exact fromEvent.known
  constructor
  · intro a member
    rcases List.mem_append.mp member with run | pair
    · exact runAccesses_within srt (snapshotsOf inp.fsMds) (timelinesOf srt inp events) (fresh_tallied inp events.length) a run
    · exact pairAccesses_within _ _ a pair
  · intro v member
    exact ⟨known v member, Nat.le_of_lt_succ v.retBucket.toNat_lt⟩
  · intro v member
    exact ⟨featuresIn_fit (known v member) inp.hmcfg, featuresOf_word (known v member) inp.hmcfg⟩
  · intro v member w member'
    exact featuresOf_eq_iff (known v member) (known w member') inp.hmcfg

theorem buildVertices_accounted (srt : Go.SliceSort) (inp : BuildInput) (events : List HmdfsTraceEvent) :
    Accounted (buildVertices srt inp events).1 (buildVertices srt inp events).2 := by
  obtain ⟨total, tallied⟩ := buildVertices_tallied srt inp events
  have exits := tallied.exits
  exact ⟨by omega, tallied.failures, tallied.marginals⟩

theorem diagnostics_balance_iff (srt : Go.SliceSort) (inp : BuildInput) (events : List HmdfsTraceEvent) :
    (Safe srt inp events ∧ Accounted (buildVertices srt inp events).1 (buildVertices srt inp events).2 ∧
      Sided (buildVertices srt inp events).2) ↔ ∀ ev ∈ events, ¬ Stray inp ev := by
  rw [← (buildVertices_tallied srt inp events).2.sides]
  constructor
  · rintro ⟨-, -, sided⟩
    exact sided
  · intro sided
    exact ⟨buildVertices_safe srt inp events, buildVertices_accounted srt inp events, sided⟩

/-- A window near the least number: the tolerance takes its start to the other end. -/
def wrappedWrite : Call := { name := "write", checkInfo := some { stime := 0x8000000000000064, etime := 0x80000000000000c8 } }

def wrappedInput : BuildInput where
  ps := [{ calls := [wrappedWrite] }]
  fsMds := []
  hmcfg := {}
  tscoffs := []

def wrappedEvent : HmdfsTraceEvent := { timestamp := 0x8000000000000096, funcID := funcWrite, ret := 1, ino := 7, progIdx := 0 }

theorem wrappedEvent_stray : Stray wrappedInput wrappedEvent := by
  have bounds : boundsOf wrappedEvent.funcID (tscoffFor wrappedInput.tscoffs wrappedEvent.progIdx) wrappedWrite =
      some ⟨UInt64.toInt64 0x8000000000000064, UInt64.toInt64 0x80000000000000c8⟩ := rfl
  refine ⟨{ calls := [wrappedWrite] }, rfl, by decide, ⟨wrappedWrite, List.mem_singleton_self _, _, bounds, by decide, by decide⟩, ?_⟩
  intro c member b bounds'
  rw [List.mem_singleton.mp member] at bounds'
  cases bounds.symm.trans bounds'
  decide

theorem diagnostics_unbalanced : ¬ ∀ (srt : Go.SliceSort) (inp : BuildInput) (events : List HmdfsTraceEvent),
    Safe srt inp events ∧ Accounted (buildVertices srt inp events).1 (buildVertices srt inp events).2 ∧
      Sided (buildVertices srt inp events).2 := by
  intro all
  have sided := (all Go.insertionSort wrappedInput [wrappedEvent]).2.2
  have tallied := (buildVertices_tallied Go.insertionSort wrappedInput [wrappedEvent]).2
  exact tallied.sides.mp sided wrappedEvent (List.mem_singleton_self _) wrappedEvent_stray

end DfsFuzz.Dag
