import DfsFuzz.Dag.Build
import DfsFuzz.Lib.BestScan
import DfsFuzz.Lib.BitWord

/-!
What `matchEventToCall` and `nearestWindowOfFunc` return, in terms of the windows of the calls that can
raise the event. Times are small enough here that no difference of them wraps.
-/

namespace DfsFuzz.Dag

open Int64Range

/-- When a call ran, in the time domain of the events. -/
structure Window where
  start : Int
  stop : Int
deriving DecidableEq

/-- The window of a call that can raise the event, if the call has one. -/
def windowOf (fid : UInt32) (off : Int64) (call : Call) : Option Window :=
  if funcMatchesCall fid call.name then
    call.checkInfo.map fun ci => ⟨ci.stime.toInt64.toInt - off.toInt, ci.etime.toInt64.toInt - off.toInt⟩
  else none

def windowAt (p : Prog) (fid : UInt32) (off : Int64) (i : Nat) : Option Window := p.calls[i]?.bind (windowOf fid off)

namespace Window

/-- The window, widened by the tolerance, holds the time. -/
def Covers (tol ts : Int) (w : Window) : Prop := w.start - tol ≤ ts ∧ ts ≤ w.stop + tol

instance (tol ts : Int) (w : Window) : Decidable (w.Covers tol ts) := inferInstanceAs (Decidable (_ ∧ _))

/-- How far the time is after the window, or before it. -/
def distance (ts : Int) (w : Window) : Int := if w.stop < ts then ts - w.stop else if ts < w.start then w.start - ts else 0

structure Exact (tol ts : Int) (w : Window) : Prop where
  start : InRange w.start
  stop : InRange w.stop
  widerStart : InRange (w.start - tol)
  widerStop : InRange (w.stop + tol)
  late : InRange (ts - w.stop)
  early : InRange (w.start - ts)

end Window

/-- `mfTolTicks` as `SetMfTolTicksFromRatio` keeps it. -/
structure Tolerance where
  ticks : Int64
  atLeast : 10000 ≤ ticks.toInt
  atMost : ticks.toInt ≤ 10000000

def defaultTolerance : Tolerance := ⟨205200, by decide, by decide⟩

variable {fid : UInt32} {call : Call} {w : Window}

theorem windowOf_some {off : Int64} (found : windowOf fid off call = some w) :
    funcMatchesCall fid call.name = true ∧ ∃ ci, call.checkInfo = some ci ∧
      w = ⟨ci.stime.toInt64.toInt - off.toInt, ci.etime.toInt64.toInt - off.toInt⟩ := by
  obtain ⟨fits, found⟩ := Option.ite_none_right_eq_some.mp found
  obtain ⟨ci, given, same⟩ := Option.map_eq_some_iff.mp found
  exact ⟨fits, ci, given, same.symm⟩

/-! ### The bounds as they are computed -/

/-- The bounds of a window in `Int64`, where the differences may wrap. -/
structure Bounds where
  ws : Int64
  we : Int64

def boundsOf (fid : UInt32) (off : Int64) (call : Call) : Option Bounds :=
  if funcMatchesCall fid call.name then call.checkInfo.map fun ci => ⟨ci.stime.toInt64 - off, ci.etime.toInt64 - off⟩ else none

namespace Bounds

def Inside (ts : Int64) (b : Bounds) : Prop := b.ws ≤ ts ∧ ts ≤ b.we

def Widened (tol ts : Int64) (b : Bounds) : Prop := ts ≥ b.ws - tol ∧ ts ≤ b.we + tol

instance (tol ts : Int64) (b : Bounds) : Decidable (b.Widened tol ts) := inferInstanceAs (Decidable (_ ∧ _))

def delta (ts : Int64) (b : Bounds) : Int64 := if ts > b.we then ts - b.we else -(b.ws - ts)

end Bounds

theorem boundsOf_none {off : Int64} (none : boundsOf fid off call = none) :
    funcMatchesCall fid call.name = false ∨ call.checkInfo = Option.none := by
  rw [boundsOf] at none
  cases fits : funcMatchesCall fid call.name with
  | false => exact .inl rfl
  | true =>
    rw [fits, if_pos rfl, Option.map_eq_none_iff] at none
    exact .inr none

variable {b : Bounds}

theorem boundsOf_some {off : Int64} (found : boundsOf fid off call = some b) :
    funcMatchesCall fid call.name = true ∧ ∃ ci, call.checkInfo = some ci ∧ b = ⟨ci.stime.toInt64 - off, ci.etime.toInt64 - off⟩ := by
  obtain ⟨fits, found⟩ := Option.ite_none_right_eq_some.mp found
  obtain ⟨ci, given, same⟩ := Option.map_eq_some_iff.mp found
  exact ⟨fits, ci, given, same.symm⟩

theorem boundsOf_isSome {off : Int64} : (boundsOf fid off call).isSome = (windowOf fid off call).isSome := by
  rw [boundsOf, windowOf]
  split
  · rw [Option.isSome_map, Option.isSome_map]
  · rfl

variable {ts : Int}

theorem boundsOf_window {off : Int64} {tol : Int} (window : windowOf fid off call = some w) (exact_ : w.Exact tol ts) :
    ∃ b, boundsOf fid off call = some b ∧ b.ws.toInt = w.start ∧ b.we.toInt = w.stop := by
  obtain ⟨fits, ci, info, rfl⟩ := windowOf_some window
  refine ⟨⟨ci.stime.toInt64 - off, ci.etime.toInt64 - off⟩, ?_, toInt_sub exact_.start, toInt_sub exact_.stop⟩
  rw [boundsOf, fits, info]
  rfl

section Computed

variable {tol : Int64} {ev : HmdfsTraceEvent} {off : Int64}

theorem matchStep_noBounds (st : MatchState) {call : Call × Nat} (none : boundsOf ev.funcID off call.1 = none) :
    matchStep tol ev off st call = { st with hasFunc := st.hasFunc || funcMatchesCall ev.funcID call.1.name } := by
  rw [matchStep]
  rcases boundsOf_none none with unfit | noInfo
  · simp [unfit]
  · cases fits : funcMatchesCall ev.funcID call.1.name <;> simp [noInfo]

/-- A call with bounds is taken where they hold the time and it starts after the one that is held. -/
theorem matchStep_bounds (st : MatchState) {call : Call × Nat} (bounds : boundsOf ev.funcID off call.1 = some b) :
    matchStep tol ev off st call =
      if b.Widened tol ev.timestamp.toInt64 ∧ (st.best = none ∨ b.ws > st.bestStime) then
        { best := some call.2, bestStime := b.ws, hasFunc := true, hasCI := true }
      else { st with hasFunc := true, hasCI := true } := by
  obtain ⟨fits, ci, info, rfl⟩ := boundsOf_some bounds
  rw [matchStep, fits, info]
  simp only [Bool.not_true, Bool.false_eq_true, if_false, Bool.and_eq_true, Bool.or_eq_true, decide_eq_true_eq]
  rfl

theorem nearestLoop_noBounds (rest : List Call) (acc : Nearest) (none : boundsOf ev.funcID off call = none) :
    nearestLoop ev off (call :: rest) acc = nearestLoop ev off rest acc := by
  rw [nearestLoop]
  rcases boundsOf_none none with unfit | noInfo
  · simp [unfit]
  · cases fits : funcMatchesCall ev.funcID call.name <;> simp [noInfo]

theorem nearestLoop_inside (rest : List Call) (acc : Nearest) (bounds : boundsOf ev.funcID off call = some b)
    (inside : b.Inside ev.timestamp.toInt64) :
    (nearestLoop ev off (call :: rest) acc).found = true ∧ (nearestLoop ev off (call :: rest) acc).delta = 0 := by
  obtain ⟨fits, ci, info, rfl⟩ := boundsOf_some bounds
  have notLate : ¬ ev.timestamp.toInt64 > ci.etime.toInt64 - off := Int64.not_lt.mpr inside.2
  have notEarly : ¬ ev.timestamp.toInt64 < ci.stime.toInt64 - off := Int64.not_lt.mpr inside.1
  rw [nearestLoop, fits, info]
  simp [notLate, notEarly]

/-- Elsewhere the call is taken, if it is nearer than the one that is held, or passed. -/
theorem nearestLoop_outside (rest : List Call) (acc : Nearest) (bounds : boundsOf ev.funcID off call = some b)
    (outside : ¬ b.Inside ev.timestamp.toInt64) :
    ∃ taken passed : Nearest, (taken.found = true ∧ taken.stime = b.ws.toUInt64 ∧ taken.etime = b.we.toUInt64 ∧
        taken.delta = b.delta ev.timestamp.toInt64 ∧
        taken.bestAbs = if b.delta ev.timestamp.toInt64 < 0 then -b.delta ev.timestamp.toInt64 else b.delta ev.timestamp.toInt64) ∧
      (passed.found, passed.stime, passed.etime, passed.delta, passed.bestAbs) =
        (acc.found, acc.stime, acc.etime, acc.delta, acc.bestAbs) ∧
      nearestLoop ev off (call :: rest) acc =
        if acc.bestAbs = -1 ∨ taken.bestAbs < acc.bestAbs then nearestLoop ev off rest taken
        else nearestLoop ev off rest passed := by
  obtain ⟨fits, ci, info, rfl⟩ := boundsOf_some bounds
  have either : ev.timestamp.toInt64 > ci.etime.toInt64 - off ∨ ev.timestamp.toInt64 < ci.stime.toInt64 - off := by
    by_contra neither
    rw [not_or] at neither
    exact outside ⟨Int64.not_lt.mp neither.2, Int64.not_lt.mp neither.1⟩
  rw [nearestLoop, fits, info]
  simp only [Bool.not_true, Bool.false_eq_true, if_false, Bool.or_eq_true, decide_eq_true_eq, either, if_true, Bounds.delta]
  generalize (if ev.timestamp.toInt64 > ci.etime.toInt64 - off then ev.timestamp.toInt64 - (ci.etime.toInt64 - off)
    else -(ci.stime.toInt64 - off - ev.timestamp.toInt64)) = d
  generalize (if d < 0 then -d else d) = abs
  refine ⟨⟨d, (ci.stime.toInt64 - off).toUInt64, (ci.etime.toInt64 - off).toUInt64, _, _, true, abs⟩, _,
    ⟨rfl, rfl, rfl, rfl, rfl⟩, ?_, rfl⟩
  rfl

end Computed

section Match

variable {tol : Int64} {ev : HmdfsTraceEvent} {off : Int64}

abbrev eventTime (ev : HmdfsTraceEvent) : Int := ev.timestamp.toInt64.toInt

/-- A covering window, by its start; the latest has the least score. -/
def matchScore (tol : Int64) (ev : HmdfsTraceEvent) (off : Int64) (call : Call × Nat) : Option Int :=
  (windowOf ev.funcID off call.1).bind fun w => if w.Covers tol.toInt (eventTime ev) then some (-w.start) else none

/-- The state of the scan after the calls of `xs`. -/
structure Scanned (tol : Int64) (ev : HmdfsTraceEvent) (off : Int64) (xs : List (Call × Nat)) (st : MatchState) : Prop where
  best : st.best = (BestScan.best (matchScore tol ev off) xs).map fun b => b.1.2
  bestStime : ∀ b, BestScan.best (matchScore tol ev off) xs = some b → b.2 = -st.bestStime.toInt
  hasFunc : st.hasFunc = xs.any fun c => funcMatchesCall ev.funcID c.1.name
  hasCI : st.hasCI = xs.any fun c => (windowOf ev.funcID off c.1).isSome

theorem boundsOf_none_iff : boundsOf fid off call = none ↔ windowOf fid off call = none := by
  rw [← Option.not_isSome_iff_eq_none, ← Option.not_isSome_iff_eq_none, boundsOf_isSome]

/-- A call with a window is taken where it covers the time and starts after the one that is held. -/
theorem matchStep_window (st : MatchState) {call : Call × Nat} (window : windowOf ev.funcID off call.1 = some w)
    (exact_ : w.Exact tol.toInt (eventTime ev)) :
    ∃ start : Int64, start.toInt = w.start ∧ matchStep tol ev off st call =
      if w.Covers tol.toInt (eventTime ev) ∧ (st.best = none ∨ start > st.bestStime) then
        { best := some call.2, bestStime := start, hasFunc := true, hasCI := true }
      else { st with hasFunc := true, hasCI := true } := by
  obtain ⟨b, bounds, start, stop⟩ := boundsOf_window window exact_
  have widerStart := exact_.widerStart
  have widerStop := exact_.widerStop
  rw [← start] at widerStart
  rw [← stop] at widerStop
  have covers : b.Widened tol ev.timestamp.toInt64 ↔ w.Covers tol.toInt (eventTime ev) := by
    rw [Bounds.Widened, Window.Covers, ge_iff_le, Int64.le_iff_toInt_le, Int64.le_iff_toInt_le, toInt_sub widerStart,
      toInt_add widerStop, start, stop]
  refine ⟨b.ws, start, (matchStep_bounds st bounds).trans ?_⟩
  simp only [covers]

theorem matchStep_scanned {xs : List (Call × Nat)} {st : MatchState} (before : Scanned tol ev off xs st) (call : Call × Nat)
    (exact_ : ∀ w, windowOf ev.funcID off call.1 = some w → w.Exact tol.toInt (eventTime ev)) :
    Scanned tol ev off (xs ++ [call]) (matchStep tol ev off st call) := by
  have scanned := BestScan.best_concat (matchScore tol ev off) xs call
  obtain ⟨best, bestStime, hasFunc, hasCI⟩ := before
  cases window : windowOf ev.funcID off call.1 with
  | none =>
    have same : BestScan.best (matchScore tol ev off) (xs ++ [call]) = BestScan.best (matchScore tol ev off) xs := by
      rw [scanned, BestScan.bestStep, matchScore, window, Option.bind_none]
    rw [matchStep_noBounds st (boundsOf_none_iff.mpr window)]
    refine ⟨?_, ?_, by simp [hasFunc], by simp [hasCI, window]⟩
    · rw [same]
      exact best
    · rw [same]
      exact bestStime
  | some w =>
    have fits := (windowOf_some window).1
    obtain ⟨start, starts, step⟩ := matchStep_window st window (exact_ w window)
    have score : matchScore tol ev off call = if w.Covers tol.toInt (eventTime ev) then some (-w.start) else none := by
      rw [matchScore, window, Option.bind_some]
    rw [step]
    by_cases covered : w.Covers tol.toInt (eventTime ev)
    · rw [if_pos covered] at score
      rw [BestScan.bestStep, score] at scanned
      cases found : BestScan.best (matchScore tol ev off) xs with
      | none =>
        rw [found] at best scanned
        rw [if_pos ⟨covered, .inl best⟩]
        refine ⟨by rw [scanned]; rfl, fun b same => ?_, by simp [fits], by simp [window]⟩
        cases scanned.symm.trans same
        dsimp only
        rw [starts]
      | some b =>
        have held := bestStime b found
        rw [found] at best scanned
        have later : start > st.bestStime ↔ -w.start < b.2 := by
          rw [gt_iff_lt, Int64.lt_iff_toInt_lt, held, starts]
          omega
        have nonempty : st.best ≠ none := by rw [best]; simp
        by_cases newer : -w.start < b.2
        · rw [if_pos ⟨covered, .inr (later.mpr newer)⟩]
          dsimp only at scanned
          rw [if_pos newer] at scanned
          refine ⟨by rw [scanned]; rfl, fun b' same => ?_, by simp [fits], by simp [window]⟩
          cases scanned.symm.trans same
          dsimp only
          rw [starts]
        · rw [if_neg fun both => both.2.elim nonempty fun gt => newer (later.mp gt)]
          dsimp only at scanned
          rw [if_neg newer] at scanned
          refine ⟨by rw [scanned]; exact best, fun b' same => ?_, by simp [fits], by simp [window]⟩
          cases scanned.symm.trans same
          exact held
    · rw [if_neg covered] at score
      have same : BestScan.best (matchScore tol ev off) (xs ++ [call]) = BestScan.best (matchScore tol ev off) xs := by
        rw [scanned, BestScan.bestStep, score]
      rw [if_neg fun both => covered both.1]
      refine ⟨?_, ?_, by simp [fits], by simp [window]⟩
      · rw [same]
        exact best
      · rw [same]
        exact bestStime

theorem matchLoop_scanned {xs : List (Call × Nat)}
    (exact_ : ∀ c ∈ xs, ∀ w, windowOf ev.funcID off c.1 = some w → w.Exact tol.toInt (eventTime ev)) :
    Scanned tol ev off xs (xs.foldl (matchStep tol ev off) {}) := by
  induction xs using List.reverseRecOn with
  | nil =>
    refine ⟨rfl, fun b found => ?_, rfl, rfl⟩
    cases found
  | append_singleton xs call ih =>
    rw [List.foldl_concat]
    refine matchStep_scanned (ih fun c member => exact_ c (List.mem_append_left _ member)) call ?_
    exact exact_ call (List.mem_append_right _ (List.mem_singleton_self _))

end Match

/-! ### The scan for the nearest window -/

namespace Window

/-- The time is before the window or after it. -/
def Misses (ts : Int) (w : Window) : Prop := w.stop < ts ∨ ts < w.start

/-- `delta`: positive after the window, negative before it. -/
def delta (ts : Int) (w : Window) : Int := if w.stop < ts then ts - w.stop else -(w.start - ts)

theorem abs_delta (misses : w.Misses ts) : (w.delta ts).natAbs = w.distance ts := by
  rw [delta, distance]
  rcases misses with late | early
  · rw [if_pos late, if_pos late]
    omega
  · by_cases late : w.stop < ts
    · rw [if_pos late, if_pos late]
      omega
    · rw [if_neg late, if_neg late, if_pos early]
      omega

theorem delta_ne_zero (misses : w.Misses ts) : w.delta ts ≠ 0 := by
  rw [delta]
  rcases misses with late | early
  · rw [if_pos late]
    omega
  · split <;> omega

theorem delta_pos (misses : w.Misses ts) : 0 < w.delta ts ↔ w.stop < ts := by
  rw [delta]
  rcases misses with late | early
  · rw [if_pos late]
    exact ⟨fun _ => late, fun _ => by omega⟩
  · split
    · rename_i late
      exact ⟨fun _ => late, fun _ => by omega⟩
    · rename_i notLate
      exact ⟨fun positive => absurd positive (by omega), fun late => absurd late notLate⟩

end Window

section Nearest

variable {ev : HmdfsTraceEvent} {off : Int64}

def nearestScore (ev : HmdfsTraceEvent) (off : Int64) (call : Call) : Option Int :=
  (windowOf ev.funcID off call).map (Window.distance (eventTime ev))

/-- What the scan holds of the window it has found. -/
structure HoldsWindow (ev : HmdfsTraceEvent) (w : Window) (acc : Nearest) : Prop where
  found : acc.found = true
  stime : acc.stime.toInt64.toInt = w.start
  etime : acc.etime.toInt64.toInt = w.stop
  delta : acc.delta.toInt = w.delta (eventTime ev)
  bestAbs : acc.bestAbs.toInt = w.distance (eventTime ev)

/-- The state of the scan after the calls of `xs`. -/
def NearScanned (ev : HmdfsTraceEvent) (off : Int64) (xs : List Call) (acc : Nearest) : Prop :=
  match BestScan.best (nearestScore ev off) xs with
  | none => acc.found = false ∧ acc.bestAbs = -1
  | some b => ∃ w, windowOf ev.funcID off b.1 = some w ∧ b.2 = w.distance (eventTime ev) ∧ HoldsWindow ev w acc

theorem delta_eq {ts : Int64} {tol : Int} (start : b.ws.toInt = w.start) (stop : b.we.toInt = w.stop)
    (exact_ : w.Exact tol ts.toInt) (misses : w.Misses ts.toInt) : (b.delta ts).toInt = w.delta ts.toInt := by
  have late := exact_.late
  have early := exact_.early
  rw [← start] at early
  rw [← stop] at late
  rw [Window.Misses, ← start, ← stop] at misses
  have isLate : ts > b.we ↔ b.we.toInt < ts.toInt := Int64.lt_iff_toInt_lt
  rw [Window.delta, Bounds.delta, ← start, ← stop]
  by_cases after : ts > b.we
  · rw [if_pos after, if_pos (isLate.mp after), toInt_sub late]
  · have before : ts.toInt < b.ws.toInt := misses.resolve_left fun less => after (isLate.mpr less)
    have difference := toInt_sub early
    have negated : InRange (-(b.ws - ts).toInt) := by
      obtain ⟨low, high⟩ := early
      rw [difference]
      constructor <;> omega
    rw [if_neg after, if_neg fun less => after (isLate.mpr less), toInt_neg negated, difference]

theorem abs_eq {d : Int64} (late : InRange (ts - w.stop)) (early : InRange (w.start - ts)) (misses : w.Misses ts)
    (same : d.toInt = w.delta ts) : (if d < 0 then -d else d).toInt = w.distance ts := by
  have abs := Window.abs_delta misses
  have bounded : InRange (w.distance ts) := by
    rw [Window.distance]
    split
    · exact late
    · split
      · exact early
      · constructor <;> omega
  have sign : d < 0 ↔ d.toInt < 0 := Int64.lt_iff_toInt_lt
  rw [← same] at abs
  obtain ⟨low, high⟩ := bounded
  by_cases negative : d < 0
  · have below := sign.mp negative
    rw [if_pos negative, toInt_neg (by constructor <;> omega)]
    omega
  · have above : ¬ d.toInt < 0 := fun less => negative (sign.mpr less)
    rw [if_neg negative]
    omega

/-- What the loop makes of a call with a window that the time is outside of. -/
theorem nearestLoop_window (rest : List Call) (acc : Nearest) {tol : Int}
    (window : windowOf ev.funcID off call = some w) (exact_ : w.Exact tol (eventTime ev))
    (misses : w.Misses (eventTime ev)) :
    ∃ taken passed : Nearest, HoldsWindow ev w taken ∧
      (passed.found, passed.stime, passed.etime, passed.delta, passed.bestAbs) =
        (acc.found, acc.stime, acc.etime, acc.delta, acc.bestAbs) ∧
      nearestLoop ev off (call :: rest) acc =
        if acc.bestAbs = -1 ∨ w.distance (eventTime ev) < acc.bestAbs.toInt then nearestLoop ev off rest taken
        else nearestLoop ev off rest passed := by
  obtain ⟨b, bounds, start, stop⟩ := boundsOf_window window exact_
  have outside : ¬ b.Inside ev.timestamp.toInt64 := by
    rintro ⟨after, before⟩
    rw [Int64.le_iff_toInt_le] at after before
    rw [start] at after
    rw [stop] at before
    rcases misses with late | early
    · exact absurd before (not_le.mpr late)
    · exact absurd after (not_le.mpr early)
  obtain ⟨taken, passed, ⟨found, stime, etime, delta, bestAbs⟩, same, step⟩ := nearestLoop_outside rest acc bounds outside
  have signed := delta_eq start stop exact_ misses
  have abs : taken.bestAbs.toInt = w.distance (eventTime ev) := by
    rw [bestAbs]
    exact abs_eq exact_.late exact_.early misses signed
  refine ⟨taken, passed, ⟨found, ?_, ?_, by rw [delta]; exact signed, abs⟩, same, ?_⟩
  · rw [stime, ← start]
    simp
  · rw [etime, ← stop]
    simp
  · simp only [step, Int64.lt_iff_toInt_lt, abs]

theorem NearScanned.skip {xs : List Call} {acc acc' : Nearest} (before : NearScanned ev off xs acc)
    (same : (acc'.found, acc'.stime, acc'.etime, acc'.delta, acc'.bestAbs) =
      (acc.found, acc.stime, acc.etime, acc.delta, acc.bestAbs)) : NearScanned ev off xs acc' := by
  simp only [Prod.mk.injEq] at same
  obtain ⟨found, stime, etime, delta, bestAbs⟩ := same
  rw [NearScanned] at before ⊢
  cases scan : BestScan.best (nearestScore ev off) xs with
  | none =>
    rw [scan] at before
    exact ⟨found.trans before.1, bestAbs.trans before.2⟩
  | some b =>
    rw [scan] at before
    obtain ⟨w, window, score, holds⟩ := before
    exact ⟨w, window, score, by rw [found]; exact holds.found, by rw [stime]; exact holds.stime,
      by rw [etime]; exact holds.etime, by rw [delta]; exact holds.delta, by rw [bestAbs]; exact holds.bestAbs⟩

/-- By induction over the calls that are left; no window holds the time. -/
theorem nearestLoop_scanned (tol : Int) {rest xs : List Call} {acc : Nearest} (before : NearScanned ev off xs acc)
    (outside : ∀ c ∈ rest, ∀ w, windowOf ev.funcID off c = some w → w.Exact tol (eventTime ev) ∧ w.Misses (eventTime ev)) :
    NearScanned ev off (xs ++ rest) (nearestLoop ev off rest acc) := by
  induction rest generalizing xs acc with
  | nil =>
    rw [List.append_nil]
    exact before
  | cons call rest ih =>
    have later := fun c member => outside c (List.mem_cons_of_mem call member)
    have scanned := BestScan.best_concat (nearestScore ev off) xs call
    have shift : xs ++ call :: rest = xs ++ [call] ++ rest := by simp
    rw [shift]
    cases window : windowOf ev.funcID off call with
    | none =>
      rw [nearestLoop_noBounds rest acc (boundsOf_none_iff.mpr window)]
      refine ih ?_ later
      rw [BestScan.bestStep, nearestScore, window] at scanned
      rw [NearScanned, scanned]
      exact before
    | some w =>
      obtain ⟨exact_, misses⟩ := outside call List.mem_cons_self w window
      obtain ⟨taken, passed, holds, same, step⟩ := nearestLoop_window rest acc window exact_ misses
      rw [BestScan.bestStep, nearestScore, window, Option.map_some] at scanned
      have takes (chosen : BestScan.best (nearestScore ev off) (xs ++ [call]) = some (call, w.distance (eventTime ev))) :
          NearScanned ev off (xs ++ [call]) taken := by
        rw [NearScanned, chosen]
        exact ⟨w, window, rfl, holds⟩
      rw [step]
      cases found : BestScan.best (nearestScore ev off) xs with
      | none =>
        have empty := before
        rw [NearScanned, found] at empty
        rw [found] at scanned
        rw [if_pos (.inl empty.2)]
        exact ih (takes scanned) later
      | some b =>
        have held := before
        rw [NearScanned, found] at held
        obtain ⟨w', -, score, holds'⟩ := held
        have full : acc.bestAbs ≠ -1 := by
          intro unset
          have nonneg : 0 ≤ w'.distance (eventTime ev) := by
            rw [Window.distance]
            split
            · omega
            · split <;> omega
          have value := holds'.bestAbs
          rw [unset] at value
          have minus : (-1 : Int64).toInt = -1 := by decide
          omega
        rw [found] at scanned
        dsimp only at scanned
        rw [score, ← holds'.bestAbs] at scanned
        by_cases nearer : w.distance (eventTime ev) < acc.bestAbs.toInt
        · rw [if_pos nearer] at scanned
          rw [if_pos (.inr nearer)]
          exact ih (takes scanned) later
        · rw [if_neg nearer] at scanned
          rw [if_neg fun either => either.elim full nearer]
          refine ih (NearScanned.skip ?_ same) later
          rw [NearScanned, scanned, ← found]
          exact before

end Nearest

/-! ### The law of the match -/

/-- The call at `i` has a window that holds the event's time. -/
def Candidate (tol : Int64) (ev : HmdfsTraceEvent) (p : Prog) (off : Int64) (i : Nat) (w : Window) : Prop :=
  windowAt p ev.funcID off i = some w ∧ w.Covers tol.toInt (eventTime ev)

/-- The first of the candidates that start last. -/
def LatestFirst (tol : Int64) (ev : HmdfsTraceEvent) (p : Prog) (off : Int64) (i : Nat) : Prop :=
  ∃ w, Candidate tol ev p off i w ∧ ∀ j w', Candidate tol ev p off j w' → w'.start ≤ w.start ∧ (j < i → w'.start < w.start)

/-- The differences that the two scans of a program make for an event. -/
def ExactTimes (tol : Int64) (ev : HmdfsTraceEvent) (p : Prog) (off : Int64) : Prop :=
  ∀ i w, windowAt p ev.funcID off i = some w → w.Exact tol.toInt (eventTime ev)

theorem windowAt_eq {p : Prog} {off : Int64} {i : Nat} :
    windowAt p fid off i = some w ↔ ∃ c ∈ p.calls.zipIdx, c.2 = i ∧ windowOf fid off c.1 = some w := by
  rw [windowAt, Option.bind_eq_some_iff]
  constructor
  · rintro ⟨call, found, window⟩
    exact ⟨(call, i), List.mem_zipIdx_iff_getElem?.mpr found, rfl, window⟩
  · rintro ⟨⟨call, j⟩, member, rfl, window⟩
    exact ⟨call, List.mem_zipIdx_iff_getElem?.mp member, window⟩

section Law

variable {tol : Int64} {ev : HmdfsTraceEvent} {p : Prog} {off : Int64}

theorem matchScore_eq {c : Call × Nat} {s : Int} :
    matchScore tol ev off c = some s ↔
      ∃ w, windowOf ev.funcID off c.1 = some w ∧ w.Covers tol.toInt (eventTime ev) ∧ s = -w.start := by
  rw [matchScore, Option.bind_eq_some_iff]
  constructor
  · rintro ⟨w, window, scored⟩
    obtain ⟨covered, same⟩ := Option.ite_none_right_eq_some.mp scored
    exact ⟨w, window, covered, (Option.some.inj same).symm⟩
  · rintro ⟨w, window, covered, rfl⟩
    exact ⟨w, window, if_pos covered⟩

theorem candidate_eq {i : Nat} :
    Candidate tol ev p off i w ↔
      ∃ c ∈ p.calls.zipIdx, c.2 = i ∧ windowOf ev.funcID off c.1 = some w ∧ matchScore tol ev off c = some (-w.start) := by
  rw [Candidate, windowAt_eq]
  constructor
  · rintro ⟨⟨c, member, here, window⟩, covered⟩
    exact ⟨c, member, here, window, matchScore_eq.mpr ⟨w, window, covered, rfl⟩⟩
  · rintro ⟨c, member, here, window, scored⟩
    obtain ⟨w', window', covered, -⟩ := matchScore_eq.mp scored
    cases window.symm.trans window'
    exact ⟨⟨c, member, here, window⟩, covered⟩

/-- What stands before an element of a list with its positions has lower positions. -/
theorem zipIdx_before {calls : List Call} {pre post : List (Call × Nat)} {c d : Call × Nat}
    (split : calls.zipIdx = pre ++ c :: post) (member : d ∈ calls.zipIdx) (lower : d.2 < c.2) : d ∈ pre := by
  have place : ∀ e ∈ c :: post, c.2 ≤ e.2 := by
    have ordered : (calls.zipIdx.map Prod.snd).Pairwise (· < ·) := by
      rw [List.zipIdx_map_snd]
      exact List.pairwise_lt_range' ..
    rw [split, List.map_append, List.map_cons] at ordered
    have later := (List.pairwise_cons.mp (List.pairwise_append.mp ordered).2.1).1
    intro e inside
    rcases List.mem_cons.mp inside with rfl | inside
    · exact le_rfl
    · exact (later e.2 (List.mem_map_of_mem inside)).le
  rw [split] at member
  rcases List.mem_append.mp member with before | after
  · exact before
  · exact absurd (place d after) (not_le.mpr lower)

variable (tol ev p off) in
theorem best_candidate :
    match BestScan.best (matchScore tol ev off) p.calls.zipIdx with
    | none => ∀ i w, ¬ Candidate tol ev p off i w
    | some b => LatestFirst tol ev p off b.1.2 := by
  have found := BestScan.best_found (matchScore tol ev off) p.calls.zipIdx
  cases scan : BestScan.best (matchScore tol ev off) p.calls.zipIdx with
  | none =>
    rw [scan] at found
    intro i w candidate
    obtain ⟨c, member, -, -, scored⟩ := candidate_eq.mp candidate
    cases (found c member).symm.trans scored
  | some b =>
    obtain ⟨c, s⟩ := b
    rw [scan] at found
    obtain ⟨scored, least, pre, post, split, before⟩ := found
    obtain ⟨w, window, covered, rfl⟩ := matchScore_eq.mp scored
    have inside : c ∈ p.calls.zipIdx := by rw [split]; simp
    refine ⟨w, candidate_eq.mpr ⟨c, inside, rfl, window, scored⟩, fun j w' candidate => ?_⟩
    obtain ⟨d, member, rfl, -, scored'⟩ := candidate_eq.mp candidate
    have below := least d member _ scored'
    refine ⟨by omega, fun lower => ?_⟩
    have strict := before d (zipIdx_before split member lower) _ scored'
    omega

theorem LatestFirst.unique {i j : Nat} (first : LatestFirst tol ev p off i) (second : LatestFirst tol ev p off j) : i = j := by
  obtain ⟨w, candidate, latest⟩ := first
  obtain ⟨w', candidate', latest'⟩ := second
  have below := latest j w' candidate'
  have below' := latest' i w candidate
  rcases Nat.lt_trichotomy i j with lower | same | higher
  · have := below'.2 lower
    omega
  · exact same
  · have := below.2 higher
    omega

theorem matchEventToCall_scanned {tscoffs : List Int64} (exact_ : ExactTimes tol ev p (tscoffFor tscoffs ev.progIdx)) :
    Scanned tol ev (tscoffFor tscoffs ev.progIdx) p.calls.zipIdx
      (p.calls.zipIdx.foldl (matchStep tol ev (tscoffFor tscoffs ev.progIdx)) {}) :=
  matchLoop_scanned fun c member w window => exact_ c.2 w (windowAt_eq.mpr ⟨c, member, rfl, window⟩)

end Law

/-- The window that is found is nearest to the event, on the side that the sign tells. -/
structure NearestLaw (ev : HmdfsTraceEvent) (p : Prog) (off : Int64) (n : Nearest) : Prop where
  found : n.found = true
  nonzero : n.delta ≠ 0
  nearest : ∃ i w, windowAt p ev.funcID off i = some w ∧ n.stime.toInt64.toInt = w.start ∧ n.etime.toInt64.toInt = w.stop ∧
    (n.delta.toInt.natAbs : Int) = w.distance (eventTime ev) ∧ (0 < n.delta.toInt ↔ w.stop < eventTime ev) ∧
    ∀ j w', windowAt p ev.funcID off j = some w' → w.distance (eventTime ev) ≤ w'.distance (eventTime ev)

/-- What `matchEventToCall` returns, and what `nearestWindowOfFunc` returns where the windows are missed. -/
structure MatchLaw (tol : Int64) (ev : HmdfsTraceEvent) (p : Prog) (tscoffs : List Int64) : Prop where
  matched : (∃ i, matchEventToCall tol ev p tscoffs = .ok i) ↔ ∃ i w, Candidate tol ev p (tscoffFor tscoffs ev.progIdx) i w
  latest : ∀ i, matchEventToCall tol ev p tscoffs = .ok i ↔ LatestFirst tol ev p (tscoffFor tscoffs ev.progIdx) i
  noFunc : matchEventToCall tol ev p tscoffs = .error .noFunc ↔ ∀ c ∈ p.calls, funcMatchesCall ev.funcID c.name = false
  noCI : matchEventToCall tol ev p tscoffs = .error .noCI ↔
    (∃ c ∈ p.calls, funcMatchesCall ev.funcID c.name = true) ∧
      ∀ c ∈ p.calls, funcMatchesCall ev.funcID c.name = true → c.checkInfo = none
  outside : matchEventToCall tol ev p tscoffs = .error .outside ↔
    (∃ i w, windowAt p ev.funcID (tscoffFor tscoffs ev.progIdx) i = some w) ∧
      ∀ i w, windowAt p ev.funcID (tscoffFor tscoffs ev.progIdx) i = some w → ¬ w.Covers tol.toInt (eventTime ev)
  nearest : matchEventToCall tol ev p tscoffs = .error .outside →
    NearestLaw ev p (tscoffFor tscoffs ev.progIdx) (nearestWindowOfFunc ev p tscoffs)

section Result

variable {tol : Int64} {ev : HmdfsTraceEvent} {p : Prog} {tscoffs : List Int64}

theorem hasFunc_false {st : MatchState}
    (scanned : Scanned tol ev (tscoffFor tscoffs ev.progIdx) p.calls.zipIdx st) :
    st.hasFunc = false ↔ ∀ c ∈ p.calls, funcMatchesCall ev.funcID c.name = false := by
  rw [scanned.hasFunc, List.any_eq_false]
  constructor
  · intro none c member
    obtain ⟨i, found⟩ := List.getElem?_of_mem member
    exact Bool.eq_false_of_not_eq_true (none (c, i) (List.mem_zipIdx_iff_getElem?.mpr found))
  · intro none c member
    rw [none c.1 (List.mem_of_getElem? (List.mem_zipIdx_iff_getElem?.mp member))]
    exact Bool.false_ne_true

theorem hasCI_true {st : MatchState}
    (scanned : Scanned tol ev (tscoffFor tscoffs ev.progIdx) p.calls.zipIdx st) :
    st.hasCI = true ↔ ∃ i w, windowAt p ev.funcID (tscoffFor tscoffs ev.progIdx) i = some w := by
  rw [scanned.hasCI, List.any_eq_true]
  constructor
  · rintro ⟨c, member, given⟩
    obtain ⟨w, window⟩ := Option.isSome_iff_exists.mp given
    exact ⟨c.2, w, windowAt_eq.mpr ⟨c, member, rfl, window⟩⟩
  · rintro ⟨i, w, window⟩
    obtain ⟨c, member, -, window⟩ := windowAt_eq.mp window
    exact ⟨c, member, Option.isSome_iff_exists.mpr ⟨w, window⟩⟩

theorem noWindow_iff : (¬ ∃ i w, windowAt p ev.funcID (tscoffFor tscoffs ev.progIdx) i = some w) ↔
    ∀ c ∈ p.calls, funcMatchesCall ev.funcID c.name = true → c.checkInfo = none := by
  constructor
  · intro none c member fits
    by_contra given
    obtain ⟨ci, info⟩ := Option.ne_none_iff_exists'.mp given
    obtain ⟨i, found⟩ := List.getElem?_of_mem member
    refine none ⟨i, ⟨ci.stime.toInt64.toInt - (tscoffFor tscoffs ev.progIdx).toInt,
      ci.etime.toInt64.toInt - (tscoffFor tscoffs ev.progIdx).toInt⟩, ?_⟩
    rw [windowAt, found, Option.bind_some, windowOf, fits, info]
    rfl
  · rintro none ⟨i, w, window⟩
    obtain ⟨call, found, window⟩ := Option.bind_eq_some_iff.mp window
    obtain ⟨fits, ci, info, -⟩ := windowOf_some window
    rw [none call (List.mem_of_getElem? found) fits] at info
    cases info

/-- What a result of the scan tells about the calls. -/
def Tells (tol : Int64) (ev : HmdfsTraceEvent) (p : Prog) (off : Int64) : Except MatchFailure Nat → Prop
  | .ok i => LatestFirst tol ev p off i
  | .error .noFunc => ∀ c ∈ p.calls, funcMatchesCall ev.funcID c.name = false
  | .error .noCI =>
    (∃ c ∈ p.calls, funcMatchesCall ev.funcID c.name = true) ∧
      ∀ c ∈ p.calls, funcMatchesCall ev.funcID c.name = true → c.checkInfo = none
  | .error .outside =>
    (∃ i w, windowAt p ev.funcID off i = some w) ∧
      ∀ i w, windowAt p ev.funcID off i = some w → ¬ w.Covers tol.toInt (eventTime ev)

theorem matchEventToCall_tells (exact_ : ExactTimes tol ev p (tscoffFor tscoffs ev.progIdx)) :
    Tells tol ev p (tscoffFor tscoffs ev.progIdx) (matchEventToCall tol ev p tscoffs) := by
  have scanned := matchEventToCall_scanned exact_
  have best := best_candidate tol ev p (tscoffFor tscoffs ev.progIdx)
  have hasFunc := hasFunc_false scanned
  have hasCI := hasCI_true scanned
  have held := scanned.best
  rw [matchEventToCall]
  generalize p.calls.zipIdx.foldl (matchStep tol ev (tscoffFor tscoffs ev.progIdx)) {} = st at *
  cases found : BestScan.best (matchScore tol ev (tscoffFor tscoffs ev.progIdx)) p.calls.zipIdx with
  | some b =>
    rw [found] at held best
    have taken : st.best = some b.1.2 := held
    simp only [taken]
    exact best
  | none =>
    rw [found] at held best
    have empty : st.best = none := held
    simp only [empty]
    cases func : st.hasFunc with
    | false => exact hasFunc.mp func
    | true =>
      cases info : st.hasCI with
      | false =>
        refine ⟨?_, noWindow_iff.mp fun some => Bool.false_ne_true (info.symm.trans (hasCI.mpr some))⟩
        by_contra none
        have unseen := hasFunc.mpr fun c member => Bool.eq_false_of_not_eq_true fun fits => none ⟨c, member, fits⟩
        exact Bool.false_ne_true (unseen.symm.trans func)
      | true => exact ⟨hasCI.mp info, fun i w window covers => best i w ⟨window, covers⟩⟩

theorem Tells.unique {r r' : Except MatchFailure Nat} (first : Tells tol ev p (tscoffFor tscoffs ev.progIdx) r)
    (second : Tells tol ev p (tscoffFor tscoffs ev.progIdx) r') : r = r' := by
  have fits : ∀ i w, windowAt p ev.funcID (tscoffFor tscoffs ev.progIdx) i = some w →
      ∃ c ∈ p.calls, funcMatchesCall ev.funcID c.name = true := by
    intro i w window
    obtain ⟨call, found, window⟩ := Option.bind_eq_some_iff.mp window
    exact ⟨call, List.mem_of_getElem? found, (windowOf_some window).1⟩
  have noFunc {c : Call} (none : ∀ c ∈ p.calls, funcMatchesCall ev.funcID c.name = false) (member : c ∈ p.calls)
      (fits : funcMatchesCall ev.funcID c.name = true) : False := Bool.false_ne_true ((none c member).symm.trans fits)
  rcases r with ⟨_ | _ | _⟩ | i <;> rcases r' with ⟨_ | _ | _⟩ | j
  · rfl
  · obtain ⟨c, member, fits⟩ := second.1
    exact (noFunc first member fits).elim
  · obtain ⟨i, w, window⟩ := second.1
    obtain ⟨c, member, fits⟩ := fits i w window
    exact (noFunc first member fits).elim
  · obtain ⟨w, candidate, -⟩ := second
    obtain ⟨c, member, fits⟩ := fits _ w candidate.1
    exact (noFunc first member fits).elim
  · obtain ⟨c, member, fits⟩ := first.1
    exact (noFunc second member fits).elim
  · rfl
  · exact absurd second.1 (noWindow_iff.mpr first.2)
  · obtain ⟨w, candidate, -⟩ := second
    exact absurd ⟨_, w, candidate.1⟩ (noWindow_iff.mpr first.2)
  · obtain ⟨i, w, window⟩ := first.1
    obtain ⟨c, member, fits⟩ := fits i w window
    exact (noFunc second member fits).elim
  · exact absurd first.1 (noWindow_iff.mpr second.2)
  · rfl
  · obtain ⟨w, candidate, -⟩ := second
    exact absurd candidate.2 (first.2 _ w candidate.1)
  · obtain ⟨w, candidate, -⟩ := first
    obtain ⟨c, member, fits⟩ := fits _ w candidate.1
    exact (noFunc second member fits).elim
  · obtain ⟨w, candidate, -⟩ := first
    exact absurd ⟨_, w, candidate.1⟩ (noWindow_iff.mpr second.2)
  · obtain ⟨w, candidate, -⟩ := first
    exact absurd candidate.2 (second.2 _ w candidate.1)
  · exact congrArg Except.ok (LatestFirst.unique first second)

theorem nearestWindowOfFunc_law (exact_ : ExactTimes tol ev p (tscoffFor tscoffs ev.progIdx))
    (misses : ∀ i w, windowAt p ev.funcID (tscoffFor tscoffs ev.progIdx) i = some w → w.Misses (eventTime ev))
    (some_ : ∃ i w, windowAt p ev.funcID (tscoffFor tscoffs ev.progIdx) i = some w) :
    NearestLaw ev p (tscoffFor tscoffs ev.progIdx) (nearestWindowOfFunc ev p tscoffs) := by
  have atCall : ∀ c ∈ p.calls, ∀ w, windowOf ev.funcID (tscoffFor tscoffs ev.progIdx) c = some w →
      ∃ i, windowAt p ev.funcID (tscoffFor tscoffs ev.progIdx) i = some w := by
    intro c member w window
    obtain ⟨i, found⟩ := List.getElem?_of_mem member
    exact ⟨i, by rw [windowAt, found]; exact window⟩
  have scanned : NearScanned ev (tscoffFor tscoffs ev.progIdx) ([] ++ p.calls)
      (nearestLoop ev (tscoffFor tscoffs ev.progIdx) p.calls {}) := by
    refine nearestLoop_scanned tol.toInt ⟨rfl, rfl⟩ fun c member w window => ?_
    obtain ⟨i, here⟩ := atCall c member w window
    exact ⟨exact_ i w here, misses i w here⟩
  rw [List.nil_append, NearScanned] at scanned
  have found := BestScan.best_found (nearestScore ev (tscoffFor tscoffs ev.progIdx)) p.calls
  cases scan : BestScan.best (nearestScore ev (tscoffFor tscoffs ev.progIdx)) p.calls with
  | none =>
    rw [scan] at found
    obtain ⟨i, w, window⟩ := some_
    obtain ⟨call, here, window⟩ := Option.bind_eq_some_iff.mp window
    have unscored := found call (List.mem_of_getElem? here)
    rw [nearestScore, window] at unscored
    cases unscored
  | some b =>
    rw [scan] at found scanned
    obtain ⟨w, window, score, holds⟩ := scanned
    obtain ⟨-, least, pre, post, split, -⟩ := found
    obtain ⟨i, here⟩ := atCall b.1 (by rw [split]; simp) w window
    have outside := misses i w here
    rw [nearestWindowOfFunc]
    refine ⟨holds.found, fun zero => Window.delta_ne_zero outside ?_, i, w, here, holds.stime, holds.etime, ?_, ?_, ?_⟩
    · rw [← holds.delta, zero]
      rfl
    · rw [holds.delta, Window.abs_delta outside]
    · rw [holds.delta, Window.delta_pos outside]
    · intro j w' window'
      obtain ⟨call, here', window'⟩ := Option.bind_eq_some_iff.mp window'
      rw [← score]
      exact least call (List.mem_of_getElem? here') _ (by rw [nearestScore, window', Option.map_some])

end Result

theorem Window.misses_of_not_covers {tol : Int} (nonneg : 0 ≤ tol) (missed : ¬ w.Covers tol ts) : w.Misses ts := by
  rw [Window.Covers] at missed
  rw [Window.Misses]
  omega

theorem matchEventToCall_law (tol : Tolerance) (ev : HmdfsTraceEvent) (p : Prog) (tscoffs : List Int64)
    (exact_ : ExactTimes tol.ticks ev p (tscoffFor tscoffs ev.progIdx)) : MatchLaw tol.ticks ev p tscoffs := by
  have nonneg : 0 ≤ tol.ticks.toInt := le_trans (by decide) tol.atLeast
  have tells := matchEventToCall_tells exact_
  have result (r : Except MatchFailure Nat) :
      matchEventToCall tol.ticks ev p tscoffs = r ↔ Tells tol.ticks ev p (tscoffFor tscoffs ev.progIdx) r :=
    ⟨fun same => same ▸ tells, fun told => tells.unique told⟩
  refine ⟨⟨?_, ?_⟩, fun i => result (.ok i), result (.error .noFunc), result (.error .noCI), result (.error .outside), ?_⟩
  · rintro ⟨i, ok⟩
    obtain ⟨w, candidate, -⟩ := (result (.ok i)).mp ok
    exact ⟨i, w, candidate⟩
  · rintro ⟨i, w, window, covers⟩
    have scan := best_candidate tol.ticks ev p (tscoffFor tscoffs ev.progIdx)
    cases found : BestScan.best (matchScore tol.ticks ev (tscoffFor tscoffs ev.progIdx)) p.calls.zipIdx with
    | none =>
      rw [found] at scan
      exact absurd ⟨window, covers⟩ (scan i w)
    | some b =>
      rw [found] at scan
      exact ⟨b.1.2, (result (.ok b.1.2)).mpr scan⟩
  · intro failed
    obtain ⟨some, missed⟩ := (result (.error .outside)).mp failed
    exact nearestWindowOfFunc_law exact_ (fun i w window => Window.misses_of_not_covers nonneg (missed i w window)) some

/-- Two writes, and an event between them that is nearer to the second. -/
def twoWrites : Prog where
  calls := [{ name := "write", checkInfo := some { stime := 1000000, etime := 1100000 } },
    { name := "write", checkInfo := some { stime := 3000000, etime := 3100000 } }]

def betweenWrites : HmdfsTraceEvent := { timestamp := 2200000, funcID := funcWrite, ret := 1, ino := 7, progIdx := 0 }

theorem twoWrites_exact : ExactTimes defaultTolerance.ticks betweenWrites twoWrites (tscoffFor [] 0) := by
  intro i w window
  match i, window with
  | 0, window =>
    cases window
    exact ⟨⟨by decide, by decide⟩, ⟨by decide, by decide⟩, ⟨by decide, by decide⟩, ⟨by decide, by decide⟩,
      ⟨by decide, by decide⟩, ⟨by decide, by decide⟩⟩
  | 1, window =>
    cases window
    exact ⟨⟨by decide, by decide⟩, ⟨by decide, by decide⟩, ⟨by decide, by decide⟩, ⟨by decide, by decide⟩,
      ⟨by decide, by decide⟩, ⟨by decide, by decide⟩⟩
  | i + 2, window => cases window

theorem matchEventToCall_law_betweenWrites :
    MatchLaw defaultTolerance.ticks betweenWrites twoWrites [] ∧
      matchEventToCall defaultTolerance.ticks betweenWrites twoWrites [] = .error .outside ∧
      (nearestWindowOfFunc betweenWrites twoWrites []).delta = -800000 :=
  ⟨matchEventToCall_law defaultTolerance betweenWrites twoWrites [] twoWrites_exact, by decide, by decide⟩

end DfsFuzz.Dag
