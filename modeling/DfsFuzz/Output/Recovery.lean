import DfsFuzz.Output.Replies
import Mathlib.Order.Basic

/-!
A kernel server that crashes in `syz_failure_down` and is started again. Three shared fields carry
the program over the crash: `executionFinished`, a `char` with the index of the crashed call behind
`CALLOFFSET`, `*output_pos_value` and the number of replies. Servers run unthreaded and write no
coverage of their calls.
-/

namespace DfsFuzz.Output

open Bytes

def CALLOFFSET : Int := 3

def kMaxInput : Nat := 1048576

/-- The part of the output region the fuzzer reads: `outputSize` less the control block, the execute
reply and the saved position. -/
def outSize : Nat := 16777216 - (16 + 12 + 8)

structure ServerCall where
  num : UInt32
  failureDown : Bool

/-- A program in the input region: at least three words for each call and one for the end. -/
structure ServerProg where
  calls : List ServerCall
  fits : 8 * (3 * calls.length + 1) ≤ kMaxInput

structure Server where
  config : Config
  server : config.isDfsClient = false
  enableC2san : Bool

structure Outcome where
  res : UInt64
  reserrno : UInt32
  faultInjected : Bool
  info : Option (UInt32 × List UInt8)
  stime : UInt64
  etime : UInt64

/-- The shared fields, the lock in the input region and the calls executed so far. -/
structure Shared where
  executionFinished : Int
  lockByte2 : Bool
  region : Region
  executed : List Nat

inductive Stop where
  | ended
  | crashed
  | failed
  | deadlocked
  | waiting
  | dropped
deriving DecidableEq

/-- A value stored to a `char`. -/
def toChar (n : Int) : Int := n.bmod 256

def threadOf (i : Nat) (call : ServerCall) (out : Outcome) : Thread where
  callIndex := UInt32.ofNat i
  callNum := call.num
  res := out.res
  reserrno := out.reserrno
  faultInjected := out.faultInjected
  lastScheduled := true
  info := out.info
  stime := out.stime
  etime := out.etime
  cov := ⟨[], []⟩

/-- `syz_failure_down` writes its reply before it runs; a pseudo call has no info. -/
def crashThread (i : Nat) (call : ServerCall) (out : Outcome) : Thread :=
  { threadOf i call out with res := -1, info := none }

/-- `syz_failure_down` on a kernel server: `global_call_index` is already behind the call. The
machine goes down inside `execute_syscall`, so the lock taken there is never released. -/
def crash (srv : Server) (i : Nat) (s : Shared) : Shared :=
  { s with
    executionFinished := toChar (CALLOFFSET + (i + 1 : Nat) - 1)
    lockByte2 := srv.enableC2san || s.lockByte2
    executed := s.executed ++ [i] }

/-- `execute_call` and `handle_completion` for the call at `i`: `none` when it returns. -/
def executeCall (srv : Server) (i : Nat) (call : ServerCall) (out : Outcome) (s : Shared) : Option Stop × Shared :=
  if call.failureDown then
    (writeCallOutput srv.config (crashThread i call out) false s.region).elim (some .failed, s) fun region =>
      if srv.enableC2san && s.lockByte2 then (some .deadlocked, { s with region })
      else (some .crashed, crash srv i { s with region })
  else if srv.enableC2san && s.lockByte2 then (some .deadlocked, s)
  else
    let done := { s with executed := s.executed ++ [i] }
    ((writeCallOutput srv.config (threadOf i call out) true s.region).bind
        (writeExtraOutput srv.config none)).elim (some .failed, done) fun region => (none, { done with region })

/-- The loop of `execute_one` from call `i` on. -/
def callLoop (srv : Server) (restarting : Bool) (outs : Nat → Outcome) : Nat → List ServerCall → Shared → Stop × Shared
  | _, [], s => (.ended, s)
  | i, call :: calls, s =>
    if restarting && decide (s.executionFinished < CALLOFFSET) then (.failed, s)
    else if restarting && decide ((i : Int) ≤ s.executionFinished - CALLOFFSET) then
      callLoop srv restarting outs (i + 1) calls s
    else
      let (stop, s') := executeCall srv i call (outs i) s
      stop.elim (callLoop srv restarting outs (i + 1) calls s') fun stop => (stop, s')

/-- The first round of a program. The fuzzer has zeroed the control block of the input region with the
request; the one of the output region and the position are reset, and the stream starts with the
number of replies and a server's zero inode. -/
def firstRound (srv : Server) (prog : ServerProg) (outs : Nat → Outcome) (s : Shared) : Stop × Shared :=
  let start := { s.region with pos := 0, posValue := 0, completed := 0 }
  ((start.writeOutput 0).bind (Region.writeOutput64 0)).elim (.failed, s) fun region =>
    callLoop srv false outs 0 prog.calls { s with executionFinished := 0, lockByte2 := false, region }

/-- An executor started with `is_restarting` set. `CALLOFFSET - 1` is the mark of the crash consistency
mode, which replies at once; below it `receive_execute` waits for a test case. -/
def restart (srv : Server) (prog : ServerProg) (outs : Nat → Outcome) (s : Shared) : Stop × Shared :=
  if s.executionFinished = CALLOFFSET - 1 then
    (({ s.region with pos := 0, completed := 0 } : Region).writeOutput 0).elim (.failed, s) fun region =>
      (.dropped, { s with region, executionFinished := 1 })
  else if s.executionFinished < CALLOFFSET then (.waiting, s)
  else
    callLoop srv true outs 0 prog.calls
      { s with region := { s.region with pos := 4 * s.region.posValue, completed := 0 } }

/-- The end of the incarnation `k`; the executor is started again after a crash only. -/
def incarnation (srv : Server) (prog : ServerProg) (outs : Nat → Nat → Outcome) (s : Shared) : Nat → Stop × Shared
  | 0 => firstRound srv prog (outs 0) s
  | k + 1 =>
    let before := incarnation srv prog outs s k
    if before.1 = .crashed then restart srv prog (outs (k + 1)) before.2 else before

/-- One reply for the call at `i`, finished unless the call crashed the server. -/
def Answers (i : Nat) (call : ServerCall) (reply : CallReply) : Prop :=
  reply.index = UInt32.ofNat i ∧ reply.num = call.num ∧
    (reply.flags &&& callFlagFinished ≠ 0 ↔ call.failureDown = false)

/-- Some incarnation runs to the end of the program; by then every call was executed once, in order,
and the reply area holds one reply for each. -/
def ResumesOnce (srv : Server) (prog : ServerProg) (outs : Nat → Nat → Outcome) (s : Shared) : Prop :=
  ∃ k final replies rest, incarnation srv prog outs s k = (.ended, final) ∧
    final.executed = s.executed ++ List.range prog.calls.length ∧
    decodeReplies.run (final.region.data.slice 0 outSize) = .ok (replies, rest) ∧
    replies.length = prog.calls.length ∧
    ∀ i call, prog.calls[i]? = some call → ∃ reply, (replies.map Prod.fst)[i]? = some reply ∧ Answers i call reply

/-- The index of a crash fits its `char`, and under the order lock nothing follows a crash. -/
def CrashesFit (srv : Server) (prog : ServerProg) : Prop :=
  ∀ i call, prog.calls[i]? = some call → call.failureDown = true →
    i < 125 ∧ (srv.enableC2san = true → i + 1 = prog.calls.length)

/-- The first `m` calls were executed and their replies stand in the region. -/
structure Done (prog : ServerProg) (earlier : List Nat) (m : Nat) (s : Shared) : Prop where
  executed : s.executed = earlier ++ List.range m
  stream : ∃ recs : List Record, recs.length = m ∧ (∀ rec ∈ recs, rec.Framed ∧ rec.bytes.length = 200) ∧
    (∀ i call, i < m → prog.calls[i]? = some call → ∃ rec, recs[i]? = some rec ∧ Answers i call rec.reply) ∧
    Counts (UInt32.ofNat m) (le64 0 ++ recs.flatMap Record.bytes) s.region

variable {srv : Server} {prog : ServerProg} {earlier : List Nat} {m : Nat} {s : Shared} {call : ServerCall}

theorem length_flatMap_bytes {recs : List Record} (sized : ∀ rec ∈ recs, rec.Framed ∧ rec.bytes.length = 200) :
    (recs.flatMap Record.bytes).length = 200 * recs.length := by
  induction recs with
  | nil => rfl
  | cons rec recs ih =>
    have own := (sized rec List.mem_cons_self).2
    have rest := ih fun other member => sized other (List.mem_cons_of_mem rec member)
    rw [List.flatMap_cons, List.length_append, own, rest, List.length_cons]
    omega

theorem Done.pos (done : Done prog earlier m s) : s.region.pos = 12 + 200 * m := by
  obtain ⟨recs, size, sized, _, counts⟩ := done.stream
  rw [← Region.length_written, counts.written, List.length_append, List.length_append, length_flatMap_bytes sized,
    length_le32, length_le64, size]
  omega

theorem record_server (th : Thread) (finished : Bool) {info : List UInt8} (size : info.length = INFOLIMIT) :
    (th.record srv.config finished info).Framed ∧ (th.record srv.config finished info).bytes.length = 200 := by
  have silent : (srv.config.isDfsClient && srv.config.flagCoverage) = false := by rw [srv.server]; rfl
  have signal : (th.record srv.config finished info).signal = [] := by simp [Thread.record, silent]
  have cover : (th.record srv.config finished info).cover = [] := by simp [Thread.record, silent]
  have framed : (th.record srv.config finished info).Framed := by
    refine ⟨size, ?_, ?_⟩
    · rw [signal]
      decide
    · rw [cover]
      decide
  refine ⟨framed, ?_⟩
  have fixed := Record.length_fixed framed
  rw [List.length_append] at fixed
  simp only [Record.bytes, signal, cover, words, List.flatMap_nil, List.nil_append, List.length_append, length_le64,
    ← Nat.add_assoc, fixed, callReplySize]

/-- A reply written behind those of the first `m` calls is the reply of the call at `m`. -/
theorem Done.extend {th : Thread} {finished : Bool} {region : Region} (done : Done prog earlier m s)
    (here : prog.calls[m]? = some call) (index : th.callIndex = UInt32.ofNat m) (num : th.callNum = call.num)
    (flags : replyFlags finished th &&& callFlagFinished ≠ 0 ↔ call.failureDown = false)
    (wrote : writeCallOutput srv.config th finished s.region = some region) :
    ∃ recs : List Record, recs.length = m + 1 ∧ (∀ rec ∈ recs, rec.Framed ∧ rec.bytes.length = 200) ∧
      (∀ i call, i < m + 1 → prog.calls[i]? = some call → ∃ rec, recs[i]? = some rec ∧ Answers i call rec.reply) ∧
      Counts (UInt32.ofNat (m + 1)) (le64 0 ++ recs.flatMap Record.bytes) region := by
  obtain ⟨recs, size, sized, answered, counts⟩ := done.stream
  obtain ⟨info, infoSize, counts', _⟩ := writeCallOutput_counts counts wrote
  refine ⟨recs ++ [th.record srv.config finished info], by simp [size], ?_, ?_, ?_⟩
  · intro rec member
    rcases List.mem_append.mp member with old | new
    · exact sized rec old
    · obtain rfl := List.mem_singleton.mp new
      exact record_server th finished infoSize
  · intro i other small found
    rcases Nat.lt_succ_iff_lt_or_eq.mp small with before | rfl
    · obtain ⟨rec, place, answers⟩ := answered i other before found
      exact ⟨rec, by rw [List.getElem?_append_left (by omega), place], answers⟩
    · obtain rfl := Option.some.inj (here.symm.trans found)
      refine ⟨th.record srv.config finished info, ?_, index, num, flags⟩
      rw [← size, List.getElem?_concat_length]
  · rw [UInt32.ofNat_add, show UInt32.ofNat 1 = 1 from rfl]
    simpa only [List.flatMap_append, List.flatMap_cons, List.flatMap_nil, List.append_nil, List.append_assoc]
      using counts'

theorem ServerProg.room (prog : ServerProg) (inside : m < prog.calls.length) : 12 + 200 * m + 200 ≤ kMaxOutput := by
  have := prog.fits
  simp only [kMaxInput, kMaxOutput] at *
  omega

theorem index_lt (found : prog.calls[m]? = some call) : m < prog.calls.length := by
  by_contra outside
  rw [List.getElem?_eq_none (by omega)] at found
  cases found

theorem Done.writes (done : Done prog earlier m s) (srv : Server) (here : prog.calls[m]? = some call) (th : Thread)
    (finished : Bool) : ∃ region, writeCallOutput srv.config th finished s.region = some region := by
  obtain ⟨region, wrote, _⟩ := writeCallOutput_advances th finished (by rw [srv.server]; rfl) s.region (by
    rw [done.pos]
    exact prog.room (index_lt here))
  exact ⟨region, wrote⟩

theorem executeCall_returns (done : Done prog earlier m s) (here : prog.calls[m]? = some call)
    (plain : call.failureDown = false) (free : (srv.enableC2san && s.lockByte2) = false) (out : Outcome) :
    ∃ s', executeCall srv m call out s = (none, s') ∧ Done prog earlier (m + 1) s' ∧
      s'.executionFinished = s.executionFinished ∧ s'.lockByte2 = s.lockByte2 := by
  obtain ⟨region, wrote⟩ := done.writes srv here (threadOf m call out) true
  have quiet : writeExtraOutput srv.config none region = some region := by
    unfold writeExtraOutput
    split <;> rfl
  refine ⟨{ s with executed := s.executed ++ [m], region }, ?_, ⟨?_, ?_⟩, rfl, rfl⟩
  · simp [executeCall, plain, free, wrote, quiet]
  · rw [done.executed, List.range_succ, List.append_assoc]
  · refine done.extend here rfl rfl ?_ wrote
    cases faulted : out.faultInjected <;> simp [replyFlags, threadOf, faulted, plain] <;> decide

theorem executeCall_crashes (done : Done prog earlier m s) (here : prog.calls[m]? = some call)
    (down : call.failureDown = true) (free : (srv.enableC2san && s.lockByte2) = false) (out : Outcome) :
    ∃ s', executeCall srv m call out s = (some .crashed, s') ∧ Done prog earlier (m + 1) s' ∧
      s'.executionFinished = toChar (CALLOFFSET + (m + 1 : Nat) - 1) ∧
      s'.lockByte2 = (srv.enableC2san || s.lockByte2) := by
  obtain ⟨region, wrote⟩ := done.writes srv here (crashThread m call out) false
  refine ⟨crash srv m { s with region }, ?_, ⟨?_, ?_⟩, rfl, rfl⟩
  · simp [executeCall, down, free, wrote]
  · simp only [crash]
    rw [done.executed, List.range_succ, List.append_assoc]
  · refine done.extend here rfl rfl ?_ wrote
    simp [replyFlags, down, crashThread, threadOf]
    decide

/-- The loop can go on with the call at `m`: it is behind the calls a recovery skips and the lock is free. -/
structure Ready (srv : Server) (prog : ServerProg) (earlier : List Nat) (restarting : Bool) (m : Nat) (s : Shared) :
    Prop where
  done : Done prog earlier m s
  skipped : restarting = true → CALLOFFSET ≤ s.executionFinished ∧ s.executionFinished - CALLOFFSET < m
  free : m < prog.calls.length → (srv.enableC2san && s.lockByte2) = false

/-- Some incarnation comes to the call at `m` with the calls before it done. -/
def Reaches (srv : Server) (prog : ServerProg) (outs : Nat → Nat → Outcome) (init : Shared) (m : Nat) : Prop :=
  ∃ k restarting s, Ready srv prog init.executed restarting m s ∧
    incarnation srv prog outs init k = callLoop srv restarting (outs k) m (prog.calls.drop m) s

variable {outs : Nat → Nat → Outcome} {init : Shared}

variable {out : Nat → Outcome}

theorem callLoop_executes {restarting : Bool}
    (skipped : restarting = true → CALLOFFSET ≤ s.executionFinished ∧ s.executionFinished - CALLOFFSET < m)
    (here : prog.calls[m]? = some call) :
    callLoop srv restarting out m (prog.calls.drop m) s =
      (executeCall srv m call (out m) s).1.elim
        (callLoop srv restarting out (m + 1) (prog.calls.drop (m + 1)) (executeCall srv m call (out m) s).2)
        fun stop => (stop, (executeCall srv m call (out m) s).2) := by
  have inside := index_lt here
  have head : prog.calls.drop m = call :: prog.calls.drop (m + 1) := by
    rw [List.drop_eq_getElem_cons inside, (List.getElem?_eq_some_iff.mp here).2]
  have past : ¬ (restarting && decide (s.executionFinished < CALLOFFSET)) = true := by
    rw [Bool.and_eq_true, decide_eq_true_eq]
    rintro ⟨on, small⟩
    have := (skipped on).1
    omega
  have behind : ¬ (restarting && decide ((m : Int) ≤ s.executionFinished - CALLOFFSET)) = true := by
    rw [Bool.and_eq_true, decide_eq_true_eq]
    rintro ⟨on, small⟩
    have := (skipped on).2
    omega
  rw [head, callLoop, if_neg past, if_neg behind]

theorem callLoop_skips (marked : CALLOFFSET ≤ s.executionFinished) {i : Nat}
    (before : (m : Int) ≤ s.executionFinished - CALLOFFSET + 1) (start : i ≤ m) (inside : m ≤ prog.calls.length) :
    callLoop srv true out i (prog.calls.drop i) s = callLoop srv true out m (prog.calls.drop m) s := by
  induction h : m - i generalizing i with
  | zero =>
    obtain rfl : i = m := by omega
    rfl
  | succ n ih =>
    have smaller : i < prog.calls.length := by omega
    have past : ¬ (true && decide (s.executionFinished < CALLOFFSET)) = true := by
      rw [Bool.true_and, decide_eq_true_eq]
      omega
    have skip : (true && decide ((i : Int) ≤ s.executionFinished - CALLOFFSET)) = true := by
      rw [Bool.true_and, decide_eq_true_eq]
      omega
    rw [List.drop_eq_getElem_cons smaller, callLoop, if_neg past, if_pos skip]
    exact ih (by omega) (by omega)

theorem toChar_small (small : m < 125) : toChar (CALLOFFSET + (m + 1 : Nat) - 1) = CALLOFFSET + m := by
  have offset : CALLOFFSET = 3 := rfl
  rw [offset, toChar, Int.bmod, if_pos (by omega)]
  omega

/-- The recovery after a crash at `m` takes up the call behind it where the region was left. -/
theorem restart_crashed (done : Done prog earlier (m + 1) s) (small : m < 125) (inside : m < prog.calls.length)
    (mark : s.executionFinished = toChar (CALLOFFSET + (m + 1 : Nat) - 1))
    (last : m + 1 < prog.calls.length → (srv.enableC2san && s.lockByte2) = false) :
    ∃ s', Ready srv prog earlier true (m + 1) s' ∧
      restart srv prog out s = callLoop srv true out (m + 1) (prog.calls.drop (m + 1)) s' := by
  rw [toChar_small small] at mark
  have offset : CALLOFFSET = 3 := rfl
  have aligned : 4 * s.region.posValue = s.region.pos := by
    obtain ⟨recs, _, _, _, counts⟩ := done.stream
    have := done.pos
    rw [counts.saved]
    omega
  let s' : Shared := { s with region := { s.region with pos := 4 * s.region.posValue, completed := 0 } }
  have kept : Done prog earlier (m + 1) s' := by
    refine ⟨done.executed, ?_⟩
    obtain ⟨recs, size, sized, answered, counts⟩ := done.stream
    refine ⟨recs, size, sized, answered, ?_, ?_⟩
    · change s.region.data.slice 0 (4 * s.region.posValue) = _
      rw [aligned]
      exact counts.written
    · change s.region.posValue = 4 * s.region.posValue / 4
      omega
  refine ⟨s', ⟨kept, fun _ => ⟨?_, ?_⟩, last⟩, ?_⟩
  · change CALLOFFSET ≤ s.executionFinished
    omega
  · change s.executionFinished - CALLOFFSET < _
    omega
  · have started : ¬ s.executionFinished = CALLOFFSET - 1 := by omega
    have marked : ¬ s.executionFinished < CALLOFFSET := by omega
    have within : m + 1 ≤ prog.calls.length := inside
    rw [restart, if_neg started, if_neg marked]
    exact callLoop_skips (i := 0) (s := s') (show CALLOFFSET ≤ s.executionFinished by omega)
      (show ((m + 1 : Nat) : Int) ≤ s.executionFinished - CALLOFFSET + 1 by omega) (Nat.zero_le _) within

theorem reaches_zero : Reaches srv prog outs init 0 := by
  let start : Region := { init.region with pos := 0, posValue := 0, completed := 0 }
  obtain ⟨r1, one, p1⟩ := writeOutput_advances 0 start (by simp [start, kMaxOutput])
  obtain ⟨r2, two, _⟩ := writeOutput64_advances 0 r1 (by rw [p1]; simp [start, kMaxOutput])
  have whole := (Region.writeOutput_appends one).trans (Region.writeOutput64_appends two)
  refine ⟨0, false, { init with executionFinished := 0, lockByte2 := false, region := r2 }, ⟨⟨?_, ?_⟩, nofun, ?_⟩, ?_⟩
  · simp
  · refine ⟨[], rfl, by simp, fun i call small => by omega, ?_, whole.posValue⟩
    change r2.written = _
    rw [whole.written]
    rfl
  · intro _
    simp
  · have both : (start.writeOutput 0).bind (Region.writeOutput64 0) = some r2 :=
      Option.bind_eq_some_iff.mpr ⟨r1, one, two⟩
    simp only [incarnation, firstRound]
    rw [both]
    rfl

/-- The incarnation that comes to a crash at `m` ends there. -/
theorem Reaches.crashed (reaches : Reaches srv prog outs init m) (here : prog.calls[m]? = some call)
    (down : call.failureDown = true) :
    ∃ k s, incarnation srv prog outs init k = (.crashed, s) ∧ Done prog init.executed (m + 1) s ∧
      s.executionFinished = toChar (CALLOFFSET + (m + 1 : Nat) - 1) ∧ (srv.enableC2san = true → s.lockByte2 = true) := by
  obtain ⟨k, restarting, s, ready, run⟩ := reaches
  obtain ⟨s', crashed, done, mark, lock⟩ :=
    executeCall_crashes ready.done here down (ready.free (index_lt here)) (outs k m)
  rw [callLoop_executes ready.skipped here, crashed] at run
  exact ⟨k, s', run, done, mark, fun order => by rw [lock, order, Bool.true_or]⟩

theorem Reaches.succ (reaches : Reaches srv prog outs init m) (here : prog.calls[m]? = some call)
    (fit : call.failureDown = true → m < 125 ∧ (srv.enableC2san = true → m + 1 = prog.calls.length)) :
    Reaches srv prog outs init (m + 1) := by
  cases down : call.failureDown with
  | false =>
    obtain ⟨k, restarting, s, ready, run⟩ := reaches
    have free := ready.free (index_lt here)
    obtain ⟨s', returned, done, mark, lock⟩ := executeCall_returns ready.done here down free (outs k m)
    rw [callLoop_executes ready.skipped here, returned] at run
    refine ⟨k, restarting, s', ⟨done, fun on => ?_, fun _ => by rw [lock, free]⟩, run⟩
    obtain ⟨marked, behind⟩ := ready.skipped on
    rw [mark]
    exact ⟨marked, by omega⟩
  | true =>
    obtain ⟨small, order⟩ := fit down
    obtain ⟨k, s, run, done, mark, _⟩ := reaches.crashed here down
    have last : m + 1 < prog.calls.length → (srv.enableC2san && s.lockByte2) = false := by
      intro more
      cases lock : srv.enableC2san with
      | false => rfl
      | true => exact absurd (order lock) (by omega)
    obtain ⟨s', ready, again⟩ := restart_crashed done small (index_lt here) mark last
    refine ⟨k + 1, true, s', ready, ?_⟩
    rw [incarnation, run, if_pos rfl]
    exact again

theorem reaches_of_fit (fit : ∀ i call, i < m → prog.calls[i]? = some call → call.failureDown = true →
      i < 125 ∧ (srv.enableC2san = true → i + 1 = prog.calls.length))
    (inside : m ≤ prog.calls.length) : Reaches srv prog outs init m := by
  induction m with
  | zero => exact reaches_zero
  | succ m ih =>
    have here : prog.calls[m]? = some (prog.calls[m]) := List.getElem?_eq_getElem inside
    exact (ih (fun i call small => fit i call (by omega)) (by omega)).succ here (fit m _ (by omega) here)

theorem Done.decodes (done : Done prog earlier prog.calls.length s) :
    ∃ replies rest, decodeReplies.run (s.region.data.slice 0 outSize) = .ok (replies, rest) ∧
      replies.length = prog.calls.length ∧
      ∀ i call, prog.calls[i]? = some call → ∃ reply, (replies.map Prod.fst)[i]? = some reply ∧ Answers i call reply := by
  obtain ⟨recs, size, sized, answered, counts⟩ := done.stream
  have place := done.pos
  have fits := prog.fits
  simp only [kMaxInput] at fits
  have whole : s.region.data.slice 0 outSize =
      (le32 (UInt32.ofNat recs.length) ++ (le64 0 ++ recs.flatMap Record.bytes)) ++
        s.region.data.slice s.region.pos (outSize - s.region.pos) := by
    have split : outSize = s.region.pos + (outSize - s.region.pos) := by
      simp only [outSize]
      omega
    rw [split, Image.slice_add, Nat.zero_add, ← split, size, ← counts.written]
    rfl
  have count : (UInt32.ofNat recs.length).toNat = recs.length := UInt32.toNat_ofNat_of_lt' (by
    rw [size, UInt32.size]
    omega)
  have read : ByteReader.Reads decodeReplies (le32 (UInt32.ofNat recs.length) ++ (le64 0 ++ recs.flatMap Record.bytes))
      (recs.map fun rec => (rec.reply, rec.payload)) := by
    refine (ByteReader.reads_uint32 _ _).bind ((ByteReader.reads_uint64 _ _).bind ?_)
    rw [count]
    exact reads_replies (fun rec member => (sized rec member).1) 0
  refine ⟨_, _, (congrArg decodeReplies.run whole).trans (read _), by simp [size], ?_⟩
  intro i call found
  obtain ⟨rec, here, answers⟩ := answered i call (index_lt found) found
  exact ⟨rec.reply, by simp [here], answers⟩

theorem resumesOnce_of_fit (fit : CrashesFit srv prog) : ResumesOnce srv prog outs init := by
  have reached : Reaches srv prog outs init prog.calls.length :=
    reaches_of_fit (fun i call _ => fit i call) (Nat.le_refl _)
  obtain ⟨k, restarting, s, ready, run⟩ := reached
  obtain ⟨replies, rest, decoded, size, answered⟩ := ready.done.decodes
  rw [List.drop_length] at run
  exact ⟨k, s, replies, rest, run, ready.done.executed, decoded, size, answered⟩

/-- A call that is run is logged, unless the lock is held or the region is full. -/
theorem executeCall_next (i : Nat) (call : ServerCall) (out : Outcome) (s : Shared) :
    (executeCall srv i call out s).1 = some .failed ∨ (executeCall srv i call out s).1 = some .deadlocked ∨
      ((srv.enableC2san && s.lockByte2) = false ∧ (executeCall srv i call out s).2.executed = s.executed ++ [i]) := by
  unfold executeCall
  split
  next =>
    cases writeCallOutput srv.config (crashThread i call out) false s.region with
    | none => exact .inl rfl
    | some region =>
      cases held : srv.enableC2san && s.lockByte2 with
      | true => exact .inr (.inl rfl)
      | false => exact .inr (.inr ⟨rfl, rfl⟩)
  next =>
    cases held : srv.enableC2san && s.lockByte2 with
    | true => exact .inr (.inl rfl)
    | false =>
      cases (writeCallOutput srv.config (threadOf i call out) true s.region).bind (writeExtraOutput srv.config none) with
      | none => exact .inl rfl
      | some region => exact .inr (.inr ⟨rfl, rfl⟩)

theorem executeCall_extends (i : Nat) (call : ServerCall) (out : Outcome) (s : Shared) :
    s.executed <+: (executeCall srv i call out s).2.executed := by
  unfold executeCall
  split
  next =>
    cases writeCallOutput srv.config (crashThread i call out) false s.region with
    | none => exact List.prefix_refl _
    | some region =>
      cases held : srv.enableC2san && s.lockByte2 with
      | true => exact List.prefix_refl _
      | false => exact List.prefix_append _ _
  next =>
    cases held : srv.enableC2san && s.lockByte2 with
    | true => exact List.prefix_refl _
    | false =>
      cases (writeCallOutput srv.config (threadOf i call out) true s.region).bind (writeExtraOutput srv.config none) with
      | none => exact List.prefix_append _ _
      | some region => exact List.prefix_append _ _

theorem callLoop_extends {restarting : Bool} (i : Nat) (calls : List ServerCall) (s : Shared) :
    s.executed <+: (callLoop srv restarting out i calls s).2.executed := by
  induction calls generalizing i s with
  | nil => exact List.prefix_refl _
  | cons call calls ih =>
    unfold callLoop
    split
    next => exact List.prefix_refl _
    next =>
      split
      next => exact ih (i + 1) s
      next =>
        have one : s.executed <+: (executeCall srv i call (out i) s).2.executed := executeCall_extends i call (out i) s
        cases stop : (executeCall srv i call (out i) s).1 with
        | none => simpa [stop] using one.trans (ih (i + 1) _)
        | some stop' => simpa [stop] using one

theorem restart_extends (s : Shared) : s.executed <+: (restart srv prog out s).2.executed := by
  unfold restart
  split
  next =>
    cases Region.writeOutput 0 ({ s.region with pos := 0, completed := 0 } : Region) with
    | none => exact List.prefix_refl _
    | some region => exact List.prefix_refl _
  next =>
    split
    next => exact List.prefix_refl _
    next =>
      exact callLoop_extends 0 prog.calls
        { s with region := { s.region with pos := 4 * s.region.posValue, completed := 0 } }

/-- The run has stopped short of the end or executed a call again. -/
def Strayed (earlier : List Nat) (p : Stop × Shared) : Prop :=
  (p.1 ≠ .ended ∧ p.1 ≠ .crashed) ∨
    ∃ j i, i ≤ j ∧ earlier ++ (List.range (j + 1) ++ [i]) <+: p.2.executed

theorem Strayed.next {k : Nat} (strayed : Strayed earlier (incarnation srv prog outs init k)) :
    Strayed earlier (incarnation srv prog outs init (k + 1)) := by
  rw [incarnation]
  split
  next crashed =>
    rcases strayed with ⟨_, alive⟩ | ⟨j, i, order, again⟩
    · exact absurd crashed alive
    · exact .inr ⟨j, i, order, again.trans (restart_extends _)⟩
  next => exact strayed

theorem Strayed.later {k : Nat} (strayed : Strayed earlier (incarnation srv prog outs init k)) (more : Nat) :
    Strayed earlier (incarnation srv prog outs init (k + more)) := by
  induction more with
  | zero => exact strayed
  | succ more ih => exact ih.next

theorem Strayed.not_once {p : Stop × Shared} (strayed : Strayed earlier p) (ended : p.1 = .ended) (n : Nat) :
    p.2.executed ≠ earlier ++ List.range n := by
  intro whole
  rcases strayed with ⟨running, _⟩ | ⟨j, i, order, again⟩
  · exact running ended
  · rw [whole, List.prefix_append_right_inj] at again
    have unique := again.sublist.nodup List.nodup_range
    have fresh := (List.nodup_append.mp unique).2.2 i (List.mem_range.mpr (by omega)) i (List.mem_singleton_self i)
    exact fresh rfl

/-- A recovery that finds the mark of call `i` runs the call behind it. -/
theorem restart_next {i : Nat} (mark : s.executionFinished = CALLOFFSET + i) (inside : i + 1 < prog.calls.length) :
    ((restart srv prog out s).1 ≠ .ended ∧ (restart srv prog out s).1 ≠ .crashed) ∨
      ((srv.enableC2san && s.lockByte2) = false ∧ s.executed ++ [i + 1] <+: (restart srv prog out s).2.executed) := by
  let s' : Shared := { s with region := { s.region with pos := 4 * s.region.posValue, completed := 0 } }
  have mark' : s'.executionFinished = CALLOFFSET + i := mark
  have started : ¬ s.executionFinished = CALLOFFSET - 1 := by omega
  have marked : ¬ s.executionFinished < CALLOFFSET := by omega
  have here : prog.calls[i + 1]? = some (prog.calls[i + 1]) := List.getElem?_eq_getElem inside
  have run : restart srv prog out s = callLoop srv true out (i + 1) (prog.calls.drop (i + 1)) s' := by
    rw [restart, if_neg started, if_neg marked]
    exact callLoop_skips (i := 0) (s := s') (by omega) (by omega) (Nat.zero_le _) inside.le
  have offset : ((i + 1 : Nat) : Int) = i + 1 := by omega
  rw [callLoop_executes (fun _ => ⟨by omega, by omega⟩) here] at run
  rcases executeCall_next (i + 1) prog.calls[i + 1] (out (i + 1)) s' with full | held | ⟨free, logged⟩
  · rw [run, full]
    exact .inl ⟨nofun, nofun⟩
  · rw [run, held]
    exact .inl ⟨nofun, nofun⟩
  · refine .inr ⟨free, ?_⟩
    rw [run]
    have own : s.executed ++ [i + 1] <+: (executeCall srv (i + 1) prog.calls[i + 1] (out (i + 1)) s').2.executed :=
      ⟨[], (List.append_nil _).trans logged.symm⟩
    cases stop : (executeCall srv (i + 1) prog.calls[i + 1] (out (i + 1)) s').1 with
    | none => exact own.trans (callLoop_extends (i + 1 + 1) (prog.calls.drop (i + 1 + 1)) _)
    | some stop' => exact own

theorem toChar_lt (n : Int) : toChar n < 128 := Int.bmod_lt (by decide)

/-- The mark of a crash that does not fit is that of an earlier call, or of one with a call behind it. -/
theorem misfit_mark (inside : m < prog.calls.length)
    (misfit : ¬ (m < 125 ∧ (srv.enableC2san = true → m + 1 = prog.calls.length)))
    (mark : s.executionFinished = toChar (CALLOFFSET + (m + 1 : Nat) - 1)) (marked : CALLOFFSET ≤ s.executionFinished) :
    ∃ i : Nat, s.executionFinished = CALLOFFSET + i ∧ (125 ≤ m → i + 1 ≤ m) ∧ i + 1 < prog.calls.length := by
  have offset : CALLOFFSET = 3 := rfl
  by_cases small : m < 125
  · refine ⟨m, mark.trans (toChar_small small), fun large => absurd small (by omega), ?_⟩
    have order : ¬ (srv.enableC2san = true → m + 1 = prog.calls.length) := fun order => misfit ⟨small, order⟩
    have := (Classical.not_imp.mp order).2
    omega
  · have bound := toChar_lt (CALLOFFSET + (m + 1 : Nat) - 1)
    rw [← mark] at bound
    refine ⟨(s.executionFinished - CALLOFFSET).toNat, ?_, fun _ => ?_, ?_⟩ <;> omega

theorem restart_unmarked (unmarked : s.executionFinished < CALLOFFSET) :
    (restart srv prog out s).1 ≠ .ended ∧ (restart srv prog out s).1 ≠ .crashed := by
  unfold restart
  split
  next =>
    cases Region.writeOutput 0 ({ s.region with pos := 0, completed := 0 } : Region) with
    | none => exact ⟨nofun, nofun⟩
    | some region => exact ⟨nofun, nofun⟩
  next => exact ⟨nofun, nofun⟩

/-- From a crash that does not fit on, the run never comes to its end with every call executed once. -/
theorem strayed_of_misfit (reaches : Reaches srv prog outs init m) (here : prog.calls[m]? = some call)
    (down : call.failureDown = true)
    (misfit : ¬ (m < 125 ∧ (srv.enableC2san = true → m + 1 = prog.calls.length))) :
    ∃ k, (incarnation srv prog outs init k).1 = .crashed ∧
      Strayed init.executed (incarnation srv prog outs init (k + 1)) := by
  obtain ⟨k, s, run, done, mark, lock⟩ := reaches.crashed here down
  refine ⟨k, by rw [run], ?_⟩
  rw [incarnation, run, if_pos rfl]
  by_cases marked : CALLOFFSET ≤ s.executionFinished
  · obtain ⟨i, mark', order, more⟩ := misfit_mark (index_lt here) misfit mark marked
    rcases restart_next mark' more with stopped | ⟨free, again⟩
    · exact .inl stopped
    · have unordered : srv.enableC2san ≠ true := by
        intro ordered
        rw [ordered, lock ordered] at free
        cases free
      have large : 125 ≤ m := by
        by_contra small
        exact misfit ⟨by omega, fun ordered => absurd ordered unordered⟩
      rw [done.executed, List.append_assoc] at again
      exact .inr ⟨m, i + 1, order large, again⟩
  · exact .inl (restart_unmarked (Int.not_le.mp marked))

theorem incarnation_kept {k : Nat} (ended : (incarnation srv prog outs init k).1 ≠ .crashed) (more : Nat) :
    incarnation srv prog outs init (k + more) = incarnation srv prog outs init k := by
  induction more with
  | zero => rfl
  | succ more ih =>
    rw [← Nat.add_assoc, incarnation, ih, if_neg ended]

theorem fit_of_resumesOnce (resumes : ResumesOnce srv prog outs init) : CrashesFit srv prog := by
  obtain ⟨k, final, _, _, ended, once, _⟩ := resumes
  by_contra misfits
  -- the first crash that does not fit is reached, the ones before it fit
  let Misfit (m : Nat) : Prop := ∃ call, prog.calls[m]? = some call ∧ call.failureDown = true ∧
    ¬ (m < 125 ∧ (srv.enableC2san = true → m + 1 = prog.calls.length))
  have misfitting : ∃ m, Misfit m := by
    simp only [CrashesFit, not_forall] at misfits
    obtain ⟨m, call, here, down, misfit⟩ := misfits
    exact ⟨m, call, here, down, misfit⟩
  classical
  obtain ⟨call, here, down, misfit⟩ := Nat.find_spec misfitting
  have before : ∀ i call, i < Nat.find misfitting → prog.calls[i]? = some call → call.failureDown = true →
      i < 125 ∧ (srv.enableC2san = true → i + 1 = prog.calls.length) := by
    intro i other smaller found crashes
    by_contra bad
    exact Nat.find_min misfitting smaller ⟨other, found, crashes, bad⟩
  have reaches : Reaches srv prog outs init (Nat.find misfitting) := reaches_of_fit before (index_lt here).le
  obtain ⟨k', crashed, strayed⟩ := strayed_of_misfit reaches here down misfit
  have alive : (incarnation srv prog outs init k).1 ≠ .crashed := by
    rw [ended]
    nofun
  rcases Nat.lt_or_ge k' k with earlier | later
  · obtain ⟨more, rfl⟩ := Nat.exists_eq_add_of_lt earlier
    have late := strayed.later more
    rw [show k' + 1 + more = k' + more + 1 by omega, ended] at late
    exact late.not_once rfl _ once
  · obtain ⟨more, rfl⟩ := Nat.exists_eq_add_of_le later
    rw [incarnation_kept alive more] at crashed
    exact alive crashed

/-- A crashed server resumes its program exactly once just when every `syz_failure_down` stands among
the first 125 calls and, under the order lock of the crash consistency sanitizer, is the last call. -/
theorem resumesOnce_iff (srv : Server) (prog : ServerProg) (outs : Nat → Nat → Outcome) (init : Shared) :
    ResumesOnce srv prog outs init ↔ CrashesFit srv prog :=
  ⟨fit_of_resumesOnce, resumesOnce_of_fit⟩

def orderServer (enableC2san : Bool) : Server := ⟨⟨false, true, false, true⟩, rfl, enableC2san⟩

/-- A crash with the recovery of the node behind it. -/
def downUp : ServerProg := ⟨[⟨1, true⟩, ⟨2, false⟩], by decide⟩

def lateDown : ServerProg := ⟨List.replicate 125 ⟨2, false⟩ ++ [⟨1, true⟩], by simp [kMaxInput]⟩

def quietRun (_ _ : Nat) : Outcome := ⟨0, 0, false, none, 0, 0⟩

def freshShared : Shared := ⟨0, false, ⟨fun _ => 0, 0, 0, 0⟩, []⟩

/-- The order lock taken for `syz_failure_down` stays held over the crash; the mark of the call at 125
does not fit its `char`. -/
theorem crash_notResumed :
    ¬ ResumesOnce (orderServer true) downUp quietRun freshShared ∧
      ¬ ResumesOnce (orderServer false) lateDown quietRun freshShared := by
  constructor
  · intro resumes
    have last := (fit_of_resumesOnce resumes 0 ⟨1, true⟩ rfl rfl).2 rfl
    exact absurd last (by decide)
  · intro resumes
    have small := (fit_of_resumesOnce resumes 125 ⟨1, true⟩ (by simp [lateDown]) rfl).1
    exact absurd small (by decide)

end DfsFuzz.Output
