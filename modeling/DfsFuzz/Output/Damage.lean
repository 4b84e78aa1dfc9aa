import DfsFuzz.Output.ClientDecode

/-!
A damaged output region: which replies make `parseClientOutput` index out of range, and when the events of a
trace that was cut are returned as if they were whole.
-/

namespace DfsFuzz.Output

open Bytes ByteReader

/-- The run-time errors of an index and of a slice expression. -/
def runtimeErrors : List String := ["index out of range", "slice bounds out of range"]

/-- An array or a slice was indexed out of range. -/
def ParseRet.Panics (ret : ParseRet) : Prop := ∃ err ∈ runtimeErrors, ret.err = some err

abbrev Sent := CallReply × Payload

def readSent (i : Nat) : Reader Sent := do
  let reply ← readCallReply i
  let payload ← readPayload i reply
  return (reply, payload)

/-- The whole replies at the front of a slice, and what is left behind them unless one is cut. -/
def frameReplies : Nat → Nat → List UInt8 → List Sent × Option (List UInt8)
  | _, 0, out => ([], some out)
  | i, left + 1, out =>
    match (readSent i).run out with
    | .error _ => ([], none)
    | .ok (sent, out) => ((sent :: (frameReplies (i + 1) left out).1), (frameReplies (i + 1) left out).2)

def stream (out : List UInt8) : List UInt8 := if out.length < 8 then out else out.drop 8

/-- The replies behind their number and the inode, and what is left behind them. -/
def frame (out : List UInt8) : List Sent × Option (List UInt8) :=
  if (stream out).length < 12 then ([], none)
  else frameReplies 0 (UInt32.ofNat (ofLe ((stream out).take 4))).toNat ((stream out).drop 12)

def Flagged (sent : Sent) : Prop := sent.1.flags ≠ 0 ∨ sent.2.signal ≠ []

/-- A client's reply is that of a call of the program, and the first that fills its slot. -/
def Accepted (config : FuzzerConfig) (nums : List Nat) (idx : Nat) (before : List Sent) (sent : Sent) : Prop :=
  sent.1.index ≠ extraReplyIndex ∧ config.servNum ≤ idx →
    nums[sent.1.index.toNat]? = some sent.1.num.toNat ∧
      ∀ earlier ∈ before, earlier.1.index = sent.1.index → ¬ Flagged earlier

/-- A server's reply to a call the program does not have, or a reply whose info has a wrong size. -/
def Harmful (config : FuzzerConfig) (nums : List Nat) (idx : Nat) (sent : Sent) : Prop :=
  sent.1.index ≠ extraReplyIndex ∧
    (idx < config.servNum ∧ nums.length ≤ sent.1.index.toNat ∨ ¬ InfoSized sent.1.infotype sent.1.info)

/-- A harmful reply stands behind accepted ones. -/
def Harmed (config : FuzzerConfig) (nums : List Nat) (idx : Nat) : List Sent → List Sent → Prop
  | _, [] => False
  | before, sent :: rest =>
    Accepted config nums idx before sent ∧
      (Harmful config nums idx sent ∨ Harmed config nums idx (before ++ [sent]) rest)

/-- All replies are accepted and none is harmful. -/
def Taken (config : FuzzerConfig) (nums : List Nat) (idx : Nat) : List Sent → List Sent → Prop
  | _, [] => True
  | before, sent :: rest =>
    Accepted config nums idx before sent ∧ ¬ Harmful config nums idx sent ∧
      Taken config nums idx (before ++ [sent]) rest

/-- The whole events behind the two times and the count. -/
def wholeEvents (out : List UInt8) : Nat := (out.length - 20) / 80

def word (out : List UInt8) : UInt32 := UInt32.ofNat (ofLe (out.take 4))

/-- The count is too high, the slice ends behind the first four fields of an event, and the last four bytes
that are read of it say that there is no metadata. -/
structure CutTrace (out : List UInt8) : Prop where
  header : 20 ≤ out.length
  count : wholeEvents out < (word (out.drop 16)).toNat
  fields : 20 ≤ (out.length - 20) % 80
  half : 4 ≤ (out.length - 20) % 8
  ending : word (out.drop (out.length - (out.length - 20) % 8)) = 0 ∨
    word (out.drop (out.length - (out.length - 20) % 8)) = 0xFFFFFFFF

/-- No reply of the region leads out of range, and no cut trace is taken for a whole one. -/
structure Undamaged (config : FuzzerConfig) (nums : List Nat) (idx : Nat) (out : List UInt8) : Prop where
  replies : ¬ Harmed config nums idx [] (frame out).1
  trace : Taken config nums idx [] (frame out).1 → ∀ left, (frame out).2 = some left → ¬ CutTrace left

/-- Trace events are returned of a region only as far as they are whole in it. -/
def TraceWhole (ret : ParseRet) (out : List UInt8) : Prop :=
  ret.hmdfsTraceEvents = [] ∨
    ∃ left, (frame out).2 = some left ∧ ret.hmdfsTraceEvents.length ≤ wholeEvents left

structure Guarded (ret : ParseRet) (out : List UInt8) : Prop where
  safe : ¬ ret.Panics
  whole : TraceWhole ret out

/-! ### What the errors say -/

variable {config : FuzzerConfig} {nums : List Nat} {idx : Nat}

/-- An error the parser reports, and no run-time error. -/
def Reported (err : String) : Prop := err ∉ runtimeErrors

def StartsWith (c : Char) (text : String) : Prop := text.toList.head? = some c

theorem StartsWith.append {c : Char} {front : String} (starts : StartsWith c front) (rest : String) :
    StartsWith c (front ++ rest) := by
  unfold StartsWith
  rw [String.toList_append, List.head?_append, starts, Option.some_or]

theorem StartsWith.reported {c : Char} {text : String} (starts : StartsWith c text) (letter : c ∉ ['i', 's']) :
    Reported text := by
  intro member
  simp only [runtimeErrors, List.mem_cons, List.not_mem_nil, or_false] at member
  rcases member with rfl | rfl
  · exact letter (Option.some.inj starts ▸ List.mem_cons_self)
  · exact letter (Option.some.inj starts ▸ List.mem_cons_of_mem _ List.mem_cons_self)

theorem callReply_throws (i : Nat) : Throws (readCallReply i) Reported := by
  have text : Reported ("failed to read call " ++ toString i ++ " reply") := by
    have starts : StartsWith 'f' "failed to read call " := rfl
    exact ((starts.append _).append _).reported (by decide)
  have half {α : Type} {f : UInt32 → Reader α} (rest : ∀ v, Throws (f v) Reported) := (Throws.uint32 text).bind rest
  have whole {α : Type} {f : UInt64 → Reader α} (rest : ∀ v, Throws (f v) Reported) := (Throws.uint64 text).bind rest
  refine Throws.look fun _ => Throws.unless text fun _ => ?_
  refine half fun _ => half fun _ => half fun _ => half fun _ => (Throws.bytes text _).bind fun _ => ?_
  exact whole fun _ => whole fun _ => half fun _ => half fun _ => half fun _ => half fun _ => Throws.pure _

theorem comps_throws (i left : Nat) : Throws (readCompsFrom i left) Reported := by
  induction left generalizing i with
  | zero => exact Throws.pure []
  | succ left ih =>
    have failed : StartsWith 'f' "failed to read comp " := rfl
    have bad : StartsWith 'b' "bad comp " := rfl
    have op (typ : UInt32) : Throws (readCompOp ("failed to read comp " ++ toString i ++ " op") typ) Reported := by
      have text := ((failed.append (toString i)).append " op").reported (by decide)
      unfold readCompOp
      split
      next => exact Throws.uint64 text
      next => exact (Throws.uint32 text).bind fun _ => Throws.pure _
    refine (Throws.uint32 ((failed.append _).reported (by decide))).bind fun typ => ?_
    refine Throws.unless ((((bad.append _).append _).append _).reported (by decide)) fun _ => ?_
    refine (op typ).bind fun op1 => (op typ).bind fun op2 => (ih (i + 1)).bind fun rest => ?_
    split
    next => exact Throws.pure _
    split <;> exact Throws.pure _

theorem overflowError_reported (kind : String) (i : Nat) (reply : CallReply) (size : UInt32) (left : Nat) :
    Reported (overflowError kind i reply size left) := by
  have starts : StartsWith 'c' "call " := rfl
  have call := ((starts.append (toString i)).append "/").append (toString reply.index)
  have numbers := (call.append "/").append (toString reply.num)
  have what := ((numbers.append ": ").append kind).append " overflow: "
  exact (((what.append (toString size)).append "/").append (toString left)).reported (by decide)

theorem payload_throws (i : Nat) (reply : CallReply) : Throws (readPayload i reply) Reported := by
  have text := overflowError_reported
  refine Throws.look fun _ => (Throws.uint32Array (text _ i reply _ _) _).bind fun _ => ?_
  refine Throws.look fun _ => (Throws.uint32Array (text _ i reply _ _) _).bind fun _ => ?_
  refine (comps_throws 0 _).bind fun _ => (Throws.uint64 ?_).bind fun _ => Throws.pure _
  unfold Reported runtimeErrors
  decide

theorem checkReply_reported {i : Nat} {reply : CallReply} {st : Received} {err : String}
    (failed : checkReply nums i reply st = .error err) : Reported err := by
  have bad : StartsWith 'b' "bad call " := rfl
  have wrong : StartsWith 'w' "wrong call " := rfl
  have duplicate : StartsWith 'd' "duplicate reply for call " := rfl
  unfold checkReply at failed
  split at failed
  next =>
    obtain rfl := Except.error.inj failed
    exact (((((bad.append _).append _).append _).append _).append _).reported (by decide)
  dsimp only at failed
  split at failed
  next =>
    obtain rfl := Except.error.inj failed
    exact (((((wrong.append _).append _).append _).append _).append _).reported (by decide)
  split at failed
  next =>
    obtain rfl := Except.error.inj failed
    exact (((((duplicate.append _).append _).append _).append _).append _).reported (by decide)
  next => nomatch failed

theorem files_throws (left : Nat) (fsMd : FsMd) : Throws (readFiles left fsMd) Reported := by
  have fixed {err : String} (h : err ∉ runtimeErrors) : Reported err := h
  have bad : StartsWith 'b' "bad " := rfl
  have size (kind : String) (size : UInt32) (left : Nat) : Reported (sizeError kind size left) :=
    (((((bad.append _).append _).append _).append _).append _).reported (by decide)
  have file : Throws readFile Reported := by
    refine (Throws.uint32 (fixed (by decide))).bind fun _ => (Throws.uint32 (fixed (by decide))).bind fun _ => ?_
    refine (Throws.uint32 (fixed (by decide))).bind fun _ => ?_
    refine Throws.look fun _ => (Throws.bytes (size _ _ _) _).bind fun _ => ?_
    refine Throws.look fun _ => (Throws.bytes (size _ _ _) _).bind fun _ => ?_
    refine (Throws.uint32 (fixed (by decide))).bind fun _ => ?_
    refine Throws.look fun _ => (Throws.bytes (size _ _ _) _).bind fun _ => ?_
    exact Throws.look fun _ => (Throws.bytes (size _ _ _) _).bind fun _ => Throws.pure _
  induction left generalizing fsMd with
  | zero => exact Throws.pure fsMd
  | succ left ih =>
    refine file.bind fun ⟨filepath, fileMd⟩ => ?_
    dsimp only
    split
    next =>
      apply Throws.error
      exact fixed (by decide)
    next => exact ih _

/-! ### One reply -/

/-- The checks a client's own reply is put to; the others pass. -/
def checked (config : FuzzerConfig) (nums : List Nat) (idx i : Nat) (reply : CallReply) (st : Received) :
    Except String Unit :=
  if reply.index ≠ extraReplyIndex ∧ config.servNum ≤ idx then checkReply nums i reply st else .ok ()

def stored (config : FuzzerConfig) (idx : Nat) (sent : Sent) (st : Received) : Received :=
  if sent.1.index ≠ extraReplyIndex ∧ config.servNum ≤ idx then
    { st with calls := st.calls.set sent.1.index.toNat
                { flags := sent.1.flags, signal := sent.2.signal, cover := sent.2.cover, comps := sent.2.comps
                  errno := sent.1.errno.toNat } }
  else
    { st with extraParts := st.extraParts ++
                [{ signal := sent.2.signal, cover := sent.2.cover, comps := sent.2.comps }] }

/-- The `CheckInfo` of the call of a reply. -/
def noted (sent : Sent) (st : Received) : Except String Received :=
  if sent.1.index = extraReplyIndex then .ok st
  else if st.checks.length ≤ sent.1.index.toNat then .error "index out of range"
  else (readCheckInfo sent.1 sent.2.ret).map fun md =>
    { st with checks := st.checks.set sent.1.index.toNat (some md) }

theorem noted_eq (reply : CallReply) (payload : Payload) (st : Received) :
    (if reply.index = extraReplyIndex then (return st : Reader Received)
      else if st.checks.length ≤ reply.index.toNat then throw "index out of range"
      else do
        let checkInfo ← readCheckInfo reply payload.ret
        return { st with checks := st.checks.set reply.index.toNat (some checkInfo) }) =
      liftM (noted (reply, payload) st) := by
  unfold noted
  split
  next => rfl
  split
  next => rfl
  cases readCheckInfo reply payload.ret <;> rfl

theorem receiveReply_eq (i : Nat) (st : Received) :
    receiveReply config nums idx i st = (do
      let reply ← readCallReply i
      liftM (checked config nums idx i reply st)
      let payload ← readPayload i reply
      liftM (noted (reply, payload) (stored config idx (reply, payload) st))) := by
  unfold receiveReply
  congr 1
  funext reply
  have minusOne : (-1 : UInt32) = extraReplyIndex := rfl
  rw [minusOne]
  by_cases own : reply.index ≠ extraReplyIndex ∧ config.servNum ≤ idx
  · simp only [checked, stored, if_pos own, decide_eq_true own, if_true]
    congr 1
    funext _
    congr 1
    funext payload
    exact noted_eq reply payload _
  · simp only [checked, stored, if_neg own, decide_eq_false own, Bool.false_eq_true, if_false]
    rw [lift_bind]
    congr 1
    funext payload
    exact noted_eq reply payload _

theorem checked_reported {i : Nat} {reply : CallReply} {st : Received} {err : String}
    (failed : checked config nums idx i reply st = .error err) : Reported err := by
  unfold checked at failed
  split at failed
  next => exact checkReply_reported failed
  next => nomatch failed

variable {i : Nat} {st : Received} {before : List Sent} {sent : Sent} {out left : List UInt8}

theorem receiveReply_cut {err : String} (cut : (readSent i).run out = .error err) :
    ∃ err, (receiveReply config nums idx i st).run out = .error err ∧ Reported err := by
  rw [receiveReply_eq]
  cases first : (readCallReply i).run out with
  | error err => exact ⟨err, run_bind_error first, callReply_throws i out err first⟩
  | ok read =>
    obtain ⟨reply, left⟩ := read
    rw [readSent, run_bind_ok first] at cut
    rw [run_bind_ok first]
    cases check : checked config nums idx i reply st with
    | error err => exact ⟨err, run_bind_error (run_lift _), checked_reported check⟩
    | ok =>
      rw [lift_bind]
      cases second : (readPayload i reply).run left with
      | error err => exact ⟨err, run_bind_error second, payload_throws i reply left err second⟩
      | ok read =>
        rw [run_bind_ok second] at cut
        nomatch cut

theorem receiveReply_run (whole : (readSent i).run out = .ok (sent, left)) :
    (receiveReply config nums idx i st).run out =
      match checked config nums idx i sent.1 st with
      | .error err => .error err
      | .ok _ => (noted sent (stored config idx sent st)).map (·, left) := by
  rw [receiveReply_eq]
  cases first : (readCallReply i).run out with
  | error err =>
    rw [readSent, run_bind_error first] at whole
    nomatch whole
  | ok read =>
    obtain ⟨reply, middle⟩ := read
    rw [readSent, run_bind_ok first] at whole
    rw [run_bind_ok first]
    cases second : (readPayload i reply).run middle with
    | error err =>
      rw [run_bind_error second] at whole
      nomatch whole
    | ok read =>
      obtain ⟨payload, behind⟩ := read
      rw [run_bind_ok second] at whole
      obtain ⟨rfl, rfl⟩ := Prod.mk.inj (Except.ok.inj whole)
      cases checked config nums idx i reply st with
      | error err => exact run_bind_error (run_lift _)
      | ok =>
        rw [lift_bind, run_bind_ok second]
        exact run_lift _

/-- The slots of a client's calls are filled as the replies read before left them. -/
structure Follows (config : FuzzerConfig) (nums : List Nat) (idx : Nat) (before : List Sent) (st : Received) : Prop where
  calls : st.calls.length = nums.length
  checks : st.checks.length = nums.length
  slot : config.servNum ≤ idx → ∀ j inf, st.calls[j]? = some inf → (inf.flags ≠ 0 ∨ inf.signal ≠ [] ↔
    ∃ earlier ∈ before, earlier.1.index ≠ extraReplyIndex ∧ earlier.1.index.toNat = j ∧ Flagged earlier)

theorem Follows.free (follows : Follows config nums idx before st) {reply : CallReply}
    (own : reply.index ≠ extraReplyIndex ∧ config.servNum ≤ idx) {inf : CallInfo}
    (found : st.calls[reply.index.toNat]? = some inf) :
    ¬ (inf.flags ≠ 0 ∨ inf.signal ≠ []) ↔ ∀ earlier ∈ before, earlier.1.index = reply.index → ¬ Flagged earlier := by
  rw [follows.slot own.2 _ _ found]
  constructor
  · intro none earlier member same flagged
    exact none ⟨earlier, member, same ▸ own.1, congrArg UInt32.toNat same, flagged⟩
  · rintro none ⟨earlier, member, _, same, flagged⟩
    exact none earlier member (UInt32.toNat_inj.mp same) flagged

theorem checked_iff (follows : Follows config nums idx before st) :
    checked config nums idx i sent.1 st = .ok () ↔ Accepted config nums idx before sent := by
  unfold checked Accepted
  split
  next own =>
    rw [forall_prop_of_true own]
    cases found : st.calls[sent.1.index.toNat]? with
    | none =>
      have outside := List.getElem?_eq_none_iff.mp found
      rw [follows.calls] at outside
      rw [checkReply, found, List.getElem?_eq_none outside]
      constructor
      · intro accepted
        cases accepted
      · rintro ⟨same, _⟩
        cases same
    | some inf =>
      have inside := (List.getElem?_eq_some_iff.mp found).1
      rw [follows.calls] at inside
      rw [checkReply, found, List.getD_eq_getElem?_getD, List.getElem?_eq_getElem inside, Option.getD_some,
        ← follows.free own found]
      dsimp only
      split
      next other => exact iff_of_false (by rintro ⟨⟩) fun both => other (Option.some.inj both.1).symm
      next same =>
        split
        next filled => exact iff_of_false (by rintro ⟨⟩) fun both => both.2 filled
        next free => exact ⟨fun _ => ⟨congrArg some (not_not.mp same).symm, free⟩, fun _ => rfl⟩
  next foreign => exact ⟨fun _ own => absurd own foreign, fun _ => rfl⟩

theorem stored_checks : (stored config idx sent st).checks = st.checks := by
  unfold stored
  split <;> rfl

theorem readInfo_outOfRange {infotype : UInt32} {info : List UInt8} (wrong : ¬ InfoSized infotype info)
    (md : FileMetadata) : readInfo infotype info md = .error "slice bounds out of range" := by
  simp only [InfoSized, Classical.not_imp] at wrong
  obtain ⟨typed, size⟩ := wrong
  have other : ¬ (infotype = 0 ∨ infotype = 17 ∨ infotype = 89) ∧ ¬ (infotype = 4 ∨ infotype = 5) := by
    rcases typed with rfl | rfl | rfl <;> decide
  have outside : (UInt32.ofNat (ofLe (info.take 4))).toNat < 4 ∨
      info.length < (UInt32.ofNat (ofLe (info.take 4))).toNat := by omega
  unfold readInfo
  rw [if_neg other.1, if_neg other.2, if_pos typed, if_pos outside]
  rfl

theorem noted_harmed (follows : Follows config nums idx before st) (harmful : Harmful config nums idx sent) :
    ∃ err ∈ runtimeErrors, noted sent (stored config idx sent st) = .error err := by
  obtain ⟨other, harm⟩ := harmful
  unfold noted
  rw [if_neg other, stored_checks, follows.checks]
  split
  next => exact ⟨_, List.mem_cons_self, rfl⟩
  next inside =>
    rcases harm with ⟨_, outside⟩ | wrong
    · exact absurd outside inside
    · refine ⟨_, List.mem_cons_of_mem _ List.mem_cons_self, ?_⟩
      rw [readCheckInfo, readInfo_outOfRange wrong]
      rfl

theorem noted_ok (follows : Follows config nums idx before st) (accepted : Accepted config nums idx before sent)
    (harmless : ¬ Harmful config nums idx sent) :
    ∃ st', noted sent (stored config idx sent st) = .ok st' ∧ st'.calls = (stored config idx sent st).calls ∧
      st'.checks.length = st.checks.length := by
  unfold noted
  split
  next => exact ⟨_, rfl, rfl, congrArg List.length stored_checks⟩
  next other =>
    have inside : sent.1.index.toNat < nums.length := by
      by_contra outside
      by_cases client : config.servNum ≤ idx
      · obtain ⟨found, _⟩ := accepted ⟨other, client⟩
        exact outside (List.getElem?_eq_some_iff.mp found).1
      · exact harmless ⟨other, .inl ⟨Nat.not_le.mp client, Nat.not_lt.mp outside⟩⟩
    have sized : InfoSized sent.1.infotype sent.1.info := by
      by_contra wrong
      exact harmless ⟨other, .inr wrong⟩
    rw [stored_checks, follows.checks, if_neg (Nat.not_le.mpr inside)]
    obtain ⟨md, read, _⟩ := readInfo_ok sized { stime := sent.1.stime, etime := sent.1.etime, retv := sent.2.ret.toInt64 }
    rw [readCheckInfo, read]
    exact ⟨_, rfl, rfl, List.length_set.trans follows.checks⟩

theorem Follows.step {st' : Received} (follows : Follows config nums idx before st)
    (accepted : Accepted config nums idx before sent) (calls : st'.calls = (stored config idx sent st).calls)
    (checks : st'.checks.length = st.checks.length) : Follows config nums idx (before ++ [sent]) st' := by
  by_cases own : sent.1.index ≠ extraReplyIndex ∧ config.servNum ≤ idx
  · rw [stored, if_pos own] at calls
    refine ⟨by rw [calls, List.length_set, follows.calls], checks.trans follows.checks, fun client j inf found => ?_⟩
    simp only [List.mem_append, List.mem_singleton, or_and_right, exists_or, exists_eq_left]
    rw [calls] at found
    by_cases same : sent.1.index.toNat = j
    · subst same
      obtain ⟨num, free⟩ := accepted own
      have inside := (List.getElem?_eq_some_iff.mp num).1
      rw [List.getElem?_set_self (follows.calls ▸ inside)] at found
      obtain rfl := Option.some.inj found
      constructor
      · exact fun filled => .inr ⟨own.1, rfl, filled⟩
      · rintro (⟨earlier, member, _, place, flagged⟩ | ⟨_, _, filled⟩)
        · exact absurd flagged (free earlier member (UInt32.toNat_inj.mp place))
        · exact filled
    · rw [List.getElem?_set_ne same] at found
      rw [follows.slot client j inf found]
      exact ⟨.inl, fun both => both.resolve_right fun here => same here.2.1⟩
  · rw [stored, if_neg own] at calls
    refine ⟨calls ▸ follows.calls, checks.trans follows.checks, fun client j inf found => ?_⟩
    simp only [List.mem_append, List.mem_singleton, or_and_right, exists_or, exists_eq_left]
    rw [follows.slot client j inf (calls ▸ found)]
    exact ⟨.inl, fun both => both.resolve_right fun here => own ⟨here.1, client⟩⟩

/-- How the reading of the replies of a client ends. -/
inductive Ends {α : Type} (config : FuzzerConfig) (nums : List Nat) (idx : Nat) (before : List Sent)
    (framed : List Sent × Option (List UInt8)) : Except String (α × List UInt8) → Prop
  | crashed {err : String} (harmed : Harmed config nums idx before framed.1) (kind : err ∈ runtimeErrors) :
      Ends config nums idx before framed (.error err)
  | refused {err : String} (harmless : ¬ Harmed config nums idx before framed.1) (kind : Reported err)
      (cut : Taken config nums idx before framed.1 → framed.2 = none) : Ends config nums idx before framed (.error err)
  | read {a : α} {left : List UInt8} (harmless : ¬ Harmed config nums idx before framed.1)
      (taken : Taken config nums idx before framed.1) (behind : framed.2 = some left) :
      Ends config nums idx before framed (.ok (a, left))

theorem receiveReplies_ends (i count : Nat) (out : List UInt8) (follows : Follows config nums idx before st) :
    Ends config nums idx before (frameReplies i count out) ((receiveReplies config nums idx i count st).run out) := by
  induction count generalizing i before st out with
  | zero => exact .read id trivial rfl
  | succ count ih =>
    unfold receiveReplies frameReplies
    cases framed : (readSent i).run out with
    | error err =>
      obtain ⟨err, failed, kind⟩ := receiveReply_cut framed
      rw [run_bind_error failed]
      exact .refused id kind fun _ => rfl
    | ok read =>
      obtain ⟨sent, behind⟩ := read
      have one : (receiveReply config nums idx i st).run out = _ := receiveReply_run framed
      have valid : checked config nums idx i sent.1 st = .ok () ↔ _ := checked_iff follows
      cases check : checked config nums idx i sent.1 st with
      | error err =>
        have refused : ¬ Accepted config nums idx before sent := by
          rw [← valid, check]
          nofun
        simp only [check] at one
        rw [run_bind_error one]
        exact .refused (fun harmed => refused harmed.1) (checked_reported check) fun taken => absurd taken.1 refused
      | ok =>
        have accepted := valid.mp check
        simp only [check] at one
        by_cases harmful : Harmful config nums idx sent
        · obtain ⟨err, kind, failed⟩ := noted_harmed follows harmful
          rw [failed] at one
          rw [run_bind_error one]
          exact .crashed ⟨accepted, .inl harmful⟩ kind
        · obtain ⟨st', done, calls, checks⟩ := noted_ok follows accepted harmful
          rw [done] at one
          rw [run_bind_ok one]
          have others : Ends config nums idx (before ++ [sent]) (frameReplies (i + 1) count behind) _ :=
            ih _ _ (follows.step accepted calls checks)
          generalize (receiveReplies config nums idx (i + 1) count st').run behind = ran at others ⊢
          cases others with
          | crashed harmed kind => exact .crashed ⟨accepted, .inr harmed⟩ kind
          | refused harmless kind cut =>
            exact .refused (fun harmed => harmed.2.elim harmful harmless) kind fun taken => cut taken.2.2
          | read harmless taken rest =>
            exact .read (fun harmed => harmed.2.elim harmful harmless) ⟨accepted, harmful, taken⟩ rest

theorem progOutput_ends :
    Ends config nums idx [] (frame out) ((readProgOutput config nums idx).run (stream out)) := by
  have fixed {err : String} (h : err ∉ runtimeErrors) : Reported err := h
  unfold readProgOutput frame
  split
  next short =>
    have cut {err : String} (kind : Reported err) :
        Ends config nums idx [] ([], none) (.error err : Except String ((UInt64 × Received) × List UInt8)) :=
      .refused id kind fun _ => rfl
    by_cases half : (stream out).length < 4
    · rw [run_bind_error (run_uint32_short _ half)]
      exact cut (fixed (by decide))
    · rw [run_bind_ok (run_uint32 _ (Nat.not_lt.mp half))]
      have rest : ((stream out).drop 4).length < 8 := by
        rw [List.length_drop]
        omega
      rw [run_bind_error (run_uint64_short _ rest)]
      exact cut (fixed (by decide))
  next enough =>
    have first : 4 ≤ (stream out).length := by omega
    have second : 8 ≤ ((stream out).drop 4).length := by
      rw [List.length_drop]
      omega
    rw [run_bind_ok (run_uint32 _ first), run_bind_ok (run_uint64 _ second), List.drop_drop]
    have start : Follows config nums idx [] ⟨List.replicate nums.length {}, [], List.replicate nums.length none⟩ := by
      refine ⟨List.length_replicate, List.length_replicate, fun _ j inf found => ?_⟩
      obtain rfl := List.eq_of_mem_replicate (List.mem_of_getElem? found)
      simp
    have replies := receiveReplies_ends 0 (UInt32.ofNat (ofLe ((stream out).take 4))).toNat ((stream out).drop 12) start
    rw [StateT.run_bind]
    generalize (receiveReplies _ _ _ _ _ _).run _ = ran at replies ⊢
    cases replies with
    | crashed harmed kind => exact .crashed harmed kind
    | refused harmless kind cut => exact .refused harmless kind cut
    | read harmless taken behind => exact .read harmless taken behind

/-! ### A trace that ends early -/

theorem readArgs_run (count : Nat) (out : List UInt8) :
    ∃ args, (readArgs count).run out = .ok (args, out.drop (8 * min count (out.length / 8))) := by
  induction count generalizing out with
  | zero => exact ⟨[], rfl⟩
  | succ count ih =>
    unfold readArgs
    by_cases enough : 8 ≤ out.length
    · obtain ⟨args, rest⟩ := ih (out.drop 8)
      rw [run_bind_ok (run_attempt_ok (run_uint64 () enough))]
      dsimp only
      rw [run_bind_ok rest, List.drop_drop, List.length_drop]
      have size : 8 + 8 * min count ((out.length - 8) / 8) = 8 * min (count + 1) (out.length / 8) := by omega
      rw [size]
      exact ⟨_, rfl⟩
    · rw [run_bind_ok (run_attempt_error (run_uint64_short () (Nat.not_le.mp enough)))]
      have none : 8 * min (count + 1) (out.length / 8) = 0 := by omega
      rw [none]
      exact ⟨[], rfl⟩

/-- Where the reading of an event that is cut stops. -/
def cutAt (length : Nat) : Nat :=
  if length < 8 then 4 * (length / 4) else if length < 12 then 8 else if length < 16 then 12
  else length - length % 8

variable {α : Type}

theorem attempt_uint32 {f : Option UInt32 → Reader α} (out : List UInt8) :
    (attempt (uint32 ()) >>= f).run out =
      if 4 ≤ out.length then (f (some (word out))).run (out.drop 4) else (f none).run out := by
  split
  next enough => exact run_bind_ok (run_attempt_ok (run_uint32 () enough))
  next short => exact run_bind_ok (run_attempt_error (run_uint32_short () (Nat.not_le.mp short)))

theorem attempt_uint64 {f : Option UInt64 → Reader α} (out : List UInt8) :
    (attempt (uint64 ()) >>= f).run out =
      if 8 ≤ out.length then (f (some (UInt64.ofNat (ofLe (out.take 8))))).run (out.drop 8) else (f none).run out := by
  split
  next enough => exact run_bind_ok (run_attempt_ok (run_uint64 () enough))
  next short => exact run_bind_ok (run_attempt_error (run_uint64_short () (Nat.not_le.mp short)))

theorem readTraceEvent_run (out : List UInt8) :
    ∃ event, readTraceEvent.run out =
      .ok ((event, decide (80 ≤ out.length)), out.drop (if 80 ≤ out.length then 80 else cutAt out.length)) := by
  unfold readTraceEvent
  by_cases fields : 24 ≤ out.length
  · obtain ⟨args, read⟩ := readArgs_run 6 (out.drop 24)
    simp (disch := omega) only [attempt_uint64, attempt_uint32, List.length_drop, List.drop_drop, if_pos]
    rw [run_bind_ok read, List.drop_drop, attempt_uint64]
    simp only [List.length_drop]
    by_cases whole : 80 ≤ out.length
    · have last : 8 ≤ out.length - (24 + 8 * min 6 ((out.length - 24) / 8)) := by omega
      have size : 24 + 8 * min 6 ((out.length - 24) / 8) + 8 = 80 := by omega
      rw [if_pos last, if_pos whole, decide_eq_true whole, List.drop_drop, size]
      exact ⟨_, rfl⟩
    · have last : ¬ 8 ≤ out.length - (24 + 8 * min 6 ((out.length - 24) / 8)) := by omega
      have size : 24 + 8 * min 6 ((out.length - 24) / 8) = cutAt out.length := by
        rw [cutAt, if_neg (by omega), if_neg (by omega), if_neg (by omega)]
        omega
      rw [if_neg last, if_neg whole, decide_eq_false whole, size]
      exact ⟨_, rfl⟩
  · have short : ¬ 80 ≤ out.length := by omega
    rw [decide_eq_false short, if_neg short]
    refine ⟨{}, ?_⟩
    unfold cutAt
    by_cases ts : 8 ≤ out.length
    · by_cases fid : 12 ≤ out.length
      · by_cases ret : 16 ≤ out.length
        · have size : out.length - out.length % 8 = 16 := by omega
          simp (disch := omega) only [attempt_uint64, attempt_uint32, List.length_drop, List.drop_drop, if_pos, if_neg, size]
          rfl
        · simp (disch := omega) only [attempt_uint64, attempt_uint32, List.length_drop, List.drop_drop, if_pos, if_neg]
          rfl
      · simp (disch := omega) only [attempt_uint64, attempt_uint32, List.length_drop, List.drop_drop, if_pos, if_neg]
        rfl
    · by_cases fid : 4 ≤ out.length
      · have size : 4 * (out.length / 4) = 4 := by omega
        simp (disch := omega) only [attempt_uint64, attempt_uint32, List.length_drop, List.drop_drop, if_pos, if_neg, size]
        rfl
      · have size : 4 * (out.length / 4) = 0 := by omega
        simp (disch := omega) only [attempt_uint64, attempt_uint32, List.length_drop, List.drop_drop, if_pos, if_neg, size]
        rfl

/-- The array of events has the length that was asked for; what is left behind it when the last is cut. -/
theorem readTraceEvents_run (count : Nat) (out : List UInt8) :
    ∃ events left, (readTraceEvents count).run out = .ok (events, left) ∧ events.length = count ∧
      (out.length / 80 < count → left = out.drop (80 * (out.length / 80) + cutAt (out.length % 80))) := by
  induction count generalizing out with
  | zero => exact ⟨[], out, rfl, rfl, nofun⟩
  | succ count ih =>
    obtain ⟨event, read⟩ := readTraceEvent_run out
    unfold readTraceEvents
    rw [run_bind_ok read]
    by_cases whole : 80 ≤ out.length
    · obtain ⟨events, left, rest, length, behind⟩ := ih (out.drop 80)
      simp only [if_pos whole, decide_eq_true whole, if_true]
      rw [run_bind_ok rest]
      refine ⟨event :: events, left, rfl, congrArg (· + 1) length, fun cut => ?_⟩
      rw [List.length_drop, List.drop_drop] at behind
      have rounds : out.length / 80 = (out.length - 80) / 80 + 1 := by omega
      have last : out.length % 80 = (out.length - 80) % 80 := by omega
      rw [behind (by omega), rounds, last]
      congr 1
      omega
    · simp only [if_neg whole, decide_eq_false whole, Bool.false_eq_true, if_false]
      refine ⟨_, _, rfl, by simp, fun _ => ?_⟩
      have none : out.length / 80 = 0 := by omega
      have last : out.length % 80 = out.length := by omega
      rw [none, last, Nat.mul_zero, Nat.zero_add]

theorem parseTrace_run (out : List UInt8) :
    ∃ trace left, parseHmdfsTraceEvents.run out = .ok (trace, left) ∧
      (out.length < 20 ∧ trace.events = [] ∨ 20 ≤ out.length ∧ trace.events.length = (word (out.drop 16)).toNat ∧
        (wholeEvents out < (word (out.drop 16)).toNat →
          left = out.drop (20 + (80 * wholeEvents out + cutAt ((out.length - 20) % 80))))) := by
  unfold parseHmdfsTraceEvents
  by_cases header : 20 ≤ out.length
  · obtain ⟨events, left, read, length, behind⟩ := readTraceEvents_run (word (out.drop 16)).toNat (out.drop 20)
    have long : ¬ out.length < 20 := by omega
    let ratio := UInt64.ofNat (ofLe (out.take 8))
    let tscOffset := UInt64.ofNat (ofLe ((out.drop 8).take 8))
    refine ⟨⟨ratio, tscOffset.toInt64, events⟩, left, ?_, .inr ⟨header, length, fun cut => ?_⟩⟩
    · rw [StateT.run_bind]
      change (if out.length < 20 then _ else _ : Reader Trace).run out = _
      rw [if_neg long]
      simp (disch := omega) only [attempt_uint64, attempt_uint32, List.length_drop, List.drop_drop, if_pos, Option.getD_some]
      rw [run_bind_ok read]
      rfl
    · rw [List.length_drop, List.drop_drop] at behind
      exact behind cut
  · have short : out.length < 20 := by omega
    refine ⟨⟨0, 0, []⟩, out, ?_, .inl ⟨short, rfl⟩⟩
    rw [StateT.run_bind]
    change (if out.length < 20 then _ else _ : Reader Trace).run out = _
    rw [if_pos short]
    rfl

theorem fsMd_throws : Throws parseFsMd Reported := by
  have text : Reported "failed to read number of stat_cnt" := by
    unfold Reported runtimeErrors
    decide
  refine (Throws.uint32 text).bind fun statCnt => ?_
  split
  next => exact Throws.pure none
  next => exact (files_throws _ _).bind fun _ => Throws.pure _

/-- Of fewer than eight bytes the metadata can be read only as none. -/
theorem fsMd_short (size : out.length < 8) :
    (∃ read, parseFsMd.run out = .ok read) ↔ 4 ≤ out.length ∧ (word out = 0 ∨ word out = 0xFFFFFFFF) := by
  unfold parseFsMd
  by_cases enough : 4 ≤ out.length
  · rw [run_bind_ok (run_uint32 _ enough), and_iff_right enough]
    change (∃ read, (if word out = 0xFFFFFFFF then _ else _ : Reader (Option FsMd)).run (out.drop 4) = .ok read) ↔ _
    by_cases skipped : word out = 0xFFFFFFFF
    · rw [if_pos skipped]
      exact ⟨fun _ => .inr skipped, fun _ => ⟨_, rfl⟩⟩
    rw [if_neg skipped, or_iff_left skipped]
    change (∃ read, (readFiles (word out).toNat ∅ >>= _ : Reader (Option FsMd)).run (out.drop 4) = .ok read) ↔ _
    cases count : (word out).toNat with
    | zero => exact ⟨fun _ => UInt32.toNat_inj.mp count, fun _ => ⟨_, rfl⟩⟩
    | succ left =>
      have short : (out.drop 4).length < 4 := by
        rw [List.length_drop]
        omega
      have failed : (readFiles (left + 1) ∅).run (out.drop 4) = .error "failed to read filepathSize" :=
        run_bind_error (run_bind_error (run_uint32_short _ short))
      rw [run_bind_error failed]
      constructor
      · nofun
      · intro zero
        rw [zero] at count
        nomatch count
  · rw [run_bind_error (run_uint32_short _ (Nat.not_le.mp enough))]
    exact ⟨nofun, fun both => absurd both.1 enough⟩

/-- The metadata is read behind a cut trace exactly where it seems to be none. -/
theorem cutTrace_iff (header : 20 ≤ out.length) (cut : wholeEvents out < (word (out.drop 16)).toNat)
    (behind : left = out.drop (20 + (80 * wholeEvents out + cutAt ((out.length - 20) % 80)))) :
    (∃ read, parseFsMd.run left = .ok read) ↔ CutTrace out := by
  have place : wholeEvents out = (out.length - 20) / 80 := rfl
  have size : left.length = (out.length - 20) % 80 - cutAt ((out.length - 20) % 80) := by
    rw [behind, List.length_drop]
    omega
  have rest : left.length < 8 := by
    rw [size, cutAt]
    split
    next => omega
    split
    next => omega
    split <;> omega
  have four : 4 ≤ left.length ↔ 20 ≤ (out.length - 20) % 80 ∧ 4 ≤ (out.length - 20) % 8 := by
    rw [size, cutAt]
    split
    next => omega
    split
    next => omega
    split <;> omega
  have last (fields : 20 ≤ (out.length - 20) % 80) : left = out.drop (out.length - (out.length - 20) % 8) := by
    rw [behind, cutAt, if_neg (by omega), if_neg (by omega), if_neg (by omega)]
    congr 1
    omega
  rw [fsMd_short rest, four]
  constructor
  · rintro ⟨⟨fields, half⟩, ending⟩
    exact ⟨header, cut, fields, half, last fields ▸ ending⟩
  · rintro ⟨_, _, fields, half, ending⟩
    exact ⟨⟨fields, half⟩, (last fields).symm ▸ ending⟩

/-! ### The whole region -/

theorem Guarded.of_reported {ret : ParseRet} {err : String} (failed : ret.err = some err) (kind : Reported err)
    (none : ret.hmdfsTraceEvents = []) : Guarded ret out := by
  refine ⟨?_, .inl none⟩
  rintro ⟨other, member, same⟩
  obtain rfl := Option.some.inj (failed.symm.trans same)
  exact kind member

/-- Behind replies that were read, only a cut trace is not noticed. -/
theorem guarded_tail {range : Go.RangeOrder} {p : ClientProg} {testdirIno : UInt64}
    (read : (readProgOutput config p.nums idx).run (stream out) = .ok ((testdirIno, st), left))
    (behind : (frame out).2 = some left) :
    Guarded (parseClientOutput range config p idx out) out ↔ ¬ CutTrace left := by
  obtain ⟨trace, rest, traced, events⟩ := parseTrace_run left
  cases tail : parseFsMd.run rest with
  | error err =>
    have failed : readTail.run left = .error err := by
      unfold readTail
      rw [run_bind_ok traced, run_bind_error tail]
    have result : (parseClientOutput range config p idx out).err = some err ∧
        (parseClientOutput range config p idx out).hmdfsTraceEvents = [] := by
      unfold parseClientOutput
      rw [← stream, read]
      dsimp only
      rw [failed]
      exact ⟨rfl, rfl⟩
    refine iff_of_true (.of_reported result.1 (fsMd_throws rest err tail) result.2) fun cut => ?_
    rcases events with ⟨short, _⟩ | ⟨header, _, place⟩
    · exact absurd cut.header (Nat.not_le.mpr short)
    · obtain ⟨_, ok⟩ := (cutTrace_iff header cut.count (place cut.count)).mpr cut
      rw [tail] at ok
      nomatch ok
  | ok done =>
    obtain ⟨fsMd, final⟩ := done
    have whole : readTail.run left = .ok ((trace, fsMd), final) := by
      unfold readTail
      rw [run_bind_ok traced, run_bind_ok tail]
      rfl
    have counted : Guarded (parseClientOutput range config p idx out) out ↔
        trace.events = [] ∨ trace.events.length ≤ wholeEvents left := by
      rw [parseClientOutput_eq rfl read whole]
      constructor
      · rintro ⟨_, none | ⟨left', same, bound⟩⟩
        · exact .inl (List.map_eq_nil_iff.mp none)
        · obtain rfl := Option.some.inj (behind.symm.trans same)
          rw [List.length_map] at bound
          exact .inr bound
      · intro bound
        refine ⟨?_, bound.imp (fun none => ?_) fun few => ⟨left, behind, ?_⟩⟩
        · rintro ⟨err, _, same⟩
          nomatch same
        · rw [none, List.map_nil]
        · rwa [List.length_map]
    rw [counted]
    rcases events with ⟨short, none⟩ | ⟨header, length, place⟩
    · exact iff_of_true (.inl none) fun cut => absurd cut.header (Nat.not_le.mpr short)
    · rw [length, ← List.length_eq_zero_iff, length]
      by_cases cut : wholeEvents left < (word (left.drop 16)).toNat
      · have taken := (cutTrace_iff header cut (place cut)).mp ⟨_, tail⟩
        exact iff_of_false (by omega) fun whole => whole taken
      · exact iff_of_true (.inr (Nat.not_lt.mp cut)) fun other => cut other.count

/-- A region is read without a crash and no event is returned that is not whole exactly where no reply leads
out of range and no cut trace ends in words that are taken for absent metadata. -/
theorem parseClientOutput_guarded_iff (range : Go.RangeOrder) (config : FuzzerConfig) (p : ClientProg) (idx : Nat)
    (out : List UInt8) :
    Guarded (parseClientOutput range config p idx out) out ↔ Undamaged config p.nums idx out := by
  have ends : Ends config p.nums idx [] (frame out) _ := progOutput_ends
  cases read : (readProgOutput config p.nums idx).run (stream out) with
  | error err =>
    have result : (parseClientOutput range config p idx out).err = some err ∧
        (parseClientOutput range config p idx out).hmdfsTraceEvents = [] := by
      unfold parseClientOutput
      rw [← stream, read]
      exact ⟨rfl, rfl⟩
    rw [read] at ends
    cases ends with
    | crashed harmed kind =>
      exact iff_of_false (fun guarded => guarded.safe ⟨err, kind, result.1⟩) fun undamaged => undamaged.replies harmed
    | refused harmless kind cut =>
      refine iff_of_true (.of_reported result.1 kind result.2) ⟨harmless, fun taken left behind => ?_⟩
      rw [cut taken] at behind
      nomatch behind
  | ok done =>
    obtain ⟨⟨testdirIno, st⟩, left⟩ := done
    rw [read] at ends
    cases ends with
    | read harmless taken behind =>
      rw [guarded_tail read behind]
      constructor
      · intro whole
        refine ⟨harmless, fun _ other same => ?_⟩
        rwa [Option.some.inj (behind.symm.trans same)] at whole
      · exact fun undamaged => undamaged.trace taken left behind

/-- The stream of a server whose program has no calls: one reply, to call 5. -/
def strayReply : List UInt8 := le64 0 ++ (le32 1 ++ (le64 0 ++ (le32 5 ++ List.replicate 196 0)))

/-- No replies, one event of which 28 bytes are there. -/
def cutEvent : List UInt8 := le64 0 ++ (le32 0 ++ (le64 0 ++ (le64 0 ++ (le64 0 ++ (le32 1 ++ List.replicate 28 0)))))

/-- Neither region is noticed to be damaged. -/
theorem damage_unnoticed :
    ¬ Guarded (parseClientOutput .stored ⟨1, true⟩ ⟨[], by decide⟩ 0 strayReply) strayReply ∧
      ¬ Guarded (parseClientOutput .stored ⟨1, true⟩ ⟨[], by decide⟩ 0 cutEvent) cutEvent := by
  constructor
  · have err : (parseClientOutput .stored ⟨1, true⟩ ⟨[], by decide⟩ 0 strayReply).err = some "index out of range" := by
      decide +kernel
    exact fun guarded => guarded.safe ⟨_, List.mem_cons_self, err⟩
  · have events : (parseClientOutput .stored ⟨1, true⟩ ⟨[], by decide⟩ 0 cutEvent).hmdfsTraceEvents.length = 1 := by
      decide +kernel
    have behind : (frame cutEvent).2.map wholeEvents = some 0 := by decide +kernel
    intro guarded
    rcases guarded.whole with none | ⟨left, same, few⟩
    · rw [none] at events
      nomatch events
    · rw [same] at behind
      rw [events, Option.some.inj behind] at few
      nomatch few

end DfsFuzz.Output
