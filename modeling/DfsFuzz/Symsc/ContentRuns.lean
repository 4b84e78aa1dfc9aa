import DfsFuzz.Symsc.ContentNames
import DfsFuzz.Symsc.FailedCalls

/-!
Runs of the calls on file contents, with the reference beside them. They agree as long as no call brings back what a
truncating `open` left in a block, and no appending write starts away from the end of the file.
-/

namespace DfsFuzz.Symsc

open ByteFile

def readBuffer (call : Syscall) : Str :=
  match call.args with
  | _ :: buf :: _ => stripLong buf
  | _ => []

section Calls

variable {w : Ctx} {r : Posix} {children : List Tup} {cfg : Setup} {call : Syscall} {op : PosixCall}

theorem bufferAt_eq_some {s : State} {token data : Str} (found : bufferAt s token = some data) :
    s.bufData.lookup (stripLong token) = some data ∧ s.bufSize.lookup (stripLong token) = some data.length := by
  obtain ⟨data', looked, sized⟩ := Option.bind_eq_some_iff.mp found
  obtain ⟨size, same⟩ := Option.ite_none_right_eq_some.mp sized
  cases same
  exact ⟨looked, size⟩

theorem fdOf_eq_some {token var : Str} (found : fdOf token = some var) : var = token ∧ stripLong token = token := by
  obtain ⟨plain, same⟩ := Option.ite_none_right_eq_some.mp found
  cases same
  exact ⟨rfl, plain⟩

theorem natOf_eq_some {token : Str} {n : Nat} (found : natOf token = some n) : parseInt token = some (n : Int) := by
  obtain ⟨k, number, positive⟩ := Option.bind_eq_some_iff.mp found
  obtain ⟨nonneg, same⟩ := Option.ite_none_right_eq_some.mp positive
  cases same
  rw [number, Int.toNat_of_nonneg nonneg]

theorem countIn_eq_some {room : Nat} {token : Str} {n : Nat} (found : countIn room token = some n) :
    parseInt token = some (n : Int) ∧ n ≤ room := by
  obtain ⟨k, number, bound⟩ := Option.bind_eq_some_iff.mp found
  obtain ⟨within, same⟩ := Option.ite_none_right_eq_some.mp bound
  cases same
  exact ⟨natOf_eq_some number, within⟩

/-- By the kind of the call: each goes through as the reference does. -/
theorem runCall_follows (corr : Corr w r children) (decoded : decode w.st call = some op) (fits : r.Fits op) :
    Follows (runCall cfg call) w r op (readBuffer call) := by
  unfold decode at decoded
  rw [runCall, readBuffer]
  split at decoded
  · rename_i p flags mode kind args
    rw [kind, args]
    obtain ⟨path, found, decoded⟩ := Option.bind_eq_some_iff.mp decoded
    obtain ⟨flags', parsed, decoded⟩ := Option.bind_eq_some_iff.mp decoded
    obtain ⟨k, number, known⟩ := Option.bind_eq_some_iff.mp parsed
    obtain ⟨given, same⟩ := Option.ite_none_right_eq_some.mp decoded
    cases same
    exact open_follows corr found number known given
  · rename_i p mode kind args
    rw [kind, args]
    obtain ⟨path, found, decoded⟩ := Option.bind_eq_some_iff.mp decoded
    obtain ⟨given, same⟩ := Option.ite_none_right_eq_some.mp decoded
    cases same
    exact creat_follows corr found given
  · rename_i fd buf n kind args
    rw [kind, args]
    obtain ⟨var, token, decoded⟩ := Option.bind_eq_some_iff.mp decoded
    obtain ⟨data, buffer, decoded⟩ := Option.bind_eq_some_iff.mp decoded
    obtain ⟨count, counted, same⟩ := Option.bind_eq_some_iff.mp decoded
    cases same
    obtain ⟨rfl, plain⟩ := fdOf_eq_some token
    obtain ⟨held, sized⟩ := bufferAt_eq_some buffer
    obtain ⟨number, within⟩ := countIn_eq_some counted
    exact write_follows corr plain held sized number within fits
  · rename_i fd buf n off kind args
    rw [kind, args]
    obtain ⟨var, token, decoded⟩ := Option.bind_eq_some_iff.mp decoded
    obtain ⟨data, buffer, decoded⟩ := Option.bind_eq_some_iff.mp decoded
    obtain ⟨count, counted, decoded⟩ := Option.bind_eq_some_iff.mp decoded
    obtain ⟨offset, place, same⟩ := Option.bind_eq_some_iff.mp decoded
    cases same
    obtain ⟨rfl, plain⟩ := fdOf_eq_some token
    obtain ⟨held, sized⟩ := bufferAt_eq_some buffer
    obtain ⟨number, within⟩ := countIn_eq_some counted
    exact pwrite64_follows corr plain held sized number within (natOf_eq_some place) fits
  · rename_i fd buf n kind args
    rw [kind, args]
    obtain ⟨var, token, decoded⟩ := Option.bind_eq_some_iff.mp decoded
    obtain ⟨data, held, decoded⟩ := Option.bind_eq_some_iff.mp decoded
    obtain ⟨size, sized, decoded⟩ := Option.bind_eq_some_iff.mp decoded
    obtain ⟨count, counted, same⟩ := Option.bind_eq_some_iff.mp decoded
    cases same
    obtain ⟨rfl, plain⟩ := fdOf_eq_some token
    obtain ⟨number, within⟩ := countIn_eq_some counted
    exact read_follows corr plain held sized number within
  · rename_i fd buf n off kind args
    rw [kind, args]
    obtain ⟨var, token, decoded⟩ := Option.bind_eq_some_iff.mp decoded
    obtain ⟨data, held, decoded⟩ := Option.bind_eq_some_iff.mp decoded
    obtain ⟨size, sized, decoded⟩ := Option.bind_eq_some_iff.mp decoded
    obtain ⟨count, counted, decoded⟩ := Option.bind_eq_some_iff.mp decoded
    obtain ⟨offset, place, same⟩ := Option.bind_eq_some_iff.mp decoded
    cases same
    obtain ⟨rfl, plain⟩ := fdOf_eq_some token
    obtain ⟨number, within⟩ := countIn_eq_some counted
    exact pread64_follows corr plain held sized number within (natOf_eq_some place)
  · rename_i p n kind args
    rw [kind, args]
    obtain ⟨path, found, decoded⟩ := Option.bind_eq_some_iff.mp decoded
    obtain ⟨length, number, same⟩ := Option.bind_eq_some_iff.mp decoded
    cases same
    exact truncate_follows corr found (natOf_eq_some number) fits
  · rename_i fd n kind args
    rw [kind, args]
    obtain ⟨var, token, decoded⟩ := Option.bind_eq_some_iff.mp decoded
    obtain ⟨length, number, same⟩ := Option.bind_eq_some_iff.mp decoded
    cases same
    obtain ⟨rfl, plain⟩ := fdOf_eq_some token
    exact ftruncate_follows corr plain (natOf_eq_some number) fits
  · rename_i fd off n kind args
    rw [kind, args]
    obtain ⟨var, token, decoded⟩ := Option.bind_eq_some_iff.mp decoded
    obtain ⟨offset, place, decoded⟩ := Option.bind_eq_some_iff.mp decoded
    obtain ⟨whence, parsed, same⟩ := Option.bind_eq_some_iff.mp decoded
    cases same
    obtain ⟨k, number, known⟩ := Option.bind_eq_some_iff.mp parsed
    obtain ⟨rfl, plain⟩ := fdOf_eq_some token
    exact lseek_follows corr plain place number known fits
  · cases decoded

theorem not_failure (decoded : decode w.st call = some op) : isFailure (callKind call.name) = false := by
  unfold decode at decoded
  split at decoded
  all_goals first
    | cases decoded
    | rename_i kind _
      rw [kind]
      rfl

end Calls

/-! ### Runs -/

/-- The call at `idx` is accepted, stands for a call on contents, and fits. -/
structure Issued (cfg : Setup) (s : State) (g : Globals) (r : Posix) (idx : Nat) (call : Syscall) (op : PosixCall) : Prop where
  here : cfg.calls[idx]? = some call
  accepted : ∃ recorded cnt, cfg.recorded[idx]? = some recorded ∧ refused cfg g s recorded.procId idx call = some (false, cnt)
  decoded : decode s call = some op
  fits : r.Fits op

/-- A run of the calls on contents, with the reference beside it. `allowed` is what every accepted call meets before it runs. -/
inductive ContentRun (cfg : Setup) (read : Parsed) (nodes : Nat) (allowed : State → Posix → PosixCall → Prop) :
    State → Globals → Posix → Prop
  | start : ContentRun cfg read nodes allowed (initState read nodes) {} {}
  | step {s s' : State} {g g' : Globals} {r : Posix} {idx : Nat} {call : Syscall} {op : PosixCall} {ret : Ret}
      (before : ContentRun cfg read nodes allowed s g r) (issued : Issued cfg s g r idx call op) (meets : allowed s r op)
      (run : emulate cfg g s idx = some (ret, s', g')) : ContentRun cfg read nodes allowed s' g' (r.step op).1
  | refused {s s' : State} {g g' : Globals} {r : Posix} {idx : Nat} {call : Syscall} {op : PosixCall} {ret : Ret}
      (before : ContentRun cfg read nodes allowed s g r) (here : cfg.calls[idx]? = some call)
      (refusal : Refused cfg g s idx call) (decoded : decode s call = some op)
      (run : emulate cfg g s idx = some (ret, s', g')) : ContentRun cfg read nodes allowed s' g' r

section Runs

variable {cfg : Setup} {read : Parsed} {nodes : Nat} {s s' : State} {g g' : Globals} {r : Posix} {children : List Tup} {idx : Nat}
  {call : Syscall} {op : PosixCall} {ret : Ret}

theorem Holds.shows {i : Inode} {content : Str} (holds : Holds i content) : Shows i content where
  type := holds.type
  block := by
    obtain ⟨b, block, starts⟩ := holds.block
    have filler := (ByteFile.resize_eq_iff zeroChar starts).mpr fun k c behind _ within => absurd within (Nat.not_lt.mpr behind)
    refine ⟨b, block, ?_⟩
    rw [holds.size, Int.toNat_natCast, filler, resize, List.take_length, Nat.sub_self, List.replicate_zero, List.append_nil]
  size := holds.size

theorem Corr.agrees {w : Ctx} (corr : Corr w r children) : ContentsAgree w.st r where
  names := corr.names
  file id positive below := by
    obtain ⟨i, -, found, holds⟩ := corr.inode positive below
    exact ⟨i, found, holds.shows⟩
  offset var f isOpen := by
    obtain ⟨i, -, stack, -, found, -, offset, -⟩ := corr.descriptor isOpen
    exact ⟨stack, i, found, offset⟩

theorem initState_corr (read : Parsed) (nodes : Nat) : Corr ⟨initState read nodes, ∅⟩ {} [] where
  flat := by
    refine ⟨rfl, rfl, fun path id found other => ?_, ⟨rfl, ?_, List.nodup_nil, List.not_mem_nil⟩⟩
    · rw [initState, Py.Dict.get?_set_ne _ other] at found
      cases found
    · intro c member
      cases member
  next := rfl
  positive := Nat.zero_lt_one
  fresh tup member := by
    rw [List.mem_singleton.mp (show tup ∈ [rootTup] from member)]
    exact Nat.zero_lt_one
  names path other := by
    rw [initState, Py.Dict.get?_set_ne _ other]
    rfl
  named path id named := by cases named
  files := by
    refine ⟨⟨rootInode, rfl, rfl⟩, fun id positive below => absurd below (Nat.not_lt.mpr positive), fun id above => ⟨rfl, ?_⟩⟩
    rw [initState, Py.Dict.get?_set_ne _ (Nat.ne_of_gt above)]
    rfl
  free var none := by
    simp only [initState, Go.Map.lookup_mapValues]
    cases read.fdStack.lookup var with
    | none => exact .inl rfl
    | some t => exact .inr rfl
  fd var f isOpen := by cases isOpen

theorem emulate_follows (corr : Corr ⟨s, g.optDict⟩ r children) (issued : Issued cfg s g r idx call op) :
    ∃ ret s' g', emulate cfg g s idx = some (ret, s', g') ∧ Placed (readBuffer call) (r.step op).2 s s' ∧
      (Clean s r op → ∃ children', Corr ⟨s', g'.optDict⟩ (r.step op).1 children') ∧
      (ContentsAgree s' (r.step op).1 → Clean s r op) := by
  obtain ⟨recorded, cnt, record, accepted⟩ := issued.accepted
  let w : Ctx := { st := { s with cntRecur := cnt }, optDict := g.optDict }
  have corr' : Corr w r children := corr.beside s.bufData cnt
  have decoded : decode w.st call = some op := issued.decoded
  have clean : Clean w.st r op ↔ Clean s r op := by cases op <;> exact Iff.rfl
  have noFault : isFailure (callKind call.name) = false := not_failure (w := w) decoded
  obtain ⟨ret, w', run, placed, follows, converse⟩ := @runCall_follows w r children cfg call op corr' decoded issued.fits
  rw [clean] at follows converse
  refine ⟨ret, w'.st, { g with optDict := w'.optDict }, ?_, ?_, follows, converse⟩
  · rw [emulate, record, issued.here]
    simp only [bind, Option.bind_some, noFault, accepted, Bool.false_eq_true, if_false, w, run, pure]
  · cases bytes : (r.step op).2 with
    | none => rw [bytes] at placed; exact placed
    | some bytes' => rw [bytes] at placed; exact placed

theorem emulate_refused (here : cfg.calls[idx]? = some call) (refusal : Refused cfg g s idx call) (decoded : decode s call = some op)
    (run : emulate cfg g s idx = some (ret, s', g')) : s' = s ∧ g' = g := by
  obtain ⟨recorded, cnt, record, refusal⟩ := refusal
  have noFault : isFailure (callKind call.name) = false := not_failure (w := ⟨s, ∅⟩) decoded
  rw [emulate, record, here] at run
  simp only [bind, Option.bind_some, noFault, refusal, Bool.false_eq_true, if_false, if_true, pure] at run
  cases run
  exact ⟨rfl, rfl⟩

/-- By induction over the run. -/
theorem ContentRun.corr (run : ContentRun cfg read nodes Clean s g r) : ∃ children, Corr ⟨s, g.optDict⟩ r children := by
  induction run with
  | start => exact ⟨[], initState_corr read nodes⟩
  | step before issued clean run ih =>
    obtain ⟨children, corr⟩ := ih
    obtain ⟨ret', s'', g'', ran, -, follows, -⟩ := emulate_follows corr issued
    cases ran.symm.trans run
    exact follows clean
  | refused before here refusal decoded run ih =>
    obtain ⟨rfl, rfl⟩ := emulate_refused here refusal decoded run
    exact ih

/-- Along a run of clean calls the names, the contents and the offsets are those of the reference. A further call goes through and
places in its buffer what the reference reads, and it keeps the agreement exactly if it is clean. -/
theorem contents_follow (run : ContentRun cfg read nodes Clean s g r) :
    ContentsAgree s r ∧ ∀ idx call op, Issued cfg s g r idx call op →
      ∃ ret s' g', emulate cfg g s idx = some (ret, s', g') ∧ Placed (readBuffer call) (r.step op).2 s s' ∧
        (ContentsAgree s' (r.step op).1 ↔ Clean s r op) := by
  obtain ⟨children, corr⟩ := run.corr
  refine ⟨corr.agrees, fun idx call op issued => ?_⟩
  obtain ⟨ret, s', g', ran, placed, follows, converse⟩ := emulate_follows corr issued
  refine ⟨ret, s', g', ran, placed, converse, fun clean => ?_⟩
  obtain ⟨children', after⟩ := follows clean
  exact after.agrees

end Runs

/-! ### Runs of one program -/

/-- `./f` is created and written, then created again, which empties it, and written with less. -/
def reopenProgram : Parsed :=
  pathProgram [("v0", "./f"), ("v1", "ab")]
    [callOf "SYS_creat" ["v0", "511"] "r0", callOf "SYS_write" ["r0", "v1", "2"] "", callOf "SYS_creat" ["v0", "511"] "r1",
     callOf "SYS_write" ["r1", "v1", "1"] ""]

abbrev reopenSetup : Setup := plainSetup reopenProgram

def reopenOps : List PosixCall :=
  [.open "r0".toList "./f".toList ⟨.wronly, true, true, false⟩, .write "r0".toList "ab".toList,
   .open "r1".toList "./f".toList ⟨.wronly, true, true, false⟩, .write "r1".toList "a".toList]

def reopenRef (n : Nat) : Posix := (reopenOps.take n).foldl (fun r op => (r.step op).1) {}

def reopenState : Nat → Option (State × Globals)
  | 0 => some (initState reopenProgram 1, {})
  | n + 1 => (reopenState n).bind fun now => (emulate reopenSetup now.2 now.1 n).map Prod.snd

theorem small_update {content : Nat → Str} {id : Nat} {file : Str} (small : ∀ other, ((content other).length : Int) ≤ maxEmulSize)
    (within : (file.length : Int) ≤ maxEmulSize) (other : Nat) :
    ((Function.update content id file other).length : Int) ≤ maxEmulSize := by
  by_cases same : other = id
  · rw [same, Function.update_self]
    exact within
  · rw [Function.update_of_ne same]
    exact small other

theorem reopenRef_small {n : Nat} (within : n ≤ 4) (id : Nat) : (((reopenRef n).content id).length : Int) ≤ maxEmulSize := by
  have none (other : Nat) : ((({} : Posix).content other).length : Int) ≤ maxEmulSize := Int.ofNat_le.mpr (Nat.zero_le 67108864)
  have emptied := @small_update _ 1 [] none (by decide)
  have written := @small_update _ 1 "ab".toList emptied (by decide)
  have again := @small_update _ 1 [] written (by decide)
  have less := @small_update _ 1 "a".toList again (by decide)
  obtain rfl | rfl | rfl | rfl | rfl : n = 0 ∨ n = 1 ∨ n = 2 ∨ n = 3 ∨ n = 4 := by omega
  · exact none id
  · exact emptied id
  · exact written id
  · exact again id
  · exact less id

/-- Every call is accepted, goes through and stands for the one of the reference. -/
theorem reopen_calls : ∀ n < 4, ((reopenState n).bind fun now => (reopenSetup.calls[n]?).bind fun call =>
    (reopenOps[n]?).map fun op => decide (decode now.1 call = some op) &&
      decide ((refused reopenSetup now.2 now.1 0 n call).map Prod.fst = some false) &&
      (emulate reopenSetup now.2 now.1 n).isSome) = some true := by
  decide +kernel

/-- The run to the call at `n`, where every call before meets what is allowed. -/
theorem reopen_run {allowed : State → Posix → PosixCall → Prop} {n : Nat} (within : n ≤ 4)
    (meets : ∀ k < n, ∀ s g op, reopenState k = some (s, g) → reopenOps[k]? = some op → allowed s (reopenRef k) op) :
    ∃ s g, reopenState n = some (s, g) ∧ ContentRun reopenSetup reopenProgram 1 allowed s g (reopenRef n) := by
  induction n with
  | zero => exact ⟨_, _, rfl, .start⟩
  | succ n ih =>
    obtain ⟨s, g, here, before⟩ := ih (by omega) fun k less => meets k (by omega)
    have computed := reopen_calls n (by omega)
    rw [here, Option.bind_some] at computed
    obtain ⟨call, named, computed⟩ := Option.bind_eq_some_iff.mp computed
    obtain ⟨op, listed, computed⟩ := Option.map_eq_some_iff.mp computed
    simp only [Bool.and_eq_true, decide_eq_true_eq] at computed
    obtain ⟨⟨decoded, passed⟩, goes⟩ := computed
    obtain ⟨⟨ret, s', g'⟩, run⟩ := Option.isSome_iff_exists.mp goes
    obtain ⟨⟨no, cnt⟩, accepted, no'⟩ := Option.map_eq_some_iff.mp passed
    cases no'
    have next : reopenRef (n + 1) = ((reopenRef n).step op).1 := by
      rw [reopenRef, reopenRef, List.take_add_one, listed, Option.toList_some, List.foldl_append]
      rfl
    have noSeek : ∀ op ∈ reopenOps, ∀ var offset whence, op ≠ .lseek var offset whence := by simp [reopenOps]
    have recorded : reopenSetup.recorded[n]? = some { procId := 0 } := by
      have listed : reopenProgram.syscallStack[n]? = some call := named
      rw [show reopenSetup.recorded = reopenProgram.syscallStack.map fun _ => { procId := 0 } from rfl, List.getElem?_map, listed]
      rfl
    have issued : Issued reopenSetup s g (reopenRef n) n call op := by
      refine ⟨named, ⟨_, cnt, recorded, accepted⟩, decoded, fun var offset whence same => ?_, ?_⟩
      · exact absurd same (noSeek op (List.mem_of_getElem? listed) var offset whence)
      · rw [← next]
        exact reopenRef_small within
    refine ⟨s', g', ?_, ?_⟩
    · rw [reopenState, here, Option.bind_some, run]
      rfl
    · rw [next]
      exact .step before issued (meets n (Nat.lt_succ_self n) s g op here listed) run

/-- The file that is created and written has what was written, and creating it again empties it. -/
theorem contents_follow_written : ∃ s g, ContentRun reopenSetup reopenProgram 1 Clean s g (reopenRef 2) ∧
    (reopenRef 2).content 1 = "ab".toList ∧ ContentsAgree s (reopenRef 2) ∧
    ∃ ret s' g', emulate reopenSetup g s 2 = some (ret, s', g') ∧ ContentsAgree s' (reopenRef 3) := by
  have empty : ((reopenState 1).bind fun now => (now.1.inode? 1).bind Inode.datablock).map DataBlock.data = some [] := by
    decide +kernel
  have opened : (reopenRef 1).fds "r0".toList = some ⟨1, 0, .wronly, false⟩ := rfl
  have clean : ∀ k < 3, ∀ s g op, reopenState k = some (s, g) → reopenOps[k]? = some op → Clean s (reopenRef k) op := by
    intro k less s g op here listed
    obtain rfl | rfl | rfl : k = 0 ∨ k = 1 ∨ k = 2 := by omega
    · cases listed
      trivial
    · cases listed
      intro _ f given _
      cases opened.symm.trans given
      refine ⟨fun k c stale => ?_, fun append => by cases append⟩
      obtain ⟨i, b, found, block, -, byte⟩ := stale
      rw [here, Option.bind_some, found, Option.bind_some, block, Option.map_some, Option.some.injEq] at empty
      rw [empty] at byte
      cases byte
    · cases listed
      trivial
  obtain ⟨s, g, here, run⟩ := reopen_run (n := 2) (by decide) fun k less => clean k (by omega)
  obtain ⟨agree, further⟩ := contents_follow run
  refine ⟨s, g, run, rfl, agree, ?_⟩
  obtain ⟨s', g', here', run'⟩ := reopen_run (n := 3) (by decide) clean
  rw [reopenState, here, Option.bind_some] at here'
  obtain ⟨after, ran, same⟩ := Option.map_eq_some_iff.mp here'
  refine ⟨after.1, s', g', by rw [ran, ← same], (contents_follow run').1⟩

/-- The file that is emptied and written with one byte has the second byte from before. -/
theorem truncatedOpen_bringsBack : ∃ s g r, ContentRun reopenSetup reopenProgram 1 (fun _ _ _ => True) s g r ∧
    r.content 1 = "a".toList ∧ (∃ i b, s.inode? 1 = some i ∧ i.datablock = some b ∧ i.size = 2 ∧ b.data = "ab".toList) ∧
    ¬ ContentsAgree s r := by
  have computed : ((reopenState 4).bind fun now => (now.1.inode? 1).bind fun i => i.datablock.map fun b =>
      decide (i.size = 2 ∧ b.data = "ab".toList)) = some true := by decide +kernel
  obtain ⟨s, g, here, run⟩ := @reopen_run (fun _ _ _ => True) 4 (by decide) fun _ _ _ _ _ _ _ => trivial
  rw [here, Option.bind_some] at computed
  obtain ⟨i, found, computed⟩ := Option.bind_eq_some_iff.mp computed
  obtain ⟨b, block, computed⟩ := Option.map_eq_some_iff.mp computed
  obtain ⟨size, data⟩ := of_decide_eq_true computed
  refine ⟨s, g, reopenRef 4, run, by decide, ⟨i, b, found, block, size, data⟩, fun agree => ?_⟩
  obtain ⟨j, found', shows⟩ := agree.file 1 (by decide) (by decide)
  cases found.symm.trans found'
  have length : i.size = 1 := shows.size
  omega

end DfsFuzz.Symsc
