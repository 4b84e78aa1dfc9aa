import DfsFuzz.Generate.Framed
import DfsFuzz.Mutation.StashLoop
import DfsFuzz.Mutation.StashSync

/-!
The programs of a stash seed: the loops put the window or the syncs where the positions say, what is
written is in the list of writes, and a program that reads reads all of it.
-/

namespace DfsFuzz.Generate

open DfsFuzz.Choice DfsFuzz.Mutation DfsFuzz.Tree

@[simp] theorem Build.add_calls (b : Build) (calls : List Call) : (b.add calls).calls = b.calls ++ calls := rfl

@[simp] theorem Build.add_start (b : Build) (calls : List Call) : (b.add calls).start = b.start := rfl

@[simp] theorem Build.add_finish (b : Build) (calls : List Call) : (b.add calls).finish = b.finish := rfl

@[simp] theorem Build.add_syncIdx (b : Build) (calls : List Call) : (b.add calls).syncIdx = b.syncIdx := rfl

theorem Build.add_add (b : Build) (first second : List Call) : (b.add first).add second = b.add (first ++ second) := by
  simp [Build.add]

/-- A loop that only adds the call, except at one position. -/
def PlainAway (pos : Nat) (step : Build → Call × Nat → Build) : Prop := ∀ b c i, i ≠ pos → step b (c, i) = b.add [c]

theorem PlainAway.foldl {pos : Nat} {step : Build → Call × Nat → Build} (plain : PlainAway pos step) {ops : List Call} {n : Nat}
    (outside : pos < n ∨ n + ops.length ≤ pos) (b : Build) : (ops.zipIdx n).foldl step b = b.add ops := by
  induction ops generalizing n b with
  | nil => simp [Build.add]
  | cons c rest ih =>
    rw [List.length_cons] at outside
    rw [List.zipIdx_cons, List.foldl_cons, plain b c n (by omega), ih (by omega), Build.add_add]
    rfl

theorem PlainAway.foldl_at {pos : Nat} {step : Build → Call × Nat → Build} (plain : PlainAway pos step) {before after : List Call}
    {op : Call} (here : before.length = pos) (b : Build) :
    (before ++ op :: after).zipIdx.foldl step b = (step (b.add before) (op, pos)).add after := by
  rw [List.zipIdx_append, List.zipIdx_cons, List.foldl_append, List.foldl_cons, plain.foldl (by omega), plain.foldl (by omega),
    Nat.zero_add, here]

theorem plainAway_net (hmcfg : HmdfsConfig) (addr : UInt64) (targetNodes : List Nat) (pos : Nat) :
    PlainAway pos (netStep hmcfg addr targetNodes pos) := by
  intro b c i other
  simp [netStep, other]

theorem plainAway_sync (insertSync : Bool) (nodeIdx pos : Nat) : PlainAway pos (syncStep insertSync nodeIdx pos) := by
  intro b c i other
  simp [syncStep, other]

theorem plainAway_halfway (insertSync : Bool) (nodeIdx : Nat) : PlainAway 2 (halfwayStep insertSync nodeIdx) := by
  intro b c i other
  simp [halfwayStep, other]

/-- The calls of the window, from the counter 0 on. -/
def windowCalls (hmcfg : HmdfsConfig) (addr : UInt64) (targetNodes : List Nat) : List Call :=
  [genRecvCall 0, genNetDownCall hmcfg addr targetNodes, genSendCall 0, genRecvCall 1, genNetUpCall, genSendCall 1]

def callsOf (p : SeedProg) : List Call := p.calls.map CallObj.call

/-- `addProg` makes an object of every call. -/
def numbered (n : Nat) (calls : List Call) : List CallObj := calls.mapIdx fun i call => ⟨n + i, call⟩

theorem map_numbered (n : Nat) (calls : List Call) : (numbered n calls).map CallObj.call = calls := by
  refine List.ext_getElem? fun k => ?_
  simp [numbered, Option.map_map, Function.comp_def]

theorem getElem?_numbered {n k : Nat} {calls : List Call} {o : CallObj} (found : (numbered n calls)[k]? = some o) :
    calls[k]? = some o.call := by
  rw [numbered, List.getElem?_mapIdx, Option.map_eq_some_iff] at found
  obtain ⟨c, here, rfl⟩ := found
  exact here

/-- The window at `s`. -/
def windowKeys : List (String × Int) :=
  [("syz_failure_recv", 0), ("syz_failure_net_down", -1), ("syz_failure_send", 0), ("syz_failure_recv", 1),
    ("syz_failure_net_up", -1), ("syz_failure_send", 1)]

def HoldsWindow (calls : List Call) (s : Nat) : Prop := ((calls.drop s).take 6).map (fun c => (c.name, extractSyncId c)) = windowKeys

theorem holdsWindow_append (hmcfg : HmdfsConfig) (addr : UInt64) (targetNodes : List Nat) (front back : List Call) :
    HoldsWindow (front ++ (windowCalls hmcfg addr targetNodes ++ back)) front.length := by
  rw [HoldsWindow, List.drop_left, List.take_left' (by rfl)]
  rfl

/-- Which of the generators' calls are syncs, writes, reads and closes. -/
theorem call_kinds :
    (isSync "open" = false ∧ isWrite "open" = false ∧ isRead "open" = false) ∧
    (isSync "close" = false ∧ isWrite "close" = false ∧ isRead "close" = false) ∧
    (isSync "pread64" = false ∧ isWrite "pread64" = false ∧ isRead "pread64" = true ∧
      Go.contains "pread64" "close" = false) ∧
    (isSync "pwrite64" = false ∧ isRead "pwrite64" = false ∧ Go.contains "pwrite64" "close" = false) ∧
    (isSync "syz_failure_sync" = true ∧ isWrite "syz_failure_sync" = false ∧ isRead "syz_failure_sync" = false ∧
      Go.contains "syz_failure_sync" "close" = false) ∧
    ∀ name ∈ ["syz_failure_recv", "syz_failure_net_down", "syz_failure_send", "syz_failure_net_up"],
      isSync name = false ∧ Go.contains name "close" = false ∧ isWrite name = false ∧ isRead name = false := by
  decide +kernel

theorem syncPair_numbered {n i : Nat} {front middle back : List Call} {calls : List Call}
    (split : calls = front ++ genSyncCall 0 i :: (middle ++ genSyncCall 1 i :: back))
    (plain : ∀ c ∈ front ++ (middle ++ back), isSync c.name = false) :
    SyncPair (numbered n calls) front.length (front.length + 1 + middle.length) := by
  have sync : isSync "syz_failure_sync" = true := call_kinds.2.2.2.2.1.1
  have first : calls[front.length]? = some (genSyncCall 0 i) := by simp [split]
  have second : calls[front.length + 1 + middle.length]? = some (genSyncCall 1 i) := by
    rw [split, List.getElem?_append_right (by omega), List.getElem?_cons, if_neg (by omega), List.getElem?_append_right (by omega)]
    rw [show front.length + 1 + middle.length - front.length - 1 - middle.length = 0 by omega, List.getElem?_cons_zero]
  refine ⟨by omega, ?_, ?_, ?_⟩
  · exact ⟨⟨n + front.length, genSyncCall 0 i⟩, by simp [numbered, first], sync, rfl⟩
  · exact ⟨⟨n + (front.length + 1 + middle.length), genSyncCall 1 i⟩, by simp [numbered, second], sync, rfl⟩
  · intro k o found isSync'
    have here := getElem?_numbered found
    have notPlain : o.call ∉ front ++ (middle ++ back) := fun member => by
      have none := plain o.call member
      rw [CallObj.name, none] at isSync'
      cases isSync'
    simp only [List.mem_append, not_or] at notPlain
    rw [split, List.getElem?_append] at here
    split at here
    · exact absurd (List.mem_of_getElem? here) notPlain.1
    · rename_i behind
      rw [List.getElem?_cons] at here
      split at here
      · exact .inl (by omega)
      · rw [List.getElem?_append] at here
        split at here
        · exact absurd (List.mem_of_getElem? here) notPlain.2.1
        · rw [List.getElem?_cons] at here
          split at here
          · exact .inr (by omega)
          · exact absurd (List.mem_of_getElem? here) notPlain.2.2

/-! ### What is written and what is read -/

/-- The writes of a program are among `written`, and if it reads at all, it reads every one of them. -/
structure GoodProg (written : List (String × WriteInfo)) (calls : List Call) : Prop where
  bracketed : FdsBracketed calls
  writes : ∀ c ∈ calls, isWrite c.name = true → ∃ w ∈ written, fileOf calls c = pathText w.1 ∧
    writeRegion c = some (w.2.offset, w.2.length)
  reads : (∃ c ∈ calls, isRead c.name = true) → ∀ w ∈ written, ∃ c ∈ calls, isRead c.name = true ∧
    fileOf calls c = pathText w.1 ∧ writeRegion c = some (w.2.offset, w.2.length)

/-- A call of a failure: neither a read nor a write, and without a file. -/
structure Special (c : Call) : Prop where
  ret : c.ret = none
  notClose : Go.contains c.name "close" = false
  notWrite : isWrite c.name = false
  notRead : isRead c.name = false
  refs : argsRefs c.args = []

theorem Special.inside {c : Call} (special : Special c) (opened : List Opened) : Inside opened c :=
  ⟨special.ret, special.notClose, .inl special.refs⟩

theorem special_sync (syncIdx : UInt64) (nodeIdx : Nat) : Special (genSyncCall syncIdx nodeIdx) := by
  obtain ⟨-, notWrite, notRead, notClose⟩ := call_kinds.2.2.2.2.1
  exact ⟨rfl, notClose, notWrite, notRead, rfl⟩

theorem special_window (hmcfg : HmdfsConfig) (addr : UInt64) (targetNodes : List Nat) :
    ∀ c ∈ windowCalls hmcfg addr targetNodes, Special c := by
  have special : ∀ c : Call, c.ret = none → argsRefs c.args = [] →
      c.name ∈ ["syz_failure_recv", "syz_failure_net_down", "syz_failure_send", "syz_failure_net_up"] → Special c := by
    intro c ret refs named
    obtain ⟨-, notClose, notWrite, notRead⟩ := call_kinds.2.2.2.2.2 c.name named
    exact ⟨ret, notClose, notWrite, notRead, refs⟩
  intro c member
  simp only [windowCalls, List.mem_cons, List.not_mem_nil, or_false] at member
  rcases member with rfl | rfl | rfl | rfl | rfl | rfl <;> exact special _ rfl rfl (by simp [genRecvCall, genNetDownCall, genSendCall, genNetUpCall])

structure IsOp (name : String) (opened : List Opened) (w : String × WriteInfo) (c : Call) : Prop where
  named : c.name = name
  ret : c.ret = none
  args : ∃ o ∈ opened, o.path = w.1 ∧ ∃ buf, argRefs buf = [] ∧ c.args = [o.fd, buf, .const w.2.length, .const w.2.offset]

/-- The files as `openFiles` leaves them: each has an argument that refers to its result. -/
def Usable (opened : List Opened) : Prop := ∀ o ∈ opened, ∃ id, o.fd = .result id (some o.ret) 0

section Ops

variable {name : String} {opened : List Opened} {w : String × WriteInfo} {c : Call} (op : IsOp name opened w c)

include op

theorem IsOp.region : writeRegion c = some (w.2.offset, w.2.length) := by
  obtain ⟨o, -, -, buf, -, args⟩ := op.args
  rw [writeRegion, args]

theorem IsOp.inside (usable : Usable opened) (notClose : Go.contains name "close" = false) : Inside opened c := by
  obtain ⟨o, member, -, buf, refs, args⟩ := op.args
  obtain ⟨id, fd⟩ := usable o member
  refine ⟨op.ret, op.named ▸ notClose, .inr ⟨o, member, id, [buf, .const w.2.length, .const w.2.offset], ?_, ?_⟩⟩
  · rw [args, fd]
  · simp [argsRefs, refs, argRefs]

theorem IsOp.fileOf (usable : Usable opened) {body calls : List Call} (framed : Framed opened body calls) :
    fileOf calls c = pathText w.1 := by
  obtain ⟨o, member, path, buf, -, args⟩ := op.args
  obtain ⟨id, fd⟩ := usable o member
  rw [← path]
  exact framed.fileOf member (show c.args = .result id (some o.ret) 0 :: [buf, .const w.2.length, .const w.2.offset] by rw [args, fd])

end Ops

theorem forall₂_filterMap {α β : Type} {f : α → Option β} {R : α → β → Prop} {l : List α}
    (each : ∀ x ∈ l, ∃ y, f x = some y ∧ R x y) : List.Forall₂ R l (l.filterMap f) := by
  induction l with
  | nil => exact List.Forall₂.nil
  | cons x rest ih =>
    obtain ⟨y, here, holds⟩ := each x List.mem_cons_self
    rw [List.filterMap_cons_some here]
    exact .cons holds (ih fun x' member => each x' (List.mem_cons_of_mem _ member))

theorem exists_opened {opened : List Opened} {path : String} (member : path ∈ opened.map Opened.path)
    (distinct : (opened.map Opened.path).Nodup) : ∃ o ∈ opened, o.path = path ∧ fileFd opened path = some o := by
  obtain ⟨o, inside, rfl⟩ := List.mem_map.mp member
  exact ⟨o, inside, rfl, fileFd_eq distinct inside⟩

theorem writeCalls_spec {opened : List Opened} (distinct : (opened.map Opened.path).Nodup) {writes : List Write}
    (known : ∀ w ∈ writes, w.path ∈ opened.map Opened.path) :
    List.Forall₂ (fun w => IsOp "pwrite64" opened (w.path, w.info)) writes (writeCalls opened writes) := by
  refine forall₂_filterMap fun w member => ?_
  obtain ⟨o, inside, path, fd⟩ := exists_opened (known w member) distinct
  exact ⟨_, by rw [fd, Option.map_some], rfl, rfl, o, inside, path, _, rfl, rfl⟩

theorem readCalls_spec {opened : List Opened} (distinct : (opened.map Opened.path).Nodup) {reads : List (String × WriteInfo)}
    (known : ∀ w ∈ reads, w.1 ∈ opened.map Opened.path) (addr : Nat → UInt64) :
    List.Forall₂ (fun w => IsOp "pread64" opened w.1) reads.zipIdx (readCalls addr opened reads) := by
  refine forall₂_filterMap ?_
  rintro ⟨⟨path, info⟩, i⟩ member
  obtain ⟨o, inside, same, fd⟩ := exists_opened (known _ (List.fst_mem_of_mem_zipIdx member)) distinct
  exact ⟨preadCall (addr i) o.fd info, by simp only [fd, Option.map_some], rfl, rfl, o, inside, same, _, rfl, rfl⟩

section Programs

variable {opened : List Opened} {body calls : List Call} (framed : Framed opened body calls) (usable : Usable opened)

include framed

theorem Framed.mem_body {c : Call} (member : c ∈ calls) (io : isWrite c.name = true ∨ isRead c.name = true) : c ∈ body := by
  have opens : isWrite "open" = false ∧ isRead "open" = false := call_kinds.1.2
  have closes : isWrite "close" = false ∧ isRead "close" = false := call_kinds.2.1.2
  obtain ⟨k, found⟩ := List.getElem?_of_mem member
  rcases framed.cases found with ⟨_, -, _, _, _, rfl⟩ | ⟨-, -, inBody⟩ | ⟨_, _, -, -, _, rfl⟩
  · simp [openCall, opens] at io
  · exact inBody
  · simp [closeCall, closes] at io

theorem Framed.body_subset : body ⊆ calls := by
  obtain ⟨opens, closes, rfl, -, -⟩ := framed.parts
  exact fun c member => List.mem_append_right _ (List.mem_append_left _ member)

include usable

theorem goodWriter {written : List (String × WriteInfo)}
    (body_cases : ∀ c ∈ body, (∃ w ∈ written, IsOp "pwrite64" opened w c) ∨ Special c) : GoodProg written calls := by
  have notRead : isRead "pwrite64" = false := call_kinds.2.2.2.1.2.1
  refine ⟨framed.bracketed, ?_, ?_⟩
  · intro c member isWrite
    rcases body_cases c (framed.mem_body member (.inl isWrite)) with ⟨w, known, op⟩ | special
    · exact ⟨w, known, op.fileOf usable framed, op.region⟩
    · rw [special.notWrite] at isWrite
      cases isWrite
  · rintro ⟨c, member, isRead⟩
    rcases body_cases c (framed.mem_body member (.inr isRead)) with ⟨w, -, op⟩ | special
    · rw [op.named, notRead] at isRead
      cases isRead
    · rw [special.notRead] at isRead
      cases isRead

theorem goodReader {written : List (String × WriteInfo)}
    (body_cases : ∀ c ∈ body, (∃ w, IsOp "pread64" opened w c) ∨ Special c)
    (covers : ∀ w ∈ written, ∃ c ∈ body, IsOp "pread64" opened w c) : GoodProg written calls := by
  obtain ⟨-, notWrite, read, -⟩ := call_kinds.2.2.1
  refine ⟨framed.bracketed, ?_, ?_⟩
  · intro c member isWrite
    rcases body_cases c (framed.mem_body member (.inl isWrite)) with ⟨w, op⟩ | special
    · rw [op.named, notWrite] at isWrite
      cases isWrite
    · rw [special.notWrite] at isWrite
      cases isWrite
  · intro _ w known
    obtain ⟨c, member, op⟩ := covers w known
    exact ⟨c, framed.body_subset member, op.named ▸ read, op.fileOf usable framed, op.region⟩

end Programs

/-- What a builder leaves: the program in its frame, and what the loop has recorded. -/
theorem openLoopClose_spec {paths : List String} (distinct : paths.Nodup) (addr : String → UInt64) (flags mode : UInt64)
    (ops : List Opened → List Call) (loop : Build → List Call → Build) (g : StashGroup) :
    ∃ opened opens, opened.map Opened.path = paths ∧ Usable opened ∧ List.Forall₂ IsOpen opened opens ∧
      ∀ body, (loop { calls := opens } (ops opened)).calls = opens ++ body → (∀ c ∈ body, Inside opened c) →
        Framed opened body (openLoopClose addr flags mode paths ops loop g).1.calls ∧
        (openLoopClose addr flags mode paths ops loop g).1.start = (loop { calls := opens } (ops opened)).start ∧
        (openLoopClose addr flags mode paths ops loop g).1.finish = (loop { calls := opens } (ops opened)).finish ∧
        (openLoopClose addr flags mode paths ops loop g).2.progs = g.progs := by
  have spec := openFiles_spec addr flags mode paths g
  simp only [openLoopClose]
  generalize openFiles addr flags mode paths g = run at spec ⊢
  obtain ⟨files, g'⟩ := run
  have same : (files.map Prod.fst).map Opened.path = paths := by
    rw [List.map_map]
    exact spec.paths
  have opens : List.Forall₂ IsOpen (files.map Prod.fst) (files.map Prod.snd) := by
    rw [List.forall₂_map_left_iff, List.forall₂_map_right_iff, List.forall₂_same]
    exact spec.opens
  refine ⟨files.map Prod.fst, files.map Prod.snd, same, ?_, opens, ?_⟩
  · intro o member
    obtain ⟨file, inside, rfl⟩ := List.mem_map.mp member
    exact spec.fds file inside
  · intro body looped inside
    have closed := closeFiles_spec (same.symm ▸ distinct) (List.Subset.refl _) g'
    rw [same] at closed
    refine ⟨⟨?_, ⟨files.map Prod.snd, _, ?_, opens, closed.1⟩, inside⟩, rfl, rfl, closed.2.trans spec.progs⟩
    · rw [List.map_map]
      exact spec.rets.imp fun less => Nat.ne_of_lt less
    · rw [Build.add_calls, looped, List.append_assoc]

end DfsFuzz.Generate
