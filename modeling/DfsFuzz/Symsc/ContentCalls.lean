import DfsFuzz.Symsc.FileContents

/-!
The calls on file contents beside the reference: in a state that stands for files each of them goes through,
and what it leaves stands for the files that the reference comes to.
-/

namespace DfsFuzz.Symsc

open ByteFile

/-- What a call leaves in the buffer that it reads into. -/
def Placed (buf : Str) (bytes : Option Str) (s s' : State) : Prop :=
  match bytes with
  | none => s'.bufData = s.bufData
  | some bytes => s'.bufData = s.bufData.insert buf bytes ∨ bytes = [] ∧ s'.bufData = s.bufData

/-- The call brings nothing back that a truncating `open` left behind the end of a file, and an appending write starts with
the offset of its descriptor at the end. -/
def Clean (s : State) (r : Posix) : PosixCall → Prop
  | .write var data => data ≠ [] → ∀ f, r.fds var = some f → f.access.writes = true →
      s.Covers f.id (r.writePos f) data.length ∧ (f.append = true → f.offset = (r.content f.id).length)
  | .pwrite var data offset => data ≠ [] → ∀ f, r.fds var = some f → f.access.writes = true → s.Covers f.id offset data.length
  | .truncate path length => ∀ id, r.names path = some id → s.ZeroTo id length
  | .ftruncate var length => ∀ f, r.fds var = some f → f.access.writes = true → s.ZeroTo f.id length
  | _ => True

/-- The inode is a file that shows the content: its data, cut or filled to its size. -/
structure Shows (i : Inode) (content : Str) : Prop where
  type : i.type = .file
  block : ∃ b, i.datablock = some b ∧ resize zeroChar b.data i.size.toNat = content
  size : i.size = content.length

/-- The names, the files and the offsets of the descriptors are those of the reference. -/
structure ContentsAgree (s : State) (r : Posix) : Prop where
  names : ∀ path, path ≠ ['.'] → s.dentry.get? path = r.names path
  file : ∀ id, 0 < id → id < r.next → ∃ i, s.inode? id = some i ∧ Shows i (r.content id)
  offset : ∀ var f, r.fds var = some f → s.fdStack.lookup var = some (.opened f.id) ∧
    ∃ i, s.inode? f.id = some i ∧ i.offset.lookup var = some (f.offset : Int)

/-- The call goes through and places what the reference reads, and it leaves what the reference has exactly if it is clean. -/
def Follows (x : M Ret) (w : Ctx) (r : Posix) (op : PosixCall) (buf : Str) : Prop :=
  ∃ ret w', x w = some (ret, w') ∧ Placed buf (r.step op).2 w.st w'.st ∧
    (Clean w.st r op → ∃ children, Corr w' (r.step op).1 children) ∧ (ContentsAgree w'.st (r.step op).1 → Clean w.st r op)

theorem Follows.of_clean {x : M Ret} {w : Ctx} {r : Posix} {op : PosixCall} {buf : Str} (ret : Ret) (w' : Ctx) (children : List Tup)
    (clean : Clean w.st r op) (run : x w = some (ret, w')) (corr : Corr w' (r.step op).1 children)
    (placed : Placed buf (r.step op).2 w.st w'.st) : Follows x w r op buf :=
  ⟨ret, w', run, placed, fun _ => ⟨children, corr⟩, fun _ => clean⟩

structure Whole (i : Inode) (b : DataBlock) : Prop where
  type : i.type = .file
  block : i.datablock = some b
  size : i.size = b.data.length

namespace Whole

variable {i : Inode} {b : DataBlock} {content : Str}

theorem holds (whole : Whole i b) (same : b.data = content) : Holds i content where
  type := whole.type
  block := ⟨b, whole.block, by rw [same, List.take_length]⟩
  size := by rw [whole.size, same]

theorem eq_of_shows (whole : Whole i b) (shows : Shows i content) : b.data = content := by
  obtain ⟨b', block, same⟩ := shows.block
  cases whole.block.symm.trans block
  rw [whole.size, Int.toNat_natCast, resize, List.take_length, Nat.sub_self, List.replicate_zero, List.append_nil] at same
  exact same

end Whole

theorem Ctx.inode_withInode (w : Ctx) (id : Nat) (i : Inode) : (w.withInode id i).st.inode? id = some i := by
  rw [State.inode?, Py.Dict.get?_set_self]
  rfl

theorem ContentsAgree.block {w : Ctx} {r : Posix} {id : Nat} {i : Inode} {b : DataBlock} (agree : ContentsAgree (w.withInode id i).st r)
    (positive : 0 < id) (below : id < r.next) (whole : Whole i b) : b.data = r.content id := by
  obtain ⟨j, found, shows⟩ := agree.file id positive below
  cases (w.inode_withInode id i).symm.trans found
  exact whole.eq_of_shows shows

namespace Posix

variable {r : Posix} {var : Str} {f : OpenFile}

theorem seek_self (isOpen : r.fds var = some f) : r.seek var f f.offset = r := by
  have same : Function.update r.fds var (some f) = r.fds := by
    rw [← isOpen]
    exact Function.update_eq_self var r.fds
  rw [seek, same]

theorem put_self (r : Posix) (id : Nat) : r.put id (r.content id) = r := by
  rw [put, Function.update_eq_self]

theorem put_put (r : Posix) (id : Nat) (file file' : Str) : (r.put id file).put id file' = r.put id file' := by
  simp only [put, Function.update_idem]

theorem writePos_eq_offset : r.writePos f = f.offset ↔ (f.append = true → f.offset = (r.content f.id).length) := by
  rw [writePos]
  split
  · rename_i append
    exact ⟨fun same _ => same.symm, fun appends => (appends append).symm⟩
  · rename_i plain
    exact ⟨fun _ append => absurd append plain, fun _ => rfl⟩

theorem Fits.put {op : PosixCall} (fits : r.Fits op) (id : Nat) {content : Str} (changed : (r.step op).1.content id = content) :
    (content.length : Int) ≤ maxEmulSize := changed ▸ fits.2 id

end Posix

namespace Corr

variable {w : Ctx} {r : Posix} {children : List Tup}

theorem beside (corr : Corr w r children) (bufData : Go.Map Str Str) (cnt : Nat) :
    Corr { w with st := { w.st with bufData := bufData, cntRecur := cnt } } r children where
  flat := ⟨corr.flat.noNone, corr.flat.root, corr.flat.entry, corr.flat.tree⟩
  next := corr.next
  positive := corr.positive
  fresh := corr.fresh
  names := corr.names
  named := corr.named
  files := corr.files
  free := corr.free
  fd var f isOpen := by
    obtain ⟨stack, positive, below, offset, opts⟩ := corr.fd var f isOpen
    exact ⟨stack, positive, below, offset, opts⟩

/-- A call that changes nothing, where the reference changes nothing. -/
theorem unchanged (corr : Corr w r children) {x : M Ret} (ret : Ret) {op : PosixCall} {buf : Str} (run : x w = some (ret, w))
    (stays : r.step op = (r, none)) (clean : Clean w.st r op) : Follows x w r op buf := by
  refine .of_clean ret w children clean run ?_ ?_
  · rw [stays]
    exact corr
  · rw [stays]
    rfl

theorem getInodeOfFd_free (corr : Corr w r children) {fd : Str} (token : stripLong fd = fd) (closed : r.fds fd = none) :
    getInodeOfFd fd w = some (none, w) := by
  rw [getInodeOfFd, M.bind_run (getState_apply w), token]
  rcases corr.free fd closed with none | undefined
  · rw [none]
    rfl
  · rw [undefined]
    rfl

end Corr

theorem putInode_mem {s : State} {id : Nat} {i : Inode} (found : s.mem.get? id = some i) (i' : Inode) :
    s.putInode id i' = { s with mem := s.mem.set id i' } := by
  rw [State.putInode, if_pos (by rw [Py.Dict.has, found]; rfl)]

theorem unsync_mem {s : State} {id : Nat} {i : Inode} (found : s.mem.get? id = some i) : s.unsync id = s := by
  rw [State.unsync, if_pos (by rw [Py.Dict.has, found]; rfl)]

theorem putInode_unsync {s : State} {id : Nat} {i : Inode} (found : s.mem.get? id = some i) (i' : Inode) :
    (s.putInode id i').unsync id = { s with mem := s.mem.set id i' } := by
  have here : ({ s with mem := s.mem.set id i' } : State).mem.get? id = some i' := Py.Dict.get?_set_self ..
  rw [putInode_mem found]
  exact unsync_mem here

theorem getBlock_run {i : Inode} {b : DataBlock} (block : i.datablock = some b) (w : Ctx) : getBlock i w = some (b, w) :=
  orRaise_run block

theorem checkEmulSize_run {size : Int} (within : size ≤ maxEmulSize) (w : Ctx) : checkEmulSize size w = some ((), w) := by
  rw [checkEmulSize, if_neg (by omega)]
  rfl

theorem getOpts_run {w : Ctx} {var : Str} {o : OpenOpts} (found : w.optDict.lookup var = some o) : getOpts var w = some (o, w) := by
  rw [getOpts, found]
  rfl

section Write

variable {w : Ctx} {r : Posix} {children : List Tup} {fd buf n slot : Str} {data : Str} {count : Nat} {f : OpenFile}

theorem writeTarget_closed (corr : Corr w r children) (token : stripLong fd = fd) (closed : r.fds fd = none) (rest : List Str) :
    writeTarget (fd :: rest) w = some (none, w) := by
  rw [writeTarget, M.bind_run (argAt_run rfl), M.bind_run (corr.getInodeOfFd_free token closed)]
  rfl

theorem writeTarget_refused (corr : Corr w r children) (token : stripLong fd = fd) (isOpen : r.fds fd = some f)
    (no : f.access.writes = false) (rest : List Str) : writeTarget (fd :: rest) w = some (none, w) := by
  obtain ⟨i, o, stack, -, found, holds, -, options, suits⟩ := corr.descriptor isOpen
  rw [writeTarget, M.bind_run (argAt_run rfl), M.bind_run (getInodeOfFd_opened (by rw [token]; exact stack) found)]
  dsimp only
  rw [M.bind_run (getInode_found found), if_neg (not_not.mpr holds.type), token, M.bind_run (getOpts_run options),
    if_neg (by rw [suits.accmode]; exact Bool.false_ne_true), if_pos (by rw [suits.rdonly, no]; rfl)]
  rfl

theorem writeTarget_run {i : Inode} {o : OpenOpts} {size : Nat} (token : stripLong fd = fd)
    (stack : w.st.fdStack.lookup fd = some (.opened f.id)) (found : w.st.inode? f.id = some i) (file : i.type = .file)
    (options : w.optDict.lookup fd = some o) (suits : Suits o f.access f.append) (yes : f.access.writes = true)
    (held : w.st.bufData.lookup (stripLong buf) = some data) (sized : w.st.bufSize.lookup (stripLong buf) = some size)
    (rest : List Str) : writeTarget (fd :: buf :: rest) w = some (some (f.id, i, o, size, data), w) := by
  rw [writeTarget, M.bind_run (argAt_run rfl), M.bind_run (getInodeOfFd_opened (by rw [token]; exact stack) found)]
  dsimp only
  rw [M.bind_run (getInode_found found), if_neg (not_not.mpr file), token, M.bind_run (getOpts_run options),
    if_neg (by rw [suits.accmode]; exact Bool.false_ne_true), if_neg (by rw [suits.rdonly, yes]; exact Bool.false_ne_true),
    M.bind_run (argAt_run rfl), M.bind_run (getState_apply w), sized]
  dsimp only
  rw [held]
  rfl

theorem take_isEmpty (within : count ≤ data.length) : (data.take count).isEmpty = decide (count = 0) := by
  rw [Bool.eq_iff_iff, List.isEmpty_iff, decide_eq_true_eq, ← List.length_eq_zero_iff, List.length_take]
  omega

theorem whole_written {i i' : Inode} {b : DataBlock} {content : Str} {pos : Nat} (holds : Holds i content)
    (old : i.datablock = some b) (within : count ≤ data.length) (file : i'.type = .file)
    (block : i'.datablock = some (writeBlock b data data.length count pos))
    (size : i'.size = max i.size (writeBlock b data data.length count pos).data.length) :
    Whole i' (writeBlock b data data.length count pos) := by
  refine ⟨file, block, ?_⟩
  have starts := congrArg List.length (holds.starts old)
  rw [List.length_take] at starts
  rw [size, holds.size, writeBlock_data within, length_overwrite]
  omega

theorem write_follows (corr : Corr w r children) (token : stripLong fd = fd)
    (held : w.st.bufData.lookup (stripLong buf) = some data) (sized : w.st.bufSize.lookup (stripLong buf) = some data.length)
    (number : parseInt n = some (count : Int)) (within : count ≤ data.length) (fits : r.Fits (.write fd (data.take count))) :
    Follows (Symsc.write [fd, buf, n]) w r (.write fd (data.take count)) slot := by
  have enough : ¬ [fd, buf, n].length < 3 := by simp
  cases isOpen : r.fds fd with
  | none =>
    refine corr.unchanged (.int 1) ?_ (by simp only [Posix.step, isOpen]) fun _ f given => by cases isOpen.symm.trans given
    rw [Symsc.write, if_neg enough, M.bind_run (writeTarget_closed corr token isOpen _)]
    rfl
  | some f =>
    cases yes : f.access.writes with
    | false =>
      refine corr.unchanged (.int 1) ?_ (by simp [Posix.step, isOpen, yes]) fun _ f given writes => by
        cases isOpen.symm.trans given
        cases yes.symm.trans writes
      rw [Symsc.write, if_neg enough, M.bind_run (writeTarget_refused corr token isOpen yes _)]
      rfl
    | true =>
      obtain ⟨i, o, stack, mem, found, holds, offset, options, suits⟩ := corr.descriptor isOpen
      have target := writeTarget_run token stack found holds.type options suits yes held sized [n]
      have start : Symsc.write [fd, buf, n] w = writeFrom [fd, buf, n] fd f.id i data.length data (r.writePos f) w := by
        rw [Symsc.write, if_neg enough, M.bind_run target]
        dsimp only
        rw [M.bind_run (argAt_run rfl), token, suits.append, Posix.writePos]
        split
        · rw [M.bind_run (M.pure_apply _ w), holds.size]
        · rw [M.bind_run (orRaise_run offset)]
      by_cases zero : count = 0
      · subst zero
        refine corr.unchanged (.int 0) ?_ (by simp [Posix.step, isOpen]) fun full => absurd rfl full
        rw [start, writeFrom, M.bind_run (intAt_run rfl number), if_pos (by rfl)]
        rfl
      · have full : (data.take count).isEmpty = false := by rw [take_isEmpty within, decide_eq_false zero]
        have length : (data.take count).length = count := by rw [List.length_take]; omega
        have stepped : r.step (.write fd (data.take count)) =
            ((r.put f.id (overwrite zeroChar (r.content f.id) (r.writePos f) (data.take count))).seek fd f (r.writePos f + count), none) := by
          simp only [Posix.step, isOpen, yes, full, Bool.not_false, Bool.and_self, if_true, length]
        obtain ⟨b, block, -⟩ := holds.block
        have cap : (r.writePos f : Int) + count ≤ maxEmulSize := by
          have bound : ((overwrite zeroChar (r.content f.id) (r.writePos f) (data.take count)).length : Int) ≤ maxEmulSize :=
            fits.put f.id (by rw [stepped]; exact Function.update_self ..)
          rw [length_overwrite, length] at bound
          omega
        let i' : Inode := { i.written (writeBlock b data data.length count (r.writePos f)) with
          offset := i.offset.insert fd (f.offset + count) }
        have whole : Whole i' (writeBlock b data data.length count (r.writePos f)) := whole_written holds block within holds.type rfl rfl
        have covers := holds.overwrite_eq_iff found block (r.writePos f) (data.take count)
        have fd' := corr.fd fd f isOpen
        refine ⟨.none, w.withInode f.id i', ?_, ?_, fun clean => ⟨children, ?_⟩, fun agree _ g given _ => ?_⟩
        · rw [start, writeFrom, M.bind_run (intAt_run rfl number), if_neg (by exact_mod_cast zero), M.bind_run (checkEmulSize_run cap w),
            M.bind_run (getBlock_run block w), M.bind_run (orRaise_run offset), M.bind_run (modifyState_apply _ w), M.pure_apply,
            putInode_unsync mem]
        · rw [stepped]
          rfl
        · obtain ⟨covered, appends⟩ := clean (by rw [← List.isEmpty_eq_false_iff]; exact full) f isOpen yes
          have written := (writeBlock_data within).trans (covers.mpr covered)
          rw [stepped]
          exact corr.moveFd isOpen mem (whole.holds written) (by rw [Int.natCast_add, Posix.writePos_eq_offset.mpr appends])
        · cases isOpen.symm.trans given
          rw [stepped] at agree
          have written := (agree.block fd'.positive fd'.below whole).trans (Function.update_self ..)
          refine ⟨covers.mp ((writeBlock_data within).symm.trans written), Posix.writePos_eq_offset.mp ?_⟩
          obtain ⟨-, j, here, moved⟩ := agree.offset fd _ (Function.update_self ..)
          cases (w.inode_withInode f.id i').symm.trans here
          rw [AList.lookup_insert] at moved
          have same := Option.some.inj moved
          dsimp only at same
          omega

theorem pwrite64_follows (corr : Corr w r children) {off : Str} {offset : Nat} (token : stripLong fd = fd)
    (held : w.st.bufData.lookup (stripLong buf) = some data) (sized : w.st.bufSize.lookup (stripLong buf) = some data.length)
    (number : parseInt n = some (count : Int)) (within : count ≤ data.length) (place : parseInt off = some (offset : Int))
    (fits : r.Fits (.pwrite fd (data.take count) offset)) :
    Follows (Symsc.pwrite64 [fd, buf, n, off]) w r (.pwrite fd (data.take count) offset) slot := by
  have enough : ¬ [fd, buf, n, off].length < 4 := by simp
  cases isOpen : r.fds fd with
  | none =>
    refine corr.unchanged (.int 1) ?_ (by simp only [Posix.step, isOpen]) fun _ f given => by cases isOpen.symm.trans given
    rw [Symsc.pwrite64, if_neg enough, M.bind_run (writeTarget_closed corr token isOpen _)]
    rfl
  | some f =>
    cases yes : f.access.writes with
    | false =>
      refine corr.unchanged (.int 1) ?_ (by simp [Posix.step, isOpen, yes]) fun _ f given writes => by
        cases isOpen.symm.trans given
        cases yes.symm.trans writes
      rw [Symsc.pwrite64, if_neg enough, M.bind_run (writeTarget_refused corr token isOpen yes _)]
      rfl
    | true =>
      obtain ⟨i, o, stack, mem, found, holds, -, options, suits⟩ := corr.descriptor isOpen
      have target := writeTarget_run token stack found holds.type options suits yes held sized [n, off]
      by_cases zero : count = 0
      · subst zero
        refine corr.unchanged (.int 0) ?_ (by simp [Posix.step, isOpen]) fun full => absurd rfl full
        rw [Symsc.pwrite64, if_neg enough, M.bind_run target]
        dsimp only
        rw [M.bind_run (intAt_run rfl place), M.bind_run (intAt_run rfl number), if_pos (by rfl)]
        rfl
      · have full : (data.take count).isEmpty = false := by rw [take_isEmpty within, decide_eq_false zero]
        have length : (data.take count).length = count := by rw [List.length_take]; omega
        have stepped : r.step (.pwrite fd (data.take count) offset) =
            (r.put f.id (overwrite zeroChar (r.content f.id) offset (data.take count)), none) := by
          simp only [Posix.step, isOpen, yes, full, Bool.not_false, Bool.and_self, if_true]
        obtain ⟨b, block, -⟩ := holds.block
        have cap : (offset : Int) + count ≤ maxEmulSize := by
          have bound : ((overwrite zeroChar (r.content f.id) offset (data.take count)).length : Int) ≤ maxEmulSize :=
            fits.put f.id (by rw [stepped]; exact Function.update_self ..)
          rw [length_overwrite, length] at bound
          omega
        let block' := writeBlock b data data.length count offset
        let i' : Inode := { i with datablock := some block', size := max i.size block'.data.length }
        have whole : Whole i' block' := whole_written holds block within holds.type rfl rfl
        have covers := holds.overwrite_eq_iff found block offset (data.take count)
        have fd' := corr.fd fd f isOpen
        refine ⟨.none, w.withInode f.id i', ?_, ?_, fun clean => ⟨children, ?_⟩, fun agree _ g given _ => ?_⟩
        · rw [Symsc.pwrite64, if_neg enough, M.bind_run target]
          dsimp only
          rw [M.bind_run (intAt_run rfl place), M.bind_run (intAt_run rfl number), if_neg (by exact_mod_cast zero),
            M.bind_run (checkEmulSize_run cap w), M.bind_run (getBlock_run block w), M.bind_run (modifyState_apply _ w), M.pure_apply,
            putInode_unsync mem]
        · rw [stepped]
          rfl
        · have written := (writeBlock_data within).trans
            (covers.mpr (clean (by rw [← List.isEmpty_eq_false_iff]; exact full) f isOpen yes))
          rw [stepped]
          exact corr.putFile fd'.positive fd'.below mem (whole.holds written) rfl
        · cases isOpen.symm.trans given
          rw [stepped] at agree
          have written := (agree.block fd'.positive fd'.below whole).trans (Function.update_self ..)
          exact covers.mp ((writeBlock_data within).symm.trans written)

end Write

section Read

variable {w : Ctx} {r : Posix} {children : List Tup} {fd buf n : Str} {count room : Nat} {f : OpenFile}

theorem placeRead_follows {i : Inode} {content : Str} {offset : Nat} (holds : Holds i content) (within : count ≤ room)
    (inside : offset ≤ content.length) (w : Ctx) :
    placeRead i buf room count offset w = some (((readAt content offset count).length : Int),
      { w with st := { w.st with bufData := w.st.bufData.insert buf (readAt content offset count) } }) := by
  obtain ⟨b, block, starts⟩ := holds.block
  have length := length_readAt content offset count
  have number : min (min (count : Int) (i.size - offset)) room = ((readAt content offset count).length : Int) := by
    rw [holds.size, length]
    omega
  have bytes : slice b.data (offset : Int) (offset + ((readAt content offset count).length : Nat)) = readAt content offset count := by
    have cut := slice_nat b.data offset (offset + (readAt content offset count).length)
    rw [Int.natCast_add] at cut
    rw [cut, List.drop_take, Nat.add_sub_cancel_left, length, readAt]
    conv_rhs => rw [← starts]
    rw [List.drop_take, List.take_take]
  rw [placeRead, M.bind_run (getBlock_run block w)]
  simp only [number, bytes, M.bind_eq, modifyState_apply, Option.bind_some, M.pure_apply]

theorem read_follows (corr : Corr w r children) {data : Str} (token : stripLong fd = fd)
    (held : w.st.bufData.lookup (stripLong buf) = some data) (sized : w.st.bufSize.lookup (stripLong buf) = some room)
    (number : parseInt n = some (count : Int)) (within : count ≤ room) :
    Follows (Symsc.read [fd, buf, n]) w r (.read fd count) (stripLong buf) := by
  have enough : ¬ [fd, buf, n].length < 3 := by simp
  cases isOpen : r.fds fd with
  | none =>
    refine corr.unchanged (.int (-1)) ?_ (by simp only [Posix.step, isOpen]) trivial
    rw [Symsc.read, if_neg enough, M.bind_run (argAt_run rfl), M.bind_run (corr.getInodeOfFd_free token isOpen)]
    rfl
  | some f =>
    obtain ⟨i, o, stack, mem, found, holds, offset, options, suits⟩ := corr.descriptor isOpen
    have opened : w.st.fdStack.lookup (stripLong fd) = some (.opened f.id) := by rw [token]; exact stack
    cases yes : f.access.reads with
    | false =>
      refine corr.unchanged (.int (-1)) ?_ (by simp [Posix.step, isOpen, yes]) trivial
      rw [Symsc.read, if_neg enough, M.bind_run (argAt_run rfl), M.bind_run (getInodeOfFd_opened opened found)]
      dsimp only
      rw [M.bind_run (getInode_found found), token, M.bind_run (getOpts_run options),
        if_neg (by rw [suits.accmode]; exact Bool.false_ne_true), if_pos (by rw [suits.wronly, yes]; rfl)]
      rfl
    | true =>
      have stepped : r.step (.read fd count) =
          (r.seek fd f (f.offset + (readAt (r.content f.id) f.offset count).length), some (readAt (r.content f.id) f.offset count)) := by
        simp only [Posix.step, isOpen, yes, if_true]
      have start : Symsc.read [fd, buf, n] w = ((do
          if i.size ≤ f.offset then return .int 0
          let count ← placeRead i (stripLong buf) room count f.offset
          modifyState fun s => s.putInode f.id { i with offset := i.offset.insert fd (f.offset + count) }
          return .int count : M Ret) w) := by
        rw [Symsc.read, if_neg enough, M.bind_run (argAt_run rfl), M.bind_run (getInodeOfFd_opened opened found)]
        dsimp only
        rw [M.bind_run (getInode_found found), token, M.bind_run (getOpts_run options),
          if_neg (by rw [suits.accmode]; exact Bool.false_ne_true), if_neg (by rw [suits.wronly, yes]; exact Bool.false_ne_true),
          if_neg (not_not.mpr holds.type), M.bind_run (argAt_run rfl), M.bind_run (getState_apply w), sized]
        dsimp only
        rw [held, if_neg (by simp), M.bind_run (orRaise_run offset), M.bind_run (intAt_run rfl number)]
      by_cases beyond : i.size ≤ f.offset
      · have nothing : readAt (r.content f.id) f.offset count = [] := by
          rw [holds.size] at beyond
          rw [readAt, List.drop_of_length_le (by omega), List.take_nil]
        refine .of_clean (.int 0) w children trivial ?_ ?_ ?_
        · rw [start, if_pos beyond]
          rfl
        · rw [stepped, nothing]
          exact (Posix.seek_self isOpen).symm ▸ corr
        · rw [stepped, nothing]
          exact .inr ⟨rfl, rfl⟩
      · have inside : f.offset ≤ (r.content f.id).length := by
          rw [holds.size] at beyond
          omega
        let bytes := readAt (r.content f.id) f.offset count
        let w₁ : Ctx := { w with st := { w.st with bufData := w.st.bufData.insert (stripLong buf) bytes } }
        let i' : Inode := { i with offset := i.offset.insert fd (f.offset + bytes.length) }
        have mem₁ : w₁.st.mem.get? f.id = some i := mem
        have holds' : Holds i' (r.content f.id) := ⟨holds.type, holds.block, holds.size⟩
        refine .of_clean (.int bytes.length) (w₁.withInode f.id i') children trivial ?_ ?_ ?_
        · rw [start, if_neg beyond, M.bind_run (placeRead_follows holds within inside w), M.bind_run (modifyState_apply _ w₁),
            M.pure_apply, putInode_mem mem₁]
        · have moved := (corr.beside (w.st.bufData.insert (stripLong buf) bytes) w.st.cntRecur).moveFd (n := f.offset + bytes.length) isOpen mem₁ holds'
            (by rw [Int.natCast_add])
          rw [Posix.put_self] at moved
          rw [stepped]
          exact moved
        · rw [stepped]
          exact .inl rfl

theorem pread64_follows (corr : Corr w r children) {data off : Str} {offset : Nat} (token : stripLong fd = fd)
    (held : w.st.bufData.lookup (stripLong buf) = some data) (sized : w.st.bufSize.lookup (stripLong buf) = some room)
    (number : parseInt n = some (count : Int)) (within : count ≤ room) (place : parseInt off = some (offset : Int)) :
    Follows (Symsc.pread64 [fd, buf, n, off]) w r (.pread fd count offset) (stripLong buf) := by
  have enough : ¬ [fd, buf, n, off].length < 4 := by simp
  cases isOpen : r.fds fd with
  | none =>
    refine corr.unchanged (.int (-1)) ?_ (by simp only [Posix.step, isOpen]) trivial
    rw [Symsc.pread64, if_neg enough, M.bind_run (argAt_run rfl), M.bind_run (corr.getInodeOfFd_free token isOpen)]
    rfl
  | some f =>
    obtain ⟨i, o, stack, mem, found, holds, -, options, suits⟩ := corr.descriptor isOpen
    have opened : w.st.fdStack.lookup (stripLong fd) = some (.opened f.id) := by rw [token]; exact stack
    cases yes : f.access.reads with
    | false =>
      refine corr.unchanged (.int (-1)) ?_ (by simp [Posix.step, isOpen, yes]) trivial
      rw [Symsc.pread64, if_neg enough, M.bind_run (argAt_run rfl), M.bind_run (getInodeOfFd_opened opened found)]
      dsimp only
      rw [M.bind_run (getInode_found found), M.bind_run (getOpts_run options),
        if_neg (by rw [suits.accmode]; exact Bool.false_ne_true), if_pos (by rw [suits.wronly, yes]; rfl)]
      rfl
    | true =>
      have stepped : r.step (.pread fd count offset) = (r, some (readAt (r.content f.id) offset count)) := by
        simp only [Posix.step, isOpen, yes, if_true]
      have start : Symsc.pread64 [fd, buf, n, off] w = ((do
          if i.size < offset then return .int 0
          let count ← placeRead i (stripLong buf) room count offset
          return .int count : M Ret) w) := by
        rw [Symsc.pread64, if_neg enough, M.bind_run (argAt_run rfl), M.bind_run (getInodeOfFd_opened opened found)]
        dsimp only
        rw [M.bind_run (getInode_found found), M.bind_run (getOpts_run options),
          if_neg (by rw [suits.accmode]; exact Bool.false_ne_true), if_neg (by rw [suits.wronly, yes]; exact Bool.false_ne_true),
          if_neg (not_not.mpr holds.type), M.bind_run (argAt_run rfl), M.bind_run (getState_apply w), sized]
        dsimp only
        rw [held, if_neg (by simp), M.bind_run (intAt_run rfl place), M.bind_run (intAt_run rfl number)]
      by_cases beyond : i.size < offset
      · have nothing : readAt (r.content f.id) offset count = [] := by
          rw [holds.size] at beyond
          rw [readAt, List.drop_of_length_le (by omega), List.take_nil]
        refine .of_clean (.int 0) w children trivial ?_ ?_ ?_
        · rw [start, if_pos beyond]
          rfl
        · rw [stepped]
          exact corr
        · rw [stepped, nothing]
          exact .inr ⟨rfl, rfl⟩
      · have inside : offset ≤ (r.content f.id).length := by
          rw [holds.size] at beyond
          omega
        let bufData := w.st.bufData.insert (stripLong buf) (readAt (r.content f.id) offset count)
        refine .of_clean (.int (readAt (r.content f.id) offset count).length) { w with st := { w.st with bufData } } children trivial
          ?_ ?_ ?_
        · rw [start, if_neg beyond, M.bind_run (placeRead_follows holds within inside w), M.pure_apply]
        · rw [stepped]
          exact corr.beside bufData w.st.cntRecur
        · rw [stepped]
          exact .inl rfl

end Read

section Lengths

variable {w : Ctx} {r : Posix} {children : List Tup} {fd n slot : Str} {f : OpenFile}

theorem lseek_follows (corr : Corr w r children) {off : Str} {offset k : Int} {whence : Whence} (token : stripLong fd = fd)
    (place : parseInt off = some offset) (number : parseInt n = some k) (known : whenceOf k = some whence)
    (fits : r.Fits (.lseek fd offset whence)) : Follows (Symsc.lseek [fd, off, n]) w r (.lseek fd offset whence) slot := by
  have enough : ¬ [fd, off, n].length < 3 := by simp
  cases isOpen : r.fds fd with
  | none =>
    refine corr.unchanged (.int 1) ?_ (by simp only [Posix.step, isOpen]) trivial
    rw [Symsc.lseek, if_neg enough, M.bind_run (argAt_run rfl), M.bind_run (corr.getInodeOfFd_free token isOpen)]
    rfl
  | some f =>
    obtain ⟨i, o, stack, mem, found, holds, old, -, -⟩ := corr.descriptor isOpen
    have opened : w.st.fdStack.lookup (stripLong fd) = some (.opened f.id) := by rw [token]; exact stack
    have stepped : r.step (.lseek fd offset whence) = (r.seek fd f (r.seekTarget f offset whence).toNat, none) := by
      simp only [Posix.step, isOpen]
    have target : ((r.seekTarget f offset whence).toNat : Int) = r.seekTarget f offset whence :=
      Int.toNat_of_nonneg (fits.1 fd offset whence rfl f isOpen)
    let i' : Inode := { i with offset := i.offset.insert fd (r.seekTarget f offset whence) }
    have holds' : Holds i' (r.content f.id) := ⟨holds.type, holds.block, holds.size⟩
    have moved := corr.moveFd (n := (r.seekTarget f offset whence).toNat) isOpen mem holds' (by rw [target])
    rw [Posix.put_self] at moved
    refine .of_clean .none (w.withInode f.id i') children trivial ?_ ?_ ?_
    · have set (k : Int) : (do
          modifyState fun s => s.putInode f.id { i with offset := i.offset.insert fd k }
          return Ret.none : M Ret) w = some (Ret.none, w.withInode f.id { i with offset := i.offset.insert fd k }) := by
        rw [M.bind_run (modifyState_apply _ w), M.pure_apply, putInode_mem mem]
      rw [Symsc.lseek, if_neg enough, M.bind_run (argAt_run rfl), M.bind_run (getInodeOfFd_opened opened found)]
      dsimp only
      rw [M.bind_run (getInode_found found), token, M.bind_run (orRaise_run old), M.bind_run (intAt_run rfl place),
        M.bind_run (intAt_run rfl number)]
      unfold whenceOf at known
      split at known
      · rename_i zero
        cases known
        rw [zero, if_neg (by decide), if_pos rfl]
        exact set offset
      · split at known
        · rename_i one
          cases known
          rw [one, if_neg (by decide), if_neg (by decide), if_pos rfl]
          exact set (f.offset + offset)
        · split at known
          · rename_i two
            cases known
            rw [two, if_neg (by decide), if_neg (by decide), if_neg (by decide), if_pos rfl]
            have ends : i.size + offset = (r.content f.id).length + offset := by rw [holds.size]
            exact (set (i.size + offset)).trans
              (congrArg (fun k => some (Ret.none, w.withInode f.id { i with offset := i.offset.insert fd k })) ends)
          · cases known
    · rw [stepped]
      exact moved
    · rw [stepped]
      rfl

/-- `setLength` of a file in memory. -/
theorem setLength_follows (corr : Corr w r children) {id length : Nat} (positive : 0 < id) (below : id < r.next)
    (cap : (length : Int) ≤ maxEmulSize) :
    ∃ w', setLength id length w = some ((), w') ∧ w'.st.bufData = w.st.bufData ∧
      (w.st.ZeroTo id length → Corr w' (r.put id (resize zeroChar (r.content id) length)) children) ∧
      (ContentsAgree w'.st (r.put id (resize zeroChar (r.content id) length)) → w.st.ZeroTo id length) := by
  obtain ⟨i, mem, found, holds⟩ := corr.inode positive below
  obtain ⟨b, block, -⟩ := holds.block
  have data := truncateBlock_data b i.size length
  let i' : Inode := { i with size := length, datablock := some (truncateBlock b i.size length) }
  have whole : Whole i' (truncateBlock b i.size length) := ⟨holds.type, rfl, by rw [data, length_resize]⟩
  have zero := holds.resize_eq_iff found block length
  refine ⟨w.withInode id i', ?_, rfl, fun zeroTo => ?_, fun agree => ?_⟩
  · rw [setLength, M.bind_run (checkEmulSize_run cap w), M.bind_run (modifyState_apply _ w), unsync_mem mem,
      M.bind_run (getInode_found found), M.bind_run (getBlock_run block w), modifyState_apply, putInode_mem mem]
  · exact corr.putFile positive below mem (whole.holds (data.trans (zero.mpr zeroTo))) rfl
  · exact zero.mp (data.symm.trans ((agree.block positive below whole).trans (Function.update_self ..)))

theorem ftruncate_follows (corr : Corr w r children) {length : Nat} (token : stripLong fd = fd)
    (number : parseInt n = some (length : Int)) (fits : r.Fits (.ftruncate fd length)) :
    Follows (Symsc.ftruncate [fd, n]) w r (.ftruncate fd length) slot := by
  have enough : ¬ [fd, n].length < 2 := by simp
  cases isOpen : r.fds fd with
  | none =>
    refine corr.unchanged (.int 1) ?_ (by simp only [Posix.step, isOpen]) fun f given => by cases isOpen.symm.trans given
    rw [Symsc.ftruncate, if_neg enough, M.bind_run (argAt_run rfl), M.bind_run (corr.getInodeOfFd_free token isOpen)]
    rfl
  | some f =>
    obtain ⟨i, o, stack, mem, found, holds, -, options, suits⟩ := corr.descriptor isOpen
    have opened : w.st.fdStack.lookup (stripLong fd) = some (.opened f.id) := by rw [token]; exact stack
    cases yes : f.access.writes with
    | false =>
      refine corr.unchanged (.int 1) ?_ (by simp [Posix.step, isOpen, yes]) fun f given writes => by
        cases isOpen.symm.trans given
        cases yes.symm.trans writes
      rw [Symsc.ftruncate, if_neg enough, M.bind_run (argAt_run rfl), M.bind_run (getInodeOfFd_opened opened found)]
      dsimp only
      rw [M.bind_run (getInode_found found), if_neg (not_not.mpr holds.type), M.bind_run (getOpts_run options),
        if_neg (by rw [suits.accmode]; exact Bool.false_ne_true), if_pos (by rw [suits.rdonly, yes]; rfl)]
      rfl
    | true =>
      have stepped : r.step (.ftruncate fd length) = (r.put f.id (resize zeroChar (r.content f.id) length), none) := by
        simp only [Posix.step, isOpen, yes, if_true]
      have cap : (length : Int) ≤ maxEmulSize := by
        have bound : ((resize zeroChar (r.content f.id) length).length : Int) ≤ maxEmulSize :=
          fits.put f.id (by rw [stepped]; exact Function.update_self ..)
        rwa [length_resize] at bound
      have fd := corr.fd fd f isOpen
      obtain ⟨w', ran, kept, follows, converse⟩ := setLength_follows corr fd.positive fd.below cap
      refine ⟨.none, w', ?_, ?_, fun clean => ⟨children, ?_⟩, fun agree g given _ => ?_⟩
      · rw [Symsc.ftruncate, if_neg enough, M.bind_run (argAt_run rfl), M.bind_run (getInodeOfFd_opened opened found)]
        dsimp only
        rw [M.bind_run (getInode_found found), if_neg (not_not.mpr holds.type), M.bind_run (getOpts_run options),
          if_neg (by rw [suits.accmode]; exact Bool.false_ne_true), if_neg (by rw [suits.rdonly, yes]; exact Bool.false_ne_true),
          M.bind_run (intAt_run rfl number), M.bind_run ran, M.pure_apply]
      · rw [stepped]
        exact kept
      · rw [stepped]
        exact follows (clean f isOpen yes)
      · cases isOpen.symm.trans given
        rw [stepped] at agree
        exact converse agree

end Lengths

end DfsFuzz.Symsc
