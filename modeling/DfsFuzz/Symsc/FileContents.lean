import DfsFuzz.Symsc.FlatTree
import DfsFuzz.Symsc.Posix

/-!
How a state of the emulator stands for files with contents: every number below the next one is a file in
memory whose block starts with the content and whose size is its length, and an open descriptor has its
offset in the inode and its options in the dictionary of the class.
-/

namespace DfsFuzz.Symsc

open ByteFile

def NoLinks (s : State) : Prop := ∀ id i, s.inode? id = some i → i.type ≠ .symlink

theorem abspath_eq {path : Str} (given : path ≠ []) : abspath path = some (absolute path) := by
  rw [abspath, if_neg given]
  rfl

theorem absolute_ne_nil (path : Str) : absolute path ≠ [] := by
  rw [absolute]
  split
  · rename_i shape
    intro empty
    rw [empty] at shape
    simp at shape
  · simp

theorem linkAt_none {s : State} (plain : NoLinks s) (path : Str) : s.linkAt path = none := by
  rw [State.linkAt]
  cases s.dentry.get? path with
  | none => rfl
  | some id =>
    rw [Option.bind_some]
    cases found : s.inode? id with
    | none => rfl
    | some i => rw [Option.bind_some, if_neg (plain id i found)]

theorem followLinks_plain {s : State} (plain : NoLinks s) (done comps : List Str) :
    s.followLinks done comps = (done ++ comps, false) := by
  induction comps generalizing done with
  | nil => rw [State.followLinks, List.append_nil]
  | cons comp rest ih =>
    rw [State.followLinks, linkAt_none plain]
    simp only [ih, List.append_assoc, List.singleton_append]

theorem resPath_plain {s : State} (plain : NoLinks s) (room : Nat) {path : Str} (given : path ≠ []) :
    s.resPath room path = some (absolute (absolute path)) := by
  rw [State.resPath, abspath_eq given, Option.bind_some]
  simp only [followLinks_plain plain, Bool.false_eq_true, if_false]
  exact abspath_eq (absolute_ne_nil path)

theorem pathAt_eq_some {s : State} {token path : Str} (found : pathAt s token = some path) :
    ∃ data, s.bufData.lookup (stripLong token) = some data ∧ s.bufSize.lookup (stripLong token) = some data.length ∧
      data ≠ [] ∧ data ≠ [zeroChar] ∧ path = fullPath data ∧ path ≠ ['.'] := by
  obtain ⟨data, buffer, found⟩ := Option.bind_eq_some_iff.mp found
  obtain ⟨data', looked, sized⟩ := Option.bind_eq_some_iff.mp buffer
  obtain ⟨size, same⟩ := Option.ite_none_right_eq_some.mp sized
  cases same
  obtain ⟨proper, same⟩ := Option.ite_none_left_eq_some.mp found
  have same := Option.some.inj same
  rw [not_or, not_or, same] at proper
  exact ⟨data, looked, size, proper.1, proper.2.1, same.symm, proper.2.2⟩

theorem getPath_plain {w : Ctx} {token path : Str} (plain : NoLinks w.st) (found : pathAt w.st token = some path) :
    getPath token w = some (some path, { w with st := { w.st with cntRecur := 0 } }) := by
  obtain ⟨data, looked, size, given, solid, same, -⟩ := pathAt_eq_some found
  have length : data.length ≠ 0 := by simpa using given
  have nul : ¬ (data.length = 0 ∨ data.length = 1 ∧ data = [Char.ofNat 0]) := by
    rintro (empty | ⟨-, zero⟩)
    · exact length empty
    · exact solid zero
  simp only [getPath, M.bind_eq, getState_apply, Option.bind_some, looked, size, if_neg nul, resolvePath,
    resPath_plain plain _ given, orRaise_some, resetRecur, modifyState_apply, M.pure_apply,
    abspath_eq (absolute_ne_nil _)]
  rw [same]
  rfl

/-! ### The files and the descriptors -/

abbrev Ctx.withInode (w : Ctx) (id : Nat) (i : Inode) : Ctx := { w with st := { w.st with mem := w.st.mem.set id i } }

/-- A regular file with the content. The block may have more: a truncating `open` only sets the size. -/
structure Holds (i : Inode) (content : Str) : Prop where
  type : i.type = .file
  block : ∃ b, i.datablock = some b ∧ b.data.take content.length = content
  size : i.size = content.length

/-- The block has the byte behind the end of the file. -/
def State.Stale (s : State) (id k : Nat) (c : Char) : Prop :=
  ∃ i b, s.inode? id = some i ∧ i.datablock = some b ∧ i.size ≤ k ∧ b.data[k]? = some c

/-- A write of `n` bytes at the position covers what the block has behind the end of the file, but for zeros before it. -/
def State.Covers (s : State) (id pos n : Nat) : Prop := ∀ k c, s.Stale id k c → k < pos + n ∧ (k < pos → c = zeroChar)

/-- What the block has behind the end of the file is zeros, up to the length. -/
def State.ZeroTo (s : State) (id length : Nat) : Prop := ∀ k c, s.Stale id k c → k < length → c = zeroChar

theorem zeroTo_same {s s' : State} {id length : Nat} (mem : s'.mem = s.mem) (disk : s'.disk = s.disk) :
    s'.ZeroTo id length ↔ s.ZeroTo id length := by
  simp only [State.ZeroTo, State.Stale, State.inode?, mem, disk]

namespace Holds

variable {s : State} {id : Nat} {i : Inode} {b : DataBlock} {content : Str}

theorem starts (holds : Holds i content) (block : i.datablock = some b) : b.data.take content.length = content := by
  obtain ⟨b', block', starts⟩ := holds.block
  cases block.symm.trans block'
  exact starts

theorem stale_iff (holds : Holds i content) (found : s.inode? id = some i) (block : i.datablock = some b) {k : Nat} {c : Char} :
    s.Stale id k c ↔ content.length ≤ k ∧ b.data[k]? = some c := by
  constructor
  · rintro ⟨j, b', found', block', behind, here⟩
    cases found.symm.trans found'
    cases block.symm.trans block'
    rw [holds.size] at behind
    exact ⟨by exact_mod_cast behind, here⟩
  · rintro ⟨behind, here⟩
    exact ⟨i, b, found, block, by rw [holds.size]; exact_mod_cast behind, here⟩

/-- A write does to the block what it does to the content exactly if it covers what is behind. -/
theorem overwrite_eq_iff (holds : Holds i content) (found : s.inode? id = some i) (block : i.datablock = some b) (pos : Nat)
    (data : Str) : overwrite zeroChar b.data pos data = overwrite zeroChar content pos data ↔ s.Covers id pos data.length := by
  simp only [ByteFile.overwrite_eq_iff zeroChar (holds.starts block), State.Covers, holds.stale_iff found block, and_imp]

theorem resize_eq_iff (holds : Holds i content) (found : s.inode? id = some i) (block : i.datablock = some b) (length : Nat) :
    resize zeroChar b.data length = resize zeroChar content length ↔ s.ZeroTo id length := by
  simp only [ByteFile.resize_eq_iff zeroChar (holds.starts block), State.ZeroTo, holds.stale_iff found block, and_imp]

end Holds

/-- The options are those of the access mode and of `O_APPEND`. -/
structure Suits (o : OpenOpts) (access : Access) (append : Bool) : Prop where
  accmode : o.accmode = false
  append : o.append = append
  wronly : o.wronly = !access.reads
  rdonly : o.rdonly = !access.writes

/-- The descriptor of the variable, as the emulator keeps it. -/
structure HoldsFd (w : Ctx) (next : Nat) (var : Str) (f : OpenFile) : Prop where
  stack : w.st.fdStack.lookup var = some (.opened f.id)
  positive : 0 < f.id
  below : f.id < next
  offset : ∃ i, w.st.mem.get? f.id = some i ∧ i.offset.lookup var = some (f.offset : Int)
  opts : ∃ o, w.optDict.lookup var = some o ∧ Suits o f.access f.append

/-- The root is a directory, and every other number below the next one is a file in memory. -/
structure Files (mem disk : Py.Dict Nat Inode) (content : Nat → Str) (next : Nat) : Prop where
  root : ∃ i, (mem.get? 0).or (disk.get? 0) = some i ∧ i.type = .dir
  file : ∀ id, 0 < id → id < next → disk.get? id = none ∧ ∃ i, mem.get? id = some i ∧ Holds i (content id)
  absent : ∀ id, next ≤ id → mem.get? id = none ∧ disk.get? id = none

theorem Files.set {mem disk : Py.Dict Nat Inode} {content : Nat → Str} {next id : Nat} {i : Inode} {file : Str}
    (files : Files mem disk content next) (positive : 0 < id) (below : id < next) (holds : Holds i file) :
    Files (mem.set id i) disk (Function.update content id file) next where
  root := by
    obtain ⟨i, found, dir⟩ := files.root
    refine ⟨i, ?_, dir⟩
    rw [Py.Dict.get?_set_ne _ (Nat.ne_of_lt positive)]
    exact found
  file other low high := by
    obtain ⟨disk, j, found, holds'⟩ := files.file other low high
    refine ⟨disk, ?_⟩
    by_cases same : other = id
    · subst same
      exact ⟨i, Py.Dict.get?_set_self .., by rw [Function.update_self]; exact holds⟩
    · exact ⟨j, (Py.Dict.get?_set_ne _ same _).trans found, by rw [Function.update_of_ne same]; exact holds'⟩
  absent other high := by
    have same : other ≠ id := Nat.ne_of_gt (Nat.lt_of_lt_of_le below high)
    rw [Py.Dict.get?_set_ne _ same]
    exact files.absent other high

structure Corr (w : Ctx) (r : Posix) (children : List Tup) : Prop where
  flat : FlatNames w.st children
  next : w.st.inodeCnt = r.next
  positive : 0 < r.next
  fresh : ∀ tup ∈ w.st.ft.keys, tup.1 < r.next
  names : ∀ path, path ≠ ['.'] → w.st.dentry.get? path = r.names path
  named : ∀ path id, r.names path = some id → 0 < id ∧ id < r.next
  files : Files w.st.mem w.st.disk r.content r.next
  free : ∀ var, r.fds var = none → w.st.fdStack.lookup var = none ∨ w.st.fdStack.lookup var = some .undefined
  fd : ∀ var f, r.fds var = some f → HoldsFd w r.next var f

namespace Corr

variable {w : Ctx} {r : Posix} {children : List Tup}

theorem inode (corr : Corr w r children) {id : Nat} (positive : 0 < id) (below : id < r.next) :
    ∃ i, w.st.mem.get? id = some i ∧ w.st.inode? id = some i ∧ Holds i (r.content id) := by
  obtain ⟨-, i, found, holds⟩ := corr.files.file id positive below
  exact ⟨i, found, by rw [State.inode?, found]; rfl, holds⟩

theorem root (corr : Corr w r children) : ∃ i, w.st.inode? 0 = some i ∧ i.type = .dir := corr.files.root

theorem absent (corr : Corr w r children) {id : Nat} (above : r.next ≤ id) : w.st.inode? id = none := by
  obtain ⟨mem, disk⟩ := corr.files.absent id above
  rw [State.inode?, mem, disk]
  rfl

theorem noLinks (corr : Corr w r children) : NoLinks w.st := by
  intro id i found
  rcases Nat.eq_zero_or_pos id with rfl | positive
  · obtain ⟨root, here, dir⟩ := corr.root
    cases here.symm.trans found
    rw [dir]
    decide
  · rcases Nat.lt_or_ge id r.next with below | above
    · obtain ⟨j, -, here, holds⟩ := corr.inode positive below
      cases here.symm.trans found
      rw [holds.type]
      decide
    · rw [corr.absent above] at found
      cases found

theorem descriptor (corr : Corr w r children) {var : Str} {f : OpenFile} (isOpen : r.fds var = some f) :
    ∃ i o, w.st.fdStack.lookup var = some (.opened f.id) ∧ w.st.mem.get? f.id = some i ∧ w.st.inode? f.id = some i ∧
      Holds i (r.content f.id) ∧ i.offset.lookup var = some (f.offset : Int) ∧ w.optDict.lookup var = some o ∧
      Suits o f.access f.append := by
  have fd := corr.fd var f isOpen
  obtain ⟨i, found, inode, holds⟩ := corr.inode fd.positive fd.below
  obtain ⟨j, same, offset⟩ := fd.offset
  cases found.symm.trans same
  obtain ⟨o, options, suits⟩ := fd.opts
  exact ⟨i, o, fd.stack, found, inode, holds, offset, options, suits⟩

/-- One inode is changed, with its content and the offsets of the descriptors on it. -/
theorem setFile (corr : Corr w r children) {id : Nat} {i' : Inode} {content : Str} {fds : Str → Option OpenFile}
    (positive : 0 < id) (below : id < r.next) (holds : Holds i' content)
    (kept : ∀ v f', fds v = some f' → ∃ f, r.fds v = some f ∧ f'.id = f.id ∧ f'.access = f.access ∧ f'.append = f.append ∧
      (f'.id ≠ id → f'.offset = f.offset) ∧ (f'.id = id → i'.offset.lookup v = some (f'.offset : Int)))
    (closed : ∀ v, fds v = none → r.fds v = none) :
    Corr (w.withInode id i')
      { r with content := Function.update r.content id content, fds := fds } children where
  flat := ⟨corr.flat.noNone, corr.flat.root, corr.flat.entry, corr.flat.tree⟩
  next := corr.next
  positive := corr.positive
  fresh := corr.fresh
  names := corr.names
  named := corr.named
  files := corr.files.set positive below holds
  free v none := corr.free v (closed v none)
  fd v f' isOpen := by
    obtain ⟨f, before, sameId, access, append, elsewhere, here⟩ := kept v f' isOpen
    have fd := corr.fd v f before
    refine ⟨sameId ▸ fd.stack, sameId ▸ fd.positive, sameId ▸ fd.below, ?_, access ▸ append ▸ fd.opts⟩
    by_cases same : f'.id = id
    · exact ⟨i', by rw [same]; exact Py.Dict.get?_set_self .., here same⟩
    · obtain ⟨i, found, offset⟩ := fd.offset
      refine ⟨i, ?_, by rw [elsewhere same]; exact offset⟩
      rw [Py.Dict.get?_set_ne _ same, sameId]
      exact found

theorem putFile (corr : Corr w r children) {id : Nat} {i i' : Inode} {content : Str} (positive : 0 < id) (below : id < r.next)
    (before : w.st.mem.get? id = some i) (holds : Holds i' content) (offsets : i'.offset = i.offset) :
    Corr (w.withInode id i') (r.put id content) children := by
  refine corr.setFile positive below holds (fun v f isOpen => ⟨f, isOpen, rfl, rfl, rfl, fun _ => rfl, fun same => ?_⟩)
    fun v none => none
  obtain ⟨j, found, offset⟩ := (corr.fd v f isOpen).offset
  rw [same] at found
  cases before.symm.trans found
  rw [offsets, offset]

theorem moveFd (corr : Corr w r children) {var : Str} {f : OpenFile} {i i' : Inode} {content : Str} {n : Nat}
    (isOpen : r.fds var = some f) (before : w.st.mem.get? f.id = some i) (holds : Holds i' content)
    (offsets : i'.offset = i.offset.insert var (n : Int)) :
    Corr (w.withInode f.id i') ((r.put f.id content).seek var f n) children := by
  have fd := corr.fd var f isOpen
  refine corr.setFile fd.positive fd.below holds (fun v f' moved => ?_) fun v none => ?_
  · by_cases same : v = var
    · subst same
      rw [Function.update_self] at moved
      cases moved
      exact ⟨f, isOpen, rfl, rfl, rfl, fun other => absurd rfl other, fun _ => by rw [offsets, AList.lookup_insert]⟩
    · rw [Function.update_of_ne same] at moved
      refine ⟨f', moved, rfl, rfl, rfl, fun _ => rfl, fun on => ?_⟩
      obtain ⟨j, found, offset⟩ := (corr.fd v f' moved).offset
      rw [on] at found
      cases before.symm.trans found
      rw [offsets, AList.lookup_insert_ne same, offset]
  · by_cases same : v = var
    · subst same
      rw [Function.update_self] at none
      cases none
    · rw [Function.update_of_ne same] at none
      exact none

end Corr

theorem sliceTo_nat (s : Str) (n : Nat) : sliceTo s (n : Int) = s.take n := by
  rw [sliceTo, if_pos (by omega)]
  rfl

theorem sliceFrom_nat (s : Str) (n : Nat) : sliceFrom s (n : Int) = s.drop n := by
  rw [sliceFrom, sliceIndex, if_neg (by omega), Int.toNat_natCast]
  rcases Nat.le_total n s.length with within | beyond
  · rw [Nat.min_eq_left within]
  · rw [Nat.min_eq_right beyond, List.drop_of_length_le beyond, List.drop_length]

theorem slice_nat (s : Str) (a b : Nat) : slice s (a : Int) (b : Int) = (s.take b).drop a := by
  have bound : sliceIndex (b : Int) s.length = min b s.length := by
    rw [sliceIndex, if_neg (by omega), Int.toNat_natCast]
  have start : sliceIndex (a : Int) s.length = min a s.length := by
    rw [sliceIndex, if_neg (by omega), Int.toNat_natCast]
  rw [slice, bound, start]
  have cut : s.take (min b s.length) = s.take b := by
    rcases Nat.le_total b s.length with within | beyond
    · rw [Nat.min_eq_left within]
    · rw [Nat.min_eq_right beyond, List.take_length, List.take_of_length_le beyond]
  rw [cut]
  rcases Nat.le_total a s.length with within | beyond
  · rw [Nat.min_eq_left within]
  · rw [Nat.min_eq_right beyond, List.drop_of_length_le (by simp), List.drop_of_length_le (by simp; omega)]

/-- A write of the first `n` bytes of a buffer overwrites the data at the offset. -/
theorem writeBlock_data {b : DataBlock} {data : Str} {n offset : Nat} (within : n ≤ data.length) :
    (writeBlock b data data.length n offset).data = overwrite zeroChar b.data offset (data.take n) := by
  have noGarbage : zeros ((n : Int) - data.length) = [] := by
    rw [zeros, Int.toNat_of_nonpos (by omega)]
    rfl
  have after : sliceFrom b.data ((offset : Int) + n) = b.data.drop (offset + n) := sliceFrom_nat b.data (offset + n)
  have length : (data.take n).length = n := by simp [within]
  simp only [writeBlock, noGarbage, after, sliceTo_nat, List.append_nil, overwrite, resize, length]
  split
  · rename_i beyond
    have gap : zeros ((offset : Int) - b.data.length) = List.replicate (offset - b.data.length) zeroChar := by
      rw [zeros]
      congr 1
      omega
    rw [gap, List.drop_of_length_le (show b.data.length ≤ offset + n by omega), List.append_nil, List.append_assoc]
  · rename_i inside
    rw [show offset - b.data.length = 0 by omega, List.replicate_zero, List.append_nil, List.append_assoc]

theorem truncateBlock_data (b : DataBlock) (old : Int) (length : Nat) :
    (truncateBlock b old length).data = resize zeroChar b.data length := by
  rw [truncateBlock]
  split
  · rename_i shorter
    rw [sliceTo_nat, resize, show length - b.data.length = 0 by omega, List.replicate_zero, List.append_nil]
  · rename_i longer
    have gap : zeros ((length : Int) - b.data.length) = List.replicate (length - b.data.length) zeroChar := by
      rw [zeros]
      congr 1
      omega
    rw [resize, List.take_of_length_le (by omega), gap]

end DfsFuzz.Symsc
