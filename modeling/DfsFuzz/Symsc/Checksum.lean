import DfsFuzz.Lib.Effects
import DfsFuzz.Lib.StreamSum
import DfsFuzz.Symsc.FileContents
import DfsFuzz.Symsc.RoundTrip

/-!
The contents that the checker compares (`checker.py`): the checksum of a file in the snapshot, and that of
what a call read. The emulator has a byte as a character of a string, and the string is encoded before it is
summed up.
-/

namespace DfsFuzz.Symsc

open ByteFile

/-- `data.encode()` -/
def encode (data : Str) : List UInt8 := data.flatMap String.utf8EncodeChar

def feedZeros (crc : StreamSum) (chunk pad : Nat) (sum : UInt32) : UInt32 :=
  if 0 < min pad chunk then feedZeros crc chunk (pad - min pad chunk) (crc.run (List.replicate (min pad chunk) 0) sum)
  else sum
termination_by pad

/-- `check_data` -/
def checkData (crc : StreamSum) (i : Inode) (entry : List Str) : Option Int := do
  if i.isInit then return 0
  let ftype ← entry[1]?
  if ftype ≠ ['1'] then return 0
  if maxEmulSize < i.size then return 0
  let block ← i.datablock
  if maxEmulSize < block.data.length then return 0
  let data := crc.of (encode block.data)
  let pad := (i.size - block.data.length).toNat
  let crcEmul := if 0 < pad then feedZeros crc (min pad (2 ^ 20)) pad data else data
  let crcCrash ← (entry[8]?).elim (some 0) parseInt
  return if (crcEmul.toNat : Int) ≠ crcCrash then 1 else 0

/-- Whether the descriptor refers to a file of the initial tree. -/
def State.fdIsInit (s : State) (fd : Str) : Bool :=
  match s.fdStack.lookup (stripLong fd) with
  | some (.opened id) => ((s.inode? id).map Inode.isInit).getD false
  | _ => false

/-- The branch of `state_check` for `read`, `readlink` and `pread64`. -/
def stateCheckRead (crc : StreamSum) (retval : Int) (s : State) (argv : List Str) (checksum : Int) : Option Bool := do
  let fd ← argv[0]?
  if s.fdIsInit fd then return true
  if retval = -1 ∨ (retval = 0 ∧ checksum = 0) then return true
  let token ← argv[1]?
  let data ← s.bufData.lookup (stripLong token)
  return decide (((crc.of (encode (sliceTo data retval))).toNat : Int) = checksum)

/-! ### Characters as bytes -/

def bytesOf (data : Str) : List UInt8 := data.map fun c => UInt8.ofNat c.toNat

def IsBytes (data : Str) : Prop := ∀ c ∈ data, c.toNat < 256

def IsAscii (data : Str) : Prop := ∀ c ∈ data, c.toNat < 128

variable {data : Str}

theorem isBytes_of_all (all : data.all (fun c => c.toNat < 256) = true) : IsBytes data := fun c member =>
  of_decide_eq_true (List.all_eq_true.mp all c member)

theorem isAscii_of_all (all : data.all (fun c => c.toNat < 128) = true) : IsAscii data := fun c member =>
  of_decide_eq_true (List.all_eq_true.mp all c member)

def isHigh (b : UInt8) : Bool := 128 ≤ b.toNat

variable {n : Nat}

theorem isHigh_ofNat (byte : n < 256) : isHigh (UInt8.ofNat n) = decide (128 ≤ n) := by
  rw [isHigh, UInt8.toNat_ofNat_of_lt' byte]

theorem utf8EncodeChar_ascii {c : Char} (low : c.toNat < 128) : String.utf8EncodeChar c = [UInt8.ofNat c.toNat] := by
  rw [String.utf8EncodeChar]
  exact if_pos (Nat.le_of_lt_succ low)

theorem countP_utf8EncodeChar {c : Char} (byte : c.toNat < 256) :
    (String.utf8EncodeChar c).countP isHigh = 2 * [UInt8.ofNat c.toNat].countP isHigh := by
  rcases Nat.lt_or_ge c.toNat 128 with low | high
  · have plain : isHigh (UInt8.ofNat c.toNat) = false := by
      rw [isHigh_ofNat byte]
      exact decide_eq_false (by omega)
    rw [utf8EncodeChar_ascii low, List.countP_singleton, plain]
    rfl
  · have pair : String.utf8EncodeChar c = [UInt8.ofNat (c.toNat / 64 % 32 + 192), UInt8.ofNat (c.toNat % 64 + 128)] := by
      rw [String.utf8EncodeChar]
      exact (if_neg (show ¬ c.toNat ≤ 127 by omega)).trans (if_pos (show c.toNat ≤ 2047 by omega))
    have all : isHigh (UInt8.ofNat (c.toNat / 64 % 32 + 192)) ∧ isHigh (UInt8.ofNat (c.toNat % 64 + 128)) ∧
        isHigh (UInt8.ofNat c.toNat) := by
      rw [isHigh_ofNat (by omega), isHigh_ofNat (by omega), isHigh_ofNat byte]
      exact ⟨decide_eq_true (by omega), decide_eq_true (by omega), decide_eq_true high⟩
    rw [pair, List.countP_cons_of_pos all.1, List.countP_cons_of_pos all.2.1, List.countP_cons_of_pos all.2.2]
    rfl

theorem encode_ascii (low : IsAscii data) : encode data = bytesOf data := by
  induction data with
  | nil => rfl
  | cons c data ih =>
    rw [encode, List.flatMap_cons, utf8EncodeChar_ascii (low c List.mem_cons_self), bytesOf, List.map_cons,
      List.singleton_append]
    exact congrArg _ (ih fun d member => low d (List.mem_cons_of_mem c member))

theorem countP_encode (bytes : IsBytes data) : (encode data).countP isHigh = 2 * (bytesOf data).countP isHigh := by
  induction data with
  | nil => rfl
  | cons c data ih =>
    have rest := ih fun d member => bytes d (List.mem_cons_of_mem c member)
    rw [encode, List.flatMap_cons, List.countP_append, countP_utf8EncodeChar (bytes c List.mem_cons_self)]
    rw [encode] at rest
    rw [rest, ← Nat.mul_add, ← List.countP_append]
    rfl

theorem isAscii_iff (bytes : IsBytes data) : IsAscii data ↔ (bytesOf data).countP isHigh = 0 := by
  rw [bytesOf, List.countP_map, List.countP_eq_zero]
  refine forall₂_congr fun c member => ?_
  rw [Function.comp_apply, isHigh_ofNat (bytes c member), decide_eq_true_iff]
  omega

/-- An encoded string is its bytes with zeros exactly where no character is above 127. -/
theorem encode_eq_iff (bytes : IsBytes data) (a b : Nat) :
    encode data ++ List.replicate a 0 = bytesOf data ++ List.replicate b 0 ↔ IsAscii data ∧ a = b := by
  constructor
  · intro same
    have zeros (k : Nat) : (List.replicate k (0 : UInt8)).countP isHigh = 0 := by
      rw [List.countP_replicate]
      rfl
    have counts := congrArg (List.countP isHigh) same
    rw [List.countP_append, List.countP_append, zeros, zeros, countP_encode bytes] at counts
    have low : IsAscii data := (isAscii_iff bytes).mpr (by omega)
    rw [encode_ascii low] at same
    have lengths := congrArg List.length same
    rw [List.length_append, List.length_append, List.length_replicate, List.length_replicate] at lengths
    exact ⟨low, by omega⟩
  · rintro ⟨low, rfl⟩
    rw [encode_ascii low]

/-! ### The checksum of a file -/

theorem feedZeros_of (crc : StreamSum) {chunk : Nat} (positive : 0 < chunk) (pad : Nat) (x : List UInt8) :
    feedZeros crc chunk pad (crc.of x) = crc.of (x ++ List.replicate pad 0) := by
  induction pad using Nat.strong_induction_on generalizing x with
  | _ pad ih =>
    rw [feedZeros]
    split
    · rename_i more
      rw [StreamSum.of, ← crc.append, ← StreamSum.of, ih _ (by omega), List.append_assoc, List.replicate_append_replicate]
      congr 3
      omega
    · rename_i done
      obtain rfl : pad = 0 := by omega
      rw [List.replicate_zero, List.append_nil]

/-- A regular file that was made in the run, with the block of its content. -/
structure CreatedFile (i : Inode) (b : DataBlock) : Prop where
  created : i.isInit = false
  type : i.type = .file
  block : i.datablock = some b
  bytes : IsBytes b.data
  sized : 0 ≤ i.size
  capped : i.size ≤ maxEmulSize

def fileBytes (i : Inode) (b : DataBlock) : List UInt8 := resize 0 (bytesOf b.data) i.size.toNat

/-- An entry of the snapshot for a regular file with a checksum. -/
structure FileEntry (entry : List Str) (checksum : Int) : Prop where
  regular : entry[1]? = some ['1']
  sum : entry[8]?.bind parseInt = some checksum

/-- What `check_data` sums up. -/
def summedBytes (i : Inode) (b : DataBlock) : List UInt8 :=
  encode b.data ++ List.replicate (i.size - b.data.length).toNat 0

variable {i : Inode} {b : DataBlock}

theorem checkData_created (file : CreatedFile i b) (crc : StreamSum) {entry : List Str} {checksum : Int}
    (given : FileEntry entry checksum) :
    checkData crc i entry = some (if (b.data.length : Int) ≤ maxEmulSize ∧ ((crc.of (summedBytes i b)).toNat : Int) ≠ checksum
      then 1 else 0) := by
  have summed : (if 0 < (i.size - b.data.length).toNat then
      feedZeros crc (min (i.size - b.data.length).toNat (2 ^ 20)) (i.size - b.data.length).toNat (crc.of (encode b.data))
      else crc.of (encode b.data)) = crc.of (summedBytes i b) := by
    split
    · rename_i pad
      exact feedZeros_of crc (by omega) _ _
    · rename_i none
      rw [summedBytes, show (i.size - b.data.length).toNat = 0 by omega, List.replicate_zero, List.append_nil]
  obtain ⟨text, field, number⟩ := Option.bind_eq_some_iff.mp given.sum
  rw [checkData, file.created, given.regular, file.block, field, if_neg Bool.false_ne_true]
  simp only [bind, pure, Option.bind_some, Option.elim_some, number]
  rw [summed, if_neg (not_not.mpr rfl), if_neg (not_lt.mpr file.capped)]
  by_cases large : maxEmulSize < (b.data.length : Int)
  · rw [if_pos large, if_neg fun both => absurd both.1 (not_le.mpr large)]
  · rw [if_neg large]
    simp only [not_lt.mp large, true_and]

/-- The check passes exactly for the checksum of the content. -/
def DataChecked (i : Inode) (b : DataBlock) : Prop :=
  ∀ (crc : StreamSum) (entry : List Str) (checksum : Int), FileEntry entry checksum →
    (checkData crc i entry = some 0 ↔ checksum = (crc.of (fileBytes i b)).toNat)

theorem isDigit_not_space {c : Char} (digit : c.isDigit = true) : Py.isSpace c = false := by
  have bounds : 48 ≤ c.toNat ∧ c.toNat ≤ 57 := by
    simpa [Char.isDigit, UInt32.le_iff_toNat_le] using digit
  simp only [Py.isSpace, Bool.or_eq_false_iff, Bool.and_eq_false_iff, decide_eq_false_iff_not, beq_eq_false_iff_ne]
  omega

theorem parseInt_decimal (n : Nat) : parseInt (decimal n) = some (n : Int) := by
  have plain : Py.strip (decimal n) = decimal n :=
    Py.strip_eq (fun c head => isDigit_not_space (decimal_isDigit (List.mem_of_mem_head? head)))
      fun c last => isDigit_not_space (decimal_isDigit (List.mem_of_mem_getLast? last))
  have groups : digitGroups (decimal n) = some n := by
    rw [digitGroups, Py.split_free List.mem_cons_self (not_mem_decimal (by decide))]
    have digits : (decimal n).all Char.isDigit = true := List.all_eq_true.mpr fun c member => decimal_isDigit member
    have number : Nat.ofDigitChars 10 (decimal n) 0 = n := Nat.ofDigitChars_ten_toDigits
    simp [digits, number, decimal_ne_nil]
  rw [parseInt, plain]
  split
  · rename_i t minus
    exact absurd (minus ▸ List.mem_cons_self) (not_mem_decimal (n := n) (c := '-') (by decide))
  · rename_i t plus
    exact absurd (plus ▸ List.mem_cons_self) (not_mem_decimal (n := n) (c := '+') (by decide))
  · rw [groups]
    rfl

/-- An entry for a regular file with the checksum. -/
def checksumEntry (n : Nat) : List Str := [[], ['1'], [], [], [], [], [], [], decimal n]

theorem fileEntry_checksum (n : Nat) : FileEntry (checksumEntry n) n := ⟨rfl, parseInt_decimal n⟩

theorem length_encode (data : Str) : data.length ≤ (encode data).length ∧ (encode data).length ≤ 4 * data.length := by
  induction data with
  | nil => exact ⟨le_rfl, le_rfl⟩
  | cons c data ih =>
    have most := Char.utf8Size_le_four c
    have least := Char.utf8Size_pos c
    rw [encode] at ih
    rw [encode, List.flatMap_cons, List.length_append, String.length_utf8EncodeChar, List.length_cons]
    omega

theorem summedBytes_eq_iff (file : CreatedFile i b) :
    summedBytes i b = fileBytes i b ↔ IsAscii b.data ∧ (b.data.length : Int) ≤ i.size := by
  have sized := file.sized
  rcases le_or_gt (b.data.length : Int) i.size with within | beyond
  · have whole : fileBytes i b = bytesOf b.data ++ List.replicate (i.size - b.data.length).toNat 0 := by
      rw [fileBytes, resize, bytesOf, List.length_map, List.take_of_length_le (by rw [List.length_map]; omega)]
      congr 2
      omega
    rw [summedBytes, whole, encode_eq_iff file.bytes]
    exact and_congr_right fun _ => iff_of_true rfl within
  · refine iff_of_false (fun same => ?_) fun both => absurd both.2 (not_le.mpr beyond)
    have lengths := congrArg List.length same
    have encoded := (length_encode b.data).1
    rw [summedBytes, fileBytes, length_resize, List.length_append, List.length_replicate] at lengths
    omega

theorem dataChecked_iff (file : CreatedFile i b) :
    DataChecked i b ↔ IsAscii b.data ∧ (b.data.length : Int) ≤ i.size := by
  rw [← summedBytes_eq_iff file]
  constructor
  · intro checked
    -- a file above the cap passes with any checksum
    have small : (b.data.length : Int) ≤ maxEmulSize := by
      by_contra large
      have given := fileEntry_checksum ((StreamSum.crc32.of (fileBytes i b)).toNat + 1)
      have passes := checkData_created file StreamSum.crc32 given
      rw [if_neg fun both => large both.1] at passes
      have := (checked StreamSum.crc32 _ _ given).mp passes
      omega
    have sums (crc : StreamSum) : crc.of (summedBytes i b) = crc.of (fileBytes i b) := by
      have given := fileEntry_checksum (crc.of (summedBytes i b)).toNat
      have passes := checkData_created file crc given
      rw [if_neg fun both => both.2 rfl] at passes
      have same := (checked crc _ _ given).mp passes
      exact UInt32.toNat_inj.mp (by exact_mod_cast same)
    have encoded := (length_encode b.data).2
    have sized := file.sized
    have capped := file.capped
    rw [maxEmulSize] at small capped
    refine StreamSum.eq_of_sums ?_ ?_ sums
    · rw [summedBytes, List.length_append, List.length_replicate]
      omega
    · rw [fileBytes, length_resize]
      omega
  · intro same crc entry checksum given
    have within := ((summedBytes_eq_iff file).mp same).2
    have small := within.trans file.capped
    rw [checkData_created file crc given, same]
    by_cases equal : ((crc.of (fileBytes i b)).toNat : Int) = checksum
    · rw [if_neg fun both => both.2 equal]
      exact iff_of_true rfl equal.symm
    · rw [if_pos ⟨small, equal⟩]
      exact iff_of_false (by decide) fun other => equal other.symm

/-! ### The checksum of what was read -/

/-- A call that read `n` bytes of an open file from a position. -/
inductive ReadCall (w : Ctx) (fd token count : Str) (rest : List Str) (i : Inode) (pos n : Nat) (w' : Ctx) : Prop where
  | read (run : Symsc.read (fd :: token :: count :: rest) w = some (.int n, w'))
      (offset : i.offset.lookup (stripLong fd) = some (pos : Int))
  | pread64 (run : Symsc.pread64 (fd :: token :: count :: rest) w = some (.int n, w'))
      (offset : rest.head?.bind parseInt = some (pos : Int))

/-- What a successful read of a file leaves for the check. -/
structure ReadResult (token fd : Str) (i : Inode) (b : DataBlock) (pos n : Nat) (w' : Ctx) : Prop where
  within : (pos : Int) + n ≤ i.size
  stored : w'.st.bufData.lookup (stripLong token) = some (slice b.data pos (pos + n))
  created : w'.st.fdIsInit fd = false

theorem placeRead_run (block : i.datablock = some b) (buf : Str) (bufSize nbyte offset : Int) (w : Ctx) :
    ∃ count ≤ i.size - offset, placeRead i buf bufSize nbyte offset w = some (count,
      { w with st := { w.st with bufData := w.st.bufData.insert buf (slice b.data offset (offset + count)) } }) := by
  refine ⟨min (min nbyte (i.size - offset)) bufSize, ?_, ?_⟩
  · omega
  · rw [placeRead, getBlock, block]
    rfl

variable {w' : Ctx}

theorem pure_run {r r' : Ret} {w : Ctx} (run : (pure r : M Ret) w = some (r', w')) : r = r' ∧ w = w' := by
  cases run
  exact ⟨rfl, rfl⟩

theorem not_returned {k : Int} {w : Ctx} (low : k < n) : ¬ (pure (.int k) : M Ret) w = some (.int n, w') := by
  intro run
  have same := (pure_run run).1
  rw [Ret.int.injEq] at same
  omega

variable {token : Str}

/-- The checks that `read` and `pread64` share are passed by a call that returns a positive number. -/
theorem past_checks {argv : List Str} {opts : OpenOpts} {f : Str → Nat → M Ret} {w : Ctx}
    (given : argv[1]? = some token) (file : i.type = .file)
    (run : (if opts.accmode = true then pure (.int (-1)) else if opts.wronly = true then pure (.int (-1))
      else if i.type ≠ .file then pure (.int (-1)) else do
        let buf ← argAt argv 1
        let s ← getState
        let some bufSize := s.bufSize.lookup (stripLong buf) | return .int (-1)
        if (s.bufData.lookup (stripLong buf)).isNone = true then return .int (-1)
        f buf bufSize : M Ret) w = some (.int n, w')) : ∃ bufSize, f token bufSize w = some (.int n, w') := by
  split at run
  · exact absurd run (not_returned (by omega))
  split at run
  · exact absurd run (not_returned (by omega))
  rw [if_neg (not_not.mpr file), M.bind_run (argAt_run given), M.bind_run (getState_apply w)] at run
  cases sized : w.st.bufSize.lookup (stripLong token) with
  | none =>
    rw [sized] at run
    exact absurd run (not_returned (by omega))
  | some bufSize =>
    rw [sized] at run
    dsimp only at run
    split at run
    · exact absurd run (not_returned (by omega))
    · exact ⟨bufSize, run⟩

theorem fdIsInit_opened {s : State} {fd : Str} {id : Nat}
    (opened : s.fdStack.lookup (stripLong fd) = some (.opened id)) (found : s.inode? id = some i) :
    s.fdIsInit fd = i.isInit := by
  rw [State.fdIsInit, opened]
  dsimp only
  rw [found]
  rfl

theorem putInode_inode? (s : State) (id : Nat) (i : Inode) : (s.putInode id i).inode? id = some i := by
  rw [State.putInode]
  split
  · rw [State.inode?, Py.Dict.get?_set_self]
    rfl
  · rename_i absent
    have none : s.mem.get? id = none := Option.not_isSome_iff_eq_none.mp absent
    rw [State.inode?, none, Py.Dict.get?_set_self]
    rfl

theorem putInode_frame (s : State) (id : Nat) (i : Inode) :
    (s.putInode id i).bufData = s.bufData ∧ (s.putInode id i).fdStack = s.fdStack := by
  rw [State.putInode]
  split
  · exact ⟨rfl, rfl⟩
  · exact ⟨rfl, rfl⟩

theorem readCall_result {w : Ctx} {fd count : Str} {rest : List Str} {id : Nat} {pos : Nat}
    (opened : w.st.fdStack.lookup (stripLong fd) = some (.opened id)) (found : w.st.inode? id = some i)
    (file : CreatedFile i b) (positive : 0 < n) (call : ReadCall w fd token count rest i pos n w') :
    ReadResult token fd i b pos n w' := by
  cases call with
  | read run offset =>
    have enough : ¬ (fd :: token :: count :: rest).length < 3 := by simp
    rw [Symsc.read, if_neg enough, M.bind_run (argAt_run rfl), M.bind_run (getInodeOfFd_opened opened found)] at run
    dsimp only at run
    rw [M.bind_run (getInode_found found)] at run
    obtain ⟨opts, w₁, got, run⟩ := Effects.bind_eq_some.mp run
    obtain rfl := getOpts_eq got
    obtain ⟨bufSize, run⟩ := past_checks rfl file.type run
    rw [M.bind_run (orRaise_run offset)] at run
    obtain ⟨nbyte, w₂, number, run⟩ := Effects.bind_eq_some.mp run
    obtain ⟨_, -, same⟩ := Option.map_eq_some_iff.mp number
    cases same
    split at run
    · exact absurd run (not_returned (by omega))
    · obtain ⟨k, bound, placed⟩ := placeRead_run file.block (stripLong token) bufSize nbyte pos w
      rw [M.bind_run placed, M.bind_run (modifyState_apply _ _)] at run
      obtain ⟨same, state⟩ := pure_run run
      cases same
      rw [← state]
      have kept (s : State) (j : Inode) := putInode_frame s id j
      refine ⟨by omega, ?_, ?_⟩
      · rw [(kept _ _).1]
        exact AList.lookup_insert _
      · rw [fdIsInit_opened (i := { i with offset := i.offset.insert (stripLong fd) (pos + n) })]
        · exact file.created
        · rw [(kept _ _).2]
          exact opened
        · exact putInode_inode? _ _ _
  | pread64 run offset =>
    obtain ⟨position, rest, rfl⟩ : ∃ position rest', rest = position :: rest' := by
      cases rest with
      | nil => cases offset
      | cons position rest => exact ⟨position, rest, rfl⟩
    have enough : ¬ (fd :: token :: count :: position :: rest).length < 4 := by simp
    rw [Symsc.pread64, if_neg enough, M.bind_run (argAt_run rfl), M.bind_run (getInodeOfFd_opened opened found)] at run
    dsimp only at run
    rw [M.bind_run (getInode_found found)] at run
    obtain ⟨opts, w₁, got, run⟩ := Effects.bind_eq_some.mp run
    obtain rfl := getOpts_eq got
    obtain ⟨bufSize, run⟩ := past_checks rfl file.type run
    rw [M.bind_run (intAt_run rfl offset)] at run
    obtain ⟨nbyte, w₂, number, run⟩ := Effects.bind_eq_some.mp run
    obtain ⟨_, -, same⟩ := Option.map_eq_some_iff.mp number
    cases same
    split at run
    · exact absurd run (not_returned (by omega))
    · obtain ⟨k, bound, placed⟩ := placeRead_run file.block (stripLong token) bufSize nbyte pos w
      rw [M.bind_run placed] at run
      obtain ⟨same, state⟩ := pure_run run
      cases same
      rw [← state]
      exact ⟨by omega, AList.lookup_insert _, (fdIsInit_opened opened found).trans file.created⟩

/-- The check passes exactly for the checksum of the bytes at the position. -/
def ReadChecked (argv : List Str) (i : Inode) (b : DataBlock) (pos n : Nat) (w' : Ctx) : Prop :=
  ∀ (crc : StreamSum) (checksum : Int),
    stateCheckRead crc n w'.st argv checksum = some true ↔ checksum = (crc.of (readAt (fileBytes i b) pos n)).toNat

theorem stateCheckRead_result {fd count : Str} {rest : List Str} {pos : Nat}
    (result : ReadResult token fd i b pos n w') (positive : 0 < n) (crc : StreamSum) (checksum : Int) :
    stateCheckRead crc n w'.st (fd :: token :: count :: rest) checksum = some true ↔
      checksum = (crc.of (encode (readAt b.data pos n))).toNat := by
  have data : slice b.data pos (pos + n) = readAt b.data pos n :=
    (slice_nat b.data pos (pos + n)).trans (by rw [readAt, List.drop_take, Nat.add_sub_cancel_left])
  have whole : sliceTo (readAt b.data pos n) n = readAt b.data pos n := by
    rw [sliceTo_nat]
    exact List.take_of_length_le (by rw [length_readAt]; omega)
  have compared : ¬ ((n : Int) = -1 ∨ ((n : Int) = 0 ∧ checksum = 0)) := by omega
  have stored := result.stored
  rw [data] at stored
  simp only [stateCheckRead, bind, pure, List.getElem?_cons_zero, List.getElem?_cons_succ, Option.bind_some, result.created,
    Bool.false_eq_true, if_false, if_neg compared, stored, whole, Option.some.injEq, decide_eq_true_eq]
  exact eq_comm

theorem readAt_fileBytes {pos : Nat} (within : (pos : Int) + n ≤ i.size) :
    readAt (fileBytes i b) pos n = bytesOf (readAt b.data pos n) ++ List.replicate (n - (readAt b.data pos n).length) 0 := by
  have piece : readAt (bytesOf b.data) pos n = bytesOf (readAt b.data pos n) := by
    rw [readAt, readAt, bytesOf, bytesOf, List.map_take, List.map_drop]
  rw [fileBytes, readAt_resize 0 (by omega), piece, bytesOf, List.length_map]

theorem readChecked_iff {w : Ctx} {fd count : Str} {rest : List Str} {id : Nat} {pos : Nat}
    (opened : w.st.fdStack.lookup (stripLong fd) = some (.opened id)) (found : w.st.inode? id = some i)
    (file : CreatedFile i b) (positive : 0 < n) (call : ReadCall w fd token count rest i pos n w') :
    ReadChecked (fd :: token :: count :: rest) i b pos n w' ↔ IsAscii (readAt b.data pos n) ∧ pos + n ≤ b.data.length := by
  have result := readCall_result opened found file positive call
  have bytes : IsBytes (readAt b.data pos n) := fun c member =>
    file.bytes c (List.mem_of_mem_drop (List.mem_of_mem_take member))
  have length := length_readAt b.data pos n
  have same : encode (readAt b.data pos n) = readAt (fileBytes i b) pos n ↔
      IsAscii (readAt b.data pos n) ∧ pos + n ≤ b.data.length := by
    have padded := encode_eq_iff bytes 0 (n - (readAt b.data pos n).length)
    rw [List.replicate_zero, List.append_nil] at padded
    rw [readAt_fileBytes result.within, padded, length]
    exact and_congr_right fun _ => by omega
  rw [← same]
  constructor
  · intro checked
    have encoded := (length_encode (readAt b.data pos n)).2
    have within := result.within
    have capped := file.capped
    rw [maxEmulSize] at capped
    refine StreamSum.eq_of_sums (by omega) (by rw [length_readAt]; omega) fun crc => ?_
    have passes : stateCheckRead crc n w'.st (fd :: token :: count :: rest) (crc.of (encode (readAt b.data pos n))).toNat = some true :=
      (stateCheckRead_result result positive crc _).mpr rfl
    exact UInt32.toNat_inj.mp (by exact_mod_cast (checked crc _).mp passes)
  · intro equal crc checksum
    rw [stateCheckRead_result result positive, equal]

/-- The content of a file is compared as bytes exactly where no byte is above 127, and where the block covers
what is compared: the whole file, or the bytes that were read. -/
theorem content_compared_iff {i : Inode} {b : DataBlock} (file : CreatedFile i b) :
    (DataChecked i b ↔ IsAscii b.data ∧ (b.data.length : Int) ≤ i.size) ∧
    ∀ w w' fd token count rest id pos n, w.st.fdStack.lookup (stripLong fd) = some (.opened id) → w.st.inode? id = some i →
      0 < n → ReadCall w fd token count rest i pos n w' →
      (ReadChecked (fd :: token :: count :: rest) i b pos n w' ↔ IsAscii (readAt b.data pos n) ∧ pos + n ≤ b.data.length) :=
  ⟨dataChecked_iff file,
    fun _ _ _ _ _ _ _ _ _ opened found positive call => readChecked_iff opened found file positive call⟩

/-! ### Files that are written -/

/-- A program with the path of a file, a text of two characters and a buffer to read it into. -/
def contentProgram (text : Str) : Parsed :=
  let paths := pathProgram [("v0", "./a"), ("v2", "    ")] []
  { paths with bufData := paths.bufData.insert "v1".toList text, bufSize := paths.bufSize.insert "v1".toList text.length }

/-- The file is made and the text is written to it. -/
def contentWrite : M Ret := do
  let _ ← openCall ⟨Go.RangeOrder.stored, fun _ _ => none⟩ ["v0".toList, "66".toList, "420".toList] "r0".toList
  write ["r0".toList, "v1".toList, "2".toList]

def contentReadArgs : List Str := ["r0".toList, "v2".toList, "2".toList, "0".toList]

/-- The text is written in a run from the empty tree, and what was written is read. -/
structure ContentRead (text : Str) (w : Ctx) (i : Inode) (b : DataBlock) (w' : Ctx) : Prop where
  written : (contentWrite ⟨initState (contentProgram text) 1, ∅⟩).map Prod.snd = some w
  opened : w.st.fdStack.lookup (stripLong "r0".toList) = some (.opened 1)
  found : w.st.inode? 1 = some i
  file : CreatedFile i b
  data : b.data = text
  size : i.size = 2
  run : pread64 contentReadArgs w = some (.int 2, w')

theorem contentRead_of {text : Str} (bytes : IsBytes text)
    (computed : ((contentWrite ⟨initState (contentProgram text) 1, ∅⟩).map fun r =>
      decide (r.2.st.fdStack.lookup (stripLong "r0".toList) = some (.opened 1)) &&
      (r.2.st.inode? 1).any (fun i => !i.isInit && decide (i.type = .file ∧ i.size = 2) &&
        i.datablock.any (fun b => decide (b.data = text))) &&
      decide ((pread64 contentReadArgs r.2).map Prod.fst = some (.int 2))) = some true) :
    ∃ w i b w', ContentRead text w i b w' := by
  obtain ⟨r, run, computed⟩ := Option.map_eq_some_iff.mp computed
  simp only [Bool.and_eq_true, decide_eq_true_eq] at computed
  obtain ⟨⟨opened, inode⟩, read⟩ := computed
  obtain ⟨i, found, inode⟩ := (Option.any_eq_true _ _).mp inode
  simp only [Bool.and_eq_true, decide_eq_true_eq, Bool.not_eq_true'] at inode
  obtain ⟨⟨created, type, size⟩, block⟩ := inode
  obtain ⟨b, block, data⟩ := (Option.any_eq_true _ _).mp block
  obtain ⟨⟨ret, w'⟩, placed, same⟩ := Option.map_eq_some_iff.mp read
  cases same
  exact ⟨r.2, i, b, w', by rw [run]; rfl, opened, found,
    ⟨created, type, block, by rwa [of_decide_eq_true data], by omega, by rw [size]; decide⟩, of_decide_eq_true data, size, placed⟩

/-- Letters are compared as they are. -/
theorem content_compared_letters : ∃ w i b w', ContentRead "ab".toList w i b w' ∧
    DataChecked i b ∧ ReadChecked contentReadArgs i b 0 2 w' := by
  obtain ⟨w, i, b, w', read⟩ := @contentRead_of "ab".toList (isBytes_of_all (by decide)) (by decide +kernel)
  have low : IsAscii b.data ∧ (b.data.length : Int) ≤ i.size := by
    rw [read.data, read.size]
    exact ⟨isAscii_of_all (by decide), by decide⟩
  have compared := content_compared_iff read.file
  refine ⟨w, i, b, w', read, compared.1.mpr low, ?_⟩
  refine (compared.2 w w' _ _ _ _ 1 0 2 read.opened read.found (by decide) (.pread64 read.run (by decide))).mpr ?_
  rw [read.data]
  exact ⟨isAscii_of_all (by decide), by decide⟩

def highText : Str := [Char.ofNat 128, Char.ofNat 255]

/-- Two bytes above 127 are written and read: neither check passes with the CRC-32 of the two bytes. -/
theorem content_compared_high : ∃ w i b w', ContentRead highText w i b w' ∧
    checkData StreamSum.crc32 i (checksumEntry (StreamSum.crc32.of (fileBytes i b)).toNat) = some 1 ∧
    stateCheckRead StreamSum.crc32 2 w'.st contentReadArgs (StreamSum.crc32.of (readAt (fileBytes i b) 0 2)).toNat ≠ some true := by
  have bytes : IsBytes highText := isBytes_of_all (by decide)
  obtain ⟨w, i, b, w', read⟩ := contentRead_of bytes (by decide +kernel)
  have content : fileBytes i b = [0x80, 0xff] := by
    rw [fileBytes, read.data, read.size]
    decide
  have large : (b.data.length : Int) ≤ maxEmulSize := by
    rw [read.data]
    decide
  have result := readCall_result read.opened read.found read.file (n := 2) (by decide) (.pread64 read.run (by decide) : ReadCall _ _ _ _ _ _ 0 _ _)
  refine ⟨w, i, b, w', read, ?_, ?_⟩
  · have differ : ((StreamSum.crc32.of (summedBytes i b)).toNat : Int) ≠ (StreamSum.crc32.of (fileBytes i b)).toNat := by
      rw [summedBytes, content, read.data, read.size]
      decide +kernel
    rw [checkData_created read.file _ (fileEntry_checksum _), if_pos ⟨large, differ⟩]
  · intro accepted
    have same := (stateCheckRead_result result (by decide) StreamSum.crc32 _).mp accepted
    rw [content, read.data] at same
    revert same
    decide +kernel

end DfsFuzz.Symsc
