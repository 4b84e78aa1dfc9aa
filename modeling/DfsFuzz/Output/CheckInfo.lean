import DfsFuzz.Lib.GoMap
import DfsFuzz.Lib.GoStrings
import DfsFuzz.Output.Replies
import DfsFuzz.Symsc.Escape

/-!
What a call returned besides its value: the switch over `sys_nr` in `write_call_output` stores it in
the info bytes of the record, `parseClientOutput` reads it into the `CheckInfo` of the call.
-/

namespace DfsFuzz.Output

open Bytes ByteReader

def statSize : Nat := 144

/-- What the switch looks at of a call that is not a pseudo call: the arguments, the memory of the
process and, of a directory buffer, the names of its whole entries. -/
structure SysCall where
  sysNr : Nat
  arg1 : UInt64
  arg2 : UInt64
  memory : Image
  names : List (List UInt8)

namespace SysCall

def at1 (call : SysCall) (count : Nat) : List UInt8 := call.memory.slice call.arg1.toNat count

def at2 (call : SysCall) (count : Nat) : List UInt8 := call.memory.slice call.arg2.toNat count

/-- The names as they are listed; one that does not fit ends the list. -/
def listNames : List UInt8 → List (List UInt8) → List UInt8
  | used, [] => used
  | used, name :: names =>
    if INFOLIMIT < used.length + name.length + 2 then used else listNames (used ++ name ++ [59]) names

def dents (call : SysCall) : List UInt8 :=
  let used := listNames [] call.names
  (if used.length + 2 ≤ INFOLIMIT then used ++ [59] else used) ++ [0]

/-- The attribute names of a list with `;` between them. -/
def xattrNames (call : SysCall) (size : Nat) : List UInt8 :=
  ((call.at1 size).mapIdx fun pos b => if pos ≤ INFOLIMIT ∧ b = 0 then 59 else b).dropLast ++ [0]

def info (crc32 : List UInt8 → UInt32) (call : SysCall) (res : Int64) : Option (UInt32 × List UInt8) :=
  let size := res.toInt.toNat
  if call.sysNr = 0 ∨ call.sysNr = 17 ∨ call.sysNr = 89 then
    if res ≠ -1 then some (89, le32 (crc32 (call.at1 size))) else none
  else if call.sysNr = 4 ∨ call.sysNr = 5 then
    if res ≠ -1 then some (4, call.at1 statSize) else none
  else if call.sysNr = 191 ∨ call.sysNr = 192 ∨ call.sysNr = 193 then
    if 0 < size then
      if INFOLIMIT < 4 + size then none else some (191, le32 (UInt32.ofNat (4 + size)) ++ call.at2 size)
    else none
  else if call.sysNr = 194 ∨ call.sysNr = 195 ∨ call.sysNr = 196 then
    if 0 < size ∧ call.arg2 ≠ 0 ∧ call.arg1 ≠ 0 then some (194, call.xattrNames size) else none
  else if call.sysNr = 217 then
    if 0 < size then some (217, call.dents) else none
  else none

end SysCall

/-- The thread with what the switch stores for its call; a pseudo call has no `SysCall`. -/
def Thread.withInfo (crc32 : List UInt8 → UInt32) (sys : Option SysCall) (th : Thread) : Thread :=
  { th with info := sys.bind fun call => call.info crc32 th.res.toInt64 }

/-- `FileMetadata`, of a call as of a file; the bytes of the stat are those of `Stat_t`. -/
structure FileMetadata where
  stime : UInt64 := 0
  etime : UInt64 := 0
  retv : Int64 := 0
  statMd : List UInt8 := List.replicate statSize 0
  xattr : Go.Map String String := ∅
  checksum : UInt32 := 0
  symlinkPath : List UInt8 := []
  dents : List UInt8 := []

/-- `Serialize2Str` runs the loop the data of a buffer is printed with. -/
def serialize2Str (data : List UInt8) : String := String.ofList (Symsc.escape data)

def blackList : List String := ["system.nfs4_acl", "security.selinux"]

def xattrFilter (str : String) : Bool := blackList.any fun block => Go.contains str block

/-- The names of `listxattr` without those of the black list, in order and with `;` behind each. -/
def filteredXattr (xattr : String) : String :=
  let kept := (Go.split xattr ';').filter fun substr => !xattrFilter substr
  if kept = [] then "" else ";".intercalate (kept.mergeSort fun a b => decide (a ≤ b)) ++ ";"

def fileXattr (value : String) : Go.Map String String := (∅ : Go.Map String String).insert "file" value

/-- The fields that come with the info type; a slice expression out of range is a panic. -/
def readInfo (infotype : UInt32) (info : List UInt8) (md : FileMetadata) : Except String FileMetadata :=
  if infotype = 0 ∨ infotype = 17 ∨ infotype = 89 then
    return { md with checksum := UInt32.ofNat (ofLe (info.take 4)) }
  else if infotype = 4 ∨ infotype = 5 then return { md with statMd := info.take statSize }
  else if infotype = 191 ∨ infotype = 192 ∨ infotype = 193 then
    let size := (UInt32.ofNat (ofLe (info.take 4))).toNat
    if size < 4 ∨ info.length < size then throw "slice bounds out of range"
    else return { md with xattr := fileXattr (serialize2Str ((info.take size).drop 4)) }
  else if infotype = 194 ∨ infotype = 195 ∨ infotype = 196 then
    let filtered := filteredXattr (Go.ofBytes (info.takeWhile (· ≠ 0)))
    return if filtered = "" then md else
      { md with xattr := fileXattr (serialize2Str (filtered.toList.map fun c => UInt8.ofNat c.toNat)) }
  else if infotype = 217 then return { md with dents := info }
  else return md

/-- The `CheckInfo` of a call's reply. -/
def readCheckInfo (reply : CallReply) (ret : UInt64) : Except String FileMetadata :=
  readInfo reply.infotype reply.info { stime := reply.stime, etime := reply.etime, retv := ret.toInt64 }

/-- The reader takes no slice out of range: the value of `getxattr` is preceded by its size. -/
def InfoSized (infotype : UInt32) (info : List UInt8) : Prop :=
  infotype = 191 ∨ infotype = 192 ∨ infotype = 193 →
    4 ≤ (UInt32.ofNat (ofLe (info.take 4))).toNat ∧ (UInt32.ofNat (ofLe (info.take 4))).toNat ≤ info.length

/-- The times and the value are those of the reply whatever the info says. -/
theorem readInfo_ok {infotype : UInt32} {info : List UInt8} (sized : InfoSized infotype info) (md : FileMetadata) :
    ∃ md', readInfo infotype info md = .ok md' ∧ md'.stime = md.stime ∧ md'.etime = md.etime ∧ md'.retv = md.retv := by
  unfold readInfo
  split
  next => exact ⟨_, rfl, rfl, rfl, rfl⟩
  split
  next => exact ⟨_, rfl, rfl, rfl, rfl⟩
  split
  next typed =>
    obtain ⟨least, most⟩ := sized typed
    have inside : ¬ ((UInt32.ofNat (ofLe (info.take 4))).toNat < 4 ∨
        info.length < (UInt32.ofNat (ofLe (info.take 4))).toNat) := by omega
    rw [if_neg inside]
    exact ⟨_, rfl, rfl, rfl, rfl⟩
  split
  next =>
    refine ⟨_, rfl, ?_⟩
    split <;> exact ⟨rfl, rfl, rfl⟩
  split <;> exact ⟨_, rfl, rfl, rfl, rfl⟩

/-- The switch stores a value of `getxattr` only where the value and its size fit. -/
theorem SysCall.info_sized {crc32 : List UInt8 → UInt32} {call : SysCall} {res : Int64} {infotype : UInt32}
    {payload : List UInt8} (stored : call.info crc32 res = some (infotype, payload))
    (typed : infotype = 191 ∨ infotype = 192 ∨ infotype = 193) :
    ∃ size, 0 < size ∧ 4 + size ≤ INFOLIMIT ∧ payload = le32 (UInt32.ofNat (4 + size)) ++ call.at2 size := by
  have other : ∀ {t : UInt32} {p : Prop} [Decidable p] {bytes : List UInt8},
      (if p then some (t, bytes) else none) = some (infotype, payload) → t = infotype := fun same =>
    congrArg Prod.fst (Option.some.inj (Option.ite_none_right_eq_some.mp same).2)
  simp only [SysCall.info] at stored
  split at stored
  next =>
    obtain rfl := other stored
    exact absurd typed (by decide)
  split at stored
  next =>
    obtain rfl := other stored
    exact absurd typed (by decide)
  split at stored
  next =>
    obtain ⟨some, stored⟩ := Option.ite_none_right_eq_some.mp stored
    obtain ⟨fits, stored⟩ := Option.ite_none_left_eq_some.mp stored
    obtain ⟨_, rfl⟩ := Prod.mk.inj (Option.some.inj stored)
    exact ⟨_, some, Nat.le_of_not_lt fits, rfl⟩
  split at stored
  next =>
    obtain rfl := other stored
    exact absurd typed (by decide)
  split at stored
  next =>
    obtain rfl := other stored
    exact absurd typed (by decide)
  next => cases stored

theorem infoSized_of_switch {crc32 : List UInt8 → UInt32} {sys : Option SysCall} {th : Thread} {info : List UInt8}
    (size : info.length = INFOLIMIT) (holds : InfoHolds (th.withInfo crc32 sys).info info) :
    InfoSized (((th.withInfo crc32 sys).info.map Prod.fst).getD (-1)) info := by
  intro typed
  cases stored : (th.withInfo crc32 sys).info with
  | none =>
    rw [stored] at typed
    exact absurd typed (by decide)
  | some pair =>
    obtain ⟨infotype, payload⟩ := pair
    rw [stored] at typed holds
    obtain ⟨call, _, switched⟩ := Option.bind_eq_some_iff.mp stored
    obtain ⟨count, least, most, whole⟩ := SysCall.info_sized switched typed
    have fits : payload.length ≤ info.length := by
      rw [whole, size, List.length_append, length_le32, SysCall.at2, Image.length_slice]
      exact most
    obtain ⟨behind, split⟩ := holds infotype payload rfl fits
    have front : info.take 4 = le32 (UInt32.ofNat (4 + count)) := by
      rw [← split, whole, List.append_assoc]
      exact List.take_left' (length_le32 _)
    have limit : INFOLIMIT = 144 := rfl
    have total : (UInt32.ofNat (4 + count)).toNat = 4 + count :=
      UInt32.toNat_ofNat_of_lt' (by simp only [UInt32.size]; omega)
    rw [front, ofLe_le32, total]
    omega

end DfsFuzz.Output
