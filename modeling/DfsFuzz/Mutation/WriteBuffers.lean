import DfsFuzz.Choice.Relation
import DfsFuzz.Mutation.Buffers

/-!
What the mutations of a write call leave of its second argument (`mutateWriteLength`, `mutateWriteData`
and `updateWriteDataBuf` of `prog/mutation.go`): arguments with the values of constants and the types of
pointees, over the sizes and the allocator of the plain model.
-/

namespace DfsFuzz.WriteBuffers

open DfsFuzz.Choice (Draw)
open Ranges

/-- A pointer type: the size and alignment, and the type of its elements. -/
structure PtrType where
  layout : Buffers.PtrType
  elem : Nat
deriving DecidableEq

inductive Arg where
  | const (size : Nat) (val : UInt64)
  /-- results, and pointers without a pointee -/
  | plain (size : Nat)
  | pointer (type : PtrType) (address : Nat) (res : Arg)
  | data (type : Nat) (isOut : Bool) (bytes : List UInt8) (size : Nat)
  | group (layout : Buffers.Layout) (inner : List Arg)
  | union (fixed : Option Nat) (option : Arg)

structure Call where
  name : String
  args : List Arg

structure Prog where
  calls : List Call

mutual

/-- The argument without the values of constants and the types of pointees. -/
def Arg.layout : Arg → Buffers.Arg
  | .const size _ | .plain size => .plain size
  | .pointer type address res => .pointer type.layout address res.layout
  | .data _ isOut bytes size => .data isOut bytes size
  | .group layout inner => .group layout (layoutOf inner)
  | .union fixed option => .union fixed option.layout

def layoutOf : List Arg → List Buffers.Arg
  | [] => []
  | arg :: rest => arg.layout :: layoutOf rest

end

def Prog.layout (p : Prog) : Buffers.Prog := ⟨p.calls.map fun c => ⟨c.name, layoutOf c.args⟩, false⟩

def Call.buffers (c : Call) : List Span := Buffers.pointeesOf (layoutOf c.args)

/-! ### The mutations -/

def argAt (p : Prog) (callIdx argIdx : Nat) : Option Arg := p.calls[callIdx]?.bind fun call => call.args[argIdx]?

def setArg (p : Prog) (callIdx argIdx : Nat) (arg : Arg) : Prog :=
  { p with calls := p.calls.modify callIdx fun c => { c with args := c.args.set argIdx arg } }

/-- The address is 0 where the allocator has no place and forgets all others. -/
def allocAddr (memSize : Nat) (source : Prog) (type : PtrType) (data : Arg) : Arg :=
  .pointer type (((Buffers.stateFromProg memSize source.layout).alloc data.layout.size type.layout.elemAlign).getD 0) data

def reassignDataArg (memSize : Nat) (source p : Prog) (callIdx : Nat) (newData : List UInt8) : Prog :=
  match argAt p callIdx 1 with
  | some (.pointer type address _) =>
    setArg p callIdx 1 (.pointer type address (allocAddr memSize source type (.data type.elem false newData 0)))
  | _ => p

/-- One call of `syncStashReadVerification`. -/
def syncRead (oldOff oldLen newOff newLen : UInt64) (c : Call) : Call :=
  if !Go.contains c.name "pread64" then c
  else if c.args.length < 4 then c
  else
    match (c.args[3]? : Option Arg), (c.args[2]? : Option Arg) with
    | some (.const posSize pos), some (.const cntSize cnt) =>
      if pos ≠ oldOff ∨ cnt ≠ oldLen then c
      else
        let args := (c.args.set 3 (.const posSize newOff)).set 2 (.const cntSize newLen)
        match (c.args[1]? : Option Arg) with
        | some (.pointer type address (.data elem true bytes _)) =>
          { c with args := args.set 1 (.pointer type address (.data elem true bytes newLen.toNat)) }
        | _ => { c with args := args }
    | _, _ => c

def syncStashReadVerification (ps : List Prog) (oldOff oldLen newOff newLen : UInt64) : List Prog :=
  ps.map fun p => { p with calls := p.calls.map (syncRead oldOff oldLen newOff newLen) }

/-- The group, what the function returns, and the bytes that it has written to the buffer. -/
structure Outcome where
  ps : List Prog
  ret : Bool
  written : Option (List UInt8) := none

/-- The old data, cut or filled up with drawn bytes. -/
def resized (old : List UInt8) (newLen : Nat) (fill : Nat → UInt8) : List UInt8 :=
  (List.range newLen).map fun i => (old[i]?).getD (fill i)

def newLength (count : UInt64) (draw : Draw) : Int64 :=
  let delta : Int64 := Int64.ofNat (draw.intn 257) - 128
  let newLen := count.toInt64 + (if delta = 0 then 1 else delta)
  if newLen < 1 then 1 else if newLen > 8192 then 8192 else newLen

/-- The data of the pointee; `none` is the panic on a buffer that the call fills. -/
def dataOf (isOut : Bool) (bytes : List UInt8) : Option (List UInt8) := if isOut then none else some bytes

/-- `dataArg.data = newData` and `reassignDataArg(ps[0], call, r, newData)`. -/
def rewrite (memSize : Nat) (ps : List Prog) (progIdx callIdx : Nat) (type : PtrType) (address elem size : Nat) (isOut : Bool)
    (newData : List UInt8) : List Prog :=
  let ps := ps.modify progIdx fun p => setArg p callIdx 1 (.pointer type address (.data elem isOut newData size))
  match ps[0]? with
  | none => ps
  | some source => ps.modify progIdx fun p => reassignDataArg memSize source p callIdx newData

def setCount (ps : List Prog) (progIdx callIdx cntSize : Nat) (count : UInt64) : List Prog :=
  ps.modify progIdx fun p => setArg p callIdx 2 (.const cntSize count)

def mutateWriteLength (memSize : Nat) (ps : List Prog) (progIdx callIdx : Nat) (draw : Draw) (fill : Nat → UInt8) :
    Option Outcome :=
  match ps[progIdx]?.bind fun p => p.calls[callIdx]? with
  | none => none
  | some call =>
    if call.args.length < 4 then some ⟨ps, false, none⟩
    else
      match (call.args[2]? : Option Arg), (call.args[3]? : Option Arg) with
      | some (.const cntSize oldLen), some (.const _ oldOff) =>
        let newLen := newLength oldLen draw
        let counted := setCount ps progIdx callIdx cntSize newLen.toUInt64
        match (call.args[1]? : Option Arg) with
        | some (.pointer type address (.data elem isOut bytes size)) =>
          (dataOf isOut bytes).map fun oldData =>
            let newData := resized oldData newLen.toNatClampNeg fill
            ⟨syncStashReadVerification (rewrite memSize counted progIdx callIdx type address elem size isOut newData)
              oldOff oldLen oldOff newLen.toUInt64, true, some newData⟩
        | _ => some ⟨syncStashReadVerification counted oldOff oldLen oldOff newLen.toUInt64, true, none⟩
      | _, _ => some ⟨ps, false, none⟩

/-- `mutated` is what `mutateData` makes of the old data. -/
def mutateWriteData (memSize : Nat) (ps : List Prog) (progIdx callIdx : Nat) (mutated : List UInt8) : Option Outcome :=
  match ps[progIdx]?.bind fun p => p.calls[callIdx]? with
  | none => none
  | some call =>
    if call.args.length < 4 then some ⟨ps, false, none⟩
    else
      match (call.args[1]? : Option Arg), (call.args[2]? : Option Arg), (call.args[3]? : Option Arg) with
      | some (.pointer type address (.data elem isOut bytes size)), some (.const cntSize oldLen), some (.const _ oldOff) =>
        (dataOf isOut bytes).map fun data =>
          if data.length = 0 then ⟨ps, false, none⟩
          else
            let newLen := UInt64.ofNat mutated.length
            -- the source gives the count after the data in place, which are different arguments
            let counted := setCount ps progIdx callIdx cntSize newLen
            ⟨syncStashReadVerification (rewrite memSize counted progIdx callIdx type address elem size isOut mutated)
              oldOff oldLen oldOff newLen, true, some mutated⟩
      | _, _, _ => some ⟨ps, false, none⟩

def updateWriteDataBuf (memSize : Nat) (ps : List Prog) (progIdx callIdx : Nat) (newLen : Nat) (fill : Nat → UInt8) :
    Option Outcome :=
  match ps[progIdx]?.bind fun p => p.calls[callIdx]? with
  | none => none
  | some call =>
    match (call.args[1]? : Option Arg) with
    | some (.pointer _ _ (.data _ isOut bytes _)) =>
      (dataOf isOut bytes).map fun oldData =>
        let newData := resized oldData newLen fill
        ⟨ps.modify progIdx fun p => reassignDataArg memSize p p callIdx newData, true, some newData⟩
    | _ => some ⟨ps, true, none⟩

/-- The second argument of the call points to data of the type of its elements, as many bytes as the third argument says (and those
written last), apart from the buffers of the other calls of the program. -/
def BufferKept (out : Outcome) (progIdx callIdx : Nat) : Prop :=
  ∃ p type address bytes size cntSize count, out.ps[progIdx]? = some p ∧
    argAt p callIdx 1 = some (.pointer type address (.data type.elem false bytes size)) ∧
    (∀ newData, out.written = some newData → bytes = newData) ∧
    argAt p callIdx 2 = some (.const cntSize count) ∧ bytes.length = count.toNat ∧
    ∀ other c, p.calls[other]? = some c → other ≠ callIdx → ∀ span ∈ c.buffers, Span.Apart ⟨address, bytes.length⟩ span

/-- `mutateWriteLength` gets to the buffer. -/
def RewritesLength (call : Call) : Prop :=
  4 ≤ call.args.length ∧ (∃ size val, call.args[2]? = some (.const size val)) ∧ ∃ size val, call.args[3]? = some (.const size val)

/-- `mutateWriteData` gets to the buffer, which holds `bytes`. -/
def RewritesData (call : Call) (bytes : List UInt8) : Prop := RewritesLength call ∧ bytes ≠ []

/-! ### The second argument after a rewrite -/

/-- The pointee of the second argument is a pointer itself. -/
def Nested (p : Prog) (callIdx : Nat) : Prop :=
  ∃ type address type' address' res, argAt p callIdx 1 = some (.pointer type address (.pointer type' address' res))

theorem Nested.not_kept {out : Outcome} {p : Prog} {progIdx callIdx : Nat} (here : out.ps[progIdx]? = some p)
    (nested : Nested p callIdx) : ¬ BufferKept out progIdx callIdx := by
  obtain ⟨type, address, type', address', res, slot⟩ := nested
  rintro ⟨p', _, _, _, _, _, _, here', slot', _⟩
  obtain rfl := Option.some.inj (here.symm.trans here')
  rw [slot] at slot'
  cases slot'

theorem argAt_setArg {p : Prog} {callIdx i j : Nat} {arg : Arg} {call : Call} (found : p.calls[callIdx]? = some call) :
    argAt (setArg p callIdx i arg) callIdx j = (call.args.set i arg)[j]? := by
  unfold argAt setArg
  dsimp only
  rw [List.getElem?_modify, found]
  simp

theorem reassignDataArg_nested {memSize : Nat} {source p : Prog} {callIdx : Nat} {newData : List UInt8} {type : PtrType}
    {address : Nat} {res : Arg} (slot : argAt p callIdx 1 = some (.pointer type address res)) :
    Nested (reassignDataArg memSize source p callIdx newData) callIdx := by
  obtain ⟨call, found, second⟩ := Option.bind_eq_some_iff.mp slot
  have inside := (List.getElem?_eq_some_iff.mp second).1
  have changed : argAt (reassignDataArg memSize source p callIdx newData) callIdx 1 =
      some (.pointer type address (allocAddr memSize source type (.data type.elem false newData 0))) := by
    unfold reassignDataArg
    rw [slot]
    dsimp only
    rw [argAt_setArg found, List.getElem?_set_self inside]
  exact ⟨type, address, type, _, _, changed⟩

theorem syncRead_second {oldOff oldLen newOff newLen : UInt64} {c : Call} {type type' : PtrType} {address address' : Nat} {res : Arg}
    (second : c.args[1]? = some (.pointer type address (.pointer type' address' res))) :
    (syncRead oldOff oldLen newOff newLen c).args[1]? = some (.pointer type address (.pointer type' address' res)) := by
  unfold syncRead
  rw [second]
  split
  · exact second
  · split
    · exact second
    · split
      · split
        · exact second
        · dsimp only
          rw [List.getElem?_set_ne (by decide), List.getElem?_set_ne (by decide)]
          exact second
      · exact second

theorem syncStash_nested {ps : List Prog} {p : Prog} {progIdx callIdx : Nat} {oldOff oldLen newOff newLen : UInt64}
    (here : ps[progIdx]? = some p) (nested : Nested p callIdx) :
    ∃ p', (syncStashReadVerification ps oldOff oldLen newOff newLen)[progIdx]? = some p' ∧ Nested p' callIdx := by
  obtain ⟨type, address, type', address', res, slot⟩ := nested
  obtain ⟨call, found, second⟩ := Option.bind_eq_some_iff.mp slot
  refine ⟨_, by rw [syncStashReadVerification, List.getElem?_map, here, Option.map_some], type, address, type', address', res, ?_⟩
  unfold argAt
  dsimp only
  rw [List.getElem?_map, found]
  exact syncRead_second second

section
variable {memSize : Nat} {ps : List Prog} {progIdx callIdx : Nat} {p : Prog} {call : Call} {type : PtrType} {address elem size : Nat}
  {bytes : List UInt8} (here : ps[progIdx]? = some p) (found : p.calls[callIdx]? = some call)
  (slot : call.args[1]? = some (.pointer type address (.data elem false bytes size)))

include here found slot

theorem setCount_second (cntSize : Nat) (count : UInt64) : ∃ p1, (setCount ps progIdx callIdx cntSize count)[progIdx]? = some p1 ∧
    ∃ call1, p1.calls[callIdx]? = some call1 ∧ call1.args[1]? = some (.pointer type address (.data elem false bytes size)) := by
  refine ⟨setArg p callIdx 2 (.const cntSize count), by simp [setCount, here],
    { call with args := call.args.set 2 (.const cntSize count) }, by simp [setArg, found], ?_⟩
  dsimp only
  rw [List.getElem?_set_ne (by decide), slot]

theorem rewrite_nested (elem' size' : Nat) (isOut : Bool) (newData : List UInt8) :
    ∃ p', (rewrite memSize ps progIdx callIdx type address elem' size' isOut newData)[progIdx]? = some p' ∧
      Nested p' callIdx := by
  have inside := (List.getElem?_eq_some_iff.mp slot).1
  have changed : (ps.modify progIdx fun p => setArg p callIdx 1 (.pointer type address (.data elem' isOut newData size')))[progIdx]? =
      some (setArg p callIdx 1 (.pointer type address (.data elem' isOut newData size'))) := by
    simp [here]
  have second : argAt (setArg p callIdx 1 (.pointer type address (.data elem' isOut newData size'))) callIdx 1 =
      some (.pointer type address (.data elem' isOut newData size')) := by
    rw [argAt_setArg found, List.getElem?_set_self inside]
  unfold rewrite
  dsimp only
  generalize ps.modify progIdx (fun p => setArg p callIdx 1 (.pointer type address (.data elem' isOut newData size'))) = ps' at *
  cases first : ps'[0]? with
  | none =>
    have empty : ps' = [] := by simpa using first
    rw [empty] at changed
    cases changed
  | some source =>
    refine ⟨_, by simp [changed]; rfl, reassignDataArg_nested second⟩

theorem mutateWriteLength_kept_iff (draw : Draw) (fill : Nat → UInt8) :
    ∃ out, mutateWriteLength memSize ps progIdx callIdx draw fill = some out ∧
      (BufferKept out progIdx callIdx ↔ ¬ RewritesLength call ∧ BufferKept ⟨ps, false, none⟩ progIdx callIdx) := by
  unfold mutateWriteLength
  rw [here, Option.bind_some, found]
  dsimp only
  split
  · rename_i few
    exact ⟨_, rfl, (and_iff_right fun rewrites => absurd few (Nat.not_lt.mpr rewrites.1)).symm⟩
  · rename_i enough
    rw [slot]
    split
    · rename_i cntSize oldLen posSize oldOff count position
      simp only [dataOf, Bool.false_eq_true, if_false, Option.map_some]
      refine ⟨_, rfl, iff_of_false ?_ fun both => both.1 ⟨by omega, ⟨_, _, count⟩, _, _, position⟩⟩
      obtain ⟨p1, here1, call1, found1, slot1⟩ := setCount_second here found slot cntSize (newLength oldLen draw).toUInt64
      obtain ⟨p2, here2, nested⟩ := @rewrite_nested memSize _ progIdx callIdx p1 call1 type address elem size bytes here1 found1
        slot1 elem size false (resized bytes (newLength oldLen draw).toNatClampNeg fill)
      obtain ⟨p3, here3, nested3⟩ := @syncStash_nested _ _ _ _ oldOff oldLen oldOff (newLength oldLen draw).toUInt64 here2 nested
      exact nested3.not_kept here3
    · rename_i other
      exact ⟨_, rfl, (and_iff_right fun rewrites => by
        obtain ⟨_, ⟨_, _, count⟩, _, _, position⟩ := rewrites
        exact other _ _ _ _ count position).symm⟩

theorem mutateWriteData_kept_iff (mutated : List UInt8) :
    ∃ out, mutateWriteData memSize ps progIdx callIdx mutated = some out ∧
      (BufferKept out progIdx callIdx ↔ ¬ RewritesData call bytes ∧ BufferKept ⟨ps, false, none⟩ progIdx callIdx) := by
  unfold mutateWriteData
  rw [here, Option.bind_some, found]
  dsimp only
  split
  · rename_i few
    exact ⟨_, rfl, (and_iff_right fun rewrites => absurd few (Nat.not_lt.mpr rewrites.1.1)).symm⟩
  · rename_i enough
    rw [slot]
    split
    · rename_i type' address' elem' isOut bytes' size' cntSize oldLen posSize oldOff same count position
      cases same
      rw [dataOf, if_neg (by decide), Option.map_some]
      split
      · rename_i empty
        exact ⟨_, rfl, (and_iff_right fun rewrites => rewrites.2 (List.length_eq_zero_iff.mp empty)).symm⟩
      · rename_i some_data
        refine ⟨_, rfl, iff_of_false ?_ fun both => both.1 ⟨⟨by omega, ⟨_, _, count⟩, _, _, position⟩, fun empty =>
          some_data (by rw [empty]; rfl)⟩⟩
        obtain ⟨p1, here1, call1, found1, slot1⟩ := setCount_second here found slot cntSize (UInt64.ofNat mutated.length)
        obtain ⟨p2, here2, nested⟩ := @rewrite_nested memSize _ progIdx callIdx p1 call1 type address elem size bytes here1 found1
          slot1 elem size false mutated
        obtain ⟨p3, here3, nested3⟩ := @syncStash_nested _ _ _ _ oldOff oldLen oldOff (UInt64.ofNat mutated.length) here2 nested
        exact nested3.not_kept here3
    · rename_i other
      exact ⟨_, rfl, (and_iff_right fun rewrites => by
        obtain ⟨⟨_, ⟨_, _, count⟩, _, _, position⟩, _⟩ := rewrites
        exact other _ _ _ _ _ _ _ _ _ _ rfl count position).symm⟩

theorem updateWriteDataBuf_not_kept (newLen : Nat) (fill : Nat → UInt8) :
    ∃ out, updateWriteDataBuf memSize ps progIdx callIdx newLen fill = some out ∧ ¬ BufferKept out progIdx callIdx := by
  unfold updateWriteDataBuf
  rw [here, Option.bind_some, found]
  dsimp only
  rw [slot]
  refine ⟨_, rfl, ?_⟩
  have second : argAt p callIdx 1 = some (.pointer type address (.data elem false bytes size)) := by
    rw [argAt, found, Option.bind_some, slot]
  exact (reassignDataArg_nested second).not_kept (by simp [here]; rfl)

/-- A mutation keeps the buffer of a write call exactly when it leaves the call alone and the buffer was in order before. -/
theorem writeBuffers_kept_iff (draw : Draw) (fill : Nat → UInt8) (mutated : List UInt8) (newLen : Nat) :
    (∃ out, mutateWriteLength memSize ps progIdx callIdx draw fill = some out ∧
      (BufferKept out progIdx callIdx ↔ ¬ RewritesLength call ∧ BufferKept ⟨ps, false, none⟩ progIdx callIdx)) ∧
    (∃ out, mutateWriteData memSize ps progIdx callIdx mutated = some out ∧
      (BufferKept out progIdx callIdx ↔ ¬ RewritesData call bytes ∧ BufferKept ⟨ps, false, none⟩ progIdx callIdx)) ∧
    ∃ out, updateWriteDataBuf memSize ps progIdx callIdx newLen fill = some out ∧ ¬ BufferKept out progIdx callIdx :=
  ⟨mutateWriteLength_kept_iff here found slot draw fill, mutateWriteData_kept_iff here found slot mutated,
    updateWriteDataBuf_not_kept here found slot newLen fill⟩

end

def bufferType : PtrType := ⟨⟨8, 1⟩, 7⟩

/-- `open` and a `pwrite64` of two bytes. -/
def pwriteCall : Call where
  name := "pwrite64"
  args := [.plain 8, .pointer bufferType 64 (.data 7 false [1, 2] 0), .const 8 2, .const 8 0]

def openPwrite : Prog where
  calls := [⟨"open", [.pointer bufferType 0 (.data 7 false [47, 97, 0] 0)]⟩, pwriteCall]

theorem writeBuffers_kept_iff_openPwrite : ∃ out, updateWriteDataBuf 262144 [openPwrite] 0 1 3 (fun _ => 0) = some out ∧
    ¬ BufferKept out 0 1 :=
  (@writeBuffers_kept_iff 262144 [openPwrite] 0 1 openPwrite pwriteCall bufferType 64 7 0 [1, 2] rfl rfl rfl
    ⟨fun _ => 0, fun _ positive => positive⟩ (fun _ => 0) [] 3).2.2

/-- The buffer is in order, then the data is mutated: the pointee is a pointer, and a second mutation does nothing. -/
theorem mutateWriteData_nests : BufferKept ⟨[openPwrite], false, none⟩ 0 1 ∧
    ∃ out, mutateWriteData 262144 [openPwrite] 0 1 [1, 2, 3] = some out ∧ ¬ BufferKept out 0 1 ∧
      ∃ again, mutateWriteData 262144 out.ps 0 1 [4] = some again ∧ again.ret = false := by
  constructor
  · refine ⟨openPwrite, bufferType, 64, [1, 2], 0, 8, 2, rfl, rfl, fun _ none => (by cases none), rfl, rfl, ?_⟩
    intro other c here apart span member
    match other with
    | 0 =>
      cases here
      have spans : ∀ span ∈ Call.buffers ⟨"open", [.pointer bufferType 0 (.data 7 false [47, 97, 0] 0)]⟩,
          Span.Apart ⟨64, 2⟩ span := by decide
      exact spans span member
    | 1 => exact absurd rfl apart
    | other + 2 => cases here
  · obtain ⟨out, run, kept⟩ := @mutateWriteData_kept_iff 262144 [openPwrite] 0 1 openPwrite pwriteCall bufferType 64 7 0 [1, 2]
      rfl rfl rfl [1, 2, 3]
    have rewrites : RewritesData pwriteCall [1, 2] :=
      ⟨⟨by decide, ⟨8, 2, rfl⟩, 8, 0, rfl⟩, by decide⟩
    have second : ((mutateWriteData 262144 [openPwrite] 0 1 [1, 2, 3]).bind fun out =>
        (mutateWriteData 262144 out.ps 0 1 [4]).map Outcome.ret) = some false := by decide +kernel
    rw [run, Option.bind_some] at second
    obtain ⟨again, rerun, ret⟩ := Option.map_eq_some_iff.mp second
    exact ⟨out, run, fun still => (kept.mp still).1 rewrites, again, rerun, ret⟩

end DfsFuzz.WriteBuffers
