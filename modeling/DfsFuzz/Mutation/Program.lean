import DfsFuzz.Lib.Edits
import DfsFuzz.Prog.Types

/-!
Programs as the mutations of `prog/mutation.go` see them: a slice of call objects and the tables of
positions that the mutations have to keep. A call object is told from its copies by its `ref`, as
the pointer tells it in the source.
-/

namespace DfsFuzz.Mutation

structure CallObj where
  ref : Nat
  call : Call

structure SeedProg where
  calls : List CallObj := []
  hasCrashFail : Bool := false
  hasNetFail : Bool := false
  isStash : Bool := false
  isDCache : Bool := false
  srvFailPos : List (List Int) := []
  generalFailPos : List (List Int) := []
  generalBarrierPos : List (List Int) := []

def CallObj.name (o : CallObj) : String := o.call.name

mutual

/-- The result objects inside an argument, as `ForeachSubArg` visits them. -/
def argResults : Arg → List ResultId
  | .const _ => []
  | .pointer _ res => optionResults res
  | .data _ => []
  | .outData _ => []
  | .group inner => argsResults inner
  | .union option => argResults option
  | .result id _ _ => [id]

def argsResults : List Arg → List ResultId
  | [] => []
  | arg :: rest => argResults arg ++ argsResults rest

def optionResults : Option Arg → List ResultId
  | none => []
  | some arg => argResults arg

end

mutual

/-- Results that are gone are replaced by the default value of the type of the argument that used
them. -/
def detachArg (dflt : ResultId → UInt64) (gone : List ResultId) : Arg → Arg
  | .const val => .const val
  | .pointer address res => .pointer address (detachOption dflt gone res)
  | .data bytes => .data bytes
  | .outData size => .outData size
  | .group inner => .group (detachArgs dflt gone inner)
  | .union option => .union (detachArg dflt gone option)
  | .result id none val => .result id none val
  | .result id (some res) val => if res ∈ gone then .result id none (dflt id) else .result id (some res) val

def detachArgs (dflt : ResultId → UInt64) (gone : List ResultId) : List Arg → List Arg
  | [] => []
  | arg :: rest => detachArg dflt gone arg :: detachArgs dflt gone rest

def detachOption (dflt : ResultId → UInt64) (gone : List ResultId) : Option Arg → Option Arg
  | none => none
  | some arg => some (detachArg dflt gone arg)

end

def detachCall (dflt : ResultId → UInt64) (gone : List ResultId) (o : CallObj) : CallObj :=
  { o with call := { o.call with args := detachArgs dflt gone o.call.args } }

def callResults (call : Call) : List ResultId := argsResults call.args ++ call.ret.toList

/-- `RemoveCall`: the slice closes up and the uses of the call's results are dropped. -/
def removeAt (dflt : ResultId → UInt64) (calls : List CallObj) (idx : Nat) : List CallObj :=
  match calls[idx]? with
  | none => calls
  | some o => (calls.eraseIdx idx).map (detachCall dflt (callResults o.call))

/-- What no edit of the arguments changes: the identity, the name and the kind of the call. -/
structure SameCall (o o' : CallObj) : Prop where
  ref : o'.ref = o.ref
  name : o'.call.name = o.call.name
  isFCall : o'.call.isFCall = o.call.isFCall

theorem SameCall.refl (o : CallObj) : SameCall o o := ⟨rfl, rfl, rfl⟩

theorem SameCall.trans {o₁ o₂ o₃ : CallObj} (first : SameCall o₁ o₂) (second : SameCall o₂ o₃) : SameCall o₁ o₃ :=
  ⟨second.ref.trans first.ref, second.name.trans first.name, second.isFCall.trans first.isFCall⟩

theorem detachCall_same (dflt : ResultId → UInt64) (gone : List ResultId) (o : CallObj) :
    SameCall o (detachCall dflt gone o) := ⟨rfl, rfl, rfl⟩

theorem length_removeAt {dflt : ResultId → UInt64} {calls : List CallObj} {idx : Nat} (inside : idx < calls.length) :
    (removeAt dflt calls idx).length = calls.length - 1 := by
  simp [removeAt, List.getElem?_eq_getElem inside, List.length_eraseIdx_of_lt inside]

theorem getElem?_removeAt {dflt : ResultId → UInt64} {calls : List CallObj} {idx : Nat} (inside : idx < calls.length) :
    ∃ edit : CallObj → CallObj, (∀ o, SameCall o (edit o)) ∧
      ∀ k : Nat, (removeAt dflt calls idx)[k]? = ((calls.eraseIdx idx)[k]?).map edit := by
  simp only [removeAt, List.getElem?_eq_getElem inside, List.getElem?_map]
  exact ⟨_, detachCall_same dflt _, fun k => rfl⟩

end DfsFuzz.Mutation
