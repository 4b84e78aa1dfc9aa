import DfsFuzz.Minimize.Minimize

/-!
What minimization relies on in the target, and what it keeps of a group: the outline, which has the
calls with their names and the failure calls with their arguments, and the programs of the servers.
-/

namespace DfsFuzz.Minimize

open DfsFuzz.Mutation (isFailure)

/-- Only values differ in the arguments of the two calls. -/
structure OnlyValues (c c' : MinCall) : Prop where
  ref : c'.ref = c.ref
  name : c'.name = c.name
  args : eraseList c'.args = eraseList c.args

def MinCall.setBytes (bytes : List UInt8) (loc : List Nat) (c : MinCall) : MinCall :=
  { c with args := modArgs (setData bytes) loc c.args }

/-- The sanitizer (`Neutralize` of the target) replaces values in calls that are no failure calls,
and finds nothing to replace in what it has sanitized. Lengths are assigned from the sizes of
arguments, not from values. -/
structure Lawful (target : Target) : Prop where
  sanitize_values : ∀ c, OnlyValues c (target.sanitize c)
  sanitize_failure : ∀ c, isFailure c.name = true → target.sanitize c = c
  sanitize_twice : ∀ c, target.sanitize (target.sanitize c) = target.sanitize c
  sizes_values : ∀ c, OnlyValues c (target.assignSizesCall c)
  sizes_again : ∀ c bytes loc, target.assignSizesCall ((target.assignSizesCall c).setBytes bytes loc) =
    target.assignSizesCall (c.setBytes bytes loc)
  sanitize_again : ∀ c bytes loc, target.sanitize (target.assignSizesCall ((target.sanitize c).setBytes bytes loc)) =
    target.sanitize (target.assignSizesCall (c.setBytes bytes loc))

/-- The programs of the servers as the predicate leaves them. -/
def CleanServers (target : Target) (srvNum : Nat) (ps : MinGroup) : Prop :=
  ∀ p ∈ ps.take srvNum, ∀ c ∈ p, target.sanitize c = c

def accepted (job : Job) (ps : MinGroup) (callIndex : Int) : Prop := (job.pred ps callIndex).2 = true

/-! ### Outlines -/

structure CallKey where
  ref : Nat
  name : String
  args : List MinArg

def MinCall.key (c : MinCall) : CallKey := ⟨c.ref, c.name, if isFailure c.name then unrefList c.args else []⟩

def outline (ps : MinGroup) : List (List CallKey) := ps.map fun p => p.map MinCall.key

theorem OnlyValues.key {c c' : MinCall} (values : OnlyValues c c') (plain : isFailure c.name = false) : c'.key = c.key := by
  simp [MinCall.key, values.ref, values.name, plain]

theorem key_detachCall (dflt : ResultId → UInt64) (gone : List ResultId) (c : MinCall) : (detachCall dflt gone c).key = c.key := by
  simp [MinCall.key, detachCall, unrefList_detachArgs]

theorem outline_map {f : MinCall → MinCall} (keeps : ∀ c, (f c).key = c.key) (ps : MinGroup) :
    outline (ps.map fun p => p.map f) = outline ps := by
  simp [outline, Function.comp_def, keeps]

theorem outline_modify {f : MinProg → MinProg} {g : List CallKey → List CallKey}
    (follows : ∀ p : MinProg, (f p).map MinCall.key = g (p.map MinCall.key)) (j : Nat) (ps : MinGroup) :
    outline (ps.modify j f) = (outline ps).modify j g := by
  apply List.ext_getElem?
  intro k
  simp only [outline, List.getElem?_map, List.getElem?_modify]
  by_cases same : j = k
  · simp [same, Function.comp_def, follows]
  · simp [same]

theorem length_outline (ps : MinGroup) : (outline ps).length = ps.length := List.length_map _

theorem take_modify_behind {α : Type} {n j : Nat} (behind : n ≤ j) (f : α → α) (xs : List α) :
    (xs.modify j f).take n = xs.take n := by
  have short : (xs.take n).length ≤ j := Nat.le_trans (List.length_take_le n xs) behind
  rw [List.take_modify, List.modify_eq_self short]

/-- The groups differ in the arguments of the calls of clients only. -/
structure Same (srvNum : Nat) (ps ps' : MinGroup) : Prop where
  outline : outline ps' = outline ps
  servers : ps'.take srvNum = ps.take srvNum

namespace Same

variable {srvNum : Nat} {ps ps' ps'' : MinGroup}

theorem refl (ps : MinGroup) : Same srvNum ps ps := ⟨rfl, rfl⟩

theorem trans (first : Same srvNum ps ps') (second : Same srvNum ps' ps'') : Same srvNum ps ps'' :=
  ⟨second.outline.trans first.outline, second.servers.trans first.servers⟩

theorem clean {target : Target} (same : Same srvNum ps ps') (clean : CleanServers target srvNum ps) :
    CleanServers target srvNum ps' := by
  unfold CleanServers
  rw [same.servers]
  exact clean

theorem detach {j : Nat} (client : srvNum ≤ j) (dflt : ResultId → UInt64) (gone : List ResultId) :
    Same srvNum ps (ps.modify j fun p => p.map (detachCall dflt gone)) := by
  refine ⟨?_, take_modify_behind client _ _⟩
  rw [outline_modify (g := id)]
  · exact List.modify_id j _
  · intro p
    simp [Function.comp_def, key_detachCall]

end Same

section Target

variable {job : Job} (lawful : Lawful job.target)
include lawful

theorem Lawful.key_sanitize (c : MinCall) : (job.target.sanitize c).key = c.key := by
  cases failure : isFailure c.name with
  | true => rw [lawful.sanitize_failure c failure]
  | false => exact (lawful.sanitize_values c).key failure

theorem Lawful.resized (c : MinCall) (bytes bytes' : List UInt8) (loc : List Nat) :
    job.target.sanitize (job.target.assignSizesCall
      ((job.target.sanitize (job.target.assignSizesCall (c.setBytes bytes' loc))).setBytes bytes loc)) =
    job.target.sanitize (job.target.assignSizesCall (c.setBytes bytes loc)) := by
  rw [lawful.sanitize_again, lawful.sizes_again, MinCall.setBytes, MinCall.setBytes, modArgs_modArgs, setData_setData]
  rfl

theorem Same.pred {srvNum : Nat} {ps : MinGroup} (clean : CleanServers job.target srvNum ps) (callIndex : Int) :
    Same srvNum ps (job.pred ps callIndex).1 := by
  refine ⟨outline_map lawful.key_sanitize ps, ?_⟩
  rw [Job.pred, ← List.map_take]
  conv_rhs => rw [← List.map_id (ps.take srvNum)]
  apply List.map_congr_left
  intro p member
  conv_rhs => rw [id, ← List.map_id p]
  exact List.map_congr_left fun c inside => clean p member c inside

theorem pred_twice (ps : MinGroup) (callIndex : Int) : job.pred (job.pred ps callIndex).1 callIndex = job.pred ps callIndex := by
  simp [Job.pred, Function.comp_def, lawful.sanitize_twice]

theorem accepted_pred {ps : MinGroup} {callIndex : Int} :
    accepted job (job.pred ps callIndex).1 callIndex ↔ accepted job ps callIndex := by
  rw [accepted, pred_twice lawful, accepted]

end Target

end DfsFuzz.Minimize
