import DfsFuzz.Generate.InsertPattern
import DfsFuzz.Generate.OpenFds
import DfsFuzz.Generate.Framed

/-!
What the calls of a pattern operate on: the base path, or the file of whatever descriptor was open.
-/

namespace DfsFuzz.Generate

open DfsFuzz.Choice DfsFuzz.Mutation DfsFuzz.Tree

/-- The open or creat that produces a descriptor. -/
def producer (calls : List CallObj) (fd : ResultId) : Option CallObj :=
  calls.find? fun o => opens o.name && o.call.ret == some fd

/-- The path in a call, or in the open or creat behind its descriptor. -/
def callPath (calls : List CallObj) (c : Call) : String :=
  match c.args.head? with
  | some (.result _ (some fd) _) => ((producer calls fd).map fun o => extractPathFromCall o.call).getD ""
  | _ => extractPathFromCall c

/-- A path that a call of the operation is to have in common with the base call. -/
def ConcurrentOp.Sharing (op : ConcurrentOp) : Prop :=
  (op.pathArgs = [.self] ∨ op.pathArgs = [.same]) ∧ op.callName ∉ ["rename", "creat", "mkdir"]

/-- The calls stand in their program and operate on that path there. -/
def Operates (g : StashGroup) (ins : Inserted) (path : String) : Prop :=
  ∃ p, g.progs[ins.progIdx]? = some p ∧ ∀ c ∈ ins.calls, (∃ o ∈ p.calls, o.call = c) ∧ callPath p.calls c = path

/-- Every call for an operation on the base path operates on it. -/
def SharesResource (g' : StashGroup) (made : List PatternCalls) : Prop :=
  ∀ m ∈ made, m.op.Sharing → Operates g' m.inserted (pathText m.basePath)

/-- The former calls are there as they were and in their order. -/
def FormerKept (g g' : StashGroup) : Prop :=
  g'.progs.length = g.progs.length ∧
    ∀ (i : Nat) (p : SeedProg), g.progs[i]? = some p → ∃ calls, g'.progs[i]? = some { p with calls } ∧ p.calls.Sublist calls

/-- An operation and the base path that is in effect for it. -/
structure OpSlot where
  progIdx : Nat
  op : ConcurrentOp
  basePath : String

def nextBase (ch : PatternChoice) (cids : List String) (nodeIdx k : Nat) (op : ConcurrentOp) (basePath : String) : String :=
  if nodeIdx = 0 then
    (preprocessPatternRootOp ((ch.node nodeIdx).op k) basePath (cids.headD "") op.callName ch.ft).getD ""
  else basePath

def opSlots (ch : PatternChoice) (cids : List String) (nodeIdx : Nat) : Nat → List ConcurrentOp → String → List OpSlot
  | _, [], _ => []
  | k, op :: ops, basePath =>
    ⟨nodeIdx, op, nextBase ch cids nodeIdx k op basePath⟩ ::
      opSlots ch cids nodeIdx (k + 1) ops (nextBase ch cids nodeIdx k op basePath)

def lastBase (ch : PatternChoice) (cids : List String) (nodeIdx : Nat) : Nat → List ConcurrentOp → String → String
  | _, [], basePath => basePath
  | k, op :: ops, basePath => lastBase ch cids nodeIdx (k + 1) ops (nextBase ch cids nodeIdx k op basePath)

/-- The operations of the programs that are there. -/
def nodeSlots (ch : PatternChoice) (cids : List String) : Nat → Nat → List (List ConcurrentOp) → String → List OpSlot
  | 0, _, _, _ => []
  | _, _, [], _ => []
  | left + 1, nodeIdx, ops :: rest, basePath =>
    opSlots ch cids nodeIdx 0 ops basePath ++
      nodeSlots ch cids left (nodeIdx + 1) rest (lastBase ch cids nodeIdx 0 ops basePath)

/-- The operations of the pattern that is drawn. -/
def patternSlots (ch : PatternChoice) (cids : List String) (g : StashGroup) : List OpSlot :=
  match getRandomPattern ch, g.progs[0]?.bind fun p0 => patternBasePath ch (cids.headD "") p0.calls with
  | some pattern, some basePath => nodeSlots ch cids g.progs.length 0 pattern.operations basePath
  | _, _ => []

/-- The call of the operation works on a descriptor. -/
def OpSlot.TakesFd (slot : OpSlot) : Prop :=
  slot.op.callName ∈ ["close", "read", "write", "fsync", "getdents64"] ∧ slot.basePath ≠ ""

/-- The open of the wanted kind that is drawn in a program. -/
def drawnOpen (ch : PatternChoice) (nodeIdx : Nat) (p : SeedProg) : Option CallObj :=
  (drawnRange (wantedFd ch.seedType) (ch.node nodeIdx).at_ p.calls).bind fun range => p.calls[range.openIdx]?

/-- Where an operation on the base path takes a descriptor and its program has an open of the wanted kind,
the one that is drawn names the base path. -/
def DrawnOpensShared (ch : PatternChoice) (cids : List String) (g : StashGroup) : Prop :=
  ∀ slot ∈ patternSlots ch cids g, slot.op.Sharing → slot.TakesFd →
    ∀ p o, g.progs[slot.progIdx]? = some p → drawnOpen ch slot.progIdx p = some o →
      extractPathFromCall o.call = pathText slot.basePath

/-! ### Insertions and descriptors -/

/-- Every result object has one call that returns it, and the next is new. -/
structure ResultsApart (g : StashGroup) : Prop where
  once : ∀ p ∈ g.progs, (resultsOf p.calls).Nodup
  below : ∀ p ∈ g.progs, ∀ o ∈ p.calls, ∀ fd, o.call.ret = some fd → fd < g.next

variable {calls : List CallObj} {fd : ResultId}

theorem producer_insertAt_old {block : List CallObj} (other : ∀ o ∈ block, o.call.ret ≠ some fd) (pos : Nat) :
    producer (Edits.insertAt calls pos block) fd = producer calls fd := by
  have none : producer block fd = none := by
    rw [producer, List.find?_eq_none]
    intro o member
    simp [other o member]
  have split : producer calls fd = (producer (calls.take pos) fd).or (producer (calls.drop pos) fd) := by
    rw [producer, producer, producer, ← List.find?_append, List.take_append_drop]
  rw [split, Edits.insertAt, producer, List.find?_append, List.find?_append, ← producer, ← producer, ← producer, none,
    Option.none_or]

theorem producer_insertAt_new {block : List CallObj} (other : ∀ o ∈ calls, o.call.ret ≠ some fd) (pos : Nat) :
    producer (Edits.insertAt calls pos block) fd = producer block fd := by
  have none {part : List CallObj} (inside : ∀ o ∈ part, o ∈ calls) : producer part fd = none := by
    rw [producer, List.find?_eq_none]
    intro o member
    simp [other o (inside o member)]
  rw [Edits.insertAt, producer, List.find?_append, List.find?_append, ← producer, ← producer, ← producer,
    none fun _ member => List.mem_of_mem_take member, none fun _ member => List.mem_of_mem_drop member,
    Option.none_or, Option.or_none]

/-- What insertions leave: the former calls in their order, and what the former descriptors are. -/
structure Extends (g g' : StashGroup) : Prop where
  next : g.next ≤ g'.next
  length : g'.progs.length = g.progs.length
  progs : ∀ (i : Nat) (p : SeedProg), g.progs[i]? = some p → ∃ calls, g'.progs[i]? = some { p with calls } ∧
    p.calls.Sublist calls ∧ ∀ fd < g.next, producer calls fd = producer p.calls fd

theorem Extends.refl (g : StashGroup) : Extends g g :=
  ⟨Nat.le_refl _, rfl, fun _ p here => ⟨p.calls, here, List.Sublist.refl _, fun _ _ => rfl⟩⟩

variable {g' : StashGroup}

theorem Extends.trans {g g'' : StashGroup} (first : Extends g g') (second : Extends g' g'') : Extends g g'' := by
  refine ⟨first.next.trans second.next, second.length.trans first.length, fun i p here => ?_⟩
  obtain ⟨calls, there, inside, known⟩ := first.progs i p here
  obtain ⟨calls', final, outside, known'⟩ := second.progs i _ there
  exact ⟨calls', final, inside.trans outside, fun fd small =>
    (known' fd (Nat.lt_of_lt_of_le small first.next)).trans (known fd small)⟩

/-- The calls of the programs return former results. -/
def Below (g : StashGroup) : Prop := ∀ p ∈ g.progs, ∀ o ∈ p.calls, ∀ fd, o.call.ret = some fd → fd < g.next

variable {c : Call}

theorem ret_of_numbers {g g₁ : StashGroup} {calls : List Call} (numbers : Numbers g g₁ calls) (member : c ∈ calls)
    (ret : c.ret = some fd) : g.next ≤ fd ∧ fd < g₁.next := by
  obtain ⟨k, results, next⟩ := numbers.count
  have listed : fd ∈ calls.flatMap callResults := by
    refine List.mem_flatMap.mpr ⟨c, member, ?_⟩
    rw [callResults, ret]
    exact List.mem_append_right _ (List.mem_singleton.mpr rfl)
  rw [results, List.mem_range'_1] at listed
  rw [next]
  exact listed

section Insert

variable {g g₁ : StashGroup} {ins : Inserted} {p : SeedProg}

def blockOf (g₁ : StashGroup) (calls : List Call) : List CallObj := calls.mapIdx fun i call => ⟨g₁.next + i, call⟩

theorem mem_blockOf {calls : List Call} {o : CallObj} (member : o ∈ blockOf g₁ calls) : o.call ∈ calls := by
  obtain ⟨i, inside, rfl⟩ := List.mem_mapIdx.mp member
  exact List.getElem_mem inside

theorem blockOf_mem (g₁ : StashGroup) {calls : List Call} (member : c ∈ calls) :
    ∃ o ∈ blockOf g₁ calls, o.call = c := by
  obtain ⟨i, inside, rfl⟩ := List.mem_iff_getElem.mp member
  exact ⟨⟨g₁.next + i, calls[i]⟩, List.mem_mapIdx.mpr ⟨i, inside, rfl⟩, rfl⟩

theorem insertBlock_own (numbers : Numbers g g₁ ins.calls) (here : g.progs[ins.progIdx]? = some p) :
    (insertBlock g₁ ins).progs[ins.progIdx]? =
      some { p with calls := Edits.insertAt p.calls ins.pos (blockOf g₁ ins.calls) } := by
  simp only [insertBlock, List.getElem?_modify_eq, numbers.progs, here]
  rfl

theorem insertBlock_other (numbers : Numbers g g₁ ins.calls) {i : Nat} (other : i ≠ ins.progIdx) :
    (insertBlock g₁ ins).progs[i]? = g.progs[i]? := by
  rw [insertBlock, List.getElem?_modify_ne _ _ other.symm, numbers.progs]

theorem insertBlock_extends (ins : Inserted) (numbers : Numbers g g₁ ins.calls) : Extends g (insertBlock g₁ ins) := by
  have next : g.next ≤ g₁.next := by
    obtain ⟨k, _, next⟩ := numbers.count
    omega
  refine ⟨next.trans (Nat.le_add_right _ _), ?_, fun i p here => ?_⟩
  · simp only [insertBlock, List.length_modify, numbers.progs]
  by_cases own : i = ins.progIdx
  · subst own
    refine ⟨_, insertBlock_own numbers here, ?_, fun fd small => ?_⟩
    · have whole : (p.calls.take ins.pos ++ p.calls.drop ins.pos).Sublist (Edits.insertAt p.calls ins.pos (blockOf g₁ ins.calls)) :=
        (List.Sublist.refl _).append (List.sublist_append_right _ _)
      rwa [List.take_append_drop] at whole
    · refine producer_insertAt_old (fun o member ret => ?_) ins.pos
      exact absurd (ret_of_numbers numbers (mem_blockOf member) ret).1 (Nat.not_le.mpr small)
  · exact ⟨p.calls, (insertBlock_other numbers own).trans here, List.Sublist.refl _, fun _ _ => rfl⟩

theorem insertBlock_below (below : Below g) (ins : Inserted) (numbers : Numbers g g₁ ins.calls) : Below (insertBlock g₁ ins) := by
  have next : g.next ≤ g₁.next := by
    obtain ⟨k, _, next⟩ := numbers.count
    omega
  intro q member o inside fd ret
  have grown : g₁.next ≤ (insertBlock g₁ ins).next := Nat.le_add_right _ _
  obtain ⟨i, there⟩ := List.getElem?_of_mem member
  by_cases own : i = ins.progIdx
  · subst own
    have length : ins.progIdx < g.progs.length := by
      have bound := (List.getElem?_eq_some_iff.mp there).1
      rwa [(insertBlock_extends ins numbers).length] at bound
    have here := List.getElem?_eq_getElem length
    rw [insertBlock_own numbers here] at there
    obtain rfl := Option.some.inj there
    rcases Edits.mem_insertAt inside with old | new
    · exact Nat.lt_of_lt_of_le (below _ (List.mem_of_getElem? here) o old fd ret) (next.trans grown)
    · exact Nat.lt_of_lt_of_le (ret_of_numbers numbers (mem_blockOf new) ret).2 grown
  · rw [insertBlock_other numbers own] at there
    exact Nat.lt_of_lt_of_le (below q (List.mem_of_getElem? there) o inside fd ret) (next.trans grown)

end Insert

/-! ### The calls of one operation -/

/-- A call whose first argument refers to `fd`. -/
def OnFd (fd : ResultId) (c : Call) : Prop := ∃ id rest, c.args = .result id (some fd) 0 :: rest

def MakesCall (use : ResultId → StashGroup → Call × StashGroup) : Prop :=
  ∀ fd g, OnFd fd (use fd g).1 ∧ Numbers g (use fd g).2 [(use fd g).1]

theorem MakesUse.makesCall {use : ResultId → StashGroup → Call × StashGroup} (uses : MakesUse use) : MakesCall use := by
  intro fd g
  obtain ⟨⟨⟨id, rest, args, _⟩, _⟩, numbers⟩ := uses fd g
  exact ⟨⟨id, rest, args⟩, numbers⟩

theorem fdCall_makesCall (name : String) {rest : List Arg} (results : argsResults rest = []) : MakesCall (fdCall name rest) := by
  intro fd g
  refine ⟨⟨_, _, rfl⟩, ⟨1, ?_, rfl⟩, rfl⟩
  simp [fdCall, makeResultArg, callResults, argsResults, argResults, results]

/-- The block of an operation: a call on the path, or one on a descriptor that is open or opened for it. -/
inductive OpBlock (fresh : ResultId) (path : String) (existing : Option ResultId) (takesFd : Prop) : List Call → Prop
  | onPath {c : Call} (named : ∃ addr rest, c.args = pathArg addr path :: rest) (other : ¬ takesFd) :
    OpBlock fresh path existing takesFd [c]
  | reuse {fd : ResultId} (known : existing = some fd) {c : Call} (use : OnFd fd c) (takes : takesFd) :
    OpBlock fresh path existing takesFd [c]
  | opened (unknown : existing = none) (addr flags : UInt64) {c : Call} (use : OnFd fresh c) (takes : takesFd) :
    OpBlock fresh path existing takesFd [openCall addr path flags 0o666 fresh, c]
  | nothing (other : ¬ takesFd) : OpBlock fresh path existing takesFd []

section Blocks

variable {path : String} {existing : Option ResultId} {takesFd : Prop}

theorem OpBlock.onPath_plain {g : StashGroup} (named : ∃ addr rest, c.args = pathArg addr path :: rest)
    (results : callResults c = []) (other : ¬ takesFd) :
    Numbers g g [c] ∧ OpBlock g.next path existing takesFd [c] := by
  refine ⟨⟨⟨0, ?_, rfl⟩, rfl⟩, .onPath named other⟩
  rw [List.flatMap_singleton, results]
  rfl

theorem onOpenFd_block {ch : CallChoice} {flags : UInt64} {use : ResultId → StashGroup → Call × StashGroup} (makes : MakesCall use)
    (takes : takesFd) (g : StashGroup) : Numbers g (onOpenFd ch path flags existing use g).2 (onOpenFd ch path flags existing use g).1 ∧
      OpBlock g.next path existing takesFd (onOpenFd ch path flags existing use g).1 := by
  cases existing with
  | some fd =>
    obtain ⟨onFd, numbers⟩ := makes fd g
    exact ⟨numbers, .reuse rfl onFd takes⟩
  | none =>
    obtain ⟨onFd, numbers⟩ := makes g.next (generateOpenCallSeq ch path flags g).2
    exact ⟨(generateOpenCallSeq_block ch path flags g none).2.append numbers, .opened rfl _ _ onFd takes⟩

theorem statCall_block (ch : CallChoice) (g : StashGroup) (other : ¬ takesFd) :
    Numbers g (generateStatCallWithPath ch path g).2 [(generateStatCallWithPath ch path g).1] ∧
      OpBlock g.next path existing takesFd [(generateStatCallWithPath ch path g).1] :=
  ⟨(generateStatCallWithPath_block ch path g existing).2, .onPath ⟨_, _, rfl⟩ other⟩

end Blocks

/-- The operations whose call works on a descriptor. -/
def fdOps : List String := ["close", "read", "write", "fsync", "getdents64"]

variable {op : ConcurrentOp} {basePath : String}

theorem patternOp_block {own : OpChoice} {ft : FileTree} {existing : Option ResultId} {offsetRel : OffsetRelationType}
    {shared : UInt64} {g g₁ : StashGroup} {calls : List Call}
    (made : generateCallFromPatternOp own ft op basePath existing offsetRel shared g = some (calls, g₁)) :
    Numbers g g₁ calls ∧
      OpBlock g.next (if (opPaths own ft op basePath).1 = "" then basePath else (opPaths own ft op basePath).1) existing
        (op.callName ∈ fdOps ∧ (opPaths own ft op basePath).1 ≠ "") calls := by
  unfold generateCallFromPatternOp at made
  dsimp only at made
  generalize opPaths own ft op basePath = paths at made ⊢
  obtain ⟨path, path2⟩ := paths
  dsimp only at made ⊢
  rcases ite_eq_iff.mp made with ⟨none, made⟩ | ⟨named, made⟩
  · obtain ⟨rfl, rfl⟩ := Prod.mk.inj (Option.some.inj made)
    rw [if_pos none]
    exact statCall_block own.call g fun both => both.2 none
  rw [if_neg named]
  -- an operation on a path is none on a descriptor
  have other (name : String) (distinct : name ∉ fdOps) (same : op.callName = name) : ¬ (op.callName ∈ fdOps ∧ path ≠ "") :=
    fun both => distinct (same ▸ both.1)
  have takes (name : String) (listed : name ∈ fdOps) (same : op.callName = name) : op.callName ∈ fdOps ∧ path ≠ "" :=
    ⟨same ▸ listed, named⟩
  rcases ite_eq_iff.mp made with ⟨name, made⟩ | ⟨-, made⟩
  · obtain ⟨rfl, rfl⟩ := Prod.mk.inj (Option.some.inj made)
    exact ⟨(generateOpenCallSeq_block own.call path _ g none).2, .onPath ⟨_, _, rfl⟩ (other _ (by decide) name)⟩
  rcases ite_eq_iff.mp made with ⟨name, made⟩ | ⟨notClose, made⟩
  · obtain ⟨rfl, rfl⟩ := Prod.mk.inj (Option.some.inj made)
    exact onOpenFd_block (fdCall_makesCall "close" rfl) (takes _ (by decide) name) g
  rcases ite_eq_iff.mp made with ⟨name, made⟩ | ⟨notRead, made⟩
  · rcases ite_eq_iff.mp made with ⟨-, made⟩ | ⟨-, made⟩
    · obtain ⟨info, -, made⟩ := Option.map_eq_some_iff.mp made
      obtain ⟨rfl, rfl⟩ := Prod.mk.inj made
      exact onOpenFd_block (fdCall_makesCall "pread64" rfl) (takes _ (by decide) name) g
    · obtain ⟨rfl, rfl⟩ := Prod.mk.inj (Option.some.inj made)
      exact onOpenFd_block (fdCall_makesCall "read" rfl) (takes _ (by decide) name) g
  rcases ite_eq_iff.mp made with ⟨name, made⟩ | ⟨notWrite, made⟩
  · rcases ite_eq_iff.mp made with ⟨-, made⟩ | ⟨-, made⟩
    · obtain ⟨info, -, made⟩ := Option.map_eq_some_iff.mp made
      obtain ⟨rfl, rfl⟩ := Prod.mk.inj made
      exact onOpenFd_block (fdCall_makesCall "pwrite64" rfl) (takes _ (by decide) name) g
    · obtain ⟨rfl, rfl⟩ := Prod.mk.inj (Option.some.inj made)
      exact onOpenFd_block (fdCall_makesCall "write" rfl) (takes _ (by decide) name) g
  rcases ite_eq_iff.mp made with ⟨name, made⟩ | ⟨-, made⟩
  · obtain ⟨call, truncates, same⟩ := Option.map_eq_some_iff.mp made
    obtain ⟨len, -, rfl⟩ := Option.map_eq_some_iff.mp truncates
    obtain ⟨rfl, rfl⟩ := Prod.mk.inj same
    exact OpBlock.onPath_plain ⟨_, _, rfl⟩ rfl (other _ (by decide) name)
  rcases ite_eq_iff.mp made with ⟨name, made⟩ | ⟨-, made⟩
  · obtain ⟨rfl, rfl⟩ := Prod.mk.inj (Option.some.inj made)
    exact OpBlock.onPath_plain ⟨_, _, rfl⟩ rfl (other _ (by decide) name)
  rcases ite_eq_iff.mp made with ⟨name, made⟩ | ⟨-, made⟩
  · obtain ⟨rfl, rfl⟩ := Prod.mk.inj (Option.some.inj made)
    exact OpBlock.onPath_plain ⟨_, _, rfl⟩ rfl (other _ (by decide) name)
  rcases ite_eq_iff.mp made with ⟨name, made⟩ | ⟨-, made⟩
  · obtain ⟨rfl, rfl⟩ := Prod.mk.inj (Option.some.inj made)
    exact OpBlock.onPath_plain ⟨_, _, rfl⟩ rfl (other _ (by decide) name)
  rcases ite_eq_iff.mp made with ⟨name, made⟩ | ⟨-, made⟩
  · obtain ⟨rfl, rfl⟩ := Prod.mk.inj (Option.some.inj made)
    exact ⟨(generateCreatCallWithPath_block own.call path g none).2, .onPath ⟨_, _, rfl⟩ (other _ (by decide) name)⟩
  rcases ite_eq_iff.mp made with ⟨name, made⟩ | ⟨-, made⟩
  · obtain ⟨rfl, rfl⟩ := Prod.mk.inj (Option.some.inj made)
    exact OpBlock.onPath_plain ⟨_, _, rfl⟩ rfl (other _ (by decide) name)
  rcases ite_eq_iff.mp made with ⟨name, made⟩ | ⟨-, made⟩
  · obtain ⟨rfl, rfl⟩ := Prod.mk.inj (Option.some.inj made)
    exact OpBlock.onPath_plain ⟨_, _, rfl⟩ rfl (other _ (by decide) name)
  rcases ite_eq_iff.mp made with ⟨name, made⟩ | ⟨-, made⟩
  · obtain ⟨rfl, rfl⟩ := Prod.mk.inj (Option.some.inj made)
    exact statCall_block own.call g (other _ (by decide) name)
  rcases ite_eq_iff.mp made with ⟨name, made⟩ | ⟨notFsync, made⟩
  · obtain ⟨rfl, rfl⟩ := Prod.mk.inj (Option.some.inj made)
    exact onOpenFd_block (fdCall_makesCall "fsync" rfl) (takes _ (by decide) name) g
  rcases ite_eq_iff.mp made with ⟨name, made⟩ | ⟨notDents, made⟩
  · obtain ⟨rfl, rfl⟩ := Prod.mk.inj (Option.some.inj made)
    exact onOpenFd_block (generateGetdents64CallWithFd_use own.call).makesCall (takes _ (by decide) name) g
  · obtain ⟨rfl, rfl⟩ := Prod.mk.inj (Option.some.inj made)
    refine ⟨⟨⟨0, rfl, rfl⟩, rfl⟩, .nothing fun both => ?_⟩
    simp [fdOps, notClose, notRead, notWrite, notFsync, notDents] at both

theorem opPaths_sharing (sharing : op.Sharing) (own : OpChoice) (ft : FileTree) (basePath : String) :
    (opPaths own ft op basePath).1 = basePath := by
  obtain ⟨relation, other⟩ := sharing
  simp only [List.mem_cons, List.not_mem_nil, or_false, not_or] at other
  have same (relation : PathRelation) (own' : relation = .self ∨ relation = .same) (constraint : RelTarget) :
      getPathByRelation ft basePath "" relation own.coin own.path false constraint = basePath := by
    unfold getPathByRelation
    simp only [Bool.false_and, Bool.false_eq_true, if_false]
    generalize ft.findNode basePath = found
    rcases own' with rfl | rfl <;> cases found <;> rfl
  unfold opPaths
  rw [if_neg (by simp [other])]
  rcases relation with args | args
  · rw [args]
    dsimp only
    rw [same .self (.inl rfl), ite_self]
  · rw [args]
    dsimp only
    rw [same .same (.inr rfl), ite_self]

/-- The descriptor of the call is a former one. -/
def RefBelow (n : Nat) (c : Call) : Prop := ∀ id fd v, c.args.head? = some (.result id (some fd) v) → fd < n

theorem callPath_congr {calls' : List CallObj} {n : Nat} (known : ∀ fd < n, producer calls' fd = producer calls fd)
    (below : RefBelow n c) : callPath calls' c = callPath calls c := by
  unfold callPath
  split
  next id fd v head => rw [known fd (below id fd v head)]
  next => rfl

theorem callPath_onFd (use : OnFd fd c) :
    callPath calls c = ((producer calls fd).map fun o => extractPathFromCall o.call).getD "" := by
  obtain ⟨id, rest, args⟩ := use
  rw [callPath, args]
  rfl

theorem callPath_pathArg {path : String} (named : ∃ addr rest, c.args = pathArg addr path :: rest) :
    callPath calls c = pathText path := by
  obtain ⟨addr, rest, args⟩ := named
  rw [callPath, args, extractPathFromCall, extractPathFromCallByArgIdx, args]
  rfl

theorem Operates.extends {g : StashGroup} {ins : Inserted} {path : String} (operates : Operates g ins path)
    (below : ∀ c ∈ ins.calls, RefBelow g.next c) (more : Extends g g') : Operates g' ins path := by
  obtain ⟨p, here, each⟩ := operates
  obtain ⟨calls, there, inside, known⟩ := more.progs _ p here
  refine ⟨_, there, fun c member => ?_⟩
  obtain ⟨⟨o, old, same⟩, own⟩ := each c member
  exact ⟨⟨o, inside.subset old, same⟩, (callPath_congr known (below c member)).trans own⟩

/-- The descriptor that a program offers, with the path its open names. -/
structure Offers (g : StashGroup) (progIdx : Nat) (fd : ResultId) (path : String) : Prop where
  old : fd < g.next
  named : ∃ p o, g.progs[progIdx]? = some p ∧ producer p.calls fd = some o ∧ extractPathFromCall o.call = path

theorem Offers.extends {g : StashGroup} {progIdx : Nat} {path : String} (offers : Offers g progIdx fd path)
    (more : Extends g g') : Offers g' progIdx fd path := by
  obtain ⟨p, o, here, found, named⟩ := offers.named
  obtain ⟨calls, there, _, known⟩ := more.progs _ p here
  exact ⟨Nat.lt_of_lt_of_le offers.old more.next, _, o, there, (known fd offers.old).trans found, named⟩

/-- What the calls of a block operate on, in the group with the block. -/
theorem OpBlock.operates {g g₁ : StashGroup} (ins : Inserted) {existing : Option ResultId} (fdPath : Option String) {takesFd : Prop}
    (block : OpBlock g.next ins.path existing takesFd ins.calls) (numbers : Numbers g g₁ ins.calls) (below : Below g)
    {p : SeedProg} (here : g.progs[ins.progIdx]? = some p)
    (unknown : existing = none → fdPath = none)
    (known : ∀ fd, existing = some fd → ∃ path, fdPath = some path ∧ Offers g ins.progIdx fd path) :
    (∃ path, Operates (insertBlock g₁ ins) ins path ∧ (takesFd → path = fdPath.getD (pathText ins.path)) ∧
        (¬ takesFd → path = pathText ins.path)) ∧
      (∀ c ∈ ins.calls, RefBelow (insertBlock g₁ ins).next c) ∧ (takesFd → ins.calls ≠ []) := by
  have own := insertBlock_own numbers here
  have more := insertBlock_extends ins numbers
  have inside {c : Call} (member : c ∈ ins.calls) :
      ∃ o ∈ Edits.insertAt p.calls ins.pos (blockOf g₁ ins.calls), o.call = c := by
    obtain ⟨o, new, same⟩ := blockOf_mem g₁ member
    exact ⟨o, List.mem_append_right _ (List.mem_append_left _ new), same⟩
  have fresh {c : Call} (member : c ∈ ins.calls) {fd : ResultId} (ret : c.ret = some fd) : fd < (insertBlock g₁ ins).next :=
    Nat.lt_of_lt_of_le (ret_of_numbers numbers member ret).2 (Nat.le_add_right _ _)
  obtain ⟨progIdx, callName, path, pos, calls⟩ := ins
  dsimp only at block numbers here known own inside fresh more ⊢
  cases block with
  | @onPath c named other =>
    have path_eq {calls : List CallObj} : callPath calls c = pathText path := callPath_pathArg named
    refine ⟨⟨_, ⟨_, own, fun c' member => ⟨inside member, ?_⟩⟩, fun takes => absurd takes other, fun _ => rfl⟩,
      fun c' member id fd v head => ?_, fun takes => absurd takes other⟩
    · rw [List.mem_singleton.mp member, path_eq]
    · obtain ⟨addr, rest, args⟩ := named
      rw [List.mem_singleton.mp member, args] at head
      cases head
  | @reuse fd same c use takes =>
    obtain ⟨s, path_eq, offers⟩ := known fd same
    have after := offers.extends more
    obtain ⟨q, o, there, found, named⟩ := after.named
    obtain rfl := Option.some.inj (own.symm.trans there)
    refine ⟨⟨s, ⟨_, own, fun c' member => ⟨inside member, ?_⟩⟩, fun _ => ?_, fun other => absurd takes other⟩,
      fun c' member id fd' v head => ?_, fun _ => List.cons_ne_nil _ _⟩
    · rw [List.mem_singleton.mp member, callPath_onFd use, found]
      exact named
    · rw [path_eq, Option.getD_some]
    · obtain ⟨id', rest, args⟩ := use
      rw [List.mem_singleton.mp member, args] at head
      cases head
      exact after.old
  | @opened none addr flags c use takes =>
    have apart : ∀ o ∈ p.calls, o.call.ret ≠ some g.next := fun o member ret =>
      absurd (below p (List.mem_of_getElem? here) o member g.next ret) (Nat.lt_irrefl _)
    have found : (producer (Edits.insertAt p.calls pos (blockOf g₁ [openCall addr path flags 0o666 g.next, c])) g.next).map
        (fun o => extractPathFromCall o.call) = some (pathText path) := by
      have named : Go.contains "open" "open" = true := by decide +kernel
      rw [producer_insertAt_new apart]
      simp [producer, blockOf, opens, CallObj.name, openCall, named]
      rfl
    refine ⟨⟨pathText path, ⟨_, own, fun c' member => ⟨inside member, ?_⟩⟩, fun _ => ?_, fun _ => rfl⟩,
      fun c' member id fd v head => ?_, fun _ => List.cons_ne_nil _ _⟩
    · rcases List.mem_cons.mp member with rfl | last
      · exact callPath_pathArg ⟨_, _, rfl⟩
      · rw [List.mem_singleton.mp last, callPath_onFd use, found, Option.getD_some]
    · rw [unknown none, Option.getD_none]
    · rcases List.mem_cons.mp member with rfl | last
      · cases head
      · obtain ⟨id', rest, args⟩ := use
        rw [List.mem_singleton.mp last, args] at head
        cases head
        exact fresh List.mem_cons_self rfl
  | nothing other =>
    refine ⟨⟨pathText path, ⟨_, own, fun c' member => ?_⟩, fun takes => absurd takes other, fun _ => rfl⟩,
      fun c' member => ?_, fun takes => absurd takes other⟩
    · cases member
    · cases member

/-! ### The operations of one program -/

/-- What was made for an operation: calls on its base path, or on the path of the descriptor of the program. -/
structure Fulfils (g : StashGroup) (fdPath : Nat → Option String) (slot : OpSlot) (m : PatternCalls) : Prop where
  op : m.op = slot.op
  basePath : m.basePath = slot.basePath
  progIdx : m.inserted.progIdx = slot.progIdx
  takes : slot.op.Sharing → slot.TakesFd → m.inserted.calls ≠ []
  operates : slot.op.Sharing → ∃ path, Operates g m.inserted path ∧
    (slot.TakesFd → path = (fdPath slot.progIdx).getD (pathText slot.basePath)) ∧ (¬ slot.TakesFd → path = pathText slot.basePath)
  below : slot.op.Sharing → ∀ c ∈ m.inserted.calls, RefBelow g.next c

theorem Fulfils.extends {g : StashGroup} {fdPath : Nat → Option String} {slot : OpSlot} {m : PatternCalls}
    (fulfils : Fulfils g fdPath slot m) (more : Extends g g') : Fulfils g' fdPath slot m := by
  refine ⟨fulfils.op, fulfils.basePath, fulfils.progIdx, fulfils.takes, fun sharing => ?_, fun sharing c member id fd v head => ?_⟩
  · obtain ⟨path, operates, either⟩ := fulfils.operates sharing
    exact ⟨path, operates.extends (fulfils.below sharing) more, either⟩
  · exact Nat.lt_of_lt_of_le (fulfils.below sharing c member id fd v head) more.next

/-- An open descriptor of a program, with its path, or none. -/
def OffersPath (g : StashGroup) (progIdx : Nat) (existing : Option ResultId) (fdPath : Option String) : Prop :=
  (existing = none ∧ fdPath = none) ∨ ∃ fd path, existing = some fd ∧ fdPath = some path ∧ Offers g progIdx fd path

theorem OffersPath.extends {g : StashGroup} {progIdx : Nat} {existing : Option ResultId} {fdPath : Option String}
    (offers : OffersPath g progIdx existing fdPath) (more : Extends g g') : OffersPath g' progIdx existing fdPath := by
  rcases offers with both | ⟨fd, path, known, named, offers⟩
  · exact .inl both
  · exact .inr ⟨fd, path, known, named, offers.extends more⟩

variable {made : List PatternCalls}

section Ops

variable {ch : PatternChoice} {cids : List String} {cid : String} {nodeIdx : Nat} {existing : Option ResultId}
  {fdPath : Nat → Option String} {offsetRel : OffsetRelationType} {shared : UInt64}

theorem patternOp_fulfils {g g₁ : StashGroup} {p : SeedProg} (below : Below g) (here : g.progs[nodeIdx]? = some p)
    (offers : OffersPath g nodeIdx existing (fdPath nodeIdx)) {own : OpChoice} {calls : List Call}
    (made : generateCallFromPatternOp own ch.ft op basePath existing offsetRel shared g = some (calls, g₁))
    (pos : Nat) :
    Numbers g g₁ calls ∧ Fulfils (insertBlock g₁ ⟨nodeIdx, op.callName, basePath, pos, calls⟩) fdPath ⟨nodeIdx, op, basePath⟩
      ⟨op, basePath, ⟨nodeIdx, op.callName, basePath, pos, calls⟩⟩ := by
  obtain ⟨numbers, block⟩ := patternOp_block made
  refine ⟨numbers, ?_⟩
  have result (sharing : op.Sharing) := by
    rw [opPaths_sharing sharing] at block
    have whole : OpBlock g.next basePath existing (OpSlot.TakesFd ⟨nodeIdx, op, basePath⟩) calls := by
      split at block <;> exact block
    refine OpBlock.operates ⟨nodeIdx, op.callName, basePath, pos, calls⟩ (fdPath nodeIdx) whole numbers below here
      (fun none => ?_) (fun fd known => ?_)
    · rcases offers with ⟨_, nothing⟩ | ⟨fd, path, known, _, _⟩
      · exact nothing
      · rw [none] at known
        nomatch known
    · rcases offers with ⟨none, _⟩ | ⟨fd', path, known', named, offers⟩
      · rw [none] at known
        nomatch known
      · obtain rfl := Option.some.inj (known.symm.trans known')
        exact ⟨path, named, offers⟩
  exact ⟨rfl, rfl, rfl, fun sharing => (result sharing).2.2, fun sharing => (result sharing).1, fun sharing => (result sharing).2.1⟩

/-- The operations of one program: what is made for each, and that nothing else changes. -/
theorem insertOps_fulfils (cid0 : nodeIdx = 0 → cid = cids.headD "") {ops : List ConcurrentOp} {k pos : Nat}
    {basePath' : String} {g : StashGroup} {ok : Bool} {p : SeedProg} (below : Below g)
    (here : g.progs[nodeIdx]? = some p) (offers : OffersPath g nodeIdx existing (fdPath nodeIdx))
    (inserted : insertOps ch cid nodeIdx existing offsetRel shared k ops pos basePath g = some (ok, made, basePath', g')) :
    Extends g g' ∧ Below g' ∧ (∀ i, i ≠ nodeIdx → g'.progs[i]? = g.progs[i]?) ∧ (ok = true →
      basePath' = lastBase ch cids nodeIdx k ops basePath ∧
        List.Forall₂ (Fulfils g' fdPath) (opSlots ch cids nodeIdx k ops basePath) made) := by
  induction ops generalizing k pos basePath g made p with
  | nil =>
    cases inserted
    exact ⟨.refl _, below, fun _ _ => rfl, fun _ => ⟨rfl, .nil⟩⟩
  | cons op ops ih =>
    unfold insertOps at inserted
    dsimp only at inserted
    split at inserted
    next none =>
      cases inserted
      exact ⟨.refl _, below, fun _ _ => rfl, nofun⟩
    next base next =>
      have base_eq : nextBase ch cids nodeIdx k op basePath = base := by
        unfold nextBase
        split at next
        next zero =>
          rw [if_pos zero, ← cid0 zero, next, Option.getD_some]
        next other =>
          rw [if_neg other, Option.some.inj next]
      obtain ⟨⟨calls, g₁⟩, one, inserted⟩ := Option.bind_eq_some_iff.mp inserted
      obtain ⟨⟨ok', others, base', g₂⟩, rest, same⟩ := Option.map_eq_some_iff.mp inserted
      obtain ⟨numbers, fulfils⟩ := patternOp_fulfils below here offers one pos
      cases same
      have more := insertBlock_extends ⟨nodeIdx, op.callName, base, pos, calls⟩ numbers
      obtain ⟨calls', there, _⟩ := more.progs _ p here
      obtain ⟨extends', below', frame, law⟩ := ih (insertBlock_below below _ numbers) there (offers.extends more) rest
      refine ⟨more.trans extends', below', fun i other => (frame i other).trans (insertBlock_other numbers other), fun fine => ?_⟩
      obtain ⟨last, each⟩ := law fine
      rw [lastBase, opSlots, base_eq]
      exact ⟨last, .cons (fulfils.extends extends') each⟩

end Ops

theorem mem_fdRanges {useFd : Nat} {range : FdRange} (member : range ∈ fdRanges useFd calls) :
    ∃ o, calls[range.openIdx]? = some o ∧ opens o.name = true ∧ o.call.ret = some range.fd := by
  obtain ⟨openIdx, listed, some_⟩ := List.mem_filterMap.mp member
  obtain ⟨o, here, some_⟩ := Option.bind_eq_some_iff.mp some_
  obtain ⟨fd, ret, some_⟩ := Option.bind_eq_some_iff.mp some_
  obtain ⟨-, same⟩ := Option.ite_none_right_eq_some.mp some_
  obtain rfl := Option.some.inj same
  obtain ⟨o', there, named⟩ := mem_indicesWhere.mp listed
  obtain rfl := Option.some.inj (here.symm.trans there)
  exact ⟨o, here, Bool.or_eq_true_iff.mpr (.inl named), ret⟩

theorem producer_eq (once : (resultsOf calls).Nodup) {i : Nat} {o : CallObj} (here : calls[i]? = some o)
    (isOpen : opens o.name = true) (ret : o.call.ret = some fd) : producer calls fd = some o := by
  have returns {o : CallObj} (ret : o.call.ret = some fd) : fd ∈ callResults o.call := by
    rw [callResults, ret]
    exact List.mem_append_right _ (List.mem_singleton.mpr rfl)
  cases found : producer calls fd with
  | none =>
    have missed := List.find?_eq_none.mp found o (List.mem_of_getElem? here)
    simp [isOpen, ret] at missed
  | some o' =>
    have wanted := List.find?_some found
    rw [Bool.and_eq_true, beq_iff_eq] at wanted
    obtain ⟨j, there⟩ := List.getElem?_of_mem (List.mem_of_find?_eq_some found)
    obtain rfl := callResults_unique once here there (returns ret) (returns wanted.2)
    exact there.symm.trans here

/-- The path that the drawn open of a program names. -/
def drawnPath (ch : PatternChoice) (g : StashGroup) (i : Nat) : Option String :=
  (g.progs[i]?.bind (drawnOpen ch i)).map fun o => extractPathFromCall o.call

theorem nodePosition_offers (ch : PatternChoice) {g : StashGroup} (apart : ResultsApart g) {nodeIdx : Nat} {p : SeedProg}
    (here : g.progs[nodeIdx]? = some p) (refTime : Int64) :
    OffersPath g nodeIdx (nodePosition ch nodeIdx refTime p.calls).2 (drawnPath ch g nodeIdx) := by
  have kind : (decide (wantedFd ch.seedType > 0) && decide (wantedFd ch.seedType ≤ 3)) = true := by
    unfold wantedFd
    split <;> rfl
  rw [drawnPath, here, Option.bind_some, drawnOpen]
  cases drawn : drawnRange (wantedFd ch.seedType) (ch.node nodeIdx).at_ p.calls with
  | none =>
    refine .inl ⟨?_, rfl⟩
    have found : (findInsertPosition ch.etime refTime (ch.tscoff nodeIdx) (wantedFd ch.seedType) (ch.node nodeIdx).at_ p.calls).2 =
        none := by
      unfold findInsertPosition
      dsimp only
      rw [if_pos kind, drawn]
      split <;> rfl
    unfold nodePosition
    dsimp only
    rw [found]
    rfl
  | some range =>
    obtain ⟨o, opened, isOpen, ret⟩ := mem_fdRanges (List.mem_of_getElem? drawn)
    have member : p ∈ g.progs := List.mem_of_getElem? here
    have some_ : ¬ p.calls.length = 0 := by
      have inside := (List.getElem?_eq_some_iff.mp opened).1
      omega
    have found : (findInsertPosition ch.etime refTime (ch.tscoff nodeIdx) (wantedFd ch.seedType) (ch.node nodeIdx).at_ p.calls).2 =
        some range.fd := by
      unfold findInsertPosition
      dsimp only
      rw [if_pos kind, if_neg some_, drawn]
    refine .inr ⟨range.fd, extractPathFromCall o.call, ?_, ?_, ?_⟩
    · unfold nodePosition
      dsimp only
      rw [if_pos (Option.isSome_iff_exists.mpr ⟨_, found⟩), found]
    · rw [Option.bind_some, opened]
      rfl
    · exact ⟨apart.below p member o (List.mem_of_getElem? opened) _ ret, p, o, here,
        producer_eq (apart.once p member) opened isOpen ret, rfl⟩

section Pattern

variable {ch : PatternChoice} {cids : List String} {g₀ : StashGroup}

theorem insertNodes_fulfils (apart : ResultsApart g₀) {offsetRel : OffsetRelationType} {shared : UInt64}
    {rest : List (List ConcurrentOp)} {nodeIdx : Nat} {ref ref' : Option Reference} {basePath' : String}
    {g : StashGroup} {ok : Bool} (more : Extends g₀ g) (below : Below g)
    (untouched : ∀ i, nodeIdx ≤ i → g.progs[i]? = g₀.progs[i]?)
    (inserted : insertNodes ch cids offsetRel shared nodeIdx rest ref basePath g = some (ok, made, ref', basePath', g')) :
    Extends g g' ∧ Below g' ∧ (ok = true →
      List.Forall₂ (Fulfils g' (drawnPath ch g₀)) (nodeSlots ch cids (g₀.progs.length - nodeIdx) nodeIdx rest basePath) made) := by
  induction rest generalizing nodeIdx ref basePath g made with
  | nil =>
    cases inserted
    refine ⟨.refl _, below, fun _ => ?_⟩
    unfold nodeSlots
    split <;> first | exact .nil | contradiction
  | cons ops rest ih =>
    unfold insertNodes at inserted
    cases here : g.progs[nodeIdx]? with
    | none =>
      rw [here] at inserted
      cases inserted
      have outside : g₀.progs.length - nodeIdx = 0 := by
        have bound := List.getElem?_eq_none_iff.mp ((untouched nodeIdx (Nat.le_refl _)).symm.trans here)
        omega
      rw [outside]
      exact ⟨.refl _, below, fun _ => .nil⟩
    | some p =>
      rw [here] at inserted
      dsimp only at inserted
      obtain ⟨cid, named, inserted⟩ := Option.bind_eq_some_iff.mp inserted
      obtain ⟨⟨ok₁, first, base₁, g₁⟩, own, inserted⟩ := Option.bind_eq_some_iff.mp inserted
      have there : g₀.progs[nodeIdx]? = some p := (untouched nodeIdx (Nat.le_refl _)).symm.trans here
      have offers := (nodePosition_offers ch apart there ((ref.map Reference.time).getD (-1))).extends more
      have cid0 : nodeIdx = 0 → cid = cids.headD "" := by
        rintro rfl
        rw [List.headD_eq_head?_getD, List.head?_eq_getElem?, named, Option.getD_some]
      obtain ⟨grown, below₁, frame, law⟩ := insertOps_fulfils cid0 below here offers own
      cases ok₁ with
      | false =>
        cases inserted
        exact ⟨grown, below₁, nofun⟩
      | true =>
        obtain ⟨⟨ok₂, others, ref₂, base₂, g₂⟩, tail, same⟩ := Option.map_eq_some_iff.mp inserted
        cases same
        obtain ⟨last, firsts⟩ := law rfl
        have behind : ∀ i, nodeIdx + 1 ≤ i → g₁.progs[i]? = g₀.progs[i]? := fun i after =>
          (frame i (by omega)).trans (untouched i (by omega))
        obtain ⟨grown', below₂, rests⟩ := ih (more.trans grown) below₁ behind tail
        refine ⟨grown.trans grown', below₂, fun fine => ?_⟩
        have size : g₀.progs.length - nodeIdx = (g₀.progs.length - (nodeIdx + 1)) + 1 := by
          have inside := (List.getElem?_eq_some_iff.mp there).1
          omega
        have kept := firsts.imp fun slot m fulfils => fulfils.extends grown'
        rw [size, nodeSlots, ← last]
        exact List.rel_append kept (rests fine)

theorem verification_numbers (kind : Draw) (own : CallChoice) (basePath : String) (flags : UInt64) (g : StashGroup) :
    Numbers g (generateVerificationCalls kind own basePath flags g).2 (generateVerificationCalls kind own basePath flags g).1 := by
  have opened := (generateOpenCallSeq_block own basePath flags g none).2
  unfold generateVerificationCalls
  split
  next => exact opened
  split
  next =>
    have read := (fdCall_makesCall "pread64" rfl : MakesCall (generatePreadCallsSeq own
      ⟨UInt64.ofNat ((own.draw 1).intn 1024) + 1, UInt64.ofNat ((own.draw 0).intn 1024) + 1⟩)) g.next
        (generateOpenCallSeq own basePath flags g).2
    exact (opened.append read.2).append (generateCloseCall_numbers g.next _)
  next => exact (generateStatCallWithPath_block own basePath g none).2

theorem insertVerification_extends {ref : Option Reference} {nodes : List Nat} {g : StashGroup}
    (inserted : insertVerification ch cids ref basePath nodes g = some g') : Extends g g' := by
  induction nodes generalizing g with
  | nil =>
    cases inserted
    exact .refl _
  | cons nodeIdx rest ih =>
    unfold insertVerification at inserted
    cases here : g.progs[nodeIdx]? with
    | none =>
      rw [here] at inserted
      cases inserted
      exact .refl _
    | some p =>
      rw [here] at inserted
      dsimp only at inserted
      obtain ⟨cid, -, inserted⟩ := Option.bind_eq_some_iff.mp inserted
      exact (insertBlock_extends _ (verification_numbers _ _ _ _ g)).trans (ih inserted)

theorem mem_of_forall₂ {α β : Type} {R : α → β → Prop} {as : List α} {bs : List β} (related : List.Forall₂ R as bs) :
    (∀ a ∈ as, ∃ b ∈ bs, R a b) ∧ ∀ b ∈ bs, ∃ a ∈ as, R a b := by
  induction related with
  | nil => exact ⟨nofun, nofun⟩
  | cons here _ ih =>
    obtain ⟨left, right⟩ := ih
    constructor
    · rintro a (_ | ⟨_, member⟩)
      · exact ⟨_, List.mem_cons_self, here⟩
      · obtain ⟨b, there, rel⟩ := left a member
        exact ⟨b, List.mem_cons_of_mem _ there, rel⟩
    · rintro b (_ | ⟨_, member⟩)
      · exact ⟨_, List.mem_cons_self, here⟩
      · obtain ⟨a, there, rel⟩ := right b member
        exact ⟨a, List.mem_cons_of_mem _ there, rel⟩

theorem sharesResource_iff (fulfils : List.Forall₂ (Fulfils g' (drawnPath ch g₀)) (patternSlots ch cids g₀) made) :
    SharesResource g' made ↔ DrawnOpensShared ch cids g₀ := by
  obtain ⟨left, right⟩ := mem_of_forall₂ fulfils
  constructor
  · intro shares slot member sharing takes p o here drawn
    obtain ⟨m, listed, own⟩ := left slot member
    obtain ⟨path, ⟨q, there, each⟩, onFd, -⟩ := own.operates sharing
    obtain ⟨q', there', each'⟩ := shares m listed (own.op ▸ sharing)
    obtain rfl := Option.some.inj (there.symm.trans there')
    obtain ⟨c, inside⟩ := List.exists_mem_of_ne_nil _ (own.takes sharing takes)
    have known : drawnPath ch g₀ slot.progIdx = some (extractPathFromCall o.call) := by
      rw [drawnPath, here, Option.bind_some, drawn]
      rfl
    rw [← own.basePath, ← (each' c inside).2, (each c inside).2, onFd takes, known, Option.getD_some]
  · intro shared m listed sharing
    obtain ⟨slot, member, own⟩ := right m listed
    obtain ⟨path, operates, onFd, onPath⟩ := own.operates (own.op ▸ sharing)
    suffices same : path = pathText m.basePath by
      rwa [same] at operates
    rw [own.basePath]
    by_cases takes : slot.TakesFd
    · rw [onFd takes, drawnPath]
      cases here : g₀.progs[slot.progIdx]? with
      | none => rw [Option.bind_none, Option.map_none, Option.getD_none]
      | some p =>
        rw [Option.bind_some]
        cases drawn : drawnOpen ch slot.progIdx p with
        | none => rw [Option.map_none, Option.getD_none]
        | some o =>
          rw [Option.map_some, Option.getD_some]
          exact shared slot member (own.op ▸ sharing) takes p o here drawn
    · exact onPath takes

end Pattern

/-- The calls that a pattern inserts for its Self and Same operations all operate on the base path, and the
former calls stay as they were, exactly where the open that is drawn for a descriptor names that path. -/
theorem pattern_shared_iff (cids : List String) (ch : PatternChoice) {g g' : StashGroup} {made : List PatternCalls}
    (apart : ResultsApart g) (inserted : insertCallFromPattern cids ch g = some (true, made, g')) :
    SharesResource g' made ∧ FormerKept g g' ↔ DrawnOpensShared ch cids g := by
  unfold insertCallFromPattern at inserted
  cases drawn : getRandomPattern ch with
  | none =>
    rw [drawn] at inserted
    nomatch inserted
  | some pattern =>
    rw [drawn] at inserted
    dsimp only at inserted
    obtain ⟨-, inserted⟩ | ⟨-, inserted⟩ := ite_eq_iff.mp inserted
    · nomatch inserted
    obtain ⟨p0, first, inserted⟩ := Option.bind_eq_some_iff.mp inserted
    obtain ⟨cid0, named, inserted⟩ := Option.bind_eq_some_iff.mp inserted
    have cid_eq : cids.headD "" = cid0 := by
      rw [List.headD_eq_head?_getD, List.head?_eq_getElem?, named, Option.getD_some]
    cases base : patternBasePath ch cid0 p0.calls with
    | none =>
      rw [base] at inserted
      nomatch inserted
    | some basePath =>
      rw [base] at inserted
      dsimp only at inserted
      obtain ⟨shared, -, inserted⟩ := Option.bind_eq_some_iff.mp inserted
      obtain ⟨⟨ok, nodes, ref, base', g₁⟩, walked, inserted⟩ := Option.bind_eq_some_iff.mp inserted
      dsimp only at inserted
      cases ok with
      | false => nomatch inserted
      | true =>
        obtain ⟨g₂, verified, same⟩ := Option.map_eq_some_iff.mp inserted
        cases same
        obtain ⟨grown, -, law⟩ := insertNodes_fulfils apart (.refl g) apart.below (fun _ _ => rfl) walked
        have more := insertVerification_extends verified
        have slots : patternSlots ch cids g = nodeSlots ch cids (g.progs.length - 0) 0 pattern.operations basePath := by
          rw [patternSlots, drawn, first, Option.bind_some, cid_eq, base]
          rfl
        have fulfils := (law rfl).imp fun slot m own => own.extends more
        rw [← slots] at fulfils
        rw [sharesResource_iff fulfils]
        refine and_iff_left ⟨(grown.trans more).length, fun i p here => ?_⟩
        obtain ⟨calls, there, inside, -⟩ := (grown.trans more).progs i p here
        exact ⟨calls, there, inside⟩

/-! ### Two programs with open files -/

def openOf (fd : ResultId) (path : String) : CallObj := ⟨fd, openCall 0 path 2 0o666 fd⟩

/-- Both programs have the file `a` open, the second also `b`. -/
def filesOpen : StashGroup where
  progs := [{ calls := [openOf 0 "merge_view/a"] }, { calls := [openOf 1 "merge_view/a", openOf 2 "merge_view/b"] }]
  next := 3

theorem filesOpen_apart : ResultsApart filesOpen := by
  constructor <;> intro p member <;> simp only [filesOpen, List.mem_cons, List.not_mem_nil, or_false] at member
  · rcases member with rfl | rfl <;> decide
  · intro o inside fd ret
    rcases member with rfl | rfl <;> simp only [List.mem_cons, List.not_mem_nil, or_false] at inside
    · subst inside
      cases ret
      decide
    · rcases inside with rfl | rfl <;> cases ret <;> decide

def plainDraws : CallChoice where
  draw _ := fixedDraw 0
  data _ := fixedDraw 0
  addr _ := 0
  suffix := ""
  buffer := .plain 0 144
  count := 0

/-- One program writes and the other reads; `drawn` is the open that the second program draws. -/
def writeRead (drawn : Nat) : PatternChoice where
  seedType := "fileops"
  ft := (newFileTree.addNode "merge_view/a" .file "c1").addNode "merge_view/b" .file "c2"
  etime _ := none
  tscoff _ := 0
  pattern := fixedDraw 2
  candidate := fixedDraw 0
  file := fixedDraw 0
  dir := fixedDraw 0
  nearOffset := fixedDraw 0
  offset := fixedDraw 0
  wideOffset := 0
  node i :=
    { at_ := ⟨fixedDraw (if i = 1 then drawn else 0), fixedDraw 0, fixedDraw 0⟩
      other := ⟨fixedDraw 0, fixedDraw 0, fixedDraw 0⟩
      op _ := ⟨plainDraws, fixedDraw 0, fixedDraw 0, fixedDraw 0, "", "", 0⟩
      verification := fixedDraw 0
      verify := plainDraws }

/-- The operations with their base paths and the paths of their calls. -/
def operated (made : List PatternCalls) (g' : StashGroup) : List (ConcurrentOp × String × List String) :=
  made.map fun m => (m.op, m.basePath, m.inserted.calls.map fun c =>
    ((g'.progs[m.inserted.progIdx]?).map fun p => callPath p.calls c).getD "")

theorem SharesResource.operated (shares : SharesResource g' made) {paths : List String}
    (member : (op, basePath, paths) ∈ operated made g') (sharing : op.Sharing) :
    ∀ path ∈ paths, path = pathText basePath := by
  obtain ⟨m, listed, same⟩ := List.mem_map.mp member
  cases same
  obtain ⟨p, here, each⟩ := shares m listed sharing
  intro path inside
  obtain ⟨c, made, rfl⟩ := List.mem_map.mp inside
  rw [here, Option.map_some, Option.getD_some]
  exact (each c made).2

/-- What the two operations of the pattern operate on when the second program draws that open. -/
def writeReadPaths (drawn : Nat) : Option (Bool × List (ConcurrentOp × String × List String)) :=
  (insertCallFromPattern ["c1", "c2"] (writeRead drawn) filesOpen).map fun r => (r.1, operated r.2.1 r.2.2)

/-- Drawn to their first opens, both programs share the file. -/
theorem pattern_shared_sameFile : ∃ made g', insertCallFromPattern ["c1", "c2"] (writeRead 0) filesOpen = some (true, made, g') ∧
    operated made g' = [(⟨"write", [.self]⟩, "merge_view/a", ["merge_view/a"]), (⟨"read", [.same]⟩, "merge_view/a", ["merge_view/a"])] ∧
    SharesResource g' made ∧ FormerKept filesOpen g' := by
  have runs : writeReadPaths 0 = some (true, [(⟨"write", [.self]⟩, "merge_view/a", ["merge_view/a"]),
      (⟨"read", [.same]⟩, "merge_view/a", ["merge_view/a"])]) := by decide +kernel
  obtain ⟨⟨ok, made, g'⟩, run, same⟩ := Option.map_eq_some_iff.mp runs
  obtain rfl : ok = true := congrArg Prod.fst same
  have drawn : ∀ slot ∈ patternSlots (writeRead 0) ["c1", "c2"] filesOpen, ∀ p ∈ filesOpen.progs[slot.progIdx]?,
      ∀ o ∈ drawnOpen (writeRead 0) slot.progIdx p, extractPathFromCall o.call = pathText slot.basePath := by decide +kernel
  refine ⟨made, g', run, congrArg Prod.snd same, ?_⟩
  apply (pattern_shared_iff _ _ filesOpen_apart run).mpr
  intro slot listed _ _ p o here drew
  exact drawn slot listed p here o drew

/-- Drawn to its second open, the second program reads another file than the first one writes. -/
theorem pattern_otherFile : ∃ made g', insertCallFromPattern ["c1", "c2"] (writeRead 1) filesOpen = some (true, made, g') ∧
    ResultsApart filesOpen ∧ ¬ (SharesResource g' made ∧ FormerKept filesOpen g') := by
  have runs : writeReadPaths 1 = some (true, [(⟨"write", [.self]⟩, "merge_view/a", ["merge_view/a"]),
      (⟨"read", [.same]⟩, "merge_view/a", ["merge_view/b"])]) := by decide +kernel
  obtain ⟨⟨ok, made, g'⟩, run, same⟩ := Option.map_eq_some_iff.mp runs
  obtain rfl : ok = true := congrArg Prod.fst same
  refine ⟨made, g', run, filesOpen_apart, fun both => ?_⟩
  have paths := congrArg Prod.snd same
  dsimp only at paths
  have read : ((⟨"read", [.same]⟩ : ConcurrentOp), "merge_view/a", ["merge_view/b"]) ∈ operated made g' := by
    rw [paths]
    exact List.mem_cons_of_mem _ List.mem_cons_self
  have wrong := both.1.operated read ⟨.inr rfl, by decide⟩ "merge_view/b" List.mem_cons_self
  exact absurd wrong (by decide +kernel)

end DfsFuzz.Generate
