import DfsFuzz.Mutation.Buffers

/-!
When the mutations that rewrite a buffer keep the buffers of every program apart.
-/

namespace DfsFuzz.Buffers

open Ranges

/-- No two pointees of the program have an address in common. -/
def Disjoint (p : Prog) : Prop := p.pointees.Pairwise Span.Apart

/-! ### Replacing one argument -/

theorem pointeesOf_append (front back : List Arg) : pointeesOf (front ++ back) = pointeesOf front ++ pointeesOf back := by
  induction front with
  | nil => rfl
  | cons arg front ih => rw [List.cons_append, pointeesOf, pointeesOf, ih, List.append_assoc]

def othersOf (p : Prog) (callIdx argIdx : Nat) : List Span := (setArg p callIdx argIdx (.plain 0)).pointees

variable {p : Prog} {callIdx argIdx : Nat} {arg : Arg}

theorem exists_around (here : argAt p callIdx argIdx = some arg) :
    ∃ before after, p.pointees = before ++ arg.pointees ++ after ∧
      ∀ new, (setArg p callIdx argIdx new).pointees = before ++ new.pointees ++ after := by
  obtain ⟨call, atCall, atArg⟩ := Option.bind_eq_some_iff.mp here
  obtain ⟨inCalls, rfl⟩ := List.getElem?_eq_some_iff.mp atCall
  obtain ⟨inArgs, rfl⟩ := List.getElem?_eq_some_iff.mp atArg
  refine ⟨(p.calls.take callIdx).flatMap (fun c => pointeesOf c.args) ++ pointeesOf (p.calls[callIdx].args.take argIdx),
    pointeesOf (p.calls[callIdx].args.drop (argIdx + 1)) ++ (p.calls.drop (callIdx + 1)).flatMap fun c => pointeesOf c.args, ?_, ?_⟩
  · have calls : p.calls = p.calls.take callIdx ++ p.calls[callIdx] :: p.calls.drop (callIdx + 1) := by simp
    have args : p.calls[callIdx].args = p.calls[callIdx].args.take argIdx ++
        p.calls[callIdx].args[argIdx] :: p.calls[callIdx].args.drop (argIdx + 1) := by simp
    have inner := congrArg pointeesOf args
    have outer := congrArg (List.flatMap fun c : Call => pointeesOf c.args) calls
    rw [pointeesOf_append, pointeesOf] at inner
    rw [List.flatMap_append, List.flatMap_cons, inner] at outer
    rw [Prog.pointees, outer]
    simp only [List.append_assoc]
  · intro new
    simp only [Prog.pointees, setArg, List.modify_eq_take_cons_drop inCalls, List.flatMap_append, List.flatMap_cons,
      List.set_eq_take_append_cons_drop, inArgs, if_true, pointeesOf_append, pointeesOf, List.append_assoc]

theorem Disjoint.others (disjoint : Disjoint p) (here : argAt p callIdx argIdx = some arg) :
    (othersOf p callIdx argIdx).Pairwise Span.Apart := by
  obtain ⟨before, after, whole, replaced⟩ := exists_around here
  rw [othersOf, replaced]
  rw [Disjoint, whole] at disjoint
  refine pairwise_replace disjoint List.Pairwise.nil ?_
  rintro x ⟨⟩

/-- The new pointees have to be apart from those outside the argument only. -/
theorem setArg_disjoint {new : Arg} (here : argAt p callIdx argIdx = some arg)
    (others : (othersOf p callIdx argIdx).Pairwise Span.Apart) (news : new.pointees.Pairwise Span.Apart)
    (apart : ∀ x ∈ new.pointees, ∀ y ∈ othersOf p callIdx argIdx, x.Apart y) :
    Disjoint (setArg p callIdx argIdx new) := by
  obtain ⟨before, after, -, replaced⟩ := exists_around here
  have around : othersOf p callIdx argIdx = before ++ [] ++ after := replaced (.plain 0)
  rw [around] at others
  rw [around, List.append_nil] at apart
  rw [Disjoint, replaced]
  exact pairwise_replace others news apart

theorem setArg_setArg (p : Prog) (callIdx argIdx : Nat) (first second : Arg) :
    setArg (setArg p callIdx argIdx first) callIdx argIdx second = setArg p callIdx argIdx second := by
  obtain ⟨calls, fail⟩ := p
  simp only [setArg, Prog.mk.injEq, and_true]
  refine List.ext_getElem? fun i => ?_
  simp only [List.getElem?_modify]
  cases calls[i]? with
  | none => rfl
  | some c => by_cases same : callIdx = i <;> simp [same]

theorem othersOf_setArg (p : Prog) (callIdx argIdx : Nat) (new : Arg) :
    othersOf (setArg p callIdx argIdx new) callIdx argIdx = othersOf p callIdx argIdx := by
  rw [othersOf, othersOf, setArg_setArg]

theorem argAt_setArg (here : argAt p callIdx argIdx = some arg) (new : Arg) :
    argAt (setArg p callIdx argIdx new) callIdx argIdx = some new := by
  obtain ⟨call, atCall, atArg⟩ := Option.bind_eq_some_iff.mp here
  have inside : argIdx < call.args.length := (List.getElem?_eq_some_iff.mp atArg).1
  simp only [argAt, setArg, List.getElem?_modify, atCall, if_true, Option.map_some, Option.bind_some, Option.map_eq_map]
  exact List.getElem?_set_self inside

theorem mem_othersOf (here : argAt p callIdx argIdx = some arg) {r : Span} (other : r ∈ othersOf p callIdx argIdx) :
    r ∈ p.pointees := by
  obtain ⟨before, after, whole, replaced⟩ := exists_around here
  rw [othersOf, replaced, Arg.pointees, List.append_nil] at other
  rw [whole, List.append_assoc]
  rcases List.mem_append.mp other with first | last
  · exact List.mem_append_left _ first
  · exact List.mem_append_right _ (List.mem_append_right _ last)

/-- `len` bytes at the address of a slot end before the next buffer begins. -/
def Room (p : Prog) (callIdx argIdx len : Nat) : Prop :=
  ∀ slot, dataSlot p callIdx argIdx = some slot → ∀ r ∈ othersOf p callIdx argIdx,
    r.size = 0 ∨ r.start + r.size ≤ slot.address ∨ slot.address + len ≤ r.start

variable {slot : DataSlot}

theorem argAt_of_dataSlot (here : dataSlot p callIdx argIdx = some slot) : argAt p callIdx argIdx = some slot.arg := by
  obtain ⟨arg, found, isSlot⟩ := Option.bind_eq_some_iff.mp here
  rw [found]
  unfold argSlot at isSlot
  split at isSlot
  · cases isSlot
    rfl
  · cases isSlot

theorem Room.apart {len : Nat} (room : Room p callIdx argIdx len) (here : dataSlot p callIdx argIdx = some slot)
    {r : Span} (other : r ∈ othersOf p callIdx argIdx) : (Span.mk slot.address len).Apart r := by
  rw [Span.apart_iff]
  rcases room slot here r other with empty | before | after
  · exact .inr (.inl empty)
  · exact .inr (.inr (.inr before))
  · exact .inr (.inr (.inl after))

theorem setData_disjoint {data : List UInt8} (disjoint : Disjoint p) (some_data : data ≠ [])
    (room : Room p callIdx argIdx data.length) : Disjoint (setData p callIdx argIdx data) := by
  rw [setData]
  cases here : dataSlot p callIdx argIdx with
  | none => exact disjoint
  | some slot =>
    have size : (Arg.data slot.isOut data slot.size).size = data.length := by
      rw [Arg.size, if_pos (List.length_pos_iff.mpr some_data).ne']
    have at_arg := argAt_of_dataSlot here
    refine setArg_disjoint at_arg (disjoint.others at_arg) ?_ ?_
    · simp [DataSlot.arg, Arg.pointees]
    · intro x member y other
      simp only [DataSlot.arg, Arg.pointees, size, List.mem_singleton] at member
      rw [member]
      exact room.apart here other

theorem noteAll_noted {ranges : List Span} {ma : MemAlloc} {i : Nat}
    (touched : ma.noted i = true ∨ ∃ r ∈ ranges, r.Touches memAllocGranule i) :
    (ranges.foldl (fun ma range => ma.noteAlloc range.start range.size) ma).noted i = true := by
  induction ranges generalizing ma with
  | nil =>
    rcases touched with before | ⟨r, none, -⟩
    · exact before
    · cases none
  | cons range ranges ih =>
    refine ih ?_
    rcases touched with before | ⟨r, member, touches⟩
    · exact .inl (by simp [MemAlloc.noteAlloc, before])
    · rcases List.mem_cons.mp member with rfl | later
      · refine .inl ?_
        obtain ⟨above, below⟩ := touches
        simp [MemAlloc.noteAlloc, above, below]
      · exact .inr ⟨r, later, touches⟩

/-- What `alloc` returns touches no noted granule. -/
theorem alloc_free {ma : MemAlloc} {size alignment fresh : Nat} (found : ma.alloc size alignment = some fresh) {i : Nat}
    (touches : (Span.mk fresh size).Touches memAllocGranule i) : ma.noted i = false := by
  rw [MemAlloc.alloc] at found
  split at found
  · cases found
  · obtain ⟨start, first, rfl⟩ := Option.map_eq_some_iff.mp found
    have holds := List.find?_some first
    have free := List.all_eq_true.mp holds
    obtain ⟨above, below⟩ := touches
    rw [Nat.mul_div_cancel _ (by decide)] at above
    have inside : i - start < granulesOf size := by
      rw [granulesOf]
      simp only [memAllocGranule] at below ⊢
      split <;> omega
    have here := free (i - start) (List.mem_range.mpr inside)
    rw [Nat.add_sub_cancel' above] at here
    simpa using here

variable {memSize : Nat}

theorem fresh_apart {size alignment fresh : Nat} (found : (stateFromProg memSize p).alloc size alignment = some fresh)
    {r s : Span} (known : r ∈ p.pointees) (inside : ∀ i, s.Touches memAllocGranule i → r.Touches memAllocGranule i) :
    (Span.mk fresh size).Apart s := by
  refine Span.apart_of_touches (show 0 < memAllocGranule by decide) fun i mine other => ?_
  have noted : (stateFromProg memSize p).noted i = true := noteAll_noted (.inr ⟨r, known, inside i other⟩)
  rw [alloc_free found mine] at noted
  cases noted

/-- The new path and the new target of a rename end before the next buffers begin. -/
def PathFits (p : Prog) (callIdx : Nat) (newPath suffix : List UInt8) : Prop :=
  ∀ call, p.calls[callIdx]? = some call → (dataSlot p callIdx 0).isSome →
    Room p callIdx 0 (newPath.length + 1) ∧
      (Go.contains call.name "rename" = true →
        Room (setData p callIdx 0 (newPath ++ [0])) callIdx 1 (newPath.length + suffix.length + 11))

def UpdateFits (ps : List Prog) (u : PathUpdate) : Prop :=
  ∀ p, ps[u.progIdx]? = some p → PathFits p u.callIdx u.newPath u.suffix

def UpdatesFit : List Prog → List PathUpdate → Prop
  | _, [] => True
  | ps, u :: rest => UpdateFits ps u ∧ UpdatesFit (applyUpdate ps u) rest

/-- The command for the drawn nodes ends before the next buffer begins. -/
def TargetFits (cfg : HmdfsConfig) (ps : List Prog) (setSize : Nat) (perm : List Nat) : Prop :=
  ∀ pidx callIdx p, targetCall ps = some (pidx, callIdx) → 1 < cfg.nodeNum → ps[pidx]? = some p →
    Room p callIdx 0 (newCmd cfg (randSetExcept 0 setSize pidx perm)).length

/-- The call is of the program whose allocator is asked, and the pointer that takes the place of the data fits there. -/
structure WriteFits (ps : List Prog) (source progIdx callIdx : Nat) (inPlace : Bool) (newData : List UInt8) : Prop where
  own : source = progIdx
  room : ∀ p, ps[progIdx]? = some p → ∀ slot, dataSlot p callIdx 1 = some slot → Room p callIdx 1 slot.type.size ∧
    (slot.address + slot.type.size + memAllocGranule - 1) / memAllocGranule ≤
      (slot.address + (Arg.data slot.isOut (if inPlace then newData else slot.bytes) slot.size).size + memAllocGranule - 1) /
        memAllocGranule

/-- The grown buffer of a read ends before the next buffer begins. -/
def ReadFits (ps : List Prog) (read : Nat × Nat) (newLen : Nat) : Prop :=
  ∀ p, ps[read.1]? = some p → ∀ slot, dataSlot p read.2 1 = some slot →
    Room p read.2 1 (Arg.data slot.isOut slot.bytes newLen).size

def ReadsFit (newLen : Nat) : List Prog → List (Nat × Nat) → Prop
  | _, [] => True
  | ps, read :: rest => ReadFits ps read newLen ∧ ReadsFit newLen (syncStashReadVerification ps [read] newLen) rest

/-! ### One mutation -/

def AllDisjoint (ps : List Prog) : Prop := ∀ p ∈ ps, Disjoint p

variable {ps : List Prog}

theorem allDisjoint_modify {i : Nat} {f : Prog → Prog} (all : AllDisjoint ps)
    (one : ∀ p, ps[i]? = some p → Disjoint (f p)) : AllDisjoint (ps.modify i f) := by
  intro q member
  obtain ⟨j, there⟩ := List.getElem?_of_mem member
  rw [List.getElem?_modify] at there
  cases here : ps[j]? with
  | none =>
    rw [here] at there
    cases there
  | some p =>
    rw [here] at there
    by_cases same : i = j
    · subst same
      simp only [if_true, Option.map_eq_map, Option.map_some, Option.some.injEq] at there
      exact there ▸ one p here
    · simp only [same, if_false, Option.map_eq_map, Option.map_some, Option.some.injEq] at there
      exact there ▸ all p (List.mem_of_getElem? here)

theorem updateCallPathInProg_disjoint {newPath suffix : List UInt8} (disjoint : Disjoint p)
    (fits : PathFits p callIdx newPath suffix) : Disjoint (updateCallPathInProg p callIdx newPath suffix) := by
  rw [updateCallPathInProg]
  cases here : p.calls[callIdx]? with
  | none => exact disjoint
  | some call =>
    by_cases slot : (dataSlot p callIdx 0).isNone
    · simp only [slot, if_true]
      exact disjoint
    · obtain ⟨path, target⟩ := fits call here (by simpa [Option.isNone_iff_eq_none, Option.isSome_iff_ne_none] using slot)
      have first : Disjoint (setData p callIdx 0 (newPath ++ [0])) :=
        setData_disjoint disjoint (by simp) (by simpa using path)
      simp only [slot, Bool.false_eq_true, if_false]
      split
      · rename_i rename
        refine setData_disjoint first (by simp) ?_
        have length : (newPath ++ toBytes "._renamed_" ++ suffix ++ [0]).length = newPath.length + suffix.length + 11 := by
          simp [toBytes]
          omega
        rw [length]
        exact target rename
      · exact first

theorem applyUpdate_disjoint {u : PathUpdate} (all : AllDisjoint ps) (fits : UpdateFits ps u) :
    AllDisjoint (applyUpdate ps u) :=
  allDisjoint_modify all fun p here => updateCallPathInProg_disjoint (all p (List.mem_of_getElem? here)) (fits p here)

theorem mutateGroupPathDynamic_disjoint {updates : List PathUpdate} (all : AllDisjoint ps)
    (fit : UpdatesFit ps updates) : AllDisjoint (mutateGroupPathDynamic ps updates) := by
  induction updates generalizing ps with
  | nil => exact all
  | cons u rest ih => exact ih (applyUpdate_disjoint all fit.1) fit.2

theorem newCmd_ne_nil (cfg : HmdfsConfig) (nodes : List Nat) : newCmd cfg nodes ≠ [] := by
  simp [newCmd, toBytes]

theorem mutateStashTargetNodes_disjoint {cfg : HmdfsConfig} {ps' : List Prog} {setSize : Nat} {perm : List Nat}
    (all : AllDisjoint ps) (fits : TargetFits cfg ps setSize perm)
    (run : mutateStashTargetNodes cfg ps setSize perm = some ps') : AllDisjoint ps' := by
  rw [mutateStashTargetNodes] at run
  split at run
  · exact Option.some.inj run ▸ all
  · rename_i pidx callIdx target
    split at run
    · cases run
    · split at run
      · exact Option.some.inj run ▸ all
      · rename_i several
        refine Option.some.inj run ▸ allDisjoint_modify all fun p here => ?_
        exact setData_disjoint (all p (List.mem_of_getElem? here)) (newCmd_ne_nil cfg _)
          (fits pidx callIdx p target (by omega) here)

variable {newData : List UInt8}

theorem reassignDataArg_disjoint {p' : Prog} (here : dataSlot p callIdx 1 = some slot)
    (others : (othersOf p callIdx 1).Pairwise Span.Apart) (room : Room p callIdx 1 slot.type.size)
    (covered : (slot.address + slot.type.size + memAllocGranule - 1) / memAllocGranule ≤
      (slot.address + (Arg.data slot.isOut slot.bytes slot.size).size + memAllocGranule - 1) / memAllocGranule)
    (run : reassignDataArg memSize p p callIdx newData = some p') : Disjoint p' := by
  have at_arg := argAt_of_dataSlot here
  rw [reassignDataArg, at_arg] at run
  obtain ⟨fresh, found, rfl⟩ := Option.map_eq_some_iff.mp run
  obtain ⟨before, after, whole, -⟩ := exists_around at_arg
  have old : Span.mk slot.address (Arg.data slot.isOut slot.bytes slot.size).size ∈ p.pointees := by
    rw [whole]
    simp [DataSlot.arg, Arg.pointees]
  refine setArg_disjoint at_arg others ?_ ?_
  · simp only [Arg.pointees, List.pairwise_cons, List.mem_singleton, forall_eq, List.not_mem_nil, false_implies, implies_true,
      List.Pairwise.nil, and_true]
    refine (fresh_apart found old fun i touches => ?_).symm
    exact ⟨touches.1, Nat.lt_of_lt_of_le touches.2 covered⟩
  · intro x member y other
    simp only [Arg.pointees, List.mem_cons, List.not_mem_nil, or_false] at member
    rcases member with rfl | rfl
    · exact room.apart here other
    · exact fresh_apart found (mem_othersOf at_arg other) fun _ touches => touches

theorem dataSlot_setData (here : dataSlot p callIdx argIdx = some slot) (data : List UInt8) :
    dataSlot (setData p callIdx argIdx data) callIdx argIdx = some { slot with bytes := data } := by
  rw [setData, here, dataSlot, argAt_setArg (argAt_of_dataSlot here)]
  rfl

theorem othersOf_setData (p : Prog) (callIdx argIdx : Nat) (data : List UInt8) :
    othersOf (setData p callIdx argIdx data) callIdx argIdx = othersOf p callIdx argIdx := by
  rw [setData]
  split
  · exact othersOf_setArg ..
  · rfl

/-- What is reassigned: the program, with the new bytes in place or not yet. -/
theorem written_disjoint {p' : Prog} {inPlace : Bool} (disjoint : Disjoint p)
    (here : dataSlot p callIdx 1 = some slot) (room : Room p callIdx 1 slot.type.size)
    (covered : (slot.address + slot.type.size + memAllocGranule - 1) / memAllocGranule ≤
      (slot.address + (Arg.data slot.isOut (if inPlace then newData else slot.bytes) slot.size).size + memAllocGranule - 1) /
        memAllocGranule) {q : Prog} (before : q = if inPlace then setData p callIdx 1 newData else p)
    (run : reassignDataArg memSize q q callIdx newData = some p') : Disjoint p' := by
  have others := disjoint.others (argAt_of_dataSlot here)
  cases inPlace with
  | false =>
    subst before
    exact reassignDataArg_disjoint here others room covered run
  | true =>
    subst before
    have slot' := dataSlot_setData here newData
    refine reassignDataArg_disjoint slot' ((othersOf_setData ..).symm ▸ others) ?_ covered run
    intro other same
    rw [slot'] at same
    cases same
    rw [othersOf_setData]
    exact room slot here

theorem set_modify (ps : List Prog) (i : Nat) (f : Prog → Prog) (p : Prog) : (ps.modify i f).set i p = ps.set i p := by
  refine List.ext_getElem? fun j => ?_
  by_cases same : i = j <;> simp [List.getElem?_set, same]

theorem changeWriteBuffer_disjoint {ps' : List Prog} {source progIdx : Nat} {inPlace : Bool} (all : AllDisjoint ps)
    (fits : WriteFits ps source progIdx callIdx inPlace newData)
    (run : changeWriteBuffer memSize ps source progIdx callIdx inPlace newData = some ps') : AllDisjoint ps' := by
  obtain ⟨rfl, room⟩ := fits
  rw [changeWriteBuffer] at run
  split at run
  · cases run
  · rename_i read
    cases here : ps[source]? with
    | none => simp [readable, here] at read
    | some p =>
      cases at_slot : dataSlot p callIdx 1 with
      | none => simp [readable, here, at_slot] at read
      | some slot =>
        obtain ⟨fits, covered⟩ := room p here slot at_slot
        have written : (if inPlace then ps.modify source fun p => setData p callIdx 1 newData else ps)[source]? =
            some (if inPlace then setData p callIdx 1 newData else p) := by
          cases inPlace <;> simp [here]
        simp only [written, Option.bind_some] at run
        obtain ⟨p', done, rfl⟩ := Option.map_eq_some_iff.mp run
        have new := written_disjoint (all p (List.mem_of_getElem? here)) at_slot fits covered rfl done
        have whole : (if inPlace then ps.modify source fun p => setData p callIdx 1 newData else ps).set source p' =
            ps.set source p' := by
          cases inPlace
          · rfl
          · exact set_modify ..
        rw [whole]
        intro q member
        rcases List.mem_or_eq_of_mem_set member with old | rfl
        · exact all q old
        · exact new

theorem resizeRead_disjoint {newLen : Nat} (disjoint : Disjoint p)
    (fits : ∀ slot, dataSlot p callIdx 1 = some slot → Room p callIdx 1 (Arg.data slot.isOut slot.bytes newLen).size) :
    Disjoint (resizeRead newLen p callIdx) := by
  rw [resizeRead]
  cases here : dataSlot p callIdx 1 with
  | none => exact disjoint
  | some slot =>
    simp only
    split
    · have at_arg := argAt_of_dataSlot here
      refine setArg_disjoint at_arg (disjoint.others at_arg) ?_ ?_
      · simp [DataSlot.arg, Arg.pointees]
      · intro x member y other
        simp only [DataSlot.arg, Arg.pointees, List.mem_singleton] at member
        rw [member]
        exact (fits slot here).apart here other
    · exact disjoint

theorem syncStashReadVerification_disjoint {reads : List (Nat × Nat)} {newLen : Nat} (all : AllDisjoint ps)
    (fit : ReadsFit newLen ps reads) : AllDisjoint (syncStashReadVerification ps reads newLen) := by
  induction reads generalizing ps with
  | nil => exact all
  | cons read rest ih =>
    refine ih (allDisjoint_modify all fun p here => ?_) fit.2
    exact resizeRead_disjoint (all p (List.mem_of_getElem? here)) (fit.1 p here)

inductive Mutation where
  | path (u : PathUpdate)
  | migrate (updates : List PathUpdate)
  | target (setSize : Nat) (perm : List Nat)
  | write (source progIdx callIdx : Nat) (inPlace : Bool) (newData : List UInt8)
  | sync (reads : List (Nat × Nat)) (newLen : Nat)

/-- `none` when a pointee cannot be read or the allocator runs out of memory. -/
def Mutation.apply (memSize : Nat) (cfg : HmdfsConfig) (ps : List Prog) : Mutation → Option (List Prog)
  | .path u => some (applyUpdate ps u)
  | .migrate updates => some (mutateGroupPathDynamic ps updates)
  | .target setSize perm => mutateStashTargetNodes cfg ps setSize perm
  | .write source progIdx callIdx inPlace newData => changeWriteBuffer memSize ps source progIdx callIdx inPlace newData
  | .sync reads newLen => some (syncStashReadVerification ps reads newLen)

def Mutation.Fits (cfg : HmdfsConfig) (ps : List Prog) : Mutation → Prop
  | .path u => UpdateFits ps u
  | .migrate updates => UpdatesFit ps updates
  | .target setSize perm => TargetFits cfg ps setSize perm
  | .write source progIdx callIdx inPlace newData => WriteFits ps source progIdx callIdx inPlace newData
  | .sync reads newLen => ReadsFit newLen ps reads

theorem Mutation.apply_disjoint {cfg : HmdfsConfig} {ps' : List Prog} {m : Mutation} (all : AllDisjoint ps)
    (fits : m.Fits cfg ps) (run : m.apply memSize cfg ps = some ps') : AllDisjoint ps' := by
  cases m with
  | path u =>
    cases run
    exact applyUpdate_disjoint all fits
  | migrate updates =>
    cases run
    exact mutateGroupPathDynamic_disjoint all fits
  | target setSize perm => exact mutateStashTargetNodes_disjoint all fits run
  | write source progIdx callIdx inPlace newData => exact changeWriteBuffer_disjoint all fits run
  | sync reads newLen =>
    cases run
    exact syncStashReadVerification_disjoint all fits

def FittingStep (memSize : Nat) (cfg : HmdfsConfig) (ps ps' : List Prog) : Prop :=
  ∃ m : Mutation, m.Fits cfg ps ∧ m.apply memSize cfg ps = some ps'

/-- Mutations that fit keep the buffers of every program apart, however many there are. -/
theorem mutations_disjoint {memSize : Nat} {cfg : HmdfsConfig} {ps ps' : List Prog} (all : AllDisjoint ps)
    (run : Relation.ReflTransGen (FittingStep memSize cfg) ps ps') : AllDisjoint ps' := by
  induction run with
  | refl => exact all
  | tail _ step ih =>
    obtain ⟨m, fits, done⟩ := step
    exact Mutation.apply_disjoint ih fits done

/-- An open of `path` at 0 and a write of `data` at 64. -/
def openWrite (path data : List UInt8) : Prog where
  calls :=
    [⟨"open$hmdfs", [.pointer ⟨8, 1⟩ 0 (.data false path 0), .plain 8, .plain 8]⟩,
      ⟨"pwrite64$hmdfs", [.plain 8, .pointer ⟨8, 1⟩ 64 (.data false data 0), .plain 8, .plain 8]⟩]

/-- A partition whose command is at 0, and an open at 128. -/
def partitionOpen (nodes : List Nat) : Prog where
  calls :=
    [⟨"syz_failure_net_down$hmdfs", [.pointer ⟨8, 1⟩ 0 (.data false (newCmd ⟨9, "192.168.0.1"⟩ nodes) 0)]⟩,
      ⟨"open$hmdfs", [.pointer ⟨8, 1⟩ 128 (.data false [47, 97, 0] 0), .plain 8, .plain 8]⟩]
  hasNetFail := true

instance (p : Prog) : Decidable (Disjoint p) := inferInstanceAs (Decidable (p.pointees.Pairwise Span.Apart))

instance (ps : List Prog) : Decidable (AllDisjoint ps) := inferInstanceAs (Decidable (∀ p ∈ ps, Disjoint p))

/-- The path grows twice, and stays below the data at 64. -/
theorem mutations_disjoint_openWrite :
    AllDisjoint (applyUpdate (applyUpdate [openWrite [47, 97, 0] [1, 2]] ⟨0, 0, 47 :: List.replicate 39 98, []⟩)
      ⟨0, 0, 47 :: List.replicate 59 99, []⟩) := by
  refine @mutations_disjoint 16777216 ⟨3, "192.168.0.1"⟩ [openWrite [47, 97, 0] [1, 2]] _ (by decide)
    ((Relation.ReflTransGen.single ⟨.path ⟨0, 0, 47 :: List.replicate 39 98, []⟩, ?_, rfl⟩).tail
      ⟨.path ⟨0, 0, 47 :: List.replicate 59 99, []⟩, ?_, rfl⟩)
  all_goals
    rintro p ⟨⟩ call ⟨⟩ -
    refine ⟨?_, fun rename => absurd rename (by decide +kernel)⟩
    rintro slot ⟨⟩
    decide +kernel

theorem exists_overlap {run : Option (List Prog)} (some_run : run.any (fun ps => !decide (AllDisjoint ps)) = true) :
    ∃ ps, run = some ps ∧ ¬ AllDisjoint ps := by
  obtain ⟨ps, eq, overlap⟩ := (Option.any_eq_true _ _).mp some_run
  exact ⟨ps, eq, by simpa using overlap⟩

/-- A path of 64 bytes with its zero runs into the data; a command for more nodes runs into a path; the allocator of the first
program gives out an address that the second has in use. -/
theorem mutations_overlap :
    (AllDisjoint [openWrite [47, 97, 0] [1, 2]] ∧
      ¬ AllDisjoint (applyUpdate [openWrite [47, 97, 0] [1, 2]] ⟨0, 0, List.replicate 64 47, []⟩)) ∧
    (AllDisjoint [partitionOpen [1]] ∧
      ∃ ps, mutateStashTargetNodes ⟨9, "192.168.0.1"⟩ [partitionOpen [1]] 3 (List.range 9) = some ps ∧ ¬ AllDisjoint ps) ∧
    AllDisjoint [⟨[], false⟩, openWrite [47, 97, 0] [1, 2]] ∧
      ∃ ps, changeWriteBuffer 262144 [⟨[], false⟩, openWrite [47, 97, 0] [1, 2]] 0 1 1 true [1] = some ps ∧ ¬ AllDisjoint ps := by
  refine ⟨⟨by decide +kernel, by decide +kernel⟩, ⟨by decide +kernel, ?_⟩, by decide +kernel, ?_⟩
  · exact exists_overlap (by decide +kernel)
  · exact exists_overlap (by decide +kernel)

end DfsFuzz.Buffers
