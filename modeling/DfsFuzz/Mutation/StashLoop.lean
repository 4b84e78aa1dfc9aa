import DfsFuzz.Mutation.Stash

/-!
The write parameters of a stash seed (`prog/mutation.go`): a mutated write takes the reads of its
region along, so that what is written is read back. Reads are matched by region alone, and two
writes of one region share their reads.
-/

namespace DfsFuzz.Mutation

open DfsFuzz.Choice

def isWrite (name : String) : Bool := Go.contains name "pwrite64"

/-- `delta` is the draw, with 0 replaced by 1. -/
def deltaOf (draw : Draw) (range half : Nat) : Int64 :=
  let delta := Int64.ofNat (draw.intn range) - Int64.ofNat half
  if delta = 0 then 1 else delta

def newOffset (pos : UInt64) (draw : Draw) : UInt64 :=
  let newVal := pos.toInt64 + deltaOf draw 1025 512
  if newVal < 0 then 0 else newVal.toUInt64

def newLength (count : UInt64) (draw : Draw) : UInt64 :=
  let newLen := count.toInt64 + deltaOf draw 257 128
  let newLen := if newLen < 1 then 1 else newLen
  if newLen > 8192 then 8192 else newLen.toUInt64

def resized (old : List UInt8) (newLen : Nat) (pad : Nat → UInt8) : List UInt8 :=
  (List.range newLen).map fun i => old.getD i (pad i)

/-- `reassignDataArg` puts the new pointer behind the old one. -/
def reassignDataArg (address newAddress : UInt64) (newData : List UInt8) : Arg :=
  .pointer address (some (.pointer newAddress (some (.data newData))))

/-- What the three mutations draw: the padding and the new data are bytes, the address is that of
the new buffer. -/
inductive WriteDraws where
  | offset (delta : Draw)
  | length (delta : Draw) (pad : Nat → UInt8) (newAddress : UInt64)
  | data (newData : List UInt8) (newAddress : UInt64)

/-- The mutated call, or `none` where the source returns false (or stops: an out buffer has no
data). -/
def writeEdit (call : Call) : WriteDraws → Option Call
  | .offset delta =>
    match call.args with
    | fd :: buf :: .const count :: .const pos :: rest =>
      some { call with args := fd :: buf :: .const count :: .const (newOffset pos delta) :: rest }
    | _ => none
  | .length delta pad newAddress =>
    match call.args with
    | fd :: buf :: .const count :: .const pos :: rest =>
      let newLen := newLength count delta
      match buf with
      | .pointer _ (some (.outData _)) => none
      | .pointer address (some (.data old)) =>
        let buf := reassignDataArg address newAddress (resized old newLen.toNat pad)
        some { call with args := fd :: buf :: .const newLen :: .const pos :: rest }
      | _ => some { call with args := fd :: buf :: .const newLen :: .const pos :: rest }
    | _ => none
  | .data newData newAddress =>
    match call.args with
    | fd :: .pointer address (some (.data old)) :: .const _ :: .const pos :: rest =>
      if old.length = 0 then none
      else
        let buf := reassignDataArg address newAddress newData
        some { call with args := fd :: buf :: .const (UInt64.ofNat newData.length) :: .const pos :: rest }
    | _ => none

def resizeOut (newLen : UInt64) : Arg → Arg
  | .pointer address (some (.outData _)) => .pointer address (some (.outData newLen))
  | buf => buf

def syncRead (old new : UInt64 × UInt64) (o : CallObj) : CallObj :=
  if isRead o.name && writeRegion o.call = some old then
    match o.call.args with
    | fd :: buf :: _ :: _ :: rest =>
      { o with call := { o.call with args := fd :: resizeOut new.2 buf :: .const new.2 :: .const new.1 :: rest } }
    | _ => o
  else o

def syncStashReadVerification (ps : List SeedProg) (old new : UInt64 × UInt64) : List SeedProg :=
  ps.map fun p => { p with calls := p.calls.map (syncRead old new) }

def objAt (ps : List SeedProg) (loc : Nat × Nat) : Option CallObj := ps[loc.1]?.bind fun p => p.calls[loc.2]?

def setCallAt (ps : List SeedProg) (loc : Nat × Nat) (call : Call) : List SeedProg :=
  ps.modify loc.1 fun p => { p with calls := p.calls.modify loc.2 fun o => { o with call } }

/-- `mutateWriteOffset`, `mutateWriteLength` and `mutateWriteData` on the write at `loc`, which the
caller picks among the calls named pwrite64. -/
def mutateWrite (ps : List SeedProg) (loc : Nat × Nat) (draws : WriteDraws) : List SeedProg :=
  match objAt ps loc with
  | none => ps
  | some o =>
    if isWrite o.name then
      match writeEdit o.call draws with
      | none => ps
      | some call =>
        match writeRegion o.call, writeRegion call with
        | some old, some new => syncStashReadVerification (setCallAt ps loc call) old new
        | _, _ => ps
    else ps

def mutateWriteOffset (ps : List SeedProg) (loc : Nat × Nat) (delta : Draw) : List SeedProg :=
  mutateWrite ps loc (.offset delta)

def mutateWriteLength (ps : List SeedProg) (loc : Nat × Nat) (delta : Draw) (pad : Nat → UInt8) (newAddress : UInt64) :
    List SeedProg := mutateWrite ps loc (.length delta pad newAddress)

def mutateWriteData (ps : List SeedProg) (loc : Nat × Nat) (newData : List UInt8) (newAddress : UInt64) : List SeedProg :=
  mutateWrite ps loc (.data newData newAddress)

def ReadsRegion (ps : List SeedProg) (region : UInt64 × UInt64) : Prop :=
  ∃ loc o, objAt ps loc = some o ∧ isRead o.name = true ∧ writeRegion o.call = some region

def LoopClosed (ps : List SeedProg) : Prop :=
  ∀ loc o region, objAt ps loc = some o → isWrite o.name = true → writeRegion o.call = some region → ReadsRegion ps region

def outSize : Arg → Option UInt64
  | .pointer _ (some (.outData size)) => some size
  | _ => none

def outBuffer (call : Call) : Option UInt64 := call.args[1]?.bind outSize

/-- Every read has a buffer of the size it asks for. -/
def BuffersFit (ps : List SeedProg) : Prop :=
  ∀ loc o region size, objAt ps loc = some o → isRead o.name = true → writeRegion o.call = some region →
    outBuffer o.call = some size → size = region.2

/-! ### One step -/

theorem objAt_set (ps : List SeedProg) (loc : Nat × Nat) (call : Call) (a : Nat × Nat) :
    objAt (setCallAt ps loc call) a = if a = loc then (objAt ps a).map fun o => { o with call } else objAt ps a := by
  obtain ⟨i, k⟩ := a
  obtain ⟨j, l⟩ := loc
  simp only [objAt, setCallAt, List.getElem?_modify, Prod.mk.injEq]
  cases ps[i]? with
  | none => simp
  | some p =>
    by_cases prog : j = i
    · subst prog
      by_cases pos : l = k
      · subst pos
        simp
      · have other : k ≠ l := fun same => pos same.symm
        simp [pos, other]
    · have other : i ≠ j := fun same => prog same.symm
      simp [prog, other]

theorem objAt_sync (ps : List SeedProg) (old new : UInt64 × UInt64) (a : Nat × Nat) :
    objAt (syncStashReadVerification ps old new) a = (objAt ps a).map (syncRead old new) := by
  simp only [objAt, syncStashReadVerification, List.getElem?_map]
  cases ps[a.1]? with
  | none => rfl
  | some p => simp

theorem writeRegion_some {call : Call} {region : UInt64 × UInt64} (read : writeRegion call = some region) :
    ∃ fd buf rest, call.args = fd :: buf :: .const region.2 :: .const region.1 :: rest := by
  unfold writeRegion at read
  split at read
  · rename_i fd buf length offset rest args
    obtain rfl := Option.some.inj read
    exact ⟨fd, buf, rest, args⟩
  · cases read

theorem syncRead_spec (old new : UInt64 × UInt64) (o : CallObj) :
    (syncRead old new o).name = o.name ∧
      if isRead o.name = true ∧ writeRegion o.call = some old then
        writeRegion (syncRead old new o).call = some new ∧
          ∀ size, outBuffer (syncRead old new o).call = some size → size = new.2
      else syncRead old new o = o := by
  unfold syncRead
  by_cases matched : isRead o.name = true ∧ writeRegion o.call = some old
  · obtain ⟨fd, buf, rest, args⟩ := writeRegion_some matched.2
    rw [if_pos matched, if_pos (by simpa using matched), args]
    refine ⟨rfl, rfl, fun size read => ?_⟩
    have resized : outSize (resizeOut new.2 buf) = some size := read
    unfold resizeOut at resized
    split at resized
    · exact (Option.some.inj resized).symm
    · rename_i notOut
      unfold outSize at resized
      split at resized
      · exact absurd rfl (notOut _ _)
      · cases resized
  · rw [if_neg matched, if_neg (by simpa using matched)]
    exact ⟨rfl, rfl⟩

theorem writeEdit_spec {call call' : Call} {draws : WriteDraws} (edited : writeEdit call draws = some call') :
    call'.name = call.name ∧ ∃ old new, writeRegion call = some old ∧ writeRegion call' = some new ∧
      ∀ size, outBuffer call' = some size → outBuffer call = some size ∧ new.2 = old.2 := by
  cases draws with
  | offset delta =>
    simp only [writeEdit] at edited
    split at edited
    · rename_i fd buf count pos rest args
      obtain rfl := Option.some.inj edited
      refine ⟨rfl, (pos, count), (newOffset pos delta, count), by simp [writeRegion, args], rfl, fun size read => ?_⟩
      refine ⟨?_, rfl⟩
      rw [outBuffer, args]
      exact read
    · cases edited
  | length delta pad newAddress =>
    simp only [writeEdit] at edited
    split at edited
    · rename_i fd buf count pos rest args
      split at edited
      · cases edited
      · obtain rfl := Option.some.inj edited
        exact ⟨rfl, (pos, count), (pos, newLength count delta), by simp [writeRegion, args], rfl, nofun⟩
      · rename_i notOut _
        obtain rfl := Option.some.inj edited
        refine ⟨rfl, (pos, count), (pos, newLength count delta), by simp [writeRegion, args], rfl, fun size read => ?_⟩
        have out : outSize buf = some size := read
        unfold outSize at out
        split at out
        · exact absurd rfl (notOut _ _)
        · cases out
    · cases edited
  | data newData newAddress =>
    simp only [writeEdit] at edited
    split at edited
    · rename_i fd address old count pos rest args
      split_ifs at edited
      obtain rfl := Option.some.inj edited
      exact ⟨rfl, (pos, count), (pos, UInt64.ofNat newData.length), by simp [writeRegion, args], rfl, nofun⟩
    · cases edited

/-- A step that writes another region: what stands where afterwards. -/
structure Rewritten (ps ps' : List SeedProg) (loc : Nat × Nat) (old new : UInt64 × UInt64) : Prop where
  here : ∃ o o', objAt ps loc = some o ∧ objAt ps' loc = some o' ∧ isWrite o.name = true ∧ o'.name = o.name ∧
    writeRegion o.call = some old ∧ writeRegion o'.call = some new ∧
    ∀ size, outBuffer o'.call = some size → (outBuffer o.call = some size ∧ new.2 = old.2) ∨ size = new.2
  elsewhere : ∀ a, a ≠ loc → objAt ps' a = (objAt ps a).map (syncRead old new)

/-! ### When the region stays -/

theorem deltaOf_ne {draw : Draw} {range half : Nat} : deltaOf draw range half ≠ 0 := by
  unfold deltaOf
  dsimp only
  split_ifs with zero
  · decide
  · exact zero

theorem deltaOf_bounds (draw : Draw) {range half : Nat} (small : range ≤ 2 * half + 1) (pos : 0 < range) (top : 0 < half)
    (bound : half < 10000) :
    -(half : Int) ≤ (deltaOf draw range half).toInt ∧ (deltaOf draw range half).toInt ≤ half := by
  have below := draw.lt range pos
  have value : (Int64.ofNat (draw.intn range) - Int64.ofNat half).toInt = (draw.intn range : Int) - half := by
    rw [Int64.toInt_sub, Int64.toInt_ofNat_of_lt (by omega), Int64.toInt_ofNat_of_lt (by omega),
      Int.bmod_eq_of_le (by omega) (by omega)]
  unfold deltaOf
  dsimp only
  split_ifs
  · rw [show Int64.toInt 1 = 1 by decide]
    omega
  · rw [value]
    omega

theorem newOffset_eq_iff {pos : UInt64} {draw : Draw} :
    newOffset pos draw = pos ↔ pos = 0 ∧ deltaOf draw 1025 512 < 0 := by
  unfold newOffset
  dsimp only
  split_ifs with negative
  · constructor
    · rintro rfl
      exact ⟨rfl, by simpa using negative⟩
    · rintro ⟨rfl, _⟩
      rfl
  · constructor
    · intro same
      have same := congrArg UInt64.toInt64 same
      rw [Int64.toInt64_toUInt64] at same
      exact absurd (by simpa using same) (@deltaOf_ne draw 1025 512)
    · rintro ⟨rfl, below⟩
      exact absurd (by simpa using below) negative

theorem newLength_eq_iff {count : UInt64} {draw : Draw} :
    newLength count draw = count ↔
      count = 1 ∧ deltaOf draw 257 128 < 0 ∨ count = 8192 ∧ 0 < deltaOf draw 257 128 := by
  obtain ⟨low, high⟩ := deltaOf_bounds draw (show 257 ≤ 2 * 128 + 1 by decide) (by decide) (by decide) (by decide)
  have least : (UInt64.toInt64 1 + deltaOf draw 257 128).toInt = 1 + (deltaOf draw 257 128).toInt := by
    rw [Int64.toInt_add, show (UInt64.toInt64 1).toInt = 1 by decide, Int.bmod_eq_of_le (by omega) (by omega)]
  have most : (UInt64.toInt64 8192 + deltaOf draw 257 128).toInt = 8192 + (deltaOf draw 257 128).toInt := by
    rw [Int64.toInt_add, show (UInt64.toInt64 8192).toInt = 8192 by decide, Int.bmod_eq_of_le (by omega) (by omega)]
  have atLeast : Int64.toInt 1 = 1 := by decide
  have atMost : Int64.toInt 8192 = 8192 := by decide
  have zero : Int64.toInt 0 = 0 := by decide
  unfold newLength
  by_cases below : count.toInt64 + deltaOf draw 257 128 < 1
  · simp only [below, if_true, show ¬ (1 : Int64) > 8192 by decide, if_false]
    rw [Int64.lt_iff_toInt_lt, atLeast] at below
    simp only [Int64.lt_iff_toInt_lt, zero]
    constructor
    · rintro rfl
      exact .inl ⟨rfl, by rw [show Int64.toUInt64 1 = 1 by decide, least] at below; omega⟩
    · rintro (⟨rfl, _⟩ | ⟨rfl, above⟩)
      · decide
      · omega
  · simp only [below, if_false]
    rw [Int64.lt_iff_toInt_lt, atLeast] at below
    by_cases above : count.toInt64 + deltaOf draw 257 128 > 8192
    · simp only [above, if_true]
      rw [gt_iff_lt, Int64.lt_iff_toInt_lt, atMost] at above
      simp only [Int64.lt_iff_toInt_lt, zero]
      constructor
      · rintro rfl
        exact .inr ⟨rfl, by omega⟩
      · rintro (⟨rfl, negative⟩ | ⟨rfl, _⟩)
        · omega
        · rfl
    · simp only [above, if_false]
      rw [gt_iff_lt, Int64.lt_iff_toInt_lt, atMost] at above
      simp only [Int64.lt_iff_toInt_lt, zero]
      constructor
      · intro same
        have same := congrArg UInt64.toInt64 same
        rw [Int64.toInt64_toUInt64] at same
        exact absurd (by simpa using same) (@deltaOf_ne draw 257 128)
      · rintro (⟨rfl, negative⟩ | ⟨rfl, positive⟩)
        · omega
        · omega

/-- The draws leave the region as it is: an offset of zero or a length at its bound that would go
further, or new data of the old length. -/
def SameRegion (region : UInt64 × UInt64) : WriteDraws → Prop
  | .offset delta => region.1 = 0 ∧ deltaOf delta 1025 512 < 0
  | .length delta _ _ =>
    region.2 = 1 ∧ deltaOf delta 257 128 < 0 ∨ region.2 = 8192 ∧ 0 < deltaOf delta 257 128
  | .data newData _ => UInt64.ofNat newData.length = region.2

theorem sameRegion_iff {call call' : Call} {draws : WriteDraws} (edited : writeEdit call draws = some call')
    {old new : UInt64 × UInt64} (before : writeRegion call = some old) (after : writeRegion call' = some new) :
    new = old ↔ SameRegion old draws := by
  obtain ⟨fd, buf, rest, args⟩ := writeRegion_some before
  obtain ⟨offset, length⟩ := old
  cases draws with
  | offset delta =>
    simp only [writeEdit, args] at edited
    obtain rfl := Option.some.inj edited
    obtain rfl := Option.some.inj after
    rw [SameRegion, ← newOffset_eq_iff]
    simp
  | length delta pad newAddress =>
    have value : new = (offset, newLength length delta) := by
      simp only [writeEdit, args] at edited
      split at edited
      · cases edited
      · obtain rfl := Option.some.inj edited
        exact (Option.some.inj after).symm
      · obtain rfl := Option.some.inj edited
        exact (Option.some.inj after).symm
    rw [SameRegion, ← newLength_eq_iff, value]
    simp
  | data newData newAddress =>
    have value : new = (offset, UInt64.ofNat newData.length) := by
      simp only [writeEdit, args] at edited
      split at edited
      · rename_i shape
        simp only [List.cons.injEq, Arg.const.injEq] at shape
        obtain ⟨_, _, _, rfl, _⟩ := shape
        split_ifs at edited
        obtain rfl := Option.some.inj edited
        exact (Option.some.inj after).symm
      · cases edited
    rw [value, SameRegion]
    simp

/-! ### Runs -/

/-- No other write than the one at `loc` has this region. -/
def OnlyWrite (ps : List SeedProg) (loc : Nat × Nat) (region : UInt64 × UInt64) : Prop :=
  ∀ a o, a ≠ loc → objAt ps a = some o → isWrite o.name = true → isRead o.name = false → writeRegion o.call ≠ some region

section Step

variable {ps ps' : List SeedProg} {loc : Nat × Nat} {old new : UInt64 × UInt64} (rewritten : Rewritten ps ps' loc old new)

include rewritten

theorem Rewritten.reads_new (reads : ReadsRegion ps old) : ReadsRegion ps' new := by
  obtain ⟨⟨o, o', here, there, _, name, _, after, _⟩, elsewhere⟩ := rewritten
  obtain ⟨b, r, atB, isR, read⟩ := reads
  by_cases self : b = loc
  · subst self
    obtain rfl := Option.some.inj (here.symm.trans atB)
    exact ⟨b, o', there, name ▸ isR, after⟩
  · have spec := syncRead_spec old new r
    rw [if_pos ⟨isR, read⟩] at spec
    exact ⟨b, _, by rw [elsewhere b self, atB, Option.map_some], spec.1 ▸ isR, spec.2.1⟩

theorem Rewritten.reads_other {region : UInt64 × UInt64} (other : region ≠ old) (reads : ReadsRegion ps region) :
    ReadsRegion ps' region := by
  obtain ⟨⟨o, _, here, _, _, _, before, _⟩, elsewhere⟩ := rewritten
  obtain ⟨b, r, atB, isR, read⟩ := reads
  have self : b ≠ loc := by
    rintro rfl
    obtain rfl := Option.some.inj (here.symm.trans atB)
    exact other (Option.some.inj (read.symm.trans before))
  have spec := syncRead_spec old new r
  rw [if_neg fun matched => other (Option.some.inj (read.symm.trans matched.2))] at spec
  exact ⟨b, r, by rw [elsewhere b self, atB, Option.map_some, spec.2], isR, read⟩

theorem Rewritten.unread (moved : new ≠ old) : ¬ ReadsRegion ps' old := by
  obtain ⟨⟨_, o', _, there, _, _, _, after, _⟩, elsewhere⟩ := rewritten
  rintro ⟨b, r, atB, isR, read⟩
  by_cases self : b = loc
  · subst self
    obtain rfl := Option.some.inj (there.symm.trans atB)
    exact moved (Option.some.inj (after.symm.trans read))
  · rw [elsewhere b self] at atB
    obtain ⟨q, _, rfl⟩ := Option.map_eq_some_iff.mp atB
    have spec := syncRead_spec old new q
    split_ifs at spec with matched
    · exact moved (Option.some.inj (spec.2.1.symm.trans read))
    · rw [spec.2] at isR read
      exact matched ⟨isR, read⟩

theorem Rewritten.closed_iff (closed : LoopClosed ps) : LoopClosed ps' ↔ new = old ∨ OnlyWrite ps loc old := by
  obtain ⟨⟨o, o', here, there, write, _, before, after, _⟩, elsewhere⟩ := id rewritten
  constructor
  · intro closed'
    by_contra neither
    rw [not_or] at neither
    obtain ⟨moved, another⟩ := neither
    simp only [OnlyWrite, not_forall, not_not] at another
    obtain ⟨a, w, other, atA, isW, notR, region⟩ := another
    have spec := (syncRead_spec old new w).2
    rw [if_neg (by simp [notR])] at spec
    have kept : objAt ps' a = some w := by rw [elsewhere a other, atA, Option.map_some, spec]
    exact rewritten.unread moved (closed' a w old kept isW region)
  · intro keeps a w region atA isW read
    by_cases same : a = loc
    · subst same
      obtain rfl := Option.some.inj (there.symm.trans atA)
      obtain rfl := Option.some.inj (after.symm.trans read)
      exact rewritten.reads_new (closed a o old here write before)
    · have found := atA
      rw [elsewhere a same] at found
      obtain ⟨q, atQ, rfl⟩ := Option.map_eq_some_iff.mp found
      have spec := syncRead_spec old new q
      by_cases isR : isRead q.name = true
      · -- a call that reads what it writes is its own reader
        exact ⟨a, _, atA, spec.1 ▸ isR, read⟩
      · rw [if_neg (fun matched => isR matched.1)] at spec
        rw [spec.2] at isW read
        have reads := closed a q region atQ isW read
        by_cases shared : region = old
        · subst shared
          rcases keeps with rfl | only
          · exact rewritten.reads_new reads
          · exact absurd read (only a q same atQ isW (by simpa using isR))
        · exact rewritten.reads_other shared reads

theorem Rewritten.fit (fit : BuffersFit ps) : BuffersFit ps' := by
  obtain ⟨⟨o, o', here, there, _, name, before, after, buffer⟩, elsewhere⟩ := rewritten
  intro a r region size atA isR read out
  by_cases same : a = loc
  · subst same
    obtain rfl := Option.some.inj (there.symm.trans atA)
    obtain rfl := Option.some.inj (after.symm.trans read)
    rcases buffer size out with ⟨unchanged, length⟩ | resized
    · rw [length]
      exact fit a o old size here (name ▸ isR) before unchanged
    · exact resized
  · rw [elsewhere a same] at atA
    obtain ⟨q, atQ, rfl⟩ := Option.map_eq_some_iff.mp atA
    have spec := syncRead_spec old new q
    split_ifs at spec with matched
    · rw [spec.2.2 size out]
      exact congrArg Prod.snd (Option.some.inj (spec.2.1.symm.trans read))
    · rw [spec.2] at isR read out
      exact fit a q region size atQ isR read out

end Step

/-- The mutation is refused, leaves the region as it is, or no other write has it. -/
def KeepsReads (ps : List SeedProg) (loc : Nat × Nat) (draws : WriteDraws) : Prop :=
  ∀ o region, objAt ps loc = some o → isWrite o.name = true → writeRegion o.call = some region →
    (writeEdit o.call draws).isSome = true → SameRegion region draws ∨ OnlyWrite ps loc region

theorem mutateWrite_cases (ps : List SeedProg) (loc : Nat × Nat) (draws : WriteDraws) :
    mutateWrite ps loc draws = ps ∧ KeepsReads ps loc draws ∨
      ∃ old new, Rewritten ps (mutateWrite ps loc draws) loc old new ∧
        (KeepsReads ps loc draws ↔ new = old ∨ OnlyWrite ps loc old) := by
  unfold mutateWrite
  cases here : objAt ps loc with
  | none => exact .inl ⟨rfl, fun o _ there => by rw [here] at there; cases there⟩
  | some o =>
    have unique : ∀ {q}, objAt ps loc = some q → o = q := fun there => Option.some.inj (here.symm.trans there)
    dsimp only
    split_ifs with write
    swap
    · exact .inl ⟨rfl, fun q _ there named => by rw [← unique there] at named; exact absurd named write⟩
    cases edited : writeEdit o.call draws with
    | none => exact .inl ⟨rfl, fun q _ there _ _ some_ => by rw [← unique there, edited] at some_; cases some_⟩
    | some call =>
      obtain ⟨name, old, new, before, after, buffer⟩ := writeEdit_spec edited
      simp only [before, after]
      refine .inr ⟨old, new, ⟨⟨o, syncRead old new { o with call }, here, ?_, write, ?_, before, ?_, ?_⟩, ?_⟩, ?_⟩
      · rw [objAt_sync, objAt_set, if_pos rfl, here, Option.map_some, Option.map_some]
      · exact (syncRead_spec old new _).1.trans name
      · have spec := (syncRead_spec old new { o with call }).2
        split_ifs at spec with matched
        · exact spec.1
        · rw [spec]
          exact after
      · intro size read
        have spec := (syncRead_spec old new { o with call }).2
        split_ifs at spec with matched
        · exact .inr (spec.2 size read)
        · rw [spec] at read
          exact .inl (buffer size read)
      · intro a other
        rw [objAt_sync, objAt_set, if_neg other]
      · rw [sameRegion_iff edited before after]
        constructor
        · intro keeps
          exact keeps o old here write before (by rw [edited]; rfl)
        · intro keeps q region there _ read _
          rw [← unique there, before] at read
          rw [← Option.some.inj read]
          exact keeps

structure WriteStep where
  loc : Nat × Nat
  draws : WriteDraws

def writeStep (ps : List SeedProg) (step : WriteStep) : List SeedProg :=
  match step.draws with
  | .offset delta => mutateWriteOffset ps step.loc delta
  | .length delta pad newAddress => mutateWriteLength ps step.loc delta pad newAddress
  | .data newData newAddress => mutateWriteData ps step.loc newData newAddress

theorem writeStep_eq (ps : List SeedProg) (step : WriteStep) : writeStep ps step = mutateWrite ps step.loc step.draws := by
  unfold writeStep
  split <;> simp only [*, mutateWriteOffset, mutateWriteLength, mutateWriteData]

def runWrites (ps : List SeedProg) (steps : List WriteStep) : List SeedProg := steps.foldl writeStep ps

theorem writeStep_closed {ps : List SeedProg} (closed : LoopClosed ps) (step : WriteStep) :
    LoopClosed (writeStep ps step) ↔ KeepsReads ps step.loc step.draws := by
  rw [writeStep_eq]
  rcases mutateWrite_cases ps step.loc step.draws with ⟨same, keeps⟩ | ⟨old, new, rewritten, condition⟩
  · rw [same]
    exact iff_of_true closed keeps
  · rw [rewritten.closed_iff closed, condition]

theorem writeStep_fit {ps : List SeedProg} (fit : BuffersFit ps) (step : WriteStep) : BuffersFit (writeStep ps step) := by
  rw [writeStep_eq]
  rcases mutateWrite_cases ps step.loc step.draws with ⟨same, _⟩ | ⟨old, new, rewritten, _⟩
  · rw [same]
    exact fit
  · exact rewritten.fit fit

def AllKeepReads (ps : List SeedProg) : List WriteStep → Prop
  | [] => True
  | step :: rest => KeepsReads ps step.loc step.draws ∧ AllKeepReads (writeStep ps step) rest

theorem runWrites_fit {ps : List SeedProg} (fit : BuffersFit ps) (steps : List WriteStep) : BuffersFit (runWrites ps steps) := by
  induction steps generalizing ps with
  | nil => exact fit
  | cons step rest ih => exact ih (writeStep_fit fit step)

theorem runWrites_closed {ps : List SeedProg} (closed : LoopClosed ps) (steps : List WriteStep) :
    (∀ n, LoopClosed (runWrites ps (steps.take n))) ↔ AllKeepReads ps steps := by
  induction steps generalizing ps with
  | nil => exact ⟨fun _ => trivial, fun _ n => by simpa [runWrites] using closed⟩
  | cons step rest ih =>
    have one := writeStep_closed closed step
    constructor
    · intro all
      have next : LoopClosed (writeStep ps step) := by simpa [runWrites] using all 1
      exact ⟨one.mp next, (ih next).mp fun n => by simpa [runWrites] using all (n + 1)⟩
    · rintro ⟨keeps, later⟩ n
      have next := one.mpr keeps
      cases n with
      | zero => simpa [runWrites] using closed
      | succ n => simpa [runWrites] using (ih next).mpr later n

/-- In every state of a run every written region is read and every read has a fitting buffer, if and
only if the buffers fit at the start and no step moves the region of a write that another one shares. -/
theorem loopClosed_run {ps : List SeedProg} (closed : LoopClosed ps) (steps : List WriteStep) :
    (∀ n, LoopClosed (runWrites ps (steps.take n)) ∧ BuffersFit (runWrites ps (steps.take n))) ↔
      BuffersFit ps ∧ AllKeepReads ps steps := by
  rw [← runWrites_closed closed]
  constructor
  · intro all
    exact ⟨by simpa [runWrites] using (all 0).2, fun n => (all n).1⟩
  · rintro ⟨fit, all⟩ n
    exact ⟨all n, runWrites_fit fit (steps.take n)⟩

/-- Two writes of eight bytes at these offsets, and their reads. -/
def sampleLoop (first second : UInt64) : List SeedProg :=
  let write (ref : Nat) (offset : UInt64) : CallObj :=
    ⟨ref, { name := "pwrite64", args := [fdArg 0, .pointer 0 (some (.data (List.replicate 8 0))), .const 8, .const offset] }⟩
  [{ calls := [write 0 first, write 1 second], isStash := true },
    { calls := [⟨2, readCall 0 1 first 8⟩, ⟨3, readCall 0 1 second 8⟩], isStash := true }]

theorem sampleLoop_closed (first second : UInt64) : LoopClosed (sampleLoop first second) := by
  have isReadName : isRead "pread64" = true := by decide
  have notWriteName : ¬ isWrite "pread64" = true := by decide
  rintro ⟨i, k⟩ o region here write read
  match i, k with
  | 0, 0 =>
    obtain rfl := Option.some.inj here
    obtain rfl := Option.some.inj read
    exact ⟨(1, 0), _, rfl, isReadName, rfl⟩
  | 0, 1 =>
    obtain rfl := Option.some.inj here
    obtain rfl := Option.some.inj read
    exact ⟨(1, 1), _, rfl, isReadName, rfl⟩
  | 0, _ + 2 => cases here
  | 1, 0 =>
    obtain rfl := Option.some.inj here
    exact absurd write notWriteName
  | 1, 1 =>
    obtain rfl := Option.some.inj here
    exact absurd write notWriteName
  | 1, _ + 2 => cases here
  | _ + 2, _ => cases here

theorem sampleLoop_fit (first second : UInt64) : BuffersFit (sampleLoop first second) := by
  rintro ⟨i, k⟩ o region size here isR read out
  match i, k with
  | 0, 0 =>
    obtain rfl := Option.some.inj here
    cases out
  | 0, 1 =>
    obtain rfl := Option.some.inj here
    cases out
  | 0, _ + 2 => cases here
  | 1, 0 =>
    obtain rfl := Option.some.inj here
    obtain rfl := Option.some.inj read
    exact (Option.some.inj out).symm
  | 1, 1 =>
    obtain rfl := Option.some.inj here
    obtain rfl := Option.some.inj read
    exact (Option.some.inj out).symm
  | 1, _ + 2 => cases here
  | _ + 2, _ => cases here

def firstMoves : List WriteStep := [{ loc := (0, 0), draws := .offset (fixedDraw 513) }]

/-- With two writes of one region, the reads leave with the first one. -/
theorem loopClosed_shared :
    LoopClosed (sampleLoop 0 0) ∧ ¬ LoopClosed (runWrites (sampleLoop 0 0) firstMoves) := by
  refine ⟨sampleLoop_closed 0 0, fun closed => ?_⟩
  have keeps := (writeStep_closed (sampleLoop_closed 0 0) { loc := (0, 0), draws := .offset (fixedDraw 513) }).mp closed
  rcases keeps _ (0, 8) rfl (by decide) rfl rfl with same | only
  · exact absurd same.2 (by decide)
  · exact only (0, 1) _ (by decide) rfl (by decide) (by decide) rfl

theorem firstMoves_keep : AllKeepReads (sampleLoop 0 64) firstMoves := by
  refine ⟨?_, trivial⟩
  intro o region here _ read _
  obtain rfl := Option.some.inj here
  obtain rfl := Option.some.inj read
  right
  rintro ⟨i, k⟩ w other atA isW _ shared
  match i, k with
  | 0, 0 => exact other rfl
  | 0, 1 =>
    obtain rfl := Option.some.inj atA
    exact absurd (Option.some.inj shared) (by decide)
  | 0, _ + 2 => cases atA
  | 1, 0 =>
    obtain rfl := Option.some.inj atA
    exact absurd isW (by decide)
  | 1, 1 =>
    obtain rfl := Option.some.inj atA
    exact absurd isW (by decide)
  | 1, _ + 2 => cases atA
  | _ + 2, _ => cases atA

theorem loopClosed_run_sample :
    LoopClosed (sampleLoop 0 64) ∧ (BuffersFit (sampleLoop 0 64) ∧ AllKeepReads (sampleLoop 0 64) firstMoves) ∧
      ∀ n, LoopClosed (runWrites (sampleLoop 0 64) (firstMoves.take n)) ∧
        BuffersFit (runWrites (sampleLoop 0 64) (firstMoves.take n)) :=
  ⟨sampleLoop_closed 0 64, ⟨sampleLoop_fit 0 64, firstMoves_keep⟩,
    (loopClosed_run (sampleLoop_closed 0 64) firstMoves).mpr ⟨sampleLoop_fit 0 64, firstMoves_keep⟩⟩

end DfsFuzz.Mutation
