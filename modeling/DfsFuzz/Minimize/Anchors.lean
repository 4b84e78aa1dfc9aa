import DfsFuzz.Minimize.Passes

/-!
What argument minimization may do to the arguments of a call: the relation between the arguments before and
after. Paths, names, references and values are anchors; array elements and the content of buffers are not.
-/

namespace DfsFuzz.Minimize

/-- Which constants are lengths, by the names on the way to them. -/
abbrev LenFields := List String → Bool

def isContent (kind : BufferKind) : Bool := kind = .blobRand || kind = .blobRange || kind = .text

mutual

/-- No anchor, but for those in the elements of arrays. -/
def Loose (isLen : LenFields) : List String → MinArg → Prop
  | path, .const _ => isLen path = true
  | _, .result _ _ _ => False
  | _, .data kind _ _ _ => isContent kind = true
  | _, .null _ => True
  | path, .pointer _ res => Loose isLen (path ++ [">"]) res
  | path, .struct fields inner => LooseFields isLen path fields inner
  | _, .array _ _ _ => True
  | path, .union field option => Loose isLen (path ++ [field]) option

def LooseFields (isLen : LenFields) : List String → List String → List MinArg → Prop
  | _, _, [] => True
  | path, fields, arg :: rest => Loose isLen (path ++ [fields.headD ""]) arg ∧ LooseFields isLen path fields.tail rest

end

mutual

/-- A pointer whose target has something to minimize points to no anchor. -/
def Separated (isLen : LenFields) : List String → MinArg → Prop
  | _, .const _ | _, .result _ _ _ | _, .data _ _ _ _ | _, .null _ => True
  | path, .pointer _ res =>
    (argMinimizable res = true → Loose isLen (path ++ [">"]) res) ∧ Separated isLen (path ++ [">"]) res
  | path, .struct fields inner => SeparatedFields isLen path fields inner
  | path, .array _ _ inner => SeparatedElems isLen path inner
  | path, .union field option => Separated isLen (path ++ [field]) option

def SeparatedFields (isLen : LenFields) : List String → List String → List MinArg → Prop
  | _, _, [] => True
  | path, fields, arg :: rest =>
    Separated isLen (path ++ [fields.headD ""]) arg ∧ SeparatedFields isLen path fields.tail rest

def SeparatedElems (isLen : LenFields) : List String → List MinArg → Prop
  | _, [] => True
  | path, elem :: rest => Separated isLen (path ++ ["[]"]) elem ∧ SeparatedElems isLen path rest

end

mutual

/-- The argument with the same anchors, and with less of the rest. Only where `drops` is set may an element of an
array or the target of a pointer be gone. -/
def Shrunk (isLen : LenFields) (drops : Bool) : List String → MinArg → MinArg → Prop
  | path, .const val, arg' => ∃ val', arg' = .const val' ∧ (isLen path = false → val' = val)
  | _, .result id res val, arg' => arg' = .result id res val
  | _, .data kind rangeBegin isOut bytes, arg' =>
    ∃ bytes', arg' = .data kind rangeBegin isOut bytes' ∧ bytes' <+: bytes ∧ (isContent kind = false → bytes' = bytes)
  | _, .null address, arg' => arg' = .null address
  | path, .pointer address res, arg' =>
    (∃ res', arg' = .pointer address res' ∧ Shrunk isLen drops (path ++ [">"]) res res') ∨
      (drops = true ∧ Loose isLen (path ++ [">"]) res ∧ ∃ special, arg' = .null special)
  | path, .struct fields inner, arg' => ∃ inner', arg' = .struct fields inner' ∧ ShrunkFields isLen drops path fields inner inner'
  | path, .array kind rangeBegin inner, arg' =>
    ∃ inner', arg' = .array kind rangeBegin inner' ∧ ShrunkElems isLen drops path inner inner'
  | path, .union field option, arg' => ∃ option', arg' = .union field option' ∧ Shrunk isLen drops (path ++ [field]) option option'

def ShrunkFields (isLen : LenFields) (drops : Bool) : List String → List String → List MinArg → List MinArg → Prop
  | _, _, [], args' => args' = []
  | path, fields, arg :: rest, args' => ∃ arg' rest', args' = arg' :: rest' ∧
      Shrunk isLen drops (path ++ [fields.headD ""]) arg arg' ∧ ShrunkFields isLen drops path fields.tail rest rest'

def ShrunkElems (isLen : LenFields) (drops : Bool) : List String → List MinArg → List MinArg → Prop
  | _, [], args' => args' = []
  | path, elem :: rest, args' =>
    (∃ elem' rest', args' = elem' :: rest' ∧ Shrunk isLen drops (path ++ ["[]"]) elem elem' ∧
      ShrunkElems isLen drops path rest rest') ∨ (drops = true ∧ ShrunkElems isLen drops path rest args')

end

section Relation

variable {isLen : LenFields} {drops : Bool}

mutual

theorem Shrunk.refl : ∀ (path : List String) (arg : MinArg), Shrunk isLen drops path arg arg
  | _, .const val => ⟨val, rfl, fun _ => rfl⟩
  | _, .result _ _ _ => rfl
  | _, .data _ _ _ bytes => ⟨bytes, rfl, List.prefix_refl bytes, fun _ => rfl⟩
  | _, .null _ => rfl
  | path, .pointer _ res => .inl ⟨res, rfl, Shrunk.refl (path ++ [">"]) res⟩
  | path, .struct fields inner => ⟨inner, rfl, ShrunkFields.refl path fields inner⟩
  | path, .array _ _ inner => ⟨inner, rfl, ShrunkElems.refl path inner⟩
  | path, .union field option => ⟨option, rfl, Shrunk.refl (path ++ [field]) option⟩

theorem ShrunkFields.refl : ∀ (path fields : List String) (args : List MinArg), ShrunkFields isLen drops path fields args args
  | _, _, [] => rfl
  | path, fields, arg :: rest =>
    ⟨arg, rest, rfl, Shrunk.refl (path ++ [fields.headD ""]) arg, ShrunkFields.refl path fields.tail rest⟩

theorem ShrunkElems.refl : ∀ (path : List String) (args : List MinArg), ShrunkElems isLen drops path args args
  | _, [] => rfl
  | path, elem :: rest => .inl ⟨elem, rest, rfl, Shrunk.refl (path ++ ["[]"]) elem, ShrunkElems.refl path rest⟩

end

mutual

theorem Shrunk.weaken : ∀ (path : List String) (arg arg' : MinArg), Shrunk isLen false path arg arg' → Shrunk isLen true path arg arg'
  | _, .const _, _, shrunk => shrunk
  | _, .result _ _ _, _, shrunk => shrunk
  | _, .data _ _ _ _, _, shrunk => shrunk
  | _, .null _, _, shrunk => shrunk
  | path, .pointer _ res, _, shrunk => by
    rcases shrunk with ⟨res', same, below⟩ | ⟨drops, _⟩
    · exact .inl ⟨res', same, Shrunk.weaken (path ++ [">"]) res res' below⟩
    · cases drops
  | path, .struct fields inner, _, ⟨inner', same, below⟩ => ⟨inner', same, ShrunkFields.weaken path fields inner inner' below⟩
  | path, .array _ _ inner, _, ⟨inner', same, below⟩ => ⟨inner', same, ShrunkElems.weaken path inner inner' below⟩
  | path, .union field option, _, ⟨option', same, below⟩ =>
    ⟨option', same, Shrunk.weaken (path ++ [field]) option option' below⟩

theorem ShrunkFields.weaken : ∀ (path fields : List String) (args args' : List MinArg),
    ShrunkFields isLen false path fields args args' → ShrunkFields isLen true path fields args args'
  | _, _, [], _, shrunk => shrunk
  | path, fields, arg :: rest, _, ⟨arg', rest', same, first, others⟩ =>
    ⟨arg', rest', same, Shrunk.weaken (path ++ [fields.headD ""]) arg arg' first,
      ShrunkFields.weaken path fields.tail rest rest' others⟩

theorem ShrunkElems.weaken : ∀ (path : List String) (args args' : List MinArg),
    ShrunkElems isLen false path args args' → ShrunkElems isLen true path args args'
  | _, [], _, shrunk => shrunk
  | path, elem :: rest, _, shrunk => by
    rcases shrunk with ⟨elem', rest', same, first, others⟩ | ⟨drops, _⟩
    · exact .inl ⟨elem', rest', same, Shrunk.weaken (path ++ ["[]"]) elem elem' first, ShrunkElems.weaken path rest rest' others⟩
    · cases drops

end

mutual

theorem Shrunk.loose_iff : ∀ (path : List String) (arg arg' : MinArg), Shrunk isLen drops path arg arg' →
    (Loose isLen path arg' ↔ Loose isLen path arg)
  | _, .const _, _, ⟨_, same, _⟩ => by rw [same, Loose, Loose]
  | _, .result _ _ _, _, same => by rw [Shrunk] at same; rw [same]
  | _, .data _ _ _ _, _, ⟨_, same, _⟩ => by rw [same, Loose, Loose]
  | _, .null _, _, same => by rw [Shrunk] at same; rw [same]
  | path, .pointer _ res, _, shrunk => by
    rcases shrunk with ⟨res', same, below⟩ | ⟨_, loose, special, same⟩
    · rw [same, Loose, Loose]
      exact Shrunk.loose_iff (path ++ [">"]) res res' below
    · rw [same, Loose, Loose]
      exact iff_of_true trivial loose
  | path, .struct fields inner, _, ⟨inner', same, below⟩ => by
    rw [same, Loose, Loose]
    exact ShrunkFields.loose_iff path fields inner inner' below
  | _, .array _ _ _, _, ⟨_, same, _⟩ => by rw [same, Loose, Loose]
  | path, .union field option, _, ⟨option', same, below⟩ => by
    rw [same, Loose, Loose]
    exact Shrunk.loose_iff (path ++ [field]) option option' below

theorem ShrunkFields.loose_iff : ∀ (path fields : List String) (args args' : List MinArg),
    ShrunkFields isLen drops path fields args args' → (LooseFields isLen path fields args' ↔ LooseFields isLen path fields args)
  | _, _, [], _, same => by rw [ShrunkFields] at same; rw [same]
  | path, fields, arg :: rest, _, ⟨arg', rest', same, first, others⟩ => by
    rw [same, LooseFields, LooseFields]
    exact and_congr (Shrunk.loose_iff _ arg arg' first) (ShrunkFields.loose_iff path fields.tail rest rest' others)

end

mutual

theorem Shrunk.trans : ∀ (path : List String) (arg arg' arg'' : MinArg), Shrunk isLen drops path arg arg' →
    Shrunk isLen drops path arg' arg'' → Shrunk isLen drops path arg arg''
  | _, .const _, _, _, ⟨_, same, value⟩, second => by
    subst same
    obtain ⟨val'', same', value'⟩ := second
    exact ⟨val'', same', fun fixed => (value' fixed).trans (value fixed)⟩
  | _, .result _ _ _, _, _, same, second => by
    rw [Shrunk] at same
    rwa [same] at second
  | _, .data _ _ _ _, _, _, ⟨_, same, shorter, fixed⟩, second => by
    subst same
    obtain ⟨bytes'', same', shorter', fixed'⟩ := second
    exact ⟨bytes'', same', shorter'.trans shorter, fun anchor => (fixed' anchor).trans (fixed anchor)⟩
  | _, .null _, _, _, same, second => by
    rw [Shrunk] at same
    rwa [same] at second
  | path, .pointer _ res, _, _, shrunk, second => by
    rcases shrunk with ⟨res', same, below⟩ | ⟨allowed, loose, special, same⟩
    · subst same
      rcases second with ⟨res'', same', below'⟩ | ⟨allowed, loose, special, same'⟩
      · exact .inl ⟨res'', same', Shrunk.trans (path ++ [">"]) res res' res'' below below'⟩
      · exact .inr ⟨allowed, (Shrunk.loose_iff (path ++ [">"]) res res' below).mp loose, special, same'⟩
    · subst same
      rw [Shrunk] at second
      exact .inr ⟨allowed, loose, special, second⟩
  | path, .struct fields inner, _, _, ⟨inner', same, below⟩, second => by
    subst same
    obtain ⟨inner'', same', below'⟩ := second
    exact ⟨inner'', same', ShrunkFields.trans path fields inner inner' inner'' below below'⟩
  | path, .array _ _ inner, _, _, ⟨inner', same, below⟩, second => by
    subst same
    obtain ⟨inner'', same', below'⟩ := second
    exact ⟨inner'', same', ShrunkElems.trans path inner inner' inner'' below below'⟩
  | path, .union field option, _, _, ⟨option', same, below⟩, second => by
    subst same
    obtain ⟨option'', same', below'⟩ := second
    exact ⟨option'', same', Shrunk.trans (path ++ [field]) option option' option'' below below'⟩

theorem ShrunkFields.trans : ∀ (path fields : List String) (args args' args'' : List MinArg),
    ShrunkFields isLen drops path fields args args' → ShrunkFields isLen drops path fields args' args'' →
    ShrunkFields isLen drops path fields args args''
  | _, _, [], _, _, same, second => by
    rw [ShrunkFields] at same
    rwa [same] at second
  | path, fields, arg :: rest, _, _, ⟨arg', rest', same, first, others⟩, second => by
    subst same
    obtain ⟨arg'', rest'', same', first', others'⟩ := second
    exact ⟨arg'', rest'', same', Shrunk.trans _ arg arg' arg'' first first',
      ShrunkFields.trans path fields.tail rest rest' rest'' others others'⟩

theorem ShrunkElems.trans : ∀ (path : List String) (args args' args'' : List MinArg), ShrunkElems isLen drops path args args' →
    ShrunkElems isLen drops path args' args'' → ShrunkElems isLen drops path args args''
  | _, [], _, _, same, second => by
    rw [ShrunkElems] at same
    rwa [same] at second
  | path, elem :: rest, _, args'', shrunk, second => by
    rcases shrunk with ⟨elem', rest', same, first, others⟩ | ⟨allowed, others⟩
    · subst same
      rcases second with ⟨elem'', rest'', same', first', others'⟩ | ⟨allowed, others'⟩
      · exact .inl ⟨elem'', rest'', same', Shrunk.trans _ elem elem' elem'' first first',
          ShrunkElems.trans path rest rest' rest'' others others'⟩
      · exact .inr ⟨allowed, ShrunkElems.trans path rest rest' args'' others others'⟩
    · exact .inr ⟨allowed, ShrunkElems.trans path rest _ args'' others second⟩

end

mutual

theorem Shrunk.minimizable : ∀ (path : List String) (arg arg' : MinArg), Shrunk isLen drops path arg arg' →
    argMinimizable arg' = true → argMinimizable arg = true
  | _, .const _, _, ⟨_, same, _⟩, some_ => by
    rw [same] at some_
    cases some_
  | _, .result _ _ _, _, same, some_ => by
    rw [Shrunk] at same
    rwa [same] at some_
  | _, .data _ _ _ _, _, ⟨_, same, _⟩, some_ => by
    rw [same] at some_
    exact some_
  | _, .null _, _, same, some_ => by
    rw [Shrunk] at same
    rwa [same] at some_
  | path, .pointer _ res, _, shrunk, some_ => by
    rcases shrunk with ⟨res', same, below⟩ | ⟨_, _, special, same⟩
    · rw [same] at some_
      exact Shrunk.minimizable (path ++ [">"]) res res' below some_
    · rw [same] at some_
      cases some_
  | path, .struct fields inner, _, ⟨inner', same, below⟩, some_ => by
    rw [same] at some_
    exact ShrunkFields.minimizable path fields inner inner' below some_
  | _, .array _ _ _, _, _, _ => rfl
  | path, .union field option, _, ⟨option', same, below⟩, some_ => by
    rw [same] at some_
    exact Shrunk.minimizable (path ++ [field]) option option' below some_

theorem ShrunkFields.minimizable : ∀ (path fields : List String) (args args' : List MinArg),
    ShrunkFields isLen drops path fields args args' → anyMinimizable args' = true → anyMinimizable args = true
  | _, _, [], _, same, some_ => by
    rw [ShrunkFields] at same
    rwa [same] at some_
  | path, fields, arg :: rest, _, ⟨arg', rest', same, first, others⟩, some_ => by
    rw [same, anyMinimizable, Bool.or_eq_true] at some_
    rw [anyMinimizable, Bool.or_eq_true]
    exact some_.imp (Shrunk.minimizable _ arg arg' first) (ShrunkFields.minimizable path fields.tail rest rest' others)

end

mutual

theorem Shrunk.separated : ∀ (path : List String) (arg arg' : MinArg), Shrunk isLen drops path arg arg' →
    Separated isLen path arg → Separated isLen path arg'
  | _, .const _, _, ⟨_, same, _⟩, _ => by
    rw [same]
    trivial
  | _, .result _ _ _, _, same, _ => by
    rw [Shrunk] at same
    rw [same]
    trivial
  | _, .data _ _ _ _, _, ⟨_, same, _⟩, _ => by
    rw [same]
    trivial
  | _, .null _, _, same, _ => by
    rw [Shrunk] at same
    rw [same]
    trivial
  | path, .pointer _ res, _, shrunk, ⟨loose, inside⟩ => by
    rcases shrunk with ⟨res', same, below⟩ | ⟨_, _, special, same⟩
    · rw [same]
      refine ⟨fun some_ => ?_, Shrunk.separated (path ++ [">"]) res res' below inside⟩
      exact (Shrunk.loose_iff _ res res' below).mpr (loose (Shrunk.minimizable _ res res' below some_))
    · rw [same]
      trivial
  | path, .struct fields inner, _, ⟨inner', same, below⟩, separated => by
    rw [same]
    exact ShrunkFields.separated path fields inner inner' below separated
  | path, .array _ _ inner, _, ⟨inner', same, below⟩, separated => by
    rw [same]
    exact ShrunkElems.separated path inner inner' below separated
  | path, .union field option, _, ⟨option', same, below⟩, separated => by
    rw [same]
    exact Shrunk.separated (path ++ [field]) option option' below separated

theorem ShrunkFields.separated : ∀ (path fields : List String) (args args' : List MinArg),
    ShrunkFields isLen drops path fields args args' → SeparatedFields isLen path fields args →
    SeparatedFields isLen path fields args'
  | _, _, [], _, same, _ => by
    rw [ShrunkFields] at same
    rw [same]
    trivial
  | path, fields, arg :: rest, _, ⟨arg', rest', same, first, others⟩, ⟨here, later⟩ => by
    rw [same]
    exact ⟨Shrunk.separated _ arg arg' first here, ShrunkFields.separated path fields.tail rest rest' others later⟩

theorem ShrunkElems.separated : ∀ (path : List String) (args args' : List MinArg), ShrunkElems isLen drops path args args' →
    SeparatedElems isLen path args → SeparatedElems isLen path args'
  | _, [], _, same, _ => by
    rw [ShrunkElems] at same
    rw [same]
    trivial
  | path, elem :: rest, _, shrunk, ⟨here, later⟩ => by
    rcases shrunk with ⟨elem', rest', same, first, others⟩ | ⟨_, others⟩
    · rw [same]
      exact ⟨Shrunk.separated _ elem elem' first here, ShrunkElems.separated path rest rest' others later⟩
    · exact ShrunkElems.separated path rest _ others later

end

/-! ### References -/

mutual

def refsOf : MinArg → List ResultId
  | .const _ | .data _ _ _ _ | .null _ => []
  | .result _ res _ => res.toList
  | .pointer _ res => refsOf res
  | .struct _ inner => refsOfList inner
  | .array _ _ inner => refsOfList inner
  | .union _ option => refsOf option

def refsOfList : List MinArg → List ResultId
  | [] => []
  | arg :: rest => refsOf arg ++ refsOfList rest

end

omit isLen drops in
theorem append_mono {α : Type} {xs xs' ys ys' : List α} (first : xs ⊆ xs') (second : ys ⊆ ys') : xs ++ ys ⊆ xs' ++ ys' :=
  List.append_subset.mpr ⟨List.subset_append_of_subset_left _ first, List.subset_append_of_subset_right _ second⟩

mutual

theorem Shrunk.subset : ∀ (path : List String) (arg arg' : MinArg), Shrunk isLen drops path arg arg' →
    refsOf arg' ⊆ refsOf arg ∧ resultsOf arg' ⊆ resultsOf arg
  | _, .const _, _, ⟨_, same, _⟩ => by
    rw [same]
    exact ⟨List.Subset.refl _, List.Subset.refl _⟩
  | _, .result _ _ _, _, same => by
    rw [Shrunk] at same
    rw [same]
    exact ⟨List.Subset.refl _, List.Subset.refl _⟩
  | _, .data _ _ _ _, _, ⟨_, same, _⟩ => by
    rw [same]
    exact ⟨List.Subset.refl _, List.Subset.refl _⟩
  | _, .null _, _, same => by
    rw [Shrunk] at same
    rw [same]
    exact ⟨List.Subset.refl _, List.Subset.refl _⟩
  | path, .pointer _ res, _, shrunk => by
    rcases shrunk with ⟨res', same, below⟩ | ⟨_, _, special, same⟩
    · rw [same]
      exact Shrunk.subset (path ++ [">"]) res res' below
    · rw [same]
      exact ⟨List.nil_subset _, List.nil_subset _⟩
  | path, .struct fields inner, _, ⟨inner', same, below⟩ => by
    rw [same]
    exact ShrunkFields.subset path fields inner inner' below
  | path, .array _ _ inner, _, ⟨inner', same, below⟩ => by
    rw [same]
    exact ShrunkElems.subset path inner inner' below
  | path, .union field option, _, ⟨option', same, below⟩ => by
    rw [same]
    exact Shrunk.subset (path ++ [field]) option option' below

theorem ShrunkFields.subset : ∀ (path fields : List String) (args args' : List MinArg),
    ShrunkFields isLen drops path fields args args' → refsOfList args' ⊆ refsOfList args ∧ resultsOfList args' ⊆ resultsOfList args
  | _, _, [], _, same => by
    rw [ShrunkFields] at same
    rw [same]
    exact ⟨List.Subset.refl _, List.Subset.refl _⟩
  | path, fields, arg :: rest, _, ⟨arg', rest', same, first, others⟩ => by
    rw [same]
    have here := Shrunk.subset _ arg arg' first
    have later := ShrunkFields.subset path fields.tail rest rest' others
    exact ⟨append_mono here.1 later.1, append_mono here.2 later.2⟩

theorem ShrunkElems.subset : ∀ (path : List String) (args args' : List MinArg), ShrunkElems isLen drops path args args' →
    refsOfList args' ⊆ refsOfList args ∧ resultsOfList args' ⊆ resultsOfList args
  | _, [], _, same => by
    rw [ShrunkElems] at same
    rw [same]
    exact ⟨List.Subset.refl _, List.Subset.refl _⟩
  | path, elem :: rest, _, shrunk => by
    rcases shrunk with ⟨elem', rest', same, first, others⟩ | ⟨_, others⟩
    · rw [same]
      have here := Shrunk.subset _ elem elem' first
      have later := ShrunkElems.subset path rest rest' others
      exact ⟨append_mono here.1 later.1, append_mono here.2 later.2⟩
    · have later := ShrunkElems.subset path rest _ others
      exact ⟨List.subset_append_of_subset_right _ later.1, List.subset_append_of_subset_right _ later.2⟩

end

end Relation

mutual

/-- The removal of results that are not referred to changes nothing. -/
theorem detach_unrelated (dflt : ResultId → UInt64) (gone : List ResultId) : ∀ arg : MinArg, (∀ r ∈ refsOf arg, r ∉ gone) →
    retag (fun val => val) (detachRef dflt gone) arg = arg
  | .const _, _ | .data _ _ _ _, _ | .null _, _ => rfl
  | .result id none val, _ => rfl
  | .result id (some r) val, apart => by
    have kept : r ∉ gone := apart r (List.mem_singleton.mpr rfl)
    simp [retag, detachRef, kept]
  | .pointer address res, apart => congrArg (MinArg.pointer address) (detach_unrelated dflt gone res apart)
  | .struct fields inner, apart => congrArg (MinArg.struct fields) (detachArgs_unrelated dflt gone inner apart)
  | .array kind rangeBegin inner, apart => congrArg (MinArg.array kind rangeBegin) (detachArgs_unrelated dflt gone inner apart)
  | .union field option, apart => congrArg (MinArg.union field) (detach_unrelated dflt gone option apart)

theorem detachArgs_unrelated (dflt : ResultId → UInt64) (gone : List ResultId) : ∀ args : List MinArg,
    (∀ r ∈ refsOfList args, r ∉ gone) → detachArgs dflt gone args = args
  | [], _ => rfl
  | arg :: rest, apart => congrArg₂ List.cons
    (detach_unrelated dflt gone arg fun r member => apart r (List.mem_append_left _ member))
    (detachArgs_unrelated dflt gone rest fun r member => apart r (List.mem_append_right _ member))

end

variable {args : List MinArg} {arg : MinArg}

theorem results_mem (member : arg ∈ args) : resultsOf arg ⊆ resultsOfList args := by
  induction args with
  | nil => cases member
  | cons first rest ih =>
    rcases List.mem_cons.mp member with rfl | later
    · exact List.subset_append_left _ _
    · exact List.subset_append_of_subset_right _ (ih later)

variable {loc : List Nat}

theorem results_getArg {x : MinArg} (here : getArg loc arg = some x) : resultsOf x ⊆ resultsOf arg := by
  induction loc generalizing arg with
  | nil =>
    obtain rfl := Option.some.inj here
    exact List.Subset.refl _
  | cons k loc ih =>
    have below : ∀ inner : List MinArg, inner[k]?.bind (getArg loc) = some x → resultsOf x ⊆ resultsOfList inner := by
      intro inner here
      obtain ⟨a, read, found⟩ := Option.bind_eq_some_iff.mp here
      exact List.Subset.trans (ih found) (results_mem (List.mem_of_getElem? read))
    cases arg with
    | pointer address res => exact @ih res here
    | struct fields inner => exact below inner here
    | array kind rangeBegin inner => exact below inner here
    | union field option => exact @ih option here
    | _ => cases here

theorem results_getArgs {x : MinArg} (here : getArgs loc args = some x) : resultsOf x ⊆ resultsOfList args := by
  cases loc with
  | nil => cases here
  | cons k loc =>
    obtain ⟨a, read, found⟩ := Option.bind_eq_some_iff.mp here
    exact List.Subset.trans (results_getArg found) (results_mem (List.mem_of_getElem? read))

/-! ### Edits -/

variable {path fields : List String} {args' : List MinArg}

section Edits

variable {isLen : LenFields} {drops : Bool}

theorem Shrunk.allow {arg' : MinArg} (shrunk : Shrunk isLen false path arg arg') :
    Shrunk isLen drops path arg arg' := by
  cases drops with
  | false => exact shrunk
  | true => exact Shrunk.weaken path arg arg' shrunk

theorem ShrunkFields.allow (shrunk : ShrunkFields isLen false path fields args args') :
    ShrunkFields isLen drops path fields args args' := by
  cases drops with
  | false => exact shrunk
  | true => exact ShrunkFields.weaken path fields args args' shrunk

theorem ShrunkElems.allow (shrunk : ShrunkElems isLen false path args args') :
    ShrunkElems isLen drops path args args' := by
  cases drops with
  | false => exact shrunk
  | true => exact ShrunkElems.weaken path args args' shrunk

/-- What an edit `g` does to an argument that only values and content were changed in. -/
def EditShrinks (isLen : LenFields) (drops : Bool) (arg : MinArg) (g : MinArg → MinArg) : Prop :=
  ∀ path arg', Separated isLen path arg → Shrunk isLen false path arg arg' → Shrunk isLen drops path arg (g arg')

theorem ShrunkFields.modify {k : Nat} {g : MinArg → MinArg} (here : args[k]? = some arg)
    (separated : SeparatedFields isLen path fields args) (shrunk : ShrunkFields isLen false path fields args args')
    (edit : EditShrinks isLen drops arg g) : ShrunkFields isLen drops path fields args (args'.modify k g) := by
  induction args generalizing fields args' k with
  | nil => cases here
  | cons first rest ih =>
    obtain ⟨first', rest', same, shrunk', others⟩ := shrunk
    subst same
    cases k with
    | zero =>
      cases here
      exact ⟨g first', rest', rfl, edit _ first' separated.1 shrunk', others.allow⟩
    | succ k => exact ⟨first', rest'.modify k g, rfl, shrunk'.allow, ih here separated.2 others⟩

theorem ShrunkElems.modify {k : Nat} {g : MinArg → MinArg} (here : args[k]? = some arg)
    (separated : SeparatedElems isLen path args) (shrunk : ShrunkElems isLen false path args args')
    (edit : EditShrinks isLen drops arg g) : ShrunkElems isLen drops path args (args'.modify k g) := by
  induction args generalizing args' k with
  | nil => cases here
  | cons first rest ih =>
    rcases shrunk with ⟨first', rest', same, shrunk', others⟩ | ⟨drops, _⟩
    · subst same
      cases k with
      | zero =>
        cases here
        exact .inl ⟨g first', rest', rfl, edit _ first' separated.1 shrunk', others.allow⟩
      | succ k => exact .inl ⟨first', rest'.modify k g, rfl, shrunk'.allow, ih here separated.2 others⟩
    · cases drops

/-- An edit at a place shrinks the whole if it shrinks what is there. -/
theorem EditShrinks.modArg {x : MinArg} {f : MinArg → MinArg} (here : getArg loc arg = some x)
    (edit : EditShrinks isLen drops x f) : EditShrinks isLen drops arg (modArg f loc) := by
  induction loc generalizing arg with
  | nil =>
    cases here
    exact edit
  | cons k loc ih =>
    intro path arg' separated shrunk
    cases arg with
    | pointer address res =>
      rcases shrunk with ⟨res', same, below⟩ | ⟨drops, _⟩
      · subst same
        exact .inl ⟨_, rfl, ih here _ res' separated.2 below⟩
      · cases drops
    | struct fields inner =>
      obtain ⟨inner', same, below⟩ := shrunk
      obtain ⟨a, read, found⟩ := Option.bind_eq_some_iff.mp here
      subst same
      exact ⟨_, rfl, below.modify read separated (ih found)⟩
    | array kind rangeBegin inner =>
      obtain ⟨inner', same, below⟩ := shrunk
      obtain ⟨a, read, found⟩ := Option.bind_eq_some_iff.mp here
      subst same
      exact ⟨_, rfl, below.modify read separated (ih found)⟩
    | union field option =>
      obtain ⟨option', same, below⟩ := shrunk
      subst same
      exact ⟨_, rfl, ih here _ option' separated below⟩
    | _ => cases here

theorem ShrunkFields.modArgs {x : MinArg} {f : MinArg → MinArg} (here : getArgs loc args = some x)
    (edit : EditShrinks isLen drops x f) (separated : SeparatedFields isLen [] fields args)
    (shrunk : ShrunkFields isLen false [] fields args args') :
    ShrunkFields isLen drops [] fields args (modArgs f loc args') := by
  cases loc with
  | nil => cases here
  | cons k loc =>
    obtain ⟨a, read, found⟩ := Option.bind_eq_some_iff.mp here
    exact shrunk.modify read separated (edit.modArg found)

theorem dropTarget_shrinks (special address : UInt64) {res : MinArg} (some_ : argMinimizable res = true) :
    EditShrinks isLen true (.pointer address res) (dropTarget special) := by
  intro path arg' separated shrunk
  rcases shrunk with ⟨res', same, _⟩ | ⟨drops, _⟩
  · subst same
    exact .inr ⟨rfl, separated.1 some_, special, rfl⟩
  · cases drops

theorem ShrunkElems.eraseIdx (shrunk : ShrunkElems isLen false path args args') (k : Nat) :
    ShrunkElems isLen true path args (args'.eraseIdx k) := by
  induction args generalizing args' k with
  | nil =>
    rw [ShrunkElems] at shrunk
    subst shrunk
    rfl
  | cons first rest ih =>
    rcases shrunk with ⟨first', rest', same, shrunk', others⟩ | ⟨drops, _⟩
    · subst same
      cases k with
      | zero => exact .inr ⟨rfl, others.allow⟩
      | succ k => exact .inl ⟨first', rest'.eraseIdx k, rfl, shrunk'.allow, ih others k⟩
    · cases drops

theorem dropElem_shrinks (kind : ArrayKind) (rangeBegin : Nat) (inner : List MinArg) (k : Nat) :
    EditShrinks isLen true (.array kind rangeBegin inner) (dropElem k) := by
  rintro path arg' - ⟨inner', same, below⟩
  subst same
  exact ⟨_, rfl, below.eraseIdx k⟩

theorem setData_shrinks {kind : BufferKind} (content : isContent kind = true) (rangeBegin : Nat) (isOut : Bool)
    (bytes : List UInt8) (n : Nat) : EditShrinks isLen false (.data kind rangeBegin isOut bytes) (setData (bytes.take n)) := by
  rintro path arg' - ⟨bytes', same, _, _⟩
  subst same
  refine ⟨bytes.take n, rfl, List.take_prefix n bytes, fun anchor => ?_⟩
  rw [content] at anchor
  cases anchor

end Edits

end DfsFuzz.Minimize
