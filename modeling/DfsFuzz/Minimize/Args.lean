import DfsFuzz.Mutation.Program

/-!
Arguments as minimization sees them (`prog/minimization.go`): with the parts of their types that it
reads, and the edits it makes in them.
-/

namespace DfsFuzz.Minimize

inductive BufferKind where
  | blobRand | blobRange | string | filename | text | glob
deriving DecidableEq

inductive ArrayKind where
  | randLen | rangeLen
deriving DecidableEq

/-- A structure has the names of its fields, a union that of its option; arrays and buffers have the
least length of their types. A pointer without a target is `null`. -/
inductive MinArg where
  | const (val : UInt64)
  | result (id : ResultId) (res : Option ResultId) (val : UInt64)
  | data (kind : BufferKind) (rangeBegin : Nat) (isOut : Bool) (bytes : List UInt8)
  | null (address : UInt64)
  | pointer (address : UInt64) (res : MinArg)
  | struct (fields : List String) (inner : List MinArg)
  | array (kind : ArrayKind) (rangeBegin : Nat) (inner : List MinArg)
  | union (field : String) (option : MinArg)

mutual

def argMinimizable : MinArg → Bool
  | .const _ | .result _ _ _ | .null _ => false
  | .data kind _ _ _ => kind = .blobRand || kind = .blobRange || kind = .text
  | .pointer _ res => argMinimizable res
  | .struct _ inner => anyMinimizable inner
  | .array _ _ _ => true
  | .union _ option => argMinimizable option

def anyMinimizable : List MinArg → Bool
  | [] => false
  | arg :: rest => argMinimizable arg || anyMinimizable rest

end

mutual

def resultsOf : MinArg → List ResultId
  | .const _ | .data _ _ _ _ | .null _ => []
  | .result id _ _ => [id]
  | .pointer _ res => resultsOf res
  | .struct _ inner => resultsOfList inner
  | .array _ _ inner => resultsOfList inner
  | .union _ option => resultsOf option

def resultsOfList : List MinArg → List ResultId
  | [] => []
  | arg :: rest => resultsOf arg ++ resultsOfList rest

end

mutual

/-- Other values for the constants and the references; the tree stays. -/
def retag (value : UInt64 → UInt64) (refer : ResultId → Option ResultId → UInt64 → Option ResultId × UInt64) :
    MinArg → MinArg
  | .const val => .const (value val)
  | .result id res val => .result id (refer id res val).1 (refer id res val).2
  | .data kind rangeBegin isOut bytes => .data kind rangeBegin isOut bytes
  | .null address => .null address
  | .pointer address res => .pointer address (retag value refer res)
  | .struct fields inner => .struct fields (retagList value refer inner)
  | .array kind rangeBegin inner => .array kind rangeBegin (retagList value refer inner)
  | .union field option => .union field (retag value refer option)

def retagList (value : UInt64 → UInt64) (refer : ResultId → Option ResultId → UInt64 → Option ResultId × UInt64) :
    List MinArg → List MinArg
  | [] => []
  | arg :: rest => retag value refer arg :: retagList value refer rest

end

/-- `removeArg`: references to results that are gone are replaced by defaults. -/
def detachRef (dflt : ResultId → UInt64) (gone : List ResultId) (id : ResultId) (res : Option ResultId) (val : UInt64) :
    Option ResultId × UInt64 :=
  match res with
  | some r => if r ∈ gone then (none, dflt id) else (some r, val)
  | none => (none, val)

def detachArgs (dflt : ResultId → UInt64) (gone : List ResultId) : List MinArg → List MinArg :=
  retagList (fun val => val) (detachRef dflt gone)

/-- The tree alone, which no edit of values changes. -/
def erase : MinArg → MinArg := retag (fun _ => 0) fun _ _ _ => (none, 0)

def eraseList : List MinArg → List MinArg := retagList (fun _ => 0) fun _ _ _ => (none, 0)

/-- The arguments without their references, which the removal of other calls changes. -/
def unrefList : List MinArg → List MinArg := retagList (fun val => val) fun _ _ _ => (none, 0)

/-- The edit of the argument at a place: the index in each level on the way to it. -/
def modArg (f : MinArg → MinArg) : List Nat → MinArg → MinArg
  | [], arg => f arg
  | _ :: loc, .pointer address res => .pointer address (modArg f loc res)
  | k :: loc, .struct fields inner => .struct fields (inner.modify k (modArg f loc))
  | k :: loc, .array kind rangeBegin inner => .array kind rangeBegin (inner.modify k (modArg f loc))
  | _ :: loc, .union field option => .union field (modArg f loc option)
  | _ :: _, arg => arg

def modArgs (f : MinArg → MinArg) : List Nat → List MinArg → List MinArg
  | [], args => args
  | k :: loc, args => args.modify k (modArg f loc)

def getArg : List Nat → MinArg → Option MinArg
  | [], arg => some arg
  | _ :: loc, .pointer _ res => getArg loc res
  | k :: loc, .struct _ inner => inner[k]?.bind (getArg loc)
  | k :: loc, .array _ _ inner => inner[k]?.bind (getArg loc)
  | _ :: loc, .union _ option => getArg loc option
  | _ :: _, _ => none

def getArgs : List Nat → List MinArg → Option MinArg
  | [], _ => none
  | k :: loc, args => args[k]?.bind (getArg loc)

def dropTarget (special : UInt64) : MinArg → MinArg
  | .pointer _ _ => .null special
  | arg => arg

def dropElem (i : Nat) : MinArg → MinArg
  | .array kind rangeBegin inner => .array kind rangeBegin (inner.eraseIdx i)
  | arg => arg

def setData (bytes : List UInt8) : MinArg → MinArg
  | .data kind rangeBegin isOut _ => .data kind rangeBegin isOut bytes
  | arg => arg

mutual

def size : MinArg → Nat
  | .const _ | .result _ _ _ | .null _ => 1
  | .data _ _ _ bytes => 1 + bytes.length
  | .pointer _ res => 1 + size res
  | .struct _ inner => 1 + sizes inner
  | .array _ _ inner => 1 + sizes inner
  | .union _ option => 1 + size option

def sizes : List MinArg → Nat
  | [] => 0
  | arg :: rest => size arg + sizes rest

end

mutual

/-- The paths at which an argument with this path tries to drop something. -/
def trialPaths : MinArg → String → List String
  | .pointer _ res, path => (path ++ ">") :: trialPaths res (path ++ "-")
  | .struct fields inner, path => trialFields fields inner path
  | .array _ _ inner, path => trialElems inner 0 path
  | .union field option, path => trialPaths option (path ++ "-" ++ field)
  | .const _, _ | .result _ _ _, _ | .data _ _ _ _, _ | .null _, _ => []

def trialFields : List String → List MinArg → String → List String
  | _, [], _ => []
  | fields, arg :: rest, path => trialPaths arg (path ++ "-" ++ fields.headD "") ++ trialFields fields.tail rest path

def trialElems : List MinArg → Nat → String → List String
  | [], _, _ => []
  | elem :: rest, i, path =>
    (path ++ "-" ++ toString i) :: (trialPaths elem (path ++ "-" ++ toString i ++ "-") ++ trialElems rest (i + 1) path)

end

section Retag

variable {value value' : UInt64 → UInt64} {refer refer' : ResultId → Option ResultId → UInt64 → Option ResultId × UInt64}

mutual

theorem retag_retag : ∀ arg : MinArg, retag value refer (retag value' refer' arg) =
    retag (value ∘ value') (fun id res val => refer id (refer' id res val).1 (refer' id res val).2) arg
  | .const _ | .result _ _ _ | .data _ _ _ _ | .null _ => rfl
  | .pointer address res => congrArg (MinArg.pointer address) (retag_retag res)
  | .struct fields inner => congrArg (MinArg.struct fields) (retagList_retagList inner)
  | .array kind rangeBegin inner => congrArg (MinArg.array kind rangeBegin) (retagList_retagList inner)
  | .union field option => congrArg (MinArg.union field) (retag_retag option)

theorem retagList_retagList : ∀ args : List MinArg, retagList value refer (retagList value' refer' args) =
    retagList (value ∘ value') (fun id res val => refer id (refer' id res val).1 (refer' id res val).2) args
  | [] => rfl
  | arg :: rest => congrArg₂ List.cons (retag_retag arg) (retagList_retagList rest)

end

theorem eraseList_retagList (args : List MinArg) : eraseList (retagList value refer args) = eraseList args :=
  retagList_retagList args

theorem unrefList_detachArgs (dflt : ResultId → UInt64) (gone : List ResultId) (args : List MinArg) :
    unrefList (detachArgs dflt gone args) = unrefList args := retagList_retagList args

theorem retagList_eq_map (args : List MinArg) : retagList value refer args = args.map (retag value refer) := by
  induction args with
  | nil => rfl
  | cons arg rest ih => rw [retagList, ih, List.map_cons]

end Retag

theorem eraseList_eq_map (args : List MinArg) : eraseList args = args.map erase := retagList_eq_map args

mutual

theorem size_erase : ∀ arg : MinArg, size (erase arg) = size arg
  | .const _ | .result _ _ _ | .data _ _ _ _ | .null _ => rfl
  | .pointer _ res => congrArg (1 + ·) (size_erase res)
  | .struct _ inner => congrArg (1 + ·) (sizes_eraseList inner)
  | .array _ _ inner => congrArg (1 + ·) (sizes_eraseList inner)
  | .union _ option => congrArg (1 + ·) (size_erase option)

theorem sizes_eraseList : ∀ args : List MinArg, sizes (eraseList args) = sizes args
  | [] => rfl
  | arg :: rest => congrArg₂ (· + ·) (size_erase arg) (sizes_eraseList rest)

end

mutual

theorem trialPaths_erase : ∀ (arg : MinArg) (path : String), trialPaths (erase arg) path = trialPaths arg path
  | .const _, _ | .result _ _ _, _ | .data _ _ _ _, _ | .null _, _ => rfl
  | .pointer _ res, path => congrArg ((path ++ ">") :: ·) (trialPaths_erase res (path ++ "-"))
  | .struct fields inner, path => trialFields_eraseList inner fields path
  | .array _ _ inner, path => trialElems_eraseList inner 0 path
  | .union field option, path => trialPaths_erase option (path ++ "-" ++ field)

theorem trialFields_eraseList : ∀ (args : List MinArg) (fields : List String) (path : String),
    trialFields fields (eraseList args) path = trialFields fields args path
  | [], _, _ => rfl
  | arg :: rest, fields, path =>
    congrArg₂ (· ++ ·) (trialPaths_erase arg _) (trialFields_eraseList rest fields.tail path)

theorem trialElems_eraseList : ∀ (args : List MinArg) (i : Nat) (path : String),
    trialElems (eraseList args) i path = trialElems args i path
  | [], _, _ => rfl
  | elem :: rest, i, path =>
    congrArg ((path ++ "-" ++ toString i) :: ·)
      (congrArg₂ (· ++ ·) (trialPaths_erase elem _) (trialElems_eraseList rest (i + 1) path))

end

theorem size_pos (arg : MinArg) : 0 < size arg := by
  cases arg <;> simp only [size] <;> omega

/-! ### Edits at a place -/

theorem getArg_erase (loc : List Nat) (arg : MinArg) : getArg loc (erase arg) = (getArg loc arg).map erase := by
  induction loc generalizing arg with
  | nil => rfl
  | cons k loc ih =>
    have child : ∀ inner : List MinArg, (eraseList inner)[k]?.bind (getArg loc) = (inner[k]?.bind (getArg loc)).map erase := by
      intro inner
      rw [eraseList_eq_map, List.getElem?_map]
      cases inner[k]? with
      | none => rfl
      | some arg => exact ih arg
    cases arg with
    | pointer address res => exact ih res
    | struct fields inner => exact child inner
    | array kind rangeBegin inner => exact child inner
    | union field option => exact ih option
    | _ => rfl

theorem getArgs_erase (loc : List Nat) (args : List MinArg) : getArgs loc (eraseList args) = (getArgs loc args).map erase := by
  cases loc with
  | nil => rfl
  | cons k loc =>
    rw [getArgs, getArgs, eraseList_eq_map, List.getElem?_map]
    cases args[k]? with
    | none => rfl
    | some arg => exact getArg_erase loc arg

def child (k : Nat) : MinArg → Option MinArg
  | .pointer _ res => some res
  | .struct _ inner => inner[k]?
  | .array _ _ inner => inner[k]?
  | .union _ option => some option
  | _ => none

theorem getArg_child (loc : List Nat) (k : Nat) (arg : MinArg) : getArg (loc ++ [k]) arg = (getArg loc arg).bind (child k) := by
  induction loc generalizing arg with
  | nil =>
    have here : ∀ inner : List MinArg, inner[k]?.bind (getArg []) = inner[k]? := by
      intro inner
      cases inner[k]? <;> rfl
    cases arg with
    | struct fields inner => exact here inner
    | array kind rangeBegin inner => exact here inner
    | _ => rfl
  | cons m loc ih =>
    have below : ∀ inner : List MinArg, inner[m]?.bind (getArg (loc ++ [k])) =
        (inner[m]?.bind (getArg loc)).bind (child k) := by
      intro inner
      cases inner[m]? with
      | none => rfl
      | some arg => exact ih arg
    cases arg with
    | pointer address res => exact ih res
    | struct fields inner => exact below inner
    | array kind rangeBegin inner => exact below inner
    | union field option => exact ih option
    | _ => rfl

theorem getArgs_child {loc : List Nat} (inside : loc ≠ []) (k : Nat) (args : List MinArg) :
    getArgs (loc ++ [k]) args = (getArgs loc args).bind (child k) := by
  cases loc with
  | nil => exact absurd rfl inside
  | cons m loc =>
    rw [List.cons_append, getArgs, getArgs]
    cases args[m]? with
    | none => rfl
    | some arg => exact getArg_child loc k arg

section Mod

variable {f : MinArg → MinArg}

theorem erase_modArg (commutes : ∀ arg, erase (f arg) = f (erase arg)) (loc : List Nat) (arg : MinArg) :
    erase (modArg f loc arg) = modArg f loc (erase arg) := by
  induction loc generalizing arg with
  | nil => exact commutes arg
  | cons k loc ih =>
    have below : ∀ inner : List MinArg, eraseList (inner.modify k (modArg f loc)) = (eraseList inner).modify k (modArg f loc) := by
      intro inner
      rw [eraseList_eq_map, eraseList_eq_map]
      apply List.ext_getElem?
      intro m
      simp only [List.getElem?_map, List.getElem?_modify]
      by_cases same : k = m
      · simp [same, Function.comp_def, ih]
      · simp [same]
    cases arg with
    | pointer address res => exact congrArg (MinArg.pointer address) (ih res)
    | struct fields inner => exact congrArg (MinArg.struct fields) (below inner)
    | array kind rangeBegin inner => exact congrArg (MinArg.array kind rangeBegin) (below inner)
    | union field option => exact congrArg (MinArg.union field) (ih option)
    | _ => rfl

theorem eraseList_modArgs (commutes : ∀ arg, erase (f arg) = f (erase arg)) (loc : List Nat) (args : List MinArg) :
    eraseList (modArgs f loc args) = modArgs f loc (eraseList args) := by
  cases loc with
  | nil => rfl
  | cons k loc =>
    rw [eraseList_eq_map, eraseList_eq_map, modArgs, modArgs]
    apply List.ext_getElem?
    intro m
    simp only [List.getElem?_map, List.getElem?_modify]
    by_cases same : k = m
    · simp [same, Function.comp_def, erase_modArg commutes]
    · simp [same]

theorem modArg_of_fixed {loc : List Nat} {arg a : MinArg} (here : getArg loc arg = some a) (fixed : f a = a) :
    modArg f loc arg = arg := by
  induction loc generalizing arg with
  | nil =>
    obtain rfl := Option.some.inj here
    exact fixed
  | cons k loc ih =>
    have below : ∀ inner : List MinArg, inner[k]?.bind (getArg loc) = some a → inner.modify k (modArg f loc) = inner := by
      intro inner here
      obtain ⟨arg, read, found⟩ := Option.bind_eq_some_iff.mp here
      rw [Edits.modify_eq_set read, ih found]
      obtain ⟨inside, rfl⟩ := List.getElem?_eq_some_iff.mp read
      exact List.set_getElem_self inside
    cases arg with
    | pointer address res => exact congrArg (MinArg.pointer address) (ih here)
    | struct fields inner => exact congrArg (MinArg.struct fields) (below inner here)
    | array kind rangeBegin inner => exact congrArg (MinArg.array kind rangeBegin) (below inner here)
    | union field option => exact congrArg (MinArg.union field) (ih here)
    | _ => cases here

theorem modArgs_of_fixed {loc : List Nat} {args : List MinArg} {a : MinArg} (here : getArgs loc args = some a)
    (fixed : f a = a) : modArgs f loc args = args := by
  cases loc with
  | nil => rfl
  | cons k loc =>
    obtain ⟨arg, read, found⟩ := Option.bind_eq_some_iff.mp here
    rw [modArgs, Edits.modify_eq_set read, modArg_of_fixed found fixed]
    obtain ⟨inside, rfl⟩ := List.getElem?_eq_some_iff.mp read
    exact List.set_getElem_self inside

theorem modArg_modArg (g : MinArg → MinArg) (loc : List Nat) (arg : MinArg) :
    modArg f loc (modArg g loc arg) = modArg (f ∘ g) loc arg := by
  induction loc generalizing arg with
  | nil => rfl
  | cons k loc ih =>
    have below : ∀ inner : List MinArg, (inner.modify k (modArg g loc)).modify k (modArg f loc) =
        inner.modify k (modArg (f ∘ g) loc) := by
      intro inner
      rw [List.modify_modify_eq]
      congr 1
      funext arg
      exact ih arg
    cases arg with
    | pointer address res => exact congrArg (MinArg.pointer address) (ih res)
    | struct fields inner => exact congrArg (MinArg.struct fields) (below inner)
    | array kind rangeBegin inner => exact congrArg (MinArg.array kind rangeBegin) (below inner)
    | union field option => exact congrArg (MinArg.union field) (ih option)
    | _ => rfl

theorem modArgs_modArgs (g : MinArg → MinArg) (loc : List Nat) (args : List MinArg) :
    modArgs f loc (modArgs g loc args) = modArgs (f ∘ g) loc args := by
  cases loc with
  | nil => rfl
  | cons k loc =>
    rw [modArgs, modArgs, modArgs, List.modify_modify_eq]
    congr 1
    funext arg
    exact modArg_modArg g loc arg

theorem sizes_modify_lt {args : List MinArg} {k : Nat} {arg : MinArg} (here : args[k]? = some arg)
    (smaller : size (f arg) < size arg) : sizes (args.modify k f) < sizes args := by
  induction args generalizing k with
  | nil => cases here
  | cons first rest ih =>
    cases k with
    | zero =>
      obtain rfl := Option.some.inj here
      exact Nat.add_lt_add_right smaller _
    | succ k => exact Nat.add_lt_add_left (ih here) _

theorem size_modArg_lt {loc : List Nat} {arg a : MinArg} (here : getArg loc arg = some a) (smaller : size (f a) < size a) :
    size (modArg f loc arg) < size arg := by
  induction loc generalizing arg with
  | nil =>
    obtain rfl := Option.some.inj here
    exact smaller
  | cons k loc ih =>
    have below : ∀ inner : List MinArg, inner[k]?.bind (getArg loc) = some a →
        sizes (inner.modify k (modArg f loc)) < sizes inner := by
      intro inner here
      obtain ⟨arg, read, found⟩ := Option.bind_eq_some_iff.mp here
      exact sizes_modify_lt read (ih found)
    cases arg with
    | pointer address res => exact Nat.add_lt_add_left (ih here) 1
    | struct fields inner => exact Nat.add_lt_add_left (below inner here) 1
    | array kind rangeBegin inner => exact Nat.add_lt_add_left (below inner here) 1
    | union field option => exact Nat.add_lt_add_left (ih here) 1
    | _ => cases here

theorem sizes_modArgs_lt {loc : List Nat} {args : List MinArg} {a : MinArg} (here : getArgs loc args = some a)
    (smaller : size (f a) < size a) : sizes (modArgs f loc args) < sizes args := by
  cases loc with
  | nil => cases here
  | cons k loc =>
    obtain ⟨arg, read, found⟩ := Option.bind_eq_some_iff.mp here
    exact sizes_modify_lt read (size_modArg_lt found smaller)

end Mod

theorem erase_setData (bytes : List UInt8) (arg : MinArg) : erase (setData bytes arg) = setData bytes (erase arg) := by
  cases arg <;> rfl

theorem setData_setData (bytes bytes' : List UInt8) : setData bytes ∘ setData bytes' = setData bytes := by
  funext arg
  cases arg <;> rfl

theorem size_dropTarget {special address : UInt64} {res : MinArg} :
    size (dropTarget special (.pointer address res)) < size (.pointer address res) := by
  have positive := size_pos res
  simp only [dropTarget, size]
  omega

theorem size_dropElem {kind : ArrayKind} {rangeBegin i : Nat} {inner : List MinArg} (inside : i < inner.length) :
    size (dropElem i (.array kind rangeBegin inner)) < size (.array kind rangeBegin inner) := by
  have shorter : ∀ {args : List MinArg} {i : Nat}, i < args.length → sizes (args.eraseIdx i) < sizes args := by
    intro args
    induction args with
    | nil =>
      intro i inside
      cases inside
    | cons arg rest ih =>
      intro i inside
      have positive := size_pos arg
      cases i with
      | zero =>
        simp only [List.eraseIdx_cons_zero, sizes]
        omega
      | succ i =>
        have later := ih (Nat.lt_of_succ_lt_succ inside)
        simp only [List.eraseIdx_cons_succ, sizes]
        omega
  have less := shorter inside
  simp only [dropElem, size]
  omega

end DfsFuzz.Minimize
