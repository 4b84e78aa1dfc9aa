import DfsFuzz.Lib.GoSlice
import DfsFuzz.Prog.BrokenRefs
import Mathlib.Data.List.Flatten

/-!
The use of file descriptors in a program (`prog/prog.go`), and what may be removed (`callRemovable` of
`prog/mutation.go`): the records lie in a slice that grows while pointers to them are taken.
-/

namespace DfsFuzz.Refs

structure FdInfo where
  fd : Addr
  filePath : String
  openIdx : Nat
  /-- -1 if the descriptor is not closed -/
  closeIdx : Int := -1
  readCount : Nat := 0
  writeCount : Nat := 0
  fsyncCount : Nat := 0
  getdents64Count : Nat := 0
  otherCount : Nat := 0
  totalUses : Nat := 0
  isOpenDir : Bool := false
deriving DecidableEq

def isReadCall (name : String) : Bool := Go.contains name "read" || Go.contains name "pread64"

def isWriteCall (name : String) : Bool := Go.contains name "write" || Go.contains name "pwrite64"

def isFsyncCall (name : String) : Bool := Go.contains name "fsync" || Go.contains name "fdatasync"

def isOpenCall (name : String) : Bool := Go.contains name "open" || Go.contains name "creat"

def extractPathFromCall (call : Call) : String :=
  match call.args.head? with
  | some (.pointer _ _ _ _ (.data _ _ bytes _)) => Go.trimSuffix (Go.ofBytes bytes) "\x00"
  | _ => ""

def isOpenDir (call : Call) : Bool :=
  match (call.args[1]? : Option Arg) with
  | some (.const _ _ val) => val &&& 0x10000 ≠ 0
  | _ => false

/-- The record of an open/creat call with a result. -/
def openInfo (call : Call × Nat) (fd : Addr) : FdInfo :=
  { fd, filePath := extractPathFromCall call.1, openIdx := call.2, isOpenDir := isOpenDir call.1 }

/-- The descriptor that the first argument of a call refers to. -/
def fdOf (m : Memory) (call : Call) : Option Addr :=
  match call.args.head? with
  | some (.result a) => (m.results a).res
  | _ => none

inductive FdUse where
  | close
  | read
  | write
  | fsync
  | getdents64
  | other
deriving DecidableEq

def fdUse (name : String) : FdUse :=
  if Go.contains name "close" then .close
  else if isReadCall name then .read
  else if isWriteCall name then .write
  else if isFsyncCall name then .fsync
  else if Go.contains name "getdents64" then .getdents64
  else .other

/-- The case of the switch for call `i`. -/
def FdInfo.use (info : FdInfo) (kind : FdUse) (i : Nat) : FdInfo :=
  match kind with
  | .close => { info with closeIdx := i, totalUses := info.totalUses + 1 }
  | .read => { info with readCount := info.readCount + 1, totalUses := info.totalUses + 1 }
  | .write => { info with writeCount := info.writeCount + 1, totalUses := info.totalUses + 1 }
  | .fsync => { info with fsyncCount := info.fsyncCount + 1, totalUses := info.totalUses + 1 }
  | .getdents64 => { info with getdents64Count := info.getdents64Count + 1, totalUses := info.totalUses + 1 }
  | .other => { info with otherCount := info.otherCount + 1, totalUses := info.totalUses + 1 }

structure FdTable where
  result : Go.Grown FdInfo := {}
  fdMap : Addr → Option Go.ElemPtr := fun _ => none

def FdTable.addOpen (g : Go.Growth) (t : FdTable) (call : Call × Nat) : FdTable :=
  if !isOpenCall call.1.name then t
  else
    match call.1.ret with
    | none => t
    | some fd =>
      let result := t.result.append g (openInfo call fd)
      { result, fdMap := Function.update t.fdMap fd (some result.last) }

def FdTable.addUse (m : Memory) (t : FdTable) (call : Call × Nat) : FdTable :=
  match (fdOf m call.1).bind t.fdMap with
  | none => t
  | some info => { t with result := t.result.update info fun info => info.use (fdUse call.1.name) call.2 }

def analyzeProgFds (g : Go.Growth) (m : Memory) (p : Prog) : List FdInfo :=
  let t := p.calls.zipIdx.foldl (FdTable.addOpen g) {}
  (p.calls.zipIdx.foldl (FdTable.addUse m) t).result.slice

def callRemovable (g : Go.Growth) (m : Memory) (p : Prog) (call : Call) : Bool :=
  if Go.contains call.name "syz_failure" then false
  else if isOpenCall call.name then
    !(analyzeProgFds g m p).any fun fi => some fi.fd = call.ret && decide (fi.totalUses > 0)
  else true

def opensOf (calls : List (Call × Nat)) : List ((Call × Nat) × Addr) :=
  calls.filterMap fun call => if isOpenCall call.1.name then call.1.ret.map fun fd => (call, fd) else none

/-- The calls whose first argument refers to the descriptor, by kind. -/
def usesOf (m : Memory) (calls : List (Call × Nat)) (fd : Addr) : List (FdUse × Nat) :=
  calls.filterMap fun call => if fdOf m call.1 = some fd then some (fdUse call.1.name, call.2) else none

def FdInfo.withUses (info : FdInfo) (uses : List (FdUse × Nat)) : FdInfo :=
  { info with
    closeIdx := (uses.filter fun u => u.1 = .close).getLast?.elim (-1) fun u => u.2
    readCount := uses.countP fun u => u.1 = .read
    writeCount := uses.countP fun u => u.1 = .write
    fsyncCount := uses.countP fun u => u.1 = .fsync
    getdents64Count := uses.countP fun u => u.1 = .getdents64
    otherCount := uses.countP fun u => u.1 = .other
    totalUses := uses.length }

def FdsExact (g : Go.Growth) (m : Memory) (p : Prog) : Prop :=
  analyzeProgFds g m p = (opensOf p.calls.zipIdx).map fun o => (openInfo o.1 o.2).withUses (usesOf m p.calls.zipIdx o.2)

/-- No open/creat that some call still refers to is reported as removable. -/
def UsedFdsKept (g : Go.Growth) (m : Memory) (p : Prog) : Prop :=
  ∀ call ∈ p.calls, isOpenCall call.name = true → ∀ fd, call.ret = some fd → (∃ user ∈ p.calls, fdOf m user = some fd) →
    callRemovable g m p call = false

/-- No call refers to an open/creat whose record a later append has copied to a new array. -/
def NoMovedUse (g : Go.Growth) (m : Memory) (p : Prog) : Prop :=
  ∀ k o, (opensOf p.calls.zipIdx)[k]? = some o → g.capAfter (k + 1) < (opensOf p.calls.zipIdx).length →
    ∀ user ∈ p.calls, fdOf m user ≠ some o.2

/-! ### The first loop -/

/-- The pointer to the record of the open/creat at `k`, taken when it was the last one. -/
def recordPtr (g : Go.Growth) (k : Nat) : Go.ElemPtr := ⟨g.arraysAfter (k + 1) - 1, k⟩

/-- The table after the calls whose open/creat calls are `opens`. -/
structure OpensAdded (g : Go.Growth) (opens : List ((Call × Nat) × Addr)) (t : FdTable) : Prop where
  result : t.result = Go.Grown.appendAll g (opens.map fun o => openInfo o.1 o.2)
  fdMap : ∀ fd info, t.fdMap fd = some info ↔ ∃ k o, opens[k]? = some o ∧ o.2 = fd ∧ info = recordPtr g k

theorem opensOf_concat (calls : List (Call × Nat)) (call : Call × Nat) : opensOf (calls ++ [call]) =
    opensOf calls ++ (if isOpenCall call.1.name then call.1.ret.map fun fd => (call, fd) else none).toList := by
  unfold opensOf
  rw [List.filterMap_append]
  congr 1

theorem addOpen_added {g : Go.Growth} {calls : List (Call × Nat)} {t : FdTable} (added : OpensAdded g (opensOf calls) t)
    (call : Call × Nat) (nodup : ((opensOf (calls ++ [call])).map Prod.snd).Nodup) :
    OpensAdded g (opensOf (calls ++ [call])) (t.addOpen g call) := by
  rw [opensOf_concat] at nodup ⊢
  unfold FdTable.addOpen
  cases opens : isOpenCall call.1.name with
  | false => simpa using added
  | true =>
    cases ret : call.1.ret with
    | none => simpa using added
    | some fd =>
      simp only [opens, ret, if_true, Option.map_some, Option.toList_some] at nodup ⊢
      rw [List.map_append, List.nodup_append] at nodup
      have fresh : ∀ o ∈ opensOf calls, o.2 ≠ fd := fun o member =>
        nodup.2.2 o.2 (List.mem_map_of_mem member) fd (by simp)
      have result : t.result.append g (openInfo call fd) =
          Go.Grown.appendAll g ((opensOf calls ++ [(call, fd)]).map fun o => openInfo o.1 o.2) := by
        rw [List.map_append, List.map_singleton, Go.Grown.appendAll_concat, added.result]
      have here : (t.result.append g (openInfo call fd)).last = recordPtr g (opensOf calls).length := by
        rw [result]
        have taken := @Go.Grown.last_take _ g ((opensOf calls ++ [(call, fd)]).map fun o => openInfo o.1 o.2)
          (opensOf calls).length (by simp)
        rwa [List.take_of_length_le (by simp)] at taken
      refine ⟨result, fun fd' info => ?_⟩
      simp only [Bool.not_true, Bool.false_eq_true, if_false, Function.update_apply, here]
      split
      · rename_i same
        subst same
        constructor
        · intro found
          exact ⟨(opensOf calls).length, (call, fd'), by simp, rfl, (Option.some.inj found).symm⟩
        · rintro ⟨k, o, at_k, same, rfl⟩
          rcases Nat.lt_or_ge k (opensOf calls).length with before | last
          · rw [List.getElem?_append_left before] at at_k
            exact absurd same (fresh o (List.mem_of_getElem? at_k))
          · have bound := (List.getElem?_eq_some_iff.mp at_k).1
            rw [List.length_append, List.length_singleton] at bound
            rw [show k = (opensOf calls).length by omega]
      · rename_i other
        rw [added.fdMap]
        constructor
        · rintro ⟨k, o, at_k, same, rfl⟩
          have bound := (List.getElem?_eq_some_iff.mp at_k).1
          exact ⟨k, o, by rw [List.getElem?_append_left bound, at_k], same, rfl⟩
        · rintro ⟨k, o, at_k, same, rfl⟩
          rcases Nat.lt_or_ge k (opensOf calls).length with before | last
          · rw [List.getElem?_append_left before] at at_k
            exact ⟨k, o, at_k, same, rfl⟩
          · rw [List.getElem?_append_right last] at at_k
            have bound := (List.getElem?_eq_some_iff.mp at_k).1
            rw [List.length_singleton, Nat.lt_one_iff] at bound
            rw [bound] at at_k
            cases at_k
            exact absurd same.symm other

theorem foldl_addOpen (g : Go.Growth) (calls : List (Call × Nat)) (nodup : ((opensOf calls).map Prod.snd).Nodup) :
    OpensAdded g (opensOf calls) (calls.foldl (FdTable.addOpen g) {}) := by
  induction calls using List.reverseRecOn with
  | nil => exact ⟨rfl, fun fd info => by simp [opensOf]⟩
  | append_singleton calls call ih =>
    rw [List.foldl_append]
    refine addOpen_added (ih ?_) call nodup
    rw [opensOf_concat, List.map_append] at nodup
    exact (List.nodup_append.mp nodup).1

/-! ### The second loop -/

def updatesOf (m : Memory) (fdMap : Addr → Option Go.ElemPtr) (calls : List (Call × Nat)) :
    List (Go.ElemPtr × (FdInfo → FdInfo)) :=
  calls.filterMap fun call => ((fdOf m call.1).bind fdMap).map fun info =>
    (info, fun record => record.use (fdUse call.1.name) call.2)

theorem updatesOf_cons (m : Memory) (fdMap : Addr → Option Go.ElemPtr) (call : Call × Nat) (calls : List (Call × Nat)) :
    updatesOf m fdMap (call :: calls) = (((fdOf m call.1).bind fdMap).map fun info =>
      (info, fun record : FdInfo => record.use (fdUse call.1.name) call.2)).toList ++ updatesOf m fdMap calls := by
  unfold updatesOf
  rw [List.filterMap_cons]
  split <;> simp [*]

theorem foldl_addUse (m : Memory) (calls : List (Call × Nat)) (t : FdTable) :
    (calls.foldl (FdTable.addUse m) t).result =
      (updatesOf m t.fdMap calls).foldl (fun s u => s.update u.1 u.2) t.result := by
  induction calls generalizing t with
  | nil => rfl
  | cons call calls ih =>
    rw [List.foldl_cons, ih, updatesOf_cons, FdTable.addUse]
    cases (fdOf m call.1).bind t.fdMap with
    | none => rfl
    | some info => rfl

theorem FdInfo.withUses_concat (info : FdInfo) (uses : List (FdUse × Nat)) (u : FdUse × Nat) :
    (info.withUses uses).use u.1 u.2 = info.withUses (uses ++ [u]) := by
  obtain ⟨kind, i⟩ := u
  cases kind <;> simp [withUses, use, List.countP_append, List.filter_append]

theorem foldl_use (info : FdInfo) (bare : info.withUses [] = info) (uses : List (FdUse × Nat)) :
    uses.foldl (fun record u => record.use u.1 u.2) info = info.withUses uses := by
  induction uses using List.reverseRecOn with
  | nil => exact bare.symm
  | append_singleton uses u ih => rw [List.foldl_append, ih, List.foldl_cons, List.foldl_nil, FdInfo.withUses_concat]

/-- The updates that reach the record at `k` of the slice are the uses of its descriptor, or none when it has moved. -/
theorem foldl_updatesOf {m : Memory} {fdMap : Addr → Option Go.ElemPtr} {fd : Addr} {own : Go.ElemPtr} {arrays k : Nat}
    (present : fdMap fd = some own) (at_k : own.index = k) (apart : ∀ fd' info, fdMap fd' = some info → info.index = k → fd' = fd)
    (calls : List (Call × Nat)) (record : FdInfo) :
    ((updatesOf m fdMap calls).filter fun u => u.1.array + 1 = arrays ∧ u.1.index = k).foldl (fun record u => u.2 record) record =
      if own.array + 1 = arrays then (usesOf m calls fd).foldl (fun record u => record.use u.1 u.2) record else record := by
  induction calls generalizing record with
  | nil => simp [updatesOf, usesOf]
  | cons call calls ih =>
    have uses : usesOf m (call :: calls) fd =
        (if fdOf m call.1 = some fd then [(fdUse call.1.name, call.2)] else []) ++ usesOf m calls fd := by
      unfold usesOf
      rw [List.filterMap_cons]
      split <;> simp_all
    rw [uses, updatesOf_cons, List.filter_append, List.foldl_append, ih, List.foldl_append]
    by_cases here : fdOf m call.1 = some fd
    · simp only [here, Option.bind_some, present, Option.map_some, Option.toList_some, if_true]
      by_cases current : own.array + 1 = arrays <;> simp [current, at_k]
    · have none : (((fdOf m call.1).bind fdMap).map fun info =>
          (info, fun record : FdInfo => record.use (fdUse call.1.name) call.2)).toList.filter
            (fun u => decide (u.1.array + 1 = arrays ∧ u.1.index = k)) = [] := by
        rw [List.filter_eq_nil_iff]
        intro u member
        obtain ⟨info, found, rfl⟩ := Option.map_eq_some_iff.mp (Option.mem_toList.mp member)
        obtain ⟨fd', used, found⟩ := Option.bind_eq_some_iff.mp found
        intro reached
        rw [apart fd' info found (of_decide_eq_true reached).2] at used
        exact here used
      rw [none, if_neg here]
      rfl

/-- Each record that has not moved has all the uses of its descriptor; one that has moved has none. -/
theorem analyzeProgFds_eq (g : Go.Growth) (m : Memory) (p : Prog) (nodup : ((opensOf p.calls.zipIdx).map Prod.snd).Nodup) :
    analyzeProgFds g m p = (opensOf p.calls.zipIdx).mapIdx fun k o =>
      if (opensOf p.calls.zipIdx).length ≤ g.capAfter (k + 1) then (openInfo o.1 o.2).withUses (usesOf m p.calls.zipIdx o.2)
      else openInfo o.1 o.2 := by
  unfold analyzeProgFds
  dsimp only
  obtain ⟨result, fdMap⟩ := foldl_addOpen g p.calls.zipIdx nodup
  generalize p.calls.zipIdx.foldl (FdTable.addOpen g) {} = t at *
  rw [foldl_addUse, Go.Grown.slice_updates, result]
  obtain ⟨slice, _, arrays⟩ := @Go.Grown.appendAll_spec _ g ((opensOf p.calls.zipIdx).map fun o => openInfo o.1 o.2)
  rw [slice, arrays, List.length_map]
  refine List.ext_getElem? fun k => ?_
  rw [List.getElem?_mapIdx, List.getElem?_mapIdx, List.getElem?_map]
  cases at_k : (opensOf p.calls.zipIdx)[k]? with
  | none => rfl
  | some o =>
    have bound := (List.getElem?_eq_some_iff.mp at_k).1
    have apart : ∀ fd info, t.fdMap fd = some info → info.index = k → fd = o.2 := by
      intro fd info found same
      obtain ⟨j, o', at_j, rfl, rfl⟩ := (fdMap fd info).mp found
      obtain rfl : j = k := same
      rw [at_k] at at_j
      rw [Option.some.inj at_j]
    have own := (fdMap o.2 _).mpr ⟨k, o, at_k, rfl, rfl⟩
    have pos := g.arraysAfter_pos k
    have current : (recordPtr g k).array + 1 = g.arraysAfter (opensOf p.calls.zipIdx).length ↔
        (opensOf p.calls.zipIdx).length ≤ g.capAfter (k + 1) := by
      rw [← g.arraysAfter_eq_iff (show k + 1 ≤ (opensOf p.calls.zipIdx).length from bound), recordPtr]
      dsimp only
      omega
    have same_index : (recordPtr g k).index = k := rfl
    rw [Option.map_some, Option.map_some, Option.map_some, foldl_updatesOf own same_index apart, foldl_use _ rfl]
    simp only [current]

/-! ### When the records are right -/

theorem opensOf_nodup {p : Prog} (once : p.results.Nodup) : ((opensOf p.calls.zipIdx).map Prod.snd).Nodup := by
  have rets : (opensOf p.calls.zipIdx).map Prod.snd = p.calls.flatMap fun call =>
      (if isOpenCall call.name then call.ret else none).toList := by
    unfold opensOf
    generalize 0 = start
    induction p.calls generalizing start with
    | nil => rfl
    | cons call calls ih =>
      rw [List.zipIdx_cons, List.filterMap_cons, List.flatMap_cons, ← ih (start + 1)]
      cases isOpenCall call.name with
      | false => simp
      | true => cases call.ret <;> simp
  rw [rets]
  have each : ∀ call : Call, ((if isOpenCall call.name then call.ret else none).toList).Sublist call.results := by
    intro call
    refine List.Sublist.trans ?_ (List.sublist_append_left _ _)
    split
    · exact List.Sublist.refl _
    · exact List.nil_sublist _
  exact once.sublist (List.Sublist.flatMap_right _ fun call _ => each call)

theorem mem_opensOf {p : Prog} {o : (Call × Nat) × Addr} : o ∈ opensOf p.calls.zipIdx ↔
    p.calls[o.1.2]? = some o.1.1 ∧ isOpenCall o.1.1.name = true ∧ o.1.1.ret = some o.2 := by
  unfold opensOf
  rw [List.mem_filterMap]
  constructor
  · rintro ⟨call, member, found⟩
    split at found
    · rename_i opens
      obtain ⟨fd, ret, rfl⟩ := Option.map_eq_some_iff.mp found
      exact ⟨List.mem_zipIdx_iff_getElem?.mp member, opens, ret⟩
    · cases found
  · rintro ⟨inside, opens, ret⟩
    refine ⟨o.1, List.mem_zipIdx_iff_getElem?.mpr inside, ?_⟩
    rw [if_pos opens, ret]
    rfl

theorem usesOf_ne_nil {m : Memory} {p : Prog} {fd : Addr} : usesOf m p.calls.zipIdx fd ≠ [] ↔
    ∃ user ∈ p.calls, fdOf m user = some fd := by
  unfold usesOf
  constructor
  · intro some_use
    obtain ⟨u, member⟩ := List.exists_mem_of_ne_nil _ some_use
    obtain ⟨call, inside, found⟩ := List.mem_filterMap.mp member
    split at found
    · exact ⟨call.1, List.mem_of_getElem? (List.mem_zipIdx_iff_getElem?.mp inside), by assumption⟩
    · cases found
  · rintro ⟨user, inside, used⟩
    obtain ⟨i, here⟩ := List.getElem?_of_mem inside
    exact List.ne_nil_of_mem (List.mem_filterMap.mpr ⟨(user, i), List.mem_zipIdx_iff_getElem?.mpr here, if_pos used⟩)

theorem FdsExact.usedFdsKept {g : Go.Growth} {m : Memory} {p : Prog} (exact : FdsExact g m p) : UsedFdsKept g m p := by
  intro call inside opens fd ret used
  obtain ⟨i, here⟩ := List.getElem?_of_mem inside
  have record : (openInfo (call, i) fd).withUses (usesOf m p.calls.zipIdx fd) ∈ analyzeProgFds g m p := by
    rw [exact]
    exact List.mem_map.mpr ⟨((call, i), fd), mem_opensOf.mpr ⟨here, opens, ret⟩, rfl⟩
  unfold callRemovable
  split
  · rfl
  · rw [Bool.not_eq_false', List.any_eq_true]
    refine ⟨_, record, ?_⟩
    rw [Bool.and_eq_true, decide_eq_true_eq, decide_eq_true_eq]
    exact ⟨ret.symm, List.length_pos_of_ne_nil (usesOf_ne_nil.mpr used)⟩

theorem analyzeProgFds_exact_iff (g : Go.Growth) (m : Memory) (p : Prog) (once : p.results.Nodup) :
    FdsExact g m p ∧ UsedFdsKept g m p ↔ NoMovedUse g m p := by
  have records := analyzeProgFds_eq g m p (opensOf_nodup once)
  have exact_iff : FdsExact g m p ↔ NoMovedUse g m p := by
    unfold FdsExact
    rw [records]
    constructor
    · intro same k o at_k moved user inside used
      have here := congrArg (·[k]?) same
      simp only [List.getElem?_mapIdx, List.getElem?_map, at_k, Option.map_some, if_neg (Nat.not_le.mpr moved)] at here
      have uses := congrArg FdInfo.totalUses (Option.some.inj here)
      exact usesOf_ne_nil.mpr ⟨user, inside, used⟩ (List.length_eq_zero_iff.mp uses.symm)
    · intro noMoved
      refine List.ext_getElem? fun k => ?_
      rw [List.getElem?_mapIdx, List.getElem?_map]
      cases at_k : (opensOf p.calls.zipIdx)[k]? with
      | none => rfl
      | some o =>
        rw [Option.map_some, Option.map_some]
        split
        · rfl
        · rename_i moved
          have unused : usesOf m p.calls.zipIdx o.2 = [] := by
            by_contra some_use
            obtain ⟨user, inside, used⟩ := usesOf_ne_nil.mp some_use
            exact noMoved k o at_k (Nat.not_le.mp moved) user inside used
          rw [unused]
          rfl
  rw [← exact_iff]
  exact ⟨fun both => both.1, fun exact => ⟨exact, exact.usedFdsKept⟩⟩

/-- `r0 = open(...)`, `r1 = open(...)` and `read(r0)`. -/
def twoOpens : Prog where
  calls := [{ name := "open", args := [.pointer 3 ⟨1, .dirIn⟩ 0 0 (.data 4 ⟨2, .dirIn⟩ [47, 97, 0] 0)], ret := some 0 },
    { name := "open", args := [.pointer 5 ⟨1, .dirIn⟩ 0 0 (.data 6 ⟨2, .dirIn⟩ [47, 98, 0] 0)], ret := some 1 },
    { name := "read", args := [.result 2], ret := none }]

def twoOpensMemory : Memory where
  next := 7
  results := fun a =>
    if a = 0 then ⟨⟨3, .dirOut⟩, none, 0, 0, 0, [2]⟩
    else if a = 1 then ⟨⟨3, .dirOut⟩, none, 0, 0, 0, []⟩
    else ⟨⟨3, .dirIn⟩, some 0, 0, 0, 0, []⟩

/-- The same opens with a read of the second one, whose record is not moved. -/
def laterRead : Memory :=
  { twoOpensMemory with
    results := fun a =>
      if a = 0 then ⟨⟨3, .dirOut⟩, none, 0, 0, 0, []⟩
      else if a = 1 then ⟨⟨3, .dirOut⟩, none, 0, 0, 0, [2]⟩
      else ⟨⟨3, .dirIn⟩, some 1, 0, 0, 0, []⟩ }

theorem analyzeProgFds_exact_iff_twoOpens : (FdsExact .doubling laterRead twoOpens ∧ UsedFdsKept .doubling laterRead twoOpens) ∧
    (analyzeProgFds .doubling laterRead twoOpens).map FdInfo.totalUses = [0, 1] := by
  refine ⟨(analyzeProgFds_exact_iff .doubling laterRead twoOpens (by decide)).mpr ?_, by decide +kernel⟩
  intro k o here moved
  have unmoved : ∀ k < (opensOf twoOpens.calls.zipIdx).length, Go.Growth.doubling.capAfter (k + 1) < 2 →
      ∀ o ∈ (opensOf twoOpens.calls.zipIdx)[k]?, ∀ user ∈ twoOpens.calls, fdOf laterRead user ≠ some o.2 := by decide +kernel
  exact unmoved k (List.getElem?_eq_some_iff.mp here).1 moved o here

/-- The second append moves the first record, so the read is counted in a copy that nobody sees. -/
theorem analyzeProgFds_moved : ¬ FdsExact .doubling twoOpensMemory twoOpens ∧
    ¬ UsedFdsKept .doubling twoOpensMemory twoOpens ∧
    hasBrokenRefs twoOpensMemory twoOpens = false ∧
    (analyzeProgFds .doubling twoOpensMemory twoOpens).map FdInfo.totalUses = [0, 0] := by
  have counts : (analyzeProgFds .doubling twoOpensMemory twoOpens).map FdInfo.totalUses = [0, 0] := by decide +kernel
  refine ⟨fun exact => ?_, fun kept => ?_, by decide +kernel, counts⟩
  · rw [exact] at counts
    exact absurd counts (by decide +kernel)
  · have removable : ∀ call ∈ twoOpens.calls.head?, callRemovable .doubling twoOpensMemory twoOpens call = true := by
      decide +kernel
    have kept_open := kept _ List.mem_cons_self (by decide +kernel) 0 rfl
      ⟨_, List.mem_cons_of_mem _ (List.mem_cons_of_mem _ List.mem_cons_self), rfl⟩
    exact absurd ((removable _ rfl).symm.trans kept_open) (by decide)

end DfsFuzz.Refs
