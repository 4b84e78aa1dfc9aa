import DfsFuzz.Symsc.Emulate

/-!
`getdents` (`syscalls.py`): the names of an open directory are placed in a buffer. A directory keeps its
persisted and its new entries, and those that were removed since both were last put together; an entry
is a tuple, and the loop over the live ones asks it for an attribute that a tuple does not have.
-/

namespace DfsFuzz.Symsc

def Inode.live (i : Inode) : List Tup := (i.pChildren ++ i.children).filter (· ∉ i.dChildren)

/-- `dent.name`, which raises for a tuple. -/
def entryName (_ : Tup) : M Str := raise

/-- The names up to the first that no longer fits. -/
def fillNames (count : Int) : List Tup → M (List Str)
  | [] => return []
  | dent :: rest => do
    let name ← entryName dent
    if count < 10 + name.length then return []
    let names ← fillNames count rest
    return name :: names

/-- `";".join(names) + ";"` -/
def direntText (names : List Str) : Str := [';'].intercalate names ++ [';']

def getdents (argv : List Str) : M Ret := do
  if argv.length < 3 then return .int (-1)
  let fd ← argAt argv 0
  let some id ← getInodeOfFd fd | return .int (-1)
  let i ← getInode id
  if i.type ≠ .dir then return .int (-1)
  let buf := stripLong (← argAt argv 1)
  let s ← getState
  let some bufSize := s.bufSize.lookup buf | return .int (-1)
  if (s.bufData.lookup buf).isNone then return .int (-1)
  if bufSize = 0 then return .int (-1)
  let count ← intAt argv 2
  let names ← fillNames count i.live
  modifyState fun s => { s with bufData := s.bufData.insert buf (direntText names) }
  return .int (direntText names).length

/-- `D/x` is in `DENTRY`. -/
def State.hasName (s : State) (dir x : Str) : Bool := isName x && s.dentry.has (osJoin dir x)

/-- The names of a directory that `DENTRY` has, each once, in the order of its lists. -/
def State.namesIn (s : State) (dir : Str) (i : Inode) : List Str :=
  (((i.pChildren ++ i.children).map Prod.snd).filter (s.hasName dir)).eraseDups

def nameFits (count : Int) (x : Str) : Bool := 10 + x.length ≤ count

/-- The names up to the first that does not fit. -/
def State.listing (s : State) (dir : Str) (i : Inode) (count : Int) : List Str := (s.namesIn dir i).takeWhile (nameFits count)

/-- The call returns, and the buffer has exactly the names of the directory, up to the first that does not fit. -/
def ListsNames (w : Ctx) (argv : List Str) (dir : Str) (i : Inode) : Prop :=
  (∀ x, w.st.hasName dir x → x ∈ w.st.namesIn dir i) ∧
  ∃ token count w', argv[1]? = some token ∧ argv[2]?.bind parseInt = some count ∧
    getdents argv w = some (.int (direntText (w.st.listing dir i count)).length, w') ∧
    w'.st.bufData.lookup (stripLong token) = some (direntText (w.st.listing dir i count))

/-- The buffer that a token stands for is there, and is not null. -/
def State.hasBuffer (s : State) (token : Str) : Bool :=
  (s.bufSize.lookup (stripLong token)).any (0 < ·) && (s.bufData.lookup (stripLong token)).isSome

/-- No entry of the directory is live; its names in `DENTRY`, if any, have entries that count as removed,
and the first does not fit. -/
def NothingLive (w : Ctx) (argv : List Str) (dir : Str) (i : Inode) : Prop :=
  i.live = [] ∧ (∀ x, w.st.hasName dir x → ∃ t ∈ i.pChildren ++ i.children, t.2 = x) ∧
  ∃ token count, argv[1]? = some token ∧ argv[2]?.bind parseInt = some count ∧ w.st.hasBuffer token ∧
    ∀ x ∈ (w.st.namesIn dir i).head?, nameFits count x = false

theorem mem_namesIn {s : State} {dir x : Str} {i : Inode} :
    x ∈ s.namesIn dir i ↔ (∃ t ∈ i.pChildren ++ i.children, t.2 = x) ∧ s.hasName dir x := by
  rw [State.namesIn, List.mem_eraseDups, List.mem_filter, List.mem_map]

theorem namesIn_complete {s : State} {dir : Str} {i : Inode} :
    (∀ x, s.hasName dir x → x ∈ s.namesIn dir i) ↔
      ∀ x, s.hasName dir x → ∃ t ∈ i.pChildren ++ i.children, t.2 = x := by
  refine forall₂_congr fun x named => ?_
  rw [mem_namesIn, and_iff_left named]

theorem namesIn_nonempty {s : State} {dir x : Str} {i : Inode} (listed : x ∈ s.namesIn dir i) : x ≠ [] := by
  have name := (mem_namesIn.mp listed).2
  rw [State.hasName, isName] at name
  simp only [Bool.and_eq_true, decide_eq_true_eq] at name
  exact name.1.1

theorem direntText_eq_semicolon {names : List Str} (nonempty : ∀ x ∈ names, x ≠ []) :
    direntText names = [';'] ↔ names = [] := by
  cases names with
  | nil => exact iff_of_true rfl rfl
  | cons x rest =>
    obtain ⟨c, tail, rfl⟩ := List.exists_cons_of_ne_nil (nonempty x List.mem_cons_self)
    refine iff_of_false (fun same => ?_) (List.cons_ne_nil _ _)
    have short := congrArg List.length same
    cases rest <;> simp [direntText, List.intercalate] at short

theorem takeWhile_eq_nil_iff_head {α : Type} {p : α → Bool} {l : List α} :
    l.takeWhile p = [] ↔ ∀ x ∈ l.head?, p x = false := by
  cases l with
  | nil => simp
  | cons a rest => cases fits : p a <;> simp [List.takeWhile, fits]

/-! ### The call -/

theorem fillNames_apply (count : Int) (live : List Tup) (w : Ctx) :
    fillNames count live w = if live = [] then some ([], w) else none := by
  cases live with
  | nil => rfl
  | cons dent rest => rfl

structure OpenDir (w : Ctx) (fd : Str) (id : Nat) (i : Inode) : Prop where
  opened : w.st.fdStack.lookup (stripLong fd) = some (.opened id)
  found : w.st.inode? id = some i
  dir : i.type = .dir

/-- What the call comes to for a directory: it raises where an entry is live. -/
theorem getdents_apply {w : Ctx} {fd token count : Str} {rest : List Str} {id : Nat} {i : Inode} (opened : OpenDir w fd id i) :
    getdents (fd :: token :: count :: rest) w =
      if w.st.hasBuffer token then
        (parseInt count).bind fun _ => if i.live = [] then
          some (.int 1, { w with st := { w.st with bufData := w.st.bufData.insert (stripLong token) [';'] } })
        else none
      else some (.int (-1), w) := by
  have number : intAt (fd :: token :: count :: rest) 2 w = orRaise (parseInt count) w := rfl
  have enough : ¬ (fd :: token :: count :: rest).length < 3 := by simp
  rw [getdents, if_neg enough, M.bind_run (argAt_run rfl), M.bind_run (getInodeOfFd_opened opened.opened opened.found)]
  dsimp only
  rw [M.bind_run (getInode_found opened.found), if_neg (not_not.mpr opened.dir), M.bind_run (argAt_run rfl), M.bind_run (getState_apply w), State.hasBuffer]
  cases sized : w.st.bufSize.lookup (stripLong token) with
  | none => rfl
  | some size =>
    dsimp only
    cases stored : w.st.bufData.lookup (stripLong token) with
    | none =>
      rw [Option.isNone_none, if_pos rfl, Option.isSome_none, Bool.and_false]
      rfl
    | some data =>
      rw [Option.isNone_some, if_neg Bool.false_ne_true, Option.isSome_some, Bool.and_true]
      rcases Nat.eq_zero_or_pos size with rfl | positive
      · rfl
      · rw [if_neg (Nat.pos_iff_ne_zero.mp positive), Option.any_some, if_pos (decide_eq_true positive), M.bind_eq, number]
        cases parseInt count with
        | none => rfl
        | some k =>
          rw [orRaise_some, Option.bind_some, Option.bind_some, M.bind_eq, fillNames_apply]
          split
          · rfl
          · rfl

theorem arguments_of_given {fd token : Str} {rest : List Str} {count : Int} (given : (fd :: rest)[1]? = some token)
    (number : (fd :: rest)[2]?.bind parseInt = some count) :
    ∃ numeral rest', rest = token :: numeral :: rest' ∧ parseInt numeral = some count := by
  cases rest with
  | nil => cases given
  | cons token' rest =>
    cases given
    cases rest with
    | nil => cases number
    | cons numeral rest => exact ⟨numeral, rest, rfl, number⟩

/-- The call lists the names of a directory exactly where there is nothing that its loop would come to. -/
theorem listsNames_iff {w : Ctx} {fd : Str} {rest : List Str} {dir : Str} {id : Nat} {i : Inode} (opened : OpenDir w fd id i) :
    ListsNames w (fd :: rest) dir i ↔ NothingLive w (fd :: rest) dir i := by
  have nonempty (count : Int) : ∀ x ∈ w.st.listing dir i count, x ≠ [] := fun x member =>
    namesIn_nonempty (List.takeWhile_subset _ member)
  constructor
  · rintro ⟨complete, token, count, w', given, number, run, stored⟩
    obtain ⟨numeral, rest, rfl, parsed⟩ := arguments_of_given given number
    rw [getdents_apply opened, parsed, Option.bind_some] at run
    have buffer : w.st.hasBuffer token = true := by
      by_contra missing
      rw [if_neg missing, Option.some.injEq, Prod.mk.injEq, Ret.int.injEq] at run
      omega
    rw [if_pos buffer] at run
    obtain ⟨silent, run⟩ := Option.ite_none_right_eq_some.mp run
    rw [Option.some.injEq, Prod.mk.injEq] at run
    rw [← run.2, AList.lookup_insert, Option.some.injEq] at stored
    have empty := (direntText_eq_semicolon (nonempty count)).mp stored.symm
    exact ⟨silent, namesIn_complete.mp complete, token, count, rfl, number, buffer, takeWhile_eq_nil_iff_head.mp empty⟩
  · rintro ⟨silent, listed, token, count, given, number, buffer, first⟩
    have empty : w.st.listing dir i count = [] := takeWhile_eq_nil_iff_head.mpr first
    obtain ⟨numeral, rest, rfl, parsed⟩ := arguments_of_given given number
    have run := @getdents_apply w fd token numeral rest id i opened
    rw [if_pos buffer, parsed, Option.bind_some, if_pos silent] at run
    have text : direntText (w.st.listing dir i count) = [';'] := (direntText_eq_semicolon (nonempty count)).mpr empty
    refine ⟨namesIn_complete.mpr listed, token, count,
      { w with st := { w.st with bufData := w.st.bufData.insert (stripLong token) [';'] } }, given, number, ?_, ?_⟩
    · rw [text]
      exact run
    · rw [text]
      exact AList.lookup_insert _

/-- The calls on names, `open` for the descriptors, and `getdents` itself. -/
inductive DirCall where
  | mkdir (argv : List Str) | rmdir (argv : List Str) | creat (argv : List Str) (var : Str) | unlink (argv : List Str)
  | link (argv : List Str) | symlink (argv : List Str) | sync | fsync (argv : List Str)
  | open (argv : List Str) (var : Str) | getdents (argv : List Str)

namespace DirCall

def run (env : PyEnv) : DirCall → M Ret
  | mkdir argv => Symsc.mkdir env argv
  | rmdir argv => Symsc.rmdir env argv
  | creat argv var => Symsc.creat env argv var
  | unlink argv => Symsc.unlink env argv
  | link argv => Symsc.link env argv
  | symlink argv => Symsc.symlink env argv
  | sync => Symsc.sync env
  | fsync argv => Symsc.fsync env argv
  | «open» argv var => openCall env argv var
  | getdents argv => Symsc.getdents argv

/-- What holds at every `getdents` on a directory in a run, for the call and any path of the directory. -/
def AtListings (env : PyEnv) (P : Ctx → List Str → Str → Inode → Prop) : List DirCall → Ctx → Prop
  | [], _ => True
  | call :: calls, w =>
    (∀ fd rest dir id i, call = getdents (fd :: rest) → OpenDir w fd id i → P w (fd :: rest) dir i) ∧
      ∀ ret w', call.run env w = some (ret, w') → AtListings env P calls w'

theorem atListings_of {env : PyEnv} {P : Ctx → List Str → Str → Inode → Prop}
    (holds : ∀ {w fd rest dir id i}, OpenDir w fd id i → P w (fd :: rest) dir i) (calls : List DirCall) (w : Ctx) :
    AtListings env P calls w := by
  induction calls generalizing w with
  | nil => trivial
  | cons call calls ih => exact ⟨fun _ _ _ _ _ _ opened => holds opened, fun _ w' _ => ih w'⟩

end DirCall

def startCtx (read : Parsed) (nodes : Nat) : Ctx := ⟨initState read nodes, ∅⟩

/-- In every run from an empty tree, every `getdents` on a directory lists its names exactly where no entry
is live and there is no name to be listed. -/
theorem getdents_lists_iff (env : PyEnv) (read : Parsed) (nodes : Nat) (calls : List DirCall) :
    DirCall.AtListings env (fun w argv dir i => ListsNames w argv dir i ↔ NothingLive w argv dir i) calls (startCtx read nodes) :=
  DirCall.atListings_of listsNames_iff calls _

def DirCall.runAll (env : PyEnv) : List DirCall → Ctx → Option Ctx
  | [], w => some w
  | call :: calls, w => (call.run env w).bind fun r => DirCall.runAll env calls r.2

def listingProgram : Parsed := pathProgram [("v0", "./d"), ("v1", "./d/x"), ("v2", "./a"), ("v3", "    ")] []

def tokens (l : List String) : List Str := l.map String.toList

def fileCalls : List DirCall :=
  [.mkdir (tokens ["v0", "511"]), .creat (tokens ["v1", "511"]) "r0".toList, .open (tokens ["v0", "0", "0"]) "r1".toList]

/-- A directory in which a name of a file is made, removed and made again. -/
def relinkCalls : List DirCall :=
  [.creat (tokens ["v2", "511"]) "r0".toList, .mkdir (tokens ["v0", "511"]), .link (tokens ["v2", "v1"]),
   .unlink (tokens ["v1"]), .link (tokens ["v2", "v1"]), .open (tokens ["v0", "0", "0"]) "r1".toList]

def listingEnv : PyEnv := ⟨Go.RangeOrder.stored, fun _ _ => none⟩

def getdentsArgs : List Str := tokens ["r1", "v3", "100"]

/-- A run comes to an open directory `./d` with the name `x`, for which `getdents` returns a value or raises. -/
def ListingGives (calls : List DirCall) (id : Nat) (ret : Option Ret) : Prop :=
  ∃ w i, DirCall.runAll listingEnv calls (startCtx listingProgram 1) = some w ∧ OpenDir w "r1".toList id i ∧
    w.st.hasName "./d".toList "x".toList ∧ (getdents getdentsArgs w).map Prod.fst = ret

theorem listingGives_of {calls : List DirCall} {id : Nat} {ret : Option Ret}
    (computed : ((DirCall.runAll listingEnv calls (startCtx listingProgram 1)).map fun w =>
      decide (w.st.fdStack.lookup "r1".toList = some (.opened id)) && (w.st.inode? id).any (·.type = .dir) &&
        w.st.hasName "./d".toList "x".toList && decide ((getdents getdentsArgs w).map Prod.fst = ret)) = some true) :
    ListingGives calls id ret := by
  obtain ⟨w, run, computed⟩ := Option.map_eq_some_iff.mp computed
  simp only [Bool.and_eq_true, decide_eq_true_eq] at computed
  obtain ⟨⟨⟨opened, inode⟩, name⟩, result⟩ := computed
  obtain ⟨i, found, dir⟩ := Option.any_eq_true _ _ |>.mp inode
  exact ⟨w, i, run, ⟨opened, found, of_decide_eq_true dir⟩, name, result⟩

/-- A directory with a file is not listed: the call raises. Where the file is there again under a name that it
had before, the call stores no name. -/
theorem getdents_listing_fails : ListingGives fileCalls 1 none ∧ ListingGives relinkCalls 2 (some (.int 1)) :=
  ⟨listingGives_of (by decide +kernel), listingGives_of (by decide +kernel)⟩

end DfsFuzz.Symsc
