import DfsFuzz.Lib.Provenance
import DfsFuzz.Output.ClientStream
import DfsFuzz.Tree.FileTree

/-!
Who made the files that a group of programs leaves (`syz-fuzzer/proc.go`): `collectCreateCallOwners` has for each
path the calls that may have put something there, the last of them by index decides, and a rename passes
on the owner of the path it moved from.
-/

namespace DfsFuzz.Tree

open DfsFuzz.Output Provenance

inductive CreateCallType where
  | file | mkdir | open | rename
deriving DecidableEq

def extractOpenFlags (call : Call) : UInt64 :=
  match call.args[1]? with
  | some (Arg.const val) => val
  | _ => 0

/-- `GetCreateInfo`: the path, the old path, and `none` for the type -1. -/
def getCreateInfo (call : Call) : String × String × Option CreateCallType :=
  if Go.contains call.name "creat" then (extractPathFromCall call, "", some .file)
  else if Go.contains call.name "mkdir" then (extractPathFromCall call, "", some .mkdir)
  else if Go.contains call.name "open" then
    if extractOpenFlags call &&& 0x40 ≠ 0 then (extractPathFromCall call, "", some .open) else ("", "", none)
  else if Go.contains call.name "rename" then
    let newPath := extractPathFromCallByArgIdx call 1
    let oldP := extractPathFromCallByArgIdx call 0
    if newPath ≠ "" then (newPath, oldP, some .rename) else ("", "", none)
  else ("", "", none)

def getDeletePath (call : Call) : String := if Go.contains call.name "unlink" then extractPathFromCall call else ""

inductive ProduceType where
  | create | mkdir | openCreate | rename
deriving DecidableEq

structure PathProducer where
  callIdx : Nat
  progIdx : Nat
  prodType : ProduceType
  oldPath : String
deriving DecidableEq

structure Placed where
  callIdx : Nat
  progIdx : Nat
  call : Call

/-- A group that was run: programs, their results, the names of the clients and the file tree before. -/
structure Group where
  ps : List Prog
  infos : List (Option ProgInfo)
  cids : List String
  oldTree : Option FileTree

def callExecuted : UInt32 := 1

namespace Group

/-- The calls that ran and succeeded, in the order of both loops. -/
def succeeded (g : Group) : List Placed :=
  g.ps.zipIdx.flatMap fun p =>
    match g.infos[p.2]? with
    | some (some info) =>
      ((p.1.calls.zip info.calls).zipIdx).filterMap fun c =>
        if c.1.2.flags &&& callExecuted = 0 ∨ c.1.2.errno ≠ 0 then none else some ⟨c.2, p.2, c.1.1⟩
    | _ => []

def deletedPaths (g : Group) : List String := (g.succeeded.map fun d => getDeletePath d.call).filter (· ≠ "")

def oldNode (g : Group) (path : String) : Option FileNode :=
  g.oldTree.bind fun ft => (ft.findNode path).map ft.node

/-- What a call is recorded for. An `open` of a path of the tree before is passed over, unless the path is
removed by some call. -/
def production (g : Group) (d : Placed) : Option (String × PathProducer) :=
  let (path, oldP, ctype) := getCreateInfo d.call
  if path = "" then none
  else
    match ctype with
    | some .open =>
      if (g.oldNode path).isSome && path ∉ g.deletedPaths then none
      else some (path, ⟨d.callIdx, d.progIdx, .openCreate, ""⟩)
    | some .file => some (path, ⟨d.callIdx, d.progIdx, .create, ""⟩)
    | some .mkdir => some (path, ⟨d.callIdx, d.progIdx, .mkdir, ""⟩)
    | some .rename => some (path, ⟨d.callIdx, d.progIdx, .rename, oldP⟩)
    | none => none

def productions (g : Group) : Go.Map String (List PathProducer) := Go.Map.pushAll ∅ (g.succeeded.filterMap g.production)

end Group

/-- The production that comes later by its indices. -/
def PathProducer.after (p winner : PathProducer) : Bool :=
  decide (winner.callIdx < p.callIdx) || (p.callIdx = winner.callIdx && decide (winner.progIdx < p.progIdx))

def winner : List PathProducer → Option PathProducer
  | [] => none
  | first :: rest => some (rest.foldl (fun winner p => if p.after winner then p else winner) first)

def Group.oldOwner (g : Group) (path : String) : String := ((g.oldNode path).map FileNode.ownerCid).getD ""

/-- `resolveCreateCid`, without a value when the fuel runs out. -/
def Group.resolveCreateCid (g : Group) : Nat → List String → String → Option String
  | 0, _, _ => none
  | fuel + 1, visited, path =>
    if path ∈ visited then some ""
    else
      match (g.productions.lookup path).bind winner with
      | none => some (g.oldOwner path)
      | some w =>
        if w.prodType = .rename then g.resolveCreateCid fuel (path :: visited) w.oldPath
        else some (g.cids.getD w.progIdx "")

/-- A path is resolved through others that have productions, and no path twice. -/
def Group.fuel (g : Group) : Nat := g.productions.items.length + 1

def collectCreateCallOwners (range : Go.RangeOrder) (g : Group) : Option (Go.Map String String) :=
  (range.arrange g.productions.items).foldlM (fun ownerMap e => do
    let cid ← g.resolveCreateCid g.fuel [] e.1
    return if cid ≠ "" then ownerMap.insert e.1 cid else ownerMap) ∅

namespace PathProducer

variable {x p w : PathProducer}

theorem after_iff : p.after w = true ↔ w.callIdx < p.callIdx ∨ p.callIdx = w.callIdx ∧ w.progIdx < p.progIdx := by
  simp [after]

theorem after_irrefl (p : PathProducer) : ¬ p.after p = true := by
  rw [after_iff]
  omega

theorem after_asymm (later : p.after w = true) : ¬ w.after p = true := by
  rw [after_iff] at later ⊢
  omega

theorem not_after_trans (first : ¬ x.after p = true) (second : ¬ p.after w = true) : ¬ x.after w = true := by
  rw [after_iff] at first second ⊢
  omega

theorem foldl_winner (first : PathProducer) (rest : List PathProducer) :
    rest.foldl (fun winner p => if p.after winner then p else winner) first ∈ first :: rest ∧
      ∀ x ∈ first :: rest, ¬ x.after (rest.foldl (fun winner p => if p.after winner then p else winner) first) = true := by
  induction rest generalizing first with
  | nil =>
    refine ⟨List.mem_cons_self, fun x member => ?_⟩
    obtain rfl := List.mem_singleton.mp member
    exact after_irrefl x
  | cons p rest ih =>
    rw [List.foldl_cons]
    by_cases later : p.after first = true
    · rw [if_pos later]
      obtain ⟨member, last⟩ := ih p
      refine ⟨List.mem_cons_of_mem _ member, fun x inside => ?_⟩
      rcases List.mem_cons.mp inside with rfl | inside
      · exact not_after_trans (after_asymm later) (last p List.mem_cons_self)
      · exact last x inside
    · rw [if_neg later]
      obtain ⟨member, last⟩ := ih first
      refine ⟨?_, fun x inside => ?_⟩
      · rcases List.mem_cons.mp member with same | inside
        · exact List.mem_cons.mpr (.inl same)
        · exact List.mem_cons_of_mem _ (List.mem_cons_of_mem _ inside)
      · rcases List.mem_cons.mp inside with rfl | inside
        · exact last x List.mem_cons_self
        · rcases List.mem_cons.mp inside with rfl | inside
          · exact not_after_trans later (last first List.mem_cons_self)
          · exact last x (List.mem_cons_of_mem _ inside)

/-- The winner is the production that comes after all others, wherever it stands. -/
theorem winner_eq {l ws : List PathProducer} (perm : l.Perm (w :: ws)) (last : ∀ x ∈ ws, w.after x = true) :
    winner l = some w := by
  cases l with
  | nil => cases perm.symm.eq_nil
  | cons first rest =>
    obtain ⟨member, least⟩ := foldl_winner first rest
    rw [winner]
    rcases List.mem_cons.mp (perm.mem_iff.mp member) with same | inside
    · rw [same]
    · exact absurd (last _ inside) (least w (perm.mem_iff.mpr List.mem_cons_self))

end PathProducer

/-! ### The loops -/

namespace Group

variable {g : Group}

/-- What the productions that win say of their paths. -/
def sourceOf (g : Group) (w : PathProducer) : Source String String :=
  if w.prodType = .rename then .moved w.oldPath else .made (g.cids.getD w.progIdx "")

def winners (g : Group) (path : String) : Option (Source String String) :=
  ((g.productions.lookup path).bind winner).map g.sourceOf

theorem resolveCreateCid_eq (g : Group) (fuel : Nat) (visited : List String) (path : String) :
    g.resolveCreateCid fuel visited path = follow g.winners g.oldOwner "" fuel visited path := by
  induction fuel generalizing visited path with
  | zero => rfl
  | succ fuel ih =>
    rw [resolveCreateCid, follow, winners]
    split
    · rfl
    · cases (g.productions.lookup path).bind winner with
      | none => rfl
      | some w =>
        simp only [Option.map_some, sourceOf]
        split
        · exact ih _ _
        · rfl

/-- The productions of a path, in the order of both loops. -/
def producers (g : Group) (path : String) : List PathProducer :=
  ((g.succeeded.filterMap g.production).filter fun x => x.1 = path).map Prod.snd

theorem mem_productions {path : String} : path ∈ g.productions.items.map Prod.fst ↔ g.producers path ≠ [] := by
  rw [List.mem_map]
  constructor
  · rintro ⟨⟨_, l⟩, member, rfl⟩
    obtain ⟨nonempty, same⟩ := Go.Map.mem_items_pushAll.mp member
    exact fun empty => nonempty (same.trans empty)
  · intro nonempty
    exact ⟨(path, g.producers path), Go.Map.mem_items_pushAll.mpr ⟨nonempty, rfl⟩, rfl⟩

theorem winners_eq (g : Group) (path : String) : g.winners path = (winner (g.producers path)).map g.sourceOf := by
  rw [winners]
  cases found : g.productions.lookup path with
  | none =>
    have empty : g.producers path = [] := by
      by_contra nonempty
      obtain ⟨⟨_, l⟩, member, rfl⟩ := List.mem_map.mp (mem_productions.mpr nonempty)
      cases found.symm.trans (Go.Map.mem_items.mp member)
    rw [empty]
    rfl
  | some l =>
    obtain ⟨-, same⟩ := Go.Map.mem_items_pushAll.mp (Go.Map.mem_items.mpr found)
    rw [same]
    rfl

theorem winners_mem {path : String} (here : g.winners path ≠ none) : path ∈ g.productions.items.map Prod.fst := by
  rw [winners] at here
  cases found : g.productions.lookup path with
  | none =>
    rw [found] at here
    exact absurd rfl here
  | some prods => exact List.mem_map.mpr ⟨(path, prods), Go.Map.mem_items.mpr found, rfl⟩

/-- Every path is resolved: `collectCreateCallOwners` terminates. -/
theorem resolveCreateCid_isSome (g : Group) (path : String) : (g.resolveCreateCid g.fuel [] path).isSome := by
  rw [resolveCreateCid_eq]
  refine follow_isSome (fun q here => winners_mem here) ?_
  rw [fuel, Nat.lt_succ_iff, ← List.length_map (f := Prod.fst)]
  exact List.length_filter_le _ _

def ownerOf (g : Group) (path : String) : String := (g.resolveCreateCid g.fuel [] path).getD ""

theorem resolveCreateCid_ownerOf (g : Group) (path : String) : g.resolveCreateCid g.fuel [] path = some (g.ownerOf path) := by
  rw [ownerOf]
  obtain ⟨cid, run⟩ := Option.isSome_iff_exists.mp (g.resolveCreateCid_isSome path)
  rw [run, Option.getD_some]

theorem collect_fold (g : Group) (l : List (String × List PathProducer)) (m : Go.Map String String) :
    ∃ m', l.foldlM (fun (ownerMap : Go.Map String String) e => do
        let cid ← g.resolveCreateCid g.fuel [] e.1
        return if cid ≠ "" then ownerMap.insert e.1 cid else ownerMap) m = some m' ∧
      ∀ path, m'.lookup path = if path ∈ l.map Prod.fst ∧ g.ownerOf path ≠ "" then some (g.ownerOf path) else m.lookup path := by
  induction l generalizing m with
  | nil => exact ⟨m, rfl, fun path => by simp⟩
  | cons e l ih =>
    obtain ⟨m', run, lookups⟩ := ih (if g.ownerOf e.1 ≠ "" then m.insert e.1 (g.ownerOf e.1) else m)
    refine ⟨m', ?_, fun path => ?_⟩
    · rw [List.foldlM_cons, resolveCreateCid_ownerOf]
      exact run
    · rw [lookups]
      by_cases later : path ∈ l.map Prod.fst ∧ g.ownerOf path ≠ ""
      · rw [if_pos later, if_pos ⟨List.mem_cons_of_mem _ later.1, later.2⟩]
      · rw [if_neg later]
        by_cases same : path = e.1
        · subst same
          by_cases owned : g.ownerOf e.1 ≠ ""
          · rw [if_pos owned, AList.lookup_insert, if_pos ⟨List.mem_cons_self, owned⟩]
          · rw [if_neg owned, if_neg fun both => owned both.2]
        · have off : ¬ (path ∈ (e :: l).map Prod.fst ∧ g.ownerOf path ≠ "") := by
            rintro ⟨member, owned⟩
            rw [List.map_cons] at member
            rcases List.mem_cons.mp member with here | rest
            · exact same here
            · exact later ⟨rest, owned⟩
          rw [if_neg off]
          split
          · exact AList.lookup_insert_ne same
          · rfl

theorem collect_spec (range : Go.RangeOrder) (g : Group) :
    ∃ m, collectCreateCallOwners range g = some m ∧ ∀ path, m.lookup path =
      if g.producers path ≠ [] ∧ g.ownerOf path ≠ "" then some (g.ownerOf path) else none := by
  obtain ⟨m, run, lookups⟩ := g.collect_fold (range.arrange g.productions.items) ∅
  refine ⟨m, run, fun path => ?_⟩
  have same : path ∈ (range.arrange g.productions.items).map Prod.fst ↔ path ∈ g.productions.items.map Prod.fst :=
    ((range.perm g.productions.items).map Prod.fst).mem_iff
  simp only [lookups, same, mem_productions]
  rfl

end Group

end DfsFuzz.Tree
