import DfsFuzz.Lib.Effects
import DfsFuzz.Symsc.Emulate
import Mathlib.Algebra.Ring.Parity

/-!
What a search leaves of the file tree: the children of every node it opens are reversed, and the rest stays.
`_update_dentry` changes the entries where a search leads to another path; a state in which it leads back
to every path is settled.
-/

namespace DfsFuzz.Symsc

def Node.turned (n : Node) : Node := { n with children := n.children.reverse }

theorem Node.turned_iterate (n : Node) (k : Nat) :
    Node.turned^[k] n = n ↔ (n.children.reverse ≠ n.children → Even k) := by
  have back : Function.Involutive Node.turned := fun n => by simp [Node.turned]
  by_cases even : Even k
  · simp [back.iterate_even even, even]
  · rw [back.iterate_odd (Nat.not_even_iff_odd.mp even)]
    obtain ⟨parent, children, oldChildren⟩ := n
    simp [Node.turned, even]

variable {found : Option (List Tup)}

namespace FileTree

/-- A node by its tuple and its place in the list of the tuple. -/
abbrev Place := Tup × Nat

def node? (ft : FileTree) (p : Place) : Option Node := (ft.get? p.1).bind fun nodes => nodes[p.2]?

def turn (ft : FileTree) (p : Place) : FileTree :=
  match ft.get? p.1 with
  | none => ft
  | some nodes => ft.set p.1 (reverseAt nodes p.2)

def turnAll (ft : FileTree) (opened : List Place) : FileTree := opened.foldl turn ft

/-- Every node whose children do not read the same backwards is opened an even number of times. -/
def Restored (ft : FileTree) (opened : List Place) : Prop :=
  ∀ p n, ft.node? p = some n → n.children.reverse ≠ n.children → Even (opened.count p)

variable {ft ft' : FileTree}

theorem keys_turn (ft : FileTree) (p : Place) : (ft.turn p).keys = ft.keys := by
  rw [turn]
  split
  · rfl
  · rename_i nodes found
    exact Py.Dict.keys_set_old (Py.Dict.mem_keys.mpr ⟨nodes, found⟩) _

theorem keys_turnAll (ft : FileTree) (opened : List Place) : (ft.turnAll opened).keys = ft.keys := by
  induction opened generalizing ft with
  | nil => rfl
  | cons p rest ih => exact (ih (ft.turn p)).trans (keys_turn ft p)

theorem turnAll_append (ft : FileTree) (opened opened' : List Place) :
    ft.turnAll (opened ++ opened') = (ft.turnAll opened).turnAll opened' := List.foldl_append

theorem node?_turn (ft : FileTree) (p q : Place) :
    (ft.turn p).node? q = if q = p then (ft.node? q).map Node.turned else ft.node? q := by
  obtain ⟨tup, i⟩ := p
  obtain ⟨tup', j⟩ := q
  rw [turn]
  split
  · rename_i absent
    by_cases same : tup' = tup
    · subst same
      simp only at absent
      simp [node?, absent]
    · simp [same]
  · rename_i nodes found
    simp only at found
    simp only [node?, Py.Dict.get?_set]
    by_cases same : tup' = tup
    · subst same
      rw [if_pos rfl, found, Option.bind_some, Option.bind_some, reverseAt, List.getElem?_modify]
      by_cases place : j = i
      · subst place
        simp only [if_true]
        rfl
      · simp [place, Ne.symm place]
    · simp [same]

theorem node?_turnAll (ft : FileTree) (opened : List Place) (q : Place) :
    (ft.turnAll opened).node? q = (ft.node? q).map Node.turned^[opened.count q] := by
  induction opened generalizing ft with
  | nil => simp [turnAll]
  | cons p rest ih =>
    have one : (ft.turnAll (p :: rest)).node? q = ((ft.turn p).turnAll rest).node? q := rfl
    rw [one, ih, node?_turn, List.count_cons]
    by_cases same : q = p
    · subst same
      simp [Function.iterate_succ]
    · simp [same, Ne.symm same]

theorem ext_node (keys : ft'.keys = ft.keys) (same : ∀ p, ft'.node? p = ft.node? p) : ft' = ft := by
  refine Py.Dict.ext_get keys fun tup => ?_
  cases found : ft.get? tup with
  | none =>
    rw [Py.Dict.get?_eq_none] at found ⊢
    rwa [keys]
  | some nodes =>
    obtain ⟨nodes', found'⟩ := Py.Dict.mem_keys.mp (keys ▸ Py.Dict.mem_keys.mpr ⟨nodes, found⟩ : tup ∈ ft'.keys)
    rw [found']
    congr 1
    apply List.ext_getElem?
    intro i
    simpa [node?, found, found'] using same (tup, i)

theorem turnAll_eq_iff (ft : FileTree) (opened : List Place) : ft.turnAll opened = ft ↔ ft.Restored opened := by
  have turned : ∀ p n, ft.node? p = some n →
      ((ft.turnAll opened).node? p = ft.node? p ↔ (n.children.reverse ≠ n.children → Even (opened.count p))) := by
    intro p n found
    rw [node?_turnAll, found, Option.map_some, Option.some.injEq]
    exact n.turned_iterate _
  constructor
  · intro same p n found
    exact (turned p n found).mp (by rw [same])
  · intro restored
    refine ext_node (keys_turnAll ft opened) fun p => ?_
    cases found : ft.node? p with
    | none => rw [node?_turnAll, found, Option.map_none]
    | some n =>
      rw [← found]
      exact (turned p n found).mpr (restored p n found)

/-! ### The nodes that a search opens -/

/-- The nodes that the loop of `get_path` opens, in order. -/
def openedLoop (goal goaldir : Tup) : Nat → List (Tup × List Tup) → List Tup → FileTree → List Place
  | _, [], _, _ => []
  | 0, _ :: _, _, _ => []
  | fuel + 1, (vertex, path) :: queue, visited, ft =>
    if vertex ∈ visited then openedLoop goal goaldir fuel queue visited ft
    else if vertex = goal ∧ (goaldir = rootTup ∨ goaldir ∈ visited) then []
    else
      let visited' := if vertex = goal then visited else vertex :: visited
      match (ft.get? vertex).bind fun nodes => openAt nodes path.dropLast.getLast? with
      | none => []
      | some i =>
        let ft' := ft.turn (vertex, i)
        let children := ((ft'.node? (vertex, i)).map Node.children).getD []
        (vertex, i) :: openedLoop goal goaldir fuel (queue ++ children.map fun child => (child, path ++ [child])) visited' ft'

def opened (ft : FileTree) (goal goaldir : Tup) : List Place :=
  openedLoop goal goaldir ft.searchFuel [(rootTup, [rootTup])] [] ft

theorem searchLoop_opened {goal goaldir : Tup} {fuel : Nat} {queue : List (Tup × List Tup)} {visited : List Tup}
    (run : searchLoop goal goaldir fuel queue visited ft = some (found, ft')) :
    ft' = ft.turnAll (openedLoop goal goaldir fuel queue visited ft) := by
  induction fuel generalizing queue visited ft with
  | zero =>
    cases queue with
    | nil =>
      simp only [searchLoop, Option.some.injEq, Prod.mk.injEq] at run
      exact run.2.symm
    | cons head rest => simp [searchLoop] at run
  | succ fuel ih =>
    cases queue with
    | nil =>
      simp only [searchLoop, Option.some.injEq, Prod.mk.injEq] at run
      exact run.2.symm
    | cons head rest =>
      obtain ⟨vertex, path⟩ := head
      rw [searchLoop] at run
      rw [openedLoop]
      split at run
      · rename_i seen
        rw [if_pos seen]
        exact ih run
      · rename_i fresh
        rw [if_neg fresh]
        split at run
        · rename_i reached
          rw [if_pos reached]
          simp only [Option.some.injEq, Prod.mk.injEq] at run
          exact run.2.symm
        · rename_i further
          rw [if_neg further]
          simp only [bind, Option.bind_eq_some_iff] at run
          obtain ⟨nodes, here, i, chosen, node, there, run⟩ := run
          have turned : ft.set vertex (reverseAt nodes i) = ft.turn (vertex, i) := by
            simp only [turn, here]
          have child : (ft.turn (vertex, i)).node? (vertex, i) = some node := by
            rw [← turned, node?, Py.Dict.get?_set_self, Option.bind_some]
            exact there
          rw [turned] at run
          simp only [here, Option.bind_some, chosen, child, Option.map_some, Option.getD_some]
          exact ih run

theorem search_opened {goal goaldir : Tup} (run : ft.search goal goaldir = some (found, ft')) :
    ft' = ft.turnAll (ft.opened goal goaldir) := searchLoop_opened run

/-- The second tree is the first with some nodes turned. -/
def Turned (ft ft' : FileTree) : Prop := ∃ opened, ft' = ft.turnAll opened

theorem Turned.refl (ft : FileTree) : Turned ft ft := ⟨[], rfl⟩

theorem Turned.trans {ft'' : FileTree} (first : Turned ft ft') (second : Turned ft' ft'') : Turned ft ft'' := by
  obtain ⟨opened, rfl⟩ := first
  obtain ⟨opened', rfl⟩ := second
  exact ⟨opened ++ opened', (turnAll_append ft opened opened').symm⟩

theorem Turned.keys (turned : Turned ft ft') : ft'.keys = ft.keys := by
  obtain ⟨opened, rfl⟩ := turned
  exact keys_turnAll ft opened

end FileTree

/-! ### What a call may leave behind before its first effect -/

structure Quiet (w w' : Ctx) : Prop where
  opts : w'.optDict = w.optDict
  fixed : w'.st = { w.st with cntRecur := w'.st.cntRecur }

instance : Std.Refl Quiet := ⟨fun _ => ⟨rfl, rfl⟩⟩

instance : IsTrans Ctx Quiet where
  trans w w₁ w' first second := by
    refine ⟨second.opts.trans first.opts, ?_⟩
    rw [second.fixed, first.fixed]

open Effects

section Reads

variable {R : Ctx → Ctx → Prop} [Std.Refl R]

theorem orRaise_keeps {α : Type} (o : Option α) : Always R (orRaise o) := by
  intro w a w' run
  cases o with
  | none => cases run
  | some b =>
    cases run
    exact refl w

theorem getState_keeps : Always R getState := by
  intro w a w' run
  cases run
  exact refl w

theorem getOpts_keeps (var : Str) : Always R (getOpts var) := by
  intro w a w' run
  simp only [getOpts, Option.map_eq_some_iff] at run
  obtain ⟨o, -, same⟩ := run
  cases same
  exact refl w

theorem argAt_keeps (argv : List Str) (i : Nat) : Always R (argAt argv i) := orRaise_keeps _

theorem intAt_keeps (argv : List Str) (i : Nat) : Always R (intAt argv i) := orRaise_keeps _

theorem belowResolved_keeps (parent name : Str) : Always R (belowResolved parent name) := orRaise_keeps _

theorem getBlock_keeps (i : Inode) : Always R (getBlock i) := orRaise_keeps _

variable [IsTrans Ctx R]

theorem getInode_keeps (id : Nat) : Always R (getInode id) := getState_keeps.bind fun _ => orRaise_keeps _

theorem getRawPath_keeps (token : Str) : Always R (getRawPath token) := by
  refine getState_keeps.bind fun s => ?_
  dsimp only
  split
  · exact .pure _
  · exact .pure _

theorem getInodeOfFd_keeps (token : Str) : Always R (getInodeOfFd token) := by
  refine getState_keeps.bind fun s => ?_
  split
  · exact .pure _
  · exact .pure _
  · exact .fail
  · split
    · exact .pure _
    · exact .fail

end Reads

theorem resetRecur_quiet : Always Quiet resetRecur := by
  intro w a w' run
  cases run
  exact ⟨rfl, rfl⟩

theorem resolvePath_quiet (path : Str) : Always Quiet (resolvePath path) :=
  getState_keeps.bind fun _ => (orRaise_keeps _).bind fun _ => resetRecur_quiet.bind fun _ => .pure _

theorem getPath_quiet (token : Str) : Always Quiet (getPath token) := by
  refine getState_keeps.bind fun s => ?_
  dsimp only
  split
  · split
    · exact .pure _
    · exact (resolvePath_quiet _).bind fun _ => .pure _
  · exact .pure _

theorem followSymlink_quiet (path : Str) (i : Inode) : Always Quiet (followSymlink path i) := by
  refine getState_keeps.bind fun s => ?_
  split
  · exact resetRecur_quiet.bind fun _ => .pure _
  · exact resetRecur_quiet.bind fun _ => .pure _
  · exact .fail

theorem parentInode_quiet (path : Str) (id : Nat) : Always Quiet (parentInode path id) := by
  refine getState_keeps.bind fun s => ?_
  split
  · exact .pure _
  · split
    · exact (followSymlink_quiet _ _).bind fun _ => .pure _
    · exact .pure _

theorem renameParent_quiet (path : Str) (id : Nat) : Always Quiet (renameParent path id) := by
  refine getState_keeps.bind fun s => ?_
  split
  · exact .pure _
  · split
    · exact followSymlink_quiet _ _
    · exact .pure _

variable {w w' : Ctx}

theorem searchTree_eq {goal goaldir : Tup} (run : searchTree goal goaldir w = some (found, w')) :
    ∃ ft, w.st.ft.search goal goaldir = some (found, ft) ∧ w' = { w with st := { w.st with ft := ft } } := by
  cases searched : w.st.ft.search goal goaldir with
  | none => simp [searchTree, M.bind_eq, orRaise, searched] at run
  | some r =>
    simp only [searchTree, M.bind_eq, getState_apply, orRaise, searched, Option.bind_some, Option.map_some,
      modifyState_apply, M.pure_apply, Option.some.injEq, Prod.mk.injEq] at run
    obtain ⟨rfl, rfl⟩ := run
    exact ⟨r.2, rfl, rfl⟩

/-! ### `_update_dentry` -/

/-- From the tree as the searches before leave it, the search for each path leads back to the path. -/
def settledFrom (dentry : Py.Dict Str Nat) : FileTree → List Str → Bool
  | _, [] => true
  | ft, path :: rest =>
    match dentry.get? path, dentry.get? (parentPath path) with
    | some id, some idParent =>
      match ft.search (id, lastName path) (idParent, lastName (parentPath path)) with
      | some (some tups, ft') => decide (path = FileTree.pathString tups) && settledFrom dentry ft' rest
      | _ => false
    | _, _ => false

/-- The searches of `_update_dentry` lead back to every path of `DENTRY`. -/
def State.settled (s : State) : Bool := !s.noneEntry && settledFrom s.dentry s.ft s.dentry.keys

/-- The nodes that the searches for the paths open, each search in the tree as those before leave it. -/
def openedFrom (dentry : Py.Dict Str Nat) : FileTree → List Str → List FileTree.Place
  | _, [] => []
  | ft, path :: rest =>
    match dentry.get? path, dentry.get? (parentPath path) with
    | some id, some idParent =>
      let opened := ft.opened (id, lastName path) (idParent, lastName (parentPath path))
      opened ++ openedFrom dentry (ft.turnAll opened) rest
    | _, _ => []

def State.refreshOpened (s : State) : List FileTree.Place := openedFrom s.dentry s.ft s.dentry.keys

structure Moved (w w' : Ctx) : Prop where
  opts : w'.optDict = w.optDict
  fixed : w'.st = { w.st with dentry := w'.st.dentry, noneEntry := w'.st.noneEntry, ft := w'.st.ft,
                              cntRecur := w'.st.cntRecur }
  tree : FileTree.Turned w.st.ft w'.st.ft

instance : Std.Refl Moved := ⟨fun w => ⟨rfl, rfl, .refl w.st.ft⟩⟩

instance : IsTrans Ctx Moved where
  trans w w₁ w' first second := by
    refine ⟨second.opts.trans first.opts, ?_, first.tree.trans second.tree⟩
    rw [second.fixed, first.fixed]

theorem Quiet.moved (quiet : Quiet w w') : Moved w w' := by
  refine ⟨quiet.opts, ?_, ?_⟩
  · rw [quiet.fixed]
  · rw [quiet.fixed]
    exact .refl w.st.ft

theorem searchTree_moved (goal goaldir : Tup) : Always Moved (searchTree goal goaldir) := by
  intro w found w' run
  obtain ⟨ft, searched, rfl⟩ := searchTree_eq run
  exact ⟨rfl, rfl, _, FileTree.search_opened searched⟩

theorem modifyState_moved {f : State → State}
    (entries : ∀ s, f s = { s with dentry := (f s).dentry, noneEntry := (f s).noneEntry }) : Always Moved (modifyState f) := by
  intro w a w' run
  cases run
  refine ⟨rfl, ?_, ?_⟩
  · exact (entries w.st).trans (by rw [entries w.st])
  · rw [show (f w.st).ft = w.st.ft by rw [entries w.st]]
    exact .refl _

theorem updateEntry_moved (path : Str) : Always Moved (updateEntry path) := by
  refine getState_keeps.bind fun s => ?_
  refine (orRaise_keeps _).bind fun id => ?_
  refine (orRaise_keeps _).bind fun idParent => ?_
  refine (searchTree_moved _ _).bind fun found => ?_
  split
  · exact (modifyState_moved fun _ => rfl).bind fun _ => .pure _
  · split
    · exact .pure _
    · exact (modifyState_moved fun _ => rfl).bind fun _ => .pure _

theorem updateLoop_moved (env : PyEnv) (fuel : Nat) (keys : List (Option Str)) : Always Moved (updateLoop env fuel keys) := by
  induction fuel generalizing keys with
  | zero =>
    cases keys with
    | nil => exact .pure _
    | cons key rest => exact .fail
  | succ fuel ih =>
    cases keys with
    | nil => exact .pure _
    | cons key rest =>
      cases key with
      | none => exact .fail
      | some path =>
        refine (updateEntry_moved path).bind fun moved => ?_
        split
        · refine getState_keeps.bind fun s => ?_
          exact (orRaise_keeps _).bind fun rest' => ih rest'
        · exact ih rest

theorem updateDentry_moved (env : PyEnv) : Always Moved (updateDentry env) :=
  getState_keeps.bind fun _ => updateLoop_moved env _ _

/-- One path of `_update_dentry`: the search leads back to it, or its entry is taken out and another may be set. -/
theorem updateEntry_cases {path : Str} {moved : Bool} (run : updateEntry path w = some (moved, w')) :
    ∃ id idParent found ft, w.st.dentry.get? path = some id ∧ w.st.dentry.get? (parentPath path) = some idParent ∧
      w.st.ft.search (id, lastName path) (idParent, lastName (parentPath path)) = some (found, ft) ∧
      ((∃ tups, found = some tups ∧ path = FileTree.pathString tups ∧ moved = false ∧
          w' = { w with st := { w.st with ft := ft } }) ∨
        ((∀ tups, found = some tups → path ≠ FileTree.pathString tups) ∧ moved = true ∧
          (w'.st.dentry = w.st.dentry.erase path ∨
            ∃ other, other ≠ path ∧ w'.st.dentry = (w.st.dentry.erase path).set other id))) := by
  obtain ⟨s, w₁, same, run⟩ := bind_eq_some.mp run
  cases same
  obtain ⟨id, w₁, here, run⟩ := bind_eq_some.mp run
  obtain ⟨_, entry, same⟩ := Option.map_eq_some_iff.mp here
  cases same
  obtain ⟨idParent, w₁, here, run⟩ := bind_eq_some.mp run
  obtain ⟨_, above, same⟩ := Option.map_eq_some_iff.mp here
  cases same
  obtain ⟨found, w₁, here, run⟩ := bind_eq_some.mp run
  obtain ⟨ft, searched, rfl⟩ := searchTree_eq here
  refine ⟨id, idParent, found, ft, entry, above, searched, ?_⟩
  cases found with
  | none =>
    cases run
    exact .inr ⟨by simp, rfl, .inl rfl⟩
  | some tups =>
    dsimp only at run
    split at run
    · rename_i back
      cases run
      exact .inl ⟨tups, rfl, back, rfl, rfl⟩
    · rename_i away
      cases run
      exact .inr ⟨fun _ same => Option.some.inj same ▸ away, rfl, .inr ⟨_, Ne.symm away, rfl⟩⟩

variable {env : PyEnv}

/-- The entries of a settled state stay, by induction over the keys that are left. -/
theorem updateLoop_settled {fuel : Nat} {keys : List Str} (settled : settledFrom w.st.dentry w.st.ft keys = true)
    (run : updateLoop env fuel (keys.map some) w = some ((), w')) :
    w' = { w with st := { w.st with ft := w.st.ft.turnAll (openedFrom w.st.dentry w.st.ft keys) } } := by
  induction keys generalizing fuel w with
  | nil =>
    rw [List.map_nil, updateLoop] at run
    cases run
    rfl
  | cons path rest ih =>
    cases fuel with
    | zero => cases run
    | succ fuel =>
      rw [List.map_cons, updateLoop] at run
      obtain ⟨moved, w₁, here, after⟩ := bind_eq_some.mp run
      obtain ⟨id, idParent, found, ft, entry, above, searched, ends⟩ := updateEntry_cases here
      simp only [settledFrom, openedFrom, entry, above, searched] at settled ⊢
      obtain rfl := FileTree.search_opened searched
      rcases ends with ⟨tups, rfl, back, rfl, rfl⟩ | ⟨away, -, -⟩
      · rw [if_neg Bool.false_ne_true] at after
        simp only [Bool.and_eq_true] at settled
        rw [ih settled.2 after, FileTree.turnAll_append]
      · cases found with
        | none => cases settled
        | some tups =>
          simp only [Bool.and_eq_true, decide_eq_true_eq] at settled
          exact absurd settled.1 (away tups rfl)

/-! ### A move cannot be undone

The loop has as many steps as there are keys, and a key that is set again goes to the end. For the keys to come
back in their order, each of those from the first that was moved would have to be set once more. -/

/-- After `moves` moves of which the first took out `key`: it stands, if at all, among the keys set since, and it is not the
first of them if each move set one and none of these was taken out. -/
def Shifted (key : Str) (moves : Nat) (keys : List Str) : Prop :=
  ∃ old new, keys = old ++ new ∧ key ∉ old ∧ new.length ≤ moves ∧ (new.length = moves → new.head? ≠ some key)

theorem Shifted.first {key : Str} {d d' : Py.Dict Str Nat} {id : Nat}
    (change : d' = d.erase key ∨ ∃ other, other ≠ key ∧ d' = (d.erase key).set other id) : Shifted key 1 d'.keys := by
  have gone : key ∉ (d.erase key).keys := by simp [Py.Dict.keys_erase]
  rcases change with rfl | ⟨other, different, rfl⟩
  · exact ⟨_, [], (List.append_nil _).symm, gone, by simp, by simp⟩
  · by_cases present : other ∈ (d.erase key).keys
    · rw [Py.Dict.keys_set_old present]
      exact ⟨_, [], (List.append_nil _).symm, gone, by simp, by simp⟩
    · rw [Py.Dict.keys_set_new present]
      exact ⟨_, [other], rfl, gone, by simp, by simp [different]⟩

theorem Shifted.next {key path : Str} {moves : Nat} {d d' : Py.Dict Str Nat} {id : Nat} (some_ : 1 ≤ moves)
    (shifted : Shifted key moves d.keys)
    (change : d' = d.erase path ∨ ∃ other, other ≠ path ∧ d' = (d.erase path).set other id) :
    Shifted key (moves + 1) d'.keys := by
  obtain ⟨old, new, whole, absent, few, first⟩ := shifted
  have erased : (d.erase path).keys = (old.filter fun i => i ≠ path) ++ new.filter fun i => i ≠ path := by
    rw [Py.Dict.keys_erase, whole, List.filter_append]
  have absent' : key ∉ old.filter fun i => i ≠ path := fun member => absent (List.mem_filter.mp member).1
  have fewer : (new.filter fun i => i ≠ path).length ≤ new.length := List.length_filter_le _ _
  have stays : Shifted key (moves + 1) (d.erase path).keys := ⟨_, _, erased, absent', by omega, by omega⟩
  rcases change with rfl | ⟨other, -, rfl⟩
  · exact stays
  · by_cases present : other ∈ (d.erase path).keys
    · rwa [Py.Dict.keys_set_old present]
    · rw [Py.Dict.keys_set_new present, erased, List.append_assoc]
      refine ⟨_, _, rfl, absent', by rw [List.length_append, List.length_singleton]; omega, fun full => ?_⟩
      rw [List.length_append, List.length_singleton] at full
      have all : (new.filter fun i => i ≠ path) = new := List.filter_sublist.eq_of_length (by omega)
      rw [all] at full ⊢
      have nonempty : new ≠ [] := by
        rintro rfl
        simp at full
        omega
      rw [List.head?_append_of_ne_nil _ nonempty]
      exact first (by omega)

/-- As many moves as there are keys from the first moved one on do not bring the keys back. -/
theorem Shifted.changed {key : Str} {moves : Nat} {before after : List Str} (few : moves ≤ after.length + 1)
    (shifted : Shifted key moves (before ++ key :: after)) : False := by
  obtain ⟨old, new, whole, absent, short, first⟩ := shifted
  have tail : ∃ more, new = more ++ key :: after := by
    rcases List.append_eq_append_iff.mp whole with ⟨middle, rfl, rest⟩ | ⟨middle, -, rest⟩
    · cases middle with
      | nil => exact ⟨[], by simpa using rest.symm⟩
      | cons head middle =>
        obtain ⟨rfl, -⟩ := List.cons.inj rest
        simp at absent
    · exact ⟨middle, rest⟩
  obtain ⟨more, rfl⟩ := tail
  rw [List.length_append, List.length_cons] at short first
  have none_ : more = [] := List.eq_nil_of_length_eq_zero (by omega)
  subst none_
  exact first (by simp at short ⊢; omega) rfl

theorem updateLoop_shifted {fuel : Nat} {keys : List (Option Str)} {key : Str} {moves : Nat} (some_ : 1 ≤ moves)
    (shifted : Shifted key moves w.st.dentry.keys) (run : updateLoop env fuel keys w = some ((), w')) :
    ∃ more ≤ fuel, Shifted key (moves + more) w'.st.dentry.keys := by
  induction fuel generalizing keys w moves with
  | zero =>
    cases keys with
    | nil =>
      cases run
      exact ⟨0, Nat.le_refl _, shifted⟩
    | cons next rest => cases run
  | succ fuel ih =>
    cases keys with
    | nil =>
      cases run
      exact ⟨0, Nat.zero_le _, shifted⟩
    | cons next rest =>
      cases next with
      | none => cases run
      | some path =>
        rw [updateLoop] at run
        obtain ⟨moved, w₁, here, after⟩ := bind_eq_some.mp run
        obtain ⟨id, idParent, found, ft, -, -, -, ⟨tups, -, -, rfl, rfl⟩ | ⟨-, rfl, change⟩⟩ := updateEntry_cases here
        · rw [if_neg Bool.false_ne_true] at after
          obtain ⟨more, within, later⟩ := ih (w := { w with st := { w.st with ft := ft } }) some_ shifted after
          exact ⟨more, by omega, later⟩
        · rw [if_pos rfl] at after
          obtain ⟨s, w₂, same, after⟩ := bind_eq_some.mp after
          cases same
          obtain ⟨rest', w₂, resumed, after⟩ := bind_eq_some.mp after
          cases (orRaise_keeps (R := Eq) _ resumed : w₁ = w₂)
          obtain ⟨more, within, later⟩ := ih (by omega) (shifted.next some_ change) after
          exact ⟨more + 1, by omega, by rwa [← Nat.add_assoc, Nat.add_right_comm]⟩

theorem updateLoop_unsettled {before keys : List Str} (whole : w.st.dentry.keys = before ++ keys)
    (unsettled : settledFrom w.st.dentry w.st.ft keys = false)
    (run : updateLoop env keys.length (keys.map some) w = some ((), w')) : w'.st.dentry ≠ w.st.dentry := by
  induction keys generalizing before w with
  | nil => cases unsettled
  | cons path rest ih =>
    rw [List.map_cons, List.length_cons, updateLoop] at run
    obtain ⟨moved, w₁, here, after⟩ := bind_eq_some.mp run
    obtain ⟨id, idParent, found, ft, entry, above, searched, ends⟩ := updateEntry_cases here
    rcases ends with ⟨tups, rfl, back, rfl, rfl⟩ | ⟨-, rfl, change⟩
    · rw [if_neg Bool.false_ne_true] at after
      simp only [settledFrom, entry, above, searched, ← back, decide_true, Bool.true_and] at unsettled
      have whole' : w.st.dentry.keys = (before ++ [path]) ++ rest := by simpa using whole
      exact ih (w := { w with st := { w.st with ft := ft } }) whole' unsettled after
    · rw [if_pos rfl] at after
      obtain ⟨s, w₂, same, after⟩ := bind_eq_some.mp after
      cases same
      obtain ⟨rest', w₂, resumed, after⟩ := bind_eq_some.mp after
      cases (orRaise_keeps (R := Eq) _ resumed : w₁ = w₂)
      obtain ⟨more, within, shifted⟩ := updateLoop_shifted (Nat.le_refl 1) (Shifted.first change) after
      intro same
      rw [same, whole] at shifted
      exact shifted.changed (by omega)

theorem updateDentry_settled (settled : w.st.settled = true) (run : updateDentry env w = some ((), w')) :
    w' = { w with st := { w.st with ft := w.st.ft.turnAll w.st.refreshOpened } } := by
  simp only [updateDentry, M.bind_eq, getState_apply, Option.bind_some] at run
  rw [State.settled, Bool.and_eq_true, Bool.not_eq_true'] at settled
  have keys : w.st.dentryKeys = w.st.dentry.keys.map some := by
    rw [State.dentryKeys, settled.1, if_neg Bool.false_ne_true, List.append_nil]
  rw [keys] at run
  exact updateLoop_settled settled.2 run

theorem updateDentry_unsettled (noNone : w.st.noneEntry = false) (unsettled : w.st.settled = false)
    (run : updateDentry env w = some ((), w')) : w'.st.dentry ≠ w.st.dentry := by
  simp only [updateDentry, M.bind_eq, getState_apply, Option.bind_some] at run
  rw [State.settled, noNone, Bool.not_false, Bool.true_and] at unsettled
  have keys : w.st.dentryKeys = w.st.dentry.keys.map some := by
    rw [State.dentryKeys, noNone, if_neg Bool.false_ne_true, List.append_nil]
  rw [keys, List.length_map] at run
  exact updateLoop_unsettled (List.nil_append _).symm unsettled run

end DfsFuzz.Symsc
