import Mathlib.Algebra.Order.BigOperators.Group.List
import Mathlib.Algebra.Order.Ring.Nat
import DfsFuzz.Symsc.Emulate

/-!
States in which every file is in the root directory, as they are when no call makes a directory. A search
opens the root, then the files before the goal; `_update_dentry` finds every path where it is.
-/

namespace DfsFuzz.Symsc

/-- A root with the children, all of them files with one name. -/
structure FlatTree (ft : FileTree) (children : List Tup) : Prop where
  root : ft.get? rootTup = some [{ parent := none, children := children }]
  leaf : ∀ c ∈ children, ft.get? c = some [{ parent := some rootTup }]
  nodup : children.Nodup
  noRoot : rootTup ∉ children

namespace FlatTree

variable {ft : FileTree} {children : List Tup}

theorem searchFuel_le (flat : FlatTree ft children) : children.length + 2 ≤ ft.searchFuel := by
  have member : (rootTup, [({ parent := none, children := children } : Node)]) ∈ ft.entries := Py.Dict.mem_entries.mpr flat.root
  have edges : children.length ≤ (ft.entries.map fun e => (e.2.map fun n => n.children.length).sum).sum := by
    refine List.le_sum_of_mem (List.mem_map.mpr ⟨_, member, ?_⟩)
    simp
  rw [FileTree.searchFuel]
  refine le_trans ?_ (Nat.le_mul_of_pos_left _ (Nat.succ_pos _))
  omega

/-- The children are looked at one by one, and those that are not the goal have nothing below. -/
theorem searchLoop_children {goal : Tup} {rest visited : List Tup} {fuel : Nat}
    (leaf : ∀ c ∈ rest, ft.get? c = some [{ parent := some rootTup }]) (nodup : rest.Nodup)
    (fresh : ∀ c ∈ rest, c ∉ visited) (member : goal ∈ rest) (enough : rest.length ≤ fuel) :
    FileTree.searchLoop goal rootTup fuel (rest.map fun c => (c, [rootTup, c])) visited ft = some (some [rootTup, goal], ft) := by
  induction rest generalizing visited fuel with
  | nil => cases member
  | cons c rest ih =>
    obtain ⟨fuel, rfl⟩ : ∃ n, fuel = n + 1 := ⟨fuel - 1, by simp at enough; omega⟩
    rw [List.map_cons, FileTree.searchLoop, if_neg (fresh c List.mem_cons_self)]
    by_cases found : c = goal
    · rw [if_pos ⟨found, .inl rfl⟩, found]
    · rw [if_neg fun both => found both.1]
      have here := leaf c List.mem_cons_self
      have opened : FileTree.reverseAt [({ parent := some rootTup } : Node)] 0 = [{ parent := some rootTup }] := rfl
      simp only [here, bind, Option.bind_some, FileTree.openAt, opened, List.getElem?_cons_zero, List.map_nil,
        List.append_nil, if_neg found, Py.Dict.set_same here]
      rw [List.nodup_cons] at nodup
      refine ih (fun d later => leaf d (List.mem_cons_of_mem _ later)) nodup.2 (fun d later inside => ?_)
        ((List.mem_cons.mp member).resolve_left fun same => found same.symm) (by simpa using enough)
      rcases List.mem_cons.mp inside with same | before
      · exact nodup.1 (same ▸ later)
      · exact fresh d (List.mem_cons_of_mem _ later) before

theorem search_root (flat : FlatTree ft children) : ft.search rootTup rootTup = some (some [rootTup], ft) := by
  obtain ⟨fuel, enough⟩ : ∃ n, ft.searchFuel = n + 1 := ⟨ft.searchFuel - 1, by have := flat.searchFuel_le; omega⟩
  rw [FileTree.search, enough, FileTree.searchLoop, if_neg List.not_mem_nil, if_pos ⟨rfl, .inl rfl⟩]

def turned (ft : FileTree) (children : List Tup) : FileTree :=
  Py.Dict.set ft rootTup [{ parent := none, children := children.reverse }]

theorem turned_flat (flat : FlatTree ft children) : FlatTree (turned ft children) children.reverse where
  root := Py.Dict.get?_set_self ..
  leaf c member := by
    have child := List.mem_reverse.mp member
    have other : c ≠ rootTup := fun same => flat.noRoot (same ▸ child)
    rw [turned, Py.Dict.get?_set_ne _ other]
    exact flat.leaf c child
  nodup := List.nodup_reverse.mpr flat.nodup
  noRoot inside := flat.noRoot (List.mem_reverse.mp inside)

theorem search_child (flat : FlatTree ft children) {goal : Tup} (member : goal ∈ children) :
    ft.search goal rootTup = some (some [rootTup, goal], turned ft children) := by
  have enough := flat.searchFuel_le
  obtain ⟨fuel, count⟩ : ∃ n, ft.searchFuel = n + 1 := ⟨ft.searchFuel - 1, by omega⟩
  have other : rootTup ≠ goal := fun same => flat.noRoot (same ▸ member)
  have opened : FileTree.reverseAt [({ parent := none, children := children } : Node)] 0 =
      [{ parent := none, children := children.reverse }] := rfl
  rw [FileTree.search, count, FileTree.searchLoop, if_neg List.not_mem_nil, if_neg fun both => other both.1]
  simp only [flat.root, bind, Option.bind_some, FileTree.openAt, opened, List.getElem?_cons_zero, List.nil_append, if_neg other]
  refine searchLoop_children (fun c inside => flat.turned_flat.leaf c inside) flat.turned_flat.nodup (fun c inside before => ?_)
    (List.mem_reverse.mpr member) (by rw [List.length_reverse]; omega)
  rw [List.mem_singleton.mp before] at inside
  exact flat.turned_flat.noRoot inside

end FlatTree

/-! ### Names in the root directory -/

/-- The path of a name in the root directory. -/
def rootPath (name : Str) : Str := '.' :: '/' :: name

theorem splitPath_rootPath {name : Str} (plain : '/' ∉ name) : splitPath (rootPath name) = [['.'], name] := by
  have dot : '/' ∉ ['.'] := by decide
  have pieces : splitPath (rootPath name) = ['.'] :: Py.split ['/'] name := Py.split_append dot name
  rw [pieces, Py.split_free (List.mem_singleton_self _) plain]

theorem parentPath_rootPath {name : Str} (plain : '/' ∉ name) : parentPath (rootPath name) = ['.'] := by
  rw [parentPath, if_neg (by simp [rootPath]), splitPath_rootPath plain]
  rfl

theorem lastName_rootPath {name : Str} (plain : '/' ∉ name) : lastName (rootPath name) = name := by
  rw [lastName, splitPath_rootPath plain]
  rfl

theorem splitPath_ne_nil (path : Str) : splitPath path ≠ [] := Py.splitFrom_ne_nil ['/'] 0 path

theorem splitPath_eq (path : Str) : splitPath path = (splitPath path).dropLast ++ [lastName path] := by
  rw [lastName, List.getLast?_eq_some_getLast (splitPath_ne_nil path)]
  exact (List.dropLast_append_getLast (splitPath_ne_nil path)).symm

theorem joinPath_splitPath (path : Str) : joinPath (splitPath path) = path := Py.intercalate_split '/' path

theorem joinPath_eq_dot {parts : List Str} (joined : joinPath parts = ['.']) : parts = [['.']] := by
  rcases parts with - | ⟨x, - | ⟨y, rest⟩⟩
  · cases joined
  · rw [joinPath, List.intercalate_singleton] at joined
    rw [joined]
  · rw [joinPath, List.intercalate_cons_cons] at joined
    have inside : '/' ∈ ['.'] := joined ▸ by simp
    simp at inside

theorem eq_rootPath {path : Str} (above : parentPath path = ['.']) (other : path ≠ ['.']) :
    path = rootPath (lastName path) ∧ '/' ∉ lastName path := by
  rw [parentPath, if_neg other] at above
  have pieces := splitPath_eq path
  rw [joinPath_eq_dot above] at pieces
  constructor
  · have whole := joinPath_splitPath path
    rw [pieces] at whole
    exact whole.symm.trans (by simp [joinPath, List.intercalate_cons_cons, rootPath])
  · have member : lastName path ∈ splitPath path := by
      rw [pieces]
      simp
    exact Py.not_mem_of_mem_split member

theorem pathString_root : FileTree.pathString [rootTup] = ['.'] := by decide

theorem pathString_rootPath {id : Nat} {name : Str} (plain : '/' ∉ name) :
    FileTree.pathString [rootTup, (id, name)] = rootPath name := by
  have relative : ¬ ['/'] <+: name := fun absolute => plain (absolute.subset (List.mem_singleton_self _))
  have unfinished : ¬ ['/'] <:+ ['.'] := by decide
  simp [FileTree.pathString, osJoin, rootTup, relative, unfinished, rootPath]

/-- Every entry but the root is a name in the root directory, and has its node there. -/
structure FlatNames (s : State) (children : List Tup) : Prop where
  noNone : s.noneEntry = false
  root : s.dentry.get? ['.'] = some 0
  entry : ∀ path id, s.dentry.get? path = some id → path ≠ ['.'] → ∃ name, path = rootPath name ∧ '/' ∉ name ∧ (id, name) ∈ children
  tree : FlatTree s.ft children

theorem updateEntry_flat {w : Ctx} {children : List Tup} {path : Str} {id : Nat} (flat : FlatNames w.st children)
    (present : w.st.dentry.get? path = some id) :
    ∃ ft' children', updateEntry path w = some (false, { w with st := { w.st with ft := ft' } }) ∧
      children'.Perm children ∧ FlatTree ft' children' := by
  by_cases root : path = ['.']
  · subst root
    have above : w.st.dentry.get? (parentPath ['.']) = some 0 := flat.root
    have name : lastName ['.'] = ['.'] := by decide
    have nameAbove : lastName (parentPath ['.']) = ['.'] := by decide
    refine ⟨w.st.ft, children, ?_, .refl _, flat.tree⟩
    have searched : w.st.ft.search (0, ['.']) (0, ['.']) = some (some [rootTup], w.st.ft) := flat.tree.search_root
    simp only [updateEntry, M.bind_eq, getState_apply, Option.bind_some, flat.root, above, orRaise_some, searchTree, name,
      nameAbove, searched, modifyState_apply, M.pure_apply, pathString_root, if_true]
  · obtain ⟨name, rfl, plain, member⟩ := flat.entry path id present root
    refine ⟨FlatTree.turned w.st.ft children, children.reverse, ?_, List.reverse_perm children, flat.tree.turned_flat⟩
    have searched : w.st.ft.search (id, name) (0, ['.']) = some (some [rootTup, (id, name)], FlatTree.turned w.st.ft children) :=
      flat.tree.search_child member
    have nameAbove : lastName ['.'] = ['.'] := by decide
    simp only [updateEntry, M.bind_eq, getState_apply, Option.bind_some, present, parentPath_rootPath plain, flat.root,
      orRaise_some, searchTree, lastName_rootPath plain, nameAbove, searched, modifyState_apply, M.pure_apply,
      pathString_rootPath plain, if_true]

theorem FlatNames.perm {s : State} {ft' : FileTree} {children children' : List Tup} (flat : FlatNames s children)
    (perm : children'.Perm children) (tree : FlatTree ft' children') : FlatNames { s with ft := ft' } children' where
  noNone := flat.noNone
  root := flat.root
  entry path id present other := by
    obtain ⟨name, same, plain, member⟩ := flat.entry path id present other
    exact ⟨name, same, plain, perm.mem_iff.mpr member⟩
  tree := tree

/-- By induction over the keys that are left; the entries stay, the children are reordered. -/
theorem updateLoop_flat {env : PyEnv} {keys : List Str} {w : Ctx} {children : List Tup} {fuel : Nat}
    (flat : FlatNames w.st children) (present : ∀ path ∈ keys, ∃ id, w.st.dentry.get? path = some id)
    (enough : keys.length ≤ fuel) :
    ∃ ft' children', updateLoop env fuel (keys.map some) w = some ((), { w with st := { w.st with ft := ft' } }) ∧
      children'.Perm children ∧ FlatTree ft' children' := by
  induction keys generalizing w children fuel with
  | nil => exact ⟨w.st.ft, children, by rw [List.map_nil, updateLoop]; rfl, .refl _, flat.tree⟩
  | cons path rest ih =>
    obtain ⟨fuel, rfl⟩ : ∃ n, fuel = n + 1 := ⟨fuel - 1, by simp at enough; omega⟩
    obtain ⟨id, here⟩ := present path List.mem_cons_self
    obtain ⟨ft₁, children₁, first, perm₁, tree₁⟩ := updateEntry_flat flat here
    have less : rest.length ≤ fuel := by simpa using enough
    obtain ⟨ft', children', after, perm', tree'⟩ := ih (w := { w with st := { w.st with ft := ft₁ } })
      (flat.perm perm₁ tree₁) (fun other later => present other (List.mem_cons_of_mem _ later)) less
    refine ⟨ft', children', ?_, perm'.trans perm₁, tree'⟩
    rw [List.map_cons, updateLoop, M.bind_eq, first, Option.bind_some, if_neg Bool.false_ne_true]
    exact after

theorem updateDentry_flat {env : PyEnv} {w : Ctx} {children : List Tup} (flat : FlatNames w.st children) :
    ∃ ft' children', updateDentry env w = some ((), { w with st := { w.st with ft := ft' } }) ∧
      children'.Perm children ∧ FlatTree ft' children' := by
  have keys : w.st.dentryKeys = w.st.dentry.keys.map some := by
    rw [State.dentryKeys, flat.noNone, if_neg Bool.false_ne_true, List.append_nil]
  rw [updateDentry, M.bind_eq, getState_apply, Option.bind_some, keys, List.length_map]
  exact updateLoop_flat flat (fun path member => Py.Dict.mem_keys.mp member) le_rfl

end DfsFuzz.Symsc
