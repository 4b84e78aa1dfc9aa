import DfsFuzz.Symsc.ContentCalls
import DfsFuzz.Symsc.TreeSearch

/-!
`truncate`, `open` and `creat` beside the reference: a name leads to its file in the root directory, and a new file
takes the next number.
-/

namespace DfsFuzz.Symsc

open ByteFile

section Paths

variable {w : Ctx} {r : Posix} {children : List Tup} {env : PyEnv} {p path slot : Str}

/-- `_update_dentry` only reorders the tree, and the links are not there to be counted. -/
theorem Corr.refreshed (corr : Corr w r children) (env : PyEnv) :
    ∃ ft children', updateDentry env w = some ((), { w with st := { w.st with ft } }) ∧
      Corr { w with st := { w.st with ft } } r children' := by
  obtain ⟨ft, children', ran, perm, tree⟩ := @updateDentry_flat env w children corr.flat
  have keys : ft.keys = w.st.ft.keys := (updateDentry_moved env ran).tree.keys
  refine ⟨ft, children', ran, ⟨corr.flat.perm perm tree, corr.next, corr.positive, ?_, corr.names, corr.named, corr.files, corr.free,
    fun var f isOpen => ?_⟩⟩
  · intro tup member
    exact corr.fresh tup (keys ▸ member)
  · obtain ⟨stack, positive, below, offset, opts⟩ := corr.fd var f isOpen
    exact ⟨stack, positive, below, offset, opts⟩

theorem Corr.resolved (corr : Corr w r children) (env : PyEnv) (found : pathAt w.st p = some path) :
    ∃ w₁ w₂ children', updateDentry env w = some ((), w₁) ∧ getPath p w₁ = some (some path, w₂) ∧ Corr w₂ r children' ∧
      w₂.st.mem = w.st.mem ∧ w₂.st.disk = w.st.disk ∧ w₂.st.bufData = w.st.bufData := by
  obtain ⟨ft, children', ran, corr₁⟩ := corr.refreshed env
  exact ⟨_, _, children', ran, getPath_plain corr₁.noLinks found, corr₁.beside w.st.bufData 0, rfl, rfl, rfl⟩

theorem truncate_follows (corr : Corr w r children) {n : Str} {length : Nat} (found : pathAt w.st p = some path)
    (number : parseInt n = some (length : Int)) (fits : r.Fits (.truncate path length)) :
    Follows (Symsc.truncate env [p, n]) w r (.truncate path length) slot := by
  have enough : ¬ [p, n].length < 2 := by simp
  obtain ⟨-, -, -, -, -, -, other⟩ := pathAt_eq_some found
  obtain ⟨w₁, w₂, children', ran, read, corr₂, mem, disk, kept⟩ := corr.resolved env found
  cases named : r.names path with
  | none =>
    have stays : r.step (.truncate path length) = (r, none) := by simp only [Posix.step, named]
    refine .of_clean (.int 1) w₂ children' (fun id here => by cases named.symm.trans here) ?_ ?_ ?_
    · rw [Symsc.truncate, if_neg enough, M.bind_run ran, M.bind_run (argAt_run rfl), M.bind_run read]
      dsimp only
      rw [M.bind_run (intAt_run rfl number), M.bind_run (getState_apply w₂), corr₂.names path other, named]
      rfl
    · rw [stays]
      exact corr₂
    · rw [stays]
      exact kept
  | some id =>
    have stepped : r.step (.truncate path length) = (r.put id (resize zeroChar (r.content id) length), none) := by
      simp only [Posix.step, named]
    have cap : (length : Int) ≤ maxEmulSize := by
      have bound : ((resize zeroChar (r.content id) length).length : Int) ≤ maxEmulSize :=
        fits.put id (by rw [stepped]; exact Function.update_self ..)
      rwa [length_resize] at bound
    obtain ⟨positive, below⟩ := corr.named path id named
    obtain ⟨i, -, inode, holds⟩ := corr₂.inode positive below
    obtain ⟨w', set, kept', follows, converse⟩ := setLength_follows corr₂ positive below cap
    rw [zeroTo_same mem disk] at follows converse
    have notLink : ¬ i.type = .symlink := by
      rw [holds.type]
      decide
    refine ⟨.none, w', ?_, ?_, fun clean => ⟨children', ?_⟩, fun agree id' here => ?_⟩
    · rw [Symsc.truncate, if_neg enough, M.bind_run ran, M.bind_run (argAt_run rfl), M.bind_run read]
      dsimp only
      rw [M.bind_run (intAt_run rfl number), M.bind_run (getState_apply w₂), corr₂.names path other, named]
      dsimp only
      rw [M.bind_run (getInode_found inode), if_neg notLink, M.bind_run (M.pure_apply id w₂), M.bind_run (getInode_found inode),
        if_neg (not_not.mpr holds.type), M.bind_run set, M.pure_apply]
    · rw [stepped]
      exact kept'.trans kept
    · rw [stepped]
      exact follows (clean id named)
    · cases named.symm.trans here
      rw [stepped] at agree
      exact converse agree

end Paths

/-! ### Opening -/

def optsOf (flags : OpenFlags) : OpenOpts where
  nofollow := false
  directory := false
  append := flags.append
  trunc := flags.trunc
  excl := false
  creat := flags.creat
  accmode := false
  rdwr := flags.access = .rdwr
  wronly := flags.access = .wronly
  rdonly := flags.access = .rdonly

theorem parseOpenFlags_bits : ∀ flags ∈ allFlags, parseOpenFlags flags.bits = some (some (optsOf flags)) := by decide

theorem parseOpenFlags_known {k : Int} {flags : OpenFlags} (known : flagsOf k = some flags) :
    parseOpenFlags k = some (some (optsOf flags)) := by
  unfold flagsOf at known
  have bits : flags.bits = k := by simpa using List.find?_some known
  rw [← bits]
  exact parseOpenFlags_bits flags (List.mem_of_find?_eq_some known)

theorem suits_optsOf (flags : OpenFlags) : Suits (optsOf flags) flags.access flags.append := by
  refine ⟨rfl, rfl, ?_, ?_⟩
  · cases access : flags.access <;> simp [optsOf, access, Access.reads]
  · cases access : flags.access <;> simp [optsOf, access, Access.writes]

theorem FlatTree.add {ft : FileTree} {children : List Tup} (flat : FlatTree ft children) {tup : Tup} (fresh : ft.get? tup = none) :
    ∃ ft', ft.addNode tup rootTup = some ft' ∧ FlatTree ft' (children ++ [tup]) ∧ ∀ k ∈ ft'.keys, k = tup ∨ k ∈ ft.keys := by
  have other : rootTup ≠ tup := by
    rintro rfl
    rw [flat.root] at fresh
    cases fresh
  have root : (Py.Dict.set ft tup [{ parent := some rootTup }]).get? rootTup = some [{ parent := none, children := children }] := by
    rw [Py.Dict.get?_set_ne _ other]
    exact flat.root
  refine ⟨Py.Dict.set (Py.Dict.set ft tup [{ parent := some rootTup }]) rootTup [{ parent := none, children := children ++ [tup] }],
    ?_, ⟨Py.Dict.get?_set_self .., ?_, ?_, ?_⟩, ?_⟩
  · rw [FileTree.addNode, fresh]
    dsimp only [Option.getD_none, List.nil_append]
    rw [root]
    rfl
  · intro c member
    have notRoot : c ≠ rootTup := by
      rintro rfl
      rcases List.mem_append.mp member with old | new
      · exact flat.noRoot old
      · exact other (List.mem_singleton.mp new)
    rw [Py.Dict.get?_set_ne _ notRoot, Py.Dict.get?_set]
    split
    · rfl
    · rename_i old
      exact flat.leaf c ((List.mem_append.mp member).resolve_right fun new => old (List.mem_singleton.mp new))
  · refine List.nodup_append.mpr ⟨flat.nodup, List.nodup_singleton tup, fun c inside d new same => ?_⟩
    rw [← same.trans (List.mem_singleton.mp new), flat.leaf c inside] at fresh
    cases fresh
  · intro inside
    rcases List.mem_append.mp inside with old | new
    · exact flat.noRoot old
    · exact other (List.mem_singleton.mp new)
  · intro k member
    obtain ⟨v, found⟩ := Py.Dict.mem_keys.mp member
    rw [Py.Dict.get?_set] at found
    split at found
    · rename_i same
      exact .inr (same ▸ Py.Dict.mem_keys.mpr ⟨_, flat.root⟩)
    · rw [Py.Dict.get?_set] at found
      split at found
      · rename_i same
        exact .inl same
      · exact .inr (Py.Dict.mem_keys.mpr ⟨v, found⟩)

section Open

variable {w : Ctx} {r : Posix} {children : List Tup} {env : PyEnv} {p path var slot : Str}

/-- The end of `open`: the descriptor refers to the file, from its start. -/
theorem Corr.bound (var : Str) (corr : Corr w r children) {id : Nat} {i i' : Inode} {content : Str} {flags : OpenFlags} {o : OpenOpts}
    (positive : 0 < id) (below : id < r.next) (mem : w.st.mem.get? id = some i) (holds : Holds i' content)
    (offsets : i'.offset = i.offset.insert var 0) (suits : Suits o flags.access flags.append) :
    Corr { st := { w.st with mem := w.st.mem.set id i', fdStack := w.st.fdStack.insert var (.opened id) },
           optDict := w.optDict.insert var o } ((r.put id content).opened var id flags) children where
  flat := ⟨corr.flat.noNone, corr.flat.root, corr.flat.entry, corr.flat.tree⟩
  next := corr.next
  positive := corr.positive
  fresh := corr.fresh
  names := corr.names
  named := corr.named
  files := corr.files.set positive below holds
  free v none := by
    dsimp only [Posix.opened, Posix.put] at none
    by_cases same : v = var
    · rw [same, Function.update_self] at none
      cases none
    · rw [Function.update_of_ne same] at none
      rw [AList.lookup_insert_ne same]
      exact corr.free v none
  fd v f isOpen := by
    dsimp only [Posix.opened, Posix.put] at isOpen
    by_cases same : v = var
    · subst same
      rw [Function.update_self] at isOpen
      cases isOpen
      exact ⟨AList.lookup_insert _, positive, below, ⟨i', Py.Dict.get?_set_self .., by rw [offsets, AList.lookup_insert]; rfl⟩,
        ⟨o, AList.lookup_insert _, suits⟩⟩
    · rw [Function.update_of_ne same] at isOpen
      have fd := corr.fd v f isOpen
      refine ⟨by rw [AList.lookup_insert_ne same]; exact fd.stack, fd.positive, fd.below, ?_, ?_⟩
      · obtain ⟨j, found, offset⟩ := fd.offset
        by_cases here : f.id = id
        · rw [here] at found
          cases mem.symm.trans found
          refine ⟨i', by rw [here]; exact Py.Dict.get?_set_self .., ?_⟩
          rw [offsets, AList.lookup_insert_ne same]
          exact offset
        · exact ⟨j, (Py.Dict.get?_set_ne _ here _).trans found, offset⟩
      · obtain ⟨o', found, suits'⟩ := fd.opts
        exact ⟨o', by rw [AList.lookup_insert_ne same]; exact found, suits'⟩

theorem Files.create {mem disk : Py.Dict Nat Inode} {content : Nat → Str} {next : Nat} {i j : Inode} {file : Str}
    (files : Files mem disk content next) (positive : 0 < next) (holds : Holds i file) (dir : j.type = .dir) :
    Files ((mem.set next i).set 0 j) (disk.erase 0) (Function.update content next file) (next + 1) where
  root := ⟨j, by rw [Py.Dict.get?_set_self]; rfl, dir⟩
  file other low high := by
    have notRoot : other ≠ 0 := Nat.ne_of_gt low
    rw [Py.Dict.get?_erase, if_neg notRoot, Py.Dict.get?_set_ne _ notRoot]
    by_cases same : other = next
    · subst same
      exact ⟨(files.absent other (Nat.le_refl _)).2, i, Py.Dict.get?_set_self .., by rw [Function.update_self]; exact holds⟩
    · obtain ⟨disk, k, found, holds'⟩ := files.file other low (Nat.lt_of_le_of_ne (Nat.le_of_lt_succ high) same)
      exact ⟨disk, k, (Py.Dict.get?_set_ne _ same _).trans found, by rw [Function.update_of_ne same]; exact holds'⟩
  absent other high := by
    have above : next < other := high
    have notRoot : other ≠ 0 := Nat.ne_of_gt (Nat.lt_trans positive above)
    rw [Py.Dict.get?_set_ne _ notRoot, Py.Dict.get?_set_ne _ (Nat.ne_of_gt above), Py.Dict.get?_erase, if_neg notRoot]
    exact files.absent other (Nat.le_of_lt above)

theorem Corr.created (corr : Corr w r children) {name : Str} (mode : Nat) {i : Inode} {ft : FileTree} (nodes : List Tup)
    (plain : '/' ∉ name) (dir : i.type = .dir)
    (tree : FlatTree ft (children ++ [(r.next, name)])) (keys : ∀ k ∈ ft.keys, k = (r.next, name) ∨ k ∈ w.st.ft.keys) :
    Corr { w with st := { w.st with
        mem := (w.st.mem.set r.next (newFile name mode)).set 0 { i with children := nodes }
        disk := w.st.disk.erase 0
        dentry := w.st.dentry.set (rootPath name) r.next
        ft
        inodeCnt := w.st.inodeCnt + 1 } } (r.created (rootPath name)) (children ++ [(r.next, name)]) where
  flat := by
    have other : ['.'] ≠ rootPath name := by simp [rootPath]
    refine ⟨corr.flat.noNone, ?_, ?_, tree⟩
    · rw [Py.Dict.get?_set_ne _ other]
      exact corr.flat.root
    · intro p id found notRoot
      rw [Py.Dict.get?_set] at found
      split at found
      · rename_i same
        cases found
        exact ⟨name, same, plain, List.mem_append_right _ (List.mem_singleton_self _)⟩
      · obtain ⟨name', same, plain', member⟩ := corr.flat.entry p id found notRoot
        exact ⟨name', same, plain', List.mem_append_left _ member⟩
  next := congrArg (· + 1) corr.next
  positive := Nat.succ_pos _
  fresh tup member := by
    rcases keys tup member with rfl | old
    · exact Nat.lt_succ_self _
    · exact Nat.lt_succ_of_lt (corr.fresh tup old)
  names p other := by
    rw [Py.Dict.get?_set]
    dsimp only [Posix.created]
    split
    · rename_i same
      rw [same, Function.update_self]
    · rename_i same
      rw [Function.update_of_ne same]
      exact corr.names p other
  named p id here := by
    dsimp only [Posix.created] at here ⊢
    by_cases same : p = rootPath name
    · rw [same, Function.update_self] at here
      cases here
      exact ⟨corr.positive, Nat.lt_succ_self _⟩
    · rw [Function.update_of_ne same] at here
      obtain ⟨positive, below⟩ := corr.named p id here
      exact ⟨positive, Nat.lt_succ_of_lt below⟩
  files := corr.files.create corr.positive ⟨rfl, ⟨_, rfl, rfl⟩, rfl⟩ dir
  free := corr.free
  fd v f isOpen := by
    have fd := corr.fd v f isOpen
    obtain ⟨j, found, offset⟩ := fd.offset
    refine ⟨fd.stack, fd.positive, Nat.lt_succ_of_lt fd.below, ⟨j, ?_, offset⟩, fd.opts⟩
    rw [Py.Dict.get?_set_ne _ (Nat.ne_of_gt fd.positive), Py.Dict.get?_set_ne _ (Nat.ne_of_lt fd.below)]
    exact found

theorem parentInode_dir {w : Ctx} {id : Nat} {i : Inode} (found : w.st.inode? id = some i) (plain : i.type ≠ .symlink) :
    parentInode path id w = some (some id, w) := by
  rw [parentInode, M.bind_run (getState_apply w), found]
  dsimp only
  rw [if_neg plain]
  rfl

theorem bindFd_run {w : Ctx} {id : Nat} {i : Inode} (mem : w.st.mem.get? id = some i) :
    bindFd var id w = some ((), { w with st := { w.st with
      mem := w.st.mem.set id { i with offset := i.offset.insert var 0, refs := i.refs + 1 }
      fdStack := w.st.fdStack.insert var (.opened id) } }) := by
  have found : w.st.inode? id = some i := by rw [State.inode?, mem]; rfl
  rw [bindFd, M.bind_run (getInode_found found), modifyState_apply, putInode_mem mem]

theorem openOld_follows (var : Str) (corr : Corr w r children) {id : Nat} (flags : OpenFlags) (positive : 0 < id) (below : id < r.next) :
    ∃ w', openOld var (optsOf flags) id w = some (.none, w') ∧
      Corr w' ((if flags.trunc && flags.access.writes then r.put id [] else r).opened var id flags) children ∧
      w'.st.bufData = w.st.bufData := by
  obtain ⟨disk, -⟩ := corr.files.file id positive below
  obtain ⟨i, mem, inode, holds⟩ := corr.inode positive below
  have still : w.st.fromDisk id = w.st := by rw [State.fromDisk, disk]
  have truncates : ((optsOf flags).trunc && ((optsOf flags).rdwr || (optsOf flags).wronly) && decide (i.type = .file)) =
      (flags.trunc && flags.access.writes) := by
    rw [holds.type]
    cases access : flags.access <;> simp [optsOf, access, Access.writes]
  have suits := suits_optsOf flags
  have start : openOld var (optsOf flags) id w = ((do
      if flags.trunc && flags.access.writes then modifyState fun s => s.putInode id { i with size := 0 }
      setOpts var (optsOf flags)
      bindFd var id
      return .none : M Ret) w) := by
    rw [openOld, M.bind_run (modifyState_apply _ w), still, M.bind_run (getInode_found inode), truncates]
  cases truncated : flags.trunc && flags.access.writes with
  | false =>
    let i' : Inode := { i with offset := i.offset.insert var 0, refs := i.refs + 1 }
    have holds' : Holds i' (r.content id) := ⟨holds.type, holds.block, holds.size⟩
    have bound := corr.bound var positive below mem holds' rfl suits
    rw [Posix.put_self] at bound
    let w₁ : Ctx := { w with optDict := w.optDict.insert var (optsOf flags) }
    have set : setOpts var (optsOf flags) w = some ((), w₁) := rfl
    have mem₁ : w₁.st.mem.get? id = some i := mem
    refine ⟨_, ?_, bound, rfl⟩
    rw [start, truncated, if_neg Bool.false_ne_true]
    dsimp only
    rw [M.bind_run set, M.bind_run (bindFd_run mem₁), M.pure_apply]
  | true =>
    let i₀ : Inode := { i with size := 0 }
    let i' : Inode := { i₀ with offset := i.offset.insert var 0, refs := i.refs + 1 }
    obtain ⟨b, block, -⟩ := holds.block
    have holds₀ : Holds i₀ [] := ⟨holds.type, ⟨b, block, rfl⟩, rfl⟩
    have holds' : Holds i' [] := ⟨holds.type, ⟨b, block, rfl⟩, rfl⟩
    let w₀ := w.withInode id i₀
    have emptied : Corr w₀ (r.put id []) children := corr.putFile positive below mem holds₀ rfl
    have mem₀ : w₀.st.mem.get? id = some i₀ := Py.Dict.get?_set_self ..
    have bound := emptied.bound var positive below mem₀ holds' rfl suits
    rw [Posix.put_put] at bound
    let w₁ : Ctx := { w₀ with optDict := w.optDict.insert var (optsOf flags) }
    have set : setOpts var (optsOf flags) w₀ = some ((), w₁) := rfl
    have mem₁ : w₁.st.mem.get? id = some i₀ := mem₀
    refine ⟨_, ?_, bound, rfl⟩
    rw [start, truncated, if_pos rfl, M.bind_run (modifyState_apply _ w), putInode_mem mem]
    dsimp only
    rw [M.bind_run set, M.bind_run (bindFd_run mem₁), M.pure_apply]

theorem addTreeNode_run {w : Ctx} {ft : FileTree} {tup parent : Tup} (added : w.st.ft.addNode tup parent = some ft) :
    addTreeNode tup parent w = some ((), { w with st := { w.st with ft } }) := by
  rw [addTreeNode, M.bind_run (getState_apply w), added, M.bind_run (orRaise_some ft w), modifyState_apply]

theorem addChildToParent_run {w : Ctx} {tup : Tup} {parent : Nat} {i : Inode} (found : w.st.inode? parent = some i) :
    addChildToParent tup parent w =
      some ((), { w with st := w.st.toMem parent { i with children := i.children ++ [tup] } }) := by
  rw [addChildToParent, M.bind_run (getInode_found found), modifyState_apply]

theorem openNew_follows (p token var : Str) (corr : Corr w r children) {flags : OpenFlags} {mode name : Str} (creates : flags.creat = true)
    (plain : '/' ∉ name) (given : modeGiven mode = true) :
    ∃ w' children', openNew [p, token, mode] var (rootPath name) (optsOf flags) rootTup 0 w = some (.none, w') ∧
      Corr w' ((r.created (rootPath name)).opened var r.next flags) children' ∧ w'.st.bufData = w.st.bufData := by
  obtain ⟨i, root, dir⟩ := corr.root
  have fresh : w.st.ft.get? (r.next, name) = none := Py.Dict.get?_eq_none.mpr fun member =>
    absurd (corr.fresh _ member) (Nat.lt_irrefl _)
  obtain ⟨ft, added, tree, keys⟩ := corr.flat.tree.add fresh
  have made (m : Nat) := corr.created m (i.children ++ [(r.next, name)]) plain dir tree keys
  have last : lastName (rootPath name) = name := lastName_rootPath plain
  -- whatever the mode is
  have run (m : Nat) : ∃ w', ((do
        let s ← getState
        let id := s.inodeCnt
        createInode id (newFile (lastName (rootPath name)) m)
        setDentry (rootPath name) id
        addTreeNode (id, lastName (rootPath name)) rootTup
        setOpts var (optsOf flags)
        addChildToParent (id, lastName (rootPath name)) 0
        bindFd var id
        return Ret.none : M Ret) w) = some (.none, w') ∧
      Corr w' ((r.created (rootPath name)).opened var r.next flags) (children ++ [(r.next, name)]) ∧
      w'.st.bufData = w.st.bufData := by
    let file := newFile name m
    let w₁ : Ctx := { w with st := { w.st with mem := w.st.mem.set r.next file, inodeCnt := w.st.inodeCnt + 1 } }
    let w₂ : Ctx := { w₁ with st := { w₁.st with dentry := w.st.dentry.set (rootPath name) r.next } }
    let w₃ : Ctx := { w₂ with st := { w₂.st with ft } }
    let w₄ : Ctx := { w₃ with optDict := w.optDict.insert var (optsOf flags) }
    let w₅ : Ctx := { w₄ with st := w₄.st.toMem 0 { i with children := i.children ++ [(r.next, name)] } }
    have made₁ : createInode r.next file w = some ((), w₁) := rfl
    have entered : setDentry (rootPath name) r.next w₁ = some ((), w₂) := rfl
    have opts : setOpts var (optsOf flags) w₃ = some ((), w₄) := rfl
    have root₄ : w₄.st.inode? 0 = some i := by
      rw [State.inode?] at root ⊢
      rw [Py.Dict.get?_set_ne _ (Nat.ne_of_lt corr.positive)]
      exact root
    have added₂ : w₂.st.ft.addNode (r.next, name) rootTup = some ft := added
    have mem₅ : w₅.st.mem.get? r.next = some file :=
      (Py.Dict.get?_set_ne _ (Nat.ne_of_gt corr.positive) _).trans (Py.Dict.get?_set_self ..)
    have empty : (r.created (rootPath name)).content r.next = [] := Function.update_self ..
    have holds : Holds { file with offset := file.offset.insert var 0, refs := file.refs + 1 }
        ((r.created (rootPath name)).content r.next) := by
      rw [empty]
      exact ⟨rfl, ⟨_, rfl, rfl⟩, rfl⟩
    have bound := (made m).bound var corr.positive (Nat.lt_succ_self r.next) mem₅ holds rfl (suits_optsOf flags)
    rw [Posix.put_self] at bound
    refine ⟨_, ?_, bound, rfl⟩
    rw [M.bind_run (getState_apply w)]
    dsimp only
    conv_lhs => rw [corr.next, last]
    rw [M.bind_run made₁, M.bind_run entered, M.bind_run (addTreeNode_run added₂), M.bind_run opts,
      M.bind_run (addChildToParent_run root₄), M.bind_run (bindFd_run mem₅), M.pure_apply]
    rfl
  have creating : ¬ (!(optsOf flags).creat) = true := by simp [optsOf, creates]
  have noDir : ¬ (optsOf flags).directory = true := Bool.false_ne_true
  by_cases blank : mode = []
  · obtain ⟨w', ran, after⟩ := run 0o644
    refine ⟨w', _, ?_, after⟩
    rw [openNew, if_neg creating, if_neg noDir, M.bind_run (argAt_run rfl)]
    dsimp only
    rw [if_pos blank]
    exact ran
  · obtain ⟨k, number⟩ : ∃ k, parseInt mode = some k := by
      rw [modeGiven, decide_eq_false blank, Bool.false_or] at given
      exact Option.isSome_iff_exists.mp given
    obtain ⟨w', ran, after⟩ := run (maskMode k)
    have masked : (maskMode <$> intAt [p, token, mode] 2 : M Nat) w = some (maskMode k, w) := by
      rw [map_eq_pure_bind, M.bind_run (intAt_run rfl number), M.pure_apply]
    refine ⟨w', _, ?_, after⟩
    rw [openNew, if_neg creating, if_neg noDir, M.bind_run (argAt_run rfl)]
    dsimp only
    rw [if_neg blank, M.bind_run masked]
    exact ran

theorem open_follows (corr : Corr w r children) {token n mode : Str} {k : Int} {flags : OpenFlags} (found : pathAt w.st token = some path)
    (number : parseInt n = some k) (known : flagsOf k = some flags) (given : modeGiven mode = true) :
    Follows (openCall env [token, n, mode] var) w r (.open var path flags) slot := by
  obtain ⟨-, -, -, -, -, -, other⟩ := pathAt_eq_some found
  obtain ⟨w₁, w₂, children', ran, read, corr₂, -, -, kept⟩ := corr.resolved env found
  have parsed := orRaise_run (w := w₂) (parseOpenFlags_known known)
  rw [Follows, openCall, M.bind_run ran, M.bind_run (argAt_run rfl), M.bind_run read]
  dsimp only
  rw [M.bind_run (getState_apply w₂)]
  by_cases above : parentPath path = ['.']
  · obtain ⟨i₀, root, dir⟩ := corr₂.root
    rw [above, corr₂.flat.root]
    dsimp only
    rw [M.bind_run (intAt_run rfl number), M.bind_run parsed]
    dsimp only
    rw [M.bind_run (parentInode_dir root (corr₂.noLinks 0 i₀ root))]
    dsimp only
    rw [M.bind_run (getInode_found root), if_neg (not_not.mpr dir), corr₂.names path other]
    cases named : r.names path with
    | none =>
      rw [Option.bind_none]
      dsimp only
      cases creates : flags.creat with
      | false =>
        have stays : r.step (.open var path flags) = (r, none) := by simp [Posix.step, named, creates]
        refine ⟨.int 1, w₂, ?_, ?_, fun _ => ⟨children', ?_⟩, fun _ => trivial⟩
        · rw [openNew, if_pos (by simp [optsOf, creates])]
          rfl
        · rw [stays]
          exact kept
        · rw [stays]
          exact corr₂
      | true =>
        obtain ⟨same, plain⟩ := eq_rootPath above other
        have stepped : r.step (.open var path flags) = ((r.created path).opened var r.next flags, none) := by
          simp [Posix.step, named, creates, above]
        obtain ⟨w', children'', made, corr', kept'⟩ :=
          openNew_follows token n var corr₂ creates plain given
        rw [← same] at made corr'
        refine ⟨.none, w', made, ?_, fun _ => ⟨children'', ?_⟩, fun _ => trivial⟩
        · rw [stepped]
          exact kept'.trans kept
        · rw [stepped]
          exact corr'
    | some id =>
      obtain ⟨positive, below⟩ := corr.named path id named
      obtain ⟨i, -, inode, holds⟩ := corr₂.inode positive below
      have stepped : r.step (.open var path flags) =
          ((if flags.trunc && flags.access.writes then r.put id [] else r).opened var id flags, none) := by
        simp only [Posix.step, named]
      have file : i.type = .file := holds.type
      obtain ⟨w', opened, corr', kept'⟩ := openOld_follows var corr₂ flags positive below
      refine ⟨.none, w', ?_, ?_, fun _ => ⟨children', ?_⟩, fun _ => trivial⟩
      · rw [Option.bind_some, inode, Option.map_some]
        dsimp only
        rw [if_neg (by simp [optsOf]), if_neg (by simp [optsOf]), if_neg (by simp [file]), if_neg (by simp [optsOf]),
          if_neg (by simp [file])]
        exact opened
      · rw [stepped]
        exact kept'.trans kept
      · rw [stepped]
        exact corr'
  · have unnamed : r.names path = none := by
      cases named : r.names path with
      | none => rfl
      | some id =>
        obtain ⟨name, rfl, plain, -⟩ := corr.flat.entry path id ((corr.names path other).trans named) other
        exact absurd (parentPath_rootPath plain) above
    have stays : r.step (.open var path flags) = (r, none) := by simp [Posix.step, unnamed, above]
    refine ⟨.int 1, w₂, ?_, ?_, fun _ => ⟨children', ?_⟩, fun _ => trivial⟩
    · rw [corr₂.names (parentPath path) above]
      cases named : r.names (parentPath path) with
      | none => rfl
      | some id =>
        obtain ⟨positive, below⟩ := corr.named (parentPath path) id named
        obtain ⟨i, -, inode, holds⟩ := corr₂.inode positive below
        dsimp only
        rw [M.bind_run (intAt_run rfl number), M.bind_run parsed]
        dsimp only
        rw [M.bind_run (parentInode_dir inode (corr₂.noLinks id i inode))]
        dsimp only
        rw [M.bind_run (getInode_found inode), if_pos (by rw [holds.type]; decide)]
        rfl
    · rw [stays]
      exact kept
    · rw [stays]
      exact corr₂

/-- `creat` opens with `O_CREAT | O_WRONLY | O_TRUNC`. -/
theorem creat_follows (corr : Corr w r children) {token mode : Str} (found : pathAt w.st token = some path)
    (given : modeGiven mode = true) :
    Follows (Symsc.creat env [token, mode] var) w r (.open var path ⟨.wronly, true, true, false⟩) slot := by
  have number : parseInt "577".toList = some 577 := by decide
  have known : flagsOf 577 = some ⟨.wronly, true, true, false⟩ := by decide
  rw [Follows, Symsc.creat, if_neg (by simp), M.bind_run (argAt_run rfl), M.bind_run (argAt_run rfl)]
  exact open_follows corr found number known given

end Open

end DfsFuzz.Symsc
