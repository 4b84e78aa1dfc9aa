import DfsFuzz.Tree.RootNode

/-!
The part of the file tree that the emulation starts from (`checker/conc-fs.go`): the nodes that the
programs name, with the directories above them.
-/

namespace DfsFuzz.Checker

open DfsFuzz.Tree FileTree

/-- The paths that have a line, and the nodes that they were written for. -/
structure Subset where
  seen : List String := []
  nodes : List NodeRef := []

def subsetPath (ft : FileTree) (n : NodeRef) : String := Go.trimPrefix (ft.node n).fullPath mergeViewPrefix

def subsetLine (ft : FileTree) (n : NodeRef) : String :=
  let kind := if (ft.node n).type = .file then "file" else "dir"
  let size := (ft.node n).size
  let children := (ft.node n).children.items.length
  s!"{subsetPath ft n}\t{kind}\t{size}\t{children}"

/-- From a node up to the root, which has no line. The depth of the tree is below the number of nodes, which
is the fuel its caller gives. -/
def addUp (ft : FileTree) : Nat → NodeRef → Subset → Subset
  | 0, _, st => st
  | fuel + 1, n, st =>
    match (ft.node n).parent with
    | none => st
    | some p =>
      let fp := subsetPath ft n
      addUp ft fuel p (if fp ∈ st.seen then st else { seen := fp :: st.seen, nodes := st.nodes ++ [n] })

def addPath (ft : FileTree) (path : String) (st : Subset) : Subset :=
  match ft.findNode (Go.trimPrefix path "./") with
  | none => st
  | some node => addUp ft ft.next node st

/-- The text of an argument that has data of its own or points to them. -/
def dataText : Arg → Option String
  | .pointer _ (some (.data bytes)) => some (Go.ofBytes bytes)
  | .data bytes => some (Go.ofBytes bytes)
  | _ => none

def addArg (ft : FileTree) (st : Subset) (arg : Arg) : Subset :=
  match dataText arg with
  | none => st
  | some text => if Go.contains text "merge_view" then addPath ft text st else st

def groupArgs (ps : List Prog) : List Arg := ps.flatMap fun p => p.calls.flatMap Call.args

def subsetNodes (ps : List Prog) (ft : FileTree) : List NodeRef := ((groupArgs ps).foldl (addArg ft) {}).nodes

def subsetLines (ps : List Prog) (ft : FileTree) : List String :=
  ((subsetNodes ps ft).map (subsetLine ft)).mergeSort fun a b => decide (a ≤ b)

def initTreeSubset (ps : List Prog) (ft : Option FileTree) : String :=
  match ft with
  | none => ""
  | some ft => "\n".intercalate (subsetLines ps ft)

/-- `n` is one of the nodes, or a directory above one, and not the root. -/
def Covered (ft : FileTree) (nodes : NodeRef → Prop) (n : NodeRef) : Prop :=
  ∃ q s m, nodes m ∧ ft.nodeAt (s ++ q) = some m ∧ s ≠ [] ∧ ft.nodeAt s = some n

/-- A path argument names the node by a path under the merged view; `isPath` says which arguments are paths. -/
def Named (isPath : Call → Nat → Bool) (ps : List Prog) (ft : FileTree) (n : NodeRef) : Prop :=
  ∃ p ∈ ps, ∃ call ∈ p.calls, ∃ i, isPath call i = true ∧
    Go.hasPrefix (Go.trimPrefix (extractPathFromCallByArgIdx call i) "./") mergeViewPrefix = true ∧
    ft.findNode (Go.trimPrefix (extractPathFromCallByArgIdx call i) "./") = some n

/-- The whole text of some argument, with a NUL that it ends in, is a path of the node. -/
def Spelled (ps : List Prog) (ft : FileTree) (n : NodeRef) : Prop :=
  ∃ arg ∈ groupArgs ps, ∃ text, dataText arg = some text ∧ Go.contains text "merge_view" = true ∧
    ft.findNode (Go.trimPrefix text "./") = some n

/-- One line for every node that a path argument names and for every directory above, and no other. -/
structure SubsetExact (isPath : Call → Nat → Bool) (ps : List Prog) (ft : FileTree) : Prop where
  once : ∀ n, Covered ft (Named isPath ps ft) n → (subsetLines ps ft).count (subsetLine ft n) = 1
  only : ∀ line ∈ subsetLines ps ft, ∃ n, Covered ft (Named isPath ps ft) n ∧ subsetLine ft n = line

/-! ### The walk up -/

variable {ft : FileTree}

/-- The seen paths are those of the nodes, each of them below the root and there once. -/
structure Marks (ft : FileTree) (st : Subset) : Prop where
  seen : ∀ fp, fp ∈ st.seen ↔ ∃ n ∈ st.nodes, subsetPath ft n = fp
  nodup : st.nodes.Nodup
  below : ∀ n ∈ st.nodes, ∃ s, s ≠ [] ∧ ft.nodeAt s = some n

variable {n : NodeRef}

theorem subsetPath_inj (linked : Linked ft) {s s' : List String} {n' : NodeRef} (nonempty : s ≠ [])
    (nonempty' : s' ≠ []) (found : ft.nodeAt s = some n) (found' : ft.nodeAt s' = some n')
    (same : subsetPath ft n = subsetPath ft n') : n = n' := by
  have parts : pathParts (render s) = pathParts (render s') := by
    rw [← linked.fullPath found, ← linked.fullPath found']
    exact congrArg (Go.split · '/') same
  rw [pathParts_render nonempty (linked.components found), pathParts_render nonempty' (linked.components found')] at parts
  subst parts
  exact Option.some.inj (found.symm.trans found')

variable {st : Subset}

theorem Marks.add (marks : Marks ft st) (linked : Linked ft) {s : List String} (nonempty : s ≠ [])
    (found : ft.nodeAt s = some n) :
    let st' : Subset := if subsetPath ft n ∈ st.seen then st else { seen := subsetPath ft n :: st.seen, nodes := st.nodes ++ [n] }
    Marks ft st' ∧ ∀ m, m ∈ st'.nodes ↔ m ∈ st.nodes ∨ m = n := by
  by_cases known : subsetPath ft n ∈ st.seen
  · obtain ⟨m, member, same⟩ := (marks.seen _).mp known
    obtain ⟨s', nonempty', found'⟩ := marks.below m member
    obtain rfl := subsetPath_inj linked nonempty' nonempty found' found same
    simp only [known, if_true]
    refine ⟨marks, fun k => ⟨.inl, ?_⟩⟩
    rintro (there | rfl)
    · exact there
    · exact member
  · have fresh : n ∉ st.nodes := fun member => known ((marks.seen _).mpr ⟨n, member, rfl⟩)
    simp only [known, if_false]
    refine ⟨⟨fun fp => ?_, ?_, ?_⟩, fun m => by simp⟩
    · rw [List.mem_cons, marks.seen]
      constructor
      · rintro (rfl | ⟨m, member, same⟩)
        · exact ⟨n, by simp, rfl⟩
        · exact ⟨m, by simp [member], same⟩
      · rintro ⟨m, member, same⟩
        rcases List.mem_append.mp member with old | new
        · exact .inr ⟨m, old, same⟩
        · rw [List.mem_singleton.mp new] at same
          exact .inl same.symm
    · refine List.nodup_append.mpr ⟨marks.nodup, List.nodup_singleton n, fun m member k there same => ?_⟩
      rw [same, List.mem_singleton.mp there] at member
      exact fresh member
    · intro m member
      rcases List.mem_append.mp member with old | new
      · exact marks.below m old
      · rw [List.mem_singleton.mp new]
        exact ⟨s, nonempty, found⟩

/-- By induction along the path of the node, from its end. -/
theorem addUp_spec (linked : Linked ft) (alone : RootAlone ft) {q : List String} (found : ft.nodeAt q = some n)
    {fuel : Nat} (enough : q.length < fuel) (marks : Marks ft st) :
    Marks ft (addUp ft fuel n st) ∧
      ∀ m, m ∈ (addUp ft fuel n st).nodes ↔ m ∈ st.nodes ∨ ∃ s, s ≠ [] ∧ s <+: q ∧ ft.nodeAt s = some m := by
  induction q using List.reverseRecOn generalizing n fuel st with
  | nil =>
    obtain ⟨fuel, rfl⟩ := Nat.exists_eq_succ_of_ne_zero (Nat.ne_of_gt enough)
    obtain rfl := Option.some.inj found
    rw [addUp, alone.parent]
    refine ⟨marks, fun m => ⟨.inl, ?_⟩⟩
    rintro (member | ⟨s, nonempty, inside, _⟩)
    · exact member
    · exact absurd (List.prefix_nil.mp inside) nonempty
  | append_singleton q x ih =>
    obtain ⟨fuel, rfl⟩ := Nat.exists_eq_succ_of_ne_zero (Nat.ne_of_gt (Nat.zero_lt_of_lt enough))
    obtain ⟨p, above⟩ := nodeAt_of_prefix found
    have parent : (ft.node n).parent = some p := (linked.link q x n found).parent.trans above
    obtain ⟨added, nodes⟩ := marks.add linked (by simp) found
    rw [addUp, parent]
    dsimp only at added nodes ⊢
    generalize (if subsetPath ft n ∈ st.seen then st else _) = st' at added nodes ⊢
    rw [List.length_append, List.length_singleton] at enough
    obtain ⟨marked, reached⟩ := ih above (show q.length < fuel by omega) added
    refine ⟨marked, fun m => ?_⟩
    rw [reached, nodes, or_assoc]
    refine or_congr_right ⟨?_, ?_⟩
    · rintro (rfl | ⟨s, nonempty, inside, here⟩)
      · exact ⟨q ++ [x], by simp, List.prefix_refl _, found⟩
      · exact ⟨s, nonempty, inside.trans (List.prefix_append q [x]), here⟩
    · rintro ⟨s, nonempty, inside, here⟩
      rcases List.prefix_concat_iff.mp inside with rfl | shorter
      · exact .inl (Option.some.inj (here.symm.trans found))
      · exact .inr ⟨s, nonempty, shorter, here⟩

/-! ### The lookups -/

theorem follow_some {r : NodeRef} {parts : List String} (found : ft.follow r parts = some n) :
    Walk.walk ft.edge r (parts.filter (· ≠ "")) = some n := by
  induction parts generalizing r with
  | nil => exact found
  | cons part rest ih =>
    rw [FileTree.follow] at found
    by_cases empty : part = ""
    · rw [if_pos empty] at found
      rw [List.filter_cons_of_neg (by simp [empty])]
      exact ih found
    · rw [if_neg empty] at found
      rw [List.filter_cons_of_pos (by simp [empty]), Walk.walk]
      cases step : ft.edge r part with
      | none =>
        rw [step] at found
        cases found
      | some child =>
        rw [step] at found
        exact ih found

theorem findNode_some {path : String} (found : ft.findNode path = some n) : ∃ q, ft.nodeAt q = some n := by
  rw [FileTree.findNode, FileTree.findNodeLocked] at found
  split at found
  · exact ⟨[], found⟩
  · exact ⟨_, follow_some found⟩

def Spells (ft : FileTree) (arg : Arg) (n : NodeRef) : Prop :=
  ∃ text, dataText arg = some text ∧ Go.contains text "merge_view" = true ∧ ft.findNode (Go.trimPrefix text "./") = some n

theorem addArg_spec (linked : Linked ft) (alone : RootAlone ft) (marks : Marks ft st) (arg : Arg) :
    Marks ft (addArg ft st arg) ∧
      ∀ n, n ∈ (addArg ft st arg).nodes ↔ n ∈ st.nodes ∨ Covered ft (Spells ft arg) n := by
  by_cases spells : ∃ m, Spells ft arg m
  · obtain ⟨m, text, read, inside, named⟩ := spells
    obtain ⟨q, found⟩ := findNode_some named
    have added : addArg ft st arg = addUp ft ft.next m st := by simp [addArg, read, inside, addPath, named]
    obtain ⟨marked, nodes⟩ := addUp_spec linked alone found
      (linked.tree.depth (fun _ _ here => linked.allocated here) found) marks
    rw [added]
    refine ⟨marked, fun n => (nodes n).trans (or_congr_right ⟨?_, ?_⟩)⟩
    · rintro ⟨s, nonempty, ⟨t, whole⟩, here⟩
      exact ⟨t, s, m, ⟨text, read, inside, named⟩, by rw [whole]; exact found, nonempty, here⟩
    · rintro ⟨t, s, m', ⟨text', read', _, named'⟩, below, nonempty, here⟩
      cases read.symm.trans read'
      cases named.symm.trans named'
      exact ⟨s, nonempty, ⟨t, linked.unique below found⟩, here⟩
  · have unchanged : addArg ft st arg = st := by
      rw [addArg]
      cases read : dataText arg with
      | none => rfl
      | some text =>
        by_cases inside : Go.contains text "merge_view" = true
        · cases named : ft.findNode (Go.trimPrefix text "./") with
          | none => simp [inside, addPath, named]
          | some m => exact absurd ⟨m, text, read, inside, named⟩ spells
        · simp [inside]
    rw [unchanged]
    refine ⟨marks, fun n => ⟨.inl, ?_⟩⟩
    rintro (member | ⟨_, _, m, spelled, _⟩)
    · exact member
    · exact absurd ⟨m, spelled⟩ spells

theorem addArgs_spec (linked : Linked ft) (alone : RootAlone ft) (args : List Arg) (marks : Marks ft st) :
    Marks ft (args.foldl (addArg ft) st) ∧
      ∀ n, n ∈ (args.foldl (addArg ft) st).nodes ↔ n ∈ st.nodes ∨ ∃ arg ∈ args, Covered ft (Spells ft arg) n := by
  induction args generalizing st with
  | nil => exact ⟨marks, fun n => by simp⟩
  | cons arg args ih =>
    obtain ⟨marked, nodes⟩ := addArg_spec linked alone marks arg
    obtain ⟨all, reached⟩ := ih marked
    refine ⟨all, fun n => ?_⟩
    rw [List.foldl_cons, reached, nodes, List.exists_mem_cons_iff, or_assoc]

/-- The nodes with a line are those that the texts of the arguments spell, and the directories above. -/
theorem subsetNodes_spec (linked : Linked ft) (alone : RootAlone ft) (ps : List Prog) :
    (subsetNodes ps ft).Nodup ∧ ∀ n, n ∈ subsetNodes ps ft ↔ Covered ft (Spelled ps ft) n := by
  have empty : Marks ft {} := ⟨by simp, List.nodup_nil, by simp⟩
  obtain ⟨marks, nodes⟩ := addArgs_spec linked alone (groupArgs ps) empty
  refine ⟨marks.nodup, fun n => (nodes n).trans ?_⟩
  constructor
  · rintro (none_ | ⟨arg, member, q, s, m, ⟨text, spelled⟩, place⟩)
    · cases none_
    · exact ⟨q, s, m, ⟨arg, member, text, spelled⟩, place⟩
  · rintro ⟨q, s, m, ⟨arg, member, text, spelled⟩, place⟩
    exact .inr ⟨arg, member, q, s, m, ⟨text, spelled⟩, place⟩

variable {c : Char}

theorem notMem_toString (other : c.isDigit = false) (n : Nat) : c ∉ (toString n).toList := by
  intro member
  have digits : (toString n).toList = Nat.toDigits 10 n := String.toList_ofList
  rw [digits] at member
  have digit := Nat.isDigit_of_mem_toDigits (by decide) (by decide) member
  rw [other] at digit
  cases digit

theorem eq_of_last_tab {front front' field field' : List Char} (free : '\t' ∉ field) (free' : '\t' ∉ field')
    (same : front ++ '\t' :: field = front' ++ '\t' :: field') : front = front' := by
  rcases List.append_eq_append_iff.mp same with ⟨c, rfl, rest⟩ | ⟨c, rfl, rest⟩
  all_goals
    cases c with
    | nil => simp
    | cons x c =>
      obtain ⟨rfl, later⟩ := List.cons.inj rest
      simp [later] at free free'

def kindText (ft : FileTree) (n : NodeRef) : String := if (ft.node n).type = .file then "file" else "dir"

theorem subsetLine_toList (ft : FileTree) (n : NodeRef) :
    (subsetLine ft n).toList =
      (((subsetPath ft n).toList ++ '\t' :: (kindText ft n).toList) ++ '\t' :: (toString (ft.node n).size.toNat).toList) ++
        '\t' :: (toString (ft.node n).children.items.length).toList := by
  show (subsetPath ft n ++ "\t" ++ kindText ft n ++ "\t" ++ toString (ft.node n).size.toNat ++ "\t" ++
    toString (ft.node n).children.items.length).toList = _
  simp only [String.toList_append, List.append_assoc]
  rfl

theorem notMem_kindText (other : c ∉ "file".toList ++ "dir".toList) (n : NodeRef) : c ∉ (kindText ft n).toList := by
  rw [List.mem_append, not_or] at other
  unfold kindText
  split
  · exact other.1
  · exact other.2

theorem subsetPath_of_subsetLine {n' : NodeRef} (same : subsetLine ft n = subsetLine ft n') :
    subsetPath ft n = subsetPath ft n' := by
  have chars := congrArg String.toList same
  rw [subsetLine_toList, subsetLine_toList] at chars
  have size := eq_of_last_tab (notMem_toString rfl _) (notMem_toString rfl _) chars
  have kind := eq_of_last_tab (notMem_toString rfl _) (notMem_toString rfl _) size
  exact String.toList_inj.mp (eq_of_last_tab (notMem_kindText (by decide) n) (notMem_kindText (by decide) n') kind)

theorem Covered.below {nodes : NodeRef → Prop} (covered : Covered ft nodes n) : ∃ s, s ≠ [] ∧ ft.nodeAt s = some n := by
  obtain ⟨-, s, -, -, -, nonempty, found⟩ := covered
  exact ⟨s, nonempty, found⟩

theorem subsetLine_inj (linked : Linked ft) {nodes nodes' : NodeRef → Prop} {n' : NodeRef}
    (covered : Covered ft nodes n) (covered' : Covered ft nodes' n') (same : subsetLine ft n = subsetLine ft n') :
    n = n' := by
  obtain ⟨s, nonempty, found⟩ := covered.below
  obtain ⟨s', nonempty', found'⟩ := covered'.below
  exact subsetPath_inj linked nonempty nonempty' found found' (subsetPath_of_subsetLine same)

/-- The lines are those of the nodes that the texts spell, each there once. -/
theorem subsetLines_spec (linked : Linked ft) (alone : RootAlone ft) (ps : List Prog) :
    (subsetLines ps ft).Nodup ∧
      ∀ line, line ∈ subsetLines ps ft ↔ ∃ n, Covered ft (Spelled ps ft) n ∧ subsetLine ft n = line := by
  obtain ⟨once, nodes⟩ := subsetNodes_spec linked alone ps
  have sorted : (subsetLines ps ft).Perm ((subsetNodes ps ft).map (subsetLine ft)) := List.mergeSort_perm _ _
  constructor
  · rw [sorted.nodup_iff]
    refine once.map_on fun n member n' member' same => ?_
    exact subsetLine_inj linked ((nodes n).mp member) ((nodes n').mp member') same
  · intro line
    rw [sorted.mem_iff, List.mem_map]
    simp only [nodes]

/-! ### When the subset is exact -/

def NamesWithout (c : Char) (ft : FileTree) : Prop := ∀ q n, ft.nodeAt q = some n → ∀ x ∈ q, c ∉ x.toList

/-- The path arguments are strings with a NUL behind, as the generators build them. -/
def Terminated (isPath : Call → Nat → Bool) (ps : List Prog) : Prop :=
  ∀ p ∈ ps, ∀ call ∈ p.calls, ∀ i arg, isPath call i = true → call.args[i]? = some arg →
    ∃ path, dataText arg = some (path ++ "\x00")

theorem mem_trimPrefix {s pre : String} (member : c ∈ s.toList) (free : c ∉ pre.toList) :
    c ∈ (Go.trimPrefix s pre).toList := by
  by_cases starts : Go.hasPrefix s pre = true
  · rw [← Go.append_trimPrefix starts, String.toList_append, List.mem_append] at member
    exact member.resolve_left free
  · rw [Go.trimPrefix, if_neg starts]
    exact member

theorem exists_mem_split {s : String} (member : c ∈ s.toList) (other : c ≠ '/') :
    ∃ part ∈ Go.split s '/', c ∈ part.toList := by
  have whole := congrArg String.toList (Go.join_split s)
  rw [Go.join, String.toList_ofList] at whole
  cases parts : Go.split s '/' with
  | nil => exact absurd parts (Go.split_ne_nil s '/')
  | cons first rest =>
    rw [parts, List.map_cons, intercalate_slash] at whole
    rw [← whole, List.mem_append] at member
    rcases member with here | later
    · exact ⟨first, List.mem_cons_self, here⟩
    · obtain ⟨y, there, inside⟩ := List.mem_flatMap.mp later
      obtain ⟨part, listed, rfl⟩ := List.mem_map.mp there
      rcases List.mem_cons.mp inside with slash | inside
      · exact absurd slash other
      · exact ⟨part, List.mem_cons_of_mem _ listed, inside⟩

theorem not_spells_nul (plain : NamesWithout '\x00' ft) {arg : Arg} {text : String} (read : dataText arg = some text)
    (nul : '\x00' ∈ text.toList) (n : NodeRef) : ¬ Spells ft arg n := by
  rintro ⟨text', read', _, named⟩
  cases read.symm.trans read'
  have kept : '\x00' ∈ (cleanPath (Go.trimPrefix text "./")).toList :=
    mem_trimPrefix (mem_trimPrefix nul (by decide)) (by decide)
  obtain ⟨part, member, inside⟩ := exists_mem_split kept (by decide)
  have nonempty : part ≠ "" := by
    rintro rfl
    cases inside
  rw [FileTree.findNode, FileTree.findNodeLocked] at named
  split at named
  · rename_i empty
    rw [empty] at kept
    cases kept
  · exact plain _ n (follow_some named) part (List.mem_filter.mpr ⟨member, by simpa using nonempty⟩) inside

theorem newline_notMem_subsetLine (linked : Linked ft) (plain : NamesWithout '\n' ft) {s : List String}
    (nonempty : s ≠ []) (found : ft.nodeAt s = some n) : '\n' ∉ (subsetLine ft n).toList := by
  have path : '\n' ∉ (subsetPath ft n).toList := by
    intro member
    obtain ⟨part, inside, newline⟩ := exists_mem_split member (by decide)
    have parts : pathParts (render s) = s := pathParts_render nonempty (linked.components found)
    rw [← linked.fullPath found] at parts
    change part ∈ pathParts (ft.node n).fullPath at inside
    rw [parts] at inside
    exact plain s n found part inside newline
  rw [subsetLine_toList]
  simp only [List.mem_append, List.mem_cons, not_or]
  exact ⟨⟨⟨path, by decide, notMem_kindText (by decide) n⟩, by decide, notMem_toString rfl _⟩, by decide, notMem_toString rfl _⟩

theorem split_initTreeSubset (linked : Linked ft) (alone : RootAlone ft) (plain : NamesWithout '\n' ft) {ps : List Prog}
    (nonempty : subsetLines ps ft ≠ []) : Go.split (initTreeSubset ps (some ft)) '\n' = subsetLines ps ft := by
  have free : ∀ line ∈ (subsetLines ps ft).map String.toList, '\n' ∉ line := by
    intro line member
    obtain ⟨text, inside, rfl⟩ := List.mem_map.mp member
    obtain ⟨n, covered, rfl⟩ := ((subsetLines_spec linked alone ps).2 text).mp inside
    obtain ⟨s, below, found⟩ := covered.below
    exact newline_notMem_subsetLine linked plain below found
  have pieces : (initTreeSubset ps (some ft)).toList.splitOn '\n' = (subsetLines ps ft).map String.toList := by
    rw [initTreeSubset, String.toList_intercalate]
    exact List.splitOn_intercalate '\n' free (by simpa using nonempty)
  rw [Go.split, pieces]
  simp [Function.comp_def]

/-- The lines are exact where the arguments, taken as they are, spell the same nodes as the path arguments name. A path
argument spells none itself; and without a newline in a name, the lines are what the text is split into. -/
theorem subsetExact_iff {ft : FileTree} (built : Reachable ft) (isPath : Call → Nat → Bool) (ps : List Prog) :
    (SubsetExact isPath ps ft ↔ ∀ n, Covered ft (Named isPath ps ft) n ↔ Covered ft (Spelled ps ft) n) ∧
    (NamesWithout '\x00' ft → Terminated isPath ps → ∀ p ∈ ps, ∀ call ∈ p.calls, ∀ i arg, isPath call i = true →
      call.args[i]? = some arg → ∀ n, ¬ Spells ft arg n) ∧
    (NamesWithout '\n' ft → subsetLines ps ft ≠ [] → Go.split (initTreeSubset ps (some ft)) '\n' = subsetLines ps ft) := by
  obtain ⟨nodup, lines⟩ := subsetLines_spec built.linked built.rootAlone ps
  refine ⟨⟨fun exact_ n => ⟨fun named => ?_, fun spelled => ?_⟩, fun same => ⟨fun n named => ?_, fun line member => ?_⟩⟩, ?_,
    fun plain nonempty => split_initTreeSubset built.linked built.rootAlone plain nonempty⟩
  · have member : subsetLine ft n ∈ subsetLines ps ft := by
      apply List.count_pos_iff.mp
      rw [exact_.once n named]
      exact Nat.one_pos
    obtain ⟨n', spelled, line⟩ := (lines _).mp member
    rw [subsetLine_inj built.linked named spelled line.symm]
    exact spelled
  · obtain ⟨n', named, line⟩ := exact_.only _ ((lines _).mpr ⟨n, spelled, rfl⟩)
    rw [subsetLine_inj built.linked spelled named line.symm]
    exact named
  · exact List.count_eq_one_of_mem nodup ((lines _).mpr ⟨n, (same n).mp named, rfl⟩)
  · obtain ⟨n, spelled, rfl⟩ := (lines line).mp member
    exact ⟨n, (same n).mpr spelled, rfl⟩
  · intro plain terminated p member call inside i arg path found
    obtain ⟨text, read⟩ := terminated p member call inside i arg path found
    exact not_spells_nul plain read (by simp)

/-! ### One file -/

def creatCall (bytes : List UInt8) : Call := { name := "creat", args := [.pointer 0 (some (.data bytes)), .const 0o777] }

/-- The text of a path, with the NUL that the generators put behind it. -/
def pathBytes (path : String) : List UInt8 := path.toList.map (fun c => UInt8.ofNat c.toNat) ++ [0]

def firstArg (_ : Call) (i : Nat) : Bool := i == 0

def oneFile : FileTree := newFileTree.addNode "merge_view/a" .file "c1"

theorem oneFile_reachable : Reachable oneFile := .addNode .new (by decide) .file "c1"

def creatProg (path : String) : Prog := { calls := [creatCall (pathBytes path)] }

theorem mem_creatProg {path : String} {p : Prog} {call : Call} (member : p ∈ [creatProg path]) (inside : call ∈ p.calls) :
    call = creatCall (pathBytes path) := by
  obtain rfl := List.mem_singleton.mp member
  exact List.mem_singleton.mp inside

/-- The file is named, and its name is written to it. -/
def writtenProg : Prog :=
  { calls := [creatCall (pathBytes "merge_view/a"),
      { name := "write", args := [.const 3, .pointer 0 (some (.data ("merge_view/a".toList.map fun c => UInt8.ofNat c.toNat)))] }] }

def creatPath (call : Call) (i : Nat) : Bool := call.name == "creat" && i == 0

theorem namesWithout_of_children (linked : Linked ft)
    (each : ∀ m < ft.next, ∀ e ∈ (ft.node m).children.items, c ∉ e.1.toList) : NamesWithout c ft := by
  intro q n found x member
  obtain ⟨front, back, rfl⟩ := List.append_of_mem member
  rw [List.append_cons, nodeAt_append] at found
  obtain ⟨child, above, -⟩ := Option.bind_eq_some_iff.mp found
  obtain ⟨m, before⟩ := nodeAt_of_prefix above
  rw [nodeAt_concat, before, Option.bind_some] at above
  exact each m (linked.allocated before) (x, child) (Go.Map.mem_items.mpr above)

theorem oneFile_names (other : c ≠ 'a') : NamesWithout c oneFile := by
  have names : ∀ m < oneFile.next, ∀ e ∈ (oneFile.node m).children.items, e.1 = "a" := by decide +kernel
  refine namesWithout_of_children oneFile_reachable.linked fun m inside e member => ?_
  rw [names m inside e member]
  simpa using other

/-- What is written spells the path as it is, so the file has its line; the path argument spells nothing. -/
theorem subsetExact_iff_written :
    SubsetExact creatPath [writtenProg] oneFile ∧
      Go.split (initTreeSubset [writtenProg] (some oneFile)) '\n' = ["a\tfile\t0\t0"] ∧
      ∀ n, ¬ Spells oneFile (.pointer 0 (some (.data (pathBytes "merge_view/a")))) n := by
  have lines : subsetLines [writtenProg] oneFile = ["a\tfile\t0\t0"] := by
    have nodes : subsetNodes [writtenProg] oneFile = [1] := by decide +kernel
    rw [subsetLines, nodes, List.map_singleton, List.mergeSort_singleton]
    decide +kernel
  have creat : ∀ call ∈ writtenProg.calls, ∀ i, creatPath call i = true → call = creatCall (pathBytes "merge_view/a") ∧ i = 0 := by
    intro call inside i path
    rw [creatPath, Bool.and_eq_true, beq_iff_eq, beq_iff_eq] at path
    rcases List.mem_cons.mp inside with rfl | written
    · exact ⟨rfl, path.2⟩
    · rw [List.mem_singleton.mp written] at path
      exact absurd path.1 (by decide)
  have named : ∀ m, Named creatPath [writtenProg] oneFile m ↔ m = 1 := by
    have here : oneFile.findNode (Go.trimPrefix (extractPathFromCallByArgIdx (creatCall (pathBytes "merge_view/a")) 0) "./") =
        some 1 := by decide +kernel
    intro m
    constructor
    · rintro ⟨p, member, call, inside, i, path, _, found⟩
      rw [List.mem_singleton.mp member] at inside
      obtain ⟨rfl, rfl⟩ := creat call inside i path
      exact (Option.some.inj (here.symm.trans found)).symm
    · rintro rfl
      exact ⟨writtenProg, List.mem_cons_self, _, List.mem_cons_self, 0, rfl, by decide +kernel, here⟩
  have spelled : ∀ m, Spelled [writtenProg] oneFile m ↔ m = 1 := by
    have found : ∀ arg ∈ groupArgs [writtenProg], ∀ text ∈ dataText arg, ∀ m ∈ oneFile.findNode (Go.trimPrefix text "./"),
        m = 1 := by decide +kernel
    have some_ : ∃ arg ∈ groupArgs [writtenProg], ∃ text ∈ dataText arg, Go.contains text "merge_view" = true ∧
        oneFile.findNode (Go.trimPrefix text "./") = some 1 := by decide +kernel
    intro m
    constructor
    · rintro ⟨arg, member, text, read, _, here⟩
      exact found arg member text read m here
    · rintro rfl
      exact some_
  obtain ⟨exact_, silent, text⟩ := subsetExact_iff oneFile_reachable creatPath [writtenProg]
  refine ⟨exact_.mpr fun n => by simp only [Covered, named, spelled], ?_, ?_⟩
  · rw [text (oneFile_names (by decide)) (by simp [lines]), lines]
  · refine silent (oneFile_names (by decide)) ?_ writtenProg List.mem_cons_self _ List.mem_cons_self 0 _ rfl rfl
    intro p member call inside i arg path given
    rw [List.mem_singleton.mp member] at inside
    obtain ⟨rfl, rfl⟩ := creat call inside i path
    cases given
    exact ⟨"merge_view/a", by decide⟩

/-- The file that a call creates anew is in the tree, and it has no line. -/
theorem initTreeSubset_misses :
    ¬ ∀ (ft : FileTree) (isPath : Call → Nat → Bool) (ps : List Prog), Reachable ft → Terminated isPath ps →
      SubsetExact isPath ps ft := by
  intro always
  have terminated : Terminated firstArg [creatProg "merge_view/a"] := by
    intro p member call inside i arg path found
    obtain rfl := mem_creatProg member inside
    obtain rfl : i = 0 := by simpa [firstArg] using path
    cases found
    exact ⟨"merge_view/a", by decide⟩
  have exact_ := always oneFile firstArg [creatProg "merge_view/a"] oneFile_reachable terminated
  have none_ : subsetNodes [creatProg "merge_view/a"] oneFile = [] := by decide +kernel
  have named : Covered oneFile (Named firstArg [creatProg "merge_view/a"] oneFile) 1 := by
    refine ⟨[], ["a"], 1, ⟨_, List.mem_cons_self, _, List.mem_cons_self, 0, rfl, ?_, ?_⟩, ?_, by simp, ?_⟩
    all_goals decide +kernel
  have line := exact_.once 1 named
  rw [subsetLines, none_, List.map_nil, List.mergeSort_nil] at line
  cases line

end DfsFuzz.Checker
