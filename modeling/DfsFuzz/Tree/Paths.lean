import DfsFuzz.Tree.FileTree

/-! Paths of the merged view as lists of components. -/

namespace DfsFuzz.Tree

def Component (x : String) : Prop := x ≠ "" ∧ '/' ∉ x.toList

/-- The full path of components below a directory, as `FullPath` is built. -/
def renderFrom (base : String) (q : List String) : String := q.foldl (fun acc x => acc ++ "/" ++ x) base

def render (q : List String) : String := renderFrom "merge_view" q

def pathParts (path : String) : List String := Go.split (FileTree.cleanPath path) '/'

def CleanPath (path : String) : Prop := "" ∉ pathParts path

instance (path : String) : Decidable (CleanPath path) := inferInstanceAs (Decidable ("" ∉ pathParts path))

theorem pathParts_ne_nil (path : String) : pathParts path ≠ [] := Go.split_ne_nil _ _

theorem render_concat (q : List String) (x : String) : render (q ++ [x]) = render q ++ "/" ++ x := by
  simp [render, renderFrom]

theorem render_append (q s : List String) : render (q ++ s) = renderFrom (render q) s := by
  simp [render, renderFrom]

theorem render_toList (q : List String) :
    (render q).toList = "merge_view".toList ++ q.flatMap fun x => '/' :: x.toList := by
  induction q using List.reverseRecOn with
  | nil => simp [render, renderFrom]
  | append_singleton q x ih =>
    rw [render_concat]
    simp [ih, String.toList_append]

theorem intercalate_slash (x : List Char) (xs : List (List Char)) :
    ['/'].intercalate (x :: xs) = x ++ xs.flatMap fun y => '/' :: y := by
  induction xs generalizing x with
  | nil => simp
  | cons y xs ih =>
    rw [List.intercalate_cons_cons, ih]
    simp

theorem render_eq {q : List String} (nonempty : q ≠ []) : render q = mergeViewPrefix ++ Go.join q := by
  apply String.toList_inj.mp
  rw [render_toList, String.toList_append, Go.join, String.toList_ofList]
  cases q with
  | nil => exact absurd rfl nonempty
  | cons x q =>
    rw [List.map_cons, intercalate_slash]
    simp [mergeViewPrefix, List.flatMap_map]

theorem cleanPath_render {q : List String} (nonempty : q ≠ []) : FileTree.cleanPath (render q) = Go.join q := by
  rw [render_eq nonempty, FileTree.cleanPath, Go.trimPrefix_append]

theorem pathParts_render {q : List String} (nonempty : q ≠ []) (good : ∀ x ∈ q, Component x) :
    pathParts (render q) = q := by
  rw [pathParts, cleanPath_render nonempty]
  exact Go.split_join nonempty fun x member => (good x member).2

theorem render_pathParts {path : String} (below : Go.hasPrefix path mergeViewPrefix = true) :
    render (pathParts path) = path := by
  rw [render_eq (pathParts_ne_nil path), pathParts, Go.join_split]
  exact Go.append_trimPrefix below

theorem render_injective {q q' : List String} (good : ∀ x ∈ q, Component x) (good' : ∀ x ∈ q', Component x)
    (same : render q = render q') : q = q' := by
  have empty : ∀ x : String, ∀ s : List String, render [] ≠ render (x :: s) := by
    intro x s equal
    have lengths := congrArg (fun p => p.toList.length) equal
    simp [render_toList] at lengths
  cases q with
  | nil =>
    cases q' with
    | nil => rfl
    | cons x q' => exact absurd same (empty x q')
  | cons x q =>
    cases q' with
    | nil => exact absurd same.symm (empty x q)
    | cons x' q' => rw [← pathParts_render (by simp) good, same, pathParts_render (by simp) good']

/-- A slash-free word before a slash or the end is the longest such start. -/
theorem slashFree_unique {x y t u : List Char} (left : '/' ∉ x) (right : '/' ∉ y) (startT : ∃ v, t = '/' :: v)
    (startU : u = [] ∨ ∃ v, u = '/' :: v) (same : x ++ t = y ++ u) : x = y ∧ t = u := by
  have cut : ∀ {z w : List Char}, '/' ∉ z → (w = [] ∨ ∃ v, w = '/' :: v) → (z ++ w).takeWhile (· ≠ '/') = z := by
    intro z w free start
    have inside : ∀ c ∈ z, decide (c ≠ '/') = true := by
      intro c member
      refine decide_eq_true ?_
      rintro rfl
      exact free member
    rw [List.takeWhile_append_of_pos inside]
    rcases start with rfl | ⟨v, rfl⟩ <;> simp
  obtain rfl : x = y := by rw [← cut left (Or.inr startT), same, cut right startU]
  exact ⟨rfl, List.append_cancel_left same⟩

theorem hasPrefix_render_slash {q q' : List String} (good : ∀ x ∈ q, Component x) (good' : ∀ x ∈ q', Component x) :
    Go.hasPrefix (render q') (render q ++ "/") = true ↔ q <+: q' ∧ q ≠ q' := by
  rw [Go.hasPrefix, List.isPrefixOf_iff_prefix, String.toList_append, render_toList, render_toList, List.append_assoc,
    List.prefix_append_right_inj]
  induction q generalizing q' with
  | nil => cases q' <;> simp
  | cons x q ih =>
    cases q' with
    | nil => simp
    | cons y q' =>
      have later := @ih q' (fun z member => good z (List.mem_cons_of_mem _ member))
        (fun z member => good' z (List.mem_cons_of_mem _ member))
      have starts : ∀ s : List String, (s.flatMap fun x => '/' :: x.toList) = [] ∨
          ∃ v, (s.flatMap fun x => '/' :: x.toList) = '/' :: v := by
        intro s
        cases s <;> simp
      rw [List.cons_prefix_cons, ne_eq, List.cons.injEq]
      constructor
      · rintro ⟨t, same⟩
        simp only [List.flatMap_cons, List.cons_append, List.append_assoc, List.cons.injEq, true_and] at same
        obtain ⟨names, rest⟩ := slashFree_unique (good x List.mem_cons_self).2 (good' y List.mem_cons_self).2
          (by rcases starts q with empty | ⟨v, start⟩
              · exact ⟨t, by rw [empty]; rfl⟩
              · exact ⟨v ++ ("/".toList ++ t), by rw [start]; rfl⟩)
          (starts q') same
        obtain rfl := String.toList_inj.mp names
        have below := later.mp ⟨t, by rw [List.append_assoc]; exact rest⟩
        exact ⟨⟨rfl, below.1⟩, fun both => below.2 both.2⟩
      · rintro ⟨⟨rfl, inside⟩, different⟩
        obtain ⟨t, rest⟩ := later.mpr ⟨inside, fun same => different ⟨rfl, same⟩⟩
        refine ⟨t, ?_⟩
        rw [List.flatMap_cons, List.flatMap_cons, ← rest]
        simp

theorem CleanPath.component {path : String} (clean : CleanPath path) : ∀ x ∈ pathParts path, Component x := by
  intro x member
  refine ⟨?_, Go.not_mem_of_mem_split member⟩
  rintro rfl
  exact clean member

theorem CleanPath.cleanPath_ne {path : String} (clean : CleanPath path) : FileTree.cleanPath path ≠ "" := by
  intro empty
  apply clean
  rw [pathParts, empty]
  decide

theorem follow_eq_walk (ft : FileTree) (r : NodeRef) {q : List String} (clean : "" ∉ q) :
    ft.follow r q = Walk.walk ft.edge r q := by
  induction q generalizing r with
  | nil => rfl
  | cons x q ih =>
    simp only [List.mem_cons, not_or] at clean
    rw [FileTree.follow, if_neg (Ne.symm clean.1), Walk.walk]
    cases ft.edge r x with
    | none => rfl
    | some c => exact ih c clean.2

theorem findNode_eq (ft : FileTree) {path : String} (clean : CleanPath path) :
    ft.findNode path = ft.nodeAt (pathParts path) := by
  rw [FileTree.findNode, FileTree.findNodeLocked, if_neg clean.cleanPath_ne]
  exact follow_eq_walk ft root clean

end DfsFuzz.Tree
