import DfsFuzz.Prog.BrokenRefs

/-!
`Clone` copies a program with all its links (`prog/clone.go`).
-/

namespace DfsFuzz.Refs

/-! ### One result argument -/

/-- What `Clone` has made of the result arguments in `done`. -/
structure Copied (m0 : Memory) (done : List Addr) (s : Cloning) : Prop where
  grown : m0.next ≤ s.memory.next
  old : ∀ a < m0.next, s.memory.results a = m0.results a
  known : ∀ a, a ∈ done ↔ ∃ a1, s.newargs a = some a1
  fresh : ∀ a a1, s.newargs a = some a1 → m0.next ≤ a1 ∧ a1 < s.memory.next
  apart : ∀ a b c, s.newargs a = some c → s.newargs b = some c → a = b
  closed : ∀ a ∈ done, ∀ res, (m0.results a).res = some res → res ∈ done
  node : ∀ a a1, s.newargs a = some a1 →
    { s.memory.results a1 with uses := [] } = { m0.results a with res := (m0.results a).res.bind s.newargs, uses := [] }
  nodup : ∀ a a1, s.newargs a = some a1 → (s.memory.results a1).uses.Nodup
  uses : ∀ a a1, s.newargs a = some a1 →
    ∀ b1, b1 ∈ (s.memory.results a1).uses ↔ ∃ b, s.newargs b = some b1 ∧ (m0.results b).res = some a

structure Copyable (m0 : Memory) (done : List Addr) (a : Addr) : Prop where
  new : a ∉ done
  allocated : a < m0.next
  earlier : ∀ res, (m0.results a).res = some res → res ∈ done

/-- The copies that exist stay, and everything allocated on the way is new. -/
structure Cloning.Grows (s t : Cloning) : Prop where
  next : s.memory.next ≤ t.memory.next
  kept : ∀ a a1, s.newargs a = some a1 → t.newargs a = some a1

variable {s t : Cloning}

theorem Cloning.Grows.trans {u : Cloning} (first : s.Grows t) (second : t.Grows u) : s.Grows u :=
  ⟨Nat.le_trans first.next second.next, fun a a1 here => second.kept a a1 (first.kept a a1 here)⟩

variable {m0 : Memory} {done : List Addr}

theorem Copied.new (copied : Copied m0 done s) : Copied m0 done s.new where
  grown := Nat.le_succ_of_le copied.grown
  old := copied.old
  known := copied.known
  fresh := fun a a1 here => ⟨(copied.fresh a a1 here).1, Nat.lt_succ_of_lt (copied.fresh a a1 here).2⟩
  apart := copied.apart
  closed := copied.closed
  node := copied.node
  nodup := copied.nodup
  uses := copied.uses

theorem Cloning.grows_new (s : Cloning) : s.Grows s.new := ⟨Nat.le_succ _, fun _ _ here => here⟩

/-- The state after `a` has been copied to `s.memory.next`. -/
structure Extended (m0 : Memory) (s t : Cloning) (a : Addr) : Prop where
  next : t.memory.next = s.memory.next + 1
  newargs : t.newargs = Function.update s.newargs a (some s.memory.next)
  fresh : t.memory.results s.memory.next =
    { m0.results a with res := (m0.results a).res.bind s.newargs, uses := [] }
  others : ∀ b ≠ s.memory.next, { t.memory.results b with uses := [] } = { s.memory.results b with uses := [] }
  uses : ∀ b ≠ s.memory.next, (t.memory.results b).uses =
    if (m0.results a).res.bind s.newargs = some b then (s.memory.results b).uses ++ [s.memory.next] else (s.memory.results b).uses

variable {a : Addr}

theorem cloneResult_extended (copied : Copied m0 done s) (copyable : Copyable m0 done a) :
    ∃ t, cloneResult a s = some (s.memory.next, t) ∧ Extended m0 s t a := by
  have same : s.memory.results a = m0.results a := copied.old a copyable.allocated
  cases here : (m0.results a).res with
  | none =>
    simp only [cloneResult, same, here]
    refine ⟨_, rfl, rfl, rfl, ?_, fun b different => ?_, fun b different => ?_⟩
    · simp [Memory.alloc, here]
    · simp [Memory.alloc, different]
    · simp [Memory.alloc, different, here]
  | some res =>
    obtain ⟨r, copy⟩ := (copied.known res).mp (copyable.earlier res here)
    have below := (copied.fresh res r copy).2
    have unused : s.memory.next ∉ (s.memory.results r).uses := by
      intro member
      obtain ⟨b, at_next, -⟩ := (copied.uses res r copy _).mp member
      exact Nat.lt_irrefl _ (copied.fresh b _ at_next).2
    have apart : r ≠ s.memory.next := Nat.ne_of_lt below
    simp only [cloneResult, same, here, copy]
    refine ⟨_, rfl, ?_, rfl, ?_, fun b different => ?_, fun b different => ?_⟩
    all_goals simp only [Memory.addUse, Memory.alloc, Function.update_of_ne apart, unused, if_false, Memory.set]
    · simp [here, copy, Function.update_of_ne apart.symm]
    · rw [Function.update_of_ne different]
      by_cases target : b = r
      · subst target
        simp
      · simp [target, different]
    · rw [Function.update_of_ne different]
      by_cases target : b = r
      · subst target
        simp [here, copy]
      · simp [here, copy, target, different, Ne.symm target]

theorem Extended.newargs_self (extended : Extended m0 s t a) : t.newargs a = some s.memory.next := by
  rw [extended.newargs, Function.update_self]

theorem Extended.newargs_ne {b : Addr} (extended : Extended m0 s t a) (different : b ≠ a) :
    t.newargs b = s.newargs b := by
  rw [extended.newargs, Function.update_of_ne different]

theorem Extended.copied (extended : Extended m0 s t a) (before : Copied m0 done s) (copyable : Copyable m0 done a) :
    Copied m0 (done ++ [a]) t := by
  have absent : s.newargs a = none := by
    cases here : s.newargs a with
    | none => rfl
    | some a1 => exact absurd ((before.known a).mpr ⟨a1, here⟩) copyable.new
  have cases_of : ∀ b b1, t.newargs b = some b1 → (b = a ∧ b1 = s.memory.next) ∨ (b ≠ a ∧ s.newargs b = some b1 ∧ b1 ≠ s.memory.next) := by
    intro b b1 here
    by_cases same : b = a
    · subst same
      rw [extended.newargs_self] at here
      exact .inl ⟨rfl, (Option.some.inj here).symm⟩
    · rw [extended.newargs_ne same] at here
      exact .inr ⟨same, here, Nat.ne_of_lt (before.fresh b b1 here).2⟩
  -- the reference of a copied argument is to an earlier one
  have linked : ∀ b ∈ done ++ [a], (m0.results b).res.bind t.newargs = (m0.results b).res.bind s.newargs := by
    intro b member
    cases link : (m0.results b).res with
    | none => rfl
    | some res =>
      have inside : res ∈ done := by
        rcases List.mem_append.mp member with earlier | last
        · exact before.closed b earlier res link
        · obtain rfl := List.mem_singleton.mp last
          exact copyable.earlier res link
      exact extended.newargs_ne fun same => copyable.new (same ▸ inside)
  have no_user : ∀ b, (m0.results b).res = some a → b ∉ done ++ [a] := by
    intro b link member
    rcases List.mem_append.mp member with earlier | last
    · exact copyable.new (before.closed b earlier a link)
    · obtain rfl := List.mem_singleton.mp last
      exact copyable.new (copyable.earlier b link)
  constructor
  case grown =>
    rw [extended.next]
    exact Nat.le_succ_of_le before.grown
  case old =>
    intro b below
    have different : b ≠ s.memory.next := Nat.ne_of_lt (Nat.lt_of_lt_of_le below before.grown)
    have untouched : (m0.results a).res.bind s.newargs ≠ some b := by
      intro link
      obtain ⟨res, -, copy⟩ := Option.bind_eq_some_iff.mp link
      exact absurd (before.fresh res b copy).1 (Nat.not_le.mpr below)
    have uses := extended.uses b different
    rw [if_neg untouched] at uses
    have others := extended.others b different
    rw [ResultArg.mk.injEq] at others
    rw [← before.old b below]
    generalize t.memory.results b = x at uses others
    generalize s.memory.results b = y at uses others
    obtain ⟨c1, r1, d1, e1, v1, u1⟩ := x
    obtain ⟨c2, r2, d2, e2, v2, u2⟩ := y
    simp only at uses others
    obtain ⟨rfl, rfl, rfl, rfl, rfl, -⟩ := others
    rw [uses]
  case known =>
    intro b
    rw [List.mem_append, List.mem_singleton]
    by_cases same : b = a
    · subst same
      simp [extended.newargs_self]
    · rw [extended.newargs_ne same, ← before.known b]
      simp [same]
  case fresh =>
    intro b b1 here
    rw [extended.next]
    rcases cases_of b b1 here with ⟨rfl, rfl⟩ | ⟨-, earlier, -⟩
    · exact ⟨before.grown, Nat.lt_succ_self _⟩
    · exact ⟨(before.fresh b b1 earlier).1, Nat.lt_succ_of_lt (before.fresh b b1 earlier).2⟩
  case apart =>
    intro b c d first second
    rcases cases_of b d first with ⟨rfl, rfl⟩ | ⟨-, firstOld, notNew⟩
    · rcases cases_of c _ second with ⟨rfl, -⟩ | ⟨-, -, other⟩
      · rfl
      · exact absurd rfl other
    · rcases cases_of c d second with ⟨rfl, new⟩ | ⟨-, secondOld, -⟩
      · exact absurd new notNew
      · exact before.apart b c d firstOld secondOld
  case closed =>
    intro b member res link
    rcases List.mem_append.mp member with earlier | last
    · exact List.mem_append_left _ (before.closed b earlier res link)
    · obtain rfl := List.mem_singleton.mp last
      exact List.mem_append_left _ (copyable.earlier res link)
  case node =>
    intro b b1 here
    rcases cases_of b b1 here with ⟨rfl, rfl⟩ | ⟨-, earlier, different⟩
    · rw [linked b (by simp), extended.fresh]
    · rw [linked b (List.mem_append_left _ ((before.known b).mpr ⟨b1, earlier⟩)), extended.others b1 different]
      exact before.node b b1 earlier
  case nodup =>
    intro b b1 here
    rcases cases_of b b1 here with ⟨rfl, rfl⟩ | ⟨-, earlier, different⟩
    · rw [extended.fresh]
      exact List.nodup_nil
    · rw [extended.uses b1 different]
      split
      · refine List.nodup_append.mpr ⟨before.nodup b b1 earlier, List.nodup_singleton _, ?_⟩
        intro c1 member d1 last same
        obtain ⟨c, at_next, -⟩ := (before.uses b b1 earlier c1).mp member
        rw [same, List.mem_singleton.mp last] at at_next
        exact Nat.lt_irrefl _ (before.fresh c _ at_next).2
      · exact before.nodup b b1 earlier
  case uses =>
    intro b b1 here c1
    rcases cases_of b b1 here with ⟨rfl, rfl⟩ | ⟨other, earlier, different⟩
    · rw [extended.fresh]
      simp only [List.not_mem_nil, false_iff, not_exists, not_and]
      intro c copy link
      refine no_user c link ?_
      rcases cases_of c c1 copy with ⟨rfl, -⟩ | ⟨-, old, -⟩
      · simp
      · exact List.mem_append_left _ ((before.known c).mpr ⟨c1, old⟩)
    · have old_users : (∃ c, s.newargs c = some c1 ∧ (m0.results c).res = some b) ↔
          ∃ c, c ≠ a ∧ t.newargs c = some c1 ∧ (m0.results c).res = some b := by
        constructor
        · rintro ⟨c, copy, link⟩
          have notNew : c ≠ a := by
            rintro rfl
            rw [absent] at copy
            cases copy
          exact ⟨c, notNew, by rwa [extended.newargs_ne notNew], link⟩
        · rintro ⟨c, notNew, copy, link⟩
          exact ⟨c, by rwa [extended.newargs_ne notNew] at copy, link⟩
      rw [extended.uses b1 different]
      by_cases target : (m0.results a).res.bind s.newargs = some b1
      · obtain ⟨res, link, copy⟩ := Option.bind_eq_some_iff.mp target
        obtain rfl := before.apart res b b1 copy earlier
        rw [if_pos target, List.mem_append, before.uses res b1 earlier, old_users, List.mem_singleton]
        constructor
        · rintro (⟨c, -, copy', link'⟩ | rfl)
          · exact ⟨c, copy', link'⟩
          · exact ⟨a, extended.newargs_self, link⟩
        · rintro ⟨c, copy', link'⟩
          rcases cases_of c c1 copy' with ⟨-, new⟩ | ⟨notNew, -, -⟩
          · exact .inr new
          · exact .inl ⟨c, notNew, copy', link'⟩
      · rw [if_neg target, before.uses b b1 earlier, old_users]
        constructor
        · rintro ⟨c, -, copy', link'⟩
          exact ⟨c, copy', link'⟩
        · rintro ⟨c, copy', link'⟩
          refine ⟨c, ?_, copy', link'⟩
          rintro rfl
          exact target (by rw [link', Option.bind_some, earlier])

theorem Extended.grows (extended : Extended m0 s t a) (before : Copied m0 done s) (copyable : Copyable m0 done a) :
    s.Grows t := by
  refine ⟨extended.next ▸ Nat.le_succ _, fun b b1 here => ?_⟩
  have different : b ≠ a := by
    rintro rfl
    exact copyable.new ((before.known b).mpr ⟨b1, here⟩)
  rwa [extended.newargs_ne different]

/-! ### Trees -/

mutual

/-- The tree without the addresses of its plain objects, and `f` at its result arguments. -/
def relabel (f : Addr → Addr) : Arg → Arg
  | .const _ common val => .const 0 common val
  | .vma _ common address vmaSize => .vma 0 common address vmaSize
  | .pointer _ common address vmaSize res => .pointer 0 common address vmaSize (relabel f res)
  | .data _ common data size => .data 0 common data size
  | .group _ common inner => .group 0 common (relabelList f inner)
  | .union _ common option index => .union 0 common (relabel f option) index
  | .result a => .result (f a)

def relabelList (f : Addr → Addr) : List Arg → List Arg
  | [] => []
  | arg :: rest => relabel f arg :: relabelList f rest

end

mutual

theorem resultsOf_relabel (f : Addr → Addr) (arg : Arg) : resultsOf (relabel f arg) = (resultsOf arg).map f := by
  match arg with
  | .const _ _ _ | .vma _ _ _ _ | .data _ _ _ _ | .result _ => simp [relabel, resultsOf]
  | .pointer _ _ _ _ res => simp only [relabel, resultsOf, resultsOf_relabel f res]
  | .group _ _ inner => simp only [relabel, resultsOf, resultsOfList_relabel f inner]
  | .union _ _ option _ => simp only [relabel, resultsOf, resultsOf_relabel f option]

theorem resultsOfList_relabel (f : Addr → Addr) (args : List Arg) :
    resultsOfList (relabelList f args) = (resultsOfList args).map f := by
  match args with
  | [] => rfl
  | arg :: rest =>
    simp only [relabelList, resultsOfList, resultsOf_relabel f arg, resultsOfList_relabel f rest, List.map_append]

end

mutual

theorem relabel_congr {f g : Addr → Addr} (arg : Arg) (same : ∀ a ∈ resultsOf arg, f a = g a) : relabel f arg = relabel g arg := by
  match arg with
  | .const _ _ _ | .vma _ _ _ _ | .data _ _ _ _ => rfl
  | .pointer _ _ _ _ res => simp only [relabel, relabel_congr res same]
  | .group _ _ inner => simp only [relabel, relabelList_congr inner same]
  | .union _ _ option _ => simp only [relabel, relabel_congr option same]
  | .result a => simp only [relabel, same a List.mem_cons_self]

theorem relabelList_congr {f g : Addr → Addr} (args : List Arg) (same : ∀ a ∈ resultsOfList args, f a = g a) :
    relabelList f args = relabelList g args := by
  match args with
  | [] => rfl
  | arg :: rest =>
    rw [resultsOfList] at same
    rw [relabelList, relabelList, relabel_congr arg fun a member => same a (List.mem_append_left _ member),
      relabelList_congr rest fun a member => same a (List.mem_append_right _ member)]

end

def Cloning.copyOf (s : Cloning) (a : Addr) : Addr := (s.newargs a).getD 0

theorem Cloning.Grows.copyOf (grows : s.Grows t) (copied : Copied m0 done s) (member : a ∈ done) :
    t.copyOf a = s.copyOf a := by
  obtain ⟨a1, here⟩ := (copied.known a).mp member
  rw [Cloning.copyOf, Cloning.copyOf, here, grows.kept a a1 here]

/-- The result arguments that are copied next, one after the other. -/
structure Ready (m0 : Memory) (done results : List Addr) : Prop where
  nodup : results.Nodup
  each : ∀ a ∈ results, Copyable m0 done a

theorem Ready.left {first second : List Addr} (ready : Ready m0 done (first ++ second)) : Ready m0 done first :=
  ⟨(List.nodup_append.mp ready.nodup).1, fun a member => ready.each a (List.mem_append_left _ member)⟩

theorem Ready.right {first second : List Addr} (ready : Ready m0 done (first ++ second)) :
    Ready m0 (done ++ first) second := by
  refine ⟨(List.nodup_append.mp ready.nodup).2.1, fun a member => ?_⟩
  have copyable := ready.each a (List.mem_append_right _ member)
  refine ⟨fun before => ?_, copyable.allocated, fun res link => List.mem_append_left _ (copyable.earlier res link)⟩
  rcases List.mem_append.mp before with earlier | here
  · exact copyable.new earlier
  · exact (List.nodup_append.mp ready.nodup).2.2 a here a member rfl

/-- A copy of `arg` with new objects only. -/
structure IsCopy (s t : Cloning) (arg arg1 : Arg) : Prop where
  shape : relabel id arg1 = relabel t.copyOf arg
  objects : ∀ x ∈ objectsOf arg1, s.memory.next ≤ x ∧ x < t.memory.next

structure IsCopyList (s t : Cloning) (args args1 : List Arg) : Prop where
  shape : relabelList id args1 = relabelList t.copyOf args
  objects : ∀ x ∈ objectsOfList args1, s.memory.next ≤ x ∧ x < t.memory.next

theorem cloneResult_copied (copied : Copied m0 done s) (ready : Ready m0 done [a]) :
    ∃ a1 t, cloneResult a s = some (a1, t) ∧ Copied m0 (done ++ [a]) t ∧ s.Grows t ∧
      a1 = t.copyOf a ∧ s.memory.next ≤ a1 ∧ a1 < t.memory.next := by
  have copyable := ready.each a List.mem_cons_self
  obtain ⟨t, run, extended⟩ := cloneResult_extended copied copyable
  refine ⟨_, t, run, extended.copied copied copyable, extended.grows copied copyable, ?_, Nat.le_refl _, ?_⟩
  · rw [Cloning.copyOf, extended.newargs_self, Option.getD_some]
  · rw [extended.next]
    exact Nat.lt_succ_self _

theorem objects_around {inner : List Addr} (grows : s.new.Grows t)
    (inside : ∀ x ∈ inner, s.new.memory.next ≤ x ∧ x < t.memory.next) :
    ∀ x ∈ s.memory.next :: inner, s.memory.next ≤ x ∧ x < t.memory.next := by
  intro x member
  rcases List.mem_cons.mp member with rfl | part
  · exact ⟨Nat.le_refl _, grows.next⟩
  · exact ⟨Nat.le_of_succ_le (inside x part).1, (inside x part).2⟩

mutual

theorem clone_copied {m0 : Memory} (arg : Arg) {done : List Addr} {s : Cloning} (copied : Copied m0 done s)
    (ready : Ready m0 done (resultsOf arg)) : ∃ arg1 t, clone arg s = some (arg1, t) ∧
      Copied m0 (done ++ resultsOf arg) t ∧ s.Grows t ∧ IsCopy s t arg arg1 := by
  match arg with
  | .const _ common val | .vma _ common address vmaSize | .data _ common data size =>
    refine ⟨_, _, rfl, ?_, s.grows_new, rfl, ?_⟩
    · simpa [resultsOf] using copied.new
    · intro x member
      obtain rfl := List.mem_singleton.mp member
      exact ⟨Nat.le_refl _, Nat.lt_succ_self _⟩
  | .pointer _ common address vmaSize res =>
    obtain ⟨res1, t, run, after, grows, copy⟩ := clone_copied res copied.new ready
    refine ⟨.pointer s.memory.next common address vmaSize res1, t, ?_, after, s.grows_new.trans grows, ?_, objects_around grows copy.objects⟩
    · rw [clone, run, Option.map_some]
    · rw [relabel, relabel, copy.shape]
  | .group _ common inner =>
    obtain ⟨inner1, t, run, after, grows, copy⟩ := cloneList_copied inner copied.new ready
    refine ⟨.group s.memory.next common inner1, t, ?_, after, s.grows_new.trans grows, ?_, objects_around grows copy.objects⟩
    · rw [clone, run, Option.map_some]
    · rw [relabel, relabel, copy.shape]
  | .union _ common option index =>
    obtain ⟨option1, t, run, after, grows, copy⟩ := clone_copied option copied.new ready
    refine ⟨.union s.memory.next common option1 index, t, ?_, after, s.grows_new.trans grows, ?_, objects_around grows copy.objects⟩
    · rw [clone, run, Option.map_some]
    · rw [relabel, relabel, copy.shape]
  | .result a =>
    obtain ⟨a1, t, run, after, grows, same, above, below⟩ := cloneResult_copied copied ready
    refine ⟨_, t, by rw [clone, run]; rfl, after, grows, ?_, ?_⟩
    · rw [relabel, relabel, ← same, id]
    · intro x member
      obtain rfl := List.mem_singleton.mp member
      exact ⟨above, below⟩

theorem cloneList_copied {m0 : Memory} (args : List Arg) {done : List Addr} {s : Cloning} (copied : Copied m0 done s)
    (ready : Ready m0 done (resultsOfList args)) : ∃ args1 t, cloneList args s = some (args1, t) ∧
      Copied m0 (done ++ resultsOfList args) t ∧ s.Grows t ∧ IsCopyList s t args args1 := by
  match args with
  | [] => exact ⟨[], s, rfl, by simpa [resultsOfList] using copied, ⟨Nat.le_refl _, fun _ _ here => here⟩, rfl, by simp [objectsOfList]⟩
  | arg :: rest =>
    rw [resultsOfList] at ready
    obtain ⟨arg1, t, run, middle, grows, copy⟩ := clone_copied arg copied ready.left
    obtain ⟨rest1, u, run', after, grows', copy'⟩ := cloneList_copied rest middle ready.right
    refine ⟨arg1 :: rest1, u, ?_, ?_, grows.trans grows', ?_, ?_⟩
    · simp only [cloneList, run, Option.bind_some, run', Option.map_some]
    · rw [resultsOfList, ← List.append_assoc]
      exact after
    · rw [relabelList, relabelList, copy.shape, copy'.shape]
      rw [relabel_congr arg fun a member => (grows'.copyOf middle (List.mem_append_right _ member)).symm]
    · intro x member
      rcases List.mem_append.mp member with first | later
      · exact ⟨(copy.objects x first).1, Nat.lt_of_lt_of_le (copy.objects x first).2 grows'.next⟩
      · exact ⟨Nat.le_trans grows.next (copy'.objects x later).1, (copy'.objects x later).2⟩

end

/-! ### Programs -/

theorem cloneRet_copied (ret : Option Addr) (copied : Copied m0 done s) (ready : Ready m0 done ret.toList) :
    ∃ ret1 t, cloneRet ret s = some (ret1, t) ∧ Copied m0 (done ++ ret.toList) t ∧
      s.Grows t ∧ ret1 = ret.map t.copyOf ∧ ∀ x ∈ ret1.toList, s.memory.next ≤ x ∧ x < t.memory.next := by
  cases ret with
  | none => exact ⟨none, s, rfl, by simpa using copied, ⟨Nat.le_refl _, fun _ _ here => here⟩, rfl, by simp⟩
  | some a =>
    obtain ⟨a1, t, run, after, grows, same, above, below⟩ := cloneResult_copied copied ready
    refine ⟨some a1, t, ?_, after, grows, by rw [same, Option.map_some], ?_⟩
    · rw [cloneRet, run, Option.map_some]
    · simpa using ⟨above, below⟩

/-- A copy of a call under the map `f`: the same data, `f` of its result arguments. -/
structure CallCopy (f : Addr → Addr) (c c1 : Call) : Prop where
  name : c1.name = c.name
  props : c1.props = c.props
  isFCall : c1.isFCall = c.isFCall
  checkInfo : c1.checkInfo = c.checkInfo
  ret : c1.ret = c.ret.map f
  args : relabelList id c1.args = relabelList f c.args

theorem CallCopy.results {f : Addr → Addr} {c c1 : Call} (copy : CallCopy f c c1) : c1.results = c.results.map f := by
  have args := congrArg resultsOfList copy.args
  rw [resultsOfList_relabel, resultsOfList_relabel, List.map_id] at args
  rw [Call.results, Call.results, args, copy.ret, List.map_append]
  cases c.ret <;> rfl

theorem CallCopy.congr {f g : Addr → Addr} {c c1 : Call} (copy : CallCopy f c c1) (same : ∀ a ∈ c.results, f a = g a) :
    CallCopy g c c1 where
  name := copy.name
  props := copy.props
  isFCall := copy.isFCall
  checkInfo := copy.checkInfo
  ret := by
    rw [copy.ret]
    exact Option.map_congr fun a member => same a (List.mem_append_left _ (Option.mem_toList.mpr member))
  args := by
    rw [copy.args]
    exact relabelList_congr c.args fun a member => same a (List.mem_append_right _ member)

theorem cloneCall_copied (c : Call) (copied : Copied m0 done s) (ready : Ready m0 done c.results) :
    ∃ c1 t, cloneCall c s = some (c1, t) ∧ Copied m0 (done ++ c.results) t ∧ s.Grows t ∧
      CallCopy t.copyOf c c1 ∧ ∀ x ∈ c1.objects, s.memory.next ≤ x ∧ x < t.memory.next := by
  rw [Call.results] at ready
  obtain ⟨ret1, t, run, middle, grows, ret, inRet⟩ := cloneRet_copied c.ret copied ready.left
  obtain ⟨args1, u, run', after, grows', copy⟩ := cloneList_copied c.args middle ready.right
  refine ⟨{ name := c.name, isFCall := c.isFCall, ret := ret1, args := args1, props := c.props, checkInfo := c.checkInfo },
    u, ?_, ?_, grows.trans grows', ⟨rfl, rfl, rfl, rfl, ?_, copy.shape⟩, ?_⟩
  · simp only [cloneCall, run, Option.bind_some, run', Option.map_some]
  · rw [Call.results, ← List.append_assoc]
    exact after
  · rw [ret]
    exact Option.map_congr fun a member =>
      (grows'.copyOf middle (List.mem_append_right _ (Option.mem_toList.mpr member))).symm
  · intro x member
    rcases List.mem_append.mp member with first | later
    · exact ⟨(inRet x first).1, Nat.lt_of_lt_of_le (inRet x first).2 grows'.next⟩
    · exact ⟨Nat.le_trans grows.next (copy.objects x later).1, (copy.objects x later).2⟩

/-- Every reference goes back to a call before, or to what is done already. -/
def Onward (m0 : Memory) : List Addr → List Call → Prop
  | _, [] => True
  | done, c :: rest =>
    (∀ a ∈ c.results, ∀ res, (m0.results a).res = some res → res ∈ done) ∧ Onward m0 (done ++ c.results) rest

theorem cloneCalls_copied (calls : List Call) (copied : Copied m0 done s) (onward : Onward m0 done calls)
    (once : (done ++ calls.flatMap Call.results).Nodup) (allocated : ∀ a ∈ calls.flatMap Call.results, a < m0.next) :
    ∃ calls1 t, cloneCalls calls s = some (calls1, t) ∧
      Copied m0 (done ++ calls.flatMap Call.results) t ∧ s.Grows t ∧ List.Forall₂ (CallCopy t.copyOf) calls calls1 ∧
      ∀ x ∈ calls1.flatMap Call.objects, s.memory.next ≤ x ∧ x < t.memory.next := by
  induction calls generalizing done s with
  | nil => exact ⟨[], s, rfl, by simpa using copied, ⟨Nat.le_refl _, fun _ _ here => here⟩, .nil, by simp⟩
  | cons c rest ih =>
    rw [List.flatMap_cons] at once allocated
    have apart := List.nodup_append.mp once
    have ready : Ready m0 done c.results := by
      refine ⟨(List.nodup_append.mp apart.2.1).1, fun a member => ⟨fun before => ?_, ?_, onward.1 a member⟩⟩
      · exact apart.2.2 a before a (List.mem_append_left _ member) rfl
      · exact allocated a (List.mem_append_left _ member)
    obtain ⟨c1, t, run, middle, grows, copy, objects⟩ := cloneCall_copied c copied ready
    obtain ⟨rest1, u, run', after, grows', copies, objects'⟩ := ih middle onward.2 (by rw [List.append_assoc]; exact once)
      fun a member => allocated a (List.mem_append_right _ member)
    refine ⟨c1 :: rest1, u, ?_, ?_, grows.trans grows', .cons ?_ copies, ?_⟩
    · simp only [cloneCalls, run, Option.bind_some, run', Option.map_some]
    · rw [List.flatMap_cons, ← List.append_assoc]
      exact after
    · exact copy.congr fun a member => (grows'.copyOf middle (List.mem_append_right _ member)).symm
    · intro x member
      rcases List.mem_append.mp member with first | later
      · exact ⟨(objects x first).1, Nat.lt_of_lt_of_le (objects x first).2 grows'.next⟩
      · exact ⟨Nat.le_trans grows.next (objects' x later).1, (objects' x later).2⟩

theorem onward_of_backward {m : Memory} {calls before rest : List Call} (backward : Backward m calls) (cut : calls = before ++ rest) :
    Onward m (before.flatMap Call.results) rest := by
  induction rest generalizing before with
  | nil => exact trivial
  | cons c rest ih =>
    refine ⟨fun a member res link => ?_, ?_⟩
    · obtain ⟨j, less, d, there, owned⟩ := backward before.length c (by simp [cut]) a member res link
      rw [cut, List.getElem?_append_left less] at there
      exact List.mem_flatMap.mpr ⟨d, List.mem_of_getElem? there, mem_results_of_owned owned⟩
    · have next := ih (show calls = before ++ [c] ++ rest by rw [cut, List.append_cons])
      rw [List.flatMap_append, List.flatMap_singleton] at next
      exact next

/-- The copy of a program under the map `f` of its result arguments. -/
structure IsClone (m : Memory) (p : Prog) (m1 : Memory) (p1 : Prog) (f : Addr → Addr) : Prop where
  calls : List.Forall₂ (CallCopy f) p.calls p1.calls
  apart : ∀ a ∈ p.results, ∀ b ∈ p.results, f a = f b → a = b
  node : ∀ a ∈ p.results,
    { m1.results (f a) with uses := [] } = { m.results a with res := (m.results a).res.map f, uses := [] }
  flags : p1.flags = p.flags
  srvFailPos : p1.srvFailPos = p.srvFailPos
  srvFailOrder : p1.srvFailOrder = p.srvFailOrder
  generalFailPos : p1.generalFailPos = p.generalFailPos
  generalBarrierPos : p1.generalBarrierPos = p.generalBarrierPos

section
variable {m m1 : Memory} {p p1 : Prog} {f : Addr → Addr}

theorem IsClone.results (clone : IsClone m p m1 p1 f) : p1.results = p.results.map f := by
  rw [Prog.results, Prog.results]
  have copies := clone.calls
  generalize p.calls = calls at copies
  generalize p1.calls = calls1 at copies
  induction copies with
  | nil => rfl
  | cons copy _ ih => rw [List.flatMap_cons, List.flatMap_cons, copy.results, ih, List.map_append]

theorem IsClone.res (clone : IsClone m p m1 p1 f) (member : a ∈ p.results) :
    (m1.results (f a)).res = (m.results a).res.map f := by
  have node := clone.node a member
  rw [ResultArg.mk.injEq] at node
  exact node.2.1

theorem IsClone.dir (clone : IsClone m p m1 p1 f) (member : a ∈ p.results) :
    (m1.results (f a)).common = (m.results a).common := by
  have node := clone.node a member
  rw [ResultArg.mk.injEq] at node
  exact node.1

theorem IsClone.owned (clone : IsClone m p m1 p1 f) {c c1 : Call} (inside : c ∈ p.calls) (copy : CallCopy f c c1) :
    c1.owned m1 = (c.owned m).map f := by
  have args := congrArg resultsOfList copy.args
  rw [resultsOfList_relabel, resultsOfList_relabel, List.map_id] at args
  rw [Call.owned, Call.owned, args, copy.ret, List.map_append, List.filter_map]
  congr 1
  · cases c.ret <;> rfl
  · refine congrArg (List.map f) (List.filter_congr fun a member => ?_)
    have there : a ∈ p.results := List.mem_flatMap.mpr ⟨c, inside, List.mem_append_right _ member⟩
    simp [clone.dir there]

theorem IsClone.call (clone : IsClone m p m1 p1 f) {i : Nat} {c1 : Call} (here : p1.calls[i]? = some c1) :
    ∃ c, p.calls[i]? = some c ∧ CallCopy f c c1 := by
  obtain ⟨inside, rfl⟩ := List.getElem?_eq_some_iff.mp here
  have below : i < p.calls.length := by
    rw [clone.calls.length_eq]
    exact inside
  exact ⟨p.calls[i], List.getElem?_eq_getElem below, clone.calls.get below inside⟩

theorem IsClone.backward (clone : IsClone m p m1 p1 f) (backward : Backward m p.calls) : Backward m1 p1.calls := by
  intro i c1 here a1 member res1 link
  obtain ⟨c, there, copy⟩ := clone.call here
  rw [copy.results] at member
  obtain ⟨a, inside, rfl⟩ := List.mem_map.mp member
  have known : a ∈ p.results := List.mem_flatMap.mpr ⟨c, List.mem_of_getElem? there, inside⟩
  rw [clone.res known] at link
  obtain ⟨res, original, rfl⟩ := Option.map_eq_some_iff.mp link
  obtain ⟨j, less, d, owner, owned⟩ := backward i c there a inside res original
  have below : j < p1.calls.length := by
    rw [← clone.calls.length_eq]
    exact (List.getElem?_eq_some_iff.mp owner).1
  obtain ⟨d', owner', copy'⟩ := clone.call (List.getElem?_eq_getElem below)
  rw [owner] at owner'
  cases owner'
  refine ⟨j, less, p1.calls[j], List.getElem?_eq_getElem below, ?_⟩
  rw [clone.owned (List.mem_of_getElem? owner) copy']
  exact List.mem_map_of_mem owned

end

theorem Copied.empty (m : Memory) : Copied m [] ⟨m, fun _ => none⟩ where
  grown := Nat.le_refl _
  old := fun _ _ => rfl
  known := by simp
  fresh := nofun
  apart := nofun
  closed := nofun
  node := nofun
  nodup := nofun
  uses := nofun

theorem Copied.copyOf {m : Memory} (copied : Copied m done s) (member : a ∈ done) :
    s.newargs a = some (s.copyOf a) := by
  obtain ⟨a1, here⟩ := (copied.known a).mp member
  rw [Cloning.copyOf, here, Option.getD_some]

theorem Copied.isClone {m : Memory} {p p1 : Prog} (copied : Copied m p.results s)
    (calls : List.Forall₂ (CallCopy s.copyOf) p.calls p1.calls)
    (rest : { p1 with calls := p.calls } = { p with comments := [] }) : IsClone m p s.memory p1 s.copyOf := by
  obtain ⟨-, -, flags, fail, order, general, barrier⟩ := Prog.mk.injEq .. ▸ rest
  refine ⟨calls, ?_, ?_, flags, fail, order, general, barrier⟩
  · intro a inFirst b inSecond same
    exact copied.apart a b _ (copied.copyOf inFirst) (same ▸ copied.copyOf inSecond)
  · intro a member
    rw [copied.node a _ (copied.copyOf member)]
    cases link : (m.results a).res with
    | none => rfl
    | some res => rw [Option.bind_some, Option.map_some, copied.copyOf (copied.closed a member res link)]

theorem Copied.linked {m : Memory} {p p1 : Prog} (copied : Copied m p.results s) (linked : Linked m p)
    (clone : IsClone m p s.memory p1 s.copyOf) : Linked s.memory p1 := by
  have once : p1.results.Nodup := by
    rw [clone.results]
    exact linked.once.map_on fun a first b second => clone.apart a first b second
  refine ⟨once, fun a1 member => ?_, (hasBrokenRefs_iff once).mpr (clone.backward ((hasBrokenRefs_iff linked.once).mp linked.unbroken))⟩
  rw [clone.results] at member
  obtain ⟨a, inside, rfl⟩ := List.mem_map.mp member
  refine ⟨copied.nodup a _ (copied.copyOf inside), fun b1 => ?_⟩
  rw [copied.uses a _ (copied.copyOf inside), clone.results]
  constructor
  · rintro ⟨b, copy, link⟩
    have user : b ∈ p.results := (copied.known b).mpr ⟨b1, copy⟩
    obtain rfl := Option.some.inj ((copied.copyOf user).symm.trans copy)
    exact ⟨List.mem_map_of_mem user, by rw [clone.res user, link, Option.map_some]⟩
  · rintro ⟨user1, link1⟩
    obtain ⟨b, user, rfl⟩ := List.mem_map.mp user1
    rw [clone.res user] at link1
    obtain ⟨res, link, same⟩ := Option.map_eq_some_iff.mp link1
    have target : res ∈ p.results := copied.closed b user res link
    exact ⟨b, copied.copyOf user, by rw [link, clone.apart res target a inside same]⟩

/-- `Clone` returns an isomorphic program of new objects with the same links; the memory of the old one stays. -/
theorem clone_linked {m : Memory} {p : Prog} (linked : Linked m p) (allocated : ∀ x ∈ p.objects, x < m.next) :
    ∃ p1 m1 f, p.clone m = some (p1, m1) ∧ IsClone m p m1 p1 f ∧ (∀ x ∈ p1.objects, x ∉ p.objects) ∧ Linked m1 p1 ∧
      ∀ a < m.next, m1.results a = m.results a := by
  have backward := (hasBrokenRefs_iff linked.once).mp linked.unbroken
  obtain ⟨calls1, s, run, copied, -, copies, objects⟩ :=
    cloneCalls_copied p.calls (Copied.empty m) (onward_of_backward backward (show p.calls = [] ++ p.calls from rfl)) linked.once
      fun a member => allocated a (objects_of_results member)
  have clone : IsClone m p s.memory
      ⟨calls1, [], p.flags, p.srvFailPos, p.srvFailOrder, p.generalFailPos, p.generalBarrierPos⟩ s.copyOf :=
    Copied.isClone copied copies rfl
  refine ⟨_, s.memory, s.copyOf, ?_, clone, ?_, Copied.linked copied linked clone, copied.old⟩
  · rw [Prog.clone, run, Option.map_some]
  · intro x new old
    exact absurd (objects x new).1 (Nat.not_le.mpr (allocated x old))

end DfsFuzz.Refs
