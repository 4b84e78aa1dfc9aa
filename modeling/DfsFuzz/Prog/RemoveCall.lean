import DfsFuzz.Prog.Clone
import Mathlib.Data.List.Flatten

/-!
`RemoveCall` takes a call out of the links (`prog/prog.go`).
-/

namespace DfsFuzz.Refs

variable {defaults : Defaults}

theorem removeArgs_eq (args : List Arg) (m : Memory) :
    args.foldlM (removeArg defaults) m = (resultsOfList args).foldlM (removeResult defaults) m := by
  induction args generalizing m with
  | nil => rfl
  | cons arg rest ih =>
    rw [List.foldlM_cons, resultsOfList, List.foldlM_append, removeArg]
    exact congrArg _ (funext ih)

/-- The arguments in `users` hold the default now, `a` has only lost uses. -/
structure Defaulted (defaults : Defaults) (m : Memory) (a : Addr) (users : List Addr) (m1 : Memory) : Prop where
  next : m.next ≤ m1.next
  turned : ∀ b ∈ users, m1.results b = { defaultArg defaults (m.results b).common with uses := (m.results b).uses }
  target : { m1.results a with uses := [] } = { m.results a with uses := [] }
  others : ∀ x < m.next, x ∉ users → x ≠ a → m1.results x = m.results x

theorem replaceByDefault_results {m : Memory} {a b : Addr} (link : (m.results b).res = some a) (apart : a ≠ b)
    (inside : a < m.next) (user : b < m.next) :
    (replaceByDefault defaults m b).next = m.next + 1 ∧
      (replaceByDefault defaults m b).results b = { defaultArg defaults (m.results b).common with uses := (m.results b).uses } ∧
      (replaceByDefault defaults m b).results a = { m.results a with uses := (m.results a).uses.erase b } ∧
      ∀ x < m.next, x ≠ a → x ≠ b → (replaceByDefault defaults m b).results x = m.results x := by
  have notA : m.next ≠ a := Nat.ne_of_gt inside
  have notB : m.next ≠ b := Nat.ne_of_gt user
  simp [replaceByDefault, replaceResultArg, Memory.alloc, Memory.deleteUse, Memory.set, notB.symm, link, notA, notA.symm,
    apart, apart.symm, defaultArg]
  intro x below first second
  simp [first, second, Nat.ne_of_lt below]

theorem foldl_replaceByDefault {m : Memory} {a : Addr} {users : List Addr} (nodup : users.Nodup) (inside : a < m.next)
    (each : ∀ b ∈ users, (m.results b).res = some a ∧ a ≠ b ∧ b < m.next) :
    Defaulted defaults m a users (users.foldl (replaceByDefault defaults) m) := by
  induction users generalizing m with
  | nil => exact ⟨Nat.le_refl _, by simp, rfl, fun _ _ _ _ => rfl⟩
  | cons b users ih =>
    obtain ⟨link, apart, user⟩ := each b List.mem_cons_self
    obtain ⟨next, atUser, atTarget, others⟩ := @replaceByDefault_results defaults m a b link apart inside user
    have fresh : b ∉ users := (List.nodup_cons.mp nodup).1
    have grown : m.next ≤ (replaceByDefault defaults m b).next := next ▸ Nat.le_succ _
    have later : ∀ {x}, x < m.next → x < (replaceByDefault defaults m b).next := fun below => next ▸ Nat.lt_succ_of_lt below
    have unchanged : ∀ c ∈ users, (replaceByDefault defaults m b).results c = m.results c := by
      intro c member
      obtain ⟨-, notTarget, below⟩ := each c (List.mem_cons_of_mem _ member)
      exact others c below notTarget.symm fun same => fresh (same ▸ member)
    have rest := ih (m := replaceByDefault defaults m b) (List.nodup_cons.mp nodup).2 (later inside) fun c member => by
      obtain ⟨link', notTarget, below⟩ := each c (List.mem_cons_of_mem _ member)
      exact ⟨by rw [unchanged c member, link'], notTarget, later below⟩
    refine ⟨Nat.le_trans grown rest.next, fun c member => ?_, ?_, fun x below absent notTarget => ?_⟩
    · rcases List.mem_cons.mp member with rfl | behind
      · rw [List.foldl_cons, rest.others c (later user) fresh apart.symm, atUser]
      · rw [List.foldl_cons, rest.turned c behind, unchanged c behind]
    · rw [List.foldl_cons, rest.target, atTarget]
    · rw [List.mem_cons, not_or] at absent
      rw [List.foldl_cons, rest.others x (later below) absent.2 notTarget, others x below notTarget absent.1]

/-! ### The result arguments of a call -/

/-- After `removeArg` of the result arguments in `gone`: what referred to one holds the default, and no use of one is left. -/
structure Pruned (defaults : Defaults) (m : Memory) (p : Prog) (gone : List Addr) (m1 : Memory) : Prop where
  next : m.next ≤ m1.next
  turned : ∀ a ∈ p.results, (∃ r ∈ gone, (m.results a).res = some r) →
    { m1.results a with uses := [] } = defaultArg defaults (m.results a).common
  kept : ∀ a ∈ p.results, (∀ r ∈ gone, (m.results a).res ≠ some r) →
    { m1.results a with uses := [] } = { m.results a with uses := [] }
  uses : ∀ a ∈ p.results, a ∉ gone → (m1.results a).uses = (m.results a).uses.filter fun b => b ∉ gone

theorem Pruned.refl (defaults : Defaults) (m : Memory) (p : Prog) : Pruned defaults m p [] m :=
  ⟨Nat.le_refl _, by simp, fun _ _ _ => rfl, by simp⟩

theorem res_of_sameData {x y : ResultArg} (same : { x with uses := [] } = { y with uses := [] }) : x.res = y.res := by
  rw [ResultArg.mk.injEq] at same
  exact same.2.1

theorem common_of_sameData {x y : ResultArg} (same : { x with uses := [] } = { y with uses := [] }) : x.common = y.common := by
  rw [ResultArg.mk.injEq] at same
  exact same.1

section
variable {m m1 : Memory} {p : Prog} {gone : List Addr} {a : Addr}

/-- `removeArg` first takes `a` out of the uses of its referent; the panic is not reached. -/
theorem Pruned.unlink (pruned : Pruned defaults m p gone m1) (linked : Linked m p)
    (closed : ∀ b ∈ p.results, ∀ res, (m.results b).res = some res → res ∈ p.results) (member : a ∈ p.results) (fresh : a ∉ gone)
    (apart : ∀ r, (m.results a).res = some r → r ∉ gone ∧ r ≠ a) :
    ∃ m2, Refs.unlink m1 a = some m2 ∧ m2.next = m1.next ∧ (∀ x, { m2.results x with uses := [] } = { m1.results x with uses := [] }) ∧
      ∀ x ∈ p.results, x ∉ gone → (m2.results x).uses = (m.results x).uses.filter fun b => b ∉ gone ++ [a] := by
  have same : (m1.results a).res = (m.results a).res :=
    res_of_sameData (pruned.kept a member fun r removed link => (apart r link).1 removed)
  have without : ∀ x ∈ p.results, x ∉ gone → (m.results a).res ≠ some x →
      (m1.results x).uses = (m.results x).uses.filter fun b => b ∉ gone ++ [a] := by
    intro x inside remains notTarget
    rw [pruned.uses x inside remains]
    refine List.filter_congr fun b user => ?_
    have link := (((linked.inverse x inside).2 b).mp user).2
    have different : b ≠ a := by
      rintro rfl
      exact notTarget link
    simp [different]
  rw [Refs.unlink, same]
  cases link : (m.results a).res with
  | none => exact ⟨m1, rfl, rfl, fun _ => rfl, fun x inside remains => without x inside remains (by rw [link]; nofun)⟩
  | some res =>
    have target := closed a member res link
    obtain ⟨remains, different⟩ := apart res link
    have used : a ∈ (m1.results res).uses := by
      rw [pruned.uses res target remains, List.mem_filter]
      exact ⟨((linked.inverse res target).2 a).mpr ⟨member, link⟩, by simpa using fresh⟩
    refine ⟨m1.deleteUse res a, by simp only [used, if_true], rfl, fun x => ?_, fun x inside remains' => ?_⟩
    · by_cases here : x = res
      · subst here
        simp [Memory.deleteUse, Memory.set]
      · simp [Memory.deleteUse, Memory.set, here]
    · by_cases here : x = res
      · subst here
        simp only [Memory.deleteUse, Memory.set, Function.update_self]
        rw [pruned.uses x inside remains']
        have nodup : ((m.results x).uses.filter fun b => b ∉ gone).Nodup := (linked.inverse x inside).1.filter _
        rw [nodup.erase_eq_filter, List.filter_filter]
        refine List.filter_congr fun b _ => ?_
        by_cases last : b = a <;> simp [last]
      · simp only [Memory.deleteUse, Memory.set, Function.update_of_ne here]
        exact without x inside remains' (by rw [link]; exact fun equal => here (Option.some.inj equal).symm)

theorem Pruned.removeResult (pruned : Pruned defaults m p gone m1) (linked : Linked m p)
    (closed : ∀ b ∈ p.results, ∀ res, (m.results b).res = some res → res ∈ p.results) (allocated : ∀ b ∈ p.results, b < m.next)
    (member : a ∈ p.results) (fresh : a ∉ gone) (apart : ∀ r, (m.results a).res = some r → r ∉ gone ∧ r ≠ a)
    (users : ∀ b ∈ gone, (m.results b).res ≠ some a) :
    ∃ m2, removeResult defaults m1 a = some m2 ∧ Pruned defaults m p (gone ++ [a]) m2 := by
  obtain ⟨unlinked, run, next, data, uses⟩ := pruned.unlink linked closed member fresh apart
  have above : m.next ≤ unlinked.next := next ▸ pruned.next
  -- the users of `a` are those of the program before
  have usersEq : (unlinked.results a).uses = (m.results a).uses := by
    rw [uses a member fresh, List.filter_eq_self]
    intro b user
    have link := (((linked.inverse a member).2 b).mp user).2
    have notGone : b ∉ gone := fun removed => users b removed link
    have different : b ≠ a := by
      rintro rfl
      exact (apart b link).2 rfl
    simp [notGone, different]
  have each : ∀ b ∈ (unlinked.results a).uses, (unlinked.results b).res = some a ∧ a ≠ b ∧ b < unlinked.next := by
    intro b user
    rw [usersEq] at user
    obtain ⟨inside, link⟩ := ((linked.inverse a member).2 b).mp user
    refine ⟨?_, ?_, Nat.lt_of_lt_of_le (allocated b inside) above⟩
    · rw [res_of_sameData (data b), ← link]
      refine res_of_sameData (pruned.kept b inside fun r removed other => ?_)
      rw [link] at other
      exact fresh (Option.some.inj other ▸ removed)
    · rintro rfl
      exact (apart a link).2 rfl
  have defaulted := @foldl_replaceByDefault defaults _ _ _ (usersEq ▸ (linked.inverse a member).1)
    (Nat.lt_of_lt_of_le (allocated a member) above) each
  refine ⟨_, by rw [Refs.removeResult, run, Option.map_some], ?_⟩
  generalize (unlinked.results a).uses.foldl (replaceByDefault defaults) unlinked = m2 at defaulted
  have user_iff : ∀ b ∈ p.results, b ∈ (unlinked.results a).uses ↔ (m.results b).res = some a := by
    intro b inside
    rw [usersEq, (linked.inverse a member).2 b]
    exact and_iff_right inside
  have others : ∀ b ∈ p.results, (m.results b).res ≠ some a → { m2.results b with uses := [] } = { m1.results b with uses := [] } := by
    intro b inside notUser
    by_cases same : b = a
    · rw [same, defaulted.target, data]
    · rw [defaulted.others b (Nat.lt_of_lt_of_le (allocated b inside) above) (mt (user_iff b inside).mp notUser) same, data]
  refine ⟨Nat.le_trans above defaulted.next, ?_, ?_, ?_⟩
  · rintro b inside ⟨r, removed, link⟩
    rcases List.mem_append.mp removed with earlier | last
    · rw [others b inside, pruned.turned b inside ⟨r, earlier, link⟩]
      rw [link]
      exact fun equal => fresh (Option.some.inj equal ▸ earlier)
    · obtain rfl := List.mem_singleton.mp last
      rw [defaulted.turned b ((user_iff b inside).mpr link), common_of_sameData (data b)]
      have common : (m1.results b).common = (m.results b).common :=
        common_of_sameData (pruned.kept b inside fun r removed other => by
          rw [link] at other
          exact fresh (Option.some.inj other ▸ removed))
      rw [common]
      rfl
  · intro b inside notUser
    rw [others b inside (notUser a (by simp)), pruned.kept b inside fun r removed => notUser r (List.mem_append_left _ removed)]
  · intro b inside remains
    rw [List.mem_append, List.mem_singleton, not_or] at remains
    have here : (m2.results b).uses = (unlinked.results b).uses := by
      by_cases user : b ∈ (unlinked.results a).uses
      · rw [defaulted.turned b user]
      · rw [defaulted.others b (Nat.lt_of_lt_of_le (allocated b inside) above) user remains.2]
    rw [here, uses b inside remains.1]

theorem removeResults_pruned (results : List Addr) (pruned : Pruned defaults m p gone m1) (linked : Linked m p)
    (closed : ∀ b ∈ p.results, ∀ res, (m.results b).res = some res → res ∈ p.results) (allocated : ∀ b ∈ p.results, b < m.next)
    (inside : ∀ b ∈ gone ++ results, b ∈ p.results) (nodup : (gone ++ results).Nodup)
    (apart : ∀ b ∈ gone ++ results, ∀ r ∈ gone ++ results, (m.results b).res ≠ some r) :
    ∃ m2, results.foldlM (Refs.removeResult defaults) m1 = some m2 ∧ Pruned defaults m p (gone ++ results) m2 := by
  induction results generalizing gone m1 with
  | nil => exact ⟨m1, rfl, by simpa using pruned⟩
  | cons a rest ih =>
    have here : a ∈ gone ++ a :: rest := List.mem_append_right _ List.mem_cons_self
    have fresh : a ∉ gone := fun before => (List.nodup_append.mp nodup).2.2 a before a List.mem_cons_self rfl
    obtain ⟨m2, run, next⟩ := pruned.removeResult linked closed allocated (inside a here) fresh
      (fun r link => ⟨fun removed => apart a here r (List.mem_append_left _ removed) link, fun same => apart a here a here (same ▸ link)⟩)
      fun b removed => apart b (List.mem_append_left _ removed) a here
    rw [List.append_cons] at inside nodup apart
    obtain ⟨m3, run', last⟩ := ih next inside nodup apart
    refine ⟨m3, ?_, by rwa [List.append_cons]⟩
    rw [List.foldlM_cons, run]
    exact run'

end

/-! ### The whole call -/

/-- What `RemoveCall` leaves: the references to the results of the call are default constants, all others are as before. -/
structure Removed (defaults : Defaults) (m : Memory) (p : Prog) (idx : Nat) (m1 : Memory) (p1 : Prog) : Prop where
  prog : p1 = { p with calls := p.calls.eraseIdx idx }
  turned : ∀ c, p.calls[idx]? = some c → ∀ a ∈ p1.results, (∃ r ∈ c.results, (m.results a).res = some r) →
    { m1.results a with uses := [] } = defaultArg defaults (m.results a).common
  kept : ∀ c, p.calls[idx]? = some c → ∀ a ∈ p1.results, (∀ r ∈ c.results, (m.results a).res ≠ some r) →
    { m1.results a with uses := [] } = { m.results a with uses := [] }

theorem mem_results_eraseIdx {p : Prog} (once : p.results.Nodup) {idx : Nat} {c : Call} (here : p.calls[idx]? = some c) (a : Addr) :
    a ∈ (p.calls.eraseIdx idx).flatMap Call.results ↔ a ∈ p.results ∧ a ∉ c.results := by
  rw [List.mem_flatMap]
  constructor
  · rintro ⟨d, member, inside⟩
    obtain ⟨i, different, there⟩ := List.mem_eraseIdx_iff_getElem?.mp member
    refine ⟨List.mem_flatMap.mpr ⟨d, List.mem_of_getElem? there, inside⟩, fun both => ?_⟩
    exact different (index_eq_of_mem_results once there here inside both)
  · rintro ⟨member, outside⟩
    obtain ⟨d, inCalls, inside⟩ := List.mem_flatMap.mp member
    obtain ⟨i, there⟩ := List.getElem?_of_mem inCalls
    refine ⟨d, List.mem_eraseIdx_iff_getElem?.mpr ⟨i, ?_, there⟩, inside⟩
    rintro rfl
    rw [here] at there
    cases there
    exact outside inside

section
variable {m m1 : Memory} {p : Prog} {idx : Nat} {c : Call}

theorem Pruned.common (pruned : Pruned defaults m p c.results m1) {a : Addr} (member : a ∈ p.results) :
    (m1.results a).common = (m.results a).common := by
  by_cases link : ∃ r ∈ c.results, (m.results a).res = some r
  · exact common_of_sameData (y := defaultArg defaults (m.results a).common) (pruned.turned a member link)
  · push Not at link
    exact common_of_sameData (pruned.kept a member link)

theorem Pruned.res_iff (pruned : Pruned defaults m p c.results m1) {a res : Addr} (member : a ∈ p.results) :
    (m1.results a).res = some res ↔ (m.results a).res = some res ∧ res ∉ c.results := by
  by_cases link : ∃ r ∈ c.results, (m.results a).res = some r
  · obtain ⟨r, removed, link⟩ := link
    have none : (m1.results a).res = none :=
      res_of_sameData (y := defaultArg defaults (m.results a).common) (pruned.turned a member ⟨r, removed, link⟩)
    rw [none, link]
    constructor
    · nofun
    · rintro ⟨same, outside⟩
      exact absurd (Option.some.inj same ▸ removed) outside
  · push Not at link
    rw [res_of_sameData (pruned.kept a member link)]
    exact (and_iff_left_of_imp fun equal removed => link res removed equal).symm

theorem Pruned.backward (pruned : Pruned defaults m p c.results m1) (linked : Linked m p) (here : p.calls[idx]? = some c) :
    Backward m1 (p.calls.eraseIdx idx) := by
  have backward := (hasBrokenRefs_iff linked.once).mp linked.unbroken
  have owned : ∀ d ∈ p.calls, d.owned m1 = d.owned m := by
    intro d inCalls
    rw [Call.owned, Call.owned]
    refine congrArg (d.ret.toList ++ ·) (List.filter_congr fun a member => ?_)
    have known : a ∈ p.results := List.mem_flatMap.mpr ⟨d, inCalls, List.mem_append_right _ member⟩
    simp [pruned.common known]
  -- the owner keeps its place before the removed call, and moves down by one behind it
  have shifted : ∀ i d a res, p.calls[i]? = some d → a ∈ d.results → (m1.results a).res = some res →
      ∃ j < i, j ≠ idx ∧ ∃ e, p.calls[j]? = some e ∧ res ∈ e.owned m1 := by
    intro i d a res there inside link
    have known : a ∈ p.results := List.mem_flatMap.mpr ⟨d, List.mem_of_getElem? there, inside⟩
    obtain ⟨original, outside⟩ := (pruned.res_iff known).mp link
    obtain ⟨j, less, e, owner, inOwner⟩ := backward i d there a inside res original
    refine ⟨j, less, ?_, e, owner, by rwa [owned e (List.mem_of_getElem? owner)]⟩
    rintro rfl
    rw [here] at owner
    cases owner
    exact outside (mem_results_of_owned inOwner)
  intro i d there a inside res link
  rw [List.getElem?_eraseIdx] at there
  split at there
  · obtain ⟨j, less, -, e, owner, inOwner⟩ := shifted i d a res there inside link
    exact ⟨j, less, e, by rw [List.getElem?_eraseIdx_of_lt (by omega), owner], inOwner⟩
  · obtain ⟨j, less, different, e, owner, inOwner⟩ := shifted (i + 1) d a res there inside link
    by_cases before : j < idx
    · exact ⟨j, by omega, e, by rw [List.getElem?_eraseIdx_of_lt before, owner], inOwner⟩
    · refine ⟨j - 1, by omega, e, ?_, inOwner⟩
      rw [List.getElem?_eraseIdx_of_ge (by omega), show j - 1 + 1 = j by omega, owner]

theorem Pruned.linked (pruned : Pruned defaults m p c.results m1) (linked : Linked m p) (here : p.calls[idx]? = some c) :
    Linked m1 { p with calls := p.calls.eraseIdx idx } := by
  have members := mem_results_eraseIdx linked.once here
  have once : (({ p with calls := p.calls.eraseIdx idx } : Prog).results).Nodup :=
    linked.once.sublist ((List.eraseIdx_sublist _ _).flatMap _)
  refine ⟨once, fun a member => ?_, (hasBrokenRefs_iff once).mpr (pruned.backward linked here)⟩
  obtain ⟨inside, outside⟩ := (members a).mp member
  rw [pruned.uses a inside outside]
  refine ⟨(linked.inverse a inside).1.filter _, fun b => ?_⟩
  rw [List.mem_filter, (linked.inverse a inside).2 b, decide_eq_true_eq]
  refine Iff.trans ?_ (and_congr_left' (members b).symm)
  constructor
  · rintro ⟨⟨user, link⟩, remains⟩
    exact ⟨⟨user, remains⟩, (pruned.res_iff user).mpr ⟨link, outside⟩⟩
  · rintro ⟨⟨user, remains⟩, link⟩
    exact ⟨⟨user, ((pruned.res_iff user).mp link).1⟩, remains⟩

theorem removeCall_linked (defaults : Defaults) (linked : Linked m p) (allocated : ∀ x ∈ p.objects, x < m.next)
    (inside : idx < p.calls.length) :
    ∃ p1 m1, p.removeCall defaults idx m = some (p1, m1) ∧ Removed defaults m p idx m1 p1 ∧ Linked m1 p1 := by
  obtain ⟨c, here⟩ : ∃ c, p.calls[idx]? = some c := ⟨_, List.getElem?_eq_getElem inside⟩
  have backward := (hasBrokenRefs_iff linked.once).mp linked.unbroken
  have inProg : ∀ a ∈ c.results, a ∈ p.results := fun a member =>
    List.mem_flatMap.mpr ⟨c, List.mem_of_getElem? here, member⟩
  have reordered : ∀ a, a ∈ resultsOfList c.args ++ c.ret.toList ↔ a ∈ c.results := by
    intro a
    rw [Call.results, List.mem_append, List.mem_append, or_comm]
  have closed : ∀ b ∈ p.results, ∀ res, (m.results b).res = some res → res ∈ p.results := by
    intro b member res link
    obtain ⟨d, inCalls, inCall⟩ := List.mem_flatMap.mp member
    obtain ⟨i, there⟩ := List.getElem?_of_mem inCalls
    obtain ⟨j, -, e, owner, owned⟩ := backward i d there b inCall res link
    exact List.mem_flatMap.mpr ⟨e, List.mem_of_getElem? owner, mem_results_of_owned owned⟩
  have apart : ∀ b ∈ c.results, ∀ r ∈ c.results, (m.results b).res ≠ some r := by
    intro b member r removed link
    obtain ⟨j, less, e, owner, owned⟩ := backward idx c here b member r link
    exact Nat.ne_of_lt less (index_eq_of_mem_results linked.once owner here (mem_results_of_owned owned) removed)
  have nodup : (resultsOfList c.args ++ c.ret.toList).Nodup :=
    List.nodup_append_comm.mp ((List.nodup_flatMap.mp linked.once).1 c (List.mem_of_getElem? here))
  obtain ⟨m1, run, pruned⟩ := removeResults_pruned (resultsOfList c.args ++ c.ret.toList)
    (Pruned.refl defaults m p) linked closed
    (fun b member => allocated b (objects_of_results member)) (fun b member => inProg b ((reordered b).mp member))
    nodup fun b first r second => apart b ((reordered b).mp first) r ((reordered r).mp second)
  have settled : Pruned defaults m p c.results m1 := by
    simp only [List.nil_append] at pruned
    constructor
    · exact pruned.next
    · rintro a member ⟨r, removed, link⟩
      exact pruned.turned a member ⟨r, (reordered r).mpr removed, link⟩
    · exact fun a member others => pruned.kept a member fun r removed => others r ((reordered r).mp removed)
    · intro a member outside
      rw [pruned.uses a member (mt (reordered a).mp outside)]
      exact List.filter_congr fun b _ => by simp only [reordered]
  refine ⟨_, m1, ?_, ⟨rfl, ?_, ?_⟩, settled.linked linked here⟩
  · rw [List.foldlM_append] at run
    obtain ⟨m2, args, ret⟩ := Option.bind_eq_some_iff.mp run
    simp only [Prog.removeCall, here, removeArgs_eq, args, Option.bind_eq_bind, Option.bind_some]
    cases last : c.ret with
    | none =>
      rw [last] at ret
      cases ret
      rfl
    | some r =>
      rw [last] at ret
      simp only [removeArg, resultsOf]
      rw [show [r] = (some r).toList from rfl, ret]
      rfl
  all_goals
    intro d there a member
    rw [here] at there
    cases there
    have known := ((mem_results_eraseIdx linked.once here a).mp member).1
  · exact settled.turned a known
  · exact settled.kept a known

end

/-- `Clone` and `RemoveCall` of any program whose links are in order. -/
theorem clone_and_removeCall (defaults : Defaults) (m : Memory) (p : Prog) (linked : Linked m p) (allocated : ∀ x ∈ p.objects, x < m.next) :
    (∃ p1 m1 f, p.clone m = some (p1, m1) ∧ IsClone m p m1 p1 f ∧ (∀ x ∈ p1.objects, x ∉ p.objects) ∧ Linked m1 p1 ∧
      ∀ a < m.next, m1.results a = m.results a) ∧
    ∀ idx < p.calls.length, ∃ p1 m1, p.removeCall defaults idx m = some (p1, m1) ∧ Removed defaults m p idx m1 p1 ∧ Linked m1 p1 :=
  ⟨clone_linked linked allocated, fun _ inside => removeCall_linked defaults linked allocated inside⟩

/-- `r0 = open(...)` and `close(r0)`: objects 0 and 1 are the result and its use, 2 and 3 the arguments of `open`. -/
def openClose : Prog where
  calls := [{ name := "open", args := [.pointer 2 ⟨1, .dirIn⟩ 0 0 (.data 3 ⟨2, .dirIn⟩ [47, 97, 0] 0)], ret := some 0 },
    { name := "close", args := [.result 1], ret := none }]

def openCloseMemory : Memory where
  next := 4
  results := fun a => if a = 0 then ⟨⟨3, .dirOut⟩, none, 0, 0, 0, [1]⟩ else ⟨⟨3, .dirIn⟩, some 0, 0, 0, 0, []⟩

theorem openClose_linked : Linked openCloseMemory openClose := by
  refine ⟨by decide, fun a member => ?_, by decide⟩
  have cases : a = 0 ∨ a = 1 := by simpa [openClose, Prog.results, Call.results, resultsOfList, resultsOf] using member
  rcases cases with rfl | rfl
  · refine ⟨by decide, fun b => ?_⟩
    by_cases zero : b = 0
    · subst zero
      decide
    · simp [openClose, openCloseMemory, Prog.results, Call.results, resultsOfList, resultsOf, zero]
  · refine ⟨by decide, fun b => ?_⟩
    by_cases zero : b = 0 <;> simp [openCloseMemory, zero]

/-- Without the open, the close is one of the default descriptor. -/
theorem clone_and_removeCall_openClose : (∃ p1 m1, openClose.removeCall (fun _ => 99) 0 openCloseMemory = some (p1, m1) ∧
    p1.calls.length = 1 ∧ m1.results 1 = ⟨⟨3, .dirIn⟩, none, 0, 0, 99, []⟩) := by
  obtain ⟨-, removed⟩ := clone_and_removeCall (fun _ => 99) openCloseMemory openClose openClose_linked (by decide)
  obtain ⟨p1, m1, run, after, linked⟩ := removed 0 (by decide)
  refine ⟨p1, m1, run, by rw [after.prog]; rfl, ?_⟩
  cases run
  decide

end DfsFuzz.Refs
