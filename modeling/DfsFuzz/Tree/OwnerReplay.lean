import DfsFuzz.Lib.GuardedRun
import DfsFuzz.Mutation.DynamicGroup
import DfsFuzz.Tree.CreateOwners

/-!
The calls of a group in the order in which they ran, replayed on single names, and the owners that
`collectCreateCallOwners` finds against those of the replay.
-/

namespace DfsFuzz.Tree

open DfsFuzz.Output DfsFuzz.Mutation Provenance

/-- What stands at a name: who made it, and whether a call of the run put it there. -/
structure Obj where
  dir : Bool
  owner : String
  put : Bool
deriving DecidableEq

abbrev Names := String → Option Obj

inductive Effect where
  | make (dir : Bool) (path : String)
  | remove (dir : Bool) (path : String)
  | rename (old new : String)
  | none

def effectOf (call : Call) : Effect :=
  let name := metaCallName call.name
  let path := extractPathFromCall call
  if name = "creat" then .make false path
  else if name = "mkdir" then .make true path
  else if name = "open" then if extractOpenFlags call &&& 0x40 ≠ 0 then .make false path else .none
  else if name = "unlink" then .remove false path
  else if name = "rmdir" then .remove true path
  else if name = "rename" then .rename path (extractPathFromCallByArgIdx call 1)
  else .none

def Names.step (names : Names) (cid : String) : Effect → Names
  | .make dir path =>
    if path = "" ∨ names path ≠ none then names else Function.update names path (some ⟨dir, cid, true⟩)
  | .remove dir path =>
    if (names path).map Obj.dir = some dir then Function.update names path none else names
  | .rename old new =>
    match names old with
    | none => names
    | some o =>
      -- a directory is not renamed over a file, nor a file over a directory
      if old = new ∨ new = "" ∨ (names new).any (·.dir != o.dir) then names
      else Function.update (Function.update names old none) new (some { o with put := true })
  | .none => names

namespace Group

def cidOf (g : Group) (progIdx : Nat) : String := g.cids.getD progIdx ""

def initialNames (g : Group) : Names := fun path =>
  if path = "" then none else (g.oldNode path).map fun n => ⟨n.type != .file, n.ownerCid, false⟩

/-- The names after the calls ran in an order. -/
def namesAfter (g : Group) (order : List Placed) : Names :=
  order.foldl (fun names d => names.step (g.cidOf d.progIdx) (effectOf d.call)) g.initialNames

/-- All successful calls, those of one program in its order. -/
structure Consistent (g : Group) (order : List Placed) : Prop where
  perm : order.Perm g.succeeded
  program : order.Pairwise fun d e => d.progIdx = e.progIdx → d.callIdx < e.callIdx

structure OwnersRight (g : Group) (order : List Placed) : Prop where
  returns : ∀ range, ∃ m, collectCreateCallOwners range g = some m
  stable : ∀ range range' m m', collectCreateCallOwners range g = some m → collectCreateCallOwners range' g = some m' →
    ∀ path, m.lookup path = m'.lookup path
  owner : ∀ range m, collectCreateCallOwners range g = some m → ∀ path cid o, m.lookup path = some cid →
    g.namesAfter order path = some o → cid = o.owner
  created : ∀ range m, collectCreateCallOwners range g = some m → ∀ path o, g.namesAfter order path = some o →
    o.put = true → (m.lookup path).isSome

end Group

/-! ### The replay with the productions so far -/

/-- The names, and the productions of each path that were recorded for the calls that ran, the latest first. -/
structure Replay where
  names : Names
  produced : String → List PathProducer

namespace Replay

def step (g : Group) (r : Replay) (d : Placed) : Replay where
  names := r.names.step (g.cidOf d.progIdx) (effectOf d.call)
  produced :=
    match g.production d with
    | none => r.produced
    | some (path, w) => Function.update r.produced path (w :: r.produced path)

/-- What the latest productions say of their paths. -/
def sources (g : Group) (r : Replay) (path : String) : Option (Source String String) :=
  (r.produced path).head?.map g.sourceOf

end Replay

def Group.start (g : Group) : Replay := ⟨g.initialNames, fun _ => []⟩

/-- A call after which the latest production of each path still says who made what stands there. -/
structure ProperStep (g : Group) (r : Replay) (d : Placed) : Prop where
  /-- what the call puts at a path is recorded for it, and has an owner -/
  recorded : ∀ path o, (r.step g d).names path = some o → r.names path ≠ some o →
    o.owner ≠ "" ∧ ∃ w, g.production d = some (path, w)
  /-- it comes after those that ran before it at its path, by the indices -/
  later : ∀ path w, g.production d = some (path, w) → ∀ l ∈ r.produced path, w.after l = true
  /-- a call recorded to create did not meet the object of another program -/
  made : ∀ path w cid o, g.production d = some (path, w) → g.sourceOf w = .made cid →
    (r.step g d).names path = some o → o.owner = cid
  /-- a call recorded to rename moved an object that is not followed back to the path -/
  moved : ∀ path w old o, g.production d = some (path, w) → g.sourceOf w = .moved old →
    (r.step g d).names path = some o → (∃ before, r.names old = some before ∧ before.owner = o.owner) ∧
      ¬ Reaches (r.sources g) old path
  /-- nothing else is followed through the path, unless it is of the same program -/
  apart : ∀ path w other o, g.production d = some (path, w) → other ≠ path → (r.step g d).names other = some o →
    Reaches (r.sources g) other path → g.sourceOf w = .made o.owner

/-- The productions so far lead from what stands at each name to who made it. -/
structure Traced (g : Group) (r : Replay) : Prop where
  sorted : ∀ path, (r.produced path).Pairwise fun w l => w.after l = true
  owners : ∀ path o, r.names path = some o → Resolves (r.sources g) g.oldOwner path o.owner
  put : ∀ path o, r.names path = some o → o.put = true → o.owner ≠ "" ∧ r.produced path ≠ []

variable {g : Group} {r : Replay} {d : Placed} {path : String} {w : PathProducer}

theorem initialNames_some {o : Obj} (found : g.initialNames path = some o) : o.owner = g.oldOwner path ∧ o.put = false := by
  rw [Group.initialNames] at found
  split at found
  · cases found
  · obtain ⟨n, node, rfl⟩ := Option.map_eq_some_iff.mp found
    rw [Group.oldOwner, node, Option.map_some, Option.getD_some]
    exact ⟨rfl, rfl⟩

theorem start_traced (g : Group) : Traced g g.start where
  sorted path := List.Pairwise.nil
  owners path o found := by
    rw [(initialNames_some found).1]
    exact .kept rfl
  put path o found new := by cases (initialNames_some found).2.symm.trans new

theorem Replay.produced_none (quiet : g.production d = none) : (r.step g d).produced = r.produced := by
  rw [Replay.step, quiet]

theorem Replay.produced_some (production : g.production d = some (path, w)) :
    (r.step g d).produced = Function.update r.produced path (w :: r.produced path) := by
  rw [Replay.step, production]

theorem Replay.sources_none (quiet : g.production d = none) : (r.step g d).sources g = r.sources g := by
  funext other
  rw [Replay.sources, produced_none quiet, Replay.sources]

theorem Replay.sources_some (production : g.production d = some (path, w)) :
    (r.step g d).sources g = Function.update (r.sources g) path (some (g.sourceOf w)) := by
  funext other
  rw [Replay.sources, produced_some production]
  by_cases same : other = path
  · subst same
    rw [Function.update_self, Function.update_self]
    rfl
  · rw [Function.update_of_ne same, Function.update_of_ne same]
    rfl

theorem Traced.sorted_step (traced : Traced g r) (proper : ProperStep g r d) (path : String) :
    ((r.step g d).produced path).Pairwise fun w l => w.after l = true := by
  cases production : g.production d with
  | none =>
    rw [Replay.produced_none production]
    exact traced.sorted path
  | some entry =>
    obtain ⟨changed, w⟩ := entry
    rw [Replay.produced_some production]
    by_cases same : path = changed
    · subst same
      rw [Function.update_self]
      exact List.pairwise_cons.mpr ⟨proper.later path w production, traced.sorted path⟩
    · rw [Function.update_of_ne same]
      exact traced.sorted path

/-- The path of the production itself leads to who made what stands there. -/
theorem Traced.owner_self (traced : Traced g r) (proper : ProperStep g r d) (production : g.production d = some (path, w))
    {o : Obj} (here : (r.step g d).names path = some o) :
    Resolves (Function.update (r.sources g) path (some (g.sourceOf w))) g.oldOwner path o.owner := by
  cases source : g.sourceOf w with
  | made cid =>
    rw [proper.made path w cid o production source here]
    exact .made (Function.update_self ..)
  | moved old =>
    obtain ⟨⟨before, found, same⟩, acyclic⟩ := proper.moved path w old o production source here
    have resolves := traced.owners old before found
    rw [same] at resolves
    exact .moved (Function.update_self ..) (resolves.update acyclic)

theorem Traced.owner_other (traced : Traced g r) (proper : ProperStep g r d) (production : g.production d = some (path, w))
    {other : String} (different : other ≠ path) {o : Obj} (here : (r.step g d).names other = some o) :
    Resolves (Function.update (r.sources g) path (some (g.sourceOf w))) g.oldOwner other o.owner := by
  have before : r.names other = some o := by
    by_contra new
    obtain ⟨-, w', recorded⟩ := proper.recorded other o here new
    cases production.symm.trans recorded
    exact different rfl
  by_cases through : Reaches (r.sources g) other path
  · rw [proper.apart path w other o production different here through]
    exact through.resolves_made
  · exact (traced.owners other o before).update through

theorem Traced.step (traced : Traced g r) (proper : ProperStep g r d) : Traced g (r.step g d) where
  sorted := traced.sorted_step proper
  owners path o here := by
    cases production : g.production d with
    | none =>
      rw [Replay.sources_none production]
      refine traced.owners path o ?_
      by_contra new
      obtain ⟨-, w, recorded⟩ := proper.recorded path o here new
      cases production.symm.trans recorded
    | some entry =>
      obtain ⟨changed, w⟩ := entry
      rw [Replay.sources_some production]
      by_cases same : path = changed
      · subst same
        exact traced.owner_self proper production here
      · exact traced.owner_other proper production same here
  put path o here new := by
    by_cases before : r.names path = some o
    · obtain ⟨owned, nonempty⟩ := traced.put path o before new
      refine ⟨owned, ?_⟩
      cases production : g.production d with
      | none =>
        rw [Replay.produced_none production]
        exact nonempty
      | some entry =>
        obtain ⟨changed, w⟩ := entry
        rw [Replay.produced_some production]
        by_cases same : path = changed
        · subst same
          rw [Function.update_self]
          exact List.cons_ne_nil _ _
        · rw [Function.update_of_ne same]
          exact nonempty
    · obtain ⟨owned, w, production⟩ := proper.recorded path o here before
      rw [Replay.produced_some production, Function.update_self]
      exact ⟨owned, List.cons_ne_nil _ _⟩

/-! ### Proper calls by what stood there before -/

theorem ProperStep.of_none (quiet : g.production d = none)
    (effect : effectOf d.call = .none ∨ ∃ dir path, effectOf d.call = .remove dir path) : ProperStep g r d := by
  have kept : ∀ path o, (r.step g d).names path = some o → r.names path = some o := by
    intro path o here
    rcases effect with nothing | ⟨dir, removed, removal⟩
    · rw [Replay.step, nothing] at here
      exact here
    · rw [Replay.step, removal] at here
      dsimp only [Names.step] at here
      split at here
      · by_cases same : path = removed
        · rw [same, Function.update_self] at here
          cases here
        · rwa [Function.update_of_ne same] at here
      · exact here
  refine ⟨fun path o here new => absurd (kept path o here) new, ?_, ?_, ?_, ?_⟩
  · intro path w production
    cases quiet.symm.trans production
  · intro path w cid o production
    cases quiet.symm.trans production
  · intro path w old o production
    cases quiet.symm.trans production
  · intro path w other o production
    cases quiet.symm.trans production

/-- A creation that finds nothing at its path, which no object came from. -/
theorem ProperStep.of_make {dir : Bool} (effect : effectOf d.call = .make dir path) (nonempty : path ≠ "")
    (absent : r.names path = none) (named : g.cidOf d.progIdx ≠ "") (production : g.production d = some (path, w))
    (source : g.sourceOf w = .made (g.cidOf d.progIdx)) (later : ∀ l ∈ r.produced path, w.after l = true)
    (apart : ∀ other o, r.names other = some o → ¬ Reaches (r.sources g) other path) : ProperStep g r d := by
  have names : (r.step g d).names = Function.update r.names path (some ⟨dir, g.cidOf d.progIdx, true⟩) := by
    rw [Replay.step, effect]
    exact if_neg (by simp [nonempty, absent])
  refine ⟨fun changed o here new => ?_, fun other w' recorded => ?_, fun other w' cid o recorded from_ here => ?_,
    fun other w' old o recorded from_ => ?_, fun changed w' other o recorded different here through => ?_⟩
  · rw [names] at here
    by_cases same : changed = path
    · subst same
      rw [Function.update_self] at here
      cases here
      exact ⟨named, w, production⟩
    · rw [Function.update_of_ne same] at here
      exact absurd here new
  · cases production.symm.trans recorded
    exact later
  · cases production.symm.trans recorded
    rw [names, Function.update_self] at here
    cases here
    exact Source.made.inj (source.symm.trans from_)
  · cases production.symm.trans recorded
    cases source.symm.trans from_
  · cases production.symm.trans recorded
    rw [names, Function.update_of_ne different] at here
    exact absurd through (apart other o here)

/-- A rename of an object to a path that no other object came from. -/
theorem ProperStep.of_rename {old : String} {o : Obj} (effect : effectOf d.call = .rename old path) (nonempty : path ≠ "")
    (different : old ≠ path) (here : r.names old = some o) (kind : ∀ there, r.names path = some there → there.dir = o.dir)
    (named : o.owner ≠ "") (production : g.production d = some (path, w)) (source : g.sourceOf w = .moved old)
    (later : ∀ l ∈ r.produced path, w.after l = true) (acyclic : ¬ Reaches (r.sources g) old path)
    (apart : ∀ other o', r.names other = some o' → other ≠ old → other ≠ path → ¬ Reaches (r.sources g) other path) :
    ProperStep g r d := by
  have kinds : (r.names path).any (·.dir != o.dir) = false := by
    cases there : r.names path with
    | none => rfl
    | some obj => simpa using kind obj there
  have names : (r.step g d).names =
      Function.update (Function.update r.names old none) path (some { o with put := true }) := by
    rw [Replay.step, effect]
    simp [Names.step, here, different, nonempty, kinds]
  refine ⟨fun changed o' after new => ?_, fun other w' recorded => ?_, fun other w' cid o' recorded from_ => ?_,
    fun other w' old' o' recorded from_ after => ?_, fun changed w' other o' recorded other_ after through => ?_⟩
  · rw [names] at after
    by_cases same : changed = path
    · subst same
      rw [Function.update_self] at after
      cases after
      exact ⟨named, w, production⟩
    · rw [Function.update_of_ne same] at after
      by_cases source_ : changed = old
      · rw [source_, Function.update_self] at after
        cases after
      · rw [Function.update_of_ne source_] at after
        exact absurd after new
  · cases production.symm.trans recorded
    exact later
  · cases production.symm.trans recorded
    cases source.symm.trans from_
  · cases production.symm.trans recorded
    cases source.symm.trans from_
    rw [names, Function.update_self] at after
    cases after
    exact ⟨⟨o, here, rfl⟩, acyclic⟩
  · cases production.symm.trans recorded
    rw [names, Function.update_of_ne other_] at after
    by_cases source_ : other = old
    · rw [source_, Function.update_self] at after
      cases after
    · rw [Function.update_of_ne source_] at after
      exact absurd through (apart other o' after source_ other_)

/-! ### The end of a run -/

open GuardedRun in
theorem run_names (g : Group) (r : Replay) (order : List Placed) :
    (run (Replay.step g) r order).names =
      order.foldl (fun names d => names.step (g.cidOf d.progIdx) (effectOf d.call)) r.names := by
  induction order generalizing r with
  | nil => rfl
  | cons d order ih => exact ih (r.step g d)

open GuardedRun in
theorem run_produced (g : Group) (r : Replay) (order : List Placed) (path : String) :
    ((run (Replay.step g) r order).produced path).Perm
      (((order.filterMap g.production).filter fun x => x.1 = path).map Prod.snd ++ r.produced path) := by
  induction order generalizing r with
  | nil => exact .refl _
  | cons d order ih =>
    refine (ih (r.step g d)).trans ?_
    cases production : g.production d with
    | none => rw [Replay.produced_none production, List.filterMap_cons_none production]
    | some entry =>
      obtain ⟨changed, w⟩ := entry
      rw [Replay.produced_some production, List.filterMap_cons_some production]
      by_cases same : changed = path
      · subst same
        rw [Function.update_self, List.filter_cons_of_pos (by simp), List.map_cons]
        exact List.perm_middle
      · rw [Function.update_of_ne (Ne.symm same), List.filter_cons_of_neg (by simpa using same)]

open GuardedRun in
theorem produced_perm {order : List Placed} (perm : order.Perm g.succeeded) (path : String) :
    ((run (Replay.step g) g.start order).produced path).Perm (g.producers path) := by
  have each := run_produced g g.start order path
  rw [Group.start, List.append_nil] at each
  exact each.trans (((perm.filterMap _).filter _).map _)

open GuardedRun in
theorem sources_winners {order : List Placed} (perm : order.Perm g.succeeded)
    (traced : Traced g (run (Replay.step g) g.start order)) :
    (run (Replay.step g) g.start order).sources g = g.winners := by
  funext path
  have same := produced_perm perm path
  rw [Replay.sources, Group.winners_eq]
  cases produced : (run (Replay.step g) g.start order).produced path with
  | nil =>
    rw [produced] at same
    rw [same.symm.eq_nil]
    rfl
  | cons w ws =>
    have sorted := traced.sorted path
    rw [produced] at same sorted
    rw [PathProducer.winner_eq same.symm (List.pairwise_cons.mp sorted).1]
    rfl

/-- In every run whose calls are all proper, the owners are those of the objects. -/
theorem collectCreateCallOwners_right {order : List Placed} (consistent : g.Consistent order)
    (proper : GuardedRun.Each (Replay.step g) (ProperStep g) g.start order) : g.OwnersRight order := by
  have traced : Traced g (GuardedRun.run (Replay.step g) g.start order) :=
    proper.whole (fun _ _ before one => before.step one) (start_traced g)
  have winners := sources_winners consistent.perm traced
  have names : (GuardedRun.run (Replay.step g) g.start order).names = g.namesAfter order := run_names g g.start order
  have owner : ∀ path o, g.namesAfter order path = some o → g.ownerOf path = o.owner := by
    intro path o found
    have resolves := traced.owners path o (by rw [names, found])
    rw [winners] at resolves
    have run := g.resolveCreateCid_ownerOf path
    rw [Group.resolveCreateCid_eq] at run
    exact resolves.follow (fun v member => by cases member) _ run
  refine ⟨fun range => ?_, fun range range' m m' run run' path => ?_, fun range m run path cid o found here => ?_,
    fun range m run path o here new => ?_⟩
  · obtain ⟨m, run, -⟩ := g.collect_spec range
    exact ⟨m, run⟩
  · obtain ⟨m₁, run₁, lookups⟩ := g.collect_spec range
    obtain ⟨m₂, run₂, lookups'⟩ := g.collect_spec range'
    cases run.symm.trans run₁
    cases run'.symm.trans run₂
    rw [lookups, lookups']
  · obtain ⟨m₁, run₁, lookups⟩ := g.collect_spec range
    cases run.symm.trans run₁
    rw [lookups] at found
    split at found
    · rw [← Option.some.inj found, owner path o here]
    · cases found
  · obtain ⟨m₁, run₁, lookups⟩ := g.collect_spec range
    cases run.symm.trans run₁
    obtain ⟨owned, nonempty⟩ := traced.put path o (by rw [names, here]) new
    have recorded : g.producers path ≠ [] := fun empty =>
      nonempty ((produced_perm consistent.perm path).trans (.of_eq empty)).eq_nil
    rw [lookups, if_pos ⟨recorded, by rw [owner path o here]; exact owned⟩]
    rfl

def pathCall (name : String) (paths : List String) : Call :=
  { name, args := paths.map fun path => .pointer 0 (some (.data (path.toList.map fun c => UInt8.ofNat c.toNat))) }

def ranWell (calls : Nat) : ProgInfo := ⟨List.replicate calls { flags := 1 }, {}⟩

def creatA : Placed := ⟨0, 0, pathCall "creat" ["a"]⟩

def renameA : Placed := ⟨0, 1, pathCall "rename" ["a", "b"]⟩

def openB : Placed := ⟨1, 1, pathCall "open" ["b"]⟩

def renamedGroup : Group :=
  ⟨[{ calls := [creatA.call] }, { calls := [renameA.call, openB.call] }], [some (ranWell 1), some (ranWell 2)],
    ["c0", "c1"], none⟩

theorem right_renamed : renamedGroup.OwnersRight [creatA, renameA, openB] := by
  have creates : effectOf creatA.call = .make false "a" := by rfl
  have creation : renamedGroup.production creatA = some ("a", ⟨0, 0, .create, ""⟩) := by rfl
  have renames : effectOf renameA.call = .rename "a" "b" := by rfl
  have moving : renamedGroup.production renameA = some ("b", ⟨0, 1, .rename, "a"⟩) := by rfl
  have names : (renamedGroup.start.step renamedGroup creatA).names =
      Function.update renamedGroup.initialNames "a" (some ⟨false, "c0", true⟩) := by rfl
  have sources : (renamedGroup.start.step renamedGroup creatA).sources renamedGroup =
      Function.update (fun _ => none) "a" (some (.made "c0")) := Replay.sources_some creation
  have succeeded : renamedGroup.succeeded = [creatA, renameA, openB] := by rfl
  have empty : ∀ path, renamedGroup.initialNames path = none := by
    intro path
    rw [Group.initialNames]
    split
    · rfl
    · rfl
  refine collectCreateCallOwners_right ⟨.of_eq succeeded.symm, by decide⟩ ⟨?_, ?_, .of_none (by rfl) (.inl (by rfl)), trivial⟩
  · exact .of_make creates (by decide) (empty "a") (by decide) creation rfl (fun l member => by cases member)
      fun other o found => by cases (empty other).symm.trans found
  · have here : (renamedGroup.start.step renamedGroup creatA).names "a" = some ⟨false, "c0", true⟩ := by
      rw [names, Function.update_self]
    have nothing : (renamedGroup.start.step renamedGroup creatA).names "b" = none := by
      rw [names, Function.update_of_ne (by decide)]
      exact empty "b"
    refine .of_rename renames (by decide) (by decide) here ?_ (by decide) moving rfl ?_ ?_ ?_
    · intro there found
      cases nothing.symm.trans found
    · intro l member
      rw [Replay.produced_some creation, Function.update_of_ne (by decide)] at member
      cases member
    · intro back
      rcases back.eq_or_moved with same | ⟨further, moved, -⟩
      · exact absurd same (by decide)
      · rw [sources, Function.update_self] at moved
        cases moved
    · intro other o found away
      rw [names, Function.update_of_ne away] at found
      cases (empty other).symm.trans found

/-- The file was there before the run: an `open` with `O_CREAT` is passed over for it, a `creat` is not. -/
def metGroup : Group :=
  ⟨[{ calls := [creatA.call] }], [some (ranWell 1)], ["c0"], some (newFileTree.addNode "a" .file "c9")⟩

theorem creat_takes_over : ¬ ∀ (g : Group) (order : List Placed), g.Consistent order → g.OwnersRight order := by
  intro always
  have consistent : metGroup.Consistent [creatA] :=
    ⟨.of_eq (show [creatA] = metGroup.succeeded by rfl), List.pairwise_singleton ..⟩
  have run : (collectCreateCallOwners .stored metGroup).map (·.lookup "a") = some (some "c0") := by decide +kernel
  have stands : metGroup.namesAfter [creatA] "a" = some ⟨false, "c9", false⟩ := by decide +kernel
  obtain ⟨m, collected, owner⟩ := Option.map_eq_some_iff.mp run
  have same := (always metGroup [creatA] consistent).owner .stored m collected "a" "c0" _ owner stands
  exact absurd same (by decide)

end DfsFuzz.Tree
