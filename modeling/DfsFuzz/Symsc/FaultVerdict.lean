import DfsFuzz.Symsc.FaultModel
import Mathlib.Tactic.FieldSimp
import Mathlib.Tactic.Ring

/-!
What the fault model should answer, and what it does answer: where the layout, the volume, the two counts and the
direction of a drop rule are right.
-/

namespace DfsFuzz.Symsc

open RangeLayout (layout owner)

/-- The node is up and no rule drops what it and the client send to each other. -/
def reachable (nodeUp : List Bool) (cuts : Cuts) (client node : Nat) : Bool :=
  nodeUp[node]?.getD false && !severed cuts client node

theorem liveNodes_eq {nodeUp : List Bool} {cuts : Cuts} {client : Nat} {targets : List Nat}
    (stated : ∀ node ∈ targets, node < nodeUp.length) :
    liveNodes nodeUp cuts client targets = some (targets.countP (reachable nodeUp cuts client)) := by
  induction targets with
  | nil => rfl
  | cons node rest ih =>
    have state := List.getElem?_eq_getElem (stated node List.mem_cons_self)
    rw [liveNodes, state, ih fun n member => stated n (List.mem_cons_of_mem _ member), List.countP_cons, reachable, state]
    simp only [Option.bind_some, Option.map_some, Option.getD_some]
    split <;> rfl

theorem length_subvolGroup {nodes size i : Nat} (inside : i < nodes / size) : (subvolGroup nodes size i).length = size := by
  have bound : (i + 1) * size ≤ nodes := (Nat.mul_le_mul_right size inside).trans (Nat.div_mul_le_self nodes size)
  rw [subvolGroup, List.length_drop, List.length_take, List.length_range, Nat.min_eq_left bound, Nat.succ_mul]
  exact Nat.add_sub_cancel_left _ _

theorem mem_subvolGroup {nodes size i node : Nat} (member : node ∈ subvolGroup nodes size i) : node < nodes :=
  List.mem_range.mp (List.mem_of_mem_take (List.mem_of_mem_drop member))

theorem below_quorum {live size : Nat} (positive : 0 < size) : (live : ℚ) / size < quorum ↔ 100 * live < 51 * size := by
  have size_pos : (0 : ℚ) < size := Nat.cast_pos.mpr positive
  rw [quorum, div_lt_div_iff₀ size_pos (by norm_num)]
  have scaled : (live : ℚ) * 100 < 51 * size ↔ ((live * 100 : Nat) : ℚ) < ((51 * size : Nat) : ℚ) := by push_cast; rfl
  rw [scaled, Nat.cast_lt, Nat.mul_comm]

theorem above_redundancy {live size r : Nat} (positive : 0 < size) :
    (size : ℚ) - live / size > ((r : Int) : ℚ) ↔ live + r * size < size * size := by
  have size_pos : (0 : ℚ) < size := Nat.cast_pos.mpr positive
  have moved : (size : ℚ) - live / size > ((r : Int) : ℚ) ↔ (live : ℚ) / size < size - r := by
    rw [Int.cast_natCast]
    constructor <;> intro bound <;> linarith
  rw [moved, div_lt_iff₀ size_pos]
  have scaled : (live : ℚ) < (size - r) * size ↔ ((live + r * size : Nat) : ℚ) < ((size * size : Nat) : ℚ) := by
    push_cast
    constructor <;> intro bound <;> nlinarith only [bound]
  rw [scaled, Nat.cast_lt]

/-- The verdict is the same when the components of a pair are exchanged. -/
def Exchangeable {α : Type} (verdict : Cuts → α) (cuts : Cuts) : Prop :=
  ∀ before pair after, cuts = before ++ pair :: after → verdict (before ++ pair.swap :: after) = verdict cuts

/-- When a test for `(a, c)` alone does not depend on the direction. -/
def BothWays (cuts : Cuts) (a c : Int) : Prop :=
  if (a, c) ∈ cuts then a = c ∨ 2 ≤ cuts.count (a, c) else (c, a) ∉ cuts

theorem severed_swap {before after : Cuts} {pair : Int × Int} {a b : Nat} :
    severed (before ++ pair.swap :: after) a b = severed (before ++ pair :: after) a b := by
  obtain ⟨x, y⟩ := pair
  rw [Bool.eq_iff_iff]
  simp only [severed, Bool.or_eq_true, List.contains_iff_mem, List.mem_append, List.mem_cons, Prod.swap_prod_mk, Prod.mk.injEq]
  tauto

theorem exchangeable_contains {cuts : Cuts} {a c : Int} : Exchangeable (·.contains (a, c)) cuts ↔ BothWays cuts a c := by
  simp only [Exchangeable, BothWays]
  constructor
  · intro same
    split
    · rename_i present
      obtain ⟨before, after, shape⟩ := List.append_of_mem present
      have kept := same before (a, c) after shape
      by_cases loop : a = c
      · exact .inl loop
      · refine .inr ?_
        rw [List.contains_iff_mem.mpr present, List.contains_iff_mem] at kept
        have other : (a, c) ∈ before ++ after := by
          rcases List.mem_append.mp kept with left | right
          · exact List.mem_append_left _ left
          · rcases List.mem_cons.mp right with swapped | right
            · exact absurd (Prod.mk.inj swapped).1 loop
            · exact List.mem_append_right _ right
        rw [shape, List.count_append, List.count_cons_self]
        have positive := List.count_pos_iff.mpr other
        rw [List.count_append] at positive
        omega
    · rename_i absent
      intro reverse
      obtain ⟨before, after, shape⟩ := List.append_of_mem reverse
      have kept := same before (c, a) after shape
      have now : (before ++ (c, a).swap :: after).contains (a, c) = true :=
        List.contains_iff_mem.mpr (List.mem_append_right _ List.mem_cons_self)
      rw [now] at kept
      exact absent (List.contains_iff_mem.mp kept.symm)
  · rintro both before ⟨x, y⟩ after rfl
    rw [Bool.eq_iff_iff, List.contains_iff_mem, List.contains_iff_mem]
    simp only [Prod.swap_prod_mk, List.mem_append, List.mem_cons, Prod.mk.injEq] at both ⊢
    split at both
    · rename_i present
      rcases both with rfl | twice
      · tauto
      · rw [List.count_append, List.count_cons] at twice
        have elsewhere : (x, y) = (a, c) → (a, c) ∈ before ∨ (a, c) ∈ after := by
          rintro same
          rw [same, beq_self_eq_true, if_pos rfl] at twice
          rcases Nat.eq_zero_or_pos (before.count (a, c)) with none | some
          · exact .inr (List.count_pos_iff.mp (by omega))
          · exact .inl (List.count_pos_iff.mp some)
        rw [Prod.mk.injEq] at elsewhere
        tauto
    · tauto

theorem exchangeable_up {cuts : Cuts} {a c : Int} {up : Bool} :
    Exchangeable (fun cuts => some (up && !cuts.contains (a, c))) cuts ↔ (up = true → BothWays cuts a c) := by
  rw [← exchangeable_contains]
  cases up with
  | false => simp [Exchangeable]
  | true =>
    simp only [Exchangeable, Bool.true_and, Option.some.injEq, Bool.not_inj_iff, forall_const]

theorem exchangeable_of_severed {α : Type} {verdict : Cuts → α} (cuts : Cuts)
    (reads : ∀ cuts cuts', severed cuts = severed cuts' → verdict cuts = verdict cuts') : Exchangeable verdict cuts := by
  rintro before pair after rfl
  exact reads _ _ (funext fun a => funext fun b => severed_swap)

/-! ### The verdict of a cluster -/

section
variable (H : HashFn) (shape : Shape) (nodeUp : List Bool) (cuts : Cuts) (client : Nat) (filename : Str)

/-- Every value of 32 bits is in the range of exactly one volume. -/
def Covers (ranges : List (Int × Int)) : Prop :=
  ∀ v < 2 ^ 32, ∃! idx : Nat, ∃ r, ranges[idx]? = some r ∧ RangeLayout.Holds r v

/-- The volume that is asked has the hash of the name. -/
def ConsultsOwner (cfg : FsCfg) : Prop :=
  ∃ r, cfg.layout[targetVol H cfg filename]? = some r ∧ RangeLayout.Holds r (H filename filename.length).toNat

def targetGroup (cfg : FsCfg) : List Nat := cfg.groups[targetVol H cfg filename]?.getD []

def targetLive (cfg : FsCfg) : Nat := (targetGroup H filename cfg).countP (reachable nodeUp cuts client)

/-- A replicated volume is refused exactly below the quorum. -/
def QuorumRight (cfg : FsCfg) : Prop :=
  cfg.mode = .replica →
    (glusterfsCanOpSuccess H cfg nodeUp cuts client filename = some false ↔
      100 * targetLive H nodeUp cuts client filename cfg < 51 * (targetGroup H filename cfg).length)

/-- A dispersed volume is refused exactly when more nodes than the redundancy do not answer. -/
def RedundancyRight (cfg : FsCfg) : Prop :=
  ∀ r : Nat, cfg.mode = .disperse → cfg.redundancy = some (r : Int) →
    (glusterfsCanOpSuccess H cfg nodeUp cuts client filename = some false ↔
      r < (targetGroup H filename cfg).length - targetLive H nodeUp cuts client filename cfg)

structure VerdictRight (cfg : FsCfg) : Prop where
  covers : Covers cfg.layout
  consults : ConsultsOwner H filename cfg
  quorum : QuorumRight H nodeUp cuts client filename cfg
  redundancy : RedundancyRight H nodeUp cuts client filename cfg
  nfsExchange : Exchangeable (nfs nodeUp · client) cuts
  exchange : Exchangeable (glusterfsCanOpSuccess H cfg nodeUp · client filename) cuts

end

section
variable {H : HashFn} {shape : Shape} {nodeUp : List Bool} {cuts : Cuts} {client : Nat} {filename : Str}

theorem not_covers : ¬ Covers (shape.cfg H).layout := by
  intro covers
  obtain ⟨idx, held, -⟩ := covers 0xffffffff (by decide)
  have owned := RangeLayout.holds_iff.mp held
  rw [owner, Option.ite_none_right_eq_some] at owned
  have short : 0xffffffff / shape.vols * shape.vols ≤ 0xffffffff := Nat.div_mul_le_self _ _
  exact absurd owned.1 (Nat.not_lt.mpr short)

theorem targetVol_cfg :
    targetVol H (shape.cfg H) filename =
      (owner shape.vols ((H "/".toList 1).toNat % shape.vols) (0xffffffff / shape.vols) (H "/".toList 1).toNat).getD 0 :=
  congrArg (·.getD 0) (RangeLayout.findIdx?_layout _)

theorem targetVol_lt (shape : Shape) (volumes : 1 ≤ shape.vols) : targetVol H (shape.cfg H) filename < shape.vols := by
  rw [targetVol_cfg, owner]
  split
  · exact Nat.mod_lt _ volumes
  · exact volumes

theorem consultsOwner_iff :
    ConsultsOwner H filename (shape.cfg H) ↔
      owner shape.vols ((H "/".toList 1).toNat % shape.vols) (0xffffffff / shape.vols) (H filename filename.length).toNat =
        some (targetVol H (shape.cfg H) filename) :=
  RangeLayout.holds_iff

theorem groups_get {nodes size i : Nat} (inside : i < nodes / size) :
    ((List.range (nodes / size)).map (subvolGroup nodes size))[i]? = some (subvolGroup nodes size i) := by
  rw [List.getElem?_map, List.getElem?_range inside]
  rfl

theorem liveRatio_group (cuts : Cuts) (client : Nat) {nodes size i : Nat} (inside : i < nodes / size)
    (stated : nodes ≤ nodeUp.length) :
    0 < size ∧ liveRatio nodeUp cuts client (subvolGroup nodes size i) =
      some (((subvolGroup nodes size i).countP (reachable nodeUp cuts client) : ℚ) / size) := by
  have positive : 0 < size := by
    rcases Nat.eq_zero_or_pos size with rfl | positive
    · rw [Nat.div_zero] at inside
      exact absurd inside (Nat.not_lt_zero i)
    · exact positive
  have length := length_subvolGroup inside
  have filled : subvolGroup nodes size i ≠ [] := by
    rintro empty
    rw [empty] at length
    exact absurd length.symm positive.ne'
  refine ⟨positive, ?_⟩
  rw [liveRatio, if_neg filled, length, liveNodes_eq fun node member => (mem_subvolGroup member).trans_le stated]
  rfl

theorem replica_verdict (H : HashFn) (cuts : Cuts) (client : Nat) (filename : Str) {nodes size : Nat}
    (volumes : 1 ≤ nodes / size) (stated : nodes ≤ nodeUp.length) :
    let cfg := (Shape.replica nodes size).cfg H
    (targetGroup H filename cfg).length = size ∧
      glusterfsCanOpSuccess H cfg nodeUp cuts client filename =
        some (!decide (100 * targetLive H nodeUp cuts client filename cfg < 51 * size)) := by
  intro cfg
  have inside : targetVol H cfg filename < nodes / size := targetVol_lt (.replica nodes size) volumes
  have group : cfg.groups[targetVol H cfg filename]? = some (subvolGroup nodes size (targetVol H cfg filename)) :=
    groups_get inside
  obtain ⟨positive, ratio⟩ := liveRatio_group cuts client inside stated
  have named : targetGroup H filename cfg = subvolGroup nodes size (targetVol H cfg filename) := by
    rw [targetGroup, group]
    rfl
  refine ⟨by rw [named, length_subvolGroup inside], ?_⟩
  have mode : cfg.mode = .replica := rfl
  simp only [glusterfsCanOpSuccess, mode, group, Option.bind_some, ratio, Option.map_some, below_quorum positive, targetLive,
    named]

theorem disperse_verdict (H : HashFn) (cuts : Cuts) (client : Nat) (filename : Str) {nodes size : Nat} (r : Nat)
    (volumes : 1 ≤ nodes / size) (stated : nodes ≤ nodeUp.length) :
    let cfg := (Shape.disperse nodes size r).cfg H
    (targetGroup H filename cfg).length = size ∧
      glusterfsCanOpSuccess H cfg nodeUp cuts client filename =
        some (!decide (targetLive H nodeUp cuts client filename cfg + r * size < size * size)) := by
  intro cfg
  have inside : targetVol H cfg filename < nodes / size := targetVol_lt (.disperse nodes size r) volumes
  have group : cfg.groups[targetVol H cfg filename]? = some (subvolGroup nodes size (targetVol H cfg filename)) :=
    groups_get inside
  obtain ⟨positive, ratio⟩ := liveRatio_group cuts client inside stated
  have named : targetGroup H filename cfg = subvolGroup nodes size (targetVol H cfg filename) := by
    rw [targetGroup, group]
    rfl
  refine ⟨by rw [named, length_subvolGroup inside], ?_⟩
  have mode : cfg.mode = .disperse := rfl
  have redundancy : cfg.redundancy = some (r : Int) := rfl
  simp only [glusterfsCanOpSuccess, mode, group, Option.bind_some, ratio, Option.map_some, redundancy,
    length_subvolGroup inside, above_redundancy positive, targetLive, named]

theorem distributed_verdict (H : HashFn) (cuts : Cuts) (client : Nat) (filename : Str) {nodes : Nat}
    (volumes : 1 ≤ nodes) (stated : nodes ≤ nodeUp.length) :
    let cfg := (Shape.distributed nodes).cfg H
    let target := targetVol H cfg filename
    glusterfsCanOpSuccess H cfg nodeUp cuts client filename =
      some (nodeUp[target]?.getD false && !cuts.contains ((target : Int), (client : Int))) := by
  intro cfg target
  have inside : target < nodes := targetVol_lt (.distributed nodes) volumes
  have state := List.getElem?_eq_getElem (inside.trans_le stated)
  have mode : cfg.mode = .distributed := rfl
  simp only [glusterfsCanOpSuccess, mode, target] at state ⊢
  simp only [state, Option.map_some, Option.getD_some]

theorem quorumRight (volumes : 1 ≤ shape.vols) (stated : shape.nodes ≤ nodeUp.length) :
    QuorumRight H nodeUp cuts client filename (shape.cfg H) := by
  intro mode
  cases shape with
  | distributed => cases mode
  | disperse => cases mode
  | replica nodes size =>
    obtain ⟨length, verdict⟩ := replica_verdict H cuts client filename volumes stated
    rw [verdict, length]
    simp

/-- The ratio takes the place of the count: with nodes missing, the volume is refused from the first one beyond
`size - live / size`. -/
theorem redundancyRight_iff (volumes : 1 ≤ shape.vols) (stated : shape.nodes ≤ nodeUp.length) :
    RedundancyRight H nodeUp cuts client filename (shape.cfg H) ↔
      ∀ nodes size r, shape = .disperse nodes size r →
        (targetLive H nodeUp cuts client filename (shape.cfg H) + r * size < size * size ↔
          targetLive H nodeUp cuts client filename (shape.cfg H) + r < size) := by
  cases shape with
  | distributed nodes =>
    exact ⟨fun _ nodes size r eq => (nomatch eq), fun _ r mode => (nomatch mode)⟩
  | replica nodes size =>
    exact ⟨fun _ nodes size r eq => (nomatch eq), fun _ r mode => (nomatch mode)⟩
  | disperse nodes size r =>
    obtain ⟨length, verdict⟩ :=
      disperse_verdict H cuts client filename r volumes stated
    have refused (m : Nat) : some (!decide (m + r * size < size * size)) = some false ↔ m + r * size < size * size := by simp
    constructor
    · rintro right _ _ _ ⟨⟩
      have here := right r rfl rfl
      rw [verdict, refused, length] at here
      rw [here]
      omega
    · rintro right r' - same
      cases Int.natCast_inj.mp (Option.some.inj same)
      rw [verdict, refused, right nodes size r rfl, length]
      omega

/-- What the source tests in one direction only is the same in both just for such pairs. -/
theorem exchangeable_verdict_iff (volumes : 1 ≤ shape.vols) (stated : shape.nodes ≤ nodeUp.length) :
    Exchangeable (glusterfsCanOpSuccess H (shape.cfg H) nodeUp · client filename) cuts ↔
      (shape.mode = .distributed → nodeUp[targetVol H (shape.cfg H) filename]?.getD false = true →
        BothWays cuts (targetVol H (shape.cfg H) filename) client) := by
  cases shape with
  | distributed nodes =>
    have verdict : (glusterfsCanOpSuccess H ((Shape.distributed nodes).cfg H) nodeUp · client filename) = _ :=
      funext fun cuts => distributed_verdict H cuts client filename volumes stated
    rw [verdict, exchangeable_up]
    exact ⟨fun both _ => both, fun both => both rfl⟩
  | replica nodes size =>
    refine ⟨fun _ mode => (nomatch mode), fun _ => exchangeable_of_severed cuts fun cuts cuts' same => ?_⟩
    have reads (client node : Nat) : reachable nodeUp cuts client node = reachable nodeUp cuts' client node := by
      rw [reachable, reachable, same]
    rw [(replica_verdict H cuts client filename volumes stated).2, (replica_verdict H cuts' client filename volumes stated).2,
      targetLive, targetLive, funext (reads client)]
  | disperse nodes size r =>
    refine ⟨fun _ mode => (nomatch mode), fun _ => exchangeable_of_severed cuts fun cuts cuts' same => ?_⟩
    have reads (client node : Nat) : reachable nodeUp cuts client node = reachable nodeUp cuts' client node := by
      rw [reachable, reachable, same]
    rw [(disperse_verdict H cuts client filename r volumes stated).2,
      (disperse_verdict H cuts' client filename r volumes stated).2, targetLive, targetLive, funext (reads client)]

theorem exchangeable_nfs_iff :
    Exchangeable (nfs nodeUp · client) cuts ↔ (nodeUp.head? = some true → BothWays cuts 0 client) := by
  cases nodeUp with
  | nil => exact ⟨fun _ up => (nomatch up), fun _ _ _ _ _ => rfl⟩
  | cons up rest =>
    have verdict : (nfs (up :: rest) · client) = fun cuts => some (up && !cuts.contains ((0 : Int), (client : Int))) := rfl
    rw [verdict, exchangeable_up, List.head?_cons, Option.some.injEq]

end

/-- The last value of 32 bits is in no range, so that no cluster gets the right layout. The other parts: the volume
that is asked is that of the text hashed for every name; the quorum is right; the redundancy and the direction of
a drop rule are not always. -/
theorem verdictRight_iff (H : HashFn) (shape : Shape) (volumes : 1 ≤ shape.vols) (nodeUp : List Bool)
    (stated : shape.nodes ≤ nodeUp.length) (cuts : Cuts) (client : Nat) (filename text a b : Str)
    (plain : text.filter (· != '\'') = [' '].intercalate (a :: b :: shape.words)) (free : ' ' ∉ a ∧ ' ' ∉ b) :
    ∃ cfg, glusterfsInitVol H shape.nodes text = some cfg ∧
      ¬ VerdictRight H nodeUp cuts client filename cfg ∧
      (ConsultsOwner H filename cfg ↔
        owner shape.vols ((H "/".toList 1).toNat % shape.vols) (0xffffffff / shape.vols) (H filename filename.length).toNat =
          some ((owner shape.vols ((H "/".toList 1).toNat % shape.vols) (0xffffffff / shape.vols)
            (H "/".toList 1).toNat).getD 0)) ∧
      QuorumRight H nodeUp cuts client filename cfg ∧
      (RedundancyRight H nodeUp cuts client filename cfg ↔
        ∀ nodes size r, shape = .disperse nodes size r →
          (targetLive H nodeUp cuts client filename cfg + r * size < size * size ↔
            targetLive H nodeUp cuts client filename cfg + r < size)) ∧
      (Exchangeable (nfs nodeUp · client) cuts ↔ (nodeUp.head? = some true → BothWays cuts 0 client)) ∧
      (Exchangeable (glusterfsCanOpSuccess H cfg nodeUp · client filename) cuts ↔
        (shape.mode = .distributed → nodeUp[targetVol H cfg filename]?.getD false = true →
          BothWays cuts (targetVol H cfg filename) client)) := by
  refine ⟨shape.cfg H, glusterfsInitVol_shape H shape volumes a b plain free, fun right => not_covers right.covers, ?_,
    quorumRight volumes stated, redundancyRight_iff volumes stated, exchangeable_nfs_iff,
    exchangeable_verdict_iff volumes stated⟩
  rw [consultsOwner_iff, targetVol_cfg]

theorem verdict_disperse_three :
    ∃ cfg, glusterfsInitVol (fun _ _ => 0) 3 "create vol disperse 3 redundancy 1".toList = some cfg ∧
      ¬ VerdictRight (fun _ _ => 0) [true, true, true] [] 1 "f".toList cfg := by
  have init := verdictRight_iff (fun _ _ => 0) (.disperse 3 3 1) (by decide) [true, true, true] (by decide) [] 1 "f".toList
    "create vol disperse 3 redundancy 1".toList "create".toList "vol".toList (by decide) (by decide)
  exact init.imp fun cfg facts => ⟨facts.1, facts.2.1⟩

/-- A volume with every node up and no rule in force is refused, with one node to spare. -/
theorem disperse_three_refused :
    ∃ cfg, glusterfsInitVol (fun _ _ => 0) 3 "create vol disperse 3 redundancy 1".toList = some cfg ∧
      ¬ VerdictRight (fun _ _ => 0) [true, true, true] [] 1 "f".toList cfg := by
  refine ⟨_, glusterfsInitVol_shape (fun _ _ => 0) (.disperse 3 3 1) (by decide) "create".toList "vol".toList
    (by decide) (by decide), fun right => ?_⟩
  obtain ⟨length, verdict⟩ := @disperse_verdict [true, true, true] (fun _ _ => 0) [] 1 "f".toList 3 3 1 (by decide) (by decide)
  have few : targetLive (fun _ _ => 0) [true, true, true] [] 1 "f".toList ((Shape.disperse 3 3 1).cfg fun _ _ => 0) = 3 := by
    decide
  have refused := (right.redundancy 1 rfl rfl).mp (by rw [verdict, few]; rfl)
  rw [length, few] at refused
  exact absurd refused (by decide)

end DfsFuzz.Symsc
