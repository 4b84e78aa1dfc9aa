import DfsFuzz.Lib.Ranges
import DfsFuzz.Symsc.Checksum
import Mathlib.Algebra.Order.Field.Rat
import Mathlib.Tactic.Linarith

/-!
The fault model of NFS and GlusterFS (`fault_model.py`): which volume a name is placed on, and whether enough of
its nodes can be reached. A ratio of node counts is exact here; in the source it is a double.
-/

namespace DfsFuzz.Symsc

open RangeLayout

/-- `gf_dm_hashfn`, of a text and its length. -/
abbrev HashFn := Str → Nat → UInt32

/-- `get_consistent_hash`, which hashes the same text for every name. -/
def getConsistentHash (H : HashFn) (_filename : Str) (_size : Nat) : Nat := (H "/".toList 1).toNat

inductive GlusterMode where
  | distributed | replica | disperse
deriving DecidableEq

/-- `FSCFG` -/
structure FsCfg where
  mode : GlusterMode
  redundancy : Option Int
  groups : List (List Nat)
  layout : List (Int × Int)

/-- `FSCFG["quorum"]` -/
def quorum : ℚ := 51 / 100

def modeWords (modeText : Str) : List Str := (Py.split [' '] (modeText.filter (· != '\''))).drop 2

def redundancyOf (words : List Str) : Option (Option Int) :=
  if "redundancy".toList ∈ words then (words[3]?.bind parseInt).map some else some none

/-- `srv_node_ids[i * per : (i + 1) * per]` -/
def subvolGroup (nodes per i : Nat) : List Nat := ((List.range nodes).take ((i + 1) * per)).drop (i * per)

/-- The mode, `vol_cnt` and the groups. A mode that is not matched has no volumes, and the modulus raises. -/
def volumesOf (nodes : Nat) (words : List Str) : Option (GlusterMode × Int × List (List Nat)) :=
  let mode := [' '].intercalate words
  if mode = [] then some (.distributed, nodes, [])
  else if Py.contains "replica".toList mode || Py.contains "disperse".toList mode then
    ((Py.split [' '] mode)[1]?.bind parseInt).bind fun per =>
      if per = 0 then none
      else
        let volCnt := (nodes : Int).fdiv per
        let kind := if Py.contains "replica".toList mode then GlusterMode.replica else .disperse
        some (kind, volCnt, (List.range volCnt.toNat).map (subvolGroup nodes per.toNat))
  else none

/-- `glusterfs_init_vol`, without a value where it raises. -/
def glusterfsInitVol (H : HashFn) (nodes : Nat) (modeText : Str) : Option FsCfg :=
  (redundancyOf (modeWords modeText)).bind fun redundancy =>
    (volumesOf nodes (modeWords modeText)).bind fun volumes =>
      let volCnt := volumes.2.1.toNat
      if volumes.2.1 = 0 then none
      else some
        { mode := volumes.1, redundancy, groups := volumes.2.2
          layout := layout volCnt (getConsistentHash H "/".toList 1 % volCnt) (0xffffffff / volCnt) }

/-- `NETSTATE`: the first node of each pair dropped what comes from the second. -/
abbrev Cuts := List (Int × Int)

def nfs (nodeUp : List Bool) (cuts : Cuts) (client : Nat) : Option Bool :=
  nodeUp.head?.map fun up => up && !cuts.contains ((0 : Int), (client : Int))

def severed (cuts : Cuts) (a b : Nat) : Bool := cuts.contains ((a : Int), (b : Int)) || cuts.contains ((b : Int), (a : Int))

/-- `live_nodes` as a count, without a value where a node has no state. -/
def liveNodes (nodeUp : List Bool) (cuts : Cuts) (client : Nat) : List Nat → Option Nat
  | [] => some 0
  | node :: rest =>
    nodeUp[node]?.bind fun up =>
      (liveNodes nodeUp cuts client rest).map fun live => if up && !severed cuts client node then live + 1 else live

/-- `live_nodes` as a ratio. -/
def liveRatio (nodeUp : List Bool) (cuts : Cuts) (client : Nat) (targets : List Nat) : Option ℚ :=
  if targets = [] then none else (liveNodes nodeUp cuts client targets).map fun live => (live : ℚ) / targets.length

/-- The first volume whose range has the hash, or volume 0. -/
def targetVol (H : HashFn) (cfg : FsCfg) (filename : Str) : Nat :=
  (cfg.layout.findIdx? fun r => decide (RangeLayout.Holds r (getConsistentHash H filename filename.length))).getD 0

def glusterfsCanOpSuccess (H : HashFn) (cfg : FsCfg) (nodeUp : List Bool) (cuts : Cuts) (client : Nat) (filename : Str) :
    Option Bool :=
  let target := targetVol H cfg filename
  match cfg.mode with
  | .distributed => nodeUp[target]?.map fun up => up && !cuts.contains ((target : Int), (client : Int))
  | .replica =>
    cfg.groups[target]?.bind fun targets =>
      (liveRatio nodeUp cuts client targets).map fun ratio => !decide (ratio < quorum)
  | .disperse =>
    cfg.groups[target]?.bind fun targets =>
      (liveRatio nodeUp cuts client targets).bind fun ratio =>
        cfg.redundancy.map fun redundancy : Int =>
          -- the source takes the ratio where the count is meant
          !decide ((targets.length : ℚ) - ratio > (redundancy : ℚ))

inductive Shape where
  | distributed (nodes : Nat)
  | replica (nodes size : Nat)
  | disperse (nodes size redundancy : Nat)

namespace Shape

def nodes : Shape → Nat
  | distributed nodes | replica nodes _ | disperse nodes _ _ => nodes

def vols : Shape → Nat
  | distributed nodes => nodes
  | replica nodes size | disperse nodes size _ => nodes / size

/-- The words of the mode behind the first two. -/
def words : Shape → List Str
  | distributed _ => []
  | replica _ size => ["replica".toList, decimal size]
  | disperse _ size redundancy => ["disperse".toList, decimal size, "redundancy".toList, decimal redundancy]

def mode : Shape → GlusterMode
  | distributed _ => .distributed
  | replica _ _ => .replica
  | disperse _ _ _ => .disperse

def redundancy : Shape → Option Int
  | disperse _ _ redundancy => some redundancy
  | _ => none

def groups : Shape → List (List Nat)
  | distributed _ => []
  | replica nodes size | disperse nodes size _ => (List.range (nodes / size)).map (subvolGroup nodes size)

def cfg (H : HashFn) (shape : Shape) : FsCfg where
  mode := shape.mode
  redundancy := shape.redundancy
  groups := shape.groups
  layout := layout shape.vols (getConsistentHash H "/".toList 1 % shape.vols) (0xffffffff / shape.vols)

end Shape

/-! ### The configuration is read from its text -/

theorem decimal_plain (n : Nat) : ' ' ∉ decimal n := not_mem_decimal rfl

theorem modeWords_eq {text a b : Str} {words : List Str} (plain : text.filter (· != '\'') = [' '].intercalate (a :: b :: words))
    (free : ∀ w ∈ a :: b :: words, ' ' ∉ w) : modeWords text = words := by
  rw [modeWords, plain, Py.split_intercalate (by simp) free]
  rfl

namespace Shape

theorem words_free (shape : Shape) : ∀ w ∈ shape.words, ' ' ∉ w := by
  intro w member
  cases shape with
  | distributed => cases member
  | replica _ size =>
    simp only [words, List.mem_cons, List.not_mem_nil, or_false] at member
    obtain rfl | rfl := member
    · decide
    · exact decimal_plain size
  | disperse _ size redundancy =>
    simp only [words, List.mem_cons, List.not_mem_nil, or_false] at member
    obtain rfl | rfl | rfl | rfl := member
    · decide
    · exact decimal_plain size
    · decide
    · exact decimal_plain redundancy

theorem split_mode {s : Shape} (named : s.words ≠ []) : Py.split [' '] ([' '].intercalate s.words) = s.words :=
  Py.split_intercalate named s.words_free

theorem decimal_ne {w : Str} {c : Char} (inside : c ∈ w) (other : c.isDigit = false) (n : Nat) : w ≠ decimal n :=
  fun same => not_mem_decimal other (same ▸ inside)

theorem redundancyOf_words (shape : Shape) : redundancyOf shape.words = some shape.redundancy := by
  cases shape with
  | distributed => rfl
  | replica _ size =>
    have absent : "redundancy".toList ∉ ["replica".toList, decimal size] := by
      rw [List.mem_cons, List.mem_singleton, not_or]
      exact ⟨by decide, decimal_ne (c := 'r') (by decide) rfl size⟩
    exact if_neg absent
  | disperse _ size r =>
    have present : "redundancy".toList ∈ ["disperse".toList, decimal size, "redundancy".toList, decimal r] :=
      List.mem_cons_of_mem _ (List.mem_cons_of_mem _ List.mem_cons_self)
    have third : ["disperse".toList, decimal size, "redundancy".toList, decimal r][3]?.bind parseInt = some (r : Int) :=
      parseInt_decimal r
    rw [words, redundancyOf, if_pos present, third]
    rfl

theorem contains_first (w : Str) (rest : List Str) : Py.contains w ([' '].intercalate (w :: rest)) = true := by
  rw [Py.contains_iff]
  cases rest with
  | nil => exact List.intercalate_singleton  ▸ List.infix_refl w
  | cons next rest =>
    rw [List.intercalate_cons_cons, List.append_assoc]
    exact (List.prefix_append _ _).isInfix

theorem no_replica (size redundancy : Nat) :
    Py.contains "replica".toList
      ([' '].intercalate ["disperse".toList, decimal size, "redundancy".toList, decimal redundancy]) = false := by
  have free : ∀ n, 'l' ∉ decimal n := fun n => not_mem_decimal rfl
  refine Py.not_contains_of_free (d := 'l') (by decide) ?_
  simp only [List.intercalate_cons_cons, List.intercalate_singleton, List.mem_append, not_or]
  exact ⟨⟨by decide, by decide⟩, ⟨free size, by decide⟩, ⟨by decide, by decide⟩, free redundancy⟩

theorem volumesOf_words {shape : Shape} (volumes : 1 ≤ shape.vols) :
    volumesOf shape.nodes shape.words = some (shape.mode, (shape.vols : Int), shape.groups) := by
  have size_pos {nodes size : Nat} (one : 1 ≤ nodes / size) : (size : Int) ≠ 0 := by
    rintro zero
    rw [Int.natCast_eq_zero.mp zero, Nat.div_zero] at one
    cases one
  have count (nodes size : Nat) : ((nodes : Int).fdiv size) = ((nodes / size : Nat) : Int) := by
    rw [Int.fdiv_eq_ediv_of_nonneg _ (Int.natCast_nonneg size), Int.natCast_ediv]
  cases shape with
  | distributed => rfl
  | replica nodes size =>
    have named : [' '].intercalate ["replica".toList, decimal size] ≠ [] := by simp [List.intercalate_cons_cons]
    have split : (Py.split [' '] ([' '].intercalate ["replica".toList, decimal size]))[1]?.bind parseInt = some (size : Int) := by
      have parts := split_mode (s := .replica nodes size) (by simp [words])
      rw [words] at parts
      rw [parts]
      exact parseInt_decimal size
    have kind := contains_first "replica".toList [decimal size]
    simp only [words, volumesOf, if_neg named, kind, Bool.true_or, if_true, split, Option.bind_some, Shape.nodes]
    rw [if_neg (size_pos volumes), count]
    rfl
  | disperse nodes size r =>
    have named : [' '].intercalate ["disperse".toList, decimal size, "redundancy".toList, decimal r] ≠ [] := by
      simp [List.intercalate_cons_cons]
    have split : (Py.split [' '] ([' '].intercalate ["disperse".toList, decimal size, "redundancy".toList, decimal r]))[1]?.bind
        parseInt = some (size : Int) := by
      have parts := split_mode (s := .disperse nodes size r) (by simp [words])
      rw [words] at parts
      rw [parts]
      exact parseInt_decimal size
    have kind := contains_first "disperse".toList [decimal size, "redundancy".toList, decimal r]
    simp only [words, volumesOf, if_neg named, kind, no_replica size r, Bool.false_or, if_true, split, Option.bind_some,
      Shape.nodes]
    rw [if_neg (size_pos volumes), count]
    rfl

end Shape

theorem glusterfsInitVol_shape (H : HashFn) (shape : Shape) (volumes : 1 ≤ shape.vols) {text : Str} (a b : Str)
    (plain : text.filter (· != '\'') = [' '].intercalate (a :: b :: shape.words)) (free : ' ' ∉ a ∧ ' ' ∉ b) :
    glusterfsInitVol H shape.nodes text = some (shape.cfg H) := by
  have words : modeWords text = shape.words := by
    refine modeWords_eq plain fun w member => ?_
    simp only [List.mem_cons] at member
    obtain rfl | rfl | member := member
    · exact free.1
    · exact free.2
    · exact shape.words_free w member
  have some_vol : (shape.vols : Int) ≠ 0 := by omega
  rw [glusterfsInitVol, words, shape.redundancyOf_words, Option.bind_some, Shape.volumesOf_words volumes, Option.bind_some]
  simp only [if_neg some_vol, Int.toNat_natCast]
  rfl

end DfsFuzz.Symsc
