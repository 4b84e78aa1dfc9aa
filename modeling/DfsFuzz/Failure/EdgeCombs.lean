import DfsFuzz.Lib.GoSlice
import Mathlib.Data.List.Nodup
import Mathlib.Data.List.Perm.Basic

/-!
The partitions of `genEdgeCombs` (`syz-fuzzer/proc.go`): `updateComb` takes the edges of a combination one
by one into a list of servers with the nodes that each is cut off from. It runs over the list by value.
-/

namespace DfsFuzz.Failure

/-- `prog.SrvFailInfo`, with its slice as a value. -/
structure SrvFailItem where
  srv : Int
  partNodes : Go.SliceHeader

/-- A `[]prog.SrvFailInfo` with the arrays of all `PartNodes`. -/
structure Comb where
  arrays : List (List Int) := []
  items : List SrvFailItem := []

def Comb.infos (comb : Comb) : List (Int × List Int) :=
  comb.items.map fun item => (item.srv, item.partNodes.read comb.arrays)

def updateComb (g : Go.Growth) (comb : Comb) (node partNode : Int) : Comb :=
  match comb.items.find? fun item => item.srv = node with
  | some item =>
    let appended := item.partNodes.append g 0 comb.arrays partNode
    -- the longer slice goes into the loop variable, which is a copy of the element
    let _item := { item with partNodes := appended.2 }
    { comb with arrays := appended.1 }
  | none =>
    let part := Go.SliceHeader.literal comb.arrays [partNode]
    { arrays := part.1, items := comb.items ++ [⟨node, part.2⟩] }

def updateCombs (g : Go.Growth) (edges : List (Int × Int)) (comb : Comb) : Comb :=
  edges.foldl (fun comb edge => updateComb g comb edge.1 edge.2) comb

def conns (srvNum cltNum : Nat) : List (Int × Int) :=
  (List.range srvNum).flatMap fun i => (List.range' (i + 1) (srvNum + cltNum - (i + 1))).map fun (j : Nat) => ((i : Int), (j : Int))

def edgeOf (srvNum : Nat) (conn : Int × Int) : Option (Int × Int) :=
  if conn.1 ≤ srvNum then some conn else if conn.2 ≤ srvNum then some conn.swap else none

/-- `combinations` is `combin.Combinations`. -/
def genEdgeCombs (g : Go.Growth) (combinations : Nat → Nat → List (List Nat)) (srvNum cltNum : Nat) : List Comb :=
  let conns := conns srvNum cltNum
  (List.range' 1 1).flatMap fun sub =>
    (combinations conns.length sub).map fun c =>
      updateCombs g ((c.filterMap fun i => conns[i]?).filterMap (edgeOf srvNum)) {}

/-! ### What a list of edges comes to -/

def peersOf (edges : List (Int × Int)) (srv : Int) : List Int := (edges.filter fun edge => edge.1 = srv).map Prod.snd

/-- One entry for each server, in the order of first occurrence, with the peers of all its edges. -/
def combined (edges : List (Int × Int)) : List (Int × List Int) :=
  (edges.map Prod.fst).eraseDups.map fun srv => (srv, peersOf edges srv)

/-- Every slice has an array and one element. -/
def Comb.Single (comb : Comb) : Prop :=
  ∀ item ∈ comb.items, item.partNodes.array < comb.arrays.length ∧ item.partNodes.len = 1

theorem infos_servers (comb : Comb) : comb.infos.map Prod.fst = comb.items.map SrvFailItem.srv := by
  simp [Comb.infos]

/-- A server that is in the list keeps its entry as it is, and another one comes to the end. -/
theorem updateComb_single (g : Go.Growth) {comb : Comb} (single : comb.Single) (node partNode : Int) :
    (updateComb g comb node partNode).Single ∧
    (updateComb g comb node partNode).infos =
      if node ∈ comb.infos.map Prod.fst then comb.infos else comb.infos ++ [(node, [partNode])] := by
  unfold updateComb
  cases found : comb.items.find? fun item => item.srv = node with
  | some item =>
    have member := List.mem_of_find?_eq_some found
    have named : item.srv = node := by simpa using List.find?_some found
    have listed : node ∈ comb.infos.map Prod.fst := by
      rw [infos_servers, ← named]
      exact List.mem_map_of_mem member
    rw [if_pos listed]
    constructor
    · intro other inItems
      obtain ⟨inside, one⟩ := single other inItems
      exact ⟨Nat.lt_of_lt_of_le inside (Go.SliceHeader.length_append g 0 _ _ _), one⟩
    · refine List.map_congr_left fun other inItems => ?_
      obtain ⟨inside, one⟩ := single other inItems
      have short : other.partNodes.array = item.partNodes.array → other.partNodes.len ≤ item.partNodes.len := fun _ =>
        Nat.le_of_eq (one.trans (single item member).2.symm)
      rw [Prod.mk.injEq]
      exact ⟨rfl, Go.SliceHeader.read_append g 0 inside short _⟩
  | none =>
    have absent : node ∉ comb.infos.map Prod.fst := by
      rw [infos_servers]
      rintro listed
      obtain ⟨item, member, named⟩ := List.mem_map.mp listed
      exact absurd named (by simpa using List.find?_eq_none.mp found item member)
    rw [if_neg absent]
    constructor
    · intro item member
      rcases List.mem_append.mp member with old | new
      · obtain ⟨inside, one⟩ := single item old
        refine ⟨?_, one⟩
        simp only [Go.SliceHeader.literal, List.length_append, List.length_singleton]
        omega
      · obtain rfl := List.mem_singleton.mp new
        simp [Go.SliceHeader.literal]
    · simp only [Comb.infos, List.map_append, List.map_singleton, Go.SliceHeader.read_literal]
      congr 1
      refine List.map_congr_left fun item member => ?_
      rw [Go.SliceHeader.literal, Go.SliceHeader.read_concat (single item member).1]

theorem peersOf_concat (edges : List (Int × Int)) (edge : Int × Int) (srv : Int) :
    peersOf (edges ++ [edge]) srv = peersOf edges srv ++ if edge.1 = srv then [edge.2] else [] := by
  rw [peersOf, peersOf, List.filter_append, List.map_append]
  by_cases here : edge.1 = srv
  · simp [here]
  · simp [here]

theorem length_peersOf (edges : List (Int × Int)) (srv : Int) :
    (peersOf edges srv).length = (edges.map Prod.fst).count srv := by
  rw [peersOf, List.length_map, ← List.countP_eq_length_filter, List.count, List.countP_map]
  exact List.countP_congr fun edge _ => by simp

theorem updateCombs_infos (g : Go.Growth) (edges : List (Int × Int)) :
    (updateCombs g edges {}).Single ∧
    (updateCombs g edges {}).infos =
      (edges.map Prod.fst).eraseDups.map fun srv => (srv, (peersOf edges srv).take 1) := by
  induction edges using List.reverseRecOn with
  | nil => exact ⟨nofun, rfl⟩
  | append_singleton edges edge ih =>
    obtain ⟨single, infos⟩ := ih
    obtain ⟨single', infos'⟩ := updateComb_single g single edge.1 edge.2
    rw [updateCombs, List.foldl_concat, ← updateCombs]
    refine ⟨single', infos'.trans ?_⟩
    have servers : (updateCombs g edges {}).infos.map Prod.fst = (edges.map Prod.fst).eraseDups := by
      rw [infos, List.map_map]
      exact List.map_id _
    -- a server that is there has a first peer, so another edge of it changes nothing
    have kept : ∀ srv ∈ edges.map Prod.fst, (peersOf (edges ++ [edge]) srv).take 1 = (peersOf edges srv).take 1 := by
      intro srv listed
      have some : 1 ≤ (peersOf edges srv).length := by
        rw [length_peersOf]
        exact List.count_pos_iff.mpr listed
      rw [peersOf_concat, List.take_append_of_le_length some]
    have listed_iff : edge.1 ∈ (updateCombs g edges {}).infos.map Prod.fst ↔ edge.1 ∈ edges.map Prod.fst := by
      rw [servers, List.mem_eraseDups]
    rw [List.map_append, List.map_singleton, List.eraseDups_append]
    have same : (edges.map Prod.fst).eraseDups.map (fun srv => (srv, (peersOf (edges ++ [edge]) srv).take 1)) =
        (edges.map Prod.fst).eraseDups.map fun srv => (srv, (peersOf edges srv).take 1) :=
      List.map_congr_left fun srv member => by rw [kept srv (List.mem_eraseDups.mp member)]
    by_cases listed : edge.1 ∈ edges.map Prod.fst
    · have nothing : [edge.1].removeAll (edges.map Prod.fst) = [] := by
        rw [List.removeAll, List.filter_eq_nil_iff]
        intro srv member
        obtain rfl := List.mem_singleton.mp member
        simpa using listed
      rw [if_pos (listed_iff.mpr listed), infos, nothing, List.eraseDups_nil, List.append_nil, same]
    · have none : peersOf edges edge.1 = [] := by
        rw [← List.length_eq_zero_iff, length_peersOf]
        exact List.count_eq_zero.mpr listed
      rw [if_neg (listed_iff.not.mpr listed), infos, List.map_append, same]
      simp [List.removeAll, peersOf_concat, none, List.eraseDups_cons, listed]

theorem updateCombs_of_nodup (g : Go.Growth) {edges : List (Int × Int)} (once : (edges.map Prod.fst).Nodup) :
    (updateCombs g edges {}).infos = combined edges := by
  rw [(updateCombs_infos g edges).2, combined, List.map_inj_left]
  intro srv _
  have short : (peersOf edges srv).length ≤ 1 := by
    rw [length_peersOf]
    exact List.nodup_iff_count_le_one.mp once srv
  rw [List.take_of_length_le short]

/-- The list is the combined one exactly if no server has two edges. -/
theorem updateCombs_combined_iff (g : Go.Growth) (edges : List (Int × Int)) :
    (updateCombs g edges {}).infos = combined edges ↔ (edges.map Prod.fst).Nodup := by
  constructor
  · intro same
    rw [(updateCombs_infos g edges).2, combined, List.map_inj_left] at same
    refine List.nodup_iff_count_le_one.mpr fun srv => ?_
    by_cases listed : srv ∈ edges.map Prod.fst
    · have whole := (Prod.mk.inj (same srv (List.mem_eraseDups.mpr listed))).2
      rw [← length_peersOf, ← whole, List.length_take]
      exact Nat.min_le_left _ _
    · rw [List.count_eq_zero.mpr listed]
      exact Nat.zero_le 1
  · exact updateCombs_of_nodup g

/-- Two partitions of one server: the second is lost. -/
theorem updateCombs_loses : ¬ ∀ g edges, (updateCombs g edges {}).infos = combined edges := by
  intro claim
  exact absurd (claim Go.Growth.doubling [(0, 1), (0, 2)]) (by decide)

/-- The combinations that are taken have one edge each, and one edge is not lost. -/
theorem genEdgeCombs_combined (g : Go.Growth) {combinations : Nat → Nat → List (List Nat)}
    (sized : ∀ n k, ∀ c ∈ combinations n k, c.length = k) (srvNum cltNum : Nat) :
    ∀ comb ∈ genEdgeCombs g combinations srvNum cltNum, ∃ edges : List (Int × Int), edges.length ≤ 1 ∧
      comb.infos = combined edges := by
  intro comb member
  obtain ⟨sub, taken, inner⟩ := List.mem_flatMap.mp member
  obtain rfl := List.mem_singleton.mp taken
  obtain ⟨c, chosen, rfl⟩ := List.mem_map.mp inner
  have short : ((c.filterMap fun i => (conns srvNum cltNum)[i]?).filterMap (edgeOf srvNum)).length ≤ 1 := by
    calc _ ≤ (c.filterMap fun i => (conns srvNum cltNum)[i]?).length := List.length_filterMap_le _ _
      _ ≤ c.length := List.length_filterMap_le _ _
      _ = 1 := sized _ _ c chosen
  refine ⟨_, short, updateCombs_of_nodup g ?_⟩
  refine List.nodup_iff_count_le_one.mpr fun srv => Nat.le_trans List.count_le_length ?_
  rwa [List.length_map]

end DfsFuzz.Failure
