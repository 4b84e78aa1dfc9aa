import DfsFuzz.Checker.MdCmp
import DfsFuzz.Lib.BestScan
import Mathlib.Data.String.Basic

/-!
The snapshot under canonical names (`prog/hmdfs_conflict.go`): which entry every canonical name keeps,
whatever the order in which the map is traversed.
-/

namespace DfsFuzz.Checker

open Hmdfs

-- The names are only compared here.
attribute [local irreducible] canonicalHmdfsName conflictDevID

def devBefore (a b : Int64 × String) : Prop := a.1 < b.1 ∨ a.1 = b.1 ∧ a.2 < b.2

instance : DecidableRel devBefore := fun a b => inferInstanceAs (Decidable (a.1 < b.1 ∨ a.1 = b.1 ∧ a.2 < b.2))

theorem devBefore_iff {a b : Int64 × String} :
    devBefore a b ↔ a.1.toInt < b.1.toInt ∨ a.1.toInt = b.1.toInt ∧ a.2 < b.2 := by
  unfold devBefore
  rw [Int64.lt_iff_toInt_lt, Int64.toInt_inj]

theorem devBefore_asymm (a b : Int64 × String) (before : devBefore a b) : ¬ devBefore b a := by
  rw [devBefore_iff] at before ⊢
  rintro (lower | ⟨same, smaller⟩)
  · omega
  · rcases before with lower' | ⟨_, smaller'⟩
    · omega
    · exact lt_asymm smaller smaller'

theorem devBefore_trans (a b c : Int64 × String) (first : devBefore a b) (second : devBefore b c) : devBefore a c := by
  rw [devBefore_iff] at first second ⊢
  rcases first with lower | ⟨same, smaller⟩
  · left
    omega
  · rcases second with lower' | ⟨same', smaller'⟩
    · left
      omega
    · exact Or.inr ⟨same.trans same', lt_trans smaller smaller'⟩

theorem devBefore_total (a b : Int64 × String) : devBefore a b ∨ a = b ∨ devBefore b a := by
  rw [devBefore_iff, devBefore_iff]
  rcases lt_trichotomy a.1.toInt b.1.toInt with lower | same | higher
  · exact Or.inl (Or.inl lower)
  · rcases lt_trichotomy a.2 b.2 with smaller | equal | larger
    · exact Or.inl (Or.inr ⟨same, smaller⟩)
    · exact Or.inr (Or.inl (Prod.ext (Int64.toInt_inj.mp same) equal))
    · exact Or.inr (Or.inr (Or.inr ⟨same.symm, larger⟩))
  · exact Or.inr (Or.inr (Or.inl higher))

/-- The device id and the name, by which the copies of one file are compared. -/
def devName (name : String) : Int64 × String := (conflictDevID name, name)

/-! ### The two loops -/

def backupOf (e : String × FileMetadata) : Backup := ⟨conflictDevID e.1, e.1, e.2⟩

def Backup.canon (b : Backup) : String := canonicalHmdfsName b.name

def Backup.before (a b : Backup) : Prop := devBefore (a.dev, a.name) (b.dev, b.name)

instance : DecidableRel Backup.before := fun a b => inferInstanceAs (Decidable (devBefore (a.dev, a.name) (b.dev, b.name)))

def isOwn (e : String × FileMetadata) : Bool := canonicalHmdfsName e.1 = e.1

theorem not_isOwn {e : String × FileMetadata} : (!isOwn e) = true ↔ canonicalHmdfsName e.1 ≠ e.1 := by
  simp [isOwn]

theorem keepBackup_eq (backups : Go.Map String Backup) (e : String × FileMetadata) :
    keepBackup backups e.1 e.2 = LeastByKey.keepLeast Backup.canon Backup.before backups (backupOf e) := by
  unfold keepBackup LeastByKey.keepLeast
  have key : (backupOf e).canon = canonicalHmdfsName e.1 := rfl
  rw [key]
  dsimp only
  cases backups.lookup (canonicalHmdfsName e.1) with
  | none => rfl
  | some old =>
    simp only [decide_eq_true_eq]
    rfl

/-- The loop over the map is one loop over the own names and one over the copies. -/
theorem splitLoop (l : List (String × FileMetadata)) (both : FsMd × Go.Map String Backup) :
    l.foldl (fun (both : FsMd × Go.Map String Backup) e =>
      if canonicalHmdfsName e.1 = e.1 then (both.1.insert e.1 e.2, both.2)
      else (both.1, keepBackup both.2 e.1 e.2)) both =
    ((l.filter isOwn).foldl (fun out e => out.insert e.1 e.2) both.1,
      ((l.filter fun e => !isOwn e).map backupOf).foldl (LeastByKey.keepLeast Backup.canon Backup.before) both.2) := by
  induction l generalizing both with
  | nil => rfl
  | cons e l ih =>
    rw [List.foldl_cons, ih]
    by_cases own : canonicalHmdfsName e.1 = e.1
    · have here : isOwn e = true := decide_eq_true own
      rw [if_pos own, List.filter_cons_of_pos here, List.filter_cons_of_neg (by simp [here]), List.foldl_cons]
    · have here : isOwn e = false := decide_eq_false own
      rw [if_neg own, List.filter_cons_of_neg (by simp [here]), List.filter_cons_of_pos (by simp [here]), List.map_cons,
        List.foldl_cons, keepBackup_eq]

def ownEntries (l : List (String × FileMetadata)) : FsMd :=
  (l.filter isOwn).foldl (fun out e => out.insert e.1 e.2) ∅

def backupsOf (l : List (String × FileMetadata)) : Go.Map String Backup :=
  ((l.filter fun e => !isOwn e).map backupOf).foldl (LeastByKey.keepLeast Backup.canon Backup.before) ∅

theorem lookup_canonicalizeFsMd {order : Go.RangeOrder} {fsMd : FsMd} (nonempty : fsMd.items.length ≠ 0) (k : String) :
    (canonicalizeFsMd order fsMd).lookup k =
      ((ownEntries (order.arrange fsMd.items)).lookup k).or
        (((backupsOf (order.arrange fsMd.items)).lookup k).map Backup.md) := by
  unfold canonicalizeFsMd
  rw [if_neg nonempty, splitLoop]
  have filled := Go.Map.lookup_foldl_putNew (Prod.fst : String × Backup → String) (fun e => e.2.md)
    (order.arrange (backupsOf (order.arrange fsMd.items)).items) (ownEntries (order.arrange fsMd.items)) k
  rw [Go.Map.find?_perm_of_nodup (order.perm _)
    (((order.perm _).map Prod.fst).nodup_iff.mpr (Go.Map.nodup_items_keys _)) k] at filled
  rw [← Go.Map.find?_items (backupsOf (order.arrange fsMd.items)), Option.map_map]
  exact filled

theorem lookup_ownEntries {order : Go.RangeOrder} {fsMd : FsMd} {k : String} {md : FileMetadata} :
    (ownEntries (order.arrange fsMd.items)).lookup k = some md ↔ canonicalHmdfsName k = k ∧ fsMd.lookup k = some md := by
  have nodup : ((order.arrange fsMd.items).map Prod.fst).Nodup :=
    ((order.perm _).map Prod.fst).nodup_iff.mpr (Go.Map.nodup_items_keys fsMd)
  unfold ownEntries
  rw [Go.Map.lookup_filled (nodup.sublist (List.filter_sublist.map Prod.fst))]
  constructor
  · rintro ⟨⟨name, md'⟩, member, rfl, rfl⟩
    obtain ⟨inside, own⟩ := List.mem_filter.mp member
    exact ⟨of_decide_eq_true own, Go.Map.mem_items.mp ((order.perm _).mem_iff.mp inside)⟩
  · rintro ⟨own, found⟩
    exact ⟨(k, md), List.mem_filter.mpr ⟨(order.perm _).mem_iff.mpr (Go.Map.mem_items.mpr found), decide_eq_true own⟩,
      rfl, rfl⟩

theorem mem_backups {order : Go.RangeOrder} {fsMd : FsMd} {b : Backup} :
    b ∈ ((order.arrange fsMd.items).filter fun e => !isOwn e).map backupOf ↔
      fsMd.lookup b.name = some b.md ∧ b.canon ≠ b.name ∧ b.dev = conflictDevID b.name := by
  constructor
  · intro member
    obtain ⟨⟨name, md⟩, inside, rfl⟩ := List.mem_map.mp member
    obtain ⟨inside, copy⟩ := List.mem_filter.mp inside
    exact ⟨Go.Map.mem_items.mp ((order.perm _).mem_iff.mp inside), not_isOwn.mp copy, rfl⟩
  · rintro ⟨found, copy, dev⟩
    refine List.mem_map.mpr ⟨(b.name, b.md), List.mem_filter.mpr ⟨?_, not_isOwn.mpr copy⟩, ?_⟩
    · exact (order.perm _).mem_iff.mpr (Go.Map.mem_items.mpr found)
    · unfold backupOf
      rw [← dev]

theorem backupsOf_kept (l : List (String × FileMetadata)) :
    LeastByKey.Kept Backup.canon Backup.before ((l.filter fun e => !isOwn e).map backupOf) (backupsOf l) := by
  have asymm : ∀ a b, Backup.before a b → ¬ Backup.before b a :=
    fun a b => devBefore_asymm (a.dev, a.name) (b.dev, b.name)
  have trans : ∀ a b c, Backup.before a b → Backup.before b c → Backup.before a c :=
    fun a b c => devBefore_trans (a.dev, a.name) (b.dev, b.name) (c.dev, c.name)
  exact LeastByKey.foldl_kept asymm trans ((l.filter fun e => !isOwn e).map backupOf)

/-! ### What the canonical map holds -/

def OwnKey (fsMd : FsMd) (k : String) : Prop := canonicalHmdfsName k = k ∧ (fsMd.lookup k).isSome

/-- `name` is a copy with the canonical name `k`, and before all others. -/
structure LeastCopy (fsMd : FsMd) (k name : String) : Prop where
  present : (fsMd.lookup name).isSome
  canonical : canonicalHmdfsName name = k
  least : ∀ name', (fsMd.lookup name').isSome → canonicalHmdfsName name' = k → name' ≠ name →
    devBefore (devName name) (devName name')

theorem LeastCopy.unique {fsMd : FsMd} {k name name' : String} (first : LeastCopy fsMd k name)
    (second : LeastCopy fsMd k name') : name = name' := by
  by_contra apart
  exact devBefore_asymm _ _ (first.least name' second.present second.canonical fun same => apart same.symm)
    (second.least name first.present first.canonical apart)

structure Canonical (fsMd out : FsMd) : Prop where
  keys : ∀ k, (out.lookup k).isSome ↔ ∃ name, (fsMd.lookup name).isSome ∧ canonicalHmdfsName name = k
  own : ∀ k, OwnKey fsMd k → out.lookup k = fsMd.lookup k
  copy : ∀ k, ¬ OwnKey fsMd k → (out.lookup k).isSome →
    ∃! name, LeastCopy fsMd k name ∧ out.lookup k = fsMd.lookup name

theorem Canonical.lookup_eq {fsMd out out' : FsMd} (first : Canonical fsMd out) (second : Canonical fsMd out') (k : String) :
    out.lookup k = out'.lookup k := by
  by_cases own : OwnKey fsMd k
  · rw [first.own k own, second.own k own]
  · by_cases present : (out.lookup k).isSome
    · obtain ⟨name, ⟨least, value⟩, _⟩ := first.copy k own present
      obtain ⟨name', ⟨least', value'⟩, _⟩ := second.copy k own ((second.keys k).mpr ((first.keys k).mp present))
      rw [value, value', least.unique least']
    · have missing : ¬ (out'.lookup k).isSome := fun there => present ((first.keys k).mpr ((second.keys k).mp there))
      rw [Option.not_isSome_iff_eq_none] at present missing
      rw [present, missing]

theorem canonicalizeFsMd_canonical (order : Go.RangeOrder) (fsMd : FsMd) :
    Canonical fsMd (canonicalizeFsMd order fsMd) := by
  by_cases empty : fsMd.items.length = 0
  · have none : ∀ k, fsMd.lookup k = none := by
      intro k
      cases found : fsMd.lookup k with
      | none => rfl
      | some md =>
        have member := Go.Map.mem_items.mpr found
        rw [List.length_eq_zero_iff.mp empty] at member
        cases member
    unfold canonicalizeFsMd
    rw [if_pos empty]
    exact ⟨fun k => by simp [none], fun _ _ => rfl, fun k _ present => by simp [none] at present⟩
  · have value (k : String) := @lookup_canonicalizeFsMd order fsMd empty k
    have kept := backupsOf_kept (order.arrange fsMd.items)
    have noOwn : ∀ k, ¬ OwnKey fsMd k → (ownEntries (order.arrange fsMd.items)).lookup k = none := by
      intro k other
      cases found : (ownEntries (order.arrange fsMd.items)).lookup k with
      | none => rfl
      | some md =>
        obtain ⟨own, here⟩ := lookup_ownEntries.mp found
        exact absurd ⟨own, by rw [here]; rfl⟩ other
    refine ⟨fun k => ?_, fun k own => ?_, fun k other present => ?_⟩
    · by_cases own : OwnKey fsMd k
      · obtain ⟨md, here⟩ := Option.isSome_iff_exists.mp own.2
        rw [value, lookup_ownEntries.mpr ⟨own.1, here⟩, Option.some_or]
        exact iff_of_true rfl ⟨k, own.2, own.1⟩
      · rw [value, noOwn k own, Option.none_or, Option.isSome_map, kept.present k]
        constructor
        · rintro ⟨b, member, canon⟩
          obtain ⟨found, _, _⟩ := mem_backups.mp member
          exact ⟨b.name, by rw [found]; rfl, canon⟩
        · rintro ⟨name, here, canon⟩
          obtain ⟨md, found⟩ := Option.isSome_iff_exists.mp here
          refine ⟨⟨conflictDevID name, name, md⟩, mem_backups.mpr ⟨found, fun same => ?_, rfl⟩, canon⟩
          have named : k = name := canon.symm.trans same
          exact own ⟨by rwa [named] at canon ⊢, by rwa [named]⟩
    · obtain ⟨md, here⟩ := Option.isSome_iff_exists.mp own.2
      rw [value, lookup_ownEntries.mpr ⟨own.1, here⟩, here, Option.some_or]
    · rw [value, noOwn k other, Option.none_or, Option.isSome_map] at present
      obtain ⟨b, found⟩ := Option.isSome_iff_exists.mp present
      have isLeast := kept.least k b found
      obtain ⟨stored, _, dev⟩ := mem_backups.mp isLeast.mem
      have least : LeastCopy fsMd k b.name := by
        refine ⟨by rw [stored]; rfl, isLeast.key_eq, fun name' here canon apart => ?_⟩
        obtain ⟨md', found'⟩ := Option.isSome_iff_exists.mp here
        have member : (⟨conflictDevID name', name', md'⟩ : Backup) ∈
            ((order.arrange fsMd.items).filter fun e => !isOwn e).map backupOf := by
          refine mem_backups.mpr ⟨found', fun same => ?_, rfl⟩
          have named : k = name' := canon.symm.trans same
          exact other ⟨by rwa [named] at canon ⊢, by rwa [named]⟩
        have notBefore := isLeast.least _ member canon
        unfold Backup.before at notBefore
        rw [dev] at notBefore
        rcases devBefore_total (devName b.name) (devName name') with before | same | after
        · exact before
        · exact absurd (congrArg Prod.snd same).symm apart
        · exact absurd after notBefore
      refine ⟨b.name, ⟨least, ?_⟩, fun name' both => both.1.unique least⟩
      rw [value, noOwn k other, Option.none_or, found, stored]
      rfl

/-- `CanonicalizeFsMd` over the maps of the program: `out` is a new one, and only `out` is written. -/
def canonicalizeFsMdAt (order : Go.RangeOrder) (heap : List FsMd) (fsMd : Nat) : List FsMd × Nat :=
  if (heap.getD fsMd ∅).items.length = 0 then (heap, fsMd)
  else
    let out := heap.length
    let both := (order.arrange (heap.getD fsMd ∅).items).foldl (fun (both : List FsMd × Go.Map String Backup) e =>
      if canonicalHmdfsName e.1 = e.1 then (both.1.modify out fun m => m.insert e.1 e.2, both.2)
      else (both.1, keepBackup both.2 e.1 e.2)) (heap ++ [∅], ∅)
    ((order.arrange both.2.items).foldl (fun heap e => heap.modify out fun m => m.putNew e.1 e.2.md) both.1, out)

theorem modify_last {α : Type} (l : List α) (a : α) (f : α → α) : (l ++ [a]).modify l.length f = l ++ [f a] := by
  rw [List.modify_eq_set_getElem?]
  simp

theorem canonicalizeFsMdAt_eq (order : Go.RangeOrder) (heap : List FsMd) (fsMd : Nat) :
    canonicalizeFsMdAt order heap fsMd =
      if (heap.getD fsMd ∅).items.length = 0 then (heap, fsMd)
      else (heap ++ [canonicalizeFsMd order (heap.getD fsMd ∅)], heap.length) := by
  have firstLoop : ∀ (l : List (String × FileMetadata)) (out : FsMd) (backups : Go.Map String Backup),
      l.foldl (fun (both : List FsMd × Go.Map String Backup) e =>
        if canonicalHmdfsName e.1 = e.1 then (both.1.modify heap.length fun m => m.insert e.1 e.2, both.2)
        else (both.1, keepBackup both.2 e.1 e.2)) (heap ++ [out], backups) =
      (heap ++ [(l.foldl (fun (both : FsMd × Go.Map String Backup) e =>
        if canonicalHmdfsName e.1 = e.1 then (both.1.insert e.1 e.2, both.2)
        else (both.1, keepBackup both.2 e.1 e.2)) (out, backups)).1],
        (l.foldl (fun (both : FsMd × Go.Map String Backup) e =>
          if canonicalHmdfsName e.1 = e.1 then (both.1.insert e.1 e.2, both.2)
          else (both.1, keepBackup both.2 e.1 e.2)) (out, backups)).2) := by
    intro l
    induction l with
    | nil => exact fun _ _ => rfl
    | cons e l ih =>
      intro out backups
      rw [List.foldl_cons, List.foldl_cons]
      split
      · rw [modify_last]
        exact ih _ _
      · exact ih _ _
  have secondLoop : ∀ (l : List (String × Backup)) (out : FsMd),
      l.foldl (fun heap' e => heap'.modify heap.length fun m => m.putNew e.1 e.2.md) (heap ++ [out]) =
        heap ++ [l.foldl (fun out e => out.putNew e.1 e.2.md) out] := by
    intro l
    induction l with
    | nil => exact fun _ => rfl
    | cons e l ih =>
      intro out
      rw [List.foldl_cons, List.foldl_cons, modify_last]
      exact ih _
  unfold canonicalizeFsMdAt canonicalizeFsMd
  split
  · rfl
  · dsimp only
    rw [firstLoop, secondLoop]

/-- One result for every order of iteration, written to a map of its own. -/
theorem canonicalizeFsMd_law (order : Go.RangeOrder) (heap : List FsMd) (fsMd : Nat) :
    (canonicalizeFsMdAt order heap fsMd).1.getD (canonicalizeFsMdAt order heap fsMd).2 ∅ =
        canonicalizeFsMd order (heap.getD fsMd ∅) ∧
      heap <+: (canonicalizeFsMdAt order heap fsMd).1 ∧
      Canonical (heap.getD fsMd ∅) (canonicalizeFsMd order (heap.getD fsMd ∅)) ∧
      ∀ order' k, (canonicalizeFsMd order (heap.getD fsMd ∅)).lookup k =
        (canonicalizeFsMd order' (heap.getD fsMd ∅)).lookup k := by
  have canonical := fun order => canonicalizeFsMd_canonical order (heap.getD fsMd ∅)
  rw [canonicalizeFsMdAt_eq]
  refine ⟨?_, ?_, canonical order, fun order' k => (canonical order).lookup_eq (canonical order') k⟩
  · split
    · rename_i empty
      unfold canonicalizeFsMd
      rw [if_pos empty]
    · simp
  · split
    · exact List.prefix_rfl
    · exact List.prefix_append _ _

end DfsFuzz.Checker
