import DfsFuzz.Generate.Stash
import DfsFuzz.Mutation.StashRefs

/-!
What the builders of the stash seeds produce: opens in front, closes behind, and in between calls that
use the opened files only.
-/

namespace DfsFuzz.Generate

open DfsFuzz.Choice DfsFuzz.Mutation DfsFuzz.Tree

/-! ### Draws that do not panic -/

/-- With 4097 more the size is a positive `int`, and with 4096 more it is not 0. -/
def RegularSize (size : UInt64) : Prop := size.toNat < 2 ^ 63 - 4097 ∨ 2 ^ 64 - 4096 < size.toNat

theorem toInt64_toInt_of_lt {x : UInt64} (small : x.toNat < 2 ^ 63) : x.toInt64.toInt = x.toNat := by
  change x.toBitVec.toInt = _
  rw [BitVec.toInt_eq_toNat_of_lt]
  · rfl
  · change 2 * x.toNat < _
    omega

theorem intn_isSome (draw : Draw) {n : UInt64} (positive : 0 < n.toNat) (small : n.toNat < 2 ^ 63) :
    ∃ v, intn draw n.toInt64 = some v := by
  have notPanic : ¬ n.toInt64 ≤ 0 := by
    rw [Int64.le_iff_toInt_le, toInt64_toInt_of_lt small]
    exact not_le.mpr (Int.natCast_pos.mpr positive)
  exact ⟨_, if_neg notPanic⟩

theorem randRange_isSome (draw : Draw) {first last : UInt64} (positive : 0 < (last - first + 1).toNat)
    (small : (last - first + 1).toNat < 2 ^ 63) : ∃ v, randRange draw first last = some v := by
  obtain ⟨v, drawn⟩ := intn_isSome draw positive small
  exact ⟨first + v, by rw [randRange, drawn, Option.map_some]⟩

theorem toNat_minInt {x : UInt64} (positive : 0 < x.toNat) (small : x.toNat < 2 ^ 63) :
    0 < (minInt x.toInt64 8192).toUInt64.toNat ∧ (minInt x.toInt64 8192).toUInt64.toNat < 2 ^ 63 := by
  unfold minInt
  split
  · exact ⟨positive, small⟩
  · exact ⟨by decide, by decide⟩

/-- A draw from a regular size, or one that does not look at the size. -/
def RegularDraw (size : UInt64) (ch : RegionChoice) : Prop := RegularSize size ∨ nOutOf (ch.draw 0) 4 5 = false

theorem drawRegion_isSome {size : UInt64} {ch : RegionChoice} (regular : RegularDraw size ch) :
    ∃ info, drawRegion size ch = some info := by
  rw [drawRegion]
  split
  · rename_i taken
    rw [Bool.and_eq_true] at taken
    have regularSize : RegularSize size := regular.resolve_right fun other => by simp [taken.2] at other
    have plus : (size + 4096).toNat = (size.toNat + 4096) % 2 ^ 64 := UInt64.toNat_add ..
    have range : 0 < (size + 4096).toNat ∧ (size + 4096).toNat < 2 ^ 63 - 1 := by
      have bound := size.toNat_lt
      rw [plus]
      rcases regularSize with small | large <;> omega
    have next : (size + 4096 - 0 + 1).toNat = (size + 4096).toNat + 1 := by
      rw [UInt64.sub_zero, UInt64.toNat_add]
      change ((size + 4096).toNat + 1) % 2 ^ 64 = _
      omega
    obtain ⟨pos, drawnPos⟩ : ∃ v, randRange (ch.draw 1) 0 (size + 4096) = some v :=
      randRange_isSome _ (by omega) (by omega)
    obtain ⟨positive, small⟩ := toNat_minInt range.1 (by omega)
    have back : (minInt (size + 4096).toInt64 8192).toUInt64 - 1 + 1 = (minInt (size + 4096).toInt64 8192).toUInt64 :=
      UInt64.sub_add_cancel ..
    obtain ⟨len, drawnLen⟩ : ∃ v, randRange (ch.draw 2) 1 (minInt (size + 4096).toInt64 8192).toUInt64 = some v :=
      randRange_isSome _ (back.symm ▸ positive) (back.symm ▸ small)
    exact ⟨⟨pos, len⟩, by rw [drawnPos, drawnLen]; rfl⟩
  · exact ⟨_, rfl⟩

theorem intn_none (draw : Draw) {n : UInt64} (bad : n.toNat = 0 ∨ 2 ^ 63 ≤ n.toNat) : intn draw n.toInt64 = none := by
  have panic : n.toInt64 ≤ 0 := by
    rw [Int64.le_iff_toInt_le]
    change n.toBitVec.toInt ≤ 0
    rw [BitVec.toInt_eq_toNat_cond]
    have bound : n.toBitVec.toNat < 2 ^ 64 := n.toBitVec.isLt
    change n.toBitVec.toNat = 0 ∨ 2 ^ 63 ≤ n.toBitVec.toNat at bad
    split <;> omega
  exact if_pos panic

theorem RegularDraw.of_drawn {size : UInt64} {ch : RegionChoice} {info : WriteInfo} (drawn : drawRegion size ch = some info) :
    RegularDraw size ch := by
  by_contra irregular
  rw [RegularDraw, not_or, Bool.not_eq_false, RegularSize] at irregular
  obtain ⟨range, taken⟩ := irregular
  have bound := size.toNat_lt
  have positive : 0 < size := by
    rw [UInt64.lt_iff_toNat_lt]
    change 0 < size.toNat
    omega
  rw [drawRegion, if_pos (by simp [taken, positive])] at drawn
  have plus : (size + 4096).toNat = (size.toNat + 4096) % 2 ^ 64 := UInt64.toNat_add ..
  have next : (size + 4096 - 0 + 1).toNat = ((size + 4096).toNat + 1) % 2 ^ 64 := by
    rw [UInt64.sub_zero, UInt64.toNat_add]
    rfl
  by_cases wraps : size.toNat = 2 ^ 64 - 4096
  · -- the sum is 0, and the length is drawn from 1 to 0
    have zero : size + 4096 = 0 := UInt64.toNat_inj.mp (by rw [plus, wraps]; rfl)
    have second : randRange (ch.draw 2) 1 (minInt (0 : UInt64).toInt64 8192).toUInt64 = none := by
      rw [randRange, intn_none _ (.inl (by rfl)), Option.map_none]
    rw [zero, Option.bind_eq_some_iff] at drawn
    obtain ⟨pos, -, later⟩ := drawn
    rw [second] at later
    cases later
  · have first : randRange (ch.draw 1) 0 (size + 4096) = none := by
      rw [randRange, intn_none _ (by omega), Option.map_none]
    rw [first] at drawn
    cases drawn

variable {fileTree : Option FileTree}

theorem drawWrite_isSome {path : String} {ch : RegionChoice} (regular : RegularDraw (sizeOfPath fileTree path) ch) :
    ∃ w, drawWrite fileTree path ch = some w ∧ w.path = path := by
  obtain ⟨info, drawn⟩ := drawRegion_isSome regular
  exact ⟨_, congrArg (Option.map _) drawn, rfl⟩

def RegularDraws (fileTree : Option FileTree) (ch : Nat → RegionChoice) (order : List String) : Prop :=
  ∀ entry ∈ order.zipIdx, RegularDraw (sizeOfPath fileTree entry.1) (ch entry.2)

theorem exists_mapM {α β : Type} {f : α → Option β} {R : α → β → Prop} {l : List α} (each : ∀ x ∈ l, ∃ y, f x = some y ∧ R x y) :
    ∃ ys, l.mapM f = some ys ∧ List.Forall₂ R l ys := by
  induction l with
  | nil => exact ⟨[], rfl, .nil⟩
  | cons x rest ih =>
    obtain ⟨y, here, related⟩ := each x List.mem_cons_self
    obtain ⟨ys, later, others⟩ := ih fun x' member => each x' (List.mem_cons_of_mem _ member)
    refine ⟨y :: ys, ?_, .cons related others⟩
    rw [List.mapM_cons, here, later]
    rfl

theorem mapM_each {α β : Type} {f : α → Option β} {l : List α} {ys : List β} (whole : l.mapM f = some ys) :
    ∀ x ∈ l, ∃ y, f x = some y := by
  induction l generalizing ys with
  | nil => exact fun x member => absurd member List.not_mem_nil
  | cons x rest ih =>
    rw [List.mapM_cons] at whole
    obtain ⟨y, here, later⟩ := Option.bind_eq_some_iff.mp whole
    obtain ⟨others, behind, -⟩ := Option.bind_eq_some_iff.mp later
    exact List.forall_mem_cons.mpr ⟨⟨y, here⟩, ih behind⟩

theorem drawWrites_isSome {ch : Nat → RegionChoice} {order : List String} (regular : RegularDraws fileTree ch order) :
    ∃ writes, drawWrites fileTree ch order = some writes ∧ writes.map Write.path = order := by
  obtain ⟨writes, drawn, same⟩ := exists_mapM (R := fun entry w => entry.1 = w.path)
    (f := fun entry : String × Nat => drawWrite fileTree entry.1 (ch entry.2)) (l := order.zipIdx) fun entry member => by
      obtain ⟨w, here, path⟩ := drawWrite_isSome (regular entry member)
      exact ⟨w, here, path.symm⟩
  refine ⟨writes, drawn, ?_⟩
  have equal : List.Forall₂ Eq (order.zipIdx.map Prod.fst) (writes.map Write.path) := by
    rw [List.forall₂_map_left_iff, List.forall₂_map_right_iff]
    exact same
  rw [List.forall₂_eq_eq_eq] at equal
  rw [← equal, List.zipIdx_map_fst]

theorem RegularDraws.of_drawn {ch : Nat → RegionChoice} {order : List String} {writes : List Write}
    (drawn : drawWrites fileTree ch order = some writes) : RegularDraws fileTree ch order := by
  intro entry member
  obtain ⟨_, here⟩ := mapM_each drawn entry member
  obtain ⟨info, region, -⟩ := Option.map_eq_some_iff.mp here
  exact .of_drawn region

def IsOpen (o : Opened) (c : Call) : Prop := ∃ addr flags mode, c = openCall addr o.path flags mode o.ret

def IsClose (o : Opened) (c : Call) : Prop := ∃ id, c = closeCall (.result id (some o.ret) 0)

structure OpenedFiles (paths : List String) (g : StashGroup) (files : List (Opened × Call)) (g' : StashGroup) : Prop where
  paths : files.map (fun file => file.1.path) = paths
  opens : ∀ file ∈ files, IsOpen file.1 file.2
  fds : ∀ file ∈ files, ∃ id, file.1.fd = .result id (some file.1.ret) 0
  rets : (files.map fun file => file.1.ret).Pairwise (· < ·)
  fresh : ∀ file ∈ files, g.next ≤ file.1.ret
  progs : g'.progs = g.progs

theorem openFiles_spec (addr : String → UInt64) (flags mode : UInt64) (paths : List String) (g : StashGroup) :
    OpenedFiles paths g (openFiles addr flags mode paths g).1 (openFiles addr flags mode paths g).2 := by
  induction paths generalizing g with
  | nil => exact ⟨rfl, by simp [openFiles], by simp [openFiles], List.Pairwise.nil, by simp [openFiles], rfl⟩
  | cons path rest ih =>
    have later := ih (openFile (addr path) flags mode path g).2
    have next : (openFile (addr path) flags mode path g).2.next = g.next + 2 := rfl
    simp only [openFiles]
    refine ⟨?_, ?_, ?_, ?_, ?_, later.progs⟩
    · rw [List.map_cons, later.paths]
      rfl
    · intro file member
      rcases List.mem_cons.mp member with rfl | behind
      · exact ⟨_, _, _, rfl⟩
      · exact later.opens file behind
    · intro file member
      rcases List.mem_cons.mp member with rfl | behind
      · exact ⟨_, rfl⟩
      · exact later.fds file behind
    · rw [List.map_cons, List.pairwise_cons]
      refine ⟨?_, later.rets⟩
      intro ret member
      obtain ⟨file, behind, rfl⟩ := List.mem_map.mp member
      have fresh := later.fresh file behind
      rw [next] at fresh
      exact Nat.lt_of_lt_of_le (Nat.lt_add_of_pos_right (show 0 < 2 by decide)) fresh
    · intro file member
      rcases List.mem_cons.mp member with rfl | behind
      · exact Nat.le_refl _
      · have fresh := later.fresh file behind
        rw [next] at fresh
        exact Nat.le_trans (Nat.le_add_right g.next 2) fresh

variable {o : Opened}

theorem fileFd_eq {opened : List Opened} (distinct : (opened.map Opened.path).Nodup) (member : o ∈ opened) :
    fileFd opened o.path = some o := by
  rw [fileFd]
  cases found : opened.reverse.find? fun x => decide (x.path = o.path) with
  | none => exact absurd (List.find?_eq_none.mp found o (List.mem_reverse.mpr member)) (by simp)
  | some x =>
    have same : x.path = o.path := by simpa using List.find?_some found
    rw [List.inj_on_of_nodup_map distinct (List.mem_reverse.mp (List.mem_of_find?_eq_some found)) member same]

theorem closeFiles_spec {opened : List Opened} (distinct : (opened.map Opened.path).Nodup) {part : List Opened}
    (inside : part ⊆ opened) (g : StashGroup) :
    List.Forall₂ IsClose part (closeFiles opened (part.map Opened.path) g).1 ∧
      (closeFiles opened (part.map Opened.path) g).2.progs = g.progs := by
  induction part generalizing g with
  | nil => exact ⟨List.Forall₂.nil, rfl⟩
  | cons o rest ih =>
    obtain ⟨here, later⟩ := List.cons_subset.mp inside
    rw [List.map_cons, closeFiles, fileFd_eq distinct here]
    obtain ⟨closes, progs⟩ := ih later (makeResultArg g o.ret).2
    exact ⟨.cons ⟨_, rfl⟩ closes, progs⟩

/-! ### Programs -/

/-- A call of the body: it has no result, opens and closes nothing, and uses one opened file or none. -/
structure Inside (opened : List Opened) (c : Call) : Prop where
  ret : c.ret = none
  notClose : Go.contains c.name "close" = false
  uses : argsRefs c.args = [] ∨ ∃ o ∈ opened, ∃ id rest, c.args = .result id (some o.ret) 0 :: rest ∧ argsRefs rest = []

/-- The files are opened one after the other, used in the body, and closed in the same order. -/
structure Framed (opened : List Opened) (body calls : List Call) : Prop where
  rets : (opened.map Opened.ret).Nodup
  parts : ∃ opens closes, calls = opens ++ (body ++ closes) ∧ List.Forall₂ IsOpen opened opens ∧ List.Forall₂ IsClose opened closes
  inside : ∀ c ∈ body, Inside opened c

/-- The file is closed at `j` and nowhere else. -/
def ClosesOnly (o : Opened) (calls : List Call) (j : Nat) : Prop :=
  ∀ (k : Nat) c, calls[k]? = some c → Go.contains c.name "close" = true → usesFd c o.ret = true → k = j

theorem IsClose.usesFd {c : Call} (isClose : IsClose o c) (ret : ResultId) : usesFd c ret = (o.ret == ret) := by
  obtain ⟨id, rfl⟩ := isClose
  simp [Mutation.usesFd, closeCall]

section Frame

variable {opened : List Opened} {body calls : List Call} (framed : Framed opened body calls)

include framed

theorem Framed.getElem?_open {t : Nat} (here : opened[t]? = some o) :
    t < opened.length ∧ ∃ c, calls[t]? = some c ∧ IsOpen o c := by
  obtain ⟨opens, closes, rfl, isOpen, -⟩ := framed.parts
  obtain ⟨inside, rfl⟩ := List.getElem?_eq_some_iff.mp here
  have long : t < opens.length := isOpen.length_eq ▸ inside
  refine ⟨inside, opens[t], ?_, isOpen.get inside long⟩
  rw [List.getElem?_append_left long, List.getElem?_eq_getElem long]

theorem Framed.getElem?_close {t : Nat} (here : opened[t]? = some o) :
    ∃ c, calls[opened.length + body.length + t]? = some c ∧ IsClose o c := by
  obtain ⟨opens, closes, rfl, isOpen, isClose⟩ := framed.parts
  obtain ⟨inside, rfl⟩ := List.getElem?_eq_some_iff.mp here
  have long : t < closes.length := isClose.length_eq ▸ inside
  refine ⟨closes[t], ?_, isClose.get inside long⟩
  have lengths := isOpen.length_eq
  rw [List.getElem?_append_right (by omega), List.getElem?_append_right (by omega)]
  have at_t : opened.length + body.length + t - opens.length - body.length = t := by omega
  rw [at_t, List.getElem?_eq_getElem long]

theorem Framed.cases {k : Nat} {c : Call} (here : calls[k]? = some c) :
    (∃ o, opened[k]? = some o ∧ IsOpen o c) ∨ (opened.length ≤ k ∧ k < opened.length + body.length ∧ c ∈ body) ∨
      ∃ t o, k = opened.length + body.length + t ∧ opened[t]? = some o ∧ IsClose o c := by
  obtain ⟨opens, closes, rfl, isOpen, isClose⟩ := framed.parts
  have lengths := isOpen.length_eq
  have lengths' := isClose.length_eq
  rw [List.getElem?_append] at here
  split at here
  · rename_i front
    left
    obtain ⟨-, rfl⟩ := List.getElem?_eq_some_iff.mp here
    have inside : k < opened.length := by omega
    exact ⟨opened[k], List.getElem?_eq_getElem inside, isOpen.get inside front⟩
  · rename_i front
    rw [List.getElem?_append] at here
    split at here
    · rename_i middle
      exact .inr (.inl ⟨by omega, by omega, List.mem_of_getElem? here⟩)
    · rename_i middle
      obtain ⟨back, rfl⟩ := List.getElem?_eq_some_iff.mp here
      have inside : k - opens.length - body.length < opened.length := by omega
      exact .inr (.inr ⟨_, opened[k - opens.length - body.length], by omega, List.getElem?_eq_getElem inside, isClose.get inside back⟩)

theorem Framed.closesOnly {t : Nat} (here : opened[t]? = some o) :
    ClosesOnly o calls (opened.length + body.length + t) := by
  intro k c found isClose uses
  rcases framed.cases found with ⟨o', -, _, _, _, rfl⟩ | ⟨-, -, member⟩ | ⟨t', o', rfl, there, close⟩
  · have plain : Go.contains "open" "close" = false := by decide +kernel
    exact absurd isClose (by rw [openCall, plain]; decide)
  · rw [(framed.inside c member).notClose] at isClose
    cases isClose
  · have same : o'.ret = o.ret := by simpa [close.usesFd] using uses
    obtain ⟨inside, rfl⟩ := List.getElem?_eq_some_iff.mp here
    obtain ⟨inside', rfl⟩ := List.getElem?_eq_some_iff.mp there
    have index := (List.nodup_iff_injective_get.mp framed.rets)
    have equal : (⟨t', by simpa using inside'⟩ : Fin (opened.map Opened.ret).length) = ⟨t, by simpa using inside⟩ :=
      index (by simpa using same)
    rw [Fin.mk.inj equal]

end Frame

/-- Every use of a result lies behind its open and not behind its close, which is the only one. -/
def FdsBracketed (calls : List Call) : Prop :=
  ∀ (k : Nat) c, calls[k]? = some c → ∀ use ∈ argsRefs c.args, ∃ i j, i < k ∧ k ≤ j ∧
    (∃ x, calls[i]? = some x ∧ x.name = "open" ∧ x.ret = some use.1) ∧
    (∃ y, calls[j]? = some y ∧ y.name = "close" ∧ usesFd y use.1 = true) ∧
    ∀ (j' : Nat) z, calls[j']? = some z → Go.contains z.name "close" = true → usesFd z use.1 = true → j' = j

theorem Framed.bracketed {opened : List Opened} {body calls : List Call} (framed : Framed opened body calls) :
    FdsBracketed calls := by
  -- the open and the close of the `t`-th file are around every call behind the opens that is not behind the close
  have around : ∀ (k t : Nat) o ret, opened[t]? = some o → o.ret = ret → opened.length ≤ k → k ≤ opened.length + body.length + t →
      ∃ i j, i < k ∧ k ≤ j ∧ (∃ x, calls[i]? = some x ∧ x.name = "open" ∧ x.ret = some ret) ∧
        (∃ y, calls[j]? = some y ∧ y.name = "close" ∧ usesFd y ret = true) ∧
        ∀ (j' : Nat) z, calls[j']? = some z → Go.contains z.name "close" = true → usesFd z ret = true → j' = j := by
    rintro k t o _ here rfl behind before
    obtain ⟨first, x, foundOpen, _, _, _, rfl⟩ := framed.getElem?_open here
    obtain ⟨y, foundClose, isClose⟩ := framed.getElem?_close here
    refine ⟨t, opened.length + body.length + t, by omega, before, ⟨_, foundOpen, rfl, rfl⟩, ⟨y, foundClose, ?_, ?_⟩, ?_⟩
    · obtain ⟨_, rfl⟩ := isClose
      rfl
    · rw [isClose.usesFd, beq_self_eq_true]
    · exact framed.closesOnly here
  intro k c found use member
  rcases framed.cases found with ⟨o, -, _, _, _, rfl⟩ | ⟨behind, before, inBody⟩ | ⟨t, o, rfl, here, _, rfl⟩
  · simp [openCall, pathArg, argsRefs, argRefs, optionRefs] at member
  · rcases (framed.inside c inBody).uses with none | ⟨o, isOpened, id, rest, args, others⟩
    · rw [none] at member
      cases member
    · rw [args, argsRefs, others, argRefs, List.append_nil, List.mem_singleton] at member
      obtain ⟨t, here⟩ := List.getElem?_of_mem isOpened
      exact around k t o use.1 here (by rw [member]) behind (by omega)
  · simp only [closeCall, argsRefs, argRefs, List.append_nil, List.mem_singleton] at member
    exact around _ t o use.1 here (by rw [member]) (by omega) (Nat.le_refl _)

/-- The path that the open behind the first argument names. -/
def fileOf (calls : List Call) (c : Call) : String := resolveFdToPath { calls } c

/-- The path as it is read back from an open of it. -/
def pathText (path : String) : String := extractPathFromCall (openCall 0 path 0 0 0)

theorem Framed.fileOf {opened : List Opened} {body calls : List Call} (framed : Framed opened body calls)
    (isOpened : o ∈ opened) {c : Call} {id : ResultId} {rest : List Arg}
    (args : c.args = .result id (some o.ret) 0 :: rest) : fileOf calls c = pathText o.path := by
  obtain ⟨t, here⟩ := List.getElem?_of_mem isOpened
  obtain ⟨inside, x, found, addr, flags, mode, rfl⟩ := framed.getElem?_open here
  obtain ⟨within, at_t⟩ := List.getElem?_eq_some_iff.mp found
  have producer : (calls.find? fun call =>
      (Go.contains call.name "open" || Go.contains call.name "creat") && call.ret == some o.ret) =
        some (openCall addr o.path flags mode o.ret) := by
    rw [List.find?_eq_some_iff_getElem]
    refine ⟨?_, t, within, at_t, ?_⟩
    · have named : Go.contains "open" "open" = true := by decide +kernel
      simp [openCall, named]
    · intro j before
      have inFront : j < opened.length := by omega
      obtain ⟨-, y, there, _, _, _, rfl⟩ := framed.getElem?_open (List.getElem?_eq_getElem inFront)
      obtain ⟨_, at_j⟩ := List.getElem?_eq_some_iff.mp there
      have other : opened[j].ret ≠ o.ret := by
        obtain ⟨_, rfl⟩ := List.getElem?_eq_some_iff.mp here
        have apart := List.pairwise_iff_getElem.mp framed.rets j t (by simpa using inFront) (by simpa using inside) before
        simpa using apart
      rw [at_j]
      simp [openCall, other]
  rw [Generate.fileOf, resolveFdToPath, args]
  simp only [List.head?_cons, producer, Option.map_some, Option.getD_some]
  rfl

end DfsFuzz.Generate
