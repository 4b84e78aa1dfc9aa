import DfsFuzz.Generate.StashBodies

/-!
The four kinds of programs of a stash seed, each with its window or its two syncs.
-/

namespace DfsFuzz.Generate

open DfsFuzz.Choice DfsFuzz.Mutation DfsFuzz.Tree

theorem exists_of_forall₂ {α β : Type} {R : α → β → Prop} {l : List α} {m : List β} (related : List.Forall₂ R l m) {y : β}
    (member : y ∈ m) : ∃ x ∈ l, R x y := by
  induction related with
  | nil => cases member
  | @cons x y' l m here _ ih =>
    rcases List.mem_cons.mp member with rfl | later
    · exact ⟨x, List.mem_cons_self, here⟩
    · obtain ⟨x', inside, holds⟩ := ih later
      exact ⟨x', List.mem_cons_of_mem _ inside, holds⟩

section Positions

variable {opened : List Opened} {body calls : List Call} (framed : Framed opened body calls)

include framed

theorem Framed.noSync (plain : ∀ c ∈ body, isSync c.name = false) : ∀ c ∈ calls, isSync c.name = false := by
  have names : isSync "open" = false ∧ isSync "close" = false := ⟨call_kinds.1.1, call_kinds.2.1.1⟩
  intro c member
  obtain ⟨k, found⟩ := List.getElem?_of_mem member
  rcases framed.cases found with ⟨_, -, _, _, _, rfl⟩ | ⟨-, -, inBody⟩ | ⟨_, _, -, -, _, rfl⟩
  · exact names.1
  · exact plain c inBody
  · exact names.2

theorem Framed.window {hmcfg : HmdfsConfig} {addr : UInt64} {targetNodes : List Nat} {before after : List Call}
    (split : body = before ++ (windowCalls hmcfg addr targetNodes ++ after)) :
    HoldsWindow calls (opened.length + before.length) := by
  obtain ⟨opens, closes, rfl, isOpen, -⟩ := framed.parts
  have held := holdsWindow_append hmcfg addr targetNodes (opens ++ before) (after ++ closes)
  rw [List.length_append, ← isOpen.length_eq] at held
  simpa [split, List.append_assoc] using held

theorem Framed.syncPair {i : Nat} {before middle after : List Call}
    (split : body = before ++ genSyncCall 0 i :: (middle ++ genSyncCall 1 i :: after))
    (plain : ∀ c ∈ before ++ (middle ++ after), isSync c.name = false) (n : Nat) :
    SyncPair (numbered n calls) (opened.length + before.length) (opened.length + before.length + 1 + middle.length) := by
  have names : isSync "open" = false ∧ isSync "close" = false := ⟨call_kinds.1.1, call_kinds.2.1.1⟩
  obtain ⟨opens, closes, rfl, isOpen, isClose⟩ := framed.parts
  have whole : opens ++ (body ++ closes) =
      (opens ++ before) ++ genSyncCall 0 i :: (middle ++ genSyncCall 1 i :: (after ++ closes)) := by simp [split]
  have pair := syncPair_numbered (n := n) whole ?_
  · rw [List.length_append, ← isOpen.length_eq] at pair
    exact pair
  · intro c member
    simp only [List.mem_append] at member plain
    rcases member with (isOpened | first) | second | last | isClosed
    · obtain ⟨_, -, _, _, _, rfl⟩ := exists_of_forall₂ isOpen isOpened
      exact names.1
    · exact plain c (.inl first)
    · exact plain c (.inr (.inl second))
    · exact plain c (.inr (.inr last))
    · obtain ⟨_, -, _, rfl⟩ := exists_of_forall₂ isClose isClosed
      exact names.2

end Positions

structure WindowProg (written : List (String × WriteInfo)) (b : Build) : Prop where
  good : GoodProg written b.calls
  plain : ∀ c ∈ b.calls, isSync c.name = false
  window : ∃ s : Nat, b.start = s ∧ b.finish = s + 5 ∧ HoldsWindow b.calls s

structure SyncProg (written : List (String × WriteInfo)) (b : Build) : Prop where
  good : GoodProg written b.calls
  syncs : ∃ a e : Nat, b.start = a ∧ b.finish = e ∧ ∀ n, SyncPair (numbered n b.calls) a e

def regionsOf (writes : List Write) : List (String × WriteInfo) := writes.map fun w => (w.path, w.info)

theorem isSync_op {name : String} (plain : isSync name = false) {opened : List Opened} {w : String × WriteInfo} {c : Call}
    (op : IsOp name opened w c) : isSync c.name = false := op.named ▸ plain

theorem isSync_window (hmcfg : HmdfsConfig) (addr : UInt64) (targetNodes : List Nat) :
    ∀ c ∈ windowCalls hmcfg addr targetNodes, isSync c.name = false := by
  intro c member
  refine (call_kinds.2.2.2.2.2 c.name ?_).1
  simp only [windowCalls, List.mem_cons, List.not_mem_nil, or_false] at member
  rcases member with rfl | rfl | rfl | rfl | rfl | rfl <;> simp [genRecvCall, genNetDownCall, genSendCall, genNetUpCall]

theorem exists_split {α : Type} {l : List α} {pos : Nat} (inside : pos < l.length) :
    ∃ before x after, l = before ++ x :: after ∧ before.length = pos := by
  refine ⟨l.take pos, l[pos], l.drop (pos + 1), ?_, List.length_take_of_le (Nat.le_of_lt inside)⟩
  rw [List.getElem_cons_drop, List.take_append_drop]

variable {paths : List String} {written : List (String × WriteInfo)}

theorem windowProg_of_loop {hmcfg : HmdfsConfig} {addr : UInt64} {targetNodes : List Nat} {pos : Nat}
    (distinct : paths.Nodup) {writes : List Write} (known : ∀ w ∈ writes, w.path ∈ paths)
    (inside : pos < writes.length) (covered : regionsOf writes ⊆ written) (openAddr : String → UInt64)
    (flags mode : UInt64) (g : StashGroup) :
    WindowProg written (openLoopClose openAddr flags mode paths (fun opened => writeCalls opened writes)
        (fun b ops => ops.zipIdx.foldl (netStep hmcfg addr targetNodes pos) b) g).1 ∧
      (openLoopClose openAddr flags mode paths (fun opened => writeCalls opened writes)
        (fun b ops => ops.zipIdx.foldl (netStep hmcfg addr targetNodes pos) b) g).2.progs = g.progs := by
  obtain ⟨opened, opens, same, usable, isOpen, spec⟩ := openLoopClose_spec distinct openAddr flags mode
    (fun opened => writeCalls opened writes) (fun b ops => ops.zipIdx.foldl (netStep hmcfg addr targetNodes pos) b) g
  have ops := writeCalls_spec (same.symm ▸ distinct) (fun w member => same.symm ▸ known w member)
  obtain ⟨before, op, after, split, at_pos⟩ := exists_split (ops.length_eq ▸ inside)
  have body_cases : ∀ c ∈ before ++ op :: (windowCalls hmcfg addr targetNodes ++ after),
      (∃ w ∈ regionsOf writes, IsOp "pwrite64" opened w c) ∨ c ∈ windowCalls hmcfg addr targetNodes := by
    intro c member
    by_cases inWindow : c ∈ windowCalls hmcfg addr targetNodes
    · exact .inr inWindow
    · left
      have isOp : c ∈ writeCalls opened writes := by
        rw [split]
        simpa [inWindow] using member
      obtain ⟨w, inWrites, holds⟩ := exists_of_forall₂ ops isOp
      exact ⟨_, List.mem_map.mpr ⟨w, inWrites, rfl⟩, holds⟩
  obtain ⟨framed, start, finish, progs⟩ := spec (before ++ op :: (windowCalls hmcfg addr targetNodes ++ after)) (by
      rw [split, (plainAway_net hmcfg addr targetNodes pos).foldl_at at_pos]
      simp [netStep, Build.failureWindow, windowCalls]) (by
    intro c member
    rcases body_cases c member with ⟨w, -, isOp⟩ | inWindow
    · exact isOp.inside usable call_kinds.2.2.2.1.2.2
    · exact (special_window _ _ _ c inWindow).inside opened)
  rw [split, (plainAway_net hmcfg addr targetNodes pos).foldl_at at_pos] at start finish
  refine ⟨⟨?_, ?_, ?_⟩, progs⟩
  · refine goodWriter framed usable fun c member => ?_
    rcases body_cases c member with ⟨w, inRegions, isOp⟩ | inWindow
    · exact .inl ⟨w, covered inRegions, isOp⟩
    · exact .inr (special_window _ _ _ c inWindow)
  · refine framed.noSync fun c member => ?_
    rcases body_cases c member with ⟨w, -, isOp⟩ | inWindow
    · exact isSync_op call_kinds.2.2.2.1.1 isOp
    · exact isSync_window _ _ _ c inWindow
  · have window := framed.window (show before ++ op :: (windowCalls hmcfg addr targetNodes ++ after) =
      (before ++ [op]) ++ (windowCalls hmcfg addr targetNodes ++ after) by simp)
    refine ⟨opened.length + (before ++ [op]).length, start.trans ?_, finish.trans ?_, window⟩
    · simp [netStep, Build.failureWindow, isOpen.length_eq, Int.add_assoc]
    · simp [netStep, Build.failureWindow, isOpen.length_eq, Int.add_assoc]

/-! ### The syncs -/

/-- The loop goes over the reads or writes `ws`, in this order. -/
def Does (name : String) (paths : List String) (ws : List (String × WriteInfo)) (ops : List Opened → List Call) : Prop :=
  ∀ opened, opened.map Opened.path = paths → List.Forall₂ (IsOp name opened) ws (ops opened)

theorem does_writes (distinct : paths.Nodup) {writes : List Write} (known : ∀ w ∈ writes, w.path ∈ paths) :
    Does "pwrite64" paths (regionsOf writes) fun opened => writeCalls opened writes := by
  intro opened same
  rw [regionsOf, List.forall₂_map_left_iff]
  exact writeCalls_spec (same.symm ▸ distinct) fun w member => same.symm ▸ known w member

theorem does_reads (distinct : paths.Nodup) {reads : List (String × WriteInfo)} (known : ∀ w ∈ reads, w.1 ∈ paths)
    (addr : Nat → UInt64) : Does "pread64" paths reads fun opened => readCalls addr opened reads := by
  intro opened same
  have spec := readCalls_spec (same.symm ▸ distinct) (fun w member => same.symm ▸ known w member) addr
  rw [← List.forall₂_map_left_iff, List.zipIdx_map_fst] at spec
  exact spec

/-- A program that consists of the reads or writes `ws` and of calls of the failure, with its two syncs. -/
structure Synced (name : String) (ws : List (String × WriteInfo)) (b : Build) : Prop where
  frame : ∃ opened body, Framed opened body b.calls ∧ Usable opened ∧
    (∀ c ∈ body, (∃ w ∈ ws, IsOp name opened w c) ∨ Special c) ∧ ∀ w ∈ ws, ∃ c ∈ body, IsOp name opened w c
  syncs : ∃ a e : Nat, b.start = a ∧ b.finish = e ∧ ∀ n, SyncPair (numbered n b.calls) a e

variable {ws : List (String × WriteInfo)}

theorem Synced.writer {b : Build} (synced : Synced "pwrite64" ws b) (covered : ws ⊆ written) : SyncProg written b := by
  obtain ⟨opened, body, framed, usable, cases, -⟩ := synced.frame
  refine ⟨goodWriter framed usable fun c member => ?_, synced.syncs⟩
  exact (cases c member).imp_left fun ⟨w, inWs, op⟩ => ⟨w, covered inWs, op⟩

theorem Synced.reader {b : Build} (synced : Synced "pread64" ws b) (covers : written ⊆ ws) : SyncProg written b := by
  obtain ⟨opened, body, framed, usable, cases, all⟩ := synced.frame
  refine ⟨goodReader framed usable (fun c member => ?_) fun w inWritten => all w (covers inWritten), synced.syncs⟩
  exact (cases c member).imp_left fun ⟨w, _, op⟩ => ⟨w, op⟩

variable {ops : List Opened → List Call}

/-- A loop that puts the syncs 0 and 1 between the reads or writes. -/
theorem synced_of_loop {name : String} (names : isSync name = false ∧ Go.contains name "close" = false)
    (distinct : paths.Nodup) (does : Does name paths ws ops) {pos len : Nat} (inside : pos + len ≤ ws.length)
    (nodeIdx : Nat) (loop : Build → List Call → Build)
    (places : ∀ opens before middle after, before.length = pos → middle.length = len →
      (before ++ (middle ++ after)).length = ws.length → loop { calls := opens } (before ++ (middle ++ after)) =
        { calls := opens ++ (before ++ genSyncCall 0 nodeIdx :: (middle ++ genSyncCall 1 nodeIdx :: after)), syncIdx := 2,
          start := (opens.length + pos : Nat), finish := (opens.length + pos + 1 + len : Nat) })
    (addr : String → UInt64) (flags mode : UInt64) (g : StashGroup) :
    Synced name ws (openLoopClose addr flags mode paths ops loop g).1 ∧
      (openLoopClose addr flags mode paths ops loop g).2.progs = g.progs := by
  obtain ⟨opened, opens, same, usable, isOpen, spec⟩ := openLoopClose_spec distinct addr flags mode ops loop g
  have holds := does opened same
  have long := holds.length_eq
  obtain ⟨before, middle, after, split, first, second⟩ : ∃ before middle after,
      ops opened = before ++ (middle ++ after) ∧ before.length = pos ∧ middle.length = len := by
    refine ⟨(ops opened).take pos, ((ops opened).drop pos).take len, ((ops opened).drop pos).drop len, ?_, ?_, ?_⟩
    · rw [List.take_append_drop, List.take_append_drop]
    · rw [List.length_take]
      omega
    · rw [List.length_take, List.length_drop]
      omega
  rw [split, places opens before middle after first second (split ▸ long.symm)] at spec
  have body_cases : ∀ c ∈ before ++ genSyncCall 0 nodeIdx :: (middle ++ genSyncCall 1 nodeIdx :: after),
      (∃ w ∈ ws, IsOp name opened w c) ∨ Special c := by
    intro c member
    by_cases isOp : c ∈ ops opened
    · exact .inl (exists_of_forall₂ holds isOp)
    · right
      rw [split] at isOp
      simp only [List.mem_append, List.mem_cons, not_or] at member isOp
      rcases member with isBefore | rfl | isMiddle | rfl | isAfter
      · exact absurd isBefore isOp.1
      · exact special_sync 0 nodeIdx
      · exact absurd isMiddle isOp.2.1
      · exact special_sync 1 nodeIdx
      · exact absurd isAfter isOp.2.2
  obtain ⟨framed, start, finish, progs⟩ := spec _ rfl fun c member => by
    rcases body_cases c member with ⟨w, -, isOp⟩ | special
    · exact isOp.inside usable names.2
    · exact special.inside opened
  refine ⟨⟨⟨opened, _, framed, usable, body_cases, ?_⟩, ?_⟩, progs⟩
  · intro w member
    obtain ⟨c, isOp, op⟩ := exists_of_forall₂ holds.flip member
    refine ⟨c, ?_, op⟩
    rw [split] at isOp
    simp only [List.mem_append, List.mem_cons] at isOp ⊢
    tauto
  · refine ⟨_, _, start, finish, fun n => ?_⟩
    have pair := framed.syncPair rfl (fun c member => ?_) n
    · rw [isOpen.length_eq, first, second] at pair
      exact pair
    · obtain ⟨w, -, op⟩ := exists_of_forall₂ holds (split.symm ▸ member)
      exact isSync_op names.1 op

/-- The syncs around the read or write at `netInsertPos`. -/
theorem synced_around {name : String} (names : isSync name = false ∧ Go.contains name "close" = false)
    (distinct : paths.Nodup) (does : Does name paths ws ops) {pos : Nat} (inside : pos < ws.length) (nodeIdx : Nat)
    (addr : String → UInt64) (flags mode : UInt64) (g : StashGroup) :
    Synced name ws (openLoopClose addr flags mode paths ops
        (fun b ops => ops.zipIdx.foldl (syncStep true nodeIdx pos) b) g).1 ∧
      (openLoopClose addr flags mode paths ops (fun b ops => ops.zipIdx.foldl (syncStep true nodeIdx pos) b) g).2.progs = g.progs := by
  refine synced_of_loop names distinct does (show pos + 1 ≤ ws.length from inside) nodeIdx _ ?_ addr flags mode g
  intro opens before middle after first second _
  obtain ⟨op, rfl⟩ := List.length_eq_one_iff.mp second
  rw [List.singleton_append, (plainAway_sync true nodeIdx pos).foldl_at first]
  simp [syncStep, Build.add, Build.syncStart, Build.syncEnd, first]
  omega

theorem synced_halfway (distinct : paths.Nodup) (does : Does "pwrite64" paths ws ops) (inside : 2 < ws.length)
    (nodeIdx : Nat) (addr : String → UInt64) (flags mode : UInt64) (g : StashGroup) :
    Synced "pwrite64" ws (openLoopClose addr flags mode paths ops (fun b ops =>
        let b := ops.zipIdx.foldl (halfwayStep true nodeIdx) b
        if true then b.syncEnd nodeIdx else b) g).1 ∧
      (openLoopClose addr flags mode paths ops (fun b ops =>
        let b := ops.zipIdx.foldl (halfwayStep true nodeIdx) b
        if true then b.syncEnd nodeIdx else b) g).2.progs = g.progs := by
  refine synced_of_loop (by decide +kernel) distinct does (show 2 + (ws.length - 2) ≤ ws.length by omega) nodeIdx _ ?_ addr flags mode g
  intro opens before middle after first second whole
  rw [List.length_append, List.length_append, first, second] at whole
  obtain rfl : after = [] := List.length_eq_zero_iff.mp (by omega)
  obtain ⟨op, rest, rfl⟩ := List.exists_cons_of_length_pos (show 0 < middle.length by omega)
  rw [List.append_nil, (plainAway_halfway true nodeIdx).foldl_at first]
  simp [halfwayStep, Build.add, Build.syncStart, Build.syncEnd, first, ← second]
  omega

end DfsFuzz.Generate
