import Mathlib.Data.List.Basic
import Mathlib.Logic.Function.Basic
import Mathlib.Tactic.Common

/-!
The gate in front of executions (`pkg/ipc/gate.go`). Who enters gets the next ticket of a ring; who leaves with ticket 0 waits
until nobody is inside and calls `f`. A step of a goroutine is what it does from when it has the lock until it gives it up,
in `Wait` or at the end.
-/

namespace DfsFuzz.Executor

/-- Where a goroutine is. `number` says how many entered before it. -/
inductive Place where
  | outside
  | entering (asleep : Bool)
  | inside (idx number : Nat)
  | stopping (asleep : Bool)

def Place.woken : Place → Place
  | .entering _ => .entering false
  | .stopping _ => .stopping false
  | p => p

structure Gate where
  busy : List Bool
  pos : Nat := 0
  running : Int := 0
  stop : Bool := false
  /-- whether there is an `f` -/
  f : Bool
  place : Nat → Place := fun _ => .outside
  entered : Nat := 0
  /-- `busy` at each call of `f` -/
  called : List (List Bool) := []

namespace Gate

def newGate (c : Nat) (f : Bool) : Gate := { busy := List.replicate c false, f }

def put (g : Gate) (me : Nat) (p : Place) : Gate := { g with place := Function.update g.place me p }

def broadcast (g : Gate) : Gate := { g with place := fun i => (g.place i).woken }

/-- `none` is a panic. -/
def enter (g : Gate) (me : Nat) : Option Gate :=
  match g.busy[g.pos]? with
  | none => none
  | some taken =>
    if taken || g.stop then some (g.put me (.entering true))
    else
      let pos := if g.pos + 1 ≥ g.busy.length then 0 else g.pos + 1
      let running := g.running + 1
      if running > (g.busy.length : Int) then none
      else some ({ g with pos, busy := g.busy.set g.pos true, running, entered := g.entered + 1 }.put me (.inside g.pos g.entered))

/-- The end of `Leave`. -/
def signal (g : Gate) (idx : Nat) : Gate :=
  if (idx == g.pos && !g.stop) || (g.running == 0 && g.stop) then g.broadcast else g

/-- `Leave` from its loop on. -/
def waitAll (g : Gate) (me : Nat) : Gate :=
  if g.running ≠ 0 then g.put me (.stopping true)
  else ({ g with stop := false, called := g.called ++ [g.busy] }.broadcast.put me .outside).signal 0

def giveBack (g : Gate) (me idx : Nat) : Gate :=
  { g with busy := g.busy.set idx false, running := g.running - 1 }.put me .outside

def leave (g : Gate) (me idx : Nat) : Option Gate :=
  match g.busy[idx]? with
  | some true =>
    let g := g.giveBack me idx
    if g.running < 0 then none
    else if idx = 0 ∧ g.f = true then
      if g.stop then none else some ({ g with stop := true }.waitAll me)
    else some (g.signal idx)
  | _ => none

def step (g : Gate) (me : Nat) : Option Gate :=
  match g.place me with
  | .outside | .entering false => g.enter me
  | .inside idx _ => g.leave me idx
  | .stopping false => some (g.waitAll me)
  | .entering true | .stopping true => some g

/-- The tickets that are out are those of the goroutines inside, who are among the last `c` that entered. -/
structure Core (c : Nat) (g : Gate) : Prop where
  width : g.busy.length = c
  pos : g.pos = g.entered % c
  running : g.running = (g.busy.count true : Int)
  held : ∀ i idx k, g.place i = .inside idx k → idx = k % c ∧ k < g.entered ∧ g.entered ≤ k + c ∧ g.busy[idx]? = some true
  apart : ∀ i j idx k k', g.place i = .inside idx k → g.place j = .inside idx k' → i = j
  owned : ∀ idx : Nat, g.busy[idx]? = some true → ∃ i k, g.place i = .inside idx k
  stopped : g.stop = true ↔ ∃ i b, g.place i = .stopping b
  alone : ∀ i j b b', g.place i = .stopping b → g.place j = .stopping b' → i = j
  zero : g.stop = true → g.busy[0]? = some false
  quiet : ∀ busy ∈ g.called, true ∉ busy

structure Alert (g : Gate) : Prop where
  entering : ∀ i, g.place i = .entering true → g.busy[g.pos]? = some true ∨ g.stop = true
  stopping : ∀ i, g.place i = .stopping true → g.running ≠ 0

variable {c : Nat} {g : Gate} {me : Nat}

@[grind =] theorem place_put (g : Gate) (me : Nat) (p : Place) (i : Nat) : (g.put me p).place i = if i = me then p else g.place i :=
  Function.update_apply g.place me p i

theorem Core.moved (core : Core c g) {place : Nat → Place} (inside : ∀ i idx k, place i = .inside idx k ↔ g.place i = .inside idx k)
    (stopping : ∀ i, (∃ b, place i = .stopping b) ↔ ∃ b, g.place i = .stopping b) : Core c { g with place } where
  width := core.width
  pos := core.pos
  running := core.running
  held i idx k here := core.held i idx k ((inside i idx k).mp here)
  apart i j idx k k' here there := core.apart i j idx k k' ((inside i idx k).mp here) ((inside j idx k').mp there)
  owned idx busy := by
    obtain ⟨i, k, here⟩ := core.owned idx busy
    exact ⟨i, k, (inside i idx k).mpr here⟩
  stopped := core.stopped.trans (exists_congr fun i => (stopping i).symm)
  alone i j b b' here there := by
    obtain ⟨_, here⟩ := (stopping i).mp ⟨b, here⟩
    obtain ⟨_, there⟩ := (stopping j).mp ⟨b', there⟩
    exact core.alone i j _ _ here there
  zero := core.zero
  quiet := core.quiet

theorem Core.broadcast (core : Core c g) : Core c g.broadcast := by
  refine core.moved (fun i idx k => ?_) fun i => ?_
  all_goals cases g.place i <;> simp [Place.woken]

/-! ### One step -/

theorem succ_mod (positive : 0 < c) (n : Nat) : (n + 1) % c = if n % c + 1 ≥ c then 0 else n % c + 1 := by
  have below : n % c < c := Nat.mod_lt n positive
  rw [Nat.add_mod_eq_add_mod_right 1 (Nat.mod_mod n c).symm]
  split
  · rename_i last
    have wraps : n % c + 1 = c := by omega
    rw [wraps, Nat.mod_self]
  · exact Nat.mod_eq_of_lt (by omega)

theorem count_set {l : List Bool} {i : Nat} {old : Bool} (here : l[i]? = some old) (new : Bool) :
    ((l.set i new).count true : Int) = l.count true - (if old then 1 else 0) + (if new then 1 else 0) := by
  obtain ⟨inside, value⟩ := List.getElem?_eq_some_iff.mp here
  have counted := List.count_set (a := new) (b := true) inside
  have positive : old = true → 0 < l.count true := by
    rintro rfl
    exact List.count_pos_iff.mpr (List.mem_of_getElem? here)
  rw [counted, value]
  cases old with
  | false => cases new <;> simp
  | true =>
    have some_ := positive rfl
    cases new <;> simp <;> omega

theorem Core.enter (core : Core c g) (positive : 0 < c) (free : g.busy[g.pos]? = some false) (going : g.stop = false)
    (inside : ∀ idx k, g.place me ≠ .inside idx k) :
    Core c ({ g with
      pos := if g.pos + 1 ≥ g.busy.length then 0 else g.pos + 1, busy := g.busy.set g.pos true, running := g.running + 1,
      entered := g.entered + 1 }.put me (.inside g.pos g.entered)) := by
  have width : g.pos < g.busy.length := (List.getElem?_eq_some_iff.mp free).1
  have busy : ∀ idx : Nat, (g.busy.set g.pos true)[idx]? = some true ↔ idx = g.pos ∨ g.busy[idx]? = some true := by
    intro idx
    rw [List.getElem?_set]
    grind
  have nobody : ∀ i b, g.place i ≠ .stopping b := fun i b there => by grind [core.stopped.mpr ⟨i, b, there⟩]
  have window : ∀ {i idx k}, g.place i = .inside idx k → g.entered ≠ k + c := by
    -- the ticket of a goroutine that is `c` behind is the next one, and is not free
    intro i idx k there equal
    obtain ⟨ring, -, -, taken⟩ := core.held i idx k there
    rw [ring, ← Nat.add_mod_right k c, ← equal, ← core.pos, free] at taken
    cases taken
  constructor
  case width => exact (List.length_set ..).trans core.width
  case pos =>
    show (if g.pos + 1 ≥ g.busy.length then 0 else g.pos + 1) = (g.entered + 1) % c
    rw [succ_mod positive, core.width, core.pos]
  case running =>
    show g.running + 1 = ((g.busy.set g.pos true).count true : Int)
    rw [count_set free, core.running]
    simp
  case quiet => exact core.quiet
  all_goals simp only [put, Function.update_apply]
  case held =>
    intro i idx k there
    split at there
    · obtain ⟨rfl, rfl⟩ := Place.inside.inj there
      exact ⟨core.pos, by omega, by omega, (busy _).mpr (Or.inl rfl)⟩
    · obtain ⟨ring, before, behind, taken⟩ := core.held i idx k there
      have last := window there
      exact ⟨ring, by omega, by omega, (busy idx).mpr (Or.inr taken)⟩
  case apart =>
    have fresh : ∀ {i k}, g.place i ≠ .inside g.pos k := fun there => by grind [core.held _ _ _ there]
    intro i j idx k k' here there
    grind [core.apart i j idx k k']
  case owned =>
    intro idx taken
    rcases (busy idx).mp taken with rfl | old
    · exact ⟨me, g.entered, if_pos rfl⟩
    · obtain ⟨i, k, here⟩ := core.owned idx old
      grind
  all_goals grind

theorem Core.leaves (core : Core c g) {idx k : Nat} (here : g.place me = .inside idx k) : Core c (g.giveBack me idx) := by
  have taken : g.busy[idx]? = some true := (core.held me idx k here).2.2.2
  have busy : ∀ (other : Nat) b, (g.busy.set idx false)[other]? = some b ↔
      (other = idx ∧ b = false) ∨ (other ≠ idx ∧ g.busy[other]? = some b) := by
    intro other b
    rw [List.getElem?_set]
    grind
  constructor
  case width => exact (List.length_set ..).trans core.width
  case pos => exact core.pos
  case running =>
    show g.running - 1 = ((g.busy.set idx false).count true : Int)
    rw [count_set taken, core.running]
    simp
  case quiet => exact core.quiet
  all_goals simp only [giveBack, put, Function.update_apply]
  case held =>
    intro i other k' there
    split at there
    · cases there
    · obtain ⟨ring, before, behind, old⟩ := core.held i other k' there
      exact ⟨ring, before, behind, (busy other true).mpr (Or.inr ⟨by grind [core.apart i me idx k' k], old⟩)⟩
  case apart =>
    intro i j other k₁ k₂ there here
    grind [core.apart i j other k₁ k₂]
  case owned =>
    intro other there
    obtain ⟨different, old⟩ := ((busy other true).mp there).resolve_left fun same => nomatch same.2
    obtain ⟨i, k', inside⟩ := core.owned other old
    grind
  case stopped =>
    rw [core.stopped]
    grind
  case alone => grind [core.alone]
  case zero => grind [core.zero]

theorem Core.stop (core : Core c g) (going : g.stop = false) (free : g.busy[0]? = some false) (here : g.place me = .outside) :
    Core c ({ g with stop := true }.put me (.stopping true)) := by
  have nobody : ∀ i b, g.place i ≠ .stopping b := fun i b there => by grind [core.stopped.mpr ⟨i, b, there⟩]
  constructor
  case width => exact core.width
  case pos => exact core.pos
  case running => exact core.running
  case quiet => exact core.quiet
  all_goals simp only [put, Function.update_apply]
  case held => exact fun i idx k there => core.held i idx k (by grind)
  case apart => exact fun i j idx k k' there here => core.apart i j idx k k' (by grind) (by grind)
  case owned =>
    intro idx busy
    obtain ⟨i, k, inside⟩ := core.owned idx busy
    grind
  case stopped => exact iff_of_true trivial ⟨me, true, if_pos rfl⟩
  all_goals grind

/-- The call of `f`, when nobody is inside. -/
theorem Core.resume (core : Core c g) (idle : g.running = 0)
    (only : ∀ i b, g.place i = .stopping b → i = me) :
    Core c ({ g with stop := false, called := g.called ++ [g.busy] }.put me .outside) := by
  have none : true ∉ g.busy := List.count_eq_zero.mp (by grind [core.running])
  constructor
  case width => exact core.width
  case pos => exact core.pos
  case running => exact core.running
  case owned => exact fun idx busy => absurd (List.mem_of_getElem? busy) none
  all_goals simp only [put, Function.update_apply]
  case quiet => grind [core.quiet]
  case held => exact fun i idx k there => core.held i idx k (by grind)
  case apart => exact fun i j idx k k' there here => core.apart i j idx k k' (by grind) (by grind)
  all_goals grind

def Awake (g : Gate) : Prop := ∀ i, g.place i ≠ .entering true ∧ g.place i ≠ .stopping true

theorem Awake.alert (awake : Awake g) : Alert g :=
  ⟨fun i here => absurd here (awake i).1, fun i here => absurd here (awake i).2⟩

theorem awake_broadcast (g : Gate) : Awake g.broadcast := by
  intro i
  show (g.place i).woken ≠ _ ∧ (g.place i).woken ≠ _
  cases g.place i <;> simp [Place.woken]

theorem Core.signal (core : Core c g) (idx : Nat) : Core c (g.signal idx) := by
  unfold Gate.signal
  split
  · exact core.broadcast
  · exact core

theorem Awake.signal (awake : Awake g) (idx : Nat) : Awake (g.signal idx) := by
  unfold Gate.signal
  split
  · exact awake_broadcast g
  · exact awake

structure Inv (c : Nat) (g : Gate) : Prop where
  core : Core c g
  alert : Alert g

theorem Inv.waitAll (me : Nat) (core : Core c g) (idle : g.running = 0) (only : ∀ i b, g.place i = .stopping b → i = me) :
    Inv c (({ g with stop := false, called := g.called ++ [g.busy] }.broadcast.put me .outside).signal 0) := by
  have alone : ∀ i b, g.broadcast.place i = .stopping b → i = me := by
    intro i b there
    change (g.place i).woken = _ at there
    cases here : g.place i with
    | stopping b' => exact only i b' here
    | _ =>
      rw [here] at there
      cases there
  have awake : Awake (g.broadcast.put me .outside) := by
    intro i
    grind [awake_broadcast g i]
  have resumed := core.broadcast.resume idle alone
  exact ⟨resumed.signal 0, (Awake.signal (g := { g with stop := false, called := _ }.broadcast.put me .outside) awake 0).alert⟩

theorem Inv.enter (inv : Inv c g) (positive : 0 < c) (inside : ∀ idx k, g.place me ≠ .inside idx k)
    (stopping : ∀ b, g.place me ≠ .stopping b) : ∃ g', g.enter me = some g' ∧ Inv c g' := by
  obtain ⟨core, alert⟩ := inv
  have width : g.pos < g.busy.length := by
    rw [core.width, core.pos]
    exact Nat.mod_lt _ positive
  have read : g.busy[g.pos]? = some g.busy[g.pos] := List.getElem?_eq_getElem width
  unfold Gate.enter
  rw [read]
  dsimp only
  by_cases waits : (g.busy[g.pos] || g.stop) = true
  · rw [if_pos waits]
    refine ⟨_, rfl, core.moved (fun i idx k => ?_) (fun i => ?_), fun i there => ?_, fun i there => ?_⟩
    · grind [place_put g me (.entering true) i, Gate.put]
    · grind [place_put g me (.entering true) i, Gate.put]
    · exact (Bool.or_eq_true_iff.mp waits).imp_left fun taken => read.trans (congrArg some taken)
    · exact alert.stopping i (by grind)
  · rw [if_neg waits]
    simp only [Bool.or_eq_true, not_or, Bool.not_eq_true] at waits
    obtain ⟨free, going⟩ := waits
    rw [free] at read
    have entered := core.enter positive read going inside
    have counted : g.running + 1 = ((g.busy.set g.pos true).count true : Int) := entered.running
    have most := List.count_le_length (a := true) (l := g.busy.set g.pos true)
    rw [List.length_set] at most
    rw [if_neg (show ¬ g.running + 1 > (g.busy.length : Int) by omega)]
    refine ⟨_, rfl, entered, Awake.alert fun i => ⟨fun there => ?_, fun there => ?_⟩⟩
    · grind [alert.entering i]
    · grind [core.stopped.mpr ⟨i, true, by grind⟩]

theorem Inv.leave (inv : Inv c g) {idx k : Nat} (here : g.place me = .inside idx k) : ∃ g', g.leave me idx = some g' ∧ Inv c g' := by
  obtain ⟨core, alert⟩ := inv
  have busy : g.busy[idx]? = some true := (core.held me idx k here).2.2.2
  have left := core.leaves here
  have outside : (g.giveBack me idx).place me = .outside := Function.update_self ..
  have counted := left.running
  unfold Gate.leave
  rw [busy]
  dsimp only
  rw [if_neg (show ¬ (g.giveBack me idx).running < 0 by omega)]
  by_cases last : idx = 0 ∧ (g.giveBack me idx).f = true
  · rw [if_pos last]
    obtain ⟨rfl, -⟩ := last
    have going : (g.giveBack me 0).stop = false := by
      cases stops : g.stop with
      | false => exact stops
      | true => cases (core.zero stops).symm.trans busy
    rw [if_neg (show ¬ (g.giveBack me 0).stop = true by rw [going]; decide)]
    refine ⟨_, rfl, ?_⟩
    unfold Gate.waitAll
    by_cases idle : (g.giveBack me 0).running = 0
    · rw [if_neg (not_not.mpr idle)]
      have resumed := Inv.waitAll me left idle fun i b there => by grind [left.stopped.mpr ⟨i, b, there⟩]
      exact resumed
    · rw [if_pos idle]
      have free : (g.giveBack me 0).busy[0]? = some false := List.getElem?_set_self (List.getElem?_eq_some_iff.mp busy).1
      exact ⟨left.stop going free outside, fun _ _ => Or.inr rfl, fun _ _ => idle⟩
  · rw [if_neg last]
    refine ⟨_, rfl, left.signal idx, ?_⟩
    unfold Gate.signal
    split
    · exact (awake_broadcast _).alert
    · rename_i quiet
      simp only [Bool.or_eq_true, Bool.and_eq_true, beq_iff_eq, Bool.not_eq_true', not_or, not_and, Bool.not_eq_false] at quiet
      refine ⟨fun i there => ?_, fun i there idle => quiet.2 idle (left.stopped.mpr ⟨i, true, there⟩)⟩
      -- who waits for this ticket is woken, unless everybody is stopped
      by_cases same : idx = g.pos
      · exact Or.inr (quiet.1 same)
      · refine (alert.entering i (by grind [giveBack])).imp_left fun taken => ?_
        exact (List.getElem?_set_ne same).trans taken

theorem Inv.step (inv : Inv c g) (positive : 0 < c) (me : Nat) : ∃ g', g.step me = some g' ∧ Inv c g' := by
  unfold Gate.step
  cases here : g.place me with
  | outside => exact inv.enter positive (by simp [here]) (by simp [here])
  | inside idx k => exact inv.leave here
  | entering asleep =>
    cases asleep with
    | false => exact inv.enter positive (by simp [here]) (by simp [here])
    | true => exact ⟨g, rfl, inv⟩
  | stopping asleep =>
    cases asleep with
    | true => exact ⟨g, rfl, inv⟩
    | false =>
      refine ⟨_, rfl, ?_⟩
      unfold Gate.waitAll
      by_cases idle : g.running = 0
      · rw [if_neg (not_not.mpr idle)]
        exact Inv.waitAll me inv.core idle fun i b there => inv.core.alone i me b false there here
      · rw [if_pos idle]
        refine ⟨inv.core.moved (fun i idx k => ?_) (fun i => ?_), fun i there => ?_, fun _ _ => idle⟩
        · grind [place_put g me (.stopping true) i, Gate.put]
        · by_cases same : i = me
          · exact iff_of_true ⟨true, by grind [place_put g me (.stopping true) i, Gate.put]⟩ ⟨false, same ▸ here⟩
          · grind [place_put g me (.stopping true) i, Gate.put]
        · exact inv.alert.entering i (by grind)

theorem Inv.start (c : Nat) (f : Bool) : Inv c (newGate c f) := by
  have free : ∀ idx : Nat, (newGate c f).busy[idx]? ≠ some true := by
    intro idx busy
    cases List.eq_of_mem_replicate (List.mem_of_getElem? busy)
  refine ⟨⟨List.length_replicate, (Nat.zero_mod c).symm, ?_, fun _ _ _ here => (nomatch here), fun _ _ _ _ _ here => (nomatch here),
    fun idx busy => absurd busy (free idx), ⟨fun stop => (nomatch stop), fun ⟨_, _, here⟩ => (nomatch here)⟩,
    fun _ _ _ _ here => (nomatch here), fun stop => (nomatch stop), fun _ none => (nomatch none)⟩,
    fun _ here => (nomatch here), fun _ here => (nomatch here)⟩
  show (0 : Int) = ((List.replicate c false).count true : Int)
  rw [List.count_replicate]
  rfl

theorem Inv.run (positive : 0 < c) (inv : Inv c g) (schedule : List Nat) :
    ∃ g', schedule.foldlM Gate.step g = some g' ∧ Inv c g' := by
  induction schedule generalizing g with
  | nil => exact ⟨g, rfl, inv⟩
  | cons me schedule ih =>
    obtain ⟨g₁, stepped, inv₁⟩ := inv.step positive me
    obtain ⟨g', ran, inv'⟩ := ih inv₁
    exact ⟨g', by rw [List.foldlM_cons, stepped]; exact ran, inv'⟩

structure Safe (c : Nat) (g : Gate) : Prop where
  ticket : ∀ i idx k, g.place i = .inside idx k → idx < c
  apart : ∀ i j idx k k', g.place i = .inside idx k → g.place j = .inside idx k' → i = j
  /-- who is inside entered less than `c` after anybody else there -/
  window : ∀ i j idx idx' k k', g.place i = .inside idx k → g.place j = .inside idx' k' → k < k' + c
  running : 0 ≤ g.running ∧ g.running ≤ c
  /-- `f` runs when no ticket is out -/
  quiet : ∀ busy ∈ g.called, true ∉ busy

/-- The gate never breaks. -/
theorem gate_safe (positive : 0 < c) (f : Bool) (schedule : List Nat) :
    ∃ g, schedule.foldlM step (newGate c f) = some g ∧ Safe c g := by
  obtain ⟨g, ran, core, -⟩ := Inv.run positive (Inv.start c f) schedule
  refine ⟨g, ran, fun i idx k here => ?_, core.apart, fun i j idx idx' k k' here there => ?_, ?_, core.quiet⟩
  · rw [(core.held i idx k here).1]
    exact Nat.mod_lt _ positive
  · have before := (core.held i idx k here).2.1
    have behind := (core.held j idx' k' there).2.2.1
    omega
  · have counted := core.running
    have most := List.count_le_length (a := true) (l := g.busy)
    rw [core.width] at most
    omega

theorem gate_safe_two : ∃ g, [0, 1, 2, 0, 2, 1, 2, 2].foldlM step (newGate 2 true) = some g ∧ Safe 2 g :=
  gate_safe (by decide) true [0, 1, 2, 0, 2, 1, 2, 2]

/-- Somebody is inside, or about to call `f`. -/
def Moves (g : Gate) : Prop := ∃ j, g.place j = .stopping false ∨ ∃ idx k, g.place j = .inside idx k

/-- No wake-up is lost: nobody sleeps when there is nobody to wait for. -/
theorem gate_awake (positive : 0 < c) (f : Bool) (schedule : List Nat) {g : Gate} (ran : schedule.foldlM step (newGate c f) = some g)
    {i : Nat} (sleeps : g.place i = .entering true ∨ g.place i = .stopping true) :
    g.Moves := by
  obtain ⟨g', ran', core, alert⟩ := Inv.run positive (Inv.start c f) schedule
  obtain rfl := Option.some.inj (ran.symm.trans ran')
  have someone : ∀ {idx : Nat}, g.busy[idx]? = some true → g.Moves := by
    intro idx busy
    obtain ⟨j, k, here⟩ := core.owned idx busy
    exact ⟨j, Or.inr ⟨idx, k, here⟩⟩
  have inside : g.running ≠ 0 → g.Moves := by
    intro active
    have counted := core.running
    obtain ⟨idx, here⟩ := List.getElem?_of_mem (List.count_pos_iff.mp (show 0 < g.busy.count true by omega))
    exact someone here
  rcases sleeps with entering | stopping
  · rcases alert.entering i entering with taken | stops
    · exact someone taken
    · obtain ⟨j, asleep, here⟩ := core.stopped.mp stops
      cases asleep with
      | false => exact ⟨j, Or.inl here⟩
      | true => exact inside (alert.stopping j here)
  · exact inside (alert.stopping i stopping)

/-- A second goroutine at a gate for one. -/
theorem gate_awake_one : ∃ g, [0, 1].foldlM step (newGate 1 true) = some g ∧ g.Moves :=
  ⟨_, rfl, gate_awake (c := 1) (by decide) true [0, 1] rfl (i := 1) (Or.inl rfl)⟩

end Gate

end DfsFuzz.Executor
