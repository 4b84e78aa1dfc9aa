import DfsFuzz.Lib.BitWord
import Mathlib.Logic.Relation
import Mathlib.Data.Fintype.Pi

/-!
The start-up barrier of `receive_handshake`: the executors of one cluster meet
in `srvSetupBit` before and after they configure their node, and the fuzzer,
which starts them, overwrites the control block in `handshake`.
-/

namespace DfsFuzz.Executor

open DfsFuzz.Lib

/-- Where an executor stands in `receive_handshake`. -/
inductive Phase where
  | notStarted
  | entered
  | allSetWait
  | configuring
  | configured
  | allClearWait
  | ready
  deriving DecidableEq, Repr

/-- The cluster: the shared word, every executor, and how far `makeCommand` has come. -/
structure Cluster (vmCount : Nat) where
  srvSetupBit : BitVec 64
  phase : Fin vmCount → Phase
  started : Nat
  handshaken : Bool

/-- One atomic step of the fuzzer or of an executor. -/
inductive Move (vmCount : Nat) where
  | startExecutor
  | handshake
  | executor (i : Fin vmCount)
  deriving DecidableEq, Repr

namespace Cluster

variable {vmCount : Nat}

def allMask (vmCount : Nat) : BitVec 64 :=
  if vmCount = 64 then ~~~0#64 else (1#64 <<< vmCount) - 1#64

/-- The block is zeroed before the first executor runs. -/
def initial (vmCount : Nat) : Cluster vmCount :=
  { srvSetupBit := 0#64, phase := fun _ => .notStarted, started := 0, handshaken := false }

def enter (s : Cluster vmCount) (i : Fin vmCount) (next : Phase) : Cluster vmCount :=
  { s with phase := Function.update s.phase i next }

/-- A step of executor `i`; a wait whose test fails is no step. -/
def receiveHandshake (s : Cluster vmCount) (i : Fin vmCount) : Option (Cluster vmCount) :=
  match s.phase i with
  | .notStarted => none
  | .entered => some { s.enter i .allSetWait with srvSetupBit := raise s.srvSetupBit i }
  | .allSetWait =>
    if s.srvSetupBit &&& allMask vmCount = allMask vmCount then some (s.enter i .configuring) else none
  | .configuring => some (s.enter i .configured)
  | .configured => some { s.enter i .allClearWait with srvSetupBit := lower s.srvSetupBit i }
  | .allClearWait =>
    if s.srvSetupBit &&& allMask vmCount = 0#64 then some (s.enter i .ready) else none
  | .ready => none

/-- `makeCommand` starts the executors in order and only then calls `handshake`,
whose fresh `executeControl` has no bit set. -/
def step (s : Cluster vmCount) : Move vmCount → Option (Cluster vmCount)
  | .startExecutor =>
    if below : s.started < vmCount then
      some { s.enter ⟨s.started, below⟩ .entered with started := s.started + 1 }
    else none
  | .handshake =>
    if s.started = vmCount ∧ s.handshaken = false then
      some { s with srvSetupBit := 0#64, handshaken := true }
    else none
  | .executor i => s.receiveHandshake i

/-- One step of the cluster that meets a condition on the move and the state before it. -/
def StepsIf (condition : Cluster vmCount → Move vmCount → Prop) (s t : Cluster vmCount) : Prop :=
  ∃ m, condition s m ∧ s.step m = some t

def Reachable (condition : Cluster vmCount → Move vmCount → Prop) (s : Cluster vmCount) : Prop :=
  Relation.ReflTransGen (StepsIf condition) (initial vmCount) s

/-- The executor has run the configuration of its node. -/
def Phase.Finished (p : Phase) : Prop := p = .configured ∨ p = .allClearWait ∨ p = .ready

/-- Nobody left the all-clear wait before everybody finished the configuration. -/
def Safe (s : Cluster vmCount) : Prop := ∀ i, s.phase i = .ready → ∀ j, Phase.Finished (s.phase j)

def Waiting (s : Cluster vmCount) : Prop := ∃ i, s.phase i = .allSetWait ∨ s.phase i = .allClearWait

def Stuck (s : Cluster vmCount) : Prop := Waiting s ∧ ∀ m, s.step m = none

/-- The overwrite finds no bit set, and a bit is cleared only when no executor is in the all-set wait. -/
def Undisturbed (s : Cluster vmCount) : Move vmCount → Prop
  | .startExecutor => True
  | .handshake => s.srvSetupBit = 0#64
  | .executor i => s.phase i = .configured → ∀ j, s.phase j ≠ .allSetWait

theorem getLsbD_allMask (small : vmCount ≤ 64) (i : Nat) : (allMask vmCount).getLsbD i = decide (i < vmCount) := by
  unfold allMask
  split
  · rename_i full
    subst full
    simp only [BitVec.getLsbD_not, BitVec.getLsbD_zero, Bool.not_false, Bool.and_true]
  · exact getLsbD_lowMask (by omega) i

theorem allSet_iff (small : vmCount ≤ 64) (word : BitVec 64) :
    word &&& allMask vmCount = allMask vmCount ↔ ∀ i < vmCount, word.getLsbD i = true := by
  simp [and_eq_self_iff, getLsbD_allMask small]

theorem allClear_iff (small : vmCount ≤ 64) (word : BitVec 64) :
    word &&& allMask vmCount = 0#64 ↔ ∀ i < vmCount, word.getLsbD i = false := by
  simp [and_eq_zero_iff, getLsbD_allMask small]

/-! ### The invariant -/

def Phase.rank : Phase → Nat
  | .notStarted => 0
  | .entered => 1
  | .allSetWait => 2
  | .configuring => 3
  | .configured => 4
  | .allClearWait => 5
  | .ready => 6

def rank (s : Cluster vmCount) (i : Fin vmCount) : Nat := Phase.rank (s.phase i)

structure Inv (s : Cluster vmCount) : Prop where
  bits : ∀ i : Fin vmCount, s.srvSetupBit.getLsbD i = true ↔ 2 ≤ s.rank i ∧ s.rank i ≤ 4
  begun : ∀ i : Fin vmCount, s.started ≤ i ↔ s.rank i = 0
  met : ∀ i j, 3 ≤ s.rank i → 2 ≤ s.rank j
  passed : ∀ i j, 5 ≤ s.rank i → 3 ≤ s.rank j
  cleared : ∀ i j, s.rank i = 6 → 5 ≤ s.rank j

theorem initial_inv : Inv (initial vmCount) := by
  constructor <;> simp [initial, rank, Phase.rank]

/-- One executor moves on by one phase, and the others meet what the new phase asks of them. -/
theorem Inv.advance {s t : Cluster vmCount} (inv : Inv s) {i : Fin vmCount} {next : Phase}
    (phases : t.phase = Function.update s.phase i next) (moved : Phase.rank next = s.rank i + 1)
    (ownBit : t.srvSetupBit.getLsbD i = true ↔ 2 ≤ Phase.rank next ∧ Phase.rank next ≤ 4)
    (otherBits : ∀ j : Fin vmCount, j ≠ i → t.srvSetupBit.getLsbD j = s.srvSetupBit.getLsbD j)
    (begun : ∀ j : Fin vmCount, t.started ≤ j ↔ s.started ≤ j ∧ j ≠ i)
    (met : Phase.rank next = 3 → ∀ j, 2 ≤ s.rank j) (passed : Phase.rank next = 5 → ∀ j, 3 ≤ s.rank j)
    (cleared : Phase.rank next = 6 → ∀ j, 5 ≤ s.rank j) : Inv t := by
  have own : t.rank i = Phase.rank next := by simp [rank, phases]
  have other : ∀ j, j ≠ i → t.rank j = s.rank j := by
    intro j different
    simp [rank, phases, different]
  have above : ∀ j, s.rank j ≤ t.rank j := by
    intro j
    by_cases same : j = i
    · subst same
      omega
    · exact Nat.le_of_eq (other j same).symm
  refine ⟨fun j => ?_, fun j => ?_, fun k j far => ?_, fun k j far => ?_, fun k j far => ?_⟩
  · by_cases same : j = i
    · subst same
      rw [own]
      exact ownBit
    · rw [other j same, otherBits j same]
      exact inv.bits j
  · rw [begun j, inv.begun j]
    by_cases same : j = i
    · subst same
      simp only [ne_eq, not_true, and_false, false_iff]
      omega
    · simp [other j same, same]
  · refine Nat.le_trans ?_ (above j)
    by_cases same : k = i
    · subst same
      by_cases now : Phase.rank next = 3
      · exact met now j
      · exact inv.met k j (by omega)
    · exact inv.met k j (other k same ▸ far)
  · refine Nat.le_trans ?_ (above j)
    by_cases same : k = i
    · subst same
      by_cases now : Phase.rank next = 5
      · exact passed now j
      · exact inv.passed k j (by omega)
    · exact inv.passed k j (other k same ▸ far)
  · refine Nat.le_trans ?_ (above j)
    by_cases same : k = i
    · subst same
      exact cleared (own.symm.trans far) j
    · exact inv.cleared k j (other k same ▸ far)

theorem Inv.start {s : Cluster vmCount} (inv : Inv s) (below : s.started < vmCount) :
    Inv { s.enter ⟨s.started, below⟩ .entered with started := s.started + 1 } := by
  have fresh : s.rank ⟨s.started, below⟩ = 0 := (inv.begun _).mp (Nat.le_refl _)
  have clear := inv.bits ⟨s.started, below⟩
  refine inv.advance (i := ⟨s.started, below⟩) rfl (by rw [fresh]; rfl) ?_ (fun _ _ => rfl) ?_ nofun nofun nofun
  · rw [fresh] at clear
    simpa [enter, Phase.rank] using clear
  · intro j
    rw [ne_eq, Fin.ext_iff]
    simp only
    omega

theorem Inv.executor (small : vmCount ≤ 64) {s t : Cluster vmCount} (inv : Inv s) {i : Fin vmCount}
    (undisturbed : Undisturbed s (.executor i)) (moved : s.receiveHandshake i = some t) : Inv t := by
  have begun : s.rank i ≠ 0 → ∀ j : Fin vmCount, s.started ≤ j ↔ s.started ≤ j ∧ j ≠ i := by
    intro running j
    refine ⟨fun late => ⟨late, fun same => ?_⟩, And.left⟩
    exact running ((inv.begun i).mp (same ▸ late))
  have wide : i.val < 64 := Nat.lt_of_lt_of_le i.isLt small
  have bit := inv.bits i
  unfold receiveHandshake at moved
  cases phase : s.phase i with
  | notStarted => simp [phase] at moved
  | ready => simp [phase] at moved
  | entered =>
    have here : s.rank i = 1 := congrArg Phase.rank phase
    simp only [phase, Option.some.injEq] at moved
    subst moved
    refine inv.advance (i := i) rfl (by rw [here]; rfl) ?_ ?_ (begun (by omega)) nofun nofun nofun
    · simp [getLsbD_raise, wide, Phase.rank]
    · intro j different
      have apart : ¬ i.val = j.val := fun same => different (Fin.ext same.symm)
      simp [getLsbD_raise, apart]
  | allSetWait =>
    have here : s.rank i = 2 := congrArg Phase.rank phase
    simp only [phase] at moved
    split at moved
    · rename_i all
      cases moved
      have set := (allSet_iff small _).mp all
      refine inv.advance (i := i) rfl (by rw [here]; rfl) ?_ (fun _ _ => rfl) (begun (by omega)) (fun _ j => ?_) nofun nofun
      · simpa [here, Phase.rank, enter] using bit
      · exact ((inv.bits j).mp (set j j.isLt)).1
    · cases moved
  | configuring =>
    have here : s.rank i = 3 := congrArg Phase.rank phase
    simp only [phase, Option.some.injEq] at moved
    subst moved
    refine inv.advance (i := i) rfl (by rw [here]; rfl) ?_ (fun _ _ => rfl) (begun (by omega)) nofun nofun nofun
    simpa [here, Phase.rank, enter] using bit
  | configured =>
    have here : s.rank i = 4 := congrArg Phase.rank phase
    simp only [phase, Option.some.injEq] at moved
    subst moved
    refine inv.advance (i := i) rfl (by rw [here]; rfl) ?_ ?_ (begun (by omega)) nofun (fun _ j => ?_) nofun
    · simp [getLsbD_lower _ _ wide, Phase.rank]
    · intro j different
      have apart : ¬ i.val = j.val := fun same => different (Fin.ext same.symm)
      simp [getLsbD_lower _ _ (Nat.lt_of_lt_of_le j.isLt small), apart]
    · have arrived := inv.met i j (by omega)
      have left : s.rank j ≠ 2 := by
        intro still
        refine undisturbed phase j ?_
        revert still
        unfold rank
        cases s.phase j <;> simp [Phase.rank]
      omega
  | allClearWait =>
    have here : s.rank i = 5 := congrArg Phase.rank phase
    simp only [phase] at moved
    split at moved
    · rename_i none
      cases moved
      have clear := (allClear_iff small _).mp none
      refine inv.advance (i := i) rfl (by rw [here]; rfl) ?_ (fun _ _ => rfl) (begun (by omega)) nofun nofun (fun _ j => ?_)
      · simpa [here, Phase.rank, enter] using bit
      · have arrived := inv.passed i j (by omega)
        have unset := inv.bits j
        rw [clear j j.isLt] at unset
        have := unset.mpr
        simp at this
        omega
    · cases moved

theorem step_inv (small : vmCount ≤ 64) {s t : Cluster vmCount} (inv : Inv s) {m : Move vmCount}
    (undisturbed : Undisturbed s m) (moved : s.step m = some t) : Inv t := by
  cases m with
  | startExecutor =>
    simp only [step] at moved
    split at moved
    · cases moved
      exact inv.start _
    · cases moved
  | handshake =>
    simp only [step] at moved
    split at moved
    · cases moved
      have empty : s.srvSetupBit = 0#64 := undisturbed
      refine ⟨fun i => ?_, inv.begun, inv.met, inv.passed, inv.cleared⟩
      have bit := inv.bits i
      rw [empty] at bit
      exact bit
    · cases moved
  | executor i => exact inv.executor small undisturbed moved

theorem reachable_inv (small : vmCount ≤ 64) {s : Cluster vmCount} (reached : Reachable Undisturbed s) : Inv s := by
  induction reached with
  | refl => exact initial_inv
  | tail _ last inv =>
    obtain ⟨m, undisturbed, moved⟩ := last
    exact step_inv small inv undisturbed moved

theorem Inv.safe {s : Cluster vmCount} (inv : Inv s) : Safe s := by
  intro i out j
  have far := inv.cleared i j (congrArg Phase.rank out)
  revert far
  unfold rank Phase.Finished
  cases s.phase j <;> simp [Phase.rank]

/-- With nothing to start and nobody between two waits, the executors wait at the same barrier. -/
theorem Inv.not_stuck (small : vmCount ≤ 64) {s : Cluster vmCount} (inv : Inv s) : ¬ Stuck s := by
  rintro ⟨⟨i, waits⟩, blocked⟩
  have allStarted : vmCount ≤ s.started := by
    by_contra early
    have start := blocked .startExecutor
    simp [step, Nat.lt_of_not_le early] at start
  have held : ∀ j, s.rank j = 2 ∨ s.rank j = 5 ∨ s.rank j = 6 := by
    intro j
    have running : s.rank j ≠ 0 := by
      intro idle
      have := (inv.begun j).mpr idle
      omega
    have still := blocked (.executor j)
    revert running still
    unfold rank
    cases phase : s.phase j <;> simp [step, receiveHandshake, phase, Phase.rank]
  rcases waits with set | clear
  · have here : s.rank i = 2 := congrArg Phase.rank set
    have all : s.srvSetupBit &&& allMask vmCount = allMask vmCount := by
      refine (allSet_iff small _).mpr fun j below => ?_
      refine (inv.bits ⟨j, below⟩).mpr ?_
      have := held ⟨j, below⟩
      have := inv.passed ⟨j, below⟩ i
      omega
    have leave := blocked (.executor i)
    simp [step, receiveHandshake, set, all] at leave
  · have here : s.rank i = 5 := congrArg Phase.rank clear
    have none : s.srvSetupBit &&& allMask vmCount = 0#64 := by
      refine (allClear_iff small _).mpr fun j below => ?_
      rw [← Bool.not_eq_true, inv.bits ⟨j, below⟩]
      have := held ⟨j, below⟩
      have := inv.passed i ⟨j, below⟩
      omega
    have leave := blocked (.executor i)
    simp [step, receiveHandshake, clear, none] at leave

/-- In every run that the overwrite does not disturb and that clears no bit another executor still
waits for, the barrier holds and no wait is left without a step. -/
theorem startup_barrier (small : vmCount ≤ 64) {s : Cluster vmCount}
    (reached : Reachable Undisturbed s) : Safe s ∧ ¬ Stuck s :=
  ⟨(reachable_inv small reached).safe, (reachable_inv small reached).not_stuck small⟩

/-! ### Two executors -/

theorem stuck_iff (s : Cluster vmCount) :
    Stuck s ↔ (∃ i, s.phase i = .allSetWait ∨ s.phase i = .allClearWait) ∧ s.step .startExecutor = none ∧
      s.step .handshake = none ∧ ∀ i, s.receiveHandshake i = none := by
  constructor
  · exact fun stuck => ⟨stuck.1, stuck.2 _, stuck.2 _, fun i => stuck.2 (.executor i)⟩
  · rintro ⟨waits, starts, writes, runs⟩
    refine ⟨waits, fun m => ?_⟩
    cases m with
    | startExecutor => exact starts
    | handshake => exact writes
    | executor i => exact runs i

instance (s : Cluster vmCount) : Decidable (Stuck s) := decidable_of_iff' _ (stuck_iff s)

instance (p : Phase) : Decidable (Phase.Finished p) := inferInstanceAs (Decidable (_ ∨ _ ∨ _))

instance (s : Cluster vmCount) : Decidable (Safe s) :=
  inferInstanceAs (Decidable (∀ i, s.phase i = .ready → ∀ j, Phase.Finished (s.phase j)))

instance (s : Cluster vmCount) (m : Move vmCount) : Decidable (Undisturbed s m) :=
  match m with
  | .startExecutor => isTrue trivial
  | .handshake => inferInstanceAs (Decidable (s.srvSetupBit = 0#64))
  | .executor i => inferInstanceAs (Decidable (s.phase i = .configured → ∀ j, s.phase j ≠ .allSetWait))

section Schedules

variable (condition : Cluster vmCount → Move vmCount → Prop) [∀ s m, Decidable (condition s m)]

/-- A schedule; a move that is not enabled or does not meet the condition is passed over. -/
def runMoves (s : Cluster vmCount) (moves : List (Move vmCount)) : Cluster vmCount :=
  moves.foldl (fun s m => if condition s m then (s.step m).getD s else s) s

theorem reachable_runMoves (moves : List (Move vmCount)) {s : Cluster vmCount} (reached : Reachable condition s) :
    Reachable condition (runMoves condition s moves) := by
  induction moves generalizing s with
  | nil => exact reached
  | cons m moves ih =>
    refine ih ?_
    show Reachable condition (if condition s m then (s.step m).getD s else s)
    split
    · rename_i meets
      cases next : s.step m with
      | none => exact reached
      | some t => exact reached.tail ⟨m, meets, next⟩
    · exact reached

end Schedules

abbrev anyMove : Cluster vmCount → Move vmCount → Prop := fun _ _ => True

/-- The first executor sets its bit, `handshake` wipes it, and both executors wait for it. -/
def wipedMoves : List (Move 2) := [.startExecutor, .startExecutor, .executor 0, .handshake, .executor 1]

/-- Both executors are past the first wait; the overwrite releases the first while the second configures. -/
def releasedMoves : List (Move 2) :=
  [.startExecutor, .startExecutor, .executor 0, .executor 1, .executor 0, .executor 1, .executor 0, .handshake, .executor 0,
    .executor 0]

/-- The overwrite does no harm, but the first executor clears its bit before the second sees all bits set. -/
def overtakenMoves : List (Move 2) :=
  [.startExecutor, .startExecutor, .handshake, .executor 0, .executor 1, .executor 0, .executor 0, .executor 0]

theorem startup_disturbed :
    (Reachable anyMove (runMoves anyMove (initial 2) wipedMoves) ∧ Stuck (runMoves anyMove (initial 2) wipedMoves)) ∧
      (Reachable anyMove (runMoves anyMove (initial 2) releasedMoves) ∧ ¬ Safe (runMoves anyMove (initial 2) releasedMoves)) ∧
      (Reachable anyMove (runMoves anyMove (initial 2) overtakenMoves) ∧
        Stuck (runMoves anyMove (initial 2) overtakenMoves)) := by
  have reached : ∀ moves, Reachable anyMove (runMoves anyMove (initial 2) moves) :=
    fun moves => reachable_runMoves anyMove moves .refl
  exact ⟨⟨reached _, by decide +kernel⟩, ⟨reached _, by decide +kernel⟩, ⟨reached _, by decide +kernel⟩⟩

/-- The overwrite comes first and the executors take every step in turn. -/
def orderlyMoves : List (Move 2) :=
  [.startExecutor, .startExecutor, .handshake, .executor 0, .executor 1, .executor 0, .executor 1, .executor 0, .executor 1,
    .executor 0, .executor 1, .executor 0, .executor 1]

theorem startup_barrier_orderly :
    (∀ i, (runMoves Undisturbed (initial 2) orderlyMoves).phase i = .ready) ∧
      Safe (runMoves Undisturbed (initial 2) orderlyMoves) ∧ ¬ Stuck (runMoves Undisturbed (initial 2) orderlyMoves) :=
  ⟨by decide +kernel, startup_barrier (by decide) (reachable_runMoves Undisturbed orderlyMoves .refl)⟩

end Cluster
end DfsFuzz.Executor
