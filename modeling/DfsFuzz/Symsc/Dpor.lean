import DfsFuzz.Lib.BestScan
import DfsFuzz.Lib.Linearize

/-!
The exploration of the orders of the clients' operations (`checker/symsc/dpor.py`). The emulator, the checks,
the relation of two calls and the order in which a set is listed are parameters.
-/

namespace DfsFuzz.Symsc

abbrev Op := Nat

/-- `(op, prog_id)` -/
abbrev Choice := Op × Nat

/-- The windows of the operations: `c.runtime_state[op]["Stime"]` and `["Etime"]`. -/
structure Times where
  stime : Op → Nat
  etime : Op → Nat

/-- An entry of the stack `S`, for an operation that was run. -/
structure Entry (σ : Type) where
  emulState : σ
  op : Op
  procId : Nat

structure World (σ : Type) extends Times where
  emulate : σ → Op → Int × σ
  stateCheck : Int → σ → Op → Bool
  checkPersistenceState : σ → Bool
  /-- `is_dependent` on an entry of the stack and an operation whose windows overlap. Besides the state of the entry
  it reads `c.DENTRY`, `c.MEM`, `c.DISK` and `c.BUF_SIZE` as the last `emulate` bound them, so it is given the stack. -/
  related : List (Entry σ) → Entry σ → Op → Bool
  /-- `list(set(l))` -/
  listSet : List Choice → List Choice
  mem_listSet : ∀ l c, c ∈ listSet l ↔ c ∈ l

variable {σ : Type}

instance : CoeOut (World σ) Times := ⟨World.toTimes⟩

abbrev Programs := List (List Op)

def getNextOp (t : Times) (progs : Programs) : Option Choice :=
  (BestScan.best (fun p : List Op × Nat => p.1.head?.map t.stime) progs.zipIdx).bind fun found =>
    found.1.1.head?.map fun op => (op, found.1.2)

def removeOneOp (progs : Programs) (op : Op) : Programs := progs.map fun prog => prog.erase op

/-- The first test of `is_dependent`, which also sets `t_reduced`. -/
def timeOrdered (t : Times) (a b : Op) : Bool := t.etime a ≤ t.stime b || t.etime b ≤ t.stime a

def isDependent (w : World σ) (stack : List (Entry σ)) (s : Entry σ) (nextOp : Op) : Bool :=
  !timeOrdered w s.op nextOp && w.related stack s nextOp

/-- The backward scan of `update_backtrack` for the next operation of a program, from the top of the stack: the
entry whose list it is added to, with the stack below it. The entry of the initial state is not in the list. -/
def scan (w : World σ) (stack : List (Entry σ)) (idx : Nat) (nextOp : Op) :
    List (Entry σ) → Option (Entry σ × List (Entry σ))
  | [] => none
  | s :: below =>
    if s.procId = idx then scan w stack idx nextOp below
    else if isDependent w stack s nextOp then some (s, below)
    else if timeOrdered w s.op nextOp then none
    else scan w stack idx nextOp below

/-- The stack after a call was emulated and the programs left then. -/
structure Branch (σ : Type) where
  stack : List (Entry σ)
  progs : Programs

/-- The lists `sets` of all calls of `explore`, by reference, the table `c.backtracks`, and every branch run so far. -/
structure Memory (σ : Type) where
  lists : List (List Choice) := []
  backtracks : Op → Option Nat := fun _ => none
  log : List (Branch σ) := []

namespace Memory

def list (m : Memory σ) (ref : Nat) : List Choice := m.lists.getD ref []

/-- `c.backtracks[op].append(choice)` -/
def record (m : Memory σ) (op : Op) (choice : Choice) : Memory σ :=
  match m.backtracks op with
  | none => m
  | some ref => { m with lists := m.lists.modify ref (· ++ [choice]) }

/-- `c.backtracks[op] = sets` -/
def assign (m : Memory σ) (op : Op) (ref : Nat) : Memory σ :=
  { m with backtracks := Function.update m.backtracks op (some ref) }

def alloc (m : Memory σ) (sets : List Choice) : Memory σ := { m with lists := m.lists ++ [sets] }

def ran (m : Memory σ) (stack : List (Entry σ)) (progs : Programs) : Memory σ :=
  { m with log := m.log ++ [{ stack, progs }] }

end Memory

def updateOne (w : World σ) (stack : List (Entry σ)) (m : Memory σ) (p : List Op × Nat) : Memory σ :=
  match p.1 with
  | [] => m
  | nextOp :: _ =>
    match scan w stack p.2 nextOp stack with
    | none => m
    | some hit => m.record hit.1.op (nextOp, p.2)

/-- On the stack of the initial state alone nothing is found, as with the list `None` of the first call. -/
def updateBacktrack (w : World σ) (stack : List (Entry σ)) (progs : Programs) (m : Memory σ) : Memory σ :=
  progs.zipIdx.foldl (updateOne w stack) m

def topState (start : σ) : List (Entry σ) → σ
  | [] => start
  | s :: _ => s.emulState

@[simp] theorem topState_cons (start : σ) (s : Entry σ) (below : List (Entry σ)) :
    topState start (s :: below) = s.emulState := rfl

def remaining (w : World σ) (m : Memory σ) (ref : Nat) (done : List Choice) : List Choice :=
  w.listSet ((m.list ref).filter fun choice => choice ∉ done)

/-- What a call of `explore` returns and leaves behind, unless a bound was reached. -/
abbrev Outcome (σ : Type) := Option (Bool × Memory σ)

def push (w : World σ) (start : σ) (stack : List (Entry σ)) (choice : Choice) : List (Entry σ) :=
  { emulState := (w.emulate (topState start stack) choice.1).2, op := choice.1, procId := choice.2 } :: stack

/-- The runtime state conforms to the state that the call is emulated to. -/
def accepted (w : World σ) (state : σ) (op : Op) : Bool :=
  w.stateCheck (w.emulate state op).1 (w.emulate state op).2 op

/-- The loop of `explore` over the list at `ref`; `again` is the recursive call. -/
def loop (w : World σ) (again : List (Entry σ) → Programs → Memory σ → Outcome σ) (start : σ) (stack : List (Entry σ))
    (progs : Programs) (ref : Nat) : Nat → List Choice → Memory σ → Outcome σ
  | 0, _, _ => none
  | budget + 1, done, m =>
    match remaining w m ref done with
    | [] => some (false, m)
    | choice :: _ =>
      let stack' := push w start stack choice
      let progs' := removeOneOp progs choice.1
      let m := (m.assign choice.1 ref).ran stack' progs'
      if accepted w (topState start stack) choice.1 then
        match again stack' progs' m with
        | none => none
        | some (true, m) => some (true, m)
        | some (false, m) => loop w again start stack progs ref budget (done ++ [choice]) m
      else loop w again start stack progs ref budget (done ++ [choice]) (updateBacktrack w stack' progs' m)

/-- The two bounds are on the recursion depth and on the rounds of each loop. -/
def explore (w : World σ) (start : σ) (budget : Nat) : Nat → List (Entry σ) → Programs → Memory σ → Outcome σ
  | 0, _, _, _ => none
  | depth + 1, stack, progs, m =>
    let m := updateBacktrack w stack progs m
    match getNextOp w progs with
    | none => some (w.checkPersistenceState (topState start stack), m)
    | some choice =>
      loop w (explore w start budget depth) start stack progs m.lists.length budget [] (m.alloc [choice])

section Round
variable {w : World σ} {again : List (Entry σ) → Programs → Memory σ → Outcome σ} {start : σ} {stack : List (Entry σ)}
  {progs : Programs} {ref : Nat}

/-- The memory when the operation of a round has run. -/
def executed (w : World σ) (start : σ) (stack : List (Entry σ)) (progs : Programs) (ref : Nat) (m : Memory σ)
    (choice : Choice) : Memory σ :=
  (m.assign choice.1 ref).ran (push w start stack choice) (removeOneOp progs choice.1)

/-- How a round goes on to the next one: below the operation nothing was found, or its check failed. -/
inductive Tried (w : World σ) (again : List (Entry σ) → Programs → Memory σ → Outcome σ) (start : σ)
    (stack : List (Entry σ)) (progs : Programs) (ref : Nat) (m : Memory σ) (choice : Choice) : Memory σ → Prop
  | explored {m' : Memory σ} (passed : accepted w (topState start stack) choice.1 = true)
      (nothing : again (push w start stack choice) (removeOneOp progs choice.1)
        (executed w start stack progs ref m choice) = some (false, m')) : Tried w again start stack progs ref m choice m'
  | refused (failed : accepted w (topState start stack) choice.1 = false) : Tried w again start stack progs ref m choice
      (updateBacktrack w (push w start stack choice) (removeOneOp progs choice.1)
        (executed w start stack progs ref m choice))

theorem loop_cases {budget : Nat} {done : List Choice} {m m' : Memory σ} {res : Bool}
    (ran : loop w again start stack progs ref (budget + 1) done m = some (res, m')) :
    (remaining w m ref done = [] ∧ res = false ∧ m' = m) ∨
    ∃ choice ∈ remaining w m ref done,
      (accepted w (topState start stack) choice.1 = true ∧ res = true ∧
        again (push w start stack choice) (removeOneOp progs choice.1)
          (executed w start stack progs ref m choice) = some (true, m')) ∨
      ∃ next, Tried w again start stack progs ref m choice next ∧
        loop w again start stack progs ref budget (done ++ [choice]) next = some (res, m') := by
  rw [loop] at ran
  cases left : remaining w m ref done with
  | nil =>
    simp only [left, Option.some.injEq, Prod.mk.injEq] at ran
    exact .inl ⟨rfl, ran.1.symm, ran.2.symm⟩
  | cons choice rest =>
    simp only [left] at ran
    refine .inr ⟨choice, by simp, ?_⟩
    by_cases passed : accepted w (topState start stack) choice.1 = true
    · rw [if_pos passed] at ran
      cases called : again (push w start stack choice) (removeOneOp progs choice.1)
          (executed w start stack progs ref m choice) with
      | none =>
        unfold executed at called
        simp [called] at ran
      | some result =>
        obtain ⟨found, next⟩ := result
        have called' := called
        unfold executed at called'
        cases found with
        | true =>
          simp only [called', Option.some.injEq, Prod.mk.injEq] at ran
          exact .inl ⟨passed, ran.1.symm, by rw [ran.2]⟩
        | false =>
          simp only [called'] at ran
          exact .inr ⟨next, .explored passed called, ran⟩
    · rw [if_neg passed] at ran
      exact .inr ⟨_, .refused (by simpa using passed), ran⟩

theorem mem_remaining {m : Memory σ} {done : List Choice} {choice : Choice} :
    choice ∈ remaining w m ref done ↔ choice ∈ m.list ref ∧ choice ∉ done := by
  rw [remaining, w.mem_listSet]
  simp

end Round

end DfsFuzz.Symsc
