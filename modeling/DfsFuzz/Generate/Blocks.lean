import DfsFuzz.Generate.Calls

/-!
What a block of calls made by name looks like: calls on paths, one call on a descriptor that is open, or
an open, a call and a close.
-/

namespace DfsFuzz.Generate

open DfsFuzz.Choice DfsFuzz.Mutation DfsFuzz.Tree

/-- The result objects of the calls are the new ones, in order; the programs stay. -/
structure Numbers (g g' : StashGroup) (calls : List Call) : Prop where
  count : ∃ k, calls.flatMap callResults = List.range' g.next k ∧ g'.next = g.next + k
  progs : g'.progs = g.progs

/-- A call whose first argument refers to `fd`, and that has no other reference. -/
structure IsUse (fd : ResultId) (c : Call) : Prop where
  args : ∃ id rest, c.args = .result id (some fd) 0 :: rest ∧ argsRefs rest = []
  notClose : Go.contains c.name "close" = false

theorem Numbers.append {g g' g'' : StashGroup} {first second : List Call} (one : Numbers g g' first) (two : Numbers g' g'' second) :
    Numbers g g'' (first ++ second) := by
  obtain ⟨k, results, next⟩ := one.count
  obtain ⟨k', results', next'⟩ := two.count
  refine ⟨⟨k + k', ?_, by rw [next', next, Nat.add_assoc]⟩, two.progs.trans one.progs⟩
  rw [List.flatMap_append, results, results', next, List.range'_append_1]

inductive Block (fresh : ResultId) (path : String) (existing : Option ResultId) : List Call → Prop
  | plain {calls : List Call} (refs : ∀ c ∈ calls, argsRefs c.args = []) : Block fresh path existing calls
  | reuse {fd : ResultId} (known : existing = some fd) {c : Call} (use : IsUse fd c) : Block fresh path existing [c]
  | fresh (addr flags : UInt64) {c : Call} (use : IsUse fresh c) (id : ResultId) :
    Block fresh path existing [openCall addr path flags 0o666 fresh, c, closeCall (.result id (some fresh) 0)]

theorem pathArg_results (addr : UInt64) (path : String) : argResults (pathArg addr path) = [] := rfl

theorem pathArg_refs (addr : UInt64) (path : String) : argRefs (pathArg addr path) = [] := rfl

theorem plain_block {g : StashGroup} {path : String} {existing : Option ResultId} {c : Call} (results : callResults c = [])
    (refs : argsRefs c.args = []) : Block g.next path existing [c] ∧ Numbers g g [c] := by
  refine ⟨.plain (by simpa using refs), ⟨0, ?_, rfl⟩, rfl⟩
  rw [List.flatMap_singleton, results]
  rfl

theorem generateOpenCallSeq_block (ch : CallChoice) (path : String) (flags : UInt64) (g : StashGroup) (existing : Option ResultId) :
    Block g.next path existing [(generateOpenCallSeq ch path flags g).1] ∧
      Numbers g (generateOpenCallSeq ch path flags g).2 [(generateOpenCallSeq ch path flags g).1] :=
  ⟨.plain (by simp [generateOpenCallSeq, openCall, argsRefs, argRefs, pathArg_refs]), ⟨1, rfl, rfl⟩, rfl⟩

theorem generateCreatCallWithPath_block (ch : CallChoice) (path : String) (g : StashGroup) (existing : Option ResultId) :
    Block g.next path existing [(generateCreatCallWithPath ch path g).1] ∧
      Numbers g (generateCreatCallWithPath ch path g).2 [(generateCreatCallWithPath ch path g).1] :=
  ⟨.plain (by simp [generateCreatCallWithPath, pathCall, argsRefs, argRefs, pathArg_refs]), ⟨1, rfl, rfl⟩, rfl⟩

theorem generateStatCallWithPath_block (ch : CallChoice) (path : String) (g : StashGroup) (existing : Option ResultId) :
    Block g.next path existing [(generateStatCallWithPath ch path g).1] ∧
      Numbers g (generateStatCallWithPath ch path g).2 [(generateStatCallWithPath ch path g).1] := by
  refine ⟨.plain ?_, ⟨ch.buffer.size, ?_, rfl⟩, rfl⟩
  · simp [generateStatCallWithPath, pathCall, argsRefs, pathArg_refs, ch.buffer.refs]
  · simp [generateStatCallWithPath, pathCall, callResults, argsResults, pathArg_results, ch.buffer.results]

/-! ### Calls on a descriptor -/

/-- What every builder of a call on a descriptor does. -/
def MakesUse (use : ResultId → StashGroup → Call × StashGroup) : Prop :=
  ∀ fd g, IsUse fd (use fd g).1 ∧ Numbers g (use fd g).2 [(use fd g).1]

theorem fdCall_use {name : String} (notClose : Go.contains name "close" = false) {rest : List Arg} (results : argsResults rest = [])
    (refs : argsRefs rest = []) : MakesUse (fdCall name rest) := by
  intro fd g
  refine ⟨⟨⟨_, _, rfl, refs⟩, notClose⟩, ⟨1, ?_, rfl⟩, rfl⟩
  simp [fdCall, makeResultArg, callResults, argsResults, argResults, results]

theorem generateCloseCall_numbers (fd : ResultId) (g : StashGroup) :
    Numbers g (generateCloseCall fd g).2 [(generateCloseCall fd g).1] := ⟨⟨1, rfl, rfl⟩, rfl⟩

theorem generateGetdents64CallWithFd_use (ch : CallChoice) : MakesUse (generateGetdents64CallWithFd ch) := by
  have named : Go.contains "getdents64" "close" = false := by decide +kernel
  intro fd g
  refine ⟨⟨⟨_, _, rfl, ?_⟩, named⟩, ⟨1 + ch.buffer.size, ?_, ?_⟩, rfl⟩
  · simp [argsRefs, argRefs, ch.buffer.refs]
  · simp [generateGetdents64CallWithFd, fdCall, makeResultArg, callResults, argsResults, argResults, ch.buffer.results,
      Nat.add_comm 1, List.range'_succ]
  · simp [generateGetdents64CallWithFd, fdCall, makeResultArg, Nat.add_assoc]

theorem onFd_block {ch : CallChoice} {path : String} {flags : UInt64} {existing : Option ResultId} {useExistFd : Bool}
    {use : Option (ResultId → StashGroup → Call × StashGroup)} (uses : ∀ make, use = some make → MakesUse make)
    {g g' : StashGroup} {calls : List Call} (made : onFd ch path flags existing useExistFd use g = some (calls, g')) :
    Block g.next path existing calls ∧ Numbers g g' calls := by
  unfold onFd at made
  split at made
  · cases existing with
    | none =>
      cases made
      exact ⟨.plain (by simp), ⟨0, rfl, rfl⟩, rfl⟩
    | some fd =>
      obtain ⟨make, here, same⟩ := Option.map_eq_some_iff.mp made
      obtain ⟨isUse, numbers⟩ := uses make here fd g
      cases same
      exact ⟨.reuse rfl isUse, numbers⟩
  · obtain ⟨make, here, same⟩ := Option.map_eq_some_iff.mp made
    obtain ⟨isUse, used⟩ := uses make here g.next (generateOpenCallSeq ch path flags g).2
    have opened := (generateOpenCallSeq_block ch path flags g none).2
    have closed := (generateCloseCall_numbers g.next (make g.next (generateOpenCallSeq ch path flags g).2).2)
    cases same
    exact ⟨.fresh _ _ isUse _, (opened.append used).append closed⟩

theorem generateCallByName_block {ch : CallChoice} {callName path path2 : String} {existing : Option ResultId} {useExistFd : Bool}
    {fileSize flags : UInt64} {g g' : StashGroup} {calls : List Call} (notClose : callName ≠ "close")
    (made : generateCallByName ch callName path path2 existing useExistFd fileSize flags g = some (calls, g')) :
    Block g.next path existing calls ∧ Numbers g g' calls := by
  have names : Go.contains "read" "close" = false ∧ Go.contains "write" "close" = false ∧ Go.contains "pread64" "close" = false ∧
      Go.contains "pwrite64" "close" = false ∧ Go.contains "fsync" "close" = false := by decide +kernel
  obtain ⟨read, write, pread, pwrite, fsync⟩ := names
  unfold generateCallByName at made
  rcases ite_eq_iff.mp made with ⟨-, made⟩ | ⟨-, made⟩
  · cases made
    exact generateOpenCallSeq_block ch path flags g existing
  rw [if_neg notClose] at made
  rcases ite_eq_iff.mp made with ⟨-, made⟩ | ⟨-, made⟩
  · obtain ⟨size, -, made⟩ := Option.bind_eq_some_iff.mp made
    exact onFd_block (fun make same => Option.some.inj same ▸ fdCall_use read rfl rfl) made
  rcases ite_eq_iff.mp made with ⟨-, made⟩ | ⟨-, made⟩
  · obtain ⟨size, -, made⟩ := Option.bind_eq_some_iff.mp made
    exact onFd_block (fun make same => Option.some.inj same ▸ fdCall_use write rfl rfl) made
  rcases ite_eq_iff.mp made with ⟨-, made⟩ | ⟨-, made⟩
  · refine onFd_block (fun make same => ?_) made
    obtain ⟨info, -, rfl⟩ := Option.map_eq_some_iff.mp same
    exact fdCall_use pread rfl rfl
  rcases ite_eq_iff.mp made with ⟨-, made⟩ | ⟨-, made⟩
  · refine onFd_block (fun make same => ?_) made
    obtain ⟨info, -, rfl⟩ := Option.map_eq_some_iff.mp same
    exact fdCall_use pwrite rfl rfl
  rcases ite_eq_iff.mp made with ⟨-, made⟩ | ⟨-, made⟩
  · obtain ⟨call, truncates, same⟩ := Option.map_eq_some_iff.mp made
    obtain ⟨len, -, rfl⟩ := Option.map_eq_some_iff.mp truncates
    cases same
    exact plain_block rfl rfl
  rcases ite_eq_iff.mp made with ⟨-, made⟩ | ⟨-, made⟩
  · cases made
    exact plain_block rfl rfl
  rcases ite_eq_iff.mp made with ⟨-, made⟩ | ⟨-, made⟩
  · cases made
    exact plain_block rfl rfl
  rcases ite_eq_iff.mp made with ⟨-, made⟩ | ⟨-, made⟩
  · cases made
    exact plain_block rfl rfl
  rcases ite_eq_iff.mp made with ⟨-, made⟩ | ⟨-, made⟩
  · cases made
    exact generateCreatCallWithPath_block ch path g existing
  rcases ite_eq_iff.mp made with ⟨-, made⟩ | ⟨-, made⟩
  · cases made
    exact plain_block rfl rfl
  rcases ite_eq_iff.mp made with ⟨-, made⟩ | ⟨-, made⟩
  · cases made
    exact plain_block rfl rfl
  rcases ite_eq_iff.mp made with ⟨-, made⟩ | ⟨-, made⟩
  · cases made
    exact generateStatCallWithPath_block ch path g existing
  rcases ite_eq_iff.mp made with ⟨-, made⟩ | ⟨-, made⟩
  · exact onFd_block (fun make same => Option.some.inj same ▸ fdCall_use fsync rfl rfl) made
  rcases ite_eq_iff.mp made with ⟨-, made⟩ | ⟨-, made⟩
  · exact onFd_block (fun make same => Option.some.inj same ▸ generateGetdents64CallWithFd_use ch) made
  · cases made
    exact ⟨.plain (by simp), ⟨0, rfl, rfl⟩, rfl⟩

end DfsFuzz.Generate
