import DfsFuzz.Output.CheckInfo
import DfsFuzz.Symsc.Checksum
import DfsFuzz.Symsc.Listing

/-!
The check of a directory listing: the executor copies the names of `getdents64` to the info bytes of a reply, the
fuzzer takes all of these bytes for the listing, and `state_check` compares them with what the emulation stored.
-/

namespace DfsFuzz.Symsc

open Output (INFOLIMIT Region SysCall readInfo storeInfo)

/-- The branch of `state_check` for `getdents` and `getdents64`. -/
def stateCheckDents (retval : Int) (s : State) (argv : List Str) (dents : Str) : Option Bool := do
  if retval ≠ -1 then
    let fd ← argv[0]?
    if s.fdIsInit fd then return true
    let token ← argv[1]?
    let data ← s.bufData.lookup (stripLong token)
    return decide (data = dents)
  else return decide (dents = [])

/-- A string of the fuzzer as the checker gets it, through JSON: a NUL byte stays what it is, and nothing else
becomes one. -/
structure JsonText where
  text : List UInt8 → Str
  nul : ∀ bs, '\x00' ∈ text bs ↔ 0 ∈ bs

/-- The bytes of the info field behind the stores for a call. -/
def infoField (crc32 : List UInt8 → UInt32) (call : SysCall) (res : Int64) (r : Region) (infotypePos infoPos : Nat) :
    List UInt8 :=
  (storeInfo infotypePos infoPos (call.info crc32 res) r).data.slice infoPos INFOLIMIT

/-- The `CheckInfo` that the fuzzer makes of it, on what it has of the call already. -/
def received (crc32 : List UInt8 → UInt32) (call : SysCall) (res : Int64) (r : Region) (infotypePos infoPos : Nat)
    (md : Output.FileMetadata) : Except String Output.FileMetadata :=
  readInfo (((call.info crc32 res).map Prod.fst).getD (-1)) (infoField crc32 call res r infotypePos infoPos) md

/-- A `getdents64` that returned the names of a directory, which are C strings. -/
structure Listed (call : SysCall) (res : Int64) : Prop where
  nr : call.sysNr = 217
  positive : 0 < res.toInt.toNat
  terminated : ∀ name ∈ call.names, 0 ∉ name

/-- The names without `.` and `..` are those that were stored. -/
def SameNames (json : JsonText) (call : SysCall) (stored : List Str) : Prop :=
  ∀ x, x ∈ stored ↔ ∃ name ∈ call.names, name ≠ [46] ∧ name ≠ [46, 46] ∧ json.text name = x

theorem info_listed {call : SysCall} {res : Int64} (listed : Listed call res) (crc32 : List UInt8 → UInt32) :
    call.info crc32 res = some (217, call.dents) := by
  have none : ¬ (217 = 0 ∨ 217 = 17 ∨ 217 = 89) ∧ ¬ (217 = 4 ∨ 217 = 5) ∧ ¬ (217 = 191 ∨ 217 = 192 ∨ 217 = 193) ∧
      ¬ (217 = 194 ∨ 217 = 195 ∨ 217 = 196) := by decide
  rw [SysCall.info, listed.nr, if_neg none.1, if_neg none.2.1, if_neg none.2.2.1, if_neg none.2.2.2, if_pos rfl,
    if_pos listed.positive]

theorem length_listNames (used : List UInt8) (names : List (List UInt8)) (room : used.length + 1 ≤ INFOLIMIT) :
    (SysCall.listNames used names).length + 1 ≤ INFOLIMIT := by
  induction names generalizing used with
  | nil => exact room
  | cons name names ih =>
    rw [SysCall.listNames]
    split
    · exact room
    · rename_i fits
      refine ih _ ?_
      rw [List.length_append, List.length_append, List.length_singleton]
      omega

theorem length_dents (call : SysCall) : call.dents.length ≤ INFOLIMIT := by
  have room := length_listNames [] call.names (by decide)
  rw [SysCall.dents, List.length_append]
  split
  · rename_i more
    rw [List.length_append, List.length_singleton, List.length_singleton]
    omega
  · exact room

theorem nul_mem_infoField {call : SysCall} {res : Int64} (listed : Listed call res) (crc32 : List UInt8 → UInt32) (r : Region)
    (infotypePos infoPos : Nat) : 0 ∈ infoField crc32 call res r infotypePos infoPos := by
  obtain ⟨rest, total⟩ := Nat.exists_eq_add_of_le (length_dents call)
  rw [infoField, info_listed listed, total, Image.slice_add]
  refine List.mem_append_left _ ?_
  have own := Image.slice_store_self (r.patch infotypePos 217).data infoPos call.dents
  change 0 ∈ ((r.patch infotypePos 217).data.store infoPos call.dents).slice infoPos call.dents.length
  rw [own, SysCall.dents]
  exact List.mem_append_right _ List.mem_cons_self

theorem received_dents {call : SysCall} {res : Int64} {md md' : Output.FileMetadata} (listed : Listed call res)
    {crc32 : List UInt8 → UInt32} {r : Region} {infotypePos infoPos : Nat}
    (got : received crc32 call res r infotypePos infoPos md = .ok md') :
    md'.dents = infoField crc32 call res r infotypePos infoPos := by
  rw [received, info_listed listed] at got
  cases got
  rfl

theorem nul_mem_direntText {stored : List Str} (inside : '\x00' ∈ direntText stored) : ∃ x ∈ stored, '\x00' ∈ x := by
  rw [direntText, List.mem_append, List.mem_singleton] at inside
  rcases inside with joined | bad
  · induction stored with
    | nil => cases joined
    | cons x rest ih =>
      cases rest with
      | nil =>
        rw [List.intercalate_singleton] at joined
        exact ⟨x, List.mem_cons_self, joined⟩
      | cons y rest =>
        rw [List.intercalate_cons_cons, List.mem_append, List.mem_append, List.mem_singleton] at joined
        rcases joined with (here | bad) | later
        · exact ⟨x, List.mem_cons_self, here⟩
        · exact absurd bad (by decide)
        · obtain ⟨z, member, nul⟩ := ih later
          exact ⟨z, List.mem_cons_of_mem _ member, nul⟩
  · exact absurd bad (by decide)

theorem stateCheckDents_eq {s : State} {fd token : Str} {rest : List Str} {retval : Int} {data : Str} (success : retval ≠ -1)
    (created : s.fdIsInit fd = false) (found : s.bufData.lookup (stripLong token) = some data) (dents : Str) :
    stateCheckDents retval s (fd :: token :: rest) dents = some (decide (data = dents)) := by
  simp only [stateCheckDents, if_pos success, List.getElem?_cons_zero, List.getElem?_cons_succ, Option.bind_eq_bind,
    Option.bind_some, created, Bool.false_eq_true, if_false, found]
  rfl

theorem stored_ne_received (json : JsonText) {stored : List Str} {call : SysCall} {res : Int64} (listed : Listed call res)
    {crc32 : List UInt8 → UInt32} {r : Region} {infotypePos infoPos : Nat} {md md' : Output.FileMetadata}
    (got : received crc32 call res r infotypePos infoPos md = .ok md') (plain : ∀ x ∈ stored, '\x00' ∉ x) :
    direntText stored ≠ json.text md'.dents := by
  have nul : '\x00' ∈ json.text md'.dents := by
    rw [json.nul, received_dents listed got]
    exact nul_mem_infoField listed crc32 r infotypePos infoPos
  intro same
  rw [← same] at nul
  obtain ⟨x, member, inside⟩ := nul_mem_direntText nul
  exact plain x member inside

/-- The check refuses every listing: it is right about those with other names than the stored ones, and about no
listing with the same names. -/
theorem stateCheckDents_right_iff (json : JsonText) (s : State) (fd token : Str) (rest : List Str) (retval : Int)
    (stored : List Str) (success : retval ≠ -1) (created : s.fdIsInit fd = false)
    (found : s.bufData.lookup (stripLong token) = some (direntText stored)) {call : SysCall} {res : Int64}
    (listed : Listed call res) (crc32 : List UInt8 → UInt32) (r : Region) (infotypePos infoPos : Nat)
    (md md' : Output.FileMetadata) (got : received crc32 call res r infotypePos infoPos md = .ok md') :
    ((stateCheckDents retval s (fd :: token :: rest) (json.text md'.dents) = some true ↔ SameNames json call stored) ↔
      ¬ SameNames json call stored ∧ direntText stored ≠ json.text md'.dents) ∧
    ((∀ x ∈ stored, '\x00' ∉ x) → direntText stored ≠ json.text md'.dents) := by
  have refused : (∀ x ∈ stored, '\x00' ∉ x) → direntText stored ≠ json.text md'.dents :=
    stored_ne_received json listed got
  refine ⟨?_, refused⟩
  rw [stateCheckDents_eq success created found, Option.some.injEq, decide_eq_true_eq]
  -- the names of the kernel are C strings, so that the same names would be without a NUL byte
  have differ : SameNames json call stored → direntText stored ≠ json.text md'.dents := by
    intro same
    refine refused fun x member inside => ?_
    obtain ⟨name, listedName, -, -, rfl⟩ := (same x).mp member
    exact listed.terminated name listedName ((json.nul name).mp inside)
  constructor
  · intro right
    have other : ¬ SameNames json call stored := fun same => differ same (right.mpr same)
    exact ⟨other, fun same => other (right.mp same)⟩
  · rintro ⟨other, texts⟩
    exact iff_of_false texts other

/-- Bytes below 128 are their own characters. -/
def latin : JsonText where
  text bs := bs.map chr
  nul bs := by
    have zero : '\x00' = chr 0 := rfl
    rw [zero, List.mem_map_of_injective chr_injective]

def listedState : State :=
  { initState listingProgram 1 with bufData := (∅ : Go.Map Str Str).insert "v3".toList (direntText []) }

/-- The kernel's listing of a directory with the given names. -/
def kernelListing (names : List (List UInt8)) : SysCall := ⟨217, 0, 0, fun _ => 0, [46] :: [46, 46] :: names⟩

def freshRegion : Region := ⟨fun _ => 0, 0, 0, 0⟩

theorem listed_kernelListing {names : List (List UInt8)} (terminated : ∀ name ∈ names, 0 ∉ name) :
    Listed (kernelListing names) 48 where
  nr := rfl
  positive := by decide
  terminated := by
    intro name member
    rw [kernelListing, List.mem_cons, List.mem_cons] at member
    rcases member with rfl | rfl | later
    · decide
    · decide
    · exact terminated name later

theorem sameNames_kernelListing {names : List (List UInt8)} :
    SameNames latin (kernelListing names) [] ↔ ∀ name ∈ names, name = [46] ∨ name = [46, 46] := by
  simp only [SameNames, kernelListing, List.not_mem_nil, false_iff, List.mem_cons]
  constructor
  · intro none name member
    by_contra other
    rw [not_or] at other
    exact none _ ⟨name, .inr (.inr member), other.1, other.2, rfl⟩
  · rintro dots x ⟨name, rfl | rfl | member, one, two, -⟩
    · exact one rfl
    · exact two rfl
    · exact (dots name member).elim one two

/-- A file that the emulation does not have is noticed. -/
theorem stateCheckDents_right_file :
    ∃ md', received (fun _ => 0) (kernelListing [[102]]) 48 freshRegion 12 16 {} = .ok md' ∧
      (stateCheckDents 1 listedState (tokens ["r1", "v3", "100"]) (latin.text md'.dents) = some true ↔
        SameNames latin (kernelListing [[102]]) []) := by
  have fileListing : ∀ name ∈ [[(102 : UInt8)]], 0 ∉ name := by decide
  refine ⟨_, rfl, ?_⟩
  have verdict := stateCheckDents_right_iff latin listedState "r1".toList "v3".toList (tokens ["100"]) 1 [] (by decide) rfl
    (AList.lookup_insert _) (listed_kernelListing fileListing) (fun _ => 0) freshRegion 12 16 {} _ rfl
  exact verdict.1.mpr ⟨sameNames_kernelListing.not.mpr (by decide), verdict.2 fun _ member => absurd member List.not_mem_nil⟩

/-- An empty directory that is listed empty is refused. -/
theorem stateCheckDents_refuses_empty :
    ∃ md', received (fun _ => 0) (kernelListing []) 48 freshRegion 12 16 {} = .ok md' ∧
      SameNames latin (kernelListing []) [] ∧
      stateCheckDents 1 listedState (tokens ["r1", "v3", "100"]) (latin.text md'.dents) = some false := by
  obtain ⟨md', got⟩ : ∃ md', received (fun _ => 0) (kernelListing []) 48 freshRegion 12 16 {} = .ok md' := ⟨_, rfl⟩
  have listed : Listed (kernelListing []) 48 := listed_kernelListing fun _ member => absurd member List.not_mem_nil
  have differ : direntText [] ≠ latin.text md'.dents :=
    stored_ne_received latin listed got fun _ member => absurd member List.not_mem_nil
  have compared : stateCheckDents 1 listedState (tokens ["r1", "v3", "100"]) (latin.text md'.dents) =
      some (decide (direntText [] = latin.text md'.dents)) :=
    stateCheckDents_eq (by decide) rfl (AList.lookup_insert _) _
  exact ⟨md', got, sameNames_kernelListing.mpr fun _ member => absurd member List.not_mem_nil,
    compared.trans (congrArg some (decide_eq_false differ))⟩

end DfsFuzz.Symsc
