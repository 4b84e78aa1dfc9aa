import DfsFuzz.Output.Metadata
import DfsFuzz.Output.Recovery

/-!
Where the executor writes: the output region starts behind the control block, the execute reply and the saved
position, but the bounds are those of a region of full size from there on; and the position is saved in words.
-/

namespace DfsFuzz.Output

open Bytes

inductive Write where
  | output (v : UInt32)
  | output64 (v : UInt64)
  | occupy
  | stat (f : FileRecord)

namespace Write

def run (r : Region) : Write → Option Region
  | output v => r.writeOutput v
  | output64 v => r.writeOutput64 v
  | occupy => r.occupyNbytes INFOLIMIT
  | stat f => (f.writeStat (r, 0)).map Prod.fst

/-- The bytes that a call stores; `occupy_nbytes` stores none. -/
def bytes : Write → List UInt8
  | output v => le32 v
  | output64 v => le64 v
  | occupy => []
  | stat f => f.bytes

def size : Write → Nat
  | occupy => INFOLIMIT
  | w => w.bytes.length

/-- The call changes the byte, whatever the region holds, unless the same byte stands there. -/
def Stores (w : Write) (r : Region) (i : Nat) : Prop :=
  ∃ m r', w.run { r with data := m } = some r' ∧ r'.data i ≠ m i

end Write

def runWrites : List Write → Region → Option Region
  | [], r => some r
  | w :: ws, r => (w.run r).bind (runWrites ws)

/-- Every byte that is stored is in the mapping, and the saved word index is the position behind it. -/
structure Sound (w : Write) (r r' : Region) : Prop where
  inside : ∀ i, w.Stores r i → 16 + 12 + 8 + i < kMaxOutput
  saved : w ≠ .occupy → 4 * r'.posValue = r'.pos

def AllSound : List Write → Region → Prop
  | [], _ => True
  | w :: ws, r => ∀ r', w.run r = some r' → Sound w r r' ∧ AllSound ws r'

/-! ### What a call stores -/

structure Stored (bs : List UInt8) (r r' : Region) : Prop where
  data : r'.data = r.data.store r.pos bs
  pos : r'.pos = r.pos + bs.length

namespace Stored

variable {r r' r'' : Region} {bs bs' : List UInt8}

theorem trans (first : Stored bs r r') (second : Stored bs' r' r'') : Stored (bs ++ bs') r r'' where
  data := by rw [second.data, first.data, first.pos, Image.store_store]
  pos := by rw [second.pos, first.pos, List.length_append, Nat.add_assoc]

theorem put (r : Region) (bs : List UInt8) : Stored bs r (r.put bs) := ⟨rfl, rfl⟩

theorem writeOutput {v : UInt32} (wrote : r.writeOutput v = some r') : Stored (le32 v) r r' := by
  unfold Region.writeOutput at wrote
  obtain ⟨_, same⟩ := Option.ite_none_left_eq_some.mp wrote
  cases same
  exact ⟨rfl, rfl⟩

theorem writeOutput64 {v : UInt64} (wrote : r.writeOutput64 v = some r') : Stored (le64 v) r r' := by
  unfold Region.writeOutput64 at wrote
  obtain ⟨_, same⟩ := Option.ite_none_left_eq_some.mp wrote
  cases same
  exact ⟨rfl, rfl⟩

theorem writeStat {f : FileRecord} {n n' : UInt32} (named : f.named = true) (wrote : f.writeStat (r, n) = some (r', n')) :
    Stored f.bytes r r' ∧ r'.posValue = r'.pos / 4 := by
  simp only [FileRecord.writeStat, named, Bool.not_true, Bool.false_eq_true, if_false] at wrote
  obtain ⟨_, wrote⟩ := Option.ite_none_left_eq_some.mp wrote
  obtain ⟨_, wrote⟩ := Option.ite_none_left_eq_some.mp wrote
  simp only [Option.bind_eq_bind, Option.bind_eq_some_iff] at wrote
  obtain ⟨r1, path, r2, xattr, r3, link, last⟩ := wrote
  obtain ⟨rfl, rfl⟩ := Prod.mk.inj (Option.some.inj last)
  have copied := ((((put r3 f.filepath).trans (put _ f.xattr)).trans (put _ (le32 f.crc))).trans
    (put _ f.symlinkPath)).trans (put _ f.stat)
  have whole := (writeOutput path).trans ((writeOutput xattr).trans ((writeOutput link).trans copied))
  simp only [List.append_assoc] at whole
  exact ⟨⟨whole.data, whole.pos⟩, rfl⟩

end Stored

namespace Write

variable {w : Write} {r r' : Region}

theorem size_eq (stores : w ≠ .occupy) : w.size = w.bytes.length := by
  cases w with
  | occupy => exact absurd rfl stores
  | _ => rfl

def Named : Write → Prop
  | stat f => f.named = true
  | _ => True

theorem run_pos (named : w.Named) (ran : w.run r = some r') : r'.pos = r.pos + w.size := by
  cases w with
  | output v => exact (Stored.writeOutput ran).pos
  | output64 v => exact (Stored.writeOutput64 ran).pos
  | occupy =>
    simp only [run, Region.occupyNbytes] at ran
    obtain ⟨_, same⟩ := Option.ite_none_left_eq_some.mp ran
    cases same
    rfl
  | stat f =>
    obtain ⟨⟨region, n⟩, wrote, rfl⟩ := Option.map_eq_some_iff.mp ran
    exact (Stored.writeStat named wrote).1.pos

theorem run_stored (stores : w ≠ .occupy) (named : w.Named) (ran : w.run r = some r') :
    Stored w.bytes r r' ∧ r'.posValue = r'.pos / 4 := by
  cases w with
  | output v => exact ⟨Stored.writeOutput ran, (Region.writeOutput_appends ran).posValue⟩
  | output64 v => exact ⟨Stored.writeOutput64 ran, (Region.writeOutput64_appends ran).posValue⟩
  | occupy => exact absurd rfl stores
  | stat f =>
    obtain ⟨⟨region, n⟩, wrote, rfl⟩ := Option.map_eq_some_iff.mp ran
    exact Stored.writeStat named wrote

theorem run_data (m : Image) (ran : w.run r = some r') : ∃ r'', w.run { r with data := m } = some r'' := by
  have words {r1 r2 : Region} {v : UInt32} (r1' : Region) (wrote : r1.writeOutput v = some r2) (same : r1.pos = r1'.pos) :
      ∃ r2', r1'.writeOutput v = some r2' ∧ r2.pos = r2'.pos := by
    unfold Region.writeOutput at wrote ⊢
    obtain ⟨room, last⟩ := Option.ite_none_left_eq_some.mp wrote
    cases last
    rw [same] at room
    exact ⟨_, if_neg room, congrArg (· + 4) same⟩
  cases w with
  | output v => exact (words { r with data := m } ran rfl).imp fun _ found => found.1
  | output64 v =>
    simp only [run, Region.writeOutput64] at ran ⊢
    exact ⟨_, if_neg (Option.ite_none_left_eq_some.mp ran).1⟩
  | occupy =>
    simp only [run, Region.occupyNbytes] at ran ⊢
    exact ⟨_, if_neg (Option.ite_none_left_eq_some.mp ran).1⟩
  | stat f =>
    obtain ⟨⟨region, n⟩, wrote, rfl⟩ := Option.map_eq_some_iff.mp ran
    simp only [FileRecord.writeStat] at wrote
    obtain ⟨room, wrote⟩ := Option.ite_none_left_eq_some.mp wrote
    obtain ⟨readable, wrote⟩ := Option.ite_none_left_eq_some.mp wrote
    simp only [run, FileRecord.writeStat, if_neg room, if_neg readable]
    split at wrote
    · rename_i cut
      exact ⟨_, by rw [if_pos cut]; rfl⟩
    · rename_i whole
      simp only [Option.bind_eq_bind, Option.bind_eq_some_iff] at wrote
      obtain ⟨r1, path, r2, xattr, r3, link, -⟩ := wrote
      obtain ⟨r1', path', same1⟩ := words { r with data := m } path rfl
      obtain ⟨r2', xattr', same2⟩ := words r1' xattr same1
      obtain ⟨r3', link', -⟩ := words r2' link same2
      simp only [if_neg whole, Option.bind_eq_bind, path', Option.bind_some, xattr', link']
      exact ⟨_, rfl⟩

theorem stores_iff (named : w.Named) (ran : w.run r = some r') (i : Nat) :
    w.Stores r i ↔ w ≠ .occupy ∧ r.pos ≤ i ∧ i < r.pos + w.size := by
  by_cases stores : w = .occupy
  · subst stores
    refine ⟨fun ⟨m, r'', again, changed⟩ => ?_, fun inside => absurd rfl inside.1⟩
    simp only [run, Region.occupyNbytes] at again
    obtain ⟨_, same⟩ := Option.ite_none_left_eq_some.mp again
    cases same
    exact absurd rfl changed
  · rw [size_eq stores, ← Image.store_changes_iff r.pos w.bytes i]
    constructor
    · rintro ⟨m, r'', again, changed⟩
      rw [(run_stored stores named again).1.data] at changed
      exact ⟨stores, m, changed⟩
    · rintro ⟨-, m, changed⟩
      obtain ⟨r'', again⟩ := run_data m ran
      refine ⟨m, r'', again, ?_⟩
      rw [(run_stored stores named again).1.data]
      exact changed

theorem size_pos (stores : w ≠ .occupy) : 0 < w.size := by
  cases w with
  | occupy => exact absurd rfl stores
  | output v =>
    rw [size, bytes, length_le32]
    · exact Nat.succ_pos 3
    · exact nofun
  | output64 v =>
    rw [size, bytes, length_le64]
    · exact Nat.succ_pos 7
    · exact nofun
  | stat f =>
    simp only [size, bytes, FileRecord.bytes, List.length_append, length_le32]
    omega

/-- The lengths of a record that are not fixed. -/
def text : Write → Nat
  | stat f => f.filepath.length + f.xattr.length + f.symlinkPath.length
  | _ => 0

theorem dvd_size_iff : 4 ∣ w.size ↔ 4 ∣ w.text := by
  cases w with
  | occupy => decide
  | output v =>
    have length : (output v).size = 4 := length_le32 v
    rw [length, text]
    · decide
    · exact nofun
  | output64 v =>
    have length : (output64 v).size = 8 := length_le64 v
    rw [length, text]
    · decide
    · exact nofun
  | stat f =>
    have length : (stat f).size = 4 * 40 + (stat f).text := by
      simp only [size, bytes, FileRecord.bytes, List.length_append, length_le32, f.statFull, statSize, text]
      omega
    rw [length]
    exact Nat.dvd_add_right (Nat.dvd_mul_right 4 40)

/-- A call at a position between words is sound exactly when it ends in the mapping and moves by whole words. -/
theorem sound_iff (aligned : 4 ∣ r.pos) (named : w.Named) (ran : w.run r = some r') :
    Sound w r r' ↔ (w ≠ .occupy → r.pos + w.size ≤ outSize) ∧ 4 ∣ w.text := by
  have place : 16 + 12 + 8 + outSize = kMaxOutput := rfl
  have moved := run_pos named ran
  constructor
  · intro sound
    refine ⟨fun stores => ?_, ?_⟩
    · have positive := size_pos stores
      have last := sound.inside (r.pos + w.size - 1) ((stores_iff named ran _).mpr ⟨stores, by omega, by omega⟩)
      omega
    · by_cases stores : w = .occupy
      · subst stores
        exact Nat.dvd_zero 4
      · rw [← dvd_size_iff]
        have saved := sound.saved stores
        rw [moved] at saved
        exact (Nat.dvd_add_right aligned).mp ⟨_, saved.symm⟩
  · rintro ⟨room, whole⟩
    refine ⟨fun i stored => ?_, fun stores => ?_⟩
    · obtain ⟨stores, _, below⟩ := (stores_iff named ran i).mp stored
      have ends := room stores
      omega
    · rw [(run_stored stores named ran).2, moved]
      exact Nat.mul_div_cancel' ((Nat.dvd_add_right aligned).mpr (dvd_size_iff.mpr whole))

end Write

/-- A run that does not fail stays in the mapping and knows where it is exactly when every record has a text of whole
words and no call that stores something ends behind the mapping. -/
theorem allSound_iff (ws : List Write) {r r' : Region} (aligned : 4 ∣ r.pos) (named : ∀ w ∈ ws, w.Named)
    (ran : runWrites ws r = some r') :
    AllSound ws r ↔
      (∀ f, .stat f ∈ ws → 4 ∣ f.filepath.length + f.xattr.length + f.symlinkPath.length) ∧
        ∀ before w behind, ws = before ++ w :: behind → w ≠ .occupy →
          r.pos + (before.map Write.size).sum + w.size ≤ outSize := by
  have texts : (∀ f, .stat f ∈ ws → 4 ∣ f.filepath.length + f.xattr.length + f.symlinkPath.length) ↔
      ∀ w ∈ ws, 4 ∣ w.text := by
    refine ⟨fun all w member => ?_, fun all f member => all (.stat f) member⟩
    cases w with
    | stat f => exact all f member
    | _ => exact Nat.dvd_zero 4
  rw [texts]
  clear texts
  induction ws generalizing r with
  | nil => exact ⟨fun _ => ⟨nofun, fun before w behind split => by simp at split⟩, fun _ => trivial⟩
  | cons w ws ih =>
    obtain ⟨r1, first, rest⟩ := Option.bind_eq_some_iff.mp ran
    have fits := named w List.mem_cons_self
    have step := Write.sound_iff aligned fits first
    have moved := Write.run_pos fits first
    have unfolded : AllSound (w :: ws) r ↔ Sound w r r1 ∧ AllSound ws r1 := by
      refine ⟨fun all => all r1 first, fun both r2 again => ?_⟩
      cases first.symm.trans again
      exact both
    -- the ends of all calls are those of the first and, from behind it on, those of the others
    have ends : (∀ before w' behind, w :: ws = before ++ w' :: behind → w' ≠ .occupy →
          r.pos + (before.map Write.size).sum + w'.size ≤ outSize) ↔
        (w ≠ .occupy → r.pos + w.size ≤ outSize) ∧ ∀ before w' behind, ws = before ++ w' :: behind → w' ≠ .occupy →
          r1.pos + (before.map Write.size).sum + w'.size ≤ outSize := by
      constructor
      · intro all
        refine ⟨fun stores => by simpa using all [] w ws rfl stores, fun before w' behind split stores => ?_⟩
        have here := all (w :: before) w' behind (by rw [split, List.cons_append]) stores
        rw [List.map_cons, List.sum_cons] at here
        omega
      · rintro ⟨one, others⟩ before w' behind split stores
        cases before with
        | nil =>
          cases split
          simpa using one stores
        | cons b before =>
          cases split
          have here := others before w' behind rfl stores
          rw [List.map_cons, List.sum_cons]
          omega
    rw [unfolded, step, ends, List.forall_mem_cons]
    constructor
    · rintro ⟨⟨room, whole⟩, others⟩
      have next : 4 ∣ r1.pos := moved ▸ (Nat.dvd_add_right aligned).mpr (Write.dvd_size_iff.mpr whole)
      obtain ⟨texts, rooms⟩ := (ih next (fun w member => named w (List.mem_cons_of_mem _ member)) rest).mp others
      exact ⟨⟨whole, texts⟩, room, rooms⟩
    · rintro ⟨⟨whole, texts⟩, room, rooms⟩
      have next : 4 ∣ r1.pos := moved ▸ (Nat.dvd_add_right aligned).mpr (Write.dvd_size_iff.mpr whole)
      exact ⟨⟨room, whole⟩, (ih next (fun w member => named w (List.mem_cons_of_mem _ member)) rest).mpr ⟨texts, rooms⟩⟩

theorem room_of_total {ws : List Write} {pos : Nat} (room : pos + (ws.map Write.size).sum ≤ outSize) (before : List Write)
    (w : Write) (behind : List Write) (split : ws = before ++ w :: behind) :
    pos + (before.map Write.size).sum + w.size ≤ outSize := by
  rw [split, List.map_append, List.map_cons, List.sum_append, List.sum_cons] at room
  omega

/-- A file without attributes, whose stat has zero in every byte. -/
def statOf (name : List UInt8) : FileRecord := ⟨name, [], some 0, none, List.replicate statSize 0, List.length_replicate⟩

def oneFile (name : List UInt8) : List Write := [.output 0, .stat (statOf name)]

theorem allSound_twoLetters : AllSound (oneFile [97, 98]) ⟨fun _ => 0, 0, 0, 0⟩ := by
  have runs : (runWrites (oneFile [97, 98]) ⟨fun _ => 0, 0, 0, 0⟩).isSome = true := by decide +kernel
  obtain ⟨r', ran⟩ := Option.isSome_iff_exists.mp runs
  refine (allSound_iff _ (by decide) ?_ ran).mpr
    ⟨?_, fun before w behind split _ => room_of_total (by decide +kernel) before w behind split⟩
  · intro w member
    simp only [oneFile, List.mem_cons, List.not_mem_nil, or_false] at member
    rcases member with rfl | rfl
    · trivial
    · rfl
  · intro f member
    simp only [oneFile, List.mem_cons, List.not_mem_nil, or_false, reduceCtorEq, false_or, Write.stat.injEq] at member
    subst member
    decide

/-- The word index behind the record of a file `a` denotes a position in the record. -/
theorem oneLetter_unsound :
    (∃ r', runWrites (oneFile [97]) ⟨fun _ => 0, 0, 0, 0⟩ = some r') ∧ ¬ AllSound (oneFile [97]) ⟨fun _ => 0, 0, 0, 0⟩ := by
  have wrong : ((runWrites (oneFile [97]) ⟨fun _ => 0, 0, 0, 0⟩).elim false
      fun r' => decide (4 * r'.posValue ≠ r'.pos)) = true := by decide +kernel
  cases ran : runWrites (oneFile [97]) ⟨fun _ => 0, 0, 0, 0⟩ with
  | none =>
    rw [ran] at wrong
    cases wrong
  | some r' =>
    refine ⟨⟨r', rfl⟩, fun sound => ?_⟩
    rw [ran] at wrong
    obtain ⟨r1, first, rest⟩ := Option.bind_eq_some_iff.mp ran
    obtain ⟨r2, second, last⟩ := Option.bind_eq_some_iff.mp rest
    cases last
    exact of_decide_eq_true wrong (((sound r1 first).2 r' second).1.saved nofun)

end DfsFuzz.Output
