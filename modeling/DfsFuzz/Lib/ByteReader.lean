import DfsFuzz.Lib.ByteImage

/-!
Readers of a byte slice. A reader takes bytes from the front of what is left, or fails; what it
reads back from an encoding is stated once for each reader and composed with `Reads.bind`.
-/

abbrev ByteReader (ε α : Type) := StateT (List UInt8) (Except ε) α

namespace ByteReader

variable {ε α β : Type}

/-- The next `count` bytes, or `err` when fewer are left. -/
def bytes (err : ε) (count : Nat) : ByteReader ε (List UInt8) := fun out =>
  if out.length < count then .error err else .ok (out.take count, out.drop count)

def uint32 (err : ε) : ByteReader ε UInt32 := do
  let taken ← bytes err 4
  return UInt32.ofNat (Bytes.ofLe taken)

def uint64 (err : ε) : ByteReader ε UInt64 := do
  let taken ← bytes err 8
  return UInt64.ofNat (Bytes.ofLe taken)

/-- A read that only reports whether it went through: what cannot be read is left in place. -/
def attempt {δ : Type} (r : ByteReader δ α) : ByteReader ε (Option α) := fun out =>
  .ok (match r.run out with
    | .ok (a, left) => (some a, left)
    | .error _ => (none, out))

def toWords : Nat → List UInt8 → List UInt32
  | 0, _ => []
  | count + 1, bs => UInt32.ofNat (Bytes.ofLe (bs.take 4)) :: toWords count (bs.drop 4)

def uint32Array (err : ε) (count : Nat) : ByteReader ε (List UInt32) := do
  let taken ← bytes err (4 * count)
  return toWords count taken

/-- The reader takes `bs` from the front of any slice and yields `a`. -/
def Reads (r : ByteReader ε α) (bs : List UInt8) (a : α) : Prop := ∀ rest, r.run (bs ++ rest) = .ok (a, rest)

theorem Reads.pure (a : α) : Reads (Pure.pure a : ByteReader ε α) [] a := fun _ => rfl

theorem Reads.bind {r : ByteReader ε α} {f : α → ByteReader ε β} {bs bs' : List UInt8} {a : α} {b : β}
    (first : Reads r bs a) (second : Reads (f a) bs' b) : Reads (r >>= f) (bs ++ bs') b := by
  intro rest
  have next : (f a).run (bs' ++ rest) = .ok (b, rest) := second rest
  rw [StateT.run_bind, List.append_assoc, first (bs' ++ rest)]
  exact next

theorem Reads.followed {r : ByteReader ε α} {f : α → ByteReader ε β} {bs : List UInt8} {a : α} {b : β}
    (first : Reads r bs a) (second : Reads (f a) [] b) : Reads (r >>= f) bs b := by
  have whole := first.bind second
  rwa [List.append_nil] at whole

theorem Reads.map {r : ByteReader ε α} {bs : List UInt8} {a : α} (first : Reads r bs a) (g : α → β) :
    Reads (do let x ← r; return g x) bs (g a) := first.followed (Reads.pure (g a))

theorem Reads.lift {x : Except ε α} {a : α} (ok : x = .ok a) : Reads (liftM x : ByteReader ε α) [] a := by
  subst ok
  exact Reads.pure a

theorem Reads.attempt {δ : Type} {r : ByteReader δ α} {bs : List UInt8} {a : α} (reads : Reads r bs a) :
    Reads (attempt r : ByteReader ε (Option α)) bs (some a) := by
  intro rest
  have taken := reads rest
  simp only [ByteReader.attempt, StateT.run] at taken ⊢
  rw [taken]

theorem Reads.look {f : List UInt8 → ByteReader ε α} {bs : List UInt8} {a : α}
    (any : ∀ rest, Reads (f (bs ++ rest)) bs a) : Reads (get >>= f) bs a := fun rest => any rest rest

theorem reads_bytes (err : ε) (bs : List UInt8) : Reads (bytes err bs.length) bs bs := by
  intro rest
  have enough : ¬ (bs ++ rest).length < bs.length := by simp
  simp only [bytes, StateT.run, if_neg enough, List.take_left, List.drop_left]

theorem reads_uint32 (err : ε) (v : UInt32) : Reads (uint32 err) (Bytes.le32 v) v := by
  have taken := (reads_bytes err (Bytes.le32 v)).map fun t => UInt32.ofNat (Bytes.ofLe t)
  rwa [Bytes.ofLe_le32, Bytes.length_le32] at taken

theorem reads_uint64 (err : ε) (v : UInt64) : Reads (uint64 err) (Bytes.le64 v) v := by
  have taken := (reads_bytes err (Bytes.le64 v)).map fun t => UInt64.ofNat (Bytes.ofLe t)
  rwa [Bytes.ofLe_le64, Bytes.length_le64] at taken

theorem toWords_words (vs : List UInt32) : toWords vs.length (Bytes.words vs) = vs := by
  induction vs with
  | nil => rfl
  | cons v vs ih =>
    have front : (Bytes.words (v :: vs)).take 4 = Bytes.le32 v := List.take_left' (Bytes.length_le32 v)
    have back : (Bytes.words (v :: vs)).drop 4 = Bytes.words vs := List.drop_left' (Bytes.length_le32 v)
    rw [List.length_cons, toWords, front, back, ih, Bytes.ofLe_le32]

theorem reads_uint32Array (err : ε) (vs : List UInt32) : Reads (uint32Array err vs.length) (Bytes.words vs) vs := by
  have taken := (reads_bytes err (Bytes.words vs)).map fun t => toWords vs.length t
  rwa [toWords_words, Bytes.length_words] at taken

/-- Every error of the reader meets `P`. -/
def Throws (r : ByteReader ε α) (P : ε → Prop) : Prop := ∀ out err, r.run out = .error err → P err

variable {P : ε → Prop} {r : ByteReader ε α} {f : α → ByteReader ε β}

theorem Throws.pure (a : α) : Throws (Pure.pure a : ByteReader ε α) P := nofun

theorem Throws.error {err : ε} (h : P err) : Throws (throw err : ByteReader ε α) P := by
  intro out err' failed
  obtain rfl := Except.error.inj failed
  exact h

theorem Throws.bind (first : Throws r P) (second : ∀ a, Throws (f a) P) : Throws (r >>= f) P := by
  intro out err failed
  rw [StateT.run_bind] at failed
  cases ran : r.run out with
  | error e =>
    rw [ran] at failed
    obtain rfl := Except.error.inj failed
    exact first out e ran
  | ok v =>
    rw [ran] at failed
    exact second v.1 v.2 err failed

theorem Throws.look {g : List UInt8 → ByteReader ε α} (any : ∀ left, Throws (g left) P) : Throws (get >>= g) P :=
  fun out err failed => any out out err failed

theorem Throws.unless {c : Prop} [Decidable c] {err : ε} {g : PUnit → ByteReader ε α} (h : P err)
    (rest : ∀ u, Throws (g u) P) : Throws (if c then (throw err : ByteReader ε PUnit) >>= g else g ⟨⟩) P := by
  split
  next => exact (Throws.error h).bind rest
  next => exact rest ⟨⟩

theorem Throws.bytes {err : ε} (h : P err) (count : Nat) : Throws (bytes err count) P := by
  intro out err' failed
  simp only [ByteReader.bytes, StateT.run] at failed
  split at failed
  · obtain rfl := Except.error.inj failed
    exact h
  · nomatch failed

theorem Throws.uint32 {err : ε} (h : P err) : Throws (uint32 err) P := (Throws.bytes h 4).bind fun _ => Throws.pure _

theorem Throws.uint64 {err : ε} (h : P err) : Throws (uint64 err) P := (Throws.bytes h 8).bind fun _ => Throws.pure _

theorem Throws.uint32Array {err : ε} (h : P err) (count : Nat) : Throws (uint32Array err count) P :=
  (Throws.bytes h (4 * count)).bind fun _ => Throws.pure _

variable {out : List UInt8}

theorem run_bind_ok {a : α} {left : List UInt8} (first : r.run out = .ok (a, left)) :
    (r >>= f).run out = (f a).run left := by
  rw [StateT.run_bind, first]
  rfl

theorem run_bind_error {err : ε} (first : r.run out = .error err) : (r >>= f).run out = .error err := by
  rw [StateT.run_bind, first]
  rfl

theorem lift_bind (a : α) : (liftM (Except.ok a : Except ε α) : ByteReader ε α) >>= f = f a := rfl

theorem run_lift (x : Except ε α) : (liftM x : ByteReader ε α).run out = x.map (·, out) := by
  cases x <;> rfl

theorem run_uint32 (err : ε) (h : 4 ≤ out.length) :
    (uint32 err).run out = .ok (UInt32.ofNat (Bytes.ofLe (out.take 4)), out.drop 4) := by
  have enough : ¬ out.length < 4 := by omega
  simp only [uint32, bytes, StateT.run, bind, StateT.bind, if_neg enough]
  rfl

theorem run_uint32_short (err : ε) (h : out.length < 4) : (uint32 err).run out = .error err := by
  simp only [uint32, bytes, StateT.run, bind, StateT.bind, if_pos h]
  rfl

theorem run_uint64 (err : ε) (h : 8 ≤ out.length) :
    (uint64 err).run out = .ok (UInt64.ofNat (Bytes.ofLe (out.take 8)), out.drop 8) := by
  have enough : ¬ out.length < 8 := by omega
  simp only [uint64, bytes, StateT.run, bind, StateT.bind, if_neg enough]
  rfl

theorem run_uint64_short (err : ε) (h : out.length < 8) : (uint64 err).run out = .error err := by
  simp only [uint64, bytes, StateT.run, bind, StateT.bind, if_pos h]
  rfl

theorem run_attempt_ok {δ : Type} {r : ByteReader δ α} {a : α} {left : List UInt8} (h : r.run out = .ok (a, left)) :
    (attempt r : ByteReader ε (Option α)).run out = .ok (some a, left) := by
  simp only [attempt, StateT.run] at h ⊢
  rw [h]

theorem run_attempt_error {δ : Type} {r : ByteReader δ α} {err : δ} (h : r.run out = .error err) :
    (attempt r : ByteReader ε (Option α)).run out = .ok (none, out) := by
  simp only [attempt, StateT.run] at h ⊢
  rw [h]

/-- The reader takes exactly `bs`, and fails where the text ends before `bs` does. -/
structure Frames (r : ByteReader ε α) (bs : List UInt8) (a : α) : Prop where
  reads : Reads r bs a
  torn : ∀ part, part <+: bs → part ≠ bs → ∃ err, r.run part = .error err

theorem Frames.pure (a : α) : Frames (Pure.pure a : ByteReader ε α) [] a where
  reads := Reads.pure a
  torn _ before strict := absurd (List.prefix_nil.mp before) strict

theorem Frames.bind {bs bs' : List UInt8} {a : α} {b : β} (first : Frames r bs a) (second : Frames (f a) bs' b) :
    Frames (r >>= f) (bs ++ bs') b where
  reads := first.reads.bind second.reads
  torn part before strict := by
    by_cases short : part <+: bs ∧ part ≠ bs
    · obtain ⟨err, failed⟩ := first.torn part short.1 short.2
      exact ⟨err, run_bind_error failed⟩
    · obtain ⟨rest, rfl⟩ : bs <+: part := by
        rcases List.prefix_or_prefix_of_prefix before (List.prefix_append bs bs') with inside | past
        · exact (Decidable.not_not.mp fun other => short ⟨inside, other⟩) ▸ List.prefix_rfl
        · exact past
      obtain ⟨err, failed⟩ := second.torn rest ((List.prefix_append_right_inj bs).mp before) (by rintro rfl; exact strict rfl)
      exact ⟨err, (run_bind_ok (first.reads rest)).trans failed⟩

theorem Frames.followed {bs : List UInt8} {a : α} {b : β} (first : Frames r bs a) (second : Frames (f a) [] b) :
    Frames (r >>= f) bs b := by
  have whole := first.bind second
  rwa [List.append_nil] at whole

theorem Frames.map {bs : List UInt8} {a : α} (first : Frames r bs a) (g : α → β) :
    Frames (do let x ← r; return g x) bs (g a) := first.followed (Frames.pure (g a))

theorem frames_bytes (err : ε) (bs : List UInt8) : Frames (bytes err bs.length) bs bs where
  reads := reads_bytes err bs
  torn part before strict := by
    have short : part.length < bs.length := Nat.lt_of_le_of_ne before.length_le fun same => strict (before.eq_of_length same)
    exact ⟨err, if_pos short⟩

theorem frames_uint32 (err : ε) (v : UInt32) : Frames (uint32 err) (Bytes.le32 v) v := by
  have taken := (frames_bytes err (Bytes.le32 v)).map fun t => UInt32.ofNat (Bytes.ofLe t)
  rwa [Bytes.ofLe_le32, Bytes.length_le32] at taken

theorem frames_uint64 (err : ε) (v : UInt64) : Frames (uint64 err) (Bytes.le64 v) v := by
  have taken := (frames_bytes err (Bytes.le64 v)).map fun t => UInt64.ofNat (Bytes.ofLe t)
  rwa [Bytes.ofLe_le64, Bytes.length_le64] at taken

end ByteReader
