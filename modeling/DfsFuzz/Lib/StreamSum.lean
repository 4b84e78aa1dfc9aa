import Mathlib.Algebra.Group.Nat.Defs
import Mathlib.Data.List.Basic
import Mathlib.Logic.Function.Iterate
import Mathlib.Tactic.Common

/-!
Checksums of byte streams: the sum of a text goes on from the sum of what was before it. Such sums tell any
two texts apart that are not too long for 32 bits, so texts that have the same sum under all of them are the same.
-/

structure StreamSum where
  run : List UInt8 → UInt32 → UInt32
  append : ∀ x y v, run (x ++ y) v = run y (run x v)

namespace StreamSum

def of (sum : StreamSum) (x : List UInt8) : UInt32 := sum.run x 0

def ofStep (step : UInt32 → UInt8 → UInt32) : StreamSum :=
  ⟨fun x v => x.foldl step v, fun _ _ _ => List.foldl_append⟩

/-- The byte at a position is kept; before it the bytes are counted. -/
def probeStep (p : Nat) (v : UInt32) (b : UInt8) : UInt32 :=
  if v.toNat < p then v + 1 else if v.toNat = p then UInt32.ofNat (p + 1 + b.toNat) else v

def probe (p : Nat) : StreamSum := ofStep (probeStep p)

theorem foldl_probeStep_stays {p : Nat} {v : UInt32} (past : p < v.toNat) (x : List UInt8) :
    x.foldl (probeStep p) v = v := by
  induction x with
  | nil => rfl
  | cons b x ih => rw [List.foldl_cons, probeStep, if_neg (by omega), if_neg (by omega), ih]

theorem foldl_probeStep {p : Nat} (small : p + 256 < 2 ^ 32) (x : List UInt8) {v : UInt32} (before : v.toNat ≤ p) :
    (x.foldl (probeStep p) v).toNat = (x[p - v.toNat]?).elim (v.toNat + x.length) fun b => p + 1 + b.toNat := by
  induction x generalizing v with
  | nil => rfl
  | cons b x ih =>
    rw [List.foldl_cons, probeStep]
    have byte := b.toNat_lt
    rcases Nat.lt_or_eq_of_le before with early | here
    · have next : (v + 1).toNat = v.toNat + 1 := by
        rw [UInt32.toNat_add, UInt32.toNat_one]
        omega
      have index : p - v.toNat = p - (v.toNat + 1) + 1 := by omega
      rw [if_pos early, ih (by omega), next, index, List.getElem?_cons_succ, List.length_cons]
      congr 1
      omega
    · have kept : (UInt32.ofNat (p + 1 + b.toNat)).toNat = p + 1 + b.toNat := by
        rw [UInt32.toNat_ofNat']
        omega
      rw [if_neg (by omega), if_pos here, foldl_probeStep_stays (by omega), kept, here, Nat.sub_self]
      rfl

theorem probe_of {p : Nat} (small : p + 256 < 2 ^ 32) (x : List UInt8) :
    ((probe p).of x).toNat = (x[p]?).elim x.length fun b => p + 1 + b.toNat := by
  have run := foldl_probeStep small x (v := 0) (Nat.zero_le p)
  rwa [UInt32.toNat_zero, Nat.sub_zero, Nat.zero_add] at run

theorem eq_of_sums {x y : List UInt8} (short : x.length + 256 < 2 ^ 32) (short' : y.length + 256 < 2 ^ 32)
    (same : ∀ sum : StreamSum, sum.of x = sum.of y) : x = y := by
  refine List.ext_getElem? fun p => ?_
  by_cases small : p + 256 < 2 ^ 32
  · have probed := congrArg UInt32.toNat (same (probe p))
    rw [probe_of small, probe_of small] at probed
    cases left : x[p]? with
    | none =>
      cases right : y[p]? with
      | none => rfl
      | some b =>
        rw [left, right, Option.elim_none, Option.elim_some] at probed
        have := List.getElem?_eq_none_iff.mp left
        omega
    | some a =>
      cases right : y[p]? with
      | none =>
        rw [left, right, Option.elim_none, Option.elim_some] at probed
        have := List.getElem?_eq_none_iff.mp right
        omega
      | some b =>
        rw [left, right, Option.elim_some, Option.elim_some] at probed
        rw [UInt8.toNat_inj.mp (show a.toNat = b.toNat by omega)]
  · rw [List.getElem?_eq_none (by omega), List.getElem?_eq_none (by omega)]

def crc32Bit (v : UInt32) : UInt32 := if v &&& 1 = 1 then (v >>> 1) ^^^ 0xEDB88320 else v >>> 1

def crc32Byte (v : UInt32) (b : UInt8) : UInt32 := crc32Bit^[8] (v ^^^ b.toUInt32)

def crc32 : StreamSum where
  run x v := (x.foldl crc32Byte (v ^^^ 0xFFFFFFFF)) ^^^ 0xFFFFFFFF
  append x y v := by
    rw [List.foldl_append, UInt32.xor_assoc _ 0xFFFFFFFF 0xFFFFFFFF, UInt32.xor_self, UInt32.xor_zero]

end StreamSum
