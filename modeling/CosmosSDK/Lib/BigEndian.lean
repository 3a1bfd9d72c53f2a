import Mathlib.Data.UInt
import Mathlib.Data.List.Basic

/-!
# Big-endian keys

A number in a fixed count of bytes, the highest first.  Keys that begin with such numbers
are ordered by them.
-/

namespace BigEndian

open Nat
open UInt8 (ofNat)

/-- The lowest bytes of a number, the highest of them first. -/
def bytes : Nat → Nat → List UInt8
  | 0, _ => []
  | width + 1, n => ofNat (n / 256 ^ width) :: bytes width n

def value : List UInt8 → Nat
  | [] => 0
  | b :: l => b.toNat * 256 ^ l.length + value l

theorem length_bytes (width n : Nat) : (bytes width n).length = width := by
  induction width with
  | zero => rfl
  | succ width ih => rw [bytes, List.length_cons, ih]

theorem value_bytes (width n : Nat) : value (bytes width n) = n % 256 ^ width := by
  induction width with
  | zero => simp [bytes, value, mod_one]
  | succ width ih =>
    have hn : n % 256 ^ (width + 1) = n % 256 ^ width + 256 ^ width * (n / 256 ^ width % 256) :=
      mod_pow_succ
    rw [bytes, value, length_bytes, ih, hn, UInt8.toNat_ofNat', mul_comm, add_comm]

theorem compare_ofNat (a b : Nat) :
    compare (ofNat a) (ofNat b) = compare (a % 256) (b % 256) := by
  rw [show compare (ofNat a) (ofNat b) =
      compareOfLessAndEq (ofNat a) (ofNat b) from rfl,
    show compare (a % 256) (b % 256) = compareOfLessAndEq (a % 256) (b % 256) from rfl]
  simp [compareOfLessAndEq, UInt8.lt_iff_toNat_lt, ← UInt8.toNat_inj]

theorem compare_bytes_append {width m n : Nat} (h : m % 256 ^ width < n % 256 ^ width)
    (x y : List UInt8) : compare (bytes width m ++ x) (bytes width n ++ y) = .lt := by
  induction width with
  | zero => simp [mod_one] at h
  | succ width ih =>
    have hm : m % 256 ^ (width + 1) = m % 256 ^ width + 256 ^ width * (m / 256 ^ width % 256) :=
      mod_pow_succ
    have hn : n % 256 ^ (width + 1) = n % 256 ^ width + 256 ^ width * (n / 256 ^ width % 256) :=
      mod_pow_succ
    have hcons : compare (bytes (width + 1) m ++ x) (bytes (width + 1) n ++ y) =
        (compare (ofNat (m / 256 ^ width)) (ofNat (n / 256 ^ width))).then
          (compare (bytes width m ++ x) (bytes width n ++ y)) := List.compareLex_cons_cons
    rw [hcons, compare_ofNat]
    rcases Nat.lt_trichotomy (m / 256 ^ width % 256) (n / 256 ^ width % 256) with hlt | heq | hgt
    · rw [Nat.compare_eq_lt.mpr hlt]
      rfl
    · rw [Nat.compare_eq_eq.mpr heq]
      refine ih ?_
      rw [heq] at hm
      omega
    · exfalso
      have hmul : 256 ^ width * (n / 256 ^ width % 256 + 1) ≤
          256 ^ width * (m / 256 ^ width % 256) := mul_le_mul_left _ hgt
      rw [mul_add, mul_one] at hmul
      omega

end BigEndian
