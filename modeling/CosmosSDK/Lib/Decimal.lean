import Mathlib.Algebra.Order.Round
import Mathlib.Data.Int.Log
import Mathlib.Data.Rat.Floor
import Mathlib.Tactic.FieldSimp
import Mathlib.Tactic.Linarith
import Mathlib.Tactic.Positivity
import Mathlib.Tactic.Ring

/-!
# Decimals with a bounded exponent

A decimal is a coefficient and a power of ten.  An arithmetic of them compares exactly, and its
sums and differences are exact; a quotient is rounded to a number of digits.  The operations
can fail, but not between decimals well inside the range of exponents.
-/

namespace Decimal

structure Dec where
  coeff : Int
  exponent : Int
deriving DecidableEq, Repr

inductive Err where
  | exponentOutOfRange
  | overflow
  | underflow
  | divisionByZero
deriving DecidableEq, Repr

namespace Dec

def val (x : Dec) : ℚ := x.coeff * (10 : ℚ) ^ x.exponent

def ofInt (n : Int) : Dec := ⟨n, 0⟩

def scaled (x : Dec) (e : Int) : Int := x.coeff * ((10 ^ (x.exponent - e).toNat : Nat) : Int)

/-- The same decimal without a positive exponent. -/
def plain (x : Dec) : Dec :=
  if x.exponent > 0 then ⟨x.scaled 0, 0⟩ else x

theorem scaled_val (x : Dec) {e : Int} (h : e ≤ x.exponent) :
    (x.scaled e : ℚ) * (10 : ℚ) ^ e = x.val := by
  have hexp : x.exponent = (x.exponent - e).toNat + e := by
    omega
  have hpow : (10 : ℚ) ^ x.exponent = 10 ^ (x.exponent - e).toNat * 10 ^ e := by
    conv_lhs => rw [hexp]
    rw [zpow_add₀ (by norm_num), zpow_natCast]
  rw [val, hpow, scaled]
  push_cast
  ring

theorem plain_val (x : Dec) : x.plain.val = x.val := by
  unfold plain
  by_cases h : x.exponent > 0
  · rw [if_pos h]
    have hval := x.scaled_val (e := 0) (by omega)
    rw [zpow_zero, mul_one] at hval
    rw [val, zpow_zero, mul_one]
    exact hval
  · rw [if_neg h]

theorem val_ofInt (n : Int) : (ofInt n).val = n := by
  simp [val, ofInt]

theorem val_pos_iff (x : Dec) : 0 < x.val ↔ 0 < x.coeff := by
  have hpow : (0 : ℚ) < 10 ^ x.exponent := zpow_pos (by norm_num) _
  rw [val, mul_pos_iff_of_pos_right hpow]
  exact Int.cast_pos

theorem val_neg_iff (x : Dec) : x.val < 0 ↔ x.coeff < 0 := by
  have hpow : (0 : ℚ) < 10 ^ x.exponent := zpow_pos (by norm_num) _
  rw [val, ← not_le, mul_nonneg_iff_of_pos_right hpow, not_le]
  exact Int.cast_lt_zero

theorem val_eq_zero_iff (x : Dec) : x.val = 0 ↔ x.coeff = 0 := by
  have hpow : (10 : ℚ) ^ x.exponent ≠ 0 := zpow_ne_zero _ (by norm_num)
  rw [val, mul_eq_zero, or_iff_left hpow]
  exact Int.cast_eq_zero

/-! ## Size and rounding -/

/-- The exponent is between `-m` and `m`, and the value is below `10 ^ m`. -/
def Within (m : Nat) (x : Dec) : Prop :=
  -(m : Int) ≤ x.exponent ∧ x.exponent ≤ m ∧ x.coeff.natAbs < 10 ^ ((m : Int) - x.exponent).toNat

instance (m : Nat) (x : Dec) : Decidable (Within m x) := by
  unfold Within
  infer_instance

variable {x : Dec} {m : Nat}

theorem natAbs_lt_iff {n : Int} (h : x.exponent ≤ n) :
    x.coeff.natAbs < 10 ^ (n - x.exponent).toNat ↔ |x.val| < (10 : ℚ) ^ n := by
  have hpow : (0 : ℚ) < 10 ^ x.exponent := zpow_pos (by norm_num) _
  have hsplit : (10 : ℚ) ^ n = (10 ^ (n - x.exponent).toNat : ℕ) * 10 ^ x.exponent := by
    have hexp : n = ((n - x.exponent).toNat : Int) + x.exponent := by
      omega
    conv_lhs => rw [hexp]
    rw [zpow_add₀ (by norm_num), zpow_natCast]
    push_cast
    rfl
  have habs : |x.val| = (x.coeff.natAbs : ℚ) * 10 ^ x.exponent := by
    rw [val, abs_mul, abs_of_pos hpow, Nat.cast_natAbs, Int.cast_abs]
  rw [habs, hsplit, mul_lt_mul_iff_of_pos_right hpow, Nat.cast_lt]

theorem within_iff :
    Within m x ↔ -(m : Int) ≤ x.exponent ∧ x.exponent ≤ m ∧ |x.val| < (10 : ℚ) ^ (m : Int) := by
  constructor
  · rintro ⟨hlow, hhigh, hcoeff⟩
    exact ⟨hlow, hhigh, (natAbs_lt_iff hhigh).mp hcoeff⟩
  · rintro ⟨hlow, hhigh, hval⟩
    exact ⟨hlow, hhigh, (natAbs_lt_iff hhigh).mpr hval⟩

theorem within_plain (h : Within m x) : Within m x.plain := by
  rw [within_iff] at h ⊢
  obtain ⟨hlow, hhigh, hval⟩ := h
  rw [plain_val]
  unfold plain
  by_cases hpos : x.exponent > 0
  · rw [if_pos hpos]
    exact ⟨by simp, by simp, hval⟩
  · rw [if_neg hpos]
    exact ⟨hlow, hhigh, hval⟩

/-- The last of so many digits of a positive number. -/
def lastPlace (digits : Nat) (q : ℚ) : ℚ := 10 ^ (Int.log 10 q - (digits - 1))

/-- A positive number rounded half up to so many digits. -/
def rounded (digits : Nat) (q : ℚ) : ℚ := round (q / lastPlace digits q) * lastPlace digits q

theorem le_rounded_iff (digits : Nat) (p q : ℚ) : p ≤ rounded digits q ↔
    ⌈p / lastPlace digits q⌉ * lastPlace digits q ≤ q + lastPlace digits q / 2 := by
  have hpos : 0 < lastPlace digits q := zpow_pos (by norm_num) _
  have hhalf : q + lastPlace digits q / 2 = (q / lastPlace digits q + 1 / 2) * lastPlace digits q := by
    field_simp
  rw [rounded, ← div_le_iff₀ hpos, ← Int.ceil_le, round_eq, Int.le_floor, hhalf,
    mul_le_mul_iff_left₀ hpos]

/-- The exponents that a quotient goes through are in the range. -/
def QuoFits (limit : Int) (digits : Nat) (x y : Dec) : Prop :=
  ∀ e ∈ [x.exponent, y.exponent, Int.log 10 (rounded digits |x.val / y.val|),
    x.exponent - y.exponent + (digits - 1) - Int.log 10 (rounded digits |x.val / y.val|)], |e| ≤ limit

instance (limit : Int) (digits : Nat) (x y : Dec) : Decidable (QuoFits limit digits x y) :=
  inferInstanceAs (Decidable (∀ e ∈ _, |e| ≤ limit))

end Dec

open Dec

/-- Arithmetic with exponents up to `limit` and quotients of so many digits. -/
class Arithmetic (limit : Int) (digits : Nat) where
  cmp : Dec → Dec → Ordering
  add : Dec → Dec → Except Err Dec
  sub : Dec → Dec → Except Err Dec
  quo : Dec → Dec → Except Err Dec
  cmp_eq : ∀ x y, cmp x y = compare x.val y.val
  add_val : ∀ {x y z}, add x y = .ok z → z.val = x.val + y.val
  sub_val : ∀ {x y z}, sub x y = .ok z → z.val = x.val - y.val
  add_within : ∀ {m x y}, Within m x → Within m y → 2 * (m : Int) ≤ limit →
    |x.val + y.val| < (10 : ℚ) ^ (m : Int) → ∃ z, add x y = .ok z ∧ Within m z
  sub_within : ∀ {m x y}, Within m x → Within m y → 2 * (m : Int) ≤ limit →
    |x.val - y.val| < (10 : ℚ) ^ (m : Int) → ∃ z, sub x y = .ok z ∧ Within m z
  quo_zero : ∀ {x y z}, quo x y = .ok z → x.val = 0 → z.val = 0
  /-- a positive quotient is the rounded one, and it fails where an exponent leaves the range -/
  quo_pos : ∀ {x y}, 0 < x.val → 0 < y.val →
    QuoFits limit digits x y ∧ (∃ z, quo x y = .ok z ∧ z.val = rounded digits (x.val / y.val)) ∨
      ¬ QuoFits limit digits x y ∧ ∃ err, quo x y = .error err
  quo_within : ∀ {m x y}, Within m x → Within m y → y.val ≠ 0 →
    4 * (m : Int) + 3 * digits + 5 ≤ limit → ∃ z, quo x y = .ok z

end Decimal
