import Mathlib.Tactic.Linarith
import Mathlib.Tactic.Ring

/-!
# Pro rata pools

A pool of `T` tokens is owned through `S` shares.  `a` tokens buy `S * a / T`
shares, and `k` shares are worth `k * T / S` tokens, both rounded down.  As long as
there are at least as many shares as tokens, a purchase issues at least one share
for every token, and neither a purchase nor a redemption turns the relation around.
-/

namespace ProRata

variable {S T a k : Int}

theorem le_issued (hT : 0 < T) (ha : 0 ≤ a) (h : T ≤ S) : a ≤ S * a / T := by
  rw [Int.le_ediv_iff_mul_le hT]
  calc a * T ≤ a * S := Int.mul_le_mul_of_nonneg_left h ha
    _ = S * a := Int.mul_comm a S

/-- The value of `k` shares is at least `k` less the surplus of shares over tokens. -/
theorem le_worth (hS : 0 < S) (hk : k ≤ S) (h : T ≤ S) : k - (S - T) ≤ k * T / S := by
  rw [Int.le_ediv_iff_mul_le hS]
  have : 0 ≤ (S - k) * (S - T) := Int.mul_nonneg (by omega) (by omega)
  have hexpand : k * T - (k - (S - T)) * S = (S - k) * (S - T) := by ring
  omega

theorem redemption_le (hS : 0 < S) (hk : k ≤ S) (h : T ≤ S) {paid : Int} (hpaid : k * T / S ≤ paid) :
    T - paid ≤ S - k := by
  have := le_worth hS hk h
  omega

/-! ## The exchange rate -/

theorem issued_mul_le (hT : 0 < T) : S * a / T * T ≤ S * a := Int.ediv_mul_le _ hT.ne'

theorem purchase_keeps_rate (hT : 0 < T) : T * (S + S * a / T) ≤ (T + a) * S := by
  have hissued := issued_mul_le (S := S) (a := a) hT
  have hexpand : (T + a) * S - T * (S + S * a / T) = S * a - S * a / T * T := by ring
  omega

theorem issued_worth_le (hT : 0 < T) : S * a / T * (T + a) ≤ a * (S + S * a / T) := by
  have hissued := issued_mul_le (S := S) (a := a) hT
  have hexpand : a * (S + S * a / T) - S * a / T * (T + a) = S * a - S * a / T * T := by ring
  omega

/-- A redemption keeps the tokens per share exactly when it pays no more than the value. -/
theorem redemption_keeps_rate_iff (hS : 0 < S) {paid : Int} :
    T * (S - k) ≤ (T - paid) * S ↔ paid ≤ k * T / S := by
  rw [Int.le_ediv_iff_mul_le hS]
  have hexpand : (T - paid) * S - T * (S - k) = k * T - paid * S := by ring
  omega

end ProRata
