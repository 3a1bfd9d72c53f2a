import Mathlib.Data.Rat.Floor

/-!
# Rounding of fractions

Three ways to round a rational number to an integer, and what they are for a fraction whose
truncated quotient and remainder are known.
-/

namespace Rounding

open Int

/-- The integer nearest to `x`; of two that are equally near, the even one. -/
def HalfEven (x : ℚ) (r : ℤ) : Prop := |x - r| ≤ 1 / 2 ∧ (|x - r| = 1 / 2 → Even r)

/-- `x` without its fraction. -/
def towardZero (x : ℚ) : ℤ := if 0 ≤ x then ⌊x⌋ else ⌈x⌉

variable {x : ℚ} {r r' n m : ℤ}

theorem HalfEven.unique (h : HalfEven x r) (h' : HalfEven x r') : r = r' := by
  by_contra hne
  wlog hlt : r < r' generalizing r r'
  · exact this h' h (Ne.symm hne) (by omega)
  obtain ⟨hlow, hhigh⟩ := abs_le.mp h.1
  obtain ⟨hlow', hhigh'⟩ := abs_le.mp h'.1
  -- two neighbours are both half a unit away, and one of them is odd
  obtain rfl : r' = r + 1 := by
    have : r' ≤ r + 1 := by exact_mod_cast (by linarith : (r' : ℚ) ≤ r + 1)
    omega
  push_cast at hlow'
  obtain rfl : x = r + 1 / 2 := by linarith
  have heven := h.2 (by norm_num)
  have heven' := h'.2 (by push_cast; norm_num)
  rw [even_iff] at heven heven'
  omega

theorem halfEven_neg : HalfEven (-x) (-r) ↔ HalfEven x r := by
  have habs : |-x - (-r : ℤ)| = |x - r| := by
    rw [cast_neg, neg_sub_neg, abs_sub_comm]
  rw [HalfEven, HalfEven, habs, even_neg]

theorem halfEven_div (hm : 0 < m) : HalfEven (n / m) r ↔
    (2 * (n - r * m)).natAbs ≤ m ∧ ((2 * (n - r * m)).natAbs = m → r % 2 = 0) := by
  have hm' : (0 : ℚ) < 2 * m := by exact_mod_cast mul_pos two_pos hm
  have hdiff : |(n / m : ℚ) - r| = ((2 * (n - r * m)).natAbs : ℤ) / (2 * m) := by
    rw [natCast_natAbs, cast_abs, ← abs_of_pos hm', ← abs_div]
    push_cast
    field_simp
  have hhalf : (1 / 2 * (2 * m) : ℚ) = m := by ring
  rw [HalfEven, hdiff, div_le_iff₀ hm', div_eq_iff hm'.ne', hhalf, Int.even_iff,
    Int.cast_le, Int.cast_inj]

/-- The truncated quotient leaves a fraction of the sign of the remainder. -/
theorem div_eq_tdiv_add (hm : m ≠ 0) : (n / m : ℚ) = n.tdiv m + n.tmod m / m := by
  have hn : (n : ℚ) = m * n.tdiv m + n.tmod m := by exact_mod_cast (mul_tdiv_add_tmod n m).symm
  rw [hn]
  field_simp

theorem abs_tmod_div (hm : m ≠ 0) : |(n.tmod m / m : ℚ)| < 1 := by
  have hm' : (0 : ℚ) < |(m : ℚ)| := by exact_mod_cast abs_pos.mpr hm
  have hlt : |n.tmod m| < |m| := by
    rw [abs_eq_natAbs, abs_eq_natAbs, natAbs_tmod]
    exact_mod_cast Nat.mod_lt _ (natAbs_pos.mpr hm)
  rw [abs_div, div_lt_one hm']
  exact_mod_cast hlt

theorem ceil_div (hm : m ≠ 0) :
    ⌈(n / m : ℚ)⌉ = n.tdiv m + if 0 < n.tmod m * m then 1 else 0 := by
  obtain ⟨hlow, hhigh⟩ := abs_lt.mp (abs_tmod_div hm)
  have hpos : 0 < (n.tmod m / m : ℚ) ↔ 0 < n.tmod m * m := by
    rw [div_pos_iff, ← mul_pos_iff]
    norm_cast
  rw [div_eq_tdiv_add hm, ceil_intCast_add, add_right_inj, ceil_eq_iff]
  split_ifs with h
  · have := hpos.mpr h
    norm_num
    exact ⟨this, hhigh.le⟩
  · have := not_lt.mp (mt hpos.mp h)
    norm_num
    exact ⟨hlow, this⟩

theorem tmod_nonpos (hn : n ≤ 0) : n.tmod m ≤ 0 := by
  have := tmod_nonneg m (neg_nonneg.mpr hn)
  rw [neg_tmod] at this
  omega

theorem towardZero_div (hm : m ≠ 0) : towardZero (n / m) = n.tdiv m := by
  obtain ⟨hlow, hhigh⟩ := abs_lt.mp (abs_tmod_div hm)
  have hnonneg (hn : (0 : ℚ) ≤ n) : (0 : ℚ) ≤ n.tmod m :=
    cast_nonneg (tmod_nonneg m (cast_nonneg_iff.mp hn))
  have hnonpos (hn : (n : ℚ) ≤ 0) : (n.tmod m : ℚ) ≤ 0 :=
    cast_nonpos.mpr (tmod_nonpos (cast_nonpos.mp hn))
  unfold towardZero
  split_ifs with h
  · have hf : (0 : ℚ) ≤ n.tmod m / m := by
      rcases div_nonneg_iff.mp h with ⟨hn, hm⟩ | ⟨hn, hm⟩
      · exact div_nonneg (hnonneg hn) hm
      · exact div_nonneg_of_nonpos (hnonpos hn) hm
    rw [div_eq_tdiv_add hm, floor_intCast_add, floor_eq_zero_iff.mpr ⟨hf, hhigh⟩, add_zero]
  · have hf : (n.tmod m / m : ℚ) ≤ 0 := by
      rcases div_neg_iff.mp (not_le.mp h) with ⟨hn, hm⟩ | ⟨hn, hm⟩
      · exact div_nonpos_of_nonneg_of_nonpos (hnonneg hn.le) hm.le
      · exact div_nonpos_of_nonpos_of_nonneg (hnonpos hn.le) hm.le
    rw [div_eq_tdiv_add hm, ceil_intCast_add, ceil_eq_zero_iff.mpr ⟨hlow, hf⟩, add_zero]

end Rounding
