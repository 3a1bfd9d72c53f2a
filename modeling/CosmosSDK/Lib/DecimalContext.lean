import CosmosSDK.Lib.Decimal

/-!
# An arithmetic of decimals

Addition and subtraction align the two coefficients; they fail when the exponents are too far
apart or when the result leaves the range.  A quotient is the exact one, rounded half up.
-/

namespace Decimal

namespace Dec

def checked (limit : Int) (z : Dec) : Except Err Dec :=
  if z.exponent > limit then .error .overflow
  else if z.exponent < -limit then .error .underflow
  else if z.coeff.natAbs < 10 ^ (limit + 1 - z.exponent).toNat then .ok z
  else .error .overflow

def aligned (limit : Int) (x y : Dec) (op : Int → Int → Int) : Except Err Dec :=
  if x.exponent - y.exponent > limit ∨ y.exponent - x.exponent > limit then
    .error .exponentOutOfRange
  else
    let e := min x.exponent y.exponent
    checked limit ⟨op (x.scaled e) (y.scaled e), e⟩

def add (limit : Int) (x y : Dec) : Except Err Dec := aligned limit x y (· + ·)

def sub (limit : Int) (x y : Dec) : Except Err Dec := aligned limit x y (· - ·)

/-- The exact quotient, rounded half up to so many digits. -/
def quo (limit : Int) (digits : Nat) (x y : Dec) : Except Err Dec :=
  let q := |x.val / y.val|
  if y.coeff = 0 then .error .divisionByZero
  else if QuoFits limit digits x y then
    .ok ⟨(x.coeff * y.coeff).sign * round (q / lastPlace digits q), Int.log 10 q - (digits - 1)⟩
  else .error .exponentOutOfRange

/-! ## Sums and differences -/

theorem scaled_add (x y : Dec) :
    ((x.scaled (min x.exponent y.exponent) + y.scaled (min x.exponent y.exponent) : Int) : ℚ) *
      10 ^ min x.exponent y.exponent = x.val + y.val := by
  rw [Int.cast_add, add_mul, x.scaled_val (min_le_left _ _), y.scaled_val (min_le_right _ _)]

theorem scaled_sub (x y : Dec) :
    ((x.scaled (min x.exponent y.exponent) - y.scaled (min x.exponent y.exponent) : Int) : ℚ) *
      10 ^ min x.exponent y.exponent = x.val - y.val := by
  rw [Int.cast_sub, sub_mul, x.scaled_val (min_le_left _ _), y.scaled_val (min_le_right _ _)]

variable {limit : Int} {x y z : Dec} {m digits : Nat}

theorem checked_ok (h : checked limit x = .ok z) : z = x := by
  unfold checked at h
  split_ifs at h
  exact (Except.ok.inj h).symm

theorem aligned_ok {op : Int → Int → Int} (h : aligned limit x y op = .ok z) :
    z.exponent = min x.exponent y.exponent ∧
      z.coeff = op (x.scaled (min x.exponent y.exponent)) (y.scaled (min x.exponent y.exponent)) := by
  unfold aligned at h
  split_ifs at h
  rw [checked_ok h]
  exact ⟨rfl, rfl⟩

theorem add_val (h : add limit x y = .ok z) : z.val = x.val + y.val := by
  obtain ⟨hexp, hcoeff⟩ := aligned_ok h
  rw [val, hexp, hcoeff, scaled_add]

theorem sub_val (h : sub limit x y = .ok z) : z.val = x.val - y.val := by
  obtain ⟨hexp, hcoeff⟩ := aligned_ok h
  rw [val, hexp, hcoeff, scaled_sub]

theorem checked_of_lt (hlow : -limit ≤ z.exponent) (hhigh : z.exponent ≤ limit)
    (hval : |z.val| < (10 : ℚ) ^ (limit + 1)) : checked limit z = .ok z := by
  have hcoeff := (natAbs_lt_iff (by omega)).mpr hval
  unfold checked
  rw [if_neg (by omega), if_neg (by omega), if_pos hcoeff]

theorem aligned_within (hx : Within m x) (hy : Within m y) (hm : 2 * (m : Int) ≤ limit)
    {op : Int → Int → Int} {z : ℚ}
    (hz : (op (x.scaled (min x.exponent y.exponent)) (y.scaled (min x.exponent y.exponent)) : ℚ) *
      10 ^ min x.exponent y.exponent = z) (hval : |z| < (10 : ℚ) ^ (m : Int)) :
    ∃ w, aligned limit x y op = .ok w ∧ Within m w := by
  obtain ⟨hxlow, hxhigh, -⟩ := hx
  obtain ⟨hylow, _, -⟩ := hy
  have hmono : (10 : ℚ) ^ (m : Int) ≤ 10 ^ (limit + 1) := by
    apply zpow_le_zpow_right₀ (by norm_num)
    omega
  have hlow : -(m : Int) ≤ min x.exponent y.exponent := le_min hxlow hylow
  have hhigh : min x.exponent y.exponent ≤ m := (min_le_left _ _).trans hxhigh
  refine ⟨⟨op (x.scaled (min x.exponent y.exponent)) (y.scaled (min x.exponent y.exponent)),
    min x.exponent y.exponent⟩, ?_, ?_⟩
  · unfold aligned
    rw [if_neg (by omega)]
    apply checked_of_lt
    · show -limit ≤ min x.exponent y.exponent
      omega
    · show min x.exponent y.exponent ≤ limit
      omega
    · show |((op _ _ : Int) : ℚ) * 10 ^ min x.exponent y.exponent| < _
      rw [hz]
      exact lt_of_lt_of_le hval hmono
  · rw [within_iff]
    refine ⟨hlow, hhigh, ?_⟩
    show |((op _ _ : Int) : ℚ) * 10 ^ min x.exponent y.exponent| < _
    rw [hz]
    exact hval

theorem add_within (hx : Within m x) (hy : Within m y) (hm : 2 * (m : Int) ≤ limit)
    (hval : |x.val + y.val| < (10 : ℚ) ^ (m : Int)) : ∃ z, add limit x y = .ok z ∧ Within m z :=
  aligned_within hx hy hm (scaled_add x y) hval

theorem sub_within (hx : Within m x) (hy : Within m y) (hm : 2 * (m : Int) ≤ limit)
    (hval : |x.val - y.val| < (10 : ℚ) ^ (m : Int)) : ∃ z, sub limit x y = .ok z ∧ Within m z :=
  aligned_within hx hy hm (scaled_sub x y) hval

/-! ## Quotients -/

theorem quo_zero (h : quo limit digits x y = .ok z) (hx : x.val = 0) : z.val = 0 := by
  have hcoeff := x.val_eq_zero_iff.mp hx
  unfold quo at h
  split_ifs at h
  rw [← Except.ok.inj h]
  simp [val, hcoeff]

/-- A positive quotient is the exact one rounded to so many digits; it fails where an exponent
leaves the range. -/
theorem quo_cases (hx : 0 < x.val) (hy : 0 < y.val) :
    (QuoFits limit digits x y ∧
      ∃ z, quo limit digits x y = .ok z ∧ z.val = rounded digits (x.val / y.val)) ∨
    (¬ QuoFits limit digits x y ∧ ∃ err, quo limit digits x y = .error err) := by
  have hxc := x.val_pos_iff.mp hx
  have hyc := y.val_pos_iff.mp hy
  unfold quo
  rw [if_neg hyc.ne']
  by_cases hfits : QuoFits limit digits x y
  · rw [if_pos hfits]
    refine .inl ⟨hfits, _, rfl, ?_⟩
    rw [abs_of_pos (div_pos hx hy), Int.sign_eq_one_of_pos (mul_pos hxc hyc), one_mul]
    rfl
  · rw [if_neg hfits]
    exact .inr ⟨hfits, _, rfl⟩

/-- Rounding to digits may carry into one more. -/
theorem log_rounded (hdigits : 1 ≤ digits) {q : ℚ} (hq : 0 < q) :
    Int.log 10 q ≤ Int.log 10 (rounded digits q) ∧
      Int.log 10 (rounded digits q) ≤ Int.log 10 q + 1 := by
  have hlow := Int.zpow_log_le_self (b := 10) (by norm_num) hq
  have hhigh := Int.lt_zpow_succ_log_self (b := 10) (by norm_num) q
  have hpos : 0 < lastPlace digits q := zpow_pos (by norm_num) _
  have hplace : (10 : ℚ) ^ Int.log 10 q = (10 ^ (digits - 1) : Nat) * lastPlace digits q := by
    rw [lastPlace, Nat.cast_pow, Nat.cast_ofNat, ← zpow_natCast, ← zpow_add₀ (by norm_num)]
    congr 1
    omega
  push_cast at hlow hhigh
  have hle : (10 : ℚ) ^ Int.log 10 q ≤ rounded digits q := by
    rw [le_rounded_iff, hplace, mul_div_cancel_right₀ _ hpos.ne', Int.ceil_natCast, Int.cast_natCast,
      ← hplace]
    linarith
  have hround : round (q / lastPlace digits q) ≤ (10 * 10 ^ (digits - 1) : Nat) := by
    rw [round_eq, Int.floor_le_iff]
    have hlt : q / lastPlace digits q < (10 * 10 ^ (digits - 1) : Nat) := by
      rw [div_lt_iff₀ hpos, Nat.cast_mul, mul_assoc, ← hplace]
      rw [zpow_add_one₀ (by norm_num)] at hhigh
      push_cast
      linarith
    push_cast at hlt ⊢
    linarith
  have hge : rounded digits q ≤ (10 : ℚ) ^ (Int.log 10 q + 1) := by
    rw [zpow_add_one₀ (by norm_num), hplace, rounded]
    have hcast : ((round (q / lastPlace digits q) : Int) : ℚ) ≤ (10 * 10 ^ (digits - 1) : Nat) := by
      exact_mod_cast hround
    calc _ ≤ ((10 * 10 ^ (digits - 1) : Nat) : ℚ) * lastPlace digits q :=
          mul_le_mul_of_nonneg_right hcast hpos.le
      _ = _ := by push_cast; ring
  have hrounded : 0 < rounded digits q := lt_of_lt_of_le (zpow_pos (by norm_num) _) hle
  constructor
  · exact (Int.zpow_le_iff_le_log (b := 10) (by norm_num) hrounded).mp (by exact_mod_cast hle)
  · have := Int.log_mono_right (b := 10) hrounded hge
    rwa [show (10 : ℚ) = ((10 : Nat) : ℚ) by norm_num, Int.log_zpow (by norm_num)] at this

/-- The size of a decimal that is not zero. -/
theorem val_bounds (h : Within m x) (hzero : x.val ≠ 0) :
    (10 : ℚ) ^ (-(m : Int)) ≤ |x.val| ∧ |x.val| < (10 : ℚ) ^ (m : Int) := by
  obtain ⟨hlow, -, hval⟩ := within_iff.mp h
  have hcoeff : (1 : ℚ) ≤ |(x.coeff : ℚ)| := by
    exact_mod_cast Int.one_le_abs (mt x.val_eq_zero_iff.mpr hzero)
  have hpow : (10 : ℚ) ^ (-(m : Int)) ≤ 10 ^ x.exponent := zpow_le_zpow_right₀ (by norm_num) hlow
  refine ⟨?_, hval⟩
  rw [val, abs_mul, abs_of_pos (zpow_pos (by norm_num) x.exponent : (0 : ℚ) < _)]
  nlinarith [zpow_pos (by norm_num : (0 : ℚ) < 10) x.exponent]

theorem log_quotient (hx : Within m x) (hy : Within m y) (hx0 : x.val ≠ 0) (hy0 : y.val ≠ 0) :
    -(2 * (m : Int)) ≤ Int.log 10 |x.val / y.val| ∧ Int.log 10 |x.val / y.val| ≤ 2 * m := by
  obtain ⟨hxlow, hxhigh⟩ := val_bounds hx hx0
  obtain ⟨hylow, hyhigh⟩ := val_bounds hy hy0
  have hq : 0 < |x.val / y.val| := abs_pos.mpr (div_ne_zero hx0 hy0)
  have hdouble : ∀ k : Int, (10 : ℚ) ^ (2 * k) = 10 ^ k / 10 ^ (-k) := by
    intro k
    rw [← zpow_sub₀ (by norm_num)]
    congr 1
    ring
  constructor
  · apply (Int.zpow_le_iff_le_log (b := 10) (by norm_num) hq).mp
    rw [abs_div, ← mul_neg]
    push_cast
    rw [hdouble, neg_neg]
    exact div_le_div₀ (abs_nonneg _) hxlow (abs_pos.mpr hy0) hyhigh.le
  · have hle : |x.val / y.val| ≤ (10 : ℚ) ^ (2 * (m : Int)) := by
      rw [abs_div, hdouble]
      exact div_le_div₀ (zpow_pos (by norm_num) _).le hxhigh.le (zpow_pos (by norm_num) _) hylow
    have := Int.log_mono_right (b := 10) hq hle
    rwa [show (10 : ℚ) = ((10 : Nat) : ℚ) by norm_num, Int.log_zpow (by norm_num)] at this

theorem quo_within (hx : Within m x) (hy : Within m y) (hzero : y.val ≠ 0)
    (hdigits : 1 ≤ digits) (hlimit : 4 * (m : Int) + 3 * digits + 5 ≤ limit) :
    ∃ z, quo limit digits x y = .ok z := by
  have hlog : -(2 * (m : Int)) ≤ Int.log 10 (rounded digits |x.val / y.val|) ∧
      Int.log 10 (rounded digits |x.val / y.val|) ≤ 2 * m + 1 := by
    by_cases hx0 : x.val = 0
    · simp only [hx0, zero_div, abs_zero, rounded, round_zero, Int.cast_zero, zero_mul,
        Int.log_zero_right]
      omega
    · have hq := log_quotient hx hy hx0 hzero
      have hrounded := log_rounded hdigits (abs_pos.mpr (div_ne_zero hx0 hzero))
      omega
  obtain ⟨_, _, -⟩ := hx
  obtain ⟨_, _, -⟩ := hy
  have hfits : QuoFits limit digits x y := by
    simp only [QuoFits, List.mem_cons, List.not_mem_nil, or_false, forall_eq_or_imp, forall_eq,
      abs_le]
    omega
  exact ⟨_, by rw [quo, if_neg (mt y.val_eq_zero_iff.mpr hzero), if_pos hfits]⟩

end Dec

open Dec

/-- These operations, as an arithmetic. -/
@[reducible]
def arithmetic (limit : Int) {digits : Nat} (hdigits : 1 ≤ digits) : Arithmetic limit digits where
  cmp x y := compare x.val y.val
  add := add limit
  sub := sub limit
  quo := quo limit digits
  cmp_eq _ _ := rfl
  add_val := add_val
  sub_val := sub_val
  add_within := add_within
  sub_within := sub_within
  quo_zero := quo_zero
  quo_pos := quo_cases
  quo_within hx hy hzero := quo_within hx hy hzero hdigits

end Decimal
