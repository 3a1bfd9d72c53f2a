import CosmosSDK.Lib.Rounding
import CosmosSDK.Math.LegacyDec
import Mathlib.Data.List.GetD

/-!
# Rounded products and quotients

The products clone the first operand and chop the product in the cell of the clone; they round
the exact product.  `Quo` rounds a quotient that has been truncated to 36 digits, and
`QuoRoundUp` takes the sign of the quotient it has written for the sign of the dividend.
-/

namespace CosmosSDK.Math.LegacyDec

open Rounding Int List

variable {ε : Type}

def chopPrecisionAndRoundUp (d : Int) : Int :=
  if d < 0 then -chopPrecisionAndTruncate (-d)
  else
    let quo := d.tdiv precisionReuse
    let rem := d.tmod precisionReuse
    if rem = 0 then quo else quo + 1

/-- The cells of type `big.Int`; a decimal of the source points to one of them. -/
abbrev Cells := List Int

/-- An operation on two decimals returns the cells and the decimal it has written. -/
abbrev Op (ε : Type) := Cells → Nat → Nat → Result ε (Cells × Nat)

/-- The operation gets a clone of the first operand. -/
def immutOp (op : Op ε) : Op ε := fun m d d2 => op (m ++ [m.getD d 0]) m.length d2

/-- The product is written over the first operand and chopped there. -/
def mulChopMut (chop : Int → Int) : Op ε := fun m d d2 =>
  let m := m.set d (m.getD d 0 * m.getD d2 0)
  let m := m.set d (chop (m.getD d 0))
  (assertInValidRange ⟨m.getD d 0⟩).map fun _ => (m, d)

def mulMut : Op ε := mulChopMut chopPrecisionAndRound

def mulTruncateMut : Op ε := mulChopMut chopPrecisionAndTruncate

def mulRoundUpMut : Op ε := mulChopMut chopPrecisionAndRoundUp

def value (i : Int) : ℚ := i / precisionReuse

/-! ## Products -/

/-- A product leaves all cells as they are and puts the rounded product in a new one, or panics
where that leaves the range. -/
structure RoundedProduct (round : ℚ → ℤ → Prop) (mul : Op ε) : Prop where
  rounded : ∀ (m : Cells) (a b : Fin m.length),
    ∃ r, round (value m[a] * value m[b] * precisionReuse) r ∧ mul m a b =
      if isInValidRange ⟨r⟩ then .ok (m ++ [r], m.length) else .error (.panic "Int overflow")
  comm : ∀ (m : Cells) (a b : Fin m.length), mul m a b = mul m b a
  mono : ∀ (m m₁ m₂ : Cells) (a b a' b' : Fin m.length) (p₁ p₂ : Nat), 0 ≤ m[a] → m[a] ≤ m[a'] →
    0 ≤ m[b] → m[b] ≤ m[b'] → mul m a b = .ok (m₁, p₁) → mul m a' b' = .ok (m₂, p₂) →
      m₁.getD p₁ 0 ≤ m₂.getD p₂ 0

variable {chop : Int → Int} {m : Cells}

theorem immutOp_mulChopMut (a b : Fin m.length) :
    (immutOp (mulChopMut chop) m a b : Result ε _) =
      (assertInValidRange ⟨chop (m[a] * m[b])⟩).map fun d => (m ++ [d.i], m.length) := by
  have ha : m.getD a 0 = m[a] := getD_eq_getElem m 0 a.isLt
  have hb : (m ++ [m[a]]).getD b 0 = m[b] := by
    rw [getD_append _ _ _ _ b.isLt]
    exact getD_eq_getElem m 0 b.isLt
  have hlast (i : Int) : (m ++ [i]).getD m.length 0 = i := by simp
  simp only [immutOp, mulChopMut, ha, hb, hlast, set_append_right, le_refl, Nat.sub_self,
    set_cons_zero]
  unfold assertInValidRange
  split <;> rfl

theorem roundedProduct {round : ℚ → ℤ → Prop} (hround : ∀ n : ℤ, round (n / precisionReuse) (chop n))
    (hmono : ∀ c d, 0 ≤ c → c ≤ d → chop c ≤ chop d) :
    RoundedProduct (ε := ε) round (immutOp (mulChopMut chop)) where
  rounded m a b := by
    refine ⟨chop (m[a] * m[b]), ?_, ?_⟩
    · have hexact : value m[a] * value m[b] * precisionReuse = (m[a] * m[b] : ℤ) / precisionReuse := by
        unfold value
        push_cast
        field_simp
      rw [hexact]
      exact hround _
    · rw [immutOp_mulChopMut, assertInValidRange]
      split <;> rfl
  comm m a b := by rw [immutOp_mulChopMut, immutOp_mulChopMut, mul_comm]
  mono m m1 m2 a b a' b' p1 p2 ha haa hb hbb h h' := by
    have hvalue {a b : Fin m.length} {m' : Cells} {p : Nat}
        (h : (immutOp (mulChopMut chop) m a b : Result ε _) = .ok (m', p)) :
        m'.getD p 0 = chop (m[a] * m[b]) := by
      rw [immutOp_mulChopMut, assertInValidRange] at h
      split at h
      · cases h
        simp
      · cases h
    rw [hvalue h, hvalue h']
    exact hmono _ _ (mul_nonneg ha hb) (mul_le_mul haa hbb hb (ha.trans haa))

theorem chopPrecisionAndRound_neg (d : Int) :
    chopPrecisionAndRound (-d) = -chopPrecisionAndRound d := by
  unfold chopPrecisionAndRound
  rcases lt_trichotomy d 0 with h | rfl | h
  · rw [if_neg (by omega), if_pos h, neg_neg]
  · decide
  · rw [if_pos (by omega), if_neg (by omega), neg_neg]

theorem halfEven_chop (n : ℤ) : HalfEven (n / precisionReuse) (chopPrecisionAndRound n) := by
  wlog hn : 0 ≤ n generalizing n
  · have h := this (-n) (by omega)
    rwa [chopPrecisionAndRound_neg, cast_neg, neg_div, halfEven_neg] at h
  rw [halfEven_div precisionReuse_pos, chopPrecisionAndRound_eq hn, precisionReuse]
  split_ifs <;> omega

theorem chopPrecisionAndRoundUp_eq (n : ℤ) : chopPrecisionAndRoundUp n = ⌈(n / precisionReuse : ℚ)⌉ := by
  rw [ceil_div precisionReuse_pos.ne', chopPrecisionAndRoundUp, chopPrecisionAndTruncate,
    precisionReuse]
  by_cases hn : n < 0
  · have htmod : n.tmod (10 ^ 18) ≤ 0 := tmod_nonpos hn.le
    rw [if_pos hn, Int.neg_tdiv, neg_neg, if_neg (by omega), add_zero]
  · have htmod := Int.tmod_nonneg (10 ^ 18) (by omega : 0 ≤ n)
    simp only [if_neg hn]
    split_ifs <;> omega

/-- The three products round the exact product half to even, toward zero and up. -/
theorem products_rounded :
    RoundedProduct (ε := ε) HalfEven (immutOp mulMut) ∧
      RoundedProduct (ε := ε) (fun x r => r = towardZero x) (immutOp mulTruncateMut) ∧
      RoundedProduct (ε := ε) (fun x r => r = ⌈x⌉) (immutOp mulRoundUpMut) := by
  refine ⟨roundedProduct halfEven_chop fun _ _ => chopPrecisionAndRound_mono,
    roundedProduct (fun n => ?_) fun c d hc h => ?_, roundedProduct chopPrecisionAndRoundUp_eq
      (fun c d _ h => ?_)⟩
  · exact (towardZero_div precisionReuse_pos.ne').symm
  · rw [chopPrecisionAndTruncate, chopPrecisionAndTruncate, tdiv_eq_ediv_of_nonneg hc,
      Int.tdiv_eq_ediv_of_nonneg (hc.trans h)]
    exact Int.ediv_le_ediv precisionReuse_pos h
  · rw [chopPrecisionAndRoundUp_eq, chopPrecisionAndRoundUp_eq]
    have hpos : (0 : ℚ) ≤ precisionReuse := cast_nonneg precisionReuse_pos.le
    exact ceil_mono (div_le_div_of_nonneg_right (cast_le.mpr h) hpos)

/-! ## Quotients -/

/-- The quotient is a little more than half way between two decimals, and half way once it is
truncated to 36 digits; the digit before is even. -/
def nearTie (n m : Int) : Bool :=
  let quo := (n * precisionReuse).tdiv m
  (n * precisionReuse).tmod m ≠ 0 ∧ 2 * (quo.natAbs % 10 ^ 18) = 10 ^ 18 ∧
    quo.natAbs / 10 ^ 18 % 2 = 0

/-- What `Quo` computes, with the correction of a near tie. -/
def halfEvenQuo (n m : Int) : Int :=
  let quo := (n * precisionReuse).tdiv m
  chopPrecisionAndRound quo + if nearTie n m then quo.sign else 0

variable {n m : ℤ}

theorem halfEvenQuo_of_nonneg (hn : 0 ≤ n) (hm : 0 < m) : HalfEven (n / m) (halfEvenQuo n m) := by
  have hscaled : 0 ≤ n * 10 ^ 18 := by omega
  have hdiv := mul_ediv_add_emod (n * 10 ^ 18) m
  have hrem := emod_nonneg (n * 10 ^ 18) hm.ne'
  have hlt := emod_lt_of_pos (n * 10 ^ 18) hm
  have hquo := ediv_nonneg hscaled hm.le
  simp only [halfEven_div hm, halfEvenQuo, nearTie, precisionReuse, tdiv_eq_ediv_of_nonneg hscaled,
    tmod_eq_emod_of_nonneg hscaled, chopPrecisionAndRound_eq hquo, decide_eq_true_eq]
  generalize n * 10 ^ 18 / m = quo at *
  generalize n * 10 ^ 18 % m = rem at *
  -- the digits `t` behind the 18th place are weighed against half a unit
  obtain ⟨k, t, ht, ht', rfl⟩ : ∃ k t, 0 ≤ t ∧ t < 10 ^ 18 ∧ quo = k * 10 ^ 18 + t :=
    ⟨quo / 10 ^ 18, quo % 10 ^ 18, by omega, by omega, by omega⟩
  have hexact : 10 ^ 18 * (n - k * m) = m * t + rem := by linarith
  have hk : (k * 10 ^ 18 + t) / 10 ^ 18 = k ∧ (k * 10 ^ 18 + t) % 10 ^ 18 = t ∧
      ((k * 10 ^ 18 + t).natAbs / 10 ^ 18 : Nat) = k := by omega
  have hnext : n - (k + 1) * m = n - k * m - m := by ring
  have hweight : 0 ≤ m * t ∧ m * t ≤ m * (10 ^ 18 - 1) :=
    ⟨mul_nonneg hm.le ht, mul_le_mul_of_nonneg_left (by omega) hm.le⟩
  rcases lt_trichotomy (2 * t) (10 ^ 18) with h | h | h
  · have hle : m * t ≤ m * (5 * 10 ^ 17 - 1) := mul_le_mul_of_nonneg_left (by omega) hm.le
    rw [if_pos (by omega), if_neg (by omega), hk.1, add_zero]
    omega
  · obtain rfl : t = 5 * 10 ^ 17 := by omega
    rw [sign_eq_one_of_pos (by omega)]
    split_ifs <;> (simp only [hk.1, hnext, add_zero]; omega)
  · have hge : m * (5 * 10 ^ 17 + 1) ≤ m * t := mul_le_mul_of_nonneg_left (by omega) hm.le
    rw [if_neg (by omega), if_neg (by omega), hk.1, add_zero, hnext]
    omega

theorem nearTie_neg : nearTie (-n) m = nearTie n m ∧ nearTie n (-m) = nearTie n m := by
  simp [nearTie]

theorem halfEvenQuo_neg :
    halfEvenQuo (-n) m = -halfEvenQuo n m ∧ halfEvenQuo n (-m) = -halfEvenQuo n m := by
  simp only [halfEvenQuo, nearTie_neg, Int.neg_mul, Int.neg_tdiv, Int.tdiv_neg,
    chopPrecisionAndRound_neg, Int.sign_neg]
  constructor <;> split_ifs <;> omega

theorem halfEven_halfEvenQuo (hm : m ≠ 0) : HalfEven (n / m) (halfEvenQuo n m) := by
  wlog hpos : 0 < m generalizing m
  · have h := this (neg_ne_zero.mpr hm) (by omega)
    rwa [halfEvenQuo_neg.2, cast_neg, div_neg, halfEven_neg] at h
  wlog hn : 0 ≤ n generalizing n
  · have h := this (n := -n) (by omega)
    rwa [halfEvenQuo_neg.1, cast_neg, neg_div, halfEven_neg] at h
  exact halfEvenQuo_of_nonneg hn hpos

/-- The quotient is negative and not exact. -/
def raised (n m : Int) : Bool := n.tmod m ≠ 0 ∧ n.tdiv m < 0

variable {a b : LegacyDec}

theorem quoRoundUp_eq (hb : b.i ≠ 0) : (a.quoRoundUp b : Result ε LegacyDec) =
    assertInValidRange ⟨⌈((a.i * precisionReuse : ℤ) / b.i : ℚ)⌉ +
      if raised (a.i * precisionReuse) b.i then 1 else 0⟩ := by
  simp only [quoRoundUp, if_neg hb, ceil_div hb, mul_pos_iff, raised, isNegative, decide_eq_decide,
    ne_eq, decide_eq_true_eq]
  generalize a.i * precisionReuse = n
  -- the remainder has the sign of the dividend, and the quotient that of both
  have hsigns {n : ℤ} (hn : 0 ≤ n) :
      0 ≤ n.tmod b.i ∧ (b.i < 0 ∧ n.tdiv b.i ≤ 0 ∨ 0 < b.i ∧ 0 ≤ n.tdiv b.i) :=
    ⟨Int.tmod_nonneg _ hn, (lt_or_gt_of_ne hb).imp
      (fun h => ⟨h, Int.tdiv_nonpos_of_nonneg_of_nonpos hn h.le⟩)
      (fun h => ⟨h, Int.tdiv_nonneg hn h.le⟩)⟩
  rcases le_total 0 n with hn | hn
  · have := hsigns hn
    split_ifs <;> congr 2 <;> omega
  · have := hsigns (neg_nonneg.mpr hn)
    rw [Int.neg_tmod, Int.neg_tdiv] at this
    split_ifs <;> congr 2 <;> omega

/-- The quotients are the exact quotient, rounded half to even, toward zero and up, wherever
that is in the range. -/
@[mk_iff] structure RoundedQuotients (ε : Type) (a b : LegacyDec) : Prop where
  quo : ∀ r, HalfEven (value a.i / value b.i * precisionReuse) r → isInValidRange ⟨r⟩ →
    (a.quo b : Result ε LegacyDec) = .ok ⟨r⟩
  quoTruncate : ∀ r, r = towardZero (value a.i / value b.i * precisionReuse) →
    isInValidRange ⟨r⟩ → (a.quoTruncate b : Result ε LegacyDec) = .ok ⟨r⟩
  quoRoundUp : ∀ r, r = ⌈value a.i / value b.i * precisionReuse⌉ → isInValidRange ⟨r⟩ →
    (a.quoRoundUp b : Result ε LegacyDec) = .ok ⟨r⟩

theorem forall_assertInValidRange {v c : Int} : (∀ r, r = c → isInValidRange ⟨r⟩ →
    (assertInValidRange ⟨v⟩ : Result ε LegacyDec) = .ok ⟨r⟩) ↔ (isInValidRange ⟨c⟩ → v = c) := by
  constructor
  · intro h hc
    exact (LegacyDec.mk.inj (assertInValidRange_ok (h c rfl hc))).symm
  · rintro h r rfl hr
    rw [h hr, assertInValidRange, if_pos hr]

theorem chopPrecisionAndRound_eq_halfEvenQuo :
    chopPrecisionAndRound ((n * precisionReuse).tdiv m) = halfEvenQuo n m ↔ ¬ nearTie n m := by
  rw [halfEvenQuo]
  split_ifs with h
  · have hquo : (n * precisionReuse).tdiv m ≠ 0 := by
      intro hzero
      simp [nearTie, hzero] at h
    have hsign := mt sign_eq_zero_iff_zero.mp hquo
    simp only [h, not_true_eq_false, iff_false]
    omega
  · simp [h]

/-- The quotients are right unless the quotient is a near tie, or negative and not exact. -/
theorem quotients_rounded_iff (hb : b.i ≠ 0) : RoundedQuotients ε a b ↔
    ¬ (nearTie (a.i * precisionReuse) b.i ∧ isInValidRange ⟨halfEvenQuo (a.i * precisionReuse) b.i⟩) ∧
    ¬ (raised (a.i * precisionReuse) b.i ∧
      isInValidRange ⟨⌈value a.i / value b.i * precisionReuse⌉⟩) := by
  have hexact : value a.i / value b.i * precisionReuse = (a.i * precisionReuse : ℤ) / (b.i : ℚ) := by
    unfold value
    push_cast
    field_simp
  have hhalf (r : ℤ) : HalfEven ((a.i * precisionReuse : ℤ) / b.i) r ↔
      r = halfEvenQuo (a.i * precisionReuse) b.i :=
    ⟨fun h => h.unique (halfEven_halfEvenQuo hb), fun h => h ▸ halfEven_halfEvenQuo hb⟩
  rw [roundedQuotients_iff]
  simp only [hexact, hhalf, quo, quoTruncate, if_neg hb, quoRoundUp_eq hb, towardZero_div hb,
    forall_assertInValidRange, squaredPrecisionReuse, ← mul_assoc,
    chopPrecisionAndRound_eq_halfEvenQuo]
  have hraised {c : ℤ} {x : Bool} : c + (if x then 1 else 0) = c ↔ ¬ x := by
    split_ifs with h <;> simp [h]
  simp only [hraised]
  tauto

/-- One third is rounded as it should be. -/
theorem quotients_rounded_third :
    ∃ a b : LegacyDec, b.i ≠ 0 ∧ nearTie (a.i * precisionReuse) b.i = false ∧
      RoundedQuotients Unit a b :=
  ⟨⟨10 ^ 18⟩, ⟨3 * 10 ^ 18⟩, by decide, by decide, (quotients_rounded_iff (by decide)).mpr
    ⟨fun h => absurd h.1 (by decide), fun h => absurd h.1 (by decide)⟩⟩

/-- A negative third is raised by one unit too many, and a number above one half is rounded to
zero. -/
theorem quotients_misrounded :
    (quoRoundUp ⟨10 ^ 18⟩ ⟨-3 * 10 ^ 18⟩ : Result Unit _) = .ok ⟨-333333333333333332⟩ ∧
      (quo ⟨1⟩ ⟨2 * 10 ^ 18 - 1⟩ : Result Unit _) = .ok ⟨0⟩ ∧
      ¬ RoundedQuotients Unit ⟨10 ^ 18⟩ ⟨-3 * 10 ^ 18⟩ := by
  refine ⟨rfl, rfl, fun h => ?_⟩
  have hceil : -333333333333333333 = ⌈value (10 ^ 18) / value (-3 * 10 ^ 18) * precisionReuse⌉ := by
    rw [eq_comm, ceil_eq_iff]
    norm_num [value, precisionReuse]
  have hup := Except.ok.inj (h.quoRoundUp _ hceil (by decide))
  exact absurd hup (by decide)

end CosmosSDK.Math.LegacyDec
