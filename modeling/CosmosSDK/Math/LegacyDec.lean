import CosmosSDK.Math.Int
import Mathlib.Tactic.Ring

/-!
# Decimals of 18 places

`math/legacy_dec.go`: an integer `i` stands for `i / 10^18`.  The operations work on
the integer, chop the digits that are too many and panic when the result leaves the
range of `2^256` in whole numbers.
-/

namespace CosmosSDK.Math

structure LegacyDec where
  i : Int
deriving DecidableEq, Repr

def precisionReuse : Int := 10 ^ 18

def fivePrecision : Int := precisionReuse.tdiv 2

def squaredPrecisionReuse : Int := precisionReuse * precisionReuse

/-- `chopPrecisionAndRound` of a number that is not negative: bankers rounding. -/
def chopNonNegative (d : Int) : Int :=
  let quo := d.tdiv precisionReuse
  let rem := d.tmod precisionReuse
  if rem = 0 then quo
  else if rem < fivePrecision then quo
  else if fivePrecision < rem then quo + 1
  else if quo % 2 = 0 then quo
  else quo + 1

def chopPrecisionAndRound (d : Int) : Int :=
  if d < 0 then -chopNonNegative (-d) else chopNonNegative d

def chopPrecisionAndTruncate (d : Int) : Int := d.tdiv precisionReuse

namespace LegacyDec

variable {ε : Type}

/-- `LegacyZeroDec`. -/
def zero : LegacyDec := ⟨0⟩

/-- `LegacyOneDec`. -/
def one : LegacyDec := ⟨precisionReuse⟩

/-- `LegacyNewDecFromInt`. -/
def newDecFromInt (i : Int) : LegacyDec := ⟨i * precisionReuse⟩

variable (d : LegacyDec)

def isZero : Bool := d.i = 0

def isNegative : Bool := d.i < 0

def isPositive : Bool := 0 < d.i

variable (d d2 : LegacyDec)

def gt : Bool := d2.i < d.i

def lt : Bool := d.i < d2.i

def upperLimit : Int := 2 ^ 256 * precisionReuse - 1

def isInValidRange : Bool := -upperLimit ≤ d.i && d.i ≤ upperLimit

def assertInValidRange : Result ε LegacyDec :=
  if d.isInValidRange then .ok d else .error (.panic "Int overflow")

def add : Result ε LegacyDec := assertInValidRange ⟨d.i + d2.i⟩

def sub : Result ε LegacyDec := assertInValidRange ⟨d.i - d2.i⟩

def mul : Result ε LegacyDec :=
  assertInValidRange ⟨chopPrecisionAndRound (d.i * d2.i)⟩

def mulInt (i : Int) : Result ε LegacyDec := assertInValidRange ⟨d.i * i⟩

def quo : Result ε LegacyDec :=
  if d2.i = 0 then .error (.panic "division by zero")
  else assertInValidRange ⟨chopPrecisionAndRound ((d.i * squaredPrecisionReuse).tdiv d2.i)⟩

def quoTruncate : Result ε LegacyDec :=
  if d2.i = 0 then .error (.panic "division by zero")
  else assertInValidRange ⟨(d.i * precisionReuse).tdiv d2.i⟩

/-- `QuoRoundUp`: a truncated quotient that is not exact is raised by one, unless it was
truncated upwards already. -/
def quoRoundUp : Result ε LegacyDec :=
  if d2.i = 0 then .error (.panic "division by zero")
  else
    let quo := (d.i * precisionReuse).tdiv d2.i
    let rem := (d.i * precisionReuse).tmod d2.i
    if (0 < rem ∧ decide (quo < 0) = d2.isNegative) ∨ (rem < 0 ∧ decide (quo < 0) ≠ d2.isNegative)
    then assertInValidRange ⟨quo + 1⟩
    else assertInValidRange ⟨quo⟩

def quoInt (i : Int) : Result ε LegacyDec :=
  if i = 0 then .error (.panic "division by zero") else .ok ⟨d.i.tdiv i⟩

def truncateInt : Result ε Int :=
  let chopped := chopPrecisionAndTruncate d.i
  if bigIntOverflows chopped then .error (.panic "NewIntFromBigInt() out of bound") else .ok chopped

/-! ## Results of the operations -/

variable {d d' d2 : LegacyDec} {i n : Int}

theorem assertInValidRange_ok (h : (assertInValidRange d : Result ε LegacyDec) = .ok d') :
    d' = d := by
  unfold assertInValidRange at h
  split at h
  · exact (Except.ok.inj h).symm
  · simp at h

theorem add_ok (h : (d.add d2 : Result ε LegacyDec) = .ok d') : d'.i = d.i + d2.i := by
  rw [assertInValidRange_ok h]

theorem sub_ok (h : (d.sub d2 : Result ε LegacyDec) = .ok d') : d'.i = d.i - d2.i := by
  rw [assertInValidRange_ok h]

theorem mulInt_ok (h : (d.mulInt i : Result ε LegacyDec) = .ok d') : d'.i = d.i * i := by
  rw [assertInValidRange_ok h]

theorem quo_ok (h : (d.quo d2 : Result ε LegacyDec) = .ok d') :
    d2.i ≠ 0 ∧ d'.i = chopPrecisionAndRound ((d.i * squaredPrecisionReuse).tdiv d2.i) := by
  unfold quo at h
  split at h
  · simp at h
  · rw [assertInValidRange_ok h]
    exact ⟨‹_›, rfl⟩

theorem quoTruncate_ok (h : (d.quoTruncate d2 : Result ε LegacyDec) = .ok d') :
    d2.i ≠ 0 ∧ d'.i = (d.i * precisionReuse).tdiv d2.i := by
  unfold quoTruncate at h
  split at h
  · simp at h
  · rw [assertInValidRange_ok h]
    exact ⟨‹_›, rfl⟩

theorem quoInt_ok (h : (d.quoInt i : Result ε LegacyDec) = .ok d') : i ≠ 0 ∧ d'.i = d.i.tdiv i := by
  unfold quoInt at h
  split at h
  · simp at h
  · cases h
    exact ⟨‹_›, rfl⟩

theorem truncateInt_ok (h : (d.truncateInt : Result ε Int) = .ok n) :
    n = d.i.tdiv precisionReuse := by
  simp only [truncateInt] at h
  split at h
  · simp at h
  · exact (Except.ok.inj h).symm

/-! ## Rounding -/

theorem precisionReuse_pos : 0 < precisionReuse := by decide

theorem fivePrecision_eq : fivePrecision = 500000000000000000 := by decide

theorem chopPrecisionAndRound_eq {d : Int} (hd : 0 ≤ d) : chopPrecisionAndRound d =
    if 2 * (d % 10 ^ 18) < 10 ^ 18 ∨ 2 * (d % 10 ^ 18) = 10 ^ 18 ∧ d / 10 ^ 18 % 2 = 0 then d / 10 ^ 18
    else d / 10 ^ 18 + 1 := by
  rw [chopPrecisionAndRound, if_neg (by omega), chopNonNegative]
  simp only [Int.tdiv_eq_ediv_of_nonneg hd, Int.tmod_eq_emod_of_nonneg hd, fivePrecision_eq,
    precisionReuse]
  split_ifs <;> omega

theorem chopPrecisionAndRound_ge {d : Int} (hd : 0 ≤ d) :
    d / precisionReuse ≤ chopPrecisionAndRound d := by
  rw [chopPrecisionAndRound_eq hd, precisionReuse]
  split_ifs <;> omega

theorem chopPrecisionAndRound_nonneg {d : Int} (hd : 0 ≤ d) : 0 ≤ chopPrecisionAndRound d :=
  le_trans (Int.ediv_nonneg hd precisionReuse_pos.le) (chopPrecisionAndRound_ge hd)

theorem chopPrecisionAndRound_near {d : Int} (hd : 0 ≤ d) :
    2 * (chopPrecisionAndRound d * precisionReuse) ≤ 2 * d + precisionReuse := by
  rw [chopPrecisionAndRound_eq hd, precisionReuse]
  split_ifs <;> omega

theorem chopPrecisionAndRound_mono {c d : Int} (hc : 0 ≤ c) (h : c ≤ d) :
    chopPrecisionAndRound c ≤ chopPrecisionAndRound d := by
  rw [chopPrecisionAndRound_eq hc, chopPrecisionAndRound_eq (hc.trans h)]
  split_ifs <;> omega

theorem chopPrecisionAndRound_mul (hn : 0 ≤ n) :
    chopPrecisionAndRound (n * precisionReuse) = n := by
  rw [chopPrecisionAndRound_eq (Int.mul_nonneg hn precisionReuse_pos.le), precisionReuse]
  split_ifs <;> omega

/-- Half a unit below a whole number is rounded up to it: the digits before are odd. -/
theorem chopPrecisionAndRound_tie (hn : 0 < n) :
    chopPrecisionAndRound (n * squaredPrecisionReuse - fivePrecision) = n * precisionReuse := by
  simp only [fivePrecision_eq, squaredPrecisionReuse, precisionReuse]
  rw [chopPrecisionAndRound_eq (by omega)]
  split_ifs <;> omega

theorem truncateInt_nonneg (h : (d.truncateInt : Result ε Int) = .ok n) (hd : 0 ≤ d.i) : 0 ≤ n := by
  rw [truncateInt_ok h]
  exact Int.tdiv_nonneg hd precisionReuse_pos.le

theorem quo_nonneg (h : (d.quo d2 : Result ε LegacyDec) = .ok d') (hd : 0 ≤ d.i) (hd2 : 0 ≤ d2.i) :
    0 ≤ d'.i := by
  rw [(quo_ok h).2]
  exact chopPrecisionAndRound_nonneg
    (Int.tdiv_nonneg (Int.mul_nonneg hd (by decide)) hd2)

/-- A rounded quotient that is truncated to a whole number is at least the exact
quotient, truncated. -/
theorem quo_truncate_ge (hquo : (d.quo d2 : Result ε LegacyDec) = .ok d')
    (htrunc : (d'.truncateInt : Result ε Int) = .ok n) (hd : 0 ≤ d.i) (hd2 : 0 < d2.i) :
    d.i / d2.i ≤ n := by
  have hscaled : 0 ≤ d.i * squaredPrecisionReuse := Int.mul_nonneg hd (by decide)
  have hd' : 0 ≤ d'.i := quo_nonneg hquo hd hd2.le
  rw [truncateInt_ok htrunc, Int.tdiv_eq_ediv_of_nonneg hd',
    Int.le_ediv_iff_mul_le precisionReuse_pos, (quo_ok hquo).2, Int.tdiv_eq_ediv_of_nonneg hscaled]
  refine le_trans ?_ (chopPrecisionAndRound_ge (Int.ediv_nonneg hscaled hd2.le))
  rw [Int.le_ediv_iff_mul_le precisionReuse_pos, Int.le_ediv_iff_mul_le hd2]
  calc d.i / d2.i * precisionReuse * precisionReuse * d2.i
      = d.i / d2.i * d2.i * squaredPrecisionReuse := by unfold squaredPrecisionReuse; ring
    _ ≤ d.i * squaredPrecisionReuse :=
        Int.mul_le_mul_of_nonneg_right (Int.ediv_mul_le _ hd2.ne') (by decide)

end LegacyDec

end CosmosSDK.Math
