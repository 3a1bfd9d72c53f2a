import CosmosSDK.Staking.Validator

/-!
# The exchange rate of a validator

What `AddTokensFromDel` and `RemoveDelShares` do to the value of the shares that stay.
`SharesFromTokens` truncates, so a purchase favours the pool.  `TokensFromShares` rounds
to 18 places before the whole tokens are taken, so a value less than half a unit of the
last place below a whole number is paid in full, and the shares that stay lose the
difference.
-/

namespace CosmosSDK.Staking.Validator

open Math Fallible LegacyDec ProRata

/-- No number of shares has a smaller value after than before, where both are in range. -/
def KeepsValue (v v' : Validator) : Prop :=
  ∀ s : LegacyDec, 0 ≤ s.i → ∀ worth worth', v.tokensFromShares s = .ok worth →
    v'.tokensFromShares s = .ok worth' → worth.i ≤ worth'.i

/-- The value of `k` shares is not within half a unit of the last place below a whole
number of tokens. -/
def ClearOfNext (v : Validator) (k : LegacyDec) : Prop :=
  v.delegatorShares.i <
    2 * precisionReuse * (v.delegatorShares.i - k.i * v.tokens % v.delegatorShares.i)

/-- The value of `s` shares before the range is checked. -/
def valueOf (v : Validator) (s : LegacyDec) : Int :=
  chopPrecisionAndRound ((s.i * v.tokens * squaredPrecisionReuse) / v.delegatorShares.i)

variable {v v' : Validator} {worth issued k : LegacyDec} {amount paid s n : Int}

theorem tokensFromShares_iff {s : LegacyDec} (hs : 0 ≤ s.i) (hT : 0 ≤ v.tokens)
    (hS : 0 < v.delegatorShares.i) : v.tokensFromShares s = .ok worth ↔
      (LegacyDec.mk (s.i * v.tokens)).isInValidRange ∧
        (LegacyDec.mk (v.valueOf s)).isInValidRange ∧ worth = ⟨v.valueOf s⟩ := by
  have hscaled : 0 ≤ s.i * v.tokens * squaredPrecisionReuse :=
    Int.mul_nonneg (Int.mul_nonneg hs hT) (by decide)
  simp only [tokensFromShares, LegacyDec.mulInt, LegacyDec.quo, LegacyDec.assertInValidRange]
  by_cases hproduct : (LegacyDec.mk (s.i * v.tokens)).isInValidRange
  · grind [ok_bind, valueOf]
  · rw [if_neg hproduct, error_bind]
    exact ⟨fun h => (nomatch h), fun h => absurd h.1 hproduct⟩

theorem keepsValue_of_rate (hT : 0 ≤ v.tokens) (hS : 0 < v.delegatorShares.i) (hT' : 0 ≤ v'.tokens)
    (hS' : 0 < v'.delegatorShares.i)
    (hrate : v.tokens * v'.delegatorShares.i ≤ v'.tokens * v.delegatorShares.i) :
    KeepsValue v v' := by
  intro s hs worth worth' hworth hworth'
  rw [((tokensFromShares_iff hs hT hS).mp hworth).2.2,
    ((tokensFromShares_iff hs hT' hS').mp hworth').2.2]
  have hfactor : 0 ≤ s.i * squaredPrecisionReuse := Int.mul_nonneg hs (by decide)
  have hscaled : 0 ≤ s.i * v.tokens * squaredPrecisionReuse :=
    Int.mul_nonneg (Int.mul_nonneg hs hT) (by decide)
  apply chopPrecisionAndRound_mono (Int.ediv_nonneg hscaled hS.le)
  rw [Int.le_ediv_iff_mul_le hS']
  have hquot := Int.ediv_mul_le (s.i * v.tokens * squaredPrecisionReuse) hS.ne'
  nlinarith [Int.mul_le_mul_of_nonneg_left hrate hfactor]

theorem addTokensFromDel_shares (hS : 0 < v.delegatorShares.i) (ha : 0 ≤ amount)
    (h : v.addTokensFromDel amount = .ok (v', issued)) :
    issued.i = v.delegatorShares.i * amount / v.tokens ∧ v'.tokens = v.tokens + amount ∧
      v'.delegatorShares.i = v.delegatorShares.i + issued.i := by
  obtain ⟨hissued, rfl⟩ := addTokensFromDel_ok h
  rcases issuedShares_ok hissued with ⟨hzero, -⟩ | ⟨-, hissued⟩
  · omega
  · rw [(sharesFromTokens_ok hissued).2, Int.tdiv_eq_ediv_of_nonneg (Int.mul_nonneg hS.le ha)]
    exact ⟨rfl, rfl, rfl⟩

theorem addTokensFromDel_keepsValue (hT : 0 < v.tokens) (hS : 0 < v.delegatorShares.i)
    (ha : 0 ≤ amount) (h : v.addTokensFromDel amount = .ok (v', issued)) : KeepsValue v v' := by
  obtain ⟨hissued, htokens, hshares⟩ := addTokensFromDel_shares hS ha h
  have hnonneg : 0 ≤ issued.i := by
    rw [hissued]
    exact Int.ediv_nonneg (Int.mul_nonneg hS.le ha) hT.le
  apply keepsValue_of_rate hT.le hS (by omega) (by omega)
  rw [htokens, hshares, hissued]
  exact purchase_keeps_rate hT

/-! ## What a removal pays -/

theorem tokensPaid (hk : 0 ≤ k.i) (hT : 0 ≤ v.tokens) (hS : 0 < v.delegatorShares.i)
    (hworth : v.tokensFromShares k = .ok worth)
    (htrunc : (worth.truncateInt : StakingResult Int) = .ok paid) :
    paid = v.valueOf k / precisionReuse := by
  have hscaled : 0 ≤ k.i * v.tokens * squaredPrecisionReuse :=
    Int.mul_nonneg (Int.mul_nonneg hk hT) (by decide)
  rw [truncateInt_ok htrunc, ((tokensFromShares_iff hk hT hS).mp hworth).2.2]
  exact Int.tdiv_eq_ediv_of_nonneg
    (chopPrecisionAndRound_nonneg (Int.ediv_nonneg hscaled hS.le))

/-- A removal pays more than the value exactly when the value is rounded up to a whole
number. -/
theorem paid_le_value_iff (hk : 0 ≤ k.i) (hT : 0 ≤ v.tokens) (hS : 0 < v.delegatorShares.i) :
    v.valueOf k / precisionReuse ≤ k.i * v.tokens / v.delegatorShares.i ↔ v.ClearOfNext k := by
  have hvalue : 0 ≤ k.i * v.tokens := Int.mul_nonneg hk hT
  unfold ClearOfNext valueOf
  generalize hS' : v.delegatorShares.i = S at *
  generalize k.i * v.tokens = value at *
  have hdiv := Int.mul_ediv_add_emod value S
  have hscaled : 0 ≤ value * squaredPrecisionReuse / S :=
    Int.ediv_nonneg (Int.mul_nonneg hvalue (by decide)) hS.le
  have hfloor := Int.ediv_mul_le (value * squaredPrecisionReuse) hS.ne'
  have hq : 0 ≤ value / S := Int.ediv_nonneg hvalue hS.le
  generalize value / S = q at *
  generalize value % S = r at *
  rw [← not_lt, ← not_iff_not, not_not, not_lt, Int.lt_iff_add_one_le,
    Int.le_ediv_iff_mul_le precisionReuse_pos]
  have hP := precisionReuse_pos
  constructor
  · intro hpaid
    have hnear := chopPrecisionAndRound_near hscaled
    have hscale : 2 * ((q + 1) * precisionReuse * precisionReuse) * S ≤
        (2 * (value * squaredPrecisionReuse / S) + precisionReuse) * S := by
      apply Int.mul_le_mul_of_nonneg_right _ hS.le
      have := Int.mul_le_mul_of_nonneg_right hpaid hP.le
      omega
    apply le_of_mul_le_mul_left _ hP
    rw [squaredPrecisionReuse] at hfloor hscale
    subst hdiv
    linarith
  · intro hclose
    have htie := chopPrecisionAndRound_tie (n := q + 1) (by omega)
    have hfive : 2 * fivePrecision = precisionReuse := by decide
    rw [← htie]
    apply chopPrecisionAndRound_mono
    · have : squaredPrecisionReuse ≤ (q + 1) * squaredPrecisionReuse :=
        le_mul_of_one_le_left (by decide) (by omega)
      have : fivePrecision ≤ squaredPrecisionReuse := by decide
      omega
    · rw [Int.le_ediv_iff_mul_le hS]
      have := Int.mul_le_mul_of_nonneg_left hclose hP.le
      have hhalf : 2 * fivePrecision * S = precisionReuse * S := by rw [hfive]
      subst hdiv
      rw [squaredPrecisionReuse]
      linarith

/-- The record after a removal that leaves shares, and when its rate has not fallen. -/
theorem removeDelShares_rate (hT : 0 < v.tokens) (hk : 0 ≤ k.i) (hlt : k.i < v.delegatorShares.i)
    (h : v.removeDelShares k = .ok (v', paid)) :
    0 ≤ v'.tokens ∧ 0 ≤ paid ∧ v'.tokens = v.tokens - paid ∧
      v'.delegatorShares.i = v.delegatorShares.i - k.i ∧
      (v.tokens * v'.delegatorShares.i ≤ v'.tokens * v.delegatorShares.i ↔ v.ClearOfNext k) := by
  have hS : 0 < v.delegatorShares.i := by omega
  obtain ⟨rfl, ⟨_, -⟩ | ⟨-, _, _, hworth, htrunc⟩⟩ := removeDelShares_ok h
  · omega
  · have hpaid := tokensPaid hk hT.le hS hworth htrunc
    have hnonneg : 0 ≤ paid :=
      truncateInt_nonneg htrunc (by
        obtain ⟨_, hproduct, hquo⟩ := bind_eq_ok.mp hworth
        apply quo_nonneg hquo _ hS.le
        rw [mulInt_ok hproduct]
        exact Int.mul_nonneg hk hT.le)
    exact ⟨by dsimp only; omega, hnonneg, rfl, rfl,
      by rw [redemption_keeps_rate_iff hS, hpaid, paid_le_value_iff hk hT.le hS]⟩

theorem valueOf_multiple (hs : s = n * v.delegatorShares.i) (hn : 0 ≤ n) (hT : 0 ≤ v.tokens)
    (hS : 0 < v.delegatorShares.i) : v.valueOf ⟨s⟩ = n * v.tokens * precisionReuse := by
  have hcancel : s * v.tokens * squaredPrecisionReuse =
      n * v.tokens * precisionReuse * precisionReuse * v.delegatorShares.i := by
    rw [hs, squaredPrecisionReuse]
    ring
  rw [valueOf, hcancel, Int.mul_ediv_cancel _ hS.ne']
  exact chopPrecisionAndRound_mul
    (Int.mul_nonneg (Int.mul_nonneg hn hT) precisionReuse_pos.le)

theorem tokensFromShares_multiple (hs : s = n * v.delegatorShares.i) (hn : 0 ≤ n)
    (hT : 0 ≤ v.tokens) (hS : 0 < v.delegatorShares.i)
    (hproduct : s * v.tokens ≤ LegacyDec.upperLimit)
    (hvalue : n * v.tokens * precisionReuse ≤ LegacyDec.upperLimit) :
    v.tokensFromShares ⟨s⟩ = .ok ⟨n * v.tokens * precisionReuse⟩ := by
  have hs0 : 0 ≤ s := by
    rw [hs]
    exact Int.mul_nonneg hn hS.le
  have hproduct0 : 0 ≤ s * v.tokens := Int.mul_nonneg hs0 hT
  have hvalue0 := Int.mul_nonneg (Int.mul_nonneg hn hT) precisionReuse_pos.le
  rw [tokensFromShares_iff hs0 hT hS, valueOf_multiple hs hn hT hS]
  simp only [LegacyDec.isInValidRange, Bool.and_eq_true, decide_eq_true_eq]
  exact ⟨⟨by omega, hproduct⟩, ⟨by omega, hvalue⟩, trivial⟩

/-- Where the rate falls, a number of shares large enough to show it has a smaller
value. -/
theorem not_keepsValue_of_rate (hT : 0 ≤ v.tokens) (hS : precisionReuse ≤ v.delegatorShares.i)
    (hT' : 0 ≤ v'.tokens) (hle : v'.tokens ≤ v.tokens) (hS' : 0 < v'.delegatorShares.i)
    (hrange : v'.delegatorShares.i * v.delegatorShares.i * v.tokens ≤ upperLimit)
    (hrate : v'.tokens * v.delegatorShares.i < v.tokens * v'.delegatorShares.i) :
    ¬ KeepsValue v v' := by
  have hP := precisionReuse_pos
  have hbefore : v'.delegatorShares.i * v.tokens * precisionReuse ≤ upperLimit := by
    apply le_trans _ hrange
    nlinarith [Int.mul_le_mul_of_nonneg_left hS (Int.mul_nonneg hS'.le hT)]
  have hafter : v.delegatorShares.i * v'.tokens * precisionReuse <
      v'.delegatorShares.i * v.tokens * precisionReuse := by
    apply Int.mul_lt_mul_of_pos_right _ hP
    linarith
  have hproduct : v'.delegatorShares.i * v.delegatorShares.i * v'.tokens ≤ upperLimit := by
    apply le_trans _ hrange
    exact Int.mul_le_mul_of_nonneg_left hle (Int.mul_nonneg hS'.le (hP.le.trans hS))
  intro hkeeps
  have := hkeeps ⟨v'.delegatorShares.i * v.delegatorShares.i⟩
    (Int.mul_nonneg hS'.le (hP.le.trans hS)) _ _
    (tokensFromShares_multiple rfl hS'.le hT (hP.trans_le hS) hrange hbefore)
    (tokensFromShares_multiple (Int.mul_comm _ _) (hP.le.trans hS) hT' hS' hproduct
      (hafter.le.trans hbefore))
  dsimp only at this
  omega

theorem removeDelShares_keepsValue_iff (hT : 0 < v.tokens) (hk : 0 ≤ k.i)
    (hlt : k.i < v.delegatorShares.i) (h : v.removeDelShares k = .ok (v', paid)) :
    (v.ClearOfNext k → KeepsValue v v') ∧
      ((v.delegatorShares.i - k.i) * v.delegatorShares.i * v.tokens ≤ upperLimit →
        KeepsValue v v' → v.ClearOfNext k) := by
  have hS : 0 < v.delegatorShares.i := by omega
  obtain ⟨hT', _, _, hshares, hrate⟩ := removeDelShares_rate hT hk hlt h
  constructor
  · intro hclear
    exact keepsValue_of_rate hT.le hS hT' (by omega) (hrate.mpr hclear)
  · intro hrange hkeeps
    by_contra hclose
    have hfalls := mt hrate.mp hclose
    -- a value that is rounded up needs a unit of the last place, so there are that many shares
    have hmany : precisionReuse ≤ v.delegatorShares.i := by
      have hmod := Int.emod_lt_of_pos (k.i * v.tokens) hS
      simp only [ClearOfNext, precisionReuse] at hclose ⊢
      omega
    apply not_keepsValue_of_rate hT.le hmany hT' (by omega) (by omega) _ (by omega) hkeeps
    rw [hshares]
    exact hrange

/-- No operation lowers the value of the shares that stay, unless the removed shares are
worth less than half a unit of the last place under a whole number of tokens; then it
falls. -/
theorem exchangeRate_never_falls_iff (v : Validator) (hT : 0 < v.tokens)
    (hS : 0 < v.delegatorShares.i) :
    (∀ amount v' issued, 0 ≤ amount → v.addTokensFromDel amount = .ok (v', issued) →
      KeepsValue v v') ∧
    (∀ k v' paid, 0 ≤ k.i → k.i < v.delegatorShares.i → v.removeDelShares k = .ok (v', paid) →
      (v.ClearOfNext k → KeepsValue v v') ∧
      ((v.delegatorShares.i - k.i) * v.delegatorShares.i * v.tokens ≤ upperLimit →
        (KeepsValue v v' ↔ v.ClearOfNext k))) := by
  constructor
  · intro amount v' issued ha h
    exact addTokensFromDel_keepsValue hT hS ha h
  · intro k v' paid hk hlt h
    obtain ⟨hkeeps, hconverse⟩ := removeDelShares_keepsValue_iff hT hk hlt h
    exact ⟨hkeeps, fun hrange => ⟨hconverse hrange, hkeeps⟩⟩

def halved : Validator :=
  { new [] ⟨"", []⟩ ⟨"", "", "", "", "", none⟩ with
    tokens := 2, delegatorShares := .newDecFromInt 4 }

instance (v : Validator) (k : LegacyDec) : Decidable (v.ClearOfNext k) :=
  inferInstanceAs (Decidable (_ < _))

theorem halved_keepsValue :
    (∃ v' issued, halved.addTokensFromDel 3 = .ok (v', issued) ∧ KeepsValue halved v') ∧
      ∃ v' paid, halved.removeDelShares (.newDecFromInt 1) = .ok (v', paid) ∧
        KeepsValue halved v' := by
  have hrate := exchangeRate_never_falls_iff halved (by decide) (by decide)
  constructor
  · exact ⟨_, _, rfl, hrate.1 3 _ _ (by decide) rfl⟩
  · exact ⟨_, _, rfl, (hrate.2 (.newDecFromInt 1) _ _ (by decide) (by decide) rfl).1 (by decide)⟩

/-- Removing a little less than the half of the shares pays one whole token, and three
units of the shares that stay fall from two units of value to one. -/
theorem halved_value_falls : ∃ v', halved.removeDelShares ⟨1999999999999999999⟩ = .ok (v', 1) ∧
      halved.tokensFromShares ⟨3⟩ = .ok ⟨2⟩ ∧ v'.tokensFromShares ⟨3⟩ = .ok ⟨1⟩ :=
  ⟨_, rfl, rfl, rfl⟩

/-! ## Delegating and undelegating -/

theorem addTokensFromDel_range (h : v.addTokensFromDel amount = .ok (v', issued)) :
    (v.tokens + amount).natAbs < 2 ^ maxBitLen ∧ v'.delegatorShares.isInValidRange := by
  obtain ⟨_, _, h⟩ := bind_eq_ok.mp h
  obtain ⟨_, htokens, h⟩ := bind_eq_ok.mp h
  obtain ⟨_, hshares, h⟩ := bind_eq_ok.mp h
  cases h
  refine ⟨(inRange_iff.mp htokens).1, ?_⟩
  unfold add assertInValidRange at hshares
  split at hshares
  · cases hshares
    assumption
  · cases hshares

theorem valueOf_le (hT : 0 ≤ v.tokens) (hk : 0 ≤ k.i) (hS : 0 < v.delegatorShares.i)
    (hworth : k.i * v.tokens ≤ amount * v.delegatorShares.i) :
    0 ≤ v.valueOf k ∧ v.valueOf k ≤ amount * precisionReuse := by
  have hP := precisionReuse_pos
  have hproduct := Int.mul_nonneg hk hT
  have hamount : 0 ≤ amount := nonneg_of_mul_nonneg_left (hproduct.trans hworth) hS
  have hscaled : 0 ≤ k.i * v.tokens * squaredPrecisionReuse / v.delegatorShares.i :=
    Int.ediv_nonneg (Int.mul_nonneg hproduct (by decide)) hS.le
  refine ⟨chopPrecisionAndRound_nonneg hscaled, ?_⟩
  rw [← chopPrecisionAndRound_mul (Int.mul_nonneg hamount hP.le)]
  apply chopPrecisionAndRound_mono hscaled
  apply Int.ediv_le_of_le_mul hS
  rw [squaredPrecisionReuse]
  linarith [Int.mul_le_mul_of_nonneg_right hworth (Int.mul_nonneg hP.le hP.le)]

theorem removeDelShares_of_le (hT : 0 ≤ v.tokens) (hk : 0 ≤ k.i) (hlt : k.i < v.delegatorShares.i)
    (hle : amount ≤ v.tokens) (hworth : k.i * v.tokens ≤ amount * v.delegatorShares.i)
    (htokens : v.tokens < 2 ^ 256) (hshares : v.delegatorShares.i ≤ upperLimit)
    (hrange : k.i * v.tokens ≤ upperLimit) :
    ∃ paid ≤ amount, v.removeDelShares k = .ok
      ({ v with tokens := v.tokens - paid, delegatorShares := ⟨v.delegatorShares.i - k.i⟩ }, paid) := by
  have hS : 0 < v.delegatorShares.i := by omega
  have hP := precisionReuse_pos
  have hlimit : upperLimit = 2 ^ 256 * precisionReuse - 1 := rfl
  have hproduct0 : 0 ≤ k.i * v.tokens := Int.mul_nonneg hk hT
  obtain ⟨hvalue0, hvalue⟩ := valueOf_le hT hk hS hworth
  have hpaid0 : 0 ≤ v.valueOf k / precisionReuse := Int.ediv_nonneg hvalue0 hP.le
  have hpaid : v.valueOf k / precisionReuse ≤ amount := Int.ediv_le_of_le_mul hP hvalue
  have hvalueLimit : v.valueOf k ≤ upperLimit := by
    have := Int.mul_le_mul_of_nonneg_right (show amount ≤ 2 ^ 256 - 1 by omega) hP.le
    linarith
  have hsub : (LegacyDec.mk (v.delegatorShares.i - k.i)).isInValidRange := by
    simp only [LegacyDec.isInValidRange, Bool.and_eq_true, decide_eq_true_eq]
    omega
  have hok : v.tokensFromShares k = .ok ⟨v.valueOf k⟩ := by
    rw [tokensFromShares_iff hk hT hS]
    simp only [LegacyDec.isInValidRange, Bool.and_eq_true, decide_eq_true_eq]
    exact ⟨⟨by omega, hrange⟩, ⟨by omega, hvalueLimit⟩, trivial⟩
  have htrunc : ((LegacyDec.mk (v.valueOf k)).truncateInt : StakingResult Int) =
      .ok (v.valueOf k / precisionReuse) := by
    have hchop : chopPrecisionAndTruncate (v.valueOf k) = v.valueOf k / precisionReuse :=
      Int.tdiv_eq_ediv_of_nonneg hvalue0
    have hfits : bigIntOverflows (v.valueOf k / precisionReuse) = false := by
      rw [bigIntOverflows, decide_eq_false_iff_not, maxBitLen]
      omega
    simp [LegacyDec.truncateInt, hchop, hfits]
  refine ⟨_, hpaid, ?_⟩
  rw [removeDelShares, sub, assertInValidRange, if_pos hsub, ok_bind,
    if_neg (by simp only [isZero, decide_eq_true_eq]; omega), hok, ok_bind,
    htrunc, ok_bind, subInt_of_lt hT htokens hpaid0 (by omega), ok_bind,
    if_neg (by omega)]

theorem undelegation_returns_at_most (v v' : Validator) (amount : Int) (issued : LegacyDec)
    (hT : 0 < v.tokens) (hS : 0 < v.delegatorShares.i) (ha : 0 < amount)
    (h : v.addTokensFromDel amount = .ok (v', issued)) :
    (∀ v'' returned, v'.removeDelShares issued = .ok (v'', returned) → returned ≤ amount ∧
      v.tokens ≤ v''.tokens ∧ v''.delegatorShares = v.delegatorShares) ∧
    ((∃ v'' returned, v'.removeDelShares issued = .ok (v'', returned)) ↔
      issued.i * v'.tokens ≤ upperLimit) := by
  obtain ⟨hissued, htokens, hshares⟩ := addTokensFromDel_shares hS ha.le h
  obtain ⟨hbits, hvalid⟩ := addTokensFromDel_range h
  have hnonneg : 0 ≤ issued.i := by
    rw [hissued]
    exact Int.ediv_nonneg (Int.mul_nonneg hS.le ha.le) hT.le
  have hworth : issued.i * v'.tokens ≤ amount * v'.delegatorShares.i := by
    rw [htokens, hshares, hissued]
    exact issued_worth_le hT
  simp only [isInValidRange, Bool.and_eq_true, decide_eq_true_eq] at hvalid
  have hremoves := removeDelShares_of_le (v := v') (by omega) hnonneg (by omega) (by omega)
    hworth (by unfold maxBitLen at hbits; omega) hvalid.2
  -- the shares that were there before remain, so the value of the issued ones is computed
  have hrange {v'' : Validator} {returned : Int}
      (hremoved : v'.removeDelShares issued = .ok (v'', returned)) :
      issued.i * v'.tokens ≤ upperLimit := by
    obtain ⟨-, ⟨_, -⟩ | ⟨-, -, _, hvalue, -⟩⟩ := removeDelShares_ok hremoved
    · omega
    · have hfits := ((tokensFromShares_iff hnonneg (by omega) (by omega)).mp hvalue).1
      simp only [isInValidRange, Bool.and_eq_true, decide_eq_true_eq] at hfits
      exact hfits.2
  refine ⟨fun v'' returned hremoved => ?_, fun ⟨_, _, hremoved⟩ => hrange hremoved, fun hfits => ?_⟩
  · obtain ⟨paid, hpaid, hok⟩ := hremoves (hrange hremoved)
    rw [hok] at hremoved
    cases hremoved
    refine ⟨hpaid, by dsimp only; omega, ?_⟩
    rw [show v'.delegatorShares.i - issued.i = v.delegatorShares.i by omega]
  · obtain ⟨paid, -, hok⟩ := hremoves hfits
    exact ⟨_, paid, hok⟩

/-- Three tokens for six shares and back. -/
theorem halved_returns : ∃ v' v'' returned, halved.addTokensFromDel 3 = .ok (v', .newDecFromInt 6) ∧
      v'.removeDelShares (.newDecFromInt 6) = .ok (v'', returned) ∧ returned ≤ 3 ∧
      halved.tokens ≤ v''.tokens ∧ v''.delegatorShares = halved.delegatorShares := by
  obtain ⟨hbounds, hsucceeds⟩ := undelegation_returns_at_most halved _ 3 (.newDecFromInt 6)
    (by decide) (by decide) (by decide) rfl
  obtain ⟨v'', returned, hremoved⟩ := hsucceeds.mpr (by decide)
  exact ⟨_, v'', returned, rfl, hremoved, hbounds v'' returned hremoved⟩

end CosmosSDK.Staking.Validator
