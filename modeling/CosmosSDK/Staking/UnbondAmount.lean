import CosmosSDK.Staking.ExchangeRate
import CosmosSDK.Staking.Runs

/-!
# The shares for an amount to unbond

`ValidateUnbondAmount` turns an amount of tokens into shares of a delegation.  A delegation that
would keep less than the shares of one token is unbonded completely, and is then paid by
`RemoveDelShares` with a rounded value.
-/

namespace CosmosSDK.Staking

open Math Auth Stateful Fallible LegacyDec

namespace Validator

variable {v v' : Validator} {amt paid : Int} {shares k : LegacyDec}

def tokensFromSharesTruncated (v : Validator) (shares : LegacyDec) : StakingResult LegacyDec := do
  let product ← shares.mulInt v.tokens
  product.quoTruncate v.delegatorShares

theorem assertInValidRange_iff {d d' : LegacyDec} (hd : 0 ≤ d.i) :
    (d.assertInValidRange : StakingResult LegacyDec) = .ok d' ↔ d.i ≤ upperLimit ∧ d' = d := by
  simp only [assertInValidRange, require_eq_ok, isInValidRange, Bool.and_eq_true,
    decide_eq_true_eq, Except.ok.injEq]
  exact ⟨fun h => ⟨h.1.2, h.2.symm⟩, fun h => ⟨⟨by omega, h.1⟩, h.2.symm⟩⟩

theorem sharesFromTokens_iff (hT : 0 < v.tokens) (hS : 0 ≤ v.delegatorShares.i) (ha : 0 ≤ amt) :
    v.sharesFromTokens amt = .ok shares ↔ v.delegatorShares.i * amt ≤ upperLimit ∧
      shares = ⟨v.delegatorShares.i * amt / v.tokens⟩ := by
  have hproduct := Int.mul_nonneg hS ha
  unfold sharesFromTokens LegacyDec.mulInt LegacyDec.quoInt
  simp only [if_neg hT.ne', bind_eq_ok, assertInValidRange_iff hproduct, Except.ok.injEq]
  constructor
  · rintro ⟨_, ⟨hle, rfl⟩, rfl⟩
    exact ⟨hle, by rw [Int.tdiv_eq_ediv_of_nonneg hproduct]⟩
  · rintro ⟨hle, rfl⟩
    exact ⟨_, ⟨hle, rfl⟩, by rw [Int.tdiv_eq_ediv_of_nonneg hproduct]⟩

theorem sharesFromTokensTruncated_eq (hT : 0 < v.tokens) (hS : 0 ≤ v.delegatorShares.i)
    (h : v.sharesFromTokens amt = .ok shares) (ha : 0 ≤ amt) :
    v.sharesFromTokensTruncated amt = .ok shares := by
  obtain ⟨hle, rfl⟩ := (sharesFromTokens_iff hT hS ha).mp h
  have hproduct := Int.mul_nonneg hS ha
  have hP := precisionReuse_pos
  have hquot : (v.delegatorShares.i * amt * precisionReuse).tdiv (v.tokens * precisionReuse) =
      v.delegatorShares.i * amt / v.tokens := by
    rw [Int.tdiv_eq_ediv_of_nonneg (Int.mul_nonneg hproduct hP.le), Int.mul_ediv_mul_of_pos_left _ _ hP]
  unfold sharesFromTokensTruncated LegacyDec.mulInt LegacyDec.quoTruncate LegacyDec.newDecFromInt
  rw [if_neg hT.ne', (assertInValidRange_iff hproduct).mpr ⟨hle, rfl⟩, ok_bind,
    if_neg (Int.mul_pos hT hP).ne']
  rw [hquot]
  exact (assertInValidRange_iff (Int.ediv_nonneg hproduct hT.le)).mpr
    ⟨(Int.ediv_le_self _ hproduct).trans hle, rfl⟩

theorem removeDelShares_pays (hT : 0 < v.tokens) (hk : 0 ≤ k.i) (hlt : k.i < v.delegatorShares.i)
    (h : v.removeDelShares k = .ok (v', paid)) :
    paid = v.valueOf k / precisionReuse ∧ k.i * v.tokens / v.delegatorShares.i ≤ paid ∧
      k.i * v.tokens ≤ upperLimit := by
  obtain ⟨-, ⟨_, -⟩ | ⟨-, -, _, hworth, htrunc⟩⟩ := removeDelShares_ok h
  · omega
  · have hS : 0 < v.delegatorShares.i := by omega
    obtain ⟨_, hproduct, -⟩ := bind_eq_ok.mp hworth
    exact ⟨tokensPaid hk hT.le hS hworth htrunc, (worth_bounds hT.le hS.le hk hworth htrunc).2,
      ((assertInValidRange_iff (Int.mul_nonneg hk hT.le)).mp hproduct).1⟩

/-- Jailing does not change what is paid. -/
theorem removeDelShares_jailed {jailed : Bool}
    (h : { v with jailed := jailed }.removeDelShares k = .ok (v', paid)) :
    ∃ v'', v.removeDelShares k = .ok (v'', paid) := by
  obtain ⟨remaining, hremaining, h⟩ := bind_eq_ok.mp h
  rw [removeDelShares, show v.delegatorShares.sub k = _ from hremaining, ok_bind]
  split at h
  next hzero =>
    rw [if_pos hzero]
    cases h
    exact ⟨_, rfl⟩
  next hzero =>
    rw [if_neg hzero]
    simp only [passes] at h ⊢
    obtain ⟨worth, hworth, issued, hissued, tokens, htokens, hle, h⟩ := h
    cases h
    exact ⟨_, worth, hworth, paid, hissued, tokens, htokens, hle, rfl⟩

/-- All shares of a delegation are taken for `amt` tokens, and their value is rounded up to the
next token. -/
def RoundsUp (v : Validator) (shares : LegacyDec) (amt : Int) : Prop :=
  shares.i < v.delegatorShares.i ∧
    shares.i - v.delegatorShares.i * amt / v.tokens < v.delegatorShares.i / v.tokens ∧
    shares.i * v.tokens / v.delegatorShares.i = amt ∧ ¬ v.ClearOfNext shares ∧
    shares.i * v.tokens ≤ upperLimit

end Validator

namespace Keeper

open Validator

variable {X : Type} {s s' : State X} {del : AccAddress} {val : ValAddress} {v : Validator}
  {d : Delegation} {amt : Int} {shares : LegacyDec}

theorem validateUnbondAmount_iff (hT : 0 < v.tokens) (hS : v.tokens ≤ v.delegatorShares.i)
    (hrange : v.delegatorShares.i ≤ upperLimit)
    (hle : d.shares.i ≤ v.delegatorShares.i) (ha : 0 < amt) (hv : s.validators[val]? = some v)
    (hd : s.delegations[(del, val)]? = some d) :
    validateUnbondAmount del val amt s = .ok shares s' ↔ s = s' ∧
      v.delegatorShares.i * amt ≤ upperLimit ∧
      v.delegatorShares.i * amt / v.tokens ≤ d.shares.i ∧
      shares = if d.shares.i - v.delegatorShares.i * amt / v.tokens < v.delegatorShares.i / v.tokens
        then d.shares else ⟨v.delegatorShares.i * amt / v.tokens⟩ := by
  have hS0 := hT.le.trans hS
  have hk : 0 ≤ v.delegatorShares.i * amt / v.tokens :=
    Int.ediv_nonneg (Int.mul_nonneg hS0 ha.le) hT.le
  simp only [validateUnbondAmount, getValidator, pure_ok, steps]
  constructor
  · grind [sharesFromTokensTruncated_eq, gt, lt, sub_ok, sharesFromTokens_iff]
  · rintro ⟨rfl, hproduct, henough, rfl⟩
    have hk0 := (sharesFromTokens_iff hT hS0 ha.le).mpr ⟨hproduct, rfl⟩
    have hsub : (d.shares.sub ⟨v.delegatorShares.i * amt / v.tokens⟩ : StakingResult LegacyDec) =
        .ok ⟨d.shares.i - v.delegatorShares.i * amt / v.tokens⟩ :=
      (assertInValidRange_iff (by dsimp only; omega)).mpr ⟨by dsimp only; omega, rfl⟩
    refine ⟨v, hv, d, hd, _, hk0, _, sharesFromTokensTruncated_eq hT hS0 hk0 ha.le, (),
      by simpa [gt] using henough, _,
      (sharesFromTokens_iff hT hS0 Int.one_nonneg).mpr ⟨by omega, rfl⟩, _, hsub, ?_, rfl⟩
    simp [lt]

/-- `Unbond` returns what the validator pays for the shares. -/
theorem unbond_pays {k : Keeper X} {paid : Int} (hv : s.validators[val]? = some v)
    (h : k.unbond del val shares s = .ok paid s') :
    ∃ v', v.removeDelShares shares = .ok (v', paid) := by
  simp only [unbond, getValidator, steps] at h
  obtain ⟨_, -, _, s2, hhook, _, -, v0, hv0, _, -, v1, _, hjail, _, _, -, ⟨_, _⟩, _, hremove, h⟩ := h
  have hv0 : s2.ledger.validators[val]? = some v0 := hv0
  rw [callHook_ledger hhook] at hv0
  obtain rfl : v = v0 := Option.some.inj (hv.symm.trans hv0)
  obtain ⟨hpaid, -⟩ := removeValidatorTokensAndShares_ledger hremove
  have hsame : ∃ jailed, v1 = { v with jailed := jailed } := by
    rcases jailBelowMinimum_ok hjail with ⟨rfl, -⟩ | ⟨rfl, -⟩
    · exact ⟨_, rfl⟩
    · exact ⟨_, rfl⟩
  obtain ⟨_, rfl⟩ := hsame
  obtain ⟨v', hpaid⟩ := removeDelShares_jailed hpaid
  split at h
  · simp only [pure_ok, steps] at h
    obtain ⟨_, _, -, rfl, -⟩ := h
    exact ⟨v', hpaid⟩
  · obtain ⟨rfl, -⟩ := pure_ok.mp h
    exact ⟨v', hpaid⟩

/-- The shares are positive and of the delegation, and pay the amount or one token less. -/
def PaysWithin (v : Validator) (d : Delegation) (amt : Int) (shares : LegacyDec) : Prop :=
  0 < shares.i ∧ shares.i ≤ d.shares.i ∧
    ∀ v' paid, v.removeDelShares shares = .ok (v', paid) → amt - 1 ≤ paid ∧ paid ≤ amt

/-- The same for what `Unbond` returns. -/
def UnbondsWithin (k : Keeper X) (del : AccAddress) (val : ValAddress) (v : Validator)
    (d : Delegation) (amt : Int) (shares : LegacyDec) (s : State X) : Prop :=
  PaysWithin v d amt shares ∧
    ∀ paid s', k.unbond del val shares s = .ok paid s' → amt - 1 ≤ paid ∧ paid ≤ amt

theorem paysWithin_of_not_roundsUp (hT : 0 < v.tokens) (hS : v.tokens ≤ v.delegatorShares.i)
    (hle : d.shares.i ≤ v.delegatorShares.i) (ha : 0 < amt)
    (henough : v.delegatorShares.i * amt / v.tokens ≤ d.shares.i) (hround : ¬ v.RoundsUp d.shares amt) :
    PaysWithin v d amt
      (if d.shares.i - v.delegatorShares.i * amt / v.tokens < v.delegatorShares.i / v.tokens
        then d.shares else ⟨v.delegatorShares.i * amt / v.tokens⟩) := by
  have hS0 := hT.trans_le hS
  have hP := precisionReuse_pos
  have hk := ProRata.le_issued hT ha.le hS
  have hone := ProRata.le_issued hT Int.one_nonneg hS
  have hfloor := Int.ediv_mul_le (v.delegatorShares.i * amt) hT.ne'
  have hceil := Int.lt_ediv_add_one_mul_self (v.delegatorShares.i * amt) hT
  have htoken := Int.ediv_mul_le v.delegatorShares.i hT.ne'
  rw [mul_one] at hone
  generalize hk' : v.delegatorShares.i * amt / v.tokens = k at *
  generalize htoken' : v.delegatorShares.i / v.tokens = token at *
  -- at least the shares of the amount, rounded down, pay at least one token less
  have hlower {x : LegacyDec} {v' paid} (hx : k ≤ x.i) (hlt : x.i < v.delegatorShares.i)
      (h : v.removeDelShares x = .ok (v', paid)) : amt - 1 ≤ paid := by
    refine le_trans ?_ (removeDelShares_pays hT (by omega) hlt h).2.1
    rw [Int.le_ediv_iff_mul_le hS0]
    have := Int.mul_le_mul_of_nonneg_right hx hT.le
    linarith
  have hupper {x : LegacyDec} {v' paid} (hx : 0 ≤ x.i) (hlt : x.i < v.delegatorShares.i)
      (hworth : x.i * v.tokens ≤ amt * v.delegatorShares.i) (h : v.removeDelShares x = .ok (v', paid)) :
      paid ≤ amt := by
    rw [(removeDelShares_pays hT hx hlt h).1]
    exact Int.ediv_le_of_le_mul hP (valueOf_le hT.le hx hS0 hworth).2
  split
  next hcapped =>
    refine ⟨by omega, le_rfl, fun v' paid h => ?_⟩
    by_cases hall : d.shares.i = v.delegatorShares.i
    · -- the last delegation is paid all tokens, and all of them were asked for
      obtain ⟨-, ⟨-, rfl⟩ | ⟨hne, -⟩⟩ := removeDelShares_ok h
      · have hge : v.tokens ≤ amt := by
          by_contra hlt
          have := Int.mul_le_mul_of_nonneg_left (show amt ≤ v.tokens - 1 by omega) hS0.le
          have := Int.mul_le_mul_of_nonneg_right (show v.delegatorShares.i + 1 ≤ k + token by omega) hT.le
          linarith
        have hle : amt < v.tokens + 1 := by
          apply lt_of_mul_lt_mul_left _ hS0.le
          have := Int.mul_le_mul_of_nonneg_right (show k + 1 ≤ v.delegatorShares.i + 1 by omega) hT.le
          linarith
        omega
      · exact absurd hall.symm hne
    · have hlt := lt_of_le_of_ne hle hall
      obtain ⟨hpaid, -, hproduct⟩ := removeDelShares_pays hT (by omega) hlt h
      refine ⟨hlower henough hlt h, ?_⟩
      by_contra hmore
      have hvalue : d.shares.i * v.tokens / v.delegatorShares.i = amt := by
        apply le_antisymm
        · apply Int.le_of_lt_add_one
          apply Int.ediv_lt_of_lt_mul hS0
          have := Int.mul_le_mul_of_nonneg_right (show d.shares.i + 1 ≤ k + token by omega) hT.le
          linarith
        · by_contra hless
          exact hmore (hupper (by omega) hlt (Int.lt_mul_of_ediv_lt hS0 (not_le.mp hless)).le h)
      refine hround ⟨hlt, by rw [hk', htoken']; exact hcapped, hvalue, fun hclear => hmore ?_, hproduct⟩
      rw [hpaid, ← hvalue]
      exact (paid_le_value_iff (by omega) hT.le hS0).mpr hclear
  next hfree =>
    have hlt : k < v.delegatorShares.i := by omega
    refine ⟨by dsimp only; omega, henough, fun v' paid h => ⟨hlower le_rfl hlt h, hupper ?_ hlt ?_ h⟩⟩
    · dsimp only
      omega
    · linarith

/-- `ValidateUnbondAmount` keeps its margin of one token unless the value of a delegation that is
taken completely is rounded up. -/
theorem validateUnbondAmount_within_iff (k : Keeper X) (hT : 0 < v.tokens)
    (hS : v.tokens ≤ v.delegatorShares.i)
    (htokens : v.tokens < 2 ^ 256) (hrange : v.delegatorShares.i ≤ upperLimit)
    (hd0 : 0 ≤ d.shares.i) (hle : d.shares.i ≤ v.delegatorShares.i) (ha : 0 < amt)
    (hv : s.validators[val]? = some v) (hd : s.delegations[(del, val)]? = some d) :
    ((∀ shares s', validateUnbondAmount del val amt s = .ok shares s' →
        k.UnbondsWithin del val v d amt shares s') ∧
      ∀ worth, v.tokensFromSharesTruncated d.shares = .ok worth →
        (newDecFromInt amt).i ≤ worth.i →
        ∃ shares, validateUnbondAmount del val amt s = .ok shares s) ↔
    ¬ v.RoundsUp d.shares amt := by
  have hS0 := hT.trans_le hS
  have hP := precisionReuse_pos
  have hproduct0 := Int.mul_nonneg hd0 hT.le
  -- an amount that the delegation is worth has shares
  have hok (hworth : amt * v.delegatorShares.i ≤ d.shares.i * v.tokens)
      (hproduct : d.shares.i * v.tokens ≤ upperLimit) :=
    (validateUnbondAmount_iff hT hS hrange hle ha hv hd).mpr ⟨rfl, by linarith,
      Int.ediv_le_of_le_mul hT (by linarith), rfl⟩
  constructor
  · rintro ⟨hwithin, -⟩ ⟨hlt, hcapped, hvalue, hclose, hproduct⟩
    have hworth := Int.ediv_mul_le (d.shares.i * v.tokens) hS0.ne'
    rw [hvalue] at hworth
    obtain ⟨⟨-, -, hpays⟩, -⟩ := hwithin _ _ (hok hworth hproduct)
    rw [if_pos hcapped] at hpays
    obtain ⟨_, -, hremoved⟩ := removeDelShares_of_le hT.le hd0 hlt le_rfl
      (by rw [Int.mul_comm]; exact Int.mul_le_mul_of_nonneg_left hle hT.le) htokens hrange hproduct
    have hpaid := (hpays _ _ hremoved).2
    rw [(removeDelShares_pays hT hd0 hlt hremoved).1, ← hvalue] at hpaid
    exact hclose ((paid_le_value_iff hd0 hT.le hS0).mp hpaid)
  · intro hround
    refine ⟨fun shares s' h => ?_, fun worth hworth hamt => ?_⟩
    · obtain ⟨rfl, -, henough, rfl⟩ := (validateUnbondAmount_iff hT hS hrange hle ha hv hd).mp h
      have hpays := paysWithin_of_not_roundsUp hT hS hle ha henough hround
      refine ⟨hpays, fun paid s' h => ?_⟩
      obtain ⟨v', hpaid⟩ := unbond_pays hv h
      exact hpays.2.2 v' paid hpaid
    · obtain ⟨_, hproduct, hquo⟩ := bind_eq_ok.mp hworth
      obtain ⟨hlimit, rfl⟩ := (assertInValidRange_iff hproduct0).mp hproduct
      rw [(quoTruncate_ok hquo).2, Int.tdiv_eq_ediv_of_nonneg (Int.mul_nonneg hproduct0 hP.le),
        Int.le_ediv_iff_mul_le hS0] at hamt
      refine ⟨_, hok (le_of_mul_le_mul_right ?_ hP) hlimit⟩
      unfold newDecFromInt at hamt
      linarith

def tenForThirty : Validator :=
  { new [1] ⟨"", []⟩ ⟨"", "", "", "", "", none⟩ with
    tokens := 10, delegatorShares := .newDecFromInt 30 }

def delegatedState (shares : LegacyDec) : State Unit :=
  { emptyState with
    validators := emptyState.validators.insert [1] tenForThirty
    delegations := emptyState.delegations.insert ([7], [1]) ⟨[7], [1], shares⟩ }

theorem sixShares_within :
    ∃ shares s', validateUnbondAmount [7] [1] 1 (delegatedState (.newDecFromInt 6)) = .ok shares s' ∧
      plainKeeper.UnbondsWithin [7] [1] tenForThirty ⟨[7], [1], .newDecFromInt 6⟩ 1 shares s' := by
  obtain ⟨shares, s', h, -⟩ := ok_of_check (p := fun _ _ => true)
    (r := validateUnbondAmount [7] [1] 1 (delegatedState (.newDecFromInt 6))) (by decide +kernel)
  refine ⟨shares, s', h, ((validateUnbondAmount_within_iff plainKeeper (by decide) (by decide)
    (by decide) (by decide) (by decide) (by decide) (by decide) (by simp [delegatedState])
    (by simp [delegatedState])).mpr fun hround => absurd hround.2.1 (by decide)).1 shares s' h⟩

/-- One unit less than six shares is unbonded completely, and pays two tokens for one. -/
theorem almostSixShares_pay_two :
    check (fun paid _ => paid = 2) ((validateUnbondAmount [7] [1] 1 >>= plainKeeper.unbond [7] [1])
      (delegatedState ⟨6 * 10 ^ 18 - 1⟩)) = true := by
  decide +kernel

end Keeper

end CosmosSDK.Staking
