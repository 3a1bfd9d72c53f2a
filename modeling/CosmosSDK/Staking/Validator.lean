import CosmosSDK.Auth.Account
import CosmosSDK.Lib.ProRata
import CosmosSDK.Math.LegacyDec

/-!
# Validators

`x/staking/types/validator.go`: the record of a validator and the conversion
between its tokens and its delegator shares.  Addresses stand for the texts that
encode them.

A record is solvent when its tokens are not negative and not more than the integer
that represents its shares.  Every conversion keeps it so, and on a solvent record
a positive amount of tokens always buys a positive number of shares.
-/

namespace CosmosSDK.Staking

open Store Math Fallible LegacyDec Int

/-- `sdk.ValAddress`. -/
abbrev ValAddress := Bytes

/-- `sdk.ConsAddress`. -/
abbrev ConsAddress := Bytes

/-- Nanoseconds. -/
abbrev Time := Int

/-- `types/errors.go`, and the errors made in place. -/
inductive StakingErr where
  | noValidatorFound
  | validatorOwnerExists
  | validatorPubKeyExists
  | validatorPubKeyTypeNotSupported (got : String) (expected : List String)
  | validatorJailed
  | badRemoveValidator (text : String)
  | emptyValidatorPubKey
  | commissionNegative
  | commissionHuge
  | commissionGTMaxRate
  | commissionChangeRateNegative
  | commissionChangeRateGTMaxRate
  | commissionUpdateTime
  | commissionGTMaxChangeRate
  | commissionLTMinRate
  | selfDelegationBelowMinimum
  | minSelfDelegationDecreased
  | noDelegatorForAddress
  | insufficientShares
  | notEnoughDelegationShares (shares : LegacyDec)
  | noUnbondingDelegation
  | maxUnbondingDelegationEntries
  | selfRedelegation
  | tinyRedelegationAmount
  | badRedelegationDst
  | badRedelegationSrc
  | transitiveRedelegation
  | maxRedelegationEntries
  | delegatorShareExRateInvalid
  | exceedingMaxConsPubKeyRotations
  | consensusPubKeyLenInvalid (got expected : Nat)
  /-- `collections.ErrNotFound` -/
  | notFound
  /-- `ErrInsufficientFunds` of the bank -/
  | insufficientFunds
  /-- `sdkerrors.ErrInvalidRequest` -/
  | invalidRequest (text : String)
  /-- `sdkerrors.ErrInvalidType` -/
  | invalidType (text : String)
  /-- `sdkerrors.ErrInvalidAddress` -/
  | invalidAddress (text : String)
  /-- `sdkerrors.ErrNotFound` -/
  | entryNotFound (creationHeight : Int)
  | other (text : String)

abbrev StakingResult := Result StakingErr

inductive BondStatus where
  | unspecified
  | unbonded
  | unbonding
  | bonded
deriving DecidableEq

/-- `cryptotypes.PubKey` of a consensus key: `Type()` and `Bytes()`. -/
structure ConsPubKey where
  keyType : String
  bytes : Bytes
deriving DecidableEq

structure CommissionRates where
  rate : LegacyDec
  maxRate : LegacyDec
  maxChangeRate : LegacyDec
deriving DecidableEq

structure Commission where
  rates : CommissionRates
  updateTime : Time
deriving DecidableEq

structure Metadata where
  profilePicUri : String
  socialHandleUris : List String
deriving DecidableEq

structure Description where
  moniker : String
  identity : String
  website : String
  securityContact : String
  details : String
  metadata : Option Metadata
deriving DecidableEq

structure Validator where
  operatorAddress : ValAddress
  consensusPubkey : ConsPubKey
  jailed : Bool
  status : BondStatus
  tokens : Int
  delegatorShares : LegacyDec
  description : Description
  unbondingHeight : Int
  unbondingTime : Time
  commission : Commission
  minSelfDelegation : Int
deriving DecidableEq

namespace Validator

/-- `NewValidator`. -/
def new (operator : ValAddress) (pubKey : ConsPubKey) (description : Description) : Validator where
  operatorAddress := operator
  consensusPubkey := pubKey
  jailed := false
  status := .unbonded
  tokens := 0
  delegatorShares := .zero
  description := description
  unbondingHeight := 0
  unbondingTime := 0
  commission := ⟨⟨.zero, .zero, .zero⟩, 0⟩
  minSelfDelegation := 1

variable (v : Validator)

def isBonded : Bool := v.status = .bonded

def isUnbonded : Bool := v.status = .unbonded

def isUnbonding : Bool := v.status = .unbonding

/-- `InvalidExRate`: all tokens were slashed, the shares remain. -/
def invalidExRate : Bool := v.tokens = 0 && v.delegatorShares.isPositive

def tokensFromShares (shares : LegacyDec) : StakingResult LegacyDec := do
  let product ← shares.mulInt v.tokens
  product.quo v.delegatorShares

def sharesFromTokens (amt : Int) : StakingResult LegacyDec :=
  if v.tokens = 0 then .error (.error .insufficientShares)
  else do
    let product ← v.delegatorShares.mulInt amt
    product.quoInt v.tokens

def sharesFromTokensTruncated (amt : Int) : StakingResult LegacyDec :=
  if v.tokens = 0 then .error (.error .insufficientShares)
  else do
    let product ← v.delegatorShares.mulInt amt
    product.quoTruncate (.newDecFromInt v.tokens)

/-- `TokensToConsensusPower`: the quotient must fit an `int64`. -/
def tokensToConsensusPower (tokens powerReduction : Int) : StakingResult Int := do
  let power ← quoInt tokens powerReduction
  if -2 ^ 63 ≤ power ∧ power < 2 ^ 63 then .ok power
  else .error (.panic "Int64() out of bound")

def tokensFromConsensusPower (power powerReduction : Int) : StakingResult Int :=
  mulInt power powerReduction

def potentialConsensusPower (powerReduction : Int) : StakingResult Int :=
  tokensToConsensusPower v.tokens powerReduction

def consensusPower (powerReduction : Int) : StakingResult Int :=
  if v.isBonded then v.potentialConsensusPower powerReduction else .ok 0

def updateStatus (newStatus : BondStatus) : Validator := { v with status := newStatus }

/-- The shares `AddTokensFromDel` issues: the first delegation sets the exchange rate to
one. -/
def issuedShares (amount : Int) : StakingResult LegacyDec :=
  if v.delegatorShares.isZero then .ok (.newDecFromInt amount)
  else
    match v.sharesFromTokens amount with
    | .error (.error _) => .error (.panic "insufficient delegation shares")
    | r => r

def addTokensFromDel (amount : Int) : StakingResult (Validator × LegacyDec) := do
  let issued ← v.issuedShares amount
  let tokens ← addInt v.tokens amount
  let delegatorShares ← v.delegatorShares.add issued
  .ok ({ v with tokens := tokens, delegatorShares := delegatorShares }, issued)

def removeTokens (tokens : Int) : StakingResult Validator :=
  if tokens < 0 then .error (.panic "should not happen: trying to remove negative tokens")
  else if v.tokens < tokens then .error (.panic "should not happen: trying to remove more tokens")
  else do
    let remaining ← subInt v.tokens tokens
    .ok { v with tokens := remaining }

/-- `RemoveDelShares`: the last share gets all tokens, other shares their value without
the fraction. -/
def removeDelShares (delShares : LegacyDec) : StakingResult (Validator × Int) := do
  let remainingShares ← v.delegatorShares.sub delShares
  if remainingShares.isZero then
    .ok ({ v with tokens := 0, delegatorShares := remainingShares }, v.tokens)
  else do
    let worth ← v.tokensFromShares delShares
    let issuedTokens ← worth.truncateInt
    let tokens ← subInt v.tokens issuedTokens
    if tokens < 0 then
      .error (.panic "attempting to remove more tokens than available in validator")
    else .ok ({ v with tokens := tokens, delegatorShares := remainingShares }, issuedTokens)

/-! ## Results of the conversions -/

variable {v v' : Validator} {amt amount tokens : Int} {shares issued delShares : LegacyDec}

theorem sharesFromTokens_ok (h : v.sharesFromTokens amt = .ok shares) :
    v.tokens ≠ 0 ∧ shares.i = (v.delegatorShares.i * amt).tdiv v.tokens := by
  simp only [sharesFromTokens, passes] at h
  obtain ⟨_, _, hproduct, h⟩ := h
  rw [(quoInt_ok h).2, mulInt_ok hproduct]
  exact ⟨‹_›, rfl⟩

theorem sharesFromTokens_nonneg (h : v.sharesFromTokens amt = .ok shares) (hv : 0 ≤ v.tokens)
    (hs : 0 ≤ v.delegatorShares.i) (hamt : 0 ≤ amt) : 0 ≤ shares.i := by
  rw [(sharesFromTokens_ok h).2]
  exact Int.tdiv_nonneg (Int.mul_nonneg hs hamt) hv

theorem sharesFromTokensTruncated_nonneg (h : v.sharesFromTokensTruncated amt = .ok shares)
    (hv : 0 ≤ v.tokens) (hs : 0 ≤ v.delegatorShares.i) (hamt : 0 ≤ amt) : 0 ≤ shares.i := by
  simp only [sharesFromTokensTruncated, passes] at h
  obtain ⟨_, _, hproduct, h⟩ := h
  rw [(quoTruncate_ok h).2, mulInt_ok hproduct]
  exact Int.tdiv_nonneg (Int.mul_nonneg (Int.mul_nonneg hs hamt) precisionReuse_pos.le)
    (Int.mul_nonneg hv precisionReuse_pos.le)

theorem issuedShares_ok (h : v.issuedShares amount = .ok issued) :
    (v.delegatorShares.i = 0 ∧ issued.i = amount * precisionReuse) ∨
      (v.delegatorShares.i ≠ 0 ∧ v.sharesFromTokens amount = .ok issued) := by
  unfold issuedShares at h
  split at h
  · rename_i hzero
    cases h
    exact .inl ⟨by simpa [isZero] using hzero, rfl⟩
  · rename_i hzero
    split at h
    · simp at h
    · exact .inr ⟨by simpa [isZero] using hzero, h⟩

theorem addTokensFromDel_ok (h : v.addTokensFromDel amount = .ok (v', issued)) :
    v.issuedShares amount = .ok issued ∧
      v' = { v with
        tokens := v.tokens + amount, delegatorShares := ⟨v.delegatorShares.i + issued.i⟩ } := by
  obtain ⟨_, hissued, h⟩ := bind_eq_ok.mp h
  obtain ⟨_, htokens, h⟩ := bind_eq_ok.mp h
  obtain ⟨_, hshares, h⟩ := bind_eq_ok.mp h
  cases h
  rw [addInt_ok htokens, assertInValidRange_ok hshares]
  exact ⟨hissued, rfl⟩

theorem removeTokens_ok (h : v.removeTokens tokens = .ok v') :
    0 ≤ tokens ∧ tokens ≤ v.tokens ∧ v' = { v with tokens := v.tokens - tokens } := by
  simp only [removeTokens, passes] at h
  obtain ⟨_, _, _, hremaining, h⟩ := h
  cases h
  rw [subInt_ok hremaining]
  exact ⟨by omega, by omega, rfl⟩

theorem removeDelShares_ok {issued : Int} (h : v.removeDelShares delShares = .ok (v', issued)) :
    v' = { v with
        tokens := v.tokens - issued, delegatorShares := ⟨v.delegatorShares.i - delShares.i⟩ } ∧
      ((v.delegatorShares.i = delShares.i ∧ issued = v.tokens) ∨
        (v.delegatorShares.i ≠ delShares.i ∧ issued ≤ v.tokens ∧
          ∃ worth, v.tokensFromShares delShares = .ok worth ∧
            (worth.truncateInt : StakingResult Int) = .ok issued)) := by
  obtain ⟨_, hremaining, h⟩ := bind_eq_ok.mp h
  obtain rfl := assertInValidRange_ok hremaining
  split at h
  · rename_i hzero
    cases h
    simp only [isZero, decide_eq_true_eq] at hzero
    exact ⟨by rw [sub_self], .inl ⟨by omega, rfl⟩⟩
  · rename_i hzero
    simp only [isZero, decide_eq_true_eq] at hzero
    obtain ⟨worth, hworth, h⟩ := bind_eq_ok.mp h
    obtain ⟨_, hissued, h⟩ := bind_eq_ok.mp h
    obtain ⟨_, htokens, h⟩ := bind_eq_ok.mp h
    obtain rfl := subInt_ok htokens
    split at h
    · simp at h
    · cases h
      exact ⟨rfl, .inr ⟨by omega, by omega, worth, hworth, hissued⟩⟩

/-! ## Solvency -/

/-- A record that delegations can be converted on: tokens are not negative and not more
than the integer behind the shares, and the status is one of the three of the life cycle. -/
structure Solvent (v : Validator) : Prop where
  tokens_nonneg : 0 ≤ v.tokens
  tokens_le_shares : v.tokens ≤ v.delegatorShares.i
  status_ne : v.status ≠ .unspecified

theorem Solvent.shares_nonneg (h : v.Solvent) : 0 ≤ v.delegatorShares.i :=
  h.tokens_nonneg.trans h.tokens_le_shares

theorem new_solvent (operator : ValAddress) (pubKey : ConsPubKey) (description : Description) :
    (new operator pubKey description).Solvent :=
  ⟨le_refl _, le_refl _, by simp [new]⟩

theorem Solvent.le_issuedShares (hv : v.Solvent) (ha : 0 ≤ amount)
    (h : v.issuedShares amount = .ok issued) : amount ≤ issued.i := by
  rcases issuedShares_ok h with ⟨-, hissued⟩ | ⟨hne, hissued⟩
  · have : amount * 1 ≤ amount * precisionReuse :=
      mul_le_mul_of_nonneg_left (by decide) ha
    omega
  · obtain ⟨htokens, hissued⟩ := sharesFromTokens_ok hissued
    have hpos : 0 < v.tokens := lt_of_le_of_ne hv.tokens_nonneg (Ne.symm htokens)
    rw [hissued, tdiv_eq_ediv_of_nonneg (mul_nonneg hv.shares_nonneg ha)]
    exact ProRata.le_issued hpos ha hv.tokens_le_shares

theorem Solvent.addTokensFromDel (hv : v.Solvent) (ha : 0 ≤ amount)
    (h : v.addTokensFromDel amount = .ok (v', issued)) : v'.Solvent := by
  obtain ⟨hissued, rfl⟩ := addTokensFromDel_ok h
  have hle := hv.le_issuedShares ha hissued
  have hnonneg := hv.tokens_nonneg
  have hcovered := hv.tokens_le_shares
  exact ⟨by dsimp only; omega, by dsimp only; omega, hv.status_ne⟩

theorem Solvent.removeTokens (hv : v.Solvent) (h : v.removeTokens tokens = .ok v') :
    v'.Solvent := by
  obtain ⟨_, _, rfl⟩ := removeTokens_ok h
  have hcovered := hv.tokens_le_shares
  exact ⟨by dsimp only; omega, by dsimp only; omega, hv.status_ne⟩

/-- Shares that leave other shares behind are worth at least their value, truncated. -/
theorem worth_bounds (hT : 0 ≤ v.tokens) (hS : 0 ≤ v.delegatorShares.i) {worth : LegacyDec}
    {issued : Int} (hk : 0 ≤ delShares.i) (hworth : v.tokensFromShares delShares = .ok worth)
    (hissued : (worth.truncateInt : StakingResult Int) = .ok issued) :
    0 ≤ issued ∧ delShares.i * v.tokens / v.delegatorShares.i ≤ issued := by
  obtain ⟨product, hproduct, hquo⟩ := bind_eq_ok.mp hworth
  have hproduct_nonneg : 0 ≤ product.i := by
    rw [mulInt_ok hproduct]
    exact mul_nonneg hk hT
  have hpos : 0 < v.delegatorShares.i := lt_of_le_of_ne hS (Ne.symm (quo_ok hquo).1)
  refine ⟨truncateInt_nonneg hissued
    (quo_nonneg hquo hproduct_nonneg hpos.le), ?_⟩
  rw [← mulInt_ok hproduct]
  exact quo_truncate_ge hquo hissued hproduct_nonneg hpos

theorem Solvent.removeDelShares (hv : v.Solvent) (hk : 0 ≤ delShares.i)
    (hle : delShares.i ≤ v.delegatorShares.i) {issued : Int}
    (h : v.removeDelShares delShares = .ok (v', issued)) : v'.Solvent ∧ 0 ≤ issued := by
  obtain ⟨rfl, hcases⟩ := removeDelShares_ok h
  have hcovered := hv.tokens_le_shares
  have hnonneg := hv.tokens_nonneg
  rcases hcases with ⟨hall, rfl⟩ | ⟨hne, hissued, worth, hworth, htrunc⟩
  · exact ⟨⟨by simp, by dsimp only; omega, hv.status_ne⟩, hnonneg⟩
  · obtain ⟨hpaid, hfloor⟩ := worth_bounds hnonneg hv.shares_nonneg hk hworth htrunc
    have hremaining := ProRata.redemption_le (by omega) hle hcovered hfloor
    exact ⟨⟨by dsimp only; omega, hremaining, hv.status_ne⟩, hpaid⟩

end Validator

end CosmosSDK.Staking
