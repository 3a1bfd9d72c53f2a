import CosmosSDK.Staking.Keeper.Slash
import CosmosSDK.Staking.Keeper.ValStateChange

/-!
# The messages of the staking module

`x/staking/keeper/msg_server.go`, with the checks of `types/msg.go`, `types/commission.go`
and `types/validator.go` that it calls, and the rotation of consensus keys of
`cons_pubkey.go`.  Events are left out.
-/

namespace CosmosSDK.Staking

open Store CosmosSDK.Types Math Auth Std Stateful

/-! ## Checks of the types -/

/-- `CommissionRates.Validate`. -/
def CommissionRates.validate (cr : CommissionRates) : StakingResult Unit :=
  if cr.maxRate.isNegative then .error (.error .commissionNegative)
  else if cr.maxRate.gt .one then .error (.error .commissionHuge)
  else if cr.rate.isNegative then .error (.error .commissionNegative)
  else if cr.rate.gt cr.maxRate then .error (.error .commissionGTMaxRate)
  else if cr.maxChangeRate.isNegative then .error (.error .commissionChangeRateNegative)
  else if cr.maxChangeRate.gt cr.maxRate then .error (.error .commissionChangeRateGTMaxRate)
  else .ok ()

/-- `Commission.ValidateNewRate`: at most one change in 24 hours. -/
def Commission.validateNewRate (c : Commission) (newRate : LegacyDec) (blockTime : Time) :
    StakingResult Unit :=
  if blockTime - c.updateTime < 24 * 60 * 60 * 10 ^ 9 then .error (.error .commissionUpdateTime)
  else if newRate.isNegative then .error (.error .commissionNegative)
  else if newRate.gt c.rates.maxRate then .error (.error .commissionGTMaxRate)
  else do
    let change ← newRate.sub c.rates.rate
    if change.gt c.rates.maxChangeRate then .error (.error .commissionGTMaxChangeRate) else .ok ()

def Validator.setInitialCommission (v : Validator) (commission : Commission) :
    StakingResult Validator := do
  commission.rates.validate
  .ok { v with commission := commission }

/-- `Metadata.Validate`. -/
def Metadata.validate (parseRequestURI : String → Bool) (m : Metadata) : StakingResult Unit :=
  if m.profilePicUri ≠ "" ∧ parseRequestURI m.profilePicUri = false then
    .error (.error (.invalidRequest "invalid profile_pic_uri format"))
  else if m.socialHandleUris.any (fun uri => !parseRequestURI uri) then
    .error (.error (.invalidRequest "invalid social_handle_uri"))
  else .ok ()

namespace Description

def isEmpty (d : Description) : Bool :=
  d.moniker = "" && d.details = "" && d.identity = "" && d.website = "" && d.securityContact = "" &&
    match d.metadata with
    | none => true
    | some m => m.profilePicUri = "" && m.socialHandleUris.isEmpty

/-- One field of `EnsureLength`. -/
def ensureFieldLength (name text : String) (maxLength : Nat) : StakingResult Unit :=
  if maxLength < text.utf8ByteSize then
    .error (.error (.invalidRequest ("invalid " ++ name ++ " length")))
  else .ok ()

def ensureLength (d : Description) : StakingResult Unit := do
  ensureFieldLength "moniker" d.moniker 70
  ensureFieldLength "identity" d.identity 3000
  ensureFieldLength "website" d.website 140
  ensureFieldLength "security contact" d.securityContact 140
  ensureFieldLength "details" d.details 280

def validate (parseRequestURI : String → Bool) (d : Description) : StakingResult Unit := do
  match d.metadata with
  | some m => m.validate parseRequestURI
  | none => .ok ()
  d.ensureLength

/-- The text that stands for the old value. -/
def doNotModifyDesc : String := "[do-not-modify]"

/-- A field of `UpdateDescription`. -/
def keepOr (old new : String) : String := if new = doNotModifyDesc then old else new

/-- The metadata of `UpdateDescription`: the old picture is read without a check that there is
old metadata. -/
def updateMetadata (old : Option Metadata) (new : Metadata) : StakingResult Metadata :=
  if new.profilePicUri = doNotModifyDesc then
    match old with
    | some m => .ok { new with profilePicUri := m.profilePicUri }
    | none => .error (.panic "invalid memory address or nil pointer dereference")
  else .ok new

def updateDescription (parseRequestURI : String → Bool) (d d2 : Description) :
    StakingResult Description := do
  let metadata ← match d2.metadata with
    | some m => (updateMetadata d.metadata m).map some
    | none => .ok none
  let updated : Description := {
    moniker := keepOr d.moniker d2.moniker
    identity := keepOr d.identity d2.identity
    website := keepOr d.website d2.website
    securityContact := keepOr d.securityContact d2.securityContact
    details := keepOr d.details d2.details
    metadata := metadata }
  updated.validate parseRequestURI
  .ok updated

end Description

/-- `Params.Validate`. -/
def Params.validate (validateDenom : Denom → Bool) (p : Params) : StakingResult Unit :=
  if p.unbondingTime < 0 then .error (.error (.other "unbonding time must not be negative"))
  else if p.maxValidators = 0 then .error (.error (.other "max validators must be positive"))
  else if p.maxEntries = 0 then .error (.error (.other "max entries must be positive"))
  else if validateDenom p.bondDenom = false then .error (.error (.other "invalid denom"))
  else if p.minCommissionRate.isNegative then
    .error (.error (.other "minimum commission rate cannot be negative"))
  else if p.minCommissionRate.gt .one then
    .error (.error (.other "minimum commission rate cannot be greater than 100%"))
  -- `IsLTE` of coins
  else if p.keyRotationFee.denom ≠ p.bondDenom then .error (.panic "invalid coin denominations")
  else if p.keyRotationFee.amount ≤ 0 then
    .error (.error (.other "cons pubkey rotation fee cannot be negative or zero"))
  else .ok ()

/-! ## Messages -/

structure MsgCreateValidator where
  description : Description
  /-- absent when the message has the empty rates -/
  commission : Option CommissionRates
  minSelfDelegation : Int
  validatorAddress : ValAddress
  pubkey : Option ConsPubKey
  value : Coin

structure MsgEditValidator where
  description : Description
  validatorAddress : ValAddress
  commissionRate : Option LegacyDec
  minSelfDelegation : Option Int

structure MsgDelegate where
  delegatorAddress : AccAddress
  validatorAddress : ValAddress
  amount : Coin

structure MsgBeginRedelegate where
  delegatorAddress : AccAddress
  validatorSrcAddress : ValAddress
  validatorDstAddress : ValAddress
  amount : Coin

structure MsgUndelegate where
  delegatorAddress : AccAddress
  validatorAddress : ValAddress
  amount : Coin

structure MsgCancelUnbondingDelegation where
  delegatorAddress : AccAddress
  validatorAddress : ValAddress
  amount : Coin
  creationHeight : Int

structure MsgRotateConsPubKey where
  validatorAddress : ValAddress
  newPubkey : Option ConsPubKey

namespace Keeper

variable {X : Type} (k : Keeper X) (ctx : HeaderInfo)

def validAmount (amount : Coin) : Bool :=
  amount.isValid k.validateDenom && amount.isPositive

def checkBondDenom (amount : Coin) : Call X Unit := do
  let bondDenom ← load (fun s => s.params.bondDenom)
  reject (amount.denom ≠ bondDenom) (.error (.invalidRequest "invalid coin denomination"))

/-! ## Consensus keys -/

def validatePubKey (pk : ConsPubKey) (knownPubKeyTypes : List String) : StakingResult Unit :=
  if pk.keyType ∉ knownPubKeyTypes then
    .error (.error (.validatorPubKeyTypeNotSupported pk.keyType knownPubKeyTypes))
  else if pk.keyType = "ed25519" ∧ pk.bytes.length ≠ 32 then
    .error (.error (.consensusPubKeyLenInvalid pk.bytes.length 32))
  else .ok ()

def checkConsKeyAlreadyUsed (newConsPubKey : ConsPubKey) : Call X Unit := do
  let newConsAddr := k.consAddress newConsPubKey
  let s ← load id
  reject (s.consAddrToValidatorIdentifierMap[newConsAddr]?.isSome)
    (.error (.invalidAddress "public key was already used"))
  reject ((getBlockConsPubKeyRotationHistory ctx s).any
      (fun rotation => decide (k.consAddress rotation.newConsPubkey = newConsAddr)))
    (.error (.invalidAddress "public key was already used"))
  reject (getValidatorByConsAddr s newConsAddr).isSome (.error .validatorPubKeyExists)

/-- `ExceedsMaxRotations`: one rotation in an unbonding period. -/
def exceedsMaxRotations (valAddr : ValAddress) : Call X Unit := do
  let s ← load id
  reject (s.validatorConsensusKeyRotationRecordIndexKey.keys.any
      (fun key => decide (key.1 = valAddr)))
    (.error .exceedingMaxConsPubKeyRotations)

def setConsKeyQueue (ts : Time) (valAddr : ValAddress) : Call X Unit :=
  update (fun s =>
    let addresses := (s.validatorConsensusKeyRotationRecordQueue[ts]?).getD []
    { s with
      validatorConsensusKeyRotationRecordQueue :=
        s.validatorConsensusKeyRotationRecordQueue.insert ts
          (if valAddr ∈ addresses then addresses else addresses ++ [valAddr]) })

def setConsPubKeyRotationHistory (valAddr : ValAddress) (oldPubKey newPubKey : ConsPubKey)
    (fee : Coin) : Call X Unit := do
  let allRotations ← load (getBlockConsPubKeyRotationHistory ctx)
  reject (allRotations.any (fun r => decide (r.newConsPubkey = newPubKey)))
    (.error .validatorPubKeyExists)
  update (fun s => { s with
    rotationHistory := s.rotationHistory.insert (valAddr, ctx.height)
      ⟨valAddr, oldPubKey, newPubKey, ctx.height, fee⟩ })
  let ubdTime ← load (fun s => s.params.unbondingTime)
  let queueTime := ctx.time + ubdTime
  update (fun s => { s with
    validatorConsensusKeyRotationRecordIndexKey :=
      s.validatorConsensusKeyRotationRecordIndexKey.insert (valAddr, queueTime) () })
  setConsKeyQueue queueTime valAddr

/-! ## Handlers -/

/-- `MsgCreateValidator.Validate`; it returns the key and the rates the message has. -/
def validateMsgCreateValidator (msg : MsgCreateValidator) :
    StakingResult (ConsPubKey × CommissionRates) :=
  match msg.pubkey with
  | none => .error (.error .emptyValidatorPubKey)
  | some pk =>
    if !k.validAmount msg.value then
      .error (.error (.invalidRequest "invalid delegation amount"))
    else if msg.description.isEmpty then .error (.error (.invalidRequest "empty description"))
    else
      match msg.commission with
      | none => .error (.error (.invalidRequest "empty commission"))
      | some rates => do
          rates.validate
          if msg.minSelfDelegation ≤ 0 then
            .error (.error (.invalidRequest "minimum self delegation must be a positive integer"))
          else if msg.value.amount < msg.minSelfDelegation then
            .error (.error .selfDelegationBelowMinimum)
          else .ok (pk, rates)

/-- The record `CreateValidator` stores. -/
def newValidator (msg : MsgCreateValidator) (pk : ConsPubKey) (rates : CommissionRates) :
    StakingResult Validator := do
  let validator := Validator.new msg.validatorAddress pk msg.description
  let validator ← validator.setInitialCommission ⟨rates, ctx.time⟩
  .ok { validator with minSelfDelegation := msg.minSelfDelegation }

/-- The checks of `CreateValidator` against the state. -/
def checkCreateValidator (msg : MsgCreateValidator) (pk : ConsPubKey) (rates : CommissionRates) :
    Call X Unit := do
  let minCommRate ← load (fun s => s.params.minCommissionRate)
  reject (rates.rate.lt minCommRate) (.error .commissionLTMinRate)
  let existing ← load (fun s => s.validators[msg.validatorAddress]?)
  reject existing.isSome (.error .validatorOwnerExists)
  let pubkeyTypes ← (do let s ← load id; lift (k.validatorPubKeyTypes s.outside))
  lift (validatePubKey pk (pubkeyTypes.getD []))
  k.checkConsKeyAlreadyUsed ctx pk
  checkBondDenom msg.value
  lift (msg.description.validate k.parseRequestURI)

def createValidator (msg : MsgCreateValidator) : Call X Unit := do
  let (pk, rates) ← lift (k.validateMsgCreateValidator msg)
  k.checkCreateValidator ctx msg pk rates
  let validator ← lift (newValidator ctx msg pk rates)
  setValidator validator
  k.setValidatorByConsAddr validator
  k.setNewValidatorByPowerIndex validator
  k.callHook (.afterValidatorCreated msg.validatorAddress)
  let _ ← k.delegate msg.validatorAddress msg.value.amount .unbonded validator true
  pure ()

def updateValidatorCommission (validator : Validator) (newRate : LegacyDec) :
    Call X Commission := do
  lift (validator.commission.validateNewRate newRate ctx.time)
  let minCommissionRate ← load (fun s => s.params.minCommissionRate)
  reject (newRate.lt minCommissionRate)
    (.error (.other "cannot set validator commission to less than minimum rate"))
  pure ⟨{ validator.commission.rates with rate := newRate }, ctx.time⟩

/-- The checks of `EditValidator` that need no validator. -/
def checkEditValidator (msg : MsgEditValidator) : Call X Unit := do
  reject msg.description.isEmpty (.error (.invalidRequest "empty description"))
  reject (msg.minSelfDelegation.any (fun amt => decide (amt ≤ 0)))
    (.error (.invalidRequest "minimum self delegation must be a positive integer"))
  reject (msg.commissionRate.any (fun rate => rate.gt .one || rate.isNegative))
    (.error (.invalidRequest "commission rate must be between 0 and 1 (inclusive)"))
  let minCommissionRate ← load (fun s => s.params.minCommissionRate)
  reject (msg.commissionRate.any (fun rate => rate.lt minCommissionRate))
    (.error (.invalidRequest "commission rate cannot be less than the min commission rate"))

/-- The commission of `EditValidator`. -/
def editCommission (valAddr : ValAddress) (validator : Validator) :
    Option LegacyDec → Call X Validator
  | none => pure validator
  | some newRate => do
      let commission ← updateValidatorCommission ctx validator newRate
      k.callHook (.beforeValidatorModified valAddr)
      pure { validator with commission := commission }

/-- The minimum of `EditValidator`: it only grows, up to the tokens. -/
def editMinSelfDelegation (validator : Validator) : Option Int → StakingResult Validator
  | none => .ok validator
  | some amt =>
    if amt ≤ validator.minSelfDelegation then .error (.error .minSelfDelegationDecreased)
    else if validator.tokens < amt then .error (.error .selfDelegationBelowMinimum)
    else .ok { validator with minSelfDelegation := amt }

def editValidator (msg : MsgEditValidator) : Call X Unit := do
  checkEditValidator msg
  let validator ← getValidator msg.validatorAddress
  let description ← lift (validator.description.updateDescription k.parseRequestURI msg.description)
  let validator := { validator with description := description }
  let validator ← k.editCommission ctx msg.validatorAddress validator msg.commissionRate
  let validator ← lift (editMinSelfDelegation validator msg.minSelfDelegation)
  setValidator validator

/-- `Delegate` of the message server. -/
def msgDelegate (msg : MsgDelegate) : Call X LegacyDec := do
  reject (!k.validAmount msg.amount) (.error (.invalidRequest "invalid delegation amount"))
  let validator ← getValidator msg.validatorAddress
  checkBondDenom msg.amount
  k.delegate msg.delegatorAddress msg.amount.amount .unbonded validator true

/-- `BeginRedelegate`. -/
def msgBeginRedelegate (msg : MsgBeginRedelegate) : Call X Time := do
  reject (!k.validAmount msg.amount) (.error (.invalidRequest "invalid shares amount"))
  let shares ← validateUnbondAmount msg.delegatorAddress msg.validatorSrcAddress msg.amount.amount
  checkBondDenom msg.amount
  k.beginRedelegation ctx msg.delegatorAddress msg.validatorSrcAddress msg.validatorDstAddress shares

/-- `Undelegate` of the message server. -/
def msgUndelegate (msg : MsgUndelegate) : Call X (Time × Int) := do
  reject (!k.validAmount msg.amount) (.error (.invalidRequest "invalid shares amount"))
  let shares ← validateUnbondAmount msg.delegatorAddress msg.validatorAddress msg.amount.amount
  checkBondDenom msg.amount
  k.undelegate ctx msg.delegatorAddress msg.validatorAddress shares

def splitAtHeight (creationHeight : Int) : List UnbondingDelegationEntry →
    Option (List UnbondingDelegationEntry × UnbondingDelegationEntry × List UnbondingDelegationEntry)
  | [] => none
  | entry :: entries =>
    if entry.creationHeight = creationHeight then some ([], entry, entries)
    else (splitAtHeight creationHeight entries).map
      (fun split => (entry :: split.1, split.2.1, split.2.2))

/-- The entries after `CancelUnbondingDelegation`: an entry is removed when nothing of it is
left. -/
def cancelEntry (before : List UnbondingDelegationEntry) (entry : UnbondingDelegationEntry)
    (after : List UnbondingDelegationEntry) (amt : Int) :
    StakingResult (List UnbondingDelegationEntry) := do
  let amount ← subInt entry.balance amt
  if amount = 0 then .ok (before ++ after)
  else do
    let initialBalance ← subInt entry.initialBalance amt
    .ok (before ++ { entry with balance := amount, initialBalance := initialBalance } :: after)

def cancelUnbondingDelegation (msg : MsgCancelUnbondingDelegation) : Call X Unit := do
  reject (!k.validAmount msg.amount) (.error (.invalidRequest "invalid amount"))
  reject (msg.creationHeight ≤ 0) (.error (.invalidRequest "invalid height"))
  checkBondDenom msg.amount
  let validator ← getValidator msg.validatorAddress
  reject validator.invalidExRate (.error .delegatorShareExRateInvalid)
  reject validator.jailed (.error .validatorJailed)
  let ubd ← getUnbondingDelegation msg.delegatorAddress msg.validatorAddress
  let (before, unbondEntry, after) ← find (fun _ => splitAtHeight msg.creationHeight ubd.entries)
    (.error (.entryNotFound msg.creationHeight))
  reject (unbondEntry.balance < msg.amount.amount)
    (.error (.invalidRequest "amount is greater than the unbonding delegation entry balance"))
  reject (unbondEntry.completionTime < ctx.time)
    (.error (.invalidRequest "unbonding delegation is already processed"))
  let _ ← k.delegate msg.delegatorAddress msg.amount.amount .unbonding validator false
  let entries ← lift (cancelEntry before unbondEntry after msg.amount.amount)
  storeUnbondingDelegation { ubd with entries := entries }

def rotateConsPubKey (msg : MsgRotateConsPubKey) : Call X Unit := do
  let pk ← find (fun _ => msg.newPubkey) (.error (.invalidType "new public key is nil"))
  let pubkeyTypes ← (do let s ← load id; lift (k.validatorPubKeyTypes s.outside))
  let pubkeyTypes ← find (fun _ => pubkeyTypes)
    (.error (.invalidRequest "validator params are not set"))
  lift (validatePubKey pk pubkeyTypes)
  k.checkConsKeyAlreadyUsed ctx pk
  let validator ← getValidator msg.validatorAddress
  reject (validator.status ≠ .bonded) (.error (.invalidType "validator status is not bonded"))
  exceedsMaxRotations msg.validatorAddress
  let fee ← load (fun s => s.params.keyRotationFee)
  transition (fun s => do
    let outside ← k.sendRotationFee s.outside msg.validatorAddress fee
    .ok { s with outside := outside })
  setConsPubKeyRotationHistory ctx msg.validatorAddress validator.consensusPubkey pk fee

def atLeastMinRate (minRate : LegacyDec) (val : Validator) : Validator :=
  { val with
    commission :=
      { rates := { val.commission.rates with
          rate := minRate
          maxRate := if val.commission.rates.maxRate.lt minRate then minRate
            else val.commission.rates.maxRate }
        updateTime := ctx.time } }

/-- The loop of `UpdateParams` over the validators. -/
def raiseCommission (minRate : LegacyDec) (val : Validator) : Call X Unit :=
  if val.commission.rates.rate.lt minRate then setValidator (atLeastMinRate ctx minRate val)
  else pure ()

/-- `UpdateParams` of a message of the authority. -/
def updateParams (params : Params) : Call X Unit := do
  lift (params.validate k.validateDenom)
  let previousParams ← load (fun s => s.params)
  update (fun s => { s with params := params })
  if previousParams.minCommissionRate = params.minCommissionRate then pure ()
  else do
    let vals ← load (fun s => s.validators.values)
    vals.forM (raiseCommission ctx params.minCommissionRate)

end Keeper

end CosmosSDK.Staking
