import CosmosSDK.Staking.Keeper.Delegations

/-!
# Changes of the validator set

`x/staking/keeper/val_state_change.go`, with the key rotation of `cons_pubkey.go` and the
end of unbonding of `validator.go`.  The validators with the highest power become
bonded, those that drop out begin to unbond, and the coins move between the pools in
one transfer of the difference.  The power index is read once: bonding a validator
writes back the key and the value it removed.
-/

namespace CosmosSDK.Staking.Keeper

open Store CosmosSDK.Types Math OrderedKV Std Stateful

variable {X : Type} (k : Keeper X) (ctx : HeaderInfo)

/-! ## Transitions of one validator -/

def bondValidator (validator : Validator) : Call X Validator := do
  k.deleteValidatorByPowerIndex validator
  let validator := validator.updateStatus .bonded
  setValidator validator
  k.setValidatorByPowerIndex validator
  deleteValidatorQueue validator
  k.callHook (.afterValidatorBonded (k.consAddress validator.consensusPubkey)
    validator.operatorAddress)
  pure validator

def unbondedToBonded (validator : Validator) : Call X Validator := do
  reject (!validator.isUnbonded) (.error (.other "bad state transition unbondedToBonded"))
  k.bondValidator validator

def unbondingToBonded (validator : Validator) : Call X Validator := do
  reject (!validator.isUnbonding) (.error (.other "bad state transition unbondingToBonded"))
  k.bondValidator validator

def beginUnbondingValidator (validator : Validator) : Call X Validator := do
  let unbondingTime ← load (fun s => s.params.unbondingTime)
  k.deleteValidatorByPowerIndex validator
  reject (validator.status ≠ .bonded)
    (.error (.other "should not already be unbonded or unbonding"))
  let validator := { validator.updateStatus .unbonding with
    unbondingTime := ctx.time + unbondingTime, unbondingHeight := ctx.height }
  setValidator validator
  k.setValidatorByPowerIndex validator
  insertUnbondingValidatorQueue validator
  k.callHook (.afterValidatorBeginUnbonding (k.consAddress validator.consensusPubkey)
    validator.operatorAddress)
  pure validator

def bondedToUnbonding (validator : Validator) : Call X Validator := do
  reject (!validator.isBonded) (.error (.other "bad state transition bondedToUnbonding"))
  k.beginUnbondingValidator ctx validator

def completeUnbondingValidator (validator : Validator) : Call X Validator := do
  let validator := validator.updateStatus .unbonded
  setValidator validator
  pure validator

def unbondingToUnbonded (validator : Validator) : Call X Validator := do
  reject (!validator.isUnbonding) (.error (.other "bad state transition unbondingToUnbonded"))
  completeUnbondingValidator validator

/-! ## Key rotation -/

def setConsAddrToValidatorIdentifierMap (oldConsAddr newConsAddr : ConsAddress) : Call X Unit :=
  update (fun s => { s with
    consAddrToValidatorIdentifierMap := s.consAddrToValidatorIdentifierMap.insert newConsAddr
      ((s.consAddrToValidatorIdentifierMap[oldConsAddr]?).getD oldConsAddr) })

def updateToNewPubkey (validator : Validator) (oldPubKey newPubKey : ConsPubKey) (fee : Coin) :
    Call X Unit := do
  let consAddr := k.consAddress validator.consensusPubkey
  update (fun s => { s with
    validatorByConsensusAddress := s.validatorByConsensusAddress.erase consAddr })
  k.deleteValidatorByPowerIndex validator
  let validator := { validator with consensusPubkey := newPubKey }
  setValidator validator
  k.setValidatorByConsAddr validator
  k.setValidatorByPowerIndex validator
  update (fun s => { s with
    oldToNewConsAddrMap :=
      s.oldToNewConsAddrMap.insert (k.consAddress oldPubKey) (k.consAddress newPubKey) })
  setConsAddrToValidatorIdentifierMap (k.consAddress oldPubKey) (k.consAddress newPubKey)
  k.callHook (.afterConsensusPubKeyUpdate oldPubKey newPubKey fee)

def getBlockConsPubKeyRotationHistory (s : State X) : List ConsPubKeyRotationHistory :=
  s.rotationHistory.values.filter (fun history => decide (history.height = ctx.height))

/-! ## The validator set -/

/-- `appmodule.ValidatorUpdate`. -/
structure ValidatorUpdate where
  pubKey : ConsPubKey
  power : Int
deriving DecidableEq

/-- The variables of the loop of `ApplyAndReturnValidatorSetUpdates` over the power index. -/
structure Applied where
  updates : List ValidatorUpdate
  last : OrdMap ValAddress Int
  totalPower : Int
  amtFromNotBondedToBonded : Int
  count : Nat

/-- The state change of a validator that is part of the new set; it returns the record and
the amount that moves to the bonded pool so far. -/
def enterSet (validator : Validator) (amtFromNotBondedToBonded : Int) :
    Call X (Validator × Int) :=
  match validator.status with
  | .unbonded => do
      let validator ← k.unbondedToBonded validator
      let amt ← lift (addInt amtFromNotBondedToBonded validator.tokens)
      pure (validator, amt)
  | .unbonding => do
      let validator ← k.unbondingToBonded validator
      let amt ← lift (addInt amtFromNotBondedToBonded validator.tokens)
      pure (validator, amt)
  | .bonded => pure (validator, amtFromNotBondedToBonded)
  | .unspecified => err (.other "unexpected validator status")

def reportPower (valAddr : ValAddress) (validator : Validator) (newPower : Int) (acc : Applied) :
    Call X (List ValidatorUpdate) :=
  if acc.last[valAddr]? = some newPower then pure acc.updates
  else do
    setLastValidatorPower valAddr newPower
    pure (acc.updates ++ [⟨validator.consensusPubkey, newPower⟩])

/-- The loop over the power index, from the highest power on. -/
def applySet (maxValidators : Nat) : List ValAddress → Applied → Call X Applied
  | [], acc => pure acc
  | valAddr :: rest, acc =>
    if maxValidators ≤ acc.count then pure acc
    else do
      let validator ← find (fun s => s.validators[valAddr]?)
        (.error (.other "validator record not found for address"))
      reject validator.jailed
        (.error (.other "should never retrieve a jailed validator from the power store"))
      let potential ← lift (validator.potentialConsensusPower k.powerReduction)
      -- validators without power are not bonded, and no others follow
      if potential = 0 then pure acc
      else do
        let (validator, amt) ← k.enterSet validator acc.amtFromNotBondedToBonded
        let newPower ← lift (validator.consensusPower k.powerReduction)
        let updates ← reportPower valAddr validator newPower acc
        let totalPower ← lift (addInt acc.totalPower newPower)
        applySet maxValidators rest
          { updates := updates, last := acc.last.erase valAddr, totalPower := totalPower,
            amtFromNotBondedToBonded := amt, count := acc.count + 1 }

/-- One validator that is no longer in the set. -/
def leaveSet (acc : List ValidatorUpdate × Int) (valAddr : ValAddress) :
    Call X (List ValidatorUpdate × Int) := do
  let validator ← find (fun s => s.validators[valAddr]?)
    (.error (.other "validator record not found for address"))
  let validator ← k.bondedToUnbonding ctx validator
  let amt ← lift (addInt acc.2 validator.tokens)
  deleteLastValidatorPower validator.operatorAddress
  pure (acc.1 ++ [⟨validator.consensusPubkey, 0⟩], amt)

def applyRotation (updates : List ValidatorUpdate) (history : ConsPubKeyRotationHistory) :
    Call X (List ValidatorUpdate) := do
  let validator ← getValidator history.operatorAddress
  if validator.jailed ∨ validator.status ≠ .bonded then pure updates
  else do
    let power ← lift (validator.consensusPower k.powerReduction)
    k.updateToNewPubkey validator history.oldConsPubkey history.newConsPubkey history.fee
    pure (updates ++ [⟨history.oldConsPubkey, 0⟩, ⟨history.newConsPubkey, power⟩])

def balancePools (amtFromNotBondedToBonded amtFromBondedToNotBonded : Int) : Call X Unit :=
  if amtFromBondedToNotBonded < amtFromNotBondedToBonded then do
    let amt ← lift (subInt amtFromNotBondedToBonded amtFromBondedToNotBonded)
    notBondedTokensToBonded amt
  else if amtFromNotBondedToBonded < amtFromBondedToNotBonded then do
    let amt ← lift (subInt amtFromBondedToNotBonded amtFromNotBondedToBonded)
    bondedTokensToNotBonded amt
  else pure ()

def applyAndReturnValidatorSetUpdates : Call X (List ValidatorUpdate) := do
  let s ← load id
  let byPower := (s.validatorsByPowerIndex.toList.map (fun e => e.2)).reverse
  let acc ← k.applySet s.params.maxValidators byPower ⟨[], s.lastValidatorPower, 0, 0, 0⟩
  let (updates, amtFromBondedToNotBonded) ←
    acc.last.keys.foldlM (k.leaveSet ctx) (acc.updates, 0)
  let histories ← load (getBlockConsPubKeyRotationHistory ctx)
  let updates ← histories.foldlM k.applyRotation updates
  balancePools acc.amtFromNotBondedToBonded amtFromBondedToNotBonded
  if updates.isEmpty then pure updates
  else do
    update (fun s => { s with lastTotalPower := acc.totalPower })
    pure updates

/-! ## The end of unbonding -/

/-- A validator that became unbonded without delegations is removed. -/
def removeEmptyValidator (val : Validator) : Call X Unit :=
  if val.delegatorShares.isZero then k.removeValidator val.operatorAddress else pure ()

def unbondMatureValidator (addr : ValAddress) : Call X Unit := do
  let val ← getValidator addr
  reject (!val.isUnbonding)
    (.error (.other "unexpected validator in unbonding queue; status was not unbonding"))
  let val ← unbondingToUnbonded val
  k.removeEmptyValidator val
  deleteValidatorQueue val

def unbondMatureValidators (slot : (Time × Int) × List ValAddress) : Call X Unit :=
  if ctx.height < slot.1.2 ∨ ctx.time < slot.1.1 then pure ()
  else slot.2.forM k.unbondMatureValidator

def unbondAllMatureValidators : Call X Unit := do
  let slots ← load (fun s => s.validatorQueue.toList.filter
    (fun slot => (compare slot.1 (ctx.time, ctx.height)).isLE))
  slots.forM (k.unbondMatureValidators ctx)

end CosmosSDK.Staking.Keeper
