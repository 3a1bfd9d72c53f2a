import CosmosSDK.Staking.State

/-!
# The validator store

`x/staking/keeper/validator.go` and `pool.go`: the records of validators with their
indexes, the queue of unbonding validators and the pools.
-/

namespace CosmosSDK.Staking.Keeper

open Store Math Auth Std Stateful

variable {X : Type} (k : Keeper X)

def callHook (call : HookCall) : Call X Unit :=
  transition (fun s => do
    let outside ← k.hooks call s
    .ok { s with outside := outside })

/-! ## Records -/

def getValidator (addr : ValAddress) : Call X Validator :=
  find (fun s => s.validators[addr]?) (.error .noValidatorFound)

/-- `GetValidatorByConsAddr`: a key that was rotated away is followed once.  There is no
value when the source returns `ErrNoValidatorFound`. -/
def getValidatorByConsAddr (s : State X) (consAddr : ConsAddress) : Option Validator := do
  let opAddr ← match s.validatorByConsensusAddress[consAddr]? with
    | some opAddr => some opAddr
    | none => do
        let newConsAddr ← s.oldToNewConsAddrMap[consAddr]?
        s.validatorByConsensusAddress[newConsAddr]?
  s.validators[opAddr]?

variable (v : Validator)

def setValidator : Call X Unit :=
  update (fun s => { s with validators := s.validators.insert v.operatorAddress v })

def setValidatorByConsAddr : Call X Unit :=
  update (fun s => { s with
    validatorByConsensusAddress :=
      s.validatorByConsensusAddress.insert (k.consAddress v.consensusPubkey) v.operatorAddress })

/-- `binary.BigEndian.PutUint64(uint64(i))`. -/
def uint64Bytes (i : Int) : Bytes :=
  (List.range 8).map (fun j => UInt8.ofNat ((i % 2 ^ 64).toNat / 256 ^ (7 - j)))

/-- `GetValidatorsByPowerIndexKey`, without the store prefix: power, length of the address,
and the address inverted. -/
def getValidatorsByPowerIndexKey : StakingResult Bytes := do
  let consensusPower ← Validator.tokensToConsensusPower v.tokens k.powerReduction
  .ok (uint64Bytes consensusPower ++ [UInt8.ofNat v.operatorAddress.length] ++
    v.operatorAddress.map (fun b => ~~~b))

def setNewValidatorByPowerIndex : Call X Unit := do
  let key ← lift (k.getValidatorsByPowerIndexKey v)
  update (fun s => { s with
    validatorsByPowerIndex := s.validatorsByPowerIndex.insert key v.operatorAddress })

/-- `SetValidatorByPowerIndex`: jailed validators are not kept in the index. -/
def setValidatorByPowerIndex : Call X Unit :=
  if v.jailed then pure () else k.setNewValidatorByPowerIndex v

def deleteValidatorByPowerIndex : Call X Unit := do
  let key ← lift (k.getValidatorsByPowerIndexKey v)
  update (fun s => { s with validatorsByPowerIndex := s.validatorsByPowerIndex.erase key })

def addValidatorTokensAndShares (tokensToAdd : Int) : Call X (Validator × LegacyDec) := do
  k.deleteValidatorByPowerIndex v
  let (v, addedShares) ← lift (v.addTokensFromDel tokensToAdd)
  setValidator v
  k.setValidatorByPowerIndex v
  pure (v, addedShares)

def removeValidatorTokensAndShares (sharesToRemove : LegacyDec) : Call X (Validator × Int) := do
  k.deleteValidatorByPowerIndex v
  let (v, removedTokens) ← lift (v.removeDelShares sharesToRemove)
  setValidator v
  k.setValidatorByPowerIndex v
  pure (v, removedTokens)

def removeValidatorTokens (tokensToRemove : Int) : Call X Validator := do
  k.deleteValidatorByPowerIndex v
  let v ← lift (v.removeTokens tokensToRemove)
  setValidator v
  k.setValidatorByPowerIndex v
  pure v

/-- `RemoveValidator` of a validator that exists. -/
def removeFoundValidator (address : ValAddress) (v : Validator) : Call X Unit := do
  reject (!v.isUnbonded) (.error (.badRemoveValidator
    "cannot call RemoveValidator on bonded or unbonding validators"))
  reject (0 < v.tokens) (.error (.badRemoveValidator
    "attempting to remove a validator which still contains tokens"))
  let valConsAddr := k.consAddress v.consensusPubkey
  update (fun s => { s with validators := s.validators.erase address })
  update (fun s => { s with
    validatorByConsensusAddress := s.validatorByConsensusAddress.erase valConsAddr })
  k.deleteValidatorByPowerIndex v
  k.callHook (.afterValidatorRemoved valConsAddr v.operatorAddress)

def removeValidator (address : ValAddress) : Call X Unit := do
  match ← load (fun s => s.validators[address]?) with
  | none => pure ()
  | some v => k.removeFoundValidator address v

def setLastValidatorPower (operator : ValAddress) (power : Int) : Call X Unit :=
  update (fun s => { s with lastValidatorPower := s.lastValidatorPower.insert operator power })

def deleteLastValidatorPower (operator : ValAddress) : Call X Unit :=
  update (fun s => { s with lastValidatorPower := s.lastValidatorPower.erase operator })

/-! ## The queue of unbonding validators -/

def getUnbondingValidators (s : State X) (endTime : Time) (endHeight : Int) : List ValAddress :=
  (s.validatorQueue[(endTime, endHeight)]?).getD []

def setUnbondingValidatorsQueue (endTime : Time) (endHeight : Int) (addrs : List ValAddress) :
    Call X Unit :=
  update (fun s => { s with validatorQueue := s.validatorQueue.insert (endTime, endHeight) addrs })

def insertUnbondingValidatorQueue : Call X Unit := do
  let addrs ← load (fun s => getUnbondingValidators s v.unbondingTime v.unbondingHeight)
  setUnbondingValidatorsQueue v.unbondingTime v.unbondingHeight (addrs ++ [v.operatorAddress])

def deleteValidatorQueueTimeSlice (endTime : Time) (endHeight : Int) : Call X Unit :=
  update (fun s => { s with validatorQueue := s.validatorQueue.erase (endTime, endHeight) })

def deleteValidatorQueue : Call X Unit := do
  let addrs ← load (fun s => getUnbondingValidators s v.unbondingTime v.unbondingHeight)
  let newAddrs := addrs.filter (fun addr => decide (addr ≠ v.operatorAddress))
  if newAddrs.isEmpty then deleteValidatorQueueTimeSlice v.unbondingTime v.unbondingHeight
  else setUnbondingValidatorsQueue v.unbondingTime v.unbondingHeight newAddrs

/-! ## Pools -/

/-- The pools after `amt` has left one of them. -/
def withdraw (pools : Pool → Int) (p : Pool) (amt : Int) : Pool → Int :=
  Function.update pools p (pools p - amt)

/-- The pools after `amt` has come into one of them. -/
def deposit (pools : Pool → Int) (p : Pool) (amt : Int) : Pool → Int :=
  Function.update pools p (pools p + amt)

/-- `sdk.NewCoin` of an amount of the bond denomination. -/
def newBondCoin (amt : Int) : Call X Unit :=
  reject (amt < 0) (.panic "negative coin amount")

/-- `SendCoinsFromModuleToModule` from one pool to the other. -/
def sendBetweenPools (sender recipient : Pool) (tokens : Int) : Call X Unit := do
  newBondCoin tokens
  transition (fun s =>
    if s.pools sender < tokens then .error (.error .insufficientFunds)
    else .ok { s with pools := deposit (withdraw s.pools sender tokens) recipient tokens })

def bondedTokensToNotBonded (tokens : Int) : Call X Unit :=
  sendBetweenPools .bonded .notBonded tokens

def notBondedTokensToBonded (tokens : Int) : Call X Unit :=
  sendBetweenPools .notBonded .bonded tokens

/-- Burning from a pool; nothing is burned when the amount is not positive. -/
def burnPoolTokens (p : Pool) (amt : Int) : Call X Unit :=
  if amt ≤ 0 then pure ()
  else transition (fun s =>
    if s.pools p < amt then .error (.error .insufficientFunds)
    else .ok { s with pools := withdraw s.pools p amt })

def burnBondedTokens (amt : Int) : Call X Unit := burnPoolTokens .bonded amt

def burnNotBondedTokens (amt : Int) : Call X Unit := burnPoolTokens .notBonded amt

def delegateCoinsFromAccountToModule (delAddr : AccAddress) (recipient : Pool) (amt : Int) :
    Call X Unit :=
  transition (fun s => do
    let outside ← k.delegateCoins s.outside delAddr amt
    .ok { s with pools := deposit s.pools recipient amt, outside := outside })

def undelegateCoinsFromModuleToAccount (sender : Pool) (delAddr : AccAddress) (amt : Int) :
    Call X Unit :=
  transition (fun s =>
    if s.pools sender < amt then .error (.error .insufficientFunds)
    else do
      let outside ← k.undelegateCoins s.outside delAddr amt
      .ok { s with pools := withdraw s.pools sender amt, outside := outside })

end CosmosSDK.Staking.Keeper
