import CosmosSDK.Staking.Keeper.Validators

/-!
# Delegations

`x/staking/keeper/delegation.go`: the stores of delegations, unbonding delegations and
redelegations, and the operations on them.  The header of the block is an argument
where the source reads it from the context.
-/

namespace CosmosSDK.Staking.Keeper

open Store Math Auth OrderedKV Std Stateful

variable {X : Type} (k : Keeper X)

/-! ## Delegation records -/

def setDelegation (d : Delegation) : Call X Unit := do
  update (fun s => { s with
    delegations := s.delegations.insert (d.delegatorAddress, d.validatorAddress) d })
  update (fun s => { s with
    delegationsByValidator :=
      s.delegationsByValidator.insert (d.validatorAddress, d.delegatorAddress) () })

def removeDelegation (d : Delegation) : Call X Unit := do
  k.callHook (.beforeDelegationRemoved d.delegatorAddress d.validatorAddress)
  update (fun s => { s with
    delegations := s.delegations.erase (d.delegatorAddress, d.validatorAddress) })
  update (fun s => { s with
    delegationsByValidator :=
      s.delegationsByValidator.erase (d.validatorAddress, d.delegatorAddress) })

/-! ## Unbonding delegations -/

variable (delAddr : AccAddress)

def getUnbondingDelegation (valAddr : ValAddress) : Call X UnbondingDelegation :=
  find (fun s => s.unbondingDelegations[(delAddr, valAddr)]?) (.error .noUnbondingDelegation)

/-- `GetUnbondingDelegationsFromValidator`: an indexed pair without a record gives the empty
record. -/
def getUnbondingDelegationsFromValidator (s : State X) (valAddr : ValAddress) :
    List UnbondingDelegation :=
  (s.unbondingDelegationByValIndex.keys.filter (fun key => decide (key.1 = valAddr))).map
    (fun key => (s.unbondingDelegations[(key.2, key.1)]?).getD ⟨[], [], []⟩)

def hasMaxUnbondingDelegationEntries (s : State X) (delAddr : AccAddress) (valAddr : ValAddress) :
    Bool :=
  match s.unbondingDelegations[(delAddr, valAddr)]? with
  | some ubd => s.params.maxEntries ≤ ubd.entries.length
  | none => s.params.maxEntries ≤ 0

def setUnbondingDelegation (ubd : UnbondingDelegation) : Call X Unit := do
  update (fun s => { s with
    unbondingDelegations :=
      s.unbondingDelegations.insert (ubd.delegatorAddress, ubd.validatorAddress) ubd })
  update (fun s => { s with
    unbondingDelegationByValIndex :=
      s.unbondingDelegationByValIndex.insert (ubd.validatorAddress, ubd.delegatorAddress) () })

def removeUnbondingDelegation (ubd : UnbondingDelegation) : Call X Unit := do
  update (fun s => { s with
    unbondingDelegations :=
      s.unbondingDelegations.erase (ubd.delegatorAddress, ubd.validatorAddress) })
  update (fun s => { s with
    unbondingDelegationByValIndex :=
      s.unbondingDelegationByValIndex.erase (ubd.validatorAddress, ubd.delegatorAddress) })

/-- Store an unbonding delegation, or remove it if it has no entries. -/
def storeUnbondingDelegation (ubd : UnbondingDelegation) : Call X Unit :=
  if ubd.entries.isEmpty then removeUnbondingDelegation ubd else setUnbondingDelegation ubd

def setUnbondingDelegationEntry (valAddr : ValAddress)
    (creationHeight : Int) (minTime : Time) (balance : Int) : Call X UnbondingDelegation := do
  let found ← load (fun s => s.unbondingDelegations[(delAddr, valAddr)]?)
  let ubd := found.getD ⟨delAddr, valAddr, []⟩
  let entries ← lift (addEntry creationHeight minTime balance ubd.entries)
  let ubd := { ubd with entries := entries }
  setUnbondingDelegation ubd
  pure ubd

def insertUBDQueue (ubd : UnbondingDelegation) (completionTime : Time) : Call X Unit :=
  update (fun s => { s with
    unbondingQueue := s.unbondingQueue.insert completionTime
      ((s.unbondingQueue[completionTime]?).getD [] ++
        [⟨ubd.delegatorAddress, ubd.validatorAddress⟩]) })

def matureSlices {α : Type} (queue : OrdMap Time (List α)) (currTime : Time) :
    List (Time × List α) :=
  queue.toList.filter (fun slice => decide (slice.1 ≤ currTime))

def dequeueAllMatureUBDQueue (currTime : Time) : Call X (List DVPair) := do
  let slices ← load (fun s => matureSlices s.unbondingQueue currTime)
  update (fun s => { s with
    unbondingQueue := slices.foldl (fun queue slice => queue.erase slice.1) s.unbondingQueue })
  pure (slices.flatMap (fun slice => slice.2))

/-! ## Redelegations -/

/-- `GetRedelegationsFromSrcValidator`: every indexed redelegation must be stored. -/
def getRedelegationsFromSrcValidator (s : State X) (valAddr : ValAddress) :
    StakingResult (List Redelegation) :=
  (s.redelegationsByValSrc.keys.filter (fun key => decide (key.1 = valAddr))).mapM (fun key =>
    match s.redelegations[(key.2.1, key.1, key.2.2)]? with
    | some red => .ok red
    | none => .error (.error .notFound))

def hasReceivingRedelegation (s : State X) (delAddr : AccAddress) (valDstAddr : ValAddress) : Bool :=
  s.redelegationsByValDst.keys.any (fun key => decide (key.1 = valDstAddr ∧ key.2.1 = delAddr))

def hasMaxRedelegationEntries (s : State X) (delAddr : AccAddress)
    (valSrcAddr valDstAddr : ValAddress) : Bool :=
  match s.redelegations[(delAddr, valSrcAddr, valDstAddr)]? with
  | some red => s.params.maxEntries ≤ red.entries.length
  | none => false

def setRedelegation (red : Redelegation) : Call X Unit :=
  update (fun s => { s with
    redelegations := s.redelegations.insert
      (red.delegatorAddress, red.validatorSrcAddress, red.validatorDstAddress) red
    redelegationsByValSrc := s.redelegationsByValSrc.insert
      (red.validatorSrcAddress, red.delegatorAddress, red.validatorDstAddress) ()
    redelegationsByValDst := s.redelegationsByValDst.insert
      (red.validatorDstAddress, red.delegatorAddress, red.validatorSrcAddress) () })

def removeRedelegation (red : Redelegation) : Call X Unit :=
  update (fun s => { s with
    redelegations := s.redelegations.erase
      (red.delegatorAddress, red.validatorSrcAddress, red.validatorDstAddress)
    redelegationsByValSrc := s.redelegationsByValSrc.erase
      (red.validatorSrcAddress, red.delegatorAddress, red.validatorDstAddress)
    redelegationsByValDst := s.redelegationsByValDst.erase
      (red.validatorDstAddress, red.delegatorAddress, red.validatorSrcAddress) })

/-- Store a redelegation, or remove it if it has no entries. -/
def storeRedelegation (red : Redelegation) : Call X Unit :=
  if red.entries.isEmpty then removeRedelegation red else setRedelegation red

def setRedelegationEntry (valSrcAddr valDstAddr : ValAddress)
    (creationHeight : Int) (minTime : Time) (balance : Int) (sharesDst : LegacyDec) :
    Call X Redelegation := do
  let found ← load (fun s => s.redelegations[(delAddr, valSrcAddr, valDstAddr)]?)
  let red := found.getD ⟨delAddr, valSrcAddr, valDstAddr, []⟩
  let red := { red with entries := red.entries ++ [.new creationHeight minTime balance sharesDst] }
  setRedelegation red
  pure red

def insertRedelegationQueue (red : Redelegation) (completionTime : Time) : Call X Unit :=
  update (fun s => { s with
    redelegationQueue := s.redelegationQueue.insert completionTime
      ((s.redelegationQueue[completionTime]?).getD [] ++
        [⟨red.delegatorAddress, red.validatorSrcAddress, red.validatorDstAddress⟩]) })

def dequeueAllMatureRedelegationQueue (ctx : HeaderInfo) : Call X (List DVVTriplet) := do
  let slices ← load (fun s => matureSlices s.redelegationQueue ctx.time)
  update (fun s => { s with
    redelegationQueue := slices.foldl (fun queue slice => queue.erase slice.1) s.redelegationQueue })
  pure (slices.flatMap (fun slice => slice.2))

/-! ## Delegate and Unbond -/

/-- The pool that pays for a validator in a status; `Unspecified` has none. -/
def sendName (status : BondStatus) : Option Pool :=
  match status with
  | .bonded => some .bonded
  | .unbonding | .unbonded => some .notBonded
  | .unspecified => none

/-- The part of `Delegate` that moves the coins. -/
def moveDelegatedCoins (bondAmt : Int) (tokenSrc : BondStatus)
    (validator : Validator) (subtractAccount : Bool) : Call X Unit :=
  if subtractAccount then
    if tokenSrc = .bonded then
      err (.other "delegation token source cannot be bonded; expected Unbonded or Unbonding, got Bonded")
    else
      match sendName validator.status with
      | none => err (.other "invalid validator status")
      | some pool => do
          newBondCoin bondAmt
          k.delegateCoinsFromAccountToModule delAddr pool bondAmt
  else
    match tokenSrc, validator.isBonded with
    | .bonded, true => pure ()
    | .unbonded, false | .unbonding, false => pure ()
    | .unbonded, true | .unbonding, true => notBondedTokensToBonded bondAmt
    | .bonded, false => bondedTokensToNotBonded bondAmt
    | .unspecified, _ => err (.other "unknown token source bond status")

def delegate (bondAmt : Int) (tokenSrc : BondStatus) (validator : Validator)
    (subtractAccount : Bool) : Call X LegacyDec := do
  reject validator.invalidExRate (.error .delegatorShareExRateInvalid)
  let valbz := validator.operatorAddress
  let found ← load (fun s => s.delegations[(delAddr, valbz)]?)
  k.callHook (match found with
    | some _ => .beforeDelegationSharesModified delAddr valbz
    | none => .beforeDelegationCreated delAddr valbz)
  let delegation := found.getD ⟨delAddr, valbz, .zero⟩
  k.moveDelegatedCoins delAddr bondAmt tokenSrc validator subtractAccount
  let (_, newShares) ← k.addValidatorTokensAndShares validator bondAmt
  let shares ← lift (delegation.shares.add newShares)
  setDelegation { delegation with shares := shares }
  k.callHook (.afterDelegationModified delAddr valbz)
  pure newShares

def jailValidator (validator : Validator) : Call X Unit := do
  reject validator.jailed (.error .validatorJailed)
  let validator := { validator with jailed := true }
  setValidator validator
  k.deleteValidatorByPowerIndex validator

/-- The part of `Unbond` that jails a validator whose operator keeps less than the minimum
self delegation; the record is then read again. -/
def jailBelowMinimum (delegation : Delegation) (validator : Validator) : Call X Validator :=
  if delegation.delegatorAddress = validator.operatorAddress ∧ validator.jailed = false then do
    let worth ← lift (validator.tokensFromShares delegation.shares)
    let selfDelegation ← lift worth.truncateInt
    if selfDelegation < validator.minSelfDelegation then do
      k.jailValidator validator
      getValidator validator.operatorAddress
    else pure validator
  else pure validator

/-- The part of `Unbond` that stores the delegation with its remaining shares. -/
def storeRemainingShares (delegation : Delegation) : Call X Unit :=
  if delegation.shares.isZero then k.removeDelegation delegation
  else do
    setDelegation delegation
    k.callHook (.afterDelegationModified delegation.delegatorAddress delegation.validatorAddress)

def unbond (valAddr : ValAddress) (shares : LegacyDec) : Call X Int := do
  let delegation ← find (fun s => s.delegations[(delAddr, valAddr)]?) (.error .noDelegatorForAddress)
  k.callHook (.beforeDelegationSharesModified delAddr valAddr)
  reject (delegation.shares.lt shares) (.error (.notEnoughDelegationShares delegation.shares))
  let validator ← getValidator valAddr
  let remaining ← lift (delegation.shares.sub shares)
  let delegation := { delegation with shares := remaining }
  let valbz := validator.operatorAddress
  let validator ← k.jailBelowMinimum delegation validator
  k.storeRemainingShares delegation
  let (validator, amount) ← k.removeValidatorTokensAndShares validator shares
  if validator.delegatorShares.isZero && validator.isUnbonded then do
    k.removeValidator valbz
    pure amount
  else pure amount

/-! ## Undelegation and redelegation -/

/-- What `getBeginInfo` returns; the zero time of an absent validator is `zeroTime`. -/
structure BeginInfo where
  completionTime : Time
  height : Int
  completeNow : Bool

/-- `time.Time{}`: year 1. -/
def zeroTime : Time := -62135596800000000000

def getBeginInfo (ctx : HeaderInfo) (s : State X) (valSrcAddr : ValAddress) :
    StakingResult BeginInfo :=
  match s.validators[valSrcAddr]? with
  | none => .ok ⟨zeroTime, 0, false⟩
  | some validator =>
    match validator.status with
    | .bonded => .ok ⟨ctx.time + s.params.unbondingTime, ctx.height, false⟩
    | .unbonded => .ok ⟨zeroTime, 0, true⟩
    | .unbonding => .ok ⟨validator.unbondingTime, validator.unbondingHeight, false⟩
    | .unspecified => .error (.error (.other "unknown validator status"))

/-- The part of `Undelegate` that transfers the tokens of a bonded validator to the not
bonded pool. -/
def releaseTokens (validator : Validator) (amt : Int) : Call X Unit :=
  if validator.isBonded then bondedTokensToNotBonded amt else pure ()

def undelegate (ctx : HeaderInfo) (delAddr : AccAddress) (valAddr : ValAddress)
    (sharesAmount : LegacyDec) : Call X (Time × Int) := do
  let validator ← getValidator valAddr
  let hasMaxEntries ← load (fun s => hasMaxUnbondingDelegationEntries s delAddr valAddr)
  reject hasMaxEntries (.error .maxUnbondingDelegationEntries)
  let returnAmount ← k.unbond delAddr valAddr sharesAmount
  releaseTokens validator returnAmount
  let unbondingTime ← load (fun s => s.params.unbondingTime)
  let completionTime := ctx.time + unbondingTime
  let ubd ← setUnbondingDelegationEntry delAddr valAddr ctx.height completionTime returnAmount
  insertUBDQueue ubd completionTime
  pure (completionTime, returnAmount)

/-- The loop of `CompleteUnbonding`: mature entries are paid and left out.  It returns the
entries that stay and the sum of what was paid. -/
def completeEntries (ctxTime : Time) (delegatorAddress : AccAddress) :
    List UnbondingDelegationEntry → List UnbondingDelegationEntry → Int →
      Call X (List UnbondingDelegationEntry × Int)
  | kept, [], balances => pure (kept, balances)
  | kept, entry :: entries, balances =>
    if entry.isMature ctxTime then
      if entry.balance = 0 then completeEntries ctxTime delegatorAddress kept entries balances
      else do
        newBondCoin entry.balance
        k.undelegateCoinsFromModuleToAccount .notBonded delegatorAddress entry.balance
        let balances ← lift (addInt balances entry.balance)
        completeEntries ctxTime delegatorAddress kept entries balances
    else completeEntries ctxTime delegatorAddress (kept ++ [entry]) entries balances

def completeUnbonding (ctx : HeaderInfo) (delAddr : AccAddress) (valAddr : ValAddress) :
    Call X Int := do
  let ubd ← getUnbondingDelegation delAddr valAddr
  let (entries, balances) ← k.completeEntries ctx.time ubd.delegatorAddress [] ubd.entries 0
  storeUnbondingDelegation { ubd with entries := entries }
  pure balances

def beginRedelegation (ctx : HeaderInfo) (delAddr : AccAddress) (valSrcAddr valDstAddr : ValAddress)
    (sharesAmount : LegacyDec) : Call X Time := do
  reject (valSrcAddr = valDstAddr) (.error .selfRedelegation)
  let dstValidator ← find (fun s => s.validators[valDstAddr]?) (.error .badRedelegationDst)
  let srcValidator ← find (fun s => s.validators[valSrcAddr]?) (.error .badRedelegationSrc)
  let hasRecRedel ← load (fun s => hasReceivingRedelegation s delAddr valSrcAddr)
  reject hasRecRedel (.error .transitiveRedelegation)
  let hasMaxRedels ← load (fun s => hasMaxRedelegationEntries s delAddr valSrcAddr valDstAddr)
  reject hasMaxRedels (.error .maxRedelegationEntries)
  let returnAmount ← k.unbond delAddr valSrcAddr sharesAmount
  reject (returnAmount = 0) (.error .tinyRedelegationAmount)
  let sharesCreated ← k.delegate delAddr returnAmount srcValidator.status dstValidator false
  let begin ← (do let s ← load id; lift (getBeginInfo ctx s valSrcAddr))
  if begin.completeNow then pure begin.completionTime
  else do
    let red ← setRedelegationEntry delAddr valSrcAddr valDstAddr begin.height begin.completionTime
      returnAmount sharesCreated
    insertRedelegationQueue red begin.completionTime
    pure begin.completionTime

/-- The balances `CompleteRedelegation` reports for the entries that matured. -/
def completedBalances : List RedelegationEntry → Int → Call X Int
  | [], balances => pure balances
  | entry :: entries, balances =>
    if entry.initialBalance = 0 then completedBalances entries balances
    else do
      newBondCoin entry.initialBalance
      let balances ← lift (addInt balances entry.initialBalance)
      completedBalances entries balances

def completeRedelegation (ctx : HeaderInfo) (delAddr : AccAddress)
    (valSrcAddr valDstAddr : ValAddress) : Call X Int := do
  let red ← find (fun s => s.redelegations[(delAddr, valSrcAddr, valDstAddr)]?) (.error .notFound)
  let balances ← completedBalances (red.entries.filter (fun entry => entry.isMature ctx.time)) 0
  storeRedelegation { red with
    entries := red.entries.filter (fun entry => !entry.isMature ctx.time) }
  pure balances

def validateUnbondAmount (valAddr : ValAddress) (amt : Int) : Call X LegacyDec := do
  let validator ← getValidator valAddr
  let del ← find (fun s => s.delegations[(delAddr, valAddr)]?) (.error .notFound)
  let shares ← lift (validator.sharesFromTokens amt)
  let sharesTruncated ← lift (validator.sharesFromTokensTruncated amt)
  reject (sharesTruncated.gt del.shares) (.error (.invalidRequest "invalid shares amount"))
  let tolerance ← lift (validator.sharesFromTokens 1)
  let rest ← lift (del.shares.sub shares)
  pure (if rest.lt tolerance then del.shares else shares)

end CosmosSDK.Staking.Keeper
