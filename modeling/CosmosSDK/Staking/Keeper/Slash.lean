import CosmosSDK.Staking.Keeper.Delegations

/-!
# Slashing

`x/staking/keeper/slash.go`.  An infraction of the past is also charged to stake that
has left the validator since: to the entries of unbonding delegations, and to the
delegations that redelegations have moved elsewhere.
-/

namespace CosmosSDK.Staking.Keeper

open Store Math Auth Std Stateful

variable {X : Type} (k : Keeper X) (ctx : HeaderInfo)

/-- The loop of `SlashUnbondingDelegation` over the entries that follow `done`; it returns
the amounts to slash and to burn. -/
def slashEntries (infractionHeight : Int) (slashFactor : LegacyDec) (ubd : UnbondingDelegation) :
    List UnbondingDelegationEntry → List UnbondingDelegationEntry → Int → Int → Call X (Int × Int)
  | _, [], totalSlashAmount, burnedAmount => pure (totalSlashAmount, burnedAmount)
  | done, entry :: entries, totalSlashAmount, burnedAmount =>
    -- unbonding began before the infraction, or has completed
    if entry.creationHeight < infractionHeight ∨ entry.isMature ctx.time then
      slashEntries infractionHeight slashFactor ubd (done ++ [entry]) entries totalSlashAmount
        burnedAmount
    else do
      let slashAmountDec ← lift (slashFactor.mulInt entry.initialBalance)
      let slashAmount ← lift slashAmountDec.truncateInt
      let totalSlashAmount ← lift (addInt totalSlashAmount slashAmount)
      let unbondingSlashAmount := min slashAmount entry.balance
      if unbondingSlashAmount = 0 then
        slashEntries infractionHeight slashFactor ubd (done ++ [entry]) entries totalSlashAmount
          burnedAmount
      else do
        let burnedAmount ← lift (addInt burnedAmount unbondingSlashAmount)
        let balance ← lift (subInt entry.balance unbondingSlashAmount)
        let entry := { entry with balance := balance }
        setUnbondingDelegation { ubd with entries := done ++ entry :: entries }
        slashEntries infractionHeight slashFactor ubd (done ++ [entry]) entries totalSlashAmount
          burnedAmount

def slashUnbondingDelegation (unbondingDelegation : UnbondingDelegation) (infractionHeight : Int)
    (slashFactor : LegacyDec) : Call X Int := do
  let (totalSlashAmount, burnedAmount) ← slashEntries ctx infractionHeight slashFactor
    unbondingDelegation [] unbondingDelegation.entries 0 0
  burnNotBondedTokens burnedAmount
  pure totalSlashAmount

/-- The loop of `SlashRedelegation` over the entries of an unbonding delegation from the
destination; it returns what is left to slash and the amount to burn. -/
def slashMovedEntries (infractionHeight : Int) (ubd : UnbondingDelegation) :
    List UnbondingDelegationEntry → List UnbondingDelegationEntry → Int → Int → Call X (Int × Int)
  | _, [], slashAmount, notBondedBurnedAmount => pure (slashAmount, notBondedBurnedAmount)
  | done, entry :: entries, slashAmount, notBondedBurnedAmount =>
    let unbondingSlashAmount := min slashAmount entry.balance
    if unbondingSlashAmount = 0 ∨ entry.creationHeight < infractionHeight ∨
        entry.isMature ctx.time then
      slashMovedEntries infractionHeight ubd (done ++ [entry]) entries slashAmount
        notBondedBurnedAmount
    else do
      let slashAmount ← lift (subInt slashAmount unbondingSlashAmount)
      let notBondedBurnedAmount ← lift (addInt notBondedBurnedAmount unbondingSlashAmount)
      let balance ← lift (subInt entry.balance unbondingSlashAmount)
      let entry := { entry with balance := balance }
      setUnbondingDelegation { ubd with entries := done ++ entry :: entries }
      slashMovedEntries infractionHeight ubd (done ++ [entry]) entries slashAmount
        notBondedBurnedAmount

/-- What `SlashRedelegation` has added up: the amount to slash, and what to burn from each
pool. -/
structure SlashSums where
  totalSlashAmount : Int
  bondedBurnedAmount : Int
  notBondedBurnedAmount : Int

/-- The shares `SlashRedelegation` unbonds: an error of the conversion comes with zero
shares, which are skipped. -/
def sharesToUnbond (dstVal : Validator) (slashAmount : Int) : StakingResult LegacyDec :=
  match dstVal.sharesFromTokensTruncated slashAmount with
  | .error (.error _) => .ok .zero
  | r => r

/-- Add the burned tokens to the pool of the destination; a destination that was removed
when its last share went is not bonded. -/
def addBurned (dst : Option Validator) (tokensToBurn : Int) (sums : SlashSums) :
    StakingResult SlashSums :=
  match (dst.map Validator.status : Option BondStatus) with
  | none | some .unbonded | some .unbonding => do
      let burned ← addInt sums.notBondedBurnedAmount tokensToBurn
      .ok { sums with notBondedBurnedAmount := burned }
  | some .bonded => do
      let burned ← addInt sums.bondedBurnedAmount tokensToBurn
      .ok { sums with bondedBurnedAmount := burned }
  | some .unspecified => .error (.error (.other "unknown validator status"))

/-- The part of `SlashRedelegation` that unbonds from the destination. -/
def slashMovedDelegation (delegatorAddress : AccAddress) (valDstAddr : ValAddress)
    (slashAmount : Int) (sums : SlashSums) : Call X SlashSums := do
  let dstVal ← getValidator valDstAddr
  let toUnbond ← lift (sharesToUnbond dstVal slashAmount)
  if toUnbond.isZero then pure sums
  else do
    match ← load (fun s => s.delegations[(delegatorAddress, valDstAddr)]?) with
    | none => pure sums
    | some delegation => do
        let toUnbond := if toUnbond.gt delegation.shares then delegation.shares else toUnbond
        let tokensToBurn ← k.unbond delegatorAddress valDstAddr toUnbond
        let dst ← load (fun s => s.validators[valDstAddr]?)
        lift (addBurned dst tokensToBurn sums)

def slashMovedUnbonding (delegatorAddress : AccAddress) (valDstAddr : ValAddress)
    (infractionHeight slashAmount notBondedBurnedAmount : Int) : Call X (Int × Int) := do
  match ← load (fun s => s.unbondingDelegations[(delegatorAddress, valDstAddr)]?) with
  | none => pure (slashAmount, notBondedBurnedAmount)
  | some ubd =>
    slashMovedEntries ctx infractionHeight ubd [] ubd.entries slashAmount notBondedBurnedAmount

/-- One entry of `SlashRedelegation`. -/
def slashRedelegationEntry (delegatorAddress : AccAddress) (valDstAddr : ValAddress)
    (infractionHeight : Int) (slashFactor : LegacyDec) (sums : SlashSums)
    (entry : RedelegationEntry) : Call X SlashSums :=
  if entry.creationHeight < infractionHeight ∨ (entry.isMature ctx.time ∧ entry.onHold = false) then
    pure sums
  else do
    let slashAmountDec ← lift (slashFactor.mulInt entry.initialBalance)
    let slashAmount ← lift slashAmountDec.truncateInt
    let totalSlashAmount ← lift (addInt sums.totalSlashAmount slashAmount)
    let (slashAmount, notBondedBurnedAmount) ← slashMovedUnbonding ctx delegatorAddress valDstAddr
      infractionHeight slashAmount sums.notBondedBurnedAmount
    let sums := { sums with
      totalSlashAmount := totalSlashAmount, notBondedBurnedAmount := notBondedBurnedAmount }
    if slashAmount = 0 then pure sums
    else k.slashMovedDelegation delegatorAddress valDstAddr slashAmount sums

def slashRedelegation (redelegation : Redelegation) (infractionHeight : Int)
    (slashFactor : LegacyDec) : Call X Int := do
  let sums ← redelegation.entries.foldlM
    (k.slashRedelegationEntry ctx redelegation.delegatorAddress redelegation.validatorDstAddress
      infractionHeight slashFactor) ⟨0, 0, 0⟩
  burnBondedTokens sums.bondedBurnedAmount
  burnNotBondedTokens sums.notBondedBurnedAmount
  pure sums.totalSlashAmount

def chargeUnbondingDelegation (infractionHeight : Int) (slashFactor : LegacyDec)
    (remainingSlashAmount : Int) (ubd : UnbondingDelegation) : Call X Int := do
  let amountSlashed ← slashUnbondingDelegation ctx ubd infractionHeight slashFactor
  if amountSlashed = 0 then pure remainingSlashAmount
  else lift (subInt remainingSlashAmount amountSlashed)

def chargeRedelegation (infractionHeight : Int) (slashFactor : LegacyDec)
    (remainingSlashAmount : Int) (red : Redelegation) : Call X Int := do
  let amountSlashed ← k.slashRedelegation ctx red infractionHeight slashFactor
  if amountSlashed = 0 then pure remainingSlashAmount
  else lift (subInt remainingSlashAmount amountSlashed)

/-- The scan of `Slash`: what is left to slash from the validator itself.  At the current
height nothing has left the validator. -/
def slashScan (operatorAddress : ValAddress) (infractionHeight : Int) (slashFactor : LegacyDec)
    (slashAmount : Int) : Call X Int :=
  if ctx.height < infractionHeight then
    err (.other "impossible attempt to slash future infraction")
  else if infractionHeight = ctx.height then pure slashAmount
  else do
    let unbondingDelegations ← load (fun s => getUnbondingDelegationsFromValidator s operatorAddress)
    let remaining ← unbondingDelegations.foldlM
      (chargeUnbondingDelegation ctx infractionHeight slashFactor) slashAmount
    let redelegations ← (do
      let s ← load id
      lift (getRedelegationsFromSrcValidator s operatorAddress))
    redelegations.foldlM (k.chargeRedelegation ctx infractionHeight slashFactor) remaining

/-- The fraction the hook is told: it is rounded up, and at most one. -/
def effectiveFraction (tokensToBurn tokens : Int) : StakingResult LegacyDec := do
  let fraction ← (LegacyDec.newDecFromInt tokensToBurn).quoRoundUp (.newDecFromInt tokens)
  .ok (if fraction.gt .one then .one else fraction)

/-- The call of the hook before a slash; a validator without tokens has no fraction. -/
def callBeforeSlashed (validator : Validator) (tokensToBurn : Int) : Call X Unit :=
  if 0 < validator.tokens then do
    let fraction ← lift (effectiveFraction tokensToBurn validator.tokens)
    k.callHook (.beforeValidatorSlashed validator.operatorAddress fraction)
  else pure ()

/-- `Slash` of a validator that exists. -/
def slashFound (validator : Validator) (infractionHeight : Int) (slashFactor : LegacyDec)
    (slashAmount : Int) : Call X Int := do
  reject validator.isUnbonded (.error (.other "should not be slashing unbonded validator"))
  let operatorAddress := validator.operatorAddress
  k.callHook (.beforeValidatorModified operatorAddress)
  let remaining ← k.slashScan ctx operatorAddress infractionHeight slashFactor slashAmount
  let tokensToBurn := max (min remaining validator.tokens) 0
  if tokensToBurn = 0 then pure 0
  else do
    k.callBeforeSlashed validator tokensToBurn
    let validator ← k.removeValidatorTokens validator tokensToBurn
    match sendName validator.status with
    | some pool => do
        burnPoolTokens pool tokensToBurn
        pure tokensToBurn
    | none => err (.other "invalid validator status")

/-- `Slash`: a validator that does not exist is ignored. -/
def slash (consAddr : ConsAddress) (infractionHeight power : Int) (slashFactor : LegacyDec) :
    Call X Int := do
  reject slashFactor.isNegative (.error (.other "attempted to slash with a negative slash factor"))
  let amount ← lift (Validator.tokensFromConsensusPower power k.powerReduction)
  let slashAmountDec ← lift ((LegacyDec.newDecFromInt amount).mul slashFactor)
  let slashAmount ← lift slashAmountDec.truncateInt
  match ← load (fun s => getValidatorByConsAddr s consAddr) with
  | none => pure 0
  | some validator => k.slashFound ctx validator infractionHeight slashFactor slashAmount

def unjailValidator (validator : Validator) : Call X Unit := do
  reject (!validator.jailed) (.error (.other "cannot unjail already unjailed validator"))
  let validator := { validator with jailed := false }
  setValidator validator
  k.setValidatorByPowerIndex validator

def jail (consAddr : ConsAddress) : Call X Unit := do
  let validator ← find (fun s => getValidatorByConsAddr s consAddr)
    (.error (.other "validator with consensus-Address not found"))
  k.jailValidator validator

def unjail (consAddr : ConsAddress) : Call X Unit := do
  let validator ← find (fun s => getValidatorByConsAddr s consAddr)
    (.error (.other "validator with consensus-Address not found"))
  k.unjailValidator validator

end CosmosSDK.Staking.Keeper
