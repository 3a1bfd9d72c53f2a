import CosmosSDK.Lib.Stateful
import CosmosSDK.Staking.Validator
import CosmosSDK.Types.Coin

/-!
# The state of the staking module

The records of `x/staking/types/delegation.go`, the collections of the keeper, and
what the keeper takes from its surroundings.  The balances of the two pools are part
of the state.  Everything outside of the module, other accounts included, is a state
of its own that hooks and the bank may change in any way; they may also fail.  A
transfer moves exactly the amount it is given into or out of a pool.
-/

namespace CosmosSDK.Staking

open Store CosmosSDK.Types Math Auth OrderedKV Std

/-! ## Records -/

structure Delegation where
  delegatorAddress : AccAddress
  validatorAddress : ValAddress
  shares : LegacyDec
deriving DecidableEq

structure UnbondingDelegationEntry where
  creationHeight : Int
  completionTime : Time
  initialBalance : Int
  balance : Int
deriving DecidableEq

def UnbondingDelegationEntry.isMature (e : UnbondingDelegationEntry) (currentTime : Time) : Bool :=
  e.completionTime ≤ currentTime

/-- `NewUnbondingDelegationEntry`. -/
def UnbondingDelegationEntry.new (creationHeight : Int) (completionTime : Time) (balance : Int) :
    UnbondingDelegationEntry := ⟨creationHeight, completionTime, balance, balance⟩

structure UnbondingDelegation where
  delegatorAddress : AccAddress
  validatorAddress : ValAddress
  entries : List UnbondingDelegationEntry
deriving DecidableEq

/-- The entries after `AddEntry`: an entry of the same height and time takes the balance,
otherwise it is appended. -/
def addEntry (creationHeight : Int) (minTime : Time) (balance : Int) :
    List UnbondingDelegationEntry → StakingResult (List UnbondingDelegationEntry)
  | [] => .ok [.new creationHeight minTime balance]
  | e :: entries =>
    if e.creationHeight = creationHeight ∧ e.completionTime = minTime then do
      let newBalance ← addInt e.balance balance
      let newInitial ← addInt e.initialBalance balance
      .ok ({ e with balance := newBalance, initialBalance := newInitial } :: entries)
    else do
      let entries ← addEntry creationHeight minTime balance entries
      .ok (e :: entries)

structure RedelegationEntry where
  creationHeight : Int
  completionTime : Time
  initialBalance : Int
  sharesDst : LegacyDec
  unbondingOnHoldRefCount : Int
deriving DecidableEq

def RedelegationEntry.isMature (e : RedelegationEntry) (currentTime : Time) : Bool :=
  e.completionTime ≤ currentTime

def RedelegationEntry.onHold (e : RedelegationEntry) : Bool := 0 < e.unbondingOnHoldRefCount

/-- `NewRedelegationEntry`. -/
def RedelegationEntry.new (creationHeight : Int) (completionTime : Time) (balance : Int)
    (sharesDst : LegacyDec) : RedelegationEntry :=
  ⟨creationHeight, completionTime, balance, sharesDst, 0⟩

structure Redelegation where
  delegatorAddress : AccAddress
  validatorSrcAddress : ValAddress
  validatorDstAddress : ValAddress
  entries : List RedelegationEntry
deriving DecidableEq

structure DVPair where
  delegatorAddress : AccAddress
  validatorAddress : ValAddress
deriving DecidableEq

structure DVVTriplet where
  delegatorAddress : AccAddress
  validatorSrcAddress : ValAddress
  validatorDstAddress : ValAddress
deriving DecidableEq

structure ConsPubKeyRotationHistory where
  operatorAddress : ValAddress
  oldConsPubkey : ConsPubKey
  newConsPubkey : ConsPubKey
  height : Int
  fee : Coin
deriving DecidableEq

structure Params where
  unbondingTime : Time
  maxValidators : Nat
  maxEntries : Nat
  bondDenom : Denom
  minCommissionRate : LegacyDec
  keyRotationFee : Coin
deriving DecidableEq

/-- `header.Info`. -/
structure HeaderInfo where
  height : Int
  time : Time
deriving DecidableEq

inductive Pool where
  | bonded
  | notBonded
deriving DecidableEq

/-! ## Collections -/

/-- The collections of the keeper, the balances of the pools, and the rest of the chain. -/
structure State (X : Type) where
  params : Params
  validators : OrdMap ValAddress Validator
  validatorByConsensusAddress : OrdMap ConsAddress ValAddress
  validatorsByPowerIndex : OrdMap Bytes ValAddress
  /-- by time and height -/
  validatorQueue : OrdMap (Time × Int) (List ValAddress)
  lastValidatorPower : OrdMap ValAddress Int
  lastTotalPower : Int
  delegations : OrdMap (AccAddress × ValAddress) Delegation
  delegationsByValidator : OrdMap (ValAddress × AccAddress) Unit
  unbondingDelegations : OrdMap (AccAddress × ValAddress) UnbondingDelegation
  unbondingDelegationByValIndex : OrdMap (ValAddress × AccAddress) Unit
  unbondingQueue : OrdMap Time (List DVPair)
  /-- by delegator, source and destination -/
  redelegations : OrdMap (AccAddress × ValAddress × ValAddress) Redelegation
  /-- by source, delegator and destination -/
  redelegationsByValSrc : OrdMap (ValAddress × AccAddress × ValAddress) Unit
  /-- by destination, delegator and source -/
  redelegationsByValDst : OrdMap (ValAddress × AccAddress × ValAddress) Unit
  redelegationQueue : OrdMap Time (List DVVTriplet)
  rotationHistory : OrdMap (ValAddress × Int) ConsPubKeyRotationHistory
  validatorConsensusKeyRotationRecordIndexKey : OrdMap (ValAddress × Time) Unit
  validatorConsensusKeyRotationRecordQueue : OrdMap Time (List ValAddress)
  consAddrToValidatorIdentifierMap : OrdMap ConsAddress ConsAddress
  oldToNewConsAddrMap : OrdMap ConsAddress ConsAddress
  pools : Pool → Int
  outside : X

def State.genesis {X : Type} (params : Params) (outside : X) : State X where
  params := params
  validators := ∅
  validatorByConsensusAddress := ∅
  validatorsByPowerIndex := ∅
  validatorQueue := ∅
  lastValidatorPower := ∅
  lastTotalPower := 0
  delegations := ∅
  delegationsByValidator := ∅
  unbondingDelegations := ∅
  unbondingDelegationByValIndex := ∅
  unbondingQueue := ∅
  redelegations := ∅
  redelegationsByValSrc := ∅
  redelegationsByValDst := ∅
  redelegationQueue := ∅
  rotationHistory := ∅
  validatorConsensusKeyRotationRecordIndexKey := ∅
  validatorConsensusKeyRotationRecordQueue := ∅
  consAddrToValidatorIdentifierMap := ∅
  oldToNewConsAddrMap := ∅
  pools := 0
  outside := outside

/-- A call of `StakingHooks`. -/
inductive HookCall where
  | afterValidatorCreated (valAddr : ValAddress)
  | beforeValidatorModified (valAddr : ValAddress)
  | afterValidatorRemoved (consAddr : ConsAddress) (valAddr : ValAddress)
  | afterValidatorBonded (consAddr : ConsAddress) (valAddr : ValAddress)
  | afterValidatorBeginUnbonding (consAddr : ConsAddress) (valAddr : ValAddress)
  | beforeDelegationCreated (delAddr : AccAddress) (valAddr : ValAddress)
  | beforeDelegationSharesModified (delAddr : AccAddress) (valAddr : ValAddress)
  | beforeDelegationRemoved (delAddr : AccAddress) (valAddr : ValAddress)
  | afterDelegationModified (delAddr : AccAddress) (valAddr : ValAddress)
  | beforeValidatorSlashed (valAddr : ValAddress) (fraction : LegacyDec)
  | afterConsensusPubKeyUpdate (oldPubKey newPubKey : ConsPubKey) (fee : Coin)

/-- What a chain configures.  The bank functions are the account side of a transfer. -/
structure Keeper (X : Type) where
  powerReduction : Int
  /-- `pk.Address()` -/
  consAddress : ConsPubKey → ConsAddress
  hooks : HookCall → State X → StakingResult X
  /-- `DelegateCoinsFromAccountToModule` -/
  delegateCoins : X → AccAddress → Int → StakingResult X
  /-- `UndelegateCoinsFromModuleToAccount` -/
  undelegateCoins : X → AccAddress → Int → StakingResult X
  /-- `SendCoinsFromAccountToModule` of the key rotation fee -/
  sendRotationFee : X → AccAddress → Coin → StakingResult X
  /-- `consensusKeeper.ValidatorPubKeyTypes`; absent when the params are not set -/
  validatorPubKeyTypes : X → StakingResult (Option (List String))
  validateDenom : Denom → Bool
  /-- `url.ParseRequestURI` ends without an error -/
  parseRequestURI : String → Bool

abbrev Call (X : Type) := EStateM (Fault StakingErr) (State X)

def err {X α : Type} (e : StakingErr) : Call X α := Stateful.fail (.error e)

end CosmosSDK.Staking
