import CosmosSDK.Staking.Keeper.BlockUpdates

/-!
# The registry of validators

Records of validators with everything that is derived from them: the index by consensus
address, the index by power, the queue of unbonding validators, the powers last reported
and the rotations of keys.  `Change` lists what transactions do to a registry, `Turn` what
a new validator set does and `Release` what the end of unbonding does.  Invariants of the
registry are proved for these relations, and the calls of the keeper are shown to follow
them.
-/

namespace CosmosSDK.Staking

open Store Math OrderedKV Std List Validator

structure Registry where
  validators : OrdMap ValAddress Validator
  validatorByConsensusAddress : OrdMap ConsAddress ValAddress
  validatorsByPowerIndex : OrdMap Bytes ValAddress
  validatorQueue : OrdMap (Time × Int) (List ValAddress)
  lastValidatorPower : OrdMap ValAddress Int
  lastTotalPower : Int
  rotationHistory : OrdMap (ValAddress × Int) ConsPubKeyRotationHistory
  consAddrToValidatorIdentifierMap : OrdMap ConsAddress ConsAddress
  oldToNewConsAddrMap : OrdMap ConsAddress ConsAddress

def State.registry {X : Type} (s : State X) : Registry where
  validators := s.validators
  validatorByConsensusAddress := s.validatorByConsensusAddress
  validatorsByPowerIndex := s.validatorsByPowerIndex
  validatorQueue := s.validatorQueue
  lastValidatorPower := s.lastValidatorPower
  lastTotalPower := s.lastTotalPower
  rotationHistory := s.rotationHistory
  consAddrToValidatorIdentifierMap := s.consAddrToValidatorIdentifierMap
  oldToNewConsAddrMap := s.oldToNewConsAddrMap

/-! ## Keys of the power index -/

namespace Keeper

variable {X : Type} (k : Keeper X)

def power (v : Validator) : Int := v.tokens.tdiv k.powerReduction

def powerKey (v : Validator) : Bytes :=
  uint64Bytes (k.power v) ++ [UInt8.ofNat v.operatorAddress.length] ++
    v.operatorAddress.map (fun b => ~~~b)

def Powered (v : Validator) : Prop := v.potentialConsensusPower k.powerReduction = .ok (k.power v)

variable {k} {power : Int} {v v' : Validator}

theorem tokensToConsensusPower_ok {tokens powerReduction : Int}
    (h : tokensToConsensusPower tokens powerReduction = .ok power) :
    powerReduction ≠ 0 ∧ power = tokens.tdiv powerReduction ∧ -2 ^ 63 ≤ power ∧ power < 2 ^ 63 := by
  obtain ⟨_, hquotient, h⟩ := Fallible.bind_eq_ok.mp h
  obtain ⟨hne, rfl⟩ := quoInt_ok hquotient
  split at h
  · rename_i hrange
    cases h
    exact ⟨hne, rfl, hrange⟩
  · simp at h

theorem potentialConsensusPower_ok (h : v.potentialConsensusPower k.powerReduction = .ok power) :
    power = k.power v ∧ k.Powered v := by
  obtain ⟨-, rfl, -⟩ := tokensToConsensusPower_ok h
  exact ⟨rfl, h⟩

theorem getValidatorsByPowerIndexKey_ok {key : Bytes}
    (h : k.getValidatorsByPowerIndexKey v = .ok key) : key = k.powerKey v ∧ k.Powered v := by
  obtain ⟨_, hpower, h⟩ := Fallible.bind_eq_ok.mp h
  obtain ⟨rfl, hpowered⟩ := potentialConsensusPower_ok hpower
  exact ⟨(Except.ok.inj h).symm, hpowered⟩

theorem Powered.key (h : k.Powered v) : k.getValidatorsByPowerIndexKey v = .ok (k.powerKey v) := by
  have h : tokensToConsensusPower v.tokens k.powerReduction = .ok (k.power v) := h
  simp [getValidatorsByPowerIndexKey, h, bind, Except.bind, powerKey]

theorem powerKey_congr (haddr : v'.operatorAddress = v.operatorAddress)
    (htokens : v'.tokens = v.tokens) : k.powerKey v' = k.powerKey v := by
  simp only [powerKey, power, haddr, htokens]

theorem Powered.congr (h : k.Powered v) (htokens : v'.tokens = v.tokens) : k.Powered v' := by
  unfold Powered potentialConsensusPower power at h ⊢
  rw [htokens]
  exact h

theorem powerKey_injective (h : k.powerKey v = k.powerKey v') :
    v.operatorAddress = v'.operatorAddress := by
  have hlength : ∀ i j : Int, (uint64Bytes i).length = (uint64Bytes j).length := by
    intro i j
    simp [uint64Bytes]
  unfold powerKey at h
  rw [append_assoc, append_assoc] at h
  obtain ⟨-, h⟩ := append_inj h (hlength _ _)
  obtain ⟨-, h⟩ := append_inj h (by rfl)
  refine map_injective_iff.mpr (fun a b hab => ?_) h
  have := congrArg (fun b => ~~~b) hab
  simpa using this

end Keeper

/-! ## Changes -/

namespace Registry

/-- A record replaces another one of the same validator, in the power index too. -/
def rewrite {X : Type} (k : Keeper X) (r : Registry) (v v' : Validator) : Registry :=
  { r with
    validators := r.validators.insert v'.operatorAddress v'
    validatorsByPowerIndex :=
      if v'.jailed then r.validatorsByPowerIndex.erase (k.powerKey v)
      else (r.validatorsByPowerIndex.erase (k.powerKey v)).insert (k.powerKey v')
        v'.operatorAddress }

def store (r : Registry) (v : Validator) : Registry :=
  { r with validators := r.validators.insert v.operatorAddress v }

def remove {X : Type} (k : Keeper X) (r : Registry) (v : Validator) : Registry :=
  { r with
    validators := r.validators.erase v.operatorAddress
    validatorByConsensusAddress :=
      r.validatorByConsensusAddress.erase (k.consAddress v.consensusPubkey)
    validatorsByPowerIndex := r.validatorsByPowerIndex.erase (k.powerKey v) }

def create {X : Type} (k : Keeper X) (r : Registry) (v : Validator) : Registry :=
  { r with
    validators := r.validators.insert v.operatorAddress v
    validatorByConsensusAddress :=
      r.validatorByConsensusAddress.insert (k.consAddress v.consensusPubkey) v.operatorAddress
    validatorsByPowerIndex := r.validatorsByPowerIndex.insert (k.powerKey v) v.operatorAddress }

def leaveQueue (r : Registry) (v : Validator) : Registry :=
  let slot := (v.unbondingTime, v.unbondingHeight)
  let addrs := ((r.validatorQueue[slot]?).getD []).filter
    (fun addr => decide (addr ≠ v.operatorAddress))
  { r with
    validatorQueue :=
      if addrs.isEmpty then r.validatorQueue.erase slot else r.validatorQueue.insert slot addrs }

def joinQueue (r : Registry) (v : Validator) : Registry :=
  let slot := (v.unbondingTime, v.unbondingHeight)
  { r with
    validatorQueue := r.validatorQueue.insert slot
      ((r.validatorQueue[slot]?).getD [] ++ [v.operatorAddress]) }

def rekey {X : Type} (k : Keeper X) (r : Registry) (v : Validator) (oldPubKey newPubKey : ConsPubKey) :
    Registry :=
  { r.rewrite k v { v with consensusPubkey := newPubKey } with
    validatorByConsensusAddress :=
      (r.validatorByConsensusAddress.erase (k.consAddress v.consensusPubkey)).insert
        (k.consAddress newPubKey) v.operatorAddress
    oldToNewConsAddrMap :=
      r.oldToNewConsAddrMap.insert (k.consAddress oldPubKey) (k.consAddress newPubKey)
    consAddrToValidatorIdentifierMap :=
      r.consAddrToValidatorIdentifierMap.insert (k.consAddress newPubKey)
        ((r.consAddrToValidatorIdentifierMap[k.consAddress oldPubKey]?).getD
          (k.consAddress oldPubKey)) }

/-- What a transaction does to the registry, apart from new validators and requests for
rotations. -/
inductive Change {X : Type} (k : Keeper X) : Registry → Registry → Prop
  | restake {r : Registry} {v : Validator} (tokens : Int) (delegatorShares : LegacyDec)
      (hv : r.validators[v.operatorAddress]? = some v)
      (hpowered : v.jailed = false →
        k.Powered { v with tokens := tokens, delegatorShares := delegatorShares }) :
      Change k r (r.rewrite k v { v with tokens := tokens, delegatorShares := delegatorShares })
  | edit {r : Registry} {v : Validator} (description : Description) (commission : Commission)
      (minSelfDelegation : Int) (hv : r.validators[v.operatorAddress]? = some v) :
      Change k r (r.store { v with
        description := description, commission := commission,
        minSelfDelegation := minSelfDelegation })
  | jail {r : Registry} {v : Validator} (hv : r.validators[v.operatorAddress]? = some v) :
      Change k r (r.rewrite k v { v with jailed := true })
  | unjail {r : Registry} {v : Validator} (hv : r.validators[v.operatorAddress]? = some v)
      (hpowered : k.Powered { v with jailed := false }) :
      Change k r (r.rewrite k v { v with jailed := false })
  | remove {r : Registry} {v : Validator} (hv : r.validators[v.operatorAddress]? = some v)
      (hstatus : v.status = .unbonded) : Change k r (r.remove k v)

def Restakes {X : Type} (k : Keeper X) (v : Validator) (r r' : Registry) : Prop :=
  ∃ (tokens : Int) (delegatorShares : LegacyDec),
    (v.jailed = false →
      k.Powered { v with tokens := tokens, delegatorShares := delegatorShares }) ∧
    r' = r.rewrite k v { v with tokens := tokens, delegatorShares := delegatorShares }

theorem Restakes.change {X : Type} {k : Keeper X} {v : Validator} {r r' : Registry}
    (h : Restakes k v r r') (hv : r.validators[v.operatorAddress]? = some v) : Change k r r' := by
  obtain ⟨tokens, delegatorShares, hpowered, rfl⟩ := h
  exact Change.restake tokens delegatorShares hv hpowered

inductive Turn {X : Type} (k : Keeper X) (ctx : HeaderInfo) : Registry → Registry → Prop
  | bond {r : Registry} {v : Validator} (hv : r.validators[v.operatorAddress]? = some v)
      (hjailed : v.jailed = false) (hstatus : v.status ≠ .bonded) :
      Turn k ctx r ((r.rewrite k v (v.updateStatus .bonded)).leaveQueue (v.updateStatus .bonded))
  | beginUnbonding {r : Registry} {v : Validator} (unbondingTime : Time)
      (hv : r.validators[v.operatorAddress]? = some v) (hstatus : v.status = .bonded) :
      Turn k ctx r
        ((r.rewrite k v { v.updateStatus .unbonding with
            unbondingTime := ctx.time + unbondingTime, unbondingHeight := ctx.height }).joinQueue
          { v.updateStatus .unbonding with
            unbondingTime := ctx.time + unbondingTime, unbondingHeight := ctx.height })
  | report {r : Registry} (lastValidatorPower : OrdMap ValAddress Int) (lastTotalPower : Int) :
      Turn k ctx r { r with
        lastValidatorPower := lastValidatorPower, lastTotalPower := lastTotalPower }

inductive Release {X : Type} (k : Keeper X) : Registry → Registry → Prop
  | finishUnbonding {r : Registry} {v : Validator}
      (hv : r.validators[v.operatorAddress]? = some v) (hstatus : v.status = .unbonding) :
      Release k r ((r.store (v.updateStatus .unbonded)).leaveQueue (v.updateStatus .unbonded))
  | remove {r : Registry} {v : Validator} (hv : r.validators[v.operatorAddress]? = some v)
      (hstatus : v.status = .unbonded) : Release k r (r.remove k v)

end Registry

end CosmosSDK.Staking
