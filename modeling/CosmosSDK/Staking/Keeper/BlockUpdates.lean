import CosmosSDK.Staking.Keeper.MsgServer

/-!
# The end of a block

`BlockValidatorUpdates` of `x/staking/keeper/val_state_change.go`, with the purge of
matured key rotations of `cons_pubkey.go`.
-/

namespace CosmosSDK.Staking.Keeper

open Store Math Std Stateful

variable {X : Type} (k : Keeper X) (ctx : HeaderInfo)

def getAndRemoveAllMaturedRotatedKeys (matureTime : Time) : Call X (List ValAddress) := do
  let slices ← load (fun s => matureSlices s.validatorConsensusKeyRotationRecordQueue matureTime)
  update (fun s => { s with
    validatorConsensusKeyRotationRecordQueue :=
      slices.foldl (fun queue slice => queue.erase slice.1)
        s.validatorConsensusKeyRotationRecordQueue })
  pure (slices.flatMap (fun slice => slice.2))

def deleteConsKeyIndexKey (ts : Time) (valAddr : ValAddress) : Call X Unit :=
  update (fun s => { s with
    validatorConsensusKeyRotationRecordIndexKey :=
      (s.validatorConsensusKeyRotationRecordIndexKey.keys.filter
        (fun key => decide (key.1 = valAddr ∧ zeroTime ≤ key.2 ∧ key.2 ≤ ts))).foldl
          (fun index key => index.erase key) s.validatorConsensusKeyRotationRecordIndexKey })

def purgeAllMaturedConsKeyRotatedKeys (maturedTime : Time) : Call X Unit := do
  let maturedRotatedValAddrs ← getAndRemoveAllMaturedRotatedKeys maturedTime
  maturedRotatedValAddrs.forM (deleteConsKeyIndexKey maturedTime)

/-- An error is returned; a panic is not. -/
def isReturned : Fault StakingErr → Bool
  | .error _ => true
  | .panic _ => false

/-- One mature pair of the queue; an error of `CompleteUnbonding` is skipped. -/
def completeMatureUnbonding (dvPair : DVPair) : Call X Unit :=
  recover isReturned
    (k.completeUnbonding ctx dvPair.delegatorAddress dvPair.validatorAddress)

/-- One mature redelegation of the queue; an error of `CompleteRedelegation` is skipped. -/
def completeMatureRedelegation (dvvTriplet : DVVTriplet) : Call X Unit :=
  recover isReturned (completeRedelegation ctx dvvTriplet.delegatorAddress
    dvvTriplet.validatorSrcAddress dvvTriplet.validatorDstAddress)

def blockValidatorUpdates : Call X (List ValidatorUpdate) := do
  let validatorUpdates ← k.applyAndReturnValidatorSetUpdates ctx
  k.unbondAllMatureValidators ctx
  let matureUnbonds ← dequeueAllMatureUBDQueue ctx.time
  matureUnbonds.forM (k.completeMatureUnbonding ctx)
  let matureRedelegations ← dequeueAllMatureRedelegationQueue ctx
  matureRedelegations.forM (completeMatureRedelegation ctx)
  purgeAllMaturedConsKeyRotatedKeys ctx.time
  pure validatorUpdates

end CosmosSDK.Staking.Keeper
