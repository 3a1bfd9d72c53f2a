import CosmosSDK.Staking.Effects.Delegations
import CosmosSDK.Staking.Keeper.ValStateChange

/-!
# Effects of the end of a block

A validator that changes its status takes its tokens from the stake of one pool to the
stake of the other, and no coins move yet.  The sums of the two loops are what the pools
are out of balance by, and one transfer of their difference restores the balance.
-/

namespace CosmosSDK.Staking.Keeper

open Store Math OrderedKV Stateful StakeLedger Validator Effect Set

variable {X : Type} {k : Keeper X} {ctx : HeaderInfo} {s s' : State X} {u : Unit}

/-- What the pools are out of balance by when tokens of stake have become bonded and no coins
have moved. -/
def bonding (amt : Int) : Pool → Int := Pi.single .notBonded amt - Pi.single .bonded amt

theorem bonding_add (a b : Int) : bonding (a + b) = bonding a + bonding b := by
  simp only [bonding, Pi.single_add]
  abel

theorem bonding_neg (a : Int) : bonding (-a) = -bonding a := by
  simp only [bonding, Pi.single_neg]
  abel

@[simp] theorem bonding_zero : bonding 0 = 0 := by simp [bonding]

/-! ## Transitions of one validator -/

variable {v v' : Validator} {acc : Applied} {updates : List ValidatorUpdate} {addr : ValAddress}

theorem bondValidator_ledger (h : k.bondValidator v s = .ok v' s') :
    v' = v.updateStatus .bonded ∧ s'.ledger =
      { s.ledger with validators := s.ledger.validators.insert v'.operatorAddress v' } := by
  simp only [bondValidator, bind_ok, pure_ok] at h
  obtain ⟨_, _, h1, _, _, h2, _, _, h3, _, _, h4, _, _, h5, rfl, rfl⟩ := h
  refine ⟨rfl, ?_⟩
  rw [callHook_ledger h5, deleteValidatorQueue_ledger h4, setValidatorByPowerIndex_ledger h3,
    setValidator_ledger h2, deleteValidatorByPowerIndex_ledger h1]

theorem bondValidator_effect (hs : s.ledger.Formed)
    (hv : s.ledger.validators[v.operatorAddress]? = some v) (hstatus : v.status.pool = .notBonded)
    (h : k.bondValidator v s = .ok v' s') :
    Effect {v.operatorAddress} (bonding v'.tokens) 0 s.ledger s'.ledger := by
  obtain ⟨rfl, hledger⟩ := bondValidator_ledger h
  rw [hledger]
  refine (replaceValidator_effect hs hv (v.updateStatus .bonded)
    ⟨rfl, rfl, rfl⟩ (by simp [updateStatus])).congr subset_rfl ?_ rfl
  rw [hstatus]
  rfl

theorem enterSet_effect (hs : s.ledger.Formed)
    (hv : s.ledger.validators[v.operatorAddress]? = some v) {amt amt' : Int}
    (h : k.enterSet v amt s = .ok (v', amt') s') :
    Effect {v.operatorAddress} (bonding (amt' - amt)) 0 s.ledger s'.ledger := by
  unfold enterSet at h
  cases hstatus : v.status with
  | unspecified => simp [hstatus, err] at h
  | bonded =>
    rw [hstatus] at h
    obtain ⟨hret, rfl⟩ := pure_ok.mp h
    obtain ⟨-, rfl⟩ := Prod.mk.inj hret
    exact (refl hs).congr (empty_subset _) (by simp) rfl
  | unbonded | unbonding =>
    simp only [hstatus, unbondedToBonded, unbondingToBonded, pure_ok, steps] at h
    obtain ⟨_, _, ⟨_, -, h1⟩, _, hsum, hret, rfl⟩ := h
    obtain ⟨rfl, rfl⟩ := Prod.mk.inj hret
    exact (bondValidator_effect hs hv (by rw [hstatus]; rfl) h1).congr subset_rfl
      (by rw [addInt_ok hsum, add_sub_cancel_left]) rfl

theorem reportPower_ledger {valAddr : ValAddress} {newPower : Int}
    (h : reportPower valAddr v newPower acc s = .ok updates s') : s'.ledger = s.ledger := by
  unfold reportPower at h
  split at h
  · rw [(pure_ok.mp h).2]
  · simp only [setLastValidatorPower, bind_ok, update_ok, pure_ok] at h
    obtain ⟨_, _, rfl, -, rfl⟩ := h
    rfl

section

variable (hs : s.ledger.Formed)
include hs

theorem applySet_effect {maxValidators : Nat} {addrs : List ValAddress}
    {acc' : Applied} (h : k.applySet maxValidators addrs acc s = .ok acc' s') :
    Effect univ (bonding (acc'.amtFromNotBondedToBonded - acc.amtFromNotBondedToBonded)) 0
      s.ledger s'.ledger := by
  have hstop : ∀ {t : State X} {acc acc' : Applied}, t.ledger.Formed →
      (pure acc : Call X Applied) t = .ok acc' s' →
      Effect univ (bonding (acc'.amtFromNotBondedToBonded - acc.amtFromNotBondedToBonded)) 0
        t.ledger s'.ledger := by
    intro t acc acc' ht hpure
    obtain ⟨rfl, rfl⟩ := pure_ok.mp hpure
    exact (refl ht).congr (empty_subset _) (by simp) rfl
  induction addrs generalizing s acc with
  | nil => exact hstop hs h
  | cons addr addrs ih =>
    rw [applySet] at h
    split at h
    · exact hstop hs h
    · simp only [steps] at h
      obtain ⟨_, hv, _, -, _, -, h⟩ := h
      split at h
      · exact hstop hs h
      · simp only [steps] at h
        obtain ⟨⟨_, _⟩, _, h4, _, -, _, _, h6, _, -, h⟩ := h
        have e1 := enterSet_effect hs (stored_of_lookup hs hv) h4
        rw [← reportPower_ledger h6] at e1
        have e2 := ih e1.formed h
        refine (e1.trans e2).congr (subset_univ _) ?_ (by simp)
        rw [← bonding_add]
        congr 1
        dsimp only
        omega

/-! ## Validators that leave the set -/

theorem bondedToUnbonding_effect (hv : s.ledger.validators[v.operatorAddress]? = some v)
    (h : k.bondedToUnbonding ctx v s = .ok v' s') :
    Effect {v.operatorAddress} (-bonding v'.tokens) 0 s.ledger s'.ledger := by
  simp only [bondedToUnbonding, beginUnbondingValidator, pure_ok, steps] at h
  obtain ⟨_, hbonded, time, -, _, _, h3, _, -, _, _, h5, _, _, h6, _, _, h7, _, _, h8, rfl,
    rfl⟩ := h
  have hbonded : v.status = .bonded := by simpa [isBonded] using hbonded
  rw [callHook_ledger h8, insertUnbondingValidatorQueue_ledger h7, setValidatorByPowerIndex_ledger h6,
    setValidator_ledger h5, deleteValidatorByPowerIndex_ledger h3]
  refine (replaceValidator_effect hs hv { v.updateStatus .unbonding with
    unbondingTime := ctx.time + time, unbondingHeight := ctx.height }
    ⟨rfl, rfl, rfl⟩ (by simp [updateStatus])).congr subset_rfl ?_ rfl
  rw [hbonded]
  exact (neg_sub _ _).symm

theorem leaveSet_effect {acc acc' : List ValidatorUpdate × Int}
    (h : k.leaveSet ctx acc addr s = .ok acc' s') :
    Effect univ (bonding (acc.2 - acc'.2)) 0 s.ledger s'.ledger := by
  simp only [leaveSet, deleteLastValidatorPower, update_ok, pure_ok, steps] at h
  obtain ⟨_, hv, _, _, h2, _, hamt, _, _, rfl, rfl, rfl⟩ := h
  refine (bondedToUnbonding_effect hs (stored_of_lookup hs hv) h2).congr (subset_univ _) ?_ rfl
  rw [← bonding_neg]
  congr 1
  rw [addInt_ok hamt]
  omega

/-! ## Rotations and the transfer -/

theorem updateToNewPubkey_effect
    (hv : s.ledger.validators[v.operatorAddress]? = some v) {oldPubKey newPubKey : ConsPubKey}
    {fee : Types.Coin} (h : k.updateToNewPubkey v oldPubKey newPubKey fee s = .ok u s') :
    Effect {v.operatorAddress} 0 0 s.ledger s'.ledger := by
  simp only [updateToNewPubkey, setConsAddrToValidatorIdentifierMap, bind_ok, update_ok] at h
  obtain ⟨_, _, rfl, _, _, h2, _, s3, h3, _, _, h4, _, s5, h5, _, _, rfl, _, _, rfl, h⟩ := h
  have hledger : s'.ledger = { s.ledger with
      validators := s.ledger.validators.insert v.operatorAddress
        { v with consensusPubkey := newPubKey } } := by
    calc s'.ledger = s5.ledger := (callHook_ledger h).trans rfl
      _ = s3.ledger := by rw [setValidatorByPowerIndex_ledger h5, setValidatorByConsAddr_ledger h4]
      _ = _ := by rw [setValidator_ledger h3, deleteValidatorByPowerIndex_ledger h2]; rfl
  rw [hledger]
  exact editValidator_balanced hs hv { v with consensusPubkey := newPubKey }
    ⟨rfl, rfl, rfl⟩ rfl

theorem applyRotation_effect {updates' : List ValidatorUpdate}
    {history : ConsPubKeyRotationHistory} (h : k.applyRotation updates history s = .ok updates' s') :
    Effect univ 0 0 s.ledger s'.ledger := by
  simp only [applyRotation, getValidator, steps] at h
  obtain ⟨_, hv, h⟩ := h
  split at h
  · obtain ⟨-, rfl⟩ := pure_ok.mp h
    exact (refl hs).congr (empty_subset _) rfl rfl
  · simp only [pure_ok, steps] at h
    obtain ⟨_, -, _, _, h3, -, rfl⟩ := h
    exact (updateToNewPubkey_effect hs (stored_of_lookup hs hv) h3).congr (subset_univ _) rfl rfl

end

theorem balancePools_ledger {a b : Int} (h : balancePools a b s = .ok u s') :
    s'.ledger = { s.ledger with pools := s.ledger.pools + bonding (b - a) } := by
  unfold balancePools at h
  split at h
  · simp only [notBondedTokensToBonded, steps] at h
    obtain ⟨_, hamt, h⟩ := h
    rw [sendBetweenPools_ledger h, subInt_ok hamt, ← neg_sub a b, bonding_neg]
    simp [bonding]
  · split at h
    · simp only [bondedTokensToNotBonded, steps] at h
      obtain ⟨_, hamt, h⟩ := h
      rw [sendBetweenPools_ledger h, subInt_ok hamt]
      rfl
    · obtain ⟨-, rfl⟩ := pure_ok.mp h
      obtain rfl : a = b := by omega
      simp [State.ledger]

variable (hs : s.ledger.Formed)
include hs

theorem applyAndReturnValidatorSetUpdates_effect
    (h : k.applyAndReturnValidatorSetUpdates ctx s = .ok updates s') :
    Effect univ 0 0 s.ledger s'.ledger := by
  simp only [applyAndReturnValidatorSetUpdates, steps] at h
  obtain ⟨_, rfl, acc, s2, h2, ⟨_, amtFromBonded⟩, s3, h3, _, -, _, _, h5, _,
    s6, h6, h⟩ := h
  have e1 := applySet_effect hs h2
  have e2 := foldlM_induct
    (I := fun _ (r : List ValidatorUpdate × Int) t =>
      Effect univ (bonding (-r.2)) 0 s2.ledger t.ledger)
    (fun addr _ r t r' t' e hstep => by
      refine (e.trans (leaveSet_effect e.formed hstep)).congr (subset_univ _) ?_ (by simp)
      rw [← bonding_add]
      congr 1
      omega)
    h3 ((refl e1.formed).congr (empty_subset _) (by simp) rfl)
  have e3 := foldlM_induct (I := fun _ _ t => Effect univ 0 0 s3.ledger t.ledger)
    (fun history _ r t r' t' e hstep =>
      (e.trans (applyRotation_effect e.formed hstep)).congr (subset_univ _) (by simp) (by simp))
    h5 ((refl e2.formed).congr (empty_subset _) rfl rfl)
  have e4 := pools e3.formed (bonding (amtFromBonded - acc.amtFromNotBondedToBonded))
  rw [← balancePools_ledger h6] at e4
  have hlast : s'.ledger = s6.ledger := by
    split at h
    · rw [(pure_ok.mp h).2]
    · simp only [update_ok, pure_ok, steps] at h
      obtain ⟨_, _, rfl, -, rfl⟩ := h
      rfl
  rw [hlast]
  refine (((e1.trans e2).trans e3).trans e4).congr (subset_univ _) ?_ (by simp)
  rw [add_zero, ← bonding_add, ← bonding_add, ← bonding_zero]
  congr 1
  dsimp only
  omega

/-! ## The end of unbonding -/

theorem unbondMatureValidator_effect
    (h : k.unbondMatureValidator addr s = .ok u s') : Effect univ 0 0 s.ledger s'.ledger := by
  simp only [unbondMatureValidator, unbondingToUnbonded, completeUnbondingValidator, getValidator,
    pure_ok, steps] at h
  obtain ⟨v, hv, _, hunbonding, _, _, ⟨_, -, _, s5, h5, rfl, rfl⟩, _, _, h6, h⟩ := h
  have hunbonding : v.status = .unbonding := by simpa [isUnbonding] using hunbonding
  have e1 := replaceValidator_effect hs (stored_of_lookup hs hv)
    (v.updateStatus .unbonded) ⟨rfl, rfl, rfl⟩ (by simp [updateStatus])
  rw [← setValidator_ledger h5, hunbonding] at e1
  rw [deleteValidatorQueue_ledger h]
  unfold removeEmptyValidator at h6
  split at h6
  · rename_i hzero
    have hzero : v.delegatorShares.i = 0 := of_decide_eq_true hzero
    have hstored : s5.ledger.validators[v.operatorAddress]? = some (v.updateStatus .unbonded) := by
      rw [setValidator_ledger h5]
      exact (lookup_insert _ _ _ _).trans (if_pos rfl)
    obtain ⟨-, -, e2⟩ := removeValidator_effect e1.formed hstored hzero h6
    exact (e1.trans e2).congr (subset_univ _) (by simp [BondStatus.pool, updateStatus])
      (by simp)
  · obtain ⟨-, rfl⟩ := pure_ok.mp h6
    exact e1.congr (subset_univ _) (by simp [BondStatus.pool, updateStatus]) rfl

theorem unbondMatureValidators_effect {slot : (Time × Int) × List ValAddress}
    (h : k.unbondMatureValidators ctx slot s = .ok u s') :
    Effect univ 0 0 s.ledger s'.ledger := by
  unfold unbondMatureValidators at h
  split at h
  · obtain ⟨-, rfl⟩ := pure_ok.mp h
    exact (refl hs).congr (empty_subset _) rfl rfl
  · exact forM_induct (I := fun _ t => Effect univ 0 0 s.ledger t.ledger)
      (fun addr _ t t' e hstep => (e.trans (unbondMatureValidator_effect e.formed hstep)).congr
        (subset_univ _) (by simp) (by simp))
      h ((refl hs).congr (empty_subset _) rfl rfl)

theorem unbondAllMatureValidators_effect (h : k.unbondAllMatureValidators ctx s = .ok u s') :
    Effect univ 0 0 s.ledger s'.ledger := by
  simp only [unbondAllMatureValidators, steps] at h
  obtain ⟨_, -, h⟩ := h
  exact forM_induct (I := fun _ t => Effect univ 0 0 s.ledger t.ledger)
    (fun slot _ t t' e hstep => (e.trans (unbondMatureValidators_effect e.formed hstep)).congr
      (subset_univ _) (by simp) (by simp))
    h ((refl hs).congr (empty_subset _) rfl rfl)

end CosmosSDK.Staking.Keeper
