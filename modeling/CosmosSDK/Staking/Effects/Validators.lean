import CosmosSDK.Staking.Keeper.Validators
import CosmosSDK.Staking.Ledger

/-!
# Effects of the validator store

What the functions of the validator store do to the ledger of stake.  Hooks, indexes
and queues are no part of it.
-/

namespace CosmosSDK.Staking.Keeper

open Math Auth Stateful StakeLedger Fallible State

variable {X : Type} {k : Keeper X} {s s' : State X} {u : Unit}

/-! ## Functions that leave the ledger alone -/

theorem callHook_ledger {call : HookCall} (h : k.callHook call s = .ok u s') :
    s'.ledger = s.ledger := by
  simp only [callHook, transition_ok, bind_eq_ok] at h
  obtain ⟨_, -, h⟩ := h
  cases h
  rfl

variable {v v' : Validator} {addr : ValAddress} {amt : Int} {c : StakeLedger} {p : Pool}
  {del : AccAddress}

theorem setValidatorByConsAddr_ledger (h : k.setValidatorByConsAddr v s = .ok u s') :
    s'.ledger = s.ledger := by
  obtain rfl := update_ok.mp h
  rfl

theorem setNewValidatorByPowerIndex_ledger (h : k.setNewValidatorByPowerIndex v s = .ok u s') :
    s'.ledger = s.ledger := by
  simp only [setNewValidatorByPowerIndex, update_ok, steps] at h
  obtain ⟨_, -, rfl⟩ := h
  rfl

theorem setValidatorByPowerIndex_ledger (h : k.setValidatorByPowerIndex v s = .ok u s') :
    s'.ledger = s.ledger := by
  unfold setValidatorByPowerIndex at h
  split at h
  · rw [(pure_ok.mp h).2]
  · exact setNewValidatorByPowerIndex_ledger h

theorem deleteValidatorByPowerIndex_ledger (h : k.deleteValidatorByPowerIndex v s = .ok u s') :
    s'.ledger = s.ledger := by
  simp only [deleteValidatorByPowerIndex, update_ok, steps] at h
  obtain ⟨_, -, rfl⟩ := h
  rfl

theorem insertUnbondingValidatorQueue_ledger (h : insertUnbondingValidatorQueue v s = .ok u s') :
    s'.ledger = s.ledger := by
  simp only [insertUnbondingValidatorQueue, setUnbondingValidatorsQueue, update_ok, steps] at h
  obtain ⟨_, -, rfl⟩ := h
  rfl

theorem deleteValidatorQueue_ledger (h : deleteValidatorQueue v s = .ok u s') :
    s'.ledger = s.ledger := by
  simp only [deleteValidatorQueue, setUnbondingValidatorsQueue, deleteValidatorQueueTimeSlice,
    steps] at h
  obtain ⟨_, -, h⟩ := h
  split at h
  all_goals
    obtain rfl := update_ok.mp h
    rfl

/-! ## Records -/

theorem stored_of_lookup (hs : s.ledger.Formed) (hv : s.validators[addr]? = some v) :
    s.ledger.validators[v.operatorAddress]? = some v := by
  rw [(hs.validators addr v hv).key_eq]
  exact hv

theorem setValidator_ledger (h : setValidator v s = .ok u s') :
    s'.ledger =
      { s.ledger with validators := s.ledger.validators.insert v.operatorAddress v } := by
  obtain rfl := update_ok.mp h
  rfl

theorem addValidatorTokensAndShares_ledger {issued : LegacyDec}
    (h : k.addValidatorTokensAndShares v amt s = .ok (v', issued) s') :
    v.addTokensFromDel amt = .ok (v', issued) ∧
      s'.ledger =
        { s.ledger with validators := s.ledger.validators.insert v'.operatorAddress v' } := by
  simp only [addValidatorTokensAndShares, pure_ok, steps] at h
  obtain ⟨_, _, h1, ⟨_, _⟩, hadd, _, _, h3, _, _, h4, hret, rfl⟩ := h
  obtain ⟨rfl, rfl⟩ := Prod.mk.inj hret
  refine ⟨hadd, ?_⟩
  rw [setValidatorByPowerIndex_ledger h4, setValidator_ledger h3,
    deleteValidatorByPowerIndex_ledger h1]

theorem removeValidatorTokensAndShares_ledger {shares : LegacyDec}
    (h : k.removeValidatorTokensAndShares v shares s = .ok (v', amt) s') :
    v.removeDelShares shares = .ok (v', amt) ∧
      s'.ledger =
        { s.ledger with validators := s.ledger.validators.insert v'.operatorAddress v' } := by
  simp only [removeValidatorTokensAndShares, pure_ok, steps] at h
  obtain ⟨_, _, h1, ⟨_, _⟩, hremove, _, _, h3, _, _, h4, hret, rfl⟩ := h
  obtain ⟨rfl, rfl⟩ := Prod.mk.inj hret
  refine ⟨hremove, ?_⟩
  rw [setValidatorByPowerIndex_ledger h4, setValidator_ledger h3,
    deleteValidatorByPowerIndex_ledger h1]

theorem removeValidatorTokens_ledger (h : k.removeValidatorTokens v amt s = .ok v' s') :
    v.removeTokens amt = .ok v' ∧
      s'.ledger =
        { s.ledger with validators := s.ledger.validators.insert v'.operatorAddress v' } := by
  simp only [removeValidatorTokens, pure_ok, steps] at h
  obtain ⟨_, _, h1, _, hremove, _, _, h3, _, _, h4, rfl, rfl⟩ := h
  refine ⟨hremove, ?_⟩
  rw [setValidatorByPowerIndex_ledger h4, setValidator_ledger h3,
    deleteValidatorByPowerIndex_ledger h1]

structure SameStake (v v' : Validator) : Prop where
  operatorAddress : v'.operatorAddress = v.operatorAddress
  tokens : v'.tokens = v.tokens
  delegatorShares : v'.delegatorShares = v.delegatorShares

/-- A record is replaced by one with the same stake; with another status the tokens belong to
another pool. -/
theorem replaceValidator_effect (hc : c.Formed) (hv : c.validators[v.operatorAddress]? = some v)
    (v' : Validator) (hsame : SameStake v v') (hstatus : v'.status ≠ .unspecified) :
    Effect {v.operatorAddress} (Pi.single v.status.pool v.tokens - Pi.single v'.status.pool v.tokens)
      0 c { c with validators := c.validators.insert v'.operatorAddress v' } := by
  obtain ⟨haddr, htokens, hshares⟩ := hsame
  have hsolvent := (hc.validators _ v hv).solvent
  have hsolvent' : v'.Solvent :=
    ⟨htokens ▸ hsolvent.tokens_nonneg, htokens ▸ hshares ▸ hsolvent.tokens_le_shares, hstatus⟩
  refine (Effect.setValidator hc (haddr ▸ hv) hsolvent').congr (by rw [haddr]) (by rw [htokens]) ?_
  rw [hshares, sub_self, Pi.single_zero]

theorem editValidator_balanced (hc : c.Formed) (hv : c.validators[v.operatorAddress]? = some v)
    (v' : Validator) (hsame : SameStake v v') (hstatus : v'.status = v.status) :
    Effect {v.operatorAddress} 0 0 c
      { c with validators := c.validators.insert v'.operatorAddress v' } :=
  (replaceValidator_effect hc hv v' hsame (hstatus ▸ (hc.validators _ v hv).solvent.status_ne)).congr
    subset_rfl (by rw [hstatus, sub_self]) rfl

/-- Removing a validator that has no shares; it had no tokens either and was unbonded. -/
theorem removeValidator_effect (hs : s.ledger.Formed) (hv : s.ledger.validators[addr]? = some v)
    (hshares : v.delegatorShares.i = 0) (h : k.removeValidator addr s = .ok u s') :
    v.status = .unbonded ∧
      s'.ledger = { s.ledger with validators := s.ledger.validators.erase addr } ∧
      Effect {addr} 0 0 s.ledger s'.ledger := by
  simp only [removeValidator, steps] at h
  obtain ⟨_, rfl, h⟩ := h
  rw [show s.validators[addr]? = some v from hv] at h
  simp only [removeFoundValidator, update_ok, steps] at h
  obtain ⟨_, hstatus, _, _, _, _, rfl, _, _, rfl, _, _, h5, h⟩ := h
  have hstatus : v.status = .unbonded := by simpa [Validator.isUnbonded] using hstatus
  have hledger : s'.ledger = { s.ledger with validators := s.ledger.validators.erase addr } := by
    rw [callHook_ledger h, deleteValidatorByPowerIndex_ledger h5]
    rfl
  have hsolvent := (hs.validators addr v hv).solvent
  refine ⟨hstatus, hledger, ?_⟩
  rw [hledger]
  exact Effect.removeValidator hs hv (by have := hsolvent.tokens_nonneg; omega) hshares

/-! ## Pools -/

theorem withdraw_eq (pools : Pool → Int) (p : Pool) (amt : Int) :
    withdraw pools p amt = pools + -Pi.single p amt := by
  funext q
  by_cases hq : q = p
  · subst hq
    simp [withdraw, sub_eq_add_neg]
  · simp [withdraw, hq]

theorem deposit_eq (pools : Pool → Int) (p : Pool) (amt : Int) :
    deposit pools p amt = pools + Pi.single p amt := by
  funext q
  by_cases hq : q = p
  · subst hq
    simp [deposit]
  · simp [deposit, hq]

theorem sendBetweenPools_ledger {q : Pool} (h : sendBetweenPools p q amt s = .ok u s') :
    s'.ledger =
      { s.ledger with pools := s.ledger.pools + (Pi.single q amt - Pi.single p amt) } := by
  simp only [sendBetweenPools, newBondCoin, transition_ok, steps, refuse_eq_ok] at h
  obtain ⟨_, -, _, h⟩ := h
  cases h
  simp only [ledger, withdraw_eq, deposit_eq]
  congr 1
  abel

theorem burnPoolTokens_ledger (hamt : 0 ≤ amt) (h : burnPoolTokens p amt s = .ok u s') :
    s'.ledger = { s.ledger with pools := s.ledger.pools + -Pi.single p amt } := by
  unfold burnPoolTokens at h
  split at h
  · obtain ⟨-, rfl⟩ := pure_ok.mp h
    obtain rfl : amt = 0 := by omega
    simp [ledger]
  · rw [transition_ok] at h
    split at h
    · simp at h
    · cases h
      simp only [ledger, withdraw_eq]

theorem delegateCoinsFromAccountToModule_ledger
    (h : k.delegateCoinsFromAccountToModule del p amt s = .ok u s') :
    s'.ledger = { s.ledger with pools := s.ledger.pools + Pi.single p amt } := by
  simp only [delegateCoinsFromAccountToModule, transition_ok, bind_eq_ok] at h
  obtain ⟨_, -, h⟩ := h
  cases h
  simp only [ledger, deposit_eq]

theorem undelegateCoinsFromModuleToAccount_ledger
    (h : k.undelegateCoinsFromModuleToAccount p del amt s = .ok u s') :
    s'.ledger = { s.ledger with pools := s.ledger.pools + -Pi.single p amt } := by
  rw [undelegateCoinsFromModuleToAccount, transition_ok] at h
  simp only [passes] at h
  obtain ⟨_, _, -, h⟩ := h
  cases h
  simp only [ledger, withdraw_eq]

end CosmosSDK.Staking.Keeper
