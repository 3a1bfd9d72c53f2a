import CosmosSDK.Staking.Effects.Delegations
import CosmosSDK.Staking.Keeper.MsgServer

/-!
# Effects of the messages

Every message is balanced.  A new validator enters with no stake, and its first
delegation brings tokens and coins together; a cancelled unbonding delegation gives up
in its entry what the delegation takes from the pool.
-/

namespace CosmosSDK.Staking.Keeper

open Math OrderedKV Stateful StakeLedger Fallible List Set

variable {X : Type} {k : Keeper X} {ctx : HeaderInfo} {s s' : State X} {u : Unit}

/-! ## Checks -/

variable {amount : Types.Coin} {pk : ConsPubKey} {msg : MsgCreateValidator}
  {rates : CommissionRates} {v v' : Validator} {addr : ValAddress}
  {entries before after : List UnbondingDelegationEntry} {entry : UnbondingDelegationEntry}

theorem validAmount_pos (h : k.validAmount amount = true) : 0 < amount.amount := by
  simp only [validAmount, Types.Coin.isPositive, Bool.and_eq_true, decide_eq_true_eq] at h
  exact h.2

theorem checkBondDenom_state (h : checkBondDenom amount s = .ok u s') : s' = s := by
  simp only [checkBondDenom, steps] at h
  obtain ⟨_, -, -, rfl⟩ := h
  rfl

theorem checkConsKeyAlreadyUsed_state (h : k.checkConsKeyAlreadyUsed ctx pk s = .ok u s') :
    s' = s := by
  simp only [checkConsKeyAlreadyUsed, steps] at h
  obtain ⟨_, -, _, -, _, -, -, rfl⟩ := h
  rfl

/-! ## Validators -/

theorem validateMsgCreateValidator_ok {r : ConsPubKey × CommissionRates}
    (h : k.validateMsgCreateValidator msg = .ok r) : 0 < msg.value.amount := by
  unfold validateMsgCreateValidator at h
  split at h
  · simp at h
  · split at h
    · simp at h
    · rename_i hvalid
      exact validAmount_pos (by simpa using hvalid)

theorem newValidator_ok (h : newValidator ctx msg pk rates = .ok v) :
    v.operatorAddress = msg.validatorAddress ∧ v.tokens = 0 ∧ v.delegatorShares.i = 0 ∧ v.Solvent := by
  simp only [newValidator, Validator.setInitialCommission, bind_eq_ok] at h
  obtain ⟨_, ⟨-, -, h1⟩, h⟩ := h
  cases h1
  cases h
  have hnew := Validator.new_solvent msg.validatorAddress pk msg.description
  exact ⟨rfl, rfl, rfl, hnew.tokens_nonneg, hnew.tokens_le_shares, hnew.status_ne⟩

theorem checkCreateValidator_ok (h : k.checkCreateValidator ctx msg pk rates s = .ok u s') :
    s.ledger.validators[msg.validatorAddress]? = none ∧ s' = s := by
  simp only [checkCreateValidator, steps] at h
  obtain ⟨_, -, _, -, existing, hexisting, _, hnone, h⟩ := h
  obtain ⟨_, _, ⟨_, -, -, rfl⟩, _, -, _, _, h8, _, _, h9, -, rfl⟩ := h
  obtain rfl := checkConsKeyAlreadyUsed_state h8
  obtain rfl := checkBondDenom_state h9
  obtain rfl : existing = none := by simpa using hnone
  exact ⟨hexisting, rfl⟩

theorem createValidator_effect (hs : s.ledger.Formed) (h : k.createValidator ctx msg s = .ok u s') :
    Effect univ 0 0 s.ledger s'.ledger := by
  simp only [createValidator, pure_ok, steps] at h
  obtain ⟨⟨_, _⟩, hvalid, _, s2, h2, v, hv, _, _, h4, _, _, h5, _, _, h6, _, s7, h7, _,
    _, h8, -, rfl⟩ := h
  obtain ⟨habsent, rfl⟩ := checkCreateValidator_ok h2
  obtain ⟨haddr, htokens, hshares, hsolvent⟩ := newValidator_ok hv
  rw [← haddr] at habsent
  have e1 := Effect.addValidator hs habsent hsolvent htokens hshares
  have hrecord : s7.ledger = { s2.ledger with
      validators := s2.ledger.validators.insert v.operatorAddress v } := by
    rw [callHook_ledger h7, setNewValidatorByPowerIndex_ledger h6, setValidatorByConsAddr_ledger h5,
      setValidator_ledger h4]
  rw [← hrecord] at e1
  have hstored : s7.ledger.validators[v.operatorAddress]? = some v := by
    rw [hrecord]
    exact (lookup_insert _ _ _ _).trans (if_pos rfl)
  obtain ⟨e2, -⟩ := delegate_effect e1.formed (validateMsgCreateValidator_ok hvalid) hstored h8
  exact (e1.trans e2).congr (subset_univ _) (by simp [taken]) (by simp)

/-- A record with the same stake and standing. -/
def Edited (v v' : Validator) : Prop :=
  v' = { v with
    description := v'.description, commission := v'.commission,
    minSelfDelegation := v'.minSelfDelegation }

theorem editCommission_edited {rate : Option LegacyDec}
    (h : k.editCommission ctx addr v rate s = .ok v' s') :
    ∃ outside, s' = { s with outside := outside } ∧ Edited v v' := by
  cases rate with
  | none =>
    obtain ⟨rfl, rfl⟩ := pure_ok.mp h
    exact ⟨s.outside, rfl, rfl⟩
  | some =>
    simp only [editCommission, updateValidatorCommission, callHook, transition_ok, bind_eq_ok, pure_ok,
      steps] at h
    obtain ⟨_, _, ⟨_, -, _, -, _, -, -, rfl⟩, _, _, ⟨outside, -, h5⟩, rfl, rfl⟩ := h
    cases h5
    exact ⟨outside, rfl, rfl⟩

theorem editMinSelfDelegation_edited {amt : Option Int} (h : editMinSelfDelegation v amt = .ok v') :
    Edited v v' := by
  cases amt with
  | none =>
    cases h
    rfl
  | some =>
    simp only [editMinSelfDelegation, refuse_eq_ok] at h
    obtain ⟨-, -, h⟩ := h
    cases h
    rfl

theorem editValidator_ok {msg : MsgEditValidator} (h : k.editValidator ctx msg s = .ok u s') :
    ∃ v v' outside, s.validators[msg.validatorAddress]? = some v ∧ Edited v v' ∧
      setValidator v' { s with outside := outside } = .ok u s' := by
  simp only [editValidator, checkEditValidator, getValidator, steps] at h
  obtain ⟨_, _, ⟨_, -, _, -, _, -, _, -, -, rfl⟩, v, hv, _, -, _, _, h8, v2, hmin,
    h⟩ := h
  obtain ⟨outside, rfl, hedit1⟩ := editCommission_edited h8
  have hedit2 := editMinSelfDelegation_edited hmin
  refine ⟨v, v2, outside, hv, ?_, h⟩
  rw [Edited] at hedit1 hedit2 ⊢
  rw [hedit2, hedit1]

variable (hs : s.ledger.Formed)
include hs

theorem editValidator_effect {msg : MsgEditValidator}
    (h : k.editValidator ctx msg s = .ok u s') : Effect univ 0 0 s.ledger s'.ledger := by
  obtain ⟨_, v', _, hv, hedit, h⟩ := editValidator_ok h
  rw [setValidator_ledger h]
  exact (editValidator_balanced hs (stored_of_lookup hs hv) v'
    ⟨by rw [hedit], by rw [hedit], by rw [hedit]⟩ (by rw [hedit])).congr (subset_univ _) rfl rfl

/-! ## Delegations -/

theorem msgDelegate_effect {msg : MsgDelegate} {shares : LegacyDec}
    (h : k.msgDelegate msg s = .ok shares s') : Effect univ 0 0 s.ledger s'.ledger := by
  simp only [msgDelegate, getValidator, steps] at h
  obtain ⟨_, hvalid, _, hv, _, _, h3, h⟩ := h
  obtain rfl := checkBondDenom_state h3
  have hpos := validAmount_pos (by simpa using hvalid)
  exact (delegate_effect hs hpos (stored_of_lookup hs hv) h).1.congr (subset_univ _)
    (by simp [taken]) rfl

theorem msgUndelegate_effect (hsurplus : s.ledger.surplus = 0)
    {msg : MsgUndelegate} {r : Time × Int} (h : k.msgUndelegate ctx msg s = .ok r s') :
    Effect univ 0 0 s.ledger s'.ledger := by
  simp only [msgUndelegate, steps] at h
  obtain ⟨_, hvalid, _, _, h2, _, _, h3, h⟩ := h
  obtain rfl := checkBondDenom_state h3
  have hpos := validAmount_pos (by simpa using hvalid)
  obtain ⟨hshares, rfl⟩ := validateUnbondAmount_nonneg hs hpos.le h2
  exact (undelegate_effect hs hsurplus hshares h).congr (subset_univ _) rfl rfl

theorem msgBeginRedelegate_effect (hsurplus : s.ledger.surplus = 0)
    {msg : MsgBeginRedelegate} {time : Time} (h : k.msgBeginRedelegate ctx msg s = .ok time s') :
    Effect univ 0 0 s.ledger s'.ledger := by
  simp only [msgBeginRedelegate, steps] at h
  obtain ⟨_, hvalid, _, _, h2, _, _, h3, h⟩ := h
  obtain rfl := checkBondDenom_state h3
  have hpos := validAmount_pos (by simpa using hvalid)
  obtain ⟨hshares, rfl⟩ := validateUnbondAmount_nonneg hs hpos.le h2
  exact (beginRedelegation_effect hs hsurplus hshares h).congr (subset_univ _) rfl rfl

omit hs

/-! ## Cancelled unbonding -/

theorem splitAtHeight_ok {creationHeight : Int}
    (h : splitAtHeight creationHeight entries = some (before, entry, after)) :
    entries = before ++ entry :: after ∧ entry.creationHeight = creationHeight := by
  induction entries generalizing before with
  | nil => simp [splitAtHeight] at h
  | cons e entries ih =>
    rw [splitAtHeight] at h
    split at h
    · rename_i heq
      simp only [Option.some.injEq, Prod.mk.injEq] at h
      obtain ⟨rfl, rfl, rfl⟩ := h
      exact ⟨rfl, heq⟩
    · obtain ⟨⟨_, _, _⟩, hsplit, h⟩ := Option.map_eq_some_iff.mp h
      simp only [Prod.mk.injEq] at h
      obtain ⟨rfl, rfl, rfl⟩ := h
      obtain ⟨heq, hheight⟩ := ih hsplit
      exact ⟨by rw [heq]; rfl, hheight⟩

theorem cancelEntry_ok {amt : Int} (hle : amt ≤ entry.balance)
    (hfunded : ∀ e ∈ before ++ entry :: after, e.Funded)
    (h : cancelEntry before entry after amt = .ok entries) :
    (entries.map (fun e => e.balance)).sum =
        ((before ++ entry :: after).map (fun e => e.balance)).sum - amt ∧
      ∀ e ∈ entries, e.Funded := by
  simp only [cancelEntry, bind_eq_ok] at h
  obtain ⟨_, hamount, h⟩ := h
  obtain rfl := subInt_ok hamount
  split at h
  · cases h
    refine ⟨?_, fun e he => hfunded e ?_⟩
    · simp only [map_append, map_cons, sum_append, sum_cons]
      omega
    · rcases mem_append.mp he with hmem | hmem <;> simp [hmem]
  · obtain ⟨_, hinitial, h⟩ := bind_eq_ok.mp h
    obtain rfl := subInt_ok hinitial
    cases h
    refine ⟨?_, fun e he => ?_⟩
    · simp only [map_append, map_cons, sum_append, sum_cons]
      omega
    · rcases mem_append.mp he with hmem | hmem
      · exact hfunded e (mem_append_left _ hmem)
      · rcases mem_cons.mp hmem with rfl | hmem
        · have hentry := (hfunded entry (by simp)).2
          exact ⟨by dsimp only; omega, by dsimp only; omega⟩
        · exact hfunded e (by simp [hmem])

theorem cancelUnbondingDelegation_effect (hs : s.ledger.Formed) {msg : MsgCancelUnbondingDelegation}
    (h : k.cancelUnbondingDelegation ctx msg s = .ok u s') :
    Effect univ 0 0 s.ledger s'.ledger := by
  simp only [cancelUnbondingDelegation, getValidator, getUnbondingDelegation, steps] at h
  obtain ⟨_, hvalid, _, -, _, s3, h3, _, hv, h⟩ := h
  obtain ⟨_, -, _, -, ubd, hubd, h⟩ := h
  obtain ⟨⟨_, _, _⟩, hsplit, _, hle, _, -, h⟩ := h
  obtain ⟨_, s11, h11, entries, hentries, h⟩ := h
  obtain rfl := checkBondDenom_state h3
  have hpos := validAmount_pos (by simpa using hvalid)
  obtain ⟨hkey, hfunded⟩ := hs.unbonding _ ubd hubd
  have hsplit := (splitAtHeight_ok hsplit).1
  obtain ⟨hsum, hfunded'⟩ := cancelEntry_ok (by simpa using hle) (hsplit ▸ hfunded) hentries
  obtain ⟨e1, hunbonding⟩ := delegate_effect hs hpos (stored_of_lookup hs hv) h11
  have e2 := storeUnbondingDelegation_effect { ubd with entries := entries } e1.formed
    hfunded' h
  have hat : s11.ledger.balanceAt (ubd.delegatorAddress, ubd.validatorAddress) = ubd.balance := by
    unfold balanceAt
    rw [hunbonding, hkey, show s3.ledger.unbondingDelegations[_]? = some ubd from hubd]
    rfl
  refine (e1.trans e2).congr (subset_univ _) ?_ (by simp)
  rw [hat]
  unfold UnbondingDelegation.balance
  rw [hsum, ← hsplit]
  simp [taken, BondStatus.pool]

theorem setConsPubKeyRotationHistory_ledger {oldPubKey newPubKey : ConsPubKey} {fee : Types.Coin}
    (h : setConsPubKeyRotationHistory ctx addr oldPubKey newPubKey fee s = .ok u s') :
    s'.ledger = s.ledger := by
  simp only [setConsPubKeyRotationHistory, setConsKeyQueue, update_ok, steps] at h
  obtain ⟨_, -, _, -, _, _, rfl, _, -, _, _, rfl, rfl⟩ := h
  rfl

theorem rotateConsPubKey_ledger {msg : MsgRotateConsPubKey}
    (h : k.rotateConsPubKey ctx msg s = .ok u s') : s'.ledger = s.ledger := by
  simp only [rotateConsPubKey, exceedsMaxRotations, getValidator, transition_ok, bind_eq_ok, steps] at h
  obtain ⟨_, -, _, _, ⟨_, -, -, rfl⟩, _, -, h⟩ := h
  obtain ⟨_, -, _, _, h6, _, -, _, -, h⟩ := h
  obtain ⟨_, _, ⟨_, -, -, rfl⟩, _, -, _, _, ⟨_, -, hsend⟩, h⟩ := h
  obtain rfl := checkConsKeyAlreadyUsed_state h6
  cases hsend
  exact (setConsPubKeyRotationHistory_ledger h).trans rfl

end CosmosSDK.Staking.Keeper
