import CosmosSDK.Staking.Effects.Validators
import CosmosSDK.Staking.Keeper.Delegations

/-!
# Effects of delegations

The operations on delegations and what they do to the ledger of stake.  Delegating
leaves the pools and the stake in step, apart from what the caller takes out of the
pool of the source; unbonding takes the stake and leaves its coins in the pool.  An
undelegation or a redelegation puts the two together and is balanced.
-/

namespace CosmosSDK.Staking.Keeper

open Store Math Auth OrderedKV Stateful StakeLedger Fallible List LegacyDec Validator BondStatus
  Option
open Pi (single single_add)

variable {X : Type} {k : Keeper X} {s s' : State X} {u : Unit}

/-! ## Records -/

variable {d : Delegation} {ubd : UnbondingDelegation} {height balance amt balances balances' : Int}
  {time : Time} {entries kept : List UnbondingDelegationEntry} {del : AccAddress}
  {val src dst : ValAddress} {red : Redelegation} {v : Validator} {sub : Bool} {shares : LegacyDec}
  {ctx : HeaderInfo} {e : Fault StakingErr}

theorem setDelegation_ledger (h : setDelegation d s = .ok u s') :
    s'.ledger = { s.ledger with
      delegations := s.ledger.delegations.insert (d.delegatorAddress, d.validatorAddress) d
      delegationsByValidator :=
        s.ledger.delegationsByValidator.insert (d.validatorAddress, d.delegatorAddress) () } := by
  simp only [setDelegation, bind_ok, update_ok] at h
  obtain ⟨_, _, rfl, rfl⟩ := h
  rfl

theorem removeDelegation_ledger (h : k.removeDelegation d s = .ok u s') :
    s'.ledger = { s.ledger with
      delegations := s.ledger.delegations.erase (d.delegatorAddress, d.validatorAddress)
      delegationsByValidator :=
        s.ledger.delegationsByValidator.erase (d.validatorAddress, d.delegatorAddress) } := by
  simp only [removeDelegation, bind_ok, update_ok] at h
  obtain ⟨_, _, h1, _, _, rfl, rfl⟩ := h
  rw [← callHook_ledger h1]
  rfl

theorem setUnbondingDelegation_ledger (h : setUnbondingDelegation ubd s = .ok u s') :
    s'.ledger = { s.ledger with
      unbondingDelegations :=
        s.ledger.unbondingDelegations.insert (ubd.delegatorAddress, ubd.validatorAddress) ubd } := by
  simp only [setUnbondingDelegation, bind_ok, update_ok] at h
  obtain ⟨_, _, rfl, rfl⟩ := h
  rfl

theorem removeUnbondingDelegation_ledger (h : removeUnbondingDelegation ubd s = .ok u s') :
    s'.ledger = { s.ledger with
      unbondingDelegations :=
        s.ledger.unbondingDelegations.erase (ubd.delegatorAddress, ubd.validatorAddress) } := by
  simp only [removeUnbondingDelegation, bind_ok, update_ok] at h
  obtain ⟨_, _, rfl, rfl⟩ := h
  rfl

theorem storeUnbondingDelegation_effect (ubd : UnbondingDelegation) (hs : s.ledger.Formed)
    (hfunded : ∀ e ∈ ubd.entries, e.Funded) (h : storeUnbondingDelegation ubd s = .ok u s') :
    Effect ∅ (single .notBonded
        (s.ledger.balanceAt (ubd.delegatorAddress, ubd.validatorAddress) - ubd.balance))
      0 s.ledger s'.ledger := by
  unfold storeUnbondingDelegation at h
  split at h
  · rename_i hempty
    have hbalance : ubd.balance = 0 := by
      simp [UnbondingDelegation.balance, isEmpty_iff.mp hempty]
    rw [removeUnbondingDelegation_ledger h, hbalance, sub_zero]
    exact Effect.removeUnbondingDelegation hs _
  · rw [setUnbondingDelegation_ledger h]
    exact Effect.setUnbondingDelegation hs hfunded

/-! ## Entries -/

theorem addEntry_ok (hbalance : 0 ≤ balance) {entries' : List UnbondingDelegationEntry}
    (h : addEntry height time balance entries = .ok entries') (hfunded : ∀ e ∈ entries, e.Funded) :
    (entries'.map (fun e => e.balance)).sum = (entries.map (fun e => e.balance)).sum + balance ∧
      ∀ e ∈ entries', e.Funded := by
  induction entries generalizing entries' with
  | nil =>
    cases h
    simpa [UnbondingDelegationEntry.new, UnbondingDelegationEntry.Funded] using hbalance
  | cons e entries ih =>
    obtain ⟨he, hrest⟩ := forall_mem_cons.mp hfunded
    rw [addEntry] at h
    split at h
    · grind [bind_eq_ok, UnbondingDelegationEntry.Funded, addInt_ok]
    · obtain ⟨_, hrest', h⟩ := bind_eq_ok.mp h
      cases h
      obtain ⟨hsum, hfunded'⟩ := ih hrest' hrest
      exact ⟨by simp only [map_cons, sum_cons, hsum]; omega,
        forall_mem_cons.mpr ⟨he, hfunded'⟩⟩

theorem setUnbondingDelegationEntry_effect (hs : s.ledger.Formed) (hbalance : 0 ≤ balance)
    (h : setUnbondingDelegationEntry del val height time balance s = .ok ubd s') :
    Effect ∅ (-single .notBonded balance) 0 s.ledger s'.ledger := by
  simp only [setUnbondingDelegationEntry, pure_ok, steps] at h
  obtain ⟨_, rfl, entries, hentries, _, _, h3, -, rfl⟩ := h
  have hubd : ((s.unbondingDelegations[(del, val)]?).getD ⟨del, val, []⟩).StoredAt (del, val) ∧
      ((s.unbondingDelegations[(del, val)]?).getD ⟨del, val, []⟩).balance =
        s.ledger.balanceAt (del, val) := by
    cases hfound : s.unbondingDelegations[(del, val)]? with
    | none => simp [balanceAt, State.ledger, hfound, UnbondingDelegation.balance,
        UnbondingDelegation.StoredAt.mk]
    | some ubd =>
      refine ⟨hs.unbonding _ ubd hfound, ?_⟩
      simp [balanceAt, State.ledger, hfound]
  generalize (s.unbondingDelegations[(del, val)]?).getD ⟨del, val, []⟩ = old at hubd hentries h3
  obtain ⟨⟨hkey, hfunded⟩, hold⟩ := hubd
  obtain ⟨hsum, hfunded'⟩ := addEntry_ok hbalance hentries hfunded
  rw [setUnbondingDelegation_ledger h3]
  refine (Effect.setUnbondingDelegation hs
    hfunded').congr subset_rfl ?_ rfl
  rw [hkey, ← hold, UnbondingDelegation.balance, UnbondingDelegation.balance, hsum, ← Pi.single_neg]
  congr 1
  omega

theorem insertUBDQueue_ledger (h : insertUBDQueue ubd time s = .ok u s') :
    s'.ledger = s.ledger := by
  obtain rfl := update_ok.mp h
  rfl

theorem setRedelegation_ledger (h : setRedelegation red s = .ok u s') :
    s'.ledger = { s.ledger with
      redelegations := s.ledger.redelegations.insert
        (red.delegatorAddress, red.validatorSrcAddress, red.validatorDstAddress) red } := by
  obtain rfl := update_ok.mp h
  rfl

theorem setRedelegation_effect (red : Redelegation) (hs : s.ledger.Formed)
    (hne : red.validatorSrcAddress ≠ red.validatorDstAddress)
    (hentries : ∀ e ∈ red.entries, 0 ≤ e.initialBalance)
    (h : setRedelegation red s = .ok u s') : Effect ∅ 0 0 s.ledger s'.ledger := by
  rw [setRedelegation_ledger h]
  refine Effect.redelegations hs fun key r hr => ?_
  rw [lookup_insert] at hr
  split at hr
  · cases hr
    exact ⟨by symm; assumption, hne, hentries⟩
  · exact hs.redelegations key r hr

theorem removeRedelegation_effect (hs : s.ledger.Formed) (h : removeRedelegation red s = .ok u s') :
    Effect ∅ 0 0 s.ledger s'.ledger := by
  obtain rfl := update_ok.mp h
  refine Effect.redelegations hs fun key r hr => ?_
  rw [lookup_erase] at hr
  split at hr
  · simp at hr
  · exact hs.redelegations key r hr

theorem setRedelegationEntry_effect (hs : s.ledger.Formed) (hne : src ≠ dst)
    (hbalance : 0 ≤ balance) {sharesDst : LegacyDec}
    (h : setRedelegationEntry del src dst height time balance sharesDst s = .ok red s') :
    Effect ∅ 0 0 s.ledger s'.ledger := by
  simp only [setRedelegationEntry, pure_ok, steps] at h
  obtain ⟨_, rfl, _, _, h2, -, rfl⟩ := h
  have hred : ((s.redelegations[(del, src, dst)]?).getD ⟨del, src, dst, []⟩).StoredAt
      (del, src, dst) := by
    cases hfound : s.redelegations[(del, src, dst)]? with
    | none => exact ⟨rfl, hne, by simp⟩
    | some red => exact hs.redelegations _ red hfound
  generalize (s.redelegations[(del, src, dst)]?).getD ⟨del, src, dst, []⟩ = old at hred h2
  have hentries : ∀ e ∈ old.entries ++ [RedelegationEntry.new height time balance sharesDst],
      0 ≤ e.initialBalance := by
    intro e he
    rcases mem_append.mp he with he | he
    · exact hred.initial_nonneg e he
    · obtain rfl := mem_singleton.mp he
      exact hbalance
  exact setRedelegation_effect { old with entries := old.entries ++ [_] } hs
    hred.src_ne_dst hentries h2

/-! ## Delegate -/

/-- What a caller of `Delegate` takes out of the pool of the source: nothing when the coins
come from the account. -/
def taken (subtractAccount : Bool) (tokenSrc : BondStatus) (bondAmt : Int) : Pool → Int :=
  if subtractAccount then 0 else single tokenSrc.pool bondAmt

theorem moveDelegatedCoins_ledger {src : BondStatus} (hstatus : v.status ≠ .unspecified)
    (h : k.moveDelegatedCoins del amt src v sub s = .ok u s') :
    s'.ledger = { s.ledger with
      pools := s.ledger.pools + (single v.status.pool amt - taken sub src amt) } := by
  cases sub with
  | true =>
    simp only [moveDelegatedCoins, if_true] at h
    split at h
    · simp [err] at h
    · have hpool : sendName v.status = some v.status.pool := by
        cases hv : v.status <;> simp_all [sendName, pool]
      rw [hpool] at h
      simp only [newBondCoin, steps] at h
      obtain ⟨_, -, h⟩ := h
      rw [delegateCoinsFromAccountToModule_ledger h]
      simp [taken]
  | false =>
    simp only [moveDelegatedCoins, Bool.false_eq_true, if_false, isBonded] at h
    cases src <;> cases hv : v.status <;> simp [hv, err] at h hstatus <;>
      first
      | rw [sendBetweenPools_ledger h]; simp [taken, pool]
      | rw [← h]; simp [taken, pool]

/-- `Delegate` to a validator as it is stored: stake and shares are added on both sides,
and the coins move. -/
theorem delegate_effect (hs : s.ledger.Formed) (hamt : 0 < amt) {src : BondStatus}
    (hv : s.ledger.validators[v.operatorAddress]? = some v) {newShares : LegacyDec}
    (h : k.delegate del amt src v sub s = .ok newShares s') :
    Effect {v.operatorAddress} (-taken sub src amt) 0 s.ledger s'.ledger ∧
      s'.ledger.unbondingDelegations = s.ledger.unbondingDelegations := by
  simp only [delegate, pure_ok, steps] at h
  obtain ⟨_, -, found, hfound, _, _, h3, _, s4, h4, ⟨_, issued⟩, s5, h5, shares, hshares, _, _,
    h7, _, _, h8, rfl, rfl⟩ := h
  have hsolvent := (hs.validators _ v hv).solvent
  have hcoins := moveDelegatedCoins_ledger hsolvent.status_ne h4
  obtain ⟨hadd, hrecord⟩ := addValidatorTokensAndShares_ledger h5
  have hsolvent' := hsolvent.addTokensFromDel hamt.le hadd
  obtain ⟨hissued, rfl⟩ := addTokensFromDel_ok hadd
  have hle := hsolvent.le_issuedShares hamt.le hissued
  -- the delegation that was found, or the new one, is stored under its own addresses
  have hdelegation : (found.getD ⟨del, v.operatorAddress, .zero⟩).delegatorAddress = del ∧
      (found.getD ⟨del, v.operatorAddress, .zero⟩).validatorAddress = v.operatorAddress ∧
      (found.getD ⟨del, v.operatorAddress, .zero⟩).shares.i =
        s.ledger.sharesAt (del, v.operatorAddress) ∧
      0 ≤ s.ledger.sharesAt (del, v.operatorAddress) := by
    have hlook : s.ledger.delegations[(del, v.operatorAddress)]? = found := hfound
    unfold sharesAt
    rw [hlook]
    cases found with
    | none => simp [zero]
    | some d =>
      have hd := hs.delegations _ d hlook
      obtain ⟨hdel, hval⟩ := Prod.mk.inj hd.key_eq
      exact ⟨hdel, hval, rfl, hd.shares_pos.le⟩
  generalize found.getD ⟨del, v.operatorAddress, .zero⟩ = d at hdelegation hshares h7
  obtain ⟨hdel, hval, hold, _⟩ := hdelegation
  have hsum : shares.i = d.shares.i + issued.i := add_ok hshares
  -- the parts of the effect, in the order of the calls
  have e1 := Effect.pools hs (single v.status.pool amt - taken sub src amt)
  rw [← callHook_ledger h3] at e1
  rw [← hcoins] at e1
  have hv4 : s4.ledger.validators[v.operatorAddress]? = some v := by
    rw [hcoins, callHook_ledger h3]
    exact hv
  have e2 := Effect.setValidator e1.formed (v := { v with
    tokens := v.tokens + amt, delegatorShares := ⟨v.delegatorShares.i + issued.i⟩ }) hv4 hsolvent'
  rw [← hrecord] at e2
  have e3 := Effect.setDelegation e2.formed (d := { d with shares := shares }) (by
    dsimp only
    omega)
  rw [← setDelegation_ledger h7, ← callHook_ledger h8] at e3
  have hat : s5.ledger.sharesAt (del, v.operatorAddress) =
      s.ledger.sharesAt (del, v.operatorAddress) := by
    rw [hrecord, hcoins, callHook_ledger h3]
    rfl
  refine ⟨?_, ?_⟩
  · rw [← callHook_ledger h3]
    refine ((e1.trans e2).trans e3).congr (by simp) ?_ ?_
    · rw [single_add]
      abel
    · rw [hdel, hval, hat, hsum, hold, zero_add, ← single_add]
      simp
  · rw [callHook_ledger h8, setDelegation_ledger h7, hrecord, hcoins, callHook_ledger h3]

/-! ## Unbond -/

theorem jailValidator_ledger (h : k.jailValidator v s = .ok u s') :
    s'.ledger = { s.ledger with
      validators := s.ledger.validators.insert v.operatorAddress { v with jailed := true } } := by
  simp only [jailValidator, steps] at h
  obtain ⟨_, -, _, _, h2, h3⟩ := h
  rw [deleteValidatorByPowerIndex_ledger h3, setValidator_ledger h2]

/-- The validator is kept as it is, or jailed. -/
theorem jailBelowMinimum_ok {v1 : Validator} (h : k.jailBelowMinimum d v s = .ok v1 s') :
    (v1 = v ∧ s' = s) ∨ (v1 = { v with jailed := true } ∧ k.jailValidator v s = .ok () s') := by
  unfold jailBelowMinimum at h
  split at h
  · simp only [steps] at h
    obtain ⟨_, -, _, -, h⟩ := h
    split at h
    · simp only [getValidator, steps] at h
      obtain ⟨_, s3, hjail, hfound, rfl⟩ := h
      have hfound : s3.ledger.validators[v.operatorAddress]? = some v1 := hfound
      rw [jailValidator_ledger hjail] at hfound
      exact .inr ⟨by simpa [lookup_insert] using hfound.symm, hjail⟩
    · exact .inl ((pure_ok.mp h).imp Eq.symm Eq.symm)
  · exact .inl ((pure_ok.mp h).imp Eq.symm Eq.symm)

variable (hs : s.ledger.Formed)
include hs

theorem setJailed_effect {jailed : Bool}
    (hv : s.ledger.validators[v.operatorAddress]? = some v) (h : s'.ledger = { s.ledger with
      validators := s.ledger.validators.insert v.operatorAddress { v with jailed := jailed } }) :
    Effect {v.operatorAddress} 0 0 s.ledger s'.ledger := by
  rw [h]
  exact editValidator_balanced hs hv { v with jailed := jailed } ⟨rfl, rfl, rfl⟩ rfl

theorem jailBelowMinimum_effect {v1 : Validator}
    (hv : s.ledger.validators[v.operatorAddress]? = some v)
    (h : k.jailBelowMinimum d v s = .ok v1 s') :
    v1 = { v with jailed := v1.jailed } ∧ s'.ledger.validators[v.operatorAddress]? = some v1 ∧
      s'.ledger.delegations = s.ledger.delegations ∧
      Effect {v.operatorAddress} 0 0 s.ledger s'.ledger := by
  rcases jailBelowMinimum_ok h with ⟨rfl, rfl⟩ | ⟨rfl, hjail⟩
  · exact ⟨rfl, hv, rfl, (Effect.refl hs).congr (Set.empty_subset _) rfl rfl⟩
  · have hledger := jailValidator_ledger hjail
    refine ⟨rfl, ?_, by rw [hledger], setJailed_effect hs hv hledger⟩
    rw [hledger]
    simp

theorem storeRemainingShares_effect (hd : 0 ≤ d.shares.i)
    (h : k.storeRemainingShares d s = .ok u s') : Effect ∅ 0 (single d.validatorAddress
        (s.ledger.sharesAt (d.delegatorAddress, d.validatorAddress) - d.shares.i))
      s.ledger s'.ledger := by
  unfold storeRemainingShares at h
  split at h
  · rename_i hzero
    have hzero : d.shares.i = 0 := by simpa [isZero] using hzero
    rw [removeDelegation_ledger h, hzero, sub_zero]
    exact Effect.removeDelegation hs _ _
  · rename_i hzero
    have hzero : d.shares.i ≠ 0 := by simpa [isZero] using hzero
    simp only [bind_ok] at h
    obtain ⟨_, _, h1, h2⟩ := h
    rw [callHook_ledger h2, setDelegation_ledger h1]
    exact Effect.setDelegation hs (by omega)

omit hs

theorem shares_le_record {c : StakeLedger} (hc : c.Formed) (hsurplus : c.surplus = 0)
    (hd : c.delegations[(del, val)]? = some d) (hv : c.validators[val]? = some v) :
    d.shares.i ≤ v.delegatorShares.i := by
  have hrecorded : c.recorded val = c.delegated val := by
    have := congrFun hsurplus val
    simp only [surplus, Pi.sub_apply, Pi.zero_apply] at this
    omega
  rw [recorded_apply, hv] at hrecorded
  have hle := hc.shares_le_delegated hd
  simp only [map_some, getD_some] at hrecorded
  omega

/-- What `Unbond` leaves at the address: a record in the same status, or none if the
validator was unbonded. -/
def SameStatus (v : Validator) (after : Option Validator) : Prop :=
  match after with
  | some v' => v'.status = v.status
  | none => v.status = .unbonded

/-- The record after `Unbond`: an unbonded validator is removed with its last shares. -/
def Remains (v : Validator) (shares : LegacyDec) : Option Validator → Prop
  | some v' => v'.status = v.status ∧ v'.unbondingTime = v.unbondingTime ∧
      ¬ (v.status = .unbonded ∧ v.delegatorShares.i = shares.i)
  | none => v.status = .unbonded ∧ v.delegatorShares.i = shares.i

theorem Remains.sameStatus {after : Option Validator} (h : Remains v shares after) :
    SameStatus v after := by
  cases after <;> exact h.1

/-- `Unbond`: the stake is gone, its coins are still in the pool of the validator. -/
theorem unbond_effect (hs : s.ledger.Formed) (hsurplus : s.ledger.surplus = 0)
    (hshares : 0 ≤ shares.i) (h : k.unbond del val shares s = .ok amt s') :
    ∃ v, s.ledger.validators[val]? = some v ∧ 0 ≤ amt ∧
      Effect {val} (single v.status.pool amt) 0 s.ledger s'.ledger ∧
      Remains v shares s'.ledger.validators[val]? := by
  simp only [unbond, getValidator, steps] at h
  obtain ⟨d, hd, _, s2, h2, _, henough, v, hv, remaining, hremaining, v1, s6, h6, _, _, h7, ⟨_,
    amt'⟩, s8, h8, h⟩ := h
  have hhook := callHook_ledger h2
  have hs2 : s2.ledger.Formed := hhook ▸ hs
  have hd : s2.ledger.delegations[(del, val)]? = some d := by
    rw [hhook]
    exact hd
  obtain ⟨rfl, _⟩ := hs2.validators val v hv
  obtain ⟨hdkey, _⟩ := hs2.delegations _ d hd
  obtain ⟨rfl, hdval⟩ := Prod.mk.inj hdkey
  have hle : shares.i ≤ d.shares.i := by simpa [lt] using henough
  have hrecord := shares_le_record hs2 (by rw [hhook]; exact hsurplus) hd hv
  have hrest := sub_ok hremaining
  obtain ⟨hjail, hv1, hsame, e1⟩ := jailBelowMinimum_effect hs2 hv h6
  have e2 := storeRemainingShares_effect e1.formed
    (by dsimp only; omega) h7
  have hv7 := (e2.frame _ (Set.notMem_empty _)).trans hv1
  have hsolvent1 := (e1.formed.validators _ v1 hv1).solvent
  have hop : v1.operatorAddress = v.operatorAddress := by rw [hjail]
  have hstatus : v1.status = v.status := by rw [hjail]
  have htotal : v1.delegatorShares = v.delegatorShares := by rw [hjail]
  obtain ⟨hremove, hledger⟩ := removeValidatorTokensAndShares_ledger h8
  obtain ⟨hsolvent', hamt⟩ := hsolvent1.removeDelShares hshares (by rw [htotal]; omega) hremove
  obtain ⟨rfl, -⟩ := removeDelShares_ok hremove
  have e3 := Effect.setValidator e2.formed
    (hop.symm ▸ hv7) hsolvent'
  rw [← hledger] at e3
  have hat : s6.ledger.sharesAt (d.delegatorAddress, d.validatorAddress) = d.shares.i := by
    unfold sharesAt
    rw [hsame, hdval, hd]
    rfl
  -- the four parts together
  have e : Effect {v.operatorAddress} (single v.status.pool amt') 0 s.ledger s8.ledger := by
    rw [← hhook]
    refine ((e1.trans e2).trans e3).congr (by simp [hop]) ?_ ?_
    · rw [hstatus, Pi.single_sub]
      abel
    · rw [hat, hrest, hdval, hop, zero_add, ← single_add]
      simp
  have hafter : s8.ledger.validators[v.operatorAddress]? = some { v1 with
      tokens := v1.tokens - amt', delegatorShares := ⟨v1.delegatorShares.i - shares.i⟩ } := by
    rw [hledger, hop]
    simp
  split at h
  · rename_i hempty
    simp only [pure_ok, steps] at h
    obtain ⟨_, _, h9, rfl, rfl⟩ := h
    have hzero : v1.delegatorShares.i - shares.i = 0 := by
      simp only [Bool.and_eq_true, isZero, decide_eq_true_eq] at hempty
      exact hempty.1
    obtain ⟨hunbonded, hledger', e'⟩ := removeValidator_effect e.formed hafter hzero h9
    refine ⟨v, by rw [← hhook]; exact hv, hamt, (e.trans e').congr (by simp) (by simp) (by simp), ?_⟩
    rw [hledger', lookup_erase, if_pos rfl]
    exact ⟨hstatus ▸ hunbonded, by rw [← htotal]; omega⟩
  · rename_i hleft
    obtain ⟨rfl, rfl⟩ := pure_ok.mp h
    refine ⟨v, by rw [← hhook]; exact hv, hamt, e, ?_⟩
    rw [hafter]
    refine ⟨hstatus, by rw [hjail], fun hlast => hleft ?_⟩
    simp [isUnbonded, isZero, hstatus, htotal, hlast]

/-! ## Undelegation and redelegation -/

theorem undelegate_effect (hs : s.ledger.Formed) (hsurplus : s.ledger.surplus = 0)
    (hshares : 0 ≤ shares.i) {r : Time × Int} (h : k.undelegate ctx del val shares s = .ok r s') :
    Effect {val} 0 0 s.ledger s'.ledger := by
  simp only [undelegate, getValidator, pure_ok, steps] at h
  obtain ⟨v, hv, _, -, _, -, amt, s4, h4, _, s5, h5, _, -, _, _, h7, _, _, h8, -,
    rfl⟩ := h
  obtain ⟨v', hv', hamt, e1, -⟩ := unbond_effect hs hsurplus hshares h4
  obtain rfl : v = v' := some.inj (hv.symm.trans hv')
  have hmove : s5.ledger = { s4.ledger with
      pools := s4.ledger.pools + (single .notBonded amt - single v.status.pool amt) } := by
    unfold releaseTokens at h5
    split at h5
    · rename_i hbonded
      have hbonded : v.status = .bonded := by simpa [isBonded] using hbonded
      rw [sendBetweenPools_ledger h5, hbonded]
      rfl
    · rename_i hbonded
      have hbonded : v.status ≠ .bonded := by simpa [isBonded] using hbonded
      rw [← (pure_ok.mp h5).2, pool, if_neg hbonded, sub_self, add_zero]
  have e2 := Effect.pools e1.formed (single .notBonded amt - single v.status.pool amt)
  rw [← hmove] at e2
  have e3 := setUnbondingDelegationEntry_effect e2.formed hamt h7
  rw [insertUBDQueue_ledger h8]
  refine ((e1.trans e2).trans e3).congr (by simp) ?_ (by simp)
  abel

/-- The loop of `CompleteUnbonding`: what leaves the pool is what the entries lose. -/
theorem completeEntries_ledger {kept' : List UnbondingDelegationEntry}
    (h : k.completeEntries time del kept entries balances s = .ok (kept', balances') s') :
    (∀ e ∈ kept', e ∈ kept ++ entries) ∧
      s'.ledger = { s.ledger with
        pools := s.ledger.pools + single .notBonded
          ((kept'.map (fun e => e.balance)).sum - ((kept ++ entries).map (fun e => e.balance)).sum) } := by
  induction entries generalizing kept balances s with
  | nil =>
    obtain ⟨hret, rfl⟩ := pure_ok.mp h
    obtain ⟨rfl, rfl⟩ := Prod.mk.inj hret
    simp
  | cons e entries ih =>
    rw [completeEntries] at h
    split at h
    · split at h
      · rename_i hzero
        obtain ⟨hmem, hledger⟩ := ih h
        refine ⟨fun x hx => by simpa using (mem_append.mp (hmem x hx)).imp_right .inr, ?_⟩
        rw [hledger]
        simp [hzero]
      · simp only [newBondCoin, steps] at h
        obtain ⟨_, -, _, _, h2, _, -, h⟩ := h
        obtain ⟨hmem, hledger⟩ := ih h
        refine ⟨fun x hx => by simpa using (mem_append.mp (hmem x hx)).imp_right .inr, ?_⟩
        rw [hledger, undelegateCoinsFromModuleToAccount_ledger h2, add_assoc, ← Pi.single_neg,
          ← single_add]
        simp only [map_append, sum_append, map_cons, sum_cons]
        congr 3
        omega
    · obtain ⟨hmem, hledger⟩ := ih h
      exact ⟨fun x hx => by simpa using hmem x hx, by simpa using hledger⟩

theorem completeUnbonding_effect (hs : s.ledger.Formed)
    (h : k.completeUnbonding ctx del val s = .ok amt s') : Effect ∅ 0 0 s.ledger s'.ledger := by
  simp only [completeUnbonding, getUnbondingDelegation, pure_ok, steps] at h
  obtain ⟨ubd, hubd, ⟨kept, _⟩, s2, h2, _, _, h3, -, rfl⟩ := h
  obtain ⟨hkey, hfunded⟩ := hs.unbonding _ ubd hubd
  obtain ⟨hmem, hledger⟩ := completeEntries_ledger h2
  have e1 := Effect.pools hs (single .notBonded
    ((kept.map fun e => e.balance).sum -
      (([] ++ ubd.entries : List UnbondingDelegationEntry).map fun e => e.balance).sum))
  rw [← hledger] at e1
  have e2 := storeUnbondingDelegation_effect { ubd with entries := kept } e1.formed
    (fun e he => hfunded e (by simpa using hmem e he)) h3
  have hat : s2.ledger.balanceAt (ubd.delegatorAddress, ubd.validatorAddress) = ubd.balance := by
    unfold balanceAt
    rw [hledger, hkey, show s.ledger.unbondingDelegations[(del, val)]? = some ubd from hubd]
    rfl
  refine (e1.trans e2).congr (by simp) ?_ (by simp)
  rw [hat, ← single_add]
  simp [UnbondingDelegation.balance]

/-- What the loop of `CompleteUnbonding` has paid before an error is gone from the pool, and
nothing else has changed. -/
theorem completeEntries_error (h : k.completeEntries time del kept entries balances s = .error e s') :
    ∃ amounts, s'.ledger = { s.ledger with pools := s.ledger.pools + amounts } := by
  induction entries generalizing kept balances s with
  | nil => exact (pure_error.mp h).elim
  | cons entry entries ih =>
    rw [completeEntries] at h
    split at h
    · split at h
      · exact ih h
      · simp only [newBondCoin, undelegateCoinsFromModuleToAccount, bind_error, reject_error,
          transition_error, reject_ok] at h
        rcases h with ⟨-, -, rfl⟩ | ⟨_, s1, ⟨-, rfl⟩, h⟩
        · exact ⟨0, by simp⟩
        rcases h with ⟨-, rfl⟩ | ⟨_, s2, h2, h⟩
        · exact ⟨0, by simp⟩
        have hpaid := undelegateCoinsFromModuleToAccount_ledger h2
        simp only [lift_error, lift_ok] at h
        rcases h with ⟨-, rfl⟩ | ⟨sum, s3, ⟨-, rfl⟩, h⟩
        · exact ⟨_, hpaid⟩
        · obtain ⟨amounts, hledger⟩ := ih h
          exact ⟨-single .notBonded entry.balance + amounts, by
            rw [hledger, hpaid, add_assoc]⟩
    · exact ih h

theorem storeUnbondingDelegation_error : storeUnbondingDelegation ubd s = .error e s' ↔ False := by
  simp only [storeUnbondingDelegation, removeUnbondingDelegation, setUnbondingDelegation, iff_false]
  split <;> simp [bind_error, update_error]

theorem completeUnbonding_error (hs : s.ledger.Formed)
    (h : k.completeUnbonding ctx del val s = .error e s') :
    ∃ g, Effect ∅ g 0 s.ledger s'.ledger := by
  simp only [completeUnbonding, getUnbondingDelegation, bind_error, find_error, find_ok, pure_error,
    storeUnbondingDelegation_error, and_false, exists_false, or_false] at h
  rcases h with ⟨-, -, rfl⟩ | ⟨ubd, s1, ⟨-, rfl⟩, h⟩
  · exact ⟨0, Effect.refl hs⟩
  · obtain ⟨amounts, hledger⟩ := completeEntries_error h
    exact ⟨amounts, hledger ▸ Effect.pools hs amounts⟩

/-- `BeginRedelegation` is balanced: what leaves the source arrives at the destination. -/
theorem beginRedelegation_effect (hs : s.ledger.Formed) (hsurplus : s.ledger.surplus = 0)
    (hshares : 0 ≤ shares.i) (h : k.beginRedelegation ctx del src dst shares s = .ok time s') :
    Effect {src, dst} 0 0 s.ledger s'.ledger := by
  simp only [beginRedelegation, steps] at h
  obtain ⟨_, hne, dstV, hdst, srcV, hsrc, h⟩ := h
  obtain ⟨_, -, _, -, _, -, _, -, h⟩ := h
  obtain ⟨amt, _, h8, _, _, _, s10, h10, _, _, ⟨_, -, -, rfl⟩, h⟩ := h
  obtain ⟨v, hv, hamt, e1, -⟩ := unbond_effect hs hsurplus hshares h8
  obtain rfl : srcV = v := mem_unique hsrc hv
  obtain ⟨rfl, -⟩ := hs.validators dst dstV hdst
  have hdst8 := (e1.frame _ fun hmem => hne hmem.symm).trans hdst
  have hpos : 0 < amt := by omega
  obtain ⟨e2, -⟩ := delegate_effect e1.formed hpos hdst8 h10
  have e : Effect {src, dstV.operatorAddress} 0 0 s.ledger s10.ledger := by
    refine (e1.trans e2).congr (by rw [Set.singleton_union]) ?_ (by simp)
    simp [taken]
  split at h
  · obtain ⟨-, rfl⟩ := pure_ok.mp h
    exact e
  · simp only [pure_ok, steps] at h
    obtain ⟨_, s13, h13, _, s14, h14, -, rfl⟩ := h
    have e3 := setRedelegationEntry_effect e.formed hne hamt h13
    have hqueue : s14.ledger = s13.ledger := by
      obtain rfl := update_ok.mp h14
      rfl
    rw [hqueue]
    exact (e.trans e3).congr (by simp) (by simp) (by simp)

theorem completedBalances_keeps {τ : Type} (f : State X → τ) (entries : List RedelegationEntry) :
    ∀ balances, Keeps f (completedBalances entries balances) := by
  induction entries with
  | nil => exact fun _ => .pure _
  | cons entry entries ih =>
    intro balances
    exact .ite (ih _) (.bind (.reject _ _) fun _ => .bind (.lift _) fun _ => ih _)

theorem completeRedelegation_error (h : completeRedelegation ctx del src dst s = .error e s') :
    s' = s := by
  simp only [completeRedelegation, bind_error, find_error, find_ok, pure_error, and_false,
    exists_false, or_false] at h
  rcases h with ⟨-, -, rfl⟩ | ⟨red, s1, ⟨-, rfl⟩, h | ⟨balances, s2, -, h⟩⟩
  · rfl
  · exact (completedBalances_keeps id _ _).error h
  · exfalso
    unfold storeRedelegation at h
    split at h <;> exact update_error.mp h

/-- `CompleteRedelegation` only removes entries. -/
theorem completeRedelegation_effect (hs : s.ledger.Formed)
    (h : completeRedelegation ctx del src dst s = .ok amt s') :
    Effect ∅ 0 0 s.ledger s'.ledger := by
  simp only [completeRedelegation, pure_ok, steps] at h
  obtain ⟨red, hred, _, _, h2, _, _, h3, -, rfl⟩ := h
  obtain rfl : _ = s := (completedBalances_keeps id _ _).ok h2
  obtain ⟨-, hne, hinitial⟩ := hs.redelegations _ red hred
  unfold storeRedelegation at h3
  split at h3
  · exact removeRedelegation_effect hs h3
  · have hkept : ∀ e ∈ red.entries.filter fun entry => !entry.isMature ctx.time,
        0 ≤ e.initialBalance := fun e he => hinitial e (mem_filter.mp he).1
    exact setRedelegation_effect { red with entries := red.entries.filter _ } hs hne hkept h3

theorem validateUnbondAmount_nonneg (hs : s.ledger.Formed) (hamt : 0 ≤ amt)
    (h : validateUnbondAmount del val amt s = .ok shares s') : 0 ≤ shares.i ∧ s' = s := by
  simp only [validateUnbondAmount, getValidator, pure_ok, steps] at h
  obtain ⟨v, hv, d, hd, _, hshares, _, -, _, -, _, -, _, -, rfl, rfl⟩ := h
  have hsolvent := (hs.validators _ v hv).solvent
  refine ⟨?_, rfl⟩
  split
  · exact (hs.delegations _ d hd).shares_pos.le
  · exact sharesFromTokens_nonneg hshares hsolvent.tokens_nonneg hsolvent.shares_nonneg hamt

end CosmosSDK.Staking.Keeper
