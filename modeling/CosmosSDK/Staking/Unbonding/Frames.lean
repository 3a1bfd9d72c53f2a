import CosmosSDK.Staking.Blocks

/-!
# What leaves unbonding delegations alone

Most calls neither write unbonding delegations nor their queue, and pay nobody.  They may
write delegations, though only of accounts that exist: the coins of a delegation came from
an account, and the bank does not delegate coins of an account it cannot find.
-/

namespace CosmosSDK.Staking

set_option synthInstance.maxSize 10000

open Store CosmosSDK.Types Math Auth OrderedKV Stateful Fallible Within Except

/-- What the bank and the account keeper tell of a state outside of staking. -/
structure Accounts (X : Type) where
  registered : X → AccAddress → Prop
  /-- what `UndelegateCoins` has paid so far, and to whom -/
  paid : X → Multiset (AccAddress × Int)

namespace Accounts

variable {X : Type} (b : Accounts X)

/-- Nothing is paid and no account is removed. -/
structure Extends (x x' : X) : Prop where
  paid : b.paid x' = b.paid x
  registered : ∀ a, b.registered x a → b.registered x' a

/-- The accounts behind the calls of a keeper: `DelegateCoins` needs an account,
`UndelegateCoins` of a positive amount returns no error for one that exists, and no other
call pays out stake. -/
structure Serve (k : Keeper X) : Prop where
  delegates : ∀ {x x' del amt}, k.delegateCoins x del amt = .ok x' →
    b.registered x del ∧ b.Extends x x'
  pays : ∀ {x x' del amt}, k.undelegateCoins x del amt = .ok x' →
    b.paid x' = b.paid x + {(del, amt)} ∧ ∀ a, b.registered x a → b.registered x' a
  returns : ∀ {x del amt e}, b.registered x del → 0 < amt →
    k.undelegateCoins x del amt ≠ .error (.error e)
  hooks : ∀ {call s x'}, k.hooks call s = .ok x' → b.Extends s.outside x'
  fees : ∀ {x x' addr fee}, k.sendRotationFee x addr fee = .ok x' → b.Extends x x'

/-- Delegations belong to accounts. -/
def Delegating (s : State X) : Prop :=
  ∀ (key : AccAddress × ValAddress) (d : Delegation), s.delegations[key]? = some d →
    b.registered s.outside d.delegatorAddress

/-- Unbonding delegations and their queue stay, and nothing is paid. -/
structure Apart (s s' : State X) : Prop where
  unbonding : s'.unbondingDelegations = s.unbondingDelegations
  queue : s'.unbondingQueue = s.unbondingQueue
  outside : b.Extends s.outside s'.outside
  delegating : b.Delegating s → b.Delegating s'

variable {b} {x : X}

theorem Extends.refl : b.Extends x x := ⟨by simp, fun _ h => h⟩

theorem Extends.trans {y z : X} (h : b.Extends x y) (h' : b.Extends y z) : b.Extends x z :=
  ⟨h'.paid.trans h.paid, fun a ha => h'.registered a (h.registered a ha)⟩

namespace Apart

variable {s s' : State X}

theorem of_extends (hunbonding : s'.unbondingDelegations = s.unbondingDelegations)
    (hqueue : s'.unbondingQueue = s.unbondingQueue) (hdelegations : s'.delegations = s.delegations)
    (houtside : b.Extends s.outside s'.outside) : b.Apart s s' := by
  refine ⟨hunbonding, hqueue, houtside, fun hs key d hd => ?_⟩
  rw [hdelegations] at hd
  exact houtside.registered _ (hs key d hd)

theorem of_eq (hunbonding : s'.unbondingDelegations = s.unbondingDelegations)
    (hqueue : s'.unbondingQueue = s.unbondingQueue) (hdelegations : s'.delegations = s.delegations)
    (houtside : s'.outside = s.outside) : b.Apart s s' :=
  of_extends hunbonding hqueue hdelegations (houtside ▸ .refl)

instance : Std.Refl b.Apart := ⟨fun _ => of_eq rfl rfl rfl rfl⟩

instance : IsTrans (State X) b.Apart :=
  ⟨fun _ _ _ h h' => ⟨h'.unbonding.trans h.unbonding, h'.queue.trans h.queue,
    h.outside.trans h'.outside, fun hs => h'.delegating (h.delegating hs)⟩⟩

theorem refl : b.Apart s s := refl_of b.Apart s

theorem trans {s'' : State X} (h : b.Apart s s') (h' : b.Apart s' s'') : b.Apart s s'' :=
  trans_of b.Apart h h'

end Apart

end Accounts

namespace Keeper

variable {X : Type} {k : Keeper X} {b : Accounts X} {ctx : HeaderInfo} {s s' : State X}

/-! ## Validators and pools -/

/-- A write to any other part of the store. -/
instance {f₁ : State X → _} {f₂ : State X → _} {f₃ : State X → _} {f₄ : State X → _}
    {f₅ : State X → _} {f₆ : State X → _} {f₇ : State X → _} {f₈ : State X → _} {f₉ : State X → _}
    {g₁ : State X → _} {g₂ : State X → _} {g₃ : State X → _} {g₄ : State X → _} {g₅ : State X → _}
    {g₆ : State X → _} {g₇ : State X → _} {g₈ : State X → _} {g₉ : State X → _} {g₀ : State X → _} :
    Within b.Apart (update fun s => { s with
      params := f₁ s, validators := f₂ s, validatorByConsensusAddress := f₃ s
      validatorsByPowerIndex := f₄ s, validatorQueue := f₅ s, lastValidatorPower := f₆ s
      lastTotalPower := f₇ s, delegationsByValidator := f₈ s, unbondingDelegationByValIndex := f₉ s
      redelegations := g₁ s, redelegationsByValSrc := g₂ s, redelegationsByValDst := g₃ s
      redelegationQueue := g₄ s, rotationHistory := g₅ s
      validatorConsensusKeyRotationRecordIndexKey := g₆ s
      validatorConsensusKeyRotationRecordQueue := g₇ s, consAddrToValidatorIdentifierMap := g₈ s
      oldToNewConsAddrMap := g₉ s, pools := g₀ s } : Call X Unit) :=
  update fun _ => .of_eq rfl rfl rfl rfl

@[instance] theorem setValidator_apart (v : Validator) : Within b.Apart (setValidator v) := by
  simp only [setValidator]
  infer_instance

@[instance] theorem setValidatorByConsAddr_apart (v : Validator) : Within b.Apart (k.setValidatorByConsAddr v) := by
  simp only [setValidatorByConsAddr]
  infer_instance

@[instance] theorem setNewValidatorByPowerIndex_apart (v : Validator) :
    Within b.Apart (k.setNewValidatorByPowerIndex v) := by
  simp only [setNewValidatorByPowerIndex]
  infer_instance

@[instance] theorem setValidatorByPowerIndex_apart (v : Validator) :
    Within b.Apart (k.setValidatorByPowerIndex v) := by
  simp only [setValidatorByPowerIndex]
  infer_instance

@[instance] theorem deleteValidatorByPowerIndex_apart (v : Validator) :
    Within b.Apart (k.deleteValidatorByPowerIndex v) := by
  simp only [deleteValidatorByPowerIndex]
  infer_instance

@[instance] theorem addValidatorTokensAndShares_apart (v : Validator) (amt : Int) :
    Within b.Apart (k.addValidatorTokensAndShares v amt) := by
  simp only [addValidatorTokensAndShares]
  infer_instance

@[instance] theorem removeValidatorTokensAndShares_apart (v : Validator) (shares : LegacyDec) :
    Within b.Apart (k.removeValidatorTokensAndShares v shares) := by
  simp only [removeValidatorTokensAndShares]
  infer_instance

@[instance] theorem removeValidatorTokens_apart (v : Validator) (amt : Int) :
    Within b.Apart (k.removeValidatorTokens v amt) := by
  simp only [removeValidatorTokens]
  infer_instance

@[instance] theorem insertUnbondingValidatorQueue_apart (v : Validator) :
    Within b.Apart (insertUnbondingValidatorQueue v) := by
  simp only [insertUnbondingValidatorQueue, setUnbondingValidatorsQueue]
  infer_instance

@[instance] theorem deleteValidatorQueue_apart (v : Validator) : Within b.Apart (deleteValidatorQueue v) := by
  simp only [deleteValidatorQueue, deleteValidatorQueueTimeSlice, setUnbondingValidatorsQueue]
  infer_instance

@[instance] theorem sendBetweenPools_apart (p q : Pool) (amt : Int) :
    Within b.Apart (sendBetweenPools p q amt) := by
  refine (Within.reject _ _).bind fun _ => Within.transition fun s s' h => ?_
  split at h
  · simp at h
  · obtain rfl := ok.inj h
    exact .of_eq rfl rfl rfl rfl

@[instance] theorem burnPoolTokens_apart (p : Pool) (amt : Int) : Within b.Apart (burnPoolTokens p amt) := by
  refine ite (pure ()) (transition fun s s' h => ?_)
  split at h
  · simp at h
  · obtain rfl := ok.inj h
    exact .of_eq rfl rfl rfl rfl

@[instance] theorem releaseTokens_apart (v : Validator) (amt : Int) : Within b.Apart (releaseTokens v amt) := by
  simp only [releaseTokens, bondedTokensToNotBonded]
  infer_instance

@[instance] theorem jailValidator_apart (v : Validator) : Within b.Apart (k.jailValidator v) := by
  simp only [jailValidator]
  infer_instance

@[instance] theorem jailBelowMinimum_apart (d : Delegation) (v : Validator) :
    Within b.Apart (k.jailBelowMinimum d v) := by
  simp only [jailBelowMinimum, getValidator]
  infer_instance

@[instance] theorem unjailValidator_apart (v : Validator) : Within b.Apart (k.unjailValidator v) := by
  simp only [unjailValidator]
  infer_instance

@[instance] theorem jail_apart (addr : ConsAddress) : Within b.Apart (k.jail addr) := by
  simp only [jail]
  infer_instance

@[instance] theorem unjail_apart (addr : ConsAddress) : Within b.Apart (k.unjail addr) := by
  simp only [unjail]
  infer_instance

theorem updateParams_apart (params : Params) : Within b.Apart (k.updateParams ctx params) := by
  refine (Within.lift _).bind fun _ => (Within.load _).bind fun _ =>
    (Within.update fun _ => .of_eq rfl rfl rfl rfl).bind fun _ => Within.ite (Within.pure ()) ?_
  exact (Within.load _).bind fun _ => Within.forM
    (fun _ => ite (setValidator_apart _) (pure ())) _

/-! ## Redelegations -/

@[instance] theorem storeRedelegation_apart (red : Redelegation) : Within b.Apart (storeRedelegation red) := by
  simp only [storeRedelegation, removeRedelegation, setRedelegation]
  infer_instance

theorem completeRedelegation_apart (del : AccAddress) (src dst : ValAddress) :
    Within b.Apart (completeRedelegation ctx del src dst) := by
  have hbalances (entries : List RedelegationEntry) (balances : Int) :
      Within b.Apart (completedBalances entries balances) := by
    refine ⟨fun {s _ s'} h => ?_⟩
    obtain rfl : s' = s := (completedBalances_keeps id _ _).ok h
    exact refl_of b.Apart s'
  exact (Within.find _ _).bind fun _ => (hbalances _ _).bind fun _ =>
    (storeRedelegation_apart _).bind fun _ => Within.pure _

theorem purgeAllMaturedConsKeyRotatedKeys_apart (time : Time) :
    Within b.Apart (purgeAllMaturedConsKeyRotatedKeys time) :=
  ((Within.load _).bind fun _ => (Within.update fun _ => .of_eq rfl rfl rfl rfl).bind fun _ =>
    Within.pure _).bind fun _ => Within.forM (fun _ => Within.update fun _ => .of_eq rfl rfl rfl rfl) _

/-! ## Hooks and coins -/

variable (hb : b.Serve k)
include hb

theorem callHook_apart (call : HookCall) : Within b.Apart (k.callHook call) := by
  refine transition fun s s' h => ?_
  obtain ⟨_, hhook, h⟩ := bind_eq_ok.mp h
  obtain rfl := ok.inj h
  exact .of_extends rfl rfl rfl (hb.hooks hhook)

theorem delegateCoinsFromAccountToModule_apart (del : AccAddress) (p : Pool) (amt : Int) :
    Within b.Apart (k.delegateCoinsFromAccountToModule del p amt) := by
  refine transition fun s s' h => ?_
  obtain ⟨_, hcoins, h⟩ := bind_eq_ok.mp h
  obtain rfl := ok.inj h
  exact .of_extends rfl rfl rfl (hb.delegates hcoins).2

theorem moveDelegatedCoins_apart (del : AccAddress) (amt : Int) (src : BondStatus) (v : Validator)
    (sub : Bool) : Within b.Apart (k.moveDelegatedCoins del amt src v sub) := by
  have := delegateCoinsFromAccountToModule_apart hb
  unfold moveDelegatedCoins bondedTokensToNotBonded notBondedTokensToBonded newBondCoin err
  split
  · split
    · infer_instance
    · split <;> infer_instance
  · split <;> infer_instance

theorem removeValidator_apart (addr : ValAddress) : Within b.Apart (k.removeValidator addr) := by
  have := callHook_apart hb
  refine (Within.load _).bind fun found => ?_
  cases found with
  | none => exact pure ()
  | some v =>
    simp only [removeFoundValidator]
    infer_instance

variable {del : AccAddress} {amt : Int} {src : BondStatus} {v : Validator} {u : Unit}
  {d : Delegation} {s₁ : State X} {shares : LegacyDec} {val : ValAddress} {time : Time}

theorem moveDelegatedCoins_registered (h : k.moveDelegatedCoins del amt src v true s = .ok u s') :
    b.registered s'.outside del := by
  unfold moveDelegatedCoins at h
  rw [if_pos rfl] at h
  split at h
  · exact (fail_ok.mp h).elim
  · cases hpool : sendName v.status with
    | none =>
      rw [hpool] at h
      exact (fail_ok.mp h).elim
    | some =>
      rw [hpool] at h
      obtain ⟨-, _, -, h⟩ := bind_ok.mp h
      obtain ⟨_, hcoins, h⟩ := bind_eq_ok.mp (transition_ok.mp h)
      obtain rfl := ok.inj h
      obtain ⟨hdel, hextends⟩ := hb.delegates hcoins
      exact hextends.registered del hdel

/-! ## Delegations -/

theorem removeDelegation_apart (d : Delegation) : Within b.Apart (k.removeDelegation d) := by
  refine (callHook_apart hb _).bind fun _ => bind (update fun s => ?_)
    fun _ => update fun _ => .of_eq rfl rfl rfl rfl
  refine ⟨rfl, rfl, .refl, fun hs key e he => ?_⟩
  rw [lookup_erase] at he
  split at he
  · simp at he
  · exact hs key e he

omit hb in
theorem setDelegation_apart (h1 : b.Apart s s₁) (h : setDelegation d s₁ = .ok u s')
    (hd : b.Delegating s → b.registered s₁.outside d.delegatorAddress) : b.Apart s s' := by
  simp only [setDelegation, bind_ok, update_ok] at h
  obtain ⟨_, _, rfl, rfl⟩ := h
  refine ⟨h1.unbonding, h1.queue, h1.outside, fun hs key e he => ?_⟩
  rw [lookup_insert] at he
  split at he
  · obtain rfl := Option.some.inj he
    exact hd hs
  · exact h1.delegating hs key e he

theorem storeRemainingShares_apart (h1 : b.Apart s s₁) (h : k.storeRemainingShares d s₁ = .ok u s')
    (hd : b.Delegating s → b.registered s₁.outside d.delegatorAddress) : b.Apart s s' := by
  unfold storeRemainingShares at h
  split at h
  · exact h1.trans ((removeDelegation_apart hb d).ok h)
  · obtain ⟨_, _, h2, h⟩ := bind_ok.mp h
    exact (setDelegation_apart h1 h2 hd).trans ((callHook_apart hb _).ok h)

theorem delegate_apart {sub : Bool} (h1 : b.Apart s s₁)
    (h : k.delegate del amt src v sub s₁ = .ok shares s')
    (hdel : sub = false → b.Delegating s → b.registered s₁.outside del) : b.Apart s s' := by
  simp only [delegate, pure_ok, steps] at h
  obtain ⟨_, -, found, hfound, _, _, h2, _, s3, h3, ⟨_, _⟩, s4, h4, _, -, _, _, h5, _, _,
    h6, -, rfl⟩ := h
  have hadd : b.Apart s3 s4 := (addValidatorTokensAndShares_apart v amt).ok h4
  have happart : b.Apart s₁ s4 := ((callHook_apart hb _).ok h2).trans
    (((moveDelegatedCoins_apart hb del amt src v sub).ok h3).trans hadd)
  have hregistered : b.Delegating s → b.registered s4.outside
      (found.getD ⟨del, v.operatorAddress, .zero⟩).delegatorAddress := by
    intro hs
    cases found with
    | some d => exact happart.outside.registered _ (h1.delegating hs _ d hfound)
    | none =>
      cases sub with
      | false => exact happart.outside.registered _ (hdel rfl hs)
      | true => exact hadd.outside.registered _ (moveDelegatedCoins_registered hb h3)
  exact (setDelegation_apart (h1.trans happart) h5 hregistered).trans ((callHook_apart hb _).ok h6)

theorem delegate_within (del : AccAddress) (amt : Int) (src : BondStatus) (v : Validator) :
    Within b.Apart (k.delegate del amt src v true) :=
  ⟨fun h => delegate_apart hb .refl h (fun hsub => by simp at hsub)⟩

theorem unbond_apart (del : AccAddress) (val : ValAddress) (shares : LegacyDec) :
    Within b.Apart (k.unbond del val shares) := by
  refine ⟨fun {s amt s'} h => ?_⟩
  simp only [unbond, getValidator, steps] at h
  obtain ⟨d, hd, _, _, h1, _, -, v, -, _, -, v', s2, h2, _, s3, h3, ⟨_, _⟩, _, h4,
    h⟩ := h
  have happart : b.Apart s s2 := ((callHook_apart hb _).ok h1).trans
    ((jailBelowMinimum_apart _ v).ok h2)
  have hstored : b.Apart s s3 := storeRemainingShares_apart hb happart h3
    (fun hs => happart.outside.registered _ (hs _ d hd))
  refine (hstored.trans ((removeValidatorTokensAndShares_apart v' shares).ok h4)).trans ?_
  refine ok ?_ h
  exact ite ((removeValidator_apart hb _).bind fun _ => pure _) (pure _)

theorem unbond_registered (hs : s.ledger.Formed) (hdelegating : b.Delegating s)
    (h : k.unbond del val shares s = .ok amt s') : b.registered s'.outside del := by
  have houtside := ((unbond_apart hb del val shares).ok h).outside
  simp only [unbond, steps] at h
  obtain ⟨d, hd, -⟩ := h
  have hkey : d.delegatorAddress = del := congrArg Prod.fst (hs.delegations _ d hd).key_eq
  exact houtside.registered _ (hkey ▸ hdelegating _ d hd)

theorem beginRedelegation_apart {src dst : ValAddress} (hs : s.ledger.Formed)
    (h : k.beginRedelegation ctx del src dst shares s = .ok time s') : b.Apart s s' := by
  simp only [beginRedelegation, steps] at h
  obtain ⟨_, -, _, -, _, -, _, -, _, -, _, -, _, -, _, _, h1, _, -,
    _, s2, h2, _, _, ⟨_, -, -, rfl⟩, h⟩ := h
  have hmoved : b.Apart s s2 := delegate_apart hb ((unbond_apart hb del src shares).ok h1) h2
    (fun _ hdelegating => unbond_registered hb hs hdelegating h1)
  refine hmoved.trans (Within.ok ?_ h)
  exact Within.ite (Within.pure _) (((Within.load _).bind fun _ =>
    (Within.update fun _ => .of_eq rfl rfl rfl rfl).bind fun _ => Within.pure _).bind fun _ =>
      (Within.update fun _ => .of_eq rfl rfl rfl rfl).bind fun _ => Within.pure _)

/-! ## Messages -/

omit hb in
@[instance] theorem checkBondDenom_apart (amount : Coin) : Within b.Apart (checkBondDenom amount) := by
  simp only [checkBondDenom]
  infer_instance

omit hb in
theorem validateUnbondAmount_state (h : validateUnbondAmount del val amt s = .ok shares s') :
    s' = s := by
  simp only [validateUnbondAmount, getValidator, pure_ok, steps] at h
  obtain ⟨_, -, _, -, _, -, _, -, _, -, _, -, _, -, -, rfl⟩ := h
  rfl

theorem msgBeginRedelegate_apart {msg : MsgBeginRedelegate} (hs : s.ledger.Formed)
    (h : k.msgBeginRedelegate ctx msg s = .ok time s') : b.Apart s s' := by
  simp only [msgBeginRedelegate, steps] at h
  obtain ⟨_, -, _, _, h1, _, _, h2, h⟩ := h
  obtain rfl := validateUnbondAmount_state h1
  obtain rfl := checkBondDenom_state h2
  exact beginRedelegation_apart hb hs h

omit hb in
@[instance] theorem checkConsKeyAlreadyUsed_apart (pk : ConsPubKey) :
    Within b.Apart (k.checkConsKeyAlreadyUsed ctx pk) := by
  simp only [checkConsKeyAlreadyUsed]
  infer_instance

omit hb in
@[instance] theorem checkCreateValidator_apart (msg : MsgCreateValidator) (pk : ConsPubKey)
    (rates : CommissionRates) : Within b.Apart (k.checkCreateValidator ctx msg pk rates) := by
  simp only [checkCreateValidator]
  infer_instance

theorem createValidator_apart (msg : MsgCreateValidator) :
    Within b.Apart (k.createValidator ctx msg) := by
  have := callHook_apart hb
  have := delegate_within hb
  simp only [createValidator]
  infer_instance

theorem editValidator_apart (msg : MsgEditValidator) :
    Within b.Apart (k.editValidator ctx msg) := by
  have := callHook_apart hb
  have (v : Validator) (rate : Option LegacyDec) :
      Within b.Apart (k.editCommission ctx msg.validatorAddress v rate) := by
    cases rate with
    | none => exact pure v
    | some =>
      simp only [editCommission, updateValidatorCommission]
      infer_instance
  simp only [editValidator, checkEditValidator, getValidator]
  infer_instance

theorem msgDelegate_apart (msg : MsgDelegate) : Within b.Apart (k.msgDelegate msg) := by
  have := delegate_within hb
  simp only [msgDelegate, getValidator]
  infer_instance

theorem rotateConsPubKey_apart (msg : MsgRotateConsPubKey) :
    Within b.Apart (k.rotateConsPubKey ctx msg) := by
  have hfee : ∀ fee, Within b.Apart (transition (fun s => do
      let outside ← k.sendRotationFee s.outside msg.validatorAddress fee
      .ok { s with outside := outside }) : Call X Unit) := by
    refine fun fee => transition fun s s' h => ?_
    obtain ⟨_, hpaid, h⟩ := bind_eq_ok.mp h
    obtain rfl := ok.inj h
    exact .of_extends rfl rfl rfl (hb.fees hpaid)
  simp only [rotateConsPubKey, getValidator, exceedsMaxRotations, setConsPubKeyRotationHistory,
    setConsKeyQueue]
  infer_instance

/-! ## The validator set -/

theorem bondValidator_apart (v : Validator) : Within b.Apart (k.bondValidator v) := by
  have := callHook_apart hb
  simp only [bondValidator]
  infer_instance

theorem enterSet_apart (v : Validator) (amt : Int) : Within b.Apart (k.enterSet v amt) := by
  have := bondValidator_apart hb
  unfold enterSet unbondingToBonded unbondedToBonded err
  split <;> infer_instance

theorem applySet_apart (max : Nat) (addrs : List ValAddress) :
    ∀ acc, Within b.Apart (k.applySet max addrs acc) := by
  induction addrs with
  | nil => exact fun _ => pure _
  | cons addr addrs ih =>
    intro acc
    have := enterSet_apart hb
    simp only [applySet, reportPower, setLastValidatorPower]
    infer_instance

theorem leaveSet_apart (acc : List ValidatorUpdate × Int) (addr : ValAddress) :
    Within b.Apart (k.leaveSet ctx acc addr) := by
  have := callHook_apart hb
  simp only [leaveSet, bondedToUnbonding, beginUnbondingValidator, deleteLastValidatorPower]
  infer_instance

theorem applyRotation_apart (updates : List ValidatorUpdate) (history : ConsPubKeyRotationHistory) :
    Within b.Apart (k.applyRotation updates history) := by
  have := callHook_apart hb
  simp only [applyRotation, updateToNewPubkey, getValidator, setConsAddrToValidatorIdentifierMap]
  infer_instance

omit hb in
@[instance] theorem balancePools_apart (amt amt' : Int) : Within b.Apart (balancePools amt amt') := by
  simp only [balancePools, notBondedTokensToBonded, bondedTokensToNotBonded]
  infer_instance

theorem applyAndReturnValidatorSetUpdates_apart :
    Within b.Apart (k.applyAndReturnValidatorSetUpdates ctx) := by
  refine (Within.load _).bind fun s => (applySet_apart hb _ _ _).bind fun acc =>
    (Within.foldlM (leaveSet_apart hb) _ _).bind fun left => (Within.load _).bind fun histories =>
      (Within.foldlM (applyRotation_apart hb) _ _).bind fun updates =>
        (balancePools_apart _ _).bind fun _ => Within.ite (Within.pure _) ?_
  exact (Within.update fun _ => .of_eq rfl rfl rfl rfl).bind fun _ => Within.pure _

theorem unbondAllMatureValidators_apart : Within b.Apart (k.unbondAllMatureValidators ctx) := by
  have := removeValidator_apart hb
  have hone (addr : ValAddress) : Within b.Apart (k.unbondMatureValidator addr) := by
    simp only [unbondMatureValidator, unbondingToUnbonded, completeUnbondingValidator,
      removeEmptyValidator, getValidator]
    infer_instance
  exact (Within.load _).bind fun _ => Within.forM
    (fun _ => Within.ite (Within.pure ()) (Within.forM hone _)) _

end Keeper

end CosmosSDK.Staking
