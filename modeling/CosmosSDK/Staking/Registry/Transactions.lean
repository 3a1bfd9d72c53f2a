import CosmosSDK.Staking.Effects.Messages
import CosmosSDK.Staking.Effects.Slash
import CosmosSDK.Staking.Registry.Change

/-!
# Transactions and the registry

Every call inside a block follows `Change`, except that a new validator enters the registry
first and that a rotation of a key is only recorded.
-/

namespace CosmosSDK.Staking

open Store Math Auth OrderedKV Stateful Fallible State Validator

namespace Registry

variable {X : Type} {k : Keeper X} {r r' : Registry}

/-- Every record is stored under its own address. -/
def Keyed (r : Registry) : Prop :=
  ∀ (addr : ValAddress) (v : Validator), r.validators[addr]? = some v → v.operatorAddress = addr

theorem Keyed.stored (hr : r.Keyed) {addr : ValAddress} {v : Validator}
    (hv : r.validators[addr]? = some v) : r.validators[v.operatorAddress]? = some v := by
  rw [hr addr v hv]
  exact hv

theorem Keyed.store (hr : r.Keyed) (v : Validator) : (r.store v).Keyed := by
  intro addr w hw
  rw [Registry.store, lookup_insert] at hw
  split at hw
  · cases hw
    exact (Eq.symm ‹_›)
  · exact hr addr w hw

theorem Keyed.remove (hr : r.Keyed) (v : Validator) : (r.remove k v).Keyed := by
  intro addr w hw
  rw [Registry.remove, lookup_erase] at hw
  split at hw
  · simp at hw
  · exact hr addr w hw

theorem Change.keyed (h : Change k r r') (hr : r.Keyed) : r'.Keyed := by
  cases h with
  | restake tokens delegatorShares hv _ | edit description commission minSelfDelegation hv =>
    exact hr.store _
  | jail hv | unjail hv _ => exact hr.store _
  | remove => exact hr.remove _

abbrev Changes {X : Type} (k : Keeper X) : Registry → Registry → Prop :=
  Relation.ReflTransGen (Change k)

theorem keeps {R : Registry → Registry → Prop} {I : Registry → Prop}
    (hstep : ∀ {r r'}, R r r' → I r → I r') (h : Relation.ReflTransGen R r r') (hr : I r) : I r' := by
  induction h with
  | refl => exact hr
  | tail _ hlast ih => exact hstep hlast ih

theorem Changes.keyed (h : Changes k r r') (hr : r.Keyed) : r'.Keyed :=
  keeps Change.keyed h hr

theorem Changes.of_eq (h : r' = r) : Changes k r r' := h ▸ .refl

theorem store_lookup (r : Registry) (v : Validator) :
    (r.store v).validators[v.operatorAddress]? = some v := by
  rw [Registry.store, lookup_insert, if_pos rfl]

end Registry

theorem StakeLedger.Formed.keyed {X : Type} {s : State X} (hs : s.ledger.Formed) : s.registry.Keyed :=
  fun addr v hv => (hs.validators addr v hv).key_eq

namespace Keeper

open Registry

variable {X : Type} {k : Keeper X} {ctx : HeaderInfo} {s s' : State X} {u : Unit}

/-! ## Calls that leave the registry alone -/

theorem callHook_registry (call : HookCall) : Keeps registry (k.callHook call) := by
  refine .transition fun s s' h => ?_
  obtain ⟨_, -, h⟩ := bind_eq_ok.mp h
  cases h
  rfl

theorem setDelegation_registry (d : Delegation) :
    Keeps (registry (X := X)) (setDelegation d) :=
  (Keeps.update fun _ => by rfl).bind fun _ => .update fun _ => by rfl

theorem removeDelegation_registry (d : Delegation) : Keeps registry (k.removeDelegation d) :=
  (callHook_registry _).bind fun _ => (Keeps.update fun _ => by rfl).bind fun _ =>
    .update fun _ => by rfl

theorem storeRemainingShares_registry (d : Delegation) :
    Keeps registry (k.storeRemainingShares d) :=
  .ite (removeDelegation_registry d)
    ((setDelegation_registry d).bind fun _ => callHook_registry _)

theorem setUnbondingDelegation_registry (ubd : UnbondingDelegation) :
    Keeps (registry (X := X)) (setUnbondingDelegation ubd) :=
  (Keeps.update fun _ => by rfl).bind fun _ => .update fun _ => by rfl

theorem storeUnbondingDelegation_registry (ubd : UnbondingDelegation) :
    Keeps (registry (X := X)) (storeUnbondingDelegation ubd) :=
  .ite ((Keeps.update fun _ => by rfl).bind fun _ => .update fun _ => by rfl)
    (setUnbondingDelegation_registry ubd)

theorem sendBetweenPools_registry (p q : Pool) (amt : Int) :
    Keeps (registry (X := X)) (sendBetweenPools p q amt) := by
  refine .bind (.reject _ _) fun _ => .transition fun s s' h => ?_
  split at h
  · simp at h
  · cases h
    rfl

theorem burnPoolTokens_registry (p : Pool) (amt : Int) :
    Keeps (registry (X := X)) (burnPoolTokens p amt) := by
  refine .ite (.pure ()) (.transition fun s s' h => ?_)
  split at h
  · simp at h
  · cases h
    rfl

theorem delegateCoinsFromAccountToModule_registry (del : AccAddress) (p : Pool) (amt : Int) :
    Keeps registry (k.delegateCoinsFromAccountToModule del p amt) := by
  refine .transition fun s s' h => ?_
  obtain ⟨_, -, h⟩ := bind_eq_ok.mp h
  cases h
  rfl

theorem undelegateCoinsFromModuleToAccount_registry (p : Pool) (del : AccAddress) (amt : Int) :
    Keeps registry (k.undelegateCoinsFromModuleToAccount p del amt) := by
  refine .transition fun s s' h => ?_
  split at h
  · simp at h
  · obtain ⟨_, -, h⟩ := bind_eq_ok.mp h
    cases h
    rfl

theorem moveDelegatedCoins_registry (del : AccAddress) (amt : Int) (src : BondStatus)
    (v : Validator) (sub : Bool) : Keeps registry (k.moveDelegatedCoins del amt src v sub) := by
  unfold moveDelegatedCoins
  split
  · split
    · exact .fail _
    · split
      · exact .fail _
      · exact .bind (.reject _ _) fun _ => delegateCoinsFromAccountToModule_registry del _ amt
  · split
    · exact .pure ()
    · exact .pure ()
    · exact .pure ()
    · exact sendBetweenPools_registry _ _ amt
    · exact sendBetweenPools_registry _ _ amt
    · exact sendBetweenPools_registry _ _ amt
    · exact .fail _

theorem releaseTokens_registry (v : Validator) (amt : Int) :
    Keeps (registry (X := X)) (releaseTokens v amt) :=
  .ite (sendBetweenPools_registry _ _ amt) (.pure ())

/-! ## Records -/

variable {v v' : Validator} {amt infractionHeight slashAmount burned : Int}
  {shares slashFactor : LegacyDec} {del : AccAddress} {val dst : ValAddress}
  {ubd : UnbondingDelegation} {sums sums' : SlashSums} {consAddr : ConsAddress}

theorem setValidator_registry (h : setValidator v s = .ok u s') :
    s'.registry = s.registry.store v := by
  obtain rfl := update_ok.mp h
  rfl

theorem deleteValidatorByPowerIndex_registry (h : k.deleteValidatorByPowerIndex v s = .ok u s') :
    s'.registry = { s.registry with
      validatorsByPowerIndex := s.registry.validatorsByPowerIndex.erase (k.powerKey v) } := by
  simp only [deleteValidatorByPowerIndex, update_ok, steps] at h
  obtain ⟨_, hkey, rfl⟩ := h
  obtain ⟨rfl, -⟩ := getValidatorsByPowerIndexKey_ok hkey
  rfl

theorem setNewValidatorByPowerIndex_registry (h : k.setNewValidatorByPowerIndex v s = .ok u s') :
    k.Powered v ∧ s'.registry = { s.registry with
      validatorsByPowerIndex :=
        s.registry.validatorsByPowerIndex.insert (k.powerKey v) v.operatorAddress } := by
  simp only [setNewValidatorByPowerIndex, update_ok, steps] at h
  obtain ⟨_, hkey, rfl⟩ := h
  obtain ⟨rfl, hpowered⟩ := getValidatorsByPowerIndexKey_ok hkey
  exact ⟨hpowered, rfl⟩

theorem setValidatorByPowerIndex_registry (h : k.setValidatorByPowerIndex v s = .ok u s') :
    (v.jailed = false → k.Powered v) ∧ s'.registry = { s.registry with
      validatorsByPowerIndex :=
        if v.jailed then s.registry.validatorsByPowerIndex
        else s.registry.validatorsByPowerIndex.insert (k.powerKey v) v.operatorAddress } := by
  unfold setValidatorByPowerIndex at h
  by_cases hjailed : v.jailed = true
  · rw [if_pos hjailed] at h
    obtain ⟨-, rfl⟩ := pure_ok.mp h
    exact ⟨fun hfree => by simp [hjailed] at hfree, by rw [if_pos hjailed]⟩
  · rw [if_neg hjailed] at h
    obtain ⟨hpowered, hregistry⟩ := setNewValidatorByPowerIndex_registry h
    exact ⟨fun _ => hpowered, by rw [if_neg hjailed]; exact hregistry⟩

/-- The index entry of a record is deleted, another record is stored, and its entry is set. -/
theorem replaceRecord_registry {u1 u2 : Unit} {s1 s2 : State X}
    (h1 : k.deleteValidatorByPowerIndex v s = .ok u1 s1) (h2 : setValidator v' s1 = .ok u2 s2)
    (h3 : k.setValidatorByPowerIndex v' s2 = .ok u s') :
    (v'.jailed = false → k.Powered v') ∧ s'.registry = s.registry.rewrite k v v' := by
  obtain ⟨hpowered, hregistry⟩ := setValidatorByPowerIndex_registry h3
  refine ⟨hpowered, ?_⟩
  rw [hregistry, setValidator_registry h2, deleteValidatorByPowerIndex_registry h1]
  rfl

theorem addValidatorTokensAndShares_restakes {issued : LegacyDec}
    (h : k.addValidatorTokensAndShares v amt s = .ok (v', issued) s') :
    Restakes k v s.registry s'.registry := by
  simp only [addValidatorTokensAndShares, pure_ok, steps] at h
  obtain ⟨_, _, h1, ⟨_, _⟩, hadd, _, _, h3, _, _, h4, hret, rfl⟩ := h
  obtain ⟨rfl, rfl⟩ := Prod.mk.inj hret
  obtain ⟨hpowered, hregistry⟩ := replaceRecord_registry h1 h3 h4
  obtain ⟨-, rfl⟩ := addTokensFromDel_ok hadd
  exact ⟨_, _, hpowered, hregistry⟩

theorem removeValidatorTokensAndShares_change
    (hv : s.registry.validators[v.operatorAddress]? = some v)
    (h : k.removeValidatorTokensAndShares v shares s = .ok (v', amt) s') :
    Change k s.registry s'.registry ∧ s'.registry.validators[v.operatorAddress]? = some v' ∧
      v'.operatorAddress = v.operatorAddress := by
  simp only [removeValidatorTokensAndShares, pure_ok, steps] at h
  obtain ⟨_, _, h1, ⟨_, _⟩, hremove, _, _, h3, _, _, h4, hret, rfl⟩ := h
  obtain ⟨rfl, rfl⟩ := Prod.mk.inj hret
  obtain ⟨hpowered, hregistry⟩ := replaceRecord_registry h1 h3 h4
  obtain ⟨rfl, -⟩ := removeDelShares_ok hremove
  rw [hregistry]
  exact ⟨Change.restake _ _ hv hpowered, store_lookup s.registry _, rfl⟩

theorem removeValidatorTokens_change (hv : s.registry.validators[v.operatorAddress]? = some v)
    (h : k.removeValidatorTokens v amt s = .ok v' s') : Change k s.registry s'.registry := by
  simp only [removeValidatorTokens, pure_ok, steps] at h
  obtain ⟨_, _, h1, _, hremove, _, _, h3, _, _, h4, rfl, rfl⟩ := h
  obtain ⟨hpowered, hregistry⟩ := replaceRecord_registry h1 h3 h4
  obtain ⟨-, -, rfl⟩ := removeTokens_ok hremove
  rw [hregistry]
  exact Change.restake _ v.delegatorShares hv hpowered

theorem removeFoundValidator_registry (h : k.removeFoundValidator v.operatorAddress v s = .ok u s') :
    v.status = .unbonded ∧ s'.registry = s.registry.remove k v := by
  simp only [removeFoundValidator, update_ok, steps] at h
  obtain ⟨_, hstatus, _, -, _, _, rfl, _, _, rfl, _, _, h5, h⟩ := h
  refine ⟨by simpa [isUnbonded] using hstatus, ?_⟩
  rw [(callHook_registry ..).ok h, deleteValidatorByPowerIndex_registry h5]
  rfl

theorem removeValidator_registry (hv : s.registry.validators[v.operatorAddress]? = some v)
    (h : k.removeValidator v.operatorAddress s = .ok u s') :
    v.status = .unbonded ∧ s'.registry = s.registry.remove k v := by
  simp only [removeValidator, steps] at h
  obtain ⟨_, rfl, h⟩ := h
  rw [show s.validators[v.operatorAddress]? = some v from hv] at h
  exact removeFoundValidator_registry h

/-! ## Delegations -/

theorem delegate_restakes {src : BondStatus} {sub : Bool} {newShares : LegacyDec}
    (h : k.delegate del amt src v sub s = .ok newShares s') :
    Restakes k v s.registry s'.registry := by
  simp only [delegate, pure_ok, steps] at h
  obtain ⟨_, -, _, -, _, _, h3, _, s4, h4, ⟨_, _⟩, _, h5, _, -, h⟩ := h
  obtain ⟨_, _, h7, _, _, h8, -, rfl⟩ := h
  have hbefore : s4.registry = s.registry := by
    rw [(moveDelegatedCoins_registry ..).ok h4, (callHook_registry ..).ok h3]
  rw [(callHook_registry ..).ok h8, (setDelegation_registry ..).ok h7, ← hbefore]
  exact addValidatorTokensAndShares_restakes h5

theorem jailValidator_change (hv : s.registry.validators[v.operatorAddress]? = some v)
    (h : k.jailValidator v s = .ok u s') :
    Change k s.registry s'.registry ∧
      s'.registry.validators[v.operatorAddress]? = some { v with jailed := true } := by
  simp only [jailValidator, steps] at h
  obtain ⟨_, -, _, _, h2, h3⟩ := h
  have hregistry : s'.registry = s.registry.rewrite k v { v with jailed := true } := by
    rw [deleteValidatorByPowerIndex_registry h3, setValidator_registry h2]
    rfl
  rw [hregistry]
  exact ⟨Change.jail hv, store_lookup s.registry { v with jailed := true }⟩

theorem jailBelowMinimum_changes {d : Delegation}
    (hv : s.registry.validators[v.operatorAddress]? = some v)
    (h : k.jailBelowMinimum d v s = .ok v' s') : Changes k s.registry s'.registry ∧
      s'.registry.validators[v'.operatorAddress]? = some v' ∧
      v'.operatorAddress = v.operatorAddress := by
  rcases jailBelowMinimum_ok h with ⟨rfl, rfl⟩ | ⟨rfl, hjail⟩
  · exact ⟨.refl, hv, rfl⟩
  · obtain ⟨hchange, hstored⟩ := jailValidator_change hv hjail
    exact ⟨.single hchange, hstored, rfl⟩

theorem unbond_changes (hr : s.registry.Keyed) (h : k.unbond del val shares s = .ok amt s') :
    Changes k s.registry s'.registry := by
  simp only [unbond, getValidator, steps] at h
  obtain ⟨_, -, _, _, h2, _, -, _, hv, _, -, h⟩ := h
  obtain ⟨_, _, h6, _, _, h7, ⟨v2, _⟩, s8, h8, h⟩ := h
  have hhook := (callHook_registry ..).ok h2
  have hv := (hhook ▸ hr).stored hv
  obtain ⟨hjail, hv1, haddr1⟩ := jailBelowMinimum_changes hv h6
  have hshares := (storeRemainingShares_registry ..).ok h7
  rw [← hshares] at hv1 hjail
  obtain ⟨hrestake, hv2, haddr2⟩ := removeValidatorTokensAndShares_change hv1 h8
  have hchanges : Changes k s.registry s8.registry := by
    rw [← hhook]
    exact hjail.tail hrestake
  split at h
  · obtain ⟨_, _, h9, hret⟩ := bind_ok.mp h
    obtain ⟨-, rfl⟩ := pure_ok.mp hret
    have haddr := haddr2.trans haddr1
    rw [← haddr] at h9
    have hstored : s8.registry.validators[v2.operatorAddress]? = some v2 := by
      rw [haddr2]
      exact hv2
    obtain ⟨hstatus, hregistry⟩ := removeValidator_registry hstored h9
    rw [hregistry]
    exact hchanges.tail (Change.remove hstored hstatus)
  · obtain ⟨-, rfl⟩ := pure_ok.mp h
    exact hchanges

theorem undelegate_changes (hr : s.registry.Keyed) {r : Time × Int}
    (h : k.undelegate ctx del val shares s = .ok r s') : Changes k s.registry s'.registry := by
  simp only [undelegate, getValidator, pure_ok, steps] at h
  obtain ⟨_, -, _, -, _, -, _, _, h4, _, _, h5, h⟩ := h
  obtain ⟨_, -, _, _, h7, _, s8, h8, -, rfl⟩ := h
  simp only [setUnbondingDelegationEntry, pure_ok, steps] at h7
  obtain ⟨_, -, _, -, _, s11, h11, -, rfl⟩ := h7
  have hqueue : s8.registry = s11.registry := by rw [← update_ok.mp h8]; rfl
  rw [hqueue, (setUnbondingDelegation_registry ..).ok h11, (releaseTokens_registry ..).ok h5]
  exact unbond_changes hr h4

theorem beginRedelegation_changes (hs : s.ledger.Formed) (hsurplus : s.ledger.surplus = 0)
    {src : ValAddress} (hshares : 0 ≤ shares.i) {time : Time}
    (h : k.beginRedelegation ctx del src dst shares s = .ok time s') :
    Changes k s.registry s'.registry := by
  simp only [beginRedelegation, steps] at h
  obtain ⟨_, hne, dstV, hdst, _, _, h⟩ := h
  obtain ⟨_, -, _, -, _, -, _, -, h⟩ := h
  obtain ⟨_, s8, h8, _, -, _, s10, h10, _, _, ⟨_, -, -, rfl⟩, h⟩ := h
  obtain ⟨_, -, -, e, -⟩ := unbond_effect hs hsurplus hshares h8
  have hunbond := unbond_changes hs.keyed h8
  have hdst : s8.registry.validators[dstV.operatorAddress]? = some dstV := by
    have hkey := hs.keyed dst dstV hdst
    rw [hkey]
    exact (e.frame dst fun hmem => hne hmem.symm).trans hdst
  have hdelegate := (delegate_restakes h10).change hdst
  have hrest : s'.registry = s10.registry := by
    split at h
    · rw [(pure_ok.mp h).2]
    · simp only [setRedelegationEntry, setRedelegation, insertRedelegationQueue, update_ok,
        pure_ok, steps] at h
      obtain ⟨_, _, ⟨_, -, _, _, rfl, -, rfl⟩, _, _, rfl, -, rfl⟩ := h
      rfl
  rw [hrest]
  exact hunbond.tail hdelegate

/-! ## Slashing -/

theorem slashEntries_registry (entries : List UnbondingDelegationEntry) :
    ∀ done total burned, Keeps (registry (X := X))
      (slashEntries ctx infractionHeight slashFactor ubd done entries total burned) := by
  induction entries with
  | nil => exact fun _ _ _ => .pure _
  | cons entry entries ih =>
    intro done total burned
    refine .ite (ih _ _ _) ?_
    refine .bind (.lift _) fun _ => .bind (.lift _) fun _ => .bind (.lift _) fun _ => ?_
    refine .ite (ih _ _ _) ((Keeps.lift _).bind fun _ => .bind (.lift _) fun _ => ?_)
    exact (setUnbondingDelegation_registry _).bind fun _ => ih _ _ _

theorem slashMovedEntries_registry (entries : List UnbondingDelegationEntry) :
    ∀ done amount burned, Keeps (registry (X := X))
      (slashMovedEntries ctx infractionHeight ubd done entries amount burned) := by
  induction entries with
  | nil => exact fun _ _ _ => .pure _
  | cons entry entries ih =>
    intro done amount burned
    refine .ite (ih _ _ _) ?_
    refine .bind (.lift _) fun _ => .bind (.lift _) fun _ => .bind (.lift _) fun _ => ?_
    exact (setUnbondingDelegation_registry _).bind fun _ => ih _ _ _

theorem slashUnbondingDelegation_registry (ubd : UnbondingDelegation) (infractionHeight : Int)
    (slashFactor : LegacyDec) : Keeps (registry (X := X))
      (slashUnbondingDelegation ctx ubd infractionHeight slashFactor) :=
  (slashEntries_registry _ _ _ _).bind fun _ => (burnPoolTokens_registry _ _).bind fun _ =>
    .pure _

theorem slashMovedUnbonding_registry (del : AccAddress) (dst : ValAddress)
    (infractionHeight amount burned : Int) : Keeps (registry (X := X))
      (slashMovedUnbonding ctx del dst infractionHeight amount burned) := by
  refine .bind (.load _) fun found => ?_
  cases found with
  | none => exact .pure _
  | some => exact slashMovedEntries_registry _ _ _ _

variable (hr : s.registry.Keyed)
include hr

theorem slashMovedDelegation_changes {amount : Int}
    (h : k.slashMovedDelegation del dst amount sums s = .ok sums' s') :
    Changes k s.registry s'.registry := by
  simp only [slashMovedDelegation, getValidator, steps] at h
  obtain ⟨_, -, _, -, h⟩ := h
  split at h
  · exact Changes.of_eq (by rw [(pure_ok.mp h).2])
  · simp only [steps] at h
    obtain ⟨found, -, h⟩ := h
    cases found with
    | none => exact Changes.of_eq (by rw [(pure_ok.mp h).2])
    | some =>
      simp only [steps] at h
      obtain ⟨_, _, h4, _, -, -, rfl⟩ := h
      exact unbond_changes hr h4

theorem slashRedelegationEntry_changes {entry : RedelegationEntry}
    (h : k.slashRedelegationEntry ctx del dst infractionHeight slashFactor sums entry s =
      .ok sums' s') : Changes k s.registry s'.registry := by
  unfold slashRedelegationEntry at h
  split at h
  · exact Changes.of_eq (by rw [(pure_ok.mp h).2])
  · simp only [steps] at h
    obtain ⟨_, -, _, -, _, -, ⟨_, _⟩, _, h4, h⟩ := h
    have hkeep := (slashMovedUnbonding_registry ..).ok h4
    split at h
    · exact Changes.of_eq (by rw [← (pure_ok.mp h).2, hkeep])
    · rw [← hkeep] at hr ⊢
      exact slashMovedDelegation_changes hr h

theorem slashRedelegation_changes {red : Redelegation}
    (h : k.slashRedelegation ctx red infractionHeight slashFactor s = .ok amt s') :
    Changes k s.registry s'.registry := by
  simp only [slashRedelegation, bind_ok, pure_ok] at h
  obtain ⟨_, _, h1, _, _, h2, _, _, h3, -, rfl⟩ := h
  rw [(burnPoolTokens_registry ..).ok h3, (burnPoolTokens_registry ..).ok h2]
  exact foldlM_induct (I := fun _ _ t => Changes k s.registry t.registry)
    (fun entry _ _ t _ t' hI hstep =>
      hI.trans (slashRedelegationEntry_changes (hI.keyed hr) hstep)) h1 .refl

theorem slashScan_changes {remaining : Int}
    (h : k.slashScan ctx val infractionHeight slashFactor slashAmount s = .ok remaining s') :
    Changes k s.registry s'.registry := by
  unfold slashScan at h
  split at h
  · simp [err] at h
  split at h
  · exact Changes.of_eq (by rw [(pure_ok.mp h).2])
  simp only [steps] at h
  obtain ⟨_, -, _, s2, h2, _, _, ⟨_, -, -, rfl⟩, h⟩ := h
  have hubds : s2.registry = s.registry :=
    foldlM_induct (I := fun _ _ t => t.registry = s.registry)
      (fun ubd _ _ t _ t' hI hstep => by
        obtain ⟨_, hslash⟩ := chargeUnbondingDelegation_ok hstep
        rw [(slashUnbondingDelegation_registry ..).ok hslash, hI]) h2 rfl
  rw [← hubds] at hr ⊢
  refine foldlM_induct (I := fun _ _ t => Changes k s2.registry t.registry)
    (fun red _ _ t _ t' hI hstep => ?_) h .refl
  obtain ⟨_, hslash⟩ := chargeRedelegation_ok hstep
  exact hI.trans (slashRedelegation_changes (hI.keyed hr) hslash)

omit hr

theorem callBeforeSlashed_registry (v : Validator) (amt : Int) :
    Keeps registry (k.callBeforeSlashed v amt) :=
  .ite ((Keeps.lift _).bind fun _ => callHook_registry _) (.pure ())

variable (hs : s.ledger.Formed)
include hs

theorem slashFound_changes (hsurplus : s.ledger.surplus = 0)
    (hv : s.registry.validators[v.operatorAddress]? = some v) (hfactor : 0 ≤ slashFactor.i)
    (h : k.slashFound ctx v infractionHeight slashFactor slashAmount s = .ok burned s') :
    Changes k s.registry s'.registry := by
  simp only [slashFound, bind_ok, reject_ok] at h
  obtain ⟨_, _, ⟨-, rfl⟩, _, _, h2, _, s3, h3, h⟩ := h
  have hhook := (callHook_registry ..).ok h2
  have hledger := callHook_ledger h2
  have hscan := slashScan_changes (hhook ▸ hs.keyed) h3
  rw [hhook] at hscan
  split at h
  · rw [← (pure_ok.mp h).2]
    exact hscan
  · simp only [bind_ok] at h
    obtain ⟨_, _, h4, v', s5, h5, h⟩ := h
    have hcall := (callBeforeSlashed_registry ..).ok h4
    -- the scan never touches the record that was read before it
    have hv3 : s3.registry.validators[v.operatorAddress]? = some v := by
      have e := slashScan_effect (hledger ▸ hs) (hledger ▸ hsurplus) hfactor h3
      have hframe := e.frame v.operatorAddress (by simp)
      rw [hledger] at hframe
      exact hframe.trans hv
    have hrestake := removeValidatorTokens_change (hcall ▸ hv3) h5
    rw [hcall] at hrestake
    have hburn : s'.registry = s5.registry := by
      cases hpool : sendName v'.status with
      | none => simp [hpool, err] at h
      | some =>
        simp only [hpool, bind_ok, pure_ok] at h
        obtain ⟨_, _, h6, -, rfl⟩ := h
        exact (burnPoolTokens_registry ..).ok h6
    rw [hburn]
    exact hscan.tail hrestake

theorem slash_changes (hsurplus : s.ledger.surplus = 0) {power : Int}
    (h : k.slash ctx consAddr infractionHeight power slashFactor s = .ok burned s') :
    Changes k s.registry s'.registry := by
  simp only [slash, steps] at h
  obtain ⟨_, hfactor, _, -, _, -, _, -, found, hfound, h⟩ := h
  have hfactor : 0 ≤ slashFactor.i := by simpa [LegacyDec.isNegative] using hfactor
  cases found with
  | none => exact Changes.of_eq (by rw [(pure_ok.mp h).2])
  | some =>
    exact slashFound_changes hs hsurplus (getValidatorByConsAddr_stored hs hfound) hfactor h

theorem jail_changes (h : k.jail consAddr s = .ok u s') :
    Changes k s.registry s'.registry := by
  simp only [jail, steps] at h
  obtain ⟨_, hv, h⟩ := h
  exact .single (jailValidator_change (getValidatorByConsAddr_stored hs hv) h).1

theorem unjail_changes (h : k.unjail consAddr s = .ok u s') :
    Changes k s.registry s'.registry := by
  simp only [unjail, unjailValidator, steps] at h
  obtain ⟨v, hv, _, -, _, _, h3, h⟩ := h
  obtain ⟨hpowered, hregistry⟩ := setValidatorByPowerIndex_registry h
  -- a jailed validator has no entry to delete, and its key would be the one that is set
  have heq : s'.registry = s.registry.rewrite k v { v with jailed := false } := by
    rw [hregistry, setValidator_registry h3]
    have hkey : k.powerKey { v with jailed := false } = k.powerKey v := rfl
    simp [Registry.rewrite, Registry.store, hkey, insert_erase_self]
  rw [heq]
  exact .single (Change.unjail (getValidatorByConsAddr_stored hs hv) (hpowered rfl))

end Keeper

end CosmosSDK.Staking
