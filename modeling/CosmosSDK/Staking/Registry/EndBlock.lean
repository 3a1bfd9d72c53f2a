import CosmosSDK.Staking.Registry.Messages

/-!
# The end of a block and the registry

The new validator set follows `Turn`, then come the rotations of the block, and the end of
unbonding follows `Release`.
-/

namespace CosmosSDK.Staking

open CosmosSDK.Types OrderedKV Stateful Validator Relation.ReflTransGen State

namespace Registry

variable {X : Type} {k : Keeper X} {ctx : HeaderInfo} {r r' : Registry}

theorem Turn.keyed (h : Turn k ctx r r') (hr : r.Keyed) : r'.Keyed := by
  cases h with
  | bond hv _ _ | beginUnbonding unbondingTime hv _ => exact hr.store _
  | report => exact hr

abbrev Turns {X : Type} (k : Keeper X) (ctx : HeaderInfo) : Registry → Registry → Prop :=
  Relation.ReflTransGen (Turn k ctx)

theorem Turns.keyed (h : Turns k ctx r r') (hr : r.Keyed) : r'.Keyed :=
  keeps Turn.keyed h hr

theorem Release.keyed (h : Release k r r') (hr : r.Keyed) : r'.Keyed := by
  cases h with
  | finishUnbonding => exact hr.store _
  | remove => exact hr.remove _

abbrev Releases {X : Type} (k : Keeper X) : Registry → Registry → Prop :=
  Relation.ReflTransGen (Release k)

theorem Releases.keyed (h : Releases k r r') (hr : r.Keyed) : r'.Keyed :=
  keeps Release.keyed h hr

/-- The rotations of a block, in order, with the updates they add.  A validator that is jailed
or not bonded is passed over. -/
inductive Rotated {X : Type} (k : Keeper X) : List ConsPubKeyRotationHistory →
    List Keeper.ValidatorUpdate → Registry → Registry → Prop
  | nil {r : Registry} : Rotated k [] [] r r
  | skip {history : ConsPubKeyRotationHistory} {l : List ConsPubKeyRotationHistory}
      {updates : List Keeper.ValidatorUpdate} {r r' : Registry} {v : Validator}
      (hv : r.validators[history.operatorAddress]? = some v)
      (hout : v.jailed = true ∨ v.status ≠ .bonded) (h : Rotated k l updates r r') :
      Rotated k (history :: l) updates r r'
  | rotate {history : ConsPubKeyRotationHistory} {l : List ConsPubKeyRotationHistory}
      {updates : List Keeper.ValidatorUpdate} {r r' : Registry} {v : Validator}
      (hv : r.validators[history.operatorAddress]? = some v)
      (haddr : v.operatorAddress = history.operatorAddress) (hjailed : v.jailed = false)
      (hstatus : v.status = .bonded) (hpowered : k.Powered v)
      (h : Rotated k l updates (r.rekey k v history.oldConsPubkey history.newConsPubkey) r') :
      Rotated k (history :: l)
        (⟨history.oldConsPubkey, 0⟩ :: ⟨history.newConsPubkey, k.power v⟩ :: updates) r r'

theorem Keyed.rekey (hr : r.Keyed) (v : Validator) (oldPubKey newPubKey : ConsPubKey) :
    (r.rekey k v oldPubKey newPubKey).Keyed :=
  hr.store { v with consensusPubkey := newPubKey }

theorem Rotated.keyed {l : List ConsPubKeyRotationHistory} {updates : List Keeper.ValidatorUpdate}
    (h : Rotated k l updates r r') (hr : r.Keyed) : r'.Keyed := by
  induction h with
  | nil => exact hr
  | skip _ _ _ ih => exact ih hr
  | rotate _ _ _ _ _ _ ih => exact ih (hr.rekey _ _ _)

end Registry

namespace Keeper

open Registry

variable {X : Type} {k : Keeper X} {ctx : HeaderInfo} {s s' : State X} {u : Unit}

/-! ## The queue of unbonding validators -/

variable {v v' : Validator} {amt amt' newPower : Int} {valAddr addr : ValAddress} {acc : Applied}
  {updates : List ValidatorUpdate} {acc' : List ValidatorUpdate × Int}

theorem deleteValidatorQueue_registry (h : deleteValidatorQueue v s = .ok u s') :
    s'.registry = s.registry.leaveQueue v := by
  simp only [deleteValidatorQueue, setUnbondingValidatorsQueue, deleteValidatorQueueTimeSlice,
    steps] at h
  obtain ⟨_, rfl, h⟩ := h
  unfold getUnbondingValidators at h
  split at h
  · rename_i hempty
    obtain rfl := update_ok.mp h
    exact congrArg (fun queue => { s.registry with validatorQueue := queue }) (if_pos hempty).symm
  · rename_i hempty
    obtain rfl := update_ok.mp h
    exact congrArg (fun queue => { s.registry with validatorQueue := queue }) (if_neg hempty).symm

theorem insertUnbondingValidatorQueue_registry (h : insertUnbondingValidatorQueue v s = .ok u s') :
    s'.registry = s.registry.joinQueue v := by
  simp only [insertUnbondingValidatorQueue, setUnbondingValidatorsQueue, update_ok, steps] at h
  obtain ⟨_, rfl, rfl⟩ := h
  rfl

/-! ## Transitions of one validator -/

theorem bondValidator_registry (h : k.bondValidator v s = .ok v' s') : v' = v.updateStatus .bonded ∧
      s'.registry =
        (s.registry.rewrite k v (v.updateStatus .bonded)).leaveQueue (v.updateStatus .bonded) := by
  simp only [bondValidator, bind_ok, pure_ok] at h
  obtain ⟨_, _, h1, _, _, h2, _, _, h3, _, _, h4, _, _, h5, rfl, rfl⟩ := h
  refine ⟨rfl, ?_⟩
  rw [(callHook_registry ..).ok h5, deleteValidatorQueue_registry h4,
    (replaceRecord_registry h1 h2 h3).2]

/-- A validator of the new set: one that was bonded stays as it is, another one is bonded. -/
theorem enterSet_turn (h : k.enterSet v amt s = .ok (v', amt') s') : v' = v.updateStatus .bonded ∧
      ((v.status = .bonded ∧ s'.registry = s.registry) ∨ (v.status ≠ .bonded ∧ s'.registry =
          (s.registry.rewrite k v (v.updateStatus .bonded)).leaveQueue (v.updateStatus .bonded))) := by
  unfold enterSet at h
  cases hstatus : v.status with
  | unspecified => simp [hstatus, err] at h
  | bonded =>
    rw [hstatus] at h
    obtain ⟨hret, rfl⟩ := pure_ok.mp h
    obtain ⟨rfl, -⟩ := Prod.mk.inj hret
    refine ⟨?_, .inl ⟨rfl, rfl⟩⟩
    rw [updateStatus, ← hstatus]
  | unbonded | unbonding =>
    simp only [hstatus, unbondedToBonded, unbondingToBonded, pure_ok, steps] at h
    obtain ⟨_, _, ⟨_, -, h1⟩, _, -, hret, rfl⟩ := h
    obtain ⟨rfl, rfl⟩ := Prod.mk.inj hret
    obtain ⟨rfl, hregistry⟩ := bondValidator_registry h1
    exact ⟨rfl, .inr ⟨by simp, hregistry⟩⟩

theorem enterSet_turns (hv : s.registry.validators[v.operatorAddress]? = some v)
    (hjailed : v.jailed = false) (h : k.enterSet v amt s = .ok (v', amt') s') :
    Turns k ctx s.registry s'.registry := by
  obtain ⟨-, ⟨-, hregistry⟩ | ⟨hstatus, hregistry⟩⟩ := enterSet_turn h
  · rw [hregistry]
  · rw [hregistry]
    exact .single (Turn.bond hv hjailed hstatus)

theorem reportPower_registry (h : reportPower valAddr v newPower acc s = .ok updates s') :
    (acc.last[valAddr]? = some newPower ∧ updates = acc.updates ∧ s'.registry = s.registry) ∨
      (acc.last[valAddr]? ≠ some newPower ∧
        updates = acc.updates ++ [⟨v.consensusPubkey, newPower⟩] ∧
        s'.registry = { s.registry with
          lastValidatorPower := s.registry.lastValidatorPower.insert valAddr newPower }) := by
  unfold reportPower at h
  split at h
  · obtain ⟨rfl, rfl⟩ := pure_ok.mp h
    exact .inl ⟨‹_›, rfl, rfl⟩
  · simp only [setLastValidatorPower, bind_ok, update_ok, pure_ok] at h
    obtain ⟨_, _, rfl, rfl, rfl⟩ := h
    exact .inr ⟨‹_›, rfl, rfl⟩

theorem reportPower_turns (h : reportPower valAddr v newPower acc s = .ok updates s') :
    Turns k ctx s.registry s'.registry := by
  obtain ⟨-, -, hregistry⟩ | ⟨-, -, hregistry⟩ := reportPower_registry h
  · rw [hregistry]
  · rw [hregistry]
    exact .single (Turn.report _ _)

theorem enterSet_others {w : Validator} {s1 : State X}
    (henter : k.enterSet v amt s = .ok (v', amt') s1)
    (hreport : reportPower addr w newPower acc s1 = .ok updates s') {a : ValAddress}
    (ha : a ≠ v.operatorAddress) : s'.registry.validators[a]? = s.registry.validators[a]? := by
  have hreported : s'.registry.validators = s1.registry.validators := by
    obtain ⟨-, -, hregistry⟩ | ⟨-, -, hregistry⟩ := reportPower_registry hreport
    · rw [hregistry]
    · rw [hregistry]
  rw [hreported]
  obtain ⟨-, ⟨-, hregistry⟩ | ⟨-, hregistry⟩⟩ := enterSet_turn henter
  · rw [hregistry]
  · rw [hregistry]
    exact (lookup_insert _ _ _ _).trans (if_neg ha)

theorem applySet_turns (hr : s.registry.Keyed) {maxValidators : Nat} {addrs : List ValAddress}
    {acc' : Applied} (h : k.applySet maxValidators addrs acc s = .ok acc' s') :
    Turns k ctx s.registry s'.registry := by
  induction addrs generalizing s acc with
  | nil => rw [(pure_ok.mp h).2]
  | cons addr addrs ih =>
    rw [applySet] at h
    split at h
    · rw [(pure_ok.mp h).2]
    · simp only [steps] at h
      obtain ⟨_, hv, _, hjailed, _, -, h⟩ := h
      split at h
      · rw [(pure_ok.mp h).2]
      · simp only [steps] at h
        obtain ⟨⟨_, _⟩, s4, h4, _, -, _, s6, h6, _, -, h⟩ := h
        have henter : Turns k ctx s.registry s4.registry :=
          enterSet_turns (hr.stored hv) (by simpa using hjailed) h4
        have hreport : Turns k ctx s.registry s6.registry :=
          henter.trans (reportPower_turns h6)
        exact hreport.trans (ih (hreport.keyed hr) h)

/-! ## Validators that leave the set -/

theorem bondedToUnbonding_registry (h : k.bondedToUnbonding ctx v s = .ok v' s') :
    v.status = .bonded ∧ ∃ unbondingTime,
      v' = { v.updateStatus .unbonding with
        unbondingTime := ctx.time + unbondingTime, unbondingHeight := ctx.height } ∧
      s'.registry = (s.registry.rewrite k v v').joinQueue v' := by
  simp only [bondedToUnbonding, beginUnbondingValidator, pure_ok, steps] at h
  obtain ⟨_, hbonded, time, -, _, _, h3, _, -, _, _, h5, _, _, h6, _, _, h7, _, _, h8, rfl,
    rfl⟩ := h
  refine ⟨by simpa [isBonded] using hbonded, time, rfl, ?_⟩
  rw [(callHook_registry ..).ok h8, insertUnbondingValidatorQueue_registry h7,
    (replaceRecord_registry h3 h5 h6).2]

theorem leaveSet_registry (hr : s.registry.Keyed) {acc : List ValidatorUpdate × Int}
    (h : k.leaveSet ctx acc addr s = .ok acc' s') :
    ∃ v v' unbondingTime, s.registry.validators[addr]? = some v ∧ v.status = .bonded ∧
      v' = { v.updateStatus .unbonding with
        unbondingTime := ctx.time + unbondingTime, unbondingHeight := ctx.height } ∧
      acc'.1 = acc.1 ++ [⟨v.consensusPubkey, 0⟩] ∧
      s'.registry = { (s.registry.rewrite k v v').joinQueue v' with
        lastValidatorPower := s.registry.lastValidatorPower.erase addr } := by
  simp only [leaveSet, deleteLastValidatorPower, update_ok, pure_ok, steps] at h
  obtain ⟨v, hv, v', s2, h2, _, -, _, _, rfl, rfl, rfl⟩ := h
  obtain ⟨hstatus, time, hv', hregistry⟩ := bondedToUnbonding_registry h2
  have haddr : v'.operatorAddress = addr := by rw [hv']; exact hr addr v hv
  refine ⟨v, v', time, hv, hstatus, hv', by rw [hv']; rfl, ?_⟩
  have hlast : s2.lastValidatorPower = s.registry.lastValidatorPower := by
    show s2.registry.lastValidatorPower = _
    rw [hregistry]
    rfl
  rw [← hregistry, haddr, ← hlast]
  rfl

theorem leaveSet_turns (hr : s.registry.Keyed) {acc : List ValidatorUpdate × Int}
    (h : k.leaveSet ctx acc addr s = .ok acc' s') : Turns k ctx s.registry s'.registry := by
  obtain ⟨_, _, time, hv, hstatus, rfl, -, hregistry⟩ := leaveSet_registry hr h
  rw [hregistry]
  exact (single
    (Turn.beginUnbonding time (hr.stored hv) hstatus)).tail (Turn.report _ _)

/-! ## Rotations -/

theorem updateToNewPubkey_registry {oldPubKey newPubKey : ConsPubKey} {fee : Coin}
    (h : k.updateToNewPubkey v oldPubKey newPubKey fee s = .ok u s') :
    s'.registry = s.registry.rekey k v oldPubKey newPubKey := by
  simp only [updateToNewPubkey, setConsAddrToValidatorIdentifierMap, bind_ok, update_ok] at h
  obtain ⟨_, _, rfl, _, _, h2, _, _, h3, _, _, h4, _, s5, h5, _, _, rfl, _, _, rfl, h⟩ := h
  obtain ⟨-, hindex⟩ := setValidatorByPowerIndex_registry h5
  have hbefore : s5.registry = { s.registry.rewrite k v { v with consensusPubkey := newPubKey } with
      validatorByConsensusAddress :=
        (s.registry.validatorByConsensusAddress.erase (k.consAddress v.consensusPubkey)).insert
          (k.consAddress newPubKey) v.operatorAddress } := by
    rw [hindex, ← update_ok.mp h4, ← update_ok.mp h3]
    have hdelete := deleteValidatorByPowerIndex_registry h2
    simp only [registry, Registry.mk.injEq] at hdelete
    obtain ⟨h1, h2, h3, h4, h5, h6, h7, h8, h9⟩ := hdelete
    simp only [registry, Registry.rewrite, h1, h2, h3, h4, h5, h6, h7, h8, h9]
  rw [(callHook_registry ..).ok h]
  simp only [registry, Registry.mk.injEq, Registry.rewrite] at hbefore
  obtain ⟨h1, h2, h3, h4, h5, h6, h7, h8, h9⟩ := hbefore
  simp only [registry, Registry.rekey, Registry.rewrite, h1, h2, h3, h4, h5, h6, h7, h8, h9]

theorem applyRotations_rotated (hr : s.registry.Keyed) {l : List ConsPubKeyRotationHistory}
    {updates' : List ValidatorUpdate} (h : l.foldlM k.applyRotation updates s = .ok updates' s') :
    ∃ added, updates' = updates ++ added ∧ Rotated k l added s.registry s'.registry := by
  induction l generalizing s updates with
  | nil =>
    obtain ⟨rfl, rfl⟩ := pure_ok.mp h
    exact ⟨[], (List.append_nil _).symm, .nil⟩
  | cons history l ih =>
    rw [List.foldlM_cons, bind_ok] at h
    obtain ⟨_, _, h1, h⟩ := h
    simp only [applyRotation, getValidator, steps] at h1
    obtain ⟨v, hv, h1⟩ := h1
    split at h1
    · rename_i hout
      obtain ⟨rfl, rfl⟩ := pure_ok.mp h1
      obtain ⟨added, hadded, hrotated⟩ := ih hr h
      exact ⟨added, hadded, .skip hv hout hrotated⟩
    · rename_i hin
      rw [not_or, not_not] at hin
      simp only [pure_ok, steps] at h1
      obtain ⟨_, hpower, _, _, h4, rfl, rfl⟩ := h1
      have hregistry := updateToNewPubkey_registry h4
      rw [consensusPower, if_pos (by simpa [isBonded] using hin.2)] at hpower
      obtain ⟨rfl, hpowered⟩ := potentialConsensusPower_ok hpower
      obtain ⟨_, hadded, hrotated⟩ := ih (hregistry ▸ hr.rekey _ _ _) h
      rw [hregistry] at hrotated
      refine ⟨_, ?_, .rotate hv (hr _ v hv) (by simpa using hin.1) hin.2 hpowered hrotated⟩
      rw [hadded, List.append_assoc]
      rfl

theorem balancePools_registry (a b : Int) : Keeps (registry (X := X)) (balancePools a b) :=
  Keeps.ite ((Keeps.lift _).bind fun _ => sendBetweenPools_registry _ _ _)
    (Keeps.ite ((Keeps.lift _).bind fun _ => sendBetweenPools_registry _ _ _) (Keeps.pure ()))

variable (hr : s.registry.Keyed)
include hr

theorem applyAndReturnValidatorSetUpdates_loops
    (h : k.applyAndReturnValidatorSetUpdates ctx s = .ok updates s') :
    ∃ (s1 s2 : State X) (acc : Applied) (leaving : List ValidatorUpdate × Int)
      (added : List ValidatorUpdate) (r : Registry),
      k.applySet s.params.maxValidators
          (s.validatorsByPowerIndex.toList.map (fun e => e.2)).reverse
          ⟨[], s.lastValidatorPower, 0, 0, 0⟩ s = .ok acc s1 ∧
        acc.last.keys.foldlM (k.leaveSet ctx) (acc.updates, 0) s1 = .ok leaving s2 ∧
        Turns k ctx s.registry s2.registry ∧ updates = leaving.1 ++ added ∧
        Rotated k (s2.registry.rotations ctx.height) added s2.registry r ∧
        s'.registry = { r with
          lastTotalPower := if updates.isEmpty then r.lastTotalPower else acc.totalPower } := by
  simp only [applyAndReturnValidatorSetUpdates, steps] at h
  obtain ⟨_, rfl, acc, s2, h2, ⟨updates1, amt⟩, s3, h3, _, rfl, h⟩ := h
  obtain ⟨_, _, h5, _, s6, h6, h⟩ := h
  have hset : Turns k ctx s.registry s2.registry := applySet_turns hr h2
  obtain ⟨hturns, hleave⟩ := foldlM_induct
    (I := fun _ _ t => Turns k ctx s.registry t.registry ∧ t.registry.Keyed)
    (fun addr _ _ t _ t' hI hstep => by
      have hturns := leaveSet_turns hI.2 hstep
      exact ⟨hI.1.trans hturns, hturns.keyed hI.2⟩) h3 ⟨hset, hset.keyed hr⟩
  obtain ⟨added, hadded, hrotated⟩ := applyRotations_rotated hleave h5
  have hbalance := (balancePools_registry ..).ok h6
  rw [← hbalance] at hrotated
  refine ⟨s2, s3, acc, (updates1, amt), added, s6.registry, h2, h3, hturns, ?_⟩
  split at h
  · rename_i hempty
    obtain ⟨rfl, rfl⟩ := pure_ok.mp h
    exact ⟨hadded, hrotated, by rw [if_pos hempty]⟩
  · rename_i hempty
    simp only [update_ok, pure_ok, steps] at h
    obtain ⟨_, _, rfl, rfl, rfl⟩ := h
    exact ⟨hadded, hrotated, by rw [if_neg hempty]; rfl⟩

theorem applyAndReturnValidatorSetUpdates_turns
    (h : k.applyAndReturnValidatorSetUpdates ctx s = .ok updates s') :
    ∃ r1 r2 added, Turns k ctx s.registry r1 ∧ Rotated k (r1.rotations ctx.height) added r1 r2 ∧
      Turns k ctx r2 s'.registry := by
  obtain ⟨_, s2, _, _, added, r, -, -, hturns, -, hrotated, hregistry⟩ :=
    applyAndReturnValidatorSetUpdates_loops hr h
  refine ⟨s2.registry, r, added, hturns, hrotated, ?_⟩
  rw [hregistry]
  exact .single (Turn.report r.lastValidatorPower _)

/-! ## The end of unbonding -/

theorem unbondMatureValidator_releases
    (h : k.unbondMatureValidator addr s = .ok u s') : Releases k s.registry s'.registry := by
  simp only [unbondMatureValidator, unbondingToUnbonded, completeUnbondingValidator, getValidator,
    pure_ok, steps] at h
  obtain ⟨v, hv, _, hunbonding, _, _, ⟨_, -, _, _, h5, rfl, rfl⟩, _, _, h6, h⟩ := h
  have hunbonding : v.status = .unbonding := by simpa [isUnbonding] using hunbonding
  have hfinish : Release k s.registry
      ((s.registry.store (v.updateStatus .unbonded)).leaveQueue (v.updateStatus .unbonded)) :=
    Release.finishUnbonding (hr.stored hv) hunbonding
  have hstored := store_lookup s.registry (v.updateStatus .unbonded)
  rw [deleteValidatorQueue_registry h]
  unfold removeEmptyValidator at h6
  split at h6
  · rw [← setValidator_registry h5] at hstored
    obtain ⟨-, hremove⟩ := removeValidator_registry hstored h6
    rw [hremove, setValidator_registry h5]
    -- leaving the queue and the removal concern different parts
    exact (single hfinish).tail
      (Release.remove
        (store_lookup s.registry (v.updateStatus .unbonded)) rfl)
  · obtain ⟨-, rfl⟩ := pure_ok.mp h6
    rw [setValidator_registry h5]
    exact .single hfinish

theorem unbondAllMatureValidators_releases
    (h : k.unbondAllMatureValidators ctx s = .ok u s') : Releases k s.registry s'.registry := by
  simp only [unbondAllMatureValidators, steps] at h
  obtain ⟨_, -, h⟩ := h
  refine forM_induct (I := fun _ t => Releases k s.registry t.registry)
    (fun slot _ t t' hI hstep => ?_) h .refl
  unfold unbondMatureValidators at hstep
  split at hstep
  · rw [← (pure_ok.mp hstep).2]
    exact hI
  · exact forM_induct (I := fun _ t => Releases k s.registry t.registry)
      (fun addr _ w w' hI hstep => hI.trans (unbondMatureValidator_releases (hI.keyed hr) hstep))
      hstep hI

end Keeper

end CosmosSDK.Staking
