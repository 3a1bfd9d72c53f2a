import CosmosSDK.Staking.Registry.EngineRuns

/-!
# Failures of the change of the validator set

The loop over the power index fails when it meets a validator that is jailed or not stored,
and the loop over the last set when one is not stored.  The indexes of a reached state hold
no such validator, so these errors can only come from a hook.
-/

namespace CosmosSDK.Staking.Keeper

open CosmosSDK.Store CosmosSDK.Types CosmosSDK.Math OrderedKV Stateful Registry List Validator
open Fallible

variable {X : Type} {k : Keeper X} {ctx : HeaderInfo} {s s' : State X} {e : Fault StakingErr}

/-- The errors of loops that meet a validator that should not be in an index. -/
def staleEntry : List (Fault StakingErr) :=
  [.error (.other "validator record not found for address"),
    .error (.other "should never retrieve a jailed validator from the power store")]

/-- An error that a hook returns. -/
def HookFault (k : Keeper X) (e : Fault StakingErr) : Prop :=
  ∃ call s, k.hooks call s = .error e

/-- An error that is not about a stale entry, unless a hook returns it. -/
def Clean (k : Keeper X) (e : Fault StakingErr) : Prop := e ∈ staleEntry → HookFault k e

theorem Clean.panic (text : String) : Clean k (.panic text) := by
  simp [Clean, staleEntry]

theorem Clean.of_panic (h : ∃ text, e = .panic text) : Clean k e := by
  obtain ⟨text, rfl⟩ := h
  exact .panic text

theorem tokensToConsensusPower_clean {tokens powerReduction : Int}
    (h : tokensToConsensusPower tokens powerReduction = .error e) : Clean k e := by
  rcases bind_eq_error.mp h with h | ⟨power, -, h⟩
  · exact .of_panic (quoInt_error h)
  · split at h
    · simp at h
    · obtain rfl := Except.error.inj h
      exact .panic _

theorem consensusPower_clean {v : Validator} {powerReduction : Int}
    (h : v.consensusPower powerReduction = .error e) : Clean k e := by
  unfold consensusPower at h
  split at h
  · exact tokensToConsensusPower_clean h
  · simp at h

theorem getValidatorsByPowerIndexKey_clean {v : Validator}
    (h : k.getValidatorsByPowerIndexKey v = .error e) : Clean k e := by
  rcases bind_eq_error.mp h with h | ⟨power, -, h⟩
  · exact tokensToConsensusPower_clean h
  · simp at h

/-! ## Transitions of one validator -/

theorem callHook_clean (call : HookCall) : Fails (Clean k) (k.callHook call) := by
  refine .transition fun s e h _ => ?_
  rcases bind_eq_error.mp h with h | ⟨outside, -, h⟩
  · exact ⟨call, s, h⟩
  · simp at h

theorem deleteValidatorByPowerIndex_clean (v : Validator) :
    Fails (Clean k) (k.deleteValidatorByPowerIndex v) :=
  (Fails.lift fun _ => getValidatorsByPowerIndexKey_clean).bind fun _ => .update _

theorem setValidatorByPowerIndex_clean (v : Validator) :
    Fails (Clean k) (k.setValidatorByPowerIndex v) :=
  .ite (.pure _) ((Fails.lift fun _ => getValidatorsByPowerIndexKey_clean).bind fun _ => .update _)

theorem deleteValidatorQueue_clean (v : Validator) :
    Fails (Clean k) (deleteValidatorQueue (X := X) v) :=
  (Fails.load _).bind fun _ => .ite (.update _) (.update _)

theorem bondValidator_clean (v : Validator) : Fails (Clean k) (k.bondValidator v) :=
  (deleteValidatorByPowerIndex_clean v).bind fun _ => (Fails.update _).bind fun _ =>
    (setValidatorByPowerIndex_clean _).bind fun _ => (deleteValidatorQueue_clean _).bind fun _ =>
      (callHook_clean _).bind fun _ => .pure _

theorem enterSet_clean (v : Validator) (amt : Int) : Fails (Clean k) (k.enterSet v amt) := by
  unfold enterSet
  cases v.status with
  | unspecified => exact .fail (by simp [Clean, staleEntry])
  | bonded => exact .pure _
  | unbonded | unbonding =>
    refine ((Fails.reject _ (by simp [Clean, staleEntry])).bind fun _ =>
      bondValidator_clean v).bind fun _ => ?_
    exact (Fails.lift fun _ h => .of_panic (inRange_error h)).bind fun _ => .pure _

theorem bondedToUnbonding_clean (v : Validator) : Fails (Clean k) (k.bondedToUnbonding ctx v) :=
  (Fails.reject _ (by simp [Clean, staleEntry])).bind fun _ => (Fails.load _).bind fun _ =>
    (deleteValidatorByPowerIndex_clean v).bind fun _ =>
      (Fails.reject _ (by simp [Clean, staleEntry])).bind fun _ => (Fails.update _).bind fun _ =>
        (setValidatorByPowerIndex_clean _).bind fun _ =>
          ((Fails.load _).bind fun _ => .update _).bind fun _ => (callHook_clean _).bind fun _ =>
            .pure _

theorem updateToNewPubkey_clean (v : Validator) (oldPubKey newPubKey : ConsPubKey) (fee : Coin) :
    Fails (Clean k) (k.updateToNewPubkey v oldPubKey newPubKey fee) :=
  (Fails.update _).bind fun _ => (deleteValidatorByPowerIndex_clean v).bind fun _ =>
    (Fails.update _).bind fun _ => (Fails.update _).bind fun _ =>
      (setValidatorByPowerIndex_clean _).bind fun _ => (Fails.update _).bind fun _ =>
        (Fails.update _).bind fun _ => callHook_clean _

theorem applyRotation_clean (updates : List ValidatorUpdate) (history : ConsPubKeyRotationHistory) :
    Fails (Clean k) (k.applyRotation updates history) := by
  refine (Fails.find _ (by simp [Clean, staleEntry])).bind fun v => .ite (.pure _) ?_
  exact (Fails.lift fun _ => consensusPower_clean).bind fun _ =>
    (updateToNewPubkey_clean _ _ _ _).bind fun _ => .pure _

theorem sendBetweenPools_clean (sender recipient : Pool) (tokens : Int) :
    Fails (Clean k) (sendBetweenPools (X := X) sender recipient tokens) := by
  refine (Fails.reject _ (.panic _)).bind fun _ => .transition fun s e h => ?_
  split at h
  · obtain rfl := Except.error.inj h
    simp [Clean, staleEntry]
  · simp at h

theorem balancePools_clean (a b : Int) : Fails (Clean k) (balancePools (X := X) a b) :=
  .ite ((Fails.lift fun _ h => .of_panic (inRange_error h)).bind fun _ => sendBetweenPools_clean _ _ _)
    (.ite ((Fails.lift fun _ h => .of_panic (inRange_error h)).bind fun _ => sendBetweenPools_clean _ _ _) (.pure _))

/-! ## The loops -/

theorem reportPower_clean (valAddr : ValAddress) (v : Validator) (newPower : Int) (acc : Applied) :
    Fails (Clean k) (reportPower (X := X) valAddr v newPower acc) :=
  .ite (.pure _) ((Fails.update _).bind fun _ => .pure _)

/-- The loop over the power index meets stored validators that are not jailed. -/
theorem applySet_clean {maxValidators : Nat} {l : List Validator}
    (hl : ∀ v ∈ l, s.registry.validators[v.operatorAddress]? = some v ∧ v.jailed = false)
    (hdistinct : (l.map operatorAddress).Nodup) {acc : Applied}
    (h : k.applySet maxValidators (l.map operatorAddress) acc s = .error e s') :
    Clean k e := by
  induction l generalizing s acc with
  | nil => exact (pure_error.mp h).elim
  | cons v l ih =>
    obtain ⟨hv, hjailed⟩ := hl v (mem_cons_self ..)
    have hlookup : s.validators[v.operatorAddress]? = some v := hv
    rw [map_cons, applySet] at h
    split at h
    · exact (pure_error.mp h).elim
    rw [bind_error] at h
    rcases h with h | ⟨w, s1, hfind, h⟩
    · rw [find_error, hlookup] at h
      simp at h
    obtain ⟨hw, rfl⟩ := find_ok.mp hfind
    obtain rfl := Option.mem_unique hlookup hw
    rw [bind_error] at h
    rcases h with h | ⟨_, s2, hreject, h⟩
    · rw [reject_error, hjailed] at h
      simp at h
    obtain ⟨-, rfl⟩ := reject_ok.mp hreject
    rw [bind_error] at h
    rcases h with h | ⟨potential, s3, hpotential, h⟩
    · exact tokensToConsensusPower_clean (lift_error.mp h).1
    obtain ⟨-, rfl⟩ := lift_ok.mp hpotential
    split at h
    · exact (pure_error.mp h).elim
    rw [bind_error] at h
    rcases h with h | ⟨⟨v', amt⟩, s4, henter, h⟩
    · exact (enterSet_clean v _).error _ _ _ h
    simp only [bind_error, lift_error, lift_ok] at h
    rcases h with ⟨h, -⟩ | ⟨newPower, s5, ⟨-, rfl⟩, h⟩
    · exact consensusPower_clean h
    rcases h with h | ⟨updates, s6, hreport, h⟩
    · exact (reportPower_clean _ _ _ _).error _ _ _ h
    rcases h with ⟨h, -⟩ | ⟨totalPower, s7, ⟨-, rfl⟩, h⟩
    · exact .of_panic (inRange_error h)
    obtain ⟨hnew, hdistinct⟩ := nodup_cons.mp hdistinct
    refine ih (fun w hw => ?_) hdistinct h
    have hne : w.operatorAddress ≠ v.operatorAddress := fun heq =>
      hnew (heq ▸ mem_map_of_mem hw)
    rw [enterSet_others henter hreport hne]
    exact hl w (mem_cons_of_mem _ hw)

theorem leaveSet_clean (hr : s.registry.Keyed) {L : List ValAddress} (hL : L.Nodup)
    (hstored : ∀ addr ∈ L, ∃ v, s.registry.validators[addr]? = some v)
    {acc : List ValidatorUpdate × Int} (h : L.foldlM (k.leaveSet ctx) acc s = .error e s') :
    Clean k e := by
  induction L generalizing s acc with
  | nil => exact (pure_error.mp h).elim
  | cons addr L ih =>
    obtain ⟨v, hv⟩ := hstored addr (mem_cons_self ..)
    have hlookup : s.validators[addr]? = some v := hv
    rw [foldlM_cons, bind_error] at h
    rcases h with h | ⟨acc1, s1, h1, h⟩
    · rw [leaveSet, bind_error] at h
      rcases h with h | ⟨w, s1, -, h⟩
      · rw [find_error, hlookup] at h
        simp at h
      · exact Fails.error ((bondedToUnbonding_clean w).bind fun _ =>
          (Fails.lift fun _ h => .of_panic (inRange_error h)).bind fun _ => (Fails.update _).bind fun _ =>
            .pure _) _ _ _ h
    · obtain ⟨hnew, hL⟩ := nodup_cons.mp hL
      refine ih ((leaveSet_turns hr h1).keyed hr) hL (fun a ha => ?_) h
      obtain ⟨w, _, _, hw, -, rfl, -, hregistry⟩ := leaveSet_registry hr h1
      have hne : a ≠ w.operatorAddress := by
        rw [hr addr w hw]
        rintro rfl
        exact hnew ha
      obtain ⟨v', hv'⟩ := hstored a (mem_cons_of_mem _ ha)
      refine ⟨v', ?_⟩
      rw [hregistry]
      exact ((lookup_insert _ _ _ _).trans (if_neg hne)).trans hv'

/-- `ApplyAndReturnValidatorSetUpdates` never fails because of a stale entry. -/
theorem applyAndReturnValidatorSetUpdates_clean (hr : s.registry.Keyed)
    (hp : s.registry.PowerIndexed k) (hlast : s.registry.LastBonded)
    (h : k.applyAndReturnValidatorSetUpdates ctx s = .error e s') : Clean k e := by
  have hstored := hp.ranked_stored hr
  have haddrs : (s.validatorsByPowerIndex.toList.map fun e => e.2).reverse =
      s.registry.ranked.map operatorAddress := (hp.ranked_addresses hr).symm
  simp only [applyAndReturnValidatorSetUpdates, bind_error, load_ok, load_error, false_or] at h
  obtain ⟨_, _, ⟨rfl, rfl⟩, h⟩ := h
  rw [id_eq, haddrs] at h
  rcases h with h | ⟨acc, s1, hset, h⟩
  · exact applySet_clean hstored (hp.ranked_distinct hr) h
  have hturns : Turns k ctx s.registry s1.registry := applySet_turns hr hset
  have hentered := applySet_entered (fun v hv => (hstored v hv).1) (hp.ranked_distinct hr)
    (fun v _ => rfl) hset
  rcases h with h | ⟨leaving, s2, -, h⟩
  · refine leaveSet_clean (hturns.keyed hr) Std.ExtTreeMap.nodup_keys (fun addr haddr => ?_) h
    rw [Std.ExtTreeMap.mem_keys, Std.ExtTreeMap.mem_iff_isSome_getElem?] at haddr
    have hnotE : addr ∉ ((s.registry.ranked.take (s.params.maxValidators - 0)).takeWhile
        (fun v => decide (k.power v ≠ 0))).map operatorAddress := by
      intro hmem
      obtain ⟨v, hv, rfl⟩ := mem_map.mp hmem
      rw [hentered.taken v hv] at haddr
      simp at haddr
    rw [hentered.left addr hnotE] at haddr
    obtain ⟨v, hv, -⟩ := (hlast.bonded addr).mp haddr
    exact ⟨v, (hentered.others addr hnotE).trans hv⟩
  · obtain ⟨_, _, ⟨-, rfl⟩, h⟩ := h
    rcases h with h | ⟨updates, s4, -, h⟩
    · exact (Fails.foldlM applyRotation_clean _ _).error _ _ _ h
    rcases h with h | ⟨_, s5, -, h⟩
    · exact (balancePools_clean _ _).error _ _ _ h
    exact Fails.error (.ite (.pure _) ((Fails.update _).bind fun _ => .pure _)) _ _ _ h

/-! ## Runs -/

/-- In every block the power index has exactly one entry for each stored validator that is not
jailed, at the key of its tokens, and none for others; so a change of the validator set does not
fail because of an entry of a jailed or missing validator. -/
theorem reached_powerIndex (k : Keeper X) (header : HeaderInfo) (params : Params) (outside : X)
    (steps : List Step) : (∀ (key : Bytes) (addr : ValAddress),
      (k.reached steps (.genesis header params outside)).state.validatorsByPowerIndex[key]? =
          some addr ↔
        ∃ v, (k.reached steps (.genesis header params outside)).state.validators[addr]? = some v ∧
          v.jailed = false ∧ k.getValidatorsByPowerIndexKey v = .ok key) ∧
    (∀ (addr : ValAddress) (v : Validator),
      (k.reached steps (.genesis header params outside)).state.validators[addr]? = some v →
      v.jailed = false → ∃ key, k.getValidatorsByPowerIndexKey v = .ok key) ∧
    ∀ (e : Fault StakingErr) (s' : State X),
      k.applyAndReturnValidatorSetUpdates (k.reached steps (.genesis header params outside)).header
        (k.reached steps (.genesis header params outside)).state = .error e s' →
      e ∈ staleEntry → HookFault k e := by
  obtain ⟨hsound, hset⟩ := reached_setSound k steps header params outside
  generalize k.reached steps (.genesis header params outside) = c at *
  have hp := hset.powerIndexed
  refine ⟨fun key addr => ⟨fun hentry => ?_, ?_⟩, fun addr v hv hjailed => ?_, fun e s' h => ?_⟩
  · obtain ⟨v, hv, hjailed, rfl⟩ := hp.sound key addr hentry
    exact ⟨v, hv, hjailed, (hp.complete addr v hv hjailed).1.key⟩
  · rintro ⟨v, hv, hjailed, hkey⟩
    rw [(getValidatorsByPowerIndexKey_ok hkey).1]
    exact (hp.complete addr v hv hjailed).2
  · exact ⟨_, (hp.complete addr v hv hjailed).1.key⟩
  · exact applyAndReturnValidatorSetUpdates_clean hsound.keyed hp hset.informed.lastBonded h

end CosmosSDK.Staking.Keeper
