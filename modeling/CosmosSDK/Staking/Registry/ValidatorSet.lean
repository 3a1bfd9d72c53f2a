import CosmosSDK.Staking.Registry.Keys
import CosmosSDK.Staking.Registry.Rank

/-!
# The loops over the validator set

The new set is entered by the validators the loop over the power index takes, and left by
those whose last power was not taken over.  The records, the powers last reported and the
updates after the loops are given in terms of these two lists.
-/

namespace CosmosSDK.Staking

open Math OrderedKV Stateful List Validator

namespace Keeper

variable {X : Type} {k : Keeper X} {ctx : HeaderInfo} {s s' : State X}

/-! ## Entering the set -/

/-- The validators of a list become bonded and their powers the ones last reported. -/
structure Entered (k : Keeper X) (E : List Validator) (acc acc' : Applied) (r r' : Registry) :
    Prop where
  bonded : ∀ v ∈ E, r'.validators[v.operatorAddress]? = some (v.updateStatus .bonded)
  others : ∀ addr, addr ∉ E.map operatorAddress →
    r'.validators[addr]? = r.validators[addr]?
  power : ∀ v ∈ E, r'.lastValidatorPower[v.operatorAddress]? = some (k.power v)
  powers : ∀ addr, addr ∉ E.map operatorAddress →
    r'.lastValidatorPower[addr]? = r.lastValidatorPower[addr]?
  taken : ∀ v ∈ E, acc'.last[v.operatorAddress]? = none
  left : ∀ addr, addr ∉ E.map operatorAddress → acc'.last[addr]? = acc.last[addr]?
  updates : acc'.updates = acc.updates ++
    (E.filter (fun v => decide (acc.last[v.operatorAddress]? ≠ some (k.power v)))).map
      (fun v => ⟨v.consensusPubkey, k.power v⟩)
  totalPower : acc'.totalPower = acc.totalPower + (E.map k.power).sum
  lastTotalPower : r'.lastTotalPower = r.lastTotalPower

theorem Entered.nil (acc : Applied) (r : Registry) : Entered k [] acc acc r r where
  bonded := by simp
  others := fun _ _ => rfl
  power := by simp
  powers := fun _ _ => rfl
  taken := by simp
  left := fun _ _ => rfl
  updates := by simp
  totalPower := by simp
  lastTotalPower := rfl

theorem Entered.cons {v : Validator} {E : List Validator} {acc acc1 acc' : Applied}
    {r r1 r' : Registry} (hnew : v.operatorAddress ∉ E.map operatorAddress)
    (hvalidators : ∀ addr, r1.validators[addr]? =
      if addr = v.operatorAddress then some (v.updateStatus .bonded) else r.validators[addr]?)
    (hpowers : ∀ addr, r1.lastValidatorPower[addr]? =
      if addr = v.operatorAddress then some (k.power v) else r.lastValidatorPower[addr]?)
    (hlast : ∀ addr, acc1.last[addr]? = if addr = v.operatorAddress then none else acc.last[addr]?)
    (hupdates : acc1.updates = acc.updates ++
      if acc.last[v.operatorAddress]? ≠ some (k.power v) then [⟨v.consensusPubkey, k.power v⟩]
      else []) (htotal : acc1.totalPower = acc.totalPower + k.power v)
    (hlastTotal : r1.lastTotalPower = r.lastTotalPower)
    (h : Entered k E acc1 acc' r1 r') : Entered k (v :: E) acc acc' r r' := by
  have hne : ∀ w ∈ E, w.operatorAddress ≠ v.operatorAddress := fun w hw heq =>
    hnew (heq ▸ mem_map_of_mem hw)
  have hapart : ∀ addr, addr ∉ (v :: E).map operatorAddress →
      addr ≠ v.operatorAddress ∧ addr ∉ E.map operatorAddress := by
    intro addr haddr
    rw [map_cons, mem_cons, not_or] at haddr
    exact haddr
  refine ⟨fun w hw => ?_, fun addr haddr => ?_, fun w hw => ?_, fun addr haddr => ?_,
    fun w hw => ?_, fun addr haddr => ?_, ?_, ?_, h.lastTotalPower.trans hlastTotal⟩
  · rcases mem_cons.mp hw with rfl | hw
    · rw [h.others _ hnew, hvalidators, if_pos rfl]
    · exact h.bonded w hw
  · obtain ⟨hv, hE⟩ := hapart addr haddr
    rw [h.others _ hE, hvalidators, if_neg hv]
  · rcases mem_cons.mp hw with rfl | hw
    · rw [h.powers _ hnew, hpowers, if_pos rfl]
    · exact h.power w hw
  · obtain ⟨hv, hE⟩ := hapart addr haddr
    rw [h.powers _ hE, hpowers, if_neg hv]
  · rcases mem_cons.mp hw with rfl | hw
    · rw [h.left _ hnew, hlast, if_pos rfl]
    · exact h.taken w hw
  · obtain ⟨hv, hE⟩ := hapart addr haddr
    rw [h.left _ hE, hlast, if_neg hv]
  · have hfilter : E.filter (fun w => decide (acc1.last[w.operatorAddress]? ≠ some (k.power w))) =
        E.filter (fun w => decide (acc.last[w.operatorAddress]? ≠ some (k.power w))) :=
      filter_congr fun w hw => by rw [hlast, if_neg (hne w hw)]
    rw [h.updates, hupdates, hfilter, filter_cons, append_assoc]
    split <;> simp_all
  · rw [h.totalPower, htotal, map_cons, sum_cons]
    omega

theorem enterStep {v v' : Validator} {amt amt' newPower : Int}
    {acc : Applied} {updates : List ValidatorUpdate} {s1 : State X}
    (hv : s.registry.validators[v.operatorAddress]? = some v)
    (hlast : acc.last[v.operatorAddress]? = s.registry.lastValidatorPower[v.operatorAddress]?)
    (henter : k.enterSet v amt s = .ok (v', amt') s1)
    (hpower : v'.consensusPower k.powerReduction = .ok newPower)
    (hreport : reportPower v.operatorAddress v' newPower acc s1 = .ok updates s') :
    newPower = k.power v ∧ (∀ addr, s'.registry.validators[addr]? =
        if addr = v.operatorAddress then some (v.updateStatus .bonded)
        else s.registry.validators[addr]?) ∧ (∀ addr, s'.registry.lastValidatorPower[addr]? =
        if addr = v.operatorAddress then some (k.power v)
        else s.registry.lastValidatorPower[addr]?) ∧ (updates = acc.updates ++
        if acc.last[v.operatorAddress]? ≠ some (k.power v) then [⟨v.consensusPubkey, k.power v⟩]
        else []) ∧ s'.registry.lastTotalPower = s.registry.lastTotalPower := by
  obtain ⟨rfl, hcases⟩ := enterSet_turn henter
  have hentered : (∀ addr, s1.registry.validators[addr]? =
        if addr = v.operatorAddress then some (v.updateStatus .bonded)
        else s.registry.validators[addr]?) ∧
      s1.registry.lastValidatorPower = s.registry.lastValidatorPower ∧
      s1.registry.lastTotalPower = s.registry.lastTotalPower := by
    rcases hcases with ⟨hstatus, hregistry⟩ | ⟨-, hregistry⟩
    · refine ⟨fun addr => ?_, by rw [hregistry], by rw [hregistry]⟩
      rw [hregistry]
      split
      · rename_i heq
        rw [heq, hv, updateStatus, ← hstatus]
      · rfl
    · rw [hregistry]
      exact ⟨fun addr => lookup_insert _ _ _ _, rfl, rfl⟩
  obtain ⟨hvalidators, hlastPower, htotal⟩ := hentered
  rw [consensusPower, if_pos (by rfl)] at hpower
  obtain ⟨rfl, -⟩ := potentialConsensusPower_ok hpower
  have hsame : k.power (v.updateStatus .bonded) = k.power v := rfl
  rw [hsame] at hreport ⊢
  refine ⟨rfl, ?_⟩
  obtain ⟨hunchanged, rfl, hregistry⟩ | ⟨hchanged, rfl, hregistry⟩ := reportPower_registry hreport
  · rw [hregistry]
    refine ⟨hvalidators, fun addr => ?_, by simp [hunchanged], htotal⟩
    rw [hlastPower]
    split
    · rename_i heq
      rw [heq, ← hlast, hunchanged]
    · rfl
  · rw [hregistry]
    refine ⟨hvalidators, fun addr => ?_, by rw [if_pos hchanged]; rfl, htotal⟩
    rw [← hlastPower]
    exact lookup_insert _ _ _ _

/-- The loop over the power index takes the first candidates with power. -/
theorem applySet_entered {maxValidators : Nat} {l : List Validator}
    (hl : ∀ v ∈ l, s.registry.validators[v.operatorAddress]? = some v)
    (hdistinct : (l.map operatorAddress).Nodup) {acc acc' : Applied}
    (hlast : ∀ v ∈ l, acc.last[v.operatorAddress]? =
      s.registry.lastValidatorPower[v.operatorAddress]?)
    (h : k.applySet maxValidators (l.map operatorAddress) acc s = .ok acc' s') :
    Entered k ((l.take (maxValidators - acc.count)).takeWhile (fun v => decide (k.power v ≠ 0)))
      acc acc' s.registry s'.registry := by
  induction l generalizing s acc with
  | nil =>
    obtain ⟨rfl, rfl⟩ := pure_ok.mp h
    rw [take_nil]
    exact Entered.nil acc s.registry
  | cons v l ih =>
    rw [map_cons, applySet] at h
    split at h
    · rename_i hfull
      obtain ⟨rfl, rfl⟩ := pure_ok.mp h
      rw [Nat.sub_eq_zero_of_le hfull]
      exact Entered.nil acc s.registry
    · simp only [steps] at h
      obtain ⟨w, hw, _, -, _, hpotential, h⟩ := h
      have hv := hl v (mem_cons_self ..)
      obtain rfl := Option.mem_unique hv hw
      obtain ⟨rfl, -⟩ := potentialConsensusPower_ok hpotential
      rw [show maxValidators - acc.count = maxValidators - (acc.count + 1) + 1 by omega,
        take_succ_cons, takeWhile_cons]
      split at h
      · rename_i hzero
        obtain ⟨rfl, rfl⟩ := pure_ok.mp h
        rw [if_neg (by simp [hzero])]
        exact Entered.nil acc s.registry
      · rename_i hpower
        rw [if_pos (by simpa using hpower)]
        simp only [steps] at h
        obtain ⟨⟨_, _⟩, _, h4, _, hnew, _, s6, h6, _, htotal, h⟩ := h
        obtain ⟨rfl, hvalidators, hpowers, rfl, hlastTotal⟩ := enterStep hv
          (hlast v (mem_cons_self ..)) h4 hnew h6
        obtain ⟨hnotin, hdistinct⟩ := nodup_cons.mp hdistinct
        have hne : ∀ w ∈ l, w.operatorAddress ≠ v.operatorAddress := fun w hw heq =>
          hnotin (heq ▸ mem_map_of_mem hw)
        have hrest := ih
          (fun w hw => by
            rw [hvalidators, if_neg (hne w hw)]
            exact hl w (mem_cons_of_mem _ hw))
          hdistinct
          (fun w hw => by
            rw [hpowers, if_neg (hne w hw), lookup_erase, if_neg (hne w hw)]
            exact hlast w (mem_cons_of_mem _ hw))
          h
        refine Entered.cons (fun hmem => hnotin ?_) hvalidators hpowers
          (fun addr => lookup_erase _ _ _) rfl (addInt_ok htotal) hlastTotal hrest
        obtain ⟨_, hw, heq⟩ := mem_map.mp hmem
        exact heq ▸ mem_map_of_mem (mem_of_mem_take ((takeWhile_sublist _).subset hw))

/-! ## Leaving the set -/

/-- The validators of a list begin to unbond and have no power any more. -/
structure Left (D : List Validator) (updates updates' : List ValidatorUpdate) (r r' : Registry) :
    Prop where
  bonded : ∀ v ∈ D, r.validators[v.operatorAddress]? = some v ∧ v.status = .bonded
  unbonding : ∀ v ∈ D, ∃ unbondingTime unbondingHeight, r'.validators[v.operatorAddress]? =
    some { v.updateStatus .unbonding with
      unbondingTime := unbondingTime, unbondingHeight := unbondingHeight }
  others : ∀ addr, addr ∉ D.map operatorAddress →
    r'.validators[addr]? = r.validators[addr]?
  powers : ∀ addr, r'.lastValidatorPower[addr]? =
    if addr ∈ D.map operatorAddress then none else r.lastValidatorPower[addr]?
  updates : updates' = updates ++ D.map (fun v => ⟨v.consensusPubkey, 0⟩)
  lastTotalPower : r'.lastTotalPower = r.lastTotalPower

theorem leaveSet_left (hr : s.registry.Keyed) {L : List ValAddress} (hL : L.Nodup)
    {acc acc' : List ValidatorUpdate × Int} (h : L.foldlM (k.leaveSet ctx) acc s = .ok acc' s') :
    ∃ D : List Validator, D.map operatorAddress = L ∧
      Left D acc.1 acc'.1 s.registry s'.registry := by
  induction L generalizing s acc with
  | nil =>
    obtain ⟨rfl, rfl⟩ := pure_ok.mp h
    exact ⟨[], rfl, by simp, by simp, fun _ _ => rfl, by simp, by simp, rfl⟩
  | cons addr L ih =>
    rw [foldlM_cons, bind_ok] at h
    obtain ⟨_, s1, h1, h⟩ := h
    obtain ⟨hnew, hL⟩ := nodup_cons.mp hL
    have hturns := leaveSet_turns hr h1
    obtain ⟨v, _, time, hv, hstatus, rfl, hupdates, hregistry⟩ := leaveSet_registry hr h1
    obtain ⟨D, rfl, hD⟩ := ih (hturns.keyed hr) hL h
    have haddr : v.operatorAddress = addr := hr addr v hv
    subst haddr
    have hvalidators : ∀ a, s1.registry.validators[a]? =
        if a = v.operatorAddress then some { v.updateStatus .unbonding with
          unbondingTime := ctx.time + time, unbondingHeight := ctx.height }
        else s.registry.validators[a]? := by
      rw [hregistry]
      exact fun a => lookup_insert _ _ _ _
    have hne : ∀ w ∈ D, w.operatorAddress ≠ v.operatorAddress := fun w hw heq =>
      hnew (heq ▸ mem_map_of_mem hw)
    refine ⟨v :: D, rfl, fun w hw => ?_, fun w hw => ?_, fun a ha => ?_, fun a => ?_, ?_, ?_⟩
    · rcases mem_cons.mp hw with rfl | hw
      · exact ⟨hv, hstatus⟩
      · obtain ⟨hstored, hbonded⟩ := hD.bonded w hw
        rw [hvalidators, if_neg (hne w hw)] at hstored
        exact ⟨hstored, hbonded⟩
    · rcases mem_cons.mp hw with rfl | hw
      · exact ⟨_, _, by rw [hD.others _ hnew, hvalidators, if_pos rfl]⟩
      · exact hD.unbonding w hw
    · rw [map_cons, mem_cons, not_or] at ha
      rw [hD.others a ha.2, hvalidators, if_neg ha.1]
    · have hpower : s1.registry.lastValidatorPower[a]? =
          if a = v.operatorAddress then none else s.registry.lastValidatorPower[a]? := by
        rw [hregistry]
        exact lookup_erase _ _ _
      rw [hD.powers, hpower, map_cons]
      by_cases ha : a = v.operatorAddress
      · simp [ha]
      · simp [ha]
    · rw [hD.updates, hupdates, append_assoc]
      rfl
    · rw [hD.lastTotalPower, hregistry]
      rfl

end Keeper

end CosmosSDK.Staking
