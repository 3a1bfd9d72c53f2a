import CosmosSDK.Staking.Blocks

/-!
# The power index

The index by power holds exactly the validators that are not jailed, each under the key of
its current tokens.  A key holds the address of its validator, so deleting the key of a
record never takes away the entry of another one.
-/

namespace CosmosSDK.Staking

open Store Auth OrderedKV

namespace Registry

variable {X : Type} {k : Keeper X} {ctx : HeaderInfo} {r r' : Registry}

structure PowerIndexed {X : Type} (k : Keeper X) (r : Registry) : Prop where
  sound : ∀ (key : Bytes) (addr : ValAddress), r.validatorsByPowerIndex[key]? = some addr →
    ∃ v, r.validators[addr]? = some v ∧ v.jailed = false ∧ key = k.powerKey v
  complete : ∀ (addr : ValAddress) (v : Validator), r.validators[addr]? = some v →
    v.jailed = false → k.Powered v ∧ r.validatorsByPowerIndex[k.powerKey v]? = some addr

namespace PowerIndexed

variable {v : Validator} {addr : ValAddress}

theorem owner (hr : r.Keyed) (h : r.PowerIndexed k)
    (hkey : r.validatorsByPowerIndex[k.powerKey v]? = some addr) : addr = v.operatorAddress := by
  obtain ⟨w, hw, -, heq⟩ := h.sound _ addr hkey
  rw [← hr addr w hw]
  exact (Keeper.powerKey_injective heq).symm

theorem key_ne (hr : r.Keyed) (h : r.PowerIndexed k) {key : Bytes}
    (hkey : r.validatorsByPowerIndex[key]? = some addr) (hne : addr ≠ v.operatorAddress) :
    key ≠ k.powerKey v := by
  rintro rfl
  exact hne (h.owner hr hkey)

/-- The record at one address changes, and the entries of the index with it. -/
theorem replace (h : r.PowerIndexed k) {o : Option Validator} (ho : r'.validators[addr]? = o)
    (hvalidators : ∀ a, a ≠ addr → r'.validators[a]? = r.validators[a]?)
    (hindex : ∀ key a, r'.validatorsByPowerIndex[key]? = some a ↔
      a ≠ addr ∧ r.validatorsByPowerIndex[key]? = some a ∨
      a = addr ∧ ∃ w ∈ o, w.jailed = false ∧ key = k.powerKey w)
    (hpowered : ∀ w ∈ o, w.jailed = false → k.Powered w) : r'.PowerIndexed k := by
  subst ho
  constructor
  · intro key a hentry
    rcases (hindex key a).mp hentry with ⟨hne, hentry⟩ | ⟨rfl, hw⟩
    · rw [hvalidators a hne]
      exact h.sound key a hentry
    · exact hw
  · intro a w hw hfree
    by_cases ha : a = addr
    · subst ha
      exact ⟨hpowered w hw hfree, (hindex _ a).mpr (.inr ⟨rfl, w, hw, hfree, rfl⟩)⟩
    · obtain ⟨hpow, hentry⟩ := h.complete a w (hvalidators a ha ▸ hw) hfree
      exact ⟨hpow, (hindex _ a).mpr (.inl ⟨ha, hentry⟩)⟩

theorem lookup_erase_iff (hr : r.Keyed) (h : r.PowerIndexed k) {key : Bytes}
    (hv : r.validators[v.operatorAddress]? = some v) :
    (r.validatorsByPowerIndex.erase (k.powerKey v))[key]? = some addr ↔
      addr ≠ v.operatorAddress ∧ r.validatorsByPowerIndex[key]? = some addr := by
  rw [lookup_erase]
  split
  · rename_i heq
    simp only [reduceCtorEq, false_iff]
    rintro ⟨hne, hentry⟩
    exact h.key_ne hr hentry hne heq
  · rename_i hkey
    refine ⟨fun hentry => ⟨?_, hentry⟩, And.right⟩
    rintro rfl
    obtain ⟨w, hw, -, rfl⟩ := h.sound key _ hentry
    obtain rfl := Option.mem_unique hw hv
    exact hkey rfl

theorem rewrite (hr : r.Keyed) (h : r.PowerIndexed k) (v' : Validator)
    (hv : r.validators[v.operatorAddress]? = some v)
    (haddr : v'.operatorAddress = v.operatorAddress) (hpowered : v'.jailed = false → k.Powered v') :
    (r.rewrite k v v').PowerIndexed k := by
  have hv' : (r.rewrite k v v').validators[v.operatorAddress]? = some v' := by
    simp [Registry.rewrite, haddr]
  refine h.replace hv' (fun a ha => ?_) (fun key a => ?_) (by simpa using hpowered)
  · simp only [Registry.rewrite, lookup_insert, haddr, if_neg ha]
  · unfold Registry.rewrite
    by_cases hjailed : v'.jailed = true
    · simp [hjailed, h.lookup_erase_iff hr hv]
    · simp only [if_neg hjailed, lookup_insert, haddr]
      split
      · rename_i hkey
        subst hkey
        constructor
        · rintro ⟨⟩
          exact .inr ⟨rfl, v', rfl, by simpa using hjailed, rfl⟩
        · rintro (⟨hne, hentry⟩ | ⟨rfl, -⟩)
          · exact absurd ((h.owner hr hentry).trans haddr) hne
          · rfl
      · rename_i hkey
        rw [h.lookup_erase_iff hr hv, or_iff_left]
        rintro ⟨-, _, ⟨⟩, -, hkey'⟩
        exact hkey hkey'

theorem store (h : r.PowerIndexed k) (v' : Validator)
    (hv : r.validators[v.operatorAddress]? = some v)
    (haddr : v'.operatorAddress = v.operatorAddress) (htokens : v'.tokens = v.tokens)
    (hjailed : v'.jailed = v.jailed) : (r.store v').PowerIndexed k := by
  have hkey := Keeper.powerKey_congr (k := k) haddr htokens
  have hv' : (r.store v').validators[v.operatorAddress]? = some v' := by
    simp [Registry.store, haddr]
  refine h.replace hv' (fun a ha => ?_) (fun key a => ?_) ?_
  · simp only [Registry.store, lookup_insert, haddr, if_neg ha]
  · have hsound := h.sound key a
    have hcomplete := h.complete _ v hv
    simp only [Registry.store]
    grind
  · rintro _ ⟨⟩ hfree
    exact (h.complete _ v hv (hjailed ▸ hfree)).1.congr htokens

theorem remove (hr : r.Keyed) (h : r.PowerIndexed k)
    (hv : r.validators[v.operatorAddress]? = some v) : (r.remove k v).PowerIndexed k := by
  have hv' : (r.remove k v).validators[v.operatorAddress]? = none := by
    simp [Registry.remove]
  refine h.replace hv' (fun a ha => ?_) (fun key a => ?_) (by simp)
  · simp only [Registry.remove, lookup_erase, if_neg ha]
  · simpa [Registry.remove] using h.lookup_erase_iff hr hv

theorem create (hr : r.Keyed) (h : r.PowerIndexed k)
    (habsent : r.validators[v.operatorAddress]? = none) (hfree : v.jailed = false)
    (hpowered : k.Powered v) : (r.create k v).PowerIndexed k := by
  have hv' : (r.create k v).validators[v.operatorAddress]? = some v := by
    simp [Registry.create]
  refine h.replace hv' (fun a ha => ?_) (fun key a => ?_) (by simpa using fun _ => hpowered)
  · simp only [Registry.create, lookup_insert, if_neg ha]
  · have hsound := h.sound key a
    have howner : _ → a = v.operatorAddress := h.owner hr
    simp only [Registry.create, lookup_insert]
    grind

theorem of_eq (h : r.PowerIndexed k) (hvalidators : r'.validators = r.validators)
    (hindex : r'.validatorsByPowerIndex = r.validatorsByPowerIndex) : r'.PowerIndexed k := by
  refine ⟨fun key addr hentry => ?_, fun addr v hv hfree => ?_⟩
  · rw [hvalidators]
    exact h.sound key addr (hindex ▸ hentry)
  · rw [hindex]
    exact h.complete addr v (hvalidators ▸ hv) hfree

theorem powered (h : r.PowerIndexed k) {v' : Validator}
    (hv : r.validators[v.operatorAddress]? = some v) (htokens : v'.tokens = v.tokens)
    (hjailed : v'.jailed = v.jailed) (hfree : v'.jailed = false) : k.Powered v' :=
  (h.complete _ v hv (hjailed ▸ hfree)).1.congr htokens

end PowerIndexed

theorem Change.powerIndexed (h : Change k r r') (hr : r.Keyed) (hp : r.PowerIndexed k) :
    r'.PowerIndexed k := by
  cases h with
  | restake tokens delegatorShares hv hpowered => exact hp.rewrite hr _ hv rfl hpowered
  | edit description commission minSelfDelegation hv => exact hp.store _ hv rfl rfl rfl
  | jail hv => exact hp.rewrite hr _ hv rfl (fun hfree => by simp at hfree)
  | unjail hv hpowered => exact hp.rewrite hr _ hv rfl fun _ => hpowered
  | remove hv => exact hp.remove hr hv

theorem Changes.powerIndexed (h : Changes k r r') (hr : r.Keyed) (hp : r.PowerIndexed k) :
    r'.PowerIndexed k := by
  induction h with
  | refl => exact hp
  | tail hsteps hstep ih => exact hstep.powerIndexed (Changes.keyed hsteps hr) ih

theorem Turn.powerIndexed (h : Turn k ctx r r') (hr : r.Keyed) (hp : r.PowerIndexed k) :
    r'.PowerIndexed k := by
  cases h with
  | @bond v hv _ _ =>
    exact (hp.rewrite hr (v.updateStatus .bonded) hv rfl (hp.powered hv rfl rfl)).of_eq rfl rfl
  | @beginUnbonding v unbondingTime hv _ =>
    exact (hp.rewrite hr { v.updateStatus .unbonding with
      unbondingTime := ctx.time + unbondingTime, unbondingHeight := ctx.height } hv rfl
      (hp.powered hv rfl rfl)).of_eq rfl rfl
  | report => exact hp.of_eq rfl rfl

theorem Turns.powerIndexed (h : Turns k ctx r r') (hr : r.Keyed) (hp : r.PowerIndexed k) :
    r'.PowerIndexed k := by
  induction h with
  | refl => exact hp
  | tail hsteps hstep ih => exact hstep.powerIndexed (Turns.keyed hsteps hr) ih

theorem Release.powerIndexed (h : Release k r r') (hr : r.Keyed) (hp : r.PowerIndexed k) :
    r'.PowerIndexed k := by
  cases h with
  | @finishUnbonding v hv _ =>
    exact (hp.store (v.updateStatus .unbonded) hv rfl rfl rfl).of_eq rfl rfl
  | remove hv => exact hp.remove hr hv

theorem Releases.powerIndexed (h : Releases k r r') (hr : r.Keyed) (hp : r.PowerIndexed k) :
    r'.PowerIndexed k := by
  induction h with
  | refl => exact hp
  | tail hsteps hstep ih => exact hstep.powerIndexed (Releases.keyed hsteps hr) ih

theorem Rotated.powerIndexed {l : List ConsPubKeyRotationHistory}
    {updates : List Keeper.ValidatorUpdate} (h : Rotated k l updates r r') (hr : r.Keyed)
    (hp : r.PowerIndexed k) : r'.PowerIndexed k := by
  induction h with
  | nil => exact hp
  | skip _ _ _ ih => exact ih hr hp
  | @rotate history _ _ _ _ v hv haddr hjailed _ _ _ ih =>
    have hv' := hr.stored hv
    have hrewrite := hp.rewrite hr { v with consensusPubkey := history.newConsPubkey } hv' rfl
      (hp.powered hv' rfl rfl)
    exact ih (hr.rekey _ _ _) (hrewrite.of_eq rfl rfl)

theorem Tx.powerIndexed {key : Option (ValAddress × ConsPubKey)} (h : Tx k ctx key r r')
    (hr : r.Keyed) (hp : r.PowerIndexed k) : r'.PowerIndexed k := by
  cases h with
  | changes h => exact h.powerIndexed hr hp
  | create hv h =>
    exact h.created.powerIndexed (hr.store _) (hp.create hr hv.absent hv.free hv.powered)
  | request => exact hp.of_eq rfl rfl

end Registry

namespace Keeper

open Registry

variable {X : Type} {k : Keeper X} {ctx : HeaderInfo} {s s' : State X}

theorem applyAndReturnValidatorSetUpdates_powerIndexed {updates : List ValidatorUpdate}
    (hr : s.registry.Keyed) (hp : s.registry.PowerIndexed k)
    (h : k.applyAndReturnValidatorSetUpdates ctx s = .ok updates s') :
    s'.registry.Keyed ∧ s'.registry.PowerIndexed k := by
  obtain ⟨_, _, _, hturns1, hrotated, hturns2⟩ := applyAndReturnValidatorSetUpdates_turns hr h
  have hr1 := hturns1.keyed hr
  have hp1 := hturns1.powerIndexed hr hp
  have hr2 := hrotated.keyed hr1
  have hp2 := hrotated.powerIndexed hr1 hp1
  exact ⟨hturns2.keyed hr2, hturns2.powerIndexed hr2 hp2⟩

theorem advance_powerIndexed {c : Chain X} (hc : c.state.Sound)
    (hp : c.state.registry.PowerIndexed k) (step : Step) :
    (k.advance step c).2.state.registry.PowerIndexed k := by
  obtain h | ⟨s, h, -, htx⟩ | ⟨heights, duration, updates, s, -, hblock, -, h⟩ :=
    advance_cases hc step
  · rw [h]
    exact hp
  · rw [h]
    exact htx.powerIndexed hc.keyed hp
  · rw [h]
    obtain ⟨_, happly, hreleases⟩ := blockValidatorUpdates_registry hc.keyed hblock
    obtain ⟨hr1, hp1⟩ := applyAndReturnValidatorSetUpdates_powerIndexed hc.keyed hp happly
    exact hreleases.powerIndexed hr1 hp1

theorem genesis_powerIndexed (params : Params) (outside : X) :
    (State.genesis params outside).registry.PowerIndexed k := by
  constructor
  all_goals simp [State.genesis, State.registry]

end Keeper

end CosmosSDK.Staking
