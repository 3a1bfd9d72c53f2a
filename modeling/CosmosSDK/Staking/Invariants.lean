import CosmosSDK.Staking.Ledger

/-!
# The invariants of staking

The two invariants in the terms of the records: every pool holds the stake it backs, and
every validator counts the shares of its delegations.  On a well-formed ledger the
first says that no pool has a gap, and the second that no validator has a surplus.
-/

namespace CosmosSDK.Staking.StakeLedger

open Auth OrderedKV Std.ExtTreeMap Option

def tokensIn (c : StakeLedger) (p : BondStatus → Prop) [DecidablePred p] : Int :=
  total (fun _ v => if p v.status then v.tokens else 0) c.validators

def sharesOf (c : StakeLedger) (val : ValAddress) : Int :=
  total (fun key d => if key.2 = val then d.shares.i else 0) c.delegations

/-- Both pools hold exactly the stake they back. -/
structure Backed (c : StakeLedger) : Prop where
  bonded : c.pools .bonded = c.tokensIn (fun status => status = .bonded)
  notBonded : c.pools .notBonded =
    c.tokensIn (fun status => status = .unbonding ∨ status = .unbonded) +
      total (fun _ u => (u.entries.map (fun e => e.balance)).sum) c.unbondingDelegations

/-- Validators, delegations and their index agree. -/
structure SharesMatch (c : StakeLedger) : Prop where
  counted : ∀ (val : ValAddress) (v : Validator), c.validators[val]? = some v →
    v.delegatorShares.i = c.sharesOf val
  positive : ∀ (key : AccAddress × ValAddress) (d : Delegation), c.delegations[key]? = some d →
    0 < d.shares.i
  existing : ∀ (del : AccAddress) (val : ValAddress), (del, val) ∈ c.delegations →
    val ∈ c.validators
  indexed : ∀ (val : ValAddress) (del : AccAddress),
    (val, del) ∈ c.delegationsByValidator ↔ (del, val) ∈ c.delegations

variable {c : StakeLedger}

/-! ## Pools -/

theorem tokens_bonded (c : StakeLedger) :
    c.tokens .bonded = c.tokensIn (fun status => status = .bonded) := by
  unfold tokens tokensIn
  rw [total_apply]
  refine total_congr fun addr v _ => ?_
  cases v.status <;> simp [BondStatus.pool]

theorem Formed.tokens_notBonded (hc : c.Formed) : c.tokens .notBonded =
      c.tokensIn (fun status => status = .unbonding ∨ status = .unbonded) := by
  unfold tokens tokensIn
  rw [total_apply]
  refine total_congr fun addr v hv => ?_
  have hstatus := (hc.validators addr v hv).solvent.status_ne
  cases hv' : v.status <;> simp_all [BondStatus.pool]

theorem Formed.backed_iff (hc : c.Formed) : c.Backed ↔ c.gap = 0 := by
  have hgap : c.gap = 0 ↔ c.pools .bonded = c.tokens .bonded ∧
      c.pools .notBonded = c.tokens .notBonded + c.unbonding := by
    rw [gap, sub_eq_zero, funext_iff]
    constructor
    · intro h
      exact ⟨by simpa using h .bonded, by simpa using h .notBonded⟩
    · rintro ⟨hbonded, hnot⟩ (_ | _)
      · simpa using hbonded
      · simpa using hnot
  rw [hgap, tokens_bonded, hc.tokens_notBonded]
  exact ⟨fun h => ⟨h.bonded, h.notBonded⟩, fun h => ⟨h.1, h.2⟩⟩

/-! ## Shares -/

theorem delegated_eq_sharesOf (c : StakeLedger) (val : ValAddress) :
    c.delegated val = c.sharesOf val := by
  rw [delegated_apply]
  refine total_congr fun key d _ => ?_
  rw [Pi.single_apply]
  simp only [eq_comm]

theorem surplus_eq_zero_iff (c : StakeLedger) :
    c.surplus = 0 ↔ ∀ val, c.recorded val = c.sharesOf val := by
  rw [surplus, sub_eq_zero, funext_iff]
  simp only [delegated_eq_sharesOf]

/-- A delegation has a validator, because its shares are counted somewhere. -/
theorem Formed.validator_exists (hc : c.Formed) (hsurplus : c.surplus = 0) {del : AccAddress}
    {val : ValAddress} (h : (del, val) ∈ c.delegations) : val ∈ c.validators := by
  obtain ⟨d, hd⟩ := isSome_iff_exists.mp (mem_iff_isSome_getElem?.mp h)
  rw [mem_iff_isSome_getElem?]
  by_contra hnone
  have hrecorded := (c.surplus_eq_zero_iff).mp hsurplus val
  rw [recorded_apply, not_isSome_iff_eq_none.mp hnone, ← delegated_eq_sharesOf] at hrecorded
  have hpos := (hc.delegations _ d hd).shares_pos
  have hle := hc.shares_le_delegated hd
  simp only [map_none, getD_none] at hrecorded
  omega

theorem SharesMatch.sharesOf_absent (h : c.SharesMatch) {val : ValAddress}
    (hval : c.validators[val]? = none) : c.sharesOf val = 0 := by
  have hzero : c.sharesOf val = total (fun _ _ => (0 : Int)) c.delegations := by
    refine total_congr fun key d hd => if_neg ?_
    rintro rfl
    have hmem := h.existing key.1 key.2 (mem_iff_isSome_getElem?.mpr (by simp [hd]))
    rw [mem_iff_isSome_getElem?, hval] at hmem
    simp at hmem
  rw [hzero]
  unfold total
  simp

theorem Formed.sharesMatch_iff (hc : c.Formed) : c.SharesMatch ↔ c.surplus = 0 := by
  constructor
  · intro h
    refine c.surplus_eq_zero_iff.mpr fun val => ?_
    rw [recorded_apply]
    cases hval : c.validators[val]? with
    | none => exact (h.sharesOf_absent hval).symm
    | some v => exact h.counted val v hval
  · intro hsurplus
    refine ⟨fun val v hv => ?_, fun key d hd => (hc.delegations key d hd).shares_pos,
      fun del val => hc.validator_exists hsurplus, fun val del => hc.indexed del val⟩
    have hrecorded := c.surplus_eq_zero_iff.mp hsurplus val
    rw [recorded_apply, hv] at hrecorded
    exact hrecorded

end CosmosSDK.Staking.StakeLedger
