import CosmosSDK.Staking.State

/-!
# The ledger of stake

What staking has to keep in balance, apart from indexes and queues: validators and
delegations with their shares, unbonding delegations and redelegations with their
balances, and the pools.  Two quantities say how far a ledger is out of balance.  The
gap of a pool is what it holds beyond the stake it backs.  The surplus of a validator
is what its record counts beyond the shares of its delegations.  Both are sums, so a
part of an operation changes them by an amount of its own, and the amounts of the
parts add up.
-/

namespace CosmosSDK.Staking

open Auth OrderedKV Std
open Pi (single)

def BondStatus.pool (status : BondStatus) : Pool :=
  if status = .bonded then .bonded else .notBonded

def UnbondingDelegation.balance (u : UnbondingDelegation) : Int :=
  (u.entries.map (fun e => e.balance)).sum

structure StakeLedger where
  validators : OrdMap ValAddress Validator
  delegations : OrdMap (AccAddress × ValAddress) Delegation
  delegationsByValidator : OrdMap (ValAddress × AccAddress) Unit
  unbondingDelegations : OrdMap (AccAddress × ValAddress) UnbondingDelegation
  redelegations : OrdMap (AccAddress × ValAddress × ValAddress) Redelegation
  pools : Pool → Int

def State.ledger {X : Type} (s : State X) : StakeLedger :=
  ⟨s.validators, s.delegations, s.delegationsByValidator, s.unbondingDelegations,
    s.redelegations, s.pools⟩

/-! ## Well-formed records -/

/-- The balance of an entry is between zero and what it began with. -/
def UnbondingDelegationEntry.Funded (e : UnbondingDelegationEntry) : Prop :=
  0 ≤ e.balance ∧ e.balance ≤ e.initialBalance

structure Delegation.StoredAt (d : Delegation) (key : AccAddress × ValAddress) : Prop where
  key_eq : (d.delegatorAddress, d.validatorAddress) = key
  shares_pos : 0 < d.shares.i

structure UnbondingDelegation.StoredAt (u : UnbondingDelegation) (key : AccAddress × ValAddress) :
    Prop where
  key_eq : (u.delegatorAddress, u.validatorAddress) = key
  funded : ∀ e ∈ u.entries, e.Funded

structure Redelegation.StoredAt (r : Redelegation) (key : AccAddress × ValAddress × ValAddress) :
    Prop where
  key_eq : (r.delegatorAddress, r.validatorSrcAddress, r.validatorDstAddress) = key
  src_ne_dst : r.validatorSrcAddress ≠ r.validatorDstAddress
  initial_nonneg : ∀ e ∈ r.entries, 0 ≤ e.initialBalance

structure Validator.StoredAt (v : Validator) (addr : ValAddress) : Prop where
  key_eq : v.operatorAddress = addr
  solvent : v.Solvent

/-- Every record is stored under its own addresses with values in range, and delegations are
indexed by validator. -/
structure StakeLedger.Formed (c : StakeLedger) : Prop where
  validators : ∀ (addr : ValAddress) (v : Validator), c.validators[addr]? = some v → v.StoredAt addr
  delegations : ∀ (key : AccAddress × ValAddress) (d : Delegation),
    c.delegations[key]? = some d → d.StoredAt key
  indexed : ∀ (del : AccAddress) (val : ValAddress),
    (val, del) ∈ c.delegationsByValidator ↔ (del, val) ∈ c.delegations
  unbonding : ∀ (key : AccAddress × ValAddress) (u : UnbondingDelegation),
    c.unbondingDelegations[key]? = some u → u.StoredAt key
  redelegations : ∀ (key : AccAddress × ValAddress × ValAddress) (r : Redelegation),
    c.redelegations[key]? = some r → r.StoredAt key

/-! ## Gap and surplus -/

namespace StakeLedger

def tokens (c : StakeLedger) : Pool → Int :=
  total (fun _ v => single v.status.pool v.tokens) c.validators

variable (c : StakeLedger)

def unbonding : Int :=
  total (fun _ u => u.balance) c.unbondingDelegations

def recorded : ValAddress → Int :=
  total (fun addr v => single addr v.delegatorShares.i) c.validators

def delegated : ValAddress → Int :=
  total (fun key d => single key.2 d.shares.i) c.delegations

def gap : Pool → Int :=
  c.pools - (c.tokens + single .notBonded c.unbonding)

/-- What the record of a validator counts beyond the shares of its delegations. -/
def surplus : ValAddress → Int := c.recorded - c.delegated

/-- The shares stored for a delegation; an absent one has none. -/
def sharesAt (key : AccAddress × ValAddress) : Int :=
  (c.delegations[key]?.map (fun d => d.shares.i)).getD 0

/-- The balance stored for an unbonding delegation; an absent one has none. -/
def balanceAt (key : AccAddress × ValAddress) : Int :=
  (c.unbondingDelegations[key]?.map UnbondingDelegation.balance).getD 0

theorem recorded_apply (addr : ValAddress) :
    c.recorded addr = (c.validators[addr]?.map (fun v => v.delegatorShares.i)).getD 0 :=
  total_single (fun v : Validator => v.delegatorShares.i) c.validators addr

theorem delegated_apply (addr : ValAddress) : c.delegated addr =
      total (fun key d => (single key.2 d.shares.i : ValAddress → Int) addr) c.delegations :=
  total_apply _ c.delegations addr

namespace Formed

variable {c : StakeLedger}

theorem delegation_nonneg (hc : c.Formed) (addr : ValAddress) (key : AccAddress × ValAddress)
    (d : Delegation) (hd : c.delegations[key]? = some d) :
    0 ≤ (single key.2 d.shares.i : ValAddress → Int) addr := by
  rw [Pi.single_apply]
  split
  · exact (hc.delegations key d hd).shares_pos.le
  · rfl

theorem shares_le_delegated (hc : c.Formed) {del : AccAddress} {val : ValAddress} {d : Delegation}
    (hd : c.delegations[(del, val)]? = some d) : d.shares.i ≤ c.delegated val := by
  rw [delegated_apply]
  simpa using le_total_of_nonneg (hc.delegation_nonneg val) hd

end Formed

/-! ## Effects -/

/-- The effect of a part of an operation: it changes records of validators at the
addresses `touched` only, moves the gaps by `g` and the surpluses by `h`. -/
structure Effect (touched : Set ValAddress) (g : Pool → Int) (h : ValAddress → Int)
    (c c' : StakeLedger) : Prop where
  formed : c'.Formed
  gap : c'.gap = c.gap + g
  surplus : c'.surplus = c.surplus + h
  frame : ∀ addr ∉ touched, c'.validators[addr]? = c.validators[addr]?

namespace Effect

variable {c c' c'' : StakeLedger} {t t' : Set ValAddress} {g g' : Pool → Int}
  {h h' : ValAddress → Int}

theorem refl (hc : c.Formed) : Effect ∅ 0 0 c c :=
  ⟨hc, (add_zero _).symm, (add_zero _).symm, fun _ _ => rfl⟩

theorem trans (e : Effect t g h c c') (e' : Effect t' g' h' c' c'') :
    Effect (t ∪ t') (g + g') (h + h') c c'' where
  formed := e'.formed
  gap := by rw [e'.gap, e.gap, add_assoc]
  surplus := by rw [e'.surplus, e.surplus, add_assoc]
  frame addr haddr := by
    rw [Set.mem_union, not_or] at haddr
    rw [e'.frame addr haddr.2, e.frame addr haddr.1]

/-- Another way to write the same amounts; the addresses may be more. -/
theorem congr (e : Effect t g h c c') (ht : t ⊆ t') (hg : g = g') (hh : h = h') :
    Effect t' g' h' c c' :=
  ⟨e.formed, hg ▸ e.gap, hh ▸ e.surplus, fun addr haddr => e.frame addr (fun hmem => haddr (ht hmem))⟩

section

variable (hc : c.Formed)
include hc

theorem pools (amounts : Pool → Int) :
    Effect ∅ amounts 0 c { c with pools := c.pools + amounts } where
  formed := ⟨hc.validators, hc.delegations, hc.indexed, hc.unbonding, hc.redelegations⟩
  gap := add_sub_right_comm _ _ _
  surplus := (add_zero _).symm
  frame _ _ := rfl

/-! ### Records of validators -/

theorem validators {m : OrdMap ValAddress Validator} (addr : ValAddress)
    (hagree : ∀ a, a ≠ addr → m[a]? = c.validators[a]?)
    (hstored : ∀ v, m[addr]? = some v → v.StoredAt addr) :
    Effect {addr}
      (part (fun _ v => single v.status.pool v.tokens) c.validators addr -
        part (fun _ v => single v.status.pool v.tokens) m addr)
      (part (fun a v => single a v.delegatorShares.i) m addr -
        part (fun a v => single a v.delegatorShares.i) c.validators addr)
      c { c with validators := m } := by
  refine ⟨⟨fun a v hv => ?_, hc.delegations, hc.indexed, hc.unbonding, hc.redelegations⟩, ?_, ?_,
    fun a ha => hagree a ha⟩
  · by_cases ha : a = addr
    · subst ha
      exact hstored v hv
    · exact hc.validators a v (hagree a ha ▸ hv)
  · have htotal := total_agree
      (fun _ (v : Validator) => (single v.status.pool v.tokens : Pool → Int)) hagree
    simp only [StakeLedger.gap, tokens, unbonding, eq_sub_of_add_eq htotal]
    abel
  · have htotal := total_agree
      (fun a (v : Validator) => (single a v.delegatorShares.i : ValAddress → Int)) hagree
    simp only [StakeLedger.surplus, recorded, delegated, eq_sub_of_add_eq htotal]
    abel

variable {v : Validator}

theorem insertValidator (hv : v.Solvent) :
    Effect {v.operatorAddress}
      (part (fun _ v => single v.status.pool v.tokens) c.validators v.operatorAddress -
        single v.status.pool v.tokens)
      (single v.operatorAddress v.delegatorShares.i -
        part (fun a v => single a v.delegatorShares.i) c.validators v.operatorAddress)
      c { c with validators := c.validators.insert v.operatorAddress v } := by
  have hlook : (c.validators.insert v.operatorAddress v)[v.operatorAddress]? = some v := by
    rw [lookup_insert, if_pos rfl]
  refine (validators hc v.operatorAddress (fun a ha => by rw [lookup_insert, if_neg ha])
    (fun w hw => ?_)).congr subset_rfl ?_ ?_
  · obtain rfl := Option.mem_unique hlook hw
    exact ⟨rfl, hv⟩
  · rw [part_of_some _ hlook]
  · rw [part_of_some _ hlook]

theorem setValidator {v v0 : Validator}
    (h0 : c.validators[v.operatorAddress]? = some v0) (hv : v.Solvent) :
    Effect {v.operatorAddress} (single v0.status.pool v0.tokens - single v.status.pool v.tokens)
      (single v.operatorAddress (v.delegatorShares.i - v0.delegatorShares.i)) c
      { c with validators := c.validators.insert v.operatorAddress v } := by
  refine (insertValidator hc hv).congr subset_rfl ?_ ?_
  · rw [part_of_some _ h0]
  · rw [part_of_some _ h0, Pi.single_sub]

theorem addValidator
    (h0 : c.validators[v.operatorAddress]? = none) (hv : v.Solvent) (htokens : v.tokens = 0)
    (hshares : v.delegatorShares.i = 0) :
    Effect {v.operatorAddress} 0 0 c
      { c with validators := c.validators.insert v.operatorAddress v } := by
  refine (insertValidator hc hv).congr subset_rfl ?_ ?_
  · rw [part_of_none _ h0, htokens, Pi.single_zero, sub_zero]
  · rw [part_of_none _ h0, hshares, Pi.single_zero, sub_zero]

theorem removeValidator {addr : ValAddress}
    (h0 : c.validators[addr]? = some v) (htokens : v.tokens = 0)
    (hshares : v.delegatorShares.i = 0) :
    Effect {addr} 0 0 c { c with validators := c.validators.erase addr } := by
  have hlook : (c.validators.erase addr)[addr]? = none := by rw [lookup_erase, if_pos rfl]
  refine (validators hc addr (fun a ha => by rw [lookup_erase, if_neg ha])
    (fun w hw => ?_)).congr subset_rfl ?_ ?_
  · simp at hw
  · rw [part_of_some _ h0, part_of_none _ hlook, htokens, Pi.single_zero, sub_zero]
  · rw [part_of_some _ h0, part_of_none _ hlook, hshares, Pi.single_zero, sub_zero]

/-! ### Delegations -/

theorem delegation {m : OrdMap (AccAddress × ValAddress) Delegation}
    {index : OrdMap (ValAddress × AccAddress) Unit} (del : AccAddress) (val : ValAddress)
    (hagree : ∀ key, key ≠ (del, val) → m[key]? = c.delegations[key]?)
    (hindex : ∀ key, key ≠ (val, del) → index[key]? = c.delegationsByValidator[key]?)
    (hsame : (val, del) ∈ index ↔ (del, val) ∈ m)
    (hstored : ∀ d, m[(del, val)]? = some d → d.StoredAt (del, val)) :
    Effect ∅ 0
      (part (fun key d => single key.2 d.shares.i) c.delegations (del, val) -
        part (fun key d => single key.2 d.shares.i) m (del, val))
      c { c with delegations := m, delegationsByValidator := index } := by
  refine ⟨⟨hc.validators, fun key d hd => ?_, fun del' val' => ?_, hc.unbonding, hc.redelegations⟩,
    (add_zero _).symm, ?_, fun _ _ => rfl⟩
  · by_cases hkey : key = (del, val)
    · subst hkey
      exact hstored d hd
    · exact hc.delegations key d (hagree key hkey ▸ hd)
  · by_cases hkey : (del', val') = (del, val)
    · obtain ⟨rfl, rfl⟩ := Prod.mk.inj hkey
      exact hsame
    · have hkey' : (val', del') ≠ (val, del) := fun heq =>
        hkey (by rw [(Prod.mk.inj heq).1, (Prod.mk.inj heq).2])
      simp only [ExtTreeMap.mem_iff_isSome_getElem?, hagree _ hkey, hindex _ hkey']
      simpa only [ExtTreeMap.mem_iff_isSome_getElem?] using hc.indexed del' val'
  · have htotal := total_agree
      (fun (key : AccAddress × ValAddress) (d : Delegation) =>
        (single key.2 d.shares.i : ValAddress → Int)) hagree
    simp only [StakeLedger.surplus, recorded, delegated, eq_sub_of_add_eq htotal]
    abel

end

theorem part_delegation (del : AccAddress) (val : ValAddress) :
    part (fun key d => (single key.2 d.shares.i : ValAddress → Int)) c.delegations (del, val) =
      single val (c.sharesAt (del, val)) := by
  unfold part sharesAt
  cases c.delegations[(del, val)]? <;> simp

theorem setDelegation (hc : c.Formed) {d : Delegation} (hpos : 0 < d.shares.i) : Effect ∅ 0
      (single d.validatorAddress
        (c.sharesAt (d.delegatorAddress, d.validatorAddress) - d.shares.i))
      c { c with
        delegations := c.delegations.insert (d.delegatorAddress, d.validatorAddress) d
        delegationsByValidator :=
          c.delegationsByValidator.insert (d.validatorAddress, d.delegatorAddress) () } := by
  have hlook : (c.delegations.insert (d.delegatorAddress, d.validatorAddress) d)[
      (d.delegatorAddress, d.validatorAddress)]? = some d := by rw [lookup_insert, if_pos rfl]
  refine (delegation hc d.delegatorAddress d.validatorAddress
    (fun key hkey => by rw [lookup_insert, if_neg hkey])
    (fun key hkey => by rw [lookup_insert, if_neg hkey]) ?_ fun w hw => ?_).congr subset_rfl rfl ?_
  · simp
  · obtain rfl := Option.mem_unique hlook hw
    exact ⟨rfl, hpos⟩
  · rw [part_delegation, part_of_some _ hlook, Pi.single_sub]

theorem removeDelegation (hc : c.Formed) (del : AccAddress) (val : ValAddress) :
    Effect ∅ 0 (single val (c.sharesAt (del, val))) c { c with
      delegations := c.delegations.erase (del, val)
      delegationsByValidator := c.delegationsByValidator.erase (val, del) } := by
  have hlook : (c.delegations.erase (del, val))[(del, val)]? = none := by
    rw [lookup_erase, if_pos rfl]
  refine (delegation hc del val (fun key hkey => by rw [lookup_erase, if_neg hkey])
    (fun key hkey => by rw [lookup_erase, if_neg hkey]) ?_ fun w hw => ?_).congr subset_rfl rfl ?_
  · simp
  · simp at hw
  · rw [part_delegation, part_of_none _ hlook, sub_zero]

/-! ### Unbonding delegations and redelegations -/

theorem unbondingDelegation (hc : c.Formed)
    {m : OrdMap (AccAddress × ValAddress) UnbondingDelegation} (key : AccAddress × ValAddress)
    (hagree : ∀ key', key' ≠ key → m[key']? = c.unbondingDelegations[key']?)
    (hstored : ∀ u, m[key]? = some u → u.StoredAt key) :
    Effect ∅
      (single .notBonded
        (part (fun _ u => u.balance) c.unbondingDelegations key - part (fun _ u => u.balance) m key))
      0 c { c with unbondingDelegations := m } := by
  refine ⟨⟨hc.validators, hc.delegations, hc.indexed, fun key' u hu => ?_, hc.redelegations⟩, ?_,
    (add_zero _).symm, fun _ _ => rfl⟩
  · by_cases hkey : key' = key
    · subst hkey
      exact hstored u hu
    · exact hc.unbonding key' u (hagree key' hkey ▸ hu)
  · have htotal := total_agree
      (fun (_ : AccAddress × ValAddress) (u : UnbondingDelegation) => u.balance) hagree
    simp only [StakeLedger.gap, tokens, unbonding, eq_sub_of_add_eq htotal, Pi.single_sub,
      Pi.single_add]
    abel

theorem part_unbonding (key : AccAddress × ValAddress) :
    part (fun _ u => u.balance) c.unbondingDelegations key = c.balanceAt key := by
  unfold part balanceAt
  cases c.unbondingDelegations[key]? <;> rfl

theorem setUnbondingDelegation (hc : c.Formed) {u : UnbondingDelegation}
    (hfunded : ∀ e ∈ u.entries, e.Funded) :
    Effect ∅
      (single .notBonded (c.balanceAt (u.delegatorAddress, u.validatorAddress) - u.balance)) 0
      c { c with
        unbondingDelegations :=
          c.unbondingDelegations.insert (u.delegatorAddress, u.validatorAddress) u } := by
  have hlook : (c.unbondingDelegations.insert (u.delegatorAddress, u.validatorAddress) u)[
      (u.delegatorAddress, u.validatorAddress)]? = some u := by rw [lookup_insert, if_pos rfl]
  refine (unbondingDelegation hc (u.delegatorAddress, u.validatorAddress)
    (fun key hkey => by rw [lookup_insert, if_neg hkey]) fun w hw => ?_).congr subset_rfl ?_ rfl
  · obtain rfl := Option.mem_unique hlook hw
    exact ⟨rfl, hfunded⟩
  · rw [part_unbonding, part_of_some _ hlook]

theorem removeUnbondingDelegation (hc : c.Formed) (key : AccAddress × ValAddress) :
    Effect ∅ (single .notBonded (c.balanceAt key)) 0 c
      { c with unbondingDelegations := c.unbondingDelegations.erase key } := by
  have hlook : (c.unbondingDelegations.erase key)[key]? = none := by rw [lookup_erase, if_pos rfl]
  refine (unbondingDelegation hc key
    (fun key' hkey => by rw [lookup_erase, if_neg hkey]) fun w hw => ?_).congr subset_rfl ?_ rfl
  · simp at hw
  · rw [part_unbonding, part_of_none _ hlook, sub_zero]

theorem redelegations (hc : c.Formed)
    {m : OrdMap (AccAddress × ValAddress × ValAddress) Redelegation}
    (hstored : ∀ (key : AccAddress × ValAddress × ValAddress) (r : Redelegation),
      m[key]? = some r → r.StoredAt key) : Effect ∅ 0 0 c { c with redelegations := m } :=
  ⟨⟨hc.validators, hc.delegations, hc.indexed, hc.unbonding, hstored⟩, (add_zero _).symm,
    (add_zero _).symm, fun _ _ => rfl⟩

end Effect

end StakeLedger

end CosmosSDK.Staking
