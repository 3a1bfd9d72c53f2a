import CosmosSDK.Staking.Effects.Delegations
import CosmosSDK.Staking.Keeper.Slash

/-!
# Effects of slashing

Every part of a slash burns from a pool exactly what it takes from the stake in that
pool.  The record of the slashed validator was read before the scan of what has left
it; the scan never touches that record, because a redelegation has two different ends.
-/

namespace CosmosSDK.Staking.Keeper

open Store Math Auth OrderedKV Stateful StakeLedger Fallible List Effect Validator SlashSums Set
  UnbondingDelegation

variable {X : Type} {k : Keeper X} {ctx : HeaderInfo} {s s' : State X} {u : Unit}

/-! ## Unbonding delegations -/

/-- Two ledgers whose unbonding delegations differ at most at one pair. -/
def UnbondingAgree (key : AccAddress × ValAddress) (c c' : StakeLedger) : Prop :=
  ∀ key', key' ≠ key → c'.unbondingDelegations[key']? = c.unbondingDelegations[key']?

variable {ubd : UnbondingDelegation} {slashFactor : LegacyDec}
  {slashAmount infractionHeight burned' amt slashAmount' remaining remaining' : Int}
  {entries : List UnbondingDelegationEntry} {del : AccAddress} {dst val : ValAddress}
  {v : Validator} {sums sums' : SlashSums} {red : Redelegation} {consAddr : ConsAddress}

theorem setEntryBalance_effect (hs : s.ledger.Formed) {done rest : List UnbondingDelegationEntry}
    {e : UnbondingDelegationEntry} {x : Int}
    (hstored : s.ledger.unbondingDelegations[(ubd.delegatorAddress, ubd.validatorAddress)]? =
      some { ubd with entries := done ++ e :: rest }) (hx : 0 ≤ x) (hle : x ≤ e.balance)
    (h : setUnbondingDelegation
      { ubd with entries := done ++ { e with balance := e.balance - x } :: rest } s = .ok u s') :
    Effect ∅ (Pi.single .notBonded x) 0 s.ledger s'.ledger ∧
      s'.ledger.unbondingDelegations[(ubd.delegatorAddress, ubd.validatorAddress)]? =
        some { ubd with entries := done ++ { e with balance := e.balance - x } :: rest } ∧
      UnbondingAgree (ubd.delegatorAddress, ubd.validatorAddress) s.ledger s'.ledger := by
  have hledger := setUnbondingDelegation_ledger h
  have hfunded := (hs.unbonding _ _ hstored).funded
  have he : e.Funded := hfunded e (by simp)
  have hfunded' : ∀ e' ∈ done ++ { e with balance := e.balance - x } :: rest, e'.Funded := by
    intro e' he'
    rcases mem_append.mp he' with hmem | hmem
    · exact hfunded e' (mem_append_left _ hmem)
    · rcases mem_cons.mp hmem with rfl | hmem
      · exact ⟨by dsimp only; omega, by have := he.2; dsimp only; omega⟩
      · exact hfunded e' (by simp [hmem])
  have hat : s.ledger.balanceAt (ubd.delegatorAddress, ubd.validatorAddress) =
      balance { ubd with entries := done ++ e :: rest } := by
    unfold balanceAt
    rw [hstored]
    rfl
  refine ⟨?_, ?_, fun key hkey => ?_⟩
  · rw [hledger]
    refine (Effect.setUnbondingDelegation hs hfunded').congr
      subset_rfl ?_ rfl
    rw [hat]
    simp only [balance, map_append, map_cons, sum_append,
      sum_cons]
    congr 1
    omega
  · rw [hledger]
    simp
  · rw [hledger]
    exact (lookup_insert _ _ _ _).trans (if_neg hkey)

theorem slashAmount_nonneg {slashAmountDec : LegacyDec} (hfactor : 0 ≤ slashFactor.i)
    {initial : Int} (hinitial : 0 ≤ initial)
    (hmul : (slashFactor.mulInt initial : StakingResult LegacyDec) = .ok slashAmountDec)
    (htrunc : (slashAmountDec.truncateInt : StakingResult Int) = .ok slashAmount) :
    0 ≤ slashAmount := by
  apply LegacyDec.truncateInt_nonneg htrunc
  rw [LegacyDec.mulInt_ok hmul]
  exact Int.mul_nonneg hfactor hinitial

theorem slashEntries_effect (hfactor : 0 ≤ slashFactor.i) (done : List UnbondingDelegationEntry)
    {total burned total' : Int} (hs : s.ledger.Formed)
    (hstored : s.ledger.unbondingDelegations[(ubd.delegatorAddress, ubd.validatorAddress)]? =
      some { ubd with entries := done ++ entries })
    (h : slashEntries ctx infractionHeight slashFactor ubd done entries total burned s =
      .ok (total', burned') s') :
    burned ≤ burned' ∧
      Effect ∅ (Pi.single .notBonded (burned' - burned)) 0 s.ledger s'.ledger ∧
      UnbondingAgree (ubd.delegatorAddress, ubd.validatorAddress) s.ledger s'.ledger := by
  induction entries generalizing done total burned s with
  | nil =>
    obtain ⟨hret, rfl⟩ := pure_ok.mp h
    obtain ⟨-, rfl⟩ := Prod.mk.inj hret
    exact ⟨by rfl, by simpa using refl hs, fun _ _ => rfl⟩
  | cons e entries ih =>
    have he : e.Funded := (hs.unbonding _ _ hstored).funded e (by simp)
    rw [slashEntries] at h
    split at h
    · exact ih _ hs (by simpa using hstored) h
    · simp only [steps] at h
      obtain ⟨_, hmul, _, htrunc, _, -, h⟩ := h
      have hslash := slashAmount_nonneg hfactor (he.1.trans he.2) hmul htrunc
      split at h
      · exact ih _ hs (by simpa using hstored) h
      · simp only [steps] at h
        obtain ⟨_, hburned, _, hbalance, _, _, h6, h⟩ := h
        obtain rfl := addInt_ok hburned
        obtain rfl := subInt_ok hbalance
        have hx := le_min hslash he.1
        obtain ⟨e1, hstored1, hagree1⟩ :=
          setEntryBalance_effect hs hstored hx (min_le_right _ _) h6
        obtain ⟨_, e2, hagree2⟩ := ih _ e1.formed (by simpa using hstored1) h
        refine ⟨by omega, (e1.trans e2).congr (by simp) ?_ (by simp),
          fun key hkey => (hagree2 key hkey).trans (hagree1 key hkey)⟩
        rw [← Pi.single_add]
        congr 1
        omega

theorem slashUnbondingDelegation_effect (hs : s.ledger.Formed) (hfactor : 0 ≤ slashFactor.i)
    (hstored : s.ledger.unbondingDelegations[(ubd.delegatorAddress, ubd.validatorAddress)]? =
      some ubd) (h : slashUnbondingDelegation ctx ubd infractionHeight slashFactor s = .ok amt s') :
    Effect ∅ 0 0 s.ledger s'.ledger ∧
      UnbondingAgree (ubd.delegatorAddress, ubd.validatorAddress) s.ledger s'.ledger := by
  simp only [slashUnbondingDelegation, bind_ok, pure_ok] at h
  obtain ⟨⟨_, burned⟩, _, h1, _, _, h2, -, rfl⟩ := h
  obtain ⟨hle, e1, hagree⟩ := slashEntries_effect hfactor [] hs hstored h1
  have hburn := burnPoolTokens_ledger hle h2
  have e2 := pools e1.formed (-Pi.single .notBonded burned)
  rw [← hburn] at e2
  refine ⟨(e1.trans e2).congr (by simp) ?_ (by simp), fun key hkey => ?_⟩
  · rw [sub_zero, add_neg_cancel]
  · rw [hburn]
    exact hagree key hkey

theorem slashUnbondingDelegation_empty (hempty : ubd.entries = [])
    (h : slashUnbondingDelegation ctx ubd infractionHeight slashFactor s = .ok amt s') :
    s'.ledger = s.ledger := by
  simp only [slashUnbondingDelegation, hempty, slashEntries, pure_ok, steps] at h
  obtain ⟨⟨_, _⟩, hret, _, _, h2, -, rfl⟩ := h
  obtain ⟨-, rfl⟩ := Prod.mk.inj hret
  simpa using burnPoolTokens_ledger (le_refl 0) h2

/-! ## Redelegations -/

theorem slashMovedEntries_effect (done : List UnbondingDelegationEntry) {burned : Int}
    (hs : s.ledger.Formed)
    (hstored : s.ledger.unbondingDelegations[(ubd.delegatorAddress, ubd.validatorAddress)]? =
      some { ubd with entries := done ++ entries }) (hslash : 0 ≤ slashAmount)
    (h : slashMovedEntries ctx infractionHeight ubd done entries slashAmount burned s =
      .ok (slashAmount', burned') s') :
    0 ≤ slashAmount' ∧ burned ≤ burned' ∧
      Effect ∅ (Pi.single .notBonded (burned' - burned)) 0 s.ledger s'.ledger := by
  induction entries generalizing done slashAmount burned s with
  | nil =>
    obtain ⟨hret, rfl⟩ := pure_ok.mp h
    obtain ⟨rfl, rfl⟩ := Prod.mk.inj hret
    exact ⟨hslash, le_refl _, by simpa using refl hs⟩
  | cons e entries ih =>
    have he : e.Funded := (hs.unbonding _ _ hstored).funded e (by simp)
    rw [slashMovedEntries] at h
    split at h
    · exact ih _ hs (by simpa using hstored) hslash h
    · simp only [steps] at h
      obtain ⟨_, hsub, _, hburned, balance, hbalance, _, _, h4, h⟩ := h
      obtain rfl := subInt_ok hsub
      obtain rfl := addInt_ok hburned
      obtain rfl := subInt_ok hbalance
      have hx : 0 ≤ min slashAmount e.balance := le_min hslash he.1
      obtain ⟨e1, hstored1, -⟩ := setEntryBalance_effect hs hstored hx (min_le_right _ _) h4
      obtain ⟨hslash', _, e2⟩ := ih _ e1.formed (by simpa using hstored1) (by omega) h
      refine ⟨hslash', by omega, (e1.trans e2).congr (by simp) ?_ (by simp)⟩
      rw [← Pi.single_add]
      congr 1
      omega

theorem slashMovedUnbonding_effect (hs : s.ledger.Formed) {burned : Int} (hslash : 0 ≤ slashAmount)
    (h : slashMovedUnbonding ctx del dst infractionHeight slashAmount burned s =
      .ok (slashAmount', burned') s') : 0 ≤ slashAmount' ∧ burned ≤ burned' ∧
      Effect ∅ (Pi.single .notBonded (burned' - burned)) 0 s.ledger s'.ledger := by
  simp only [slashMovedUnbonding, steps] at h
  obtain ⟨found, hfound, h⟩ := h
  cases found with
  | none =>
    obtain ⟨hret, rfl⟩ := pure_ok.mp h
    obtain ⟨rfl, rfl⟩ := Prod.mk.inj hret
    exact ⟨hslash, le_refl _, by simpa using refl hs⟩
  | some ubd =>
    have hkey := (hs.unbonding _ ubd hfound).key_eq
    have hstored : s.ledger.unbondingDelegations[(ubd.delegatorAddress, ubd.validatorAddress)]? =
        some ubd := by
      rw [hkey]
      exact hfound
    exact slashMovedEntries_effect [] hs hstored hslash h

def SlashSums.burned (sums : SlashSums) : Pool → Int :=
  Pi.single .bonded sums.bondedBurnedAmount + Pi.single .notBonded sums.notBondedBurnedAmount

structure SlashSums.Grows (sums sums' : SlashSums) : Prop where
  bonded : sums.bondedBurnedAmount ≤ sums'.bondedBurnedAmount
  notBonded : sums.notBondedBurnedAmount ≤ sums'.notBondedBurnedAmount

theorem addBurned_ok (hv : v.status ≠ .unspecified) {after : Option Validator}
    (hafter : SameStatus v after) (hamt : 0 ≤ amt) (h : addBurned after amt sums = .ok sums') :
    sums.Grows sums' ∧ sums'.burned = sums.burned + Pi.single v.status.pool amt := by
  have hstatus : v.status = .bonded ∧ after.map status = some .bonded ∨
      v.status.pool = .notBonded ∧ (after.map status = none ∨
        after.map status = some .unbonded ∨
        after.map status = some .unbonding) := by
    cases after with
    | none => exact .inr ⟨by rw [show v.status = .unbonded from hafter]; rfl, .inl rfl⟩
    | some w =>
      have hw : w.status = v.status := hafter
      rw [Option.map_some, hw]
      cases hv' : v.status <;> simp_all [BondStatus.pool]
  unfold addBurned at h
  rcases hstatus with ⟨hbonded, hmap⟩ | ⟨hpool, hmap⟩
  · rw [hmap] at h
    obtain ⟨burned, hburned, h⟩ := bind_eq_ok.mp h
    cases h
    obtain rfl := addInt_ok hburned
    refine ⟨⟨by dsimp only; omega, le_refl _⟩, ?_⟩
    simp only [burned, hbonded, BondStatus.pool, if_true, Pi.single_add]
    abel
  · have h : (do
        let burned ← addInt sums.notBondedBurnedAmount amt
        .ok { sums with notBondedBurnedAmount := burned } : StakingResult SlashSums) = .ok sums' := by
      rcases hmap with hmap | hmap | hmap <;> rw [hmap] at h <;> exact h
    obtain ⟨burned, hburned, h⟩ := bind_eq_ok.mp h
    cases h
    obtain rfl := addInt_ok hburned
    refine ⟨⟨le_refl _, by dsimp only; omega⟩, ?_⟩
    simp only [burned, hpool, Pi.single_add]
    abel

theorem sharesToUnbond_nonneg (hv : v.Solvent) (hamt : 0 ≤ amt) {shares : LegacyDec}
    (h : sharesToUnbond v amt = .ok shares) : 0 ≤ shares.i := by
  unfold sharesToUnbond at h
  split at h
  · cases h
    exact le_refl _
  · exact sharesFromTokensTruncated_nonneg h hv.tokens_nonneg hv.shares_nonneg hamt

variable (hs : s.ledger.Formed)
include hs

variable (hsurplus : s.ledger.surplus = 0)
include hsurplus

theorem slashMovedDelegation_effect (hslash : 0 ≤ slashAmount)
    (h : k.slashMovedDelegation del dst slashAmount sums s = .ok sums' s') :
    sums.Grows sums' ∧ Effect {dst} (sums'.burned - sums.burned) 0 s.ledger s'.ledger := by
  have hsame : ∀ {t : State X} {r : SlashSums}, (pure sums : Call X SlashSums) s = .ok r t →
      sums.Grows r ∧ Effect {dst} (r.burned - sums.burned) 0 s.ledger t.ledger := by
    intro t r hpure
    obtain ⟨rfl, rfl⟩ := pure_ok.mp hpure
    exact ⟨⟨le_refl _, le_refl _⟩,
      (refl hs).congr (empty_subset _) (sub_self _).symm rfl⟩
  simp only [slashMovedDelegation, getValidator, steps] at h
  obtain ⟨v, hv, shares, hshares, h⟩ := h
  have hsolvent := (hs.validators dst v hv).solvent
  have hnonneg := sharesToUnbond_nonneg hsolvent hslash hshares
  split at h
  · exact hsame h
  · simp only [steps] at h
    obtain ⟨found, hfound, h⟩ := h
    cases found with
    | none => exact hsame h
    | some d =>
      simp only [steps] at h
      obtain ⟨_, _, h4, _, rfl, hburned, rfl⟩ := h
      have hunbond : 0 ≤ (if shares.gt d.shares then d.shares else shares).i := by
        split
        · exact (hs.delegations _ d hfound).shares_pos.le
        · exact hnonneg
      obtain ⟨v', hv', hamt, e, hafter⟩ := unbond_effect hs hsurplus hunbond h4
      obtain rfl : v = v' := Option.some.inj (hv.symm.trans hv')
      obtain ⟨hgrows, hsum⟩ := addBurned_ok hsolvent.status_ne hafter.sameStatus hamt hburned
      exact ⟨hgrows, e.congr subset_rfl (by rw [hsum]; abel) rfl⟩

theorem slashRedelegationEntry_effect
    (hfactor : 0 ≤ slashFactor.i) {entry : RedelegationEntry} (hinitial : 0 ≤ entry.initialBalance)
    (h : k.slashRedelegationEntry ctx del dst infractionHeight slashFactor sums entry s =
      .ok sums' s') :
    sums.Grows sums' ∧ Effect {dst} (sums'.burned - sums.burned) 0 s.ledger s'.ledger := by
  unfold slashRedelegationEntry at h
  split at h
  · obtain ⟨rfl, rfl⟩ := pure_ok.mp h
    exact ⟨⟨le_refl _, le_refl _⟩,
      (refl hs).congr (empty_subset _) (sub_self _).symm rfl⟩
  · simp only [steps] at h
    obtain ⟨_, hmul, _, htrunc, total, -, ⟨_, burned⟩, s4, h4, h⟩ := h
    have hslash := slashAmount_nonneg hfactor hinitial hmul htrunc
    obtain ⟨hrest, hle, e1⟩ := slashMovedUnbonding_effect hs hslash h4
    have hgap : Pi.single .notBonded (burned - sums.notBondedBurnedAmount) =
        SlashSums.burned { sums with totalSlashAmount := total, notBondedBurnedAmount := burned } -
          sums.burned := by
      simp only [SlashSums.burned, Pi.single_sub]
      abel
    split at h
    · obtain ⟨rfl, rfl⟩ := pure_ok.mp h
      exact ⟨⟨le_refl _, hle⟩, e1.congr (empty_subset _) hgap rfl⟩
    · have hsurplus4 : s4.ledger.surplus = 0 := by rw [e1.surplus, hsurplus, add_zero]
      obtain ⟨hgrows, e2⟩ := slashMovedDelegation_effect e1.formed hsurplus4 hrest h
      refine ⟨⟨hgrows.bonded, le_trans hle hgrows.notBonded⟩,
        (e1.trans e2).congr (by simp) ?_ (by simp)⟩
      rw [hgap]
      abel

/-- `SlashRedelegation` touches the destination only, and is balanced. -/
theorem slashRedelegation_effect
    (hinitial : ∀ e ∈ red.entries, 0 ≤ e.initialBalance) (hfactor : 0 ≤ slashFactor.i)
    (h : k.slashRedelegation ctx red infractionHeight slashFactor s = .ok amt s') :
    Effect {red.validatorDstAddress} 0 0 s.ledger s'.ledger := by
  simp only [slashRedelegation, bind_ok, pure_ok] at h
  obtain ⟨sums, _, h1, _, _, h2, _, _, h3, -, rfl⟩ := h
  have hloop := foldlM_induct
    (I := fun l (sums : SlashSums) t => (∀ e ∈ l, 0 ≤ e.initialBalance) ∧
      SlashSums.Grows ⟨0, 0, 0⟩ sums ∧
      Effect {red.validatorDstAddress} sums.burned 0 s.ledger t.ledger)
    (fun e l sums t sums' t' hI hstep => by
      obtain ⟨hinit, hgrows, e1⟩ := hI
      obtain ⟨he, hrest⟩ := forall_mem_cons.mp hinit
      obtain ⟨hgrows', e2⟩ := slashRedelegationEntry_effect e1.formed
        (by rw [e1.surplus, hsurplus, add_zero]) hfactor he hstep
      exact ⟨hrest, ⟨hgrows.bonded.trans hgrows'.bonded, hgrows.notBonded.trans hgrows'.notBonded⟩,
        (e1.trans e2).congr (by simp) (by abel) (by simp)⟩)
    h1 ⟨hinitial, ⟨le_refl _, le_refl _⟩,
      (refl hs).congr (empty_subset _) (by simp [burned]) rfl⟩
  obtain ⟨-, hgrows, e1⟩ := hloop
  have e2 := pools e1.formed (-Pi.single .bonded sums.bondedBurnedAmount)
  rw [← burnPoolTokens_ledger hgrows.bonded h2] at e2
  have e3 := pools e2.formed (-Pi.single .notBonded sums.notBondedBurnedAmount)
  rw [← burnPoolTokens_ledger hgrows.notBonded h3] at e3
  refine ((e1.trans e2).trans e3).congr (by simp) ?_ (by simp)
  unfold burned
  abel

omit hsurplus

omit hs

/-! ## The scan -/

/-- What the scan may meet: records as they are stored, at different pairs, and records
without entries. -/
structure Scannable (l : List UnbondingDelegation) (c : StakeLedger) : Prop where
  stored : ∀ ubd ∈ l, ubd.entries = [] ∨
    c.unbondingDelegations[(ubd.delegatorAddress, ubd.validatorAddress)]? = some ubd
  apart : l.Pairwise (fun a b => a.entries = [] ∨ b.entries = [] ∨
    (a.delegatorAddress, a.validatorAddress) ≠ (b.delegatorAddress, b.validatorAddress))

theorem getUnbondingDelegationsFromValidator_scannable (hs : s.ledger.Formed) (val : ValAddress) :
    Scannable (getUnbondingDelegationsFromValidator s val) s.ledger := by
  have hread : ∀ key : ValAddress × AccAddress,
      let ubd := (s.unbondingDelegations[(key.2, key.1)]?).getD ⟨[], [], []⟩
      ubd.entries = [] ∨ s.ledger.unbondingDelegations[(key.2, key.1)]? = some ubd ∧
        (ubd.delegatorAddress, ubd.validatorAddress) = (key.2, key.1) := by
    intro key
    cases hfound : s.unbondingDelegations[(key.2, key.1)]? with
    | none => exact .inl rfl
    | some ubd => exact .inr ⟨hfound, (hs.unbonding _ ubd hfound).key_eq⟩
  refine ⟨fun ubd hubd => ?_, ?_⟩
  · obtain ⟨key, -, rfl⟩ := mem_map.mp hubd
    rcases hread key with hempty | ⟨hstored, hkey⟩
    · exact .inl hempty
    · exact .inr (by rw [hkey]; exact hstored)
  · refine pairwise_map.mpr ((Std.ExtTreeMap.nodup_keys.filter _).imp ?_)
    intro a b hab
    rcases hread a with hempty | ⟨-, ha⟩
    · exact .inl hempty
    · rcases hread b with hempty | ⟨-, hb⟩
      · exact .inr (.inl hempty)
      · refine .inr (.inr fun heq => hab ?_)
        rw [ha, hb] at heq
        exact Prod.ext (Prod.mk.inj heq).2 (Prod.mk.inj heq).1

theorem Scannable.slash (hs : s.ledger.Formed) {l : List UnbondingDelegation}
    (hscan : Scannable (ubd :: l) s.ledger) (hfactor : 0 ≤ slashFactor.i)
    (h : slashUnbondingDelegation ctx ubd infractionHeight slashFactor s = .ok amt s') :
    Effect ∅ 0 0 s.ledger s'.ledger ∧ Scannable l s'.ledger := by
  obtain ⟨hapart, hrest⟩ := pairwise_cons.mp hscan.apart
  by_cases hempty : ubd.entries = []
  · have hledger := slashUnbondingDelegation_empty hempty h
    rw [hledger]
    exact ⟨refl hs, fun ubd' hmem => hscan.stored ubd' (mem_cons_of_mem _ hmem), hrest⟩
  · have hstored := (hscan.stored ubd (mem_cons_self ..)).resolve_left hempty
    obtain ⟨e, hagree⟩ := slashUnbondingDelegation_effect hs hfactor hstored h
    refine ⟨e, fun ubd' hmem => ?_, hrest⟩
    rcases (hapart ubd' hmem).resolve_left hempty with hempty' | hne
    · exact .inl hempty'
    · rw [hagree _ hne.symm]
      exact hscan.stored ubd' (mem_cons_of_mem _ hmem)

theorem chargeUnbondingDelegation_ok
    (h : chargeUnbondingDelegation ctx infractionHeight slashFactor remaining ubd s =
      .ok remaining' s') :
    ∃ amt, slashUnbondingDelegation ctx ubd infractionHeight slashFactor s = .ok amt s' := by
  obtain ⟨amt, _, h1, h⟩ := bind_ok.mp h
  split at h
  · obtain ⟨-, rfl⟩ := pure_ok.mp h
    exact ⟨amt, h1⟩
  · obtain ⟨-, rfl⟩ := lift_ok.mp h
    exact ⟨amt, h1⟩

theorem chargeRedelegation_ok
    (h : k.chargeRedelegation ctx infractionHeight slashFactor remaining red s =
      .ok remaining' s') :
    ∃ amt, k.slashRedelegation ctx red infractionHeight slashFactor s = .ok amt s' := by
  obtain ⟨amt, _, h1, h⟩ := bind_ok.mp h
  split at h
  · obtain ⟨-, rfl⟩ := pure_ok.mp h
    exact ⟨amt, h1⟩
  · obtain ⟨-, rfl⟩ := lift_ok.mp h
    exact ⟨amt, h1⟩

theorem getRedelegationsFromSrcValidator_ok (hs : s.ledger.Formed) {reds : List Redelegation}
    (h : getRedelegationsFromSrcValidator s val = .ok reds) :
    ∀ red ∈ reds, red.validatorDstAddress ≠ val ∧ ∀ e ∈ red.entries, 0 ≤ e.initialBalance := by
  intro red hred
  obtain ⟨key, hkey, hread⟩ := (mem_mapM_iff h).mp hred
  have hsrc : key.1 = val := by simpa using (mem_filter.mp hkey).2
  cases hfound : s.redelegations[(key.2.1, key.1, key.2.2)]? with
  | none => simp [hfound] at hread
  | some r =>
    rw [hfound] at hread
    obtain rfl := Except.ok.inj hread
    obtain ⟨hkey_eq, hne, hinitial⟩ := hs.redelegations _ r hfound
    refine ⟨fun hdst => hne ?_, hinitial⟩
    rw [hdst, ← hsrc]
    exact (Prod.mk.inj (Prod.mk.inj hkey_eq).2).1

theorem slashScan_effect (hs : s.ledger.Formed) (hsurplus : s.ledger.surplus = 0)
    (hfactor : 0 ≤ slashFactor.i)
    (h : k.slashScan ctx val infractionHeight slashFactor slashAmount s = .ok remaining s') :
    Effect {val}ᶜ 0 0 s.ledger s'.ledger := by
  unfold slashScan at h
  split at h
  · simp [err] at h
  split at h
  · obtain ⟨-, rfl⟩ := pure_ok.mp h
    exact (refl hs).congr (empty_subset _) rfl rfl
  simp only [steps] at h
  obtain ⟨_, rfl, _, _, h2, _, _, ⟨_, rfl, hreds, rfl⟩, h⟩ := h
  obtain ⟨e1, -⟩ := foldlM_induct
    (I := fun l _ t => Effect ∅ 0 0 s.ledger t.ledger ∧ Scannable l t.ledger)
    (fun ubd l _ t _ t' hI hstep => by
      obtain ⟨e, hscan⟩ := hI
      obtain ⟨_, hslash⟩ := chargeUnbondingDelegation_ok hstep
      obtain ⟨e', hscan'⟩ := Scannable.slash e.formed hscan hfactor hslash
      exact ⟨(e.trans e').congr (by simp) (by simp) (by simp), hscan'⟩)
    h2 ⟨refl hs, getUnbondingDelegationsFromValidator_scannable hs val⟩
  obtain ⟨-, e2⟩ := foldlM_induct
    (I := fun l _ t => (∀ red ∈ l, red.validatorDstAddress ≠ val ∧
      ∀ e ∈ red.entries, 0 ≤ e.initialBalance) ∧ Effect {val}ᶜ 0 0 s.ledger t.ledger)
    (fun red l _ t _ t' hI hstep => by
      obtain ⟨hl, e⟩ := hI
      obtain ⟨⟨hdst, hinitial⟩, hrest⟩ := forall_mem_cons.mp hl
      obtain ⟨_, hslash⟩ := chargeRedelegation_ok hstep
      have e' := slashRedelegation_effect e.formed (by rw [e.surplus, hsurplus, add_zero]) hinitial
        hfactor hslash
      exact ⟨hrest, (e.trans e').congr (by simpa using hdst.symm) (by simp) (by simp)⟩)
    h ⟨getRedelegationsFromSrcValidator_ok e1.formed hreds, e1.congr (empty_subset _) rfl rfl⟩
  exact e2

/-! ## Slashing and jailing a validator -/

theorem callBeforeSlashed_ledger (h : k.callBeforeSlashed v amt s = .ok u s') :
    s'.ledger = s.ledger := by
  unfold callBeforeSlashed at h
  split at h
  · simp only [steps] at h
    obtain ⟨_, -, h⟩ := h
    exact callHook_ledger h
  · rw [(pure_ok.mp h).2]

section

variable (hs : s.ledger.Formed)
include hs

theorem burnValidatorTokens_effect {v' : Validator}
    (hv : s.ledger.validators[v.operatorAddress]? = some v) {t : State X} {pool : Pool}
    (hremove : k.removeValidatorTokens v amt s = .ok v' t) (hpool : sendName v'.status = some pool)
    (hburn : burnPoolTokens pool amt t = .ok u s') :
    Effect {v.operatorAddress} 0 0 s.ledger s'.ledger := by
  obtain ⟨htokens, hrecord⟩ := removeValidatorTokens_ledger hremove
  have hsolvent' := (hs.validators _ v hv).solvent.removeTokens htokens
  obtain ⟨hamt, -, rfl⟩ := removeTokens_ok htokens
  have e1 := Effect.setValidator hs (v := { v with tokens := v.tokens - amt }) hv hsolvent'
  rw [← hrecord] at e1
  have e2 := pools e1.formed (-Pi.single pool amt)
  rw [← burnPoolTokens_ledger hamt hburn] at e2
  have hstatus : v.status.pool = pool := by
    cases hv' : v.status <;> simp_all [sendName, BondStatus.pool]
  refine (e1.trans e2).congr (by simp) ?_ (by simp)
  rw [hstatus, Pi.single_sub]
  abel

theorem getValidatorByConsAddr_stored (h : getValidatorByConsAddr s consAddr = some v) :
    s.ledger.validators[v.operatorAddress]? = some v := by
  unfold getValidatorByConsAddr at h
  split at h
  · exact stored_of_lookup hs h
  · simp only [bind, Option.bind_eq_some_iff] at h
    obtain ⟨-, -, _, -, hv⟩ := h
    exact stored_of_lookup hs hv

theorem slashFound_effect (hsurplus : s.ledger.surplus = 0)
    (hv : s.ledger.validators[v.operatorAddress]? = some v) (hfactor : 0 ≤ slashFactor.i)
    {burned : Int}
    (h : k.slashFound ctx v infractionHeight slashFactor slashAmount s = .ok burned s') :
    Effect univ 0 0 s.ledger s'.ledger := by
  simp only [slashFound, bind_ok, reject_ok] at h
  obtain ⟨_, _, ⟨-, rfl⟩, _, _, h2, _, _, h3, h⟩ := h
  have hhook := callHook_ledger h2
  have e1 := slashScan_effect (hhook ▸ hs) (hhook ▸ hsurplus) hfactor h3
  rw [hhook] at e1
  split at h
  · obtain ⟨-, rfl⟩ := pure_ok.mp h
    exact e1.congr (subset_univ _) rfl rfl
  · simp only [bind_ok] at h
    obtain ⟨_, s4, h4, v', _, h5, h⟩ := h
    have hcall := callBeforeSlashed_ledger h4
    cases hpool : sendName v'.status with
    | none => simp [hpool, err] at h
    | some =>
      simp only [hpool, bind_ok, pure_ok] at h
      obtain ⟨_, _, h6, -, rfl⟩ := h
      have hv4 : s4.ledger.validators[v.operatorAddress]? = some v := by
        rw [hcall, e1.frame _ (by simp)]
        exact hv
      have e2 := burnValidatorTokens_effect (hcall ▸ e1.formed) hv4 h5 hpool h6
      rw [hcall] at e2
      exact (e1.trans e2).congr (subset_univ _) (by simp) (by simp)

/-- `Slash` burns from the pools exactly what it takes from the stake. -/
theorem slash_effect (hsurplus : s.ledger.surplus = 0) {power : Int}
    {burned : Int} (h : k.slash ctx consAddr infractionHeight power slashFactor s = .ok burned s') :
    Effect univ 0 0 s.ledger s'.ledger := by
  simp only [slash, steps] at h
  obtain ⟨_, hfactor, _, -, _, -, _, -, found, hfound, h⟩ := h
  have hfactor : 0 ≤ slashFactor.i := by simpa [LegacyDec.isNegative] using hfactor
  cases found with
  | none =>
    obtain ⟨-, rfl⟩ := pure_ok.mp h
    exact (refl hs).congr (empty_subset _) rfl rfl
  | some =>
    exact slashFound_effect hs hsurplus (getValidatorByConsAddr_stored hs hfound) hfactor h

theorem jail_effect (h : k.jail consAddr s = .ok u s') :
    Effect univ 0 0 s.ledger s'.ledger := by
  simp only [jail, steps] at h
  obtain ⟨_, hv, h⟩ := h
  exact (setJailed_effect hs (getValidatorByConsAddr_stored hs hv) (jailValidator_ledger h)).congr
    (subset_univ _) rfl rfl

theorem unjail_effect (h : k.unjail consAddr s = .ok u s') :
    Effect univ 0 0 s.ledger s'.ledger := by
  simp only [unjail, unjailValidator, steps] at h
  obtain ⟨v, hv, _, -, _, _, h3, h⟩ := h
  have hledger : s'.ledger = { s.ledger with
      validators := s.ledger.validators.insert v.operatorAddress { v with jailed := false } } := by
    rw [setValidatorByPowerIndex_ledger h, setValidator_ledger h3]
  exact (setJailed_effect hs (getValidatorByConsAddr_stored hs hv) hledger).congr
    (subset_univ _) rfl rfl

end

end CosmosSDK.Staking.Keeper
