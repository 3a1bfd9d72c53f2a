import CosmosSDK.Staking.Unbonding.Entries

/-!
# The end of unbonding

At the end of a block every entry that has matured is paid to its delegator and removed.
A pair can be in the queue more often than it has mature entries, and also when it has none
left; it is then met again without anything to pay.  The pool backs every entry, so no
payment stops halfway.
-/

namespace CosmosSDK.Staking

open Math Auth OrderedKV Stateful StakeLedger List State UnbondingDelegationEntry Except
open Fallible

def payouts (time : Time) (del : AccAddress) (entries : List UnbondingDelegationEntry) :
    Multiset (AccAddress × Int) :=
  Multiset.ofList ((entries.filter (fun e => e.isMature time && decide (e.balance ≠ 0))).map
    (fun e => (del, e.balance)))

def pending (time : Time) (entries : List UnbondingDelegationEntry) : List UnbondingDelegationEntry :=
  entries.filter (fun e => !e.isMature time)

def State.matured {X : Type} (s : State X) (time : Time) : Multiset (AccAddress × Int) :=
  total (fun _ u => payouts time u.delegatorAddress u.entries) s.unbondingDelegations

theorem payouts_pending (time : Time) (del : AccAddress) (entries : List UnbondingDelegationEntry) :
    payouts time del (pending time entries) = 0 := by
  simp_all [pending, payouts]

namespace Keeper

variable {X : Type} {k : Keeper X} {b : Accounts X} {s s' : State X}

/-! ## One pair -/

variable {time : Time} {del : AccAddress} {kept entries : List UnbondingDelegationEntry}
  {balances : Int}

theorem completeEntries_pays (hb : b.Serve k) {kept' : List UnbondingDelegationEntry}
    {balances' : Int}
    (h : k.completeEntries time del kept entries balances s = .ok (kept', balances') s') :
    kept' = kept ++ pending time entries ∧ s' = { s with pools := s'.pools, outside := s'.outside } ∧
      b.paid s'.outside = b.paid s.outside + payouts time del entries ∧
      ∀ a, b.registered s.outside a → b.registered s'.outside a := by
  induction entries generalizing kept balances s with
  | nil =>
    obtain ⟨hret, rfl⟩ := pure_ok.mp h
    obtain ⟨rfl, rfl⟩ := Prod.mk.inj hret
    exact ⟨(append_nil _).symm, rfl, (add_zero _).symm, fun _ ha => ha⟩
  | cons e entries ih =>
    rw [completeEntries] at h
    split at h
    · rename_i hmature
      have hpending : pending time (e :: entries) = pending time entries := by
        simp [pending, hmature]
      split at h
      · rename_i hzero
        have hpayouts : payouts time del (e :: entries) = payouts time del entries := by
          simp [payouts, hzero]
        rw [hpending, hpayouts]
        exact ih h
      · rename_i hzero
        have hpayouts : payouts time del (e :: entries) =
            {(del, e.balance)} + payouts time del entries := by
          simp [payouts, hmature, hzero]
        simp only [newBondCoin, undelegateCoinsFromModuleToAccount, transition_ok, steps] at h
        obtain ⟨_, -, _, _, h1, _, -, h⟩ := h
        split at h1
        · simp at h1
        · obtain ⟨_, hcoins, h1⟩ := bind_eq_ok.mp h1
          cases h1
          obtain ⟨hpaid, hregistered⟩ := hb.pays hcoins
          obtain ⟨hkept, hframe, hpaid', hregistered'⟩ := ih h
          refine ⟨by rw [hpending, hkept], hframe, ?_, fun a ha => hregistered' a (hregistered a ha)⟩
          rw [hpaid', hpayouts]
          rw [hpaid, add_assoc]
    · grind [pending, payouts]

/-- The pool can pay, so the loop stops at most with a panic. -/
theorem completeEntries_returns (hb : b.Serve k) {e : Fault StakingErr}
    (hdel : b.registered s.outside del) (hfunded : ∀ e ∈ entries, 0 ≤ e.balance)
    (hpool : (entries.map (fun e => e.balance)).sum ≤ s.pools .notBonded)
    (h : k.completeEntries time del kept entries balances s = .error e s') :
    isReturned e = false := by
  induction entries generalizing kept balances s with
  | nil => exact (pure_error.mp h).elim
  | cons entry entries ih =>
    rw [map_cons, sum_cons] at hpool
    obtain ⟨hbalance, hrest⟩ := forall_mem_cons.mp hfunded
    have hsum : 0 ≤ (entries.map fun e => e.balance).sum := by
      apply sum_nonneg
      intro x hx
      obtain ⟨e, he, rfl⟩ := mem_map.mp hx
      exact hrest e he
    rw [completeEntries] at h
    split at h
    · split at h
      · exact ih hdel hrest (by omega) h
      · simp only [newBondCoin, undelegateCoinsFromModuleToAccount, bind_error, reject_error, reject_ok,
          transition_error, transition_ok, lift_error, lift_ok] at h
        rcases h with ⟨-, rfl, -⟩ | ⟨_, _, ⟨-, rfl⟩, ⟨h, -⟩ | ⟨_, s1, h1, ⟨h, -⟩ | ⟨_, _, ⟨-, rfl⟩, h⟩⟩⟩
        · rfl
        · rw [if_neg (by omega)] at h
          rcases bind_eq_error.mp h with h | ⟨outside, -, h⟩
          · cases e with
            | panic => rfl
            | error => exact absurd h (hb.returns hdel (by omega))
          · simp at h
        · obtain ⟨_, rfl⟩ := inRange_error h
          rfl
        · rw [if_neg (by omega)] at h1
          obtain ⟨_, hcoins, h1⟩ := bind_eq_ok.mp h1
          cases h1
          refine ih ((hb.pays hcoins).2 del hdel) hrest ?_ h
          simp [withdraw]
          omega
    · exact ih hdel hrest (by omega) h

end Keeper

structure Accounts.Completes {X : Type} (b : Accounts X) (time : Time)
    (key : AccAddress × ValAddress) (s s' : State X) : Prop where
  others : ∀ key', key' ≠ key → s'.unbondingDelegations[key']? = s.unbondingDelegations[key']?
  stays : ∀ u', s'.unbondingDelegations[key]? = some u' → ∃ u, s.unbondingDelegations[key]? = some u ∧
    u' = { u with entries := pending time u.entries }
  queue : s'.unbondingQueue = s.unbondingQueue
  delegations : s'.delegations = s.delegations
  paid : b.paid s'.outside = b.paid s.outside +
    part (fun _ u => payouts time u.delegatorAddress u.entries) s.unbondingDelegations key
  registered : ∀ a, b.registered s.outside a → b.registered s'.outside a

namespace Accounts.Completes

variable {X : Type} {b : Accounts X} {time : Time} {key : AccAddress × ValAddress} {s s' : State X}

theorem paid_matured (h : b.Completes time key s s') :
    b.paid s'.outside + s'.matured time = b.paid s.outside + s.matured time := by
  have hnone : part (fun _ u => payouts time u.delegatorAddress u.entries) s'.unbondingDelegations key
      = 0 := by
    cases hu' : s'.unbondingDelegations[key]? with
    | none => exact part_of_none _ hu'
    | some u' =>
      obtain ⟨u, -, rfl⟩ := h.stays u' hu'
      rw [part_of_some _ hu']
      exact payouts_pending time _ _
  have hagree := total_agree (fun _ u => payouts time u.delegatorAddress u.entries) h.others
  rw [hnone, add_zero] at hagree
  rw [h.paid, add_assoc, matured, matured, ← hagree, add_comm (part _ _ _)]

end Accounts.Completes

namespace Keeper

variable {X : Type} {k : Keeper X} {b : Accounts X} {ctx : HeaderInfo} {s s' : State X}
  {u : UnbondingDelegation} {x : Unit} {c : Chain X}

/-- The pool of tokens that are not bonded holds the balance of every unbonding delegation. -/
theorem balance_le_pool (hs : s.ledger.Formed) (hgap : s.ledger.gap = 0)
    {key : AccAddress × ValAddress} (hu : s.unbondingDelegations[key]? = some u) :
    (u.entries.map (fun e => e.balance)).sum ≤ s.pools .notBonded := by
  have hpool := (hs.backed_iff.mpr hgap).notBonded
  have htokens : 0 ≤ s.ledger.tokensIn (fun status => status = .unbonding ∨ status = .unbonded) := by
    refine total_nonneg fun addr v hv => ?_
    split
    · exact (hs.validators addr v hv).solvent.tokens_nonneg
    · rfl
  have hbalances : ∀ (key : AccAddress × ValAddress) (u : UnbondingDelegation),
      s.ledger.unbondingDelegations[key]? = some u → 0 ≤ (u.entries.map fun e => e.balance).sum := by
    intro key u hu
    apply sum_nonneg
    intro x hx
    obtain ⟨e, he, rfl⟩ := mem_map.mp hx
    exact ((hs.unbonding key u hu).funded e he).1
  have hstored := hu
  have hle := le_total_of_nonneg hbalances hstored
  have hpools : s.pools .notBonded = s.ledger.pools .notBonded := rfl
  omega

theorem storeUnbondingDelegation_lookup (h : storeUnbondingDelegation u s = .ok x s') :
    (∀ key, s'.unbondingDelegations[key]? = if key = (u.delegatorAddress, u.validatorAddress)
      then if u.entries.isEmpty then none else some u else s.unbondingDelegations[key]?) ∧
    s'.unbondingQueue = s.unbondingQueue ∧ s'.delegations = s.delegations ∧
    s'.outside = s.outside := by
  unfold storeUnbondingDelegation removeUnbondingDelegation setUnbondingDelegation at h
  split at h
  · rename_i hentries
    simp only [bind_ok, update_ok] at h
    obtain ⟨_, _, rfl, rfl⟩ := h
    refine ⟨fun key => ?_, rfl, rfl, rfl⟩
    rw [if_pos hentries]
    exact lookup_erase _ _ key
  · rename_i hentries
    simp only [bind_ok, update_ok] at h
    obtain ⟨_, _, rfl, rfl⟩ := h
    refine ⟨fun key => ?_, rfl, rfl, rfl⟩
    rw [if_neg hentries]
    exact lookup_insert _ _ key _

theorem completeMatureUnbonding_completes (hb : b.Serve k) {pair : DVPair} (hs : s.ledger.Formed)
    (hgap : s.ledger.gap = 0) (howned : ∀ (key : AccAddress × ValAddress) (u : UnbondingDelegation),
      s.unbondingDelegations[key]? = some u → b.registered s.outside u.delegatorAddress)
    (h : k.completeMatureUnbonding ctx pair s = .ok x s') :
    b.Completes ctx.time (pair.delegatorAddress, pair.validatorAddress) s s' ∧
      s'.ledger.gap = 0 := by
  rcases recover_ok.mp h with ⟨amt, h⟩ | ⟨e, he, h⟩
  · have hgap' : s'.ledger.gap = 0 := by rw [(completeUnbonding_effect hs h).gap, hgap, add_zero]
    refine ⟨?_, hgap'⟩
    simp only [completeUnbonding, getUnbondingDelegation, pure_ok, steps] at h
    obtain ⟨u, hu, ⟨_, _⟩, s1, h1, _, _, h2, -, rfl⟩ := h
    obtain ⟨hkept, hframe, hpaid, hregistered⟩ := completeEntries_pays hb h1
    obtain ⟨hlookup, hqueue, hdelegations, houtside⟩ := storeUnbondingDelegation_lookup h2
    have hkey := (hs.unbonding _ u hu).key_eq
    have hunbonding : s1.unbondingDelegations = s.unbondingDelegations := by rw [hframe]
    rw [hkey, hunbonding] at hlookup
    refine ⟨fun key hne => ?_, fun u' hu' => ⟨u, hu, ?_⟩, ?_, ?_, ?_, ?_⟩
    · rw [hlookup, if_neg hne]
    · rw [hlookup, if_pos rfl] at hu'
      split at hu'
      · simp at hu'
      · rw [← Option.some.inj hu', hkept, nil_append]
    · rw [hqueue, hframe]
    · rw [hdelegations, hframe]
    · rw [houtside, hpaid, part_of_some _ hu]
    · rw [houtside]
      exact hregistered
  · simp only [completeUnbonding, getUnbondingDelegation, bind_error, find_error, find_ok, pure_error,
      storeUnbondingDelegation_error, and_false, exists_false, or_false] at h
    rcases h with ⟨hnone, -, rfl⟩ | ⟨u, _, ⟨hu, rfl⟩, h⟩
    · refine ⟨⟨fun _ _ => rfl, fun u' hu' => ?_, rfl, rfl, ?_, fun _ ha => ha⟩, hgap⟩
      · rw [hnone] at hu'
        simp at hu'
      · rw [part_of_none _ hnone, add_zero]
    · have hdel := howned _ u hu
      have hfunded : ∀ e ∈ u.entries, 0 ≤ e.balance := fun e he =>
        ((hs.unbonding _ u hu).funded e he).1
      have hpanic := completeEntries_returns hb hdel hfunded (balance_le_pool hs hgap hu) h
      rw [hpanic] at he
      simp at he

/-! ## The walk over the queue -/

/-- The entries that have matured belong to pairs that are still to come; the others are in
the queue. -/
structure Due (b : Accounts X) (time : Time) (due : Multiset (AccAddress × Int)) (pairs : List DVPair)
    (s : State X) : Prop where
  sound : s.Sound
  gap : s.ledger.gap = 0
  delegating : b.Delegating s
  owned : ∀ (key : AccAddress × ValAddress) (u : UnbondingDelegation),
    s.unbondingDelegations[key]? = some u → b.registered s.outside u.delegatorAddress
  mature : ∀ (key : AccAddress × ValAddress) (u : UnbondingDelegation),
    s.unbondingDelegations[key]? = some u → ∀ e ∈ u.entries, e.completionTime ≤ time →
      ⟨key.1, key.2⟩ ∈ pairs
  later : ∀ (key : AccAddress × ValAddress) (u : UnbondingDelegation),
    s.unbondingDelegations[key]? = some u → ∀ e ∈ u.entries, time < e.completionTime →
      ⟨key.1, key.2⟩ ∈ s.queued e.completionTime
  due : b.paid s.outside + s.matured time = due

namespace Due

variable {time : Time} {due : Multiset (AccAddress × Int)} {pairs : List DVPair}

theorem step (hb : b.Serve k) {pair : DVPair} (hs : Due b ctx.time due (pair :: pairs) s)
    (h : k.completeMatureUnbonding ctx pair s = .ok x s') : Due b ctx.time due pairs s' := by
  obtain ⟨hcompletes, hgap⟩ :=
    completeMatureUnbonding_completes hb hs.sound.formed hs.gap hs.owned h
  -- the record of the pair that stays has no mature entries; the others are as before
  have hcases : ∀ (key : AccAddress × ValAddress) (u' : UnbondingDelegation),
      s'.unbondingDelegations[key]? = some u' →
      ∃ u, s.unbondingDelegations[key]? = some u ∧ u'.delegatorAddress = u.delegatorAddress ∧
        ∀ e ∈ u'.entries, e ∈ u.entries ∧
          (key = (pair.delegatorAddress, pair.validatorAddress) → ctx.time < e.completionTime) := by
    intro key u' hu'
    by_cases hkey : key = (pair.delegatorAddress, pair.validatorAddress)
    · rw [hkey] at hu'
      obtain ⟨u, hu, rfl⟩ := hcompletes.stays u' hu'
      refine ⟨u, hkey ▸ hu, rfl, fun e he => ?_⟩
      obtain ⟨hmem, hpending⟩ := mem_filter.mp he
      refine ⟨hmem, fun _ => ?_⟩
      simpa [isMature] using hpending
    · rw [hcompletes.others key hkey] at hu'
      exact ⟨u', hu', rfl, fun e he => ⟨he, fun heq => absurd heq hkey⟩⟩
  refine ⟨completeMatureUnbonding_sound hs.sound h, hgap, ?_, ?_, ?_, ?_, ?_⟩
  · intro key d hd
    rw [hcompletes.delegations] at hd
    exact hcompletes.registered _ (hs.delegating key d hd)
  · intro key u' hu'
    obtain ⟨u, hu, hdel, -⟩ := hcases key u' hu'
    rw [hdel]
    exact hcompletes.registered _ (hs.owned key u hu)
  · intro key u' hu' e he hmature
    obtain ⟨u, hu, -, hentries⟩ := hcases key u' hu'
    obtain ⟨hmem, hlater⟩ := hentries e he
    have hpairs := hs.mature key u hu e hmem hmature
    refine (mem_cons.mp hpairs).resolve_left fun heq => ?_
    have hkey : key = (pair.delegatorAddress, pair.validatorAddress) := by rw [← heq]
    exact absurd hmature (not_le.mpr (hlater hkey))
  · intro key u' hu' e he hlater
    obtain ⟨u, hu, -, hentries⟩ := hcases key u' hu'
    rw [queued, hcompletes.queue]
    exact hs.later key u hu e (hentries e he).1 hlater
  · rw [hcompletes.paid_matured, hs.due]

theorem paid (hs : Due b time due [] s) : b.paid s.outside = due := by
  have hnone : s.matured time = 0 := by
    have hzero : s.matured time = total (fun _ _ => 0) s.unbondingDelegations := by
      refine total_congr fun key u hu => ?_
      have hpending : pending time u.entries = u.entries := by
        refine filter_eq_self.mpr fun e he => ?_
        have hnot : ¬ e.completionTime ≤ time := fun hle => by simpa using hs.mature key u hu e he hle
        simp [isMature, hnot]
      rw [← hpending, payouts_pending]
    rw [hzero, total]
    simp
  rw [← hs.due, hnone, add_zero]

end Due

theorem dequeueAllMatureUBDQueue_ok {time : Time} {pairs : List DVPair}
    (h : dequeueAllMatureUBDQueue time s = .ok pairs s') :
    s' = { s with unbondingQueue := s'.unbondingQueue } ∧
    (∀ t pair, t ≤ time → pair ∈ s.queued t → pair ∈ pairs) ∧
    ∀ t, time < t → s'.queued t = s.queued t := by
  simp only [dequeueAllMatureUBDQueue, update_ok, pure_ok, steps] at h
  obtain ⟨_, rfl, _, _, rfl, rfl, rfl⟩ := h
  refine ⟨rfl, fun t pair ht hpair => ?_, fun t ht => ?_⟩
  · cases hslice : s.unbondingQueue[t]? with
    | none =>
      rw [queued, hslice] at hpair
      simp at hpair
    | some slice =>
      rw [queued, hslice] at hpair
      refine mem_flatMap.mpr ⟨(t, slice), mem_filter.mpr ⟨?_, by simpa using ht⟩, hpair⟩
      exact Std.ExtTreeMap.mem_toList_iff_getElem?_eq_some.mpr hslice
  · rw [queued, queued]
    rw [lookup_foldl_erase, if_neg]
    intro hmem
    obtain ⟨slice, hslice, rfl⟩ := mem_map.mp hmem
    have hle : slice.1 ≤ time := by simpa using (mem_filter.mp hslice).2
    exact absurd hle (not_le.mpr ht)

/-! ## The end of a block -/

/-- A mature redelegation changes nothing here, also when it is skipped. -/
theorem completeMatureRedelegation_keeps {triplet : DVVTriplet} (hs : s.ledger.Formed)
    (h : completeMatureRedelegation ctx triplet s = .ok x s') :
    b.Apart s s' ∧ Effect ∅ 0 0 s.ledger s'.ledger := by
  rcases recover_ok.mp h with ⟨amt, h⟩ | ⟨e, -, h⟩
  · exact ⟨(completeRedelegation_apart _ _ _).ok h, completeRedelegation_effect hs h⟩
  · rw [completeRedelegation_error h]
    exact ⟨.refl, Effect.refl hs⟩

theorem tended_iff_records : b.Tended s ↔ b.Delegating s ∧
    ∀ (key : AccAddress × ValAddress) (u : UnbondingDelegation), s.unbondingDelegations[key]? = some u →
      b.registered s.outside u.delegatorAddress ∧
      ∀ e ∈ u.entries, ⟨key.1, key.2⟩ ∈ s.queued e.completionTime := by
  constructor
  · intro hs
    refine ⟨hs.delegating, fun key u hu => ?_⟩
    have houtline : s.outlineAt key = some u.outline := by
      rw [outlineAt, hu]
      rfl
    refine ⟨hs.owned key u.outline houtline, fun e he => ?_⟩
    exact hs.covered key e.mark ⟨u.outline, houtline, mem_map_of_mem he⟩
  · rintro ⟨hdelegating, hrecords⟩
    refine ⟨hdelegating, fun key outline houtline => ?_, ?_⟩
    · obtain ⟨u, hu, rfl⟩ := Option.map_eq_some_iff.mp houtline
      exact (hrecords key u hu).1
    · rintro key mark ⟨outline, houtline, hmark⟩
      obtain ⟨u, hu, rfl⟩ := Option.map_eq_some_iff.mp houtline
      obtain ⟨e, he, rfl⟩ := mem_map.mp hmark
      exact (hrecords key u hu).2 e he

theorem blockValidatorUpdates_pays (hb : b.Serve k) {updates : List ValidatorUpdate} (hs : s.Sound)
    (hgap : s.ledger.gap = 0) (htended : b.Tended s)
    (h : k.blockValidatorUpdates ctx s = .ok updates s') : b.Tended s' ∧ s'.ledger.gap = 0 ∧
      (∀ (key : AccAddress × ValAddress) (u : UnbondingDelegation),
        s'.unbondingDelegations[key]? = some u → ∀ e ∈ u.entries, ctx.time < e.completionTime) ∧
      b.paid s'.outside = b.paid s.outside + s.matured ctx.time := by
  obtain ⟨_, s2, h1, h2, h⟩ := blockValidatorUpdates_tail h
  have e1 := applyAndReturnValidatorSetUpdates_effect hs.formed h1
  have e2 := unbondAllMatureValidators_effect e1.formed h2
  have hs2 : s2.Sound := (hs.of_effect e1).of_effect e2
  have hgap2 : s2.ledger.gap = 0 := by rw [e2.gap, e1.gap, hgap, add_zero, add_zero]
  have hapart : b.Apart s s2 := ((applyAndReturnValidatorSetUpdates_apart hb).ok h1).trans
    ((unbondAllMatureValidators_apart hb).ok h2)
  simp only [bind_ok] at h
  obtain ⟨pairs, s3, h3, _, s4, h4, _, _, h5, _, s6, h6, h⟩ := h
  -- the queue is taken first, and then its pairs are completed one by one
  obtain ⟨hframe, hmature, hlater⟩ := dequeueAllMatureUBDQueue_ok h3
  obtain ⟨hdelegating, hrecords⟩ := tended_iff_records.mp
    ((Accounts.Charged.of_apart hapart).tended htended)
  have hunbonding : s3.unbondingDelegations = s2.unbondingDelegations := by rw [hframe]
  have houtside : s3.outside = s2.outside := by rw [hframe]
  have hdelegations : s3.delegations = s2.delegations := by rw [hframe]
  have hledger : s3.ledger = s2.ledger := by rw [hframe]; rfl
  have hdue : Due b ctx.time (b.paid s.outside + s.matured ctx.time) pairs s3 := by
    refine ⟨hs2.of_eq hledger, hledger ▸ hgap2, ?_, ?_, ?_, ?_, ?_⟩
    · unfold Accounts.Delegating
      rw [hdelegations, houtside]
      exact hdelegating
    · rw [hunbonding, houtside]
      exact fun key u hu => (hrecords key u hu).1
    · rw [hunbonding]
      exact fun key u hu e he hle => hmature _ _ hle ((hrecords key u hu).2 e he)
    · rw [hunbonding]
      intro key u hu e he hlt
      rw [hlater _ hlt]
      exact (hrecords key u hu).2 e he
    · rw [matured, hunbonding, houtside, hapart.unbonding, hapart.outside.paid]
      rfl
  have hdone := forM_induct
      (fun pair l t t' hI hstep => hI.step hb hstep) h4 hdue
  -- redelegations and key rotations follow
  simp only [dequeueAllMatureRedelegationQueue, bind_ok, load_ok, update_ok, pure_ok] at h5
  obtain ⟨_, _, ⟨-, rfl⟩, _, _, rfl, -, rfl⟩ := h5
  obtain ⟨hapart6, _, hgap6⟩ := forM_induct
    (I := fun _ t => b.Apart s4 t ∧ t.ledger.Formed ∧ t.ledger.gap = 0)
    (fun triplet l t t' hI hstep => by
      obtain ⟨happart', e⟩ := completeMatureRedelegation_keeps hI.2.1 hstep
      exact ⟨hI.1.trans happart', e.formed, by rw [e.gap, hI.2.2, add_zero]⟩)
    h6 ⟨.of_eq rfl rfl rfl rfl, hdone.sound.formed, hdone.gap⟩
  have hpurge : b.Apart s6 s' := (purgeAllMaturedConsKeyRotatedKeys_apart _).ok h
  have hrest : b.Apart s4 s' := hapart6.trans hpurge
  have hnone : ∀ (key : AccAddress × ValAddress) (u : UnbondingDelegation),
      s4.unbondingDelegations[key]? = some u → ∀ e ∈ u.entries, ctx.time < e.completionTime :=
    fun key u hu e he => not_le.mp fun hle => by simpa using hdone.mature key u hu e he hle
  refine ⟨(Accounts.Charged.of_apart hrest).tended ?_, ?_, ?_, ?_⟩
  · exact tended_iff_records.mpr ⟨hdone.delegating, fun key u hu =>
      ⟨hdone.owned key u hu, fun e he => hdone.later key u hu e he (hnone key u hu e he)⟩⟩
  · rw [(purgeAllMaturedConsKeyRotatedKeys_ledger _).ok h]
    exact hgap6
  · rw [hrest.unbonding]
    exact hnone
  · rw [hrest.outside.paid]
    exact hdone.paid

/-! ## Runs -/

/-- Unbonding delegations are well kept and the pools back the stake. -/
structure Kept (b : Accounts X) (c : Chain X) : Prop where
  tended : b.Tended c.state
  gap : c.state.ledger.gap = 0

variable {step : Step}

theorem advance_inBlock
    (hstep : ∀ heights duration, step ≠ .endBlock heights duration) :
    k.advance step c = (none, c) ∨ ∃ u s, k.callStep c.header c.state.params step c.state = .ok u s ∧
      k.advance step c = (none, { c with state := s }) := by
  cases step <;> grind [advance]

theorem advance_tends (hb : b.Serve k) (hc : c.state.Sound)
    (htended : b.Tended c.state) (hstep : ∀ heights duration, step ≠ .endBlock heights duration) :
    b.Tends step.cancelled c.state (k.advance step c).2.state := by
  rcases advance_inBlock hstep with h | ⟨u, s, hcall, h⟩
  · rw [h]
    exact Accounts.Apart.refl.tends htended
  · rw [h]
    exact callStep_tends hb hc.formed htended hcall

theorem callStep_effect {header : HeaderInfo} {params : Params} {u : Unit}
    (hs : s.Sound) (h : k.callStep header params step s = .ok u s') :
    Effect Set.univ 0 0 s.ledger s'.ledger := by
  cases step with
  | execute => exact exec_effect hs.formed hs.surplus h
  | updateParams =>
    exact (updateParams_changes hs.formed h).2
  | endBlock =>
    obtain ⟨-, rfl⟩ := pure_ok.mp h
    exact (Effect.refl hs.formed).congr (Set.subset_univ _) rfl rfl

theorem advance_kept (hb : b.Serve k) (step : Step) (hc : c.state.Sound) (hkept : Kept b c) :
    Kept b (k.advance step c).2 := by
  by_cases hstep : ∀ heights duration, step ≠ .endBlock heights duration
  · refine ⟨(advance_tends hb hc hkept.tended hstep).tended, ?_⟩
    rcases advance_inBlock hstep with h | ⟨u, s, hcall, h⟩
    · rw [h]
      exact hkept.gap
    · rw [h]
      exact (callStep_effect hc hcall).gap.trans (by rw [hkept.gap, add_zero])
  · push Not at hstep
    obtain ⟨_, _, rfl⟩ := hstep
    cases h : k.blockValidatorUpdates c.header c.state with
    | ok =>
      obtain ⟨htended, hgap, -⟩ := blockValidatorUpdates_pays hb hc hkept.gap hkept.tended h
      simp only [advance, h]
      exact ⟨htended, hgap⟩
    | error =>
      simp only [advance, h]
      exact hkept

theorem genesis_kept (header : HeaderInfo) (params : Params) (outside : X) :
    Kept b (.genesis header params outside) := by
  refine ⟨tended_iff_records.mpr ⟨?_, ?_⟩, ?_⟩
  · intro key d hd
    simp [Chain.genesis, genesis] at hd
  · intro key u hu
    simp [Chain.genesis, genesis] at hu
  · simp [Chain.genesis, genesis, ledger, gap, tokens, unbonding, total_empty]

/-- What holds of unbonding delegations in a block. -/
structure UnbondingKept (k : Keeper X) (b : Accounts X) (c : Chain X) : Prop where
  /-- every entry is in the queue at its completion time, with a balance in range -/
  entries : ∀ (key : AccAddress × ValAddress) (u : UnbondingDelegation),
    c.state.unbondingDelegations[key]? = some u → ∀ e ∈ u.entries,
      ⟨key.1, key.2⟩ ∈ c.state.queued e.completionTime ∧
      0 ≤ e.balance ∧ e.balance ≤ e.initialBalance
  /-- steps inside the block pay nothing, and only a cancellation takes an entry away -/
  inBlock : ∀ step : Step, (∀ heights duration, step ≠ .endBlock heights duration) →
    b.paid (k.advance step c).2.state.outside = b.paid c.state.outside ∧
    ∀ key mark, (key, mark.1) ∉ step.cancelled → c.state.Waits key mark →
      (k.advance step c).2.state.Waits key mark
  /-- the end of the block pays every entry that has matured, once, and removes it -/
  endBlock : ∀ updates s', k.blockValidatorUpdates c.header c.state = .ok updates s' →
    b.paid s'.outside = b.paid c.state.outside + c.state.matured c.header.time ∧
    ∀ (key : AccAddress × ValAddress) (u : UnbondingDelegation),
      s'.unbondingDelegations[key]? = some u → ∀ e ∈ u.entries, c.header.time < e.completionTime

/-- Unbonding delegations are kept in every block that is reached. -/
theorem reached_unbondingKept {X : Type} (k : Keeper X) (b : Accounts X) (hb : b.Serve k)
    (header : HeaderInfo) (params : Params) (outside : X) (steps : List Step) :
    UnbondingKept k b (k.reached steps (.genesis header params outside)) := by
  obtain ⟨hsound, hkept⟩ := reached_genesis
    (fun step c hc hkept => advance_kept hb step hc hkept) steps (genesis_kept header params outside)
  generalize k.reached steps (.genesis header params outside) = c at *
  obtain ⟨-, hrecords⟩ := tended_iff_records.mp hkept.tended
  refine ⟨fun key u hu e he => ?_, fun step hstep => ?_, fun updates s' h => ?_⟩
  · exact ⟨(hrecords key u hu).2 e he, (hsound.formed.unbonding key u hu).funded e he⟩
  · have htends := advance_tends hb hsound hkept.tended hstep
    exact ⟨htends.paid, htends.waits⟩
  · obtain ⟨-, -, hnone, hpaid⟩ := blockValidatorUpdates_pays hb hsound hkept.gap hkept.tended h
    exact ⟨hpaid, hnone⟩

def payingKeeper : Keeper (List (AccAddress × Int)) where
  powerReduction := 1
  consAddress pk := pk.bytes
  hooks _ s := .ok s.outside
  delegateCoins paid _ _ := .ok paid
  undelegateCoins paid del amt := .ok ((del, amt) :: paid)
  sendRotationFee paid _ _ := .ok paid
  validatorPubKeyTypes _ := .ok (some ["secp256k1"])
  validateDenom _ := true
  parseRequestURI _ := true

def openAccounts : Accounts (List (AccAddress × Int)) := ⟨fun _ _ => True, Multiset.ofList⟩

theorem openAccounts_serve : openAccounts.Serve payingKeeper where
  delegates h := ⟨trivial, by rw [← ok.inj h]; exact .refl⟩
  pays {paid _ del amt} h := by
    rw [← ok.inj h]
    refine ⟨?_, fun _ _ => trivial⟩
    rw [add_comm, Multiset.singleton_add]
    rfl
  returns _ _ := by simp [payingKeeper]
  hooks h := by rw [← ok.inj h]; exact .refl
  fees h := by rw [← ok.inj h]; exact .refl

/-- A delegation is withdrawn twice in one block and once in the next, and one of the entries
is cancelled in part; a slash reaches what is left. -/
def withdrawnRun : List Step :=
  [enter [1] 100, enter [2] 50, .execute ⟨.delegate ⟨[7], [1], ⟨[1], 40⟩⟩, rfl⟩, .endBlock 0 0,
    .execute ⟨.undelegate ⟨[7], [1], ⟨[1], 6⟩⟩, rfl⟩, .execute ⟨.undelegate ⟨[7], [1], ⟨[1], 4⟩⟩, rfl⟩,
    .endBlock 0 1, .execute ⟨.undelegate ⟨[7], [1], ⟨[1], 5⟩⟩, rfl⟩,
    .execute ⟨.cancelUnbondingDelegation ⟨[7], [1], ⟨[1], 2⟩, 2⟩, rfl⟩,
    .execute ⟨.slash [1] 2 100 ⟨500000000000000000⟩, rfl⟩, .endBlock 0 20]

theorem reached_unbondingKept_withdrawnRun : UnbondingKept payingKeeper openAccounts
      (payingKeeper.reached withdrawnRun (.genesis ⟨1, 1⟩ emptyState.params [])) ∧
    (payingKeeper.reached (withdrawnRun ++ [.endBlock 0 0])
      (.genesis ⟨1, 1⟩ emptyState.params [])).state.outside = [([7], 3), ([7], 4)] :=
  ⟨reached_unbondingKept payingKeeper openAccounts openAccounts_serve ⟨1, 1⟩ emptyState.params []
    withdrawnRun, by decide +kernel⟩

end Keeper

end CosmosSDK.Staking
