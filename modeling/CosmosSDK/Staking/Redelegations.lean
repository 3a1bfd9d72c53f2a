import CosmosSDK.Staking.Registry.Transactions
import CosmosSDK.Staking.Runs

/-!
# When a redelegation completes

`BeginRedelegation` asks for the status of the source validator behind `Unbond`, which may have
removed its record.
-/

namespace CosmosSDK.Staking

open Store Math Auth OrderedKV Stateful Fallible State

variable {X : Type} {k : Keeper X} {ctx : HeaderInfo} {s s' : State X} {del : AccAddress}
  {src dst : ValAddress} {shares : LegacyDec} {time : Time} {v : Validator}

/-- What neither `Unbond` nor `Delegate` writes. -/
def State.moves (s : State X) :
    Params × OrdMap (AccAddress × ValAddress × ValAddress) Redelegation :=
  (s.params, s.redelegations)

namespace Keeper

theorem callHook_moves (call : HookCall) : Keeps (moves (X := X)) (k.callHook call) := by
  refine .transition fun s s' h => ?_
  obtain ⟨_, _, h⟩ := bind_eq_ok.mp h
  cases h
  rfl

theorem sendBetweenPools_moves (sender recipient : Pool) (tokens : Int) :
    Keeps (moves (X := X)) (sendBetweenPools sender recipient tokens) := by
  refine .bind (.reject _ _) fun _ => .transition fun s s' h => ?_
  obtain ⟨_, h⟩ := refuse_eq_ok.mp h
  cases h
  rfl

theorem deleteValidatorByPowerIndex_moves (v : Validator) :
    Keeps (moves (X := X)) (k.deleteValidatorByPowerIndex v) :=
  .bind (.lift _) fun _ => .update fun _ => rfl

theorem setValidatorByPowerIndex_moves (v : Validator) :
    Keeps (moves (X := X)) (k.setValidatorByPowerIndex v) :=
  .ite (.pure _) (.bind (.lift _) fun _ => .update fun _ => rfl)

theorem setDelegation_moves (d : Delegation) : Keeps (moves (X := X)) (setDelegation d) :=
  .bind (.update fun _ => rfl) fun _ => .update fun _ => rfl

theorem removeValidator_moves (addr : ValAddress) :
    Keeps (moves (X := X)) (k.removeValidator addr) := by
  refine .bind (.load _) fun found => ?_
  cases found with
  | none => exact .pure _
  | some v =>
    exact .bind (.reject _ _) fun _ => .bind (.reject _ _) fun _ => .bind (.update fun _ => rfl) fun _ =>
      .bind (.update fun _ => rfl) fun _ => .bind (deleteValidatorByPowerIndex_moves v) fun _ =>
        callHook_moves _

theorem unbond_moves (del : AccAddress) (val : ValAddress) (shares : LegacyDec) :
    Keeps (moves (X := X)) (k.unbond del val shares) := by
  have hjail (d : Delegation) (v : Validator) : Keeps moves (k.jailBelowMinimum d v) :=
    .ite (.bind (.lift _) fun _ => .bind (.lift _) fun _ => .ite (.bind (.bind (.reject _ _) fun _ =>
      .bind (.update fun _ => rfl) fun _ => deleteValidatorByPowerIndex_moves _) fun _ => .find _ _)
        (.pure _)) (.pure _)
  have hstore (d : Delegation) : Keeps moves (k.storeRemainingShares d) :=
    .ite (.bind (callHook_moves _) fun _ => .bind (.update fun _ => rfl) fun _ => .update fun _ => rfl)
      (.bind (setDelegation_moves d) fun _ => callHook_moves _)
  have hremove (v : Validator) : Keeps moves (k.removeValidatorTokensAndShares v shares) :=
    .bind (deleteValidatorByPowerIndex_moves v) fun _ => .bind (.lift _) fun _ =>
      .bind (.update fun _ => rfl) fun _ => .bind (setValidatorByPowerIndex_moves _) fun _ => .pure _
  exact .bind (.find _ _) fun _ => .bind (callHook_moves _) fun _ => .bind (.reject _ _) fun _ =>
    .bind (.find _ _) fun _ => .bind (.lift _) fun _ => .bind (hjail _ _) fun _ =>
      .bind (hstore _) fun _ => .bind (hremove _) fun _ =>
        .ite (.bind (removeValidator_moves _) fun _ => .pure _) (.pure _)

theorem delegate_moves (del : AccAddress) (amt : Int) (status : BondStatus) (v : Validator) :
    Keeps (moves (X := X)) (k.delegate del amt status v false) := by
  have hcoins : Keeps moves (k.moveDelegatedCoins del amt status v false) := by
    unfold moveDelegatedCoins
    rw [if_neg (by simp)]
    split <;> first | exact .pure _ | exact .fail _ | exact sendBetweenPools_moves _ _ _
  have hadd : Keeps moves (k.addValidatorTokensAndShares v amt) :=
    .bind (deleteValidatorByPowerIndex_moves v) fun _ => .bind (.lift _) fun _ =>
      .bind (.update fun _ => rfl) fun _ => .bind (setValidatorByPowerIndex_moves _) fun _ => .pure _
  exact .bind (.reject _ _) fun _ => .bind (.load _) fun _ => .bind (callHook_moves _) fun _ =>
    .bind hcoins fun _ => .bind hadd fun _ => .bind (.lift _) fun _ =>
      .bind (setDelegation_moves _) fun _ => .bind (callHook_moves _) fun _ => .pure _

def EntryAdded (s s' : State X) (key : AccAddress × ValAddress × ValAddress) (time : Time) : Prop :=
  ∃ red entry, s'.redelegations[key]? = some red ∧ entry.completionTime = time ∧
    red.entries = ((s.redelegations[key]?).map Redelegation.entries).getD [] ++ [entry]

/-- How a redelegation completes by the status of its source before the call. -/
def CompletesBy (ctx : HeaderInfo) (s s' : State X) (key : AccAddress × ValAddress × ValAddress)
    (v : Validator) : Prop :=
  match v.status with
  | .bonded => EntryAdded s s' key (ctx.time + s.params.unbondingTime)
  | .unbonding => EntryAdded s s' key v.unbondingTime
  | .unbonded => s'.redelegations = s.redelegations
  | .unspecified => False

theorem beginRedelegation_ok (hs : s.ledger.Formed) (hsurplus : s.ledger.surplus = 0)
    (hshares : 0 ≤ shares.i) (hv : s.validators[src]? = some v)
    (h : k.beginRedelegation ctx del src dst shares s = .ok time s') :
    ∃ (s2 : State X) (begin : BeginInfo), s2.params = s.params ∧ Remains v shares s2.validators[src]? ∧
      getBeginInfo ctx s2 src = .ok begin ∧
      if begin.completeNow then s'.redelegations = s.redelegations
      else EntryAdded s s' (del, src, dst) begin.completionTime := by
  simp only [beginRedelegation, steps] at h
  obtain ⟨_, hne, dstV, hdst, srcV, -, _, -, _, -, _, -, _, -, amt, s1, h1, _, -, _, s2, h2,
    begin, _, ⟨_, rfl, hbegin, rfl⟩, h⟩ := h
  obtain ⟨v', hv', -, -, hremains⟩ := unbond_effect hs hsurplus hshares h1
  obtain rfl : v = v' := Option.some.inj (hv.symm.trans hv')
  obtain ⟨hparams, hreds⟩ := Prod.mk.inj (((delegate_moves del amt srcV.status dstV).ok h2).trans
    ((unbond_moves del src shares).ok h1))
  -- the destination is another validator
  have hsrc : s2.validators[src]? = s1.validators[src]? := by
    obtain ⟨_, _, -, hregistry⟩ := delegate_restakes h2
    have hkey : dstV.operatorAddress = dst := hs.keyed dst dstV hdst
    rw [show s2.validators = _ from congrArg Registry.validators hregistry]
    simp only [Registry.rewrite, lookup_insert, hkey, if_neg hne]
    rfl
  refine ⟨s2, begin, hparams, hsrc ▸ hremains, hbegin, ?_⟩
  split at h
  next hnow => rw [if_pos hnow, ← (pure_ok.mp h).2, hreds]
  next hlater =>
    rw [if_neg hlater]
    simp only [setRedelegationEntry, setRedelegation, insertRedelegationQueue, update_ok, pure_ok,
      steps] at h
    obtain ⟨red, _, ⟨_, rfl, _, _, rfl, rfl, rfl⟩, _, _, rfl, -, rfl⟩ := h
    have hold : ∀ old, old = (s2.redelegations[(del, src, dst)]?).getD ⟨del, src, dst, []⟩ →
        (old.delegatorAddress, old.validatorSrcAddress, old.validatorDstAddress) = (del, src, dst) ∧
        old.entries = ((s.redelegations[(del, src, dst)]?).map Redelegation.entries).getD [] := by
      rintro old rfl
      rw [hreds]
      cases hfound : s.redelegations[(del, src, dst)]? with
      | none => exact ⟨rfl, rfl⟩
      | some red => exact ⟨(hs.redelegations _ red hfound).key_eq, rfl⟩
    obtain ⟨hkey, hentries⟩ := hold _ rfl
    exact ⟨_, _, by dsimp only; rw [hkey, lookup_insert, if_pos rfl], rfl, by rw [← hentries]⟩

/-- A redelegation completes by the status of its source, unless it takes the last shares of an
unbonded one. -/
theorem beginRedelegation_completesBy_iff (hs : s.ledger.Formed) (hsurplus : s.ledger.surplus = 0)
    (hshares : 0 ≤ shares.i) (hv : s.validators[src]? = some v)
    (h : k.beginRedelegation ctx del src dst shares s = .ok time s') :
    CompletesBy ctx s s' (del, src, dst) v ↔
      ¬ (v.status = .unbonded ∧ v.delegatorShares.i = shares.i) := by
  obtain ⟨s2, _, hparams, hremains, hbegin, hentry⟩ := beginRedelegation_ok hs hsurplus hshares hv h
  unfold getBeginInfo at hbegin
  unfold CompletesBy
  cases hafter : s2.validators[src]? with
  | none =>
    rw [hafter] at hbegin hremains
    cases hbegin
    obtain ⟨_, _, hred, -, hentries⟩ := hentry
    refine iff_of_false ?_ (not_not_intro hremains)
    rw [hremains.1]
    intro hsame
    rw [← hsame, hred] at hentries
    exact absurd (congrArg List.length hentries) (by simp)
  | some =>
    rw [hafter] at hbegin hremains
    obtain ⟨hstatus, htime, hleft⟩ := hremains
    refine iff_of_true ?_ hleft
    cases hcase : v.status <;> simp only [hstatus, hcase] at hbegin <;> cases hbegin
    · exact hentry
    · exact htime ▸ hentry
    · exact hparams ▸ hentry

def firstAddr : Bytes := [1]

/-- Two validators that were created in this block, before they are bonded. -/
def twoValidators : State Unit :=
  (plainKeeper.attempt (⟨1, 1⟩, .createValidator (newValidatorMsg [2] 50))
    (plainKeeper.attempt (⟨1, 1⟩, .createValidator (newValidatorMsg [1] 100)) emptyState).2).2

/-- A part of the stake moves at once. -/
theorem partOfShares_completes : ∃ time s' v, twoValidators.validators[firstAddr]? = some v ∧
      plainKeeper.beginRedelegation ⟨1, 1⟩ firstAddr firstAddr [2] ⟨40 * 10 ^ 18⟩ twoValidators = .ok time s' ∧
      CompletesBy ⟨1, 1⟩ twoValidators s' (firstAddr, firstAddr, [2]) v := by
  obtain ⟨hformed, hsurplus⟩ : twoValidators.ledger.Formed ∧ twoValidators.ledger.surplus = 0 :=
    attempt_invariant _ (attempt_invariant _
      ⟨emptyState_formed, emptyState_formed.sharesMatch_iff.mp emptyState_sharesMatch⟩)
  obtain ⟨time, s', h, -⟩ := ok_of_check (p := fun _ _ => true)
    (r := plainKeeper.beginRedelegation ⟨1, 1⟩ firstAddr firstAddr [2] ⟨40 * 10 ^ 18⟩ twoValidators) (by decide +kernel)
  have hshares : (twoValidators.validators[firstAddr]?).map (fun v => v.delegatorShares.i) =
      some (100 * 10 ^ 18) := by decide +kernel
  obtain ⟨v, hv, htotal⟩ := Option.map_eq_some_iff.mp hshares
  refine ⟨time, s', v, hv, h, (beginRedelegation_completesBy_iff hformed hsurplus (by decide) hv h).mpr ?_⟩
  rintro ⟨-, hlast⟩
  rw [htotal] at hlast
  exact absurd hlast (by decide)

/-- All of it waits in an entry that completes in year 1. -/
theorem lastShares_wait :
    (twoValidators.validators[firstAddr]?).map Validator.status = some .unbonded ∧
      check (fun _ s' => s'.redelegations.toList.map (fun e =>
          e.2.entries.map RedelegationEntry.completionTime) = [[zeroTime]])
        (plainKeeper.beginRedelegation ⟨1, 1⟩ firstAddr firstAddr [2] ⟨100 * 10 ^ 18⟩ twoValidators) = true := by
  decide +kernel

end Keeper

end CosmosSDK.Staking
