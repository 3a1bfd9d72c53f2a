import CosmosSDK.Staking.Registry.PowerIndex

/-!
# The queue of unbonding validators

A validator is in the queue exactly once, in the slot of its unbonding time and height, if
it is unbonding, and not at all otherwise.  The walk over the mature slots therefore meets
every validator once and as an unbonding one, and takes none of the others.
-/

namespace CosmosSDK.Staking

open Math Auth OrderedKV Stateful List Std.ExtTreeMap Validator Option

namespace Registry

variable {X : Type} {k : Keeper X} {ctx : HeaderInfo} {r r' : Registry}

def unbondingSlot (r : Registry) (addr : ValAddress) : Option (Time × Int) :=
  (r.validators[addr]?).bind (fun v =>
    if v.status = .unbonding then some (v.unbondingTime, v.unbondingHeight) else none)

def listed (r : Registry) (slot : Time × Int) : List ValAddress := (r.validatorQueue[slot]?).getD []

/-- Every validator is in the queue exactly as often as it has to be. -/
def QueueExact (r : Registry) : Prop :=
  ∀ (slot : Time × Int) (addr : ValAddress),
    (r.listed slot).count addr = if r.unbondingSlot addr = some slot then 1 else 0

theorem unbondingSlot_insert (r' : Registry) {v : Validator}
    (hvalidators : r'.validators = r.validators.insert v.operatorAddress v) (addr : ValAddress) :
    r'.unbondingSlot addr = if addr = v.operatorAddress then
        if v.status = .unbonding then some (v.unbondingTime, v.unbondingHeight) else none
      else r.unbondingSlot addr := by
  simp only [unbondingSlot, hvalidators, lookup_insert]
  split <;> simp

theorem unbondingSlot_eq_none {v : Validator} (hv : r.validators[v.operatorAddress]? = some v)
    (hstatus : v.status ≠ .unbonding) : r.unbondingSlot v.operatorAddress = none := by
  simp [unbondingSlot, hv, hstatus]

namespace QueueExact

theorem of_eq (h : r.QueueExact) (hqueue : r'.validatorQueue = r.validatorQueue)
    (hslot : ∀ addr, r'.unbondingSlot addr = r.unbondingSlot addr) : r'.QueueExact := by
  intro slot addr
  rw [hslot, listed, hqueue]
  exact h slot addr

variable {v : Validator}

theorem store (h : r.QueueExact) (v' : Validator) (hv : r.validators[v.operatorAddress]? = some v)
    (hvalidators : r'.validators = r.validators.insert v'.operatorAddress v')
    (hqueue : r'.validatorQueue = r.validatorQueue) (haddr : v'.operatorAddress = v.operatorAddress)
    (hstatus : v'.status = v.status) (htime : v'.unbondingTime = v.unbondingTime)
    (hheight : v'.unbondingHeight = v.unbondingHeight) : r'.QueueExact := by
  refine h.of_eq hqueue fun addr => ?_
  rw [unbondingSlot_insert r' hvalidators]
  split
  · rename_i heq
    rw [heq, haddr, hstatus, htime, hheight]
    simp [unbondingSlot, hv]
  · rfl

theorem unslotted (h : r.QueueExact) {addr : ValAddress}
    (hold : r.unbondingSlot addr = none) (hnew : r'.unbondingSlot addr = none)
    (hother : ∀ a, a ≠ addr → r'.validators[a]? = r.validators[a]?)
    (hqueue : r'.validatorQueue = r.validatorQueue) : r'.QueueExact := by
  refine h.of_eq hqueue fun a => ?_
  by_cases ha : a = addr
  · rw [ha, hold, hnew]
  · simp only [unbondingSlot, hother a ha]

theorem listed_leaveQueue (r : Registry) (v : Validator) (slot : Time × Int) :
    (r.leaveQueue v).listed slot = if slot = (v.unbondingTime, v.unbondingHeight) then
        (r.listed slot).filter (fun addr => decide (addr ≠ v.operatorAddress))
      else r.listed slot := by
  grind [lookup_erase, lookup_insert, listed, leaveQueue]

theorem leave (h : r.QueueExact) (v' : Validator) (hv : r.validators[v.operatorAddress]? = some v)
    (haddr : v'.operatorAddress = v.operatorAddress) (hstatus : v'.status ≠ .unbonding)
    (htime : v'.unbondingTime = v.unbondingTime) (hheight : v'.unbondingHeight = v.unbondingHeight)
    (hvalidators : r'.validators = r.validators.insert v'.operatorAddress v')
    (hqueue : r'.validatorQueue = r.validatorQueue) : (r'.leaveQueue v').QueueExact := by
  intro slot addr
  have hlisted : r'.listed slot = r.listed slot := by rw [listed, hqueue]; rfl
  have hslot : (r'.leaveQueue v').unbondingSlot addr =
      if addr = v.operatorAddress then none else r.unbondingSlot addr := by
    rw [unbondingSlot_insert (r'.leaveQueue v') hvalidators, if_neg hstatus, haddr]
  rw [hslot, listed_leaveQueue, hlisted, haddr, htime, hheight]
  by_cases hself : addr = v.operatorAddress
  · subst hself
    rw [if_pos rfl]
    split
    · rename_i heq
      rw [if_neg (by simp), count_eq_zero]
      simp
    · rename_i hne
      have hother : r.unbondingSlot v.operatorAddress ≠ some slot := by
        intro hunbonding
        rw [unbondingSlot, hv, bind_some] at hunbonding
        split at hunbonding
        · exact hne (some.inj hunbonding).symm
        · simp at hunbonding
      rw [h slot, if_neg hother, if_neg (by simp)]
  · rw [if_neg hself, ← h slot addr]
    split
    · exact count_filter (by simpa using hself)
    · rfl

theorem join (h : r.QueueExact) (v' : Validator) (hv : r.validators[v.operatorAddress]? = some v)
    (hbonded : v.status = .bonded) (haddr : v'.operatorAddress = v.operatorAddress)
    (hstatus : v'.status = .unbonding)
    (hvalidators : r'.validators = r.validators.insert v'.operatorAddress v')
    (hqueue : r'.validatorQueue = r.validatorQueue) : (r'.joinQueue v').QueueExact := by
  intro slot addr
  have hnone : r.unbondingSlot v.operatorAddress = none :=
    unbondingSlot_eq_none hv (by rw [hbonded]; decide)
  have hslot : (r'.joinQueue v').unbondingSlot addr =
      if addr = v.operatorAddress then some (v'.unbondingTime, v'.unbondingHeight)
      else r.unbondingSlot addr := by
    rw [unbondingSlot_insert (r'.joinQueue v') hvalidators, if_pos hstatus, haddr]
  have hlisted : (r'.joinQueue v').listed slot =
      if slot = (v'.unbondingTime, v'.unbondingHeight) then r.listed slot ++ [v.operatorAddress]
      else r.listed slot := by
    simp only [listed, joinQueue, lookup_insert, hqueue, haddr]
    split
    · rename_i heq
      rw [heq]
      rfl
    · rfl
  rw [hslot, hlisted]
  have hcount := h slot addr
  by_cases hself : addr = v.operatorAddress
  · grind
  · rw [if_neg hself, ← hcount]
    split
    · have hzero : [v.operatorAddress].count addr = 0 := count_eq_zero.mpr (by simpa using hself)
      rw [count_append, hzero, Nat.add_zero]
    · rfl

end QueueExact

theorem Change.queueExact (h : Change k r r') (hq : r.QueueExact) : r'.QueueExact := by
  cases h with
  | restake tokens delegatorShares hv _ | edit description commission minSelfDelegation hv =>
    exact hq.store _ hv rfl rfl rfl rfl rfl rfl
  | jail hv | unjail hv _ => exact hq.store _ hv rfl rfl rfl rfl rfl rfl
  | @remove v hv hstatus =>
    refine hq.unslotted (unbondingSlot_eq_none hv (by rw [hstatus]; decide)) ?_
      (fun a ha => (lookup_erase _ _ _).trans (if_neg ha)) rfl
    simp [unbondingSlot, Registry.remove]

theorem Changes.queueExact (h : Changes k r r') (hq : r.QueueExact) : r'.QueueExact :=
  keeps Change.queueExact h hq

theorem Turn.queueExact (h : Turn k ctx r r') (hq : r.QueueExact) : r'.QueueExact := by
  cases h with
  | @bond v hv _ _ =>
    exact hq.leave (v.updateStatus .bonded) hv rfl (by simp [updateStatus]) rfl rfl rfl rfl
  | beginUnbonding unbondingTime hv hstatus => exact hq.join _ hv hstatus rfl rfl rfl rfl
  | report => exact hq.of_eq rfl fun _ => rfl

theorem Turns.queueExact (h : Turns k ctx r r') (hq : r.QueueExact) : r'.QueueExact :=
  keeps Turn.queueExact h hq

theorem Release.queueExact (h : Release k r r') (hq : r.QueueExact) : r'.QueueExact := by
  cases h with
  | @finishUnbonding v hv _ =>
    exact hq.leave (v.updateStatus .unbonded) hv rfl (by simp [updateStatus]) rfl rfl rfl rfl
  | remove hv hstatus => exact (Change.remove hv hstatus).queueExact hq

theorem Releases.queueExact (h : Releases k r r') (hq : r.QueueExact) : r'.QueueExact :=
  keeps Release.queueExact h hq

theorem Rotated.queueExact {l : List ConsPubKeyRotationHistory}
    {updates : List Keeper.ValidatorUpdate} (h : Rotated k l updates r r') (hr : r.Keyed)
    (hq : r.QueueExact) : r'.QueueExact := by
  induction h with
  | nil => exact hq
  | skip _ _ _ ih => exact ih hr hq
  | @rotate history _ _ _ _ v hv _ _ _ _ _ ih =>
    exact ih (hr.rekey _ _ _) (hq.store { v with consensusPubkey := history.newConsPubkey }
      (hr.stored hv) rfl rfl rfl rfl rfl rfl)

theorem Tx.queueExact {key : Option (ValAddress × ConsPubKey)} (h : Tx k ctx key r r')
    (hq : r.QueueExact) : r'.QueueExact := by
  cases h with
  | changes h => exact h.queueExact hq
  | create hv h =>
    refine h.created.queueExact (hq.unslotted ?_ ?_ (fun a ha => (lookup_insert _ _ _ _).trans (if_neg ha))
      rfl)
    · simp [unbondingSlot, hv.absent]
    · simp [unbondingSlot, Registry.create, hv.status]
  | request => exact hq.of_eq rfl fun _ => rfl

end Registry

namespace Keeper

open Registry

variable {X : Type} {k : Keeper X} {ctx : HeaderInfo} {s s' : State X}

theorem applyAndReturnValidatorSetUpdates_queueExact {updates : List ValidatorUpdate}
    (hr : s.registry.Keyed) (hq : s.registry.QueueExact)
    (h : k.applyAndReturnValidatorSetUpdates ctx s = .ok updates s') : s'.registry.QueueExact := by
  obtain ⟨_, _, _, hturns1, hrotated, hturns2⟩ := applyAndReturnValidatorSetUpdates_turns hr h
  exact hturns2.queueExact (hrotated.queueExact (hturns1.keyed hr) (hturns1.queueExact hq))

theorem advance_queueExact {c : Chain X} (hc : c.state.Sound) (hq : c.state.registry.QueueExact)
    (step : Step) : (k.advance step c).2.state.registry.QueueExact := by
  obtain h | ⟨s, h, -, htx⟩ | ⟨heights, duration, updates, s, -, hblock, -, h⟩ :=
    advance_cases hc step
  · rw [h]
    exact hq
  · rw [h]
    exact htx.queueExact hq
  · rw [h]
    obtain ⟨_, happly, hreleases⟩ := blockValidatorUpdates_registry hc.keyed hblock
    exact hreleases.queueExact (applyAndReturnValidatorSetUpdates_queueExact hc.keyed hq happly)

/-! ## The walk over the queue -/

/-- The hook of a removed validator does not fail. -/
def RemovalHook (k : Keeper X) : Prop :=
  ∀ (consAddr : ConsAddress) (valAddr : ValAddress) (s : State X),
    ∃ outside, k.hooks (.afterValidatorRemoved consAddr valAddr) s = .ok outside

variable {v : Validator} {addr : ValAddress}

theorem removeEmptyValidator_ok (hreduction : k.powerReduction ≠ 0) (hhook : RemovalHook k)
    (hv : s.registry.validators[v.operatorAddress]? = some v) (hsolvent : v.Solvent)
    (hstatus : v.status = .unbonded) : ∃ s', k.removeEmptyValidator v s = .ok () s' := by
  unfold removeEmptyValidator
  split
  · rename_i hshares
    have hshares : v.delegatorShares.i = 0 := of_decide_eq_true hshares
    have htokens : v.tokens = 0 := by
      have hnonneg := hsolvent.tokens_nonneg
      have hle := hsolvent.tokens_le_shares
      omega
    have hkey : k.getValidatorsByPowerIndexKey v = .ok (k.powerKey v) := by
      apply Powered.key
      simp [Powered, potentialConsensusPower, tokensToConsensusPower, quoInt, htokens,
        hreduction, power, bind, Except.bind]
    let s1 : State X := { s with
      validators := s.validators.erase v.operatorAddress
      validatorByConsensusAddress :=
        s.validatorByConsensusAddress.erase (k.consAddress v.consensusPubkey)
      validatorsByPowerIndex := s.validatorsByPowerIndex.erase (k.powerKey v) }
    obtain ⟨outside, houtside⟩ := hhook (k.consAddress v.consensusPubkey) v.operatorAddress s1
    refine ⟨{ s1 with outside := outside }, ?_⟩
    simp only [removeValidator, bind_ok, load_ok]
    refine ⟨some v, s, ⟨hv, rfl⟩, ?_⟩
    simp only [removeFoundValidator, deleteValidatorByPowerIndex, callHook, bind_ok, reject_ok, update_ok,
      lift_ok, transition_ok, Fallible.bind_eq_ok]
    exact ⟨(), s, ⟨by simp [isUnbonded, hstatus], rfl⟩, (), s, ⟨by omega, rfl⟩, (), _, rfl,
      (), _, rfl, (), s1, ⟨_, _, ⟨hkey, rfl⟩, rfl⟩, outside, houtside, rfl⟩
  · exact ⟨s, rfl⟩

theorem deleteValidatorQueue_ok (v : Validator) (s : State X) :
    ∃ s', deleteValidatorQueue v s = .ok () s' := by
  cases h : deleteValidatorQueue v s with
  | ok _ s' => exact ⟨s', rfl⟩
  | error =>
    simp only [deleteValidatorQueue, bind_error, load_error, false_or] at h
    obtain ⟨_, _, -, h⟩ := h
    split at h
    · exact (update_error.mp h).elim
    · exact (update_error.mp h).elim

theorem unbondMatureValidator_ok (hreduction : k.powerReduction ≠ 0) (hhook : RemovalHook k)
    (hs : s.Sound) (hv : s.validators[addr]? = some v) (hstatus : v.status = .unbonding) :
    ∃ s', k.unbondMatureValidator addr s = .ok () s' ∧ s'.Sound ∧
      (∀ a, a ≠ addr → s'.validators[a]? = s.validators[a]?) ∧
      ∀ w, s'.validators[addr]? = some w → w.status = .unbonded := by
  have hkey : v.operatorAddress = addr := hs.keyed addr v hv
  let s1 : State X := { s with
    validators := s.validators.insert v.operatorAddress (v.updateStatus .unbonded) }
  have hstored : s1.registry.validators[(v.updateStatus .unbonded).operatorAddress]? =
      some (v.updateStatus .unbonded) := store_lookup s.registry (v.updateStatus .unbonded)
  have hsolvent : (v.updateStatus .unbonded).Solvent := by
    have hv := (hs.formed.validators addr v hv).solvent
    exact ⟨hv.tokens_nonneg, hv.tokens_le_shares, by simp [updateStatus]⟩
  obtain ⟨s2, hremove⟩ := removeEmptyValidator_ok hreduction hhook hstored hsolvent rfl
  obtain ⟨s3, hdelete⟩ := deleteValidatorQueue_ok (v.updateStatus .unbonded) s2
  have hok : k.unbondMatureValidator addr s = .ok () s3 := by
    simp only [unbondMatureValidator, unbondingToUnbonded, completeUnbondingValidator, getValidator,
      bind_ok, find_ok, reject_ok, pure_ok]
    refine ⟨v, s, ⟨hv, rfl⟩, (), s, ⟨by simp [isUnbonding, hstatus], rfl⟩, _, s1, ?_, (), s2,
      hremove, hdelete⟩
    exact ⟨(), s, ⟨by simp [isUnbonding, hstatus], rfl⟩, (), s1, rfl, rfl, rfl⟩
  have hvalidators : s3.registry.validators = s2.registry.validators := by
    rw [deleteValidatorQueue_registry hdelete]
    rfl
  have hremoved : s2.registry = s1.registry ∨
      s2.registry = s1.registry.remove k (v.updateStatus .unbonded) := by
    unfold removeEmptyValidator at hremove
    split at hremove
    · exact .inr (removeValidator_registry hstored hremove).2
    · exact .inl (by rw [(pure_ok.mp hremove).2])
  refine ⟨s3, hok, hs.of_effect (unbondMatureValidator_effect hs.formed hok), fun a ha => ?_,
    fun w hw => ?_⟩
  · show s3.registry.validators[a]? = _
    have hne : a ≠ v.operatorAddress := hkey ▸ ha
    have hinsert : s1.registry.validators[a]? = s.validators[a]? :=
      (lookup_insert _ _ _ _).trans (if_neg hne)
    rcases hremoved with hremoved | hremoved
    · rw [hvalidators, hremoved, hinsert]
    · rw [hvalidators, hremoved, ← hinsert]
      exact (lookup_erase _ _ _).trans (if_neg hne)
  · change s3.registry.validators[addr]? = _ at hw
    rw [hvalidators, ← hkey] at hw
    rcases hremoved with hremoved | hremoved
    · rw [hremoved] at hw
      rw [← some.inj (hw.symm.trans hstored).symm]
      rfl
    · rw [hremoved] at hw
      simp [Registry.remove, updateStatus] at hw

def due (ctx : HeaderInfo) (slots : List ((Time × Int) × List ValAddress)) : List ValAddress :=
  (slots.filter (fun slot => decide (slot.1.1 ≤ ctx.time ∧ slot.1.2 ≤ ctx.height))).flatMap
    (fun slot => slot.2)

/-- The walk still has to meet these validators: all of them unbond, none twice, and they are
all whose time and height have passed. -/
structure ToUnbond (ctx : HeaderInfo) (addrs : List ValAddress) (s : State X) : Prop where
  sound : s.Sound
  nodup : addrs.Nodup
  unbonding : ∀ addr ∈ addrs, ∃ v, s.validators[addr]? = some v ∧ v.status = .unbonding
  all : ∀ (addr : ValAddress) (v : Validator), s.validators[addr]? = some v →
    v.status = .unbonding → v.unbondingTime ≤ ctx.time → v.unbondingHeight ≤ ctx.height →
    addr ∈ addrs

theorem ToUnbond.step (hreduction : k.powerReduction ≠ 0) (hhook : RemovalHook k)
    {addrs : List ValAddress} (h : ToUnbond ctx (addr :: addrs) s) :
    ∃ s', k.unbondMatureValidator addr s = .ok () s' ∧ ToUnbond ctx addrs s' := by
  obtain ⟨hnew, hnodup⟩ := nodup_cons.mp h.nodup
  obtain ⟨_, hv, hstatus⟩ := h.unbonding addr (mem_cons_self ..)
  obtain ⟨s', hok, hsound, hframe, hdone⟩ :=
    unbondMatureValidator_ok hreduction hhook h.sound hv hstatus
  refine ⟨s', hok, hsound, hnodup, fun a ha => ?_, fun a w hw hunbonding htime hheight => ?_⟩
  · rw [hframe a fun heq => hnew (heq ▸ ha)]
    exact h.unbonding a (mem_cons_of_mem _ ha)
  · by_cases heq : a = addr
    · subst heq
      rw [hdone w hw] at hunbonding
      simp at hunbonding
    · rw [hframe a heq] at hw
      exact (mem_cons.mp (h.all a w hw hunbonding htime hheight)).resolve_left heq

theorem ToUnbond.slot (hreduction : k.powerReduction ≠ 0) (hhook : RemovalHook k)
    {slot : (Time × Int) × List ValAddress} {slots : List ((Time × Int) × List ValAddress)}
    (h : ToUnbond ctx (due ctx (slot :: slots)) s) :
    ∃ s', k.unbondMatureValidators ctx slot s = .ok () s' ∧ ToUnbond ctx (due ctx slots) s' := by
  unfold unbondMatureValidators
  by_cases hpassed : slot.1.1 ≤ ctx.time ∧ slot.1.2 ≤ ctx.height
  · have hdue : due ctx (slot :: slots) = slot.2 ++ due ctx slots := by
      simp [due, hpassed]
    have hpassed' : ¬(ctx.height < slot.1.2 ∨ ctx.time < slot.1.1) := by
      rw [not_or, not_lt, not_lt]
      exact hpassed.symm
    rw [if_neg hpassed']
    rw [hdue] at h
    exact forM_ok (I := fun l t => ToUnbond ctx (l ++ due ctx slots) t)
      (fun addr l t ht => ht.step hreduction hhook) h
  · have hdue : due ctx (slot :: slots) = due ctx slots := by
      unfold due
      rw [filter_cons, if_neg (by simpa using hpassed)]
    have hpassed' : ctx.height < slot.1.2 ∨ ctx.time < slot.1.1 := by
      rw [not_and_or, not_le, not_le] at hpassed
      exact hpassed.symm
    rw [if_pos hpassed']
    exact ⟨s, rfl, hdue ▸ h⟩

theorem toUnbond_of_queueExact (hs : s.Sound) (hq : s.registry.QueueExact) :
    ToUnbond ctx (due ctx (s.validatorQueue.toList.filter
      (fun slot => (compare slot.1 (ctx.time, ctx.height)).isLE))) s := by
  have hcount : ∀ slot addrs, (slot, addrs) ∈ s.validatorQueue.toList → ∀ addr,
      addrs.count addr = if s.registry.unbondingSlot addr = some slot then 1 else 0 := by
    intro slot addrs hmem addr
    rw [← hq slot addr, listed,
      show s.registry.validatorQueue[slot]? = some addrs from
        mem_toList_iff_getElem?_eq_some.mp hmem]
    rfl
  have hslot : ∀ slot addrs, (slot, addrs) ∈ s.validatorQueue.toList → ∀ addr ∈ addrs,
      s.registry.unbondingSlot addr = some slot := by
    intro slot addrs hmem addr haddr
    by_contra hne
    have hzero := hcount slot addrs hmem addr
    rw [if_neg hne, count_eq_zero] at hzero
    exact hzero haddr
  refine ⟨hs, ?_, fun addr haddr => ?_, fun addr v hv hunbonding htime hheight => ?_⟩
  · -- within a slot each validator is counted once, and it has only one slot
    unfold due
    rw [nodup_flatMap]
    refine ⟨fun slot hmem => ?_, ?_⟩
    · rw [nodup_iff_count_le_one]
      intro addr
      have hmem := (mem_filter.mp (mem_filter.mp hmem).1).1
      rw [hcount slot.1 slot.2 hmem addr]
      split <;> omega
    · refine ((distinct_keys_toList).filter _ |>.filter
        _).imp_of_mem ?_
      intro a b ha hb hne
      have ha := (mem_filter.mp (mem_filter.mp ha).1).1
      have hb := (mem_filter.mp (mem_filter.mp hb).1).1
      intro addr haddr hbaddr
      have heq : a.1 = b.1 :=
        some.inj ((hslot a.1 a.2 ha addr haddr).symm.trans (hslot b.1 b.2 hb addr hbaddr))
      rw [heq] at hne
      exact hne Std.ReflCmp.compare_self
  · obtain ⟨slot, hmem, haddr⟩ := mem_flatMap.mp haddr
    have hmem := (mem_filter.mp (mem_filter.mp hmem).1).1
    have hunbonding := hslot slot.1 slot.2 hmem addr haddr
    obtain ⟨v, hv, hstatus⟩ := bind_eq_some_iff.mp hunbonding
    refine ⟨v, hv, ?_⟩
    by_contra hne
    simp [hne] at hstatus
  · have hmine : s.registry.unbondingSlot addr = some (v.unbondingTime, v.unbondingHeight) := by
      simp [unbondingSlot, show s.registry.validators[addr]? = some v from hv, hunbonding]
    have hone := hq (v.unbondingTime, v.unbondingHeight) addr
    rw [if_pos hmine, listed] at hone
    cases hlookup : s.registry.validatorQueue[(v.unbondingTime, v.unbondingHeight)]? with
    | none => simp [hlookup] at hone
    | some addrs =>
      rw [hlookup, getD_some] at hone
      refine mem_flatMap.mpr ⟨((v.unbondingTime, v.unbondingHeight), addrs), ?_, ?_⟩
      · refine mem_filter.mpr ⟨mem_filter.mpr
          ⟨mem_toList_iff_getElem?_eq_some.mpr hlookup, ?_⟩,
          by simpa using ⟨htime, hheight⟩⟩
        show ((compare v.unbondingTime ctx.time).then
          (compare v.unbondingHeight ctx.height)).isLE = true
        rcases htime.lt_or_eq with hlt | heq
        · rw [Std.compare_eq_lt.mpr hlt]
          rfl
        · rw [heq, Std.ReflOrd.compare_self]
          exact Std.isLE_compare.mpr hheight
      · exact count_pos_iff.mp (by rw [hone]; exact Nat.one_pos)

/-- `UnbondAllMatureValidators` does not fail and leaves no validator whose time and height
have passed. -/
theorem unbondAllMatureValidators_ok (hreduction : k.powerReduction ≠ 0) (hhook : RemovalHook k)
    (hs : s.Sound) (hq : s.registry.QueueExact) :
    ∃ s', k.unbondAllMatureValidators ctx s = .ok () s' ∧ ToUnbond ctx [] s' := by
  have hstart : ToUnbond ctx (due ctx (s.validatorQueue.toList.filter
      (fun slot => (compare slot.1 (ctx.time, ctx.height)).isLE))) s := toUnbond_of_queueExact hs hq
  obtain ⟨s', hok, hdone⟩ := forM_ok (I := fun l t => ToUnbond ctx (due ctx l) t)
    (fun slot l t ht => ht.slot hreduction hhook) hstart
  refine ⟨s', ?_, hdone⟩
  simp only [unbondAllMatureValidators, bind_ok, load_ok]
  exact ⟨_, s, ⟨rfl, rfl⟩, hok⟩

/-! ## Runs -/

theorem genesis_queueExact (params : Params) (outside : X) :
    (State.genesis params outside).registry.QueueExact := by
  intro slot addr
  simp [State.genesis, State.registry, listed, unbondingSlot]

/-- In every block the queue is exact, and its walk over the mature slots, at the begin of the
block or after the change of the validator set, ends well and leaves no validator whose time
and height have passed. -/
theorem reached_queueExact (k : Keeper X) (hreduction : k.powerReduction ≠ 0)
    (hhook : RemovalHook k) (header : HeaderInfo) (params : Params) (outside : X)
    (steps : List Step) :
    (k.reached steps (.genesis header params outside)).state.registry.QueueExact ∧
      ∀ s : State X, (s = (k.reached steps (.genesis header params outside)).state ∨
          ∃ updates, k.applyAndReturnValidatorSetUpdates
            (k.reached steps (.genesis header params outside)).header
            (k.reached steps (.genesis header params outside)).state = .ok updates s) →
        s.registry.QueueExact ∧ ∃ s', k.unbondAllMatureValidators
            (k.reached steps (.genesis header params outside)).header s = .ok () s' ∧
          ∀ (addr : ValAddress) (v : Validator), s'.validators[addr]? = some v →
            v.status = .unbonding →
            ¬ (v.unbondingTime ≤ (k.reached steps (.genesis header params outside)).header.time ∧
              v.unbondingHeight ≤ (k.reached steps (.genesis header params outside)).header.height) := by
  have hgenesis := genesis_queueExact params outside
  obtain ⟨hsound, hq⟩ := reached_genesis
    (fun step c hc hq => advance_queueExact hc hq step) steps hgenesis
  refine ⟨hq, fun s hs => ?_⟩
  have hs : s.Sound ∧ s.registry.QueueExact := by
    rcases hs with rfl | ⟨updates, happly⟩
    · exact ⟨hsound, hq⟩
    · exact ⟨hsound.of_effect (applyAndReturnValidatorSetUpdates_effect hsound.formed happly),
        applyAndReturnValidatorSetUpdates_queueExact hsound.keyed hq happly⟩
  obtain ⟨s', hok, hdone⟩ : ∃ s', k.unbondAllMatureValidators
      (k.reached steps (.genesis header params outside)).header s = .ok () s' ∧
      ToUnbond (k.reached steps (.genesis header params outside)).header [] s' :=
    unbondAllMatureValidators_ok hreduction hhook hs.1 hs.2
  refine ⟨hs.2, s', hok, fun addr v hv hunbonding hpassed => ?_⟩
  have hmem := hdone.all addr v hv hunbonding hpassed.1 hpassed.2
  simp at hmem

/-- Two validators, of which one is jailed and leaves the set; its unbonding time passes. -/
def jailedRun : List Step :=
  [enter [1] 100, enter [2] 50, .endBlock 0 0, .execute ⟨.jail [1], rfl⟩, .endBlock 0 20]

theorem reached_queueExact_jailedRun :
    (plainKeeper.reached jailedRun (.genesis ⟨1, 1⟩ emptyState.params ())).state.registry.QueueExact ∧
      (plainKeeper.reached jailedRun
        (.genesis ⟨1, 1⟩ emptyState.params ())).state.registry.listed (11, 2) = [[1]] :=
  ⟨(reached_queueExact plainKeeper (by decide) (fun _ _ _ => ⟨(), rfl⟩) ⟨1, 1⟩ emptyState.params ()
    jailedRun).1, by decide +kernel⟩

end Keeper

end CosmosSDK.Staking
