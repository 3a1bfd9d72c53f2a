import CosmosSDK.Staking.Registry.EndBlock

/-!
# Blocks

A chain that executes operations inside a block and then ends it.  An operation that fails
is rolled back; a block whose end fails is not left.  Heights increase and times do not
decrease.  The powers of consensus keys are kept as the consensus engine would, by applying
the updates that the end of a block returns.
-/

namespace CosmosSDK.Staking

open Store CosmosSDK.Types Math Auth OrderedKV Stateful StakeLedger State Set

/-- The powers after the updates, in order; power zero removes a key. -/
def applyUpdates (known : ConsPubKey → Int) (updates : List Keeper.ValidatorUpdate) :
    ConsPubKey → Int :=
  updates.foldl (fun known update => Function.update known update.pubKey update.power) known

structure Chain (X : Type) where
  /-- of the block that is executed -/
  header : HeaderInfo
  state : State X
  /-- what the consensus engine knows; a key without power is not known -/
  known : ConsPubKey → Int

def Chain.genesis {X : Type} (header : HeaderInfo) (params : Params) (outside : X) : Chain X :=
  ⟨header, State.genesis params outside, 0⟩

inductive Step where
  | execute (op : {op : Op // op.inBlock = true})
  /-- a message that leaves the denomination as it is -/
  | updateParams (unbondingTime : Time) (maxValidators maxEntries : Nat)
      (minCommissionRate : LegacyDec) (keyRotationFee : Coin)
  /-- the end of the block; the next one is by at least one higher and not earlier -/
  | endBlock (heights duration : Nat)

def Step.newKey : Step → Option (ValAddress × ConsPubKey)
  | .execute op => op.1.newKey
  | _ => none

namespace Keeper

variable {X : Type} (k : Keeper X)

def callStep (header : HeaderInfo) (params : Params) : Step → Call X Unit
  | .execute op => k.exec header op
  | .updateParams unbondingTime maxValidators maxEntries minCommissionRate keyRotationFee =>
    k.updateParams header { params with
      unbondingTime := unbondingTime, maxValidators := maxValidators, maxEntries := maxEntries,
      minCommissionRate := minCommissionRate, keyRotationFee := keyRotationFee }
  | .endBlock _ _ => pure ()

def advance (step : Step) (c : Chain X) : Option (List ValidatorUpdate) × Chain X :=
  match step with
  | .endBlock heights duration =>
    match k.blockValidatorUpdates c.header c.state with
    | .ok updates s =>
      (some updates, ⟨⟨c.header.height + 1 + heights, c.header.time + duration⟩, s,
        applyUpdates c.known updates⟩)
    | .error _ _ => (none, c)
  | _ =>
    match k.callStep c.header c.state.params step c.state with
    | .ok _ s => (none, { c with state := s })
    | .error _ _ => (none, c)

abbrev reached (steps : List Step) (c : Chain X) : Chain X := (Machine.run k.advance steps c).2

variable {k} {ctx : HeaderInfo} {s s' : State X} {u : Unit}

/-! ## Params -/

theorem raiseCommission_loop {minRate : LegacyDec} (hs : s.ledger.Formed)
    (h : s.validators.values.forM (raiseCommission ctx minRate) s = .ok u s') :
    Registry.Changes k s.registry s'.registry ∧ Effect univ 0 0 s.ledger s'.ledger := by
  have hstored : ∀ v ∈ s.validators.values, s.registry.validators[v.operatorAddress]? = some v := by
    intro v hv
    obtain ⟨_, hv⟩ := mem_values.mp hv
    exact hs.keyed.stored hv
  have hdistinct := values_pairwise_ne hs.keyed
  obtain ⟨hchanges, heffect, -⟩ := forM_induct
    (I := fun l t => Registry.Changes k s.registry t.registry ∧
      Effect univ 0 0 s.ledger t.ledger ∧
      l.Pairwise (fun v w => v.operatorAddress ≠ w.operatorAddress) ∧
      ∀ v ∈ l, t.registry.validators[v.operatorAddress]? = some v)
    (fun v l t t' hI hstep => by
      obtain ⟨hchanges, heffect, hapart, hl⟩ := hI
      obtain ⟨hne, hrest⟩ := List.pairwise_cons.mp hapart
      have hv := hl v (List.mem_cons_self ..)
      obtain ⟨hchange, hframe⟩ := raiseCommission_keep hv hstep
      refine ⟨hchanges.trans hchange, ?_, hrest, fun w hw => ?_⟩
      · unfold raiseCommission at hstep
        split at hstep
        · rw [setValidator_ledger hstep]
          exact (heffect.trans (editValidator_balanced heffect.formed hv
            (atLeastMinRate ctx minRate v) ⟨rfl, rfl, rfl⟩ rfl)).congr (subset_univ _) (by simp)
            (by simp)
        · rw [← (pure_ok.mp hstep).2]
          exact heffect
      · rw [hframe _ (hne w hw).symm]
        exact hl w (List.mem_cons_of_mem _ hw))
    h ⟨.refl, (Effect.refl hs).congr (empty_subset _) rfl rfl, hdistinct, hstored⟩
  exact ⟨hchanges, heffect⟩

theorem updateParams_changes {params : Params} (hs : s.ledger.Formed)
    (h : k.updateParams ctx params s = .ok u s') :
    Registry.Changes k s.registry s'.registry ∧ Effect univ 0 0 s.ledger s'.ledger := by
  simp only [updateParams, update_ok, steps] at h
  obtain ⟨_, -, _, -, _, _, rfl, h⟩ := h
  split at h
  · obtain ⟨-, rfl⟩ := pure_ok.mp h
    exact ⟨.refl, (Effect.refl hs).congr (empty_subset _) rfl rfl⟩
  · simp only [steps] at h
    obtain ⟨_, rfl, h⟩ := h
    exact raiseCommission_loop (s := { s with params := params }) hs h

/-! ## The end of a block -/

theorem completeEntries_registry (time : Time) (del : AccAddress)
    (entries : List UnbondingDelegationEntry) :
    ∀ kept balances, Keeps registry (k.completeEntries time del kept entries balances) := by
  induction entries with
  | nil => exact fun _ _ => .pure _
  | cons entry entries ih =>
    intro kept balances
    refine .ite (.ite (ih _ _) ?_) (ih _ _)
    exact .bind (.reject _ _) fun _ =>
      (undelegateCoinsFromModuleToAccount_registry _ _ _).bind fun _ =>
        .bind (.lift _) fun _ => ih _ _

theorem completeUnbonding_registry (del : AccAddress) (val : ValAddress) :
    Keeps registry (k.completeUnbonding ctx del val) :=
  .bind (.find _ _) fun _ => (completeEntries_registry _ _ _ _ _).bind fun _ =>
    (storeUnbondingDelegation_registry _).bind fun _ => .pure _

theorem completeRedelegation_registry (del : AccAddress) (src dst : ValAddress) :
    Keeps (registry (X := X)) (completeRedelegation ctx del src dst) := by
  refine .bind (.find _ _) fun _ => (completedBalances_keeps _ _ _).bind fun _ => ?_
  exact (Keeps.ite (.update fun _ => by rfl) (.update fun _ => by rfl)).bind fun _ =>
    .pure _

theorem purgeAllMaturedConsKeyRotatedKeys_registry (time : Time) :
    Keeps (registry (X := X)) (purgeAllMaturedConsKeyRotatedKeys time) :=
  ((Keeps.load _).bind fun _ => (Keeps.update fun _ => by rfl).bind fun _ => .pure _).bind
    fun _ => .forM (fun _ => .update fun _ => by rfl) _

variable {updates : List ValidatorUpdate}

theorem blockValidatorUpdates_tail (h : k.blockValidatorUpdates ctx s = .ok updates s') :
    ∃ s1 s2, k.applyAndReturnValidatorSetUpdates ctx s = .ok updates s1 ∧
      k.unbondAllMatureValidators ctx s1 = .ok () s2 ∧
      (do
        let matureUnbonds ← dequeueAllMatureUBDQueue ctx.time
        matureUnbonds.forM (k.completeMatureUnbonding ctx)
        let matureRedelegations ← dequeueAllMatureRedelegationQueue ctx
        matureRedelegations.forM (completeMatureRedelegation ctx)
        purgeAllMaturedConsKeyRotatedKeys ctx.time : Call X Unit) s2 = .ok () s' := by
  simp only [blockValidatorUpdates, bind_ok, pure_ok] at h
  obtain ⟨_, s1, h1, _, s2, h2, pairs, s3, h3, _, s4, h4, triplets, s5, h5, _, s6, h6, _, _, h7, rfl,
    rfl⟩ := h
  refine ⟨s1, s2, h1, h2, ?_⟩
  simp only [bind_ok]
  exact ⟨pairs, s3, h3, _, s4, h4, triplets, s5, h5, _, s6, h6, h7⟩

theorem blockValidatorUpdates_registry (hr : s.registry.Keyed)
    (h : k.blockValidatorUpdates ctx s = .ok updates s') :
    ∃ s1, k.applyAndReturnValidatorSetUpdates ctx s = .ok updates s1 ∧
      Registry.Releases k s1.registry s'.registry := by
  obtain ⟨s1, s2, h1, h2, h⟩ := blockValidatorUpdates_tail h
  have htail : s'.registry = s2.registry := by
    refine Keeps.ok ?_ h
    refine ((Keeps.load _).bind fun _ => (Keeps.update fun _ => by rfl).bind fun _ =>
      .pure _).bind fun _ => ?_
    refine (Keeps.forM (fun _ => (completeUnbonding_registry _ _).recover _) _).bind fun _ => ?_
    refine ((Keeps.load _).bind fun _ => (Keeps.update fun _ => by rfl).bind fun _ =>
      .pure _).bind fun _ => ?_
    exact (Keeps.forM (fun _ => (completeRedelegation_registry _ _ _).recover _) _).bind fun _ =>
      purgeAllMaturedConsKeyRotatedKeys_registry _
  obtain ⟨_, _, _, hturns1, hrotated, hturns2⟩ :=
    applyAndReturnValidatorSetUpdates_turns hr h1
  rw [htail]
  exact ⟨s1, h1, unbondAllMatureValidators_releases
    (hturns2.keyed (hrotated.keyed (hturns1.keyed hr))) h2⟩

end Keeper

/-! ## The ledger -/

/-- Records are formed and validators count the shares of their delegations. -/
structure State.Sound {X : Type} (s : State X) : Prop where
  formed : s.ledger.Formed
  surplus : s.ledger.surplus = 0

namespace State.Sound

variable {X : Type} {s s' : State X}

theorem of_effect (hs : s.Sound) {t : Set ValAddress} {g : Pool → Int}
    (e : Effect t g 0 s.ledger s'.ledger) : s'.Sound :=
  ⟨e.formed, by rw [e.surplus, hs.surplus, add_zero]⟩

theorem of_eq (hs : s.Sound) (h : s'.ledger = s.ledger) : s'.Sound :=
  ⟨h ▸ hs.formed, h ▸ hs.surplus⟩

theorem keyed (hs : s.Sound) : s.registry.Keyed := hs.formed.keyed

end State.Sound

namespace Keeper

variable {X : Type} {k : Keeper X} {ctx : HeaderInfo} {s s' : State X} {u : Unit}

theorem completeMatureUnbonding_sound (hs : s.Sound) {pair : DVPair}
    (h : k.completeMatureUnbonding ctx pair s = .ok u s') : s'.Sound := by
  obtain ⟨_, h⟩ | ⟨e, -, h⟩ := recover_ok.mp h
  · exact hs.of_effect (completeUnbonding_effect hs.formed h)
  · obtain ⟨_, e⟩ := completeUnbonding_error hs.formed h
    exact hs.of_effect e

theorem completeMatureRedelegation_sound (hs : s.Sound) {triplet : DVVTriplet}
    (h : completeMatureRedelegation ctx triplet s = .ok u s') : s'.Sound := by
  obtain ⟨_, h⟩ | ⟨_, -, h⟩ := recover_ok.mp h
  · exact hs.of_effect (completeRedelegation_effect hs.formed h)
  · rw [completeRedelegation_error h]
    exact hs

theorem purgeAllMaturedConsKeyRotatedKeys_ledger (time : Time) :
    Keeps (ledger (X := X)) (purgeAllMaturedConsKeyRotatedKeys time) :=
  ((Keeps.load _).bind fun _ => (Keeps.update fun _ => by rfl).bind fun _ => .pure _).bind
    fun _ => .forM (fun _ => .update fun _ => by rfl) _

theorem blockValidatorUpdates_sound (hs : s.Sound) {updates : List ValidatorUpdate}
    (h : k.blockValidatorUpdates ctx s = .ok updates s') : s'.Sound := by
  obtain ⟨_, _, h1, h2, h⟩ := blockValidatorUpdates_tail h
  have hs1 := hs.of_effect (applyAndReturnValidatorSetUpdates_effect hs.formed h1)
  have hs2 := hs1.of_effect (unbondAllMatureValidators_effect hs1.formed h2)
  simp only [dequeueAllMatureUBDQueue, dequeueAllMatureRedelegationQueue, update_ok, pure_ok,
    steps] at h
  obtain ⟨_, _, ⟨_, -, _, _, rfl, -, rfl⟩, _, s6, h6, h⟩ := h
  obtain ⟨_, _, ⟨_, -, _, _, rfl, -, rfl⟩, _, s10, h10, h⟩ := h
  have hs6 : s6.Sound := forM_induct (I := fun _ t => t.Sound)
    (fun pair _ t t' hI hstep => completeMatureUnbonding_sound hI hstep) h6 (hs2.of_eq (by rfl))
  have hs10 : s10.Sound := forM_induct (I := fun _ t => t.Sound)
    (fun triplet _ t t' hI hstep => completeMatureRedelegation_sound hI hstep) h10 (hs6.of_eq (by rfl))
  exact hs10.of_eq ((purgeAllMaturedConsKeyRotatedKeys_ledger _).ok h)

/-! ## Steps -/

variable {c : Chain X} {I : Chain X → Prop}

/-- What a step of a chain can do: nothing, an operation inside the block, or the end of the
block. -/
theorem advance_cases (hc : c.state.Sound) (step : Step) :
    k.advance step c = (none, c) ∨
      (∃ s, k.advance step c = (none, { c with state := s }) ∧ s.Sound ∧
        Registry.Tx k c.header step.newKey c.state.registry s.registry) ∨
      ∃ heights duration updates s, step = .endBlock heights duration ∧
        k.blockValidatorUpdates c.header c.state = .ok updates s ∧ s.Sound ∧
        k.advance step c = (some updates,
          ⟨⟨c.header.height + 1 + heights, c.header.time + duration⟩, s,
            applyUpdates c.known updates⟩) := by
  cases step with
  | execute op =>
    cases h : k.exec c.header op c.state with
    | ok u s =>
      refine .inr (.inl ⟨s, ?_, hc.of_effect (exec_effect hc.formed hc.surplus h),
        exec_tx hc.formed hc.surplus op.2 h⟩)
      simp only [advance, callStep, h]
    | error => exact .inl (by simp only [advance, callStep, h])
  | updateParams unbondingTime maxValidators maxEntries minCommissionRate keyRotationFee =>
    cases h : k.callStep c.header c.state.params (.updateParams unbondingTime maxValidators maxEntries
        minCommissionRate keyRotationFee) c.state with
    | ok u s =>
      obtain ⟨hchanges, e⟩ := updateParams_changes hc.formed h
      refine .inr (.inl ⟨s, ?_, hc.of_effect e, .changes hchanges⟩)
      simp only [advance, h]
    | error e s => exact .inl (by simp only [advance, h])
  | endBlock heights duration => grind [advance, blockValidatorUpdates_sound]

theorem advance_sound (hc : c.state.Sound) (step : Step) : (k.advance step c).2.state.Sound := by
  obtain h | ⟨s, h, hs, -⟩ | ⟨heights, duration, updates, s, -, -, hs, h⟩ := advance_cases hc step
  · rw [h]
    exact hc
  · rw [h]
    exact hs
  · rw [h]
    exact hs

/-! ## Runs -/

theorem genesis_sound (params : Params) (outside : X) : (genesis params outside).Sound := by
  refine ⟨⟨?_, ?_, ?_, ?_, ?_⟩, ?_⟩
  all_goals simp [genesis, ledger, surplus, recorded, delegated, total_empty]

/-- What every step keeps in sound states holds after every run that starts with it. -/
theorem reached_invariant {P : Step → Chain X → Prop}
    (hstep : ∀ step c, c.state.Sound → P step c → I c → I (k.advance step c).2) {steps : List Step}
    (h : Machine.Along k.advance P steps c) (hc : c.state.Sound) (hI : I c) :
    (k.reached steps c).state.Sound ∧ I (k.reached steps c) :=
  h.invariant (I := fun c => c.state.Sound ∧ I c)
    (fun step c hP hc => ⟨advance_sound hc.1 step, hstep step c hc.1 hP hc.2⟩) ⟨hc, hI⟩

theorem reached_genesis (hstep : ∀ step c, c.state.Sound → I c → I (k.advance step c).2)
    (steps : List Step) {header : HeaderInfo} {params : Params} {outside : X}
    (hI : I (.genesis header params outside)) :
    (k.reached steps (.genesis header params outside)).state.Sound ∧
      I (k.reached steps (.genesis header params outside)) :=
  reached_invariant (fun step c hc _ => hstep step c hc)
    (Machine.along_of_forall (fun _ _ => trivial) steps _) (genesis_sound params outside) hI

/-! ## Steps of examples -/

def rotate (addr newKey : Bytes) : Step :=
  .execute ⟨.rotateConsPubKey ⟨addr, some ⟨"secp256k1", newKey⟩⟩, rfl⟩

def enter (addr : Bytes) (amt : Int) : Step :=
  .execute ⟨.createValidator (newValidatorMsg addr amt), rfl⟩

abbrev firstBlock : Chain Unit := .genesis ⟨1, 1⟩ emptyState.params ()

end Keeper

end CosmosSDK.Staking
