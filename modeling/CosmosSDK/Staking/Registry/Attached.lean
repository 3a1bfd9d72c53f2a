import CosmosSDK.Staking.Registry.Keys

/-!
# Attached consensus addresses

A consensus address is attached to the validator that has its key or has asked for it in
this block, and to the validators its links lead to: a key that was rotated away is linked to
the one that replaced it, for evidence about the time it was used.  A new key is checked
against the keys of the block and one link; a key that was left two rotations ago passes the
check.
-/

namespace CosmosSDK.Staking

open Auth OrderedKV Stateful Links.Unambiguous Relation.ReflTransGen Option State

namespace Registry

variable {X : Type} {k : Keeper X} {ctx : HeaderInfo} {r r' : Registry}
  {l : List ConsPubKeyRotationHistory}

def next (r : Registry) (a : ConsAddress) : Option ConsAddress := r.oldToNewConsAddrMap[a]?

def Holds {X : Type} (k : Keeper X) (r : Registry) (a : ConsAddress) (addr : ValAddress) : Prop :=
  ∃ pk, r.keyOf addr = some pk ∧ k.consAddress pk = a

/-- The address of the key of a validator, or of the one a rotation will give it. -/
def Owns {X : Type} (k : Keeper X) (r : Registry) (l : List ConsPubKeyRotationHistory)
    (a : ConsAddress) (addr : ValAddress) : Prop :=
  r.Holds k a addr ∨
    ∃ history ∈ l, history.operatorAddress = addr ∧ k.consAddress history.newConsPubkey = a

/-- No address is attached to two validators, with the rotations of a list still to come. -/
def Separate {X : Type} (k : Keeper X) (r : Registry) (l : List ConsPubKeyRotationHistory) : Prop :=
  Links.Unambiguous r.next (r.Owns k l)

/-- An address that another validator left two or more rotations ago. -/
def LeftTwice {X : Type} (k : Keeper X) (r : Registry) (addr : ValAddress) (a : ConsAddress) : Prop :=
  ∃ b c t other, r.next a = some b ∧ r.next b = some c ∧ Links.Leads r.next c t ∧
    r.Holds k t other ∧ other ≠ addr

/-! ## The end of a block -/

variable (h : SameKeys r r')
include h

theorem SameKeys.next : r'.next = r.next := by
  funext a
  rw [Registry.next, h.oldToNew]
  rfl

theorem SameKeys.holds (a : ConsAddress) (addr : ValAddress) :
    r'.Holds k a addr ↔ r.Holds k a addr := by
  rw [Holds, Holds, h.keyOf]

theorem SameKeys.owns (a : ConsAddress) (addr : ValAddress) :
    r'.Owns k l a addr ↔ r.Owns k l a addr := by
  rw [Owns, Owns, h.holds]

omit h

theorem Separate.sameKeys (h : r.Separate k l) (hsame : SameKeys r r') : r'.Separate k l := by
  rw [Separate, hsame.next]
  exact mono h fun t addr howns => (hsame.owns t addr).mp howns

theorem Separate.remove (h : r.Separate k l) (v : Validator) : (r.remove k v).Separate k l := by
  refine mono h fun t addr howns => ?_
  rcases howns with ⟨pk, hpk, ht⟩ | hpending
  · rw [KeysIndexed.keyOf_remove] at hpk
    split at hpk
    · simp at hpk
    · exact .inl ⟨pk, hpk, ht⟩
  · exact .inr hpending

theorem Separate.rekey {history : ConsPubKeyRotationHistory} {v : Validator}
    (h : r.Separate k (history :: l)) (hl : Pending k r (history :: l))
    (haddr : v.operatorAddress = history.operatorAddress) :
    (r.rekey k v history.oldConsPubkey history.newConsPubkey).Separate k l := by
  have hold : r.Owns k (history :: l) (k.consAddress history.oldConsPubkey)
      history.operatorAddress :=
    .inl ⟨_, hl.keyOf history (List.mem_cons_self ..), rfl⟩
  have hnew : r.Owns k (history :: l) (k.consAddress history.newConsPubkey)
      history.operatorAddress :=
    .inr ⟨history, List.mem_cons_self .., rfl, rfl⟩
  refine redirect h hold hnew (fun t addr howns => ?_)
    ((lookup_insert _ _ _ _).trans (if_pos rfl))
    (fun a ha => (lookup_insert _ _ _ _).trans (if_neg ha))
  rcases howns with ⟨pk, hpk, rfl⟩ | ⟨other, hmem, hother⟩
  · have hkey : (r.rekey k v history.oldConsPubkey history.newConsPubkey).keyOf addr =
        if addr = v.operatorAddress then some history.newConsPubkey else r.keyOf addr :=
      KeysIndexed.keyOf_store r { v with consensusPubkey := history.newConsPubkey } addr
    rw [hkey] at hpk
    split at hpk
    · rename_i heq
      rw [heq, haddr, ← some.inj hpk]
      exact hnew
    · exact .inl ⟨pk, hpk, rfl⟩
  · exact .inr ⟨other, List.mem_cons_of_mem _ hmem, hother⟩

theorem Rotated.separate {updates : List Keeper.ValidatorUpdate} (h : Rotated k l updates r r')
    (hl : Pending k r l) (hs : r.Separate k l) : r'.Separate k [] := by
  induction h with
  | nil => exact hs
  | skip _ _ _ ih =>
    refine ih hl.tail (mono hs fun t addr howns => ?_)
    rcases howns with hholds | ⟨other, hmem, hother⟩
    · exact .inl hholds
    · exact .inr ⟨other, List.mem_cons_of_mem _ hmem, hother⟩
  | rotate _ haddr _ _ _ _ ih => exact ih (hl.rekey haddr) (hs.rekey hl haddr)

theorem Releases.separate (h : Releases k r r') (hs : r.Separate k []) : r'.Separate k [] := by
  induction h with
  | refl => exact hs
  | tail _ hstep ih =>
    rcases hstep.sameKeys with hsame | ⟨v, -, -, rfl⟩
    · exact ih.sameKeys hsame
    · exact ih.remove v

/-! ## Transactions -/

theorem Changes.separate (h : Changes k r r') {height : Int} (hs : r.Separate k (r.rotations height)) :
    r'.Separate k (r'.rotations height) := by
  induction h with
  | refl => exact hs
  | tail _ hstep ih =>
    rcases hstep.sameKeys with hsame | ⟨v, -, -, rfl⟩
    · rw [hsame.rotations]
      exact ih.sameKeys hsame
    · exact ih.remove v

variable {addr : ValAddress} {pk : ConsPubKey}

/-- A new key has the validator it is for as its only new owner, and no validator loses its
key. -/
theorem Tx.owns (h : Tx k ctx (some (addr, pk)) r r') :
    r'.next = r.next ∧ r'.Owns k (r'.rotations ctx.height) (k.consAddress pk) addr ∧
      (∀ a other, r.Holds k a other → r'.Holds k a other) ∧
      ∀ a other, r'.Owns k (r'.rotations ctx.height) a other →
        r.Owns k (r.rotations ctx.height) a other ∨ (a = k.consAddress pk ∧ other = addr) := by
  cases h with
  | @create r r' v hv h =>
    have hsame : SameKeys (r.create k v) r' := by
      obtain ⟨_, _, -, rfl⟩ := h
      exact ⟨keyOf_insert _ (store_lookup r v) rfl rfl rfl, rfl, rfl, rfl, rfl⟩
    have hkey : ∀ other, (r.create k v).keyOf other =
        if other = v.operatorAddress then some v.consensusPubkey else r.keyOf other :=
      KeysIndexed.keyOf_store r v
    refine ⟨hsame.next, ?_, fun a other hholds => ?_, fun a other howns => ?_⟩
    · exact .inl ((hsame.holds _ _).mpr ⟨_, (hkey _).trans (if_pos rfl), rfl⟩)
    · obtain ⟨pk, hpk, ha⟩ := hholds
      have hne : other ≠ v.operatorAddress := by
        rintro rfl
        rw [Registry.keyOf, hv.absent] at hpk
        simp at hpk
      exact (hsame.holds _ _).mpr ⟨pk, (hkey _).trans (by rw [if_neg hne]; exact hpk), ha⟩
    · rw [hsame.rotations, hsame.owns] at howns
      rcases howns with ⟨pk, hpk, ha⟩ | hpending
      · rw [hkey] at hpk
        split at hpk
        · rename_i heq
          exact .inr ⟨by rw [← ha, some.inj hpk], heq⟩
        · exact .inl (.inl ⟨pk, hpk, ha⟩)
      · exact .inl (.inr hpending)
  | @request r history h =>
    refine ⟨rfl, ?_, fun a other hholds => hholds, fun a other howns => ?_⟩
    · exact .inr ⟨history, mem_rotations.mpr ⟨h.height, (history.operatorAddress, history.height),
        (lookup_insert _ _ _ _).trans (if_pos rfl)⟩, rfl, rfl⟩
    · rcases howns with hholds | ⟨pending, hmem, hop, ha⟩
      · exact .inl (.inl hholds)
      · rcases Requested.mem_request hmem with rfl | ⟨hmem, -⟩
        · exact .inr ⟨ha.symm, hop.symm⟩
        · exact .inl (.inr ⟨pending, hmem, hop, ha⟩)

theorem Tx.unused (h : Tx k ctx (some (addr, pk)) r r') : r.Unused k ctx pk := by
  cases h with
  | create hv => exact hv.unused
  | request h => exact h.unused

theorem KeysIndexed.next_ne (hk : r.KeysIndexed k) {a b : ConsAddress}
    (hb : r.consAddrToValidatorIdentifierMap[b]? = none) : r.next a ≠ some b := by
  intro hlink
  have hmark := hk.linked a b hlink
  rw [hb] at hmark
  simp at hmark

/-- An address that passed the check for used keys is attached to nobody, or was left two
rotations ago.  The links to the addresses that were asked for are not there yet, so a way of
one link ends at a current key, which the check finds. -/
theorem Unused.attached (hk : r.KeysSound k ctx.height) (h : r.Unused k ctx pk) {other : ValAddress}
    (hattached : Links.Attached r.next (r.Owns k (r.rotations ctx.height)) (k.consAddress pk) other) :
    ∃ b c t, r.next (k.consAddress pk) = some b ∧ r.next b = some c ∧ Links.Leads r.next c t ∧
      r.Holds k t other := by
  obtain ⟨t, hleads, howns⟩ := hattached
  have hfree := Requested.free_of_resolve hk.indexed h.resolve
  have hindex : ∀ t, r.Holds k t other → r.validatorByConsensusAddress[t]? = some other :=
    fun t hholds => (hk.indexed.indexed t other).mpr hholds
  have hmarked : ∀ history ∈ r.rotations ctx.height, ∀ a,
      r.next a ≠ some (k.consAddress history.newConsPubkey) :=
    fun history hmem a => hk.indexed.next_ne (hk.requested.pending.unmarked history hmem)
  rcases cases_head hleads with rfl | ⟨b, hb, hleads⟩
  · rcases howns with hholds | ⟨history, hmem, -, ha⟩
    · rw [hindex _ hholds] at hfree
      simp at hfree
    · exact absurd ha (h.requested history hmem)
  rcases cases_head hleads with rfl | ⟨c, hc, hleads⟩
  · rcases howns with hholds | ⟨history, hmem, -, rfl⟩
    · have hentry := hindex b hholds
      have hresolve := h.resolve
      obtain ⟨_, hpk', -⟩ := hholds
      rw [Registry.resolve, hfree, show r.oldToNewConsAddrMap[k.consAddress pk]? = some b from hb]
        at hresolve
      rw [Registry.keyOf] at hpk'
      simp only [bind_eq_bind, bind_some, hentry] at hresolve
      rw [hresolve] at hpk'
      simp at hpk'
    · exact absurd hb (hmarked history hmem _)
  · rcases howns with hholds | ⟨history, hmem, -, rfl⟩
    · exact ⟨b, c, t, hb, hc, hleads, hholds⟩
    · have heq := Links.Leads.eq_of_no_entry (hmarked history hmem) hleads
      exact absurd (heq ▸ hc) (hmarked history hmem b)

/-- After a new key was accepted, addresses are attached to one validator exactly if it was
not left two rotations ago by another. -/
theorem Tx.separate_iff (h : Tx k ctx (some (addr, pk)) r r') (hk : r.KeysSound k ctx.height)
    (hs : r.Separate k (r.rotations ctx.height)) :
    r'.Separate k (r'.rotations ctx.height) ↔ ¬ r.LeftTwice k addr (k.consAddress pk) := by
  obtain ⟨hnext, hnew, hkeep, hcases⟩ := h.owns
  have hunused := h.unused
  constructor
  · rintro hs' ⟨b, c, t, other, hb, hc, hleads, hholds, hne⟩
    refine hne (hs' (k.consAddress pk) other addr ⟨t, ?_, .inl (hkeep t other hholds)⟩
      ⟨k.consAddress pk, .refl, hnew⟩)
    rw [hnext]
    exact .head hb (.head hc hleads)
  · intro hleft
    rw [Separate, hnext]
    refine extend hs (fun a => hk.indexed.next_ne hunused.identifier)
      (fun other hattached => ?_) hcases
    obtain ⟨b, c, t, hb, hc, hleads, hholds⟩ := hunused.attached hk hattached
    exact Classical.byContradiction fun hne => hleft ⟨b, c, t, other, hb, hc, hleads, hholds, hne⟩

end Registry

/-- No consensus address is attached to two validators. -/
def Chain.Separate {X : Type} (k : Keeper X) (c : Chain X) : Prop :=
  c.state.registry.Separate k (c.state.registry.rotations c.header.height)

/-- A step does not bring a key that another validator left two rotations ago. -/
def Step.BringsFresh {X : Type} (k : Keeper X) (step : Step) (c : Chain X) : Prop :=
  ∀ addr pk, step.newKey = some (addr, pk) →
    ¬ c.state.registry.LeftTwice k addr (k.consAddress pk)

namespace Keeper

open Registry

variable {X : Type} {k : Keeper X}

theorem endBlock_separate {header : HeaderInfo} {s s' : State X} {updates : List ValidatorUpdate}
    (hr : s.registry.Keyed) (hk : s.registry.KeysSound k header.height)
    (hs : s.registry.Separate k (s.registry.rotations header.height))
    (h : k.blockValidatorUpdates header s = .ok updates s') : s'.registry.Separate k [] := by
  obtain ⟨_, happly, hreleases⟩ := blockValidatorUpdates_registry hr h
  obtain ⟨r1, _, _, hturns1, hrotated, hturns2⟩ :=
    applyAndReturnValidatorSetUpdates_turns hr happly
  have hsame := hturns1.sameKeys
  have hpending : Pending k r1 (r1.rotations header.height) := by
    rw [hsame.rotations]
    exact hk.requested.pending.sameKeys hsame
  have hs1 : r1.Separate k (r1.rotations header.height) := by
    rw [hsame.rotations]
    exact hs.sameKeys hsame
  exact hreleases.separate ((hrotated.separate hpending hs1).sameKeys hturns2.sameKeys)

variable {c : Chain X} {step : Step}

theorem advance_separate (hc : c.state.Sound) (hk : c.state.registry.KeysSound k c.header.height)
    (hs : c.Separate k) (hfresh : step.BringsFresh k c) : (k.advance step c).2.Separate k := by
  obtain h | ⟨s, h, -, htx⟩ | ⟨heights, duration, updates, s, -, hblock, -, h⟩ :=
    advance_cases hc step
  · rw [h]
    exact hs
  · rw [h]
    cases hkey : step.newKey with
    | none =>
      rw [hkey] at htx
      cases htx with
      | changes hchanges => exact hchanges.separate hs
    | some key =>
      rw [hkey] at htx
      exact (htx.separate_iff hk hs).mpr (hfresh key.1 key.2 hkey)
  · obtain ⟨hnone, -⟩ := blockValidatorUpdates_keys hc.keyed hk hblock
      (show c.header.height < c.header.height + 1 + heights by omega)
    rw [h]
    show s.registry.Separate k (s.registry.rotations (c.header.height + 1 + heights))
    rw [hnone]
    exact endBlock_separate hc.keyed hk hs hblock

theorem genesis_separate (params : Params) (outside : X) (header : HeaderInfo) :
    (Chain.genesis header params outside).Separate k := by
  rintro a addr addr' ⟨t, -, hholds | ⟨history, hmem, -⟩⟩
  · simp [Chain.genesis, genesis, registry, Holds, keyOf] at hholds
  · simp [Chain.genesis, genesis, registry, mem_rotations] at hmem

/-- In a run whose steps bring no key that another validator left two rotations ago, no address
is ever attached to two validators; and the first accepted key that was left so ends this. -/
theorem reached_separate_iff (k : Keeper X) (header : HeaderInfo) (params : Params) (outside : X)
    (steps : List Step)
    (h : Machine.Along k.advance (Step.BringsFresh k) steps (.genesis header params outside)) :
    (k.reached steps (.genesis header params outside)).Separate k ∧
      ∀ (op : {op : Op // op.inBlock = true}) (addr : ValAddress) (pk : ConsPubKey) (s : State X),
        op.1.newKey = some (addr, pk) →
        k.exec (k.reached steps (.genesis header params outside)).header op
          (k.reached steps (.genesis header params outside)).state = .ok () s →
        ((k.reached (steps ++ [.execute op]) (.genesis header params outside)).Separate k ↔
          ¬ (k.reached steps (.genesis header params outside)).state.registry.LeftTwice k addr
            (k.consAddress pk)) := by
  obtain ⟨hsound, hkeys, hs⟩ := reached_invariant
    (I := fun c => c.state.registry.KeysSound k c.header.height ∧ c.Separate k)
    (fun step c hc hfresh hI => ⟨advance_keysSound hc hI.1 step, advance_separate hc hI.1 hI.2 hfresh⟩)
    h (genesis_sound params outside) ⟨genesis_keysSound params outside _, genesis_separate params outside _⟩
  refine ⟨hs, fun op addr pk s hkey hexec => ?_⟩
  have htx := exec_tx hsound.formed hsound.surplus op.2 hexec
  rw [hkey] at htx
  rw [reached, Machine.run_append]
  simp only [Machine.run, advance, callStep, hexec]
  exact htx.separate_iff hkeys hs

def rotatedTwice : List Step :=
  [enter [1] 100, .endBlock 0 0, rotate [1] [11], .endBlock 0 20, .endBlock 0 0, rotate [1] [12],
    .endBlock 0 0]

def enterWithLeftKey : {op : Op // op.inBlock = true} :=
  ⟨.createValidator { newValidatorMsg [2] 50 with pubkey := some ⟨"secp256k1", [1]⟩ }, rfl⟩

/-- Both have a claim to the first key: the new one has it, and the links lead from it to the
key of the other. -/
theorem rotatedTwice_not_separate :
    ¬ (plainKeeper.reached (rotatedTwice ++ [.execute enterWithLeftKey]) firstBlock).Separate
      plainKeeper := by
  intro hs
  have heq := hs [1] [1] [2]
    ⟨[12], .head (b := [11]) (by decide +kernel) (.single (by decide +kernel)),
      .inl ⟨⟨"secp256k1", [12]⟩, by decide +kernel, rfl⟩⟩
    ⟨[1], .refl, .inl ⟨⟨"secp256k1", [1]⟩, by decide +kernel, rfl⟩⟩
  exact absurd heq (by decide)

theorem bringsFresh_of_unlinked
    (h : (step.newKey.all fun key => (c.state.registry.next (k.consAddress key.2)).isNone) = true) :
    step.BringsFresh k c := by
  rintro addr pk hkey ⟨b, -, -, -, hb, -⟩
  rw [hkey] at h
  simp [hb] at h

theorem reached_separate_iff_rotatedTwice :
    (plainKeeper.reached rotatedTwice firstBlock).Separate plainKeeper :=
  (reached_separate_iff plainKeeper ⟨1, 1⟩ emptyState.params () rotatedTwice
    (Machine.Along.mono (fun _ _ => bringsFresh_of_unlinked) (by decide +kernel))).1

end Keeper

end CosmosSDK.Staking
