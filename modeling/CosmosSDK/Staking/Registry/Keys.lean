import CosmosSDK.Lib.Links
import CosmosSDK.Staking.Registry.Queue

/-!
# Consensus keys

The index by consensus address holds exactly the current keys, and a rotation that was
requested in the block brings a key nobody has.  Keys that were rotated away are linked to
their successors; the owner of a key is the validator that has it or has asked for it.
-/

namespace CosmosSDK.Staking

open Auth OrderedKV List Registry Option

namespace Registry

variable {X : Type} {k : Keeper X} {ctx : HeaderInfo} {r r' : Registry}

/-! ## Changes that leave the keys alone -/

def keyOf (r : Registry) (addr : ValAddress) : Option ConsPubKey :=
  (r.validators[addr]?).map Validator.consensusPubkey

variable {addr : ValAddress} {v : Validator} {height : Int} {l : List ConsPubKeyRotationHistory}
  {updates : List Keeper.ValidatorUpdate}

theorem keyOf_eq (hv : r.validators[addr]? = some v) :
    r.keyOf addr = some v.consensusPubkey := by
  rw [keyOf, hv]
  rfl

structure SameKeys (r r' : Registry) : Prop where
  keyOf : ∀ addr, r'.keyOf addr = r.keyOf addr
  byConsensusAddress : r'.validatorByConsensusAddress = r.validatorByConsensusAddress
  history : r'.rotationHistory = r.rotationHistory
  identifier : r'.consAddrToValidatorIdentifierMap = r.consAddrToValidatorIdentifierMap
  oldToNew : r'.oldToNewConsAddrMap = r.oldToNewConsAddrMap

theorem SameKeys.refl (r : Registry) : SameKeys r r := ⟨fun _ => rfl, rfl, rfl, rfl, rfl⟩

theorem SameKeys.trans {r'' : Registry} (h : SameKeys r r') (h' : SameKeys r' r'') :
    SameKeys r r'' :=
  ⟨fun addr => (h'.keyOf addr).trans (h.keyOf addr),
    h'.byConsensusAddress.trans h.byConsensusAddress, h'.history.trans h.history,
    h'.identifier.trans h.identifier, h'.oldToNew.trans h.oldToNew⟩

theorem SameKeys.rotations (h : SameKeys r r') (height : Int) :
    r'.rotations height = r.rotations height := by
  rw [Registry.rotations, h.history]
  rfl

theorem keyOf_insert (v' : Validator) (hv : r.validators[v.operatorAddress]? = some v)
    (hvalidators : r'.validators = r.validators.insert v'.operatorAddress v')
    (haddr : v'.operatorAddress = v.operatorAddress) (hkey : v'.consensusPubkey = v.consensusPubkey)
    (addr : ValAddress) : r'.keyOf addr = r.keyOf addr := by
  simp only [keyOf, hvalidators, lookup_insert]
  split
  · rename_i heq
    rw [heq, haddr, hv]
    exact congrArg some hkey
  · rfl

theorem Change.sameKeys (h : Change k r r') :
    SameKeys r r' ∨ ∃ v, r.validators[v.operatorAddress]? = some v ∧ v.status = .unbonded ∧
      r' = r.remove k v := by
  cases h with
  | restake tokens delegatorShares hv _ | jail hv | unjail hv _ =>
    exact .inl ⟨keyOf_insert _ hv rfl rfl rfl, rfl, rfl, rfl, rfl⟩
  | edit description commission minSelfDelegation hv =>
    exact .inl ⟨keyOf_insert _ hv rfl rfl rfl, rfl, rfl, rfl, rfl⟩
  | remove hv hstatus => exact .inr ⟨_, hv, hstatus, rfl⟩

theorem Turn.sameKeys (h : Turn k ctx r r') : SameKeys r r' := by
  cases h with
  | bond hv _ _ | beginUnbonding unbondingTime hv _ =>
    exact ⟨keyOf_insert _ hv rfl rfl rfl, rfl, rfl, rfl, rfl⟩
  | report => exact ⟨fun _ => rfl, rfl, rfl, rfl, rfl⟩

theorem Turns.sameKeys (h : Turns k ctx r r') : SameKeys r r' := by
  induction h with
  | refl => exact SameKeys.refl _
  | tail _ hstep ih => exact ih.trans hstep.sameKeys

theorem Release.sameKeys (h : Release k r r') :
    SameKeys r r' ∨ ∃ v, r.validators[v.operatorAddress]? = some v ∧ v.status = .unbonded ∧
      r' = r.remove k v := by
  cases h with
  | finishUnbonding hv => exact .inl ⟨keyOf_insert _ hv rfl rfl rfl, rfl, rfl, rfl, rfl⟩
  | remove hv hstatus => exact .inr ⟨_, hv, hstatus, rfl⟩

/-! ## The index by consensus address -/

/-- The index holds exactly the current keys, and a key a link leads to is marked as used. -/
structure KeysIndexed {X : Type} (k : Keeper X) (r : Registry) : Prop where
  indexed : ∀ (consAddr : ConsAddress) (addr : ValAddress),
    r.validatorByConsensusAddress[consAddr]? = some addr ↔
      ∃ pk, r.keyOf addr = some pk ∧ k.consAddress pk = consAddr
  linked : ∀ (a b : ConsAddress), r.oldToNewConsAddrMap[a]? = some b →
    (r.consAddrToValidatorIdentifierMap[b]?).isSome

namespace KeysIndexed

theorem sameKeys (h : r.KeysIndexed k) (hsame : SameKeys r r') : r'.KeysIndexed k := by
  refine ⟨fun consAddr addr => ?_, fun a b hlink => ?_⟩
  · rw [hsame.byConsensusAddress, hsame.keyOf]
    exact h.indexed consAddr addr
  · rw [hsame.identifier]
    exact h.linked a b (hsame.oldToNew ▸ hlink)

theorem owner_eq (h : r.KeysIndexed k) {pk pk' : ConsPubKey} {addr addr' : ValAddress}
    (hpk : r.keyOf addr = some pk) (hpk' : r.keyOf addr' = some pk')
    (heq : k.consAddress pk = k.consAddress pk') : addr = addr' := by
  have h1 := (h.indexed _ addr).mpr ⟨pk, hpk, rfl⟩
  have h2 := (h.indexed _ addr').mpr ⟨pk', hpk', rfl⟩
  rw [heq] at h1
  exact mem_unique h1 h2

theorem keyOf_remove (r : Registry) (v : Validator) (addr : ValAddress) :
    (r.remove k v).keyOf addr = if addr = v.operatorAddress then none else r.keyOf addr := by
  simp only [keyOf, remove, lookup_erase]
  split <;> rfl

theorem keyOf_store (r : Registry) (v : Validator) (addr : ValAddress) : (r.store v).keyOf addr =
      if addr = v.operatorAddress then some v.consensusPubkey else r.keyOf addr := by
  simp only [keyOf, store, lookup_insert]
  split <;> rfl

variable {v : Validator}

variable (h : r.KeysIndexed k)
include h

theorem remove (hv : r.validators[v.operatorAddress]? = some v) :
    (r.remove k v).KeysIndexed k := by
  have hkey := keyOf_eq hv
  refine ⟨fun consAddr addr => ?_, h.linked⟩
  rw [keyOf_remove]
  simp only [Registry.remove, lookup_erase]
  by_cases hself : addr = v.operatorAddress
  · subst hself
    simp only [if_true, reduceCtorEq, false_and, exists_false, iff_false]
    split
    · simp
    · rename_i hne
      intro hentry
      obtain ⟨pk, hpk, rfl⟩ := (h.indexed consAddr _).mp hentry
      exact hne (by rw [mem_unique hpk hkey])
  · rw [if_neg hself]
    split
    · rename_i heq
      simp only [reduceCtorEq, false_iff, not_exists, not_and]
      intro pk hpk hcons
      exact hself (h.owner_eq hpk hkey (hcons.trans heq))
    · exact h.indexed consAddr addr

/-- A validator gets a key that is not in the index; the one it had leaves it. -/
theorem assign {index : OrdMap ConsAddress ValAddress}
    (hfree : r.validatorByConsensusAddress[k.consAddress v.consensusPubkey]? = none)
    (hindex : ∀ consAddr addr, index[consAddr]? = some addr ↔
      (consAddr = k.consAddress v.consensusPubkey ∧ addr = v.operatorAddress) ∨
        (consAddr ≠ k.consAddress v.consensusPubkey ∧ addr ≠ v.operatorAddress ∧
          r.validatorByConsensusAddress[consAddr]? = some addr)) :
    ∀ consAddr addr, index[consAddr]? = some addr ↔
      ∃ pk, (r.store v).keyOf addr = some pk ∧ k.consAddress pk = consAddr := by
  intro consAddr addr
  rw [hindex, keyOf_store]
  by_cases hself : addr = v.operatorAddress
  · subst hself
    simp [eq_comm]
  · simp only [hself, if_false, and_false, false_or, ne_eq, not_false_eq_true, true_and]
    rw [← h.indexed consAddr addr]
    constructor
    · exact fun hentry => hentry.2
    · intro hentry
      refine ⟨fun heq => ?_, hentry⟩
      rw [heq, hfree] at hentry
      simp at hentry

theorem create (habsent : r.validators[v.operatorAddress]? = none)
    (hfree : r.validatorByConsensusAddress[k.consAddress v.consensusPubkey]? = none) :
    (r.create k v).KeysIndexed k := by
  refine ⟨h.assign hfree fun consAddr addr => ?_, h.linked⟩
  simp only [Registry.create, lookup_insert]
  split
  · rename_i heq
    simp [heq, eq_comm]
  · rename_i hne
    simp only [hne, false_and, false_or, ne_eq, not_false_eq_true, true_and]
    constructor
    · intro hentry
      refine ⟨fun heq => ?_, hentry⟩
      obtain ⟨_, hpk, -⟩ := (h.indexed consAddr addr).mp hentry
      rw [heq, keyOf, habsent] at hpk
      simp at hpk
    · exact fun hentry => hentry.2

theorem rekey {newPubKey : ConsPubKey} (hv : r.validators[v.operatorAddress]? = some v)
    (hfree : r.validatorByConsensusAddress[k.consAddress newPubKey]? = none) :
    (r.rekey k v v.consensusPubkey newPubKey).KeysIndexed k := by
  have hkey := keyOf_eq hv
  refine ⟨h.assign hfree fun consAddr addr => ?_,
    fun a b hlink => ?_⟩
  · simp only [Registry.rekey, lookup_insert, lookup_erase]
    split
    · rename_i heq
      simp [heq, eq_comm]
    · rename_i hne
      simp only [hne, false_and, false_or, ne_eq, not_false_eq_true, true_and]
      constructor
      · intro hentry
        split at hentry
        · simp at hentry
        · rename_i hold
          refine ⟨fun heq => ?_, hentry⟩
          obtain ⟨_, hpk, hcons⟩ := (h.indexed consAddr addr).mp hentry
          rw [heq] at hpk
          exact hold (by rw [← hcons, mem_unique hpk hkey])
      · rintro ⟨hself, hentry⟩
        rw [if_neg fun heq => ?_]
        · exact hentry
        · obtain ⟨_, hpk, hcons⟩ := (h.indexed consAddr addr).mp hentry
          exact hself (h.owner_eq hpk hkey (hcons.trans heq))
  · simp only [Registry.rekey, lookup_insert] at hlink ⊢
    split
    · rfl
    · rename_i hne
      split at hlink
      · exact absurd (some.inj hlink).symm hne
      · exact h.linked a b hlink

end KeysIndexed

/-! ## Requested rotations -/

theorem mem_rotations {history : ConsPubKeyRotationHistory} : history ∈ r.rotations height ↔
      history.height = height ∧
        ∃ key : ValAddress × Int, r.rotationHistory[key]? = some history := by
  rw [rotations, mem_filter, mem_values, decide_eq_true_eq, and_comm]

/-- Rotations that can be carried out, one after the other: each validator has the key it
gives up, and nobody has the keys they bring. -/
structure Pending {X : Type} (k : Keeper X) (r : Registry) (l : List ConsPubKeyRotationHistory) :
    Prop where
  keyOf : ∀ history ∈ l, r.keyOf history.operatorAddress = some history.oldConsPubkey
  free : ∀ history ∈ l,
    r.validatorByConsensusAddress[k.consAddress history.newConsPubkey]? = none
  unmarked : ∀ history ∈ l,
    r.consAddrToValidatorIdentifierMap[k.consAddress history.newConsPubkey]? = none
  apart : ∀ history ∈ l, ∀ history' ∈ l, history.operatorAddress ≠ history'.operatorAddress →
    k.consAddress history.newConsPubkey ≠ k.consAddress history'.newConsPubkey
  distinct : l.Pairwise (fun a b => a.operatorAddress ≠ b.operatorAddress)

namespace Pending

variable {l : List ConsPubKeyRotationHistory} {history : ConsPubKeyRotationHistory}

theorem sameKeys (h : Pending k r l) (hsame : SameKeys r r') : Pending k r' l where
  keyOf history hmem := by rw [hsame.keyOf]; exact h.keyOf history hmem
  free history hmem := by rw [hsame.byConsensusAddress]; exact h.free history hmem
  unmarked history hmem := by rw [hsame.identifier]; exact h.unmarked history hmem
  apart := h.apart
  distinct := h.distinct

variable {v : Validator}

theorem key_eq (h : Pending k r l) (hmem : history ∈ l)
    (hv : r.validators[history.operatorAddress]? = some v) :
    v.consensusPubkey = history.oldConsPubkey := by
  have hkey := h.keyOf history hmem
  rw [Registry.keyOf, hv] at hkey
  exact some.inj hkey

theorem tail (h : Pending k r (history :: l)) : Pending k r l where
  keyOf history hmem := h.keyOf history (mem_cons_of_mem _ hmem)
  free history hmem := h.free history (mem_cons_of_mem _ hmem)
  unmarked history hmem := h.unmarked history (mem_cons_of_mem _ hmem)
  apart a ha b hb := h.apart a (mem_cons_of_mem _ ha) b (mem_cons_of_mem _ hb)
  distinct := (pairwise_cons.mp h.distinct).2

theorem rekey (h : Pending k r (history :: l)) (haddr : v.operatorAddress = history.operatorAddress) :
    Pending k (r.rekey k v history.oldConsPubkey history.newConsPubkey) l := by
  obtain ⟨hnew, hdistinct⟩ := pairwise_cons.mp h.distinct
  have hne : ∀ other ∈ l, k.consAddress other.newConsPubkey ≠ k.consAddress history.newConsPubkey :=
    fun other hmem => (h.apart history (mem_cons_self ..) other (mem_cons_of_mem _ hmem)
      (hnew other hmem)).symm
  refine ⟨fun other hmem => ?_, fun other hmem => ?_, fun other hmem => ?_, h.tail.apart, hdistinct⟩
  · have hother := haddr ▸ (hnew other hmem).symm
    rw [← h.keyOf other (mem_cons_of_mem _ hmem)]
    exact (KeysIndexed.keyOf_store r { v with consensusPubkey := history.newConsPubkey } _).trans
      (if_neg hother)
  · simp only [Registry.rekey, lookup_insert, if_neg (hne other hmem), lookup_erase]
    split
    · rfl
    · exact h.free other (mem_cons_of_mem _ hmem)
  · simp only [Registry.rekey, lookup_insert, if_neg (hne other hmem)]
    exact h.unmarked other (mem_cons_of_mem _ hmem)

end Pending

theorem Rotated.keysIndexed (h : Rotated k l updates r r') (hr : r.Keyed) (hk : r.KeysIndexed k)
    (hl : Pending k r l) : r'.KeysIndexed k := by
  induction h with
  | nil => exact hk
  | skip _ _ _ ih => exact ih hr hk hl.tail
  | @rotate history l _ r _ v hv haddr _ _ _ _ ih =>
    have hold := hl.key_eq (mem_cons_self ..) hv
    refine ih (hr.rekey _ _ _) ?_ (hl.rekey haddr)
    rw [← hold]
    exact hk.rekey (hr.stored hv) (hl.free history (mem_cons_self ..))

structure Requested {X : Type} (k : Keeper X) (height : Int) (r : Registry) : Prop where
  keyed : ∀ (key : ValAddress × Int) (history : ConsPubKeyRotationHistory),
    r.rotationHistory[key]? = some history →
      key = (history.operatorAddress, history.height) ∧ history.height ≤ height
  pending : Pending k r (r.rotations height)
  bonded : ∀ history ∈ r.rotations height,
    ∃ v, r.validators[history.operatorAddress]? = some v ∧ v.status = .bonded

namespace Requested

variable {height : Int}

theorem sameKeys (h : r.Requested k height) (hsame : SameKeys r r')
    (hbonded : ∀ (addr : ValAddress) (v : Validator), r.validators[addr]? = some v →
      v.status = .bonded → ∃ v', r'.validators[addr]? = some v' ∧ v'.status = .bonded) :
    r'.Requested k height := by
  refine ⟨hsame.history ▸ h.keyed, ?_, fun history hmem => ?_⟩
  · rw [hsame.rotations]
    exact h.pending.sameKeys hsame
  · rw [hsame.rotations] at hmem
    obtain ⟨v, hv, hstatus⟩ := h.bonded history hmem
    exact hbonded _ v hv hstatus

variable {v : Validator} {history : ConsPubKeyRotationHistory}

theorem remove (h : r.Requested k height) (hv : r.validators[v.operatorAddress]? = some v)
    (hstatus : v.status = .unbonded) : (r.remove k v).Requested k height := by
  have hne : ∀ history ∈ r.rotations height, history.operatorAddress ≠ v.operatorAddress := by
    intro history hmem heq
    obtain ⟨_, hw, hbonded⟩ := h.bonded history hmem
    rw [heq] at hw
    rw [mem_unique hw hv, hstatus] at hbonded
    simp at hbonded
  refine ⟨h.keyed, ⟨fun history hmem => ?_, fun history hmem => ?_, h.pending.unmarked, h.pending.apart,
    h.pending.distinct⟩, fun history hmem => ?_⟩
  · rw [KeysIndexed.keyOf_remove, if_neg (hne history hmem)]
    exact h.pending.keyOf history hmem
  · simp only [Registry.remove, lookup_erase]
    split
    · rfl
    · exact h.pending.free history hmem
  · simp only [Registry.remove, lookup_erase, if_neg (hne history hmem)]
    exact h.bonded history hmem

theorem create (h : r.Requested k ctx.height) (hv : r.Enters k ctx v) :
    (r.create k v).Requested k ctx.height := by
  have hne : ∀ history ∈ r.rotations ctx.height, history.operatorAddress ≠ v.operatorAddress := by
    intro history hmem heq
    obtain ⟨_, hw, -⟩ := h.bonded history hmem
    rw [heq, hv.absent] at hw
    simp at hw
  refine ⟨h.keyed, ⟨fun history hmem => ?_, fun history hmem => ?_, h.pending.unmarked, h.pending.apart,
    h.pending.distinct⟩, fun history hmem => ?_⟩
  · rw [← h.pending.keyOf history hmem]
    exact (KeysIndexed.keyOf_store r v _).trans (if_neg (hne history hmem))
  · simp only [Registry.create, lookup_insert, if_neg (hv.unused.requested history hmem)]
    exact h.pending.free history hmem
  · simp only [Registry.create, lookup_insert, if_neg (hne history hmem)]
    exact h.bonded history hmem

theorem free_of_resolve (hk : r.KeysIndexed k) {consAddr : ConsAddress}
    (h : r.resolve consAddr = none) : r.validatorByConsensusAddress[consAddr]? = none := by
  cases hentry : r.validatorByConsensusAddress[consAddr]? with
  | none => rfl
  | some addr =>
    obtain ⟨_, hpk, -⟩ := (hk.indexed consAddr addr).mp hentry
    rw [resolve, hentry] at h
    rw [keyOf, show r.validators[addr]? = none from h] at hpk
    simp at hpk

theorem mem_request {other : ConsPubKeyRotationHistory}
    (h : other ∈ (r.request history).rotations height) :
    other = history ∨ (other ∈ r.rotations height ∧
      ∃ key, key ≠ (history.operatorAddress, history.height) ∧
        r.rotationHistory[key]? = some other) := by
  obtain ⟨hheight, key, hkey⟩ := mem_rotations.mp h
  simp only [request, lookup_insert] at hkey
  split at hkey
  · exact .inl (some.inj hkey).symm
  · rename_i hne
    exact .inr ⟨mem_rotations.mpr ⟨hheight, key, hkey⟩, key, hne, hkey⟩

theorem distinct_of_keyed
    (h : ∀ (key : ValAddress × Int) (history : ConsPubKeyRotationHistory),
      r.rotationHistory[key]? = some history → key = (history.operatorAddress, history.height)) :
    (r.rotations height).Pairwise (fun a b => a.operatorAddress ≠ b.operatorAddress) := by
  have hall := values_pairwise_ne fun key history hkey => (h key history hkey).symm
  refine (hall.filter _).imp_of_mem fun {a b} ha hb hne heq => hne ?_
  have ha : a.height = height := by simpa using (mem_filter.mp ha).2
  have hb : b.height = height := by simpa using (mem_filter.mp hb).2
  rw [heq, ha, hb]

theorem request (hk : r.KeysIndexed k) (h : r.Requested k ctx.height)
    (hreq : r.Requests k ctx history) : (r.request history).Requested k ctx.height := by
  have hkeyed : ∀ (key : ValAddress × Int) (other : ConsPubKeyRotationHistory),
      (r.request history).rotationHistory[key]? = some other →
        key = (other.operatorAddress, other.height) ∧ other.height ≤ ctx.height := by
    intro key other hkey
    simp only [Registry.request, lookup_insert] at hkey
    split at hkey
    · rename_i heq
      cases hkey
      exact ⟨heq, hreq.height.le⟩
    · exact h.keyed key other hkey
  obtain ⟨v, hv, hstatus, hold⟩ := hreq.stored
  have hcases : ∀ other ∈ (r.request history).rotations ctx.height,
      other = history ∨ other ∈ r.rotations ctx.height :=
    fun other hmem => (mem_request hmem).imp_right And.left
  have hapart := hreq.unused.requested
  refine ⟨hkeyed, ⟨fun other hmem => ?_, fun other hmem => ?_, fun other hmem => ?_,
    fun a ha b hb hne => ?_, distinct_of_keyed fun key other hkey => (hkeyed key other hkey).1⟩,
    fun other hmem => ?_⟩
  · rcases hcases other hmem with rfl | hmem
    · show (r.validators[other.operatorAddress]?).map _ = _
      rw [hv, ← hold]
      rfl
    · exact h.pending.keyOf other hmem
  · rcases hcases other hmem with rfl | hmem
    · exact free_of_resolve hk hreq.unused.resolve
    · exact h.pending.free other hmem
  · rcases hcases other hmem with rfl | hmem
    · exact hreq.unused.identifier
    · exact h.pending.unmarked other hmem
  · rcases hcases a ha with ha | ha <;> rcases hcases b hb with hb | hb
    · exact absurd (by rw [ha, hb]) hne
    · exact ha ▸ (hapart b hb).symm
    · exact hb ▸ hapart a ha
    · exact h.pending.apart a ha b hb hne
  · rcases hcases other hmem with rfl | hmem
    · exact ⟨v, hv, hstatus⟩
    · exact h.bonded other hmem

theorem next (h : ∀ (key : ValAddress × Int) (history : ConsPubKeyRotationHistory),
      r.rotationHistory[key]? = some history →
        key = (history.operatorAddress, history.height) ∧ history.height ≤ height)
    {height' : Int} (hlt : height < height') :
    r.rotations height' = [] ∧ r.Requested k height' := by
  have hnone : r.rotations height' = [] := by
    rw [eq_nil_iff_forall_not_mem]
    intro history hmem
    obtain ⟨_, key, hkey⟩ := mem_rotations.mp hmem
    have hle := (h key history hkey).2
    omega
  refine ⟨hnone, fun key history hkey => ⟨(h key history hkey).1, ?_⟩, ?_, ?_⟩
  · have hle := (h key history hkey).2
    omega
  · rw [hnone]
    exact ⟨by simp, by simp, by simp, by simp, .nil⟩
  · rw [hnone]
    simp

end Requested

theorem Change.bonded (h : Change k r r') (hv : r.validators[addr]? = some v)
    (hstatus : v.status = .bonded) : ∃ v', r'.validators[addr]? = some v' ∧ v'.status = .bonded ∧
      v'.consensusPubkey = v.consensusPubkey := by
  have hwrite : ∀ {w : Validator} (w' : Validator), r.validators[w.operatorAddress]? = some w →
      r'.validators = r.validators.insert w'.operatorAddress w' →
      w'.operatorAddress = w.operatorAddress → w'.status = w.status →
      w'.consensusPubkey = w.consensusPubkey →
      ∃ v', r'.validators[addr]? = some v' ∧ v'.status = .bonded ∧
        v'.consensusPubkey = v.consensusPubkey := by
    grind [lookup_insert]
  cases h with
  | restake tokens delegatorShares hw _ | edit description commission minSelfDelegation hw =>
    exact hwrite _ hw rfl rfl rfl rfl
  | jail hw | unjail hw _ => exact hwrite _ hw rfl rfl rfl rfl
  | @remove w hw hunbonded =>
    have hne : addr ≠ w.operatorAddress := by
      intro heq
      rw [heq] at hv
      rw [mem_unique hv hw, hunbonded] at hstatus
      simp at hstatus
    exact ⟨v, (lookup_erase _ _ _).trans (by rw [if_neg hne]; exact hv), hstatus, rfl⟩

structure KeysSound {X : Type} (k : Keeper X) (height : Int) (r : Registry) : Prop where
  indexed : r.KeysIndexed k
  requested : r.Requested k height

theorem Change.keysSound (h : Change k r r') (hk : r.KeysSound k height) :
    r'.KeysSound k height := by
  rcases h.sameKeys with hsame | ⟨v, hv, hstatus, rfl⟩
  · refine ⟨hk.indexed.sameKeys hsame, hk.requested.sameKeys hsame fun addr v hv hbonded => ?_⟩
    obtain ⟨v', hv', hbonded', -⟩ := h.bonded hv hbonded
    exact ⟨v', hv', hbonded'⟩
  · exact ⟨hk.indexed.remove hv, hk.requested.remove hv hstatus⟩

theorem Changes.keysSound (h : Changes k r r') (hk : r.KeysSound k height) :
    r'.KeysSound k height :=
  keeps Change.keysSound h hk

theorem Tx.keysSound {key : Option (ValAddress × ConsPubKey)} (h : Tx k ctx key r r')
    (hk : r.KeysSound k ctx.height) : r'.KeysSound k ctx.height := by
  cases h with
  | changes h => exact h.keysSound hk
  | create hv h =>
    exact h.created.keysSound
      ⟨hk.indexed.create hv.absent (Requested.free_of_resolve hk.indexed hv.unused.resolve),
        hk.requested.create hv⟩
  | request h => exact ⟨⟨hk.indexed.indexed, hk.indexed.linked⟩, hk.requested.request hk.indexed h⟩

theorem Rotated.history (h : Rotated k l updates r r') :
    r'.rotationHistory = r.rotationHistory := by
  induction h with
  | nil => rfl
  | skip _ _ _ ih | rotate _ _ _ _ _ _ ih => exact ih

theorem Release.history (h : Release k r r') : r'.rotationHistory = r.rotationHistory := by
  cases h with
  | finishUnbonding hv _ | remove hv _ => rfl

theorem Release.keysIndexed (h : Release k r r') (hk : r.KeysIndexed k) : r'.KeysIndexed k := by
  rcases h.sameKeys with hsame | ⟨v, hv, -, rfl⟩
  · exact hk.sameKeys hsame
  · exact hk.remove hv

theorem Releases.keys (h : Releases k r r') (hk : r.KeysIndexed k) :
    r'.KeysIndexed k ∧ r'.rotationHistory = r.rotationHistory := by
  induction h with
  | refl => exact ⟨hk, rfl⟩
  | tail _ hstep ih => exact ⟨hstep.keysIndexed ih.1, hstep.history.trans ih.2⟩

end Registry

namespace Keeper

open Registry

variable {X : Type} {k : Keeper X} {ctx : HeaderInfo} {s s' : State X}
  {updates : List ValidatorUpdate}

theorem applyAndReturnValidatorSetUpdates_keys (hr : s.registry.Keyed)
    (hk : s.registry.KeysSound k ctx.height)
    (h : k.applyAndReturnValidatorSetUpdates ctx s = .ok updates s') :
    s'.registry.KeysIndexed k ∧ s'.registry.rotationHistory = s.registry.rotationHistory := by
  obtain ⟨r1, _, _, hturns1, hrotated, hturns2⟩ := applyAndReturnValidatorSetUpdates_turns hr h
  have hsame1 := hturns1.sameKeys
  have hsame2 := hturns2.sameKeys
  have hpending : Pending k r1 (r1.rotations ctx.height) := by
    rw [hsame1.rotations]
    exact hk.requested.pending.sameKeys hsame1
  have hk2 := hrotated.keysIndexed (hturns1.keyed hr) (hk.indexed.sameKeys hsame1) hpending
  refine ⟨hk2.sameKeys hsame2, ?_⟩
  rw [hsame2.history, hrotated.history, hsame1.history]

theorem blockValidatorUpdates_keys (hr : s.registry.Keyed) (hk : s.registry.KeysSound k ctx.height)
    (h : k.blockValidatorUpdates ctx s = .ok updates s') {height : Int} (hlt : ctx.height < height) :
    s'.registry.rotations height = [] ∧ s'.registry.KeysSound k height := by
  obtain ⟨_, happly, hreleases⟩ := blockValidatorUpdates_registry hr h
  obtain ⟨hk1, hhistory1⟩ := applyAndReturnValidatorSetUpdates_keys hr hk happly
  obtain ⟨hk2, hhistory2⟩ := hreleases.keys hk1
  have hkeyed : ∀ (key : ValAddress × Int) (history : ConsPubKeyRotationHistory),
      s'.registry.rotationHistory[key]? = some history →
        key = (history.operatorAddress, history.height) ∧ history.height ≤ ctx.height := by
    rw [hhistory2, hhistory1]
    exact hk.requested.keyed
  obtain ⟨hnone, hrequested⟩ := Requested.next hkeyed hlt
  exact ⟨hnone, hk2, hrequested⟩

theorem advance_keysSound {c : Chain X} (hc : c.state.Sound)
    (hk : c.state.registry.KeysSound k c.header.height) (step : Step) :
    (k.advance step c).2.state.registry.KeysSound k (k.advance step c).2.header.height := by
  obtain h | ⟨s, h, -, htx⟩ | ⟨heights, duration, updates, s, -, hblock, -, h⟩ :=
    advance_cases hc step
  · rw [h]
    exact hk
  · rw [h]
    exact htx.keysSound hk
  · rw [h]
    exact (blockValidatorUpdates_keys hc.keyed hk hblock (by dsimp only; omega)).2

theorem genesis_keysSound (params : Params) (outside : X) (height : Int) :
    (State.genesis params outside).registry.KeysSound k height := by
  refine ⟨⟨?_, ?_⟩, ?_, ⟨?_, ?_, ?_, ?_, Requested.distinct_of_keyed ?_⟩, ?_⟩
  all_goals simp [State.genesis, State.registry, keyOf, mem_rotations]

end Keeper

end CosmosSDK.Staking
