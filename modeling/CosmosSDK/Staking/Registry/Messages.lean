import CosmosSDK.Staking.Registry.Transactions
import CosmosSDK.Staking.Runs

/-!
# Messages and the registry

What one operation inside a block does to the registry: changes of records that are there,
a new validator, or the request for a rotation.  The last two bring a consensus key that
passed the check for used keys.
-/

namespace CosmosSDK.Staking

open Math Auth OrderedKV Stateful Fallible

namespace Registry

def rotations (r : Registry) (height : Int) : List ConsPubKeyRotationHistory :=
  r.rotationHistory.values.filter (fun history => decide (history.height = height))

/-- The record a consensus address leads to; a key that was rotated away is followed once. -/
def resolve (r : Registry) (consAddr : ConsAddress) : Option Validator := do
  let opAddr ← match r.validatorByConsensusAddress[consAddr]? with
    | some opAddr => some opAddr
    | none => do
        let newConsAddr ← r.oldToNewConsAddrMap[consAddr]?
        r.validatorByConsensusAddress[newConsAddr]?
  r.validators[opAddr]?

structure Unused {X : Type} (k : Keeper X) (ctx : HeaderInfo) (r : Registry) (pk : ConsPubKey) :
    Prop where
  identifier : r.consAddrToValidatorIdentifierMap[k.consAddress pk]? = none
  requested : ∀ history ∈ r.rotations ctx.height,
    k.consAddress history.newConsPubkey ≠ k.consAddress pk
  resolve : r.resolve (k.consAddress pk) = none

structure Enters {X : Type} (k : Keeper X) (ctx : HeaderInfo) (r : Registry) (v : Validator) :
    Prop where
  absent : r.validators[v.operatorAddress]? = none
  unused : r.Unused k ctx v.consensusPubkey
  powered : k.Powered v
  free : v.jailed = false
  status : v.status = .unbonded

def request (r : Registry) (history : ConsPubKeyRotationHistory) : Registry :=
  { r with
    rotationHistory :=
      r.rotationHistory.insert (history.operatorAddress, history.height) history }

structure Requests {X : Type} (k : Keeper X) (ctx : HeaderInfo) (r : Registry)
    (history : ConsPubKeyRotationHistory) : Prop where
  stored : ∃ v, r.validators[history.operatorAddress]? = some v ∧ v.status = .bonded ∧
    v.consensusPubkey = history.oldConsPubkey
  unused : r.Unused k ctx history.newConsPubkey
  height : history.height = ctx.height

/-- What an operation inside a block does; the key is the one it brings, with the operator it
is for. -/
inductive Tx {X : Type} (k : Keeper X) (ctx : HeaderInfo) :
    Option (ValAddress × ConsPubKey) → Registry → Registry → Prop
  | changes {r r' : Registry} (h : Changes k r r') : Tx k ctx none r r'
  | create {r r' : Registry} {v : Validator} (hv : r.Enters k ctx v)
      (h : Restakes k v (r.create k v) r') :
      Tx k ctx (some (v.operatorAddress, v.consensusPubkey)) r r'
  | request {r : Registry} {history : ConsPubKeyRotationHistory}
      (h : r.Requests k ctx history) :
      Tx k ctx (some (history.operatorAddress, history.newConsPubkey)) r (r.request history)

end Registry

theorem Registry.Restakes.created {X : Type} {k : Keeper X} {v : Validator} {r r' : Registry}
    (h : Restakes k v (r.create k v) r') : Changes k (r.create k v) r' :=
  .single (h.change (store_lookup r v))

def Op.newKey : Op → Option (ValAddress × ConsPubKey)
  | .createValidator msg => msg.pubkey.map (fun pk => (msg.validatorAddress, pk))
  | .rotateConsPubKey msg => msg.newPubkey.map (fun pk => (msg.validatorAddress, pk))
  | _ => none

/-- The operations of transactions and of the begin of a block; the others are parts of its
end. -/
def Op.inBlock : Op → Bool
  | .applyAndReturnValidatorSetUpdates => false
  | .unbondAllMatureValidators => false
  | .completeUnbonding .. => false
  | .completeRedelegation .. => false
  | _ => true

namespace Keeper

open Registry

variable {X : Type} {k : Keeper X} {ctx : HeaderInfo} {s s' : State X} {u : Unit}

/-! ## Validators -/

variable {pk : ConsPubKey} {msg : MsgCreateValidator} {rates : CommissionRates} {v : Validator}

theorem checkConsKeyAlreadyUsed_unused (h : k.checkConsKeyAlreadyUsed ctx pk s = .ok u s') :
    s.registry.Unused k ctx pk := by
  simp only [checkConsKeyAlreadyUsed, steps] at h
  obtain ⟨_, rfl, _, hidentifier, _, hrequested, hresolve, rfl⟩ := h
  simp only [id_eq, Option.not_isSome_iff_eq_none] at hidentifier hresolve
  refine ⟨hidentifier, fun history hmem heq => hrequested ?_, hresolve⟩
  exact List.any_eq_true.mpr ⟨history, hmem, by simpa using heq⟩

theorem checkCreateValidator_unused (h : k.checkCreateValidator ctx msg pk rates s = .ok u s') :
    s.registry.Unused k ctx pk := by
  simp only [checkCreateValidator, steps] at h
  obtain ⟨_, -, _, -, _, -, _, -, h⟩ := h
  obtain ⟨_, _, ⟨_, -, -, rfl⟩, _, -, _, _, h8, -⟩ := h
  exact checkConsKeyAlreadyUsed_unused h8

theorem newValidator_fields (h : newValidator ctx msg pk rates = .ok v) :
    v.operatorAddress = msg.validatorAddress ∧ v.consensusPubkey = pk ∧ v.jailed = false ∧
      v.status = .unbonded := by
  simp only [newValidator, Validator.setInitialCommission, bind_eq_ok] at h
  obtain ⟨_, ⟨-, -, h1⟩, h⟩ := h
  cases h1
  cases h
  exact ⟨rfl, rfl, rfl, rfl⟩

theorem validateMsgCreateValidator_key (h : k.validateMsgCreateValidator msg = .ok (pk, rates)) :
    msg.pubkey = some pk := by
  unfold validateMsgCreateValidator at h
  cases hpk : msg.pubkey with
  | none => simp [hpk] at h
  | some =>
    simp only [hpk] at h
    split at h
    · simp at h
    split at h
    · simp at h
    split at h
    · simp at h
    obtain ⟨-, -, h⟩ := bind_eq_ok.mp h
    split at h
    · simp at h
    split at h
    · simp at h
    rw [(Prod.mk.inj (Except.ok.inj h)).1]

theorem createValidator_tx (h : k.createValidator ctx msg s = .ok u s') :
    Tx k ctx (Op.createValidator msg).newKey s.registry s'.registry := by
  simp only [createValidator, pure_ok, steps] at h
  obtain ⟨⟨_, _⟩, hvalid, _, s2, h2, v, hv, h⟩ := h
  obtain ⟨_, _, h4, _, _, h5, _, _, h6, _, s7, h7, _, _, h8, -, rfl⟩ := h
  have hunused := checkCreateValidator_unused h2
  obtain ⟨habsent, rfl⟩ := checkCreateValidator_ok h2
  obtain ⟨haddr, rfl, hfree, hstatus⟩ := newValidator_fields hv
  obtain ⟨hpowered, hindex⟩ := setNewValidatorByPowerIndex_registry h6
  have hcreate : s7.registry = s2.registry.create k v := by
    rw [(callHook_registry ..).ok h7, hindex, ← update_ok.mp h5, ← update_ok.mp h4]
    rfl
  have hdelegate := delegate_restakes h8
  rw [hcreate] at hdelegate
  have hkey : (Op.createValidator msg).newKey = some (v.operatorAddress, v.consensusPubkey) := by
    simp [Op.newKey, validateMsgCreateValidator_key hvalid, haddr]
  rw [hkey]
  exact Tx.create ⟨haddr ▸ habsent, hunused, hpowered, hfree, hstatus⟩ hdelegate

theorem editValidator_changes (hr : s.registry.Keyed) {msg : MsgEditValidator}
    (h : k.editValidator ctx msg s = .ok u s') : Changes k s.registry s'.registry := by
  obtain ⟨_, _, _, hv, hedit, h⟩ := editValidator_ok h
  rw [setValidator_registry h, hedit]
  exact .single (Change.edit _ _ _ (hr.stored hv))

theorem rotateConsPubKey_tx {msg : MsgRotateConsPubKey}
    (h : k.rotateConsPubKey ctx msg s = .ok u s') :
    Tx k ctx (Op.rotateConsPubKey msg).newKey s.registry s'.registry := by
  simp only [rotateConsPubKey, exceedsMaxRotations, getValidator, transition_ok, bind_eq_ok, steps] at h
  obtain ⟨pk, hpk, _, _, ⟨_, -, -, rfl⟩, _, -, h⟩ := h
  obtain ⟨_, -, _, s6, h6, v, hv, _, hstatus, h⟩ := h
  obtain ⟨_, _, ⟨_, -, -, rfl⟩, fee, -, _, _, ⟨_, -, hsend⟩, h⟩ := h
  have hunused := checkConsKeyAlreadyUsed_unused h6
  obtain rfl := checkConsKeyAlreadyUsed_state h6
  cases hsend
  simp only [setConsPubKeyRotationHistory, setConsKeyQueue, update_ok, steps] at h
  obtain ⟨_, -, _, -, _, _, rfl, _, -, _, _, rfl, rfl⟩ := h
  have hkey : (Op.rotateConsPubKey msg).newKey = some (msg.validatorAddress, pk) := by
    simp [Op.newKey, hpk]
  rw [hkey]
  have hrequests : Requests k ctx s6.registry
      ⟨msg.validatorAddress, v.consensusPubkey, pk, ctx.height, fee⟩ :=
    ⟨⟨v, hv, by simpa using hstatus, rfl⟩, hunused, rfl⟩
  exact Tx.request hrequests

/-! ## Delegations -/

theorem msgDelegate_changes (hr : s.registry.Keyed) {msg : MsgDelegate} {shares : LegacyDec}
    (h : k.msgDelegate msg s = .ok shares s') : Changes k s.registry s'.registry := by
  simp only [msgDelegate, getValidator, steps] at h
  obtain ⟨_, -, _, hv, _, _, h3, h⟩ := h
  obtain rfl := checkBondDenom_state h3
  exact .single ((delegate_restakes h).change (hr.stored hv))

theorem msgUndelegate_changes (hs : s.ledger.Formed) {msg : MsgUndelegate} {r : Time × Int}
    (h : k.msgUndelegate ctx msg s = .ok r s') : Changes k s.registry s'.registry := by
  simp only [msgUndelegate, steps] at h
  obtain ⟨_, hvalid, _, _, h2, _, _, h3, h⟩ := h
  obtain rfl := checkBondDenom_state h3
  have hpos := validAmount_pos (by simpa using hvalid)
  obtain ⟨-, rfl⟩ := validateUnbondAmount_nonneg hs hpos.le h2
  exact undelegate_changes hs.keyed h

theorem msgBeginRedelegate_changes (hs : s.ledger.Formed) (hsurplus : s.ledger.surplus = 0)
    {msg : MsgBeginRedelegate} {time : Time} (h : k.msgBeginRedelegate ctx msg s = .ok time s') :
    Changes k s.registry s'.registry := by
  simp only [msgBeginRedelegate, steps] at h
  obtain ⟨_, hvalid, _, _, h2, _, _, h3, h⟩ := h
  obtain rfl := checkBondDenom_state h3
  have hpos := validAmount_pos (by simpa using hvalid)
  obtain ⟨hshares, rfl⟩ := validateUnbondAmount_nonneg hs hpos.le h2
  exact beginRedelegation_changes hs hsurplus hshares h

theorem cancelUnbondingDelegation_changes (hr : s.registry.Keyed)
    {msg : MsgCancelUnbondingDelegation} (h : k.cancelUnbondingDelegation ctx msg s = .ok u s') :
    Changes k s.registry s'.registry := by
  simp only [cancelUnbondingDelegation, getValidator, getUnbondingDelegation, steps] at h
  obtain ⟨_, -, _, -, _, _, h3, _, hv, h⟩ := h
  obtain ⟨_, -, _, -, _, -, h⟩ := h
  obtain ⟨⟨_, _, _⟩, -, _, -, _, -, h⟩ := h
  obtain ⟨_, _, h11, _, -, h⟩ := h
  obtain rfl := checkBondDenom_state h3
  rw [(storeUnbondingDelegation_registry ..).ok h]
  exact .single ((delegate_restakes h11).change (hr.stored hv))

/-! ## Every operation of a block -/

theorem exec_tx (hs : s.ledger.Formed) (hsurplus : s.ledger.surplus = 0) {op : Op}
    (hop : op.inBlock = true) (h : k.exec ctx op s = .ok u s') :
    Tx k ctx op.newKey s.registry s'.registry := by
  cases op with
  | createValidator => exact createValidator_tx h
  | editValidator => exact .changes (editValidator_changes hs.keyed h)
  | delegate =>
    obtain ⟨_, h⟩ := perform_ok.mp h
    exact .changes (msgDelegate_changes hs.keyed h)
  | beginRedelegate =>
    obtain ⟨_, h⟩ := perform_ok.mp h
    exact .changes (msgBeginRedelegate_changes hs hsurplus h)
  | undelegate =>
    obtain ⟨_, h⟩ := perform_ok.mp h
    exact .changes (msgUndelegate_changes hs h)
  | cancelUnbondingDelegation => exact .changes (cancelUnbondingDelegation_changes hs.keyed h)
  | rotateConsPubKey => exact rotateConsPubKey_tx h
  | undelegateShares =>
    obtain ⟨_, h⟩ := perform_ok.mp h
    exact .changes (undelegate_changes hs.keyed h)
  | redelegateShares delAddr valSrcAddr valDstAddr sharesAmount =>
    obtain ⟨_, h⟩ := perform_ok.mp h
    exact .changes (beginRedelegation_changes hs hsurplus sharesAmount.property h)
  | slash =>
    obtain ⟨_, h⟩ := perform_ok.mp h
    exact .changes (slash_changes hs hsurplus h)
  | jail => exact .changes (jail_changes hs h)
  | unjail => exact .changes (unjail_changes hs h)
  | applyAndReturnValidatorSetUpdates | unbondAllMatureValidators => simp [Op.inBlock] at hop
  | completeUnbonding delAddr valAddr | completeRedelegation delAddr valSrcAddr valDstAddr =>
    simp [Op.inBlock] at hop

/-! ## Params -/

theorem raiseCommission_keep {minRate : LegacyDec}
    (hv : s.registry.validators[v.operatorAddress]? = some v)
    (h : raiseCommission ctx minRate v s = .ok u s') : Changes k s.registry s'.registry ∧
      ∀ addr, addr ≠ v.operatorAddress →
        s'.registry.validators[addr]? = s.registry.validators[addr]? := by
  unfold raiseCommission at h
  split at h
  · rw [setValidator_registry h]
    exact ⟨.single (Change.edit v.description _ v.minSelfDelegation hv), fun addr haddr =>
      (lookup_insert _ _ _ _).trans (if_neg haddr)⟩
  · rw [(pure_ok.mp h).2]
    exact ⟨.refl, fun _ _ => rfl⟩

end Keeper

end CosmosSDK.Staking
