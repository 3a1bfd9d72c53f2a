import CosmosSDK.Staking.Registry.ValidatorSet

/-!
# What the consensus engine knows

Between blocks the powers last reported belong to the bonded validators, and the consensus
engine knows exactly them, under the current keys.  The updates of a block keep this.  They
name a key twice if and only if a validator whose power changes has asked for another key in
the block: the rotation repeats the key that the change of power has reported already.
-/

namespace CosmosSDK.Staking

open OrderedKV Stateful List Validator Function
open Keeper (ValidatorUpdate)

/-! ## Updates -/

section Updates

variable {known : ConsPubKey → Int} {l : List ValidatorUpdate}

theorem applyUpdates_append (known : ConsPubKey → Int) (l l' : List ValidatorUpdate) :
    applyUpdates known (l ++ l') = applyUpdates (applyUpdates known l) l' :=
  foldl_append

theorem applyUpdates_of_not_mem {pk : ConsPubKey} (h : pk ∉ l.map ValidatorUpdate.pubKey) :
    applyUpdates known l pk = known pk := by
  induction l generalizing known with
  | nil => rfl
  | cons update l ih =>
    rw [map_cons, mem_cons, not_or] at h
    exact (ih h.2).trans (update_of_ne h.1 _ _)

theorem applyUpdates_of_mem (hl : (l.map ValidatorUpdate.pubKey).Nodup) {update : ValidatorUpdate}
    (h : update ∈ l) : applyUpdates known l update.pubKey = update.power := by
  induction l generalizing known with
  | nil => simp at h
  | cons head l ih =>
    obtain ⟨hnew, hl⟩ := nodup_cons.mp hl
    rcases mem_cons.mp h with rfl | h
    · exact (applyUpdates_of_not_mem hnew).trans (update_self _ _ _)
    · exact ih hl h

end Updates

namespace Registry

variable {X : Type} {k : Keeper X} {r r' : Registry} {known : ConsPubKey → Int}

structure LastBonded (r : Registry) : Prop where
  bonded : ∀ addr : ValAddress, (r.lastValidatorPower[addr]?).isSome = true ↔
    ∃ v, r.validators[addr]? = some v ∧ v.status = .bonded
  total : r.lastTotalPower = total (fun _ power => power) r.lastValidatorPower

/-- The engine knows the powers last reported, under the keys of their validators. -/
structure Reports (r : Registry) (known : ConsPubKey → Int) : Prop where
  held : ∀ (addr : ValAddress) (v : Validator), r.validators[addr]? = some v →
    known v.consensusPubkey = (r.lastValidatorPower[addr]?).getD 0
  unheld : ∀ pk, (∀ addr, r.keyOf addr ≠ some pk) → known pk = 0

theorem KeysIndexed.eq_of_key (hk : r.KeysIndexed k)
    {v w : Validator} (hv : r.validators[v.operatorAddress]? = some v)
    (hw : r.validators[w.operatorAddress]? = some w)
    (heq : v.consensusPubkey = w.consensusPubkey) : v = w := by
  have haddr := hk.owner_eq (keyOf_eq hv) (keyOf_eq hw) (by rw [heq])
  rw [haddr] at hv
  exact Option.some.inj (hv.symm.trans hw)

/-! ## The loops -/

structure Turned {X : Type} (k : Keeper X) (E D : List Validator) (r r' : Registry) : Prop where
  entered : ∀ v ∈ E, r.validators[v.operatorAddress]? = some v ∧ v.jailed = false ∧
    r'.validators[v.operatorAddress]? = some (v.updateStatus .bonded) ∧
    r'.lastValidatorPower[v.operatorAddress]? = some (k.power v)
  left : ∀ v ∈ D, r.validators[v.operatorAddress]? = some v ∧ v.status = .bonded ∧
    (∃ unbondingTime unbondingHeight, r'.validators[v.operatorAddress]? =
      some { v.updateStatus .unbonding with
        unbondingTime := unbondingTime, unbondingHeight := unbondingHeight }) ∧
    r'.lastValidatorPower[v.operatorAddress]? = none
  others : ∀ addr, addr ∉ E.map operatorAddress →
    addr ∉ D.map operatorAddress →
    r'.validators[addr]? = r.validators[addr]? ∧ r.lastValidatorPower[addr]? = none ∧
      r'.lastValidatorPower[addr]? = none
  disjoint : ∀ v ∈ E, v.operatorAddress ∉ D.map operatorAddress
  distinct : (E.map operatorAddress).Nodup
  distinct' : (D.map operatorAddress).Nodup

def setUpdates {X : Type} (k : Keeper X) (r : Registry) (E D : List Validator) :
    List ValidatorUpdate :=
  (E.filter (fun v => decide (r.lastValidatorPower[v.operatorAddress]? ≠ some (k.power v)))).map
      (fun v => ⟨v.consensusPubkey, k.power v⟩) ++
    D.map (fun v => ⟨v.consensusPubkey, 0⟩)

namespace Turned

variable {E D : List Validator} {w : Validator}

section

variable (h : Turned k E D r r')
include h

/-- Every record is one of a validator that entered, left or was not concerned. -/
theorem cases {addr : ValAddress} (hw : r'.validators[addr]? = some w) :
    (∃ v ∈ E, addr = v.operatorAddress ∧ w = v.updateStatus .bonded) ∨
      (∃ v ∈ D, addr = v.operatorAddress ∧ w.status = .unbonding ∧
        w.consensusPubkey = v.consensusPubkey) ∨
      (addr ∉ E.map operatorAddress ∧ addr ∉ D.map operatorAddress ∧
        r.validators[addr]? = some w) := by
  by_cases hE : addr ∈ E.map operatorAddress
  · obtain ⟨v, hv, rfl⟩ := mem_map.mp hE
    obtain ⟨-, -, hstored, -⟩ := h.entered v hv
    exact .inl ⟨v, hv, rfl, (Option.some.inj (hstored.symm.trans hw)).symm⟩
  by_cases hD : addr ∈ D.map operatorAddress
  · obtain ⟨v, hv, rfl⟩ := mem_map.mp hD
    obtain ⟨-, -, ⟨_, _, hstored⟩, -⟩ := h.left v hv
    obtain rfl := Option.some.inj (hstored.symm.trans hw)
    exact .inr (.inl ⟨v, hv, rfl, rfl, rfl⟩)
  · rw [(h.others addr hE hD).1] at hw
    exact .inr (.inr ⟨hE, hD, hw⟩)

theorem keyOf (addr : ValAddress) : r'.keyOf addr = r.keyOf addr := by
  unfold Registry.keyOf
  by_cases hE : addr ∈ E.map operatorAddress
  · obtain ⟨v, hv, rfl⟩ := mem_map.mp hE
    obtain ⟨hstored, -, hstored', -⟩ := h.entered v hv
    rw [hstored, hstored']
    rfl
  by_cases hD : addr ∈ D.map operatorAddress
  · obtain ⟨v, hv, rfl⟩ := mem_map.mp hD
    obtain ⟨hstored, -, ⟨_, _, hstored'⟩, -⟩ := h.left v hv
    rw [hstored, hstored']
    rfl
  · rw [(h.others addr hE hD).1]

theorem entered_of_bonded (hlast : r.LastBonded) {addr : ValAddress}
    (hw : r'.validators[addr]? = some w) (hstatus : w.status = .bonded) :
    ∃ v ∈ E, addr = v.operatorAddress ∧ w = v.updateStatus .bonded := by
  rcases h.cases hw with hentered | ⟨v, -, -, hunbonding, -⟩ | ⟨hE, hD, hw⟩
  · exact hentered
  · rw [hunbonding] at hstatus
    simp at hstatus
  · have hsome := (hlast.bonded addr).mpr ⟨w, hw, hstatus⟩
    rw [(h.others addr hE hD).2.1] at hsome
    simp at hsome

theorem lastBonded (hlast : r.LastBonded) (addr : ValAddress) :
    (r'.lastValidatorPower[addr]?).isSome = true ↔
      ∃ v, r'.validators[addr]? = some v ∧ v.status = .bonded := by
  constructor
  · intro hsome
    by_cases hE : addr ∈ E.map operatorAddress
    · obtain ⟨v, hv, rfl⟩ := mem_map.mp hE
      exact ⟨_, (h.entered v hv).2.2.1, rfl⟩
    by_cases hD : addr ∈ D.map operatorAddress
    · obtain ⟨v, hv, rfl⟩ := mem_map.mp hD
      rw [(h.left v hv).2.2.2] at hsome
      simp at hsome
    · rw [(h.others addr hE hD).2.2] at hsome
      simp at hsome
  · rintro ⟨w, hw, hstatus⟩
    obtain ⟨v, hv, rfl, -⟩ := h.entered_of_bonded hlast hw hstatus
    rw [(h.entered v hv).2.2.2]
    rfl

theorem total :
    OrderedKV.total (fun _ power => power) r'.lastValidatorPower = (E.map k.power).sum := by
  have hmem : ∀ addr, addr ∈ r'.lastValidatorPower →
      addr ∈ (E.map operatorAddress).toFinset := by
    intro addr haddr
    rw [mem_toFinset]
    by_contra hE
    rw [Std.ExtTreeMap.mem_iff_isSome_getElem?] at haddr
    by_cases hD : addr ∈ D.map operatorAddress
    · obtain ⟨v, hv, rfl⟩ := mem_map.mp hD
      rw [(h.left v hv).2.2.2] at haddr
      simp at haddr
    · rw [(h.others addr hE hD).2.2] at haddr
      simp at haddr
  rw [total_eq_sum (fun _ (power : Int) => power) _ _ hmem, sum_toFinset _ h.distinct,
    map_map]
  exact congrArg List.sum (map_congr_left fun v hv =>
    part_of_some (fun _ (power : Int) => power) (h.entered v hv).2.2.2)

theorem mem_setUpdates {update : ValidatorUpdate} (hmem : update ∈ setUpdates k r E D) :
    ∃ v, r.validators[v.operatorAddress]? = some v ∧ update.pubKey = v.consensusPubkey ∧
      ((v ∈ E ∧ r.lastValidatorPower[v.operatorAddress]? ≠ some (k.power v)) ∨ v ∈ D) := by
  rcases mem_append.mp hmem with hmem | hmem
  · obtain ⟨v, hv, rfl⟩ := mem_map.mp hmem
    obtain ⟨hv, hchanged⟩ := mem_filter.mp hv
    exact ⟨v, (h.entered v hv).1, rfl, .inl ⟨hv, of_decide_eq_true hchanged⟩⟩
  · obtain ⟨v, hv, rfl⟩ := mem_map.mp hmem
    exact ⟨v, (h.left v hv).1, rfl, .inr hv⟩

end

theorem nodup_setUpdates (hk : r.KeysIndexed k) (h : Turned k E D r r') :
    ((setUpdates k r E D).map ValidatorUpdate.pubKey).Nodup := by
  have hmap : ∀ {l : List Validator} (f : Validator → ValidatorUpdate),
      (∀ v, (f v).pubKey = v.consensusPubkey) →
      (∀ v ∈ l, r.validators[v.operatorAddress]? = some v) →
      (l.map operatorAddress).Nodup → ((l.map f).map ValidatorUpdate.pubKey).Nodup := by
    intro l f hf hl hnodup
    rw [map_map]
    refine List.Nodup.map_on (fun v hv w hw heq => ?_) (List.Nodup.of_map _ hnodup)
    simp only [comp_apply, hf] at heq
    exact hk.eq_of_key (hl v hv) (hl w hw) heq
  rw [setUpdates, map_append, nodup_append]
  refine ⟨hmap _ (fun _ => rfl) (fun v hv => (h.entered v (mem_filter.mp hv).1).1)
      (h.distinct.sublist (List.Sublist.map _ filter_sublist)),
    hmap _ (fun _ => rfl) (fun v hv => (h.left v hv).1) h.distinct', ?_⟩
  intro a ha b hb heq
  simp only [map_map, mem_map, comp_apply] at ha hb
  obtain ⟨v, hv, rfl⟩ := ha
  obtain ⟨w, hw, rfl⟩ := hb
  have hv := (mem_filter.mp hv).1
  obtain rfl := hk.eq_of_key (h.entered v hv).1 (h.left w hw).1 heq
  exact h.disjoint v hv (mem_map_of_mem hw)

/-- The updates of the loops tell the engine the powers that are reported now. -/
theorem reports (hk : r.KeysIndexed k) (h : Turned k E D r r') (hknown : r.Reports known) :
    r'.Reports (applyUpdates known (setUpdates k r E D)) := by
  have hnodup := h.nodup_setUpdates hk
  -- the key of a validator without an update
  have hkept : ∀ v, r.validators[v.operatorAddress]? = some v →
      (v ∈ E → r.lastValidatorPower[v.operatorAddress]? = some (k.power v)) → v ∉ D →
      applyUpdates known (setUpdates k r E D) v.consensusPubkey = known v.consensusPubkey := by
    intro v hv hE hD
    refine applyUpdates_of_not_mem fun hmem => ?_
    obtain ⟨update, hmem, hkey⟩ := mem_map.mp hmem
    obtain ⟨w, hw, hkey', hcases⟩ := h.mem_setUpdates hmem
    obtain rfl := hk.eq_of_key hv hw (hkey.symm.trans hkey')
    rcases hcases with ⟨hmem, hchanged⟩ | hmem
    · exact hchanged (hE hmem)
    · exact hD hmem
  constructor
  · intro addr w hw
    rcases h.cases hw with ⟨v, hv, rfl, rfl⟩ | ⟨v, hv, rfl, -, hkey⟩ | ⟨hE, hD, hw⟩
    · obtain ⟨hstored, -, -, hpower⟩ := h.entered v hv
      rw [hpower, Option.getD_some]
      by_cases hchanged : r.lastValidatorPower[v.operatorAddress]? = some (k.power v)
      · have hknown := hknown.held _ v hstored
        rw [hchanged, Option.getD_some] at hknown
        rw [← hknown]
        exact hkept v hstored (fun _ => hchanged)
          (fun hmem => h.disjoint v hv (mem_map_of_mem hmem))
      · have hentered : v ∈ E.filter (fun v =>
            decide (r.lastValidatorPower[v.operatorAddress]? ≠ some (k.power v))) :=
          mem_filter.mpr ⟨hv, decide_eq_true hchanged⟩
        have hmem : (⟨v.consensusPubkey, k.power v⟩ : ValidatorUpdate) ∈ setUpdates k r E D :=
          mem_append_left _ (mem_map_of_mem hentered)
        exact applyUpdates_of_mem hnodup hmem
    · rw [(h.left v hv).2.2.2, hkey]
      have hmem : (⟨v.consensusPubkey, 0⟩ : ValidatorUpdate) ∈ setUpdates k r E D :=
        mem_append_right _ (mem_map.mpr ⟨v, hv, rfl⟩)
      exact applyUpdates_of_mem hnodup hmem
    · obtain ⟨_, hnone, hnone'⟩ := h.others addr hE hD
      have hheld := hknown.held addr w hw
      rw [hnone] at hheld
      rw [hnone', ← hheld]
      refine applyUpdates_of_not_mem fun hmem => ?_
      obtain ⟨update, hmem, hkey⟩ := mem_map.mp hmem
      obtain ⟨v, hv, hkey', hcases⟩ := h.mem_setUpdates hmem
      have heq : v.operatorAddress = addr := hk.owner_eq (keyOf_eq hv) (keyOf_eq hw)
        (by rw [← hkey', hkey])
      rcases hcases with ⟨hmem, -⟩ | hmem
      · exact hE (heq ▸ mem_map_of_mem hmem)
      · exact hD (heq ▸ mem_map_of_mem hmem)
  · intro pk hfree
    have hfree' : ∀ addr, r.keyOf addr ≠ some pk := fun addr => h.keyOf addr ▸ hfree addr
    rw [← hknown.unheld pk hfree']
    refine applyUpdates_of_not_mem fun hmem => ?_
    obtain ⟨_, hmem, hkey⟩ := mem_map.mp hmem
    obtain ⟨v, hv, hkey', -⟩ := h.mem_setUpdates hmem
    refine hfree' v.operatorAddress ?_
    rw [Registry.keyOf, hv, ← hkey, hkey']
    rfl

end Turned

/-! ## Rotations -/

def Current {X : Type} (k : Keeper X) (r : Registry) : Prop :=
  ∀ (addr : ValAddress) (v : Validator), r.validators[addr]? = some v → v.status = .bonded →
    r.lastValidatorPower[addr]? = some (k.power v)

theorem Turned.current {E D : List Validator} (h : Turned k E D r r') (hlast : r.LastBonded) :
    r'.Current k := by
  intro addr w hw hstatus
  obtain ⟨v, hv, rfl, rfl⟩ := h.entered_of_bonded hlast hw hstatus
  exact (h.entered v hv).2.2.2

def rotates (r : Registry) (history : ConsPubKeyRotationHistory) : Bool :=
  match r.validators[history.operatorAddress]? with
  | some v => !v.jailed && v.isBonded
  | none => false

section Rekey

variable {v : Validator}

theorem rekey_lookup (r : Registry) (v : Validator) (oldPubKey newPubKey : ConsPubKey)
    (addr : ValAddress) :
    (r.rekey k v oldPubKey newPubKey).validators[addr]? =
      if addr = v.operatorAddress then some { v with consensusPubkey := newPubKey }
      else r.validators[addr]? :=
  lookup_insert _ _ _ _

theorem Current.rekey (h : r.Current k) (hv : r.validators[v.operatorAddress]? = some v)
    (oldPubKey newPubKey : ConsPubKey) : (r.rekey k v oldPubKey newPubKey).Current k := by
  intro addr w hw hstatus
  rw [rekey_lookup] at hw
  split at hw
  · rename_i heq
    cases hw
    rw [heq]
    exact h _ v hv hstatus
  · exact h addr w hw hstatus

theorem Reports.rekey (hk : r.KeysIndexed k) (hknown : r.Reports known) (hcurrent : r.Current k)
    (hv : r.validators[v.operatorAddress]? = some v) (hstatus : v.status = .bonded)
    {newPubKey : ConsPubKey}
    (hfree : r.validatorByConsensusAddress[k.consAddress newPubKey]? = none) :
    (r.rekey k v v.consensusPubkey newPubKey).Reports
      (applyUpdates known [⟨v.consensusPubkey, 0⟩, ⟨newPubKey, k.power v⟩]) := by
  have hnew : ∀ (addr : ValAddress) (w : Validator), r.validators[addr]? = some w →
      w.consensusPubkey ≠ newPubKey := by
    rintro addr w hw rfl
    have hentry := (hk.indexed _ addr).mpr ⟨_, keyOf_eq hw, rfl⟩
    rw [hfree] at hentry
    simp at hentry
  show (r.rekey k v v.consensusPubkey newPubKey).Reports
    (update (update known v.consensusPubkey 0) newPubKey (k.power v))
  constructor
  · intro addr w hw
    rw [rekey_lookup] at hw
    split at hw
    · rename_i heq
      cases hw
      rw [update_self, heq]
      show _ = (r.lastValidatorPower[v.operatorAddress]?).getD 0
      rw [hcurrent _ v hv hstatus]
      rfl
    · rename_i hne
      have hold : w.consensusPubkey ≠ v.consensusPubkey := by
        intro heq
        exact hne (hk.owner_eq (keyOf_eq hw) (keyOf_eq hv) (by rw [heq]))
      rw [update_of_ne (hnew addr w hw), update_of_ne hold]
      exact hknown.held addr w hw
  · intro pk hunheld
    have hkey := KeysIndexed.keyOf_store r { v with consensusPubkey := newPubKey }
    have hne : pk ≠ newPubKey := by
      rintro rfl
      exact hunheld v.operatorAddress ((hkey _).trans (if_pos rfl))
    rw [update_of_ne hne]
    by_cases heq : pk = v.consensusPubkey
    · rw [heq, update_self]
    · rw [update_of_ne heq]
      refine hknown.unheld pk fun addr hpk => ?_
      by_cases haddr : addr = v.operatorAddress
      · rw [haddr, Registry.keyOf, hv] at hpk
        exact heq (Option.some.inj hpk).symm
      · exact hunheld addr (((hkey addr).trans (if_neg haddr)).trans hpk)

end Rekey

namespace Pending

variable {history : ConsPubKeyRotationHistory} {l : List ConsPubKeyRotationHistory}

theorem not_held (hk : r.KeysIndexed k) (h : Pending k r l) (hmem : history ∈ l)
    (addr : ValAddress) : r.keyOf addr ≠ some history.newConsPubkey := by
  intro hkey
  have hentry := (hk.indexed _ addr).mpr ⟨_, hkey, rfl⟩
  rw [h.free history hmem] at hentry
  simp at hentry

theorem nodup_pubKeys (hk : r.KeysIndexed k) (h : Pending k r l)
    (p : ConsPubKeyRotationHistory → Bool) : ((l.filter p).flatMap
      (fun history => [history.oldConsPubkey, history.newConsPubkey])).Nodup := by
  rw [nodup_flatMap]
  constructor
  · intro history hmem
    have hmem := (mem_filter.mp hmem).1
    rw [nodup_cons, mem_singleton]
    refine ⟨fun heq => h.not_held hk hmem history.operatorAddress ?_, nodup_singleton _⟩
    rw [h.keyOf history hmem, heq]
  · refine (h.distinct.filter _).imp_of_mem ?_
    intro a b ha hb hne pk hpa hpb
    have ha := (mem_filter.mp ha).1
    have hb := (mem_filter.mp hb).1
    simp only [mem_cons, not_mem_nil, or_false] at hpa hpb
    rcases hpa with rfl | rfl
    · rcases hpb with heq | heq
      · exact hne (hk.owner_eq (h.keyOf a ha) (h.keyOf b hb) (by rw [heq]))
      · exact h.not_held hk hb a.operatorAddress (heq ▸ h.keyOf a ha)
    · rcases hpb with heq | heq
      · exact h.not_held hk ha b.operatorAddress (heq ▸ h.keyOf b hb)
      · exact h.apart a ha b hb hne (by rw [heq])

end Pending

variable {l : List ConsPubKeyRotationHistory} {updates : List ValidatorUpdate}

variable (h : Rotated k l updates r r')
include h

theorem Rotated.reports (hr : r.Keyed) (hk : r.KeysIndexed k)
    (hl : Pending k r l) (hcurrent : r.Current k) (hknown : r.Reports known) :
    r'.Reports (applyUpdates known updates) := by
  induction h generalizing known with
  | nil => exact hknown
  | skip _ _ _ ih => exact ih hr hk hl.tail hcurrent hknown
  | @rotate history l updates r _ v hv haddr _ hstatus _ _ ih =>
    have hfree := hl.free history (mem_cons_self ..)
    have hold := hl.key_eq (mem_cons_self ..) hv
    have hstored := hr.stored hv
    have hrekey := hknown.rekey hk hcurrent hstored hstatus hfree
    have hkeys := hk.rekey hstored hfree
    rw [hold] at hrekey hkeys
    exact ih (hr.rekey _ _ _) hkeys (hl.rekey haddr) (hcurrent.rekey hstored _ _) hrekey

theorem Rotated.powers (hr : r.Keyed) :
    r'.lastValidatorPower = r.lastValidatorPower ∧ r'.lastTotalPower = r.lastTotalPower ∧
      ∀ addr : ValAddress, (∃ v, r'.validators[addr]? = some v ∧ v.status = .bonded) ↔
        ∃ v, r.validators[addr]? = some v ∧ v.status = .bonded := by
  induction h with
  | nil => exact ⟨rfl, rfl, fun _ => Iff.rfl⟩
  | skip _ _ _ ih => exact ih hr
  | @rotate history l updates r _ v hv haddr _ hstatus _ _ ih =>
    obtain ⟨hpower, htotal, hbonded⟩ := ih (hr.rekey _ _ _)
    refine ⟨hpower, htotal, fun addr => (hbonded addr).trans ?_⟩
    rw [rekey_lookup]
    split
    · rename_i heq
      rw [heq, haddr, hv]
      simp [hstatus]
    · rfl

theorem Rotated.pubKeys (hl : l.Pairwise (fun a b => a.operatorAddress ≠ b.operatorAddress)) :
    updates.map ValidatorUpdate.pubKey =
      (l.filter r.rotates).flatMap (fun history => [history.oldConsPubkey, history.newConsPubkey]) := by
  induction h with
  | nil => rfl
  | @skip history l updates r r' v hv hout _ ih => grind [isBonded, rotates]
  | @rotate history l updates r r' v hv haddr hjailed hstatus _ _ ih =>
    obtain ⟨hne, hl⟩ := pairwise_cons.mp hl
    have hrotates : r.rotates history = true := by
      unfold rotates
      rw [hv]
      simp [isBonded, hjailed, hstatus]
    have hrest : l.filter (r.rekey k v history.oldConsPubkey history.newConsPubkey).rotates =
        l.filter r.rotates := by
      refine filter_congr fun other hother => ?_
      unfold rotates
      rw [rekey_lookup, if_neg (haddr ▸ (hne other hother).symm)]
    rw [map_cons, map_cons, ih hl, filter_cons, if_pos hrotates, hrest]
    rfl

end Registry

namespace Keeper

open Registry

variable {X : Type} {k : Keeper X} {ctx : HeaderInfo} {s s' : State X}
 {updates : List ValidatorUpdate}

/-! ## The change of the validator set -/

theorem applyAndReturnValidatorSetUpdates_turned (hr : s.registry.Keyed)
    (hp : s.registry.PowerIndexed k)
    (h : k.applyAndReturnValidatorSetUpdates ctx s = .ok updates s') :
    ∃ (D : List Validator) (added : List ValidatorUpdate) (r₁ r2 : Registry),
      Turned k (s.registry.newSet k s.params.maxValidators) D s.registry r₁ ∧
      Turns k ctx s.registry r₁ ∧
      updates = setUpdates k s.registry (s.registry.newSet k s.params.maxValidators) D ++ added ∧
      Rotated k (r₁.rotations ctx.height) added r₁ r2 ∧
      s'.registry = { r2 with
        lastTotalPower := if updates.isEmpty then s.registry.lastTotalPower
          else ((s.registry.newSet k s.params.maxValidators).map k.power).sum } := by
  obtain ⟨s1, s2, acc, _, added, r, hset, hleave, hturns2, rfl, hrotated, hregistry⟩ :=
    applyAndReturnValidatorSetUpdates_loops hr h
  have hturns1 : Turns k ctx s.registry s1.registry := applySet_turns hr hset
  have hstored := hp.ranked_stored hr
  have haddrs : (s.validatorsByPowerIndex.toList.map fun e => e.2).reverse =
      s.registry.ranked.map operatorAddress := (hp.ranked_addresses hr).symm
  rw [haddrs] at hset
  have hentered := applySet_entered (fun v hv => (hstored v hv).1) (hp.ranked_distinct hr)
    (fun v _ => rfl) hset
  obtain ⟨D, hD, hleft⟩ := leaveSet_left (hturns1.keyed hr) Std.ExtTreeMap.nodup_keys hleave
  have hmemD : ∀ addr, addr ∈ D.map operatorAddress ↔ (acc.last[addr]?).isSome = true := by
    intro addr
    rw [hD, Std.ExtTreeMap.mem_keys, Std.ExtTreeMap.mem_iff_isSome_getElem?]
  have hE : ∀ v ∈ s.registry.newSet k s.params.maxValidators, v ∈ s.registry.ranked :=
    fun v hv => mem_of_mem_take ((takeWhile_sublist _).subset hv)
  have hdisjoint : ∀ v ∈ s.registry.newSet k s.params.maxValidators,
      v.operatorAddress ∉ D.map operatorAddress := by
    intro v hv hmem
    rw [hmemD, hentered.taken v hv] at hmem
    simp at hmem
  refine ⟨D, added, s2.registry, r, ⟨fun v hv => ?_, fun v hv => ?_, fun addr hnotE hnotD => ?_,
    hdisjoint, ?_, hD ▸ Std.ExtTreeMap.nodup_keys⟩, hturns2, ?_, hrotated, ?_⟩
  · refine ⟨(hstored v (hE v hv)).1, (hstored v (hE v hv)).2, ?_, ?_⟩
    · rw [hleft.others _ (hdisjoint v hv)]
      exact hentered.bonded v hv
    · rw [hleft.powers, if_neg (hdisjoint v hv)]
      exact hentered.power v hv
  · have hmem := mem_map_of_mem (f := operatorAddress) hv
    have hnotE : v.operatorAddress ∉
        (s.registry.newSet k s.params.maxValidators).map operatorAddress := by
      intro hmemE
      obtain ⟨w, hw, heq⟩ := mem_map.mp hmemE
      exact hdisjoint w hw (heq ▸ hmem)
    obtain ⟨hstored, hstatus⟩ := hleft.bonded v hv
    refine ⟨?_, hstatus, hleft.unbonding v hv, ?_⟩
    · rw [← hentered.others _ hnotE]
      exact hstored
    · rw [hleft.powers, if_pos hmem]
  · have hnone : acc.last[addr]? = none := by
      rw [hmemD] at hnotD
      simpa using hnotD
    have hlast : s.registry.lastValidatorPower[addr]? = none :=
      (hentered.left addr hnotE).symm.trans hnone
    refine ⟨(hleft.others addr hnotD).trans (hentered.others addr hnotE), hlast, ?_⟩
    rw [hleft.powers, if_neg hnotD, hentered.powers addr hnotE]
    exact hlast
  · refine (hp.ranked_distinct hr).sublist (List.Sublist.map _ ?_)
    exact (takeWhile_sublist _).trans (take_sublist _ _)
  · rw [hleft.updates, hentered.updates]
    rfl
  · rw [hregistry, hentered.totalPower, (hrotated.powers (hturns2.keyed hr)).2.1,
      hleft.lastTotalPower, hentered.lastTotalPower]
    simp only [Int.zero_add]
    rfl

variable {E D : List Validator} {r r₁ : Registry}

/-- A validator gets the key it asked for if and only if it is in the new set. -/
theorem rotates_iff (hlast : r.LastBonded) (hturned : Turned k E D r r₁)
    {history : ConsPubKeyRotationHistory} :
    r₁.rotates history = true ↔ ∃ v ∈ E, v.operatorAddress = history.operatorAddress := by
  constructor
  · intro hrot
    unfold rotates at hrot
    cases hlookup : r₁.validators[history.operatorAddress]? with
    | none => simp [hlookup] at hrot
    | some =>
      simp only [hlookup, Bool.and_eq_true, isBonded, decide_eq_true_eq] at hrot
      obtain ⟨v, hv, heq, -⟩ := hturned.entered_of_bonded hlast hlookup hrot.2
      exact ⟨v, hv, heq.symm⟩
  · rintro ⟨v, hv, heq⟩
    obtain ⟨-, hjailed, hstored, -⟩ := hturned.entered v hv
    unfold rotates
    rw [← heq, hstored]
    simp [updateStatus, isBonded, hjailed]

/-- The keys the block's updates name are different if and only if no validator whose power has
changed rotates its key. -/
theorem nodup_updates_iff {r2 : Registry} {added : List ValidatorUpdate}
    (hk : r.KeysSound k ctx.height) (hlast : r.LastBonded) (hturned : Turned k E D r r₁)
    (hsame : SameKeys r r₁) (hrotated : Rotated k (r₁.rotations ctx.height) added r₁ r2) :
    ((setUpdates k r E D ++ added).map ValidatorUpdate.pubKey).Nodup ↔
      ∀ history ∈ r.rotations ctx.height, ∀ v ∈ E, v.operatorAddress = history.operatorAddress →
        r.lastValidatorPower[v.operatorAddress]? = some (k.power v) := by
  have hpending := hk.requested.pending
  rw [hsame.rotations] at hrotated
  have hkeys := hrotated.pubKeys hpending.distinct
  rw [map_append, nodup_append]
  constructor
  · rintro ⟨-, -, hdisjoint⟩ history hmem v hv heq
    by_contra hchanged
    have hstored := (hturned.entered v hv).1
    have hrot := (rotates_iff hlast hturned).mpr ⟨v, hv, heq⟩
    refine hdisjoint v.consensusPubkey ?_ v.consensusPubkey ?_ rfl
    · refine mem_map.mpr ⟨⟨v.consensusPubkey, k.power v⟩, mem_append_left _ ?_, rfl⟩
      exact mem_map.mpr ⟨v, mem_filter.mpr ⟨hv, decide_eq_true hchanged⟩, rfl⟩
    · rw [hkeys, mem_flatMap]
      refine ⟨history, mem_filter.mpr ⟨hmem, hrot⟩, ?_⟩
      rw [hpending.key_eq hmem (heq ▸ hstored)]
      exact mem_cons_self ..
  · intro hunchanged
    refine ⟨hturned.nodup_setUpdates hk.indexed, hkeys ▸ hpending.nodup_pubKeys hk.indexed _, ?_⟩
    intro pk hpk pk' hpk' heq
    subst heq
    obtain ⟨_, hupdate, rfl⟩ := mem_map.mp hpk
    obtain ⟨v, hv, hkey, hcases⟩ := hturned.mem_setUpdates hupdate
    rw [hkeys, mem_flatMap] at hpk'
    obtain ⟨history, hhistory, hpk'⟩ := hpk'
    obtain ⟨hmem, hrot⟩ := mem_filter.mp hhistory
    simp only [mem_cons, not_mem_nil, or_false] at hpk'
    rcases hpk' with heq | heq
    · -- the key that is given up: its validator is in the new set
      obtain ⟨w, hw, haddr⟩ := (rotates_iff hlast hturned).mp hrot
      have hstored := (hturned.entered w hw).1
      have hold := hpending.key_eq hmem (haddr ▸ hstored)
      obtain rfl := hk.indexed.eq_of_key hv hstored (by rw [← hkey, heq, hold])
      rcases hcases with ⟨-, hchanged⟩ | hD
      · exact hchanged (hunchanged history hmem v hw haddr)
      · exact hturned.disjoint v hw (mem_map_of_mem hD)
    · -- the key that is asked for: nobody has it
      refine hpending.not_held hk.indexed hmem v.operatorAddress ?_
      rw [Registry.keyOf, hv, ← heq, hkey]
      rfl

end Keeper

end CosmosSDK.Staking
