import CosmosSDK.Staking.Registry.Engine

/-!
# The consensus engine along runs

Transactions and the end of unbonding concern neither the powers last reported nor the
bonded validators, and they bring no key the engine knows.  So every block starts with an
engine that knows the powers last reported, and ends with one that knows the elected
validators.
-/

namespace CosmosSDK.Staking

open Auth OrderedKV Stateful List State Option Validator
open Keeper (ValidatorUpdate)

namespace Registry

variable {X : Type} {k : Keeper X} {ctx : HeaderInfo} {r r' : Registry} {known : ConsPubKey → Int}

/-! ## Steps that leave the set alone -/

structure SamePowers (r r' : Registry) : Prop where
  power : r'.lastValidatorPower = r.lastValidatorPower
  total : r'.lastTotalPower = r.lastTotalPower
  bonded : ∀ addr : ValAddress, (∃ v, r'.validators[addr]? = some v ∧ v.status = .bonded) ↔
    ∃ v, r.validators[addr]? = some v ∧ v.status = .bonded

theorem LastBonded.samePowers (h : r.LastBonded) (hsame : SamePowers r r') : r'.LastBonded where
  bonded addr := by rw [hsame.power, hsame.bonded]; exact h.bonded addr
  total := by rw [hsame.power, hsame.total]; exact h.total

variable {v : Validator}

/-- A record of which the status is kept, or is not that of a bonded validator. -/
theorem SamePowers.insert (v' : Validator)
    (hv : r.validators[v.operatorAddress]? = some v)
    (hvalidators : r'.validators = r.validators.insert v'.operatorAddress v')
    (haddr : v'.operatorAddress = v.operatorAddress)
    (hstatus : v'.status = .bonded ↔ v.status = .bonded)
    (hpower : r'.lastValidatorPower = r.lastValidatorPower)
    (htotal : r'.lastTotalPower = r.lastTotalPower) : SamePowers r r' := by
  refine ⟨hpower, htotal, fun addr => ?_⟩
  rw [hvalidators, lookup_insert]
  split
  · rename_i heq
    rw [heq, haddr, hv]
    simp [hstatus]
  · rfl

theorem SamePowers.remove (hv : r.validators[v.operatorAddress]? = some v)
    (hstatus : v.status = .unbonded) : SamePowers r (r.remove k v) := by
  refine ⟨rfl, rfl, fun addr => ?_⟩
  rw [Registry.remove, lookup_erase]
  split
  · rename_i heq
    rw [heq, hv]
    simp [hstatus]
  · rfl

theorem Change.samePowers (h : Change k r r') : SamePowers r r' := by
  cases h with
  | restake tokens delegatorShares hv _ | edit description commission minSelfDelegation hv =>
    exact .insert _ hv rfl rfl Iff.rfl rfl rfl
  | jail hv | unjail hv _ => exact .insert _ hv rfl rfl Iff.rfl rfl rfl
  | remove hv hstatus => exact .remove hv hstatus

theorem Release.samePowers (h : Release k r r') : SamePowers r r' := by
  cases h with
  | @finishUnbonding v hv hstatus =>
    exact .insert _ hv rfl rfl (by simp [updateStatus, hstatus]) rfl rfl
  | remove hv hstatus => exact .remove hv hstatus

/-- What the engine knows is about validators that keep their keys, or are gone without power. -/
theorem Reports.sameKeys (h : r.Reports known) (hsame : SameKeys r r')
    (hpower : r'.lastValidatorPower = r.lastValidatorPower) : r'.Reports known := by
  constructor
  · intro addr v hv
    have hkey : r.keyOf addr = some v.consensusPubkey := by
      rw [← hsame.keyOf, Registry.keyOf, hv]
      rfl
    obtain ⟨w, hw, hwkey⟩ := map_eq_some_iff.mp hkey
    rw [hpower, ← hwkey]
    exact h.held addr w hw
  · intro pk hfree
    exact h.unheld pk fun addr => hsame.keyOf addr ▸ hfree addr

theorem Reports.remove (h : r.Reports known) (hlast : r.LastBonded)
    (hv : r.validators[v.operatorAddress]? = some v) (hstatus : v.status = .unbonded) :
    (r.remove k v).Reports known := by
  have hnone : r.lastValidatorPower[v.operatorAddress]? = none := by
    by_contra hne
    obtain ⟨w, hw, hbonded⟩ := (hlast.bonded _).mp (isSome_iff_ne_none.mpr hne)
    rw [mem_unique hw hv, hstatus] at hbonded
    simp at hbonded
  constructor
  · intro addr w hw
    rw [Registry.remove, lookup_erase] at hw
    split at hw
    · simp at hw
    · exact h.held addr w hw
  · intro pk hfree
    by_cases heq : pk = v.consensusPubkey
    · have hheld := h.held _ v hv
      rw [hnone] at hheld
      rw [heq]
      exact hheld
    · refine h.unheld pk fun addr hkey => hfree addr ?_
      rw [KeysIndexed.keyOf_remove]
      split
      · rename_i haddr
        rw [haddr, Registry.keyOf, hv] at hkey
        exact absurd (some.inj hkey).symm heq
      · exact hkey

theorem Reports.create (hk : r.KeysIndexed k) (h : r.Reports known) (hlast : r.LastBonded)
    (hv : r.Enters k ctx v) : (r.create k v).Reports known := by
  have hkeyOf : ∀ addr, (r.create k v).keyOf addr =
      if addr = v.operatorAddress then some v.consensusPubkey else r.keyOf addr :=
    KeysIndexed.keyOf_store r v
  have hnone : r.lastValidatorPower[v.operatorAddress]? = none := by
    by_contra hne
    obtain ⟨w, hw, -⟩ := (hlast.bonded _).mp (isSome_iff_ne_none.mpr hne)
    rw [hv.absent] at hw
    simp at hw
  have hfree : ∀ addr, r.keyOf addr ≠ some v.consensusPubkey := by
    intro addr hkey
    have hentry := (hk.indexed _ addr).mpr ⟨_, hkey, rfl⟩
    rw [Requested.free_of_resolve hk hv.unused.resolve] at hentry
    simp at hentry
  constructor
  · intro addr w hw
    rw [Registry.create, lookup_insert] at hw
    split at hw
    · rename_i heq
      cases hw
      rw [heq]
      show _ = (r.lastValidatorPower[v.operatorAddress]?).getD 0
      rw [hnone]
      exact h.unheld _ hfree
    · exact h.held addr w hw
  · intro pk hunheld
    refine h.unheld pk fun addr hkey => hunheld addr ?_
    rw [hkeyOf]
    split
    · rename_i heq
      rw [heq, Registry.keyOf, hv.absent] at hkey
      simp at hkey
    · exact hkey

theorem SamePowers.create (hv : r.Enters k ctx v) : SamePowers r (r.create k v) := by
  refine ⟨rfl, rfl, fun addr => ?_⟩
  rw [Registry.create, lookup_insert]
  split
  · rename_i heq
    rw [heq, hv.absent]
    simp [hv.status]
  · rfl

/-- The elected validators that asked for another key in the block of a height have the power
that was last reported. -/
def RotatesReported {X : Type} (k : Keeper X) (n : Nat) (height : Int) (r : Registry) : Prop :=
  ∀ history ∈ r.rotations height, r.elected k n history.operatorAddress = true →
    r.lastValidatorPower[history.operatorAddress]? =
      (r.validators[history.operatorAddress]?).map k.power

theorem Rotated.records {l : List ConsPubKeyRotationHistory} {updates : List ValidatorUpdate}
    (h : Rotated k l updates r r') {addr : ValAddress} {w : Validator}
    (hw : r'.validators[addr]? = some w) :
    ∃ v, r.validators[addr]? = some v ∧ w = { v with consensusPubkey := w.consensusPubkey } := by
  induction h <;> grind [rekey_lookup]

structure Informed (r : Registry) (known : ConsPubKey → Int) : Prop where
  lastBonded : r.LastBonded
  reports : r.Reports known

theorem Change.informed (h : Change k r r') (hi : r.Informed known) : r'.Informed known := by
  refine ⟨hi.lastBonded.samePowers h.samePowers, ?_⟩
  rcases h.sameKeys with hsame | ⟨v, hv, hstatus, rfl⟩
  · exact hi.reports.sameKeys hsame h.samePowers.power
  · exact hi.reports.remove hi.lastBonded hv hstatus

theorem Changes.informed (h : Changes k r r') (hi : r.Informed known) : r'.Informed known :=
  keeps (fun hstep => hstep.informed) h hi

theorem Release.informed (h : Release k r r') (hi : r.Informed known) : r'.Informed known := by
  refine ⟨hi.lastBonded.samePowers h.samePowers, ?_⟩
  rcases h.sameKeys with hsame | ⟨v, hv, hstatus, rfl⟩
  · exact hi.reports.sameKeys hsame h.samePowers.power
  · exact hi.reports.remove hi.lastBonded hv hstatus

theorem Releases.informed (h : Releases k r r') (hi : r.Informed known) : r'.Informed known :=
  keeps (fun hstep => hstep.informed) h hi

theorem Tx.informed {key : Option (ValAddress × ConsPubKey)} (h : Tx k ctx key r r')
    (hk : r.KeysIndexed k) (hi : r.Informed known) : r'.Informed known := by
  cases h with
  | changes h => exact h.informed hi
  | create hv h =>
    exact h.created.informed ⟨hi.lastBonded.samePowers (SamePowers.create hv),
      hi.reports.create hk hi.lastBonded hv⟩
  | request => exact ⟨⟨hi.lastBonded.bonded, hi.lastBonded.total⟩, hi.reports.held, hi.reports.unheld⟩

end Registry

namespace Keeper

open Registry

variable {X : Type} {k : Keeper X} {ctx : HeaderInfo} {s s' : State X}
  {known : ConsPubKey → Int} {updates : List ValidatorUpdate}

/-! ## Blocks -/

theorem powers_of_no_updates {E D : List Validator} {r r1 : Registry}
    (hturned : Turned k E D r r1) (hnil : setUpdates k r E D = []) :
    r1.lastValidatorPower = r.lastValidatorPower := by
  obtain ⟨hE, hD⟩ := append_eq_nil_iff.mp hnil
  rw [map_eq_nil_iff] at hE hD
  refine Std.ExtTreeMap.ext_getElem? fun addr => ?_
  by_cases hmem : addr ∈ E.map operatorAddress
  · obtain ⟨v, hv, rfl⟩ := mem_map.mp hmem
    have hunchanged := filter_eq_nil_iff.mp hE v hv
    rw [(hturned.entered v hv).2.2.2]
    simpa using Eq.symm (not_not.mp (mt decide_eq_true hunchanged))
  · obtain ⟨-, hnone, hnone'⟩ := hturned.others addr hmem (by simp [hD])
    rw [hnone, hnone']

theorem applyAndReturnValidatorSetUpdates_informed (hr : s.registry.Keyed)
    (hp : s.registry.PowerIndexed k) (hk : s.registry.KeysSound k ctx.height)
    (hi : s.registry.Informed known)
    (h : k.applyAndReturnValidatorSetUpdates ctx s = .ok updates s') :
    s'.registry.Informed (applyUpdates known updates) := by
  obtain ⟨_, _, r1, r2, hturned, hturns, hupdates, hrotated, hregistry⟩ :=
    applyAndReturnValidatorSetUpdates_turned hr hp h
  have hsame := hturns.sameKeys
  have hr1 := hturns.keyed hr
  have hk1 := hk.indexed.sameKeys hsame
  have hpending : Pending k r1 (r1.rotations ctx.height) := by
    rw [hsame.rotations]
    exact hk.requested.pending.sameKeys hsame
  have hreports := hrotated.reports hr1 hk1 hpending (hturned.current hi.lastBonded)
    (hturned.reports hk.indexed hi.reports)
  obtain ⟨hpower, -, hbonded⟩ := hrotated.powers hr1
  rw [← applyUpdates_append, ← hupdates] at hreports
  refine ⟨⟨fun addr => ?_, ?_⟩, ?_⟩
  · rw [hregistry]
    rw [hpower, hturned.lastBonded hi.lastBonded]
    exact (hbonded addr).symm
  · rw [hregistry]
    rw [hpower]
    split
    · rename_i hempty
      rw [List.isEmpty_iff, hupdates, List.append_eq_nil_iff] at hempty
      rw [powers_of_no_updates hturned hempty.1]
      exact hi.lastBonded.total
    · exact hturned.total.symm
  · rw [hregistry]
    exact ⟨hreports.held, hreports.unheld⟩

structure SetSound (k : Keeper X) (c : Chain X) : Prop where
  powerIndexed : c.state.registry.PowerIndexed k
  keysSound : c.state.registry.KeysSound k c.header.height
  informed : c.state.registry.Informed c.known

theorem advance_setSound {c : Chain X} (hc : c.state.Sound) (h : SetSound k c) (step : Step) :
    SetSound k (k.advance step c).2 := by
  refine ⟨advance_powerIndexed hc h.powerIndexed step, advance_keysSound hc h.keysSound step, ?_⟩
  obtain heq | ⟨s, heq, -, htx⟩ | ⟨heights, duration, updates, s, -, hblock, -, heq⟩ :=
    advance_cases hc step
  · rw [heq]
    exact h.informed
  · rw [heq]
    exact htx.informed h.keysSound.indexed h.informed
  · rw [heq]
    obtain ⟨_, happly, hreleases⟩ := blockValidatorUpdates_registry hc.keyed hblock
    exact hreleases.informed (applyAndReturnValidatorSetUpdates_informed hc.keyed h.powerIndexed
      h.keysSound h.informed happly)

theorem mem_newSet (hreduction : 0 < k.powerReduction) (hs : s.Sound)
    (hp : s.registry.PowerIndexed k) {n : Nat} :
    v ∈ s.registry.newSet k n ↔ s.registry.validators[v.operatorAddress]? = some v ∧
      s.registry.elected k n v.operatorAddress = true :=
  hp.mem_newSet hreduction hs.keyed
    (fun addr v hv => (hs.formed.validators addr v hv).solvent.tokens_nonneg)

theorem rotatesReported_iff (hreduction : 0 < k.powerReduction) (hs : s.Sound)
    (hp : s.registry.PowerIndexed k) : (∀ history ∈ s.registry.rotations ctx.height,
      ∀ v ∈ s.registry.newSet k s.params.maxValidators,
        v.operatorAddress = history.operatorAddress →
        s.registry.lastValidatorPower[v.operatorAddress]? = some (k.power v)) ↔
      s.registry.RotatesReported k s.params.maxValidators ctx.height := by
  constructor
  · intro h history hmem hin
    obtain ⟨v, hv, -⟩ := elected_iff.mp hin
    have haddr := hs.keyed _ v hv
    rw [← haddr] at hin hv ⊢
    rw [hv]
    exact h history hmem v ((mem_newSet hreduction hs hp).mpr ⟨hv, hin⟩) haddr
  · intro h history hmem v hv haddr
    obtain ⟨hstored, hin⟩ := (mem_newSet hreduction hs hp).mp hv
    have hlast := h history hmem (haddr ▸ hin)
    rw [← haddr, hstored] at hlast
    exact hlast

theorem genesis_setSound (header : HeaderInfo) (params : Params) (outside : X) :
    SetSound k (.genesis header params outside) := by
  refine ⟨genesis_powerIndexed params outside, genesis_keysSound params outside _,
    ⟨fun addr => ?_, ?_⟩, fun addr v hv => ?_, fun pk _ => rfl⟩
  · simp [Chain.genesis, genesis, registry]
  · simp [Chain.genesis, genesis, registry, total_empty]
  · simp [Chain.genesis, genesis, registry] at hv

variable (k) in
theorem reached_setSound (steps : List Step) (header : HeaderInfo) (params : Params) (outside : X) :
    (k.reached steps (.genesis header params outside)).state.Sound ∧
      SetSound k (k.reached steps (.genesis header params outside)) :=
  reached_genesis (fun step _ hc hI => advance_setSound hc hI step) steps
    (genesis_setSound header params outside)

/-- The set after a block: the elected validators are bonded with their power as the last one
reported, and the others have none. -/
theorem applyAndReturnValidatorSetUpdates_elected (hreduction : 0 < k.powerReduction)
    (hs : s.Sound) (hp : s.registry.PowerIndexed k)
    (h : k.applyAndReturnValidatorSetUpdates ctx s = .ok updates s') {addr : ValAddress}
    {w : Validator} (hw : s'.registry.validators[addr]? = some w) :
    (s.registry.elected k s.params.maxValidators addr = true →
      ∃ power, w.consensusPower k.powerReduction = .ok power ∧
        s'.registry.lastValidatorPower[addr]? = some power) ∧
    (s.registry.elected k s.params.maxValidators addr = false →
      s'.registry.lastValidatorPower[addr]? = none) := by
  obtain ⟨_, _, r1, r2, hturned, hturns, -, hrotated, hregistry⟩ :=
    applyAndReturnValidatorSetUpdates_turned hs.keyed hp h
  have hr1 := hturns.keyed hs.keyed
  have hpower : s'.registry.lastValidatorPower = r1.lastValidatorPower := by
    rw [hregistry]
    exact (hrotated.powers hr1).1
  have hw2 : r2.validators[addr]? = some w := by
    rw [hregistry] at hw
    exact hw
  obtain ⟨_, hw1, hrecord⟩ := hrotated.records hw2
  rw [hpower]
  constructor
  · intro hin
    obtain ⟨v, hv, hjailed, -⟩ := elected_iff.mp hin
    have haddr : v.operatorAddress = addr := hs.keyed addr v hv
    subst haddr
    have hmem := (mem_newSet hreduction hs hp).mpr ⟨hv, hin⟩
    obtain ⟨-, -, hstored, hlast⟩ := hturned.entered v hmem
    obtain rfl := mem_unique hw1 hstored
    refine ⟨k.power v, ?_, hlast⟩
    have htokens : w.tokens = v.tokens := by
      rw [hrecord]
      rfl
    have hsame : k.power w = k.power v := by rw [power, power, htokens]
    rw [consensusPower, if_pos (by rw [hrecord]; rfl), ← hsame]
    exact (hp.complete _ v hv hjailed).1.congr htokens
  · intro hout
    rcases hturned.cases hw1 with ⟨v, hv, rfl, -⟩ | ⟨v, hv, rfl, -⟩ | ⟨hE, hD, -⟩
    · rw [((mem_newSet hreduction hs hp).mp hv).2] at hout
      simp at hout
    · exact (hturned.left v hv).2.2.2
    · exact (hturned.others addr hE hD).2.2

/-- In every block of every run the updates name no key twice if and only if no elected
validator that asked for another key in the block has a power that was not reported yet.
Applied to what the engine knows, they give the powers of the elected validators under their
current keys and nothing else, and the total is that of the powers last reported. -/
theorem reached_updates_iff (k : Keeper X) (hreduction : 0 < k.powerReduction)
    (header : HeaderInfo) (params : Params) (outside : X) (steps : List Step)
    (updates : List ValidatorUpdate) (s' : State X) (h : k.applyAndReturnValidatorSetUpdates
      (k.reached steps (.genesis header params outside)).header
      (k.reached steps (.genesis header params outside)).state = .ok updates s') :
    ((updates.map ValidatorUpdate.pubKey).Nodup ↔
      (k.reached steps (.genesis header params outside)).state.registry.RotatesReported k
        (k.reached steps (.genesis header params outside)).state.params.maxValidators
        (k.reached steps (.genesis header params outside)).header.height) ∧
    (∀ (addr : ValAddress) (v : Validator), s'.validators[addr]? = some v →
      if (k.reached steps (.genesis header params outside)).state.registry.elected k
          (k.reached steps (.genesis header params outside)).state.params.maxValidators addr then
        v.consensusPower k.powerReduction =
          .ok (applyUpdates (k.reached steps (.genesis header params outside)).known updates
            v.consensusPubkey) else
        applyUpdates (k.reached steps (.genesis header params outside)).known updates
          v.consensusPubkey = 0) ∧
    (∀ pk, (∀ (addr : ValAddress) (v : Validator), s'.validators[addr]? = some v →
        v.consensusPubkey ≠ pk) →
      applyUpdates (k.reached steps (.genesis header params outside)).known updates pk = 0) ∧
    s'.lastTotalPower = total (fun _ power => power) s'.lastValidatorPower := by
  obtain ⟨hsound, hset⟩ := reached_setSound k steps header params outside
  generalize k.reached steps (.genesis header params outside) = c at *
  have hinformed := applyAndReturnValidatorSetUpdates_informed hsound.keyed hset.powerIndexed
    hset.keysSound hset.informed h
  refine ⟨?_, fun addr v hv => ?_, fun pk hfree => ?_, hinformed.lastBonded.total⟩
  · obtain ⟨_, _, _, _, hturned, hturns, rfl, hrotated, -⟩ :=
      applyAndReturnValidatorSetUpdates_turned hsound.keyed hset.powerIndexed h
    rw [nodup_updates_iff hset.keysSound hset.informed.lastBonded hturned hturns.sameKeys hrotated]
    exact rotatesReported_iff hreduction hsound hset.powerIndexed
  · obtain ⟨hin, hout⟩ := applyAndReturnValidatorSetUpdates_elected hreduction hsound
      hset.powerIndexed h hv
    have hheld := hinformed.reports.held addr v hv
    split
    · rename_i helected
      obtain ⟨_, hpower, hlast⟩ := hin helected
      rw [hheld, hlast]
      exact hpower
    · rename_i helected
      rw [hheld, hout (by simpa using helected)]
      rfl
  · refine hinformed.reports.unheld pk fun addr hkey => ?_
    obtain ⟨v, hv, hpk⟩ := map_eq_some_iff.mp hkey
    exact hfree addr v hv hpk

/-- Of three validators two are elected, and the first asks for another key. -/
def rotatedAlone : List Step :=
  [enter [1] 100, enter [2] 50, enter [3] 20, .endBlock 0 0, rotate [1] [11]]

theorem reached_updates_iff_rotatedAlone : ∃ c updates s',
    c = plainKeeper.reached rotatedAlone (.genesis ⟨1, 1⟩ emptyState.params ()) ∧
      plainKeeper.applyAndReturnValidatorSetUpdates c.header c.state = .ok updates s' ∧
      updates = [⟨⟨"secp256k1", [1]⟩, 0⟩, ⟨⟨"secp256k1", [11]⟩, 100⟩] ∧
      c.state.registry.RotatesReported plainKeeper c.state.params.maxValidators c.header.height ∧
      applyUpdates c.known updates ⟨"secp256k1", [2]⟩ = 50 ∧
      applyUpdates c.known updates ⟨"secp256k1", [3]⟩ = 0 ∧
      s'.lastTotalPower = total (fun _ power => power) s'.lastValidatorPower := by
  have hmain := reached_updates_iff plainKeeper (by decide) ⟨1, 1⟩ emptyState.params () rotatedAlone
  obtain ⟨c, hc⟩ : ∃ c, c = plainKeeper.reached rotatedAlone
    (.genesis ⟨1, 1⟩ emptyState.params ()) := ⟨_, rfl⟩
  obtain ⟨updates, s', h, hcheck⟩ := ok_of_check (p := fun updates (s' : State Unit) =>
      updates = [⟨⟨"secp256k1", [1]⟩, 0⟩, ⟨⟨"secp256k1", [11]⟩, 100⟩] ∧
      s'.validators[([2] : ValAddress)]?.map (fun v => (v.consensusPubkey,
        (v.consensusPower 1).toOption)) = some (⟨"secp256k1", [2]⟩, some 50) ∧
      s'.validators[([3] : ValAddress)]?.map Validator.consensusPubkey = some ⟨"secp256k1", [3]⟩)
    (r := plainKeeper.applyAndReturnValidatorSetUpdates c.header c.state)
    (by rw [hc]; decide +kernel)
  have helected : c.state.registry.elected plainKeeper c.state.params.maxValidators [2] = true ∧
      ¬ c.state.registry.elected plainKeeper c.state.params.maxValidators [3] = true := by
    rw [hc]
    decide +kernel
  obtain ⟨hupdates, hsecond, hthird⟩ := of_decide_eq_true hcheck
  rw [← hc] at hmain
  obtain ⟨hnodup, hstored, -, htotal⟩ := hmain updates s' h
  refine ⟨c, updates, s', hc, h, hupdates, hnodup.mp (by rw [hupdates]; decide), ?_, ?_, htotal⟩
  · obtain ⟨v, hv, hpower⟩ := map_eq_some_iff.mp hsecond
    obtain ⟨hkey, hpower⟩ := Prod.mk.inj hpower
    have hknown := hstored [2] v hv
    rw [if_pos helected.1, hkey] at hknown
    rw [show v.consensusPower 1 = _ from hknown] at hpower
    exact Option.some.inj hpower
  · obtain ⟨v, hv, hkey⟩ := map_eq_some_iff.mp hthird
    have hknown := hstored [3] v hv
    rwa [if_neg helected.2, hkey] at hknown

def rotatedWithNewPower : List Step :=
  [enter [1] 100, .endBlock 0 0, .execute ⟨.delegate ⟨[7], [1], ⟨[1], 30⟩⟩, rfl⟩, rotate [1] [11]]

/-- The old key is reported with the new power, and removed in the same list. -/
theorem rotatedWithNewPower_not_nodup : ∃ updates s', plainKeeper.applyAndReturnValidatorSetUpdates
        (plainKeeper.reached rotatedWithNewPower firstBlock).header
        (plainKeeper.reached rotatedWithNewPower firstBlock).state = .ok updates s' ∧
      ¬ (updates.map ValidatorUpdate.pubKey).Nodup := by
  obtain ⟨updates, s', h, hdup⟩ := ok_of_check (p := fun (updates : List ValidatorUpdate) _ =>
    decide (¬ (updates.map ValidatorUpdate.pubKey).Nodup))
    (r := plainKeeper.applyAndReturnValidatorSetUpdates
      (plainKeeper.reached rotatedWithNewPower firstBlock).header
      (plainKeeper.reached rotatedWithNewPower firstBlock).state) (by decide +kernel)
  exact ⟨updates, s', h, of_decide_eq_true hdup⟩

end Keeper

end CosmosSDK.Staking
