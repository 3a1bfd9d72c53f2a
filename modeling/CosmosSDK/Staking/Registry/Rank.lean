import CosmosSDK.Lib.BigEndian
import CosmosSDK.Lib.Ranking
import CosmosSDK.Staking.Registry.PowerIndex

/-!
# The ranking of validators

Validators that are not jailed are ranked by the keys of the power index: by power, and
among equal powers by the inverted address.  Those of small rank with some power are elected.
An exact power index, read from its end, lists the candidates in the order of their ranks.
-/

namespace CosmosSDK.Staking

open Store OrderedKV List Std.ExtTreeMap Validator Option Std.OrientedOrd

namespace Keeper

variable {X : Type} {k : Keeper X}

theorem uint64Bytes_eq (i : Int) : uint64Bytes i = BigEndian.bytes 8 (i % 2 ^ 64).toNat := by
  simp [uint64Bytes, BigEndian.bytes, range_succ]

theorem compare_powerKey {v w : Validator} (hv : 0 ≤ k.power v) (hlt : k.power v < k.power w)
    (hw : k.power w < 2 ^ 63) : compare (k.powerKey v) (k.powerKey w) = .lt := by
  unfold powerKey
  rw [uint64Bytes_eq, uint64Bytes_eq, append_assoc, append_assoc]
  apply BigEndian.compare_bytes_append
  omega

variable {v : Validator}

theorem Powered.lt (h : k.Powered v) : k.power v < 2 ^ 63 :=
  (tokensToConsensusPower_ok h).2.2.2

theorem power_nonneg (hreduction : 0 < k.powerReduction) (htokens : 0 ≤ v.tokens) :
    0 ≤ k.power v :=
  Int.tdiv_nonneg htokens hreduction.le

end Keeper

namespace Registry

variable {X : Type} {k : Keeper X} {r : Registry}

def candidates (r : Registry) : List Validator := r.validators.values.filter (fun v => !v.jailed)

/-- The number of candidates that come before a validator. -/
def rank {X : Type} (k : Keeper X) (r : Registry) (v : Validator) : Nat :=
  r.candidates.countP (fun w => decide (compare (k.powerKey v) (k.powerKey w) = .lt))

/-- A candidate with power among the first `n` is elected. -/
def elected {X : Type} (k : Keeper X) (n : Nat) (r : Registry) (addr : ValAddress) : Bool :=
  match r.validators[addr]? with
  | some v => !v.jailed && decide (k.power v ≠ 0) && decide (r.rank k v < n)
  | none => false

def ranked (r : Registry) : List Validator :=
  r.validatorsByPowerIndex.toList.reverse.filterMap (fun entry => r.validators[entry.2]?)

def newSet {X : Type} (k : Keeper X) (n : Nat) (r : Registry) : List Validator :=
  (r.ranked.take n).takeWhile (fun v => decide (k.power v ≠ 0))

theorem elected_iff {n : Nat} {addr : ValAddress} :
    r.elected k n addr = true ↔ ∃ v, r.validators[addr]? = some v ∧ v.jailed = false ∧
      k.power v ≠ 0 ∧ r.rank k v < n := by
  unfold elected
  cases r.validators[addr]? with
  | none => simp
  | some => simp [and_assoc]

theorem mem_candidates (hr : r.Keyed) :
    v ∈ r.candidates ↔ r.validators[v.operatorAddress]? = some v ∧ v.jailed = false := by
  rw [candidates, mem_filter, mem_values, Bool.not_eq_true']
  refine and_congr_left fun _ => ⟨?_, fun hv => ⟨_, hv⟩⟩
  rintro ⟨addr, hv⟩
  exact hr.stored hv

namespace PowerIndexed

theorem entry (h : r.PowerIndexed k) {e : Bytes × ValAddress}
    (he : e ∈ r.validatorsByPowerIndex.toList) :
    ∃ v, r.validators[e.2]? = some v ∧ v.jailed = false ∧ e.1 = k.powerKey v :=
  h.sound e.1 e.2 (mem_toList_iff_getElem?_eq_some.mp he)

theorem ranked_addresses (hr : r.Keyed) (h : r.PowerIndexed k) :
    r.ranked.map operatorAddress =
      (r.validatorsByPowerIndex.toList.map (fun e => e.2)).reverse := by
  rw [ranked, map_filterMap, ← map_reverse, ← filterMap_eq_map']
  refine filterMap_congr fun e he => ?_
  obtain ⟨v, hv, -, -⟩ := h.entry (mem_reverse.mp he)
  rw [hv, map_some, hr e.2 v hv]

theorem ranked_sorted (h : r.PowerIndexed k) :
    r.ranked.Pairwise (fun v w => compare (k.powerKey w) (k.powerKey v) = .lt) := by
  rw [ranked, pairwise_filterMap, pairwise_reverse]
  refine (ordered_keys_toList).imp_of_mem ?_
  intro a b ha hb hlt w hw v hv
  obtain ⟨_, hv', -, hkey⟩ := h.entry ha
  obtain ⟨_, hw', -, hkey'⟩ := h.entry hb
  obtain rfl := some.inj (hv.symm.trans hv')
  obtain rfl := some.inj (hw.symm.trans hw')
  rw [← hkey, ← hkey']
  exact hlt

variable (hr : r.Keyed)
include hr

variable (h : r.PowerIndexed k)
include h

theorem mem_ranked :
    v ∈ r.ranked ↔ v ∈ r.candidates := by
  rw [mem_candidates hr, ranked, mem_filterMap]
  constructor
  · rintro ⟨e, he, hv⟩
    obtain ⟨_, hw, hjailed, -⟩ := h.entry (mem_reverse.mp he)
    obtain rfl := mem_unique hv hw
    exact ⟨hr.stored hv, hjailed⟩
  · rintro ⟨hv, hjailed⟩
    have hentry := (h.complete _ v hv hjailed).2
    exact ⟨(_, _), mem_reverse.mpr (mem_toList_iff_getElem?_eq_some.mpr hentry), hv⟩

theorem ranked_stored : ∀ v ∈ r.ranked,
    r.validators[v.operatorAddress]? = some v ∧ v.jailed = false :=
  fun _ hv => (mem_candidates hr).mp ((h.mem_ranked hr).mp hv)

theorem ranked_perm : r.ranked.Perm r.candidates := by
  have hranked : r.ranked.Nodup := h.ranked_sorted.imp (fun {v w} hlt heq => by
    rw [heq, Std.ReflOrd.compare_self] at hlt
    simp at hlt)
  have hcandidates : r.candidates.Nodup :=
    ((values_pairwise_ne hr).filter _).imp
      (fun hne heq => hne (congrArg operatorAddress heq))
  exact (perm_ext_iff_of_nodup hranked hcandidates).mpr fun v => h.mem_ranked hr

theorem ranked_distinct :
    (r.ranked.map operatorAddress).Nodup := by
  rw [((h.ranked_perm hr).map operatorAddress).nodup_iff, List.Nodup, pairwise_map]
  exact (values_pairwise_ne hr).filter _

omit h

omit hr

theorem mem_newSet (hreduction : 0 < k.powerReduction) (hr : r.Keyed) (h : r.PowerIndexed k)
    (htokens : ∀ (addr : ValAddress) (v : Validator), r.validators[addr]? = some v → 0 ≤ v.tokens)
    {n : Nat} : v ∈ r.newSet k n ↔ r.validators[v.operatorAddress]? = some v ∧
      r.elected k n v.operatorAddress = true := by
  have hstored : ∀ v ∈ r.ranked, r.validators[v.operatorAddress]? = some v ∧ v.jailed = false :=
    fun v hv => (mem_candidates hr).mp ((h.mem_ranked hr).mp hv)
  -- a validator that comes later has at most the power of an earlier one
  have hpower : r.ranked.Pairwise (fun v w => k.power w ≠ 0 → k.power v ≠ 0) := by
    refine h.ranked_sorted.imp_of_mem fun {v w} hv hw hlt hpower hzero => ?_
    obtain ⟨hv, hjailed⟩ := hstored v hv
    obtain ⟨hw, hjailed'⟩ := hstored w hw
    have hnonneg := Keeper.power_nonneg hreduction (htokens _ w hw)
    have hgt : compare (k.powerKey v) (k.powerKey w) = .lt :=
      Keeper.compare_powerKey (by omega) (by omega) (h.complete _ w hw hjailed').1.lt
    rw [eq_swap, hlt] at hgt
    simp at hgt
  have hfilter : r.newSet k n = (r.ranked.take n).filter (fun v => decide (k.power v ≠ 0)) :=
    takeWhile_eq_filter ((hpower.sublist (take_sublist n _)).imp (by simp))
  have hrank : v ∈ r.ranked → (v ∈ r.ranked.take n ↔ r.rank k v < n) := by
    intro hv
    rw [rank, ← (h.ranked_perm hr).countP_eq]
    refine Ranking.mem_take_iff (fun v w hlt hgt => ?_) h.ranked_sorted hv n
    rw [eq_swap, hlt] at hgt
    simp at hgt
  rw [hfilter, mem_filter, elected_iff, decide_eq_true_eq]
  constructor
  · rintro ⟨htake, hpower⟩
    have hv := mem_of_mem_take htake
    exact ⟨(hstored v hv).1, v, (hstored v hv).1, (hstored v hv).2, hpower, (hrank hv).mp htake⟩
  · rintro ⟨hv, w, hw, hjailed, hpower, hlt⟩
    obtain rfl := mem_unique hv hw
    have hmem := (h.mem_ranked hr).mpr ((mem_candidates hr).mpr ⟨hv, hjailed⟩)
    exact ⟨(hrank hmem).mpr hlt, hpower⟩

end PowerIndexed

end Registry

end CosmosSDK.Staking
