import CosmosSDK.Lib.OrderedMap
import Mathlib.Tactic.Abel
import Mathlib.Algebra.BigOperators.Pi
import Mathlib.Algebra.Order.BigOperators.Group.Finset

/-!
# Totals over finite maps

The sum of a quantity over the entries of a map, and how it changes with one
insertion or one deletion.  Every such change is local: both maps agree away from
one key, so their totals over a common set of keys differ by that key alone.
-/

namespace OrderedKV

open Std List

/-- The sum of `f` over the entries. -/
def total {K V M : Type} [Ord K] [TransOrd K] [AddCommMonoid M] (f : K → V → M) (m : OrdMap K V) :
    M :=
  (m.toList.map (fun e => f e.1 e.2)).sum

def part {K V M : Type} [Ord K] [TransOrd K] [AddCommMonoid M] (f : K → V → M) (m : OrdMap K V)
    (k : K) : M :=
  match m[k]? with
  | some v => f k v
  | none => 0

section Totals

variable {K V M : Type} [Ord K] [TransOrd K] [AddCommMonoid M] (f : K → V → M)
  {m m' : OrdMap K V} {k : K}

theorem part_of_some {v : V} (h : m[k]? = some v) : part f m k = f k v := by
  simp [part, h]

theorem part_of_none (h : m[k]? = none) : part f m k = 0 := by
  simp [part, h]

variable [DecidableEq K]

theorem mem_of_agree (h : ∀ a, a ≠ k → m'[a]? = m[a]?) {a : K} (ha : a ∈ m') : a = k ∨ a ∈ m := by
  by_cases hak : a = k
  · exact .inl hak
  · rw [ExtTreeMap.mem_iff_isSome_getElem?, h a hak, ← ExtTreeMap.mem_iff_isSome_getElem?] at ha
    exact .inr ha

variable [LawfulEqOrd K]

theorem mem_toFinset_keys {a : K} (h : a ∈ m) : a ∈ m.keys.toFinset :=
  mem_toFinset.mpr (ExtTreeMap.mem_keys.mpr h)

theorem total_eq_sum (m : OrdMap K V) (s : Finset K) (hs : ∀ k, k ∈ m → k ∈ s) :
    total f m = ∑ k ∈ s, part f m k := by
  have hkeys : total f m = (m.keys.map (part f m)).sum := by
    rw [total, ← ExtTreeMap.map_fst_toList_eq_keys, map_map]
    congr 1
    apply map_congr_left
    intro e he
    exact (part_of_some f (ExtTreeMap.mem_toList_iff_getElem?_eq_some.mp he)).symm
  have hnodup : m.keys.Nodup := ExtTreeMap.nodup_keys
  rw [hkeys, ← sum_toFinset _ hnodup]
  apply Finset.sum_subset
  · intro k hk
    exact hs k (ExtTreeMap.mem_keys.mp (mem_toFinset.mp hk))
  · intro k _ hk
    rw [mem_toFinset, ExtTreeMap.mem_keys] at hk
    exact part_of_none f (ExtTreeMap.getElem?_eq_none hk)

theorem total_agree (h : ∀ a, a ≠ k → m'[a]? = m[a]?) :
    total f m' + part f m k = total f m + part f m' k := by
  have hm : ∀ a, a ∈ m → a ∈ insert k m.keys.toFinset := fun a ha =>
    Finset.mem_insert_of_mem (mem_toFinset_keys ha)
  have hm' : ∀ a, a ∈ m' → a ∈ insert k m.keys.toFinset := by
    intro a ha
    rcases mem_of_agree h ha with rfl | ha
    · exact Finset.mem_insert_self _ _
    · exact hm a ha
  have hk : k ∈ insert k m.keys.toFinset := Finset.mem_insert_self _ _
  rw [total_eq_sum f m' _ hm', total_eq_sum f m _ hm, ← Finset.add_sum_erase _ _ hk,
    ← Finset.add_sum_erase _ (part f m) hk]
  have hrest : ∑ a ∈ (insert k m.keys.toFinset).erase k, part f m' a =
      ∑ a ∈ (insert k m.keys.toFinset).erase k, part f m a := by
    apply Finset.sum_congr rfl
    intro a ha
    simp only [part, h a (Finset.ne_of_mem_erase ha)]
  rw [hrest]
  abel

theorem total_insert (m : OrdMap K V) (k : K) (v : V) :
    total f (m.insert k v) + part f m k = total f m + f k v := by
  have hagree : ∀ a, a ≠ k → (m.insert k v)[a]? = m[a]? := fun a ha => by
    rw [lookup_insert, if_neg ha]
  have hpart : part f (m.insert k v) k = f k v :=
    part_of_some f (by rw [lookup_insert, if_pos rfl])
  rw [total_agree f hagree, hpart]

theorem total_erase (m : OrdMap K V) (k : K) : total f (m.erase k) + part f m k = total f m := by
  have hagree : ∀ a, a ≠ k → (m.erase k)[a]? = m[a]? := fun a ha => by
    rw [lookup_erase, if_neg ha]
  have hpart : part f (m.erase k) k = 0 := part_of_none f (by rw [lookup_erase, if_pos rfl])
  rw [total_agree f hagree, hpart, add_zero]

theorem total_empty : total f (∅ : OrdMap K V) = 0 := by
  rw [total_eq_sum f ∅ ∅ (by simp), Finset.sum_empty]

omit [DecidableEq K] in
theorem total_congr {f g : K → V → M} (h : ∀ k v, m[k]? = some v → f k v = g k v) :
    total f m = total g m := by
  unfold total
  congr 1
  apply map_congr_left
  intro e he
  exact h e.1 e.2 (ExtTreeMap.mem_toList_iff_getElem?_eq_some.mp he)

end Totals

section Families

variable {K V I M : Type} [Ord K] [TransOrd K] [LawfulEqOrd K] [DecidableEq K] [AddCommMonoid M]

theorem total_apply (f : K → V → I → M) (m : OrdMap K V) (i : I) :
    total f m i = total (fun k v => f k v i) m := by
  rw [total_eq_sum f m _ fun _ => mem_toFinset_keys, total_eq_sum _ m _ fun _ => mem_toFinset_keys,
    Finset.sum_apply]
  apply Finset.sum_congr rfl
  intro k _
  unfold part
  cases m[k]? <;> rfl

theorem total_single (f : V → M) (m : OrdMap K V) (k : K) :
    total (fun a v => Pi.single a (f v)) m k = (m[k]?.map f).getD 0 := by
  have hall : ∀ a, a ∈ m → a ∈ insert k m.keys.toFinset := fun a ha =>
    Finset.mem_insert_of_mem (mem_toFinset_keys ha)
  rw [total_apply, total_eq_sum _ m _ hall, Finset.sum_eq_single k]
  · unfold part
    cases m[k]? <;> simp
  · intro a _ ha
    unfold part
    cases m[a]? with
    | none => rfl
    | some => simp [Ne.symm ha]
  · intro hk
    exact absurd (Finset.mem_insert_self _ _) hk

end Families

section Ordered

variable {K V M : Type} [Ord K] [TransOrd K] [LawfulEqOrd K] [DecidableEq K] [AddCommMonoid M]
  [PartialOrder M] [IsOrderedAddMonoid M] {f : K → V → M} {m : OrdMap K V}
  (h : ∀ k v, m[k]? = some v → 0 ≤ f k v)
include h

omit [LawfulEqOrd K] [DecidableEq K] [IsOrderedAddMonoid M] in
theorem part_nonneg (a : K) : 0 ≤ part f m a := by
  unfold part
  cases ha : m[a]? with
  | none => rfl
  | some w => exact h a w ha

theorem le_total_of_nonneg {k : K} {v : V} (hk : m[k]? = some v) : f k v ≤ total f m := by
  rw [total_eq_sum f m _ fun _ => mem_toFinset_keys, ← part_of_some f hk]
  apply Finset.single_le_sum fun a _ => part_nonneg h a
  exact mem_toFinset_keys (by rw [ExtTreeMap.mem_iff_isSome_getElem?, hk]; rfl)

theorem sum_part_le_total {keys : List K} (hkeys : keys.Nodup) :
    (keys.map (part f m)).sum ≤ total f m := by
  have hall : ∀ a, a ∈ m → a ∈ m.keys.toFinset ∪ keys.toFinset := fun a ha =>
    Finset.mem_union_left _ (mem_toFinset_keys ha)
  rw [total_eq_sum f m _ hall, ← sum_toFinset _ hkeys]
  exact Finset.sum_le_sum_of_subset_of_nonneg Finset.subset_union_right fun a _ _ => part_nonneg h a

omit [DecidableEq K] in
theorem total_nonneg : 0 ≤ total f m := by
  apply sum_nonneg
  intro x hx
  obtain ⟨e, he, rfl⟩ := mem_map.mp hx
  exact h e.1 e.2 (ExtTreeMap.mem_toList_iff_getElem?_eq_some.mp he)

end Ordered

end OrderedKV
