import Mathlib.Data.List.Sort
import Std.Data.ExtTreeMap

/-!
# Sorting by a key

The elements of a list in the order of their keys.  Lists with the same elements and
without repeated keys are sorted alike.
-/

namespace SortOn

open Std List OrientedCmp

variable {α K : Type} [Ord K] (key : α → K)

def le (a b : α) : Prop := (compare (key a) (key b)).isLE = true

instance (a b : α) : Decidable (le key a b) :=
  inferInstanceAs (Decidable ((compare (key a) (key b)).isLE = true))

def sortOn (l : List α) : List α := l.insertionSort (le key)

theorem sortOn_perm (l : List α) : (sortOn key l).Perm l := perm_insertionSort (le key) l

theorem mem_sortOn {l : List α} {a : α} : a ∈ sortOn key l ↔ a ∈ l := (sortOn_perm key l).mem_iff

variable [TransOrd K]

instance : IsTrans α (le key) := ⟨fun _ _ _ hab hbc => TransCmp.isLE_trans hab hbc⟩

instance : Std.Total (le key) where
  total a b := by
    have hswap : compare (key b) (key a) = (compare (key a) (key b)).swap := eq_swap
    unfold le
    rw [hswap]
    cases compare (key a) (key b) with
    | lt => exact .inl rfl
    | eq => exact .inl rfl
    | gt => exact .inr rfl

theorem sortOn_pairwise (l : List α) : (sortOn key l).Pairwise (le key) :=
  pairwise_insertionSort (le key) l

theorem mem_after_of_lt {l before after : List α} {a b : α} (h : sortOn key l = before ++ a :: after)
    (hb : b ∈ l) (hlt : compare (key a) (key b) = .lt) : b ∈ after := by
  have hpairwise := sortOn_pairwise key l
  rw [h, pairwise_append] at hpairwise
  have hmem : b ∈ before ++ a :: after := by
    rw [← h]
    exact (mem_sortOn key).mpr hb
  rcases mem_append.mp hmem with hbefore | hrest
  · have hle : (compare (key b) (key a)).isLE = true :=
      hpairwise.2.2 b hbefore a (mem_cons_self ..)
    have hswap : compare (key b) (key a) = (compare (key a) (key b)).swap := eq_swap
    rw [hswap, hlt] at hle
    cases hle
  · rcases mem_cons.mp hrest with heq | hafter
    · have hself : compare (key a) (key a) = .eq := ReflCmp.compare_self
      rw [heq, hself] at hlt
      cases hlt
    · exact hafter

variable [LawfulEqOrd K]

theorem lt_of_sortOn_eq {l before after : List α} {a b : α} (hdistinct : (l.map key).Nodup)
    (h : sortOn key l = before ++ a :: after) (hb : b ∈ after) : compare (key a) (key b) = .lt := by
  have hpairwise := sortOn_pairwise key l
  rw [h, pairwise_append] at hpairwise
  have hle : (compare (key a) (key b)).isLE = true := (pairwise_cons.mp hpairwise.2.1).1 b hb
  have hnodup : ((before ++ a :: after).map key).Nodup := by
    rw [← h]
    exact ((sortOn_perm key l).map key).nodup_iff.mpr hdistinct
  rw [map_append, nodup_append, map_cons] at hnodup
  have hne : key a ≠ key b := by
    intro heq
    rw [heq] at hnodup
    exact (nodup_cons.mp hnodup.2.1).1 (mem_map_of_mem hb)
  cases hcmp : compare (key a) (key b) with
  | lt => rfl
  | eq => exact absurd (LawfulEqCmp.eq_of_compare hcmp) hne
  | gt => simp [hcmp] at hle

theorem sortOn_eq_of_perm {l l' : List α} (hdistinct : (l.map key).Nodup) (h : l'.Perm l) :
    sortOn key l' = sortOn key l := by
  have hperm : (sortOn key l').Perm (sortOn key l) :=
    ((sortOn_perm key l').trans h).trans (sortOn_perm key l).symm
  refine List.Perm.eq_of_pairwise ?_ (sortOn_pairwise key l') (sortOn_pairwise key l) hperm
  intro a b ha hb hab hba
  have hkey : key a = key b := by
    have hswap : compare (key b) (key a) = (compare (key a) (key b)).swap := eq_swap
    unfold le at hab hba
    rw [hswap] at hba
    cases hcmp : compare (key a) (key b) with
    | lt => simp [hcmp] at hba
    | eq => exact LawfulEqCmp.eq_of_compare hcmp
    | gt => simp [hcmp] at hab
  have ha' : a ∈ l := h.mem_iff.mp ((mem_sortOn key).mp ha)
  have hb' : b ∈ l := (mem_sortOn key).mp hb
  exact inj_on_of_nodup_map hdistinct ha' hb' hkey

end SortOn
