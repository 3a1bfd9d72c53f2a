import CosmosSDK.Store.MemIterator
import Mathlib.Data.List.TakeWhile

/-!
# Ranges of a prefix

`PrefixEndBytes` of `store/types` (and `nextBytesPrefixKey` of `collections`, which is the
same function): the first key after all keys that start with the given bytes, or nil when
there is none.
-/

namespace CosmosSDK.Store

open OrderedKV List

/-- Trailing `0xff` bytes are cut off and the last byte that is left is increased. -/
def prefixEndBytes (p : Bytes) : Option Bytes :=
  match p.reverse.dropWhile (fun b => b = 255) with
  | [] => none
  | b :: rest => some ((b + 1) :: rest).reverse

theorem prefixEndBytes_cons (b : UInt8) (p : Bytes) :
    prefixEndBytes (b :: p) =
      match prefixEndBytes p with
      | some e => some (b :: e)
      | none => if b = 255 then none else some [b + 1] := by
  unfold prefixEndBytes
  rw [reverse_cons, dropWhile_append]
  cases h : p.reverse.dropWhile (fun b => b = 255) with
  | nil =>
    by_cases hb : b = 255
    · simp [hb]
    · simp [hb]
  | cons => simp

theorem prefixEndBytes_isSome {p : Bytes} (h : ∃ b ∈ p, b ≠ 255) :
    ∃ e, prefixEndBytes p = some e := by
  obtain ⟨b, hb, hne⟩ := h
  unfold prefixEndBytes
  cases hd : p.reverse.dropWhile (fun b => b = 255) with
  | nil =>
    have hall := dropWhile_eq_nil_iff.mp hd b (mem_reverse.mpr hb)
    exact absurd (of_decide_eq_true hall) hne
  | cons => exact ⟨_, rfl⟩

theorem compare_cons_eq_lt {c b : UInt8} {k p : Bytes} :
    compare (c :: k) (b :: p) = .lt ↔ c < b ∨ (c = b ∧ compare k p = .lt) := by
  rw [List.compare_cons_cons, Ordering.then_eq_lt, Std.compare_eq_lt, Std.compare_eq_iff_eq]

theorem beforeStop_prefixEndBytes (p k : Bytes) :
    beforeStop (prefixEndBytes p) k = true ↔ compare k p = .lt ∨ p <+: k := by
  induction p generalizing k with
  | nil => simp [prefixEndBytes, beforeStop]
  | cons b p ih =>
    cases k with
    | nil =>
      have hlt : compare ([] : Bytes) (b :: p) = .lt := List.compare_nil_cons
      rw [prefixEndBytes_cons]
      cases prefixEndBytes p with
      | some => simp [beforeStop]
      | none =>
        by_cases hb : b = 255
        · simp [hb, beforeStop]
        · simp [hb, beforeStop]
    | cons c k =>
      have hk := ih k
      rw [prefixEndBytes_cons, compare_cons_eq_lt, List.cons_prefix_cons]
      cases hp : prefixEndBytes p with
      | some =>
        rw [hp] at hk
        simp only [beforeStop, Ordering.isLT_iff_eq_lt] at hk ⊢
        rw [compare_cons_eq_lt, hk]
        tauto
      | none =>
        rw [hp] at hk
        have hle : (c < b ∨ c = b ∧ compare k p = .lt) ∨ b = c ∧ p <+: k ↔ c ≤ b := by
          rw [UInt8.le_iff_lt_or_eq]
          tauto
        rw [hle]
        by_cases hb : b = 255
        · simp only [hb, if_true, beforeStop, true_iff]
          exact UInt8.le_iff_toNat_le.mpr (by have := c.toNat_lt; simp; omega)
        · rw [if_neg hb]
          simp only [beforeStop, Ordering.isLT_iff_eq_lt, compare_cons_eq_lt]
          have hlt : b.toNat < 255 := by
            have := b.toNat_lt
            rcases Nat.lt_or_ge b.toNat 255 with h | h
            · exact h
            · exact absurd (UInt8.toNat_inj.mp (by simp; omega)) hb
          have hsucc : (b + 1).toNat = b.toNat + 1 := by
            simp
            omega
          rw [UInt8.lt_iff_toNat_lt, UInt8.le_iff_toNat_le, hsucc]
          constructor
          · rintro (h | ⟨-, h⟩)
            · omega
            · cases k <;> simp at h
          · intro h
            exact .inl (by omega)

theorem startsWith_iff {p k : Bytes} : p.isPrefixOf k = true ↔ p <+: k :=
  isPrefixOf_iff_prefix

theorem isLE_of_extends {p k : Bytes} (h : p <+: k) : (compare p k).isLE = true := by
  induction p generalizing k with
  | nil => cases k <;> simp
  | cons b p ih =>
    cases k with
    | nil => simp at h
    | cons =>
      obtain ⟨rfl, hpk⟩ := List.cons_prefix_cons.mp h
      have hself : compare b b = .eq := Std.ReflCmp.compare_self
      rw [List.compare_cons_cons, hself]
      exact ih hpk

theorem inRange_prefixEndBytes (p k : Bytes) :
    inRange (some p) (prefixEndBytes p) k = true ↔ p <+: k := by
  rw [inRange, Bool.and_eq_true, beforeStop_prefixEndBytes]
  constructor
  · rintro ⟨hle, hlt | hpre⟩
    · have hswap : compare p k = (compare k p).swap := Std.OrientedCmp.eq_swap
      rw [fromStart, hswap, hlt] at hle
      cases hle
    · exact hpre
  · intro hpre
    exact ⟨isLE_of_extends hpre, .inr hpre⟩

theorem compare_append_left (a b c : Bytes) : compare (a ++ b) (a ++ c) = compare b c := by
  induction a with
  | nil => rfl
  | cons x a ih =>
    have hself : compare x x = .eq := Std.ReflCmp.compare_self
    rw [List.cons_append, List.cons_append, List.compare_cons_cons, hself]
    exact ih

end CosmosSDK.Store
