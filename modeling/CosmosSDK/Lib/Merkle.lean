import Mathlib.Algebra.Order.Ring.Nat
import Mathlib.Data.List.Basic

/-!
# Merkle trees

The tree over a list is built level by level: neighbours are combined, a last
element without a neighbour is promoted, until one element is left.  Splitting the
list behind the largest power of two below its length gives the two subtrees of the
root, so the level-by-level construction and the recursive one agree.
-/

namespace Merkle

open List Nat

variable {α : Type} (f : α → α → α)

def pairUp : List α → List α
  | a :: b :: l => f a b :: pairUp l
  | [a] => [a]
  | [] => []

/-- The element at which the levels above a list end. -/
inductive Root : List α → α → Prop
  | leaf (a : α) : Root [a] a
  | level {l : List α} {r : α} (hl : 1 < l.length) (h : Root (pairUp f l) r) : Root l r

variable {f}

/-! ## Levels -/

theorem length_pairUp (l : List α) : (pairUp f l).length = (l.length + 1) / 2 := by
  induction l using pairUp.induct with
  | case1 a b l ih =>
    rw [pairUp, length_cons, ih, length_cons, length_cons]
    omega
  | case2 a | case3 => simp [pairUp]

theorem pairUp_append {a : List α} (ha : a.length % 2 = 0) (b : List α) :
    pairUp f (a ++ b) = pairUp f a ++ pairUp f b := by
  induction a using pairUp.induct with
  | case1 x y a ih =>
    have heven : a.length % 2 = 0 := by
      rw [length_cons, length_cons] at ha
      omega
    simp [pairUp, ih heven]
  | case2 => simp at ha
  | case3 => rfl

variable {a r : α} {l : List α} {i : Nat}

theorem getElem?_pairUp (i : Nat) :
    (pairUp f l)[i]? = l[2 * i]?.map fun a => l[2 * i + 1]?.elim a (f a) := by
  induction l using pairUp.induct generalizing i with
  | case1 x y l ih =>
    cases i with
    | zero => simp [pairUp]
    | succ i => simp [pairUp, ih, mul_add]
  | case2 => cases i <;> simp [pairUp, mul_add]
  | case3 => simp [pairUp]

/-- The parent of two neighbours. -/
theorem getElem?_pairUp_of_pair {b : α} (ha : l[2 * i]? = some a) (hb : l[2 * i + 1]? = some b) :
    (pairUp f l)[i]? = some (f a b) := by
  simp [getElem?_pairUp, ha, hb]

/-- The last element of an odd level is promoted. -/
theorem getElem?_pairUp_of_last (ha : l[2 * i]? = some a) (hb : l.length = 2 * i + 1) :
    (pairUp f l)[i]? = some a := by
  simp [getElem?_pairUp, ha, ← hb]

theorem forall_mem_pairUp {P : α → Prop} (hf : ∀ a b, P a → P b → P (f a b)) (h : ∀ a ∈ l, P a) :
    ∀ a ∈ pairUp f l, P a := by
  induction l using pairUp.induct with
  | case1 x y l ih =>
    rw [pairUp, forall_mem_cons]
    rw [forall_mem_cons, forall_mem_cons] at h
    exact ⟨hf x y h.1 h.2.1, ih h.2.2⟩
  | case2 x | case3 => exact h

/-! ## Roots -/

theorem Root.eq_of_singleton (h : Root f [a] r) : r = a := by
  cases h with
  | leaf => rfl
  | level hl => simp at hl

theorem Root.unique {r' : α} (h : Root f l r) (h' : Root f l r') : r = r' := by
  induction h with
  | leaf => exact h'.eq_of_singleton.symm
  | level hl _ ih =>
    cases h' with
    | leaf => simp at hl
    | level _ h' => exact ih h'

theorem Root.pairUp (h : Root f l r) : Root f (pairUp f l) r := by
  cases h with
  | leaf => exact Root.leaf r
  | level _ h => exact h

/-- The root of a full tree with another tree of at most its height to the right. -/
theorem Root.append {k : Nat} {a b : List α} {ra rb : α} (hra : Root f a ra) (hrb : Root f b rb)
    (ha : a.length = 2 ^ k) (hpos : 0 < b.length) (hb : b.length ≤ 2 ^ k) :
    Root f (a ++ b) (f ra rb) := by
  induction k generalizing a b with
  | zero =>
    obtain ⟨x, rfl⟩ := length_eq_one_iff.mp ha
    obtain ⟨y, rfl⟩ := length_eq_one_iff.mp (le_antisymm hb hpos)
    rw [hra.eq_of_singleton, hrb.eq_of_singleton]
    exact Root.level (by simp) (Root.leaf (f x y))
  | succ k ih =>
    apply Root.level
    · rw [length_append]
      omega
    · rw [pairUp_append (by omega)]
      apply ih hra.pairUp hrb.pairUp
      · rw [length_pairUp]
        omega
      · rw [length_pairUp]
        omega
      · rw [length_pairUp]
        omega

end Merkle
