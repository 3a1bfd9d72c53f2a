import CosmosSDK.Lib.OrderedMap

/-!
# Finite step iterators

An iterator is a state with a current entry and a step.  A size that every step
from a current entry decreases makes reading it to the end a total function, so
the listing an iterator stands for can be named and compared.
-/

namespace OrderedKV

open Std

/-- A step iterator over states `ι`: the current entry, if any, and the step. -/
structure Iterator (ι K V : Type) where
  entry : ι → Option (K × V)
  next : ι → ι
  size : ι → Nat
  next_size : ∀ i e, entry i = some e → size (next i) < size i

namespace Iterator

variable {ι K V : Type}

/-- Everything the iterator still yields. -/
def toList (it : Iterator ι K V) (i : ι) : List (K × V) :=
  match _h : it.entry i with
  | none => []
  | some e => e :: it.toList (it.next i)
termination_by it.size i
decreasing_by exact it.next_size i e _h

variable (it : Iterator ι K V) {i : ι}

theorem toList_of_none (h : it.entry i = none) : it.toList i = [] := by
  rw [toList]
  split <;> simp_all

variable {e : K × V}

theorem toList_of_some (h : it.entry i = some e) :
    it.toList i = e :: it.toList (it.next i) := by
  rw [toList]
  split <;> simp_all

theorem entry_eq_head? (it : Iterator ι K V) (i : ι) : it.entry i = (it.toList i).head? := by
  cases h : it.entry i with
  | none => simp [it.toList_of_none h]
  | some => simp [it.toList_of_some h]

/-- The listing is any `spec` that agrees with the current entry and loses its
head with every step, on an invariant the steps keep. -/
theorem toList_eq (inv : ι → Prop) (spec : ι → List (K × V))
    (hentry : ∀ i, inv i → it.entry i = (spec i).head?)
    (hnext : ∀ i e, inv i → it.entry i = some e →
      inv (it.next i) ∧ spec (it.next i) = (spec i).tail)
    (i : ι) (hi : inv i) : it.toList i = spec i := by
  generalize hl : spec i = l
  induction l generalizing i with
  | nil => exact it.toList_of_none (by rw [hentry i hi, hl]; rfl)
  | cons e l ih =>
    have he : it.entry i = some e := by rw [hentry i hi, hl]; rfl
    obtain ⟨hinv, htail⟩ := hnext i e hi he
    rw [it.toList_of_some he, ih (it.next i) hinv (by rw [htail, hl]; rfl)]

/-- Step over the entries that satisfy `p`. -/
def skipWhile (it : Iterator ι K V) (p : K × V → Bool) (i : ι) : ι :=
  match _h : it.entry i with
  | none => i
  | some e => if p e then it.skipWhile p (it.next i) else i
termination_by it.size i
decreasing_by exact it.next_size i e _h

theorem skipWhile_of_some (p : K × V → Bool) (h : it.entry i = some e) :
    it.skipWhile p i = if p e then it.skipWhile p (it.next i) else i := by
  rw [skipWhile]
  split <;> simp_all

theorem toList_skipWhile (p : K × V → Bool) (i : ι) :
    it.toList (it.skipWhile p i) = (it.toList i).dropWhile p := by
  fun_induction skipWhile it p i with
  | case1 i h => simp [it.toList_of_none h]
  | case2 i e h hp ih => rw [ih, it.toList_of_some h, List.dropWhile_cons_of_pos hp]
  | case3 i e h hp => simp [it.toList_of_some h, hp]

theorem size_skipWhile_le (p : K × V → Bool) (i : ι) : it.size (it.skipWhile p i) ≤ it.size i := by
  fun_induction skipWhile it p i with
  | case1 i h => exact Nat.le_refl _
  | case2 i e h hp ih => exact Nat.le_of_lt (Nat.lt_of_le_of_lt ih (it.next_size i e h))
  | case3 i e h hp => exact Nat.le_refl _

theorem size_skipWhile_lt (p : K × V → Bool)
    (h : it.entry i = some e) (hp : p e = true) : it.size (it.skipWhile p i) < it.size i := by
  rw [it.skipWhile_of_some p h, if_pos hp]
  exact Nat.lt_of_le_of_lt (it.size_skipWhile_le p _) (it.next_size i e h)

end Iterator

def listIterator (K V : Type) : Iterator (List (K × V)) K V where
  entry := List.head?
  next := List.tail
  size := List.length
  next_size := by
    intro l e h
    cases l with
    | nil => simp at h
    | cons => simp

@[simp] theorem listIterator_toList {K V : Type} (l : List (K × V)) :
    (listIterator K V).toList l = l := by
  induction l with
  | nil => exact (listIterator K V).toList_of_none rfl
  | cons e l ih =>
    rw [(listIterator K V).toList_of_some rfl]
    exact congrArg (e :: ·) ih

end OrderedKV
