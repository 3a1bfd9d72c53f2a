import Mathlib.Data.List.Basic

/-!
# Slices of a filtered listing

A listing is read up to a number of elements that match; the rest of the reading starts at a
boundary element.  The lemmas place such an element in the listing by the number of matching
elements before it.
-/

namespace Slices

open List

variable {α : Type} (m : α → Bool)

/-- The listing after its first `n` matching elements. -/
def afterMatches : Nat → List α → List α
  | 0, l => l
  | _ + 1, [] => []
  | n + 1, a :: l => if m a then afterMatches n l else afterMatches (n + 1) l

/-- Where a reading of `n` matching elements stops: at the next element, or, when the rest is
read for counting, at the next matching element, and at the last element if none matches. -/
def boundary (counting : Bool) (n : Nat) (l : List α) : Option α :=
  let rest := afterMatches m n l
  if counting then rest.find? m <|> rest.getLast? else rest.head?

theorem boundary_cons (counting : Bool) (n : Nat) (a : α) (l : List α) :
    boundary m counting (n + 1) (a :: l) = boundary m counting (if m a then n else n + 1) l := by
  cases hm : m a <;> simp [boundary, afterMatches, hm]

theorem afterMatches_split (n : Nat) (l : List α) (h : afterMatches m n l ≠ []) :
    ∃ front, l = front ++ afterMatches m n l ∧ (front.filter m).length = n := by
  induction l generalizing n with
  | nil => cases n <;> exact absurd rfl h
  | cons a l ih =>
    cases n with
    | zero => exact ⟨[], rfl, rfl⟩
    | succ n => grind [afterMatches]

variable {counting : Bool} {n : Nat} {l : List α} {b : α}

/-- In the rest of the listing nothing before the boundary matches. -/
theorem boundary_split (h : boundary m counting n l = some b) :
    ∃ before after, l = before ++ b :: after ∧ (before.filter m).length = n := by
  have hrest : ∃ mid after, afterMatches m n l = mid ++ b :: after ∧ mid.filter m = [] := by
    cases counting with
    | false =>
      simp only [boundary, Bool.false_eq_true, if_false] at h
      obtain ⟨after, hafter⟩ := head?_eq_some_iff.mp h
      exact ⟨[], after, hafter, rfl⟩
    | true =>
      simp only [boundary, if_true] at h
      cases hf : (afterMatches m n l).find? m with
      | some c =>
        rw [hf] at h
        obtain rfl : c = b := Option.some.inj h
        obtain ⟨-, mid, after, hmid, hnone⟩ := find?_eq_some_iff_append.mp hf
        refine ⟨mid, after, hmid, filter_eq_nil_iff.mpr ?_⟩
        intro x hx
        simpa using hnone x hx
      | none =>
        rw [hf] at h
        obtain ⟨mid, hmid⟩ := getLast?_eq_some_iff.mp h
        refine ⟨mid, [], hmid, filter_eq_nil_iff.mpr ?_⟩
        intro x hx
        exact find?_eq_none.mp hf x (by rw [hmid]; simp [hx])
  obtain ⟨mid, after, hmid, hnone⟩ := hrest
  obtain ⟨front, hl, hlen⟩ := afterMatches_split m n l (by rw [hmid]; simp)
  refine ⟨front ++ mid, after, ?_, ?_⟩
  · rw [append_assoc, ← hmid]
    exact hl
  · rw [filter_append, hnone, append_nil]
    exact hlen

/-- There is no boundary when at most `n` elements match and the listing ends with them. -/
theorem boundary_eq_none (h : boundary m counting n l = none) : (l.filter m).length ≤ n := by
  have hrest : afterMatches m n l = [] := by
    cases counting with
    | false => simpa [boundary] using h
    | true =>
      simp only [boundary, if_true] at h
      cases hf : (afterMatches m n l).find? m with
      | some =>
        rw [hf] at h
        cases h
      | none =>
        rw [hf] at h
        exact getLast?_eq_none_iff.mp h
  clear h
  induction l generalizing n with
  | nil => simp
  | cons a l ih =>
    cases n with
    | zero => simp [afterMatches] at hrest
    | succ n =>
      by_cases ha : m a = true
      · have := ih (by simpa [afterMatches, ha] using hrest)
        simp [ha, this]
      · have := ih (by simpa [afterMatches, ha] using hrest)
        simp [ha, this]

theorem getElem?_filter_split {j : Nat} (h : (l.filter m)[j]? = some b) :
    ∃ before after, l = before ++ b :: after ∧ (before.filter m).length = j := by
  induction l generalizing j with
  | nil => simp at h
  | cons a l ih =>
    by_cases ha : m a = true
    · rw [filter_cons_of_pos ha] at h
      cases j with
      | zero =>
        obtain rfl : a = b := by simpa using h
        exact ⟨[], l, rfl, rfl⟩
      | succ =>
        obtain ⟨before, after, hl, hlen⟩ := ih (by simpa using h)
        exact ⟨a :: before, after, by rw [cons_append, ← hl], by simp [ha, hlen]⟩
    · rw [filter_cons_of_neg ha] at h
      obtain ⟨before, after, hl, hlen⟩ := ih h
      exact ⟨a :: before, after, by rw [cons_append, ← hl], by simp [ha, hlen]⟩

end Slices
