import Mathlib.Data.List.Basic

/-!
# Ranks in a sorted list

The rank of an element is the number of elements before it.  In a list that is sorted by a
strict order this is the number of elements the order puts before it, so the first elements
of the list are those of small rank.
-/

namespace Ranking

open List

variable {A : Type} {R : A → A → Prop} [DecidableRel R]

theorem mem_take_iff (hasymm : ∀ a b, R a b → ¬ R b a) {l : List A} (hl : l.Pairwise R) {a : A}
    (ha : a ∈ l) (n : Nat) : a ∈ l.take n ↔ l.countP (fun b => decide (R b a)) < n := by
  induction l generalizing n with
  | nil => simp at ha
  | cons b l ih =>
    obtain ⟨hb, hl⟩ := pairwise_cons.mp hl
    by_cases heq : a = b
    · subst heq
      have hzero : (a :: l).countP (fun b => decide (R b a)) = 0 := by
        rw [countP_eq_zero]
        intro c hc hca
        have hca : R c a := of_decide_eq_true hca
        rcases mem_cons.mp hc with rfl | hc
        · exact hasymm c c hca hca
        · exact hasymm c a hca (hb c hc)
      cases n with
      | zero => simp
      | succ => simp [hzero]
    · have ha : a ∈ l := (mem_cons.mp ha).resolve_left heq
      have hcount : (b :: l).countP (fun b => decide (R b a)) =
          l.countP (fun b => decide (R b a)) + 1 := by
        rw [countP_cons, if_pos (decide_eq_true (hb a ha))]
      cases n with
      | zero => simp
      | succ n =>
        rw [take_succ_cons, mem_cons, hcount, ih hl ha n]
        constructor
        · rintro (h | h)
          · exact absurd h heq
          · omega
        · intro h
          exact .inr (by omega)

end Ranking
