import Mathlib.Data.List.Basic

/-!
# Self-delimiting encodings

An encoding delimits itself if the end of an encoded value can be told from the value:
two values that start the same input are the same, and so is what follows them.  Values
written one behind the other can then be told apart.
-/

namespace PrefixFree

open List

variable {α β : Type}

/-- The values with `p` delimit themselves. -/
def On (p : α → Prop) (enc : α → List β) : Prop :=
  ∀ ⦃a b : α⦄, p a → p b → ∀ ⦃x y : List β⦄, enc a ++ x = enc b ++ y → a = b ∧ x = y

variable {p : α → Prop} {enc : α → List β}

/-- Words behind their length. -/
theorem On.delimited (h : On p enc) {a b : α} (ha : p a) (hb : p b) {w w' x y : List β}
    (hlength : a = b → w.length = w'.length) (heq : enc a ++ (w ++ x) = enc b ++ (w' ++ y)) :
    w = w' ∧ x = y := by
  obtain ⟨hab, hrest⟩ := h ha hb heq
  exact append_inj hrest (hlength hab)

/-- As many values, one behind the other. -/
theorem On.flatMap (h : On p enc) {l l' : List α} (hl : ∀ a ∈ l, p a) (hl' : ∀ a ∈ l', p a)
    (hlength : l.length = l'.length) {x y : List β} (heq : l.flatMap enc ++ x = l'.flatMap enc ++ y) :
    l = l' ∧ x = y := by
  induction l generalizing l' with
  | nil =>
    obtain rfl := eq_nil_of_length_eq_zero hlength.symm
    exact ⟨rfl, heq⟩
  | cons a l ih =>
    cases l' with
    | nil => simp at hlength
    | cons b =>
      rw [flatMap_cons, flatMap_cons, append_assoc, append_assoc] at heq
      obtain ⟨rfl, hrest⟩ := h (hl a mem_cons_self) (hl' b mem_cons_self) heq
      obtain ⟨rfl, rfl⟩ := ih (forall_mem_cons.mp hl).2
        (forall_mem_cons.mp hl').2 (by simpa using hlength) hrest
      exact ⟨rfl, rfl⟩

end PrefixFree
