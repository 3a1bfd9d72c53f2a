import Mathlib.Data.List.Basic
import Mathlib.Algebra.Order.Ring.Int

/-!
# Fallible computations

Inversion of a computation in `Except` that ended well: every step before the
result ended well; and of one that failed: the first step that failed.
-/

namespace Fallible

open List Except

variable {ε α β : Type}
  {x : Except ε α} {f : α → Except ε β} {b : β} {e : ε} {c : Prop} {l : List α} {bs : List β}

theorem bind_eq_ok : (x >>= f) = .ok b ↔ ∃ a, x = .ok a ∧ f a = .ok b := by
  cases x with
  | error e | ok a => simp [bind, Except.bind]

theorem bind_eq_error : (x >>= f) = .error e ↔ x = .error e ∨ ∃ a, x = .ok a ∧ f a = .error e := by
  cases x with
  | error e | ok a => simp [bind, Except.bind]

theorem refuse_eq_ok [Decidable c] {x : Except ε β} :
    (if c then .error e else x) = .ok b ↔ ¬ c ∧ x = .ok b := by
  by_cases h : c
  · simp [h]
  · simp [h]

/-- The rules for a sequence with refusals, as one rewrite rule. -/
theorem passes :
    (∀ {ε α β : Type} {x : Except ε α} {f : α → Except ε β} {b : β},
      (x >>= f) = .ok b ↔ ∃ a, x = .ok a ∧ f a = .ok b) ∧
    ∀ {ε β : Type} {b : β} {e : ε} {c : Prop} [Decidable c] {x : Except ε β},
      (if c then .error e else x) = .ok b ↔ ¬ c ∧ x = .ok b :=
  ⟨bind_eq_ok, refuse_eq_ok⟩

theorem require_eq_ok [Decidable c] {x : Except ε β} :
    (if c then x else .error e) = .ok b ↔ c ∧ x = .ok b := by
  by_cases h : c
  · simp [h]
  · simp [h]

@[simp] theorem ok_bind (a : α) (f : α → Except ε β) : (ok a >>= f) = f a := rfl

@[simp] theorem error_bind (e : ε) (f : α → Except ε β) : (error e >>= f) = .error e := rfl

theorem foldlM_invariant {f : β → α → Except ε β} {I : β → Prop}
    (hstep : ∀ a ∈ l, ∀ b b', I b → f b a = .ok b' → I b') {b' : β} (hb : I b)
    (h : l.foldlM f b = .ok b') : I b' := by
  induction l generalizing b with
  | nil =>
    cases h
    exact hb
  | cons a l ih =>
    rw [foldlM_cons, bind_eq_ok] at h
    obtain ⟨b1, hfirst, h⟩ := h
    have hb1 := hstep a mem_cons_self b b1 hb hfirst
    exact ih (fun a' ha' => hstep a' (mem_cons_of_mem a ha')) hb1 h

theorem mapM_eq_ok : l.mapM f = .ok bs ↔ l.map f = bs.map .ok := by
  induction l generalizing bs with
  | nil => cases bs <;> simp [pure, Except.pure]
  | cons a l ih =>
    simp only [mapM_cons, bind_eq_ok, ih, pure, Except.pure]
    cases bs with
    | nil | cons => simp

theorem mem_mapM_iff (h : l.mapM f = .ok bs) : b ∈ bs ↔ ∃ a ∈ l, f a = .ok b := by
  rw [← mem_map, mapM_eq_ok.mp h]
  simp

theorem mapM_of_forall (h : ∀ a ∈ l, ∃ b, f a = .ok b) : ∃ bs, l.mapM f = .ok bs := by
  induction l with
  | nil => exact ⟨[], rfl⟩
  | cons a l ih =>
    obtain ⟨⟨b, hb⟩, hl⟩ := forall_mem_cons.mp h
    obtain ⟨bs, hbs⟩ := ih hl
    exact ⟨b :: bs, by rw [mapM_cons, hb, ok_bind, hbs]; rfl⟩

theorem pairwise_of_mapM {R : β → β → Prop} (h : l.mapM f = .ok bs)
    (hl : l.Pairwise (fun a a' => ∀ b b', f a = .ok b → f a' = .ok b' → R b b')) :
    bs.Pairwise R := by
  have hmap := (pairwise_map (f := f) (R := fun x y => ∀ b b', x = .ok b → y = .ok b' → R b b')).mpr hl
  rw [mapM_eq_ok.mp h, pairwise_map] at hmap
  exact hmap.imp fun h => h _ _ rfl rfl

end Fallible
