import Mathlib.Data.List.Basic

/-!
# Machines and their runs

A machine answers each request with an output and a new state.  Running a list
of requests collects the outputs.  Two machines related by a simulation give the
same outputs on every list of requests, and an invariant of the step is an
invariant of every run.
-/

namespace Machine

variable {A S T O : Type}

def run (step : A → S → O × S) : List A → S → List O × S
  | [], s => ([], s)
  | a :: as, s =>
    let (o, s') := step a s
    let (os, s'') := run step as s'
    (o :: os, s'')

/-- A relation between the states of two machines that every request keeps, with
equal outputs. -/
def Simulates (step₁ : A → S → O × S) (step₂ : A → T → O × T) (R : S → T → Prop) : Prop :=
  ∀ a s t, R s t → (step₁ a s).1 = (step₂ a t).1 ∧ R (step₁ a s).2 (step₂ a t).2

variable {s : S} {step : A → S → O × S} {P : A → S → Prop} {as : List A}

theorem Simulates.run {step1 : A → S → O × S} {step2 : A → T → O × T} {R : S → T → Prop}
    (h : Simulates step1 step2 R) (as : List A) {t : T} (hst : R s t) :
    (Machine.run step1 as s).1 = (Machine.run step2 as t).1 ∧
      R (Machine.run step1 as s).2 (Machine.run step2 as t).2 := by
  induction as generalizing s t with
  | nil => exact ⟨rfl, hst⟩
  | cons a as ih =>
    obtain ⟨hout, hrel⟩ := h a s t hst
    obtain ⟨houts, hrels⟩ := ih hrel
    simp only [Machine.run]
    exact ⟨by rw [hout, houts], hrels⟩

theorem run_append (step : A → S → O × S) (as bs : List A) (s : S) :
    (run step (as ++ bs) s).2 = (run step bs (run step as s).2).2 := by
  induction as generalizing s with
  | nil => rfl
  | cons a as ih => exact ih (step a s).2

/-- Every request meets a condition in the state it is served in. -/
def Along (step : A → S → O × S) (P : A → S → Prop) : List A → S → Prop
  | [], _ => True
  | a :: as, s => P a s ∧ Along step P as (step a s).2

instance Along.decidable (step : A → S → O × S) (P : A → S → Prop) [∀ a s, Decidable (P a s)] :
    ∀ (as : List A) (s : S), Decidable (Along step P as s)
  | [], _ => .isTrue trivial
  | a :: as, s =>
    have := Along.decidable step P as (step a s).2
    inferInstanceAs (Decidable (P a s ∧ Along step P as (step a s).2))

theorem Along.mono {Q : A → S → Prop} (h : ∀ a s, P a s → Q a s) (hP : Along step P as s) :
    Along step Q as s := by
  induction as generalizing s with
  | nil => trivial
  | cons a as ih => exact ⟨h a s hP.1, ih hP.2⟩

theorem along_append {bs : List A} :
    Along step P (as ++ bs) s ↔ Along step P as s ∧ Along step P bs (run step as s).2 := by
  induction as generalizing s with
  | nil => simp [Along, run]
  | cons a as ih => simp [Along, ih, and_assoc, run]

theorem along_of_forall (h : ∀ a s, P a s) (as : List A) (s : S) : Along step P as s := by
  induction as generalizing s with
  | nil => trivial
  | cons a as ih => exact ⟨h a s, ih _⟩

theorem Along.related {R : S → S → Prop} (hrefl : ∀ s, R s s)
    (htrans : ∀ s t u, R s t → R t u → R s u) (hstep : ∀ a s, P a s → R s (step a s).2)
    (h : Along step P as s) : R s (run step as s).2 := by
  induction as generalizing s with
  | nil => exact hrefl s
  | cons a as ih => exact htrans _ _ _ (hstep a s h.1) (ih h.2)

theorem Along.invariant {I : S → Prop} (hstep : ∀ a s, P a s → I s → I (step a s).2)
    (h : Along step P as s) (hs : I s) : I (run step as s).2 :=
  h.related (R := fun s t => I s → I t) (fun _ hI => hI) (fun _ _ _ hst htu hI => htu (hst hI))
    hstep hs

end Machine
