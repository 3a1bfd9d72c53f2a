import Mathlib.Data.List.Basic

/-!
# Stateful computations that can fail

Computations in `EStateM` read and write a state and may stop with an error; what
was written before the error stays written.  The lemmas invert a computation that
ended well: each of its steps ended well, from the state the previous one left.
-/

namespace Stateful

variable {ε σ α β : Type}

def load (f : σ → α) : EStateM ε σ α := fun s => .ok (f s) s

def update (f : σ → σ) : EStateM ε σ Unit := fun s => .ok () (f s)

def transition (f : σ → Except ε σ) : EStateM ε σ Unit := fun s =>
  match f s with
  | .ok s' => .ok () s'
  | .error e => .error e s

def fail (e : ε) : EStateM ε σ α := fun s => .error e s

def reject (c : Prop) [Decidable c] (e : ε) : EStateM ε σ Unit :=
  if c then fail e else pure ()

def lift (x : Except ε α) : EStateM ε σ α := fun s =>
  match x with
  | .ok a => .ok a s
  | .error e => .error e s

def perform (x : EStateM ε σ α) : EStateM ε σ Unit := do
  let _ ← x
  pure ()

def find (f : σ → Option α) (e : ε) : EStateM ε σ α := fun s =>
  match f s with
  | some a => .ok a s
  | none => .error e s

/-- Run a computation for its effect and go on after an error that is let through, with what
was written before it. -/
def recover (through : ε → Bool) (x : EStateM ε σ α) : EStateM ε σ Unit := fun s =>
  match x s with
  | .ok _ s' => .ok () s'
  | .error e s' => if through e then .ok () s' else .error e s'

/-! ## Inversion -/

variable {x : EStateM ε σ α} {f : α → EStateM ε σ β} {s s' : σ} {b : β} {a : α} {u : Unit}
  {e e' : ε} {c : Prop} {l : List α} {I : List α → σ → Prop}

@[simp] theorem bind_ok : (x >>= f) s = .ok b s' ↔ ∃ a s1, x s = .ok a s1 ∧ f a s1 = .ok b s' := by
  simp only [bind, EStateM.bind]
  cases x s with
  | ok a s1 | error e s1 => simp

@[simp] theorem pure_ok {b : α} : (pure a : EStateM ε σ α) s = .ok b s' ↔ a = b ∧ s = s' := by
  simp [pure, EStateM.pure]

@[simp] theorem load_ok {f : σ → α} : (load f : EStateM ε σ α) s = .ok a s' ↔ f s = a ∧ s = s' := by
  simp [load]

@[simp] theorem update_ok {f : σ → σ} : (update f : EStateM ε σ Unit) s = .ok u s' ↔ f s = s' := by
  simp [update]

@[simp] theorem transition_ok {f : σ → Except ε σ} :
    (transition f : EStateM ε σ Unit) s = .ok u s' ↔ f s = .ok s' := by
  unfold transition
  cases f s <;> simp

@[simp] theorem fail_ok : (fail e : EStateM ε σ α) s = .ok a s' ↔ False := by
  simp [fail]

@[simp] theorem reject_ok [Decidable c] :
    (reject c e : EStateM ε σ Unit) s = .ok u s' ↔ ¬c ∧ s = s' := by
  unfold reject
  split <;> simp [*]

@[simp] theorem lift_ok {x : Except ε α} :
    (lift x : EStateM ε σ α) s = .ok a s' ↔ x = .ok a ∧ s = s' := by
  cases x <;> simp [lift]

@[simp] theorem find_ok {f : σ → Option α} :
    (find f e : EStateM ε σ α) s = .ok a s' ↔ f s = some a ∧ s = s' := by
  unfold find
  cases f s <;> simp

theorem reads {P : α → Prop} {Q : α → σ → Prop} :
    (∃ a s1, (P a ∧ s = s1) ∧ Q a s1) ↔ ∃ a, P a ∧ Q a s := by
  simp only [and_assoc, exists_and_left, exists_eq_left']

/-- The rules for steps, as one rewrite rule. -/
theorem steps :
    (∀ {ε σ α β : Type} {x : EStateM ε σ α} {f : α → EStateM ε σ β} {s s' : σ} {b : β},
      (x >>= f) s = .ok b s' ↔ ∃ a s1, x s = .ok a s1 ∧ f a s1 = .ok b s') ∧
    (∀ {σ α : Type} {s : σ} {P : α → Prop} {Q : α → σ → Prop},
      (∃ a s1, (P a ∧ s = s1) ∧ Q a s1) ↔ ∃ a, P a ∧ Q a s) ∧
    (∀ {ε σ α : Type} {f : σ → α} {s s' : σ} {a : α},
      (load f : EStateM ε σ α) s = .ok a s' ↔ f s = a ∧ s = s') ∧
    (∀ {ε σ : Type} {c : Prop} [Decidable c] {e : ε} {s s' : σ} {u : Unit},
      (reject c e : EStateM ε σ Unit) s = .ok u s' ↔ ¬c ∧ s = s') ∧
    (∀ {ε σ α : Type} {x : Except ε α} {s s' : σ} {a : α},
      (lift x : EStateM ε σ α) s = .ok a s' ↔ x = .ok a ∧ s = s') ∧
    ∀ {ε σ α : Type} {f : σ → Option α} {e : ε} {s s' : σ} {a : α},
      (find f e : EStateM ε σ α) s = .ok a s' ↔ f s = some a ∧ s = s' :=
  ⟨bind_ok, reads, load_ok, reject_ok, lift_ok, find_ok⟩

theorem perform_ok : perform x s = .ok u s' ↔ ∃ a, x s = .ok a s' := by
  simp only [perform, bind_ok, pure_ok, true_and, exists_eq_right]

theorem recover_ok {through : ε → Bool} : recover through x s = .ok u s' ↔
      (∃ a, x s = .ok a s') ∨ ∃ e, through e = true ∧ x s = .error e s' := by
  unfold recover
  cases x s with
  | ok => simp
  | error e => by_cases he : through e = true <;> simp [he]

/-! ## Inversion of a failure -/

theorem bind_error : (x >>= f) s = .error e s' ↔
      x s = .error e s' ∨ ∃ a s1, x s = .ok a s1 ∧ f a s1 = .error e s' := by
  simp only [bind, EStateM.bind]
  cases x s with
  | ok a s1 | error e s1 => simp

theorem pure_error : (pure a : EStateM ε σ α) s = .error e s' ↔ False := by
  simp [pure, EStateM.pure]

theorem load_error {f : σ → α} : (load f : EStateM ε σ α) s = .error e s' ↔ False := by
  simp [load]

theorem update_error {f : σ → σ} : (update f : EStateM ε σ Unit) s = .error e s' ↔ False := by
  simp [update]

theorem transition_error {f : σ → Except ε σ} :
    (transition f : EStateM ε σ Unit) s = .error e s' ↔ f s = .error e ∧ s = s' := by
  unfold transition
  cases f s <;> simp

theorem reject_error [Decidable c] :
    (reject c e : EStateM ε σ Unit) s = .error e' s' ↔ c ∧ e = e' ∧ s = s' := by
  unfold reject
  split
  · simp [fail, *]
  · simp [pure, EStateM.pure, *]

theorem lift_error {x : Except ε α} :
    (lift x : EStateM ε σ α) s = .error e s' ↔ x = .error e ∧ s = s' := by
  cases x <;> simp [lift]

theorem find_error {f : σ → Option α} :
    (find f e : EStateM ε σ α) s = .error e' s' ↔ f s = none ∧ e = e' ∧ s = s' := by
  unfold find
  cases f s <;> simp

theorem perform_error : perform x s = .error e s' ↔ x s = .error e s' := by
  simp only [perform, bind_error, pure_error, and_false, exists_false, or_false]

/-! ## Loops -/

/-- A loop keeps what each of its steps keeps; the statement may speak of the
elements that are still to come. -/
theorem foldlM_induct {f : β → α → EStateM ε σ β} {I : List α → β → σ → Prop}
    (hstep : ∀ a l b s b' s', I (a :: l) b s → f b a s = .ok b' s' → I l b' s') {b' : β}
    (h : l.foldlM f b s = .ok b' s') (hI : I l b s) : I [] b' s' := by
  induction l generalizing b s with
  | nil =>
    rw [List.foldlM_nil, pure_ok] at h
    obtain ⟨rfl, rfl⟩ := h
    exact hI
  | cons a l ih =>
    rw [List.foldlM_cons, bind_ok] at h
    obtain ⟨b1, s1, h1, h⟩ := h
    exact ih h (hstep a l b s b1 s1 hI h1)

theorem forM_induct {f : α → EStateM ε σ PUnit}
    (hstep : ∀ a l s s', I (a :: l) s → f a s = .ok ⟨⟩ s' → I l s') {u : PUnit}
    (h : l.forM f s = .ok u s') (hI : I l s) : I [] s' := by
  induction l generalizing s with
  | nil =>
    obtain ⟨-, rfl⟩ := pure_ok.mp h
    exact hI
  | cons a l ih =>
    obtain ⟨⟨⟩, s1, h1, h⟩ := bind_ok.mp h
    exact ih h (hstep a l s s1 hI h1)

theorem forM_ok {f : α → EStateM ε σ PUnit}
    (hstep : ∀ a l s, I (a :: l) s → ∃ s', f a s = .ok ⟨⟩ s' ∧ I l s') (hI : I l s) :
    ∃ s', l.forM f s = .ok ⟨⟩ s' ∧ I [] s' := by
  induction l generalizing s with
  | nil => exact ⟨s, rfl, hI⟩
  | cons a l ih =>
    obtain ⟨s1, h1, hI1⟩ := hstep a l s hI
    obtain ⟨s', h, hI'⟩ := ih hI1
    exact ⟨s', bind_ok.mpr ⟨⟨⟩, s1, h1, h⟩, hI'⟩

/-! ## Results that can be computed -/

def check (p : α → σ → Bool) : EStateM.Result ε σ α → Bool
  | .ok a s => p a s
  | .error _ _ => false

theorem ok_of_check {p : α → σ → Bool} {r : EStateM.Result ε σ α} (h : check p r = true) :
    ∃ a s, r = .ok a s ∧ p a s = true := by
  cases r with
  | ok a s => exact ⟨a, s, rfl, h⟩
  | error => exact absurd h Bool.false_ne_true

/-! ## Frames -/

/-- The state a computation ends in, with an error or without. -/
def final : EStateM.Result ε σ α → σ
  | .ok _ s => s
  | .error _ s => s

/-- A computation leaves a part of the state as it was, however it ends. -/
structure Keeps {τ : Type} (f : σ → τ) (x : EStateM ε σ α) : Prop where
  final_eq : ∀ s, f (final (x s)) = f s

namespace Keeps

variable {τ : Type} {f : σ → τ} {x : EStateM ε σ α} {s s' : σ}

theorem ok (hx : Keeps f x) {a : α} (h : x s = .ok a s') : f s' = f s := by
  have hs := hx.final_eq s
  rw [h] at hs
  exact hs

theorem error (hx : Keeps f x) {e : ε} (h : x s = .error e s') : f s' = f s := by
  have hs := hx.final_eq s
  rw [h] at hs
  exact hs

theorem pure (a : α) : Keeps f (pure a : EStateM ε σ α) := ⟨fun _ => rfl⟩

theorem bind {g : α → EStateM ε σ β} (hx : Keeps f x) (hg : ∀ a, Keeps f (g a)) :
    Keeps f (x >>= g) := by
  constructor
  intro s
  show f (final (EStateM.bind x g s)) = f s
  unfold EStateM.bind
  split
  · rename_i a s1 h1
    rw [(hg a).final_eq s1, hx.ok h1]
  · rename_i e s1 h1
    exact hx.error h1

theorem update {g : σ → σ} (hg : ∀ s, f (g s) = f s) : Keeps f (update g : EStateM ε σ Unit) := ⟨hg⟩

theorem transition {g : σ → Except ε σ} (hg : ∀ s s', g s = .ok s' → f s' = f s) :
    Keeps f (transition g) := by
  constructor
  intro s
  unfold Stateful.transition
  split
  · exact hg s _ ‹_›
  · rfl

theorem load (g : σ → α) : Keeps f (load g : EStateM ε σ α) := ⟨fun _ => rfl⟩

theorem lift (r : Except ε α) : Keeps f (lift r : EStateM ε σ α) := by
  constructor
  intro s
  cases r <;> rfl

theorem find (g : σ → Option α) (e : ε) : Keeps f (find g e : EStateM ε σ α) := by
  constructor
  intro s
  unfold Stateful.find
  cases g s <;> rfl

theorem fail (e : ε) : Keeps f (fail e : EStateM ε σ α) := ⟨fun _ => rfl⟩

theorem ite {c : Prop} [Decidable c] {x y : EStateM ε σ α} (hx : Keeps f x) (hy : Keeps f y) :
    Keeps f (if c then x else y) := by
  split
  · exact hx
  · exact hy

theorem reject (c : Prop) [Decidable c] (e : ε) : Keeps f (reject c e : EStateM ε σ Unit) :=
  Keeps.ite (Keeps.fail e) (Keeps.pure ())

theorem recover (through : ε → Bool) (hx : Keeps f x) : Keeps f (recover through x) := by
  constructor
  intro s
  unfold Stateful.recover
  split
  · exact hx.ok ‹_›
  · split <;> exact hx.error ‹_›

theorem forM {g : α → EStateM ε σ PUnit} (hg : ∀ a, Keeps f (g a)) (l : List α) :
    Keeps f (l.forM g) := by
  induction l with
  | nil => exact Keeps.pure _
  | cons a l ih => exact (hg a).bind fun _ => ih

end Keeps

/-! ## Relations between states -/

/-- The first and the last state of a computation that ends well are related. -/
structure Within (R : σ → σ → Prop) (x : EStateM ε σ α) : Prop where
  ok : ∀ {s a s'}, x s = .ok a s' → R s s'

-- what a sequence of steps keeps is found from its steps
attribute [class] Within

namespace Within

variable {R : σ → σ → Prop} {x : EStateM ε σ α}

theorem update {g : σ → σ} (hg : ∀ s, R s (g s)) : Within R (update g : EStateM ε σ Unit) :=
  ⟨fun h => update_ok.mp h ▸ hg _⟩

theorem transition {g : σ → Except ε σ} (hg : ∀ s s', g s = .ok s' → R s s') :
    Within R (transition g) :=
  ⟨fun h => hg _ _ (transition_ok.mp h)⟩

instance fail (e : ε) : Within R (fail e : EStateM ε σ α) := ⟨fun h => (fail_ok.mp h).elim⟩

theorem ite {c : Prop} [Decidable c] {x y : EStateM ε σ α} (hx : Within R x) (hy : Within R y) :
    Within R (if c then x else y) := by
  split
  · exact hx
  · exact hy

instance {c : Prop} [Decidable c] {x y : EStateM ε σ α} [hx : Within R x] [hy : Within R y] :
    Within R (if c then x else y) := hx.ite hy

section Reflexive

variable [Std.Refl R]

instance pure (a : α) : Within R (pure a : EStateM ε σ α) :=
  ⟨fun h => (pure_ok.mp h).2 ▸ refl_of R _⟩

instance load (g : σ → α) : Within R (load g : EStateM ε σ α) :=
  ⟨fun h => (load_ok.mp h).2 ▸ refl_of R _⟩

instance lift (r : Except ε α) : Within R (lift r : EStateM ε σ α) :=
  ⟨fun h => (lift_ok.mp h).2 ▸ refl_of R _⟩

instance find (g : σ → Option α) (e : ε) : Within R (find g e : EStateM ε σ α) :=
  ⟨fun h => (find_ok.mp h).2 ▸ refl_of R _⟩

instance reject (c : Prop) [Decidable c] (e : ε) : Within R (reject c e : EStateM ε σ Unit) :=
  ⟨fun h => (reject_ok.mp h).2 ▸ refl_of R _⟩

end Reflexive

section Transitive

variable [IsTrans σ R]

theorem bind {g : α → EStateM ε σ β} (hx : Within R x) (hg : ∀ a, Within R (g a)) :
    Within R (x >>= g) := by
  refine ⟨fun h => ?_⟩
  obtain ⟨a, _, h1, h⟩ := bind_ok.mp h
  exact trans_of R (hx.ok h1) ((hg a).ok h)

instance {g : α → EStateM ε σ β} [hx : Within R x] [hg : ∀ a, Within R (g a)] : Within R (x >>= g) :=
  hx.bind hg

variable [Std.Refl R]

theorem perform (hx : Within R x) : Within R (perform x) := hx.bind fun _ => pure _

theorem forM {g : α → EStateM ε σ PUnit} (hg : ∀ a, Within R (g a)) (l : List α) :
    Within R (l.forM g) := by
  induction l with
  | nil => exact pure _
  | cons a l ih => exact (hg a).bind fun _ => ih

theorem foldlM {g : β → α → EStateM ε σ β} (hg : ∀ b a, Within R (g b a)) (l : List α) (b : β) :
    Within R (l.foldlM g b) := by
  induction l generalizing b with
  | nil => exact pure b
  | cons a l ih =>
    rw [List.foldlM_cons]
    exact (hg b a).bind fun b' => ih b'

end Transitive

end Within

/-! ## Failures -/

/-- Every error of a computation has a property. -/
structure Fails (P : ε → Prop) (x : EStateM ε σ α) : Prop where
  error : ∀ s e s', x s = .error e s' → P e

namespace Fails

variable {P : ε → Prop} {x : EStateM ε σ α}

theorem pure (a : α) : Fails P (pure a : EStateM ε σ α) :=
  ⟨fun _ _ _ h => (pure_error.mp h).elim⟩

theorem bind {g : α → EStateM ε σ β} (hx : Fails P x) (hg : ∀ a, Fails P (g a)) :
    Fails P (x >>= g) := by
  refine ⟨fun s e s' h => ?_⟩
  rcases bind_error.mp h with h | ⟨a, s1, -, h⟩
  · exact hx.error s e s' h
  · exact (hg a).error s1 e s' h

theorem update (g : σ → σ) : Fails P (update g : EStateM ε σ Unit) :=
  ⟨fun _ _ _ h => (update_error.mp h).elim⟩

theorem load (g : σ → α) : Fails P (load g : EStateM ε σ α) :=
  ⟨fun _ _ _ h => (load_error.mp h).elim⟩

theorem transition {g : σ → Except ε σ} (hg : ∀ s e, g s = .error e → P e) :
    Fails P (transition g : EStateM ε σ Unit) :=
  ⟨fun s e _ h => hg s e (transition_error.mp h).1⟩

theorem lift {r : Except ε α} (hr : ∀ e, r = .error e → P e) : Fails P (lift r : EStateM ε σ α) :=
  ⟨fun _ e _ h => hr e (lift_error.mp h).1⟩

variable {e : ε}

theorem fail (he : P e) : Fails P (fail e : EStateM ε σ α) :=
  ⟨fun _ _ _ h => (EStateM.Result.error.inj h).1 ▸ he⟩

theorem find (g : σ → Option α) (he : P e) : Fails P (find g e : EStateM ε σ α) :=
  ⟨fun _ _ _ h => (find_error.mp h).2.1 ▸ he⟩

theorem reject (c : Prop) [Decidable c] (he : P e) : Fails P (reject c e : EStateM ε σ Unit) :=
  ⟨fun _ _ _ h => (reject_error.mp h).2.1 ▸ he⟩

theorem ite {c : Prop} [Decidable c] {x y : EStateM ε σ α} (hx : Fails P x) (hy : Fails P y) :
    Fails P (if c then x else y) := by
  split
  · exact hx
  · exact hy

theorem foldlM {g : β → α → EStateM ε σ β} (hg : ∀ b a, Fails P (g b a)) (l : List α) (b : β) :
    Fails P (l.foldlM g b) := by
  induction l generalizing b with
  | nil => exact Fails.pure b
  | cons a l ih =>
    rw [List.foldlM_cons]
    exact (hg b a).bind fun b' => ih b'

end Fails

end Stateful
