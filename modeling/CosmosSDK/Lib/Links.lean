import Mathlib.Logic.Relation

/-!
# Links and owners

Names are linked to at most one next name, and some names have owners.  A name is attached
to the owners of the names its links lead to.  The rules say how attachments stay
unambiguous when a link is set and when a name gets an owner.
-/

namespace Links

open Relation.ReflTransGen

variable {A B : Type}

def Leads (next : A → Option A) : A → A → Prop :=
  Relation.ReflTransGen (fun a b => next a = some b)

/-- The links of a name lead to one that has this owner. -/
def Attached (next : A → Option A) (owns : A → B → Prop) (a : A) (b : B) : Prop :=
  ∃ t, Leads next a t ∧ owns t b

/-- No name is attached to two owners. -/
def Unambiguous (next : A → Option A) (owns : A → B → Prop) : Prop :=
  ∀ a b b', Attached next owns a b → Attached next owns a b' → b = b'

variable {next next' : A → Option A} {owns owns' : A → B → Prop}

theorem Attached.mono (h : ∀ t b, owns' t b → owns t b) {a : A} {b : B}
    (hab : Attached next owns' a b) : Attached next owns a b := by
  obtain ⟨t, hleads, howns⟩ := hab
  exact ⟨t, hleads, h t b howns⟩

theorem Unambiguous.mono (hu : Unambiguous next owns) (h : ∀ t b, owns' t b → owns t b) :
    Unambiguous next owns' :=
  fun a b b' hb hb' => hu a b b' (hb.mono h) (hb'.mono h)

theorem Leads.eq_of_no_entry {a b : A} (hentry : ∀ a, next a ≠ some b) (h : Leads next a b) :
    a = b := by
  rcases cases_tail h with heq | ⟨c, -, hlink⟩
  · exact heq.symm
  · exact absurd hlink (hentry c)

theorem Leads.of_redirect {old new : A} (hset : next' old = some new)
    (hkeep : ∀ a, a ≠ old → next' a = next a) {a b : A} (h : Leads next' a b) :
    Leads next a b ∨ (Leads next a old ∧ Leads next new b) := by
  induction h using head_induction_on with
  | refl => exact .inl .refl
  | @head a c hlink _ ih =>
    by_cases ha : a = old
    · subst ha
      obtain rfl := Option.mem_unique hset hlink
      rcases ih with hlead | ⟨-, hlead⟩
      · exact .inr ⟨.refl, hlead⟩
      · exact .inr ⟨.refl, hlead⟩
    · rw [hkeep a ha] at hlink
      rcases ih with hlead | ⟨hold, hlead⟩
      · exact .inl (hlead.head hlink)
      · exact .inr ⟨hold.head hlink, hlead⟩

theorem Unambiguous.redirect (hu : Unambiguous next owns) {old new : A} {b : B}
    (hold : owns old b) (hnew : owns new b) (howns : ∀ t b, owns' t b → owns t b)
    (hset : next' old = some new) (hkeep : ∀ a, a ≠ old → next' a = next a) :
    Unambiguous next' owns' := by
  have hback : ∀ a b', Attached next' owns' a b' → Attached next owns a b' := by
    rintro a b' ⟨t, hleads, ht⟩
    rcases Leads.of_redirect hset hkeep hleads with hlead | ⟨hlead, hrest⟩
    · exact ⟨t, hlead, howns t b' ht⟩
    · have heq : b' = b := hu new b' b ⟨t, hrest, howns t b' ht⟩ ⟨new, .refl, hnew⟩
      exact ⟨old, hlead, heq ▸ hold⟩
  exact fun a b1 b2 h1 h2 => hu a b1 b2 (hback a b1 h1) (hback a b2 h2)

theorem Unambiguous.extend (hu : Unambiguous next owns) {new : A} {b : B}
    (hentry : ∀ a, next a ≠ some new) (hfree : ∀ b', Attached next owns new b' → b' = b)
    (howns : ∀ t b', owns' t b' → owns t b' ∨ (t = new ∧ b' = b)) : Unambiguous next owns' := by
  have hcases : ∀ a b', Attached next owns' a b' → Attached next owns a b' ∨ (a = new ∧ b' = b) := by
    rintro a b' ⟨t, hleads, ht⟩
    rcases howns t b' ht with ht | ⟨rfl, rfl⟩
    · exact .inl ⟨t, hleads, ht⟩
    · exact .inr ⟨hleads.eq_of_no_entry hentry, rfl⟩
  intro a b1 b2 h1 h2
  rcases hcases a b1 h1 with h1 | ⟨rfl, rfl⟩
  · rcases hcases a b2 h2 with h2 | ⟨rfl, rfl⟩
    · exact hu a b1 b2 h1 h2
    · exact hfree b1 h1
  · rcases hcases a b2 h2 with h2 | ⟨-, rfl⟩
    · exact (hfree b2 h2).symm
    · rfl

end Links
