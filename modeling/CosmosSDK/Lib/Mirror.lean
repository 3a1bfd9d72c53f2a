import CosmosSDK.Lib.Fallible
import CosmosSDK.Lib.OrderedMap

/-!
# Maps that mirror other maps

A map mirrors the contents of another if it holds exactly one computed entry for each of them.
It still does after an entry of the contents and its mirror image are erased or inserted together.
-/

namespace OrderedKV

open Std Fallible Function

variable {ε ε' A V K W X : Type} [Ord K] [TransOrd K] [LawfulEqOrd K] [DecidableEq K] [DecidableEq A]

/-- The map has the computed entry for every value of the contents, under keys of their own, and
nothing else. -/
structure Mirrors (entry : A → V → Except ε (K × W)) (contents : A → Option V) (m : OrdMap K W) :
    Prop where
  computed : ∀ a v, contents a = some v → ∃ e, entry a v = .ok e
  lookup : ∀ k w, m[k]? = some w ↔ ∃ a v, contents a = some v ∧ entry a v = .ok (k, w)
  separated : ∀ a v a' v' k w w', contents a = some v → contents a' = some v' →
    entry a v = .ok (k, w) → entry a' v' = .ok (k, w') → a = a'

variable {entry : A → V → Except ε (K × W)} {contents : A → Option V} {m : OrdMap K W}

omit [LawfulEqOrd K] [DecidableEq K] [DecidableEq A] in
theorem mirrors_empty : Mirrors entry (fun _ => none) (∅ : OrdMap K W) :=
  ⟨by simp, by simp, by simp⟩

theorem update_eq_some {a x : A} {o : Option V} {v : V} :
    update contents a o x = some v ↔ (x = a ∧ o = some v) ∨ (x ≠ a ∧ contents x = some v) := by
  by_cases hx : x = a
  · subst hx
    simp
  · simp [hx]

theorem Mirrors.erase (h : Mirrors entry contents m) {a : A} {v : V} {k : K} {w : W}
    (ha : contents a = some v) (hentry : entry a v = .ok (k, w)) :
    Mirrors entry (update contents a none) (m.erase k) where
  computed x v' hx := by
    obtain ⟨_, hcontents⟩ := (update_eq_some.mp hx).resolve_left (by simp)
    exact h.computed x v' hcontents
  lookup k' w' := by
    constructor
    · intro hlookup
      obtain ⟨hne, hlookup⟩ := of_erase hlookup
      obtain ⟨x, v', hx, he⟩ := (h.lookup k' w').mp hlookup
      refine ⟨x, v', update_eq_some.mpr (.inr ⟨?_, hx⟩), he⟩
      rintro rfl
      rw [ha] at hx
      cases hx
      rw [hentry] at he
      exact hne (Prod.mk.inj (Except.ok.inj he)).1.symm
    · rintro ⟨x, v', hx, he⟩
      obtain ⟨hne, hx⟩ := (update_eq_some.mp hx).resolve_left (by simp)
      rw [lookup_erase, if_neg fun hk : k' = k => hne (h.separated x v' a v k w' w hx ha (hk ▸ he) hentry)]
      exact (h.lookup k' w').mpr ⟨x, v', hx, he⟩
  separated x v' y v'' k' w' w'' hx hy := by
    obtain ⟨_, hx⟩ := (update_eq_some.mp hx).resolve_left (by simp)
    obtain ⟨_, hy⟩ := (update_eq_some.mp hy).resolve_left (by simp)
    exact h.separated x v' y v'' k' w' w'' hx hy

/-- A new value and its entry, under a key that is not taken, are inserted. -/
theorem Mirrors.insert (h : Mirrors entry contents m) {a : A} {v : V} {k : K} {w : W}
    (hentry : entry a v = .ok (k, w)) (ha : contents a = none) (hk : m[k]? = none) :
    Mirrors entry (update contents a (some v)) (m.insert k w) := by
  have hfree {x : A} {v' : V} {w' : W} (hx : contents x = some v') :
      entry x v' ≠ .ok (k, w') := by
    intro he
    have hlookup := (h.lookup k w').mpr ⟨x, v', hx, he⟩
    rw [hk] at hlookup
    simp at hlookup
  have hcases {x : A} {v' : V} (hx : update contents a (some v) x = some v') :
      (x = a ∧ v = v') ∨ (x ≠ a ∧ contents x = some v') := by
    rw [update_eq_some, Option.some.injEq] at hx
    exact hx
  constructor
  · intro x v' hx
    cases hcases hx with
    | inl hnew =>
      obtain ⟨rfl, rfl⟩ := hnew
      exact ⟨(k, w), hentry⟩
    | inr hold => exact h.computed x v' hold.2
  · intro k' w'
    constructor
    · intro hlookup
      rcases cases_of_insert hlookup with ⟨rfl, rfl⟩ | ⟨_, hlookup⟩
      · exact ⟨a, v, by simp, hentry⟩
      · obtain ⟨x, v', hx, he⟩ := (h.lookup k' w').mp hlookup
        refine ⟨x, v', update_eq_some.mpr (.inr ⟨?_, hx⟩), he⟩
        intro hxa
        rw [hxa, ha] at hx
        simp at hx
    · rintro ⟨x, v', hx, he⟩
      rw [lookup_insert]
      cases hcases hx with
      | inl hnew =>
        obtain ⟨rfl, rfl⟩ := hnew
        rw [hentry] at he
        cases he
        simp
      | inr hold =>
        rw [if_neg fun heq => hfree hold.2 (heq ▸ he)]
        exact (h.lookup k' w').mpr ⟨x, v', hold.2, he⟩
  · intro x v' y v'' k' w' w'' hx hy hex hey
    cases hcases hx with
    | inl hnew =>
      obtain ⟨rfl, rfl⟩ := hnew
      cases hcases hy with
      | inl hnew' => exact hnew'.1.symm
      | inr hold =>
        rw [hentry] at hex
        cases hex
        exact absurd hey (hfree hold.2)
    | inr hold =>
      cases hcases hy with
      | inl hnew =>
        obtain ⟨rfl, rfl⟩ := hnew
        rw [hentry] at hey
        cases hey
        exact absurd hex (hfree hold.2)
      | inr hold' => exact h.separated x v' y v'' k' w' w'' hold.2 hold'.2 hex hey

omit [DecidableEq K] [DecidableEq A] in
/-- Reading the entries with some of the keys gives each of their values once, if an entry tells
the value it mirrors. -/
theorem Mirrors.read (h : Mirrors entry contents m) (read : K × W → Except ε' X) (key : X → A)
    (hread : ∀ a v e, contents a = some v → entry a v = .ok e → ∃ x, read e = .ok x ∧ key x = a)
    (p : K → Bool) :
    ∃ xs, (m.toList.filter (fun e => p e.1)).mapM read = .ok xs ∧ (xs.map key).Nodup ∧
      ∀ x, x ∈ xs ↔ ∃ a v e, contents a = some v ∧ entry a v = .ok e ∧ p e.1 = true ∧ read e = .ok x := by
  have hmem (e : K × W) : e ∈ m.toList.filter (fun e => p e.1) ↔
      ∃ a v, contents a = some v ∧ entry a v = .ok e ∧ p e.1 = true := by
    rw [List.mem_filter, ExtTreeMap.mem_toList_iff_getElem?_eq_some, h.lookup]
    simp [← and_assoc]
  obtain ⟨xs, hxs⟩ : ∃ xs, (m.toList.filter fun e => p e.1).mapM read = .ok xs := by
    apply mapM_of_forall
    intro e he
    obtain ⟨a, v, ha, hentry, _⟩ := (hmem e).mp he
    obtain ⟨x, hx, _⟩ := hread a v e ha hentry
    exact ⟨x, hx⟩
  refine ⟨xs, hxs, ?_, fun x => ?_⟩
  · -- entries that mirror the same value are the same entry, which is listed once
    rw [List.Nodup, List.pairwise_map]
    apply pairwise_of_mapM hxs
    have hordered : (m.toList.filter fun e => p e.1).Pairwise (fun e e' => compare e.1 e'.1 = .lt) :=
      List.Pairwise.filter _ ExtTreeMap.ordered_keys_toList
    refine hordered.imp_of_mem ?_
    intro e e' he he' hlt x x' hx hx' hkey
    obtain ⟨a, v, ha, hentry, _⟩ := (hmem e).mp he
    obtain ⟨a', v', ha', hentry', _⟩ := (hmem e').mp he'
    obtain ⟨_, hy, rfl⟩ := hread a v e ha hentry
    obtain ⟨_, hy', rfl⟩ := hread a' v' e' ha' hentry'
    rw [hx] at hy
    cases hy
    rw [hx'] at hy'
    cases hy'
    rw [← hkey] at ha' hentry'
    rw [ha] at ha'
    cases ha'
    rw [hentry] at hentry'
    cases hentry'
    simp at hlt
  · rw [mem_mapM_iff hxs]
    constructor
    · rintro ⟨e, he, hread⟩
      obtain ⟨a, v, ha, hentry, hp⟩ := (hmem e).mp he
      exact ⟨a, v, e, ha, hentry, hp, hread⟩
    · rintro ⟨a, v, e, ha, hentry, hp, hread⟩
      exact ⟨e, (hmem e).mpr ⟨a, v, ha, hentry, hp⟩, hread⟩

end OrderedKV
