import Std.Data.ExtTreeMap
import Mathlib.Data.List.Sort

/-!
# Skip lists

A skip list is read as the list of its elements in the order of its comparator.
Setting a key that compares equal to a stored one replaces the value and keeps the
stored key, so a key can carry data the comparator does not look at.  `Operations` says what
is used of an implementation; `plain` is one, by a walk over the list.
-/

namespace SkipList

open Std List TransCmp

variable {K V : Type}

def Sorted (cmp : K → K → Ordering) (l : List (K × V)) : Prop :=
  l.Pairwise (fun a b => cmp a.1 b.1 = .lt)

/-- An implementation of skip lists, and what setting and removing a key do to the elements. -/
class Operations where
  get {K V : Type} (cmp : K → K → Ordering) (k : K) (l : List (K × V)) : Option (K × V)
  set {K V : Type} (cmp : K → K → Ordering) (k : K) (v : V) (l : List (K × V)) : List (K × V)
  remove {K V : Type} (cmp : K → K → Ordering) (k : K) (l : List (K × V)) : List (K × V)
  sorted_set {K V : Type} {cmp : K → K → Ordering} [TransCmp cmp] {l : List (K × V)} {k : K}
    {v : V} : Sorted cmp l → Sorted cmp (set cmp k v l)
  mem_set_of_absent {K V : Type} {cmp : K → K → Ordering} [TransCmp cmp] {l : List (K × V)}
    {k : K} {v : V} {e : K × V} : Sorted cmp l → (∀ e ∈ l, cmp k e.1 ≠ .eq) →
    (e ∈ set cmp k v l ↔ e = (k, v) ∨ e ∈ l)
  /-- a key that compares equal to a stored one replaces the value under the stored key -/
  mem_set_of_present {K V : Type} {cmp : K → K → Ordering} [TransCmp cmp] {l : List (K × V)}
    {k : K} {v : V} {e a : K × V} : Sorted cmp l → a ∈ l → cmp k a.1 = .eq →
    (e ∈ set cmp k v l ↔ e = (a.1, v) ∨ (e ∈ l ∧ cmp k e.1 ≠ .eq))
  sorted_remove {K V : Type} {cmp : K → K → Ordering} [TransCmp cmp] {l : List (K × V)} {k : K} :
    Sorted cmp l → Sorted cmp (remove cmp k l)
  mem_remove {K V : Type} {cmp : K → K → Ordering} [TransCmp cmp] {l : List (K × V)} {k : K}
    {e : K × V} : Sorted cmp l → (e ∈ remove cmp k l ↔ e ∈ l ∧ cmp k e.1 ≠ .eq)

export Operations (get set remove sorted_set mem_set_of_absent mem_set_of_present sorted_remove
  mem_remove)

variable {cmp : K → K → Ordering} [TransCmp cmp] {l : List (K × V)} {k : K} {v : V} {e : K × V}

theorem eq_comm_of_cmp {a b : K} (h : cmp a b = .eq) : cmp b a = .eq := by
  have hswap : cmp b a = (cmp a b).swap := OrientedCmp.eq_swap
  rw [hswap, h]
  rfl

theorem Sorted.eq_of_eq (hl : Sorted cmp l) {a b : K × V} (ha : a ∈ l) (hb : b ∈ l)
    (h : cmp a.1 b.1 = .eq) : a = b := by
  induction l with
  | nil => simp at ha
  | cons c l ih =>
    obtain ⟨hc, hl⟩ := pairwise_cons.mp hl
    rcases mem_cons.mp ha with rfl | hla
    · rcases mem_cons.mp hb with rfl | hlb
      · rfl
      · have hlt : cmp a.1 b.1 = .lt := hc b hlb
        rw [h] at hlt
        cases hlt
    · rcases mem_cons.mp hb with rfl | hlb
      · have hlt : cmp b.1 a.1 = .lt := hc a hla
        rw [eq_comm_of_cmp h] at hlt
        cases hlt
      · exact ih hl hla hlb

theorem Sorted.nodup (hl : Sorted cmp l) : l.Nodup := by
  refine hl.imp ?_
  rintro a _ hlt rfl
  have heq : cmp a.1 a.1 = .eq := ReflCmp.compare_self
  cases hlt.symm.trans heq

section Counts

variable [Operations] (p : K × V → Bool) (hl : Sorted cmp l)
include hl

theorem countP_set_of_absent (h : ∀ e ∈ l, cmp k e.1 ≠ .eq) :
    (set cmp k v l).countP p = l.countP p + if p (k, v) then 1 else 0 := by
  have hnew : (k, v) ∉ l := fun hmem => h _ hmem ReflCmp.compare_self
  have hperm : (set cmp k v l).Perm ((k, v) :: l) :=
    (perm_ext_iff_of_nodup (sorted_set hl).nodup (nodup_cons.mpr ⟨hnew, hl.nodup⟩)).mpr
      fun e => (mem_set_of_absent hl h).trans mem_cons.symm
  rw [hperm.countP_eq, countP_cons]

theorem countP_remove (he : e ∈ l) (heq : cmp k e.1 = .eq) :
    (remove cmp k l).countP p + (if p e then 1 else 0) = l.countP p := by
  have hgone : e ∉ remove cmp k l := fun hmem => ((mem_remove hl).mp hmem).2 heq
  have hperm : l.Perm (e :: remove cmp k l) := by
    refine (perm_ext_iff_of_nodup hl.nodup
      (nodup_cons.mpr ⟨hgone, (sorted_remove hl).nodup⟩)).mpr fun a => ?_
    rw [mem_cons, mem_remove hl]
    constructor
    · intro ha
      by_cases hk : cmp k a.1 = .eq
      · exact .inl (hl.eq_of_eq ha he (eq_trans (eq_comm_of_cmp hk) heq))
      · exact .inr ⟨ha, hk⟩
    · rintro (rfl | ⟨ha, -⟩)
      · exact he
      · exact ha
  rw [hperm.countP_eq, countP_cons]

end Counts

/-! ## An implementation -/

namespace Plain

def get (cmp : K → K → Ordering) (k : K) (l : List (K × V)) : Option (K × V) :=
  l.find? (fun e => cmp k e.1 == .eq)

def set (cmp : K → K → Ordering) (k : K) (v : V) : List (K × V) → List (K × V)
  | [] => [(k, v)]
  | e :: l =>
    match cmp k e.1 with
    | .lt => (k, v) :: e :: l
    | .eq => (e.1, v) :: l
    | .gt => e :: set cmp k v l

def remove (cmp : K → K → Ordering) (k : K) (l : List (K × V)) : List (K × V) :=
  l.eraseP (fun e => cmp k e.1 == .eq)

omit [TransCmp cmp] in
theorem mem_set_of_absent (h : ∀ e ∈ l, cmp k e.1 ≠ .eq) :
    e ∈ set cmp k v l ↔ e = (k, v) ∨ e ∈ l := by
  induction l <;> grind [set]

omit [TransCmp cmp] in
theorem lt_of_mem_set {a : K × V} (ha : ∀ b ∈ l, cmp a.1 b.1 = .lt) (hk : cmp a.1 k = .lt) :
    ∀ b ∈ set cmp k v l, cmp a.1 b.1 = .lt := by
  induction l <;> grind [set]

theorem ne_of_head {a : K × V} (hl : Sorted cmp (a :: l)) (hk : cmp k a.1 = .eq) :
    ∀ b ∈ l, cmp k b.1 ≠ .eq := by
  intro b hb heq
  have hlt : cmp a.1 b.1 = .lt := rel_of_pairwise_cons hl hb
  rw [eq_trans (eq_comm_of_cmp hk) heq] at hlt
  cases hlt

theorem mem_remove (hl : Sorted cmp l) : e ∈ remove cmp k l ↔ e ∈ l ∧ cmp k e.1 ≠ .eq := by
  induction l with
  | nil => simp [remove]
  | cons a l ih =>
    have hrest := ne_of_head (k := k) hl
    have hl' := ih hl.of_cons
    grind [remove]

theorem mem_set_of_present (hl : Sorted cmp l) {a : K × V} (ha : a ∈ l) (hk : cmp k a.1 = .eq) :
    e ∈ set cmp k v l ↔ e = (a.1, v) ∨ (e ∈ l ∧ cmp k e.1 ≠ .eq) := by
  induction l with
  | nil => simp at ha
  | cons c l ih =>
    obtain ⟨hc, hl'⟩ := pairwise_cons.mp hl
    have hmem : a ≠ c → a ∈ l := fun hne => (mem_cons.mp ha).resolve_left hne
    cases hcmp : cmp k c.1 with
    | lt =>
      exfalso
      by_cases hac : a = c
      · rw [hac, hcmp] at hk
        cases hk
      · have hlt : cmp k a.1 = .lt := lt_trans hcmp (hc a (hmem hac))
        rw [hk] at hlt
        cases hlt
    | eq =>
      obtain rfl : c = a :=
        hl.eq_of_eq (mem_cons_self ..) ha (eq_trans (eq_comm_of_cmp hcmp) hk)
      have hrest := ne_of_head hl hcmp
      simp only [set, hcmp, mem_cons]
      grind
    | gt =>
      have hac : a ≠ c := by
        rintro rfl
        rw [hk] at hcmp
        cases hcmp
      simp only [set, hcmp, mem_cons, ih hl' (hmem hac)]
      grind

theorem sorted_set (hl : Sorted cmp l) : Sorted cmp (set cmp k v l) := by
  induction l with
  | nil => simp [set, Sorted]
  | cons a l ih =>
    obtain ⟨ha, hl'⟩ := pairwise_cons.mp hl
    cases hcmp : cmp k a.1 with
    | lt =>
      simp only [set, hcmp]
      refine pairwise_cons.mpr ⟨?_, hl⟩
      intro b hb
      rcases mem_cons.mp hb with rfl | hb
      · exact hcmp
      · exact lt_trans hcmp (ha b hb)
    | eq =>
      simp only [set, hcmp]
      exact pairwise_cons.mpr ⟨ha, hl'⟩
    | gt =>
      simp only [set, hcmp]
      exact pairwise_cons.mpr
        ⟨lt_of_mem_set ha (OrientedCmp.lt_of_gt hcmp), ih hl'⟩

end Plain

/-- The elements are walked from the front. -/
@[reducible]
def plain : Operations where
  get := Plain.get
  set := Plain.set
  remove := Plain.remove
  sorted_set := Plain.sorted_set
  mem_set_of_absent _ := Plain.mem_set_of_absent
  mem_set_of_present hl := Plain.mem_set_of_present hl
  sorted_remove hl := hl.sublist eraseP_sublist
  mem_remove := Plain.mem_remove

end SkipList
