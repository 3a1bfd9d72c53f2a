import Std.Data.ExtTreeMap
import Mathlib.Data.List.Sort
import Mathlib.Algebra.Order.Ring.Int

/-!
# Finite ordered maps, ranges and overlays

The finite maps of `Std` are read here as the content of an ordered key-value
store.  A range listing is the part of the content between two optional bounds
in one of the two directions.  An overlay puts a map of pending writes, in which
an absent value is a deletion, over a base map.  `mergeEntries` is the list
program that reads a base listing and a pending listing side by side; the last
section proves that it lists exactly the overlay.
-/

namespace OrderedKV

open Std List ExtTreeMap OrientedCmp LawfulEqOrd TransCmp

/-- The content of a store: a finite map ordered by `compare`. -/
abbrev OrdMap (K V : Type) [Ord K] := ExtTreeMap K V compare

/-- Pairs are ordered by their first part, then by their second. -/
instance pairOrd {A B : Type} [Ord A] [Ord B] : Ord (A × B) := lexOrd

section Lookup

variable {K V : Type} [Ord K] [TransOrd K] [LawfulEqOrd K] [DecidableEq K]

theorem lookup_insert (m : OrdMap K V) (k a : K) (v : V) :
    (m.insert k v)[a]? = if a = k then some v else m[a]? := by
  rw [ExtTreeMap.getElem?_insert]
  by_cases h : a = k
  · simp [h]
  · rw [if_neg fun hc => h (eq_of_compare hc).symm, if_neg h]

theorem lookup_erase (m : OrdMap K V) (k a : K) :
    (m.erase k)[a]? = if a = k then none else m[a]? := by
  rw [getElem?_erase]
  by_cases h : a = k
  · simp [h]
  · rw [if_neg fun hc => h (eq_of_compare hc).symm, if_neg h]

variable {m : OrdMap K V} {k a : K} {v w : V} {l : List (K × V)}

theorem cases_of_insert (h : (m.insert k v)[a]? = some w) :
    a = k ∧ v = w ∨ a ≠ k ∧ m[a]? = some w := by
  rw [lookup_insert] at h
  by_cases ha : a = k
  · rw [if_pos ha] at h
    exact .inl ⟨ha, Option.some.inj h⟩
  · rw [if_neg ha] at h
    exact .inr ⟨ha, h⟩

theorem of_erase (h : (m.erase k)[a]? = some w) : a ≠ k ∧ m[a]? = some w := by
  rwa [lookup_erase, Option.ite_none_left_eq_some] at h

theorem erase_of_absent (h : m[k]? = none) : m.erase k = m := by
  apply ExtTreeMap.ext_getElem?
  intro a
  rw [lookup_erase]
  split
  · rename_i heq
    rw [heq, h]
  · rfl

theorem insert_erase_self (m : OrdMap K V) (k : K) (v : V) :
    (m.erase k).insert k v = m.insert k v := by
  apply ExtTreeMap.ext_getElem?
  intro a
  rw [lookup_insert, lookup_insert, lookup_erase]
  split <;> rfl

def insertAll {K V : Type} [Ord K] [TransOrd K] (m : OrdMap K V) (l : List (K × V)) : OrdMap K V :=
  l.foldl (fun m e => m.insert e.1 e.2) m

theorem mem_or_of_getElem?_insertAll (h : (insertAll m l)[k]? = some v) :
    (k, v) ∈ l ∨ m[k]? = some v := by
  induction l generalizing m with
  | nil => exact .inr h
  | cons e l ih =>
    rcases ih h with hl | hm
    · exact .inl (mem_cons_of_mem _ hl)
    · rcases cases_of_insert hm with ⟨rfl, rfl⟩ | ⟨_, hm⟩
      · exact .inl mem_cons_self
      · exact .inr hm

theorem getElem?_insertAll_of_not_mem (h : ∀ e ∈ l, e.1 ≠ k) : (insertAll m l)[k]? = m[k]? := by
  induction l generalizing m with
  | nil => rfl
  | cons e l ih =>
    have hne : ¬ k = e.1 := fun heq => h e (mem_cons_self ..) heq.symm
    have htail := ih (m := m.insert e.1 e.2) (forall_mem_cons.mp h).2
    rw [lookup_insert, if_neg hne] at htail
    exact htail

theorem getElem?_insertAll_of_mem (hl : l.Pairwise (fun x y => x.1 ≠ y.1)) (h : (k, v) ∈ l) :
    (insertAll m l)[k]? = some v := by
  induction l generalizing m with
  | nil => cases h
  | cons e l ih =>
    obtain ⟨hhead, htail⟩ := pairwise_cons.mp hl
    rcases mem_cons.mp h with rfl | h
    · show (insertAll (m.insert k v) l)[k]? = some v
      rw [getElem?_insertAll_of_not_mem fun x hx => (hhead x hx).symm, lookup_insert, if_pos rfl]
    · exact ih htail h

variable {K V : Type}

theorem values_eq_map [Ord K] [TransOrd K] (m : OrdMap K V) :
    m.values = m.toList.map (fun e => e.2) := by
  obtain ⟨⟨q⟩⟩ := m
  induction q using Quotient.inductionOn with
  | h t =>
    show t.inner.values = (DTreeMap.Internal.Impl.Const.toList t.inner).map fun e => e.2
    rw [DTreeMap.Internal.Impl.values_eq_map_snd,
      DTreeMap.Internal.Impl.Const.toList_eq_toListModel_map]
    simp

theorem mem_values [Ord K] [TransOrd K] [LawfulEqOrd K] {m : OrdMap K V} {v : V} :
    v ∈ m.values ↔ ∃ k : K, m[k]? = some v := by
  simp [values_eq_map]

theorem values_pairwise_ne [Ord K] [TransOrd K] [LawfulEqOrd K] {m : OrdMap K V}
    {f : V → K} (h : ∀ (k : K) (v : V), m[k]? = some v → f v = k) :
    m.values.Pairwise (fun v w => f v ≠ f w) := by
  rw [values_eq_map, pairwise_map]
  refine (distinct_keys_toList).imp_of_mem ?_
  intro a b ha hb hne heq
  have hka := h a.1 a.2 (mem_toList_iff_getElem?_eq_some.mp ha)
  have hkb := h b.1 b.2 (mem_toList_iff_getElem?_eq_some.mp hb)
  rw [← hka, ← hkb, heq] at hne
  exact hne ReflCmp.compare_self

end Lookup

/-! ## Comparison in a direction -/

def dirCompare {K : Type} [Ord K] (ascending : Bool) (a b : K) : Ordering :=
  if ascending then compare a b else compare b a

section Direction

variable {K : Type} [Ord K] [TransOrd K] [LawfulEqOrd K]

instance (ascending : Bool) : TransCmp (dirCompare (K := K) ascending) where
  eq_swap := by
    intro a b
    cases ascending <;> exact OrientedOrd.eq_swap
  isLE_trans := by
    intro a b c hab hbc
    cases ascending with
    | true => exact TransOrd.isLE_trans hab hbc
    | false => exact TransOrd.isLE_trans hbc hab

instance (ascending : Bool) : LawfulEqCmp (dirCompare (K := K) ascending) where
  compare_self := by
    intro a
    cases ascending <;> exact ReflOrd.compare_self
  eq_of_compare := by
    intro a b h
    cases ascending with
    | true => exact eq_of_compare h
    | false => exact (eq_of_compare h).symm

end Direction

/-! ## Strictly sorted listings -/

/-- Entries strictly increasing in key for `cmp`. -/
def SortedBy {K V : Type} (cmp : K → K → Ordering) (l : List (K × V)) : Prop :=
  l.Pairwise (fun a b => cmp a.1 b.1 = .lt)

section Sorted

variable {K V : Type} {cmp : K → K → Ordering} {e : K × V} {l : List (K × V)}

theorem SortedBy.head_lt (h : SortedBy cmp (e :: l)) : ∀ x ∈ l, cmp e.1 x.1 = .lt :=
  (pairwise_cons.mp h).1

theorem SortedBy.tail (h : SortedBy cmp (e :: l)) : SortedBy cmp l :=
  (pairwise_cons.mp h).2

variable [LawfulEqCmp cmp]

theorem lt_irrefl (k : K) : cmp k k ≠ .lt := by
  have hself : cmp k k = .eq := ReflCmp.compare_self
  simp [hself]

theorem eq_of_cmp {a b : K} (h : cmp a b = .eq) : a = b :=
  LawfulEqCmp.eq_of_compare h

variable [TransCmp cmp]

theorem SortedBy.eq_of_mem_iff {l1 l2 : List (K × V)} (h1 : SortedBy cmp l1)
    (h2 : SortedBy cmp l2) (h : ∀ e, e ∈ l1 ↔ e ∈ l2) : l1 = l2 := by
  have : Std.Irrefl (fun a b : K × V => cmp a.1 b.1 = .lt) :=
    ⟨fun a => (lt_irrefl a.1 : cmp a.1 a.1 ≠ .lt)⟩
  have : Std.Antisymm (fun a b : K × V => cmp a.1 b.1 = .lt) :=
    ⟨fun a b hab hba => absurd (lt_trans hab hba) (lt_irrefl a.1)⟩
  exact List.Pairwise.eq_of_mem_iff h1 h2 fun e => h e

end Sorted

variable {α : Type} {l : List α}

theorem takeWhile_congr_of_mem {p q : α → Bool} (h : ∀ a ∈ l, p a = q a) :
    l.takeWhile p = l.takeWhile q := by
  induction l with
  | nil => rfl
  | cons a l ih =>
    have htail := ih (forall_mem_cons.mp h).2
    simp [takeWhile_cons, h a (mem_cons_self ..), htail]

/-- Along a listing whose later entries satisfy `p` only if the earlier ones do,
the entries that satisfy it are an initial part. -/
theorem takeWhile_eq_filter {p : α → Bool}
    (h : l.Pairwise (fun a b => p b = true → p a = true)) : l.takeWhile p = l.filter p := by
  induction l with
  | nil => rfl
  | cons a l ih =>
    rw [pairwise_cons] at h
    by_cases ha : p a = true
    · simp [ha, ih h.2]
    · have hnil : l.filter p = [] := by
        apply filter_eq_nil_iff.mpr
        intro b hb hpb
        exact ha (h.1 b hb hpb)
      simp [ha, hnil]

theorem dropWhile_eq_filter {p : α → Bool}
    (h : l.Pairwise (fun a b => p b = true → p a = true)) :
    l.dropWhile p = l.filter (fun a => !p a) := by
  induction l with
  | nil => rfl
  | cons a l ih =>
    rw [pairwise_cons] at h
    by_cases ha : p a = true
    · simp [ha, ih h.2]
    · have hself : l.filter (fun a => !p a) = l := by
        apply filter_eq_self.mpr
        intro b hb
        simpa using mt (h.1 b hb) ha
      simp [ha, hself]

/-! ## Ranges -/

def fromStart {K : Type} [Ord K] (start : Option K) (k : K) : Bool :=
  match start with
  | none => true
  | some s => (compare s k).isLE

def beforeStop {K : Type} [Ord K] (stop : Option K) (k : K) : Bool :=
  match stop with
  | none => true
  | some e => (compare k e).isLT

/-- The half-open domain `[start, stop)` with optional bounds. -/
def inRange {K : Type} [Ord K] (start stop : Option K) (k : K) : Bool :=
  fromStart start k && beforeStop stop k

def rangeList {K V : Type} [Ord K] [TransOrd K] (m : OrdMap K V) (start stop : Option K)
    (ascending : Bool) : List (K × V) :=
  let l := m.toList.filter (fun e => inRange start stop e.1)
  if ascending then l else l.reverse

section Range

variable {K V : Type} [Ord K] [TransOrd K] {a b : K}

theorem fromStart_mono {start : Option K} (hab : compare a b = .lt) (h : fromStart start a = true) :
    fromStart start b = true := by
  cases start with
  | none => rfl
  | some =>
    simp only [fromStart] at h ⊢
    exact isLE_trans h (Ordering.isLE_of_eq_lt hab)

theorem beforeStop_anti {stop : Option K} (hab : compare a b = .lt) (h : beforeStop stop b = true) :
    beforeStop stop a = true := by
  cases stop with
  | none => rfl
  | some =>
    simp only [beforeStop, Ordering.isLT_iff_eq_lt] at h ⊢
    exact lt_trans hab h

theorem rangeList_sorted (m : OrdMap K V) (start stop : Option K) (ascending : Bool) :
    SortedBy (dirCompare ascending) (rangeList m start stop ascending) := by
  have hl : (m.toList.filter fun e => inRange start stop e.1).Pairwise
      (fun a b => compare a.1 b.1 = .lt) :=
    List.Pairwise.filter _ ordered_keys_toList
  cases ascending with
  | true => simpa [SortedBy, rangeList, dirCompare] using hl
  | false => simpa [SortedBy, rangeList, dirCompare, pairwise_reverse] using hl

variable [LawfulEqOrd K]

theorem mem_rangeList (m : OrdMap K V) (start stop : Option K) (ascending : Bool) (k : K) (v : V) :
    (k, v) ∈ rangeList m start stop ascending ↔ m[k]? = some v ∧ inRange start stop k = true := by
  cases ascending <;> simp [rangeList]

theorem rangeList_congr {m1 m2 : OrdMap K V} (start stop : Option K) (ascending : Bool)
    (h : ∀ k, inRange start stop k = true → m1[k]? = m2[k]?) :
    rangeList m1 start stop ascending = rangeList m2 start stop ascending := by
  apply SortedBy.eq_of_mem_iff (rangeList_sorted m1 start stop ascending)
    (rangeList_sorted m2 start stop ascending)
  rintro ⟨k, v⟩
  rw [mem_rangeList, mem_rangeList]
  constructor
  · rintro ⟨hv, hr⟩
    exact ⟨by rw [← h k hr]; exact hv, hr⟩
  · rintro ⟨hv, hr⟩
    exact ⟨by rw [h k hr]; exact hv, hr⟩

end Range

/-! ## Overlays -/

/-- One pending write: a value, or a deletion. -/
def writeEntry {K V : Type} [Ord K] [TransOrd K] (m : OrdMap K V) (k : K) : Option V → OrdMap K V
  | some v => m.insert k v
  | none => m.erase k

/-- The base map with every pending write applied, in key order. -/
def overlay {K V : Type} [Ord K] [TransOrd K] (base : OrdMap K V) (pending : OrdMap K (Option V)) :
    OrdMap K V :=
  pending.foldl writeEntry base

section Overlay

variable {K V : Type} [Ord K] [TransOrd K] {m : OrdMap K V}

theorem eq_empty_of_size (h : m.size = 0) : m = ∅ := by
  apply ExtTreeMap.isEmpty_iff.mp
  rw [ExtTreeMap.isEmpty_eq_size_beq_zero, h]
  rfl

theorem getElem?_writeEntry (m : OrdMap K V) (k a : K) (w : Option V) :
    (writeEntry m k w)[a]? = if compare k a = .eq then w else m[a]? := by
  cases w with
  | some => simp [writeEntry, ExtTreeMap.getElem?_insert]
  | none => simp [writeEntry, ExtTreeMap.getElem?_erase]

variable [LawfulEqOrd K]

/-- Applying a listing of writes with distinct keys, wherever the key stands. -/
theorem getElem?_foldl_writeEntry (l : List (K × Option V)) (m : OrdMap K V) (a : K)
    (hl : SortedBy compare l) :
    (l.foldl (fun m e => writeEntry m e.1 e.2) m)[a]? =
      match l.find? (fun e => compare e.1 a == .eq) with
      | some e => e.2
      | none => m[a]? := by
  induction l generalizing m with
  | nil => rfl
  | cons e l ih =>
    rw [foldl_cons, ih (writeEntry m e.1 e.2) hl.tail, getElem?_writeEntry, List.find?_cons]
    by_cases he : compare e.1 a = .eq
    · have hnone : l.find? (fun e => compare e.1 a == .eq) = none := by
        apply List.find?_eq_none.mpr
        intro x hx
        have hlt := hl.head_lt x hx
        rw [LawfulEqCmp.eq_of_compare he] at hlt
        simp [gt_iff_lt.mpr hlt]
      simp [he, hnone]
    · have hne : (compare e.1 a == .eq) = false := by simpa using he
      simp only [hne, if_neg he]

theorem getElem?_overlay (base : OrdMap K V) (pending : OrdMap K (Option V)) (a : K) :
    (overlay base pending)[a]? =
      match pending[a]? with
      | some w => w
      | none => base[a]? := by
  unfold overlay
  rw [foldl_eq_foldl_toList, getElem?_foldl_writeEntry _ _ _ ordered_keys_toList]
  cases hp : pending[a]? with
  | some =>
    obtain ⟨k, hk⟩ : ∃ k, pending.getKey? a = some k := by
      have hmem : a ∈ pending := by simp [mem_iff_isSome_getElem?, hp]
      exact ⟨a, by simp [getKey?_eq_some hmem]⟩
    rw [find?_toList_eq_some_iff_getKey?_eq_some_and_getElem?_eq_some.mpr ⟨hk, hp⟩]
  | none =>
    have hmem : a ∉ pending := by simp [mem_iff_isSome_getElem?, hp]
    rw [find?_toList_eq_none_iff_not_mem.mpr hmem]

theorem overlay_empty (base : OrdMap K V) : overlay base ∅ = base := by
  apply ExtTreeMap.ext_getElem?
  intro k
  simp [getElem?_overlay]

theorem overlay_insert (base : OrdMap K V) (pending : OrdMap K (Option V)) (k : K) (w : Option V) :
    overlay base (pending.insert k w) = writeEntry (overlay base pending) k w := by
  apply ExtTreeMap.ext_getElem?
  intro a
  rw [getElem?_overlay, getElem?_writeEntry, getElem?_overlay, ExtTreeMap.getElem?_insert]
  by_cases h : compare k a = .eq <;> simp [h]

variable {l : List K} {a : K} {W : Type}

theorem lookup_insertAll_map [DecidableEq K] (f : K → V) (l : List K) (m : OrdMap K V) (a : K) :
    (insertAll m (l.map (fun k => (k, f k))))[a]? = if a ∈ l then some (f a) else m[a]? := by
  induction l generalizing m with
  | nil => simp [insertAll]
  | cons k l ih =>
    show (insertAll (m.insert k (f k)) (l.map fun k => (k, f k)))[a]? = _
    rw [ih, lookup_insert]
    by_cases hk : a = k <;> simp [hk]

theorem lookup_foldl_erase [DecidableEq K] (key : W → K) (l : List W) (m : OrdMap K V) (a : K) :
    (l.foldl (fun m e => m.erase (key e)) m)[a]? = if a ∈ l.map key then none else m[a]? := by
  induction l generalizing m <;> grind [lookup_erase]

theorem mem_of_length_eq_size (hnd : l.Nodup) (hsub : ∀ k ∈ l, k ∈ m) (hlen : l.length = m.size)
    {k : K} (hk : k ∈ m) : k ∈ l := by
  have hsubset : l ⊆ m.keys := fun a ha => mem_keys.mpr (hsub a ha)
  have hperm : l.Perm m.keys :=
    (subperm_of_subset hnd hsubset).perm_of_length_le (by simp [hlen])
  exact hperm.mem_iff.mpr (mem_keys.mpr hk)

end Overlay

/-! ## Reading two listings side by side -/

/-- Put a pending entry in front of a listing; a deletion leaves nothing. -/
def emit {K V : Type} (k : K) : Option V → List (K × V) → List (K × V)
  | some v, l => (k, v) :: l
  | none, l => l

/-- The listing of an overlay from a base listing and a listing of pending
writes: the smaller key first, the pending entry on a tie, deletions dropped. -/
def mergeEntries {K V : Type} (cmp : K → K → Ordering) :
    List (K × V) → List (K × Option V) → List (K × V)
  | [], [] => []
  | [], c :: cs => emit c.1 c.2 (mergeEntries cmp [] cs)
  | p :: ps, [] => p :: ps
  | p :: ps, c :: cs =>
    match cmp p.1 c.1 with
    | .lt => p :: mergeEntries cmp ps (c :: cs)
    | .eq => emit c.1 c.2 (mergeEntries cmp ps cs)
    | .gt => emit c.1 c.2 (mergeEntries cmp (p :: ps) cs)
termination_by ps cs => ps.length + cs.length

section Merge

variable {K V : Type} {cmp : K → K → Ordering}
  {k : K} {w : Option V} {l ps : List (K × V)} {p : K × V} {c : K × Option V}
  {cs : List (K × Option V)} {W : Type}

theorem mem_emit {e : K × V} : e ∈ emit k w l ↔ (e.1 = k ∧ w = some e.2) ∨ e ∈ l := by
  cases w with
  | none => simp [emit]
  | some => simp [emit, Prod.ext_iff, eq_comm]

theorem SortedBy.emit (hl : SortedBy cmp l) (hk : ∀ e ∈ l, cmp k e.1 = .lt) :
    SortedBy cmp (emit k w l) := by
  cases w with
  | none => exact hl
  | some => exact pairwise_cons.mpr ⟨hk, hl⟩

@[simp] theorem mergeEntries_nil_right (ps : List (K × V)) : mergeEntries cmp ps [] = ps := by
  cases ps <;> simp [mergeEntries]

@[simp] theorem mergeEntries_nil_cons (c : K × Option V) (cs : List (K × Option V)) :
    mergeEntries cmp ([] : List (K × V)) (c :: cs) = emit c.1 c.2 (mergeEntries cmp [] cs) := by
  rw [mergeEntries]

theorem mergeEntries_lt (ps : List (K × V)) (cs : List (K × Option V)) (h : cmp p.1 c.1 = .lt) :
    mergeEntries cmp (p :: ps) (c :: cs) = p :: mergeEntries cmp ps (c :: cs) := by
  rw [mergeEntries, h]

theorem mergeEntries_eq (ps : List (K × V)) (cs : List (K × Option V)) (h : cmp p.1 c.1 = .eq) :
    mergeEntries cmp (p :: ps) (c :: cs) = emit c.1 c.2 (mergeEntries cmp ps cs) := by
  rw [mergeEntries, h]

theorem mergeEntries_gt (ps : List (K × V)) (cs : List (K × Option V)) (h : cmp p.1 c.1 = .gt) :
    mergeEntries cmp (p :: ps) (c :: cs) = emit c.1 c.2 (mergeEntries cmp (p :: ps) cs) := by
  rw [mergeEntries, h]

/-- Deletions with nothing left to delete do not show. -/
theorem mergeEntries_nil_dropWhile (cs : List (K × Option V)) :
    mergeEntries cmp ([] : List (K × V)) (cs.dropWhile (fun c => c.2.isNone)) =
      mergeEntries cmp [] cs := by
  induction cs with
  | nil => rfl
  | cons c cs ih =>
    rcases c with ⟨k, _ | v⟩
    · simpa [emit] using ih
    · simp

theorem mem_keys_of_mem_mergeEntries {e : K × V} (he : e ∈ mergeEntries cmp ps cs) :
    e.1 ∈ ps.map Prod.fst ∨ e.1 ∈ cs.map Prod.fst := by
  induction ps, cs using mergeEntries.induct cmp with
  | case1 => simp at he
  | case2 =>
    rw [mergeEntries_nil_cons, mem_emit] at he
    simp only [map_cons, mem_cons]
    tauto
  | case3 => exact .inl (mem_map_of_mem (by simpa using he))
  | case4 p ps c cs h ih =>
    rw [mergeEntries_lt ps cs h, mem_cons, Prod.ext_iff] at he
    simp only [map_cons, mem_cons] at ih ⊢
    tauto
  | case5 p ps c cs h =>
    rw [mergeEntries_eq ps cs h, mem_emit] at he
    simp only [map_cons, mem_cons]
    tauto
  | case6 p ps c cs h ih =>
    rw [mergeEntries_gt ps cs h, mem_emit] at he
    simp only [map_cons, mem_cons] at ih ⊢
    tauto

theorem lt_of_mem_mergeEntries (hp : ∀ e ∈ ps, cmp k e.1 = .lt) (hc : ∀ e ∈ cs, cmp k e.1 = .lt) :
    ∀ e ∈ mergeEntries cmp ps cs, cmp k e.1 = .lt := by
  intro e he
  cases mem_keys_of_mem_mergeEntries he with
  | inl hmem =>
    obtain ⟨p, hp', heq⟩ := mem_map.mp hmem
    exact heq ▸ hp p hp'
  | inr hmem =>
    obtain ⟨c, hc', heq⟩ := mem_map.mp hmem
    exact heq ▸ hc c hc'

theorem not_mem_of_lt [LawfulEqCmp cmp] {l : List (K × W)} (h : ∀ e ∈ l, cmp k e.1 = .lt)
    (w : W) : (k, w) ∉ l :=
  fun hmem => lt_irrefl k (h _ hmem)

variable [TransCmp cmp]

theorem mergeEntries_cons_dropWhile (p : K × V) (ps : List (K × V)) (cs : List (K × Option V)) :
    mergeEntries cmp (p :: ps) (cs.dropWhile (fun c => c.2.isNone && (cmp c.1 p.1).isLT)) =
      mergeEntries cmp (p :: ps) cs := by
  induction cs with
  | nil => rfl
  | cons c cs ih =>
    by_cases hc : (c.2.isNone && (cmp c.1 p.1).isLT) = true
    · rw [dropWhile_cons, if_pos hc, ih]
      obtain ⟨hnone, hlt⟩ : c.2 = none ∧ cmp c.1 p.1 = .lt := by simpa using hc
      rw [mergeEntries_gt ps cs (gt_iff_lt.mpr hlt), hnone]
      rfl
    · rw [dropWhile_cons, if_neg hc]

/-- Everything behind the head of one listing, and of the other one when its
head is larger, is larger than that head. -/
theorem lt_of_mem_behind {c : K × W} {cs : List (K × W)} (hc : SortedBy cmp (c :: cs))
    (h : cmp k c.1 = .lt) : ∀ e ∈ c :: cs, cmp k e.1 = .lt := by
  intro e he
  rcases mem_cons.mp he with rfl | he
  · exact h
  · exact lt_trans h (hc.head_lt e he)

variable [LawfulEqCmp cmp]

theorem mergeEntries_sorted (hp : SortedBy cmp ps) (hc : SortedBy cmp cs) :
    SortedBy cmp (mergeEntries cmp ps cs) := by
  induction ps, cs using mergeEntries.induct cmp with
  | case1 => simpa using hp
  | case2 c cs ih =>
    rw [mergeEntries_nil_cons]
    exact (ih hp hc.tail).emit (lt_of_mem_mergeEntries (by simp) hc.head_lt)
  | case3 => simpa using hp
  | case4 p ps c cs h ih =>
    rw [mergeEntries_lt ps cs h]
    exact pairwise_cons.mpr
      ⟨lt_of_mem_mergeEntries hp.head_lt (lt_of_mem_behind hc h), ih hp.tail hc⟩
  | case5 p ps c cs h ih =>
    rw [mergeEntries_eq ps cs h]
    have hk : p.1 = c.1 := LawfulEqCmp.eq_of_compare h
    exact (ih hp.tail hc.tail).emit
      (lt_of_mem_mergeEntries (by rw [← hk]; exact hp.head_lt) hc.head_lt)
  | case6 p ps c cs h ih =>
    rw [mergeEntries_gt ps cs h]
    have hlt : cmp c.1 p.1 = .lt := gt_iff_lt.mp h
    exact (ih hp hc.tail).emit (lt_of_mem_mergeEntries (lt_of_mem_behind hp hlt) hc.head_lt)

/-- The merge holds the pending values, and the base entries without a pending
write. -/
theorem mem_mergeEntries (hp : SortedBy cmp ps) (hc : SortedBy cmp cs) (k : K) (v : V) :
    (k, v) ∈ mergeEntries cmp ps cs ↔ (k, some v) ∈ cs ∨ ((k, v) ∈ ps ∧ ∀ w, (k, w) ∉ cs) := by
  induction ps, cs using mergeEntries.induct cmp with
  | case1 => simp
  | case2 c cs ih =>
    rcases c with ⟨kc, wc⟩
    rw [mergeEntries_nil_cons, mem_emit, ih hp hc.tail]
    simp [eq_comm]
  | case3 => simp
  | case4 p ps c cs h ih =>
    rcases p with ⟨kp, vp⟩
    rw [mergeEntries_lt ps cs h, mem_cons, ih hp.tail hc]
    have hnot : ∀ w, (kp, w) ∉ c :: cs := not_mem_of_lt (lt_of_mem_behind hc h)
    by_cases hk : k = kp
    · subst hk
      simp [hnot]
    · simp [hk]
  | case5 p ps c cs h ih =>
    rcases p with ⟨kp, vp⟩
    rcases c with ⟨kc, wc⟩
    obtain rfl : kp = kc := LawfulEqCmp.eq_of_compare h
    rw [mergeEntries_eq ps cs h, mem_emit, ih hp.tail hc.tail]
    have hps : ∀ w, (kp, w) ∉ ps := not_mem_of_lt hp.head_lt
    have hcs : ∀ w, (kp, w) ∉ cs := not_mem_of_lt hc.head_lt
    by_cases hk : k = kp
    · subst hk
      simp [hps, hcs, eq_comm]
    · simp [hk]
  | case6 p ps c cs h ih =>
    rcases c with ⟨kc, wc⟩
    have hlt : cmp kc p.1 = .lt := gt_iff_lt.mp h
    rw [mergeEntries_gt ps cs h, mem_emit, ih hp hc.tail]
    have hps : ∀ w, (kc, w) ∉ p :: ps := not_mem_of_lt (lt_of_mem_behind hp hlt)
    have hcs : ∀ w, (kc, w) ∉ cs := not_mem_of_lt hc.head_lt
    by_cases hk : k = kc
    · subst hk
      simp only [hps, hcs, false_and, or_false, true_and, mem_cons, Prod.mk.injEq]
      exact ⟨fun h => h.symm, fun h => h.symm⟩
    · simp [hk]

end Merge

/-- Reading the base and the pending writes of a range side by side lists the
overlay of the range, in either direction. -/
theorem mergeEntries_rangeList [Ord K] [TransOrd K] [LawfulEqOrd K]
    (base : OrdMap K V) (pending : OrdMap K (Option V)) (start stop : Option K) (ascending : Bool) :
    mergeEntries (dirCompare ascending) (rangeList base start stop ascending)
        (rangeList pending start stop ascending) =
      rangeList (overlay base pending) start stop ascending := by
  have hb := rangeList_sorted base start stop ascending
  have hp := rangeList_sorted pending start stop ascending
  apply SortedBy.eq_of_mem_iff (mergeEntries_sorted hb hp) (rangeList_sorted _ _ _ _)
  rintro ⟨k, v⟩
  rw [mem_mergeEntries hb hp, mem_rangeList, mem_rangeList, mem_rangeList, getElem?_overlay]
  simp only [mem_rangeList]
  cases hk : pending[k]? with
  | some w | none => simp

end OrderedKV
