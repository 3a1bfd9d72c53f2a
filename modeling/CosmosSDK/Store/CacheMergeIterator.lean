import CosmosSDK.Store.MemIterator

/-!
# cacheMergeIterator

The iterator of `store/cachekv/internal/mergeiterator.go`: it peeks at a parent
iterator and at an iterator over cached writes, in which a `nil` value is a
deletion, and steps over what the cache deletes.
-/

namespace CosmosSDK.Store

open Std OrderedKV

structure CacheMergeIterator (ι κ : Type) where
  parent : ι
  cache : κ
  ascending : Bool
  valid : Bool

namespace CacheMergeIterator

variable {ι κ K V : Type} [Ord K]

section Definitions

variable (P : Iterator ι K V) (C : Iterator κ K (Option V)) (ascending : Bool)

/-- `skipCacheDeletes(nil)`. -/
def skipCacheDeletes (c : κ) : κ :=
  C.skipWhile (fun e => e.2.isNone) c

/-- `skipCacheDeletes(until)`. -/
def skipCacheDeletesUntil (bound : K) (c : κ) : κ :=
  C.skipWhile (fun e => e.2.isNone && (dirCompare ascending e.1 bound).isLT) c

/-- `skipUntilExistsOrInvalid`: both iterators fast-forwarded, and whether the
merged iterator is valid. -/
def skipUntilExistsOrInvalid [TransOrd K] (p : ι) (c : κ) : ι × κ × Bool :=
  match _hp : P.entry p with
  | none => (p, skipCacheDeletes C c, (C.entry (skipCacheDeletes C c)).isSome)
  | some (keyP, _) =>
    match _hc : C.entry c with
    | none => (p, c, true)
    | some (keyC, valueC) =>
      match _h : dirCompare ascending keyP keyC, valueC with
      | .lt, _ => (p, c, true)
      -- both stand on the key: a deletion hides the parent's entry
      | .eq, none => skipUntilExistsOrInvalid (P.next p) (C.next c)
      | .eq, some _ => (p, c, true)
      | .gt, none => skipUntilExistsOrInvalid p (skipCacheDeletesUntil C ascending keyP c)
      | .gt, some _ => (p, c, true)
termination_by P.size p + C.size c
decreasing_by
  · have hlp := P.next_size p _ _hp
    have hlc := C.next_size c _ _hc
    omega
  · have hlt := OrientedCmp.gt_iff_lt.mp _h
    have hlc := C.size_skipWhile_lt
      (fun e => e.2.isNone && (dirCompare ascending e.1 keyP).isLT) _hc (by simp [hlt])
    exact Nat.add_lt_add_left hlc _

/-- `NewCacheMergeIterator`. -/
def new [TransOrd K] (p : ι) (c : κ) : CacheMergeIterator ι κ :=
  let r := skipUntilExistsOrInvalid P C ascending p c
  { parent := r.1, cache := r.2.1, ascending := ascending, valid := r.2.2 }

/-- What `Key` and `Value` read from the two current entries. -/
def peek (p : ι) (c : κ) : Option (K × V) :=
  match P.entry p, C.entry c with
  | none, none => none
  | none, some (keyC, valueC) => valueC.map (keyC, ·)
  | some e, none => some e
  | some (keyP, valueP), some (keyC, valueC) =>
    match dirCompare ascending keyP keyC with
    | .lt => some (keyP, valueP)
    | .eq => valueC.map (keyP, ·)
    | .gt => valueC.map (keyC, ·)

/-- The step of `Next` before it skips. -/
def advance (p : ι) (c : κ) : ι × κ :=
  match P.entry p, C.entry c with
  | none, _ => (p, C.next c)
  | some _, none => (P.next p, c)
  | some (keyP, _), some (keyC, _) =>
    match dirCompare ascending keyP keyC with
    | .lt => (P.next p, c)
    | .eq => (P.next p, C.next c)
    | .gt => (p, C.next c)

def entry (it : CacheMergeIterator ι κ) : Option (K × V) :=
  if it.valid then peek P C it.ascending it.parent it.cache else none

/-- `Next`; on an invalid iterator the source panics and the state stays. -/
def next [TransOrd K] (it : CacheMergeIterator ι κ) : CacheMergeIterator ι κ :=
  if it.valid then
    let moved := advance P C it.ascending it.parent it.cache
    new P C it.ascending moved.1 moved.2
  else it

end Definitions

section Listing

variable {P : Iterator ι K V} {C : Iterator κ K (Option V)} {ascending : Bool}

theorem advance_size_lt {p : ι} {c : κ} {e : K × V} (h : peek P C ascending p c = some e) :
    P.size (advance P C ascending p c).1 + C.size (advance P C ascending p c).2 <
      P.size p + C.size c := by
  cases hp : P.entry p with
  | none =>
    cases hc : C.entry c with
    | none => simp [peek, hp, hc] at h
    | some ec =>
      have hlc := C.next_size c ec hc
      simp only [advance, hp]
      omega
  | some ep =>
    have hlp := P.next_size p ep hp
    cases hc : C.entry c with
    | none =>
      simp only [advance, hp, hc]
      omega
    | some ec =>
      have hlc := C.next_size c ec hc
      simp only [advance, hp, hc]
      split <;> simp only <;> omega

omit [Ord K] in
theorem live_of_skipCacheDeletes {c : κ} {e : K × Option V}
    (h : C.entry (skipCacheDeletes C c) = some e) : ∃ v, e.2 = some v := by
  have hhead : ((C.toList c).dropWhile fun e => e.2.isNone).head? = some e := by
    rw [← C.toList_skipWhile, ← C.entry_eq_head?]
    exact h
  have hlive := List.head?_dropWhile_not (fun e : K × Option V => e.2.isNone) (C.toList c)
  rw [hhead] at hlive
  exact Option.isSome_iff_exists.mp (by simpa using hlive)

variable [TransOrd K]

theorem skip_size_le (p : ι) (c : κ) : P.size (skipUntilExistsOrInvalid P C ascending p c).1 +
        C.size (skipUntilExistsOrInvalid P C ascending p c).2.1 ≤ P.size p + C.size c := by
  fun_induction skipUntilExistsOrInvalid P C ascending p c with
  | case1 p c hp => exact Nat.add_le_add_left (C.size_skipWhile_le _ c) _
  | case4 p c kp vp hp kc _ h hc ih =>
    have hlp := P.next_size p _ hp
    have hlc := C.next_size c _ hc
    omega
  | case6 p c kp vp hp kc _ h hc ih =>
    have hlc := C.size_skipWhile_le
      (fun e => e.2.isNone && (dirCompare ascending e.1 kp).isLT) c
    exact Nat.le_trans ih (Nat.add_le_add_left hlc _)
  | _ => exact Nat.le_refl _

variable (P C) in
/-- The step iterator a `cacheMergeIterator` implements. -/
def iterator : Iterator (CacheMergeIterator ι κ) K V where
  entry := entry P C
  next := next P C
  size it := P.size it.parent + C.size it.cache
  next_size := by
    intro it e h
    simp only [entry] at h
    split at h
    · rename_i hv
      simp only [next, hv, if_true, new]
      exact Nat.lt_of_le_of_lt (skip_size_le _ _) (advance_size_lt h)
    · simp at h

theorem skip_merge (p : ι) (c : κ) : mergeEntries (dirCompare ascending)
        (P.toList (skipUntilExistsOrInvalid P C ascending p c).1)
        (C.toList (skipUntilExistsOrInvalid P C ascending p c).2.1) =
      mergeEntries (dirCompare ascending) (P.toList p) (C.toList c) := by
  fun_induction skipUntilExistsOrInvalid P C ascending p c with
  | case1 p c hp =>
    simp only [skipCacheDeletes, P.toList_of_none hp, C.toList_skipWhile]
    exact mergeEntries_nil_dropWhile _
  | case4 p c kp vp hp kc _ h hc ih =>
    rw [ih, P.toList_of_some hp, C.toList_of_some hc, mergeEntries_eq _ _ h]
    rfl
  | case6 p c kp vp hp kc _ h hc ih =>
    rw [ih, P.toList_of_some hp]
    simp only [skipCacheDeletesUntil, C.toList_skipWhile]
    exact mergeEntries_cons_dropWhile (kp, vp) _ _
  | _ => rfl

theorem skip_valid (p : ι) (c : κ) (h : (skipUntilExistsOrInvalid P C ascending p c).2.2 = true) :
    ∃ e, peek P C ascending (skipUntilExistsOrInvalid P C ascending p c).1
      (skipUntilExistsOrInvalid P C ascending p c).2.1 = some e := by
  fun_induction skipUntilExistsOrInvalid P C ascending p c with
  | case1 p c hp =>
    obtain ⟨e, he⟩ := Option.isSome_iff_exists.mp h
    obtain ⟨v, hv⟩ := live_of_skipCacheDeletes he
    exact ⟨(e.1, v), by simp [peek, hp, he, hv]⟩
  | case2 p c kp vp hp hc => exact ⟨(kp, vp), by simp [peek, hp, hc]⟩
  | case3 p c kp vp hp kc vc _ hcmp hc => exact ⟨(kp, vp), by simp [peek, hp, hc, hcmp]⟩
  | case4 p c kp vp hp kc _ _ hc ih => exact ih h
  | case5 p c kp vp hp kc v _ hcmp hc => exact ⟨(kp, v), by simp [peek, hp, hc, hcmp]⟩
  | case6 p c kp vp hp kc _ _ hc ih => exact ih h
  | case7 p c kp vp hp kc v _ hcmp hc => exact ⟨(kc, v), by simp [peek, hp, hc, hcmp]⟩

theorem skip_invalid (p : ι) (c : κ)
    (h : (skipUntilExistsOrInvalid P C ascending p c).2.2 = false) :
    mergeEntries (dirCompare ascending) (P.toList p) (C.toList c) = [] := by
  rw [← skip_merge]
  fun_induction skipUntilExistsOrInvalid P C ascending p c with
  | case1 p c hp =>
    have hc : C.entry (skipCacheDeletes C c) = none := by simpa using h
    simp [P.toList_of_none hp, C.toList_of_none hc]
  | case4 p c kp vp hp kc _ _ hc ih | case6 p c kp vp hp kc _ _ hc ih => exact ih h
  | _ => simp at h

def rest (P : Iterator ι K V) (C : Iterator κ K (Option V)) (it : CacheMergeIterator ι κ) :
    List (K × V) :=
  if it.valid then
    mergeEntries (dirCompare it.ascending) (P.toList it.parent) (C.toList it.cache)
  else []

theorem rest_new (p : ι) (c : κ) : rest P C (new P C ascending p c) =
      mergeEntries (dirCompare ascending) (P.toList p) (C.toList c) := by
  simp only [rest]
  split
  · exact skip_merge p c
  · rename_i hv
    exact (skip_invalid p c (by simpa [new] using hv)).symm

variable [LawfulEqOrd K]

omit [TransOrd K] in
/-- A peeked entry is the first one that remains, and `advance` leaves the others. -/
theorem merge_of_peek {p : ι} {c : κ} {e : K × V} (h : peek P C ascending p c = some e) :
    mergeEntries (dirCompare ascending) (P.toList p) (C.toList c) =
      e :: mergeEntries (dirCompare ascending) (P.toList (advance P C ascending p c).1)
        (C.toList (advance P C ascending p c).2) := by
  cases hp : P.entry p with
  | none =>
    cases hc : C.entry c with
    | none => simp [peek, hp, hc] at h
    | some ec =>
      obtain ⟨v, hv, rfl⟩ : ∃ v, ec.2 = some v ∧ (ec.1, v) = e := by
        simpa [peek, hp, hc] using h
      simp [advance, hp, P.toList_of_none hp, C.toList_of_some hc, hv, emit]
  | some ep =>
    cases hc : C.entry c with
    | none =>
      obtain rfl : ep = e := by simpa [peek, hp, hc] using h
      simp [advance, hp, hc, P.toList_of_some hp, C.toList_of_none hc]
    | some ec =>
      simp only [advance, peek, hp, hc] at h ⊢
      rw [P.toList_of_some hp, C.toList_of_some hc]
      cases hcmp : dirCompare ascending ep.1 ec.1 with
      | lt =>
        obtain rfl : ep = e := by simpa [hcmp] using h
        rw [mergeEntries_lt _ _ hcmp, C.toList_of_some hc]
      | eq =>
        obtain ⟨v, hv, rfl⟩ : ∃ v, ec.2 = some v ∧ (ep.1, v) = e := by
          simpa [hcmp] using h
        rw [mergeEntries_eq _ _ hcmp, hv, eq_of_cmp hcmp]
        rfl
      | gt =>
        obtain ⟨v, hv, rfl⟩ : ∃ v, ec.2 = some v ∧ (ec.1, v) = e := by
          simpa [hcmp] using h
        rw [mergeEntries_gt _ _ hcmp, hv, P.toList_of_some hp]
        rfl

theorem toList_new (p : ι) (c : κ) : (iterator P C).toList (new P C ascending p c) =
      mergeEntries (dirCompare ascending) (P.toList p) (C.toList c) := by
  rw [← rest_new]
  apply (iterator P C).toList_eq fun it => it.valid = true →
    ∃ e, peek P C it.ascending it.parent it.cache = some e
  · intro it hpeek
    cases hv : it.valid with
    | false => simp [iterator, entry, rest, hv]
    | true =>
      obtain ⟨e, he⟩ := hpeek hv
      simp [iterator, entry, rest, hv, he, merge_of_peek he]
  · intro it e hpeek hentry
    have hv : it.valid = true := by
      by_contra hv
      simp [iterator, entry, hv] at hentry
    obtain ⟨e, he⟩ := hpeek hv
    have hnext : (iterator P C).next it = new P C it.ascending
        (advance P C it.ascending it.parent it.cache).1
        (advance P C it.ascending it.parent it.cache).2 := by
      simp [iterator, next, hv]
    rw [hnext]
    refine ⟨skip_valid _ _, ?_⟩
    rw [rest_new, rest, if_pos hv, merge_of_peek he]
    rfl
  · exact skip_valid p c

end Listing

end CacheMergeIterator

end CosmosSDK.Store
