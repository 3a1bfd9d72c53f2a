import CosmosSDK.Store.MemIterator

/-!
# mergedIterator

The iterator of `server/v2/stf/branch/mergeiter.go`.  It keeps the current key
and value aside and its two iterators already stand behind them; `advance` takes
the next entry of the parent or of the child and drops deletions.
-/

namespace CosmosSDK.STF

open Std OrderedKV Option

/-- `mergedIterator`; it is valid when there is a current entry. -/
structure MergedIterator (ι κ K V : Type) where
  parent : ι
  child : κ
  ascending : Bool
  current : Option (K × V)
  /-- `errInvalidIterator` was recorded -/
  err : Bool

namespace MergedIterator

variable {ι κ K V : Type} [Ord K]

section Definitions

variable (P : Iterator ι K V) (C : Iterator κ K (Option V)) (ascending : Bool)

/-- One pass of the loop of `advance`: the entry taken and the iterators behind it. -/
def pick (p : ι) (c : κ) : Option ((K × Option V) × ι × κ) :=
  match P.entry p, C.entry c with
  | none, none => none
  | none, some entryC => some (entryC, p, C.next c)
  | some (keyP, valueP), none => some ((keyP, some valueP), P.next p, c)
  | some (keyP, valueP), some (keyC, valueC) =>
    match dirCompare ascending keyP keyC with
    | .lt => some ((keyP, some valueP), P.next p, c)
    | .eq => some ((keyC, valueC), P.next p, C.next c)
    | .gt => some ((keyC, valueC), p, C.next c)

variable {P C ascending} in
/-- The entry taken is the first one of the merge, and the iterators behind it list the others. -/
theorem pick_spec {p p' : ι} {c c' : κ} {k : K} {w : Option V}
    (h : pick P C ascending p c = some ((k, w), p', c')) :
    P.size p' + C.size c' < P.size p + C.size c ∧
      mergeEntries (dirCompare ascending) (P.toList p) (C.toList c) =
        emit k w (mergeEntries (dirCompare ascending) (P.toList p') (C.toList c')) := by
  unfold pick at h
  cases hp : P.entry p with
  | none =>
    cases hc : C.entry c with
    | none => simp [hp, hc] at h
    | some ec =>
      have hlc := C.next_size c ec hc
      simp only [hp, hc, some.injEq, Prod.mk.injEq] at h
      obtain ⟨rfl, rfl, rfl⟩ := h
      exact ⟨by omega, by simp [P.toList_of_none hp, C.toList_of_some hc]⟩
  | some ep =>
    have hlp := P.next_size p ep hp
    cases hc : C.entry c with
    | none =>
      simp only [hp, hc, some.injEq, Prod.mk.injEq] at h
      obtain ⟨⟨rfl, rfl⟩, rfl, rfl⟩ := h
      exact ⟨by omega, by simp [P.toList_of_some hp, C.toList_of_none hc, emit]⟩
    | some ec =>
      have hlc := C.next_size c ec hc
      simp only [hp, hc] at h
      rw [P.toList_of_some hp, C.toList_of_some hc]
      cases hcmp : dirCompare ascending ep.1 ec.1 with
      | lt =>
        simp only [hcmp, some.injEq, Prod.mk.injEq] at h
        obtain ⟨⟨rfl, rfl⟩, rfl, rfl⟩ := h
        rw [mergeEntries_lt _ _ hcmp, C.toList_of_some hc]
        exact ⟨by omega, rfl⟩
      | eq =>
        simp only [hcmp, some.injEq, Prod.mk.injEq] at h
        obtain ⟨⟨rfl, rfl⟩, rfl, rfl⟩ := h
        exact ⟨by omega, mergeEntries_eq _ _ hcmp⟩
      | gt =>
        simp only [hcmp, some.injEq, Prod.mk.injEq] at h
        obtain ⟨⟨rfl, rfl⟩, rfl, rfl⟩ := h
        rw [mergeEntries_gt _ _ hcmp, P.toList_of_some hp]
        exact ⟨by omega, rfl⟩

variable {P C ascending} in
theorem pick_size {p p' : ι} {c c' : κ} {e : K × Option V}
    (h : pick P C ascending p c = some (e, p', c')) :
    P.size p' + C.size c' < P.size p + C.size c :=
  (pick_spec h).1

/-- `advance`: deletions are skipped. -/
def advance (p : ι) (c : κ) : ι × κ × Option (K × V) :=
  match _h : pick P C ascending p c with
  | none => (p, c, none)
  | some ((_, none), p', c') => advance p' c'
  | some ((key, some value), p', c') => (p', c', some (key, value))
termination_by P.size p + C.size c
decreasing_by exact pick_size _h

/-- `mergeIterators`. -/
def new (p : ι) (c : κ) : MergedIterator ι κ K V :=
  let r := advance P C ascending p c
  { parent := r.1, child := r.2.1, ascending := ascending, current := r.2.2, err := false }

def next (it : MergedIterator ι κ K V) : MergedIterator ι κ K V :=
  if it.current.isSome then
    let r := advance P C it.ascending it.parent it.child
    { it with parent := r.1, child := r.2.1, current := r.2.2 }
  else { it with err := true }

end Definitions

variable {P : Iterator ι K V} {C : Iterator κ K (Option V)} {ascending : Bool}

variable (P C ascending) in
theorem advance_size (p : ι) (c : κ) :
    P.size (advance P C ascending p c).1 + C.size (advance P C ascending p c).2.1 +
        (if (advance P C ascending p c).2.2.isSome then 1 else 0) ≤ P.size p + C.size c := by
  fun_induction advance P C ascending p c with
  | case1 p c h => simp
  | case2 p c k p' c' h ih =>
    have hlt := pick_size h
    omega
  | case3 p c k v p' c' h =>
    have hlt := pick_size h
    simp only [isSome_some, if_true]
    omega

variable (P C) in
/-- The step iterator a `mergedIterator` implements. -/
def iterator : Iterator (MergedIterator ι κ K V) K V where
  entry it := it.current
  next := next P C
  size it := P.size it.parent + C.size it.child + (if it.current.isSome then 1 else 0)
  next_size := by
    intro it e h
    have hle := advance_size P C it.ascending it.parent it.child
    simp only [next, h, isSome_some, if_true]
    omega

theorem merge_of_pick_none {p : ι} {c : κ} (h : pick P C ascending p c = none) :
    mergeEntries (dirCompare ascending) (P.toList p) (C.toList c) = [] := by
  unfold pick at h
  cases hp : P.entry p with
  | none =>
    cases hc : C.entry c with
    | none => simp [P.toList_of_none hp, C.toList_of_none hc]
    | some => simp [hp, hc] at h
  | some =>
    cases hc : C.entry c with
    | none => simp [hp, hc] at h
    | some =>
      simp only [hp, hc] at h
      split at h <;> simp at h

theorem merge_of_advance (p : ι) (c : κ) :
    mergeEntries (dirCompare ascending) (P.toList p) (C.toList c) =
      match (advance P C ascending p c).2.2 with
      | none => []
      | some e => e :: mergeEntries (dirCompare ascending)
          (P.toList (advance P C ascending p c).1) (C.toList (advance P C ascending p c).2.1) := by
  fun_induction advance P C ascending p c with
  | case1 p c h => exact merge_of_pick_none h
  | case2 p c k p' c' h ih => rw [(pick_spec h).2, emit, ih]
  | case3 p c k v p' c' h => rw [(pick_spec h).2, emit]

/-- What a merged iterator still has to list. -/
def rest (P : Iterator ι K V) (C : Iterator κ K (Option V)) (it : MergedIterator ι κ K V) :
    List (K × V) :=
  match it.current with
  | none => []
  | some e => e :: mergeEntries (dirCompare it.ascending) (P.toList it.parent) (C.toList it.child)

theorem toList_new (p : ι) (c : κ) : (iterator P C).toList (new P C ascending p c) =
      mergeEntries (dirCompare ascending) (P.toList p) (C.toList c) := by
  have hnew : rest P C (new P C ascending p c) =
      mergeEntries (dirCompare ascending) (P.toList p) (C.toList c) :=
    (merge_of_advance p c).symm
  rw [← hnew]
  apply (iterator P C).toList_eq fun _ => True
  · intro it _
    cases hc : it.current <;> simp [iterator, rest, hc]
  · intro it e _ he
    have hcur : it.current = some e := he
    refine ⟨trivial, ?_⟩
    simp only [iterator, next, hcur, isSome_some, if_true, rest, List.tail_cons]
    exact (merge_of_advance it.parent it.child).symm
  · trivial

end MergedIterator

end CosmosSDK.STF
