import CosmosSDK.Store.CacheKV.Store

/-!
# The cache refines an overlay

The content of a cache is the content of its parent overlaid with the pending
writes.  The invariant relates the four fields of a `Store`: clean entries agree
with the parent, and a pending write is current in the tree or its key is still
unsorted.  With it a cache over a modelled store is a modelled store.
-/

namespace CosmosSDK.CacheKV

open Std OrderedKV CosmosSDK.Store List ExtTreeMap MemIterator CacheMergeIterator

variable {σ ι : Type}

def pending (s : Store σ) : OrdMap Bytes (Option Bytes) :=
  s.cache.filterMap (fun _ cv => if cv.dirty then some cv.value else none)

theorem getElem?_pending (s : Store σ) (k : Bytes) :
    (pending s)[k]? = s.cache[k]?.bind (fun cv => if cv.dirty then some cv.value else none) := by
  simp [pending]

def ValidWrite (key : Bytes) (value : Option Bytes) : Prop :=
  assertValidKey key = .ok () ∧ ∀ v, value = some v → assertValidValue (some v) = .ok ()

structure CacheInv {P : KVStore σ ι} (M : P.Model) (s : Store σ) : Prop where
  parent : M.inv s.parent
  clean : ∀ {k : Bytes} {cv : CValue}, s.cache[k]? = some cv → cv.dirty = false →
    cv.value = (M.view s.parent)[k]?
  valid : ∀ {k : Bytes} {w : Option Bytes}, (pending s)[k]? = some w → ValidWrite k w
  unsorted : ∀ {k : Bytes}, k ∈ s.unsortedCache → k ∈ pending s
  sorted : ∀ {k : Bytes}, k ∈ s.sortedCache → k ∈ pending s
  current : ∀ {k : Bytes}, k ∈ pending s → k ∉ s.unsortedCache → s.sortedCache[k]? = (pending s)[k]?

def view {P : KVStore σ ι} (M : P.Model) (s : Store σ) : KVMap :=
  overlay (M.view s.parent) (pending s)

section

variable {P : KVStore σ ι} (M : P.Model)

theorem pending_newStore (p : σ) : pending (newStore p) = ∅ := by
  apply ExtTreeMap.ext_getElem?
  intro k
  simp [getElem?_pending, newStore]

variable {p : σ} {s : Store σ} {k key : Bytes} {start stop : Option Bytes}

theorem inv_newStore (hp : M.inv p) : CacheInv M (newStore p) where
  parent := hp
  clean := by simp [newStore]
  valid := by simp [pending_newStore]
  unsorted := by simp [newStore]
  sorted := by simp [newStore]
  current := by simp [pending_newStore]

theorem view_newStore (p : σ) : view M (newStore p) = M.view p := by
  simp only [view, pending_newStore, overlay_empty]
  rfl

theorem view_of_cached (h : CacheInv M s) {cv : CValue} (hk : s.cache[k]? = some cv) :
    (view M s)[k]? = cv.value := by
  rw [view, getElem?_overlay, getElem?_pending, hk]
  cases hd : cv.dirty with
  | true => simp [hd]
  | false => simp [hd, h.clean hk hd]

theorem view_of_not_cached (hk : s.cache[k]? = none) : (view M s)[k]? = (M.view s.parent)[k]? := by
  rw [view, getElem?_overlay, getElem?_pending, hk]
  rfl

/-! ## setCacheValue -/

theorem pending_set_dirty (s : Store σ) (k : Bytes) (w : Option Bytes) :
    pending (setCacheValue s k w true) = (pending s).insert k w := by
  apply ExtTreeMap.ext_getElem?
  intro a
  rw [getElem?_pending, ExtTreeMap.getElem?_insert, getElem?_pending]
  simp only [setCacheValue, ExtTreeMap.getElem?_insert]
  split <;> simp

theorem pending_set_clean (hk : s.cache[k]? = none) (w : Option Bytes) :
    pending (setCacheValue s k w false) = pending s := by
  apply ExtTreeMap.ext_getElem?
  intro a
  rw [getElem?_pending, getElem?_pending]
  simp only [setCacheValue, ExtTreeMap.getElem?_insert]
  split
  · rename_i h
    rw [← eq_of_cmp h, hk]
    simp
  · rfl

theorem inv_set_dirty (h : CacheInv M s) {w : Option Bytes} (hw : ValidWrite k w) :
    CacheInv M (setCacheValue s k w true) := by
  have hp := pending_set_dirty s k w
  refine ⟨h.parent, ?_, ?_, ?_, ?_, ?_⟩
  · intro a cv ha hd
    simp only [setCacheValue, ExtTreeMap.getElem?_insert] at ha
    split at ha
    · cases ha
      simp at hd
    · exact h.clean ha hd
  · intro a x ha
    rw [hp, ExtTreeMap.getElem?_insert] at ha
    split at ha
    · rename_i hka
      cases ha
      rw [← eq_of_cmp hka]
      exact hw
    · exact h.valid ha
  · intro a ha
    rw [hp, mem_insert]
    simp only [setCacheValue, if_true, mem_insert] at ha
    exact ha.imp_right h.unsorted
  · intro a ha
    rw [hp, mem_insert]
    exact .inr (h.sorted ha)
  · intro a ha hu
    simp only [setCacheValue, if_true, mem_insert, not_or] at hu
    rw [hp, mem_insert] at ha
    rw [hp, ExtTreeMap.getElem?_insert, if_neg hu.1]
    exact h.current (ha.resolve_left hu.1) hu.2

theorem inv_set_clean (h : CacheInv M s) (hk : s.cache[k]? = none) :
    CacheInv M (setCacheValue s k (M.view s.parent)[k]? false) := by
  have hp := pending_set_clean hk (M.view s.parent)[k]?
  refine ⟨h.parent, ?_, ?_, ?_, ?_, ?_⟩
  · intro a cv ha hd
    simp only [setCacheValue, ExtTreeMap.getElem?_insert] at ha
    split at ha
    · rename_i hka
      cases ha
      rw [eq_of_cmp hka]
      rfl
    · exact h.clean ha hd
  · rw [hp]
    exact h.valid
  · rw [hp]
    exact h.unsorted
  · rw [hp]
    exact h.sorted
  · rw [hp]
    exact h.current

theorem inv_parent (h : CacheInv M s) (hp : M.inv p) (hv : M.view p = M.view s.parent) :
    CacheInv M { s with parent := p } where
  parent := hp
  clean := by
    intro k cv hk hd
    rw [hv]
    exact h.clean hk hd
  valid := h.valid
  unsorted := h.unsorted
  sorted := h.sorted
  current := h.current

/-! ## dirtyItems -/

section Sorting

variable {s : Store σ} {keys : List Bytes} {k : Bytes}

theorem mem_unsorted_clear (hnd : keys.Nodup) (hsub : ∀ k ∈ keys, k ∈ s.unsortedCache) :
    k ∈ (clearUnsortedCacheSubset s (keys.map (dirtyPair s))).unsortedCache ↔
      k ∈ s.unsortedCache ∧ k ∉ keys := by
  simp only [clearUnsortedCacheSubset, length_map]
  split
  · rename_i hlen
    refine ⟨fun h => absurd h not_mem_empty, fun h => ?_⟩
    exact absurd (mem_of_length_eq_size hnd hsub hlen h.1) h.2
  · rw [mem_iff_isSome_getElem?, lookup_foldl_erase]
    have hmap : (keys.map (dirtyPair s)).map Prod.fst = keys := by simp [dirtyPair, Function.comp_def]
    rw [hmap]
    by_cases hk : k ∈ keys <;> simp [hk]

theorem getElem?_sorted_clear (k : Bytes) :
    (clearUnsortedCacheSubset s (keys.map (dirtyPair s))).sortedCache[k]? =
      if k ∈ keys then some (s.cache[k]?.bind (·.value)) else s.sortedCache[k]? := by
  have hlookup := lookup_insertAll_map (fun k => s.cache[k]?.bind (·.value)) keys s.sortedCache k
  by_cases hk : k ∈ keys
  · rw [if_pos hk] at hlookup ⊢
    exact hlookup
  · rw [if_neg hk] at hlookup ⊢
    exact hlookup

theorem collected_eq (hk : k ∈ pending s) :
    some (s.cache[k]?.bind (·.value)) = (pending s)[k]? := by
  rw [mem_iff_isSome_getElem?, getElem?_pending] at hk
  rw [getElem?_pending]
  cases hc : s.cache[k]? with
  | none => simp [hc] at hk
  | some cv =>
    cases hd : cv.dirty with
    | false => simp [hc, hd] at hk
    | true => simp [hd]

theorem inv_clear (h : CacheInv M s) (hnd : keys.Nodup) (hsub : ∀ k ∈ keys, k ∈ s.unsortedCache) :
    CacheInv M (clearUnsortedCacheSubset s (keys.map (dirtyPair s))) := by
  refine ⟨h.parent, h.clean, h.valid, ?_, ?_, ?_⟩
  · intro k hk
    exact h.unsorted ((mem_unsorted_clear hnd hsub).mp hk).1
  · intro k hk
    by_cases hkeys : k ∈ keys
    · exact h.unsorted (hsub k hkeys)
    · rw [mem_iff_isSome_getElem?, getElem?_sorted_clear, if_neg hkeys,
        ← mem_iff_isSome_getElem?] at hk
      exact h.sorted hk
  · intro k hk hu
    have hk : k ∈ pending s := hk
    rw [getElem?_sorted_clear]
    by_cases hkeys : k ∈ keys
    · rw [if_pos hkeys]
      exact collected_eq hk
    · rw [if_neg hkeys]
      exact h.current hk fun hk' => hu ((mem_unsorted_clear hnd hsub).mpr ⟨hk', hkeys⟩)

end Sorting

theorem not_inRange_of_gt (hstop : stop.isSome = true)
    (h : compare (start.getD []) (stop.getD []) = .gt) (k : Bytes) :
    inRange start stop k = false := by
  obtain ⟨e, rfl⟩ := Option.isSome_iff_exists.mp hstop
  have hlt := OrientedCmp.gt_iff_lt.mp h
  by_contra hr
  obtain ⟨hfrom, hbefore⟩ : fromStart start k = true ∧ beforeStop (some e) k = true := by
    simpa [inRange] using hr
  have hke : compare k e = .lt := by simpa [beforeStop] using hbefore
  exact not_lt_of_fromStart hfrom (TransCmp.lt_trans hke hlt)

theorem isKeyInDomain_of_inRange (h : inRange start stop k = true) :
    isKeyInDomain k start stop = true := by
  obtain ⟨hfrom, hbefore⟩ : fromStart start k = true ∧ beforeStop stop k = true := by
    simpa [inRange] using h
  unfold isKeyInDomain
  rw [if_neg (not_lt_of_fromStart hfrom)]
  cases stop with
  | none => rfl
  | some e =>
    have hke : compare k e = .lt := by simpa [beforeStop] using hbefore
    simp [OrientedCmp.gt_iff_lt.mpr hke]

theorem keysBetween_sublist (strL : List Bytes) (window : Int × Int) :
    (keysBetween strL window).Sublist strL :=
  (take_sublist _ _).trans (drop_sublist _ _)

theorem mem_keysBetween {strL : List Bytes} {window : Int × Int} {i : Nat} {x : Bytes}
    (hx : strL[i]? = some x) (hlo : window.1 ≤ i) (hhi : (i : Int) ≤ window.2) :
    x ∈ keysBetween strL window := by
  apply mem_of_getElem? (i := i - window.1.toNat)
  rw [keysBetween, List.getElem?_take_of_lt (by omega), List.getElem?_drop]
  rw [show window.1.toNat + (i - window.1.toNat) = i by omega]
  exact hx

theorem dirtyItems_cases (s : Store σ) (start stop : Option Bytes) :
    (dirtyItems s start stop = s ∧ ∀ k, inRange start stop k = false) ∨
    ∃ keys : List Bytes, keys.Sublist s.unsortedCache.keys ∧
      dirtyItems s start stop = clearUnsortedCacheSubset s (keys.map (dirtyPair s)) ∧
      ∀ k ∈ s.unsortedCache, inRange start stop k = true → k ∈ keys := by
  unfold dirtyItems
  split
  · rename_i h
    exact .inl ⟨rfl, not_inRange_of_gt h.1 h.2⟩
  · right
    split
    · refine ⟨_, filter_sublist, rfl, ?_⟩
      intro k hk hr
      exact mem_filter.mpr ⟨mem_keys.mpr hk, isKeyInDomain_of_inRange hr⟩
    · refine ⟨_, keysBetween_sublist _ _, rfl, ?_⟩
      intro k hk hr
      obtain ⟨i, hi⟩ := mem_iff_getElem?.mp (mem_keys.mpr hk)
      have hw := sortWindow_covers ordered_keys hi hr
      exact mem_keysBetween hi hw.1 hw.2

section

variable (h : CacheInv M s)
include h

/-- `dirtyItems` changes neither the cached values nor the parent, and leaves no
unsorted key in the domain. -/
theorem dirtyItems_spec (start stop : Option Bytes) : CacheInv M (dirtyItems s start stop) ∧
      pending (dirtyItems s start stop) = pending s ∧ (dirtyItems s start stop).parent = s.parent ∧
      ∀ k, inRange start stop k = true → k ∉ (dirtyItems s start stop).unsortedCache := by
  rcases dirtyItems_cases s start stop with ⟨heq, hempty⟩ | ⟨keys, hsub, heq, hall⟩
  · rw [heq]
    refine ⟨h, rfl, rfl, ?_⟩
    intro k hr
    rw [hempty k] at hr
    exact absurd hr (by decide)
  · have hnd : keys.Nodup := hsub.nodup nodup_keys
    have hmem : ∀ k ∈ keys, k ∈ s.unsortedCache :=
      fun k hk => mem_keys.mp (hsub.subset hk)
    rw [heq]
    refine ⟨inv_clear M h hnd hmem, rfl, rfl, ?_⟩
    intro k hr hk
    obtain ⟨hu, hnot⟩ := (mem_unsorted_clear hnd hmem).mp hk
    exact hnot (hall k hu hr)

/-- In the domain the tree then holds exactly the pending writes. -/
theorem sorted_eq_pending (hk : k ∉ s.unsortedCache) : s.sortedCache[k]? = (pending s)[k]? := by
  by_cases hp : k ∈ pending s
  · exact h.current hp hk
  · have hs : k ∉ s.sortedCache := fun hs => hp (h.sorted hs)
    rw [ExtTreeMap.getElem?_eq_none hs, ExtTreeMap.getElem?_eq_none hp]

/-! ## The calls -/

variable (hk : assertValidKey key = .ok ())
include hk

theorem get_spec :
    (get P key s).1 = .ok (view M s)[key]? ∧ CacheInv M (get P key s).2 ∧
      pending (get P key s).2 = pending s ∧ M.view (get P key s).2.parent = M.view s.parent := by
  simp only [get, hk]
  cases hc : s.cache[key]? with
  | some => exact ⟨by rw [view_of_cached M h hc], h, rfl, rfl⟩
  | none =>
    obtain ⟨hres, hinv, hview⟩ := M.get_spec h.parent hk
    rw [view_of_not_cached M hc]
    rcases hp : P.get key s.parent with ⟨r, p⟩
    rw [hp] at hres hinv hview
    obtain rfl : r = .ok (M.view s.parent)[key]? := hres
    have hs := inv_parent M h hinv hview
    have hset := inv_set_clean M hs hc
    simp only at hview hset ⊢
    rw [hview] at hset
    refine ⟨trivial, hset, ?_, hview⟩
    exact pending_set_clean hc _

theorem set_spec {value : Bytes} (hv : assertValidValue (some value) = .ok ()) :
    (set key (some value) s).1 = .ok () ∧ CacheInv M (set key (some value) s).2 ∧
      pending (set key (some value) s).2 = (pending s).insert key (some value) ∧
      (set key (some value) s).2.parent = s.parent := by
  simp only [set, hk, hv]
  refine ⟨trivial, inv_set_dirty M h ⟨hk, ?_⟩, pending_set_dirty s key (some value), rfl⟩
  rintro v ⟨⟩
  exact hv

theorem delete_spec :
    (delete key s).1 = .ok () ∧ CacheInv M (delete key s).2 ∧
      pending (delete key s).2 = (pending s).insert key none ∧
      (delete key s).2.parent = s.parent := by
  simp only [delete, hk]
  refine ⟨trivial, inv_set_dirty M h ⟨hk, ?_⟩, pending_set_dirty s key none, rfl⟩
  rintro v ⟨⟩

end

theorem keyInRange_checks : MemIterator.Checks keyInRange where
  ascending _ _ _ _ := by simp [keyInRange, any_isGE]
  descending _ _ _ _ := by simp [keyInRange, any_isLT]

/-- Opening an iterator never changes the content, also when it panics. -/
theorem iterator_state (h : CacheInv M s) (start stop : Option Bytes) (ascending : Bool) :
    CacheInv M (iterator P start stop ascending s).2 ∧
      pending (iterator P start stop ascending s).2 = pending s ∧
      M.view (iterator P start stop ascending s).2.parent = M.view s.parent := by
  obtain ⟨hinv, hpend, hparent, _⟩ := dirtyItems_spec M h start stop
  obtain ⟨hinv', hview'⟩ := M.iterator_state start stop ascending hinv.parent
  simp only [iterator]
  rcases hp : P.iterator start stop ascending (dirtyItems s start stop).parent with ⟨r, p⟩
  rw [hp] at hinv' hview'
  have hs := inv_parent M hinv hinv' hview'
  have hview : M.view p = M.view s.parent := by rw [← hparent]; exact hview'
  cases r with
  | error => exact ⟨hs, hpend, hview⟩
  | ok =>
    simp only
    split <;> exact ⟨hs, hpend, hview⟩

theorem iterator_spec (h : CacheInv M s) (ascending : Bool) (hstart : validBound start = true)
    (hstop : validBound stop = true) : ∃ i, (iterator P start stop ascending s).1 = .ok i ∧
      (store P).iter.toList i = rangeList (view M s) start stop ascending := by
  obtain ⟨hinv, hpend, hparent, hsorted⟩ := dirtyItems_spec M h start stop
  obtain ⟨i, hi, hlist⟩ := M.iterator_spec ascending hinv.parent hstart hstop
  have hbounds : ¬(start = some [] ∨ stop = some []) := by
    simpa [validBound] using And.intro hstart hstop
  refine ⟨new P.iter treeIterator ascending i
    (new keyInRange start stop (dirtyItems s start stop).sortedCache ascending), ?_, ?_⟩
  · simp only [iterator]
    rcases hp : P.iterator start stop ascending (dirtyItems s start stop).parent with ⟨r, p⟩
    rw [hp] at hi
    obtain rfl : r = .ok i := hi
    simp only [if_neg hbounds]
  · calc (store P).iter.toList _
        = mergeEntries (dirCompare ascending) (P.iter.toList i)
            (treeIterator.toList (new keyInRange start stop
              (dirtyItems s start stop).sortedCache ascending)) :=
          toList_new _ _
      _ = mergeEntries (dirCompare ascending)
            (rangeList (M.view s.parent) start stop ascending)
            (rangeList (pending s) start stop ascending) := by
          rw [hlist, hparent, toList_new keyInRange_checks]
          congr 1
          apply rangeList_congr
          intro k hr
          rw [sorted_eq_pending M hinv (hsorted k hr), hpend]
      _ = rangeList (view M s) start stop ascending := mergeEntries_rangeList _ _ _ _ _

/-- A cache over a modelled store is a modelled store, with the overlay as content. -/
def model : (store P).Model where
  inv := CacheInv M
  view := view M
  get_spec := by
    intro s key h hk
    obtain ⟨hres, hinv, hpend, hview⟩ := get_spec M h hk
    exact ⟨hres, hinv, by simp only [store, view, hpend, hview]⟩
  set_spec := by
    intro s key value h hk hv
    obtain ⟨hres, hinv, hpend, hparent⟩ := set_spec M h hk hv
    refine ⟨hres, hinv, ?_⟩
    simp only [store, view, hpend, hparent, overlay_insert]
    rfl
  delete_spec := by
    intro s key h hk
    obtain ⟨hres, hinv, hpend, hparent⟩ := delete_spec M h hk
    refine ⟨hres, hinv, ?_⟩
    simp only [store, view, hpend, hparent, overlay_insert]
    rfl
  iterator_state := by
    intro s start stop ascending h
    obtain ⟨hinv, hpend, hview⟩ := iterator_state M h start stop ascending
    exact ⟨hinv, by simp only [store, view, hpend, hview]⟩
  iterator_spec := by
    intro s start stop ascending h hstart hstop
    exact iterator_spec M h ascending hstart hstop

end

end CosmosSDK.CacheKV
