import CosmosSDK.Store.CacheKV.Overlay
import CosmosSDK.Lib.Machine

/-!
# Runs of a cache

A client of a cache issues any sequence of calls and may keep several iterators
open while it writes.  The machine it should not be able to tell apart from the
cache keeps the parent's content, the pending writes, and for each open iterator
the entries that are left.
-/

namespace CosmosSDK.CacheKV

open Std OrderedKV CosmosSDK.Store

variable {σ ι : Type}

/-! ## Write -/

section

variable {P : KVStore σ ι} (M : P.Model)

theorem writeEntries_spec (l : List (Bytes × CValue)) {p : σ} (hp : M.inv p)
    (hl : ∀ e ∈ l, ValidWrite e.1 e.2.value) :
    (writeEntries P l p).1 = .ok () ∧ M.inv (writeEntries P l p).2 ∧ M.view (writeEntries P l p).2 =
        (l.map (fun e => (e.1, e.2.value))).foldl (fun m e => writeEntry m e.1 e.2) (M.view p) := by
  induction l generalizing p with
  | nil => exact ⟨rfl, hp, rfl⟩
  | cons e l ih =>
    obtain ⟨key, value, _⟩ := e
    obtain ⟨⟨hkey, hvalue⟩, hrest⟩ := List.forall_mem_cons.mp hl
    cases value with
    | some v =>
      obtain ⟨hres, hinv, hview⟩ := M.set_spec hp hkey (hvalue v rfl)
      rcases hcall : P.set key (some v) p with ⟨r, p'⟩
      rw [hcall] at hres hinv hview
      obtain rfl : r = .ok () := hres
      obtain ⟨hres', hinv', hview'⟩ := ih hinv hrest
      simp only [writeEntries, hcall]
      exact ⟨hres', hinv', by rw [hview', hview]; rfl⟩
    | none =>
      obtain ⟨hres, hinv, hview⟩ := M.delete_spec hp hkey
      rcases hcall : P.delete key p with ⟨r, p'⟩
      rw [hcall] at hres hinv hview
      obtain rfl : r = .ok () := hres
      obtain ⟨hres', hinv', hview'⟩ := ih hinv hrest
      simp only [writeEntries, hcall]
      exact ⟨hres', hinv', by rw [hview', hview]; rfl⟩

theorem toList_pending (s : Store σ) : (pending s).toList =
      (s.cache.toList.filter (fun e => e.2.dirty)).map (fun e => (e.1, e.2.value)) := by
  rw [pending, ExtTreeMap.toList_filterMap]
  induction s.cache.toList with
  | nil => rfl
  | cons e l ih => cases hd : e.2.dirty <;> simpa [hd] using ih

theorem overlay_pending (s : Store σ) (base : KVMap) : overlay base (pending s) =
      ((s.cache.toList.filter (fun e => e.2.dirty)).map (fun e => (e.1, e.2.value))).foldl
        (fun m e => writeEntry m e.1 e.2) base := by
  rw [overlay, ExtTreeMap.foldl_eq_foldl_toList, toList_pending]

theorem write_spec {s : Store σ} (h : CacheInv M s) :
    (write P s).1 = .ok () ∧ M.inv (write P s).2.parent ∧
      (write P s).2 = newStore (write P s).2.parent ∧ M.view (write P s).2.parent = view M s := by
  unfold write
  split
  · rename_i hempty
    have hcache : s.cache = ∅ := eq_empty_of_size hempty.1
    have hunsorted : s.unsortedCache = ∅ := eq_empty_of_size hempty.2
    refine ⟨rfl, h.parent, by simp [newStore, hcache, hunsorted], ?_⟩
    have hpend : pending s = ∅ := by
      apply ExtTreeMap.ext_getElem?
      intro k
      simp [getElem?_pending, hcache]
    rw [view, hpend, overlay_empty]
  · have hl : ∀ e ∈ s.cache.toList.filter fun e => e.2.dirty, ValidWrite e.1 e.2.value := by
      intro e he
      obtain ⟨hmem, hd⟩ := List.mem_filter.mp he
      have hc : s.cache[e.1]? = some e.2 := ExtTreeMap.mem_toList_iff_getElem?_eq_some.mp hmem
      exact h.valid (by simp [getElem?_pending, hc, hd])
    obtain ⟨hres, hinv, hview⟩ := writeEntries_spec M _ h.parent hl
    exact ⟨hres, hinv, rfl, by rw [view, overlay_pending]; exact hview⟩

end

/-! ## The client -/

inductive Op where
  | get (key : Bytes)
  | has (key : Bytes)
  | set (key : Bytes) (value : Option Bytes)
  | delete (key : Bytes)
  /-- open an iterator and keep it -/
  | iterator (start stop : Option Bytes) (ascending : Bool)
  /-- look at the `j`-th iterator opened -/
  | entry (j : Nat)
  /-- call `Next` on it -/
  | next (j : Nat)
  | write

inductive Reply where
  | done
  | value (v : Option Bytes)
  | bool (b : Bool)
  | entry (e : Option (Bytes × Bytes))
  | panic
  | noIterator
deriving DecidableEq

structure Client (σ ι : Type) where
  store : Store σ
  opened : List (CacheIterator ι)

def replyOf {α : Type} (f : α → Reply) : Except String α → Reply
  | .error _ => .panic
  | .ok a => f a

variable (P : KVStore σ ι)

def step (op : Op) (c : Client σ ι) : Reply × Client σ ι :=
  match op with
  | .get key =>
    let (r, s) := get P key c.store
    (replyOf .value r, { c with store := s })
  | .has key =>
    let (r, s) := has P key c.store
    (replyOf .bool r, { c with store := s })
  | .set key value =>
    let (r, s) := set key value c.store
    (replyOf (fun _ => .done) r, { c with store := s })
  | .delete key =>
    let (r, s) := delete key c.store
    (replyOf (fun _ => .done) r, { c with store := s })
  | .iterator start stop ascending =>
    match iterator P start stop ascending c.store with
    | (.error _, s) => (.panic, { c with store := s })
    | (.ok i, s) => (.done, { store := s, opened := c.opened ++ [i] })
  | .entry j =>
    match c.opened[j]? with
    | none => (.noIterator, c)
    | some i => (.entry ((store P).iter.entry i), c)
  | .next j =>
    match c.opened[j]? with
    | none => (.noIterator, c)
    | some i =>
      match (store P).iter.entry i with
      | none => (.panic, c)
      | some _ => (.done, { c with opened := c.opened.set j ((store P).iter.next i) })
  | .write =>
    let (r, s) := write P c.store
    (replyOf (fun _ => .done) r, { c with store := s })

/-! ## What a client may rely on -/

/-- The parent's content, the pending writes, and what each open iterator has left. -/
structure Overlay where
  base : KVMap
  pending : OrdMap Bytes (Option Bytes)
  opened : List (List (Bytes × Bytes))

def Overlay.content (a : Overlay) : KVMap := overlay a.base a.pending

def validKey (key : Bytes) : Bool := decide (assertValidKey key = .ok ())

def validValue (value : Option Bytes) : Bool := decide (assertValidValue value = .ok ())

def overlayStep (op : Op) (a : Overlay) : Reply × Overlay :=
  match op with
  | .get key => if validKey key then (.value a.content[key]?, a) else (.panic, a)
  | .has key => if validKey key then (.bool a.content[key]?.isSome, a) else (.panic, a)
  | .set key value =>
    if validKey key && validValue value then
      (.done, { a with pending := a.pending.insert key value })
    else (.panic, a)
  | .delete key =>
    if validKey key then (.done, { a with pending := a.pending.insert key none })
    else (.panic, a)
  | .iterator start stop ascending =>
    if validBound start && validBound stop then
      (.done, { a with opened := a.opened ++ [rangeList a.content start stop ascending] })
    else (.panic, a)
  | .entry j =>
    match a.opened[j]? with
    | none => (.noIterator, a)
    | some l => (.entry l.head?, a)
  | .next j =>
    match a.opened[j]? with
    | none => (.noIterator, a)
    | some [] => (.panic, a)
    | some (_ :: l) => (.done, { a with opened := a.opened.set j l })
  | .write => (.done, { a with base := a.content, pending := ∅ })

/-! ## The simulation -/

variable {P} (M : P.Model)

structure Sim (c : Client σ ι) (a : Overlay) : Prop where
  inv : CacheInv M c.store
  base : M.view c.store.parent = a.base
  pending : CacheKV.pending c.store = a.pending
  opened : c.opened.map (store P).iter.toList = a.opened

namespace Sim

variable {M} {c : Client σ ι} {a : Overlay}

theorem view_eq (h : Sim M c a) : view M c.store = a.content := by
  rw [view, h.base, h.pending, Overlay.content]

theorem getElem?_opened (h : Sim M c a) (j : Nat) :
    a.opened[j]? = c.opened[j]?.map (store P).iter.toList := by
  rw [← h.opened, List.getElem?_map]

variable {s : Store σ}

/-- A call that leaves the content of the parent and changes the pending writes
as the abstract machine does. -/
theorem of_store (h : Sim M c a) {w : OrdMap Bytes (Option Bytes)} (hinv : CacheInv M s)
    (hbase : M.view s.parent = M.view c.store.parent) (hpend : CacheKV.pending s = w) :
    Sim M { c with store := s } { a with pending := w } where
  inv := hinv
  base := hbase.trans h.base
  pending := hpend
  opened := h.opened

theorem of_read (h : Sim M c a) (hinv : CacheInv M s)
    (hbase : M.view s.parent = M.view c.store.parent)
    (hpend : CacheKV.pending s = CacheKV.pending c.store) : Sim M { c with store := s } a :=
  h.of_store hinv hbase (hpend.trans h.pending)

end Sim

theorem validKey_cases (key : Bytes) : (validKey key = true ∧ assertValidKey key = .ok ()) ∨
    (validKey key = false ∧ ∃ e, assertValidKey key = .error e) := by
  unfold validKey
  cases assertValidKey key <;> simp

theorem validValue_cases (value : Option Bytes) :
    (validValue value = true ∧ assertValidValue value = .ok ()) ∨
    (validValue value = false ∧ ∃ e, assertValidValue value = .error e) := by
  unfold validValue
  cases assertValidValue value <;> simp

variable {c : Client σ ι} {a : Overlay}

theorem step_get (key : Bytes) (h : Sim M c a) :
    (step P (.get key) c).1 = (overlayStep (.get key) a).1 ∧
      Sim M (step P (.get key) c).2 (overlayStep (.get key) a).2 := by
  rcases validKey_cases key with ⟨hk, hk'⟩ | ⟨hk, _, he⟩
  · obtain ⟨hres, hinv, hpend, hbase⟩ := get_spec M h.inv hk'
    simp only [step, overlayStep, hk, if_true, hres, h.view_eq, replyOf]
    exact ⟨trivial, h.of_read hinv hbase hpend⟩
  · simp only [step, get, he, overlayStep, hk]
    exact ⟨rfl, h⟩

theorem step_has (key : Bytes) (h : Sim M c a) :
    (step P (.has key) c).1 = (overlayStep (.has key) a).1 ∧
      Sim M (step P (.has key) c).2 (overlayStep (.has key) a).2 := by
  rcases validKey_cases key with ⟨hk, hk'⟩ | ⟨hk, _, he⟩
  · obtain ⟨hres, hinv, hpend, hbase⟩ := get_spec M h.inv hk'
    rcases hg : get P key c.store with ⟨r, s⟩
    rw [hg] at hres hinv hpend hbase
    obtain rfl : r = .ok (view M c.store)[key]? := hres
    simp only [step, has, hg, overlayStep, hk, if_true, h.view_eq, replyOf]
    exact ⟨trivial, h.of_read hinv hbase hpend⟩
  · simp only [step, has, get, he, overlayStep, hk]
    exact ⟨rfl, h⟩

theorem step_set (key : Bytes) (value : Option Bytes) (h : Sim M c a) :
    (step P (.set key value) c).1 = (overlayStep (.set key value) a).1 ∧
      Sim M (step P (.set key value) c).2 (overlayStep (.set key value) a).2 := by
  rcases validKey_cases key with ⟨hk, hk'⟩ | ⟨hk, _, he⟩
  · rcases validValue_cases value with ⟨hv, hv'⟩ | ⟨hv, _, he⟩
    · cases value with
      | none => simp [assertValidValue] at hv'
      | some v =>
        obtain ⟨hres, hinv, hpend, hparent⟩ := set_spec M h.inv hk' hv'
        simp only [step, overlayStep, hk, hv, Bool.and_self, if_true, hres, replyOf]
        exact ⟨trivial, h.of_store hinv (by rw [hparent]) (by rw [hpend, h.pending])⟩
    · simp only [step, set, hk', he, overlayStep, hk, hv, Bool.and_false]
      exact ⟨rfl, h⟩
  · simp only [step, set, he, overlayStep, hk, Bool.false_and]
    exact ⟨rfl, h⟩

theorem step_delete (key : Bytes) (h : Sim M c a) :
    (step P (.delete key) c).1 = (overlayStep (.delete key) a).1 ∧
      Sim M (step P (.delete key) c).2 (overlayStep (.delete key) a).2 := by
  rcases validKey_cases key with ⟨hk, hk'⟩ | ⟨hk, _, he⟩
  · obtain ⟨hres, hinv, hpend, hparent⟩ := delete_spec M h.inv hk'
    simp only [step, overlayStep, hk, if_true, hres, replyOf]
    exact ⟨trivial, h.of_store hinv (by rw [hparent]) (by rw [hpend, h.pending])⟩
  · simp only [step, delete, he, overlayStep, hk]
    exact ⟨rfl, h⟩

theorem iterator_panics {start stop : Option Bytes} (ascending : Bool)
    (hb : (validBound start && validBound stop) = false) (s : Store σ) :
    ∃ e, (iterator P start stop ascending s).1 = .error e := by
  have hbounds : start = some [] ∨ stop = some [] := by
    by_contra hne
    rw [not_or] at hne
    simp [validBound, hne.1, hne.2] at hb
  simp only [iterator]
  rcases P.iterator start stop ascending (dirtyItems s start stop).parent with ⟨r, p⟩
  cases r with
  | error e => exact ⟨e, rfl⟩
  | ok => exact ⟨"key cannot be empty", by simp only [if_pos hbounds]⟩

theorem step_iterator (start stop : Option Bytes) (ascending : Bool) (h : Sim M c a) :
    (step P (.iterator start stop ascending) c).1 =
        (overlayStep (.iterator start stop ascending) a).1 ∧
      Sim M (step P (.iterator start stop ascending) c).2
        (overlayStep (.iterator start stop ascending) a).2 := by
  obtain ⟨hinv, hpend, hbase⟩ := iterator_state M h.inv start stop ascending
  cases hb : validBound start && validBound stop with
  | false =>
    obtain ⟨e, he⟩ := iterator_panics ascending hb c.store
    rcases hi : iterator P start stop ascending c.store with ⟨r, s⟩
    rw [hi] at he hinv hpend hbase
    obtain rfl : r = .error e := he
    simp only [step, hi, overlayStep, hb]
    exact ⟨rfl, h.of_read hinv hbase hpend⟩
  | true =>
    obtain ⟨hstart, hstop⟩ : validBound start = true ∧ validBound stop = true := by
      simpa using hb
    obtain ⟨i, hok, hlist⟩ := iterator_spec M h.inv ascending hstart hstop
    rcases hi : iterator P start stop ascending c.store with ⟨r, s⟩
    rw [hi] at hok hinv hpend hbase
    obtain rfl : r = .ok i := hok
    simp only [step, hi, overlayStep, hb, if_true]
    have hsim := h.of_read hinv hbase hpend
    refine ⟨trivial, hsim.inv, hsim.base, hsim.pending, ?_⟩
    rw [List.map_append, h.opened, List.map_singleton, hlist, h.view_eq]

theorem step_entry (j : Nat) (h : Sim M c a) :
    (step P (.entry j) c).1 = (overlayStep (.entry j) a).1 ∧
      Sim M (step P (.entry j) c).2 (overlayStep (.entry j) a).2 := by
  simp only [step, overlayStep, h.getElem?_opened j]
  cases hj : c.opened[j]? with
  | none => exact ⟨rfl, h⟩
  | some i => exact ⟨by simp [(store P).iter.entry_eq_head? i], h⟩

theorem step_next (j : Nat) (h : Sim M c a) : (step P (.next j) c).1 = (overlayStep (.next j) a).1 ∧
      Sim M (step P (.next j) c).2 (overlayStep (.next j) a).2 := by
  simp only [step, overlayStep, h.getElem?_opened j]
  cases hj : c.opened[j]? with
  | none => exact ⟨rfl, h⟩
  | some i =>
    cases he : (store P).iter.entry i with
    | none =>
      simp only [he, Option.map_some, (store P).iter.toList_of_none he]
      exact ⟨trivial, h⟩
    | some =>
      simp only [he, Option.map_some, (store P).iter.toList_of_some he]
      refine ⟨trivial, h.inv, h.base, h.pending, ?_⟩
      rw [List.map_set, h.opened]

theorem step_write (h : Sim M c a) : (step P .write c).1 = (overlayStep .write a).1 ∧
      Sim M (step P .write c).2 (overlayStep .write a).2 := by
  obtain ⟨hres, hinv, hnew, hview⟩ := write_spec M h.inv
  simp only [step, overlayStep, hres, replyOf]
  refine ⟨trivial, ?_, ?_, ?_, h.opened⟩
  · rw [hnew]
    exact inv_newStore M hinv
  · rw [hview, h.view_eq]
  · rw [hnew, pending_newStore]

theorem simulates : Machine.Simulates (step P) overlayStep (Sim M) := by
  intro op c a h
  cases op with
  | get key => exact step_get M key h
  | has key => exact step_has M key h
  | set key value => exact step_set M key value h
  | delete key => exact step_delete M key h
  | iterator start stop ascending => exact step_iterator M start stop ascending h
  | entry j => exact step_entry M j h
  | next j => exact step_next M j h
  | write => exact step_write M h

/-- Whatever a client does with a new cache over a modelled store, it gets the
replies of the overlay machine, and the parent's content, the pending writes and
the rest of every open iterator are those of that machine. -/
theorem run_refines_overlay (ops : List Op) (p : σ) (hp : M.inv p) :
    let real := Machine.run (step P) ops { store := newStore p, opened := [] }
    let ideal := Machine.run overlayStep ops { base := M.view p, pending := ∅, opened := [] }
    real.1 = ideal.1 ∧
      M.view real.2.store.parent = ideal.2.base ∧
      pending real.2.store = ideal.2.pending ∧
      real.2.opened.map (store P).iter.toList = ideal.2.opened := by
  have hinit : Sim M { store := newStore p, opened := [] }
      { base := M.view p, pending := ∅, opened := [] } :=
    ⟨inv_newStore M hp, rfl, pending_newStore p, rfl⟩
  obtain ⟨hreplies, hsim⟩ := (simulates M).run ops hinit
  exact ⟨hreplies, hsim.base, hsim.pending, hsim.opened⟩

/-- On a cache stacked on a cache, an iterator keeps the entry that is deleted
after it was opened. -/
theorem run_refines_overlay_stacked :
    (model mapStoreModel).inv (newStore (∅ : KVMap)) ∧
    (Machine.run (step (store mapStore))
        [.set [1] (some [2]), .iterator none none true, .delete [1], .entry 0, .write, .get [1]]
        { store := newStore (newStore ∅), opened := [] }).1 =
      [.done, .done, .done, .entry (some ([1], [2])), .done, .value none] := by
  have hinv : (model mapStoreModel).inv (newStore (∅ : KVMap)) :=
    inv_newStore mapStoreModel trivial
  refine ⟨hinv, ?_⟩
  have h := (run_refines_overlay (model mapStoreModel)
    [.set [1] (some [2]), .iterator none none true, .delete [1], .entry 0, .write, .get [1]]
    (newStore ∅) hinv).1
  have hview : (model mapStoreModel).view (newStore (∅ : KVMap)) = ∅ :=
    view_newStore mapStoreModel ∅
  rw [hview] at h
  exact h.trans (by decide)

end CosmosSDK.CacheKV
