import CosmosSDK.Lib.Machine
import CosmosSDK.Store.KVStore
import CosmosSDK.Store.PrefixEnd

/-!
# Prefix stores

The store of `store/prefix` gives access to the keys of a parent that start with
a prefix.  Modules share one parent that way.  If no prefix starts with another
one, each of them is served as from a map of its own, whatever the others do in
between.  Keys are not nil here; `key` panics for a nil one.
-/

namespace CosmosSDK.Prefix

open Std List OrderedKV CosmosSDK.Store

variable {σ ι κ : Type}

/-- `prefixIterator`; the bounds it also keeps are those of `Domain`. -/
structure PrefixIterator (ι : Type) where
  iter : ι
  valid : Bool

section

variable (P : KVStore σ ι) (p : Bytes)

def newPrefixIterator (i : ι) : PrefixIterator ι :=
  ⟨i, (P.iter.entry i).any (fun e => p.isPrefixOf e.1)⟩

/-- `Valid`, `Key` and `Value`.  A valid iterator is at a key with the prefix, which
`stripPrefix` cuts off. -/
def iteratorEntry (i : PrefixIterator ι) : Option (Bytes × Bytes) :=
  if i.valid then (P.iter.entry i.iter).map (fun e => (e.1.drop p.length, e.2)) else none

def prefixIter : Iterator (PrefixIterator ι) Bytes Bytes where
  entry := iteratorEntry P p
  next i := newPrefixIterator P p (P.iter.next i.iter)
  size i := P.iter.size i.iter
  next_size := by
    intro i e h
    unfold iteratorEntry at h
    split at h
    · rcases Option.map_eq_some_iff.mp h with ⟨_, he, -⟩
      exact P.iter.next_size _ _ he
    · cases h

/-- The bounds the parent is asked for; nil is a bound of its own only for `end`. -/
def newstart (start : Option Bytes) : Bytes := p ++ start.getD []

def newend : Option Bytes → Option Bytes
  | none => prefixEndBytes p
  | some stop => some (p ++ stop)

def store : KVStore σ (PrefixIterator ι) where
  get key := P.get (p ++ key)
  set key value s :=
    match assertValidKey key, assertValidValue value with
    | .error e, _ => (.error e, s)
    | _, .error e => (.error e, s)
    | .ok _, .ok _ => P.set (p ++ key) value s
  delete key := P.delete (p ++ key)
  iterator start stop ascending s :=
    match P.iterator (some (newstart p start)) (newend p stop) ascending s with
    | (.error e, s) => (.error e, s)
    | (.ok i, s) => (.ok (newPrefixIterator P p i), s)
  iter := prefixIter P p

end

/-! ## Listings -/

section

variable {p k : Bytes} {start stop : Option Bytes} {m own : KVMap}

theorem inRange_append :
    inRange (some (newstart p start)) (newend p stop) (p ++ k) = inRange start stop k := by
  have hstart : fromStart (some (newstart p start)) (p ++ k) = fromStart start k := by
    rw [fromStart, newstart, compare_append_left]
    cases start with
    | none => cases k <;> rfl
    | some => rfl
  have hstop : beforeStop (newend p stop) (p ++ k) = beforeStop stop k := by
    cases stop with
    | none => exact (beforeStop_prefixEndBytes p _).mpr (.inr (prefix_append p k))
    | some => simp only [newend, beforeStop, compare_append_left]
  rw [inRange, inRange, hstart, hstop]

/-- The parent lists no other keys: what is below an extension of the prefix is below its end. -/
theorem prefix_of_inRange
    (h : inRange (some (newstart p start)) (newend p stop) k = true) : p <+: k := by
  rw [inRange, Bool.and_eq_true] at h
  apply (inRange_prefixEndBytes p k).mp
  rw [inRange, Bool.and_eq_true]
  constructor
  · exact TransCmp.isLE_trans (isLE_of_extends (prefix_append p _)) h.1
  · cases stop with
    | none => exact h.2
    | some stop =>
      exact beforeStop_anti (Ordering.isLT_iff_eq_lt.mp h.2)
        ((beforeStop_prefixEndBytes p _).mpr (.inr (prefix_append p stop)))

/-- A map holds what another one has behind a prefix. -/
def Suffixes (p : Bytes) (m own : KVMap) : Prop := ∀ k : Bytes, own[k]? = m[p ++ k]?

theorem Suffixes.rangeList (h : Suffixes p m own) (start stop : Option Bytes) (ascending : Bool) :
    OrderedKV.rangeList m (some (newstart p start)) (newend p stop) ascending =
      (OrderedKV.rangeList own start stop ascending).map (fun e => (p ++ e.1, e.2)) := by
  apply (rangeList_sorted m _ _ ascending).eq_of_mem_iff
  · apply pairwise_map.mpr
    apply (rangeList_sorted own start stop ascending).imp
    intro a b hab
    cases ascending <;> simpa [dirCompare, compare_append_left] using hab
  · rintro ⟨k, v⟩
    rw [mem_rangeList]
    simp only [mem_map, Prod.exists, mem_rangeList, h _, Prod.mk.injEq]
    constructor
    · rintro ⟨hv, hr⟩
      rcases prefix_of_inRange hr with ⟨k, rfl⟩
      exact ⟨k, v, ⟨hv, inRange_append.symm.trans hr⟩, rfl, rfl⟩
    · rintro ⟨k, v, ⟨hv, hr⟩, rfl, rfl⟩
      exact ⟨hv, inRange_append.trans hr⟩

end

theorem toList_newPrefixIterator (P : KVStore σ ι) (p : Bytes) {l : List (Bytes × Bytes)} {i : ι}
    (h : P.iter.toList i = l.map (fun e => (p ++ e.1, e.2))) :
    (prefixIter P p).toList (newPrefixIterator P p i) = l := by
  induction l generalizing i with
  | nil =>
    have hentry : P.iter.entry i = none := by rw [P.iter.entry_eq_head?, h]; rfl
    apply Iterator.toList_of_none
    simp [prefixIter, iteratorEntry, newPrefixIterator, hentry]
  | cons e l ih =>
    have hentry : P.iter.entry i = some (p ++ e.1, e.2) := by rw [P.iter.entry_eq_head?, h]; rfl
    rw [P.iter.toList_of_some hentry, map_cons, cons.injEq] at h
    have hcur : (prefixIter P p).entry (newPrefixIterator P p i) = some e := by
      simp [prefixIter, iteratorEntry, newPrefixIterator, hentry]
    rw [Iterator.toList_of_some _ hcur]
    exact congrArg (e :: ·) (ih h.2)

/-! ## Stores on one parent -/

inductive Op where
  | get (key : Bytes)
  | set (key : Bytes) (value : Option Bytes)
  | delete (key : Bytes)
  /-- open an iterator and read it -/
  | iterator (start stop : Option Bytes) (ascending : Bool)

inductive Answer where
  | value (v : Option Bytes)
  | done
  | entries (l : List (Bytes × Bytes))
deriving DecidableEq

/-- Behind the prefix the key is not too long for the parent. -/
def Op.fits (p : Bytes) : Op → Bool
  | .get key | .set key _ | .delete key => (p ++ key).length ≤ maxKeyLength
  | .iterator .. => true

def serve (S : KVStore σ ι) (op : Op) (s : σ) : Except String Answer × σ :=
  match op with
  | .get key =>
    let (r, s) := S.get key s
    (r.map .value, s)
  | .set key value =>
    let (r, s) := S.set key value s
    (r.map (fun _ => .done), s)
  | .delete key =>
    let (r, s) := S.delete key s
    (r.map (fun _ => .done), s)
  | .iterator start stop ascending =>
    let (r, s) := S.iterator start stop ascending s
    (r.map (fun i => .entries (S.iter.toList i)), s)

/-- Prefixes none of which starts with another one. -/
structure Prefixes (κ : Type) where
  bytes : κ → Bytes
  nonempty : ∀ c, bytes c ≠ []
  apart : ∀ c d, bytes c <+: bytes d → c = d

instance : CoeFun (Prefixes κ) (fun _ => κ → Bytes) := ⟨Prefixes.bytes⟩

structure Request (p : Prefixes κ) where
  client : κ
  op : Op
  fits : op.fits (p client) = true

variable {p : Prefixes κ}

def step (P : KVStore σ ι) (r : Request p) : σ → Except String Answer × σ :=
  serve (store P (p r.client)) r.op

/-- A store that is its content and has no limits but those of `Set`. -/
def ownCall (op : Op) (m : KVMap) : Except String Answer × KVMap :=
  match op with
  | .get key => (.ok (.value m[key]?), m)
  | .set .. => serve mapStore op m
  | .delete key => (.ok .done, m.erase key)
  | .iterator start stop ascending => (.ok (.entries (rangeList m start stop ascending)), m)

def ownStep [DecidableEq κ] (r : Request p) (own : κ → KVMap) : Except String Answer × (κ → KVMap) :=
  let (a, m) := ownCall r.op (own r.client)
  (a, Function.update own r.client m)

/-- The content of the parent is that of the stores and what is under no prefix. -/
structure Shares (p : Prefixes κ) (rest m : KVMap) (own : κ → KVMap) : Prop where
  own : ∀ c, Suffixes (p c) m (own c)
  rest : ∀ k : Bytes, (∀ c, ¬ p c <+: k) → m[k]? = rest[k]?

theorem Prefixes.eq_of_append (p : Prefixes κ) {c d : κ} {j k : Bytes}
    (h : p c ++ j = p d ++ k) : c = d := by
  have hc : p c <+: p d ++ k := ⟨j, h⟩
  rcases prefix_or_prefix_of_prefix hc (prefix_append _ k) with hpre | hpre
  · exact p.apart c d hpre
  · exact (p.apart d c hpre).symm

theorem Prefixes.validKey (p : Prefixes κ) {c : κ} {key : Bytes}
    (h : (p c ++ key).length ≤ maxKeyLength) :
    assertValidKey (p c ++ key) = .ok () := by
  have := p.nonempty c
  rw [assertValidKey, if_neg (by simp [this]), if_neg (Nat.not_lt.mpr h)]

theorem Prefixes.validBounds (p : Prefixes κ) (c : κ) (start stop : Option Bytes) :
    validBound (some (newstart (p c) start)) = true ∧
      validBound (newend (p c) stop) = true := by
  have hne := p.nonempty c
  constructor
  · simp [validBound, newstart, hne]
  · cases stop with
    | none =>
      simp only [newend, prefixEndBytes]
      split <;> simp [validBound]
    | some => simp [validBound, newend, hne]

variable [DecidableEq κ]

theorem Shares.write {rest m : KVMap} {own : κ → KVMap} (h : Shares p rest m own) (c : κ)
    (key : Bytes) (value : Option Bytes) :
    Shares p rest (writeEntry m (p c ++ key) value)
      (Function.update own c (writeEntry (own c) key value)) where
  own := by
    intro d k
    by_cases hd : d = c
    · subst hd
      rw [Function.update_self, getElem?_writeEntry, getElem?_writeEntry, compare_append_left,
        h.own d k]
    · rw [Function.update_of_ne hd, getElem?_writeEntry,
        if_neg fun heq => hd (p.eq_of_append (eq_of_cmp heq)).symm, h.own d k]
  rest := by
    intro k hk
    rw [getElem?_writeEntry, if_neg fun heq => hk c ⟨key, eq_of_cmp heq⟩, h.rest k hk]

variable {P : KVStore σ ι} (M : P.Model)

theorem step_simulates (rest : KVMap) : Machine.Simulates (step (p := p) P) ownStep
    (fun s own => M.inv s ∧ Shares p rest (M.view s) own) := by
  rintro ⟨c, op, hfits⟩ s own ⟨hs, h⟩
  cases op with
  | get key =>
    have hget := M.get_spec hs (p.validKey (of_decide_eq_true hfits))
    simp only [step, serve, store, ownStep, ownCall, hget.1, h.own c key, Except.map,
      Function.update_eq_self]
    exact ⟨trivial, hget.2.1, hget.2.2 ▸ h⟩
  | delete key =>
    have hdelete := M.delete_spec hs (p.validKey (of_decide_eq_true hfits))
    simp only [step, serve, store, ownStep, ownCall, hdelete.1, Except.map]
    exact ⟨trivial, hdelete.2.1, hdelete.2.2 ▸ h.write c key none⟩
  | set key value =>
    simp only [step, serve, store, ownStep, ownCall, mapStore]
    cases hkey : assertValidKey key with
    | error => simpa [Except.map] using ⟨hs, h⟩
    | ok =>
      cases value with
      | none => simpa [assertValidValue, Except.map] using ⟨hs, h⟩
      | some value =>
        cases hvalue : assertValidValue (some value) with
        | error => simpa [Except.map] using ⟨hs, h⟩
        | ok =>
          have hset := M.set_spec hs (p.validKey (of_decide_eq_true hfits)) hvalue
          simp only [hset.1, Except.map]
          exact ⟨trivial, hset.2.1, hset.2.2 ▸ h.write c key (some value)⟩
  | iterator start stop ascending =>
    have hstate := M.iterator_state (some (newstart (p c) start)) (newend (p c) stop) ascending hs
    have hbounds := p.validBounds c start stop
    rcases M.iterator_spec ascending hs hbounds.1 hbounds.2 with ⟨i, hok, hlist⟩
    rw [(h.own c).rangeList] at hlist
    rcases hcall : P.iterator (some (newstart (p c) start)) (newend (p c) stop)
      ascending s with ⟨r, s'⟩
    rw [hcall] at hok hstate
    cases hok
    simp only [step, serve, store, ownStep, ownCall, hcall, Except.map,
      toList_newPrefixIterator P _ hlist, Function.update_eq_self]
    exact ⟨trivial, hstate.1, hstate.2 ▸ h⟩

/-- Clients of prefix stores on one parent get, in every interleaving of their calls,
the answers that stores of their own would give, these are what the parent has
behind their prefixes in the end, and the parent's other keys are as they were. -/
theorem run_refines_own_stores (requests : List (Request p)) {s : σ} {own : κ → KVMap} (hs : M.inv s)
    (hown : ∀ c, Suffixes (p c) (M.view s) (own c)) :
    let real := Machine.run (step P) requests s
    let ideal := Machine.run ownStep requests own
    real.1 = ideal.1 ∧ (∀ c, Suffixes (p c) (M.view real.2) (ideal.2 c)) ∧
      ∀ k : Bytes, (∀ c, ¬ p c <+: k) → (M.view real.2)[k]? = (M.view s)[k]? := by
  have hinit : M.inv s ∧ Shares p (M.view s) (M.view s) own := ⟨hs, hown, fun _ _ => rfl⟩
  have hrun := (step_simulates M (M.view s)).run requests hinit
  exact ⟨hrun.1, hrun.2.2.own, hrun.2.2.rest⟩

def twoModules : Prefixes Bool where
  bytes c := if c then [1] else [2]
  nonempty := by decide
  apart := by decide

/-- Two modules write under the same key, and one reads backwards. -/
theorem run_refines_own_stores_two :
    let requests : List (Request twoModules) :=
      [⟨true, .set [7] (some [1]), by decide⟩, ⟨false, .set [7] (some [2]), by decide⟩,
        ⟨true, .iterator none none false, rfl⟩, ⟨false, .delete [7], by decide⟩]
    (Machine.run (step mapStore) requests ∅).1 = (Machine.run ownStep requests fun _ => ∅).1 :=
  (run_refines_own_stores mapStoreModel _ trivial fun _ _ => by simp [mapStoreModel]).1

end CosmosSDK.Prefix
