import CosmosSDK.Store.MemIterator

/-!
# The KVStore interface

A `KVStore` of `store/types` as its callers see it: calls on a state that return
a result or panic.  A `Model` of such a store is an invariant of its states and
the content they stand for, with what each call does to that content.  A store
may rearrange its state on any call, also on a read.
-/

namespace CosmosSDK.Store

open Std OrderedKV

/-! ## Keys and values -/

def maxKeyLength : Nat := 2 ^ 17 - 1

def maxValueLength : Nat := 2 ^ 31 - 1

/-- `AssertValidKey`; a nil key and an empty one are the same to it. -/
def assertValidKey (key : Bytes) : Except String Unit :=
  if key.length = 0 then .error "key is nil or empty"
  else if key.length > maxKeyLength then .error "key is too large"
  else .ok ()

def assertValidValue : Option Bytes → Except String Unit
  | none => .error "value is nil"
  | some value => if value.length > maxValueLength then .error "value is too large" else .ok ()

/-- A bound of an iterator is nil or a nonempty key. -/
def validBound (bound : Option Bytes) : Bool := bound != some []

/-! ## Stores -/

/-- A call: its result or the panic that ended it, and the state it leaves. -/
abbrev Call (σ α : Type) := σ → Except String α × σ

structure KVStore (σ ι : Type) where
  get : Bytes → Call σ (Option Bytes)
  set : Bytes → Option Bytes → Call σ Unit
  delete : Bytes → Call σ Unit
  iterator : Option Bytes → Option Bytes → Bool → Call σ ι
  iter : Iterator ι Bytes Bytes

/-- A model of a store: an invariant, the content of a state, and the effect of
each call on it.  The listing of an iterator is fixed when it is opened. -/
structure KVStore.Model {σ ι : Type} (S : KVStore σ ι) where
  inv : σ → Prop
  view : σ → KVMap
  get_spec : ∀ {s key}, inv s → assertValidKey key = .ok () →
    (S.get key s).1 = .ok (view s)[key]? ∧ inv (S.get key s).2 ∧ view (S.get key s).2 = view s
  set_spec : ∀ {s key value}, inv s → assertValidKey key = .ok () →
    assertValidValue (some value) = .ok () →
    (S.set key (some value) s).1 = .ok () ∧ inv (S.set key (some value) s).2 ∧
      view (S.set key (some value) s).2 = (view s).insert key value
  delete_spec : ∀ {s key}, inv s → assertValidKey key = .ok () →
    (S.delete key s).1 = .ok () ∧ inv (S.delete key s).2 ∧
      view (S.delete key s).2 = (view s).erase key
  iterator_state : ∀ {s} (start stop : Option Bytes) (ascending : Bool), inv s →
    inv (S.iterator start stop ascending s).2 ∧
      view (S.iterator start stop ascending s).2 = view s
  iterator_spec : ∀ {s} {start stop : Option Bytes} (ascending : Bool), inv s →
    validBound start = true → validBound stop = true →
    ∃ i, (S.iterator start stop ascending s).1 = .ok i ∧
      S.iter.toList i = rangeList (view s) start stop ascending

/-! ## A store that is its content -/

/-- The store kept as its content, as the in-memory stores at the root are. -/
def mapStore : KVStore KVMap (List (Bytes × Bytes)) where
  get key m :=
    match assertValidKey key with
    | .error e => (.error e, m)
    | .ok _ => (.ok m[key]?, m)
  set key value m :=
    match assertValidKey key, assertValidValue value, value with
    | .ok _, .ok _, some v => (.ok (), m.insert key v)
    | .error e, _, _ => (.error e, m)
    | _, .error e, _ => (.error e, m)
    | _, _, none => (.error "value is nil", m)
  delete key m :=
    match assertValidKey key with
    | .error e => (.error e, m)
    | .ok _ => (.ok (), m.erase key)
  iterator start stop ascending m :=
    if validBound start && validBound stop then (.ok (rangeList m start stop ascending), m)
    else (.error "key cannot be empty", m)
  iter := listIterator Bytes Bytes

def mapStoreModel : mapStore.Model where
  inv _ := True
  view m := m
  get_spec := by
    intro m key _ hk
    simp [mapStore, hk]
  set_spec := by
    intro m key value _ hk hv
    simp [mapStore, hk, hv]
  delete_spec := by
    intro m key _ hk
    simp [mapStore, hk]
  iterator_state := by
    intro m start stop ascending _
    simp only [mapStore]
    split <;> simp
  iterator_spec := by
    intro m start stop ascending _ hs he
    simp [mapStore, hs, he]

end CosmosSDK.Store
