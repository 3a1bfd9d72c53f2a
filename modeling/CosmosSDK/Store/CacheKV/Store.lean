import CosmosSDK.Store.CacheKV.Window
import CosmosSDK.Store.CacheMergeIterator

/-!
# cachekv.Store

The write-back cache of `store/cachekv/store.go` over any parent store.  Every
value read or written is kept in `cache`.  Keys of pending writes start in
`unsortedCache`; opening an iterator moves those it may need to the tree
`sortedCache`.  A loop of the source over a Go map is followed by a sort of what
it collected, so it is modelled by the ordered listing of the map.
-/

namespace CosmosSDK.CacheKV

open Std OrderedKV Store

structure CValue where
  value : Option Bytes
  dirty : Bool
deriving DecidableEq

structure Store (σ : Type) where
  cache : OrdMap Bytes CValue
  unsortedCache : OrdMap Bytes Unit
  sortedCache : OrdMap Bytes (Option Bytes)
  parent : σ

/-- The iterators of a cache over a parent with iterators `ι`. -/
abbrev CacheIterator (ι : Type) := CacheMergeIterator ι (MemIterator Bytes (Option Bytes))

variable {σ ι : Type}

def newStore (parent : σ) : Store σ :=
  { cache := ∅, unsortedCache := ∅, sortedCache := ∅, parent := parent }

/-- `setCacheValue`, the only entry point that changes `cache`. -/
def setCacheValue (s : Store σ) (key : Bytes) (value : Option Bytes) (dirty : Bool) : Store σ :=
  { s with
    cache := s.cache.insert key ⟨value, dirty⟩
    unsortedCache := if dirty then s.unsortedCache.insert key () else s.unsortedCache }

/-! ## Reads and writes -/

def get (P : KVStore σ ι) (key : Bytes) : Call (Store σ) (Option Bytes) := fun s =>
  match assertValidKey key with
  | .error e => (.error e, s)
  | .ok _ =>
    match s.cache[key]? with
    | none =>
      match P.get key s.parent with
      | (.error e, p) => (.error e, { s with parent := p })
      | (.ok value, p) => (.ok value, setCacheValue { s with parent := p } key value false)
    | some cacheValue => (.ok cacheValue.value, s)

def has (P : KVStore σ ι) (key : Bytes) : Call (Store σ) Bool := fun s =>
  match get P key s with
  | (.error e, s') => (.error e, s')
  | (.ok value, s') => (.ok value.isSome, s')

def set (key : Bytes) (value : Option Bytes) : Call (Store σ) Unit := fun s =>
  match assertValidKey key with
  | .error e => (.error e, s)
  | .ok _ =>
    match assertValidValue value with
    | .error e => (.error e, s)
    | .ok _ => (.ok (), setCacheValue s key value true)

def delete (key : Bytes) : Call (Store σ) Unit := fun s =>
  match assertValidKey key with
  | .error e => (.error e, s)
  | .ok _ => (.ok (), setCacheValue s key none true)

/-! ## Write -/

def resetCaches (s : Store σ) : Store σ :=
  { s with cache := ∅, unsortedCache := ∅, sortedCache := ∅ }

/-- The loop of `Write`: a nil value is deleted from the parent, any other is set. -/
def writeEntries (P : KVStore σ ι) : List (Bytes × CValue) → Call σ Unit
  | [], p => (.ok (), p)
  | (key, val) :: rest, p =>
    let call := match val.value with
      | some value => P.set key (some value) p
      | none => P.delete key p
    match call with
    | (.error e, p') => (.error e, p')
    | (.ok _, p') => writeEntries P rest p'

def write (P : KVStore σ ι) : Call (Store σ) Unit := fun s =>
  if s.cache.size = 0 ∧ s.unsortedCache.size = 0 then (.ok (), { s with sortedCache := ∅ })
  else
    let sortedCache := s.cache.toList.filter (fun e => e.2.dirty)
    let (r, p) := writeEntries P sortedCache s.parent
    (r, { resetCaches s with parent := p })

/-! ## Iterators -/

/-- `dbm.IsKeyInDomain`. -/
def isKeyInDomain (key : Bytes) (start stop : Option Bytes) : Bool :=
  if compare key (start.getD []) = .lt then false
  else match stop with
    | none => true
    | some e => !(compare e key).isLE

/-- The pair `dirtyItems` collects for a key; an unsorted key is always cached. -/
def dirtyPair (s : Store σ) (key : Bytes) : Bytes × Option Bytes :=
  (key, s.cache[key]?.bind (·.value))

/-- `clearUnsortedCacheSubset`: move the pairs from the unsorted keys to the tree. -/
def clearUnsortedCacheSubset (s : Store σ) (unsorted : List (Bytes × Option Bytes)) : Store σ :=
  { s with
    unsortedCache :=
      if unsorted.length = s.unsortedCache.size then ∅
      else unsorted.foldl (fun m e => m.erase e.1) s.unsortedCache
    sortedCache := unsorted.foldl (fun m e => m.insert e.1 e.2) s.sortedCache }

/-- The keys from index `startIndex` to index `endIndex`. -/
def keysBetween (strL : List Bytes) (window : Int × Int) : List Bytes :=
  (strL.drop window.1.toNat).take (window.2 + 1 - window.1).toNat

def dirtyItems (s : Store σ) (start stop : Option Bytes) : Store σ :=
  if stop.isSome ∧ compare (start.getD []) (stop.getD []) = .gt then s
  else if (s.unsortedCache.size : Int) < minSortSize then
    let unsorted := s.unsortedCache.keys.filter (isKeyInDomain · start stop)
    clearUnsortedCacheSubset s (unsorted.map (dirtyPair s))
  else
    let strL := s.unsortedCache.keys
    let kvL := keysBetween strL (sortWindow strL start stop)
    clearUnsortedCacheSubset s (kvL.map (dirtyPair s))

/-- `memIterator.keyInRange` of the cache. -/
def keyInRange : KeyInRange Bytes := fun start stop ascending key =>
  if ascending && stop.any (fun e => (compare key e).isGE) then false
  else if !ascending && start.any (fun s => (compare key s).isLT) then false
  else true

/-- The iterators of the tree `sortedCache`. -/
abbrev treeIterator : Iterator (MemIterator Bytes (Option Bytes)) Bytes (Option Bytes) :=
  MemIterator.iterator Bytes (Option Bytes) keyInRange

def iterator (P : KVStore σ ι) (start stop : Option Bytes) (ascending : Bool) :
    Call (Store σ) (CacheIterator ι) := fun s =>
  let s := dirtyItems s start stop
  let isoSortedCache := s.sortedCache
  match P.iterator start stop ascending s.parent with
  | (.error e, p) => (.error e, { s with parent := p })
  | (.ok parent, p) =>
    let s := { s with parent := p }
    if start = some [] ∨ stop = some [] then (.error "key cannot be empty", s)
    else
      let cache := MemIterator.new keyInRange start stop isoSortedCache ascending
      (.ok (CacheMergeIterator.new P.iter treeIterator ascending parent cache), s)

/-- The cache as a store itself, so that caches can be stacked. -/
def store (P : KVStore σ ι) : KVStore (Store σ) (CacheIterator ι) where
  get := get P
  set := set
  delete := delete
  iterator := iterator P
  iter := CacheMergeIterator.iterator P.iter treeIterator

end CosmosSDK.CacheKV
