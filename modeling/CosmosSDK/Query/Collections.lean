import CosmosSDK.Store.PrefixEnd
import CosmosSDK.Lib.Fallible

/-!
# Pagination of collections

`CollectionFilteredPaginate` of `types/query/collections_pagination.go` over a collection as
`collections.Map` keeps it: the values under their encoded keys, behind a prefix of the
collection.  An iterator is the list of the entries it still has to visit.
-/

namespace CosmosSDK.Query

open OrderedKV Store

inductive CollErr where
  /-- `collections.ErrInvalidIterator` -/
  | invalidIterator
  | encoding (err : String)
  | offsetAndKey
  /-- an error of the predicate or of the transformation -/
  | callback (err : String)
deriving DecidableEq, Repr

structure KeyCodec (K : Type) where
  encode : K → Except CollErr Bytes
  /-- the key and the number of bytes read -/
  decode : Bytes → Except CollErr (Nat × K)

structure Collection (K V : Type) where
  prefixBytes : Bytes
  keyCodec : KeyCodec K
  entries : OrdMap Bytes V

structure PageRequest where
  key : Option Bytes
  offset : Nat
  limit : Nat
  countTotal : Bool
  reverse : Bool
deriving DecidableEq, Repr

structure PageResponse where
  nextKey : Option Bytes
  total : Nat
deriving DecidableEq, Repr

def defaultLimit : Nat := 100

def initPageRequestDefaults (pageRequest : Option PageRequest) : PageRequest :=
  let req := pageRequest.getD ⟨none, 0, 0, false, false⟩
  let req := if (req.key.getD []).length = 0 then { req with key := none } else req
  if req.limit = 0 then { req with limit := defaultLimit, countTotal := true } else req

namespace Collection

variable {K V T : Type} (coll : Collection K V)

/-- The end of a raw iteration; without one it is the end of the collection. -/
def prefixedEnd : Option Bytes → Option Bytes
  | none => prefixEndBytes coll.prefixBytes
  | some stop => some (coll.prefixBytes ++ stop)

/-- `IterateRaw`.  A missing end compares as empty bytes. -/
def iterateRaw (start : Bytes) (stop : Option Bytes) (ascending : Bool) :
    Except CollErr (List (Bytes × V)) :=
  if compare (coll.prefixBytes ++ start) ((coll.prefixedEnd stop).getD []) = .gt then
    .error .invalidIterator
  else .ok (rangeList coll.entries (some start) stop ascending)

/-- `Iterator.Key`. -/
def key (coll : Collection K V) (e : Bytes × V) : Except CollErr K :=
  match coll.keyCodec.decode e.1 with
  | .error err => .error err
  | .ok (read, key) =>
    if read = e.1.length then .ok key
    else .error (.encoding "key decoder didn't fully consume the key")

/-- `Iterator.KeyValue`. -/
def keyValue (e : Bytes × V) : Except CollErr (K × V) :=
  match coll.key e with
  | .error err => .error err
  | .ok key => .ok (key, e.2)

def nextKey (e : Bytes × V) : Except CollErr Bytes :=
  coll.key e >>= coll.keyCodec.encode

def getCollIter (pfx : Option Bytes) (start : Bytes) (reverse : Bool) :
    Except CollErr (List (Bytes × V)) :=
  if reverse then
    coll.iterateRaw (pfx.getD []) (prefixEndBytes (pfx.getD [] ++ start)) false
  else
    match pfx with
    | none => coll.iterateRaw start none true
    | some p => coll.iterateRaw (p ++ start) (prefixEndBytes p) true

/-- `nil` as a predicate includes everything. -/
def includes (predicate : Option (K → V → Except CollErr Bool)) (kv : K × V) :
    Except CollErr Bool :=
  match predicate with
  | none => .ok true
  | some f => f kv.1 kv.2

def advanceIter : List (Bytes × V) → Nat → Option (List (Bytes × V))
  | l, 0 => some l
  | [], _ + 1 => none
  | _ :: l, offset + 1 => advanceIter l offset

/-- The loop of `collFilteredPaginateNoKey`: the results, the next key and, when the
iterator was consumed, the count. -/
def noKeyLoop (coll : Collection K V) (limit : Nat) (countTotal : Bool)
    (predicate : Option (K → V → Except CollErr Bool)) (transform : K → V → Except CollErr T) :
    List (Bytes × V) → Nat → Option Bytes → List T →
      Except CollErr (List T × Option Bytes × Option Nat)
  | [], count, next, results => .ok (results, next, some count)
  | e :: rest, count, next, results =>
    if count < limit then do
      let kv ← coll.keyValue e
      let included ← includes predicate kv
      if included then
        let transformed ← transform kv.1 kv.2
        noKeyLoop coll limit countTotal predicate transform rest (count + 1) next
          (results ++ [transformed])
      else noKeyLoop coll limit countTotal predicate transform rest count next results
    else do
      -- the next key is only taken at the limit, past it the entries are counted
      let next ← if count = limit then some <$> coll.nextKey e else .ok next
      if count = limit ∧ countTotal = false then .ok (results, next, none)
      else
        match predicate with
        | none =>
          noKeyLoop coll limit countTotal predicate transform rest (count + 1) next results
        | some f => do
            let kv ← coll.keyValue e
            let included ← f kv.1 kv.2
            noKeyLoop coll limit countTotal predicate transform rest
              (if included then count + 1 else count) next results

/-- The total of a page, set only when the iterator was consumed for it. -/
def totalOf (countTotal : Bool) (offset : Nat) : Option Nat → Nat
  | some count => if countTotal then count + offset else 0
  | none => 0

def collFilteredPaginateNoKey (pfx : Option Bytes) (reverse : Bool)
    (offset limit : Nat) (countTotal : Bool) (predicate : Option (K → V → Except CollErr Bool))
    (transform : K → V → Except CollErr T) : Except CollErr (List T × PageResponse) := do
  let iterator ← coll.getCollIter pfx [] reverse
  match advanceIter iterator offset with
  | none => .error .invalidIterator
  | some iterator =>
    let (results, next, count) ←
      coll.noKeyLoop limit countTotal predicate transform iterator 0 none []
    .ok (results, ⟨next, totalOf countTotal offset count⟩)

/-- The loop of `collFilteredPaginateByKey`. -/
def byKeyLoop (coll : Collection K V) (limit : Nat)
    (predicate : Option (K → V → Except CollErr Bool)) (transform : K → V → Except CollErr T) :
    List (Bytes × V) → Nat → List T → Except CollErr (List T × Option Bytes)
  | [], _, results => .ok (results, none)
  | e :: rest, count, results => do
      let kv ← coll.keyValue e
      let included ← includes predicate kv
      if included then
        let transformed ← transform kv.1 kv.2
        if count = limit then
          let next ← coll.nextKey e
          .ok (results, some next)
        else byKeyLoop coll limit predicate transform rest (count + 1) (results ++ [transformed])
      else byKeyLoop coll limit predicate transform rest count results

def collFilteredPaginateByKey (pfx : Option Bytes) (start : Bytes)
    (reverse : Bool) (limit : Nat) (predicate : Option (K → V → Except CollErr Bool))
    (transform : K → V → Except CollErr T) : Except CollErr (List T × PageResponse) := do
  let iterator ← coll.getCollIter pfx start reverse
  let (results, next) ← coll.byKeyLoop limit predicate transform iterator 0 []
  .ok (results, ⟨next, 0⟩)

def encodePrefix : Option K → Except CollErr (Option Bytes)
  | none => .ok none
  | some k => some <$> coll.keyCodec.encode k

/-- The page of a request, before the prefix is stripped from its next key. -/
def page (req : PageRequest) (pfx : Option Bytes)
    (predicate : Option (K → V → Except CollErr Bool)) (transform : K → V → Except CollErr T) :
    Except CollErr (List T × PageResponse) :=
  match req.key with
  | none | some [] =>
    coll.collFilteredPaginateNoKey pfx req.reverse req.offset req.limit req.countTotal predicate
      transform
  | some start =>
    coll.collFilteredPaginateByKey pfx start req.reverse req.limit predicate transform

def stripPrefix (pfx : Option Bytes) (res : PageResponse) : PageResponse :=
  match pfx, res.nextKey with
  | some p, some next =>
    if next.length = 0 then res else { res with nextKey := some (next.drop p.length) }
  | _, _ => res

def collectionFilteredPaginate (pageReq : Option PageRequest)
    (predicate : Option (K → V → Except CollErr Bool)) (transform : K → V → Except CollErr T)
    (opt : Option K) : Except CollErr (List T × PageResponse) :=
  let req := initPageRequestDefaults pageReq
  if req.offset > 0 ∧ req.key ≠ none then .error .offsetAndKey
  else do
    let pfx ← coll.encodePrefix opt
    match coll.page req pfx predicate transform with
    -- an invalid iterator is an empty page, as for `Paginate`
    | .error .invalidIterator => .ok ([], ⟨none, 0⟩)
    | .error err => .error err
    | .ok (results, res) => .ok (results, stripPrefix pfx res)

end Collection

end CosmosSDK.Query
