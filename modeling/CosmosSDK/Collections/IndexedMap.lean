import CosmosSDK.Collections.RoundTrip
import CosmosSDK.Store.PrefixEnd

/-!
# Indexed maps

`collections.IndexedMap` with the indexes `Multi`, `Unique` and `ReversePair`, over maps and key
sets that hold encoded keys and values.  Each collection has its entries behind a prefix of its
own.  The index of a reversed pair is for primary keys that are pairs.
-/

namespace CosmosSDK.Collections

open Store Math OrderedKV

inductive CollErr where
  /-- `ErrEncoding` of a key -/
  | keyCodec (err : CodecErr)
  /-- `ErrEncoding` of a value -/
  | valueCodec (text : String)
  /-- `ErrEncoding` for `read` bytes of a longer key -/
  | notConsumed (read : Nat)
  | notFound
  /-- `ErrConflict` of an index -/
  | conflict
  | invalidIterator
  /-- an error of the function that extracts reference keys -/
  | refKey (text : String)

/-- `codec.ValueCodec`, without the conversions to JSON and text. -/
structure ValueCodec (V : Type) where
  encode : V → Result CollErr Bytes
  decode : Bytes → Result CollErr V

/-- The entries of a collection, under their keys behind the prefix. -/
abbrev Entries := OrdMap Bytes Bytes

variable {K K1 K2 V PK RK : Type}

def liftCodec {α : Type} : Result CodecErr α → Result CollErr α
  | .ok a => .ok a
  | .error (.error err) => .error (.error (.keyCodec err))
  | .error (.panic text) => .error (.panic text)

/-- `EncodeKeyWithPrefix`, behind the prefix. -/
def encodeKey (kc : KeyCodec K) (key : K) : Result CollErr Bytes := do
  let written ← liftCodec (kc.encoding true key)
  .ok written.2

/-- `Iterator.Key`: the decoder has to consume the key. -/
def readKey (kc : KeyCodec K) (bytesKey : Bytes) : Result CollErr K := do
  let read ← liftCodec (kc.decode bytesKey)
  if read.1 = bytesKey.length then .ok read.2 else .error (.error (.notConsumed read.1))

def keyToValueCodec (kc : KeyCodec K) : ValueCodec K := ⟨encodeKey kc, readKey kc⟩

/-! ## Maps -/

structure Map (K V : Type) where
  prefixBytes : Bytes
  kc : KeyCodec K
  vc : ValueCodec V

namespace Map

variable (m : Map K V)

def set (key : K) (value : V) (entries : Entries) : Result CollErr Entries := do
  let bytesKey ← encodeKey m.kc key
  let valueBytes ← m.vc.encode value
  .ok (entries.insert bytesKey valueBytes)

def get (key : K) (entries : Entries) : Result CollErr V := do
  let bytesKey ← encodeKey m.kc key
  match entries[bytesKey]? with
  | none => .error (.error .notFound)
  | some valueBytes => m.vc.decode valueBytes

theorem get_of_some {key : K} {entries : Entries} {b w : Bytes} (hkey : encodeKey m.kc key = .ok b)
    (hlookup : entries[b]? = some w) : m.get key entries = m.vc.decode w := by
  unfold get
  rw [hkey, Fallible.ok_bind]
  simp only [hlookup]

theorem get_of_none {key : K} {entries : Entries} {b : Bytes} (hkey : encodeKey m.kc key = .ok b)
    (hlookup : entries[b]? = none) : m.get key entries = .error (.error .notFound) := by
  unfold get
  rw [hkey, Fallible.ok_bind]
  simp only [hlookup]

def has (key : K) (entries : Entries) : Result CollErr Bool := do
  let bytesKey ← encodeKey m.kc key
  .ok entries[bytesKey]?.isSome

def remove (key : K) (entries : Entries) : Result CollErr Entries := do
  let bytesKey ← encodeKey m.kc key
  .ok (entries.erase bytesKey)

/-- `Iterator.KeyValue`. -/
def keyValue (e : Bytes × Bytes) : Result CollErr (K × V) := do
  let key ← readKey m.kc e.1
  let value ← m.vc.decode e.2
  .ok (key, value)

end Map

/-- The iterator over the entries of a collection that start with some bytes. -/
def iterate (prefixBytes start : Bytes) (entries : Entries) : Result CollErr (List (Bytes × Bytes)) :=
  if compare (prefixBytes ++ start) ((prefixEndBytes (prefixBytes ++ start)).getD []) = .gt then
    .error (.error .invalidIterator)
  else .ok (entries.toList.filter (fun e =>
    inRange (some (prefixBytes ++ start)) (prefixEndBytes (prefixBytes ++ start))
      (prefixBytes ++ e.1)))

/-- The value codec of a `KeySet`. -/
def noValueCodec : ValueCodec Unit where
  encode _ := .ok []
  decode b := if b = [] then .ok () else .error (.error (.valueCodec "invalid value"))

/-! ## Indexes -/

inductive Index (PK V : Type) : Type 1 where
  | multi {RK : Type} (prefixBytes : Bytes) (refCodec : LawfulCodec RK) (pkCodec : LawfulCodec PK)
      (getRefKey : PK → V → Result CollErr RK)
  | unique {RK : Type} (prefixBytes : Bytes) (refCodec : LawfulCodec RK) (pkCodec : LawfulCodec PK)
      (getRefKey : PK → V → Result CollErr RK)
  /-- `zero1` and `zero2` stand for absent parts of a key -/
  | reversePair {K1 K2 : Type} (prefixBytes : Bytes) (keyCodec1 : LawfulCodec K1)
      (keyCodec2 : LawfulCodec K2) (zero1 : K1) (zero2 : K2) (pair : PK ≃ Pair K1 K2)

/-- The key set of `Multi`. -/
def multiKeys (prefixBytes : Bytes) (refCodec : LawfulCodec RK) (pkCodec : LawfulCodec PK) :
    Map (Pair RK PK) Unit :=
  ⟨prefixBytes, pairKeyCodec refCodec.codec pkCodec.codec, noValueCodec⟩

/-- The map of `Unique`. -/
def uniqueKeys (prefixBytes : Bytes) (refCodec : LawfulCodec RK) (pkCodec : LawfulCodec PK) :
    Map RK PK :=
  ⟨prefixBytes, refCodec.codec, keyToValueCodec pkCodec.codec⟩

def reversed (zero1 : K1) (zero2 : K2) (pk : Pair K1 K2) : Pair K2 K1 :=
  join (pk.key2.getD zero2) (pk.key1.getD zero1)

namespace Index

/-- `Reference`; `old` is what `lazyOldValue` returns. -/
def reference (pk : PK) (newValue : V) (old : Result CollErr V) (entries : Entries) :
    Index PK V → Result CollErr Entries
  | multi prefixBytes refCodec pkCodec getRefKey => do
      let entries ← match old with
        | .ok oldValue => do
            let refKey ← getRefKey pk oldValue
            (multiKeys prefixBytes refCodec pkCodec).remove (join refKey pk) entries
        | .error (.error .notFound) => .ok entries
        | .error err => .error err
      let refKey ← getRefKey pk newValue
      (multiKeys prefixBytes refCodec pkCodec).set (join refKey pk) () entries
  | unique prefixBytes refCodec pkCodec getRefKey => do
      let entries ← match old with
        | .ok oldValue => do
            let refKey ← getRefKey pk oldValue
            (uniqueKeys prefixBytes refCodec pkCodec).remove refKey entries
        | .error (.error .notFound) => .ok entries
        | .error err => .error err
      let refKey ← getRefKey pk newValue
      let has ← (uniqueKeys prefixBytes refCodec pkCodec).has refKey entries
      if has = true then .error (.error .conflict)
      else (uniqueKeys prefixBytes refCodec pkCodec).set refKey pk entries
  | reversePair prefixBytes keyCodec1 keyCodec2 zero1 zero2 pair =>
    (multiKeys prefixBytes keyCodec2 keyCodec1).set (reversed zero1 zero2 (pair pk)) () entries

/-- `Unreference`; `old` is what `lazyOldValue` returns. -/
def unreference (pk : PK) (old : Result CollErr V) (entries : Entries) :
    Index PK V → Result CollErr Entries
  | multi prefixBytes refCodec pkCodec getRefKey => do
      let value ← old
      let refKey ← getRefKey pk value
      (multiKeys prefixBytes refCodec pkCodec).remove (join refKey pk) entries
  | unique prefixBytes refCodec pkCodec getRefKey => do
      let value ← old
      let refKey ← getRefKey pk value
      (uniqueKeys prefixBytes refCodec pkCodec).remove refKey entries
  | reversePair prefixBytes keyCodec1 keyCodec2 zero1 zero2 pair =>
    (multiKeys prefixBytes keyCodec2 keyCodec1).remove (reversed zero1 zero2 (pair pk)) entries

def RefKey : Index PK V → Type
  | @multi _ _ RK _ _ _ _ => RK
  | @unique _ _ RK _ _ _ _ => RK
  | @reversePair _ _ _ K2 _ _ _ _ _ _ => K2

def refKey (pk : PK) (value : V) : (index : Index PK V) → Result CollErr index.RefKey
  | multi _ _ _ getRefKey => getRefKey pk value
  | unique _ _ _ getRefKey => getRefKey pk value
  | reversePair _ _ _ _ zero2 pair => .ok ((pair pk).key2.getD zero2)

def prefixBytes : Index PK V → Bytes
  | multi prefixBytes _ _ _ => prefixBytes
  | unique prefixBytes _ _ _ => prefixBytes
  | reversePair prefixBytes _ _ _ _ _ => prefixBytes

def both : Pair K1 K2 → Result CollErr (K1 × K2)
  | ⟨some k1, some k2⟩ => .ok (k1, k2)
  | _ => .error (.panic "absent part of a decoded pair")

def fullKey (e : Bytes × Bytes) : (index : Index PK V) → Result CollErr (index.RefKey × PK)
  | multi prefixBytes refCodec pkCodec _ => do
      let key ← readKey (multiKeys prefixBytes refCodec pkCodec).kc e.1
      both key
  | unique prefixBytes refCodec pkCodec _ => (uniqueKeys prefixBytes refCodec pkCodec).keyValue e
  | reversePair prefixBytes keyCodec1 keyCodec2 _ _ pair => do
      let key ← readKey (multiKeys prefixBytes keyCodec2 keyCodec1).kc e.1
      let parts ← both key
      .ok (parts.1, pair.symm (join parts.2 parts.1))

/-- `FullKeys` of the iterator over all of the index. -/
def fullKeys (index : Index PK V) (entries : Entries) : Result CollErr (List (index.RefKey × PK)) := do
  let iter ← iterate index.prefixBytes [] entries
  iter.mapM index.fullKey

/-- `PrimaryKeys` of the iterator over a range. -/
def primaryKeys (index : Index PK V) (start : Bytes) (entries : Entries) :
    Result CollErr (List PK) := do
  let iter ← iterate index.prefixBytes start entries
  let keys ← iter.mapM index.fullKey
  .ok (keys.map Prod.snd)

/-- The primary keys that `MatchExact` finds for a reference key. -/
def matchExact (entries : Entries) : (index : Index PK V) → index.RefKey → Result CollErr (List PK)
  | multi prefixBytes refCodec pkCodec getRefKey, refKey => do
      let start ← encodeKey (multiKeys prefixBytes refCodec pkCodec).kc ⟨some refKey, none⟩
      (multi prefixBytes refCodec pkCodec getRefKey).primaryKeys start entries
  | unique prefixBytes refCodec pkCodec _, refKey =>
    match (uniqueKeys prefixBytes refCodec pkCodec).get refKey entries with
    | .ok pk => .ok [pk]
    | .error (.error .notFound) => .ok []
    | .error err => .error err
  | @reversePair PK V _ _ prefixBytes keyCodec1 keyCodec2 zero1 zero2 pair, refKey => do
      let start ← encodeKey (multiKeys prefixBytes keyCodec2 keyCodec1).kc ⟨some refKey, none⟩
      (@reversePair PK V _ _ prefixBytes keyCodec1 keyCodec2 zero1 zero2 pair).primaryKeys start entries

end Index

/-! ## The indexed map -/

structure IndexedMap (PK V : Type) : Type 1 where
  prefixBytes : Bytes
  pkCodec : LawfulCodec PK
  valueCodec : ValueCodec V
  decode_encode : ∀ value b, valueCodec.encode value = .ok b → valueCodec.decode b = .ok value
  indexes : List (Index PK V)

structure State where
  primary : Entries
  indexes : List Entries

namespace IndexedMap

variable (im : IndexedMap PK V)

def m : Map PK V := ⟨im.prefixBytes, im.pkCodec.codec, im.valueCodec⟩

def empty : State := ⟨∅, im.indexes.map (fun _ => ∅)⟩

/-- `KeyValues` of the iterator over all of the map. -/
def keyValues (s : State) : Result CollErr (List (PK × V)) := do
  let iter ← iterate im.prefixBytes [] s.primary
  iter.mapM im.m.keyValue

def ref (pk : PK) (value : V) (old : Result CollErr V) :
    List (Index PK V) → List Entries → Result CollErr (List Entries)
  | index :: indexes, entries :: rest => do
      let entries ← index.reference pk value old entries
      let rest ← ref pk value old indexes rest
      .ok (entries :: rest)
  | _, _ => .ok []

def unref (pk : PK) (old : Result CollErr V) :
    List (Index PK V) → List Entries → Result CollErr (List Entries)
  | index :: indexes, entries :: rest => do
      let entries ← index.unreference pk old entries
      let rest ← unref pk old indexes rest
      .ok (entries :: rest)
  | _, _ => .ok []

def set (pk : PK) (value : V) (s : State) : Result CollErr State := do
  let indexes ← ref pk value (im.m.get pk s.primary) im.indexes s.indexes
  let primary ← im.m.set pk value s.primary
  .ok ⟨primary, indexes⟩

def remove (pk : PK) (s : State) : Result CollErr State := do
  let indexes ← unref pk (im.m.get pk s.primary) im.indexes s.indexes
  let primary ← im.m.remove pk s.primary
  .ok ⟨primary, indexes⟩

end IndexedMap

inductive Op (PK V : Type) where
  | set (pk : PK) (value : V)
  | remove (pk : PK)

namespace IndexedMap

def apply (im : IndexedMap PK V) : Op PK V → State → Result CollErr State
  | .set pk value, s => im.set pk value s
  | .remove pk, s => im.remove pk s

def run (im : IndexedMap PK V) : List (Op PK V) → State → Result CollErr State
  | [], s => .ok s
  | op :: ops, s => do
      let s ← im.apply op s
      run im ops s

end IndexedMap

end CosmosSDK.Collections
