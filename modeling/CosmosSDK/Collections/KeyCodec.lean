import CosmosSDK.Lib.BigEndian
import CosmosSDK.Lib.Coding
import CosmosSDK.Math.Int
import CosmosSDK.Store.KVStore

/-!
# Key codecs

The codecs of `collections/codec` for strings, bytes, integers and booleans, and those of
`collections` for keys of two, three and four parts.  A string is its bytes.  The parts of a
key may be absent, as in the keys that bound a range.
-/

namespace CosmosSDK.Collections

open Store Math Coding BigEndian

inductive CodecErr where
  /-- `ErrEncoding` with its text -/
  | encoding (text : String)

/-- `codec.KeyCodec`, without the conversions to JSON and text. -/
structure KeyCodec (K : Type) where
  encode : K → Writer (Fault CodecErr)
  decode : Reader (Fault CodecErr) K
  size : K → Nat
  encodeNonTerminal : K → Writer (Fault CodecErr)
  decodeNonTerminal : Reader (Fault CodecErr) K
  sizeNonTerminal : K → Nat

namespace KeyCodec

variable {K : Type}

/-! The functions for a key that ends the encoding, or does not. -/

def encodeAt (c : KeyCodec K) (terminal : Bool) : K → Writer (Fault CodecErr) :=
  if terminal then c.encode else c.encodeNonTerminal

def decodeAt (c : KeyCodec K) (terminal : Bool) : Reader (Fault CodecErr) K :=
  if terminal then c.decode else c.decodeNonTerminal

def sizeAt (c : KeyCodec K) (terminal : Bool) : K → Nat :=
  if terminal then c.size else c.sizeNonTerminal

/-- The encoding of a key, in a buffer of its size. -/
def encoding (c : KeyCodec K) (terminal : Bool) (key : K) : Result CodecErr (Nat × Bytes) :=
  c.encodeAt terminal key (zeros (c.sizeAt terminal key))

end KeyCodec

/-! ## Strings and bytes -/

/-- `copy`: as much as there is room for. -/
def copy (key : Bytes) : Writer (Fault CodecErr) := fun buffer =>
  .ok (min buffer.length key.length, key.take buffer.length ++ buffer.drop key.length)

def stringDelimiter : UInt8 := 0

/-- The length of a rune by its first byte, and the bounds of its second byte. -/
def leading (b : UInt8) : Option (Nat × UInt8 × UInt8) :=
  if b < 0xC2 then none
  else if b < 0xE0 then some (2, 0x80, 0xBF)
  else if b = 0xE0 then some (3, 0xA0, 0xBF)
  else if b = 0xED then some (3, 0x80, 0x9F)
  else if b < 0xF0 then some (3, 0x80, 0xBF)
  else if b = 0xF0 then some (4, 0x90, 0xBF)
  else if b < 0xF4 then some (4, 0x80, 0xBF)
  else if b = 0xF4 then some (4, 0x80, 0x8F)
  else none

/-- How many bytes the first rune of a string has; a byte that begins no rune counts as one. -/
def runeWidth : Bytes → Nat
  | [] => 0
  | b :: rest =>
    match leading b with
    | none => 1
    | some (size, low, high) =>
      match rest.take (size - 1) with
      | [] => 1
      | b1 :: more =>
        if more.length + 2 = size ∧ low ≤ b1 ∧ b1 ≤ high ∧
          more.all (fun b => 0x80 ≤ b && b ≤ 0xBF) then size else 1

def delimiterNotAllowed : CodecErr :=
  .encoding "string is not allowed to have the string delimiter (\x00) in non terminal encodings of strings"

/-- The loop `for i := range key` of `stringKey.EncodeNonTerminal`: it visits the first byte of
each rune; `skip` bytes of the current rune are left. -/
def encodeRunes (skip : Nat) : Bytes → Bytes → Result CodecErr Bytes
  | [], buffer => .ok buffer
  | c :: key, [] =>
    match skip with
    | skip + 1 => encodeRunes skip key []
    | 0 =>
      if c = stringDelimiter then .error (.error delimiterNotAllowed)
      else .error (.panic "index out of range")
  | c :: key, b :: buffer =>
    match skip with
    | skip + 1 => do
        let buffer ← encodeRunes skip key buffer
        .ok (b :: buffer)
    | 0 =>
      if c = stringDelimiter then .error (.error delimiterNotAllowed)
      else do
        let buffer ← encodeRunes (runeWidth (c :: key) - 1) key buffer
        .ok (c :: buffer)

def stringKey : KeyCodec Bytes where
  encode := copy
  decode buffer := .ok (buffer.length, buffer)
  size := List.length
  encodeNonTerminal key buffer := do
    let buffer ← encodeRunes 0 key buffer
    .ok (key.length + 1, buffer)
  decodeNonTerminal buffer :=
    if stringDelimiter ∈ buffer then
      .ok (buffer.idxOf stringDelimiter + 1, buffer.take (buffer.idxOf stringDelimiter))
    else .error (.error (.encoding
      "not a valid non terminal buffer, no instances of the string delimiter \x00 found"))
  sizeNonTerminal key := key.length + 1

def maxBytesKeyNonTerminalSize : Nat := 255

def bytesKey : KeyCodec Bytes where
  encode := copy
  decode buffer := .ok (buffer.length, buffer)
  size := List.length
  encodeNonTerminal key buffer :=
    if maxBytesKeyNonTerminalSize < key.length then
      .error (.error (.encoding
        ("bytes key non terminal size cannot exceed: 255, got: " ++ toString key.length)))
    else
      match buffer with
      | [] => .error (.panic "index out of range")
      | _ :: buffer => do
          let written ← copy key buffer
          .ok (written.1 + 1, UInt8.ofNat key.length :: written.2)
  decodeNonTerminal
    | [] => .error (.error (.encoding "bytes key non terminal decoding cannot have an empty buffer"))
    | keyLength :: buffer =>
      if buffer.length < keyLength.toNat then
        .error (.error (.encoding ("bytes key non terminal decoding isn't big enough, want at least: " ++
          toString keyLength ++ ", got: " ++ toString buffer.length)))
      else .ok (1 + keyLength.toNat, buffer.take keyLength.toNat)
  sizeNonTerminal key := key.length + 1

/-! ## Integers and booleans -/

/-- Bytes at the front of a buffer that must have room for them. -/
def put (bytes : Bytes) : Writer (Fault CodecErr) := fun buffer =>
  if buffer.length < bytes.length then .error (.panic "index out of range")
  else .ok (bytes.length, bytes ++ buffer.drop bytes.length)

/-- A codec of keys in `width` bytes, the same in all positions. -/
def fixedKey {K : Type} (width : Nat) (text : Nat → String) (toBytes : K → Bytes) (ofBytes : Bytes → K) :
    KeyCodec K where
  encode key := put (toBytes key)
  decode buffer :=
    if buffer.length < width then .error (.error (.encoding (text buffer.length)))
    else .ok (width, ofBytes (buffer.take width))
  size _ := width
  encodeNonTerminal key := put (toBytes key)
  decodeNonTerminal buffer :=
    if buffer.length < width then .error (.error (.encoding (text buffer.length)))
    else .ok (width, ofBytes (buffer.take width))
  sizeNonTerminal _ := width

/-- The highest bit is flipped, so that negative numbers come first. -/
def flipSign : Bytes → Bytes
  | [] => []
  | b :: bytes => (b ^^^ 0x80) :: bytes

def int64Key : KeyCodec Int64 :=
  fixedKey 8 (fun _ => "invalid buffer size, wanted: 8")
    (fun key => flipSign (bytes 8 key.toUInt64.toNat))
    (fun buffer => (UInt64.ofNat (value (flipSign buffer))).toInt64)

def int32Key : KeyCodec Int32 :=
  fixedKey 4 (fun _ => "invalid buffer size, wanted: 4")
    (fun key => flipSign (bytes 4 key.toUInt32.toNat))
    (fun buffer => (UInt32.ofNat (value (flipSign buffer))).toInt32)

def uint64Key : KeyCodec UInt64 :=
  fixedKey 8 (fun size => "wanted at least 8, got: " ++ toString size)
    (fun key => bytes 8 key.toNat)
    (fun buffer => UInt64.ofNat (value buffer))

def uint32Key : KeyCodec UInt32 :=
  fixedKey 4 (fun _ => "expected buffer of size 4") (fun key => bytes 4 key.toNat)
    (fun buffer => UInt32.ofNat (value buffer))

def uint16Key : KeyCodec UInt16 :=
  fixedKey 2 (fun _ => "invalid buffer size, wanted at least 2")
    (fun key => bytes 2 key.toNat)
    (fun buffer => UInt16.ofNat (value buffer))

/-- `boolKey.Decode`. -/
def decodeBool : Reader (Fault CodecErr) Bool
  | [] => .error (.error (.encoding "wanted size to be at least 1"))
  | b :: _ =>
    if b = 0 then .ok (1, false)
    else if b = 1 then .ok (1, true)
    else .error (.error (.encoding ("invalid bool value: " ++ toString b)))

def boolKey : KeyCodec Bool where
  encode key := put [if key then 1 else 0]
  decode := decodeBool
  size _ := 1
  encodeNonTerminal key := put [if key then 1 else 0]
  decodeNonTerminal := decodeBool
  sizeNonTerminal _ := 1

/-! ## Keys of several parts -/

structure Pair (K1 K2 : Type) where
  key1 : Option K1
  key2 : Option K2

structure Triple (K1 K2 K3 : Type) where
  k1 : Option K1
  k2 : Option K2
  k3 : Option K3

structure Quad (K1 K2 K3 K4 : Type) where
  k1 : Option K1
  k2 : Option K2
  k3 : Option K3
  k4 : Option K4

section Composite

variable {K1 K2 K3 K4 : Type}

def join (key1 : K1) (key2 : K2) : Pair K1 K2 := ⟨some key1, some key2⟩

def join3 (k1 : K1) (k2 : K2) (k3 : K3) : Triple K1 K2 K3 := ⟨some k1, some k2, some k3⟩

def join4 (k1 : K1) (k2 : K2) (k3 : K3) (k4 : K4) : Quad K1 K2 K3 K4 :=
  ⟨some k1, some k2, some k3, some k4⟩

variable (keyCodec1 : KeyCodec K1) (keyCodec2 : KeyCodec K2) (keyCodec3 : KeyCodec K3)
  (keyCodec4 : KeyCodec K4)

def pairKeyCodec : KeyCodec (Pair K1 K2) where
  encode pair :=
    (part keyCodec1.encodeNonTerminal pair.key1).andThen (part keyCodec2.encode pair.key2)
  decode :=
    (keyCodec1.decodeNonTerminal.andThen keyCodec2.decode).map (fun (key1, key2) => join key1 key2)
  size pair := partSize keyCodec1.sizeNonTerminal pair.key1 + partSize keyCodec2.size pair.key2
  encodeNonTerminal pair :=
    (part keyCodec1.encodeNonTerminal pair.key1).andThen
      (part keyCodec2.encodeNonTerminal pair.key2)
  decodeNonTerminal :=
    (keyCodec1.decodeNonTerminal.andThen keyCodec2.decodeNonTerminal).map
      (fun (key1, key2) => join key1 key2)
  sizeNonTerminal pair :=
    partSize keyCodec1.sizeNonTerminal pair.key1 + partSize keyCodec2.sizeNonTerminal pair.key2

def tripleKeyCodec : KeyCodec (Triple K1 K2 K3) where
  encode key :=
    (part keyCodec1.encodeNonTerminal key.k1).andThen
      ((part keyCodec2.encodeNonTerminal key.k2).andThen (part keyCodec3.encode key.k3))
  decode :=
    (keyCodec1.decodeNonTerminal.andThen (keyCodec2.decodeNonTerminal.andThen keyCodec3.decode)).map
      (fun (k1, k2, k3) => join3 k1 k2 k3)
  size key :=
    partSize keyCodec1.sizeNonTerminal key.k1 +
      (partSize keyCodec2.sizeNonTerminal key.k2 + partSize keyCodec3.size key.k3)
  encodeNonTerminal key :=
    (part keyCodec1.encodeNonTerminal key.k1).andThen
      ((part keyCodec2.encodeNonTerminal key.k2).andThen (part keyCodec3.encodeNonTerminal key.k3))
  decodeNonTerminal :=
    (keyCodec1.decodeNonTerminal.andThen
        (keyCodec2.decodeNonTerminal.andThen keyCodec3.decodeNonTerminal)).map
      (fun (k1, k2, k3) => join3 k1 k2 k3)
  sizeNonTerminal key :=
    partSize keyCodec1.sizeNonTerminal key.k1 +
      (partSize keyCodec2.sizeNonTerminal key.k2 + partSize keyCodec3.sizeNonTerminal key.k3)

def quadKeyCodec : KeyCodec (Quad K1 K2 K3 K4) where
  encode key :=
    (part keyCodec1.encodeNonTerminal key.k1).andThen
      ((part keyCodec2.encodeNonTerminal key.k2).andThen
        ((part keyCodec3.encodeNonTerminal key.k3).andThen (part keyCodec4.encode key.k4)))
  decode :=
    (keyCodec1.decodeNonTerminal.andThen (keyCodec2.decodeNonTerminal.andThen
        (keyCodec3.decodeNonTerminal.andThen keyCodec4.decode))).map
      (fun (k1, k2, k3, k4) => join4 k1 k2 k3 k4)
  size key :=
    partSize keyCodec1.sizeNonTerminal key.k1 + (partSize keyCodec2.sizeNonTerminal key.k2 +
      (partSize keyCodec3.sizeNonTerminal key.k3 + partSize keyCodec4.size key.k4))
  encodeNonTerminal key :=
    (part keyCodec1.encodeNonTerminal key.k1).andThen
      ((part keyCodec2.encodeNonTerminal key.k2).andThen
        ((part keyCodec3.encodeNonTerminal key.k3).andThen
          (part keyCodec4.encodeNonTerminal key.k4)))
  decodeNonTerminal :=
    (keyCodec1.decodeNonTerminal.andThen (keyCodec2.decodeNonTerminal.andThen
        (keyCodec3.decodeNonTerminal.andThen keyCodec4.decodeNonTerminal))).map
      (fun (k1, k2, k3, k4) => join4 k1 k2 k3 k4)
  sizeNonTerminal key :=
    partSize keyCodec1.sizeNonTerminal key.k1 + (partSize keyCodec2.sizeNonTerminal key.k2 +
      (partSize keyCodec3.sizeNonTerminal key.k3 + partSize keyCodec4.sizeNonTerminal key.k4))

end Composite

end CosmosSDK.Collections
