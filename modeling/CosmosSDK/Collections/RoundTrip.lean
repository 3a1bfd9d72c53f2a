import CosmosSDK.Collections.KeyCodec

/-!
# Keys that can be read back

A codec is lawful with respect to a condition on keys if it codes every key that it accepts in
its size, and decodes those that meet the condition, in the middle of an encoding or at its end,
to themselves.
-/

namespace CosmosSDK.Collections

open Store Coding Fallible List BigEndian Nat

variable {K K1 K2 K3 K4 : Type}

/-- A codec codes all keys, and reads back those that are good in their position. -/
def Lawful (c : KeyCodec K) (good : Bool → K → Prop) : Prop :=
  ∀ terminal key, Codes (c.encodeAt terminal key) (c.sizeAt terminal key) (c.decodeAt terminal) key
    terminal (good terminal key)

theorem lawful_of {c : KeyCodec K} {good : Bool → K → Prop}
    (hterminal : ∀ key, Codes (c.encode key) (c.size key) c.decode key true (good true key))
    (hnonTerminal : ∀ key, Codes (c.encodeNonTerminal key) (c.sizeNonTerminal key)
      c.decodeNonTerminal key false (good false key)) : Lawful c good := by
  intro terminal key
  cases terminal with
  | true => exact hterminal key
  | false => exact hnonTerminal key

structure LawfulCodec (K : Type) where
  codec : KeyCodec K
  good : Bool → K → Prop
  lawful : Lawful codec good

/-! ## Strings and bytes -/

theorem copy_fills (key : Bytes) : Fills (copy key) key.length key where
  length := rfl
  write tail := by simp [copy]

theorem copy_codes (key : Bytes) :
    Codes (copy key) key.length (fun buffer => .ok (buffer.length, buffer)) key true True := by
  refine .inr ⟨key, copy_fills key, ⟨fun _ rest hrest => ?_, fun h => absurd trivial h⟩⟩
  rw [hrest rfl, append_nil]

/-- All runes of a string have one byte. -/
def SingleBytes : Bytes → Prop
  | [] => True
  | c :: key => runeWidth (c :: key) = 1 ∧ SingleBytes key

instance SingleBytes.decidable : ∀ key, Decidable (SingleBytes key)
  | [] => .isTrue trivial
  | _ :: key =>
    have := SingleBytes.decidable key
    inferInstanceAs (Decidable (_ ∧ _))

theorem runeWidth_cases (c : UInt8) (key : Bytes) :
    runeWidth (c :: key) = 1 ∨ (1 < runeWidth (c :: key) ∧ key ≠ []) := by
  grind [runeWidth]

/-- What the loop over the runes leaves in a fresh buffer: the string, if its runes have one
byte each, and otherwise bytes with a zero among them. -/
theorem encodeRunes_cases (skip : Nat) (key : Bytes) :
    (∀ tail, ∃ e, encodeRunes skip key (zeros key.length ++ tail) = .error e) ∨
    ∃ out, out.length = key.length ∧
      (∀ tail, encodeRunes skip key (zeros key.length ++ tail) = .ok (out ++ tail)) ∧
      (skip = 0 → SingleBytes key → out = key ∧ stringDelimiter ∉ out) ∧
      ((0 < skip ∧ key ≠ []) ∨ ¬ SingleBytes key → stringDelimiter ∈ out) := by
  induction key generalizing skip with
  | nil => exact .inr ⟨[], rfl, fun _ => rfl, fun _ _ => ⟨rfl, by simp⟩, by simp [SingleBytes]⟩
  | cons c key ih =>
    have hzeros (tail : Bytes) : zeros (c :: key).length ++ tail = 0 :: (zeros key.length ++ tail) := rfl
    cases skip with
    | succ skip =>
      -- the byte is not visited and stays zero
      cases ih skip with
      | inl hfails =>
        refine .inl fun tail => ?_
        obtain ⟨e, he⟩ := hfails tail
        exact ⟨e, by rw [hzeros, encodeRunes, he, error_bind]⟩
      | inr hwrites =>
        obtain ⟨out, hlength, hwrite, _⟩ := hwrites
        refine .inr ⟨0 :: out, by simp [hlength], fun tail => ?_, by simp, fun _ => ?_⟩
        · rw [hzeros, encodeRunes, hwrite, ok_bind, cons_append]
        · exact mem_cons_self
    | zero =>
      by_cases hdelimiter : c = stringDelimiter
      · exact .inl fun tail => ⟨_, by rw [hzeros, encodeRunes, if_pos hdelimiter]⟩
      · cases ih (runeWidth (c :: key) - 1) with
        | inl hfails =>
          refine .inl fun tail => ?_
          obtain ⟨e, he⟩ := hfails tail
          exact ⟨e, by rw [hzeros, encodeRunes, if_neg hdelimiter, he, error_bind]⟩
        | inr hwrites =>
          obtain ⟨out, hlength, hwrite, hgood, hbad⟩ := hwrites
          refine .inr ⟨c :: out, by simp [hlength], fun tail => ?_, fun _ hsingle => ?_, fun h => ?_⟩
          · rw [hzeros, encodeRunes, if_neg hdelimiter, hwrite, ok_bind, cons_append]
          · obtain ⟨hout, hmem⟩ := hgood (by have := hsingle.1; omega) hsingle.2
            refine ⟨by rw [hout], fun hin => ?_⟩
            cases mem_cons.mp hin with
            | inl heq => exact hdelimiter heq.symm
            | inr hin => exact hmem hin
          · apply mem_cons_of_mem
            apply hbad
            have hnot : ¬ SingleBytes (c :: key) := h.resolve_left (by simp)
            cases runeWidth_cases c key with
            | inl hone => exact .inr fun hsingle => hnot ⟨hone, hsingle⟩
            | inr hmore => exact .inl ⟨by omega, hmore.2⟩

/-- A string in the middle of a key can be read back if its runes have one byte each. -/
theorem stringKey_codes_nonTerminal (key : Bytes) :
    Codes (stringKey.encodeNonTerminal key) (stringKey.sizeNonTerminal key)
      stringKey.decodeNonTerminal key false (SingleBytes key) := by
  have hfresh (tail : Bytes) :
      zeros (key.length + 1) ++ tail = zeros key.length ++ (stringDelimiter :: tail) := by
    rw [zeros_add, append_assoc]
    rfl
  cases encodeRunes_cases 0 key with
  | inl hfails =>
    refine .inl fun tail => ?_
    obtain ⟨e, he⟩ := hfails (stringDelimiter :: tail)
    refine ⟨e, ?_⟩
    show (encodeRunes 0 key (zeros (key.length + 1) ++ tail) >>= _) = _
    rw [hfresh, he, error_bind]
  | inr hwrites =>
    obtain ⟨out, hlength, hwrite, hgood, hbad⟩ := hwrites
    refine .inr ⟨out ++ [stringDelimiter], ⟨?_, fun tail => ?_⟩, ⟨fun hsingle rest _ => ?_,
      fun hnot rest n heq => ?_⟩⟩
    · rw [length_append, hlength]
      rfl
    · show (encodeRunes 0 key (zeros (key.length + 1) ++ tail) >>= _) = _
      rw [hfresh, hwrite, ok_bind, append_assoc]
      rfl
    · obtain ⟨rfl, hmem⟩ := hgood rfl hsingle
      have hidx : (out ++ [stringDelimiter] ++ rest).idxOf stringDelimiter = out.length := by
        rw [append_assoc, idxOf_append_of_notMem hmem]
        simp
      show (if stringDelimiter ∈ out ++ [stringDelimiter] ++ rest then _ else _) = _
      rw [if_pos (by simp), hidx]
      simp
    · -- the key that is read ends before the first zero, so it is shorter
      have hmem : stringDelimiter ∈ out := hbad (.inr hnot)
      have hidx : (out ++ [stringDelimiter] ++ rest).idxOf stringDelimiter < out.length := by
        rw [append_assoc, idxOf_append_of_mem hmem]
        exact idxOf_lt_length_of_mem hmem
      have heq : (if stringDelimiter ∈ out ++ [stringDelimiter] ++ rest then _ else _) =
        Except.ok (n, key) := heq
      rw [if_pos (by simp)] at heq
      have hkey := congrArg List.length (Prod.mk.inj (Except.ok.inj heq)).2
      rw [length_take] at hkey
      omega

theorem stringKey_lawful : Lawful stringKey (fun terminal key => terminal = true ∨ SingleBytes key) := by
  apply lawful_of
  · intro key
    rw [eq_self, true_or]
    exact copy_codes key
  · intro key
    rw [Bool.false_eq_true, false_or]
    exact stringKey_codes_nonTerminal key

theorem bytesKey_codes_nonTerminal (key : Bytes) :
    Codes (bytesKey.encodeNonTerminal key) (bytesKey.sizeNonTerminal key)
      bytesKey.decodeNonTerminal key false True := by
  by_cases hlong : maxBytesKeyNonTerminalSize < key.length
  · exact .inl fun tail => ⟨_, if_pos hlong⟩
  · have hlength : (UInt8.ofNat key.length).toNat = key.length := by
      unfold maxBytesKeyNonTerminalSize at hlong
      rw [UInt8.toNat_ofNat']
      omega
    refine .inr ⟨UInt8.ofNat key.length :: key, ⟨rfl, fun tail => ?_⟩, ⟨fun _ rest _ => ?_,
      fun h => absurd trivial h⟩⟩
    · show (if _ then _ else _) = _
      rw [if_neg hlong]
      show (copy key (zeros key.length ++ tail) >>= _) = _
      rw [(copy_fills key).write, ok_bind]
      rfl
    · have hread : bytesKey.decodeNonTerminal (UInt8.ofNat key.length :: (key ++ rest)) =
          .ok (1 + key.length, key) := by
        simp [bytesKey, hlength]
      rw [cons_append, hread, length_cons, add_comm]

theorem bytesKey_lawful : Lawful bytesKey (fun _ _ => True) :=
  lawful_of copy_codes bytesKey_codes_nonTerminal

/-! ## Integers and booleans -/

theorem put_fills (bytes : Bytes) : Fills (put bytes) bytes.length bytes where
  length := rfl
  write tail := by simp [put]

theorem fixedKey_lawful {width : Nat} {text : Nat → String} {toBytes : K → Bytes}
    {ofBytes : Bytes → K} (hwidth : ∀ key, (toBytes key).length = width)
    (hback : ∀ key, ofBytes (toBytes key) = key) :
    Lawful (fixedKey width text toBytes ofBytes) (fun _ _ => True) := by
  have hcodes (key : K) (terminal : Bool) :
      Codes (put (toBytes key)) width (fixedKey width text toBytes ofBytes).decode key terminal True := by
    refine .inr ⟨toBytes key, hwidth key ▸ put_fills (toBytes key), ⟨fun _ rest _ => ?_,
      fun h => absurd trivial h⟩⟩
    show (if (toBytes key ++ rest).length < width then _ else _) = _
    rw [if_neg (by simp [hwidth]), ← hwidth key, take_left, hback]
  exact lawful_of (fun key => hcodes key true) fun key => hcodes key false

theorem length_flipSign (bytes : Bytes) : (flipSign bytes).length = bytes.length := by
  cases bytes <;> rfl

theorem flipSign_flipSign (bytes : Bytes) : flipSign (flipSign bytes) = bytes := by
  cases bytes with
  | nil => rfl
  | cons b bytes =>
    show (b ^^^ 0x80 ^^^ 0x80) :: bytes = b :: bytes
    rw [UInt8.xor_assoc, UInt8.xor_self, UInt8.xor_zero]

theorem int64Key_lawful : Lawful int64Key (fun _ _ => True) := by
  apply fixedKey_lawful
  · intro key
    rw [length_flipSign, length_bytes]
  · intro key
    have hlt : key.toUInt64.toNat < 256 ^ 8 := key.toUInt64.toNat_lt
    rw [flipSign_flipSign, value_bytes, mod_eq_of_lt hlt]
    simp

theorem int32Key_lawful : Lawful int32Key (fun _ _ => True) := by
  apply fixedKey_lawful
  · intro key
    rw [length_flipSign, length_bytes]
  · intro key
    have hlt : key.toUInt32.toNat < 256 ^ 4 := key.toUInt32.toNat_lt
    rw [flipSign_flipSign, value_bytes, mod_eq_of_lt hlt]
    simp

theorem uint64Key_lawful : Lawful uint64Key (fun _ _ => True) := by
  apply fixedKey_lawful
  · intro key
    rw [length_bytes]
  · intro key
    have hlt : key.toNat < 256 ^ 8 := key.toNat_lt
    rw [value_bytes, mod_eq_of_lt hlt]
    simp

theorem uint32Key_lawful : Lawful uint32Key (fun _ _ => True) := by
  apply fixedKey_lawful
  · intro key
    rw [length_bytes]
  · intro key
    have hlt : key.toNat < 256 ^ 4 := key.toNat_lt
    rw [value_bytes, mod_eq_of_lt hlt]
    simp

theorem uint16Key_lawful : Lawful uint16Key (fun _ _ => True) := by
  apply fixedKey_lawful
  · intro key
    rw [length_bytes]
  · intro key
    have hlt : key.toNat < 256 ^ 2 := key.toNat_lt
    rw [value_bytes, mod_eq_of_lt hlt]
    simp

theorem boolKey_lawful : Lawful boolKey (fun _ _ => True) := by
  have hcodes (key terminal : Bool) :
      Codes (put [if key then 1 else 0]) 1 decodeBool key terminal True := by
    refine .inr ⟨_, put_fills _, ⟨fun _ rest _ => ?_, fun h => absurd trivial h⟩⟩
    cases key <;> rfl
  exact lawful_of (fun key => hcodes key true) fun key => hcodes key false

/-! ## Keys of several parts -/

section Composite

variable {c1 : KeyCodec K1} {c2 : KeyCodec K2} {c3 : KeyCodec K3} {c4 : KeyCodec K4}
  {good1 : Bool → K1 → Prop} {good2 : Bool → K2 → Prop} {good3 : Bool → K3 → Prop}
  {good4 : Bool → K4 → Prop}

theorem Lawful.part (h : Lawful c1 good1) (terminal : Bool) (key : Option K1) :
    Codes (Coding.part (c1.encodeAt terminal) key) (partSize (c1.sizeAt terminal) key)
      ((c1.decodeAt terminal).map some) key terminal (Present (good1 terminal) key) :=
  Codes.part (h terminal) key

def PairGood (good1 : Bool → K1 → Prop) (good2 : Bool → K2 → Prop) (terminal : Bool)
    (pair : Pair K1 K2) : Prop :=
  Present (good1 false) pair.key1 ∧ Present (good2 terminal) pair.key2

def TripleGood (good1 : Bool → K1 → Prop) (good2 : Bool → K2 → Prop) (good3 : Bool → K3 → Prop)
    (terminal : Bool) (key : Triple K1 K2 K3) : Prop :=
  Present (good1 false) key.k1 ∧ Present (good2 false) key.k2 ∧ Present (good3 terminal) key.k3

def QuadGood (good1 : Bool → K1 → Prop) (good2 : Bool → K2 → Prop) (good3 : Bool → K3 → Prop)
    (good4 : Bool → K4 → Prop) (terminal : Bool) (key : Quad K1 K2 K3 K4) : Prop :=
  Present (good1 false) key.k1 ∧ Present (good2 false) key.k2 ∧ Present (good3 false) key.k3 ∧
    Present (good4 terminal) key.k4

variable (h1 : Lawful c1 good1)
include h1

variable (h2 : Lawful c2 good2)
include h2

theorem pairKeyCodec_lawful :
    Lawful (pairKeyCodec c1 c2) (PairGood good1 good2) := by
  intro terminal pair
  have hcodes := ((h1.part false pair.key1).andThen (h2.part terminal pair.key2)).map
    (f := fun key => Pair.mk key.1 key.2) fun key key' heq => by simpa [Prod.ext_iff] using heq
  rw [Reader.map_andThen_map, Reader.map_map] at hcodes
  cases terminal with
  | true | false => exact hcodes

theorem tripleKeyCodec_lawful (h3 : Lawful c3 good3) :
    Lawful (tripleKeyCodec c1 c2 c3) (TripleGood good1 good2 good3) := by
  intro terminal key
  have hcodes := ((h1.part false key.k1).andThen
      ((h2.part false key.k2).andThen (h3.part terminal key.k3))).map
    (f := fun key => Triple.mk key.1 key.2.1 key.2.2)
    (fun key key' heq => by simpa [Prod.ext_iff] using heq)
  rw [Reader.map_andThen_map, Reader.map_andThen_map, Reader.map_map] at hcodes
  cases terminal with
  | true | false => exact hcodes

theorem quadKeyCodec_lawful (h3 : Lawful c3 good3) (h4 : Lawful c4 good4) :
    Lawful (quadKeyCodec c1 c2 c3 c4) (QuadGood good1 good2 good3 good4) := by
  intro terminal key
  have hcodes := ((h1.part false key.k1).andThen ((h2.part false key.k2).andThen
      ((h3.part false key.k3).andThen (h4.part terminal key.k4)))).map
    (f := fun key => Quad.mk key.1 key.2.1 key.2.2.1 key.2.2.2)
    (fun key key' heq => by simpa [Prod.ext_iff] using heq)
  rw [Reader.map_andThen_map, Reader.map_andThen_map, Reader.map_andThen_map, Reader.map_map] at hcodes
  cases terminal with
  | true | false => exact hcodes

end Composite

/-! ## Every key type -/

inductive KeyType where
  | string
  | bytes
  | int64
  | int32
  | uint64
  | uint32
  | uint16
  | bool
  | pair (t1 t2 : KeyType)
  | triple (t1 t2 t3 : KeyType)
  | quad (t1 t2 t3 t4 : KeyType)

namespace KeyType

def Key : KeyType → Type
  | string => Bytes
  | bytes => Bytes
  | int64 => Int64
  | int32 => Int32
  | uint64 => UInt64
  | uint32 => UInt32
  | uint16 => UInt16
  | bool => Bool
  | pair t1 t2 => Pair t1.Key t2.Key
  | triple t1 t2 t3 => Triple t1.Key t2.Key t3.Key
  | quad t1 t2 t3 t4 => Quad t1.Key t2.Key t3.Key t4.Key

def codec : (t : KeyType) → KeyCodec t.Key
  | string => stringKey
  | bytes => bytesKey
  | int64 => int64Key
  | int32 => int32Key
  | uint64 => uint64Key
  | uint32 => uint32Key
  | uint16 => uint16Key
  | bool => boolKey
  | pair t1 t2 => pairKeyCodec t1.codec t2.codec
  | triple t1 t2 t3 => tripleKeyCodec t1.codec t2.codec t3.codec
  | quad t1 t2 t3 t4 => quadKeyCodec t1.codec t2.codec t3.codec t4.codec

/-- All parts of the key are present, and the runes of every string that does not end the
encoding have one byte. -/
def Plain : (t : KeyType) → Bool → t.Key → Prop
  | string => fun terminal key => terminal = true ∨ SingleBytes key
  | pair t1 t2 => PairGood t1.Plain t2.Plain
  | triple t1 t2 t3 => TripleGood t1.Plain t2.Plain t3.Plain
  | quad t1 t2 t3 t4 => QuadGood t1.Plain t2.Plain t3.Plain t4.Plain
  | _ => fun _ _ => True

theorem codec_lawful (t : KeyType) : Lawful t.codec t.Plain := by
  induction t with
  | string => exact stringKey_lawful
  | bytes => exact bytesKey_lawful
  | int64 => exact int64Key_lawful
  | int32 => exact int32Key_lawful
  | uint64 => exact uint64Key_lawful
  | uint32 => exact uint32Key_lawful
  | uint16 => exact uint16Key_lawful
  | bool => exact boolKey_lawful
  | pair t1 t2 ih1 ih2 => exact pairKeyCodec_lawful ih1 ih2
  | triple t1 t2 t3 ih1 ih2 ih3 => exact tripleKeyCodec_lawful ih1 ih2 ih3
  | quad t1 t2 t3 t4 ih1 ih2 ih3 ih4 => exact quadKeyCodec_lawful ih1 ih2 ih3 ih4

def lawfulCodec (t : KeyType) : LawfulCodec t.Key := ⟨t.codec, t.Plain, t.codec_lawful⟩

/-- Decoding an encoding gives the key back, at the end or, in the middle, whatever follows. -/
def Decodes (t : KeyType) (terminal : Bool) (key : t.Key) (n : Nat) (out : Bytes) : Prop :=
  ∀ rest, (terminal = true → rest = []) → t.codec.decodeAt terminal (out ++ rest) = .ok (n, key)

/-- Every key that is encoded fills its size; it is decoded to itself if and only if it is
plain, and no two plain keys have the same encoding. -/
theorem encoding_exact_iff {t : KeyType} {terminal : Bool} {key key' : t.Key} {n n' : Nat}
    {out out' : Bytes} (h : t.codec.encoding terminal key = .ok (n, out))
    (h' : t.codec.encoding terminal key' = .ok (n', out')) :
    n = t.codec.sizeAt terminal key ∧ out.length = n ∧
      (t.Decodes terminal key n out ↔ t.Plain terminal key) ∧
      (t.Plain terminal key → t.Plain terminal key' → key ≠ key' → out ≠ out') := by
  obtain ⟨hsize, hlength, hdecodes⟩ := (t.codec_lawful terminal key).exact h
  obtain ⟨_, _, hdecodes'⟩ := (t.codec_lawful terminal key').exact h'
  refine ⟨hsize, hlength.trans hsize.symm, hdecodes, fun hplain hplain' hne heq => hne ?_⟩
  have hkey := hdecodes.mpr hplain [] (fun _ => rfl)
  have hkey' := hdecodes'.mpr hplain' [] (fun _ => rfl)
  rw [heq, hkey'] at hkey
  exact (Prod.mk.inj (Except.ok.inj hkey)).2.symm

def marked (name file : Bytes) (mark : Bool) : (triple string bytes bool).Key :=
  ⟨some name, some file, some mark⟩

theorem marked_exact :
    (triple string bytes bool).Decodes false (marked [97, 98] [0] true) 6 [97, 98, 0, 1, 0, 1] ∧
      ([97, 98, 0, 1, 0, 1] : Bytes) ≠ [97, 0, 2, 0, 1, 1] := by
  have h : (triple string bytes bool).codec.encoding false (marked [97, 98] [0] true) =
    .ok (6, [97, 98, 0, 1, 0, 1]) := rfl
  have h' : (triple string bytes bool).codec.encoding false (marked [97] [0, 1] true) =
    .ok (6, [97, 0, 2, 0, 1, 1]) := rfl
  have hplain : (triple string bytes bool).Plain false (marked [97, 98] [0] true) :=
    ⟨.inr (by decide), trivial, trivial⟩
  have hplain' : (triple string bytes bool).Plain false (marked [97] [0, 1] true) :=
    ⟨.inr (by decide), trivial, trivial⟩
  have hne : marked [97, 98] [0] true ≠ marked [97] [0, 1] true := by
    intro heq
    injection heq with hname
    have hname : ([97, 98] : Bytes) = [97] := Option.some.inj hname
    exact absurd hname (by decide)
  obtain ⟨_, _, hdecodes, hdiffer⟩ := encoding_exact_iff h h'
  exact ⟨hdecodes.mpr hplain, hdiffer hplain hplain' hne⟩

def named (name name' : Bytes) : (pair string string).Key := ⟨some name, some name'⟩

/-- Two letters of two bytes with the same first byte give the same key, which is decoded to a
third one. -/
theorem accents_collide : named [0xC3, 0xA9] [120] ≠ named [0xC3, 0xA8] [120] ∧
      (pair string string).codec.encoding true (named [0xC3, 0xA9] [120]) =
        .ok (4, [0xC3, 0, 0, 120]) ∧
      (pair string string).codec.encoding true (named [0xC3, 0xA8] [120]) =
        .ok (4, [0xC3, 0, 0, 120]) ∧
      (pair string string).codec.decode [0xC3, 0, 0, 120] = .ok (4, named [0xC3] [0, 120]) := by
  refine ⟨?_, rfl, rfl, rfl⟩
  intro heq
  injection heq with hname
  have hname : ([0xC3, 0xA9] : Bytes) = [0xC3, 0xA8] := Option.some.inj hname
  exact absurd hname (by decide)

end KeyType

end CosmosSDK.Collections
