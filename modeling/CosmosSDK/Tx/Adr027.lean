import CosmosSDK.Lib.Fallible
import CosmosSDK.Store.MemIterator

/-!
# The encoding of a transaction

`rejectNonADR027TxRaw` and the first part of `Decode` of `x/tx/decode`, over any reader of the
wire format that is as `protowire` promises to be.  The length of a field has to be as short as
possible and fields come in ascending order.  The tags are not compared with their shortest
form, a field may be repeated and may be empty, so that more than one encoding of a `TxRaw` is
accepted.
-/

namespace CosmosSDK.Tx

open Store Fallible List

inductive DecodeErr where
  | truncated
  | overflow
  | fieldNumber
  | decodedLength (m length : Nat)
  | wireType (got : Nat)
  | order (tagNum prevTagNum : Nat)
  | notShort (tagNum read need : Nat)
  | unknownField (tagNum : Nat)
  | other (text : String)

/-! ## The wire format -/

structure Tag where
  num : Nat
  wireType : Nat
  size : Nat

def bytesType : Nat := 2

structure Field where
  tag : Bytes
  num : Nat
  value : Bytes

/-- `protowire.AppendVarint` of a number with at most `k + 1` groups of seven bits. -/
def appendVarint : Nat → Nat → Bytes
  | 0, v => [UInt8.ofNat v]
  | k + 1, v =>
    if v < 128 then [UInt8.ofNat v]
    else UInt8.ofNat (v % 128 + 128) :: appendVarint k (v / 128)

/-- What is called of `protowire`: a varint with the number of its bytes, a tag, and a field of
bytes with its size.  Fields of another type are refused before they are read. -/
structure Wire where
  consumeVarint : Bytes → Except DecodeErr (Nat × Nat)
  consumeTag : Bytes → Except DecodeErr Tag
  consumeField : Bytes → Except DecodeErr (Field × Nat)

/-- The wire format: a varint in as few bytes as possible is the one that is written, a tag is
a varint of number and type, and behind it stand the length and the bytes of the field. -/
structure Wire.Reads (w : Wire) : Prop where
  varint : ∀ {bz v n}, w.consumeVarint bz = .ok (v, n) → 1 ≤ n ∧ n ≤ bz.length ∧
    (n = 1 → v < 128) ∧ (n = 1 ∨ 128 ^ (n - 1) ≤ v → bz.take n = appendVarint 9 v)
  tag : ∀ {bz tag}, w.consumeTag bz = .ok tag → ∃ v,
    w.consumeVarint bz = .ok (v, tag.size) ∧ tag.num = v / 8 ∧ tag.wireType = v % 8
  field : ∀ {bz tag length m f size}, w.consumeTag bz = .ok tag →
    w.consumeVarint (bz.drop tag.size) = .ok (length, m) → w.consumeField bz = .ok (f, size) →
    size = tag.size + m + length ∧ size ≤ bz.length ∧
      f = ⟨bz.take tag.size, tag.num, ((bz.drop tag.size).drop m).take length⟩

section

variable (w : Wire)

/-- The fields of a message, behind `skip` bytes of the field that was read last. -/
def readFields : Nat → Bytes → Except DecodeErr (List Field)
  | _, [] => .ok []
  | skip + 1, _ :: bz => readFields skip bz
  | 0, b :: bz => do
      let field ← w.consumeField (b :: bz)
      let fields ← readFields (field.2 - 1) bz
      .ok (field.1 :: fields)

/-! ## Decoding -/

def varintMinLength (n : Nat) : Nat :=
  if n < 2 ^ 7 then 1
  else if n < 2 ^ (7 * 2) then 2
  else if n < 2 ^ (7 * 3) then 3
  else if n < 2 ^ (7 * 4) then 4
  else if n < 2 ^ (7 * 5) then 5
  else if n < 2 ^ (7 * 6) then 6
  else if n < 2 ^ (7 * 7) then 7
  else if n < 2 ^ (7 * 8) then 8
  else if n < 2 ^ (7 * 9) then 9
  else 10

/-- The body of the loop of `rejectNonADR027TxRaw`. -/
def checkField (prevTagNum : Nat) (txBytes : Bytes) : Except DecodeErr (Field × Nat) := do
  let tag ← w.consumeTag txBytes
  if txBytes.length < tag.size then .error (.decodedLength tag.size txBytes.length)
  else if tag.wireType ≠ bytesType then .error (.wireType tag.wireType)
  else if tag.num < prevTagNum then .error (.order tag.num prevTagNum)
  else do
    let length ← w.consumeVarint (txBytes.drop tag.size)
    if varintMinLength length.1 ≠ length.2 then
      .error (.notShort tag.num length.2 (varintMinLength length.1))
    else w.consumeField txBytes

def rejectNonADR027TxRaw : Nat → Nat → Bytes → Except DecodeErr Unit
  | _, _, [] => .ok ()
  | skip + 1, prevTagNum, _ :: txBytes => rejectNonADR027TxRaw skip prevTagNum txBytes
  | 0, prevTagNum, b :: txBytes => do
      let field ← checkField w prevTagNum (b :: txBytes)
      rejectNonADR027TxRaw (field.2 - 1) field.1.num txBytes

end

/-- `RejectUnknownFieldsStrict` for a `TxRaw`. -/
def rejectUnknownFieldsStrict : List Field → Except DecodeErr Unit
  | [] => .ok ()
  | f :: fields =>
    if f.num = 1 ∨ f.num = 2 ∨ f.num = 3 then rejectUnknownFieldsStrict fields
    else .error (.unknownField f.num)

structure TxRaw where
  bodyBytes : Bytes
  authInfoBytes : Bytes
  signatures : List Bytes
deriving DecidableEq

/-- One field of `proto.Unmarshal`: the last one of a singular field stays. -/
def TxRaw.put (raw : TxRaw) (f : Field) : TxRaw :=
  if f.num = 1 then { raw with bodyBytes := f.value }
  else if f.num = 2 then { raw with authInfoBytes := f.value }
  else { raw with signatures := raw.signatures ++ [f.value] }

/-- What follows the decoding of the `TxRaw` reads nothing but the `TxRaw`. -/
structure Decoder (T : Type) where
  wire : Wire
  decodeRaw : TxRaw → Except String T

def Decoder.decode {T : Type} (d : Decoder T) (txBytes : Bytes) : Except DecodeErr (TxRaw × T) := do
  rejectNonADR027TxRaw d.wire 0 0 txBytes
  let fields ← readFields d.wire 0 txBytes
  rejectUnknownFieldsStrict fields
  match d.decodeRaw (fields.foldl TxRaw.put ⟨[], [], []⟩) with
  | .ok tx => .ok (fields.foldl TxRaw.put ⟨[], [], []⟩, tx)
  | .error text => .error (.other text)

/-! ## The canonical encoding -/

/-- The length and the bytes. -/
def appendBytes (value : Bytes) : Bytes := appendVarint 9 value.length ++ value

/-- An empty value is left out. -/
def appendSingular (tag : UInt8) (value : Bytes) : Bytes :=
  if value = [] then [] else tag :: appendBytes value

/-- `proto.Marshal` of a `TxRaw`, the bytes that are hashed. -/
def TxRaw.marshal (raw : TxRaw) : Bytes :=
  appendSingular 10 raw.bodyBytes ++ (appendSingular 18 raw.authInfoBytes ++
    raw.signatures.flatMap fun signature => 26 :: appendBytes signature)

/-- A field adds itself to what was read: its tag is one byte, and a singular field is not
empty and comes for the first time. -/
def Fresh (raw : TxRaw) (f : Field) : Prop :=
  f.tag.length = 1 ∧ (f.num = 1 → raw.bodyBytes = [] ∧ f.value ≠ []) ∧
    (f.num = 2 → raw.authInfoBytes = [] ∧ f.value ≠ [])

def Plain : TxRaw → List Field → Prop
  | _, [] => True
  | raw, f :: fields => Fresh raw f ∧ Plain (raw.put f) fields

/-- All fields have tags of one byte, and the singular ones come once and are not empty. -/
def PlainTx (w : Wire) (txBytes : Bytes) : Prop :=
  ∃ fields, readFields w 0 txBytes = .ok fields ∧ Plain ⟨[], [], []⟩ fields

/-! ## What is accepted -/

variable {k v n prev skip size : Nat} {bz : Bytes} {f : Field} {fields : List Field} {raw : TxRaw}

theorem varintMinLength_le (h : varintMinLength v = n) : n = 1 ∨ 128 ^ (n - 1) ≤ v := by
  subst h
  unfold varintMinLength
  split_ifs <;> simp at * <;> omega

def Field.bytes (f : Field) : Bytes := f.tag ++ appendBytes f.value

def Field.Tagged (f : Field) : Prop :=
  f.tag ≠ [] ∧ (f.tag.length = 1 → f.tag = [UInt8.ofNat (8 * f.num + bytesType)])

def Ascending : Nat → List Field → Prop
  | _, [] => True
  | prev, f :: fields => prev ≤ f.num ∧ Ascending f.num fields

section

variable {w : Wire} (hw : w.Reads)
include hw

theorem checkField_ok (h : checkField w prev bz = .ok (f, size)) :
    w.consumeField bz = .ok (f, size) ∧ prev ≤ f.num ∧ f.Tagged ∧ 1 ≤ size ∧ size ≤ bz.length ∧
      bz = f.bytes ++ bz.drop size := by
  simp only [checkField, passes] at h
  obtain ⟨⟨num, wireType, t⟩, htag, -, htype, hprev, ⟨length, m⟩, hlength, hmin, h⟩ := h
  obtain ⟨rfl, hfits, rfl⟩ := hw.field htag hlength h
  obtain ⟨value, hvalue, rfl, rfl⟩ := hw.tag htag
  dsimp only at htype hprev hlength hfits hvalue
  obtain ⟨_, _, hsmall, hshort⟩ := hw.varint hvalue
  obtain ⟨_, hmle, -, hwritten⟩ := hw.varint hlength
  have hwritten := hwritten (varintMinLength_le (not_not.mp hmin))
  rw [length_drop] at hmle
  dsimp only at hmle ⊢
  refine ⟨h, by simpa using hprev, ⟨?_, fun hone => ?_⟩, by omega, by omega, ?_⟩
  · apply ne_nil_of_length_pos
    rw [length_take]
    omega
  · have ht : t = 1 := by
      rw [length_take] at hone
      omega
    have hnum : 8 * (value / 8) + bytesType = value := by
      have htype : value % 8 = 2 := not_not.mp htype
      omega
    rw [hshort (.inl ht), hnum]
    exact if_pos (hsmall ht)
  · have hvalue : (((bz.drop t).drop m).take length).length = length := by
      simp only [length_take, length_drop]
      omega
    show bz = bz.take t ++ appendBytes (((bz.drop t).drop m).take length) ++ bz.drop (t + m + length)
    rw [appendBytes, hvalue, ← hwritten, append_assoc, append_assoc, ← drop_drop,
      ← drop_drop, take_append_drop, take_append_drop, take_append_drop]

theorem rejectNonADR027TxRaw_ok (hskip : skip ≤ bz.length)
    (h : rejectNonADR027TxRaw w skip prev bz = .ok ()) :
    ∃ fields, readFields w skip bz = .ok fields ∧ bz.drop skip = fields.flatMap Field.bytes ∧
      Ascending prev fields ∧ ∀ f ∈ fields, f.Tagged := by
  induction bz generalizing skip prev with
  | nil => exact ⟨[], by cases skip <;> rfl, by simp, trivial, by simp⟩
  | cons b bz ih =>
    cases skip with
    | succ => exact ih (by simpa using hskip) h
    | zero =>
      obtain ⟨⟨f, size⟩, hf, h⟩ := bind_eq_ok.mp h
      obtain ⟨hread, hprev, htagged, _, hle, hsplit⟩ := checkField_ok hw hf
      rw [length_cons] at hle
      obtain ⟨fields, hfields, hdrop, hascending, hall⟩ := ih (by omega) h
      refine ⟨f :: fields, ?_, ?_, ⟨hprev, hascending⟩, forall_mem_cons.mpr ⟨htagged, hall⟩⟩
      · simp [readFields, hread, hfields]
      · rw [drop_zero, flatMap_cons, ← hdrop, hsplit]
        congr 1
        rw [show size = size - 1 + 1 by omega]
        rfl

end

theorem rejectUnknownFieldsStrict_ok (h : rejectUnknownFieldsStrict fields = .ok ()) :
    ∀ f ∈ fields, f.num = 1 ∨ f.num = 2 ∨ f.num = 3 := by
  induction fields with
  | nil => simp
  | cons f fields ih =>
    obtain ⟨hknown, h⟩ := require_eq_ok.mp h
    exact forall_mem_cons.mpr ⟨hknown, ih h⟩

/-! ## Lengths -/

theorem length_appendSingular (tag : UInt8) (value : Bytes) :
    (appendSingular tag value).length ≤ (appendBytes value).length + 1 ∧
      ((appendSingular tag value).length = 0 ↔ value = []) := by
  unfold appendSingular
  split <;> simp_all

/-- A field adds at most its bytes to the canonical encoding, and less if it is not fresh. -/
theorem length_marshal_put (raw : TxRaw) (htagged : f.Tagged) :
    (raw.put f).marshal.length ≤ raw.marshal.length + f.bytes.length ∧
      ((raw.put f).marshal.length = raw.marshal.length + f.bytes.length → Fresh raw f) := by
  have htag := length_pos_of_ne_nil htagged.1
  have hsingular (tag : UInt8) (old : Bytes) :
      (appendSingular tag f.value).length ≤ (appendSingular tag old).length + f.bytes.length ∧
        ((appendSingular tag f.value).length = (appendSingular tag old).length + f.bytes.length →
          f.tag.length = 1 ∧ old = [] ∧ f.value ≠ []) := by
    grind [Field.bytes, length_appendSingular]
  unfold TxRaw.put TxRaw.marshal Fresh
  split_ifs with hbody hauth
  · grind
  · grind
  · simp only [Field.bytes, length_append, flatMap_append, flatMap_singleton,
      length_cons]
    exact ⟨by omega, fun heq => ⟨by omega, fun hnum => absurd hnum hbody, fun hnum => absurd hnum hauth⟩⟩

theorem length_marshal_foldl (raw : TxRaw) (hall : ∀ f ∈ fields, f.Tagged) :
    (fields.foldl TxRaw.put raw).marshal.length ≤
        raw.marshal.length + (fields.flatMap Field.bytes).length ∧
      ((fields.foldl TxRaw.put raw).marshal.length =
        raw.marshal.length + (fields.flatMap Field.bytes).length → Plain raw fields) := by
  induction fields generalizing raw with
  | nil => exact ⟨by simp, fun _ => trivial⟩
  | cons f fields ih =>
    obtain ⟨htagged, hall⟩ := forall_mem_cons.mp hall
    obtain ⟨_, hfresh⟩ := length_marshal_put raw htagged
    obtain ⟨_, hplain⟩ := ih (raw.put f) hall
    rw [foldl_cons, flatMap_cons, length_append]
    exact ⟨by omega, fun heq => ⟨hfresh (by omega), hplain (by omega)⟩⟩

/-! ## Contents -/

/-- Nothing behind field `n` was read. -/
def Upto (raw : TxRaw) (n : Nat) : Prop :=
  (n ≤ 1 → raw.authInfoBytes = []) ∧ (n ≤ 2 → raw.signatures = [])

theorem marshal_put (hupto : Upto raw f.num) (hknown : f.num = 1 ∨ f.num = 2 ∨ f.num = 3)
    (htagged : f.Tagged) (hfresh : Fresh raw f) :
    (raw.put f).marshal = raw.marshal ++ f.bytes ∧ Upto (raw.put f) f.num := by
  obtain ⟨hone, _, _⟩ := hfresh
  have htag := htagged.2 hone
  obtain ⟨_, _⟩ := hupto
  rcases hknown with hnum | hnum | hnum
  all_goals
    rw [hnum] at htag
    simp_all [TxRaw.put, TxRaw.marshal, Field.bytes, appendSingular, Upto, bytesType]

theorem marshal_foldl (hupto : Upto raw prev) (hascending : Ascending prev fields)
    (hknown : ∀ f ∈ fields, f.num = 1 ∨ f.num = 2 ∨ f.num = 3) (hall : ∀ f ∈ fields, f.Tagged)
    (hplain : Plain raw fields) :
    (fields.foldl TxRaw.put raw).marshal = raw.marshal ++ fields.flatMap Field.bytes := by
  induction fields generalizing raw prev with
  | nil => simp
  | cons f fields ih =>
    obtain ⟨hknown, hrest⟩ := forall_mem_cons.mp hknown
    obtain ⟨htagged, hall⟩ := forall_mem_cons.mp hall
    obtain ⟨hprev, hascending⟩ := hascending
    have hupto : Upto raw f.num :=
      ⟨fun hle => hupto.1 (hprev.trans hle), fun hle => hupto.2 (hprev.trans hle)⟩
    obtain ⟨hmarshal, hupto⟩ := marshal_put hupto hknown htagged hplain.1
    rw [foldl_cons, ih hupto hascending hrest hall hplain.2, hmarshal, flatMap_cons,
      append_assoc]

/-! ## The only encoding -/

variable {T : Type} {d : Decoder T} {txBytes : Bytes} {tx : T}

theorem canonical_iff (hw : d.wire.Reads) (h : d.decode txBytes = .ok (raw, tx)) :
    txBytes = raw.marshal ↔ PlainTx d.wire txBytes := by
  simp only [Decoder.decode, bind_eq_ok] at h
  obtain ⟨⟨⟩, hreject, fields, hfields, ⟨⟩, hknown, h⟩ := h
  obtain rfl : fields.foldl TxRaw.put ⟨[], [], []⟩ = raw := by
    split at h
    · exact (Prod.mk.inj (Except.ok.inj h)).1
    · cases h
  obtain ⟨fields', hfields', hbytes, hascending, hall⟩ :=
    rejectNonADR027TxRaw_ok hw (Nat.zero_le _) hreject
  obtain rfl : fields = fields' := Except.ok.inj (hfields.symm.trans hfields')
  rw [drop_zero] at hbytes
  have hempty : (⟨[], [], []⟩ : TxRaw).marshal = [] := rfl
  constructor
  · intro heq
    refine ⟨fields, hfields, (length_marshal_foldl _ hall).2 ?_⟩
    rw [hempty, ← hbytes, ← heq]
    simp
  · rintro ⟨fields', hfields', hplain⟩
    obtain rfl : fields = fields' := Except.ok.inj (hfields.symm.trans hfields')
    have hupto : Upto ⟨[], [], []⟩ 0 := ⟨fun _ => rfl, fun _ => rfl⟩
    rw [marshal_foldl hupto hascending (rejectUnknownFieldsStrict_ok hknown) hall hplain, hempty,
      nil_append]
    exact hbytes

/-- Accepted bytes are the canonical encoding if and only if they are plain, and different plain
bytes are different transactions. -/
theorem decode_canonical_iff_plain (d : Decoder T) (hw : d.wire.Reads) {txBytes : Bytes} {raw : TxRaw}
    {tx : T} (h : d.decode txBytes = .ok (raw, tx)) :
    (txBytes = raw.marshal ↔ PlainTx d.wire txBytes) ∧
      ∀ txBytes' tx', d.decode txBytes' = .ok (raw, tx') → PlainTx d.wire txBytes →
        PlainTx d.wire txBytes' → txBytes = txBytes' := by
  refine ⟨canonical_iff hw h, fun txBytes' tx' h' hplain hplain' => ?_⟩
  rw [(canonical_iff hw h).mpr hplain, (canonical_iff hw h').mpr hplain']

/-! ## A reader of the wire format -/

/-- A varint from byte `k` of the number on: the value and how many bytes it
takes.  The tenth byte holds one bit. -/
def consumeVarint : Nat → Bytes → Except DecodeErr (Nat × Nat)
  | _, [] => .error .truncated
  | k, b :: bs =>
    if b.toNat < 128 then
      if k = 9 ∧ 1 < b.toNat then .error .overflow else .ok (b.toNat, 1)
    else if k = 9 then .error .overflow
    else do
      let high ← consumeVarint (k + 1) bs
      .ok (b.toNat - 128 + 128 * high.1, high.2 + 1)

def consumeTag (bz : Bytes) : Except DecodeErr Tag := do
  let tag ← consumeVarint 0 bz
  if 2 ^ 31 ≤ tag.1 / 8 ∨ tag.1 / 8 = 0 then .error .fieldNumber
  else .ok ⟨tag.1 / 8, tag.1 % 8, tag.2⟩

def consumeField (bz : Bytes) : Except DecodeErr (Field × Nat) := do
  let tag ← consumeTag bz
  if tag.wireType ≠ bytesType then .error (.wireType tag.wireType)
  else do
    let length ← consumeVarint 0 (bz.drop tag.size)
    if bz.length < tag.size + length.2 + length.1 then .error .truncated
    else .ok (⟨bz.take tag.size, tag.num, ((bz.drop tag.size).drop length.2).take length.1⟩,
      tag.size + length.2 + length.1)

def protowire : Wire := ⟨consumeVarint 0, consumeTag, consumeField⟩

theorem consumeVarint_ok (hk : k ≤ 9) (h : consumeVarint k bz = .ok (v, n)) :
    1 ≤ n ∧ n ≤ bz.length ∧ (n = 1 → v < 128) ∧
      (n = 1 ∨ 128 ^ (n - 1) ≤ v → bz.take n = appendVarint (9 - k) v) := by
  induction bz generalizing k v n with
  | nil => cases h
  | cons b bz ih =>
    have hb := b.toNat_lt
    rw [consumeVarint] at h
    split at h
    · rename_i hlast
      obtain ⟨-, h⟩ := refuse_eq_ok.mp h
      cases h
      refine ⟨le_rfl, by simp, fun _ => hlast, fun _ => ?_⟩
      cases 9 - k <;> simp [appendVarint, hlast]
    · obtain ⟨_, h⟩ := refuse_eq_ok.mp h
      obtain ⟨⟨v, n⟩, hhigh, h⟩ := bind_eq_ok.mp h
      cases h
      obtain ⟨_, hle, -, htake⟩ := ih (by omega) hhigh
      refine ⟨by omega, by simpa using hle, fun hone => by omega, fun hmin => ?_⟩
      -- the bytes behind the first one are as few as possible, too
      have hmin : 128 ^ (n - 1) ≤ v := by
        have hmin := hmin.resolve_left (by omega)
        rw [show n + 1 - 1 = n - 1 + 1 by omega, pow_succ] at hmin
        omega
      have hv : 0 < v := lt_of_lt_of_le (Nat.pow_pos (by decide)) hmin
      rw [take_succ_cons, htake (.inr hmin), show 9 - k = 9 - (k + 1) + 1 by omega, appendVarint,
        if_neg (by omega)]
      congr 2
      · apply UInt8.toNat_inj.mp
        rw [UInt8.toNat_ofNat']
        omega
      · omega

theorem protowire_reads : protowire.Reads where
  varint := consumeVarint_ok (Nat.zero_le 9)
  tag := by
    intro bz tag h
    simp only [protowire, consumeTag, passes] at h ⊢
    obtain ⟨⟨v, t⟩, hv, -, h⟩ := h
    cases h
    exact ⟨v, hv, rfl, rfl⟩
  field := by
    intro bz tag length m f size htag hlength h
    simp only [protowire] at htag hlength h
    simp only [consumeField, htag, hlength, ok_bind, passes] at h
    obtain ⟨-, hfits, h⟩ := h
    cases h
    exact ⟨rfl, not_lt.mp hfits, rfl⟩

/-- A decoder of transactions without messages: as `Decode` does, it takes a body that is empty
or holds a memo of one letter, and auth info that is empty or holds an empty fee. -/
def memoDecoder : Decoder Unit where
  wire := protowire
  decodeRaw raw :=
    if raw.bodyBytes ∈ [[], [18, 1, 109]] ∧ raw.authInfoBytes ∈ [[], [18, 0]] then .ok ()
    else .error "not modelled"

theorem memo_canonical : [10, 3, 18, 1, 109, 18, 2, 18, 0, 26, 1, 9, 26, 1, 8] =
    TxRaw.marshal ⟨[18, 1, 109], [18, 0], [[9], [8]]⟩ := by
  have haccepted : memoDecoder.decode [10, 3, 18, 1, 109, 18, 2, 18, 0, 26, 1, 9, 26, 1, 8] =
    .ok (⟨[18, 1, 109], [18, 0], [[9], [8]]⟩, ()) := rfl
  exact (decode_canonical_iff_plain memoDecoder protowire_reads haccepted).1.mpr
    ⟨[⟨[10], 1, [18, 1, 109]⟩, ⟨[18], 2, [18, 0]⟩, ⟨[26], 3, [9]⟩, ⟨[26], 3, [8]⟩], rfl,
      by simp [Plain, Fresh, TxRaw.put]⟩

/-- The tag of the signature in two bytes, an empty body and a repeated body. -/
theorem long_tag_accepted :
    (memoDecoder.decode [26, 1, 9]).toOption = some (⟨[], [], [[9]]⟩, ()) ∧
      (memoDecoder.decode [154, 0, 1, 9]).toOption = some (⟨[], [], [[9]]⟩, ()) ∧
      (memoDecoder.decode [10, 0, 26, 1, 9]).toOption = some (⟨[], [], [[9]]⟩, ()) ∧
      (memoDecoder.decode [10, 3, 18, 1, 109, 10, 0, 26, 1, 9]).toOption =
        some (⟨[], [], [[9]]⟩, ()) := by
  decide +kernel

end CosmosSDK.Tx
