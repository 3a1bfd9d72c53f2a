import CosmosSDK.Auth.Tx
import CosmosSDK.Math.Int

/-!
# Threshold signatures

`VerifyMultisignature` of `crypto/keys/multisig/multisig.go` on the bit arrays of
`crypto/types/compact_bit_array.go`.  What it accepts carries a good signature at as many
positions as the threshold asks for.  The numbers of signatures and of set bits are
compared with the threshold and not with each other, and the bytes of the array are not
compared with its size, so a malformed signature makes it panic.  What `VerifySignature`
of a simple key does is a parameter; it may panic as well.
-/

namespace CosmosSDK.Auth

open Store Math Fallible List CompactBitArray

/-! ## Bit arrays -/

/-- `bits.OnesCount8`. -/
def onesCount8 (n : Nat) : Nat := (List.range 8).countP n.testBit

/-- The loop of `NumTrueBitsBefore`, from the byte `elem` on. -/
def trueBitsBefore (index : Nat) : Nat → Bytes → Nat
  | _, [] => 0
  | elem, b :: elems =>
    if index ≤ elem * 8 + 7 then onesCount8 (b.toNat >>> (7 - index % 8 + 1))
    else onesCount8 b.toNat + trueBitsBefore index (elem + 1) elems

namespace CompactBitArray

variable (bA : CompactBitArray)

def count : Int :=
  if bA.extraBitsStored = 0 then bA.elems.length * 8
  else (bA.elems.length - 1) * 8 + bA.extraBitsStored.toNat

/-- The bit at a position; none behind the last byte. -/
def bit (i : Nat) : Bool := (bA.elems[i / 8]?).elim false (·.toNat.testBit (7 - i % 8))

def getIndex {ε : Type} (i : Nat) : Result ε Bool :=
  if bA.count ≤ i then .ok false
  else if i / 8 < bA.elems.length then .ok (bA.bit i)
  else .error (.panic "index out of range")

/-- An index above `Count` is lowered to it. -/
def numTrueBitsBefore (index : Nat) : Nat :=
  trueBitsBefore (if bA.count < index then bA.count.toNat else index) 0 bA.elems

end CompactBitArray

/-! ## Verification -/

/-- What the `Any` of a public key holds: no key that was unpacked, a simple key, or a
`LegacyAminoPubKey`. -/
inductive PackedKey (K : Type) where
  | unset
  | simple (key : K)
  | multisig (threshold : Nat) (keys : List (PackedKey K))

variable {K : Type}

/-- `getSignBytes`, and `VerifySignature` of the simple keys with the text of a panic. -/
structure SignatureScheme (K : Type) where
  getSignBytes : SignMode → Except String Bytes
  verifySignature : K → Bytes → Bytes → Except String Bool

/-- `VerifySignature`; a multisig key does not implement it. -/
def SignatureScheme.verify (scheme : SignatureScheme K) :
    PackedKey K → Bytes → Bytes → Except String Bool
  | .unset, _, _ => .error "invalid memory address or nil pointer dereference"
  | .simple key, msg, signature => scheme.verifySignature key msg signature
  | .multisig _ _, _, _ => .error "not implemented"

inductive MultisigErr where
  | invalidThreshold
  | bitArraySize (expected : Nat)
  | signatureSize (size : Nat)
  | notEnoughSet (set expected : Nat)
  | signBytes (text : String)
  | unverified (index : Nat)
  | notMultisig (index : Nat)
  | improperData (sigIndex : Nat)

/-- The checks before the loop.  A nil bit array is the one without bytes: it counts no
bits, which is refused before the array is read. -/
def checkMultisignature (threshold numKeys : Nat) (bA : CompactBitArray)
    (sigs : List SignatureData) : Result MultisigErr Unit :=
  if threshold = 0 then .error (.error .invalidThreshold)
  else if (numKeys : Int) ≠ bA.count then .error (.error (.bitArraySize numKeys))
  else if sigs.length < threshold ∨ numKeys < sigs.length then
    .error (.error (.signatureSize sigs.length))
  else if bA.numTrueBitsBefore numKeys < threshold then
    .error (.error (.notEnoughSet (bA.numTrueBitsBefore numKeys) threshold))
  else .ok ()

def PackedKey.isUnset : PackedKey K → Bool
  | .unset => true
  | _ => false

/-- `GetPubKeys`: each `Any` is asserted to hold a public key. -/
def getPubKeys (keys : List (PackedKey K)) : Result MultisigErr Unit :=
  if keys.any PackedKey.isUnset then .error (.panic "interface conversion") else .ok ()

def verifySingle (scheme : SignatureScheme K) (i : Nat) (key : PackedKey K) (mode : SignMode)
    (signature : Bytes) : Result MultisigErr Unit :=
  match scheme.getSignBytes mode with
  | .error text => .error (.error (.signBytes text))
  | .ok msg =>
    match scheme.verify key msg signature with
    | .error text => .error (.panic text)
    | .ok true => .ok ()
    | .ok false => .error (.error (.unverified i))

mutual

/-- The body of the loop at a set bit. -/
def verifyAt (scheme : SignatureScheme K) (i sigIndex : Nat) :
    PackedKey K → SignatureData → Result MultisigErr Unit
  | _, .nil => .error (.error (.improperData sigIndex))
  | key, .single mode signature => verifySingle scheme i key mode signature
  | .multisig threshold keys, .multi bA sigs =>
    getPubKeys keys >>= fun _ =>
    checkMultisignature threshold keys.length bA sigs >>= fun _ =>
      verifyKeys scheme bA 0 0 keys sigs
  | _, .multi _ _ => .error (.error (.notMultisig i))

/-- The loop from position `i` on, with the signatures that are left. -/
def verifyKeys (scheme : SignatureScheme K) (bA : CompactBitArray) :
    Nat → Nat → List (PackedKey K) → List SignatureData → Result MultisigErr Unit
  | _, _, [], _ => .ok ()
  | i, sigIndex, key :: keys, sigs =>
    match bA.getIndex i with
    | .error e => .error e
    | .ok false => verifyKeys scheme bA (i + 1) sigIndex keys sigs
    | .ok true =>
      match sigs with
      | [] => .error (.panic "index out of range")
      | si :: rest =>
        verifyAt scheme i sigIndex key si >>= fun _ =>
          verifyKeys scheme bA (i + 1) (sigIndex + 1) keys rest

end

def verifyMultisignature (scheme : SignatureScheme K) (threshold : Nat) (keys : List (PackedKey K))
    (bA : CompactBitArray) (sigs : List SignatureData) : Result MultisigErr Unit :=
  getPubKeys keys >>= fun _ =>
  checkMultisignature threshold keys.length bA sigs >>= fun _ =>
    verifyKeys scheme bA 0 0 keys sigs

/-! ## What a signature is -/

def CompactBitArray.setBefore (bA : CompactBitArray) (i : Nat) : Nat :=
  (List.range i).countP bA.bit

mutual

def signed (scheme : SignatureScheme K) : PackedKey K → SignatureData → Bool
  | key, .single mode signature =>
    match scheme.getSignBytes mode with
    | .ok msg => (scheme.verify key msg signature).toOption = some true
    | .error _ => false
  | .multisig threshold keys, .multi bA sigs => threshold ≤ signedCount scheme bA sigs 0 keys
  | _, _ => false

/-- The number of positions with a set bit and a good signature, which is found at the
number of set bits before the position. -/
def signedCount (scheme : SignatureScheme K) (bA : CompactBitArray) (sigs : List SignatureData) :
    Nat → List (PackedKey K) → Nat
  | _, [] => 0
  | i, key :: keys =>
    (if bA.bit i && (sigs[bA.setBefore i]?).elim false (signed scheme key) then 1 else 0) +
      signedCount scheme bA sigs (i + 1) keys

end

/-- The verification returns, and without error only if enough positions are signed. -/
def VerifiesSafely (scheme : SignatureScheme K) (threshold : Nat) (keys : List (PackedKey K))
    (bA : CompactBitArray) (sigs : List SignatureData) : Prop :=
  (∀ text, verifyMultisignature scheme threshold keys bA sigs ≠ .error (.panic text)) ∧
    (verifyMultisignature scheme threshold keys bA sigs = .ok () →
      threshold ≤ signedCount scheme bA sigs 0 keys)

/-! ## Which signatures are good and which break -/

/-- The numbers that are compared before the signatures are read. -/
structure Plausible (threshold numKeys : Nat) (bA : CompactBitArray) (sigs : List SignatureData) :
    Prop where
  threshold_pos : 0 < threshold
  size : (numKeys : Int) = bA.count
  signatures : threshold ≤ sigs.length ∧ sigs.length ≤ numKeys
  set : threshold ≤ bA.setBefore numKeys

mutual

/-- A multisignature is accepted if its keys were unpacked and all positions are. -/
def Accepted (scheme : SignatureScheme K) : PackedKey K → SignatureData → Prop
  | key, .single mode signature =>
    ∃ msg, scheme.getSignBytes mode = .ok msg ∧ scheme.verify key msg signature = .ok true
  | .multisig threshold keys, .multi bA sigs =>
    keys.any PackedKey.isUnset = false ∧ Plausible threshold keys.length bA sigs ∧
      AllAccepted scheme bA sigs 0 keys
  | _, _ => False

/-- Each position from `i` on has a byte and, at a set bit, a signature that is accepted. -/
def AllAccepted (scheme : SignatureScheme K) (bA : CompactBitArray) (sigs : List SignatureData) :
    Nat → List (PackedKey K) → Prop
  | _, [] => True
  | i, key :: keys =>
    (i / 8 < bA.elems.length ∧
      (bA.bit i = true → ∃ si, sigs[bA.setBefore i]? = some si ∧ Accepted scheme key si)) ∧
      AllAccepted scheme bA sigs (i + 1) keys

end

mutual

/-- A single signature breaks if `VerifySignature` panics, and a multisignature if a key was
not unpacked or a position breaks. -/
def Breaks (scheme : SignatureScheme K) : PackedKey K → SignatureData → Prop
  | key, .single mode signature =>
    ∃ msg text, scheme.getSignBytes mode = .ok msg ∧ scheme.verify key msg signature = .error text
  | .multisig threshold keys, .multi bA sigs =>
    keys.any PackedKey.isUnset = true ∨
      Plausible threshold keys.length bA sigs ∧ FirstBreaks scheme bA sigs 0 keys
  | _, _ => False

/-- From `i` on, the first position that is not accepted has no byte, or a set bit and no
signature or one that breaks. -/
def FirstBreaks (scheme : SignatureScheme K) (bA : CompactBitArray) (sigs : List SignatureData) :
    Nat → List (PackedKey K) → Prop
  | _, [] => False
  | i, key :: keys =>
    bA.elems.length ≤ i / 8 ∨
      bA.bit i = true ∧ (sigs.length ≤ bA.setBefore i ∨
        ∃ si, sigs[bA.setBefore i]? = some si ∧ Breaks scheme key si) ∨
      AllAccepted scheme bA sigs i [key] ∧ FirstBreaks scheme bA sigs (i + 1) keys

end

/-! ## Counting bits -/

theorem onesCount8_shift : ∀ b < 256, ∀ m < 9,
    onesCount8 (b >>> (8 - m)) = (List.range m).countP (fun j => b.testBit (7 - j)) := by
  decide +kernel

variable {e : UInt32} {b : UInt8} {l : Bytes} {bA : CompactBitArray} {n threshold : Nat}
  {sigs : List SignatureData}

theorem bit_cons_of_lt {j : Nat} (hj : j < 8) :
    bit ⟨e, b :: l⟩ j = b.toNat.testBit (7 - j) := by
  simp [bit, Nat.div_eq_of_lt hj, Nat.mod_eq_of_lt hj]

theorem bit_cons_add (j : Nat) :
    bit ⟨e, b :: l⟩ (8 + j) = bit ⟨e, l⟩ j := by
  have hdiv : (8 + j) / 8 = j / 8 + 1 := by omega
  have hmod : (8 + j) % 8 = j % 8 := by omega
  simp [bit, hdiv, hmod]

theorem setBefore_nil (e : UInt32) (n : Nat) : setBefore ⟨e, []⟩ n = 0 := by
  simp [setBefore, bit]

theorem trueBitsBefore_eq (e : UInt32) {index elem : Nat} (hlow : elem * 8 ≤ index) :
    trueBitsBefore index elem l = setBefore ⟨e, l⟩ (index - elem * 8) := by
  induction l generalizing elem with
  | nil => rw [setBefore_nil, trueBitsBefore]
  | cons b l ih =>
    have hb := b.toNat_lt
    simp only [trueBitsBefore, setBefore]
    split
    · rename_i hle
      have hshift : 7 - index % 8 + 1 = 8 - (index - elem * 8) := by omega
      rw [hshift, onesCount8_shift _ hb _ (by omega)]
      apply countP_congr
      intro j hj
      rw [bit_cons_of_lt (by have := mem_range.mp hj; omega)]
    · rename_i hgt
      have hsplit : index - elem * 8 = 8 + (index - (elem + 1) * 8) := by omega
      have hfirst := onesCount8_shift b.toNat hb 8 (by decide)
      rw [ih (by omega), hsplit, range_add, countP_append, countP_map]
      simp only [Nat.sub_self, Nat.shiftRight_zero] at hfirst
      rw [hfirst, setBefore]
      congr 1
      apply countP_congr
      intro j _
      rw [Function.comp_apply, bit_cons_add]

theorem numTrueBitsBefore_eq (hcount : (n : Int) ≤ bA.count) :
    bA.numTrueBitsBefore n = bA.setBefore n := by
  unfold numTrueBitsBefore
  rw [if_neg (by omega), trueBitsBefore_eq bA.extraBitsStored (by omega)]
  rfl

theorem setBefore_succ (bA : CompactBitArray) (i : Nat) :
    bA.setBefore (i + 1) = bA.setBefore i + if bA.bit i then 1 else 0 := by
  simp [setBefore, range_succ, countP_append, countP_singleton]

theorem getIndex_of_lt {ε : Type} {i : Nat} (hcount : (i : Int) < bA.count) :
    (bA.getIndex i : Result ε Bool) = if i / 8 < bA.elems.length then .ok (bA.bit i)
      else .error (.panic "index out of range") := by
  rw [getIndex, if_neg (by omega)]

/-! ## How the verification ends -/

/-- A call succeeds exactly under one condition and panics exactly under another. -/
def Ends (r : Result MultisigErr Unit) (ok panics : Prop) : Prop :=
  (r = .ok () ↔ ok) ∧ ((∃ text, r = .error (.panic text)) ↔ panics)

variable {r : Result MultisigErr Unit} {f : Unit → Result MultisigErr Unit}
  {ok panics ok' panics' : Prop}

theorem Ends.bind (h : Ends r ok panics) (hf : ok → Ends (f ()) ok' panics') :
    Ends (r >>= f) (ok ∧ ok') (panics ∨ ok ∧ panics') := by
  obtain ⟨hok, hpanics⟩ := h
  match r with
  | .ok () =>
    have hend := hf (hok.mp rfl)
    have hnot : ¬ panics := by simp [← hpanics]
    simp only [Ends, ok_bind, hok.mp rfl, hnot, true_and, false_or]
    exact hend
  | .error (.error e) =>
    have hnot : ¬ ok := by simp [← hok]
    have hnot' : ¬ panics := by simp [← hpanics]
    simp [Ends, hnot, hnot']
  | .error (.panic text) =>
    have hnot : ¬ ok := by simp [← hok]
    have hpanic : panics := hpanics.mp ⟨text, rfl⟩
    simp [Ends, hnot, hpanic]

theorem Ends.congr (h : Ends r ok panics) (hok : ok ↔ ok') (hpanics : panics ↔ panics') :
    Ends r ok' panics' :=
  ⟨h.1.trans hok, h.2.trans hpanics⟩

theorem getPubKeys_ends (keys : List (PackedKey K)) : Ends (getPubKeys keys)
    (keys.any PackedKey.isUnset = false) (keys.any PackedKey.isUnset = true) := by
  unfold getPubKeys
  cases keys.any PackedKey.isUnset <;> simp [Ends]

theorem checkMultisignature_ends : Ends (checkMultisignature threshold n bA sigs)
    (Plausible threshold n bA sigs) False := by
  unfold checkMultisignature
  split_ifs with hzero hsize hsigs hset
  · exact ⟨by simpa using fun h => absurd h.threshold_pos (by omega), by simp⟩
  · exact ⟨by simpa using fun h => hsize h.size, by simp⟩
  · exact ⟨by simpa using fun h => absurd h.signatures (by omega), by simp⟩
  · rw [numTrueBitsBefore_eq (by omega)] at hset
    exact ⟨by simpa using fun h => absurd h.set (by omega), by simp⟩
  · rw [numTrueBitsBefore_eq (by omega)] at hset
    exact ⟨by simpa using ⟨by omega, by omega, by omega, by omega⟩, by simp⟩

variable {scheme : SignatureScheme K}

theorem verifySingle_ends (i : Nat) (key : PackedKey K) (mode : SignMode) (signature : Bytes) :
    Ends (verifySingle scheme i key mode signature) (Accepted scheme key (.single mode signature))
      (Breaks scheme key (.single mode signature)) := by
  grind [Accepted, Breaks, Ends, verifySingle]

/-! ## The loop -/

mutual

theorem verifyAt_ends (key : PackedKey K) (si : SignatureData) (i k : Nat) :
    Ends (verifyAt scheme i k key si) (Accepted scheme key si) (Breaks scheme key si) := by
  cases si with
  | nil =>
    simp [verifyAt, Ends, Accepted, Breaks]
  | single mode signature =>
    rw [verifyAt]
    exact verifySingle_ends i key mode signature
  | multi bA sigs =>
    cases key with
    | unset | simple => simp [verifyAt, Ends, Accepted, Breaks]
    | multisig threshold keys =>
      rw [verifyAt]
      have hloop := fun hplausible : Plausible threshold keys.length bA sigs =>
        verifyKeys_ends bA keys 0 0 sigs (by simpa using hplausible.size)
      refine ((getPubKeys_ends keys).bind fun _ => checkMultisignature_ends.bind hloop).congr ?_ ?_
      · rw [Accepted]
      · rw [Breaks]
        cases keys.any PackedKey.isUnset <;> simp

theorem verifyKeys_ends (bA : CompactBitArray) (keys : List (PackedKey K)) (i k : Nat)
    (sigs : List SignatureData) (hcount : ((i + keys.length : Nat) : Int) = bA.count) :
    Ends (verifyKeys scheme bA i k keys (sigs.drop (bA.setBefore i)))
      (AllAccepted scheme bA sigs i keys) (FirstBreaks scheme bA sigs i keys) := by
  cases keys with
  | nil =>
    rw [verifyKeys]
    simp [Ends, AllAccepted, FirstBreaks]
  | cons key keys =>
    have hlength : (key :: keys).length = keys.length + 1 := rfl
    have hsucc := setBefore_succ bA i
    have hrest := fun k' => verifyKeys_ends bA keys (i + 1) k' sigs (by omega)
    rw [AllAccepted, FirstBreaks]
    simp only [verifyKeys, getIndex_of_lt (show (i : Int) < bA.count by omega)]
    by_cases hlt : i / 8 < bA.elems.length
    · rw [if_pos hlt]
      cases hbit : bA.bit i with
      | false =>
        simp only [hbit, Bool.false_eq_true, if_false, Nat.add_zero] at hsucc
        rw [hsucc] at hrest
        refine (hrest k).congr ?_ ?_
        · simp [hlt]
        · simp [AllAccepted, hlt, hbit]
      | true =>
        simp only [hbit, if_true] at hsucc
        cases hdrop : sigs.drop (bA.setBefore i) with
        | nil =>
          have hmissing : sigs.length ≤ bA.setBefore i := drop_eq_nil_iff.mp hdrop
          simp [Ends, hmissing]
        | cons si rest =>
          have hsi : sigs[bA.setBefore i]? = some si := by
            rw [← List.head?_drop, hdrop]
            rfl
          have hleft : rest = sigs.drop (bA.setBefore (i + 1)) := by
            rw [hsucc, ← drop_drop, hdrop]
            rfl
          have hpresent : ¬ sigs.length ≤ bA.setBefore i :=
            Nat.not_le.mpr (List.getElem?_eq_some_iff.mp hsi).1
          rw [hleft]
          refine ((verifyAt_ends key si i k).bind fun _ => hrest (k + 1)).congr ?_ ?_
          · simp [hlt, hsi]
          · simp [AllAccepted, hlt, Nat.not_le.mpr hlt, hbit, hsi, hpresent]
    · simp [Ends, hlt, Nat.le_of_not_lt hlt]

end

/-! ## What is accepted -/

mutual

theorem Accepted.signed {key : PackedKey K} {si : SignatureData} (h : Accepted scheme key si) :
    signed scheme key si = true := by
  cases si with
  | nil => simp [Accepted] at h
  | single mode signature =>
    rw [Accepted] at h
    obtain ⟨msg, hbytes, hgood⟩ := h
    simp [Auth.signed, hbytes, hgood, Except.toOption]
  | multi bA sigs =>
    cases key with
    | unset | simple => simp [Accepted] at h
    | multisig threshold keys =>
      rw [Accepted] at h
      obtain ⟨-, hplausible, hall⟩ := h
      have hcount := hall.signedCount
      have hset := hplausible.set
      have hzero : bA.setBefore 0 = 0 := rfl
      rw [Nat.zero_add] at hcount
      simp only [Auth.signed, decide_eq_true_eq]
      omega

/-- Every set bit counts. -/
theorem AllAccepted.signedCount {bA : CompactBitArray} {sigs : List SignatureData} {i : Nat}
    {keys : List (PackedKey K)} (h : AllAccepted scheme bA sigs i keys) :
    signedCount scheme bA sigs i keys + bA.setBefore i = bA.setBefore (i + keys.length) := by
  cases keys with
  | nil => simp [Auth.signedCount]
  | cons key keys =>
    rw [AllAccepted] at h
    obtain ⟨⟨-, hat⟩, hall⟩ := h
    have hrest := hall.signedCount
    rw [length_cons, ← Nat.add_assoc, Nat.add_right_comm, ← hrest, setBefore_succ,
      Auth.signedCount]
    cases hbit : bA.bit i with
    | false => simp
    | true =>
      obtain ⟨si, hsi, haccepted⟩ := hat hbit
      simp [hsi, haccepted.signed]
      omega

end

/-- The verification is safe exactly for the signatures that do not break. -/
theorem verifyMultisignature_sound (scheme : SignatureScheme K) (threshold : Nat)
    (keys : List (PackedKey K)) (bA : CompactBitArray) (sigs : List SignatureData) :
    VerifiesSafely scheme threshold keys bA sigs ↔
      ¬ Breaks scheme (.multisig threshold keys) (.multi bA sigs) := by
  have hends : Ends (verifyMultisignature scheme threshold keys bA sigs)
      (Accepted scheme (.multisig threshold keys) (.multi bA sigs))
      (Breaks scheme (.multisig threshold keys) (.multi bA sigs)) := by
    have hat : Ends (verifyAt scheme 0 0 (.multisig threshold keys) (.multi bA sigs)) _ _ :=
      verifyAt_ends _ _ 0 0
    rwa [verifyAt] at hat
  constructor
  · intro h hbreaks
    obtain ⟨text, hpanic⟩ := hends.2.mpr hbreaks
    exact h.1 text hpanic
  · intro h
    refine ⟨fun text hpanic => h (hends.2.mp ⟨text, hpanic⟩), fun hok => ?_⟩
    simpa [signed] using (hends.1.mp hok).signed

/-- Two set bits with one signature, a single signature for a multisig key, nine bits in one
byte, a secp256r1 key without point, and an `Any` that was not unpacked. -/
theorem missing_signature_panics :
    let verify : PubKey → Bytes → Bytes → Except String Bool
      | .secp256r1 none, _, _ => .error "nil pointer dereference"
      | _, _, _ => .ok true
    let scheme : SignatureScheme PubKey := ⟨fun _ => .ok [], verify⟩
    let key (b : UInt8) : PackedKey PubKey := .simple (.secp256k1 (some [b]))
    let sigs : List SignatureData := [.single .direct [7]]
    ¬ VerifiesSafely scheme 1 [key 1, key 2] ⟨2, [0xC0]⟩ sigs ∧
    ¬ VerifiesSafely scheme 1 [.multisig 1 [key 1]] ⟨1, [0x80]⟩ sigs ∧
    ¬ VerifiesSafely scheme 1 (List.replicate 9 (key 1)) ⟨9, [0x80]⟩ sigs ∧
    ¬ VerifiesSafely scheme 1 [.simple (.secp256r1 none)] ⟨1, [0x80]⟩ sigs ∧
    ¬ VerifiesSafely scheme 1 [key 1, .unset] ⟨2, [0x80]⟩ sigs :=
  ⟨fun h => h.1 "index out of range" rfl, fun h => h.1 "not implemented" rfl,
    fun h => h.1 "index out of range" rfl, fun h => h.1 "nil pointer dereference" rfl,
    fun h => h.1 "interface conversion" rfl⟩

end CosmosSDK.Auth
