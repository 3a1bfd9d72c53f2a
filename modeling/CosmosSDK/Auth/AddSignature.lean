import CosmosSDK.Auth.Multisig
import Mathlib.Data.List.Induction

/-!
# Collecting signatures

`AddSignature` of `crypto/types/multisig/multisignature.go` on the multisignature that
`NewMultisig` makes.  A signature stands at the number of set bits before its index, in
whatever order the signatures come.
-/

namespace CosmosSDK.Auth

open Store Math Fallible List CompactBitArray Function

/-- `signing.MultiSignatureData`; the bit array is a pointer. -/
structure MultiSignatureData where
  bitArray : Option CompactBitArray
  signatures : List SignatureData

def maxInt32 : Nat := 2 ^ 31 - 1

/-- Nil for no bits and for more than `MaxInt32` bytes; the sum is one of `int`. -/
def newCompactBitArray (bits : Nat) : Option CompactBitArray :=
  let nElems := (Int.bmod (bits + 7) (2 ^ 64)).tdiv 8
  if bits = 0 ∨ nElems ≤ 0 ∨ maxInt32 < nElems then none
  else some ⟨UInt32.ofNat (bits % 8), replicate nElems.toNat 0⟩

def newMultisig (n : Nat) : MultiSignatureData := ⟨newCompactBitArray n, []⟩

def CompactBitArray.setIndex {ε : Type} (bA : CompactBitArray) (i : Nat) (v : Bool) :
    Result ε (CompactBitArray × Bool) :=
  let mask := UInt8.ofNat (1 <<< (7 - i % 8))
  if bA.count ≤ i then .ok (bA, false)
  else if i / 8 < bA.elems.length then
    .ok (⟨bA.extraBitsStored,
      bA.elems.modify (i / 8) fun b => if v then b ||| mask else b &&& ~~~mask⟩, true)
  else .error (.panic "index out of range")

namespace MultiSignatureData

variable (mSig : MultiSignatureData)

/-- `BitArray.NumTrueBitsBefore`, which reads the bytes without a test for nil. -/
def numTrueBitsBefore (index : Nat) : Result Empty Nat :=
  match mSig.bitArray with
  | none => .error (.panic "nil pointer dereference")
  | some bA => .ok (bA.numTrueBitsBefore index)

/-- `copy`: as many elements as both slices have. -/
def copySlice (dst src : List SignatureData) : List SignatureData :=
  src.take dst.length ++ dst.drop src.length

/-- A signature at the end is appended; else the slice grows by a dummy element, what stands
behind the index moves by one, and the signature is set. -/
def placeSignature (sigs : List SignatureData) (newSigIndex : Nat) (sig : SignatureData) :
    Result Empty (List SignatureData) :=
  if newSigIndex = sigs.length then .ok (sigs ++ [sig])
  else
    let sigs := sigs ++ [.single .unspecified []]
    if newSigIndex + 1 ≤ sigs.length then
      let sigs := sigs.take (newSigIndex + 1) ++
        copySlice (sigs.drop (newSigIndex + 1)) (sigs.drop newSigIndex)
      .ok (sigs.set newSigIndex sig)
    else .error (.panic "slice bounds out of range")

def addSignature (sig : SignatureData) (index : Nat) : Result Empty MultiSignatureData :=
  match mSig.bitArray with
  | none => .error (.panic "nil pointer dereference")
  | some bA =>
    let newSigIndex := bA.numTrueBitsBefore index
    bA.getIndex index >>= fun present =>
      if present then
        if newSigIndex < mSig.signatures.length then
          .ok ⟨bA, mSig.signatures.set newSigIndex sig⟩
        else .error (.panic "index out of range")
      else
        bA.setIndex index true >>= fun (bA, _) =>
          placeSignature mSig.signatures newSigIndex sig >>= fun signatures =>
            .ok ⟨bA, signatures⟩

def addSignatures (calls : List (Nat × SignatureData)) : Result Empty MultiSignatureData :=
  calls.foldlM (fun mSig call => mSig.addSignature call.2 call.1) mSig

end MultiSignatureData

/-! ## Setting a bit -/

variable {bA bA' : CompactBitArray} {i j n : Nat} {sig : SignatureData}
  {sigs : List SignatureData}

theorem testBit_or_mask (b : UInt8) {k q : Nat} (hq : q < 8) :
    (b ||| UInt8.ofNat (1 <<< k)).toNat.testBit q = (b.toNat.testBit q || k = q) := by
  have hmask : (1 <<< k % 2 ^ 8).testBit q = decide (k = q) := by
    rw [Nat.testBit_mod_two_pow, Nat.one_shiftLeft, Nat.testBit_two_pow]
    simp [hq]
  rw [UInt8.toNat_or, Nat.testBit_or, UInt8.toNat_ofNat', hmask]

theorem bit_modify (hi : i / 8 < bA.elems.length) (j : Nat) :
    bit ⟨bA.extraBitsStored,
      bA.elems.modify (i / 8) (· ||| UInt8.ofNat (1 <<< (7 - i % 8)))⟩ j =
      (bA.bit j || i = j) := by
  grind [bit, testBit_or_mask]

theorem setBefore_of_set (hbit : ∀ j, bA'.bit j = (bA.bit j || i = j)) (hclear : bA.bit i = false)
    (m : Nat) : bA'.setBefore m = bA.setBefore m + if i < m then 1 else 0 := by
  induction m <;> grind [setBefore, setBefore_succ]

theorem setBefore_mono (bA : CompactBitArray) : Monotone bA.setBefore :=
  monotone_nat_of_le_succ fun i => by simp [setBefore_succ]

theorem setBefore_lt (hbit : bA.bit i) (hij : i < j) : bA.setBefore i < bA.setBefore j := by
  have hsucc := setBefore_succ bA i
  have hle : bA.setBefore (i + 1) ≤ bA.setBefore j := setBefore_mono bA hij
  simp only [hbit, if_true] at hsucc
  omega

/-! ## Adding signatures -/

theorem insertIdx_append_length (front back : List SignatureData) :
    (front ++ back).insertIdx front.length sig = front ++ sig :: back := by
  induction front with
  | nil => rfl
  | cons x front ih => simp [ih]

theorem placeSignature_eq (h : i ≤ sigs.length) :
    MultiSignatureData.placeSignature sigs i sig = .ok (sigs.insertIdx i sig) := by
  unfold MultiSignatureData.placeSignature
  by_cases hend : i = sigs.length
  · rw [if_pos hend, hend, insertIdx_length_self]
  · -- the element at the index and those behind it move by one
    have hsplit : sigs = sigs.take i ++ sigs.drop i := (take_append_drop i sigs).symm
    have hfront : (sigs.take i).length = i := by simp [h]
    cases hback : sigs.drop i with
    | nil => exact absurd (drop_eq_nil_iff.mp hback) (by omega)
    | cons x back =>
      rw [if_neg hend, hsplit, hback]
      generalize sigs.take i = front at hfront
      subst hfront
      rw [insertIdx_append_length]
      have htake : front.take (front.length + 1) = front := take_of_length_le (by omega)
      have hdrop : front.drop (front.length + 1 + (back.length + 1 + 1)) = [] :=
        drop_of_length_le (by omega)
      have hmoved : back.length + 1 + 1 - back.length = 2 := by omega
      simp [MultiSignatureData.copySlice, take_append, drop_append, htake, hdrop, hmoved]
      omega

/-- An array of `n` bits, as many signatures as set bits, and the last signature of each
index at the number of set bits before it. -/
structure Collected (n : Nat) (last : Nat → Option SignatureData) (bA : CompactBitArray)
    (sigs : List SignatureData) : Prop where
  count : bA.count = n
  size : n ≤ 8 * bA.elems.length
  length : sigs.length = bA.setBefore n
  last : ∀ i < n, last i = if bA.bit i then sigs[bA.setBefore i]? else none

/-- The signatures are those of the calls, and every position has its number of set bits,
which cannot be asked of a nil array. -/
def MultiSignatureData.Aligned (mSig : MultiSignatureData) (n : Nat)
    (calls : List (Nat × SignatureData)) : Prop :=
  ∃ bA, mSig.bitArray = some bA ∧ Collected n (calls.reverse.lookup ·) bA mSig.signatures ∧
    ∀ i ≤ n, mSig.numTrueBitsBefore i = .ok (bA.setBefore i)

variable {last : Nat → Option SignatureData}

variable (h : Collected n last bA sigs)
include h

theorem Collected.replace (hi : i < n) (hbit : bA.bit i) :
    bA.setBefore i < sigs.length ∧
    Collected n (update last i (some sig)) bA (sigs.set (bA.setBefore i) sig) := by
  have hpos : bA.setBefore i < sigs.length := h.length ▸ setBefore_lt hbit hi
  refine ⟨hpos, h.count, h.size, by simpa using h.length, fun j hj => ?_⟩
  by_cases hji : j = i
  · subst hji
    simp [hbit, hpos]
  · rw [update_of_ne hji, h.last j hj]
    split
    · rename_i hj
      have hne : bA.setBefore i ≠ bA.setBefore j := by
        rcases Nat.lt_or_gt_of_ne hji with hlt | hgt
        · exact (setBefore_lt hj hlt).ne'
        · exact (setBefore_lt hbit hgt).ne
      rw [getElem?_set_ne hne]
    · rfl

theorem Collected.insert (hi : i < n) (hclear : bA.bit i = false)
    (hcount : bA'.count = n) (hsize : n ≤ 8 * bA'.elems.length)
    (hbit : ∀ j, bA'.bit j = (bA.bit j || i = j)) : bA.setBefore i ≤ sigs.length ∧
    Collected n (update last i (some sig)) bA' (sigs.insertIdx (bA.setBefore i) sig) := by
  have hpos : bA.setBefore i ≤ sigs.length := h.length ▸ setBefore_mono bA hi.le
  have hset := setBefore_of_set hbit hclear
  refine ⟨hpos, hcount, hsize, ?_, fun j hj => ?_⟩
  · rw [length_insertIdx, if_pos hpos, hset, if_pos hi, h.length]
  · rw [hset, hbit]
    rcases Nat.lt_trichotomy j i with hlt | rfl | hgt
    · rw [update_of_ne hlt.ne, h.last j hj, if_neg hlt.not_gt]
      by_cases hj : bA.bit j
      · simp [hj, getElem?_insertIdx_of_lt (setBefore_lt hj hlt)]
      · simp [hj, hlt.ne']
    · simp [getElem?_insertIdx_self, hpos]
    · have hle := setBefore_mono bA hgt.le
      rw [update_of_ne hgt.ne', h.last j hj, if_pos hgt,
        getElem?_insertIdx_of_gt (by omega)]
      simp [hgt.ne]

theorem Collected.addSignature (hi : i < n) :
    ∃ bA' sigs', MultiSignatureData.addSignature ⟨bA, sigs⟩ sig i = .ok ⟨some bA', sigs'⟩ ∧
      Collected n (update last i (some sig)) bA' sigs' := by
  have hsize := h.size
  have hcount : (i : Int) < bA.count := by rw [h.count]; omega
  have hbyte : i / 8 < bA.elems.length := by omega
  simp only [MultiSignatureData.addSignature, numTrueBitsBefore_eq hcount.le,
    getIndex_of_lt hcount, if_pos hbyte]
  cases hbit : bA.bit i with
  | true =>
    obtain ⟨hpos, hnext⟩ := h.replace hi hbit
    exact ⟨bA, _, if_pos hpos, hnext⟩
  | false =>
    obtain ⟨hpos, hnext⟩ := h.insert hi hbit (by simpa [CompactBitArray.count] using h.count)
      (by simpa using hsize) (bit_modify hbyte)
    refine ⟨_, _, ?_, hnext⟩
    simp [setIndex, hcount.not_ge, hbyte, placeSignature_eq hpos]

omit h

theorem Collected.addSignatures (h : Collected n (fun _ => none) bA [])
    {calls : List (Nat × SignatureData)} (hcalls : ∀ call ∈ calls, call.1 < n) :
    ∃ bA' sigs', MultiSignatureData.addSignatures ⟨bA, []⟩ calls = .ok ⟨some bA', sigs'⟩ ∧
      Collected n (calls.reverse.lookup ·) bA' sigs' := by
  induction calls using List.reverseRecOn with
  | nil => exact ⟨bA, [], rfl, h⟩
  | append_singleton calls call ih =>
    obtain ⟨i, sig⟩ := call
    obtain ⟨bA', sigs', hrun, hcollected⟩ := ih fun c hc => hcalls c (by simp [hc])
    obtain ⟨bA'', sigs'', hstep, hnext⟩ := hcollected.addSignature (hcalls (i, sig) (by simp))
    have hlast : ((calls ++ [(i, sig)]).reverse.lookup ·) =
        update (calls.reverse.lookup ·) i (some sig) := by
      funext j
      by_cases hj : j = i
      · simp [hj]
      · simp [hj, lookup_cons, beq_false_of_ne hj]
    refine ⟨bA'', sigs'', ?_, hlast ▸ hnext⟩
    rw [MultiSignatureData.addSignatures] at hrun ⊢
    rw [foldlM_append, hrun]
    simpa using hstep

theorem newCompactBitArray_eq (hint : n < 2 ^ 63) : newCompactBitArray n =
    if 0 < n ∧ n ≤ 8 * maxInt32 then some ⟨UInt32.ofNat (n % 8), replicate ((n + 7) / 8) 0⟩
    else none := by
  have hmax : maxInt32 = 2 ^ 31 - 1 := rfl
  simp only [newCompactBitArray]
  by_cases hfits : n + 7 < 2 ^ 63
  · have hbytes : ((n + 7 : Int) / 8).toNat = (n + 7) / 8 := by omega
    rw [Int.bmod_eq_of_le (by omega) (by omega), Int.tdiv_eq_ediv_of_nonneg (by omega), hbytes]
    grind
  · have hwraps : Int.bmod (n + 7) (2 ^ 64) ≤ 0 := by
      rw [Int.bmod_def]
      split <;> omega
    have hneg := Int.tdiv_nonneg (Int.neg_nonneg_of_nonpos hwraps) (show (0 : Int) ≤ 8 by decide)
    rw [Int.neg_tdiv] at hneg
    rw [if_pos (by omega), if_neg (by omega)]

theorem collected_new (n : Nat) :
    Collected n (fun _ => none) ⟨UInt32.ofNat (n % 8), replicate ((n + 7) / 8) 0⟩ [] := by
  have hbit : ∀ i, bit ⟨UInt32.ofNat (n % 8), replicate ((n + 7) / 8) 0⟩ i =
      false := by
    intro i
    simp only [bit, getElem?_replicate]
    split <;> simp
  refine ⟨?_, by simp; omega, ?_, by simp [hbit]⟩
  · have hextra : (UInt32.ofNat (n % 8)).toNat = n % 8 := by simp; omega
    simp only [CompactBitArray.count, length_replicate, ← UInt32.toNat_inj, hextra]
    split <;> simp at * <;> omega
  · rw [setBefore, eq_comm, length_nil, countP_eq_zero]
    simp [hbit]

/-- Every run with indices of the array ends with aligned signatures exactly if the array
exists: without bits, or with more bytes than `MaxInt32`, it is nil. -/
theorem addSignatures_aligned (hint : n < 2 ^ 63) :
    (∀ calls : List (Nat × SignatureData), (∀ call ∈ calls, call.1 < n) →
      ∃ mSig, (newMultisig n).addSignatures calls = .ok mSig ∧ mSig.Aligned n calls) ↔
      0 < n ∧ n ≤ 8 * maxInt32 := by
  rw [newMultisig, newCompactBitArray_eq hint]
  constructor
  · intro h
    by_contra hnil
    rw [if_neg hnil] at h
    obtain ⟨mSig, hrun, _, hsome, -⟩ := h [] (by simp)
    cases hrun
    cases hsome
  · intro hbits calls hcalls
    rw [if_pos hbits]
    obtain ⟨bA, sigs, hrun, hcollected⟩ := (collected_new n).addSignatures hcalls
    refine ⟨_, hrun, bA, rfl, hcollected, fun i hi => congrArg Except.ok ?_⟩
    exact numTrueBitsBefore_eq (by rw [hcollected.count]; omega)

theorem addSignatures_aligned_nine : ∃ mSig,
    (newMultisig 9).addSignatures [(8, .nil), (0, .nil), (8, .single .direct [1])] = .ok mSig ∧
      mSig.Aligned 9 [(8, .nil), (0, .nil), (8, .single .direct [1])] :=
  (addSignatures_aligned (by decide)).mpr (by decide) _ (by decide)

theorem newMultisig_zero_panics :
    (newMultisig 0).addSignatures [] = .ok (newMultisig 0) ∧
      (newMultisig 0).numTrueBitsBefore 0 = .error (.panic "nil pointer dereference") :=
  ⟨rfl, rfl⟩

end CosmosSDK.Auth
