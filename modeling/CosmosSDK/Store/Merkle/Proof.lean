import CosmosSDK.Math.Int
import CosmosSDK.Store.Merkle.Tree
import Mathlib.Data.Nat.Bitwise

/-!
# Membership proofs of store v2

`store/v2/proof/proof.go`: the proof of one leaf is collected while the levels of the
tree are computed in place.  The messages of ics23 are data; what its functions do with
them is a parameter, of which `Ics23.Lawful` says what is assumed.
-/

namespace CosmosSDK.Store.Proof

open Math Store Store.Tree Fallible List Merkle

/-! ## ics23 -/

inductive HashOp where
  | noHash
  | sha256
deriving DecidableEq

inductive LengthOp where
  | noPrefix
  | varProto
deriving DecidableEq

structure LeafOp where
  hash : HashOp
  prehashKey : HashOp
  prehashValue : HashOp
  length : LengthOp
  prefixBytes : Bytes
deriving DecidableEq

structure InnerOp where
  hash : HashOp
  prefixBytes : Bytes
  suffix : Bytes
deriving DecidableEq

structure InnerSpec where
  childOrder : List Nat
  minPrefixLength : Nat
  maxPrefixLength : Nat
  childSize : Nat
  hash : HashOp

structure ProofSpec where
  leafSpec : LeafOp
  innerSpec : InnerSpec

structure ExistenceProof where
  key : Bytes
  value : Bytes
  leaf : LeafOp
  path : List InnerOp
deriving DecidableEq

def InnerOp.preimage (op : InnerOp) (child : Bytes) : Bytes := op.prefixBytes ++ child ++ op.suffix

/-- The functions of ics23 that are called, on existence proofs. -/
structure Ics23 where
  /-- `LeafOp.Apply` -/
  apply : LeafOp → Bytes → Bytes → Result String Bytes
  /-- `CommitmentProof.Calculate` -/
  calculate : ExistenceProof → Result String Bytes
  /-- `VerifyMembership` of a key and a value under a root -/
  verifyMembership : ProofSpec → Bytes → ExistenceProof → Bytes → Bytes → Bool
  /-- `VerifyNonMembership` of a key under a root -/
  verifyNonMembership : ProofSpec → Bytes → ExistenceProof → Bytes → Bool

/-! ## Proof operations -/

def simpleMerkleSpec : ProofSpec where
  leafSpec := {
    prefixBytes := leafPrefix, prehashKey := .noHash, prehashValue := .sha256, hash := .sha256
    length := .varProto }
  innerSpec := {
    childOrder := [0, 1], minPrefixLength := 1, maxPrefixLength := 1, childSize := 32
    hash := .sha256 }

/-- `CommitmentOp` around an existence proof of the spec `SimpleMerkleSpec`. -/
structure CommitmentOp where
  key : Bytes
  proof : ExistenceProof
deriving DecidableEq

def convertCommitmentOp (inners : List InnerOp) (key value : Bytes) : CommitmentOp where
  key := key
  proof := { key := key, value := value, leaf := simpleMerkleSpec.leafSpec, path := inners }

/-- `CommitmentOp.Run`. -/
def CommitmentOp.run (ics : Ics23) (op : CommitmentOp) (args : List Bytes) :
    Result String (List Bytes) :=
  match ics.calculate op.proof with
  | .error _ => .error (.error "could not calculate root for proof")
  | .ok root =>
    match args with
    | [] =>
      if ics.verifyNonMembership simpleMerkleSpec root op.proof op.key then .ok [root]
      else .error (.error "proof did not verify absence of key")
    | [value] =>
      if ics.verifyMembership simpleMerkleSpec root op.proof op.key value then .ok [root]
      else .error (.error "proof did not verify existence of key with given value")
    | _ => .error (.error "args must be length 0 or 1")

def leafHash (ics : Ics23) (key value : Bytes) : Result String Bytes :=
  ics.apply simpleMerkleSpec.leafSpec key value

section Functions

variable (sha : Bytes → Bytes)

def innerHash (left right : Bytes) : Bytes := sha (innerPrefix ++ left ++ right)

/-! ## ProofFromByteSlices -/

/-- `leaves[i]`. -/
def slot (leaves : List Bytes) (i : Nat) : Result String Bytes :=
  match leaves[i]? with
  | some leaf => .ok leaf
  | none => .error (.panic "index out of range")

/-- The operation on a left child. -/
def suffixOp (sibling : Bytes) : InnerOp := ⟨.sha256, innerPrefix, sibling⟩

/-- The operation on a right child. -/
def prefixOp (sibling : Bytes) : InnerOp := ⟨.sha256, innerPrefix ++ sibling, []⟩

/-- The operation of one level, unless the index is the last and has no partner. -/
def innerAt (leaves : List Bytes) (n index : Nat) : Result String (List InnerOp) :=
  if index < n - 1 ∨ index % 2 = 1 then do
    let sibling ← slot leaves (index ^^^ 1)
    if index % 2 = 0 then .ok [suffixOp sibling] else .ok [prefixOp sibling]
  else .ok []

/-- The loop that hashes the leaf pairs in place, after its first passes. -/
def hashPairs (leaves : List Bytes) : Nat → Result String (List Bytes)
  | 0 => .ok leaves
  | i + 1 => do
      let leaves ← hashPairs leaves i
      let left ← slot leaves (2 * i)
      let right ← slot leaves (2 * i + 1)
      .ok (leaves.set i (innerHash sha left right))

def saveLeftover (leaves : List Bytes) (n : Nat) : Result String (List Bytes) :=
  if n % 2 = 1 then do
    let last ← slot leaves (n - 1)
    .ok (leaves.set (n / 2) last)
  else .ok leaves

def levels : Nat → List Bytes → Nat → Nat → List InnerOp → Result String (Bytes × List InnerOp)
  | fuel + 1, leaves, n, index, inners =>
    if 1 < n then do
      let inner ← innerAt leaves n index
      let leaves ← hashPairs sha leaves (n / 2)
      let leaves ← saveLeftover leaves n
      levels fuel leaves ((n + 1) / 2) (index / 2) (inners ++ inner)
    else do
      let rootHash ← slot leaves 0
      .ok (rootHash, inners)
  | 0, leaves, _, _, inners => do
      let rootHash ← slot leaves 0
      .ok (rootHash, inners)

def proofFromByteSlices (leaves : List Bytes) (index : Nat) :
    Result String (Bytes × List InnerOp) :=
  if leaves.length = 0 then .ok (emptyHash sha, [])
  else levels sha leaves.length leaves leaves.length index []

end Functions

/-! ## What is assumed of ics23 -/

/-- Hashes have the size that the specification of the proofs names. -/
abbrev IsHash (b : Bytes) : Prop := b.length = 32

/-- The operations on the way from a leaf to the root, with their siblings. -/
def IsPath (path : List InnerOp) : Prop :=
  ∀ op ∈ path, ∃ sibling, IsHash sibling ∧ (op = suffixOp sibling ∨ op = prefixOp sibling)

/-- `leafBytes` is what the leaf operation of the specification hashes behind its prefix. -/
structure Ics23.Lawful (ics : Ics23) (sha : Bytes → Bytes) (leafBytes : Bytes → Bytes → Bytes) :
    Prop where
  size : ∀ b, IsHash (sha b)
  apply_leaf : ∀ {key value}, key ≠ [] → value ≠ [] →
    ics.apply simpleMerkleSpec.leafSpec key value = .ok (leafHashOpt sha (leafBytes key value))
  /-- neither an empty key nor an empty value is hashed -/
  apply_empty : ∀ {key value}, ¬(key ≠ [] ∧ value ≠ []) →
    ∃ e, ics.apply simpleMerkleSpec.leafSpec key value = .error (.error e)
  /-- the operations are applied from the leaf on -/
  calculate_path : ∀ {p leaf}, IsPath p.path → ics.apply p.leaf p.key p.value = .ok leaf →
    IsHash leaf → ics.calculate p =
      .ok (p.path.foldl (fun child op => sha (op.preimage child)) leaf)
  /-- a proof that conforms to the specification is verified under the root it leads to -/
  verify_path : ∀ {p root}, p.leaf = simpleMerkleSpec.leafSpec → IsPath p.path →
    ics.calculate p = .ok root → ics.verifyMembership simpleMerkleSpec root p p.key p.value = true
  /-- and only for its value -/
  verify_value : ∀ {p root key value},
    ics.verifyMembership simpleMerkleSpec root p key value = true → value = p.value

variable (sha : Bytes → Bytes)

/-! ## One level -/

variable {leaves : List Bytes} {i n index : Nat} {P : Bytes → Prop}

theorem slot_of_getElem? {leaf : Bytes} (h : leaves[i]? = some leaf) :
    slot leaves i = .ok leaf := by
  rw [slot, h]

theorem hashPairs_ok (leaves : List Bytes) (h : 2 * i ≤ leaves.length) :
    ∃ leaves', hashPairs sha leaves i = .ok leaves' ∧ leaves'.length = leaves.length ∧
      (∀ j < i, leaves'[j]? = (pairUp (innerHash sha) leaves)[j]?) ∧
      ∀ j, i ≤ j → leaves'[j]? = leaves[j]? := by
  induction i with
  | zero => exact ⟨leaves, rfl, rfl, by simp, fun _ _ => rfl⟩
  | succ i ih =>
    obtain ⟨leaves', hpairs, hlength, hbelow, habove⟩ := ih (by omega)
    have hleft : leaves[2 * i]? = some (leaves.get ⟨2 * i, by omega⟩) :=
      getElem?_eq_getElem _
    have hright : leaves[2 * i + 1]? = some (leaves.get ⟨2 * i + 1, by omega⟩) :=
      getElem?_eq_getElem _
    refine ⟨leaves'.set i (innerHash sha (leaves.get ⟨2 * i, by omega⟩)
      (leaves.get ⟨2 * i + 1, by omega⟩)), ?_, ?_, ?_, ?_⟩
    · -- the pair lies behind the slots already overwritten
      rw [hashPairs, hpairs, ok_bind,
        slot_of_getElem? ((habove (2 * i) (by omega)).trans hleft), ok_bind,
        slot_of_getElem? ((habove (2 * i + 1) (by omega)).trans hright), ok_bind]
    · rw [length_set, hlength]
    · intro j hj
      by_cases hji : j = i
      · subst hji
        rw [getElem?_set_self (by omega), getElem?_pairUp_of_pair hleft hright]
      · rw [getElem?_set_ne (Ne.symm hji), hbelow j (by omega)]
    · intro j hj
      rw [getElem?_set_ne (by omega), habove j (by omega)]

/-- The loop body replaces the level in the first `n` slots by the next one. -/
theorem nextLevel_ok (hn : 1 < n) (h : n ≤ leaves.length) :
    ∃ paired leaves', hashPairs sha leaves (n / 2) = .ok paired ∧
      saveLeftover paired n = .ok leaves' ∧ leaves'.length = leaves.length ∧
      leaves'.take ((n + 1) / 2) = pairUp (innerHash sha) (leaves.take n) := by
  obtain ⟨paired, hpairs, hlength, hbelow, habove⟩ :=
    hashPairs_ok sha leaves (i := n / 2) (by omega)
  have hpair : ∀ j < n / 2, (pairUp (innerHash sha) leaves)[j]? =
      (pairUp (innerHash sha) (leaves.take n))[j]? := by
    intro j hj
    have hleft : leaves[2 * j]? = some (leaves.get ⟨2 * j, by omega⟩) :=
      getElem?_eq_getElem _
    have hright : leaves[2 * j + 1]? = some (leaves.get ⟨2 * j + 1, by omega⟩) :=
      getElem?_eq_getElem _
    rw [getElem?_pairUp_of_pair hleft hright]
    refine (getElem?_pairUp_of_pair ?_ ?_).symm
    · rw [getElem?_take_of_lt (by omega), hleft]
    · rw [getElem?_take_of_lt (by omega), hright]
  have hup : (pairUp (innerHash sha) (leaves.take n)).length = (n + 1) / 2 := by
    rw [length_pairUp, length_take]
    omega
  by_cases hodd : n % 2 = 1
  · have hlast : leaves[n - 1]? = some (leaves.get ⟨n - 1, by omega⟩) :=
      getElem?_eq_getElem _
    refine ⟨paired, paired.set (n / 2) (leaves.get ⟨n - 1, by omega⟩), hpairs, ?_, ?_, ?_⟩
    · rw [saveLeftover, if_pos hodd, slot_of_getElem? ((habove (n - 1) (by omega)).trans hlast),
        ok_bind]
    · rw [length_set, hlength]
    · apply ext_getElem?
      intro j
      by_cases hj : j < (n + 1) / 2
      · rw [getElem?_take_of_lt hj]
        by_cases hmid : j = n / 2
        · subst hmid
          rw [getElem?_set_self (by omega)]
          refine (getElem?_pairUp_of_last ?_ ?_).symm
          · rw [getElem?_take_of_lt (by omega), show 2 * (n / 2) = n - 1 by omega, hlast]
          · rw [length_take]
            omega
        · rw [getElem?_set_ne (Ne.symm hmid), hbelow j (by omega), hpair j (by omega)]
      · rw [getElem?_take_eq_none (by omega),
          getElem?_eq_none (by omega)]
  · refine ⟨paired, paired, hpairs, by rw [saveLeftover, if_neg hodd], hlength, ?_⟩
    apply ext_getElem?
    intro j
    by_cases hj : j < (n + 1) / 2
    · rw [getElem?_take_of_lt hj, hbelow j (by omega), hpair j (by omega)]
    · rw [getElem?_take_eq_none (by omega), getElem?_eq_none (by omega)]

/-! ## The levels of a proof -/

/-- The root over nodes, and operations that lead to it from the node at the index.
The siblings in them satisfy `P`. -/
structure Proves (sha : Bytes → Bytes) (P : Bytes → Prop) (nodes : List Bytes) (index : Nat)
    (root : Bytes) (path : List InnerOp) : Prop where
  isRoot : Merkle.Root (innerHash sha) nodes root
  siblings : ∀ op ∈ path, ∃ sibling, P sibling ∧ (op = suffixOp sibling ∨ op = prefixOp sibling)
  fold : ∀ node, nodes[index]? = some node →
    path.foldl (fun child op => sha (op.preimage child)) node = root

theorem innerAt_ok (hn : 1 < n) (h : n ≤ leaves.length) (hindex : index < n) :
    ∃ inner, innerAt leaves n index = .ok inner ∧
      (∀ op ∈ inner, ∃ sibling ∈ leaves.take n, op = suffixOp sibling ∨ op = prefixOp sibling) ∧
      ∀ node, (leaves.take n)[index]? = some node →
        (pairUp (innerHash sha) (leaves.take n))[index / 2]? =
          some (inner.foldl (fun child op => sha (op.preimage child)) node) := by
  have hlength : (leaves.take n).length = n := by
    rw [length_take]
    omega
  have hslot : ∀ j < n, ∃ sibling, (leaves.take n)[j]? = some sibling ∧
      slot leaves j = .ok sibling := by
    intro j hj
    have hget : (leaves.take n)[j]? = some ((leaves.take n).get ⟨j, by omega⟩) :=
      getElem?_eq_getElem _
    exact ⟨_, hget, slot_of_getElem? ((getElem?_take_of_lt hj).symm.trans hget)⟩
  by_cases heven : index % 2 = 0
  · have hxor : index ^^^ 1 = index + 1 := Nat.xor_one_of_even (Nat.even_iff.mpr heven)
    have hhalf : 2 * (index / 2) = index := by omega
    by_cases hlast : index < n - 1
    · obtain ⟨sibling, hget, hsibling⟩ := hslot (index + 1) (by omega)
      refine ⟨[suffixOp sibling], ?_, ?_, ?_⟩
      · rw [innerAt, if_pos (.inl hlast), hxor, hsibling, ok_bind, if_pos heven]
      · intro op hop
        exact ⟨sibling, mem_of_getElem? hget, .inl (mem_singleton.mp hop)⟩
      · intro node hnode
        rw [← hhalf] at hnode hget
        rw [getElem?_pairUp_of_pair hnode hget]
        simp [InnerOp.preimage, suffixOp, innerHash]
    · have hnot : ¬(index < n - 1 ∨ index % 2 = 1) := by omega
      refine ⟨[], by rw [innerAt, if_neg hnot], by simp, ?_⟩
      intro node hnode
      rw [← hhalf] at hnode
      exact getElem?_pairUp_of_last hnode (by omega)
  · have hodd : index % 2 = 1 := by omega
    have hxor : index ^^^ 1 = index - 1 := Nat.xor_one_of_odd (Nat.odd_iff.mpr hodd)
    obtain ⟨sibling, hget, hsibling⟩ := hslot (index - 1) (by omega)
    refine ⟨[prefixOp sibling], ?_, ?_, ?_⟩
    · rw [innerAt, if_pos (.inr hodd), hxor, hsibling, ok_bind, if_neg heven]
    · intro op hop
      exact ⟨sibling, mem_of_getElem? hget, .inr (mem_singleton.mp hop)⟩
    · intro node hnode
      rw [show index - 1 = 2 * (index / 2) by omega] at hget
      rw [show index = 2 * (index / 2) + 1 by omega] at hnode
      rw [getElem?_pairUp_of_pair hget hnode]
      simp [InnerOp.preimage, prefixOp, innerHash]

theorem proves_of_single (P : Bytes → Prop) (inners : List InnerOp) (hn : n = 1)
    (h : n ≤ leaves.length) (hindex : index < n) :
    ∃ root, (slot leaves 0 >>= fun rootHash => .ok (rootHash, inners) : Result String _) =
        .ok (root, inners) ∧ Proves sha P (leaves.take n) index root [] := by
  have hzero : index = 0 := by omega
  subst hn hzero
  obtain ⟨root, _, rfl⟩ := exists_cons_of_length_pos h
  refine ⟨root, by simp [slot], ⟨Merkle.Root.leaf root, by simp, ?_⟩⟩
  intro node hnode
  simpa using hnode.symm

theorem levels_ok (hP : ∀ left right, P left → P right → P (innerHash sha left right)) (fuel : Nat)
    (leaves : List Bytes) (n index : Nat) (inners : List InnerOp) (hfuel : n ≤ fuel + 1)
    (hpos : 0 < n) (h : n ≤ leaves.length) (hindex : index < n)
    (hnodes : ∀ node ∈ leaves.take n, P node) :
    ∃ root path, levels sha fuel leaves n index inners = .ok (root, inners ++ path) ∧
      Proves sha P (leaves.take n) index root path := by
  induction fuel generalizing leaves n index inners with
  | zero =>
    obtain ⟨root, hslot, hproves⟩ :=
      proves_of_single sha P inners (by omega) h hindex
    exact ⟨root, [], by rw [levels, hslot, append_nil], hproves⟩
  | succ fuel ih =>
    by_cases hn : 1 < n
    · obtain ⟨inner, hinner, hops, hparent⟩ := innerAt_ok sha hn h hindex
      obtain ⟨_, leaves', hpairs, hsave, _, hlevel⟩ := nextLevel_ok sha hn h
      have hnodes' : ∀ node ∈ leaves'.take ((n + 1) / 2), P node := by
        rw [hlevel]
        exact forall_mem_pairUp hP hnodes
      obtain ⟨root, path, hlevels, hproves⟩ := ih leaves' ((n + 1) / 2) (index / 2)
        (inners ++ inner) (by omega) (by omega) (by omega) (by omega) hnodes'
      rw [hlevel] at hproves
      refine ⟨root, inner ++ path, ?_, ⟨?_, ?_, ?_⟩⟩
      · rw [levels, if_pos hn, hinner, ok_bind, hpairs, ok_bind, hsave,
          ok_bind, hlevels, append_assoc]
      · apply Merkle.Root.level _ hproves.isRoot
        rw [length_take]
        omega
      · intro op hop
        rcases mem_append.mp hop with hop | hop
        · obtain ⟨sibling, hmem, hop⟩ := hops op hop
          exact ⟨sibling, hnodes sibling hmem, hop⟩
        · exact hproves.siblings op hop
      · intro node hnode
        rw [foldl_append]
        exact hproves.fold _ (hparent node hnode)
    · obtain ⟨root, hslot, hproves⟩ :=
        proves_of_single sha P inners (by omega) h hindex
      exact ⟨root, [], by rw [levels, if_neg hn, hslot, append_nil], hproves⟩

theorem proofFromByteSlices_ok (hP : ∀ left right, P left → P right → P (innerHash sha left right))
    (hindex : index < leaves.length) (hleaves : ∀ leaf ∈ leaves, P leaf) :
    ∃ root path, proofFromByteSlices sha leaves index = .ok (root, path) ∧
      Proves sha P leaves index root path := by
  obtain ⟨root, path, hlevels, hproves⟩ := levels_ok sha hP leaves.length leaves
    leaves.length index [] (by omega) (by omega) le_rfl hindex (by rwa [take_length])
  rw [take_length] at hproves
  refine ⟨root, path, ?_, hproves⟩
  rw [proofFromByteSlices, if_neg (by omega), hlevels, nil_append]

/-- The two tree constructions agree: the root is the hash that store v1 computes
recursively from the same leaves, whatever the index, and the operations lead to it from
the hash of the leaf at the index. -/
theorem proofFromByteSlices_eq_hashFromByteSlices {items : List Bytes}
    (index : Nat) {item : Bytes} (hitem : items[index]? = some item) :
    ∃ inners, proofFromByteSlices sha (items.map (leafHashOpt sha)) index =
        .ok (hashFromByteSlices sha items, inners) ∧
      inners.foldl (fun child op => sha (op.preimage child)) (leafHashOpt sha item) =
        hashFromByteSlices sha items := by
  have hindex : index < items.length := (List.getElem?_eq_some_iff.mp hitem).1
  have hne : items ≠ [] := ne_nil_of_length_pos (by omega)
  obtain ⟨_, path, hproof, hproves⟩ := proofFromByteSlices_ok sha
    (fun _ _ _ _ => trivial) (show index < (items.map (leafHashOpt sha)).length by
      rwa [length_map]) fun _ _ => trivial
  have hroot := hproves.isRoot.unique (root_hashFromByteSlices hne)
  subst hroot
  refine ⟨path, hproof, hproves.fold _ ?_⟩
  rw [getElem?_map, hitem]
  rfl

theorem proofFromByteSlices_eq_hashFromByteSlices_promoted :
    ∃ inners, proofFromByteSlices id ([[1], [2], [3]].map (leafHashOpt id)) 2 =
        .ok (hashFromByteSlices id [[1], [2], [3]], inners) ∧
      inners.foldl (fun child op => id (op.preimage child)) (leafHashOpt id [3]) =
        hashFromByteSlices id [[1], [2], [3]] :=
  proofFromByteSlices_eq_hashFromByteSlices id 2 rfl

end CosmosSDK.Store.Proof
