import CosmosSDK.Lib.Merkle
import CosmosSDK.Store.MemIterator

/-!
# The hash tree of store v1

`store/internal/tree/hash.go`.  The hash function is a parameter; the tree over the
items is split behind the largest power of two below their number.
-/

namespace CosmosSDK.Store.Tree

open Store List Nat

def leafPrefix : Bytes := [0]

def innerPrefix : Bytes := [1]

section Definitions

variable (sha : Bytes → Bytes)

def emptyHash : Bytes := sha []

def leafHashOpt (leaf : Bytes) : Bytes := sha (leafPrefix ++ leaf)

def innerHashOpt (left right : Bytes) : Bytes := sha (innerPrefix ++ left ++ right)

/-- `bits.Len`. -/
def bitsLen (n : Nat) : Nat := if n = 0 then 0 else n.log2 + 1

/-- `getSplitPoint`; no caller has it split less than two items. -/
def getSplitPoint (length : Nat) : Nat :=
  let k := 2 ^ (bitsLen length - 1)
  if k = length then k / 2 else k

variable {length : Nat}

theorem getSplitPoint_spec (h : 2 ≤ length) :
    ∃ k, getSplitPoint length = 2 ^ k ∧ 2 ^ k < length ∧ length ≤ 2 * 2 ^ k := by
  have hne : length ≠ 0 := by omega
  have hlow : 2 ^ length.log2 ≤ length := log2_self_le hne
  have hhigh : length < 2 ^ (length.log2 + 1) := lt_log2_self
  rw [pow_succ'] at hhigh
  have hbits : bitsLen length - 1 = length.log2 := by simp [bitsLen, hne]
  unfold getSplitPoint
  rw [hbits]
  by_cases heq : 2 ^ length.log2 = length
  · -- an exact power of two is split in half
    cases hlog : length.log2 with
    | zero =>
      rw [hlog] at heq
      omega
    | succ k =>
      rw [hlog, pow_succ'] at heq
      refine ⟨k, ?_, ?_, ?_⟩
      · rw [pow_succ', if_pos heq]
        omega
      · omega
      · omega
  · refine ⟨length.log2, if_neg heq, ?_, ?_⟩
    · omega
    · omega

theorem getSplitPoint_pos (h : 2 ≤ length) : 0 < getSplitPoint length := by
  obtain ⟨k, hk, -, -⟩ := getSplitPoint_spec h
  rw [hk]
  exact Nat.two_pow_pos k

theorem getSplitPoint_lt (h : 2 ≤ length) : getSplitPoint length < length := by
  obtain ⟨_, hk, hlt, -⟩ := getSplitPoint_spec h
  rw [hk]
  exact hlt

def hashFromByteSlices (items : List Bytes) : Bytes :=
  if items.length = 0 then emptyHash sha
  else if _h : items.length = 1 then leafHashOpt sha (items.headD [])
  else
    let k := getSplitPoint items.length
    let left := hashFromByteSlices (items.take k)
    let right := hashFromByteSlices (items.drop k)
    innerHashOpt sha left right
termination_by items.length
decreasing_by
  · rw [length_take]
    have hlt := getSplitPoint_lt (show 2 ≤ items.length by omega)
    omega
  · rw [length_drop]
    have hpos := getSplitPoint_pos (show 2 ≤ items.length by omega)
    omega

end Definitions

variable {sha : Bytes → Bytes}

theorem root_hashFromByteSlices {items : List Bytes} (h : items ≠ []) :
    Merkle.Root (innerHashOpt sha) (items.map (leafHashOpt sha)) (hashFromByteSlices sha items) := by
  fun_induction hashFromByteSlices sha items with
  | case1 items hzero => exact absurd (length_eq_zero_iff.mp hzero) h
  | case2 items hzero hone =>
    obtain ⟨_, rfl⟩ := length_eq_one_iff.mp hone
    exact Merkle.Root.leaf _
  | case3 items hzero hone k left right ihLeft ihRight =>
    have htwo : 2 ≤ items.length := by omega
    obtain ⟨e, he, _, _⟩ := getSplitPoint_spec htwo
    have hleft : items.take k ≠ [] := by
      rw [← length_pos_iff, length_take]
      omega
    have hright : items.drop k ≠ [] := by
      rw [← length_pos_iff, length_drop]
      omega
    have happend := (ihLeft hleft).append (ihRight hright) (k := e)
      (by rw [length_map, length_take]; omega)
      (by rw [length_map, length_drop]; omega)
      (by rw [length_map, length_drop]; omega)
    rw [← map_append, take_append_drop] at happend
    exact happend

end CosmosSDK.Store.Tree
