import CosmosSDK.Lib.SortOn
import CosmosSDK.Store.Merkle.Proof

/-!
# Commit infos of store v2

`store/v2/proof/commit_info.go`: the stores of a version are the leaves of a Merkle
tree, in the order of their names.  `strings.EqualFold`, which compares names up to
case, is a parameter.
-/

namespace CosmosSDK.Store.Proof

open Math Store Store.Tree SortOn Fallible List

structure CommitID where
  version : Int
  hash : Bytes
deriving DecidableEq

structure StoreInfo where
  name : Bytes
  commitId : CommitID
deriving DecidableEq

def StoreInfo.getHash (si : StoreInfo) : Bytes := si.commitId.hash

structure CommitInfo where
  storeInfos : List StoreInfo
  commitHash : Bytes

namespace CommitInfo

section Definitions

variable (sha : Bytes → Bytes) (ics : Ics23) (equalFold : Bytes → Bytes → Bool)

/-- The loop of `GetStoreProof` over the sorted stores: their leaves, and the index of the
last one that matches the key. -/
def scan (storeKey : Bytes) :
    List StoreInfo → Nat → Option Nat → Result String (List Bytes × Option Nat)
  | [], _, index => .ok ([], index)
  | si :: infos, i, index => do
      let leaf ← leafHash ics si.name si.getHash
      let index := if storeKey ≠ [] ∧ equalFold si.name storeKey then some i else index
      let (leaves, index) ← scan storeKey infos (i + 1) index
      .ok (leaf :: leaves, index)

/-- The end of `GetStoreProof`: the proof of the store at the index found. -/
def storeProofAt (infos : List StoreInfo) (leaves : List Bytes) (storeKey : Bytes) (index : Nat) :
    Result String (Bytes × CommitmentOp) := do
  let (rootHash, inners) ← proofFromByteSlices sha leaves index
  match infos[index]? with
  | some si => .ok (rootHash, convertCommitmentOp inners storeKey si.getHash)
  | none => .error (.panic "index out of range")

def getStoreProof (ci : CommitInfo) (storeKey : Bytes) : Result String (Bytes × CommitmentOp) := do
  let (leaves, index) ← scan ics equalFold storeKey (sortOn StoreInfo.name ci.storeInfos) 0 none
  match index with
  | some i => storeProofAt sha (sortOn StoreInfo.name ci.storeInfos) leaves storeKey i
  | none =>
    if storeKey = [] then
      storeProofAt sha (sortOn StoreInfo.name ci.storeInfos) leaves storeKey 0
    else .error (.error "store key not found")

def hash (ci : CommitInfo) : Bytes :=
  if ci.storeInfos.length = 0 then []
  else if ci.commitHash.length ≠ 0 then ci.commitHash
  else
    match getStoreProof sha ics equalFold ci [] with
    | .ok (rootHash, _) => rootHash
    | .error _ => []

/-! ## What a store proof is for -/

/-- A store with this exact name is proved against the hash of the commit info; any other
name is refused. -/
def ProvesExactly (ci : CommitInfo) (storeKey : Bytes) : Prop :=
  (∀ si ∈ ci.storeInfos, si.name = storeKey → ∃ root op,
    getStoreProof sha ics equalFold ci storeKey = .ok (root, op) ∧ root = ci.hash sha ics equalFold ∧
      op.run ics [si.getHash] = .ok [root]) ∧
  ((∀ si ∈ ci.storeInfos, si.name ≠ storeKey) →
    ∃ e, getStoreProof sha ics equalFold ci storeKey = .error (.error e))

variable (leafBytes : Bytes → Bytes → Bytes)

/-- The leaf of a store. -/
def storeLeaf (si : StoreInfo) : Bytes := leafBytes si.name si.getHash

/-- The root that store v1 computes over these leaves. -/
def merkleRoot (ci : CommitInfo) : Bytes :=
  hashFromByteSlices sha ((sortOn StoreInfo.name ci.storeInfos).map (storeLeaf leafBytes))

/-- ics23 hashes neither an empty name nor an empty hash. -/
def Hashable (ci : CommitInfo) : Prop :=
  ∀ si ∈ ci.storeInfos, si.name ≠ [] ∧ si.getHash ≠ []

/-- The key picks no store but the one with exactly its name. -/
def Unambiguous (ci : CommitInfo) (storeKey : Bytes) : Prop :=
  ((∃ si ∈ ci.storeInfos, si.name = storeKey) → ci.Hashable ∧
    (∀ si ∈ ci.storeInfos, equalFold si.name storeKey = true → compare storeKey si.name ≠ .lt) ∧
    (ci.commitHash = [] ∨ ci.commitHash = ci.merkleRoot sha leafBytes)) ∧
  ((∀ si ∈ ci.storeInfos, si.name ≠ storeKey) → ¬ ci.Hashable ∨
    (storeKey ≠ [] ∧ ∀ si ∈ ci.storeInfos, equalFold si.name storeKey = false))

end Definitions

variable {sha : Bytes → Bytes} {ics : Ics23} {equalFold : Bytes → Bytes → Bool}
  {leafBytes : Bytes → Bytes → Bytes}

section Proofs

variable (hics : ics.Lawful sha leafBytes)

/-! ## Leaves -/

variable {si : StoreInfo} {storeKey : Bytes} {infos : List StoreInfo} {path : List InnerOp}

include hics

/-- The loop collects the leaves and keeps the last index that matches. -/
theorem scan_ok (i : Nat) (index : Option Nat) (h : ∀ si ∈ infos, si.name ≠ [] ∧ si.getHash ≠ []) :
    ∃ index', scan ics equalFold storeKey infos i index =
        .ok ((infos.map (storeLeaf leafBytes)).map (leafHashOpt sha), index') ∧
      ((index' = index ∧ ∀ si ∈ infos, ¬(storeKey ≠ [] ∧ equalFold si.name storeKey)) ∨
      ∃ before si after, infos = before ++ si :: after ∧ index' = some (i + before.length) ∧
        (storeKey ≠ [] ∧ equalFold si.name storeKey) ∧
        ∀ si' ∈ after, ¬(storeKey ≠ [] ∧ equalFold si'.name storeKey)) := by
  induction infos generalizing i index with
  | nil => exact ⟨index, rfl, .inl ⟨rfl, by simp⟩⟩
  | cons si infos ih =>
    obtain ⟨hsi, hinfos⟩ := forall_mem_cons.mp h
    obtain ⟨index', hscan, hindex⟩ := ih (i + 1)
      (if storeKey ≠ [] ∧ equalFold si.name storeKey then some i else index) hinfos
    refine ⟨index', ?_, ?_⟩
    · rw [scan, leafHash, hics.apply_leaf hsi.1 hsi.2, ok_bind]
      simp [hscan, storeLeaf]
    · rcases hindex with ⟨hkept, hnone⟩ | ⟨before, found, after, hsplit, hfound, hmatch, hafter⟩
      · by_cases hmatch : storeKey ≠ [] ∧ equalFold si.name storeKey
        · rw [if_pos hmatch] at hkept
          exact .inr ⟨[], si, infos, rfl, hkept, hmatch, hnone⟩
        · rw [if_neg hmatch] at hkept
          exact .inl ⟨hkept, forall_mem_cons.mpr ⟨hmatch, hnone⟩⟩
      · refine .inr ⟨si :: before, found, after, by rw [hsplit]; rfl, ?_, hmatch, hafter⟩
        rw [hfound, length_cons]
        congr 1
        omega

theorem scan_error (i : Nat) (index : Option Nat)
    (h : ¬ ∀ si ∈ infos, si.name ≠ [] ∧ si.getHash ≠ []) :
    ∃ e, scan ics equalFold storeKey infos i index = .error (.error e) := by
  induction infos generalizing i index with
  | nil => simp at h
  | cons si infos ih =>
    by_cases hsi : si.name ≠ [] ∧ si.getHash ≠ []
    · have hrest : ¬ ∀ si ∈ infos, si.name ≠ [] ∧ si.getHash ≠ [] := by
        intro hall
        exact h (forall_mem_cons.mpr ⟨hsi, hall⟩)
      obtain ⟨e, he⟩ := ih (i + 1)
        (if storeKey ≠ [] ∧ equalFold si.name storeKey then some i else index) hrest
      refine ⟨e, ?_⟩
      rw [scan, leafHash, hics.apply_leaf hsi.1 hsi.2, ok_bind]
      simp [he]
    · obtain ⟨e, he⟩ := hics.apply_empty hsi
      exact ⟨e, by rw [scan, leafHash, he, error_bind]⟩

/-! ## Running a proof -/

theorem run_convertCommitmentOp {leaves : List Bytes} {index : Nat} {root : Bytes}
    (h : Proves sha IsHash leaves index root path)
    (hleaf : leaves[index]? = some (leafHashOpt sha (storeLeaf leafBytes si)))
    (hname : si.name ≠ []) (hhash : si.getHash ≠ []) :
    (convertCommitmentOp path si.name si.getHash).run ics [si.getHash] = .ok [root] := by
  have hcalculate : ics.calculate (convertCommitmentOp path si.name si.getHash).proof =
      .ok root := by
    rw [← h.fold _ hleaf]
    exact hics.calculate_path h.siblings (hics.apply_leaf hname hhash) (hics.size _)
  have hverify : ics.verifyMembership simpleMerkleSpec root
      (convertCommitmentOp path si.name si.getHash).proof si.name si.getHash = true :=
    hics.verify_path rfl h.siblings hcalculate
  unfold CommitmentOp.run
  rw [hcalculate]
  exact if_pos hverify

theorem eq_of_run_convertCommitmentOp {key value arg : Bytes} {roots : List Bytes}
    (h : (convertCommitmentOp path key value).run ics [arg] = .ok roots) : arg = value := by
  unfold CommitmentOp.run at h
  cases hcalculate : ics.calculate (convertCommitmentOp path key value).proof with
  | error => simp [hcalculate] at h
  | ok =>
    simp only [hcalculate, require_eq_ok] at h
    exact hics.verify_value h.1

/-! ## The proof of a store -/

theorem getStoreProof_of_not_hashable {ci : CommitInfo} (h : ¬ ci.Hashable) (storeKey : Bytes) :
    ∃ e, getStoreProof sha ics equalFold ci storeKey = .error (.error e) := by
  have hsorted : ¬ ∀ si ∈ sortOn StoreInfo.name ci.storeInfos,
      si.name ≠ [] ∧ si.getHash ≠ [] := by
    intro hall
    exact h fun si hsi => hall si ((mem_sortOn _).mpr hsi)
  obtain ⟨e, he⟩ := scan_error hics 0 none hsorted
  exact ⟨e, by rw [getStoreProof, he, error_bind]⟩

variable {ci : CommitInfo}

variable (equalFold) in
/-- All stores hash: the key picks one of them, whose proof is returned, or none. -/
theorem getStoreProof_cases (h : ci.Hashable) (storeKey : Bytes) :
    (∃ before si after path, sortOn StoreInfo.name ci.storeInfos = before ++ si :: after ∧
      getStoreProof sha ics equalFold ci storeKey =
        .ok (ci.merkleRoot sha leafBytes, convertCommitmentOp path storeKey si.getHash) ∧
      Proves sha IsHash ((((before ++ si :: after).map (storeLeaf leafBytes))).map (leafHashOpt sha))
        before.length (ci.merkleRoot sha leafBytes) path ∧ ((storeKey = [] ∧ before = []) ∨
        (storeKey ≠ [] ∧ equalFold si.name storeKey = true ∧
          ∀ si' ∈ after, equalFold si'.name storeKey = false))) ∨
    (storeKey ≠ [] ∧ (∀ si ∈ ci.storeInfos, equalFold si.name storeKey = false) ∧
      ∃ e, getStoreProof sha ics equalFold ci storeKey = .error (.error e)) ∨
    (storeKey = [] ∧ ci.storeInfos = [] ∧
      ∃ text, getStoreProof sha ics equalFold ci storeKey = .error (.panic text)) := by
  have hsorted : ∀ si ∈ sortOn StoreInfo.name ci.storeInfos, si.name ≠ [] ∧ si.getHash ≠ [] :=
    fun si hsi => h si ((mem_sortOn _).mp hsi)
  -- whichever index is chosen, the proof at it has the same root
  have hproof : ∀ before si after,
      sortOn StoreInfo.name ci.storeInfos = before ++ si :: after →
      ∃ path, storeProofAt sha (before ++ si :: after)
          (((before ++ si :: after).map (storeLeaf leafBytes)).map (leafHashOpt sha)) storeKey
            before.length =
          .ok (ci.merkleRoot sha leafBytes, convertCommitmentOp path storeKey si.getHash) ∧
        Proves sha IsHash (((before ++ si :: after).map (storeLeaf leafBytes)).map (leafHashOpt sha))
          before.length (ci.merkleRoot sha leafBytes) path := by
    intro before si after hsplit
    obtain ⟨root, path, hpath, hproves⟩ := proofFromByteSlices_ok sha
      (fun _ _ _ _ => hics.size _)
      (show before.length <
          (((before ++ si :: after).map (storeLeaf leafBytes)).map (leafHashOpt sha)).length by simp)
      (by
        intro leaf hleaf
        obtain ⟨_, -, rfl⟩ := mem_map.mp hleaf
        exact hics.size _)
    have hroot : root = ci.merkleRoot sha leafBytes := by
      apply hproves.isRoot.unique
      rw [merkleRoot, hsplit]
      exact root_hashFromByteSlices (by simp)
    rw [hroot] at hpath hproves
    refine ⟨path, ?_, hproves⟩
    rw [storeProofAt, hpath, ok_bind]
    simp
  obtain ⟨index, hscan, hindex⟩ := scan_ok hics 0 none hsorted
  rw [getStoreProof, hscan, ok_bind]
  rcases hindex with ⟨rfl, hnone⟩ | ⟨before, si, after, hsplit, rfl, hmatch, hafter⟩
  · by_cases hkey : storeKey = []
    · cases hinfos : sortOn StoreInfo.name ci.storeInfos with
      | nil =>
        refine .inr (.inr ⟨hkey, ?_, "index out of range", ?_⟩)
        · apply eq_nil_iff_forall_not_mem.mpr
          intro si hsi
          rw [← mem_sortOn StoreInfo.name, hinfos] at hsi
          exact absurd hsi not_mem_nil
        · simp [hkey, storeProofAt, proofFromByteSlices]
      | cons si after =>
        obtain ⟨path, hpath, hproves⟩ := hproof [] si after hinfos
        exact .inl ⟨[], si, after, path, rfl, (if_pos hkey).trans hpath, hproves, .inl ⟨hkey, rfl⟩⟩
    · refine .inr (.inl ⟨hkey, ?_, "store key not found", if_neg hkey⟩)
      intro si hsi
      have hno := hnone si ((mem_sortOn _).mpr hsi)
      simpa [hkey] using hno
  · grind

theorem hash_eq_merkleRoot (h : ci.Hashable) (hne : ci.storeInfos ≠ []) :
    ci.hash sha ics equalFold = ci.merkleRoot sha leafBytes ↔
      (ci.commitHash = [] ∨ ci.commitHash = ci.merkleRoot sha leafBytes) := by
  have hlength : ci.storeInfos.length ≠ 0 := fun hzero => hne (length_eq_zero_iff.mp hzero)
  unfold hash
  rw [if_neg hlength]
  by_cases hcached : ci.commitHash = []
  · rw [if_neg (by simp [hcached])]
    rcases getStoreProof_cases equalFold hics h [] with
      ⟨_, _, _, _, -, hproof, -, -⟩ | ⟨hkey, -, -⟩ | ⟨-, hempty, -⟩
    · simp [hproof, hcached]
    · exact absurd rfl hkey
    · exact absurd hempty hne
  · rw [if_pos (by simpa using hcached)]
    simp [hcached]

/-- The key picks the store with its name when no later name equals it up to case. -/
theorem picks_exact (hfold : ∀ b, equalFold b b = true) (h : ci.Hashable)
    (hdistinct : (ci.storeInfos.map StoreInfo.name).Nodup)
    (hsi : si ∈ ci.storeInfos) (hlater : ∀ si' ∈ ci.storeInfos, equalFold si'.name si.name = true →
      compare si.name si'.name ≠ .lt) :
    ∃ op, getStoreProof sha ics equalFold ci si.name = .ok (ci.merkleRoot sha leafBytes, op) ∧
      op.run ics [si.getHash] = .ok [ci.merkleRoot sha leafBytes] := by
  obtain ⟨hname, hhash⟩ := h si hsi
  rcases getStoreProof_cases equalFold hics h si.name with
    ⟨before, found, after, path, hsplit, hproof, hproves, hpicked⟩ | ⟨-, hnone, -⟩ | ⟨hkey, -, -⟩
  · obtain ⟨hkey, -⟩ | ⟨-, hmatch, hafter⟩ := hpicked
    · exact absurd hkey hname
    · have hfound : found = si := by
        have hin : si ∈ before ++ found :: after := by
          rw [← hsplit]
          exact (mem_sortOn _).mpr hsi
        rcases mem_append.mp hin with hbefore | hrest
        · -- a match behind the store itself is a later name
          obtain ⟨first, between, rfl⟩ := append_of_mem hbefore
          have hsplit' : sortOn StoreInfo.name ci.storeInfos =
              first ++ si :: (between ++ found :: after) := by
            rw [hsplit]
            simp
          have hlt : compare si.name found.name = .lt :=
            lt_of_sortOn_eq StoreInfo.name hdistinct hsplit' (by simp)
          have hfoundMem : found ∈ ci.storeInfos := by
            rw [← mem_sortOn StoreInfo.name, hsplit]
            simp
          exact absurd hlt (hlater found hfoundMem hmatch)
        · rcases mem_cons.mp hrest with heq | hbehind
          · exact heq.symm
          · exact absurd (hafter si hbehind) (by simp [hfold])
      subst hfound
      refine ⟨_, hproof, ?_⟩
      apply run_convertCommitmentOp hics hproves
      · simp
      · exact hname
      · exact hhash
  · exact absurd (hnone si hsi) (by simp [hfold])
  · exact absurd hkey hname

/-- Only the store with exactly the requested name is proved. -/
theorem provesExactly_of_unambiguous (hfold : ∀ b, equalFold b b = true)
    (hdistinct : (ci.storeInfos.map StoreInfo.name).Nodup)
    (h : ci.Unambiguous sha equalFold leafBytes storeKey) :
    ci.ProvesExactly sha ics equalFold storeKey := by
  constructor
  · intro si hsi hname
    subst hname
    obtain ⟨hhashable, hlater, hcached⟩ := h.1 ⟨si, hsi, rfl⟩
    obtain ⟨op, hproof, hrun⟩ := picks_exact hics hfold hhashable hdistinct hsi hlater
    refine ⟨_, op, hproof, ?_, hrun⟩
    exact ((hash_eq_merkleRoot hics hhashable (ne_nil_of_mem hsi)).mpr hcached).symm
  · intro habsent
    by_cases hhashable : ci.Hashable
    · obtain hnot | ⟨hkey, hnone⟩ := h.2 habsent
      · exact absurd hhashable hnot
      · rcases getStoreProof_cases equalFold hics hhashable storeKey with
          ⟨before, found, after, _, hsplit, -, -, hpicked⟩ | ⟨-, -, he⟩ | ⟨hempty, -, -⟩
        · obtain ⟨hempty, -⟩ | ⟨-, hmatch, -⟩ := hpicked
          · exact absurd hempty hkey
          · have hfound : found ∈ ci.storeInfos := by
              rw [← mem_sortOn StoreInfo.name, hsplit]
              simp
            exact absurd hmatch (by simp [hnone found hfound])
        · exact he
        · exact absurd hempty hkey
    · exact getStoreProof_of_not_hashable hics hhashable storeKey

/-- Stores with different hashes: an ambiguous key is answered with a proof of another
store, or for a name that no store has. -/
theorem unambiguous_of_provesExactly (hhashes : (ci.storeInfos.map StoreInfo.getHash).Nodup)
    (h : ci.ProvesExactly sha ics equalFold storeKey) :
    ci.Unambiguous sha equalFold leafBytes storeKey := by
  constructor
  · rintro ⟨si, hsi, hname⟩
    obtain ⟨_, _, hproof, hroot, hrun⟩ := h.1 si hsi hname
    have hhashable : ci.Hashable := by
      by_contra hnot
      obtain ⟨e, he⟩ := getStoreProof_of_not_hashable hics hnot storeKey
      rw [he] at hproof
      cases hproof
    rcases getStoreProof_cases equalFold hics hhashable storeKey with
      ⟨before, found, after, path, hsplit, hproof', -, hpicked⟩ | ⟨-, -, e, he⟩ | ⟨-, hempty, -⟩
    · rw [hproof', Except.ok.injEq, Prod.mk.injEq] at hproof
      obtain ⟨rfl, rfl⟩ := hproof
      have hfound : found = si := by
        have hfoundMem : found ∈ ci.storeInfos := by
          rw [← mem_sortOn StoreInfo.name, hsplit]
          simp
        exact inj_on_of_nodup_map hhashes hfoundMem hsi
          (eq_of_run_convertCommitmentOp hics hrun).symm
      subst hfound
      refine ⟨hhashable, ?_, ?_⟩
      · -- the store picked is the last that matches, and no name behind it matches
        obtain ⟨hkey, -⟩ | ⟨-, -, hafter⟩ := hpicked
        · exact absurd (hname.trans hkey) (hhashable found hsi).1
        · intro si' hsi' hmatch hlt
          rw [← hname] at hlt
          exact absurd hmatch (by simp [hafter si' (mem_after_of_lt _ hsplit hsi' hlt)])
      · exact (hash_eq_merkleRoot hics hhashable (ne_nil_of_mem hsi)).mp hroot.symm
    · rw [he] at hproof
      cases hproof
    · exact absurd hempty (ne_nil_of_mem hsi)
  · intro habsent
    obtain ⟨_, he⟩ := h.2 habsent
    by_cases hhashable : ci.Hashable
    · right
      rcases getStoreProof_cases equalFold hics hhashable storeKey with
        ⟨_, _, _, _, -, hproof, -, -⟩ | ⟨hkey, hnone, -⟩ | ⟨-, -, text, hpanic⟩
      · rw [hproof] at he
        cases he
      · exact ⟨hkey, hnone⟩
      · rw [hpanic] at he
        cases he
    · exact .inl hhashable

/-- A proof of a store is what it is for when the key is unambiguous, and, for stores with
different hashes, only then.  The order in which the stores are listed does not matter. -/
theorem getStoreProof_provesExactly_iff (hfold : ∀ b, equalFold b b = true) (ci : CommitInfo)
    (hdistinct : (ci.storeInfos.map StoreInfo.name).Nodup) (storeKey : Bytes) :
    (ci.Unambiguous sha equalFold leafBytes storeKey →
      ci.ProvesExactly sha ics equalFold storeKey) ∧
    ((ci.storeInfos.map StoreInfo.getHash).Nodup → ci.ProvesExactly sha ics equalFold storeKey →
      ci.Unambiguous sha equalFold leafBytes storeKey) ∧
    ∀ ci' : CommitInfo, ci'.storeInfos.Perm ci.storeInfos →
      getStoreProof sha ics equalFold ci' storeKey = getStoreProof sha ics equalFold ci storeKey := by
  refine ⟨provesExactly_of_unambiguous hics hfold hdistinct,
    fun hhashes => unambiguous_of_provesExactly hics hhashes, ?_⟩
  intro ci' hperm
  rw [getStoreProof, getStoreProof, sortOn_eq_of_perm StoreInfo.name hdistinct hperm]

end Proofs

/-! ## Names that differ in case -/

/-- `strings.EqualFold` on ASCII. -/
def equalFoldASCII (s t : Bytes) : Bool :=
  let lower : UInt8 → UInt8 := fun c => if 65 ≤ c ∧ c ≤ 90 then c + 32 else c
  s.map lower = t.map lower

/-- A hash of 32 bytes: the content and its length, padded or cut. -/
def paddedHash (b : Bytes) : Bytes :=
  ((UInt8.ofNat b.length :: b) ++ List.replicate 32 0).take 32

theorem paddedHash_isHash (b : Bytes) : IsHash (paddedHash b) := by
  rw [IsHash, paddedHash, length_take, length_append, length_replicate]
  omega

def leafData (key value : Bytes) : Bytes := key ++ paddedHash value

def plainLeaf (key value : Bytes) : Result String Bytes :=
  if key ≠ [] ∧ value ≠ [] then .ok (leafHashOpt paddedHash (leafData key value))
  else .error (.error "leaf op needs key and value")

def plainRoot (p : ExistenceProof) : Result String Bytes := do
  let leaf ← plainLeaf p.key p.value
  .ok (p.path.foldl (fun child op => paddedHash (op.preimage child)) leaf)

/-- Plain functions in place of those of ics23, for one specification. -/
def plainIcs23 : Ics23 where
  apply _ := plainLeaf
  calculate := plainRoot
  verifyMembership _ root p key value :=
    decide (key = p.key ∧ value = p.value ∧ (plainRoot p).toOption = some root)
  verifyNonMembership _ _ _ _ := false

theorem plainIcs23_lawful : plainIcs23.Lawful paddedHash leafData where
  size := paddedHash_isHash
  apply_leaf hkey hvalue := if_pos ⟨hkey, hvalue⟩
  apply_empty h := ⟨_, if_neg h⟩
  calculate_path := by
    intro p leaf _ hleaf _
    have hleaf : plainLeaf p.key p.value = .ok leaf := hleaf
    simp [plainIcs23, plainRoot, hleaf]
  verify_path := by
    intro p root _ _ hroot
    have hroot : plainRoot p = .ok root := hroot
    simp [plainIcs23, hroot, Except.toOption]
  verify_value h := (of_decide_eq_true h).2.1

/-- The stores `Bank` and `bank`. -/
def twoBanks : CommitInfo where
  storeInfos := [⟨[66, 97, 110, 107], ⟨1, [1]⟩⟩, ⟨[98, 97, 110, 107], ⟨1, [2]⟩⟩]
  commitHash := []

/-- The proof for `Bank` does not run on the hash of `Bank`, and `BANK`, which is no store,
has one. -/
theorem twoBanks_proofs :
    ((getStoreProof paddedHash plainIcs23 equalFoldASCII twoBanks
      [66, 97, 110, 107]).toOption.map
        (fun proof => (proof.2.run plainIcs23 [[1]]).toOption)) = some none ∧
    (getStoreProof paddedHash plainIcs23 equalFoldASCII twoBanks
      [66, 65, 78, 75]).toOption.isSome = true ∧
    ¬ twoBanks.ProvesExactly paddedHash plainIcs23 equalFoldASCII [66, 97, 110, 107] ∧
    ¬ twoBanks.ProvesExactly paddedHash plainIcs23 equalFoldASCII [66, 65, 78, 75] := by
  have hrun : ((getStoreProof paddedHash plainIcs23 equalFoldASCII twoBanks
      [66, 97, 110, 107]).toOption.map
        (fun proof => (proof.2.run plainIcs23 [[1]]).toOption)) = some none := by
    decide +kernel
  have hsome : (getStoreProof paddedHash plainIcs23 equalFoldASCII twoBanks
      [66, 65, 78, 75]).toOption.isSome = true := by
    decide +kernel
  refine ⟨hrun, hsome, ?_, ?_⟩
  · intro h
    obtain ⟨root, op, hproof, -, hop⟩ := h.1 ⟨[66, 97, 110, 107], ⟨1, [1]⟩⟩ (by decide) rfl
    have hop' : op.run plainIcs23 [[1]] = .ok [root] := hop
    simp [hproof, Except.toOption, hop'] at hrun
  · intro h
    obtain ⟨_, he⟩ := h.2 (by decide)
    simp [he, Except.toOption] at hsome

/-- The stores `mint`, `bank` and `acc`, not in the order of their names. -/
def threeStores : CommitInfo where
  storeInfos := [⟨[109, 105, 110, 116], ⟨1, [1]⟩⟩, ⟨[98, 97, 110, 107], ⟨1, [2]⟩⟩,
    ⟨[97, 99, 99], ⟨1, [3]⟩⟩]
  commitHash := []

/-- `bank`, the second of the three in the tree, is proved, and `gov` is refused. -/
theorem threeStores_proofs :
    (threeStores.Unambiguous paddedHash equalFoldASCII leafData [98, 97, 110, 107] ∧
      threeStores.ProvesExactly paddedHash plainIcs23 equalFoldASCII
        [98, 97, 110, 107]) ∧
    (threeStores.Unambiguous paddedHash equalFoldASCII leafData [103, 111, 118] ∧
      threeStores.ProvesExactly paddedHash plainIcs23 equalFoldASCII [103, 111, 118]) := by
  have hbank : threeStores.Unambiguous paddedHash equalFoldASCII leafData
      [98, 97, 110, 107] :=
    ⟨fun _ => ⟨by unfold Hashable; decide, by decide, .inl rfl⟩, fun h => absurd h (by decide)⟩
  have hgov : threeStores.Unambiguous paddedHash equalFoldASCII leafData
      [103, 111, 118] :=
    ⟨fun h => absurd h (by decide), fun _ => .inr (by decide)⟩
  have hfold : ∀ b, equalFoldASCII b b = true := fun _ => decide_eq_true rfl
  have hiff := getStoreProof_provesExactly_iff plainIcs23_lawful hfold
    threeStores (by decide)
  exact ⟨⟨hbank, (hiff _).1 hbank⟩, hgov, (hiff _).1 hgov⟩

end CommitInfo

end CosmosSDK.Store.Proof
