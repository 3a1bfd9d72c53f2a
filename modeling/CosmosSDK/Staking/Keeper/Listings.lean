import CosmosSDK.Collections.ExactIndexes
import CosmosSDK.Staking.State

/-!
# The records of a delegator

`GetUnbondingDelegations` and `GetRedelegations` of `x/staking/keeper/delegation.go`: they walk
over the entries of a collection whose keys begin with the delegator, up to a limit.
-/

namespace CosmosSDK.Staking

open Store Math Collections Fallible List

variable {K V S : Type}

/-- `Map.Walk` over the entries of a range. -/
def walk (m : Map K V) (walkFunc : V → S → Bool × S) : List (Bytes × Bytes) → S → Result CollErr S
  | [], s => .ok s
  | e :: entries, s => do
      let kv ← m.keyValue e
      let (stop, s) := walkFunc kv.2 s
      if stop then .ok s else walk m walkFunc entries s

/-- `sdk.LengthPrefixedBytesKey`. -/
def lengthPrefixedBytesKey : KeyCodec Bytes :=
  { bytesKey with
    encode := bytesKey.encodeNonTerminal
    decode := bytesKey.decodeNonTerminal
    size := bytesKey.sizeNonTerminal }

def unbondingDelegations (vc : ValueCodec UnbondingDelegation) : Map (Pair Bytes Bytes) UnbondingDelegation :=
  ⟨[50], pairKeyCodec bytesKey lengthPrefixedBytesKey, vc⟩

def redelegations (vc : ValueCodec Redelegation) : Map (Triple Bytes Bytes Bytes) Redelegation :=
  ⟨[52], tripleKeyCodec bytesKey bytesKey lengthPrefixedBytesKey, vc⟩

/-- The slice is made with `maxRetrieve` zero records, and the records are appended behind them. -/
def getUnbondingDelegations (vc : ValueCodec UnbondingDelegation) (entries : Entries)
    (delegator : Bytes) (maxRetrieve : UInt16) : Result CollErr (List UnbondingDelegation) := do
  let m := unbondingDelegations vc
  let start ← encodeKey m.kc ⟨some delegator, none⟩
  let range ← iterate m.prefixBytes start entries
  let (slice, i) ← walk m
    (fun value (slice, i) => (decide (maxRetrieve.toNat ≤ i + 1), slice ++ [value], i + 1))
    range (List.replicate maxRetrieve.toNat ⟨[], [], []⟩, 0)
  .ok (slice.take i)

/-- Here the records take the places of the zero ones. -/
def getRedelegations (vc : ValueCodec Redelegation) (entries : Entries) (delegator : Bytes)
    (maxRetrieve : UInt16) : Result CollErr (List Redelegation) := do
  let m := redelegations vc
  let start ← encodeKey m.kc ⟨some delegator, none, none⟩
  let range ← iterate m.prefixBytes start entries
  let (slice, i) ← walk m
    (fun redelegation (slice, i) =>
      if maxRetrieve.toNat ≤ i then (true, slice, i) else (false, slice.set i redelegation, i + 1))
    range (List.replicate maxRetrieve.toNat ⟨[], [], [], []⟩, 0)
  .ok (slice.take i)

/-- The records of a collection, in key order, whose keys begin with the given key. -/
def recordsOf (m : Map K V) (first : K) (entries : Entries) : Result CollErr (List V) := do
  let start ← encodeKey m.kc first
  let kvs ← (entries.toList.filter (fun e => start.isPrefixOf e.1)).mapM m.keyValue
  .ok (kvs.map Prod.snd)

variable {m : Map K V} {first : K} {entries : Entries} {range : List (Bytes × Bytes)}
  {kvs : List (K × V)} {records : List V} {n i : Nat}

theorem recordsOf_ok (hbounded : Bounded m.prefixBytes) (h : recordsOf m first entries = .ok records) :
    ∃ start range kvs, encodeKey m.kc first = .ok start ∧
      iterate m.prefixBytes start entries = .ok range ∧ range.mapM m.keyValue = .ok kvs ∧
      records = kvs.map Prod.snd := by
  simp only [recordsOf, bind_eq_ok] at h
  obtain ⟨start, hstart, kvs, hkvs, h⟩ := h
  exact ⟨start, _, kvs, hstart, iterate_of_bounded hbounded start entries, hkvs, (Except.ok.inj h).symm⟩

theorem walk_append {slice : List V} (h : range.mapM m.keyValue = .ok kvs) (hi : i = 0 ∨ i < n) :
    walk m (fun value (slice, i) => (decide (n ≤ i + 1), slice ++ [value], i + 1)) range (slice, i) =
      .ok (slice ++ (kvs.map Prod.snd).take (max (n - i) 1), i + min (max (n - i) 1) kvs.length) := by
  induction range generalizing kvs slice i with
  | nil =>
    cases h
    simp [walk]
  | cons e range ih =>
    simp only [mapM_cons, bind_eq_ok] at h
    obtain ⟨_, hkv, _, hkvs, h⟩ := h
    cases h
    simp only [walk, hkv, ok_bind]
    by_cases hlast : n ≤ i + 1
    · have hmax : max (n - i) 1 = 1 := by omega
      simp [hlast, hmax]
    · have hmax : max (n - i) 1 = max (n - (i + 1)) 1 + 1 := by omega
      rw [if_neg (by simpa using hlast), ih hkvs (.inr (by omega)), hmax]
      simp
      omega

theorem walk_set (slice : List V) (h : range.mapM m.keyValue = .ok kvs) (hi : i ≤ slice.length) :
    ∃ slice', walk m (fun value (slice', i) =>
        if slice.length ≤ i then (true, slice', i) else (false, slice'.set i value, i + 1))
        range (slice, i) = .ok (slice', i + min (slice.length - i) kvs.length) ∧
      slice'.take (i + min (slice.length - i) kvs.length) =
        slice.take i ++ (kvs.map Prod.snd).take (slice.length - i) := by
  induction range generalizing kvs slice i with
  | nil =>
    cases h
    exact ⟨slice, by simp [walk], by simp⟩
  | cons e range ih =>
    simp only [mapM_cons, bind_eq_ok] at h
    obtain ⟨kv, hkv, kvs', hkvs, h⟩ := h
    cases h
    simp only [walk, hkv, ok_bind]
    by_cases hlast : slice.length ≤ i
    · have hzero : slice.length - i = 0 := by omega
      exact ⟨slice, by simp [hlast, hzero], by simp [hzero]⟩
    · obtain ⟨slice', hwalk, htake⟩ := ih (i := i + 1) (slice.set i kv.2) hkvs
        (by rw [length_set]; omega)
      have hleft : slice.length - i = slice.length - (i + 1) + 1 := by omega
      have hnext : i + min (slice.length - i) (kvs'.length + 1) =
          i + 1 + min (slice.length - (i + 1)) kvs'.length := by omega
      rw [length_set] at hwalk htake
      refine ⟨slice', ?_, ?_⟩
      · rw [if_neg hlast, if_neg (by simp), hwalk, length_cons, hnext]
      · rw [length_cons, hnext, htake, hleft, take_add_one,
          List.getElem?_set_self (by omega), take_set_of_le le_rfl]
        simp

/-- `GetRedelegations` returns the first records.  `GetUnbondingDelegations` does so only if there
are none or they are all zero. -/
theorem listings_iff {vc : ValueCodec UnbondingDelegation} {vcRed : ValueCodec Redelegation}
    {ubds : List UnbondingDelegation} {reds : List Redelegation} {entries entriesRed : Entries}
    {delegator : Bytes} {n : UInt16}
    (hubds : recordsOf (unbondingDelegations vc) ⟨some delegator, none⟩ entries = .ok ubds)
    (hreds : recordsOf (redelegations vcRed) ⟨some delegator, none, none⟩ entriesRed = .ok reds) :
    (getUnbondingDelegations vc entries delegator n = .ok (ubds.take n.toNat) ∧
      getRedelegations vcRed entriesRed delegator n = .ok (reds.take n.toNat)) ↔
    (ubds = [] ∨ 0 < n ∧ ∀ ubd ∈ ubds.take n.toNat, ubd = ⟨[], [], []⟩) := by
  have hred : getRedelegations vcRed entriesRed delegator n = .ok (reds.take n.toNat) := by
    obtain ⟨_, _, kvs, hstart, hrange, hkvs, rfl⟩ := recordsOf_ok ⟨_, mem_cons_self, by decide⟩ hreds
    obtain ⟨_, hwalk, htake⟩ := walk_set (.replicate n.toNat ⟨[], [], [], []⟩) hkvs
      (Nat.zero_le _)
    rw [length_replicate] at hwalk htake
    simp only [getRedelegations, hstart, hrange, ok_bind, hwalk, htake]
    simp
  rw [and_iff_left hred]
  obtain ⟨_, _, kvs, hstart, hrange, hkvs, rfl⟩ := recordsOf_ok ⟨_, mem_cons_self, by decide⟩ hubds
  simp only [getUnbondingDelegations, hstart, hrange, ok_bind,
    walk_append hkvs (.inl rfl : (0 : Nat) = 0 ∨ _), Except.ok.injEq, Nat.sub_zero, zero_add]
  by_cases hn : n.toNat = 0
  · -- one record is returned although none is asked for
    have hn' : ¬ 0 < n := by rw [UInt16.lt_iff_toNat_lt]; simp [hn]
    cases kvs <;> simp [hn, hn']
  · have hn' : 0 < n := by rw [UInt16.lt_iff_toNat_lt, UInt16.toNat_zero]; omega
    have hmax : max n.toNat 1 = n.toNat := by omega
    rw [hmax, take_append_of_le_length (by simp), take_replicate, Nat.min_eq_left (by omega),
      eq_comm, eq_replicate_iff]
    cases kvs <;> simp [hn']

/-- The delegator has three redelegations and asks for two, beside the records of another one. -/
theorem two_of_three_listed :
    let vc : ValueCodec UnbondingDelegation :=
      ⟨fun ubd => .ok ubd.validatorAddress, fun w => .ok ⟨[8], w, []⟩⟩
    let vcRed : ValueCodec Redelegation :=
      ⟨fun red => .ok red.validatorSrcAddress, fun w => .ok ⟨[7], w, [3], []⟩⟩
    let entries : Entries := (∅ : Entries).insert [1, 8, 1, 1] [1]
    let entriesRed : Entries := ((((∅ : Entries).insert [1, 8, 1, 1, 1, 3] [4]).insert
      [1, 7, 1, 6, 1, 3] [6]).insert [1, 7, 1, 1, 1, 3] [1]).insert [1, 7, 1, 5, 1, 3] [5]
    getUnbondingDelegations vc entries [7] 2 = .ok [] ∧
      getRedelegations vcRed entriesRed [7] 2 = .ok [⟨[7], [1], [3], []⟩, ⟨[7], [5], [3], []⟩] := by
  intro vc vcRed entries entriesRed
  have hubds : recordsOf (unbondingDelegations vc) ⟨some [7], none⟩ entries = .ok [] := rfl
  have hreds : recordsOf (redelegations vcRed) ⟨some [7], none, none⟩ entriesRed =
    .ok [⟨[7], [1], [3], []⟩, ⟨[7], [5], [3], []⟩, ⟨[7], [6], [3], []⟩] := rfl
  exact (listings_iff hubds hreds).mpr (.inl rfl)

/-- One record is stored, and a zero record is returned. -/
theorem zero_listed :
    let vc : ValueCodec UnbondingDelegation := ⟨fun _ => .ok [], fun _ => .ok ⟨[1], [2], []⟩⟩
    let entries : Entries := (∅ : Entries).insert [1, 7, 1, 8] []
    (recordsOf (unbondingDelegations vc) ⟨some [7], none⟩ entries).toOption = some [⟨[1], [2], []⟩] ∧
      (getUnbondingDelegations vc entries [7] 1).toOption = some [⟨[], [], []⟩] := by
  decide +kernel

end CosmosSDK.Staking
