import CosmosSDK.Auth.Unordered.Decorator

/-!
# No unordered transaction is accepted twice

A hash may leave the manager only when the chain has passed the timeout of its transaction.
The file and the snapshots keep whole seconds, so this holds across restarts and restores
only for timeouts of whole seconds; and a snapshot must be exported while the manager still
has what the height of the snapshot needs.
-/

namespace CosmosSDK.Auth.Unordered

open OrderedKV List Manager BigEndian Int Except Fallible
open BitVec (ofNat ofInt)
open Std.ExtTreeMap (mem_toList_iff_getElem?_eq_some)

/-! ## The chunks of the file and of the snapshots -/

namespace Manager

theorem length_unorderedTxToBytes (hash : TxHash) (ttl : BitVec 64) :
    (unorderedTxToBytes hash ttl).length = chunkSize := by
  rw [unorderedTxToBytes, length_append, hash.length_eq, length_bytes, chunkSize]

theorem readChunks_flatMap (l : List (TxHash × BitVec 64)) {n : Nat} (hn : l.length ≤ n) :
    readChunks n (l.flatMap (fun c => unorderedTxToBytes c.1 c.2)) = .ok l := by
  induction l generalizing n with
  | nil => cases n <;> rfl
  | cons c l ih =>
    obtain ⟨hash, ttl⟩ := c
    obtain ⟨n, rfl⟩ : ∃ m, n = m + 1 := ⟨n - 1, by simp at hn; omega⟩
    generalize hrest : l.flatMap (fun c => unorderedTxToBytes c.1 c.2) = rest at ih
    have htail : readChunks n rest = .ok l := ih (by simpa using hn)
    have hlen := length_unorderedTxToBytes hash ttl
    have hhash : (unorderedTxToBytes hash ttl ++ rest).take txHashSize = hash.bytes := by
      rw [unorderedTxToBytes, append_assoc, ← hash.length_eq, take_left]
    have hdrop : (unorderedTxToBytes hash ttl ++ rest).drop chunkSize = rest := by
      rw [← hlen, drop_left]
    have httl : ((unorderedTxToBytes hash ttl ++ rest).drop txHashSize).take timeoutSize =
        bytes timeoutSize ttl.toNat := by
      rw [unorderedTxToBytes, append_assoc, ← hash.length_eq, drop_left]
      exact take_left' (length_bytes timeoutSize ttl.toNat)
    have hvalue : ofNat 64 (value (bytes timeoutSize ttl.toNat)) =
        ttl := by
      rw [value_bytes, Nat.mod_eq_of_lt]
      · simp
      · exact ttl.isLt
    rw [flatMap_cons, hrest]
    have hne : unorderedTxToBytes hash ttl ++ rest ≠ [] := by
      intro hnil
      have := congrArg List.length hnil
      rw [length_append, hlen] at this
      simp [chunkSize, txHashSize] at this
    have hle : chunkSize ≤ (unorderedTxToBytes hash ttl ++ rest).length := by
      rw [length_append, hlen]
      omega
    rw [readChunks]
    · rw [dif_pos hle]
      simp only [hdrop, htail, hhash, httl, hvalue]
    · exact hne

/-- The manager keeps every timeout until its second is over. -/
def Kept (t : Time) : Prop :=
  zeroTime ≤ t ∧ t < endTime ∧ unix t ≠ 0

variable {t : Time} {m m₀ : Manager} {hash : TxHash}

theorem Kept.toInt_ofInt (h : Kept t) : (ofInt 64 (unix t)).toInt = unix t := by
  have hzero : (-62135596800000000000 : Int) ≤ t := h.1
  have hend : (253402300800000000000 : Int) > t := h.2.1
  rw [BitVec.toInt_ofInt, unix, second]
  apply bmod_eq_of_le
  · omega
  · omega

/-- Every timeout the manager holds can be written and read. -/
def AllKept (m : Manager) : Prop :=
  ∀ (hash : TxHash) (t : Time), m.txHashes[hash]? = some t → Kept t

/-- Every timeout the manager holds is a whole second. -/
def WholeSeconds (m : Manager) : Prop :=
  ∀ e ∈ m.txHashes.toList, e.2 % second = 0

instance (m : Manager) : Decidable m.WholeSeconds :=
  inferInstanceAs (Decidable (∀ e ∈ m.txHashes.toList, e.2 % second = 0))

/-- The hashes with their timeouts cut to seconds. -/
def inSeconds (m : Manager) : List (TxHash × Time) :=
  m.txHashes.toList.map (fun e => (e.1, ofUnix (unix e.2)))

theorem mem_inSeconds :
    (hash, t) ∈ m.inSeconds ↔ ∃ u, m.txHashes[hash]? = some u ∧ t = ofUnix (unix u) := by
  simp only [inSeconds, mem_map, Prod.exists, Prod.mk.injEq]
  constructor
  · rintro ⟨h, u, hmem, rfl, rfl⟩
    exact ⟨u, mem_toList_iff_getElem?_eq_some.mp hmem, rfl⟩
  · rintro ⟨u, hu, rfl⟩
    exact ⟨hash, u, mem_toList_iff_getElem?_eq_some.mpr hu, rfl, rfl⟩

theorem inSeconds_pairwise_ne (m : Manager) : m.inSeconds.Pairwise (fun x y => x.1 ≠ y.1) := by
  rw [inSeconds, pairwise_map]
  apply List.Pairwise.imp _ Std.ExtTreeMap.ordered_keys_toList
  intro x y hlt heq
  rw [heq] at hlt
  exact OrderedKV.lt_irrefl _ hlt

theorem readChunks_exportBytes (m : Manager) : readChunks m.exportBytes.length m.exportBytes =
      .ok (m.txHashes.toList.map (fun e => (e.1, ofInt 64 (unix e.2)))) := by
  have hflat : m.exportBytes = (m.txHashes.toList.map
      (fun e => (e.1, ofInt 64 (unix e.2)))).flatMap
        (fun c => unorderedTxToBytes c.1 c.2) := by
    rw [exportBytes, flatMap_map]
  have hlen : m.txHashes.toList.length ≤ m.exportBytes.length := by
    rw [exportBytes, length_flatMap]
    simp only [length_unorderedTxToBytes, map_const', sum_replicate_nat]
    exact Nat.le_mul_of_pos_right _ (show 0 < chunkSize by decide)
  nth_rewrite 2 [hflat]
  exact readChunks_flatMap _ (by rw [length_map]; exact hlen)

theorem ofUnix_toInt (hkept : m.AllKept) :
    m.txHashes.toList.map (fun e => (e.1, ofUnix (ofInt 64 (unix e.2)).toInt)) =
      m.inSeconds := by
  apply map_congr_left
  rintro ⟨hash, t⟩ he
  have ht := hkept hash t (mem_toList_iff_getElem?_eq_some.mp he)
  rw [ht.toInt_ofInt]

theorem onInit_exportBytes (hkept : m.AllKept) (m₀ : Manager) :
    m₀.onInit (some m.exportBytes) = .ok (m₀.addAll m.inSeconds) := by
  rw [onInit]
  simp only [readChunks_exportBytes, map_map]
  rw [← ofUnix_toInt hkept]
  rfl

/-- A snapshot is read back in the same way; no kept timeout has the timestamp 0. -/
theorem restore_exportBytes (hkept : m.AllKept) (m₀ : Manager) :
    m₀.restore m.exportBytes = .ok (m₀.addAll m.inSeconds) := by
  rw [restore]
  simp only [readChunks_exportBytes]
  have hall : (m.txHashes.toList.map fun e => (e.1, ofInt 64 (unix e.2))).filter
      (fun c => decide (c.2 ≠ 0)) =
        m.txHashes.toList.map (fun e => (e.1, ofInt 64 (unix e.2))) := by
    rw [filter_eq_self]
    intro c hc
    obtain ⟨⟨hash, t⟩, he, rfl⟩ := mem_map.mp hc
    have ht := hkept hash t (mem_toList_iff_getElem?_eq_some.mp he)
    have hne : ofInt 64 (unix t) ≠ 0 := by
      intro hzero
      have := ht.toInt_ofInt
      rw [hzero] at this
      exact ht.2.2 this.symm
    simpa using hne
  rw [hall, map_map, ← ofUnix_toInt hkept]
  rfl

theorem Kept.ofUnix (h : Kept t) : Kept (ofUnix (unix t)) := by
  have hzero : (-62135596800000000000 : Int) ≤ t := h.1
  have hend : (253402300800000000000 : Int) > t := h.2.1
  refine ⟨?_, ?_, ?_⟩
  · show (-62135596800000000000 : Int) ≤ t / 1000000000 * 1000000000
    omega
  · show (253402300800000000000 : Int) > t / 1000000000 * 1000000000
    omega
  · show unix t * second / second ≠ 0
    rw [mul_ediv_cancel _ (by decide)]
    exact h.2.2

theorem allKept_addAll (hkept : m.AllKept) (hkept0 : m₀.AllKept) :
    (m₀.addAll m.inSeconds).AllKept := by
  intro hash t ht
  rcases mem_or_of_getElem?_insertAll ht with hmem | ht
  · obtain ⟨u, hu, rfl⟩ := mem_inSeconds.mp hmem
    exact (hkept hash u hu).ofUnix
  · exact hkept0 hash t ht

/-- Timeouts of whole seconds come back as they were. -/
theorem getElem?_addAll (hwhole : m.WholeSeconds) (h : m.txHashes[hash]? = some t) :
    (m₀.addAll m.inSeconds).txHashes[hash]? = some t := by
  apply getElem?_insertAll_of_mem (inSeconds_pairwise_ne m)
  refine mem_inSeconds.mpr ⟨t, h, ?_⟩
  have hmod := hwhole (hash, t) (mem_toList_iff_getElem?_eq_some.mpr h)
  exact (ediv_mul_cancel_of_emod_eq_zero hmod).symm

theorem allKept_new : new.AllKept := by
  intro hash t ht
  simp [new] at ht

/-! ## The purge -/

theorem getElem?_purge (h : m.purge.txHashes[hash]? = some t) : m.txHashes[hash]? = some t := by
  unfold purge at h
  cases hl : m.loop with
  | receiving =>
    rw [hl] at h
    exact h
  | expired hashes =>
    rw [hl] at h
    rw [lookup_foldl_erase, Option.ite_none_left_eq_some] at h
    exact h.2

theorem AllKept.purge (h : m.AllKept) : m.purge.AllKept :=
  fun hash t ht => h hash t (getElem?_purge ht)

theorem WholeSeconds.purge (h : m.WholeSeconds) : m.purge.WholeSeconds := by
  rintro ⟨hash, t⟩ he
  have ht := getElem?_purge (mem_toList_iff_getElem?_eq_some.mp he)
  exact h (hash, t) (mem_toList_iff_getElem?_eq_some.mpr ht)

end Manager

/-! ## The invariant of a node -/

/-- The hash of a transaction, as `ValidateTx` computes it. -/
def identifier (d : Decorator) (tx : Tx) : Except TxErr TxHash :=
  txIdentifier d (ofInt 64 (unix tx.timeoutTimestamp.time)) tx

/-- The transaction has timed out, or its hash is there until it does. -/
def Barred (d : Decorator) (blockTime : Time) (txHashes : OrdMap TxHash Time) (tx : Tx) : Prop :=
  tx.timeoutTimestamp.time < blockTime ∨
    ∃ hash t, identifier d tx = .ok hash ∧ txHashes[hash]? = some t ∧
      tx.timeoutTimestamp.time ≤ t

variable {d : Decorator} {blockTime : Time} {m m' : Manager} {tx : Tx} {gasLeft : Option Nat}

theorem validateTx_ok {mode : ExecMode} (hmode : mode ≠ .simulate) (hun : tx.unordered = true)
    (h : validateTx d mode blockTime gasLeft m tx = .ok m') :
    ∃ hash, identifier d tx = .ok hash ∧ m.txHashes[hash]? = none ∧
      (mode = .finalize → m' = m.add hash tx.timeoutTimestamp.time) ∧
      unix tx.timeoutTimestamp.time ≠ 0 ∧ blockTime ≤ tx.timeoutTimestamp.time := by
  simp only [validateTx, hun, Bool.true_eq_false, if_false, refuse_eq_ok, hmode] at h
  obtain ⟨hset, hpassed, -, -, h⟩ := h
  cases hid : txIdentifier d (ofInt 64 (unix tx.timeoutTimestamp.time)) tx with
  | error =>
    rw [hid] at h
    cases h
  | ok hash =>
    simp only [hid, refuse_eq_ok] at h
    obtain ⟨hcontains, h⟩ := h
    refine ⟨hash, hid, ?_, fun hfinal => ?_, fun hzero => hset (.inr hzero), not_lt.mp hpassed⟩
    · rw [Manager.contains] at hcontains
      exact Option.not_isSome_iff_eq_none.mp hcontains
    · rw [if_pos hfinal] at h
      exact (ok.inj h).symm

theorem Barred.validateTx {mode : ExecMode} (hmode : mode ≠ .simulate) (hun : tx.unordered = true)
    (h : Barred d blockTime m.txHashes tx) (gasLeft : Option Nat) :
    ∃ err, validateTx d mode blockTime gasLeft m tx = .error err := by
  cases hv : Unordered.validateTx d mode blockTime gasLeft m tx with
  | error err => exact ⟨err, rfl⟩
  | ok =>
    obtain ⟨_, hid, hnone, -, -, hle⟩ := validateTx_ok hmode hun hv
    rcases h with hlt | ⟨hash, t, hid', ht, -⟩
    · exact absurd hlt hle.not_gt
    · cases hid.symm.trans hid'
      cases hnone.symm.trans ht

/-- In the other modes, and for ordered transactions, the manager stays as it is. -/
theorem validateTx_unchanged {mode : ExecMode} {headerTime : Time}
    (hmode : mode ≠ .finalize ∨ tx.unordered = false)
    (h : validateTx d mode headerTime gasLeft m tx = .ok m') : m' = m := by
  grind [validateTx]

def Covered (d : Decorator) (c : Commit) (txHashes : OrdMap TxHash Time) : Prop :=
  ∀ tx ∈ c.accepted, tx.unordered = true ∧ Barred d c.blockTime txHashes tx

namespace Node

def chain (n : Node) : Commit :=
  ⟨n.accepted, n.blockTime⟩

/-- No expired hash that the loop has found, and no time it will look with, is ahead of the
chain. -/
def LoopBehind (n : Node) : Prop :=
  match n.manager.loop with
  | .receiving latestTime => latestTime ≤ n.blockTime
  | .expired hashes =>
    ∀ hash ∈ hashes, ∃ t, n.manager.txHashes[hash]? = some t ∧ t < n.blockTime

structure Guarded (d : Decorator) (n : Node) : Prop where
  nodup : n.accepted.Nodup
  covered : Covered d n.chain n.manager.txHashes
  kept : n.manager.AllKept
  started : zeroTime ≤ n.blockTime
  channel : ∀ t ∈ n.manager.blockCh, t ≤ n.blockTime
  loop : n.LoopBehind
  file : ∀ bytes ∈ n.file, ∃ m : Manager, bytes = m.exportBytes ∧ m.AllKept
  exporting : ∀ c ∈ n.exporting, c.accepted.Nodup ∧ c.accepted ⊆ n.accepted ∧ zeroTime ≤ c.blockTime
  snapshots : ∀ s ∈ n.snapshots, s.commit.accepted.Nodup ∧ zeroTime ≤ s.commit.blockTime ∧
    ∃ m : Manager, s.payload = m.exportBytes ∧ m.AllKept ∧ m.WholeSeconds ∧
      Covered d s.commit m.txHashes

theorem guarded_genesis (d : Decorator) : Guarded d genesis where
  nodup := nodup_nil
  covered := by
    intro tx htx
    cases htx
  kept := allKept_new
  started := le_refl _
  channel := by
    intro t ht
    cases ht
  loop := le_refl _
  file := by
    intro bytes hb
    cases hb
  exporting := by
    intro c hc
    cases hc
  snapshots := by
    intro s hs
    cases hs

section Steps

variable {d : Decorator} {n : Node}

section

variable (h : Guarded d n)
include h

theorem Guarded.newBlock (elapsed : Nat) :
    Guarded d { n with
      blockTime := n.blockTime + elapsed
      manager := n.manager.onNewBlock (n.blockTime + elapsed) } := by
  have hle : n.blockTime ≤ n.blockTime + elapsed := le_add_of_nonneg_right (natCast_nonneg _)
  refine ⟨h.nodup, ?_, h.kept, le_trans h.started hle, ?_, ?_, h.file, h.exporting, h.snapshots⟩
  · intro tx htx
    obtain ⟨hun, hbar⟩ := h.covered tx htx
    refine ⟨hun, hbar.imp_left ?_⟩
    intro hlt
    exact lt_of_lt_of_le hlt hle
  · intro t ht
    rcases mem_append.mp ht with ht | ht
    · exact le_trans (h.channel t ht) hle
    · rw [mem_singleton.mp ht]
  · have hloop := h.loop
    unfold LoopBehind at hloop ⊢
    cases hl : n.manager.loop with
    | receiving =>
      rw [hl] at hloop
      simp only [onNewBlock, hl]
      exact le_trans hloop hle
    | expired =>
      rw [hl] at hloop
      simp only [onNewBlock, hl]
      intro hash hmem
      obtain ⟨t, ht, hlt⟩ := hloop hash hmem
      exact ⟨t, ht, lt_of_lt_of_le hlt hle⟩

/-- A hash that is added is none of those the loop has found, which are there already. -/
theorem Guarded.accept (hun : tx.unordered = true)
    (hok : validateTx d .finalize n.blockTime gasLeft n.manager tx = .ok m) :
    Guarded d { n with manager := m, accepted := n.accepted ++ [tx] } := by
  obtain ⟨hash, hid, hnone, hadd, hzero, -⟩ := validateTx_ok (by decide) hun hok
  obtain rfl := hadd rfl
  have hnew : tx ∉ n.accepted := by
    intro hmem
    obtain ⟨err, herr⟩ : ∃ err, validateTx d .finalize n.blockTime gasLeft n.manager tx = .error err :=
      (h.covered tx hmem).2.validateTx (by decide) hun gasLeft
    rw [hok] at herr
    cases herr
  refine ⟨?_, ?_, ?_, h.started, h.channel, ?_, h.file, ?_, h.snapshots⟩
  · rw [nodup_append]
    refine ⟨h.nodup, nodup_singleton tx, ?_⟩
    intro a ha b hb heq
    rw [mem_singleton.mp hb] at heq
    exact hnew (heq ▸ ha)
  · intro t ht
    rcases mem_append.mp ht with ht | ht
    · obtain ⟨htun, hbar⟩ := h.covered t ht
      refine ⟨htun, hbar.imp_right ?_⟩
      rintro ⟨hash', u, hid', hu, hle⟩
      refine ⟨hash', u, hid', ?_, hle⟩
      show (n.manager.txHashes.insert hash _)[hash']? = some u
      rw [lookup_insert, if_neg, hu]
      intro heq
      rw [heq, hnone] at hu
      cases hu
    · obtain rfl := mem_singleton.mp ht
      refine ⟨hun, .inr ⟨hash, t.timeoutTimestamp.time, hid, ?_, le_refl _⟩⟩
      show (n.manager.txHashes.insert hash _)[hash]? = some _
      rw [lookup_insert, if_pos rfl]
  · intro hash' t ht
    have ht : (n.manager.txHashes.insert hash tx.timeoutTimestamp.time)[hash']? = some t := ht
    rw [lookup_insert] at ht
    by_cases heq : hash' = hash
    · rw [if_pos heq] at ht
      cases ht
      exact ⟨tx.timeoutTimestamp.zero_le, tx.timeoutTimestamp.lt_end, hzero⟩
    · rw [if_neg heq] at ht
      exact h.kept hash' t ht
  · have hbehind := h.loop
    unfold LoopBehind at hbehind ⊢
    cases hl : n.manager.loop with
    | receiving =>
      rw [hl] at hbehind
      simp only [add, hl]
      exact hbehind
    | expired =>
      rw [hl] at hbehind
      simp only [add, hl]
      intro hash' hmem
      obtain ⟨t, ht, hlt⟩ := hbehind hash' hmem
      refine ⟨t, ?_, hlt⟩
      rw [lookup_insert, if_neg, ht]
      intro heq
      rw [heq, hnone] at ht
      cases ht
  · intro c hc
    obtain ⟨hnd, hsub, hstart⟩ := h.exporting c hc
    exact ⟨hnd, fun t ht => mem_append_left _ (hsub ht), hstart⟩

theorem Guarded.receive :
    Guarded d { n with manager := n.manager.receive } := by
  unfold Manager.receive
  cases hl : n.manager.loop with
  | expired => exact h
  | receiving latestTime =>
    cases hch : n.manager.blockCh with
    | nil => exact h
    | cons blockTime =>
      have hloop := h.loop
      unfold LoopBehind at hloop
      rw [hl] at hloop
      have htime : blockTime ≤ n.blockTime :=
        h.channel blockTime (by rw [hch]; exact mem_cons_self ..)
      refine ⟨h.nodup, h.covered, h.kept, h.started, ?_, ?_, h.file, h.exporting, h.snapshots⟩
      · intro t ht
        exact h.channel t (by rw [hch]; exact mem_cons_of_mem _ ht)
      · show (if blockTime > latestTime then blockTime else latestTime) ≤ n.blockTime
        by_cases hgt : blockTime > latestTime
        · rw [if_pos hgt]
          exact htime
        · rw [if_neg hgt]
          exact hloop

theorem Guarded.deadline :
    Guarded d { n with manager := n.manager.deadline } := by
  unfold Manager.deadline
  cases hl : n.manager.loop with
  | expired => exact h
  | receiving =>
    have hloop := h.loop
    unfold LoopBehind at hloop
    rw [hl] at hloop
    refine ⟨h.nodup, h.covered, h.kept, h.started, h.channel, ?_, h.file, h.exporting, h.snapshots⟩
    intro hash hmem
    obtain ⟨⟨_, t⟩, he, rfl⟩ := mem_map.mp hmem
    obtain ⟨hlist, hgt⟩ := mem_filter.mp he
    refine ⟨t, mem_toList_iff_getElem?_eq_some.mp hlist, ?_⟩
    exact lt_of_lt_of_le (of_decide_eq_true hgt) hloop

theorem Guarded.purge : Guarded d { n with manager := n.manager.purge } := by
  have hkept := h.kept.purge
  unfold Manager.purge at hkept ⊢
  cases hl : n.manager.loop with
  | receiving => exact h
  | expired hashes =>
    rw [hl] at hkept
    have hloop := h.loop
    unfold LoopBehind at hloop
    rw [hl] at hloop
    refine ⟨h.nodup, ?_, hkept, h.started, h.channel, h.started, h.file, h.exporting, h.snapshots⟩
    intro tx htx
    obtain ⟨hun, hbar⟩ := h.covered tx htx
    refine ⟨hun, ?_⟩
    rcases hbar with hlt | ⟨hash, t, hid, ht, hle⟩
    · exact .inl hlt
    · by_cases hmem : hash ∈ hashes
      · obtain ⟨_, hu, hlt⟩ := hloop hash hmem
        rw [ht] at hu
        cases hu
        exact .inl (lt_of_le_of_lt hle hlt)
      · refine .inr ⟨hash, t, hid, ?_, hle⟩
        rw [lookup_foldl_erase, map_id', if_neg hmem]
        exact ht

theorem Guarded.restart (hwhole : n.manager.WholeSeconds) :
    Guarded d (n.restarted (some n.manager.close)) := by
  have hp := h.purge
  have hkept : n.manager.purge.AllKept := hp.kept
  have hinit := onInit_exportBytes hkept new
  rw [restarted, close, hinit]
  refine ⟨h.nodup, ?_, allKept_addAll hkept allKept_new, h.started, ?_, h.started,
    ?_, ?_, h.snapshots⟩
  · intro tx htx
    obtain ⟨hun, hbar⟩ := hp.covered tx htx
    refine ⟨hun, hbar.imp_right ?_⟩
    rintro ⟨hash, t, hid, ht, hle⟩
    exact ⟨hash, t, hid, getElem?_addAll hwhole.purge ht, hle⟩
  · intro t ht
    cases ht
  · intro bytes hbytes
    cases hbytes
    exact ⟨n.manager.purge, rfl, hkept⟩
  · intro c hc
    cases hc

theorem Guarded.beginSnapshot :
    Guarded d { n with exporting := n.exporting <|> some ⟨n.accepted, n.blockTime⟩ } := by
  refine ⟨h.nodup, h.covered, h.kept, h.started, h.channel, h.loop, h.file, ?_, h.snapshots⟩
  intro c hc
  cases he : n.exporting with
  | none =>
    rw [he] at hc
    obtain rfl := Option.some.inj hc
    exact ⟨h.nodup, fun _ ht => ht, h.started⟩
  | some c' =>
    rw [he] at hc
    obtain rfl := Option.some.inj hc
    exact h.exporting c' he

/-- A snapshot that is exported before the next block has what its height needs. -/
theorem Guarded.exportSnapshot {c : Commit} (hc : n.exporting = some c)
    (hwhole : n.manager.WholeSeconds) (htime : c.blockTime = n.blockTime) :
    Guarded d { n with
      exporting := none
      snapshots := n.snapshots ++ [⟨c, n.manager.exportBytes⟩] } := by
  obtain ⟨hnd, hsub, hstart⟩ := h.exporting c hc
  refine ⟨h.nodup, h.covered, h.kept, h.started, h.channel, h.loop, h.file, ?_, ?_⟩
  · intro c hc
    cases hc
  · intro s hs
    rcases mem_append.mp hs with hs | hs
    · exact h.snapshots s hs
    · obtain rfl := mem_singleton.mp hs
      refine ⟨hnd, hstart, n.manager, rfl, h.kept, hwhole, ?_⟩
      intro tx htx
      obtain ⟨hun, hbar⟩ := h.covered tx (hsub htx)
      refine ⟨hun, ?_⟩
      rw [htime]
      exact hbar

theorem onInit_file : ∃ m, new.onInit n.file = .ok m ∧ m.AllKept ∧ m.blockCh = [] ∧
      m.loop = .receiving zeroTime := by
  cases hf : n.file with
  | none => exact ⟨new, rfl, allKept_new, rfl, rfl⟩
  | some bytes =>
    obtain ⟨_, rfl, hkept⟩ := h.file bytes hf
    exact ⟨_, onInit_exportBytes hkept new,
      allKept_addAll hkept allKept_new, rfl, rfl⟩

theorem Guarded.restore {s : Snapshot} (hs : s ∈ n.snapshots) : Guarded d (n.restored s) := by
  obtain ⟨hnd, hstart, _, hpayload, hkept, hwhole, hcovered⟩ := h.snapshots s hs
  obtain ⟨m₀, hinit, hkept0, hch, hloop⟩ := onInit_file h
  have hrestore := restore_exportBytes hkept m₀
  rw [restored, hinit, ok_bind, hpayload, hrestore]
  refine ⟨hnd, ?_, allKept_addAll hkept hkept0, hstart, ?_, ?_, h.file, ?_, h.snapshots⟩
  · intro tx htx
    obtain ⟨hun, hbar⟩ := hcovered tx htx
    refine ⟨hun, hbar.imp_right ?_⟩
    rintro ⟨hash, t, hid, ht, hle⟩
    exact ⟨hash, t, hid, getElem?_addAll hwhole ht, hle⟩
  · intro t ht
    have ht : t ∈ m₀.blockCh := ht
    rw [hch] at ht
    cases ht
  · show LoopBehind _
    simp only [addAll, hloop]
    exact hstart
  · intro c hc
    cases hc

end

end Steps

/-! ## Runs -/

/-- What is written to disk loses nothing: the timeouts are whole seconds, and a snapshot is
exported before the next block. -/
def Exact : Step → Node → Prop
  | .restart, n => n.manager.WholeSeconds
  | .exportSnapshot, n =>
    n.manager.WholeSeconds ∧ ∀ c ∈ n.exporting, c.blockTime = n.blockTime
  | _, _ => True

instance (s : Step) (n : Node) : Decidable (Exact s n) := by
  unfold Exact
  split <;> infer_instance

theorem Guarded.step {n : Node} (h : Guarded d n) (s : Step) (hs : Exact s n) :
    Guarded d (Node.step d s n).2 := by
  cases s with
  | newBlock elapsed => exact h.newBlock elapsed
  | deliverTx gasLeft tx =>
    show Guarded d (n.deliverTx d gasLeft tx).2
    unfold deliverTx
    cases hv : validateTx d .finalize n.blockTime gasLeft n.manager tx with
    | error => exact h
    | ok =>
      by_cases hun : tx.unordered = true
      · simp only [hun, if_true]
        exact h.accept hun hv
      · have hfalse : tx.unordered = false := by simpa using hun
        rw [validateTx_unchanged (.inr hfalse) hv]
        simp only [hun]
        exact h
  | checkTx mode hmode headerTime gasLeft tx =>
    rw [Node.step]
    cases hv : validateTx d mode headerTime gasLeft n.manager tx with
    | error => exact h
    | ok =>
      rw [validateTx_unchanged (.inl hmode) hv]
      exact h
  | receive => exact h.receive
  | deadline => exact h.deadline
  | purge => exact h.purge
  | restart => exact h.restart hs
  | beginSnapshot => exact h.beginSnapshot
  | exportSnapshot =>
    rw [Node.step]
    cases hc : n.exporting with
    | none => exact h
    | some c => exact h.exportSnapshot hc hs.1 (hs.2 c hc)
  | restoreSnapshot i =>
    rw [Node.step]
    cases hi : n.snapshots[i]? with
    | none => exact h
    | some => exact h.restore (mem_of_getElem? hi)

/-- No transaction was accepted twice, and none that was accepted would be accepted again in any
mode that looks for duplicates. -/
def NeverTwice (d : Decorator) (n : Node) : Prop :=
  n.accepted.Nodup ∧ ∀ tx ∈ n.accepted, ∀ mode ≠ .simulate, ∀ gasLeft,
    ∃ err, validateTx d mode n.blockTime gasLeft n.manager tx = .error err

theorem reached_neverTwice (d : Decorator) (run : List Step)
    (h : Machine.Along (Node.step d) Exact run genesis) : NeverTwice d (reached d run) := by
  have hguard : Guarded d (reached d run) :=
    h.invariant (fun s n hs hn => hn.step s hs) (guarded_genesis d)
  refine ⟨hguard.nodup, ?_⟩
  intro tx htx mode hmode gasLeft
  obtain ⟨hun, hbar⟩ := hguard.covered tx htx
  exact hbar.validateTx hmode hun gasLeft

/-- A decorator with the default timeout of 40 minutes; the hash is what the identifier
starts with. -/
def plainDecorator : Decorator where
  maxTimeoutDuration := 2400000000000
  sha256Cost := 25
  sum256 := fun bz => ⟨(bz ++ List.replicate txHashSize 0).take txHashSize, by
    rw [length_take, length_append, length_replicate]
    omega⟩

def signedTx (timeout : Timestamp) : Tx :=
  ⟨true, timeout, false, .ok [.single .direct [7, 7]], [some [1]], 1000⟩

def halfPast : Timestamp :=
  ⟨1700000000500000000, by decide, by decide⟩

def nextSecond : Timestamp :=
  ⟨1700000001000000000, by decide, by decide⟩

/-- Blocks at the second 1700000000 and 0.2 seconds later, with a restart and a purge between
the two deliveries of a transaction. -/
def restartedRun (tx : Tx) : List Step :=
  [.newBlock 63835596800000000000, .deliverTx none tx, .restart, .newBlock 200000000, .receive,
    .deadline, .purge, .deliverTx none tx]

def restoredRun (tx : Tx) : List Step :=
  [.newBlock 63835596800000000000, .deliverTx none tx, .beginSnapshot, .exportSnapshot, .restart,
    .newBlock 200000000, .restoreSnapshot 0, .newBlock 200000000, .receive, .deadline, .purge,
    .deliverTx none tx]

theorem reached_neverTwice_restoredRun :
    Machine.Along (Node.step plainDecorator) Exact (restoredRun (signedTx nextSecond)) genesis ∧
      NeverTwice plainDecorator (reached plainDecorator (restoredRun (signedTx nextSecond))) ∧
      (reached plainDecorator (restoredRun (signedTx nextSecond))).accepted.length = 1 := by
  have h : Machine.Along (Node.step plainDecorator) Exact (restoredRun (signedTx nextSecond))
      genesis := by decide +kernel
  exact ⟨h, reached_neverTwice plainDecorator _ h, by decide +kernel⟩

/-- The file keeps the second 1700000000 for a timeout half a second later, so the hash is gone
when the transaction comes again before its timeout. -/
theorem restartedRun_accepts_twice :
    (reached plainDecorator (restartedRun (signedTx halfPast))).accepted =
      [signedTx halfPast, signedTx halfPast] ∧
    ¬ NeverTwice plainDecorator (reached plainDecorator (restartedRun (signedTx halfPast))) := by
  have htwice : (reached plainDecorator (restartedRun (signedTx halfPast))).accepted =
      [signedTx halfPast, signedTx halfPast] := rfl
  refine ⟨htwice, ?_⟩
  intro h
  have hnodup := h.1
  rw [htwice] at hnodup
  simp at hnodup

end Node

end CosmosSDK.Auth.Unordered
