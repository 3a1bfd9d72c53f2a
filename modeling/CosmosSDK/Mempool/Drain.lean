import CosmosSDK.Mempool.Consistent
import CosmosSDK.Lib.Draining

/-!
# Draining the mempool

The iterator of `Select` serves, at each node of the priority index, the sender of the node
until the sender's next transaction waits for the next node.  In a consistent pool this
reads every transaction once, and those of one sender by nonce.
-/

namespace CosmosSDK.Mempool

open List Function Machine

variable {Ctx Tx C S : Type}

namespace PriorityNonceMempool

/-- What the pool stores of an element: its sender, its nonce and the transaction. -/
def stored (e : TxMeta C S × Tx) : S × Nat × Tx := (e.1.sender, e.1.nonce, e.2)

theorem stored_eq {a b : TxMeta C S × Tx} (h : stored a = stored b) :
    a.1.sender = b.1.sender ∧ a.1.nonce = b.1.nonce :=
  ⟨congrArg (fun x : S × Nat × Tx => x.1) h, congrArg (fun x : S × Nat × Tx => x.2.1) h⟩

variable [LinearOrder C] [Inhabited C] [LinearOrder S]

/-- Draining the iterator of `Select` ends, reads every stored transaction once, and reads
the transactions of each sender by increasing nonce. -/
def Drains [SkipList.Operations] (cfg : PriorityNonceMempoolConfig Ctx Tx C S)
    (mp : PriorityNonceMempool C S Tx) : Prop :=
  ∀ fuel, mp.priorityIndex.length ≤ fuel →
    ∃ es : List (TxMeta C S × Tx),
      drain cfg (mp.select cfg).2 fuel (mp.select cfg).1 = (es.map some, none) ∧
      (es.map stored).Perm (mp.priorityIndex.map stored) ∧
      ∀ s, ((es.filter (fun e => e.1.sender = s)).map (fun e => e.1.nonce)).Pairwise (· < ·)

/-- The elements read off an iterator, as queues served along the priority index. -/
def served (cfg : PriorityNonceMempoolConfig Ctx Tx C S) (mp : PriorityNonceMempool C S Tx)
    (nodes : List (TxMeta C S × Tx)) (queue : S → List (TxMeta C S × Tx)) :
    List (TxMeta C S × Tx) :=
  Draining.served (fun n => n.1.sender) (fun rest e => mp.waits cfg rest e.1) nodes queue

section Iterator

variable (cfg : PriorityNonceMempoolConfig Ctx Tx C S) (mp : PriorityNonceMempool C S Tx)

omit [LinearOrder C] [Inhabited C] in
theorem pending_update (senderCursors : S → Option (List (TxMeta C S × Tx))) (s : S)
    (cursor : List (TxMeta C S × Tx)) : mp.pending (update senderCursors s (some cursor)) =
      update (mp.pending senderCursors) s cursor.tail := by
  funext s'
  by_cases hs : s' = s
  · subst hs
    simp [pending]
  · simp [pending, hs]

theorem drain_none (fuel : Nat) : drain cfg mp fuel none = ([], none) := by
  cases fuel <;> rfl

/-- When the sender has nothing to give at a node, the next node is looked at. -/
theorem served_of_pass (node : TxMeta C S × Tx) (rest : List (TxMeta C S × Tx))
    (queue : S → List (TxMeta C S × Tx))
    (h : ∀ e, (queue node.1.sender).head? = some e → mp.waits cfg rest e.1 = true) :
    mp.served cfg (node :: rest) queue = mp.served cfg rest queue := by
  have htake : (queue node.1.sender).takeWhile (fun e => !mp.waits cfg rest e.1) = [] := by
    cases hq : queue node.1.sender with
    | nil => rfl
    | cons e => simp [h e (by rw [hq]; rfl)]
  have hdrop : (queue node.1.sender).dropWhile (fun e => !mp.waits cfg rest e.1) =
      queue node.1.sender := by
    cases hq : queue node.1.sender with
    | nil => rfl
    | cons e => simp [h e (by rw [hq]; rfl)]
  show _ ++ Draining.served _ _ rest _ = _
  rw [htake, hdrop, update_eq_self]
  rfl

variable {e : TxMeta C S × Tx}

theorem served_of_go (node : TxMeta C S × Tx) (rest : List (TxMeta C S × Tx))
    {queue : S → List (TxMeta C S × Tx)} {es : List (TxMeta C S × Tx)}
    (hq : queue node.1.sender = e :: es) (h : mp.waits cfg rest e.1 = false) :
    mp.served cfg (node :: rest) queue =
      e :: mp.served cfg (node :: rest) (update queue node.1.sender es) := by
  show (queue node.1.sender).takeWhile _ ++ Draining.served _ _ rest _ =
    e :: (_ ++ Draining.served _ _ rest _)
  rw [update_idem, update_self, hq]
  simp [h]

theorem drain_iteratePriority (nodes : List (TxMeta C S × Tx))
    (senderCursors : S → Option (List (TxMeta C S × Tx))) (fuel : Nat)
    (hfuel : (mp.served cfg nodes (mp.pending senderCursors)).length ≤ fuel) :
    drain cfg mp fuel (mp.iteratePriority cfg senderCursors nodes) =
      ((mp.served cfg nodes (mp.pending senderCursors)).map some, none) := by
  induction nodes generalizing senderCursors fuel with
  | nil => exact drain_none cfg mp fuel
  | cons node rest ih =>
    -- the sender of the node is served for as long as it goes on
    induction hq : mp.pending senderCursors node.1.sender generalizing senderCursors fuel with
    | nil => grind [nextCursor, iteratePriority, served_of_pass]
    | cons e es ihq =>
      by_cases hwait : mp.waits cfg rest e.1 = true
      · grind [nextCursor, iteratePriority, served_of_pass]
      · have hgo := served_of_go cfg mp node rest hq (by simpa using hwait)
        have hpending := mp.pending_update senderCursors node.1.sender (e :: es)
        have hnext : mp.nextCursor cfg senderCursors node rest = some (e :: es) := by
          simp [nextCursor, hq, hwait]
        rw [tail_cons] at hpending
        rw [hgo, ← hpending] at hfuel ⊢
        cases fuel with
        | zero => simp at hfuel
        | succ fuel =>
          have hrest := ihq (update senderCursors node.1.sender (some (e :: es)))
            fuel (by simpa using hfuel) (by rw [hpending, update_self])
          simp only [iteratePriority, hnext, drain, Iterator.next, Iterator.current,
            update_self] at hrest ⊢
          rw [hrest]
          rfl

end Iterator

/-! ## A consistent pool drains -/

section Drained

variable {cfg : PriorityNonceMempoolConfig Ctx Tx C S} {mp : PriorityNonceMempool C S Tx}

/-- The priority of an element of a sender index with the weight of its score. -/
def rank (mp : PriorityNonceMempool C S Tx) (e : TxMeta C S × Tx) : C ×ₗ C :=
  toLex (e.1.priority, ((mp.scores e.1.id).map Score.weight).getD default)

omit [LinearOrder S] in
theorem waits_eq_false (hmin : ∀ c, cfg.minValue ≤ c) (rest : List (TxMeta C S × Tx))
    (e : TxMeta C S × Tx) (h : ∀ m, rest.head? = some m → m.1.value ≤ mp.rank e) :
    mp.waits cfg rest e.1 = false := by
  unfold waits
  cases rest with
  | nil => simp [nextPriority, not_lt.mpr (hmin e.1.priority)]
  | cons m =>
    have hle := h m rfl
    rw [rank, TxMeta.value, Prod.Lex.toLex_le_toLex] at hle
    rcases hle with hp | ⟨hp, hw⟩
    · simp [nextPriority, not_lt.mpr (le_of_lt hp), ne_of_gt hp]
    · simp only at hp hw
      simp [nextPriority, hp, not_lt.mpr hw]

variable (h : mp.Consistent)
include h

theorem Consistent.node_of_mem (s : S) (e : TxMeta C S × Tx)
    (he : e ∈ (mp.senderIndices s).getD []) :
    ∃ n ∈ mp.priorityIndex, n.1.sender = s ∧ n.1.value = mp.rank e := by
  obtain ⟨hlist, hs, -⟩ := h.mem_senderIndex he
  obtain ⟨w, hw⟩ := (h.listed _ _ _ _).mpr hlist
  have hscore := (h.scored _).mp ⟨_, hw⟩
  refine ⟨_, hw, rfl, ?_⟩
  rw [rank, show e.1.id = (s, e.1.nonce) by rw [TxMeta.id, hs]]
  rw [show (⟨e.1.nonce, e.1.priority, s, w⟩ : TxMeta C S).id = (s, e.1.nonce) from rfl] at hscore
  rw [hscore]
  rfl

theorem Consistent.filter_served (hmin : ∀ c, cfg.minValue ≤ c) (s : S) :
    (mp.served cfg mp.priorityIndex (fun s => (mp.senderIndices s).getD [])).filter
      (fun e => e.1.sender = s) = (mp.senderIndices s).getD [] := by
  have hall := Draining.filter_served_append (fun n : TxMeta C S × Tx => n.1.sender)
    (fun rest e => mp.waits cfg rest e.1) (fun e : TxMeta C S × Tx => e.1.sender)
    mp.priorityIndex (fun s => (mp.senderIndices s).getD [])
    (fun s e he => (h.mem_senderIndex he).2.1) s
  have hnone := Draining.leftover_eq_nil (fun rest e => mp.waits cfg rest e.1)
    (Draining.reaches_of_nodes h.node_of_mem)
    (h.ordered.imp (fun hlt => value_le_of_lt hlt)) (waits_eq_false hmin) s
  rw [hnone, append_nil] at hall
  exact hall

omit h

theorem nodup_of_filter {X : Type} (owned : X → S) {l : List X}
    (h : ∀ s, (l.filter (fun x => owned x = s)).Nodup) : l.Nodup := by
  classical
  rw [nodup_iff_count_le_one]
  intro x
  have hx := nodup_iff_count_le_one.mp (h (owned x)) x
  rwa [count_filter (by simp)] at hx

theorem Consistent.mem_served (h : mp.Consistent) (hmin : ∀ c, cfg.minValue ≤ c)
    :
    e ∈ mp.served cfg mp.priorityIndex (fun s => (mp.senderIndices s).getD []) ↔
      e ∈ (mp.senderIndices e.1.sender).getD [] := by
  rw [← h.filter_served hmin e.1.sender]
  simp

section

variable (h : mp.Consistent)
include h

theorem Consistent.stored_nodup : (mp.priorityIndex.map stored).Nodup := by
  refine h.ordered.nodup.map_on ?_
  intro a ha b hb heq
  obtain ⟨hs, hn⟩ := stored_eq heq
  exact h.key_unique ha hb (Prod.ext hs hn)

theorem Consistent.mem_stored {s : S} {n : Nat} {t : Tx} :
    (s, n, t) ∈ mp.priorityIndex.map stored ↔ ∃ p, mp.Lists s n p t := by
  rw [mem_map]
  constructor
  · rintro ⟨e, he, heq⟩
    obtain ⟨⟨_, p, _, w⟩, _⟩ := e
    simp only [stored, Prod.mk.injEq] at heq
    obtain ⟨rfl, rfl, rfl⟩ := heq
    exact ⟨p, (h.listed _ _ _ _).mp ⟨w, he⟩⟩
  · rintro ⟨p, hlist⟩
    obtain ⟨_, hw⟩ := (h.listed _ _ _ _).mpr hlist
    exact ⟨_, hw, rfl⟩

theorem Consistent.served_perm (hmin : ∀ c, cfg.minValue ≤ c) :
    ((mp.served cfg mp.priorityIndex (fun s => (mp.senderIndices s).getD [])).map stored).Perm
      (mp.priorityIndex.map stored) := by
  have hsorted := h.senderIndex_sorted
  have hnodup : (mp.served cfg mp.priorityIndex
      (fun s => (mp.senderIndices s).getD [])).Nodup := by
    refine nodup_of_filter (fun e => e.1.sender) fun s => ?_
    rw [h.filter_served hmin s]
    exact (hsorted s).nodup
  refine (perm_ext_iff_of_nodup (hnodup.map_on ?_) h.stored_nodup).mpr ?_
  · intro a ha b hb heq
    obtain ⟨hs, hn⟩ := stored_eq heq
    rw [h.mem_served hmin] at ha hb
    rw [← hs] at hb
    exact (hsorted _).eq_of_eq ha hb (nonceOrder_eq_eq.mpr hn)
  · rintro ⟨s, n, t⟩
    rw [h.mem_stored, mem_map]
    constructor
    · rintro ⟨e, he, heq⟩
      rw [h.mem_served hmin] at he
      simp only [stored, Prod.mk.injEq] at heq
      obtain ⟨rfl, rfl, rfl⟩ := heq
      exact ⟨e.1.priority, (h.mem_senderIndex he).1⟩
    · rintro ⟨p, l, hl, hmem⟩
      refine ⟨(⟨n, p, s, default⟩, t), (h.mem_served hmin).mpr ?_, rfl⟩
      rw [hl]
      exact hmem

variable [SkipList.Operations]

theorem Consistent.reordered_perm :
    ((PriorityNonceMempool.reorderPriorityTies cfg mp).priorityIndex.map stored).Perm
      (mp.priorityIndex.map stored) := by
  obtain ⟨h', hsenders⟩ := h.reorderPriorityTies cfg
  refine (perm_ext_iff_of_nodup h'.stored_nodup h.stored_nodup).mpr ?_
  rintro ⟨s, n, t⟩
  rw [h'.mem_stored, h.mem_stored]
  simp only [Lists, hsenders]

theorem Consistent.drains (hmin : ∀ c, cfg.minValue ≤ c) : mp.Drains cfg := by
  intro fuel hfuel
  unfold PriorityNonceMempool.select
  by_cases hempty : mp.priorityIndex.length = 0
  · rw [if_pos hempty]
    refine ⟨[], drain_none cfg mp fuel, ?_, by simp⟩
    rw [eq_nil_of_length_eq_zero hempty]
  · rw [if_neg hempty]
    have h' := (h.reorderPriorityTies cfg).1
    have hperm := (h'.served_perm hmin).trans h.reordered_perm
    refine ⟨_, drain_iteratePriority cfg _ _ (fun _ => none) fuel ?_, hperm, fun s => ?_⟩
    · have hlen := hperm.length_eq
      rw [length_map, length_map] at hlen
      exact le_of_eq_of_le hlen hfuel
    · rw [pairwise_map]
      have hfilter := h'.filter_served hmin s
      have hsorted := h'.senderIndex_sorted s
      rw [← hfilter] at hsorted
      exact hsorted.imp nonceOrder_eq_lt.mp

end

end Drained

/-! ## Runs -/

/-- In every run in which a transaction that replaces a stored one keeps its priority, the
four maps describe one set of transactions and draining `Select` reads each of them once,
those of a sender by increasing nonce. -/
theorem run_drains [SkipList.Operations] (cfg : PriorityNonceMempoolConfig Ctx Tx C S)
    (hmin : ∀ c, cfg.minValue ≤ c) (requests : List (Request Ctx Tx))
    (hkeeps : Machine.Along (serve cfg) (KeepsPriority cfg) requests
      (new : PriorityNonceMempool C S Tx)) :
    (run (serve cfg) requests (new : PriorityNonceMempool C S Tx)).2.Consistent ∧
      (run (serve cfg) requests (new : PriorityNonceMempool C S Tx)).2.Drains cfg :=
  ⟨consistent_along_run cfg hkeeps, (consistent_along_run cfg hkeeps).drains hmin⟩

instance plainLists : SkipList.Operations := SkipList.plain

structure SignedTx where
  sender : Nat
  sequence : Nat
deriving DecidableEq, Repr

/-- The priority is the one of the context, any transaction may be replaced. -/
def plainConfig : PriorityNonceMempoolConfig Nat SignedTx Nat Nat where
  getTxPriority := fun priority _ => priority
  minValue := 0
  txReplacement := none
  maxTx := 0
  getSigners := fun tx => .ok [(tx.sender, tx.sequence)]
  getUnordered := fun _ => none

def tiedRun : List (Request Nat SignedTx) :=
  [.insert 5 ⟨1, 1⟩, .insert 5 ⟨2, 1⟩, .insert 9 ⟨2, 2⟩, .select, .insert 5 ⟨2, 1⟩,
    .insert 3 ⟨1, 2⟩, .select, .remove ⟨1, 2⟩]

theorem run_drains_tiedRun :
    Machine.Along (serve plainConfig) (KeepsPriority plainConfig) tiedRun new ∧
      (run (serve plainConfig) tiedRun new).2.Drains plainConfig := by
  have hkeeps : Machine.Along (serve plainConfig) (KeepsPriority plainConfig) tiedRun new := by
    decide
  exact ⟨hkeeps, (run_drains plainConfig (fun c => Nat.zero_le c) tiedRun hkeeps).2⟩

/-- A sender raises the priority of its transaction above the one of another sender. -/
def raisedRun : List (Request Nat SignedTx) :=
  [.insert 1 ⟨1, 1⟩, .insert 10 ⟨1, 1⟩, .insert 5 ⟨2, 1⟩]

/-- The raised transaction is never read. -/
theorem raisedRun_not_drains :
    ¬ (run (serve plainConfig) raisedRun new).2.Drains plainConfig := by
  intro h
  obtain ⟨_, hdrain, hperm, -⟩ := h 2 (by decide)
  have hlen := hperm.length_eq
  have hread : (drain plainConfig
      ((run (serve plainConfig) raisedRun new).2.select plainConfig).2 2
      ((run (serve plainConfig) raisedRun new).2.select plainConfig).1).1.length = 1 := by
    decide
  rw [hdrain] at hread
  simp only [length_map] at hlen hread
  rw [hread] at hlen
  exact absurd hlen (by decide)

end PriorityNonceMempool

end CosmosSDK.Mempool
