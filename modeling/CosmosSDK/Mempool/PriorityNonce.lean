import CosmosSDK.Lib.SkipList
import CosmosSDK.Lib.Machine

/-!
# The priority nonce mempool

A pool of transactions ordered by priority and, for one sender, by nonce
(`types/mempool/priority_nonce.go`).  The priority index holds every transaction, the
sender indices hold the transactions of one sender each, `scores` remembers under which
priority and weight a transaction is in the priority index, and `priorityCounts` how many
transactions have a priority.

The element of the sender index that a key of the priority index points to is the one of
its nonce, so the pointer is not part of a key here.  The Go maps are functions: a missing
key of `priorityCounts` reads as zero, as in Go.
-/

namespace CosmosSDK.Mempool

open Std Function SkipList

structure TxMeta (C S : Type) where
  /-- the sender's sequence number -/
  nonce : Nat
  priority : C
  sender : S
  /-- breaks ties between transactions of the same priority -/
  weight : C
deriving DecidableEq, Repr

/-- What a transaction is found by. -/
def TxMeta.id {C S : Type} (k : TxMeta C S) : S × Nat := (k.sender, k.nonce)

structure Score (C : Type) where
  priority : C
  weight : C
deriving DecidableEq, Repr

inductive MempoolErr where
  | txMaxCapacity
  | signers (err : String)
  | noSigner
  | noSignatures
  | invalidTimestamp
  | replacementRule
  | txNotFound
  | senderNotFound
  /-- a nil element of a skip list is read -/
  | nilElement
deriving DecidableEq, Repr

structure PriorityNonceMempoolConfig (Ctx Tx C S : Type) where
  getTxPriority : Ctx → Tx → C
  minValue : C
  txReplacement : Option (C → C → Tx → Tx → Bool)
  maxTx : Int
  getSigners : Tx → Except String (List (S × Nat))
  /-- the timeout timestamp, for a transaction that is unordered -/
  getUnordered : Tx → Option Int

structure PriorityNonceMempool (C S Tx : Type) where
  priorityIndex : List (TxMeta C S × Tx)
  priorityCounts : C → Int
  senderIndices : S → Option (List (TxMeta C S × Tx))
  scores : S × Nat → Option (Score C)

variable {Ctx Tx C S : Type} [LinearOrder C] [Inhabited C] [LinearOrder S]
  [Operations]

/-- Highest priority first, then highest weight, sender and nonce. -/
def priorityOrder (a b : TxMeta C S) : Ordering :=
  compareLex (compareOn TxMeta.priority) (compareLex (compareOn TxMeta.weight)
    (compareLex (compareOn TxMeta.sender) (compareOn TxMeta.nonce))) b a

def nonceOrder (a b : TxMeta C S) : Ordering := compareOn TxMeta.nonce a b

namespace PriorityNonceMempool

/-- `NewPriorityMempool`. -/
def new : PriorityNonceMempool C S Tx where
  priorityIndex := []
  priorityCounts := fun _ => 0
  senderIndices := fun _ => none
  scores := fun _ => none

variable (cfg : PriorityNonceMempoolConfig Ctx Tx C S) (mp : PriorityNonceMempool C S Tx)

/-- The sender and the nonce of a transaction: those of its first signature, with the
timeout timestamp in place of the nonce for an unordered transaction. -/
def identify (unsigned : MempoolErr) (tx : Tx) : Except MempoolErr (S × Nat) :=
  match cfg.getSigners tx with
  | .error err => .error (.signers err)
  | .ok [] => .error unsigned
  | .ok ((sender, sequence) :: _) =>
    match cfg.getUnordered tx with
    | none => .ok (sender, sequence)
    | some timestamp =>
      if timestamp < 0 then .error .invalidTimestamp else .ok (sender, timestamp.toNat)

/-- A key leaves the priority index and is no longer counted. -/
def unindex (k : TxMeta C S) : PriorityNonceMempool C S Tx :=
  { mp with
    priorityIndex := remove priorityOrder k mp.priorityIndex
    priorityCounts :=
      update mp.priorityCounts k.priority (mp.priorityCounts k.priority - 1) }

/-- The end of `Insert`: the key is counted and enters both indices. -/
def store (senderIndex : List (TxMeta C S × Tx))
    (key : TxMeta C S) (tx : Tx) : PriorityNonceMempool C S Tx :=
  { priorityCounts :=
      update mp.priorityCounts key.priority (mp.priorityCounts key.priority + 1)
    senderIndices :=
      update mp.senderIndices key.sender
        (some (set nonceOrder key tx senderIndex))
    scores := update mp.scores key.id (some ⟨key.priority, default⟩)
    priorityIndex := set priorityOrder key tx mp.priorityIndex }

/-- Whether the replacement rule lets `tx` take the place of the stored transaction. -/
def replaces (oldPriority priority : C)
    (stored : Option (TxMeta C S × Tx)) (tx : Tx) : Except MempoolErr Bool :=
  match cfg.txReplacement with
  | none => .ok true
  | some rule =>
    match stored with
    | none => .error .nilElement
    | some e => .ok (rule oldPriority priority e.2 tx)

def insert (cfg : PriorityNonceMempoolConfig Ctx Tx C S) (ctx : Ctx) (tx : Tx)
    (mp : PriorityNonceMempool C S Tx) : Except MempoolErr Unit × PriorityNonceMempool C S Tx :=
  if cfg.maxTx > 0 ∧ (mp.priorityIndex.length : Int) ≥ cfg.maxTx then (.error .txMaxCapacity, mp)
  else if cfg.maxTx < 0 then (.ok (), mp)
  else
    match identify cfg .noSigner tx with
    | .error err => (.error err, mp)
    | .ok (sender, nonce) =>
      let key : TxMeta C S := ⟨nonce, cfg.getTxPriority ctx tx, sender, default⟩
      let senderIndex := (mp.senderIndices sender).getD []
      match mp.scores (sender, nonce) with
      | none => (.ok (), mp.store senderIndex key tx)
      | some oldScore =>
        match replaces cfg oldScore.priority key.priority
            (get nonceOrder key senderIndex) tx with
        | .error err => (.error err, mp)
        | .ok false => (.error .replacementRule, mp)
        | .ok true =>
          (.ok (), (mp.unindex ⟨nonce, oldScore.priority, sender, oldScore.weight⟩).store
            senderIndex key tx)

def remove (cfg : PriorityNonceMempoolConfig Ctx Tx C S) (tx : Tx)
    (mp : PriorityNonceMempool C S Tx) : Except MempoolErr Unit × PriorityNonceMempool C S Tx :=
  match identify cfg .noSignatures tx with
  | .error err => (.error err, mp)
  | .ok (sender, nonce) =>
    match mp.scores (sender, nonce) with
    | none => (.error .txNotFound, mp)
    | some score =>
      let tk : TxMeta C S := ⟨nonce, score.priority, sender, score.weight⟩
      match mp.senderIndices sender with
      | none => (.error .senderNotFound, mp)
      | some senderTxs =>
        (.ok (), { mp.unindex tk with
          senderIndices := update mp.senderIndices sender
            (some (SkipList.remove nonceOrder tk senderTxs))
          scores := update mp.scores (sender, nonce) none })

/-! ## Select -/

/-- The elements of a sender from the one with this key's nonce on. -/
def senderElement (k : TxMeta C S) : List (TxMeta C S × Tx) :=
  ((mp.senderIndices k.sender).getD []).dropWhile (fun e => e.1.nonce ≠ k.nonce)

def senderWeight : List (TxMeta C S × Tx) → C
  | [] => cfg.minValue
  | e :: rest =>
    rest.foldl (fun weight e => if e.1.priority ≠ weight then e.1.priority else weight)
      e.1.priority

structure ReorderKey (C S Tx : Type) where
  deleteKey : TxMeta C S
  insertKey : TxMeta C S
  tx : Tx

/-- The keys whose priority other transactions have too, with their new weights. -/
def reordering : List (ReorderKey C S Tx) :=
  mp.priorityIndex.filterMap fun e =>
    if mp.priorityCounts e.1.priority > 1 then
      some ⟨e.1, { e.1 with weight := senderWeight cfg (mp.senderElement e.1) }, e.2⟩
    else none

def reorder (k : ReorderKey C S Tx) : PriorityNonceMempool C S Tx :=
  { mp with
    priorityIndex := SkipList.set priorityOrder k.insertKey k.tx
      (SkipList.remove priorityOrder k.deleteKey mp.priorityIndex)
    scores := update (update mp.scores k.deleteKey.id none) k.insertKey.id
      (some ⟨k.insertKey.priority, k.insertKey.weight⟩) }

def reorderPriorityTies : PriorityNonceMempool C S Tx :=
  (reordering cfg mp).foldl reorder mp

/-- `PriorityNonceIterator`.  The cursors and the node are the elements of their lists from
the current one on; `none` is a sender without a cursor. -/
structure Iterator (C S Tx : Type) where
  priorityNode : TxMeta C S × Tx
  nextNodes : List (TxMeta C S × Tx)
  senderCursors : S → Option (List (TxMeta C S × Tx))

def nextPriority (nextNodes : List (TxMeta C S × Tx)) : C :=
  match nextNodes with
  | [] => cfg.minValue
  | next :: _ => next.1.priority

/-- The elements of a sender that are still to come. -/
def pending (senderCursors : S → Option (List (TxMeta C S × Tx))) (sender : S) :
    List (TxMeta C S × Tx) :=
  match senderCursors sender with
  | none => (mp.senderIndices sender).getD []
  | some cursor => cursor.tail

/-- Whether the sender's next transaction waits for the next node. -/
def waits (nextNodes : List (TxMeta C S × Tx)) (key : TxMeta C S) : Bool :=
  if key.priority < nextPriority cfg nextNodes then true
  else
    match nextNodes with
    | [] => false
    | next :: _ =>
      -- the weight is in the keys of the priority index only
      if key.priority = next.1.priority then
        decide (((mp.scores key.id).map Score.weight).getD default < next.1.weight)
      else false

/-- `Next` up to the call of `iteratePriority`: the cursor of the node's sender, moved on. -/
def nextCursor (senderCursors : S → Option (List (TxMeta C S × Tx))) (node : TxMeta C S × Tx)
    (nextNodes : List (TxMeta C S × Tx)) : Option (List (TxMeta C S × Tx)) :=
  match mp.pending senderCursors node.1.sender with
  | [] => none
  | e :: rest => if mp.waits cfg nextNodes e.1 then none else some (e :: rest)

/-- `iteratePriority`, given the nodes after the current one. -/
def iteratePriority (cfg : PriorityNonceMempoolConfig Ctx Tx C S)
    (mp : PriorityNonceMempool C S Tx) (senderCursors : S → Option (List (TxMeta C S × Tx))) :
    List (TxMeta C S × Tx) → Option (Iterator C S Tx)
  | [] => none
  | node :: nextNodes =>
    match mp.nextCursor cfg senderCursors node nextNodes with
    | some cursor =>
      some ⟨node, nextNodes, update senderCursors node.1.sender (some cursor)⟩
    | none => mp.iteratePriority cfg senderCursors nextNodes

def Iterator.next (it : Iterator C S Tx) : Option (Iterator C S Tx) :=
  mp.iteratePriority cfg it.senderCursors (it.priorityNode :: it.nextNodes)

/-- The element `Tx` reads the transaction of. -/
def Iterator.current (it : Iterator C S Tx) : Option (TxMeta C S × Tx) :=
  (it.senderCursors it.priorityNode.1.sender).bind List.head?

/-- `Select`: the ties are broken anew, then the first transaction is looked for. -/
def select : Option (Iterator C S Tx) × PriorityNonceMempool C S Tx :=
  if mp.priorityIndex.length = 0 then (none, mp)
  else
    let mp := reorderPriorityTies cfg mp
    (mp.iteratePriority cfg (fun _ => none) mp.priorityIndex, mp)

/-- Read at most `fuel` elements off an iterator; the iterator that is left is returned. -/
def drain (cfg : PriorityNonceMempoolConfig Ctx Tx C S) (mp : PriorityNonceMempool C S Tx) :
    Nat → Option (Iterator C S Tx) → List (Option (TxMeta C S × Tx)) × Option (Iterator C S Tx)
  | 0, it => ([], it)
  | _ + 1, none => ([], none)
  | fuel + 1, some it =>
    let (es, left) := drain cfg mp fuel (it.next cfg mp)
    (it.current :: es, left)

/-! ## Runs -/

inductive Request (Ctx Tx : Type) where
  | insert (ctx : Ctx) (tx : Tx)
  | remove (tx : Tx)
  | select

def serve (cfg : PriorityNonceMempoolConfig Ctx Tx C S) :
    Request Ctx Tx → PriorityNonceMempool C S Tx →
      Except MempoolErr Unit × PriorityNonceMempool C S Tx
  | .insert ctx tx, mp => mp.insert cfg ctx tx
  | .remove tx, mp => mp.remove cfg tx
  | .select, mp => (.ok (), (mp.select cfg).2)

end PriorityNonceMempool

end CosmosSDK.Mempool
