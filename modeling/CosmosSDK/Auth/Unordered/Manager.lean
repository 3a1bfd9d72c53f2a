import CosmosSDK.Auth.Tx
import CosmosSDK.Lib.BigEndian

/-!
# The manager of unordered transactions

`x/auth/ante/unorderedtx`: the hashes of the unordered transactions seen so far with the time
until which each is kept, the background loop that purges them, the file they are written to
when the node stops, and the snapshot extension.
-/

namespace CosmosSDK.Auth.Unordered

open Store OrderedKV

/-- `time.Time`, as nanoseconds from the Unix epoch. -/
abbrev Time := Int

/-- `time.Second`. -/
def second : Int := 1000000000

/-- The zero `time.Time`, the first of January of year 1. -/
def zeroTime : Time := -62135596800000000000

/-- The end of year 9999. -/
def endTime : Time := 253402300800000000000

/-- `Time.Unix`: the seconds, rounded down. -/
def unix (t : Time) : Int := t / second

/-- `time.Unix(sec, 0)`. -/
def ofUnix (sec : Int) : Time := sec * second

/-- A time that a protobuf timestamp can have. -/
structure Timestamp where
  time : Time
  zero_le : zeroTime ≤ time
  lt_end : time < endTime
deriving DecidableEq

def txHashSize : Nat := 32
def timeoutSize : Nat := 8
def chunkSize : Nat := txHashSize + timeoutSize

/-- `TxHash`: 32 bytes. -/
structure TxHash where
  bytes : Bytes
  length_eq : bytes.length = txHashSize
deriving DecidableEq

instance : Ord TxHash := ⟨fun a b => compare a.bytes b.bytes⟩

theorem compare_txHash (a b : TxHash) : compare a b = compare a.bytes b.bytes := rfl

instance : Std.TransOrd TxHash where
  eq_swap := by
    intro a b
    rw [compare_txHash, compare_txHash]
    exact Std.OrientedCmp.eq_swap
  isLE_trans := by
    intro a b c
    rw [compare_txHash, compare_txHash, compare_txHash]
    exact Std.TransCmp.isLE_trans

instance : Std.LawfulEqOrd TxHash where
  compare_self := by
    intro a
    rw [compare_txHash]
    exact Std.ReflCmp.compare_self
  eq_of_compare := by
    intro a b h
    rw [compare_txHash] at h
    have hbytes : a.bytes = b.bytes := Std.LawfulEqCmp.eq_of_compare h
    cases a
    cases b
    simpa using hbytes

/-- Where the purge loop stands: it collects block times until a deadline, or has found
hashes that it will delete. -/
inductive PurgeLoop where
  | receiving (latestTime : Time)
  | expired (hashes : List TxHash)

structure Manager where
  txHashes : OrdMap TxHash Time
  /-- the block times that the purge loop has not received yet -/
  blockCh : List Time
  loop : PurgeLoop

namespace Manager

/-- `NewManager` and `Start`. -/
def new : Manager :=
  ⟨∅, [], .receiving zeroTime⟩

variable (m : Manager)

def contains (hash : TxHash) : Bool :=
  m.txHashes[hash]?.isSome

def add (hash : TxHash) (timestamp : Time) : Manager :=
  { m with txHashes := m.txHashes.insert hash timestamp }

def addAll (l : List (TxHash × Time)) : Manager :=
  { m with txHashes := insertAll m.txHashes l }

def onNewBlock (blockTime : Time) : Manager :=
  { m with blockCh := m.blockCh ++ [blockTime] }

/-- `batchReceive` takes the next block time. -/
def receive : Manager :=
  match m.loop, m.blockCh with
  | .receiving latestTime, blockTime :: rest =>
    { m with
      loop := .receiving (if blockTime > latestTime then blockTime else latestTime)
      blockCh := rest }
  | _, _ => m

def expiredTxs (blockTime : Time) : List TxHash :=
  (m.txHashes.toList.filter (fun e => decide (blockTime > e.2))).map (·.1)

/-- The deadline of `batchReceive` passes: the loop looks for expired hashes. -/
def deadline : Manager :=
  match m.loop with
  | .receiving latestTime => { m with loop := .expired (m.expiredTxs latestTime) }
  | .expired _ => m

/-- `purge`, and the loop starts again with the zero time. -/
def purge : Manager :=
  match m.loop with
  | .receiving _ => m
  | .expired hashes =>
    { m with
      txHashes := hashes.foldl (fun txHashes hash => txHashes.erase hash) m.txHashes
      loop := .receiving zeroTime }

/-- `unorderedTxToBytes`, with the seconds as `uint64`. -/
def unorderedTxToBytes (hash : TxHash) (ttl : BitVec 64) : Bytes :=
  hash.bytes ++ BigEndian.bytes timeoutSize ttl.toNat

/-- What is written to the file and to a snapshot: every hash with its seconds. -/
def exportBytes : Bytes :=
  m.txHashes.toList.flatMap
    (fun e => unorderedTxToBytes e.1 (BitVec.ofInt 64 (unix e.2)))

/-- `Close`: the loop ends, after a purge that it has begun, and the hashes are written. -/
def close : Bytes :=
  m.purge.exportBytes

/-- The chunks of a file or of a snapshot.  The first argument is the number of bytes. -/
def readChunks : Nat → Bytes → Except String (List (TxHash × BitVec 64))
  | _, [] => .ok []
  | 0, _ => .error "unexpected EOF"
  | n + 1, payload =>
    if h : chunkSize ≤ payload.length then
      match readChunks n (payload.drop chunkSize) with
      | .error err => .error err
      | .ok chunks =>
        .ok ((⟨payload.take txHashSize, by
            rw [List.length_take]
            simp only [chunkSize, txHashSize, timeoutSize] at h ⊢
            omega⟩,
          BitVec.ofNat 64 (BigEndian.value ((payload.drop txHashSize).take timeoutSize))) ::
            chunks)
    else .error "unexpected EOF"

/-- `OnInit`: a missing file is an empty one. -/
def onInit (file : Option Bytes) : Except String Manager :=
  match file with
  | none => .ok m
  | some bytes =>
    match readChunks bytes.length bytes with
    | .error err => .error err
    | .ok chunks => .ok (m.addAll (chunks.map (fun c => (c.1, ofUnix c.2.toInt))))

/-- `Snapshotter.restore`: a chunk with the timestamp 0 is skipped. -/
def restore (payload : Bytes) : Except String Manager :=
  match readChunks payload.length payload with
  | .error err => .error err
  | .ok chunks =>
    .ok (m.addAll ((chunks.filter (fun c => decide (c.2 ≠ 0))).map
      (fun c => (c.1, ofUnix c.2.toInt))))

end Manager

end CosmosSDK.Auth.Unordered
