import CosmosSDK.Auth.Unordered.Manager
import CosmosSDK.Lib.Fallible
import CosmosSDK.Lib.Machine

/-!
# The decorator of unordered transactions

`UnorderedTxDecorator.ValidateTx` of `x/auth/ante/unordered.go`, and the node it runs in: the
blocks, the purge loop at any moment, restarts, and snapshots.  A snapshot belongs to the
height at which it was begun and is exported by a goroutine later.
-/

namespace CosmosSDK.Auth.Unordered

open Store

/-- `transaction.ExecMode`; `other` for the modes of proposals and vote extensions. -/
inductive ExecMode where
  | check
  | reCheck
  | simulate
  | other
  | finalize
deriving DecidableEq

inductive TxErr where
  | timeoutNotSet
  | timeoutPassed
  | ttlExceeds
  | outOfGas
  | noFee
  | signatures (err : String)
  | marshal
  | duplicated
deriving DecidableEq, Repr

/-- What the decorator reads of a transaction. -/
structure Tx where
  unordered : Bool
  timeoutTimestamp : Timestamp
  feeIsZero : Bool
  /-- `GetSignaturesV2` -/
  signatures : Except String (List SignatureData)
  /-- the encoded messages; `none` for one that does not marshal -/
  msgs : List (Option Bytes)
  gas : UInt64

structure Decorator where
  maxTimeoutDuration : Int
  sha256Cost : Nat
  /-- `sha256.Sum256` -/
  sum256 : Bytes → TxHash

mutual
def addSignatures : SignatureData → Except String Bytes
  | .single _ signature => .ok signature
  | .multi _ signatures => addAllSignatures signatures
  | .nil => .error "unexpected SignatureData <nil>"

def addAllSignatures : List SignatureData → Except String Bytes
  | [] => .ok []
  | sig :: sigs => do
      let bz ← addSignatures sig
      let rest ← addAllSignatures sigs
      .ok (bz ++ rest)
end

/-- `binary.Write` of a `uint64` in little-endian order. -/
def littleEndian (n : BitVec 64) : Bytes :=
  (BigEndian.bytes 8 n.toNat).reverse

def txIdentifier (d : Decorator) (timeout : BitVec 64) (tx : Tx) : Except TxErr TxHash :=
  if tx.feeIsZero then .error .noFee
  else
    match tx.signatures with
    | .error err => .error (.signatures err)
    | .ok signatures =>
      match addAllSignatures signatures with
      | .error err => .error (.signatures err)
      | .ok sigBytes =>
        match tx.msgs.mapM id with
        | none => .error .marshal
        | some msgs =>
          .ok (d.sum256 (sigBytes ++ msgs.flatten ++ littleEndian timeout ++
            littleEndian tx.gas.toBitVec))

/-- `ValidateTx` with the header time and the gas that is left (`none` for a meter without
limit). -/
def validateTx (d : Decorator) (mode : ExecMode) (headerTime : Time) (gasLeft : Option Nat)
    (m : Manager) (tx : Tx) : Except TxErr Manager :=
  let timeout := tx.timeoutTimestamp.time
  if tx.unordered = false then .ok m
  else if timeout = zeroTime ∨ unix timeout = 0 then .error .timeoutNotSet
  else if timeout < headerTime then .error .timeoutPassed
  else if timeout > headerTime + d.maxTimeoutDuration then .error .ttlExceeds
  else if gasLeft.any (fun left => decide (left < d.sha256Cost)) then .error .outOfGas
  else if mode = .simulate then .ok m
  else
    match txIdentifier d (BitVec.ofInt 64 (unix timeout)) tx with
    | .error err => .error err
    | .ok hash =>
      if m.contains hash then .error .duplicated
      else if mode = .finalize then .ok (m.add hash timeout)
      else .ok m

/-- The height a snapshot is taken of. -/
structure Commit where
  accepted : List Tx
  blockTime : Time

structure Snapshot where
  commit : Commit
  payload : Bytes

/-- A node: the chain up to its current block (the unordered transactions that were accepted
in finalize mode), the manager, and what is on disk. -/
structure Node where
  accepted : List Tx
  blockTime : Time
  manager : Manager
  file : Option Bytes
  exporting : Option Commit
  snapshots : List Snapshot

inductive Step where
  /-- the next block, with `OnNewBlock` in its `PreBlocker` -/
  | newBlock (elapsed : Nat)
  | deliverTx (gasLeft : Option Nat) (tx : Tx)
  /-- `ValidateTx` in another mode, with the header of the state it runs on -/
  | checkTx (mode : ExecMode) (not_finalize : mode ≠ .finalize) (headerTime : Time)
      (gasLeft : Option Nat) (tx : Tx)
  | receive
  | deadline
  | purge
  /-- `Close`, and then `NewManager`, `Start` and `OnInit` -/
  | restart
  /-- `Commit` starts a snapshot, unless one is in progress -/
  | beginSnapshot
  /-- the goroutine of the snapshot reaches `exportSnapshot` -/
  | exportSnapshot
  /-- a new node starts from a snapshot -/
  | restoreSnapshot (i : Nat)

namespace Node

def genesis : Node :=
  ⟨[], zeroTime, .new, none, none, []⟩

def restarted (n : Node) (file : Option Bytes) : Node :=
  match Manager.new.onInit file with
  | .error _ => n
  | .ok manager => { n with manager := manager, file := file, exporting := none }

def restored (n : Node) (s : Snapshot) : Node :=
  match Manager.new.onInit n.file >>= fun manager => manager.restore s.payload with
  | .error _ => n
  | .ok manager =>
    { n with
      accepted := s.commit.accepted
      blockTime := s.commit.blockTime
      manager := manager
      exporting := none }

def deliverTx (d : Decorator) (gasLeft : Option Nat) (tx : Tx) (n : Node) :
    Except TxErr Unit × Node :=
  match validateTx d .finalize n.blockTime gasLeft n.manager tx with
  | .error err => (.error err, n)
  | .ok manager =>
    (.ok (), { n with
      manager := manager
      accepted := if tx.unordered then n.accepted ++ [tx] else n.accepted })

def step (d : Decorator) : Step → Node → Except TxErr Unit × Node
  | .newBlock elapsed, n =>
    (.ok (), { n with
      blockTime := n.blockTime + elapsed
      manager := n.manager.onNewBlock (n.blockTime + elapsed) })
  | .deliverTx gasLeft tx, n => n.deliverTx d gasLeft tx
  | .checkTx mode _ headerTime gasLeft tx, n =>
    match validateTx d mode headerTime gasLeft n.manager tx with
    | .error err => (.error err, n)
    | .ok manager => (.ok (), { n with manager := manager })
  | .receive, n => (.ok (), { n with manager := n.manager.receive })
  | .deadline, n => (.ok (), { n with manager := n.manager.deadline })
  | .purge, n => (.ok (), { n with manager := n.manager.purge })
  | .restart, n => (.ok (), n.restarted (some n.manager.close))
  | .beginSnapshot, n =>
    (.ok (), { n with exporting := n.exporting <|> some ⟨n.accepted, n.blockTime⟩ })
  | .exportSnapshot, n =>
    match n.exporting with
    | none => (.ok (), n)
    | some commit =>
      (.ok (), { n with
        exporting := none
        snapshots := n.snapshots ++ [⟨commit, n.manager.exportBytes⟩] })
  | .restoreSnapshot i, n =>
    match n.snapshots[i]? with
    | none => (.ok (), n)
    | some s => (.ok (), n.restored s)

def reached (d : Decorator) (run : List Step) : Node :=
  (Machine.run (step d) run genesis).2

end Node

end CosmosSDK.Auth.Unordered
