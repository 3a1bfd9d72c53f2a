import CosmosSDK.STF.Branch.Runs

/-!
# Execution contexts

The state transition function runs handlers in an `executionContext`: a branch of
the state, a gas meter, the events emitted and the header.  A state is identified
with the content it stands for: opening a branch copies that content and applying
its changes installs the branch's content, as `branches_refine_direct` shows for
`branch.WriterMap`.
-/

namespace CosmosSDK.STF

open Store

/-- The content of a `store.WriterMap`. -/
abbrev State := Dest

/-! ## Results of handlers -/

inductive TxError where
  /-- `gas.ErrOutOfGas` -/
  | outOfGas
  | failure (text : String)
  /-- `errors.Join` -/
  | joined (first second : TxError)
deriving DecidableEq

/-- How a Go call ends. -/
inductive Outcome (α : Type) where
  | ok (a : α)
  | err (e : TxError)
  | panic (text : String)

namespace Outcome

variable {α : Type}

def isPanic : Outcome α → Bool
  | panic _ => true
  | _ => false

end Outcome

/-! ## Gas meters -/

/-- `gas.NoGasLimit`. -/
def noGasLimit : UInt64 := 18446744073709551615

/-- `NoOpMeter` or `Meter`. -/
inductive Meter where
  | noOp
  | limited (limit consumed : UInt64)
deriving DecidableEq

namespace Meter

def limit : Meter → UInt64
  | noOp => noGasLimit
  | limited l _ => l

def remaining : Meter → UInt64
  | noOp => noGasLimit
  | limited l c => l - c

/-- `Consume`; a request above what remains is refused and not charged. -/
def consume (m : Meter) (requested : UInt64) : Option TxError × Meter :=
  match m with
  | noOp => (none, noOp)
  | limited l c =>
    if requested > l - c then (some .outOfGas, limited l c)
    else (none, limited l (c + requested))

def used (m : Meter) : UInt64 := m.limit - m.remaining

end Meter

def defaultGasMeter (gasLimit : UInt64) : Meter :=
  if gasLimit = noGasLimit then .noOp else .limited gasLimit 0

/-! ## Events and contexts -/

inductive BlockStage where
  | unset
  | txProcessing
deriving DecidableEq

structure Event where
  blockNumber : Int
  blockStage : BlockStage
  txIndex : Int
  msgIndex : Int
  eventIndex : Int
  type : String
  attributes : List (String × String)
deriving DecidableEq

/-- The height of `header.Info`; the other fields are only handed to handlers. -/
structure HeaderInfo where
  height : Int

inductive ExecMode where
  | check
  | finalize
  | simulate

/-- `executionContext`. -/
structure Ctx where
  unmeteredState : State
  meter : Meter
  events : List Event
  sender : Option Bytes
  headerInfo : HeaderInfo
  execMode : ExecMode

namespace Ctx

/-- `makeContext`: no gas limit, no events, an empty header. -/
def make (sender : Option Bytes) (state : State) (execMode : ExecMode) : Ctx :=
  { unmeteredState := state, meter := defaultGasMeter noGasLimit, events := []
    sender := sender, headerInfo := ⟨0⟩, execMode := execMode }

def setHeaderInfo (c : Ctx) (hi : HeaderInfo) : Ctx := { c with headerInfo := hi }

def setGasLimit (c : Ctx) (limit : UInt64) : Ctx := { c with meter := defaultGasMeter limit }

end Ctx

abbrev Handler (α : Type) := Ctx → Outcome α × Ctx

end CosmosSDK.STF
