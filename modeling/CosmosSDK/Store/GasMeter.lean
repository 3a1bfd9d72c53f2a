import CosmosSDK.Store.MemIterator

/-!
# Gas meters of the multi-store

`basicGasMeter` and `infiniteGasMeter` of `store/types/gas.go`.  Consuming past
the limit is recorded before it panics; on an overflow a limited meter saturates
and an infinite one restarts from zero.
-/

namespace CosmosSDK.Store

inductive PanicValue where
  /-- `ErrorOutOfGas` -/
  | outOfGas (descriptor : String)
  /-- `ErrorGasOverflow` -/
  | gasOverflow (descriptor : String)
  /-- `ErrorNegativeGasConsumed` -/
  | negativeGasConsumed (descriptor : String)
  | value (text : String)
deriving DecidableEq

def maxUint64 : UInt64 := 18446744073709551615

/-- `addUint64Overflow`: no sum on overflow. -/
def addUint64Overflow (a b : UInt64) : Option UInt64 :=
  if maxUint64 - a < b then none else some (a + b)

inductive GasMeter where
  | basic (limit consumed : UInt64)
  | infinite (consumed : UInt64)
deriving DecidableEq

namespace GasMeter

def gasConsumed : GasMeter → UInt64
  | basic _ consumed => consumed
  | infinite consumed => consumed

def limit : GasMeter → UInt64
  | basic limit _ => limit
  | infinite _ => maxUint64

def isPastLimit : GasMeter → Bool
  | basic limit consumed => consumed > limit
  | infinite _ => false

def isOutOfGas : GasMeter → Bool
  | basic limit consumed => consumed ≥ limit
  | infinite _ => false

def gasConsumedToLimit (g : GasMeter) : UInt64 :=
  if g.isPastLimit then g.limit else g.gasConsumed

/-- What a meter records of a sum, or of an overflow. -/
def record (descriptor : String) : GasMeter → Option UInt64 → Option PanicValue × GasMeter
  | basic limit _, none => (some (.gasOverflow descriptor), basic limit maxUint64)
  | basic limit _, some sum =>
    (if sum > limit then some (.outOfGas descriptor) else none, basic limit sum)
  | infinite _, none => (some (.gasOverflow descriptor), infinite 0)
  | infinite _, some sum => (none, infinite sum)

def consumeGas (g : GasMeter) (amount : UInt64) (descriptor : String) :
    Option PanicValue × GasMeter :=
  g.record descriptor (addUint64Overflow g.gasConsumed amount)

def refundGas (g : GasMeter) (amount : UInt64) (descriptor : String) :
    Option PanicValue × GasMeter :=
  if g.gasConsumed < amount then (some (.negativeGasConsumed descriptor), g)
  else match g with
    | basic limit consumed => (none, basic limit (consumed - amount))
    | infinite consumed => (none, infinite (consumed - amount))

end GasMeter

end CosmosSDK.Store
