import CosmosSDK.Bank.Keeper
import CosmosSDK.Math.LegacyDec

/-!
# The protocol pool keeper

`x/protocolpool/keeper/keeper.go`.  The income of the pool arrives on a distribution account.
Each block records what has arrived; the recorded amounts are shared between the continuous
funds when somebody asks for them, and wait on the stream account to be claimed.  Times are
nanoseconds since the epoch.
-/

namespace CosmosSDK.ProtocolPool

open Bank CosmosSDK.Types Math Auth OrderedKV Std Coins LegacyDec

def moduleName : String := "protocolpool"

def streamAccount : String := "stream_acc"

def protocolPoolDistrAccount : String := "protocolpool_distr"

inductive PoolErr where
  | bank (e : BankErr)
  /-- `ErrNoRecipientFound` -/
  | noRecipientFound
  /-- `ErrInvalidSigner` -/
  | invalidSigner (expected got : String)
  /-- `ErrInvalidAddress` -/
  | invalidAddress (text : String)
  /-- `ErrInvalidCoins` -/
  | invalidCoins (amount : Coins)
  /-- `collections.ErrNotFound` -/
  | notFound
  | new (text : String)
  | wrapped (text : String) (e : PoolErr)

/-- `errors.Is` with `ErrNoRecipientFound`. -/
def PoolErr.isNoRecipientFound : PoolErr → Bool
  | noRecipientFound => true
  | wrapped _ e => e.isNoRecipientFound
  | _ => false

abbrev PoolResult := Result PoolErr

structure ContinuousFund where
  recipient : String
  percentage : LegacyDec
  expiry : Option Int

structure Budget where
  recipientAddress : String
  claimedAmount : Option Coin
  lastClaimedAt : Option Int
  tranchesLeft : UInt64
  budgetPerTranche : Option Coin
  period : Option Int64

structure Params where
  enabledDistributionDenoms : List Denom

structure State (A : Type) where
  bank : Ledger A
  time : Int
  height : Int
  budgetProposal : OrdMap AccAddress Budget
  continuousFund : OrdMap AccAddress ContinuousFund
  /-- what a recipient can claim -/
  recipientFundDistribution : OrdMap AccAddress Coins
  distributions : OrdMap Int Coins
  lastBalance : Option Coins
  params : Option Params

/-- The collaborators: the bank, whose accounts and address codec are those of the account
keeper, and the address that may change the pool. -/
structure Keeper (A : Type) where
  bankKeeper : BankKeeper A
  authority : String

/-- `Expiry != nil && Expiry.Before(t)`. -/
def ContinuousFund.isExpired (t : Int) (f : ContinuousFund) : Bool := f.expiry.any (fun expiry => expiry < t)

def deref {α : Type} : Option α → PoolResult α
  | some a => .ok a
  | none => .error (.panic "invalid memory address or nil pointer dereference")

namespace Keeper

variable {A : Type} (k : Keeper A)

def stringToBytes (text : String) : PoolResult AccAddress :=
  mapFault PoolErr.bank (k.bankKeeper.stringToBytes text)

/-! ## The community pool -/

def sendFromModuleToModule (s : State A) (senderModule recipientModule : String) (amount : Coins) :
    PoolResult (State A) := do
  let bank ← mapFault PoolErr.bank
    (k.bankKeeper.sendCoinsFromModuleToModule s.bank senderModule recipientModule amount)
  .ok { s with bank := bank }

def sendFromModuleToAccount (s : State A) (senderModule : String) (recipient : AccAddress)
    (amount : Coins) : PoolResult (State A) := do
  let bank ← mapFault PoolErr.bank
    (k.bankKeeper.sendCoinsFromModuleToAccount s.bank senderModule recipient amount)
  .ok { s with bank := bank }

def sendFromAccountToModule (s : State A) (sender : AccAddress) (recipientModule : String)
    (amount : Coins) : PoolResult (State A) := do
  let bank ← mapFault PoolErr.bank
    (k.bankKeeper.sendCoinsFromAccountToModule s.bank sender recipientModule amount)
  .ok { s with bank := bank }

def fundCommunityPool (amount : Coins) (sender : AccAddress) (s : State A) : PoolResult (State A) :=
  k.sendFromAccountToModule s sender moduleName amount

def distributeFromCommunityPool (amount : Coins) (receiveAddr : AccAddress) (s : State A) :
    PoolResult (State A) :=
  k.sendFromModuleToAccount s moduleName receiveAddr amount

def distributeFromStreamFunds (amount : Coins) (receiveAddr : AccAddress) (s : State A) :
    PoolResult (State A) :=
  k.sendFromModuleToAccount s streamAccount receiveAddr amount

/-! ## Continuous funds -/

def withdrawRecipientFunds (recipient : AccAddress) (s : State A) : PoolResult (Coins × State A) :=
  match s.recipientFundDistribution[recipient]? with
  | none => .error (.error .noRecipientFound)
  | some fundsAllocated => do
      let s ← mapFault (.wrapped "error while distributing funds")
        (k.distributeFromStreamFunds fundsAllocated recipient s)
      .ok (fundsAllocated,
        { s with recipientFundDistribution := s.recipientFundDistribution.insert recipient [] })

/-- The loop of `SetToDistribute` over the denominations that are distributed. -/
def whitelistedBalance (b : Ledger A) (addr : AccAddress) : List Denom → Coins → PoolResult Coins
  | [], currentBalance => .ok currentBalance
  | denom :: denoms, currentBalance => do
      let bal ← mapFault PoolErr.bank (k.bankKeeper.getBalance b addr denom)
      let currentBalance ← add currentBalance [bal]
      whitelistedBalance b addr denoms currentBalance

/-- The end of `SetToDistribute`: without continuous funds the amount goes to the community
pool. -/
def recordDistribution (currentBalance amountToDistribute : Coins) (s : State A) :
    PoolResult (State A) :=
  if s.continuousFund.isEmpty then do
    let s ← k.sendFromModuleToModule s protocolPoolDistrAccount moduleName amountToDistribute
    if isZero (s.lastBalance.getD []) then .ok s else .ok { s with lastBalance := some [] }
  else .ok { s with
    distributions := s.distributions.insert s.time amountToDistribute
    lastBalance := some currentBalance }

/-- `SetToDistribute` behind the reading of the balance. -/
def distributeDifference (currentBalance : Coins) (s : State A) : PoolResult (State A) :=
  if isZero currentBalance then .ok s
  else do
    let diff ← safeSub k.bankKeeper.validateDenom currentBalance (s.lastBalance.getD [])
    if diff.2 then .error (.error (.new
      "error while calculating the amount to distribute, result can't be negative"))
    else k.recordDistribution currentBalance diff.1 s

def setToDistribute (s : State A) : PoolResult (State A) := do
  let acc ← mapFault PoolErr.bank (k.bankKeeper.moduleAccount s.bank protocolPoolDistrAccount)
  match s.params with
  | none => .error (.error .notFound)
  | some params => do
      let currentBalance ← k.whitelistedBalance acc.2 acc.1.address params.enabledDistributionDenoms []
      k.distributeDifference currentBalance { s with bank := acc.2 }

/-- The share of a fund in one denomination of an amount, added to what its recipient gets and
to the amounts of all recipients. -/
def shareDenom (f : ContinuousFund) (amount : Coins) (shares : Coins × Coins) (denom : Denom) :
    PoolResult (Coins × Coins) := do
  let whole ← amountOf k.bankKeeper.validateDenom amount denom
  let share ← f.percentage.mulInt whole
  let share ← share.truncateInt
  let am ← Coin.new k.bankKeeper.validateDenom denom share
  let toRecipient ← add shares.1 [am]
  let effective ← add shares.2 [am]
  .ok (toRecipient, effective)

/-- The accumulators of `IterateAndUpdateFundsDistribution`. -/
structure Shares where
  totalPercentageApplied : LegacyDec
  distributeToRecipient : OrdMap String Coins
  effectiveDistributionAmounts : Coins
  totalDistributionAmounts : Coins

def shareFund (key : Int) (amount : Coins) (shares : Shares) (f : ContinuousFund) :
    PoolResult Shares :=
  if f.isExpired key then .ok shares
  else do
    let applied ← shares.totalPercentageApplied.add f.percentage
    let sums ← (amount.map Coin.denom).foldlM (k.shareDenom f amount)
      ((shares.distributeToRecipient[f.recipient]?).getD [], shares.effectiveDistributionAmounts)
    .ok { shares with
      totalPercentageApplied := applied
      distributeToRecipient := shares.distributeToRecipient.insert f.recipient sums.1
      effectiveDistributionAmounts := sums.2 }

def shareDistribution (funds : List ContinuousFund) (shares : Shares) (distribution : Int × Coins) :
    PoolResult Shares := do
  let total ← add shares.totalDistributionAmounts distribution.2
  let shares ← funds.foldlM (k.shareFund distribution.1 distribution.2)
    { shares with totalPercentageApplied := zero, totalDistributionAmounts := total }
  if shares.totalPercentageApplied.gt one then
    .error (.error (.new "total funds percentage cannot exceed 100"))
  else .ok shares

def sendDistributed (recipientModule : String) (amount : Coins) (s : State A) :
    PoolResult (State A) :=
  if isZero amount then .ok s
  else k.sendFromModuleToModule s protocolPoolDistrAccount recipientModule amount

def addToClaim (s : State A) (e : String × Coins) : PoolResult (State A) := do
  let bzAddr ← k.stringToBytes e.1
  let toClaim ← add ((s.recipientFundDistribution[bzAddr]?).getD []) e.2
  .ok { s with recipientFundDistribution := s.recipientFundDistribution.insert bzAddr toClaim }

def expiredFunds (t : Int) (funds : OrdMap AccAddress ContinuousFund) :
    List (AccAddress × ContinuousFund) :=
  funds.toList.filter (fun e => e.2.isExpired t)

def iterateAndUpdateFundsDistribution (s : State A) : PoolResult (State A) := do
  let shares ← s.distributions.toList.foldlM
    (k.shareDistribution (s.continuousFund.toList.map Prod.snd)) ⟨zero, ∅, [], []⟩
  let s ← k.sendDistributed streamAccount shares.effectiveDistributionAmounts
    { s with distributions := ∅, lastBalance := some [] }
  let poolFunds ← sub k.bankKeeper.validateDenom shares.totalDistributionAmounts
    shares.effectiveDistributionAmounts
  let s ← k.sendDistributed moduleName poolFunds s
  let s ← shares.distributeToRecipient.toList.foldlM k.addToClaim s
  .ok { s with
    continuousFund :=
      (expiredFunds s.time s.continuousFund).foldl (fun funds e => funds.erase e.1) s.continuousFund }

/-! ## Budgets -/

/-- `Time.Sub`, whose result is a duration in range. -/
def timeSub (t u : Int) : Int64 := Int64.ofInt (max (-2 ^ 63) (min (2 ^ 63 - 1) (t - u)))

/-- How many tranches are due: one for each period that has passed, as long as some are left. -/
def periodsPassed (timeElapsed period : Int64) (tranchesLeft : UInt64) : Int64 :=
  if tranchesLeft.toInt64 < timeElapsed / period then tranchesLeft.toInt64 else timeElapsed / period

def claimedBudget (budget : Budget) (lastClaimedAt : Int) (period periodsPassed : Int64)
    (claimedAmount : Coin) : Budget :=
  { budget with
    tranchesLeft :=
      if periodsPassed.toUInt64 < budget.tranchesLeft then
        budget.tranchesLeft - periodsPassed.toUInt64
      else 0
    claimedAmount := some claimedAmount
    lastClaimedAt := some (lastClaimedAt + (period * periodsPassed).toInt) }

def calculateClaimableFunds (recipient : AccAddress) (budget : Budget) (s : State A) :
    PoolResult (Coin × State A) := do
  let lastClaimedAt ← deref budget.lastClaimedAt
  let period ← deref budget.period
  let budgetPerTranche ← deref budget.budgetPerTranche
  if timeSub s.time lastClaimedAt < period then
    .error (.error (.new "budget period has not passed yet"))
  else if period = 0 then .error (.panic "integer divide by zero")
  else do
    let coinsToDistribute ← mulInt
      (periodsPassed (timeSub s.time lastClaimedAt) period budget.tranchesLeft).toInt
      budgetPerTranche.amount
    let amount ← Coin.new k.bankKeeper.validateDenom budgetPerTranche.denom coinsToDistribute
    let claimed ← deref budget.claimedAmount
    let claimedAmount ← claimed.add amount
    .ok (amount, { s with
      budgetProposal := s.budgetProposal.insert recipient (claimedBudget budget lastClaimedAt period
        (periodsPassed (timeSub s.time lastClaimedAt) period budget.tranchesLeft) claimedAmount) })

/-- `getClaimableFunds`; the entry of a budget that has ended is not removed, as the error
reverts the removal. -/
def getClaimableFunds (recipientAddr : String) (s : State A) : PoolResult (Coin × State A) := do
  let recipient ← mapFault (fun _ => .invalidAddress "invalid recipient address")
    (k.stringToBytes recipientAddr)
  match s.budgetProposal[recipient]? with
  | none => .error (.error (.new ("no budget found for recipient: " ++ recipientAddr)))
  | some budget => do
      let budgetPerTranche ← deref budget.budgetPerTranche
      let left ← mulInt budgetPerTranche.amount budget.tranchesLeft.toNat
      let totalBudgetAmountLeft ← Coin.new k.bankKeeper.validateDenom budgetPerTranche.denom left
      if budget.tranchesLeft = 0 ∧ budget.claimedAmount.isSome ∧ totalBudgetAmountLeft.amount = 0 then
        .error (.error (.new ("budget ended for recipient: " ++ recipientAddr)))
      else if budget.lastClaimedAt.any (fun lastClaimedAt => s.time < lastClaimedAt) then
        .error (.error (.new "distribution has not started yet"))
      else if budget.tranchesLeft ≠ 0 ∧ budget.claimedAmount = none then
        k.calculateClaimableFunds recipient
          { budget with claimedAmount := some ⟨budgetPerTranche.denom, 0⟩ } s
      else k.calculateClaimableFunds recipient budget s

def claimFunds (recipientAddr : String) (s : State A) : PoolResult (Coin × State A) := do
  let recipient ← mapFault (fun _ => .invalidAddress "invalid recipient address")
    (k.stringToBytes recipientAddr)
  let claim ← mapFault (.wrapped "error getting claimable funds")
    (k.getClaimableFunds recipientAddr s)
  let coins ← newCoins k.bankKeeper.validateDenom [claim.1]
  let s ← mapFault (.wrapped "error distributing from community pool")
    (k.distributeFromCommunityPool coins recipient claim.2)
  .ok (claim.1, s)

end Keeper

end CosmosSDK.ProtocolPool
