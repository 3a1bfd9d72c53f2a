import CosmosSDK.Lib.Machine
import CosmosSDK.ProtocolPool.Keeper

/-!
# Messages, blocks and genesis of the protocol pool

`msg_server.go` and `genesis.go` of `x/protocolpool/keeper`, and the machine that serves
messages, blocks, deposits to the distribution account and restarts from an exported genesis.
A request that fails leaves the state as it was.
-/

namespace CosmosSDK.ProtocolPool

open Bank CosmosSDK.Types Math Auth OrderedKV Std Coins LegacyDec PoolErr

structure MsgSubmitBudgetProposal where
  authority : String
  recipientAddress : String
  budgetPerTranche : Option Coin
  startTime : Option Int
  tranches : UInt64
  period : Option Int64

structure MsgCreateContinuousFund where
  authority : String
  recipient : String
  percentage : LegacyDec
  expiry : Option Int

structure MsgCancelContinuousFundResponse where
  canceledTime : Int
  canceledHeight : UInt64
  recipientAddress : String
  withdrawnAllocatedFund : Coins

structure GenesisState where
  continuousFund : List ContinuousFund
  budget : List Budget
  lastBalance : Coins
  distributions : List (Int × Coins)
  params : Params

/-- `time.Time{}`, the first instant of the year 1. -/
def zeroTime : Int := -62135596800000000000

namespace Keeper

variable {A : Type} (k : Keeper A)

/-! ## Validation -/

def validateAuthority (authority : String) : PoolResult Unit := do
  let _ ← mapFault (fun _ => invalidAddress "invalid authority address")
    (k.stringToBytes authority)
  if k.authority ≠ authority then .error (.error (.invalidSigner k.authority authority)) else .ok ()

/-- `validateAmount`; no coins are the nil set. -/
def validateAmount (amount : Coins) : PoolResult Unit :=
  if amount.isEmpty then .error (.error (.invalidCoins []))
  else if !isValid k.bankKeeper.validateDenom amount then .error (.error (.invalidCoins amount))
  else .ok ()

/-- The start of a budget: the block time if the message gives the zero time. -/
def startTime (currentTime startTime : Int) : Int := if startTime = zeroTime then currentTime else startTime

def validateAndUpdateBudgetProposal (bp : MsgSubmitBudgetProposal) (s : State A) :
    PoolResult Budget := do
  let budgetPerTranche ← deref bp.budgetPerTranche
  if budgetPerTranche.isZero then
    .error (.error (.new "invalid budget proposal: budget per tranche cannot be zero"))
  else do
    let coins ← newCoins k.bankKeeper.validateDenom [budgetPerTranche]
    mapFault (.wrapped "invalid budget proposal") (k.validateAmount coins)
    let start ← deref bp.startTime
    if startTime s.time start < s.time then .error (.error (.new
      "invalid budget proposal: start time cannot be less than the current block time"))
    else if bp.tranches = 0 then
      .error (.error (.new "invalid budget proposal: tranches must be greater than zero"))
    else if bp.period = none ∨ bp.period = some 0 then
      .error (.error (.new "invalid budget proposal: period length should be greater than zero"))
    else .ok {
      recipientAddress := bp.recipientAddress
      claimedAmount := none
      lastClaimedAt := some (startTime s.time start)
      tranchesLeft := bp.tranches
      budgetPerTranche := some budgetPerTranche
      period := bp.period }

def validateContinuousFund (msg : MsgCreateContinuousFund) (s : State A) : PoolResult Unit :=
  if msg.percentage.isZero then .error (.error (.new "percentage cannot be zero or empty"))
  else if msg.percentage.isNegative then .error (.error (.new "percentage cannot be negative"))
  else if !msg.percentage.lt one then
    .error (.error (.new "percentage cannot be greater than or equal to one"))
  else if msg.expiry.any (fun expiry => expiry < s.time) then
    .error (.error (.new "expiry time cannot be less than the current block time"))
  else .ok ()

/-! ## Messages -/

def claimBudget (recipientAddress : String) (s : State A) : PoolResult (Coin × State A) :=
  k.claimFunds recipientAddress s

def submitBudgetProposal (msg : MsgSubmitBudgetProposal) (s : State A) : PoolResult (State A) := do
  k.validateAuthority msg.authority
  let recipient ← k.stringToBytes msg.recipientAddress
  let budgetProposal ← k.validateAndUpdateBudgetProposal msg s
  .ok { s with budgetProposal := s.budgetProposal.insert recipient budgetProposal }

/-- The message `FundCommunityPool`. -/
def msgFundCommunityPool (amount : Coins) (depositor : String) (s : State A) :
    PoolResult (State A) := do
  let depositor ← mapFault (fun _ => .invalidAddress "invalid depositor address")
    (k.stringToBytes depositor)
  k.validateAmount amount
  k.fundCommunityPool amount depositor s

def communityPoolSpend (authority recipient : String) (amount : Coins) (s : State A) :
    PoolResult (State A) := do
  k.validateAuthority authority
  k.validateAmount amount
  let recipient ← k.stringToBytes recipient
  k.distributeFromCommunityPool amount recipient s

def totalPercentage (funds : OrdMap AccAddress ContinuousFund) : PoolResult LegacyDec :=
  (funds.toList.map (fun e => e.2.percentage)).foldlM (fun total p => total.add p) zero

/-- The end of `CreateContinuousFund`: the fund starts with nothing to claim. -/
def setContinuousFund (recipient : AccAddress) (msg : MsgCreateContinuousFund) (s : State A) :
    State A :=
  { s with
    continuousFund := s.continuousFund.insert recipient ⟨msg.recipient, msg.percentage, msg.expiry⟩
    recipientFundDistribution := s.recipientFundDistribution.insert recipient [] }

def createContinuousFund (msg : MsgCreateContinuousFund) (s : State A) : PoolResult (State A) := do
  k.validateAuthority msg.authority
  let recipient ← k.stringToBytes msg.recipient
  if s.continuousFund[recipient]?.isSome then
    .error (.error (.new ("continuous fund already exists for recipient " ++ msg.recipient)))
  else do
    validateContinuousFund msg s
    let funded ← totalPercentage s.continuousFund
    let total ← funded.add msg.percentage
    if total.gt one then
      .error (.error (.new ("cannot set continuous fund proposal\ntotal funds percentage exceeds 100" ++
        "\ncurrent total percentage: " ++ toString ((funded.i * 100).tdiv precisionReuse))))
    else do
      let s ← k.iterateAndUpdateFundsDistribution s
      .ok (setContinuousFund recipient msg s)

def withdrawContinuousFund (recipientAddress : String) (s : State A) :
    PoolResult (Coins × State A) := do
  let recipient ← mapFault (fun _ => .invalidAddress "invalid recipient address")
    (k.stringToBytes recipientAddress)
  let s ← mapFault (.wrapped "error while iterating all the continuous funds")
    (k.iterateAndUpdateFundsDistribution s)
  mapFault (.wrapped "error while withdrawing recipient funds for recipient")
    (k.withdrawRecipientFunds recipient s)

/-- The withdrawal of `CancelContinuousFund`: a recipient without an entry gets nothing. -/
def withdrawIfAllocated (recipient : AccAddress) (recipientAddress : String) (s : State A) :
    PoolResult (Coins × State A) :=
  match k.withdrawRecipientFunds recipient s with
  | .error (.error e) =>
    if e.isNoRecipientFound then .ok ([], s)
    else .error (.error (.wrapped ("error while withdrawing already allocated funds for recipient "
      ++ recipientAddress) e))
  | result => result

def cancelContinuousFund (authority recipientAddress : String) (s : State A) :
    PoolResult (MsgCancelContinuousFundResponse × State A) := do
  k.validateAuthority authority
  let recipient ← k.stringToBytes recipientAddress
  let s ← k.iterateAndUpdateFundsDistribution s
  let withdrawn ← k.withdrawIfAllocated recipient recipientAddress s
  .ok (⟨s.time, s.height.toInt64.toUInt64, recipientAddress, withdrawn.1⟩,
    { withdrawn.2 with
      continuousFund := withdrawn.2.continuousFund.erase recipient
      recipientFundDistribution := withdrawn.2.recipientFundDistribution.erase recipient })

/-- `UpdateParams`: the parameters are not checked. -/
def updateParams (authority : String) (params : Params) (s : State A) : PoolResult (State A) := do
  k.validateAuthority authority
  .ok { s with params := some params }

/-- `BeginBlocker` with the header of the block. -/
def beginBlocker (time height : Int) (s : State A) : PoolResult (State A) :=
  k.setToDistribute { s with time := time, height := height }

/-! ## Genesis -/

/-- One continuous fund of `InitGenesis`: an expired one is ignored. -/
def initContinuousFund (s : State A) (cf : ContinuousFund) : PoolResult (State A) :=
  if cf.isExpired s.time then .ok s
  else do
    let recipientAddress ← mapFault (.wrapped "failed to decode recipient address")
      (k.stringToBytes cf.recipient)
    .ok { s with continuousFund := s.continuousFund.insert recipientAddress cf }

/-- One budget of `InitGenesis`: it is ignored if its period is not positive or it started
before the genesis. -/
def initBudget (s : State A) (budget : Budget) : PoolResult (State A) :=
  if (budget.period.all (fun period => period ≤ 0)) then .ok s
  else if startTime s.time (budget.lastClaimedAt.getD zeroTime) < s.time then .ok s
  else do
    let recipientAddress ← mapFault (.wrapped "failed to decode recipient address")
      (k.stringToBytes budget.recipientAddress)
    .ok { s with
      budgetProposal := s.budgetProposal.insert recipientAddress { budget with
        lastClaimedAt := some (startTime s.time (budget.lastClaimedAt.getD zeroTime)) } }

/-- One distribution of `InitGenesis`, with the sum so far. -/
def initDistribution (s : Coins × State A) (distribution : Int × Coins) :
    PoolResult (Coins × State A) := do
  let totalToBeDistributed ← add s.1 distribution.2
  .ok (totalToBeDistributed,
    { s.2 with distributions := s.2.distributions.insert distribution.1 distribution.2 })

/-- The state of the pool before `InitGenesis`. -/
def noPool (bank : Ledger A) (time height : Int) : State A := ⟨bank, time, height, ∅, ∅, ∅, ∅, none, none⟩

def initGenesis (data : GenesisState) (s : State A) : PoolResult (State A) := do
  let s ← data.continuousFund.foldlM k.initContinuousFund { s with params := some data.params }
  let s ← data.budget.foldlM k.initBudget s
  let total ← data.distributions.foldlM initDistribution
    (([] : Coins), { s with lastBalance := some data.lastBalance })
  let isAnyGT ← isAnyGT k.bankKeeper.validateDenom total.1 data.lastBalance
  let isSubset ← denomsSubsetOf k.bankKeeper.validateDenom total.1 data.lastBalance
  if isAnyGT || !isSubset then
    .error (.error (.new "total to be distributed is greater than the last balance"))
  else .ok total.2

/-- One step of the walk in `ExportGenesis` that withdraws everything. -/
def withdrawForExport (s : State A) (e : AccAddress × Coins) : PoolResult (State A) := do
  let withdrawn ← k.withdrawRecipientFunds e.1 s
  .ok withdrawn.2

def exportFund (e : AccAddress × ContinuousFund) : PoolResult ContinuousFund := do
  let recipient ← mapFault bank (k.bankKeeper.bytesToString e.1)
  .ok { e.2 with recipient := recipient }

def exportBudget (e : AccAddress × Budget) : PoolResult Budget := do
  let recipient ← mapFault bank (k.bankKeeper.bytesToString e.1)
  .ok { e.2 with recipientAddress := recipient }

/-- `ExportGenesis`, with the state it leaves. -/
def exportGenesis (s : State A) : PoolResult (GenesisState × State A) := do
  let s ← k.iterateAndUpdateFundsDistribution s
  let s ← s.recipientFundDistribution.toList.foldlM k.withdrawForExport s
  let cf ← s.continuousFund.toList.mapM k.exportFund
  let budget ← s.budgetProposal.toList.mapM k.exportBudget
  match s.lastBalance, s.params with
  | some lastBalance, some params => .ok (⟨cf, budget, lastBalance, s.distributions.toList, params⟩, s)
  | _, _ => .error (.error .notFound)

/-- A chain that starts at a time from the genesis another one exports; its bank starts with
the balances of the other. -/
def restart (time height : Int) (s : State A) : PoolResult (State A) := do
  let exported ← k.exportGenesis s
  k.initGenesis exported.1 (noPool exported.2.bank time height)

end Keeper

/-! ## The machine -/

inductive Request where
  /-- coins that are sent to the distribution account -/
  | deposit (sender : AccAddress) (amount : Coins)
  | beginBlocker (time height : Int)
  | createContinuousFund (msg : MsgCreateContinuousFund)
  | withdrawContinuousFund (recipientAddress : String)
  | cancelContinuousFund (authority recipientAddress : String)
  | fundCommunityPool (amount : Coins) (depositor : String)
  | communityPoolSpend (authority recipient : String) (amount : Coins)
  | submitBudgetProposal (msg : MsgSubmitBudgetProposal)
  | claimBudget (recipientAddress : String)
  | updateParams (authority : String) (params : Params)
  | restart (time height : Int)

inductive Response where
  | done
  | withdrawn (amount : Coins)
  | canceled (response : MsgCancelContinuousFundResponse)
  | claimed (amount : Coin)

namespace Keeper

variable {A : Type} (k : Keeper A)

/-- A handler without a response of its own. -/
def quietly (x : PoolResult (State A)) : PoolResult (Response × State A) := do
  let s ← x
  .ok (.done, s)

def exec (s : State A) : Request → PoolResult (Response × State A)
  | .deposit sender amount =>
    quietly (k.sendFromAccountToModule s sender protocolPoolDistrAccount amount)
  | .beginBlocker time height => quietly (k.beginBlocker time height s)
  | .createContinuousFund msg => quietly (k.createContinuousFund msg s)
  | .withdrawContinuousFund recipientAddress => do
      let r ← k.withdrawContinuousFund recipientAddress s
      .ok (.withdrawn r.1, r.2)
  | .cancelContinuousFund authority recipientAddress => do
      let r ← k.cancelContinuousFund authority recipientAddress s
      .ok (.canceled r.1, r.2)
  | .fundCommunityPool amount depositor => quietly (k.msgFundCommunityPool amount depositor s)
  | .communityPoolSpend authority recipient amount =>
    quietly (k.communityPoolSpend authority recipient amount s)
  | .submitBudgetProposal msg => quietly (k.submitBudgetProposal msg s)
  | .claimBudget recipientAddress => do
      let r ← k.claimBudget recipientAddress s
      .ok (.claimed r.1, r.2)
  | .updateParams authority params => quietly (k.updateParams authority params s)
  | .restart time height => quietly (k.restart time height s)

def step (request : Request) (s : State A) : PoolResult Response × State A :=
  match k.exec s request with
  | .ok (response, s') => (.ok response, s')
  | .error e => (.error e, s)

end Keeper

end CosmosSDK.ProtocolPool
