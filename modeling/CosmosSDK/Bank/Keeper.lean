import CosmosSDK.Auth.Account
import CosmosSDK.Types.Coin

/-!
# The bank keeper

Balances and supply of `x/bank/keeper` with the operations that change them.
Accounts are a state of their own: the bank asks it for locked coins, module
accounts and permissions, and tells it of delegations; what it answers is
arbitrary.  Send restrictions, address texts and event sinks are arbitrary too.
-/

namespace CosmosSDK.Bank

open CosmosSDK.Types Math Auth OrderedKV Std Coins

inductive BankErr where
  /-- `ErrInvalidCoins` -/
  | invalidCoins (amt : Coins)
  /-- `ErrInsufficientFunds`: locked amount exceeds account balance funds -/
  | lockedExceeds (locked balance : Coin)
  /-- `ErrInsufficientFunds`: spendable balance is smaller than -/
  | spendableTooSmall (spendable : Coins) (coin : Coin)
  /-- `ErrInsufficientFunds`: failed to delegate -/
  | failedToDelegate (balance : Coin) (amt : Coins)
  /-- `ErrUnknownAddress`: module account does not exist -/
  | moduleUnknown (name : String)
  /-- `ErrUnknownAddress`: account does not exist -/
  | accountUnknown (addr : AccAddress)
  /-- `ErrUnauthorized`: not allowed to receive funds -/
  | blocked (addr : AccAddress)
  /-- `ErrUnauthorized`: no permission -/
  | noPermission (name : String) (permission : String)
  /-- `ErrUnauthorized`: account does not have permissions to burn tokens -/
  | mayNotBurn (addr : AccAddress)
  /-- `ErrInvalidAddress` -/
  | invalidAddress (text : String)
  /-- `ErrInputOutputMismatch` -/
  | inputOutputMismatch
  | other (text : String)

abbrev BankResult := Result BankErr

/-- `sdk.ModuleAccountI`. -/
structure ModuleAccount where
  address : AccAddress
  hasPermission : String → Bool

/-- An account as the bank sees it; permissions are those of a module account. -/
structure BankAccount where
  address : AccAddress
  modulePermissions : Option (String → Bool)

inductive BankEvent where
  | coinSpent (spender : String) (amt : Coins)
  | coinReceived (receiver : String) (amt : Coins)
  | transfer (recipient sender : String) (amt : Coins)
  | coinMint (minter : String) (amt : Coins)
  | coinBurn (burner : String) (amt : Coins)

/-- What a chain configures; `A` is the state of the accounts. -/
structure BankKeeper (A : Type) where
  validateDenom : Denom → Bool
  /-- `addrCdc` -/
  bytesToString : AccAddress → BankResult String
  stringToBytes : String → BankResult AccAddress
  /-- `AccAddressFromBech32` -/
  accAddressFromBech32 : String → Option String
  sendRestriction : AccAddress → AccAddress → Coins → BankResult AccAddress
  mintCoinsRestrictionFn : Coins → BankResult Unit
  blockedAddr : AccAddress → BankResult Bool
  emitKV : BankEvent → BankResult Unit
  lockedCoins : A → AccAddress → Coins
  getAccount : A → AccAddress → Option BankAccount
  getModuleAddress : String → Option AccAddress
  /-- the account of a module, which may be created by the call -/
  getModuleAccount : A → String → BankResult (Option ModuleAccount × A)
  trackDelegation : A → AccAddress → Coins → Coins → BankResult A
  trackUndelegation : A → AccAddress → Coins → BankResult A

/-- The state: balances by address and denomination, the supply, the accounts. -/
structure Ledger (A : Type) where
  balances : OrdMap (AccAddress × Denom) Int
  supply : OrdMap Denom Int
  accounts : A

structure Input where
  address : String
  coins : Coins

structure Output where
  address : String
  coins : Coins

namespace BankKeeper

variable {A : Type} (k : BankKeeper A)

/-! ## Balances and supply -/

variable (b : Ledger A)

def getBalance (addr : AccAddress) (denom : Denom) : BankResult Coin :=
  Coin.new k.validateDenom denom ((b.balances[(addr, denom)]?).getD 0)

/-- `setBalance`: a zero balance is removed. -/
def setBalance (addr : AccAddress) (balance : Coin) : BankResult (Ledger A) :=
  if !balance.isValid k.validateDenom then .error (.error (.invalidCoins [balance]))
  else if balance.isZero then .ok { b with balances := b.balances.erase (addr, balance.denom) }
  else .ok { b with balances := b.balances.insert (addr, balance.denom) balance.amount }

def getSupply (denom : Denom) : BankResult Coin :=
  Coin.new k.validateDenom denom ((b.supply[denom]?).getD 0)

/-- `setSupply`: a zero supply is removed. -/
def setSupply (coin : Coin) : Ledger A :=
  if coin.isZero then { b with supply := b.supply.erase coin.denom }
  else { b with supply := b.supply.insert coin.denom coin.amount }

/-! ## Taking and giving coins -/

/-- One coin of `subUnlockedCoins`: only what is not locked can be spent. -/
def subUnlockedCoin (lockedCoins : Coins) (addr : AccAddress) (b : Ledger A) (coin : Coin) :
    BankResult (Ledger A) := do
  let balance ← k.getBalance b addr coin.denom
  let locked := (find lockedCoins coin.denom).getD ⟨coin.denom, 0⟩
  let (spendable, hasNeg) ← safeSub k.validateDenom [balance] [locked]
  if hasNeg then .error (.error (.lockedExceeds locked balance))
  else do
    let (_, hasNeg) ← safeSub k.validateDenom spendable [coin]
    if hasNeg then
      .error (.error (.spendableTooSmall
        (if spendable.isEmpty then [⟨coin.denom, 0⟩] else spendable) coin))
    else do
      let newBalance ← balance.sub coin
      k.setBalance b addr newBalance

def subUnlockedCoins (addr : AccAddress) (amt : Coins) : BankResult (Ledger A) := do
  let b' ← amt.foldlM (k.subUnlockedCoin (k.lockedCoins b.accounts addr) addr) b
  let addrStr ← k.bytesToString addr
  k.emitKV (.coinSpent addrStr amt)
  .ok b'

/-- One coin of `addCoins`. -/
def addCoin (addr : AccAddress) (b : Ledger A) (coin : Coin) : BankResult (Ledger A) := do
  let balance ← k.getBalance b addr coin.denom
  let newBalance ← balance.add coin
  k.setBalance b addr newBalance

def addCoins (addr : AccAddress) (amt : Coins) : BankResult (Ledger A) := do
  let b' ← amt.foldlM (k.addCoin addr) b
  let addrStr ← k.bytesToString addr
  k.emitKV (.coinReceived addrStr amt)
  .ok b'

/-! ## Sending -/

def sendCoins (fromAddr toAddr : AccAddress) (amt : Coins) : BankResult (Ledger A) :=
  if !isValid k.validateDenom amt then .error (.error (.invalidCoins amt))
  else do
    let toAddr ← k.sendRestriction fromAddr toAddr amt
    let b ← k.subUnlockedCoins b fromAddr amt
    let b ← k.addCoins b toAddr amt
    let fromAddrString ← k.bytesToString fromAddr
    let toAddrString ← k.bytesToString toAddr
    k.emitKV (.transfer toAddrString fromAddrString amt)
    .ok b

/-- `ValidateBasic` of an input or an output. -/
def validateBasic (address : String) (coins : Coins) : BankResult Unit :=
  match k.accAddressFromBech32 address with
  | some text => .error (.error (.invalidAddress text))
  | none =>
    if !isValid k.validateDenom coins then .error (.error (.invalidCoins coins))
    else if !isAllPositive coins then .error (.error (.invalidCoins coins))
    else .ok ()

/-- The sum of the coins of all outputs, each of which must be valid. -/
def totalOut : List Output → Coins → BankResult Coins
  | [], sum => .ok sum
  | out :: outputs, sum => do
      k.validateBasic out.address out.coins
      let sum ← add sum out.coins
      totalOut outputs sum

def validateInputOutputs (input : Input) (outputs : List Output) : BankResult Unit := do
  k.validateBasic input.address input.coins
  let totalOut ← k.totalOut outputs []
  if !equal input.coins totalOut then .error (.error .inputOutputMismatch) else .ok ()

/-- The outputs with the addresses the send restriction gives them. -/
def restrictOutput (inAddress : AccAddress) (out : Output) : BankResult (AccAddress × Output) := do
  let outAddress ← k.stringToBytes out.address
  let outAddress ← k.sendRestriction inAddress outAddress out.coins
  .ok (outAddress, out)

/-- One output of `InputOutputCoins`. -/
def payOutput (sender : String) (b : Ledger A) (out : AccAddress × Output) : BankResult (Ledger A) := do
  let b ← k.addCoins b out.1 out.2.coins
  k.emitKV (.transfer out.2.address sender out.2.coins)
  .ok b

def inputOutputCoins (input : Input) (outputs : List Output) : BankResult (Ledger A) := do
  k.validateInputOutputs input outputs
  let inAddress ← k.stringToBytes input.address
  let sending ← outputs.mapM (k.restrictOutput inAddress)
  let b ← k.subUnlockedCoins b inAddress input.coins
  sending.foldlM (k.payOutput input.address) b

/-! ## Delegations -/

/-- One coin of `DelegateCoins`, with the balances before. -/
def delegateCoin (delegatorAddr : AccAddress) (amt : Coins) (s : Ledger A × Coins) (coin : Coin) :
    BankResult (Ledger A × Coins) := do
  let balance ← k.getBalance s.1 delegatorAddr coin.denom
  let tooSmall ← balance.isLT coin
  if tooSmall then .error (.error (.failedToDelegate balance amt))
  else do
    let balances ← add s.2 [balance]
    let newBalance ← balance.sub coin
    let b ← k.setBalance s.1 delegatorAddr newBalance
    .ok (b, balances)

/-- `DelegateCoins`: locked coins can be delegated. -/
def delegateCoins (delegatorAddr moduleAccAddr : AccAddress) (amt : Coins) :
    BankResult (Ledger A) :=
  match k.getAccount b.accounts moduleAccAddr with
  | none => .error (.error (.accountUnknown moduleAccAddr))
  | some _ =>
    if !isValid k.validateDenom amt then .error (.error (.invalidCoins amt))
    else do
      let (b, balances) ← amt.foldlM (k.delegateCoin delegatorAddr amt) (b, [])
      let accounts ← k.trackDelegation b.accounts delegatorAddr balances amt
      let delAddrStr ← k.bytesToString delegatorAddr
      k.emitKV (.coinSpent delAddrStr amt)
      k.addCoins { b with accounts := accounts } moduleAccAddr amt

def undelegateCoins (moduleAccAddr delegatorAddr : AccAddress) (amt : Coins) :
    BankResult (Ledger A) :=
  match k.getAccount b.accounts moduleAccAddr with
  | none => .error (.error (.accountUnknown moduleAccAddr))
  | some _ =>
    if !isValid k.validateDenom amt then .error (.error (.invalidCoins amt))
    else do
      let b ← k.subUnlockedCoins b moduleAccAddr amt
      let accounts ← k.trackUndelegation b.accounts delegatorAddr amt
      k.addCoins { b with accounts := accounts } delegatorAddr amt

/-! ## Module accounts -/

def moduleAccount (name : String) : BankResult (ModuleAccount × Ledger A) := do
  let (acc, accounts) ← k.getModuleAccount b.accounts name
  match acc with
  | none => .error (.error (.moduleUnknown name))
  | some acc => .ok (acc, { b with accounts := accounts })

def permittedAccount (name permission : String) : BankResult (ModuleAccount × Ledger A) := do
  let (acc, b) ← k.moduleAccount b name
  if acc.hasPermission permission then .ok (acc, b)
  else .error (.error (.noPermission name permission))

def sendCoinsFromModuleToAccount (senderModule : String) (recipientAddr : AccAddress)
    (amt : Coins) : BankResult (Ledger A) :=
  match k.getModuleAddress senderModule with
  | none => .error (.error (.moduleUnknown senderModule))
  | some senderAddr => do
      let isBlocked ← k.blockedAddr recipientAddr
      if isBlocked then .error (.error (.blocked recipientAddr))
      else k.sendCoins b senderAddr recipientAddr amt

def sendCoinsFromModuleToModule (senderModule recipientModule : String)
    (amt : Coins) : BankResult (Ledger A) :=
  match k.getModuleAddress senderModule with
  | none => .error (.error (.moduleUnknown senderModule))
  | some senderAddr => do
      let (recipientAcc, b) ← k.moduleAccount b recipientModule
      k.sendCoins b senderAddr recipientAcc.address amt

def sendCoinsFromAccountToModule (senderAddr : AccAddress) (recipientModule : String)
    (amt : Coins) : BankResult (Ledger A) := do
  let (recipientAcc, b) ← k.moduleAccount b recipientModule
  k.sendCoins b senderAddr recipientAcc.address amt

def delegateCoinsFromAccountToModule (senderAddr : AccAddress)
    (recipientModule : String) (amt : Coins) : BankResult (Ledger A) := do
  let (recipientAcc, b) ← k.permittedAccount b recipientModule "staking"
  k.delegateCoins b senderAddr recipientAcc.address amt

def undelegateCoinsFromModuleToAccount (senderModule : String)
    (recipientAddr : AccAddress) (amt : Coins) : BankResult (Ledger A) := do
  let (acc, b) ← k.permittedAccount b senderModule "staking"
  k.undelegateCoins b acc.address recipientAddr amt

/-! ## Minting and burning -/

/-- One coin of the supply loop of `MintCoins`. -/
def mintSupply (amount : Coin) : BankResult (Ledger A) := do
  let supply ← k.getSupply b amount.denom
  let supply ← supply.add amount
  .ok (setSupply b supply)

def mintCoins (moduleName : String) (amounts : Coins) : BankResult (Ledger A) := do
  k.mintCoinsRestrictionFn amounts
  let (acc, b) ← k.permittedAccount b moduleName "minter"
  if !isValid k.validateDenom amounts then .error (.error (.invalidCoins amounts))
  else do
    let b ← k.addCoins b acc.address amounts
    let b ← amounts.foldlM k.mintSupply b
    let addrStr ← k.bytesToString acc.address
    k.emitKV (.coinMint addrStr amounts)
    .ok b

/-- One coin of the supply loop of `BurnCoins`. -/
def burnSupply (amount : Coin) : BankResult (Ledger A) := do
  let supply ← k.getSupply b amount.denom
  let supply ← supply.sub amount
  .ok (setSupply b supply)

/-- `BurnCoins`: a module account needs the permission, any other account may burn. -/
def burnCoins (address : AccAddress) (amounts : Coins) : BankResult (Ledger A) :=
  match k.getAccount b.accounts address with
  | none => .error (.error (.accountUnknown address))
  | some acc =>
    if !(acc.modulePermissions.elim true (fun hasPermission => hasPermission "burner")) then
      .error (.error (.mayNotBurn address))
    else if !isValid k.validateDenom amounts then .error (.error (.invalidCoins amounts))
    else do
      let b ← k.subUnlockedCoins b acc.address amounts
      let b ← amounts.foldlM k.burnSupply b
      let addrStr ← k.bytesToString acc.address
      k.emitKV (.coinBurn addrStr amounts)
      .ok b

end BankKeeper

end CosmosSDK.Bank
