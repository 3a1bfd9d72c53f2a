import CosmosSDK.Store.GasMeter

/-!
# Accounts

The account records of `x/auth` and the part of its keeper that authentication
uses.  The store is keyed by the address inside the record and keeps account
numbers unique; both facts are fields of `AccountKeeper`, so a store without them
cannot be built.
-/

namespace CosmosSDK.Auth

open Store OrderedKV Std

/-- `sdk.AccAddress`. -/
abbrev AccAddress := Bytes

/-- `cryptotypes.PubKey`; a simple key may have nil bytes. -/
inductive PubKey where
  | ed25519 (key : Option Bytes)
  | secp256k1 (key : Option Bytes)
  | secp256r1 (key : Option Bytes)
  | multisig (threshold : Nat) (keys : List PubKey)
  | other (typeURL : String) (key : Option Bytes)

/-- Why a call of the ante handler fails; `text` is the message of an error that
comes from a collaborator. -/
inductive Failure where
  /-- `ErrUnauthorized`: invalid number of signer -/
  | signerCount (expected got : Nat)
  /-- `ErrInvalidRequest`: invalid number of pubkeys -/
  | pubKeyCount (expected got : Nat)
  /-- `ErrWrongSequence`: expected higher than or equal to -/
  | sequenceTooLow (expected got : UInt64)
  /-- `ErrWrongSequence`: expected -/
  | sequenceMismatch (expected got : UInt64)
  /-- `ErrInvalidPubKey`: pubkey on account is not set -/
  | pubKeyNotSet
  /-- the account is without a pubkey and did not provide a pubkey in the tx to set it -/
  | noPubKey (account : AccAddress)
  /-- `ErrInvalidPubKey`: the account cannot be claimed by public key with address -/
  | cannotBeClaimed (account pubKeyAddress : AccAddress)
  /-- `ErrInvalidPubKey`: key is not on curve -/
  | notOnCurve (keyType : String)
  /-- `ErrInvalidPubKey`: some keys are not on curve -/
  | someNotOnCurve
  /-- `ErrInvalidPubKey`: unsupported key type -/
  | unsupportedKey (typeURL : String)
  /-- `ErrUnauthorized`: signature verification failed; the sequence is named for
  legacy amino signers only -/
  | verification (accountNumber : UInt64) (sequence : Option UInt64) (chainID text : String)
  /-- not supported for module accounts -/
  | moduleAccount
  /-- got empty SignatureData -/
  | emptySignatureData
  | error (text : String)
  | panic (text : String)

structure Account where
  address : AccAddress
  pubKey : Option PubKey
  accountNumber : UInt64
  sequence : UInt64
  isModule : Bool

namespace Account

def setPubKey (acc : Account) (key : PubKey) : Except Failure Account :=
  if acc.isModule then .error .moduleAccount else .ok { acc with pubKey := some key }

def setSequence (acc : Account) (sequence : UInt64) : Account :=
  { acc with sequence := sequence }

end Account

/-- The records by address, and the number of the next new account. -/
structure AccountKeeper where
  accounts : OrdMap AccAddress Account
  nextAccountNumber : UInt64
  address_eq : ∀ (addr : AccAddress) (acc : Account),
    accounts[addr]? = some acc → acc.address = addr
  number_inj : ∀ (addr addr' : AccAddress) (acc acc' : Account), accounts[addr]? = some acc →
    accounts[addr']? = some acc' → acc.accountNumber = acc'.accountNumber → addr = addr'

namespace AccountKeeper

variable (ak : AccountKeeper)

def getAccount (addr : AccAddress) : Option Account :=
  ak.accounts[addr]?

/-- `NewAccountWithAddress`: a base account with the next account number; it is
not stored yet. -/
def newAccountWithAddress (addr : AccAddress) : Account × AccountKeeper :=
  (⟨addr, none, ak.nextAccountNumber, 0, false⟩,
    { ak with nextAccountNumber := ak.nextAccountNumber + 1 })

/-- The unique index has the account number for another address. -/
def NumberTaken (acc : Account) : Prop :=
  ∃ e ∈ ak.accounts.toList, e.1 ≠ acc.address ∧ e.2.accountNumber = acc.accountNumber

instance (ak : AccountKeeper) (acc : Account) : Decidable (ak.NumberTaken acc) :=
  inferInstanceAs (Decidable (∃ e ∈ ak.accounts.toList, _))

theorem insert_address_eq (acc : Account) (addr : AccAddress) (acc' : Account)
    (h : (ak.accounts.insert acc.address acc)[addr]? = some acc') : acc'.address = addr := by
  rw [lookup_insert] at h
  split at h
  · cases h
    exact Eq.symm ‹_›
  · exact ak.address_eq addr acc' h

variable {acc : Account}

/-- A record of another address does not have the number unless it is taken. -/
theorem number_ne (hfree : ¬ak.NumberTaken acc)
    {addr : AccAddress} {acc' : Account} (h : ak.accounts[addr]? = some acc')
    (hne : addr ≠ acc.address) : acc'.accountNumber ≠ acc.accountNumber := by
  intro heq
  exact hfree ⟨(addr, acc'), ExtTreeMap.mem_toList_iff_getElem?_eq_some.mpr h, hne, heq⟩

theorem insert_number_inj (acc : Account) (hfree : ¬ak.NumberTaken acc)
    (addr addr' : AccAddress) (acc1 acc2 : Account)
    (h1 : (ak.accounts.insert acc.address acc)[addr]? = some acc1)
    (h2 : (ak.accounts.insert acc.address acc)[addr']? = some acc2)
    (heq : acc1.accountNumber = acc2.accountNumber) : addr = addr' := by
  rw [lookup_insert] at h1 h2
  by_cases hl : addr = acc.address <;> by_cases hr : addr' = acc.address
  · rw [hl, hr]
  · rw [if_pos hl] at h1
    rw [if_neg hr] at h2
    cases h1
    exact absurd heq.symm (ak.number_ne hfree h2 hr)
  · rw [if_neg hl] at h1
    rw [if_pos hr] at h2
    cases h2
    exact absurd heq (ak.number_ne hfree h1 hl)
  · rw [if_neg hl] at h1
    rw [if_neg hr] at h2
    exact ak.number_inj addr addr' acc1 acc2 h1 h2 heq

/-- `SetAccount`: the record is stored under its own address. -/
def setAccount (acc : Account) : Except Failure AccountKeeper :=
  if h : ak.NumberTaken acc then .error (.panic "index uniqueness constrain violation")
  else .ok
    { accounts := ak.accounts.insert acc.address acc
      nextAccountNumber := ak.nextAccountNumber
      address_eq := ak.insert_address_eq acc
      number_inj := ak.insert_number_inj acc h }

theorem getAccount_setAccount {ak ak' : AccountKeeper}
    (h : ak.setAccount acc = .ok ak') (addr : AccAddress) :
    ak'.getAccount addr = if addr = acc.address then some acc else ak.getAccount addr := by
  unfold setAccount at h
  split at h
  · simp at h
  · cases h
    exact lookup_insert ak.accounts acc.address addr acc

theorem address_getAccount {ak : AccountKeeper} {addr : AccAddress}
    (h : ak.getAccount addr = some acc) : acc.address = addr :=
  ak.address_eq addr acc h

end AccountKeeper

end CosmosSDK.Auth
