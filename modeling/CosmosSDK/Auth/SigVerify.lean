import CosmosSDK.Auth.Tx

/-!
# SigVerificationDecorator

`x/auth/ante/sigverify.go`.  The decorator authenticates the signers in order;
each one ends with its record written, or the whole transaction is rejected and
nothing is kept.  Addresses, curve checks, gas costs, verification of a signature
and abstracted accounts are parameters.  An abstracted account authenticates
itself; it is assumed not to write records of `x/auth` while doing so.
-/

namespace CosmosSDK.Auth

open Store

/-- `transaction.ExecMode`. -/
inductive ExecMode where
  | check
  | reCheck
  | simulate
  | prepareProposal
  | processProposal
  | voteExtension
  | verifyVoteExtension
  | finalize
deriving DecidableEq

/-- What the decorator reads of its context. -/
structure Ctx where
  execMode : ExecMode
  isReCheckTx : Bool
  isSigverifyTx : Bool
  height : Int
  chainID : String

/-- `txsigning.SignerData`. -/
structure SignerData where
  address : AccAddress
  chainID : String
  accountNumber : UInt64
  sequence : UInt64
  pubKey : PubKey

structure AccountAbstractionKeeper where
  isAbstractedAccount : AccAddress → Except Failure Bool
  authenticateAccount : Ctx → AccAddress → String → Tx → Nat → Except Failure Unit

structure SigVerificationDecorator where
  aaKeeper : Option AccountAbstractionKeeper
  /-- `PubKey.Address` -/
  address : PubKey → AccAddress
  /-- `AddressCodec().BytesToString` -/
  bytesToString : AccAddress → Except Failure String
  decodeMultisignatures : Bytes → Except Failure (List Bytes)
  marshalMultiSignature : List Bytes → Except Failure Bytes
  extraVerifyIsOnCurve : Option (PubKey → Bool × Option Failure)
  /-- whether the bytes of an ed25519, secp256k1 or secp256r1 key are on its curve -/
  keyOnCurve : PubKey → Except Failure Bool
  /-- the gas a signature costs, taken from the meter; the parameters are those of
  the store -/
  sigGasConsumer : SignatureV2 → GasMeter → Except Failure GasMeter
  /-- `base64.StdEncoding.EncodeToString` -/
  encodeToString : Bytes → String
  emitKV : String → List (String × String) → Except Failure Unit

/-- `authsigning.VerifySignature` with the sign mode handlers: the text of the error,
if the signature is not good. -/
abbrev SignatureVerifier := PubKey → SignerData → SignatureData → Bytes → Option String

/-- The records and the gas meter while a transaction is checked. -/
structure AnteState where
  ak : AccountKeeper
  gasMeter : GasMeter

def simSecp256k1Pubkey : PubKey :=
  .secp256k1 (some [0x03, 0x5A, 0xD6, 0x81, 0x0A, 0x47, 0xF0, 0x73, 0x55, 0x3F, 0xF3, 0x0D, 0x2F,
    0xCC, 0x7E, 0x0D, 0x3B, 0x1C, 0x0B, 0x74, 0xB6, 0x1A, 0x1A, 0xAA, 0x25, 0x82, 0x34, 0x40, 0x37,
    0x15, 0x1E, 0x14, 0x3A])

namespace SigVerificationDecorator

/-! ## Public keys -/

variable (svd : SigVerificationDecorator)

/-- A simple key: nil bytes pass, which is the case in simulations. -/
def simpleKeyIsOnCurve (keyType : String) (pubKey : PubKey) : Option Bytes → Except Failure Unit
  | none => .ok ()
  | some _ =>
    match svd.keyOnCurve pubKey with
    | .error e => .error e
    | .ok true => .ok ()
    | .ok false => .error (.notOnCurve keyType)

mutual

def verifyIsOnCurve (svd : SigVerificationDecorator) (pubKey : PubKey) : Except Failure Unit :=
  match svd.extraVerifyIsOnCurve.map (fun verify => verify pubKey) with
  | some (true, some e) => .error e
  | some (true, none) => .ok ()
  | _ =>
    match pubKey with
    | .ed25519 key => svd.simpleKeyIsOnCurve "ed25519" (.ed25519 key) key
    | .secp256k1 key => svd.simpleKeyIsOnCurve "secp256k1" (.secp256k1 key) key
    | .secp256r1 key => svd.simpleKeyIsOnCurve "secp256r1" (.secp256r1 key) key
    | .multisig _ keys => if svd.allOnCurve keys then .ok () else .error .someNotOnCurve
    | .other typeURL key => if key.isNone then .ok () else .error (.unsupportedKey typeURL)

def allOnCurve (svd : SigVerificationDecorator) : List PubKey → Bool
  | [] => true
  | pubKey :: keys => (svd.verifyIsOnCurve pubKey).isOk && svd.allOnCurve keys

end

/-- `setPubKey`: the key of the transaction claims an account without key. -/
def setPubKey (svd : SigVerificationDecorator) (ctx : Ctx) (acc : Account)
    (txPubKey : Option PubKey) : Except Failure Account :=
  if !ctx.isSigverifyTx then .ok acc
  else
    match txPubKey with
    | none =>
      if ctx.execMode ≠ .simulate then .error (.noPubKey acc.address)
      else acc.setPubKey simSecp256k1Pubkey
    | some key =>
      if acc.address ≠ svd.address key then
        .error (.cannotBeClaimed acc.address (svd.address key))
      else
        match svd.verifyIsOnCurve key with
        | .error e => .error e
        | .ok _ => acc.setPubKey key

def consumeSignatureGas (ctx : Ctx) (pubKey : Option PubKey)
    (sig : SignatureV2) (gasMeter : GasMeter) : Except Failure GasMeter :=
  let pubKey := if ctx.execMode = .simulate ∧ pubKey.isNone then some simSecp256k1Pubkey else pubKey
  svd.sigGasConsumer { sig with pubKey := pubKey } gasMeter

/-! ## The signature -/

/-- The sequence of an ordered transaction: exact, or not in the past when checking. -/
def verifySequence (ctx : Ctx) (unordered : Bool) (acc : Account) (sig : SignatureV2) :
    Except Failure Unit :=
  if unordered then .ok ()
  else if ctx.execMode = .check then
    if sig.sequence < acc.sequence then .error (.sequenceTooLow acc.sequence sig.sequence)
    else .ok ()
  else if sig.sequence ≠ acc.sequence then
    .error (.sequenceMismatch acc.sequence sig.sequence)
  else .ok ()

/-- The account number in the sign bytes: zero in genesis and for a new account. -/
def signAccountNumber (ctx : Ctx) (acc : Account) (newlyCreated : Bool) : UInt64 :=
  if acc.sequence = 0 ∧ newlyCreated then 0
  else if ctx.height = 0 then 0
  else acc.accountNumber

def signerData (ctx : Ctx) (acc : Account) (sig : SignatureV2) (newlyCreated : Bool)
    (pubKey : PubKey) : SignerData :=
  ⟨acc.address, ctx.chainID, signAccountNumber ctx acc newlyCreated, sig.sequence, pubKey⟩

def verifySig (verifySignature : SignatureVerifier) (ctx : Ctx) (tx : Tx) (acc : Account)
    (sig : SignatureV2) (newlyCreated : Bool) : Except Failure Unit :=
  match verifySequence ctx tx.unordered acc sig with
  | .error e => .error e
  | .ok _ =>
    if ctx.execMode = .simulate ∨ ctx.isReCheckTx ∨ !ctx.isSigverifyTx then .ok ()
    else
      match acc.pubKey with
      | none => .error .pubKeyNotSet
      | some pubKey =>
        let data := signerData ctx acc sig newlyCreated pubKey
        match verifySignature pubKey data sig.data tx.txData with
        | none => .ok ()
        | some text =>
          .error (.verification data.accountNumber
            (if onlyLegacyAminoSigners sig.data then some acc.sequence else none)
            ctx.chainID text)

def increaseSequence (tx : Tx) (acc : Account) : Account :=
  if tx.unordered then acc else acc.setSequence (acc.sequence + 1)

/-! ## Authentication -/

/-- `authenticateAbstractedAccount`: the account is its own bundler. -/
def authenticateAbstractedAccount (aa : AccountAbstractionKeeper)
    (ctx : Ctx) (tx : Tx) (signer : AccAddress) (index : Nat) : Except Failure Unit :=
  match svd.bytesToString signer with
  | .error e => .error e
  | .ok selfBundler => aa.authenticateAccount ctx signer selfBundler tx index

/-- The record of the signer, or a new one for the address of the key. -/
def signerAccount (ak : AccountKeeper) (signer : AccAddress)
    (txPubKey : Option PubKey) : Except Failure (Account × Bool × AccountKeeper) :=
  match ak.getAccount signer with
  | some acc => .ok (acc, false, ak)
  | none =>
    match txPubKey with
    | none => .error (.panic "nil pointer dereference")
    | some key =>
      let (acc, ak') := ak.newAccountWithAddress (svd.address key)
      .ok (acc, true, ak')

/-- An account without key gets the one of the transaction. -/
def ensurePubKey (ctx : Ctx) (acc : Account) (txPubKey : Option PubKey) : Except Failure Account :=
  if acc.pubKey.isNone then svd.setPubKey ctx acc txPubKey else .ok acc

/-- The part of `authenticate` for an account of `x/auth`. -/
def authenticateAccount (verifySignature : SignatureVerifier)
    (ctx : Ctx) (tx : Tx) (signer : AccAddress) (sig : SignatureV2) (txPubKey : Option PubKey)
    (st : AnteState) : Except Failure AnteState := do
  let (acc, newlyCreated, ak) ← svd.signerAccount st.ak signer txPubKey
  let acc ← svd.ensurePubKey ctx acc txPubKey
  let gasMeter ← svd.consumeSignatureGas ctx acc.pubKey sig st.gasMeter
  verifySig verifySignature ctx tx acc sig newlyCreated
  let ak ← ak.setAccount (increaseSequence tx acc)
  .ok ⟨ak, gasMeter⟩

def isAbstractedAccount (svd : SigVerificationDecorator) (signer : AccAddress) :
    Except Failure Bool :=
  match svd.aaKeeper with
  | none => .ok false
  | some aa => aa.isAbstractedAccount signer

def authenticate (verifySignature : SignatureVerifier)
    (ctx : Ctx) (tx : Tx) (signer : AccAddress) (sig : SignatureV2) (txPubKey : Option PubKey)
    (index : Nat) (st : AnteState) : Except Failure AnteState := do
  let isAa ← svd.isAbstractedAccount signer
  match isAa, svd.aaKeeper with
  | true, some aa =>
    svd.authenticateAbstractedAccount aa ctx tx signer index
    .ok st
  | _, _ => svd.authenticateAccount verifySignature ctx tx signer sig txPubKey st

/-- A signer with the signature and the key at its position. -/
abbrev SignerEntry := AccAddress × SignatureV2 × Option PubKey

def authenticateAll (svd : SigVerificationDecorator) (verifySignature : SignatureVerifier)
    (ctx : Ctx) (tx : Tx) : Nat → List SignerEntry → AnteState → Except Failure AnteState
  | _, [], st => .ok st
  | i, (signer, sig, pubKey) :: entries, st => do
      let st' ← svd.authenticate verifySignature ctx tx signer sig pubKey i st
      authenticateAll svd verifySignature ctx tx (i + 1) entries st'

/-- The signers with signatures and keys, whose numbers must agree. -/
def signerEntries (tx : Tx) : Except Failure (List SignerEntry) := do
  let signatures ← tx.getSignaturesV2 svd.decodeMultisignatures
  if signatures.length ≠ tx.signers.length then
    .error (.signerCount tx.signers.length signatures.length)
  let pubKeys ← tx.getPubKeys
  if pubKeys.length ≠ tx.signers.length then
    .error (.pubKeyCount tx.signers.length pubKeys.length)
  .ok (tx.signers.zip (signatures.zip pubKeys))

/-! ## Events and the whole check -/

/-- The attributes of one signer: its sequence and the raw signatures. -/
def signerAttributes (entry : SignerEntry) : Except Failure (List (String × String)) := do
  let signerStr ← svd.bytesToString entry.1
  let sigBzs ← signatureDataToBz svd.marshalMultiSignature entry.2.1.data
  .ok (("acc_seq", signerStr ++ "/" ++ toString entry.2.1.sequence) ::
    sigBzs.map (fun sigBz => ("signature", svd.encodeToString sigBz)))

/-- Every attribute is emitted as an event of its own, once all are known. -/
def emitEvents (entries : List SignerEntry) : Except Failure Unit := do
  let attributes ← entries.mapM svd.signerAttributes
  attributes.flatten.forM (fun attr => svd.emitKV "tx" [attr])

def validateTx (verifySignature : SignatureVerifier) (ctx : Ctx)
    (tx : Tx) (st : AnteState) : Except Failure AnteState := do
  let entries ← svd.signerEntries tx
  let st' ← svd.authenticateAll verifySignature ctx tx 0 entries st
  svd.emitEvents entries
  .ok st'

end SigVerificationDecorator

end CosmosSDK.Auth
