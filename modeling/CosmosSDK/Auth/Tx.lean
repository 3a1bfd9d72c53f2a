import CosmosSDK.Auth.Account

/-!
# Signatures of a transaction

The part of a decoded transaction that authentication reads, with the accessors
of `x/auth/tx/gogotx.go`.  Signer infos and raw signatures are matched by
position; a signer info without mode gives a signature without data.
-/

namespace CosmosSDK.Auth

open Store

inductive SignMode where
  | unspecified
  | direct
  | textual
  | directAux
  | legacyAminoJSON
deriving DecidableEq

/-- `cryptotypes.CompactBitArray`. -/
structure CompactBitArray where
  extraBitsStored : UInt32
  elems : Bytes

/-- `signing.SignatureData`, with `nil` for the nil interface. -/
inductive SignatureData where
  | nil
  | single (signMode : SignMode) (signature : Bytes)
  | multi (bitArray : CompactBitArray) (signatures : List SignatureData)

/-- `ModeInfo`; `unset` is a nil pointer or a nil sum. -/
inductive ModeInfo where
  | unset
  | single (mode : SignMode)
  | multi (bitarray : Option CompactBitArray) (modeInfos : List ModeInfo)

structure SignerInfo where
  /-- the packed key as `decodeFromAny` gives it, if there is one -/
  publicKey : Option (Except Failure PubKey)
  modeInfo : ModeInfo
  sequence : UInt64

structure SignatureV2 where
  pubKey : Option PubKey
  data : SignatureData
  sequence : UInt64

/-- A decoded transaction.  The decoder lists each signer once. -/
structure Tx where
  signers : List AccAddress
  signers_nodup : signers.Nodup
  signerInfos : List SignerInfo
  signatures : List Bytes
  unordered : Bool
  /-- what the sign mode handlers read -/
  txData : Bytes

mutual

def modeInfoAndSigToSignatureData (decodeMultisignatures : Bytes → Except Failure (List Bytes)) :
    ModeInfo → Bytes → Except Failure SignatureData
  | .unset, _ => .error (.panic "unexpected ModeInfo data type")
  | .single mode, sig => .ok (.single mode sig)
  | .multi bitarray modeInfos, sig =>
    match decodeMultisignatures sig with
    | .error e => .error e
    | .ok sigs =>
      match modeInfosAndSigs decodeMultisignatures modeInfos sigs with
      | .error e => .error e
      | .ok sigv2s =>
        match bitarray with
        | none => .error (.panic "nil pointer dereference")
        | some bitArray => .ok (.multi bitArray sigv2s)

/-- The loop over the mode infos: one signature each, and nil for those left over. -/
def modeInfosAndSigs (decodeMultisignatures : Bytes → Except Failure (List Bytes)) :
    List ModeInfo → List Bytes → Except Failure (List SignatureData)
  | [], sigs => .ok (sigs.map fun _ => .nil)
  | _ :: _, [] => .error (.panic "index out of range")
  | modeInfo :: modeInfos, sig :: sigs =>
    match modeInfoAndSigToSignatureData decodeMultisignatures modeInfo sig with
    | .error e => .error e
    | .ok data =>
      match modeInfosAndSigs decodeMultisignatures modeInfos sigs with
      | .error e => .error e
      | .ok datas => .ok (data :: datas)

end

namespace Tx

/-- `GetPubKeys`: nil for a signer info without key. -/
def getPubKeys (tx : Tx) : Except Failure (List (Option PubKey)) :=
  tx.signerInfos.mapM fun si =>
    match si.publicKey with
    | none => .ok none
    | some (.ok pk) => .ok (some pk)
    | some (.error e) => .error e

def getSignatureV2 (tx : Tx) (decodeMultisignatures : Bytes → Except Failure (List Bytes))
    (i : Nat) (si : SignerInfo) (pubKey : Option PubKey) : Except Failure SignatureV2 :=
  match si.modeInfo with
  | .unset => .ok ⟨pubKey, .nil, 0⟩
  | modeInfo =>
    match tx.signatures[i]? with
    | none => .error (.panic "index out of range")
    | some sig =>
      match modeInfoAndSigToSignatureData decodeMultisignatures modeInfo sig with
      | .error e => .error e
      | .ok data => .ok ⟨pubKey, data, si.sequence⟩

def getSignaturesV2 (tx : Tx) (decodeMultisignatures : Bytes → Except Failure (List Bytes)) :
    Except Failure (List SignatureV2) :=
  match tx.getPubKeys with
  | .error e => .error e
  | .ok pubKeys =>
    (tx.signerInfos.zip pubKeys).zipIdx.mapM fun ((si, pubKey), i) =>
      tx.getSignatureV2 decodeMultisignatures i si pubKey

end Tx

mutual

def onlyLegacyAminoSigners : SignatureData → Bool
  | .nil => false
  | .single signMode _ => signMode = .legacyAminoJSON
  | .multi _ signatures => allLegacyAminoSigners signatures

def allLegacyAminoSigners : List SignatureData → Bool
  | [] => true
  | s :: signatures => onlyLegacyAminoSigners s && allLegacyAminoSigners signatures

end

mutual

/-- `signatureDataToBz`: the raw signatures, for a multisignature with the
aggregated one behind. -/
def signatureDataToBz (marshal : List Bytes → Except Failure Bytes) :
    SignatureData → Except Failure (List Bytes)
  | .nil => .error .emptySignatureData
  | .single _ signature => .ok [signature]
  | .multi _ signatures =>
    match signatureDatasToBz marshal signatures with
    | .error e => .error e
    | .ok sigs =>
      match marshal sigs with
      | .error e => .error e
      | .ok aggregatedSig => .ok (sigs ++ [aggregatedSig])

def signatureDatasToBz (marshal : List Bytes → Except Failure Bytes) :
    List SignatureData → Except Failure (List Bytes)
  | [] => .ok []
  | d :: signatures =>
    match signatureDataToBz marshal d with
    | .error e => .error e
    | .ok nestedSigs =>
      match signatureDatasToBz marshal signatures with
      | .error e => .error e
      | .ok sigs => .ok (nestedSigs ++ sigs)

end

end CosmosSDK.Auth
