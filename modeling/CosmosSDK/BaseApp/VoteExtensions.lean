import CosmosSDK.Lib.Fallible
import CosmosSDK.Store.MemIterator
import Mathlib.Algebra.Order.BigOperators.Group.List

/-!
# Vote extensions

`ValidateVoteExtensionsWithParams` of `baseapp/abci_utils.go`: the extended commit of a
proposal is compared with the last commit, the extension signatures are verified, and
their voting power must be more than two thirds of the total.  Votes that are not flagged
as commit votes count for the total only; what they carry is not looked at.
-/

namespace CosmosSDK.BaseApp

open Store Fallible List

/-- `cmtproto.BlockIDFlag`. -/
inductive BlockIDFlag where
  | unknown
  | absent
  | commit
  | nil
deriving DecidableEq

/-- `abci.Validator`. -/
structure VoteValidator where
  address : Bytes
  power : Int
deriving DecidableEq

structure ExtendedVoteInfo where
  validator : VoteValidator
  voteExtension : Bytes
  extensionSignature : Bytes
  blockIdFlag : BlockIDFlag

structure ExtendedCommitInfo where
  round : Int
  votes : List ExtendedVoteInfo

/-- `comet.CommitInfo`; the flags of its votes are not read. -/
structure CommitInfo where
  round : Int
  votes : List VoteValidator

/-- `VoteExtensionsEnableHeight` of `Feature` and of the deprecated `Abci`, where set. -/
structure ConsensusParams where
  feature : Option (Option Int)
  abci : Option Int

structure CanonicalVoteExtension where
  extension : Bytes
  height : Int
  round : Int
  chainId : String

/-- `header.Info`. -/
structure BlockHeader where
  height : Int
  chainId : String

/-- The validator store, the conversions of its keys, the encoding of what is signed, and
signatures. -/
structure ExtensionKeys (PubKey : Type) where
  getPubKeyByConsAddr : Bytes → Except String PubKey
  marshalDelimited : CanonicalVoteExtension → Except String Bytes
  verifySignature : PubKey → Bytes → Bytes → Bool

inductive VoteExtensionErr where
  | roundMismatch (extended last : Int)
  | lengthMismatch (extended last : Nat)
  | notSorted
  | duplicated (address : Bytes)
  | addressMismatch (extended last : Bytes)
  | powerMismatch (extended last : Int)
  | disabledExtension (height : Int)
  | disabledSignature (height : Int)
  | emptySignature (height : Int)
  | publicKey (address : Bytes) (text : String)
  | encoding (text : String)
  | invalidSignature (address : Bytes)
  | totalNotPositive (totalVP : Int)
  | insufficientPower (got expected : Int)

/-- The value of an `int64` computation. -/
def wrap64 (x : Int) : Int := x.bmod (2 ^ 64)

/-! ## The last commit -/

/-- The order of two votes: descending by power, then ascending by address. -/
def voteBefore (vote1 vote2 : ExtendedVoteInfo) : Bool :=
  if vote1.validator.power = vote2.validator.power then
    compare vote1.validator.address vote2.validator.address = .lt
  else wrap64 (-wrap64 (vote1.validator.power - vote2.validator.power)) < 0

/-- `slices.IsSortedFunc`. -/
def isSortedFunc : List ExtendedVoteInfo → Bool
  | vote1 :: vote2 :: votes => !voteBefore vote2 vote1 && isSortedFunc (vote2 :: votes)
  | _ => true

def checkConsistency :
    List Bytes → List ExtendedVoteInfo → List VoteValidator → Except VoteExtensionErr Unit
  | addressCache, vote :: votes, last :: lasts =>
    if vote.validator.address ∈ addressCache then .error (.duplicated vote.validator.address)
    else if vote.validator.address ≠ last.address then
      .error (.addressMismatch vote.validator.address last.address)
    else if vote.validator.power ≠ last.power then
      .error (.powerMismatch vote.validator.power last.power)
    else checkConsistency (vote.validator.address :: addressCache) votes lasts
  | _, _, _ => .ok ()

def validateExtendedCommitAgainstLastCommit (ec : ExtendedCommitInfo) (lc : CommitInfo) :
    Except VoteExtensionErr Unit :=
  if ec.round ≠ lc.round then .error (.roundMismatch ec.round lc.round)
  else if ec.votes.length ≠ lc.votes.length then
    .error (.lengthMismatch ec.votes.length lc.votes.length)
  else if !isSortedFunc ec.votes then .error .notSorted
  else checkConsistency [] ec.votes lc.votes

/-! ## The votes -/

/-- Extensions are checked after the height that enables them. -/
def ConsensusParams.extsEnabled (cp : ConsensusParams) (currentHeight : Int) : Bool :=
  (match cp.feature with
    | some (some height) => decide (height < currentHeight ∧ height ≠ 0)
    | _ => false) ||
  match cp.abci with
    | some height => decide (height < currentHeight ∧ height ≠ 0)
    | none => false

variable {PubKey : Type}

section

variable (keys : ExtensionKeys PubKey) (enabled : Bool) (header : BlockHeader) (round : Int)

/-- What the signature of a vote has to sign. -/
def canonicalVoteExtension (vote : ExtendedVoteInfo) : CanonicalVoteExtension :=
  ⟨vote.voteExtension, header.height - 1, round, header.chainId⟩

/-- The body of the loop, on `totalVP` and `sumVP`. -/
def checkVote (acc : Int × Int) (vote : ExtendedVoteInfo) : Except VoteExtensionErr (Int × Int) :=
  let totalVP := wrap64 (acc.1 + vote.validator.power)
  if vote.blockIdFlag ≠ .commit then .ok (totalVP, acc.2)
  else if !enabled then
    if vote.voteExtension ≠ [] then .error (.disabledExtension header.height)
    else if vote.extensionSignature ≠ [] then .error (.disabledSignature header.height)
    else .ok (totalVP, acc.2)
  else if vote.extensionSignature = [] then .error (.emptySignature header.height)
  else
    match keys.getPubKeyByConsAddr vote.validator.address with
    | .error text => .error (.publicKey vote.validator.address text)
    | .ok cmtPubKey =>
      match keys.marshalDelimited (canonicalVoteExtension header round vote) with
      | .error text => .error (.encoding text)
      | .ok extSignBytes =>
        if keys.verifySignature cmtPubKey extSignBytes vote.extensionSignature then
          .ok (totalVP, wrap64 (acc.2 + vote.validator.power))
        else .error (.invalidSignature vote.validator.address)

def verifies (vote : ExtendedVoteInfo) : Bool :=
  match keys.getPubKeyByConsAddr vote.validator.address,
      keys.marshalDelimited (canonicalVoteExtension header round vote) with
  | .ok cmtPubKey, .ok extSignBytes =>
    keys.verifySignature cmtPubKey extSignBytes vote.extensionSignature
  | _, _ => false

end

def validateVoteExtensionsWithParams (keys : ExtensionKeys PubKey) (cp : ConsensusParams)
    (header : BlockHeader) (lastCommit : CommitInfo) (extCommit : ExtendedCommitInfo) :
    Except VoteExtensionErr Unit := do
  validateExtendedCommitAgainstLastCommit extCommit lastCommit
  let (totalVP, sumVP) ← extCommit.votes.foldlM
    (checkVote keys (cp.extsEnabled header.height) header extCommit.round) (0, 0)
  if totalVP ≤ 0 then .error (.totalNotPositive totalVP)
  else
    let requiredVP := wrap64 ((wrap64 (totalVP * 2)).tdiv 3 + 1)
    if sumVP < requiredVP then .error (.insufficientPower sumVP requiredVP)
    else .ok ()

/-! ## What is accepted -/

def powerOf (votes : List ExtendedVoteInfo) : Int := (votes.map (·.validator.power)).sum

theorem wrap64_of_lt {x : Int} (h0 : 0 ≤ x) (h : x < 2 ^ 63) : wrap64 x = x := by
  apply Int.bmod_eq_of_le
  · omega
  · omega

variable {votes : List ExtendedVoteInfo}

theorem checkConsistency_ok {cache : List Bytes} {lasts : List VoteValidator}
    (hlength : votes.length = lasts.length) (h : checkConsistency cache votes lasts = .ok ()) :
    votes.map (·.validator) = lasts ∧ (votes.map (·.validator.address)).Nodup ∧
      ∀ vote ∈ votes, vote.validator.address ∉ cache := by
  induction votes generalizing cache lasts with
  | nil => simpa [eq_comm] using hlength
  | cons vote votes ih =>
    cases lasts with
    | nil => simp at hlength
    | cons last =>
      simp only [checkConsistency, refuse_eq_ok, ne_eq, not_not] at h
      obtain ⟨hnew, _, _, h⟩ := h
      obtain ⟨hsame, hnodup, hapart⟩ := ih (by simpa using hlength) h
      have hlast : vote.validator = last := by
        cases hvote : vote.validator
        cases last
        simp_all
      refine ⟨by simp [hlast, hsame], ?_, ?_⟩
      · rw [map_cons, nodup_cons]
        refine ⟨?_, hnodup⟩
        intro hmem
        obtain ⟨other, hother, heq⟩ := mem_map.mp hmem
        exact hapart other hother (by simp [heq])
      · intro other hother
        rcases mem_cons.mp hother with rfl | hother
        · exact hnew
        · intro hcache
          exact hapart other hother (mem_cons_of_mem _ hcache)

variable {keys : ExtensionKeys PubKey} {header : BlockHeader} {round : Int}

theorem checkVote_ok {vote : ExtendedVoteInfo} {acc acc' : Int × Int}
    (h : checkVote keys true header round acc vote = .ok acc') :
    acc'.1 = wrap64 (acc.1 + vote.validator.power) ∧
      ((vote.blockIdFlag ≠ .commit ∧ acc'.2 = acc.2) ∨ (verifies keys header round vote = true ∧
          acc'.2 = wrap64 (acc.2 + vote.validator.power))) := by
  simp only [checkVote] at h
  split at h
  · cases h
    exact ⟨rfl, .inl ⟨‹_›, rfl⟩⟩
  · simp only [Bool.not_true, Bool.false_eq_true, if_false, refuse_eq_ok] at h
    obtain ⟨-, h⟩ := h
    split at h
    · simp at h
    · rename_i cmtPubKey hkey
      split at h
      · simp at h
      · rename_i extSignBytes hbytes
        obtain ⟨hverify, h⟩ := require_eq_ok.mp h
        cases h
        exact ⟨rfl, .inr ⟨by simp [verifies, hkey, hbytes, hverify], rfl⟩⟩

theorem powerOf_nonneg (hpower : ∀ vote ∈ votes, 0 ≤ vote.validator.power) : 0 ≤ powerOf votes :=
  sum_nonneg (by simpa using hpower)

theorem checkVotes_ok {t s t' s' : Int} (hpower : ∀ vote ∈ votes, 0 ≤ vote.validator.power)
    (hs : 0 ≤ s) (hle : s ≤ t) (hbound : t + powerOf votes < 2 ^ 60)
    (h : votes.foldlM (checkVote keys true header round) (t, s) = .ok (t', s')) :
    t' = t + powerOf votes ∧ s' ≤ s + powerOf (votes.filter (verifies keys header round)) ∧
      ∀ vote ∈ votes, vote.blockIdFlag = .commit → verifies keys header round vote = true := by
  induction votes generalizing t s with
  | nil =>
    cases h
    simp [powerOf]
  | cons vote votes ih =>
    rw [foldlM_cons] at h
    obtain ⟨⟨_, _⟩, hvote, h⟩ := bind_eq_ok.mp h
    obtain ⟨_, hpower⟩ := forall_mem_cons.mp hpower
    have hrest := powerOf_nonneg hpower
    have hcons : powerOf (vote :: votes) = vote.validator.power + powerOf votes := rfl
    obtain ⟨ht1, hs1⟩ := checkVote_ok hvote
    rw [wrap64_of_lt (by omega) (by omega)] at ht1
    rw [wrap64_of_lt (by omega) (by omega)] at hs1
    obtain ⟨_, _, hverified⟩ := ih hpower (by omega) (by omega) (by omega) h
    refine ⟨by omega, ?_, ?_⟩
    · rw [filter_cons]
      split
      · have : powerOf (vote :: votes.filter (verifies keys header round)) =
            vote.validator.power + powerOf (votes.filter (verifies keys header round)) := rfl
        omega
      · rename_i hfails
        rcases hs1 with ⟨-, hs1⟩ | ⟨hverify, -⟩
        · omega
        · exact absurd hverify hfails
    · refine forall_mem_cons.mpr ⟨fun hcommit => ?_, hverified⟩
      rcases hs1 with ⟨hflag, -⟩ | ⟨hverify, -⟩
      · exact absurd hcommit hflag
      · exact hverify

/-- A proposal that is accepted: nobody votes twice, and the signatures that verify hold
more than two thirds of the power of the last commit.  Every extension and every signature
is verified if and only if those on votes that are not commit votes are. -/
theorem validateVoteExtensions_sound (keys : ExtensionKeys PubKey) (cp : ConsensusParams)
    (header : BlockHeader) (lastCommit : CommitInfo) (extCommit : ExtendedCommitInfo)
    (henabled : cp.extsEnabled header.height = true) (hpower : ∀ v ∈ lastCommit.votes, 0 ≤ v.power)
    (htotal : (lastCommit.votes.map (·.power)).sum < 2 ^ 60)
    (h : validateVoteExtensionsWithParams keys cp header lastCommit extCommit = .ok ()) :
    (extCommit.votes.map (·.validator.address)).Nodup ∧ 2 * (lastCommit.votes.map (·.power)).sum <
      3 * powerOf (extCommit.votes.filter (verifies keys header extCommit.round)) ∧
    ((∀ vote ∈ extCommit.votes, vote.voteExtension ≠ [] ∨ vote.extensionSignature ≠ [] →
        verifies keys header extCommit.round vote = true) ↔
      ∀ vote ∈ extCommit.votes, vote.blockIdFlag ≠ .commit →
        vote.voteExtension ≠ [] ∨ vote.extensionSignature ≠ [] →
          verifies keys header extCommit.round vote = true) := by
  obtain ⟨⟨⟩, hlast, h⟩ := bind_eq_ok.mp h
  obtain ⟨⟨totalVP, _⟩, hvotes, h⟩ := bind_eq_ok.mp h
  simp only [validateExtendedCommitAgainstLastCommit, refuse_eq_ok, ne_eq, not_not] at hlast
  obtain ⟨-, hlength, -, hlast⟩ := hlast
  obtain ⟨hsame, hnodup, -⟩ := checkConsistency_ok hlength hlast
  have hpowers : (lastCommit.votes.map (·.power)).sum = powerOf extCommit.votes := by
    rw [← hsame, map_map]
    rfl
  have hnonneg : ∀ vote ∈ extCommit.votes, 0 ≤ vote.validator.power := by
    intro vote hvote
    apply hpower
    rw [← hsame]
    exact mem_map_of_mem hvote
  rw [henabled] at hvotes
  obtain ⟨_, _, hverified⟩ :=
    checkVotes_ok hnonneg le_rfl le_rfl (by omega) hvotes
  simp only [refuse_eq_ok, not_lt, not_le] at h
  obtain ⟨_, hrequired, -⟩ := h
  rw [wrap64_of_lt (x := totalVP * 2) (by omega) (by omega),
    Int.tdiv_eq_ediv_of_nonneg (by omega), wrap64_of_lt (by omega) (by omega)] at hrequired
  refine ⟨hnodup, by omega, fun hall vote hvote _ => hall vote hvote, ?_⟩
  intro hothers vote hvote hcarries
  by_cases hcommit : vote.blockIdFlag = .commit
  · exact hverified vote hvote hcommit
  · exact hothers vote hvote hcommit hcarries

/-! ## A proposal of three votes -/

def plainKeys : ExtensionKeys Bytes where
  getPubKeyByConsAddr address := .ok address
  marshalDelimited cve := .ok cve.extension
  verifySignature key bytes signature := signature = key ++ bytes

/-- Two votes for the block, and one for nil that carries `extension` and `signature`. -/
def nilVoteCommit (extension signature : Bytes) : ExtendedCommitInfo :=
  ⟨0, [⟨⟨[1], 10⟩, [7], [1, 7], .commit⟩, ⟨⟨[2], 9⟩, [8], [2, 8], .commit⟩,
    ⟨⟨[3], 5⟩, extension, signature, .nil⟩]⟩

def threeVotes : CommitInfo := ⟨0, [⟨[1], 10⟩, ⟨[2], 9⟩, ⟨[3], 5⟩]⟩

theorem nilVote_without_extension_sound :
    validateVoteExtensionsWithParams plainKeys ⟨some (some 1), none⟩ ⟨5, "chain"⟩ threeVotes
      (nilVoteCommit [] []) = .ok () ∧
    ∀ vote ∈ (nilVoteCommit [] []).votes, vote.voteExtension ≠ [] ∨ vote.extensionSignature ≠ [] →
      verifies plainKeys ⟨5, "chain"⟩ 0 vote = true := by
  refine ⟨rfl, (validateVoteExtensions_sound plainKeys ⟨some (some 1), none⟩ ⟨5, "chain"⟩ threeVotes
    (nilVoteCommit [] []) rfl (by decide) (by decide) rfl).2.2.mpr ?_⟩
  simp [nilVoteCommit]

/-- An extension with a wrong signature is accepted on a vote for nil. -/
theorem nilVote_with_extension_accepted :
    validateVoteExtensionsWithParams plainKeys ⟨some (some 1), none⟩ ⟨5, "chain"⟩ threeVotes
      (nilVoteCommit [9] [0]) = .ok () ∧
    verifies plainKeys ⟨5, "chain"⟩ 0 ⟨⟨[3], 5⟩, [9], [0], .nil⟩ = false :=
  ⟨rfl, rfl⟩

end CosmosSDK.BaseApp
