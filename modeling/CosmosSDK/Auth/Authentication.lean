import CosmosSDK.Auth.SigVerify
import CosmosSDK.Lib.Fallible

/-!
# Who signed a transaction

What one accepted signer does to the records, and from it what an accepted
transaction says about its signers.  A signer without record is looked up by the
address of the key in the transaction instead of its own address, so the result
needs that those agree.
-/

namespace CosmosSDK.Auth

open Store Fallible List AccountKeeper Except

namespace SigVerificationDecorator

variable {svd : SigVerificationDecorator} {verify : SignatureVerifier} {ctx : Ctx} {tx : Tx}

/-! ## One signer -/

/-- The account a signer is authenticated with: its record, or a new account for
the address of the key in the transaction. -/
inductive Opens (svd : SigVerificationDecorator) (ak : AccountKeeper) (signer : AccAddress)
    (txPubKey : Option PubKey) : Account → Bool → Prop
  | stored {acc : Account} : ak.getAccount signer = some acc → Opens svd ak signer txPubKey acc false
  | created {key : PubKey} : ak.getAccount signer = none → txPubKey = some key →
      Opens svd ak signer txPubKey ⟨svd.address key, none, ak.nextAccountNumber, 0, false⟩ true

/-- The key of the account is its own, or one the transaction sets. -/
inductive Keyed (svd : SigVerificationDecorator) (ctx : Ctx) (txPubKey : Option PubKey)
    (acc : Account) : Account → Prop
  | kept : acc.pubKey ≠ none ∨ ctx.isSigverifyTx = false → Keyed svd ctx txPubKey acc acc
  | simulated : ctx.execMode = .simulate →
      Keyed svd ctx txPubKey acc { acc with pubKey := some simSecp256k1Pubkey }
  | claimed {key : PubKey} : txPubKey = some key → svd.address key = acc.address →
      Keyed svd ctx txPubKey acc { acc with pubKey := some key }

/-- A signer of `x/auth` is accepted: the account `acc` is opened, keyed and
verified, and its record is the only one written. -/
structure Accepts (svd : SigVerificationDecorator) (verify : SignatureVerifier) (ctx : Ctx)
    (tx : Tx) (entry : SignerEntry) (ak ak' : AccountKeeper) (opened acc : Account)
    (newlyCreated : Bool) : Prop where
  opens : Opens svd ak entry.1 entry.2.2 opened newlyCreated
  keyed : Keyed svd ctx entry.2.2 opened acc
  verified : verifySig verify ctx tx acc entry.2.1 newlyCreated = .ok ()
  written : ∀ addr, ak'.getAccount addr =
    if addr = acc.address then some (increaseSequence tx acc) else ak.getAccount addr

variable {ak ak' : AccountKeeper} {txPubKey : Option PubKey} {acc acc' : Account}
  {newlyCreated : Bool} {entry : SignerEntry} {st st' st₁ : AnteState} {i : Nat} {addr : AccAddress}
  {entries : List SignerEntry} {sig : SignatureV2} {verify' : SignatureVerifier}

theorem signerAccount_ok {signer : AccAddress}
    (h : svd.signerAccount ak signer txPubKey = .ok (acc, newlyCreated, ak')) :
    Opens svd ak signer txPubKey acc newlyCreated ∧
      ∀ addr, ak'.getAccount addr = ak.getAccount addr := by
  unfold signerAccount at h
  cases hacc : ak.getAccount signer with
  | some =>
    simp only [hacc, ok.injEq, Prod.mk.injEq] at h
    obtain ⟨rfl, rfl, rfl⟩ := h
    exact ⟨.stored hacc, fun _ => rfl⟩
  | none =>
    cases txPubKey with
    | none => simp [hacc] at h
    | some =>
      simp only [hacc, newAccountWithAddress, ok.injEq, Prod.mk.injEq] at h
      obtain ⟨rfl, rfl, rfl⟩ := h
      exact ⟨.created hacc rfl, fun _ => rfl⟩

theorem setPubKey_account {key : PubKey} (h : acc.setPubKey key = .ok acc') :
    acc' = { acc with pubKey := some key } := by
  unfold Account.setPubKey at h
  split at h
  · simp at h
  · exact (ok.inj h).symm

theorem setPubKey_ok (h : svd.setPubKey ctx acc txPubKey = .ok acc') :
    Keyed svd ctx txPubKey acc acc' := by
  unfold setPubKey at h
  split at h
  · cases h
    exact .kept (.inr (by simpa using ‹(!ctx.isSigverifyTx) = true›))
  · cases txPubKey with
    | none =>
      simp only at h
      split at h
      · simp at h
      · rw [setPubKey_account h]
        exact .simulated (by simpa using ‹¬ctx.execMode ≠ .simulate›)
    | some key =>
      simp only at h
      split at h
      · simp at h
      · split at h
        · simp at h
        · rw [setPubKey_account h]
          exact .claimed rfl (by simpa [eq_comm] using ‹¬acc.address ≠ svd.address key›)

theorem ensurePubKey_ok (h : svd.ensurePubKey ctx acc txPubKey = .ok acc') :
    Keyed svd ctx txPubKey acc acc' := by
  unfold ensurePubKey at h
  split at h
  · exact setPubKey_ok h
  · cases h
    exact .kept (.inl (by simpa using ‹¬acc.pubKey.isNone = true›))

theorem Keyed.address (h : Keyed svd ctx txPubKey acc acc') :
    acc'.address = acc.address ∧ acc'.sequence = acc.sequence := by
  cases h <;> exact ⟨rfl, rfl⟩

@[simp] theorem increaseSequence_address (acc : Account) :
    (increaseSequence tx acc).address = acc.address := by
  unfold increaseSequence
  split <;> rfl

theorem authenticateAccount_ok
    (h : svd.authenticateAccount verify ctx tx entry.1 entry.2.1 entry.2.2 st = .ok st') :
    ∃ opened acc newlyCreated,
      Accepts svd verify ctx tx entry st.ak st'.ak opened acc newlyCreated := by
  simp only [authenticateAccount, bind_eq_ok] at h
  obtain ⟨⟨opened, newlyCreated, _⟩, hopen, acc, hkey, _, -, ⟨⟩, hverify, _, hset, h⟩ := h
  cases h
  obtain ⟨hopens, hak⟩ := signerAccount_ok hopen
  refine ⟨opened, acc, newlyCreated, hopens, ensurePubKey_ok hkey, hverify, fun addr => ?_⟩
  rw [getAccount_setAccount hset, increaseSequence_address, hak]

/-- An accepted signer is abstracted and nothing is written, or its account is. -/
theorem authenticate_ok
    (h : svd.authenticate verify ctx tx entry.1 entry.2.1 entry.2.2 i st = .ok st') :
    (svd.isAbstractedAccount entry.1 = .ok true ∧ st' = st) ∨
    (svd.isAbstractedAccount entry.1 = .ok false ∧ ∃ opened acc newlyCreated,
      Accepts svd verify ctx tx entry st.ak st'.ak opened acc newlyCreated) := by
  simp only [authenticate, bind_eq_ok] at h
  obtain ⟨isAa, hAa, h⟩ := h
  cases isAa with
  | false => exact .inr ⟨hAa, authenticateAccount_ok h⟩
  | true =>
    cases haa : svd.aaKeeper with
    | none => simp [isAbstractedAccount, haa] at hAa
    | some =>
      simp only [haa, bind_eq_ok] at h
      obtain ⟨-, -, h⟩ := h
      exact .inl ⟨hAa, (ok.inj h).symm⟩

/-- A signer of `x/auth` without record has a key with its own address in the
transaction. -/
def KeyMatches (svd : SigVerificationDecorator) (ak : AccountKeeper) (entry : SignerEntry) : Prop :=
  svd.isAbstractedAccount entry.1 = .ok false → ak.getAccount entry.1 = none →
    ∃ key, entry.2.2 = some key ∧ svd.address key = entry.1

theorem KeyMatches.congr (h : ak'.getAccount entry.1 = ak.getAccount entry.1) :
    KeyMatches svd ak' entry ↔ KeyMatches svd ak entry := by
  simp only [KeyMatches, h]

section Accepts

variable {entry : SignerEntry} {ak ak' : AccountKeeper} {opened acc : Account} {newlyCreated : Bool}

theorem Accepts.address_of_match (h : Accepts svd verify ctx tx entry ak ak' opened acc newlyCreated)
    (hAa : svd.isAbstractedAccount entry.1 = .ok false) (hmatch : KeyMatches svd ak entry) :
    acc.address = entry.1 := by
  rw [h.keyed.address.1]
  cases h.opens with
  | stored hacc => exact address_getAccount hacc
  | created hnone hkey =>
    obtain ⟨_, hkey', haddr⟩ := hmatch hAa hnone
    obtain rfl := Option.some.inj (hkey.symm.trans hkey')
    exact haddr

theorem Accepts.getAccount_ne_none
    (h : Accepts svd verify ctx tx entry ak ak' opened acc newlyCreated)
    (hne : ak.getAccount addr ≠ none) : ak'.getAccount addr ≠ none := by
  rw [h.written]
  split
  · simp
  · exact hne

end Accepts

/-! ## All signers -/

theorem authenticate_frame
    (h : svd.authenticate verify ctx tx entry.1 entry.2.1 entry.2.2 i st = .ok st')
    (hmatch : KeyMatches svd st.ak entry) (hne : addr ≠ entry.1) :
    st'.ak.getAccount addr = st.ak.getAccount addr := by
  rcases authenticate_ok h with ⟨-, rfl⟩ | ⟨hAa, opened, acc, newlyCreated, hacc⟩
  · rfl
  · rw [hacc.written, hacc.address_of_match hAa hmatch, if_neg hne]

theorem authenticateAll_cons
    (h : svd.authenticateAll verify ctx tx i (entry :: entries) st = .ok st') :
    ∃ st₁, svd.authenticate verify ctx tx entry.1 entry.2.1 entry.2.2 i st = .ok st₁ ∧
      svd.authenticateAll verify ctx tx (i + 1) entries st₁ = .ok st' := by
  obtain ⟨_, _, _⟩ := entry
  simpa only [authenticateAll, bind_eq_ok] using h

def KeysMatch (svd : SigVerificationDecorator) (ak : AccountKeeper) (entries : List SignerEntry) :
    Prop :=
  ∀ entry ∈ entries, KeyMatches svd ak entry

theorem signer_ne {e : SignerEntry} (hnodup : ((entry :: entries).map Prod.fst).Nodup)
    (he : e ∈ entries) : e.1 ≠ entry.1 := by
  intro heq
  rw [map_cons, nodup_cons] at hnodup
  exact hnodup.1 (heq ▸ mem_map_of_mem he)

/-- Matching of the remaining signers does not change with an accepted one. -/
theorem KeysMatch.tail (hmatch : KeysMatch svd st.ak (entry :: entries))
    (hnodup : ((entry :: entries).map Prod.fst).Nodup)
    (h : svd.authenticate verify ctx tx entry.1 entry.2.1 entry.2.2 i st = .ok st₁) :
    KeysMatch svd st₁.ak entries := by
  intro e he
  have hframe := authenticate_frame h (hmatch entry (mem_cons_self ..)) (signer_ne hnodup he)
  exact (KeyMatches.congr hframe).mpr (hmatch e (mem_cons_of_mem _ he))

theorem authenticateAll_frame (h : svd.authenticateAll verify ctx tx i entries st = .ok st')
    (hnodup : (entries.map Prod.fst).Nodup) (hmatch : KeysMatch svd st.ak entries)
    (hne : addr ∉ entries.map Prod.fst) : st'.ak.getAccount addr = st.ak.getAccount addr := by
  induction entries generalizing i st with
  | nil =>
    cases h
    rfl
  | cons entry entries ih =>
    obtain ⟨_, hstep, hrest⟩ := authenticateAll_cons h
    rw [map_cons, mem_cons, not_or] at hne
    rw [ih hrest (nodup_cons.mp hnodup).2 (hmatch.tail hnodup hstep) hne.2]
    exact authenticate_frame hstep (hmatch entry (mem_cons_self ..)) hne.1

theorem authenticateAll_getAccount_ne_none
    (h : svd.authenticateAll verify ctx tx i entries st = .ok st')
    (hne : st.ak.getAccount addr ≠ none) : st'.ak.getAccount addr ≠ none := by
  induction entries generalizing i st with
  | nil =>
    cases h
    exact hne
  | cons entry entries ih =>
    obtain ⟨_, hstep, hrest⟩ := authenticateAll_cons h
    refine ih hrest ?_
    rcases authenticate_ok hstep with ⟨-, rfl⟩ | ⟨-, opened, acc, newlyCreated, hacc⟩
    · exact hne
    · exact hacc.getAccount_ne_none hne

/-! ## Signed by whom -/

/-- The signature of the entry is good for a key of its signer: the one stored in
the signer's account, or one with the signer's address. -/
def SignedBy (svd : SigVerificationDecorator) (verify : SignatureVerifier) (ctx : Ctx) (tx : Tx)
    (ak : AccountKeeper) (entry : SignerEntry) : Prop :=
  ∃ (key : PubKey) (accountNumber : UInt64),
    verify key ⟨entry.1, ctx.chainID, accountNumber, entry.2.1.sequence, key⟩ entry.2.1.data
      tx.txData = none ∧
    ((∃ acc, ak.getAccount entry.1 = some acc ∧ acc.pubKey = some key) ∨ svd.address key = entry.1)

/-- The mode in which blocks are executed, with signature verification on. -/
structure Verifying (ctx : Ctx) : Prop where
  finalize : ctx.execMode = .finalize
  noReCheck : ctx.isReCheckTx = false
  sigverify : ctx.isSigverifyTx = true

variable (hctx : Verifying ctx)
include hctx

theorem verifySig_ok
    (h : verifySig verify ctx tx acc sig newlyCreated = .ok ()) : ∃ key, acc.pubKey = some key ∧
      verify key (signerData ctx acc sig newlyCreated key) sig.data tx.txData = none := by
  unfold verifySig at h
  split at h
  · simp at h
  · simp only [hctx.finalize, hctx.noReCheck, hctx.sigverify, reduceCtorEq, Bool.false_eq_true,
      Bool.not_true, or_self, if_false] at h
    split at h
    · simp at h
    · refine ⟨_, ‹_›, ?_⟩
      split at h
      · assumption
      · simp at h

theorem Accepts.signedBy {opened : Account}
    (h : Accepts svd verify ctx tx entry ak ak' opened acc newlyCreated)
    (haddr : acc.address = entry.1) : SignedBy svd verify ctx tx ak entry := by
  obtain ⟨key, hkey, hgood⟩ := verifySig_ok hctx h.verified
  rw [signerData, haddr] at hgood
  refine ⟨key, _, hgood, ?_⟩
  cases h.keyed with
  | kept =>
    cases h.opens with
    | stored hacc => exact .inl ⟨_, hacc, hkey⟩
    | created => simp at hkey
  | simulated hsim => simp [hctx.finalize] at hsim
  | claimed _ hclaim =>
    cases hkey
    exact .inr (hclaim.trans haddr)

theorem authenticateAll_signedBy (h : svd.authenticateAll verify ctx tx i entries st = .ok st')
    (hnodup : (entries.map Prod.fst).Nodup) (hmatch : KeysMatch svd st.ak entries) :
    ∀ entry ∈ entries, svd.isAbstractedAccount entry.1 = .ok false →
      SignedBy svd verify ctx tx st.ak entry := by
  induction entries generalizing i st with
  | nil => simp
  | cons entry entries ih =>
    obtain ⟨_, hstep, hrest⟩ := authenticateAll_cons h
    intro e he hAa
    rcases mem_cons.mp he with rfl | he
    · rcases authenticate_ok hstep with ⟨hAa', -⟩ | ⟨-, opened, acc, newlyCreated, hacc⟩
      · simp [hAa] at hAa'
      · exact hacc.signedBy hctx
          (hacc.address_of_match hAa (hmatch e (mem_cons_self ..)))
    · have hframe := authenticate_frame hstep (hmatch entry (mem_cons_self ..))
        (signer_ne hnodup he)
      obtain ⟨key, accountNumber, hgood, hkey⟩ :=
        ih hrest (nodup_cons.mp hnodup).2 (hmatch.tail hnodup hstep) e he hAa
      exact ⟨key, accountNumber, hgood, by rwa [hframe] at hkey⟩

omit hctx

/-! ## Signers nobody signed for -/

theorem authenticate_unmatched
    (h : svd.authenticate verify ctx tx entry.1 entry.2.1 entry.2.2 i st = .ok st₁)
    (hno : ¬KeyMatches svd st.ak entry) :
    svd.isAbstractedAccount entry.1 = .ok false ∧ st₁.ak.getAccount entry.1 = none := by
  simp only [KeyMatches, Classical.not_imp] at hno
  obtain ⟨hAa, hnone, hkey⟩ := hno
  refine ⟨hAa, ?_⟩
  rcases authenticate_ok h with ⟨hAa', -⟩ | ⟨-, opened, acc, newlyCreated, hacc⟩
  · simp [hAa] at hAa'
  · rw [hacc.written, hnone, if_neg]
    intro haddr
    rw [hacc.keyed.address.1] at haddr
    cases hacc.opens with
    | stored hstored => simp [hnone] at hstored
    | created _ htx => exact hkey ⟨_, htx, haddr.symm⟩

theorem authenticateAll_unmatched (h : svd.authenticateAll verify ctx tx i entries st = .ok st')
    (hnodup : (entries.map Prod.fst).Nodup) (hno : ¬KeysMatch svd st.ak entries) :
    ∃ entry ∈ entries, svd.isAbstractedAccount entry.1 = .ok false ∧
      st'.ak.getAccount entry.1 = none := by
  induction entries generalizing i st with
  | nil => exact absurd (by simp [KeysMatch]) hno
  | cons entry entries ih =>
    obtain ⟨st₁, hstep, hrest⟩ := authenticateAll_cons h
    by_cases htail : KeysMatch svd st₁.ak entries
    · -- the later signers match once the first one is done, so the first one did not
      have hhead : ¬KeyMatches svd st.ak entry := by
        intro hhead
        apply hno
        intro e he
        rcases mem_cons.mp he with rfl | he
        · exact hhead
        · have hframe := authenticate_frame hstep hhead (signer_ne hnodup he)
          exact (KeyMatches.congr hframe).mp (htail e he)
      obtain ⟨hAa, hnone⟩ := authenticate_unmatched hstep hhead
      have hnodup' := nodup_cons.mp hnodup
      refine ⟨entry, mem_cons_self .., hAa, ?_⟩
      rw [authenticateAll_frame hrest hnodup'.2 htail hnodup'.1, hnone]
    · obtain ⟨e, he, hAa, hnone⟩ := ih hrest (nodup_cons.mp hnodup).2 htail
      exact ⟨e, mem_cons_of_mem _ he, hAa, hnone⟩

/-! ## Another verifier -/

theorem verifySig_congr (h : verifySig verify ctx tx acc sig newlyCreated = .ok ())
    (hgood : ∀ key data, data.address = acc.address → verify' key data sig.data tx.txData = none) :
    verifySig verify' ctx tx acc sig newlyCreated = .ok () := by
  unfold verifySig at h ⊢
  split at h
  · simp at h
  · by_cases hskip : ctx.execMode = .simulate ∨ ctx.isReCheckTx ∨ !ctx.isSigverifyTx
    · rw [if_pos hskip]
    · rw [if_neg hskip] at h ⊢
      cases hkey : acc.pubKey with
      | none => simp [hkey] at h
      | some key => simp [hgood key (signerData ctx acc sig newlyCreated key) rfl]

/-- A verifier that accepts signatures for all addresses with a record afterwards
accepts the same signers. -/
theorem authenticate_congr
    (h : svd.authenticate verify ctx tx entry.1 entry.2.1 entry.2.2 i st = .ok st₁)
    (hgood : ∀ key data sigData, st₁.ak.getAccount data.address ≠ none →
      verify' key data sigData tx.txData = none) :
    svd.authenticate verify' ctx tx entry.1 entry.2.1 entry.2.2 i st = .ok st₁ := by
  simp only [authenticate, bind_eq_ok] at h ⊢
  obtain ⟨isAa, hAa, h⟩ := h
  refine ⟨isAa, hAa, ?_⟩
  split at h
  · exact h
  · simp only [authenticateAccount, bind_eq_ok] at h ⊢
    obtain ⟨⟨_, _, _⟩, hopen, acc, hkey, gasMeter, hgas, ⟨⟩, hverify, ak', hset,
      h⟩ := h
    refine ⟨_, hopen, acc, hkey, gasMeter, hgas, (), verifySig_congr hverify ?_, ak', hset, h⟩
    intro key data haddr
    apply hgood
    rw [← ok.inj h, getAccount_setAccount hset, increaseSequence_address,
      if_pos haddr]
    simp

theorem authenticateAll_congr (h : svd.authenticateAll verify ctx tx i entries st = .ok st')
    (hgood : ∀ key data sigData, st'.ak.getAccount data.address ≠ none →
      verify' key data sigData tx.txData = none) :
    svd.authenticateAll verify' ctx tx i entries st = .ok st' := by
  induction entries generalizing i st <;> grind [authenticateAll, bind_eq_ok, authenticateAll_cons,
    authenticate_congr, authenticateAll_getAccount_ne_none]

/-! ## Whole transactions -/

theorem signerEntries_signers (h : svd.signerEntries tx = .ok entries) :
    entries.map Prod.fst = tx.signers := by
  simp only [signerEntries, bind_eq_ok] at h
  obtain ⟨_, -, h⟩ := h
  split at h
  · simp at h
  · simp only [bind_eq_ok] at h
    obtain ⟨_, -, h⟩ := h
    split at h
    · simp at h
    · rename_i hkeys
      cases h
      apply map_fst_zip
      simp only [length_zip]
      omega

theorem validateTx_ok (hentries : svd.signerEntries tx = .ok entries) :
    svd.validateTx verify ctx tx st = .ok st' ↔
      svd.authenticateAll verify ctx tx 0 entries st = .ok st' ∧ svd.emitEvents entries = .ok () := by
  simp only [validateTx, hentries, ok_bind, bind_eq_ok]
  constructor
  · rintro ⟨st₁, hall, ⟨⟩, hemit, h⟩
    cases h
    exact ⟨hall, hemit⟩
  · rintro ⟨hall, hemit⟩
    exact ⟨st', hall, (), hemit, rfl⟩

/-- Every signer of `x/auth` signed, and no other record changed. -/
structure Authenticated (svd : SigVerificationDecorator) (verify : SignatureVerifier) (ctx : Ctx)
    (tx : Tx) (entries : List SignerEntry) (ak ak' : AccountKeeper) : Prop where
  signed : ∀ entry ∈ entries, svd.isAbstractedAccount entry.1 = .ok false →
    SignedBy svd verify ctx tx ak entry
  frame : ∀ addr, addr ∉ tx.signers → ak'.getAccount addr = ak.getAccount addr

/-- Let a transaction pass all checks but those of the signatures.  Whatever
signatures are good, accepting it means that its signers signed, exactly if every
signer without record has a key with its own address in the transaction. -/
theorem authenticated_iff_keysMatch {entries : List SignerEntry} {st st₀ : AnteState}
    (hctx : Verifying ctx) (hentries : svd.signerEntries tx = .ok entries)
    (hpass : svd.validateTx (fun _ _ _ _ => none) ctx tx st = .ok st₀) :
    (∀ verify st', svd.validateTx verify ctx tx st = .ok st' →
      Authenticated svd verify ctx tx entries st.ak st'.ak) ↔ KeysMatch svd st.ak entries := by
  have hsigners := signerEntries_signers hentries
  have hnodup : (entries.map Prod.fst).Nodup := hsigners ▸ tx.signers_nodup
  simp only [validateTx_ok hentries] at hpass ⊢
  constructor
  · intro hall
    by_contra hno
    obtain ⟨entry, hentry, hAa, hnone⟩ := authenticateAll_unmatched hpass.1 hnodup hno
    -- a verifier for which nothing is good for the signer that was left out
    let verify : SignatureVerifier := fun _ data _ _ =>
      if st₀.ak.getAccount data.address = none then some "" else none
    have hacc : svd.authenticateAll verify ctx tx 0 entries st = .ok st₀ :=
      authenticateAll_congr hpass.1 fun key data sigData hne => by simp [verify, hne]
    obtain ⟨_, _, hgood, -⟩ := (hall verify st₀ ⟨hacc, hpass.2⟩).signed entry hentry hAa
    simp [verify, hnone] at hgood
  · intro hmatch verify st' h
    exact ⟨authenticateAll_signedBy hctx h.1 hnodup hmatch,
      fun addr haddr => authenticateAll_frame h.1 hnodup hmatch (hsigners ▸ haddr)⟩

/-! ## First transactions -/

/-- Keys are their own addresses; every check but that of the signature passes. -/
def plainDecorator : SigVerificationDecorator where
  aaKeeper := none
  address
    | .secp256k1 (some bz) => bz
    | _ => []
  bytesToString _ := .ok ""
  decodeMultisignatures _ := .ok []
  marshalMultiSignature _ := .ok []
  extraVerifyIsOnCurve := none
  keyOnCurve _ := .ok true
  sigGasConsumer _ gasMeter := .ok gasMeter
  encodeToString _ := ""
  emitKV _ _ := .ok ()

def blockCtx : Ctx := ⟨.finalize, false, true, 7, "chain"⟩

def noRecords : AnteState := ⟨⟨∅, 3, by simp, by simp⟩, .infinite 0⟩

def firstTx (signer key : Bytes) : Tx :=
  ⟨[signer], by simp, [⟨some (.ok (.secp256k1 (some key))), .single .direct, 0⟩], [[9]], false, []⟩

def goodFor (key : Bytes) : SignatureVerifier
  | .secp256k1 (some bz), _, _, _ => if bz = key then none else some "unable to verify"
  | _, _, _, _ => some "unable to verify"

theorem authenticated_iff_keysMatch_own_key :
    (∀ verify st', plainDecorator.validateTx verify blockCtx (firstTx [1] [1]) noRecords = .ok st' →
      Authenticated plainDecorator verify blockCtx (firstTx [1] [1])
        [([1], ⟨some (.secp256k1 (some [1])), .single .direct [9], 0⟩,
          some (.secp256k1 (some [1])))] noRecords.ak st'.ak) ↔
    KeysMatch plainDecorator noRecords.ak
      [([1], ⟨some (.secp256k1 (some [1])), .single .direct [9], 0⟩,
        some (.secp256k1 (some [1])))] :=
  authenticated_iff_keysMatch ⟨rfl, rfl, rfl⟩ rfl rfl

/-- The key with address 1 signs for the address 2, which has no record: the
transaction is accepted, and it is the record of address 1 that is written. -/
theorem accepted_without_signature :
    ∃ st', plainDecorator.validateTx (goodFor [1]) blockCtx (firstTx [2] [1]) noRecords = .ok st' ∧
      ¬SignedBy plainDecorator (goodFor [1]) blockCtx (firstTx [2] [1]) noRecords.ak
        ([2], ⟨some (.secp256k1 (some [1])), .single .direct [9], 0⟩,
          some (.secp256k1 (some [1]))) ∧
      (st'.ak.getAccount [1]).isSome ∧ (noRecords.ak.getAccount [1]).isNone := by
  refine ⟨_, rfl, ?_, rfl, rfl⟩
  rintro ⟨key, accountNumber, hgood, hkey⟩
  rcases hkey with ⟨acc, hacc, -⟩ | haddr
  · simp [noRecords, getAccount] at hacc
  · unfold goodFor at hgood
    split at hgood
    · split at hgood
      · subst_vars
        simp [plainDecorator] at haddr
      · simp at hgood
    · simp at hgood

end SigVerificationDecorator

end CosmosSDK.Auth
