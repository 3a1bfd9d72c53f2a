import CosmosSDK.Auth.Authentication
import CosmosSDK.Lib.Machine

/-!
# Sequences and replayed transactions

Runs of the decorator in finalize mode: an accepted transaction leaves the
records it wrote, a rejected one leaves nothing.  As long as every signer without
record brings the key of its own address, the sequence of a signer counts its
accepted ordered transactions, and none of them is accepted twice.
-/

namespace CosmosSDK.Auth

open Store List UInt64 Machine

namespace SigVerificationDecorator

variable {svd : SigVerificationDecorator} {verify : SignatureVerifier} {ctx : Ctx} {tx : Tx}

/-- The stored sequence; an address without record starts with zero. -/
def sequenceOf (ak : AccountKeeper) (addr : AccAddress) : UInt64 :=
  ((ak.getAccount addr).map Account.sequence).getD 0

/-! ## Sequences of one transaction -/

variable {entry : SignerEntry} {ak : AccountKeeper} {acc : Account} {newlyCreated : Bool} {i : Nat}
  {st st' : AnteState} {entries : List SignerEntry} {d : Delivery}

theorem Accepts.sequence_eq {ak' : AccountKeeper} {opened : Account}
    (h : Accepts svd verify ctx tx entry ak ak' opened acc newlyCreated) :
    acc.sequence = sequenceOf ak entry.1 := by
  rw [h.keyed.address.2]
  cases h.opens with
  | stored hacc => simp [sequenceOf, hacc]
  | created hnone => simp [sequenceOf, hnone]

theorem verifySig_sequence {sig : SignatureV2} (hctx : ctx.execMode = .finalize)
    (hordered : tx.unordered = false) (h : verifySig verify ctx tx acc sig newlyCreated = .ok ()) :
    sig.sequence = acc.sequence := by
  unfold verifySig at h
  split at h
  · simp at h
  · rename_i hseq
    simp only [verifySequence, hordered, hctx, Bool.false_eq_true, if_false, reduceCtorEq] at hseq
    by_contra hne
    rw [if_pos hne] at hseq
    simp at hseq

def isAuthSigner (svd : SigVerificationDecorator) (addr : AccAddress) : Bool :=
  match svd.isAbstractedAccount addr with
  | .ok false => true
  | _ => false

theorem isAuthSigner_iff {addr : AccAddress} :
    svd.isAuthSigner addr = true ↔ svd.isAbstractedAccount addr = .ok false := by
  unfold isAuthSigner
  split <;> simp_all

def nextSequence (svd : SigVerificationDecorator) (tx : Tx) (signers : List AccAddress)
    (ak : AccountKeeper) (addr : AccAddress) : UInt64 :=
  if tx.unordered = false ∧ addr ∈ signers ∧ svd.isAuthSigner addr then sequenceOf ak addr + 1
  else sequenceOf ak addr

theorem authenticate_sequence
    (h : svd.authenticate verify ctx tx entry.1 entry.2.1 entry.2.2 i st = .ok st')
    (hmatch : KeyMatches svd st.ak entry) :
    sequenceOf st'.ak entry.1 = nextSequence svd tx [entry.1] st.ak entry.1 := by
  rcases authenticate_ok h with ⟨hAa, rfl⟩ | ⟨hAa, opened, acc, newlyCreated, hacc⟩
  · simp [nextSequence, isAuthSigner, hAa]
  · have haddr := hacc.address_of_match hAa hmatch
    rw [sequenceOf, hacc.written, if_pos haddr.symm, increaseSequence]
    cases hu : tx.unordered <;>
      simp [Account.setSequence, hacc.sequence_eq, nextSequence, isAuthSigner, hAa, hu]

theorem authenticateAll_sequence (h : svd.authenticateAll verify ctx tx i entries st = .ok st')
    (hnodup : (entries.map Prod.fst).Nodup) (hmatch : KeysMatch svd st.ak entries)
    (addr : AccAddress) :
    sequenceOf st'.ak addr = nextSequence svd tx (entries.map Prod.fst) st.ak addr := by
  induction entries generalizing i st with
  | nil =>
    cases h
    simp [nextSequence]
  | cons entry entries ih =>
    obtain ⟨_, hstep, hrest⟩ := authenticateAll_cons h
    have hnodup' := nodup_cons.mp hnodup
    have hhead := hmatch entry (mem_cons_self ..)
    have htail := hmatch.tail hnodup hstep
    by_cases haddr : addr = entry.1
    · subst haddr
      have hframe := authenticateAll_frame hrest hnodup'.2 htail hnodup'.1
      rw [sequenceOf, hframe, ← sequenceOf, authenticate_sequence hstep hhead]
      simp [nextSequence]
    · rw [ih hrest hnodup'.2 htail]
      have hframe := authenticate_frame hstep hhead haddr
      simp only [nextSequence, sequenceOf, hframe, map_cons, mem_cons, haddr, false_or]

theorem authenticateAll_expects (hctx : ctx.execMode = .finalize) (hordered : tx.unordered = false)
    (h : svd.authenticateAll verify ctx tx i entries st = .ok st')
    (hnodup : (entries.map Prod.fst).Nodup) (hmatch : KeysMatch svd st.ak entries) :
    ∀ entry ∈ entries, svd.isAbstractedAccount entry.1 = .ok false →
      entry.2.1.sequence = sequenceOf st.ak entry.1 := by
  induction entries generalizing i st with
  | nil => simp
  | cons entry entries ih =>
    obtain ⟨_, hstep, hrest⟩ := authenticateAll_cons h
    intro e he hAa
    rcases mem_cons.mp he with rfl | he
    · rcases authenticate_ok hstep with ⟨hAa', -⟩ | ⟨-, opened, acc, newlyCreated, hacc⟩
      · simp [hAa] at hAa'
      · rw [verifySig_sequence hctx hordered hacc.verified, hacc.sequence_eq]
    · have hframe := authenticate_frame hstep (hmatch entry (mem_cons_self ..))
        (signer_ne hnodup he)
      rw [ih hrest (nodup_cons.mp hnodup).2 (hmatch.tail hnodup hstep) e he hAa, sequenceOf,
        hframe, ← sequenceOf]

/-! ## Runs -/

structure Delivery where
  ctx : Ctx
  finalize : ctx.execMode = .finalize
  tx : Tx
  gasMeter : GasMeter

/-- Whether the transaction is accepted, and the records after it. -/
def deliver (svd : SigVerificationDecorator) (verify : SignatureVerifier) (d : Delivery)
    (ak : AccountKeeper) : Bool × AccountKeeper :=
  match svd.validateTx verify d.ctx d.tx ⟨ak, d.gasMeter⟩ with
  | .ok st' => (true, st'.ak)
  | .error _ => (false, ak)

/-- The signers bring their own keys, one of them has an account of `x/auth`, and
no sequence is at its maximum. -/
structure Plain (svd : SigVerificationDecorator) (ak : AccountKeeper) (tx : Tx) : Prop where
  keysMatch : ∀ entries, svd.signerEntries tx = .ok entries → KeysMatch svd ak entries
  hasSigner : ∃ signer ∈ tx.signers, svd.isAuthSigner signer = true
  notMax : ∀ signer ∈ tx.signers, svd.isAuthSigner signer = true → sequenceOf ak signer < maxUint64

def PlainIfAccepted (svd : SigVerificationDecorator) (verify : SignatureVerifier) (d : Delivery)
    (ak : AccountKeeper) : Prop :=
  (svd.deliver verify d ak).1 = true → Plain svd ak d.tx

theorem validateTx_entries (h : svd.validateTx verify ctx tx st = .ok st') :
    ∃ entries, svd.signerEntries tx = .ok entries ∧
      svd.authenticateAll verify ctx tx 0 entries st = .ok st' := by
  have h' := h
  simp only [validateTx, Fallible.bind_eq_ok] at h'
  obtain ⟨entries, hentries, -⟩ := h'
  exact ⟨entries, hentries, ((validateTx_ok hentries).mp h).1⟩

theorem deliver_accepted (h : (svd.deliver verify d ak).1 = true) :
    ∃ entries st', svd.signerEntries d.tx = .ok entries ∧
      svd.authenticateAll verify d.ctx d.tx 0 entries ⟨ak, d.gasMeter⟩ = .ok st' ∧
      (svd.deliver verify d ak).2 = st'.ak := by
  unfold deliver at h ⊢
  cases hv : svd.validateTx verify d.ctx d.tx ⟨ak, d.gasMeter⟩ with
  | error => simp [hv] at h
  | ok st' =>
    obtain ⟨entries, hentries, hall⟩ := validateTx_entries hv
    exact ⟨entries, st', hentries, hall, rfl⟩

theorem deliver_rejected (h : (svd.deliver verify d ak).1 = false) :
    (svd.deliver verify d ak).2 = ak := by
  unfold deliver at h ⊢
  cases hv : svd.validateTx verify d.ctx d.tx ⟨ak, d.gasMeter⟩ with
  | error => rfl
  | ok => simp [hv] at h

/-- The signers whose sequence counts a delivered transaction. -/
abbrev Counted (svd : SigVerificationDecorator) (tx : Tx) (addr : AccAddress) : Prop :=
  tx.unordered = false ∧ addr ∈ tx.signers ∧ svd.isAuthSigner addr = true

theorem deliver_sequence (hplain : PlainIfAccepted svd verify d ak) (addr : AccAddress) :
    (sequenceOf (svd.deliver verify d ak).2 addr).toNat = (sequenceOf ak addr).toNat +
      if (svd.deliver verify d ak).1 = true ∧ Counted svd d.tx addr then 1 else 0 := by
  cases hacc : (svd.deliver verify d ak).1 with
  | false => simp [deliver_rejected hacc]
  | true =>
    obtain ⟨hkeys, -, hmax⟩ := hplain hacc
    obtain ⟨entries, _, hentries, hall, heq⟩ := deliver_accepted hacc
    have hsigners := signerEntries_signers hentries
    rw [heq, authenticateAll_sequence hall (hsigners ▸ d.tx.signers_nodup)
      (hkeys entries hentries), nextSequence, hsigners]
    simp only [true_and]
    by_cases hc : Counted svd d.tx addr
    · have hlt := hmax addr hc.2.1 hc.2.2
      rw [if_pos hc, if_pos hc, UInt64.toNat_add]
      have : (sequenceOf ak addr).toNat < 18446744073709551615 := hlt
      simp only [toNat_one, Nat.reducePow]
      omega
    · rw [if_neg hc, if_neg hc, Nat.add_zero]

theorem deliver_expects (hplain : PlainIfAccepted svd verify d ak)
    (hacc : (svd.deliver verify d ak).1 = true) (hordered : d.tx.unordered = false)
    (hentries : svd.signerEntries d.tx = .ok entries) :
    ∀ entry ∈ entries, svd.isAuthSigner entry.1 = true →
      entry.2.1.sequence = sequenceOf ak entry.1 := by
  obtain ⟨_, _, hentries', hall, -⟩ := deliver_accepted hacc
  obtain rfl := Except.ok.inj (hentries.symm.trans hentries')
  intro entry he hAa
  exact authenticateAll_expects d.finalize hordered hall
    (signerEntries_signers hentries ▸ d.tx.signers_nodup)
    ((hplain hacc).keysMatch entries hentries) entry he (isAuthSigner_iff.mp hAa)

theorem run_sequence_le {ds : List Delivery}
    (h : Machine.Along (svd.deliver verify) (PlainIfAccepted svd verify) ds ak) (addr : AccAddress) :
    sequenceOf ak addr ≤ sequenceOf (run (svd.deliver verify) ds ak).2 addr := by
  refine h.related (R := fun ak ak' => sequenceOf ak addr ≤ sequenceOf ak' addr)
    (fun _ => UInt64.le_refl _) (fun _ _ _ => UInt64.le_trans) ?_
  intro d ak hplain
  rw [le_iff_toNat_le, deliver_sequence hplain]
  omega

def reached (svd : SigVerificationDecorator) (verify : SignatureVerifier) (ds : List Delivery)
    (ak : AccountKeeper) : AccountKeeper :=
  (run (svd.deliver verify) ds ak).2

/-- In every run whose accepted transactions are plain ones, each accepted ordered
transaction raises the sequences of its signers by one, all other sequences stay,
and a transaction is not accepted again. -/
theorem run_counts_and_accepts_once {ds : List Delivery} {ak : AccountKeeper}
    (h : Machine.Along (svd.deliver verify) (PlainIfAccepted svd verify) ds ak) :
    (∀ before d after, ds = before ++ d :: after → ∀ addr,
      (sequenceOf (svd.reached verify (before ++ [d]) ak) addr).toNat =
        (sequenceOf (svd.reached verify before ak) addr).toNat +
          if (svd.deliver verify d (svd.reached verify before ak)).1 = true ∧
            Counted svd d.tx addr then 1 else 0) ∧
    (∀ before d between d' after, ds = before ++ d :: (between ++ d' :: after) →
      d'.tx = d.tx → d.tx.unordered = false →
      (svd.deliver verify d (svd.reached verify before ak)).1 = true →
      (svd.deliver verify d' (svd.reached verify (before ++ d :: between) ak)).1 = false) := by
  constructor
  · rintro before d after rfl addr
    have hplain := (along_append.mp h).2.1
    rw [reached, run_append]
    exact deliver_sequence hplain addr
  · rintro before d between d' after rfl htx hordered hacc
    obtain ⟨hplain, hbetween⟩ := (along_append.mp h).2
    obtain ⟨hmid, hplain', -⟩ := along_append.mp hbetween
    by_contra hacc'
    rw [Bool.not_eq_false, reached, run_append] at hacc'
    obtain ⟨_, -, hentries, -, -⟩ := deliver_accepted hacc
    obtain ⟨_, hsigner, hAa⟩ := (hplain hacc).hasSigner
    have hmem := hsigner
    rw [← signerEntries_signers hentries, mem_map] at hmem
    obtain ⟨entry, he, rfl⟩ := hmem
    -- the same signature would have to carry the sequence before and after
    have hseq := deliver_expects hplain hacc hordered hentries entry he hAa
    have hseq' := deliver_expects hplain' hacc' (htx ▸ hordered) (htx ▸ hentries) entry he hAa
    have hcount := deliver_sequence hplain entry.1
    rw [if_pos ⟨hacc, hordered, hsigner, hAa⟩] at hcount
    have hle := le_iff_toNat_le.mp (run_sequence_le hmid entry.1)
    rw [← hseq', hcount, hseq] at hle
    exact absurd hle (by simp)

def firstDelivery (signer key : Bytes) : Delivery := ⟨blockCtx, rfl, firstTx signer key, .infinite 0⟩

theorem plain_firstTx : Plain plainDecorator noRecords.ak (firstTx [1] [1]) where
  keysMatch := by
    intro entries hentries
    cases hentries
    intro entry he _ _
    obtain rfl := mem_singleton.mp he
    exact ⟨_, rfl, rfl⟩
  hasSigner := ⟨[1], mem_singleton.mpr rfl, rfl⟩
  notMax := by
    intro signer hsigner _
    obtain rfl := mem_singleton.mp hsigner
    decide

theorem run_counts_and_accepts_once_first :
    (plainDecorator.deliver (goodFor [1]) (firstDelivery [1] [1])
      (plainDecorator.reached (goodFor [1]) [firstDelivery [1] [1]] noRecords.ak)).1 = false :=
  (run_counts_and_accepts_once
    (show Machine.Along (plainDecorator.deliver (goodFor [1]))
        (PlainIfAccepted plainDecorator (goodFor [1]))
        [firstDelivery [1] [1], firstDelivery [1] [1]] noRecords.ak from
      ⟨fun _ => plain_firstTx, fun hacc => absurd hacc (by decide), trivial⟩)).2
    [] (firstDelivery [1] [1]) [] (firstDelivery [1] [1]) [] rfl rfl rfl rfl

def usedRecord : AccountKeeper where
  accounts := Std.ExtTreeMap.insert ∅ [1] ⟨[1], some (.secp256k1 (some [1])), 0, 5, false⟩
  nextAccountNumber := 3
  address_eq := by
    intro addr acc h
    rw [OrderedKV.lookup_insert] at h
    split at h
    · cases h
      exact Eq.symm ‹_›
    · simp at h
  number_inj := by
    intro addr addr' acc acc' h h' _
    rw [OrderedKV.lookup_insert] at h h'
    split at h <;> split at h' <;> simp_all

/-- With the key of address 1 in a transaction of address 2, which has no record,
the transaction is accepted twice, and the sequence of address 1 falls from 5 to 1. -/
theorem accepted_twice : (run (plainDecorator.deliver (goodFor [1]))
      [firstDelivery [2] [1], firstDelivery [2] [1]] usedRecord).1 = [true, true] ∧
    sequenceOf usedRecord [1] = 5 ∧
    sequenceOf (plainDecorator.reached (goodFor [1]) [firstDelivery [2] [1]] usedRecord) [1] = 1 := by
  refine ⟨rfl, rfl, rfl⟩

end SigVerificationDecorator

end CosmosSDK.Auth
