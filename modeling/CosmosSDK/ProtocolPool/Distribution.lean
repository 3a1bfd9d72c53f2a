import CosmosSDK.Bank.Transfers
import CosmosSDK.ProtocolPool.MsgServer

/-!
# What a distribution does

`IterateAndUpdateFundsDistribution` sends to the stream account exactly what it adds to the
claims, and empties the record of distributions.
-/

namespace CosmosSDK.ProtocolPool

open Bank CosmosSDK.Types Math Auth OrderedKV Std Fallible List Coins ExtTreeMap BankKeeper Except

variable {A : Type}

/-! ## Sums over maps of coins -/

def sumOf {K : Type} [Ord K] [TransOrd K] (m : OrdMap K Coins) (denom : Denom) : Int :=
  total (fun _ coins => amountIn coins denom) m

section Sums

variable {K : Type} [Ord K] [TransOrd K] [LawfulEqOrd K] [DecidableEq K]

omit [LawfulEqOrd K] [DecidableEq K] in
theorem part_amountIn (m : OrdMap K Coins) (key : K) (denom : Denom) :
    part (fun _ coins => amountIn coins denom) m key = amountIn ((m[key]?).getD []) denom := by
  unfold part
  cases m[key]? <;> rfl

theorem sumOf_empty (denom : Denom) : sumOf (∅ : OrdMap K Coins) denom = 0 :=
  total_empty _

theorem sumOf_insert (m : OrdMap K Coins) (key : K) (coins : Coins) (denom : Denom) :
    sumOf (m.insert key coins) denom =
      sumOf m denom + amountIn coins denom - amountIn ((m[key]?).getD []) denom := by
  have h := total_insert (fun _ coins => amountIn coins denom) m key coins
  rw [part_amountIn] at h
  unfold sumOf
  omega

theorem sumOf_erase (m : OrdMap K Coins) (key : K) (denom : Denom) :
    sumOf (m.erase key) denom = sumOf m denom - amountIn ((m[key]?).getD []) denom := by
  have h := total_erase (fun _ coins => amountIn coins denom) m key
  rw [part_amountIn] at h
  unfold sumOf
  omega

omit [DecidableEq K] in
theorem sumOf_eq_zero {m : OrdMap K Coins} (h : ∀ (key : K) (coins : Coins), m[key]? = some coins → coins = [])
    (denom : Denom) : sumOf m denom = 0 := by
  unfold sumOf total
  apply sum_eq_zero
  intro x hx
  obtain ⟨e, he, rfl⟩ := mem_map.mp hx
  have hnil := h e.1 e.2 (mem_toList_iff_getElem?_eq_some.mp he)
  show amountIn e.2 denom = 0
  rw [hnil, amountIn_nil]

end Sums

namespace Keeper

variable {k : Keeper A}

/-! ## The shares of the funds -/

/-- The accumulators after some distributions with a given total. -/
structure SharesOf (funds : List ContinuousFund) (total : Denom → Int) (shares : Shares) : Prop where
  matched : ∀ denom, sumOf shares.distributeToRecipient denom =
    amountIn shares.effectiveDistributionAmounts denom
  recipients : ∀ recipient coins, shares.distributeToRecipient[recipient]? = some coins →
    ∃ f ∈ funds, f.recipient = recipient
  total : ∀ denom, amountIn shares.totalDistributionAmounts denom = total denom

variable {f : ContinuousFund} {amount : Coins} {shares shares' : Shares}
  {funds : List ContinuousFund} {total : Denom → Int} {s s' : State A} {sender recipient : String}
  {from' to' : AccAddress}

theorem shareDenom_ok {shares shares' : Coins × Coins} {denom : Denom}
    (h : k.shareDenom f amount shares denom = .ok shares') (d : Denom) :
    amountIn shares'.1 d - amountIn shares.1 d = amountIn shares'.2 d - amountIn shares.2 d := by
  simp only [shareDenom, bind_eq_ok] at h
  obtain ⟨_, _, _, _, _, _, _, _, toRecipient, hrecipient, effective, heffective, h⟩ := h
  cases h
  have hfirst := amountIn_safeAdd hrecipient d
  have hsecond := amountIn_safeAdd heffective d
  show amountIn toRecipient d - _ = amountIn effective d - _
  omega

theorem shareFund_sharesOf {key : Int} (hf : f ∈ funds) (hshares : SharesOf funds total shares)
    (h : k.shareFund key amount shares f = .ok shares') : SharesOf funds total shares' := by
  unfold shareFund at h
  split at h
  · cases h
    exact hshares
  · simp only [bind_eq_ok] at h
    obtain ⟨_, _, sums, hsums, h⟩ := h
    cases h
    have hgrown (d : Denom) :
        amountIn sums.1 d - amountIn ((shares.distributeToRecipient[f.recipient]?).getD []) d =
          amountIn sums.2 d - amountIn shares.effectiveDistributionAmounts d := by
      -- each denomination adds the same coin to both sums
      refine foldlM_invariant
        (I := fun sums => amountIn sums.1 d - _ = amountIn sums.2 d - _) ?_ ?_ hsums
      · intro denom _ sums sums' hsums hstep
        have := shareDenom_ok hstep d
        omega
      · simp
    refine ⟨fun d => ?_, fun recipient coins hentry => ?_, hshares.total⟩
    · have hmatched := hshares.matched d
      have := hgrown d
      show sumOf (shares.distributeToRecipient.insert f.recipient sums.1) d = amountIn sums.2 d
      rw [sumOf_insert]
      omega
    · cases cases_of_insert hentry with
      | inl hnew => exact ⟨f, hf, hnew.1.symm⟩
      | inr hold => exact hshares.recipients recipient coins hold.2

theorem shareDistribution_sharesOf {distribution : Int × Coins}
    (hshares : SharesOf funds total shares)
    (h : k.shareDistribution funds shares distribution = .ok shares') :
    SharesOf funds (fun d => total d + amountIn distribution.2 d) shares' := by
  simp only [shareDistribution, passes] at h
  obtain ⟨sum, hsum, _, hfunds, _, h⟩ := h
  cases h
  refine foldlM_invariant (fun f hf _ _ => shareFund_sharesOf hf) ?_ hfunds
  refine ⟨hshares.matched, hshares.recipients, fun d => ?_⟩
  rw [amountIn_safeAdd hsum, hshares.total]

theorem shareAll_sharesOf {distributions : List (Int × Coins)}
    (hshares : SharesOf funds total shares)
    (h : distributions.foldlM (k.shareDistribution funds) shares = .ok shares') : SharesOf funds
      (fun d => total d + (distributions.map (fun e => amountIn e.2 d)).sum) shares' := by
  induction distributions generalizing total shares with
  | nil =>
    cases h
    simpa using hshares
  | cons distribution distributions ih =>
    rw [foldlM_cons, bind_eq_ok] at h
    obtain ⟨_, hfirst, h⟩ := h
    have hrest := ih (shareDistribution_sharesOf hshares hfirst) h
    simpa [add_assoc] using hrest

theorem sharesOf_start (funds : List ContinuousFund) :
    SharesOf funds 0 ⟨LegacyDec.zero, ∅, [], []⟩ where
  matched d := sumOf_empty d
  recipients recipient coins h := by simp at h
  total _ := rfl

/-! ## The claims -/

theorem addToClaim_ok {e : String × Coins} (h : k.addToClaim s e = .ok s') :
    ∃ a toClaim, k.stringToBytes e.1 = .ok a ∧
      (∀ d, amountIn toClaim d =
        amountIn ((s.recipientFundDistribution[a]?).getD []) d + amountIn e.2 d) ∧
      s' = { s with recipientFundDistribution := s.recipientFundDistribution.insert a toClaim } := by
  simp only [addToClaim, bind_eq_ok] at h
  obtain ⟨a, ha, toClaim, hclaim, h⟩ := h
  exact ⟨a, toClaim, ha, amountIn_safeAdd hclaim, (ok.inj h).symm⟩

theorem addToClaims_ok {l : List (String × Coins)} (h : l.foldlM k.addToClaim s = .ok s') :
    (∀ d, sumOf s'.recipientFundDistribution d =
        sumOf s.recipientFundDistribution d + (l.map (fun e => amountIn e.2 d)).sum) ∧
      (∀ a, (∀ e ∈ l, k.stringToBytes e.1 ≠ .ok a) →
        s'.recipientFundDistribution[a]? = s.recipientFundDistribution[a]?) ∧
      s' = { s with recipientFundDistribution := s'.recipientFundDistribution } := by
  induction l generalizing s with
  | nil =>
    cases h
    simp
  | cons e l ih => grind [bind_eq_ok, sumOf_insert, lookup_insert, addToClaim_ok]

/-! ## The accounts of the pool -/

/-- The module accounts: three different addresses, which coins reach as they are sent; and
an address is decoded from its text. -/
structure Modules (k : Keeper A) (distr stream pool : AccAddress) : Prop where
  direct : k.bankKeeper.Direct
  distrAddr : k.bankKeeper.AddressOf protocolPoolDistrAccount distr
  streamAddr : k.bankKeeper.AddressOf streamAccount stream
  poolAddr : k.bankKeeper.AddressOf moduleName pool
  distr_ne_stream : distr ≠ stream
  pool_ne_stream : pool ≠ stream
  distr_ne_pool : distr ≠ pool
  codec : ∀ a text, k.bankKeeper.bytesToString a = .ok text → k.stringToBytes text = .ok a

variable {distr stream pool : AccAddress} (hk : k.Modules distr stream pool)

include hk

theorem sendFromModuleToModule_ok (hsender : k.bankKeeper.AddressOf sender from')
    (hrecipient : k.bankKeeper.AddressOf recipient to')
    (h : k.sendFromModuleToModule s sender recipient amount = .ok s') :
    ∃ bank, s' = { s with bank := bank } ∧ Transfers from' to' (amountIn amount) s.bank bank ∧
      ∀ d, 0 ≤ amountIn amount d := by
  unfold sendFromModuleToModule at h
  obtain ⟨bank, hbank, h⟩ := bind_eq_ok.mp h
  exact ⟨bank, (ok.inj h).symm,
    sendCoinsFromModuleToModule_ok hk.direct hsender hrecipient (mapFault_eq_ok.mp hbank)⟩

theorem sendFromModuleToAccount_ok (hsender : k.bankKeeper.AddressOf sender from')
    (h : k.sendFromModuleToAccount s sender to' amount = .ok s') :
    ∃ bank, s' = { s with bank := bank } ∧ Transfers from' to' (amountIn amount) s.bank bank ∧
      ∀ d, 0 ≤ amountIn amount d := by
  unfold sendFromModuleToAccount at h
  obtain ⟨bank, hbank, h⟩ := bind_eq_ok.mp h
  exact ⟨bank, (ok.inj h).symm,
    sendCoinsFromModuleToAccount_ok hk.direct hsender (mapFault_eq_ok.mp hbank)⟩

theorem sendFromAccountToModule_ok (hrecipient : k.bankKeeper.AddressOf recipient to')
    (h : k.sendFromAccountToModule s from' recipient amount = .ok s') :
    ∃ bank, s' = { s with bank := bank } ∧ Transfers from' to' (amountIn amount) s.bank bank ∧
      ∀ d, 0 ≤ amountIn amount d := by
  unfold sendFromAccountToModule at h
  obtain ⟨bank, hbank, h⟩ := bind_eq_ok.mp h
  exact ⟨bank, (ok.inj h).symm,
    sendCoinsFromAccountToModule_ok hk.direct hrecipient (mapFault_eq_ok.mp hbank)⟩

theorem sendDistributed_ok (hrecipient : k.bankKeeper.AddressOf recipient to')
    (h : k.sendDistributed recipient amount s = .ok s') :
    ∃ bank, s' = { s with bank := bank } ∧ Transfers distr to' (amountIn amount) s.bank bank := by
  unfold sendDistributed at h
  split at h
  · rename_i hzero
    cases h
    have hamount : amountIn amount = 0 := funext (amountIn_of_isZero hzero)
    exact ⟨s.bank, rfl, hamount ▸ Transfers.refl s.bank⟩
  · obtain ⟨bank, hs', htransfers, _⟩ := sendFromModuleToModule_ok hk hk.distrAddr hrecipient h
    exact ⟨bank, hs', htransfers⟩

/-! ## A distribution as a whole -/

structure Distributed (k : Keeper A) (stream : AccAddress) (s s' : State A) : Prop where
  streams : ∀ d, s'.bank.balanceOf stream d - sumOf s'.recipientFundDistribution d =
    s.bank.balanceOf stream d - sumOf s.recipientFundDistribution d
  moves : Moves 0 0 s.bank s'.bank
  untouched : ∀ a, (∀ (key : AccAddress) (f : ContinuousFund), s.continuousFund[key]? = some f →
      k.stringToBytes f.recipient ≠ .ok a) →
    s'.recipientFundDistribution[a]? = s.recipientFundDistribution[a]?
  funds : ∀ (a : AccAddress) (f : ContinuousFund), s'.continuousFund[a]? = some f →
    s.continuousFund[a]? = some f
  rest : s' = { s with
    bank := s'.bank
    continuousFund := s'.continuousFund
    recipientFundDistribution := s'.recipientFundDistribution
    distributions := ∅
    lastBalance := some [] }

theorem iterateAndUpdateFundsDistribution_ok (h : k.iterateAndUpdateFundsDistribution s = .ok s') :
    k.Distributed stream s s' := by
  simp only [iterateAndUpdateFundsDistribution, bind_eq_ok] at h
  obtain ⟨shares, hshares, _, hs1, _, _, _, hs2, s3, hs3, h⟩ := h
  cases h
  obtain ⟨bank1, rfl, htransfers1⟩ := sendDistributed_ok hk hk.streamAddr hs1
  obtain ⟨bank2, rfl, htransfers2⟩ := sendDistributed_ok hk hk.poolAddr hs2
  obtain ⟨hsum, huntouched, hrest⟩ := addToClaims_ok hs3
  have hof := shareAll_sharesOf (sharesOf_start _) hshares
  rw [hrest]
  refine ⟨fun d => ?_, ?_, fun a ha => ?_, fun a f hf => ?_, rfl⟩
  · have hmatched := hof.matched d
    have hstream : bank1.balanceOf stream d =
        s.bank.balanceOf stream d + amountIn shares.effectiveDistributionAmounts d :=
      htransfers1.of_recipient hk.distr_ne_stream.symm d
    have hpool : bank2.balanceOf stream d = bank1.balanceOf stream d :=
      htransfers2.of_ne hk.distr_ne_stream.symm hk.pool_ne_stream.symm d
    have hclaims : sumOf s3.recipientFundDistribution d =
        sumOf s.recipientFundDistribution d + sumOf shares.distributeToRecipient d := hsum d
    show bank2.balanceOf stream d - sumOf s3.recipientFundDistribution d = _
    omega
  · exact (htransfers1.moves.trans htransfers2.moves).congr (by simp) (by simp)
  · apply huntouched
    intro e he hdecoded
    have hentry := mem_toList_iff_getElem?_eq_some.mp he
    obtain ⟨_, hf, hrecipient⟩ := hof.recipients e.1 e.2 hentry
    obtain ⟨⟨key, f'⟩, hmem, rfl⟩ := mem_map.mp hf
    exact ha key f' (mem_toList_iff_getElem?_eq_some.mp hmem) (hrecipient ▸ hdecoded)
  · rw [lookup_foldl_erase, Option.ite_none_left_eq_some] at hf
    exact hf.2

end Keeper

end CosmosSDK.ProtocolPool
