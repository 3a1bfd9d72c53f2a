import CosmosSDK.ProtocolPool.Distribution

/-!
# What a request does

Each request that succeeds has one of a few effects: coins move, a block begins, a fund is
created, withdrawn from or canceled, parameters change, or the chain restarts from its genesis.
-/

namespace CosmosSDK.ProtocolPool

open Bank CosmosSDK.Types Math Auth OrderedKV Std Fallible Except

variable {A : Type}

namespace Keeper

section Possible

variable (k : Keeper A) (distr stream : AccAddress)

/-- What the chain allows: blocks come at increasing times, and the module accounts, which have
no keys, do not pay for deposits. -/
def Possible (request : Request) (s : State A) : Prop :=
  match request with
  | .deposit sender _ => sender ≠ stream ∧ sender ≠ distr
  | .fundCommunityPool _ depositor =>
    ∀ a ∈ (k.stringToBytes depositor).toOption, a ≠ stream ∧ a ≠ distr
  | .beginBlocker time _ => s.time < time
  | _ => True

instance (request : Request) (s : State A) : Decidable (k.Possible distr stream request s) := by
  unfold Possible
  split <;> infer_instance

end Possible

variable {k : Keeper A} {distr stream pool : AccAddress} (hk : k.Modules distr stream pool)

/-! ## Continuous funds -/

variable {recipient : AccAddress} {coins : Coins} {s s' : State A} {coin : Coin} {time height : Int}
  {response : Response} {request : Request}

include hk in
theorem withdrawRecipientFunds_ok (h : k.withdrawRecipientFunds recipient s = .ok (coins, s')) :
    s.recipientFundDistribution[recipient]? = some coins ∧
      ∃ bank, s' = { s with
          bank := bank
          recipientFundDistribution := s.recipientFundDistribution.insert recipient [] } ∧
        Transfers stream recipient (amountIn coins) s.bank bank ∧ ∀ d, 0 ≤ amountIn coins d := by
  unfold withdrawRecipientFunds at h
  split at h
  · simp at h
  · rename_i fundsAllocated hfunds
    obtain ⟨_, hs1, h⟩ := bind_eq_ok.mp h
    cases h
    obtain ⟨bank, rfl, htransfers⟩ :=
      sendFromModuleToAccount_ok hk hk.streamAddr (mapFault_eq_ok.mp hs1)
    exact ⟨hfunds, bank, rfl, htransfers⟩

theorem validateAuthority_ok {authority : String} {u : Unit}
    (h : k.validateAuthority authority = .ok u) : k.authority = authority := by
  simp only [validateAuthority, passes] at h
  obtain ⟨_, -, hsame, -⟩ := h
  exact not_not.mp hsame

theorem createContinuousFund_ok {msg : MsgCreateContinuousFund}
    (h : k.createContinuousFund msg s = .ok s') :
    k.authority = msg.authority ∧ ∃ a s1, k.stringToBytes msg.recipient = .ok a ∧
      s.continuousFund[a]? = none ∧
      k.iterateAndUpdateFundsDistribution s = .ok s1 ∧ s' = setContinuousFund a msg s1 := by
  simp only [createContinuousFund, passes] at h
  obtain ⟨_, hauthority, a, ha, hnew, -, -, -, -, -, -, -, s1, hs1, h⟩ := h
  exact ⟨validateAuthority_ok hauthority, a, s1, ha, by simpa using hnew, hs1, (ok.inj h).symm⟩

theorem withdrawRecipientFunds_notFound {e : PoolErr}
    (h : k.withdrawRecipientFunds recipient s = .error (.error e))
    (he : e.isNoRecipientFound = true) : s.recipientFundDistribution[recipient]? = none := by
  unfold withdrawRecipientFunds at h
  split at h
  · assumption
  · rename_i coins _
    unfold distributeFromStreamFunds sendFromModuleToAccount at h
    match hbank : k.bankKeeper.sendCoinsFromModuleToAccount s.bank streamAccount recipient coins with
    | .ok bank => simp [hbank, mapFault] at h
    | .error (.panic text) => simp [hbank, mapFault] at h
    | .error (.error e') =>
      simp only [hbank, mapFault, error_bind, error.injEq, Fault.error.injEq] at h
      rw [← h] at he
      simp [PoolErr.isNoRecipientFound] at he

theorem withdrawIfAllocated_ok {text : String}
    (h : k.withdrawIfAllocated recipient text s = .ok (coins, s')) :
    k.withdrawRecipientFunds recipient s = .ok (coins, s') ∨
      s.recipientFundDistribution[recipient]? = none ∧ s' = s := by
  unfold withdrawIfAllocated at h
  split at h
  · rename_i e hfailed
    obtain ⟨hfound, h⟩ := require_eq_ok.mp h
    cases h
    exact .inr ⟨withdrawRecipientFunds_notFound hfailed hfound, rfl⟩
  · exact .inl h

/-! ## Budgets -/

theorem getClaimableFunds_ok {recipientAddr : String}
    (h : k.getClaimableFunds recipientAddr s = .ok (coin, s')) :
    ∃ budgets, s' = { s with budgetProposal := budgets } := by
  have hcalculate {recipient : AccAddress} {budget : Budget}
      (h : k.calculateClaimableFunds recipient budget s = .ok (coin, s')) :
      ∃ budgets, s' = { s with budgetProposal := budgets } := by
    simp only [calculateClaimableFunds, passes] at h
    obtain ⟨_, -, _, -, _, -, -, -, _, -, _, -, _, -, _, -, h⟩ := h
    cases h
    exact ⟨_, rfl⟩
  unfold getClaimableFunds at h
  obtain ⟨_, _, h⟩ := bind_eq_ok.mp h
  split at h
  · simp at h
  · simp only [passes] at h
    obtain ⟨_, -, _, -, _, -, -, -, h⟩ := h
    split at h
    · exact hcalculate h
    · exact hcalculate h

include hk in
theorem claimBudget_ok {recipientAddress : String}
    (h : k.claimBudget recipientAddress s = .ok (coin, s')) :
    ∃ recipient amount bank budgets, k.stringToBytes recipientAddress = .ok recipient ∧
      s' = { s with bank := bank, budgetProposal := budgets } ∧
      Transfers pool recipient amount s.bank bank ∧ ∀ d, 0 ≤ amount d := by
  simp only [claimBudget, claimFunds, bind_eq_ok] at h
  obtain ⟨recipient, hrecipient, ⟨_, _⟩, hclaim, coins, -, _, hs2, h⟩ := h
  cases h
  obtain ⟨budgets, rfl⟩ := getClaimableFunds_ok (mapFault_eq_ok.mp hclaim)
  obtain ⟨bank, rfl, htransfers, hnonneg⟩ :=
    sendFromModuleToAccount_ok hk hk.poolAddr (mapFault_eq_ok.mp hs2)
  exact ⟨recipient, amountIn coins, bank, budgets, mapFault_eq_ok.mp hrecipient, rfl, htransfers, hnonneg⟩

/-! ## Genesis -/

theorem initContinuousFunds_ok {l : List ContinuousFund}
    (h : l.foldlM k.initContinuousFund s = .ok s') :
    ∃ funds, s' = { s with continuousFund := funds } ∧
      ∀ (a : AccAddress) (f : ContinuousFund), funds[a]? = some f →
        s.continuousFund[a]? = some f ∨ f ∈ l ∧ k.stringToBytes f.recipient = .ok a := by
  refine foldlM_invariant (I := fun s' => ∃ funds, s' = { s with continuousFund := funds } ∧
    ∀ (a : AccAddress) (f : ContinuousFund), funds[a]? = some f →
      s.continuousFund[a]? = some f ∨ f ∈ l ∧ k.stringToBytes f.recipient = .ok a) ?_ ?_ h
  · intro cf hcf s1 s2 hs1 hstep
    obtain ⟨funds, rfl, hfunds⟩ := hs1
    unfold initContinuousFund at hstep
    split at hstep
    · cases hstep
      exact ⟨funds, rfl, hfunds⟩
    · obtain ⟨_, ha, hstep⟩ := bind_eq_ok.mp hstep
      cases hstep
      refine ⟨_, rfl, fun a' f hf => ?_⟩
      cases cases_of_insert hf with
      | inl hnew =>
        obtain ⟨rfl, rfl⟩ := hnew
        exact .inr ⟨hcf, mapFault_eq_ok.mp ha⟩
      | inr hold => exact hfunds a' f hold.2
  · exact ⟨s.continuousFund, rfl, fun _ _ => .inl⟩

theorem initBudgets_ok {l : List Budget} (h : l.foldlM k.initBudget s = .ok s') :
    ∃ budgets, s' = { s with budgetProposal := budgets } := by
  refine foldlM_invariant
    (I := fun s' : State A => ∃ budgets, s' = { s with budgetProposal := budgets }) ?_
    ⟨s.budgetProposal, rfl⟩ h
  intro budget _ s1 s2 hs1 hstep
  obtain ⟨budgets, rfl⟩ := hs1
  unfold initBudget at hstep
  split at hstep
  · cases hstep
    exact ⟨budgets, rfl⟩
  · split at hstep
    · cases hstep
      exact ⟨budgets, rfl⟩
    · obtain ⟨_, _, hstep⟩ := bind_eq_ok.mp hstep
      cases hstep
      exact ⟨_, rfl⟩

theorem initGenesis_ok {data : GenesisState} (hnone : data.distributions = []) {bank : Ledger A}
    (h : k.initGenesis data (noPool bank time height) = .ok s) :
    ∃ funds budgets, s = ⟨bank, time, height, budgets, funds, ∅, ∅, some data.lastBalance,
        some data.params⟩ ∧ ∀ (a : AccAddress) (f : ContinuousFund), funds[a]? = some f →
        f ∈ data.continuousFund ∧ k.stringToBytes f.recipient = .ok a := by
  simp only [initGenesis, passes] at h
  obtain ⟨_, hs1, _, hs2, ⟨_, _⟩, hs3, -, -, -, -, -, h⟩ := h
  cases h
  obtain ⟨funds, rfl, hfunds⟩ := initContinuousFunds_ok hs1
  obtain ⟨budgets, rfl⟩ := initBudgets_ok hs2
  rw [hnone] at hs3
  cases hs3
  refine ⟨funds, budgets, rfl, fun a f hf => ?_⟩
  cases hfunds a f hf with
  | inl hold => simp [noPool] at hold
  | inr hnew => exact hnew

include hk in
theorem withdrawAll_rest {l : List (AccAddress × Coins)}
    (h : l.foldlM k.withdrawForExport s = .ok s') :
    s' = { s with bank := s'.bank, recipientFundDistribution := s'.recipientFundDistribution } := by
  refine foldlM_invariant (I := fun s' : State A => s' = { s with
    bank := s'.bank, recipientFundDistribution := s'.recipientFundDistribution }) ?_ rfl h
  intro e _ s1 s2 hs1 hstep
  unfold withdrawForExport at hstep
  obtain ⟨⟨_, _⟩, hwithdrawn, hstep⟩ := bind_eq_ok.mp hstep
  cases hstep
  obtain ⟨_, _, rfl, _⟩ := withdrawRecipientFunds_ok hk hwithdrawn
  rw [hs1]

include hk in
theorem restart_ok (h : k.restart time height s = .ok s') :
    ∃ s1 s2 cf budget params, k.Distributed stream s s1 ∧
      s1.recipientFundDistribution.toList.foldlM k.withdrawForExport s1 = .ok s2 ∧
      s2.lastBalance = some [] ∧ s2.params = some params ∧
      (∀ f ∈ cf, ∃ a f', s2.continuousFund[a]? = some f' ∧ k.stringToBytes f.recipient = .ok a) ∧
      k.initGenesis ⟨cf, budget, [], [], params⟩ (noPool s2.bank time height) = .ok s' := by
  simp only [restart, exportGenesis, bind_eq_ok] at h
  obtain ⟨⟨_, _⟩, ⟨s1, hs1, s2, hs2, cf, hcf, budget, -, hexport⟩, h⟩ := h
  have hdistributed := iterateAndUpdateFundsDistribution_ok hk hs1
  have hrest := withdrawAll_rest hk hs2
  have hlast : s2.lastBalance = some [] := by rw [hrest, hdistributed.rest]
  have hnone : s2.distributions = ∅ := by rw [hrest, hdistributed.rest]
  rw [hlast, hnone] at hexport
  split at hexport
  · rename_i lastBalance params hsome hparams
    obtain rfl := Option.some.inj hsome
    obtain ⟨rfl, rfl⟩ := Prod.mk.inj (ok.inj hexport)
    refine ⟨s1, s2, cf, budget, params, hdistributed, hs2, hlast, hparams, fun f hf => ?_, h⟩
    obtain ⟨⟨a, f'⟩, hmem, hf⟩ := (mem_mapM_iff hcf).mp hf
    unfold exportFund at hf
    obtain ⟨text, htext, hf⟩ := bind_eq_ok.mp hf
    obtain rfl := ok.inj hf
    exact ⟨a, f', ExtTreeMap.mem_toList_iff_getElem?_eq_some.mp hmem,
      hk.codec a text (mapFault_eq_ok.mp htext)⟩
  · simp at hexport

/-! ## Requests -/

def Names (k : Keeper A) (request : Request) (recipient : AccAddress) : Prop :=
  match request with
  | .communityPoolSpend authority text _ =>
    k.authority = authority ∧ k.stringToBytes text = .ok recipient
  | .claimBudget text => k.stringToBytes text = .ok recipient
  | _ => False

inductive Effect (k : Keeper A) (distr stream pool : AccAddress) : Request → State A → State A → Prop
  | paid {request : Request} {s : State A} {sender recipient : AccAddress} {amount : Denom → Int}
      {bank : Ledger A} {budgets : OrdMap AccAddress Budget}
      (htransfers : Transfers sender recipient amount s.bank bank) (hamount : ∀ d, 0 ≤ amount d)
      (hstream : sender ≠ stream) (hdistr : sender ≠ distr)
      (hrecipient : recipient = distr ∨ recipient = pool ∨ k.Names request recipient) :
      Effect k distr stream pool request s { s with bank := bank, budgetProposal := budgets }
  | budgets {request : Request} {s : State A} (budgets : OrdMap AccAddress Budget) :
      Effect k distr stream pool request s { s with budgetProposal := budgets }
  | block {time height : Int} {s s' : State A} (htime : s.time < time)
      (hs : k.beginBlocker time height s = .ok s') :
      Effect k distr stream pool (.beginBlocker time height) s s'
  | created {msg : MsgCreateContinuousFund} {a : AccAddress} {s s₁ : State A}
      (hauthority : k.authority = msg.authority)
      (ha : k.stringToBytes msg.recipient = .ok a) (hnew : s.continuousFund[a]? = none)
      (hs₁ : k.Distributed stream s s₁) :
      Effect k distr stream pool (.createContinuousFund msg) s (setContinuousFund a msg s₁)
  | withdrawn {request : Request} {a : AccAddress} {coins : Coins} {s s₁ s' : State A}
      (hs₁ : k.Distributed stream s s₁) (hs' : k.withdrawRecipientFunds a s₁ = .ok (coins, s')) :
      Effect k distr stream pool request s s'
  | canceled {request : Request} {a : AccAddress} {text : String} {coins : Coins} {s s₁ s₂ : State A}
      (hs₁ : k.Distributed stream s s₁) (hs₂ : k.withdrawIfAllocated a text s₁ = .ok (coins, s₂)) :
      Effect k distr stream pool request s { s₂ with
        continuousFund := s₂.continuousFund.erase a
        recipientFundDistribution := s₂.recipientFundDistribution.erase a }
  | params {authority : String} {params : Params} {s : State A}
      (hauthority : k.authority = authority) :
      Effect k distr stream pool (.updateParams authority params) s { s with params := some params }
  | restarted {time height : Int} {s s' : State A} (hs : k.restart time height s = .ok s') :
      Effect k distr stream pool (.restart time height) s s'

theorem quietly_ok {x : PoolResult (State A)} (h : quietly x = .ok (response, s')) :
    x = .ok s' := by
  unfold quietly at h
  obtain ⟨_, hx, h⟩ := bind_eq_ok.mp h
  cases h
  exact hx

include hk in
theorem exec_effect (hpossible : k.Possible distr stream request s)
    (h : k.exec s request = .ok (response, s')) : k.Effect distr stream pool request s s' := by
  cases request with
  | deposit =>
    obtain ⟨bank, rfl, htransfers, hnonneg⟩ :=
      sendFromAccountToModule_ok hk hk.distrAddr (quietly_ok h)
    exact .paid htransfers hnonneg hpossible.1 hpossible.2 (.inl rfl)
  | beginBlocker => exact .block hpossible (quietly_ok h)
  | createContinuousFund =>
    obtain ⟨hauthority, a, s1, ha, hnew, hs1, rfl⟩ := createContinuousFund_ok (quietly_ok h)
    exact .created hauthority ha hnew (iterateAndUpdateFundsDistribution_ok hk hs1)
  | withdrawContinuousFund =>
    simp only [exec, withdrawContinuousFund, bind_eq_ok] at h
    obtain ⟨⟨_, s1⟩, ⟨_, -, _, hs2, hs1⟩, h⟩ := h
    cases h
    exact .withdrawn (iterateAndUpdateFundsDistribution_ok hk (mapFault_eq_ok.mp hs2))
      (mapFault_eq_ok.mp hs1)
  | cancelContinuousFund =>
    simp only [exec, cancelContinuousFund, bind_eq_ok] at h
    obtain ⟨⟨canceled, _⟩, ⟨-, -, a, -, _, hs2, ⟨_, _⟩, hs3, hs1⟩, h⟩ := h
    cases h
    cases hs1
    exact .canceled (iterateAndUpdateFundsDistribution_ok hk hs2) hs3
  | fundCommunityPool =>
    have hs := quietly_ok h
    simp only [msgFundCommunityPool, bind_eq_ok] at hs
    obtain ⟨a, ha, -, -, hs⟩ := hs
    obtain ⟨bank, rfl, htransfers, hnonneg⟩ := sendFromAccountToModule_ok hk hk.poolAddr hs
    obtain ⟨hstream, hdistr⟩ := hpossible a (by rw [mapFault_eq_ok.mp ha]; rfl)
    exact .paid htransfers hnonneg hstream hdistr (.inr (.inl rfl))
  | communityPoolSpend =>
    have hs := quietly_ok h
    simp only [communityPoolSpend, bind_eq_ok] at hs
    obtain ⟨_, hauthority, -, -, _, ha, hs⟩ := hs
    obtain ⟨_, rfl, htransfers, hnonneg⟩ := sendFromModuleToAccount_ok hk hk.poolAddr hs
    exact .paid htransfers hnonneg hk.pool_ne_stream hk.distr_ne_pool.symm
      (.inr (.inr ⟨validateAuthority_ok hauthority, ha⟩))
  | submitBudgetProposal =>
    have hs := quietly_ok h
    simp only [submitBudgetProposal, bind_eq_ok] at hs
    obtain ⟨_, -, _, -, _, -, hs⟩ := hs
    cases hs
    exact .budgets _
  | claimBudget =>
    obtain ⟨⟨_, _⟩, hs1, h⟩ := bind_eq_ok.mp h
    cases h
    obtain ⟨_, _, _, _, ha, rfl, htransfers, hnonneg⟩ := claimBudget_ok hk hs1
    exact .paid htransfers hnonneg hk.pool_ne_stream hk.distr_ne_pool.symm (.inr (.inr ha))
  | updateParams =>
    have hs := quietly_ok h
    unfold updateParams at hs
    obtain ⟨_, hauthority, hs⟩ := bind_eq_ok.mp hs
    cases hs
    exact .params (validateAuthority_ok hauthority)
  | restart => exact .restarted (quietly_ok h)

include hk in
theorem step_keeps {I : State A → Prop} (hpossible : k.Possible distr stream request s)
    (heffect : ∀ s', k.Effect distr stream pool request s s' → I s') (h : I s) :
    I (k.step request s).2 := by
  unfold step
  cases hexec : k.exec s request with
  | error => exact h
  | ok result => exact heffect result.2 (exec_effect hk hpossible hexec)

end Keeper

end CosmosSDK.ProtocolPool
