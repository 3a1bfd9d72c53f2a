import CosmosSDK.ProtocolPool.Effects

/-!
# Every coin of the pool is accounted for

In runs in which no recipient gets a new fund while it has coins to claim, the stream account
holds what can be claimed from it, and the distribution account what was recorded.
-/

namespace CosmosSDK.ProtocolPool

open Bank CosmosSDK.Types Math Auth OrderedKV Std Fallible List Coins Except Machine

variable {A : Type}

/-- The claims are what the stream account has, the recorded distributions are the last
balance, and the distribution account has that. -/
structure Accounted (distr stream : AccAddress) (s : State A) : Prop where
  streams : ∀ d, s.bank.balanceOf stream d = sumOf s.recipientFundDistribution d
  covered : ∀ d, amountIn (s.lastBalance.getD []) d ≤ s.bank.balanceOf distr d
  recorded : ∀ d, amountIn (s.lastBalance.getD []) d = sumOf s.distributions d

namespace Keeper

variable (k : Keeper A) (distr stream : AccAddress)

/-- No recipient gets a new fund from the authority while it has coins to claim, the stream
account gets coins from distributions only, and no denomination is enabled twice when a block
begins. -/
def KeepsClaims (request : Request) (s : State A) : Prop :=
  match request with
  | .createContinuousFund msg =>
    k.authority = msg.authority → ∀ a ∈ (k.stringToBytes msg.recipient).toOption,
      s.continuousFund[a]? = none →
      a ≠ stream ∧ ∀ coins ∈ s.recipientFundDistribution[a]?, isZero coins = true
  | .beginBlocker _ _ => ∀ params ∈ s.params, params.enabledDistributionDenoms.Nodup
  | .communityPoolSpend authority recipient _ =>
    k.authority = authority → ∀ a ∈ (k.stringToBytes recipient).toOption, a ≠ stream
  | .claimBudget recipientAddress => ∀ a ∈ (k.stringToBytes recipientAddress).toOption, a ≠ stream
  | _ => True

instance (request : Request) (s : State A) : Decidable (k.KeepsClaims stream request s) :=
  match request with
  | .createContinuousFund _ => inferInstanceAs (Decidable (_ → ∀ a ∈ _, _ → _ ∧ ∀ coins ∈ _, _))
  | .beginBlocker .. => inferInstanceAs (Decidable (∀ params ∈ _, _))
  | .communityPoolSpend .. => inferInstanceAs (Decidable (_ → ∀ a ∈ _, _))
  | .claimBudget _ => inferInstanceAs (Decidable (∀ a ∈ _, _))
  | .deposit .. | .withdrawContinuousFund .. | .cancelContinuousFund .. | .fundCommunityPool ..
  | .submitBudgetProposal .. | .updateParams .. | .restart .. => .isTrue trivial

/-! ## The invariant -/

structure Inv (s : State A) : Prop extends Accounted distr stream s where
  times : ∀ (t : Int) (coins : Coins), s.distributions[t]? = some coins → t ≤ s.time
  idle : s.continuousFund.isEmpty = true → ∀ d, amountIn (s.lastBalance.getD []) d = 0
  decoded : ∀ (a : AccAddress) (f : ContinuousFund), s.continuousFund[a]? = some f →
    k.stringToBytes f.recipient = .ok a ∧ a ≠ stream
  claims : ∀ (a : AccAddress) (coins : Coins), s.recipientFundDistribution[a]? = some coins → a ≠ stream
  positive : s.bank.BalancesPositive

variable {k distr stream} {pool : AccAddress} (hk : k.Modules distr stream pool)

/-! ## Single steps -/

variable {s s' s₁ : State A} {recipient addr a : AccAddress} {bank b : Ledger A} {coins : Coins}
  {denoms : List Denom} {time height : Int} (h : k.Inv distr stream s)
include h

/-- Coins that move between other accounts, or to the distribution account. -/
theorem Inv.transfer {sender : AccAddress} {amount : Denom → Int}
    (htransfers : Transfers sender recipient amount s.bank bank) (hamount : ∀ d, 0 ≤ amount d)
    (hstream : sender ≠ stream) (hdistr : sender ≠ distr) (hrecipient : recipient ≠ stream) :
    k.Inv distr stream { s with bank := bank } where
  streams d := by
    rw [← h.streams d]
    exact htransfers.of_ne hstream.symm hrecipient.symm d
  covered d := (h.covered d).trans (htransfers.le_of_ne_sender hamount hdistr.symm d)
  recorded := h.recorded
  times := h.times
  idle := h.idle
  decoded := h.decoded
  claims := h.claims
  positive := htransfers.moves.positive h.positive

theorem Inv.distributed (hs : k.Distributed stream s s') :
    k.Inv distr stream s' := by
  have hpositive := hs.moves.positive h.positive
  have hlast : s'.lastBalance = some [] := by rw [hs.rest]
  have hnone : s'.distributions = ∅ := by rw [hs.rest]
  have hzero (d : Denom) : amountIn (s'.lastBalance.getD []) d = 0 := by
    rw [hlast]
    rfl
  refine ⟨⟨fun d => ?_, fun d => ?_, fun d => ?_⟩, fun t coins ht => ?_, fun _ => hzero, fun a f hf => ?_,
    fun a coins ha => ?_, hpositive⟩
  · have := hs.streams d
    have := h.streams d
    omega
  · rw [hzero]
    exact hpositive.nonneg distr d
  · rw [hzero, hnone, sumOf_empty]
  · rw [hnone] at ht
    simp at ht
  · exact h.decoded a f (hs.funds a f hf)
  · intro heq
    have hsame := hs.untouched a fun key f hf hdecoded => by
      obtain ⟨hkey, hne⟩ := h.decoded key f hf
      rw [hkey] at hdecoded
      exact hne (ok.inj hdecoded ▸ heq)
    rw [hsame] at ha
    exact h.claims a coins ha heq

include hk in
theorem Inv.withdrawn
    (hs : k.withdrawRecipientFunds recipient s = .ok (coins, s')) : k.Inv distr stream s' := by
  obtain ⟨hentry, bank, rfl, htransfers, hnonneg⟩ := withdrawRecipientFunds_ok hk hs
  have hne := h.claims recipient coins hentry
  refine ⟨⟨fun d => ?_, fun d => ?_, h.recorded⟩, h.times, h.idle, h.decoded, fun a c ha => ?_,
    htransfers.moves.positive h.positive⟩
  · have hstream := htransfers.of_sender hne.symm d
    have hold := h.streams d
    show bank.balanceOf stream d = sumOf (s.recipientFundDistribution.insert recipient []) d
    rw [sumOf_insert, hentry, Option.getD_some, amountIn_nil]
    omega
  · exact (h.covered d).trans (htransfers.le_of_ne_sender hnonneg hk.distr_ne_stream d)
  · cases cases_of_insert ha with
    | inl hnew => exact hnew.1 ▸ hne
    | inr hold => exact h.claims a c hold.2

/-! ## Blocks -/

omit h in
theorem whitelistedBalance_ok {coins' : Coins}
    (h : k.whitelistedBalance b addr denoms coins = .ok coins') (d : Denom) :
    amountIn coins' d = amountIn coins d + denoms.count d * b.balanceOf addr d := by
  induction denoms generalizing coins with
  | nil =>
    cases h
    simp
  | cons denom denoms ih =>
    unfold whitelistedBalance at h
    obtain ⟨_, hbal, h⟩ := bind_eq_ok.mp h
    obtain rfl := BankKeeper.getBalance_ok (mapFault_eq_ok.mp hbal)
    obtain ⟨_, hsum, h⟩ := bind_eq_ok.mp h
    rw [ih h, amountIn_safeAdd hsum, count_cons]
    by_cases hd : denom = d
    · subst hd
      simp only [amountIn_cons, amountIn_nil, if_pos, beq_self_eq_true]
      push_cast
      ring
    · simp [hd]

omit h in
theorem whitelistedBalance_le (hb : b.BalancesPositive) (hdenoms : denoms.Nodup)
    (h : k.whitelistedBalance b addr denoms [] = .ok coins) (d : Denom) :
    amountIn coins d ≤ b.balanceOf addr d := by
  have hbalance := hb.nonneg addr d
  rw [whitelistedBalance_ok h, amountIn_nil, hdenoms.count]
  split
  · simp
  · simpa using hbalance

include hk in
theorem Inv.recorded_distribution
    {currentBalance amountToDistribute : Coins}
    (hcurrent : ∀ d, amountIn currentBalance d ≤ s.bank.balanceOf distr d)
    (hamount : ∀ d, amountIn amountToDistribute d =
      amountIn currentBalance d - amountIn (s.lastBalance.getD []) d)
    (hnew : s.distributions[s.time]? = none)
    (hs : k.recordDistribution currentBalance amountToDistribute s = .ok s') :
    k.Inv distr stream s' := by
  unfold recordDistribution at hs
  split at hs
  · rename_i hempty
    obtain ⟨_, hs1, hs⟩ := bind_eq_ok.mp hs
    obtain ⟨bank, rfl, htransfers, _⟩ := sendFromModuleToModule_ok hk hk.distrAddr hk.poolAddr hs1
    have hpositive := htransfers.moves.positive h.positive
    have hlast := h.idle hempty
    have hstreams (d : Denom) : bank.balanceOf stream d = sumOf s.recipientFundDistribution d := by
      rw [← h.streams d]
      exact htransfers.of_ne hk.distr_ne_stream.symm hk.pool_ne_stream.symm d
    split at hs
    · cases hs
      refine ⟨⟨hstreams, fun d => ?_, h.recorded⟩, h.times, h.idle, h.decoded, h.claims, hpositive⟩
      rw [hlast d]
      exact hpositive.nonneg distr d
    · cases hs
      refine ⟨⟨hstreams, fun d => hpositive.nonneg distr d, fun d => ?_⟩, h.times, fun _ _ => rfl, h.decoded,
        h.claims, hpositive⟩
      show (0 : Int) = sumOf s.distributions d
      rw [← h.recorded d, hlast d]
  · rename_i hfunds
    cases hs
    refine ⟨⟨h.streams, hcurrent, fun d => ?_⟩, fun t coins ht => ?_, fun hempty => absurd hempty hfunds,
      h.decoded, h.claims, h.positive⟩
    · have hrecorded := h.recorded d
      have := hamount d
      show amountIn currentBalance d = sumOf (s.distributions.insert s.time amountToDistribute) d
      rw [sumOf_insert, hnew, Option.getD_none, amountIn_nil]
      omega
    · cases cases_of_insert ht with
      | inl hnow => exact hnow.1.le
      | inr hold => exact h.times t coins hold.2

include hk in
theorem Inv.block (htime : s.time < time)
    (hdenoms : ∀ params ∈ s.params, params.enabledDistributionDenoms.Nodup)
    (hs : k.beginBlocker time height s = .ok s') : k.Inv distr stream s' := by
  unfold beginBlocker setToDistribute at hs
  obtain ⟨⟨_, bank⟩, hacc, hs⟩ := bind_eq_ok.mp hs
  obtain ⟨haddr, accounts, rfl⟩ := BankKeeper.moduleAccount_ok hk.distrAddr (mapFault_eq_ok.mp hacc)
  cases hparams : s.params with
  | none => simp [hparams] at hs
  | some params =>
    simp only [hparams] at hs
    obtain ⟨_, hcurrent, hs⟩ := bind_eq_ok.mp hs
    -- the state with the header of the block and the accounts as the module left them
    have hstart : k.Inv distr stream
        { s with bank := { s.bank with accounts := accounts }, time := time, height := height } :=
      ⟨⟨h.streams, h.covered, h.recorded⟩, fun t coins ht => (h.times t coins ht).trans htime.le, h.idle,
        h.decoded, h.claims, h.positive⟩
    have hle := whitelistedBalance_le (b := { s.bank with accounts := accounts }) h.positive
      (hdenoms params hparams) hcurrent
    rw [haddr] at hle
    unfold distributeDifference at hs
    split at hs
    · cases hs
      rw [hparams] at hstart
      exact hstart
    · simp only [passes] at hs
      obtain ⟨⟨_, _⟩, hdiff, _, hs⟩ := hs
      rw [hparams] at hstart
      refine hstart.recorded_distribution hk hle (safeSub_ok hdiff).1 ?_ hs
      cases hnew : s.distributions[time]? with
      | none => rfl
      | some coins =>
        have := h.times time coins hnew
        omega

/-! ## Messages -/

theorem Inv.created {msg : MsgCreateContinuousFund}
    (hkeeps : k.KeepsClaims stream (.createContinuousFund msg) s)
    (hauthority : k.authority = msg.authority) (ha : k.stringToBytes msg.recipient = .ok a)
    (hnew : s.continuousFund[a]? = none)
    (hdistributed : k.Distributed stream s s₁) :
    k.Inv distr stream (setContinuousFund a msg s₁) := by
  obtain ⟨hne, hclaim⟩ := hkeeps hauthority a (by rw [ha]; rfl) hnew
  have h1 := h.distributed hdistributed
  -- no fund pays the recipient, so that the distribution adds nothing to its claim
  have hsame := hdistributed.untouched a (fun key f hf hdecoded => by
    rw [(h.decoded key f hf).1] at hdecoded
    rw [ok.inj hdecoded, hnew] at hf
    simp at hf)
  have hnothing (d : Denom) : amountIn ((s₁.recipientFundDistribution[a]?).getD []) d = 0 := by
    rw [hsame]
    cases hentry : s.recipientFundDistribution[a]? with
    | none => rfl
    | some coins => exact amountIn_of_isZero (hclaim coins hentry) d
  have hlast : s₁.lastBalance = some [] := by rw [hdistributed.rest]
  refine ⟨⟨fun d => ?_, h1.covered, h1.recorded⟩, h1.times, fun _ d => ?_, fun a' f hf => ?_,
    fun a' coins ha' => ?_, h1.positive⟩
  · show s₁.bank.balanceOf stream d = sumOf (s₁.recipientFundDistribution.insert a []) d
    rw [sumOf_insert, hnothing, amountIn_nil, h1.streams d]
    omega
  · show amountIn (s₁.lastBalance.getD []) d = 0
    rw [hlast]
    rfl
  · cases cases_of_insert hf with
    | inl hinserted =>
      obtain ⟨rfl, rfl⟩ := hinserted
      exact ⟨ha, hne⟩
    | inr hold => exact h1.decoded a' f hold.2
  · cases cases_of_insert ha' with
    | inl hinserted => exact hinserted.1 ▸ hne
    | inr hold => exact h1.claims a' coins hold.2

theorem Inv.removed (hlast : s.lastBalance = some [])
    (hnothing : ∀ d, amountIn ((s.recipientFundDistribution[a]?).getD []) d = 0) :
    k.Inv distr stream { s with
      continuousFund := s.continuousFund.erase a
      recipientFundDistribution := s.recipientFundDistribution.erase a } := by
  refine ⟨⟨fun d => ?_, h.covered, h.recorded⟩, h.times, fun _ d => ?_, fun a' f hf => ?_,
    fun a' coins ha' => ?_, h.positive⟩
  · show s.bank.balanceOf stream d = sumOf (s.recipientFundDistribution.erase a) d
    rw [sumOf_erase, hnothing, h.streams d]
    omega
  · show amountIn (s.lastBalance.getD []) d = 0
    rw [hlast]
    rfl
  · exact h.decoded a' f (of_erase hf).2
  · exact h.claims a' coins (of_erase ha').2

include hk in
theorem Inv.canceled {text : String} {s2 : State A} (hdistributed : k.Distributed stream s s₁)
    (hs2 : k.withdrawIfAllocated a text s₁ = .ok (coins, s2)) :
    k.Inv distr stream { s2 with
      continuousFund := s2.continuousFund.erase a
      recipientFundDistribution := s2.recipientFundDistribution.erase a } := by
  have h1 := h.distributed hdistributed
  have hlast : s₁.lastBalance = some [] := by rw [hdistributed.rest]
  cases withdrawIfAllocated_ok hs2 with
  | inl hwithdrawn =>
    have h2 := h1.withdrawn hk hwithdrawn
    obtain ⟨_, _, rfl, _⟩ := withdrawRecipientFunds_ok hk hwithdrawn
    apply h2.removed hlast
    intro d
    rw [lookup_insert, if_pos rfl]
    rfl
  | inr hmissing =>
    obtain ⟨hnone, rfl⟩ := hmissing
    apply h1.removed hlast
    intro d
    rw [hnone]
    rfl

/-! ## Genesis -/

omit h in
theorem inv_initGenesis {data : GenesisState} (hnone : data.distributions = [])
    (hlast : data.lastBalance = []) (hpositive : bank.BalancesPositive)
    (hstream : ∀ d, bank.balanceOf stream d = 0)
    (hfunds : ∀ f ∈ data.continuousFund, k.stringToBytes f.recipient ≠ .ok stream)
    (h : k.initGenesis data (noPool bank time height) = .ok s) : k.Inv distr stream s := by
  obtain ⟨_, _, rfl, hentries⟩ := initGenesis_ok hnone h
  rw [hlast]
  refine ⟨⟨fun d => ?_, fun d => hpositive.nonneg distr d, fun d => (sumOf_empty d).symm⟩,
    fun t coins ht => by simp at ht, fun _ _ => rfl, fun a f hf => ?_, fun a coins ha => by simp at ha,
    hpositive⟩
  · rw [hstream d]
    exact (sumOf_empty d).symm
  · obtain ⟨hmem, hdecoded⟩ := hentries a f hf
    refine ⟨hdecoded, fun heq => ?_⟩
    exact hfunds f hmem (heq ▸ hdecoded)

include hk in
theorem withdrawAll_ok {l : List (AccAddress × Coins)}
    (hs : l.foldlM k.withdrawForExport s = .ok s') : k.Inv distr stream s' ∧
      (∀ (a : AccAddress) (coins : Coins), s'.recipientFundDistribution[a]? = some coins →
        coins = [] ∨ s.recipientFundDistribution[a]? = some coins ∧ ∀ e ∈ l, e.1 ≠ a) := by
  induction l generalizing s with
  | nil =>
    cases hs
    exact ⟨h, fun a coins ha => .inr ⟨ha, by simp⟩⟩
  | cons e l ih =>
    rw [foldlM_cons, bind_eq_ok] at hs
    obtain ⟨_, hfirst, hs⟩ := hs
    unfold withdrawForExport at hfirst
    obtain ⟨⟨withdrawn, _⟩, hwithdrawn, hfirst⟩ := bind_eq_ok.mp hfirst
    cases hfirst
    obtain ⟨hinv, hentries⟩ := ih (h.withdrawn hk hwithdrawn) hs
    obtain ⟨_, _, rfl, _⟩ := withdrawRecipientFunds_ok hk hwithdrawn
    refine ⟨hinv, fun a coins ha => ?_⟩
    cases hentries a coins ha with
    | inl hnil => exact .inl hnil
    | inr hold => grind

include hk in
theorem Inv.restarted (hs : k.restart time height s = .ok s') :
    k.Inv distr stream s' := by
  obtain ⟨_, _, _, _, _, hdistributed, hs2, _, _, hcf, hinit⟩ := restart_ok hk hs
  obtain ⟨hinv, hentries⟩ := withdrawAll_ok hk (h.distributed hdistributed) hs2
  refine inv_initGenesis rfl rfl hinv.positive (fun d => ?_) (fun f hf => ?_) hinit
  · rw [hinv.streams d]
    apply sumOf_eq_zero
    intro a coins ha
    cases hentries a coins ha with
    | inl hnil => exact hnil
    | inr hold =>
      have hmem := ExtTreeMap.mem_toList_iff_getElem?_eq_some.mpr hold.1
      exact absurd rfl (hold.2 (a, coins) hmem)
  · obtain ⟨a, f', hstored, hdecoded⟩ := hcf f hf
    intro hstream
    exact (hinv.decoded a f' hstored).2 (ok.inj (hdecoded.symm.trans hstream))

/-! ## Runs -/

theorem Inv.withBudgets (budgets : OrdMap AccAddress Budget) :
    k.Inv distr stream { s with budgetProposal := budgets } :=
  ⟨⟨h.streams, h.covered, h.recorded⟩, h.times, h.idle, h.decoded, h.claims, h.positive⟩

include hk in
theorem Inv.effect {request : Request}
    (hkeeps : k.KeepsClaims stream request s) (heffect : k.Effect distr stream pool request s s') :
    k.Inv distr stream s' := by
  cases heffect with
  | paid htransfers hamount hstream hdistr hrecipient =>
    apply (h.transfer htransfers hamount hstream hdistr _).withBudgets
    match hrecipient with
    | .inl hdistr => exact hdistr ▸ hk.distr_ne_stream
    | .inr (.inl hpool) => exact hpool ▸ hk.pool_ne_stream
    | .inr (.inr hnames) =>
      -- only the two requests that name an account can pay it
      cases request with
      | communityPoolSpend =>
        exact hkeeps hnames.1 _ (by rw [show k.stringToBytes _ = _ from hnames.2]; rfl)
      | claimBudget => exact hkeeps _ (by rw [show k.stringToBytes _ = _ from hnames]; rfl)
      | _ => exact hnames.elim
  | budgets budgets => exact h.withBudgets budgets
  | block htime hs => exact h.block hk htime hkeeps hs
  | created hauthority ha hnew hs1 => exact h.created hkeeps hauthority ha hnew hs1
  | withdrawn hs1 hs' => exact (h.distributed hs1).withdrawn hk hs'
  | canceled hs1 hs2 => exact h.canceled hk hs1 hs2
  | params =>
    exact ⟨⟨h.streams, h.covered, h.recorded⟩, h.times, h.idle, h.decoded, h.claims, h.positive⟩
  | restarted hs => exact h.restarted hk hs

end Keeper

/-! ## A pool with three accounts -/

/-- The addresses of a small chain: the three module accounts and three others. -/
def names : List (AccAddress × String) :=
  [([1], "distr"), ([2], "stream"), ([3], "pool"), ([7], "alice"), ([8], "bob"), ([9], "gov")]

def moduleAddress (name : String) : Option AccAddress :=
  if name = protocolPoolDistrAccount then some [1]
  else if name = streamAccount then some [2]
  else if name = moduleName then some [3]
  else none

def smallBank : BankKeeper Unit where
  validateDenom denom := decide (denom ≠ [])
  bytesToString a := match names.find? (fun e => e.1 = a) with
    | some e => .ok e.2
    | none => .error (.error (.other "unknown address"))
  stringToBytes text := match names.find? (fun e => e.2 = text) with
    | some e => .ok e.1
    | none => .error (.error (.other "unknown address"))
  accAddressFromBech32 _ := none
  sendRestriction _ toAddr _ := .ok toAddr
  mintCoinsRestrictionFn _ := .ok ()
  blockedAddr _ := .ok false
  emitKV _ := .ok ()
  lockedCoins _ _ := []
  getAccount _ _ := none
  getModuleAddress := moduleAddress
  getModuleAccount _ name := .ok ((moduleAddress name).map (fun a => ⟨a, fun _ => true⟩), ())
  trackDelegation _ _ _ _ := .ok ()
  trackUndelegation _ _ _ := .ok ()

def smallKeeper : Keeper Unit := ⟨smallBank, "gov"⟩

theorem smallBank_addressOf {name : String} {addr : AccAddress} (h : moduleAddress name = some addr) :
    smallBank.AddressOf name addr := by
  refine ⟨h, fun accounts acc accounts' hacc => ?_⟩
  have hsome := (Prod.mk.inj (ok.inj hacc)).1
  rw [h] at hsome
  exact (Option.some.inj hsome) ▸ rfl

theorem smallKeeper_modules : smallKeeper.Modules [1] [2] [3] where
  direct _ _ _ _ h := (ok.inj h).symm
  distrAddr := smallBank_addressOf rfl
  streamAddr := smallBank_addressOf rfl
  poolAddr := smallBank_addressOf rfl
  distr_ne_stream := by decide
  pool_ne_stream := by decide
  distr_ne_pool := by decide
  codec a text h := by
    have hround : ∀ e ∈ names, smallKeeper.stringToBytes e.2 = .ok e.1 := by
      intro e he
      simp only [names, mem_cons, not_mem_nil, or_false] at he
      obtain rfl | rfl | rfl | rfl | rfl | rfl := he <;> rfl
    change (match names.find? (fun e => e.1 = a) with
      | some e => ok e.2
      | none => error (Fault.error (BankErr.other "unknown address"))) = .ok text at h
    split at h
    · rename_i e hfound
      cases h
      have haddr : e.1 = a := by simpa using List.find?_some hfound
      rw [hround e (mem_of_find?_eq_some hfound), haddr]
    · simp at h

def stake : Denom := [115, 116]

def atom : Denom := [97, 116]

def smallLedger : Ledger Unit :=
  ⟨((∅ : OrdMap (AccAddress × Denom) Int).insert ([9], stake) 1000).insert ([9], atom) 1000, ∅, ()⟩

theorem smallLedger_positive : smallLedger.BalancesPositive := by
  intro key amount h
  cases cases_of_insert h with
  | inl => omega
  | inr hold =>
    cases cases_of_insert hold.2 with
    | inl => omega
    | inr hold => simp at hold

theorem smallLedger_stream (d : Denom) : smallLedger.balanceOf [2] d = 0 := by
  have hne (denom : Denom) : (([2] : AccAddress), d) ≠ ([9], denom) := by simp
  unfold Ledger.balanceOf smallLedger
  rw [lookup_insert, if_neg (hne atom), lookup_insert, if_neg (hne stake)]
  rfl

def smallGenesis : GenesisState := ⟨[], [], [], [], ⟨[stake]⟩⟩

def smallPool : State Unit := ⟨smallLedger, 0, 1, ∅, ∅, ∅, ∅, some [], some ⟨[stake]⟩⟩

theorem smallPool_init :
    smallKeeper.initGenesis smallGenesis (Keeper.noPool smallLedger 0 1) = .ok smallPool := rfl

def halfUntil (expiry : Int) (recipient : String) : Request :=
  .createContinuousFund ⟨"gov", recipient, ⟨500000000000000000⟩, some expiry⟩

namespace Keeper

variable {k : Keeper A} {distr stream pool : AccAddress}

end Keeper

end CosmosSDK.ProtocolPool
