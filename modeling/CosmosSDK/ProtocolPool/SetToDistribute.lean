import CosmosSDK.ProtocolPool.Accounted

/-!
# The begin blocker does not fail

As long as the enabled denominations are valid, not repeated, and include those that were
recorded but not yet distributed, `SetToDistribute` succeeds in every state of the pool.
-/

namespace CosmosSDK.ProtocolPool

open Bank CosmosSDK.Types Math Auth OrderedKV Std Fallible List Coins BankKeeper Moves Machine

variable {A : Type}

namespace Keeper

section Conditions

variable (k : Keeper A)

/-- The module accounts exist, and coins can go from the distribution account to the pool. -/
structure Working (distr pool : AccAddress) : Prop where
  distrAccount : ∀ accounts, ∃ acc accounts',
    k.bankKeeper.getModuleAccount accounts protocolPoolDistrAccount = .ok (some acc, accounts')
  poolAccount : ∀ accounts, ∃ acc accounts',
    k.bankKeeper.getModuleAccount accounts moduleName = .ok (some acc, accounts')
  serves : k.bankKeeper.Serves distr pool

/-- Denominations that can be enabled when the given coins are recorded: they are valid, none is
repeated, and none of the recorded ones is missing. -/
def Enabled (denoms : List Denom) (lastBalance : Coins) : Prop :=
  (∀ d ∈ denoms, k.bankKeeper.validateDenom d = true) ∧ denoms.Nodup ∧
    ∀ c ∈ lastBalance, c.denom ∈ denoms

instance (denoms : List Denom) (lastBalance : Coins) : Decidable (k.Enabled denoms lastBalance) :=
  inferInstanceAs (Decidable (_ ∧ _ ∧ _))

/-- New parameters from the authority enable denominations that can be enabled. -/
def KeepsDenoms (request : Request) (s : State A) : Prop :=
  match request with
  | .updateParams authority params =>
    k.authority = authority → k.Enabled params.enabledDistributionDenoms (s.lastBalance.getD [])
  | _ => True

instance (request : Request) (s : State A) : Decidable (k.KeepsDenoms request s) := by
  unfold KeepsDenoms
  split <;> infer_instance

structure Ready (distr : AccAddress) (s : State A) : Prop where
  positive : s.bank.BalancesPositive
  bounded : ∀ d, s.bank.circulating d < 2 ^ 256
  covered : ∀ d, amountIn (s.lastBalance.getD []) d ≤ s.bank.balanceOf distr d
  valid : isValid k.bankKeeper.validateDenom (s.lastBalance.getD []) = true
  enabled : ∃ params, s.params = some params ∧
    k.Enabled params.enabledDistributionDenoms (s.lastBalance.getD [])

end Conditions

variable {k : Keeper A} {distr stream pool : AccAddress} (hk : k.Modules distr stream pool)
  (hworks : k.Working distr pool)

/-! ## The balance of the enabled denominations -/

variable {b : Ledger A} {addr : AccAddress} {denoms : List Denom} {coins amount : Coins}
  {s s' : State A} {time height : Int} (hs : k.Ready distr s)

theorem whitelistedBalance_of_enabled (hb : b.BalancesPositive)
    (hbounded : ∀ d, b.circulating d < 2 ^ 256)
    (hvalid : ∀ d ∈ denoms, k.bankKeeper.validateDenom d = true) (hnodup : denoms.Nodup)
    (hcoins : isValid k.bankKeeper.validateDenom coins = true)
    (hfresh : ∀ d ∈ denoms, amountIn coins d = 0) (hbound : ∀ d, amountIn coins d < 2 ^ 256) :
    ∃ coins', k.whitelistedBalance b addr denoms coins = .ok coins' ∧
      isValid k.bankKeeper.validateDenom coins' = true := by
  induction denoms generalizing coins with
  | nil => exact ⟨coins, rfl, hcoins⟩
  | cons denom denoms ih =>
    obtain ⟨hdenom, hdenoms⟩ := forall_mem_cons.mp hvalid
    obtain ⟨hnew, hrest⟩ := nodup_cons.mp hnodup
    have hnonneg := amountIn_nonneg_of_isValid hcoins
    have hbalance := hb.nonneg addr denom
    have hle := (balanceOf_le_circulating hb addr denom).trans_lt (hbounded denom)
    -- the denomination is new, so that its amount is the balance
    have hsum (d : Denom) : amountIn coins d + amountIn [⟨denom, b.balanceOf addr denom⟩] d =
        if denom = d then b.balanceOf addr denom else amountIn coins d := by
      simp only [amountIn_cons, amountIn_nil]
      by_cases hd : denom = d
      · have hzero := hfresh denom mem_cons_self
        rw [← hd, hzero]
        simp
      · simp [hd]
    obtain ⟨sum, hadd⟩ : ∃ sum, (safeAdd coins [⟨denom, b.balanceOf addr denom⟩] :
        PoolResult Coins) = .ok sum := by
      apply safeAdd_of_bounded (isValid_iff.mp hcoins).1 (pairwise_singleton _ _)
      · intro d
        have := hnonneg d
        have := hbound d
        unfold maxBitLen
        omega
      · intro d
        simp only [amountIn_cons, amountIn_nil, maxBitLen]
        split <;> omega
      · intro d
        have := hnonneg d
        have := hbound d
        rw [hsum]
        unfold maxBitLen
        split <;> omega
    have hamount (d : Denom) :
        amountIn sum d = if denom = d then b.balanceOf addr denom else amountIn coins d := by
      rw [amountIn_safeAdd hadd, hsum]
    have hsumValid : isValid k.bankKeeper.validateDenom sum = true := by
      apply isValid_of_safeAdd hadd
      · intro d
        have := hnonneg d
        rw [hamount]
        split <;> omega
      · intro c hc
        exact ((isValid_iff.mp hcoins).2 c hc).1
      · intro c hc
        rw [mem_singleton.mp hc]
        exact hdenom
    unfold whitelistedBalance
    rw [getBalance_of_positive hb hdenom]
    simp only [mapFault, ok_bind, add, hadd]
    apply ih hdenoms hrest hsumValid
    · intro d hd
      have hne : denom ≠ d := fun heq => hnew (heq ▸ hd)
      rw [hamount, if_neg hne]
      exact hfresh d (mem_cons_of_mem denom hd)
    · intro d
      have := hbound d
      rw [hamount]
      split <;> omega

theorem mem_of_whitelistedBalance (h : k.whitelistedBalance b addr denoms [] = .ok coins)
    (hcoins : isValid k.bankKeeper.validateDenom coins = true) {c : Coin} (hc : c ∈ coins) :
    c.denom ∈ denoms := by
  obtain ⟨hordered, hpositive⟩ := isValid_iff.mp hcoins
  have hamount := whitelistedBalance_ok h c.denom
  rw [hordered.amountIn_of_mem hc, amountIn_nil, zero_add] at hamount
  by_contra hmissing
  rw [count_eq_zero_of_not_mem hmissing] at hamount
  have := (hpositive c hc).2
  simp at hamount
  omega

theorem lastBalance_le {lastBalance : Coins} (henabled : k.Enabled denoms lastBalance)
    (hcovered : ∀ d, amountIn lastBalance d ≤ b.balanceOf distr d)
    (h : k.whitelistedBalance b distr denoms [] = .ok coins) (d : Denom) :
    amountIn lastBalance d ≤ amountIn coins d := by
  rw [whitelistedBalance_ok h, amountIn_nil, henabled.2.1.count]
  split
  · simpa using hcovered d
  · rename_i hmissing
    have hzero : amountIn lastBalance d = 0 :=
      amountIn_eq_zero fun c hc heq => hmissing (heq ▸ henabled.2.2 c hc)
    simp [hzero]

/-! ## The begin blocker -/

theorem moduleAccount_of_exists {name : String} (hname : k.bankKeeper.AddressOf name addr)
    (hexists : ∀ accounts, ∃ acc accounts',
      k.bankKeeper.getModuleAccount accounts name = .ok (some acc, accounts')) (b : Ledger A) :
    ∃ acc accounts, k.bankKeeper.moduleAccount b name = .ok (acc, { b with accounts := accounts }) ∧
      acc.address = addr := by
  obtain ⟨acc, accounts, hacc⟩ := hexists b.accounts
  refine ⟨acc, accounts, ?_, hname.2 _ _ _ hacc⟩
  unfold moduleAccount
  rw [hacc, ok_bind]

include hk hworks hs

theorem sendToPool (hvalid : isValid k.bankKeeper.validateDenom amount = true)
    (hle : ∀ d, amountIn amount d ≤ s.bank.balanceOf distr d) :
    ∃ bank, k.sendFromModuleToModule s protocolPoolDistrAccount moduleName amount =
        .ok { s with bank := bank } ∧ Moves 0 0 s.bank bank := by
  obtain ⟨_, accounts, hacc, haddr⟩ :=
    moduleAccount_of_exists hk.poolAddr hworks.poolAccount s.bank
  obtain ⟨bank, hbank⟩ := sendCoins_of_le hworks.serves
    (b := { s.bank with accounts := accounts }) hs.positive hs.bounded hvalid hle
  have hsend : k.bankKeeper.sendCoinsFromModuleToModule s.bank protocolPoolDistrAccount moduleName amount =
      .ok bank := by
    unfold sendCoinsFromModuleToModule
    rw [hk.distrAddr.1]
    simp [hacc, haddr, hbank]
  refine ⟨bank, ?_, sendCoinsFromModuleToModule_moves hsend⟩
  unfold sendFromModuleToModule
  rw [hsend]
  rfl

theorem recordDistribution_succeeds {params : Params}
    (hparams : s.params = some params) {currentBalance : Coins}
    (hcurrent : ∀ d, amountIn currentBalance d ≤ s.bank.balanceOf distr d)
    (hcurrentValid : isValid k.bankKeeper.validateDenom currentBalance = true)
    (henabled : k.Enabled params.enabledDistributionDenoms currentBalance)
    (hvalid : isValid k.bankKeeper.validateDenom amount = true)
    (hle : ∀ d, amountIn amount d ≤ s.bank.balanceOf distr d) :
    ∃ s', k.recordDistribution currentBalance amount s = .ok s' ∧ k.Ready distr s' := by
  unfold recordDistribution
  split
  · obtain ⟨bank, hsend, hmoves⟩ := sendToPool hk hworks hs hvalid hle
    have hpositive := hmoves.positive hs.positive
    have hbounded (d : Denom) : bank.circulating d < 2 ^ 256 := by
      have := hs.bounded d
      rw [hmoves.circulating]
      simpa using this
    rw [hsend, ok_bind]
    split
    · rename_i hzero
      refine ⟨_, rfl, hpositive, hbounded, fun d => ?_, hs.valid, hs.enabled⟩
      have hnothing := amountIn_of_isZero hzero d
      have := hpositive.nonneg distr d
      show amountIn (s.lastBalance.getD []) d ≤ bank.balanceOf distr d
      simp only at hnothing
      omega
    · exact ⟨_, rfl, hpositive, hbounded, fun d => hpositive.nonneg distr d, rfl, params, hparams,
        henabled.1, henabled.2.1, by simp⟩
  · exact ⟨_, rfl, hs.positive, hs.bounded, hcurrent, hcurrentValid, params, hparams, henabled⟩

theorem setToDistribute_succeeds :
    ∃ s', k.setToDistribute s = .ok s' ∧ k.Ready distr s' := by
  obtain ⟨params, hparams, henabled⟩ := hs.enabled
  obtain ⟨_, accounts, hacc, haddr⟩ :=
    moduleAccount_of_exists hk.distrAddr hworks.distrAccount s.bank
  have hstart : k.Ready distr { s with bank := { s.bank with accounts := accounts } } :=
    ⟨hs.positive, hs.bounded, hs.covered, hs.valid, hs.enabled⟩
  obtain ⟨currentBalance, hcurrent, hvalid⟩ : ∃ coins, k.whitelistedBalance
      ⟨s.bank.balances, s.bank.supply, accounts⟩ distr params.enabledDistributionDenoms [] = .ok coins ∧
        isValid k.bankKeeper.validateDenom coins = true := by
    apply whitelistedBalance_of_enabled hstart.positive hs.bounded henabled.1 henabled.2.1 rfl fun _ _ => rfl
    intro d
    simp
  have hle := whitelistedBalance_le (b := { s.bank with accounts := accounts }) hs.positive henabled.2.1 hcurrent
  have hlast := lastBalance_le (b := { s.bank with accounts := accounts }) henabled hs.covered hcurrent
  have hnow : k.Enabled params.enabledDistributionDenoms currentBalance :=
    ⟨henabled.1, henabled.2.1, fun c hc => mem_of_whitelistedBalance hcurrent hvalid hc⟩
  unfold setToDistribute
  rw [hacc]
  simp only [mapFault, ok_bind, hparams, haddr, hcurrent]
  unfold distributeDifference
  split
  · refine ⟨_, rfl, ?_⟩
    rw [hparams] at hstart
    exact hstart
  · have hbound (d : Denom) : amountIn currentBalance d < 2 ^ 256 :=
      (hle d).trans_lt ((balanceOf_le_circulating hstart.positive distr d).trans_lt
        (hs.bounded d))
    obtain ⟨diff, hdiff, _, hdiffValid⟩ := safeSub_of_le
      (isValid_iff.mp hvalid).1 (newCoins_of_isValid hs.valid) hlast hbound
    have hdenoms : ∀ c ∈ currentBalance, k.bankKeeper.validateDenom c.denom = true :=
      fun c hc => ((isValid_iff.mp hvalid).2 c hc).1
    have hamount (d : Denom) : amountIn diff d ≤ s.bank.balanceOf distr d := by
      have hsub := (safeSub_ok hdiff).1 d
      have := (safeSub_ok hdiff).2.1 d
      have : amountIn currentBalance d ≤ s.bank.balanceOf distr d := hle d
      omega
    rw [hparams] at hstart
    rw [hdiff, ok_bind, if_neg (by simp)]
    exact recordDistribution_succeeds hk hworks hstart rfl hle hvalid hnow (hdiffValid hdenoms) hamount

omit hk hworks

/-! ## Requests -/

theorem Ready.congr (hmoves : Moves 0 0 s.bank s'.bank)
    (hle : ∀ d, s.bank.balanceOf distr d ≤ s'.bank.balanceOf distr d)
    (hlast : s'.lastBalance = s.lastBalance) (hparams : s'.params = s.params) :
    k.Ready distr s' where
  positive := hmoves.positive hs.positive
  bounded d := by
    have := hs.bounded d
    rw [hmoves.circulating]
    simpa using this
  covered d := hlast ▸ (hs.covered d).trans (hle d)
  valid := hlast ▸ hs.valid
  enabled := hlast ▸ hparams ▸ hs.enabled

theorem Ready.distributed (hdistributed : k.Distributed stream s s') :
    k.Ready distr s' := by
  have hpositive := hdistributed.moves.positive hs.positive
  have hlast : s'.lastBalance = some [] := by rw [hdistributed.rest]
  have hparams : s'.params = s.params := by rw [hdistributed.rest]
  obtain ⟨params, hsome, henabled⟩ := hs.enabled
  refine ⟨hpositive, fun d => ?_, fun d => ?_, ?_, params, hparams.trans hsome, henabled.1, henabled.2.1, ?_⟩
  · have := hs.bounded d
    rw [hdistributed.moves.circulating]
    simpa using this
  · rw [hlast]
    exact hpositive.nonneg distr d
  · rw [hlast]
    rfl
  · rw [hlast]
    simp

include hk in
theorem Ready.withdrawn {a : AccAddress}
    (h : k.withdrawRecipientFunds a s = .ok (coins, s')) : k.Ready distr s' := by
  obtain ⟨_, _, rfl, htransfers, hnonneg⟩ := withdrawRecipientFunds_ok hk h
  exact hs.congr htransfers.moves (htransfers.le_of_ne_sender hnonneg hk.distr_ne_stream) rfl rfl

include hk in
theorem Ready.restarted (h : k.restart time height s = .ok s') :
    k.Ready distr s' := by
  obtain ⟨_, s2, _, _, _, hdistributed, hs2, hlast, hparams, _, hinit⟩ := restart_ok hk h
  have hready : k.Ready distr s2 := by
    refine foldlM_invariant ?_ (hs.distributed hdistributed) hs2
    intro e _ t t' ht hstep
    unfold withdrawForExport at hstep
    obtain ⟨⟨_, _⟩, hwithdrawn, hstep⟩ := bind_eq_ok.mp hstep
    cases hstep
    exact ht.withdrawn hk hwithdrawn
  obtain ⟨_, _, rfl, _⟩ := initGenesis_ok rfl hinit
  exact hready.congr (refl s2.bank) (fun _ => le_rfl) hlast.symm hparams.symm

include hk hworks in
theorem Ready.effect {request : Request} (hkeeps : k.KeepsDenoms request s)
    (heffect : k.Effect distr stream pool request s s') : k.Ready distr s' := by
  cases heffect with
  | paid htransfers hamount _ hdistr =>
    exact hs.congr htransfers.moves (htransfers.le_of_ne_sender hamount hdistr.symm) rfl rfl
  | budgets => exact hs.congr (refl s.bank) (fun _ => le_rfl) rfl rfl
  | @block time height _ _ _ hblock =>
    have hheader : k.Ready distr { s with time := time, height := height } :=
      hs.congr (refl s.bank) (fun _ => le_rfl) rfl rfl
    obtain ⟨_, hs'', hready⟩ := setToDistribute_succeeds hk hworks hheader
    obtain rfl := Except.ok.inj (hs''.symm.trans hblock)
    exact hready
  | @created _ _ _ s1 _ _ _ hs1 =>
    exact (hs.distributed hs1).congr (refl s1.bank) (fun _ => le_rfl) rfl rfl
  | withdrawn hs1 hs' => exact (hs.distributed hs1).withdrawn hk hs'
  | canceled hs1 hs2 =>
    cases withdrawIfAllocated_ok hs2 with
    | inl hwithdrawn =>
      have hready := (hs.distributed hs1).withdrawn hk hwithdrawn
      exact hready.congr (refl _) (fun _ => le_rfl) rfl rfl
    | inr hmissing =>
      obtain ⟨_, rfl⟩ := hmissing
      exact (hs.distributed hs1).congr (refl _) (fun _ => le_rfl) rfl rfl
  | @params _ params _ hauthority =>
    exact ⟨hs.positive, hs.bounded, hs.covered, hs.valid, params, rfl, hkeeps hauthority⟩
  | restarted hrestart => exact hs.restarted hk hrestart

omit hs in
theorem ready_initGenesis {data : GenesisState} (hnone : data.distributions = [])
    (hlast : data.lastBalance = []) (hdenoms : k.Enabled data.params.enabledDistributionDenoms [])
    {bank : Ledger A} (hpositive : bank.BalancesPositive)
    (hbounded : ∀ d, bank.circulating d < 2 ^ 256)
    (h : k.initGenesis data (noPool bank time height) = .ok s) : k.Ready distr s := by
  obtain ⟨_, _, rfl, _⟩ := initGenesis_ok hnone h
  rw [hlast]
  exact ⟨hpositive, hbounded, fun d => hpositive.nonneg distr d, rfl, data.params, rfl, hdenoms⟩

end Keeper

/-! ## The small chain -/

theorem smallKeeper_working : smallKeeper.Working [1] [3] where
  distrAccount _ := ⟨_, _, rfl⟩
  poolAccount _ := ⟨_, _, rfl⟩
  serves := {
    unlocked := fun _ => rfl
    unrestricted := fun _ => rfl
    senderText := ⟨_, rfl⟩
    recipientText := ⟨_, rfl⟩
    emits := fun _ => rfl }

theorem smallLedger_bounded (d : Denom) : smallLedger.circulating d < 2 ^ 256 := by
  have hstake := total_insert (fun (key : AccAddress × Denom) (amount : Int) => if key.2 = d then amount else 0)
    ∅ ([9], stake) 1000
  have hatom := total_insert (fun (key : AccAddress × Denom) (amount : Int) => if key.2 = d then amount else 0)
    ((∅ : OrdMap (AccAddress × Denom) Int).insert ([9], stake) 1000) ([9], atom) 1000
  rw [part_of_none _ (by simp), total_empty] at hstake
  rw [part_of_none _ (by rw [lookup_insert, if_neg (by decide)]; rfl)] at hatom
  unfold Ledger.circulating smallLedger
  simp only at hstake hatom ⊢
  omega

namespace Keeper

variable {k : Keeper A} {distr stream pool : AccAddress}

/-- Along every run from a new pool in which the parameters keep to denominations that can be
enabled, the begin blocker succeeds. -/
theorem run_beginBlocker_succeeds (hk : k.Modules distr stream pool) (hworks : k.Working distr pool)
    {data : GenesisState} (hnone : data.distributions = []) (hlast : data.lastBalance = [])
    (hdenoms : k.Enabled data.params.enabledDistributionDenoms []) {bank : Ledger A}
    (hpositive : bank.BalancesPositive) (hbounded : ∀ d, bank.circulating d < 2 ^ 256)
    {time height : Int} {s : State A} (hstart : k.initGenesis data (noPool bank time height) = .ok s)
    {requests : List Request} (hrun : Machine.Along k.step
      (fun request s => k.Possible distr stream request s ∧ k.KeepsDenoms request s) requests s)
    (time' height' : Int) :
    ∃ s', k.beginBlocker time' height' (run k.step requests s).2 = .ok s' := by
  have hready := hrun.invariant
    (fun request s hgood h => step_keeps hk hgood.1 (fun _ => h.effect hk hworks hgood.2) h)
    (ready_initGenesis hnone hlast hdenoms hpositive hbounded hstart)
  have hheader : k.Ready distr
      { (run k.step requests s).2 with time := time', height := height' } :=
    hready.congr (refl _) (fun _ => le_rfl) rfl rfl
  obtain ⟨s', hs', _⟩ := setToDistribute_succeeds hk hworks hheader
  exact ⟨s', hs'⟩

theorem atom_beginBlocker_succeeds :
    ∃ s', smallKeeper.beginBlocker 9 3 (run smallKeeper.step
      [halfUntil 10 "alice", .deposit [9] [⟨stake, 100⟩], .beginBlocker 5 2,
        .updateParams "gov" ⟨[atom, stake]⟩, .deposit [9] [⟨atom, 5⟩], .restart 7 1] smallPool).2 = .ok s' :=
  run_beginBlocker_succeeds smallKeeper_modules smallKeeper_working rfl rfl (by decide) smallLedger_positive
    smallLedger_bounded smallPool_init (by decide +kernel) 9 3

/-- A possible run of the small chain that ends in front of a block which fails. -/
def Halts (requests : List Request) : Prop :=
  Machine.Along smallKeeper.step (smallKeeper.Possible [1] [2]) requests smallPool ∧
    (smallKeeper.beginBlocker 9 3 (run smallKeeper.step requests smallPool).2).toOption.isNone = true

instance (requests : List Request) : Decidable (Halts requests) := inferInstanceAs (Decidable (_ ∧ _))

/-- The begin blocker fails after parameters that leave out a denomination which is recorded,
that repeat one, or that add one which is not valid. -/
theorem updateParams_halts :
    Halts [halfUntil 10 "alice", .deposit [9] [⟨stake, 100⟩], .beginBlocker 5 2, .deposit [9] [⟨atom, 5⟩],
        .updateParams "gov" ⟨[atom]⟩] ∧
      Halts [.deposit [9] [⟨stake, 100⟩], .updateParams "gov" ⟨[stake, stake]⟩] ∧
      Halts [.updateParams "gov" ⟨[stake, []]⟩] := by
  decide +kernel

end Keeper

end CosmosSDK.ProtocolPool
