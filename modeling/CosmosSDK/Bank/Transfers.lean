import CosmosSDK.Bank.Supply
import CosmosSDK.Types.CoinSums

/-!
# Transfers

How the operations of the bank move single balances: what one account loses, another one
gains, and no other balance changes.
-/

namespace CosmosSDK.Bank

open CosmosSDK.Types Math Auth OrderedKV Std Fallible List Coins Ledger

variable {A : Type}

def Shifts (addr : AccAddress) (change : Denom → Int) (b b' : Ledger A) : Prop :=
  ∀ a denom, b'.balanceOf a denom = b.balanceOf a denom + if a = addr then change denom else 0

/-- An amount leaves one account and arrives at another one. -/
structure Transfers (sender recipient : AccAddress) (amount : Denom → Int) (b b' : Ledger A) :
    Prop where
  balance : ∀ a denom, b'.balanceOf a denom =
    b.balanceOf a denom - (if a = sender then amount denom else 0) +
      (if a = recipient then amount denom else 0)
  moves : Moves 0 0 b b'

namespace Shifts

variable {addr : AccAddress}

theorem refl (b : Ledger A) : Shifts addr 0 b b := by
  intro a denom
  simp

variable {f f' : Denom → Int} {b b' : Ledger A}

theorem trans {b'' : Ledger A} (h : Shifts addr f b b') (h' : Shifts addr f' b' b'') :
    Shifts addr (f + f') b b'' := by
  intro a denom
  rw [h' a denom, h a denom, add_assoc]
  split <;> simp

theorem congr (h : Shifts addr f b b') (hf : f = f') : Shifts addr f' b b' := hf ▸ h

theorem foldlM {step : Ledger A → Coin → BankResult (Ledger A)} {f : Coin → Denom → Int}
    (hstep : ∀ b coin b', step b coin = .ok b' → Shifts addr (f coin) b b') {coins : Coins}
    (h : coins.foldlM step b = .ok b') : Shifts addr (coins.map f).sum b b' := by
  induction coins generalizing b with
  | nil =>
    obtain rfl := Except.ok.inj h
    exact Shifts.refl b
  | cons coin coins ih =>
    rw [foldlM_cons, bind_eq_ok] at h
    obtain ⟨b1, hfirst, h⟩ := h
    rw [map_cons, sum_cons]
    exact (hstep b coin b1 hfirst).trans (ih h)

end Shifts

namespace Transfers

variable {sender recipient : AccAddress} {amount : Denom → Int} {b b' : Ledger A}

theorem refl (b : Ledger A) : Transfers sender recipient 0 b b where
  balance a denom := by simp
  moves := Moves.refl b

theorem of_withAccounts {accounts : A}
    (h : Transfers sender recipient amount { b with accounts := accounts } b') :
    Transfers sender recipient amount b b' where
  balance := h.balance
  moves := ⟨h.moves.circulating, h.moves.supply, h.moves.positive⟩

variable {a : AccAddress}

section

variable (h : Transfers sender recipient amount b b')
include h

theorem of_ne (hsender : a ≠ sender)
    (hrecipient : a ≠ recipient) (denom : Denom) : b'.balanceOf a denom = b.balanceOf a denom := by
  rw [h.balance, if_neg hsender, if_neg hrecipient]
  omega

theorem of_sender (hne : sender ≠ recipient)
    (denom : Denom) : b'.balanceOf sender denom = b.balanceOf sender denom - amount denom := by
  rw [h.balance, if_pos rfl, if_neg hne]
  omega

theorem of_recipient (hne : recipient ≠ sender)
    (denom : Denom) : b'.balanceOf recipient denom = b.balanceOf recipient denom + amount denom := by
  rw [h.balance, if_neg hne, if_pos rfl]
  omega

theorem le_of_ne_sender
    (hamount : ∀ denom, 0 ≤ amount denom) (hsender : a ≠ sender) (denom : Denom) :
    b.balanceOf a denom ≤ b'.balanceOf a denom := by
  have := hamount denom
  rw [h.balance, if_neg hsender]
  split <;> omega

end

end Transfers

theorem Ledger.BalancesPositive.nonneg {b : Ledger A} (hb : b.BalancesPositive) (addr : AccAddress)
    (denom : Denom) : 0 ≤ b.balanceOf addr denom := by
  unfold balanceOf
  cases hlookup : b.balances[(addr, denom)]? with
  | none => exact le_rfl
  | some => exact (hb _ _ hlookup).le

namespace BankKeeper

variable {k : BankKeeper A}
  {b b' : Ledger A} {addr from' to' : AccAddress} {balance coin : Coin}
  {lockedCoins amt : Coins} {sender recipient : String}

theorem setBalance_shifts (h : k.setBalance b addr balance = .ok b') :
    Shifts addr (amountOf ⟨balance.denom, balance.amount - b.balanceOf addr balance.denom⟩) b b' := by
  unfold setBalance at h
  obtain ⟨_, h⟩ := refuse_eq_ok.mp h
  intro a denom
  have hkey : (a, denom) = (addr, balance.denom) ↔ a = addr ∧ balance.denom = denom := by
    rw [Prod.mk.injEq, eq_comm (a := denom)]
  split at h
  · grind [Coin.isZero, balanceOf, lookup_erase, amountOf]
  · cases h
    simp only [balanceOf, lookup_insert, amountOf, hkey]
    by_cases ha : a = addr
    · by_cases hd : balance.denom = denom
      · simp [ha, hd]
      · simp [ha, hd]
    · simp [ha]

theorem subUnlockedCoin_ok (h : k.subUnlockedCoin lockedCoins addr b coin = .ok b') :
    k.setBalance b addr ⟨coin.denom, b.balanceOf addr coin.denom - coin.amount⟩ = .ok b' := by
  simp only [subUnlockedCoin, passes] at h
  obtain ⟨_, hbal, _, _, _, _, _, _, _, hsub, h⟩ := h
  obtain rfl := getBalance_ok hbal
  obtain ⟨_, rfl⟩ := coinSub_ok hsub
  exact h

theorem subUnlockedCoin_shifts (h : k.subUnlockedCoin lockedCoins addr b coin = .ok b') :
    Shifts addr (-amountOf coin) b b' := by
  apply (setBalance_shifts (subUnlockedCoin_ok h)).congr
  funext denom
  simp only [amountOf, Pi.neg_apply]
  split <;> omega

theorem addCoin_shifts (h : k.addCoin addr b coin = .ok b') : Shifts addr (amountOf coin) b b' := by
  simp only [addCoin, bind_eq_ok] at h
  obtain ⟨_, hbal, _, hadd, h⟩ := h
  obtain rfl := getBalance_ok hbal
  obtain ⟨_, rfl⟩ := coinAdd_ok hadd
  apply (setBalance_shifts h).congr
  funext denom
  simp only [amountOf]
  split <;> omega

theorem subUnlockedCoins_shifts (h : k.subUnlockedCoins b addr amt = .ok b') :
    Shifts addr (-amountIn amt) b b' := by
  simp only [subUnlockedCoins, bind_eq_ok] at h
  obtain ⟨_, hloop, _, _, _, _, h⟩ := h
  cases h
  exact (Shifts.foldlM (f := fun coin => -amountOf coin) (fun _ _ _ => subUnlockedCoin_shifts)
    hloop).congr (sum_neg_amountOf amt)

theorem addCoins_shifts (h : k.addCoins b addr amt = .ok b') : Shifts addr (amountIn amt) b b' := by
  simp only [addCoins, bind_eq_ok] at h
  obtain ⟨_, hloop, _, _, _, _, h⟩ := h
  cases h
  exact (Shifts.foldlM (f := amountOf) (fun _ _ _ => addCoin_shifts) hloop).congr (sum_amountOf amt)

/-- Send restrictions may refuse coins but not redirect them. -/
def Direct (k : BankKeeper A) : Prop :=
  ∀ fromAddr toAddr amt toAddr', k.sendRestriction fromAddr toAddr amt = .ok toAddr' → toAddr' = toAddr

theorem sendCoins_ok (hk : k.Direct) {fromAddr toAddr : AccAddress}
    (h : k.sendCoins b fromAddr toAddr amt = .ok b') :
    Transfers fromAddr toAddr (amountIn amt) b b' ∧ ∀ denom, 0 ≤ amountIn amt denom := by
  have hmoves := sendCoins_moves h
  simp only [sendCoins, passes] at h
  obtain ⟨hvalid, _, hrestriction, _, hsub, _, hadd, _, _, _, _, _, _, h⟩ := h
  cases h
  obtain rfl := hk _ _ _ _ hrestriction
  refine ⟨⟨fun a denom => ?_, hmoves⟩, amountIn_nonneg_of_isValid (by simpa using hvalid)⟩
  rw [addCoins_shifts hadd a denom, subUnlockedCoins_shifts hsub a denom, Pi.neg_apply]
  split <;> omega

/-- The account of a module, if it can be had, has the address of the module. -/
def AddressOf (k : BankKeeper A) (name : String) (addr : AccAddress) : Prop :=
  k.getModuleAddress name = some addr ∧
    ∀ accounts acc accounts', k.getModuleAccount accounts name = .ok (some acc, accounts') →
      acc.address = addr

theorem moduleAccount_ok {name : String} (hname : k.AddressOf name addr) {acc : ModuleAccount}
    (h : k.moduleAccount b name = .ok (acc, b')) :
    acc.address = addr ∧ ∃ accounts, b' = { b with accounts := accounts } := by
  unfold moduleAccount at h
  obtain ⟨⟨found, accounts⟩, hfound, h⟩ := bind_eq_ok.mp h
  cases found with
  | none => simp at h
  | some =>
    cases h
    exact ⟨hname.2 _ _ _ hfound, accounts, rfl⟩

theorem permittedAccount_ok {name permission : String} (hname : k.AddressOf name addr)
    {acc : ModuleAccount} (h : k.permittedAccount b name permission = .ok (acc, b')) :
    acc.address = addr ∧ ∃ accounts, b' = { b with accounts := accounts } := by
  simp only [permittedAccount, bind_eq_ok, require_eq_ok] at h
  obtain ⟨⟨_, _⟩, hacc, _, h⟩ := h
  simp only [Except.ok.injEq, Prod.mk.injEq] at h
  obtain ⟨rfl, rfl⟩ := h
  exact moduleAccount_ok hname hacc

theorem mintSupply_shifts (h : k.mintSupply b coin = .ok b') : Shifts addr 0 b b' := by
  simp only [mintSupply, bind_eq_ok] at h
  obtain ⟨_, -, _, -, h⟩ := h
  cases h
  intro a denom
  unfold setSupply
  split <;> simp [balanceOf]

theorem mintCoins_shifts {name : String} (hname : k.AddressOf name addr)
    (h : k.mintCoins b name amt = .ok b') : Shifts addr (amountIn amt) b b' := by
  simp only [mintCoins, passes] at h
  obtain ⟨-, -, ⟨_, _⟩, hacc, _, _, hadd, _, hloop, _, -, -, -, h⟩ := h
  cases h
  obtain ⟨rfl, _, rfl⟩ := permittedAccount_ok hname hacc
  exact ((addCoins_shifts hadd).trans (Shifts.foldlM (fun _ _ _ => mintSupply_shifts) hloop)).congr
    (by simp)

theorem mintCoins_range {name : String} (h : k.mintCoins b name [coin] = .ok b') :
    (b.supplyOf coin.denom + coin.amount).natAbs < 2 ^ maxBitLen := by
  simp only [mintCoins, passes] at h
  obtain ⟨-, -, ⟨_, _⟩, hacc, _, _, hadd, _, hloop, -⟩ := h
  have hsame := ((permittedAccount_moves hacc).trans (addCoins_moves hadd)).supply coin.denom
  simp only [List.foldlM_cons, mintSupply, Coin.add, passes] at hloop
  obtain ⟨_, ⟨_, hsupply, _, ⟨-, _, hamount, -⟩, -⟩, -⟩ := hloop
  obtain rfl := getSupply_ok hsupply
  have hlt := (inRange_iff.mp hamount).1
  simp only [Pi.add_apply, Pi.zero_apply, add_zero] at hsame
  rwa [hsame] at hlt

theorem sendCoinsFromModuleToAccount_ok (hk : k.Direct) (hsender : k.AddressOf sender from')
    (h : k.sendCoinsFromModuleToAccount b sender to' amt = .ok b') :
    Transfers from' to' (amountIn amt) b b' ∧ ∀ denom, 0 ≤ amountIn amt denom := by
  unfold sendCoinsFromModuleToAccount at h
  rw [hsender.1] at h
  simp only [passes] at h
  obtain ⟨_, _, _, h⟩ := h
  exact sendCoins_ok hk h

theorem sendCoinsFromAccountToModule_ok (hk : k.Direct) (hrecipient : k.AddressOf recipient to')
    (h : k.sendCoinsFromAccountToModule b from' recipient amt = .ok b') :
    Transfers from' to' (amountIn amt) b b' ∧ ∀ denom, 0 ≤ amountIn amt denom := by
  unfold sendCoinsFromAccountToModule at h
  obtain ⟨⟨_, _⟩, hacc, h⟩ := bind_eq_ok.mp h
  obtain ⟨rfl, _, rfl⟩ := moduleAccount_ok hrecipient hacc
  obtain ⟨htransfers, hamount⟩ := sendCoins_ok hk h
  exact ⟨htransfers.of_withAccounts, hamount⟩

theorem sendCoinsFromModuleToModule_ok (hk : k.Direct) (hsender : k.AddressOf sender from')
    (hrecipient : k.AddressOf recipient to')
    (h : k.sendCoinsFromModuleToModule b sender recipient amt = .ok b') :
    Transfers from' to' (amountIn amt) b b' ∧ ∀ denom, 0 ≤ amountIn amt denom := by
  unfold sendCoinsFromModuleToModule at h
  rw [hsender.1] at h
  exact sendCoinsFromAccountToModule_ok hk hrecipient h

/-! ## Transfers that succeed -/

theorem balanceOf_le_circulating (hb : b.BalancesPositive) (addr : AccAddress) (denom : Denom) :
    b.balanceOf addr denom ≤ b.circulating denom := by
  have hnonneg (key : AccAddress × Denom) (amount : Int) (h : b.balances[key]? = some amount) :
      0 ≤ (if key.2 = denom then amount else 0) := by
    have := hb key amount h
    split <;> omega
  unfold balanceOf circulating
  cases hlookup : b.balances[(addr, denom)]? with
  | none => exact total_nonneg hnonneg
  | some => simpa using le_total_of_nonneg hnonneg hlookup

/-- Coins can go from one account to another: nothing of the sender is locked, no restriction
refuses them, and both addresses have a text for the events. -/
structure Serves (k : BankKeeper A) (sender recipient : AccAddress) : Prop where
  unlocked : ∀ accounts, k.lockedCoins accounts sender = []
  unrestricted : ∀ amt, k.sendRestriction sender recipient amt = .ok recipient
  senderText : ∃ text, k.bytesToString sender = .ok text
  recipientText : ∃ text, k.bytesToString recipient = .ok text
  emits : ∀ event, k.emitKV event = .ok ()

theorem getBalance_of_positive (hb : b.BalancesPositive) {denom : Denom}
    (hdenom : k.validateDenom denom = true) :
    k.getBalance b addr denom = .ok ⟨denom, b.balanceOf addr denom⟩ := by
  have hnonneg := hb.nonneg addr denom
  show Coin.new k.validateDenom denom (b.balanceOf addr denom) = _
  unfold Coin.new
  rw [if_pos (by simp [Coin.isValid, hdenom, hnonneg])]

theorem setBalance_of_nonneg (hdenom : k.validateDenom balance.denom = true)
    (hnonneg : 0 ≤ balance.amount) : ∃ b', k.setBalance b addr balance = .ok b' := by
  unfold setBalance
  rw [if_neg (by simp [Coin.isValid, hdenom, hnonneg])]
  split
  · exact ⟨_, rfl⟩
  · exact ⟨_, rfl⟩

section

variable (hb : b.BalancesPositive)
include hb

theorem subUnlockedCoin_of_le (hdenom : k.validateDenom coin.denom = true)
    (hpos : 0 < coin.amount) (hle : coin.amount ≤ b.balanceOf addr coin.denom)
    (hbound : b.balanceOf addr coin.denom < 2 ^ 256) :
    ∃ b', k.subUnlockedCoin [] addr b coin = .ok b' := by
  have hordered : Coins.Ordered [⟨coin.denom, b.balanceOf addr coin.denom⟩] := pairwise_singleton _ _
  have hlocked : (newCoins k.validateDenom [⟨coin.denom, 0⟩] : BankResult Coins) = .ok [] :=
    newCoins_of_zero rfl
  obtain ⟨_, hspendable, hspendableOrdered, _⟩ := safeSub_of_le hordered hlocked
    (fun d => by simp only [amountIn_cons, amountIn_nil]; split <;> omega)
    (fun d => by simp only [amountIn_cons, amountIn_nil]; split <;> omega)
  have hamount := (safeSub_ok hspendable).1
  simp only [amountIn_cons, amountIn_nil] at hamount
  obtain ⟨_, hrest, _, _⟩ := safeSub_of_le (ε := BankErr) hspendableOrdered
    (newCoins_of_pos hpos hdenom)
    (fun d => by rw [hamount]; simp only [amountIn_cons, amountIn_nil]; split <;> omega)
    (fun d => by rw [hamount]; split <;> omega)
  have hsub : ((⟨coin.denom, b.balanceOf addr coin.denom⟩ : Coin).sub coin : BankResult Coin) =
      .ok ⟨coin.denom, b.balanceOf addr coin.denom - coin.amount⟩ := by
    unfold Coin.sub
    rw [if_neg (by simp), subInt_of_lt (by omega) hbound (by omega) (by omega), ok_bind,
      if_neg (by omega)]
  obtain ⟨b', hb'⟩ : ∃ b', k.setBalance b addr
      ⟨coin.denom, b.balanceOf addr coin.denom - coin.amount⟩ = .ok b' :=
    setBalance_of_nonneg hdenom (by simpa using hle)
  refine ⟨b', ?_⟩
  unfold subUnlockedCoin
  rw [getBalance_of_positive hb hdenom, ok_bind]
  simp [find, findWithin, hspendable, hrest, hsub, hb']

theorem addCoin_of_lt (hdenom : k.validateDenom coin.denom = true)
    (hpos : 0 < coin.amount) (hbound : b.balanceOf addr coin.denom + coin.amount < 2 ^ 256) :
    ∃ b', k.addCoin addr b coin = .ok b' := by
  have hnonneg := hb.nonneg addr coin.denom
  have hadd : ((⟨coin.denom, b.balanceOf addr coin.denom⟩ : Coin).add coin : BankResult Coin) =
      .ok ⟨coin.denom, b.balanceOf addr coin.denom + coin.amount⟩ := by
    unfold Coin.add
    rw [if_neg (by simp), addInt_of_lt hnonneg hpos.le hbound, ok_bind]
  obtain ⟨b', hb'⟩ : ∃ b', k.setBalance b addr
      ⟨coin.denom, b.balanceOf addr coin.denom + coin.amount⟩ = .ok b' :=
    setBalance_of_nonneg hdenom (by simp only; omega)
  refine ⟨b', ?_⟩
  unfold addCoin
  rw [getBalance_of_positive hb hdenom, ok_bind, hadd, ok_bind, hb']

theorem subUnlockedCoin_foldlM (hamt : ∀ c ∈ amt, k.validateDenom c.denom = true ∧ 0 < c.amount)
    (hle : ∀ d, amountIn amt d ≤ b.balanceOf addr d) (hbound : ∀ d, b.balanceOf addr d < 2 ^ 256) :
    ∃ b', amt.foldlM (k.subUnlockedCoin [] addr) b = .ok b' := by
  induction amt generalizing b with
  | nil => exact ⟨b, rfl⟩
  | cons coin amt ih =>
    obtain ⟨hcoin, hrest⟩ := forall_mem_cons.mp hamt
    have hnonneg (d : Denom) : 0 ≤ amountIn amt d :=
      amountIn_nonneg (fun c hc => (hrest c hc).2.le) d
    have hfirst : coin.amount ≤ b.balanceOf addr coin.denom := by
      have := hle coin.denom
      have := hnonneg coin.denom
      rw [amountIn_cons, if_pos rfl] at *
      omega
    obtain ⟨b1, hb1⟩ := subUnlockedCoin_of_le hb hcoin.1 hcoin.2 hfirst (hbound coin.denom)
    have hshifts (d : Denom) : b1.balanceOf addr d = b.balanceOf addr d - amountOf coin d := by
      rw [subUnlockedCoin_shifts hb1 addr d, if_pos rfl, Pi.neg_apply]
      omega
    rw [foldlM_cons, hb1, ok_bind]
    apply ih ((subUnlockedCoin_moves hb1).positive hb) hrest
    · intro d
      have := hle d
      rw [hshifts]
      simp only [amountIn_cons, amountOf] at *
      omega
    · intro d
      have := hbound d
      rw [hshifts, amountOf]
      split <;> omega

theorem addCoin_foldlM (hamt : ∀ c ∈ amt, k.validateDenom c.denom = true ∧ 0 < c.amount)
    (hbound : ∀ d, b.balanceOf addr d + amountIn amt d < 2 ^ 256) :
    ∃ b', amt.foldlM (k.addCoin addr) b = .ok b' := by
  induction amt generalizing b with
  | nil => exact ⟨b, rfl⟩
  | cons coin amt ih =>
    obtain ⟨hcoin, hrest⟩ := forall_mem_cons.mp hamt
    have hfirst : b.balanceOf addr coin.denom + coin.amount < 2 ^ 256 := by
      have := hbound coin.denom
      have := amountIn_nonneg (fun c hc => (hrest c hc).2.le) coin.denom
      rw [amountIn_cons, if_pos rfl] at *
      omega
    obtain ⟨_, hb1⟩ := addCoin_of_lt hb hcoin.1 hcoin.2 hfirst
    rw [foldlM_cons, hb1, ok_bind]
    apply ih ((addCoin_moves hb1).positive hb) hrest
    intro d
    have := hbound d
    rw [addCoin_shifts hb1 addr d, if_pos rfl, amountOf]
    simp only [amountIn_cons] at this
    omega

end

/-- An account that has the coins can send them, as long as the supply is in range. -/
theorem sendCoins_of_le {sender recipient : AccAddress} (hk : k.Serves sender recipient)
    (hb : b.BalancesPositive) (hbound : ∀ d, b.circulating d < 2 ^ 256)
    (hvalid : isValid k.validateDenom amt = true)
    (hle : ∀ d, amountIn amt d ≤ b.balanceOf sender d) :
    ∃ b', k.sendCoins b sender recipient amt = .ok b' := by
  have hamt := (isValid_iff.mp hvalid).2
  obtain ⟨senderText, hsenderText⟩ := hk.senderText
  obtain ⟨recipientText, hrecipientText⟩ := hk.recipientText
  obtain ⟨b1, hloop⟩ := subUnlockedCoin_foldlM hb hamt hle
    (fun d => (balanceOf_le_circulating hb sender d).trans_lt (hbound d))
  have hsub : k.subUnlockedCoins b sender amt = .ok b1 := by
    unfold subUnlockedCoins
    rw [hk.unlocked, hloop, ok_bind, hsenderText, ok_bind, hk.emits, ok_bind]
  have hb1 := (subUnlockedCoins_moves hsub).positive hb
  have hroom (d : Denom) : b1.balanceOf recipient d + amountIn amt d < 2 ^ 256 := by
    -- what left the sender is not counted in the balances
    have hcirculating := (subUnlockedCoins_moves hsub).circulating d
    have := balanceOf_le_circulating hb1 recipient d
    have := hbound d
    rw [Pi.neg_apply] at hcirculating
    omega
  obtain ⟨b2, hloop'⟩ := addCoin_foldlM hb1 hamt hroom
  refine ⟨b2, ?_⟩
  unfold sendCoins addCoins
  rw [if_neg (by simp [hvalid]), hk.unrestricted, ok_bind, hsub, ok_bind, hloop',
    ok_bind, hrecipientText, ok_bind, hk.emits, ok_bind]
  simp [hsenderText, hk.emits]

end BankKeeper

end CosmosSDK.Bank
