import CosmosSDK.Bank.Keeper
import CosmosSDK.Lib.Machine

/-!
# Supply and balances

Every operation of the keeper changes the sum of the balances of a denomination
and its supply by the same amount, which is zero for all of them but minting and
burning.  The sums are taken over the stored balances; a balance is only stored
when it is positive.
-/

namespace CosmosSDK.Bank

open CosmosSDK.Types Math Auth OrderedKV Std Fallible List Machine Ledger Coin Except

variable {A : Type}

def Ledger.circulating (b : Ledger A) (denom : Denom) : Int :=
  total (fun key amount => if key.2 = denom then amount else 0) b.balances

def Ledger.supplyOf (b : Ledger A) (denom : Denom) : Int :=
  (b.supply[denom]?).getD 0

def Ledger.balanceOf (b : Ledger A) (addr : AccAddress) (denom : Denom) : Int :=
  (b.balances[(addr, denom)]?).getD 0

def Ledger.BalancesPositive (b : Ledger A) : Prop :=
  ∀ (key : AccAddress × Denom) (amount : Int), b.balances[key]? = some amount → 0 < amount

/-- The effect of a part of an operation: how it moves the sums of balances and
the supply, keeping stored balances positive. -/
structure Moves (balances supply : Denom → Int) (b b' : Ledger A) : Prop where
  circulating : ∀ denom, b'.circulating denom = b.circulating denom + balances denom
  supply : ∀ denom, b'.supplyOf denom = b.supplyOf denom + supply denom
  positive : b.BalancesPositive → b'.BalancesPositive

namespace Moves

theorem refl (b : Ledger A) : Moves 0 0 b b :=
  ⟨fun _ => by simp, fun _ => by simp, id⟩

variable {f f' g g' : Denom → Int} {b b' : Ledger A}

variable (h : Moves f g b b')
include h

theorem trans {b'' : Ledger A} (h' : Moves f' g' b' b'') :
    Moves (f + f') (g + g') b b'' where
  circulating denom := by rw [h'.circulating, h.circulating, Pi.add_apply, add_assoc]
  supply denom := by rw [h'.supply, h.supply, Pi.add_apply, add_assoc]
  positive hb := h'.positive (h.positive hb)

theorem congr (hf : f = f') (hg : g = g') : Moves f' g' b b' := hf ▸ hg ▸ h

theorem withAccounts (accounts : A) :
    Moves f g b { b' with accounts := accounts } := ⟨h.circulating, h.supply, h.positive⟩

omit h

theorem foldlM {X : Type} {step : Ledger A → X → BankResult (Ledger A)} {f g : X → Denom → Int}
    (hstep : ∀ b x b', step b x = .ok b' → Moves (f x) (g x) b b') {l : List X}
    (h : l.foldlM step b = .ok b') : Moves (l.map f).sum (l.map g).sum b b' := by
  induction l generalizing b with
  | nil =>
    obtain rfl := ok.inj h
    exact refl b
  | cons x l ih =>
    rw [foldlM_cons, bind_eq_ok] at h
    obtain ⟨b1, h1, h⟩ := h
    simpa using (hstep b x b1 h1).trans (ih h)

end Moves

def amountOf (coin : Coin) (denom : Denom) : Int := if coin.denom = denom then coin.amount else 0

theorem sum_amountOf (coins : Coins) : (coins.map amountOf).sum = amountIn coins := by
  induction coins with
  | nil => rfl
  | cons coin coins ih =>
    rw [map_cons, sum_cons, ih]
    funext denom
    simp [amountOf]

theorem sum_neg_amountOf (coins : Coins) :
    (coins.map (fun coin => -amountOf coin)).sum = -amountIn coins := by
  rw [← sum_amountOf, sum_neg]
  simp [Function.comp_def]

theorem sum_zero (coins : Coins) : (coins.map (fun _ => (0 : Denom → Int))).sum = 0 := by
  simp

namespace BankKeeper

variable {k : BankKeeper A}

/-! ## Single entries -/

variable {b b' : Ledger A} {addr delegatorAddr moduleAccAddr recipientAddr senderAddr : AccAddress}
  {denom : Denom} {balance coin coinB amount : Coin} {amt amounts : Coins} {outputs : List Output}
  {input : Input} {sending : List (AccAddress × Output)} {s s' : Ledger A × Coins}
  {name senderModule recipientModule : String} {acc : ModuleAccount}

theorem getBalance_ok (h : k.getBalance b addr denom = .ok balance) :
    balance = ⟨denom, b.balanceOf addr denom⟩ := by
  unfold getBalance new at h
  split at h
  · exact (ok.inj h).symm
  · simp at h

theorem coinAdd_ok {sum : Coin} (h : (coin.add coinB : BankResult Coin) = .ok sum) :
    coin.denom = coinB.denom ∧ sum = ⟨coin.denom, coin.amount + coinB.amount⟩ := by
  simp only [add, passes] at h
  obtain ⟨_, _, hamount, h⟩ := h
  rw [addInt_ok hamount] at h
  exact ⟨by simpa using ‹¬coin.denom ≠ coinB.denom›, (ok.inj h).symm⟩

theorem coinSub_ok {diff : Coin} (h : (coin.sub coinB : BankResult Coin) = .ok diff) :
    coin.denom = coinB.denom ∧ diff = ⟨coin.denom, coin.amount - coinB.amount⟩ := by
  simp only [sub, passes] at h
  obtain ⟨_, _, hamount, _, h⟩ := h
  rw [subInt_ok hamount] at h
  exact ⟨by simpa using ‹¬coin.denom ≠ coinB.denom›, (ok.inj h).symm⟩

theorem part_balance (b : Ledger A) (addr : AccAddress) (denom denom' : Denom) :
    part (fun key amount => if key.2 = denom' then amount else 0) b.balances (addr, denom) =
      amountOf ⟨denom, b.balanceOf addr denom⟩ denom' := by
  unfold part amountOf balanceOf
  cases b.balances[(addr, denom)]? <;> simp

theorem setBalance_moves (h : k.setBalance b addr balance = .ok b') :
    Moves (amountOf ⟨balance.denom, balance.amount - b.balanceOf addr balance.denom⟩) 0 b b' := by
  simp only [setBalance, refuse_eq_ok] at h
  obtain ⟨hvalid, h⟩ := h
  have hnonneg : 0 ≤ balance.amount := by
    simp only [isValid, Bool.not_eq_true', Bool.not_eq_false, Bool.and_eq_true,
      decide_eq_true_eq] at hvalid
    exact hvalid.2
  split at h
  · have hzero : balance.amount = 0 := by simpa [isZero] using ‹balance.isZero = true›
    cases h
    refine ⟨fun denom => ?_, fun denom => by simp [supplyOf], fun hb key amount hkey => ?_⟩
    · have herase := total_erase (fun key amount => if key.2 = denom then amount else 0)
        b.balances (addr, balance.denom)
      rw [part_balance] at herase
      simp only [circulating, amountOf, hzero] at herase ⊢
      split at herase
      · simp_all
        omega
      · simp_all
    · rw [lookup_erase] at hkey
      split at hkey
      · simp at hkey
      · exact hb key amount hkey
  · have hne : balance.amount ≠ 0 := by simpa [isZero] using ‹¬balance.isZero = true›
    cases h
    refine ⟨fun denom => ?_, fun denom => by simp [supplyOf], fun hb key amount hkey => ?_⟩
    · have hinsert := total_insert (fun key amount => if key.2 = denom then amount else 0)
        b.balances (addr, balance.denom) balance.amount
      rw [part_balance] at hinsert
      simp only [circulating, amountOf] at hinsert ⊢
      split at hinsert
      · simp_all
        omega
      · simp_all
    · rw [lookup_insert] at hkey
      split at hkey
      · cases hkey
        omega
      · exact hb key amount hkey

theorem setSupply_moves (b : Ledger A) (coin : Coin) :
    Moves 0 (amountOf ⟨coin.denom, coin.amount - b.supplyOf coin.denom⟩) b (setSupply b coin) := by
  unfold setSupply
  split
  · have hzero : coin.amount = 0 := by simpa [isZero] using ‹coin.isZero = true›
    refine ⟨fun denom => by simp [circulating], fun denom => ?_, id⟩
    simp only [supplyOf, lookup_erase, amountOf, hzero]
    by_cases hd : denom = coin.denom
    · simp [hd]
    · simp [hd, Ne.symm hd]
  · refine ⟨fun denom => by simp [circulating], fun denom => ?_, id⟩
    simp only [supplyOf, lookup_insert, amountOf]
    by_cases hd : denom = coin.denom
    · simp [hd]
    · simp [hd, Ne.symm hd]

/-! ## Taking and giving coins -/

theorem subUnlockedCoin_moves {lockedCoins : Coins}
    (h : k.subUnlockedCoin lockedCoins addr b coin = .ok b') : Moves (-amountOf coin) 0 b b' := by
  simp only [subUnlockedCoin, passes] at h
  obtain ⟨_, hbal, ⟨_, _⟩, -, _, ⟨_, _⟩, -, _, _, hsub, h⟩ := h
  obtain rfl := getBalance_ok hbal
  obtain ⟨-, rfl⟩ := coinSub_ok hsub
  refine (setBalance_moves h).congr ?_ rfl
  funext denom
  simp only [amountOf, Pi.neg_apply]
  split <;> omega

theorem addCoin_moves (h : k.addCoin addr b coin = .ok b') : Moves (amountOf coin) 0 b b' := by
  simp only [addCoin, bind_eq_ok] at h
  obtain ⟨_, hbal, _, hadd, h⟩ := h
  obtain rfl := getBalance_ok hbal
  obtain ⟨-, rfl⟩ := coinAdd_ok hadd
  refine (setBalance_moves h).congr ?_ rfl
  funext denom
  simp only [amountOf]
  split <;> omega

theorem subUnlockedCoins_moves (h : k.subUnlockedCoins b addr amt = .ok b') :
    Moves (-amountIn amt) 0 b b' := by
  simp only [subUnlockedCoins, bind_eq_ok] at h
  obtain ⟨_, hloop, _, -, -, -, h⟩ := h
  cases h
  exact (Moves.foldlM (f := fun coin => -amountOf coin)
    (fun _ _ _ => subUnlockedCoin_moves) hloop).congr (sum_neg_amountOf amt) (sum_zero amt)

theorem addCoins_moves (h : k.addCoins b addr amt = .ok b') : Moves (amountIn amt) 0 b b' := by
  simp only [addCoins, bind_eq_ok] at h
  obtain ⟨_, hloop, _, -, -, -, h⟩ := h
  cases h
  exact (Moves.foldlM (f := amountOf) (fun _ _ _ => addCoin_moves) hloop).congr
    (sum_amountOf amt) (sum_zero amt)

/-! ## Sending -/

theorem sendCoins_moves {fromAddr toAddr : AccAddress}
    (h : k.sendCoins b fromAddr toAddr amt = .ok b') : Moves 0 0 b b' := by
  simp only [sendCoins, passes] at h
  obtain ⟨_, _, -, _, hsub, _, hadd, _, -, _, -, -, -, h⟩ := h
  cases h
  exact ((subUnlockedCoins_moves hsub).trans (addCoins_moves hadd)).congr (by simp) (by simp)

theorem totalOut_amountIn {sum sum' : Coins} (h : k.totalOut outputs sum = .ok sum') :
    amountIn sum' = amountIn sum + (outputs.map (fun out => amountIn out.coins)).sum := by
  induction outputs generalizing sum with
  | nil =>
    cases h
    simp
  | cons out outputs ih =>
    simp only [totalOut, bind_eq_ok] at h
    obtain ⟨-, -, _, hsum, h⟩ := h
    rw [ih h, map_cons, sum_cons, ← add_assoc]
    congr 1
    funext denom
    exact Coins.amountIn_safeAdd hsum denom

theorem validateInputOutputs_ok (h : k.validateInputOutputs input outputs = .ok ()) :
    (outputs.map (fun out => amountIn out.coins)).sum = amountIn input.coins := by
  simp only [validateInputOutputs, passes] at h
  obtain ⟨-, -, totalOut, htotal, _, h⟩ := h
  have hequal : Coins.equal input.coins totalOut = true := by
    simpa using ‹¬(!Coins.equal input.coins totalOut) = true›
  have hsum := totalOut_amountIn htotal
  have hzero : amountIn ([] : Coins) = 0 := rfl
  rw [hzero, zero_add] at hsum
  rw [← hsum]
  funext denom
  exact (Coins.amountIn_of_equal hequal denom).symm

theorem restrictOutput_coins {inAddress : AccAddress}
    (h : outputs.mapM (k.restrictOutput inAddress) = .ok sending) :
    sending.map (fun out => amountIn out.2.coins) = outputs.map (fun out => amountIn out.coins) := by
  induction outputs generalizing sending with
  | nil =>
    cases h
    rfl
  | cons out outputs ih =>
    simp only [mapM_cons, bind_eq_ok] at h
    obtain ⟨_, hfirst, _, hrest, h⟩ := h
    cases h
    simp only [restrictOutput, bind_eq_ok] at hfirst
    obtain ⟨-, -, _, -, hfirst⟩ := hfirst
    cases hfirst
    simp [ih hrest]

theorem payOutputs_moves {sender : String} (h : sending.foldlM (k.payOutput sender) b = .ok b') :
    Moves (sending.map (fun out => amountIn out.2.coins)).sum 0 b b' := by
  refine (Moves.foldlM (g := fun _ => 0) (fun b out b' hpay => ?_) h).congr rfl (by simp)
  simp only [payOutput, bind_eq_ok] at hpay
  obtain ⟨_, hadd, -, -, hpay⟩ := hpay
  obtain rfl := ok.inj hpay
  exact addCoins_moves hadd

theorem inputOutputCoins_moves (h : k.inputOutputCoins b input outputs = .ok b') :
    Moves 0 0 b b' := by
  simp only [inputOutputCoins, bind_eq_ok] at h
  obtain ⟨_, hvalid, _, -, _, hsending, _, hsub, h⟩ := h
  refine ((subUnlockedCoins_moves hsub).trans (payOutputs_moves h)).congr ?_ (by simp)
  rw [restrictOutput_coins hsending, validateInputOutputs_ok hvalid]
  simp

/-! ## Delegations -/

theorem delegateCoin_moves (h : k.delegateCoin delegatorAddr amt s coin = .ok s') :
    Moves (-amountOf coin) 0 s.1 s'.1 := by
  simp only [delegateCoin, passes] at h
  obtain ⟨_, hbal, _, -, _, _, -, _, hsub, _, hset, h⟩ := h
  cases h
  obtain rfl := getBalance_ok hbal
  obtain ⟨-, rfl⟩ := coinSub_ok hsub
  refine (setBalance_moves hset).congr ?_ rfl
  funext denom
  simp only [amountOf, Pi.neg_apply]
  split <;> omega

theorem delegateLoop_moves {coins : Coins}
    (h : coins.foldlM (k.delegateCoin delegatorAddr amt) s = .ok s') :
    Moves (-amountIn coins) 0 s.1 s'.1 := by
  induction coins generalizing s with
  | nil =>
    obtain rfl := ok.inj h
    exact (Moves.refl s.1).congr (by funext denom; simp) rfl
  | cons coin coins ih =>
    rw [foldlM_cons, bind_eq_ok] at h
    obtain ⟨_, h1, h⟩ := h
    refine ((delegateCoin_moves h1).trans (ih h)).congr ?_ (by simp)
    funext denom
    simp only [Pi.add_apply, Pi.neg_apply, amountIn_cons, amountOf]
    omega

theorem delegateCoins_moves (h : k.delegateCoins b delegatorAddr moduleAccAddr amt = .ok b') :
    Moves 0 0 b b' := by
  unfold delegateCoins at h
  split at h
  · simp at h
  · split at h
    · simp at h
    · simp only [bind_eq_ok] at h
      obtain ⟨⟨_, _⟩, hloop, accounts, -, _, -, -, -, hadd⟩ := h
      exact (((delegateLoop_moves hloop).withAccounts accounts).trans
        (addCoins_moves hadd)).congr (by simp) (by simp)

theorem undelegateCoins_moves (h : k.undelegateCoins b moduleAccAddr delegatorAddr amt = .ok b') :
    Moves 0 0 b b' := by
  unfold undelegateCoins at h
  split at h
  · simp at h
  · split at h
    · simp at h
    · simp only [bind_eq_ok] at h
      obtain ⟨_, hsub, accounts, -, hadd⟩ := h
      exact (((subUnlockedCoins_moves hsub).withAccounts accounts).trans
        (addCoins_moves hadd)).congr (by simp) (by simp)

/-! ## Module accounts -/

theorem moduleAccount_moves (h : k.moduleAccount b name = .ok (acc, b')) : Moves 0 0 b b' := by
  simp only [moduleAccount, bind_eq_ok] at h
  obtain ⟨⟨acc', accounts⟩, -, h⟩ := h
  cases acc' with
  | none => simp at h
  | some =>
    simp only [ok.injEq, Prod.mk.injEq] at h
    obtain ⟨-, rfl⟩ := h
    exact (Moves.refl b).withAccounts accounts

theorem permittedAccount_moves {permission : String}
    (h : k.permittedAccount b name permission = .ok (acc, b')) : Moves 0 0 b b' := by
  simp only [permittedAccount, bind_eq_ok, require_eq_ok] at h
  obtain ⟨⟨_, _⟩, hacc, _, h⟩ := h
  simp only [ok.injEq, Prod.mk.injEq] at h
  obtain ⟨-, rfl⟩ := h
  exact moduleAccount_moves hacc

theorem sendCoinsFromModuleToAccount_moves
    (h : k.sendCoinsFromModuleToAccount b senderModule recipientAddr amt = .ok b') :
    Moves 0 0 b b' := by
  unfold sendCoinsFromModuleToAccount at h
  split at h
  · simp at h
  · rw [bind_eq_ok] at h
    obtain ⟨_, -, h⟩ := h
    split at h
    · simp at h
    · exact sendCoins_moves h

theorem sendCoinsFromModuleToModule_moves
    (h : k.sendCoinsFromModuleToModule b senderModule recipientModule amt = .ok b') :
    Moves 0 0 b b' := by
  unfold sendCoinsFromModuleToModule at h
  split at h
  · simp at h
  · rw [bind_eq_ok] at h
    obtain ⟨⟨_, _⟩, hacc, h⟩ := h
    simpa using (moduleAccount_moves hacc).trans (sendCoins_moves h)

theorem sendCoinsFromAccountToModule_moves
    (h : k.sendCoinsFromAccountToModule b senderAddr recipientModule amt = .ok b') :
    Moves 0 0 b b' := by
  simp only [sendCoinsFromAccountToModule, bind_eq_ok] at h
  obtain ⟨⟨_, _⟩, hacc, h⟩ := h
  simpa using (moduleAccount_moves hacc).trans (sendCoins_moves h)

theorem delegateCoinsFromAccountToModule_moves
    (h : k.delegateCoinsFromAccountToModule b senderAddr recipientModule amt = .ok b') :
    Moves 0 0 b b' := by
  simp only [delegateCoinsFromAccountToModule, bind_eq_ok] at h
  obtain ⟨⟨_, _⟩, hacc, h⟩ := h
  simpa using (permittedAccount_moves hacc).trans (delegateCoins_moves h)

theorem undelegateCoinsFromModuleToAccount_moves
    (h : k.undelegateCoinsFromModuleToAccount b senderModule recipientAddr amt = .ok b') :
    Moves 0 0 b b' := by
  simp only [undelegateCoinsFromModuleToAccount, bind_eq_ok] at h
  obtain ⟨⟨_, _⟩, hacc, h⟩ := h
  simpa using (permittedAccount_moves hacc).trans (undelegateCoins_moves h)

/-! ## Minting and burning -/

theorem getSupply_ok {supply : Coin} (h : k.getSupply b denom = .ok supply) :
    supply = ⟨denom, b.supplyOf denom⟩ := by
  unfold getSupply new at h
  split at h
  · exact (ok.inj h).symm
  · simp at h

theorem mintSupply_moves (h : k.mintSupply b amount = .ok b') : Moves 0 (amountOf amount) b b' := by
  simp only [mintSupply, bind_eq_ok] at h
  obtain ⟨_, hsupply, _, hadd, h⟩ := h
  cases h
  obtain rfl := getSupply_ok hsupply
  obtain ⟨-, rfl⟩ := coinAdd_ok hadd
  refine (setSupply_moves b _).congr rfl ?_
  funext denom
  simp only [amountOf]
  split <;> omega

theorem burnSupply_moves (h : k.burnSupply b amount = .ok b') :
    Moves 0 (-amountOf amount) b b' := by
  simp only [burnSupply, bind_eq_ok] at h
  obtain ⟨_, hsupply, _, hsub, h⟩ := h
  cases h
  obtain rfl := getSupply_ok hsupply
  obtain ⟨-, rfl⟩ := coinSub_ok hsub
  refine (setSupply_moves b _).congr rfl ?_
  funext denom
  simp only [amountOf, Pi.neg_apply]
  split <;> omega

theorem mintCoins_moves {moduleName : String} (h : k.mintCoins b moduleName amounts = .ok b') :
    Moves (amountIn amounts) (amountIn amounts) b b' := by
  simp only [mintCoins, passes] at h
  obtain ⟨-, -, ⟨_, _⟩, hacc, _, _, hadd, _, hloop, _, -, -, -, h⟩ := h
  cases h
  have hsupply := (Moves.foldlM (g := amountOf)
    (fun _ _ _ => mintSupply_moves) hloop).congr (sum_zero amounts) (sum_amountOf amounts)
  exact ((permittedAccount_moves hacc).trans ((addCoins_moves hadd).trans hsupply)).congr
    (by simp) (by simp)

theorem burnCoins_moves {address : AccAddress} (h : k.burnCoins b address amounts = .ok b') :
    Moves (-amountIn amounts) (-amountIn amounts) b b' := by
  unfold burnCoins at h
  split at h
  · simp at h
  · split at h
    · simp at h
    · split at h
      · simp at h
      · simp only [bind_eq_ok] at h
        obtain ⟨_, hsub, _, hloop, _, -, -, -, h⟩ := h
        cases h
        have hsupply := (Moves.foldlM (g := fun coin => -amountOf coin)
          (fun _ _ _ => burnSupply_moves) hloop).congr (sum_zero amounts) (sum_neg_amountOf amounts)
        exact ((subUnlockedCoins_moves hsub).trans hsupply).congr (by simp) (by simp)

/-! ## Runs -/

end BankKeeper

inductive BankOp where
  | sendCoins (fromAddr toAddr : AccAddress) (amt : Coins)
  | inputOutputCoins (input : Input) (outputs : List Output)
  | delegateCoins (delegatorAddr moduleAccAddr : AccAddress) (amt : Coins)
  | undelegateCoins (moduleAccAddr delegatorAddr : AccAddress) (amt : Coins)
  | mintCoins (moduleName : String) (amounts : Coins)
  | burnCoins (address : AccAddress) (amounts : Coins)
  | sendCoinsFromModuleToAccount (senderModule : String) (recipientAddr : AccAddress) (amt : Coins)
  | sendCoinsFromModuleToModule (senderModule recipientModule : String) (amt : Coins)
  | sendCoinsFromAccountToModule (senderAddr : AccAddress) (recipientModule : String) (amt : Coins)
  | delegateCoinsFromAccountToModule (senderAddr : AccAddress) (recipientModule : String)
      (amt : Coins)
  | undelegateCoinsFromModuleToAccount (senderModule : String) (recipientAddr : AccAddress)
      (amt : Coins)

namespace BankKeeper

def exec (k : BankKeeper A) (b : Ledger A) : BankOp → BankResult (Ledger A)
  | .sendCoins fromAddr toAddr amt => k.sendCoins b fromAddr toAddr amt
  | .inputOutputCoins input outputs => k.inputOutputCoins b input outputs
  | .delegateCoins delegatorAddr moduleAccAddr amt => k.delegateCoins b delegatorAddr moduleAccAddr amt
  | .undelegateCoins moduleAccAddr delegatorAddr amt =>
    k.undelegateCoins b moduleAccAddr delegatorAddr amt
  | .mintCoins moduleName amounts => k.mintCoins b moduleName amounts
  | .burnCoins address amounts => k.burnCoins b address amounts
  | .sendCoinsFromModuleToAccount senderModule recipientAddr amt =>
    k.sendCoinsFromModuleToAccount b senderModule recipientAddr amt
  | .sendCoinsFromModuleToModule senderModule recipientModule amt =>
    k.sendCoinsFromModuleToModule b senderModule recipientModule amt
  | .sendCoinsFromAccountToModule senderAddr recipientModule amt =>
    k.sendCoinsFromAccountToModule b senderAddr recipientModule amt
  | .delegateCoinsFromAccountToModule senderAddr recipientModule amt =>
    k.delegateCoinsFromAccountToModule b senderAddr recipientModule amt
  | .undelegateCoinsFromModuleToAccount senderModule recipientAddr amt =>
    k.undelegateCoinsFromModuleToAccount b senderModule recipientAddr amt

/-- An operation succeeds, or it is rolled back. -/
def step (k : BankKeeper A) (op : BankOp) (b : Ledger A) : Bool × Ledger A :=
  match k.exec b op with
  | .ok b' => (true, b')
  | .error _ => (false, b)

end BankKeeper

def BankOp.minted : BankOp → Denom → Int
  | .mintCoins _ amounts => amountIn amounts
  | .burnCoins _ amounts => -amountIn amounts
  | _ => 0

/-- The supply of every denomination is the sum of its balances, which are positive. -/
structure Ledger.Consistent (b : Ledger A) : Prop where
  supply_eq : ∀ denom, b.supplyOf denom = b.circulating denom
  positive : b.BalancesPositive

namespace BankKeeper

variable {b : Ledger A}

theorem exec_moves {k : BankKeeper A} {b' : Ledger A} {op : BankOp} (h : k.exec b op = .ok b') :
    Moves op.minted op.minted b b' := by
  cases op with
  | sendCoins => exact sendCoins_moves h
  | inputOutputCoins => exact inputOutputCoins_moves h
  | delegateCoins => exact delegateCoins_moves h
  | undelegateCoins => exact undelegateCoins_moves h
  | mintCoins => exact mintCoins_moves h
  | burnCoins => exact burnCoins_moves h
  | sendCoinsFromModuleToAccount => exact sendCoinsFromModuleToAccount_moves h
  | sendCoinsFromModuleToModule => exact sendCoinsFromModuleToModule_moves h
  | sendCoinsFromAccountToModule => exact sendCoinsFromAccountToModule_moves h
  | delegateCoinsFromAccountToModule => exact delegateCoinsFromAccountToModule_moves h
  | undelegateCoinsFromModuleToAccount => exact undelegateCoinsFromModuleToAccount_moves h

theorem step_moves (k : BankKeeper A) (op : BankOp) (b : Ledger A) :
    Moves (if (k.step op b).1 = true then op.minted else 0)
      (if (k.step op b).1 = true then op.minted else 0) b (k.step op b).2 := by
  unfold step
  cases h : k.exec b op with
  | error => exact Moves.refl b
  | ok => exact exec_moves h

theorem step_consistent (k : BankKeeper A) (op : BankOp) (hb : b.Consistent) :
    (k.step op b).2.Consistent where
  supply_eq denom := by
    rw [(k.step_moves op b).supply, (k.step_moves op b).circulating, hb.supply_eq]
  positive := (k.step_moves op b).positive hb.positive

/-- After every sequence of operations, each succeeding or rolled back, supply and
balances are consistent, and each operation changed the supply by what it minted
or burned. -/
theorem run_consistent (k : BankKeeper A) {b : Ledger A} (hb : b.Consistent) (ops : List BankOp) :
    (run k.step ops b).2.Consistent ∧
    ∀ before op after, ops = before ++ op :: after → ∀ denom,
      (run k.step (before ++ [op]) b).2.supplyOf denom =
        (run k.step before b).2.supplyOf denom +
          if (k.step op (run k.step before b).2).1 = true then op.minted denom else 0 := by
  constructor
  · refine Machine.Along.invariant (P := fun _ _ => True)
      (fun op b _ => k.step_consistent op) ?_ hb
    exact along_of_forall (fun _ _ => trivial) ops b
  · rintro before op after - denom
    rw [run_append]
    have hsupply := (k.step_moves op (run k.step before b).2).supply denom
    simp only [run]
    rw [hsupply]
    split <;> rfl

/-- Nothing is restricted, and one module has all permissions. -/
def openKeeper : BankKeeper Unit where
  validateDenom _ := true
  bytesToString _ := .ok ""
  stringToBytes _ := .ok [7]
  accAddressFromBech32 _ := none
  sendRestriction _ toAddr _ := .ok toAddr
  mintCoinsRestrictionFn _ := .ok ()
  blockedAddr _ := .ok false
  emitKV _ := .ok ()
  lockedCoins _ _ := []
  getAccount _ addr := some ⟨addr, none⟩
  getModuleAddress _ := some [7]
  getModuleAccount _ _ := .ok (some ⟨[7], fun _ => true⟩, ())
  trackDelegation _ _ _ _ := .ok ()
  trackUndelegation _ _ _ := .ok ()

def emptyLedger : Ledger Unit := ⟨∅, ∅, ()⟩

theorem emptyLedger_consistent : emptyLedger.Consistent where
  supply_eq denom := by
    rw [circulating, emptyLedger, total_empty]
    simp [supplyOf]
  positive key amount h := by simp [emptyLedger] at h

/-- Minting, a transfer to the sender itself, repeated outputs, a failed transfer
and burning. -/
def mixedOps : List BankOp :=
  [.mintCoins "mint" [⟨[1], 9⟩],
    .sendCoins [7] [7] [⟨[1], 9⟩],
    .inputOutputCoins ⟨"", [⟨[1], 6⟩]⟩ [⟨"", [⟨[1], 2⟩]⟩, ⟨"", [⟨[1], 4⟩]⟩],
    .sendCoins [7] [8] [⟨[1], 10⟩],
    .delegateCoins [7] [8] [⟨[1], 9⟩],
    .burnCoins [8] [⟨[1], 3⟩]]

theorem run_consistent_mixed : (run openKeeper.step mixedOps emptyLedger).2.Consistent ∧
      (run openKeeper.step mixedOps emptyLedger).1 = [true, true, true, false, true, true] ∧
      (run openKeeper.step mixedOps emptyLedger).2.balanceOf [8] [1] = 6 :=
  ⟨(openKeeper.run_consistent emptyLedger_consistent mixedOps).1, by decide, by decide⟩

end BankKeeper

end CosmosSDK.Bank
