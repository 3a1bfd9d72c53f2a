import CosmosSDK.Bank.Transfers
import CosmosSDK.Lib.Machine
import CosmosSDK.Math.LegacyDec

/-!
# Minting for a block

The default mint function and the begin blocker of `x/mint/keeper`.  The mint
denomination is the bond denomination, so the supply of the staking token is the supply
that the function mints to; the bank is its ledger of that denomination.  The operations of
the bank keeper do to its ledger what those of the mint keeper do to these amounts.
-/

namespace CosmosSDK.Mint

open Math CosmosSDK.Types Fallible LegacyDec Coins Machine

structure Minter where
  inflation : LegacyDec
  annualProvisions : LegacyDec
deriving DecidableEq

structure Params where
  mintDenom : Denom
  blocksPerYear : UInt64
  /-- zero is unlimited -/
  maxSupply : Int

inductive MintErr where
  /-- `ErrInsufficientFunds` of the bank -/
  | insufficientFunds (balance amount : Int)

/-- The minter, and the amounts of the mint denomination: its supply and what the module
account of the mint module and the fee collector have of it. -/
structure State where
  minter : Minter
  supply : Int
  mintAccount : Int
  feeCollector : Int

/-! ## Definitions -/

section Definitions

variable (validateDenom : Denom → Bool) (params : Params)

def nextAnnualProvisions (inflation : LegacyDec) (totalSupply : Int) : Result MintErr LegacyDec :=
  inflation.mulInt totalSupply

/-- `BlockProvision`; the number of blocks is converted to a signed integer. -/
def blockProvision (annualProvisions : LegacyDec) : Result MintErr Coin := do
  let provisionAmt ← annualProvisions.quoInt params.blocksPerYear.toInt64.toInt
  let amount ← provisionAmt.truncateInt
  Coin.new validateDenom params.mintDenom amount

def mintCoins (newCoins : Coins) (s : State) : Result MintErr State :=
  if newCoins = [] then .ok s
  else do
    let supply ← addInt s.supply (amountIn newCoins params.mintDenom)
    .ok { s with
      supply := supply
      mintAccount := s.mintAccount + amountIn newCoins params.mintDenom }

def addCollectedFees (fees : Coins) (s : State) : Result MintErr State :=
  if s.mintAccount < amountIn fees params.mintDenom then
    .error (.error (.insufficientFunds s.mintAccount (amountIn fees params.mintDenom)))
  else .ok { s with
    mintAccount := s.mintAccount - amountIn fees params.mintDenom
    feeCollector := s.feeCollector + amountIn fees params.mintDenom }

/-- The check of the default mint function against the maximum: the coins to send to the fee
collector, after the difference was minted if they do not fit, or nothing if the maximum is
reached. -/
def limitToMaxSupply (mintedCoins : Coins) (s : State) : Result MintErr (Option (Coins × State)) :=
  if params.maxSupply = 0 then .ok (some (mintedCoins, s))
  else do
    let minted ← amountOf validateDenom mintedCoins params.mintDenom
    let total ← addInt s.supply minted
    if params.maxSupply < total then do
      let diff ← subInt params.maxSupply s.supply
      if diff ≤ 0 then .ok none
      else do
        let diffCoin ← Coin.new validateDenom params.mintDenom diff
        let diffCoins ← newCoins validateDenom [diffCoin]
        let s' ← mintCoins params diffCoins s
        .ok (some (diffCoins, s'))
    else .ok (some (mintedCoins, s))

/-- The rest of the default mint function: it mints coins that fit below the maximum, and
sends them to the fee collector in any case. -/
def mintAndCollect (totalSupply : Int) (mintedCoins : Coins) (s : State) : Result MintErr State := do
  let fits ← if params.maxSupply = 0 then .ok true
    else do
      let minted ← amountOf validateDenom mintedCoins params.mintDenom
      let total ← addInt totalSupply minted
      .ok (decide (total < params.maxSupply))
  let s' ← if fits then mintCoins params mintedCoins s else .ok s
  addCollectedFees params mintedCoins s'

/-- The default mint function behind the computation of the coins to mint. -/
def mintProvided (mintedCoins : Coins) (s : State) : Result MintErr State := do
  let limited ← limitToMaxSupply validateDenom params mintedCoins s
  match limited with
  | none => .ok s
  | some (coins, s') => mintAndCollect validateDenom params s.supply coins s'

variable (ic : Minter → Params → LegacyDec → LegacyDec)

/-- The function that `DefaultMintFn` returns, called with the epoch identifier `block`. -/
def defaultMintFn (bondedRatio : LegacyDec) (s : State) : Result MintErr State := do
  let annualProvisions ← nextAnnualProvisions (ic s.minter params bondedRatio) s.supply
  let mintedCoin ← blockProvision validateDenom params annualProvisions
  let mintedCoins ← newCoins validateDenom [mintedCoin]
  mintProvided validateDenom params mintedCoins
    { s with minter := ⟨ic s.minter params bondedRatio, annualProvisions⟩ }

/-- `BeginBlocker`: an error leaves the state of the block before. -/
def beginBlocker (bondedRatio : LegacyDec) (s : State) : Bool × State :=
  match defaultMintFn validateDenom params ic bondedRatio s with
  | .ok s' => (true, s')
  | .error _ => (false, s)

end Definitions

/-! ## The provision of a block -/

/-- The whole tokens in a block's part of the annual provisions. -/
def provision (params : Params) (inflation : LegacyDec) (supply : Int) : Int :=
  ((inflation.i * supply).tdiv params.blocksPerYear.toInt64.toInt).tdiv precisionReuse

def provided (params : Params) (amount : Int) : Coins :=
  if amount = 0 then [] else [⟨params.mintDenom, amount⟩]

/-- The supply that minting a provision should leave. -/
def targetSupply (params : Params) (supply amount : Int) : Int :=
  if params.maxSupply = 0 then supply + amount
  else if supply ≤ params.maxSupply then min (supply + amount) params.maxSupply
  else supply

/-- The provision can be computed: the denomination is valid, the year has blocks and no
amount leaves its range. -/
structure Provides (validateDenom : Denom → Bool) (params : Params) (inflation : LegacyDec)
    (supply : Int) : Prop where
  denom : validateDenom params.mintDenom = true
  annual : isInValidRange ⟨inflation.i * supply⟩ = true
  blocks : params.blocksPerYear.toInt64.toInt ≠ 0
  nonneg : 0 ≤ provision params inflation supply
  total : supply + provision params inflation supply < 2 ^ 256

instance (validateDenom : Denom → Bool) (params : Params) (inflation : LegacyDec) (supply : Int) :
    Decidable (Provides validateDenom params inflation supply) :=
  decidable_of_iff (validateDenom params.mintDenom = true ∧
      isInValidRange ⟨inflation.i * supply⟩ = true ∧
      params.blocksPerYear.toInt64.toInt ≠ 0 ∧ 0 ≤ provision params inflation supply ∧
      supply + provision params inflation supply < 2 ^ 256)
    ⟨fun h => ⟨h.1, h.2.1, h.2.2.1, h.2.2.2.1, h.2.2.2.2⟩,
      fun h => ⟨h.denom, h.annual, h.blocks, h.nonneg, h.total⟩⟩

def FillsExactly (params : Params) (supply amount : Int) : Prop :=
  params.maxSupply ≠ 0 ∧ 0 < amount ∧ supply + amount = params.maxSupply

instance (params : Params) (supply amount : Int) : Decidable (FillsExactly params supply amount) :=
  inferInstanceAs (Decidable (_ ∧ _ ∧ _))

variable {validateDenom : Denom → Bool} {params : Params} {amount : Int} {s : State}

theorem newCoins_provided (hdenom : validateDenom params.mintDenom = true) (hamount : 0 ≤ amount) :
    (newCoins validateDenom [⟨params.mintDenom, amount⟩] : Result MintErr Coins) =
      .ok (provided params amount) := by
  by_cases hzero : amount = 0
  · rw [newCoins_of_zero hzero, provided, if_pos hzero]
  · have hpos : 0 < amount := by omega
    rw [newCoins_of_pos hpos hdenom, provided, if_neg hzero]

theorem amountOf_provided (hdenom : validateDenom params.mintDenom = true) :
    (amountOf validateDenom (provided params amount) params.mintDenom : Result MintErr Int) =
      .ok amount := by
  by_cases hzero : amount = 0
  · rw [provided, if_pos hzero, amountOf_nil hdenom, hzero]
  · rw [provided, if_neg hzero]
    exact amountOf_singleton hdenom

theorem amountIn_provided (amount : Int) :
    amountIn (provided params amount) params.mintDenom = amount := by
  by_cases hzero : amount = 0
  · simp [provided, hzero]
  · simp [provided, hzero]

variable (params) in
theorem mintCoins_provided (hsupply : 0 ≤ s.supply) (hamount : 0 ≤ amount)
    (htotal : s.supply + amount < 2 ^ 256) :
    mintCoins params (provided params amount) s =
      .ok { s with supply := s.supply + amount, mintAccount := s.mintAccount + amount } := by
  by_cases hzero : amount = 0
  · simp [mintCoins, provided, hzero]
  · have hadd : (addInt s.supply amount : Result MintErr Int) = .ok (s.supply + amount) :=
      inRange_iff.mpr ⟨by unfold maxBitLen; omega, rfl⟩
    rw [mintCoins, if_neg (by simp [provided, hzero]), amountIn_provided, hadd, ok_bind]

theorem addCollectedFees_provided :
    addCollectedFees params (provided params amount) s =
      if s.mintAccount < amount then .error (.error (.insufficientFunds s.mintAccount amount))
      else .ok { s with
        mintAccount := s.mintAccount - amount
        feeCollector := s.feeCollector + amount } := by
  rw [addCollectedFees, amountIn_provided]

/-! ## The checks against the maximum -/

/-- The amounts are in range, and the mint account is empty. -/
structure Ready (params : Params) (s : State) : Prop where
  maxSupply_nonneg : 0 ≤ params.maxSupply
  maxSupply_lt : params.maxSupply < 2 ^ 256
  supply_nonneg : 0 ≤ s.supply
  supply_lt : s.supply < 2 ^ 256
  mintAccount : s.mintAccount = 0

/-- The state after a provision was minted up to the target and collected. -/
def collected (params : Params) (amount : Int) (s : State) : State :=
  { s with
    supply := targetSupply params s.supply amount
    feeCollector := s.feeCollector + (targetSupply params s.supply amount - s.supply) }

section Limits

variable {amount : Int} {s : State} (hs : Ready params s)
  (hdenom : validateDenom params.mintDenom = true) (hamount : 0 ≤ amount)
  (htotal : s.supply + amount < 2 ^ 256)

include hs hamount htotal

theorem mintProvided_of_unlimited (hunlimited : params.maxSupply = 0) :
    mintProvided validateDenom params (provided params amount) s =
      .ok (collected params amount s) := by
  have hmint := mintCoins_provided params hs.supply_nonneg hamount htotal
  have hempty := hs.mintAccount
  rw [mintProvided, limitToMaxSupply, if_pos hunlimited, ok_bind]
  simp only [mintAndCollect, hunlimited, if_true, ok_bind, hmint]
  rw [addCollectedFees_provided, if_neg (by simp [hempty])]
  simp [collected, targetSupply, hunlimited, hempty]

include hdenom

theorem limitToMaxSupply_of_below (hlimited : params.maxSupply ≠ 0)
    (hbelow : s.supply + amount ≤ params.maxSupply) :
    limitToMaxSupply validateDenom params (provided params amount) s =
      .ok (some (provided params amount, s)) := by
  rw [limitToMaxSupply, if_neg hlimited, amountOf_provided hdenom, ok_bind,
    addInt_of_lt hs.supply_nonneg hamount htotal, ok_bind, if_neg (by omega)]

/-- With a maximum the coins are minted if they stay below it, and sent in any case. -/
theorem mintAndCollect_provided (hlimited : params.maxSupply ≠ 0) (s' : State) :
    mintAndCollect validateDenom params s.supply (provided params amount) s' =
      if s.supply + amount < params.maxSupply then
        mintCoins params (provided params amount) s' >>=
          addCollectedFees params (provided params amount)
      else addCollectedFees params (provided params amount) s' := by
  simp only [mintAndCollect, if_neg hlimited, amountOf_provided hdenom, ok_bind,
    addInt_of_lt hs.supply_nonneg hamount htotal, decide_eq_true_eq]

/-- Above the maximum only the difference to it is minted, if there is any. -/
theorem mintProvided_of_over (hlimited : params.maxSupply ≠ 0)
    (hover : params.maxSupply < s.supply + amount) :
    mintProvided validateDenom params (provided params amount) s =
      .ok (collected params amount s) := by
  have hempty := hs.mintAccount
  have hsub : (subInt params.maxSupply s.supply : Result MintErr Int) =
      .ok (params.maxSupply - s.supply) :=
    subInt_of_lt hs.maxSupply_nonneg hs.maxSupply_lt hs.supply_nonneg hs.supply_lt
  rw [mintProvided, limitToMaxSupply, if_neg hlimited, amountOf_provided hdenom, ok_bind,
    addInt_of_lt hs.supply_nonneg hamount htotal, ok_bind, if_pos hover, hsub, ok_bind]
  by_cases hreached : params.maxSupply - s.supply ≤ 0
  · have htarget : targetSupply params s.supply amount = s.supply := by
      unfold targetSupply
      rw [if_neg hlimited]
      split <;> omega
    rw [if_pos hreached, ok_bind]
    simp [collected, htarget]
  · have htarget : targetSupply params s.supply amount = params.maxSupply := by
      unfold targetSupply
      rw [if_neg hlimited, if_pos (by omega)]
      omega
    have hle : s.supply ≤ params.maxSupply := by omega
    have hdiff : 0 ≤ params.maxSupply - s.supply := by omega
    have hfull : s.supply + (params.maxSupply - s.supply) = params.maxSupply := by omega
    have hlt : s.supply + (params.maxSupply - s.supply) < 2 ^ 256 := by
      rw [hfull]
      exact hs.maxSupply_lt
    have hcoin : (Coin.new validateDenom params.mintDenom (params.maxSupply - s.supply) :
        Result MintErr Coin) = .ok ⟨params.mintDenom, params.maxSupply - s.supply⟩ :=
      if_pos (by simp [Coin.isValid, hdenom, hle])
    rw [if_neg hreached, hcoin, ok_bind, newCoins_provided hdenom hdiff, ok_bind,
      mintCoins_provided params hs.supply_nonneg hdiff hlt, ok_bind, ok_bind]
    -- the difference fills the supply, so it is not minted a second time
    simp only [mintAndCollect_provided hs hdenom hdiff hlt hlimited]
    rw [if_neg (by omega), addCollectedFees_provided, if_neg (by simp [hempty])]
    simp [collected, htarget, hempty]

theorem mintProvided_of_below (hlimited : params.maxSupply ≠ 0)
    (hbelow : s.supply + amount ≤ params.maxSupply) (hfills : ¬ FillsExactly params s.supply amount) :
    mintProvided validateDenom params (provided params amount) s =
      .ok (collected params amount s) := by
  have hempty := hs.mintAccount
  have htarget : targetSupply params s.supply amount = s.supply + amount := by
    unfold targetSupply
    rw [if_neg hlimited, if_pos (by omega)]
    omega
  rw [mintProvided, limitToMaxSupply_of_below hs hdenom hamount htotal hlimited hbelow, ok_bind]
  simp only [mintAndCollect_provided hs hdenom hamount htotal hlimited]
  by_cases hfits : s.supply + amount < params.maxSupply
  · rw [if_pos hfits, mintCoins_provided params hs.supply_nonneg hamount htotal, ok_bind,
      addCollectedFees_provided, if_neg (by simp [hempty])]
    simp [collected, htarget, hempty]
  · -- nothing is minted, so nothing may be left to send
    have hzero : amount = 0 := by
      by_contra hne
      exact hfills ⟨hlimited, by omega, by omega⟩
    rw [if_neg hfits, addCollectedFees_provided, if_neg (by omega), collected, htarget,
      hzero]
    simp

/-- A provision that does not fill the supply exactly is minted to the target. -/
theorem mintProvided_ok (hfills : ¬ FillsExactly params s.supply amount) :
    mintProvided validateDenom params (provided params amount) s =
      .ok (collected params amount s) := by
  grind [mintProvided_of_unlimited, mintProvided_of_over, mintProvided_of_below]

/-- A provision that fills it exactly is not minted, but sent. -/
theorem mintProvided_of_fillsExactly (hfills : FillsExactly params s.supply amount) :
    mintProvided validateDenom params (provided params amount) s =
      .error (.error (.insufficientFunds 0 amount)) := by
  obtain ⟨hlimited, hpos, hfull⟩ := hfills
  rw [mintProvided, limitToMaxSupply_of_below hs hdenom hamount htotal hlimited hfull.le, ok_bind]
  simp only [mintAndCollect_provided hs hdenom hamount htotal hlimited]
  rw [if_neg (by omega), addCollectedFees_provided, hs.mintAccount, if_pos hpos]

end Limits

/-! ## A block -/

section Blocks

variable {ic : Minter → Params → LegacyDec → LegacyDec} {bondedRatio : LegacyDec} {s : State}

/-- The default mint function succeeds, sends what it mints and leaves the target supply. -/
def MintsExactly (validateDenom : Denom → Bool) (params : Params)
    (ic : Minter → Params → LegacyDec → LegacyDec) (bondedRatio : LegacyDec) (s : State) : Prop :=
  ∃ s', defaultMintFn validateDenom params ic bondedRatio s = .ok s' ∧
    s'.mintAccount = s.mintAccount ∧ s'.feeCollector - s.feeCollector = s'.supply - s.supply ∧
    s'.supply = targetSupply params s.supply
      (provision params (ic s.minter params bondedRatio) s.supply)

/-- The provision can be computed and does not fill the supply exactly. -/
def Mintable (validateDenom : Denom → Bool) (params : Params)
    (ic : Minter → Params → LegacyDec → LegacyDec) (bondedRatio : LegacyDec) (s : State) : Prop :=
  Provides validateDenom params (ic s.minter params bondedRatio) s.supply ∧
    ¬ FillsExactly params s.supply (provision params (ic s.minter params bondedRatio) s.supply)

instance (validateDenom : Denom → Bool) (params : Params)
    (ic : Minter → Params → LegacyDec → LegacyDec) (bondedRatio : LegacyDec) (s : State) :
    Decidable (Mintable validateDenom params ic bondedRatio s) :=
  inferInstanceAs (Decidable (_ ∧ ¬ _))

variable {inflation : LegacyDec} {supply amount : Int} {s' : State}

theorem blockProvision_ok {annualProvisions : LegacyDec} {coin : Coin}
    (hannual : nextAnnualProvisions inflation supply = .ok annualProvisions)
    (h : blockProvision validateDenom params annualProvisions = .ok coin) :
    validateDenom params.mintDenom = true ∧ isInValidRange ⟨inflation.i * supply⟩ = true ∧
      params.blocksPerYear.toInt64.toInt ≠ 0 ∧ 0 ≤ provision params inflation supply ∧
      coin = ⟨params.mintDenom, provision params inflation supply⟩ := by
  have hrange : isInValidRange ⟨inflation.i * supply⟩ = true ∧
      annualProvisions = ⟨inflation.i * supply⟩ := by
    unfold nextAnnualProvisions LegacyDec.mulInt LegacyDec.assertInValidRange at hannual
    obtain ⟨hrange, heq⟩ := require_eq_ok.mp hannual
    exact ⟨hrange, (Except.ok.inj heq).symm⟩
  obtain ⟨hrange, rfl⟩ := hrange
  unfold blockProvision at h
  obtain ⟨_, hquo, h⟩ := bind_eq_ok.mp h
  obtain ⟨amount, htruncate, h⟩ := bind_eq_ok.mp h
  obtain ⟨hblocks, hamt⟩ := quoInt_ok hquo
  have hamount : amount = provision params inflation supply := by
    rw [truncateInt_ok htruncate, hamt, provision]
  subst hamount
  unfold Coin.new at h
  obtain ⟨hvalid, h⟩ := require_eq_ok.mp h
  simp only [Coin.isValid, Bool.and_eq_true, decide_eq_true_eq] at hvalid
  exact ⟨hvalid.1, hrange, hblocks, hvalid.2, (Except.ok.inj h).symm⟩

theorem blockProvision_of_provides (hsupply : 0 ≤ supply)
    (h : Provides validateDenom params inflation supply) :
    nextAnnualProvisions inflation supply = .ok ⟨inflation.i * supply⟩ ∧
      blockProvision validateDenom params ⟨inflation.i * supply⟩ =
        .ok ⟨params.mintDenom, provision params inflation supply⟩ := by
  have hnonneg := h.nonneg
  have htotal := h.total
  refine ⟨if_pos h.annual, ?_⟩
  have hquo : (quoInt ⟨inflation.i * supply⟩ params.blocksPerYear.toInt64.toInt :
      Result MintErr LegacyDec) =
        .ok ⟨(inflation.i * supply).tdiv params.blocksPerYear.toInt64.toInt⟩ := if_neg h.blocks
  have htruncate : (truncateInt
      ⟨(inflation.i * supply).tdiv params.blocksPerYear.toInt64.toInt⟩ : Result MintErr Int) =
        .ok (provision params inflation supply) := by
    have hbound : bigIntOverflows (provision params inflation supply) = false := by
      unfold bigIntOverflows maxBitLen
      exact decide_eq_false (by omega)
    unfold truncateInt chopPrecisionAndTruncate
    exact if_neg (by simpa [provision] using hbound)
  rw [blockProvision, hquo, ok_bind, htruncate, ok_bind]
  exact if_pos (by simp [Coin.isValid, h.denom, hnonneg])

variable (hs : Ready params s)
include hs

theorem total_of_mintProvided (hdenom : validateDenom params.mintDenom = true)
    (h : mintProvided validateDenom params (provided params amount) s = .ok s') :
    s.supply + amount < 2 ^ 256 := by
  have hbound : ∀ total, (addInt s.supply amount : Result MintErr Int) = .ok total →
      s.supply + amount < 2 ^ 256 := by
    intro total hadd
    have hlt := (inRange_iff.mp hadd).1
    unfold maxBitLen at hlt
    omega
  unfold mintProvided limitToMaxSupply at h
  by_cases hlimited : params.maxSupply = 0
  · by_cases hzero : amount = 0
    · have hlt := hs.supply_lt
      omega
    · simp only [if_pos hlimited, ok_bind, mintAndCollect, if_true] at h
      obtain ⟨_, hmint, -⟩ := bind_eq_ok.mp h
      rw [mintCoins, if_neg (by simp [provided, hzero]), amountIn_provided] at hmint
      obtain ⟨total, hadd, -⟩ := bind_eq_ok.mp hmint
      exact hbound total hadd
  · rw [if_neg hlimited, amountOf_provided hdenom, ok_bind] at h
    obtain ⟨_, hlimit, -⟩ := bind_eq_ok.mp h
    obtain ⟨total, hadd, -⟩ := bind_eq_ok.mp hlimit
    exact hbound total hadd

/-- The block mints exactly when the provision can be computed and does not fill the
supply exactly. -/
theorem defaultMintFn_ok (h : Mintable validateDenom params ic bondedRatio s) :
    defaultMintFn validateDenom params ic bondedRatio s =
      .ok (collected params (provision params (ic s.minter params bondedRatio) s.supply)
        { s with minter := ⟨ic s.minter params bondedRatio,
          ⟨(ic s.minter params bondedRatio).i * s.supply⟩⟩ }) := by
  obtain ⟨hprovides, hfills⟩ := h
  obtain ⟨hannual, hprovision⟩ := blockProvision_of_provides hs.supply_nonneg hprovides
  unfold defaultMintFn
  rw [hannual, ok_bind, hprovision, ok_bind,
    newCoins_provided hprovides.denom hprovides.nonneg, ok_bind]
  exact mintProvided_ok ⟨hs.maxSupply_nonneg, hs.maxSupply_lt, hs.supply_nonneg, hs.supply_lt,
    hs.mintAccount⟩ hprovides.denom hprovides.nonneg hprovides.total hfills

theorem mintable_of_ok (h : defaultMintFn validateDenom params ic bondedRatio s = .ok s') :
    Mintable validateDenom params ic bondedRatio s := by
  unfold defaultMintFn at h
  obtain ⟨annualProvisions, hannual, h⟩ := bind_eq_ok.mp h
  obtain ⟨_, hprovision, h⟩ := bind_eq_ok.mp h
  obtain ⟨hdenom, hrange, hblocks, hnonneg, rfl⟩ := blockProvision_ok hannual hprovision
  rw [newCoins_provided hdenom hnonneg, ok_bind] at h
  have hs' : Ready params { s with minter := ⟨ic s.minter params bondedRatio, annualProvisions⟩ } :=
    ⟨hs.maxSupply_nonneg, hs.maxSupply_lt, hs.supply_nonneg, hs.supply_lt, hs.mintAccount⟩
  have htotal := total_of_mintProvided hs' hdenom h
  refine ⟨⟨hdenom, hrange, hblocks, hnonneg, htotal⟩, ?_⟩
  intro hfills
  rw [mintProvided_of_fillsExactly hs' hdenom hnonneg htotal hfills] at h
  cases h

theorem mintsExactly_iff :
    MintsExactly validateDenom params ic bondedRatio s ↔
      Mintable validateDenom params ic bondedRatio s := by
  constructor
  · intro h
    obtain ⟨_, hok, -⟩ := h
    exact mintable_of_ok hs hok
  · intro h
    refine ⟨_, defaultMintFn_ok hs h, rfl, ?_, rfl⟩
    simp [collected]

omit hs

/-! ## Runs -/

theorem targetSupply_le (hlimited : params.maxSupply ≠ 0) (h : supply ≤ params.maxSupply) :
    targetSupply params supply amount ≤ params.maxSupply := by
  rw [targetSupply, if_neg hlimited, if_pos h]
  exact min_le_right _ _

/-- Every block that mints leaves a state that the next one can start from. -/
theorem beginBlocker_ready (hs : Ready params s)
    (h : Mintable validateDenom params ic bondedRatio s) :
    (beginBlocker validateDenom params ic bondedRatio s).1 = true ∧
      Ready params (beginBlocker validateDenom params ic bondedRatio s).2 ∧
      (beginBlocker validateDenom params ic bondedRatio s).2.supply = targetSupply params s.supply
        (provision params (ic s.minter params bondedRatio) s.supply) := by
  have hnonneg := h.1.nonneg
  have htotal := h.1.total
  have hsupply := hs.supply_nonneg
  have hmax := hs.maxSupply_nonneg
  have hmax' := hs.maxSupply_lt
  rw [beginBlocker, defaultMintFn_ok hs h]
  refine ⟨rfl, ⟨hmax, hmax', ?_, ?_, hs.mintAccount⟩, rfl⟩
  · simp only [collected, targetSupply]
    split_ifs <;> omega
  · simp only [collected, targetSupply]
    split_ifs <;> omega

theorem run_ready {ratios : List LegacyDec} (hs : Ready params s)
    (h : Machine.Along (beginBlocker validateDenom params ic) (Mintable validateDenom params ic)
      ratios s) :
    (∀ ok ∈ (run (beginBlocker validateDenom params ic) ratios s).1, ok = true) ∧
      (params.maxSupply ≠ 0 → s.supply ≤ params.maxSupply →
        (run (beginBlocker validateDenom params ic) ratios s).2.supply ≤
          params.maxSupply) := by
  induction ratios generalizing s with
  | nil => exact ⟨by simp [run], fun _ hle => hle⟩
  | cons ratio ratios ih =>
    obtain ⟨hok, hready, htarget⟩ := beginBlocker_ready hs h.1
    obtain ⟨hrest, hle⟩ := ih hready h.2
    refine ⟨List.forall_mem_cons.mpr ⟨hok, hrest⟩, ?_⟩
    intro hlimited hbelow
    apply hle hlimited
    rw [htarget]
    exact targetSupply_le hlimited hbelow

/-- One call mints what it sends up to the target if and only if the provision can be
computed and does not fill the supply exactly; and in a run whose blocks are all like that
no block fails and the supply stays within the maximum. -/
theorem defaultMintFn_mintsExactly_iff (validateDenom : Denom → Bool)
    (ic : Minter → Params → LegacyDec → LegacyDec) (bondedRatio : LegacyDec) (hs : Ready params s) :
    (MintsExactly validateDenom params ic bondedRatio s ↔
      Mintable validateDenom params ic bondedRatio s) ∧
    ∀ ratios, Machine.Along (beginBlocker validateDenom params ic)
        (Mintable validateDenom params ic) ratios s →
      (∀ ok ∈ (run (beginBlocker validateDenom params ic) ratios s).1, ok = true) ∧
      (params.maxSupply ≠ 0 → s.supply ≤ params.maxSupply →
        (run (beginBlocker validateDenom params ic) ratios s).2.supply ≤
          params.maxSupply) :=
  ⟨mintsExactly_iff hs, fun _ => run_ready hs⟩

end Blocks

/-! ## The ledger of the bank -/

section Bank

open Bank Bank.BankKeeper

variable {A : Type} {k : BankKeeper A} {b b' : Ledger A} {mint collector : Auth.AccAddress}

/-- What the mint module sees of the bank. -/
def ofLedger (params : Params) (minter : Minter) (mint collector : Auth.AccAddress)
    (b : Ledger A) : State where
  minter := minter
  supply := b.supplyOf params.mintDenom
  mintAccount := b.balanceOf mint params.mintDenom
  feeCollector := b.balanceOf collector params.mintDenom

variable (minter : Minter) (hmint : k.AddressOf "mint" mint) (hne : collector ≠ mint)
include hmint hne

theorem mintCoins_ofLedger (hamount : amount ≠ 0)
    (h : k.mintCoins b "mint" (provided params amount) = .ok b') :
    mintCoins params (provided params amount) (ofLedger params minter mint collector b) =
      .ok (ofLedger params minter mint collector b') := by
  have hsupply := (mintCoins_moves h).supply params.mintDenom
  have hshifts := mintCoins_shifts hmint h
  have hone : provided params amount = [⟨params.mintDenom, amount⟩] := if_neg hamount
  have hrange := mintCoins_range (hone ▸ h)
  rw [mintCoins, if_neg (by simp [provided, hamount]), amountIn_provided]
  rw [amountIn_provided] at hsupply
  have hadd : (addInt (b.supplyOf params.mintDenom) amount : Result MintErr Int) =
      .ok (b'.supplyOf params.mintDenom) := inRange_iff.mpr ⟨hrange, hsupply⟩
  simp only [ofLedger, hadd, ok_bind, hshifts mint, hshifts collector, if_pos, if_neg hne,
    amountIn_provided, add_zero]

theorem addCollectedFees_ofLedger {fees : Coins} {feeCollectorName : String} (hk : k.Direct)
    (hcollector : k.AddressOf feeCollectorName collector) (hb : b.BalancesPositive)
    (h : k.sendCoinsFromModuleToModule b "mint" feeCollectorName fees = .ok b') :
    addCollectedFees params fees (ofLedger params minter mint collector b) =
      .ok (ofLedger params minter mint collector b') := by
  obtain ⟨htransfers, -⟩ := sendCoinsFromModuleToModule_ok hk hmint hcollector h
  have hsupply := htransfers.moves.supply params.mintDenom
  have hsender := htransfers.of_sender hne.symm params.mintDenom
  have hleft := (htransfers.moves.positive hb).nonneg mint params.mintDenom
  rw [addCollectedFees, if_neg (by simp only [ofLedger]; omega)]
  simp only [ofLedger, hsupply, hsender, htransfers.of_recipient hne, Pi.zero_apply, add_zero]

end Bank

/-! ## Ten percent in ten blocks -/

def tenBlocks (maxSupply : Int) : Params where
  mintDenom := [115]
  blocksPerYear := 10
  maxSupply := maxSupply

def tenPercent : Minter → Params → LegacyDec → LegacyDec := fun _ _ _ => ⟨precisionReuse.tdiv 10⟩

def thousand : State where
  minter := ⟨.zero, .zero⟩
  supply := 1000
  mintAccount := 0
  feeCollector := 0

/-- A block provides 10 of 1000 tokens; with a maximum of 1010 they are sent without being
minted. -/
theorem thousand_fails :
    provision (tenBlocks 1010) (tenPercent thousand.minter (tenBlocks 1010) .zero) 1000 = 10 ∧
    defaultMintFn (fun _ => true) (tenBlocks 1010) tenPercent .zero thousand =
      .error (.error (.insufficientFunds 0 10)) ∧
    ¬ MintsExactly (fun _ => true) (tenBlocks 1010) tenPercent .zero thousand := by
  have hprovision : provision (tenBlocks 1010)
      (tenPercent thousand.minter (tenBlocks 1010) .zero) 1000 = 10 := by
    decide +kernel
  have hfails : defaultMintFn (fun _ => true) (tenBlocks 1010) tenPercent .zero thousand =
      .error (.error (.insufficientFunds 0 10)) := by
    rfl
  refine ⟨hprovision, hfails, ?_⟩
  intro h
  obtain ⟨_, hok, -⟩ := h
  rw [hfails] at hok
  cases hok

/-- With a maximum of 1015 the first block mints 10 and the second the 5 that are left. -/
theorem thousand_mints : MintsExactly (fun _ => true) (tenBlocks 1015) tenPercent .zero thousand ∧
    (run (beginBlocker (fun _ => true) (tenBlocks 1015) tenPercent) [.zero, .zero]
      thousand).2.supply ≤ 1015 := by
  have hready : Ready (tenBlocks 1015) thousand := by
    constructor <;> decide
  have hexact := defaultMintFn_mintsExactly_iff (fun _ => true) tenPercent .zero hready
  refine ⟨hexact.1.mpr (by decide +kernel), ?_⟩
  exact (hexact.2 [.zero, .zero] (by decide +kernel)).2 (by decide) (by decide)

end CosmosSDK.Mint
