import CosmosSDK.Lib.Totals
import CosmosSDK.Math.Int
import CosmosSDK.Store.MemIterator

/-!
# Coins

`types/coin.go`.  A set of coins is a list; functions that need it sorted or
without repeated denominations check that themselves or fail.  Denominations are
byte strings in byte order, and which of them are valid is a parameter, as a chain
may replace the rule.
-/

namespace CosmosSDK.Types

open Store Math OrderedKV Std Fallible List

abbrev Denom := Bytes

structure Coin where
  denom : Denom
  amount : Int
deriving DecidableEq

abbrev Coins := List Coin

/-- The amount of a denomination, over all coins that have it. -/
def amountIn (coins : Coins) (denom : Denom) : Int :=
  (coins.map (fun c => if c.denom = denom then c.amount else 0)).sum

@[simp] theorem amountIn_nil (denom : Denom) : amountIn [] denom = 0 := rfl

@[simp] theorem amountIn_cons (c : Coin) (coins : Coins) (denom : Denom) :
    amountIn (c :: coins) denom = (if c.denom = denom then c.amount else 0) + amountIn coins denom := by
  simp [amountIn]

@[simp] theorem amountIn_append (coins coinsB : Coins) (denom : Denom) :
    amountIn (coins ++ coinsB) denom = amountIn coins denom + amountIn coinsB denom := by
  simp [amountIn]

theorem amountIn_perm {coins coinsB : Coins} (h : coins.Perm coinsB) (denom : Denom) :
    amountIn coins denom = amountIn coinsB denom :=
  (h.map _).sum_eq

section

variable {ε : Type} (validateDenom : Denom → Bool)

/-! ## Coin -/

namespace Coin

/-- `Validate`: the denomination is valid and the amount not negative. -/
def isValid (coin : Coin) : Bool := validateDenom coin.denom && decide (0 ≤ coin.amount)

/-- `NewCoin`. -/
def new (denom : Denom) (amount : Int) : Result ε Coin :=
  if isValid validateDenom ⟨denom, amount⟩ then .ok ⟨denom, amount⟩
  else .error (.panic "invalid coin")

def isZero (coin : Coin) : Bool := coin.amount = 0

def isPositive (coin : Coin) : Bool := 0 < coin.amount

def isNegative (coin : Coin) : Bool := coin.amount < 0

def isLT (coin other : Coin) : Result ε Bool :=
  if coin.denom ≠ other.denom then .error (.panic "invalid coin denominations")
  else .ok (coin.amount < other.amount)

def add (coin coinB : Coin) : Result ε Coin :=
  if coin.denom ≠ coinB.denom then .error (.panic "invalid coin denominations")
  else do
    let amount ← addInt coin.amount coinB.amount
    .ok ⟨coin.denom, amount⟩

/-- `Sub`: it panics on a negative difference. -/
def sub (coin coinB : Coin) : Result ε Coin :=
  if coin.denom ≠ coinB.denom then .error (.panic "invalid coin denoms")
  else do
    let amount ← subInt coin.amount coinB.amount
    if amount < 0 then .error (.panic "negative coin amount") else .ok ⟨coin.denom, amount⟩

end Coin

/-! ## Coins -/

namespace Coins

/-- The part of `Validate` behind the first coin. -/
def isValidAfter (lowDenom : Denom) : Coins → Bool
  | [] => true
  | coin :: coins =>
    validateDenom coin.denom && decide (compare lowDenom coin.denom = .lt) && coin.isPositive &&
      isValidAfter coin.denom coins

/-- `IsValid`: sorted, without repetition, all positive. -/
def isValid : Coins → Bool
  | [] => true
  | coin :: coins =>
    validateDenom coin.denom && coin.isPositive && isValidAfter validateDenom coin.denom coins

def isSorted : Coins → Bool
  | a :: b :: coins => decide (compare a.denom b.denom ≠ .gt) && isSorted (b :: coins)
  | _ => true

def isAllPositive (coins : Coins) : Bool :=
  !coins.isEmpty && coins.all Coin.isPositive

def isAnyNegative (coins : Coins) : Bool := coins.any Coin.isNegative

def negative (coins : Coins) : Coins := coins.map (fun c => ⟨c.denom, -c.amount⟩)

def removeZeroCoins (coins : Coins) : Coins := coins.filter (fun c => !c.isZero)

/-- `Sort`, by denomination. -/
def sort (coins : Coins) : Coins :=
  coins.insertionSort (fun a b => (compare a.denom b.denom).isLE = true)

def newCoins (coins : Coins) : Result ε Coins :=
  let newCoins := sort (removeZeroCoins coins)
  if isValid validateDenom newCoins then .ok newCoins else .error (.panic "invalid coin set")

/-- The map `uniqCoins` of `safeAdd` after more coins. -/
def addUniqCoins : Coins → OrdMap Denom Int → Result ε (OrdMap Denom Int)
  | [], uniqCoins => .ok uniqCoins
  | c :: coins, uniqCoins =>
    match uniqCoins[c.denom]? with
    | none => addUniqCoins coins (uniqCoins.insert c.denom c.amount)
    | some amount => do
        let sum ← addInt amount c.amount
        addUniqCoins coins (uniqCoins.insert c.denom sum)

/-- The coins of the map, without those that are zero, in order. -/
def coalesced (uniqCoins : OrdMap Denom Int) : Coins :=
  (uniqCoins.toList.map (fun e => Coin.mk e.1 e.2)).filter (fun c => !c.isZero)

def safeAdd (coins coinsB : Coins) : Result ε Coins :=
  if !isSorted coins then .error (.panic "Coins (self) must be sorted")
  else if !isSorted coinsB then .error (.panic "Wrong argument: coins must be sorted")
  else do
    let uniqCoins ← addUniqCoins (coins ++ coinsB) ∅
    .ok (coalesced uniqCoins)

/-! What the sum holds of each denomination. -/

variable {coins coinsB sum diff : Coins} {coin : Coin}

theorem addUniqCoins_ok {m m' : OrdMap Denom Int} (h : (addUniqCoins coins m : Result ε _) = .ok m')
    (denom : Denom) : (m'[denom]?).getD 0 = (m[denom]?).getD 0 + amountIn coins denom := by
  induction coins generalizing m with
  | nil =>
    cases h
    simp
  | cons c coins ih => grind [lookup_insert, amountIn_cons, bind_eq_ok, addInt_ok, addUniqCoins]

theorem amountIn_removeZero (coins : Coins) (denom : Denom) :
    amountIn (coins.filter (fun c => !c.isZero)) denom = amountIn coins denom := by
  induction coins with
  | nil => rfl
  | cons c coins ih =>
    by_cases hc : c.isZero = true
    · have hzero : c.amount = 0 := by simpa [Coin.isZero] using hc
      simp [hc, ih, hzero]
    · simp [hc, ih]

theorem amountIn_coalesced (uniqCoins : OrdMap Denom Int) (denom : Denom) :
    amountIn (coalesced uniqCoins) denom = (uniqCoins[denom]?).getD 0 := by
  let f : Denom → Int → Int := fun d amount => if d = denom then amount else 0
  have htotal : amountIn (coalesced uniqCoins) denom = total f uniqCoins := by
    rw [coalesced, amountIn_removeZero, amountIn, total, map_map]
    rfl
  rw [htotal, total_eq_sum f uniqCoins (insert denom uniqCoins.keys.toFinset)]
  · rw [Finset.sum_eq_single denom]
    · unfold part
      cases uniqCoins[denom]? <;> simp [f]
    · intro d _ hd
      unfold part
      cases uniqCoins[d]? <;> simp [f, hd]
    · intro hd
      exact absurd (Finset.mem_insert_self _ _) hd
  · intro d hd
    exact Finset.mem_insert_of_mem (mem_toFinset.mpr (ExtTreeMap.mem_keys.mpr hd))

theorem amountIn_safeAdd (h : (safeAdd coins coinsB : Result ε _) = .ok sum) (denom : Denom) :
    amountIn sum denom = amountIn coins denom + amountIn coinsB denom := by
  simp only [safeAdd, passes] at h
  obtain ⟨_, _, _, huniq, h⟩ := h
  cases h
  rw [amountIn_coalesced, addUniqCoins_ok huniq, amountIn_append]
  simp

def add (coins coinsB : Coins) : Result ε Coins := safeAdd coins coinsB

/-- `SafeSub`: the difference, and whether some amount in it is negative. -/
def safeSub (coins coinsB : Coins) : Result ε (Coins × Bool) := do
  let coinsB ← newCoins validateDenom coinsB
  let diff ← safeAdd coins (negative coinsB)
  .ok (diff, isAnyNegative diff)

def sub (coins coinsB : Coins) : Result ε Coins := do
  let diff ← safeSub validateDenom coins coinsB
  if diff.2 then .error (.panic "negative coin amount") else .ok diff.1

def isZero (coins : Coins) : Bool := coins.all Coin.isZero

def equal (coins coinsB : Coins) : Bool := sort coins = sort coinsB

theorem sort_perm (coins : Coins) : (sort coins).Perm coins :=
  perm_insertionSort (fun a b : Coin => (compare a.denom b.denom).isLE = true) coins

theorem amountIn_of_equal (h : equal coins coinsB = true) (denom : Denom) :
    amountIn coins denom = amountIn coinsB denom := by
  have hsort : sort coins = sort coinsB := by simpa [equal] using h
  rw [← amountIn_perm (sort_perm coins) denom, hsort, amountIn_perm (sort_perm coinsB) denom]

/-- The binary search of `Find` in at most `fuel` halvings. -/
def findWithin : Nat → Coins → Denom → Option Coin
  | 0, _, _ => none
  | fuel + 1, coins, denom =>
    match coins with
    | [] => none
    | [coin] => if coin.denom = denom then some coin else none
    | _ =>
      let midIdx := coins.length / 2
      match coins[midIdx]? with
      | none => none
      | some coin =>
        match compare denom coin.denom with
        | .lt => findWithin fuel (coins.take midIdx) denom
        | .eq => some coin
        | .gt => findWithin fuel (coins.drop (midIdx + 1)) denom

def find (coins : Coins) (denom : Denom) : Option Coin := findWithin coins.length coins denom

/-- `AmountOf`: it panics on an invalid denomination. -/
def amountOf (coins : Coins) (denom : Denom) : Result ε Int :=
  if validateDenom denom then .ok (((find coins denom).map Coin.amount).getD 0)
  else .error (.panic "invalid denom")

/-- The loop of `IsAnyGT`. -/
def anyAbove (coinsB : Coins) : Coins → Result ε Bool
  | [] => .ok false
  | coin :: coins => do
      let amt ← amountOf validateDenom coinsB coin.denom
      if amt < coin.amount ∧ amt ≠ 0 then .ok true else anyAbove coinsB coins

def isAnyGT (coins coinsB : Coins) : Result ε Bool :=
  if coinsB.isEmpty then .ok false else anyAbove validateDenom coinsB coins

/-- The loop of `DenomsSubsetOf`. -/
def denomsFoundIn (coinsB : Coins) : Coins → Result ε Bool
  | [] => .ok true
  | coin :: coins => do
      let amount ← amountOf validateDenom coinsB coin.denom
      if amount = 0 then .ok false else denomsFoundIn coinsB coins

def denomsSubsetOf (coins coinsB : Coins) : Result ε Bool :=
  if coinsB.length < coins.length then .ok false else denomsFoundIn validateDenom coinsB coins

variable {validateDenom}

/-! The amounts in a valid set and in a difference. -/

theorem amountIn_nonneg (h : ∀ coin ∈ coins, 0 ≤ coin.amount) (denom : Denom) :
    0 ≤ amountIn coins denom := by
  induction coins with
  | nil => simp
  | cons coin coins ih =>
    have hcoin := h coin mem_cons_self
    have hcoins := ih (forall_mem_cons.mp h).2
    rw [amountIn_cons]
    split <;> omega

theorem isPositive_of_isValidAfter {low : Denom} (h : isValidAfter validateDenom low coins = true) :
    ∀ coin ∈ coins, 0 < coin.amount := by
  induction coins generalizing low <;> grind [isValidAfter, Coin.isPositive]

theorem isPositive_of_isValid (h : isValid validateDenom coins = true) :
    ∀ coin ∈ coins, 0 < coin.amount := by
  cases coins with
  | nil => simp
  | cons =>
    simp only [isValid, Bool.and_eq_true, Coin.isPositive, decide_eq_true_eq] at h
    intro c hc
    cases mem_cons.mp hc with
    | inl heq => exact heq ▸ h.1.2
    | inr hmem => exact isPositive_of_isValidAfter h.2 c hmem

theorem amountIn_nonneg_of_isValid (h : isValid validateDenom coins = true) (denom : Denom) :
    0 ≤ amountIn coins denom :=
  amountIn_nonneg (fun coin hcoin => (isPositive_of_isValid h coin hcoin).le) denom

theorem newCoins_ok {new : Coins} (h : (newCoins validateDenom coins : Result ε Coins) = .ok new) :
    isValid validateDenom new = true ∧ ∀ denom, amountIn new denom = amountIn coins denom := by
  unfold newCoins at h
  obtain ⟨hvalid, h⟩ := require_eq_ok.mp h
  cases h
  refine ⟨hvalid, fun denom => ?_⟩
  rw [amountIn_perm (sort_perm _), removeZeroCoins, amountIn_removeZero]

@[simp] theorem amountIn_negative (coins : Coins) (denom : Denom) :
    amountIn (negative coins) denom = -amountIn coins denom := by
  induction coins with
  | nil => rfl
  | cons coin coins ih =>
    rw [amountIn_cons, neg_add, ← ih]
    show amountIn (⟨coin.denom, -coin.amount⟩ :: negative coins) denom = _
    rw [amountIn_cons]
    split <;> simp

theorem amountIn_nonneg_of_not_isAnyNegative (h : isAnyNegative coins = false) (denom : Denom) :
    0 ≤ amountIn coins denom := by
  apply amountIn_nonneg
  simpa [isAnyNegative, Coin.isNegative] using h

theorem exists_neg_of_isAnyNegative (h : (safeAdd coins coinsB : Result ε Coins) = .ok sum)
    (hneg : isAnyNegative sum = true) : ∃ denom, amountIn sum denom < 0 := by
  simp only [safeAdd, passes] at h
  obtain ⟨_, _, _, _, h⟩ := h
  cases h
  obtain ⟨_, hcoin, hamount⟩ := any_eq_true.mp hneg
  obtain ⟨entry, hentry, rfl⟩ := mem_map.mp (mem_filter.mp hcoin).1
  have hlookup := ExtTreeMap.mem_toList_iff_getElem?_eq_some.mp hentry
  refine ⟨entry.1, ?_⟩
  rw [amountIn_coalesced, hlookup]
  simpa [Coin.isNegative] using hamount

theorem amountIn_eq_zero {denom : Denom} (h : ∀ c ∈ coins, c.denom ≠ denom) :
    amountIn coins denom = 0 := by
  induction coins with
  | nil => rfl
  | cons coin coins ih =>
    rw [amountIn_cons, if_neg (h coin mem_cons_self),
      ih (forall_mem_cons.mp h).2, add_zero]

theorem amountIn_of_isZero (h : isZero coins = true) (denom : Denom) :
    amountIn coins denom = 0 := by
  induction coins with
  | nil => rfl
  | cons coin coins ih =>
    simp only [isZero, all_cons, Bool.and_eq_true, Coin.isZero, decide_eq_true_eq] at h
    rw [amountIn_cons, ih h.2, h.1]
    simp

theorem safeSub_ok {isNeg : Bool}
    (h : (safeSub validateDenom coins coinsB : Result ε _) = .ok (diff, isNeg)) :
    (∀ denom, amountIn diff denom = amountIn coins denom - amountIn coinsB denom) ∧
      (∀ denom, 0 ≤ amountIn coinsB denom) ∧
      (isNeg = true ↔ ∃ denom, amountIn coins denom < amountIn coinsB denom) := by
  simp only [safeSub, bind_eq_ok] at h
  obtain ⟨_, hnew, sum, hsum, h⟩ := h
  obtain ⟨rfl, rfl⟩ := Prod.mk.inj (Except.ok.inj h)
  obtain ⟨hvalid, hamount⟩ := newCoins_ok hnew
  have hdiff (denom : Denom) : amountIn sum denom = amountIn coins denom - amountIn coinsB denom := by
    rw [amountIn_safeAdd hsum, amountIn_negative, hamount, sub_eq_add_neg]
  refine ⟨hdiff, fun denom => hamount denom ▸ amountIn_nonneg_of_isValid hvalid denom, ?_⟩
  constructor
  · intro hneg
    obtain ⟨denom, hlt⟩ := exists_neg_of_isAnyNegative hsum hneg
    exact ⟨denom, by rw [hdiff] at hlt; omega⟩
  · intro hlt
    obtain ⟨denom, hlt⟩ := hlt
    by_contra hneg
    have hnonneg := amountIn_nonneg_of_not_isAnyNegative (Bool.not_eq_true _ ▸ hneg) denom
    rw [hdiff] at hnonneg
    omega

/-! A set of one coin. -/

theorem newCoins_of_zero (hzero : coin.amount = 0) :
    (newCoins validateDenom [coin] : Result ε Coins) = .ok [] := by
  have hremove : removeZeroCoins [coin] = [] := by simp [removeZeroCoins, Coin.isZero, hzero]
  unfold newCoins
  rw [hremove]
  rfl

theorem newCoins_of_pos (hpos : 0 < coin.amount) (hdenom : validateDenom coin.denom = true) :
    (newCoins validateDenom [coin] : Result ε Coins) = .ok [coin] := by
  have hne : coin.amount ≠ 0 := by omega
  have hsort : sort (removeZeroCoins [coin]) = [coin] := by
    simp [removeZeroCoins, sort, Coin.isZero, hne]
  unfold newCoins
  rw [hsort, if_pos (by simp [isValid, isValidAfter, Coin.isPositive, hdenom, hpos])]

theorem amountOf_nil {denom : Denom} (hdenom : validateDenom denom = true) :
    (amountOf validateDenom [] denom : Result ε Int) = .ok 0 := by
  simp [amountOf, hdenom, find, findWithin]

theorem amountOf_singleton (hdenom : validateDenom coin.denom = true) :
    (amountOf validateDenom [coin] coin.denom : Result ε Int) = .ok coin.amount := by
  simp [amountOf, hdenom, find, findWithin]

end Coins

end

end CosmosSDK.Types
