import CosmosSDK.Types.CoinSums

/-!
# The algebra of valid sets of coins

A sorted set without zeros is determined by its amounts, so the laws of `Add`, `SafeSub`, `Min` and
`Max` of `types/coin.go` are those of the integers, as long as no amount leaves the range of `Int`.
-/

namespace CosmosSDK.Types.Coins

open Math OrderedKV Std Fallible List Int

variable {ε : Type} {validateDenom : Denom → Bool} {a b c coins sum : Coins} {f : Denom → Int}

/-- The sorted set without zeros that has the given amounts. -/
structure Represents (coins : Coins) (amounts : Denom → Int) : Prop where
  ordered : Ordered coins
  nonzero : ∀ c ∈ coins, c.amount ≠ 0
  amounts : ∀ d, amountIn coins d = amounts d

theorem Represents.mem_iff (h : Represents coins f) {c : Coin} :
    c ∈ coins ↔ f c.denom = c.amount ∧ c.amount ≠ 0 := by
  constructor
  · intro hc
    exact ⟨by rw [← h.amounts, h.ordered.amountIn_of_mem hc], h.nonzero c hc⟩
  · intro hc
    obtain ⟨c', hc', heq⟩ := exists_mem_of_amountIn (by rw [h.amounts, hc.1]; exact hc.2)
    have hamount := h.ordered.amountIn_of_mem hc'
    rw [heq, h.amounts, hc.1] at hamount
    obtain rfl : c' = c := by cases c; cases c'; simp_all
    exact hc'

theorem Represents.unique (ha : Represents a f) (hb : Represents b f) : a = b := by
  have : Std.Irrefl (fun a b : Coin => compare a.denom b.denom = .lt) := ⟨fun c => lt_irrefl c.denom⟩
  have : Std.Antisymm (fun a b : Coin => compare a.denom b.denom = .lt) :=
    ⟨fun a b hab hba => absurd hba (OrientedCmp.not_lt_of_lt hab)⟩
  exact ha.ordered.eq_of_mem_iff hb.ordered fun c => ha.mem_iff.trans hb.mem_iff.symm

theorem safeAdd_represents (h : safeAdd (ε := ε) a b = .ok sum) :
    Represents sum (fun d => amountIn a d + amountIn b d) :=
  ⟨(safeAdd_ordered h).1, (safeAdd_ordered h).2, amountIn_safeAdd h⟩

theorem addUniqCoins_error {m : OrdMap Denom Int} {e : Fault ε} (h : addUniqCoins coins m = .error e) :
    e = .panic "integer overflow" := by
  induction coins generalizing m with
  | nil => cases h
  | cons c coins ih =>
    unfold addUniqCoins at h
    split at h
    · exact ih h
    · rcases bind_eq_error.mp h with h | ⟨_, _, h⟩
      · unfold addInt Math.inRange at h
        split at h <;> cases h
        rfl
      · exact ih h

variable (validateDenom) in
/-- A set as `Validate` accepts it, with amounts that an `Int` can hold. -/
structure Valid (coins : Coins) : Prop where
  isValid : isValid validateDenom coins = true
  inRange : ∀ c ∈ coins, c.amount < 2 ^ 256

namespace Valid

variable (h : Valid validateDenom a)
include h

theorem ordered : Ordered a := (isValid_iff.mp h.isValid).1

theorem represents : Represents a (amountIn a) :=
  ⟨h.ordered, fun c hc => (isPositive_of_isValid h.isValid c hc).ne', fun _ => rfl⟩

theorem bounds (d : Denom) : 0 ≤ amountIn a d ∧ amountIn a d < 2 ^ 256 := by
  refine ⟨amountIn_nonneg_of_isValid h.isValid d, ?_⟩
  by_cases hd : amountIn a d = 0
  · omega
  · obtain ⟨c, hc, rfl⟩ := exists_mem_of_amountIn hd
    rw [h.ordered.amountIn_of_mem hc]
    exact h.inRange c hc

theorem natAbs_lt : ∀ c ∈ a, c.amount.natAbs < 2 ^ maxBitLen := by
  apply h.ordered.natAbs_lt
  intro d
  have := h.bounds d
  unfold maxBitLen
  omega

omit h

theorem add (ha : Valid validateDenom a) (hb : Valid validateDenom b)
    (hlt : ∀ d, amountIn a d + amountIn b d < 2 ^ 256) :
    ∃ sum, add (ε := ε) a b = .ok sum ∧ Valid validateDenom sum ∧
      Represents sum (fun d => amountIn a d + amountIn b d) := by
  have hbounds (d : Denom) := And.intro (ha.bounds d) (hb.bounds d)
  obtain ⟨sum, hsum⟩ : ∃ sum, safeAdd (ε := ε) a b = .ok sum := by
    apply safeAdd_of_bounded ha.ordered hb.ordered <;> intro d <;> have := hbounds d <;> have := hlt d <;>
      unfold maxBitLen <;> omega
  have hrep := safeAdd_represents hsum
  have hvalid : Coins.isValid validateDenom sum = true := by
    apply isValid_of_safeAdd hsum
    · intro d
      have := hbounds d
      rw [hrep.amounts]
      omega
    · exact fun c hc => ((isValid_iff.mp ha.isValid).2 c hc).1
    · exact fun c hc => ((isValid_iff.mp hb.isValid).2 c hc).1
  refine ⟨sum, hsum, ⟨hvalid, fun c hc => ?_⟩, hrep⟩
  rw [← hrep.ordered.amountIn_of_mem hc, hrep.amounts]
  exact hlt c.denom

/-- `SafeSub` of valid sets is the pointwise difference. -/
theorem safeSub (ha : Valid validateDenom a) (hb : Valid validateDenom b) :
    ∃ diff isNeg, safeSub (ε := ε) validateDenom a b = .ok (diff, isNeg) ∧
      Represents diff (fun d => amountIn a d - amountIn b d) ∧
      (isNeg = true ↔ ∃ d, amountIn a d < amountIn b d) := by
  obtain ⟨diff, hdiff⟩ : ∃ diff, safeAdd (ε := ε) a (negative b) = .ok diff := by
    apply safeAdd_of_bounded ha.ordered hb.ordered.negative <;> intro d <;> have := ha.bounds d <;>
      have := hb.bounds d <;> simp only [amountIn_negative, maxBitLen] <;> omega
  have hsub : Coins.safeSub (ε := ε) validateDenom a b = .ok (diff, isAnyNegative diff) := by
    unfold Coins.safeSub
    rw [newCoins_of_isValid hb.isValid, ok_bind, hdiff, ok_bind]
  have hspec := safeSub_ok hsub
  exact ⟨diff, _, hsub, ⟨(safeAdd_ordered hdiff).1, (safeAdd_ordered hdiff).2, hspec.1⟩, hspec.2.2⟩

theorem sums (ha : Valid validateDenom a) (hb : Valid validateDenom b) (hc : Valid validateDenom c)
    (hlt : ∀ d, amountIn a d + amountIn b d + amountIn c d < 2 ^ 256) : ∃ ab bc abc,
      Coins.add (ε := ε) a b = .ok ab ∧ Valid validateDenom ab ∧
      Represents ab (fun d => amountIn a d + amountIn b d) ∧ Coins.add (ε := ε) b a = .ok ab ∧
      Coins.safeSub (ε := ε) validateDenom ab b = .ok (a, false) ∧ Coins.add (ε := ε) b c = .ok bc ∧
      Coins.add (ε := ε) ab c = .ok abc ∧ Coins.add (ε := ε) a bc = .ok abc := by
  have hbounds (d : Denom) := And.intro (hlt d) (And.intro (ha.bounds d) (hc.bounds d))
  obtain ⟨ab, hab, hvab, hrab⟩ := ha.add (ε := ε) hb fun d => by have := hbounds d; omega
  obtain ⟨_, hba, -, hrba⟩ := hb.add (ε := ε) ha fun d => by have := hbounds d; omega
  obtain ⟨bc, hbc, hvbc, hrbc⟩ := hb.add (ε := ε) hc fun d => by have := hbounds d; omega
  obtain ⟨abc, habc, -, hrabc⟩ := hvab.add (ε := ε) hc fun d => by
    rw [hrab.amounts]
    exact hlt d
  obtain ⟨_, habc', -, hrabc'⟩ := ha.add (ε := ε) hvbc fun d => by
    rw [hrbc.amounts, ← Int.add_assoc]
    exact hlt d
  obtain ⟨_, isNeg, hdiff, hrdiff, hneg⟩ := hvab.safeSub (ε := ε) hb
  simp only [hrab.amounts, hrbc.amounts, Int.add_sub_cancel, ← Int.add_assoc] at hrdiff hneg hrabc hrabc'
  simp only [Int.add_comm] at hrab hrba
  obtain rfl := hrab.unique hrba
  obtain rfl := hrabc.unique hrabc'
  obtain rfl := hrdiff.unique ha.represents
  have hnonneg : isNeg = false := by
    by_contra hne
    obtain ⟨d, _⟩ := hneg.mp (Bool.not_eq_false _ ▸ hne)
    have := hbounds d
    omega
  exact ⟨ab, bc, abc, hab, hvab, safeAdd_represents hab, hba, hnonneg ▸ hdiff, hbc, habc, habc'⟩

end Valid

/-! ## Any lists -/

theorem newCoins_cases (l : Coins) :
    match newCoins (ε := ε) validateDenom l with
    | .ok new => Clean validateDenom l ∧ isValid validateDenom new = true ∧ Represents new (amountIn l)
    | .error e => ¬ Clean validateDenom l ∧ e = .panic "invalid coin set" := by
  cases hnew : newCoins (ε := ε) validateDenom l with
  | ok new =>
    obtain ⟨hvalid, hamounts⟩ := newCoins_ok hnew
    obtain ⟨hordered, hcoins⟩ := isValid_iff.mp hvalid
    obtain ⟨hsorted, -⟩ := require_eq_ok.mp hnew
    exact ⟨isValid_sort_iff.mp hsorted, hvalid, hordered, fun c hc => (hcoins c hc).2.ne', hamounts⟩
  | error e =>
    simp only [newCoins] at hnew
    split at hnew <;> cases hnew
    exact ⟨fun hclean => absurd (isValid_sort_iff.mpr hclean) ‹_›, rfl⟩

theorem safeAdd_cases {l l' : Coins} (hl : ∀ c ∈ l ++ l', c.amount.natAbs < 2 ^ maxBitLen) :
    match safeAdd (ε := ε) l l' with
    | .ok sum => Sorted l ∧ Sorted l' ∧ ¬ Overflows (l ++ l') ∧
        Represents sum (fun d => amountIn l d + amountIn l' d)
    | .error e => ¬ Sorted l ∧ e = .panic "Coins (self) must be sorted" ∨
        Sorted l ∧ ¬ Sorted l' ∧ e = .panic "Wrong argument: coins must be sorted" ∨
        Sorted l ∧ Sorted l' ∧ Overflows (l ++ l') ∧ e = .panic "integer overflow" := by
  have hiff := safeAdd_isOk_iff (ε := ε) hl
  cases hsum : safeAdd (ε := ε) l l' with
  | ok sum =>
    obtain ⟨hleft, hright, hfits⟩ := hiff.mp ⟨sum, hsum⟩
    exact ⟨hleft, hright, hfits, safeAdd_represents hsum⟩
  | error e =>
    rw [hsum] at hiff
    have hsorted (coins : Coins) : (!isSorted coins) = true ↔ ¬ Sorted coins := by
      simp [← isSorted_iff]
    unfold safeAdd at hsum
    split at hsum
    · rename_i hleft
      cases hsum
      exact .inl ⟨(hsorted l).mp hleft, rfl⟩
    · rename_i hleft
      have hleft := not_not.mp (mt (hsorted l).mpr hleft)
      split at hsum
      · rename_i hright
        cases hsum
        exact .inr (.inl ⟨hleft, (hsorted l').mp hright, rfl⟩)
      · rename_i hright
        have hright := not_not.mp (mt (hsorted l').mpr hright)
        have hover : Overflows (l ++ l') := by
          by_contra hfits
          obtain ⟨_, hok⟩ := hiff.mpr ⟨hleft, hright, hfits⟩
          cases hok
        rcases bind_eq_error.mp hsum with herror | ⟨_, _, hok⟩
        · exact .inr (.inr ⟨hleft, hright, hover, addUniqCoins_error herror⟩)
        · cases hok

/-- The sums and differences of valid sets, and what `NewCoins` and `safeAdd` make of any lists of
coins that `Int` can hold. -/
theorem coins_sums (ha : Valid validateDenom a) (hb : Valid validateDenom b)
    (hc : Valid validateDenom c) (l l' : Coins) (hl : ∀ c ∈ l ++ l', c.amount.natAbs < 2 ^ maxBitLen) :
    ((∀ d, amountIn a d + amountIn b d + amountIn c d < 2 ^ 256) → ∃ ab bc abc,
      add (ε := ε) a b = .ok ab ∧ Valid validateDenom ab ∧
      Represents ab (fun d => amountIn a d + amountIn b d) ∧ add (ε := ε) b a = .ok ab ∧
      safeSub (ε := ε) validateDenom ab b = .ok (a, false) ∧ add (ε := ε) b c = .ok bc ∧
      add (ε := ε) ab c = .ok abc ∧ add (ε := ε) a bc = .ok abc) ∧
    (∃ diff isNeg, safeSub (ε := ε) validateDenom a b = .ok (diff, isNeg) ∧
      Represents diff (fun d => amountIn a d - amountIn b d) ∧
      (isNeg = true ↔ ∃ d, amountIn a d < amountIn b d)) ∧
    (match newCoins (ε := ε) validateDenom l with
      | .ok new => Clean validateDenom l ∧ isValid validateDenom new = true ∧
          Represents new (amountIn l)
      | .error e => ¬ Clean validateDenom l ∧ e = .panic "invalid coin set") ∧
    (match safeAdd (ε := ε) l l' with
      | .ok sum => Sorted l ∧ Sorted l' ∧ ¬ Overflows (l ++ l') ∧
          Represents sum (fun d => amountIn l d + amountIn l' d)
      | .error e => ¬ Sorted l ∧ e = .panic "Coins (self) must be sorted" ∨
          Sorted l ∧ ¬ Sorted l' ∧ e = .panic "Wrong argument: coins must be sorted" ∨
          Sorted l ∧ Sorted l' ∧ Overflows (l ++ l') ∧ e = .panic "integer overflow") :=
  ⟨ha.sums hb hc, ha.safeSub hb, newCoins_cases l, safeAdd_cases hl⟩

def oneDenom (amount : Int) : Coins := [⟨[97], amount⟩]

/-- The sets `{2A, 3B}` and `{B, 4C}`. -/
def twoThree : Coins := [⟨[65], 2⟩, ⟨[66], 3⟩]

def oneFour : Coins := [⟨[66], 1⟩, ⟨[67], 4⟩]

theorem twoThree_valid : Valid (fun _ => true) twoThree := ⟨by decide, by decide⟩

theorem oneFour_valid : Valid (fun _ => true) oneFour := ⟨by decide, by decide⟩

/-- `{2A, 4B, 4C}` and back, and a list with a repeated denomination and a zero coin. -/
theorem twoThree_sums : ∃ sum, add (ε := Unit) twoThree oneFour = .ok sum ∧
    Represents sum (fun d => amountIn twoThree d + amountIn oneFour d) ∧
    safeSub (ε := Unit) (fun _ => true) sum oneFour = .ok (twoThree, false) ∧
    ¬ Clean (fun _ => true) [⟨[67], 1⟩, ⟨[65], 0⟩, ⟨[67], 2⟩] := by
  have hsums := coins_sums (ε := Unit) twoThree_valid oneFour_valid twoThree_valid
    [⟨[67], 1⟩, ⟨[65], 0⟩, ⟨[67], 2⟩] [] (by decide)
  obtain ⟨sum, _, _, hsum, -, hrep, -, hback, -⟩ := hsums.1 fun d => by
    simp only [twoThree, oneFour, amountIn_cons, amountIn_nil]
    split_ifs <;> decide
  exact ⟨sum, hsum, hrep, hback, hsums.2.2.1.1⟩

/-- Two valid sets whose sum no `Int` can hold. -/
theorem add_valid_overflows :
    isValid (fun _ => true) (oneDenom (2 ^ 256 - 1)) = true ∧ isValid (fun _ => true) (oneDenom 1) = true ∧
      (add (oneDenom (2 ^ 256 - 1)) (oneDenom 1) : Result Unit Coins).toOption = none := by
  decide +kernel

/-! ## Minimum and maximum -/

/-- The walk of `Min` and `Max` through two sorted sets: coins of one set only are kept or left out,
`both` treats two coins of one denomination. -/
def merge (keep : Bool) (both : Coin → Coin → Coins) : Coins → Coins → Coins
  | coinA :: coins, coinB :: coinsB =>
    match compare coinA.denom coinB.denom with
    | .lt => (if keep then [coinA] else []) ++ merge keep both coins (coinB :: coinsB)
    | .eq => both coinA coinB ++ merge keep both coins coinsB
    | .gt => (if keep then [coinB] else []) ++ merge keep both (coinA :: coins) coinsB
  | coins, coinsB => if keep then coins ++ coinsB else []
termination_by coins coinsB => coins.length + coinsB.length

def maxCoin (coinA coinB : Coin) : Coins := [if coinB.amount > coinA.amount then coinB else coinA]

def minCoin (coinA coinB : Coin) : Coins :=
  let minCoin := if coinB.amount < coinA.amount then coinB else coinA
  if !minCoin.isZero then [minCoin] else []

variable (validateDenom) in
def max (coins coinsB : Coins) : Result ε Coins := newCoins validateDenom (merge true maxCoin coins coinsB)

variable (validateDenom) in
def min (coins coinsB : Coins) : Result ε Coins := newCoins validateDenom (merge false minCoin coins coinsB)

/-- A sorted set of coins of two others with their amounts combined. -/
structure Merged (op : Int → Int → Int) (a b r : Coins) : Prop where
  ordered : Ordered r
  mem : ∀ c ∈ r, c ∈ a ++ b
  amounts : ∀ d, amountIn r d = op (amountIn a d) (amountIn b d)

variable {op : Int → Int → Int} {keep : Bool} {both : Coin → Coin → Coins} {d : Denom}

theorem Merged.step {x y z r : Coins} (h : Merged op a b r) (hd : ∀ c ∈ x ++ y, c.denom = d)
    (hlt : ∀ c ∈ a ++ b, compare d c.denom = .lt) (hz : Ordered z) (hsub : ∀ c ∈ z, c ∈ x ++ y)
    (hamount : amountIn z d = op (amountIn x d) (amountIn y d)) : Merged op (x ++ a) (y ++ b) (z ++ r) := by
  refine ⟨pairwise_append.mpr ⟨hz, h.ordered, fun c hc c' hc' => ?_⟩, fun c hc => ?_, fun d' => ?_⟩
  · rw [hd c (hsub c hc)]
    exact hlt c' (h.mem c' hc')
  · have := h.mem c
    grind
  · simp only [amountIn_append]
    by_cases heq : d = d'
    · subst heq
      have hzero {l : Coins} (hl : ∀ c ∈ l, c ∈ a ++ b) : amountIn l d = 0 :=
        amountIn_eq_zero fun c hc heq => lt_irrefl d (heq ▸ hlt c (hl c hc))
      simp [hamount, hzero h.mem, hzero (l := a) (by grind), hzero (l := b) (by grind)]
    · have hzero {l : Coins} (hl : ∀ c ∈ l, c ∈ x ++ y) : amountIn l d' = 0 :=
        amountIn_eq_zero fun c hc heq' => heq ((hd c (hl c hc)).symm.trans heq')
      simp [h.amounts, hzero hsub, hzero (l := x) (by grind), hzero (l := y) (by grind)]

theorem Ordered.behind {l : Coins} {coin : Coin} (h : Ordered (coin :: l))
    (hd : compare d coin.denom = .lt) : ∀ c ∈ coin :: l, compare d c.denom = .lt :=
  forall_mem_cons.mpr ⟨hd, fun _ hc => TransCmp.lt_trans hd (rel_of_pairwise_cons h hc)⟩

structure Combines (keep : Bool) (both : Coin → Coin → Coins) (op : Int → Int → Int) : Prop where
  single : ∀ n ≥ 0, op n 0 = (if keep then n else 0) ∧ op 0 n = if keep then n else 0
  both : ∀ coinA coinB : Coin, 0 < coinA.amount → 0 < coinB.amount → ∃ coin ∈ [coinA, coinB],
    both coinA coinB = [coin] ∧ coin.amount = op coinA.amount coinB.amount

theorem Combines.merged (h : Combines keep both op) (ha : Ordered a) (hb : Ordered b)
    (hpos : ∀ c ∈ a ++ b, 0 < c.amount) : Merged op a b (merge keep both a b) := by
  fun_induction merge keep both a b with
  | case1 coinA coins coinB coinsB hcmp ih =>
    have hlt := (pairwise_cons.mp ha).1
    have hltB := hb.behind hcmp
    have hsingle := h.single coinA.amount (by grind)
    exact (ih ha.of_cons hb (by grind)).step (x := [coinA]) (y := []) (d := coinA.denom) (by simp)
      (by grind) (by cases keep <;> simp [Ordered]) (by cases keep <;> simp) (by cases keep <;> simp_all)
  | case2 coinA coins coinB coinsB hcmp ih =>
    have hlt := (pairwise_cons.mp ha).1
    have hltB := (pairwise_cons.mp hb).1
    have hdenom := LawfulEqOrd.eq_of_compare hcmp
    obtain ⟨coin, hcoin, hboth, hamount⟩ := h.both coinA coinB (by grind) (by grind)
    have hcoinDenom : coin.denom = coinA.denom := by grind
    exact (ih ha.of_cons hb.of_cons (by grind)).step (x := [coinA]) (y := [coinB]) (d := coinA.denom)
      (by simp [hdenom]) (by grind) (by simp [hboth, Ordered]) (by simpa [hboth] using hcoin)
      (by simp [hboth, hamount, ← hdenom, hcoinDenom])
  | case3 coinA coins coinB coinsB hcmp ih =>
    have hlt := ha.behind (OrientedCmp.lt_of_gt hcmp)
    have hltB := (pairwise_cons.mp hb).1
    have hsingle := h.single coinB.amount (by grind)
    exact (ih ha hb.of_cons (by grind)).step (x := []) (y := [coinB]) (d := coinB.denom) (by simp)
      (by grind) (by cases keep <;> simp [Ordered]) (by cases keep <;> simp) (by cases keep <;> simp_all)
  | case4 coins coinsB htail | case5 coins coinsB htail =>
    -- one of the sets is used up
    have hnil : coins = [] ∨ coinsB = [] := by cases coins <;> cases coinsB <;> grind
    have hsingle (d : Denom) := h.single _ (amountIn_nonneg (fun c hc => (hpos c hc).le) d)
    rcases hnil with rfl | rfl <;> constructor <;> simp_all [Ordered]

variable (validateDenom) in
/-- A computation that ends with the valid set that has the given amounts. -/
def Computes (x : Result ε Coins) (amounts : Denom → Int) : Prop :=
  ∃ coins, x = .ok coins ∧ Valid validateDenom coins ∧ ∀ d, amountIn coins d = amounts d

variable {x y : Result ε Coins} {g : Denom → Int}

theorem Computes.unique (hx : Computes validateDenom x f) (hy : Computes validateDenom y g)
    (h : ∀ d, f d = g d) : x = y := by
  obtain ⟨_, rfl, ha, hf⟩ := hx
  obtain ⟨_, rfl, hb, hg⟩ := hy
  obtain rfl := funext h
  rw [Represents.unique ⟨ha.ordered, ha.represents.nonzero, hf⟩ ⟨hb.ordered, hb.represents.nonzero, hg⟩]

theorem Valid.computes (h : Valid validateDenom a) : Computes (ε := ε) validateDenom (.ok a) (amountIn a) :=
  ⟨a, rfl, h, fun _ => rfl⟩

theorem Combines.computes (h : Combines keep both op) (hx : Computes validateDenom x f)
    (hy : Computes validateDenom y g) : Computes validateDenom
      (do newCoins validateDenom (merge keep both (← x) (← y))) (fun d => op (f d) (g d)) := by
  obtain ⟨a, rfl, ha, hf⟩ := hx
  obtain ⟨b, rfl, hb, hg⟩ := hy
  have hcoin : ∀ c ∈ a ++ b, (validateDenom c.denom = true ∧ 0 < c.amount) ∧ c.amount < 2 ^ 256 :=
    forall_mem_append.mpr ⟨fun c hc => ⟨(isValid_iff.mp ha.isValid).2 c hc, ha.inRange c hc⟩,
      fun c hc => ⟨(isValid_iff.mp hb.isValid).2 c hc, hb.inRange c hc⟩⟩
  have hmerged := h.merged ha.ordered hb.ordered fun c hc => (hcoin c hc).1.2
  have hvalid := isValid_iff.mpr ⟨hmerged.ordered, fun c hc => (hcoin c (hmerged.mem c hc)).1⟩
  exact ⟨_, newCoins_of_isValid hvalid, ⟨hvalid, fun c hc => (hcoin c (hmerged.mem c hc)).2⟩,
    fun d => by rw [hmerged.amounts, hf, hg]⟩

theorem maxCoin_combines : Combines true maxCoin Max.max := by
  refine ⟨fun n hn => by simp [hn], fun coinA coinB _ _ => ?_⟩
  by_cases hlt : coinB.amount > coinA.amount
  · exact ⟨coinB, by simp, by simp [maxCoin, hlt], by omega⟩
  · exact ⟨coinA, by simp, by simp [maxCoin, hlt], by omega⟩

theorem minCoin_combines : Combines false minCoin Min.min := by
  refine ⟨fun n hn => by simp [hn], fun coinA coinB hA hB => ?_⟩
  by_cases hlt : coinB.amount < coinA.amount
  · exact ⟨coinB, by simp, by simp [minCoin, hlt, Coin.isZero, hB.ne'], by omega⟩
  · exact ⟨coinA, by simp, by simp [minCoin, hlt, Coin.isZero, hA.ne'], by omega⟩

theorem Computes.max (hx : Computes validateDenom x f) (hy : Computes validateDenom y g) :
    Computes validateDenom (do max validateDenom (← x) (← y)) (fun d => Max.max (f d) (g d)) :=
  maxCoin_combines.computes hx hy

theorem Computes.min (hx : Computes validateDenom x f) (hy : Computes validateDenom y g) :
    Computes validateDenom (do min validateDenom (← x) (← y)) (fun d => Min.min (f d) (g d)) :=
  minCoin_combines.computes hx hy

/-- A sum that no `Int` can hold is not computed. -/
theorem Valid.add_overflows (ha : Valid validateDenom a) (hb : Valid validateDenom b)
    (hd : ¬ amountIn a d + amountIn b d < 2 ^ 256) :
    Coins.add (ε := ε) a b = .error (.panic "integer overflow") := by
  have hcases := safeAdd_cases (ε := ε) (forall_mem_append.mpr ⟨ha.natAbs_lt, hb.natAbs_lt⟩)
  have hover : Overflows (a ++ b) := by
    refine ⟨a ++ b, d, prefix_rfl, ?_⟩
    rw [amountIn_append]
    unfold maxBitLen
    omega
  unfold Coins.add
  cases hsum : safeAdd (ε := ε) a b with
  | ok sum =>
    rw [hsum] at hcases
    exact absurd hover hcases.2.2.1
  | error e =>
    rw [hsum] at hcases
    rcases hcases with hnot | hnot | hoverflow
    · exact absurd ha.ordered.sorted hnot.1
    · exact absurd hb.ordered.sorted hnot.2.1
    · rw [hoverflow.2.2.2]

theorem Valid.add_congr {a' b' : Coins} (ha : Valid validateDenom a) (hb : Valid validateDenom b)
    (ha' : Valid validateDenom a') (hb' : Valid validateDenom b')
    (h : ∀ d, amountIn a d + amountIn b d = amountIn a' d + amountIn b' d) :
    Coins.add (ε := ε) a b = Coins.add a' b' := by
  by_cases hlt : ∀ d, amountIn a d + amountIn b d < 2 ^ 256
  · obtain ⟨_, hsum, -, hrep⟩ := ha.add hb hlt
    simp only [h] at hlt hrep
    obtain ⟨_, hsum', -, hrep'⟩ := ha'.add hb' hlt
    rw [hsum, hsum', hrep.unique hrep']
  · obtain ⟨d, hd⟩ := not_forall.mp hlt
    rw [ha.add_overflows hb hd, ha'.add_overflows hb' (h d ▸ hd)]

/-- `Min` and `Max` are the minimum and maximum of each amount. -/
theorem min_max_lattice (ha : Valid validateDenom a) (hb : Valid validateDenom b)
    (hc : Valid validateDenom c) :
    let lo := min validateDenom
    let hi := max validateDenom
    Computes validateDenom (lo a b) (fun d => Min.min (amountIn a d) (amountIn b d)) ∧
      Computes validateDenom (hi a b) (fun d => Max.max (amountIn a d) (amountIn b d)) ∧
      (do add (← lo a b) (← hi a b)) = add (ε := ε) a b ∧ lo a b = lo b a ∧ hi a b = hi b a ∧
      (do lo (← lo a b) c) = (do lo a (← lo b c)) ∧ (do hi (← hi a b) c) = (do hi a (← hi b c)) ∧
      lo a a = .ok a ∧ hi a a = .ok a ∧ (do lo a (← hi a b)) = .ok a ∧ (do hi a (← lo a b)) = .ok a := by
  intro lo hi
  have hA := ha.computes (ε := ε)
  have hB := hb.computes (ε := ε)
  have hC := hc.computes (ε := ε)
  refine ⟨hA.min hB, hA.max hB, ?_, (hA.min hB).unique (hB.min hA) fun d => min_comm ..,
    (hA.max hB).unique (hB.max hA) fun d => max_comm ..,
    ((hA.min hB).min hC).unique (hA.min (hB.min hC)) fun d => min_assoc ..,
    ((hA.max hB).max hC).unique (hA.max (hB.max hC)) fun d => max_assoc ..,
    (hA.min hA).unique hA fun d => min_self _, (hA.max hA).unique hA fun d => max_self _,
    (hA.min (hA.max hB)).unique hA fun d => by omega,
    (hA.max (hA.min hB)).unique hA fun d => by omega⟩
  obtain ⟨low, hlow, hvlow, hamlow⟩ := hA.min hB
  obtain ⟨high, hhigh, hvhigh, hamhigh⟩ := hA.max hB
  change (lo a b >>= fun low => hi a b >>= fun high => add low high) = _
  rw [show lo a b = .ok low from hlow, show hi a b = .ok high from hhigh]
  exact hvlow.add_congr hvhigh ha hb fun d => by rw [hamlow, hamhigh]; exact min_add_max ..

/-- The minimum `{B}` and the maximum `{2A, 3B, 4C}`. -/
theorem twoThree_lattice : ∃ low high, min (ε := Unit) (fun _ => true) twoThree oneFour = .ok low ∧
    max (ε := Unit) (fun _ => true) twoThree oneFour = .ok high ∧
    add low high = add (ε := Unit) twoThree oneFour ∧
    (amountIn low [65] = 0 ∧ amountIn low [66] = 1 ∧ amountIn low [67] = 0) ∧
    amountIn high [65] = 2 ∧ amountIn high [66] = 3 ∧ amountIn high [67] = 4 := by
  have hlattice := min_max_lattice (ε := Unit) twoThree_valid oneFour_valid twoThree_valid
  obtain ⟨low, hlow, -, hmin⟩ := hlattice.1
  obtain ⟨high, hhigh, -, hmax⟩ := hlattice.2.1
  have hadd := hlattice.2.2.1
  simp only [hlow, hhigh, ok_bind] at hadd
  exact ⟨low, high, hlow, hhigh, hadd, ⟨hmin _, hmin _, hmin _⟩, hmax _, hmax _, hmax _⟩

end CosmosSDK.Types.Coins
