import CosmosSDK.Lib.Machine
import CosmosSDK.Types.Coin

/-!
# Periodic fee allowances

`x/feegrant/periodic_fee.go` and `UseGrantedFees` of the keeper, for the grant of one
granter to one grantee.  Times are nanoseconds since the epoch.  The state keeps the uses that
were accepted: those since the last refill of the period apart from those before.
-/

namespace CosmosSDK.Feegrant

open Math CosmosSDK.Types Fallible List Coins Machine

inductive FeegrantErr where
  | feeLimitExpired (text : String)
  | feeLimitExceeded (text : String)
  | invalidCoins (text : String)
  | invalidDuration (text : String)
  | notFound

structure BasicAllowance where
  /-- nothing is no limit -/
  spendLimit : Option Coins
  expiration : Option Int

structure PeriodicAllowance where
  basic : BasicAllowance
  period : Int
  periodSpendLimit : Coins
  periodCanSpend : Coins
  periodReset : Int

/-! ## Definitions -/

section Definitions

variable (validateDenom : Denom → Bool)

/-- `ValidateBasic` of the basic allowance. -/
def BasicAllowance.validateBasic (a : BasicAllowance) : Result FeegrantErr Unit :=
  if (a.spendLimit.all (isValid validateDenom)) = false then
    .error (.error (.invalidCoins "send amount is invalid"))
  else if a.spendLimit.all isAllPositive = false then
    .error (.error (.invalidCoins "spend limit must be positive"))
  else if a.expiration.any (fun expiration => expiration < 0) = true then
    .error (.error (.invalidDuration "expiration time cannot be negative"))
  else .ok ()

namespace PeriodicAllowance

/-- Whether the period limit has only denominations of the spend limit. -/
def sameCurrency (a : PeriodicAllowance) : Result FeegrantErr Bool :=
  match a.basic.spendLimit with
  | none => .ok true
  | some spendLimit => denomsSubsetOf validateDenom a.periodSpendLimit spendLimit

def validateBasic (a : PeriodicAllowance) : Result FeegrantErr Unit := do
  a.basic.validateBasic validateDenom
  if isValid validateDenom a.periodSpendLimit = false then
    .error (.error (.invalidCoins "spend amount is invalid"))
  else if isAllPositive a.periodSpendLimit = false then
    .error (.error (.invalidCoins "spend limit must be positive"))
  else if isValid validateDenom a.periodCanSpend = false then
    .error (.error (.invalidCoins "can spend amount is invalid"))
  else if isAnyNegative a.periodCanSpend = true then
    .error (.error (.invalidCoins "can spend must not be negative"))
  else do
    let same ← a.sameCurrency validateDenom
    if same = false then
      .error (.error (.invalidCoins
        "period spend limit has different currency than basic spend limit"))
    else if a.period < 0 then .error (.error (.invalidDuration "negative clock step"))
    else .ok ()

def updatePeriodReset (validTime : Int) (a : PeriodicAllowance) : PeriodicAllowance :=
  { a with periodReset := validTime + a.period }

/-- The step of the reset time in `tryResetPeriod`: from the last reset, or from the block time
if that is more than one period later. -/
def stepPeriodReset (blockTime : Int) (a : PeriodicAllowance) : PeriodicAllowance :=
  if (a.updatePeriodReset a.periodReset).periodReset < blockTime then a.updatePeriodReset blockTime
  else a.updatePeriodReset a.periodReset

/-- What can be spent in a new period, given whether the spend limit minus the period limit is
negative somewhere. -/
def refill (isNeg : Bool) (a : PeriodicAllowance) : Coins :=
  if isNeg && !(a.basic.spendLimit.getD []).isEmpty then a.basic.spendLimit.getD []
  else a.periodSpendLimit

def tryResetPeriod (blockTime : Int) (a : PeriodicAllowance) :
    Result FeegrantErr PeriodicAllowance :=
  if blockTime < a.periodReset then .ok a
  else do
    let diff ← safeSub validateDenom (a.basic.spendLimit.getD []) a.periodSpendLimit
    .ok (stepPeriodReset blockTime { a with periodCanSpend := a.refill diff.2 })

/-- The end of `Accept`: the fee is taken from the spend limit, if there is one. -/
def deductSpendLimit (fee : Coins) (a : PeriodicAllowance) :
    Result FeegrantErr (Bool × PeriodicAllowance) :=
  match a.basic.spendLimit with
  | none => .ok (false, a)
  | some spendLimit => do
      let diff ← safeSub validateDenom spendLimit fee
      if diff.2 = true then .error (.error (.feeLimitExceeded "absolute limit"))
      else .ok (isZero diff.1, { a with basic := { a.basic with spendLimit := some diff.1 } })

/-- `Accept` behind the reset: the fee is taken from the period, then from the spend limit. -/
def deduct (fee : Coins) (a : PeriodicAllowance) : Result FeegrantErr (Bool × PeriodicAllowance) := do
  let diff ← safeSub validateDenom a.periodCanSpend fee
  if diff.2 = true then .error (.error (.feeLimitExceeded "period limit"))
  else deductSpendLimit validateDenom fee { a with periodCanSpend := diff.1 }

/-- `Accept`: whether the allowance is used up, and the allowance after the fee. -/
def accept (blockTime : Int) (fee : Coins) (a : PeriodicAllowance) :
    Result FeegrantErr (Bool × PeriodicAllowance) :=
  if a.basic.expiration.any (fun expiration => expiration < blockTime) = true then
    .error (.error (.feeLimitExpired "absolute limit"))
  else do
    let a' ← a.tryResetPeriod validateDenom blockTime
    a'.deduct validateDenom fee

end PeriodicAllowance

/-- An accepted fee, and the end of the period in which it was accepted. -/
structure Use where
  blockTime : Int
  fee : Coins
  periodReset : Int
deriving DecidableEq

/-- The grant, the block time, and the accepted uses before and since the last refill. -/
structure State where
  grant : Option PeriodicAllowance
  now : Int
  earlier : List Use
  current : List Use

def State.uses (s : State) : List Use := s.earlier ++ s.current

/-- A refill: no use was accepted since. -/
def State.refilled (s : State) : State := { s with earlier := s.uses, current := [] }

def State.note (s : State) (fee : Coins) (periodReset : Int) : State :=
  { s with current := s.current ++ [⟨s.now, fee, periodReset⟩] }

/-- A use of allowance `a` is noted, which is then `a'`. -/
def State.record (s : State) (fee : Coins) (a a' : PeriodicAllowance) : State :=
  (if s.now < a.periodReset then s else s.refilled).note fee a'.periodReset

def useGrantedFees (fee : Coins) (s : State) : Result FeegrantErr State :=
  match s.grant with
  | none => .error (.error .notFound)
  | some a => do
      let accepted ← a.accept validateDenom s.now fee
      .ok { s.record fee a accepted.2 with grant := if accepted.1 then none else some accepted.2 }

structure Call where
  elapsed : Nat
  fee : Coins

/-- A request; an error leaves the grant as it was. -/
def step (call : Call) (s : State) : Bool × State :=
  match useGrantedFees validateDenom call.fee { s with now := s.now + call.elapsed } with
  | .ok s' => (true, s')
  | .error _ => (false, { s with now := s.now + call.elapsed })

def granted (a : PeriodicAllowance) (start : Int) : State := ⟨some a, start, [], []⟩

end Definitions

/-! ## The limits -/

def fees (uses : List Use) : Coins := uses.flatMap Use.fee

/-- The uses in the period of length `period` that ends at a reset. -/
def usesInPeriod (period : Int) (periodReset : Int) (uses : List Use) : List Use :=
  uses.filter (fun u => periodReset - period ≤ u.blockTime ∧ u.blockTime < periodReset)

def Absent (coins : Coins) (denom : Denom) : Prop := ∀ coin ∈ coins, coin.denom ≠ denom

/-- The limits of an allowance are kept by the uses of it. -/
structure KeepsLimits (a : PeriodicAllowance) (s : State) : Prop where
  sinceReset : ∀ denom, amountIn (fees s.current) denom ≤ amountIn a.periodSpendLimit denom
  inPeriod : ∀ use ∈ s.uses, ∀ denom,
    amountIn (fees (usesInPeriod a.period use.periodReset s.uses)) denom ≤
      amountIn a.periodSpendLimit denom
  overall : ∀ spendLimit, a.basic.spendLimit = some spendLimit → ∀ denom,
    amountIn (fees s.uses) denom ≤ amountIn spendLimit denom
  notInPeriodLimit : ∀ denom, Absent a.periodSpendLimit denom →
    ∀ use ∈ s.uses, amountIn use.fee denom = 0
  notInSpendLimit : ∀ spendLimit, a.basic.spendLimit = some spendLimit → ∀ denom,
    Absent spendLimit denom → ∀ use ∈ s.uses, amountIn use.fee denom = 0

/-- A set of coins has no more of any of its denominations than another. -/
def Within (coins coinsB : Coins) : Prop :=
  ∀ coin ∈ coins, amountIn coins coin.denom ≤ amountIn coinsB coin.denom

instance (coins coinsB : Coins) : Decidable (Within coins coinsB) :=
  inferInstanceAs (Decidable (∀ coin ∈ coins, _))

/-- Of the spend limit and the period limit one is within the other. -/
def Ordered (a : PeriodicAllowance) : Prop :=
  Within a.periodSpendLimit (a.basic.spendLimit.getD a.periodSpendLimit) ∨
    Within (a.basic.spendLimit.getD a.periodSpendLimit) a.periodSpendLimit

instance (a : PeriodicAllowance) : Decidable (Ordered a) := inferInstanceAs (Decidable (_ ∨ _))

/-- If a call begins a period, the limits are ordered and the call does not come exactly one
period after the reset time. -/
def ResetsWell (a : PeriodicAllowance) (blockTime : Int) : Prop :=
  blockTime < a.periodReset ∨
    (Ordered a ∧ (a.period = 0 ∨ blockTime ≠ a.periodReset + a.period))

instance (a : PeriodicAllowance) (blockTime : Int) : Decidable (ResetsWell a blockTime) :=
  inferInstanceAs (Decidable (_ ∨ (_ ∧ (_ ∨ _))))

/-- Neither the expiration nor the spend limit refuses a fee. -/
def Payable (a : PeriodicAllowance) (blockTime : Int) (fee : Coins) : Prop :=
  (∀ expiration ∈ a.basic.expiration, blockTime ≤ expiration) ∧
    ∀ spendLimit ∈ a.basic.spendLimit, Within fee spendLimit

instance (a : PeriodicAllowance) (blockTime : Int) (fee : Coins) :
    Decidable (Payable a blockTime fee) :=
  inferInstanceAs (Decidable ((∀ expiration ∈ a.basic.expiration, _) ∧ ∀ limit ∈ _, _))

/-- A call whose fee is payable resets the period well, if it does. -/
def CallsWell (call : Call) (s : State) : Prop :=
  ∀ a ∈ s.grant, Payable a (s.now + call.elapsed) call.fee → ResetsWell a (s.now + call.elapsed)

instance (call : Call) (s : State) : Decidable (CallsWell call s) :=
  inferInstanceAs (Decidable (∀ a ∈ s.grant, _))

def Nonneg (coins : Coins) : Prop := ∀ denom, 0 ≤ amountIn coins denom

theorem Within.le {coins coinsB : Coins} (h : Within coins coinsB) (hnonneg : Nonneg coinsB)
    (denom : Denom) : amountIn coins denom ≤ amountIn coinsB denom := by
  by_cases hmem : ∃ coin ∈ coins, coin.denom = denom
  · obtain ⟨coin, hcoin, rfl⟩ := hmem
    exact h coin hcoin
  · have habsent : Absent coins denom := fun coin hcoin heq => hmem ⟨coin, hcoin, heq⟩
    rw [amountIn_eq_zero habsent]
    exact hnonneg denom

@[simp] theorem amountIn_fees_concat (uses : List Use) (blockTime periodReset : Int) (fee : Coins)
    (denom : Denom) : amountIn (fees (uses ++ [⟨blockTime, fee, periodReset⟩])) denom =
      amountIn (fees uses) denom + amountIn fee denom := by
  simp [fees]

/-! ## Accepted fees -/

section Accepting

variable {validateDenom : Denom → Bool} {a a' : PeriodicAllowance} {blockTime : Int} {fee : Coins}
  {remove : Bool}

/-- What accepting a fee does to the coins that are left, of the period and over all. -/
structure Deducts (fee : Coins) (a a' : PeriodicAllowance) : Prop where
  period : a'.period = a.period
  periodSpendLimit : a'.periodSpendLimit = a.periodSpendLimit
  periodReset : a'.periodReset = a.periodReset
  fee_nonneg : Nonneg fee
  canSpend : ∀ denom, amountIn a'.periodCanSpend denom = amountIn a.periodCanSpend denom - amountIn fee denom
  canSpend_nonneg : Nonneg a'.periodCanSpend
  unlimited : a.basic.spendLimit = none → a'.basic.spendLimit = none
  limited : ∀ limit, a.basic.spendLimit = some limit → ∃ left, a'.basic.spendLimit = some left ∧
    ∀ denom, amountIn left denom = amountIn limit denom - amountIn fee denom ∧ 0 ≤ amountIn left denom

theorem nonneg_of_safeSub {ε : Type} {coins coinsB diff : Coins}
    (h : (safeSub validateDenom coins coinsB : Result ε _) = .ok (diff, false)) (denom : Denom) :
    0 ≤ amountIn diff denom := by
  obtain ⟨hdiff, _, hneg⟩ := safeSub_ok h
  by_contra hlt
  rw [hdiff] at hlt
  exact Bool.false_ne_true (hneg.mpr ⟨denom, by omega⟩)

theorem deduct_ok (h : a.deduct validateDenom fee = .ok (remove, a')) : Deducts fee a a' := by
  simp only [PeriodicAllowance.deduct, passes] at h
  obtain ⟨⟨_, isNeg⟩, hperiod, hneg, h⟩ := h
  obtain rfl : isNeg = false := by simpa using hneg
  obtain ⟨hcan, hfee, _⟩ := safeSub_ok hperiod
  unfold PeriodicAllowance.deductSpendLimit at h
  cases hlimit : a.basic.spendLimit with
  | none =>
    simp only [hlimit] at h
    cases h
    exact ⟨rfl, rfl, rfl, hfee, hcan, nonneg_of_safeSub hperiod, fun _ => hlimit, by simp [hlimit]⟩
  | some limit =>
    simp only [hlimit] at h
    simp only [passes] at h
    obtain ⟨⟨left, isNeg⟩, hspend, hneg, h⟩ := h
    obtain rfl : isNeg = false := by simpa using hneg
    cases h
    have hleft := (safeSub_ok hspend).1
    refine ⟨rfl, rfl, rfl, hfee, hcan, nonneg_of_safeSub hperiod, by simp [hlimit], ?_⟩
    intro limit' hlimit'
    obtain rfl : limit = limit' := by simpa [hlimit] using hlimit'
    exact ⟨left, rfl, fun denom => ⟨hleft denom, nonneg_of_safeSub hspend denom⟩⟩

structure Refills (blockTime : Int) (a a' : PeriodicAllowance) : Prop where
  period : a'.period = a.period
  periodSpendLimit : a'.periodSpendLimit = a.periodSpendLimit
  basic : a'.basic = a.basic
  begins : a.periodReset ≤ a'.periodReset - a.period
  ends : 0 < a.period → blockTime ≠ a.periodReset + a.period → blockTime < a'.periodReset
  canSpend : Ordered a → Nonneg a.periodSpendLimit → Nonneg (a.basic.spendLimit.getD []) →
    ∀ denom, amountIn a'.periodCanSpend denom ≤ amountIn a.periodSpendLimit denom

theorem stepPeriodReset_cases (blockTime : Int) (a : PeriodicAllowance) :
    (a.periodReset + a.period < blockTime ∧
        a.stepPeriodReset blockTime = { a with periodReset := blockTime + a.period }) ∨
      (blockTime ≤ a.periodReset + a.period ∧
        a.stepPeriodReset blockTime = { a with periodReset := a.periodReset + a.period }) := by
  unfold PeriodicAllowance.stepPeriodReset PeriodicAllowance.updatePeriodReset
  by_cases hlate : a.periodReset + a.period < blockTime
  · exact .inl ⟨hlate, if_pos hlate⟩
  · exact .inr ⟨Int.not_lt.mp hlate, if_neg hlate⟩

theorem refill_le {ε : Type} {diff : Coins} {isNeg : Bool} (hordered : Ordered a)
    (hperiod : Nonneg a.periodSpendLimit) (hspend : Nonneg (a.basic.spendLimit.getD []))
    (h : (safeSub validateDenom (a.basic.spendLimit.getD []) a.periodSpendLimit : Result ε _) =
      .ok (diff, isNeg)) (denom : Denom) :
    amountIn (a.refill isNeg) denom ≤ amountIn a.periodSpendLimit denom := by
  unfold PeriodicAllowance.refill
  split
  · rename_i hrefill
    cases hlimit : a.basic.spendLimit with
    | none => simp [hlimit] at hrefill
    | some =>
      simp only [Ordered, hlimit, Option.getD_some] at hordered hspend h ⊢
      cases hordered with
      | inr hwithin => exact hwithin.le hperiod denom
      | inl hwithin =>
        -- the difference of the limits would not be negative
        have hneg : isNeg = true := by simp_all
        obtain ⟨denom', _⟩ := (safeSub_ok h).2.2.mp hneg
        have hle := hwithin.le hspend denom'
        omega
  · exact le_refl _

theorem tryResetPeriod_ok (hreset : ¬ blockTime < a.periodReset)
    (h : a.tryResetPeriod validateDenom blockTime = .ok a') : Refills blockTime a a' := by
  unfold PeriodicAllowance.tryResetPeriod at h
  rw [if_neg hreset] at h
  obtain ⟨⟨_, isNeg⟩, hdiff, h⟩ := bind_eq_ok.mp h
  cases h
  have hcan (hordered : Ordered a) (hperiod : Nonneg a.periodSpendLimit)
      (hspend : Nonneg (a.basic.spendLimit.getD [])) := refill_le hordered hperiod hspend hdiff
  obtain ⟨_, heq⟩ | ⟨hearly, heq⟩ :=
    stepPeriodReset_cases blockTime { a with periodCanSpend := a.refill isNeg }
  · rw [heq]
    exact ⟨rfl, rfl, rfl, by show a.periodReset ≤ blockTime + a.period - a.period; omega,
      fun _ _ => by show blockTime < blockTime + a.period; omega, hcan⟩
  · rw [heq]
    refine ⟨rfl, rfl, rfl, by show a.periodReset ≤ a.periodReset + a.period - a.period; omega, ?_, hcan⟩
    intro hperiod hne
    show blockTime < a.periodReset + a.period
    have hle : blockTime ≤ a.periodReset + a.period := hearly
    omega

theorem accept_ok (h : a.accept validateDenom blockTime fee = .ok (remove, a')) :
    ∃ b, Deducts fee b a' ∧
      ((blockTime < a.periodReset ∧ b = a) ∨ (a.periodReset ≤ blockTime ∧ Refills blockTime a b)) := by
  simp only [PeriodicAllowance.accept, passes] at h
  obtain ⟨_, b, hreset, h⟩ := h
  refine ⟨b, deduct_ok h, ?_⟩
  by_cases hbefore : blockTime < a.periodReset
  · rw [PeriodicAllowance.tryResetPeriod, if_pos hbefore] at hreset
    exact .inl ⟨hbefore, (Except.ok.inj hreset).symm⟩
  · exact .inr ⟨by omega, tryResetPeriod_ok hbefore hreset⟩

theorem payable_of_accept (h : a.accept validateDenom blockTime fee = .ok (remove, a')) :
    Payable a blockTime fee := by
  obtain ⟨b, hdeduct, hcase⟩ := accept_ok h
  have hbasic : b.basic = a.basic := by
    rcases hcase with ⟨-, rfl⟩ | ⟨-, hrefill⟩
    · rfl
    · exact hrefill.basic
  simp only [PeriodicAllowance.accept, passes] at h
  refine ⟨fun expiration hexp => ?_, fun limit hlimit coin _ => ?_⟩
  · simpa [Option.mem_def.mp hexp] using h.1
  · obtain ⟨_, _, hleft⟩ := hdeduct.limited limit (hbasic ▸ hlimit)
    have hamount := hleft coin.denom
    omega

end Accepting

/-! ## Every run -/

section Runs

theorem amountIn_fees_le {some all : List Use} (hsome : some.Sublist all)
    (hnonneg : ∀ use ∈ all, Nonneg use.fee) (denom : Denom) :
    amountIn (fees some) denom ≤ amountIn (fees all) denom := by
  induction hsome with
  | slnil => exact le_refl _
  | @cons some all use hsome ih =>
    have huse := hnonneg use mem_cons_self denom
    have ih := ih (forall_mem_cons.mp hnonneg).2
    show _ ≤ amountIn (use.fee ++ fees all) denom
    rw [amountIn_append]
    omega
  | @cons_cons some all use hsome ih =>
    have ih := ih (forall_mem_cons.mp hnonneg).2
    show amountIn (use.fee ++ fees some) denom ≤ amountIn (use.fee ++ fees all) denom
    rw [amountIn_append, amountIn_append]
    omega

/-- How the allowance `a` of a state relates to the allowance `a₀` that was granted. -/
structure Tracks (a₀ a : PeriodicAllowance) (s : State) : Prop where
  period : a.period = a₀.period
  periodSpendLimit : a.periodSpendLimit = a₀.periodSpendLimit
  canSpend : ∀ denom, amountIn (fees s.current) denom + amountIn a.periodCanSpend denom ≤
    amountIn a₀.periodSpendLimit denom
  unlimited : a₀.basic.spendLimit = none → a.basic.spendLimit = none
  limited : ∀ limit, a₀.basic.spendLimit = some limit → ∃ left, a.basic.spendLimit = some left ∧
    ∀ denom, amountIn left denom = amountIn limit denom - amountIn (fees s.uses) denom ∧
      0 ≤ amountIn left denom
  fee_nonneg : ∀ use ∈ s.uses, Nonneg use.fee
  current_reset : ∀ use ∈ s.current, use.periodReset = a.periodReset
  current_before : 0 < a₀.period → ∀ use ∈ s.current, use.blockTime < a.periodReset
  earlier_reset : ∀ use ∈ s.earlier, use.periodReset ≤ s.now
  earlier_before : 0 < a₀.period → ∀ use ∈ s.earlier, use.blockTime < a.periodReset - a₀.period

structure Inv (a₀ : PeriodicAllowance) (s : State) : Prop where
  keeps : KeepsLimits a₀ s
  tracks : ∀ a, s.grant = some a → Tracks a₀ a s

variable {validateDenom : Denom → Bool} {a₀ a a' : PeriodicAllowance} {s s' : State} {fee : Coins}

theorem Tracks.elapse (h : Tracks a₀ a s) {now : Int} (hnow : s.now ≤ now) :
    Tracks a₀ a { s with now := now } :=
  { h with earlier_reset := fun use huse => (h.earlier_reset use huse).trans hnow }

theorem Tracks.spendLimit_nonneg (h : Tracks a₀ a s) : Nonneg (a.basic.spendLimit.getD []) := by
  intro denom
  cases hlimit : a₀.basic.spendLimit with
  | none => simp [h.unlimited hlimit]
  | some limit =>
    obtain ⟨_, hleft, hamount⟩ := h.limited limit hlimit
    rw [hleft]
    exact (hamount denom).2

@[simp] theorem refilled_uses (s : State) : s.refilled.uses = s.uses := by
  simp [State.refilled, State.uses]

@[simp] theorem note_uses (s : State) (fee : Coins) (periodReset : Int) :
    (s.note fee periodReset).uses = s.uses ++ [⟨s.now, fee, periodReset⟩] := by
  simp [State.note, State.uses]

theorem mem_uses {use : Use} : use ∈ s.uses ↔ use ∈ s.earlier ∨ use ∈ s.current := mem_append

variable (h : Tracks a₀ a s)
include h

theorem Tracks.refilled {b : PeriodicAllowance} (hrefill : Refills s.now a b)
    (hreset : a.periodReset ≤ s.now) (hordered : Ordered a) (hnonneg : Nonneg a₀.periodSpendLimit) :
    Tracks a₀ b s.refilled := by
  have hlimit := h.periodSpendLimit
  have hbegins := hrefill.begins
  have hperiod := h.period
  refine
    { period := hrefill.period.trans hperiod
      periodSpendLimit := hrefill.periodSpendLimit.trans hlimit
      canSpend := ?_
      unlimited := fun hnone => by rw [hrefill.basic]; exact h.unlimited hnone
      limited := ?_
      fee_nonneg := by simpa using h.fee_nonneg
      current_reset := by simp [State.refilled]
      current_before := by simp [State.refilled]
      earlier_reset := ?_
      earlier_before := ?_ }
  · intro denom
    have hle := hrefill.canSpend hordered (hlimit ▸ hnonneg) h.spendLimit_nonneg denom
    rw [hlimit] at hle
    simpa [State.refilled, fees] using hle
  · intro limit hlimit
    rw [hrefill.basic, refilled_uses]
    exact h.limited limit hlimit
  · intro use huse
    cases mem_uses.mp huse with
    | inl hearlier => exact h.earlier_reset use hearlier
    | inr hcurrent => exact (h.current_reset use hcurrent).le.trans hreset
  · intro hpos use huse
    cases mem_uses.mp huse with
    | inl hearlier =>
      have hbefore := h.earlier_before hpos use hearlier
      omega
    | inr hcurrent =>
      have hbefore := h.current_before hpos use hcurrent
      omega

theorem Tracks.note (hdeduct : Deducts fee a a') (hbefore : 0 < a₀.period → s.now < a.periodReset) :
    Tracks a₀ a' (s.note fee a'.periodReset) := by
  have hreset := hdeduct.periodReset
  refine
    { period := hdeduct.period.trans h.period
      periodSpendLimit := hdeduct.periodSpendLimit.trans h.periodSpendLimit
      canSpend := ?_
      unlimited := fun hnone => hdeduct.unlimited (h.unlimited hnone)
      limited := ?_
      fee_nonneg := ?_
      current_reset := ?_
      current_before := ?_
      earlier_reset := h.earlier_reset
      earlier_before := by rw [hreset]; exact h.earlier_before }
  · intro denom
    have hcan := h.canSpend denom
    have hleft := hdeduct.canSpend denom
    rw [State.note, amountIn_fees_concat]
    omega
  · intro limit hlimit
    obtain ⟨left, hleft, hamount⟩ := h.limited limit hlimit
    obtain ⟨left', hleft', hamount'⟩ := hdeduct.limited left hleft
    refine ⟨left', hleft', fun denom => ⟨?_, (hamount' denom).2⟩⟩
    rw [(hamount' denom).1, (hamount denom).1, note_uses, amountIn_fees_concat]
    omega
  · intro use huse
    rw [note_uses, mem_append, mem_singleton] at huse
    cases huse with
    | inl hold => exact h.fee_nonneg use hold
    | inr hnew => rw [hnew]; exact hdeduct.fee_nonneg
  · intro use huse
    cases mem_append.mp huse with
    | inl hold => rw [h.current_reset use hold, hreset]
    | inr hnew => rw [mem_singleton.mp hnew]
  · intro hpos use huse
    rw [hreset]
    cases mem_append.mp huse with
    | inl hold => exact h.current_before hpos use hold
    | inr hnew => rw [mem_singleton.mp hnew]; exact hbefore hpos

theorem Tracks.usesInPeriod_sublist (hpos : 0 < a₀.period) :
    (usesInPeriod a₀.period a.periodReset s.uses).Sublist s.current := by
  have hearlier : usesInPeriod a₀.period a.periodReset s.earlier = [] := by
    rw [usesInPeriod, filter_eq_nil_iff]
    intro use huse
    have hbefore := h.earlier_before hpos use huse
    simp only [decide_eq_true_eq]
    omega
  unfold State.uses usesInPeriod at *
  rw [filter_append, hearlier, nil_append]
  exact filter_sublist

omit h

theorem KeepsLimits.refilled (h : KeepsLimits a₀ s) (hnonneg : Nonneg a₀.periodSpendLimit) :
    KeepsLimits a₀ s.refilled where
  sinceReset := hnonneg
  inPeriod := by rw [refilled_uses]; exact h.inPeriod
  overall := by rw [refilled_uses]; exact h.overall
  notInPeriodLimit := by rw [refilled_uses]; exact h.notInPeriodLimit
  notInSpendLimit := by rw [refilled_uses]; exact h.notInSpendLimit

theorem KeepsLimits.note (hkeeps : KeepsLimits a₀ s) (hnonneg : Nonneg a₀.periodSpendLimit)
    (h : Tracks a₀ a' (s.note fee a'.periodReset)) (hcan : Nonneg a'.periodCanSpend) :
    KeepsLimits a₀ (s.note fee a'.periodReset) := by
  have hsince (denom : Denom) : amountIn (fees (s.note fee a'.periodReset).current) denom ≤
      amountIn a₀.periodSpendLimit denom := by
    have hle := h.canSpend denom
    have hleft := hcan denom
    omega
  have hoverall : ∀ spendLimit, a₀.basic.spendLimit = some spendLimit → ∀ denom,
      amountIn (fees (s.note fee a'.periodReset).uses) denom ≤ amountIn spendLimit denom := by
    intro limit hlimit denom
    obtain ⟨_, _, hamount⟩ := h.limited limit hlimit
    have hleft := hamount denom
    omega
  have hfee {use : Use} {uses : List Use} (huse : use ∈ uses) (hsub : uses.Sublist (s.note fee a'.periodReset).uses)
      (denom : Denom) : amountIn use.fee denom ≤ amountIn (fees uses) denom := by
    have hle := amountIn_fees_le (singleton_sublist.mpr huse)
      (fun u hu => h.fee_nonneg u (hsub.subset hu)) denom
    simpa [fees] using hle
  refine ⟨hsince, ?_, hoverall, ?_, ?_⟩
  · intro use huse denom
    cases mem_uses.mp huse with
    | inl hearlier =>
      -- the new use is behind the end of an earlier period
      have hafter := h.earlier_reset use hearlier
      have hsame : usesInPeriod a₀.period use.periodReset (s.note fee a'.periodReset).uses =
          usesInPeriod a₀.period use.periodReset s.uses := by
        have hnow : ¬ s.now < use.periodReset := Int.not_lt.mpr hafter
        simp [usesInPeriod, hnow]
      rw [hsame]
      exact hkeeps.inPeriod use (mem_uses.mpr (.inl hearlier)) denom
    | inr hcurrent =>
      rw [h.current_reset use hcurrent]
      by_cases hpos : 0 < a₀.period
      · exact (amountIn_fees_le (h.usesInPeriod_sublist hpos)
          (fun u hu => h.fee_nonneg u (mem_uses.mpr (.inr hu))) denom).trans (hsince denom)
      · -- a period without duration has no uses
        have hnone : usesInPeriod a₀.period a'.periodReset (s.note fee a'.periodReset).uses = [] := by
          rw [usesInPeriod, filter_eq_nil_iff]
          intro u _
          simp only [decide_eq_true_eq]
          omega
        rw [hnone]
        exact hnonneg denom
  · intro denom habsent use huse
    rw [note_uses, mem_append, mem_singleton] at huse
    cases huse with
    | inl hold => exact hkeeps.notInPeriodLimit denom habsent use hold
    | inr hnew =>
      have hmem : use ∈ (s.note fee a'.periodReset).current := by simp [State.note, hnew]
      have hle := (hfee hmem (sublist_append_right ..) denom).trans (hsince denom)
      have hge := h.fee_nonneg use (mem_uses.mpr (.inr hmem)) denom
      rw [amountIn_eq_zero habsent] at hle
      omega
  · intro limit hlimit denom habsent use huse
    have hle := (hfee huse (List.Sublist.refl _) denom).trans (hoverall limit hlimit denom)
    have hge := h.fee_nonneg use huse denom
    rw [amountIn_eq_zero habsent] at hle
    omega

theorem Inv.useGrantedFees (hnonneg : Nonneg a₀.periodSpendLimit)
    (h : Inv a₀ s) (hwell : ∀ a ∈ s.grant, Payable a s.now fee → ResetsWell a s.now)
    (huse : useGrantedFees validateDenom fee s = .ok s') : Inv a₀ s' := by
  unfold Feegrant.useGrantedFees at huse
  cases hgrant : s.grant with
  | none => simp [hgrant] at huse
  | some a =>
    simp only [hgrant] at huse
    obtain ⟨⟨remove, a'⟩, haccept, huse⟩ := bind_eq_ok.mp huse
    cases huse
    obtain ⟨b, hdeduct, hcase⟩ := accept_ok haccept
    have htracks := h.tracks a hgrant
    have hboth : Tracks a₀ a' (s.record fee a a') ∧ KeepsLimits a₀ (s.record fee a a') := by
      unfold State.record
      cases hcase with
      | inl hsame =>
        obtain ⟨hbefore, rfl⟩ := hsame
        rw [if_pos hbefore]
        have hnoted := htracks.note hdeduct fun _ => hbefore
        exact ⟨hnoted, h.keeps.note hnonneg hnoted hdeduct.canSpend_nonneg⟩
      | inr hrefill =>
        obtain ⟨hreset, hrefill⟩ := hrefill
        rw [if_neg (by omega)]
        obtain ⟨hordered, hdue⟩ : Ordered a ∧ (a.period = 0 ∨ s.now ≠ a.periodReset + a.period) :=
          (hwell a hgrant (payable_of_accept haccept)).resolve_left (by omega)
        have hrefilled := htracks.refilled hrefill hreset hordered hnonneg
        have hnoted := hrefilled.note hdeduct fun hpos => hrefill.ends (by rw [htracks.period]; exact hpos)
          (hdue.resolve_left (by rw [htracks.period]; omega))
        exact ⟨hnoted, (h.keeps.refilled hnonneg).note hnonneg hnoted hdeduct.canSpend_nonneg⟩
    obtain ⟨hnoted, hkeeps⟩ := hboth
    refine ⟨{ hkeeps with }, ?_⟩
    intro b hb
    cases remove with
    | true => simp at hb
    | false =>
      obtain rfl : a' = b := by simpa using hb
      exact { hnoted with }

theorem step_inv (hnonneg : Nonneg a₀.periodSpendLimit) (call : Call) (s : State)
    (hwell : CallsWell call s) (h : Inv a₀ s) : Inv a₀ (step validateDenom call s).2 := by
  have helapsed : Inv a₀ { s with now := s.now + call.elapsed } :=
    ⟨{ h.keeps with }, fun a hgrant => (h.tracks a hgrant).elapse (by omega)⟩
  unfold step
  cases huse : Feegrant.useGrantedFees validateDenom call.fee { s with now := s.now + call.elapsed } with
  | error => exact helapsed
  | ok => exact helapsed.useGrantedFees hnonneg hwell huse

theorem validateBasic_ok (h : a.validateBasic validateDenom = .ok ()) :
    isValid validateDenom a.periodSpendLimit = true ∧
      ∀ limit, a.basic.spendLimit = some limit → isValid validateDenom limit = true := by
  simp only [PeriodicAllowance.validateBasic, passes] at h
  obtain ⟨_, hbasic, hvalid, _, h⟩ := h
  unfold BasicAllowance.validateBasic at hbasic
  obtain ⟨hlimit, _⟩ := refuse_eq_ok.mp hbasic
  refine ⟨by simpa using hvalid, ?_⟩
  intro limit heq
  simpa [heq] using hlimit

theorem granted_inv (h : a.validateBasic validateDenom = .ok ())
    (hcan : Within a.periodCanSpend a.periodSpendLimit) (start : Int) : Inv a (granted a start) := by
  obtain ⟨hvalid, hlimit⟩ := validateBasic_ok h
  have hnonneg : Nonneg a.periodSpendLimit := amountIn_nonneg_of_isValid hvalid
  refine ⟨⟨hnonneg, by simp [granted, State.uses], ?_, by simp [granted, State.uses],
    by simp [granted, State.uses]⟩, ?_⟩
  · intro limit heq
    exact amountIn_nonneg_of_isValid (hlimit limit heq)
  · intro b hb
    obtain rfl : a = b := by simpa [granted] using hb
    refine ⟨rfl, rfl, ?_, id, ?_, by simp [granted, State.uses], by simp [granted],
      by simp [granted], by simp [granted], by simp [granted]⟩
    · intro denom
      simpa [granted, fees] using hcan.le hnonneg denom
    · intro limit heq
      refine ⟨limit, heq, fun denom => ⟨by simp [granted, State.uses, fees], ?_⟩⟩
      exact amountIn_nonneg_of_isValid (hlimit limit heq) denom

/-- The limits of a valid allowance are kept in every state that a run reaches, if at first no
more than the period limit can be spent and every period begins well. -/
theorem run_keepsLimits (calls : List Call) (start : Int) (h : a.validateBasic validateDenom = .ok ())
    (hcan : Within a.periodCanSpend a.periodSpendLimit)
    (hwell : Machine.Along (step validateDenom) CallsWell calls (granted a start)) :
    KeepsLimits a (run (step validateDenom) calls (granted a start)).2 := by
  have hnonneg : Nonneg a.periodSpendLimit :=
    amountIn_nonneg_of_isValid (validateBasic_ok h).1
  exact (hwell.invariant (step_inv hnonneg) (granted_inv h hcan start)).keeps

def tenAtom (canSpend : Int) : PeriodicAllowance :=
  ⟨⟨none, none⟩, 10, [⟨[97], 10⟩], [⟨[97], canSpend⟩], 10⟩

/-- A period limit of ten atom and one eth, of which the spend limit has five and a thousand. -/
def mixedLimits : PeriodicAllowance :=
  ⟨⟨some [⟨[97], 5⟩, ⟨[101], 1000⟩], none⟩, 10, [⟨[97], 10⟩, ⟨[101], 1⟩], [], 10⟩

/-- Ten atom and one eth a period, at most thirty and five. -/
def bothLimits : PeriodicAllowance :=
  ⟨⟨some [⟨[97], 30⟩, ⟨[101], 5⟩], none⟩, 10, [⟨[97], 10⟩, ⟨[101], 1⟩],
    [⟨[97], 10⟩, ⟨[101], 1⟩], 10⟩

def bothCalls : List Call :=
  [⟨5, [⟨[97], 4⟩, ⟨[101], 1⟩]⟩, ⟨3, [⟨[97], 6⟩]⟩, ⟨4, [⟨[97], 10⟩, ⟨[101], 1⟩]⟩, ⟨1, [⟨[101], 1⟩]⟩,
    ⟨10, [⟨[97], 10⟩]⟩]

/-- Three periods; the fourth call asks for more than the second period has left. -/
theorem bothLimits_keepsLimits :
    KeepsLimits bothLimits (run (step (fun _ => true)) bothCalls (granted bothLimits 0)).2 ∧
      amountIn (fees (run (step (fun _ => true)) bothCalls (granted bothLimits 0)).2.uses) [97] = 30 ∧
      amountIn (fees (run (step (fun _ => true)) bothCalls (granted bothLimits 0)).2.uses) [101] = 2 :=
  ⟨run_keepsLimits _ 0 rfl (by decide +kernel) (by decide +kernel), by decide +kernel,
    by decide +kernel⟩

/-- At the reset all of the mixed spend limit can be spent; a period that begins exactly one
period late is refilled twice in one block; and more than the limit may be left at first. -/
theorem limits_exceeded : (mixedLimits.validateBasic (fun _ => true) = .ok () ∧
      ¬ KeepsLimits mixedLimits (run (step (fun _ => true)) [⟨10, [⟨[101], 1000⟩]⟩]
        (granted mixedLimits 0)).2) ∧ ((tenAtom 10).validateBasic (fun _ => true) = .ok () ∧
      ¬ KeepsLimits (tenAtom 10) (run (step (fun _ => true))
        [⟨20, [⟨[97], 10⟩]⟩, ⟨0, [⟨[97], 10⟩]⟩] (granted (tenAtom 10) 0)).2) ∧
    ((tenAtom 20).validateBasic (fun _ => true) = .ok () ∧
      ¬ KeepsLimits (tenAtom 20) (run (step (fun _ => true)) [⟨0, [⟨[97], 20⟩]⟩]
        (granted (tenAtom 20) 0)).2) := by
  refine ⟨⟨rfl, fun h => ?_⟩, ⟨rfl, fun h => ?_⟩, ⟨rfl, fun h => ?_⟩⟩
  · have hle := h.sinceReset [101]
    revert hle
    decide +kernel
  · have hle := h.inPeriod ⟨20, [⟨[97], 10⟩], 30⟩ (by decide +kernel) [97]
    revert hle
    decide +kernel
  · have hle := h.sinceReset [97]
    revert hle
    decide +kernel

end Runs

end CosmosSDK.Feegrant
