import Mathlib.Data.List.Forall2
import Mathlib.Tactic.Ring

/-!
# The begin blocker of the epochs module

`BeginBlocker` of `x/epochs/keeper` walks the stored epochs, and what it does for one of
them does not depend on the others.  Times and durations are nanoseconds, and times are
counted from the first instant of year 1.  The errors of the hooks are ignored, so of a hook
only the call is kept.
-/

namespace CosmosSDK.Epochs

structure HeaderInfo where
  height : Int
  time : Int

structure EpochInfo where
  identifier : String
  startTime : Int
  duration : Int
  currentEpoch : Int
  currentEpochStartTime : Int
  epochCountingStarted : Bool
  currentEpochStartHeight : Int
deriving DecidableEq

inductive HookCall where
  | beforeEpochStart (epochIdentifier : String) (epochNumber : Int)
  | afterEpochEnd (epochIdentifier : String) (epochNumber : Int)
deriving DecidableEq

/-- A timestamp is in the years 1 to 9999. -/
def IsTimestamp (t : Int) : Prop :=
  0 ≤ t ∧ t < 315537897600 * 10 ^ 9

instance (t : Int) : Decidable (IsTimestamp t) := inferInstanceAs (Decidable (_ ∧ _))

/-- Only an epoch whose times are timestamps can be marshalled. -/
def EpochInfo.Marshals (info : EpochInfo) : Prop :=
  IsTimestamp info.startTime ∧ IsTimestamp info.currentEpochStartTime

instance (info : EpochInfo) : Decidable info.Marshals :=
  inferInstanceAs (Decidable (_ ∧ _))

/-- A stored epoch, with the calls of the hooks made for it. -/
structure Epoch where
  info : EpochInfo
  calls : List HookCall

namespace Epoch

/-- `EpochInfo.Set` and `BeforeEpochStart`; if the epoch cannot be stored the error is only
logged. -/
def start (e : Epoch) (info : EpochInfo) : Epoch :=
  if info.Marshals then
    ⟨info, e.calls ++ [.beforeEpochStart info.identifier info.currentEpoch]⟩
  else e

/-- The callback of the walk. -/
def beginBlock (e : Epoch) (header : HeaderInfo) : Epoch :=
  let info := { e.info with currentEpochStartHeight := header.height }
  if header.time < info.startTime then e
  else
    let shouldInitialEpochStart := !info.epochCountingStarted
    let epochEndTime := info.currentEpochStartTime + info.duration
    let shouldEpochStart := epochEndTime < header.time || shouldInitialEpochStart
    if !shouldEpochStart then e
    else if shouldInitialEpochStart then
      e.start { info with
        epochCountingStarted := true
        currentEpoch := 1
        currentEpochStartTime := info.startTime }
    else
      start { e with calls := e.calls ++ [.afterEpochEnd info.identifier info.currentEpoch] }
        { info with
          currentEpoch := info.currentEpoch + 1
          currentEpochStartTime := epochEndTime }

/-- The calls between the start of epoch `first` and the start of the `n`-th one after it. -/
def schedule (epochIdentifier : String) (first : Int) : Nat → List HookCall
  | 0 => []
  | n + 1 => schedule epochIdentifier first n ++
      [.afterEpochEnd epochIdentifier (first + n), .beforeEpochStart epochIdentifier (first + n + 1)]

end Epoch

/-- The epoch from which an epoch counts: the first one, or the one it was stored with. -/
def EpochInfo.firstEpoch (info : EpochInfo) : Int :=
  if info.epochCountingStarted then info.currentEpoch else 1

def EpochInfo.firstStart (info : EpochInfo) : Int :=
  if info.epochCountingStarted then info.currentEpochStartTime else info.startTime

def EpochInfo.firstCalls (info : EpochInfo) : List HookCall :=
  if info.epochCountingStarted then [] else [.beforeEpochStart info.identifier 1]

namespace Epoch

/-- The epoch `n` after the first one is running.  The call at its end is repeated only if the
next epoch would begin before year 1. -/
structure Counts (stored : EpochInfo) (e : Epoch) (n failed : Nat) : Prop where
  epoch : e.info.currentEpoch = stored.firstEpoch + n
  time : e.info.currentEpochStartTime = stored.firstStart + n * stored.duration
  calls : e.calls = stored.firstCalls ++ schedule stored.identifier stored.firstEpoch n ++
    .replicate failed (.afterEpochEnd stored.identifier e.info.currentEpoch)
  failed : 0 ≤ e.info.currentEpochStartTime + stored.duration → failed = 0

/-- The law of an epoch between two blocks, for the epoch that was stored in the beginning. -/
structure Lawful (stored : EpochInfo) (e : Epoch) : Prop where
  fixed : e.info.identifier = stored.identifier ∧ e.info.startTime = stored.startTime ∧
    e.info.duration = stored.duration
  waits : e.info.epochCountingStarted = false → e = ⟨stored, []⟩
  counts : e.info.epochCountingStarted = true → ∃ n failed, e.Counts stored n failed
  step : e.info.epochCountingStarted = true → ∀ header,
    (e.beginBlock header).info.currentEpoch = e.info.currentEpoch ∨
    (e.beginBlock header).info.currentEpoch = e.info.currentEpoch + 1 ∧
      e.info.currentEpochStartTime + e.info.duration < header.time

variable {stored : EpochInfo} {e : Epoch} {header : HeaderInfo}

theorem beginBlock_step (h : e.info.epochCountingStarted = true) :
    (e.beginBlock header).info.currentEpoch = e.info.currentEpoch ∨
    (e.beginBlock header).info.currentEpoch = e.info.currentEpoch + 1 ∧
      e.info.currentEpochStartTime + e.info.duration < header.time := by
  simp only [beginBlock, start, h]
  split_ifs <;> simp_all

theorem Counts.beginBlock {n failed : Nat} (h : e.Counts stored n failed)
    (hmarshals : IsTimestamp e.info.startTime)
    (hfixed : e.info.identifier = stored.identifier ∧ e.info.startTime = stored.startTime ∧
      e.info.duration = stored.duration)
    (hended : e.info.currentEpochStartTime + e.info.duration < header.time)
    (hheader : IsTimestamp header.time) :
    Counts stored (start { e with calls := e.calls ++ [.afterEpochEnd e.info.identifier e.info.currentEpoch] }
      { e.info with
        currentEpochStartHeight := header.height
        currentEpoch := e.info.currentEpoch + 1
        currentEpochStartTime := e.info.currentEpochStartTime + e.info.duration })
      (if 0 ≤ e.info.currentEpochStartTime + e.info.duration then n + 1 else n)
      (if 0 ≤ e.info.currentEpochStartTime + e.info.duration then 0 else failed + 1) := by
  obtain ⟨hidentifier, _, hduration⟩ := hfixed
  have hcalls := h.calls
  by_cases hnext : 0 ≤ e.info.currentEpochStartTime + e.info.duration
  · -- the next epoch began before this block, so that it can be stored
    have hstored : IsTimestamp (e.info.currentEpochStartTime + e.info.duration) :=
      ⟨hnext, hended.trans hheader.2⟩
    have hnone := h.failed (hduration ▸ hnext)
    subst hnone
    simp only [start, EpochInfo.Marshals, hmarshals, hstored, and_self, if_true, if_pos hnext]
    constructor
    · simp [h.epoch, add_assoc]
    · push_cast
      rw [h.time, hduration]
      ring
    · simp [hcalls, hidentifier, schedule, h.epoch, add_assoc]
    · simp
  · have hlost : ¬IsTimestamp (e.info.currentEpochStartTime + e.info.duration) := fun h => hnext h.1
    simp only [start, EpochInfo.Marshals, hlost, and_false, if_false, if_neg hnext]
    refine ⟨h.epoch, h.time, ?_, fun hle => absurd (hduration ▸ hle) hnext⟩
    rw [hcalls, hidentifier, List.replicate_succ', List.append_assoc]

theorem Lawful.new (stored : EpochInfo) : Lawful stored ⟨stored, []⟩ where
  fixed := ⟨rfl, rfl, rfl⟩
  waits _ := rfl
  counts hstarted := by
    simp only at hstarted
    exact ⟨0, 0, by simp [EpochInfo.firstEpoch, hstarted], by simp [EpochInfo.firstStart, hstarted],
      by simp [EpochInfo.firstCalls, hstarted, schedule], fun _ => rfl⟩
  step hstarted _ := beginBlock_step hstarted

theorem beginBlock_fixed (e : Epoch) (header : HeaderInfo) :
    (e.beginBlock header).info.identifier = e.info.identifier ∧
      (e.beginBlock header).info.startTime = e.info.startTime ∧
      (e.beginBlock header).info.duration = e.info.duration := by
  simp only [beginBlock, start]
  split_ifs <;> simp

theorem Lawful.beginBlock (hstart : IsTimestamp stored.startTime) (hheader : IsTimestamp header.time)
    (h : e.Lawful stored) : (e.beginBlock header).Lawful stored := by
  have hfixed := beginBlock_fixed e header
  rw [h.fixed.1, h.fixed.2.1, h.fixed.2.2] at hfixed
  by_cases hearly : header.time < e.info.startTime
  · simpa [Epoch.beginBlock, hearly] using h
  cases hstarted : e.info.epochCountingStarted with
  | false =>
    -- the first epoch begins with this block
    obtain rfl := h.waits hstarted
    have hfirst : (Epoch.beginBlock ⟨stored, []⟩ header).info.epochCountingStarted = true ∧
        (Epoch.beginBlock ⟨stored, []⟩ header).Counts stored 0 0 := by
      simp only at hstarted hearly
      simp only [Epoch.beginBlock, hearly, hstarted, start, EpochInfo.Marshals, hstart, Bool.not_false,
        Bool.or_true, Bool.not_true, Bool.false_eq_true, and_self, if_false, if_true, true_and]
      exact ⟨by simp [EpochInfo.firstEpoch, hstarted], by simp [EpochInfo.firstStart, hstarted],
        by simp [EpochInfo.firstCalls, hstarted, schedule], fun _ => rfl⟩
    exact ⟨hfixed, by simp [hfirst.1], fun _ => ⟨0, 0, hfirst.2⟩, fun hs _ => beginBlock_step hs⟩
  | true =>
    by_cases hended : e.info.currentEpochStartTime + e.info.duration < header.time
    · obtain ⟨n, failed, hcounts⟩ := h.counts hstarted
      have hnext := hcounts.beginBlock (h.fixed.2.1 ▸ hstart) h.fixed hended hheader
      have hblock : e.beginBlock header = start
          { e with calls := e.calls ++ [.afterEpochEnd e.info.identifier e.info.currentEpoch] }
          { e.info with
            currentEpochStartHeight := header.height
            currentEpoch := e.info.currentEpoch + 1
            currentEpochStartTime := e.info.currentEpochStartTime + e.info.duration } := by
        simp [Epoch.beginBlock, hearly, hended, hstarted]
      have hstill : (e.beginBlock header).info.epochCountingStarted = true := by
        rw [hblock, start]
        split_ifs <;> exact hstarted
      exact ⟨hfixed, by simp [hstill], fun _ => ⟨_, _, hblock ▸ hnext⟩, fun hs _ => beginBlock_step hs⟩
    · simpa [Epoch.beginBlock, hearly, hended, hstarted] using h

end Epoch

def beginBlocker (epochs : List Epoch) (header : HeaderInfo) : List Epoch :=
  epochs.map (·.beginBlock header)

end CosmosSDK.Epochs
