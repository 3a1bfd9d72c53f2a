import CosmosSDK.Lib.Decimal
import CosmosSDK.Lib.Fallible
import CosmosSDK.Store.MemIterator

/-!
# Decimals, tallies and decision policies

The decimals of `x/group/internal/math`, whose arithmetic is that of `apd`, and the
tally results and decision policies of `x/group/types.go`.  A number is stored as a text and
parsed wherever it is read; a text stands here for what parsing makes of it.
-/

namespace CosmosSDK.Group

open Decimal Dec

inductive GroupErr where
  | invalidDecString
  | notPositive
  | negative
  | decimal (err : Decimal.Err)
  | empty (what : String)
  | invalid (what : String)
  | notFound (what : String)
  | unauthorized (what : String)
  | duplicate (what : String)
  | uniqueConstraint
  | invalidAddress
  | metadataTooLong (what : String)
  | summaryTooLong
  | titleTooLong
  | expired (what : String)
  /-- an error of another module's handler -/
  | handler (err : String)
deriving DecidableEq, Repr

/-- What `apd.NewFromString` makes of a text: a finite decimal, if any. -/
abbrev DecString := Option Dec

/-- `apd.MaxExponent`. -/
def maxExponent : Int := 100000

def newDecFromString : DecString → Except GroupErr Dec
  | none => .error .invalidDecString
  | some d => .ok d

def newPositiveDecFromString (s : DecString) : Except GroupErr Dec := do
  let d ← newDecFromString s
  if d.coeff > 0 then .ok d else .error .notPositive

def newNonNegativeDecFromString (s : DecString) : Except GroupErr Dec := do
  let d ← newDecFromString s
  if d.coeff < 0 then .error .negative else .ok d

/-- `Dec.String`: digits without an exponent. -/
def text (d : Dec) : DecString := some d.plain

def ofDec (r : Except Decimal.Err Dec) : Except GroupErr Dec :=
  match r with
  | .error err => .error (.decimal err)
  | .ok d => .ok d

/-- The package `apd`: `Add` and `Sub` in its base context, `Quo` in the decimal128 context. -/
abbrev Apd := Arithmetic maxExponent 34

variable [apd : Apd]

def decCmp (x y : Dec) : Ordering := apd.cmp x y

def decAdd (x y : Dec) : Except GroupErr Dec := ofDec (apd.add x y)

def decSub (x y : Dec) : Except GroupErr Dec := ofDec (apd.sub x y)

def decQuo (x y : Dec) : Except GroupErr Dec := ofDec (apd.quo x y)

def subNonNegative (x y : Dec) : Except GroupErr Dec := do
  let z ← decSub x y
  if z.coeff < 0 then .error .negative else .ok z

inductive VoteOption where
  | unspecified
  | yes
  | abstain
  | no
  | noWithVeto
  /-- a number without a name -/
  | unknown
deriving DecidableEq, Repr

structure TallyResult where
  yesCount : DecString
  abstainCount : DecString
  noCount : DecString
  noWithVetoCount : DecString
deriving DecidableEq, Repr

namespace TallyResult

/-- `DefaultTallyResult`. -/
def default : TallyResult :=
  ⟨some (ofInt 0), some (ofInt 0), some (ofInt 0), some (ofInt 0)⟩

/-- `TallyResult.Add`. -/
def add (t : TallyResult) (option : VoteOption) (weight : DecString) :
    Except GroupErr TallyResult := do
  let weightDec ← newPositiveDecFromString weight
  let yesCount ← newNonNegativeDecFromString t.yesCount
  let noCount ← newNonNegativeDecFromString t.noCount
  let abstainCount ← newNonNegativeDecFromString t.abstainCount
  let vetoCount ← newNonNegativeDecFromString t.noWithVetoCount
  match option with
  | .yes => do
      let yesCount ← decAdd yesCount weightDec
      .ok { t with yesCount := text yesCount }
  | .no => do
      let noCount ← decAdd noCount weightDec
      .ok { t with noCount := text noCount }
  | .abstain => do
      let abstainCount ← decAdd abstainCount weightDec
      .ok { t with abstainCount := text abstainCount }
  | .noWithVeto => do
      let vetoCount ← decAdd vetoCount weightDec
      .ok { t with noWithVetoCount := text vetoCount }
  | _ => .error (.invalid "unknown vote option")

def totalCounts (t : TallyResult) : Except GroupErr Dec := do
  let yesCount ← newNonNegativeDecFromString t.yesCount
  let noCount ← newNonNegativeDecFromString t.noCount
  let abstainCount ← newNonNegativeDecFromString t.abstainCount
  let vetoCount ← newNonNegativeDecFromString t.noWithVetoCount
  let totalCounts ← decAdd (ofInt 0) yesCount
  let totalCounts ← decAdd totalCounts noCount
  let totalCounts ← decAdd totalCounts abstainCount
  decAdd totalCounts vetoCount

end TallyResult

/-- `DecisionPolicyWindows`, in nanoseconds. -/
structure Windows where
  votingPeriod : Int
  minExecutionPeriod : Int
deriving DecidableEq, Repr

inductive DecisionPolicy where
  | threshold (threshold : DecString) (windows : Option Windows)
  | percentage (percentage : DecString) (windows : Option Windows)
deriving DecidableEq, Repr

structure DecisionPolicyResult where
  allow : Bool
  final : Bool
deriving DecidableEq, Repr

structure Config where
  maxExecutionPeriod : Int
  maxMetadataLen : Nat
  maxProposalTitleLen : Nat
  maxProposalSummaryLen : Nat

namespace DecisionPolicy

def windows : DecisionPolicy → Option Windows
  | .threshold _ windows => windows
  | .percentage _ windows => windows

/-- `GetVotingPeriod`; a stored policy has windows. -/
def votingPeriod (p : DecisionPolicy) : Int :=
  match p.windows with
  | none => 0
  | some w => w.votingPeriod

def minExecutionPeriod (p : DecisionPolicy) : Int :=
  match p.windows with
  | none => 0
  | some w => w.minExecutionPeriod

def validateWindows (p : DecisionPolicy) : Except GroupErr Unit :=
  if p.windows = none ∨ p.votingPeriod = 0 then .error (.invalid "voting period cannot be zero")
  else .ok ()

def validateBasic (p : DecisionPolicy) : Except GroupErr Unit :=
  match p with
  | .threshold bound _ => do
      let _ ← newPositiveDecFromString bound
      p.validateWindows
  | .percentage share _ => do
      let share ← newPositiveDecFromString share
      if decCmp share (ofInt 1) = .gt then
        .error (.invalid "percentage must be > 0 and <= 1")
      else p.validateWindows

def validatePeriods (p : DecisionPolicy) (config : Config) : Except GroupErr Unit :=
  if p.minExecutionPeriod > p.votingPeriod + config.maxExecutionPeriod then
    .error (.invalid
      "min_execution_period should be smaller than voting_period + max_execution_period")
  else .ok ()

/-- `Validate` against the total weight of a group. -/
def validate (p : DecisionPolicy) (totalWeight : DecString) (config : Config) :
    Except GroupErr Unit :=
  match p with
  | .threshold bound _ => do
      let _ ← newPositiveDecFromString bound
      let _ ← newNonNegativeDecFromString totalWeight
      p.validatePeriods config
  | .percentage _ _ => p.validatePeriods config

/-- `min` of `types.go`. -/
def decMin (a b : Dec) : Dec := if decCmp a b = .lt then a else b

/-- The yes count if all that is undecided becomes a yes. -/
def maxYesCount (t : TallyResult) (yesCount totalPower : Dec) : Except GroupErr Dec := do
  let totalCounts ← t.totalCounts
  let undecided ← subNonNegative totalPower totalCounts
  decAdd yesCount undecided

def allow (p : DecisionPolicy) (t : TallyResult) (totalPower : DecString) :
    Except GroupErr DecisionPolicyResult :=
  match p with
  | .threshold bound _ => do
      let bound ← newPositiveDecFromString bound
      let yesCount ← newNonNegativeDecFromString t.yesCount
      let totalPower ← newNonNegativeDecFromString totalPower
      let realThreshold := decMin bound totalPower
      if decCmp yesCount realThreshold ≠ .lt then .ok ⟨true, true⟩
      else do
        let maxYes ← maxYesCount t yesCount totalPower
        .ok ⟨false, decide (decCmp maxYes realThreshold = .lt)⟩
  | .percentage share _ => do
      let share ← newPositiveDecFromString share
      let yesCount ← newNonNegativeDecFromString t.yesCount
      let totalPower ← newNonNegativeDecFromString totalPower
      if totalPower.coeff = 0 then .ok ⟨false, true⟩
      else do
        let yesPercentage ← decQuo yesCount totalPower
        if decCmp yesPercentage share ≠ .lt then .ok ⟨true, true⟩
        else do
          let sum ← maxYesCount t yesCount totalPower
          let sumPercentage ← decQuo sum totalPower
          .ok ⟨false, decide (decCmp sumPercentage share = .lt)⟩

end DecisionPolicy

end CosmosSDK.Group
