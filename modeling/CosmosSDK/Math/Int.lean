import CosmosSDK.Lib.Fallible

/-!
# Integers of 256 bits

`math/int.go`: integers in the range from `-(2^256 - 1)` to `2^256 - 1`.  The
operations panic instead of leaving the range.
-/

namespace CosmosSDK.Math

open Except

/-- How a call fails: it returns an error, or it panics. -/
inductive Fault (ε : Type) where
  | error (e : ε)
  | panic (text : String)

abbrev Result (ε α : Type) := Except (Fault ε) α

/-- The error of a call, changed on its way to the caller; a panic passes. -/
def mapFault {ε ε' α : Type} (f : ε → ε') : Result ε α → Result ε' α
  | .ok a => .ok a
  | .error (.error e) => .error (.error (f e))
  | .error (.panic text) => .error (.panic text)

@[simp] theorem mapFault_eq_ok {ε ε' α : Type} {f : ε → ε'} {x : Result ε α} {a : α} :
    mapFault f x = .ok a ↔ x = .ok a := by
  match x with
  | .ok _ => simp [mapFault]
  | .error (.error _) => simp [mapFault]
  | .error (.panic _) => simp [mapFault]

def maxBitLen : Nat := 256

def bigIntOverflows (i : Int) : Bool := 2 ^ maxBitLen ≤ i.natAbs

section

variable {ε : Type}

def inRange (i : Int) : Result ε Int :=
  if bigIntOverflows i then .error (.panic "integer overflow") else .ok i

/-- `Int.Add`. -/
def addInt (i i2 : Int) : Result ε Int := inRange (i + i2)

/-- `Int.Sub`. -/
def subInt (i i2 : Int) : Result ε Int := inRange (i - i2)

/-- `Int.Mul`. -/
def mulInt (i i2 : Int) : Result ε Int := inRange (i * i2)

/-- `Int.Quo`, which truncates towards zero. -/
def quoInt (i i2 : Int) : Result ε Int :=
  if i2 = 0 then .error (.panic "Division by zero") else .ok (i.tdiv i2)

variable {i j i2 : Int} {e : Fault ε}

theorem inRange_ok (h : (inRange i : Result ε Int) = .ok j) : j = i := by
  unfold inRange at h
  split at h
  · simp at h
  · exact (ok.inj h).symm

theorem inRange_iff : (inRange i : Result ε Int) = .ok j ↔ i.natAbs < 2 ^ maxBitLen ∧ j = i := by
  unfold inRange bigIntOverflows
  by_cases h : 2 ^ maxBitLen ≤ i.natAbs
  · simp [h]
  · rw [if_neg (by simpa using h), ok.injEq]
    exact ⟨fun hij => ⟨by omega, hij.symm⟩, fun hij => hij.2.symm⟩

theorem inRange_error (h : (inRange i : Result ε Int) = .error e) : ∃ text, e = .panic text := by
  unfold inRange at h
  split at h
  · exact ⟨_, (error.inj h).symm⟩
  · simp at h

theorem quoInt_error (h : (quoInt i i2 : Result ε Int) = .error e) : ∃ text, e = .panic text := by
  unfold quoInt at h
  split at h
  · exact ⟨_, (error.inj h).symm⟩
  · simp at h

theorem addInt_ok (h : (addInt i i2 : Result ε Int) = .ok j) : j = i + i2 :=
  inRange_ok h

theorem addInt_of_lt (hi : 0 ≤ i) (hi2 : 0 ≤ i2) (h : i + i2 < 2 ^ 256) :
    (addInt i i2 : Result ε Int) = .ok (i + i2) :=
  inRange_iff.mpr ⟨by unfold maxBitLen; omega, rfl⟩

theorem subInt_of_lt (hi : 0 ≤ i) (hi' : i < 2 ^ 256) (hi2 : 0 ≤ i2) (hi2' : i2 < 2 ^ 256) :
    (subInt i i2 : Result ε Int) = .ok (i - i2) :=
  inRange_iff.mpr ⟨by unfold maxBitLen; omega, rfl⟩

theorem subInt_ok (h : (subInt i i2 : Result ε Int) = .ok j) : j = i - i2 :=
  inRange_ok h

theorem quoInt_ok (h : (quoInt i i2 : Result ε Int) = .ok j) : i2 ≠ 0 ∧ j = i.tdiv i2 := by
  unfold quoInt at h
  split at h
  · simp at h
  · exact ⟨‹_›, (ok.inj h).symm⟩

end

end CosmosSDK.Math
