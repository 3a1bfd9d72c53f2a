import CosmosSDK.Staking.Registry.Rank
import CosmosSDK.Staking.Runs
import CosmosSDK.Store.PrefixEnd

/-!
# The order of the power index

Keys of the power index are ordered by power and, for equal powers, by the address turned
around.
-/

namespace CosmosSDK.Staking

open Store List Std

/-- Inverting every byte turns the order of addresses around. -/
theorem compare_inverted {a b : Bytes} (h : a.length = b.length) :
    compare (a.map (fun b => ~~~b)) (b.map (fun b => ~~~b)) = compare b a := by
  induction a generalizing b with
  | nil =>
    rw [eq_nil_of_length_eq_zero h.symm]
    rfl
  | cons x a ih =>
    cases b with
    | nil => simp at h
    | cons y b =>
      have hbyte : compare (~~~x) (~~~y) = compare y x := by
        have hx := x.toNat_lt
        have hy := y.toNat_lt
        have hlt : ~~~x < ~~~y ↔ y < x := by
          simp [UInt8.lt_iff_toNat_lt]
          omega
        show compareOfLessAndEq _ _ = compareOfLessAndEq _ _
        simp [compareOfLessAndEq, hlt, eq_comm (a := x)]
      rw [map_cons, map_cons, List.compare_cons_cons, List.compare_cons_cons, hbyte,
        ih (by simpa using h)]

namespace Keeper

/-- The prefix of the power index. -/
def validatorsByPowerIndexKey : Bytes := [0x23]

/-- `ParseValidatorPowerRankKey`; a key that is too short panics. -/
def parseValidatorPowerRankKey (key : Bytes) : StakingResult Bytes :=
  if key.length < 10 then .error (.panic "slice bounds out of range")
  else .ok ((key.drop 10).map (fun b => ~~~b))

variable {X : Type} {k : Keeper X} {v w : Validator} {kv kw : Bytes}

/-- Keys are ordered by power and then by the address turned around, they tell addresses apart and
the address can be read from them. -/
theorem powerIndexKey_order (hv0 : 0 ≤ k.power v) (hw0 : 0 ≤ k.power w)
    (hlength : v.operatorAddress.length = w.operatorAddress.length)
    (hv : k.getValidatorsByPowerIndexKey v = .ok kv)
    (hw : k.getValidatorsByPowerIndexKey w = .ok kw) :
    compare (validatorsByPowerIndexKey ++ kv) (validatorsByPowerIndexKey ++ kw) =
        (compare (k.power v) (k.power w)).then (compare w.operatorAddress v.operatorAddress) ∧
      (v.operatorAddress ≠ w.operatorAddress → kv ≠ kw) ∧
      parseValidatorPowerRankKey (validatorsByPowerIndexKey ++ kv) = .ok v.operatorAddress := by
  obtain ⟨rfl, hpv⟩ := getValidatorsByPowerIndexKey_ok hv
  obtain ⟨rfl, hpw⟩ := getValidatorsByPowerIndexKey_ok hw
  refine ⟨?_, mt powerKey_injective, ?_⟩
  · rw [compare_append_left]
    rcases Int.lt_trichotomy (k.power v) (k.power w) with hlt | heq | hgt
    · rw [compare_powerKey hv0 hlt hpw.lt, compare_eq_lt.mpr hlt]
      rfl
    · rw [powerKey, powerKey, heq, hlength, compare_append_left, compare_inverted hlength,
        ReflOrd.compare_self]
      rfl
    · rw [OrientedOrd.eq_swap, compare_powerKey hw0 hgt hpv.lt, compare_eq_gt.mpr hgt]
      rfl
  · simp [parseValidatorPowerRankKey, validatorsByPowerIndexKey, powerKey, uint64Bytes_eq,
      BigEndian.bytes, Function.comp_def]

/-- A validator at the operator address `[operator]`. -/
def holding (operator : UInt8) (tokens : Int) : Validator :=
  { Validator.new [operator] ⟨"", []⟩ ⟨"", "", "", "", "", none⟩ with tokens := tokens }

/-- Of 300 and 7 tokens the 300 come behind the 7. -/
theorem powerIndexKey_order_plain :
    (plainKeeper.getValidatorsByPowerIndexKey (holding 1 300) =
        .ok [0, 0, 0, 0, 0, 0, 1, 44, 1, 254] ∧
      plainKeeper.getValidatorsByPowerIndexKey (holding 2 7) =
        .ok [0, 0, 0, 0, 0, 0, 0, 7, 1, 253]) ∧
    compare (validatorsByPowerIndexKey ++ [0, 0, 0, 0, 0, 0, 1, 44, 1, 254])
        (validatorsByPowerIndexKey ++ [0, 0, 0, 0, 0, 0, 0, 7, 1, 253]) = .gt ∧
      parseValidatorPowerRankKey (validatorsByPowerIndexKey ++
        [0, 0, 0, 0, 0, 0, 1, 44, 1, 254]) = .ok [1] := by
  obtain ⟨horder, -, hparse⟩ := powerIndexKey_order (k := plainKeeper) (v := holding 1 300)
    (w := holding 2 7) (by decide) (by decide) rfl rfl rfl
  exact ⟨⟨rfl, rfl⟩, horder, hparse⟩

end Keeper

end CosmosSDK.Staking
