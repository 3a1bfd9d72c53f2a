import CosmosSDK.Epochs.BeginBlocker
import CosmosSDK.Lib.Fallible
import CosmosSDK.Lib.OrderedMap

/-!
# Genesis of the epochs module

`AddEpochInfo` of `x/epochs/keeper` with `InitGenesis` and `ExportGenesis`, over a store
that the begin blocker changes in between.
-/

namespace CosmosSDK.Epochs

open Std OrderedKV Fallible

abbrev EpochInfos := OrdMap String EpochInfo

def EpochInfo.validate (epoch : EpochInfo) : Except String Unit :=
  if epoch.identifier = "" then .error "epoch identifier should NOT be empty"
  else if epoch.duration = 0 then .error "epoch duration should NOT be 0"
  else if epoch.currentEpoch < 0 then .error "epoch CurrentEpoch must be non-negative"
  else if epoch.currentEpochStartHeight < 0 then
    .error "epoch CurrentEpochStartHeight must be non-negative"
  else .ok ()

/-- The values `AddEpochInfo` fills in; the zero time is the first instant of year 1. -/
def EpochInfo.withDefaults (header : HeaderInfo) (epoch : EpochInfo) : EpochInfo :=
  { epoch with
    startTime := if epoch.startTime = 0 then header.time else epoch.startTime
    currentEpochStartHeight :=
      if epoch.currentEpochStartHeight = 0 then header.height else epoch.currentEpochStartHeight }

def addEpochInfo (header : HeaderInfo) (epochs : EpochInfos) (epoch : EpochInfo) :
    Except String EpochInfos := do
  epoch.validate
  if epochs[epoch.identifier]?.isSome then
    .error ("epoch with identifier " ++ epoch.identifier ++ " already exists")
  else if (epoch.withDefaults header).Marshals then
    .ok (epochs.insert epoch.identifier (epoch.withDefaults header))
  else .error "collections: encoding error"

def initGenesis (header : HeaderInfo) (genesis : List EpochInfo) : Except String EpochInfos :=
  genesis.foldlM (addEpochInfo header) ∅

def exportGenesis (epochs : EpochInfos) : List EpochInfo := epochs.values

/-- A call in a block: an epoch is added, or the block begins. -/
structure Call where
  header : HeaderInfo
  height_nonneg : 0 ≤ header.height
  epoch : Option EpochInfo

/-- A call that fails changes nothing. -/
def serve (epochs : EpochInfos) (c : Call) : EpochInfos :=
  match c.epoch with
  | some epoch => (addEpochInfo c.header epochs epoch).toOption.getD epochs
  | none => epochs.map (fun _ info => (Epoch.beginBlock ⟨info, []⟩ c.header).info)

variable {header : HeaderInfo} {epochs : EpochInfos} {info : EpochInfo}

theorem EpochInfo.validate_eq_ok : info.validate = .ok () ↔ info.identifier ≠ "" ∧
    info.duration ≠ 0 ∧ 0 ≤ info.currentEpoch ∧ 0 ≤ info.currentEpochStartHeight := by
  simp [validate, refuse_eq_ok]

theorem addEpochInfo_eq_ok {epochs' : EpochInfos} : addEpochInfo header epochs info = .ok epochs' ↔
    info.validate = .ok () ∧ epochs[info.identifier]? = none ∧ (info.withDefaults header).Marshals ∧
      epochs.insert info.identifier (info.withDefaults header) = epochs' := by
  unfold addEpochInfo
  cases info.validate with
  | error | ok => simp [refuse_eq_ok, require_eq_ok]

/-- What is stored can be stored again. -/
def EpochInfo.Valid (info : EpochInfo) : Prop := info.validate = .ok () ∧ info.Marshals

theorem EpochInfo.Valid.withDefaults (h : info.Valid) (hheader : IsTimestamp header.time) :
    (info.withDefaults header).Marshals := by
  have hstart : IsTimestamp (info.withDefaults header).startTime := by
    simp only [EpochInfo.withDefaults]
    split_ifs
    · exact hheader
    · exact h.2.1
  exact ⟨hstart, h.2.2⟩

theorem EpochInfo.Valid.beginBlock (h : info.Valid) (hheight : 0 ≤ header.height) :
    (Epoch.beginBlock ⟨info, []⟩ header).info.identifier = info.identifier ∧
      (Epoch.beginBlock ⟨info, []⟩ header).info.Valid := by
  rcases validate_eq_ok.mp h.1 with ⟨hid, hduration, hepoch, -⟩
  simp only [Epoch.beginBlock, Epoch.start]
  split_ifs with hearly hnext hfirst hm hm
  all_goals first
    | exact ⟨rfl, h⟩
    | exact ⟨rfl, validate_eq_ok.mpr ⟨hid, hduration, by dsimp only; omega, hheight⟩, hm⟩

/-- Every epoch is stored under its identifier. -/
def Kept (epochs : EpochInfos) : Prop := ∀ (id : String) (info : EpochInfo),
  epochs[id]? = some info → info.identifier = id ∧ info.Valid

theorem Kept.serve (h : Kept epochs) (c : Call) : Kept (serve epochs c) := by
  intro id info hinfo
  unfold Epochs.serve at hinfo
  split at hinfo
  · rename_i epoch _
    cases hadd : addEpochInfo c.header epochs epoch with
    | error =>
      rw [hadd] at hinfo
      exact h id info hinfo
    | ok =>
      rw [hadd] at hinfo
      rcases addEpochInfo_eq_ok.mp hadd with ⟨hvalid, -, hmarshals, rfl⟩
      rcases cases_of_insert hinfo with ⟨rfl, rfl⟩ | ⟨-, hold⟩
      · rcases EpochInfo.validate_eq_ok.mp hvalid with ⟨hid, hduration, hepoch, hheight⟩
        have hfilled : 0 ≤ (epoch.withDefaults c.header).currentEpochStartHeight := by
          simp only [EpochInfo.withDefaults]
          split_ifs
          · exact c.height_nonneg
          · exact hheight
        exact ⟨rfl, EpochInfo.validate_eq_ok.mpr ⟨hid, hduration, hepoch, hfilled⟩, hmarshals⟩
      · exact h id info hold
  · rw [ExtTreeMap.getElem?_map, Option.map_eq_some_iff] at hinfo
    rcases hinfo with ⟨old, hold, rfl⟩
    rcases h id old hold with ⟨rfl, hvalid⟩
    exact hvalid.beginBlock c.height_nonneg

theorem foldlM_addEpochInfo (hheader : IsTimestamp header.time) {l : List EpochInfo}
    (hl : l.Pairwise (fun a b => a.identifier ≠ b.identifier))
    (hkept : ∀ info ∈ l, info.Valid ∧ epochs[info.identifier]? = none) :
    l.foldlM (addEpochInfo header) epochs =
      .ok (insertAll epochs (l.map (fun info => (info.identifier, info.withDefaults header)))) := by
  induction l generalizing epochs with
  | nil => rfl
  | cons info l ih =>
    rcases List.pairwise_cons.mp hl with ⟨hne, hl⟩
    rcases List.forall_mem_cons.mp hkept with ⟨⟨hvalid, habsent⟩, hrest⟩
    have hadd := addEpochInfo_eq_ok.mpr ⟨hvalid.1, habsent, hvalid.withDefaults hheader, rfl⟩
    rw [List.foldlM_cons, hadd, ok_bind]
    apply ih hl
    intro other hother
    rw [lookup_insert, if_neg (hne other hother).symm]
    exact hrest other hother

end CosmosSDK.Epochs
