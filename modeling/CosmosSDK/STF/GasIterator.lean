import CosmosSDK.STF.Context

/-!
# Iterators that are charged for

The iterator of `server/v2/stf/gas/store.go` around that of a branch.  `Next` charges
for the entry it leaves; a refused charge closes the iterator below and is dropped, and
`Error` asks that iterator, which knows nothing of it.
-/

namespace CosmosSDK.STF

open Std OrderedKV Store UInt64 Branch Meter List
open ChangeSet (iter)

/-! ## Charges on a meter -/

namespace Meter

/-- Charges made one after the other until one is refused. -/
def consumeAll (m : Meter) : List UInt64 → Option TxError × Meter
  | [] => (none, m)
  | amount :: rest =>
    match m.consume amount with
    | (some e, m') => (some e, m')
    | (none, m') => m'.consumeAll rest

/-- What remains covers the charges. -/
def Affords (m : Meter) (charges : List UInt64) : Prop :=
  m = .noOp ∨ (charges.map toNat).sum ≤ m.remaining.toNat

instance (m : Meter) (charges : List UInt64) : Decidable (m.Affords charges) :=
  inferInstanceAs (Decidable (_ ∨ _))

theorem affords_nil (m : Meter) : m.Affords [] := .inr (Nat.zero_le _)

variable {m : Meter} {amount : UInt64} {charges : List UInt64}

theorem consume_eq_noOp : (m.consume amount).2 = .noOp ↔ m = .noOp := by
  cases m with
  | noOp => simp [consume]
  | limited =>
    simp only [consume]
    split <;> simp

theorem consume_eq_none :
    (m.consume amount).1 = none ↔ m = .noOp ∨ amount.toNat ≤ m.remaining.toNat := by
  cases m with
  | noOp => simp [consume]
  | limited l c =>
    have hle : amount.toNat ≤ (l - c).toNat ↔ ¬ amount > l - c := by
      rw [← UInt64.le_iff_toNat_le, UInt64.not_lt]
    simp only [consume, remaining, hle]
    split <;> simp_all

theorem consume_remaining (m : Meter) (amount : UInt64) : (m.consume amount).2.remaining =
      if (m != .noOp) = true ∧ amount ≤ m.remaining then m.remaining - amount else m.remaining := by
  cases m <;> grind [consume, remaining]

theorem affords_cons : m.Affords (amount :: charges) ↔
      (m.consume amount).1 = none ∧ (m.consume amount).2.Affords charges := by
  unfold Affords
  rw [consume_eq_none, consume_eq_noOp]
  by_cases hm : m = .noOp
  · simp [hm]
  · have hremaining := consume_remaining m amount
    simp only [hm, false_or, map_cons, sum_cons]
    by_cases hle : amount ≤ m.remaining
    · rw [if_pos ⟨by simpa using hm, hle⟩] at hremaining
      have hsub := UInt64.toNat_sub_of_le _ _ hle
      rw [hremaining, hsub]
      omega
    · have hlt : m.remaining.toNat < amount.toNat := by
        rw [le_iff_toNat_le] at hle
        omega
      omega

/-- All charges are accepted, and then more of them, when what remains covers them together. -/
theorem affords_append {more : List UInt64} : m.Affords (charges ++ more) ↔
      (m.consumeAll charges).1 = none ∧ (m.consumeAll charges).2.Affords more := by
  induction charges generalizing m <;> grind [consumeAll, affords_cons]

end Meter

/-! ## The iterator -/

/-- The entries of `gas.GasConfig` that an iterator charges. -/
structure SeekConfig where
  readCostPerByte : UInt64
  iterNextCostFlat : UInt64

/-- The charges of `consumeGasSeek` at an entry. -/
def SeekConfig.seekCharges (gasConfig : SeekConfig) (entry : Option (Bytes × Bytes)) : List UInt64 :=
  match entry with
  | some (key, value) =>
    [gasConfig.readCostPerByte * ofNat key.length,
      gasConfig.readCostPerByte * ofNat value.length, gasConfig.iterNextCostFlat]
  | none => [gasConfig.iterNextCostFlat]

/-- `Close` of a merged iterator; the two below it are not read again. -/
def MergedIterator.close {ι κ K V : Type} (it : MergedIterator ι κ K V) : MergedIterator ι κ K V :=
  { it with current := none }

/-- `iterator`. -/
structure GasIterator (ι κ : Type) where
  gasMeter : Meter
  parent : MergedIterator ι κ Bytes Bytes

namespace GasIterator

variable {ι κ : Type} (gasConfig : SeekConfig) (P : Iterator ι Bytes Bytes)
  (C : Iterator κ Bytes (Option Bytes))

/-- `Next`: out of gas, the iterator below is closed prematurely. -/
def next (itr : GasIterator ι κ) : GasIterator ι κ :=
  match itr.gasMeter.consumeAll (gasConfig.seekCharges itr.parent.current) with
  | (some _, gasMeter) => { gasMeter := gasMeter, parent := itr.parent.close }
  | (none, gasMeter) => { gasMeter := gasMeter, parent := itr.parent.next P C }

/-- `Error` is not nil. -/
def error (itr : GasIterator ι κ) : Bool := itr.parent.err

def iterator : Iterator (GasIterator ι κ) Bytes Bytes where
  entry itr := itr.parent.current
  next := next gasConfig P C
  size itr := (MergedIterator.iterator P C).size itr.parent
  next_size := by
    intro itr e he
    unfold next
    split
    · simp only [MergedIterator.iterator, MergedIterator.close, he, Option.isSome_some,
        Option.isSome_none, if_true, Bool.false_eq_true, if_false]
      omega
    · exact (MergedIterator.iterator P C).next_size itr.parent e he

/-- The loop that calls `Next` until `Valid` is false: the entries it visits and the
iterator it leaves. -/
def readAll (itr : GasIterator ι κ) : List (Bytes × Bytes) × GasIterator ι κ :=
  ((iterator gasConfig P C).toList itr, (iterator gasConfig P C).skipWhile (fun _ => true) itr)

variable {gasConfig P C}

theorem error_next {itr : GasIterator ι κ} {e : Bytes × Bytes} (he : itr.parent.current = some e) :
    (next gasConfig P C itr).error = itr.error := by
  unfold next
  split
  · rfl
  · simp [error, MergedIterator.next, he]

theorem error_readAll (itr : GasIterator ι κ) :
    (readAll gasConfig P C itr).2.error = itr.error := by
  unfold readAll
  fun_induction Iterator.skipWhile (iterator gasConfig P C) (fun _ => true) itr with
  | case1 itr h => rfl
  | case2 itr e h _ ih => exact ih.trans (error_next h)
  | case3 itr e h hfalse => exact absurd rfl hfalse

/-- The charges for leaving every entry of a listing but the last. -/
def leavingCharges (gasConfig : SeekConfig) (l : List (Bytes × Bytes)) : List UInt64 :=
  l.dropLast.flatMap (fun e => gasConfig.seekCharges (some e))

variable (gasConfig P C) in
/-- Every entry is visited exactly when the gas covers leaving all but the last. -/
theorem readAll_complete_iff {l : List (Bytes × Bytes)} (itr : GasIterator ι κ)
    (hl : (MergedIterator.iterator P C).toList itr.parent = l) :
    (readAll gasConfig P C itr).1 = l ↔ itr.gasMeter.Affords (leavingCharges gasConfig l) := by
  simp only [readAll]
  induction l generalizing itr with
  | nil =>
    have hnone : itr.parent.current = none := by
      have hentry := (MergedIterator.iterator P C).entry_eq_head? itr.parent
      rwa [hl] at hentry
    simp [(iterator gasConfig P C).toList_of_none hnone, leavingCharges, affords_nil]
  | cons e l ih =>
    have hsome : itr.parent.current = some e := by
      have hentry := (MergedIterator.iterator P C).entry_eq_head? itr.parent
      rwa [hl] at hentry
    have hrest : (MergedIterator.iterator P C).toList (itr.parent.next P C) = l := by
      have hcons := (MergedIterator.iterator P C).toList_of_some hsome
      rw [hl] at hcons
      exact (cons.inj hcons).2.symm
    have hnext : (iterator gasConfig P C).toList itr =
        e :: (iterator gasConfig P C).toList (next gasConfig P C itr) :=
      (iterator gasConfig P C).toList_of_some hsome
    rw [hnext, cons.injEq, eq_self_iff_true, true_and]
    cases hc : itr.gasMeter.consumeAll (gasConfig.seekCharges (some e)) with
    | mk refused gasMeter =>
      cases refused with
      | none =>
        have hstep : next gasConfig P C itr =
            { gasMeter := gasMeter, parent := itr.parent.next P C } := by
          rw [next, hsome, hc]
        rw [hstep, ih _ hrest]
        cases l with
        | nil => simp [leavingCharges, affords_nil]
        | cons => simp [leavingCharges, affords_append, hc]
      | some =>
        -- the entry is the last one a consumer sees
        have hstep : next gasConfig P C itr =
            { gasMeter := gasMeter, parent := itr.parent.close } := by
          rw [next, hsome, hc]
        rw [hstep, (iterator gasConfig P C).toList_of_none rfl]
        cases l with
        | nil => simp [leavingCharges, affords_nil]
        | cons => simp [leavingCharges, affords_append, hc]

end GasIterator

/-! ## Metered stores -/

/-- `Iterator` and `ReverseIterator` of a metered store over a branch. -/
def gasStoreIterator (gasMeter : Meter) (changeSet : ChangeSet) (parent : Branch)
    (start stop : Option Bytes) (ascending : Bool) :
    Except StoreError (GasIterator (IterState parent.depth) (MemIterator Bytes (Option Bytes))) :=
  match (branch changeSet parent).iterator start stop ascending with
  | .error e => .error e
  | .ok itr => .ok { gasMeter := gasMeter, parent := itr }

variable {start stop : Option Bytes}

theorem gasStoreIterator_error {gasMeter : Meter} {changeSet : ChangeSet} {parent : Branch}
    {ascending : Bool}
    {itr : GasIterator (IterState parent.depth) (MemIterator Bytes (Option Bytes))}
    (h : gasStoreIterator gasMeter changeSet parent start stop ascending = .ok itr) :
    itr.error = false := by
  simp only [gasStoreIterator, iterator] at h
  cases hp : parent.iterator start stop ascending with
  | error => simp [hp] at h
  | ok =>
    cases hc : changeSet.iterator start stop ascending with
    | error => simp [hp, hc] at h
    | ok =>
      simp only [hp, hc, Except.ok.injEq] at h
      subst h
      rfl

/-- What a consumer of a range sees: all of it exactly when the gas covers leaving all its
entries but the last, and never an error. -/
theorem readAll_gasStoreIterator (gasConfig : SeekConfig) (gasMeter : Meter) (changeSet : ChangeSet)
    (parent : Branch) (ascending : Bool) (h : ¬(start = some [] ∨ stop = some [])) :
    ∃ itr, gasStoreIterator gasMeter changeSet parent start stop ascending = .ok itr ∧
      ((itr.readAll gasConfig (iterators parent.depth) iter).1 =
          rangeList (branch changeSet parent).content start stop ascending ↔
        gasMeter.Affords (GasIterator.leavingCharges gasConfig
          (rangeList (branch changeSet parent).content start stop ascending))) ∧
      (itr.readAll gasConfig (iterators parent.depth) iter).2.error = false := by
  obtain ⟨it, hit, hlist⟩ := (branch changeSet parent).iterator_spec ascending h
  have hopen : gasStoreIterator gasMeter changeSet parent start stop ascending =
      .ok { gasMeter := gasMeter, parent := it } := by
    rw [gasStoreIterator, hit]
  refine ⟨_, hopen, ?_, ?_⟩
  · exact GasIterator.readAll_complete_iff gasConfig (iterators parent.depth) iter
      { gasMeter := gasMeter, parent := it } hlist
  · rw [GasIterator.error_readAll]
    exact gasStoreIterator_error hopen

/-- A loop over a range visits all of it or leaves an iterator that reports an error; `Next`
returns nothing, so this is all that a consumer learns. -/
def NeverTruncatesSilently (gasConfig : SeekConfig) (gasMeter : Meter) (changeSet : ChangeSet)
    (parent : Branch) (start stop : Option Bytes) (ascending : Bool) : Prop :=
  ∀ itr, gasStoreIterator gasMeter changeSet parent start stop ascending = .ok itr →
    (itr.readAll gasConfig (iterators parent.depth) iter).1 =
        rangeList (branch changeSet parent).content start stop ascending ∨
      (itr.readAll gasConfig (iterators parent.depth) iter).2.error = true

/-- A range is truncated silently unless the gas covers leaving all its entries but the
last.  An empty bound is refused before an iterator is opened. -/
theorem neverTruncatesSilently_iff (gasConfig : SeekConfig) (gasMeter : Meter)
    (changeSet : ChangeSet) (parent : Branch) (start stop : Option Bytes) (ascending : Bool) :
    NeverTruncatesSilently gasConfig gasMeter changeSet parent start stop ascending ↔
      (start = some [] ∨ stop = some []) ∨ gasMeter.Affords (GasIterator.leavingCharges gasConfig
          (rangeList (branch changeSet parent).content start stop ascending)) := by
  by_cases hbad : start = some [] ∨ stop = some []
  · have herror := (branch changeSet parent).iterator_error ascending hbad
    refine iff_of_true ?_ (.inl hbad)
    intro itr hitr
    rw [gasStoreIterator, herror] at hitr
    cases hitr
  · obtain ⟨itr, hopen, hcomplete, hnoError⟩ :=
      readAll_gasStoreIterator gasConfig gasMeter changeSet parent ascending hbad
    rw [or_iff_right hbad, ← hcomplete]
    constructor
    · intro h
      rcases h itr hopen with hall | herror
      · exact hall
      · rw [hnoError] at herror
        cases herror
    · intro hall itr' hitr'
      rw [hopen, Except.ok.injEq] at hitr'
      subst hitr'
      exact .inl hall

/-- The costs of `DefaultConfig`. -/
def defaultSeekConfig : SeekConfig where
  readCostPerByte := 3
  iterNextCostFlat := 30

/-- Two keys and gas for none of the steps between them: a loop ends after the first key,
and the iterator reports no error. -/
theorem twoKeys_truncated :
    let content : KVMap := (∅ : KVMap).insertMany [([1], [10]), ([2], [20])]
    rangeList (branch ∅ (.root content)).content none none true = [([1], [10]), ([2], [20])] ∧
    ∃ itr, gasStoreIterator (.limited 5 0) ∅ (.root content) none none true = .ok itr ∧
      (itr.readAll defaultSeekConfig (iterators 0) iter).1 ≠
        [([1], [10]), ([2], [20])] ∧
      (itr.readAll defaultSeekConfig (iterators 0) iter).2.error = false := by
  intro content
  have hrange : rangeList (branch ∅ (.root content)).content none none true =
      [([1], [10]), ([2], [20])] := by
    decide +kernel
  refine ⟨hrange, ?_⟩
  have hbounds : ¬((none : Option Bytes) = some [] ∨ (none : Option Bytes) = some []) := by simp
  obtain ⟨itr, hopen, hcomplete, hnoError⟩ := readAll_gasStoreIterator defaultSeekConfig
    (.limited 5 0) ∅ (.root content) true hbounds
  rw [hrange] at hcomplete
  exact ⟨itr, hopen, fun hall => absurd (hcomplete.mp hall) (by decide), hnoError⟩

end CosmosSDK.STF
