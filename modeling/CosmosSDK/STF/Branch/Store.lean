import CosmosSDK.STF.Branch.MergedIterator

/-!
# branch.Store

A branch of `server/v2/stf/branch/store.go`: a change set, in which a `nil` value
is a deletion, over a parent that is a branch again or the destination's own
store.  Its content is the parent's content overlaid with the change set.
-/

namespace CosmosSDK.STF

open Std OrderedKV Store MemIterator

/-- The errors of the package, by what they report. -/
inductive StoreError where
  /-- `key cannot be empty` -/
  | keyEmpty
  /-- `cannot set a nil value` -/
  | nilValue
  /-- what the destination reports for an actor without a store -/
  | reader (text : String)
  /-- `unable to apply state change for actor`, the actor and the cause -/
  | apply (actor : Bytes) (cause : StoreError)
deriving DecidableEq

/-! ## changeSet -/

abbrev ChangeSet := OrdMap Bytes (Option Bytes)

namespace ChangeSet

/-- `memIterator.keyInRange` of a change set; the third check repeats what the
starting position of a descent already ensures. -/
def keyInRange : KeyInRange Bytes := fun start stop ascending key =>
  if ascending && stop.any (fun e => (compare key e).isGE) then false
  else if !ascending && start.any (fun s => (compare key s).isLT) then false
  else if !ascending && stop.any (fun e => (compare key e).isGE) then false
  else true

abbrev iter : Iterator (MemIterator Bytes (Option Bytes)) Bytes (Option Bytes) :=
  iterator Bytes (Option Bytes) keyInRange

/-- `iterator` and `reverseIterator`. -/
def iterator (cs : ChangeSet) (start stop : Option Bytes) (ascending : Bool) :
    Except StoreError (MemIterator Bytes (Option Bytes)) :=
  if start = some [] ∨ stop = some [] then .error .keyEmpty
  else .ok (new keyInRange start stop cs ascending)

theorem keyInRange_checks : MemIterator.Checks keyInRange where
  ascending _ _ _ _ := by simp [keyInRange, any_isGE]
  descending _ _ _ hstop := by
    simp [keyInRange, any_isGE, any_isLT, hstop]

end ChangeSet

/-! ## Branches -/

inductive Branch where
  | root (content : KVMap)
  | branch (changeSet : ChangeSet) (parent : Branch)

/-- The states of an iterator through `n` branches. -/
def IterState : Nat → Type
  | 0 => List (Bytes × Bytes)
  | n + 1 => MergedIterator (IterState n) (MemIterator Bytes (Option Bytes)) Bytes Bytes

def iterators : (n : Nat) → Iterator (IterState n) Bytes Bytes
  | 0 => listIterator Bytes Bytes
  | n + 1 => MergedIterator.iterator (iterators n) ChangeSet.iter

namespace Branch

def depth : Branch → Nat
  | root _ => 0
  | branch _ parent => parent.depth + 1

def get : Branch → Bytes → Except StoreError (Option Bytes)
  | root m, key => .ok m[key]?
  | branch changeSet parent, key =>
    match changeSet[key]? with
    | some value => .ok value
    | none =>
      match parent.get key with
      | .error e => .error e
      | .ok value => .ok value

def has : Branch → Bytes → Except StoreError Bool
  | root m, key => .ok (m[key]?).isSome
  | branch changeSet parent, key =>
    match changeSet[key]? with
    | some value => .ok value.isSome
    | none => parent.has key

def set (b : Branch) (key : Bytes) (value : Option Bytes) : Except StoreError Branch :=
  match value, b with
  | none, _ => .error .nilValue
  | some v, root m => .ok (root (m.insert key v))
  | some v, branch changeSet parent => .ok (branch (changeSet.insert key (some v)) parent)

def delete (b : Branch) (key : Bytes) : Except StoreError Branch :=
  match b with
  | root m => .ok (root (m.erase key))
  | branch changeSet parent => .ok (branch (changeSet.insert key none) parent)

/-- `Iterator` and `ReverseIterator`. -/
def iterator : (b : Branch) → (start stop : Option Bytes) → (ascending : Bool) →
    Except StoreError (IterState b.depth)
  | root m, start, stop, ascending =>
    if start = some [] ∨ stop = some [] then .error .keyEmpty
    else .ok (rangeList m start stop ascending)
  | branch changeSet parent, start, stop, ascending =>
    match parent.iterator start stop ascending with
    | .error e => .error e
    | .ok p =>
      match changeSet.iterator start stop ascending with
      | .error e => .error e
      | .ok c => .ok (MergedIterator.new (iterators parent.depth) ChangeSet.iter ascending p c)

def content : Branch → KVMap
  | root m => m
  | branch changeSet parent => overlay parent.content changeSet

theorem get_eq (b : Branch) (key : Bytes) : b.get key = .ok b.content[key]? := by
  induction b with
  | root => rfl
  | branch changeSet parent ih =>
    simp only [get, content, getElem?_overlay, ih]
    cases changeSet[key]? <;> rfl

theorem has_eq (b : Branch) (key : Bytes) : b.has key = .ok (b.content[key]?).isSome := by
  induction b with
  | root => rfl
  | branch changeSet parent ih =>
    simp only [has, content, getElem?_overlay, ih]
    cases changeSet[key]? <;> rfl

theorem iterator_error (b : Branch) {start stop : Option Bytes} (ascending : Bool)
    (h : start = some [] ∨ stop = some []) :
    b.iterator start stop ascending = .error .keyEmpty := by
  induction b with
  | root => simp only [iterator, if_pos h]
  | branch changeSet parent ih => simp only [iterator, ih]

/-- An iterator lists the content of the domain, through any number of branches. -/
theorem iterator_spec (b : Branch) {start stop : Option Bytes} (ascending : Bool)
    (h : ¬(start = some [] ∨ stop = some [])) : ∃ i, b.iterator start stop ascending = .ok i ∧
      (iterators b.depth).toList i = rangeList b.content start stop ascending := by
  induction b with
  | root m =>
    exact ⟨rangeList m start stop ascending, by simp only [iterator, if_neg h],
      listIterator_toList _⟩
  | branch changeSet parent ih =>
    obtain ⟨p, hp, hlist⟩ := ih
    refine ⟨MergedIterator.new (iterators parent.depth) ChangeSet.iter ascending p
      (new ChangeSet.keyInRange start stop changeSet ascending), ?_, ?_⟩
    · simp only [iterator, hp, ChangeSet.iterator, if_neg h]
    · calc (iterators (depth (.branch changeSet parent))).toList _
          = mergeEntries (dirCompare ascending) ((iterators parent.depth).toList p)
              (ChangeSet.iter.toList
                (new ChangeSet.keyInRange start stop changeSet ascending)) :=
            MergedIterator.toList_new _ _
        _ = mergeEntries (dirCompare ascending)
              (rangeList parent.content start stop ascending)
              (rangeList changeSet start stop ascending) := by
            rw [hlist, toList_new ChangeSet.keyInRange_checks]
        _ = rangeList (content (.branch changeSet parent)) start stop ascending :=
            mergeEntries_rangeList _ _ _ _ _

/-! ## Writes stay in the change set -/

def parent? : Branch → Option Branch
  | root _ => none
  | branch _ parent => some parent

theorem set_ok (b : Branch) (key value : Bytes) :
    ∃ b', b.set key (some value) = .ok b' ∧ b'.parent? = b.parent? ∧
      b'.content = b.content.insert key value := by
  cases b with
  | root => exact ⟨_, rfl, rfl, rfl⟩
  | branch =>
    exact ⟨_, rfl, rfl, by simp only [content, overlay_insert, writeEntry]⟩

theorem delete_ok (b : Branch) (key : Bytes) :
    ∃ b', b.delete key = .ok b' ∧ b'.parent? = b.parent? ∧ b'.content = b.content.erase key := by
  cases b with
  | root => exact ⟨_, rfl, rfl, rfl⟩
  | branch =>
    exact ⟨_, rfl, rfl, by simp only [content, overlay_insert, writeEntry]⟩

end Branch

/-! ## Change sets as lists -/

/-- `store.KVPair`. -/
structure KVPair where
  key : Bytes
  value : Option Bytes
  remove : Bool

/-- `ChangeSets`: read the change set to the end. -/
def changeSets (cs : ChangeSet) : Except StoreError (List KVPair) :=
  match cs.iterator none none true with
  | .error e => .error e
  | .ok i => .ok ((ChangeSet.iter.toList i).map (fun e => ⟨e.1, e.2, e.2.isNone⟩))

def applyChangeSets (b : Branch) : List KVPair → Except StoreError Branch
  | [] => .ok b
  | c :: changes =>
    match (if c.remove then b.delete c.key else b.set c.key c.value) with
    | .error e => .error e
    | .ok b' => applyChangeSets b' changes

def kvPairs (cs : ChangeSet) : List KVPair :=
  cs.toList.map (fun e => ⟨e.1, e.2, e.2.isNone⟩)

theorem changeSets_eq (cs : ChangeSet) : changeSets cs = .ok (kvPairs cs) := by
  have hall : rangeList cs none none true = cs.toList := by
    simp [rangeList, inRange, fromStart, beforeStop]
  simp only [changeSets, ChangeSet.iterator]
  rw [if_neg (by simp)]
  simp only [toList_new ChangeSet.keyInRange_checks, hall, kvPairs]

theorem applyChangeSets_list (l : List (Bytes × Option Bytes)) (b : Branch) :
    ∃ b', applyChangeSets b (l.map (fun e => ⟨e.1, e.2, e.2.isNone⟩)) = .ok b' ∧
      b'.parent? = b.parent? ∧
      b'.content = l.foldl (fun m e => writeEntry m e.1 e.2) b.content := by
  induction l generalizing b with
  | nil => exact ⟨b, rfl, rfl, rfl⟩
  | cons e l ih =>
    obtain ⟨key, value⟩ := e
    cases value with
    | none =>
      obtain ⟨b1, hb1, hp1, hc1⟩ := Branch.delete_ok b key
      obtain ⟨b', hb', hp', hc'⟩ := ih b1
      refine ⟨b', ?_, hp'.trans hp1, by rw [hc', hc1]; rfl⟩
      simp [applyChangeSets, hb1, hb']
    | some v =>
      obtain ⟨b1, hb1, hp1, hc1⟩ := Branch.set_ok b key v
      obtain ⟨b', hb', hp', hc'⟩ := ih b1
      refine ⟨b', ?_, hp'.trans hp1, by rw [hc', hc1]; rfl⟩
      simp [applyChangeSets, hb1, hb']

theorem applyChangeSets_kvPairs (b : Branch) (cs : ChangeSet) :
    ∃ b', applyChangeSets b (kvPairs cs) = .ok b' ∧ b'.parent? = b.parent? ∧
      b'.content = overlay b.content cs := by
  obtain ⟨b', hb', hp, hc⟩ := applyChangeSets_list cs.toList b
  refine ⟨b', hb', hp, ?_⟩
  rw [hc, overlay, ExtTreeMap.foldl_eq_foldl_toList]

end CosmosSDK.STF
