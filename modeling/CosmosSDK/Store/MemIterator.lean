import CosmosSDK.Lib.Iteration

/-!
# The sorted tree and its range iterator

`tidwall/btree` is taken as a correct sorted map: a tree is its content, `Copy`
is the identity on contents, and `IterG` is a cursor in the sorted items with
the documented `Seek`, `First`, `Last`, `Next` and `Prev`.  The stores of
`store/cachekv/internal` and of `server/v2/stf/branch` build the same
`memIterator` on it, up to the check `keyInRange`, which is a parameter here.
-/

namespace CosmosSDK.Store

open Std OrderedKV List Iterator ExtTreeMap

/-- A byte slice; `bytes.Compare` is its lexicographic `compare`. -/
abbrev Bytes := List UInt8

/-! Keys of collections are tuples of byte slices and integers. -/

instance bytesLawfulBEq : LawfulBEq Bytes := inferInstance

instance bytesPairTransOrd : TransOrd (Bytes × Bytes) := inferInstance

instance bytesTripleTransOrd : TransOrd (Bytes × Bytes × Bytes) := inferInstance

instance bytesIntTransOrd : TransOrd (Bytes × Int) := inferInstance

instance natBytesTransOrd : TransOrd (Nat × Bytes) := inferInstance

/-- The content of an ordered key-value store. -/
abbrev KVMap := OrdMap Bytes Bytes

/-! ## The cursor of a tree -/

/-- A cursor: the items before the position, nearest first, and the item at the
position followed by the later ones. -/
structure IterG (K V : Type) where
  before : List (K × V)
  after : List (K × V)

namespace IterG

variable {K V : Type}

def items (it : IterG K V) : List (K × V) := it.before.reverse ++ it.after

def item (it : IterG K V) : Option (K × V) := it.after.head?

def ofTree [Ord K] [TransOrd K] (tree : OrdMap K V) : IterG K V := ⟨[], tree.toList⟩

/-- Move to the first item not below `k`. -/
def seek [Ord K] (it : IterG K V) (k : K) : IterG K V × Bool :=
  let below := it.items.takeWhile (fun e => (compare e.1 k).isLT)
  let rest := it.items.dropWhile (fun e => (compare e.1 k).isLT)
  (⟨below.reverse, rest⟩, !rest.isEmpty)

def first (it : IterG K V) : IterG K V × Bool := (⟨[], it.items⟩, !it.items.isEmpty)

def last (it : IterG K V) : IterG K V × Bool :=
  match it.items.reverse with
  | [] => (⟨[], []⟩, false)
  | e :: es => (⟨es, [e]⟩, true)

def next (it : IterG K V) : IterG K V × Bool :=
  match it.after with
  | [] => (it, false)
  | e :: es => (⟨e :: it.before, es⟩, !es.isEmpty)

def prev (it : IterG K V) : IterG K V × Bool :=
  match it.before with
  | [] => (it, false)
  | e :: es => (⟨es, e :: it.after⟩, true)

end IterG

/-! ## memIterator -/

/-- `memIterator`: a cursor with its domain, its direction and its validity. -/
structure MemIterator (K V : Type) where
  iter : IterG K V
  start : Option K
  stop : Option K
  ascending : Bool
  valid : Bool

/-- The domain check of a `memIterator`: start, end, direction and key. -/
abbrev KeyInRange (K : Type) := Option K → Option K → Bool → K → Bool

namespace MemIterator

variable {K V : Type}

/-- A cursor position becomes valid only if its key passes `keyInRange`. -/
def settle (keyInRange : KeyInRange K) (start stop : Option K) (ascending : Bool)
    (pos : IterG K V × Bool) : MemIterator K V :=
  { iter := pos.1, start := start, stop := stop, ascending := ascending
    valid := pos.2 && (match pos.1.item with
      | some e => keyInRange start stop ascending e.1
      | none => false) }

/-- `newMemIterator`: seek the near end of the domain. -/
def new [Ord K] [TransOrd K] (keyInRange : KeyInRange K) (start stop : Option K)
    (tree : OrdMap K V) (ascending : Bool) : MemIterator K V :=
  let iter := IterG.ofTree tree
  let pos :=
    if ascending then
      match start with
      | some s => iter.seek s
      | none => iter.first
    else
      match stop with
      | some e =>
        let (found, ok) := iter.seek e
        -- the end is exclusive
        if ok then found.prev else found.last
      | none => iter.last
  settle keyInRange start stop ascending pos

/-- `Next`; on an invalid iterator the source panics and the state stays. -/
def next (keyInRange : KeyInRange K) (mi : MemIterator K V) : MemIterator K V :=
  if mi.valid then
    settle keyInRange mi.start mi.stop mi.ascending
      (if mi.ascending then mi.iter.next else mi.iter.prev)
  else mi

/-- What `Valid`, `Key` and `Value` report. -/
def entry (mi : MemIterator K V) : Option (K × V) :=
  if mi.valid then mi.iter.item else none

def size (mi : MemIterator K V) : Nat :=
  if mi.valid then (if mi.ascending then mi.iter.after.length else mi.iter.before.length + 1) else 0

theorem settle_size_le (keyInRange : KeyInRange K) (start stop : Option K) (ascending : Bool)
    (pos : IterG K V × Bool) : (settle keyInRange start stop ascending pos).size ≤
      if pos.2 then (if ascending then pos.1.after.length else pos.1.before.length + 1) else 0 := by
  grind [settle, size]

theorem next_size (keyInRange : KeyInRange K) (mi : MemIterator K V) (e : K × V)
    (h : mi.entry = some e) : (next keyInRange mi).size < mi.size := by
  grind [entry, next, IterG.item, size, IterG.next, IterG.prev, settle_size_le]

/-- The step iterator a `memIterator` implements. -/
def iterator (K V : Type) (keyInRange : KeyInRange K) : Iterator (MemIterator K V) K V where
  entry := entry
  next := next keyInRange
  size := size
  next_size := next_size keyInRange

section Listing

variable (keyInRange : KeyInRange K) (start stop : Option K)

@[simp] theorem settle_entry (ascending : Bool) (pos : IterG K V × Bool) :
    (settle keyInRange start stop ascending pos).entry =
      if pos.2 then pos.1.item.filter (fun e => keyInRange start stop ascending e.1) else none := by
  rcases pos with ⟨it, ok⟩
  cases ok with
  | false => simp [settle, entry]
  | true =>
    cases hi : it.item with
    | none => simp [settle, entry, hi]
    | some => simp [settle, entry, hi, Option.filter]

theorem settle_valid_of_entry {ascending : Bool} {pos : IterG K V × Bool} {e : K × V}
    (h : (settle keyInRange start stop ascending pos).entry = some e) :
    (settle keyInRange start stop ascending pos).valid = true := by
  by_contra hv
  simp [entry, hv] at h

theorem toList_settle_ascending (before after : List (K × V)) : (iterator K V keyInRange).toList
        (settle keyInRange start stop true (⟨before, after⟩, !after.isEmpty)) =
      after.takeWhile (fun e => keyInRange start stop true e.1) := by
  induction after generalizing before with
  | nil => exact toList_of_none _ (by simp [iterator, settle, entry])
  | cons e es ih =>
    by_cases hk : keyInRange start stop true e.1 = true
    · have he : (iterator K V keyInRange).entry
          (settle keyInRange start stop true (⟨before, e :: es⟩, true)) = some e := by
        simp [iterator, IterG.item, hk, Option.filter]
      have hv := settle_valid_of_entry keyInRange start stop he
      have hn : (iterator K V keyInRange).next
          (settle keyInRange start stop true (⟨before, e :: es⟩, true)) =
          settle keyInRange start stop true (⟨e :: before, es⟩, !es.isEmpty) := by
        simp only [iterator, next, hv, if_true]
        simp [settle, IterG.next]
      have hlist := (iterator K V keyInRange).toList_of_some he
      rw [hn, ih (e :: before)] at hlist
      simpa [hk] using hlist
    · rw [toList_of_none _ (by simp [iterator, IterG.item, hk, Option.filter])]
      simp [hk]

theorem toList_settle_descending (before after : List (K × V)) (e : K × V) :
    (iterator K V keyInRange).toList
        (settle keyInRange start stop false (⟨before, e :: after⟩, true)) =
      (e :: before).takeWhile (fun x => keyInRange start stop false x.1) := by
  by_cases hk : keyInRange start stop false e.1 = true
  · have he : (iterator K V keyInRange).entry
        (settle keyInRange start stop false (⟨before, e :: after⟩, true)) = some e := by
      simp [iterator, IterG.item, hk, Option.filter]
    have hv := settle_valid_of_entry keyInRange start stop he
    rw [(iterator K V keyInRange).toList_of_some he]
    cases before with
    | nil =>
      have hn : (iterator K V keyInRange).entry ((iterator K V keyInRange).next
          (settle keyInRange start stop false (⟨[], e :: after⟩, true))) = none := by
        simp only [iterator, next, hv, if_true]
        simp [settle, IterG.prev, entry]
      rw [toList_of_none _ hn]
      simp [hk]
    | cons y ys =>
      have hn : (iterator K V keyInRange).next
          (settle keyInRange start stop false (⟨y :: ys, e :: after⟩, true)) =
          settle keyInRange start stop false (⟨ys, y :: e :: after⟩, true) := by
        simp only [iterator, next, hv, if_true]
        simp [settle, IterG.prev]
      rw [hn, toList_settle_descending ys (e :: after) y]
      simp [hk]
  · rw [toList_of_none _ (by simp [iterator, IterG.item, hk, Option.filter])]
    simp [hk]

theorem toList_settle_last (it : IterG K V) :
    (iterator K V keyInRange).toList (settle keyInRange start stop false it.last) =
      it.items.reverse.takeWhile (fun e => keyInRange start stop false e.1) := by
  cases hr : it.items.reverse with
  | nil => simp [IterG.last, hr, toList_of_none, iterator]
  | cons e es =>
    simp only [IterG.last, hr]
    exact toList_settle_descending keyInRange start stop es [] e

theorem toList_settle_prev (it : IterG K V) :
    (iterator K V keyInRange).toList (settle keyInRange start stop false it.prev) =
      it.before.takeWhile (fun e => keyInRange start stop false e.1) := by
  rcases it with ⟨before, after⟩
  cases before with
  | nil => simp [IterG.prev, toList_of_none, iterator]
  | cons e es => exact toList_settle_descending keyInRange start stop es after e

/-- What a domain check has to decide: the bound the iterator moves towards, on
the keys that meet the bound it started from. -/
structure Checks [Ord K] (keyInRange : KeyInRange K) : Prop where
  ascending : ∀ start stop k, fromStart start k = true →
    keyInRange start stop true k = beforeStop stop k
  descending : ∀ start stop k, beforeStop stop k = true →
    keyInRange start stop false k = fromStart start k

theorem any_isGE [Ord K] (stop : Option K) (k : K) :
    stop.any (fun e => (compare k e).isGE) = !beforeStop stop k := by
  cases stop with
  | none => rfl
  | some e => cases h : compare k e <;> simp [beforeStop, h]

theorem any_isLT [Ord K] [OrientedOrd K] (start : Option K) (k : K) :
    start.any (fun s => (compare k s).isLT) = !fromStart start k := by
  cases start with
  | none => rfl
  | some s =>
    have hswap : compare k s = (compare s k).swap := OrientedCmp.eq_swap
    cases h : compare s k <;> simp [fromStart, hswap, h]

section New

variable [Ord K] [TransOrd K] [LawfulEqOrd K]

variable {keyInRange start stop}

omit [LawfulEqOrd K] in
/-- From the near end on, the entries that pass the check are those of the domain. -/
theorem takeWhile_from_start (hc : Checks keyInRange) (tree : OrdMap K V) :
    (tree.toList.filter (fun e => fromStart start e.1)).takeWhile
        (fun e => keyInRange start stop true e.1) = rangeList tree start stop true := by
  have hsorted : tree.toList.Pairwise (fun a b => compare a.1 b.1 = .lt) :=
    ordered_keys_toList
  have hcongr : (tree.toList.filter fun e => fromStart start e.1).takeWhile
        (fun e => keyInRange start stop true e.1) =
      (tree.toList.filter fun e => fromStart start e.1).takeWhile
        (fun e => beforeStop stop e.1) := by
    apply takeWhile_congr_of_mem
    intro e he
    exact hc.ascending start stop e.1 (mem_filter.mp he).2
  rw [hcongr, takeWhile_eq_filter, filter_filter]
  · simp [rangeList, inRange, Bool.and_comm]
  · exact (List.Pairwise.filter _ hsorted).imp fun hab => beforeStop_anti hab

omit [LawfulEqOrd K] in
theorem takeWhile_from_stop (hc : Checks keyInRange) (tree : OrdMap K V) :
    (tree.toList.filter (fun e => beforeStop stop e.1)).reverse.takeWhile
        (fun e => keyInRange start stop false e.1) = rangeList tree start stop false := by
  have hsorted : tree.toList.Pairwise (fun a b => compare a.1 b.1 = .lt) :=
    ordered_keys_toList
  have hcongr : (tree.toList.filter fun e => beforeStop stop e.1).reverse.takeWhile
        (fun e => keyInRange start stop false e.1) =
      (tree.toList.filter fun e => beforeStop stop e.1).reverse.takeWhile
        (fun e => fromStart start e.1) := by
    apply takeWhile_congr_of_mem
    intro e he
    exact hc.descending start stop e.1 (mem_filter.mp (mem_reverse.mp he)).2
  rw [hcongr, takeWhile_eq_filter, filter_reverse, filter_filter]
  · simp [rangeList, inRange]
  · rw [pairwise_reverse]
    exact (List.Pairwise.filter _ hsorted).imp fun hab => fromStart_mono hab

omit [LawfulEqOrd K] in
theorem seek_ofTree (tree : OrdMap K V) (k : K) : (IterG.ofTree tree).seek k =
      (⟨(tree.toList.filter (fun e => beforeStop (some k) e.1)).reverse,
        tree.toList.filter (fun e => fromStart (some k) e.1)⟩,
       !(tree.toList.filter (fun e => fromStart (some k) e.1)).isEmpty) := by
  have hsorted : tree.toList.Pairwise
      (fun a b => (compare b.1 k).isLT = true → (compare a.1 k).isLT = true) :=
    (ordered_keys_toList).imp
      (fun hab hb => beforeStop_anti hab (show beforeStop (some k) _ = true from hb))
  have hfrom : (fun e : K × V => !(compare e.1 k).isLT) = fun e => fromStart (some k) e.1 := by
    funext e
    simp only [fromStart]
    rw [show compare k e.1 = (compare e.1 k).swap from OrientedOrd.eq_swap]
    cases compare e.1 k <;> rfl
  simp only [IterG.seek, IterG.items, IterG.ofTree, reverse_nil, nil_append,
    dropWhile_eq_filter hsorted, takeWhile_eq_filter hsorted, hfrom]
  rfl

theorem toList_new (hc : Checks keyInRange) (tree : OrdMap K V) (ascending : Bool) :
    (iterator K V keyInRange).toList (new keyInRange start stop tree ascending) =
      rangeList tree start stop ascending := by
  cases ascending with
  | true =>
    rw [← takeWhile_from_start hc tree]
    cases start with
    | none =>
      have hall : tree.toList.filter (fun e => fromStart (none : Option K) e.1) =
          tree.toList := by simp [fromStart]
      rw [hall]
      exact toList_settle_ascending keyInRange none stop [] tree.toList
    | some s =>
      simp only [new, if_true, seek_ofTree]
      exact toList_settle_ascending keyInRange (some s) stop _ _
  | false =>
    rw [← takeWhile_from_stop hc tree]
    cases stop with
    | none =>
      simp only [new, Bool.false_eq_true, if_false]
      rw [toList_settle_last]
      simp [IterG.items, IterG.ofTree, beforeStop]
    | some e =>
      simp only [new, Bool.false_eq_true, if_false, seek_ofTree]
      split
      · rw [toList_settle_prev]
      · rename_i hempty
        rw [toList_settle_last]
        have hnil : tree.toList.filter (fun x => fromStart (some e) x.1) = [] := by
          simpa using hempty
        simp [IterG.items, hnil]

end New

end Listing

end MemIterator

end CosmosSDK.Store
