import CosmosSDK.Query.Collections
import CosmosSDK.Lib.Slices

/-!
# One page

What a call of `CollectionFilteredPaginate` returns, in terms of the listing of the entries
under the prefix: the loops, the iterators they run over, and the call as a whole.
-/

namespace CosmosSDK.Query

open OrderedKV Store Fallible List Slices

namespace Collection

variable {K V : Type}

/-- Every stored key was written by the codec of the collection. -/
def WellFormed (coll : Collection K V) : Prop :=
  ∀ (key : Bytes) (v : V), coll.entries[key]? = some v →
    ∃ k, coll.keyCodec.decode key = .ok (key.length, k) ∧ coll.keyCodec.encode k = .ok key

/-- There are keys behind all keys of the collection. -/
def Bounded (coll : Collection K V) : Prop :=
  ∃ b ∈ coll.prefixBytes, b ≠ 255

instance (coll : Collection K V) : Decidable coll.Bounded :=
  inferInstanceAs (Decidable (∃ b ∈ coll.prefixBytes, b ≠ 255))

/-- A predicate that does not fail, as the argument of the call. -/
def lifted (p : Option (K → V → Bool)) : Option (K → V → Except CollErr Bool) :=
  p.map (fun f k v => .ok (f k v))

def pair (k : K) (v : V) : Except CollErr (K × V) :=
  .ok (k, v)

def accepts (p : Option (K → V → Bool)) (kv : K × V) : Bool :=
  match p with
  | none => true
  | some f => f kv.1 kv.2

def decoded (coll : Collection K V) (e : Bytes × V) : Option (K × V) :=
  (coll.keyValue e).toOption

def decodedAll (coll : Collection K V) (l : List (Bytes × V)) : List (K × V) :=
  l.filterMap coll.decoded

def matching (coll : Collection K V) (p : Option (K → V → Bool)) (e : Bytes × V) : Bool :=
  match coll.decoded e with
  | none => false
  | some kv => accepts p kv

def listing (coll : Collection K V) (pfx : Option Bytes) (reverse : Bool) : List (Bytes × V) :=
  (rangeList coll.entries none none (!reverse)).filter
    (fun e => (pfx.getD []).isPrefixOf e.1)

def matchingEntries (coll : Collection K V) (pfx : Option Bytes) (p : Option (K → V → Bool))
    (reverse : Bool) : List (Bytes × V) :=
  (coll.listing pfx reverse).filter (coll.matching p)

/-- The entry of the iterator decodes, and its key encodes to itself. -/
def Readable (coll : Collection K V) (e : Bytes × V) : Prop :=
  ∃ k, coll.key e = .ok k ∧ coll.keyCodec.encode k = .ok e.1

theorem WellFormed.readable {coll : Collection K V} (hwf : coll.WellFormed) {e : Bytes × V}
    (he : coll.entries[e.1]? = some e.2) : coll.Readable e := by
  obtain ⟨k, hdec, henc⟩ := hwf e.1 e.2 he
  refine ⟨k, ?_, henc⟩
  simp [key, hdec]

theorem includes_lifted (p : Option (K → V → Bool)) (kv : K × V) :
    includes (lifted p) kv = .ok (accepts p kv) := by
  cases p with
  | none | some f => rfl

section Readable

variable {coll : Collection K V} {e : Bytes × V}

theorem Readable.nextKey (h : coll.Readable e) : coll.nextKey e = .ok e.1 := by
  obtain ⟨_, hk, henc⟩ := h
  rw [Collection.nextKey, hk, ok_bind, henc]

theorem Readable.keyValue (h : coll.Readable e) :
    ∃ kv, coll.keyValue e = .ok kv ∧ coll.decoded e = some kv := by
  obtain ⟨k, hk, -⟩ := h
  have hkv : coll.keyValue e = .ok (k, e.2) := by simp [Collection.keyValue, hk]
  exact ⟨(k, e.2), hkv, by simp [decoded, hkv, Except.toOption]⟩

theorem Readable.key_inj {e1 e2 : Bytes × V} (h1 : coll.Readable e1) (h2 : coll.Readable e2)
    (h : coll.decoded e1 = coll.decoded e2) : e1.1 = e2.1 := by
  obtain ⟨k1, hk1, henc1⟩ := h1
  obtain ⟨k2, hk2, henc2⟩ := h2
  have hk : k1 = k2 := by
    simp only [decoded, Collection.keyValue, hk1, hk2, Except.toOption, Option.some.injEq,
      Prod.mk.injEq] at h
    exact h.1
  rw [hk, henc2] at henc1
  exact (Except.ok.inj henc1).symm

theorem length_decodedAll {l : List (Bytes × V)} (h : ∀ e ∈ l, coll.Readable e) :
    (coll.decodedAll l).length = l.length := by
  induction l with
  | nil => rfl
  | cons e l ih =>
    obtain ⟨_, -, hdec⟩ := (h e (mem_cons_self ..)).keyValue
    have htail := ih (forall_mem_cons.mp h).2
    simp only [decodedAll] at htail ⊢
    rw [filterMap_cons_some hdec, length_cons, length_cons, htail]

end Readable

section Loops

variable (coll : Collection K V) (p : Option (K → V → Bool)) {limit : Nat}
  {l : List (Bytes × V)} {count : Nat}

/-- From the limit on the loop only counts, and takes the next key at the limit. -/
theorem noKeyLoop_counting {e : Bytes × V} {kv : K × V} (hread : coll.Readable e)
    (hkv : coll.keyValue e = .ok kv) (hcount : ¬ count < limit) (next : Option Bytes)
    (results : List (K × V)) :
    coll.noKeyLoop limit true (lifted p) pair (e :: l) count next results =
      coll.noKeyLoop limit true (lifted p) pair l (if accepts p kv then count + 1 else count)
        (if count = limit then some e.1 else next) results := by
  rw [noKeyLoop, if_neg hcount]
  by_cases hlimit : count = limit
  · cases p with
    | none | some => simp [hlimit, hread.nextKey, lifted, accepts, hkv]
  · cases p with
    | none => simp [hlimit, lifted, accepts]
    | some =>
      simp only [hlimit, lifted, hkv, ok_bind, false_and, if_false, Option.map_some]
      rfl

theorem noKeyLoop_past (hl : ∀ e ∈ l, coll.Readable e) (hcount : limit < count)
    (next : Option Bytes) (results : List (K × V)) :
    coll.noKeyLoop limit true (lifted p) pair l count next results =
      .ok (results, next, some (count + (l.filter (coll.matching p)).length)) := by
  induction l generalizing count with
  | nil => rfl
  | cons e l ih =>
    obtain ⟨hread, hrest⟩ := forall_mem_cons.mp hl
    obtain ⟨kv, hkv, hdec⟩ := hread.keyValue
    have hmatch : coll.matching p e = accepts p kv := by simp [matching, hdec]
    rw [noKeyLoop_counting coll p hread hkv (by omega), if_neg (show count ≠ limit by omega)]
    by_cases hacc : accepts p kv = true
    · rw [if_pos hacc, ih hrest (by omega), filter_cons_of_pos (hmatch.trans hacc), length_cons]
      congr 4
      omega
    · rw [if_neg hacc, ih hrest hcount, filter_cons_of_neg (by rwa [hmatch])]

theorem noKeyLoop_eq (countTotal : Bool) (hl : ∀ e ∈ l, coll.Readable e) (hcount : count ≤ limit)
    (next : Option Bytes) (results : List (K × V)) :
    ∃ total, coll.noKeyLoop limit countTotal (lifted p) pair l count next results =
      .ok (results ++ coll.decodedAll ((l.filter (coll.matching p)).take (limit - count)),
        ((boundary (coll.matching p) countTotal (limit - count) l).map (·.1)).or next,
        total) ∧
      (countTotal = true → total = some (count + (l.filter (coll.matching p)).length)) := by
  induction l generalizing count next results with
  | nil =>
    refine ⟨some count, ?_, fun _ => rfl⟩
    have hb : boundary (coll.matching p) countTotal (limit - count) [] = none := by
      cases hn : limit - count <;> cases countTotal <;> rfl
    simp [noKeyLoop, hb, decodedAll]
  | cons e l ih =>
    obtain ⟨hread, hrest⟩ := forall_mem_cons.mp hl
    obtain ⟨kv, hkv, hdec⟩ := hread.keyValue
    have hmatch : coll.matching p e = accepts p kv := by simp [matching, hdec]
    by_cases hlt : count < limit
    · obtain ⟨n, hn⟩ : ∃ n, limit - count = n + 1 := ⟨limit - count - 1, by omega⟩
      simp only [noKeyLoop, hlt, if_true, hkv, ok_bind, includes_lifted]
      by_cases hacc : accepts p kv = true
      · obtain ⟨total, hstep, htotal⟩ := ih hrest (show count + 1 ≤ limit by omega) next
          (results ++ [(kv.1, kv.2)])
        refine ⟨total, ?_, ?_⟩
        · grind [pair, ok_bind, boundary_cons, decodedAll]
        · intro hct
          rw [htotal hct, filter_cons_of_pos (hmatch.trans hacc), length_cons]
          congr 1
          omega
      · have hm : ¬ coll.matching p e = true := by rwa [hmatch]
        obtain ⟨total, hstep, htotal⟩ := ih hrest hcount next results
        refine ⟨total, ?_, ?_⟩
        · rw [hn] at hstep
          rw [if_neg hacc, hstep, hn, boundary_cons, if_neg hm, filter_cons_of_neg hm]
        · intro hct
          rw [htotal hct, filter_cons_of_neg hm]
    · obtain rfl : count = limit := by omega
      cases countTotal with
      | false =>
        refine ⟨none, ?_, by simp⟩
        simp only [noKeyLoop, Nat.lt_irrefl, if_false, if_true, hread.nextKey, and_self]
        simp [boundary, afterMatches, decodedAll]
      | true =>
        rw [Nat.sub_self, noKeyLoop_counting coll p hread hkv (Nat.lt_irrefl count), if_pos rfl]
        by_cases hacc : accepts p kv = true
        · grind [boundary, afterMatches, noKeyLoop_past, decodedAll]
        · have hm : ¬ coll.matching p e = true := by rwa [hmatch]
          obtain ⟨total, hstep, htotal⟩ := ih hrest (Nat.le_refl count) (some e.1) results
          have hb : ((boundary (coll.matching p) true 0 (e :: l)).map (·.1)).or next =
              ((boundary (coll.matching p) true 0 l).map (·.1)).or (some e.1) := by
            grind [boundary, afterMatches]
          rw [if_neg hacc, hb, filter_cons_of_neg hm]
          rw [Nat.sub_self] at hstep
          exact ⟨total, hstep, htotal⟩

theorem byKeyLoop_eq (hl : ∀ e ∈ l, coll.Readable e) (hcount : count ≤ limit)
    (results : List (K × V)) : coll.byKeyLoop limit (lifted p) pair l count results =
      .ok (results ++ coll.decodedAll ((l.filter (coll.matching p)).take (limit - count)),
        ((l.filter (coll.matching p))[limit - count]?).map (·.1)) := by
  induction l generalizing count results with
  | nil => simp [byKeyLoop, decodedAll]
  | cons e l ih =>
    obtain ⟨hread, hrest⟩ := forall_mem_cons.mp hl
    obtain ⟨kv, hkv, hdec⟩ := hread.keyValue
    have hmatch : coll.matching p e = accepts p kv := by simp [matching, hdec]
    simp only [byKeyLoop, hkv, ok_bind, includes_lifted]
    by_cases hacc : accepts p kv = true
    · have hm : coll.matching p e = true := hmatch.trans hacc
      rw [if_pos hacc, pair, ok_bind, filter_cons_of_pos hm]
      by_cases heq : count = limit
      · rw [if_pos heq, hread.nextKey]
        subst heq
        simp [decodedAll]
      · obtain ⟨n, hn⟩ : ∃ n, limit - count = n + 1 := ⟨limit - count - 1, by omega⟩
        have hsub : limit - (count + 1) = n := by omega
        rw [if_neg heq, ih hrest (by omega), hsub, hn]
        simp [decodedAll, hdec]
    · have hm : ¬ coll.matching p e = true := by rwa [hmatch]
      rw [if_neg hacc, ih hrest hcount, filter_cons_of_neg hm]

end Loops

theorem advanceIter_eq (l : List (Bytes × V)) (offset : Nat) :
    advanceIter l offset = if offset ≤ l.length then some (l.drop offset) else none := by
  induction l generalizing offset with
  | nil => cases offset <;> simp [advanceIter]
  | cons e l ih =>
    cases offset with
    | zero => simp [advanceIter]
    | succ => simp [advanceIter, ih]

section Iterators

variable {coll : Collection K V} {stop pfx : Option Bytes} {k : Bytes}

theorem iterateRaw_eq (hb : coll.Bounded) {start : Bytes} (h : beforeStop stop start = true)
    (ascending : Bool) : coll.iterateRaw start stop ascending =
      .ok (rangeList coll.entries (some start) stop ascending) := by
  have hvalid : ∃ e, coll.prefixedEnd stop = some e ∧
      compare (coll.prefixBytes ++ start) e = .lt := by
    cases stop with
    | none =>
      obtain ⟨e, he⟩ := prefixEndBytes_isSome hb
      have hbefore := (beforeStop_prefixEndBytes coll.prefixBytes
        (coll.prefixBytes ++ start)).mpr (.inr (prefix_append ..))
      rw [he] at hbefore
      exact ⟨e, he, Ordering.isLT_iff_eq_lt.mp hbefore⟩
    | some stop =>
      refine ⟨coll.prefixBytes ++ stop, rfl, ?_⟩
      rw [compare_append_left]
      exact Ordering.isLT_iff_eq_lt.mp h
  obtain ⟨_, he, hlt⟩ := hvalid
  rw [iterateRaw, he, Option.getD_some, hlt, if_neg (by simp)]

/-- What an iteration that starts at a key visits: in reverse, the keys up to the start and
every key that extends it. -/
def listingFrom (coll : Collection K V) (pfx : Option Bytes) (start : Bytes) (reverse : Bool) :
    List (Bytes × V) :=
  (coll.listing pfx reverse).filter (fun e =>
    if reverse then (compare e.1 start).isLT || start.isPrefixOf e.1
    else (compare start e.1).isLE)

theorem mem_listing {reverse : Bool} {v : V} :
    (k, v) ∈ coll.listing pfx reverse ↔ coll.entries[k]? = some v ∧ pfx.getD [] <+: k := by
  rw [listing, mem_filter, mem_rangeList]
  simp [inRange, fromStart, beforeStop]

theorem listing_sorted (coll : Collection K V) (pfx : Option Bytes) (reverse : Bool) :
    SortedBy (dirCompare (!reverse)) (coll.listing pfx reverse) :=
  (rangeList_sorted coll.entries none none (!reverse)).filter _

theorem rangeList_eq_listingFrom (reverse : Bool) {start : Option Bytes} {b : Bytes}
    (h : ∀ k, inRange start stop k = true ↔
      pfx.getD [] <+: k ∧ if reverse then compare k b = .lt ∨ b <+: k
        else (compare b k).isLE = true) :
    rangeList coll.entries start stop (!reverse) = coll.listingFrom pfx b reverse := by
  apply SortedBy.eq_of_mem_iff (rangeList_sorted coll.entries start stop (!reverse))
    ((listing_sorted coll pfx reverse).filter _)
  rintro ⟨k, v⟩
  rw [mem_rangeList, h, mem_filter, mem_listing]
  cases reverse with
  | true | false => simp [and_assoc]

theorem beforeStop_of_extends {p : Bytes} (h : p <+: k) : beforeStop (prefixEndBytes p) k = true :=
  (beforeStop_prefixEndBytes p k).mpr (Or.inr h)

theorem inRange_ascending (p s k : Bytes) : inRange (some (p ++ s)) (prefixEndBytes p) k = true ↔
      p <+: k ∧ (compare (p ++ s) k).isLE = true := by
  rw [inRange, Bool.and_eq_true, and_comm (a := p <+: k)]
  apply and_congr_right
  intro hle
  constructor
  · intro hbefore
    rw [← inRange_prefixEndBytes p k, inRange, Bool.and_eq_true]
    refine ⟨?_, hbefore⟩
    exact Std.TransCmp.isLE_trans (isLE_of_extends (prefix_append p s)) hle
  · exact beforeStop_of_extends

theorem inRange_descending (p s k : Bytes) : inRange (some p) (prefixEndBytes (p ++ s)) k = true ↔
      p <+: k ∧ (compare k (p ++ s) = .lt ∨ p ++ s <+: k) := by
  rw [inRange, Bool.and_eq_true, beforeStop_prefixEndBytes]
  apply and_congr_left
  rintro (hlt | hext)
  · rw [← inRange_prefixEndBytes p k, inRange, Bool.and_eq_true]
    constructor
    · intro hfrom
      exact ⟨hfrom, beforeStop_anti hlt (beforeStop_of_extends (prefix_append p s))⟩
    · exact fun h => h.1
  · have hp : p <+: k := (prefix_append p s).trans hext
    exact ⟨fun _ => hp, fun _ => isLE_of_extends hp⟩

theorem getCollIter_eq (hb : coll.Bounded) (pfx : Option Bytes) (start : Bytes) (reverse : Bool) :
    coll.getCollIter pfx start reverse =
      .ok (coll.listingFrom pfx (pfx.getD [] ++ start) reverse) := by
  have hstart : beforeStop (prefixEndBytes (pfx.getD [])) (pfx.getD [] ++ start) = true :=
    beforeStop_of_extends (prefix_append ..)
  cases reverse with
  | true =>
    have hstop : beforeStop (prefixEndBytes (pfx.getD [] ++ start)) (pfx.getD []) = true := by
      rw [beforeStop_prefixEndBytes]
      rcases Ordering.isLE_iff_eq_lt_or_eq_eq.mp
        (isLE_of_extends (prefix_append (pfx.getD []) start)) with h | h
      · exact .inl h
      · rw [← Std.LawfulEqCmp.eq_of_compare h]
        exact .inr (prefix_refl _)
    show coll.iterateRaw (pfx.getD []) (prefixEndBytes (pfx.getD [] ++ start)) false = _
    rw [iterateRaw_eq hb hstop]
    congr 1
    apply rangeList_eq_listingFrom true
    intro k
    simpa using inRange_descending (pfx.getD []) start k
  | false =>
    have hiter : coll.getCollIter pfx start false =
        coll.iterateRaw (pfx.getD [] ++ start) (prefixEndBytes (pfx.getD [])) true := by
      cases pfx with
      | none | some p => rfl
    rw [hiter, iterateRaw_eq hb hstart]
    congr 1
    apply rangeList_eq_listingFrom false
    intro k
    simpa using inRange_ascending (pfx.getD []) start k

theorem listingFrom_start (pfx : Option Bytes) (reverse : Bool) :
    coll.listingFrom pfx (pfx.getD [] ++ []) reverse = coll.listing pfx reverse := by
  rw [listingFrom, append_nil, filter_eq_self]
  rintro ⟨k, v⟩ hk
  have hpre := (mem_listing.mp hk).2
  cases reverse with
  | true => simp [hpre]
  | false => simpa using isLE_of_extends hpre

end Iterators

section Calls

variable {coll : Collection K V} {opt : Option K} {pfx : Option Bytes}
  (p : Option (K → V → Bool)) {limit : Nat}

theorem WellFormed.listing_readable (hwf : coll.WellFormed) (pfx : Option Bytes)
    (reverse : Bool) : ∀ e ∈ coll.listing pfx reverse, coll.Readable e := by
  rintro ⟨k, v⟩ he
  exact hwf.readable (mem_listing.mp he).1

def strip (pfx : Option Bytes) (e : Bytes × V) : Bytes :=
  e.1.drop (pfx.getD []).length

theorem stripPrefix_eq (pfx : Option Bytes) (b : Option (Bytes × V)) (total : Nat) :
    stripPrefix pfx ⟨b.map (·.1), total⟩ = ⟨b.map (strip pfx), total⟩ := by
  cases pfx with
  | none => cases b <;> simp [stripPrefix, strip]
  | some =>
    cases b with
    | none => rfl
    | some e =>
      by_cases hlen : e.1.length = 0
      · have hnil : e.1 = [] := length_eq_zero_iff.mp hlen
        simp [stripPrefix, strip, hnil]
      · simp [stripPrefix, strip, hlen]

theorem paginate_first (hwf : coll.WellFormed) (hb : coll.Bounded)
    (hopt : coll.encodePrefix opt = .ok pfx) (hlimit : 0 < limit) {key : Option Bytes}
    (hkey : key.getD [] = []) (offset : Nat) (countTotal reverse : Bool) :
    ∃ total, coll.collectionFilteredPaginate (some ⟨key, offset, limit, countTotal, reverse⟩)
        (lifted p) pair opt = (if offset ≤ (coll.listing pfx reverse).length then
        .ok (coll.decodedAll
            ((((coll.listing pfx reverse).drop offset).filter (coll.matching p)).take limit),
          ⟨(boundary (coll.matching p) countTotal limit
            ((coll.listing pfx reverse).drop offset)).map (strip pfx), total⟩)
      else .ok ([], ⟨none, 0⟩)) ∧ (countTotal = true →
        total = (((coll.listing pfx reverse).drop offset).filter (coll.matching p)).length +
          offset) := by
  have hinit : initPageRequestDefaults (some ⟨key, offset, limit, countTotal, reverse⟩) =
      ⟨none, offset, limit, countTotal, reverse⟩ := by
    have hne : limit ≠ 0 := by omega
    simp [initPageRequestDefaults, hkey, hne]
  have hread : ∀ e ∈ (coll.listing pfx reverse).drop offset, coll.Readable e := by
    intro e he
    exact hwf.listing_readable pfx reverse e (mem_of_mem_drop he)
  obtain ⟨count, hloop, hcount⟩ := noKeyLoop_eq coll p countTotal hread (Nat.zero_le limit) none []
  refine ⟨totalOf countTotal offset count, ?_, ?_⟩
  · unfold collectionFilteredPaginate
    simp only [hinit, ne_eq, not_true_eq_false, and_false, if_false, hopt, ok_bind,
      page, collFilteredPaginateNoKey, getCollIter_eq hb, listingFrom_start, advanceIter_eq]
    by_cases hle : offset ≤ (coll.listing pfx reverse).length
    · simp [hle, hloop, stripPrefix_eq]
    · simp [hle]
  · intro hct
    rw [hcount hct, hct]
    simp [totalOf]

theorem paginate_from (hwf : coll.WellFormed) (hb : coll.Bounded)
    (hopt : coll.encodePrefix opt = .ok pfx) (hlimit : 0 < limit) {start : Bytes}
    (hstart : start ≠ []) (countTotal reverse : Bool) :
    coll.collectionFilteredPaginate (some ⟨some start, 0, limit, countTotal, reverse⟩)
        (lifted p) pair opt = .ok (coll.decodedAll
          (((coll.listingFrom pfx (pfx.getD [] ++ start) reverse).filter
            (coll.matching p)).take limit),
        ⟨(((coll.listingFrom pfx (pfx.getD [] ++ start) reverse).filter
          (coll.matching p))[limit]?).map (strip pfx), 0⟩) := by
  have hinit : initPageRequestDefaults (some ⟨some start, 0, limit, countTotal, reverse⟩) =
      ⟨some start, 0, limit, countTotal, reverse⟩ := by
    have hne : limit ≠ 0 := by omega
    simp [initPageRequestDefaults, hstart, hne]
  have hread : ∀ e ∈ coll.listingFrom pfx (pfx.getD [] ++ start) reverse, coll.Readable e := by
    intro e he
    exact hwf.listing_readable pfx reverse e (mem_filter.mp he).1
  have hpage : coll.page ⟨some start, 0, limit, countTotal, reverse⟩ pfx (lifted p) pair =
      coll.collFilteredPaginateByKey pfx start reverse limit (lifted p) pair := by
    cases start with
    | nil => exact absurd rfl hstart
    | cons => rfl
  unfold collectionFilteredPaginate
  simp [hinit, hopt, hpage, collFilteredPaginateByKey, getCollIter_eq hb,
    byKeyLoop_eq coll p hread (Nat.zero_le limit), stripPrefix_eq]

end Calls

end Collection

end CosmosSDK.Query
