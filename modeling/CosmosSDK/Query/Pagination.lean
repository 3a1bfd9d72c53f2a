import CosmosSDK.Query.Pages
import Mathlib.Tactic.Linarith
import Mathlib.Tactic.Ring

/-!
# Paginated queries

A client pages through a collection by calling with the returned next key until there is
none.  In reverse, the iteration from a next key also visits the keys that extend it, which
were on an earlier page; and an offset skips entries, whether they match or not.
-/

namespace CosmosSDK.Query

open OrderedKV Store List Slices Std.OrientedCmp Nat

structure PageQuery (K V : Type) where
  opt : Option K
  predicate : Option (K → V → Bool)
  reverse : Bool
  limit : Nat
  countTotal : Bool

namespace Collection

variable {K V : Type}

def call (coll : Collection K V) (q : PageQuery K V) (key : Option Bytes) (offset : Nat) :
    Except CollErr (List (K × V) × PageResponse) :=
  coll.collectionFilteredPaginate (some ⟨key, offset, q.limit, q.countTotal, q.reverse⟩)
    (lifted q.predicate) pair q.opt

/-- The results of at most `fuel` calls, each with the next key of the one before, if the last
of them has no next key. -/
def chain (coll : Collection K V) (q : PageQuery K V) : Nat → Option Bytes → Option (List (K × V))
  | 0, _ => none
  | fuel + 1, key =>
    match coll.call q key 0 with
    | .error _ => none
    | .ok (results, ⟨none, _⟩) => some results
    | .ok (results, ⟨some next, _⟩) => (chain coll q fuel (some next)).map (results ++ ·)

abbrev entriesOf (coll : Collection K V) (q : PageQuery K V) (pfx : Option Bytes) :
    List (Bytes × V) :=
  coll.listing pfx q.reverse

abbrev expected (coll : Collection K V) (q : PageQuery K V) (pfx : Option Bytes) :
    List (Bytes × V) :=
  coll.matchingEntries pfx q.predicate q.reverse

/-- The calls of a query return the entries under the prefix that match. -/
structure Paginates (coll : Collection K V) (q : PageQuery K V) (pfx : Option Bytes)
    (offset : Nat) : Prop where
  /-- the pages from the empty key on end, and are the matching entries in order -/
  complete : ∃ fuel, coll.chain q fuel none = some (coll.decodedAll (coll.expected q pfx))
  inside : ∀ key results res, coll.call q key 0 = .ok (results, res) →
    ∀ kv ∈ results, kv ∈ coll.decodedAll (coll.entriesOf q pfx)
  slice : ∃ res, coll.call q none offset =
    .ok (coll.decodedAll (((coll.expected q pfx).drop offset).take q.limit), res)
  total : q.countTotal = true → ∃ results res, coll.call q none offset = .ok (results, res) ∧
    res.total = (coll.expected q pfx).length

def boundaries (coll : Collection K V) (q : PageQuery K V) (pfx : Option Bytes) :
    List (Bytes × V) :=
  (boundary (coll.matching q.predicate) q.countTotal q.limit (coll.entriesOf q pfx)).toList ++
    (range (coll.expected q pfx).length).filterMap
      (fun j => (coll.expected q pfx)[(j + 2) * q.limit]?)

/-- No matching key is a proper extension of the key. -/
def Unextended (coll : Collection K V) (q : PageQuery K V) (pfx : Option Bytes)
    (b : Bytes × V) : Prop :=
  ∀ x ∈ coll.expected q pfx, b.1 <+: x.1 → x.1 = b.1

instance (coll : Collection K V) (q : PageQuery K V) (pfx : Option Bytes) (b : Bytes × V) :
    Decidable (coll.Unextended q pfx b) :=
  inferInstanceAs (Decidable (∀ x ∈ coll.expected q pfx, b.1 <+: x.1 → x.1 = b.1))

/-- In reverse no matching key extends a key at which a page ends; the offset skips matching
entries only, unless nothing that matches follows; and it stays within the listing when a
total is asked for. -/
structure Fits (coll : Collection K V) (q : PageQuery K V) (pfx : Option Bytes)
    (offset : Nat) : Prop where
  unextended : q.reverse = true → ∀ b ∈ coll.boundaries q pfx, coll.Unextended q pfx b
  skipped : ((coll.entriesOf q pfx).take offset).all (coll.matching q.predicate) = true ∨
    ((coll.entriesOf q pfx).drop offset).filter (coll.matching q.predicate) = []
  counted : q.countTotal = true →
    if offset ≤ (coll.entriesOf q pfx).length then
      ((coll.entriesOf q pfx).take offset).all (coll.matching q.predicate) = true
    else coll.expected q pfx = []

section Listing

variable {coll : Collection K V} {q : PageQuery K V} {pfx : Option Bytes}
  {before after : List (Bytes × V)} {b : Bytes × V}

section

variable (h : coll.entriesOf q pfx = before ++ b :: after)
include h

theorem mem_split {x : Bytes × V} :
    x ∈ coll.listing pfx q.reverse ↔ x ∈ before ∨ x ∈ b :: after := by
  rw [show coll.listing pfx q.reverse = before ++ b :: after from h, mem_append]

theorem sorted_split : (∀ y ∈ after, dirCompare (!q.reverse) b.1 y.1 = .lt) ∧
      ∀ x ∈ before, ∀ y ∈ b :: after, dirCompare (!q.reverse) x.1 y.1 = .lt := by
  have hsorted := listing_sorted coll pfx q.reverse
  rw [show coll.listing pfx q.reverse = before ++ b :: after from h, SortedBy,
    pairwise_append] at hsorted
  exact ⟨(pairwise_cons.mp hsorted.2.1).1, hsorted.2.2⟩

theorem listingFrom_split : coll.listingFrom pfx b.1 q.reverse =
      (if q.reverse then before.filter (fun e => b.1.isPrefixOf e.1) else []) ++ b :: after := by
  obtain ⟨hafter, hbefore⟩ := sorted_split h
  rw [listingFrom, show coll.listing pfx q.reverse = before ++ b :: after from h,
    filter_append]
  cases hrev : q.reverse with
  | true =>
    simp only [hrev, dirCompare, Bool.not_true, Bool.false_eq_true, if_false] at hafter hbefore
    simp only [if_true]
    congr 1
    · apply filter_congr
      intro e he
      have hlt := hbefore e he b (mem_cons_self ..)
      have hgt : compare e.1 b.1 = .gt := gt_iff_lt.mpr hlt
      simp [hgt]
    · rw [filter_eq_self]
      intro e he
      rcases mem_cons.mp he with rfl | he
      · simp
      · simp [hafter e he]
  | false =>
    simp only [hrev, dirCompare, Bool.not_false, if_true] at hafter hbefore
    simp only [Bool.false_eq_true, if_false, nil_append]
    have hnone : before.filter (fun e => (compare b.1 e.1).isLE) = [] := by
      rw [filter_eq_nil_iff]
      intro e he
      have hlt := hbefore e he b (mem_cons_self ..)
      have hgt : compare b.1 e.1 = .gt := gt_iff_lt.mpr hlt
      simp [hgt]
    have hall : (b :: after).filter (fun e => (compare b.1 e.1).isLE) = b :: after := by
      rw [filter_eq_self]
      intro e he
      rcases mem_cons.mp he with rfl | he
      · simp
      · simp [hafter e he]
    rw [hnone, hall, nil_append]

end

variable {x : Bytes × V}

section

variable (h : coll.entriesOf q pfx = before ++ b :: after)
include h

theorem key_ne_of_before {y : Bytes × V} (hx : x ∈ before) (hy : y ∈ b :: after) : x.1 ≠ y.1 := by
  have hlt := (sorted_split h).2 x hx y hy
  intro heq
  rw [heq] at hlt
  exact OrderedKV.lt_irrefl _ hlt

theorem append_strip : pfx.getD [] ++ strip pfx b = b.1 :=
  prefix_iff_eq_append.mp (mem_listing.mp ((mem_split (x := b) h).mpr (by simp))).2

theorem expected_split : coll.expected q pfx = before.filter (coll.matching q.predicate) ++
      (b :: after).filter (coll.matching q.predicate) := by
  rw [expected, matchingEntries, show coll.listing pfx q.reverse = before ++ b :: after from h,
    filter_append]

theorem drop_expected {i : Nat} (hi : (before.filter (coll.matching q.predicate)).length = i) :
    (coll.expected q pfx).drop i = (b :: after).filter (coll.matching q.predicate) := by
  rw [expected_split h, ← hi, drop_left]

/-- A matching entry that extends a key of the listing is visited before it in reverse. -/
theorem mem_before_of_extends
    (hrev : q.reverse = true) (hx : x ∈ coll.expected q pfx) (hext : b.1 <+: x.1) (hne : x.1 ≠ b.1) :
    x ∈ before.filter (coll.matching q.predicate) := by
  rw [expected_split h] at hx
  rcases mem_append.mp hx with hx | hx
  · exact hx
  · rcases mem_cons.mp (mem_of_mem_filter hx) with rfl | hafter
    · exact absurd rfl hne
    · have hlt := (sorted_split h).1 x hafter
      rw [hrev] at hlt
      have hlt : compare x.1 b.1 = .lt := hlt
      have hle := isLE_of_extends hext
      rw [gt_iff_lt.mpr hlt] at hle
      cases hle

/-- What matches in the reading from an entry whose key no matching key extends. -/
theorem filter_listingFrom (hun : q.reverse = true → coll.Unextended q pfx b) :
    (coll.listingFrom pfx b.1 q.reverse).filter (coll.matching q.predicate) =
      (b :: after).filter (coll.matching q.predicate) := by
  rw [listingFrom_split h, filter_append]
  have hnone : (if q.reverse then before.filter (fun e => b.1.isPrefixOf e.1) else []).filter
      (coll.matching q.predicate) = [] := by
    cases hrev : q.reverse with
    | false => rfl
    | true =>
      rw [if_pos rfl, filter_eq_nil_iff]
      intro x hx hm
      have hx := mem_filter.mp hx
      have hmem : x ∈ coll.expected q pfx := by
        rw [expected_split h]
        exact mem_append_left _ (mem_filter.mpr ⟨hx.1, hm⟩)
      have hkey := hun hrev x hmem (startsWith_iff.mp hx.2)
      exact key_ne_of_before h hx.1 (mem_cons_self ..) hkey
  rw [hnone, nil_append]

/-- An entry behind a matching one is not the prefix itself, unless a matching key extends it. -/
theorem strip_ne_nil (hpos : before.filter (coll.matching q.predicate) ≠ [])
    (hun : q.reverse = true → coll.Unextended q pfx b) : strip pfx b ≠ [] := by
  intro hnil
  have hb : pfx.getD [] = b.1 := by
    have := append_strip h
    rwa [hnil, append_nil] at this
  obtain ⟨x, hx⟩ := exists_mem_of_ne_nil _ hpos
  have hxb := (mem_filter.mp hx).1
  have hext : b.1 <+: x.1 := hb ▸ (mem_listing.mp ((mem_split h).mpr (.inl hxb))).2
  have hne := key_ne_of_before h hxb (mem_cons_self ..)
  cases hrev : q.reverse with
  | true =>
    refine hne (hun hrev x ?_ hext)
    rw [expected_split h]
    exact mem_append_left _ hx
  | false =>
    have hlt := (sorted_split h).2 x hxb b (mem_cons_self ..)
    rw [hrev] at hlt
    have hlt : compare x.1 b.1 = .lt := hlt
    have hle := isLE_of_extends hext
    rw [gt_iff_lt.mpr hlt] at hle
    cases hle

end

end Listing

section Chain

variable {coll : Collection K V} {q : PageQuery K V}
  {key : Option Bytes} {results : List (K × V)} {total : Nat}

theorem chain_unique {f g : Nat} {a b : List (K × V)} (ha : coll.chain q f key = some a)
    (hb : coll.chain q g key = some b) : a = b := by
  induction f generalizing g key a b with
  | zero => cases ha
  | succ f ih =>
    cases g with
    | zero => cases hb
    | succ =>
      rw [chain] at ha hb
      cases hcall : coll.call q key 0 with
      | error =>
        rw [hcall] at ha
        cases ha
      | ok page =>
        obtain ⟨_, next, _⟩ := page
        rw [hcall] at ha hb
        cases next with
        | none => exact (Option.some.inj ha).symm.trans (Option.some.inj hb)
        | some =>
          obtain ⟨_, ha', rfl⟩ := Option.map_eq_some_iff.mp ha
          obtain ⟨_, hb', rfl⟩ := Option.map_eq_some_iff.mp hb
          rw [ih ha' hb']

theorem chain_empty_key (coll : Collection K V) (q : PageQuery K V) (f : Nat) :
    coll.chain q f (some []) = coll.chain q f none := by
  cases f with
  | zero | succ f => rfl

theorem chain_last (h : coll.call q key 0 = .ok (results, ⟨none, total⟩)) (f : Nat) :
    coll.chain q (f + 1) key = some results := by
  rw [chain, h]

theorem chain_next {next : Bytes} (h : coll.call q key 0 = .ok (results, ⟨some next, total⟩))
    (f : Nat) : coll.chain q (f + 1) key = (coll.chain q f (some next)).map (results ++ ·) := by
  rw [chain, h]

theorem decodedAll_take_append_drop (coll : Collection K V) (l : List (Bytes × V)) (n : Nat) :
    coll.decodedAll (l.take n) ++ coll.decodedAll (l.drop n) = coll.decodedAll l := by
  rw [decodedAll, decodedAll, ← filterMap_append, take_append_drop]
  rfl

theorem chain_rest {next : Bytes} {l : List (Bytes × V)} {f : Nat}
    (hcall : coll.call q key 0 = .ok (coll.decodedAll (l.take q.limit), ⟨some next, total⟩))
    (h : coll.chain q f key = some (coll.decodedAll l)) :
    ∃ g, coll.chain q g (some next) = some (coll.decodedAll (l.drop q.limit)) := by
  cases f with
  | zero => cases h
  | succ f =>
    rw [chain_next hcall f, ← decodedAll_take_append_drop coll l q.limit] at h
    obtain ⟨_, hrest, happend⟩ := Option.map_eq_some_iff.mp h
    exact ⟨f, append_cancel_left happend ▸ hrest⟩

end Chain

section Query

variable {coll : Collection K V} {q : PageQuery K V} {pfx : Option Bytes}
  {before after : List (Bytes × V)} {b : Bytes × V}

theorem expected_readable (hwf : coll.WellFormed) (q : PageQuery K V) (pfx : Option Bytes) :
    ∀ e ∈ coll.expected q pfx, coll.Readable e := by
  intro e he
  exact hwf.listing_readable pfx q.reverse e (mem_of_mem_filter he)

theorem mem_boundaries {c : Bytes × V} : c ∈ coll.boundaries q pfx ↔
      boundary (coll.matching q.predicate) q.countTotal q.limit (coll.entriesOf q pfx) =
        some c ∨ ∃ j < (coll.expected q pfx).length,
          (coll.expected q pfx)[(j + 2) * q.limit]? = some c := by
  simp [boundaries]

theorem expected_eq_take_append_drop (coll : Collection K V) (q : PageQuery K V)
    (pfx : Option Bytes) (offset : Nat) : coll.expected q pfx =
      ((coll.entriesOf q pfx).take offset).filter (coll.matching q.predicate) ++
        ((coll.entriesOf q pfx).drop offset).filter (coll.matching q.predicate) := by
  rw [← filter_append, take_append_drop]
  rfl

theorem length_filter_eq_iff_all {l : List (Bytes × V)} {m : Bytes × V → Bool} :
    (l.filter m).length = l.length ↔ l.all m = true := by
  rw [all_eq_true, ← filter_eq_self]
  constructor
  · intro hlen
    exact List.Sublist.eq_of_length filter_sublist hlen
  · intro heq
    rw [heq]

theorem expected_pairwise_ne (coll : Collection K V) (q : PageQuery K V) (pfx : Option Bytes) :
    (coll.expected q pfx).Pairwise (fun x y => x.1 ≠ y.1) := by
  apply List.Pairwise.imp _ ((listing_sorted coll pfx q.reverse).filter _)
  intro x y hlt heq
  rw [heq] at hlt
  exact OrderedKV.lt_irrefl _ hlt

variable (hwf : coll.WellFormed) (hb : coll.Bounded)
  (hopt : coll.encodePrefix q.opt = .ok pfx) (hlimit : 0 < q.limit)

include hwf hb hopt hlimit

theorem call_at (h : coll.entriesOf q pfx = before ++ b :: after) (hne : strip pfx b ≠ []) :
    coll.call q (some (strip pfx b)) 0 =
      .ok (coll.decodedAll (((coll.listingFrom pfx b.1 q.reverse).filter
          (coll.matching q.predicate)).take q.limit), ⟨(((coll.listingFrom pfx b.1 q.reverse).filter
          (coll.matching q.predicate))[q.limit]?).map (strip pfx), 0⟩) := by
  have hcall := paginate_from q.predicate hwf hb hopt hlimit hne q.countTotal q.reverse
  rw [append_strip h] at hcall
  exact hcall

theorem call_start : ∃ total, coll.call q none 0 =
      .ok (coll.decodedAll ((coll.expected q pfx).take q.limit),
        ⟨(boundary (coll.matching q.predicate) q.countTotal q.limit
          (coll.entriesOf q pfx)).map (strip pfx), total⟩) := by
  obtain ⟨total, hcall, -⟩ := paginate_first q.predicate hwf hb hopt hlimit
    (show (none : Option Bytes).getD [] = [] from rfl) 0 q.countTotal q.reverse
  rw [if_pos (zero_le _), drop_zero] at hcall
  exact ⟨total, hcall⟩

variable {i : Nat}

/-- From a boundary on, the chain returns the rest, if no later page ends at a key that a
matching key extends. -/
theorem chain_complete (hi : 0 < i) (h : coll.entriesOf q pfx = before ++ b :: after)
    (hlen : (before.filter (coll.matching q.predicate)).length = i)
    (hun : q.reverse = true → coll.Unextended q pfx b)
    (hlater : q.reverse = true → ∀ t, 0 < t → ∀ c, (coll.expected q pfx)[i + t * q.limit]? = some c →
      coll.Unextended q pfx c) : ∃ fuel, coll.chain q fuel (some (strip pfx b)) =
      some (coll.decodedAll ((coll.expected q pfx).drop i)) := by
  -- the number of matching entries from the boundary on decreases with every page
  generalize hn : (coll.expected q pfx).length - i = n
  induction n using Nat.strong_induction_on generalizing i before b after with
  | _ n ih =>
    have hpos : before.filter (coll.matching q.predicate) ≠ [] := by
      intro hnil
      rw [hnil, length_nil] at hlen
      omega
    have hcall := call_at hwf hb hopt hlimit h (strip_ne_nil h hpos hun)
    rw [filter_listingFrom h hun, ← drop_expected h hlen, getElem?_drop] at hcall
    cases hnext : (coll.expected q pfx)[i + q.limit]? with
    | none =>
      rw [hnext] at hcall
      have hle := getElem?_eq_none_iff.mp hnext
      have htake : ((coll.expected q pfx).drop i).take q.limit = (coll.expected q pfx).drop i := by
        apply take_of_length_le
        rw [length_drop]
        omega
      rw [htake] at hcall
      exact ⟨1, chain_last hcall 0⟩
    | some c =>
      rw [hnext] at hcall
      obtain ⟨_, -⟩ := List.getElem?_eq_some_iff.mp hnext
      obtain ⟨_, _, hsplit, hlen'⟩ := getElem?_filter_split _ hnext
      obtain ⟨fuel, hfuel⟩ := ih ((coll.expected q pfx).length - (i + q.limit)) (by omega)
        (by omega) hsplit hlen'
        (fun hrev => hlater hrev 1 (by omega) c (by simpa using hnext))
        (fun hrev t ht d hd => hlater hrev (t + 1) (by omega) d (by
          rw [← hd]
          congr 1
          ring)) rfl
      refine ⟨fuel + 1, ?_⟩
      rw [chain_next hcall fuel, hfuel, Option.map_some, ← drop_drop,
        decodedAll_take_append_drop]

/-- One page of a chain that returns the rest: its boundary is not extended, and the chain
from the next boundary returns the rest again. -/
theorem unextended_of_chain (hi : 0 < i) (h : coll.entriesOf q pfx = before ++ b :: after)
    (hlen : (before.filter (coll.matching q.predicate)).length = i) (hrev : q.reverse = true)
    {fuel : Nat} (hall : coll.chain q fuel none = some (coll.decodedAll (coll.expected q pfx)))
    {f : Nat} (hchain : coll.chain q f (some (strip pfx b)) =
      some (coll.decodedAll ((coll.expected q pfx).drop i))) : coll.Unextended q pfx b ∧
      ∀ c, (coll.expected q pfx)[i + q.limit]? = some c → ∃ g, coll.chain q g (some (strip pfx c)) =
          some (coll.decodedAll ((coll.expected q pfx).drop (i + q.limit))) := by
  have hread := expected_readable hwf q pfx
  have hile : i ≤ (coll.expected q pfx).length := by
    rw [expected_split h, length_append]
    omega
  -- an empty key would start the chain again
  have hne : strip pfx b ≠ [] := by
    intro hnil
    rw [hnil, chain_empty_key] at hchain
    have heq := congrArg length (chain_unique hchain hall)
    rw [length_decodedAll hread,
      length_decodedAll fun e he => hread e (mem_of_mem_drop he), length_drop] at heq
    omega
  have hcall := call_at hwf hb hopt hlimit h hne
  cases f with
  | zero => cases hchain
  | succ f =>
    have hun : coll.Unextended q pfx b := by
      intro x hx hext
      by_contra hkey
      have hxb := mem_before_of_extends h hrev hx hext hkey
      -- the first entry of the page is one that was returned before
      obtain ⟨y, ys, hys⟩ : ∃ y ys, (before.filter fun e => b.1.isPrefixOf e.1).filter
          (coll.matching q.predicate) = y :: ys := by
        apply exists_cons_of_ne_nil
        apply ne_nil_of_mem
        rw [mem_filter] at hxb ⊢
        exact ⟨mem_filter.mpr ⟨hxb.1, startsWith_iff.mpr hext⟩, hxb.2⟩
      have hyb : y ∈ before := by
        have : y ∈ y :: ys := mem_cons_self ..
        rw [← hys] at this
        exact mem_of_mem_filter (mem_of_mem_filter this)
      have hyread : coll.Readable y :=
        hwf.listing_readable pfx q.reverse y ((mem_split h).mpr (.inl hyb))
      obtain ⟨kv, -, hkv⟩ := hyread.keyValue
      obtain ⟨n, hn⟩ : ∃ n, q.limit = n + 1 := ⟨q.limit - 1, by omega⟩
      have hhead : (coll.decodedAll ((coll.expected q pfx).drop i)).head? = some kv := by
        rw [listingFrom_split h, if_pos hrev, filter_append, hys, hn, cons_append,
          take_succ_cons, decodedAll, filterMap_cons_some hkv] at hcall
        generalize ((y :: (ys ++ (b :: after).filter (coll.matching q.predicate)))[n + 1]?).map
          (strip pfx) = next at hcall
        cases next with
        | none =>
          rw [chain_last hcall f] at hchain
          rw [← Option.some.inj hchain]
          rfl
        | some =>
          rw [chain_next hcall f] at hchain
          obtain ⟨_, -, hrest⟩ := Option.map_eq_some_iff.mp hchain
          rw [← hrest]
          rfl
      rw [drop_expected h hlen, decodedAll, head?_filterMap] at hhead
      obtain ⟨z, hz, hzkv⟩ := exists_of_findSome?_eq_some hhead
      have hzb := mem_of_mem_filter hz
      have hzread : coll.Readable z :=
        hwf.listing_readable pfx q.reverse z ((mem_split h).mpr (.inr hzb))
      exact key_ne_of_before h hyb hzb (hyread.key_inj hzread (hkv.trans hzkv.symm))
    refine ⟨hun, fun c hc => ?_⟩
    rw [filter_listingFrom h fun _ => hun, ← drop_expected h hlen, getElem?_drop, hc,
      Option.map_some] at hcall
    rw [← drop_drop]
    exact chain_rest hcall hchain

/-- The pages from the empty key return everything that matches exactly when, in reverse, no
page ends at a key that a matching key extends. -/
theorem complete_iff :
    (∃ fuel, coll.chain q fuel none = some (coll.decodedAll (coll.expected q pfx))) ↔
      (q.reverse = true → ∀ c ∈ coll.boundaries q pfx, coll.Unextended q pfx c) := by
  obtain ⟨_, hcall⟩ := call_start hwf hb hopt hlimit
  cases hfirst : boundary (coll.matching q.predicate) q.countTotal q.limit
      (coll.entriesOf q pfx) with
  | none =>
    have hle := boundary_eq_none _ hfirst
    have hle : (coll.expected q pfx).length ≤ q.limit := hle
    rw [hfirst, Option.map_none, take_of_length_le hle] at hcall
    refine iff_of_true ⟨1, chain_last hcall 0⟩ ?_
    intro _ c hc
    rcases mem_boundaries.mp hc with hc | ⟨j, -, hc⟩
    · rw [hfirst] at hc
      cases hc
    · obtain ⟨hlt, -⟩ := List.getElem?_eq_some_iff.mp hc
      nlinarith
  | some b =>
    obtain ⟨_, _, hsplit, hlen⟩ := boundary_split _ hfirst
    rw [hfirst, Option.map_some] at hcall
    constructor
    · rintro ⟨fuel, hall⟩ hrev
      obtain ⟨_, hf⟩ := chain_rest hcall hall
      obtain ⟨hun, hnext⟩ := unextended_of_chain hwf hb hopt hlimit hlimit hsplit hlen hrev hall hf
      -- the chain from each later boundary, by induction on its number
      have hlater : ∀ j c, (coll.expected q pfx)[(j + 2) * q.limit]? = some c →
          ∃ g, coll.chain q g (some (strip pfx c)) =
            some (coll.decodedAll ((coll.expected q pfx).drop ((j + 2) * q.limit))) := by
        intro j
        induction j with
        | zero =>
          intro c hc
          have htwo : (0 + 2) * q.limit = q.limit + q.limit := by ring
          rw [htwo] at hc ⊢
          exact hnext c hc
        | succ j ih =>
          intro c hc
          have hsucc : (j + 1 + 2) * q.limit = (j + 2) * q.limit + q.limit := by ring
          rw [hsucc] at hc ⊢
          have hlt : (j + 2) * q.limit < (coll.expected q pfx).length :=
            (le_add_right ..).trans_lt (List.getElem?_eq_some_iff.mp hc).1
          obtain ⟨_, hg⟩ := ih _ (List.getElem?_eq_getElem hlt)
          obtain ⟨_, _, hsplit', hlen'⟩ :=
            getElem?_filter_split _ (getElem?_eq_getElem hlt)
          have hpos : 0 < (j + 2) * q.limit := mul_pos (by omega) hlimit
          exact (unextended_of_chain hwf hb hopt hlimit hpos hsplit' hlen' hrev hall hg).2 c hc
      intro c hc
      rcases mem_boundaries.mp hc with hc | ⟨j, -, hc⟩
      · rw [hfirst] at hc
        cases hc
        exact hun
      · obtain ⟨_, hg⟩ := hlater j c hc
        obtain ⟨_, _, hsplit', hlen'⟩ := getElem?_filter_split _ hc
        have hpos : 0 < (j + 2) * q.limit := mul_pos (by omega) hlimit
        exact (unextended_of_chain hwf hb hopt hlimit hpos hsplit' hlen' hrev hall hg).1
    · intro hun
      have hlater : q.reverse = true → ∀ t, 0 < t → ∀ c,
          (coll.expected q pfx)[q.limit + t * q.limit]? = some c → coll.Unextended q pfx c := by
        intro hrev t ht c hc
        obtain ⟨t, rfl⟩ : ∃ s, t = s + 1 := ⟨t - 1, by omega⟩
        have hidx : q.limit + (t + 1) * q.limit = (t + 2) * q.limit := by ring
        rw [hidx] at hc
        apply hun hrev c
        obtain ⟨_, -⟩ := List.getElem?_eq_some_iff.mp hc
        exact mem_boundaries.mpr (.inr ⟨t, by nlinarith, hc⟩)
      obtain ⟨fuel, hfuel⟩ := chain_complete hwf hb hopt hlimit hlimit hsplit hlen
        (fun hrev => hun hrev b (mem_boundaries.mpr (.inl hfirst))) hlater
      refine ⟨fuel + 1, ?_⟩
      rw [chain_next hcall fuel, hfuel, Option.map_some, decodedAll_take_append_drop]

theorem call_inside {key : Option Bytes}
    {results : List (K × V)} {res : PageResponse} (h : coll.call q key 0 = .ok (results, res)) :
    ∀ kv ∈ results, kv ∈ coll.decodedAll (coll.entriesOf q pfx) := by
  have hsub : ∃ l, results = coll.decodedAll l ∧ l ⊆ coll.entriesOf q pfx := by
    by_cases hkey : key.getD [] = []
    · obtain ⟨_, hcall, -⟩ := paginate_first q.predicate hwf hb hopt hlimit hkey 0
        q.countTotal q.reverse
      rw [if_pos (zero_le _), drop_zero] at hcall
      obtain ⟨rfl, -⟩ := Prod.mk.inj (Except.ok.inj (h.symm.trans hcall))
      refine ⟨_, rfl, ?_⟩
      exact List.Subset.trans (take_subset _ _) (filter_subset_self _)
    · obtain ⟨start, rfl⟩ : ∃ start, key = some start := by
        cases key with
        | none => exact absurd rfl hkey
        | some start => exact ⟨start, rfl⟩
      have hcall := paginate_from q.predicate hwf hb hopt hlimit hkey q.countTotal q.reverse
      obtain ⟨rfl, -⟩ := Prod.mk.inj (Except.ok.inj (h.symm.trans hcall))
      refine ⟨_, rfl, ?_⟩
      exact List.Subset.trans (take_subset _ _)
        (List.Subset.trans (filter_subset_self _) (filter_subset_self _))
  obtain ⟨_, rfl, hl⟩ := hsub
  intro kv hkv
  obtain ⟨e, he, hdec⟩ := mem_filterMap.mp hkv
  exact mem_filterMap.mpr ⟨e, hl he, hdec⟩

/-- The page at an offset is the slice of what matches exactly when the offset skips matching
entries only, or nothing that matches follows. -/
theorem slice_iff (offset : Nat) : (∃ res, coll.call q none offset =
      .ok (coll.decodedAll (((coll.expected q pfx).drop offset).take q.limit), res)) ↔
      (((coll.entriesOf q pfx).take offset).all (coll.matching q.predicate) = true ∨
        ((coll.entriesOf q pfx).drop offset).filter (coll.matching q.predicate) = []) := by
  obtain ⟨_, hcall, -⟩ := paginate_first q.predicate hwf hb hopt hlimit
    (show (none : Option Bytes).getD [] = [] from rfl) offset q.countTotal q.reverse
  have hcall : coll.call q none offset = _ := hcall
  have hlen : (coll.expected q pfx).length ≤ (coll.entriesOf q pfx).length :=
    length_filter_le ..
  by_cases hle : offset ≤ (coll.entriesOf q pfx).length
  · rw [if_pos hle] at hcall
    generalize hfront : ((coll.entriesOf q pfx).take offset).filter (coll.matching q.predicate) =
      front
    generalize hrest : ((coll.entriesOf q pfx).drop offset).filter (coll.matching q.predicate) =
      rest at hcall ⊢
    have hexp : coll.expected q pfx = front ++ rest := by
      rw [← hfront, ← hrest]
      exact expected_eq_take_append_drop coll q pfx offset
    have hall : ((coll.entriesOf q pfx).take offset).all (coll.matching q.predicate) = true ↔
        front.length = offset := by
      rw [← length_filter_eq_iff_all, hfront, length_take, min_eq_left hle]
    have hfl : front.length ≤ offset := by
      rw [← hfront]
      exact (length_filter_le ..).trans (length_take_le ..)
    rw [hall, hcall, hexp]
    constructor
    · rintro ⟨res, hres⟩
      have hres := (Prod.mk.inj (Except.ok.inj hres)).1
      by_contra hneg
      obtain ⟨_, hne⟩ := not_or.mp hneg
      obtain ⟨x, xs, rfl⟩ := exists_cons_of_ne_nil hne
      obtain ⟨n, hn⟩ : ∃ n, q.limit = n + 1 := ⟨q.limit - 1, by omega⟩
      have hread := expected_readable hwf q pfx
      have hxread : coll.Readable x := hread x (by rw [hexp]; simp)
      obtain ⟨kv, -, hkv⟩ := hxread.keyValue
      -- the first entry of the page stands before the offset
      obtain ⟨d, hd⟩ : ∃ d, offset - front.length = d + 1 := ⟨offset - front.length - 1, by omega⟩
      have hdrop : (front ++ x :: xs).drop offset = xs.drop d := by
        rw [drop_append, drop_of_length_le hfl, hd]
        rfl
      have hmem : kv ∈ coll.decodedAll ((xs.drop d).take q.limit) := by
        rw [← hdrop, ← hres, hn, take_succ_cons, decodedAll, filterMap_cons_some hkv]
        exact mem_cons_self ..
      obtain ⟨y, hy, hykv⟩ := mem_filterMap.mp hmem
      have hyxs : y ∈ xs := mem_of_mem_drop (mem_of_mem_take hy)
      have hyread : coll.Readable y := hread y (by rw [hexp]; simp [hyxs])
      have hpair := expected_pairwise_ne coll q pfx
      rw [hexp] at hpair
      have hne := (pairwise_cons.mp (pairwise_append.mp hpair).2.1).1 y hyxs
      exact hne (hxread.key_inj hyread (hkv.trans hykv.symm))
    · rintro (heq | hnil)
      · rw [← heq, drop_left]
        exact ⟨_, rfl⟩
      · rw [hnil, append_nil, drop_of_length_le hfl]
        exact ⟨_, rfl⟩
  · rw [if_neg hle] at hcall
    refine iff_of_true ⟨⟨none, 0⟩, ?_⟩ (.inr ?_)
    · rw [hcall, drop_of_length_le (by omega), take_nil]
      rfl
    · rw [drop_of_length_le (by omega)]
      rfl

/-- The total is right exactly when the offset skips matching entries only. -/
theorem total_iff (hcount : q.countTotal = true) (offset : Nat) :
    (∃ results res, coll.call q none offset = .ok (results, res) ∧
      res.total = (coll.expected q pfx).length) ↔ if offset ≤ (coll.entriesOf q pfx).length then
        ((coll.entriesOf q pfx).take offset).all (coll.matching q.predicate) = true
      else coll.expected q pfx = [] := by
  obtain ⟨total, hcall, htotal⟩ := paginate_first q.predicate hwf hb hopt hlimit
    (show (none : Option Bytes).getD [] = [] from rfl) offset q.countTotal q.reverse
  have hcall : coll.call q none offset = _ := hcall
  have htotal : total = (((coll.entriesOf q pfx).drop offset).filter
      (coll.matching q.predicate)).length + offset := htotal hcount
  have hexp := congrArg length (expected_eq_take_append_drop coll q pfx offset)
  rw [length_append] at hexp
  by_cases hle : offset ≤ (coll.entriesOf q pfx).length
  · grind [length_filter_eq_iff_all]
  · grind

end Query

section Instances

/-- Keys that are their own encoding, as the string keys of `collections` are. -/
def rawCodec : KeyCodec Bytes :=
  ⟨fun k => .ok k, fun key => .ok (key.length, key)⟩

theorem wellFormed_rawCodec (prefixBytes : Bytes) (entries : OrdMap Bytes V) :
    WellFormed ⟨prefixBytes, rawCodec, entries⟩ :=
  fun key _ _ => ⟨key, rfl, rfl⟩

/-- The keys `a`, `ab` and `ac`. -/
def extendedKeys : Collection Bytes Nat :=
  ⟨[1], rawCodec, ((∅ : OrdMap Bytes Nat).insert [97] 1).insert [97, 98] 2 |>.insert [97, 99] 3⟩

/-- The keys `b`, `c` and `d`. -/
def letters : Collection Bytes Nat :=
  ⟨[1], rawCodec, ((∅ : OrdMap Bytes Nat).insert [98] 1).insert [99] 2 |>.insert [100] 3⟩

def pairsInReverse : PageQuery Bytes Nat :=
  ⟨none, none, true, 2, true⟩

def evenValues : PageQuery Bytes Nat :=
  ⟨none, some (fun _ v => v % 2 = 0), false, 2, true⟩

end Instances

end Collection

end CosmosSDK.Query
