import CosmosSDK.Store.KVStore

/-!
# The window of dirty keys to sort

Above `minSortSize` unsorted keys, `dirtyItems` sorts them all and looks for the
part that an iterator needs with two binary searches, `findStartIndex` and
`findEndIndex`, and then widens that part.  The searches use indices that may
become `-1`, as the source's `int` does.
-/

namespace CosmosSDK.CacheKV

open Std OrderedKV Store

/-- The strings of a slice are strictly ascending. -/
abbrev Ascending (strL : List Bytes) : Prop := strL.Pairwise (fun a b => compare a b = .lt)

/-! ## findStartIndex -/

/-- The inner loop, from index `n - 1` down: the first index above a string that differs. -/
def scanDifferent (strL : List Bytes) (midStr : Bytes) : Nat → Int
  | 0 => 0
  | i + 1 => if strL.getD i [] ≠ midStr then i + 1 else scanDifferent strL midStr i

def findStartLoop (strL : List Bytes) (startQ : Bytes) (left right : Int) : Int :=
  if left ≤ right then
    let mid := (left + right) / 2
    let midStr := strL.getD mid.toNat []
    if midStr = startQ then scanDifferent strL midStr mid.toNat
    else if compare midStr startQ = .lt then findStartLoop strL startQ (mid + 1) right
    else findStartLoop strL startQ left (mid - 1)
  else if 0 ≤ left ∧ left < strL.length ∧ (compare startQ (strL.getD left.toNat [])).isLE then left
  else -1
termination_by (right + 1 - left).toNat

def findStartIndex (strL : List Bytes) (startQ : Bytes) : Int :=
  if strL.length = 0 then -1 else findStartLoop strL startQ 0 (strL.length - 1)

/-! ## findEndIndex -/

/-- The inner loop, from index `n - 1` down: the first index above a smaller string. -/
def scanSmaller (strL : List Bytes) (midStr : Bytes) : Nat → Int
  | 0 => 0
  | i + 1 =>
    if compare (strL.getD i []) midStr = .lt then i + 1 else scanSmaller strL midStr i

/-- The loop after the search, from index `n - 1` down: the last string below `endQ`. -/
def lastBelow (strL : List Bytes) (endQ : Bytes) : Nat → Int
  | 0 => -1
  | i + 1 => if compare (strL.getD i []) endQ = .lt then i else lastBelow strL endQ i

def findEndLoop (strL : List Bytes) (endQ : Bytes) (left right : Int) : Int :=
  if left ≤ right then
    let mid := (left + right) / 2
    let midStr := strL.getD mid.toNat []
    if midStr = endQ then scanSmaller strL midStr mid.toNat
    else if compare midStr endQ = .lt then findEndLoop strL endQ (mid + 1) right
    else findEndLoop strL endQ left (mid - 1)
  else lastBelow strL endQ (right + 1).toNat
termination_by (right + 1 - left).toNat

def findEndIndex (strL : List Bytes) (endQ : Bytes) : Int :=
  if strL.length = 0 then -1 else findEndLoop strL endQ 0 (strL.length - 1)

/-! ## The window -/

def minSortSize : Int := 1024

def searchStart (strL : List Bytes) (start : Option Bytes) : Int :=
  let startIndex := findStartIndex strL (start.getD [])
  if startIndex < 0 then 0 else startIndex

def searchEnd (strL : List Bytes) : Option Bytes → Int
  | none => strL.length - 1
  | some e =>
    let endIndex := findEndIndex strL e
    if endIndex < 0 then strL.length - 1 else endIndex

/-- The part to process is widened to `minSortSize` where there are enough keys. -/
def widen (n startIndex endIndex : Int) : Int × Int :=
  if endIndex - startIndex < minSortSize then
    let endIndex := min (startIndex + minSortSize) (n - 1)
    if endIndex - startIndex < minSortSize then (max (endIndex - minSortSize) 0, endIndex)
    else (startIndex, endIndex)
  else (startIndex, endIndex)

/-- The indices `startIndex` and `endIndex` that `dirtyItems` settles on. -/
def sortWindow (strL : List Bytes) (start stop : Option Bytes) : Int × Int :=
  widen strL.length (searchStart strL start) (searchEnd strL stop)

/-! ## What the searches find -/

section Search

variable {strL : List Bytes} {i : Nat} {x : Bytes} {start stop : Option Bytes}

theorem getD_of_getElem? (h : strL[i]? = some x) : strL.getD i [] = x := by
  simp [List.getD, h]

theorem getElem?_getD (h : i < strL.length) : strL[i]? = some (strL.getD i []) := by
  simp [List.getD, h]

theorem Ascending.lt {j : Nat} {y : Bytes} (hs : Ascending strL) (hx : strL[i]? = some x)
    (hy : strL[j]? = some y) (hij : i < j) : compare x y = .lt := by
  obtain ⟨hi, rfl⟩ := List.getElem?_eq_some_iff.mp hx
  obtain ⟨hj, rfl⟩ := List.getElem?_eq_some_iff.mp hy
  exact List.pairwise_iff_getElem.mp hs i j hi hj hij

variable (strL) in
theorem scanDifferent_le (midStr : Bytes) (n : Nat) : scanDifferent strL midStr n ≤ n := by
  induction n with
  | zero => simp [scanDifferent]
  | succ =>
    simp only [scanDifferent]
    split
    · simp
    · omega

theorem findStartLoop_below (hs : Ascending strL) (startQ : Bytes) (left right : Int)
    (hleft : 0 ≤ left) (hright : right < strL.length)
    (hbelow : ∀ (i : Nat) (x : Bytes), strL[i]? = some x → (i : Int) < left → compare x startQ = .lt) :
    ∀ (i : Nat) (x : Bytes), strL[i]? = some x → (i : Int) < findStartLoop strL startQ left right →
      compare x startQ = .lt := by
  fun_induction findStartLoop strL startQ left right with
  | case1 left right hle mid midStr heq =>
    intro i x hx hi
    have hmid : strL[mid.toNat]? = some midStr := getElem?_getD (by omega)
    have hscan := scanDifferent_le strL midStr mid.toNat
    rw [← heq]
    exact hs.lt hx hmid (by omega)
  | case2 left right hle mid midStr hne hlt ih =>
    have hmid : strL[mid.toNat]? = some midStr := getElem?_getD (by omega)
    refine ih (by omega) hright ?_
    intro i x hx hi
    by_cases him : i = mid.toNat
    · subst him
      rw [← Option.mem_unique hmid hx]
      exact hlt
    · exact TransCmp.lt_trans (hs.lt hx hmid (by omega)) hlt
  | case3 left right hle mid midStr hne hlt ih => exact ih hleft (by omega) hbelow
  | case4 left right hle hfound => exact hbelow
  | case5 left right hle hfound =>
    intro i x _ hi
    omega

theorem scanSmaller_eq (hs : Ascending strL) {mid : Nat} {midStr : Bytes}
    (hmid : strL[mid]? = some midStr) : scanSmaller strL midStr mid = mid := by
  cases mid with
  | zero => rfl
  | succ n =>
    have hlen : n + 1 < strL.length := (List.getElem?_eq_some_iff.mp hmid).1
    have hlt := hs.lt (getElem?_getD (by omega : n < strL.length)) hmid (Nat.lt_succ_self n)
    simp only [scanSmaller, if_pos hlt]
    rfl

theorem lastBelow_above (endQ : Bytes) (n : Nat) :
    ∀ (i : Nat) (x : Bytes), strL[i]? = some x → i < n → lastBelow strL endQ n < i →
      (compare endQ x).isLE = true := by
  induction n with
  | zero =>
    intro i x _ hi
    omega
  | succ n ih =>
    intro i x hx hi hlast
    simp only [lastBelow] at hlast
    split at hlast
    · omega
    · rename_i hge
      by_cases hin : i = n
      · subst hin
        rw [getD_of_getElem? hx] at hge
        rw [OrientedOrd.eq_swap]
        cases hc : compare x endQ <;> simp_all
      · exact ih i x hx (by omega) hlast

variable (hs : Ascending strL)
include hs

theorem findEndLoop_above (endQ : Bytes) (left right : Int)
    (hleft : 0 ≤ left) (hright : right < strL.length)
    (habove : ∀ (i : Nat) (x : Bytes), strL[i]? = some x → right < (i : Int) → (compare endQ x).isLE = true) :
    ∀ (i : Nat) (x : Bytes), strL[i]? = some x → findEndLoop strL endQ left right < (i : Int) →
      (compare endQ x).isLE = true := by
  fun_induction findEndLoop strL endQ left right with
  | case1 left right hle mid midStr heq =>
    intro i x hx hi
    have hmid : strL[mid.toNat]? = some midStr := getElem?_getD (by omega)
    rw [scanSmaller_eq hs hmid] at hi
    rw [← heq]
    exact Ordering.isLE_of_eq_lt (hs.lt hmid hx (by omega))
  | case2 left right hle mid midStr hne hlt ih => exact ih (by omega) hright habove
  | case3 left right hle mid midStr hne hge ih =>
    have hmid : strL[mid.toNat]? = some midStr := getElem?_getD (by omega)
    refine ih hleft (by omega) ?_
    intro i x hx hi
    have hq : (compare endQ midStr).isLE = true := by
      rw [OrientedOrd.eq_swap]
      cases hc : compare midStr endQ <;> simp_all
    by_cases him : i = mid.toNat
    · subst him
      rw [← Option.mem_unique hmid hx]
      exact hq
    · exact TransCmp.isLE_trans hq (Ordering.isLE_of_eq_lt (hs.lt hmid hx (by omega)))
  | case4 left right hle =>
    intro i x hx hi
    by_cases hir : (i : Int) ≤ right
    · exact lastBelow_above endQ _ i x hx (by omega) hi
    · exact habove i x hx (by omega)

theorem findStartIndex_below (startQ : Bytes) (hx : strL[i]? = some x)
    (hi : (i : Int) < findStartIndex strL startQ) : compare x startQ = .lt := by
  unfold findStartIndex at hi
  split at hi
  · omega
  · exact findStartLoop_below hs startQ 0 _ (by omega) (by omega)
      (fun _ _ _ hlt => by omega) i x hx hi

theorem findEndIndex_above (endQ : Bytes) (hx : strL[i]? = some x)
    (hi : findEndIndex strL endQ < (i : Int)) : (compare endQ x).isLE = true := by
  have hlen : i < strL.length := (List.getElem?_eq_some_iff.mp hx).1
  unfold findEndIndex at hi
  rw [if_neg (by omega)] at hi
  refine findEndLoop_above hs endQ 0 _ (by omega) (by omega) ?_ i x hx hi
  intro j y hy hj
  have hj' : j < strL.length := (List.getElem?_eq_some_iff.mp hy).1
  omega

omit hs

theorem not_lt_of_fromStart (h : fromStart start x = true) : compare x (start.getD []) ≠ .lt := by
  intro hlt
  cases start with
  | none => cases x <;> simp [compare, List.compareLex] at hlt
  | some s =>
    have hgt : compare s x = .gt := OrientedCmp.gt_iff_lt.mpr hlt
    simp [fromStart, hgt] at h

theorem searchStart_le (hs : Ascending strL) (hx : strL[i]? = some x)
    (hr : fromStart start x = true) : searchStart strL start ≤ i := by
  have hfound : findStartIndex strL (start.getD []) ≤ i := by
    by_contra hi
    exact not_lt_of_fromStart hr (findStartIndex_below hs _ hx (by omega))
  simp only [searchStart]
  split <;> omega

theorem le_searchEnd (hs : Ascending strL) (hx : strL[i]? = some x) (hr : beforeStop stop x = true) :
    (i : Int) ≤ searchEnd strL stop := by
  have hlen : i < strL.length := (List.getElem?_eq_some_iff.mp hx).1
  cases stop with
  | none =>
    simp only [searchEnd]
    omega
  | some e =>
    have hfound : (i : Int) ≤ findEndIndex strL e := by
      by_contra hi
      have hle := findEndIndex_above hs e hx (by omega)
      have hlt : compare x e = .lt := by simpa [beforeStop] using hr
      simp [OrientedCmp.gt_iff_lt.mpr hlt] at hle
    simp only [searchEnd]
    split <;> omega

theorem widen_covers {n startIndex endIndex : Int} {i : Int} (h0 : 0 ≤ i) (hn : i < n)
    (hs : startIndex ≤ i) (he : i ≤ endIndex) :
    (widen n startIndex endIndex).1 ≤ i ∧ i ≤ (widen n startIndex endIndex).2 := by
  grind [widen]

theorem sortWindow_covers (hs : Ascending strL) (hx : strL[i]? = some x)
    (hr : inRange start stop x = true) :
    (sortWindow strL start stop).1 ≤ i ∧ (i : Int) ≤ (sortWindow strL start stop).2 := by
  have hlen : i < strL.length := (List.getElem?_eq_some_iff.mp hx).1
  obtain ⟨hfrom, hbefore⟩ : fromStart start x = true ∧ beforeStop stop x = true := by
    simpa [inRange] using hr
  exact widen_covers (by omega) (by omega) (searchStart_le hs hx hfrom) (le_searchEnd hs hx hbefore)

end Search

end CosmosSDK.CacheKV
