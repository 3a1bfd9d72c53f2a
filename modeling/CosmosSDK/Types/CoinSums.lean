import CosmosSDK.Lib.SortOn
import CosmosSDK.Types.Coin

/-!
# Sums of ordered sets of coins

When sums and differences of sets of coins can be computed: both sets are in order and no
amount of the result leaves its range.
-/

namespace CosmosSDK.Types.Coins

open Math OrderedKV Std Fallible List

variable {ε : Type} {validateDenom : Denom → Bool}

variable {coins coinsB sum : Coins} {denom : Denom}

/-- Sorted by denomination, without repetition. -/
def Ordered (coins : Coins) : Prop :=
  coins.Pairwise (fun a b => compare a.denom b.denom = .lt)

/-- In order of the denominations, which may be repeated. -/
def Sorted (coins : Coins) : Prop := coins.Pairwise (SortOn.le Coin.denom)

theorem isSorted_iff : isSorted coins = true ↔ Sorted coins := by
  unfold Sorted
  fun_induction isSorted coins with
  | case1 a b coins ih =>
    have hle : (decide (compare a.denom b.denom ≠ .gt)) = true ↔ SortOn.le Coin.denom a b := by
      unfold SortOn.le
      cases compare a.denom b.denom <;> simp
    rw [Bool.and_eq_true, ih, hle, ← isChain_iff_pairwise, ← isChain_iff_pairwise, isChain_cons_cons]
  | case2 coins hshort =>
    match coins with
    | [] => simp
    | [_] => simp
    | a :: b :: rest => exact absurd rfl (hshort a b rest)

namespace Ordered

theorem sorted (h : Ordered coins) : Sorted coins :=
  h.imp Ordering.isLE_of_eq_lt

theorem negative (h : Ordered coins) : Ordered (negative coins) :=
  h.map _ (fun _ _ hlt => hlt)

theorem ne_of_mem {coin c : Coin} (h : Ordered (coin :: coins)) (hc : c ∈ coins) :
    coin.denom ≠ c.denom := by
  intro heq
  have hlt := rel_of_pairwise_cons h hc
  rw [heq] at hlt
  exact lt_irrefl c.denom hlt

end Ordered

theorem exists_mem_of_amountIn (h : amountIn coins denom ≠ 0) : ∃ c ∈ coins, c.denom = denom := by
  by_contra hnone
  exact h (amountIn_eq_zero fun c hc heq => hnone ⟨c, hc, heq⟩)

theorem Ordered.amountIn_of_mem (h : Ordered coins) {c : Coin} (hc : c ∈ coins) :
    amountIn coins c.denom = c.amount := by
  induction coins with
  | nil => simp at hc
  | cons coin coins ih =>
    cases mem_cons.mp hc with
    | inl heq =>
      rw [heq, amountIn_cons, if_pos rfl, amountIn_eq_zero fun c' hc' => (h.ne_of_mem hc').symm,
        add_zero]
    | inr hmem => rw [amountIn_cons, if_neg (h.ne_of_mem hmem), ih h.of_cons hmem, zero_add]

theorem Ordered.amountIn_of_prefix (h : Ordered coins) {part : Coins} (hpart : part <+: coins)
    (d : Denom) : amountIn part d = 0 ∨ amountIn part d = amountIn coins d := by
  by_cases hd : amountIn part d = 0
  · exact .inl hd
  · obtain ⟨c, hc, rfl⟩ := exists_mem_of_amountIn hd
    have hordered : Ordered part := h.sublist hpart.sublist
    rw [hordered.amountIn_of_mem hc, h.amountIn_of_mem (hpart.subset hc)]
    exact .inr rfl

/-! ## Valid sets -/

theorem isValidAfter_iff {low : Denom} : isValidAfter validateDenom low coins = true ↔
      Ordered coins ∧ ∀ c ∈ coins,
        compare low c.denom = .lt ∧ validateDenom c.denom = true ∧ 0 < c.amount := by
  induction coins generalizing low with
  | nil => simp [isValidAfter, Ordered]
  | cons coin coins ih =>
    simp only [isValidAfter, Bool.and_eq_true, Coin.isPositive, decide_eq_true_eq, ih,
      forall_mem_cons]
    constructor
    · intro h
      obtain ⟨⟨⟨hdenom, hlow⟩, hpos⟩, hordered, hrest⟩ := h
      refine ⟨pairwise_cons.mpr ⟨fun c hc => (hrest c hc).1, hordered⟩, ⟨hlow, hdenom, hpos⟩,
        fun c hc => ⟨?_, (hrest c hc).2⟩⟩
      exact TransCmp.lt_trans hlow (hrest c hc).1
    · intro h
      obtain ⟨hordered, ⟨hlow, hdenom, hpos⟩, hrest⟩ := h
      exact ⟨⟨⟨hdenom, hlow⟩, hpos⟩, hordered.of_cons,
        fun c hc => ⟨rel_of_pairwise_cons hordered hc, (hrest c hc).2⟩⟩

theorem isValid_iff : isValid validateDenom coins = true ↔
      Ordered coins ∧ ∀ c ∈ coins, validateDenom c.denom = true ∧ 0 < c.amount := by
  cases coins with
  | nil => simp [isValid, Ordered]
  | cons =>
    simp only [isValid, Bool.and_eq_true, Coin.isPositive, decide_eq_true_eq, isValidAfter_iff,
      forall_mem_cons]
    constructor
    · intro h
      obtain ⟨hcoin, hordered, hrest⟩ := h
      exact ⟨pairwise_cons.mpr ⟨fun c hc => (hrest c hc).1, hordered⟩, hcoin,
        fun c hc => (hrest c hc).2⟩
    · intro h
      obtain ⟨hordered, hcoin, hrest⟩ := h
      exact ⟨hcoin, hordered.of_cons,
        fun c hc => ⟨rel_of_pairwise_cons hordered hc, hrest c hc⟩⟩

variable (validateDenom) in
/-- The coins that are not zero are positive, with valid denominations and none twice. -/
structure Clean (coins : Coins) : Prop where
  coin : ∀ c ∈ coins, c.amount ≠ 0 → validateDenom c.denom = true ∧ 0 < c.amount
  once : (coins.filter (fun c => c.amount ≠ 0)).Pairwise (fun c c' => c.denom ≠ c'.denom)

theorem removeZeroCoins_eq (coins : Coins) :
    removeZeroCoins coins = coins.filter (fun c => c.amount ≠ 0) := by
  simp [removeZeroCoins, Coin.isZero]

theorem isValid_sort_iff :
    isValid validateDenom (sort (removeZeroCoins coins)) = true ↔ Clean validateDenom coins := by
  rw [isValid_iff, removeZeroCoins_eq]
  have hperm := sort_perm (coins.filter (fun c => c.amount ≠ 0))
  constructor
  · rintro ⟨hordered, hcoins⟩
    constructor
    · intro c hc hne
      exact hcoins c (hperm.mem_iff.mpr (mem_filter.mpr ⟨hc, by simpa using hne⟩))
    · refine (hperm.pairwise_iff fun h => h.symm).mp (hordered.imp ?_)
      intro a b hlt heq
      rw [heq] at hlt
      exact lt_irrefl b.denom hlt
  · intro hclean
    constructor
    · have hdistinct := (hperm.pairwise_iff fun h => h.symm).mpr hclean.once
      have hle := SortOn.sortOn_pairwise Coin.denom (coins.filter (fun c => c.amount ≠ 0))
      apply (hle.and hdistinct).imp
      rintro a b ⟨hle, hne⟩
      unfold SortOn.le at hle
      cases hcmp : compare a.denom b.denom with
      | lt => rfl
      | eq => exact absurd (eq_of_cmp hcmp) hne
      | gt => simp [hcmp] at hle
    · intro c hc
      obtain ⟨hmem, hne⟩ := mem_filter.mp (hperm.mem_iff.mp hc)
      exact hclean.coin c hmem (by simpa using hne)

theorem newCoins_of_isValid (h : isValid validateDenom coins = true) :
    (newCoins validateDenom coins : Result ε Coins) = .ok coins := by
  obtain ⟨hordered, hcoins⟩ := isValid_iff.mp h
  have hremove : removeZeroCoins coins = coins := by
    apply filter_eq_self.mpr
    intro c hc
    have := (hcoins c hc).2
    simp only [Coin.isZero, Bool.not_eq_true', decide_eq_false_iff_not]
    omega
  have hsort : sort coins = coins := by
    apply List.Pairwise.insertionSort_eq
    exact hordered.imp fun hlt => by rw [hlt]; rfl
  unfold newCoins
  rw [hremove, hsort, if_pos h]

/-! ## Sums -/

theorem coalesced_ordered (uniqCoins : OrdMap Denom Int) : Ordered (coalesced uniqCoins) := by
  apply List.Pairwise.filter
  exact ExtTreeMap.ordered_keys_toList.map _ fun _ _ hlt => hlt

theorem safeAdd_ordered (h : (safeAdd coins coinsB : Result ε Coins) = .ok sum) :
    Ordered sum ∧ ∀ c ∈ sum, c.amount ≠ 0 := by
  simp only [safeAdd, passes] at h
  obtain ⟨_, _, uniqCoins, _, h⟩ := h
  cases h
  refine ⟨coalesced_ordered uniqCoins, fun c hc => ?_⟩
  have hne := (mem_filter.mp hc).2
  simpa [Coin.isZero] using hne

theorem isValid_of_safeAdd (h : (safeAdd coins coinsB : Result ε Coins) = .ok sum)
    (hnonneg : ∀ d, 0 ≤ amountIn sum d) (hcoins : ∀ c ∈ coins, validateDenom c.denom = true)
    (hcoinsB : ∀ c ∈ coinsB, validateDenom c.denom = true) : isValid validateDenom sum = true := by
  obtain ⟨hordered, hne⟩ := safeAdd_ordered h
  refine isValid_iff.mpr ⟨hordered, fun c hc => ?_⟩
  have hamount := hordered.amountIn_of_mem hc
  have hsum := amountIn_safeAdd h c.denom
  have hc0 := hne c hc
  have hpos := hnonneg c.denom
  refine ⟨?_, by omega⟩
  by_cases hfirst : amountIn coins c.denom = 0
  · have hsecond : amountIn coinsB c.denom ≠ 0 := by omega
    obtain ⟨c', hc', heq⟩ := exists_mem_of_amountIn hsecond
    exact heq ▸ hcoinsB c' hc'
  · obtain ⟨c', hc', heq⟩ := exists_mem_of_amountIn hfirst
    exact heq ▸ hcoins c' hc'

/-- The sum of a denomination over the first coins is out of range. -/
def Overflows (coins : Coins) : Prop :=
  ∃ part denom, part <+: coins ∧ 2 ^ maxBitLen ≤ (amountIn part denom).natAbs

/-- The map is built as long as no sum over the first coins leaves the range. -/
theorem addUniqCoins_isOk_iff {m : OrdMap Denom Int}
    (hcoins : ∀ c ∈ coins, c.amount.natAbs < 2 ^ maxBitLen)
    (hm : ∀ d : Denom, ((m[d]?).getD (0 : Int)).natAbs < 2 ^ maxBitLen) :
    (∃ m', (addUniqCoins coins m : Result ε _) = .ok m') ↔
      ∀ part, part <+: coins → ∀ d, ((m[d]?).getD 0 + amountIn part d).natAbs < 2 ^ maxBitLen := by
  induction coins generalizing m with
  | nil => simpa [addUniqCoins] using hm
  | cons c coins ih =>
    have hrest := forall_mem_cons.mp hcoins
    have hparts {m' : OrdMap Denom Int}
        (h : ∀ d, (m'[d]?).getD 0 = (m[d]?).getD 0 + if c.denom = d then c.amount else 0) :
        (∀ part, part <+: coins → ∀ d, ((m'[d]?).getD 0 + amountIn part d).natAbs < 2 ^ maxBitLen) ↔
        ∀ part, part <+: c :: coins → ∀ d,
          ((m[d]?).getD 0 + amountIn part d).natAbs < 2 ^ maxBitLen := by
      simp only [prefix_cons_iff, h]
      constructor
      · rintro hall part (rfl | ⟨part, rfl, hpart⟩) d
        · simpa using hm d
        · simpa [add_assoc] using hall part hpart d
      · intro hall part hpart d
        simpa [add_assoc] using hall (c :: part) (.inr ⟨part, rfl, hpart⟩) d
    have hinsert {amount : Int} (hamount : amount = (m[c.denom]?).getD 0 + c.amount) (d : Denom) :
        ((m.insert c.denom amount)[d]?).getD 0 =
          (m[d]?).getD 0 + if c.denom = d then c.amount else 0 := by
      rw [lookup_insert]
      by_cases hd : c.denom = d
      · subst hd
        simp [hamount]
      · simp [hd, Ne.symm hd]
    have hstep {amount : Int} (hamount : amount = (m[c.denom]?).getD 0 + c.amount)
        (hfits : amount.natAbs < 2 ^ maxBitLen) := (ih hrest.2 (m := m.insert c.denom amount) (by
      intro d
      rw [lookup_insert]
      split
      · exact hfits
      · exact hm d)).trans (hparts (hinsert hamount))
    unfold addUniqCoins
    cases hc : m[c.denom]? with
    | none => exact hstep (by simp [hc]) hrest.1
    | some amount =>
      by_cases hfits : (amount + c.amount).natAbs < 2 ^ maxBitLen
      · have hsum : (addInt amount c.amount : Result ε Int) = .ok (amount + c.amount) :=
          inRange_iff.mpr ⟨hfits, rfl⟩
        simp only [hsum, ok_bind]
        exact hstep (by simp [hc]) hfits
      · constructor
        · rintro ⟨_, h⟩
          obtain ⟨_, hsum, _⟩ := bind_eq_ok.mp h
          exact absurd (inRange_iff.mp hsum).1 hfits
        · intro hall
          have := hall [c] (by simp) c.denom
          simp [hc, hfits] at this

theorem safeAdd_isOk_iff (h : ∀ c ∈ coins ++ coinsB, c.amount.natAbs < 2 ^ maxBitLen) :
    (∃ sum, (safeAdd coins coinsB : Result ε Coins) = .ok sum) ↔
      Sorted coins ∧ Sorted coinsB ∧ ¬ Overflows (coins ++ coinsB) := by
  have hmap := addUniqCoins_isOk_iff (ε := ε) (m := ∅) h (by simp [maxBitLen])
  simp only [ExtTreeMap.getElem?_empty, Option.getD_none, zero_add] at hmap
  simp only [safeAdd, passes, Bool.not_eq_true', Bool.not_eq_false, isSorted_iff, Overflows,
    not_exists, not_and, Nat.not_le]
  constructor
  · rintro ⟨_, hcoins, hcoinsB, m, hm, -⟩
    exact ⟨hcoins, hcoinsB, fun part d hpart => hmap.mp ⟨m, hm⟩ part hpart d⟩
  · rintro ⟨hcoins, hcoinsB, hparts⟩
    obtain ⟨m, hm⟩ := hmap.mpr fun part hpart d => hparts part d hpart
    exact ⟨_, hcoins, hcoinsB, m, hm, rfl⟩

theorem Ordered.natAbs_lt (h : Ordered coins) (hbound : ∀ d, (amountIn coins d).natAbs < 2 ^ maxBitLen) :
    ∀ c ∈ coins, c.amount.natAbs < 2 ^ maxBitLen := by
  intro c hc
  rw [← h.amountIn_of_mem hc]
  exact hbound c.denom

theorem safeAdd_of_bounded (hcoins : Ordered coins) (hcoinsB : Ordered coinsB)
    (hfirst : ∀ d, (amountIn coins d).natAbs < 2 ^ maxBitLen)
    (hsecond : ∀ d, (amountIn coinsB d).natAbs < 2 ^ maxBitLen)
    (hbound : ∀ d, (amountIn coins d + amountIn coinsB d).natAbs < 2 ^ maxBitLen) :
    ∃ sum, (safeAdd coins coinsB : Result ε Coins) = .ok sum := by
  apply (safeAdd_isOk_iff (forall_mem_append.mpr
    ⟨hcoins.natAbs_lt hfirst, hcoinsB.natAbs_lt hsecond⟩)).mpr
  refine ⟨hcoins.sorted, hcoinsB.sorted, ?_⟩
  rintro ⟨part, d, ⟨rest, hpart⟩, hover⟩
  have hsum := hbound d
  have hleft := hfirst d
  rcases append_eq_append_iff.mp hpart with ⟨more, hcut, -⟩ | ⟨part, rfl, hcut⟩
  · rcases hcoins.amountIn_of_prefix ⟨more, hcut.symm⟩ d with heq | heq <;> omega
  · rw [amountIn_append] at hover
    rcases hcoinsB.amountIn_of_prefix ⟨rest, hcut.symm⟩ d with heq | heq <;> omega

/-! ## Differences -/

theorem safeSub_of_le {coinsB' : Coins} (hcoins : Ordered coins)
    (hnew : (newCoins validateDenom coinsB : Result ε Coins) = .ok coinsB')
    (hle : ∀ d, amountIn coinsB d ≤ amountIn coins d) (hbound : ∀ d, amountIn coins d < 2 ^ 256) :
    ∃ diff, (safeSub validateDenom coins coinsB : Result ε _) = .ok (diff, false) ∧ Ordered diff ∧
      ((∀ c ∈ coins, validateDenom c.denom = true) → isValid validateDenom diff = true) := by
  obtain ⟨hvalid, hamount⟩ := newCoins_ok hnew
  have hB (d : Denom) : 0 ≤ amountIn coinsB' d := amountIn_nonneg_of_isValid hvalid d
  obtain ⟨diff, hdiff⟩ : ∃ diff, (safeAdd coins (Coins.negative coinsB') : Result ε Coins) = .ok diff := by
    apply safeAdd_of_bounded hcoins (isValid_iff.mp hvalid).1.negative
    all_goals
      intro d
      have := hle d
      have := hbound d
      have := hB d
      rw [hamount] at this
      simp only [amountIn_negative, hamount, maxBitLen]
      omega
  have hnonneg (d : Denom) : 0 ≤ amountIn diff d := by
    have := hle d
    rw [amountIn_safeAdd hdiff, amountIn_negative, hamount]
    omega
  have hneg : isAnyNegative diff = false := by
    by_contra hneg
    obtain ⟨d, _⟩ := exists_neg_of_isAnyNegative hdiff (Bool.not_eq_false _ ▸ hneg)
    have := hnonneg d
    omega
  refine ⟨diff, ?_, (safeAdd_ordered hdiff).1, fun hdenoms => ?_⟩
  · unfold safeSub
    rw [hnew, ok_bind, hdiff, ok_bind, hneg]
  · apply isValid_of_safeAdd hdiff hnonneg hdenoms
    intro c hc
    obtain ⟨c', hc', rfl⟩ := mem_map.mp hc
    exact ((isValid_iff.mp hvalid).2 c' hc').1

end CosmosSDK.Types.Coins
