import CosmosSDK.Mempool.PriorityNonce
import Mathlib.Data.Prod.Lex

/-!
# The indices of the mempool describe one set of transactions

`Consistent` says what the four maps have to do with each other.  A transaction that is put
under a key of its own, or under the key it has with another weight, and one that is taken
out keep it; so do `Insert` (when a replaced transaction keeps its priority), `Remove` and
`Select`.
-/

namespace CosmosSDK.Mempool

open SkipList Function TxMeta List.Pairwise Option

variable {Ctx Tx C S : Type} {a b : TxMeta C S}

/-! ## The two orders -/

instance : Std.TransCmp (nonceOrder (C := C) (S := S)) :=
  inferInstanceAs (Std.TransCmp (compareOn (nonce (C := C) (S := S))))

theorem nonceOrder_eq_eq : nonceOrder a b = .eq ↔ a.nonce = b.nonce := by
  simp [nonceOrder, compareOn]

theorem nonceOrder_eq_lt : nonceOrder a b = .lt ↔ a.nonce < b.nonce := by
  simp only [nonceOrder, compareOn, compare_lt_iff_lt]

variable [LinearOrder C] [LinearOrder S]

instance : Std.TransCmp (priorityOrder (C := C) (S := S)) :=
  show Std.TransCmp fun a b => compareLex (compareOn priority)
    (compareLex (compareOn weight) (compareLex (compareOn sender)
      (compareOn nonce))) b a from Std.TransCmp.opposite

theorem priorityOrder_eq_eq : priorityOrder a b = .eq ↔ a = b := by
  simp only [priorityOrder, compareLex_eq_eq, compareOn, compare_eq_iff_eq]
  constructor
  · rintro ⟨hp, hw, hs, hn⟩
    cases a
    cases b
    simp_all
  · rintro rfl
    exact ⟨rfl, rfl, rfl, rfl⟩

def TxMeta.value (k : TxMeta C S) : C ×ₗ C := toLex (k.priority, k.weight)

theorem value_le_of_lt (h : priorityOrder a b = .lt) : b.value ≤ a.value := by
  rw [value, value, Prod.Lex.toLex_le_toLex]
  simp only [priorityOrder, compareLex, compareOn, Ordering.then_eq_lt, compare_lt_iff_lt,
    compare_eq_iff_eq] at h
  rcases h with hp | ⟨hp, hw | ⟨hw, -⟩⟩
  · exact .inl hp
  · exact .inr ⟨hp, le_of_lt hw⟩
  · exact .inr ⟨hp, le_of_eq hw⟩

variable [Inhabited C]

namespace PriorityNonceMempool

/-! ## Consistency -/

/-- The sender index holds the transaction, under the key it was inserted with. -/
def Lists (mp : PriorityNonceMempool C S Tx) (s : S) (n : Nat) (p : C) (tx : Tx) : Prop :=
  ∃ l, mp.senderIndices s = some l ∧ ((⟨n, p, s, default⟩ : TxMeta C S), tx) ∈ l

structure Consistent (mp : PriorityNonceMempool C S Tx) : Prop where
  ordered : SkipList.Sorted priorityOrder mp.priorityIndex
  senderOrdered : ∀ s l, mp.senderIndices s = some l → SkipList.Sorted nonceOrder l
  own : ∀ s l, mp.senderIndices s = some l → ∀ e ∈ l, e.1.sender = s ∧ e.1.weight = default
  /-- a transaction is in the priority index under the priority and the weight of its score -/
  scored : ∀ k : TxMeta C S, (∃ tx, (k, tx) ∈ mp.priorityIndex) ↔
    mp.scores k.id = some ⟨k.priority, k.weight⟩
  /-- the priority index and the sender indices hold the same transactions -/
  listed : ∀ s n p tx, (∃ w, ((⟨n, p, s, w⟩ : TxMeta C S), tx) ∈ mp.priorityIndex) ↔
    mp.Lists s n p tx
  counted : ∀ c, mp.priorityCounts c =
    (mp.priorityIndex.countP (fun e => decide (e.1.priority = c)) : Nat)

theorem new_consistent : (new : PriorityNonceMempool C S Tx).Consistent where
  ordered := nil
  senderOrdered := by simp [new]
  own := by simp [new]
  scored := by simp [new]
  listed := by simp [new, Lists]
  counted := by simp [new]

section Facts

variable {mp mp' : PriorityNonceMempool C S Tx}

theorem Consistent.key_unique (h : mp.Consistent) {a b : TxMeta C S × Tx}
    (ha : a ∈ mp.priorityIndex) (hb : b ∈ mp.priorityIndex) (hid : a.1.id = b.1.id) : a = b := by
  have hsa := (h.scored a.1).mp ⟨a.2, ha⟩
  have hsb := (h.scored b.1).mp ⟨b.2, hb⟩
  rw [hid, hsb] at hsa
  have hscore := some.inj hsa
  have hkey : a.1 = b.1 := by
    obtain ⟨⟨_, _, _, _⟩, _⟩ := a
    obtain ⟨⟨_, _, _, _⟩, _⟩ := b
    simp only [TxMeta.id, Prod.mk.injEq, Score.mk.injEq] at hid hscore
    simp only [TxMeta.mk.injEq]
    exact ⟨hid.2, hscore.1.symm, hid.1, hscore.2.symm⟩
  exact h.ordered.eq_of_eq ha hb (priorityOrder_eq_eq.mpr hkey)

variable {k : TxMeta C S} {tx : Tx} {e : TxMeta C S × Tx} {l : List (TxMeta C S × Tx)} {s : S}
  {n : Nat}

omit [Inhabited C] in
theorem absent_of_id_ne (h : ∀ e ∈ l, e.1.id ≠ k.id) : ∀ e ∈ l, priorityOrder k e.1 ≠ .eq := by
  intro e he heq
  exact h e he (by rw [priorityOrder_eq_eq.mp heq])

section

variable (h : mp.Consistent)
include h

theorem Consistent.lists_of_mem (hl : mp.senderIndices s = some l) (he : e ∈ l) :
    mp.Lists s e.1.nonce e.1.priority e.2 := by
  obtain ⟨hs, hw⟩ := h.own s l hl e he
  refine ⟨l, hl, ?_⟩
  obtain ⟨⟨_, _, _, _⟩, _⟩ := e
  simp only at hs hw ⊢
  rwa [← hs, ← hw]

theorem Consistent.lists_unique {p q : C} {t u : Tx} (ht : mp.Lists s n p t)
    (hu : mp.Lists s n q u) : p = q ∧ t = u := by
  obtain ⟨l, hl, ht⟩ := ht
  obtain ⟨l', hl', hu⟩ := hu
  obtain rfl : l = l' := some.inj (hl.symm.trans hl')
  have heq := (h.senderOrdered s l hl).eq_of_eq ht hu (nonceOrder_eq_eq.mpr rfl)
  simp only [Prod.mk.injEq, TxMeta.mk.injEq] at heq
  exact ⟨heq.1.2.1, heq.2⟩

theorem Consistent.mem_of_score {score : Score C} (hscore : mp.scores (s, n) = some score) :
    ∃ tx, ((⟨n, score.priority, s, score.weight⟩ : TxMeta C S), tx) ∈ mp.priorityIndex :=
  (h.scored ⟨n, score.priority, s, score.weight⟩).mpr hscore

theorem Consistent.score_eq_none (hscore : mp.scores k.id = none) :
    ∀ e ∈ mp.priorityIndex, e.1.id ≠ k.id := by
  intro e he hid
  have := (h.scored e.1).mp ⟨e.2, he⟩
  rw [hid, hscore] at this
  cases this

/-- A transaction is put under a key, in place of the one with its sender and nonce. -/
theorem Consistent.put (hordered : SkipList.Sorted priorityOrder mp'.priorityIndex)
    (hsender : ∀ s l, mp'.senderIndices s = some l → SkipList.Sorted nonceOrder l)
    (hown : ∀ s l, mp'.senderIndices s = some l →
      ∀ e ∈ l, e.1.sender = s ∧ e.1.weight = default) (hindex : ∀ e, e ∈ mp'.priorityIndex ↔
      e = (k, tx) ∨ (e ∈ mp.priorityIndex ∧ e.1.id ≠ k.id)) (hlists : ∀ s n p t, mp'.Lists s n p t ↔
      ((s, n) = k.id ∧ p = k.priority ∧ t = tx) ∨ ((s, n) ≠ k.id ∧ mp.Lists s n p t))
    (hscores : mp'.scores = update mp.scores k.id (some ⟨k.priority, k.weight⟩))
    (hcounts : ∀ c, mp'.priorityCounts c =
      (mp'.priorityIndex.countP (fun e => decide (e.1.priority = c)) : Nat)) : mp'.Consistent where
  ordered := hordered
  senderOrdered := hsender
  own := hown
  scored := by
    intro k'
    rw [hscores]
    by_cases hid : k'.id = k.id
    · rw [hid, update_self]
      constructor
      · rintro ⟨t, ht⟩
        rcases (hindex _).mp ht with heq | ⟨-, hne⟩
        · rw [(Prod.mk.inj heq).1]
        · exact absurd hid hne
      · intro hscore
        refine ⟨tx, (hindex _).mpr (.inl ?_)⟩
        obtain ⟨_, _, _, _⟩ := k'
        obtain ⟨n, p, s, w⟩ := k
        simp only [TxMeta.id, Prod.mk.injEq, some.injEq, Score.mk.injEq] at hid hscore
        simp only [hid, hscore]
    · rw [update_of_ne hid, ← h.scored k']
      constructor
      · rintro ⟨t, ht⟩
        rcases (hindex _).mp ht with heq | ⟨ht, -⟩
        · exact absurd (by rw [(Prod.mk.inj heq).1]) hid
        · exact ⟨t, ht⟩
      · rintro ⟨t, ht⟩
        exact ⟨t, (hindex _).mpr (.inr ⟨ht, hid⟩)⟩
  listed := by
    intro s n p t
    rw [hlists]
    by_cases hid : (s, n) = k.id
    · constructor
      · rintro ⟨w, hw⟩
        rcases (hindex _).mp hw with heq | ⟨-, hne⟩
        · obtain ⟨hk, ht⟩ := Prod.mk.inj heq
          exact .inl ⟨hid, by rw [← hk], ht⟩
        · exact absurd hid hne
      · rintro (⟨-, hp, ht⟩ | ⟨hne, -⟩)
        · refine ⟨k.weight, (hindex _).mpr (.inl ?_)⟩
          obtain ⟨_, _, _, _⟩ := k
          simp only [TxMeta.id, Prod.mk.injEq] at hid
          simp only [hid, hp, ht]
        · exact absurd hid hne
    · constructor
      · rintro ⟨w, hw⟩
        rcases (hindex _).mp hw with heq | ⟨hw, -⟩
        · exact absurd (by rw [← (Prod.mk.inj heq).1]; rfl) hid
        · exact .inr ⟨hid, (h.listed s n p t).mp ⟨w, hw⟩⟩
      · rintro (⟨heq, -⟩ | ⟨-, hlist⟩)
        · exact absurd heq hid
        · obtain ⟨w, hw⟩ := (h.listed s n p t).mpr hlist
          exact ⟨w, (hindex _).mpr (.inr ⟨hw, hid⟩)⟩
  counted := hcounts

end

theorem Consistent.senderIndex_sorted (h : mp.Consistent) (s : S) :
    SkipList.Sorted nonceOrder ((mp.senderIndices s).getD []) := by
  cases hl : mp.senderIndices s with
  | none => exact nil
  | some l => exact h.senderOrdered s l hl

theorem Consistent.mem_senderIndex (h : mp.Consistent) {s : S} {e : TxMeta C S × Tx}
    (he : e ∈ (mp.senderIndices s).getD []) :
    mp.Lists s e.1.nonce e.1.priority e.2 ∧ e.1.sender = s ∧ e.1.weight = default := by
  cases hl : mp.senderIndices s with
  | none => simp [hl] at he
  | some l =>
    rw [hl] at he
    exact ⟨h.lists_of_mem hl he, h.own s l hl e he⟩

end Facts

variable [Operations]

/-! ## Insert -/

section Insert

variable {mp : PriorityNonceMempool C S Tx} {tx : Tx} {k : TxMeta C S} {e : TxMeta C S × Tx}

theorem Consistent.mem_unindex (h : mp.Consistent) (hk : (k, tx) ∈ mp.priorityIndex) :
    e ∈ SkipList.remove priorityOrder k mp.priorityIndex ↔
      e ∈ mp.priorityIndex ∧ e.1.id ≠ k.id := by
  rw [mem_remove h.ordered, ne_eq, priorityOrder_eq_eq]
  constructor
  · rintro ⟨he, hne⟩
    refine ⟨he, fun hid => hne ?_⟩
    rw [h.key_unique he hk hid]
  · rintro ⟨he, hne⟩
    refine ⟨he, fun heq => hne ?_⟩
    rw [heq]

/-- Setting a key in its sender index replaces the transaction of the same nonce; the key
stays the one it was, so its priority has to be the same. -/
theorem Consistent.mem_setSender (h : mp.Consistent) {key : TxMeta C S}
    (hweight : key.weight = default)
    (hkeeps : ∀ p t, mp.Lists key.sender key.nonce p t → p = key.priority) {e : TxMeta C S × Tx} :
    e ∈ set nonceOrder key tx ((mp.senderIndices key.sender).getD []) ↔
      e = (key, tx) ∨ (e ∈ (mp.senderIndices key.sender).getD [] ∧ e.1.nonce ≠ key.nonce) := by
  by_cases hfound : ∃ a ∈ (mp.senderIndices key.sender).getD [], a.1.nonce = key.nonce
  · obtain ⟨a, ha, hnonce⟩ := hfound
    rw [mem_set_of_present (h.senderIndex_sorted key.sender) ha
      (nonceOrder_eq_eq.mpr hnonce.symm), ne_eq, nonceOrder_eq_eq, eq_comm (a := key.nonce)]
    have hkey : a.1 = key := by
      obtain ⟨hlist, hs, hw⟩ := h.mem_senderIndex ha
      have hp := hkeeps _ _ (hnonce ▸ hlist)
      obtain ⟨⟨_, _, _, _⟩, _⟩ := a
      obtain ⟨_, _, _, _⟩ := key
      simp only at hs hw hp hnonce hweight
      simp only [hs, hw, hp, hnonce, hweight]
    rw [hkey]
  · have habsent : ∀ a ∈ (mp.senderIndices key.sender).getD [], a.1.nonce ≠ key.nonce :=
      fun a ha hnonce => hfound ⟨a, ha, hnonce⟩
    rw [mem_set_of_absent (h.senderIndex_sorted key.sender)
      fun a ha heq => habsent a ha (nonceOrder_eq_eq.mp heq).symm]
    constructor
    · rintro (he | he)
      · exact .inl he
      · exact .inr ⟨he, habsent e he⟩
    · rintro (he | ⟨he, -⟩)
      · exact .inl he
      · exact .inr he

/-- The end of `Insert`, after the old key of the transaction was taken out of the priority
index. -/
theorem Consistent.store (h : mp.Consistent) (key : TxMeta C S) (tx : Tx)
    (hweight : key.weight = default)
    (hkeeps : ∀ p t, mp.Lists key.sender key.nonce p t → p = key.priority)
    {index : List (TxMeta C S × Tx)} {counts : C → Int}
    (hindex : ∀ e, e ∈ index ↔ e ∈ mp.priorityIndex ∧ e.1.id ≠ key.id)
    (hsorted : SkipList.Sorted priorityOrder index)
    (hcounts : ∀ c, counts c = (index.countP (fun e => decide (e.1.priority = c)) : Nat)) :
    (PriorityNonceMempool.store { mp with priorityIndex := index, priorityCounts := counts }
      ((mp.senderIndices key.sender).getD []) key tx).Consistent := by
  have habsent := absent_of_id_ne fun e he => ((hindex e).mp he).2
  have hsender : ∀ s, (PriorityNonceMempool.store
      { mp with priorityIndex := index, priorityCounts := counts }
      ((mp.senderIndices key.sender).getD []) key tx).senderIndices s =
        if s = key.sender then
          some (set nonceOrder key tx ((mp.senderIndices key.sender).getD []))
        else mp.senderIndices s :=
    update_apply _ _ _
  have hmem : ∀ e, e ∈ set priorityOrder key tx index ↔
      e = (key, tx) ∨ (e ∈ mp.priorityIndex ∧ e.1.id ≠ key.id) := by
    intro e
    rw [mem_set_of_absent hsorted habsent, hindex]
  refine h.put (sorted_set hsorted) ?_ ?_ hmem ?_ ?_ ?_
  · intro s l hl
    rw [hsender] at hl
    split at hl
    · rw [← some.inj hl]
      exact sorted_set (h.senderIndex_sorted _)
    · exact h.senderOrdered s l hl
  · intro s l hl e he
    rw [hsender] at hl
    split at hl
    · next hs =>
      rw [← some.inj hl, h.mem_setSender hweight hkeeps] at he
      rcases he with rfl | ⟨he, -⟩
      · exact ⟨hs.symm, hweight⟩
      · rw [hs]
        exact (h.mem_senderIndex he).2
    · exact h.own s l hl e he
  · intro s n p t
    simp only [Lists, hsender]
    by_cases hs : s = key.sender
    · subst hs
      simp only [if_true, some.injEq, exists_eq_left', h.mem_setSender hweight hkeeps]
      have hkey : ((⟨n, p, key.sender, default⟩ : TxMeta C S), t) = (key, tx) ↔
          (key.sender, n) = key.id ∧ p = key.priority ∧ t = tx := by
        obtain ⟨_, _, _, _⟩ := key
        simp only at hweight
        subst hweight
        simp [TxMeta.id, and_assoc]
      have hid : (key.sender, n) = key.id ↔ n = key.nonce := by simp [TxMeta.id]
      rw [hkey]
      refine or_congr Iff.rfl ?_
      simp only [ne_eq, hid]
      cases hl : mp.senderIndices key.sender with
      | none => simp
      | some => simp [and_comm]
    · have hid : (s, n) ≠ key.id := fun heq => hs (congrArg Prod.fst heq)
      simp [hs, hid]
  · show update mp.scores key.id _ = _
    rw [hweight]
  · intro c
    show update counts key.priority (counts key.priority + 1) c = _
    rw [show (PriorityNonceMempool.store
      { mp with priorityIndex := index, priorityCounts := counts }
      ((mp.senderIndices key.sender).getD []) key tx).priorityIndex =
        set priorityOrder key tx index from rfl, countP_set_of_absent _ hsorted habsent]
    by_cases hc : c = key.priority
    · subst hc
      rw [update_self, hcounts]
      simp
    · rw [update_of_ne hc, hcounts]
      simp [Ne.symm hc]

/-- An insertion that gets as far as replacing a stored transaction keeps its priority: the
mempool has room, and the replacement rule lets the new transaction in. -/
def KeepsPriority (cfg : PriorityNonceMempoolConfig Ctx Tx C S) :
    Request Ctx Tx → PriorityNonceMempool C S Tx → Prop
  | .insert ctx tx, mp =>
    ¬ (cfg.maxTx > 0 ∧ (mp.priorityIndex.length : Int) ≥ cfg.maxTx) → ¬ cfg.maxTx < 0 →
    ∀ id ∈ (identify cfg .noSigner tx).toOption, ∀ score ∈ mp.scores id,
      (replaces cfg score.priority (cfg.getTxPriority ctx tx)
        (get nonceOrder ⟨id.2, cfg.getTxPriority ctx tx, id.1, default⟩
          ((mp.senderIndices id.1).getD [])) tx).toOption = some true →
      cfg.getTxPriority ctx tx = score.priority
  | _, _ => True

instance KeepsPriority.decidable (cfg : PriorityNonceMempoolConfig Ctx Tx C S)
    (request : Request Ctx Tx) (mp : PriorityNonceMempool C S Tx) :
    Decidable (KeepsPriority cfg request mp) := by
  unfold KeepsPriority
  split <;> infer_instance

theorem Consistent.countP_unindex (h : mp.Consistent) {k : TxMeta C S}
    (hk : (k, tx) ∈ mp.priorityIndex) (c : C) :
    (mp.unindex k).priorityCounts c = ((mp.unindex k).priorityIndex.countP
      (fun e => decide (e.1.priority = c)) : Nat) := by
  have hcount := countP_remove (fun e => decide (e.1.priority = c)) h.ordered hk
    (priorityOrder_eq_eq.mpr rfl)
  show update mp.priorityCounts k.priority (mp.priorityCounts k.priority - 1) c =
    ((SkipList.remove priorityOrder k mp.priorityIndex).countP _ : Nat)
  by_cases hc : c = k.priority
  · subst hc
    rw [update_self, h.counted]
    simp only [decide_true, if_true] at hcount
    omega
  · rw [update_of_ne hc, h.counted]
    simp only [decide_eq_true_eq, Ne.symm hc, if_false] at hcount
    omega

theorem Consistent.insert (h : mp.Consistent) (cfg : PriorityNonceMempoolConfig Ctx Tx C S)
    (ctx : Ctx) (tx : Tx) (hkeeps : KeepsPriority cfg (.insert ctx tx) mp) :
    (mp.insert cfg ctx tx).2.Consistent := by
  unfold PriorityNonceMempool.insert
  split
  · exact h
  next hroom =>
  split
  · exact h
  next henabled =>
  split
  · exact h
  next sender nonce hid =>
    let key : TxMeta C S := ⟨nonce, cfg.getTxPriority ctx tx, sender, default⟩
    cases hscore : mp.scores (sender, nonce) with
    | none =>
      -- a new transaction
      have hnew := h.score_eq_none (k := key) hscore
      refine h.store key tx rfl ?_ (fun e => ?_) h.ordered h.counted
      · intro p t hlist
        obtain ⟨_, hw⟩ := (h.listed _ _ _ _).mpr hlist
        exact absurd rfl (hnew _ hw)
      · exact ⟨fun he => ⟨he, hnew e he⟩, fun he => he.1⟩
    | some score =>
      obtain ⟨_, hold⟩ := h.mem_of_score hscore
      dsimp only
      split
      · exact h
      · exact h
      next hreplaces =>
        have hpriority := hkeeps hroom henabled (sender, nonce) (by rw [hid]; rfl) score hscore
          (by rw [hreplaces]; rfl)
        refine h.store key tx rfl ?_ (fun e => h.mem_unindex hold)
          (sorted_remove h.ordered) (h.countP_unindex hold)
        intro p t hlist
        have hlisted := (h.listed _ _ _ _).mp ⟨_, hold⟩
        rw [(h.lists_unique hlist hlisted).1]
        exact hpriority.symm

end Insert

/-! ## Remove -/

section Remove

variable {mp : PriorityNonceMempool C S Tx}

theorem Consistent.drop (h : mp.Consistent) {tk : TxMeta C S} {tx : Tx}
    (hold : (tk, tx) ∈ mp.priorityIndex) {l : List (TxMeta C S × Tx)}
    (hl : mp.senderIndices tk.sender = some l) :
    Consistent { mp.unindex tk with
      senderIndices := update mp.senderIndices tk.sender
        (some (SkipList.remove nonceOrder tk l))
      scores := update mp.scores tk.id none } := by
  have hsorted := h.senderOrdered tk.sender l hl
  refine ⟨sorted_remove h.ordered, ?_, ?_, ?_, ?_, h.countP_unindex hold⟩
  · intro s l' hl'
    dsimp only at hl'
    rw [update_apply] at hl'
    split at hl'
    · rw [← some.inj hl']
      exact sorted_remove hsorted
    · exact h.senderOrdered s l' hl'
  · intro s l' hl' e he
    dsimp only at hl'
    rw [update_apply] at hl'
    split at hl'
    · next hs =>
      rw [← some.inj hl', mem_remove hsorted] at he
      rw [hs]
      exact h.own tk.sender l hl e he.1
    · exact h.own s l' hl' e he
  · intro k
    show (∃ t, (k, t) ∈ SkipList.remove priorityOrder tk mp.priorityIndex) ↔
      update mp.scores tk.id none k.id = _
    by_cases hk : k.id = tk.id
    · rw [hk, update_self]
      simp [h.mem_unindex hold, hk]
    · rw [update_of_ne hk, ← h.scored]
      simp [h.mem_unindex hold, hk]
  · intro s n p t
    show (∃ w, ((⟨n, p, s, w⟩ : TxMeta C S), t) ∈
      SkipList.remove priorityOrder tk mp.priorityIndex) ↔ _
    simp only [h.mem_unindex hold, TxMeta.id, exists_and_right, h.listed, Lists,
      update_apply]
    by_cases hs : s = tk.sender
    · subst hs
      simp [hl, mem_remove hsorted, nonceOrder_eq_eq, eq_comm (a := n)]
    · simp [hs]

theorem Consistent.remove (h : mp.Consistent) (cfg : PriorityNonceMempoolConfig Ctx Tx C S)
    (tx : Tx) : (mp.remove cfg tx).2.Consistent := by
  unfold PriorityNonceMempool.remove
  split
  · exact h
  split
  · exact h
  next score hscore =>
    split
    · exact h
    next senderTxs hsenderTxs =>
      obtain ⟨_, hold⟩ := h.mem_of_score hscore
      exact h.drop hold hsenderTxs

end Remove

/-! ## Select -/

section Select

variable {mp : PriorityNonceMempool C S Tx}

/-- What a reordering step is given: a stored transaction and the same key with another
weight. -/
def Reorders (mp : PriorityNonceMempool C S Tx) (k : ReorderKey C S Tx) : Prop :=
  (k.deleteKey, k.tx) ∈ mp.priorityIndex ∧ k.insertKey.id = k.deleteKey.id ∧
    k.insertKey.priority = k.deleteKey.priority

variable {k : ReorderKey C S Tx} {e : TxMeta C S × Tx}

section

variable (h : mp.Consistent)
include h

variable (hk : mp.Reorders k)
include hk

theorem Consistent.mem_deleted :
    e ∈ SkipList.remove priorityOrder k.deleteKey mp.priorityIndex ↔
      e ∈ mp.priorityIndex ∧ e.1.id ≠ k.insertKey.id := by
  rw [h.mem_unindex hk.1, hk.2.1]

theorem Consistent.mem_reorder : e ∈ (mp.reorder k).priorityIndex ↔
      e = (k.insertKey, k.tx) ∨ (e ∈ mp.priorityIndex ∧ e.1.id ≠ k.insertKey.id) := by
  have habsent := absent_of_id_ne fun e he => ((h.mem_deleted hk).mp he).2
  show e ∈ SkipList.set priorityOrder k.insertKey k.tx
    (SkipList.remove priorityOrder k.deleteKey mp.priorityIndex) ↔ _
  rw [mem_set_of_absent (sorted_remove h.ordered) habsent, h.mem_deleted hk]

theorem Consistent.reorder : (mp.reorder k).Consistent := by
  have hlist := (h.listed _ _ _ _).mp ⟨k.deleteKey.weight, hk.1⟩
  refine h.put (sorted_set (sorted_remove h.ordered)) h.senderOrdered h.own
    (fun e => h.mem_reorder hk) ?_ ?_ ?_
  · intro s n p t
    show mp.Lists s n p t ↔ _
    rw [hk.2.1, hk.2.2]
    by_cases hid : (s, n) = k.deleteKey.id
    · obtain ⟨rfl, rfl⟩ := Prod.mk.inj hid
      constructor
      · intro hl
        obtain ⟨hp, ht⟩ := h.lists_unique hl hlist
        exact .inl ⟨hid, hp, ht⟩
      · rintro (⟨-, rfl, rfl⟩ | ⟨hne, -⟩)
        · exact hlist
        · exact absurd hid hne
    · simp [hid]
  · show update (update mp.scores k.deleteKey.id none) k.insertKey.id _ = _
    rw [hk.2.1, update_idem]
  · intro c
    have habsent := absent_of_id_ne fun e he => ((h.mem_deleted hk).mp he).2
    have hcount := SkipList.countP_remove (fun e => decide (e.1.priority = c)) h.ordered hk.1
      (priorityOrder_eq_eq.mpr rfl)
    show mp.priorityCounts c = ((SkipList.set priorityOrder k.insertKey k.tx
      (SkipList.remove priorityOrder k.deleteKey mp.priorityIndex)).countP _ : Nat)
    rw [countP_set_of_absent _ (sorted_remove h.ordered) habsent, h.counted, ← hcount, hk.2.2]

omit hk

theorem Consistent.foldl_reorder {ks : List (ReorderKey C S Tx)} (hks : ∀ k ∈ ks, mp.Reorders k)
    (hids : ks.Pairwise (fun a b => a.deleteKey.id ≠ b.deleteKey.id)) :
    (ks.foldl PriorityNonceMempool.reorder mp).Consistent ∧
      (ks.foldl PriorityNonceMempool.reorder mp).senderIndices = mp.senderIndices := by
  induction ks generalizing mp with
  | nil => exact ⟨h, rfl⟩
  | cons k ks ih =>
    obtain ⟨hk, hids⟩ := List.pairwise_cons.mp hids
    have hreorders := hks k (List.mem_cons_self ..)
    refine ih (h.reorder hreorders) ?_ hids
    intro b hb
    obtain ⟨hmem, hid, hpriority⟩ := hks b (List.mem_cons_of_mem _ hb)
    refine ⟨(h.mem_reorder hreorders).mpr (.inr ⟨hmem, ?_⟩), hid, hpriority⟩
    rw [hreorders.2.1]
    exact (hk b hb).symm

theorem Consistent.reorderPriorityTies (cfg : PriorityNonceMempoolConfig Ctx Tx C S) :
    (reorderPriorityTies cfg mp).Consistent ∧
      (reorderPriorityTies cfg mp).senderIndices = mp.senderIndices := by
  refine h.foldl_reorder ?_ ?_
  · intro k hk
    obtain ⟨_, he, hek⟩ := List.mem_filterMap.mp hk
    split at hek
    · cases hek
      exact ⟨he, rfl, rfl⟩
    · cases hek
  · refine filterMap _ ?_ (h.ordered.imp_of_mem (S := fun a b => a.1.id ≠ b.1.id) ?_)
    · intro a b hab ka hka kb hkb
      split at hka
      · split at hkb
        · cases hka
          cases hkb
          exact hab
        · cases hkb
      · cases hka
    · intro a b ha hb hlt hid
      rw [h.key_unique ha hb hid, priorityOrder_eq_eq.mpr rfl] at hlt
      cases hlt

theorem Consistent.select (cfg : PriorityNonceMempoolConfig Ctx Tx C S) :
    (mp.select cfg).2.Consistent := by
  unfold PriorityNonceMempool.select
  split
  · exact h
  · exact (h.reorderPriorityTies cfg).1

end

end Select

theorem Consistent.serve {mp : PriorityNonceMempool C S Tx} (h : mp.Consistent)
    (cfg : PriorityNonceMempoolConfig Ctx Tx C S) (request : Request Ctx Tx)
    (hkeeps : KeepsPriority cfg request mp) : (serve cfg request mp).2.Consistent := by
  cases request with
  | insert ctx tx => exact h.insert cfg ctx tx hkeeps
  | remove tx => exact h.remove cfg tx
  | select => exact h.select cfg

/-- In a run in which every replaced transaction keeps its priority, the indices describe one
set of transactions. -/
theorem consistent_along_run (cfg : PriorityNonceMempoolConfig Ctx Tx C S)
    {requests : List (Request Ctx Tx)}
    (hkeeps : Machine.Along (serve cfg) (KeepsPriority cfg) requests
      (new : PriorityNonceMempool C S Tx)) :
    (Machine.run (serve cfg) requests (new : PriorityNonceMempool C S Tx)).2.Consistent :=
  hkeeps.invariant (fun request _ hkeeps h => h.serve cfg request hkeeps) new_consistent

end PriorityNonceMempool

end CosmosSDK.Mempool
