import CosmosSDK.Group.Changes

/-!
# Tallies and the total weight

A tally adds up the weights of members who voted, each once, so it is at most the total
weight of the group.
-/

namespace CosmosSDK.Group

open Store OrderedKV Decimal Fallible List TallyResult Dec

def TallyResult.counted (t : TallyResult) : ℚ :=
  value t.yesCount + value t.noCount + value t.abstainCount + value t.noWithVetoCount

theorem NonNegative.value_nonneg {s : DecString} (h : NonNegative s) : 0 ≤ value s := by
  obtain ⟨_, rfl, hd⟩ := h
  exact hd

theorem Positive.value_pos {s : DecString} (h : Positive s) : 0 < value s := by
  obtain ⟨_, rfl, hd⟩ := h
  exact hd

namespace TallyResult

variable {t t' : TallyResult} {option : VoteOption} {weight : DecString}

theorem default_counted : default.counted = 0 := by
  simp [counted, default, value, val_ofInt]

theorem default_nonNegative : default.NonNegative := by
  have hzero : Group.NonNegative (some (ofInt 0)) := ⟨ofInt 0, rfl, by simp [val_ofInt]⟩
  exact ⟨hzero, hzero, hzero, hzero⟩

theorem NonNegative.yes_le (h : t.NonNegative) : value t.yesCount ≤ t.counted := by
  have hno := h.no.value_nonneg
  have habstain := h.abstain.value_nonneg
  have hveto := h.noWithVeto.value_nonneg
  unfold counted
  linarith

variable [Apd]

theorem count_grows {count : DecString} {c w c' : Dec} (hc : count = some c) (hcn : 0 ≤ c.val)
    (hw : 0 < w.val) (h : decAdd c w = .ok c') :
    value (text c') = value count + w.val ∧ Group.NonNegative (text c') := by
  have hval := decAdd_val h
  constructor
  · rw [value_text, hval, hc]
    rfl
  · refine ⟨c'.plain, rfl, ?_⟩
    rw [plain_val, hval]
    linarith

theorem add_ok (h : t.add option weight = .ok t') (ht : t.NonNegative) :
    t'.counted = t.counted + value weight ∧ t'.NonNegative := by
  simp only [add, bind_eq_ok] at h
  obtain ⟨w, hw, _, hy, _, hn, _, ha, _, hv, h⟩ := h
  obtain ⟨rfl, hwpos⟩ := newPositiveDecFromString_eq_ok.mp hw
  obtain ⟨_, _⟩ := newNonNegativeDecFromString_eq_ok.mp hy
  obtain ⟨_, _⟩ := newNonNegativeDecFromString_eq_ok.mp hn
  obtain ⟨_, _⟩ := newNonNegativeDecFromString_eq_ok.mp ha
  obtain ⟨_, _⟩ := newNonNegativeDecFromString_eq_ok.mp hv
  have hvalue : value (some w) = w.val := rfl
  cases option with
  | unspecified | unknown => cases h
  | yes | no | abstain | noWithVeto =>
    simp only [bind_eq_ok] at h
    obtain ⟨_, hc, h⟩ := h
    rw [← Except.ok.inj h]
    obtain ⟨hgrow, hnn⟩ := count_grows (by assumption) (by assumption) hwpos hc
    refine ⟨?_, by constructor <;> first | exact hnn | simp [ht.yes, ht.no, ht.abstain, ht.noWithVeto]⟩
    simp only [counted]
    rw [hgrow, hvalue]
    ring

end TallyResult

namespace Keeper

variable {A X M : Type} {s : State A X M}

def voterWeight (s : State A X M) (groupId : Nat) (e : (Nat × Bytes) × Vote) : ℚ :=
  part (fun _ m => value m.weight) s.members (groupId, e.1.2)

variable [Apd]

theorem tallyVotes_ok {groupId : Nat} {votes : List ((Nat × Bytes) × Vote)} {t t' : TallyResult}
    (h : tallyVotes s groupId votes t = .ok t') (ht : t.NonNegative) :
    t'.counted = t.counted + (votes.map (voterWeight s groupId)).sum ∧ t'.NonNegative := by
  induction votes generalizing t with
  | nil =>
    rw [← Except.ok.inj h]
    simp [ht]
  | cons e votes ih =>
    obtain ⟨key, vote⟩ := e
    rw [map_cons, sum_cons]
    cases hm : s.members[(groupId, key.2)]? with
    | none =>
      simp only [tallyVotes, hm] at h
      obtain ⟨hsum, hnn⟩ := ih h ht
      have hnone : voterWeight s groupId (key, vote) = 0 := part_of_none _ hm
      refine ⟨?_, hnn⟩
      rw [hsum, hnone, zero_add]
    | some m =>
      simp only [tallyVotes, hm, bind_eq_ok] at h
      obtain ⟨_, hu, h⟩ := h
      obtain ⟨hadd, hunn⟩ := add_ok hu ht
      obtain ⟨hsum, hnn⟩ := ih h hunn
      have hsome : voterWeight s groupId (key, vote) = value m.weight := part_of_some _ hm
      refine ⟨?_, hnn⟩
      rw [hsum, hadd, hsome]
      ring

omit [Apd] in
theorem voters_nodup (s : State A X M) (groupId id : Nat) :
    ((votesByProposal s id).map (fun e => (groupId, e.1.2))).Nodup := by
  have hdistinct : s.votes.toList.Pairwise (fun a b => ¬ compare a.1 b.1 = .eq) :=
    Std.ExtTreeMap.distinct_keys_toList
  apply List.Nodup.map_on
  · intro a ha b hb hab
    have hakey := of_decide_eq_true (mem_filter.mp ha).2
    have hbkey := of_decide_eq_true (mem_filter.mp hb).2
    have hkeys : a.1 = b.1 := by
      apply Prod.ext
      · rw [hakey, hbkey]
      · exact (Prod.mk.inj hab).2
    have hav := Std.ExtTreeMap.mem_toList_iff_getElem?_eq_some.mp (mem_filter.mp ha).1
    have hbv := Std.ExtTreeMap.mem_toList_iff_getElem?_eq_some.mp (mem_filter.mp hb).1
    rw [hkeys, hbv] at hav
    exact Prod.ext hkeys (Option.some.inj hav).symm
  · apply List.Nodup.filter
    apply List.Pairwise.imp _ hdistinct
    intro a b hne hab
    apply hne
    rw [hab]
    exact Std.ReflCmp.compare_self

omit [Apd] in
theorem votes_le_weight {groupSeq : Nat} (h : Sound groupSeq s.members) (groupId id : Nat) :
    ((votesByProposal s id).map (voterWeight s groupId)).sum ≤ weightOf s.members groupId := by
  have hparts : (votesByProposal s id).map (voterWeight s groupId) =
      ((votesByProposal s id).map fun e => (groupId, e.1.2)).map
        (part (fun key m => if key.1 = groupId then value m.weight else 0) s.members) := by
    rw [map_map]
    apply map_congr_left
    intro e _
    simp only [voterWeight, Function.comp, part]
    cases s.members[(groupId, e.1.2)]? with
    | none => rfl
    | some => simp
  rw [hparts]
  apply sum_part_le_total _ (voters_nodup s groupId id)
  intro key m hm
  by_cases hkey : key.1 = groupId
  · rw [if_pos hkey]
    exact (h.positive key m hm).value_pos.le
  · rw [if_neg hkey]

theorem tally_le_total (h : Balanced s.groupSeq s.groups s.members) {groupId id : Nat}
    {g : GroupInfo A} {t : TallyResult} (hg : s.groups[groupId]? = some g)
    (ht : tallyVotes s groupId (votesByProposal s id) .default = .ok t) :
    t.NonNegative ∧ t.counted ≤ value g.totalWeight := by
  obtain ⟨hsum, hnn⟩ := tallyVotes_ok ht default_nonNegative
  obtain ⟨_, hd, hval⟩ := h.totals groupId g hg
  have hle := votes_le_weight h.sound groupId id
  have hvalue : value g.totalWeight = weightOf s.members groupId := by
    rw [hd, ← hval]
    rfl
  refine ⟨hnn, ?_⟩
  rw [hsum, default_counted, zero_add, hvalue]
  exact hle

end Keeper

end CosmosSDK.Group
