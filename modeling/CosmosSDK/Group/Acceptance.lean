import CosmosSDK.Group.AtMostOnce
import CosmosSDK.Group.Tallies

/-!
# The yes weight of accepted proposals

A percentage policy accepts no proposal without a yes vote.  A threshold policy compares the
yes count with the threshold or the total weight of the group, whichever is less; a group that
all members have left has the total weight zero, and then nothing is needed.
-/

namespace CosmosSDK.Group

open Store OrderedKV Decimal Fallible DecisionPolicy Std.ExtTreeMap Dec

def DecisionPolicy.isPercentage : DecisionPolicy → Bool
  | .threshold _ _ => false
  | .percentage _ _ => true

section Decisions

variable [apd : Apd]

theorem decCmp_ne_lt {x y : Dec} : decCmp x y ≠ .lt ↔ y.val ≤ x.val := by
  rw [decCmp, apd.cmp_eq, ne_eq, compare_lt_iff_lt, not_lt]

theorem decMin_pos {x y : Dec} (hx : 0 < x.val) (hy : 0 < y.val) :
    0 < (decMin x y).val := by
  unfold decMin
  split_ifs
  · exact hx
  · exact hy

theorem decQuo_zero {x y z : Dec} (h : decQuo x y = .ok z) (hx : x.val = 0) : z.val = 0 :=
  apd.quo_zero (ofDec_eq_ok.mp h) hx

variable {share total : DecString} {windows : Option Windows} {t : TallyResult}

/-- A percentage policy accepts if and only if the rounded share of yes reaches the percentage. -/
theorem allow_percentage :
    (∃ final, (percentage share windows).allow t total = .ok ⟨true, final⟩) ↔
      ∃ p y w z, newPositiveDecFromString share = .ok p ∧
        newNonNegativeDecFromString t.yesCount = .ok y ∧
        newNonNegativeDecFromString total = .ok w ∧ w.coeff ≠ 0 ∧ decQuo y w = .ok z ∧
        p.val ≤ z.val := by
  simp only [allow, bind_eq_ok]
  constructor
  · rintro ⟨final, p, hp, y, hy, w, hw, h⟩
    by_cases hzero : w.coeff = 0
    · rw [if_pos hzero] at h
      cases h
    · rw [if_neg hzero, bind_eq_ok] at h
      obtain ⟨z, hz, h⟩ := h
      split_ifs at h with hcmp
      · exact ⟨p, y, w, z, hp, hy, hw, hzero, hz, decCmp_ne_lt.mp hcmp⟩
      · simp only [bind_eq_ok] at h
        obtain ⟨_, -, _, -, h⟩ := h
        cases h
  · rintro ⟨p, y, w, z, hp, hy, hw, hzero, hz, hle⟩
    refine ⟨true, p, hp, y, hy, w, hw, ?_⟩
    rw [if_neg hzero, hz, ok_bind, if_pos (decCmp_ne_lt.mpr hle)]

theorem DecisionPolicy.allow_true {policy : DecisionPolicy} {final : Bool}
    (h : policy.allow t total = .ok ⟨true, final⟩)
    (hsome : policy.isPercentage = true ∨ 0 < value total) : 0 < value t.yesCount := by
  cases policy with
  | threshold =>
    simp only [allow, bind_eq_ok] at h
    obtain ⟨_, hb, y, hy, w, hw, h⟩ := h
    obtain ⟨-, hbpos⟩ := newPositiveDecFromString_eq_ok.mp hb
    obtain ⟨hyes, -⟩ := newNonNegativeDecFromString_eq_ok.mp hy
    obtain ⟨rfl, -⟩ := newNonNegativeDecFromString_eq_ok.mp hw
    have htotal : 0 < w.val := by
      rcases hsome with hc | hpos
      · cases hc
      · exact hpos
    rw [hyes]
    split_ifs at h with hcmp
    · exact lt_of_lt_of_le (decMin_pos hbpos htotal) (decCmp_ne_lt.mp hcmp)
    · rw [bind_eq_ok] at h
      obtain ⟨_, -, h⟩ := h
      cases h
  | percentage =>
    obtain ⟨p, y, _, _, hp, hy, -, -, hz, hle⟩ := allow_percentage.mp ⟨final, h⟩
    obtain ⟨-, hpos⟩ := newPositiveDecFromString_eq_ok.mp hp
    obtain ⟨hyes, hynn⟩ := newNonNegativeDecFromString_eq_ok.mp hy
    rw [hyes]
    rcases hynn.lt_or_eq with hlt | heq
    · exact hlt
    · rw [decQuo_zero hz heq.symm] at hle
      linarith

/-! ## Percentages -/

/-- Rounding the share of a positive yes count to 34 digits carries it across the percentage, or
the percentage is reached and the share leaves the range of exponents.  The rounded share
reaches the percentage if the next multiple of its last digit is at most half of one away. -/
def Misjudged (p : ℚ) (yes total : Dec) : Prop :=
  let share := yes.val / total.val
  let unit := lastPlace 34 share
  QuoFits maxExponent 34 yes total ∧ ¬ (p ≤ share ↔ ⌈p / unit⌉ * unit ≤ share + unit / 2) ∨
    ¬ QuoFits maxExponent 34 yes total ∧ p ≤ share

/-- A percentage policy accepts if and only if the yes count reaches the exact percentage of the
total power. -/
def DecidesExactly (share : DecString) (windows : Option Windows) (t : TallyResult)
    (total : DecString) : Prop :=
  (∃ final, (percentage share windows).allow t total = .ok ⟨true, final⟩) ↔
    value share * value total ≤ value t.yesCount

end Decisions

/-- The yes weight of an acceptance is positive, except when a threshold met a group of
weight zero. -/
def Acceptance.Grounded (r : Acceptance) : Prop :=
  0 < value r.tally.yesCount ↔ r.policy.isPercentage = true ∨ 0 < value r.totalWeight

/-- The weights are in balance, and every acceptance is grounded and recorded. -/
structure Grounded {A X M : Type} (s : State A X M) : Prop where
  balanced : Balanced s.groupSeq s.groups s.members
  accepted : ∀ r ∈ s.accepted, r.Grounded
  recorded : ∀ (id : Nat) (p : Proposal A M), s.proposals[id]? = some p → p.status = .accepted →
    ∃ r ∈ s.accepted, r.proposalId = id ∧ r.tally = p.finalTallyResult

theorem balanced_empty {A : Type} :
    Balanced 0 (∅ : OrdMap Nat (GroupInfo A)) (∅ : OrdMap (Nat × Bytes) Member) := by
  constructor
  · intro id g hg
    rw [getElem?_empty] at hg
    cases hg
  · constructor
    · intro key m hm
      rw [getElem?_empty] at hm
      cases hm
    · intro key m hm
      rw [getElem?_empty] at hm
      cases hm
  · intro id g hg
    rw [getElem?_empty] at hg
    cases hg

namespace Keeper

variable {A X M : Type} {k : Keeper A X M} {s s' : State A X M}

section Runs

variable [Apd]

theorem grounded_accept (h : Grounded s) {id groupId : Nat} {g : GroupInfo A}
    {policy : DecisionPolicy} {t : TallyResult} {final : Bool} (hg : s.groups[groupId]? = some g)
    (ht : tallyVotes s groupId (votesByProposal s id) .default = .ok t)
    (hallow : policy.allow t g.totalWeight = .ok ⟨true, final⟩) :
    Acceptance.Grounded ⟨id, policy, t, g.totalWeight⟩ := by
  obtain ⟨hnn, hle⟩ := tally_le_total h.balanced hg ht
  constructor
  · intro hyes
    exact .inr (lt_of_lt_of_le hyes (hnn.yes_le.trans hle))
  · exact allow_true hallow

theorem Change.grounded (hc : Change k s s') (h : Grounded s) : Grounded s' := by
  cases hc with
  | regroup groupSeq groups members balanced => exact ⟨balanced h.balanced, h.accepted, h.recorded⟩
  | setPolicy | vote | pruneVotes | outside => exact ⟨h.balanced, h.accepted, h.recorded⟩
  | abort addr =>
    refine ⟨h.balanced, h.accepted, ?_⟩
    intro id p hp hstatus
    have hp : (s.proposals.map _)[id]? = some p := hp
    rw [getElem?_map] at hp
    obtain ⟨old, hold, hmap⟩ := Option.map_eq_some_iff.mp hp
    split_ifs at hmap
    · rw [← hmap] at hstatus
      cases hstatus
    · exact hmap ▸ h.recorded id old hold (hmap ▸ hstatus)
  | submit p absent valid opened =>
    refine ⟨h.balanced, h.accepted, ?_⟩
    intro id p' hp' hstatus
    rcases cases_of_insert hp' with ⟨-, rfl⟩ | ⟨-, hp'⟩
    · rw [opened] at hstatus
      cases hstatus
    · exact h.recorded id p' hp' hstatus
  | setProposal id old p stored valid recorded =>
    refine ⟨h.balanced, h.accepted, ?_⟩
    intro id' p' hp' hstatus
    rcases cases_of_insert hp' with ⟨rfl, rfl⟩ | ⟨-, hp'⟩
    · rcases recorded hstatus with hentry | ⟨old', hold', hstatus', htally⟩
      · exact hentry
      · exact htally ▸ h.recorded id' old' hold' hstatus'
    · exact h.recorded id' p' hp' hstatus
  | prune id | execute id =>
    exact ⟨h.balanced, h.accepted, fun id' p' hp' => h.recorded id' p' (of_erase hp').2⟩
  | accept id groupId g policy t final group tallied allowed =>
    refine ⟨h.balanced, ?_, ?_⟩
    · intro r hr
      rcases List.mem_append.mp hr with hmem | hmem
      · exact h.accepted r hmem
      · rw [List.mem_singleton.mp hmem]
        exact grounded_accept h group tallied allowed
    · intro id' p hp hstatus
      obtain ⟨r, hr, hentry⟩ := h.recorded id' p hp hstatus
      exact ⟨r, List.mem_append_left _ hr, hentry⟩

omit [Apd] in
theorem grounded_genesis (x : X) (now : Time) :
    Grounded (genesis (A := A) (M := M) x now).state := by
  constructor
  · exact balanced_empty
  · intro r hr
    cases hr
  · intro id p hp
    have hp : (∅ : OrdMap Nat (Proposal A M))[id]? = some p := hp
    rw [getElem?_empty] at hp
    cases hp

variable [DecidableEq A]

theorem reached_grounded (k : Keeper A X M) (x : X) (now : Time) (run : List (Step A M)) :
    Grounded (k.reached x now run).state :=
  k.reached_invariant (fun _ _ hc => hc.grounded) x now (grounded_genesis x now) run

/-- In every run the yes weight of an accepted proposal was positive if and only if its policy
is a percentage or the total weight of its group was positive at the tally. -/
theorem accepted_yes_pos_iff (k : Keeper A X M) (x : X) (now : Time) (run : List (Step A M)) :
    ∀ r ∈ (k.reached x now run).state.accepted,
      0 < value r.tally.yesCount ↔ r.policy.isPercentage = true ∨ 0 < value r.totalWeight :=
  (k.reached_grounded x now run).accepted

/-- A stored proposal that is accepted has its tally among the acceptances. -/
theorem accepted_recorded (k : Keeper A X M) (x : X) (now : Time) (run : List (Step A M)) :
    ∀ (id : Nat) (p : Proposal A M), (k.reached x now run).state.proposals[id]? = some p →
      p.status = .accepted → ∃ r ∈ (k.reached x now run).state.accepted,
        r.proposalId = id ∧ r.tally = p.finalTallyResult :=
  (k.reached_grounded x now run).recorded

end Runs

/-- The only member proposes, leaves the group, and has the proposal executed. -/
def abandonedRun : List (Step Nat Nat) :=
  [.deliver 5 (.createGroupWithPolicy 1 [⟨1, some ⟨1, 0⟩, 0⟩] 0 0 false
      (.threshold (some ⟨1, 0⟩) (some ⟨5, 0⟩))),
    .deliver 5 (.submitProposal 101 [1] ⟨0, 0, 0, true⟩ [.other 7] false),
    .deliver 5 (.leaveGroup 1 1), .deliver 5 (.exec 1 1)]

/-- Nobody voted, nobody is left, and the proposal was accepted and took effect. -/
theorem abandonedRun_accepts_without_yes :
    (smallKeeper.reached 0 0 abandonedRun).state.executed = [1] ∧
      (smallKeeper.reached 0 0 abandonedRun).state.outside = 7 ∧
      ∃ r ∈ (smallKeeper.reached 0 0 abandonedRun).state.accepted,
        r.proposalId = 1 ∧ value r.tally.yesCount = 0 := by
  have haccepted : (smallKeeper.reached 0 0 abandonedRun).state.accepted.map
      (fun r => (r.proposalId, r.tally.yesCount)) = [(1, some ⟨0, 0⟩)] := by
    decide +kernel
  refine ⟨by decide +kernel, by decide +kernel, ?_⟩
  have hmem := List.mem_map.mp (haccepted ▸ List.mem_singleton.mpr rfl)
  obtain ⟨r, hr, heq⟩ := hmem
  obtain ⟨hid, hyes⟩ := Prod.mk.inj heq
  refine ⟨r, hr, hid, ?_⟩
  rw [hyes]
  simp [value, val]

def votedRun : List (Step Nat Nat) :=
  [.deliver 5 (.createGroupWithPolicy 1 [⟨1, some ⟨1, 0⟩, 0⟩] 0 0 false
      (.threshold (some ⟨1, 0⟩) (some ⟨5, 0⟩))),
    .deliver 5 (.submitProposal 101 [1] ⟨0, 0, 0, true⟩ [.other 8] true)]

theorem votedRun_accepted : (smallKeeper.reached 0 0 votedRun).state.executed = [1] ∧
      ∀ r ∈ (smallKeeper.reached 0 0 votedRun).state.accepted,
        0 < value r.tally.yesCount ↔ r.policy.isPercentage = true ∨ 0 < value r.totalWeight :=
  ⟨by decide +kernel, accepted_yes_pos_iff smallKeeper 0 0 votedRun⟩

end Keeper

end CosmosSDK.Group
