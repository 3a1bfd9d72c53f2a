import CosmosSDK.Group.Registered

/-!
# Tallies at the end of the voting period

The weights are exact in every run.  A tally of moderate weights, and the decision on it, do
not fail; weights that are very large and very small together can be stored and cannot be added
in the order of the votes.
-/

namespace CosmosSDK.Group

open Store OrderedKV Decimal Fallible List Std.ExtTreeMap TallyResult Dec

/-- A bound on exponents and sizes, a fifth of what the decimals allow. -/
def moderate : Nat := 20000

/-- The text of a number of moderate size that is not negative. -/
def Fits (s : DecString) : Prop :=
  ∃ d, s = some d ∧ 0 ≤ d.val ∧ Dec.Within moderate d

variable {s : DecString}

theorem Fits.nonNegative (h : Fits s) : NonNegative s := by
  obtain ⟨d, hd, hnn, -⟩ := h
  exact ⟨d, hd, hnn⟩

theorem value_some (d : Dec) : value (some d) = d.val := rfl

theorem Fits.value_lt (h : Fits s) : value s < (10 : ℚ) ^ (moderate : Int) := by
  obtain ⟨d, rfl, -, hwithin⟩ := h
  exact lt_of_le_of_lt (le_abs_self d.val) (within_iff.mp hwithin).2.2

/-! ## Operations -/

section Operations

variable [apd : Apd] {x y : Dec}

theorem decAdd_fits (hx : 0 ≤ x.val) (hxw : Dec.Within moderate x) (hy : 0 ≤ y.val)
    (hyw : Dec.Within moderate y) (hsum : x.val + y.val < (10 : ℚ) ^ (moderate : Int)) :
    ∃ z, decAdd x y = .ok z ∧ z.val = x.val + y.val ∧ Dec.Within moderate z := by
  have habs : |x.val + y.val| < (10 : ℚ) ^ (moderate : Int) := by
    rw [abs_of_nonneg (add_nonneg hx hy)]
    exact hsum
  have hrange : 2 * (moderate : Int) ≤ maxExponent := by decide
  obtain ⟨z, hz, hzw⟩ := apd.add_within hxw hyw hrange habs
  have hok : decAdd x y = .ok z := ofDec_eq_ok.mpr hz
  exact ⟨z, hok, decAdd_val hok, hzw⟩

theorem subNonNegative_fits (hxw : Dec.Within moderate x) (hy : 0 ≤ y.val)
    (hyw : Dec.Within moderate y) (hle : y.val ≤ x.val) :
    ∃ z, subNonNegative x y = .ok z ∧ z.val = x.val - y.val ∧ Dec.Within moderate z := by
  have hbound := (within_iff.mp hxw).2.2
  have habs : |x.val - y.val| < (10 : ℚ) ^ (moderate : Int) := by
    rw [abs_of_nonneg (sub_nonneg.mpr hle)]
    have := le_abs_self x.val
    linarith
  have hrange : 2 * (moderate : Int) ≤ maxExponent := by decide
  obtain ⟨z, hz, hzw⟩ := apd.sub_within hxw hyw hrange habs
  have hsub : decSub x y = .ok z := ofDec_eq_ok.mpr hz
  have hval := decSub_val hsub
  have hnn : ¬ z.coeff < 0 := by
    intro hneg
    have := z.val_neg_iff.mpr hneg
    linarith
  refine ⟨z, ?_, hval, hzw⟩
  rw [subNonNegative, hsub, ok_bind, if_neg hnn]

theorem decQuo_fits (hxw : Dec.Within moderate x) (hyw : Dec.Within moderate y)
    (hy : y.coeff ≠ 0) : ∃ z, decQuo x y = .ok z := by
  have hrange : 4 * (moderate : Int) + 3 * (34 : Nat) + 5 ≤ maxExponent := by decide
  obtain ⟨z, hz⟩ := apd.quo_within hxw hyw (mt y.val_eq_zero_iff.mp hy) hrange
  exact ⟨z, ofDec_eq_ok.mpr hz⟩

end Operations

/-! ## Tallies -/

structure TallyResult.Fits (t : TallyResult) : Prop where
  yes : Group.Fits t.yesCount
  no : Group.Fits t.noCount
  abstain : Group.Fits t.abstainCount
  noWithVeto : Group.Fits t.noWithVetoCount

namespace TallyResult

variable {t : TallyResult}

theorem Fits.nonNegative (h : t.Fits) : t.NonNegative :=
  ⟨h.yes.nonNegative, h.no.nonNegative, h.abstain.nonNegative, h.noWithVeto.nonNegative⟩

theorem default_fits : default.Fits := by
  have hzero : Group.Fits (some (ofInt 0)) :=
    ⟨ofInt 0, rfl, by simp [val_ofInt], by decide +kernel⟩
  exact ⟨hzero, hzero, hzero, hzero⟩

variable [Apd] {w : Dec}

theorem count_fits {c : Dec} (hc : 0 ≤ c.val) (hcw : Dec.Within moderate c) (hw : 0 ≤ w.val)
    (hww : Dec.Within moderate w) (hsum : c.val + w.val < (10 : ℚ) ^ (moderate : Int)) :
    ∃ c', decAdd c w = .ok c' ∧ Group.Fits (text c') := by
  obtain ⟨c', hc', hval, hwithin⟩ := decAdd_fits hc hcw hw hww hsum
  refine ⟨c', hc', c'.plain, rfl, ?_, within_plain hwithin⟩
  rw [plain_val, hval]
  exact add_nonneg hc hw

theorem add_fits (ht : t.Fits) (hw : 0 < w.val) (hww : Dec.Within moderate w) {option : VoteOption}
    (hspecified : option ≠ .unspecified) (hknown : option ≠ .unknown)
    (hsum : t.counted + w.val < (10 : ℚ) ^ (moderate : Int)) :
    ∃ t', t.add option (some w) = .ok t' ∧ t'.Fits := by
  have hfits := ht
  obtain ⟨⟨y, hy, hynn, hyw⟩, ⟨n, hn, hnnn, hnw⟩, ⟨a, ha, hann, haw⟩, ⟨v, hv, hvnn, hvw⟩⟩ := ht
  have hcounted : t.counted = y.val + n.val + a.val + v.val := by
    rw [counted, hy, hn, ha, hv]
    rfl
  rw [hcounted] at hsum
  rw [add, newPositiveDecFromString_eq_ok.mpr ⟨rfl, hw⟩, ok_bind,
    newNonNegativeDecFromString_eq_ok.mpr ⟨hy, hynn⟩, ok_bind,
    newNonNegativeDecFromString_eq_ok.mpr ⟨hn, hnnn⟩, ok_bind,
    newNonNegativeDecFromString_eq_ok.mpr ⟨ha, hann⟩, ok_bind,
    newNonNegativeDecFromString_eq_ok.mpr ⟨hv, hvnn⟩, ok_bind]
  cases option with
  | unspecified => exact absurd rfl hspecified
  | unknown => exact absurd rfl hknown
  | yes =>
    obtain ⟨c, hc, hcf⟩ := count_fits hynn hyw hw.le hww (by linarith)
    exact ⟨{ t with yesCount := text c }, by rw [hc, ok_bind], { hfits with yes := hcf }⟩
  | no =>
    obtain ⟨c, hc, hcf⟩ := count_fits hnnn hnw hw.le hww (by linarith)
    exact ⟨{ t with noCount := text c }, by rw [hc, ok_bind], { hfits with no := hcf }⟩
  | abstain =>
    obtain ⟨c, hc, hcf⟩ := count_fits hann haw hw.le hww (by linarith)
    exact ⟨{ t with abstainCount := text c }, by rw [hc, ok_bind],
      { hfits with abstain := hcf }⟩
  | noWithVeto =>
    obtain ⟨c, hc, hcf⟩ := count_fits hvnn hvw hw.le hww (by linarith)
    exact ⟨{ t with noWithVetoCount := text c }, by rw [hc, ok_bind],
      { hfits with noWithVeto := hcf }⟩

theorem totalCounts_fits (ht : t.Fits) (hsum : t.counted < (10 : ℚ) ^ (moderate : Int)) :
    ∃ z, t.totalCounts = .ok z ∧ z.val = t.counted ∧ Dec.Within moderate z := by
  obtain ⟨⟨y, hy, hynn, hyw⟩, ⟨n, hn, hnnn, hnw⟩, ⟨a, ha, hann, haw⟩, ⟨v, hv, hvnn, hvw⟩⟩ := ht
  have hcounted : t.counted = y.val + n.val + a.val + v.val := by
    rw [counted, hy, hn, ha, hv]
    rfl
  rw [hcounted] at hsum ⊢
  have hzero : (ofInt 0).val = 0 := by simp [val_ofInt]
  obtain ⟨z1, hz1, hv1, hw1⟩ := decAdd_fits (by rw [hzero]) (by decide +kernel)
    hynn hyw (by rw [hzero]; linarith)
  rw [hzero, zero_add] at hv1
  obtain ⟨z2, hz2, _, hw2⟩ := decAdd_fits (by linarith) hw1 hnnn hnw (by linarith)
  obtain ⟨z3, hz3, _, hw3⟩ := decAdd_fits (by linarith) hw2 hann haw (by linarith)
  obtain ⟨z4, hz4, _, hw4⟩ := decAdd_fits (by linarith) hw3 hvnn hvw (by linarith)
  refine ⟨z4, ?_, by linarith, hw4⟩
  rw [totalCounts, newNonNegativeDecFromString_eq_ok.mpr ⟨hy, hynn⟩, ok_bind,
    newNonNegativeDecFromString_eq_ok.mpr ⟨hn, hnnn⟩, ok_bind,
    newNonNegativeDecFromString_eq_ok.mpr ⟨ha, hann⟩, ok_bind,
    newNonNegativeDecFromString_eq_ok.mpr ⟨hv, hvnn⟩, ok_bind, hz1, ok_bind, hz2,
    ok_bind, hz3, ok_bind, hz4]

end TallyResult

namespace DecisionPolicy

variable [Apd] {t : TallyResult}

theorem maxYesCount_fits (ht : t.Fits) {y total : Dec} (hy : t.yesCount = some y)
    (htotal : Dec.Within moderate total) (hle : t.counted ≤ total.val) :
    ∃ z, maxYesCount t y total = .ok z ∧ Dec.Within moderate z := by
  have hbound := lt_of_le_of_lt (le_abs_self _) (within_iff.mp htotal).2.2
  have hyle := ht.nonNegative.yes_le
  rw [hy, value_some] at hyle
  obtain ⟨_, hd, hynn, hyw⟩ := ht.yes
  obtain rfl := Option.mem_unique hy hd
  have hcounted : 0 ≤ t.counted := hynn.trans hyle
  obtain ⟨_, hc, hcv, hcw⟩ := t.totalCounts_fits ht (lt_of_le_of_lt hle hbound)
  obtain ⟨_, hu, _, huw⟩ := subNonNegative_fits htotal (by rw [hcv]; exact hcounted) hcw
    (by rw [hcv]; exact hle)
  obtain ⟨z, hz, -, hzw⟩ := decAdd_fits hynn hyw (by linarith) huw (by linarith)
  exact ⟨z, by rw [maxYesCount, hc, ok_bind, hu, ok_bind, hz], hzw⟩

theorem allow_fits {policy : DecisionPolicy} (hvalid : policy.validateBasic = .ok ()) (ht : t.Fits)
    {total : DecString} (htotal : Group.Fits total) (hle : t.counted ≤ value total) :
    ∃ r, policy.allow t total = .ok r := by
  obtain ⟨w, rfl, hwnn, hww⟩ := htotal
  obtain ⟨y, hy, hynn, hyw⟩ := ht.yes
  obtain ⟨_, hz, hzw⟩ := maxYesCount_fits ht hy hww hle
  cases policy with
  | threshold =>
    simp only [validateBasic, bind_eq_ok] at hvalid
    obtain ⟨b, hb, -⟩ := hvalid
    rw [allow, hb, ok_bind, newNonNegativeDecFromString_eq_ok.mpr ⟨hy, hynn⟩,
      ok_bind, newNonNegativeDecFromString_eq_ok.mpr ⟨rfl, hwnn⟩, ok_bind]
    by_cases hcmp : decCmp y (decMin b w) ≠ .lt
    · exact ⟨⟨true, true⟩, if_pos hcmp⟩
    · simp only [if_neg hcmp, hz, ok_bind]
      exact ⟨_, rfl⟩
  | percentage =>
    simp only [validateBasic, bind_eq_ok] at hvalid
    obtain ⟨p, hp, -⟩ := hvalid
    rw [allow, hp, ok_bind, newNonNegativeDecFromString_eq_ok.mpr ⟨hy, hynn⟩,
      ok_bind, newNonNegativeDecFromString_eq_ok.mpr ⟨rfl, hwnn⟩, ok_bind]
    by_cases hzero : w.coeff = 0
    · exact ⟨⟨false, true⟩, if_pos hzero⟩
    · obtain ⟨q, hq⟩ := decQuo_fits hyw hww hzero
      obtain ⟨_, hr⟩ := decQuo_fits hzw hww hzero
      rw [if_neg hzero, hq, ok_bind]
      by_cases hcmp : decCmp q p ≠ .lt
      · exact ⟨⟨true, true⟩, if_pos hcmp⟩
      · rw [if_neg hcmp, hz, ok_bind, hr, ok_bind]
        exact ⟨_, rfl⟩

end DecisionPolicy

namespace Keeper

variable {A X M : Type} {k : Keeper A X M} {s s' : State A X M}

/-- The weights of a group are of moderate size. -/
def ModerateGroup (s : State A X M) (groupId : Nat) : Prop :=
  (∀ e ∈ s.members.toList, e.1.1 = groupId → ∀ d ∈ e.2.weight, Dec.Within moderate d) ∧
    ∀ g ∈ s.groups[groupId]?, ∀ d ∈ g.totalWeight, Dec.Within moderate d

/-- So are those of the group that decides on a proposal, as long as it is open. -/
def ModerateFor (k : Keeper A X M) (s : State A X M) (p : Proposal A M) : Prop :=
  p.status = .submitted → ∀ q ∈ (k.getGroupPolicyInfo s p.groupPolicyAddress).toOption,
    ModerateGroup s q.groupId

def Moderate (k : Keeper A X M) (s : State A X M) : Prop :=
  ∀ e ∈ s.proposals.toList, k.ModerateFor s e.2

instance (k : Keeper A X M) (s : State A X M) : Decidable (k.Moderate s) := by
  unfold Moderate ModerateFor ModerateGroup
  infer_instance

theorem ModerateGroup.member {groupId : Nat} (h : ModerateGroup s groupId) {addr : Bytes}
    {m : Member} {d : Dec} (hm : s.members[(groupId, addr)]? = some m) (hd : m.weight = some d) :
    Dec.Within moderate d :=
  h.1 ((groupId, addr), m) (mem_toList_iff_getElem?_eq_some.mpr hm) rfl d hd

section Runs

variable [Apd] {id : Nat} {g : GroupInfo A} {t : TallyResult} {p : Proposal A M} {addr : Bytes}
  {q : GroupPolicyInfo A}

omit [Apd] in
theorem ModerateGroup.total (h : ModerateGroup s id) (hb : Balanced s.groupSeq s.groups s.members)
    (hg : s.groups[id]? = some g) : Fits g.totalWeight := by
  obtain ⟨d, hd, hval⟩ := hb.totals id g hg
  refine ⟨d, hd, ?_, ?_⟩
  · rw [hval]
    apply total_nonneg
    intro key m hm
    by_cases hkey : key.1 = id
    · rw [if_pos hkey]
      exact (hb.sound.positive key m hm).value_pos.le
    · rw [if_neg hkey]
  · exact h.2 g hg d hd

theorem tallyVotes_fits (h : k.Registered s) {groupId : Nat} (hmod : ModerateGroup s groupId)
    {votes : List ((Nat × Bytes) × Vote)} (ht : t.Fits)
    (hvotes : ∀ e ∈ votes, e.2.option ≠ .unspecified ∧ e.2.option ≠ .unknown)
    (hsum : t.counted + (votes.map (voterWeight s groupId)).sum < (10 : ℚ) ^ (moderate : Int)) :
    ∃ t', tallyVotes s groupId votes t = .ok t' ∧ t'.Fits := by
  induction votes generalizing t with
  | nil => exact ⟨t, rfl, ht⟩
  | cons e votes ih =>
    obtain ⟨key, vote⟩ := e
    have hrest := (forall_mem_cons.mp hvotes).2
    have hnonneg : 0 ≤ (votes.map (voterWeight s groupId)).sum := by
      apply sum_nonneg
      intro w hw
      obtain ⟨e, -, rfl⟩ := mem_map.mp hw
      unfold voterWeight part
      cases hm : s.members[(groupId, e.1.2)]? with
      | none => exact le_refl _
      | some m => exact (h.balanced.sound.positive _ m hm).value_pos.le
    rw [map_cons, sum_cons] at hsum
    cases hm : s.members[(groupId, key.2)]? with
    | none =>
      have hzero : voterWeight s groupId (key, vote) = 0 := part_of_none _ hm
      rw [hzero, zero_add] at hsum
      simp only [tallyVotes, hm]
      exact ih ht hrest hsum
    | some m =>
      obtain ⟨w, hw, hwpos⟩ := h.balanced.sound.positive _ m hm
      have hweight : voterWeight s groupId (key, vote) = w.val := by
        rw [voterWeight, part_of_some _ hm, hw]
        rfl
      rw [hweight] at hsum
      obtain ⟨hspecified, hknown⟩ := hvotes (key, vote) (mem_cons_self ..)
      obtain ⟨_, hu, huf⟩ := add_fits ht hwpos (hmod.member hm hw) hspecified hknown
        (by linarith)
      have hadd := (add_ok hu ht.nonNegative).1
      rw [value_some] at hadd
      simp only [tallyVotes, hm, hw, hu, ok_bind]
      exact ih huf hrest (by linarith)

theorem tally_fits (h : k.Registered s) (hmod : ModerateGroup s q.groupId) (id : Nat)
    (hopen : p.status = .submitted) (hq : s.policies[addr]? = some q)
    (hg : s.groups[q.groupId]? = some g) : ∃ t r, tally s id p q.groupId = .ok t ∧ t.Fits ∧
      q.decisionPolicy.allow t g.totalWeight = .ok r := by
  have htotal := hmod.total h.balanced hg
  have hle := votes_le_weight h.balanced.sound q.groupId id
  obtain ⟨_, hd, hval⟩ := h.balanced.totals q.groupId g hg
  have hvalue : value g.totalWeight = weightOf s.members q.groupId := by
    rw [hd, ← hval]
    rfl
  have hoptions : ∀ e ∈ votesByProposal s id, e.2.option ≠ .unspecified ∧ e.2.option ≠ .unknown := by
    intro e he
    exact h.vote e.1 e.2
      (mem_toList_iff_getElem?_eq_some.mp (mem_filter.mp he).1)
  have hsum : default.counted +
      ((votesByProposal s id).map (voterWeight s q.groupId)).sum < (10 : ℚ) ^ (moderate : Int) := by
    rw [default_counted, zero_add]
    exact lt_of_le_of_lt hle (hvalue ▸ htotal.value_lt)
  obtain ⟨t, ht, htf⟩ := tallyVotes_fits h hmod default_fits hoptions hsum
  obtain ⟨-, hcounted⟩ := tally_le_total h.balanced hg ht
  obtain ⟨r, hr⟩ := DecisionPolicy.allow_fits (h.policy addr q hq) htf htotal hcounted
  refine ⟨t, r, ?_, htf, hr⟩
  rw [tally, hopen, if_neg (by decide)]
  exact ht

/-! ## The end of the voting period -/

omit [Apd] in
theorem getGroupPolicyInfo_of_hasPolicy {address : A} (h : k.HasPolicy s address q) :
    k.getGroupPolicyInfo s address = .ok q := by
  obtain ⟨_, haddr, hq⟩ := h
  rw [getGroupPolicyInfo, haddr, ok_bind, hq]

omit [Apd] in
theorem getGroupInfo_of_some (h : s.groups[id]? = some g) : getGroupInfo s id = .ok g := by
  rw [getGroupInfo, h]

omit [Apd] in
theorem pruneProposal_of_some (h : s.proposals[id]? = some p) :
    pruneProposal s id = .ok { s with proposals := s.proposals.erase id } := by
  rw [pruneProposal, getProposal, h, ok_bind]

omit [Apd] in
theorem updateProposal_of_valid {old : Proposal A M} (hstored : s.proposals[id]? = some old)
    (h : k.ValidProposal s id p) :
    k.updateProposal s id p = .ok { s with proposals := s.proposals.insert id p } := by
  obtain ⟨_, _, haddr, -⟩ := h.policy
  obtain ⟨⟨_, hy⟩, ⟨_, hn⟩, ⟨_, ha⟩, ⟨_, hv⟩⟩ := h.tally
  rw [updateProposal, getProposal, hstored, ok_bind, setProposal, if_neg h.id_ne_zero,
    haddr, ok_bind, if_neg h.groupVersion_ne_zero, if_neg h.groupPolicyVersion_ne_zero,
    newNonNegativeDecFromString_eq_ok.mpr hy, ok_bind,
    newNonNegativeDecFromString_eq_ok.mpr hn, ok_bind,
    newNonNegativeDecFromString_eq_ok.mpr ha, ok_bind,
    newNonNegativeDecFromString_eq_ok.mpr hv, ok_bind]

omit [Apd] in
theorem ValidProposal.decided (h : k.ValidProposal s id p) (ht : t.NonNegative)
    (status : ProposalStatus) :
    k.ValidProposal s id { p with finalTallyResult := t, status := status } :=
  ⟨h.id_ne_zero, h.groupVersion_ne_zero, h.groupPolicyVersion_ne_zero, h.policy, ht⟩

structure SameGroups (s s' : State A X M) (id : Nat) : Prop where
  groups : s'.groups = s.groups
  members : s'.members = s.members
  policies : s'.policies = s.policies
  proposals : ∀ id', id' ≠ id → s'.proposals[id']? = s.proposals[id']?

omit [Apd] in
theorem ModerateFor.congr (h : k.ModerateFor s p) (hsame : SameGroups s s' id) :
    k.ModerateFor s' p := by
  unfold ModerateFor ModerateGroup getGroupPolicyInfo at *
  rw [hsame.groups, hsame.members, hsame.policies]
  exact h

omit [Apd] in
theorem sameGroups_refl (s : State A X M) (id : Nat) : SameGroups s s id :=
  ⟨rfl, rfl, rfl, fun _ _ => rfl⟩

variable (h : k.Registered s)
include h

theorem storedTally_ok (now : Time) (hmod : ModerateGroup s q.groupId)
    (hp : s.proposals[id]? = some p) (hopen : p.status = .submitted)
    (hq : s.policies[addr]? = some q) (hg : s.groups[q.groupId]? = some g) :
    ∃ s1 p1 s', doTallyAndUpdate now s id p g q = .ok (s1, p1) ∧
      k.updateProposal s1 id p1 = .ok s' ∧ SameGroups s s' id := by
  have hvalid := h.proposal id p hp
  obtain ⟨t, r, ht, htf, hr⟩ := tally_fits h hmod id hopen hq hg
  have hothers : ∀ (p1 : Proposal A M) (id' : Nat), id' ≠ id →
      (s.proposals.insert id p1)[id']? = s.proposals[id']? := by
    intro p1 id' hne
    rw [lookup_insert, if_neg hne]
  rw [doTallyAndUpdate, ht, ok_bind, hr, ok_bind]
  by_cases hfinal : r.final ∨ now > p.votingPeriodEnd
  · by_cases hallow : r.allow = true
    · rw [if_pos hfinal, if_pos hallow]
      have hnew : k.ValidProposal { pruneVotes s id with
          accepted := s.accepted ++ [⟨id, q.decisionPolicy, t, g.totalWeight⟩] } id
          { p with finalTallyResult := t, status := .accepted } :=
        (hvalid.decided htf.nonNegative .accepted).congr rfl
      exact ⟨_, _, _, rfl, updateProposal_of_valid hp hnew, ⟨rfl, rfl, rfl, hothers _⟩⟩
    · rw [if_pos hfinal, if_neg hallow]
      have hnew : k.ValidProposal (pruneVotes s id) id
          { p with finalTallyResult := t, status := .rejected } :=
        (hvalid.decided htf.nonNegative .rejected).congr rfl
      exact ⟨_, _, _, rfl, updateProposal_of_valid hp hnew, ⟨rfl, rfl, rfl, hothers _⟩⟩
  · rw [if_neg hfinal]
    exact ⟨_, _, _, rfl, updateProposal_of_valid hp hvalid, ⟨rfl, rfl, rfl, hothers _⟩⟩

theorem tallyAtVPEnd_ok (now : Time) (hmod : k.ModerateFor s p) (hp : s.proposals[id]? = some p) :
    ∃ s', k.tallyAtVPEnd now s id p = .ok s' ∧ SameGroups s s' id := by
  obtain ⟨q, hpolicy⟩ := (h.proposal id p hp).policy
  obtain ⟨addr, haddr, hq⟩ := hpolicy
  obtain ⟨_, hg⟩ := h.group addr q hq
  have hinfo := getGroupPolicyInfo_of_hasPolicy ⟨addr, haddr, hq⟩
  rw [tallyAtVPEnd, hinfo, ok_bind,
    getGroupInfo_of_some hg, ok_bind]
  by_cases hgone : p.status = .aborted ∨ p.status = .withdrawn
  · rw [if_pos hgone, pruneProposal_of_some hp, ok_bind]
    refine ⟨_, rfl, rfl, rfl, rfl, ?_⟩
    intro id' hne
    show (s.proposals.erase id)[id']? = s.proposals[id']?
    rw [lookup_erase, if_neg hne]
  · rw [if_neg hgone]
    by_cases hopen : p.status = .submitted
    · obtain ⟨_, _, s', htally, hstored, hsame⟩ :=
        storedTally_ok h now (hmod hopen q (by rw [hinfo]; rfl)) hp hopen hq hg
      rw [if_pos hopen, htally, ok_bind]
      exact ⟨s', hstored, hsame⟩
    · rw [if_neg hopen]
      exact ⟨s, rfl, sameGroups_refl s id⟩

theorem tallyAllAtVPEnd_ok (now : Time) {proposals : List (Nat × Proposal A M)}
    (hmod : ∀ e ∈ proposals, k.ModerateFor s e.2)
    (hstored : ∀ e ∈ proposals, s.proposals[e.1]? = some e.2)
    (hdistinct : proposals.Pairwise (fun a b => a.1 ≠ b.1)) :
    ∃ s', k.tallyAllAtVPEnd now proposals s = .ok s' := by
  induction proposals generalizing s with
  | nil => exact ⟨s, rfl⟩
  | cons e proposals ih =>
    obtain ⟨id, p⟩ := e
    obtain ⟨hhead, htail⟩ := pairwise_cons.mp hdistinct
    obtain ⟨_, hs1, hsame⟩ := tallyAtVPEnd_ok h now (hmod (id, p) (mem_cons_self ..))
      (hstored (id, p) (mem_cons_self ..))
    have hreg := (tallyAtVPEnd_changes hs1).invariant (fun _ _ hc => hc.registered) h
    obtain ⟨s', hs'⟩ := ih hreg
      (fun e he => (hmod e (mem_cons_of_mem _ he)).congr hsame)
      (by
        intro e he
        rw [hsame.proposals e.1 (hhead e he).symm]
        exact hstored e (mem_cons_of_mem _ he))
      htail
    exact ⟨s', by rw [tallyAllAtVPEnd, hs1, ok_bind, hs']⟩

theorem tallyProposalsAtVPEnd_ok (hmod : k.Moderate s) (now : Time) :
    ∃ s', k.tallyProposalsAtVPEnd now s = .ok s' := by
  have hperm := (s.proposals.toList.filter fun e => decide (e.2.votingPeriodEnd < now)).perm_insertionSort
    (fun a b => a.2.votingPeriodEnd ≤ b.2.votingPeriodEnd)
  apply tallyAllAtVPEnd_ok h now
  · intro e he
    exact hmod e (mem_filter.mp (hperm.mem_iff.mp he)).1
  · intro e he
    have hmem := (mem_filter.mp (hperm.mem_iff.mp he)).1
    exact mem_toList_iff_getElem?_eq_some.mp hmem
  · have hkeys : s.proposals.toList.Pairwise (fun a b => a.1 ≠ b.1) := by
      apply List.Pairwise.imp _ (distinct_keys_toList)
      intro a b hne hab
      apply hne
      rw [hab]
      exact Std.ReflCmp.compare_self
    exact (hperm.pairwise_iff fun hne => hne.symm).mpr (hkeys.filter _)

omit h

/-! ## Runs -/

/-- The totals are exact, the weights are positive, and what an open proposal has is at most
the total. -/
structure ExactWeights (k : Keeper A X M) (s : State A X M) : Prop where
  totals : ∀ (id : Nat) (g : GroupInfo A), s.groups[id]? = some g →
    ∃ d, g.totalWeight = some d ∧ d.val = weightOf s.members id
  positive : ∀ (key : Nat × Bytes) (m : Member), s.members[key]? = some m → Positive m.weight
  tallied : ∀ (id : Nat) (p : Proposal A M) (q : GroupPolicyInfo A) (g : GroupInfo A)
    (t : TallyResult), s.proposals[id]? = some p → p.status = .submitted →
    k.HasPolicy s p.groupPolicyAddress q → s.groups[q.groupId]? = some g →
    tally s id p q.groupId = .ok t → t.counted ≤ value g.totalWeight

/-- Every open proposal can be tallied and decided, and so can all whose time is over. -/
structure TalliesSucceed (k : Keeper A X M) (s : State A X M) : Prop where
  allow : ∀ (id : Nat) (p : Proposal A M), s.proposals[id]? = some p → p.status = .submitted →
    ∃ q g t r, k.HasPolicy s p.groupPolicyAddress q ∧ s.groups[q.groupId]? = some g ∧
      tally s id p q.groupId = .ok t ∧ q.decisionPolicy.allow t g.totalWeight = .ok r
  atVPEnd : ∀ time, ∃ s', k.tallyProposalsAtVPEnd time s = .ok s'

theorem Registered.exactWeights (h : k.Registered s) : k.ExactWeights s := by
  constructor
  · exact h.balanced.totals
  · exact h.balanced.sound.positive
  · intro id p q g t _ hopen _ hg ht
    rw [tally, hopen, if_neg (by decide)] at ht
    exact (tally_le_total h.balanced hg ht).2

theorem Registered.talliesSucceed (h : k.Registered s) (hmod : k.Moderate s) :
    k.TalliesSucceed s := by
  constructor
  · intro id p hp hopen
    obtain ⟨q, addr, haddr, hq⟩ := (h.proposal id p hp).policy
    obtain ⟨g, hg⟩ := h.group addr q hq
    have hgroup := hmod (id, p) (mem_toList_iff_getElem?_eq_some.mpr hp) hopen q
      (by rw [getGroupPolicyInfo_of_hasPolicy ⟨addr, haddr, hq⟩]; rfl)
    obtain ⟨t, r, ht, -, hr⟩ := tally_fits h hgroup id hopen hq hg
    exact ⟨q, g, t, r, ⟨addr, haddr, hq⟩, hg, ht, hr⟩
  · exact tallyProposalsAtVPEnd_ok h hmod

end Runs

def ordinaryRun : List (Step Nat Nat) :=
  [.deliver 5 (.createGroupWithPolicy 1 [⟨2, some ⟨15, -1⟩, 0⟩, ⟨1, some ⟨2, 0⟩, 0⟩] 0 0 false
      (.percentage (some ⟨5, -1⟩) (some ⟨5, 0⟩))),
    .deliver 5 (.submitProposal 101 [1] ⟨0, 0, 0, true⟩ [.other 9] false),
    .deliver 5 (.vote 1 1 .yes 0 false), .deliver 5 (.vote 1 2 .abstain 0 false)]

/-- A very large and a very small weight, added in the other order than the votes. -/
def extremeRun : List (Step Nat Nat) :=
  [.deliver 5 (.createGroupWithPolicy 1 [⟨2, some ⟨1, 60000⟩, 0⟩, ⟨1, some ⟨1, -60000⟩, 0⟩] 0 0 false
      (.threshold (some ⟨1, 0⟩) (some ⟨5, 0⟩))),
    .deliver 5 (.submitProposal 101 [1] ⟨0, 0, 0, true⟩ [.other 4] false),
    .deliver 5 (.vote 1 1 .yes 0 false), .deliver 5 (.vote 1 2 .yes 0 false), .endBlock 10]

end Keeper

end CosmosSDK.Group
