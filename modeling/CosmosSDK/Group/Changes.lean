import CosmosSDK.Group.Weights

/-!
# What a message can change

Every message, and every end of a block, is a sequence of the changes below; the messages of
an executed proposal are such a sequence too, to any depth.  The invariants of the module are
proved for one change.
-/

namespace CosmosSDK.Group

open Store OrderedKV Decimal Relation Fallible Except Option Nat

namespace Keeper

variable [Apd] {A X M : Type} (k : Keeper A X M)

def HasPolicy (s : State A X M) (address : A) (q : GroupPolicyInfo A) : Prop :=
  ∃ addr, k.stringToBytes address = .ok addr ∧ s.policies[addr]? = some q

/-- What a write of a proposal checks, for a proposal of a stored policy. -/
structure ValidProposal (s : State A X M) (id : Nat) (p : Proposal A M) : Prop where
  id_ne_zero : id ≠ 0
  groupVersion_ne_zero : p.groupVersion ≠ 0
  groupPolicyVersion_ne_zero : p.groupPolicyVersion ≠ 0
  policy : ∃ q, k.HasPolicy s p.groupPolicyAddress q
  tally : p.finalTallyResult.NonNegative

/-- An accepted proposal has an entry in the history, or was stored as accepted before. -/
def Recorded (s : State A X M) (id : Nat) (p : Proposal A M) : Prop :=
  p.status = .accepted →
    (∃ r ∈ s.accepted, r.proposalId = id ∧ r.tally = p.finalTallyResult) ∨
      ∃ old, s.proposals[id]? = some old ∧ old.status = .accepted ∧
        old.finalTallyResult = p.finalTallyResult

inductive Change : State A X M → State A X M → Prop
  | regroup (s : State A X M) (groupSeq : Nat) (groups : OrdMap Nat (GroupInfo A))
      (members : OrdMap (Nat × Bytes) Member)
      (balanced : Balanced s.groupSeq s.groups s.members → Balanced groupSeq groups members)
      (kept : ∀ (id : Nat) (g : GroupInfo A), s.groups[id]? = some g → ∃ g', groups[id]? = some g') :
      Change s { s with groupSeq := groupSeq, groups := groups, members := members }
  | setPolicy (s : State A X M) (policySeq : Nat) (x : X) (addr : Bytes) (q : GroupPolicyInfo A)
      (address : k.stringToBytes q.address = .ok addr)
      (group : (∃ g, s.groups[q.groupId]? = some g) ∨
        ∃ address' q', k.HasPolicy s address' q' ∧ q.groupId = q'.groupId)
      (valid : q.decisionPolicy.validateBasic = .ok ()) :
      Change s
        { s with policySeq := policySeq, outside := x, policies := s.policies.insert addr q }
  | abort (s : State A X M) (addr : Bytes) : Change s (k.abortProposals s addr)
  | submit (s : State A X M) (p : Proposal A M) (absent : s.proposals[s.proposalSeq + 1]? = none)
      (valid : k.ValidProposal s (s.proposalSeq + 1) p) (opened : p.status = .submitted) :
      Change s
        { s with
          proposalSeq := s.proposalSeq + 1
          proposals := s.proposals.insert (s.proposalSeq + 1) p }
  | setProposal (s : State A X M) (id : Nat) (old p : Proposal A M)
      (stored : s.proposals[id]? = some old) (valid : k.ValidProposal s id p)
      (recorded : Recorded s id p) : Change s { s with proposals := s.proposals.insert id p }
  | prune (s : State A X M) (id : Nat) (old : Proposal A M) (stored : s.proposals[id]? = some old) :
      Change s { s with proposals := s.proposals.erase id }
  | execute (s : State A X M) (id : Nat) (old : Proposal A M) (stored : s.proposals[id]? = some old) :
      Change s { s with executed := s.executed ++ [id], proposals := s.proposals.erase id }
  | vote (s : State A X M) (key : Nat × Bytes) (option : VoteOption)
      (specified : option ≠ .unspecified) (known : option ≠ .unknown) :
      Change s { s with votes := s.votes.insert key ⟨option⟩ }
  | pruneVotes (s : State A X M) (id : Nat) : Change s (Keeper.pruneVotes s id)
  | accept (s : State A X M) (id groupId : Nat) (g : GroupInfo A) (policy : DecisionPolicy)
      (t : TallyResult) (final : Bool) (group : s.groups[groupId]? = some g)
      (tallied : tallyVotes s groupId (votesByProposal s id) .default = .ok t)
      (allowed : policy.allow t g.totalWeight = .ok ⟨true, final⟩) :
      Change s { s with accepted := s.accepted ++ [⟨id, policy, t, g.totalWeight⟩] }
  | outside (s : State A X M) (x : X) : Change s { s with outside := x }

def Changes : State A X M → State A X M → Prop := ReflTransGen (Change k)

variable {k} {s s' : State A X M}

theorem Change.changes (h : Change k s s') : k.Changes s s' := ReflTransGen.single h

theorem Changes.refl (s : State A X M) : k.Changes s s := ReflTransGen.refl

theorem Changes.trans {s'' : State A X M} (h : k.Changes s s') (h' : k.Changes s' s'') :
    k.Changes s s'' :=
  ReflTransGen.trans h h'

variable {P : State A X M → Prop} {id metadataLen groupId gas : Nat} {g : GroupInfo A}
  {p p' : Proposal A M} {address admin newAdmin policyAddress : A} {q : GroupPolicyInfo A}
  {members : List (MemberRequest A)} {policy : DecisionPolicy} {now : Time} {proposers : List A}
  {result : ExecutorResult} {proposals : List (Nat × Proposal A M)}

theorem Changes.invariant (hstep : ∀ s s', Change k s s' → P s → P s') (h : k.Changes s s')
    (hs : P s) : P s' := by
  induction h with
  | refl => exact hs
  | tail _ hlast ih => exact hstep _ _ hlast ih

/-! ## Tables -/

omit [Apd] in
theorem getGroupInfo_ok (h : getGroupInfo s id = .ok g) : s.groups[id]? = some g := by
  unfold getGroupInfo at h
  cases hg : s.groups[id]? with
  | none =>
    rw [hg] at h
    cases h
  | some =>
    rw [hg] at h
    rw [ok.inj h]

omit [Apd] in
theorem getProposal_ok (h : getProposal s id = .ok p) : s.proposals[id]? = some p := by
  unfold getProposal at h
  cases hp : s.proposals[id]? with
  | none =>
    rw [hp] at h
    cases h
  | some =>
    rw [hp] at h
    rw [ok.inj h]

omit [Apd] in
theorem getGroupPolicyInfo_ok (h : k.getGroupPolicyInfo s address = .ok q) :
    k.HasPolicy s address q := by
  rw [getGroupPolicyInfo, bind_eq_ok] at h
  obtain ⟨addr, haddr, h⟩ := h
  cases hq : s.policies[addr]? with
  | none =>
    rw [hq] at h
    cases h
  | some =>
    rw [hq] at h
    rw [ok.inj h] at hq
    exact ⟨addr, haddr, hq⟩

omit [Apd] in
theorem setGroup_ok (h : k.setGroup s id g = .ok s') :
    s' = { s with groups := s.groups.insert id g } := by
  simp only [setGroup, passes] at h
  obtain ⟨-, -, -, -, -, -, h⟩ := h
  exact (ok.inj h).symm

omit [Apd] in
theorem updateGroup_ok (h : k.updateGroup s id g = .ok s') :
    s' = { s with groups := s.groups.insert id g } := by
  rw [updateGroup, bind_eq_ok] at h
  obtain ⟨-, -, h⟩ := h
  exact setGroup_ok h

theorem setPolicy_ok (h : k.setPolicy s q = .ok s') :
    ∃ addr, k.stringToBytes q.address = .ok addr ∧ q.decisionPolicy.validateBasic = .ok () ∧
      s' = { s with policies := s.policies.insert addr q } := by
  simp only [setPolicy, passes] at h
  obtain ⟨-, -, addr, haddr, -, -, ⟨⟩, hvalid, h⟩ := h
  exact ⟨addr, haddr, hvalid, (ok.inj h).symm⟩

omit [Apd] in
theorem setProposal_ok (h : k.setProposal s id p = .ok s') :
    (∀ q, k.HasPolicy s p.groupPolicyAddress q → k.ValidProposal s id p) ∧
      s' = { s with proposals := s.proposals.insert id p } := by
  simp only [setProposal, newNonNegativeDecFromString_eq_ok, passes] at h
  obtain ⟨hid, -, -, hgroup, hpolicy, y, hy, n, hn, a, ha, v, hv, h⟩ := h
  refine ⟨?_, (ok.inj h).symm⟩
  intro q hq
  exact ⟨hid, hgroup, hpolicy, ⟨q, hq⟩, ⟨⟨y, hy⟩, ⟨n, hn⟩, ⟨a, ha⟩, ⟨v, hv⟩⟩⟩

theorem updateProposal_changes (h : k.updateProposal s id p = .ok s')
    (hq : k.HasPolicy s p.groupPolicyAddress q) (hr : Recorded s id p) : k.Changes s s' := by
  rw [updateProposal, bind_eq_ok] at h
  obtain ⟨old, hold, h⟩ := h
  obtain ⟨hvalid, rfl⟩ := setProposal_ok h
  exact (Change.setProposal s id old p (getProposal_ok hold) (hvalid q hq) hr).changes

omit [Apd] in
theorem pruneProposal_ok (h : pruneProposal s id = .ok s') :
    ∃ old, s.proposals[id]? = some old ∧ s' = { s with proposals := s.proposals.erase id } := by
  rw [pruneProposal, bind_eq_ok] at h
  obtain ⟨old, hold, h⟩ := h
  exact ⟨old, getProposal_ok hold, (ok.inj h).symm⟩

theorem pruneProposal_changes (h : pruneProposal s id = .ok s') : k.Changes s s' := by
  obtain ⟨old, hold, rfl⟩ := pruneProposal_ok h
  exact (Change.prune s id old hold).changes

/-! ## Groups -/

section Balance

variable {groupSeq : Nat} {groups : OrdMap Nat (GroupInfo A)}
  {members members' : OrdMap (Nat × Bytes) Member} {g : GroupInfo A} {d : Dec}

omit [Apd] in
theorem balanced_update (h : Balanced groupSeq groups members)
    (hid : groupId ≤ groupSeq) (htotal : g.totalWeight = some d)
    (hd : d.val = weightOf members' groupId) (hsound : Sound groupSeq members')
    (hothers : ∀ id, id ≠ groupId → weightOf members' id = weightOf members id) :
    Balanced groupSeq (groups.insert groupId g) members' := by
  constructor
  · intro id g' hg'
    rcases cases_of_insert hg' with ⟨rfl, rfl⟩ | ⟨hne, hg'⟩
    · exact ⟨d, htotal, hd⟩
    · rw [hothers id hne]
      exact h.totals id g' hg'
  · exact hsound
  · intro id g' hg'
    rcases cases_of_insert hg' with ⟨rfl, -⟩ | ⟨-, hg'⟩
    · exact hid
    · exact h.bounded id g' hg'

omit [Apd] in
theorem balanced_create (h : Balanced groupSeq groups members) (htotal : g.totalWeight = some d)
    (hd : d.val = weightOf members' (groupSeq + 1)) (hsound : Sound (groupSeq + 1) members')
    (hothers : ∀ id, id ≠ groupSeq + 1 → weightOf members' id = weightOf members id) :
    Balanced (groupSeq + 1) (groups.insert (groupSeq + 1) g) members' := by
  have hwider : Balanced (groupSeq + 1) groups members := by
    constructor
    · exact h.totals
    · exact ⟨h.sound.positive, fun key m hm => le_succ_of_le (h.sound.known key m hm)⟩
    · intro id g' hg'
      exact le_succ_of_le (h.bounded id g' hg')
  exact balanced_update hwider (le_refl _) htotal hd hsound hothers

omit [Apd] in
theorem kept_insert (groupId : Nat) (g : GroupInfo A) (id : Nat) (g' : GroupInfo A)
    (h : groups[id]? = some g') : ∃ g'', (groups.insert groupId g)[id]? = some g'' := by
  rw [lookup_insert]
  by_cases heq : id = groupId
  · exact ⟨g, if_pos heq⟩
  · exact ⟨g', by rw [if_neg heq, h]⟩

end Balance

theorem createGroup_changes [DecidableEq A]
    (h : k.createGroup s admin members metadataLen = .ok (s', id)) : k.Changes s s' := by
  simp only [createGroup, bind_eq_ok] at h
  obtain ⟨-, -, -, -, -, -, d, hsum, h⟩ := h
  obtain ⟨hval, hpos⟩ := sumWeights_ok hsum
  cases hrow : s.groups[s.groupSeq + 1]? with
  | some =>
    rw [hrow] at h
    cases h
  | none =>
    rw [hrow] at h
    simp only [bind_eq_ok] at h
    obtain ⟨_, hs1, table, htable, h⟩ := h
    cases h
    have hset := setGroup_ok hs1
    subst hset
    apply Change.changes
    apply Change.regroup s (s.groupSeq + 1) _ table
    · intro hb
      have hwide : Sound (s.groupSeq + 1) s.members :=
        ⟨hb.sound.positive, fun key m hm => le_succ_of_le (hb.sound.known key m hm)⟩
      obtain ⟨hsound, hweight⟩ := createMembers_ok htable (le_refl _) hpos hwide
      apply balanced_create hb rfl
      · rw [d.plain_val, hval, hweight, if_pos rfl,
          weightOf_unknown hb.sound (lt_succ_self _), Dec.val_ofInt, Int.cast_zero]
      · exact hsound
      · intro id hne
        rw [hweight id, if_neg hne, add_zero]
    · exact kept_insert _ _

omit [Apd] in
theorem groupForAdmin_ok (h : k.groupForAdmin s groupId admin = .ok g) :
    s.groups[groupId]? = some g := by
  rw [groupForAdmin, bind_eq_ok] at h
  obtain ⟨_, hg', h⟩ := h
  obtain ⟨-, h⟩ := require_eq_ok.mp h
  rw [← ok.inj h]
  exact getGroupInfo_ok hg'

theorem updateGroup_changes {g' : GroupInfo A} (hg : s.groups[groupId]? = some g)
    (h : k.updateGroup s groupId g' = .ok s') (htotal : g'.totalWeight = g.totalWeight) :
    k.Changes s s' := by
  rw [updateGroup_ok h]
  apply Change.changes
  apply Change.regroup s s.groupSeq _ s.members
  · intro hb
    obtain ⟨_, hd, hval⟩ := hb.totals groupId g hg
    exact balanced_update hb (hb.bounded groupId g hg) (htotal.trans hd) hval hb.sound fun _ _ => rfl
  · exact kept_insert groupId g'

theorem updateGroupMembers_changes [DecidableEq A] {updates : List (MemberRequest A)}
    (h : k.updateGroupMembers s admin groupId updates = .ok s') : k.Changes s s' := by
  simp only [updateGroupMembers, passes] at h
  obtain ⟨-, -, -, -, g, hg, _, ht, ⟨_, table⟩, hup, -, -, -, h⟩ := h
  have hrow := groupForAdmin_ok hg
  have htotal := (newNonNegativeDecFromString_eq_ok.mp ht).1
  rw [updateGroup_ok h]
  apply Change.changes
  apply Change.regroup s s.groupSeq _ table
  · intro hb
    obtain ⟨_, hd, hval⟩ := hb.totals groupId g hrow
    obtain rfl := mem_unique htotal hd
    have hid := hb.bounded groupId g hrow
    obtain ⟨hsound, hweight, hothers⟩ := updateMembers_ok hup hid hb.sound hval
    exact balanced_update hb hid rfl (by rw [Dec.plain_val, hweight]) hsound hothers
  · exact kept_insert groupId _

theorem updateGroupAdmin_changes (h : k.updateGroupAdmin s admin groupId newAdmin = .ok s') :
    k.Changes s s' := by
  simp only [updateGroupAdmin, passes] at h
  obtain ⟨-, -, -, -, -, -, _, hg, h⟩ := h
  exact updateGroup_changes (groupForAdmin_ok hg) h rfl

theorem updateGroupMetadata_changes (h : k.updateGroupMetadata s admin groupId metadataLen = .ok s') :
    k.Changes s s' := by
  simp only [updateGroupMetadata, passes] at h
  obtain ⟨-, -, -, -, -, _, hg, h⟩ := h
  exact updateGroup_changes (groupForAdmin_ok hg) h rfl

theorem leaveGroup_changes (h : k.leaveGroup s groupId address = .ok s') : k.Changes s s' := by
  simp only [leaveGroup, passes] at h
  obtain ⟨-, _, hkey, g, hg, _, ht, h⟩ := h
  obtain ⟨addr, -, rfl⟩ := rowKey_eq_ok hkey
  cases hrow : s.members[(groupId, addrKey addr)]? with
  | none =>
    rw [hrow] at h
    cases h
  | some m =>
    rw [hrow] at h
    simp only [bind_eq_ok] at h
    obtain ⟨w, hw, u, hu, -, -, h⟩ := h
    have hgroup := getGroupInfo_ok hg
    have htotal := (newNonNegativeDecFromString_eq_ok.mp ht).1
    have hweight := weightOf_erase s.members (groupId, addrKey addr)
    rw [updateGroup_ok h]
    apply Change.changes
    apply Change.regroup s s.groupSeq _ (s.members.erase (groupId, addrKey addr))
    · intro hb
      obtain ⟨d, hd, _⟩ := hb.totals groupId g hgroup
      obtain rfl := mem_unique htotal hd
      apply balanced_update hb (hb.bounded groupId g hgroup) rfl
      · have := hweight groupId
        rw [part_of_some _ hrow, if_pos rfl, value_of_positive hw] at this
        rw [Dec.plain_val, subNonNegative_val hu]
        linarith
      · exact hb.sound.erase _
      · intro id hne
        have := hweight id
        rw [part_of_some _ hrow, if_neg fun hc => hne hc.symm] at this
        linarith
    · exact kept_insert groupId _

/-! ## Policies -/

theorem createGroupPolicy_changes
    (h : k.createGroupPolicy gas s admin groupId metadataLen policy = .ok (some (s', address))) :
    k.Changes s s' := by
  simp only [createGroupPolicy, passes] at h
  obtain ⟨-, -, -, -, -, -, -, g, hg, -, -, -, -, -, h⟩ := h
  cases hnext : k.nextPolicyAddress s.outside gas s.policySeq with
  | none =>
    rw [hnext] at h
    cases h
  | some next =>
    rw [hnext] at h
    obtain ⟨policySeq, addr⟩ := next
    simp only [bind_eq_ok] at h
    obtain ⟨address', -, key, -, h⟩ := h
    cases hrow : s.policies[key]? with
    | some =>
      rw [hrow] at h
      cases h
    | none =>
      rw [hrow] at h
      simp only [bind_eq_ok] at h
      obtain ⟨_, hs1, h⟩ := h
      obtain ⟨rfl, -⟩ := Prod.mk.inj (some.inj (ok.inj h))
      obtain ⟨key', hkey', hvalid, rfl⟩ := setPolicy_ok hs1
      exact (Change.setPolicy s policySeq (k.newAccount s.outside addr) key'
        ⟨address', groupId, admin, 1, policy⟩ hkey' (.inl ⟨g, getGroupInfo_ok hg⟩) hvalid).changes

theorem doUpdateGroupPolicy_changes [DecidableEq A]
    {action : GroupPolicyInfo A → Except GroupErr (State A X M)}
    (haction : ∀ q s1, k.HasPolicy s policyAddress q → action q = .ok s1 → k.Changes s s1)
    (h : k.doUpdateGroupPolicy s policyAddress admin action = .ok s') : k.Changes s s' := by
  simp only [doUpdateGroupPolicy, passes] at h
  obtain ⟨addr, -, -, -, q, hq, -, s1, hs1, h⟩ := h
  rw [← ok.inj h]
  exact (haction q s1 (getGroupPolicyInfo_ok hq) hs1).trans (Change.abort s1 addr).changes

theorem updatePolicy_changes {q' : GroupPolicyInfo A} (hq : k.HasPolicy s policyAddress q)
    (h : k.updatePolicy s q' = .ok s') (hgroup : q'.groupId = q.groupId) : k.Changes s s' := by
  rw [updatePolicy, bind_eq_ok] at h
  obtain ⟨-, -, h⟩ := h
  obtain ⟨addr, haddr, hvalid, rfl⟩ := setPolicy_ok h
  exact (Change.setPolicy s s.policySeq s.outside addr q' haddr
    (.inr ⟨policyAddress, q, hq, hgroup⟩) hvalid).changes

theorem updateGroupPolicyAdmin_changes [DecidableEq A]
    (h : k.updateGroupPolicyAdmin s admin policyAddress newAdmin = .ok s') : k.Changes s s' := by
  simp only [updateGroupPolicyAdmin, passes] at h
  obtain ⟨-, -, -, h⟩ := h
  apply doUpdateGroupPolicy_changes _ h
  intro q s1 hq hs1
  exact updatePolicy_changes hq hs1 rfl

theorem updateGroupPolicyDecisionPolicy_changes [DecidableEq A]
    (h : k.updateGroupPolicyDecisionPolicy s admin policyAddress policy = .ok s') :
    k.Changes s s' := by
  rw [updateGroupPolicyDecisionPolicy, bind_eq_ok] at h
  obtain ⟨-, -, h⟩ := h
  apply doUpdateGroupPolicy_changes _ h
  intro q s1 hq hs1
  simp only [bind_eq_ok] at hs1
  obtain ⟨-, -, -, -, hs1⟩ := hs1
  exact updatePolicy_changes hq hs1 rfl

theorem updateGroupPolicyMetadata_changes [DecidableEq A]
    (h : k.updateGroupPolicyMetadata s admin policyAddress metadataLen = .ok s') :
    k.Changes s s' := by
  rw [updateGroupPolicyMetadata, bind_eq_ok] at h
  obtain ⟨-, -, h⟩ := h
  apply doUpdateGroupPolicy_changes _ h
  intro q s1 hq hs1
  exact updatePolicy_changes hq hs1 rfl

theorem createGroupWithPolicy_changes [DecidableEq A] {groupMetadataLen policyMetadataLen : Nat}
    {policyAsAdmin : Bool}
    (h : k.createGroupWithPolicy gas s admin members groupMetadataLen policyMetadataLen
      policyAsAdmin policy = .ok (some s')) : k.Changes s s' := by
  rw [createGroupWithPolicy, bind_eq_ok] at h
  obtain ⟨⟨_, _⟩, hs1, h⟩ := h
  obtain ⟨created, hcreated, h⟩ := bind_eq_ok.mp h
  cases created with
  | none => cases h
  | some pair =>
    obtain ⟨_, _⟩ := pair
    have htwo := (createGroup_changes hs1).trans (createGroupPolicy_changes hcreated)
    simp only at h
    split_ifs at h
    · simp only [bind_eq_ok] at h
      obtain ⟨_, hs3, _, hs4, h⟩ := h
      rw [← some.inj (ok.inj h)]
      exact (htwo.trans (updateGroupAdmin_changes hs3)).trans (updateGroupPolicyAdmin_changes hs4)
    · rw [← some.inj (ok.inj h)]
      exact htwo

/-! ## Proposals and votes -/

theorem submitProposal_changes [DecidableEq A] {texts : ProposalTexts} {msgs : List (Msg A M)}
    (h : k.submitProposal now s policyAddress proposers texts msgs = .ok (s', id)) :
    k.Changes s s' := by
  simp only [submitProposal, passes] at h
  obtain ⟨-, -, -, -, -, -, -, -, -, q, hq, _, _, -, -, -, -, -, -, h⟩ := h
  cases hrow : s.proposals[s.proposalSeq + 1]? with
  | some =>
    rw [hrow] at h
    cases h
  | none =>
    rw [hrow] at h
    simp only [bind_eq_ok] at h
    obtain ⟨_, hs1, h⟩ := h
    cases h
    obtain ⟨hvalid, rfl⟩ := setProposal_ok hs1
    obtain ⟨hid, hgroup, hpolicy, hstored, htally⟩ := hvalid q (getGroupPolicyInfo_ok hq)
    exact (Change.submit s _ hrow ⟨hid, hgroup, hpolicy, hstored, htally⟩ rfl).changes

theorem withdrawProposal_changes [DecidableEq A] (h : k.withdrawProposal s id address = .ok s') :
    k.Changes s s' := by
  simp only [withdrawProposal, passes] at h
  obtain ⟨-, -, -, _, -, -, _, hq, -, h⟩ := h
  apply updateProposal_changes h (getGroupPolicyInfo_ok hq)
  intro hc
  cases hc

theorem vote_changes {voter : A} {option : VoteOption}
    (h : k.vote now s id voter option metadataLen = .ok s') : k.Changes s s' := by
  simp only [vote, passes] at h
  obtain ⟨-, hspecified, hknown, -, -, addr, -, _, -, -, -, q, -, -, -, h⟩ := h
  cases hmember : s.members[(q.groupId, addrKey addr)]? with
  | none =>
    rw [hmember] at h
    cases h
  | some =>
    rw [hmember] at h
    cases hvote : s.votes[(id, addrKey addr)]? with
    | some =>
      simp only [hvote] at h
      cases h
    | none =>
      simp only [hvote] at h
      rw [← ok.inj h]
      exact (Change.vote s (id, addrKey addr) option hspecified hknown).changes

theorem voteAll_changes (h : k.voteAll now id proposers s = .ok s') : k.Changes s s' := by
  induction proposers generalizing s with
  | nil =>
    rw [← ok.inj h]
    exact Changes.refl s
  | cons proposer proposers ih =>
    rw [voteAll, bind_eq_ok] at h
    obtain ⟨_, hs1, h⟩ := h
    exact (vote_changes hs1).trans (ih h)

/-! ## Execution -/

theorem doTallyAndUpdate_changes (hopen : p.status = .submitted)
    (hg : s.groups[q.groupId]? = some g) (h : doTallyAndUpdate now s id p g q = .ok (s', p')) :
    k.Changes s s' ∧ s'.policies = s.policies ∧
      p'.groupPolicyAddress = p.groupPolicyAddress ∧ Recorded s' id p' := by
  have htally : tally s id p q.groupId =
      tallyVotes s q.groupId (votesByProposal s id) .default := by
    rw [tally, hopen]
    exact if_neg (by decide)
  rw [doTallyAndUpdate, htally, bind_eq_ok] at h
  obtain ⟨t, ht, h⟩ := h
  obtain ⟨⟨_, final⟩, hresult, h⟩ := bind_eq_ok.mp h
  split_ifs at h with hfinal hallowed
  · cases h
    simp only at hallowed
    subst hallowed
    -- the tally is recorded before the votes are pruned
    have haccept := Change.accept (k := k) s id q.groupId g q.decisionPolicy t final hg ht hresult
    refine ⟨haccept.changes.trans (Change.pruneVotes _ id).changes, rfl, rfl, ?_⟩
    exact fun _ => .inl ⟨_, List.mem_append_right _ (List.mem_singleton_self _), rfl, rfl⟩
  · cases h
    exact ⟨(Change.pruneVotes s id).changes, rfl, rfl, fun hc => by cases hc⟩
  · cases h
    exact ⟨Changes.refl s, rfl, rfl, fun hc => by rw [hopen] at hc; cases hc⟩

theorem tallyFirst_changes (hp : s.proposals[id]? = some p)
    (h : tallyFirst now s id p q = .ok (s', p')) :
    k.Changes s s' ∧ s'.policies = s.policies ∧
      p'.groupPolicyAddress = p.groupPolicyAddress ∧ Recorded s' id p' := by
  unfold tallyFirst at h
  split_ifs at h with hopen
  · rw [bind_eq_ok] at h
    obtain ⟨_, hg, h⟩ := h
    exact doTallyAndUpdate_changes hopen (getGroupInfo_ok hg) h
  · cases h
    exact ⟨Changes.refl s, rfl, rfl, fun hstatus => .inr ⟨p, hp, hstatus, rfl⟩⟩

omit [Apd] in
theorem raise_eq_ok {α : Type} {r : Except GroupErr α} {a : α} : raise r = .ok a ↔ r = .ok a := by
  cases r with
  | error err | ok b => simp [raise]

omit [Apd] in
theorem branch_eq_ok {S : Type} {r : Except Failure S} {t : S} (h : branch r = .ok (.ok t)) :
    r = .ok t := by
  cases r with
  | error f =>
    cases f with
    | err err | outOfGas => cases h
  | ok =>
    rw [ok.inj (ok.inj h)]

theorem finishExec_changes (hq : k.HasPolicy s p.groupPolicyAddress q) (hr : Recorded s id p)
    (h : k.finishExec s id p = .ok (s', result)) : k.Changes s s' := by
  grind [bind_eq_ok, finishExec, pruneProposal_changes, updateProposal_changes]

theorem finishExec_success (hp : p.executorResult = .success)
    (h : k.finishExec { s with executed := s.executed ++ [id] } id p = .ok (s', result)) :
    Change k s s' := by
  rw [finishExec, if_pos hp, bind_eq_ok] at h
  obtain ⟨_, hs1, h⟩ := h
  cases h
  obtain ⟨old, hold, rfl⟩ := pruneProposal_ok hs1
  exact Change.execute s id old hold

section Execution

variable {invoke : Msg A M → State A X M → Except Failure (State A X M)}
  (hinvoke : ∀ msg s s', invoke msg s = .ok s' → k.Changes s s')

include hinvoke

theorem invokeAll_changes {msgs : List (Msg A M)} (h : invokeAll invoke msgs s = .ok s') :
    k.Changes s s' := by
  induction msgs generalizing s with
  | nil =>
    rw [← ok.inj h]
    exact Changes.refl s
  | cons msg msgs ih =>
    rw [invokeAll, bind_eq_ok] at h
    obtain ⟨s1, hs1, h⟩ := h
    exact (hinvoke msg s s1 hs1).trans (ih h)

/-- By induction on what is left of the handler. -/
theorem perform_changes {a : Handling A X M} (h : perform invoke a s = .ok s') : k.Changes s s' := by
  induction a generalizing s with
  | done x =>
    rw [← ok.inj h]
    exact (Change.outside s x).changes
  | fail err => cases h
  | invoke x msg next ih =>
    rw [perform, bind_eq_ok] at h
    obtain ⟨done, hdone, h⟩ := h
    have hsent := (Change.outside (k := k) s x).changes
    cases done with
    | error err => exact hsent.trans (ih (.error err) h)
    | ok s1 =>
      have hmsg := hinvoke msg _ s1 (branch_eq_ok hdone)
      exact (hsent.trans hmsg).trans (ih (.ok s1.outside) h)

variable {now : Time} {id : Nat}

theorem doExecuteMsgs_changes {addr : Bytes}
    (h : k.doExecuteMsgs invoke now s p addr policy = .ok s') : k.Changes s s' := by
  simp only [doExecuteMsgs, passes] at h
  obtain ⟨-, -, -, -, h⟩ := h
  exact invokeAll_changes hinvoke h

theorem exec_changes (h : k.exec invoke now s id = .ok (s', result)) :
    k.Changes s s' := by
  simp only [exec, passes] at h
  obtain ⟨-, _, hp, -, q, hq, ⟨s1, p1⟩, hs1, h⟩ := h
  obtain ⟨htally, hpolicies, haddress, hrecorded⟩ :=
    tallyFirst_changes (getProposal_ok (raise_eq_ok.mp hp)) (raise_eq_ok.mp hs1)
  have hpolicy : k.HasPolicy s1 p1.groupPolicyAddress q := by
    unfold HasPolicy
    rw [hpolicies, haddress]
    exact getGroupPolicyInfo_ok (raise_eq_ok.mp hq)
  split_ifs at h
  · simp only [bind_eq_ok] at h
    obtain ⟨_, -, done, hdone, h⟩ := h
    cases done with
    | error =>
      have hfailed : k.HasPolicy s1 { p1 with executorResult := .failure }.groupPolicyAddress q :=
        hpolicy
      exact htally.trans (finishExec_changes hfailed hrecorded (raise_eq_ok.mp h))
    | ok =>
      have hmsgs := doExecuteMsgs_changes hinvoke (branch_eq_ok hdone)
      exact (htally.trans hmsgs).trans (finishExec_success rfl (raise_eq_ok.mp h)).changes
  · exact htally.trans (finishExec_changes hpolicy hrecorded (raise_eq_ok.mp h))

theorem execMsg_changes (h : k.execMsg invoke now s id = .ok s') : k.Changes s s' := by
  rw [execMsg, bind_eq_ok] at h
  obtain ⟨⟨_, _⟩, hs1, h⟩ := h
  rw [← ok.inj h]
  exact exec_changes hinvoke hs1

variable [DecidableEq A]

theorem handleWith_changes {msg : Msg A M}
    (h : k.handleWith invoke gas now msg s = .ok s') : k.Changes s s' := by
  cases msg with
  | createGroup =>
    simp only [handleWith, bind_eq_ok] at h
    obtain ⟨⟨s1, _⟩, hs1, h⟩ := h
    rw [← ok.inj h]
    exact createGroup_changes (raise_eq_ok.mp hs1)
  | updateGroupMembers => exact updateGroupMembers_changes (raise_eq_ok.mp h)
  | updateGroupAdmin => exact updateGroupAdmin_changes (raise_eq_ok.mp h)
  | updateGroupMetadata => exact updateGroupMetadata_changes (raise_eq_ok.mp h)
  | createGroupPolicy =>
    simp only [handleWith, bind_eq_ok] at h
    obtain ⟨created, hcreated, h⟩ := h
    cases created with
    | none => cases h
    | some =>
      rw [← ok.inj h]
      exact createGroupPolicy_changes (raise_eq_ok.mp hcreated)
  | createGroupWithPolicy =>
    simp only [handleWith, bind_eq_ok] at h
    obtain ⟨created, hcreated, h⟩ := h
    cases created with
    | none => cases h
    | some =>
      rw [← ok.inj h]
      exact createGroupWithPolicy_changes (raise_eq_ok.mp hcreated)
  | updateGroupPolicyAdmin =>
    exact updateGroupPolicyAdmin_changes (raise_eq_ok.mp h)
  | updateGroupPolicyDecisionPolicy =>
    exact updateGroupPolicyDecisionPolicy_changes (raise_eq_ok.mp h)
  | updateGroupPolicyMetadata =>
    exact updateGroupPolicyMetadata_changes (raise_eq_ok.mp h)
  | submitProposal =>
    simp only [handleWith, bind_eq_ok] at h
    obtain ⟨⟨_, _⟩, hs1, h⟩ := h
    have hsubmit := submitProposal_changes (raise_eq_ok.mp hs1)
    simp only at h
    split_ifs at h
    · rw [bind_eq_ok] at h
      obtain ⟨_, hs2, h⟩ := h
      have hvotes := voteAll_changes (raise_eq_ok.mp hs2)
      exact (hsubmit.trans hvotes).trans (execMsg_changes hinvoke h)
    · rw [← ok.inj h]
      exact hsubmit
  | withdrawProposal => exact withdrawProposal_changes (raise_eq_ok.mp h)
  | vote =>
    simp only [handleWith, bind_eq_ok] at h
    obtain ⟨_, hs1, h⟩ := h
    have hvote := vote_changes (raise_eq_ok.mp hs1)
    split_ifs at h
    · exact hvote.trans (execMsg_changes hinvoke h)
    · rw [← ok.inj h]
      exact hvote
  | exec => exact execMsg_changes hinvoke h
  | leaveGroup => exact leaveGroup_changes (raise_eq_ok.mp h)
  | other => exact perform_changes hinvoke h

end Execution

/-- Every message is a sequence of changes; by induction on the depth of executions. -/
theorem handle_changes [DecidableEq A] {msg : Msg A M} (h : k.handle now gas msg s = .ok s') :
    k.Changes s s' := by
  induction gas generalizing msg s s' with
  | zero => cases h
  | succ gas ih => exact handleWith_changes (fun _ _ _ hmsg => ih hmsg) h

/-! ## End of a block -/

theorem tallyAtVPEnd_changes (h : k.tallyAtVPEnd now s id p = .ok s') : k.Changes s s' := by
  simp only [tallyAtVPEnd, bind_eq_ok] at h
  obtain ⟨q, hq, _, hg, h⟩ := h
  split_ifs at h with _ hopen
  · rw [bind_eq_ok] at h
    obtain ⟨s1, hs1, h⟩ := h
    rw [← ok.inj h]
    exact (pruneProposal_changes hs1).trans (Change.pruneVotes s1 id).changes
  · rw [bind_eq_ok] at h
    obtain ⟨⟨s1, p1⟩, hs1, h⟩ := h
    obtain ⟨htally, hpolicies, haddress, hrecorded⟩ :=
      doTallyAndUpdate_changes hopen (getGroupInfo_ok hg) hs1
    have hpolicy : k.HasPolicy s1 p1.groupPolicyAddress q := by
      unfold HasPolicy
      rw [hpolicies, haddress]
      exact getGroupPolicyInfo_ok hq
    exact htally.trans (updateProposal_changes h hpolicy hrecorded)
  · rw [← ok.inj h]
    exact Changes.refl s

theorem tallyAllAtVPEnd_changes (h : k.tallyAllAtVPEnd now proposals s = .ok s') :
    k.Changes s s' := by
  induction proposals generalizing s with
  | nil =>
    rw [← ok.inj h]
    exact Changes.refl s
  | cons e proposals ih =>
    rw [tallyAllAtVPEnd, bind_eq_ok] at h
    obtain ⟨_, hs1, h⟩ := h
    exact (tallyAtVPEnd_changes hs1).trans (ih h)

theorem pruneAll_changes (h : pruneAll proposals s = .ok s') : k.Changes s s' := by
  induction proposals generalizing s with
  | nil =>
    rw [← ok.inj h]
    exact Changes.refl s
  | cons e proposals ih =>
    rw [pruneAll, bind_eq_ok] at h
    obtain ⟨_, hs1, h⟩ := h
    exact (pruneProposal_changes hs1).trans (ih h)

theorem endBlocker_changes (h : k.endBlocker now s = .ok s') : k.Changes s s' := by
  rw [endBlocker, bind_eq_ok] at h
  obtain ⟨_, hs1, h⟩ := h
  exact (tallyAllAtVPEnd_changes hs1).trans (pruneAll_changes h)

/-! ## Runs -/

variable [DecidableEq A]

theorem step_changes (a : Step A M) (c : Chain A X M) : k.Changes c.state (k.step a c).2.state := by
  cases a with
  | deliver gas msg =>
    simp only [step]
    cases h : k.handle c.now gas msg c.state with
    | error => exact Changes.refl _
    | ok => exact handle_changes h
  | endBlock =>
    simp only [step]
    cases h : k.endBlocker c.now c.state with
    | error => exact Changes.refl _
    | ok => exact endBlocker_changes h

theorem reached_invariant (hstep : ∀ s s', Change k s s' → P s → P s') (x : X) (now : Time)
    (hgenesis : P (genesis (A := A) (M := M) x now).state) (run : List (Step A M)) :
    P (k.reached x now run).state := by
  have halong : Machine.Along k.step (fun _ _ => True) run (genesis x now) :=
    Machine.along_of_forall (fun _ _ => trivial) run (genesis x now)
  apply Machine.Along.invariant (I := fun c => P c.state) _ halong hgenesis
  intro a c _ hc
  exact (step_changes a c).invariant hstep hc

end Keeper

end CosmosSDK.Group
