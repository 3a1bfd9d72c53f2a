import CosmosSDK.Group.Acceptance

/-!
# References between the tables

A stored policy belongs to a stored group, a stored proposal to a stored policy, and a stored
vote has an option that counts.
-/

namespace CosmosSDK.Group

open Store OrderedKV Std.ExtTreeMap

variable [Apd]

structure Keeper.Registered {A X M : Type} (k : Keeper A X M) (s : State A X M) : Prop where
  balanced : Balanced s.groupSeq s.groups s.members
  group : ∀ (addr : Bytes) (q : GroupPolicyInfo A), s.policies[addr]? = some q →
    ∃ g, s.groups[q.groupId]? = some g
  policy : ∀ (addr : Bytes) (q : GroupPolicyInfo A), s.policies[addr]? = some q →
    q.decisionPolicy.validateBasic = .ok ()
  proposal : ∀ (id : Nat) (p : Proposal A M), s.proposals[id]? = some p → k.ValidProposal s id p
  vote : ∀ (key : Nat × Bytes) (v : Vote), s.votes[key]? = some v →
    v.option ≠ .unspecified ∧ v.option ≠ .unknown

namespace Keeper

variable {A X M : Type} {k : Keeper A X M} {s s' : State A X M} {p : Proposal A M} {id : Nat}

omit [Apd] in
theorem ValidProposal.mono (h : k.ValidProposal s id p)
    (hkept : ∀ (addr : Bytes) (q : GroupPolicyInfo A), s.policies[addr]? = some q →
      ∃ q', s'.policies[addr]? = some q') : k.ValidProposal s' id p := by
  obtain ⟨q, addr, haddr, hq⟩ := h.policy
  obtain ⟨q', hq'⟩ := hkept addr q hq
  exact ⟨h.id_ne_zero, h.groupVersion_ne_zero, h.groupPolicyVersion_ne_zero,
    ⟨q', addr, haddr, hq'⟩, h.tally⟩

omit [Apd] in
theorem ValidProposal.congr (h : k.ValidProposal s id p)
    (hsame : s'.policies = s.policies) : k.ValidProposal s' id p := by
  apply h.mono
  intro addr q hq
  exact ⟨q, hsame ▸ hq⟩

section

variable (h : k.Registered s)
include h

theorem registered_setPolicy {policySeq : Nat} {x : X} {addr : Bytes}
    {q : GroupPolicyInfo A}
    (hgroup : (∃ g, s.groups[q.groupId]? = some g) ∨
      ∃ address' q', k.HasPolicy s address' q' ∧ q.groupId = q'.groupId)
    (hvalid : q.decisionPolicy.validateBasic = .ok ()) :
    k.Registered
      { s with policySeq := policySeq, outside := x, policies := s.policies.insert addr q } := by
  have hnew : ∃ g, s.groups[q.groupId]? = some g := by
    rcases hgroup with hg | ⟨address', q', ⟨addr', -, hq'⟩, hid⟩
    · exact hg
    · rw [hid]
      exact h.group addr' q' hq'
  constructor
  · exact h.balanced
  · intro addr' q' hq'
    rcases cases_of_insert hq' with ⟨-, rfl⟩ | ⟨-, hq'⟩
    · exact hnew
    · exact h.group addr' q' hq'
  · intro addr' q' hq'
    rcases cases_of_insert hq' with ⟨-, rfl⟩ | ⟨-, hq'⟩
    · exact hvalid
    · exact h.policy addr' q' hq'
  · intro id p hp
    apply (h.proposal id p hp).mono
    intro addr' q' hq'
    rw [lookup_insert]
    by_cases heq : addr' = addr
    · exact ⟨q, if_pos heq⟩
    · exact ⟨q', by rw [if_neg heq, hq']⟩
  · exact h.vote

theorem registered_proposals (hgroupSeq : s'.groupSeq = s.groupSeq)
    (hgroups : s'.groups = s.groups) (hmembers : s'.members = s.members)
    (hpolicies : s'.policies = s.policies) (hvotes : s'.votes = s.votes)
    (hproposals : ∀ (id : Nat) (p : Proposal A M), s'.proposals[id]? = some p →
      k.ValidProposal s id p) : k.Registered s' := by
  constructor
  · rw [hgroupSeq, hgroups, hmembers]
    exact h.balanced
  · rw [hpolicies, hgroups]
    exact h.group
  · rw [hpolicies]
    exact h.policy
  · intro id p hp
    exact (hproposals id p hp).congr hpolicies
  · rw [hvotes]
    exact h.vote

theorem valid_insert
    (hvalid : k.ValidProposal s id p) (id' : Nat) (p' : Proposal A M)
    (hp' : (s.proposals.insert id p)[id']? = some p') : k.ValidProposal s id' p' := by
  rcases cases_of_insert hp' with ⟨rfl, rfl⟩ | ⟨-, hp'⟩
  · exact hvalid
  · exact h.proposal id' p' hp'

theorem valid_erase (id id' : Nat) (p' : Proposal A M)
    (hp' : (s.proposals.erase id)[id']? = some p') : k.ValidProposal s id' p' :=
  h.proposal id' p' (of_erase hp').2

theorem valid_abort (addr : Bytes) (id : Nat) (p : Proposal A M)
    (hp : (k.abortProposals s addr).proposals[id]? = some p) : k.ValidProposal s id p := by
  have hp : (s.proposals.map _)[id]? = some p := hp
  rw [getElem?_map] at hp
  obtain ⟨old, hold, hmap⟩ := Option.map_eq_some_iff.mp hp
  have hvalid := h.proposal id old hold
  rw [← hmap]
  split_ifs
  · exact ⟨hvalid.id_ne_zero, hvalid.groupVersion_ne_zero, hvalid.groupPolicyVersion_ne_zero,
      hvalid.policy, hvalid.tally⟩
  · exact hvalid

end

theorem Change.registered (hc : Change k s s') (h : k.Registered s) : k.Registered s' := by
  cases hc with
  | regroup groupSeq groups members balanced kept =>
    constructor
    · exact balanced h.balanced
    · intro addr q hq
      obtain ⟨g, hg⟩ := h.group addr q hq
      exact kept q.groupId g hg
    · exact h.policy
    · intro id p hp
      exact (h.proposal id p hp).congr rfl
    · exact h.vote
  | setPolicy policySeq x addr q address group valid => exact registered_setPolicy h group valid
  | abort addr => exact registered_proposals h rfl rfl rfl rfl rfl (valid_abort h addr)
  | submit p absent valid => exact registered_proposals h rfl rfl rfl rfl rfl (valid_insert h valid)
  | setProposal id old p stored valid =>
    exact registered_proposals h rfl rfl rfl rfl rfl (valid_insert h valid)
  | prune id old stored | execute id old stored =>
    exact registered_proposals h rfl rfl rfl rfl rfl (valid_erase h id)
  | vote key option specified known =>
    constructor
    · exact h.balanced
    · exact h.group
    · exact h.policy
    · intro id p hp
      exact (h.proposal id p hp).congr rfl
    · intro key' v hv
      rcases cases_of_insert hv with ⟨-, rfl⟩ | ⟨-, hv⟩
      · exact ⟨specified, known⟩
      · exact h.vote key' v hv
  | pruneVotes =>
    constructor
    · exact h.balanced
    · exact h.group
    · exact h.policy
    · intro id' p hp
      exact (h.proposal id' p hp).congr rfl
    · intro key v hv
      simp only [Keeper.pruneVotes, lookup_foldl_erase, Option.ite_none_left_eq_some] at hv
      exact h.vote key v hv.2
  | accept =>
    exact registered_proposals h rfl rfl rfl rfl rfl h.proposal
  | outside => exact registered_proposals h rfl rfl rfl rfl rfl h.proposal

theorem registered_genesis (k : Keeper A X M) (x : X) (now : Time) :
    k.Registered (genesis x now).state := by
  have hpolicies : ∀ (addr : Bytes) (q : GroupPolicyInfo A),
      ¬ (∅ : OrdMap Bytes (GroupPolicyInfo A))[addr]? = some q := by
    intro addr q hq
    rw [getElem?_empty] at hq
    cases hq
  constructor
  · exact balanced_empty
  · intro addr q hq
    exact absurd hq (hpolicies addr q)
  · intro addr q hq
    exact absurd hq (hpolicies addr q)
  · intro id p hp
    have hp : (∅ : OrdMap Nat (Proposal A M))[id]? = some p := hp
    rw [getElem?_empty] at hp
    cases hp
  · intro key v hv
    have hv : (∅ : OrdMap (Nat × Bytes) Vote)[key]? = some v := hv
    rw [getElem?_empty] at hv
    cases hv

theorem reached_registered [DecidableEq A] (k : Keeper A X M) (x : X) (now : Time)
    (run : List (Step A M)) : k.Registered (k.reached x now run).state :=
  k.reached_invariant (fun _ _ hc => hc.registered) x now (registered_genesis k x now) run

end Keeper

end CosmosSDK.Group
