import CosmosSDK.Group.Changes
import CosmosSDK.Lib.DecimalContext

/-!
# A proposal takes effect at most once

A proposal is deleted when its messages have taken effect, its number is not given again, and
an execution that ends after the proposal is gone fails as a whole.
-/

namespace CosmosSDK.Group

open OrderedKV Fallible List Decimal

/-- The executed proposals are different, gone and numbered. -/
structure Once {A X M : Type} (s : State A X M) : Prop where
  nodup : s.executed.Nodup
  gone : ∀ id ∈ s.executed, s.proposals[id]? = none
  numbered : ∀ id ∈ s.executed, id ≤ s.proposalSeq
  bounded : ∀ (id : Nat) (p : Proposal A M), s.proposals[id]? = some p → id ≤ s.proposalSeq

namespace Keeper

variable {A X M : Type} {k : Keeper A X M} {s s' : State A X M}

theorem once_of_fewer (h : Once s) (hexecuted : s'.executed = s.executed)
    (hseq : s'.proposalSeq = s.proposalSeq)
    (hold : ∀ (id : Nat) (p : Proposal A M), s'.proposals[id]? = some p →
      ∃ old, s.proposals[id]? = some old) : Once s' := by
  constructor
  · rw [hexecuted]
    exact h.nodup
  · intro id hid
    rw [hexecuted] at hid
    cases hp : s'.proposals[id]? with
    | none => rfl
    | some p =>
      obtain ⟨old, hstored⟩ := hold id p hp
      rw [h.gone id hid] at hstored
      cases hstored
  · rw [hexecuted, hseq]
    exact h.numbered
  · intro id p hp
    obtain ⟨old, hstored⟩ := hold id p hp
    rw [hseq]
    exact h.bounded id old hstored

theorem once_submit (h : Once s) (p : Proposal A M) :
    Once { s with
      proposalSeq := s.proposalSeq + 1
      proposals := s.proposals.insert (s.proposalSeq + 1) p } := by
  constructor
  · exact h.nodup
  · intro id hid
    have hne : id ≠ s.proposalSeq + 1 := by
      have : id ≤ s.proposalSeq := h.numbered id hid
      omega
    rw [lookup_insert, if_neg hne]
    exact h.gone id hid
  · intro id hid
    exact Nat.le_succ_of_le (h.numbered id hid)
  · intro id q hq
    rcases cases_of_insert hq with ⟨rfl, -⟩ | ⟨-, hq⟩
    · exact Nat.le_refl _
    · exact Nat.le_succ_of_le (h.bounded id q hq)

variable {id : Nat}

/-- The proposal that takes effect was stored, so it is not among the executed ones. -/
theorem once_execute (h : Once s) {old : Proposal A M}
    (hstored : s.proposals[id]? = some old) :
    Once { s with executed := s.executed ++ [id], proposals := s.proposals.erase id } := by
  have hfresh : id ∉ s.executed := by
    intro hid
    rw [h.gone id hid] at hstored
    cases hstored
  constructor
  · show (s.executed ++ [id]).Nodup
    rw [nodup_append]
    refine ⟨h.nodup, nodup_singleton id, ?_⟩
    intro a ha b hb
    rw [mem_singleton.mp hb]
    exact fun hab => hfresh (hab ▸ ha)
  · intro id' hid'
    rw [lookup_erase]
    by_cases heq : id' = id
    · rw [if_pos heq]
    · rw [if_neg heq]
      rcases mem_append.mp hid' with hmem | hmem
      · exact h.gone id' hmem
      · exact absurd (mem_singleton.mp hmem) heq
  · intro id' hid'
    rcases mem_append.mp hid' with hmem | hmem
    · exact h.numbered id' hmem
    · rw [mem_singleton.mp hmem]
      exact h.bounded id old hstored
  · intro id' p hp
    exact h.bounded id' p (of_erase hp).2

theorem once_genesis (x : X) (now : Time) : Once (genesis (A := A) (M := M) x now).state := by
  constructor
  · exact nodup_nil
  · intro id hid
    cases hid
  · intro id hid
    cases hid
  · intro id p hp
    have hp : (∅ : OrdMap Nat (Proposal A M))[id]? = some p := hp
    rw [Std.ExtTreeMap.getElem?_empty] at hp
    cases hp

section Runs

variable [Apd]

theorem Change.once (hc : Change k s s') (h : Once s) : Once s' := by
  cases hc with
  | regroup groupSeq groups members balanced kept | outside x =>
    exact ⟨h.nodup, h.gone, h.numbered, h.bounded⟩
  | setPolicy =>
    exact ⟨h.nodup, h.gone, h.numbered, h.bounded⟩
  | abort =>
    apply once_of_fewer h
    · rfl
    · rfl
    · intro id p hp
      have hp : (s.proposals.map _)[id]? = some p := hp
      rw [Std.ExtTreeMap.getElem?_map] at hp
      obtain ⟨old, hold, -⟩ := Option.map_eq_some_iff.mp hp
      exact ⟨old, hold⟩
  | submit p => exact once_submit h p
  | setProposal id old p stored =>
    apply once_of_fewer h
    · rfl
    · rfl
    · intro id' p' hp'
      rcases cases_of_insert hp' with ⟨rfl, -⟩ | ⟨-, hp'⟩
      · exact ⟨old, stored⟩
      · exact ⟨p', hp'⟩
  | prune =>
    apply once_of_fewer h
    · rfl
    · rfl
    · intro id' p' hp'
      exact ⟨p', (of_erase hp').2⟩
  | execute id old stored => exact once_execute h stored
  | vote key option specified known | pruneVotes id =>
    exact ⟨h.nodup, h.gone, h.numbered, h.bounded⟩
  | accept =>
    exact ⟨h.nodup, h.gone, h.numbered, h.bounded⟩

/-! ## Failed executions -/

/-- What a failed execution leaves: the state of the tally, with the failure noted.  The router
of the messages does not occur in it. -/
def Failed (k : Keeper A X M) (now : Time) (s : State A X M) (id : Nat) (s' : State A X M) : Prop :=
  ∃ p q tallied p', s.proposals[id]? = some p ∧ k.HasPolicy s p.groupPolicyAddress q ∧
    tallyFirst now s id p q = .ok (tallied, p') ∧
    s' = { tallied with
      proposals := tallied.proposals.insert id { p' with executorResult := .failure } }

omit [Apd] in
theorem finishExec_failure {p : Proposal A M}
    (h : k.finishExec s id p = .ok (s', .failure)) :
    p.executorResult = .failure ∧ s' = { s with proposals := s.proposals.insert id p } := by
  grind [bind_eq_ok, updateProposal, finishExec, setProposal_ok]

theorem exec_failed {invoke : Msg A M → State A X M → Except Failure (State A X M)} {now : Time}
    (h : k.exec invoke now s id = .ok (s', .failure)) : Failed k now s id s' := by
  simp only [exec, passes] at h
  obtain ⟨-, p, hp, -, q, hq, ⟨tallied, p'⟩, htally, h⟩ := h
  refine ⟨p, q, tallied, p', getProposal_ok (raise_eq_ok.mp hp),
    getGroupPolicyInfo_ok (raise_eq_ok.mp hq), raise_eq_ok.mp htally, ?_⟩
  split_ifs at h
  · simp only [bind_eq_ok] at h
    obtain ⟨_, -, done, _, h⟩ := h
    cases done with
    | error => exact (finishExec_failure (raise_eq_ok.mp h)).2
    | ok =>
      -- a proposal that has run is deleted with the result success
      have := (finishExec_failure (raise_eq_ok.mp h)).1
      cases this
  · obtain ⟨hresult, rfl⟩ := finishExec_failure (raise_eq_ok.mp h)
    rw [← hresult]

/-! ## Runs -/

variable [DecidableEq A]

theorem step_error {a : Step A M} {c : Chain A X M} {f : Failure}
    (h : (k.step a c).1 = .error f) : (k.step a c).2 = c := by
  cases a <;> grind [step]

end Runs

/-! ## A small chain

Addresses are numbers below 256; the policy accounts are 101, 102 and so on.  The other modules
keep one number, which a message up to ten can increase up to ten; a message of a larger number
executes a proposal in the name of the account 101, as a `MsgExec` of `x/authz` does. -/

instance decimal128 : Apd := arithmetic maxExponent (by decide)

def smallKeeper : Keeper Nat Nat Nat where
  stringToBytes a := if a < 256 then .ok [UInt8.ofNat a] else .error .invalidAddress
  bytesToString b := .ok (b.headD 0).toNat
  equalFold a b := a == b
  policyAddress n := [UInt8.ofNat (100 + n)]
  hasAccount _ _ := false
  newAccount x _ := x
  handler m x :=
    if 10 < m then
      .invoke x (.exec (m - 10) 101) fun
        | .ok x => .done x
        | .error err => .fail err
    else if x + m ≤ 10 then .done (x + m)
    else .fail (.handler "more than ten")
  validateBasic _ := .ok ()
  signers _ := .ok [[101]]
  config := ⟨1000, 255, 255, 255⟩

def reentrantRun : List (Step Nat Nat) :=
  [.deliver 5 (.createGroupWithPolicy 1 [⟨1, some ⟨1, 0⟩, 0⟩] 0 0 false
      (.threshold (some ⟨1, 0⟩) (some ⟨5, 0⟩))),
    .deliver 5 (.submitProposal 101 [1] ⟨0, 0, 0, true⟩ [.other 6, .exec 1 101, .other 11] false),
    .deliver 5 (.vote 1 1 .yes 0 false), .endBlock 10, .endBlock 1, .deliver 5 (.exec 1 1)]

end Keeper

end CosmosSDK.Group
