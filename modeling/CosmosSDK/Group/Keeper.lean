import CosmosSDK.Group.Policy

/-!
# The group keeper

The tables of `x/group/keeper` and the messages that do not execute a proposal.  A table
write validates the row; creating a row that exists, and updating or deleting one that does
not, fails.  `executed` and `accepted` are the history: the proposals whose messages took
effect, and the tallies by which a proposal was accepted.
-/

namespace CosmosSDK.Group

open Store OrderedKV Decimal

/-- `time.Time` and `time.Duration`, in nanoseconds. -/
abbrev Time := Int

structure MemberRequest (A : Type) where
  address : A
  weight : DecString
  metadataLen : Nat

structure GroupInfo (A : Type) where
  admin : A
  version : Nat
  totalWeight : DecString

structure Member where
  weight : DecString

structure GroupPolicyInfo (A : Type) where
  address : A
  groupId : Nat
  admin : A
  version : Nat
  decisionPolicy : DecisionPolicy

inductive ProposalStatus where
  | submitted
  | accepted
  | rejected
  | aborted
  | withdrawn
deriving DecidableEq, Repr

inductive ExecutorResult where
  | notRun
  | success
  | failure
deriving DecidableEq, Repr

/-- What is checked of the texts of a proposal: their lengths, and that a metadata in the
recommended format repeats the title and the summary. -/
structure ProposalTexts where
  metadataLen : Nat
  titleLen : Nat
  summaryLen : Nat
  metadataAgrees : Bool

/-- The messages of the module, and those of the other modules. -/
inductive Msg (A M : Type) where
  | createGroup (admin : A) (members : List (MemberRequest A)) (metadataLen : Nat)
  | updateGroupMembers (admin : A) (groupId : Nat) (memberUpdates : List (MemberRequest A))
  | updateGroupAdmin (admin : A) (groupId : Nat) (newAdmin : A)
  | updateGroupMetadata (admin : A) (groupId : Nat) (metadataLen : Nat)
  | createGroupPolicy (admin : A) (groupId : Nat) (metadataLen : Nat) (policy : DecisionPolicy)
  | createGroupWithPolicy (admin : A) (members : List (MemberRequest A)) (groupMetadataLen : Nat)
      (policyMetadataLen : Nat) (policyAsAdmin : Bool) (policy : DecisionPolicy)
  | updateGroupPolicyAdmin (admin : A) (policyAddress : A) (newAdmin : A)
  | updateGroupPolicyDecisionPolicy (admin : A) (policyAddress : A) (policy : DecisionPolicy)
  | updateGroupPolicyMetadata (admin : A) (policyAddress : A) (metadataLen : Nat)
  | submitProposal (policyAddress : A) (proposers : List A) (texts : ProposalTexts)
      (msgs : List (Msg A M)) (tryExec : Bool)
  | withdrawProposal (proposalId : Nat) (address : A)
  | vote (proposalId : Nat) (voter : A) (option : VoteOption) (metadataLen : Nat) (tryExec : Bool)
  | exec (proposalId : Nat) (executor : A)
  | leaveGroup (groupId : Nat) (address : A)
  | other (msg : M)

structure Proposal (A M : Type) where
  groupPolicyAddress : A
  proposers : List A
  submitTime : Time
  groupVersion : Nat
  groupPolicyVersion : Nat
  status : ProposalStatus
  executorResult : ExecutorResult
  votingPeriodEnd : Time
  finalTallyResult : TallyResult
  msgs : List (Msg A M)

/-- A handler of another module at work, with the state of the other modules.  It can send a
message through the router and goes on with what comes back; an error of that message undoes
what the message did. -/
inductive Handling (A X M : Type) where
  | done (x : X)
  | fail (err : GroupErr)
  | invoke (x : X) (msg : Msg A M) (next : Except GroupErr X → Handling A X M)

structure Vote where
  option : VoteOption

structure Acceptance where
  proposalId : Nat
  policy : DecisionPolicy
  tally : TallyResult
  totalWeight : DecString

structure State (A X M : Type) where
  groupSeq : Nat
  groups : OrdMap Nat (GroupInfo A)
  members : OrdMap (Nat × Bytes) Member
  policySeq : Nat
  policies : OrdMap Bytes (GroupPolicyInfo A)
  proposalSeq : Nat
  proposals : OrdMap Nat (Proposal A M)
  votes : OrdMap (Nat × Bytes) Vote
  /-- the accounts and the other modules -/
  outside : X
  executed : List Nat
  accepted : List Acceptance

structure Keeper (A X M : Type) where
  /-- the address codec -/
  stringToBytes : A → Except GroupErr Bytes
  bytesToString : Bytes → Except GroupErr A
  /-- `strings.EqualFold` -/
  equalFold : A → A → Bool
  /-- the address derived from a value of the policy sequence -/
  policyAddress : Nat → Bytes
  hasAccount : X → Bytes → Bool
  newAccount : X → Bytes → X
  /-- the handlers of the other modules -/
  handler : M → X → Handling A X M
  validateBasic : M → Except GroupErr Unit
  signers : M → Except GroupErr (List Bytes)
  config : Config

/-- The part of a row key that an address gives: a length byte and the address. -/
def addrKey (addr : Bytes) : Bytes := UInt8.ofNat addr.length :: addr

namespace Keeper

variable [Apd] {A X M : Type} [DecidableEq A] (k : Keeper A X M)

/-! ## Tables -/

def assertMetadataLength (len : Nat) (what : String) : Except GroupErr Unit :=
  if len > k.config.maxMetadataLen then .error (.metadataTooLong what) else .ok ()

variable (s : State A X M)

/-- `GroupInfo.ValidateBasic`, and the write. -/
def setGroup (id : Nat) (g : GroupInfo A) : Except GroupErr (State A X M) := do
  if id = 0 then .error (.empty "group's GroupId")
  else do
    let _ ← k.stringToBytes g.admin
    let _ ← newNonNegativeDecFromString g.totalWeight
    if g.version = 0 then .error (.empty "version")
    else .ok { s with groups := s.groups.insert id g }

def getGroupInfo (id : Nat) : Except GroupErr (GroupInfo A) :=
  match s.groups[id]? with
  | none => .error (.notFound "group")
  | some g => .ok g

def updateGroup (id : Nat) (g : GroupInfo A) : Except GroupErr (State A X M) := do
  let _ ← getGroupInfo s id
  k.setGroup s id g

def rowKey (id : Nat) (address : A) : Except GroupErr (Nat × Bytes) := do
  let addr ← k.stringToBytes address
  .ok (id, addrKey addr)

/-- `GroupPolicyInfo.ValidateBasic`, and the write under the address. -/
def setPolicy (p : GroupPolicyInfo A) : Except GroupErr (State A X M) := do
  let _ ← k.stringToBytes p.admin
  let addr ← k.stringToBytes p.address
  if p.groupId = 0 then .error (.empty "group policy's group id")
  else if p.version = 0 then .error (.empty "group policy version")
  else do
    p.decisionPolicy.validateBasic
    .ok { s with policies := s.policies.insert addr p }

def getGroupPolicyInfo (address : A) : Except GroupErr (GroupPolicyInfo A) := do
  let addr ← k.stringToBytes address
  match s.policies[addr]? with
  | none => .error (.notFound "group policy")
  | some p => .ok p

def updatePolicy (p : GroupPolicyInfo A) : Except GroupErr (State A X M) := do
  let _ ← k.getGroupPolicyInfo s p.address
  k.setPolicy s p

def getProposal (id : Nat) : Except GroupErr (Proposal A M) :=
  match s.proposals[id]? with
  | none => .error (.notFound "load proposal")
  | some p => .ok p

/-- `Proposal.ValidateBasic`, and the write. -/
def setProposal (id : Nat) (p : Proposal A M) : Except GroupErr (State A X M) := do
  if id = 0 then .error (.empty "proposal id")
  else do
    let _ ← k.stringToBytes p.groupPolicyAddress
    if p.groupVersion = 0 then .error (.empty "proposal group version")
    else if p.groupPolicyVersion = 0 then .error (.empty "proposal group policy version")
    else do
      let _ ← newNonNegativeDecFromString p.finalTallyResult.yesCount
      let _ ← newNonNegativeDecFromString p.finalTallyResult.noCount
      let _ ← newNonNegativeDecFromString p.finalTallyResult.abstainCount
      let _ ← newNonNegativeDecFromString p.finalTallyResult.noWithVetoCount
      .ok { s with proposals := s.proposals.insert id p }

def updateProposal (id : Nat) (p : Proposal A M) : Except GroupErr (State A X M) := do
  let _ ← getProposal s id
  k.setProposal s id p

def pruneProposal (id : Nat) : Except GroupErr (State A X M) := do
  let _ ← getProposal s id
  .ok { s with proposals := s.proposals.erase id }

def votesByProposal (id : Nat) : List ((Nat × Bytes) × Vote) :=
  s.votes.toList.filter (fun e => decide (e.1.1 = id))

def pruneVotes (id : Nat) : State A X M :=
  { s with votes := (votesByProposal s id).foldl (fun votes e => votes.erase e.1) s.votes }

/-! ## Groups and their members -/

def validateMembers : List (MemberRequest A) → List A → Except GroupErr Unit
  | [], _ => .ok ()
  | m :: members, index => do
      if m.address ∈ index then .error (.duplicate "address")
      else do
        let _ ← k.stringToBytes m.address
        let _ ← newNonNegativeDecFromString m.weight
        validateMembers members (m.address :: index)

def sumWeights : List (MemberRequest A) → Dec → Except GroupErr Dec
  | [], totalWeight => .ok totalWeight
  | m :: members, totalWeight => do
      k.assertMetadataLength m.metadataLen "member metadata"
      let weight ← newPositiveDecFromString m.weight
      let totalWeight ← decAdd totalWeight weight
      sumWeights members totalWeight

/-- `groupMemberTable.Create` for each member. -/
def createMembers (groupId : Nat) : List (MemberRequest A) → OrdMap (Nat × Bytes) Member →
      Except GroupErr (OrdMap (Nat × Bytes) Member)
  | [], table => .ok table
  | m :: members, table => do
      let key ← k.rowKey groupId m.address
      match table[key]? with
      | some _ => .error .uniqueConstraint
      | none => do
          let _ ← newNonNegativeDecFromString m.weight
          createMembers groupId members (table.insert key ⟨m.weight⟩)

/-- `CreateGroup`, with the id of the group. -/
def createGroup (admin : A) (members : List (MemberRequest A))
    (metadataLen : Nat) : Except GroupErr (State A X M × Nat) := do
  let _ ← k.stringToBytes admin
  k.validateMembers members []
  k.assertMetadataLength metadataLen "group metadata"
  let totalWeight ← k.sumWeights members (Dec.ofInt 0)
  let groupId := s.groupSeq + 1
  match s.groups[groupId]? with
  | some _ => .error .uniqueConstraint
  | none => do
      let s ← k.setGroup { s with groupSeq := groupId } groupId ⟨admin, 1, text totalWeight⟩
      let table ← k.createMembers groupId members s.members
      .ok ({ s with members := table }, groupId)

/-- One round of the loop of `UpdateGroupMembers`. -/
def updateMember (groupId : Nat) (m : MemberRequest A) (totalWeight : Dec)
    (table : OrdMap (Nat × Bytes) Member) :
    Except GroupErr (Dec × OrdMap (Nat × Bytes) Member) := do
  k.assertMetadataLength m.metadataLen "group member metadata"
  let key ← k.rowKey groupId m.address
  let newMemberWeight ← newNonNegativeDecFromString m.weight
  if newMemberWeight.coeff = 0 then
    match table[key]? with
    | none => .error (.notFound "unknown member")
    | some prev => do
        let previousMemberWeight ← newPositiveDecFromString prev.weight
        let totalWeight ← subNonNegative totalWeight previousMemberWeight
        .ok (totalWeight, table.erase key)
  else
    match table[key]? with
    | none => do
        let totalWeight ← decAdd totalWeight newMemberWeight
        .ok (totalWeight, table.insert key ⟨m.weight⟩)
    | some prev => do
        let previousMemberWeight ← newPositiveDecFromString prev.weight
        let totalWeight ← subNonNegative totalWeight previousMemberWeight
        let totalWeight ← decAdd totalWeight newMemberWeight
        .ok (totalWeight, table.insert key ⟨m.weight⟩)

def updateMembers (groupId : Nat) : List (MemberRequest A) → Dec → OrdMap (Nat × Bytes) Member →
      Except GroupErr (Dec × OrdMap (Nat × Bytes) Member)
  | [], totalWeight, table => .ok (totalWeight, table)
  | m :: members, totalWeight, table => do
      let (totalWeight, table) ← k.updateMember groupId m totalWeight table
      updateMembers groupId members totalWeight table

def validateDecisionPolicies (groupId : Nat) (totalWeight : DecString) : Except GroupErr Unit :=
  (s.policies.toList.filter (fun e => decide (e.2.groupId = groupId))).foldlM
    (fun _ e => e.2.decisionPolicy.validate totalWeight k.config) ()

/-- `doUpdateGroup` up to the action: the group, for its admin. -/
def groupForAdmin (groupId : Nat) (admin : A) : Except GroupErr (GroupInfo A) := do
  let g ← getGroupInfo s groupId
  if k.equalFold g.admin admin then .ok g else .error (.unauthorized "not group admin")

def updateGroupMembers (admin : A) (groupId : Nat)
    (memberUpdates : List (MemberRequest A)) : Except GroupErr (State A X M) := do
  if groupId = 0 then .error (.empty "group id")
  else if memberUpdates.isEmpty then .error (.empty "member updates")
  else do
    k.validateMembers memberUpdates []
    let g ← k.groupForAdmin s groupId admin
    let totalWeight ← newNonNegativeDecFromString g.totalWeight
    let (totalWeight, table) ← k.updateMembers groupId memberUpdates totalWeight s.members
    if totalWeight.coeff = 0 then .error (.invalid "group must not be empty")
    else do
      k.validateDecisionPolicies s groupId (text totalWeight)
      k.updateGroup { s with members := table } groupId
        { g with totalWeight := text totalWeight, version := g.version + 1 }

def updateGroupAdmin (admin : A) (groupId : Nat) (newAdmin : A) :
    Except GroupErr (State A X M) := do
  if groupId = 0 then .error (.empty "group id")
  else if k.equalFold admin newAdmin then .error (.invalid "new and old admin are the same")
  else do
    let _ ← k.stringToBytes admin
    let _ ← k.stringToBytes newAdmin
    let g ← k.groupForAdmin s groupId admin
    k.updateGroup s groupId { g with admin := newAdmin, version := g.version + 1 }

/-- `UpdateGroupMetadata`; the metadata itself is not read anywhere. -/
def updateGroupMetadata (admin : A) (groupId : Nat) (metadataLen : Nat) :
    Except GroupErr (State A X M) := do
  if groupId = 0 then .error (.empty "group id")
  else do
    k.assertMetadataLength metadataLen "group metadata"
    let _ ← k.stringToBytes admin
    let g ← k.groupForAdmin s groupId admin
    k.updateGroup s groupId { g with version := g.version + 1 }

def leaveGroup (groupId : Nat) (address : A) : Except GroupErr (State A X M) := do
  if groupId = 0 then .error (.empty "group-id")
  else do
    let key ← k.rowKey groupId address
    let g ← getGroupInfo s groupId
    let groupWeight ← newNonNegativeDecFromString g.totalWeight
    match s.members[key]? with
    | none => .error (.notFound "not part of group")
    | some member => do
        let memberWeight ← newPositiveDecFromString member.weight
        let updatedWeight ← subNonNegative groupWeight memberWeight
        k.validateDecisionPolicies s groupId (text updatedWeight)
        k.updateGroup { s with members := s.members.erase key } groupId
          { g with totalWeight := text updatedWeight, version := g.version + 1 }

/-! ## Policies -/

/-- The loop for the address of a new policy.  It ends with an address that has no account;
the first argument is the gas for it. -/
def nextPolicyAddress (x : X) : Nat → Nat → Option (Nat × Bytes)
  | 0, _ => none
  | gas + 1, policySeq =>
    let addr := k.policyAddress (policySeq + 1)
    if k.hasAccount x addr then nextPolicyAddress x gas (policySeq + 1)
    else some (policySeq + 1, addr)

/-- `CreateGroupPolicy`, with the address of the policy; `none` when the gas runs out. -/
def createGroupPolicy (gas : Nat) (s : State A X M) (admin : A) (groupId : Nat)
    (metadataLen : Nat) (policy : DecisionPolicy) :
    Except GroupErr (Option (State A X M × A)) := do
  if groupId = 0 then .error (.empty "group id")
  else do
    k.assertMetadataLength metadataLen "group policy metadata"
    policy.validateBasic
    let reqGroupAdmin ← k.stringToBytes admin
    let g ← getGroupInfo s groupId
    let groupAdmin ← k.stringToBytes g.admin
    if groupAdmin ≠ reqGroupAdmin then .error (.unauthorized "not group admin")
    else do
      policy.validate g.totalWeight k.config
      match k.nextPolicyAddress s.outside gas s.policySeq with
      | none => .ok none
      | some (policySeq, addr) => do
          let address ← k.bytesToString addr
          let key ← k.stringToBytes address
          match s.policies[key]? with
          | some _ => .error .uniqueConstraint
          | none => do
              let s ← k.setPolicy
                { s with policySeq := policySeq, outside := k.newAccount s.outside addr }
                ⟨address, groupId, admin, 1, policy⟩
              .ok (some (s, address))

/-- `abortProposals`: the submitted proposals of the policy become aborted. -/
def abortProposals (policyAddr : Bytes) : State A X M :=
  { s with
    proposals := s.proposals.map (fun _ p =>
      if k.stringToBytes p.groupPolicyAddress = .ok policyAddr ∧ p.status = .submitted then
        { p with status := .aborted }
      else p) }

def doUpdateGroupPolicy (policyAddress admin : A)
    (action : GroupPolicyInfo A → Except GroupErr (State A X M)) :
    Except GroupErr (State A X M) := do
  let policyAddr ← k.stringToBytes policyAddress
  let _ ← k.stringToBytes admin
  let p ← k.getGroupPolicyInfo s policyAddress
  if admin ≠ p.admin then .error (.unauthorized "not group policy admin")
  else do
    let s ← action p
    .ok (k.abortProposals s policyAddr)

def updateGroupPolicyAdmin (admin policyAddress newAdmin : A) : Except GroupErr (State A X M) := do
  if k.equalFold admin newAdmin then .error (.invalid "new and old admin are same")
  else do
    let _ ← k.stringToBytes newAdmin
    k.doUpdateGroupPolicy s policyAddress admin
      (fun p => k.updatePolicy s { p with admin := newAdmin, version := p.version + 1 })

def updateGroupPolicyDecisionPolicy (admin policyAddress : A)
    (policy : DecisionPolicy) : Except GroupErr (State A X M) := do
  policy.validateBasic
  k.doUpdateGroupPolicy s policyAddress admin (fun p => do
    let g ← getGroupInfo s p.groupId
    policy.validate g.totalWeight k.config
    k.updatePolicy s { p with decisionPolicy := policy, version := p.version + 1 })

def updateGroupPolicyMetadata (admin policyAddress : A) (metadataLen : Nat) :
    Except GroupErr (State A X M) := do
  k.assertMetadataLength metadataLen "group policy metadata"
  k.doUpdateGroupPolicy s policyAddress admin
    (fun p => k.updatePolicy s { p with version := p.version + 1 })

def createGroupWithPolicy (gas : Nat) (s : State A X M) (admin : A)
    (members : List (MemberRequest A)) (groupMetadataLen policyMetadataLen : Nat)
    (policyAsAdmin : Bool) (policy : DecisionPolicy) :
    Except GroupErr (Option (State A X M)) := do
  let (s, groupId) ← k.createGroup s admin members groupMetadataLen
  match ← k.createGroupPolicy gas s admin groupId policyMetadataLen policy with
  | none => .ok none
  | some (s, address) =>
    if policyAsAdmin then do
      let s ← k.updateGroupAdmin s admin groupId address
      let s ← k.updateGroupPolicyAdmin s admin address address
      .ok (some s)
    else .ok (some s)

end Keeper

end CosmosSDK.Group
