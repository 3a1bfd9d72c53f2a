import CosmosSDK.Group.Keeper
import CosmosSDK.Lib.Machine

/-!
# Proposals and their execution

`SubmitProposal`, `Vote`, the tally, `Exec` and the end blocker.  The messages of a proposal
go back to the message router, and so do those that another module dispatches (`MsgExec` of
`x/authz`), so an execution can contain executions.  Gas bounds their
depth: running out of it is not an error that a branch catches, it ends the transaction.
-/

namespace CosmosSDK.Group

open Store

inductive Failure where
  | err (err : GroupErr)
  | outOfGas
deriving DecidableEq, Repr

def raise {α : Type} : Except GroupErr α → Except Failure α
  | .ok a => .ok a
  | .error err => .error (.err err)

/-- `BranchService.Execute`: an error leaves the state as it was, running out of gas is
passed on. -/
def branch {S : Type} : Except Failure S → Except Failure (Except GroupErr S)
  | .ok s => .ok (.ok s)
  | .error (.err err) => .ok (.error err)
  | .error .outOfGas => .error .outOfGas

namespace Keeper

variable [Apd] {A X M : Type} [DecidableEq A] (k : Keeper A X M)

/-! ## Submission and votes -/

def validateProposers : List A → List A → Except GroupErr Unit
  | [], _ => .ok ()
  | p :: proposers, index => do
      if p ∈ index then .error (.duplicate "address")
      else do
        let _ ← k.stringToBytes p
        validateProposers proposers (p :: index)

def msgSigners : Msg A M → Except GroupErr (List Bytes)
  | .createGroup admin _ _ => [admin].mapM k.stringToBytes
  | .updateGroupMembers admin _ _ => [admin].mapM k.stringToBytes
  | .updateGroupAdmin admin _ _ => [admin].mapM k.stringToBytes
  | .updateGroupMetadata admin _ _ => [admin].mapM k.stringToBytes
  | .createGroupPolicy admin _ _ _ => [admin].mapM k.stringToBytes
  | .createGroupWithPolicy admin _ _ _ _ _ => [admin].mapM k.stringToBytes
  | .updateGroupPolicyAdmin admin _ _ => [admin].mapM k.stringToBytes
  | .updateGroupPolicyDecisionPolicy admin _ _ => [admin].mapM k.stringToBytes
  | .updateGroupPolicyMetadata admin _ _ => [admin].mapM k.stringToBytes
  | .submitProposal _ proposers _ _ _ => proposers.mapM k.stringToBytes
  | .withdrawProposal _ address => [address].mapM k.stringToBytes
  | .vote _ voter _ _ _ => [voter].mapM k.stringToBytes
  | .exec _ executor => [executor].mapM k.stringToBytes
  | .leaveGroup _ address => [address].mapM k.stringToBytes
  | .other msg => k.signers msg

/-- `ensureMsgAuthZ`: every signer is the account of the policy. -/
def ensureMsgAuthZ (msgs : List (Msg A M)) (policyAcc : Bytes) : Except GroupErr Unit :=
  msgs.foldlM (fun _ msg => do
    let signers ← k.msgSigners msg
    if signers.all (fun acct => decide (acct = policyAcc)) then .ok ()
    else .error (.unauthorized "msg does not have group policy authorization")) ()

/-- `validateMsgs`; the messages of this module have no `ValidateBasic`. -/
def validateMsgs (msgs : List (Msg A M)) : Except GroupErr Unit :=
  msgs.foldlM (fun _ msg =>
    match msg with
    | .other msg => k.validateBasic msg
    | _ => .ok ()) ()

variable (s : State A X M)

def ensureMembers (groupId : Nat) (proposers : List A) : Except GroupErr Unit :=
  proposers.foldlM (fun _ proposer => do
    let key ← k.rowKey groupId proposer
    match s.members[key]? with
    | some _ => .ok ()
    | none => .error (.unauthorized "not in group")) ()

def checkTexts (texts : ProposalTexts) : Except GroupErr Unit := do
  k.assertMetadataLength texts.metadataLen "metadata"
  if texts.summaryLen > k.config.maxProposalSummaryLen then .error .summaryTooLong
  else if texts.titleLen > k.config.maxProposalTitleLen then .error .titleTooLong
  else if texts.metadataLen ≠ 0 ∧ texts.metadataAgrees = false then
    .error (.invalid "metadata title and summary must equal those of the proposal")
  else .ok ()

/-- `SubmitProposal` up to the execution, with the id of the proposal. -/
def submitProposal (now : Time) (s : State A X M) (policyAddress : A) (proposers : List A)
    (texts : ProposalTexts) (msgs : List (Msg A M)) : Except GroupErr (State A X M × Nat) := do
  if proposers.isEmpty then .error (.empty "proposers")
  else do
    k.validateProposers proposers []
    let policyAddr ← k.stringToBytes policyAddress
    k.checkTexts texts
    k.validateMsgs msgs
    let policyAcc ← k.getGroupPolicyInfo s policyAddress
    let g ← getGroupInfo s policyAcc.groupId
    k.ensureMembers s policyAcc.groupId proposers
    k.ensureMsgAuthZ msgs policyAddr
    policyAcc.decisionPolicy.validate g.totalWeight k.config
    let id := s.proposalSeq + 1
    match s.proposals[id]? with
    | some _ => .error .uniqueConstraint
    | none => do
        let s ← k.setProposal { s with proposalSeq := id } id
          { groupPolicyAddress := policyAddress
            proposers := proposers
            submitTime := now
            groupVersion := g.version
            groupPolicyVersion := policyAcc.version
            status := .submitted
            executorResult := .notRun
            votingPeriodEnd := now + policyAcc.decisionPolicy.votingPeriod
            finalTallyResult := .default
            msgs := msgs }
        .ok (s, id)

def withdrawProposal (id : Nat) (address : A) : Except GroupErr (State A X M) := do
  if id = 0 then .error (.empty "proposal id")
  else do
    let _ ← k.stringToBytes address
    let p ← getProposal s id
    if p.status ≠ .submitted then .error (.invalid "cannot withdraw a proposal with this status")
    else do
      let policyInfo ← k.getGroupPolicyInfo s p.groupPolicyAddress
      if address ≠ policyInfo.admin ∧ address ∉ p.proposers then
        .error (.unauthorized "given address is neither group policy admin nor in proposers")
      else k.updateProposal s id { p with status := .withdrawn }

/-- `Vote` up to the execution. -/
def vote (now : Time) (s : State A X M) (id : Nat) (voter : A) (option : VoteOption)
    (metadataLen : Nat) : Except GroupErr (State A X M) := do
  if id = 0 then .error (.empty "proposal id")
  else if option = .unspecified then .error (.empty "vote option")
  else if option = .unknown then .error (.invalid "vote option")
  else do
    k.assertMetadataLength metadataLen "metadata"
    let addr ← k.stringToBytes voter
    let p ← getProposal s id
    if p.status ≠ .submitted then .error (.invalid "proposal not open for voting")
    else if now > p.votingPeriodEnd then .error (.expired "voting period has ended already")
    else do
      let policyInfo ← k.getGroupPolicyInfo s p.groupPolicyAddress
      let _ ← getGroupInfo s policyInfo.groupId
      match s.members[(policyInfo.groupId, addrKey addr)]? with
      | none => .error (.notFound "voter address")
      | some _ =>
        match s.votes[(id, addrKey addr)]? with
        | some _ => .error .uniqueConstraint
        | none => .ok { s with votes := s.votes.insert (id, addrKey addr) ⟨option⟩ }

/-! ## Tally -/

/-- The loop of `Tally`: a vote of someone who is no member any more is skipped. -/
def tallyVotes (s : State A X M) (groupId : Nat) :
    List ((Nat × Bytes) × Vote) → TallyResult → Except GroupErr TallyResult
  | [], t => .ok t
  | (key, vote) :: votes, t =>
    match s.members[(groupId, key.2)]? with
    | none => tallyVotes s groupId votes t
    | some member => do
        let t ← t.add vote.option member.weight
        tallyVotes s groupId votes t

def tally (id : Nat) (p : Proposal A M) (groupId : Nat) : Except GroupErr TallyResult :=
  if p.status = .accepted ∨ p.status = .rejected then .ok p.finalTallyResult
  else tallyVotes s groupId (votesByProposal s id) .default

/-- `doTallyAndUpdate`: the proposal it updates is not stored yet. -/
def doTallyAndUpdate (now : Time) (s : State A X M) (id : Nat) (p : Proposal A M)
    (g : GroupInfo A) (policyInfo : GroupPolicyInfo A) :
    Except GroupErr (State A X M × Proposal A M) := do
  let t ← tally s id p policyInfo.groupId
  let result ← policyInfo.decisionPolicy.allow t g.totalWeight
  if result.final ∨ now > p.votingPeriodEnd then
    if result.allow then
      .ok ({ pruneVotes s id with
          accepted := s.accepted ++ [⟨id, policyInfo.decisionPolicy, t, g.totalWeight⟩] },
        { p with finalTallyResult := t, status := .accepted })
    else .ok (pruneVotes s id, { p with finalTallyResult := t, status := .rejected })
  else .ok (s, p)

/-! ## Execution -/

section Execution

-- the message router
variable (invoke : Msg A M → State A X M → Except Failure (State A X M))

def invokeAll : List (Msg A M) → State A X M → Except Failure (State A X M)
  | [], s => .ok s
  | msg :: msgs, s => do
      let s ← invoke msg s
      invokeAll msgs s

/-- A handler of another module, with the messages that it sends. -/
def perform : Handling A X M → State A X M → Except Failure (State A X M)
  | .done x, s => .ok { s with outside := x }
  | .fail err, _ => .error (.err err)
  | .invoke x msg next, s => do
      match ← branch (invoke msg { s with outside := x }) with
      | .ok s => perform (next (.ok s.outside)) s
      | .error err => perform (next (.error err)) { s with outside := x }

def doExecuteMsgs (now : Time) (s : State A X M) (p : Proposal A M) (policyAcc : Bytes)
    (policy : DecisionPolicy) : Except Failure (State A X M) :=
  if now < p.submitTime + policy.minExecutionPeriod then
    .error (.err (.invalid "must wait to execute proposal"))
  else if p.votingPeriodEnd + k.config.maxExecutionPeriod < now then
    .error (.err (.expired "proposal expired"))
  else do
    raise (k.ensureMsgAuthZ p.msgs policyAcc)
    invokeAll invoke p.msgs s

/-- The state and the proposal after the tally that `Exec` may need. -/
def tallyFirst (now : Time) (s : State A X M) (id : Nat) (p : Proposal A M)
    (policyInfo : GroupPolicyInfo A) : Except GroupErr (State A X M × Proposal A M) :=
  if p.status = .submitted then do
    let g ← getGroupInfo s policyInfo.groupId
    doTallyAndUpdate now s id p g policyInfo
  else .ok (s, p)

/-- The end of `Exec`: a proposal that has run is deleted, otherwise it is stored. -/
def finishExec (id : Nat) (p : Proposal A M) : Except GroupErr (State A X M × ExecutorResult) :=
  if p.executorResult = .success then do
    let s ← pruneProposal s id
    .ok (s, p.executorResult)
  else do
    let s ← k.updateProposal s id p
    .ok (s, p.executorResult)

/-- `Exec`.  When the branch of the messages is written, their proposal counts as executed. -/
def exec (now : Time) (s : State A X M) (id : Nat) :
    Except Failure (State A X M × ExecutorResult) := do
  if id = 0 then .error (.err (.empty "proposal id"))
  else do
    let p ← raise (getProposal s id)
    if p.status ≠ .submitted ∧ p.status ≠ .accepted then
      .error (.err (.invalid "not possible to exec with proposal status"))
    else do
      let policyInfo ← raise (k.getGroupPolicyInfo s p.groupPolicyAddress)
      let (s, p) ← raise (tallyFirst now s id p policyInfo)
      if p.status = .accepted ∧ p.executorResult ≠ .success then do
        let addr ← raise (k.stringToBytes policyInfo.address)
        match ← branch (k.doExecuteMsgs invoke now s p addr policyInfo.decisionPolicy) with
        | .ok s =>
          raise (k.finishExec { s with executed := s.executed ++ [id] } id
            { p with executorResult := .success })
        | .error _ => raise (k.finishExec s id { p with executorResult := .failure })
      else raise (k.finishExec s id p)

/-- `Exec` as a message, without its response. -/
def execMsg (now : Time) (s : State A X M) (id : Nat) : Except Failure (State A X M) := do
  let (s, _) ← k.exec invoke now s id
  .ok s

def voteAll (now : Time) (id : Nat) : List A → State A X M → Except GroupErr (State A X M)
  | [], s => .ok s
  | proposer :: proposers, s => do
      let s ← k.vote now s id proposer .yes 0
      voteAll now id proposers s

/-- One message, given the router for the messages that it executes. -/
def handleWith (gas : Nat) (now : Time) (msg : Msg A M) (s : State A X M) :
    Except Failure (State A X M) :=
  match msg with
  | .createGroup admin members metadataLen => do
      let (s, _) ← raise (k.createGroup s admin members metadataLen)
      .ok s
  | .updateGroupMembers admin groupId memberUpdates =>
    raise (k.updateGroupMembers s admin groupId memberUpdates)
  | .updateGroupAdmin admin groupId newAdmin => raise (k.updateGroupAdmin s admin groupId newAdmin)
  | .updateGroupMetadata admin groupId metadataLen =>
    raise (k.updateGroupMetadata s admin groupId metadataLen)
  | .createGroupPolicy admin groupId metadataLen policy => do
      match ← raise (k.createGroupPolicy gas s admin groupId metadataLen policy) with
      | none => .error .outOfGas
      | some (s, _) => .ok s
  | .createGroupWithPolicy admin members groupMetadataLen policyMetadataLen policyAsAdmin policy => do
      match ← raise (k.createGroupWithPolicy gas s admin members groupMetadataLen
        policyMetadataLen policyAsAdmin policy) with
      | none => .error .outOfGas
      | some s => .ok s
  | .updateGroupPolicyAdmin admin policyAddress newAdmin =>
    raise (k.updateGroupPolicyAdmin s admin policyAddress newAdmin)
  | .updateGroupPolicyDecisionPolicy admin policyAddress policy =>
    raise (k.updateGroupPolicyDecisionPolicy s admin policyAddress policy)
  | .updateGroupPolicyMetadata admin policyAddress metadataLen =>
    raise (k.updateGroupPolicyMetadata s admin policyAddress metadataLen)
  | .submitProposal policyAddress proposers texts msgs tryExec => do
      let (s, id) ← raise (k.submitProposal now s policyAddress proposers texts msgs)
      if tryExec then do
        let s ← raise (k.voteAll now id proposers s)
        k.execMsg invoke now s id
      else .ok s
  | .withdrawProposal id address => raise (k.withdrawProposal s id address)
  | .vote id voter option metadataLen tryExec => do
      let s ← raise (k.vote now s id voter option metadataLen)
      if tryExec then k.execMsg invoke now s id else .ok s
  | .exec id _ => k.execMsg invoke now s id
  | .leaveGroup groupId address => raise (k.leaveGroup s groupId address)
  | .other msg => perform invoke (k.handler msg s.outside) s

end Execution

/-- A message, with the depth of executions that the gas allows. -/
def handle (now : Time) : Nat → Msg A M → State A X M → Except Failure (State A X M)
  | 0, _, _ => .error .outOfGas
  | gas + 1, msg, s => k.handleWith (handle now gas) gas now msg s

/-! ## End of a block -/

/-- `proposalsByVPEnd`: the proposals whose voting period ended before a time, by that time. -/
def proposalsByVPEnd (endTime : Time) : List (Nat × Proposal A M) :=
  (s.proposals.toList.filter (fun e => decide (e.2.votingPeriodEnd < endTime))).insertionSort
    (fun a b => a.2.votingPeriodEnd ≤ b.2.votingPeriodEnd)

/-- One round of `TallyProposalsAtVPEnd`. -/
def tallyAtVPEnd (now : Time) (s : State A X M) (id : Nat) (p : Proposal A M) :
    Except GroupErr (State A X M) := do
  let policyInfo ← k.getGroupPolicyInfo s p.groupPolicyAddress
  let electorate ← getGroupInfo s policyInfo.groupId
  if p.status = .aborted ∨ p.status = .withdrawn then do
    let s ← pruneProposal s id
    .ok (pruneVotes s id)
  else if p.status = .submitted then do
    let (s, p) ← doTallyAndUpdate now s id p electorate policyInfo
    k.updateProposal s id p
  else .ok s

def tallyAllAtVPEnd (now : Time) :
    List (Nat × Proposal A M) → State A X M → Except GroupErr (State A X M)
  | [], s => .ok s
  | (id, p) :: proposals, s => do
      let s ← k.tallyAtVPEnd now s id p
      tallyAllAtVPEnd now proposals s

def tallyProposalsAtVPEnd (now : Time) (s : State A X M) : Except GroupErr (State A X M) :=
  k.tallyAllAtVPEnd now (proposalsByVPEnd s now) s

def pruneAll : List (Nat × Proposal A M) → State A X M → Except GroupErr (State A X M)
  | [], s => .ok s
  | (id, _) :: proposals, s => do
      let s ← pruneProposal s id
      pruneAll proposals s

def pruneProposals (now : Time) (s : State A X M) : Except GroupErr (State A X M) :=
  pruneAll (proposalsByVPEnd s (now - k.config.maxExecutionPeriod)) s

def endBlocker (now : Time) (s : State A X M) : Except GroupErr (State A X M) := do
  let s ← k.tallyProposalsAtVPEnd now s
  k.pruneProposals now s

/-! ## Runs -/

structure Chain (A X M : Type) where
  state : State A X M
  now : Time

inductive Step (A M : Type) where
  /-- a message of a transaction, with the gas it has -/
  | deliver (gas : Nat) (msg : Msg A M)
  /-- the end of the block; the next one is so much later -/
  | endBlock (elapsed : Nat)

/-- A failed message leaves the state as it was, and so does a failed end of block. -/
def step (a : Step A M) (c : Chain A X M) : Except Failure Unit × Chain A X M :=
  match a with
  | .deliver gas msg =>
    match k.handle c.now gas msg c.state with
    | .error err => (.error err, c)
    | .ok s => (.ok (), { c with state := s })
  | .endBlock elapsed =>
    match k.endBlocker c.now c.state with
    | .error err => (.error (.err err), c)
    | .ok s => (.ok (), ⟨s, c.now + elapsed⟩)

def genesis (x : X) (now : Time) : Chain A X M :=
  ⟨⟨0, ∅, ∅, 0, ∅, 0, ∅, ∅, x, [], []⟩, now⟩

def reached (x : X) (now : Time) (run : List (Step A M)) : Chain A X M :=
  (Machine.run k.step run (genesis x now)).2

end Keeper

end CosmosSDK.Group
