import CosmosSDK.STF.Context

/-!
# deliverTx

One transaction through `STF.deliverTx` of `server/v2/stf/stf.go`: validation,
messages and the post-tx handler, each on a branch of the state that is applied
or dropped.  A panic in any of them unwinds to the deferred `recover` of
`deliverTx`, with the branches applied so far in place.
-/

namespace CosmosSDK.STF

open Store

/-! ## Transactions and the handlers of an application -/

structure Tx (Msg : Type) where
  getGasLimit : Outcome UInt64
  getSenders : Outcome (List Bytes)
  getMessages : Outcome (List Msg)

structure App (Msg : Type) where
  doTxValidation : Tx Msg → Handler Unit
  /-- `msgRouter.Invoke` -/
  invoke : Msg → Handler Msg
  postTxExec : Tx Msg → Bool → Handler Unit
  getHeaderInfo : State → Except TxError HeaderInfo
  /-- `msgTypeURL` -/
  typeURL : Msg → String
  runtimeIdentity : Bytes

structure TxResult (Msg : Type) where
  events : List Event
  resp : List Msg
  error : Option TxError
  gasWanted : UInt64
  gasUsed : UInt64

variable {Msg : Type}

/-- `server.TxResult{}`. -/
def TxResult.zero : TxResult Msg :=
  { events := [], resp := [], error := none, gasWanted := 0, gasUsed := 0 }

/-- `server.TxResult{Error: err}`. -/
def TxResult.failed (err : TxError) : TxResult Msg := { TxResult.zero with error := some err }

/-! ## Events -/

def getModuleNameFromTypeURL (input : String) : String :=
  match input.splitOn "." with
  | _ :: name :: _ => name
  | _ => ""

def createMessageEvent (typeURL : String) (msgIndex eventIndex : Int) : Event :=
  { blockNumber := 0, blockStage := .unset, txIndex := 0, msgIndex := msgIndex
    eventIndex := eventIndex, type := "message"
    attributes := [("action", "/" ++ typeURL), ("module", getModuleNameFromTypeURL typeURL)] }

def indexEvents (msgIndex : Int) (events : List Event) : List Event :=
  events.mapIdx (fun j e => { e with msgIndex := msgIndex, eventIndex := j + 1 })

/-- Where in the block an event was emitted. -/
def locateEvent (hi : HeaderInfo) (txIndex : Int) (e : Event) : Event :=
  { e with blockNumber := hi.height, blockStage := .txProcessing, txIndex := txIndex }

/-! ## validateTx -/

variable (app : App Msg)

def phaseCtx (state : State) (gasLimit : UInt64) (execMode : ExecMode) (hi : HeaderInfo) : Ctx :=
  ((Ctx.make (some app.runtimeIdentity) state execMode).setHeaderInfo hi).setGasLimit gasLimit

def validateTx (state : State) (gasLimit : UInt64) (tx : Tx Msg)
    (execMode : ExecMode) : Outcome (UInt64 × List Event) × State :=
  match app.getHeaderInfo state with
  | .error e => (.err e, state)
  | .ok hi =>
    match app.doTxValidation tx (phaseCtx app state gasLimit execMode hi) with
    | (.panic t, _) => (.panic t, state)
    | (.err e, _) => (.err e, state)
    | (.ok _, c) => (.ok (c.meter.used, c.events), c.unmeteredState)

/-! ## runTxMsgs -/

/-- The loop over the messages, from index `i` on. -/
def invokeMsgs (app : App Msg) (txSenders : List Bytes) :
    Nat → List Msg → Ctx → Outcome (List Msg × List Event) × Ctx
  | _, [], c => (.ok ([], []), c)
  | i, msg :: msgs, c =>
    match txSenders[i]? with
    | none => (.panic "index out of range", c)
    | some sender =>
      match app.invoke msg { c with sender := some sender, events := [] } with
      | (.panic t, c') => (.panic t, c')
      | (.err e, c') => (.err e, c')
      | (.ok resp, c') =>
        let events := indexEvents (i + 1) c'.events ++
          [createMessageEvent (app.typeURL msg) (i + 1) (c'.events.length + 1)]
        match invokeMsgs app txSenders (i + 1) msgs c' with
        | (.ok (resps, rest), c'') => (.ok (resp :: resps, events ++ rest), c'')
        | (.err e, c'') => (.err e, c'')
        | (.panic t, c'') => (.panic t, c'')

def msgsPhase (state : State) (gasLimit : UInt64) (tx : Tx Msg)
    (execMode : ExecMode) (hi : HeaderInfo) : Outcome (List Msg × List Event) × Ctx :=
  let execCtx := phaseCtx app state gasLimit execMode hi
  match tx.getSenders with
  | .panic t => (.panic t, execCtx)
  | .err e => (.err e, execCtx)
  | .ok txSenders =>
    match tx.getMessages with
    | .panic t => (.panic t, execCtx)
    | .err e => (.err e, execCtx)
    | .ok msgs => invokeMsgs app txSenders 0 msgs execCtx

/-- The responses, the gas used and the events of the messages, and the content
of the branch they ran on; a failure reports no gas. -/
def runTxMsgs (state : State) (gasLimit : UInt64) (tx : Tx Msg)
    (execMode : ExecMode) (hi : HeaderInfo) :
    Outcome (List Msg × UInt64 × List Event) × State :=
  match msgsPhase app state gasLimit tx execMode hi with
  | (.panic t, c) => (.panic t, c.unmeteredState)
  | (.err e, c) => (.err e, c.unmeteredState)
  | (.ok (resps, events), c) => (.ok (resps, c.meter.used, events), c.unmeteredState)

/-! ## execTx -/

/-- The context of the post-tx handler, which has no gas limit. -/
def postCtx (state : State) (execMode : ExecMode) (hi : HeaderInfo) : Ctx :=
  (Ctx.make (some app.runtimeIdentity) state execMode).setHeaderInfo hi

def runPostTx (state : State) (tx : Tx Msg) (success : Bool)
    (execMode : ExecMode) (hi : HeaderInfo) : Outcome (List Event) × State :=
  match app.postTxExec tx success (postCtx app state execMode hi) with
  | (.panic t, c) => (.panic t, c.unmeteredState)
  | (.err e, c) => (.err e, c.unmeteredState)
  | (.ok _, c) => (.ok (indexEvents (-1) c.events), c.unmeteredState)

/-- What `execTx` returns: responses, gas used, events and error. -/
structure ExecResult (Msg : Type) where
  resp : List Msg
  gasUsed : UInt64
  events : List Event
  error : Option TxError

def execTx (state : State) (gasLimit : UInt64) (tx : Tx Msg)
    (execMode : ExecMode) (hi : HeaderInfo) : Outcome (ExecResult Msg) × State :=
  match runTxMsgs app state gasLimit tx execMode hi with
  | (.panic t, _) => (.panic t, state)
  | (.err txErr, _) =>
    -- the branch of the messages is dropped, the handler gets a new one
    match runPostTx app state tx false execMode hi with
    | (.panic t, _) => (.panic t, state)
    | (.err postTxErr, _) => (.ok ⟨[], 0, [], some (.joined txErr postTxErr)⟩, state)
    | (.ok events, postTxState) => (.ok ⟨[], 0, events, some txErr⟩, postTxState)
  | (.ok (msgsResp, gasUsed, msgEvents), execState) =>
    match runPostTx app execState tx true execMode hi with
    | (.panic t, _) => (.panic t, state)
    | (.err postTxErr, _) => (.ok ⟨[], gasUsed, [], some postTxErr⟩, state)
    | (.ok events, execState') => (.ok ⟨msgsResp, gasUsed, msgEvents ++ events, none⟩, execState')

/-! ## deliverTx -/

/-- The body of `deliverTx` up to the end or the first panic. -/
def deliverTxBody (state : State) (tx : Tx Msg) (execMode : ExecMode)
    (hi : HeaderInfo) (txIndex : Int) : Outcome (TxResult Msg) × State :=
  match tx.getGasLimit with
  | .panic t => (.panic t, state)
  | .err e => (.ok (.failed e), state)
  | .ok gasLimit =>
    match validateTx app state gasLimit tx execMode with
    | (.panic t, state') => (.panic t, state')
    | (.err e, state') => (.ok (.failed e), state')
    | (.ok (validateGas, validationEvents), state') =>
      match execTx app state' (gasLimit - validateGas) tx execMode hi with
      | (.panic t, state'') => (.panic t, state'')
      | (.err e, state'') => (.ok (.failed e), state'')
      | (.ok exec, state'') =>
        (.ok { events := (indexEvents 0 validationEvents ++ exec.events).map
                 (locateEvent hi txIndex)
               resp := exec.resp, error := exec.error
               gasWanted := gasLimit, gasUsed := exec.gasUsed + validateGas }, state'')

/-- `deliverTx`.  The deferred function assigns to the local `recoveryError` only;
the result is not named, so after a panic the caller gets its zero value. -/
def deliverTx (state : State) (tx : Tx Msg) (execMode : ExecMode)
    (hi : HeaderInfo) (txIndex : Int) : TxResult Msg × State :=
  match deliverTxBody app state tx execMode hi txIndex with
  | (.ok r, state') => (r, state')
  | (.err e, state') => (.failed e, state')
  | (.panic _, state') => (.zero, state')

/-! ## What a transaction is meant to do

The handlers one after the other, without the bookkeeping of the code: how they end, and the
state to keep. -/

inductive Verdict where
  | success
  | failure
  | panic
deriving DecidableEq

def Outcome.verdict {α : Type} : Outcome α → Verdict
  | ok _ => .success
  | err _ => .failure
  | panic _ => .panic

/-- The messages from index `i` on: the calls of the router, up to the first that does not
succeed.  A message without a sender panics. -/
inductive Invoked (app : App Msg) (txSenders : List Bytes) :
    Nat → List Msg → Ctx → List (Msg × Ctx) → Verdict → Ctx → Prop
  | nil {i : Nat} {c : Ctx} : Invoked app txSenders i [] c [] .success c
  | unsent {i : Nat} {msg : Msg} {msgs : List Msg} {c : Ctx} (sender : txSenders[i]? = none) :
      Invoked app txSenders i (msg :: msgs) c [] .panic c
  | refused {i : Nat} {msg : Msg} {msgs : List Msg} {c c' : Ctx} {s : Bytes} {r : Outcome Msg}
      (sender : txSenders[i]? = some s)
      (call : app.invoke msg { c with sender := some s, events := [] } = (r, c'))
      (stops : r.verdict ≠ .success) :
      Invoked app txSenders i (msg :: msgs) c [(msg, { c with sender := some s, events := [] })]
        r.verdict c'
  | next {i : Nat} {msg resp : Msg} {msgs : List Msg} {c c' c'' : Ctx} {s : Bytes} {v : Verdict}
      {calls : List (Msg × Ctx)} (sender : txSenders[i]? = some s)
      (call : app.invoke msg { c with sender := some s, events := [] } = (.ok resp, c'))
      (rest : Invoked app txSenders (i + 1) msgs c' calls v c'') :
      Invoked app txSenders i (msg :: msgs) c
        ((msg, { c with sender := some s, events := [] }) :: calls) v c''

section Stages

variable (app : App Msg) (state : State) (tx : Tx Msg) (execMode : ExecMode) (hi : HeaderInfo)

/-- The messages of the transaction, each for its sender. -/
def Messages (start : Ctx) (v : Verdict) (c : Ctx) : Prop :=
  match tx.getSenders, tx.getMessages with
  | .ok txSenders, .ok msgs => ∃ calls, Invoked app txSenders 0 msgs start calls v c
  | .ok _, r => v = r.verdict ∧ c = start
  | r, _ => v = r.verdict ∧ c = start

/-- The writes of a handler if it succeeded. -/
def Outcome.kept {α : Type} (r : Outcome α) (c : Ctx) (before : State) : State :=
  if r.verdict = .success then c.unmeteredState else before

/-- Messages and post-tx handler on a validated state: their writes are kept together, those of
the handler alone after a failed message. -/
def Executed (validated : State) (gasLimit : UInt64) (v : Verdict) (s : State) : Prop :=
  ∃ vm c, Messages app tx (phaseCtx app validated gasLimit execMode hi) vm c ∧
    match vm with
    | .panic => v = .panic ∧ s = validated
    | .failure => ∃ r c', app.postTxExec tx false (postCtx app validated execMode hi) = (r, c') ∧
        v = (if r.isPanic then .panic else .failure) ∧ s = r.kept c' validated
    | .success =>
      ∃ r c', app.postTxExec tx true (postCtx app c.unmeteredState execMode hi) = (r, c') ∧
        v = r.verdict ∧ s = r.kept c' validated

/-- The whole transaction.  Nothing is kept of a validation that does not succeed. -/
def Delivered (v : Verdict) (s : State) : Prop :=
  match tx.getGasLimit, app.getHeaderInfo state with
  | .ok gasLimit, .ok hi₀ =>
    ∃ r c, app.doTxValidation tx (phaseCtx app state gasLimit execMode hi₀) = (r, c) ∧
      if r.verdict = .success then
        Executed app tx execMode hi c.unmeteredState (gasLimit - c.meter.used) v s
      else v = r.verdict ∧ s = state
  | .ok _, .error _ => v = .failure ∧ s = state
  | r, _ => v = r.verdict ∧ s = state

/-- The result has no error exactly if everything succeeded, and the state is the one to keep. -/
def DeliversStages (txIndex : Int) : Prop :=
  ∃ v s, Delivered app state tx execMode hi v s ∧
    ((deliverTx app state tx execMode hi txIndex).1.error = none ↔ v = .success) ∧
    (deliverTx app state tx execMode hi txIndex).2 = s

end Stages

/-! ## What the code does -/

/-- The messages the loop hands to the router from index `i` on, with the contexts. -/
def invocations (app : App Msg) (txSenders : List Bytes) : Nat → List Msg → Ctx → List (Msg × Ctx)
  | _, [], _ => []
  | i, msg :: msgs, c =>
    match txSenders[i]? with
    | none => []
    | some sender =>
      (msg, { c with sender := some sender, events := [] }) ::
        match app.invoke msg { c with sender := some sender, events := [] } with
        | (.ok _, c') => invocations app txSenders (i + 1) msgs c'
        | _ => []

section

variable {app : App Msg} {state : State} {tx : Tx Msg} {execMode : ExecMode} {hi : HeaderInfo}
  {txSenders : List Bytes} {i : Nat} {msgs : List Msg} {c c' : Ctx} {calls : List (Msg × Ctx)}
  {v : Verdict} {s validated : State} {gasLimit : UInt64}

theorem invokeMsgs_cons {msg resp : Msg} {sender : Bytes} (hsender : txSenders[i]? = some sender)
    (hcall : app.invoke msg { c with sender := some sender, events := [] } = (.ok resp, c')) :
    (invokeMsgs app txSenders i (msg :: msgs) c).1.verdict =
        (invokeMsgs app txSenders (i + 1) msgs c').1.verdict ∧
      (invokeMsgs app txSenders i (msg :: msgs) c).2 =
        (invokeMsgs app txSenders (i + 1) msgs c').2 := by
  simp only [invokeMsgs, hsender, hcall]
  rcases invokeMsgs app txSenders (i + 1) msgs c' with ⟨r, c''⟩
  cases r <;> exact ⟨rfl, rfl⟩

/-- The loop makes exactly these calls. -/
theorem invoked_iff : Invoked app txSenders i msgs c calls v c' ↔
    calls = invocations app txSenders i msgs c ∧
      v = (invokeMsgs app txSenders i msgs c).1.verdict ∧
      c' = (invokeMsgs app txSenders i msgs c).2 := by
  constructor
  · intro h
    induction h with
    | nil => exact ⟨rfl, rfl, rfl⟩
    | unsent sender => simp [invocations, invokeMsgs, sender, Outcome.verdict]
    | @refused i msg msgs c c' s r sender call stops =>
      cases r with
      | ok => exact absurd rfl stops
      | err e | panic t => simp [invocations, invokeMsgs, sender, call, Outcome.verdict]
    | next sender call _ ih =>
      obtain ⟨hv, hc⟩ := invokeMsgs_cons sender call
      rw [hv, hc]
      exact ⟨by simp [invocations, sender, call, ih.1], ih.2⟩
  · rintro ⟨rfl, rfl, rfl⟩
    induction msgs generalizing i c with
    | nil => exact .nil
    | cons msg msgs ih =>
      cases hs : txSenders[i]? with
      | none =>
        simp only [invocations, invokeMsgs, hs]
        exact .unsent hs
      | some s =>
        rcases hcall : app.invoke msg { c with sender := some s, events := [] } with ⟨r, c1⟩
        cases r with
        | ok resp =>
          obtain ⟨hv, hc⟩ := invokeMsgs_cons hs hcall
          rw [hv, hc]
          simp only [invocations, hs, hcall]
          exact .next hs hcall ih
        | err e | panic t =>
          simp only [invocations, invokeMsgs, hs, hcall]
          exact .refused hs hcall (by simp [Outcome.verdict])

theorem messages_iff : Messages app tx (phaseCtx app validated gasLimit execMode hi) v c ↔
    v = (msgsPhase app validated gasLimit tx execMode hi).1.verdict ∧
      c = (msgsPhase app validated gasLimit tx execMode hi).2 := by
  unfold Messages msgsPhase
  cases tx.getSenders with
  | err e | panic t => rfl
  | ok txSenders =>
    cases tx.getMessages with
    | err e | panic t => rfl
    | ok msgs => simp [invoked_iff]

/-- What the error of a result says. -/
def Outcome.reported {α : Type} (error : α → Option TxError) : Outcome α → Verdict
  | ok a => if (error a).isNone then .success else .failure
  | err _ => .failure
  | panic _ => .panic

theorem executed_iff : Executed app tx execMode hi validated gasLimit v s ↔
    v = (execTx app validated gasLimit tx execMode hi).1.reported (·.error) ∧
      s = (execTx app validated gasLimit tx execMode hi).2 := by
  simp only [Executed, messages_iff, and_assoc, exists_and_left, exists_eq_left, execTx, runTxMsgs]
  rcases msgsPhase app validated gasLimit tx execMode hi with ⟨r, c⟩
  cases r with
  | panic t => rfl
  | err e => grind [Outcome.verdict, runPostTx, Outcome.reported, Outcome.isPanic, Outcome.kept]
  | ok a => grind [Outcome.verdict, runPostTx, Outcome.reported, Outcome.kept]

theorem delivered_iff (txIndex : Int) : Delivered app state tx execMode hi v s ↔
    v = (deliverTxBody app state tx execMode hi txIndex).1.reported (·.error) ∧
      s = (deliverTxBody app state tx execMode hi txIndex).2 := by
  unfold Delivered deliverTxBody validateTx
  cases tx.getGasLimit with
  | err e | panic t => rfl
  | ok gasLimit => grind [Outcome.verdict, Outcome.reported, TxResult.failed, executed_iff]

/-- The result of `deliverTx` tells whether the handlers succeeded unless one of them panics:
after a panic the error of the result is nil. -/
theorem deliversStages_iff (txIndex : Int) : DeliversStages app state tx execMode hi txIndex ↔
    ∀ s, ¬ Delivered app state tx execMode hi .panic s := by
  simp only [DeliversStages, delivered_iff txIndex, deliverTx]
  rcases deliverTxBody app state tx execMode hi txIndex with ⟨r, s⟩
  cases r with
  | ok r => cases herror : r.error <;> simp [Outcome.reported, herror]
  | err e | panic t => simp [Outcome.reported, TxResult.failed, TxResult.zero]

end

def panickingApp : App Unit where
  doTxValidation _ c := (.panic "validation", c)
  invoke _ c := (.ok (), c)
  postTxExec _ _ c := (.ok (), c)
  getHeaderInfo _ := .ok ⟨1⟩
  typeURL _ := "test.Msg"
  runtimeIdentity := [1]

def emptyTx : Tx Unit where
  getGasLimit := .ok 1000
  getSenders := .ok []
  getMessages := .ok []

/-- A panic of the validation is reported as success. -/
theorem deliverTx_panic_reported_as_success :
    Delivered panickingApp (fun _ => .ok ∅) emptyTx .finalize ⟨1⟩ .panic (fun _ => .ok ∅) ∧
    (deliverTx panickingApp (fun _ => .ok ∅) emptyTx .finalize ⟨1⟩ 1).1.error = none ∧
    ¬ DeliversStages panickingApp (fun _ => .ok ∅) emptyTx .finalize ⟨1⟩ 1 := by
  refine ⟨⟨_, _, rfl, rfl, rfl⟩, rfl, ?_⟩
  rintro ⟨v, s, hrun, herror, -⟩
  have hv := (delivered_iff 1).mp hrun
  rw [herror.mp rfl] at hv
  exact absurd hv.1 (by decide)

end CosmosSDK.STF
