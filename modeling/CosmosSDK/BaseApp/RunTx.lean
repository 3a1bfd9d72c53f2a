import CosmosSDK.Store.GasMeter

/-!
# BaseApp.runTx

`runTx` of `baseapp/baseapp.go` in each of its modes.  Decoder, handlers and
mempool are arbitrary functions that may succeed, fail or panic.  A multi-store
is its content: branching it copies the content and `Write` installs the branch,
as the stores of `cachekv` do.  The body runs until it returns or panics; then
the deferred charge of block gas and the deferred recovery run.
-/

namespace CosmosSDK.BaseApp

open Store

/-- The content of a multi-store by store name. -/
abbrev MultiStore := String → KVMap

inductive ExecMode where
  | check
  | reCheck
  | simulate
  | finalize
deriving DecidableEq

inductive TxErr where
  /-- `ErrOutOfGas`: no block gas left to run tx -/
  | noBlockGas
  /-- `ErrTxDecode` with the text of the cause -/
  | txDecode (cause : TxErr)
  /-- `ErrOutOfGas`: out of gas in location, gasWanted, gasUsed -/
  | outOfGas (location : String) (gasWanted gasUsed : UInt64)
  /-- `ErrPanic`: recovered -/
  | recovered (p : PanicValue)
  /-- `ErrUnknownRequest`: no message handler found -/
  | noHandler
  /-- `ErrLogic`: got nil Msg response at index -/
  | nilResponse (index : Nat)
  /-- failed to execute message; message index -/
  | message (cause : TxErr) (index : Nat)
  /-- failed to create message events; message index -/
  | messageEvents (cause : TxErr) (index : Nat)
  /-- failed to marshal tx data -/
  | marshal (cause : TxErr)
  /-- failed to remove tx from mempool -/
  | mempoolRemove (cause : TxErr)
  /-- `errors.Join` -/
  | joined (errs : List TxErr)
  | handler (text : String)

inductive Ended (α : Type) where
  | ok (a : α)
  | err (e : TxErr)
  | panic (p : PanicValue)

structure Event where
  type : String
  attributes : List (String × String)

/-- The result of one message handler; a response may be nil. -/
structure MsgResult where
  events : List Event
  msgResponses : List (Option Bytes)

/-- `sdk.Result`. -/
structure TxResult where
  data : Bytes
  events : List Event
  msgResponses : List Bytes

def TxResult.empty : TxResult := ⟨[], [], []⟩

/-- A message; some messages carry messages of their own. -/
inductive Msg where
  | plain (name : String)
  | nesting (name : String) (msgs : List Msg)

/-- What an ante handler returns: the gas meter of the new context unless that
context is zero, the events, and the error. -/
structure AnteReturn where
  newCtx : Option GasMeter
  events : List Event
  err : Option TxErr

/-- An ante handler ends with the content of its branch and the meter it was given. -/
structure AnteRun where
  ms : MultiStore
  meter : GasMeter
  ending : PanicValue ⊕ AnteReturn

inductive MempoolErr where
  | txNotFound
  | other (text : String)

/-- What a chain configures, by the names of the fields of `BaseApp`. -/
structure App (Tx : Type) where
  txDecoder : Bytes → Ended Tx
  getMsgs : Tx → Except PanicValue (List Msg)
  getReflectMessages : Tx → Ended (List Bytes)
  validateBasicTxMsgs : List Msg → Ended Unit
  anteHandler : Option (Tx → Bool → MultiStore → GasMeter → AnteRun)
  mempoolInsert : Tx → Ended Unit
  mempoolRemove : Tx → Option MempoolErr
  /-- `msgServiceRouter.Handler` -/
  msgHandler : Msg → Option (MultiStore → GasMeter → Ended MsgResult × MultiStore × GasMeter)
  createEvents : List Event → Msg → Bytes → Except TxErr (List Event)
  makeABCIData : List Bytes → Except TxErr Bytes
  /-- `GetMsgs` of a nesting message fails -/
  nestedMsgsErr : Msg → Option TxErr
  getMsgSigners : Msg → Except TxErr Bytes
  includeNestedMsgsGas : Msg → Bool
  postHandler : Option (Tx → Bool → Bool → MultiStore → GasMeter →
    Ended (List Event) × MultiStore × GasMeter)
  /-- recovery handlers added in front of the default one -/
  recoveryHandlers : List (PanicValue → Option TxErr)

variable {Tx : Type}

/-! ## Messages -/

abbrev Effect (α : Type) := Ended α × MultiStore × GasMeter

/-- `AppendAttributes` of the message index. -/
def withMsgIndex (i : Nat) (e : Event) : Event :=
  { e with attributes := e.attributes ++ [("msg_index", toString i)] }

/-- The loop of `runMsgs` from index `i` on, with what it collected. -/
def runMsgsFrom (app : App Tx) (reflectMsgs : List Bytes) :
    Nat → List Msg → List Event → List Bytes → MultiStore → GasMeter →
      Effect (List Event × List Bytes)
  | _, [], events, responses, ms, gm => (.ok (events, responses), ms, gm)
  | i, msg :: msgs, events, responses, ms, gm =>
    match app.msgHandler msg with
    | none => (.err .noHandler, ms, gm)
    | some handler =>
      match handler ms gm with
      | (.panic p, ms', gm') => (.panic p, ms', gm')
      | (.err e, ms', gm') => (.err (.message e i), ms', gm')
      | (.ok msgResult, ms', gm') =>
        match reflectMsgs[i]? with
        | none => (.panic (.value "index out of range"), ms', gm')
        | some reflectMsg =>
          match app.createEvents msgResult.events msg reflectMsg with
          | .error e => (.err (.messageEvents e i), ms', gm')
          | .ok msgEvents =>
            let events' := events ++ msgEvents.map (withMsgIndex i)
            match msgResult.msgResponses with
            | [] => runMsgsFrom app reflectMsgs (i + 1) msgs events' responses ms' gm'
            | none :: _ => (.err (.nilResponse i), ms', gm')
            | some response :: _ =>
              runMsgsFrom app reflectMsgs (i + 1) msgs events'
                (responses ++ [response]) ms' gm'

variable (app : App Tx) (mode : ExecMode)

/-- `runMsgs`: messages are executed in finalize and simulate mode only. -/
def runMsgs (msgs : List Msg) (reflectMsgs : List Bytes)
    (ms : MultiStore) (gm : GasMeter) : Effect TxResult :=
  let msgs := if mode = .finalize ∨ mode = .simulate then msgs else []
  match runMsgsFrom app reflectMsgs 0 msgs [] [] ms gm with
  | (.panic p, ms', gm') => (.panic p, ms', gm')
  | (.err e, ms', gm') => (.err e, ms', gm')
  | (.ok (events, responses), ms', gm') =>
    match app.makeABCIData responses with
    | .error e => (.err (.marshal e), ms', gm')
    | .ok data => (.ok ⟨data, events, responses⟩, ms', gm')

def nestedSigners (app : App Tx) : List Msg → Except TxErr (List Bytes)
  | [] => .ok []
  | msg :: msgs =>
    match app.getMsgSigners msg with
    | .error e => .error e
    | .ok protoMsg =>
      match nestedSigners app msgs with
      | .error e => .error e
      | .ok protoMsgs => .ok (protoMsg :: protoMsgs)

mutual

/-- `simulateNestedMessages`: the messages inside a message, innermost first. -/
def simulateNestedMessages (app : App Tx) : Msg → MultiStore → GasMeter → Effect Unit
  | .plain _, ms, gm => (.ok (), ms, gm)
  | .nesting name msgs, ms, gm =>
    match app.nestedMsgsErr (.nesting name msgs) with
    | some e => (.err e, ms, gm)
    | none =>
      match app.validateBasicTxMsgs msgs with
      | .panic p => (.panic p, ms, gm)
      | .err e => (.err e, ms, gm)
      | .ok _ =>
        match simulateEach app msgs ms gm with
        | (.panic p, ms', gm') => (.panic p, ms', gm')
        | (.err e, ms', gm') => (.err e, ms', gm')
        | (.ok _, ms', gm') =>
          match nestedSigners app msgs with
          | .error e => (.err e, ms', gm')
          | .ok protoMessages =>
            match runMsgs app .simulate msgs protoMessages ms' gm' with
            | (.panic p, ms'', gm'') => (.panic p, ms'', gm'')
            | (.err e, ms'', gm'') => (.err e, ms'', gm'')
            | (.ok _, ms'', gm'') =>
              if app.includeNestedMsgsGas (.nesting name msgs) then (.ok (), ms'', gm'')
              else
                match gm''.refundGas (gm''.gasConsumed - gm'.gasConsumed)
                  "simulation of nested messages" with
                | (some p, gm₃) => (.panic p, ms'', gm₃)
                | (none, gm₃) => (.ok (), ms'', gm₃)

def simulateEach (app : App Tx) : List Msg → MultiStore → GasMeter → Effect Unit
  | [], ms, gm => (.ok (), ms, gm)
  | msg :: msgs, ms, gm =>
    match simulateNestedMessages app msg ms gm with
    | (.ok _, ms', gm') => simulateEach app msgs ms' gm'
    | r => r

end

/-! ## The variables of runTx -/

/-- What `runTx` returns besides the gas. -/
structure Out where
  result : Option TxResult
  anteEvents : List Event
  err : Option TxErr

/-- The context's multi-store and meter, the block gas meter, and the variables
`gasWanted`, `blockGasConsumed` and `anteEvents`.  If the context's multi-store is a branch,
`below` is the one it was opened on. -/
structure Run where
  ms : MultiStore
  below : Option MultiStore
  meter : GasMeter
  blockGasMeter : GasMeter
  blockGasConsumed : Bool
  gasWanted : UInt64
  anteEvents : List Event

inductive Stop where
  | ret (out : Out)
  | panic (p : PanicValue)

/-- A part of the body: it goes on with a value or stops. -/
abbrev Phase (α : Type) := Run → Except Stop α × Run

def Phase.bind {α β : Type} (x : Phase α) (f : α → Phase β) : Phase β := fun r =>
  match x r with
  | (.error s, r') => (.error s, r')
  | (.ok a, r') => f a r'

/-- Continue with the value of a call; an error returns from `runTx`. -/
def Phase.call {α : Type} (e : Ended α) (onErr : TxErr → Out) : Phase α := fun r =>
  match e with
  | .ok a => (.ok a, r)
  | .err e => (.error (.ret (onErr e)), r)
  | .panic p => (.error (.panic p), r)

/-- What a transaction's meter costs the block: its gas, capped at its limit. -/
def blockCharge (blockGasMeter meter : GasMeter) : Option PanicValue × GasMeter :=
  blockGasMeter.consumeGas meter.gasConsumedToLimit "block gas meter"

/-- `consumeBlockGas`: the flag is set before the charge, which may panic. -/
def consumeBlockGas : Phase Unit := fun r =>
  if r.blockGasConsumed then (.ok (), r)
  else
    let charge := blockCharge r.blockGasMeter r.meter
    let r' := { r with blockGasConsumed := true, blockGasMeter := charge.2 }
    match charge.1 with
    | none => (.ok (), r')
    | some p => (.error (.panic p), r')

/-! ## The phases of the body -/

/-- Return from `runTx` with an error and no events. -/
def Out.failed (e : TxErr) : Out := ⟨none, [], some e⟩

/-- The transaction is decoded here unless it was passed in. -/
def decodeTx (txBytes : Bytes) : Option Tx → Phase Tx
  | some tx, r => (.ok tx, r)
  | none, r => Phase.call (app.txDecoder txBytes) (fun e => Out.failed (.txDecode e)) r

def getMsgs (app : App Tx) (tx : Tx) : Phase (List Msg) := fun r =>
  match app.getMsgs tx with
  | .ok msgs => (.ok msgs, r)
  | .error p => (.error (.panic p), r)

/-- Basic validation is skipped on recheck. -/
def validateBasic (msgs : List Msg) : Phase Unit := fun r =>
  if mode = .reCheck then (.ok (), r)
  else Phase.call (app.validateBasicTxMsgs msgs) Out.failed r

def decodePhase (txBytes : Bytes) (tx : Option Tx) : Phase (Tx × List Msg) :=
  Phase.bind (decodeTx app txBytes tx) fun tx =>
  Phase.bind (getMsgs app tx) fun msgs =>
  Phase.bind (validateBasic app mode msgs) fun _ r => (.ok (tx, msgs), r)

/-- The error of the ante handler, with that of the mempool on recheck. -/
def anteErr (tx : Tx) (err : TxErr) : TxErr :=
  if mode = .reCheck then
    match app.mempoolRemove tx with
    | none => err
    | some .txNotFound => .joined [err, .handler "tx not found in mempool"]
    | some (.other text) => .joined [err, .handler text]
  else err

/-- The ante handler on a branch, which is written if it succeeds. -/
def antePhase (tx : Tx) : Phase Unit := fun r =>
  match app.anteHandler with
  | none => (.ok (), r)
  | some anteHandler =>
    let run := anteHandler tx (mode = .simulate) r.ms r.meter
    match run.ending with
    | .inl p => (.error (.panic p), { r with meter := run.meter })
    | .inr ret =>
      let meter := ret.newCtx.getD run.meter
      let r' := { r with meter := meter, gasWanted := meter.limit }
      match ret.err with
      | some err => (.error (.ret (Out.failed (anteErr app mode tx err))), r')
      | none => (.ok (), { r' with ms := run.ms, anteEvents := ret.events })

def mempoolPhase (tx : Tx) : Phase Unit := fun r =>
  match mode with
  | .check => Phase.call (app.mempoolInsert tx) (fun e => ⟨none, r.anteEvents, some e⟩) r
  | .finalize =>
    match app.mempoolRemove tx with
    | some (.other text) =>
      (.error (.ret ⟨none, r.anteEvents, some (.mempoolRemove (.handler text))⟩), r)
    | _ => (.ok (), r)
  | _ => (.ok (), r)

/-- The messages on a branch; their error is kept for the post handler. -/
def msgsPhase (tx : Tx) (msgs : List Msg) : Phase (Except TxErr TxResult × MultiStore) := fun r =>
  match app.getReflectMessages tx with
  | .panic p => (.error (.panic p), r)
  | .err e => (.ok (.error e, r.ms), r)
  | .ok reflectMsgs =>
    match runMsgs app mode msgs reflectMsgs r.ms r.meter with
    | (.panic p, _, gm) => (.error (.panic p), { r with meter := gm })
    | (.err e, ms, gm) => (.ok (.error e, ms), { r with meter := gm })
    | (.ok result, ms, gm) => (.ok (.ok result, ms), { r with meter := gm })

/-- In simulate mode the nested messages run on the context itself. -/
def nestedPhase (msgs : List Msg) : Phase Unit := fun r =>
  if mode = .simulate then
    match simulateEach app msgs r.ms r.meter with
    | (.panic p, ms, gm) => (.error (.panic p), { r with ms := ms, meter := gm })
    | (.err e, ms, gm) =>
      (.error (.ret ⟨none, r.anteEvents, some e⟩), { r with ms := ms, meter := gm })
    | (.ok _, ms, gm) => (.ok (), { r with ms := ms, meter := gm })
  else (.ok (), r)

/-- `errors.Join` of the error so far and that of the post handler. -/
def joinErrs : Except TxErr TxResult → TxErr → TxErr
  | .error e, e' => .joined [e, e']
  | .ok _, e' => .joined [e']

/-- The events of the post handler go behind those of the messages. -/
def addPostEvents (res : Except TxErr TxResult) (events : List Event) : TxResult :=
  let result := match res with
    | .ok result => result
    | .error _ => TxResult.empty
  { result with events := result.events ++ events }

/-- The error, if any, and the result after the post handler, and the branch. -/
def postPhase (tx : Tx) (msgsEnd : Except TxErr TxResult × MultiStore) :
    Phase (Option TxErr × Option TxResult × MultiStore) := fun r =>
  let err := match msgsEnd.1 with
    | .error e => some e
    | .ok _ => none
  match app.postHandler with
  | none => (.ok (err, msgsEnd.1.toOption, msgsEnd.2), r)
  | some postHandler =>
    match postHandler tx (mode = .simulate) err.isNone msgsEnd.2 r.meter with
    | (.panic p, _, gm) => (.error (.panic p), { r with meter := gm })
    | (.err e, _, gm) =>
      (.error (.ret ⟨none, r.anteEvents, some (joinErrs msgsEnd.1 e)⟩), { r with meter := gm })
    | (.ok events, ms, gm) =>
      (.ok (err, some (addPostEvents msgsEnd.1 events), ms), { r with meter := gm })

/-- The end of the body: without error block gas is charged and the branch written. -/
def commitPhase (e : Option TxErr × Option TxResult × MultiStore) : Phase Out :=
  fun r =>
  match e.1 with
  | some err => (.ok ⟨e.2.1, r.anteEvents, some err⟩, r)
  | none =>
    let result := e.2.1.map (fun res =>
      if mode = .finalize ∨ mode = .simulate then
        { res with events := r.anteEvents ++ res.events }
      else res)
    if mode = .finalize then
      match consumeBlockGas r with
      | (.error s, r') => (.error s, r')
      | (.ok _, r') => (.ok ⟨result, r.anteEvents, none⟩, { r' with ms := e.2.2 })
    else (.ok ⟨result, r.anteEvents, none⟩, r)

/-- Up to and with the ante handler. -/
def acceptPhase (txBytes : Bytes) (tx : Option Tx) : Phase (Tx × List Msg) :=
  Phase.bind (decodePhase app mode txBytes tx) fun tm =>
  Phase.bind (antePhase app mode tm.1) fun _ r => (.ok tm, r)

/-- From the mempool to the post handler. -/
def executePhase (tm : Tx × List Msg) : Phase (Option TxErr × Option TxResult × MultiStore) :=
  Phase.bind (mempoolPhase app mode tm.1) fun _ =>
  Phase.bind (msgsPhase app mode tm.1 tm.2) fun msgsEnd =>
  Phase.bind (nestedPhase app mode tm.2) fun _ =>
  postPhase app mode tm.1 msgsEnd

def runTxBody (txBytes : Bytes) (tx : Option Tx) : Phase Out :=
  Phase.bind (acceptPhase app mode txBytes tx) fun tm =>
  Phase.bind (executePhase app mode tm) (commitPhase mode)

/-! ## Recovery -/

/-- `processRecovery` with the out-of-gas handler in front and the default one last. -/
def processRecovery (p : PanicValue) (gasWanted gasUsed : UInt64) : TxErr :=
  match p with
  | .outOfGas descriptor => .outOfGas descriptor gasWanted gasUsed
  | p =>
    match app.recoveryHandlers.findSome? (fun handler => handler p) with
    | some e => e
    | none => .recovered p

/-! ## runTx -/

structure GasInfo where
  gasWanted : UInt64
  gasUsed : UInt64

/-- The states of an application: for the block in progress, with its gas meter,
and for checking transactions. -/
structure AppState where
  finalizeBlockState : MultiStore
  blockGasMeter : GasMeter
  checkState : MultiStore

/-- `CacheContext`: the context goes on with a branch of its multi-store. -/
def Run.cacheContext (r : Run) : Run := { r with below := some r.ms }

/-- `getContextForTx`: the multi-store of the mode's state; in simulate mode a branch of it,
whose write function is dropped. -/
def getContextForTx (st : AppState) (mode : ExecMode) : Run :=
  let ctx : Run :=
    { ms := if mode = .finalize then st.finalizeBlockState else st.checkState, below := none
      meter := .infinite 0, blockGasMeter := st.blockGasMeter
      blockGasConsumed := false, gasWanted := 0, anteEvents := [] }
  if mode = .simulate then ctx.cacheContext else ctx

/-- The multi-store of the mode's state at the end of a run. -/
def Run.stateStore (r : Run) : MultiStore := r.below.getD r.ms

/-- The states after the multi-store of one of them and the block gas meter changed. -/
def AppState.after (st : AppState) (mode : ExecMode) (r : Run) : AppState :=
  match mode with
  | .finalize => { st with finalizeBlockState := r.stateStore, blockGasMeter := r.blockGasMeter }
  | _ => { st with checkState := r.stateStore }

/-- How the body ended: a value of the last phase is returned. -/
def bodyStop : Except Stop Out → Stop
  | .ok out => .ret out
  | .error s => s

/-- The deferred charge, and what the function returns after it. -/
def deferredCharge (stop : Stop) (r : Run) : Stop × Run :=
  if mode = .finalize then
    match consumeBlockGas r with
    | (.error s, r') => (s, r')
    | (.ok _, r') => (stop, r')
  else (stop, r)

/-- The named result `anteEvents` when the deferred functions run. -/
def namedAnteEvents (r : Run) : Stop → List Event
  | .ret out => out.anteEvents
  | .panic _ => r.anteEvents

/-- The deferred recovery: a panic becomes an error without result. -/
def deferredRecover (anteEvents : List Event) (r : Run) : Stop → Out
  | .ret out => out
  | .panic p =>
    ⟨none, anteEvents, some (processRecovery app p r.gasWanted r.meter.gasConsumed)⟩

def runTx (app : App Tx) (st : AppState) (mode : ExecMode) (txBytes : Bytes) (tx : Option Tx) :
    GasInfo × Out × AppState :=
  let start := getContextForTx st mode
  if mode = .finalize ∧ start.blockGasMeter.isOutOfGas then
    (⟨0, 0⟩, Out.failed .noBlockGas, st)
  else
    let body := runTxBody app mode txBytes tx start
    let stop := bodyStop body.1
    let charged := deferredCharge mode stop body.2
    (⟨charged.2.gasWanted, charged.2.meter.gasConsumed⟩,
      deferredRecover app (namedAnteEvents body.2 stop) charged.2 charged.1,
      st.after mode charged.2)

end CosmosSDK.BaseApp
