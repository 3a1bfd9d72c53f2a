import CosmosSDK.BaseApp.RunTx

/-!
# The effects of runTx on the application's states

What a block keeps of a transaction is told from its handlers alone: rejected
before or by the ante handler, reverted to the writes of the ante handler, or
completed.  `runTx` in finalize mode keeps exactly that and adds the gas of the
transaction's meter to that of the block once; a simulation keeps nothing.
-/

namespace CosmosSDK.BaseApp

open Store

variable {Tx : Type}

/-! ## What the handlers decide -/

variable (app : App Tx)

/-- The transaction and its messages if decoding and basic validation succeed. -/
def decoded (txBytes : Bytes) (tx : Option Tx) : Option (Tx × List Msg) :=
  match tx.elim (app.txDecoder txBytes) Ended.ok with
  | .ok tx =>
    match app.getMsgs tx with
    | .ok msgs =>
      match app.validateBasicTxMsgs msgs with
      | .ok _ => some (tx, msgs)
      | _ => none
    | .error _ => none
  | _ => none

/-- The content after the ante handler if it succeeds, and the meter of its context. -/
def anteEffect (tx : Tx) (ms : MultiStore) (gm : GasMeter) : Option MultiStore × GasMeter :=
  match app.anteHandler with
  | none => (some ms, gm)
  | some anteHandler =>
    let run := anteHandler tx false ms gm
    match run.ending with
    | .inl _ => (none, run.meter)
    | .inr ret =>
      (if ret.err.isNone then some run.ms else none, ret.newCtx.getD run.meter)

def postEffect (tx : Tx) (success : Bool) (ms : MultiStore) (gm : GasMeter) :
    Option MultiStore × GasMeter :=
  match app.postHandler with
  | none => (some ms, gm)
  | some postHandler =>
    match postHandler tx false success ms gm with
    | (.ok _, ms', gm') => (some ms', gm')
    | (_, _, gm') => (none, gm')

/-- What becomes of the result of a handler: its first response, if its events can be made. -/
def msgResponse (reflectMsgs : List Bytes) (i : Nat) (msg : Msg) (res : MsgResult) :
    Ended (List Bytes) :=
  match reflectMsgs[i]?.map (app.createEvents res.events msg), res.msgResponses.head? with
  | none, _ => .panic (.value "index out of range")
  | some (.error e), _ => .err (.messageEvents e i)
  | some (.ok _), some none => .err (.nilResponse i)
  | some (.ok _), some (some response) => .ok [response]
  | some (.ok _), none => .ok []

/-- The handlers of the messages one after the other, on the content and the meter that the one
before left, until one does not succeed.  The responses are collected. -/
def handleMsgs (app : App Tx) (reflectMsgs : List Bytes) :
    Nat → List Msg → List Bytes → MultiStore → GasMeter → Effect (List Bytes)
  | _, [], responses, ms, gm => (.ok responses, ms, gm)
  | i, msg :: msgs, responses, ms, gm =>
    match app.msgHandler msg with
    | none => (.err .noHandler, ms, gm)
    | some handler =>
      match handler ms gm with
      | (.err e, ms', gm') => (.err (.message e i), ms', gm')
      | (.panic p, ms', gm') => (.panic p, ms', gm')
      | (.ok res, ms', gm') =>
        match msgResponse app reflectMsgs i msg res with
        | .err e => (.err e, ms', gm')
        | .panic p => (.panic p, ms', gm')
        | .ok response => handleMsgs app reflectMsgs (i + 1) msgs (responses ++ response) ms' gm'

/-- The content after messages and post handler if all succeed.  The post handler
uses gas also after a failed message. -/
def msgsEffect (tx : Tx) (msgs : List Msg) (ms : MultiStore) (gm : GasMeter) :
    Option MultiStore × GasMeter :=
  match app.getReflectMessages tx with
  | .panic _ => (none, gm)
  | .err _ => (none, (postEffect app tx false ms gm).2)
  | .ok reflectMsgs =>
    match handleMsgs app reflectMsgs 0 msgs [] ms gm with
    | (.panic _, _, gm') => (none, gm')
    | (.err _, ms', gm') => (none, (postEffect app tx false ms' gm').2)
    | (.ok responses, ms', gm') =>
      if (app.makeABCIData responses).isOk then postEffect app tx true ms' gm'
      else (none, (postEffect app tx false ms' gm').2)

/-- The same behind the mempool, which must let the transaction go. -/
def executeEffect (tx : Tx) (msgs : List Msg) (ms : MultiStore) (gm : GasMeter) :
    Option MultiStore × GasMeter :=
  match app.mempoolRemove tx with
  | some (.other _) => (none, gm)
  | _ => msgsEffect app tx msgs ms gm

inductive Verdict where
  | rejected (meter : GasMeter)
  | reverted (ante : MultiStore) (meter : GasMeter)
  | completed (ante final : MultiStore) (meter : GasMeter)

def verdict (txBytes : Bytes) (tx : Option Tx) (ms : MultiStore) : Verdict :=
  match decoded app txBytes tx with
  | none => .rejected (.infinite 0)
  | some (tx, msgs) =>
    match anteEffect app tx ms (.infinite 0) with
    | (none, gm) => .rejected gm
    | (some ante, gm) =>
      match executeEffect app tx msgs ante gm with
      | (none, gm') => .reverted ante gm'
      | (some final, gm') => .completed ante final gm'

namespace Verdict

def meter : Verdict → GasMeter
  | rejected gm => gm
  | reverted _ gm => gm
  | completed _ _ gm => gm

/-- What the block keeps; `paid` tells whether the block had the gas. -/
def kept (ms : MultiStore) (paid : Bool) : Verdict → MultiStore
  | rejected _ => ms
  | reverted ante _ => ante
  | completed ante final _ => if paid then final else ante

def succeeds (paid : Bool) : Verdict → Bool
  | completed _ _ _ => paid
  | _ => false

end Verdict

/-- The gas of a transaction's meter, at most its limit. -/
def cost : GasMeter → Nat
  | .basic limit consumed => min consumed.toNat limit.toNat
  | .infinite consumed => consumed.toNat

/-- Adding gas to the meter of a block, and whether the block had it: on an overflow a limited
meter is full, and one without limit starts again. -/
inductive Pays (gas : Nat) : GasMeter → Bool → GasMeter → Prop
  | within {limit consumed sum : UInt64} (added : sum.toNat = consumed.toNat + gas)
      (fits : sum.toNat ≤ limit.toNat) : Pays gas (.basic limit consumed) true (.basic limit sum)
  | past {limit consumed sum : UInt64} (added : sum.toNat = consumed.toNat + gas)
      (above : limit.toNat < sum.toNat) : Pays gas (.basic limit consumed) false (.basic limit sum)
  | full {limit consumed : UInt64} (wraps : 2 ^ 64 ≤ consumed.toNat + gas) :
      Pays gas (.basic limit consumed) false (.basic limit maxUint64)
  | unlimited {consumed sum : UInt64} (added : sum.toNat = consumed.toNat + gas) :
      Pays gas (.infinite consumed) true (.infinite sum)
  | again {consumed : UInt64} (wraps : 2 ^ 64 ≤ consumed.toNat + gas) :
      Pays gas (.infinite consumed) false (.infinite 0)

/-- Whether a finalized transaction succeeds, and the states after it. -/
def Finalized (st : AppState) (txBytes : Bytes) (tx : Option Tx) (ok : Bool) (st' : AppState) :
    Prop :=
  if st.blockGasMeter.isOutOfGas then ok = false ∧ st' = st
  else
    let v := verdict app txBytes tx st.finalizeBlockState
    ∃ paid block, Pays (cost v.meter) st.blockGasMeter paid block ∧ ok = v.succeeds paid ∧
      st' = { st with
        finalizeBlockState := v.kept st.finalizeBlockState paid
        blockGasMeter := block }

/-! ## Messages and block gas -/

def Ended.map {α β : Type} (f : α → β) : Ended α → Ended β
  | ok a => ok (f a)
  | err e => err e
  | panic p => panic p

theorem handleMsgs_eq (reflectMsgs : List Bytes) (i : Nat) (msgs : List Msg) (events : List Event)
    (responses : List Bytes) (ms : MultiStore) (gm : GasMeter) :
    handleMsgs app reflectMsgs i msgs responses ms gm =
      (runMsgsFrom app reflectMsgs i msgs events responses ms gm).map (·.map Prod.snd) id := by
  fun_induction runMsgsFrom app reflectMsgs i msgs events responses ms gm <;>
    simp_all [handleMsgs, msgResponse, Ended.map]

theorem addUint64Overflow_cases (a b : UInt64) :
    (addUint64Overflow a b = none ∧ 2 ^ 64 ≤ a.toNat + b.toNat) ∨
      ∃ sum, addUint64Overflow a b = some sum ∧ sum.toNat = a.toNat + b.toNat := by
  have hmax : maxUint64.toNat = 2 ^ 64 - 1 := by decide
  have ha := a.toNat_lt
  have hle : a ≤ maxUint64 := by
    rw [UInt64.le_iff_toNat_le, hmax]
    omega
  unfold addUint64Overflow
  by_cases hover : maxUint64 - a < b
  · rw [if_pos hover]
    rw [UInt64.lt_iff_toNat_lt, UInt64.toNat_sub_of_le _ _ hle, hmax] at hover
    exact .inl ⟨rfl, by omega⟩
  · rw [if_neg hover]
    rw [UInt64.lt_iff_toNat_lt, UInt64.toNat_sub_of_le _ _ hle, hmax] at hover
    refine .inr ⟨a + b, rfl, ?_⟩
    rw [UInt64.toNat_add]
    omega

theorem gasConsumedToLimit_toNat (meter : GasMeter) :
    meter.gasConsumedToLimit.toNat = cost meter := by
  cases meter with
  | infinite consumed => rfl
  | basic limit consumed =>
    simp only [GasMeter.gasConsumedToLimit, GasMeter.isPastLimit, GasMeter.limit,
      GasMeter.gasConsumed, cost, decide_eq_true_eq, gt_iff_lt, UInt64.lt_iff_toNat_lt]
    split <;> omega

theorem consumeGas_pays (g : GasMeter) (gas : UInt64) (descriptor : String) :
    Pays gas.toNat g (g.consumeGas gas descriptor).1.isNone (g.consumeGas gas descriptor).2 := by
  rw [GasMeter.consumeGas]
  rcases addUint64Overflow_cases g.gasConsumed gas with ⟨hsum, hover⟩ | ⟨sum, hsum, hadd⟩
  · rw [hsum]
    cases g with
    | basic limit consumed => exact .full hover
    | infinite consumed => exact .again hover
  · rw [hsum]
    cases g with
    | basic limit consumed =>
      by_cases hpast : sum > limit
      · rw [GasMeter.record, if_pos hpast]
        exact .past hadd (UInt64.lt_iff_toNat_lt.mp hpast)
      · rw [GasMeter.record, if_neg hpast]
        exact .within hadd (Nat.not_lt.mp (mt UInt64.lt_iff_toNat_lt.mpr hpast))
    | infinite consumed => exact .unlimited hadd

theorem blockCharge_pays (block meter : GasMeter) :
    Pays (cost meter) block (blockCharge block meter).1.isNone (blockCharge block meter).2 := by
  rw [← gasConsumedToLimit_toNat]
  exact consumeGas_pays block meter.gasConsumedToLimit "block gas meter"

/-! ## Rules for phases -/

@[grind] def Stop.Failed : Stop → Prop
  | .ret out => out.err ≠ none
  | .panic _ => True

/-- The phase goes on with `cont`, or fails with `stopped`. -/
def Phase.Ensures {α : Type} (x : Phase α) (r : Run) (cont : α → Run → Prop)
    (stopped : Run → Prop) : Prop :=
  match x r with
  | (.ok a, r') => cont a r'
  | (.error s, r') => s.Failed ∧ stopped r'

variable {α : Type} {r start : Run} {stopped : Run → Prop} {stop : Stop} {x : Phase α}

theorem Phase.Ensures.bind {β : Type} {f : α → Phase β} {contₓ : α → Run → Prop}
    {stoppedₓ : Run → Prop} {cont : β → Run → Prop} (hx : x.Ensures r contₓ stoppedₓ)
    (hstop : ∀ r', stoppedₓ r' → stopped r')
    (hf : ∀ a r', contₓ a r' → (f a).Ensures r' cont stopped) :
    (Phase.bind x f).Ensures r cont stopped := by
  grind [Phase.Ensures, Phase.bind]

theorem Phase.Ensures.mono {cont cont' : α → Run → Prop} {stopped' : Run → Prop}
    (h : x.Ensures r cont stopped) (hcont : ∀ a r', cont a r' → cont' a r')
    (hstop : ∀ r', stopped r' → stopped' r') : x.Ensures r cont' stopped' := by
  grind [Phase.Ensures]

/-! ## The phases in finalize mode -/

section Phases

variable (app : App Tx) (r : Run)

theorem decodePhase_finalize (txBytes : Bytes) (tx : Option Tx) :
    (decodePhase app .finalize txBytes tx).Ensures r
      (fun tm r' => r' = r ∧ decoded app txBytes tx = some tm)
      (fun r' => r' = r ∧ decoded app txBytes tx = none) := by
  unfold Phase.Ensures decodePhase decodeTx getMsgs validateBasic decoded Phase.bind Phase.call
  cases tx <;> grind [Out.failed]

/-- The block gas meter is not charged in between. -/
@[grind] def Run.SameBlock (r' : Run) : Prop :=
  r'.blockGasMeter = r.blockGasMeter ∧ r'.blockGasConsumed = r.blockGasConsumed

theorem antePhase_finalize (tx : Tx) : (antePhase app .finalize tx).Ensures r
      (fun _ r' => anteEffect app tx r.ms r.meter = (some r'.ms, r'.meter) ∧ r.SameBlock r')
      (fun r' => anteEffect app tx r.ms r.meter = (none, r'.meter) ∧ r'.ms = r.ms ∧
        r.SameBlock r') := by
  unfold Phase.Ensures antePhase anteEffect
  grind [Out.failed]

theorem mempoolPhase_finalize (tx : Tx) (msgs : List Msg) (ms : MultiStore) (gm : GasMeter) :
    (mempoolPhase app .finalize tx).Ensures r
      (fun _ r' => r' = r ∧ executeEffect app tx msgs ms gm = msgsEffect app tx msgs ms gm)
      (fun r' => r' = r ∧ executeEffect app tx msgs ms gm = (none, gm)) := by
  unfold Phase.Ensures mempoolPhase executeEffect
  rcases app.mempoolRemove tx with _ | _ | text <;> simp [Stop.Failed]

theorem msgsPhase_finalize (tx : Tx) (msgs : List Msg) : (msgsPhase app .finalize tx msgs).Ensures r
      (fun e r' => r'.ms = r.ms ∧ r.SameBlock r' ∧
        msgsEffect app tx msgs r.ms r.meter =
          (match e.1 with
            | .ok _ => postEffect app tx true e.2 r'.meter
            | .error _ => (none, (postEffect app tx false e.2 r'.meter).2)))
      (fun r' => r'.ms = r.ms ∧ r.SameBlock r' ∧
        msgsEffect app tx msgs r.ms r.meter = (none, r'.meter)) := by
  unfold Phase.Ensures msgsPhase msgsEffect
  cases app.getReflectMessages tx with
  | panic => exact ⟨trivial, rfl, ⟨rfl, rfl⟩, rfl⟩
  | err => exact ⟨rfl, ⟨rfl, rfl⟩, rfl⟩
  | ok reflectMsgs =>
    simp only [runMsgs, true_or, if_true, handleMsgs_eq app reflectMsgs 0 msgs []]
    rcases runMsgsFrom app reflectMsgs 0 msgs [] [] r.ms r.meter with
      ⟨⟨events, responses⟩ | _ | _, ms', gm'⟩
    · simp only [Prod.map, Ended.map]
      cases app.makeABCIData responses with
      | error e | ok data => exact ⟨rfl, ⟨rfl, rfl⟩, by simp [Except.isOk, Except.toBool]⟩
    · exact ⟨rfl, ⟨rfl, rfl⟩, rfl⟩
    · exact ⟨trivial, rfl, ⟨rfl, rfl⟩, rfl⟩

theorem postPhase_finalize (tx : Tx) (e : Except TxErr TxResult × MultiStore) :
    (postPhase app .finalize tx e).Ensures r
      (fun e' r' => r'.ms = r.ms ∧ r.SameBlock r' ∧
        (match e.1 with
          | .ok _ => e'.1 = none ∧ postEffect app tx true e.2 r.meter = (some e'.2.2, r'.meter)
          | .error _ => e'.1 ≠ none ∧ (postEffect app tx false e.2 r.meter).2 = r'.meter))
      (fun r' => r'.ms = r.ms ∧ r.SameBlock r' ∧
        (match e.1 with
          | .ok _ => postEffect app tx true e.2 r.meter = (none, r'.meter)
          | .error _ => (postEffect app tx false e.2 r.meter).2 = r'.meter)) := by
  unfold Phase.Ensures postPhase postEffect
  grind

theorem Run.SameBlock.trans {r r' r'' : Run} (h : r.SameBlock r') (h' : r'.SameBlock r'') :
    r.SameBlock r'' :=
  ⟨h'.1.trans h.1, h'.2.trans h.2⟩

theorem executePhase_finalize (tm : Tx × List Msg) : (executePhase app .finalize tm).Ensures r
      (fun e r' => r'.ms = r.ms ∧ r.SameBlock r' ∧ executeEffect app tm.1 tm.2 r.ms r.meter =
          (if e.1 = none then some e.2.2 else none, r'.meter))
      (fun r' => r'.ms = r.ms ∧ r.SameBlock r' ∧
        executeEffect app tm.1 tm.2 r.ms r.meter = (none, r'.meter)) := by
  refine (mempoolPhase_finalize app r tm.1 tm.2 r.ms r.meter).bind ?_ ?_
  · rintro r' ⟨rfl, heff⟩
    exact ⟨rfl, ⟨rfl, rfl⟩, heff⟩
  rintro _ r' ⟨rfl, heff⟩
  rw [heff]
  refine (msgsPhase_finalize app r' tm.1 tm.2).bind (fun r1 h => h) ?_
  rintro e r1 ⟨hms1, hblock1, hmsgs⟩
  -- nested messages are simulated only, so the post handler is next
  refine (postPhase_finalize app r1 tm.1 e).mono ?_ ?_
  · rintro e' r2 ⟨hms2, hblock2, hpost⟩
    refine ⟨hms2.trans hms1, hblock1.trans hblock2, hmsgs.trans ?_⟩
    cases he : e.1 <;> simp_all
  · rintro r2 ⟨hms2, hblock2, hpost⟩
    refine ⟨hms2.trans hms1, hblock1.trans hblock2, hmsgs.trans ?_⟩
    cases he : e.1 <;> simp_all

end Phases

/-! ## The body -/

/-- The state of the body at its end: `paid` tells how the charge went, if the
body made it. -/
def Run.EndsWith (start r' : Run) (stop : Stop) : Verdict → Prop
  | .rejected gm => stop.Failed ∧ r'.ms = start.ms ∧ r'.meter = gm ∧ start.SameBlock r'
  | .reverted ante gm => stop.Failed ∧ r'.ms = ante ∧ r'.meter = gm ∧ start.SameBlock r'
  | .completed ante final gm =>
    let charge := blockCharge start.blockGasMeter gm
    r'.blockGasConsumed = true ∧ r'.blockGasMeter = charge.2 ∧
      (charge.1 = none → r'.ms = final ∧ ∃ out, stop = .ret out ∧ out.err = none) ∧
      (charge.1 ≠ none → r'.ms = ante ∧ stop.Failed)

theorem Phase.Ensures.bind_stop {f : α → Phase Out} {cont : α → Run → Prop}
    {Q : Run → Stop → Prop} (hx : x.Ensures r cont stopped)
    (hstop : ∀ s r', s.Failed → stopped r' → Q r' s)
    (hf : ∀ a r', cont a r' → Q (f a r').2 (bodyStop (f a r').1)) :
    Q (Phase.bind x f r).2 (bodyStop (Phase.bind x f r).1) := by
  grind [Phase.Ensures, Phase.bind, bodyStop]

theorem commitPhase_finalize {e : Option TxErr × Option TxResult × MultiStore}
    (hblock : start.SameBlock r) (hstart : start.blockGasConsumed = false) :
    start.EndsWith (commitPhase .finalize e r).2 (bodyStop (commitPhase .finalize e r).1)
      (if e.1 = none then .completed r.ms e.2.2 r.meter else .reverted r.ms r.meter) := by
  unfold commitPhase consumeBlockGas
  grind [Run.EndsWith, bodyStop]

theorem acceptPhase_finalize (txBytes : Bytes) (tx : Option Tx)
    (hmeter : r.meter = .infinite 0) : (acceptPhase app .finalize txBytes tx).Ensures r
      (fun tm r' => r.SameBlock r' ∧ decoded app txBytes tx = some tm ∧
        anteEffect app tm.1 r.ms (.infinite 0) = (some r'.ms, r'.meter))
      (fun r' => r.SameBlock r' ∧ r'.ms = r.ms ∧
        verdict app txBytes tx r.ms = .rejected r'.meter) := by
  refine (decodePhase_finalize app r txBytes tx).bind ?_ ?_
  · rintro r' ⟨rfl, hdec⟩
    exact ⟨⟨rfl, rfl⟩, rfl, by rw [verdict, hdec, hmeter]⟩
  rintro tm r' ⟨rfl, hdec⟩
  refine (antePhase_finalize app r' tm.1).bind ?_ ?_
  · rintro r1 ⟨heff, hms, hblock⟩
    rw [hmeter] at heff
    exact ⟨hblock, hms, by simp only [verdict, hdec, heff]⟩
  · rintro _ r1 ⟨heff, hblock⟩
    exact ⟨hblock, hdec, by rw [← heff, hmeter]⟩

theorem runTxBody_finalize (txBytes : Bytes) (tx : Option Tx) (start : Run)
    (hstart : start.blockGasConsumed = false) (hmeter : start.meter = .infinite 0) :
    start.EndsWith (runTxBody app .finalize txBytes tx start).2
      (bodyStop (runTxBody app .finalize txBytes tx start).1)
      (verdict app txBytes tx start.ms) := by
  refine (acceptPhase_finalize app txBytes tx hmeter).bind_stop
    (Q := fun r s => start.EndsWith r s (verdict app txBytes tx start.ms)) ?_ ?_
  · rintro s r' hs ⟨hblock, hms, hv⟩
    rw [hv]
    exact ⟨hs, hms, rfl, hblock⟩
  rintro tm r1 ⟨hblock1, hdec, hante⟩
  refine (executePhase_finalize app r1 tm).bind_stop
    (Q := fun r s => start.EndsWith r s (verdict app txBytes tx start.ms)) ?_ ?_
  · rintro s r2 hs ⟨hms2, hblock2, heff⟩
    have hv : verdict app txBytes tx start.ms = .reverted r1.ms r2.meter := by
      simp only [verdict, hdec, hante, heff]
    rw [hv]
    exact ⟨hs, hms2, rfl, hblock1.trans hblock2⟩
  · grind [verdict, commitPhase_finalize]

/-! ## The state below a branch -/

/-- Writes go to the context's multi-store, never to the one below it. -/
@[grind] def Phase.KeepsBelow (x : Phase α) : Prop := ∀ r, (x r).2.below = r.below

theorem Phase.KeepsBelow.bind {β : Type} {f : α → Phase β} (hx : x.KeepsBelow)
    (hf : ∀ a, (f a).KeepsBelow) : (Phase.bind x f).KeepsBelow := by
  grind [Phase.bind]

section Frame

variable (app : App Tx) (mode : ExecMode)

theorem decodePhase_keepsBelow (txBytes : Bytes) (tx : Option Tx) :
    (decodePhase app mode txBytes tx).KeepsBelow := by
  unfold decodePhase decodeTx getMsgs validateBasic Phase.bind Phase.call
  grind

theorem antePhase_keepsBelow (tx : Tx) : (antePhase app mode tx).KeepsBelow := by
  grind [antePhase]

theorem mempoolPhase_keepsBelow (tx : Tx) : (mempoolPhase app mode tx).KeepsBelow := by
  unfold mempoolPhase Phase.call
  grind

theorem msgsPhase_keepsBelow (tx : Tx) (msgs : List Msg) :
    (msgsPhase app mode tx msgs).KeepsBelow := by
  grind [msgsPhase]

theorem nestedPhase_keepsBelow (msgs : List Msg) : (nestedPhase app mode msgs).KeepsBelow := by
  grind [nestedPhase]

theorem postPhase_keepsBelow (tx : Tx) (msgsEnd : Except TxErr TxResult × MultiStore) :
    (postPhase app mode tx msgsEnd).KeepsBelow := by
  grind [postPhase]

theorem consumeBlockGas_keepsBelow : consumeBlockGas.KeepsBelow := by
  grind [consumeBlockGas]

theorem commitPhase_keepsBelow (e : Option TxErr × Option TxResult × MultiStore) :
    (commitPhase mode e).KeepsBelow := by
  grind [commitPhase, consumeBlockGas_keepsBelow]

theorem runTxBody_keepsBelow (txBytes : Bytes) (tx : Option Tx) :
    (runTxBody app mode txBytes tx).KeepsBelow := by
  have haccept : (acceptPhase app mode txBytes tx).KeepsBelow :=
    (decodePhase_keepsBelow app mode txBytes tx).bind fun tm =>
      (antePhase_keepsBelow app mode tm.1).bind fun _ r => rfl
  refine haccept.bind fun tm => Phase.KeepsBelow.bind ?_ (commitPhase_keepsBelow mode)
  exact (mempoolPhase_keepsBelow app mode tm.1).bind fun _ =>
    (msgsPhase_keepsBelow app mode tm.1 tm.2).bind fun msgsEnd =>
      (nestedPhase_keepsBelow app mode tm.2).bind fun _ =>
        postPhase_keepsBelow app mode tm.1 msgsEnd

/-- With the deferred charge. -/
theorem runTx_keepsBelow (txBytes : Bytes) (tx : Option Tx) (start : Run) :
    (deferredCharge mode (bodyStop (runTxBody app mode txBytes tx start).1)
      (runTxBody app mode txBytes tx start).2).2.below = start.below := by
  have hbody := runTxBody_keepsBelow app mode txBytes tx start
  grind [deferredCharge, consumeBlockGas_keepsBelow]

end Frame

/-! ## runTx -/

theorem deferredCharge_of_charged (hr : r.blockGasConsumed = true) :
    deferredCharge .finalize stop r = (stop, r) := by
  simp [deferredCharge, consumeBlockGas, hr]

theorem deferredCharge_finalize {v : Verdict} {charge : Option PanicValue × GasMeter}
    (h : start.EndsWith r stop v) (hstart : start.blockGasConsumed = false)
    (hcharge : blockCharge start.blockGasMeter v.meter = charge) :
    (deferredCharge .finalize stop r).2.ms = v.kept start.ms charge.1.isNone ∧
      (deferredCharge .finalize stop r).2.blockGasMeter = charge.2 ∧
      (v.succeeds charge.1.isNone = true →
        ∃ out, (deferredCharge .finalize stop r).1 = .ret out ∧ out.err = none) ∧
      (v.succeeds charge.1.isNone = false → (deferredCharge .finalize stop r).1.Failed) := by
  cases v with
  | rejected gm | reverted ante gm =>
    unfold deferredCharge consumeBlockGas
    grind [Run.EndsWith, Verdict.kept, Verdict.succeeds, Verdict.meter]
  | completed =>
    simp only [Verdict.meter] at hcharge
    simp only [Run.EndsWith, hcharge] at h
    obtain ⟨hcharged, hgas, hpaid, hunpaid⟩ := h
    rw [deferredCharge_of_charged hcharged]
    simp only [Verdict.kept, Verdict.succeeds]
    cases hc : charge.1 with
    | none =>
      obtain ⟨hms, hout⟩ := hpaid hc
      exact ⟨by simp [hms], hgas, fun _ => hout, by simp⟩
    | some =>
      obtain ⟨hms, hfail⟩ := hunpaid (by simp [hc])
      exact ⟨by simp [hms], hgas, by simp, fun _ => hfail⟩

theorem deferredRecover_err {app : App Tx} {events : List Event} (h : stop.Failed) :
    (deferredRecover app events r stop).err ≠ none := by
  cases stop with
  | ret => exact h
  | panic => simp [deferredRecover]

/-- In finalize mode the block keeps what the handlers decide and its gas meter
is charged once, unless it had no gas left; in simulate mode nothing changes. -/
theorem runTx_effects (st : AppState) (txBytes : Bytes) (tx : Option Tx) :
    Finalized app st txBytes tx (runTx app st .finalize txBytes tx).2.1.err.isNone
        (runTx app st .finalize txBytes tx).2.2 ∧
      (runTx app st .simulate txBytes tx).2.2 = st := by
  constructor
  · unfold Finalized
    by_cases hgas : st.blockGasMeter.isOutOfGas = true
    · simp [runTx, getContextForTx, hgas, Out.failed]
    · have hbody := runTxBody_finalize app txBytes tx (getContextForTx st .finalize) rfl rfl
      have hbelow := runTx_keepsBelow app .finalize txBytes tx (getContextForTx st .finalize)
      obtain ⟨hms, hmeter, hok, hfail⟩ := deferredCharge_finalize hbody rfl rfl
      rw [if_neg hgas]
      refine ⟨_, _, blockCharge_pays st.blockGasMeter
        (verdict app txBytes tx st.finalizeBlockState).meter, ?_, ?_⟩
      · simp only [runTx, getContextForTx, hgas, reduceCtorEq, if_true, if_false,
          Bool.false_eq_true, and_false] at hok hfail ⊢
        cases hs : (verdict app txBytes tx st.finalizeBlockState).succeeds
            (blockCharge st.blockGasMeter
              (verdict app txBytes tx st.finalizeBlockState).meter).1.isNone with
        | true =>
          obtain ⟨out, hret, herr⟩ := hok hs
          rw [hret]
          exact Option.isNone_iff_eq_none.mpr herr
        | false =>
          rw [Option.isNone_eq_false_iff, Option.isSome_iff_ne_none]
          exact deferredRecover_err (hfail hs)
      · grind [runTx, getContextForTx, AppState.after, Run.stateStore]
  · have hbelow := runTx_keepsBelow app .simulate txBytes tx (getContextForTx st .simulate)
    simp only [runTx, reduceCtorEq, false_and, if_false, AppState.after, Run.stateStore, hbelow]
    rfl

end CosmosSDK.BaseApp
