import CosmosSDK.Lib.Fallible
import CosmosSDK.STF.DeliverTx

/-!
# The senders of a transaction's messages

`Decoder.Decode` of `x/tx/decode/decode.go` collects the signers of all messages, each
address once and the fee payer last.  `runTxMsgs` takes the sender of a message from
that list, by the position of the message.  The two agree only where the position of
every message is that of one of its own signers.
-/

namespace CosmosSDK.STF

open Store Fallible Nat

/-! ## Decode -/

/-- What `Decode` needs from outside: the three protobuf messages of the bytes, with
`Fee.Payer` and `Fee.GasLimit` of a fee that is not nil, the message behind an `Any`
and its signers, and the address codec. -/
structure Decoder (Any Msg : Type) where
  unmarshalTx : Bytes → Except TxError (List Any × Option (String × UInt64))
  unmarshalMsg : Any → Except TxError Msg
  getSigners : Msg → Except TxError (List Bytes)
  stringToBytes : String → Except TxError Bytes

/-- `DecodedTx`: `Messages`, `Signers` and the gas limit of `Tx.AuthInfo.Fee`. -/
structure DecodedTx (Msg : Type) where
  messages : List Msg
  signers : List Bytes
  gasLimit : Option UInt64

variable {Any Msg : Type}

/-- A signer that was not seen is appended. -/
def addSigner (signers : List Bytes) (s : Bytes) : List Bytes :=
  if s ∈ signers then signers else signers ++ [s]

namespace Decoder

variable (d : Decoder Any Msg)

/-- The loop over `body.Messages`. -/
def decodeMsgs : List Any → List Msg → List Bytes → Except TxError (List Msg × List Bytes)
  | [], msgs, signers => .ok (msgs, signers)
  | anyMsg :: rest, msgs, signers => do
      let msg ← d.unmarshalMsg anyMsg
      let ss ← d.getSigners msg
      decodeMsgs rest (msgs ++ [msg]) (ss.foldl addSigner signers)

def feePayer (fee : Option (String × UInt64)) : Except TxError (List Bytes) :=
  match fee with
  | some (payer, _) => if payer = "" then .ok [] else (fun a => [a]) <$> d.stringToBytes payer
  | none => .ok []

def decode (txBytes : Bytes) : Except TxError (DecodedTx Msg) := do
  let (anys, fee) ← d.unmarshalTx txBytes
  let (msgs, signers) ← d.decodeMsgs anys [] []
  let payer ← d.feePayer fee
  .ok { messages := msgs, signers := payer.foldl addSigner signers, gasLimit := fee.map (·.2) }

end Decoder

namespace DecodedTx

variable (dtx : DecodedTx Msg)

def getGasLimit : Outcome UInt64 :=
  match dtx.gasLimit with
  | some gasLimit => .ok gasLimit
  | none => .err (.failure "gas limit not available or one or more required fields are nil")

/-- A list nothing was appended to is nil. -/
def getMessages : Outcome (List Msg) :=
  if dtx.messages = [] then .err (.failure "messages not available or are nil")
  else .ok dtx.messages

def getSenders : Outcome (List Bytes) :=
  if dtx.signers = [] then .err (.failure "senders not available or are nil")
  else .ok dtx.signers

def toTx : Tx Msg := ⟨dtx.getGasLimit, dtx.getSenders, dtx.getMessages⟩

end DecodedTx

/-! ## The signers that are collected -/

theorem foldl_addSigner (l signers : List Bytes) :
    l.foldl addSigner signers = signers ++ (l.removeAll signers).eraseDups := by
  induction l generalizing signers with
  | nil => simp [List.removeAll]
  | cons s l ih =>
    rw [List.foldl_cons, ih, addSigner, List.cons_removeAll]
    by_cases hs : s ∈ signers
    · simp [hs]
    · have hfilter : l.removeAll (signers ++ [s]) =
          (l.removeAll signers).filter (fun b => !b == s) := by
        simp [List.removeAll, Bool.and_comm, beq_eq_decide]
      simp [hs, hfilter, List.eraseDups_cons]

theorem foldl_addSigner_eraseDups (l l' : List Bytes) :
    l'.foldl addSigner l.eraseDups = (l ++ l').eraseDups := by
  have hsame : l'.removeAll l.eraseDups = l'.removeAll l := by
    simp [List.removeAll]
  rw [foldl_addSigner, List.eraseDups_append, hsame]

namespace Decoder

variable {d : Decoder Any Msg}

/-- The signers of a list of messages, as often as they sign. -/
def SignedBy (d : Decoder Any Msg) (msgs : List Msg) (perMsg : List (List Bytes)) : Prop :=
  List.Forall₂ (fun msg ss => d.getSigners msg = .ok ss) msgs perMsg

theorem decodeMsgs_ok {anys : List Any} {done msgs : List Msg} {signers : List Bytes}
    (perDone : List (List Bytes)) (hdone : d.SignedBy done perDone)
    (h : d.decodeMsgs anys done perDone.flatten.eraseDups = .ok (msgs, signers)) :
    ∃ perMsg, d.SignedBy msgs perMsg ∧ signers = perMsg.flatten.eraseDups := by
  induction anys generalizing done perDone with
  | nil =>
    cases h
    exact ⟨perDone, hdone, rfl⟩
  | cons anyMsg rest ih =>
    obtain ⟨_, -, h⟩ := bind_eq_ok.mp h
    obtain ⟨ss, hss, h⟩ := bind_eq_ok.mp h
    rw [foldl_addSigner_eraseDups] at h
    apply ih (perDone ++ [ss]) (List.rel_append hdone (.cons hss .nil))
    simpa using h

theorem decode_ok {txBytes : Bytes} {dtx : DecodedTx Msg} (h : d.decode txBytes = .ok dtx) :
    ∃ anys fee perMsg payer, d.unmarshalTx txBytes = .ok (anys, fee) ∧
      d.SignedBy dtx.messages perMsg ∧ d.feePayer fee = .ok payer ∧
      dtx.signers = (perMsg.flatten ++ payer).eraseDups := by
  obtain ⟨⟨anys, fee⟩, hunmarshal, h⟩ := bind_eq_ok.mp h
  obtain ⟨⟨_, _⟩, hmsgs, h⟩ := bind_eq_ok.mp h
  obtain ⟨payer, hpayer, h⟩ := bind_eq_ok.mp h
  cases h
  obtain ⟨perMsg, hsigned, rfl⟩ := decodeMsgs_ok [] .nil hmsgs
  exact ⟨anys, fee, perMsg, payer, hunmarshal, hsigned, hpayer, foldl_addSigner_eraseDups _ _⟩

end Decoder

/-! ## What the router is called with -/

/-- The calls of the router in `runTxMsgs`, which makes them only with both lists at hand. -/
def routed (app : App Msg) (state : State) (gasLimit : UInt64) (dtx : DecodedTx Msg)
    (execMode : ExecMode) (hi : HeaderInfo) : List (Msg × Ctx) :=
  match dtx.getSenders, dtx.getMessages with
  | .ok txSenders, .ok msgs =>
    invocations app txSenders 0 msgs (phaseCtx app state gasLimit execMode hi)
  | _, _ => []

/-- `calls` are the messages in order up to the first that the router refuses, each with
one of its signers as sender. -/
structure SentBySigners (d : Decoder Any Msg) (app : App Msg) (msgs : List Msg)
    (calls : List (Msg × Ctx)) : Prop where
  in_order : calls.map Prod.fst <+: msgs
  until_error : calls.length < msgs.length →
    ∃ call, calls.getLast? = some call ∧ ∃ e, (app.invoke call.1 call.2).1 = .err e
  senders : ∀ call ∈ calls, ∃ ss, d.getSigners call.1 = .ok ss ∧ ∃ s ∈ ss, call.2.sender = some s

/-- The router itself does not panic. -/
def App.Returns (app : App Msg) : Prop := ∀ msg c, (app.invoke msg c).1.isPanic = false

/-- The `i`-th address that signs, in order of appearance with the fee payer last, signs
message `i`. -/
def PositionsSign (perMsg : List (List Bytes)) (payer : List Bytes) : Prop :=
  ∀ (i : Nat) ss, perMsg[i]? = some ss → ∃ s ∈ ss, (perMsg.flatten ++ payer).eraseDups[i]? = some s

section

variable {d : Decoder Any Msg} {app : App Msg} {txSenders : List Bytes}
  {i : Nat} {msgs : List Msg} {c : Ctx} {ss : List Bytes} {perMsg : List (List Bytes)}

theorem sender_of_invocation {k : Nat} {call : Msg × Ctx}
    (h : (invocations app txSenders i msgs c)[k]? = some call) :
    call.2.sender = txSenders[i + k]? := by
  induction msgs generalizing i k c <;> grind [invocations]

theorem SentBySigners.cons {msg : Msg} {calls : List (Msg × Ctx)} {s : Bytes}
    (hss : d.getSigners msg = .ok ss) (hs : s ∈ ss) (hsender : c.sender = some s)
    (h : SentBySigners d app msgs calls) :
    SentBySigners d app (msg :: msgs) ((msg, c) :: calls) where
  in_order := by simpa using h.in_order
  until_error := by
    intro hlt
    obtain ⟨call, hlast, herr⟩ := h.until_error (by simpa using hlt)
    exact ⟨call, by simp [List.getLast?_cons, hlast], herr⟩
  senders := by
    intro call hcall
    rcases List.mem_cons.mp hcall with rfl | hcall
    · exact ⟨ss, hss, s, hs, hsender⟩
    · exact h.senders call hcall

theorem invocations_sentBySigners (hreturns : app.Returns) (hsigned : d.SignedBy msgs perMsg)
    (h : ∀ k ss, perMsg[k]? = some ss → ∃ s ∈ ss, txSenders[i + k]? = some s) (c : Ctx) :
    (invokeMsgs app txSenders i msgs c).1.isPanic = false ∧
      SentBySigners d app msgs (invocations app txSenders i msgs c) := by
  induction hsigned generalizing i c with
  | nil => exact ⟨rfl, ⟨List.prefix_refl _, by simp [invocations], by simp [invocations]⟩⟩
  | @cons msg ss msgs perMsg hss hsigned ih =>
    obtain ⟨s, hs, hsender⟩ := h 0 ss rfl
    have hrest := ih (i := i + 1) fun k ss' hk => by
      simpa [add_assoc, add_comm 1] using h (k + 1) ss' hk
    rw [add_zero] at hsender
    have hinvoke := hreturns msg { c with sender := some s, events := [] }
    simp only [invokeMsgs, invocations, hsender]
    rcases hr : app.invoke msg { c with sender := some s, events := [] } with ⟨r, c'⟩
    cases r with
    | panic => simp [hr, Outcome.isPanic] at hinvoke
    | err e =>
      refine ⟨rfl, by simp, ?_, ?_⟩
      · exact fun _ => ⟨_, rfl, e, congrArg Prod.fst hr⟩
      · intro call hcall
        obtain rfl := List.mem_singleton.mp hcall
        exact ⟨ss, hss, s, hs, rfl⟩
    | ok =>
      obtain ⟨hpanic, hsent⟩ := hrest c'
      refine ⟨?_, hsent.cons hss hs rfl⟩
      dsimp only
      rcases hrun : invokeMsgs app txSenders (i + 1) msgs c' with ⟨r', c''⟩
      cases r' with
      | panic => simp [hrun, Outcome.isPanic] at hpanic
      | err e | ok a => rfl

/-- With a router that accepts every message, all of them are routed, so each has one of
its signers at its position. -/
theorem sender_of_sentBySigners (hsigned : d.SignedBy msgs perMsg)
    (haccepts : ∀ msg c e, (app.invoke msg c).1 ≠ .err e)
    (h : SentBySigners d app msgs (invocations app txSenders 0 msgs c)) (hi : perMsg[i]? = some ss) :
    ∃ s ∈ ss, txSenders[i]? = some s := by
  have hall : (invocations app txSenders 0 msgs c).map Prod.fst = msgs := by
    apply h.in_order.eq_of_length_le
    rw [List.length_map]
    by_contra hlt
    obtain ⟨call, -, e, he⟩ := h.until_error (by omega)
    exact haccepts _ _ e he
  obtain ⟨hperMsg, rfl⟩ := List.getElem?_eq_some_iff.mp hi
  have hlt : i < msgs.length := by
    rw [hsigned.length_eq]
    exact hperMsg
  have hss := (List.forall₂_iff_get.mp hsigned).2 i hlt hperMsg
  have hmsg : msgs[i]? = some (msgs.get ⟨i, hlt⟩) := List.getElem?_eq_getElem hlt
  generalize msgs.get ⟨i, hlt⟩ = msg at hss hmsg
  rw [← hall, List.getElem?_map, Option.map_eq_some_iff] at hmsg
  obtain ⟨call, hcall, rfl⟩ := hmsg
  obtain ⟨_, hss', s, hs, hsender⟩ := h.senders call (List.mem_of_getElem? hcall)
  rw [hss', Except.ok.injEq] at hss
  rw [sender_of_invocation hcall, zero_add] at hsender
  subst hss
  exact ⟨s, hs, hsender⟩

end

theorem runTxMsgs_isPanic (app : App Msg) (state : State) (gasLimit : UInt64) (tx : Tx Msg)
    (execMode : ExecMode) (hi : HeaderInfo) :
    (runTxMsgs app state gasLimit tx execMode hi).1.isPanic =
      (msgsPhase app state gasLimit tx execMode hi).1.isPanic := by
  unfold runTxMsgs
  rcases msgsPhase app state gasLimit tx execMode hi with ⟨r, c⟩
  cases r <;> rfl

def acceptingApp (Msg : Type) : App Msg where
  doTxValidation _ c := (.ok (), c)
  invoke msg c := (.ok msg, c)
  postTxExec _ _ c := (.ok (), c)
  getHeaderInfo _ := .ok ⟨1⟩
  typeURL _ := "test.Msg"
  runtimeIdentity := [1]

/-- Every router that returns is called for the messages in order up to the first error,
each with one of its signers as sender and without a panic, exactly for the transactions
whose `i`-th distinct signer signs message `i`. -/
theorem sentBySigners_iff_positionsSign (d : Decoder Any Msg) (txBytes : Bytes) (dtx : DecodedTx Msg)
    (h : d.decode txBytes = .ok dtx) :
    ∃ anys fee perMsg payer, d.unmarshalTx txBytes = .ok (anys, fee) ∧
      d.SignedBy dtx.messages perMsg ∧ d.feePayer fee = .ok payer ∧
      ((∀ app : App Msg, app.Returns → ∀ state gasLimit execMode hi,
          (runTxMsgs app state gasLimit dtx.toTx execMode hi).1.isPanic = false ∧
            SentBySigners d app dtx.messages (routed app state gasLimit dtx execMode hi)) ↔
        PositionsSign perMsg payer) := by
  obtain ⟨anys, fee, perMsg, payer, hunmarshal, hsigned, hpayer, hsigners⟩ := Decoder.decode_ok h
  refine ⟨anys, fee, perMsg, payer, hunmarshal, hsigned, hpayer, ?_⟩
  unfold PositionsSign
  rw [← hsigners]
  constructor
  · intro hall i ss hi
    have hsent := (hall (acceptingApp Msg) (fun _ _ => rfl) (fun _ => .ok ∅) 0 .finalize ⟨1⟩).2
    have hsome : dtx.messages ≠ [] := by
      intro hnil
      rw [hnil] at hsigned
      cases hsigned
      simp at hi
    by_cases hnone : dtx.signers = []
    · simp only [routed, DecodedTx.getSenders, if_pos hnone] at hsent
      obtain ⟨_, hlast, -⟩ := hsent.until_error (List.length_pos_iff.mpr hsome)
      simp at hlast
    · simp only [routed, DecodedTx.getSenders, DecodedTx.getMessages, if_neg hnone, if_neg hsome]
        at hsent
      exact sender_of_sentBySigners hsigned (by simp [acceptingApp]) hsent hi
  · intro hpositions app hreturns state gasLimit execMode hi
    have hsent := invocations_sentBySigners hreturns (i := 0) hsigned
      (by simpa using hpositions) (phaseCtx app state gasLimit execMode hi)
    rw [runTxMsgs_isPanic]
    simp only [routed, msgsPhase, DecodedTx.toTx, DecodedTx.getSenders, DecodedTx.getMessages]
    by_cases hnone : dtx.signers = []
    · rw [if_pos hnone]
      refine ⟨rfl, ?_⟩
      have hnil : perMsg = [] := by
        cases hperMsg : perMsg with
        | nil => rfl
        | cons ss =>
          obtain ⟨_, -, hs⟩ := hpositions 0 ss (by rw [hperMsg]; rfl)
          simp [hnone] at hs
      rw [hnil] at hsigned
      rw [List.forall₂_nil_right_iff.mp hsigned]
      exact ⟨List.prefix_refl _, by simp, by simp⟩
    · rw [if_neg hnone]
      by_cases hmsgs : dtx.messages = []
      · rw [if_pos hmsgs, hmsgs]
        exact ⟨rfl, ⟨List.prefix_refl _, by simp, by simp⟩⟩
      · rw [if_neg hmsgs]
        exact hsent

/-- A decoder of transactions whose messages are the lists of their signers. -/
def listDecoder (msgs : List (List Bytes)) : Decoder (List Bytes) (List Bytes) where
  unmarshalTx _ := .ok (msgs, none)
  unmarshalMsg := .ok
  getSigners := .ok
  stringToBytes _ := .ok []

/-- Two messages with a signer each. -/
theorem distinct_signers_sent : ∃ dtx, (listDecoder [[[1]], [[2]]]).decode [] = .ok dtx ∧
      (runTxMsgs (acceptingApp _) (fun _ => .ok ∅) 0 dtx.toTx .finalize ⟨1⟩).1.isPanic = false := by
  obtain ⟨_, _, _, _, hunmarshal, hsigned, hpayer, hiff⟩ :=
    sentBySigners_iff_positionsSign (listDecoder [[[1]], [[2]]]) [] _ rfl
  cases hunmarshal
  cases hpayer
  obtain _ | ⟨hfirst, _ | ⟨hsecond, hrest⟩⟩ := hsigned
  cases hfirst
  cases hsecond
  cases hrest
  have hpositions : PositionsSign [[[1]], [[2]]] [] := by
    intro i ss hi
    match i with
    | 0 =>
      cases hi
      exact ⟨[1], by simp, rfl⟩
    | 1 =>
      cases hi
      exact ⟨[2], by simp, rfl⟩
    | i + 2 => simp at hi
  exact ⟨_, rfl, (hiff.mpr hpositions (acceptingApp _) (fun _ _ => rfl) _ 0 .finalize ⟨1⟩).1⟩

/-- The second of two messages with one signer has no sender, and a message after one with
two signers gets the second of those. -/
theorem shared_signer_panics : (∃ dtx, (listDecoder [[[1]], [[1]]]).decode [] = .ok dtx ∧
      (runTxMsgs (acceptingApp _) (fun _ => .ok ∅) 0 dtx.toTx .finalize ⟨1⟩).1.isPanic = true) ∧
    ∃ dtx, (listDecoder [[[1], [2]], [[3]]]).decode [] = .ok dtx ∧
      (routed (acceptingApp _) (fun _ => .ok ∅) 0 dtx .finalize ⟨1⟩).map
        (fun call => (call.1, call.2.sender)) = [([[1], [2]], some [1]), ([[3]], some [2])] :=
  ⟨⟨_, rfl, rfl⟩, ⟨_, rfl, rfl⟩⟩

end CosmosSDK.STF
