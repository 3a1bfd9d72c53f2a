import CosmosSDK.Lib.Machine
import CosmosSDK.Staking.Effects.Messages
import CosmosSDK.Staking.Effects.Slash
import CosmosSDK.Staking.Effects.ValidatorSet
import CosmosSDK.Staking.Invariants

/-!
# Runs of the staking module

The operations other modules and the chain can call, in any order and at any block.
Every one of them is balanced on a ledger where validators and delegations agree, so
both invariants hold after every run.
-/

namespace CosmosSDK.Staking

open Store Math Auth OrderedKV Stateful StakeLedger Machine

/-- The operations of the staking module: its messages, what the keeper offers to other
modules, and the parts of the end of a block. -/
inductive Op where
  | createValidator (msg : MsgCreateValidator)
  | editValidator (msg : MsgEditValidator)
  | delegate (msg : MsgDelegate)
  | beginRedelegate (msg : MsgBeginRedelegate)
  | undelegate (msg : MsgUndelegate)
  | cancelUnbondingDelegation (msg : MsgCancelUnbondingDelegation)
  | rotateConsPubKey (msg : MsgRotateConsPubKey)
  /-- `Undelegate` of the keeper; no caller asks for negative shares -/
  | undelegateShares (delAddr : AccAddress) (valAddr : ValAddress)
      (sharesAmount : {shares : LegacyDec // 0 ≤ shares.i})
  /-- `BeginRedelegation` of the keeper -/
  | redelegateShares (delAddr : AccAddress) (valSrcAddr valDstAddr : ValAddress)
      (sharesAmount : {shares : LegacyDec // 0 ≤ shares.i})
  | slash (consAddr : ConsAddress) (infractionHeight power : Int) (slashFactor : LegacyDec)
  | jail (consAddr : ConsAddress)
  | unjail (consAddr : ConsAddress)
  | applyAndReturnValidatorSetUpdates
  | unbondAllMatureValidators
  | completeUnbonding (delAddr : AccAddress) (valAddr : ValAddress)
  | completeRedelegation (delAddr : AccAddress) (valSrcAddr valDstAddr : ValAddress)

/-- The end of a block goes on after an error of these, with what they had written. -/
def Op.errorIgnored : Op → Bool
  | .completeUnbonding .. => true
  | .completeRedelegation .. => true
  | _ => false

namespace Keeper

variable {X : Type} (k : Keeper X)

def exec (ctx : HeaderInfo) : Op → Call X Unit
  | .createValidator msg => k.createValidator ctx msg
  | .editValidator msg => k.editValidator ctx msg
  | .delegate msg => perform (k.msgDelegate msg)
  | .beginRedelegate msg => perform (k.msgBeginRedelegate ctx msg)
  | .undelegate msg => perform (k.msgUndelegate ctx msg)
  | .cancelUnbondingDelegation msg => k.cancelUnbondingDelegation ctx msg
  | .rotateConsPubKey msg => k.rotateConsPubKey ctx msg
  | .undelegateShares delAddr valAddr sharesAmount =>
    perform (k.undelegate ctx delAddr valAddr sharesAmount)
  | .redelegateShares delAddr valSrcAddr valDstAddr sharesAmount =>
    perform (k.beginRedelegation ctx delAddr valSrcAddr valDstAddr sharesAmount)
  | .slash consAddr infractionHeight power slashFactor =>
    perform (k.slash ctx consAddr infractionHeight power slashFactor)
  | .jail consAddr => k.jail consAddr
  | .unjail consAddr => k.unjail consAddr
  | .applyAndReturnValidatorSetUpdates => perform (k.applyAndReturnValidatorSetUpdates ctx)
  | .unbondAllMatureValidators => k.unbondAllMatureValidators ctx
  | .completeUnbonding delAddr valAddr => perform (k.completeUnbonding ctx delAddr valAddr)
  | .completeRedelegation delAddr valSrcAddr valDstAddr =>
    perform (completeRedelegation ctx delAddr valSrcAddr valDstAddr)

def runAll (ops : List (HeaderInfo × Op)) : Call X Unit :=
  ops.forM (fun op => k.exec op.1 op.2)

/-- Try an operation.  One that fails is rolled back with its transaction, unless its error
is ignored. -/
def attempt (op : HeaderInfo × Op) (s : State X) : Bool × State X :=
  match k.exec op.1 op.2 s with
  | .ok _ s' => (true, s')
  | .error _ s' => (false, if op.2.errorIgnored then s' else s)

variable {k} {ctx : HeaderInfo} {s s' : State X} {u : Unit}

theorem exec_effect (hs : s.ledger.Formed) (hsurplus : s.ledger.surplus = 0) {op : Op}
    (h : k.exec ctx op s = .ok u s') : Effect Set.univ 0 0 s.ledger s'.ledger := by
  have hwiden : ∀ {t : Set ValAddress}, Effect t 0 0 s.ledger s'.ledger →
      Effect Set.univ 0 0 s.ledger s'.ledger := fun e => e.congr (Set.subset_univ _) rfl rfl
  cases op with
  | createValidator => exact createValidator_effect hs h
  | editValidator => exact editValidator_effect hs h
  | delegate =>
    obtain ⟨_, h⟩ := perform_ok.mp h
    exact msgDelegate_effect hs h
  | beginRedelegate =>
    obtain ⟨_, h⟩ := perform_ok.mp h
    exact msgBeginRedelegate_effect hs hsurplus h
  | undelegate =>
    obtain ⟨_, h⟩ := perform_ok.mp h
    exact msgUndelegate_effect hs hsurplus h
  | cancelUnbondingDelegation => exact cancelUnbondingDelegation_effect hs h
  | rotateConsPubKey =>
    rw [rotateConsPubKey_ledger h]
    exact (Effect.refl hs).congr (Set.subset_univ _) rfl rfl
  | undelegateShares delAddr valAddr sharesAmount =>
    obtain ⟨_, h⟩ := perform_ok.mp h
    exact hwiden (undelegate_effect hs hsurplus sharesAmount.property h)
  | redelegateShares delAddr valSrcAddr valDstAddr sharesAmount =>
    obtain ⟨_, h⟩ := perform_ok.mp h
    exact hwiden (beginRedelegation_effect hs hsurplus sharesAmount.property h)
  | slash =>
    obtain ⟨_, h⟩ := perform_ok.mp h
    exact slash_effect hs hsurplus h
  | jail => exact jail_effect hs h
  | unjail => exact unjail_effect hs h
  | applyAndReturnValidatorSetUpdates =>
    obtain ⟨_, h⟩ := perform_ok.mp h
    exact applyAndReturnValidatorSetUpdates_effect hs h
  | unbondAllMatureValidators => exact unbondAllMatureValidators_effect hs h
  | completeUnbonding =>
    obtain ⟨_, h⟩ := perform_ok.mp h
    exact hwiden (completeUnbonding_effect hs h)
  | completeRedelegation =>
    obtain ⟨_, h⟩ := perform_ok.mp h
    exact hwiden (completeRedelegation_effect hs h)

theorem exec_error_effect (hs : s.ledger.Formed) {op : Op} (hop : op.errorIgnored = true)
    {e : Fault StakingErr} (h : k.exec ctx op s = .error e s') :
    ∃ g, Effect ∅ g 0 s.ledger s'.ledger := by
  cases op with
  | completeUnbonding => exact completeUnbonding_error hs (perform_error.mp h)
  | completeRedelegation =>
    obtain rfl := completeRedelegation_error (perform_error.mp h)
    exact ⟨0, Effect.refl hs⟩
  | _ => simp [Op.errorIgnored] at hop

/-! ## A chain to run -/

def plainKeeper : Keeper Unit where
  powerReduction := 1
  consAddress pk := pk.bytes
  hooks _ _ := .ok ()
  delegateCoins _ _ _ := .ok ()
  undelegateCoins _ _ _ := .ok ()
  sendRotationFee _ _ _ := .ok ()
  validatorPubKeyTypes _ := .ok (some ["secp256k1"])
  validateDenom _ := true
  parseRequestURI _ := true

def emptyState : State Unit := .genesis ⟨10, 2, 7, [1], .zero, ⟨[1], 0⟩⟩ ()

theorem emptyState_formed : emptyState.ledger.Formed := by
  refine ⟨?_, ?_, ?_, ?_, ?_⟩ <;> simp [emptyState, State.genesis, State.ledger]

theorem emptyState_sharesMatch : emptyState.ledger.SharesMatch := by
  refine ⟨?_, ?_, ?_, ?_⟩ <;> simp [emptyState, State.genesis, State.ledger]

theorem emptyState_backed : emptyState.ledger.Backed := by
  constructor <;> simp [emptyState, State.genesis, State.ledger, tokensIn, total_empty]

def newValidatorMsg (addr : Bytes) (amt : Int) : MsgCreateValidator where
  description := ⟨"v", "", "", "", "", none⟩
  commission := some ⟨.zero, .one, .one⟩
  minSelfDelegation := 1
  validatorAddress := addr
  pubkey := some ⟨"secp256k1", addr⟩
  value := ⟨[1], amt⟩

/-- Two validators; a delegation to the first that is moved and withdrawn in part; the first
is slashed for a time before that, jailed, and leaves the set. -/
def mixedOps : List (HeaderInfo × Op) :=
  [(⟨1, 1⟩, .createValidator (newValidatorMsg [1] 100)),
    (⟨1, 1⟩, .createValidator (newValidatorMsg [2] 50)),
    (⟨1, 1⟩, .applyAndReturnValidatorSetUpdates), (⟨2, 2⟩, .delegate ⟨[7], [1], ⟨[1], 30⟩⟩),
    (⟨3, 3⟩, .beginRedelegate ⟨[7], [1], [2], ⟨[1], 10⟩⟩),
    (⟨4, 4⟩, .undelegate ⟨[7], [1], ⟨[1], 6⟩⟩), (⟨5, 5⟩, .slash [1] 2 100 ⟨10 ^ 17⟩),
    (⟨5, 5⟩, .jail [1]), (⟨5, 5⟩, .applyAndReturnValidatorSetUpdates), (⟨6, 6⟩, .unjail [1]),
    (⟨7, 7⟩, .cancelUnbondingDelegation ⟨[7], [1], ⟨[1], 2⟩, 4⟩),
    (⟨20, 20⟩, .completeUnbonding [7] [1]), (⟨20, 20⟩, .unbondAllMatureValidators)]

/-! ## Backing -/

/-- Operations that all end well keep the pools equal to the stake they back. -/
theorem runAll_backed (k : Keeper X) (ops : List (HeaderInfo × Op)) {s s' : State X}
    (hformed : s.ledger.Formed) (hshares : s.ledger.SharesMatch) (hbacked : s.ledger.Backed)
    (h : k.runAll ops s = .ok () s') : s'.ledger.Backed := by
  obtain ⟨hformed', -, hgap⟩ := forM_induct
    (I := fun _ t => t.ledger.Formed ∧ t.ledger.surplus = 0 ∧ t.ledger.gap = 0)
    (fun op _ t t' hI hstep => by
      obtain ⟨ht, hsurplus, hgap⟩ := hI
      have e := exec_effect ht hsurplus hstep
      exact ⟨e.formed, by rw [e.surplus, hsurplus, add_zero], by rw [e.gap, hgap, add_zero]⟩)
    h ⟨hformed, hformed.sharesMatch_iff.mp hshares, hformed.backed_iff.mp hbacked⟩
  exact hformed'.backed_iff.mpr hgap

theorem runAll_backed_mixed :
    ∃ s', plainKeeper.runAll mixedOps emptyState = .ok () s' ∧ s'.ledger.Backed := by
  obtain ⟨u, s', h, -⟩ := ok_of_check (p := fun _ _ => true)
    (r := plainKeeper.runAll mixedOps emptyState) (by decide +kernel)
  exact ⟨s', h, runAll_backed plainKeeper mixedOps emptyState_formed emptyState_sharesMatch
    emptyState_backed h⟩

/-! ## Shares -/

theorem attempt_invariant (op : HeaderInfo × Op) (h : s.ledger.Formed ∧ s.ledger.surplus = 0) :
    (k.attempt op s).2.ledger.Formed ∧ (k.attempt op s).2.ledger.surplus = 0 := by
  obtain ⟨hs, hsurplus⟩ := h
  unfold attempt
  cases hexec : k.exec op.1 op.2 s with
  | ok =>
    have e := exec_effect hs hsurplus hexec
    exact ⟨e.formed, by rw [e.surplus, hsurplus, add_zero]⟩
  | error =>
    by_cases hop : op.2.errorIgnored = true
    · obtain ⟨g, e⟩ := exec_error_effect hs hop hexec
      simp only [hop, if_true]
      exact ⟨e.formed, by rw [e.surplus, hsurplus, add_zero]⟩
    · simp only [hop]
      exact ⟨hs, hsurplus⟩

/-- After every sequence of operations validators count exactly the shares of their
delegations, and the index holds exactly the stored pairs. -/
theorem run_sharesMatch (k : Keeper X) (ops : List (HeaderInfo × Op)) {s : State X}
    (hformed : s.ledger.Formed) (hshares : s.ledger.SharesMatch) :
    (run k.attempt ops s).2.ledger.SharesMatch := by
  obtain ⟨hformed', hsurplus⟩ := Machine.Along.invariant
    (I := fun t : State X => t.ledger.Formed ∧ t.ledger.surplus = 0)
    (fun op t _ => attempt_invariant op)
    (along_of_forall (fun _ _ => trivial) ops s)
    ⟨hformed, hformed.sharesMatch_iff.mp hshares⟩
  exact hformed'.sharesMatch_iff.mpr hsurplus

theorem run_sharesMatch_mixed :
    (run plainKeeper.attempt mixedOps emptyState).2.ledger.SharesMatch ∧
      (run plainKeeper.attempt mixedOps emptyState).2.ledger.sharesOf [2] = 59 * 10 ^ 18 :=
  ⟨run_sharesMatch plainKeeper mixedOps emptyState_formed emptyState_sharesMatch, by decide +kernel⟩

end Keeper

end CosmosSDK.Staking
