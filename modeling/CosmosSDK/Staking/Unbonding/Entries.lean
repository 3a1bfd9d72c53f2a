import CosmosSDK.Staking.Unbonding.Frames

/-!
# Entries and their queue

Every entry of an unbonding delegation is in the queue at its completion time, under the
addresses of the delegation.  A slash lowers balances and leaves heights and times, an
undelegation queues the entry it adds, and a cancellation only takes an entry away.  No
operation inside a block pays.
-/

namespace CosmosSDK.Staking

open Math Auth OrderedKV Stateful Fallible List Within UnbondingDelegationEntry State Option Except

def UnbondingDelegationEntry.mark (e : UnbondingDelegationEntry) : Int × Time :=
  (e.creationHeight, e.completionTime)

def UnbondingDelegation.outline (u : UnbondingDelegation) :
    AccAddress × ValAddress × List (Int × Time) :=
  (u.delegatorAddress, u.validatorAddress, u.entries.map mark)

namespace State

variable {X : Type}

def queued (s : State X) (time : Time) : List DVPair := (s.unbondingQueue[time]?).getD []

def outlineAt (s : State X) (key : AccAddress × ValAddress) :
    Option (AccAddress × ValAddress × List (Int × Time)) :=
  (s.unbondingDelegations[key]?).map UnbondingDelegation.outline

def Waits (s : State X) (key : AccAddress × ValAddress) (mark : Int × Time) : Prop :=
  ∃ outline ∈ s.outlineAt key, mark ∈ outline.2.2

/-- An unbonding delegation with these entries is stored, up to balances. -/
def Holds (s : State X) (u : UnbondingDelegation) (entries : List UnbondingDelegationEntry) : Prop :=
  s.outlineAt (u.delegatorAddress, u.validatorAddress) =
    some ({ u with entries := entries } : UnbondingDelegation).outline

/-- Every record is stored under its own addresses. -/
def UnbondingKeyed (s : State X) : Prop :=
  ∀ (key : AccAddress × ValAddress) (u : UnbondingDelegation),
    s.unbondingDelegations[key]? = some u → (u.delegatorAddress, u.validatorAddress) = key

end State

namespace Accounts

variable {X : Type} (b : Accounts X)

/-- Delegations and unbonding delegations belong to accounts, and every entry is in the
queue. -/
structure Tended (s : State X) : Prop where
  delegating : b.Delegating s
  owned : ∀ key outline, s.outlineAt key = some outline → b.registered s.outside outline.1
  covered : ∀ key mark, s.Waits key mark → ⟨key.1, key.2⟩ ∈ s.queued mark.2

/-- Unbonding delegations keep all but their balances. -/
structure Charged (s s' : State X) : Prop where
  outlineAt : ∀ key, s'.outlineAt key = s.outlineAt key
  queue : s'.unbondingQueue = s.unbondingQueue
  outside : b.Extends s.outside s'.outside
  delegating : b.Delegating s → b.Delegating s'

/-- What an operation inside a block does; only a cancellation takes entries away. -/
structure Tends (cancelled : Set ((AccAddress × ValAddress) × Int)) (s s' : State X) : Prop where
  paid : b.paid s'.outside = b.paid s.outside
  tended : b.Tended s'
  waits : ∀ key mark, (key, mark.1) ∉ cancelled → s.Waits key mark → s'.Waits key mark

variable {b}

namespace Charged

variable {s s' : State X}

instance : Std.Refl b.Charged := ⟨fun _ => ⟨fun _ => rfl, rfl, .refl, fun hs => hs⟩⟩

instance : IsTrans (State X) b.Charged :=
  ⟨fun _ _ _ h h' => ⟨fun key => (h'.outlineAt key).trans (h.outlineAt key), h'.queue.trans h.queue,
    h.outside.trans h'.outside, fun hs => h'.delegating (h.delegating hs)⟩⟩

theorem trans {s'' : State X} (h : b.Charged s s') (h' : b.Charged s' s'') : b.Charged s s'' :=
  trans_of b.Charged h h'

theorem of_apart (h : b.Apart s s') : b.Charged s s' :=
  ⟨fun _ => by rw [State.outlineAt, h.unbonding]; rfl, h.queue, h.outside, h.delegating⟩

variable (h : b.Charged s s')
include h

theorem waits (key : AccAddress × ValAddress) (mark : Int × Time) :
    s'.Waits key mark ↔ s.Waits key mark := by
  unfold State.Waits
  rw [h.outlineAt]

theorem keyed (hs : s.UnbondingKeyed) : s'.UnbondingKeyed := by
  intro key u hu
  have houtline : s.outlineAt key = some u.outline := by
    rw [← h.outlineAt, State.outlineAt, hu]
    rfl
  obtain ⟨u0, hu0, heq⟩ := map_eq_some_iff.mp houtline
  simp only [UnbondingDelegation.outline, Prod.mk.injEq] at heq
  rw [← heq.1, ← heq.2.1]
  exact hs key u0 hu0

theorem tended (hs : b.Tended s) : b.Tended s' where
  delegating := h.delegating hs.delegating
  owned key outline houtline :=
    h.outside.registered _ (hs.owned key outline (h.outlineAt key ▸ houtline))
  covered key mark hmark := by
    rw [queued, h.queue]
    exact hs.covered key mark ((h.waits key mark).mp hmark)

omit h

variable {cancelled : Set ((AccAddress × ValAddress) × Int)}

theorem tends (h : b.Charged s s') (hs : b.Tended s)
    : b.Tends cancelled s s' :=
  ⟨h.outside.paid, h.tended hs, fun key mark _ hs => (h.waits key mark).mpr hs⟩

end Charged

theorem Apart.tends {s s' : State X} (h : b.Apart s s') (hs : b.Tended s)
    : b.Tends cancelled s s' :=
  (Charged.of_apart h).tends hs

end Accounts

namespace Keeper

variable {X : Type} {k : Keeper X} {b : Accounts X} {ctx : HeaderInfo} {s s' : State X}

/-! ## Slashes -/

variable {u : UnbondingDelegation} {x : Unit}
  {done entries before after : List UnbondingDelegationEntry}
  {balance infractionHeight burned amt amt' height : Int} {slashFactor : LegacyDec} {r : Int × Int}
  {del : AccAddress} {entry : UnbondingDelegationEntry}

theorem setUnbondingDelegation_outlineAt (h : setUnbondingDelegation u s = .ok x s') :
    (∀ key, s'.outlineAt key = if key = (u.delegatorAddress, u.validatorAddress)
      then some u.outline else s.outlineAt key) ∧
    s'.unbondingQueue = s.unbondingQueue ∧ s'.delegations = s.delegations ∧
    s'.outside = s.outside := by
  simp only [setUnbondingDelegation, bind_ok, update_ok] at h
  obtain ⟨_, _, rfl, rfl⟩ := h
  refine ⟨fun key => ?_, rfl, rfl, rfl⟩
  unfold outlineAt
  rw [lookup_insert]
  split
  · rfl
  · rfl

theorem setUnbondingDelegation_charged (h : setUnbondingDelegation u s = .ok x s')
    (hstored : s.outlineAt (u.delegatorAddress, u.validatorAddress) = some u.outline) :
    b.Charged s s' := by
  obtain ⟨houtline, hqueue, hdelegations, houtside⟩ := setUnbondingDelegation_outlineAt h
  refine ⟨fun key => ?_, hqueue, houtside ▸ .refl, fun hs => ?_⟩
  · rw [houtline]
    split
    · rename_i hkey
      rw [hkey]
      exact hstored.symm
    · rfl
  · unfold Accounts.Delegating
    rw [hdelegations, houtside]
    exact hs

/-- The loops over entries write a record with the balance of one entry changed. -/
theorem rebalance_charged {e : UnbondingDelegationEntry} (hs : s.Holds u (done ++ e :: entries))
    (h : setUnbondingDelegation
      { u with entries := done ++ { e with balance := balance } :: entries } s = .ok x s') :
    b.Charged s s' ∧ s'.Holds u (done ++ [{ e with balance := balance }] ++ entries) := by
  have hsame : s.Holds u (done ++ { e with balance := balance } :: entries) := by
    unfold State.Holds UnbondingDelegation.outline at *
    rw [hs]
    simp [mark]
  have hcharged : b.Charged s s' := setUnbondingDelegation_charged h hsame
  refine ⟨hcharged, ?_⟩
  rw [State.Holds, hcharged.outlineAt, ← append_cons]
  exact hsame

theorem slashEntries_charged {total : Int} (hs : s.Holds u (done ++ entries))
    (h : slashEntries ctx infractionHeight slashFactor u done entries total burned s = .ok r s') :
    b.Charged s s' := by
  induction entries generalizing done total burned s with
  | nil => exact (Within.pure _).ok h
  | cons e entries ih =>
    have hskip := append_cons done e entries ▸ hs
    rw [slashEntries] at h
    split at h
    · exact ih hskip h
    · simp only [steps] at h
      obtain ⟨_, -, _, -, _, -, h⟩ := h
      split at h
      · exact ih hskip h
      · simp only [steps] at h
        obtain ⟨_, -, _, -, _, _, hset, h⟩ := h
        obtain ⟨hcharged, hs1⟩ := rebalance_charged hs hset
        exact hcharged.trans (ih hs1 h)

theorem slashMovedEntries_charged (hs : s.Holds u (done ++ entries))
    (h : slashMovedEntries ctx infractionHeight u done entries amt burned s = .ok r s') :
    b.Charged s s' := by
  induction entries generalizing done amt burned s with
  | nil => exact (Within.pure _).ok h
  | cons e entries ih =>
    rw [slashMovedEntries] at h
    split at h
    · exact ih (append_cons done e entries ▸ hs) h
    · simp only [steps] at h
      obtain ⟨_, -, _, -, _, -, _, _, hset, h⟩ := h
      obtain ⟨hcharged, hs1⟩ := rebalance_charged hs hset
      exact hcharged.trans (ih hs1 h)

theorem foldlM_chargeUnbondingDelegation_charged {l : List UnbondingDelegation}
    (hl : ∀ u ∈ l, u.entries = [] ∨ s.Holds u u.entries)
    (h : l.foldlM (chargeUnbondingDelegation ctx infractionHeight slashFactor) amt s = .ok amt' s') :
    b.Charged s s' := by
  refine (foldlM_induct (I := fun l _ t => b.Charged s t ∧ ∀ u ∈ l, u.entries = [] ∨ t.Holds u u.entries)
    (fun u l _ t _ t' hI hstep => ?_) h ⟨refl_of b.Charged s, hl⟩).1
  obtain ⟨hcharged, hl⟩ := hI
  simp only [chargeUnbondingDelegation, slashUnbondingDelegation, bind_ok, pure_ok] at hstep
  obtain ⟨_, _, ⟨⟨_, _⟩, s2, h2, _, s3, h3, -, rfl⟩, h⟩ := hstep
  have hentries : b.Charged t s2 := by
    rcases hl u (mem_cons_self ..) with hempty | hu
    · rw [hempty] at h2
      exact (Within.pure _).ok h2
    · exact slashEntries_charged hu h2
  have hrest : b.Charged s3 t' :=
    ok (ite (pure _) (lift _)) h
  have hstep : b.Charged t t' :=
    (hentries.trans (.of_apart ((burnPoolTokens_apart _ _).ok h3))).trans hrest
  refine ⟨hcharged.trans hstep, fun u' hu' => ?_⟩
  rw [State.Holds, hstep.outlineAt]
  exact hl u' (mem_cons_of_mem _ hu')

variable (hb : b.Serve k)
include hb

theorem slashMovedDelegation_apart (del : AccAddress) (dst : ValAddress) (amt : Int)
    (sums : SlashSums) : Within b.Apart (k.slashMovedDelegation del dst amt sums) := by
  refine (Within.find _ _).bind fun v => (Within.lift _).bind fun shares =>
    Within.ite (Within.pure _) ((Within.load _).bind fun found => ?_)
  cases found with
  | none => exact pure _
  | some =>
    exact (unbond_apart hb _ _ _).bind fun _ => (Within.load _).bind fun _ => Within.lift _

variable (hs : s.UnbondingKeyed)
include hs

theorem slashRedelegationEntry_charged {dst : ValAddress} {sums sums' : SlashSums}
    {entry : RedelegationEntry}
    (h : k.slashRedelegationEntry ctx del dst infractionHeight slashFactor sums entry s =
      .ok sums' s') : b.Charged s s' := by
  unfold slashRedelegationEntry at h
  split at h
  · exact (Within.pure _).ok h
  · simp only [steps] at h
    obtain ⟨_, -, _, -, _, -, ⟨_, _⟩, s1, h1, h⟩ := h
    have hmoved : b.Charged s s1 := by
      simp only [slashMovedUnbonding, steps] at h1
      obtain ⟨found, hfound, h1⟩ := h1
      cases found with
      | none => exact (Within.pure _).ok h1
      | some u =>
        refine slashMovedEntries_charged ?_ h1
        rw [State.Holds, hs _ u hfound, outlineAt, hfound]
        rfl
    refine hmoved.trans (.of_apart (ok ?_ h))
    exact ite (pure _) (slashMovedDelegation_apart hb _ _ _ _)

theorem chargeRedelegation_charged {red : Redelegation}
    (h : k.chargeRedelegation ctx infractionHeight slashFactor amt red s = .ok amt' s') :
    b.Charged s s' := by
  simp only [chargeRedelegation, slashRedelegation, bind_ok, pure_ok] at h
  obtain ⟨_, _, ⟨_, s2, h2, _, s3, h3, _, _, h4, -, rfl⟩, h⟩ := h
  have hentries : b.Charged s s2 := foldlM_induct (I := fun _ _ t => b.Charged s t)
    (fun entry l _ t _ t' hI hstep =>
      hI.trans (slashRedelegationEntry_charged hb (hI.keyed hs) hstep)) h2 (refl_of b.Charged s)
  refine hentries.trans (.of_apart ?_)
  refine ((burnPoolTokens_apart _ _).ok h3 : b.Apart s2 s3).trans
    (((burnPoolTokens_apart _ _).ok h4).trans (ok ?_ h))
  exact ite (pure _) (lift _)

theorem slashScan_charged {addr : ValAddress}
    (h : k.slashScan ctx addr infractionHeight slashFactor amt s = .ok amt' s') :
    b.Charged s s' := by
  unfold slashScan at h
  split at h
  · exact (fail_ok.mp h).elim
  · split at h
    · exact (Within.pure _).ok h
    · simp only [steps] at h
      obtain ⟨_, rfl, _, s1, h1, _, _, ⟨_, -, -, rfl⟩, h⟩ := h
      have hunbonding : b.Charged s s1 := by
        refine foldlM_chargeUnbondingDelegation_charged (fun u hu => ?_) h1
        obtain ⟨key, -, rfl⟩ := mem_map.mp hu
        -- a pair in the index that is not stored has no entries
        cases hfound : s.unbondingDelegations[(key.2, key.1)]? with
        | none => exact .inl rfl
        | some u =>
          refine .inr ?_
          rw [getD_some, State.Holds, hs _ u hfound, outlineAt, hfound]
          rfl
      exact foldlM_induct (I := fun _ _ t => b.Charged s t)
        (fun red l _ t _ t' hI hstep =>
          hI.trans (chargeRedelegation_charged hb (hI.keyed hs) hstep)) h hunbonding

theorem slash_charged {addr : ConsAddress} {power : Int}
    (h : k.slash ctx addr infractionHeight power slashFactor s = .ok amt s') : b.Charged s s' := by
  simp only [slash, steps] at h
  obtain ⟨_, -, _, -, _, -, _, -, found, -, h⟩ := h
  cases found with
  | none => exact (Within.pure _).ok h
  | some v =>
    simp only [slashFound, steps] at h
    obtain ⟨_, -, _, s1, h1, _, _, h2, h⟩ := h
    have hhook : b.Charged s s1 := .of_apart ((callHook_apart hb _).ok h1)
    refine (hhook.trans (slashScan_charged hb (hhook.keyed hs) h2)).trans
      (.of_apart (ok ?_ h))
    refine ite (pure _) (bind ?_ fun _ =>
      (removeValidatorTokens_apart v _).bind fun v' => ?_)
    · exact Within.ite ((Within.lift _).bind fun _ => callHook_apart hb _) (Within.pure ())
    · cases sendName v'.status with
      | none => exact fail _
      | some pool => exact (burnPoolTokens_apart pool _).bind fun _ => pure _

omit hs

/-! ## Undelegations and cancellations -/

omit hb in
/-- An entry is added, or takes the balance if there is one of its height and time. -/
theorem addEntry_marks {time : Time} {entries' : List UnbondingDelegationEntry}
    (h : addEntry height time balance entries = .ok entries') (mark : Int × Time) :
    mark ∈ entries'.map UnbondingDelegationEntry.mark ↔
      mark = (height, time) ∨ mark ∈ entries.map UnbondingDelegationEntry.mark := by
  induction entries generalizing entries' with
  | nil =>
    obtain rfl := ok.inj h
    simp [UnbondingDelegationEntry.new, UnbondingDelegationEntry.mark]
  | cons e entries ih =>
    rw [addEntry] at h
    split at h
    · rename_i hsame
      obtain ⟨_, -, h⟩ := bind_eq_ok.mp h
      obtain ⟨_, -, h⟩ := bind_eq_ok.mp h
      obtain rfl := ok.inj h
      have hmark : e.mark = (height, time) := Prod.ext hsame.1 hsame.2
      simp only [map_cons, mem_cons, hmark]
      show mark = e.mark ∨ _ ↔ _
      rw [hmark]
      tauto
    · obtain ⟨_, h1, h⟩ := bind_eq_ok.mp h
      obtain rfl := ok.inj h
      simp only [map_cons, mem_cons, ih h1]
      tauto

omit hb in
/-- One unbonding delegation is written, of an account and with entries in the queue. -/
theorem tends_of_write {s1 : State X}
    {written : Option (AccAddress × ValAddress × List (Int × Time))} (key : AccAddress × ValAddress)
    (hs : b.Tended s) (happart : b.Apart s s1) (hdelegations : s'.delegations = s1.delegations)
    (houtside : s'.outside = s1.outside)
    (hqueue : ∀ time pair, pair ∈ s.queued time → pair ∈ s'.queued time)
    (hwrites : ∀ key', s'.outlineAt key' = if key' = key then written else s.outlineAt key')
    (howned : ∀ outline ∈ written, b.registered s1.outside outline.1)
    (hcovered : ∀ outline ∈ written, ∀ mark ∈ outline.2.2, ⟨key.1, key.2⟩ ∈ s'.queued mark.2)
    (hwaits : ∀ mark, (key, mark.1) ∉ cancelled → s.Waits key mark →
      ∃ outline ∈ written, mark ∈ outline.2.2) : b.Tends cancelled s s' := by
  have hself : s'.outlineAt key = written := by rw [hwrites, if_pos rfl]
  have hothers : ∀ key', key' ≠ key → s'.outlineAt key' = s.outlineAt key' :=
    fun key' hne => by rw [hwrites, if_neg hne]
  refine ⟨houtside ▸ happart.outside.paid, ⟨?_, fun key' outline houtline => ?_,
    fun key' mark hmark => ?_⟩, fun key' mark hnot hmark => ?_⟩
  · unfold Accounts.Delegating
    rw [hdelegations, houtside]
    exact happart.delegating hs.delegating
  · rw [houtside]
    by_cases hkey : key' = key
    · subst hkey
      exact howned outline (hself ▸ houtline)
    · rw [hothers key' hkey] at houtline
      exact happart.outside.registered _ (hs.owned key' outline houtline)
  · by_cases hkey : key' = key
    · subst hkey
      obtain ⟨outline, houtline, hmark⟩ := hmark
      exact hcovered outline (hself ▸ houtline) mark hmark
    · unfold State.Waits at hmark
      rw [hothers key' hkey] at hmark
      exact hqueue _ _ (hs.covered key' mark hmark)
  · unfold State.Waits
    by_cases hkey : key' = key
    · subst hkey
      rw [hself]
      exact hwaits mark hnot hmark
    · rw [hothers key' hkey]
      exact hmark

omit hb in
theorem unbondingKeyed_of_formed (hs : s.ledger.Formed) : s.UnbondingKeyed :=
  fun key u hu => (hs.unbonding key u hu).key_eq

theorem undelegate_tends {val : ValAddress} {shares : LegacyDec} {r : Time × Int}
    (hs : s.ledger.Formed) (htended : b.Tended s) (h : k.undelegate ctx del val shares s = .ok r s') :
    b.Tends ∅ s s' := by
  simp only [undelegate, getValidator, setUnbondingDelegationEntry, pure_ok, steps] at h
  obtain ⟨v, -, _, -, _, -, amt, s1, h1, _, s2, h2, unbondingTime, -, u, _, ⟨found, hfound,
    _, hentries, _, _, hset, hu, rfl⟩, _, s', hqueue, -, rfl⟩ := h
  generalize ctx.time + unbondingTime = time at *
  have hunbond : b.Apart s s1 := (unbond_apart hb del val shares).ok h1
  have happart : b.Apart s s2 := hunbond.trans ((releaseTokens_apart v amt).ok h2)
  rw [happart.unbonding] at hfound
  rw [hu] at hset
  obtain ⟨houtline, hqueue4, hdelegations, houtside⟩ := setUnbondingDelegation_outlineAt hset
  have hkey : (u.delegatorAddress, u.validatorAddress) = (del, val) := by
    rw [← hu]
    cases found with
    | none => rfl
    | some w => exact unbondingKeyed_of_formed hs _ w hfound
  have hmarks : ∀ mark, mark ∈ u.outline.2.2 ↔ mark = (ctx.height, time) ∨ s.Waits (del, val) mark := by
    intro mark
    rw [← hu]
    refine (addEntry_marks hentries mark).trans (or_congr Iff.rfl ?_)
    unfold State.Waits outlineAt
    rw [hfound]
    cases found <;> simp [UnbondingDelegation.outline]
  have hwrites : ∀ key, s'.outlineAt key =
      if key = (del, val) then some u.outline else s.outlineAt key := by
    intro key
    have hs2 := (Accounts.Charged.of_apart happart).outlineAt key
    rw [← update_ok.mp hqueue, ← hs2, ← hkey]
    exact houtline key
  have hqueued : ∀ t, s'.queued t = if t = time then s.queued t ++ [⟨del, val⟩] else s.queued t := by
    intro t
    rw [← update_ok.mp hqueue, queued, queued, ← happart.queue, ← hqueue4, lookup_insert]
    split
    · rename_i ht
      rw [ht, (Prod.mk.inj hkey).1, (Prod.mk.inj hkey).2]
      rfl
    · rfl
  have hkept : ∀ t pair, pair ∈ s.queued t → pair ∈ s'.queued t := by
    intro t pair hpair
    rw [hqueued]
    split
    · exact mem_append_left _ hpair
    · exact hpair
  refine tends_of_write (del, val) htended happart ?_ ?_ hkept hwrites ?_ ?_ ?_
  · rw [← update_ok.mp hqueue]
    exact hdelegations
  · rw [← update_ok.mp hqueue]
    exact houtside
  · rintro _ ⟨⟩
    show b.registered s2.outside u.delegatorAddress
    rw [(Prod.mk.inj hkey).1]
    have hregistered := unbond_registered hb hs htended.delegating h1
    exact ((releaseTokens_apart v amt).ok h2 : b.Apart s1 s2).outside.registered del hregistered
  · rintro _ ⟨⟩ mark hmark
    rcases (hmarks mark).mp hmark with rfl | hold
    · simp [hqueued]
    · exact hkept _ _ (htended.covered _ _ hold)
  · exact fun mark _ hmark => ⟨_, rfl, (hmarks mark).mpr (.inr hmark)⟩

theorem msgUndelegate_tends {msg : MsgUndelegate} {r : Time × Int} (hs : s.ledger.Formed)
    (htended : b.Tended s) (h : k.msgUndelegate ctx msg s = .ok r s') : b.Tends ∅ s s' := by
  simp only [msgUndelegate, steps] at h
  obtain ⟨_, -, _, _, h1, _, _, h2, h⟩ := h
  obtain rfl := validateUnbondAmount_state h1
  obtain rfl := checkBondDenom_state h2
  exact undelegate_tends hb hs htended h

omit hb in
theorem storeUnbondingDelegation_outlineAt (h : storeUnbondingDelegation u s = .ok x s') :
    (∀ key, s'.outlineAt key = if key = (u.delegatorAddress, u.validatorAddress)
      then if u.entries.isEmpty then none else some u.outline else s.outlineAt key) ∧
    s'.unbondingQueue = s.unbondingQueue ∧ s'.delegations = s.delegations ∧
    s'.outside = s.outside := by
  unfold storeUnbondingDelegation at h
  split at h
  · simp only [removeUnbondingDelegation, bind_ok, update_ok] at h
    obtain ⟨_, _, rfl, rfl⟩ := h
    refine ⟨fun key => ?_, rfl, rfl, rfl⟩
    unfold outlineAt
    rw [lookup_erase]
    split
    · rfl
    · rfl
  · rename_i hentries
    simp only [if_neg hentries]
    exact setUnbondingDelegation_outlineAt h

omit hb in
omit hb in
theorem cancelEntry_marks (h : cancelEntry before entry after amt = .ok entries) (mark : Int × Time) :
    (mark ∈ entries.map UnbondingDelegationEntry.mark →
      mark ∈ (before ++ entry :: after).map UnbondingDelegationEntry.mark) ∧
    (mark ∈ (before ++ entry :: after).map UnbondingDelegationEntry.mark →
      mark.1 ≠ entry.creationHeight → mark ∈ entries.map UnbondingDelegationEntry.mark) := by
  obtain ⟨_, -, h⟩ := bind_eq_ok.mp h
  simp only [map_append, map_cons, mem_append, mem_cons]
  split at h
  · obtain rfl := ok.inj h
    rw [map_append, mem_append]
    refine ⟨fun hmark => hmark.imp_right .inr, fun hmark hheight => hmark.imp_right fun hmark => ?_⟩
    exact hmark.resolve_left fun heq => hheight (congrArg Prod.fst heq)
  · obtain ⟨_, -, h⟩ := bind_eq_ok.mp h
    obtain rfl := ok.inj h
    simp only [map_append, map_cons, mem_append, mem_cons]
    exact ⟨fun hmark => hmark, fun hmark _ => hmark⟩

theorem cancelUnbondingDelegation_tends {msg : MsgCancelUnbondingDelegation} (hs : s.ledger.Formed)
    (htended : b.Tended s) (h : k.cancelUnbondingDelegation ctx msg s = .ok x s') :
    b.Tends {((msg.delegatorAddress, msg.validatorAddress), msg.creationHeight)} s s' := by
  simp only [cancelUnbondingDelegation, checkBondDenom, getValidator, getUnbondingDelegation,
    steps] at h
  obtain ⟨_, -, _, -, _, _, ⟨_, -, -, rfl⟩, _, -, _, -, _, -, u, hu, ⟨_, entry, _⟩, hsplit,
    _, -, _, -, _, s1, h1, entries, hentries, hstore⟩ := h
  have hkey := unbondingKeyed_of_formed hs _ u hu
  generalize hmsg : (msg.delegatorAddress, msg.validatorAddress) = key at *
  have hold : s.outlineAt key = some u.outline := by
    rw [outlineAt, hu]
    rfl
  have hregistered : b.registered s.outside msg.delegatorAddress := by
    have howned := htended.owned key u.outline hold
    rwa [show u.outline.1 = msg.delegatorAddress from congrArg Prod.fst (hkey.trans hmsg.symm)] at howned
  have happart : b.Apart s s1 := delegate_apart hb .refl h1 fun _ _ => hregistered
  obtain ⟨houtline, hqueue, hdelegations, houtside⟩ := storeUnbondingDelegation_outlineAt hstore
  have hwrites : ∀ key', s'.outlineAt key' = if key' = key then
      if entries.isEmpty then none else some ({ u with entries := entries } : UnbondingDelegation).outline
      else s.outlineAt key' := by
    intro key'
    rw [houtline, (Accounts.Charged.of_apart happart).outlineAt, hkey]
  have hmarks := cancelEntry_marks hentries
  rw [← (splitAtHeight_ok hsplit).1] at hmarks
  have hqueued : ∀ t, s'.queued t = s.queued t := by
    intro t
    rw [queued, hqueue, happart.queue]
    rfl
  have hwritten : ∀ outline ∈ (if entries.isEmpty then none
      else some ({ u with entries := entries } : UnbondingDelegation).outline),
      outline = ({ u with entries := entries } : UnbondingDelegation).outline := by
    split <;> simp
  refine tends_of_write key htended happart hdelegations houtside
    (fun t pair hpair => hqueued t ▸ hpair) hwrites ?_ ?_ ?_
  · intro outline houtline'
    rw [hwritten outline houtline']
    exact happart.outside.registered _ (htended.owned key u.outline hold)
  · intro outline houtline' mark hmark
    rw [hwritten outline houtline'] at hmark
    rw [hqueued]
    exact htended.covered key mark ⟨u.outline, hold, (hmarks mark).1 hmark⟩
  · rintro mark hnot ⟨outline, houtline', hmark⟩
    obtain rfl := some.inj (hold.symm.trans houtline')
    have hheight : mark.1 ≠ entry.creationHeight := by
      rw [(splitAtHeight_ok hsplit).2]
      intro heq
      exact hnot (by rw [heq]; rfl)
    have hstays := (hmarks mark).2 hmark hheight
    refine ⟨_, if_neg fun hempty => ?_, hstays⟩
    rw [isEmpty_iff.mp hempty] at hstays
    simp at hstays

end Keeper

/-! ## Steps inside a block -/

/-- The entries a step may take away. -/
def Step.cancelled : Step → Set ((AccAddress × ValAddress) × Int)
  | .execute ⟨.cancelUnbondingDelegation msg, _⟩ =>
    {((msg.delegatorAddress, msg.validatorAddress), msg.creationHeight)}
  | _ => ∅

namespace Keeper

variable {X : Type} {k : Keeper X} {b : Accounts X} {s s' : State X}

theorem callStep_tends (hb : b.Serve k) {header : HeaderInfo} {params : Params} {step : Step} {u : Unit}
    (hs : s.ledger.Formed) (htended : b.Tended s) (h : k.callStep header params step s = .ok u s') :
    b.Tends step.cancelled s s' := by
  rcases step with ⟨op, hop⟩ | params' | heights
  · simp only [callStep] at h
    cases op with
    | createValidator msg => exact ((createValidator_apart hb msg).ok h).tends htended
    | editValidator msg => exact ((editValidator_apart hb msg).ok h).tends htended
    | delegate msg => exact ((msgDelegate_apart hb msg).perform.ok h).tends htended
    | beginRedelegate =>
      obtain ⟨_, h⟩ := perform_ok.mp h
      exact (msgBeginRedelegate_apart hb hs h).tends htended
    | undelegate =>
      obtain ⟨_, h⟩ := perform_ok.mp h
      exact msgUndelegate_tends hb hs htended h
    | cancelUnbondingDelegation => exact cancelUnbondingDelegation_tends hb hs htended h
    | rotateConsPubKey msg => exact ((rotateConsPubKey_apart hb msg).ok h).tends htended
    | undelegateShares =>
      obtain ⟨_, h⟩ := perform_ok.mp h
      exact undelegate_tends hb hs htended h
    | redelegateShares =>
      obtain ⟨_, h⟩ := perform_ok.mp h
      exact (beginRedelegation_apart hb hs h).tends htended
    | slash =>
      obtain ⟨_, h⟩ := perform_ok.mp h
      exact (slash_charged hb (unbondingKeyed_of_formed hs) h).tends htended
    | jail consAddr => exact ((jail_apart consAddr).ok h).tends htended
    | unjail consAddr => exact ((unjail_apart consAddr).ok h).tends htended
    | applyAndReturnValidatorSetUpdates | unbondAllMatureValidators | completeUnbonding del val =>
      simp [Op.inBlock] at hop
    | completeRedelegation => simp [Op.inBlock] at hop
  · exact ((updateParams_apart _).ok h).tends htended
  · exact ((pure (R := b.Apart) ()).ok h).tends htended

end Keeper

end CosmosSDK.Staking
