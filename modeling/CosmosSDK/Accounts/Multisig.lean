import CosmosSDK.Lib.Fallible
import CosmosSDK.Lib.Totals
import CosmosSDK.Store.MemIterator

/-!
# The members of a multisig account

`Init` adds up the weights of its message, `UpdateConfig` those of the store.  The two differ
where several members of the message have the same address in different spellings.
-/

namespace CosmosSDK.Accounts

open Store OrderedKV Fallible List UInt64

structure Config where
  (threshold quorum votingPeriod : Int64)

structure Member where
  address : String
  weight : UInt64

structure Account where
  members : OrdMap Bytes UInt64
  config : Option Config

inductive AccountError where
  | noConfig | noMembers | duplicate | address | zeroWeight | overflow | notPositive
  | threshold | quorum | notSelf | notFound

def safeAdd (nums : List UInt64) : Except AccountError UInt64 :=
  nums.foldlM (fun sum num => if sum + num < sum then .error .overflow else .ok (sum + num)) 0

def validateConfig (cfg : Config) (totalWeight : UInt64) : Except AccountError Unit :=
  if cfg.threshold ≤ 0 ∨ cfg.quorum ≤ 0 ∨ cfg.votingPeriod ≤ 0 then .error .notPositive
  else if totalWeight < cfg.threshold.toUInt64 then .error .threshold
  else if totalWeight < cfg.quorum.toUInt64 then .error .quorum
  else .ok ()

def weight (members : OrdMap Bytes UInt64) : Nat := total (fun _ w => w.toNat) members

/-- What the loop of `init` carries: the addresses it met, the store and the total. -/
structure InitLoop where
  membersMap : List String
  members : OrdMap Bytes UInt64
  totalWeight : UInt64

variable (stringToBytes : String → Except AccountError Bytes)

def initMember (l : InitLoop) (m : Member) : Except AccountError InitLoop :=
  if m.address ∈ l.membersMap then .error .duplicate
  else do
    let addrBz ← stringToBytes m.address
    if m.weight = 0 then .error .zeroWeight
    else
      let totalWeight ← safeAdd [l.totalWeight, m.weight]
      .ok ⟨m.address :: l.membersMap, l.members.insert addrBz m.weight, totalWeight⟩

/-- A new account has no members. -/
def init (config : Option Config) (members : List Member) : Except AccountError Account :=
  match config with
  | none => .error .noConfig
  | some cfg =>
    if members.isEmpty then .error .noMembers
    else do
      let l ← members.foldlM (initMember stringToBytes) ⟨[], ∅, 0⟩
      validateConfig cfg l.totalWeight
      .ok ⟨l.members, some cfg⟩

def updateMember (members : OrdMap Bytes UInt64) (m : Member) :
    Except AccountError (OrdMap Bytes UInt64) := do
  let addrBz ← stringToBytes m.address
  .ok (if m.weight = 0 then members.erase addrBz else members.insert addrBz m.weight)

def Account.updateConfig (a : Account) (senderIsSelf : Bool) (config : Option Config)
    (updateMembers : List Member) : Except AccountError Account :=
  if senderIsSelf = false then .error .notSelf
  else do
    let members ← updateMembers.foldlM (updateMember stringToBytes) a.members
    let totalWeight ← members.toList.foldlM (fun sum e => safeAdd [sum, e.2]) 0
    match config <|> a.config with
    | none => .error .notFound
    | some cfg =>
      validateConfig cfg totalWeight
      .ok ⟨members, some cfg⟩

/-- The members of a message with their addresses decoded. -/
def decodeMembers (members : List Member) : Except AccountError (List (Bytes × UInt64)) :=
  members.mapM fun m => do
    let addrBz ← stringToBytes m.address
    .ok (addrBz, m.weight)

/-- The weights that stay when the members are stored one after the other: a member is
overwritten by a later one with the same address. -/
def keptWeight : List (Bytes × UInt64) → Nat
  | [] => 0
  | e :: entries => (if e.1 ∈ entries.map Prod.fst then 0 else e.2.toNat) + keptWeight entries

def Account.Passable (a : Account) : Prop :=
  ∃ cfg, a.config = some cfg ∧ 0 < cfg.threshold ∧ 0 < cfg.quorum ∧
    cfg.threshold.toInt ≤ weight a.members ∧ cfg.quorum.toInt ≤ weight a.members

variable {stringToBytes} {sum c : UInt64} {members : OrdMap Bytes UInt64}

theorem safeAdd_ok {n : UInt64} (h : safeAdd [sum, n] = .ok c) : c.toNat = sum.toNat + n.toNat := by
  simp only [safeAdd, foldlM_cons, foldlM_nil, passes] at h
  obtain ⟨_, ⟨-, ⟨⟩⟩, _, ⟨hle, ⟨⟩⟩, ⟨⟩⟩ := h
  simp only [UInt64.zero_add, UInt64.lt_iff_toNat_lt, UInt64.toNat_add] at hle ⊢
  have := sum.toNat_lt
  have := n.toNat_lt
  omega

theorem walk_ok {l : List (Bytes × UInt64)}
    (h : l.foldlM (fun sum e => safeAdd [sum, e.2]) sum = .ok c) :
    c.toNat = sum.toNat + (l.map fun e => e.2.toNat).sum := by
  induction l generalizing sum with
  | nil =>
    cases h
    simp
  | cons e l ih =>
    rw [foldlM_cons, bind_eq_ok] at h
    obtain ⟨_, hadd, h⟩ := h
    rw [ih h, safeAdd_ok hadd, map_cons, sum_cons, Nat.add_assoc]

theorem toInt_le {t : Int64} (ht : 0 < t) (h : ¬ c < t.toUInt64) : t.toInt ≤ c.toNat := by
  rw [UInt64.not_lt, UInt64.le_iff_toNat_le, Int64.toNat_toUInt64_of_le (Int64.le_of_lt ht)] at h
  exact (Int.self_le_toNat _).trans (Int.ofNat_le.mpr h)

theorem passable_of_valid {cfg : Config} (hc : c.toNat = weight members)
    (h : validateConfig cfg c = .ok ()) : Account.Passable ⟨members, some cfg⟩ := by
  simp only [validateConfig, refuse_eq_ok, not_or, Int64.not_le] at h
  obtain ⟨⟨ht, hq, -⟩, hthreshold, hquorum, -⟩ := h
  exact ⟨cfg, rfl, ht, hq, hc ▸ toInt_le ht hthreshold, hc ▸ toInt_le hq hquorum⟩

theorem weight_insertAll (entries : List (Bytes × UInt64)) (m : OrdMap Bytes UInt64) :
    weight (insertAll m entries) =
      total (fun b w => if b ∈ entries.map Prod.fst then 0 else w.toNat) m + keptWeight entries := by
  induction entries generalizing m with
  | nil => simp [insertAll, weight, keptWeight]
  | cons e entries ih =>
    show weight (insertAll (m.insert e.1 e.2) entries) = _
    let f (b : Bytes) (w : UInt64) : Nat := if b ∈ entries.map Prod.fst then 0 else w.toNat
    let g (b : Bytes) (w : UInt64) : Nat := if b ∈ (e :: entries).map Prod.fst then 0 else w.toNat
    -- away from the address of the member, the two weigh alike
    have herase : total f (m.erase e.1) = total g (m.erase e.1) := by
      apply total_congr
      intro b w hb
      have hne := (of_erase hb).1
      simp only [f, g, map_cons, mem_cons, hne, false_or]
    have hinsert := total_insert f m e.1 e.2
    have hf := total_erase f m e.1
    have hg := total_erase g m e.1
    have hzero : part g m e.1 = 0 := by
      unfold part
      split <;> simp [g]
    rw [ih, keptWeight]
    change total f (m.insert e.1 e.2) + _ = total g m + (f e.1 e.2 + _)
    omega

theorem keptWeight_of_nodup {entries : List (Bytes × UInt64)} (h : (entries.map Prod.fst).Nodup) :
    keptWeight entries = (entries.map fun e => e.2.toNat).sum := by
  induction entries with
  | nil => rfl
  | cons e entries ih =>
    obtain ⟨hnew, hrest⟩ := nodup_cons.mp h
    rw [keptWeight, if_neg hnew, ih hrest, map_cons, sum_cons]

/-- The loop stores the members and adds up their weights. -/
theorem initLoop_ok {members : List Member} {l l' : InitLoop}
    (h : members.foldlM (initMember stringToBytes) l = .ok l') :
    ∃ entries, decodeMembers stringToBytes members = .ok entries ∧
      l'.members = insertAll l.members entries ∧
      l'.totalWeight.toNat = l.totalWeight.toNat + (entries.map fun e => e.2.toNat).sum := by
  induction members generalizing l with
  | nil =>
    cases h
    exact ⟨[], rfl, rfl, rfl⟩
  | cons m members ih =>
    rw [foldlM_cons, bind_eq_ok] at h
    obtain ⟨_, hm, h⟩ := h
    simp only [initMember, passes] at hm
    obtain ⟨-, addrBz, haddr, -, _, hadd, ⟨⟩⟩ := hm
    obtain ⟨entries, hentries, hstored, htotal⟩ := ih h
    refine ⟨(addrBz, m.weight) :: entries, ?_, hstored, ?_⟩
    · unfold decodeMembers at hentries ⊢
      simp only [mapM_cons, haddr, ok_bind, hentries]
      rfl
    · rw [htotal, safeAdd_ok hadd, map_cons, sum_cons, Nat.add_assoc]

theorem init_ok {config : Option Config} {members : List Member} {a : Account}
    (h : init stringToBytes config members = .ok a) : ∃ cfg entries totalWeight, config = some cfg ∧
      decodeMembers stringToBytes members = .ok entries ∧ a = ⟨insertAll ∅ entries, some cfg⟩ ∧
      totalWeight.toNat = (entries.map fun e => e.2.toNat).sum ∧
      validateConfig cfg totalWeight = .ok () := by
  unfold init at h
  split at h
  · cases h
  · rename_i cfg
    simp only [passes] at h
    obtain ⟨-, l, hloop, ⟨⟩, hvalid, ⟨⟩⟩ := h
    obtain ⟨entries, hentries, hstored, htotal⟩ := initLoop_ok hloop
    exact ⟨cfg, entries, l.totalWeight, rfl, hentries, by rw [hstored], by simpa using htotal, hvalid⟩

/-- `UpdateConfig` always leaves an account in which a unanimous vote can pass.  `Init` does if and
only if the weights that are not overwritten reach threshold and quorum, and so whenever no two
members of the message have the same address. -/
theorem passable_iff :
    (∀ config members a, init stringToBytes config members = .ok a → ∃ cfg entries,
      config = some cfg ∧ decodeMembers stringToBytes members = .ok entries ∧
      (a.Passable ↔ cfg.threshold.toInt ≤ keptWeight entries ∧ cfg.quorum.toInt ≤ keptWeight entries) ∧
      ((entries.map Prod.fst).Nodup → a.Passable)) ∧
    ∀ (a : Account) senderIsSelf config updateMembers a',
      a.updateConfig stringToBytes senderIsSelf config updateMembers = .ok a' → a'.Passable := by
  constructor
  · intro config members a h
    obtain ⟨cfg, entries, totalWeight, rfl, hentries, rfl, htotal, hvalid⟩ := init_ok h
    have hweight : weight (insertAll ∅ entries) = keptWeight entries := by
      rw [weight_insertAll, total_empty, Nat.zero_add]
    refine ⟨cfg, entries, rfl, hentries, ?_, fun hnodup => ?_⟩
    · rw [← hweight]
      constructor
      · rintro ⟨_, ⟨⟩, -, -, hle⟩
        exact hle
      · intro hle
        simp only [validateConfig, refuse_eq_ok, not_or, Int64.not_le] at hvalid
        exact ⟨cfg, rfl, hvalid.1.1, hvalid.1.2.1, hle⟩
    · apply passable_of_valid _ hvalid
      rw [hweight, htotal, keptWeight_of_nodup hnodup]
  · intro a _ _ _ a' h
    simp only [Account.updateConfig, passes] at h
    obtain ⟨-, _, -, _, hwalk, h⟩ := h
    split at h
    · cases h
    · obtain ⟨⟨⟩, hvalid, ⟨⟩⟩ := bind_eq_ok.mp h
      exact passable_of_valid ((walk_ok hwalk).trans (Nat.zero_add _)) hvalid

/-- An address in lower and in upper case. -/
theorem init_two_cases : ∃ a, init (fun s => if s ∈ ["a", "A"] then .ok [1] else .error .address)
    (some ⟨2, 2, 1⟩) [⟨"a", 1⟩, ⟨"A", 1⟩] = .ok a ∧ ¬ a.Passable := by
  refine ⟨_, rfl, ?_⟩
  rintro ⟨_, ⟨⟩, -, -, hle, -⟩
  exact absurd hle (by decide)

end CosmosSDK.Accounts
