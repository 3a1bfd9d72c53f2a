import CosmosSDK.Group.Exec
import CosmosSDK.Lib.Totals

/-!
# The weights of a group

The total weight of a group is the exact sum of the weights of its members, which are all
positive.  `UpdateGroupMembers` keeps this through every round of its loop.
-/

namespace CosmosSDK.Group

open Store OrderedKV Decimal Fallible List

def value (s : DecString) : ℚ :=
  match s with
  | none => 0
  | some d => d.val

def Positive (s : DecString) : Prop :=
  ∃ d, s = some d ∧ 0 < d.val

def NonNegative (s : DecString) : Prop :=
  ∃ d, s = some d ∧ 0 ≤ d.val

structure TallyResult.NonNegative (t : TallyResult) : Prop where
  yes : Group.NonNegative t.yesCount
  no : Group.NonNegative t.noCount
  abstain : Group.NonNegative t.abstainCount
  noWithVeto : Group.NonNegative t.noWithVetoCount

variable {s : DecString} {d x y z : Dec}

theorem newDecFromString_eq_ok : newDecFromString s = .ok d ↔ s = some d := by
  cases s with
  | none | some e => simp [newDecFromString]

theorem newPositiveDecFromString_eq_ok :
    newPositiveDecFromString s = .ok d ↔ s = some d ∧ 0 < d.val := by
  rw [newPositiveDecFromString, bind_eq_ok]
  constructor
  · rintro ⟨e, he, h⟩
    split_ifs at h with hpos
    obtain rfl := Except.ok.inj h
    exact ⟨newDecFromString_eq_ok.mp he, e.val_pos_iff.mpr hpos⟩
  · rintro ⟨rfl, hpos⟩
    exact ⟨d, rfl, if_pos (d.val_pos_iff.mp hpos)⟩

theorem newNonNegativeDecFromString_eq_ok :
    newNonNegativeDecFromString s = .ok d ↔ s = some d ∧ 0 ≤ d.val := by
  have hneg : d.coeff < 0 ↔ ¬ 0 ≤ d.val := by rw [not_le, d.val_neg_iff]
  rw [newNonNegativeDecFromString, bind_eq_ok]
  constructor
  · rintro ⟨e, he, h⟩
    split_ifs at h with hlt
    cases h
    refine ⟨newDecFromString_eq_ok.mp he, ?_⟩
    by_contra hval
    exact hlt (hneg.mpr hval)
  · rintro ⟨rfl, hval⟩
    exact ⟨d, rfl, if_neg fun hlt => hneg.mp hlt hval⟩

theorem ofDec_eq_ok {r : Except Decimal.Err Dec} : ofDec r = .ok d ↔ r = .ok d := by
  cases r with
  | error err | ok e => simp [ofDec]

section Arithmetic

variable [apd : Apd]

theorem decAdd_val (h : decAdd x y = .ok z) : z.val = x.val + y.val :=
  apd.add_val (ofDec_eq_ok.mp h)

theorem decSub_val (h : decSub x y = .ok z) : z.val = x.val - y.val :=
  apd.sub_val (ofDec_eq_ok.mp h)

theorem subNonNegative_val (h : subNonNegative x y = .ok z) : z.val = x.val - y.val := by
  rw [subNonNegative, bind_eq_ok] at h
  obtain ⟨_, hw, h⟩ := h
  split_ifs at h
  cases h
  exact decSub_val hw

end Arithmetic

theorem value_text (d : Dec) : value (text d) = d.val := d.plain_val

def weightOf (members : OrdMap (Nat × Bytes) Member) (groupId : Nat) : ℚ :=
  total (fun key m => if key.1 = groupId then value m.weight else 0) members

theorem weightOf_insert (members : OrdMap (Nat × Bytes) Member) (key : Nat × Bytes) (m : Member)
    (groupId : Nat) : weightOf (members.insert key m) groupId +
        part (fun key m => if key.1 = groupId then value m.weight else 0) members key =
      weightOf members groupId + if key.1 = groupId then value m.weight else 0 :=
  total_insert _ members key m

theorem weightOf_erase (members : OrdMap (Nat × Bytes) Member) (key : Nat × Bytes) (groupId : Nat) :
    weightOf (members.erase key) groupId +
        part (fun key m => if key.1 = groupId then value m.weight else 0) members key =
      weightOf members groupId :=
  total_erase _ members key

/-- Every member has a positive weight and belongs to a group with a number so far. -/
structure Sound (groupSeq : Nat) (members : OrdMap (Nat × Bytes) Member) : Prop where
  positive : ∀ (key : Nat × Bytes) (m : Member), members[key]? = some m → Positive m.weight
  known : ∀ (key : Nat × Bytes) (m : Member), members[key]? = some m → key.1 ≤ groupSeq

/-- The stored total weights are the exact sums of positive weights. -/
structure Balanced {A : Type} (groupSeq : Nat) (groups : OrdMap Nat (GroupInfo A))
    (members : OrdMap (Nat × Bytes) Member) : Prop where
  totals : ∀ (id : Nat) (g : GroupInfo A), groups[id]? = some g →
    ∃ d, g.totalWeight = some d ∧ d.val = weightOf members id
  sound : Sound groupSeq members
  bounded : ∀ (id : Nat) (g : GroupInfo A), groups[id]? = some g → id ≤ groupSeq

section Tables

variable {groupSeq : Nat} {members : OrdMap (Nat × Bytes) Member}

variable (h : Sound groupSeq members)
include h

theorem Sound.insert {key : Nat × Bytes} {m : Member}
    (hpos : Positive m.weight) (hkey : key.1 ≤ groupSeq) : Sound groupSeq (members.insert key m) := by
  constructor
  · intro a n hn
    rcases cases_of_insert hn with ⟨-, rfl⟩ | ⟨-, hn⟩
    · exact hpos
    · exact h.positive a n hn
  · intro a n hn
    rcases cases_of_insert hn with ⟨rfl, -⟩ | ⟨-, hn⟩
    · exact hkey
    · exact h.known a n hn

theorem Sound.erase (key : Nat × Bytes) :
    Sound groupSeq (members.erase key) := by
  constructor
  · intro a n hn
    exact h.positive a n (of_erase hn).2
  · intro a n hn
    exact h.known a n (of_erase hn).2

theorem weightOf_unknown {groupId : Nat} (hid : groupSeq < groupId) :
    weightOf members groupId = 0 := by
  have hzero : weightOf members groupId = total (fun _ _ => (0 : ℚ)) members := by
    apply total_congr
    intro key m hm
    have := h.known key m hm
    rw [if_neg (by omega)]
  rw [hzero, total]
  simp

end Tables

namespace Keeper

variable {A X M : Type} {k : Keeper A X M}

theorem rowKey_eq_ok {id : Nat} {address : A} {key : Nat × Bytes} (h : k.rowKey id address = .ok key) :
    ∃ addr, k.stringToBytes address = .ok addr ∧ key = (id, addrKey addr) := by
  rw [rowKey, bind_eq_ok] at h
  obtain ⟨addr, haddr, h⟩ := h
  exact ⟨addr, haddr, (Except.ok.inj h).symm⟩

def requested (members : List (MemberRequest A)) : ℚ :=
  (members.map (fun m => value m.weight)).sum

variable {members : List (MemberRequest A)} {t t' : Dec} {groupSeq groupId : Nat}
  {table table' : OrdMap (Nat × Bytes) Member}

variable [Apd]

theorem sumWeights_ok (h : k.sumWeights members t = .ok t') :
    t'.val = t.val + requested members ∧ ∀ m ∈ members, Positive m.weight := by
  induction members generalizing t with
  | nil =>
    cases h
    simp [requested]
  | cons m members ih =>
    rw [sumWeights, bind_eq_ok] at h
    obtain ⟨-, -, h⟩ := h
    obtain ⟨w, hw, h⟩ := bind_eq_ok.mp h
    obtain ⟨_, hu, h⟩ := bind_eq_ok.mp h
    obtain ⟨hval, hpos⟩ := ih h
    obtain ⟨hweight, hwpos⟩ := newPositiveDecFromString_eq_ok.mp hw
    constructor
    · have hvalue : value m.weight = w.val := by rw [hweight]; rfl
      rw [hval, decAdd_val hu, requested, requested, map_cons, sum_cons, hvalue]
      ring
    · intro n hn
      rcases mem_cons.mp hn with rfl | hn
      · exact ⟨w, hweight, hwpos⟩
      · exact hpos n hn

omit [Apd] in
theorem createMembers_ok (h : k.createMembers groupId members table = .ok table')
    (hid : groupId ≤ groupSeq) (hpos : ∀ m ∈ members, Positive m.weight) (hs : Sound groupSeq table) :
    Sound groupSeq table' ∧
      ∀ id, weightOf table' id = weightOf table id + if id = groupId then requested members else 0 := by
  induction members generalizing table with
  | nil =>
    cases h
    simp [requested, hs]
  | cons m members ih =>
    rw [createMembers, bind_eq_ok] at h
    obtain ⟨_, hkey, h⟩ := h
    obtain ⟨addr, -, rfl⟩ := rowKey_eq_ok hkey
    cases hrow : table[(groupId, addrKey addr)]? with
    | some =>
      rw [hrow] at h
      cases h
    | none =>
      rw [hrow] at h
      simp only at h
      obtain ⟨-, -, h⟩ := bind_eq_ok.mp h
      have hm := hpos m (mem_cons_self ..)
      obtain ⟨hsound, hweight⟩ := ih h (forall_mem_cons.mp hpos).2
        (hs.insert hm hid)
      refine ⟨hsound, ?_⟩
      intro id
      have hins := weightOf_insert table (groupId, addrKey addr) ⟨m.weight⟩ id
      rw [part_of_none _ hrow] at hins
      rw [hweight id]
      by_cases heq : id = groupId
      · subst heq
        simp only [if_true, requested, map_cons, sum_cons] at hins ⊢
        linarith
      · simp only [if_neg heq, if_neg (Ne.symm heq)] at hins ⊢
        linarith

omit [Apd] in
theorem weights_of_row (old new : ℚ) (hrow : ∀ id, weightOf table' id +
      (if groupId = id then old else 0) = weightOf table id + if groupId = id then new else 0)
    (ht : t.val = weightOf table groupId) (ht' : t'.val = t.val - old + new) :
    t'.val = weightOf table' groupId ∧ ∀ id, id ≠ groupId → weightOf table' id = weightOf table id := by
  refine ⟨?_, fun id hne => ?_⟩
  · have := hrow groupId
    simp only [if_true] at this
    linarith
  · have := hrow id
    simp only [if_neg hne.symm] at this
    linarith

omit [Apd] in
theorem value_of_positive {text : DecString}
    (h : newPositiveDecFromString text = .ok d) : value text = d.val := by
  rw [(newPositiveDecFromString_eq_ok.mp h).1]
  rfl

/-- One round of the loop: the running total is the weight of the group, and the other groups
keep theirs. -/
theorem updateMember_ok {m : MemberRequest A}
    (h : k.updateMember groupId m t table = .ok (t', table')) (hid : groupId ≤ groupSeq)
    (hs : Sound groupSeq table) (ht : t.val = weightOf table groupId) :
    Sound groupSeq table' ∧ t'.val = weightOf table' groupId ∧
      ∀ id, id ≠ groupId → weightOf table' id = weightOf table id := by
  simp only [updateMember, bind_eq_ok] at h
  obtain ⟨-, -, _, hkey, w, hw, h⟩ := h
  obtain ⟨addr, -, rfl⟩ := rowKey_eq_ok hkey
  obtain ⟨hweight, hwnonneg⟩ := newNonNegativeDecFromString_eq_ok.mp hw
  have hins := weightOf_insert table (groupId, addrKey addr) ⟨m.weight⟩
  have hvalue : value m.weight = w.val := by rw [hweight]; rfl
  by_cases hzero : w.coeff = 0
  · rw [if_pos hzero] at h
    cases hrow : table[(groupId, addrKey addr)]? with
    | none =>
      rw [hrow] at h
      cases h
    | some prev =>
      simp only [hrow, bind_eq_ok] at h
      obtain ⟨pw, hpw, u, hu, h⟩ := h
      cases h
      refine ⟨hs.erase _, weights_of_row pw.val 0 (fun id => ?_) ht ?_⟩
      · have hera := weightOf_erase table (groupId, addrKey addr) id
        rw [part_of_some _ hrow, value_of_positive hpw] at hera
        simpa using hera
      · rw [subNonNegative_val hu, add_zero]
  · rw [if_neg hzero] at h
    have hwpos : 0 < w.val := by
      rcases hwnonneg.lt_or_eq with hlt | heq
      · exact hlt
      · exact absurd (w.val_eq_zero_iff.mp heq.symm) hzero
    have hpos : Positive m.weight := ⟨w, hweight, hwpos⟩
    cases hrow : table[(groupId, addrKey addr)]? with
    | none =>
      simp only [hrow, bind_eq_ok] at h
      obtain ⟨u, hu, h⟩ := h
      cases h
      refine ⟨hs.insert hpos hid, weights_of_row 0 w.val (fun id => ?_) ht ?_⟩
      · have hins := hins id
        rw [part_of_none _ hrow, hvalue] at hins
        simpa using hins
      · rw [decAdd_val hu, sub_zero]
    | some prev =>
      simp only [hrow, bind_eq_ok] at h
      obtain ⟨pw, hpw, _, hu, _, hv, h⟩ := h
      cases h
      refine ⟨hs.insert hpos hid,
        weights_of_row pw.val w.val (fun id => ?_) ht ?_⟩
      · have hins := hins id
        rwa [part_of_some _ hrow, hvalue, value_of_positive hpw] at hins
      · rw [decAdd_val hv, subNonNegative_val hu]

theorem updateMembers_ok {updates : List (MemberRequest A)}
    (h : k.updateMembers groupId updates t table = .ok (t', table')) (hid : groupId ≤ groupSeq)
    (hs : Sound groupSeq table) (ht : t.val = weightOf table groupId) :
    Sound groupSeq table' ∧ t'.val = weightOf table' groupId ∧
      ∀ id, id ≠ groupId → weightOf table' id = weightOf table id := by
  induction updates generalizing t table <;> grind [updateMembers, bind_eq_ok, updateMember_ok]

end Keeper

end CosmosSDK.Group
