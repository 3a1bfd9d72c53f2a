import CosmosSDK.Collections.IndexedMap
import CosmosSDK.Lib.Mirror

/-!
# Exact indexes

After calls that succeed, each index of an indexed map mirrors the map: it has one entry for
each stored primary key.  The keys of the map and of the indexes have to be such that the codecs
read them back.
-/

namespace CosmosSDK.Collections

open Store Math OrderedKV Coding Fallible List Function Index List.Forall₂ Except

variable {K K1 K2 V PK RK : Type}

/-! ## Encoded keys -/

variable {kc : KeyCodec K} {key : K} {b start : Bytes} {c1 : LawfulCodec K1} {c2 : LawfulCodec K2}
  {k1 : K1} {k2 : K2}

theorem encodeKey_ok (h : encodeKey kc key = .ok b) : ∃ n, kc.encoding true key = .ok (n, b) := by
  unfold encodeKey at h
  obtain ⟨_, hlift, h⟩ := bind_eq_ok.mp h
  cases h
  cases hencode : kc.encoding true key with
  | ok =>
    rw [hencode] at hlift
    cases hlift
    exact ⟨_, rfl⟩
  | error fault =>
    rw [hencode] at hlift
    cases fault <;> simp [liftCodec] at hlift

theorem readKey_encodeKey {good : Bool → K → Prop} (hlawful : Lawful kc good)
    (h : encodeKey kc key = .ok b) (hgood : good true key) : readKey kc b = .ok key := by
  obtain ⟨_, hencode⟩ := encodeKey_ok h
  obtain ⟨rfl, _, hreads⟩ := (hlawful true key).of_ok hencode
  have hread : kc.decode b = .ok (b.length, key) := by
    have hread := hreads.read hgood [] (fun _ => rfl)
    rwa [append_nil] at hread
  unfold readKey
  rw [hread]
  simp [liftCodec]

theorem encodeKey_pair (h : encodeKey (pairKeyCodec c1.codec c2.codec) (join k1 k2) = .ok b) :
    ∃ out1 out2, b = out1 ++ out2 ∧
      Fills (c1.codec.encodeNonTerminal k1) (c1.codec.sizeNonTerminal k1) out1 ∧
      ReadsBack c1.codec.decodeNonTerminal out1 k1 false (c1.good false k1) := by
  obtain ⟨_, hencode⟩ := encodeKey_ok h
  cases c1.lawful false k1 with
  | inl hrefuses1 => exact absurd hencode hrefuses1.andThen_left.ne_ok
  | inr hcodes1 =>
    obtain ⟨out1, hfills1, hreads1⟩ := hcodes1
    cases c2.lawful true k2 with
    | inl hrefuses2 => exact absurd hencode (hrefuses2.andThen_right hfills1).ne_ok
    | inr hcodes2 =>
      obtain ⟨out2, hfills2, _⟩ := hcodes2
      have hwrite := (Fills.andThen hfills1 hfills2).write []
      rw [append_nil, append_nil] at hwrite
      have hb := (Prod.mk.inj (ok.inj (hencode.symm.trans hwrite))).2
      exact ⟨out1, out2, hb, hfills1, hreads1⟩

theorem encodeKey_first (h : encodeKey (pairKeyCodec c1.codec c2.codec) ⟨some k1, none⟩ = .ok start) :
    Fills (c1.codec.encodeNonTerminal k1) (c1.codec.sizeNonTerminal k1) start ∧
      ReadsBack c1.codec.decodeNonTerminal start k1 false (c1.good false k1) := by
  obtain ⟨_, hencode⟩ := encodeKey_ok h
  cases c1.lawful false k1 with
  | inl hrefuses => exact absurd hencode hrefuses.andThen_left.ne_ok
  | inr hcodes =>
    obtain ⟨_, hfills, hreads⟩ := hcodes
    have hnothing : Fills (nothing : Writer (Fault CodecErr)) 0 [] := ⟨rfl, fun _ => rfl⟩
    have hwrite := (Fills.andThen hfills hnothing).write []
    rw [append_nil, append_nil] at hwrite
    have hstart := (Prod.mk.inj (ok.inj (hencode.symm.trans hwrite))).2
    rw [append_nil] at hstart
    exact hstart ▸ ⟨hfills, hreads⟩

theorem extends_iff {k1' : K1}
    (hstart : encodeKey (pairKeyCodec c1.codec c2.codec) ⟨some k1, none⟩ = .ok start)
    (hb : encodeKey (pairKeyCodec c1.codec c2.codec) (join k1' k2) = .ok b)
    (hgood : c1.good false k1) (hgood' : c1.good false k1') : start <+: b ↔ k1' = k1 := by
  obtain ⟨hfills, hreads⟩ := encodeKey_first hstart
  obtain ⟨_, out2, rfl, hfills1, hreads1⟩ := encodeKey_pair hb
  constructor
  · intro hextends
    obtain ⟨rest, hrest⟩ := hextends
    have hread := hreads.read hgood rest (by simp)
    have hread' := hreads1.read hgood' out2 (by simp)
    rw [hrest, hread'] at hread
    exact (Prod.mk.inj (ok.inj hread)).2
  · intro heq
    subst heq
    have hwrite := hfills.write []
    rw [hfills1.write [], append_nil, append_nil] at hwrite
    rw [(Prod.mk.inj (ok.inj hwrite)).2]
    exact prefix_append start out2

/-! ## Iterators -/

def Bounded (prefixBytes : Bytes) : Prop := ∃ b ∈ prefixBytes, b ≠ 255

instance (prefixBytes : Bytes) : Decidable (Bounded prefixBytes) :=
  inferInstanceAs (Decidable (∃ b ∈ prefixBytes, b ≠ 255))

theorem iterate_of_bounded {prefixBytes : Bytes} (h : Bounded prefixBytes) (start : Bytes)
    (entries : Entries) : iterate prefixBytes start entries =
      .ok (entries.toList.filter (fun e => start.isPrefixOf e.1)) := by
  obtain ⟨b, hb, hne⟩ := h
  obtain ⟨stop, hstop⟩ : ∃ stop, prefixEndBytes (prefixBytes ++ start) = some stop :=
    prefixEndBytes_isSome ⟨b, mem_append_left start hb, hne⟩
  have hlt : compare (prefixBytes ++ start) stop = .lt := by
    have hbefore := (beforeStop_prefixEndBytes (prefixBytes ++ start) (prefixBytes ++ start)).mpr
      (.inr (prefix_refl _))
    rw [hstop] at hbefore
    simpa [beforeStop] using hbefore
  unfold iterate
  rw [hstop, Option.getD_some, hlt, if_neg (by simp), ← hstop]
  congr 1
  apply filter_congr
  intro e _
  rw [Bool.eq_iff_iff, inRange_prefixEndBytes, startsWith_iff, prefix_append_right_inj]

/-! ## The entries of an index -/

namespace Index

def entry (pk : PK) (value : V) : Index PK V → Result CollErr (Bytes × Bytes)
  | multi prefixBytes refCodec pkCodec getRefKey => do
      let refKey ← getRefKey pk value
      let b ← encodeKey (multiKeys prefixBytes refCodec pkCodec).kc (join refKey pk)
      .ok (b, [])
  | unique prefixBytes refCodec pkCodec getRefKey => do
      let refKey ← getRefKey pk value
      let b ← encodeKey (uniqueKeys prefixBytes refCodec pkCodec).kc refKey
      let w ← encodeKey pkCodec.codec pk
      .ok (b, w)
  | reversePair prefixBytes keyCodec1 keyCodec2 zero1 zero2 pair => do
      let b ← encodeKey (multiKeys prefixBytes keyCodec2 keyCodec1).kc (reversed zero1 zero2 (pair pk))
      .ok (b, [])

/-- A primary key that the index reads back. -/
def GoodKey (pk : PK) : Index PK V → Prop
  | multi _ _ pkCodec _ => pkCodec.good true pk
  | unique _ _ pkCodec _ => pkCodec.good true pk
  | reversePair _ keyCodec1 keyCodec2 _ _ pair =>
    ∃ k1 k2, pair pk = join k1 k2 ∧ keyCodec1.good true k1 ∧ keyCodec2.good false k2

def GoodRef : (index : Index PK V) → index.RefKey → Prop
  | multi _ refCodec _ _, refKey => refCodec.good false refKey
  | unique _ refCodec _ _, refKey => refCodec.good true refKey
  | reversePair _ _ keyCodec2 _ _ _, refKey => keyCodec2.good false refKey

def Good (index : Index PK V) (pk : PK) (value : V) : Prop :=
  index.GoodKey pk ∧ ∀ refKey, index.refKey pk value = .ok refKey → index.GoodRef refKey

variable {prefixBytes b w : Bytes} {refCodec : LawfulCodec RK} {pkCodec : LawfulCodec PK}
  {getRefKey : PK → V → Result CollErr RK} {pk : PK} {value : V} {e : Bytes × Bytes}
  {index : Index PK V} {contents : PK → Option V} {entries entries' : Entries} {m : Map K V}
  {key : K}

theorem multi_entry_ok (h : (multi prefixBytes refCodec pkCodec getRefKey).entry pk value = .ok e) :
    ∃ refKey, getRefKey pk value = .ok refKey ∧
      encodeKey (pairKeyCodec refCodec.codec pkCodec.codec) (join refKey pk) = .ok e.1 ∧ e.2 = [] := by
  simp only [entry] at h
  obtain ⟨refKey, href, h⟩ := bind_eq_ok.mp h
  obtain ⟨_, hb, h⟩ := bind_eq_ok.mp h
  cases h
  exact ⟨refKey, href, hb, rfl⟩

theorem unique_entry_ok (h : (unique prefixBytes refCodec pkCodec getRefKey).entry pk value = .ok e) :
    ∃ refKey, getRefKey pk value = .ok refKey ∧ encodeKey refCodec.codec refKey = .ok e.1 ∧
      encodeKey pkCodec.codec pk = .ok e.2 := by
  simp only [entry] at h
  obtain ⟨refKey, href, h⟩ := bind_eq_ok.mp h
  obtain ⟨_, hb, h⟩ := bind_eq_ok.mp h
  obtain ⟨_, hw, h⟩ := bind_eq_ok.mp h
  cases h
  exact ⟨refKey, href, hb, hw⟩

theorem reversePair_entry_ok {keyCodec1 : LawfulCodec K1} {keyCodec2 : LawfulCodec K2} {zero1 : K1}
    {zero2 : K2} {pair : PK ≃ Pair K1 K2}
    (h : (reversePair prefixBytes keyCodec1 keyCodec2 zero1 zero2 pair).entry pk value = .ok e) :
    encodeKey (pairKeyCodec keyCodec2.codec keyCodec1.codec) (reversed zero1 zero2 (pair pk)) =
      .ok e.1 ∧ e.2 = [] := by
  simp only [entry] at h
  obtain ⟨_, hb, h⟩ := bind_eq_ok.mp h
  cases h
  exact ⟨hb, rfl⟩

theorem fullKey_entry (hgood : index.Good pk value) (h : index.entry pk value = .ok e) :
    ∃ refKey, index.refKey pk value = .ok refKey ∧ index.fullKey e = .ok (refKey, pk) := by
  cases index with
  | multi prefixBytes refCodec pkCodec =>
    obtain ⟨refKey, href, hb, _⟩ := multi_entry_ok h
    have hread := readKey_encodeKey (pairKeyCodec_lawful refCodec.lawful pkCodec.lawful) hb
      ⟨hgood.2 refKey href, hgood.1⟩
    refine ⟨refKey, href, ?_⟩
    simp only [fullKey]
    exact bind_eq_ok.mpr ⟨_, hread, rfl⟩
  | unique prefixBytes refCodec pkCodec =>
    obtain ⟨refKey, href, hb, hw⟩ := unique_entry_ok h
    have hkey := readKey_encodeKey refCodec.lawful hb (hgood.2 refKey href)
    have hvalue := readKey_encodeKey pkCodec.lawful hw hgood.1
    refine ⟨refKey, href, ?_⟩
    simp only [fullKey, Map.keyValue]
    exact bind_eq_ok.mpr ⟨_, hkey, bind_eq_ok.mpr ⟨_, hvalue, rfl⟩⟩
  | reversePair prefixBytes keyCodec1 keyCodec2 zero1 zero2 pair =>
    obtain ⟨hb, _⟩ := reversePair_entry_ok h
    obtain ⟨k1, k2, hpair, hgood1, hgood2⟩ := hgood.1
    have hreversed : reversed zero1 zero2 (pair pk) = join k2 k1 := by rw [hpair]; rfl
    rw [hreversed] at hb
    have hread := readKey_encodeKey (pairKeyCodec_lawful keyCodec2.lawful keyCodec1.lawful) hb
      ⟨hgood2, hgood1⟩
    have hpk : pair.symm (join k1 k2) = pk := by rw [← hpair, Equiv.symm_apply_apply]
    refine ⟨k2, by simp only [refKey, hpair]; rfl, ?_⟩
    simp only [fullKey]
    exact bind_eq_ok.mpr ⟨_, hread, bind_eq_ok.mpr ⟨(k2, k1), rfl, by rw [hpk]⟩⟩

def IsUnique : Index PK V → Prop
  | unique _ _ _ _ => True
  | _ => False

theorem entry_snd (hset : ¬ index.IsUnique) (h : index.entry pk value = .ok (b, w)) : w = [] := by
  cases index with
  | multi =>
    obtain ⟨_, _, _, hw⟩ := multi_entry_ok h
    exact hw
  | unique => exact absurd trivial hset
  | reversePair =>
    exact (reversePair_entry_ok h).2

theorem free_of_set (hset : ¬ index.IsUnique)
    (h : Mirrors (fun pk value => index.entry pk value) contents entries)
    (hgood : ∀ pk value, contents pk = some value → index.Good pk value) (hpk : index.Good pk value)
    (habsent : contents pk = none) (hentry : index.entry pk value = .ok (b, w)) :
    entries[b]? = none := by
  cases hlookup : entries[b]? with
  | none => rfl
  | some w' =>
    obtain ⟨pk', value', hpk', hentry'⟩ := (h.lookup b w').mp hlookup
    have hw := entry_snd hset hentry
    have hw' := entry_snd hset hentry'
    subst hw hw'
    obtain ⟨_, _, hread⟩ := fullKey_entry hpk hentry
    obtain ⟨_, _, hread'⟩ := fullKey_entry (hgood pk' value' hpk') hentry'
    rw [hread] at hread'
    have heq := (Prod.mk.inj (ok.inj hread')).2
    rw [heq, hpk'] at habsent
    simp at habsent

theorem set_ok (h : m.set key value entries = .ok entries') :
    ∃ b w, encodeKey m.kc key = .ok b ∧ m.vc.encode value = .ok w ∧ entries' = entries.insert b w := by
  unfold Map.set at h
  obtain ⟨b, hb, h⟩ := bind_eq_ok.mp h
  obtain ⟨w, hw, h⟩ := bind_eq_ok.mp h
  exact ⟨b, w, hb, hw, (ok.inj h).symm⟩

theorem remove_ok (h : m.remove key entries = .ok entries') :
    ∃ b, encodeKey m.kc key = .ok b ∧ entries' = entries.erase b := by
  unfold Map.remove at h
  obtain ⟨b, hb, h⟩ := bind_eq_ok.mp h
  exact ⟨b, hb, (ok.inj h).symm⟩

theorem reference_new
    (h : index.reference pk value (.error (.error .notFound)) entries = .ok entries') :
    ∃ b w, index.entry pk value = .ok (b, w) ∧ entries' = entries.insert b w ∧
      (index.IsUnique → entries[b]? = none) := by
  cases index with
  | multi =>
    simp only [reference, ok_bind] at h
    obtain ⟨_, href, h⟩ := bind_eq_ok.mp h
    obtain ⟨b, w, hb, hw, heq⟩ := set_ok h
    cases hw
    exact ⟨b, [], by simp [entry, href, hb], heq, False.elim⟩
  | unique prefixBytes refCodec pkCodec =>
    simp only [reference, ok_bind] at h
    obtain ⟨_, href, h⟩ := bind_eq_ok.mp h
    obtain ⟨has, hhas, h⟩ := bind_eq_ok.mp h
    obtain ⟨hfree, h⟩ := refuse_eq_ok.mp h
    obtain ⟨b, w, hb, hw, heq⟩ := set_ok h
    have hw : encodeKey pkCodec.codec pk = .ok w := hw
    refine ⟨b, w, by simp [entry, href, hb, hw], heq, fun _ => ?_⟩
    unfold Map.has at hhas
    rw [hb, ok_bind] at hhas
    cases hhas
    simpa using hfree
  | reversePair =>
    simp only [reference] at h
    obtain ⟨b, _, hb, hw, heq⟩ := set_ok h
    cases hw
    exact ⟨b, [], by simp [entry, hb], heq, False.elim⟩

/-- `Reference` of a value in place of another: the entry of the old one is erased first. -/
theorem reference_old {oldValue : V}
    (h : index.reference pk value (.ok oldValue) entries = .ok entries') :
    ∃ b0 w0, index.entry pk oldValue = .ok (b0, w0) ∧
      index.reference pk value (.error (.error .notFound)) (entries.erase b0) = .ok entries' := by
  cases index with
  | multi =>
    simp only [reference] at h
    obtain ⟨_, hold, h⟩ := bind_eq_ok.mp h
    obtain ⟨_, herased, h⟩ := bind_eq_ok.mp h
    obtain ⟨b0, hb0, rfl⟩ := remove_ok herased
    exact ⟨b0, [], by simp [entry, hold, hb0],
      by simp only [reference, ok_bind]; exact h⟩
  | unique prefixBytes refCodec pkCodec getRefKey =>
    simp only [reference] at h
    obtain ⟨_, hold, h⟩ := bind_eq_ok.mp h
    obtain ⟨_, herased, h⟩ := bind_eq_ok.mp h
    obtain ⟨b0, hb0, rfl⟩ := remove_ok herased
    have hnew : (unique prefixBytes refCodec pkCodec getRefKey).reference pk value
        (.error (.error .notFound)) (entries.erase b0) = .ok entries' := by
      simp only [reference, ok_bind]
      exact h
    obtain ⟨b, w, hentry, _, _⟩ := reference_new hnew
    -- the primary key was encoded for the new entry
    obtain ⟨_, _, _, hw⟩ := unique_entry_ok hentry
    exact ⟨b0, w, by simp [entry, hold, hb0, hw], hnew⟩
  | reversePair =>
    simp only [reference] at h
    obtain ⟨b, _, hb, hw, rfl⟩ := set_ok h
    refine ⟨b, [], by simp [entry, hb], ?_⟩
    simp [reference, Map.set, hb, hw, insert_erase_self]

section

variable [DecidableEq PK]
  {index : Index PK V} {contents : PK → Option V} {entries entries' : Entries} {pk : PK}
  {value : V}

section

variable (hmirrors : Mirrors (fun pk value => index.entry pk value) contents entries)
include hmirrors

theorem mirrors_reference_new
    (hgood : ∀ pk value, contents pk = some value → index.Good pk value) (hpk : index.Good pk value)
    (habsent : contents pk = none)
    (h : index.reference pk value (.error (.error .notFound)) entries = .ok entries') :
    Mirrors (fun pk value => index.entry pk value) (update contents pk (some value)) entries' := by
  obtain ⟨_, _, hentry, rfl, hunique⟩ := reference_new h
  refine hmirrors.insert hentry habsent ?_
  by_cases hset : index.IsUnique
  · exact hunique hset
  · exact free_of_set hset hmirrors hgood hpk habsent hentry

theorem mirrors_reference_old {oldValue : V}
    (hgood : ∀ pk value, contents pk = some value → index.Good pk value) (hpk : index.Good pk value)
    (hold : contents pk = some oldValue)
    (h : index.reference pk value (.ok oldValue) entries = .ok entries') :
    Mirrors (fun pk value => index.entry pk value) (update contents pk (some value)) entries' := by
  obtain ⟨_, _, hentry, hnew⟩ := reference_old h
  have hgood' : ∀ pk' value', update contents pk none pk' = some value' →
      index.Good pk' value' :=
    fun pk' value' hpk' => hgood pk' value' ((update_eq_some.mp hpk').resolve_left (by simp)).2
  have hmirrors' := mirrors_reference_new (hmirrors.erase hold hentry) hgood' hpk (by simp) hnew
  rwa [update_idem] at hmirrors'

theorem mirrors_unreference (hvalue : contents pk = some value)
    (h : index.unreference pk (.ok value) entries = .ok entries') :
    Mirrors (fun pk value => index.entry pk value) (update contents pk none) entries' := by
  obtain ⟨⟨b, _⟩, hentry⟩ := hmirrors.computed pk value hvalue
  suffices herased : entries' = entries.erase b by
    rw [herased]
    exact hmirrors.erase hvalue hentry
  cases index with
  | multi =>
    simp only [unreference, ok_bind] at h
    obtain ⟨_, href, hb, _⟩ := multi_entry_ok hentry
    rw [href, ok_bind] at h
    obtain ⟨b', hb', rfl⟩ := remove_ok h
    rw [ok.inj (hb'.symm.trans hb)]
  | unique =>
    simp only [unreference, ok_bind] at h
    obtain ⟨_, href, hb, _⟩ := unique_entry_ok hentry
    rw [href, ok_bind] at h
    obtain ⟨_, hb', rfl⟩ := remove_ok h
    rw [ok.inj (hb'.symm.trans hb)]
  | reversePair =>
    simp only [unreference] at h
    obtain ⟨hb, _⟩ := reversePair_entry_ok hentry
    obtain ⟨_, hb', rfl⟩ := remove_ok h
    rw [ok.inj (hb'.symm.trans hb)]

end

end

/-- Without a value only the index of a reversed pair lets a removal succeed; it has no entry to
remove. -/
theorem mirrors_unreference_absent
    (hmirrors : Mirrors (fun pk value => index.entry pk value) contents entries)
    (hgood : ∀ pk value, contents pk = some value → index.Good pk value) (hpk : index.GoodKey pk)
    (habsent : contents pk = none)
    (h : index.unreference pk (.error (.error .notFound)) entries = .ok entries') :
    entries' = entries := by
  cases index with
  | multi prefixBytes refCodec pkCodec getRefKey | unique prefixBytes refCodec pkCodec getRefKey =>
    simp [unreference] at h
  | reversePair prefixBytes keyCodec1 keyCodec2 zero1 zero2 pair =>
    simp only [unreference] at h
    obtain ⟨b, hb, rfl⟩ := remove_ok h
    have hentry (value : V) : (reversePair prefixBytes keyCodec1 keyCodec2 zero1 zero2 pair).entry
        pk value = .ok (b, []) := by simp [entry, hb]
    have hpk' (value : V) : (reversePair prefixBytes keyCodec1 keyCodec2 zero1 zero2 pair).Good
        pk value := by
      refine ⟨hpk, fun refKey href => ?_⟩
      obtain ⟨_, _, hpair, _, hgood2⟩ := hpk
      simp only [Index.refKey, hpair] at href
      cases href
      exact hgood2
    have hfree : entries[b]? = none := by
      cases hlookup : entries[b]? with
      | none => rfl
      | some w =>
        obtain ⟨_, value, _, _⟩ := (hmirrors.lookup b w).mp hlookup
        rw [← hlookup]
        exact free_of_set id hmirrors hgood (hpk' value) habsent (hentry value)
    exact erase_of_absent hfree

/-! ## What an index returns -/

/-- The reference key can be encoded for a lookup. -/
def Encodable : (index : Index PK V) → index.RefKey → Prop
  | multi prefixBytes refCodec pkCodec _, refKey =>
    ∃ start, encodeKey (multiKeys prefixBytes refCodec pkCodec).kc ⟨some refKey, none⟩ = .ok start
  | unique prefixBytes refCodec pkCodec _, refKey =>
    ∃ b, encodeKey (uniqueKeys prefixBytes refCodec pkCodec).kc refKey = .ok b
  | reversePair prefixBytes keyCodec1 keyCodec2 _ _ _, refKey =>
    ∃ start, encodeKey (multiKeys prefixBytes keyCodec2 keyCodec1).kc ⟨some refKey, none⟩ = .ok start

/-- The index has exactly one key for each key of the map, and a lookup returns exactly the
primary keys whose value has the reference key. -/
structure Exact (kvs : List (PK × V)) (index : Index PK V) (entries : Entries) : Prop where
  fullKeys : ∃ keys, index.fullKeys entries = .ok keys ∧
    (keys.map Prod.snd).Perm (kvs.map Prod.fst) ∧
    ∀ key ∈ keys, ∃ value, (key.2, value) ∈ kvs ∧ index.refKey key.2 value = .ok key.1
  matchExact : ∀ refKey, index.GoodRef refKey → index.Encodable refKey →
    ∃ pks, index.matchExact entries refKey = .ok pks ∧ pks.Nodup ∧
      ∀ pk, pk ∈ pks ↔ ∃ value, (pk, value) ∈ kvs ∧ index.refKey pk value = .ok refKey

section Returns

variable {index : Index PK V} {contents : PK → Option V} {entries : Entries}
  (hmirrors : Mirrors (fun pk value => index.entry pk value) contents entries)
  (hgood : ∀ pk value, contents pk = some value → index.Good pk value)
  (hbounded : Bounded index.prefixBytes)

include hmirrors hgood hbounded

theorem iterate_fullKey (start : Bytes) :
    ∃ iter keys, iterate index.prefixBytes start entries = .ok iter ∧
      iter.mapM index.fullKey = .ok keys ∧ (keys.map Prod.snd).Nodup ∧
      ∀ refKey pk, (refKey, pk) ∈ keys ↔ ∃ value b w, contents pk = some value ∧
        index.refKey pk value = .ok refKey ∧ index.entry pk value = .ok (b, w) ∧ start <+: b := by
  obtain ⟨keys, hkeys, hnodup, hmem⟩ := hmirrors.read index.fullKey Prod.snd
    (fun pk value e hpk hentry => by
      obtain ⟨refKey, _, hread⟩ := fullKey_entry (hgood pk value hpk) hentry
      exact ⟨(refKey, pk), hread, rfl⟩) fun b => start.isPrefixOf b
  refine ⟨_, keys, iterate_of_bounded hbounded start entries, hkeys, hnodup, fun refKey pk => ?_⟩
  rw [hmem]
  constructor
  · intro hkey
    obtain ⟨pk', value, ⟨b, w⟩, hpk', hentry, hstart, hread⟩ := hkey
    obtain ⟨_, href, hread'⟩ := fullKey_entry (hgood pk' value hpk') hentry
    rw [hread] at hread'
    cases hread'
    exact ⟨value, b, w, hpk', href, hentry, startsWith_iff.mp hstart⟩
  · intro hkey
    obtain ⟨value, b, w, hpk, href, hentry, hstart⟩ := hkey
    obtain ⟨_, href', hread⟩ := fullKey_entry (hgood pk value hpk) hentry
    rw [href] at href'
    cases href'
    exact ⟨pk, value, (b, w), hpk, hentry, startsWith_iff.mpr hstart, hread⟩

variable {refKey : index.RefKey}

theorem primaryKeys_exact
    (hextends : ∀ pk value refKey' b w, contents pk = some value → index.refKey pk value = .ok refKey' →
      index.entry pk value = .ok (b, w) → (start <+: b ↔ refKey' = refKey)) :
    ∃ pks, index.primaryKeys start entries = .ok pks ∧ pks.Nodup ∧
      ∀ pk, pk ∈ pks ↔ ∃ value, contents pk = some value ∧ index.refKey pk value = .ok refKey := by
  obtain ⟨_, keys, hiter, hkeys, hnodup, hmem⟩ := iterate_fullKey hmirrors hgood hbounded start
  refine ⟨keys.map Prod.snd, ?_, hnodup, fun pk => ?_⟩
  · unfold primaryKeys
    rw [hiter, ok_bind, hkeys, ok_bind]
  · constructor
    · intro hpk
      obtain ⟨⟨refKey', pk'⟩, hkey, rfl⟩ := mem_map.mp hpk
      obtain ⟨value, b, w, hcontents, href, hentry, hstart⟩ := (hmem refKey' pk').mp hkey
      have heq := (hextends pk' value refKey' b w hcontents href hentry).mp hstart
      exact ⟨value, hcontents, heq ▸ href⟩
    · intro hpk
      obtain ⟨value, hcontents, href⟩ := hpk
      obtain ⟨⟨b, w⟩, hentry⟩ := hmirrors.computed pk value hcontents
      have hstart := (hextends pk value refKey b w hcontents href hentry).mpr rfl
      exact mem_map.mpr ⟨(refKey, pk), (hmem refKey pk).mpr
        ⟨value, b, w, hcontents, href, hentry, hstart⟩, rfl⟩

theorem matchExact_exact (href : index.GoodRef refKey) (hencodable : index.Encodable refKey) :
    ∃ pks, index.matchExact entries refKey = .ok pks ∧ pks.Nodup ∧
      ∀ pk, pk ∈ pks ↔ ∃ value, contents pk = some value ∧ index.refKey pk value = .ok refKey := by
  cases index with
  | multi =>
    obtain ⟨_, hstart⟩ := hencodable
    simp only [matchExact, hstart, ok_bind]
    apply primaryKeys_exact hmirrors hgood hbounded
    intro pk value refKey' b w hcontents href' hentry
    have hrefGood := (hgood pk value hcontents).2 refKey' href'
    obtain ⟨_, href'', hb, _⟩ := multi_entry_ok hentry
    obtain rfl := ok.inj (href'.symm.trans href'')
    exact extends_iff hstart hb href hrefGood
  | unique prefixBytes refCodec pkCodec getRefKey =>
    obtain ⟨b, hb⟩ := hencodable
    have hmem {pk : PK} {value : V} {w : Bytes} (hcontents : contents pk = some value)
        (hentry : (unique prefixBytes refCodec pkCodec getRefKey).entry pk value = .ok (b, w)) :
        getRefKey pk value = .ok refKey ∧ readKey pkCodec.codec w = .ok pk := by
      have hkeys := hgood pk value hcontents
      obtain ⟨refKey', href', hb', hw'⟩ := unique_entry_ok hentry
      have hread := readKey_encodeKey refCodec.lawful hb href
      have hread' := readKey_encodeKey refCodec.lawful hb' (hkeys.2 refKey' href')
      rw [hread] at hread'
      cases hread'
      exact ⟨href', readKey_encodeKey pkCodec.lawful hw' hkeys.1⟩
    have hkey {pk : PK} {value : V} {b' w : Bytes} (hcontents : contents pk = some value)
        (href' : getRefKey pk value = .ok refKey)
        (hentry : (unique prefixBytes refCodec pkCodec getRefKey).entry pk value = .ok (b', w)) :
        b = b' := by
      obtain ⟨refKey', href'', hb', _⟩ := unique_entry_ok hentry
      obtain rfl := ok.inj (href'.symm.trans href'')
      exact ok.inj (hb.symm.trans hb')
    simp only [matchExact, Map.get, hb, ok_bind]
    cases hlookup : entries[b]? with
    | none =>
      refine ⟨[], rfl, nodup_nil, fun pk => ⟨by simp, fun hpk => ?_⟩⟩
      obtain ⟨value, hcontents, href'⟩ := hpk
      obtain ⟨⟨b', w⟩, hentry⟩ := hmirrors.computed pk value hcontents
      have hlookup' := (hmirrors.lookup b' w).mpr ⟨pk, value, hcontents, hentry⟩
      rw [← hkey hcontents href' hentry, hlookup] at hlookup'
      simp at hlookup'
    | some w =>
      obtain ⟨pk, value, hcontents, hentry⟩ := (hmirrors.lookup b w).mp hlookup
      obtain ⟨href', hread⟩ := hmem hcontents hentry
      have hdecode : (keyToValueCodec pkCodec.codec).decode w = .ok pk := hread
      refine ⟨[pk], by simp only [uniqueKeys, hdecode], nodup_singleton pk, fun pk' => ?_⟩
      rw [mem_singleton]
      constructor
      · intro heq
        exact heq ▸ ⟨value, hcontents, href'⟩
      · intro hpk'
        obtain ⟨value', hcontents', href''⟩ := hpk'
        obtain ⟨⟨_, w'⟩, hentry'⟩ := hmirrors.computed pk' value' hcontents'
        obtain rfl := hkey hcontents' href'' hentry'
        exact hmirrors.separated pk' value' pk value b w' w hcontents' hcontents hentry' hentry
  | reversePair prefixBytes keyCodec1 keyCodec2 zero1 zero2 pair =>
    obtain ⟨_, hstart⟩ := hencodable
    simp only [matchExact, hstart, ok_bind]
    apply primaryKeys_exact hmirrors hgood hbounded
    intro pk value refKey' b w hcontents href' hentry
    have hrefGood := (hgood pk value hcontents).2 refKey' href'
    have href' : (ok ((pair pk).key2.getD zero2) : Result CollErr _) = .ok refKey' := href'
    cases href'
    exact extends_iff hstart (reversePair_entry_ok hentry).1 href hrefGood

theorem exact_of_mirrors {kvs : List (PK × V)} (hnodup : (kvs.map Prod.fst).Nodup)
    (hkvs : ∀ pk value, (pk, value) ∈ kvs ↔ contents pk = some value) : Exact kvs index entries := by
  have hcontents (pk : PK) : pk ∈ kvs.map Prod.fst ↔ ∃ value, contents pk = some value := by
    simp [← hkvs]
  constructor
  · obtain ⟨_, keys, hiter, hkeys, hkeysNodup, hmem⟩ :=
      iterate_fullKey hmirrors hgood hbounded []
    refine ⟨keys, by unfold fullKeys; rw [hiter, ok_bind, hkeys], ?_, ?_⟩
    · rw [perm_ext_iff_of_nodup hkeysNodup hnodup]
      intro pk
      rw [hcontents, mem_map]
      constructor
      · intro hpk
        obtain ⟨⟨refKey, pk'⟩, hkey, rfl⟩ := hpk
        obtain ⟨value, _, _, hvalue, _⟩ := (hmem refKey pk').mp hkey
        exact ⟨value, hvalue⟩
      · intro hpk
        obtain ⟨value, hvalue⟩ := hpk
        obtain ⟨⟨b, w⟩, hentry⟩ := hmirrors.computed pk value hvalue
        obtain ⟨refKey, href, _⟩ := fullKey_entry (hgood pk value hvalue) hentry
        exact ⟨(refKey, pk), (hmem refKey pk).mpr
          ⟨value, b, w, hvalue, href, hentry, nil_prefix⟩, rfl⟩
    · intro key hkey
      obtain ⟨value, _, _, hvalue, href, _⟩ := (hmem key.1 key.2).mp hkey
      exact ⟨value, (hkvs key.2 value).mpr hvalue, href⟩
  · intro refKey href hencodable
    obtain ⟨pks, hpks, hpksNodup, hmem⟩ := matchExact_exact hmirrors hgood hbounded href hencodable
    refine ⟨pks, hpks, hpksNodup, fun pk => ?_⟩
    simp only [hmem, hkvs]

end Returns

end Index

/-! ## Every run -/

namespace IndexedMap

def entry (im : IndexedMap PK V) (pk : PK) (value : V) : Result CollErr (Bytes × Bytes) := do
  let b ← encodeKey im.pkCodec.codec pk
  let w ← im.valueCodec.encode value
  .ok (b, w)

/-- The keys of a call are read back. -/
def Good (im : IndexedMap PK V) : Op PK V → Prop
  | .set pk value => im.pkCodec.good true pk ∧ ∀ index ∈ im.indexes, index.Good pk value
  | .remove pk => im.pkCodec.good true pk ∧ ∀ index ∈ im.indexes, index.GoodKey pk

/-- The map and all indexes mirror the same contents. -/
structure Inv (im : IndexedMap PK V) (contents : PK → Option V) (s : State) : Prop where
  primary : Mirrors im.entry contents s.primary
  good : ∀ pk value, contents pk = some value → im.pkCodec.good true pk
  indexes : List.Forall₂ (fun index entries =>
    Mirrors (fun pk value => Index.entry pk value index) contents entries ∧
      ∀ pk value, contents pk = some value → index.Good pk value) im.indexes s.indexes

variable {im : IndexedMap PK V} {contents : PK → Option V} {s s' : State}

theorem inv_empty : im.Inv (fun _ => none) im.empty := by
  refine ⟨mirrors_empty, by simp, ?_⟩
  show List.Forall₂ _ im.indexes (im.indexes.map _)
  rw [forall₂_map_right_iff, forall₂_same]
  exact fun index _ => ⟨mirrors_empty, by simp⟩

variable {pk : PK} {P Q : Index PK V → Entries → Prop}
  {indexes : List (Index PK V)} {entries entries' : List Entries}

theorem entry_ok {value : V} {e : Bytes × Bytes} (h : im.entry pk value = .ok e) :
    encodeKey im.pkCodec.codec pk = .ok e.1 ∧ im.valueCodec.encode value = .ok e.2 := by
  obtain ⟨_, hb, h⟩ := bind_eq_ok.mp h
  obtain ⟨_, hw, h⟩ := bind_eq_ok.mp h
  cases h
  exact ⟨hb, hw⟩

/-- Different good keys have different encodings, so that a key tells its value. -/
theorem Inv.get (h : im.Inv contents s) (hgood : im.pkCodec.good true pk)
    (hb : encodeKey im.pkCodec.codec pk = .ok b) :
    (∃ value, contents pk = some value ∧ im.m.get pk s.primary = .ok value) ∨
      (contents pk = none ∧ im.m.get pk s.primary = .error (.error .notFound) ∧ s.primary[b]? = none) := by
  have hread := readKey_encodeKey im.pkCodec.lawful hb hgood
  cases hlookup : s.primary[b]? with
  | some w =>
    obtain ⟨pk', value, hcontents, hentry⟩ := (h.primary.lookup b w).mp hlookup
    obtain ⟨hb', hw⟩ := entry_ok hentry
    have hread' := readKey_encodeKey im.pkCodec.lawful hb' (h.good pk' value hcontents)
    rw [hread] at hread'
    cases hread'
    refine .inl ⟨value, hcontents, ?_⟩
    rw [im.m.get_of_some hb hlookup]
    exact im.decode_encode value w hw
  | none =>
    refine .inr ⟨?_, im.m.get_of_none hb hlookup, rfl⟩
    cases hcontents : contents pk with
    | none => rfl
    | some value =>
      obtain ⟨⟨b', w⟩, hentry⟩ := h.primary.computed pk value hcontents
      have hlookup' := (h.primary.lookup b' w).mpr ⟨pk, value, hcontents, hentry⟩
      obtain rfl : b = b' := ok.inj (hb.symm.trans (entry_ok hentry).1)
      rw [hlookup] at hlookup'
      simp at hlookup'

theorem forall₂_walk {f : Index PK V → Entries → Result CollErr Entries}
    {walk : List (Index PK V) → List Entries → Result CollErr (List Entries)}
    (hnil : walk [] [] = .ok [])
    (hcons : ∀ index indexes e rest, walk (index :: indexes) (e :: rest) = do
      let e ← f index e
      let rest ← walk indexes rest
      .ok (e :: rest))
    (hP : List.Forall₂ P indexes entries) (h : walk indexes entries = .ok entries')
    (hstep : ∀ index ∈ indexes, ∀ e e', P index e → f index e = .ok e' → Q index e') :
    List.Forall₂ Q indexes entries' := by
  induction hP generalizing entries' with
  | nil =>
    rw [hnil] at h
    cases h
    exact nil
  | @cons index e indexes entries hindex _ ih =>
    rw [hcons] at h
    obtain ⟨e', he', h⟩ := bind_eq_ok.mp h
    obtain ⟨_, hrest', h⟩ := bind_eq_ok.mp h
    cases h
    exact cons (hstep index mem_cons_self e e' hindex he')
      (ih hrest' fun index' hmem => hstep index' (mem_cons_of_mem index hmem))

section

variable [DecidableEq PK] {pk : PK}

variable (h : im.Inv contents s)
include h

theorem Inv.set {value : V} (hgood : im.Good (.set pk value))
    (hset : im.set pk value s = .ok s') : im.Inv (update contents pk (some value)) s' := by
  unfold IndexedMap.set at hset
  obtain ⟨indexes, hindexes, hset⟩ := bind_eq_ok.mp hset
  obtain ⟨primary, hprimary, hset⟩ := bind_eq_ok.mp hset
  cases hset
  obtain ⟨b, w, hb, hw, rfl⟩ := set_ok hprimary
  have hb : encodeKey im.pkCodec.codec pk = .ok b := hb
  have hentry : im.entry pk value = .ok (b, w) := by
    unfold entry
    rw [hb, ok_bind, show im.valueCodec.encode value = .ok w from hw, ok_bind]
  have hgood' {P : PK → V → Prop} (hold : ∀ pk value, contents pk = some value → P pk value)
      (hnew : P pk value) :
      ∀ pk' value', update contents pk (some value) pk' = some value' → P pk' value' := by
    intro pk' value' hpk'
    rw [update_eq_some, Option.some.injEq] at hpk'
    cases hpk' with
    | inl hself =>
      obtain ⟨rfl, rfl⟩ := hself
      exact hnew
    | inr hother => exact hold pk' value' hother.2
  obtain ⟨oldValue, hcontents, hget⟩ | ⟨hcontents, hget, hfree⟩ := h.get hgood.1 hb
  · rw [hget] at hindexes
    obtain ⟨⟨b0, _⟩, hentry0⟩ := h.primary.computed pk oldValue hcontents
    obtain rfl : b = b0 := ok.inj (hb.symm.trans (entry_ok hentry0).1)
    refine ⟨?_, hgood' h.good hgood.1, ?_⟩
    · have hmirrors := (h.primary.erase hcontents hentry0).insert hentry (by simp)
        (by rw [lookup_erase, if_pos rfl])
      rwa [update_idem, insert_erase_self] at hmirrors
    · apply forall₂_walk rfl (fun _ _ _ _ => rfl) h.indexes hindexes
      intro index hmem e e' hindex href
      exact ⟨mirrors_reference_old hindex.1 hindex.2 (hgood.2 index hmem) hcontents href,
        hgood' hindex.2 (hgood.2 index hmem)⟩
  · rw [hget] at hindexes
    refine ⟨h.primary.insert hentry hcontents hfree, hgood' h.good hgood.1, ?_⟩
    apply forall₂_walk rfl (fun _ _ _ _ => rfl) h.indexes hindexes
    intro index hmem e e' hindex href
    exact ⟨mirrors_reference_new hindex.1 hindex.2 (hgood.2 index hmem) hcontents href,
      hgood' hindex.2 (hgood.2 index hmem)⟩

theorem Inv.remove (hgood : im.Good (.remove pk))
    (hremove : im.remove pk s = .ok s') : im.Inv (update contents pk none) s' := by
  unfold IndexedMap.remove at hremove
  obtain ⟨indexes, hindexes, hremove⟩ := bind_eq_ok.mp hremove
  obtain ⟨primary, hprimary, hremove⟩ := bind_eq_ok.mp hremove
  cases hremove
  obtain ⟨b, hb, rfl⟩ := remove_ok hprimary
  have hgood' {P : PK → V → Prop} (hold : ∀ pk value, contents pk = some value → P pk value) :
      ∀ pk' value', update contents pk none pk' = some value' → P pk' value' := by
    intro pk' value' hpk'
    exact hold pk' value' ((update_eq_some.mp hpk').resolve_left (by simp)).2
  obtain ⟨value, hcontents, hget⟩ | ⟨hcontents, hget, hfree⟩ := h.get hgood.1 hb
  · rw [hget] at hindexes
    obtain ⟨⟨b0, _⟩, hentry0⟩ := h.primary.computed pk value hcontents
    obtain rfl : b = b0 := ok.inj (hb.symm.trans (entry_ok hentry0).1)
    refine ⟨h.primary.erase hcontents hentry0, hgood' h.good, ?_⟩
    apply forall₂_walk rfl (fun _ _ _ _ => rfl) h.indexes hindexes
    intro index hmem e e' hindex hunref
    exact ⟨mirrors_unreference hindex.1 hcontents hunref, hgood' hindex.2⟩
  · -- nothing is stored under the key
    rw [hget] at hindexes
    have hsame : update contents pk none = contents := by
      rw [← hcontents, update_eq_self]
    rw [hsame, erase_of_absent hfree]
    refine ⟨h.primary, h.good, ?_⟩
    apply forall₂_walk rfl (fun _ _ _ _ => rfl) h.indexes hindexes
    intro index hmem e e' hindex hunref
    rw [mirrors_unreference_absent hindex.1 hindex.2 (hgood.2 index hmem) hcontents hunref]
    exact hindex

theorem Inv.run {ops : List (Op PK V)} (hgood : ∀ op ∈ ops, im.Good op)
    (hrun : im.run ops s = .ok s') : ∃ contents', im.Inv contents' s' := by
  induction ops generalizing contents s with
  | nil =>
    cases hrun
    exact ⟨contents, h⟩
  | cons op ops ih =>
    unfold IndexedMap.run at hrun
    obtain ⟨_, happly, hrest⟩ := bind_eq_ok.mp hrun
    have hop := hgood op mem_cons_self
    have hops : ∀ op ∈ ops, im.Good op := fun op' hmem => hgood op' (mem_cons_of_mem op hmem)
    cases op with
    | set => exact ih (h.set hop happly) hops hrest
    | remove => exact ih (h.remove hop happly) hops hrest

end

/-- The map can be read, and each index is exact for its keys and values. -/
def ExactIndexes (im : IndexedMap PK V) (s : State) : Prop :=
  ∃ kvs, im.keyValues s = .ok kvs ∧ (kvs.map Prod.fst).Nodup ∧
    List.Forall₂ (Index.Exact kvs) im.indexes s.indexes

def AllBounded (im : IndexedMap PK V) : Prop :=
  Bounded im.prefixBytes ∧ ∀ index ∈ im.indexes, Bounded index.prefixBytes

theorem Inv.keyValues (h : im.Inv contents s) (hbounded : Bounded im.prefixBytes) :
    ∃ kvs, im.keyValues s = .ok kvs ∧ (kvs.map Prod.fst).Nodup ∧
      ∀ pk value, (pk, value) ∈ kvs ↔ contents pk = some value := by
  have hread {pk : PK} {value : V} {e : Bytes × Bytes} (hcontents : contents pk = some value)
      (hentry : im.entry pk value = .ok e) : im.m.keyValue e = .ok (pk, value) := by
    obtain ⟨hb, hw⟩ := entry_ok hentry
    exact bind_eq_ok.mpr ⟨pk, readKey_encodeKey im.pkCodec.lawful hb (h.good pk value hcontents),
      bind_eq_ok.mpr ⟨value, im.decode_encode value e.2 hw, rfl⟩⟩
  obtain ⟨kvs, hkvs, hnodup, hmem⟩ := h.primary.read im.m.keyValue Prod.fst
    (fun pk value e hcontents hentry => ⟨(pk, value), hread hcontents hentry, rfl⟩)
    (fun b => List.isPrefixOf [] b)
  refine ⟨kvs, ?_, hnodup, fun pk value => ?_⟩
  · unfold IndexedMap.keyValues
    rw [iterate_of_bounded hbounded, ok_bind, hkvs]
  · rw [hmem]
    constructor
    · intro hkv
      obtain ⟨_, _, e, hcontents, hentry, _, hkv⟩ := hkv
      rw [hread hcontents hentry] at hkv
      cases hkv
      exact hcontents
    · intro hcontents
      obtain ⟨e, hentry⟩ := h.primary.computed pk value hcontents
      exact ⟨pk, value, e, hcontents, hentry, rfl, hread hcontents hentry⟩

/-- After calls that succeed, with keys that are read back, the indexes are exact. -/
theorem run_exactIndexes {ops : List (Op PK V)} (hbounded : im.AllBounded)
    (hgood : ∀ op ∈ ops, im.Good op) (hrun : im.run ops im.empty = .ok s) : im.ExactIndexes s := by
  classical
  obtain ⟨_, h⟩ := inv_empty.run hgood hrun
  obtain ⟨kvs, hkvs, hnodup, hmem⟩ := h.keyValues hbounded.1
  refine ⟨kvs, hkvs, hnodup, ?_⟩
  have hindexes := h.indexes
  have hall := hbounded.2
  revert hindexes hall
  generalize im.indexes = indexes, s.indexes = entries
  intro hindexes hall
  induction hindexes with
  | nil => exact nil
  | @cons index e indexes entries hindex _ ih =>
    exact cons
      (exact_of_mirrors hindex.1 hindex.2 (hall index mem_cons_self) hnodup hmem)
      (ih fun index' hmem' => hall index' (mem_cons_of_mem index hmem'))

def strings : IndexedMap Bytes Bytes where
  prefixBytes := [1]
  pkCodec := KeyType.string.lawfulCodec
  valueCodec := ⟨fun value => .ok value, fun b => .ok b⟩
  decode_encode := by
    intro value b h
    exact h.symm
  indexes := [.multi [2] KeyType.string.lawfulCodec KeyType.string.lawfulCodec (fun _ value => .ok value)]

theorem strings_good_set (pk : Bytes) {value : Bytes} (hvalue : SingleBytes value) :
    strings.Good (.set pk value) := by
  refine ⟨.inl rfl, fun index hindex => ?_⟩
  obtain rfl := mem_singleton.mp hindex
  refine ⟨.inl rfl, fun refKey href => .inr ?_⟩
  obtain rfl : value = refKey := ok.inj href
  exact hvalue

theorem strings_good_remove (pk : Bytes) : strings.Good (.remove pk) := by
  refine ⟨.inl rfl, fun index hindex => ?_⟩
  obtain rfl := mem_singleton.mp hindex
  exact .inl rfl

/-- Two values are stored under one reference key, and one of them is removed. -/
theorem strings_exact :
    ∃ s, strings.run [.set [120] [97], .set [121] [97], .remove [120]] strings.empty = .ok s ∧
      strings.ExactIndexes s := by
  have hok : (strings.run [.set [120] [97], .set [121] [97], .remove [120]]
      strings.empty).isOk = true := by decide +kernel
  cases hrun : strings.run [.set [120] [97], .set [121] [97], .remove [120]] strings.empty with
  | error => simp [hrun, Except.isOk, Except.toBool] at hok
  | ok s =>
    have hbounded : strings.AllBounded := by
      refine ⟨by decide, fun index hindex => ?_⟩
      obtain rfl := mem_singleton.mp hindex
      exact (by decide : Bounded [2])
    have hgood : ∀ op ∈ [Op.set [120] [97], .set [121] [97], .remove [120]], strings.Good op := by
      simp only [forall_mem_cons]
      exact ⟨strings_good_set _ (by decide), strings_good_set _ (by decide),
        strings_good_remove _, by simp⟩
    exact ⟨s, rfl, run_exactIndexes hbounded hgood hrun⟩

/-- Under a reference key of one rune of two bytes the index returns a key that is not stored. -/
theorem strings_not_exact :
    ∃ s, strings.run [.set [120] [0xC3, 0xA9]] strings.empty = .ok s ∧ ¬ strings.ExactIndexes s := by
  refine ⟨⟨(∅ : Entries).insert [120] [0xC3, 0xA9], [(∅ : Entries).insert [0xC3, 0, 0, 120] []]⟩,
    rfl, fun hexact => ?_⟩
  obtain ⟨_, hkvs, _, hindexes⟩ := hexact
  have hkvs' : strings.keyValues ⟨(∅ : Entries).insert [120] [0xC3, 0xA9],
      [(∅ : Entries).insert [0xC3, 0, 0, 120] []]⟩ = .ok [([120], [0xC3, 0xA9])] := rfl
  obtain rfl := ok.inj (hkvs.symm.trans hkvs')
  cases hindexes with
  | cons hindex =>
    obtain ⟨_, hkeys, hperm, _⟩ := hindex.fullKeys
    have hkeys' : fullKeys (.multi [2] KeyType.string.lawfulCodec KeyType.string.lawfulCodec
        (fun (_ : Bytes) (value : Bytes) => .ok value)) ((∅ : Entries).insert [0xC3, 0, 0, 120] []) =
        .ok [(([0xC3] : Bytes), ([0, 120] : Bytes))] := rfl
    obtain rfl := ok.inj (hkeys.symm.trans hkeys')
    have hmem := hperm.mem_iff (a := [120])
    revert hmem
    decide

end IndexedMap

end CosmosSDK.Collections
