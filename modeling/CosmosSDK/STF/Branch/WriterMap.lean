import CosmosSDK.STF.Branch.Store
import CosmosSDK.Lib.Machine

/-!
# branch.WriterMap

Nested branches of a destination with one store per actor.  Each `WriterMap`
memoises a branch store for every actor it was asked for, over the store that the
map below returns for the same actor.  Maps are opened, read and written, applied
to the one below, or dropped.
-/

namespace CosmosSDK.STF

open Std OrderedKV Store List ExtTreeMap Function Branch

/-- The stores of a destination by actor, or what `GetReader` reports. -/
abbrev Dest := Bytes → Except String KVMap

/-- The memoised change sets of a `WriterMap` by actor. -/
abbrev WriterMap := OrdMap Bytes ChangeSet

structure Stack where
  dest : Dest
  levels : List WriterMap

/-! ## The maps -/

/-- `GetWriter`.  An actor not met before gets a new branch over what `GetReader`
of the map below returns; a memoised store refers to that same store below. -/
def getWriter (dest : Dest) (actor : Bytes) :
    List WriterMap → Except StoreError (Branch × List WriterMap)
  | [] =>
    match dest actor with
    | .error e => .error (.reader e)
    | .ok m => .ok (.root m, [])
  | w :: below =>
    match getWriter dest actor below with
    | .error e => .error e
    | .ok (parent, below') =>
      match w[actor]? with
      | some changeSet => .ok (.branch changeSet parent, w :: below')
      | none => .ok (.branch ∅ parent, w.insert actor ∅ :: below')

/-- The effect of a write to the store of an actor, which the map holds by reference. -/
def storeBack (st : Stack) (actor : Bytes) (b : Branch) : Stack :=
  match st.levels, b with
  | w :: below, .branch changeSet _ => { st with levels := w.insert actor changeSet :: below }
  | [], .root m => { st with dest := update st.dest actor (.ok m) }
  | _, _ => st

/-- `store.StateChanges`. -/
structure StateChanges where
  actor : Bytes
  stateChanges : List KVPair

/-- An order in which a Go map lists its entries. -/
abbrev Order := { f : List (Bytes × ChangeSet) → List (Bytes × ChangeSet) // ∀ l, (f l).Perm l }

def collectChanges : List (Bytes × ChangeSet) → Except StoreError (List StateChanges)
  | [] => .ok []
  | (actor, changeSet) :: rest =>
    match changeSets changeSet with
    | .error e => .error e
    | .ok kvChanges =>
      match collectChanges rest with
      | .error e => .error e
      | .ok sc => .ok (⟨actor, kvChanges⟩ :: sc)

def getStateChanges (order : Order) (w : WriterMap) : Except StoreError (List StateChanges) :=
  collectChanges (order.1 w.toList)

def applyStateChange (st : Stack) (sc : StateChanges) : Except StoreError Stack :=
  match getWriter st.dest sc.actor st.levels with
  | .error e => .error e
  | .ok (b, levels) =>
    match applyChangeSets b sc.stateChanges with
    | .error e => .error e
    | .ok b' => .ok (storeBack { st with levels := levels } sc.actor b')

def applyStateChanges (st : Stack) : List StateChanges → Except StoreError Stack
  | [] => .ok st
  | sc :: rest =>
    match applyStateChange st sc with
    | .error e => .error (.apply sc.actor e)
    | .ok st' => applyStateChanges st' rest

/-! ## What a stack of maps stands for -/

/-- The content seen through the innermost map. -/
def view (dest : Dest) : List WriterMap → Dest
  | [] => dest
  | w :: below => fun actor => (view dest below actor).map (fun m => overlay m (w.getD actor ∅))

/-- The contents of the maps below it. -/
def saved (dest : Dest) : List WriterMap → List Dest
  | [] => []
  | _ :: below => view dest below :: saved dest below

/-- A memoised actor has a store in the destination. -/
def Known (dest : Dest) (levels : List WriterMap) : Prop :=
  ∀ w ∈ levels, ∀ actor ∈ w, ∃ m, dest actor = .ok m

/-- `b` is the store that the innermost map holds for the actor. -/
def Holds (dest : Dest) (actor : Bytes) : Branch → List WriterMap → Prop
  | .root m, [] => dest actor = .ok m
  | .branch changeSet parent, w :: below =>
    w[actor]? = some changeSet ∧ view dest below actor = .ok parent.content
  | _, _ => False

theorem view_insert_empty (dest : Dest) (w : WriterMap) (below : List WriterMap) (actor : Bytes)
    (h : w[actor]? = none) : view dest (w.insert actor ∅ :: below) = view dest (w :: below) := by
  funext a
  simp only [view, getD_eq_getD_getElem?, ExtTreeMap.getElem?_insert]
  split
  · rename_i ha
    rw [← eq_of_cmp ha, h]
    rfl
  · rfl

theorem view_cons_congr (dest : Dest) (w : WriterMap) {below below' : List WriterMap}
    (h : view dest below' = view dest below) : view dest (w :: below') = view dest (w :: below) := by
  funext a
  simp only [view, h]

theorem view_error_iff (dest : Dest) (levels : List WriterMap) (actor : Bytes) (e : String) :
    view dest levels actor = .error e ↔ dest actor = .error e := by
  induction levels with
  | nil => rfl
  | cons w below ih =>
    rw [← ih]
    simp only [view]
    cases view dest below actor <;> simp [Except.map]

theorem view_ok_iff (dest : Dest) (levels : List WriterMap) (actor : Bytes) :
    (∃ m, view dest levels actor = .ok m) ↔ ∃ m, dest actor = .ok m := by
  have h := view_error_iff dest levels actor
  generalize view dest levels actor = v at h
  cases v <;> cases hd : dest actor <;> simp_all

/-! ## getWriter -/

variable {dest : Dest} {actor : Bytes} {m : KVMap} {st : Stack}

theorem getWriter_error {e : String} (levels : List WriterMap) (h : dest actor = .error e) :
    getWriter dest actor levels = .error (.reader e) := by
  induction levels with
  | nil => simp only [getWriter, h]
  | cons w below ih => simp only [getWriter, ih]

/-- `GetWriter` returns a store with the content the maps stand for, and only
memoises stores without changes. -/
theorem getWriter_ok (levels : List WriterMap) (hk : Known dest levels)
    (h : view dest levels actor = .ok m) :
    ∃ b levels', getWriter dest actor levels = .ok (b, levels') ∧ b.content = m ∧
      Holds dest actor b levels' ∧ view dest levels' = view dest levels ∧
      saved dest levels' = saved dest levels ∧ Known dest levels' := by
  induction levels generalizing m with
  | nil =>
    have hd : dest actor = .ok m := h
    exact ⟨.root m, [], by simp only [getWriter, hd], rfl, hd, rfl, rfl, hk⟩
  | cons w below ih =>
    have hkb : Known dest below := fun x hx => hk x (mem_cons_of_mem w hx)
    obtain ⟨m0, hm0⟩ : ∃ m0, view dest below actor = .ok m0 :=
      (view_ok_iff dest below actor).mpr ((view_ok_iff dest (w :: below) actor).mp ⟨m, h⟩)
    obtain ⟨parent, below', hget, hcontent, -, hview, hsaved, hkb'⟩ := ih hkb hm0
    have hm : overlay m0 (w.getD actor ∅) = m := by
      simpa [view, hm0, Except.map] using h
    have hparent : view dest below' actor = .ok parent.content := by
      rw [hview, hcontent]
      exact hm0
    have hknown : ∀ x : WriterMap, (∀ a ∈ x, ∃ m, dest a = .ok m) → Known dest (x :: below') := by
      intro x hx y hy
      rcases mem_cons.mp hy with rfl | hy
      · exact hx
      · exact hkb' y hy
    have hsaved' : view dest below' :: saved dest below' =
        view dest below :: saved dest below := by rw [hview, hsaved]
    cases hw : w[actor]? with
    | some changeSet =>
      refine ⟨.branch changeSet parent, w :: below', by simp only [getWriter, hget, hw], ?_,
        ⟨hw, hparent⟩, view_cons_congr dest w hview, hsaved', hknown w (hk w mem_cons_self)⟩
      rw [← hm, content, hcontent, getD_eq_getD_getElem?, hw]
      rfl
    | none =>
      refine ⟨.branch ∅ parent, w.insert actor ∅ :: below', by simp only [getWriter, hget, hw],
        ?_, ⟨by simp, hparent⟩, ?_, hsaved', hknown _ ?_⟩
      · rw [← hm, content, hcontent, getD_eq_getD_getElem?, hw]
        rfl
      · rw [view_insert_empty dest w below' actor hw]
        exact view_cons_congr dest w hview
      · intro a ha
        rcases mem_insert.mp ha with ha | ha
        · rw [← eq_of_cmp ha]
          exact (view_ok_iff dest (w :: below) actor).mp ⟨m, h⟩
        · exact hk w mem_cons_self a ha

/-! ## Writes -/

/-- Writing to the store of an actor changes the content of that actor in the
innermost map and nothing else. -/
theorem storeBack_spec {b b' : Branch} (hk : Known st.dest st.levels)
    (hb : Holds st.dest actor b st.levels) (hp : b'.parent? = b.parent?) :
    view (storeBack st actor b').dest (storeBack st actor b').levels =
        update (view st.dest st.levels) actor (.ok b'.content) ∧
      saved (storeBack st actor b').dest (storeBack st actor b').levels = saved st.dest st.levels ∧
      Known (storeBack st actor b').dest (storeBack st actor b').levels := by
  obtain ⟨_, levels⟩ := st
  cases levels with
  | nil =>
    cases b with
    | branch => exact hb.elim
    | root =>
      cases b' with
      | branch => simp [parent?] at hp
      | root => exact ⟨rfl, rfl, fun w hw => absurd hw not_mem_nil⟩
  | cons w =>
    cases b with
    | root => exact hb.elim
    | branch changeSet parent =>
      obtain ⟨hw, hparent⟩ := hb
      cases b' with
      | root => simp [parent?] at hp
      | branch changeSet' parent' =>
        obtain rfl : parent' = parent := by simpa [parent?] using hp
        refine ⟨?_, rfl, ?_⟩
        · funext a
          simp only [storeBack, view, update_apply,
            getD_eq_getD_getElem?, ExtTreeMap.getElem?_insert]
          by_cases ha : a = actor
          · subst ha
            simp [hparent, Except.map, content]
          · have hne : compare actor a ≠ .eq := fun h => ha (eq_of_cmp h).symm
            simp [ha, hne]
        · intro x hx
          rcases mem_cons.mp hx with rfl | hx
          · intro a ha
            rcases mem_insert.mp ha with ha | ha
            · obtain rfl := eq_of_cmp ha
              exact hk w mem_cons_self actor
                (by simp [mem_iff_isSome_getElem?, hw])
            · exact hk w mem_cons_self a ha
          · exact hk x (mem_cons_of_mem w hx)

/-! ## Applying a map to the one below -/

theorem collectChanges_eq (l : List (Bytes × ChangeSet)) :
    collectChanges l = .ok (l.map (fun e => ⟨e.1, kvPairs e.2⟩)) := by
  induction l with
  | nil => rfl
  | cons e l ih => simp [collectChanges, changeSets_eq, ih]

theorem applyStateChange_spec (changeSet : ChangeSet) (hk : Known st.dest st.levels)
    (hm : view st.dest st.levels actor = .ok m) :
    ∃ st', applyStateChange st ⟨actor, kvPairs changeSet⟩ = .ok st' ∧ view st'.dest st'.levels =
        update (view st.dest st.levels) actor (.ok (overlay m changeSet)) ∧
      saved st'.dest st'.levels = saved st.dest st.levels ∧ Known st'.dest st'.levels := by
  obtain ⟨b, levels, hget, hcontent, hholds, hview, hsaved, hknown⟩ := getWriter_ok _ hk hm
  obtain ⟨_, happly, hparent, hc⟩ := applyChangeSets_kvPairs b changeSet
  obtain ⟨hview', hsaved', hknown'⟩ :=
    storeBack_spec (show Known ({ st with levels := levels } : Stack).dest levels from hknown)
      hholds hparent
  refine ⟨_, by simp only [applyStateChange, hget, happly], ?_, hsaved'.trans hsaved, hknown'⟩
  rw [hview', hc, hcontent, hview]

theorem applyStateChanges_spec (l : List (Bytes × ChangeSet)) (hk : Known st.dest st.levels)
    (hnd : (l.map Prod.fst).Nodup) (hl : ∀ e ∈ l, ∃ m, st.dest e.1 = .ok m) :
    ∃ st', applyStateChanges st (l.map (fun e => ⟨e.1, kvPairs e.2⟩)) = .ok st' ∧
      (∀ a cs, (a, cs) ∈ l → view st'.dest st'.levels a =
        (view st.dest st.levels a).map (fun m => overlay m cs)) ∧
      (∀ a, a ∉ l.map Prod.fst → view st'.dest st'.levels a = view st.dest st.levels a) ∧
      saved st'.dest st'.levels = saved st.dest st.levels ∧ Known st'.dest st'.levels := by
  induction l generalizing st with
  | nil => exact ⟨st, rfl, by simp, by simp, rfl, hk⟩
  | cons e l ih =>
    obtain ⟨actor, cs⟩ := e
    obtain ⟨hnot, hnd⟩ : actor ∉ l.map Prod.fst ∧ (l.map Prod.fst).Nodup :=
      nodup_cons.mp hnd
    have hne : ∀ e ∈ l, e.1 ≠ actor := by
      rintro e he rfl
      exact hnot (mem_map_of_mem he)
    obtain ⟨m, hm⟩ := (view_ok_iff st.dest st.levels actor).mpr (hl _ mem_cons_self)
    obtain ⟨st1, happly, hview1, hsaved1, hk1⟩ := applyStateChange_spec cs hk hm
    have hl1 : ∀ e ∈ l, ∃ m, st1.dest e.1 = .ok m := by
      intro e he
      rw [← view_ok_iff st1.dest st1.levels, hview1, update_of_ne (hne e he), view_ok_iff]
      exact hl e (mem_cons_of_mem _ he)
    obtain ⟨st', happly', hin, hout, hsaved', hk'⟩ := ih hk1 hnd hl1
    refine ⟨st', by simp [applyStateChanges, happly, happly'], ?_, ?_,
      hsaved'.trans hsaved1, hk'⟩
    · intro a x hx
      rcases mem_cons.mp hx with hx | hx
      · obtain ⟨rfl, rfl⟩ := Prod.mk.inj hx
        rw [hout a hnot, hview1, update_self, hm]
        rfl
      · rw [hin a x hx, hview1, update_of_ne (hne _ hx)]
    · intro a ha
      simp only [map_cons, mem_cons, not_or] at ha
      rw [hout a ha.2, hview1, update_of_ne ha.1]

/-- Whatever the order of the actors, applying a map gives the map below the
content seen through the applied one. -/
theorem applyBranch_spec (order : Order) (dest : Dest) (w : WriterMap) (below : List WriterMap)
    (hk : Known dest (w :: below)) : ∃ changes st', getStateChanges order w = .ok changes ∧
      applyStateChanges ⟨dest, below⟩ changes = .ok st' ∧
      view st'.dest st'.levels = view dest (w :: below) ∧
      saved st'.dest st'.levels = saved dest below ∧ Known st'.dest st'.levels := by
  have hperm := order.2 w.toList
  have hnd : ((order.1 w.toList).map Prod.fst).Nodup := by
    rw [(hperm.map Prod.fst).nodup_iff, map_fst_toList_eq_keys]
    exact nodup_keys
  have hmem : ∀ a cs, (a, cs) ∈ order.1 w.toList ↔ w[a]? = some cs := by
    intro a cs
    rw [hperm.mem_iff, mem_toList_iff_getElem?_eq_some]
  have hl : ∀ e ∈ order.1 w.toList, ∃ m, dest e.1 = .ok m := by
    rintro ⟨a, cs⟩ he
    have ha : w[a]? = some cs := (hmem a cs).mp he
    exact hk w mem_cons_self a (by simp [mem_iff_isSome_getElem?, ha])
  obtain ⟨st', happly, hin, hout, hsaved, hk'⟩ :=
    applyStateChanges_spec (order.1 w.toList) (show Known (Stack.mk dest below).dest below from
      fun x hx => hk x (mem_cons_of_mem w hx)) hnd hl
  refine ⟨_, st', collectChanges_eq _, happly, ?_, hsaved, hk'⟩
  funext a
  simp only [view, getD_eq_getD_getElem?]
  cases ha : w[a]? with
  | some cs => exact hin a cs ((hmem a cs).mpr ha)
  | none =>
    have hnot : a ∉ (order.1 w.toList).map Prod.fst := by
      intro hmem'
      obtain ⟨e, he, rfl⟩ := mem_map.mp hmem'
      rw [(hmem e.1 e.2).mp he] at ha
      cases ha
    rw [hout a hnot]
    cases view dest below a <;> simp [Except.map, overlay_empty]

end CosmosSDK.STF
