import CosmosSDK.STF.Branch.WriterMap

/-!
# Runs on nested branches

A client opens branches over a destination to any depth, reads and writes stores
of actors through the innermost one, keeps iterators open, and applies or drops
branches.  The direct machine has no branches: it writes to the destination and
saves a copy of it where a branch is opened.
-/

namespace CosmosSDK.STF

open Std OrderedKV Store List Function STF Machine

inductive KVOp where
  | get (key : Bytes)
  | has (key : Bytes)
  | set (key : Bytes) (value : Option Bytes)
  | delete (key : Bytes)
  | iterator (start stop : Option Bytes) (ascending : Bool)

inductive BranchOp where
  /-- an operation on the store of an actor in the innermost map -/
  | kv (actor : Bytes) (op : KVOp)
  /-- look at the `j`-th iterator opened -/
  | entry (j : Nat)
  /-- call `Next` on it -/
  | next (j : Nat)
  | openBranch
  /-- `ApplyStateChanges` below of the changes of the innermost map, in some order -/
  | applyBranch (order : Order)
  | dropBranch

inductive Reply where
  | done
  | value (v : Option Bytes)
  | bool (b : Bool)
  | entry (e : Option (Bytes × Bytes))
  | error (e : StoreError)
  | noIterator
  | noBranch
deriving DecidableEq

def replyOf {α : Type} (f : α → Reply) : Except StoreError α → Reply
  | .error e => .error e
  | .ok a => f a

/-! ## The machine of the source -/

structure OpenIterator where
  depth : Nat
  state : IterState depth

namespace OpenIterator

def entry (i : OpenIterator) : Option (Bytes × Bytes) := (iterators i.depth).entry i.state

def next (i : OpenIterator) : OpenIterator := ⟨i.depth, (iterators i.depth).next i.state⟩

def toList (i : OpenIterator) : List (Bytes × Bytes) := (iterators i.depth).toList i.state

end OpenIterator

structure Session where
  stack : Stack
  opened : List OpenIterator

/-- An operation on the store that `GetWriter` returned. -/
def kvStep (actor : Bytes) (op : KVOp) (b : Branch) (s : Session) : Reply × Session :=
  match op with
  | .get key => (replyOf .value (b.get key), s)
  | .has key => (replyOf .bool (b.has key), s)
  | .set key value =>
    match b.set key value with
    | .error e => (.error e, s)
    | .ok b' => (.done, { s with stack := storeBack s.stack actor b' })
  | .delete key =>
    match b.delete key with
    | .error e => (.error e, s)
    | .ok b' => (.done, { s with stack := storeBack s.stack actor b' })
  | .iterator start stop ascending =>
    match b.iterator start stop ascending with
    | .error e => (.error e, s)
    | .ok i => (.done, { s with opened := s.opened ++ [⟨b.depth, i⟩] })

def branchStep (op : BranchOp) (s : Session) : Reply × Session :=
  match op with
  | .kv actor op =>
    match getWriter s.stack.dest actor s.stack.levels with
    | .error e => (.error e, s)
    | .ok (b, levels) => kvStep actor op b { s with stack := { s.stack with levels := levels } }
  | .entry j =>
    match s.opened[j]? with
    | none => (.noIterator, s)
    | some i => (.entry i.entry, s)
  | .next j =>
    match s.opened[j]? with
    | none => (.noIterator, s)
    | some i => (.done, { s with opened := s.opened.set j i.next })
  | .openBranch =>
    (.done, { s with stack := { s.stack with levels := ∅ :: s.stack.levels } })
  | .applyBranch order =>
    match s.stack.levels with
    | [] => (.noBranch, s)
    | w :: below =>
      match getStateChanges order w with
      | .error e => (.error e, s)
      | .ok changes =>
        match applyStateChanges { s.stack with levels := below } changes with
        | .error e => (.error e, s)
        | .ok stack => (.done, { s with stack := stack })
  | .dropBranch =>
    match s.stack.levels with
    | [] => (.noBranch, s)
    | _ :: below => (.done, { s with stack := { s.stack with levels := below } })

/-! ## The direct machine -/

structure Direct where
  current : Dest
  saved : List Dest
  opened : List (List (Bytes × Bytes))

def directKV (actor : Bytes) (op : KVOp) (m : KVMap) (d : Direct) : Reply × Direct :=
  match op with
  | .get key => (.value m[key]?, d)
  | .has key => (.bool (m[key]?).isSome, d)
  | .set _ none => (.error .nilValue, d)
  | .set key (some v) =>
    (.done, { d with current := update d.current actor (.ok (m.insert key v)) })
  | .delete key =>
    (.done, { d with current := update d.current actor (.ok (m.erase key)) })
  | .iterator start stop ascending =>
    if start = some [] ∨ stop = some [] then (.error .keyEmpty, d)
    else (.done, { d with opened := d.opened ++ [rangeList m start stop ascending] })

def directStep (op : BranchOp) (d : Direct) : Reply × Direct :=
  match op with
  | .kv actor op =>
    match d.current actor with
    | .error e => (.error (.reader e), d)
    | .ok m => directKV actor op m d
  | .entry j =>
    match d.opened[j]? with
    | none => (.noIterator, d)
    | some l => (.entry l.head?, d)
  | .next j =>
    match d.opened[j]? with
    | none => (.noIterator, d)
    | some l => (.done, { d with opened := d.opened.set j l.tail })
  | .openBranch => (.done, { d with saved := d.current :: d.saved })
  | .applyBranch _ =>
    match d.saved with
    | [] => (.noBranch, d)
    | _ :: rest => (.done, { d with saved := rest })
  | .dropBranch =>
    match d.saved with
    | [] => (.noBranch, d)
    | c :: rest => (.done, { d with current := c, saved := rest })

/-! ## The simulation -/

structure BranchSim (s : Session) (d : Direct) : Prop where
  known : Known s.stack.dest s.stack.levels
  current : view s.stack.dest s.stack.levels = d.current
  saved : saved s.stack.dest s.stack.levels = d.saved
  opened : s.opened.map OpenIterator.toList = d.opened

theorem OpenIterator.toList_next (i : OpenIterator) : i.next.toList = i.toList.tail := by
  obtain ⟨depth, state⟩ := i
  simp only [next, toList]
  cases he : (iterators depth).entry state with
  | some => rw [(iterators depth).toList_of_some he]; rfl
  | none =>
    rw [(iterators depth).toList_of_none he]
    apply (iterators depth).toList_of_none
    cases depth with
    | zero =>
      have hnil : state = [] := List.head?_eq_none_iff.mp he
      rw [hnil]
      rfl
    | succ =>
      have hcur : state.current = none := he
      simp only [iterators, MergedIterator.iterator, MergedIterator.next, hcur]
      rfl

variable {s : Session} {d : Direct} {b : Branch}

theorem getElem?_opened (h : BranchSim s d) (j : Nat) :
    d.opened[j]? = s.opened[j]?.map OpenIterator.toList := by
  rw [← h.opened, List.getElem?_map]

theorem BranchSim.storeBack {actor : Bytes} {b' : Branch} (h : BranchSim s d)
    (hb : Holds s.stack.dest actor b s.stack.levels) (hp : b'.parent? = b.parent?) :
    BranchSim { s with stack := storeBack s.stack actor b' }
      { d with current := update d.current actor (.ok b'.content) } := by
  obtain ⟨hview, hsaved, hknown⟩ := storeBack_spec h.known hb hp
  exact ⟨hknown, by rw [hview, h.current], hsaved.trans h.saved, h.opened⟩

theorem kvStep_sim (actor : Bytes) (op : KVOp) (h : BranchSim s d)
    (hb : Holds s.stack.dest actor b s.stack.levels) :
    (kvStep actor op b s).1 = (directKV actor op b.content d).1 ∧
      BranchSim (kvStep actor op b s).2 (directKV actor op b.content d).2 := by
  cases op with
  | get => exact ⟨by simp [kvStep, directKV, b.get_eq, replyOf], h⟩
  | has => exact ⟨by simp [kvStep, directKV, b.has_eq, replyOf], h⟩
  | set key value =>
    cases value with
    | none => exact ⟨rfl, h⟩
    | some v =>
      obtain ⟨_, hset, hp, hc⟩ := Branch.set_ok b key v
      simp only [kvStep, hset, directKV, ← hc]
      exact ⟨trivial, h.storeBack hb hp⟩
  | delete key =>
    obtain ⟨_, hdel, hp, hc⟩ := Branch.delete_ok b key
    simp only [kvStep, hdel, directKV, ← hc]
    exact ⟨trivial, h.storeBack hb hp⟩
  | iterator start stop ascending =>
    by_cases hbounds : start = some [] ∨ stop = some []
    · simp only [kvStep, b.iterator_error ascending hbounds, directKV, if_pos hbounds]
      exact ⟨trivial, h⟩
    · obtain ⟨_, hi, hlist⟩ := b.iterator_spec ascending hbounds
      simp only [kvStep, hi, directKV, if_neg hbounds]
      refine ⟨trivial, h.known, h.current, h.saved, ?_⟩
      rw [map_append, h.opened, map_singleton, OpenIterator.toList, hlist]

theorem branchStep_kv (actor : Bytes) (op : KVOp) (h : BranchSim s d) :
    (branchStep (.kv actor op) s).1 = (directStep (.kv actor op) d).1 ∧
      BranchSim (branchStep (.kv actor op) s).2 (directStep (.kv actor op) d).2 := by
  simp only [branchStep, directStep, ← h.current]
  cases hm : view s.stack.dest s.stack.levels actor with
  | error =>
    rw [getWriter_error _ ((view_error_iff _ _ _ _).mp hm)]
    exact ⟨rfl, h⟩
  | ok =>
    obtain ⟨_, _, hget, rfl, hholds, hview, hsaved, hknown⟩ := getWriter_ok _ h.known hm
    rw [hget]
    exact kvStep_sim actor op
      ⟨hknown, hview.trans h.current, hsaved.trans h.saved, h.opened⟩ hholds

theorem branchStep_apply (order : Order) (h : BranchSim s d) :
    (branchStep (.applyBranch order) s).1 = (directStep (.applyBranch order) d).1 ∧
      BranchSim (branchStep (.applyBranch order) s).2 (directStep (.applyBranch order) d).2 := by
  obtain ⟨⟨dest, levels⟩, opened⟩ := s
  simp only [branchStep, directStep, ← h.saved]
  cases levels with
  | nil => exact ⟨rfl, h⟩
  | cons w below =>
    obtain ⟨_, _, hchanges, happly, hview, hsaved, hknown⟩ :=
      applyBranch_spec order dest w below h.known
    simp only [hchanges, happly, saved]
    exact ⟨trivial, hknown, hview.trans h.current, hsaved, h.opened⟩

theorem branchStep_drop (h : BranchSim s d) :
    (branchStep .dropBranch s).1 = (directStep .dropBranch d).1 ∧
      BranchSim (branchStep .dropBranch s).2 (directStep .dropBranch d).2 := by
  obtain ⟨⟨_, levels⟩, opened⟩ := s
  simp only [branchStep, directStep, ← h.saved]
  cases levels with
  | nil => exact ⟨rfl, h⟩
  | cons w =>
    simp only [saved]
    exact ⟨trivial, fun x hx => h.known x (mem_cons_of_mem w hx), rfl, rfl, h.opened⟩

theorem branchStep_open (h : BranchSim s d) :
    (branchStep .openBranch s).1 = (directStep .openBranch d).1 ∧
      BranchSim (branchStep .openBranch s).2 (directStep .openBranch d).2 := by
  refine ⟨rfl, ?_, ?_, ?_, h.opened⟩
  · intro w hw
    rcases mem_cons.mp hw with rfl | hw
    · exact fun a ha => absurd ha ExtTreeMap.not_mem_empty
    · exact h.known w hw
  · simp only [branchStep, directStep, ← h.current]
    funext actor
    simp only [view, ExtTreeMap.getD_empty, overlay_empty]
    cases view s.stack.dest s.stack.levels actor <;> rfl
  · simp only [branchStep, directStep, ← h.current, ← h.saved, saved]

theorem branchStep_simulates : Machine.Simulates branchStep directStep BranchSim := by
  intro op s d h
  cases op with
  | kv actor op => exact branchStep_kv actor op h
  | entry j =>
    simp only [branchStep, directStep, getElem?_opened h j]
    cases s.opened[j]? with
    | none => exact ⟨rfl, h⟩
    | some i => exact ⟨by simp [OpenIterator.entry, OpenIterator.toList,
        (iterators i.depth).entry_eq_head? i.state], h⟩
  | next j =>
    simp only [branchStep, directStep, getElem?_opened h j]
    cases s.opened[j]? with
    | none => exact ⟨rfl, h⟩
    | some =>
      refine ⟨rfl, h.known, h.current, h.saved, ?_⟩
      simp [h.opened, OpenIterator.toList_next]
  | openBranch => exact branchStep_open h
  | applyBranch order => exact branchStep_apply order h
  | dropBranch => exact branchStep_drop h

/-- Through nested branches every operation is answered as on the destination
itself, and applying branches, with their actors listed in any order, leaves the
destination with the content that running the operations directly gives it. -/
theorem branches_refine_direct (ops : List BranchOp) (dest : Dest) :
    let real := run branchStep ops { stack := ⟨dest, []⟩, opened := [] }
    let direct := run directStep ops { current := dest, saved := [], opened := [] }
    real.1 = direct.1 ∧
      view real.2.stack.dest real.2.stack.levels = direct.2.current ∧
      (real.2.stack.levels = [] → real.2.stack.dest = direct.2.current) ∧
      real.2.opened.map OpenIterator.toList = direct.2.opened := by
  have hinit : BranchSim { stack := ⟨dest, []⟩, opened := [] }
      { current := dest, saved := [], opened := [] } :=
    ⟨fun w hw => absurd hw not_mem_nil, rfl, rfl, rfl⟩
  obtain ⟨hreplies, hsim⟩ := branchStep_simulates.run ops hinit
  refine ⟨hreplies, hsim.current, ?_, hsim.opened⟩
  intro hlevels
  rw [← hsim.current, hlevels]
  rfl

/-- Two nested branches written by two actors and applied. -/
theorem branches_refine_direct_nested :
    (run branchStep
      [.openBranch, .kv [1] (.set [7] (some [1])), .openBranch, .kv [2] (.set [7] (some [2])),
        .kv [1] (.delete [7]), .applyBranch ⟨id, fun l => List.Perm.refl l⟩,
        .applyBranch ⟨List.reverse, reverse_perm⟩, .kv [1] (.get [7]), .kv [2] (.get [7])]
      { stack := ⟨fun _ => .ok ∅, []⟩, opened := [] }).1 =
    [.done, .done, .done, .done, .done, .done, .done, .value none, .value (some [2])] :=
  (branches_refine_direct _ _).1.trans (by decide)

end CosmosSDK.STF
