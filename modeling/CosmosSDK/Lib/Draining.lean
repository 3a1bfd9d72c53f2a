import Mathlib.Data.List.MinMax

/-!
# Draining queues along a sorted list of nodes

Every node belongs to an owner and every owner has a queue.  At a node its owner's queue
is served until an element waits for the next node.  When the nodes are sorted by falling
value, every queued element has a node of its own value, and no element waits for a node
that is not above it, then nothing is left in any queue after the last node.
-/

namespace Draining

open List Function

variable {N X S V : Type}

section Reach

variable [LinearOrder V] {value : N → V} {rank : X → V} {owner : N → S}

/-- Every beginning of a queue has a node of its owner ahead that is above none of its
elements. -/
def Reaches (owner : N → S) (value : N → V) (rank : X → V) (nodes : List N)
    (queue : S → List X) : Prop :=
  ∀ s c, c < (queue s).length →
    ∃ n ∈ nodes, owner n = s ∧ ∀ x ∈ (queue s).take (c + 1), value n ≤ rank x

variable {queue : S → List X}

theorem reaches_of_nodes {nodes : List N}
    (h : ∀ s, ∀ x ∈ queue s, ∃ n ∈ nodes, owner n = s ∧ value n = rank x) :
    Reaches owner value rank nodes queue := by
  intro s c hc
  have hne : (queue s).take (c + 1) ≠ [] := by
    intro hnil
    have hlen := congrArg List.length hnil
    rw [length_take, length_nil] at hlen
    omega
  obtain ⟨x, hx⟩ := Option.ne_none_iff_exists'.mp (mt (argmin_eq_none (f := rank)).mp hne)
  obtain ⟨n, hn, howner, hvalue⟩ := h s x ((take_sublist _ _).subset (argmin_mem hx))
  exact ⟨n, hn, howner, fun y hy => hvalue ▸ le_of_mem_argmin hy hx⟩

end Reach

variable [DecidableEq S]

def served (owner : N → S) (waits : List N → X → Bool) : List N → (S → List X) → List X
  | [], _ => []
  | n :: rest, queue =>
    (queue (owner n)).takeWhile (fun x => !waits rest x) ++
      served owner waits rest (update queue (owner n)
        ((queue (owner n)).dropWhile (fun x => !waits rest x)))

def leftover (owner : N → S) (waits : List N → X → Bool) : List N → (S → List X) → S → List X
  | [], queue => queue
  | n :: rest, queue =>
    leftover owner waits rest (update queue (owner n)
      ((queue (owner n)).dropWhile (fun x => !waits rest x)))

variable {owner : N → S} {waits : List N → X → Bool}

theorem filter_served_append (owner : N → S) (waits : List N → X → Bool) (owned : X → S)
    (nodes : List N) (queue : S → List X) (h : ∀ s, ∀ x ∈ queue s, owned x = s) (s : S) :
    (served owner waits nodes queue).filter (fun x => owned x = s) ++
      leftover owner waits nodes queue s = queue s := by
  induction nodes generalizing queue with
  | nil => simp [served, leftover]
  | cons n rest ih =>
    let go := fun x => !waits rest x
    let queue' := update queue (owner n) ((queue (owner n)).dropWhile go)
    have hmem : ∀ s, ∀ x ∈ queue' s, owned x = s := by
      intro s x hx
      by_cases hs : s = owner n
      · subst hs
        rw [show queue' (owner n) = (queue (owner n)).dropWhile go from
          update_self ..] at hx
        exact h _ x ((dropWhile_sublist _).subset hx)
      · rw [show queue' s = queue s from update_of_ne hs ..] at hx
        exact h s x hx
    have hrest := ih queue' hmem
    show ((queue (owner n)).takeWhile go ++ served owner waits rest queue').filter _ ++
      leftover owner waits rest queue' s = queue s
    rw [filter_append, append_assoc, hrest]
    by_cases hs : s = owner n
    · subst hs
      have hall : ((queue (owner n)).takeWhile go).filter (fun x => owned x = owner n) =
          (queue (owner n)).takeWhile go := by
        rw [filter_eq_self]
        intro x hx
        exact decide_eq_true (h _ x ((takeWhile_sublist _).subset hx))
      rw [hall, show queue' (owner n) = (queue (owner n)).dropWhile go from
        update_self .., takeWhile_append_dropWhile]
    · have hnone : ((queue (owner n)).takeWhile go).filter (fun x => owned x = s) = [] := by
        rw [filter_eq_nil_iff]
        intro x hx hxs
        have hx := h _ x ((takeWhile_sublist _).subset hx)
        exact hs ((of_decide_eq_true hxs).symm.trans hx)
      rw [hnone, nil_append, show queue' s = queue s from update_of_ne hs ..]

section Value

variable [LinearOrder V] {value : N → V} {rank : X → V}

theorem length_dropWhile_add_lt {p : X → Bool} {l : List X} {c : Nat} (hc : c < l.length)
    (h : ∀ x ∈ l.take (c + 1), p x = true) : (l.dropWhile p).length + c < l.length := by
  induction l generalizing c with
  | nil => simp at hc
  | cons a l ih =>
    have ha : p a = true := h a (by simp)
    rw [dropWhile_cons_of_pos ha, length_cons]
    cases c with
    | zero =>
      have := (dropWhile_sublist p (l := l)).length_le
      omega
    | succ c =>
      have hlt : c < l.length := by
        rw [length_cons] at hc
        omega
      have := ih hlt fun x hx => h x (by
        rw [take_succ_cons]
        exact mem_cons_of_mem _ hx)
      omega

theorem take_dropWhile_subset {p : X → Bool} {l : List X} {c : Nat} :
    ∀ x ∈ (l.dropWhile p).take (c + 1), x ∈ l.take (l.length - (l.dropWhile p).length + c + 1) := by
  intro x hx
  have hsplit : l.takeWhile p ++ l.dropWhile p = l := takeWhile_append_dropWhile
  have hlen : (l.takeWhile p).length = l.length - (l.dropWhile p).length := by
    have := congrArg List.length hsplit
    rw [length_append] at this
    omega
  have htake : (l.takeWhile p ++ l.dropWhile p).take ((l.takeWhile p).length + (c + 1)) =
      l.takeWhile p ++ (l.dropWhile p).take (c + 1) := take_length_add_append _
  rw [hsplit, hlen, ← Nat.add_assoc] at htake
  rw [htake]
  exact mem_append_right _ hx

theorem reaches_update {n : N} {rest : List N}
    (h : Reaches owner value rank (n :: rest) queue) (habove : ∀ m ∈ rest, value m ≤ value n)
    (hgo : ∀ x, (∀ m, rest.head? = some m → value m ≤ rank x) → waits rest x = false) :
    Reaches owner value rank rest (update queue (owner n)
      ((queue (owner n)).dropWhile (fun x => !waits rest x))) := by
  intro s c hc
  by_cases hs : s = owner n
  · subst hs
    rw [update_self] at hc ⊢
    -- the dropped elements and the first `c + 1` of the rest begin the old queue
    have hle := (dropWhile_sublist (fun x => !waits rest x) (l := queue (owner n))).length_le
    obtain ⟨m, hm, howner, hm'⟩ := h (owner n)
      ((queue (owner n)).length -
        ((queue (owner n)).dropWhile fun x => !waits rest x).length + c) (by omega)
    rcases mem_cons.mp hm with rfl | hm
    · -- none of those elements waits, so more would have been dropped
      have hdrop := length_dropWhile_add_lt (p := fun x => !waits rest x) (l := queue (owner m))
        (c := (queue (owner m)).length -
          ((queue (owner m)).dropWhile fun x => !waits rest x).length + c) (by omega)
        (fun x hx => by
          rw [hgo x fun k hk => le_trans (habove k (mem_of_head? hk)) (hm' x hx)]
          rfl)
      omega
    · exact ⟨m, hm, howner, fun x hx => hm' x (take_dropWhile_subset x hx)⟩
  · rw [update_of_ne hs] at hc ⊢
    obtain ⟨m, hm, howner, hm'⟩ := h s c hc
    rcases mem_cons.mp hm with rfl | hm
    · exact absurd howner.symm hs
    · exact ⟨m, hm, howner, hm'⟩

theorem leftover_eq_nil (waits : List N → X → Bool) {nodes : List N}
    (h : Reaches owner value rank nodes queue)
    (hsorted : nodes.Pairwise (fun n m => value m ≤ value n))
    (hgo : ∀ rest x, (∀ m, rest.head? = some m → value m ≤ rank x) → waits rest x = false)
    (s : S) : leftover owner waits nodes queue s = [] := by
  induction nodes generalizing queue with
  | nil =>
    by_contra hne
    obtain ⟨n, hn, -⟩ := h s 0 (length_pos_of_ne_nil hne)
    simp at hn
  | cons n rest ih =>
    obtain ⟨hn, hrest⟩ := pairwise_cons.mp hsorted
    exact ih (reaches_update h hn (hgo rest)) hrest

end Value

end Draining
