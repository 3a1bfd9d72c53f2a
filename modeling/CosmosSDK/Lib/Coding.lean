import CosmosSDK.Lib.Fallible

/-!
# Coding into buffers

A writer puts a value at the front of a buffer and counts the bytes; a reader takes a
value from the front.  Written and read one behind the other, values that each can be read back
can be read back together.  A terminal reader takes all there is, so that nothing may follow.
-/

namespace Coding

open Fallible List

variable {ε X Y Z : Type}

abbrev Writer (ε : Type) := List UInt8 → Except ε (Nat × List UInt8)

abbrev Reader (ε X : Type) := List UInt8 → Except ε (Nat × X)

def zeros (n : Nat) : List UInt8 := List.replicate n 0

@[simp] theorem length_zeros (n : Nat) : (zeros n).length = n := length_replicate

theorem zeros_add (m n : Nat) : zeros (m + n) = zeros m ++ zeros n :=
  replicate_append_replicate.symm

/-! ## One behind the other -/

def nothing : Writer ε := fun buffer => .ok (0, buffer)

def Writer.andThen (w w' : Writer ε) : Writer ε := fun buffer => do
  let first ← w buffer
  let second ← w' (first.2.drop first.1)
  .ok (first.1 + second.1, first.2.take first.1 ++ second.2)

def Reader.map (f : X → Y) (r : Reader ε X) : Reader ε Y := fun buffer => do
  let read ← r buffer
  .ok (read.1, f read.2)

def Reader.andThen (r : Reader ε X) (r' : Reader ε Y) : Reader ε (X × Y) := fun buffer => do
  let first ← r buffer
  let second ← r' (buffer.drop first.1)
  .ok (first.1 + second.1, first.2, second.2)

theorem Reader.map_map (f : X → Y) (g : Y → Z) (r : Reader ε X) :
    (r.map f).map g = r.map (g ∘ f) := by
  funext buffer
  unfold Reader.map
  cases r buffer <;> rfl

theorem Reader.map_andThen_map {X' Y' : Type} (f : X → X') (g : Y → Y') (r : Reader ε X)
    (r' : Reader ε Y) : (r.map f).andThen (r'.map g) = (r.andThen r').map (Prod.map f g) := by
  funext buffer
  simp only [Reader.andThen, Reader.map]
  cases r buffer with
  | error => rfl
  | ok first =>
    simp only [ok_bind]
    cases r' (buffer.drop first.1) <;> rfl

/-! ## What can be read back -/

/-- The writer fails on every buffer that is fresh for `size` bytes. -/
def Refuses (w : Writer ε) (size : Nat) : Prop := ∀ tail, ∃ e, w (zeros size ++ tail) = .error e

/-- The writer turns `size` fresh bytes into given ones and leaves what follows. -/
structure Fills (w : Writer ε) (size : Nat) (out : List UInt8) : Prop where
  length : out.length = size
  write : ∀ tail, w (zeros size ++ tail) = .ok (size, out ++ tail)

/-- A value is read back from bytes if it is `good`, and otherwise never. -/
structure ReadsBack (r : Reader ε X) (out : List UInt8) (x : X) (terminal : Bool) (good : Prop) :
    Prop where
  read : good → ∀ rest, (terminal = true → rest = []) → r (out ++ rest) = .ok (out.length, x)
  misread : ¬ good → ∀ rest n, r (out ++ rest) ≠ .ok (n, x)

/-- A value is refused by its writer, or fills the bytes and can be read back if it is `good`. -/
def Codes (w : Writer ε) (size : Nat) (r : Reader ε X) (x : X) (terminal : Bool) (good : Prop) : Prop :=
  Refuses w size ∨ ∃ out, Fills w size out ∧ ReadsBack r out x terminal good

section

variable {w w' : Writer ε} {size size' : Nat} {r : Reader ε X} {r' : Reader ε Y} {x : X} {y : Y}
  {terminal : Bool} {good good' : Prop} {out out' : List UInt8}

theorem Fills.andThen (h : Fills w size out) (h' : Fills w' size' out') :
    Fills (w.andThen w') (size + size') (out ++ out') where
  length := by rw [length_append, h.length, h'.length]
  write tail := by
    have hdrop (l : List UInt8) : (out ++ l).drop size = l := by rw [← h.length, drop_left]
    have htake (l : List UInt8) : (out ++ l).take size = out := by rw [← h.length, take_left]
    unfold Writer.andThen
    rw [zeros_add, append_assoc, h.write, ok_bind, hdrop, h'.write, ok_bind,
      htake, append_assoc]

theorem Refuses.andThen_left (h : Refuses w size) : Refuses (w.andThen w') (size + size') := by
  intro tail
  obtain ⟨e, he⟩ := h (zeros size' ++ tail)
  refine ⟨e, ?_⟩
  unfold Writer.andThen
  rw [zeros_add, append_assoc, he, error_bind]

theorem Refuses.andThen_right (hw : Fills w size out) (h : Refuses w' size') :
    Refuses (w.andThen w') (size + size') := by
  intro tail
  obtain ⟨e, he⟩ := h tail
  have hdrop (l : List UInt8) : (out ++ l).drop size = l := by rw [← hw.length, drop_left]
  refine ⟨e, ?_⟩
  unfold Writer.andThen
  rw [zeros_add, append_assoc, hw.write, ok_bind, hdrop, he, error_bind]

theorem ReadsBack.andThen (h : ReadsBack r out x false good)
    (h' : ReadsBack r' out' y terminal good') :
    ReadsBack (r.andThen r') (out ++ out') (x, y) terminal (good ∧ good') where
  read hgood rest hrest := by
    unfold Reader.andThen
    rw [append_assoc, h.read hgood.1 _ (by simp), ok_bind, drop_left,
      h'.read hgood.2 rest hrest, ok_bind, length_append]
  misread hbad rest n heq := by
    unfold Reader.andThen at heq
    rw [append_assoc] at heq
    simp only [bind_eq_ok] at heq
    obtain ⟨⟨m, _⟩, hfirst, ⟨m', _⟩, hsecond, heq⟩ := heq
    obtain ⟨_, hpair⟩ := Prod.mk.inj (Except.ok.inj heq)
    obtain ⟨rfl, rfl⟩ := Prod.mk.inj hpair
    by_cases hgood : good
    · -- the first value is read back, so the second is read from its own bytes
      rw [h.read hgood _ (by simp)] at hfirst
      cases hfirst
      rw [drop_left] at hsecond
      exact h'.misread (fun hgood' => hbad ⟨hgood, hgood'⟩) rest m' hsecond
    · exact h.misread hgood (out' ++ rest) m hfirst

theorem Codes.andThen (h : Codes w size r x false good) (h' : Codes w' size' r' y terminal good') :
    Codes (w.andThen w') (size + size') (r.andThen r') (x, y) terminal (good ∧ good') := by
  cases h with
  | inl hrefuses => exact .inl hrefuses.andThen_left
  | inr hcodes =>
    obtain ⟨out, hfills, hreads⟩ := hcodes
    cases h' with
    | inl hrefuses => exact .inl (hrefuses.andThen_right hfills)
    | inr hcodes' =>
      obtain ⟨out', hfills', hreads'⟩ := hcodes'
      exact .inr ⟨out ++ out', hfills.andThen hfills', hreads.andThen hreads'⟩

theorem Codes.map {f : X → Y} (hf : Function.Injective f) (h : Codes w size r x terminal good) :
    Codes w size (r.map f) (f x) terminal good := by
  cases h with
  | inl hrefuses => exact .inl hrefuses
  | inr hcodes =>
    obtain ⟨out, hfills, hreads⟩ := hcodes
    refine .inr ⟨out, hfills, ⟨fun hgood rest hrest => ?_, fun hbad rest n heq => ?_⟩⟩
    · unfold Reader.map
      rw [hreads.read hgood rest hrest, ok_bind]
    · unfold Reader.map at heq
      obtain ⟨⟨m, _⟩, hread, heq⟩ := bind_eq_ok.mp heq
      obtain ⟨_, hx⟩ := Prod.mk.inj (Except.ok.inj heq)
      obtain rfl := hf hx
      exact hreads.misread hbad rest m hread

/-! ## Values that may be absent -/

/-- An absent value is not written. -/
def part (write : X → Writer ε) : Option X → Writer ε
  | none => nothing
  | some x => write x

def partSize (size : X → Nat) : Option X → Nat
  | none => 0
  | some x => size x

def Present (good : X → Prop) : Option X → Prop
  | none => False
  | some x => good x

theorem Codes.part {write : X → Writer ε} {size : X → Nat} {good : X → Prop}
    (h : ∀ x, Codes (write x) (size x) r x terminal (good x)) (o : Option X) :
    Codes (Coding.part write o) (partSize size o) (r.map some) o terminal (Present good o) := by
  cases o with
  | some x => exact (h x).map (Option.some_injective X)
  | none =>
    refine .inr ⟨[], ⟨rfl, fun tail => rfl⟩, ⟨fun hgood => hgood.elim, fun _ rest n heq => ?_⟩⟩
    unfold Reader.map at heq
    obtain ⟨_, _, heq⟩ := bind_eq_ok.mp heq
    simp at heq

theorem Refuses.ne_ok (h : Refuses w size) {written : Nat × List UInt8} :
    w (zeros size) ≠ .ok written := by
  intro hw
  obtain ⟨_, he⟩ := h []
  rw [append_nil, hw] at he
  simp at he

theorem Codes.of_ok (h : Codes w size r x terminal good) {n : Nat} (hw : w (zeros size) = .ok (n, out)) :
    n = size ∧ Fills w size out ∧ ReadsBack r out x terminal good := by
  cases h with
  | inl hrefuses => exact absurd hw hrefuses.ne_ok
  | inr hcodes =>
    obtain ⟨_, hfills, hreads⟩ := hcodes
    have hwrite := hfills.write []
    rw [append_nil, hw, append_nil] at hwrite
    cases hwrite
    exact ⟨rfl, hfills, hreads⟩

/-- What an encoding into a fresh buffer says: the size is what was counted and written, and
decoding gives the value back if and only if it is `good`. -/
theorem Codes.exact (h : Codes w size r x terminal good) {n : Nat}
    (hw : w (zeros size) = .ok (n, out)) : n = size ∧ out.length = size ∧
      ((∀ rest, (terminal = true → rest = []) → r (out ++ rest) = .ok (n, x)) ↔ good) := by
  obtain ⟨rfl, hfills, hreads⟩ := h.of_ok hw
  refine ⟨rfl, hfills.length, fun hread => ?_, fun hgood rest hrest => ?_⟩
  · by_contra hbad
    exact hreads.misread hbad [] n (hread [] (fun _ => rfl))
  · rw [hreads.read hgood rest hrest, hfills.length]

end

end Coding
