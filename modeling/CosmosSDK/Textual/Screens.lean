import CosmosSDK.Lib.BigEndian
import CosmosSDK.Lib.Fallible
import CosmosSDK.Lib.PrefixFree
import CosmosSDK.Lib.SortOn
import CosmosSDK.Store.MemIterator

/-!
# The sign bytes of SIGN_MODE_TEXTUAL

`x/tx/signing/textual/encode.go` with `internal/cbor/cbor.go`: screens are written as CBOR
maps of their fields without the empty ones.  Headers tell how many bytes, elements or
entries follow, so every item delimits itself and different screens have different sign
bytes.
-/

namespace CosmosSDK.Textual

open Store Fallible List BigEndian

/-! ## CBOR -/

def encodeFirstByte (major extra : UInt8) : UInt8 := (major <<< 5) ||| (extra &&& 0x1F)

def encodePrefix (major : UInt8) (arg : Nat) : Bytes :=
  if arg < 24 then [encodeFirstByte major (UInt8.ofNat arg)]
  else if arg ≤ 255 then [encodeFirstByte major 24, UInt8.ofNat arg]
  else if arg ≤ 65535 then encodeFirstByte major 25 :: bytes 2 arg
  else if arg ≤ 4294967295 then encodeFirstByte major 26 :: bytes 4 arg
  else encodeFirstByte major 27 :: bytes 8 arg

inductive CborErr where
  | duplicateKeys (idx previous : Nat)

/-- `Cbor` has the method `Encode` only: an item is what it writes. -/
abbrev Cbor := Except CborErr Bytes

namespace Cbor

def newUint (n : Nat) : Cbor := .ok (encodePrefix 0 n)

def newText (s : Bytes) : Cbor := .ok (encodePrefix 3 s.length ++ s)

def newBool (b : Bool) : Cbor := .ok (encodePrefix 7 (if b then 21 else 20))

/-- `Array.Encode`. -/
def array (elts : List Cbor) : Cbor := do
  let written ← elts.mapM id
  .ok (encodePrefix 4 elts.length ++ written.flatten)

/-- The last loop of `Map.Encode`, over rendered keys with their positions and values. -/
def writeEntries : Option (Bytes × Nat) → List ((Bytes × Cbor) × Nat) → Cbor
  | _, [] => .ok []
  | prevKey, ((key, val), idx) :: entries =>
    match prevKey with
    | some (prev, prevIdx) =>
      if prev = key then .error (.duplicateKeys idx prevIdx)
      else do
        let val ← val
        let rest ← writeEntries (some (key, idx)) entries
        .ok (key ++ val ++ rest)
    | none => do
        let val ← val
        let rest ← writeEntries (some (key, idx)) entries
        .ok (key ++ val ++ rest)

/-- `Map.Encode`: the entries by their encoded keys. -/
def map (entries : List (Cbor × Cbor)) : Cbor := do
  let renderedKeys ← entries.mapM Prod.fst
  let sorted := SortOn.sortOn (fun e : (Bytes × Cbor) × Nat => e.1.1)
    (renderedKeys.zip (entries.map Prod.snd)).zipIdx
  let written ← writeEntries none sorted
  .ok (encodePrefix 5 entries.length ++ written)

end Cbor

/-! ## Screens -/

/-- A string; its length is an `int`. -/
abbrev GoString := { s : Bytes // s.length < 2 ^ 63 }

structure Screen where
  title : GoString
  content : GoString
  indent : Int
  expert : Bool
  indent_lt : indent < 2 ^ 63

/-- A slice of screens; its length is an `int`. -/
abbrev Screens := { l : List Screen // l.length < 2 ^ 63 }

def Screen.cbor (s : Screen) : Cbor :=
  .map ((if s.title.1 ≠ [] then [(.newUint 1, .newText s.title.1)] else []) ++
    (if s.content.1 ≠ [] then [(.newUint 2, .newText s.content.1)] else []) ++
    (if 0 < s.indent then [(.newUint 3, .newUint s.indent.toNat)] else []) ++
    if s.expert then [(.newUint 4, .newBool s.expert)] else [])

def encode (screens : List Screen) : Cbor :=
  .map [(.newUint 1, .array (screens.map Screen.cbor))]

/-! ## Headers -/

/-- The header of `arg`: what the first byte tells, and in how many bytes `arg` follows. -/
def header (arg : Nat) : Nat × Nat :=
  if arg < 24 then (arg, 0) else if arg ≤ 255 then (24, 1) else if arg ≤ 65535 then (25, 2)
  else if arg ≤ 4294967295 then (26, 4) else (27, 8)

theorem encodePrefix_eq (major : UInt8) (arg : Nat) :
    encodePrefix major arg = encodeFirstByte major (UInt8.ofNat (header arg).1) ::
      bytes (header arg).2 arg := by
  unfold encodePrefix header
  split_ifs <;> simp [bytes]

theorem encodeFirstByte_toNat : ∀ major < 8, ∀ extra < 32,
    (encodeFirstByte (UInt8.ofNat major) (UInt8.ofNat extra)).toNat = 32 * major + extra := by
  decide +kernel

theorem encodePrefix_prefixFree (major : Nat) (hmajor : major < 8) :
    PrefixFree.On (· < 2 ^ 64) (encodePrefix (UInt8.ofNat major)) := by
  intro a b ha hb x y h
  rw [encodePrefix_eq, encodePrefix_eq, cons_append, cons_append, List.cons.injEq] at h
  obtain ⟨hfirst, h⟩ := h
  have hextra : (header a).1 < 32 ∧ (header b).1 < 32 := by
    unfold header
    split_ifs <;> omega
  have hsame : (header a).1 = (header b).1 := by
    have := congrArg UInt8.toNat hfirst
    rw [encodeFirstByte_toNat _ hmajor _ hextra.1, encodeFirstByte_toNat _ hmajor _ hextra.2] at this
    omega
  have hwidth : (header a).2 = (header b).2 := by
    unfold header at hsame ⊢
    split_ifs at hsame ⊢ <;> omega
  obtain ⟨hbytes, hrest⟩ := append_inj h (by rw [length_bytes,
    length_bytes, hwidth])
  have hvalue := congrArg value hbytes
  rw [value_bytes, value_bytes, ← hwidth] at hvalue
  refine ⟨?_, hrest⟩
  unfold header at hsame hvalue
  split_ifs at hsame hvalue <;> dsimp only at hsame hvalue <;> omega

/-! ## Maps with keys in order -/

theorem writeEntries_of_sorted (prevKey : Option (Bytes × Nat)) {entries : List (Bytes × Bytes)}
    (hprev : ∀ prev ∈ prevKey, ∀ e ∈ entries, compare prev.1 e.1 = .lt)
    (hsorted : entries.Pairwise (fun e e' => compare e.1 e'.1 = .lt)) (n : Nat) :
    Cbor.writeEntries prevKey ((entries.map fun e => (e.1, .ok e.2)).zipIdx n) =
      .ok (entries.flatMap fun e => e.1 ++ e.2) := by
  induction entries generalizing prevKey n with
  | nil => cases prevKey <;> rfl
  | cons e entries ih =>
    obtain ⟨hhead, htail⟩ := pairwise_cons.mp hsorted
    have hrest := ih (some (e.1, n)) (by simpa using hhead) htail (n + 1)
    rw [map_cons, zipIdx_cons]
    cases prevKey with
    | none => simp [Cbor.writeEntries, hrest]
    | some prev =>
      have hlt := hprev prev rfl e mem_cons_self
      have hne : prev.1 ≠ e.1 := by
        intro heq
        have hself : compare e.1 e.1 = .eq := Std.ReflCmp.compare_self
        rw [heq, hself] at hlt
        cases hlt
      simp [Cbor.writeEntries, hne, hrest]

theorem map_of_sorted (entries : List (Bytes × Bytes))
    (hsorted : entries.Pairwise (fun e e' => compare e.1 e'.1 = .lt)) :
    Cbor.map (entries.map fun e => (.ok e.1, .ok e.2)) =
      .ok (encodePrefix 5 entries.length ++ entries.flatMap fun e => e.1 ++ e.2) := by
  have hkeys : (entries.map fun e => ((.ok e.1, .ok e.2) : Cbor × Cbor)).mapM Prod.fst =
      .ok (entries.map Prod.fst) := by
    simp [mapM_eq_ok]
  have hzip : (entries.map Prod.fst).zip
      ((entries.map fun e => ((.ok e.1, .ok e.2) : Cbor × Cbor)).map Prod.snd) =
        entries.map fun e => (e.1, (.ok e.2 : Cbor)) := by
    rw [map_map, zip_map']
    rfl
  have horder : ((entries.map fun e => (e.1, (.ok e.2 : Cbor))).zipIdx).Pairwise
      (SortOn.le fun e : (Bytes × Cbor) × Nat => e.1.1) := by
    change List.Pairwise
      (fun a b : (Bytes × Cbor) × Nat => (compare a.1.1 b.1.1).isLE = true) _
    rw [← pairwise_map
      (R := fun a b : Bytes × Cbor => (compare a.1 b.1).isLE = true), zipIdx_map_fst,
      pairwise_map]
    exact hsorted.imp fun hlt => by rw [hlt]; rfl
  simp only [Cbor.map, hkeys, ok_bind, hzip, SortOn.sortOn, horder.insertionSort_eq,
    writeEntries_of_sorted none (by simp) hsorted, length_map]

/-! ## Screens as fields -/

inductive Field where
  | title (s : GoString)
  | content (s : GoString)
  | indent (n : Nat)
  | expert

namespace Field

def key : Field → Bytes
  | title _ => encodePrefix 0 1
  | content _ => encodePrefix 0 2
  | indent _ => encodePrefix 0 3
  | expert => encodePrefix 0 4

def value : Field → Bytes
  | title s => encodePrefix 3 s.1.length ++ s.1
  | content s => encodePrefix 3 s.1.length ++ s.1
  | indent n => encodePrefix 0 n
  | expert => encodePrefix 7 21

def write (f : Field) : Bytes := f.key ++ f.value

def InRange : Field → Prop
  | indent n => n < 2 ^ 64
  | _ => True

def set : GoString × GoString × Int × Bool → Field → GoString × GoString × Int × Bool
  | (_, c, i, e), title s => (s, c, i, e)
  | (t, _, i, e), content s => (t, s, i, e)
  | (t, c, _, e), indent n => (t, c, n, e)
  | (t, c, i, _), expert => (t, c, i, true)

theorem write_prefixFree : PrefixFree.On InRange write := by
  intro f g hf hg x y h
  have htext := fun (s s' : GoString)
      (h : encodePrefix 3 s.1.length ++ (s.1 ++ x) = encodePrefix 3 s'.1.length ++ (s'.1 ++ y)) =>
    (encodePrefix_prefixFree 3 (by decide)).delimited
      (s.2.trans (by decide)) (s'.2.trans (by decide)) id h
  have hone : encodePrefix 0 1 = [1] := rfl
  have htwo : encodePrefix 0 2 = [2] := rfl
  have hthree : encodePrefix 0 3 = [3] := rfl
  have hfour : encodePrefix 0 4 = [4] := rfl
  cases f <;> cases g <;>
    simp [write, key, value, hone, htwo, hthree, hfour] at h
  case title.title s s' =>
    obtain ⟨hs, hxy⟩ := htext s s' h
    exact ⟨by rw [Subtype.ext hs], hxy⟩
  case content.content s s' =>
    obtain ⟨hs, hxy⟩ := htext s s' h
    exact ⟨by rw [Subtype.ext hs], hxy⟩
  case indent.indent n m =>
    obtain ⟨hn, hxy⟩ := encodePrefix_prefixFree 0 (by decide) hf hg h
    exact ⟨by rw [hn], hxy⟩
  case expert.expert => exact ⟨rfl, h⟩

end Field

def Screen.fields (s : Screen) : List Field :=
  (if s.title.1 ≠ [] then [.title s.title] else []) ++
    (if s.content.1 ≠ [] then [.content s.content] else []) ++
    (if 0 < s.indent then [.indent s.indent.toNat] else []) ++
    if s.expert then [.expert] else []

def Screen.write (s : Screen) : Bytes :=
  encodePrefix 5 s.fields.length ++ s.fields.flatMap Field.write

theorem Screen.cbor_eq (s : Screen) : s.cbor = .ok s.write := by
  have hfields : s.cbor = Cbor.map
      ((s.fields.map fun f => (f.key, f.value)).map fun e => (.ok e.1, .ok e.2)) := by
    unfold Screen.cbor Screen.fields
    split_ifs <;> simp_all [Field.key, Field.value, Cbor.newUint, Cbor.newText, Cbor.newBool]
  have hsorted : (s.fields.map fun f => (f.key, f.value)).Pairwise
      (fun e e' => compare e.1 e'.1 = .lt) := by
    rw [pairwise_map]
    unfold Screen.fields
    split_ifs <;> simp [Field.key] <;> decide
  rw [hfields, map_of_sorted _ hsorted, length_map, flatMap_map]
  rfl

theorem Screen.foldl_fields (s : Screen) (hs : 0 ≤ s.indent) :
    s.fields.foldl Field.set (⟨[], by decide⟩, ⟨[], by decide⟩, 0, false) =
      (s.title, s.content, s.indent, s.expert) := by
  have hzero : s.indent ≤ 0 → 0 = s.indent := by omega
  unfold Screen.fields
  split_ifs <;> simp_all [Field.set, Subtype.ext_iff]

/-! ## Sign bytes -/

theorem Screen.write_prefixFree : PrefixFree.On (fun s : Screen => 0 ≤ s.indent) Screen.write := by
  intro s t hs ht x y h
  have hinRange : ∀ s : Screen, ∀ f ∈ s.fields, f.InRange := by
    intro s f hf
    have := s.indent_lt
    cases f with
    | indent n =>
      have hn : n = s.indent.toNat := by
        unfold Screen.fields at hf
        split_ifs at hf <;> simp_all
      change n < 2 ^ 64
      omega
    | _ => trivial
  have hcount : ∀ s : Screen, s.fields.length < 2 ^ 64 := by
    intro s
    unfold Screen.fields
    split_ifs <;> simp
  rw [Screen.write, Screen.write, append_assoc, append_assoc] at h
  obtain ⟨hlength, h⟩ :=
    encodePrefix_prefixFree 5 (by decide) (hcount s) (hcount t) h
  obtain ⟨hfields, hxy⟩ := Field.write_prefixFree.flatMap (hinRange s) (hinRange t) hlength h
  have hsame := s.foldl_fields hs
  rw [hfields, t.foldl_fields ht] at hsame
  refine ⟨?_, hxy⟩
  cases s
  cases t
  simp_all

theorem encode_eq (screens : List Screen) :
    encode screens = .ok (encodePrefix 5 1 ++ (encodePrefix 0 1 ++
      (encodePrefix 4 screens.length ++ screens.flatMap Screen.write))) := by
  have harray : Cbor.array (screens.map Screen.cbor) =
      .ok (encodePrefix 4 screens.length ++ screens.flatMap Screen.write) := by
    have hwritten : (screens.map Screen.cbor).mapM id = .ok (screens.map Screen.write) := by
      simp [mapM_eq_ok, Screen.cbor_eq]
    simp [Cbor.array, hwritten, flatMap_def]
  have hmap := map_of_sorted [(encodePrefix 0 1,
    encodePrefix 4 screens.length ++ screens.flatMap Screen.write)] (by simp)
  simpa [encode, harray, Cbor.newUint] using hmap

/-- Sign bytes exist, and different lists of screens have different ones. -/
theorem encode_injective (screens screens' : Screens) (h : ∀ s ∈ screens.1, 0 ≤ s.indent)
    (h' : ∀ s ∈ screens'.1, 0 ≤ s.indent) : (∃ bytes, encode screens.1 = .ok bytes) ∧
      (encode screens.1 = encode screens'.1 → screens = screens') := by
  refine ⟨⟨_, encode_eq _⟩, fun heq => ?_⟩
  rw [encode_eq, encode_eq, Except.ok.injEq] at heq
  have hrest := append_cancel_left (append_cancel_left heq)
  obtain ⟨hlength, hrest⟩ := encodePrefix_prefixFree 4 (by decide)
    (screens.2.trans (by decide)) (screens'.2.trans (by decide)) hrest
  have hscreens := Screen.write_prefixFree.flatMap h h' hlength (y := []) (by rw [hrest])
  exact Subtype.ext hscreens.1

def twoScreens : Screens :=
  ⟨[⟨⟨[104, 105], by decide⟩, ⟨[1], by decide⟩, 0, true, by decide⟩,
    ⟨⟨[], by decide⟩, ⟨[1], by decide⟩, 300, false, by decide⟩], by decide⟩

theorem twoScreens_signBytes :
    encode twoScreens.1 ≠ encode (⟨twoScreens.1.take 1, by decide⟩ : Screens).1 := by
  intro heq
  have := (encode_injective twoScreens ⟨twoScreens.1.take 1, by decide⟩
    (by simp [twoScreens]) (by simp [twoScreens])).2 heq
  simp [twoScreens] at this

end CosmosSDK.Textual
