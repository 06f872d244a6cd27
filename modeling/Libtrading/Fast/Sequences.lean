import Libtrading.Fast.DecodeFacts
import Libtrading.Fast.Message
import Libtrading.Fast.Template

/-!
# Interrupted sequences

The element loop of `fast_decode_sequence` resumes at the item it was
interrupted in: `elementItem` is one turn of it, and taking the loop up again
with more bytes does what a loop that had them from the start does. Around
it, the map of the message is given back as it was before the sequence, so a
length that took a bit of that map has not taken it when the elements go on.
-/

namespace Libtrading.Fast
set_option autoImplicit false
open Buffer

/-! ## Elements -/

/-- Once elements are begun, the length is in range. -/
def Sequence.Regular (s : Sequence) : Prop := s.decoded ≠ 0 → s.length.value.toNat < sequenceElements

/-- What decoding an element leaves of a sequence. -/
structure Sequence.Keeps (s s' : Sequence) : Prop where
  length : s'.length = s.length
  decoded : s'.decoded = s.decoded
  pmapReq : s'.pmapReq = s.pmapReq
  fields : s'.head.length = s.head.length

namespace Sequence.Keeps

theorem refl (s : Sequence) : s.Keeps s := ⟨rfl, rfl, rfl, rfl⟩

theorem trans {a b c : Sequence} (h : a.Keeps b) (h' : b.Keeps c) : a.Keeps c :=
  ⟨h'.length.trans h.length, h'.decoded.trans h.decoded, h'.pmapReq.trans h.pmapReq, h'.fields.trans h.fields⟩

end Sequence.Keeps

/-- Decoding element 0 keeps what the template says of the sequence. -/
theorem set_head_keeps (s : Sequence) (f : ElementField) : s.Keeps (s.setHead f) :=
  ⟨rfl, rfl, rfl, by rw [Sequence.setHead, List.length_set]⟩

namespace ElementRun

def receive (x : List UInt8) (r : ElementRun) : ElementRun := { r with buffer := r.buffer.receive x }

end ElementRun

section Fields
variable {n : Nat} {b : Buffer} {s : Sequence} {f : ElementField}

/-- Behind the last field of an item the loop is done. -/
theorem element_fields_none (hf : s.head[s.msgDecoded]? = none) : decodeElementFields n b s = ⟨.ok, b, s⟩ := by
  cases n with
  | zero => rfl
  | succ n => simp only [decodeElementFields, hf]

/-- The sequence behind a field of the element that was decoded. -/
def Sequence.decodedField (s : Sequence) (r : Decoded ElementField) : Sequence :=
  { ((s.setHead r.field).setElement r.field) with pmap := r.pmap, msgDecoded := s.msgDecoded + 1 }

/-- A complete field is copied, and the loop goes on. -/
theorem element_fields_ok (hf : s.head[s.msgDecoded]? = some f) (h : (decodeElement b s.pmap f).ret = .ok) :
    decodeElementFields (n + 1) b s =
      decodeElementFields n (decodeElement b s.pmap f).buffer (s.decodedField (decodeElement b s.pmap f)) := by
  simp only [decodeElementFields, hf, h, Sequence.decodedField]

/-- A field of the element that was interrupted. -/
theorem element_fields_interrupted (hv : b.Valid) (hf : s.head[s.msgDecoded]? = some f)
    (h : (decodeElement b s.pmap f).ret = .msgPartial) :
    decodeElementFields (n + 1) b s = ⟨.msgPartial, b, s.setHead (decodeElement b s.pmap f).field⟩ := by
  simp only [decodeElementFields, hf, h]
  rw [(streams_element.moved s.pmap f hv).rewind_eq]

/-- A field that is not complete ends the loop. -/
theorem element_fields_refused (hf : s.head[s.msgDecoded]? = some f) (ok : (decodeElement b s.pmap f).ret ≠ .ok)
    (h : (decodeElement b s.pmap f).ret ≠ .msgPartial) :
    decodeElementFields (n + 1) b s =
      ⟨(decodeElement b s.pmap f).ret, (decodeElement b s.pmap f).buffer,
        { s.setHead (decodeElement b s.pmap f).field with pmap := (decodeElement b s.pmap f).pmap }⟩ := by
  cases hr : (decodeElement b s.pmap f).ret with
  | ok => exact absurd hr ok
  | msgPartial => exact absurd hr h
  | garbled => simp only [decodeElementFields, hf, hr]
  | fault => simp only [decodeElementFields, hf, hr]

theorem decoded_field_keeps (s : Sequence) (r : Decoded ElementField) : s.Keeps (s.decodedField r) :=
  (set_head_keeps s r.field).trans ⟨rfl, rfl, rfl, rfl⟩

end Fields

/-- The fields of an element are cut in a mantissa behind an exponent that moved. -/
def cutsElementFields : Nat → Buffer → Sequence → Bool
  | 0, _, _ => false
  | n + 1, b, s =>
    match s.head[s.msgDecoded]? with
    | none => false
    | some f =>
      let r := decodeElement b s.pmap f
      splitsElement b s.pmap f || (r.ret == .ok && cutsElementFields n r.buffer (s.decodedField r))

/-- The fields of an element: the buffer moves forward, the map stays the element's. -/
theorem element_fields_moved (n : Nat) {b : Buffer} (hv : b.Valid) (s : Sequence) :
    b.Moved (decodeElementFields n b s).buffer ∧ s.Keeps (decodeElementFields n b s).seq ∧
      (decodeElementFields n b s).seq.pmap.isValid = s.pmap.isValid := by
  induction n generalizing b s with
  | zero => exact ⟨hv.refl_moved, .refl s, rfl⟩
  | succ n ih =>
    cases hf : s.head[s.msgDecoded]? with
    | none => rw [element_fields_none hf]; exact ⟨hv.refl_moved, .refl s, rfl⟩
    | some f =>
      have moved := streams_element.moved s.pmap f hv
      have cursor := congrArg Pmap.isValid (streams_element.cursor b s.pmap f)
      change (decodeElement b s.pmap f).pmap.isValid = s.pmap.isValid at cursor
      by_cases ok : (decodeElement b s.pmap f).ret = .ok
      · rw [element_fields_ok hf ok]
        obtain ⟨rest, keeps, map⟩ := ih (moved.valid hv) (s.decodedField (decodeElement b s.pmap f))
        exact ⟨moved.trans rest, (decoded_field_keeps s _).trans keeps, map.trans cursor⟩
      · by_cases interrupted : (decodeElement b s.pmap f).ret = .msgPartial
        · rw [element_fields_interrupted hv hf interrupted]
          exact ⟨hv.refl_moved, set_head_keeps s _, rfl⟩
        · rw [element_fields_refused hf ok interrupted]
          exact ⟨moved, (set_head_keeps s _).trans ⟨rfl, rfl, rfl, rfl⟩, cursor⟩

/-- Later bytes change nothing the fields of an element have decided. -/
theorem element_fields_receive {n : Nat} {b : Buffer} (hv : b.Valid) {s : Sequence}
    (h : (decodeElementFields n b s).ret ≠ .msgPartial) (x : List UInt8) :
    decodeElementFields n (b.receive x) s = (decodeElementFields n b s).receive x := by
  induction n generalizing b s with
  | zero => rfl
  | succ n ih =>
    cases hf : s.head[s.msgDecoded]? with
    | none => rw [element_fields_none hf, element_fields_none hf]; rfl
    | some f =>
      by_cases interrupted : (decodeElement b s.pmap f).ret = .msgPartial
      · rw [element_fields_interrupted hv hf interrupted] at h
        exact absurd rfl h
      · have later := streams_element.receive s.pmap f hv interrupted x
        have ret : (decodeElement (b.receive x) s.pmap f).ret = (decodeElement b s.pmap f).ret := by rw [later]; rfl
        by_cases ok : (decodeElement b s.pmap f).ret = .ok
        · rw [element_fields_ok hf ok] at h ⊢
          rw [element_fields_ok hf (ret.trans ok), later]
          exact ih ((streams_element.moved s.pmap f hv).valid hv) h
        · rw [element_fields_refused hf ok interrupted,
            element_fields_refused hf (by rw [ret]; exact ok) (by rw [ret]; exact interrupted), later]
          rfl

/-- Interrupted fields of an element are taken up again at their cursor. -/
theorem element_fields_again {n : Nat} {b : Buffer} (hv : b.Valid) {s : Sequence}
    (whole : cutsElementFields n b s = false) (hn : n = s.head.length - s.msgDecoded)
    (h : (decodeElementFields n b s).ret = .msgPartial) (x : List UInt8) :
    let r := decodeElementFields n b s
    decodeElementFields (r.seq.head.length - r.seq.msgDecoded) (r.buffer.receive x) r.seq =
      decodeElementFields n (b.receive x) s := by
  induction n generalizing b s with
  | zero => exact nomatch h
  | succ n ih =>
    cases hf : s.head[s.msgDecoded]? with
    | none =>
      rw [element_fields_none hf] at h
      exact nomatch h
    | some f =>
      simp only [cutsElementFields, hf, Bool.or_eq_false_iff, Bool.and_eq_false_imp, beq_iff_eq] at whole
      by_cases interrupted : (decodeElement b s.pmap f).ret = .msgPartial
      · have hi : s.msgDecoded < s.head.length := (List.getElem?_eq_some_iff.mp hf).1
        have again := element_again hv s.pmap f whole.1 interrupted x
        rw [element_fields_interrupted hv hf interrupted]
        simp only [Sequence.setHead, List.length_set, ← hn]
        simp only [decodeElementFields, List.getElem?_set_self hi, hf, again, Sequence.setHead, List.set_set]
      · by_cases ok : (decodeElement b s.pmap f).ret = .ok
        · have later := streams_element.receive s.pmap f hv interrupted x
          have ret : (decodeElement (b.receive x) s.pmap f).ret = .ok := by rw [later]; exact ok
          rw [element_fields_ok hf ok] at h ⊢
          rw [element_fields_ok hf ret, later]
          refine ih ((streams_element.moved s.pmap f hv).valid hv) (whole.2 ok) ?_ h
          rw [(decoded_field_keeps s _).fields]
          show n = s.head.length - (s.msgDecoded + 1)
          omega
        · rw [element_fields_refused hf ok interrupted] at h
          exact absurd h interrupted

/-! ## Turns of the element loop -/

section Pmap
variable {b : Buffer} {s : Sequence}

/-- An item without a map, or with one that was read. -/
theorem element_pmap_passed (h : (s.pmapReq && !s.pmap.isValid) = false) : decodeElementPmap b s = ⟨.ok, b, s⟩ := by
  simp only [decodeElementPmap, h, Bool.false_eq_true, if_false]

theorem element_pmap_read (h : (s.pmapReq && !s.pmap.isValid) = true) (ok : (parsePmap b s.pmap).1 = .ok) :
    decodeElementPmap b s = ⟨.ok, (parsePmap b s.pmap).2.2,
      { s with pmap := { (parsePmap b s.pmap).2.1 with isValid := true, pmapBit := -1 } }⟩ := by
  rcases hp : parsePmap b s.pmap with ⟨ret, p, b'⟩
  obtain rfl : ret = .ok := by rw [← ok, hp]
  simp only [decodeElementPmap, h, if_true, hp]

theorem element_pmap_short (hv : b.Valid) (h : (s.pmapReq && !s.pmap.isValid) = true)
    (short : (parsePmap b s.pmap).1 = .msgPartial) :
    decodeElementPmap b s = ⟨.msgPartial, b, { s with pmap := (parsePmap b s.pmap).2.1 }⟩ := by
  have moved := parse_pmap_moved hv s.pmap
  rcases hp : parsePmap b s.pmap with ⟨ret, p, b'⟩
  rw [hp] at moved
  obtain rfl : ret = .msgPartial := by rw [← short, hp]
  simp only [decodeElementPmap, h, if_true, hp]
  rw [moved.rewind_eq]

theorem element_pmap_refused (h : (s.pmapReq && !s.pmap.isValid) = true) (ok : (parsePmap b s.pmap).1 ≠ .ok)
    (long : (parsePmap b s.pmap).1 ≠ .msgPartial) :
    decodeElementPmap b s =
      ⟨(parsePmap b s.pmap).1, (parsePmap b s.pmap).2.2, { s with pmap := (parsePmap b s.pmap).2.1 }⟩ := by
  rcases hp : parsePmap b s.pmap with ⟨ret, p, b'⟩
  rw [hp] at ok long
  cases ret with
  | ok => exact absurd rfl ok
  | msgPartial => exact absurd rfl long
  | garbled => simp only [decodeElementPmap, h, if_true, hp]
  | fault => simp only [decodeElementPmap, h, if_true, hp]

end Pmap

/-- The map of an element: it is there afterwards, or the call fails. -/
theorem element_pmap_moved {b : Buffer} (hv : b.Valid) (s : Sequence) :
    b.Moved (decodeElementPmap b s).buffer ∧ s.Keeps (decodeElementPmap b s).seq ∧
      ((decodeElementPmap b s).ret = .ok →
        ((decodeElementPmap b s).seq.pmapReq && !(decodeElementPmap b s).seq.pmap.isValid) = false) := by
  have moved := parse_pmap_moved hv s.pmap
  cases asked : s.pmapReq && !s.pmap.isValid with
  | false =>
    rw [element_pmap_passed asked]
    exact ⟨hv.refl_moved, .refl s, fun _ => asked⟩
  | true =>
    by_cases ok : (parsePmap b s.pmap).1 = .ok
    · rw [element_pmap_read asked ok]
      exact ⟨moved, ⟨rfl, rfl, rfl, rfl⟩, fun _ => by rw [Bool.not_true, Bool.and_false]⟩
    · by_cases short : (parsePmap b s.pmap).1 = .msgPartial
      · rw [element_pmap_short hv asked short]
        exact ⟨hv.refl_moved, ⟨rfl, rfl, rfl, rfl⟩, nofun⟩
      · rw [element_pmap_refused asked ok short]
        exact ⟨moved, ⟨rfl, rfl, rfl, rfl⟩, fun h => absurd h ok⟩

/-- Later bytes do not change the map of an item. -/
theorem element_pmap_receive {b : Buffer} (hv : b.Valid) {s : Sequence} (h : (decodeElementPmap b s).ret ≠ .msgPartial)
    (x : List UInt8) : decodeElementPmap (b.receive x) s = (decodeElementPmap b s).receive x := by
  cases asked : s.pmapReq && !s.pmap.isValid with
  | false => rw [element_pmap_passed asked, element_pmap_passed asked]; rfl
  | true =>
    by_cases short : (parsePmap b s.pmap).1 = .msgPartial
    · rw [element_pmap_short hv asked short] at h
      exact absurd rfl h
    · have later := parse_pmap_receive hv short x
      have ret : (parsePmap (b.receive x) s.pmap).1 = (parsePmap b s.pmap).1 := congrArg (·.1) later
      by_cases ok : (parsePmap b s.pmap).1 = .ok
      · rw [element_pmap_read asked ok, element_pmap_read asked (ret.trans ok), later]
        rfl
      · rw [element_pmap_refused asked ok short,
          element_pmap_refused asked (by rw [ret]; exact ok) (by rw [ret]; exact short), later]
        rfl

/-- An interrupted map of an item is read again. -/
theorem element_pmap_again {b : Buffer} (hv : b.Valid) {s : Sequence} (h : (decodeElementPmap b s).ret = .msgPartial)
    (x : List UInt8) :
    decodeElementPmap ((decodeElementPmap b s).buffer.receive x) (decodeElementPmap b s).seq =
      decodeElementPmap (b.receive x) s := by
  cases asked : s.pmapReq && !s.pmap.isValid with
  | false => rw [element_pmap_passed asked] at h; exact nomatch h
  | true =>
    by_cases ok : (parsePmap b s.pmap).1 = .ok
    · rw [element_pmap_read asked ok] at h
      exact nomatch h
    · by_cases short : (parsePmap b s.pmap).1 = .msgPartial
      · have again := parse_pmap_again hv short x
        have still : (parsePmap b s.pmap).2.1.isValid = s.pmap.isValid := parse_pmap_from_cursor.1
        rw [element_pmap_short hv asked short]
        simp only [decodeElementPmap, still, asked, again, if_true]
      · rw [element_pmap_refused asked ok short] at h
        exact absurd h short

/-- One turn of the element loop. -/
def elementItem (b : Buffer) (s : Sequence) : ElementRun :=
  let r := decodeElementPmap b s
  if r.ret ≠ .ok then r else decodeElementFields (r.seq.head.length - r.seq.msgDecoded) r.buffer r.seq

/-- The sequence at its next element. -/
def Sequence.nextElement (s : Sequence) : Sequence :=
  { s with pmap := { s.pmap with isValid := false }, msgDecoded := 0, decoded := s.decoded + 1 }

section Items
variable {b : Buffer} {s : Sequence}

theorem item_stopped (h : (decodeElementPmap b s).ret ≠ .ok) : elementItem b s = decodeElementPmap b s := if_pos h

theorem item_fields (h : (decodeElementPmap b s).ret = .ok) :
    elementItem b s = decodeElementFields
      ((decodeElementPmap b s).seq.head.length - (decodeElementPmap b s).seq.msgDecoded)
      (decodeElementPmap b s).buffer (decodeElementPmap b s).seq := if_neg (not_not_intro h)

/-- **One item** moves the buffer forward. -/
theorem item_moved (hv : b.Valid) (s : Sequence) :
    b.Moved (elementItem b s).buffer ∧ s.Keeps (elementItem b s).seq := by
  obtain ⟨moved, keeps, _⟩ := element_pmap_moved hv s
  by_cases ok : (decodeElementPmap b s).ret = .ok
  · rw [item_fields ok]
    obtain ⟨rest, keeps', _⟩ := element_fields_moved ((decodeElementPmap b s).seq.head.length -
      (decodeElementPmap b s).seq.msgDecoded) (moved.valid hv) (decodeElementPmap b s).seq
    exact ⟨moved.trans rest, keeps.trans keeps'⟩
  · rw [item_stopped ok]
    exact ⟨moved, keeps⟩

/-- Later bytes do not change an item that is complete. -/
theorem item_receive (hv : b.Valid) (h : (elementItem b s).ret ≠ .msgPartial) (x : List UInt8) :
    elementItem (b.receive x) s = (elementItem b s).receive x := by
  obtain ⟨moved, _, _⟩ := element_pmap_moved hv s
  by_cases ok : (decodeElementPmap b s).ret = .ok
  · have later := element_pmap_receive hv (by rw [ok]; exact nofun) x
    rw [item_fields ok] at h ⊢
    rw [item_fields (by rw [later]; exact ok), later]
    exact element_fields_receive (moved.valid hv) h x
  · rw [item_stopped ok] at h ⊢
    have later := element_pmap_receive hv h x
    rw [item_stopped (by rw [later]; exact ok), later]

/-- The turn is cut in such a mantissa. -/
def cutsItem (b : Buffer) (s : Sequence) : Bool :=
  let r := decodeElementPmap b s
  r.ret == .ok && cutsElementFields (r.seq.head.length - r.seq.msgDecoded) r.buffer r.seq

/-- An interrupted item goes on where it stopped. -/
theorem item_again (hv : b.Valid) (whole : cutsItem b s = false)
    (h : (elementItem b s).ret = .msgPartial) (x : List UInt8) :
    elementItem ((elementItem b s).buffer.receive x) (elementItem b s).seq = elementItem (b.receive x) s := by
  obtain ⟨moved, _, done⟩ := element_pmap_moved hv s
  by_cases ok : (decodeElementPmap b s).ret = .ok
  · have later := element_pmap_receive hv (by rw [ok]; exact nofun) x
    have valid := moved.valid hv
    rw [item_fields ok] at h ⊢
    obtain ⟨_, kept, map⟩ := element_fields_moved ((decodeElementPmap b s).seq.head.length -
      (decodeElementPmap b s).seq.msgDecoded) valid (decodeElementPmap b s).seq
    have fields : cutsElementFields ((decodeElementPmap b s).seq.head.length - (decodeElementPmap b s).seq.msgDecoded)
        (decodeElementPmap b s).buffer (decodeElementPmap b s).seq = false := by
      simpa [cutsItem, ok] using whole
    have again := element_fields_again valid fields rfl h x
    generalize decodeElementFields ((decodeElementPmap b s).seq.head.length -
      (decodeElementPmap b s).seq.msgDecoded) (decodeElementPmap b s).buffer (decodeElementPmap b s).seq = r
      at kept map again ⊢
    -- the map is not asked for again: the fields keep it
    have passed : (r.seq.pmapReq && !r.seq.pmap.isValid) = false := by
      rw [kept.pmapReq, map]
      exact done ok
    have here : decodeElementPmap (r.buffer.receive x) r.seq = ⟨.ok, r.buffer.receive x, r.seq⟩ :=
      element_pmap_passed passed
    rw [item_fields (by rw [here]), here, item_fields (by rw [later]; exact ok), later]
    exact again
  · rw [item_stopped ok] at h ⊢
    have again := element_pmap_again hv h x
    unfold elementItem
    rw [again]

end Items

section Elements
variable {n : Nat} {b : Buffer} {s : Sequence}

/-- The items are counted from 1 to the length. -/
theorem elements_end (h : s.length.value.toNat < s.decoded) : decodeElements n b s = ⟨.ok, b, s⟩ := by
  cases n with
  | zero => rfl
  | succ n => rw [decodeElements, if_pos h]

theorem elements_stopped (h : ¬s.length.value.toNat < s.decoded) (stop : (elementItem b s).ret ≠ .ok) :
    decodeElements (n + 1) b s = elementItem b s := by
  rw [decodeElements, if_neg h]
  by_cases ok : (decodeElementPmap b s).ret = .ok
  · rw [item_fields ok] at stop ⊢
    simp only [ok, ne_eq, not_true_eq_false, if_false, if_pos stop]
  · rw [item_stopped ok]
    simp only [if_pos ok]

/-- A complete item is counted. -/
theorem elements_next (h : ¬s.length.value.toNat < s.decoded) (ok : (elementItem b s).ret = .ok) :
    decodeElements (n + 1) b s = decodeElements n (elementItem b s).buffer (elementItem b s).seq.nextElement := by
  rw [decodeElements, if_neg h]
  by_cases read : (decodeElementPmap b s).ret = .ok
  · rw [item_fields read] at ok ⊢
    simp only [read, ne_eq, not_true_eq_false, if_false, ok]
    rfl
  · rw [item_stopped read] at ok
    exact absurd ok read

/-- The elements that are left. -/
def Sequence.left (s : Sequence) : Nat := s.length.value.toNat + 1 - s.decoded

theorem left_next {s s' : Sequence} (keeps : s.Keeps s') (h : ¬s.length.value.toNat < s.decoded) :
    s'.nextElement.left + 1 = s.left := by
  simp only [Sequence.left, Sequence.nextElement, keeps.length, keeps.decoded]
  omega

/-- A bound beyond the elements that are left changes nothing. -/
theorem elements_bound {n m : Nat} (hv : b.Valid) (hn : s.left ≤ n) (hm : s.left ≤ m) :
    decodeElements n b s = decodeElements m b s := by
  induction n generalizing m b s with
  | zero =>
    have past : s.length.value.toNat < s.decoded := by
      simp only [Sequence.left] at hn
      omega
    rw [elements_end past, elements_end past]
  | succ n ih =>
    by_cases past : s.length.value.toNat < s.decoded
    · rw [elements_end past, elements_end past]
    · obtain ⟨moved, keeps⟩ := item_moved hv s
      have next := left_next keeps past
      cases m with
      | zero => omega
      | succ m =>
        by_cases ok : (elementItem b s).ret = .ok
        · rw [elements_next past ok, elements_next past ok]
          exact ih (moved.valid hv) (by omega) (by omega)
        · rw [elements_stopped past ok, elements_stopped past ok]

end Elements

/-- The element loop moves forward and keeps what the sequence is. -/
theorem elements_moved (n : Nat) {b : Buffer} (hv : b.Valid) (s : Sequence) :
    b.Moved (decodeElements n b s).buffer ∧ (decodeElements n b s).seq.length = s.length ∧
      s.decoded ≤ (decodeElements n b s).seq.decoded := by
  induction n generalizing b s with
  | zero => exact ⟨hv.refl_moved, rfl, Nat.le_refl _⟩
  | succ n ih =>
    by_cases past : s.length.value.toNat < s.decoded
    · rw [elements_end past]
      exact ⟨hv.refl_moved, rfl, Nat.le_refl _⟩
    · obtain ⟨moved, keeps⟩ := item_moved hv s
      by_cases ok : (elementItem b s).ret = .ok
      · rw [elements_next past ok]
        obtain ⟨rest, length, decoded⟩ := ih (moved.valid hv) (elementItem b s).seq.nextElement
        have onwards : s.decoded + 1 = (elementItem b s).seq.nextElement.decoded := by rw [← keeps.decoded]; rfl
        exact ⟨moved.trans rest, length.trans keeps.length, by omega⟩
      · rw [elements_stopped past ok]
        exact ⟨moved, keeps.length, Nat.le_of_eq keeps.decoded.symm⟩

/-- **The items** of a sequence: later bytes do not change what is decided. -/
theorem elements_receive {n : Nat} {b : Buffer} (hv : b.Valid) {s : Sequence}
    (h : (decodeElements n b s).ret ≠ .msgPartial) (x : List UInt8) :
    decodeElements n (b.receive x) s = (decodeElements n b s).receive x := by
  induction n generalizing b s with
  | zero => rfl
  | succ n ih =>
    by_cases past : s.length.value.toNat < s.decoded
    · rw [elements_end past, elements_end past]
      rfl
    · obtain ⟨moved, _⟩ := item_moved hv s
      by_cases ok : (elementItem b s).ret = .ok
      · have later := item_receive hv (by rw [ok]; exact nofun) x
        rw [elements_next past ok] at h ⊢
        rw [elements_next past (by rw [later]; exact ok), later]
        exact ih (moved.valid hv) h
      · rw [elements_stopped past ok] at h ⊢
        have later := item_receive hv h x
        rw [elements_stopped past (by rw [later]; exact ok), later]

/-- The element loop is cut in such a mantissa. -/
def cutsElements : Nat → Buffer → Sequence → Bool
  | 0, _, _ => false
  | n + 1, b, s =>
    if s.length.value.toNat < s.decoded then false
    else
      let r := elementItem b s
      cutsItem b s || (r.ret == .ok && cutsElements n r.buffer r.seq.nextElement)

/-- **An interrupted element loop**, taken up again with more bytes, does what the loop does that had them
from the start. -/
theorem elements_again {n m : Nat} {b : Buffer} (hv : b.Valid) {s : Sequence}
    (whole : cutsElements n b s = false) (hn : s.left ≤ n) (hm : s.left ≤ m)
    (h : (decodeElements n b s).ret = .msgPartial) (x : List UInt8) :
    decodeElements m ((decodeElements n b s).buffer.receive x) (decodeElements n b s).seq =
      decodeElements n (b.receive x) s := by
  induction n generalizing b s with
  | zero => exact nomatch h
  | succ n ih =>
    by_cases past : s.length.value.toNat < s.decoded
    · rw [elements_end past] at h
      exact nomatch h
    · obtain ⟨moved, keeps⟩ := item_moved hv s
      have next := left_next keeps past
      simp only [cutsElements, if_neg past, Bool.or_eq_false_iff, Bool.and_eq_false_imp, beq_iff_eq] at whole
      by_cases ok : (elementItem b s).ret = .ok
      · have later := item_receive hv (by rw [ok]; exact nofun) x
        rw [elements_next past ok] at h ⊢
        rw [elements_next past (by rw [later]; exact ok), later]
        exact ih (moved.valid hv) (whole.2 ok) (by omega) (by omega) h
      · rw [elements_stopped past ok] at h ⊢
        have again := item_again hv whole.1 h x
        have valid := (moved.valid hv).receive x
        have still : ¬(elementItem b s).seq.length.value.toNat < (elementItem b s).seq.decoded := by
          rw [keeps.length, keeps.decoded]
          exact past
        cases m with
        | zero => omega
        | succ m =>
          by_cases done : (elementItem (b.receive x) s).ret = .ok
          · obtain ⟨rest, keeps'⟩ := item_moved (hv.receive x) s
            have next' := left_next keeps' past
            rw [elements_next still (by rw [again]; exact done), again, elements_next past done]
            exact elements_bound (rest.valid (hv.receive x)) (by omega) (by omega)
          · rw [elements_stopped still (by rw [again]; exact done), again, elements_stopped past done]

/-! ## The length -/

/-- The decoder of the length uses the map where `pmap_required` says so, and not elsewhere. -/
theorem length_pmap {b : Buffer} {p : Pmap} {f : Field U64} (h : f.op.pmapRequired f.presence = false) :
    (fastDecodeUint b p f).pmap = p := by
  unfold fastDecodeUint decodeField
  cases op : f.op with
  | none => rfl
  | delta => rfl
  | copy => rw [op] at h; exact nomatch h
  | incr => rw [op] at h; exact nomatch h
  | default => rw [op] at h; exact nomatch h
  | constant =>
    have mandatory : f.presence = .mandatory := by
      rw [op] at h
      simpa [Op.pmapRequired] using h
    simp [decodeConstant, constantValue, Field.isMandatory, mandatory]

section Length
variable {b : Buffer} {p : Pmap} {s : Sequence}

/-- A length that was read is not read again. -/
theorem length_passed (h : s.decoded ≠ 0) : decodeLength b p s = (⟨.ok, b, p, s⟩, true) := if_neg h

/-- The length starts the items. -/
theorem length_read (h : s.decoded = 0) (ok : (fastDecodeUint b p s.length).ret = .ok)
    (there : (fastDecodeUint b p s.length).field.stateEmpty = false)
    (range : (fastDecodeUint b p s.length).field.value.toNat < sequenceElements) :
    decodeLength b p s = (⟨.ok, (fastDecodeUint b p s.length).buffer, (fastDecodeUint b p s.length).pmap,
      { s with length := (fastDecodeUint b p s.length).field, decoded := 1 }⟩, true) := by
  rw [decodeLength, if_pos h]
  simp only [ok, there, Bool.false_eq_true, if_false, if_neg (Nat.not_le.mpr range)]

theorem length_short (hv : b.Valid) (h : s.decoded = 0) (short : (fastDecodeUint b p s.length).ret = .msgPartial) :
    decodeLength b p s = (⟨.msgPartial, b, (fastDecodeUint b p s.length).pmap,
      { s with length := (fastDecodeUint b p s.length).field }⟩, false) := by
  rw [decodeLength, if_pos h]
  simp only [short]
  rw [(interruptible_uint.moved p s.length hv).rewind_eq]

/-- What the sequence returns where its length is not one to go on with: no elements, or a refusal. -/
def lengthRet (s : Sequence) (r : Decoded (Field U64)) : Ret :=
  if r.ret ≠ .ok then r.ret
  else if r.field.stateEmpty then (if s.presence == .mandatory then .garbled else .ok)
  else .garbled

theorem length_over (h : s.decoded = 0) (short : (fastDecodeUint b p s.length).ret ≠ .msgPartial)
    (past : ¬((fastDecodeUint b p s.length).ret = .ok ∧ (fastDecodeUint b p s.length).field.stateEmpty = false ∧
      (fastDecodeUint b p s.length).field.value.toNat < sequenceElements)) :
    decodeLength b p s = (⟨lengthRet s (fastDecodeUint b p s.length), (fastDecodeUint b p s.length).buffer,
      (fastDecodeUint b p s.length).pmap, { s with length := (fastDecodeUint b p s.length).field }⟩, false) := by
  rw [decodeLength, if_pos h, lengthRet]
  cases hr : (fastDecodeUint b p s.length).ret with
  | msgPartial => exact absurd hr short
  | garbled => simp only [hr, ne_eq, reduceCtorEq, not_false_eq_true, if_true]
  | fault => simp only [hr, ne_eq, reduceCtorEq, not_false_eq_true, if_true]
  | ok =>
    cases he : (fastDecodeUint b p s.length).field.stateEmpty with
    | true => simp only [hr, he, if_true, ne_eq, not_true_eq_false, if_false]
    | false =>
      have range : sequenceElements ≤ (fastDecodeUint b p s.length).field.value.toNat :=
        Nat.not_lt.mp fun range => past ⟨hr, he, range⟩
      simp only [hr, he, Bool.false_eq_true, if_false, if_pos range, ne_eq, not_true_eq_false]

theorem length_ret_finished {r : Decoded (Field U64)} (h : r.ret ≠ .msgPartial) : lengthRet s r ≠ .msgPartial := by
  unfold lengthRet
  split
  · exact h
  · split
    · split <;> exact nofun
    · exact nofun

/-- What a call finds: elements begun, a length to go on with, no length yet, or one that ends the
sequence. -/
inductive LengthCase (b : Buffer) (p : Pmap) (s : Sequence) : Prop
  | begun (h : s.decoded ≠ 0)
  | read (h : s.decoded = 0) (ok : (fastDecodeUint b p s.length).ret = .ok)
    (there : (fastDecodeUint b p s.length).field.stateEmpty = false)
    (range : (fastDecodeUint b p s.length).field.value.toNat < sequenceElements)
  | short (h : s.decoded = 0) (short : (fastDecodeUint b p s.length).ret = .msgPartial)
  | past (h : s.decoded = 0) (long : (fastDecodeUint b p s.length).ret ≠ .msgPartial)
    (past : ¬((fastDecodeUint b p s.length).ret = .ok ∧ (fastDecodeUint b p s.length).field.stateEmpty = false ∧
      (fastDecodeUint b p s.length).field.value.toNat < sequenceElements))

/-- There are no other cases. -/
theorem length_cases (b : Buffer) (p : Pmap) (s : Sequence) : LengthCase b p s := by
  by_cases h : s.decoded = 0
  · by_cases short : (fastDecodeUint b p s.length).ret = .msgPartial
    · exact .short h short
    · by_cases read : (fastDecodeUint b p s.length).ret = .ok ∧
          (fastDecodeUint b p s.length).field.stateEmpty = false ∧
          (fastDecodeUint b p s.length).field.value.toNat < sequenceElements
      · exact .read h read.1 read.2.1 read.2.2
      · exact .past h short read
  · exact .begun h

end Length

/-! ## The sequence -/

section Sequence
variable {b : Buffer} {p : Pmap} {s : Sequence}

/-- The element loop of a call, from the sequence `s` on. -/
def sequenceElementsFrom (b : Buffer) (p : Pmap) (s : Sequence) : Decoded Sequence :=
  let r := decodeElements sequenceElements b s
  if r.ret ≠ .ok then ⟨r.ret, r.buffer, p, r.seq⟩ else ⟨.ok, r.buffer, p, { r.seq with decoded := 0 }⟩

theorem elements_from_ret : (sequenceElementsFrom b p s).ret = (decodeElements sequenceElements b s).ret := by
  unfold sequenceElementsFrom
  by_cases ok : (decodeElements sequenceElements b s).ret = .ok
  · simp only [ok, ne_eq, not_true_eq_false, if_false]
  · simp only [if_pos ok]

theorem elements_from_buffer : (sequenceElementsFrom b p s).buffer = (decodeElements sequenceElements b s).buffer := by
  unfold sequenceElementsFrom
  simp only
  split <;> rfl

theorem elements_from_pmap : (sequenceElementsFrom b p s).pmap = p := by
  unfold sequenceElementsFrom
  simp only
  split <;> rfl

theorem elements_from_failed (h : (decodeElements sequenceElements b s).ret ≠ .ok) :
    (sequenceElementsFrom b p s).field = (decodeElements sequenceElements b s).seq := by
  simp only [sequenceElementsFrom, if_pos h]

/-- The items keep the sequence regular. -/
theorem elements_from_regular (hv : b.Valid) (hs : s.Regular) (begun : s.decoded ≠ 0) :
    (sequenceElementsFrom b p s).field.Regular := by
  obtain ⟨_, length, _⟩ := elements_moved sequenceElements hv s
  unfold sequenceElementsFrom
  simp only
  split
  · exact fun _ => length ▸ hs begun
  · exact fun h => absurd rfl h

theorem elements_from_receive (hv : b.Valid) (h : (sequenceElementsFrom b p s).ret ≠ .msgPartial) (x : List UInt8) :
    sequenceElementsFrom (b.receive x) p s = (sequenceElementsFrom b p s).receive x := by
  rw [elements_from_ret] at h
  have later := elements_receive hv h x
  by_cases ok : (decodeElements sequenceElements b s).ret = .ok
  · simp only [sequenceElementsFrom, later, ElementRun.receive, ok, ne_eq, not_true_eq_false, if_false]
    rfl
  · simp only [sequenceElementsFrom, later, ElementRun.receive, if_pos ok]
    rfl

/-- An interrupted sequence goes on with the item it stopped in. -/
theorem elements_from_again (hv : b.Valid) (hs : s.Regular) (begun : s.decoded ≠ 0)
    (whole : cutsElements sequenceElements b s = false) (h : (sequenceElementsFrom b p s).ret = .msgPartial) (x : List UInt8) :
    sequenceElementsFrom ((sequenceElementsFrom b p s).buffer.receive x) p (sequenceElementsFrom b p s).field =
      sequenceElementsFrom (b.receive x) p s := by
  have left : s.left ≤ sequenceElements := by
    have := hs begun
    simp only [Sequence.left]
    omega
  rw [elements_from_ret] at h
  have again := elements_again hv whole left left h x
  rw [elements_from_buffer, elements_from_failed (by rw [h]; exact nofun)]
  unfold sequenceElementsFrom
  rw [again]

/-- A sequence under way goes on with its items. -/
theorem sequence_begun (h : s.decoded ≠ 0) : fastDecodeSequence b p s = sequenceElementsFrom b p s := by
  rw [fastDecodeSequence, length_passed h]
  rfl

/-- The sequence behind its length. -/
def Sequence.withLength (s : Sequence) (f : Field U64) : Sequence := { s with length := f, decoded := 1 }

theorem sequence_read (h : s.decoded = 0) (ok : (fastDecodeUint b p s.length).ret = .ok)
    (there : (fastDecodeUint b p s.length).field.stateEmpty = false)
    (range : (fastDecodeUint b p s.length).field.value.toNat < sequenceElements) :
    fastDecodeSequence b p s = sequenceElementsFrom (fastDecodeUint b p s.length).buffer
      (fastDecodeUint b p s.length).pmap (s.withLength (fastDecodeUint b p s.length).field) := by
  rw [fastDecodeSequence, length_read h ok there range]
  rfl

theorem sequence_short (hv : b.Valid) (h : s.decoded = 0) (short : (fastDecodeUint b p s.length).ret = .msgPartial) :
    fastDecodeSequence b p s = ⟨.msgPartial, b, (fastDecodeUint b p s.length).pmap,
      { s with length := (fastDecodeUint b p s.length).field }⟩ := by
  rw [fastDecodeSequence, length_short hv h short]
  rfl

theorem sequence_over (h : s.decoded = 0) (short : (fastDecodeUint b p s.length).ret ≠ .msgPartial)
    (past : ¬((fastDecodeUint b p s.length).ret = .ok ∧ (fastDecodeUint b p s.length).field.stateEmpty = false ∧
      (fastDecodeUint b p s.length).field.value.toNat < sequenceElements)) :
    fastDecodeSequence b p s = ⟨lengthRet s (fastDecodeUint b p s.length), (fastDecodeUint b p s.length).buffer,
      (fastDecodeUint b p s.length).pmap, { s with length := (fastDecodeUint b p s.length).field }⟩ := by
  rw [fastDecodeSequence, length_over h short past]
  rfl

end Sequence

theorem with_length_regular (s : Sequence) {f : Field U64} (range : f.value.toNat < sequenceElements) :
    (s.withLength f).Regular := fun _ => range

/-- A sequence moves the buffer forward, uses bits of the map only, and stays regular. -/
theorem sequence_moved {b : Buffer} (hv : b.Valid) (p : Pmap) {s : Sequence} (hs : s.Regular) :
    b.Moved (fastDecodeSequence b p s).buffer ∧ { (fastDecodeSequence b p s).pmap with pmapBit := p.pmapBit } = p ∧
      (fastDecodeSequence b p s).field.Regular := by
  have moved := interruptible_uint.moved p s.length hv
  have cursor := interruptible_uint.cursor b p s.length
  cases length_cases b p s with
  | begun h =>
    rw [sequence_begun h, elements_from_buffer, elements_from_pmap]
    exact ⟨(elements_moved _ hv s).1, rfl, elements_from_regular hv hs h⟩
  | read h ok there range =>
    have hs' := with_length_regular s range
    rw [sequence_read h ok there range, elements_from_buffer, elements_from_pmap]
    exact ⟨moved.trans (elements_moved _ (moved.valid hv) _).1, cursor,
      elements_from_regular (moved.valid hv) hs' (by exact nofun)⟩
  | short h short =>
    rw [sequence_short hv h short]
    exact ⟨hv.refl_moved, cursor, fun begun => absurd h begun⟩
  | past h long past =>
    rw [sequence_over h long past]
    exact ⟨moved, cursor, fun begun => absurd h begun⟩

/-- Later bytes change nothing a sequence has decided. -/
theorem sequence_receive {b : Buffer} (hv : b.Valid) (p : Pmap) (s : Sequence)
    (h : (fastDecodeSequence b p s).ret ≠ .msgPartial) (x : List UInt8) :
    fastDecodeSequence (b.receive x) p s = (fastDecodeSequence b p s).receive x := by
  have moved := interruptible_uint.moved p s.length hv
  cases length_cases b p s with
  | begun begun =>
    rw [sequence_begun begun] at h ⊢
    rw [sequence_begun begun]
    exact elements_from_receive hv h x
  | read zero ok there range =>
    have later := interruptible_uint.receive p s.length hv (by rw [ok]; exact nofun) x
    rw [sequence_read zero ok there range] at h ⊢
    rw [sequence_read zero (by rw [later]; exact ok) (by rw [later]; exact there) (by rw [later]; exact range), later]
    exact elements_from_receive (moved.valid hv) h x
  | short zero short =>
    rw [sequence_short hv zero short] at h
    exact absurd rfl h
  | past zero long past =>
    have later := interruptible_uint.receive p s.length hv long x
    rw [sequence_over zero long past]
    rw [sequence_over zero (by rw [later]; exact long) (by rw [later]; exact past), later]
    rfl

/-- The call runs out of bytes in the elements, behind a length that took a bit of the map, or in the
mantissa of an element's decimal behind an exponent that moved. -/
def splitsSequence (b : Buffer) (p : Pmap) (s : Sequence) : Bool :=
  let l := decodeLength b p s
  (s.decoded == 0 && s.length.op.pmapRequired s.length.presence && l.2 && (fastDecodeSequence b p s).ret == .msgPartial)
    || (l.2 && cutsElements sequenceElements l.1.buffer l.1.field)

/-- **An interrupted sequence.** With the map given back as it was, it can be taken up again unless its
length took a bit of the map. -/
theorem sequence_again {b : Buffer} (hv : b.Valid) (p : Pmap) {s : Sequence} (hs : s.Regular)
    (whole : splitsSequence b p s = false) (h : (fastDecodeSequence b p s).ret = .msgPartial) (x : List UInt8) :
    fastDecodeSequence ((fastDecodeSequence b p s).buffer.receive x) p (fastDecodeSequence b p s).field =
      fastDecodeSequence (b.receive x) p s := by
  have moved := interruptible_uint.moved p s.length hv
  -- elements that were begun stay begun, and their length is not read again
  have begun : ∀ {b : Buffer} {p : Pmap} {s : Sequence}, b.Valid → s.decoded ≠ 0 →
      (sequenceElementsFrom b p s).ret = .msgPartial → (sequenceElementsFrom b p s).field.decoded ≠ 0 := by
    intro b p s hv hd h
    rw [elements_from_ret] at h
    rw [elements_from_failed (by rw [h]; exact nofun)]
    have := (elements_moved sequenceElements hv s).2.2
    omega
  cases length_cases b p s with
  | begun hd =>
    have elements : cutsElements sequenceElements b s = false := by
      simpa [splitsSequence, length_passed hd, hd] using whole
    rw [sequence_begun hd] at h ⊢
    rw [sequence_begun (begun hv hd h), sequence_begun hd]
    exact elements_from_again hv hs hd elements h x
  | read zero ok there range =>
    have both : s.length.op.pmapRequired s.length.presence = false ∧
        cutsElements sequenceElements (fastDecodeUint b p s.length).buffer
          (s.withLength (fastDecodeUint b p s.length).field) = false := by
      simpa [splitsSequence, zero, length_read zero ok there range, h, Sequence.withLength] using whole
    obtain ⟨bit, elements⟩ := both
    have later := interruptible_uint.receive p s.length hv (by rw [ok]; exact nofun) x
    have hs' := with_length_regular s range
    have hd : (s.withLength (fastDecodeUint b p s.length).field).decoded ≠ 0 := by exact nofun
    rw [sequence_read zero ok there range, length_pmap bit] at h ⊢
    rw [sequence_read zero (by rw [later]; exact ok) (by rw [later]; exact there) (by rw [later]; exact range),
      length_pmap bit, later, sequence_begun (begun (moved.valid hv) hd h)]
    exact elements_from_again (moved.valid hv) hs' hd elements h x
  | short zero short =>
    have again := interruptible_uint.again p s.length hv short x
    rw [sequence_short hv zero short]
    simp only [fastDecodeSequence, decodeLength, zero, if_true, again]
  | past zero long past =>
    rw [sequence_over zero long past] at h
    exact absurd h (length_ret_finished long)

end Libtrading.Fast
