import Libtrading.Fast.Sequences

/-!
# `fast_message_decode`, interrupted

A call of `fast_message_decode` is its stages in front of the fields and the
field loop. Later bytes change nothing that a call has decided, and a call
that ran out of bytes can be made again once they are there, unless it was cut
in a field that cannot be decoded again: a decimal with individual operators
behind an exponent that moved, or a sequence behind a length that took a bit
of the map.
-/

namespace Libtrading.Fast
set_option autoImplicit false
open Buffer

/-! ## Fields of a message -/

/-- A field that is no sequence, or a regular one. -/
def FastField.Regular : FastField → Prop
  | .elem _ => True
  | .sequence s => s.Regular

/-- All fields of a message are regular. -/
def RegularFields (fields : List FastField) : Prop := ∀ f ∈ fields, f.Regular

/-- The field is cut where it cannot be decoded again. -/
def splitsField (b : Buffer) (p : Pmap) : FastField → Bool
  | .elem f => splitsElement b p f
  | .sequence s => splitsSequence b p s

/-- A field of a message moves the buffer forward and stays what it is. -/
theorem field_moved {b : Buffer} (hv : b.Valid) (p : Pmap) {f : FastField} (hf : f.Regular) :
    b.Moved (decodeFastField b p f).buffer ∧ { (decodeFastField b p f).pmap with pmapBit := p.pmapBit } = p ∧
      (decodeFastField b p f).field.Regular := by
  cases f with
  | elem f => exact ⟨streams_element.moved p f hv, streams_element.cursor b p f, trivial⟩
  | sequence s => exact sequence_moved hv p hf

/-- Later bytes do not change a field that is complete. -/
theorem field_receive {b : Buffer} (hv : b.Valid) (p : Pmap) (f : FastField)
    (h : (decodeFastField b p f).ret ≠ .msgPartial) (x : List UInt8) :
    decodeFastField (b.receive x) p f = (decodeFastField b p f).receive x := by
  cases f with
  | elem f =>
    simp only [decodeFastField, streams_element.receive p f hv h x]
    rfl
  | sequence s =>
    simp only [decodeFastField, sequence_receive hv p s h x]
    rfl

/-- Where an interrupted field leaves the buffer is a place to go on from. -/
theorem interrupted_moved {b : Buffer} (hv : b.Valid) (p : Pmap) {f : FastField} (hf : f.Regular) :
    b.Moved (interruptedAt f b (decodeFastField b p f).buffer) := by
  have moved := (field_moved hv p hf).1
  cases f with
  | elem f =>
    simp only [interruptedAt]
    rw [moved.rewind_eq]
    exact hv.refl_moved
  | sequence s => exact moved

/-- An interrupted field, decoded again from there with more bytes. -/
theorem field_again {b : Buffer} (hv : b.Valid) (p : Pmap) {f : FastField} (hf : f.Regular)
    (whole : splitsField b p f = false) (h : (decodeFastField b p f).ret = .msgPartial) (x : List UInt8) :
    decodeFastField ((interruptedAt f b (decodeFastField b p f).buffer).receive x) p (decodeFastField b p f).field =
      decodeFastField (b.receive x) p f := by
  cases f with
  | elem f =>
    have again := element_again hv p f whole h x
    have back := (streams_element.moved p f hv).rewind_eq
    simp only [interruptedAt, decodeFastField] at back ⊢
    rw [back, again]
  | sequence s =>
    have again := sequence_again hv p hf whole h x
    simp only [interruptedAt, decodeFastField] at again ⊢
    rw [again]

/-- A second interruption leaves the buffer where the first one, with all the bytes, would have. -/
theorem interrupted_again (f : FastField) (b : Buffer) (p : Pmap) (x : List UInt8) (after : Buffer) :
    interruptedAt (decodeFastField b p f).field ((interruptedAt f b (decodeFastField b p f).buffer).receive x) after =
      interruptedAt f (b.receive x) after := by
  cases f <;> rfl

/-- The field loop is cut in a field that cannot be decoded again. -/
def cutsField : Nat → Buffer → Pmap → Nat → List FastField → Bool
  | 0, _, _, _, _ => false
  | n + 1, b, p, decoded, fields =>
    match fields[decoded]? with
    | none => false
    | some f =>
      let r := decodeFastField b p f
      splitsField b p f || (r.ret == .ok && cutsField n r.buffer r.pmap (decoded + 1) (fields.set decoded r.field))

namespace FieldsRun

def receive (x : List UInt8) (r : FieldsRun) : FieldsRun := { r with buffer := r.buffer.receive x }

end FieldsRun

theorem regular_fields_set {fields : List FastField} (regular : RegularFields fields) (i : Nat) {f : FastField}
    (hf : f.Regular) : RegularFields (fields.set i f) := by
  intro g hg
  obtain hg | rfl := List.mem_or_eq_of_mem_set hg
  · exact regular g hg
  · exact hf

section Steps
variable {n decoded : Nat} {b : Buffer} {p : Pmap} {fields : List FastField} {f : FastField}

/-- A field that was decoded. -/
theorem decode_fields_ok (hf : fields[decoded]? = some f) (h : (decodeFastField b p f).ret = .ok) :
    decodeFields (n + 1) b p decoded fields =
      decodeFields n (decodeFastField b p f).buffer (decodeFastField b p f).pmap (decoded + 1)
        (fields.set decoded (decodeFastField b p f).field) := by
  simp only [decodeFields, hf, h]

/-- A field that was interrupted: the map's bit is where it was at its start. -/
theorem decode_fields_interrupted (cursor : { (decodeFastField b p f).pmap with pmapBit := p.pmapBit } = p)
    (hf : fields[decoded]? = some f) (h : (decodeFastField b p f).ret = .msgPartial) :
    decodeFields (n + 1) b p decoded fields =
      ⟨.msgPartial, interruptedAt f b (decodeFastField b p f).buffer, p, decoded,
        fields.set decoded (decodeFastField b p f).field⟩ := by
  simp only [decodeFields, hf, h, cursor]

/-- A field that was refused. -/
theorem decode_fields_refused (hf : fields[decoded]? = some f) (ok : (decodeFastField b p f).ret ≠ .ok)
    (h : (decodeFastField b p f).ret ≠ .msgPartial) :
    decodeFields (n + 1) b p decoded fields =
      ⟨(decodeFastField b p f).ret, (decodeFastField b p f).buffer, (decodeFastField b p f).pmap, decoded,
        fields.set decoded (decodeFastField b p f).field⟩ := by
  cases hr : (decodeFastField b p f).ret with
  | ok => exact absurd hr ok
  | msgPartial => exact absurd hr h
  | garbled => simp only [decodeFields, hf, hr]
  | fault => simp only [decodeFields, hf, hr]

end Steps

theorem decode_fields_none {n decoded : Nat} {b : Buffer} {p : Pmap} {fields : List FastField}
    (hf : fields[decoded]? = none) : decodeFields n b p decoded fields = ⟨.ok, b, p, decoded, fields⟩ := by
  cases n with
  | zero => rfl
  | succ n => simp only [decodeFields, hf]

/-- The field loop moves forward, moves the map's bit only, and keeps its fields regular. -/
theorem decode_fields_moved (n decoded : Nat) {b : Buffer} (p : Pmap) {fields : List FastField}
    (hv : b.Valid) (regular : RegularFields fields) :
    b.Moved (decodeFields n b p decoded fields).buffer ∧
      (decodeFields n b p decoded fields).pmap.isValid = p.isValid ∧
      RegularFields (decodeFields n b p decoded fields).fields := by
  induction n generalizing b p decoded fields with
  | zero => exact ⟨hv.refl_moved, rfl, regular⟩
  | succ n ih =>
    cases hf : fields[decoded]? with
    | none => rw [decode_fields_none hf]; exact ⟨hv.refl_moved, rfl, regular⟩
    | some f =>
      have here := regular f (List.mem_of_getElem? hf)
      obtain ⟨moved, cursor, kept⟩ := field_moved hv p here
      have map := congrArg Pmap.isValid cursor
      change (decodeFastField b p f).pmap.isValid = p.isValid at map
      have regular' := regular_fields_set regular decoded kept
      by_cases ok : (decodeFastField b p f).ret = .ok
      · rw [decode_fields_ok hf ok]
        obtain ⟨rest, map', regular''⟩ := ih (decoded + 1) (decodeFastField b p f).pmap (moved.valid hv) regular'
        exact ⟨moved.trans rest, map'.trans map, regular''⟩
      · by_cases interrupted : (decodeFastField b p f).ret = .msgPartial
        · rw [decode_fields_interrupted cursor hf interrupted]
          exact ⟨interrupted_moved hv p here, rfl, regular'⟩
        · rw [decode_fields_refused hf ok interrupted]
          exact ⟨moved, map, regular'⟩

/-- What decoding a field keeps of it, the loop keeps of all fields. -/
theorem decode_fields_keep {P : FastField → Prop} (keeps : ∀ b p f, P f → P (decodeFastField b p f).field)
    (n decoded : Nat) (b : Buffer) (p : Pmap) {fields : List FastField} (h : ∀ f ∈ fields, P f) :
    ∀ f ∈ (decodeFields n b p decoded fields).fields, P f := by
  have set : ∀ {fields : List FastField} {f g : FastField} (i : Nat), (∀ f ∈ fields, P f) → P g →
      ∀ f ∈ fields.set i g, P f := by
    intro fields f g i h hg f' hf'
    obtain hf' | rfl := List.mem_or_eq_of_mem_set hf'
    · exact h f' hf'
    · exact hg
  induction n generalizing b p decoded fields with
  | zero => exact h
  | succ n ih =>
    cases hf : fields[decoded]? with
    | none => rw [decode_fields_none hf]; exact h
    | some f =>
      have kept := set (f := f) decoded h (keeps b p f (h f (List.mem_of_getElem? hf)))
      unfold decodeFields
      simp only [hf]
      split
      · exact ih _ _ _ kept
      · exact kept
      · exact kept

/-- Later bytes change nothing the field loop has decided. -/
theorem decode_fields_receive {n decoded : Nat} {b : Buffer} {p : Pmap} {fields : List FastField}
    (hv : b.Valid) (regular : RegularFields fields) (h : (decodeFields n b p decoded fields).ret ≠ .msgPartial)
    (x : List UInt8) :
    decodeFields n (b.receive x) p decoded fields = (decodeFields n b p decoded fields).receive x := by
  induction n generalizing b p decoded fields with
  | zero => rfl
  | succ n ih =>
    cases hf : fields[decoded]? with
    | none => rw [decode_fields_none hf, decode_fields_none hf]; rfl
    | some f =>
      obtain ⟨moved, cursor, kept⟩ := field_moved hv p (regular f (List.mem_of_getElem? hf))
      by_cases interrupted : (decodeFastField b p f).ret = .msgPartial
      · rw [decode_fields_interrupted cursor hf interrupted] at h
        exact absurd rfl h
      · have later := field_receive hv p f interrupted x
        have ret : (decodeFastField (b.receive x) p f).ret = (decodeFastField b p f).ret := by rw [later]; rfl
        by_cases ok : (decodeFastField b p f).ret = .ok
        · rw [decode_fields_ok hf ok] at h ⊢
          rw [decode_fields_ok hf (ret.trans ok), later]
          exact ih (moved.valid hv) (regular_fields_set regular decoded kept) h
        · rw [decode_fields_refused hf ok interrupted,
            decode_fields_refused hf (by rw [ret]; exact ok) (by rw [ret]; exact interrupted), later]
          rfl

/-- An interrupted field loop, taken up again at its cursor with more bytes, does what the loop does
that had them from the start. -/
theorem decode_fields_again {n decoded : Nat} {b : Buffer} {p : Pmap} {fields : List FastField}
    (hv : b.Valid) (regular : RegularFields fields) (hn : n = fields.length - decoded)
    (whole : cutsField n b p decoded fields = false)
    (h : (decodeFields n b p decoded fields).ret = .msgPartial) (x : List UInt8) :
    let r := decodeFields n b p decoded fields
    decodeFields (r.fields.length - r.decoded) (r.buffer.receive x) r.pmap r.decoded r.fields =
      decodeFields n (b.receive x) p decoded fields := by
  induction n generalizing b p decoded fields with
  | zero => exact nomatch h
  | succ n ih =>
    cases hf : fields[decoded]? with
    | none =>
      rw [decode_fields_none hf] at h
      exact nomatch h
    | some f =>
      have here := regular f (List.mem_of_getElem? hf)
      obtain ⟨moved, cursor, kept⟩ := field_moved hv p here
      simp only [cutsField, hf, Bool.or_eq_false_iff, Bool.and_eq_false_imp, beq_iff_eq] at whole
      by_cases interrupted : (decodeFastField b p f).ret = .msgPartial
      · have hi : decoded < fields.length := (List.getElem?_eq_some_iff.mp hf).1
        have again := field_again hv p here whole.1 interrupted x
        rw [decode_fields_interrupted cursor hf interrupted]
        simp only [List.length_set, ← hn]
        simp only [decodeFields, List.getElem?_set_self hi, hf, again, List.set_set, interrupted_again]
      · by_cases ok : (decodeFastField b p f).ret = .ok
        · have later := field_receive hv p f interrupted x
          have ret : (decodeFastField (b.receive x) p f).ret = .ok := by rw [later]; exact ok
          rw [decode_fields_ok hf ok] at h ⊢
          rw [decode_fields_ok hf ret, later]
          exact ih (moved.valid hv) (regular_fields_set regular decoded kept)
            (by rw [List.length_set]; omega) (whole.2 ok) h
        · rw [decode_fields_refused hf ok interrupted] at h
          exact absurd h interrupted

/-! ## The stages before the fields -/

namespace Session

/-- What a receive leaves in the session. -/
def receive (s : Session) (x : List UInt8) : Session := { s with rxBuffer := s.rxBuffer.receive x }

end Session

namespace Stage

def receive (x : List UInt8) (t : Stage) : Stage := { t with session := t.session.receive x }

end Stage

namespace Decode

def receive (x : List UInt8) (d : Decode) : Decode := { d with session := d.session.receive x }

end Decode

/-- A stage in front of the fields: what it does to the buffer and the templates, that later bytes
change nothing it has decided, and that it can be repeated where they are missing. -/
structure StageStreams (stage : Session → Stage) : Prop where
  moved : ∀ {s : Session}, s.rxBuffer.Valid → s.rxBuffer.Moved (stage s).session.rxBuffer
  templates : ∀ s, (stage s).session.rxMessages = s.rxMessages
  receive : ∀ {s : Session}, s.rxBuffer.Valid → (stage s).ret ≠ .msgPartial → ∀ x, stage (s.receive x) = (stage s).receive x
  again : ∀ {s : Session}, s.rxBuffer.Valid → (stage s).ret = .msgPartial → ∀ x,
    stage ((stage s).session.receive x) = stage (s.receive x)

theorem StageStreams.valid {stage : Session → Stage} (h : StageStreams stage) {s : Session} (hs : s.rxBuffer.Valid) :
    (stage s).session.rxBuffer.Valid := (h.moved hs).valid hs

section Preamble
variable {s : Session}

/-- A preamble that was read is not read again. -/
theorem preamble_passed (h : ¬(s.preamble.nrBytes ≠ 0 ∧ !s.preamble.isValid)) :
    s.decodePreamble = ⟨.ok, s⟩ := if_neg h

theorem preamble_short (h : s.preamble.nrBytes ≠ 0 ∧ !s.preamble.isValid)
    (short : s.rxBuffer.bufferSize < s.preamble.nrBytes) : s.decodePreamble = ⟨.msgPartial, s⟩ :=
  (if_pos h).trans (if_pos short)

/-- A preamble is taken when all of it is there. -/
theorem preamble_read (h : s.preamble.nrBytes ≠ 0 ∧ !s.preamble.isValid)
    (long : ¬s.rxBuffer.bufferSize < s.preamble.nrBytes) :
    s.decodePreamble = ⟨.ok, { s with
      rxBuffer := (takeBytes s.preamble.nrBytes s.rxBuffer).2
      preamble := { s.preamble with
        isValid := true, bytes := (takeBytes s.preamble.nrBytes s.rxBuffer).1 } }⟩ :=
  (if_pos h).trans (if_neg long)

end Preamble

/-- **The preamble** as a stage. -/
theorem stage_preamble : StageStreams Session.decodePreamble where
  moved {s} hs := by
    by_cases missing : s.preamble.nrBytes ≠ 0 ∧ !s.preamble.isValid
    · by_cases short : s.rxBuffer.bufferSize < s.preamble.nrBytes
      · rw [preamble_short missing short]
        exact hs.refl_moved
      · rw [preamble_read missing short]
        exact take_bytes_moved hs (by omega)
    · rw [preamble_passed missing]
      exact hs.refl_moved
  templates s := by
    by_cases missing : s.preamble.nrBytes ≠ 0 ∧ !s.preamble.isValid
    · by_cases short : s.rxBuffer.bufferSize < s.preamble.nrBytes
      · rw [preamble_short missing short]
      · rw [preamble_read missing short]
    · rw [preamble_passed missing]
  receive {s} hs h x := by
    by_cases missing : s.preamble.nrBytes ≠ 0 ∧ !s.preamble.isValid
    · by_cases short : s.rxBuffer.bufferSize < s.preamble.nrBytes
      · rw [preamble_short missing short] at h
        exact absurd rfl h
      · have size := hs.size_eq
        have size' := (hs.receive x).size_eq
        simp only [receive_start, receive_stop] at size'
        have := hs.start_le
        have long : ¬(s.receive x).rxBuffer.bufferSize < (s.receive x).preamble.nrBytes := by
          simp only [Session.receive]
          omega
        rw [preamble_read missing short, preamble_read (s := s.receive x) missing long]
        simp only [Session.receive]
        rw [take_bytes_receive hs (by omega)]
        rfl
    · rw [preamble_passed missing]
      exact preamble_passed (s := s.receive x) missing
  again {s} hs h x := by
    by_cases missing : s.preamble.nrBytes ≠ 0 ∧ !s.preamble.isValid
    · by_cases short : s.rxBuffer.bufferSize < s.preamble.nrBytes
      · rw [preamble_short missing short]
      · rw [preamble_read missing short] at h
        exact nomatch h
    · rw [preamble_passed missing]

section PresenceMap
variable {s : Session}

/-- A presence map that was read is not read again. -/
theorem pmap_passed (h : s.pmap.isValid = true) : s.decodePmap = ⟨.ok, s⟩ := by
  simp only [Session.decodePmap, h, Bool.not_true, Bool.false_eq_true, if_false]

/-- The presence map, read. -/
theorem pmap_read (h : s.pmap.isValid = false) (ok : (parsePmap s.rxBuffer s.pmap).1 = .ok) :
    s.decodePmap = ⟨.ok, { s with
      rxBuffer := (parsePmap s.rxBuffer s.pmap).2.2
      pmap := { (parsePmap s.rxBuffer s.pmap).2.1 with isValid := true, pmapBit := 0 } }⟩ := by
  rcases hp : parsePmap s.rxBuffer s.pmap with ⟨ret, p, b⟩
  obtain rfl : ret = .ok := by rw [← ok, hp]
  simp only [Session.decodePmap, h, Bool.not_false, if_true, hp]

/-- It is read again from its first byte where its stop bit is not there. -/
theorem pmap_short (hv : s.rxBuffer.Valid) (h : s.pmap.isValid = false)
    (short : (parsePmap s.rxBuffer s.pmap).1 = .msgPartial) :
    s.decodePmap = ⟨.msgPartial, { s with pmap := (parsePmap s.rxBuffer s.pmap).2.1 }⟩ := by
  have moved := parse_pmap_moved hv s.pmap
  rcases hp : parsePmap s.rxBuffer s.pmap with ⟨ret, p, b⟩
  rw [hp] at moved
  obtain rfl : ret = .msgPartial := by rw [← short, hp]
  simp only [Session.decodePmap, h, Bool.not_false, if_true, hp]
  rw [moved.rewind_eq]

theorem pmap_refused (h : s.pmap.isValid = false) (ok : (parsePmap s.rxBuffer s.pmap).1 ≠ .ok)
    (long : (parsePmap s.rxBuffer s.pmap).1 ≠ .msgPartial) :
    s.decodePmap = ⟨(parsePmap s.rxBuffer s.pmap).1, { s with
      rxBuffer := (parsePmap s.rxBuffer s.pmap).2.2, pmap := (parsePmap s.rxBuffer s.pmap).2.1 }⟩ := by
  rcases hp : parsePmap s.rxBuffer s.pmap with ⟨ret, p, b⟩
  rw [hp] at ok long
  cases ret with
  | ok => exact absurd rfl ok
  | msgPartial => exact absurd rfl long
  | garbled => simp only [Session.decodePmap, h, Bool.not_false, if_true, hp]
  | fault => simp only [Session.decodePmap, h, Bool.not_false, if_true, hp]

end PresenceMap

/-- **The presence map** as a stage. -/
theorem stage_pmap : StageStreams Session.decodePmap where
  moved {s} hs := by
    have moved := parse_pmap_moved hs s.pmap
    cases valid : s.pmap.isValid with
    | true => rw [pmap_passed valid]; exact hs.refl_moved
    | false =>
      by_cases ok : (parsePmap s.rxBuffer s.pmap).1 = .ok
      · rw [pmap_read valid ok]; exact moved
      · by_cases short : (parsePmap s.rxBuffer s.pmap).1 = .msgPartial
        · rw [pmap_short hs valid short]; exact hs.refl_moved
        · rw [pmap_refused valid ok short]; exact moved
  templates s := by
    unfold Session.decodePmap
    split
    · split <;> rfl
    · rfl
  receive {s} hs h x := by
    cases valid : s.pmap.isValid with
    | true => rw [pmap_passed valid]; exact pmap_passed (s := s.receive x) valid
    | false =>
      by_cases short : (parsePmap s.rxBuffer s.pmap).1 = .msgPartial
      · rw [pmap_short hs valid short] at h
        exact absurd rfl h
      · have later := parse_pmap_receive hs short x
        have ret : (parsePmap (s.receive x).rxBuffer (s.receive x).pmap).1 = (parsePmap s.rxBuffer s.pmap).1 :=
          congrArg (·.1) later
        by_cases ok : (parsePmap s.rxBuffer s.pmap).1 = .ok
        · rw [pmap_read valid ok, pmap_read (s := s.receive x) valid (ret.trans ok)]
          simp only [Session.receive, later]
          rfl
        · rw [pmap_refused valid ok short,
            pmap_refused (s := s.receive x) valid (by rw [ret]; exact ok) (by rw [ret]; exact short)]
          simp only [Session.receive, later]
          rfl
  again {s} hs h x := by
    cases valid : s.pmap.isValid with
    | true => rw [pmap_passed valid] at h; exact nomatch h
    | false =>
      by_cases ok : (parsePmap s.rxBuffer s.pmap).1 = .ok
      · rw [pmap_read valid ok] at h
        exact nomatch h
      · by_cases short : (parsePmap s.rxBuffer s.pmap).1 = .msgPartial
        · have again := parse_pmap_again hs short x
          have still : (parsePmap s.rxBuffer s.pmap).2.1.isValid = false :=
            parse_pmap_from_cursor.1.trans valid
          rw [pmap_short hs valid short]
          simp only [Session.decodePmap, Session.receive, still, valid, again, Bool.not_false, if_true]
        · rw [pmap_refused valid ok short] at h
          exact absurd h short

section TemplateId
variable {s : Session}

theorem read_tid_moved (hv : s.rxBuffer.Valid) : s.rxBuffer.Moved s.readTid.buffer := by
  unfold Session.readTid
  split
  · exact parse_uint_moved hv
  · exact hv.refl_moved

/-- The template id, once it is complete. -/
theorem read_tid_receive (hv : s.rxBuffer.Valid) (h : s.readTid.ret ≠ .msgPartial) (x : List UInt8) :
    (s.receive x).readTid = s.readTid.receive x := by
  unfold Session.readTid at h ⊢
  simp only [Session.receive] at h ⊢
  by_cases bit : ({ s.pmap with pmapBit := 0 } : Pmap).pmapIsSet = true
  · simp only [bit, if_true] at h ⊢
    exact parse_uint_receive hv h x
  · simp only [bit, Bool.false_eq_true, if_false]
    rfl

/-- The template that was chosen stays. -/
theorem tid_passed {i : Nat} (h : s.rxMessage = some i) : s.decodeTid = ⟨.ok, s⟩ := by
  simp only [Session.decodeTid, h]

theorem tid_short (hv : s.rxBuffer.Valid) (h : s.rxMessage = none) (short : s.readTid.ret = .msgPartial) :
    s.decodeTid = ⟨.msgPartial, s⟩ := by
  have moved := read_tid_moved hv
  cases hr : s.readTid with
  | done tid b => rw [hr] at short; exact nomatch short
  | fail ret b =>
    rw [hr] at short moved
    obtain rfl : ret = .msgPartial := short
    simp only [Session.decodeTid, h, hr]
    have back : b.rewind s.rxBuffer.start = s.rxBuffer := moved.rewind_eq
    rw [back, ← h]

theorem tid_refused {ret : Ret} {b : Buffer} (h : s.rxMessage = none) (hr : s.readTid = .fail ret b)
    (long : ret ≠ .msgPartial) : s.decodeTid = ⟨ret, { s with rxBuffer := b }⟩ := by
  cases ret with
  | msgPartial => exact absurd rfl long
  | ok => simp only [Session.decodeTid, h, hr]
  | garbled => simp only [Session.decodeTid, h, hr]
  | fault => simp only [Session.decodeTid, h, hr]

theorem tid_read {tid : U64} {b : Buffer} (h : s.rxMessage = none) (hr : s.readTid = .done tid b) :
    s.decodeTid = s.chooseTemplate tid b := by
  simp only [Session.decodeTid, h, hr]

theorem choose_template_buffer (tid : U64) (b : Buffer) : (s.chooseTemplate tid b).session.rxBuffer = b := by
  unfold Session.chooseTemplate
  split <;> rfl

theorem choose_template_templates (tid : U64) (b : Buffer) :
    (s.chooseTemplate tid b).session.rxMessages = s.rxMessages := by
  unfold Session.chooseTemplate
  split <;> rfl

/-- Choosing a template needs no more bytes. -/
theorem choose_template_finished (tid : U64) (b : Buffer) : (s.chooseTemplate tid b).ret ≠ .msgPartial := by
  unfold Session.chooseTemplate
  split <;> exact nofun

theorem choose_template_receive (tid : U64) (b : Buffer) (x : List UInt8) :
    (s.receive x).chooseTemplate tid (b.receive x) = (s.chooseTemplate tid b).receive x := by
  unfold Session.chooseTemplate
  simp only [Session.receive]
  split <;> rfl

end TemplateId

/-- **The template id** as a stage. -/
theorem stage_tid : StageStreams Session.decodeTid where
  moved {s} hs := by
    have moved := read_tid_moved hs
    cases h : s.rxMessage with
    | some i => rw [tid_passed h]; exact hs.refl_moved
    | none =>
      cases hr : s.readTid with
      | done tid b =>
        rw [hr] at moved
        rw [tid_read h hr, choose_template_buffer]
        exact moved
      | fail ret b =>
        by_cases short : ret = .msgPartial
        · rw [tid_short hs h (by rw [hr]; exact short)]
          exact hs.refl_moved
        · rw [hr] at moved
          rw [tid_refused h hr short]
          exact moved
  templates s := by
    unfold Session.decodeTid
    split
    · rfl
    · split
      · rfl
      · rfl
      · exact choose_template_templates ..
  receive {s} hs h x := by
    cases hm : s.rxMessage with
    | some i => rw [tid_passed hm]; exact tid_passed (s := s.receive x) hm
    | none =>
      by_cases short : s.readTid.ret = .msgPartial
      · rw [tid_short hs hm short] at h
        exact absurd rfl h
      · have later := read_tid_receive hs short x
        cases hr : s.readTid with
        | done tid b =>
          rw [hr] at later
          rw [tid_read hm hr, tid_read (s := s.receive x) hm later]
          exact choose_template_receive ..
        | fail ret b =>
          rw [hr] at later short
          rw [tid_refused hm hr short, tid_refused (s := s.receive x) hm later short]
          rfl
  again {s} hs h x := by
    cases hm : s.rxMessage with
    | some i => rw [tid_passed hm] at h; exact nomatch h
    | none =>
      by_cases short : s.readTid.ret = .msgPartial
      · rw [tid_short hs hm short]
      · cases hr : s.readTid with
        | done tid b =>
          rw [tid_read hm hr] at h
          exact (choose_template_finished tid b h).elim
        | fail ret b =>
          rw [hr] at short
          rw [tid_refused hm hr short] at h
          exact absurd h short

/-- Two stages in a row, where the first one lets through what the second one leaves behind when it
is interrupted. -/
theorem StageStreams.andThen {first next : Session → Stage} (hf : StageStreams first) (hn : StageStreams next)
    (passes : ∀ {s : Session}, s.rxBuffer.Valid → (first s).ret = .ok → (next (first s).session).ret = .msgPartial → ∀ x,
      first ((next (first s).session).session.receive x) =
        ⟨.ok, (next (first s).session).session.receive x⟩) :
    StageStreams (Stage.andThen first next) where
  moved {s} hs := by
    unfold Stage.andThen
    split
    · exact hf.moved hs
    · exact (hf.moved hs).trans (hn.moved (hf.valid hs))
  templates s := by
    unfold Stage.andThen
    split
    · exact hf.templates s
    · exact (hn.templates _).trans (hf.templates s)
  receive {s} hs h x := by
    unfold Stage.andThen at h ⊢
    by_cases ok : (first s).ret = .ok
    · rw [if_neg (not_not_intro ok)] at h ⊢
      have later := hf.receive hs (by rw [ok]; exact nofun) x
      rw [later, if_neg (not_not_intro (show ((first s).receive x).ret = .ok from ok))]
      exact hn.receive (hf.valid hs) h x
    · rw [if_pos ok] at h ⊢
      rw [hf.receive hs h x]
      exact if_pos ok
  again {s} hs h x := by
    unfold Stage.andThen at h ⊢
    by_cases ok : (first s).ret = .ok
    · rw [if_neg (not_not_intro ok)] at h ⊢
      have later := hf.receive hs (by rw [ok]; exact nofun) x
      rw [passes hs ok h x, later, if_neg (not_not_intro rfl),
        if_neg (not_not_intro (show ((first s).receive x).ret = .ok from ok))]
      exact hn.again (hf.valid hs) h x
    · rw [if_pos ok] at h ⊢
      rw [hf.again hs h x]

theorem pmap_keeps_preamble (s : Session) : (s.decodePmap).session.preamble = s.preamble := by
  unfold Session.decodePmap
  split
  · split <;> rfl
  · rfl

theorem tid_keeps (s : Session) :
    (s.decodeTid).session.preamble = s.preamble ∧ (s.decodeTid).session.pmap = s.pmap := by
  unfold Session.decodeTid Session.chooseTemplate
  split
  · exact ⟨rfl, rfl⟩
  · split
    · exact ⟨rfl, rfl⟩
    · exact ⟨rfl, rfl⟩
    · split <;> exact ⟨rfl, rfl⟩

/-- A preamble that was read is not asked for again. -/
theorem preamble_done {s : Session} (ok : s.decodePreamble.ret = .ok) :
    ¬(s.decodePreamble.session.preamble.nrBytes ≠ 0 ∧ !s.decodePreamble.session.preamble.isValid) := by
  by_cases missing : s.preamble.nrBytes ≠ 0 ∧ !s.preamble.isValid
  · by_cases short : s.rxBuffer.bufferSize < s.preamble.nrBytes
    · rw [preamble_short missing short] at ok
      exact nomatch ok
    · rw [preamble_read missing short]
      rintro ⟨-, h⟩
      exact nomatch h
  · rw [preamble_passed missing]
    exact missing

/-- A presence map that was read is not asked for again. -/
theorem pmap_done {s : Session} (hv : s.rxBuffer.Valid) (ok : s.decodePmap.ret = .ok) :
    s.decodePmap.session.pmap.isValid = true := by
  cases valid : s.pmap.isValid with
  | true => rw [pmap_passed valid]; exact valid
  | false =>
    by_cases read : (parsePmap s.rxBuffer s.pmap).1 = .ok
    · rw [pmap_read valid read]
    · by_cases short : (parsePmap s.rxBuffer s.pmap).1 = .msgPartial
      · rw [pmap_short hv valid short] at ok
        exact nomatch ok
      · rw [pmap_refused valid read short] at ok
        exact absurd ok read

theorem stage_pmap_tid : StageStreams (Stage.andThen Session.decodePmap Session.decodeTid) :=
  stage_pmap.andThen stage_tid fun hs ok _ x =>
    pmap_passed (s := Session.receive _ x) ((congrArg _ (tid_keeps _).2).trans (pmap_done hs ok))

theorem pmap_tid_keeps_preamble (s : Session) :
    (Stage.andThen Session.decodePmap Session.decodeTid s).session.preamble = s.preamble := by
  unfold Stage.andThen
  split
  · exact pmap_keeps_preamble s
  · exact (tid_keeps _).1.trans (pmap_keeps_preamble s)

/-- **The header**, its three stages in sequence. -/
theorem stage_header : StageStreams Session.decodeHeader := by
  refine stage_preamble.andThen stage_pmap_tid fun {s} _ ok _ x => preamble_passed (s := Session.receive _ x) ?_
  have kept := pmap_tid_keeps_preamble s.decodePreamble.session
  have done := preamble_done ok
  rw [← kept] at done
  exact done

/-- What a header that was read leaves: none of its stages does anything when it is run again. -/
structure HeaderDone (s : Session) : Prop where
  preamble : ¬(s.preamble.nrBytes ≠ 0 ∧ !s.preamble.isValid)
  pmap : s.pmap.isValid = true

theorem HeaderDone.passed {s : Session} (h : HeaderDone s) {i : Nat} (hi : s.rxMessage = some i) :
    s.decodeHeader = ⟨.ok, s⟩ := by
  have rest : Stage.andThen Session.decodePmap Session.decodeTid s = ⟨.ok, s⟩ := by
    rw [Stage.andThen, pmap_passed h.pmap, if_neg (not_not_intro rfl), tid_passed hi]
  rw [Session.decodeHeader, Stage.andThen, preamble_passed h.preamble, if_neg (not_not_intro rfl), rest]

/-- A header that is complete is passed by the next call. -/
theorem header_done {s : Session} (hs : s.rxBuffer.Valid) (ok : s.decodeHeader.ret = .ok) :
    HeaderDone s.decodeHeader.session := by
  have valid := stage_preamble.valid hs
  unfold Session.decodeHeader at ok ⊢
  rw [Stage.andThen] at ok ⊢
  by_cases preamble : s.decodePreamble.ret = .ok
  · rw [if_neg (not_not_intro preamble)] at ok ⊢
    refine ⟨?_, ?_⟩
    · rw [pmap_tid_keeps_preamble]
      exact preamble_done preamble
    · rw [Stage.andThen] at ok ⊢
      by_cases pmap : s.decodePreamble.session.decodePmap.ret = .ok
      · rw [if_neg (not_not_intro pmap)] at ok ⊢
        rw [(tid_keeps _).2]
        exact pmap_done valid pmap
      · rw [if_pos pmap] at ok
        exact absurd ok pmap
  · rw [if_pos preamble] at ok
    exact absurd ok preamble
/-! ## The call -/

namespace Session

/-- A session whose templates have regular fields. -/
structure Regular (s : Session) : Prop where
  valid : s.rxBuffer.Valid
  regular : ∀ m ∈ s.rxMessages, RegularFields m.fields

theorem Regular.receive {s : Session} (h : s.Regular) (x : List UInt8) : (s.receive x).Regular :=
  ⟨h.valid.receive x, h.regular⟩

theorem receive_nothing (s : Session) : s.receive [] = s := by
  simp only [Session.receive, Buffer.receive_nil]

/-- Bytes that come in two pieces come in one. -/
theorem Regular.receive_receive {s : Session} (h : s.Regular) (x y : List UInt8) :
    (s.receive x).receive y = s.receive (x ++ y) := by
  simp only [Session.receive, h.valid.receive_receive x y]

end Session

/-- The templates of a regular session are not changed by a header. -/
theorem header_regular {s : Session} (hs : s.Regular) : s.decodeHeader.session.Regular :=
  ⟨stage_header.valid hs.valid, by rw [stage_header.templates]; exact hs.regular⟩

section Message
variable {s : Session} {i : Nat} {m : Message}

/-- What the fields returned is what the call returns. -/
theorem finish_message_ret (r : FieldsRun) : (s.finishMessage i m r).ret = r.ret := by
  unfold Session.finishMessage
  split
  · rename_i ok
    exact ok.symm
  · rfl

theorem finish_message_receive (r : FieldsRun) (x : List UInt8) :
    (s.receive x).finishMessage i m (r.receive x) = (s.finishMessage i m r).receive x := by
  unfold Session.finishMessage
  simp only [FieldsRun.receive]
  split <;> rfl

/-- The templates with one of them replaced. -/
theorem templates_set {P : FastField → Prop} {ms : List Message} (h : ∀ t ∈ ms, ∀ f ∈ t.fields, P f) (i : Nat)
    (h' : ∀ f ∈ m.fields, P f) : ∀ t ∈ ms.set i m, ∀ f ∈ t.fields, P f := by
  intro t ht
  obtain ht | rfl := List.mem_or_eq_of_mem_set ht
  · exact h t ht
  · exact h'

theorem finish_message_keep {P : FastField → Prop} {r : FieldsRun} (h : ∀ t ∈ s.rxMessages, ∀ f ∈ t.fields, P f)
    (h' : ∀ f ∈ r.fields, P f) : ∀ t ∈ (s.finishMessage i m r).session.rxMessages, ∀ f ∈ t.fields, P f := by
  unfold Session.finishMessage
  split <;> exact templates_set h i h'

theorem finish_message_buffer (r : FieldsRun) : (s.finishMessage i m r).session.rxBuffer = r.buffer := by
  unfold Session.finishMessage
  split <;> rfl

/-- A message that is not complete keeps its preamble, its map and its place among the fields. -/
theorem finish_message_failed {r : FieldsRun} (h : r.ret ≠ .ok) :
    s.finishMessage i m r = ⟨none, r.ret, { s with
      rxBuffer := r.buffer
      rxMessages := s.rxMessages.set i { m with decoded := r.decoded, fields := r.fields }
      pmap := r.pmap }⟩ := by
  unfold Session.finishMessage
  split
  · rename_i ok
    exact absurd ok h
  · rfl

/-- A complete message is returned, and the next one starts from the preamble. -/
theorem finish_message_done {r : FieldsRun} (h : r.ret = .ok) :
    s.finishMessage i m r = ⟨some { m with decoded := 0, fields := r.fields }, .ok, { s with
      lastTid := m.tid
      rxBuffer := r.buffer
      rxMessage := none
      rxMessages := s.rxMessages.set i { m with decoded := 0, fields := r.fields }
      preamble := { s.preamble with isValid := false }
      pmap := { r.pmap with isValid := false } }⟩ := by
  rw [Session.finishMessage, h]

theorem decode_message_ret : (s.decodeMessage i m).ret = (s.messageFields m).ret := finish_message_ret _

theorem decode_message_regular (hs : s.Regular) (regular : RegularFields m.fields) :
    (s.decodeMessage i m).session.Regular := by
  obtain ⟨moved, _, fields⟩ := decode_fields_moved (m.fields.length - m.decoded) m.decoded s.pmap hs.valid regular
  exact ⟨by rw [Session.decodeMessage, finish_message_buffer]; exact moved.valid hs.valid,
    finish_message_keep hs.regular fields⟩

/-- **The fields of a message**: later bytes do not change what is decided. -/
theorem decode_message_receive (hs : s.Regular) (regular : RegularFields m.fields)
    (h : (s.decodeMessage i m).ret ≠ .msgPartial) (x : List UInt8) :
    (s.receive x).decodeMessage i m = (s.decodeMessage i m).receive x := by
  rw [decode_message_ret] at h
  have later : (s.receive x).messageFields m = (s.messageFields m).receive x :=
    decode_fields_receive hs.valid regular h x
  rw [Session.decodeMessage, later, finish_message_receive]
  rfl

/-- The template as an interrupted message leaves it. -/
def Session.resumed (s : Session) (m : Message) : Message :=
  { m with decoded := (s.messageFields m).decoded, fields := (s.messageFields m).fields }

/-- An interrupted message is taken up again at its cursor. -/
theorem decode_message_again (hs : s.Regular) (regular : RegularFields m.fields)
    (whole : cutsField (m.fields.length - m.decoded) s.rxBuffer s.pmap m.decoded m.fields = false)
    (h : (s.decodeMessage i m).ret = .msgPartial) (x : List UInt8) :
    ((s.decodeMessage i m).session.receive x).decodeMessage i (s.resumed m) =
      (s.receive x).decodeMessage i m := by
  rw [decode_message_ret] at h
  have stopped : s.decodeMessage i m = _ := finish_message_failed (by rw [h]; exact nofun)
  have again : ((s.decodeMessage i m).session.receive x).messageFields (s.resumed m) =
      (s.receive x).messageFields m := by
    rw [stopped]
    exact decode_fields_again hs.valid regular rfl whole h x
  rw [Session.decodeMessage, again, stopped, Session.decodeMessage]
  unfold Session.finishMessage
  split <;> simp only [Session.receive, Session.resumed, List.set_set]

end Message

namespace Session

/-- The call is cut in a field that cannot be decoded again. -/
def cutsField (s : Session) : Bool :=
  let t := s.decodeHeader
  match t.ret, t.session.rxMessage.bind (t.session.rxMessages[·]?) with
  | .ok, some m =>
    Fast.cutsField (m.fields.length - m.decoded) t.session.rxBuffer t.session.pmap m.decoded m.fields
  | _, _ => false

end Session

section Call
variable {s : Session}

/-- A call whose header is not complete. -/
theorem decode_stopped (h : s.decodeHeader.ret ≠ .ok) :
    s.fastMessageDecode = ⟨none, s.decodeHeader.ret, s.decodeHeader.session⟩ := if_pos h

theorem decode_no_template (h : s.decodeHeader.ret = .ok) (hm : s.decodeHeader.session.rxMessage = none) :
    s.fastMessageDecode = ⟨none, .garbled, s.decodeHeader.session⟩ := by
  simp only [Session.fastMessageDecode, h, hm, ne_eq, not_true_eq_false, if_false]

theorem decode_lost {i : Nat} (h : s.decodeHeader.ret = .ok) (hm : s.decodeHeader.session.rxMessage = some i)
    (hi : s.decodeHeader.session.rxMessages[i]? = none) :
    s.fastMessageDecode = ⟨none, .fault, s.decodeHeader.session⟩ := by
  simp only [Session.fastMessageDecode, h, hm, hi, ne_eq, not_true_eq_false, if_false]

/-- A call whose header names a template. -/
theorem decode_fields_of {i : Nat} {m : Message} (h : s.decodeHeader.ret = .ok)
    (hm : s.decodeHeader.session.rxMessage = some i) (hi : s.decodeHeader.session.rxMessages[i]? = some m) :
    s.fastMessageDecode = s.decodeHeader.session.decodeMessage i m := by
  simp only [Session.fastMessageDecode, h, hm, hi, ne_eq, not_true_eq_false, if_false]

/-- A call ends with the header, or behind it without a message to decode, or it decodes the fields of one. -/
theorem decode_cases (s : Session) :
    (∃ ret, s.fastMessageDecode = ⟨none, ret, s.decodeHeader.session⟩ ∧ ret ≠ .ok ∧
        (ret = .msgPartial → s.decodeHeader.ret = .msgPartial)) ∨
      ∃ i m, s.decodeHeader.ret = .ok ∧ s.decodeHeader.session.rxMessage = some i ∧
        s.decodeHeader.session.rxMessages[i]? = some m ∧ s.fastMessageDecode = s.decodeHeader.session.decodeMessage i m := by
  by_cases ok : s.decodeHeader.ret = .ok
  · cases hm : s.decodeHeader.session.rxMessage with
    | none => exact .inl ⟨.garbled, decode_no_template ok hm, nofun, nofun⟩
    | some i =>
      cases hi : s.decodeHeader.session.rxMessages[i]? with
      | none => exact .inl ⟨.fault, decode_lost ok hm hi, nofun, nofun⟩
      | some m => exact .inr ⟨i, m, ok, rfl, hi, decode_fields_of ok hm hi⟩
  · exact .inl ⟨s.decodeHeader.ret, decode_stopped ok, ok, id⟩

/-- What decoding a field keeps of it, a call keeps of the templates. -/
theorem decode_keep {P : FastField → Prop} (keeps : ∀ b p f, P f → P (decodeFastField b p f).field)
    (h : ∀ m ∈ s.rxMessages, ∀ f ∈ m.fields, P f) :
    ∀ m ∈ s.fastMessageDecode.session.rxMessages, ∀ f ∈ m.fields, P f := by
  have header : ∀ m ∈ s.decodeHeader.session.rxMessages, ∀ f ∈ m.fields, P f := by
    rw [stage_header.templates]
    exact h
  obtain ⟨ret, call, -, -⟩ | ⟨i, m, -, -, hi, call⟩ := decode_cases s
  · rw [call]
    exact header
  · rw [call]
    exact finish_message_keep header (decode_fields_keep keeps _ _ _ _ (header m (List.mem_of_getElem? hi)))

/-- **`fast_message_decode`** moves the buffer forward. -/
theorem decode_moved (hs : s.Regular) : s.rxBuffer.Moved s.fastMessageDecode.session.rxBuffer := by
  have header := stage_header.moved hs.valid
  have regular := header_regular hs
  obtain ⟨ret, call, -, -⟩ | ⟨i, m, -, -, hi, call⟩ := decode_cases s
  · rw [call]
    exact header
  · rw [call, Session.decodeMessage, finish_message_buffer]
    exact header.trans (decode_fields_moved _ _ _ regular.valid (regular.regular m (List.mem_of_getElem? hi))).1

/-- It leaves a regular session. -/
theorem decode_regular (hs : s.Regular) : s.fastMessageDecode.session.Regular := by
  have header := header_regular hs
  obtain ⟨ret, call, -, -⟩ | ⟨i, m, -, -, hi, call⟩ := decode_cases s
  · rw [call]
    exact header
  · rw [call]
    exact decode_message_regular header (header.regular m (List.mem_of_getElem? hi))

/-- A call that is fine is one that returns a message. -/
theorem decode_ok_iff : s.fastMessageDecode.ret = .ok ↔ s.fastMessageDecode.msg.isSome = true := by
  obtain ⟨ret, call, refused, -⟩ | ⟨i, m, -, -, -, call⟩ := decode_cases s
  · rw [call]
    exact ⟨fun ok => absurd ok refused, nofun⟩
  · rw [call]
    by_cases ok : (s.decodeHeader.session.messageFields m).ret = .ok
    · simp only [Session.decodeMessage, Session.finishMessage, ok, Option.isSome_some]
    · rw [Session.decodeMessage, finish_message_failed ok]
      exact ⟨fun h => absurd h ok, nofun⟩

/-- Later bytes change nothing a call has decided. -/
theorem decode_receive (hs : s.Regular) (h : s.fastMessageDecode.ret ≠ .msgPartial) (x : List UInt8) :
    (s.receive x).fastMessageDecode = s.fastMessageDecode.receive x := by
  have regular := header_regular hs
  by_cases ok : s.decodeHeader.ret = .ok
  · have later := stage_header.receive hs.valid (by rw [ok]; exact nofun) x
    have ok' : (s.receive x).decodeHeader.ret = .ok := by rw [later]; exact ok
    cases hm : s.decodeHeader.session.rxMessage with
    | none =>
      rw [decode_no_template ok hm, decode_no_template ok' (by rw [later]; exact hm), later]
      rfl
    | some i =>
      cases hi : s.decodeHeader.session.rxMessages[i]? with
      | none =>
        rw [decode_lost ok hm hi, decode_lost ok' (by rw [later]; exact hm) (by rw [later]; exact hi), later]
        rfl
      | some m =>
        rw [decode_fields_of ok hm hi] at h ⊢
        rw [decode_fields_of ok' (by rw [later]; exact hm) (by rw [later]; exact hi), later]
        exact decode_message_receive regular (regular.regular m (List.mem_of_getElem? hi)) h x
  · rw [decode_stopped ok] at h ⊢
    have later := stage_header.receive hs.valid h x
    rw [decode_stopped (by rw [later]; exact ok), later]
    rfl

/-- A call that waited is made again with more bytes: the outcome is that of a first call with them. -/
theorem decode_again (hs : s.Regular) (whole : s.cutsField = false)
    (h : s.fastMessageDecode.ret = .msgPartial) (x : List UInt8) :
    (s.fastMessageDecode.session.receive x).fastMessageDecode = (s.receive x).fastMessageDecode := by
  have regular := header_regular hs
  by_cases ok : s.decodeHeader.ret = .ok
  · have later := stage_header.receive hs.valid (by rw [ok]; exact nofun) x
    have ok' : (s.receive x).decodeHeader.ret = .ok := by rw [later]; exact ok
    cases hm : s.decodeHeader.session.rxMessage with
    | none => rw [decode_no_template ok hm] at h; exact nomatch h
    | some i =>
      cases hi : s.decodeHeader.session.rxMessages[i]? with
      | none => rw [decode_lost ok hm hi] at h; exact nomatch h
      | some m =>
        have member := regular.regular m (List.mem_of_getElem? hi)
        have bound := (List.getElem?_eq_some_iff.mp hi).1
        have whole : Fast.cutsField (m.fields.length - m.decoded) s.decodeHeader.session.rxBuffer
            s.decodeHeader.session.pmap m.decoded m.fields = false := by
          simpa only [Session.cutsField, ok, hm, Option.bind_some, hi] using whole
        rw [decode_fields_of ok hm hi] at h ⊢
        have waits := h
        rw [decode_message_ret] at waits
        have stopped : s.decodeHeader.session.decodeMessage i m = _ :=
          finish_message_failed (by rw [waits]; exact nofun)
        have done := header_done hs.valid ok
        have resumable : HeaderDone ((s.decodeHeader.session.decodeMessage i m).session.receive x) := by
          rw [stopped]
          exact ⟨done.preamble, (decode_fields_moved _ _ _ regular.valid member).2.1.trans done.pmap⟩
        have template : ((s.decodeHeader.session.decodeMessage i m).session.receive x).rxMessage = some i := by
          rw [stopped]
          exact hm
        have slot : ((s.decodeHeader.session.decodeMessage i m).session.receive x).rxMessages[i]? =
            some (s.decodeHeader.session.resumed m) := by
          rw [stopped]
          exact List.getElem?_set_self bound
        have passed := resumable.passed template
        rw [decode_fields_of (by rw [passed]) (by rw [passed]; exact template) (by rw [passed]; exact slot),
          passed, decode_message_again regular member whole h x,
          decode_fields_of ok' (by rw [later]; exact hm) (by rw [later]; exact hi), later]
        rfl
  · rw [decode_stopped ok] at h ⊢
    have again := stage_header.again hs.valid h x
    simp only [Session.fastMessageDecode, again]

end Call

/-! ## Outcomes -/

/-- What a call tells the application: a message, or that the bytes were refused. -/
inductive Outcome where
  | message (m : Message)
  | refused (ret : Ret)
  deriving DecidableEq, Repr

/-- `NULL` after `FAST_MSG_STATE_PARTIAL` is no outcome, the call waits. -/
def Decode.outcome (d : Decode) : Option Outcome :=
  match d.msg with
  | some m => some (.message m)
  | none => if d.ret = .msgPartial then none else some (.refused d.ret)

theorem outcome_none {s : Session} : s.fastMessageDecode.outcome = none ↔ s.fastMessageDecode.ret = .msgPartial := by
  unfold Decode.outcome
  cases hm : s.fastMessageDecode.msg with
  | none => simp only [ite_eq_left_iff, reduceCtorEq, imp_false, Decidable.not_not]
  | some m =>
    rw [decode_ok_iff.mpr (by rw [hm]; rfl)]
    exact ⟨nofun, nofun⟩

/-- A call with an outcome does not wait. -/
theorem outcome_some {s : Session} {o : Outcome} (h : s.fastMessageDecode.outcome = some o) :
    s.fastMessageDecode.ret ≠ .msgPartial := by
  intro waits
  rw [outcome_none.mpr waits] at h
  cases h

end Libtrading.Fast
