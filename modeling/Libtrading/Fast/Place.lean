import Libtrading.Fast.Calls

/-!
# Where the received bytes lie

The decoder sees the bytes between `start` and `end`, and nothing else of the
memory: with the same bytes at another place, in a memory that holds anything
elsewhere, every reader, every field decoder and `fast_message_decode` do the
same and stand at the same byte. `Place.put` moves a buffer there.
-/

namespace Libtrading.Buffer
set_option autoImplicit false

/-- Another memory, and how far up the bytes lie in it. -/
structure Place where
  data : List UInt8
  offset : Nat

namespace Place

/-- The buffer over the other memory. -/
def put (P : Place) (b : Buffer) : Buffer := ⟨P.data, b.start + P.offset, b.stop + P.offset⟩

/-- The received bytes of the buffer are there. -/
structure Holds (P : Place) (b : Buffer) : Prop where
  valid : b.Valid
  same : ∀ i, b.start ≤ i → i < b.stop → (P.put b).byteAt (i + P.offset) = b.byteAt i

variable {P : Place} {b b' : Buffer}

/-- A step forward inside the received bytes keeps them at the place. -/
theorem Holds.moved (h : P.Holds b) (moved : b.Moved b') : P.Holds b' where
  valid := moved.valid h.valid
  same i lower upper := by
    have bytes : b'.byteAt i = b.byteAt i := by rw [byteAt, byteAt, moved.data]
    rw [bytes]
    exact h.same i (Nat.le_trans moved.forward lower) (moved.stop ▸ upper)

@[simp] theorem put_size (P : Place) (b : Buffer) : (P.put b).bufferSize = b.bufferSize := by
  simp only [bufferSize, put, Nat.add_le_add_iff_right, Nat.add_sub_add_right]

theorem put_peek (h : P.Holds b) (left : b.start < b.stop) : (P.put b).bufferPeek8 = b.bufferPeek8 :=
  h.same b.start (Nat.le_refl _) left

theorem put_advance (P : Place) (b : Buffer) (n : Nat) : (P.put b).bufferAdvance n = P.put (b.bufferAdvance n) := by
  simp only [put, bufferAdvance, Nat.add_right_comm]

/-- The next byte, taken at the place. -/
theorem put_get (h : P.Holds b) (left : b.start < b.stop) :
    (P.put b).bufferGet8 = (b.byteAt b.start, P.put (b.bufferAdvance 1)) := by
  have byte : (P.put b).byteAt (P.put b).start = b.byteAt b.start := put_peek h left
  rw [bufferGet8, byte, ← put_advance]
  rfl

end Place

end Libtrading.Buffer

namespace Libtrading.Fast
set_option autoImplicit false
open Buffer

variable {P : Place} {b : Buffer}

/-! ## The wire readers -/

/-- The result of a reader, its buffer moved to the place. -/
def Parse.placed {α : Type} (P : Place) : Parse α → Parse α
  | .done v b => .done v (P.put b)
  | .fail ret b => .fail ret (P.put b)

def StringRead.placed (P : Place) (r : StringRead) : StringRead := { r with buffer := P.put r.buffer }

/-- One byte: all that the readers below see of the memory goes through here. -/
theorem next_byte_placed (h : P.Holds b) :
    nextByte (P.put b) = (nextByte b).map fun r => (r.1, P.put r.2) := by
  unfold nextByte
  rw [Place.put_size]
  split
  · rfl
  · rename_i some
    rw [h.valid.size_eq] at some
    rw [Place.put_get h (by omega)]
    rfl

/-- The stop-bit loop, by induction on the groups it may still take. -/
theorem parse_groups_placed (n : Nat) (r : BitVec 64) (h : P.Holds b) :
    parseGroups n r (P.put b) = (parseGroups n r b).placed P := by
  induction n generalizing r b with
  | zero => rfl
  | succ n ih =>
    rw [parseGroups, parseGroups, next_byte_placed h]
    cases hn : nextByte b with
    | none => rfl
    | some cb =>
      obtain ⟨c, b'⟩ := cb
      simp only [Option.map_some]
      split
      · rfl
      · exact ih _ (h.moved (next_byte_moved h.valid hn))

theorem parse_uint_placed (h : P.Holds b) : parseUint (P.put b) = (parseUint b).placed P := parse_groups_placed 9 0 h

/-- The sign is looked at before the byte is taken. -/
theorem parse_int_placed (h : P.Holds b) : parseInt (P.put b) = (parseInt b).placed P := by
  unfold parseInt
  rw [Place.put_size]
  split
  · rfl
  · rename_i some
    rw [h.valid.size_eq] at some
    rw [Place.put_peek h (by omega)]
    exact parse_groups_placed 10 _ h

/-- The string loop, by induction on the room that is left. -/
theorem parse_string_from_placed (room len : Nat) (value : List UInt8) (h : P.Holds b) :
    parseStringFrom room len value (P.put b) = (parseStringFrom room len value b).placed P := by
  induction room generalizing len value b with
  | zero => rfl
  | succ room ih =>
    rw [parseStringFrom, parseStringFrom, next_byte_placed h]
    cases hn : nextByte b with
    | none => rfl
    | some cb =>
      obtain ⟨c, b'⟩ := cb
      simp only [Option.map_some]
      split
      · rfl
      · exact ih _ _ (h.moved (next_byte_moved h.valid hn))

theorem parse_string_placed (value : List UInt8) (size : Nat) (h : P.Holds b) :
    parseString (P.put b) value size = (parseString b value size).placed P :=
  parse_string_from_placed (size - 1) 0 value h

/-- Bytes taken after the check that they are there. -/
theorem take_bytes_placed {n : Nat} (h : P.Holds b) (hn : n ≤ b.bufferSize) :
    takeBytes n (P.put b) = ((takeBytes n b).1, P.put (takeBytes n b).2) := by
  induction n generalizing b with
  | zero => rfl
  | succ n ih =>
    rw [h.valid.size_eq] at hn
    have left : b.start < b.stop := by omega
    have one : b.Moved (b.bufferAdvance 1) := ⟨rfl, rfl, Nat.le_succ _, by simp only [bufferAdvance]; omega⟩
    have rest := ih (h.moved one) (by rw [(one.valid h.valid).size_eq]; simp only [bufferAdvance]; omega)
    simp only [takeBytes, Place.put_get h left, rest]
    rfl

/-- A counted vector: its length is checked first. -/
theorem parse_bytes_placed (value : List UInt8) (len : BitVec 32) (h : P.Holds b) :
    parseBytes (P.put b) value len = (parseBytes b value len).placed P := by
  unfold parseBytes
  rw [Place.put_size]
  split
  · rfl
  · rename_i there
    simp only [not_or, Nat.not_lt] at there
    split
    · rfl
    · rw [take_bytes_placed h there.2]
      rfl

/-- The loop over the presence map. -/
theorem parse_pmap_from_placed (room : Nat) (p : Pmap) (h : P.Holds b) :
    parsePmapFrom room p (P.put b) =
      ((parsePmapFrom room p b).1, (parsePmapFrom room p b).2.1, P.put (parsePmapFrom room p b).2.2) := by
  induction room generalizing p b with
  | zero => rfl
  | succ room ih =>
    rw [parsePmapFrom, parsePmapFrom, next_byte_placed h]
    cases hn : nextByte b with
    | none => rfl
    | some cb =>
      obtain ⟨c, b'⟩ := cb
      simp only [Option.map_some]
      split
      · rfl
      · exact ih _ (h.moved (next_byte_moved h.valid hn))

theorem parse_pmap_placed (p : Pmap) (h : P.Holds b) :
    parsePmap (P.put b) p = ((parsePmap b p).1, (parsePmap b p).2.1, P.put (parsePmap b p).2.2) :=
  parse_pmap_from_placed pmapMaxBytes _ h

/-! ## Values off the wire -/

/-- A value read into a field, with the buffer moved to the place. -/
def Reading.placed {α : Type} (P : Place) (r : Reading α) : Reading α := { r with buffer := P.put r.buffer }

/-- The outcome of a field decoder, moved. -/
def Decoded.placed {φ : Type} (P : Place) (r : Decoded φ) : Decoded φ := { r with buffer := P.put r.buffer }

/-- A reader of the wire does the same wherever the bytes lie. -/
structure ParsesAnywhere {α : Type} (parse : Buffer → Parse α) : Prop extends Parses parse where
  placed : ∀ {P : Place} {b : Buffer}, P.Holds b → parse (P.put b) = (parse b).placed P

theorem uint_anywhere : ParsesAnywhere parseUint := ⟨parses_uint, parse_uint_placed⟩

theorem int_anywhere : ParsesAnywhere parseInt := ⟨parses_int, parse_int_placed⟩

/-- So does a value read into a field. -/
def ReadsAnywhere {α : Type} (read : Buffer → Field α → Reading α) : Prop :=
  ∀ {P : Place} {b : Buffer} (f : Field α), P.Holds b → read (P.put b) f = (read b f).placed P

/-- A number, however it is assigned. -/
theorem number_anywhere {parse : Buffer → Parse (BitVec 64)} (hp : ParsesAnywhere parse)
    (assign : Field (BitVec 64) → BitVec 64 → Field (BitVec 64)) : ReadsAnywhere (readNumber parse assign) := by
  intro P b f h
  rw [readNumber, readNumber, hp.placed h]
  cases parse b <;> rfl

/-- A nullable number and what is read behind it. -/
theorem nullable_anywhere {α : Type} {parse : Buffer → Parse (BitVec 64)} (hp : ParsesAnywhere parse)
    {rest : BitVec 64 → Buffer → Field α → Reading α} (hr : ∀ v, ReadsAnywhere (rest v)) :
    ReadsAnywhere (readNullable parse rest) := by
  intro P b f h
  have moved := hp.moved h.valid
  rw [readNullable, readNullable, hp.placed h]
  cases hb : parse b with
  | fail ret b' => rfl
  | done v b' =>
    have moved : b.Moved b' := by rw [hb] at moved; exact moved
    simp only [Parse.placed]
    split
    · rfl
    · exact hr v _ (h.moved moved)

/-- The bytes of a vector, behind their length. -/
theorem counted_anywhere (len : U64) : ReadsAnywhere (readCounted len) := by
  intro P b f h
  simp only [readCounted, parse_bytes_placed _ _ h]
  generalize (if f.isMandatory then len else len - 1) = len
  cases parseBytes b f.value (len.setWidth 32) with
  | fail ret b' => rfl
  | done value b' =>
    simp only [Parse.placed, terminateVector]
    split <;> rfl

/-- The string of an ASCII delta, behind its length. -/
theorem spliced_anywhere (length : I64) : ReadsAnywhere (readSpliced length) := by
  intro P b f h
  rw [readSpliced, readSpliced, parse_string_placed _ _ h]
  generalize parseString b deltaScratch deltaScratch.length = r
  unfold assignAsciiDelta
  simp only [StringRead.placed]
  by_cases ok : r.ret = .ok
  · simp only [ok, ne_eq, not_true_eq_false, if_false]
    split <;> rfl
  · simp only [ok, ne_eq, not_false_eq_true, if_true]
    rfl

/-- The mantissa of a decimal, behind its exponent. -/
theorem mantissa_anywhere (place : Decimal → Decimal → Decimal) (exp : I64) :
    ReadsAnywhere (readMantissa place exp) := by
  intro P b f h
  simp only [readMantissa, parse_int_placed h]
  split
  · rfl
  · cases parseInt b <;> rfl

theorem ascii_anywhere : ReadsAnywhere readAscii := by
  intro P b f h
  rw [readAscii, readAscii, parse_string_placed _ _ h]
  generalize parseString b f.value stringMaxBytes = r
  unfold assignAscii
  simp only [apply_ite (Reading.placed P)]
  rfl

/-! ## The field decoders -/

/-- The readers of a field type do the same wherever the bytes lie. -/
structure Kind.Anywhere {α : Type} (K : Kind α) : Prop where
  read : ReadsAnywhere K.read
  delta : ∀ {read}, K.delta = some read → ReadsAnywhere read

/-- A decoder does the same wherever the bytes lie. -/
def DecodesAnywhere {φ : Type} (decode : Buffer → Pmap → φ → Decoded φ) : Prop :=
  ∀ {P : Place} {b : Buffer} (p : Pmap) (f : φ), P.Holds b → decode (P.put b) p f = (decode b p f).placed P

section Operators
variable {α : Type} {K : Kind α}

/-- A bit of the map decides between the wire and the dictionary, and neither sees the memory. -/
theorem present_anywhere (hK : K.Anywhere) (absent : Field α → Ret × Field α) :
    DecodesAnywhere (decodePresent K absent) := by
  intro P b p f h
  unfold decodePresent
  split
  · rw [hK.read f h]
    rfl
  · rfl

theorem constant_anywhere : DecodesAnywhere (decodeConstant K) := by
  intro P b p f _
  simp only [decodeConstant]
  split
  · rfl
  · split <;> rfl

/-- **A field decoder** does the same wherever the bytes lie: one case for each operator. -/
theorem field_anywhere (hK : K.Anywhere) : DecodesAnywhere (decodeField K) := by
  intro P b p f h
  unfold decodeField
  cases f.op with
  | none => rw [hK.read f h]; rfl
  | copy => exact present_anywhere hK _ p f h
  | incr =>
    simp only
    split
    · rfl
    · exact present_anywhere hK _ p f h
  | delta =>
    simp only
    split
    · rfl
    · rename_i read hd
      rw [hK.delta hd f h]
      rfl
  | default => exact present_anywhere hK _ p f h
  | constant => exact constant_anywhere p f h

end Operators

theorem fast_int_anywhere : DecodesAnywhere fastDecodeInt :=
  field_anywhere ⟨number_anywhere int_anywhere _, by rintro _ ⟨⟩; exact number_anywhere int_anywhere _⟩

theorem fast_uint_anywhere : DecodesAnywhere fastDecodeUint :=
  field_anywhere ⟨number_anywhere uint_anywhere _, by rintro _ ⟨⟩; exact number_anywhere int_anywhere _⟩

theorem fast_string_anywhere (unicode : Bool) : DecodesAnywhere (fastDecodeString unicode) := by
  cases unicode with
  | true => exact field_anywhere ⟨nullable_anywhere uint_anywhere counted_anywhere, by rintro _ ⟨⟩⟩
  | false =>
    exact field_anywhere ⟨ascii_anywhere, by rintro _ ⟨⟩; exact nullable_anywhere int_anywhere spliced_anywhere⟩

theorem fast_vector_anywhere : DecodesAnywhere fastDecodeVector :=
  field_anywhere ⟨nullable_anywhere uint_anywhere counted_anywhere, by rintro _ ⟨⟩⟩

theorem fast_decimal_anywhere : DecodesAnywhere fastDecodeDecimalAtomic :=
  field_anywhere ⟨nullable_anywhere int_anywhere (mantissa_anywhere _),
    by rintro _ ⟨⟩; exact nullable_anywhere int_anywhere (mantissa_anywhere _)⟩

/-- The exponent and the mantissa, put together. -/
theorem assign_decimal_placed (d : DecimalFields) (m : Decoded (Field I64)) :
    assignDecimal d (m.placed P) = (assignDecimal d m).placed P := by
  simp only [assignDecimal, apply_ite (Decoded.placed P)]
  rfl

/-- The exponent, and the mantissa where there is one. -/
theorem fast_individ_anywhere : DecodesAnywhere fastDecodeDecimalIndivid := by
  intro P b p d h
  have moved := interruptible_int.moved p d.exponent h.valid
  rw [fastDecodeDecimalIndivid, fastDecodeDecimalIndivid, fast_int_anywhere p d.exponent h]
  generalize fastDecodeInt b p d.exponent = e at moved ⊢
  have mantissa := fast_int_anywhere e.pmap d.mantissa (h.moved moved)
  simp only [decodeMantissa, apply_ite (Decoded.placed P), ← assign_decimal_placed, ← mantissa]
  rfl

/-- **Every element** of a sequence, by type. -/
theorem element_anywhere : DecodesAnywhere decodeElement := by
  intro P b p f h
  cases f with
  | int f => simp only [decodeElement, fast_int_anywhere p f h]; rfl
  | uint f => simp only [decodeElement, fast_uint_anywhere p f h]; rfl
  | string unicode f => simp only [decodeElement, fast_string_anywhere unicode p f h]; rfl
  | vector f => simp only [decodeElement, fast_vector_anywhere p f h]; rfl
  | decimal individ f e m =>
    cases individ with
    | false => simp only [decodeElement, fast_decimal_anywhere p f h]; rfl
    | true => simp only [decodeElement, fast_individ_anywhere p _ h]; rfl
  | nested name => rfl

/-! ## Sequences -/

/-- A run over the elements of an item, moved. -/
def ElementRun.placed (P : Place) (r : ElementRun) : ElementRun := { r with buffer := P.put r.buffer }

/-- The loop over the elements of one item. -/
theorem element_fields_placed (n : Nat) (s : Sequence) (h : P.Holds b) :
    decodeElementFields n (P.put b) s = (decodeElementFields n b s).placed P := by
  induction n generalizing b s with
  | zero => rfl
  | succ n ih =>
    unfold decodeElementFields
    cases s.head[s.msgDecoded]? with
    | none => rfl
    | some f =>
      have moved := streams_element.moved s.pmap f h.valid
      simp only [element_anywhere s.pmap f h, Decoded.placed]
      cases (decodeElement b s.pmap f).ret with
      | ok => exact ih _ (h.moved moved)
      | garbled => rfl
      | msgPartial => rfl
      | fault => rfl

/-- The presence map of one item. -/
theorem element_pmap_placed (s : Sequence) (h : P.Holds b) :
    decodeElementPmap (P.put b) s = (decodeElementPmap b s).placed P := by
  unfold decodeElementPmap
  split
  · rw [parse_pmap_placed _ h]
    obtain ⟨ret, p, b'⟩ := parsePmap b s.pmap
    cases ret <;> rfl
  · rfl

/-- One item of a sequence. -/
theorem item_placed (s : Sequence) (h : P.Holds b) : elementItem (P.put b) s = (elementItem b s).placed P := by
  have map := element_pmap_placed s h
  have ret : (decodeElementPmap (P.put b) s).ret = (decodeElementPmap b s).ret := by rw [map]; rfl
  by_cases ok : (decodeElementPmap b s).ret = .ok
  · rw [item_fields ok, item_fields (ret.trans ok), map]
    exact element_fields_placed _ _ (h.moved (element_pmap_moved h.valid s).1)
  · rw [item_stopped ok, item_stopped (by rw [ret]; exact ok), map]

/-- The loop over the items, by induction on their number. -/
theorem elements_placed (n : Nat) (s : Sequence) (h : P.Holds b) :
    decodeElements n (P.put b) s = (decodeElements n b s).placed P := by
  induction n generalizing b s with
  | zero => rfl
  | succ n ih =>
    have item := item_placed s h
    have ret : (elementItem (P.put b) s).ret = (elementItem b s).ret := by rw [item]; rfl
    by_cases past : s.length.value.toNat < s.decoded
    · rw [elements_end past, elements_end past]
      rfl
    · by_cases ok : (elementItem b s).ret = .ok
      · rw [elements_next past ok, elements_next past (ret.trans ok), item]
        exact ih _ (h.moved (item_moved h.valid s).1)
      · rw [elements_stopped past ok, elements_stopped past (by rw [ret]; exact ok), item]

/-- The length of a sequence. -/
theorem length_placed (p : Pmap) (s : Sequence) (h : P.Holds b) :
    decodeLength (P.put b) p s = ((decodeLength b p s).1.placed P, (decodeLength b p s).2) := by
  unfold decodeLength
  split
  · simp only [fast_uint_anywhere p s.length h]
    cases hr : (fastDecodeUint b p s.length).ret with
    | ok =>
      simp only [Decoded.placed, hr]
      split
      · rfl
      · split <;> rfl
    | garbled => simp only [Decoded.placed, hr]
    | msgPartial =>
      simp only [Decoded.placed, hr]
      rfl
    | fault => simp only [Decoded.placed, hr]
  · rfl

/-- The length moves the buffer forward. -/
theorem length_moved (hv : b.Valid) (p : Pmap) (s : Sequence) : b.Moved (decodeLength b p s).1.buffer := by
  have moved := interruptible_uint.moved p s.length hv
  cases length_cases b p s with
  | begun begun => rw [length_passed begun]; exact hv.refl_moved
  | read zero ok there range => rw [length_read zero ok there range]; exact moved
  | short zero short => rw [length_short hv zero short]; exact hv.refl_moved
  | past zero long past => rw [length_over zero long past]; exact moved

theorem elements_from_placed (p : Pmap) (s : Sequence) (h : P.Holds b) :
    sequenceElementsFrom (P.put b) p s = (sequenceElementsFrom b p s).placed P := by
  simp only [sequenceElementsFrom, elements_placed _ _ h, apply_ite (Decoded.placed P)]
  rfl

/-- **A sequence**: its length, and its items behind it. -/
theorem sequence_anywhere : DecodesAnywhere fastDecodeSequence := by
  intro P b p s h
  have moved := length_moved h.valid p s
  have parts : ∀ b, fastDecodeSequence b p s =
      if !(decodeLength b p s).2 then (decodeLength b p s).1
      else sequenceElementsFrom (decodeLength b p s).1.buffer (decodeLength b p s).1.pmap (decodeLength b p s).1.field :=
    fun _ => rfl
  rw [parts, parts, length_placed p s h, apply_ite (Decoded.placed P), ← elements_from_placed _ _ (h.moved moved)]
  rfl

/-! ## The message -/

/-- **A field of a message**, an element or a sequence. -/
theorem fast_field_anywhere : DecodesAnywhere decodeFastField := by
  intro P b p f h
  cases f with
  | elem f => simp only [decodeFastField, element_anywhere p f h]; rfl
  | sequence s => simp only [decodeFastField, sequence_anywhere p s h]; rfl

theorem interrupted_placed (f : FastField) (b after : Buffer) :
    interruptedAt f (P.put b) (P.put after) = P.put (interruptedAt f b after) := by
  cases f <;> rfl

/-- A run over the fields of a message, moved. -/
def FieldsRun.placed (P : Place) (r : FieldsRun) : FieldsRun := { r with buffer := P.put r.buffer }

/-- **The loop over the fields** of a message. -/
theorem fields_placed (n decoded : Nat) (p : Pmap) {fields : List FastField} (regular : RegularFields fields)
    (h : P.Holds b) : decodeFields n (P.put b) p decoded fields = (decodeFields n b p decoded fields).placed P := by
  induction n generalizing b p decoded fields with
  | zero => rfl
  | succ n ih =>
    unfold decodeFields
    cases hf : fields[decoded]? with
    | none => rfl
    | some f =>
      obtain ⟨moved, _, kept⟩ := field_moved h.valid p (regular f (List.mem_of_getElem? hf))
      simp only [fast_field_anywhere p f h, Decoded.placed]
      cases (decodeFastField b p f).ret with
      | ok => exact ih _ _ (regular_fields_set regular decoded kept) (h.moved moved)
      | garbled => rfl
      | msgPartial => simp only [interrupted_placed, FieldsRun.placed]
      | fault => rfl

/-- The session over the other memory. -/
def Session.placed (P : Place) (s : Session) : Session := { s with rxBuffer := P.put s.rxBuffer }

/-- The session behind a stage, moved. -/
def Stage.placed (P : Place) (t : Stage) : Stage := { t with session := t.session.placed P }

/-- The session behind a call, moved. -/
def Decode.placed (P : Place) (d : Decode) : Decode := { d with session := d.session.placed P }

/-- A stage does the same wherever the bytes lie. -/
def RunsAnywhere (stage : Session → Stage) : Prop :=
  ∀ {P : Place} {s : Session}, P.Holds s.rxBuffer → stage (s.placed P) = (stage s).placed P

/-- The preamble is skipped by its length. -/
theorem preamble_anywhere : RunsAnywhere Session.decodePreamble := by
  intro P s h
  unfold Session.decodePreamble
  simp only [Session.placed, Place.put_size]
  split
  · split
    · rfl
    · rename_i long
      rw [take_bytes_placed h (Nat.not_lt.mp long)]
      rfl
  · rfl

/-- The presence map of the message. -/
theorem pmap_anywhere : RunsAnywhere Session.decodePmap := by
  intro P s h
  unfold Session.decodePmap
  simp only [Session.placed, parse_pmap_placed s.pmap h]
  split
  · obtain ⟨ret, p, b⟩ := parsePmap s.rxBuffer s.pmap
    cases ret <;> rfl
  · rfl

/-- The template id, off the wire or the last one. -/
theorem read_tid_placed {s : Session} (h : P.Holds s.rxBuffer) : (s.placed P).readTid = s.readTid.placed P := by
  unfold Session.readTid
  simp only [Session.placed, parse_uint_placed h]
  split <;> rfl

theorem choose_template_placed (s : Session) (tid : U64) (b : Buffer) :
    (s.placed P).chooseTemplate tid (P.put b) = (s.chooseTemplate tid b).placed P := by
  unfold Session.chooseTemplate
  simp only [Session.placed]
  split <;> rfl

/-- The template id, and the template it names. -/
theorem tid_anywhere : RunsAnywhere Session.decodeTid := by
  intro P s h
  unfold Session.decodeTid
  have same : (s.placed P).rxMessage = s.rxMessage := rfl
  rw [same]
  cases s.rxMessage with
  | some i => rfl
  | none =>
    simp only [read_tid_placed h]
    cases s.readTid with
    | done tid b => exact choose_template_placed s tid b
    | fail ret b => cases ret <;> rfl

/-- Stages in sequence: the first one only moves the buffer forward. -/
theorem RunsAnywhere.andThen {first next : Session → Stage} (hf : RunsAnywhere first) (streams : StageStreams first)
    (hn : RunsAnywhere next) : RunsAnywhere (Stage.andThen first next) := by
  intro P s h
  have moved := streams.moved h.valid
  unfold Stage.andThen
  rw [hf h]
  generalize first s = t at moved ⊢
  have ret : (t.placed P).ret = t.ret := rfl
  rw [ret, apply_ite (Stage.placed P), ← hn (h.moved moved)]
  rfl

/-- **The header** of a message, all three stages. -/
theorem header_anywhere : RunsAnywhere Session.decodeHeader :=
  preamble_anywhere.andThen stage_preamble (pmap_anywhere.andThen stage_pmap tid_anywhere)

/-- The fields of a message whose template is known, and what is returned. -/
theorem message_placed {s : Session} (i : Nat) {m : Message} (regular : RegularFields m.fields)
    (h : P.Holds s.rxBuffer) : (s.placed P).decodeMessage i m = (s.decodeMessage i m).placed P := by
  have fields : (s.placed P).messageFields m = (s.messageFields m).placed P := fields_placed _ _ _ regular h
  rw [Session.decodeMessage, Session.decodeMessage, fields]
  generalize s.messageFields m = r
  unfold Session.finishMessage
  have ret : (r.placed P).ret = r.ret := rfl
  rw [ret]
  cases r.ret <;> rfl

/-- **`fast_message_decode` sees the received bytes only.** With the same bytes at another place, in a memory
that holds anything else around them, it does the same. -/
theorem decode_anywhere {s : Session} (hs : s.Regular) (h : P.Holds s.rxBuffer) :
    (s.placed P).fastMessageDecode = s.fastMessageDecode.placed P := by
  have header := header_anywhere h
  have regular := header_regular hs
  have holds := h.moved (stage_header.moved hs.valid)
  have ret : (s.placed P).decodeHeader.ret = s.decodeHeader.ret := by rw [header]; rfl
  by_cases ok : s.decodeHeader.ret = .ok
  · cases hm : s.decodeHeader.session.rxMessage with
    | none => rw [decode_no_template ok hm, decode_no_template (ret.trans ok) (by rw [header]; exact hm), header]; rfl
    | some i =>
      cases hi : s.decodeHeader.session.rxMessages[i]? with
      | none =>
        rw [decode_lost ok hm hi, decode_lost (ret.trans ok) (by rw [header]; exact hm) (by rw [header]; exact hi), header]
        rfl
      | some m =>
        rw [decode_fields_of ok hm hi,
          decode_fields_of (ret.trans ok) (by rw [header]; exact hm) (by rw [header]; exact hi), header]
        exact message_placed i (regular.regular m (List.mem_of_getElem? hi)) holds
  · rw [decode_stopped ok, decode_stopped (by rw [ret]; exact ok), header]
    rfl

end Libtrading.Fast
