import Libtrading.Fix.Capacity
import Libtrading.Fix.Framing

/-!
# What is sent, as a message on the wire

The text of a message that fits its buffers is a message on the wire: BeginString, the length of the body, the
MsgType, the other fields of the header and those of the message, and the sum of all that.
-/

namespace Libtrading
set_option autoImplicit false

namespace Buffer

/-- What is put into a buffer with room for it is behind what was there. -/
theorem puts_data {b : Buffer} {w : List UInt8} (room : b.stop + w.length ≤ b.data.length) :
    (b.bufferPuts w).data = b.data.take b.stop ++ (w ++ b.data.drop (b.stop + w.length)) := by
  refine List.ext_getElem? fun i => ?_
  have front : (b.data.take b.stop).length = b.stop := by rw [List.length_take]; omega
  rw [puts_get]
  by_cases before : i < b.stop
  · rw [if_neg (by omega), List.getElem?_append_left (by omega), List.getElem?_take_of_lt before]
  · rw [List.getElem?_append_right (by omega), front]
    by_cases here : i < b.stop + w.length
    · rw [if_pos (by omega), List.getElem?_append_left (by omega)]
    · rw [if_neg (by omega), List.getElem?_append_right (by omega), List.getElem?_drop]
      congr 1
      omega

/-- The bytes of an empty buffer with a text put into it. -/
theorem puts_text {b : Buffer} {w : List UInt8} (empty : b.stop = 0) (room : w.length ≤ b.data.length) :
    (b.bufferPuts w).data.take (b.bufferPuts w).stop = w := by
  rw [puts_data (by omega), puts_stop, empty, List.take_zero, List.nil_append, Nat.zero_add, List.take_left]

end Buffer

namespace Fix
open Buffer Wire Bytes
universe u

/-! ## Fields -/

section
variable {F : Type u} [Doubles F]

/-- A field as it is sent. -/
def FixField.onWire (f : FixField F) : WireField := ⟨uitoa f.tag, f.value.printed⟩

theorem fields_text_head (f : WireField) (fs : List WireField) : fieldsText (f :: fs) = f.text ++ fieldsText fs :=
  List.flatMap_cons

theorem fields_text_append (fs gs : List WireField) : fieldsText (fs ++ gs) = fieldsText fs ++ fieldsText gs :=
  List.flatMap_append

theorem fields_on_wire (fs : List (FixField F)) :
    fieldsText (fs.map FixField.onWire) = fs.flatMap FixField.printed := by
  rw [fieldsText, List.flatMap_map]
  rfl

end

/-! ## Messages -/

namespace WireMessage

/-- A message whose BodyLength and CheckSum are the true ones. -/
structure Complete (t : WireMessage) : Prop where
  digits : t.bodyLength.all isDigit = true
  bodyLength : value t.bodyLength = t.body.length
  checkSum : t.checkSum = padded 3 t.front.sum.toNat

end WireMessage

section
variable {F : Type u} [Doubles F]

namespace FixMessage

/-- The text of the MsgType. -/
def typeText (m : FixMessage F) : List UInt8 :=
  if m.type ≠ .unknown then cchars (cstr (fixMsgTypes m.type)) else cchars m.msgType

/-- The fields of the header behind the MsgType. -/
def headerFields (m : FixMessage F) : List (FixField F) :=
  [.ofString Tag.senderCompId m.senderCompId, .ofString Tag.targetCompId m.targetCompId,
    .ofInt Tag.msgSeqNum m.msgSeqNum,
    .ofString Tag.sendingTime (strncpy m.strNow 64)]

/-- A message as it is sent, less its checksum. -/
def unsummed (m : FixMessage F) : WireMessage where
  beginString := cchars m.beginString
  bodyLength := decimal m.bodySize
  msgType := m.typeText
  fields := (m.headerFields ++ m.fields).map FixField.onWire
  checkSum := []

/-- A message as it is sent. -/
def onWire (m : FixMessage F) : WireMessage := { m.unsummed with checkSum := padded 3 m.unsummed.front.sum.toNat }

theorem on_wire_body (m : FixMessage F) : m.onWire.body = m.bodyText := by
  have type : fieldText (chars "35") m.typeText =
      (if m.type ≠ .unknown then .ofString Tag.msgType (cstr (fixMsgTypes m.type))
        else .ofString Tag.msgType m.msgType : FixField F).printed := by
    have tag : uitoa Tag.msgType = chars "35" := by decide
    unfold typeText
    split
    · exact congrArg (fieldText · (cchars (cstr (fixMsgTypes m.type)))) tag.symm
    · exact congrArg (fieldText · (cchars m.msgType)) tag.symm
  have header : m.standardHeader = (if m.type ≠ .unknown then .ofString Tag.msgType (cstr (fixMsgTypes m.type))
      else .ofString Tag.msgType m.msgType) :: m.headerFields := rfl
  show fieldText (chars "35") m.typeText ++ fieldsText ((m.headerFields ++ m.fields).map FixField.onWire) = _
  rw [fields_on_wire, type, bodyText, header, List.cons_append, List.flatMap_cons]

theorem body_size (m : FixMessage F) : m.onWire.body.length = m.bodySize := by
  rw [on_wire_body, bodyText, length_printed_fields, bodySize]

/-- A body that fits its buffer has a length that is printed as it is. -/
theorem on_wire_head {m : FixMessage F} (small : m.bodySize < 2 ^ 63) :
    m.headText = fieldText (chars "8") m.onWire.beginString ++ fieldText (chars "9") m.onWire.bodyLength := by
  have length : i64toa (.ofNat 64 m.bodySize) = decimal m.bodySize := by
    have value : (BitVec.ofNat 64 m.bodySize).toNat = m.bodySize := by
      rw [BitVec.toNat_ofNat]
      omega
    have sign : (BitVec.ofNat 64 m.bodySize).msb = false := by
      rw [BitVec.msb_eq_decide, value, decide_eq_false_iff_not]
      omega
    rw [i64toa_eq, sprintf64, sign, if_neg Bool.false_ne_true, value]
  have printed : (.ofInt Tag.bodyLength (.ofNat 64 m.bodySize) : FixField F).printed =
      fieldText (chars "9") (i64toa (.ofNat 64 m.bodySize)) := rfl
  rw [headText, printed, length]
  rfl

theorem on_wire_complete (m : FixMessage F) : m.onWire.Complete where
  digits := List.all_eq_true.2 (digits_decimal _)
  bodyLength := (value_decimal _).trans m.body_size.symm
  checkSum := rfl

end FixMessage

/-- The text of a checksum. -/
theorem check_sum_text {c : Nat} (h : c < 256) : (.ofCheckSum Tag.checkSum (.ofNat 64 c) : FixField F).printed =
    fieldText (chars "10") (padded 3 c) := by
  have narrow : ((BitVec.ofNat 64 c).setWidth 32).toNat = c := by
    rw [BitVec.toNat_setWidth, BitVec.toNat_ofNat]
    omega
  have text : checksumtoa ((BitVec.ofNat 64 c).setWidth 32) = padded 3 c := by
    rw [checksumtoa_eq _ (by omega), narrow]
  have tag : uitoa Tag.checkSum = chars "10" := by decide
  rw [← text, ← tag]
  rfl

/-- The sums of two parts are the sum of the whole. -/
theorem sum_of_parts (v w : List UInt8) : (v.sum.toNat + w.sum.toNat) % 256 = (v ++ w).sum.toNat := by
  rw [List.sum_append, UInt8.toNat_add]

/-- **A message sent.** Printed to empty buffers with room for it, the bytes of head and body are the message on
the wire. -/
theorem unparsed_on_wire {m : FixMessage F} {head body : Buffer} (hempty : head.start = 0 ∧ head.stop = 0)
    (empty : body.start = 0 ∧ body.stop = 0) (hroom : m.headSize ≤ head.data.length)
    (room : m.bodySize + FixMessage.checkSumSize ≤ body.data.length) (small : m.bodySize < 2 ^ 63) :
    (m.fixMessageUnparse head body).1.data.take (m.fixMessageUnparse head body).1.stop ++
      (m.fixMessageUnparse head body).2.data.take (m.fixMessageUnparse head body).2.stop = m.onWire.text := by
  have headLength : m.headText.length = m.headSize := by
    rw [FixMessage.headText, List.length_append, length_printed, length_printed, FixMessage.headSize]
  have bodyLength : m.bodyText.length = m.bodySize := by
    rw [FixMessage.bodyText, length_printed_fields, FixMessage.bodySize]
  have sums : m.sumIn head body = m.onWire.front.sum.toNat := by
    have front : m.onWire.front = m.headText ++ m.bodyText := by
      rw [FixMessage.on_wire_head small, ← FixMessage.on_wire_body, List.append_assoc]
      rfl
    have headSum : (head.bufferPuts m.headText).bufferSum = m.headText.sum := by
      rw [bufferSum, bufferSumRange, puts_start, hempty.1, List.drop_zero, puts_text hempty.2 (by omega)]
    have bodySum : (body.bufferPuts m.bodyText).bufferSum = m.bodyText.sum := by
      rw [bufferSum, bufferSumRange, puts_start, empty.1, List.drop_zero, puts_text empty.2 (by omega)]
    rw [FixMessage.sumIn, headSum, bodySum, sum_of_parts, front]
  have byte : m.sumIn head body < 256 := Nat.mod_lt _ (by decide)
  have sum := check_sum_text (F := F) byte
  have length : (fieldText (chars "10") (padded 3 (m.sumIn head body))).length = FixMessage.checkSumSize := by
    rw [← sum, length_printed, check_sum_size byte]
  rw [message_unparse_eq m head body empty]
  simp only
  rw [puts_text hempty.2 (by omega), puts_text empty.2 (by rw [List.length_append, sum]; omega), sum, sums,
    FixMessage.on_wire_head small, ← FixMessage.on_wire_body, WireMessage.text, WireMessage.front, List.append_assoc,
    List.append_assoc, List.append_assoc]
  rfl

end

end Fix

end Libtrading
