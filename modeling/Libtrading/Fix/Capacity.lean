import Libtrading.Fix.Printed

/-!
# Room to send

Neither `fix_message_unparse` nor the two routines of a template look at a capacity. A call stays inside of
its buffers if and only if what it prints fits them; whether it does can be told from the fields.

Behind the array of a buffer there is other memory. A call stays inside where this memory is afterwards what
it was, whatever it was.
-/

namespace Libtrading.Fix
open Buffer
set_option autoImplicit false
universe u

/-- A buffer, with memory behind its array. -/
def withMemory (b : Buffer) (memory : List UInt8) : Buffer := { b with data := b.data ++ memory }

/-- What a call makes of an array of `cap` bytes and the memory behind: it stores below `k`, and a SOH last. -/
structure StoresBelow (cap : Nat) (call : List UInt8 → List UInt8) (k : Nat) : Prop where
  size : ∀ memory, (call memory).length = cap + memory.length
  beyond : ∀ memory i, k ≤ i → cap ≤ i → (call memory)[i]? = memory[i - cap]?
  last : ∀ memory, k ≤ cap + memory.length → (call memory)[k - 1]? = some 1

/-- The memory behind the array is left alone if and only if the stores end inside of it. -/
theorem StoresBelow.inside_iff {cap k : Nat} {call : List UInt8 → List UInt8} (h : StoresBelow cap call k) :
    (∀ memory, (call memory).drop cap = memory) ↔ k ≤ cap := by
  refine ⟨fun inside => Nat.le_of_not_lt fun past => ?_, fun inside memory => ?_⟩
  · have stored := h.last (List.replicate (k - cap) 0) (by rw [List.length_replicate]; omega)
    have same := congrArg (·[k - 1 - cap]?) (inside (List.replicate (k - cap) 0))
    simp only [List.getElem?_drop, List.getElem?_replicate] at same
    rw [show cap + (k - 1 - cap) = k - 1 by omega, stored, if_pos (by omega)] at same
    cases same
  · refine List.ext_getElem? fun i => ?_
    rw [List.getElem?_drop, h.beyond memory _ (by omega) (by omega), Nat.add_sub_cancel_left]

/-! ## Messages -/

section Messages
variable {F : Type u} [Doubles F]

/-- Puts of which the last one is a SOH. -/
theorem puts_below (b : Buffer) {text : List UInt8 → List UInt8} {n : Nat} (size : ∀ memory, (text memory).length = n)
    (ends : ∀ memory, (text memory).getLast? = some 1) :
    StoresBelow b.data.length (fun memory => ((withMemory b memory).bufferPuts (text memory)).data) (b.stop + n) where
  size memory := by rw [puts_size, withMemory, List.length_append]
  beyond memory i past array := by
    rw [puts_get, if_neg (by rw [size]; simp only [withMemory]; omega)]
    exact List.getElem?_append_right array
  last memory room := by
    have last := ends memory
    have some : 0 < n := by
      rw [← size memory, List.length_pos_iff]
      intro none
      rw [none] at last
      cases last
    rw [List.getLast?_eq_getElem?, size] at last
    rw [puts_get, if_pos (by rw [size]; simp only [withMemory, List.length_append]; omega), ← last]
    congr 1
    simp only [withMemory]
    omega

namespace FixMessage

/-- The number of bytes of the body, without the checksum. -/
def bodySize (m : FixMessage F) : Nat := ((m.standardHeader ++ m.fields).map FixField.size).sum

/-- The number of bytes of the head. -/
def headSize (m : FixMessage F) : Nat :=
  (.ofString Tag.beginString m.beginString : FixField F).size +
    (.ofInt Tag.bodyLength (.ofNat 64 m.bodySize) : FixField F).size

/-- The number of bytes of a checksum. -/
def checkSumSize : Nat := 7

/-- The message fits the two buffers it is printed to. -/
def Fits (m : FixMessage F) : Prop := m.headSize ≤ fixMaxHeadLen ∧ m.bodySize + checkSumSize ≤ fixMaxBodyLen

end FixMessage

theorem printed_ends (f : FixField F) : f.printed.getLast? = some 1 := by
  rw [FixField.printed, ← List.cons_append, ← List.append_assoc, List.getLast?_concat]

/-- Fields behind a SOH end with a SOH. -/
theorem fields_end {w : List UInt8} (h : w.getLast? = some 1) (fs : List (FixField F)) :
    (w ++ fs.flatMap FixField.printed).getLast? = some 1 := by
  induction fs generalizing w with
  | nil => rwa [List.flatMap_nil, List.append_nil]
  | cons f fs ih =>
    rw [List.flatMap_cons, ← List.append_assoc]
    exact ih (by rw [List.getLast?_append, printed_ends, Option.some_or])

theorem length_printed_fields (fs : List (FixField F)) :
    (fs.flatMap FixField.printed).length = (fs.map FixField.size).sum := by
  rw [List.length_flatMap]
  exact congrArg List.sum (List.map_congr_left fun f _ => length_printed f)

/-- A checksum has three digits. -/
theorem check_sum_size {c : Nat} (h : c < 256) : (.ofCheckSum Tag.checkSum (.ofNat 64 c) : FixField F).size =
    FixMessage.checkSumSize := by
  have value : ((BitVec.ofNat 64 c).setWidth 32).toNat = c := by
    rw [BitVec.toNat_setWidth, BitVec.toNat_ofNat]
    omega
  have digits : digitCount c ≤ 3 := by
    rw [← length_decimal]
    exact (Wire.length_decimal_le (by decide)).2 (by omega)
  have tag : digitCount Tag.checkSum.toNat = 2 := by decide
  simp only [FixField.size, FixField.ofCheckSum, FieldValue.size, value, tag, FixMessage.checkSumSize]
  omega

namespace FixMessage

/-- The text of the head. -/
def headText (m : FixMessage F) : List UInt8 :=
  (.ofString Tag.beginString m.beginString : FixField F).printed ++
    (.ofInt Tag.bodyLength (.ofNat 64 m.bodySize) : FixField F).printed

/-- The text of the body, without the checksum. -/
def bodyText (m : FixMessage F) : List UInt8 := (m.standardHeader ++ m.fields).flatMap FixField.printed

/-- The checksum of the message printed to the two buffers. -/
def sumIn (m : FixMessage F) (head body : Buffer) : Nat :=
  ((head.bufferPuts m.headText).bufferSum.toNat + (body.bufferPuts m.bodyText).bufferSum.toNat) % 256

end FixMessage

/-- A message is stored as its text, the head and the body with its checksum. -/
theorem message_unparse_eq (m : FixMessage F) (head body : Buffer) (empty : body.start = 0 ∧ body.stop = 0) :
    m.fixMessageUnparse head body = (head.bufferPuts m.headText, body.bufferPuts (m.bodyText ++
      (.ofCheckSum Tag.checkSum (.ofNat 64 (m.sumIn head body)) : FixField F).printed)) := by
  have front : fixFieldsUnparse m.fields (fixFieldsUnparse m.standardHeader body) = body.bufferPuts m.bodyText := by
    rw [fields_unparse_eq, fields_unparse_eq, FixMessage.bodyText, List.flatMap_append, puts_append]
  have size : (body.bufferPuts m.bodyText).bufferSize = m.bodySize := by
    rw [bufferSize, puts_start, puts_stop, FixMessage.bodyText, length_printed_fields, empty.1, empty.2,
      if_pos (Nat.zero_le _), Nat.zero_add]
    rfl
  simp only [FixMessage.fixMessageUnparse, front, size, field_unparse_eq, FixMessage.sumIn, FixMessage.headText,
    puts_append]

theorem head_below (m : FixMessage F) (b : Buffer) :
    StoresBelow b.data.length (fun memory => ((withMemory b memory).bufferPuts m.headText).data) (b.stop + m.headSize) :=
  puts_below b
    (fun _ => by rw [FixMessage.headText, List.length_append, length_printed, length_printed, FixMessage.headSize])
    (fun _ => by rw [FixMessage.headText, List.getLast?_append, printed_ends, Option.some_or])

theorem body_below (m : FixMessage F) (b : Buffer) (sum : List UInt8 → Nat) (small : ∀ memory, sum memory < 256) :
    StoresBelow b.data.length (fun memory => ((withMemory b memory).bufferPuts
        (m.bodyText ++ (.ofCheckSum Tag.checkSum (.ofNat 64 (sum memory)) : FixField F).printed)).data)
      (b.stop + (m.bodySize + FixMessage.checkSumSize)) :=
  puts_below b
    (fun memory => by
      rw [List.length_append, FixMessage.bodyText, length_printed_fields, length_printed, check_sum_size (small memory),
        FixMessage.bodySize])
    (fun _ => by rw [List.getLast?_append, printed_ends, Option.some_or])

end Messages

/-! ## Sessions -/

namespace Session
variable {F : Type u} [Doubles F]

/-- A session, with memory above the arrays it sends from. -/
def above (s : Session F) (head body : List UInt8) : Session F :=
  { s with txHeadBuffer := withMemory s.txHeadBuffer head, txBodyBuffer := withMemory s.txBodyBuffer body }

/-- Whatever lies behind the two arrays, sending the message leaves it. -/
def SendsInside (s : Session F) (msg : FixMessage F) (flags : U64) : Prop :=
  ∀ head body,
    ((s.above head body).fixSessionSend msg flags).1.txHeadBuffer.data.drop s.txHeadBuffer.data.length = head ∧
      ((s.above head body).fixSessionSend msg flags).1.txBodyBuffer.data.drop s.txBodyBuffer.data.length = body

/-- The buffers have the capacities they were made with. -/
structure Transmits (s : Session F) : Prop where
  head : s.txHeadBuffer.data.length = fixMaxHeadLen
  body : s.txBodyBuffer.data.length = fixMaxBodyLen

omit [Doubles F] in
theorem new_transmits (cfg : SessionCfg) (now : List UInt8) : (fixSessionNew cfg now : Session F).Transmits where
  head := List.length_replicate
  body := List.length_replicate

theorem send_buffers (s : Session F) (msg : FixMessage F) {flags : U64} (printed : flags &&& preserveBuffer = 0) :
    (s.fixSessionSend msg flags).1.txHeadBuffer = s.txHeadBuffer.bufferReset.bufferPuts (s.numbered msg flags).headText ∧
      (s.fixSessionSend msg flags).1.txBodyBuffer = s.txBodyBuffer.bufferReset.bufferPuts
        ((s.numbered msg flags).bodyText ++ (.ofCheckSum Tag.checkSum (.ofNat 64 ((s.numbered msg flags).sumIn
          s.txHeadBuffer.bufferReset s.txBodyBuffer.bufferReset)) : FixField F).printed) := by
  have text := message_unparse_eq (s.numbered msg flags) s.txHeadBuffer.bufferReset s.txBodyBuffer.bufferReset ⟨rfl, rfl⟩
  simp only [fixSessionSend, unparsed, if_pos printed, text, and_self]

theorem send_nothing (s : Session F) (msg : FixMessage F) {flags : U64} (preserved : flags &&& preserveBuffer ≠ 0) :
    (s.fixSessionSend msg flags).1.txHeadBuffer = s.txHeadBuffer.bufferReset ∧
      (s.fixSessionSend msg flags).1.txBodyBuffer = s.txBodyBuffer.bufferReset := by
  simp only [fixSessionSend, unparsed, if_neg preserved, and_self]

theorem Transmits.send {s : Session F} (h : s.Transmits) (msg : FixMessage F) (flags : U64) :
    (s.fixSessionSend msg flags).1.Transmits := by
  by_cases printed : flags &&& preserveBuffer = 0
  · obtain ⟨head, body⟩ := send_buffers s msg printed
    exact ⟨by rw [head, puts_size]; exact h.head, by rw [body, puts_size]; exact h.body⟩
  · obtain ⟨head, body⟩ := send_nothing s msg printed
    exact ⟨by rw [head]; exact h.head, by rw [body]; exact h.body⟩

/-- **Sending a message.** It is printed inside of the two buffers if and only if it fits them, or is not printed. -/
theorem sends_inside_iff {s : Session F} (h : s.Transmits) (msg : FixMessage F) (flags : U64) :
    s.SendsInside msg flags ↔ flags &&& preserveBuffer ≠ 0 ∨ (s.numbered msg flags).Fits := by
  unfold SendsInside
  by_cases printed : flags &&& preserveBuffer = 0
  · have buffers : ∀ head body,
        ((s.above head body).fixSessionSend msg flags).1.txHeadBuffer =
            (withMemory s.txHeadBuffer.bufferReset head).bufferPuts (s.numbered msg flags).headText ∧
          ((s.above head body).fixSessionSend msg flags).1.txBodyBuffer =
            (withMemory s.txBodyBuffer.bufferReset body).bufferPuts ((s.numbered msg flags).bodyText ++
              (.ofCheckSum Tag.checkSum (.ofNat 64 ((s.numbered msg flags).sumIn (withMemory s.txHeadBuffer.bufferReset head)
                (withMemory s.txBodyBuffer.bufferReset body))) : FixField F).printed) :=
      fun head body => send_buffers (s.above head body) msg printed
    have head := (head_below (s.numbered msg flags) s.txHeadBuffer.bufferReset).inside_iff
    have body := fun front => (body_below (s.numbered msg flags) s.txBodyBuffer.bufferReset
      (fun memory => (s.numbered msg flags).sumIn (withMemory s.txHeadBuffer.bufferReset front)
        (withMemory s.txBodyBuffer.bufferReset memory)) fun _ => Nat.mod_lt _ (by decide)).inside_iff
    have fits : (s.numbered msg flags).Fits ↔
        s.txHeadBuffer.bufferReset.stop + (s.numbered msg flags).headSize ≤ s.txHeadBuffer.bufferReset.data.length ∧
        s.txBodyBuffer.bufferReset.stop + ((s.numbered msg flags).bodySize + FixMessage.checkSumSize) ≤
          s.txBodyBuffer.bufferReset.data.length := by
      simp only [bufferReset, h.head, h.body, Nat.zero_add, FixMessage.Fits]
    rw [fits]
    simp only [buffers]
    constructor
    · intro inside
      exact .inr ⟨head.1 fun memory => (inside memory []).1, (body []).1 fun memory => (inside [] memory).2⟩
    · rintro (preserved | ⟨front, back⟩)
      · exact absurd printed preserved
      · exact fun memory memory' => ⟨head.2 front memory, (body memory).2 back memory'⟩
  · refine ⟨fun _ => .inl printed, fun _ head body => ?_⟩
    obtain ⟨front, back⟩ := send_nothing (s.above head body) msg printed
    rw [front, back]
    exact ⟨List.drop_left, List.drop_left⟩

end Session

/-! ## Templates -/

section Templates
variable {F : Type u} [Doubles F]

theorem store_at_size (b : Buffer) (i : Nat) (w : List UInt8) : (storeAt b i w).data.length = b.data.length :=
  puts_size ..

theorem store_at_get (b : Buffer) {i k : Nat} {w : List UInt8} (h : i + w.length ≤ k) :
    (storeAt b i w).data[k]? = b.data[k]? :=
  (puts_get ..).trans (if_neg (by simp only; omega))

theorem length_reverse_digits (room n : Nat) : (reverseDigits room n).length ≤ room := by
  induction room generalizing n with
  | zero => exact Nat.le_refl _
  | succ room ih =>
    rw [reverseDigits, List.length_cons]
    split
    · exact Nat.succ_le_succ (Nat.zero_le _)
    · exact Nat.succ_le_succ (ih _)

/-- A padded number is no longer than its width, or a sign and twenty digits. -/
theorem length_zpad (v : BitVec 64) (zpad : Nat) : (modpLitoa10Zpad v zpad).length ≤ max zpad 21 := by
  have digits := length_reverse_digits 20 (if v.msb then (-v).toNat else v.toNat)
  have sign : (if v.msb then ['-'.toNat.toUInt8] else []).length ≤ 1 := by split <;> decide
  simp only [modpLitoa10Zpad, List.length_reverse, List.length_append, List.length_replicate]
  omega

theorem length_memory_at (p : List UInt8) (n : Nat) : (memoryAt p n).length = n := by
  rw [memoryAt, List.length_append, List.length_take, List.length_replicate]
  omega

/-- The place for a time, behind a tag of two digits. -/
theorem time_size {tag : Tag} (two : digitCount tag.toNat = 2) :
    (.ofString tag timePlaceholder : FixField F).size = 25 := by
  have value : (cchars timePlaceholder).length = 21 := by decide
  simp only [FixField.size, FixField.ofString, FieldValue.size, two, value]

theorem padded_string (tag : Tag) (s : List UInt8) (zpad : Nat) :
    (.ofString tag s : FixField F).padded zpad = (.ofString tag s : FixField F).printed := rfl

namespace FixTemplateCfg

/-- The text of a prepared template. -/
def text (cfg : FixTemplateCfg F) : List UInt8 :=
  (.ofString Tag.beginString cfg.beginString : FixField F).printed ++
    ((.ofInt Tag.bodyLength 0 : FixField F).padded templateBodyLenZpad ++
    ((.ofString Tag.msgType (cstr (fixMsgTypes cfg.msgType)) : FixField F).printed ++
    ((.ofInt Tag.msgSeqNum 0 : FixField F).padded templateMsgSeqNumZpad ++
    ((.ofString Tag.senderCompId cfg.senderCompId : FixField F).printed ++
    ((.ofString Tag.sendingTime timePlaceholder : FixField F).printed ++
    ((.ofString Tag.targetCompId cfg.targetCompId : FixField F).printed ++
    ((if cfg.manageTransactTime then (.ofString Tag.transactTime timePlaceholder : FixField F).printed else []) ++
    cfg.constFields.flatMap FixField.printed)))))))

/-- The number of bytes of a prepared template. -/
def size (cfg : FixTemplateCfg F) : Nat :=
  (.ofString Tag.beginString cfg.beginString : FixField F).size + 7 +
    (.ofString Tag.msgType (cstr (fixMsgTypes cfg.msgType)) : FixField F).size + 10 +
    (.ofString Tag.senderCompId cfg.senderCompId : FixField F).size + 25 +
    (.ofString Tag.targetCompId cfg.targetCompId : FixField F).size + (if cfg.manageTransactTime then 25 else 0) +
    (cfg.constFields.map FixField.size).sum

theorem length_text (cfg : FixTemplateCfg F) : cfg.text.length = cfg.size := by
  have bodyLength : ((.ofInt Tag.bodyLength 0 : FixField F).padded templateBodyLenZpad).length = 7 := rfl
  have msgSeqNum : ((.ofInt Tag.msgSeqNum 0 : FixField F).padded templateMsgSeqNumZpad).length = 10 := rfl
  have managed : (if cfg.manageTransactTime then (.ofString Tag.transactTime timePlaceholder : FixField F).printed
      else []).length = if cfg.manageTransactTime then 25 else 0 := by
    split
    · rw [length_printed, time_size (by decide)]
    · rfl
  simp only [text, size, List.length_append, length_printed, length_printed_fields, bodyLength, msgSeqNum, managed,
    time_size (F := F) (show digitCount Tag.sendingTime.toNat = 2 by decide)]
  omega

/-- A prepared template ends with a SOH. -/
theorem text_ends (cfg : FixTemplateCfg F) : cfg.text.getLast? = some 1 := by
  have front : ((.ofString Tag.targetCompId cfg.targetCompId : FixField F).printed ++
      if cfg.manageTransactTime then (.ofString Tag.transactTime timePlaceholder : FixField F).printed
      else []).getLast? = some 1 := by
    split
    · rw [List.getLast?_append, printed_ends, Option.some_or]
    · rw [List.append_nil, printed_ends]
  have back := fields_end front cfg.constFields
  rw [List.append_assoc] at back
  simp only [text, List.getLast?_append, back, Option.some_or]

end FixTemplateCfg

namespace FixTemplate

theorem prepare_buf (t : FixTemplate F) (cfg : FixTemplateCfg F) :
    (t.fixTemplatePrepare cfg).buf = t.buf.bufferPuts cfg.text := by
  simp only [fixTemplatePrepare, field_unparse_eq, field_zpad_eq, fields_unparse_eq, FixTemplateCfg.text, puts_append,
    padded_string]
  congr 1
  split
  · with_reducible rfl
  · exact (puts_nil _).symm

/-- The number of bytes of a message printed from a template, from its first to its last. -/
def sentSize (t : FixTemplate F) : Nat :=
  t.markerConstEnd + (t.fields.map FixField.size).sum + FixMessage.checkSumSize

/-- The marker of the time, which a configuration may leave, is in the text of the template. -/
structure Ready (t : FixTemplate F) : Prop where
  transactTime : ∀ m, t.markerTransactTime = some m → m + 21 ≤ t.buf.stop
  csum : t.csumField.tag = Tag.checkSum

/-- What is stored at the markers of a prepared template ends in front of the fields that vary. A number
takes up to 20 digits and a sign. -/
structure Marked (t : FixTemplate F) : Prop where
  bodyLength : t.markerBodyLength + 21 ≤ t.markerConstEnd
  msgSeqNum : t.markerMsgSeqNum + 21 ≤ t.markerConstEnd
  senderCompId : t.markerSenderCompId + t.senderCompIdLen ≤ t.markerConstEnd
  sendingTime : t.markerSendingTime + 21 ≤ t.markerConstEnd
  transactTime : ∀ m, t.markerTransactTime = some m → m + 21 ≤ t.markerConstEnd
  stop : t.markerConstEnd ≤ t.buf.stop
  csum : t.csumField.tag = Tag.checkSum

omit [Doubles F] in
theorem new_ready : (fixTemplateNew : FixTemplate F).Ready where
  transactTime m none := by cases none
  csum := rfl

omit [Doubles F] in
theorem Marked.ready {t : FixTemplate F} (h : t.Marked) : t.Ready where
  transactTime m marker := (h.transactTime m marker).trans h.stop
  csum := h.csum

theorem prepare_stop (t : FixTemplate F) (cfg : FixTemplateCfg F) :
    (t.fixTemplatePrepare cfg).buf.stop = t.buf.stop + cfg.size := by
  rw [prepare_buf, puts_stop, FixTemplateCfg.length_text]

theorem prepare_end (t : FixTemplate F) (cfg : FixTemplateCfg F) :
    (t.fixTemplatePrepare cfg).markerConstEnd = t.buf.stop + cfg.size := by
  rw [← prepare_stop]
  rfl

/-- Where the markers of the header are. -/
theorem prepare_markers (t : FixTemplate F) (cfg : FixTemplateCfg F) :
    (t.fixTemplatePrepare cfg).markerBodyLength =
        t.buf.stop + (.ofString Tag.beginString cfg.beginString : FixField F).size + 2 ∧
      (t.fixTemplatePrepare cfg).markerMsgSeqNum =
        t.buf.stop + (.ofString Tag.beginString cfg.beginString : FixField F).size + 7 +
          (.ofString Tag.msgType (cstr (fixMsgTypes cfg.msgType)) : FixField F).size + 3 ∧
      (t.fixTemplatePrepare cfg).markerSenderCompId = (t.fixTemplatePrepare cfg).markerMsgSeqNum + 10 ∧
      (t.fixTemplatePrepare cfg).markerSendingTime = (t.fixTemplatePrepare cfg).markerSenderCompId +
        (.ofString Tag.senderCompId cfg.senderCompId : FixField F).size := by
  have bodyLength : ((.ofInt Tag.bodyLength 0 : FixField F).padded templateBodyLenZpad).length = 7 := rfl
  have msgSeqNum : ((.ofInt Tag.msgSeqNum 0 : FixField F).padded templateMsgSeqNumZpad).length = 10 := rfl
  have nine : (uitoa (.ofInt Tag.bodyLength 0 : FixField F).tag).length = 1 := rfl
  have two : (uitoa (.ofInt Tag.msgSeqNum 0 : FixField F).tag).length = 2 := rfl
  have sender : (uitoa (.ofString Tag.senderCompId cfg.senderCompId : FixField F).tag).length = 2 := rfl
  have time : (uitoa (.ofString Tag.sendingTime timePlaceholder : FixField F).tag).length = 2 := rfl
  simp only [fixTemplatePrepare, field_unparse_eq, field_zpad_eq, padded_string, puts_stop, length_printed, bodyLength,
    msgSeqNum, nine, two, sender, time, true_and]
  omega

/-- The marker of the time is left, or in front of the fields that stay. -/
theorem prepare_transact_time {t : FixTemplate F} {cfg : FixTemplateCfg F} {m : Nat}
    (h : (t.fixTemplatePrepare cfg).markerTransactTime = some m) :
    t.markerTransactTime = some m ∨ m + 21 ≤ (t.fixTemplatePrepare cfg).markerConstEnd := by
  cases managed : cfg.manageTransactTime with
  | false =>
    simp only [fixTemplatePrepare, managed, Bool.false_eq_true, if_false] at h
    exact .inl h
  | true =>
    have two : (uitoa (.ofString Tag.transactTime timePlaceholder : FixField F).tag).length = 2 := rfl
    have size := time_size (F := F) (show digitCount Tag.transactTime.toNat = 2 by decide)
    simp only [fixTemplatePrepare, managed, if_true, field_zpad_eq, padded_string, two, Option.some.injEq] at h
    refine .inr ?_
    subst h
    simp only [fixTemplatePrepare, managed, if_true, field_zpad_eq, padded_string, fields_unparse_eq, puts_stop _,
      length_printed, size]
    omega

theorem Ready.prepare {t : FixTemplate F} (h : t.Ready) (cfg : FixTemplateCfg F) : (t.fixTemplatePrepare cfg).Marked := by
  obtain ⟨bodyLength, msgSeqNum, senderCompId, sendingTime⟩ := prepare_markers t cfg
  have constEnd := prepare_end t cfg
  have sender : (.ofString Tag.senderCompId cfg.senderCompId : FixField F).size =
      4 + (t.fixTemplatePrepare cfg).senderCompIdLen := by
    have two : digitCount Tag.senderCompId.toNat = 2 := by decide
    simp only [FixField.size, FixField.ofString, FieldValue.size, two, fixTemplatePrepare]
    omega
  have inside : t.buf.stop ≤ (t.fixTemplatePrepare cfg).markerConstEnd := by omega
  rw [FixTemplateCfg.size] at constEnd
  refine ⟨by omega, by omega, by omega, by omega, fun m marker => ?_, Nat.le_refl _, h.csum⟩
  rcases prepare_transact_time marker with before | here
  · exact (h.transactTime m before).trans inside
  · exact here

/-- The buffer of a template behind the fields that vary. -/
def varied (t : FixTemplate F) : Buffer := fixFieldsUnparse t.fields { t.buf with start := 0, stop := t.markerConstEnd }

/-- The buffer of a template with the numbers of the message stored in it. -/
def numbered (t : FixTemplate F) (session : Session F) : Buffer :=
  storeAt
    (storeAt
      (storeAt t.varied t.markerSenderCompId (memoryAt session.senderCompId t.senderCompIdLen))
      t.markerMsgSeqNum (modpLitoa10Zpad session.outMsgSeqNum templateMsgSeqNumZpad))
    t.markerBodyLength
    (modpLitoa10Zpad (.ofNat 64 t.varied.stop - .ofNat 64 (t.markerBodyLength + templateBodyLenZpad + 1))
      templateBodyLenZpad)

/-- The checksum of the message. -/
def sum (t : FixTemplate F) (session : Session F) : Nat :=
  ((bufferSumRange (t.numbered session).data t.markerBodyLength t.markerConstStart).toNat + t.constCsum.toNat +
    (bufferSumRange (t.numbered session).data t.markerConstEnd t.varied.stop).toNat) % 256

theorem unparse_buf (t : FixTemplate F) (session : Session F) : (t.fixTemplateUnparse session).buf =
    (t.numbered session).bufferPuts (.ofCheckSum t.csumField.tag (.ofNat 64 (t.sum session)) : FixField F).printed := by
  rw [← field_unparse_eq]
  rfl

theorem numbered_stop (t : FixTemplate F) (session : Session F) :
    (t.numbered session).stop = t.markerConstEnd + (t.fields.map FixField.size).sum := by
  show t.varied.stop = _
  rw [varied, fields_unparse_eq, puts_stop, length_printed_fields]

theorem numbered_size (t : FixTemplate F) (session : Session F) :
    (t.numbered session).data.length = t.buf.data.length := by
  rw [numbered, store_at_size, store_at_size, store_at_size, varied, fields_unparse_eq, puts_size]

/-- Behind the fields the memory is as it was. -/
theorem numbered_get {t : FixTemplate F} (h : t.Marked) (session : Session F) {i : Nat}
    (behind : t.markerConstEnd + (t.fields.map FixField.size).sum ≤ i) :
    (t.numbered session).data[i]? = t.buf.data[i]? := by
  have bodyLength := h.bodyLength
  have msgSeqNum := h.msgSeqNum
  have senderCompId := h.senderCompId
  have number := length_zpad session.outMsgSeqNum templateMsgSeqNumZpad
  have length := length_zpad (.ofNat 64 t.varied.stop - .ofNat 64 (t.markerBodyLength + templateBodyLenZpad + 1))
    templateBodyLenZpad
  have name := length_memory_at session.senderCompId t.senderCompIdLen
  simp only [templateMsgSeqNumZpad, templateBodyLenZpad] at number length
  rw [numbered, store_at_get _ (by simp only [templateBodyLenZpad]; omega),
    store_at_get _ (by simp only [templateMsgSeqNumZpad]; omega), store_at_get _ (by omega), varied, fields_unparse_eq,
    puts_get, if_neg (by rw [length_printed_fields]; simp only; omega)]

theorem sum_lt (t : FixTemplate F) (session : Session F) : t.sum session < 256 := Nat.mod_lt _ (by decide)

theorem Marked.unparse {t : FixTemplate F} (h : t.Marked) (session : Session F) :
    (t.fixTemplateUnparse session).Marked where
  bodyLength := h.bodyLength
  msgSeqNum := h.msgSeqNum
  senderCompId := h.senderCompId
  sendingTime := h.sendingTime
  transactTime := h.transactTime
  stop := by
    rw [unparse_buf, puts_stop, numbered_stop]
    show t.markerConstEnd ≤ _
    omega
  csum := h.csum

omit [Doubles F] in
theorem Marked.updateTime {t : FixTemplate F} (h : t.Marked) (strNow : List UInt8) :
    (t.fixTemplateUpdateTime strNow).Marked where
  bodyLength := h.bodyLength
  msgSeqNum := h.msgSeqNum
  senderCompId := h.senderCompId
  sendingTime := h.sendingTime
  transactTime := h.transactTime
  stop := by
    rw [fixTemplateUpdateTime]
    split <;> exact h.stop
  csum := h.csum

theorem prepare_size (t : FixTemplate F) (cfg : FixTemplateCfg F) :
    (t.fixTemplatePrepare cfg).buf.data.length = t.buf.data.length := by
  rw [prepare_buf, puts_size]

theorem unparse_size (t : FixTemplate F) (session : Session F) :
    (t.fixTemplateUnparse session).buf.data.length = t.buf.data.length := by
  rw [unparse_buf, puts_size, numbered_size]

omit [Doubles F] in
theorem update_time_size (t : FixTemplate F) (strNow : List UInt8) :
    (t.fixTemplateUpdateTime strNow).buf.data.length = t.buf.data.length := by
  rw [fixTemplateUpdateTime]
  split
  · exact store_at_size ..
  · exact (store_at_size ..).trans (store_at_size ..)

/-- A template, with memory above its array. -/
def above (t : FixTemplate F) (memory : List UInt8) : FixTemplate F := { t with buf := withMemory t.buf memory }

omit [Doubles F] in
theorem Marked.above {t : FixTemplate F} (h : t.Marked) (memory : List UInt8) : (t.above memory).Marked :=
  ⟨h.bodyLength, h.msgSeqNum, h.senderCompId, h.sendingTime, h.transactTime, h.stop, h.csum⟩

/-- Whatever lies behind the array, preparing the template leaves it. -/
def PreparesInside (t : FixTemplate F) (cfg : FixTemplateCfg F) : Prop :=
  ∀ memory, ((t.above memory).fixTemplatePrepare cfg).buf.data.drop t.buf.data.length = memory

/-- Whatever lies behind the array, printing a message leaves it. -/
def UnparsesInside (t : FixTemplate F) (session : Session F) : Prop :=
  ∀ memory, ((t.above memory).fixTemplateUnparse session).buf.data.drop t.buf.data.length = memory

/-- **Preparing a template.** -/
theorem prepares_inside_iff (t : FixTemplate F) (cfg : FixTemplateCfg F) :
    t.PreparesInside cfg ↔ t.buf.stop + cfg.size ≤ t.buf.data.length := by
  have below := puts_below t.buf (fun _ => cfg.length_text) (fun _ => cfg.text_ends)
  unfold PreparesInside
  simp only [prepare_buf]
  exact below.inside_iff

theorem length_sum {t : FixTemplate F} (h : t.Marked) (session : Session F) :
    (.ofCheckSum t.csumField.tag (.ofNat 64 (t.sum session)) : FixField F).printed.length = FixMessage.checkSumSize := by
  rw [length_printed, h.csum, check_sum_size (sum_lt t session)]

theorem unparse_below {t : FixTemplate F} (h : t.Marked) (session : Session F) :
    StoresBelow t.buf.data.length (fun memory => ((t.above memory).fixTemplateUnparse session).buf.data) t.sentSize where
  size memory := by
    rw [unparse_size]
    exact List.length_append
  beyond memory i past array := by
    have stop : ((t.above memory).numbered session).stop + FixMessage.checkSumSize = t.sentSize :=
      congrArg (· + FixMessage.checkSumSize) (numbered_stop (t.above memory) session)
    have behind : (t.above memory).markerConstEnd + ((t.above memory).fields.map FixField.size).sum ≤ i := by
      rw [← numbered_stop (t.above memory) session]
      omega
    rw [unparse_buf, puts_get, if_neg (by rw [length_sum (h.above memory)]; omega),
      numbered_get (h.above memory) session behind]
    exact List.getElem?_append_right array
  last memory room := by
    have stop : ((t.above memory).numbered session).stop + FixMessage.checkSumSize = t.sentSize :=
      congrArg (· + FixMessage.checkSumSize) (numbered_stop (t.above memory) session)
    have length := length_sum (h.above memory) session
    have size : ((t.above memory).numbered session).data.length = t.buf.data.length + memory.length :=
      (numbered_size ..).trans List.length_append
    have last := printed_ends (.ofCheckSum (t.above memory).csumField.tag (.ofNat 64 ((t.above memory).sum session)) :
      FixField F)
    rw [List.getLast?_eq_getElem?, length] at last
    rw [unparse_buf, puts_get, if_pos (by rw [length, size]; simp only [FixMessage.checkSumSize] at *; omega), ← last]
    congr 1
    simp only [FixMessage.checkSumSize] at *
    omega

/-- **Printing a message from a template.** -/
theorem unparses_inside_iff {t : FixTemplate F} (h : t.Marked) (session : Session F) :
    t.UnparsesInside session ↔ t.sentSize ≤ t.buf.data.length :=
  (unparse_below h session).inside_iff

end FixTemplate

/-- The templates that a run of calls, all of which fit the array, comes to: prepared, and prepared again, with
fields of the application, times and messages printed. -/
inductive TemplateReached : FixTemplate F → Prop
  | prepared (cfg : FixTemplateCfg F) (fits : cfg.size ≤ fixMaxTemplateBufferSize) :
    TemplateReached (fixTemplateNew.fixTemplatePrepare cfg)
  | again {t : FixTemplate F} (cfg : FixTemplateCfg F) (h : TemplateReached t)
    (fits : t.buf.stop + cfg.size ≤ fixMaxTemplateBufferSize) : TemplateReached (t.fixTemplatePrepare cfg)
  | loaded {t : FixTemplate F} (fields : List (FixField F)) (h : TemplateReached t) :
    TemplateReached { t with fields := fields }
  | timed {t : FixTemplate F} (strNow : List UInt8) (h : TemplateReached t) :
    TemplateReached (t.fixTemplateUpdateTime strNow)
  | sent {t : FixTemplate F} (session : Session F) (h : TemplateReached t)
    (fits : t.sentSize ≤ fixMaxTemplateBufferSize) :
    TemplateReached (t.fixTemplateUnparse session)

theorem TemplateReached.marked {t : FixTemplate F} (h : TemplateReached t) :
    t.Marked ∧ t.buf.data.length = fixMaxTemplateBufferSize := by
  induction h with
  | prepared cfg _ => exact ⟨FixTemplate.new_ready.prepare cfg, (FixTemplate.prepare_size ..).trans List.length_replicate⟩
  | again cfg _ _ ih => exact ⟨ih.1.ready.prepare cfg, (FixTemplate.prepare_size ..).trans ih.2⟩
  | loaded fields _ ih =>
    obtain ⟨marked, size⟩ := ih
    exact ⟨⟨marked.bodyLength, marked.msgSeqNum, marked.senderCompId, marked.sendingTime, marked.transactTime, marked.stop,
      marked.csum⟩, size⟩
  | timed strNow _ ih => exact ⟨ih.1.updateTime strNow, (FixTemplate.update_time_size ..).trans ih.2⟩
  | sent session _ _ ih => exact ⟨ih.1.unparse session, (FixTemplate.unparse_size ..).trans ih.2⟩

end Templates

/-! ## Both serialisers -/

/-- **Room to send.** A message is printed inside of the two buffers if and only if its head and its body with the
checksum fit them; a template is prepared, after any calls, inside of its array if and only if it fits behind what is
there; and a message is printed from it inside of the array if and only if the fields that vary fit behind it. -/
theorem serialises_inside_iff {F : Type u} [Doubles F] :
    (∀ {s : Session F}, s.Transmits → ∀ msg flags,
        s.SendsInside msg flags ↔ flags &&& preserveBuffer ≠ 0 ∨ (s.numbered msg flags).Fits) ∧
      (∀ cfg, (fixTemplateNew : FixTemplate F).PreparesInside cfg ↔ cfg.size ≤ fixMaxTemplateBufferSize) ∧
      (∀ {t : FixTemplate F}, TemplateReached t →
        (∀ cfg, t.PreparesInside cfg ↔ t.buf.stop + cfg.size ≤ fixMaxTemplateBufferSize) ∧
          ∀ session, t.UnparsesInside session ↔ t.sentSize ≤ fixMaxTemplateBufferSize) := by
  refine ⟨fun h msg flags => Session.sends_inside_iff h msg flags, fun cfg => ?_, fun {t} reached => ?_⟩
  · have size : (fixTemplateNew : FixTemplate F).buf.data.length = fixMaxTemplateBufferSize := List.length_replicate
    have inside := FixTemplate.prepares_inside_iff fixTemplateNew cfg
    rw [size, show (fixTemplateNew : FixTemplate F).buf.stop = 0 from rfl, Nat.zero_add] at inside
    exact inside
  · obtain ⟨marked, size⟩ := reached.marked
    exact ⟨fun cfg => size ▸ FixTemplate.prepares_inside_iff t cfg,
      fun session => size ▸ FixTemplate.unparses_inside_iff marked session⟩

/-! ## One session -/

/-- A session of FIX 4.4, and the time it sends at. -/
def smallSession : Session (List UInt8) :=
  fixSessionNew ⟨cstr (chars "BUY"), cstr (chars "SELL"), ⟨.fix44, fixTagType⟩, 0, 1⟩
    (cstr (chars "20240101-00:00:00.000"))

/-- A template of orders. -/
def orderCfg : FixTemplateCfg (List UInt8) :=
  ⟨cstr (chars "FIX.4.4"), .newOrderSingle, cstr (chars "BUY"), cstr (chars "SELL"), true,
    [.ofString Tag.symbol (cstr (chars "AAPL"))]⟩

/-- A heartbeat and an order fit. -/
theorem order_sent_inside :
    smallSession.SendsInside (.init .heartbeat []) 0 ∧
      ({ (fixTemplateNew : FixTemplate (List UInt8)).fixTemplatePrepare orderCfg with
        fields := [.ofInt Tag.orderQty 100] }).UnparsesInside smallSession := by
  refine ⟨(serialises_inside_iff.1 (Session.new_transmits ..) _ _).2 (.inr ⟨by decide +kernel, by decide +kernel⟩), ?_⟩
  have reached : TemplateReached { (fixTemplateNew : FixTemplate (List UInt8)).fixTemplatePrepare orderCfg with
      fields := [.ofInt Tag.orderQty 100] } :=
    .loaded _ (.prepared orderCfg (by decide +kernel))
  exact ((serialises_inside_iff.2.2 reached).2 smallSession).2 (by decide +kernel)

/-- A field whose text alone is as long as a body buffer. -/
def longText : FixField (List UInt8) := .ofString Tag.text (cstr (List.replicate 1024 0x41))

/-- **Behind the buffers.** A message with a text of 1024 characters is printed past the end of the body buffer, and
past the end of the array of a template, by `fix_template_prepare` and by `fix_template_unparse`. -/
theorem long_text_outside :
    ¬smallSession.SendsInside (.init .newOrderSingle [longText]) 0 ∧
      ¬(fixTemplateNew : FixTemplate (List UInt8)).PreparesInside { orderCfg with constFields := [longText] } ∧
      ¬({ (fixTemplateNew : FixTemplate (List UInt8)).fixTemplatePrepare orderCfg with
        fields := [longText] }).UnparsesInside smallSession := by
  refine ⟨fun inside => ?_, fun inside => ?_, fun inside => ?_⟩
  · rcases (Session.sends_inside_iff (Session.new_transmits ..) _ _).1 inside with preserved | fits
    · exact preserved rfl
    · exact absurd fits.2 (by decide +kernel)
  · exact absurd ((FixTemplate.prepares_inside_iff ..).1 inside) (by decide +kernel)
  · have marked : ({ (fixTemplateNew : FixTemplate (List UInt8)).fixTemplatePrepare orderCfg with
        fields := [longText] }).Marked :=
      (TemplateReached.loaded [longText] (.prepared orderCfg (by decide +kernel))).marked.1
    exact absurd ((FixTemplate.unparses_inside_iff marked _).1 inside) (by decide +kernel)

end Libtrading.Fix
