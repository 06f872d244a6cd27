import Libtrading.Fix.OnWire

/-!
# The places of a template

The text of a template has places of fixed widths for the numbers, the name of the session and the times. Each
call fills them again, and as long as what is filled in has the width of its place, the rest of the text stays
what it was, and nothing of an earlier message is left.
-/

namespace Libtrading.Fix
open Buffer Wire Bytes
set_option autoImplicit false
universe u

/-! ## Places in a text -/

/-- A place in a text is filled with bytes of its width. -/
theorem store_at_place {b : Buffer} {i : Nat} {a s c w : List UInt8} (data : b.data = a ++ (s ++ c))
    (here : i = a.length)
    (width : w.length = s.length) : (storeAt b i w).data = a ++ (w ++ c) := by
  have room : i + w.length ≤ b.data.length := by
    rw [data, List.length_append, List.length_append]
    omega
  have stored : (storeAt b i w).data = b.data.take i ++ (w ++ b.data.drop (i + w.length)) :=
    puts_data (b := { b with stop := i }) room
  rw [stored, data, here, List.take_left, ← List.drop_drop, List.drop_left, width, List.drop_left]

/-- What is put behind a text is behind it. -/
theorem puts_behind {b : Buffer} {a c w : List UInt8} (data : b.data = a ++ c) (stop : b.stop = a.length)
    (room : w.length ≤ c.length) : (b.bufferPuts w).data = a ++ (w ++ c.drop w.length) := by
  rw [puts_data (by rw [data, List.length_append]; omega), data, stop, List.take_left, ← List.drop_drop, List.drop_left]

/-! ## Numbers -/

/-- A number of at most six characters, its sign one of them. -/
def SixCharacters (n : BitVec 64) : Prop := -99999 ≤ n.toInt ∧ n.toInt ≤ 999999

instance (n : BitVec 64) : Decidable (SixCharacters n) := inferInstanceAs (Decidable (_ ∧ _))

theorem length_zpad_eq (n : BitVec 64) (zpad : Nat) :
    (modpLitoa10Zpad n zpad).length = max zpad (sprintf64 n).length := by
  have length := congrArg List.length (sprintf64_eq n)
  rw [List.length_append] at length
  rw [modp_litoa10_zpad_eq, List.length_append, List.length_append, List.length_replicate]
  omega

theorem six_characters_iff {n : BitVec 64} : (sprintf64 n).length ≤ 6 ↔ SixCharacters n := by
  have unsigned := @length_decimal_le n.toInt.natAbs 6 (by decide)
  have signed := @length_decimal_le n.toInt.natAbs 5 (by decide)
  rw [length_decimal] at unsigned signed
  rw [length_sprintf64, SixCharacters]
  split <;> omega

/-! ## The text of a template -/

/-- What the places of a template hold. -/
structure Places where
  bodyLength : List UInt8
  msgSeqNum : List UInt8
  senderCompId : List UInt8
  sendingTime : List UInt8
  transactTime : List UInt8

section
variable {F : Type u} [Doubles F]

namespace FixTemplateCfg

/-- The text up to the place of the BodyLength. -/
def toBodyLength (cfg : FixTemplateCfg F) : List UInt8 := fieldText (chars "8") (cchars cfg.beginString) ++ chars "9="

/-- The text from there to the place of the MsgSeqNum. -/
def toMsgSeqNum (cfg : FixTemplateCfg F) : List UInt8 :=
  1 :: (fieldText (chars "35") (cchars (cstr (fixMsgTypes cfg.msgType))) ++ chars "34=")

/-- The text between the place of the SendingTime and that of the TransactTime, which may be missing. -/
def toTransactTime (cfg : FixTemplateCfg F) : List UInt8 :=
  1 :: (fieldText (chars "56") (cchars cfg.targetCompId) ++ if cfg.manageTransactTime then chars "60=" else [])

/-- The text behind the BodyLength tag and in front of the constant fields. -/
def middle (cfg : FixTemplateCfg F) (s : Places) : List UInt8 :=
  s.bodyLength ++ (cfg.toMsgSeqNum ++ (s.msgSeqNum ++ (1 :: chars "49=" ++ (s.senderCompId ++ (1 :: chars "52=" ++
    (s.sendingTime ++ (cfg.toTransactTime ++ (s.transactTime ++ if cfg.manageTransactTime then [1] else []))))))))

/-- The text of the constant fields. -/
def constText (cfg : FixTemplateCfg F) : List UInt8 := cfg.constFields.flatMap FixField.printed

/-- The text of a template. -/
def filled (cfg : FixTemplateCfg F) (s : Places) : List UInt8 := cfg.toBodyLength ++ (cfg.middle s ++ cfg.constText)

end FixTemplateCfg

/-- What is in the places has their widths. -/
structure Places.Fill (cfg : FixTemplateCfg F) (s : Places) : Prop where
  bodyLength : s.bodyLength.length = templateBodyLenZpad
  msgSeqNum : s.msgSeqNum.length = templateMsgSeqNumZpad
  senderCompId : s.senderCompId.length = (cchars cfg.senderCompId).length
  sendingTime : s.sendingTime.length = 21
  transactTime : s.transactTime = if cfg.manageTransactTime then s.sendingTime else []

/-- The number of bytes behind the BodyLength tag and in front of the constant fields. -/
def FixTemplateCfg.middleSize (cfg : FixTemplateCfg F) : Nat :=
  39 + cfg.toMsgSeqNum.length + (cchars cfg.senderCompId).length + cfg.toTransactTime.length +
    if cfg.manageTransactTime then 22 else 0

/-- A template knows where its places are, and the sum of what does not change. -/
structure FixTemplate.Marks (t : FixTemplate F) (cfg : FixTemplateCfg F) : Prop where
  markerBodyLength : t.markerBodyLength = cfg.toBodyLength.length
  markerMsgSeqNum : t.markerMsgSeqNum = t.markerBodyLength + 4 + cfg.toMsgSeqNum.length
  markerSenderCompId : t.markerSenderCompId = t.markerMsgSeqNum + 10
  markerSendingTime : t.markerSendingTime = t.markerSenderCompId + t.senderCompIdLen + 4
  markerTransactTime : t.markerTransactTime =
    if cfg.manageTransactTime then some (t.markerSendingTime + 21 + cfg.toTransactTime.length) else none
  markerConstStart : t.markerConstStart = t.markerBodyLength + cfg.middleSize
  markerConstEnd : t.markerConstEnd = t.markerConstStart + cfg.constText.length
  senderCompIdLen : t.senderCompIdLen = (cchars cfg.senderCompId).length
  constCsum : t.constCsum = cfg.constText.sum + cfg.toBodyLength.sum
  csum : t.csumField.tag = Tag.checkSum

/-- A template holds a text with its places filled. -/
structure FixTemplate.Holds (t : FixTemplate F) (cfg : FixTemplateCfg F) (s : Places) : Prop where
  marks : t.Marks cfg
  fill : s.Fill cfg
  size : t.buf.data.length = fixMaxTemplateBufferSize
  text : ∃ rest, t.buf.data = cfg.filled s ++ rest

/-! ## Filling the places -/

section Filling
variable {t : FixTemplate F} {cfg : FixTemplateCfg F} {s : Places} {b : Buffer} {rest w : List UInt8}

/-- The text behind the place of the TransactTime. -/
def FixTemplateCfg.ending (cfg : FixTemplateCfg F) (rest : List UInt8) : List UInt8 :=
  (if cfg.manageTransactTime then [1] else []) ++ (cfg.constText ++ rest)

theorem filled_eq (cfg : FixTemplateCfg F) (s : Places) (rest : List UInt8) : cfg.filled s ++ rest =
    cfg.toBodyLength ++ (s.bodyLength ++ (cfg.toMsgSeqNum ++ (s.msgSeqNum ++ (1 :: chars "49=" ++ (s.senderCompId ++
      (1 :: chars "52=" ++ (s.sendingTime ++ (cfg.toTransactTime ++ (s.transactTime ++ cfg.ending rest))))))))) := by
  simp only [FixTemplateCfg.filled, FixTemplateCfg.middle, FixTemplateCfg.ending, List.append_assoc]

theorem fill_body_length (h : t.Marks cfg) (fill : s.Fill cfg) (data : b.data = cfg.filled s ++ rest)
    (width : w.length = templateBodyLenZpad) :
    (storeAt b t.markerBodyLength w).data = cfg.filled { s with bodyLength := w } ++ rest := by
  rw [filled_eq] at data ⊢
  exact store_at_place data h.markerBodyLength (width.trans fill.bodyLength.symm)

theorem fill_msg_seq_num (h : t.Marks cfg) (fill : s.Fill cfg) (data : b.data = cfg.filled s ++ rest)
    (width : w.length = templateMsgSeqNumZpad) :
    (storeAt b t.markerMsgSeqNum w).data = cfg.filled { s with msgSeqNum := w } ++ rest := by
  have bodyLength : s.bodyLength.length = 4 := fill.bodyLength
  have here : t.markerMsgSeqNum = (cfg.toBodyLength ++ (s.bodyLength ++ cfg.toMsgSeqNum)).length := by
    rw [h.markerMsgSeqNum, h.markerBodyLength, List.length_append, List.length_append]
    omega
  rw [filled_eq] at data ⊢
  have stored := store_at_place (b := b) (a := cfg.toBodyLength ++ (s.bodyLength ++ cfg.toMsgSeqNum)) (s := s.msgSeqNum)
    (by simpa only [List.append_assoc] using data) here (width.trans fill.msgSeqNum.symm)
  simpa only [List.append_assoc] using stored

theorem fill_sender_comp_id (h : t.Marks cfg) (fill : s.Fill cfg) (data : b.data = cfg.filled s ++ rest)
    (width : w.length = t.senderCompIdLen) :
    (storeAt b t.markerSenderCompId w).data = cfg.filled { s with senderCompId := w } ++ rest := by
  have bodyLength : s.bodyLength.length = 4 := fill.bodyLength
  have msgSeqNum : s.msgSeqNum.length = 6 := fill.msgSeqNum
  have tag : (1 :: chars "49=").length = 4 := by decide
  have here : t.markerSenderCompId =
      (cfg.toBodyLength ++ (s.bodyLength ++ (cfg.toMsgSeqNum ++ (s.msgSeqNum ++ 1 :: chars "49=")))).length := by
    rw [h.markerSenderCompId, h.markerMsgSeqNum, h.markerBodyLength]
    simp only [List.length_append, tag, bodyLength, msgSeqNum]
    omega
  rw [filled_eq] at data ⊢
  have stored := store_at_place (b := b) (s := s.senderCompId)
    (a := cfg.toBodyLength ++ (s.bodyLength ++ (cfg.toMsgSeqNum ++ (s.msgSeqNum ++ 1 :: chars "49="))))
    (by simpa only [List.append_assoc] using data) here (width.trans (h.senderCompIdLen.trans fill.senderCompId.symm))
  simpa only [List.append_assoc] using stored

/-- The text in front of the place of the SendingTime. -/
def FixTemplateCfg.beforeSendingTime (cfg : FixTemplateCfg F) (s : Places) : List UInt8 :=
  cfg.toBodyLength ++ (s.bodyLength ++ (cfg.toMsgSeqNum ++ (s.msgSeqNum ++ (1 :: chars "49=" ++ (s.senderCompId ++
    1 :: chars "52=")))))

theorem sending_time_place (h : t.Marks cfg) (fill : s.Fill cfg) :
    t.markerSendingTime = (cfg.beforeSendingTime s).length := by
  have bodyLength : s.bodyLength.length = 4 := fill.bodyLength
  have msgSeqNum : s.msgSeqNum.length = 6 := fill.msgSeqNum
  have senderCompId : s.senderCompId.length = t.senderCompIdLen := fill.senderCompId.trans h.senderCompIdLen.symm
  have sender : (1 :: chars "49=").length = 4 := by decide
  have time : (1 :: chars "52=").length = 4 := by decide
  rw [h.markerSendingTime, h.markerSenderCompId, h.markerMsgSeqNum, h.markerBodyLength]
  simp only [FixTemplateCfg.beforeSendingTime, List.length_append, sender, time, bodyLength, msgSeqNum, senderCompId]
  omega

theorem fill_sending_time (h : t.Marks cfg) (fill : s.Fill cfg) (data : b.data = cfg.filled s ++ rest)
    (width : w.length = 21) :
    (storeAt b t.markerSendingTime w).data = cfg.filled { s with sendingTime := w } ++ rest := by
  rw [filled_eq] at data ⊢
  have stored := store_at_place (b := b) (s := s.sendingTime) (a := cfg.beforeSendingTime s)
    (by simpa only [FixTemplateCfg.beforeSendingTime, List.append_assoc] using data) (sending_time_place h fill)
    (width.trans fill.sendingTime.symm)
  simpa only [FixTemplateCfg.beforeSendingTime, List.append_assoc] using stored

theorem fill_transact_time (h : t.Marks cfg) (fill : s.Fill cfg) {m : Nat} (marker : t.markerTransactTime = some m)
    {v : List UInt8}
    (time : v.length = 21) (data : b.data = cfg.filled { s with sendingTime := v } ++ rest) (width : w.length = 21) :
    (storeAt b m w).data = cfg.filled { s with sendingTime := v, transactTime := w } ++ rest := by
  have managed : cfg.manageTransactTime = true := by
    have here := h.markerTransactTime
    rw [marker] at here
    by_contra unmanaged
    rw [if_neg unmanaged] at here
    cases here
  have here : m = (cfg.beforeSendingTime s ++ (v ++ cfg.toTransactTime)).length := by
    have place := h.markerTransactTime
    rw [marker, if_pos managed, Option.some.injEq, sending_time_place h fill] at place
    rw [place, List.length_append, List.length_append, time, Nat.add_assoc]
  have before : s.transactTime.length = 21 := by
    rw [fill.transactTime, if_pos managed, fill.sendingTime]
  rw [filled_eq] at data ⊢
  have stored := store_at_place (b := b) (s := s.transactTime)
      (a := cfg.beforeSendingTime s ++ (v ++ cfg.toTransactTime))
    (by simpa only [FixTemplateCfg.beforeSendingTime, List.append_assoc] using data) here (width.trans before.symm)
  simpa only [FixTemplateCfg.beforeSendingTime, List.append_assoc] using stored

end Filling

/-! ## What the calls keep -/

theorem cchars_take (p : List UInt8) : p.take (cchars p).length = cchars p := by
  obtain ⟨rest, split⟩ := List.takeWhile_prefix (p := (· ≠ (0 : UInt8))) (l := p)
  rw [show p.take (cchars p).length = (cchars p ++ rest).take (cchars p).length from congrArg (List.take _) split.symm,
    List.take_left]

/-- `memcpy` of as many bytes as a C string has. -/
theorem memory_at_chars {p : List UInt8} {n : Nat} (h : (cchars p).length = n) : memoryAt p n = cchars p := by
  have short : (cchars p).length ≤ p.length := (List.takeWhile_prefix _).length_le
  rw [memoryAt, ← h, cchars_take, Nat.sub_eq_zero_of_le short, List.replicate_zero, List.append_nil]

omit [Doubles F] in
/-- All texts of a template have their places at the same indices. -/
theorem length_middle {cfg : FixTemplateCfg F} {s : Places} (h : s.Fill cfg) :
    (cfg.middle s).length = cfg.middleSize := by
  have bodyLength : s.bodyLength.length = 4 := h.bodyLength
  have msgSeqNum : s.msgSeqNum.length = 6 := h.msgSeqNum
  have sender : (1 :: chars "49=").length = 4 := by decide
  have time : (1 :: chars "52=").length = 4 := by decide
  have transactTime := h.transactTime
  simp only [FixTemplateCfg.middle, FixTemplateCfg.middleSize, List.length_append, sender, time, bodyLength, msgSeqNum,
    h.senderCompId, h.sendingTime, transactTime]
  split
  · rw [h.sendingTime, List.length_singleton]
    omega
  · simp only [List.length_nil]
    omega

theorem length_filled {t : FixTemplate F} {cfg : FixTemplateCfg F} {s : Places} (h : t.Marks cfg) (fill : s.Fill cfg) :
    (cfg.filled s).length = t.markerConstEnd := by
  rw [h.markerConstEnd, h.markerConstStart, h.markerBodyLength, FixTemplateCfg.filled, List.length_append,
    List.length_append, length_middle fill, Nat.add_assoc]

namespace FixTemplate

variable {t : FixTemplate F} {cfg : FixTemplateCfg F} {s : Places}

/-- A time of 21 characters is put into its places. -/
theorem Holds.updateTime (h : t.Holds cfg s) {strNow : List UInt8} (time : (cchars strNow).length = 21) :
    (t.fixTemplateUpdateTime strNow).Holds cfg { s with
      sendingTime := cchars strNow, transactTime := if cfg.manageTransactTime then cchars strNow else [] } := by
  have width : timePlaceholder.length = 21 := by decide
  have copied : memoryAt strNow timePlaceholder.length = cchars strNow := memory_at_chars (time.trans width.symm)
  obtain ⟨rest, text⟩ := h.text
  have sent := fill_sending_time h.marks h.fill text time
  refine ⟨{ h.marks with }, ⟨h.fill.bodyLength, h.fill.msgSeqNum, h.fill.senderCompId, time, rfl⟩,
    (update_time_size t strNow).trans h.size, rest, ?_⟩
  have marker := h.marks.markerTransactTime
  simp only [fixTemplateUpdateTime, copied]
  cases managed : cfg.manageTransactTime with
  | false =>
    rw [managed, if_neg Bool.false_ne_true] at marker
    have none : s.transactTime = [] := by rw [h.fill.transactTime, managed, if_neg Bool.false_ne_true]
    rw [marker, if_neg Bool.false_ne_true, ← none]
    exact sent
  | true =>
    rw [managed, if_pos rfl] at marker
    rw [marker, if_pos rfl]
    exact fill_transact_time h.marks h.fill marker time sent time

/-- Other fields that vary change nothing in front of them. -/
theorem Holds.load (h : t.Holds cfg s) (fields : List (FixField F)) :
    ({ t with fields := fields } : FixTemplate F).Holds cfg s :=
  ⟨{ h.marks with }, h.fill, h.size, h.text⟩

/-- The text of the fields that vary. -/
def variedText (t : FixTemplate F) : List UInt8 := t.fields.flatMap FixField.printed

/-- The BodyLength of a message from the template. -/
def bodyLength (t : FixTemplate F) : Nat := t.markerConstEnd + t.variedText.length - (t.markerBodyLength + 5)

/-- The places of a message from the template. -/
def sentPlaces (t : FixTemplate F) (s : Places) (session : Session F) : Places :=
  { s with
    bodyLength := padded templateBodyLenZpad t.bodyLength
    msgSeqNum := modpLitoa10Zpad session.outMsgSeqNum templateMsgSeqNumZpad
    senderCompId := cchars session.senderCompId }

/-- A session that the template can send for: its name has the length there is room for, its number at most six
characters, and the message fits. -/
structure Takes (t : FixTemplate F) (session : Session F) : Prop where
  name : (cchars session.senderCompId).length = t.senderCompIdLen
  number : SixCharacters session.outMsgSeqNum
  fits : t.sentSize ≤ fixMaxTemplateBufferSize

theorem sent_fill (h : t.Holds cfg s) {session : Session F} (takes : t.Takes session) :
    (t.sentPlaces s session).Fill cfg where
  bodyLength := by
    refine length_padded ((length_decimal_le (by decide)).2 ?_)
    have fits := takes.fits
    rw [sentSize, ← length_printed_fields] at fits
    rw [bodyLength, variedText]
    simp only [fixMaxTemplateBufferSize, FixMessage.checkSumSize, templateBodyLenZpad] at *
    omega
  msgSeqNum := (length_zpad_eq ..).trans (Nat.max_eq_left (six_characters_iff.2 takes.number))
  senderCompId := takes.name.trans h.marks.senderCompIdLen
  sendingTime := h.fill.sendingTime
  transactTime := h.fill.transactTime

/-- A number that is not negative is printed with zeros in front. -/
theorem number_padded {n : Nat} (small : n < 2 ^ 63) (width : Nat) :
    modpLitoa10Zpad (.ofNat 64 n) width = padded width n := by
  have value : (BitVec.ofNat 64 n).toNat = n := by
    rw [BitVec.toNat_ofNat]
    omega
  have sign : (BitVec.ofNat 64 n).msb = false := by
    rw [BitVec.msb_eq_decide, value, decide_eq_false_iff_not]
    omega
  rw [modp_litoa10_zpad_padded _ _ sign, value]

theorem Takes.room {session : Session F} (takes : t.Takes session) :
    t.markerConstEnd + t.variedText.length + 7 ≤ 1024 := by
  have fits := takes.fits
  rwa [sentSize, ← length_printed_fields] at fits

theorem length_before (h : t.Marks cfg) : t.markerBodyLength + 5 ≤ t.markerConstEnd := by
  have start := h.markerConstStart
  have ends := h.markerConstEnd
  rw [FixTemplateCfg.middleSize] at start
  omega

/-- The BodyLength is counted from behind its own field. -/
theorem sent_body_length (h : t.Marks cfg) {session : Session F} (takes : t.Takes session) :
    modpLitoa10Zpad (.ofNat 64 t.varied.stop - .ofNat 64 (t.markerBodyLength + templateBodyLenZpad + 1))
      templateBodyLenZpad = padded templateBodyLenZpad t.bodyLength := by
  have room := takes.room
  have before := length_before h
  have stop : t.varied.stop = t.markerConstEnd + t.variedText.length := by
    rw [varied, fields_unparse_eq, puts_stop, variedText]
  have distance : BitVec.ofNat 64 t.varied.stop - BitVec.ofNat 64 (t.markerBodyLength + templateBodyLenZpad + 1) =
      .ofNat 64 t.bodyLength := by
    rw [stop]
    exact BitVec.ofNat_sub_ofNat_of_le _ _ (show t.markerBodyLength + 5 < 2 ^ 64 by omega)
      (show t.markerBodyLength + 5 ≤ t.markerConstEnd + t.variedText.length by omega)
  rw [distance]
  exact number_padded (by rw [bodyLength]; omega) _

/-- The fields that vary stand behind the text of the template. -/
theorem varied_text (h : t.Holds cfg s) {session : Session F} (takes : t.Takes session) :
    ∃ rest, t.varied.data = cfg.filled s ++ (t.variedText ++ rest) ∧ FixMessage.checkSumSize ≤ rest.length := by
  obtain ⟨rest, text⟩ := h.text
  have length := length_filled h.marks h.fill
  have room := takes.room
  have size := h.size
  rw [text, List.length_append, length, fixMaxTemplateBufferSize] at size
  refine ⟨rest.drop t.variedText.length, ?_, by rw [List.length_drop, FixMessage.checkSumSize]; omega⟩
  rw [varied, fields_unparse_eq]
  exact puts_behind text length.symm (show t.variedText.length ≤ rest.length by omega)

/-- The numbers and the name are put into their places. -/
theorem numbered_text (h : t.Holds cfg s) {session : Session F} (takes : t.Takes session) :
    ∃ rest, (t.numbered session).data = cfg.filled (t.sentPlaces s session) ++ (t.variedText ++ rest) ∧
      FixMessage.checkSumSize ≤ rest.length := by
  obtain ⟨rest, varied, room⟩ := varied_text h takes
  have fill := sent_fill h takes
  have named : Places.Fill cfg { s with senderCompId := cchars session.senderCompId } :=
    ⟨h.fill.bodyLength, h.fill.msgSeqNum, fill.senderCompId, h.fill.sendingTime, h.fill.transactTime⟩
  have counted : Places.Fill cfg { s with
      senderCompId := cchars session.senderCompId, msgSeqNum := (t.sentPlaces s session).msgSeqNum } :=
    ⟨h.fill.bodyLength, fill.msgSeqNum, fill.senderCompId, h.fill.sendingTime, h.fill.transactTime⟩
  have first := fill_sender_comp_id h.marks h.fill varied takes.name
  have second := fill_msg_seq_num h.marks named first fill.msgSeqNum
  have third := fill_body_length h.marks counted second fill.bodyLength
  refine ⟨rest, ?_, room⟩
  rw [numbered, memory_at_chars takes.name, sent_body_length h.marks takes]
  exact third

/-- A sum over a part of a text. -/
theorem sum_range {d a m c : List UInt8} {i j : Nat} (text : d = a ++ (m ++ c)) (start : i = a.length)
    (stop : j = a.length + m.length) : bufferSumRange d i j = m.sum := by
  rw [bufferSumRange, text, start, stop, ← List.append_assoc, ← List.length_append, List.take_left, List.drop_left]

theorem sum_of_three (a b c : UInt8) : (a.toNat + b.toNat + c.toNat) % 256 = (a + b + c).toNat := by
  rw [UInt8.toNat_add, UInt8.toNat_add]
  omega

/-- Every byte in front of the checksum is counted once. -/
theorem sum_eq (h : t.Holds cfg s) {session : Session F} (takes : t.Takes session) :
    t.sum session = (cfg.filled (t.sentPlaces s session) ++ t.variedText).sum.toNat := by
  obtain ⟨rest, text, -⟩ := numbered_text h takes
  have fill := sent_fill h takes
  have length := length_filled h.marks fill
  have middle : bufferSumRange (t.numbered session).data t.markerBodyLength t.markerConstStart =
      (cfg.middle (t.sentPlaces s session)).sum := by
    refine sum_range (c := cfg.constText ++ (t.variedText ++ rest)) ?_ h.marks.markerBodyLength ?_
    · rw [text, FixTemplateCfg.filled, List.append_assoc, List.append_assoc]
    · rw [h.marks.markerConstStart, h.marks.markerBodyLength, length_middle fill]
  have varied : bufferSumRange (t.numbered session).data t.markerConstEnd t.varied.stop = t.variedText.sum := by
    refine sum_range text length.symm ?_
    rw [length, FixTemplate.varied, fields_unparse_eq, puts_stop, variedText]
  have whole : (cfg.middle (t.sentPlaces s session)).sum + (cfg.constText.sum + cfg.toBodyLength.sum) +
      t.variedText.sum =
      (cfg.filled (t.sentPlaces s session) ++ t.variedText).sum := by
    rw [FixTemplateCfg.filled, List.sum_append, List.sum_append, List.sum_append]
    ac_rfl
  rw [← whole, sum, middle, varied, h.marks.constCsum, sum_of_three]

/-- The text of a message from the template. -/
def sentText (t : FixTemplate F) (cfg : FixTemplateCfg F) (s : Places) (session : Session F) : List UInt8 :=
  cfg.filled (t.sentPlaces s session) ++ t.variedText

/-- The checksum stands behind the text that it sums. -/
theorem unparse_text (h : t.Holds cfg s) {session : Session F} (takes : t.Takes session) :
    ∃ rest, (t.fixTemplateUnparse session).buf.data =
        t.sentText cfg s session ++ (fieldText (chars "10") (padded 3 (t.sentText cfg s session).sum.toNat) ++ rest) ∧
      (t.fixTemplateUnparse session).buf.stop = (t.sentText cfg s session).length + FixMessage.checkSumSize := by
  obtain ⟨rest, text, room⟩ := numbered_text h takes
  have length := length_filled h.marks (sent_fill h takes)
  have stop : (t.numbered session).stop = (t.sentText cfg s session).length := by
    rw [numbered_stop, sentText, List.length_append, length, variedText, length_printed_fields]
  have sum : (.ofCheckSum t.csumField.tag (.ofNat 64 (t.sum session)) : FixField F).printed =
      fieldText (chars "10") (padded 3 (t.sentText cfg s session).sum.toNat) := by
    rw [h.marks.csum, check_sum_text (sum_lt t session), sum_eq h takes]
    rfl
  have size : (.ofCheckSum t.csumField.tag (.ofNat 64 (t.sum session)) : FixField F).printed.length =
      FixMessage.checkSumSize := by
    rw [length_printed, h.marks.csum, check_sum_size (sum_lt t session)]
  refine ⟨rest.drop FixMessage.checkSumSize, ?_, ?_⟩
  · rw [unparse_buf, puts_behind (a := t.sentText cfg s session) (by rw [text, sentText, List.append_assoc]) stop
      (by rw [size]; exact room), size, sum]
  · rw [unparse_buf, puts_stop, stop, size]

/-- A message leaves the text of the template with its own numbers and name in it. -/
theorem Holds.unparse (h : t.Holds cfg s) {session : Session F} (takes : t.Takes session) :
    (t.fixTemplateUnparse session).Holds cfg (t.sentPlaces s session) := by
  obtain ⟨rest, text, -⟩ := unparse_text h takes
  refine ⟨{ h.marks with }, sent_fill h takes, (unparse_size t session).trans h.size,
    t.variedText ++ (fieldText (chars "10") (padded 3 (t.sentText cfg s session).sum.toNat) ++ rest), ?_⟩
  rw [text, sentText, List.append_assoc]

/-- The tags of the header, as they are printed. -/
theorem header_tags : uitoa Tag.beginString = chars "8" ∧ uitoa Tag.msgType = chars "35" ∧
    uitoa Tag.msgSeqNum = chars "34" ∧ uitoa Tag.senderCompId = chars "49" ∧ uitoa Tag.sendingTime = chars "52" ∧
    uitoa Tag.targetCompId = chars "56" ∧ uitoa Tag.transactTime = chars "60" := by decide

theorem tag_texts : chars "9=" = chars "9" ++ ['='.toNat.toUInt8] ∧ chars "34=" = chars "34" ++ ['='.toNat.toUInt8] ∧
    chars "49=" = chars "49" ++ ['='.toNat.toUInt8] ∧ chars "52=" = chars "52" ++ ['='.toNat.toUInt8] := by decide

/-- The field of the TransactTime, or none. -/
theorem transact_time_text (managed : Bool) (time : List UInt8) : (if managed then fieldText (chars "60") time else []) =
    (if managed then chars "60=" else []) ++ ((if managed then time else []) ++ if managed then [1] else []) := by
  have tag : chars "60=" = chars "60" ++ ['='.toNat.toUInt8] := by decide
  cases managed with
  | true =>
    simp only [if_true, tag, fieldText, List.append_assoc]
    rfl
  | false => rfl

/-- The places of a template that was prepared. -/
def preparedPlaces (cfg : FixTemplateCfg F) : Places where
  bodyLength := chars "0000"
  msgSeqNum := chars "000000"
  senderCompId := cchars cfg.senderCompId
  sendingTime := timePlaceholder
  transactTime := if cfg.manageTransactTime then timePlaceholder else []

theorem prepared_text (cfg : FixTemplateCfg F) : cfg.text = cfg.filled (preparedPlaces cfg) := by
  obtain ⟨eight, type, number, name, sent, target, transact⟩ := header_tags
  obtain ⟨nineTag, numberTag, nameTag, sentTag⟩ := tag_texts
  have lengthZero : (.ofInt Tag.bodyLength 0 : FixField F).padded templateBodyLenZpad =
      fieldText (chars "9") (chars "0000") :=
    rfl
  have numberZero : (.ofInt Tag.msgSeqNum 0 : FixField F).padded templateMsgSeqNumZpad =
      fieldText (uitoa Tag.msgSeqNum) (chars "000000") := rfl
  have string : ∀ (tag : Tag) (v : List UInt8),
      (.ofString tag v : FixField F).printed = fieldText (uitoa tag) (cchars v) :=
    fun _ _ => rfl
  have time : cchars timePlaceholder = timePlaceholder := by decide
  have times := transact_time_text cfg.manageTransactTime timePlaceholder
  rw [FixTemplateCfg.text]
  simp only [lengthZero, numberZero, string, eight, type, number, name, sent, target, transact, time, times]
  simp only [preparedPlaces, FixTemplateCfg.filled, FixTemplateCfg.middle, FixTemplateCfg.toBodyLength,
    FixTemplateCfg.toMsgSeqNum, FixTemplateCfg.toTransactTime, FixTemplateCfg.constText, nineTag, numberTag, nameTag,
    sentTag, fieldText, List.append_assoc, List.cons_append, List.nil_append]

/-- Where the constant fields and the TransactTime are, and what is summed. -/
theorem prepare_rest (t : FixTemplate F) (cfg : FixTemplateCfg F) :
    (t.fixTemplatePrepare cfg).markerConstEnd = (t.fixTemplatePrepare cfg).markerConstStart + cfg.constText.length ∧
      (t.fixTemplatePrepare cfg).markerTransactTime = (if cfg.manageTransactTime then
        some ((t.fixTemplatePrepare cfg).markerSendingTime + 25 +
          (.ofString Tag.targetCompId cfg.targetCompId : FixField F).size) else t.markerTransactTime) ∧
      (t.fixTemplatePrepare cfg).constCsum =
        bufferSumRange (t.fixTemplatePrepare cfg).buf.data (t.fixTemplatePrepare cfg).markerConstStart
            (t.fixTemplatePrepare cfg).markerConstEnd +
          bufferSumRange (t.fixTemplatePrepare cfg).buf.data 0 (t.fixTemplatePrepare cfg).markerBodyLength := by
  refine ⟨?_, ?_, rfl⟩
  · simp only [fixTemplatePrepare, fields_unparse_eq, puts_stop]
    rfl
  · have two : (uitoa (.ofString Tag.transactTime timePlaceholder : FixField F).tag).length = 2 := rfl
    have two' : (uitoa (.ofString Tag.sendingTime timePlaceholder : FixField F).tag).length = 2 := rfl
    have time := time_size (F := F) (show digitCount Tag.sendingTime.toNat = 2 by decide)
    simp only [fixTemplatePrepare, field_unparse_eq, field_zpad_eq, padded_string, puts_stop, length_printed, two,
      two', time]
    split
    · congr 1
      omega
    · rfl

theorem prepared_holds {cfg : FixTemplateCfg F} (fits : cfg.size ≤ fixMaxTemplateBufferSize) :
    (fixTemplateNew.fixTemplatePrepare cfg).Holds cfg (preparedPlaces cfg) := by
  have fill : (preparedPlaces cfg).Fill cfg := ⟨rfl, rfl, rfl, rfl, rfl⟩
  have text : (fixTemplateNew.fixTemplatePrepare cfg).buf.data =
      cfg.filled (preparedPlaces cfg) ++ (fixTemplateNew : FixTemplate F).buf.data.drop cfg.text.length := by
    have room : (fixTemplateNew : FixTemplate F).buf.stop + cfg.text.length ≤
        (fixTemplateNew : FixTemplate F).buf.data.length := by
      rw [cfg.length_text, show (fixTemplateNew : FixTemplate F).buf.data.length = fixMaxTemplateBufferSize from
        List.length_replicate]
      exact (Nat.zero_add _).trans_le fits
    have empty : (fixTemplateNew : FixTemplate F).buf.stop = 0 := rfl
    rw [prepare_buf, puts_data room, empty, List.take_zero, List.nil_append, Nat.zero_add, prepared_text]
  have size : (fixTemplateNew.fixTemplatePrepare cfg).buf.data.length = fixMaxTemplateBufferSize :=
    (prepare_size ..).trans List.length_replicate
  refine ⟨?_, fill, size, _, text⟩
  obtain ⟨bodyLength, msgSeqNum, senderCompId, sendingTime⟩ := prepare_markers fixTemplateNew cfg
  obtain ⟨constEnd, transactTime, sums⟩ := prepare_rest fixTemplateNew cfg
  have stop : (fixTemplateNew.fixTemplatePrepare cfg).markerConstEnd = (cfg.filled (preparedPlaces cfg)).length := by
    rw [prepare_end, ← cfg.length_text, prepared_text]
    exact Nat.zero_add _
  have begins : (.ofString Tag.beginString cfg.beginString : FixField F).size =
      (fieldText (chars "8") (cchars cfg.beginString)).length := by
    rw [← length_printed]
    rfl
  have type : (.ofString Tag.msgType (cstr (fixMsgTypes cfg.msgType)) : FixField F).size =
      (fieldText (chars "35") (cchars (cstr (fixMsgTypes cfg.msgType)))).length := by
    have tag : uitoa Tag.msgType = chars "35" := by decide
    rw [← length_printed, ← tag]
    rfl
  have sender : (.ofString Tag.senderCompId cfg.senderCompId : FixField F).size =
      (cchars cfg.senderCompId).length + 4 := by
    have two : digitCount Tag.senderCompId.toNat = 2 := by decide
    simp only [FixField.size, FixField.ofString, FieldValue.size, two]
    omega
  have target : (.ofString Tag.targetCompId cfg.targetCompId : FixField F).size =
      (fieldText (chars "56") (cchars cfg.targetCompId)).length := by
    have tag : uitoa Tag.targetCompId = chars "56" := by decide
    rw [← length_printed, ← tag]
    rfl
  have front : cfg.toBodyLength.length = (fieldText (chars "8") (cchars cfg.beginString)).length + 2 := by
    rw [FixTemplateCfg.toBodyLength, List.length_append]
    rfl
  have number : cfg.toMsgSeqNum.length =
      (fieldText (chars "35") (cchars (cstr (fixMsgTypes cfg.msgType)))).length + 4 := by
    rw [FixTemplateCfg.toMsgSeqNum, List.length_cons, List.length_append]
    rfl
  have empty : (fixTemplateNew : FixTemplate F).buf.stop = 0 := rfl
  have managed : cfg.toTransactTime.length = (fieldText (chars "56") (cchars cfg.targetCompId)).length + 1 +
      if cfg.manageTransactTime then 3 else 0 := by
    rw [FixTemplateCfg.toTransactTime, List.length_cons, List.length_append]
    split <;> rfl
  have length := length_middle fill
  rw [FixTemplateCfg.filled, List.length_append, List.length_append, length] at stop
  have senderLen : (fixTemplateNew.fixTemplatePrepare cfg).senderCompIdLen = (cchars cfg.senderCompId).length := rfl
  have start : (fixTemplateNew.fixTemplatePrepare cfg).markerConstStart = cfg.toBodyLength.length + cfg.middleSize := by
    rw [constEnd] at stop
    omega
  have place : (fixTemplateNew.fixTemplatePrepare cfg).markerBodyLength = cfg.toBodyLength.length := by
    rw [bodyLength, front, begins, empty, Nat.zero_add]
  refine ⟨place, by omega, senderCompId, by omega, ?_, by omega, constEnd, senderLen, ?_, rfl⟩
  · rw [transactTime, target, managed]
    split
    · congr 1
      omega
    · rfl
  · have constant : bufferSumRange (fixTemplateNew.fixTemplatePrepare cfg).buf.data
        (fixTemplateNew.fixTemplatePrepare cfg).markerConstStart
        (fixTemplateNew.fixTemplatePrepare cfg).markerConstEnd = cfg.constText.sum := by
      refine sum_range (a := cfg.toBodyLength ++ cfg.middle (preparedPlaces cfg))
        (c := (fixTemplateNew : FixTemplate F).buf.data.drop cfg.text.length) ?_ ?_ ?_
      · rw [text, FixTemplateCfg.filled, List.append_assoc, List.append_assoc, List.append_assoc]
      · rw [start, List.length_append, length]
      · rw [constEnd, start, List.length_append, length]
    have begin : bufferSumRange (fixTemplateNew.fixTemplatePrepare cfg).buf.data 0
        (fixTemplateNew.fixTemplatePrepare cfg).markerBodyLength = cfg.toBodyLength.sum := by
      refine sum_range (a := []) (c := cfg.middle (preparedPlaces cfg) ++ (cfg.constText ++
        (fixTemplateNew : FixTemplate F).buf.data.drop cfg.text.length)) ?_ rfl (place.trans (Nat.zero_add _).symm)
      rw [text, FixTemplateCfg.filled, List.append_assoc, List.append_assoc]
      rfl
    rw [sums, constant, begin]

end FixTemplate

end

end Libtrading.Fix
