import Libtrading.Fix.OnWire
import Libtrading.Fix.Places

/-!
# The fast path

What `fix_template_unparse` prints is the message that `fix_message_unparse` prints for the same values, with the
numbers padded and the fields in an order of its own, as long as every MsgSeqNum so far had room in its place of
six characters. A longer one is printed over the SOH behind its place, and this SOH is never put back.
-/

namespace Libtrading.Fix
open Buffer Wire Bytes
set_option autoImplicit false
universe u

/-! ## Agreement -/

/-- The bytes are a message with the fields of another one, up to their order and to zeros in the MsgSeqNum,
behind its sign. -/
def SameMessage (w : List UInt8) (plain : WireMessage) : Prop :=
  ∃ t : WireMessage, w = t.text ∧ t.Complete ∧ t.beginString = plain.beginString ∧ t.msgType = plain.msgType ∧
    ∃ (sign zeros digits : List UInt8) (rest : List WireField), (sign = [] ∨ sign = ['-'.toNat.toUInt8]) ∧
      (∀ c ∈ zeros, c = digit 0) ∧ digits.all isDigit = true ∧
      t.fields.Perm (⟨chars "34", sign ++ (zeros ++ digits)⟩ :: rest) ∧
      plain.fields.Perm (⟨chars "34", sign ++ digits⟩ :: rest)

section
variable {F : Type u} [Doubles F]

/-- The message that a template stands for. -/
def FixTemplateCfg.plain (cfg : FixTemplateCfg F) (fields : List (FixField F)) (strNow : List UInt8)
    (session : Session F) :
    FixMessage F where
  type := cfg.msgType
  beginString := cfg.beginString
  bodyLength := 0
  msgType := cstr (fixMsgTypes cfg.msgType)
  senderCompId := session.senderCompId
  targetCompId := cfg.targetCompId
  msgSeqNum := session.outMsgSeqNum
  checkSum := []
  strNow := strNow
  fields := (if cfg.manageTransactTime then [.ofString Tag.transactTime strNow] else []) ++ (cfg.constFields ++ fields)

/-- What the vector of a template is sent from. -/
def FixTemplate.sent (t : FixTemplate F) : List UInt8 := t.buf.data.take t.iovLen

/-- The calls to a template, with the time it was told last: it is prepared, and then times, fields and sessions
come in any order. All that is printed fits, the times have 21 characters, the names the length of the first one,
and the numbers at most six characters. -/
inductive FixTemplate.Kept (cfg : FixTemplateCfg F) : FixTemplate F → List UInt8 → Prop
  | prepared (fits : cfg.size ≤ fixMaxTemplateBufferSize) : Kept cfg (fixTemplateNew.fixTemplatePrepare cfg)
      (cstr timePlaceholder)
  | timed {t : FixTemplate F} {now : List UInt8} (strNow : List UInt8) (time : (cchars strNow).length = 21)
    (h : Kept cfg t now) : Kept cfg (t.fixTemplateUpdateTime strNow) strNow
  | loaded {t : FixTemplate F} {now : List UInt8} (fields : List (FixField F)) (h : Kept cfg t now) :
    Kept cfg { t with fields := fields } now
  | sent {t : FixTemplate F} {now : List UInt8} (session : Session F)
    (name : (cchars session.senderCompId).length = (cchars cfg.senderCompId).length)
    (number : SixCharacters session.outMsgSeqNum) (fits : t.sentSize ≤ fixMaxTemplateBufferSize) (h : Kept cfg t now) :
    Kept cfg (t.fixTemplateUnparse session) now

namespace FixTemplate
variable {t : FixTemplate F} {cfg : FixTemplateCfg F} {s : Places}

/-! ## What is sent -/

/-- A message from the template, on the wire. -/
def sentMessage (t : FixTemplate F) (cfg : FixTemplateCfg F) (s : Places) (session : Session F) : WireMessage where
  beginString := cchars cfg.beginString
  bodyLength := (t.sentPlaces s session).bodyLength
  msgType := cchars (cstr (fixMsgTypes cfg.msgType))
  fields := ⟨chars "34", (t.sentPlaces s session).msgSeqNum⟩ :: ⟨chars "49", cchars session.senderCompId⟩ ::
    ⟨chars "52", s.sendingTime⟩ :: ⟨chars "56", cchars cfg.targetCompId⟩ ::
      ((if cfg.manageTransactTime then [⟨chars "60", s.sendingTime⟩] else []) ++
        (cfg.constFields ++ t.fields).map FixField.onWire)
  checkSum := padded 3 (t.sentText cfg s session).sum.toNat

theorem sent_front (fill : s.Fill cfg) (session : Session F) :
    (t.sentMessage cfg s session).front = t.sentText cfg s session := by
  obtain ⟨nine, number, name, sent⟩ := tag_texts
  have same : (t.sentPlaces s session).transactTime = if cfg.manageTransactTime then s.sendingTime else [] :=
    fill.transactTime
  have fields : fieldsText ((cfg.constFields ++ t.fields).map FixField.onWire) = cfg.constText ++ t.variedText := by
    rw [fields_on_wire, List.flatMap_append]
    rfl
  have times : fieldsText (if cfg.manageTransactTime then [⟨chars "60", s.sendingTime⟩] else []) =
      (if cfg.manageTransactTime then chars "60=" else []) ++ ((if cfg.manageTransactTime then s.sendingTime else []) ++
        if cfg.manageTransactTime then [1] else []) := by
    rw [← transact_time_text, fieldsText]
    split
    · exact List.flatMap_singleton ..
    · rfl
  rw [WireMessage.front, WireMessage.body, sentMessage]
  simp only [fields_text_head, fields_text_append, times, fields]
  simp only [sentText, FixTemplateCfg.filled, FixTemplateCfg.middle, FixTemplateCfg.toBodyLength,
    FixTemplateCfg.toMsgSeqNum, FixTemplateCfg.toTransactTime, same, nine, number, name, sent, WireField.text, fieldText,
    List.append_assoc, List.cons_append, List.nil_append]
  rfl

theorem sent_wire (h : t.Holds cfg s) {session : Session F} (takes : t.Takes session) :
    (t.fixTemplateUnparse session).sent = (t.sentMessage cfg s session).text := by
  obtain ⟨rest, text, stop⟩ := unparse_text h takes
  have length : (fieldText (chars "10") (padded 3 (t.sentText cfg s session).sum.toNat)).length =
      FixMessage.checkSumSize := by
    rw [← check_sum_text (F := F) (UInt8.toNat_lt _), length_printed, check_sum_size (UInt8.toNat_lt _)]
  rw [FixTemplate.sent, show (t.fixTemplateUnparse session).iovLen = (t.fixTemplateUnparse session).buf.stop from rfl,
    text, stop, ← length, ← List.length_append, ← List.append_assoc, List.take_left, WireMessage.text, sent_front h.fill]
  rfl

theorem sent_complete (h : t.Holds cfg s) {session : Session F} (takes : t.Takes session) :
    (t.sentMessage cfg s session).Complete where
  digits := List.all_eq_true.2 (digits_padded _ _)
  bodyLength := by
    have room := takes.room
    have before := length_before h.marks
    have front := congrArg List.length (sent_front (t := t) h.fill session)
    have length := length_filled h.marks (sent_fill h takes)
    have width : (t.sentPlaces s session).bodyLength.length = 4 := (sent_fill h takes).bodyLength
    have nine : (chars "9").length = 1 := by decide
    have tag : (chars "9=").length = 2 := by decide
    have marker := h.marks.markerBodyLength
    rw [FixTemplateCfg.toBodyLength, List.length_append, tag] at marker
    rw [sentText, List.length_append, length, WireMessage.front, List.length_append, List.length_append,
      length_field_text (chars "9"), nine] at front
    have value : value (t.sentMessage cfg s session).bodyLength = t.bodyLength := value_padded _ _
    have slot : (t.sentMessage cfg s session).bodyLength.length = 4 := width
    have begins : (fieldText (chars "8") (t.sentMessage cfg s session).beginString).length =
        (fieldText (chars "8") (cchars cfg.beginString)).length := rfl
    rw [value, bodyLength]
    omega
  checkSum := by
    rw [sent_front h.fill]
    rfl

/-! ## The same message -/

theorem strncpy_chars {p : List UInt8} {size : Nat} (h : (cchars p).length < size) :
    cchars (strncpy p size) = cchars p := by
  have stay : ∀ c ∈ cchars p, decide (c ≠ 0) = true :=
    fun c hc => List.mem_takeWhile_imp (p := fun c => decide (c ≠ 0)) hc
  obtain ⟨k, more⟩ : ∃ k, size - (cchars p).length = k + 1 := ⟨size - (cchars p).length - 1, by omega⟩
  rw [strncpy, List.take_of_length_le (by omega), more, List.replicate_succ]
  show (cchars p ++ 0 :: List.replicate k 0).takeWhile _ = _
  rw [List.takeWhile_append_of_pos stay, List.takeWhile_cons_of_neg (by decide), List.append_nil]

/-- The template is in a state of its calls. -/
theorem Kept.holds {now : List UInt8} (h : Kept cfg t now) :
    (cchars now).length = 21 ∧ ∃ s, t.Holds cfg s ∧ s.sendingTime = cchars now := by
  induction h with
  | prepared fits =>
    have time : cchars (cstr timePlaceholder) = timePlaceholder := by decide
    exact ⟨by decide, preparedPlaces cfg, prepared_holds fits, time.symm⟩
  | timed strNow time _ ih =>
    obtain ⟨-, s, holds, -⟩ := ih
    exact ⟨time, _, holds.updateTime time, rfl⟩
  | loaded fields _ ih =>
    obtain ⟨time, s, holds, sendingTime⟩ := ih
    exact ⟨time, s, holds.load fields, sendingTime⟩
  | sent session name number fits _ ih =>
    obtain ⟨time, s, holds, sendingTime⟩ := ih
    exact ⟨time, _, holds.unparse ⟨name.trans holds.marks.senderCompIdLen.symm, number, fits⟩, sendingTime⟩

/-- The fields behind the header that both print. -/
def commonFields (t : FixTemplate F) (cfg : FixTemplateCfg F) (now : List UInt8) : List WireField :=
  (if cfg.manageTransactTime then [⟨chars "60", cchars now⟩] else []) ++
    (cfg.constFields ++ t.fields).map FixField.onWire

theorem plain_fields {now : List UInt8} (time : (cchars now).length = 21) (session : Session F) :
    (cfg.plain t.fields now session).onWire.fields = ⟨chars "49", cchars session.senderCompId⟩ ::
      ⟨chars "56", cchars cfg.targetCompId⟩ ::
      ⟨chars "34", signText session.outMsgSeqNum ++ decimal (magnitude session.outMsgSeqNum)⟩ ::
      ⟨chars "52", cchars now⟩ :: t.commonFields cfg now := by
  obtain ⟨-, -, number, sender, sent, target, transact⟩ := header_tags
  have value : i64toa session.outMsgSeqNum =
      signText session.outMsgSeqNum ++ decimal (magnitude session.outMsgSeqNum) :=
    (i64toa_eq _).trans (sprintf64_eq _)
  have string : ∀ (tag : Tag) (v : List UInt8), (.ofString tag v : FixField F).onWire = ⟨uitoa tag, cchars v⟩ :=
    fun _ _ => rfl
  have int : ∀ (tag : Tag) (v : BitVec 64), (.ofInt tag v : FixField F).onWire = ⟨uitoa tag, i64toa v⟩ := fun _ _ => rfl
  have copied : cchars (strncpy now 64) = cchars now := strncpy_chars (by omega)
  have managed :
      (if cfg.manageTransactTime then [(.ofString Tag.transactTime now : FixField F)] else []).map FixField.onWire =
      if cfg.manageTransactTime then [⟨chars "60", cchars now⟩] else [] := by
    split
    · rw [List.map_singleton, string, transact]
    · rfl
  show ((cfg.plain t.fields now session).headerFields ++
      (cfg.plain t.fields now session).fields).map FixField.onWire = _
  simp only [FixMessage.headerFields, FixTemplateCfg.plain, List.map_append, List.map_cons, string, int, sender, target,
    number, sent, value, copied, managed, commonFields, List.cons_append, List.nil_append]

/-- The two orders of the header. -/
theorem header_perm (sender target number time : WireField) (fs : List WireField) :
    (sender :: target :: number :: time :: fs).Perm (number :: sender :: time :: target :: fs) := by
  have first : ([sender, target] ++ number :: time :: fs).Perm (number :: ([sender, target] ++ time :: fs)) :=
    List.perm_middle
  exact first.trans (.cons number (.cons sender (.swap time target fs)))

/-- A message from a template is the one it stands for. -/
theorem same_message {now : List UInt8} (time : (cchars now).length = 21) (h : t.Holds cfg s)
    (sendingTime : s.sendingTime = cchars now) {session : Session F} (takes : t.Takes session) :
    SameMessage (t.fixTemplateUnparse session).sent (cfg.plain t.fields now session).onWire := by
  have type : cchars (cstr (fixMsgTypes cfg.msgType)) = (cfg.plain t.fields now session).typeText := by
    rw [FixMessage.typeText]
    exact (ite_self _).symm
  have fields : (t.sentMessage cfg s session).fields =
      ⟨chars "34", signText session.outMsgSeqNum ++ (List.replicate (templateMsgSeqNumZpad -
        (sprintf64 session.outMsgSeqNum).length) (digit 0) ++ decimal (magnitude session.outMsgSeqNum))⟩ ::
      ⟨chars "49", cchars session.senderCompId⟩ :: ⟨chars "52", cchars now⟩ :: ⟨chars "56", cchars cfg.targetCompId⟩ ::
      t.commonFields cfg now := by
    rw [← modp_litoa10_zpad_eq, commonFields, ← sendingTime]
    rfl
  refine ⟨t.sentMessage cfg s session, sent_wire h takes, sent_complete h takes, rfl, type, _, _, _, _, sign_text _,
    fun c hc => (List.mem_replicate.1 hc).2, List.all_eq_true.2 (digits_decimal _), .of_eq fields, ?_⟩
  rw [plain_fields time]
  exact header_perm ..

end FixTemplate

end

/-! ## A number without room -/

theorem count_field (tag value : List UInt8) : (fieldText tag value).count 1 = tag.count 1 + value.count 1 + 1 := by
  rw [fieldText, List.count_append, List.count_cons, List.count_append]
  rfl

theorem count_digits {v : List UInt8} (h : v.all isDigit = true) : v.count 1 = 0 :=
  List.count_eq_zero.2 (digits_no_soh h)

theorem count_padded (width n : Nat) : (padded width n).count 1 = 0 :=
  count_digits (List.all_eq_true.2 (digits_padded _ _))

theorem count_sign {sign : List UInt8} (h : sign = [] ∨ sign = ['-'.toNat.toUInt8]) : sign.count 1 = 0 := by
  rcases h with rfl | rfl <;> decide

theorem count_zeros {zeros : List UInt8} (h : ∀ c ∈ zeros, c = digit 0) : zeros.count 1 = 0 :=
  List.count_eq_zero.2 fun soh => absurd (h 1 soh) (by decide)

/-- How often a complete message has the SOH. -/
theorem WireMessage.Complete.count {t : WireMessage} (h : t.Complete) :
    t.text.count 1 = t.beginString.count 1 + t.msgType.count 1 + (t.fields.map fun f => f.text.count 1).sum + 4 := by
  have eight : (chars "8").count 1 = 0 := by decide
  have nine : (chars "9").count 1 = 0 := by decide
  have type : (chars "35").count 1 = 0 := by decide
  have sum : (chars "10").count 1 = 0 := by decide
  have fields : (fieldsText t.fields).count 1 = (t.fields.map fun f => f.text.count 1).sum := by
    rw [fieldsText, List.count_flatMap]
    rfl
  rw [WireMessage.text, WireMessage.front, WireMessage.body]
  simp only [List.count_append, count_field, fields, h.checkSum, count_padded, count_digits h.digits, eight, nine,
    type, sum]
  omega

/-- A message and the one it stands for have as many SOHs. -/
theorem SameMessage.count {w : List UInt8} {plain : WireMessage} (h : SameMessage w plain) (complete : plain.Complete) :
    w.count 1 = plain.text.count 1 := by
  obtain ⟨t, rfl, complete', begins, type, sign, zeros, digits, rest, signed, zero, isDigits, fields, fields'⟩ := h
  have number : (fieldText (chars "34") (sign ++ (zeros ++ digits))).count 1 =
      (fieldText (chars "34") (sign ++ digits)).count 1 := by
    rw [count_field, count_field, List.count_append, List.count_append, List.count_append, count_zeros zero,
      Nat.zero_add]
  have same : (t.fields.map fun f => f.text.count 1).sum = (plain.fields.map fun f => f.text.count 1).sum := by
    rw [(fields.map _).sum_nat, (fields'.map _).sum_nat, List.map_cons, List.map_cons, List.sum_cons, List.sum_cons,
      WireField.text, WireField.text, number]
  rw [complete'.count, complete.count, begins, type, same]

theorem count_zpad (n : BitVec 64) (zpad : Nat) : (modpLitoa10Zpad n zpad).count 1 = 0 := by
  rw [modp_litoa10_zpad_eq, List.count_append, List.count_append, count_sign (sign_text n),
    count_zeros (fun c hc => (List.mem_replicate.1 hc).2), count_digits (List.all_eq_true.2 (digits_decimal _))]

section
variable {F : Type u} [Doubles F]

/-- The text of a template behind the SOH of its MsgSeqNum. -/
def FixTemplateCfg.behindNumber (cfg : FixTemplateCfg F) (s : Places) : List UInt8 :=
  chars "49=" ++ (s.senderCompId ++ (1 :: chars "52=" ++ (s.sendingTime ++ (cfg.toTransactTime ++ (s.transactTime ++
    cfg.ending [])))))

namespace FixTemplate
variable {t : FixTemplate F} {cfg : FixTemplateCfg F} {s : Places}

theorem filled_behind (cfg : FixTemplateCfg F) (s : Places) (rest : List UInt8) : cfg.filled s ++ rest =
    cfg.toBodyLength ++ (s.bodyLength ++ (cfg.toMsgSeqNum ++ (s.msgSeqNum ++ 1 :: (cfg.behindNumber s ++ rest)))) := by
  have ending : cfg.ending [] ++ rest = cfg.ending rest := by
    rw [FixTemplateCfg.ending, FixTemplateCfg.ending, List.append_nil, List.append_assoc]
  rw [filled_eq, ← ending]
  simp only [FixTemplateCfg.behindNumber, List.append_assoc, List.cons_append]

/-- What is sent ends with the checksum. -/
theorem sent_behind (csum : t.csumField.tag = Tag.checkSum) {session : Session F} {text rest : List UInt8}
    (data : (t.numbered session).data = text ++ rest) (stop : (t.numbered session).stop = text.length)
    (room : FixMessage.checkSumSize ≤ rest.length) :
    (t.fixTemplateUnparse session).sent = text ++ fieldText (chars "10") (padded 3 (t.sum session)) := by
  have sum : (.ofCheckSum t.csumField.tag (.ofNat 64 (t.sum session)) : FixField F).printed =
      fieldText (chars "10") (padded 3 (t.sum session)) := by
    rw [csum, check_sum_text (sum_lt t session)]
  have size : (fieldText (chars "10") (padded 3 (t.sum session))).length = FixMessage.checkSumSize := by
    rw [← check_sum_text (F := F) (sum_lt t session), length_printed, check_sum_size (sum_lt t session)]
  have put := puts_behind data stop (room.trans' size.le)
  have length : (t.fixTemplateUnparse session).iovLen =
      (text ++ fieldText (chars "10") (padded 3 (t.sum session))).length := by
    show (t.fixTemplateUnparse session).buf.stop = _
    rw [unparse_buf, sum, puts_stop, stop, List.length_append]
  rw [FixTemplate.sent, length, unparse_buf, sum, put, ← List.append_assoc, List.take_left]

/-- The text that is sent when the number is too long for its place. -/
def overrunText (t : FixTemplate F) (cfg : FixTemplateCfg F) (s : Places) (session : Session F) : List UInt8 :=
  cfg.toBodyLength ++ (padded templateBodyLenZpad t.bodyLength ++ (cfg.toMsgSeqNum ++
    (modpLitoa10Zpad session.outMsgSeqNum templateMsgSeqNumZpad ++ ((cfg.behindNumber (t.sentPlaces s session)).drop
      ((modpLitoa10Zpad session.outMsgSeqNum templateMsgSeqNumZpad).length - 7) ++ t.variedText))))

theorem length_behind (time : s.sendingTime.length = 21) : 21 ≤ (cfg.behindNumber s).length := by
  simp only [FixTemplateCfg.behindNumber, List.length_append, time]
  omega

/-- **A number that is too long.** It is printed over the SOH behind its place. -/
theorem overrun_text (h : t.Holds cfg s) {session : Session F} {n : U64}
    (takes : t.Takes { session with outMsgSeqNum := n })
    (long : 6 < (modpLitoa10Zpad session.outMsgSeqNum templateMsgSeqNumZpad).length) : ∃ rest,
    (t.numbered session).data = t.overrunText cfg s session ++ rest ∧
      (t.numbered session).stop = (t.overrunText cfg s session).length ∧ FixMessage.checkSumSize ≤ rest.length := by
  obtain ⟨rest, varied, room⟩ := varied_text h takes
  have filled := sent_fill h takes
  have named : Places.Fill cfg { s with senderCompId := cchars session.senderCompId } :=
    ⟨h.fill.bodyLength, h.fill.msgSeqNum, filled.senderCompId, h.fill.sendingTime, h.fill.transactTime⟩
  have bodyLength : s.bodyLength.length = 4 := h.fill.bodyLength
  have msgSeqNum : s.msgSeqNum.length = 6 := h.fill.msgSeqNum
  have short : (modpLitoa10Zpad session.outMsgSeqNum templateMsgSeqNumZpad).length ≤ 21 := length_zpad ..
  have behind : 21 ≤ (cfg.behindNumber (t.sentPlaces s session)).length := length_behind h.fill.sendingTime
  have split := List.take_append_drop ((modpLitoa10Zpad session.outMsgSeqNum templateMsgSeqNumZpad).length - 7)
    (cfg.behindNumber (t.sentPlaces s session))
  have first := fill_sender_comp_id h.marks h.fill varied takes.name
  -- the number takes its place, the SOH and more
  have second := store_at_place (i := t.markerMsgSeqNum) (a := cfg.toBodyLength ++ (s.bodyLength ++ cfg.toMsgSeqNum))
    (s := s.msgSeqNum ++ 1 :: (cfg.behindNumber (t.sentPlaces s session)).take
      ((modpLitoa10Zpad session.outMsgSeqNum templateMsgSeqNumZpad).length - 7))
    (c := (cfg.behindNumber (t.sentPlaces s session)).drop
      ((modpLitoa10Zpad session.outMsgSeqNum templateMsgSeqNumZpad).length - 7) ++ (t.variedText ++ rest))
    (w := modpLitoa10Zpad session.outMsgSeqNum templateMsgSeqNumZpad)
    (by
      rw [first, filled_behind]
      simp only [List.append_assoc, List.cons_append]
      rw [← List.append_assoc (List.take _ _), split]
      rfl)
    (by
      rw [h.marks.markerMsgSeqNum, h.marks.markerBodyLength, List.length_append, List.length_append]
      omega)
    (by
      rw [List.length_append, List.length_cons, List.length_take]
      omega)
  have third := store_at_place (i := t.markerBodyLength) (a := cfg.toBodyLength) (s := s.bodyLength)
    (w := padded templateBodyLenZpad t.bodyLength)
    (by rw [second, List.append_assoc, List.append_assoc]) h.marks.markerBodyLength
    (filled.bodyLength.trans h.fill.bodyLength.symm)
  refine ⟨rest, ?_, ?_, room⟩
  · rw [numbered, memory_at_chars takes.name, sent_body_length h.marks takes]
    simpa only [overrunText, List.append_assoc] using third
  · have ends := congrArg List.length (filled_behind cfg s [])
    have bodyLength' : (padded templateBodyLenZpad t.bodyLength).length = 4 := filled.bodyLength
    have same : (cfg.behindNumber s).length = (cfg.behindNumber (t.sentPlaces s session)).length := by
      have name : s.senderCompId.length = (t.sentPlaces s session).senderCompId.length :=
        h.fill.senderCompId.trans filled.senderCompId.symm
      simp only [FixTemplateCfg.behindNumber, List.length_append, name]
      rfl
    have length := length_filled h.marks h.fill
    have varied : t.variedText.length = (t.fields.map FixField.size).sum := length_printed_fields _
    rw [numbered_stop, overrunText]
    simp only [List.append_nil, List.length_append, List.length_cons, List.length_drop] at ends ⊢
    omega

/-- **A number that is too long.** What is sent has fewer SOHs than with a number of six characters. -/
theorem sent_overrun (h : t.Holds cfg s) {session : Session F} {n : U64}
    (takes : t.Takes { session with outMsgSeqNum := n })
    (long : ¬ SixCharacters session.outMsgSeqNum) : (t.fixTemplateUnparse session).sent.count 1 <
      (t.fixTemplateUnparse { session with outMsgSeqNum := n }).sent.count 1 := by
  have long : 6 < (modpLitoa10Zpad session.outMsgSeqNum templateMsgSeqNumZpad).length := by
    rw [length_zpad_eq]
    exact lt_max_of_lt_right (Nat.lt_of_not_le (mt six_characters_iff.1 long))
  obtain ⟨rest, text, stop, room⟩ := overrun_text h takes long
  have ten : (chars "10").count 1 = 0 := by decide
  have drop := (List.drop_sublist ((modpLitoa10Zpad session.outMsgSeqNum templateMsgSeqNumZpad).length - 7)
    (cfg.behindNumber (t.sentPlaces s session))).count_le 1
  have counted : t.sentText cfg s { session with outMsgSeqNum := n } =
      cfg.toBodyLength ++ (padded templateBodyLenZpad t.bodyLength ++ (cfg.toMsgSeqNum ++
        (modpLitoa10Zpad n templateMsgSeqNumZpad ++
          1 :: (cfg.behindNumber (t.sentPlaces s session) ++ t.variedText)))) := by
    rw [sentText, filled_behind]
    simp only [FixTemplateCfg.behindNumber, sentPlaces]
  rw [sent_behind h.marks.csum text stop room, sent_wire h takes, WireMessage.text, sent_front h.fill, counted,
    overrunText]
  simp only [List.count_append, List.count_cons_self, count_field, count_zpad, count_padded, ten]
  have sum : (t.sentMessage cfg s { session with outMsgSeqNum := n }).checkSum.count 1 = 0 := count_padded _ _
  rw [sum]
  omega

/-- The plain path prints as many SOHs for all numbers. -/
theorem plain_count (cfg : FixTemplateCfg F) (t : FixTemplate F) {now : List UInt8} (time : (cchars now).length = 21)
    (session : Session F) (n : U64) : (cfg.plain t.fields now { session with outMsgSeqNum := n }).onWire.text.count 1 =
      (cfg.plain t.fields now session).onWire.text.count 1 := by
  have number : ∀ v : U64, (signText v ++ decimal (magnitude v)).count 1 = 0 := fun v => by
    rw [List.count_append, count_sign (sign_text v), count_digits (List.all_eq_true.2 (digits_decimal _))]
  rw [(FixMessage.on_wire_complete _).count, (FixMessage.on_wire_complete _).count, plain_fields time,
    plain_fields time]
  simp only [List.map_cons, List.sum_cons, WireField.text, count_field, number]
  rfl

/-- What the plain path prints for its body is not much longer. -/
theorem plain_size {now : List UInt8} (time : (cchars now).length = 21) (h : t.Marks cfg) {session : Session F}
    (name : (cchars session.senderCompId).length = t.senderCompIdLen) :
    (cfg.plain t.fields now session).bodySize ≤ t.sentSize + 21 := by
  have width : (modpLitoa10Zpad session.outMsgSeqNum 0).length ≤ 21 := length_zpad ..
  have value : (signText session.outMsgSeqNum ++ decimal (magnitude session.outMsgSeqNum)).length ≤ 21 := by
    rw [← sprintf64_eq]
    exact ((le_max_right _ _).trans (length_zpad_eq _ 0).ge).trans width
  have type : (cfg.plain t.fields now session).typeText = cchars (cstr (fixMsgTypes cfg.msgType)) := ite_self _
  have tag : (chars "35").length = 2 ∧ (chars "49").length = 2 ∧ (chars "56").length = 2 ∧ (chars "34").length = 2 ∧
      (chars "52").length = 2 ∧ (chars "60").length = 2 ∧ (chars "34=").length = 3 := by decide
  obtain ⟨msgType, sender, target, number, sent, transact, numberTag⟩ := tag
  have common : (fieldsText (t.commonFields cfg now)).length =
      (if cfg.manageTransactTime then 25 else 0) + (cfg.constText.length + t.variedText.length) := by
    rw [commonFields, fields_text_append, fields_on_wire, List.flatMap_append, List.length_append, List.length_append]
    congr 1
    split
    · rw [fieldsText, List.flatMap_singleton, WireField.text, length_field_text, transact, time]
    · rfl
  have toMsgSeqNum : cfg.toMsgSeqNum.length = (cchars (cstr (fixMsgTypes cfg.msgType))).length + 8 := by
    rw [FixTemplateCfg.toMsgSeqNum, List.length_cons, List.length_append, length_field_text, msgType, numberTag]
    omega
  have toTransactTime : cfg.toTransactTime.length =
      (cchars cfg.targetCompId).length + 5 + if cfg.manageTransactTime then 3 else 0 := by
    have tag : (if cfg.manageTransactTime then chars "60=" else []).length =
        if cfg.manageTransactTime then 3 else 0 := by
      split <;> rfl
    rw [FixTemplateCfg.toTransactTime, List.length_cons, List.length_append, length_field_text, target, tag]
    omega
  have fields : t.variedText.length = (t.fields.map FixField.size).sum := length_printed_fields _
  have start := h.markerConstStart
  have ends := h.markerConstEnd
  have idLen := h.senderCompIdLen
  rw [FixTemplateCfg.middleSize] at start
  rw [← FixMessage.body_size, WireMessage.body, plain_fields time, sentSize]
  simp only [fields_text_head, List.length_append, length_field_text, WireField.text, common, msgType, sender, target,
    number, sent, time]
  have typeLength : (cfg.plain t.fields now session).onWire.msgType = cchars (cstr (fixMsgTypes cfg.msgType)) := type
  rw [typeLength]
  rw [List.length_append] at value
  have times : (if cfg.manageTransactTime then 25 else 0) =
      (if cfg.manageTransactTime then 22 else 0) + if cfg.manageTransactTime then 3 else 0 := by split <;> rfl
  omega

/-- A message with a number that is too long is not the one it stands for. -/
theorem overrun_differs {now : List UInt8} (time : (cchars now).length = 21) (h : t.Holds cfg s)
    (sendingTime : s.sendingTime = cchars now) {session : Session F}
    (named : (cchars session.senderCompId).length = t.senderCompIdLen) (fits : t.sentSize ≤ fixMaxTemplateBufferSize)
    (long : ¬SixCharacters session.outMsgSeqNum) :
    ¬SameMessage (t.fixTemplateUnparse session).sent (cfg.plain t.fields now session).onWire := by
  intro same
  -- with the number zero there would be as many SOHs as the plain path prints, and there are fewer
  have zero : SixCharacters 0 := by decide
  have takes : t.Takes { session with outMsgSeqNum := 0 } := ⟨named, zero, fits⟩
  have fewer := sent_overrun h takes long
  have count := same.count (FixMessage.on_wire_complete _)
  have count' := (same_message time h sendingTime takes).count (FixMessage.on_wire_complete _)
  have plain := plain_count cfg t time session 0
  exact absurd (count.trans (plain.symm.trans count'.symm)) (Nat.ne_of_lt fewer)

end FixTemplate

/-- What `fix_message_unparse` leaves in the two buffers it prints to. -/
def FixMessage.printed (m : FixMessage F) (head body : Buffer) : List UInt8 :=
  (m.fixMessageUnparse head body).1.data.take (m.fixMessageUnparse head body).1.stop ++
    (m.fixMessageUnparse head body).2.data.take (m.fixMessageUnparse head body).2.stop

/-- **The fast path.** After any calls so far, the bytes from a template are the message that the plain path prints,
if and only if its MsgSeqNum has at most six characters. -/
theorem fast_path_agrees_iff {cfg : FixTemplateCfg F} {t : FixTemplate F} {now : List UInt8} (run : t.Kept cfg now)
    {session : Session F} (name : (cchars session.senderCompId).length = (cchars cfg.senderCompId).length)
    (fits : t.sentSize ≤ fixMaxTemplateBufferSize) {head body : Buffer} (headEmpty : head.start = 0 ∧ head.stop = 0)
    (bodyEmpty : body.start = 0 ∧ body.stop = 0)
    (headRoom : (cfg.plain t.fields now session).headSize ≤ head.data.length)
    (bodyRoom : (cfg.plain t.fields now session).bodySize + FixMessage.checkSumSize ≤ body.data.length) :
    (cfg.plain t.fields now session).printed head body = (cfg.plain t.fields now session).onWire.text ∧
      (SameMessage (t.fixTemplateUnparse session).sent (cfg.plain t.fields now session).onWire ↔
        SixCharacters session.outMsgSeqNum) := by
  obtain ⟨time, s, holds, sendingTime⟩ := run.holds
  have named : (cchars session.senderCompId).length = t.senderCompIdLen := name.trans holds.marks.senderCompIdLen.symm
  have size := t.plain_size time holds.marks named
  have small : t.sentSize ≤ 1024 := fits
  refine ⟨unparsed_on_wire headEmpty bodyEmpty headRoom bodyRoom (by omega), fun same => ?_, fun number => ?_⟩
  · by_contra long
    exact FixTemplate.overrun_differs time holds sendingTime named fits long same
  · exact FixTemplate.same_message time holds sendingTime ⟨named, number, fits⟩

end

/-! ## One template -/

/-- The session with another number. -/
def numberedSession (n : U64) : Session (List UInt8) := { smallSession with outMsgSeqNum := n }

/-- A template of orders that was told the time. -/
def orderTemplate : FixTemplate (List UInt8) :=
  (fixTemplateNew.fixTemplatePrepare orderCfg).fixTemplateUpdateTime smallSession.strNow

theorem order_template_kept : orderTemplate.Kept orderCfg smallSession.strNow :=
  .timed _ (by decide) (.prepared (by decide +kernel))

/-- The second message from the template agrees with the plain path. -/
theorem second_order_agrees : SameMessage
    ((orderTemplate.fixTemplateUnparse (numberedSession 999999)).fixTemplateUnparse (numberedSession 7)).sent
    (orderCfg.plain [] smallSession.strNow (numberedSession 7)).onWire := by
  have run : (orderTemplate.fixTemplateUnparse (numberedSession 999999)).Kept orderCfg smallSession.strNow :=
    .sent _ rfl (by decide) (by decide +kernel) order_template_kept
  have headRoom : (orderCfg.plain [] smallSession.strNow (numberedSession 7)).headSize ≤
      smallSession.txHeadBuffer.data.length := by decide +kernel
  have bodyRoom : (orderCfg.plain [] smallSession.strNow (numberedSession 7)).bodySize + FixMessage.checkSumSize ≤
      smallSession.txBodyBuffer.data.length := by decide +kernel
  have agrees := fast_path_agrees_iff run rfl (by decide +kernel) ⟨rfl, rfl⟩ ⟨rfl, rfl⟩ headRoom bodyRoom
  exact agrees.2.2 (by decide)

/-- **A million messages.** The number of the next one is printed over the SOH behind its place. -/
theorem millionth_order_differs :
    ¬SameMessage (orderTemplate.fixTemplateUnparse (numberedSession 1000000)).sent
        (orderCfg.plain [] smallSession.strNow (numberedSession 1000000)).onWire ∧
      (orderTemplate.fixTemplateUnparse (numberedSession 1000000)).sent =
        sohText ("8=FIX.4.4|9=0088|35=D|34=100000049=BUY|52=20240101-00:00:00.000|56=SELL|" ++
          "60=20240101-00:00:00.000|55=AAPL|10=220|") := by
  obtain ⟨time, s, holds, sendingTime⟩ := order_template_kept.holds
  exact ⟨FixTemplate.overrun_differs time holds sendingTime rfl (by decide +kernel) (by decide), by decide +kernel⟩

end Libtrading.Fix
