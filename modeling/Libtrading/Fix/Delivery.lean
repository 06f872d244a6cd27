import Libtrading.Fix.OnWire
import Libtrading.Fix.Pieces
import Libtrading.Fix.Sending

/-!
# Messages from one session to another

The bytes of a message that was sent are a well-formed message on the wire, and each of its fields is read as it was
printed. So the receiver of a row of such messages returns them in the order they were sent in, however the bytes of
the row are cut.
-/

namespace Libtrading.Fix
open Buffer Wire Bytes
set_option autoImplicit false
universe u

/-! ## Fields -/

/-- A printed number is read back. -/
theorem atoi64_sprintf (n : BitVec 64) : fixAtoi64 (sprintf64 n ++ [1]) = n := by
  have digits (k : Nat) : atoiFrom 64 0 (decimal k ++ [1]) = .ofNat 64 k := by
    have read := atoi_from_digits 64 0 (decimal k) (List.all_eq_true.2 (digits_decimal k))
    rw [atoi_from_append 64 0 (decimal k) rfl []]
    exact read.trans (congrArg (BitVec.ofNat 64) (value_decimal k))
  rw [sprintf64_eq, signText, magnitude]
  split
  · rw [List.singleton_append, List.cons_append, atoi64_cons, if_pos rfl, digits, BitVec.ofNat_toNat,
      BitVec.setWidth_eq, BitVec.neg_neg]
  · rw [List.nil_append]
    have read := digits n.toNat
    rw [BitVec.ofNat_toNat, BitVec.setWidth_eq] at read
    have printed := digits_decimal n.toNat
    cases text : decimal n.toNat with
    | nil => exact absurd text (decimal_ne_nil _)
    | cons c t =>
      rw [text] at read printed
      have plus : ¬c = '-'.toNat.toUInt8 := by
        rintro rfl
        exact absurd (printed _ List.mem_cons_self) (by decide)
      rw [List.cons_append, atoi64_cons, if_neg plus, ← List.cons_append, read]

section
variable {F : Type u} [Doubles F]

/-- The type of a field. -/
def FieldValue.type : FieldValue F → FixType
  | .int _ => .int
  | .float _ => .float
  | .char _ => .char
  | .string _ => .string
  | .checkSum _ => .checkSum
  | .msgSeqNum => .msgSeqNum
  | .string8 _ => .string8

/-- An INT, a CHAR or a STRING without a SOH, which the dialect reads as one or as a STRING. -/
structure FixField.Carried (dialect : Dialect) (f : FixField F) : Prop where
  plain : f.value.type ∈ [FixType.int, .char, .string]
  read : dialect.tagType f.tag = .string ∨ dialect.tagType f.tag = f.value.type
  soh : 1 ∉ f.value.printed

instance (dialect : Dialect) (f : FixField F) : Decidable (f.Carried dialect) :=
  decidable_of_iff (f.value.type ∈ [FixType.int, .char, .string] ∧
      (dialect.tagType f.tag = .string ∨ dialect.tagType f.tag = f.value.type) ∧ 1 ∉ f.value.printed)
    ⟨fun h => ⟨h.1, h.2.1, h.2.2⟩, fun h => ⟨h.plain, h.read, h.soh⟩⟩

/-- A field as it is received: the value, or its text where the dialect types the tag STRING. -/
def FixField.readAs (dialect : Dialect) (f : FixField F) : FixField F :=
  if dialect.tagType f.tag = .string then ⟨f.tag, .string f.value.printed⟩ else f

omit [Doubles F] in
theorem uatoi_uitoa (tag : Tag) : fixUatoi (uitoa tag) = tag := by
  rw [uitoa_eq, uatoi_digits (List.all_eq_true.2 (digits_decimal _)), value_decimal, BitVec.ofNat_toNat,
    BitVec.setWidth_eq]

theorem on_wire_number (f : FixField F) : f.onWire.number = f.tag := uatoi_uitoa f.tag

theorem on_wire_proper {f : FixField F} (soh : 1 ∉ f.value.printed) : f.onWire.Proper where
  some := by
    show uitoa f.tag ≠ []
    rw [uitoa_eq]
    exact decimal_ne_nil _
  digits := by
    show (uitoa f.tag).all isDigit = true
    rw [uitoa_eq]
    exact List.all_eq_true.2 (digits_decimal _)
  soh := soh

omit [Doubles F] in
/-- A text that ends at its SOH is read up to it. -/
theorem text_of_value {v : List UInt8} (soh : 1 ∉ v) :
    Bytes.text (.string (v ++ [1]) : FieldValue F) = .string v := by
  have read : (v ++ [1]).takeWhile (· ≠ 1) = v := by
    have plain : ∀ c ∈ v, decide (c ≠ 1) = true := by
      intro c hc
      refine decide_eq_true ?_
      rintro rfl
      exact soh hc
    rw [List.takeWhile_append_of_pos plain]
    exact List.append_nil v
  rw [Bytes.text, read]

/-- **A field on the wire** is read as it was printed. -/
theorem reported_on_wire {dialect : Dialect} {f : FixField F} (h : f.Carried dialect) :
    reported dialect f.onWire = some (f.readAs dialect) := by
  obtain ⟨plain, read, soh⟩ := h
  rw [reported, on_wire_number, FixField.readAs]
  by_cases string : dialect.tagType f.tag = .string
  · rw [if_pos string, string]
    exact congrArg (fun x => (some ⟨f.tag, x⟩ : Option (FixField F))) (text_of_value soh)
  · rw [if_neg string, read.resolve_left string]
    obtain ⟨tag, value⟩ := f
    cases value with
    | int v =>
      have back : fixAtoi64 (i64toa v ++ [1]) = v := by rw [i64toa_eq, atoi64_sprintf]
      exact congrArg (fun x => (some ⟨tag, .int x⟩ : Option (FixField F))) back
    | char c => rfl
    | string s => exact absurd (read.resolve_left string) string
    | float _ | checkSum _ | msgSeqNum | string8 _ => exact absurd plain (by simp only [FieldValue.type]; decide)

end

/-! ## Messages -/

/-- What the library's dialects have in common: the types of the tags of the frame and the header. -/
structure Dialect.Common (dialect : Dialect) : Prop where
  checkSum : dialect.tagType Tag.checkSum = .checkSum
  msgSeqNum : dialect.tagType Tag.msgSeqNum = .msgSeqNum
  senderCompId : dialect.tagType Tag.senderCompId = .string
  targetCompId : dialect.tagType Tag.targetCompId = .string
  sendingTime : dialect.tagType Tag.sendingTime = .string

section
variable {F : Type u} [Doubles F] {dialect : Dialect} {m : FixMessage F}

namespace FixMessage

/-- The fields a receiver is to see: those of the header but the sequence number, and those of the message. -/
def shown (m : FixMessage F) : List (FixField F) :=
  [.ofString Tag.senderCompId m.senderCompId, .ofString Tag.targetCompId m.targetCompId,
    .ofString Tag.sendingTime (strncpy m.strNow 64)] ++ m.fields

/-- A message, filled in by its session, of a known type and with a number of 31 bits, with at most 45 fields that
can be carried, that fits its buffers. -/
structure Conveyable (dialect : Dialect) (m : FixMessage F) : Prop where
  known : m.type ≠ .unknown
  number : m.msgSeqNum.toNat < 2 ^ 31
  few : m.fields.length ≤ 45
  fields : ∀ f ∈ m.fields, f.Carried dialect
  beginString : 1 ∉ cchars m.beginString
  senderCompId : 1 ∉ cchars m.senderCompId
  targetCompId : 1 ∉ cchars m.targetCompId
  strNow : 1 ∉ cchars m.strNow
  fits : m.Fits

instance (dialect : Dialect) (m : FixMessage F) : Decidable (m.Conveyable dialect) :=
  decidable_of_iff (m.type ≠ .unknown ∧ m.msgSeqNum.toNat < 2 ^ 31 ∧ m.fields.length ≤ 45 ∧
      (∀ f ∈ m.fields, f.Carried dialect) ∧ 1 ∉ cchars m.beginString ∧ 1 ∉ cchars m.senderCompId ∧
      1 ∉ cchars m.targetCompId ∧ 1 ∉ cchars m.strNow ∧ m.headSize ≤ fixMaxHeadLen ∧
      m.bodySize + checkSumSize ≤ fixMaxBodyLen)
    ⟨fun ⟨known, number, few, fields, begins, sender, target, now, fits⟩ =>
      ⟨known, number, few, fields, begins, sender, target, now, fits⟩,
      fun h => ⟨h.known, h.number, h.few, h.fields, h.beginString, h.senderCompId, h.targetCompId, h.strNow, h.fits⟩⟩

/-- A message as it was received: the type and the number of the one sent, and what it was to show. -/
structure Delivered (dialect : Dialect) (sent m : FixMessage F) : Prop where
  type : m.type = sent.type
  msgSeqNum : m.msgSeqNum = sent.msgSeqNum
  fields : m.fields.map FixField.text = sent.shown.map (FixField.readAs dialect)

/-- The field with the number. -/
def numberField (m : FixMessage F) : FixField F := .ofInt Tag.msgSeqNum m.msgSeqNum

end FixMessage

/-- The texts of the types are printed and read as they are. -/
theorem type_chars (t : MsgType) : 1 ∉ fixMsgTypes t ∧ cchars (cstr (fixMsgTypes t)) = fixMsgTypes t := by
  cases t <;> decide

omit [Doubles F] in
/-- The text of a known type is read as that type. -/
theorem type_of_text (known : m.type ≠ .unknown) : 1 ∉ m.typeText ∧ typeOf m.typeText = m.type := by
  obtain ⟨soh, same⟩ := type_chars m.type
  rw [FixMessage.typeText, if_pos known, same]
  exact ⟨soh, msg_type_text known []⟩

omit [Doubles F] in
/-- A time without a SOH is copied without one. -/
theorem strncpy_soh {p : List UInt8} {size : Nat} (soh : 1 ∉ cchars p) : 1 ∉ cchars (strncpy p size) := by
  intro one
  rcases List.mem_append.1 ((List.takeWhile_sublist _).subset one) with front | zeros
  · exact soh (List.mem_of_mem_take front)
  · exact absurd (List.mem_replicate.1 zeros).2 (by decide)

theorem shown_carried (common : dialect.Common) (h : m.Conveyable dialect) : ∀ f ∈ m.shown, f.Carried dialect := by
  have string : FixType.string ∈ [FixType.int, .char, .string] := by decide
  intro f hf
  rcases List.mem_append.1 hf with header | user
  · simp only [List.mem_cons, List.not_mem_nil, or_false] at header
    rcases header with rfl | rfl | rfl
    · exact ⟨string, .inl common.senderCompId, h.senderCompId⟩
    · exact ⟨string, .inl common.targetCompId, h.targetCompId⟩
    · exact ⟨string, .inl common.sendingTime, strncpy_soh h.strNow⟩
  · exact h.fields f user

/-- A field on the wire is the number or one that is to be shown. -/
theorem mem_on_wire {f : WireField} (h : f ∈ m.onWire.fields) :
    f = m.numberField.onWire ∨ ∃ g ∈ m.shown, f = g.onWire := by
  obtain ⟨g, hg, rfl⟩ := List.mem_map.1 h
  rcases List.mem_append.1 hg with header | user
  · simp only [FixMessage.headerFields, List.mem_cons, List.not_mem_nil, or_false] at header
    rcases header with rfl | rfl | rfl | rfl
    · exact .inr ⟨_, List.mem_append_left _ (by simp only [List.mem_cons, true_or]), rfl⟩
    · exact .inr ⟨_, List.mem_append_left _ (by simp only [List.mem_cons, true_or, or_true]), rfl⟩
    · exact .inl rfl
    · exact .inr ⟨_, List.mem_append_left _ (by simp only [List.mem_cons, true_or, or_true]), rfl⟩
  · exact .inr ⟨g, List.mem_append_right _ user, rfl⟩

/-- What is stored of fields that are carried. -/
theorem stored_on_wire {fs : List (FixField F)} (all : ∀ f ∈ fs, f.Carried dialect) :
    storedFields dialect (fs.map FixField.onWire) = fs.map (FixField.readAs dialect) := by
  induction fs with
  | nil => rfl
  | cons f fs ih =>
    have rest := ih fun g hg => all g (List.mem_cons_of_mem _ hg)
    rw [List.map_cons, stored_cons, reported_on_wire (all f List.mem_cons_self), rest]
    rfl

/-- What is stored of a message is what it is to show. -/
theorem message_stored (common : dialect.Common) (h : m.Conveyable dialect) :
    storedFields dialect m.onWire.fields = m.shown.map (FixField.readAs dialect) := by
  have carried := shown_carried common h
  have number : reported (F := F) dialect m.numberField.onWire = none := by
    rw [reported, on_wire_number]
    exact congrArg (Option.map _) (congrArg (storedValue · _) common.msgSeqNum)
  have split : storedFields (F := F) dialect m.onWire.fields =
      storedFields dialect ((m.shown.take 2).map FixField.onWire) ++ ((reported dialect m.numberField.onWire).toList ++
        storedFields dialect ((m.shown.drop 2).map FixField.onWire)) := by
    rw [← stored_cons]
    show storedFields dialect ((m.shown.take 2).map FixField.onWire ++
      (m.numberField.onWire :: (m.shown.drop 2).map FixField.onWire)) = _
    exact List.filterMap_append
  rw [split, number, Option.toList_none, List.nil_append,
    stored_on_wire fun f hf => carried f (List.mem_of_mem_take hf),
    stored_on_wire fun f hf => carried f (List.mem_of_mem_drop hf), ← List.map_append, List.take_append_drop]

omit [Doubles F] in
/-- The number is printed as digits, and read back. -/
theorem number_text (small : m.msgSeqNum.toNat < 2 ^ 31) : i64toa m.msgSeqNum = decimal m.msgSeqNum.toNat ∧
    (fixUatoi (i64toa m.msgSeqNum)).signExtend 64 = m.msgSeqNum := by
  have sign : m.msgSeqNum.msb = false := by
    rw [BitVec.msb_eq_decide, decide_eq_false_iff_not]
    omega
  have text : i64toa m.msgSeqNum = decimal m.msgSeqNum.toNat := by
    rw [i64toa_eq, sprintf64, sign, if_neg Bool.false_ne_true]
  refine ⟨text, ?_⟩
  have read : (BitVec.ofNat 32 m.msgSeqNum.toNat).msb = false := by
    rw [BitVec.msb_eq_decide, BitVec.toNat_ofNat, decide_eq_false_iff_not]
    omega
  rw [text, uatoi_digits (List.all_eq_true.2 (digits_decimal _)), value_decimal,
    BitVec.signExtend_eq_setWidth_of_msb_false read]
  refine BitVec.eq_of_toNat_eq ?_
  rw [BitVec.toNat_setWidth, BitVec.toNat_ofNat]
  omega

/-- The field typed MSGSEQNUM is that with the number. -/
theorem number_field (common : dialect.Common) (h : m.Conveyable dialect) {f : WireField} (hf : f ∈ m.onWire.fields)
    (type : dialect.tagType f.number = .msgSeqNum) : f = m.numberField.onWire := by
  rcases mem_on_wire hf with number | ⟨g, hg, rfl⟩
  · exact number
  · obtain ⟨plain, read, -⟩ := shown_carried common h g hg
    rw [on_wire_number] at type
    rw [type] at read
    rw [← read.resolve_left (by decide)] at plain
    exact absurd plain (by decide)

/-- A checksum is printed with three digits. -/
theorem check_sum_digits (m : FixMessage F) :
    m.onWire.checkSum.length = 3 ∧ m.onWire.checkSum.all isDigit = true := by
  have byte := m.onWire.front.sum.toNat_lt
  rw [m.on_wire_complete.checkSum]
  exact ⟨length_padded ((length_decimal_le (by decide)).2 (by omega)), List.all_eq_true.2 (digits_padded _ _)⟩

/-- Every value of a message that was sent ends at its SOH. -/
theorem message_proper (common : dialect.Common) (h : m.Conveyable dialect) : m.onWire.Proper where
  beginString := h.beginString
  bodyLength := m.on_wire_complete.digits
  msgType := (type_of_text h.known).1
  fields := by
    intro f hf
    rcases mem_on_wire hf with rfl | ⟨g, hg, rfl⟩
    · refine on_wire_proper ?_
      show 1 ∉ i64toa m.msgSeqNum
      rw [(number_text h.number).1]
      exact digits_no_soh (List.all_eq_true.2 (digits_decimal _))
    · exact on_wire_proper (shown_carried common h g hg).soh
  checkSum := (check_sum_digits m).2
  checkSumSome := by
    intro none
    have three := (check_sum_digits m).1
    rw [none] at three
    cases three

/-- No field of a message that was sent ends the loop over the fields, and none is left out. -/
theorem message_read (common : dialect.Common) (h : m.Conveyable dialect) {f : WireField} (hf : f ∈ m.onWire.fields) :
    dialect.tagType f.number ≠ .checkSum ∧ dialect.tagType f.number ≠ .string8 := by
  rcases mem_on_wire hf with rfl | ⟨g, hg, rfl⟩
  · rw [on_wire_number, show dialect.tagType m.numberField.tag = _ from common.msgSeqNum]
    decide
  · obtain ⟨plain, read, -⟩ := shown_carried common h g hg
    rw [on_wire_number]
    rcases read with string | own
    · rw [string]
      decide
    · rw [own]
      generalize g.value.type = type at plain
      constructor
      · rintro rfl
        exact absurd plain (by decide)
      · rintro rfl
        exact absurd plain (by decide)

/-- The text of a message that was sent is as long as what was printed for it. -/
theorem message_size (small : m.bodySize < 2 ^ 63) :
    m.onWire.text.length = m.headSize + m.bodySize + FixMessage.checkSumSize := by
  have front : m.onWire.front = m.headText ++ m.bodyText := by
    rw [FixMessage.on_wire_head small, ← FixMessage.on_wire_body, List.append_assoc]
    rfl
  have head : m.headText.length = m.headSize := by
    rw [FixMessage.headText, List.length_append, length_printed, length_printed, FixMessage.headSize]
  have body : m.bodyText.length = m.bodySize := by rw [← FixMessage.on_wire_body, m.body_size]
  have two : (chars "10").length = 2 := rfl
  rw [WireMessage.text, List.length_append, front, List.length_append, head, body, length_field_text, two,
    (check_sum_digits m).1, FixMessage.checkSumSize]

/-- **A message that was sent** is a well-formed one, and the library takes it. -/
theorem on_wire_sendable (common : dialect.Common) (h : m.Conveyable dialect) : Sendable F dialect m.onWire := by
  obtain ⟨headFits, bodyFits⟩ := h.fits
  have headMax : fixMaxHeadLen = 256 := rfl
  have bodyMax : fixMaxBodyLen = 1024 := rfl
  have wellFormed : WellFormed dialect m.onWire :=
    { proper := message_proper common h
      bodyLength := m.on_wire_complete.bodyLength
      size := by
        rw [m.body_size, fixMaxMessageSize]
        omega
      known := by
        rw [show typeOf m.onWire.msgType = m.type from (type_of_text h.known).2]
        exact h.known
      threeDigits := (check_sum_digits m).1
      checkSum := by rw [m.on_wire_complete.checkSum, value_padded]
      sumType := common.checkSum
      read := fun f hf => message_read common h hf
      agree := fun f hf g hg fType gType => by
        rw [number_field common h hf fType, number_field common h hg gType] }
  refine ⟨wellFormed, ?_, ?_⟩
  · rw [message_stored common h, List.length_map, FixMessage.shown, List.length_append]
    have few := h.few
    have three : fixMaxFieldNumber = 3 + 45 := rfl
    simp only [List.length_cons, List.length_nil]
    omega
  · rw [message_size (by omega), fixMaxMessageSize]
    omega

/-- **A message that arrives** is the one that was sent. -/
theorem arrived_delivered (common : dialect.Common) (h : m.Conveyable dialect) {r : FixMessage F}
    (arrived : Arrived dialect m.onWire r) : m.Delivered dialect r where
  type := arrived.type.trans (type_of_text h.known).2
  msgSeqNum := by
    have number : m.numberField.onWire ∈ m.onWire.fields :=
      List.mem_map_of_mem (List.mem_append_left _ (by
        simp only [FixMessage.headerFields, FixMessage.numberField, List.mem_cons, true_or, or_true]))
    have type : dialect.tagType m.numberField.onWire.number = .msgSeqNum := by
      rw [on_wire_number]
      exact common.msgSeqNum
    exact (arrived.msgSeqNum _ number type).trans (number_text h.number).2
  fields := arrived.fields.trans (message_stored common h)

end

/-! ## Sessions -/

namespace Session
variable {F : Type u} [Doubles F]

/-- Messages sent one after the other, each at the time whose text stands in front of it: as they were sent, and all
their bytes. -/
def sendAll (s : Session F) : List (List UInt8 × FixMessage F) → List (FixMessage F) × List UInt8
  | [] => ([], [])
  | (now, msg) :: posts =>
    let r := { s with strNow := now }.fixSessionSend msg 0
    let rest := r.1.sendAll posts
    (r.2 :: rest.1, r.1.wire ++ rest.2)

/-- The message that is due for the post `k` of a session, counted from 0: the caller's type and fields under the header
of the session, with the next number but `k` and the time of the post. -/
def due (s : Session F) (k : Nat) (post : List UInt8 × FixMessage F) : FixMessage F :=
  { post.2 with
    beginString := s.beginString
    senderCompId := s.senderCompId
    targetCompId := s.targetCompId
    msgSeqNum := s.outMsgSeqNum + .ofNat 64 k
    strNow := post.1 }

/-- The fields of the header of a post that its receiver sees. -/
def header (s : Session F) (now : List UInt8) : List (FixField F) :=
  [.ofString Tag.senderCompId s.senderCompId, .ofString Tag.targetCompId s.targetCompId,
    .ofString Tag.sendingTime (strncpy now 64)]

/-- A message as it is received for the post `k` of a session: its type, the number counted from the session's next one,
and the fields, the caller's behind those of the header. -/
structure Carries (dialect : Dialect) (s : Session F) (k : Nat) (post : List UInt8 × FixMessage F)
    (m : FixMessage F) : Prop where
  type : m.type = post.2.type
  msgSeqNum : m.msgSeqNum = s.outMsgSeqNum + .ofNat 64 k
  fields : m.fields.map FixField.text = (s.header post.1 ++ post.2.fields).map (FixField.readAs dialect)

omit [Doubles F] in
theorem due_succ (s : Session F) (now : List UInt8) (out : U64) (body head : Buffer) (k : Nat)
    (post : List UInt8 × FixMessage F) (next : out = s.outMsgSeqNum + 1) :
    { s with strNow := now, outMsgSeqNum := out, txHeadBuffer := head, txBodyBuffer := body }.due k post =
      s.due (k + 1) post := by
  have number : out + .ofNat 64 k = s.outMsgSeqNum + .ofNat 64 (k + 1) := by
    rw [next, BitVec.add_assoc, BitVec.ofNat_add, BitVec.add_comm 1]
    rfl
  exact congrArg (fun n => { post.2 with
    beginString := s.beginString, senderCompId := s.senderCompId, targetCompId := s.targetCompId, msgSeqNum := n,
    strNow := post.1 }) number

/-- **The messages sent** are the ones that are due, by induction on the posts. -/
theorem send_all_due (s : Session F) (posts : List (List UInt8 × FixMessage F)) :
    (s.sendAll posts).1 = posts.zipIdx.map fun p => s.due p.2 p.1 := by
  induction posts generalizing s with
  | nil => rfl
  | cons post posts ih =>
    obtain ⟨now, msg⟩ := post
    have first : s.due 0 (now, msg) = { s with strNow := now }.numbered msg 0 := by
      have number : s.outMsgSeqNum + .ofNat 64 0 = s.outMsgSeqNum := BitVec.add_zero _
      simp only [due, numbered, number, if_true]
    have later (p : (List UInt8 × FixMessage F) × Nat) :
        ({ s with strNow := now }.fixSessionSend msg 0).1.due p.2 p.1 = s.due (p.2 + 1) p.1 :=
      due_succ s now _ _ _ p.2 p.1 rfl
    rw [sendAll, List.zipIdx_cons', List.map_cons, List.map_map, first, ih]
    exact congrArg (_ :: ·) (List.map_congr_left fun p _ => later p)

/-- What a send leaves in the buffers is the message on the wire. -/
theorem send_wire {s : Session F} (h : s.Transmits) {msg : FixMessage F} {flags : U64}
    (printed : flags &&& preserveBuffer = 0) (fits : (s.numbered msg flags).Fits) :
    (s.fixSessionSend msg flags).1.wire = (s.numbered msg flags).onWire.text := by
  obtain ⟨head, body⟩ := fits
  have bodyMax : fixMaxBodyLen = 1024 := rfl
  have headEmpty : s.txHeadBuffer.bufferReset.start = 0 ∧ s.txHeadBuffer.bufferReset.stop = 0 := ⟨rfl, rfl⟩
  have bodyEmpty : s.txBodyBuffer.bufferReset.start = 0 ∧ s.txBodyBuffer.bufferReset.stop = 0 := ⟨rfl, rfl⟩
  have text := unparsed_on_wire headEmpty bodyEmpty (head.trans h.head.ge) (body.trans h.body.ge) (by omega)
  simp only [wire, fixSessionSend, unparsed, if_pos printed]
  exact text

/-- The bytes of all messages sent are the row of them. -/
theorem send_all_row {s : Session F} (h : s.Transmits) {posts : List (List UInt8 × FixMessage F)}
    (fits : ∀ m ∈ (s.sendAll posts).1, m.Fits) :
    (s.sendAll posts).2 = rowText ((s.sendAll posts).1.map FixMessage.onWire) := by
  induction posts generalizing s with
  | nil => rfl
  | cons post posts ih =>
    obtain ⟨now, msg⟩ := post
    have timed : { s with strNow := now }.Transmits := ⟨h.head, h.body⟩
    have printed : (0 : U64) &&& preserveBuffer = 0 := BitVec.zero_and
    have first := send_wire timed printed (fits _ List.mem_cons_self)
    have rest := ih (timed.send msg 0) fun m hm => fits m (List.mem_cons_of_mem _ hm)
    rw [sendAll, List.map_cons, rowText, List.flatMap_cons, first, rest]
    rfl

/-- **From session to session.** The posts of a session, sent one after the other, are received in order and with no
message between them, however their bytes are cut: each with the caller's type and fields and the number counted from the
session's next one. -/
theorem delivers {sender receiver : Session F} (common : receiver.dialect.Common) (sends : sender.Transmits)
    (receives : receiver.Receives) (fresh : receiver.rxBuffer.unread = []) {flags : U64} (typed : flags &&& noType = 0)
    {posts : List (List UInt8 × FixMessage F)}
    (all : ∀ p ∈ posts.zipIdx, (sender.due p.2 p.1).Conveyable receiver.dialect)
    {sock : Socket} (opened : ∀ x ∈ sock, x ≠ []) (cut : sock.flatten = (sender.sendAll posts).2) {n : Nat}
    (calls : posts.length + sock.flatten.length ≤ n) :
    List.Forall₂ (fun p m => sender.Carries receiver.dialect p.2 p.1 m) posts.zipIdx
      (messages (recvRun flags n receiver sock).1) := by
  have sent := send_all_due sender posts
  have conveyable : ∀ m ∈ (sender.sendAll posts).1, m.Conveyable receiver.dialect := by
    rw [sent]
    intro m hm
    obtain ⟨p, hp, rfl⟩ := List.mem_map.1 hm
    exact all p hp
  have row := send_all_row sends fun m hm => (conveyable m hm).fits
  have sendable : ∀ t ∈ (sender.sendAll posts).1.map FixMessage.onWire, Sendable F receiver.dialect t := by
    intro t ht
    obtain ⟨m, hm, rfl⟩ := List.mem_map.1 ht
    exact on_wire_sendable common (conveyable m hm)
  have awaits : receiver.Awaits receiver.dialect sock [] ((sender.sendAll posts).1.map FixMessage.onWire) := by
    refine ⟨receives, rfl, opened, ?_⟩
    rw [fresh, List.nil_append, List.append_nil, cut, row]
  obtain ⟨ts₁, ts₂, split, returned, -, left⟩ := run_arrives typed sendable awaits n
  have none : ts₂ = [] := by
    rw [List.length_map, sent, List.length_map, List.length_zipIdx] at left
    exact List.length_eq_zero_iff.1 (by omega)
  rw [none, List.append_nil] at split
  rw [← split, sent, List.map_map, List.forall₂_map_left_iff] at returned
  have both := (List.forall₂_and_left _ _).2 ⟨all, returned⟩
  refine both.imp fun p m h => ?_
  obtain ⟨type, number, fields⟩ := arrived_delivered common h.1 h.2
  exact ⟨type, number, fields⟩

end Session

/-- A ResendRequest, and a Heartbeat that answers a TestRequest. -/
def twoPosts : List (List UInt8 × FixMessage (List UInt8)) :=
  [(chars "20240102-10:00:00.000", FixMessage.init .resendRequest [.ofInt Tag.beginSeqNo 3, .ofInt Tag.endSeqNo (-1)]),
    (chars "20240102-10:00:00.125", FixMessage.init .heartbeat
      [.ofString Tag.testReqId (cstr (chars "ping")), ⟨Tag.multiLegReportingType, .char '1'.toNat.toUInt8⟩])]

/-- Two messages arrive byte by byte, with the numbers 5 and 6. -/
theorem two_delivered :
    List.Forall₂ (fun p m => sendingSession.Carries ⟨.fix44, fixTagType⟩ p.2 p.1 m) twoPosts.zipIdx
      (Session.messages (Session.recvRun 0 (2 + (sendingSession.sendAll twoPosts).2.length) sendingSession
        ((sendingSession.sendAll twoPosts).2.map fun c => [c])).1) := by
  have bytes : ((sendingSession.sendAll twoPosts).2.map fun c => [c]).flatten = (sendingSession.sendAll twoPosts).2 :=
    (List.flatMap_def ..).symm.trans (List.flatMap_singleton' _)
  have sends : sendingSession.Transmits := Session.new_transmits _ _
  have receives : sendingSession.Receives := Session.new_receives _ _
  have common : sendingSession.dialect.Common := ⟨rfl, rfl, rfl, rfl, rfl⟩
  refine Session.delivers common sends receives rfl flags_zero ?_ ?_ bytes ?_
  · exact List.forall_mem_cons.2 ⟨by decide, List.forall_mem_singleton.2 (by decide)⟩
  · intro x hx
    obtain ⟨c, -, rfl⟩ := List.mem_map.1 hx
    exact List.cons_ne_nil _ _
  · rw [bytes]
    have two : twoPosts.length ≤ 2 := by decide
    exact Nat.add_le_add_right two _

end Libtrading.Fix
