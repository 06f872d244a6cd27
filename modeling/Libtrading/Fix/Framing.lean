import Libtrading.Fix.Report

/-!
# Framed messages

What a FIX message is on the wire, stated without a parser: BeginString,
BodyLength, the MsgType and the other fields that BodyLength counts, CheckSum.
`attempt_frame` is the parser on such bytes. `accepts_well_framed` says which of
the messages `fix_message_parse` accepts were framed and reported as they should.
-/

namespace Libtrading.Fix
open Buffer Wire Bytes
set_option autoImplicit false
universe u

/-- A field on the wire. -/
structure WireField where
  tag : List UInt8
  value : List UInt8
  deriving DecidableEq, Repr

namespace WireField

def text (f : WireField) : List UInt8 := fieldText f.tag f.value

/-- The tag as an `int`. -/
def number (f : WireField) : Tag := fixUatoi f.tag

/-- A tag of digits, and a value that ends at its SOH. -/
structure Proper (f : WireField) : Prop where
  some : f.tag ≠ []
  digits : f.tag.all isDigit = true
  soh : 1 ∉ f.value

end WireField

/-- The bytes of fields one behind the other. -/
def fieldsText (fs : List WireField) : List UInt8 := fs.flatMap WireField.text

/-- A message on the wire, as the values of its frame and the fields between MsgType and CheckSum. -/
structure WireMessage where
  beginString : List UInt8
  bodyLength : List UInt8
  msgType : List UInt8
  fields : List WireField
  checkSum : List UInt8
  deriving DecidableEq, Repr

namespace WireMessage

/-- What BodyLength counts. -/
def body (t : WireMessage) : List UInt8 := fieldText (chars "35") t.msgType ++ fieldsText t.fields

/-- What CheckSum sums. -/
def front (t : WireMessage) : List UInt8 :=
  fieldText (chars "8") t.beginString ++ (fieldText (chars "9") t.bodyLength ++ t.body)

def text (t : WireMessage) : List UInt8 := t.front ++ fieldText (chars "10") t.checkSum

/-- Every value ends at its SOH, and the two numbers of the frame are digits. -/
structure Proper (t : WireMessage) : Prop where
  beginString : 1 ∉ t.beginString
  bodyLength : t.bodyLength.all isDigit = true
  msgType : 1 ∉ t.msgType
  fields : ∀ f ∈ t.fields, f.Proper
  checkSum : t.checkSum.all isDigit = true
  checkSumSome : t.checkSum ≠ []

end WireMessage

/-- A text of digits has no SOH. -/
theorem digits_no_soh {t : List UInt8} (h : t.all isDigit = true) : 1 ∉ t :=
  fun hm => absurd (List.all_eq_true.1 h _ hm) (by decide)

/-! ## Reading numbers -/

theorem atoi_from_digits (w : Nat) (v : Nat) (t : List UInt8) (h : t.all isDigit = true) :
    atoiFrom w (.ofNat w v) t = .ofNat w (valueFrom v t) := by
  induction t generalizing v with
  | nil => rfl
  | cons c t ih =>
    rw [List.all_cons, Bool.and_eq_true] at h
    have step : (BitVec.ofNat w v * 10 + .ofNat w (digitValue c) : BitVec w) = .ofNat w (v * 10 + digitValue c) := by
      rw [BitVec.ofNat_add, BitVec.ofNat_mul]
      rfl
    rw [atoiFrom, if_pos h.1, step, ih _ h.2]
    rfl

/-- Digits are read as the number they denote, in an `int`. -/
theorem uatoi_digits {t : List UInt8} (h : t.all isDigit = true) : fixUatoi t = .ofNat 32 (value t) :=
  atoi_from_digits 32 0 t h

theorem uatoi_to_nat {t : List UInt8} (h : t.all isDigit = true) (small : value t < 2 ^ 32) :
    (fixUatoi t).toNat = value t := by
  rw [uatoi_digits h, BitVec.toNat_ofNat, Nat.mod_eq_of_lt small]

/-! ## Reports -/

section
variable {F : Type u} [Doubles F]

/-- The field reported for a field on the wire, if its type has one. -/
def reported (dialect : Dialect) (f : WireField) : Option (FixField F) :=
  (storedValue (dialect.tagType f.number) (f.value ++ [1])).map fun x => ⟨f.number, Bytes.text x⟩

/-- The fields of a message that are not typed MSGSEQNUM. -/
def plainFields (dialect : Dialect) (fs : List WireField) : List WireField :=
  fs.filter fun f => dialect.tagType f.number ≠ .msgSeqNum

/-- Every field is reported, in order, in the fields or as the sequence number. -/
structure Reports (dialect : Dialect) (fs : List WireField) (r : Rest F) : Prop where
  fields : (plainFields dialect fs).map (reported dialect) = r.fields.map some
  msgSeqNum : ∀ f ∈ fs, dialect.tagType f.number = .msgSeqNum → r.msgSeqNum = (fixUatoi f.value).signExtend 64

/-- **A well-framed message.** The bytes `w` are one message: its BodyLength denotes the number of
bytes from the MsgType tag up to the CheckSum tag, its CheckSum the sum of the bytes before it, and
every field between is reported. -/
def WellFramed (dialect : Dialect) (w : List UInt8) (m : Report F) : Prop :=
  ∃ t : WireMessage, t.Proper ∧ w = t.text ∧
    value t.bodyLength = t.body.length ∧ m.bodyLength.toNat = t.body.length ∧
    dialect.tagType Tag.checkSum = .checkSum ∧ value t.checkSum = t.front.sum.toNat ∧
    Reports dialect t.fields m.rest

/-- **Plainly written bytes.** The frame tags are written without leading zeros, BodyLength and
CheckSum are nothing but digits, and as many bytes as BodyLength says, from the MsgType tag on, are
fields that `rest_of_message` reads to the end: none typed CHECKSUM or skipped, and no two sequence
numbers that differ. -/
def PlainlyWritten (dialect : Dialect) (u : List UInt8) : Prop :=
  ∃ (t : WireMessage) (r : List UInt8), t.Proper ∧ u = t.text ++ r ∧
    value t.bodyLength = t.body.length ∧ value t.bodyLength ≤ fixMaxMessageSize ∧
    dialect.tagType Tag.checkSum = .checkSum ∧ value t.checkSum < 2 ^ 31 ∧
    (∀ f ∈ t.fields, dialect.tagType f.number ≠ .checkSum ∧ dialect.tagType f.number ≠ .string8) ∧
    ∀ f ∈ t.fields, ∀ g ∈ t.fields, dialect.tagType f.number = .msgSeqNum → dialect.tagType g.number = .msgSeqNum →
      fixUatoi f.value = fixUatoi g.value

/-! ## The field loop on fields -/

/-- The fields the loop stores. -/
def storedFields (dialect : Dialect) (fs : List WireField) : List (FixField F) := fs.filterMap (reported dialect)

/-- The sequence number after a field, `q` before it. -/
def seqNumAfter (dialect : Dialect) (q : U64) (f : WireField) : U64 :=
  if dialect.tagType f.number = .msgSeqNum then (fixUatoi f.value).signExtend 64 else q

/-- The sequence number after the fields. -/
def lastSeqNum (dialect : Dialect) (q : U64) (fs : List WireField) : U64 := fs.foldl (seqNumAfter dialect) q

theorem parse_field_text {f : WireField} (h : f.Proper) (r : List UInt8) :
    Bytes.parseField (f.text ++ r) = .done (f.number, f.value) r :=
  parse_field_done.2 ⟨f.tag, rfl, h.digits, rfl, h.soh⟩

/-- One turn of the field loop, on a proper field that does not end it. -/
theorem walk_field (dialect : Dialect) {f : WireField} (proper : f.Proper)
    (walked : dialect.tagType f.number ≠ .checkSum) (n : Nat) (q : U64) (acc : List (FixField F)) (r : List UInt8) :
    Bytes.restOfMessageFrom dialect (n + 1) ⟨q, acc⟩ (f.text ++ r) =
      match reported dialect f with
      | none => Bytes.restOfMessageFrom dialect n ⟨seqNumAfter dialect q f, acc⟩ r
      | some x =>
        if acc.length < fixMaxFieldNumber then
          Bytes.restOfMessageFrom dialect n ⟨seqNumAfter dialect q f, acc ++ [x]⟩ r
        else none := by
  rw [Bytes.restOfMessageFrom, parse_field_text proper, reported, seqNumAfter]
  cases type : dialect.tagType f.number with
  | checkSum => exact absurd type walked
  | msgSeqNum =>
    simp only [type]
    rfl
  | int | float | char | string | string8 =>
    simp only [type]
    cases (storedValue _ (f.value ++ [1]) : Option (FieldValue F)) <;> rfl

theorem fields_text_cons (f : WireField) (fs : List WireField) (r : List UInt8) :
    fieldsText (f :: fs) ++ r = f.text ++ (fieldsText fs ++ r) := by
  rw [fieldsText, List.flatMap_cons, List.append_assoc]
  rfl

theorem stored_cons (dialect : Dialect) (f : WireField) (fs : List WireField) :
    storedFields (F := F) dialect (f :: fs) = (reported dialect f).toList ++ storedFields dialect fs := by
  rw [storedFields, List.filterMap_cons]
  cases reported (F := F) dialect f <;> rfl

/-- The field loop on proper fields none of which ends it goes on behind them, with what they
report added, or has stored outside the array. -/
theorem walk_fields (dialect : Dialect) (fs : List WireField) (proper : ∀ f ∈ fs, f.Proper)
    (walked : ∀ f ∈ fs, dialect.tagType f.number ≠ .checkSum) (n : Nat) (q : U64) (acc : List (FixField F))
    (r : List UInt8) :
    (acc.length + (storedFields (F := F) dialect fs).length ≤ fixMaxFieldNumber →
      Bytes.restOfMessageFrom dialect (n + fs.length) ⟨q, acc⟩ (fieldsText fs ++ r) =
        Bytes.restOfMessageFrom dialect n ⟨lastSeqNum dialect q fs, acc ++ storedFields dialect fs⟩ r) ∧
    (acc.length ≤ fixMaxFieldNumber → fixMaxFieldNumber < acc.length + (storedFields (F := F) dialect fs).length →
      Bytes.restOfMessageFrom dialect (n + fs.length) ⟨q, acc⟩ (fieldsText fs ++ r) = none) := by
  induction fs generalizing q acc with
  | nil =>
    have none_stored : storedFields (F := F) dialect [] = [] := rfl
    rw [none_stored, List.append_nil]
    exact ⟨fun _ => rfl, fun room past => by rw [List.length_nil] at past; omega⟩
  | cons f fs ih =>
    have rest := ih (fun g hg => proper g (List.mem_cons_of_mem _ hg)) (fun g hg => walked g (List.mem_cons_of_mem _ hg))
    have step := walk_field (F := F) dialect (proper f (List.mem_cons_self ..)) (walked f (List.mem_cons_self ..))
      (n + fs.length) q acc (fieldsText fs ++ r)
    have turn : n + (f :: fs).length = (n + fs.length) + 1 := by
      rw [List.length_cons]
      omega
    have seq : lastSeqNum dialect q (f :: fs) = lastSeqNum dialect (seqNumAfter dialect q f) fs := rfl
    rw [fields_text_cons, turn, stored_cons, seq, step]
    cases reported (F := F) dialect f with
    | none =>
      simp only [Option.toList_none, List.nil_append]
      exact rest (seqNumAfter dialect q f) acc
    | some x =>
      simp only [Option.toList_some, List.singleton_append, List.length_cons]
      have next := rest (seqNumAfter dialect q f) (acc ++ [x])
      simp only [List.length_append, List.length_singleton, List.append_assoc, List.singleton_append] at next
      refine ⟨fun fits => ?_, fun room past => ?_⟩
      · rw [if_pos (by omega)]
        exact next.1 (by omega)
      · split
        · exact next.2 (by omega) (by omega)
        · rfl

/-- The field loop on a whole message: it ends behind the CheckSum. -/
theorem walk_message (dialect : Dialect) {t : WireMessage} (proper : t.Proper)
    (walked : ∀ f ∈ t.fields, dialect.tagType f.number ≠ .checkSum) (sum : dialect.tagType Tag.checkSum = .checkSum)
    (q : U64) (r : List UInt8) (n : Nat) :
    ((storedFields (F := F) dialect t.fields).length ≤ fixMaxFieldNumber →
      Bytes.restOfMessageFrom dialect (n + 1 + t.fields.length) ⟨q, []⟩
          (fieldsText t.fields ++ (fieldText (chars "10") t.checkSum ++ r)) =
        some (⟨lastSeqNum dialect q t.fields, storedFields (F := F) dialect t.fields⟩, r)) ∧
    (fixMaxFieldNumber < (storedFields (F := F) dialect t.fields).length →
      Bytes.restOfMessageFrom (F := F) dialect (n + 1 + t.fields.length) ⟨q, []⟩
          (fieldsText t.fields ++ (fieldText (chars "10") t.checkSum ++ r)) = none) := by
  have walk := walk_fields (F := F) dialect t.fields proper.fields walked (n + 1) q []
    (fieldText (chars "10") t.checkSum ++ r)
  simp only [List.length_nil, Nat.zero_add, List.nil_append] at walk
  have last : Bytes.parseField (fieldText (chars "10") t.checkSum ++ r) = .done (Tag.checkSum, t.checkSum) r :=
    parse_field_done.2 ⟨chars "10", rfl, rfl, rfl, digits_no_soh proper.checkSum⟩
  refine ⟨fun fits => ?_, fun past => walk.2 (Nat.zero_le _) past⟩
  rw [walk.1 fits, Bytes.restOfMessageFrom, last]
  simp only [sum]

/-! ## An attempt on a framed message -/

/-- A successful attempt, taken apart. -/
structure Accepted (dialect : Dialect) (flags : U64) (q : U64) (u : List UInt8) (m : Report F) (f : Bytes.Frame)
    (r₃ r : List UInt8) : Prop where
  head : Bytes.firstThreeFields u flags = .done f r₃
  sum : Bytes.checksum u f r₃ flags = .done () r₃
  fields : Bytes.restOfMessageFrom dialect (r₃.length + 1) ⟨q, []⟩ r₃ = some (m.rest, r)
  type : m.type = f.type
  bodyLength : m.bodyLength = f.bodyLength

theorem checksum_done {u r r' : List UInt8} {f : Bytes.Frame} {flags : U64}
    (h : Bytes.checksum u f r flags = .done () r') : r' = r := by
  rw [Bytes.checksum] at h
  split at h
  · cases h
  · split at h
    · cases h; rfl
    · split at h
      · cases h
      · split at h
        · cases h; rfl
        · cases h

theorem attempt_done {dialect : Dialect} {flags q : U64} {u r : List UInt8} {m : Report F} :
    attempt dialect flags q u = .done (some m) r ↔ ∃ f r₃, Accepted dialect flags q u m f r₃ r := by
  rw [attempt]
  constructor
  · intro h
    cases h3 : Bytes.firstThreeFields u flags with
    | stop ret r' => rw [h3] at h; cases h
    | done f r₃ =>
      rw [h3] at h
      simp only at h
      cases hc : Bytes.checksum u f r₃ flags with
      | stop ret r' => rw [hc] at h; cases h
      | done x r' =>
        rw [hc] at h
        obtain rfl := checksum_done hc
        simp only at h
        cases hr : Bytes.restOfMessageFrom (F := F) dialect (r'.length + 1) ⟨q, []⟩ r' with
        | none => rw [hr] at h; cases h
        | some p =>
          rw [hr] at h
          cases h
          exact ⟨f, r', h3, hc, hr, rfl, rfl⟩
  · rintro ⟨f, r₃, head, sum, fields, type, bodyLength⟩
    simp only [head, sum, fields]
    rw [← type, ← bodyLength]

/-- A parse that returns a message made a successful attempt on the bytes it starts with. -/
theorem parse_message {dialect : Dialect} {flags q : U64} {n : Nat} {u r : List UInt8} {m : Report F} {left : Nat}
    (h : Bytes.parseFrom dialect flags q n u = .message m left r) :
    left ≤ u.length ∧ attempt dialect flags q (last left u) = .done (some m) r := by
  induction n generalizing u with
  | zero => cases h
  | succ n ih =>
    rw [Bytes.parseFrom] at h
    split at h
    · cases h
    · cases ha : attempt (F := F) dialect flags q u with
      | stop ret r' =>
        rw [ha] at h
        cases ret with
        | msgPartial => cases h
        | garbled =>
          obtain ⟨inside, found⟩ := ih h
          have suffix : r' <:+ u := attempt_suffix (F := F) ha
          rw [last_last suffix inside] at found
          exact ⟨inside.trans suffix.length_le, found⟩
      | done o r' =>
        rw [ha] at h
        cases o with
        | none => cases h
        | some m' =>
          cases h
          exact ⟨Nat.le_refl _, by rw [last_length]; exact ha⟩

/-! ## Framing on the bytes of a message -/

/-- The bytes behind the BeginString field. -/
def WireMessage.behindBegin (t : WireMessage) (r : List UInt8) : List UInt8 :=
  fieldText (chars "9") t.bodyLength ++ (t.body ++ (fieldText (chars "10") t.checkSum ++ r))

/-- The bytes behind the MsgType field. -/
def WireMessage.behindType (t : WireMessage) (r : List UInt8) : List UInt8 :=
  fieldsText t.fields ++ (fieldText (chars "10") t.checkSum ++ r)

theorem text_append (t : WireMessage) (r : List UInt8) :
    t.text ++ r = fieldText (chars "8") t.beginString ++ t.behindBegin r := by
  simp only [WireMessage.text, WireMessage.front, WireMessage.behindBegin, List.append_assoc]

theorem body_append (t : WireMessage) (r : List UInt8) :
    t.body ++ (fieldText (chars "10") t.checkSum ++ r) = fieldText (chars "35") t.msgType ++ t.behindType r := by
  simp only [WireMessage.body, WireMessage.behindType, List.append_assoc]

/-- What `first_three_fields` finds in a message. -/
def WireMessage.frame (t : WireMessage) (type : MsgType) (r : List UInt8) : Bytes.Frame :=
  ⟨leftFrom t.beginString (t.behindBegin r), .ofNat 64 t.body.length, leftFrom t.msgType (t.behindType r), type⟩

theorem body_pos (t : WireMessage) : 4 ≤ t.body.length := by
  rw [WireMessage.body, List.length_append, length_field_text]
  have : (chars "35").length = 2 := rfl
  omega

/-- The BodyLength of a message is read, whatever follows. -/
theorem body_length_text {t : WireMessage} (proper : t.Proper) (len : value t.bodyLength = t.body.length)
    (le : value t.bodyLength ≤ fixMaxMessageSize) (u : List UInt8) :
    Bytes.parseBodyLength (fieldText (chars "9") t.bodyLength ++ u) = .done (.ofNat 64 t.body.length) u := by
  have h9 : Bytes.matchField (fieldText (chars "9") t.bodyLength ++ u) Tag.bodyLength = .done t.bodyLength u :=
    match_field_done.2 ⟨chars "9", rfl, rfl, rfl, digits_no_soh proper.bodyLength⟩
  have size : fixMaxMessageSize = 1280 := rfl
  have pos := body_pos t
  have number : (fixUatoi t.bodyLength).toNat = t.body.length := by
    rw [uatoi_to_nat proper.bodyLength (by omega), len]
  have int : (fixUatoi t.bodyLength).toInt = t.body.length := by
    rw [BitVec.toInt_eq_toNat_of_lt (by omega), number]
  have wide : (fixUatoi t.bodyLength).signExtend 64 = .ofNat 64 t.body.length := by
    apply BitVec.eq_of_toNat_eq
    rw [extend_small (by omega), number, BitVec.toNat_ofNat, Nat.mod_eq_of_lt (by omega)]
  rw [Bytes.parseBodyLength, h9]
  simp only
  rw [if_neg (by rw [int, size]; omega), wide]

theorem first_three_text {t : WireMessage} (proper : t.Proper) (len : value t.bodyLength = t.body.length)
    (le : value t.bodyLength ≤ fixMaxMessageSize) (flags : U64) (r : List UInt8) :
    Bytes.firstThreeFields (t.text ++ r) flags =
      if flags &&& noType ≠ 0 then .done (t.frame .unknown r) (t.behindType r)
      else if typeOf t.msgType = .unknown then .stop .garbled (t.behindType r)
      else .done (t.frame (typeOf t.msgType) r) (t.behindType r) := by
  have h8 : Bytes.matchField (t.text ++ r) Tag.beginString = .done t.beginString (t.behindBegin r) :=
    match_field_done.2 ⟨chars "8", text_append t r, rfl, rfl, proper.beginString⟩
  have h35 : Bytes.matchField (t.body ++ (fieldText (chars "10") t.checkSum ++ r)) Tag.msgType =
      .done t.msgType (t.behindType r) :=
    match_field_done.2 ⟨chars "35", body_append t r, rfl, rfl, proper.msgType⟩
  have body : Bytes.parseBodyLength (t.behindBegin r) =
      .done (.ofNat 64 t.body.length) (t.body ++ (fieldText (chars "10") t.checkSum ++ r)) :=
    body_length_text proper len le _
  rw [Bytes.firstThreeFields, h8]
  simp only [body, Bytes.parseMsgType, h35]
  by_cases any : flags &&& noType ≠ 0
  · simp only [if_pos any]
    rfl
  · simp only [if_neg any]
    by_cases unknown : typeOf t.msgType = .unknown
    · simp only [if_pos unknown]
    · simp only [if_neg unknown]
      rfl

/-- The places `checksum` looks at, in a message. -/
theorem checksum_text {t : WireMessage} (proper : t.Proper) (small : t.body.length < 2 ^ 64) (type : MsgType)
    (r : List UInt8) (size : 3 ≤ t.checkSum.length + r.length) (flags : U64) (summed : flags &&& noCsum = 0) :
    Bytes.checksum (t.text ++ r) (t.frame type r) (t.behindType r) flags =
      if t.front.sum.toNat = (fixUatoi t.checkSum).toInt then .done () (t.behindType r) else .stop .garbled r := by
  have len : (t.frame type r).bodyLength.toNat = t.body.length := by
    rw [WireMessage.frame, BitVec.toNat_ofNat, Nat.mod_eq_of_lt small]
  have ten : (chars "10").length = 2 := rfl
  have two : (chars "35").length = 2 := rfl
  have one : (chars "8").length = 1 := rfl
  have lengths := congrArg List.length (body_append t r)
  simp only [List.length_append, length_field_text, ten, two] at lengths
  have place : (t.frame type r).msgType + 3 = t.body.length + (fieldText (chars "10") t.checkSum ++ r).length := by
    simp only [WireMessage.frame, leftFrom, List.length_append, length_field_text, ten]
    omega
  have trailer : last ((t.frame type r).msgType + 3 - t.body.length) (t.text ++ r) =
      fieldText (chars "10") t.checkSum ++ r := by
    have suffix : fieldText (chars "10") t.checkSum ++ r <:+ t.text ++ r := by
      rw [WireMessage.text, List.append_assoc]
      exact List.suffix_append _ _
    rw [place, Nat.add_sub_cancel_left, last_of_suffix suffix]
  have h10 : Bytes.matchField (fieldText (chars "10") t.checkSum ++ r) Tag.checkSum = .done t.checkSum r :=
    match_field_done.2 ⟨chars "10", rfl, rfl, rfl, digits_no_soh proper.checkSum⟩
  have summing : sumLeft (t.text ++ r) ((t.frame type r).beginString + 2) (leftFrom t.checkSum r + 3) = t.front.sum := by
    have from' : (t.frame type r).beginString + 2 = (t.text ++ r).length := by
      rw [text_append]
      simp only [WireMessage.frame, leftFrom, List.length_append, length_field_text, one]
      omega
    have to' : (t.text ++ r).length - (leftFrom t.checkSum r + 3) = t.front.length := by
      simp only [WireMessage.text, leftFrom, List.length_append, length_field_text, ten]
      omega
    rw [sumLeft, from', last_length, to', WireMessage.text, List.append_assoc, List.take_left]
  rw [Bytes.checksum, len, if_neg (by rw [place, List.length_append, length_field_text, ten]; omega),
    if_neg (by rw [summed]; exact fun h => h rfl), trailer, h10]
  simp only [Bytes.verifyChecksum, summing, decide_eq_true_eq]

/-! ## Which accepted messages are well framed -/

theorem plain_cons (dialect : Dialect) (f : WireField) (fs : List WireField) :
    plainFields dialect (f :: fs) =
      if dialect.tagType f.number = .msgSeqNum then plainFields dialect fs else f :: plainFields dialect fs := by
  rw [plainFields, List.filter_cons]
  by_cases seq : dialect.tagType f.number = .msgSeqNum
  · rw [if_neg (by simpa using seq), if_pos seq]
    rfl
  · rw [if_pos (by simpa using seq), if_neg seq]
    rfl

/-- A type the field loop stores has a value. -/
theorem reported_some (dialect : Dialect) {f : WireField} (sum : dialect.tagType f.number ≠ .checkSum)
    (skipped : dialect.tagType f.number ≠ .string8) (seq : dialect.tagType f.number ≠ .msgSeqNum) :
    ∃ x, reported (F := F) dialect f = some x := by
  rw [reported]
  cases type : dialect.tagType f.number with
  | checkSum => exact absurd type sum
  | string8 => exact absurd type skipped
  | msgSeqNum => exact absurd type seq
  | int | float | char | string => exact ⟨_, rfl⟩

/-- Where no field is skipped, the stored fields are the reported ones, one for each. -/
theorem stored_reported (dialect : Dialect) (fs : List WireField)
    (read : ∀ f ∈ fs, dialect.tagType f.number ≠ .checkSum ∧ dialect.tagType f.number ≠ .string8) :
    (plainFields dialect fs).map (reported (F := F) dialect) = (storedFields dialect fs).map some := by
  induction fs with
  | nil => rfl
  | cons f fs ih =>
    have rest := ih fun g hg => read g (List.mem_cons_of_mem _ hg)
    obtain ⟨sum, skipped⟩ := read f (List.mem_cons_self ..)
    rw [plain_cons, stored_cons]
    by_cases seq : dialect.tagType f.number = .msgSeqNum
    · have none_reported : reported (F := F) dialect f = none := by
        rw [reported, seq]
        rfl
      rw [if_pos seq, none_reported, rest]
      rfl
    · obtain ⟨x, hx⟩ := reported_some (F := F) dialect sum skipped seq
      rw [if_neg seq, List.map_cons, rest, hx]
      rfl

/-- Where no two sequence numbers differ, the last one is each of them. -/
theorem last_seq_num (dialect : Dialect) (fs : List WireField) (q : U64)
    (agree : ∀ f ∈ fs, ∀ g ∈ fs, dialect.tagType f.number = .msgSeqNum → dialect.tagType g.number = .msgSeqNum →
      fixUatoi f.value = fixUatoi g.value) :
    ∀ f ∈ fs, dialect.tagType f.number = .msgSeqNum →
      lastSeqNum dialect q fs = (fixUatoi f.value).signExtend 64 := by
  have keeps (y : U64) (gs : List WireField) (all : ∀ g ∈ gs, dialect.tagType g.number = .msgSeqNum →
      (fixUatoi g.value).signExtend 64 = y) : lastSeqNum dialect y gs = y := by
    induction gs with
    | nil => rfl
    | cons g gs ih =>
      have one : seqNumAfter dialect y g = y := by
        rw [seqNumAfter]
        split
        · exact all g (List.mem_cons_self ..) ‹_›
        · rfl
      rw [lastSeqNum, List.foldl_cons, one]
      exact ih fun g hg => all g (List.mem_cons_of_mem _ hg)
  intro f hf seq
  induction fs generalizing q with
  | nil => exact absurd hf List.not_mem_nil
  | cons g gs ih =>
    rw [lastSeqNum, List.foldl_cons]
    by_cases here : dialect.tagType g.number = .msgSeqNum
    · have first : seqNumAfter dialect q g = (fixUatoi f.value).signExtend 64 := by
        rw [seqNumAfter, if_pos here, agree g (List.mem_cons_self ..) f hf here seq]
      rw [first]
      exact keeps _ gs fun g' hg' seq' => by rw [agree g' (List.mem_cons_of_mem _ hg') f hf seq' seq]
    · rcases List.mem_cons.1 hf with rfl | tail
      · exact absurd seq here
      · exact ih _ (fun a ha b hb => agree a (List.mem_cons_of_mem _ ha) b (List.mem_cons_of_mem _ hb)) tail

/-- A field takes a byte at least. -/
theorem WireMessage.fields_length (t : WireMessage) (r : List UInt8) : t.fields.length ≤ (t.behindType r).length := by
  have each (fs : List WireField) : fs.length ≤ (fieldsText fs).length := by
    induction fs with
    | nil => exact Nat.le_refl _
    | cons g gs ih =>
      have cons := congrArg List.length (fields_text_cons g gs [])
      simp only [List.append_nil, List.length_append, WireField.text, length_field_text] at cons
      rw [List.length_cons]
      omega
  have := each t.fields
  rw [WireMessage.behindType, List.length_append]
  omega

/-- The attempt of a plainly written message, once it is accepted, is well framed. -/
theorem plain_framed {dialect : Dialect} {flags q : U64} (summed : flags &&& noCsum = 0) {u r : List UInt8}
    {m : Report F} (accepted : attempt dialect flags q u = .done (some m) r) (plain : PlainlyWritten dialect u) :
    ∃ w, u = w ++ r ∧ WellFramed dialect w m := by
  obtain ⟨t, r', proper, rfl, len, le, sum, small, read, agree⟩ := plain
  obtain ⟨f, r₃, head, check, fields, type, bodyLength⟩ := attempt_done.1 accepted
  have size : fixMaxMessageSize = 1280 := rfl
  have found : ∃ type, f = t.frame type r' ∧ r₃ = t.behindType r' := by
    rw [first_three_text proper len le] at head
    split at head
    · cases head
      exact ⟨_, rfl, rfl⟩
    · split at head
      · cases head
      · cases head
        exact ⟨_, rfl, rfl⟩
  obtain ⟨type', rfl, rfl⟩ := found
  have enough : 3 ≤ t.checkSum.length + r'.length := by
    rw [Bytes.checksum] at check
    split at check
    · cases check
    · rename_i long
      have ten : (chars "10").length = 2 := rfl
      have two : (chars "35").length = 2 := rfl
      have lengths := congrArg List.length (body_append t r')
      simp only [List.length_append, length_field_text, ten, two] at lengths
      simp only [WireMessage.frame, leftFrom, BitVec.toNat_ofNat] at long
      rw [Nat.mod_eq_of_lt (by omega)] at long
      omega
  have digits := proper.checkSum
  have sumInt : (fixUatoi t.checkSum).toInt = value t.checkSum := by
    rw [BitVec.toInt_eq_toNat_of_lt (by rw [uatoi_to_nat digits (by omega)]; omega), uatoi_to_nat digits (by omega)]
  rw [checksum_text proper (by omega) type' r' enough flags summed, sumInt] at check
  have sums : value t.checkSum = t.front.sum.toNat := by
    split at check
    · omega
    · cases check
  have turns : (t.behindType r').length + 1 =
      ((t.behindType r').length - t.fields.length) + 1 + t.fields.length := by
    have := t.fields_length r'
    omega
  have walk := walk_message (F := F) dialect proper (fun g hg => (read g hg).1) sum q r'
    ((t.behindType r').length - t.fields.length)
  rw [turns, WireMessage.behindType] at fields
  rw [WireMessage.behindType] at walk
  by_cases fits : (storedFields (F := F) dialect t.fields).length ≤ fixMaxFieldNumber
  · rw [walk.1 fits] at fields
    obtain ⟨rest, rfl⟩ := Prod.mk.inj (Option.some.inj fields)
    refine ⟨t.text, rfl, t, proper, rfl, len, ?_, sum, sums, ?_⟩
    · rw [bodyLength, WireMessage.frame, BitVec.toNat_ofNat, Nat.mod_eq_of_lt (by omega)]
    · rw [← rest]
      exact ⟨stored_reported dialect t.fields read, last_seq_num dialect t.fields q agree⟩
  · rw [walk.2 (by omega)] at fields
    cases fields

/-- A well-framed message was plainly written. -/
theorem framed_plain {dialect : Dialect} {flags q : U64} {u w r : List UInt8} {m : Report F}
    (accepted : attempt dialect flags q u = .done (some m) r) (whole : u = w ++ r) (framed : WellFramed dialect w m) :
    PlainlyWritten dialect u := by
  obtain ⟨t, proper, rfl, len, reportedLen, sum, sums, fields, seq⟩ := framed
  obtain ⟨f, r₃, head, -, -, -, bodyLength⟩ := attempt_done.1 accepted
  have le : value t.bodyLength ≤ fixMaxMessageSize := by
    rw [len, ← reportedLen, bodyLength]
    exact (first_three_bound head).2
  have stored : ∀ g ∈ t.fields, dialect.tagType g.number ≠ .msgSeqNum → ∃ x : FixField F, reported dialect g = some x := by
    intro g hg plain
    have mem : reported (F := F) dialect g ∈ (plainFields dialect t.fields).map (reported dialect) :=
      List.mem_map.2 ⟨g, List.mem_filter.2 ⟨hg, by simpa using plain⟩, rfl⟩
    rw [fields] at mem
    obtain ⟨x, -, hx⟩ := List.mem_map.1 mem
    exact ⟨x, hx.symm⟩
  refine ⟨t, r, proper, whole, len, le, sum, by have := t.front.sum.toNat_lt; omega, ?_, ?_⟩
  · intro g hg
    refine ⟨fun type => ?_, fun type => ?_⟩
    all_goals
      obtain ⟨x, hx⟩ := stored g hg (by rw [type]; decide)
      rw [reported, type] at hx
      nomatch hx
  · intro g hg g' hg' type type'
    have same : (fixUatoi g.value).signExtend 64 = (fixUatoi g'.value).signExtend 64 :=
      (seq g hg type).symm.trans (seq g' hg' type')
    apply BitVec.eq_of_toInt_eq
    have int := congrArg BitVec.toInt same
    rwa [BitVec.toInt_signExtend_of_le (by decide), BitVec.toInt_signExtend_of_le (by decide)] at int

/-- **Framing.** Of the messages `fix_message_parse` accepts with the checksum looked at, those are
well framed, with the bytes consumed since the accepted BeginString tag as the message, that are
plainly written. -/
theorem accepts_well_framed (dialect : Dialect) (flags : U64) (summed : flags &&& noCsum = 0) {b c : Buffer}
    (hv : b.Valid) (self : FixMessage F) {m : FixMessage F} {start : Nat}
    (h : fixMessageParse dialect flags self b = .message m start c) :
    WellFramed dialect ((b.data.take c.start).drop start) m.report ↔
      PlainlyWritten dialect ((b.data.take b.stop).drop start) := by
  have agrees := parse_agrees dialect flags hv self
  rw [h] at agrees
  generalize hp : Bytes.parse (F := F) dialect flags self.msgSeqNum b.unread = p at agrees
  cases agrees with
  | message _ inside rest =>
    rename_i left r
    have accepted := (parse_message (hp : Bytes.parseFrom dialect flags self.msgSeqNum _ b.unread = _)).2
    have hl := length_unread hv
    have bytes : (b.data.take b.stop).drop (b.stop - left) = last left b.unread := by
      rw [last, hl, unread, List.drop_drop]
      congr 1
      have := hv.start_le
      omega
    have suffix : r <:+ last left b.unread := by
      rw [attempt_done] at accepted
      obtain ⟨f, r₃, acc⟩ := accepted
      exact (rest_suffix dialect _ _ _ acc.fields).trans (first_three_inside acc.head).rest
    have short := suffix.length_le
    rw [length_last inside] at short
    obtain ⟨w, whole⟩ := suffix
    have consumed : (b.data.take (b.leaving r.length).start).drop (b.stop - left) = w := by
      have cut : (b.data.take (b.leaving r.length).start).drop (b.stop - left) =
          ((b.data.take b.stop).drop (b.stop - left)).take (left - r.length) := by
        rw [List.take_drop, List.take_take]
        congr 2
        simp only [leaving]
        omega
      have len : w.length = left - r.length := by
        have := congrArg List.length whole
        rw [List.length_append, length_last inside] at this
        omega
      rw [cut, bytes, ← whole, ← len, List.take_left]
    rw [consumed, bytes]
    constructor
    · exact framed_plain accepted whole.symm
    · intro plain
      obtain ⟨w', whole', framed⟩ := plain_framed summed accepted plain
      rwa [List.append_cancel_right (whole.trans whole')]

end

/-- A well-framed message is as long as its BodyLength and the shortest frame. -/
theorem framed_length {F : Type u} [Doubles F] {dialect : Dialect} {w : List UInt8} {m : Report F}
    (h : WellFramed dialect w m) : m.bodyLength.toNat + 10 ≤ w.length := by
  obtain ⟨t, -, rfl, -, len, -⟩ := h
  have eight : (chars "8").length = 1 := rfl
  have nine : (chars "9").length = 1 := rfl
  have ten : (chars "10").length = 2 := rfl
  rw [len]
  simp only [WireMessage.text, WireMessage.front, List.length_append, length_field_text, eight, nine, ten]
  omega

/-- A Heartbeat with a TestReqID is plainly written, and well framed. -/
theorem framing_heartbeat :
    WellFramed ⟨.fix44, fixTagType⟩ (((sohBuffer "8=FIX.4.4|9=16|35=0|34=3|112=x|10=247|").data.take 38).drop 0)
      (parsedAfter "8=FIX.4.4|9=16|35=0|34=3|112=x|10=247|" 7).report := by
  refine (accepts_well_framed ⟨.fix44, fixTagType⟩ 0 rfl
    (c := (sohBuffer "8=FIX.4.4|9=16|35=0|34=3|112=x|10=247|").leaving 0) (soh_buffer_valid _) (holding 7) rfl).2 ?_
  have proper : WireMessage.Proper ⟨chars "FIX.4.4", chars "16", chars "0",
      [⟨chars "34", chars "3"⟩, ⟨chars "112", chars "x"⟩], chars "247"⟩ := by
    refine ⟨by decide, by decide, by decide, ?_, by decide, by decide⟩
    exact List.forall_mem_cons.2 ⟨⟨by decide, by decide, by decide⟩, List.forall_mem_singleton.2 ⟨by decide, by decide, by decide⟩⟩
  exact ⟨_, [], proper, by decide, by decide, by decide, by decide, by decide, by decide, by decide⟩

/-- A tag 10 inside the body: the message is accepted, the field loop stops at that tag, and Text is
neither reported nor consumed. -/
theorem inner_check_sum :
    ∃ c, fixMessageParse ⟨.fix44, fixTagType⟩ 0 (holding 7) (sohBuffer "8=FIX.4.4|9=23|35=0|34=2|10=5|58=late|10=207|") =
        .message (parsedAfter "8=FIX.4.4|9=23|35=0|34=2|10=5|58=late|10=207|" 7) 0 c ∧
      ¬ WellFramed ⟨.fix44, fixTagType⟩
        (((sohBuffer "8=FIX.4.4|9=23|35=0|34=2|10=5|58=late|10=207|").data.take c.start).drop 0)
        (parsedAfter "8=FIX.4.4|9=23|35=0|34=2|10=5|58=late|10=207|" 7).report :=
  ⟨(sohBuffer "8=FIX.4.4|9=23|35=0|34=2|10=5|58=late|10=207|").leaving 15, rfl,
    fun h => absurd (framed_length h) (by decide +kernel)⟩

end Libtrading.Fix
