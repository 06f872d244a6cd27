import Libtrading.Fix.Unparse

/-!
# Parsing messages: `fix_message_parse`

The parser works on the receive buffer in place. A message is framed first:
`first_three_fields` reads BeginString, BodyLength and MsgType, `checksum` jumps
to where BodyLength says the CheckSum is and back; then `rest_of_message` walks
the fields. An attempt that finds a garbled message leaves the buffer behind
what it rejected and the next one starts there.
-/

namespace Libtrading.Fix
open Buffer Wire
set_option autoImplicit false
universe u v

/-- `FIX_MSG_STATE_PARTIAL` and `FIX_MSG_STATE_GARBLED`. -/
inductive MsgState where
  | msgPartial
  | garbled
  deriving DecidableEq, Repr

/-- What a reader finds, or why it finds nothing, and where it leaves its input. -/
inductive Scan (α : Type u) (β : Type v) where
  | done (value : α) (rest : β)
  | stop (ret : MsgState) (rest : β)
  deriving DecidableEq, Repr

/-- `FIX_PARSE_FLAG_NO_CSUM`. -/
def noCsum : U64 := 1

/-- `FIX_PARSE_FLAG_NO_TYPE`. -/
def noType : U64 := 2

/-! ## Numbers -/

/-- The digits of a number, read in an `int` of `w` bits; signed overflow wraps. -/
def atoiFrom (w : Nat) (ret : BitVec w) : List UInt8 → BitVec w
  | [] => ret
  | c :: s => if isDigit c then atoiFrom w (ret * 10 + .ofNat w (digitValue c)) s else ret

/-- `fix_uatoi`. -/
def fixUatoi (p : List UInt8) : BitVec 32 := atoiFrom 32 0 p

/-- The `end` of `fix_uatoi`, as the number of digits read. -/
def fixUatoiEnd (p : List UInt8) : Nat := (p.takeWhile isDigit).length

/-- `fix_atoi64`. -/
def fixAtoi64 (p : List UInt8) : U64 :=
  if p.headD 0 = '-'.toNat.toUInt8 then -atoiFrom 64 0 p.tail else atoiFrom 64 0 p

/-! ## Fields -/

/-- `parse_tag`. -/
def parseTag (b : Buffer) : Scan Tag Buffer :=
  match b.bufferFind '='.toNat.toUInt8 with
  | (false, delim) => .stop .msgPartial delim
  | (true, delim) =>
    if b.start + fixUatoiEnd (b.data.drop b.start) ≠ delim.start then .stop .garbled delim
    else .done (fixUatoi (b.data.drop b.start)) (delim.bufferAdvance 1)

/-- `parse_value`; the value is the index of its first byte. -/
def parseValue (b : Buffer) : Scan Nat Buffer :=
  match b.bufferFind 1 with
  | (false, delim) => .stop .msgPartial delim
  | (true, delim) => .done b.start (delim.bufferAdvance 1)

/-- `next_tag`. -/
def nextTag (b : Buffer) : Buffer :=
  match b.bufferFind 1 with
  | (false, delim) => delim
  | (true, delim) => delim.bufferAdvance 1

/-- `match_field`. -/
def matchField (b : Buffer) (tag : Tag) : Scan Nat Buffer :=
  match parseTag b with
  | .stop ret b => .stop ret (nextTag b)
  | .done ptag b => if ptag ≠ tag then .stop .garbled (nextTag b) else parseValue b

/-- `parse_field`. -/
def parseField (b : Buffer) : Scan (Tag × Nat) Buffer :=
  match parseTag b with
  | .stop ret b => .stop ret (nextTag b)
  | .done tag b =>
    match parseValue b with
    | .stop ret b => .stop ret b
    | .done value b => .done (tag, value) b

/-! ## The frame -/

/-- The members of the message that framing sets; the pointers are indices. -/
structure Frame where
  beginString : Nat
  bodyLength : U64
  msgType : Nat
  type : MsgType
  deriving DecidableEq, Repr

/-- `parse_body_length`. -/
def parseBodyLength (b : Buffer) : Scan U64 Buffer :=
  match matchField b Tag.bodyLength with
  | .stop ret b => .stop ret b
  | .done ptr b =>
    let len := fixUatoi (b.data.drop ptr)
    if len.toInt ≤ 0 ∨ (fixMaxMessageSize : Int) < len.toInt then .stop .garbled b
    else .done (len.signExtend 64) b

/-- `parse_msg_type`. -/
def parseMsgType (b : Buffer) (flags : U64) : Scan (Nat × MsgType) Buffer :=
  match matchField b Tag.msgType with
  | .stop ret b => .stop ret b
  | .done ptr b =>
    if flags &&& noType ≠ 0 then .done (ptr, .unknown) b
    else if fixMsgTypeParse (b.data.drop ptr) 1 = .unknown then .stop .garbled b
    else .done (ptr, fixMsgTypeParse (b.data.drop ptr) 1) b

/-- `first_three_fields`, with `parse_begin_string`. -/
def firstThreeFields (b : Buffer) (flags : U64) : Scan Frame Buffer :=
  match matchField b Tag.beginString with
  | .stop ret b => .stop ret b
  | .done beginString b =>
    match parseBodyLength b with
    | .stop ret b => .stop ret b
    | .done bodyLength b =>
      match parseMsgType b flags with
      | .stop ret b => .stop ret b
      | .done (msgType, type) b => .done ⟨beginString, bodyLength, msgType, type⟩ b

/-- `verify_checksum`. -/
def verifyChecksum (f : Frame) (checkSum : Nat) (b : Buffer) : Bool :=
  (bufferSumRange b.data (f.beginString - 2) (checkSum - 3)).toNat = (fixUatoi (b.data.drop checkSum)).toInt

/-- `checksum`: the index of the CheckSum, none where it is not looked for, and the buffer back
where it was. -/
def checksum (f : Frame) (b : Buffer) (flags : U64) : Scan (Option Nat) Buffer :=
  -- The number of bytes between tag MsgType and buffer's start
  let offset := b.start - (f.msgType - 3)
  if b.bufferSize + offset < f.bodyLength.toNat + 7 then .stop .msgPartial b
  else if flags &&& noCsum ≠ 0 then .done none b
  else
    -- Buffer's start will point to the CheckSum tag
    match matchField (b.rewind (b.start + f.bodyLength.toNat - offset)) Tag.checkSum with
    | .stop ret b => .stop ret b
    | .done checkSum b' =>
      if verifyChecksum f checkSum b' then .done (some checkSum) (b'.rewind b.start)
      else .stop .garbled b'

/-! ## The fields of a message -/

/-- What `rest_of_message` has stored so far. -/
structure Rest (F : Type u) where
  msgSeqNum : U64
  fields : List (FixField F)
  deriving DecidableEq, Repr

section
variable {F : Type u} [Doubles F]

/-- The field `rest_of_message` stores for a value, if it stores one. -/
def storedValue (type : FixType) (p : List UInt8) : Option (FieldValue F) :=
  match type with
  | .int => some (.int (fixAtoi64 p))
  | .float => some (.float (Doubles.strtod (p.takeWhile (· ≠ 1))))
  | .char => some (.char (p.headD 0))
  | .string => some (.string p)
  | .checkSum | .msgSeqNum | .string8 => none

/-- The loop of `rest_of_message`, which reads a field in every turn; `none` is a store outside
the array of fields. A field that cannot be read leaves `nr_fields` at 0. -/
def restOfMessageFrom (dialect : Dialect) : Nat → Rest F → Buffer → Option (Rest F × Buffer)
  | 0, r, b => some ({ r with fields := [] }, b)
  | turns + 1, r, b =>
    match parseField b with
    | .stop _ b => some ({ r with fields := [] }, b)
    | .done (tag, value) b =>
      match dialect.tagType tag with
      | .checkSum => some (r, b)
      | .msgSeqNum =>
        restOfMessageFrom dialect turns
          { r with msgSeqNum := (fixUatoi (b.data.drop value)).signExtend 64 } b
      | type =>
        match storedValue type (b.data.drop value) with
        | none => restOfMessageFrom dialect turns r b
        | some v =>
          if r.fields.length < fixMaxFieldNumber then
            restOfMessageFrom dialect turns { r with fields := r.fields ++ [⟨tag, v⟩] } b
          else none

/-- `rest_of_message`; `msgSeqNum` is the number the message holds. -/
def restOfMessage (dialect : Dialect) (msgSeqNum : U64) (b : Buffer) : Option (Rest F × Buffer) :=
  restOfMessageFrom dialect (b.bufferSize + 1) ⟨msgSeqNum, []⟩ b

/-! ## A message -/

/-- What `fix_message_parse` does: returns 0 with the message and the index its iovec starts at,
returns -1, or stores outside the array of fields, after which C says nothing. -/
inductive Parsed (F : Type u) where
  | message (m : FixMessage F) (start : Nat) (buffer : Buffer)
  | waits (buffer : Buffer)
  | fault
  deriving DecidableEq, Repr

/-- The message after a successful attempt; `self` is the struct before it. -/
def FixMessage.parsed (self : FixMessage F) (f : Frame) (checkSum : Option Nat) (r : Rest F) (data : List UInt8) :
    FixMessage F :=
  { self with
    type := f.type
    beginString := data.drop f.beginString
    bodyLength := f.bodyLength
    msgType := data.drop f.msgType
    msgSeqNum := r.msgSeqNum
    checkSum := (checkSum.map data.drop).getD self.checkSum
    fields := r.fields }

/-- The `retry` loop of `fix_message_parse`; an attempt that fails garbled has moved the buffer on,
so there is one for every unread byte at most. -/
def fixMessageParseFrom (dialect : Dialect) (flags : U64) : Nat → FixMessage F → Buffer → Parsed F
  | 0, _, b => .waits b
  | attempts + 1, self, b =>
    if b.bufferSize = 0 then .waits b
    else
      match firstThreeFields b flags with
      | .stop .msgPartial b' => .waits (b'.rewind b.start)
      | .stop .garbled b' => fixMessageParseFrom dialect flags attempts self b'
      | .done f b' =>
        match checksum f b' flags with
        | .stop .msgPartial b' => .waits (b'.rewind b.start)
        | .stop .garbled b' => fixMessageParseFrom dialect flags attempts self b'
        | .done checkSum b' =>
          match restOfMessage dialect self.msgSeqNum b' with
          | none => .fault
          | some (r, b') => .message (self.parsed f checkSum r b'.data) b.start b'

/-- `fix_message_parse`. -/
def fixMessageParse (dialect : Dialect) (flags : U64) (self : FixMessage F) (b : Buffer) : Parsed F :=
  fixMessageParseFrom dialect flags (b.bufferSize + 1) self b

end

end Libtrading.Fix
