import Libtrading.Fix.MsgType

/-!
# `struct fix_field` and `struct fix_message`

The data a FIX message is made of. A pointer into a text is modelled by the
memory from it on, so that reading past the text is reading what follows it
there: a received text ends at its SOH, a text of the program at its zero.
The `double` of a FLOAT field is a type of its own, `F`, which only the
routines that read and print it look into.
-/

namespace Libtrading.Fix
set_option autoImplicit false
universe u

/-- `unsigned long` and `int64_t`. -/
abbrev U64 := BitVec 64

/-- A tag, an `int`. -/
abbrev Tag := BitVec 32

/-! ## `enum fix_tag` -/

namespace Tag
def account : Tag := 1
def avgPx : Tag := 6
def beginSeqNo : Tag := 7
def beginString : Tag := 8
def bodyLength : Tag := 9
def checkSum : Tag := 10
def clOrdId : Tag := 11
def cumQty : Tag := 14
def endSeqNo : Tag := 16
def execId : Tag := 17
def execTransType : Tag := 20
def lastPx : Tag := 31
def lastShares : Tag := 32
def msgSeqNum : Tag := 34
def msgType : Tag := 35
def newSeqNo : Tag := 36
def orderId : Tag := 37
def orderQty : Tag := 38
def ordStatus : Tag := 39
def ordType : Tag := 40
def origClOrdId : Tag := 41
def possDupFlag : Tag := 43
def price : Tag := 44
def refSeqNum : Tag := 45
def securityId : Tag := 48
def senderCompId : Tag := 49
def sendingTime : Tag := 52
def side : Tag := 54
def symbol : Tag := 55
def targetCompId : Tag := 56
def text : Tag := 58
def transactTime : Tag := 60
def rptSeq : Tag := 83
def ordRejReason : Tag := 103
def testReqId : Tag := 112
def gapFillFlag : Tag := 123
def execType : Tag := 150
def leavesQty : Tag := 151
def mdEntryType : Tag := 269
def mdEntryPx : Tag := 270
def mdEntrySize : Tag := 271
def mdUpdateAction : Tag := 279
def tradingSessionId : Tag := 336
def lastMsgSeqNumProcessed : Tag := 369
def multiLegReportingType : Tag := 442
def password : Tag := 554
def mdPriceLevel : Tag := 1023
end Tag

/-! ## Fields -/

/-- `enum fix_type`. -/
inductive FixType where
  | int
  | float
  | char
  | string
  | checkSum
  | msgSeqNum
  | string8
  deriving DecidableEq, Repr

/-- The `type` of a field with the member of the union it selects. -/
inductive FieldValue (F : Type u) where
  | int (value : U64)
  | float (value : F)
  | char (value : UInt8)
  | string (value : List UInt8)
  | checkSum (value : U64)
  | msgSeqNum
  | string8 (value : List UInt8)
  deriving DecidableEq, Repr

/-- `struct fix_field`. -/
structure FixField (F : Type u) where
  tag : Tag
  value : FieldValue F
  deriving DecidableEq, Repr

namespace FixField
variable {F : Type u}

/-- `field->int_value`, read of INT fields only. -/
def intValue (f : FixField F) : U64 :=
  match f.value with
  | .int v | .checkSum v => v
  | _ => 0

/-- `field->string_value`, read of STRING fields only. -/
def stringValue (f : FixField F) : List UInt8 :=
  match f.value with
  | .string s => s
  | _ => []

/-- `FIX_INT_FIELD`. -/
def ofInt (t : Tag) (v : U64) : FixField F := ⟨t, .int v⟩

/-- `FIX_STRING_FIELD`. -/
def ofString (t : Tag) (s : List UInt8) : FixField F := ⟨t, .string s⟩

/-- `FIX_CHECKSUM_FIELD`. -/
def ofCheckSum (t : Tag) (v : U64) : FixField F := ⟨t, .checkSum v⟩

end FixField

/-- A text of the program: its characters and the terminating zero. -/
def cstr (s : List UInt8) : List UInt8 := s ++ [0]

/-- The characters of a C string. -/
def cchars (p : List UInt8) : List UInt8 := p.takeWhile (· ≠ 0)

/-- The bytes of a FIX text, written with a bar for the SOH. -/
def sohText (s : String) : List UInt8 := (chars s).map fun c => if c = '|'.toNat.toUInt8 then 1 else c

/-- A buffer that has received a text. -/
def sohBuffer (s : String) : Buffer := ⟨sohText s, 0, (sohText s).length⟩

theorem soh_buffer_valid (s : String) : (sohBuffer s).Valid := ⟨Nat.zero_le _, Nat.le_refl _⟩

/-! ## Dialects -/

/-- `enum fix_version`, in the order of its values. -/
inductive Version where
  | fix40
  | fix41
  | fix42
  | fix43
  | fix44
  | fix50
  | fixt11
  deriving DecidableEq, Repr

/-- The value of the enumeration, which the code compares. -/
def Version.toNat : Version → Nat
  | .fix40 => 0
  | .fix41 => 1
  | .fix42 => 2
  | .fix43 => 3
  | .fix44 => 4
  | .fix50 => 5
  | .fixt11 => 6

/-- `struct fix_dialect`. -/
structure Dialect where
  version : Version
  tagType : Tag → FixType

/-- `fix_tag_type`. -/
def fixTagType (tag : Tag) : FixType :=
  if tag = Tag.checkSum then .checkSum
  else if tag ∈ [Tag.lastMsgSeqNumProcessed, Tag.mdPriceLevel, Tag.beginSeqNo, Tag.refSeqNum, Tag.endSeqNo,
      Tag.newSeqNo, Tag.rptSeq] then .int
  else if tag ∈ [Tag.gapFillFlag, Tag.possDupFlag, Tag.securityId, Tag.testReqId] then .string
  else if tag = Tag.msgSeqNum then .msgSeqNum
  else if tag ∈ [Tag.mdEntrySize, Tag.lastShares, Tag.leavesQty, Tag.mdEntryPx, Tag.orderQty, Tag.cumQty,
      Tag.lastPx, Tag.avgPx, Tag.price] then .float
  else if tag ∈ [Tag.tradingSessionId, Tag.mdUpdateAction, Tag.transactTime, Tag.execTransType, Tag.origClOrdId,
      Tag.mdEntryType, Tag.ordStatus, Tag.execType, Tag.password, Tag.account, Tag.clOrdId, Tag.orderId, Tag.ordType,
      Tag.execId, Tag.symbol, Tag.side, Tag.text] then .string
  else if tag = Tag.ordRejReason then .int
  else if tag = Tag.multiLegReportingType then .char
  else .string

/-- `fix_dialects`; there is no entry for `FIX_5_0`. -/
def fixDialects : Version → Option Dialect
  | .fix50 => none
  | v => some ⟨v, fixTagType⟩

/-! ## Messages -/

/-- `FIX_MAX_HEAD_LEN`. -/
def fixMaxHeadLen : Nat := 256

/-- `FIX_MAX_BODY_LEN`. -/
def fixMaxBodyLen : Nat := 1024

/-- `FIX_MAX_MESSAGE_SIZE`. -/
def fixMaxMessageSize : Nat := fixMaxHeadLen + fixMaxBodyLen

/-- `FIX_MAX_FIELD_NUMBER`. -/
def fixMaxFieldNumber : Nat := 48

/-- `struct fix_message`, less the buffers and the iovec; `fields` are the first `nr_fields`
of its array. -/
structure FixMessage (F : Type u) where
  type : MsgType
  beginString : List UInt8
  bodyLength : U64
  msgType : List UInt8
  senderCompId : List UInt8
  targetCompId : List UInt8
  msgSeqNum : U64
  checkSum : List UInt8
  strNow : List UInt8
  fields : List (FixField F)
  deriving DecidableEq, Repr

namespace FixMessage
variable {F : Type u}

/-- A zero-initialised message with a type and fields. -/
def init (type : MsgType) (fields : List (FixField F)) : FixMessage F :=
  ⟨type, [], 0, [], [], [], 0, [], [], fields⟩

/-- `fix_get_field`. -/
def fixGetField (m : FixMessage F) (tag : Tag) : Option (FixField F) :=
  m.fields.find? fun f => f.tag = tag

/-- `fix_message_type_is`. -/
def fixMessageTypeIs (m : FixMessage F) (type : MsgType) : Bool := m.type = type

end FixMessage

/-- `fix_get_string`: the text up to its SOH, if there is one in the first `len` bytes. -/
def fixGetString {F : Type u} (f : FixField F) (len : Nat) : Option (List UInt8) :=
  if (1 : UInt8) ∈ f.stringValue.take len then some (cchars (f.stringValue.takeWhile (· ≠ 1))) else none

end Libtrading.Fix
