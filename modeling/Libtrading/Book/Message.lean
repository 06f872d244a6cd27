import Libtrading.Fast.Message
import Libtrading.Fix.MsgType

/-!
# What `fast_book.c` reads of a message

The book code reaches into decoded messages by name, with `fast_get_field`,
and looks at a field only after testing that it is there and not `EMPTY`.
`FieldRead` is that test; `MdMessage` and `MdEntry` list the fields it asks for.
-/

namespace Libtrading.Book
set_option autoImplicit false
open Fast

/-- `fast_get_field`: no such field, an `EMPTY` one, or its value. -/
inductive FieldRead (α : Type) where
  | missing
  | empty
  | value (v : α)
  deriving DecidableEq, Repr

namespace FieldRead
variable {α : Type}

/-- The value, where `!field || field_state_empty(field)` is false. -/
def get : FieldRead α → Option α
  | .value v => some v
  | _ => none

end FieldRead

/-- The size of an entry, by the types `md_increment` and `md_snapshot` accept. -/
inductive SizeValue where
  | int (v : I64)
  | decimal (d : Decimal)
  | other
  deriving DecidableEq, Repr

/-- An element of the `MDEntries` sequence. -/
structure MdEntry where
  securityId : FieldRead U64
  symbol : FieldRead Bytes
  tradingSessionId : FieldRead Bytes
  rptSeq : FieldRead U64
  mdEntryType : FieldRead Bytes
  mdEntrySize : FieldRead SizeValue
  mdEntryPx : FieldRead Decimal
  mdUpdateAction : FieldRead U64
  deriving DecidableEq, Repr

/-- The sequence: its length field, the running element 0, and the elements from 1 on. -/
structure MdEntries where
  length : FieldRead U64
  running : MdEntry
  elements : List MdEntry
  deriving DecidableEq, Repr

/-- A decoded message. `mdEntries` is `MDEntries`, or `GroupMDEntries` where there is none. -/
structure MdMessage where
  flagReset : Bool
  msgSeqNum : FieldRead U64
  messageType : FieldRead Bytes
  securityId : FieldRead U64
  symbol : FieldRead Bytes
  rptSeq : FieldRead U64
  lastMsgSeqNumProcessed : FieldRead U64
  mdEntries : FieldRead MdEntries
  deriving DecidableEq, Repr

namespace MdMessage

/-- `fix_msg_type_parse(field->string_value, 0x00)`, where the field is there. -/
def type (m : MdMessage) : Option Fix.MsgType := m.messageType.get.map (Fix.fixMsgTypeParse · 0)

end MdMessage

end Libtrading.Book
