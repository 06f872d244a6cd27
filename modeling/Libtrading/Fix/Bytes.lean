import Libtrading.Fix.Parse
import Libtrading.Wire.Delimited

/-!
# The parser on the unread bytes

`fix_message_parse` as a function of the bytes it has not read: every reader
takes the unread bytes and returns those it leaves, a value is its text without
the SOH, and a place in the buffer is the number of bytes left from there on.
`Fix.ParseFacts` proves that the parser of the source does this, wherever the
bytes stand in the buffer and whatever lies behind them.
-/

namespace Libtrading.Fix.Bytes
open Wire
set_option autoImplicit false
universe u

/-- `parse_tag` on the unread bytes. -/
def parseTag (u : List UInt8) : Scan Tag (List UInt8) :=
  match cut '='.toNat.toUInt8 u with
  | none => .stop .msgPartial []
  | some (t, r) => if t.all isDigit then .done (fixUatoi t) r else .stop .garbled ('='.toNat.toUInt8 :: r)

/-- `parse_value` on the unread bytes. -/
def parseValue (u : List UInt8) : Scan (List UInt8) (List UInt8) :=
  match cut 1 u with
  | none => .stop .msgPartial []
  | some (v, r) => .done v r

/-- `next_tag` on the unread bytes. -/
def nextTag (u : List UInt8) : List UInt8 :=
  match cut 1 u with
  | none => []
  | some (_, r) => r

/-- `match_field` on the unread bytes. -/
def matchField (u : List UInt8) (tag : Tag) : Scan (List UInt8) (List UInt8) :=
  match parseTag u with
  | .stop ret r => .stop ret (nextTag r)
  | .done ptag r => if ptag ≠ tag then .stop .garbled (nextTag r) else parseValue r

/-- `parse_field` on the unread bytes. -/
def parseField (u : List UInt8) : Scan (Tag × List UInt8) (List UInt8) :=
  match parseTag u with
  | .stop ret r => .stop ret (nextTag r)
  | .done tag r =>
    match parseValue r with
    | .stop ret r => .stop ret r
    | .done v r => .done (tag, v) r

/-- The frame of a message, its values named by the bytes left from them on. -/
structure Frame where
  beginString : Nat
  bodyLength : U64
  msgType : Nat
  type : MsgType
  deriving DecidableEq, Repr

/-- `parse_body_length` on the unread bytes. -/
def parseBodyLength (u : List UInt8) : Scan U64 (List UInt8) :=
  match matchField u Tag.bodyLength with
  | .stop ret r => .stop ret r
  | .done v r =>
    if (fixUatoi v).toInt ≤ 0 ∨ (fixMaxMessageSize : Int) < (fixUatoi v).toInt then .stop .garbled r
    else .done ((fixUatoi v).signExtend 64) r

/-- The type a text names. -/
def typeOf (v : List UInt8) : MsgType := fixMsgTypeParse (v ++ [1]) 1

/-- `parse_msg_type` on the unread bytes. -/
def parseMsgType (u : List UInt8) (flags : U64) : Scan (List UInt8 × MsgType) (List UInt8) :=
  match matchField u Tag.msgType with
  | .stop ret r => .stop ret r
  | .done v r =>
    if flags &&& noType ≠ 0 then .done (v, .unknown) r
    else if typeOf v = .unknown then .stop .garbled r
    else .done (v, typeOf v) r

/-- The bytes left from a value on, of which its SOH and `r` are behind it. -/
def leftFrom (v r : List UInt8) : Nat := v.length + 1 + r.length

/-- `first_three_fields` on the unread bytes. -/
def firstThreeFields (u : List UInt8) (flags : U64) : Scan Frame (List UInt8) :=
  match matchField u Tag.beginString with
  | .stop ret r => .stop ret r
  | .done bs r =>
    match parseBodyLength r with
    | .stop ret r => .stop ret r
    | .done bodyLength r₂ =>
      match parseMsgType r₂ flags with
      | .stop ret r => .stop ret r
      | .done (mt, type) r₃ => .done ⟨leftFrom bs r, bodyLength, leftFrom mt r₃, type⟩ r₃

/-- The sum of the bytes of `u` with between `from` and `to` bytes left. -/
def sumLeft (u : List UInt8) (start stop : Nat) : UInt8 := ((last start u).take (start - stop)).sum

/-- `verify_checksum` of a CheckSum `v` with `r` behind it. -/
def verifyChecksum (u : List UInt8) (f : Frame) (v r : List UInt8) : Bool :=
  (sumLeft u (f.beginString + 2) (leftFrom v r + 3)).toNat = (fixUatoi v).toInt

/-- `checksum` in an attempt on `u` of which `r` is not read yet. -/
def checksum (u : List UInt8) (f : Frame) (r : List UInt8) (flags : U64) : Scan Unit (List UInt8) :=
  if f.msgType + 3 < f.bodyLength.toNat + 7 then .stop .msgPartial r
  else if flags &&& noCsum ≠ 0 then .done () r
  else
    match matchField (last (f.msgType + 3 - f.bodyLength.toNat) u) Tag.checkSum with
    | .stop ret r => .stop ret r
    | .done v r' => if verifyChecksum u f v r' then .done () r else .stop .garbled r'

section
variable {F : Type u} [Doubles F]

/-- A stored value with a STRING cut at its SOH, so that it does not depend on what follows. -/
def text (x : FieldValue F) : FieldValue F :=
  match x with
  | .string p => .string (p.takeWhile (· ≠ 1))
  | x => x

/-- `rest_of_message` on the unread bytes; a STRING is its text. -/
def restOfMessageFrom (dialect : Dialect) : Nat → Rest F → List UInt8 → Option (Rest F × List UInt8)
  | 0, s, r => some ({ s with fields := [] }, r)
  | turns + 1, s, u =>
    match parseField u with
    | .stop _ r => some ({ s with fields := [] }, r)
    | .done (tag, v) r =>
      match dialect.tagType tag with
      | .checkSum => some (s, r)
      | .msgSeqNum => restOfMessageFrom dialect turns { s with msgSeqNum := (fixUatoi v).signExtend 64 } r
      | type =>
        match storedValue type (v ++ [1]) with
        | none => restOfMessageFrom dialect turns s r
        | some x =>
          if s.fields.length < fixMaxFieldNumber then
            restOfMessageFrom dialect turns { s with fields := s.fields ++ [⟨tag, text x⟩] } r
          else none

/-- What a message reports. -/
structure Report (F : Type u) where
  type : MsgType
  bodyLength : U64
  rest : Rest F
  deriving DecidableEq, Repr

/-- What `fix_message_parse` makes of the unread bytes: a message, the bytes left from its first
one on and those behind it; the bytes it waits on; or a store outside the fields. -/
inductive Parsed (F : Type u) where
  | message (m : Report F) (left : Nat) (r : List UInt8)
  | waits (u : List UInt8)
  | fault
  deriving DecidableEq, Repr

/-- One attempt of `fix_message_parse`: a message, or why there is none. -/
def attempt (dialect : Dialect) (flags : U64) (msgSeqNum : U64) (u : List UInt8) :
    Scan (Option (Report F)) (List UInt8) :=
  match firstThreeFields u flags with
  | .stop ret r => .stop ret r
  | .done f r =>
    match checksum u f r flags with
    | .stop ret r => .stop ret r
    | .done () r =>
      match restOfMessageFrom dialect (r.length + 1) ⟨msgSeqNum, []⟩ r with
      | none => .done none []
      | some (s, r) => .done (some ⟨f.type, f.bodyLength, s⟩) r

/-- `fix_message_parse` on the unread bytes. -/
def parseFrom (dialect : Dialect) (flags : U64) (msgSeqNum : U64) : Nat → List UInt8 → Parsed F
  | 0, u => .waits u
  | attempts + 1, u =>
    if u = [] then .waits u
    else
      match attempt dialect flags msgSeqNum u with
      | .stop .msgPartial _ => .waits u
      | .stop .garbled r => parseFrom dialect flags msgSeqNum attempts r
      | .done none _ => .fault
      | .done (some m) r => .message m u.length r

def parse (dialect : Dialect) (flags : U64) (msgSeqNum : U64) (u : List UInt8) : Parsed F :=
  parseFrom dialect flags msgSeqNum (u.length + 1) u

end

end Libtrading.Fix.Bytes
