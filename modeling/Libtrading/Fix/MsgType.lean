import Libtrading.Buffer

/-!
# `enum fix_msg_type`

The message types the library knows, the text of each, `fix_msg_types`, and
`fix_msg_type_parse`, which reads a text up to its delimiter: the SOH of FIX,
or the terminating zero of a FAST string.
-/

namespace Libtrading.Fix
set_option autoImplicit false

inductive MsgType where
  | heartbeat
  | testRequest
  | resendRequest
  | reject
  | sequenceReset
  | logout
  | executionReport
  | logon
  | newOrderSingle
  | snapshotRefresh
  | incrementRefresh
  | sessionStatus
  | securityStatus
  | orderCancelReplace
  | orderCancelReject
  | orderCancelRequest
  | orderMassCancelRequest
  | orderMassCancelReport
  | quoteRequest
  | securityDefinitionRequest
  | newOrderCross
  | massQuote
  | quoteCancel
  | securityDefinition
  | quoteAcknowledgement
  | orderMassStatusRequest
  | orderMassActionRequest
  | orderMassActionReport
  | unknown
  deriving DecidableEq, Repr

/-- The bytes of a text of ASCII characters. -/
def chars (s : String) : List UInt8 := s.toList.map fun c => c.toNat.toUInt8

/-- `fix_msg_types`; there is no entry for `FIX_MSG_TYPE_UNKNOWN`. -/
def fixMsgTypes : MsgType → List UInt8
  | .heartbeat => chars "0"
  | .testRequest => chars "1"
  | .resendRequest => chars "2"
  | .reject => chars "3"
  | .sequenceReset => chars "4"
  | .logout => chars "5"
  | .executionReport => chars "8"
  | .orderCancelReject => chars "9"
  | .logon => chars "A"
  | .newOrderSingle => chars "D"
  | .orderCancelRequest => chars "F"
  | .orderCancelReplace => chars "G"
  | .snapshotRefresh => chars "W"
  | .incrementRefresh => chars "X"
  | .sessionStatus => chars "h"
  | .securityStatus => chars "f"
  | .orderMassCancelRequest => chars "q"
  | .orderMassCancelReport => chars "r"
  | .quoteRequest => chars "R"
  | .securityDefinitionRequest => chars "c"
  | .newOrderCross => chars "s"
  | .massQuote => chars "i"
  | .quoteCancel => chars "Z"
  | .securityDefinition => chars "d"
  | .quoteAcknowledgement => chars "b"
  | .orderMassStatusRequest => chars "AF"
  | .orderMassActionRequest => chars "CA"
  | .orderMassActionReport => chars "BZ"
  | .unknown => []

/-- The single-character message types. -/
def singleMsgType (c : UInt8) : MsgType :=
  if c = '0'.toNat.toUInt8 then .heartbeat
  else if c = '1'.toNat.toUInt8 then .testRequest
  else if c = '2'.toNat.toUInt8 then .resendRequest
  else if c = '3'.toNat.toUInt8 then .reject
  else if c = '4'.toNat.toUInt8 then .sequenceReset
  else if c = '5'.toNat.toUInt8 then .logout
  else if c = '8'.toNat.toUInt8 then .executionReport
  else if c = '9'.toNat.toUInt8 then .orderCancelReject
  else if c = 'A'.toNat.toUInt8 then .logon
  else if c = 'D'.toNat.toUInt8 then .newOrderSingle
  else if c = 'F'.toNat.toUInt8 then .orderCancelRequest
  else if c = 'G'.toNat.toUInt8 then .orderCancelReplace
  else if c = 'W'.toNat.toUInt8 then .snapshotRefresh
  else if c = 'X'.toNat.toUInt8 then .incrementRefresh
  else if c = 'h'.toNat.toUInt8 then .sessionStatus
  else if c = 'f'.toNat.toUInt8 then .securityStatus
  else if c = 'q'.toNat.toUInt8 then .orderMassCancelRequest
  else if c = 'r'.toNat.toUInt8 then .orderMassCancelReport
  else if c = 'R'.toNat.toUInt8 then .quoteRequest
  else if c = 'c'.toNat.toUInt8 then .securityDefinitionRequest
  else if c = 's'.toNat.toUInt8 then .newOrderCross
  else if c = 'i'.toNat.toUInt8 then .massQuote
  else if c = 'Z'.toNat.toUInt8 then .quoteCancel
  else if c = 'd'.toNat.toUInt8 then .securityDefinition
  else if c = 'b'.toNat.toUInt8 then .quoteAcknowledgement
  else .unknown

/-- `fix_msg_type_parse`; `s` is the memory from the text's first byte on. -/
def fixMsgTypeParse (s : List UInt8) (delim : UInt8) : MsgType :=
  if s.getD 1 0 ≠ delim then
    if s.getD 2 0 ≠ delim then .unknown
    else if s.take 2 = chars "AF" then .orderMassStatusRequest
    else if s.take 2 = chars "CA" then .orderMassActionRequest
    else if s.take 2 = chars "BZ" then .orderMassActionReport
    else .unknown
  else singleMsgType (s.getD 0 0)

/-- Of a text's bytes only the first three are looked at. -/
theorem msg_type_of_front {s s' : List UInt8} {delim : UInt8} (h : s.take 3 = s'.take 3) :
    fixMsgTypeParse s delim = fixMsgTypeParse s' delim := by
  have byte : ∀ i < 3, s.getD i 0 = s'.getD i 0 := by
    intro i hi
    rw [List.getD_eq_getElem?_getD, List.getD_eq_getElem?_getD, ← List.getElem?_take_of_lt hi, h,
      List.getElem?_take_of_lt hi]
  have two : s.take 2 = s'.take 2 := by
    have := congrArg (List.take 2) h
    rwa [List.take_take, List.take_take] at this
  simp only [fixMsgTypeParse, byte 0 (by decide), byte 1 (by decide), byte 2 (by decide), two]

/-- Every type comes back from its text, with the SOH behind it. -/
theorem msg_type_text {t : MsgType} (h : t ≠ .unknown) (rest : List UInt8) :
    fixMsgTypeParse (fixMsgTypes t ++ 1 :: rest) 1 = t := by
  cases t <;> first | exact absurd rfl h | rfl

end Libtrading.Fix
