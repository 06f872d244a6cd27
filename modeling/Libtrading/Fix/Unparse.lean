import Libtrading.Fix.Message
import Libtrading.Itoa

/-!
# Printing messages: `fix_field_unparse` and `fix_message_unparse`

A message is printed into two buffers, the head with BeginString and
BodyLength, and the body with everything else, whose size the head has to
state. What becomes of a `double` is up to `Doubles`.
-/

namespace Libtrading.Fix
open Buffer
set_option autoImplicit false
universe u

/-- The two routines that look into a `double`: `strtod` on the characters up to the first one
that is no part of a number, and `modp_dtoa2` with its precision. -/
class Doubles (F : Type u) where
  strtod : List UInt8 → F
  modpDtoa2 : F → Nat → List UInt8

/-- A `double` kept as the text it is read from. -/
instance : Doubles (List UInt8) := ⟨id, fun text _ => text⟩

/-- `strncpy` into an array of `size` bytes. -/
def strncpy (s : List UInt8) (size : Nat) : List UInt8 :=
  (cchars s).take size ++ List.replicate (size - (cchars s).length) 0

variable {F : Type u} [Doubles F]

/-- The value of a field, the `switch` of `fix_field_unparse`. -/
def unparseValue (value : FieldValue F) (b : Buffer) : Buffer :=
  match value with
  | .string s => b.bufferPuts (cchars s)
  | .string8 s => b.bufferPuts (cchars (s.take 8))
  | .char c => b.bufferPut c
  | .float x => b.bufferSprintf (Doubles.modpDtoa2 x 7)
  | .int v => if outsideInt v then b.bufferSprintf (i64toa v) else b.bufferPuts (i64toa v)
  | .checkSum v => b.bufferPuts (checksumtoa (v.setWidth 32))
  | .msgSeqNum => b

/-- `fix_field_unparse`. -/
def fixFieldUnparse (f : FixField F) (b : Buffer) : Buffer :=
  (unparseValue f.value ((b.bufferPuts (uitoa f.tag)).bufferPut '='.toNat.toUInt8)).bufferPut 1

/-- `fix_field_unparse` of one field after the other. -/
def fixFieldsUnparse (fs : List (FixField F)) (b : Buffer) : Buffer :=
  fs.foldl (fun b f => fixFieldUnparse f b) b

namespace FixMessage

/-- The standard header of a message, behind its BodyLength. -/
def standardHeader (m : FixMessage F) : List (FixField F) :=
  [if m.type ≠ .unknown then .ofString Tag.msgType (cstr (fixMsgTypes m.type)) else .ofString Tag.msgType m.msgType,
    .ofString Tag.senderCompId m.senderCompId,
    .ofString Tag.targetCompId m.targetCompId,
    .ofInt Tag.msgSeqNum m.msgSeqNum,
    .ofString Tag.sendingTime (strncpy m.strNow 64)]

/-- `fix_message_unparse` into a head and a body buffer. -/
def fixMessageUnparse (m : FixMessage F) (head body : Buffer) : Buffer × Buffer :=
  -- body
  let body := fixFieldsUnparse m.standardHeader body
  let body := fixFieldsUnparse m.fields body
  -- head
  let head := fixFieldUnparse (.ofString Tag.beginString m.beginString : FixField F) head
  let head := fixFieldUnparse (.ofInt Tag.bodyLength (.ofNat 64 body.bufferSize) : FixField F) head
  -- trailer
  let cksum := (head.bufferSum.toNat + body.bufferSum.toNat) % 256
  (head, fixFieldUnparse (.ofCheckSum Tag.checkSum (.ofNat 64 cksum) : FixField F) body)

end FixMessage

end Libtrading.Fix
