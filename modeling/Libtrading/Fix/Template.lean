import Libtrading.Fix.Session

/-!
# `fix_template.c`

A template is a message printed in advance: `fix_template_prepare` prints the
header and the fields that stay the same, and remembers where the numbers and
the times are in it. `fix_template_unparse` stores these in place and prints
the other fields behind. A marker, a pointer into `tx_data`, is the index it
points to.
-/

namespace Libtrading.Fix
open Buffer
set_option autoImplicit false
universe u

/-- `FIX_TEMPLATE_BODY_LEN_ZPAD`. -/
def templateBodyLenZpad : Nat := 4

/-- `FIX_TEMPLATE_MSG_SEQ_NUM_ZPAD`. -/
def templateMsgSeqNumZpad : Nat := 6

/-- `FIX_MAX_TEMPLATE_BUFFER_SIZE`. -/
def fixMaxTemplateBufferSize : Nat := 1024

/-- The text in the place of a time. -/
def timePlaceholder : List UInt8 := chars "YYYYMMDD-HH:MM:SS.sss"

/-- `struct fix_template`; before it is prepared its markers are `NULL`, and not used. -/
structure FixTemplate (F : Type u) where
  markerBodyLength : Nat
  markerMsgSeqNum : Nat
  markerSenderCompId : Nat
  markerSendingTime : Nat
  markerTransactTime : Option Nat
  markerConstStart : Nat
  markerConstEnd : Nat
  senderCompIdLen : Nat
  constCsum : UInt8
  buf : Buffer
  fields : List (FixField F)
  csumField : FixField F
  iovLen : Nat

/-- `struct fix_template_cfg`. -/
structure FixTemplateCfg (F : Type u) where
  beginString : List UInt8
  msgType : MsgType
  senderCompId : List UInt8
  targetCompId : List UInt8
  manageTransactTime : Bool
  constFields : List (FixField F)

/-- Stores from an index on, which leave `end` where it is. -/
def storeAt (b : Buffer) (i : Nat) (bytes : List UInt8) : Buffer :=
  { b with data := ({ b with stop := i }.bufferPuts bytes).data }

/-- The `n` bytes that `memcpy` reads at a pointer; of what lies behind its memory nothing is known. -/
def memoryAt (p : List UInt8) (n : Nat) : List UInt8 := p.take n ++ List.replicate (n - p.length) 0

section
variable {F : Type u} [Doubles F]

/-- `fix_field_unparse_zpad`: the marker, and the buffer behind the field. -/
def fixFieldUnparseZpad (f : FixField F) (zpad : Nat) (b : Buffer) : Nat × Buffer :=
  let b := (b.bufferPuts (uitoa f.tag)).bufferPut '='.toNat.toUInt8
  let value := match f.value with
    | .int v => b.bufferPuts (modpLitoa10Zpad v zpad)
    | value => unparseValue value b
  (b.stop, value.bufferPut 1)

/-- `fix_template_new`. -/
def fixTemplateNew : FixTemplate F where
  markerBodyLength := 0
  markerMsgSeqNum := 0
  markerSenderCompId := 0
  markerSendingTime := 0
  markerTransactTime := none
  markerConstStart := 0
  markerConstEnd := 0
  senderCompIdLen := 0
  constCsum := 0
  buf := bufferNew fixMaxTemplateBufferSize
  fields := []
  csumField := .ofCheckSum Tag.checkSum 0
  iovLen := 0

namespace FixTemplate

/-- `fix_template_prepare`. Without `manage_transact_time` the marker of the time is not touched. -/
def fixTemplatePrepare (t : FixTemplate F) (cfg : FixTemplateCfg F) : FixTemplate F :=
  -- head
  let b := fixFieldUnparse (.ofString Tag.beginString cfg.beginString : FixField F) t.buf
  let bodyLength := fixFieldUnparseZpad (.ofInt Tag.bodyLength 0 : FixField F) templateBodyLenZpad b
  let b := fixFieldUnparse (.ofString Tag.msgType (cstr (fixMsgTypes cfg.msgType)) : FixField F) bodyLength.2
  let msgSeqNum := fixFieldUnparseZpad (.ofInt Tag.msgSeqNum 0 : FixField F) templateMsgSeqNumZpad b
  let senderCompId := fixFieldUnparseZpad (.ofString Tag.senderCompId cfg.senderCompId : FixField F) 0 msgSeqNum.2
  let sendingTime := fixFieldUnparseZpad (.ofString Tag.sendingTime timePlaceholder : FixField F) 0 senderCompId.2
  let b := fixFieldUnparse (.ofString Tag.targetCompId cfg.targetCompId : FixField F) sendingTime.2
  let time := fixFieldUnparseZpad (.ofString Tag.transactTime timePlaceholder : FixField F) 0 b
  let b := if cfg.manageTransactTime then time.2 else b
  let constStart := b.stop
  let b := fixFieldsUnparse cfg.constFields b
  { t with
    markerBodyLength := bodyLength.1
    markerMsgSeqNum := msgSeqNum.1
    markerSenderCompId := senderCompId.1
    markerSendingTime := sendingTime.1
    markerTransactTime := if cfg.manageTransactTime then some time.1 else t.markerTransactTime
    markerConstStart := constStart
    markerConstEnd := b.stop
    senderCompIdLen := (cchars cfg.senderCompId).length
    constCsum := bufferSumRange b.data constStart b.stop + bufferSumRange b.data 0 bodyLength.1
    buf := b }

/-- `fix_template_update_time`. -/
def fixTemplateUpdateTime (t : FixTemplate F) (strNow : List UInt8) : FixTemplate F :=
  let b := storeAt t.buf t.markerSendingTime (memoryAt strNow timePlaceholder.length)
  { t with
    buf := match t.markerTransactTime with
      | none => b
      | some marker => storeAt b marker (memoryAt strNow timePlaceholder.length) }

/-- `fix_template_unparse`. -/
def fixTemplateUnparse (t : FixTemplate F) (session : Session F) : FixTemplate F :=
  let b := fixFieldsUnparse t.fields { t.buf with start := 0, stop := t.markerConstEnd }
  let b := storeAt b t.markerSenderCompId (memoryAt session.senderCompId t.senderCompIdLen)
  let b := storeAt b t.markerMsgSeqNum (modpLitoa10Zpad session.outMsgSeqNum templateMsgSeqNumZpad)
  let b := storeAt b t.markerBodyLength
    (modpLitoa10Zpad (.ofNat 64 b.stop - .ofNat 64 (t.markerBodyLength + templateBodyLenZpad + 1)) templateBodyLenZpad)
  let cksum := ((bufferSumRange b.data t.markerBodyLength t.markerConstStart).toNat + t.constCsum.toNat +
    (bufferSumRange b.data t.markerConstEnd b.stop).toNat) % 256
  let csumField := .ofCheckSum t.csumField.tag (.ofNat 64 cksum)
  let b := fixFieldUnparse csumField b
  { t with
    buf := b
    csumField := csumField
    iovLen := b.stop }

end FixTemplate

end

end Libtrading.Fix
