import Libtrading.Fast.Decode

/-!
# `fast_decode_sequence` and `fast_message_decode`

Both loops resume: the cursor of the message (`msg->decoded`), the presence
map and its bit, and for a sequence the element and field cursors survive a
call that ran out of bytes, and the buffer goes back to the start of the item
that was interrupted.
-/

namespace Libtrading.Fast
open Buffer

/-- What the application sees of a decoded element field, `cur`, copied from the running one. A
vector is decoded and not copied. -/
def copyOut (cur field : ElementField) : ElementField :=
  match cur, field with
  | .int c, .int f => .int { c with value := f.value, state := f.state }
  | .uint c, .uint f => .uint { c with value := f.value, state := f.state }
  | .string u c, .string _ f => .string u { c with value := strcpy c.value f.value, state := f.state }
  | .decimal i c e m, .decimal _ f _ _ => .decimal i { c with value := f.value, state := f.state } e m
  | cur, _ => cur

/-- The cursor part of a sequence during the element loop. -/
structure ElementRun where
  ret : Ret
  buffer : Buffer
  seq : Sequence
  deriving DecidableEq, Repr

namespace Sequence

/-- `(msg + seq->decoded)->fields + msg->decoded` for `seq->decoded ≥ 1`. -/
def setElement (s : Sequence) (f : ElementField) : Sequence :=
  { s with elements := s.elements.modify (s.decoded - 1) (·.modify s.msgDecoded (copyOut · f)) }

def setHead (s : Sequence) (f : ElementField) : Sequence :=
  { s with head := s.head.set s.msgDecoded f }

end Sequence

/-- The inner loop: the remaining fields of the current element. The exit of the source on
`PARTIAL` is taken here: the buffer and the map's bit go back to the start of the field. -/
def decodeElementFields : Nat → Buffer → Sequence → ElementRun
  | 0, b, s => ⟨.ok, b, s⟩
  | n + 1, b, s =>
    match s.head[s.msgDecoded]? with
    | none => ⟨.ok, b, s⟩
    | some f =>
      let r := decodeElement b s.pmap f
      let s' := s.setHead r.field
      match r.ret with
      | .ok => decodeElementFields n r.buffer
          { (s'.setElement r.field) with pmap := r.pmap, msgDecoded := s.msgDecoded + 1 }
      | .msgPartial => ⟨.msgPartial, r.buffer.rewind b.start, s'⟩
      | ret => ⟨ret, r.buffer, { s' with pmap := r.pmap }⟩

/-- The presence map of one element, where the template requires one. -/
def decodeElementPmap (b : Buffer) (s : Sequence) : ElementRun :=
  if s.pmapReq && !s.pmap.isValid then
    match parsePmap b s.pmap with
    | (.ok, p, b) => ⟨.ok, b, { s with pmap := { p with isValid := true, pmapBit := -1 } }⟩
    | (.msgPartial, p, b') => ⟨.msgPartial, b'.rewind b.start, { s with pmap := p }⟩
    | (ret, p, b) => ⟨ret, b, { s with pmap := p }⟩
  else ⟨.ok, b, s⟩

/-- The outer loop: `n` bounds the elements left. -/
def decodeElements : Nat → Buffer → Sequence → ElementRun
  | 0, b, s => ⟨.ok, b, s⟩
  | n + 1, b, s =>
    if s.length.value.toNat < s.decoded then ⟨.ok, b, s⟩
    else
      let r := decodeElementPmap b s
      if r.ret ≠ .ok then r
      else
        let r := decodeElementFields (r.seq.head.length - r.seq.msgDecoded) r.buffer r.seq
        if r.ret ≠ .ok then r
        else decodeElements n r.buffer { r.seq with
          pmap := { r.seq.pmap with isValid := false }, msgDecoded := 0, decoded := r.seq.decoded + 1 }

/-- `FAST_SEQUENCE_ELEMENTS`. -/
def sequenceElements : Nat := 128

/-- The length field, read where no element was begun; a sequence that is empty or refused is
returned with `decoded` still zero. -/
def decodeLength (b : Buffer) (p : Pmap) (s : Sequence) : Decoded Sequence × Bool :=
  if s.decoded = 0 then
    let r := fastDecodeUint b p s.length
    let s := { s with length := r.field }
    match r.ret with
    | .ok =>
      if s.length.stateEmpty then
        (⟨if s.presence == .mandatory then .garbled else .ok, r.buffer, r.pmap, s⟩, false)
      else if sequenceElements ≤ s.length.value.toNat then (⟨.garbled, r.buffer, r.pmap, s⟩, false)
      else (⟨.ok, r.buffer, r.pmap, { s with decoded := 1 }⟩, true)
    | .msgPartial => (⟨.msgPartial, r.buffer.rewind b.start, r.pmap, s⟩, false)
    | ret => (⟨ret, r.buffer, r.pmap, s⟩, false)
  else (⟨.ok, b, p, s⟩, true)

/-- `fast_decode_sequence`. -/
def fastDecodeSequence (b : Buffer) (p : Pmap) (s : Sequence) : Decoded Sequence :=
  let (l, more) := decodeLength b p s
  if !more then l
  else
    let r := decodeElements sequenceElements l.buffer l.field
    if r.ret ≠ .ok then ⟨r.ret, r.buffer, l.pmap, r.seq⟩
    else ⟨.ok, r.buffer, l.pmap, { r.seq with decoded := 0 }⟩

/-- The decoder of a message's field, by type. -/
def decodeFastField (b : Buffer) (p : Pmap) : FastField → Decoded FastField
  | .elem f => let r := decodeElement b p f; ⟨r.ret, r.buffer, r.pmap, .elem r.field⟩
  | .sequence s => let r := fastDecodeSequence b p s; ⟨r.ret, r.buffer, r.pmap, .sequence r.field⟩

/-- Where the buffer stands when a field was interrupted: at the field's start, or, inside a
sequence, at the item of the sequence. -/
def interruptedAt (f : FastField) (before after : Buffer) : Buffer :=
  match f with
  | .elem _ => after.rewind before.start
  | .sequence _ => after

/-- A message under way: `msg->decoded` and the fields, with the presence map. -/
structure FieldsRun where
  ret : Ret
  buffer : Buffer
  pmap : Pmap
  decoded : Nat
  fields : List FastField
  deriving DecidableEq, Repr

/-- The field loop of `fast_message_decode`, `n` bounding the fields left. -/
def decodeFields : Nat → Buffer → Pmap → Nat → List FastField → FieldsRun
  | 0, b, p, decoded, fields => ⟨.ok, b, p, decoded, fields⟩
  | n + 1, b, p, decoded, fields =>
    match fields[decoded]? with
    | none => ⟨.ok, b, p, decoded, fields⟩
    | some f =>
      let r := decodeFastField b p f
      let fields := fields.set decoded r.field
      match r.ret with
      | .ok => decodeFields n r.buffer r.pmap (decoded + 1) fields
      | .msgPartial =>
        ⟨.msgPartial, interruptedAt f b r.buffer, { r.pmap with pmapBit := p.pmapBit }, decoded, fields⟩
      | ret => ⟨ret, r.buffer, r.pmap, decoded, fields⟩

/-- `struct fast_preamble`. -/
structure Preamble where
  isValid : Bool
  nrBytes : Nat
  bytes : List UInt8
  deriving DecidableEq, Repr

/-- `struct fast_session`, the receiving half; `rxMessage` is an index into `rxMessages`, which
has `FAST_TEMPLATE_MAX_NUMBER` slots, `nrMessages` of them loaded. -/
structure Session where
  lastTid : U64
  rxBuffer : Buffer
  nrMessages : Nat
  rxMessage : Option Nat
  rxMessages : List Message
  preamble : Preamble
  pmap : Pmap
  deriving DecidableEq, Repr

/-- The `int tid` that `fast_get_msg` compares with an `unsigned long`. -/
def narrowTid (tid : U64) : U64 := (tid.setWidth 32).signExtend 64

/-- `fast_get_msg`: the first slot with the template id. -/
def fastGetMsg (msgs : List Message) (tid : U64) : Option Nat :=
  msgs.findIdx? fun m => m.tid == narrowTid tid

/-- The result of one call: the message returned, or `none` for NULL, with the `ret` behind it. -/
structure Decode where
  msg : Option Message
  ret : Ret
  session : Session
  deriving DecidableEq, Repr

/-- One of the stages before the fields: it went through, or the call fails with `ret`. -/
structure Stage where
  ret : Ret
  session : Session
  deriving DecidableEq, Repr

/-- One stage, and the next one unless it failed. -/
def Stage.andThen (first next : Session → Stage) (s : Session) : Stage :=
  if (first s).ret ≠ .ok then first s else next (first s).session

namespace Session

/-- The preamble, `preamble->nr_bytes` bytes in front of every message. -/
def decodePreamble (s : Session) : Stage :=
  if s.preamble.nrBytes ≠ 0 ∧ !s.preamble.isValid then
    if s.rxBuffer.bufferSize < s.preamble.nrBytes then ⟨.msgPartial, s⟩
    else
      let (bytes, b) := takeBytes s.preamble.nrBytes s.rxBuffer
      ⟨.ok, { s with rxBuffer := b, preamble := { s.preamble with isValid := true, bytes := bytes } }⟩
  else ⟨.ok, s⟩

/-- The presence map of the message. -/
def decodePmap (s : Session) : Stage :=
  if !s.pmap.isValid then
    match parsePmap s.rxBuffer s.pmap with
    | (.ok, p, b) => ⟨.ok, { s with rxBuffer := b, pmap := { p with isValid := true, pmapBit := 0 } }⟩
    | (.msgPartial, p, b) => ⟨.msgPartial, { s with rxBuffer := b.rewind s.rxBuffer.start, pmap := p }⟩
    | (ret, p, b) => ⟨ret, { s with rxBuffer := b, pmap := p }⟩
  else ⟨.ok, s⟩

/-- The template id off the wire, or the last one. -/
def readTid (s : Session) : Parse U64 :=
  if ({ s.pmap with pmapBit := 0 } : Pmap).pmapIsSet then parseUint s.rxBuffer
  else .done s.lastTid s.rxBuffer

/-- `fast_get_msg` with a template id at hand. -/
def chooseTemplate (s : Session) (tid : U64) (b : Buffer) : Stage :=
  match fastGetMsg s.rxMessages tid with
  | none => ⟨.garbled, { s with rxBuffer := b }⟩
  | some i => ⟨.ok, { s with rxBuffer := b, rxMessage := some i }⟩

/-- The template of the message. -/
def decodeTid (s : Session) : Stage :=
  match s.rxMessage with
  | some _ => ⟨.ok, s⟩
  | none =>
    match s.readTid with
    | .fail .msgPartial b => ⟨.msgPartial, { s with rxBuffer := b.rewind s.rxBuffer.start }⟩
    | .fail ret b => ⟨ret, { s with rxBuffer := b }⟩
    | .done tid b => s.chooseTemplate tid b

/-- The field loop of the message, from its cursor. -/
def messageFields (s : Session) (m : Message) : FieldsRun :=
  decodeFields (m.fields.length - m.decoded) s.rxBuffer s.pmap m.decoded m.fields

/-- The return, with the field loop run as `r`. -/
def finishMessage (s : Session) (i : Nat) (m : Message) (r : FieldsRun) : Decode :=
  match r.ret with
  | .ok =>
    let m := { m with decoded := 0, fields := r.fields }
    ⟨some m, .ok, { s with
      lastTid := m.tid
      rxBuffer := r.buffer
      rxMessage := none
      rxMessages := s.rxMessages.set i m
      preamble := { s.preamble with isValid := false }
      pmap := { r.pmap with isValid := false } }⟩
  | ret =>
    ⟨none, ret, { s with
      rxBuffer := r.buffer
      rxMessages := s.rxMessages.set i { m with decoded := r.decoded, fields := r.fields }
      pmap := r.pmap }⟩

/-- The fields of the message. -/
def decodeMessage (s : Session) (i : Nat) (m : Message) : Decode := s.finishMessage i m (s.messageFields m)

/-- What comes before the fields. -/
def decodeHeader : Session → Stage := .andThen decodePreamble (.andThen decodePmap decodeTid)

/-- `fast_message_decode`. -/
def fastMessageDecode (s : Session) : Decode :=
  let t := s.decodeHeader
  if t.ret ≠ .ok then ⟨none, t.ret, t.session⟩
  else match t.session.rxMessage with
    | none => ⟨none, .garbled, t.session⟩
    | some i => match t.session.rxMessages[i]? with
      | none => ⟨none, .fault, t.session⟩
      | some m => t.session.decodeMessage i m

end Session

end Libtrading.Fast
