import Libtrading.Fast.Field

/-!
# `fast_message_encode`

The encoder keeps the value and state of the last message it sent in
`previous` and `state_previous` of every field. The encoders of the field
types are one switch over the operator, which leaves by `goto empty`,
`goto transfer`, `goto fail` or `break`; `Label` names these exits, `Coder`
holds what the types do differently and `encodeField` is the switch with the
code behind its labels.
-/

namespace Libtrading.Fast
set_option autoImplicit false
open Buffer

/-! ## Values on the wire -/

/-- `transfer_size_uint`. -/
def transferSizeUint (data : U64) : Nat :=
  if data >>> 7 = 0 then 1
  else if data >>> 14 = 0 then 2
  else if data >>> 21 = 0 then 3
  else if data >>> 28 = 0 then 4
  else if data >>> 35 = 0 then 5
  else if data >>> 42 = 0 then 6
  else if data >>> 49 = 0 then 7
  else if data >>> 56 = 0 then 8
  else 9

/-- `transfer_size_int`. -/
def transferSizeInt (data : I64) : Nat :=
  let tmp := if (0 : I64).sle data then data else ~~~data
  if tmp.sshiftRight 6 = 0 then 1
  else if tmp.sshiftRight 13 = 0 then 2
  else if tmp.sshiftRight 20 = 0 then 3
  else if tmp.sshiftRight 27 = 0 then 4
  else if tmp.sshiftRight 34 = 0 then 5
  else if tmp.sshiftRight 41 = 0 then 6
  else if tmp.sshiftRight 48 = 0 then 7
  else if tmp.sshiftRight 55 = 0 then 8
  else 9

/-- Seven bits of a number, `shift` bits up; an arithmetic shift selects the same seven. -/
def group (tmp : BitVec 64) (shift : Nat) : UInt8 := ⟨(tmp >>> shift).setWidth 8⟩ &&& 0x7F

/-- The falling-through switch of `transfer_uint` and `transfer_int`, entered at `case n`. -/
def putGroups (tmp : BitVec 64) : Nat → Buffer → Buffer
  | 0, b => b
  | 1, b => b.bufferPut (group tmp 0 ||| 0x80)
  | n + 2, b => putGroups tmp (n + 1) (b.bufferPut (group tmp (7 * (n + 1))))

/-- What the `transfer_*` functions return: success, and the buffer. -/
abbrev Transferred := Bool × Buffer

/-- `transfer_uint`. -/
def transferUint (b : Buffer) (tmp : U64) : Transferred :=
  if b.bufferRemaining < transferSizeUint tmp then (false, b)
  else (true, putGroups tmp (transferSizeUint tmp) b)

/-- `transfer_int`. -/
def transferInt (b : Buffer) (tmp : I64) : Transferred :=
  if b.bufferRemaining < transferSizeInt tmp then (false, b)
  else (true, putGroups tmp (transferSizeInt tmp) b)

/-- Bytes put one after the other. -/
def putBytes (b : Buffer) (bytes : List UInt8) : Buffer := bytes.foldl bufferPut b

/-- The characters `transfer_string` puts: an empty string is one zero byte. -/
def stringChars (s : Bytes) : Bytes := if cstr s = [] then [0] else cstr s

/-- The end of `transfer_string`, which is all of it for `NULL`. -/
def transferStop (b : Buffer) : Transferred :=
  if b.bufferRemaining < 1 then (false, b) else (true, b.bufferPut 0x80)

/-- `transfer_string` of a string. -/
def transferString (b : Buffer) (s : Bytes) : Transferred :=
  if b.bufferRemaining < (stringChars s).length then (false, b)
  else transferStop (putBytes b (stringChars s))

namespace Pmap

/-- `pmap_set(pmap, pmap->pmap_bit)`; a bit outside the map is dropped. -/
def pmapSet (p : Pmap) : Pmap :=
  match p.pmapBit with
  | .ofNat bit =>
    if p.nrBytes ≤ bit / 7 then p
    else { p with bytes := p.bytes.modify (bit / 7) (· ||| ((1 : UInt8) <<< (6 - bit % 7).toUInt8)) }
  | .negSucc _ => p

end Pmap

/-! ## The field encoders -/

/-- Where the switch of an encoder leaves: `break`, `goto empty`, `goto transfer`, `goto fail`. -/
inductive Label where
  | done
  | empty
  | transfer
  | fail
  deriving DecidableEq, Repr

/-- The switch, at its exit. -/
structure Switched (α : Type) where
  label : Label
  pmap : Pmap
  field : Field α
  deriving DecidableEq, Repr

/-- The outcome of a field encoder; `ok` is the return value 0. -/
structure Encoded (φ : Type) where
  ok : Bool
  buffer : Buffer
  pmap : Pmap
  field : φ
  deriving DecidableEq, Repr

/-- `FAST_OP_INCR`: a step, `goto fail`, or `break` with nothing done. -/
inductive Increment (α : Type) where
  | step (next : α → α)
  | refuse
  | skip

/-- What the encoders of the field types do differently. -/
structure Coder (α : Type) where
  /-- The comparison of `FAST_OP_COPY`. -/
  same : α → α → Bool
  incr : Increment α
  /-- `FAST_OP_DELTA` is supported. -/
  delta : Bool
  /-- The value of a field on the wire. -/
  put : Buffer → Field α → Transferred
  /-- `NULL` on the wire. -/
  putNull : Buffer → Field α → Transferred
  /-- The value and the previous value after `empty:`. -/
  onEmpty : Field α → Field α
  /-- The previous value after `transfer:`. -/
  onValue : Field α → Field α

namespace Field
variable {α : Type}

/-- `!field_is_mandatory(field) && field_state_empty(field)`. -/
def isNull (f : Field α) : Bool := !f.isMandatory && f.stateEmpty

/-- `pset`: a transfer sets the presence bit, but for the operators none and delta. -/
def usesBit (f : Field α) : Bool := f.op != .none && f.op != .delta

/-- `field->state_previous = state`. -/
def remember (f : Field α) (state : State) : Field α := { f with statePrevious := state }

end Field

section Operators
variable {α : Type} (E : Coder α)

/-- The exit of `FAST_OP_NONE` and `FAST_OP_DELTA`. -/
def switchAlways (p : Pmap) (f : Field α) : Switched α :=
  if f.isNull then ⟨.empty, p, f⟩ else ⟨.transfer, p, { f with state := .assigned }⟩

/-- The exit of `FAST_OP_COPY` and `FAST_OP_INCR`, which leave the field off the wire, as `omitted`,
where the decoder finds it by itself. -/
def switchPrevious (found : Bool) (omitted : Field α) (p : Pmap) (f : Field α) : Switched α :=
  if f.isNull then ⟨.empty, p, f⟩
  else match f.state with
    | .undefined => ⟨.transfer, p, { f with state := .assigned }⟩
    | .assigned => if f.stateEmptyPrevious || !found then ⟨.transfer, p, f⟩ else ⟨.done, p, omitted⟩
    | .empty => ⟨.fail, p, f⟩

/-- The exit of `FAST_OP_DEFAULT`. -/
def switchDefault (p : Pmap) (f : Field α) : Switched α :=
  if f.isNull then ⟨.empty, p, f⟩
  else match f.state with
    | .empty => ⟨.fail, p, f⟩
    | _ => ⟨.transfer, p, { f with state := .assigned }⟩

/-- `FAST_OP_CONSTANT`. -/
def switchConstant (p : Pmap) (f : Field α) : Switched α :=
  if f.isMandatory then ⟨.done, p, { f with state := .assigned }⟩
  else if !f.stateEmpty then ⟨.done, p.next.pmapSet, { f with state := .assigned }⟩
  else ⟨.done, p.next, f⟩

/-- The switch over the operator. -/
def encodeSwitch (p : Pmap) (f : Field α) : Switched α :=
  match f.op with
  | .none => switchAlways p f
  | .copy => switchPrevious (E.same f.value f.previous) f p.next f
  | .incr =>
    match E.incr with
    | .step next =>
      switchPrevious (E.same f.value (next f.previous)) { f with previous := next f.previous } p.next f
    | .refuse => ⟨.fail, p, f⟩
    | .skip => ⟨.done, p, f⟩
  | .delta => if E.delta then switchAlways p f else ⟨.fail, p, f⟩
  | .default => switchDefault p.next f
  | .constant => switchConstant p f

/-- What follows a transfer: the presence bit, where it went through and the operator has one. -/
def afterTransfer (t : Transferred) (p : Pmap) (f : Field α) : Encoded (Field α) :=
  ⟨t.1, t.2, if t.1 && f.usesBit then p.pmapSet else p, f⟩

/-- A field encoder: the switch, and the code at the label where it leaves. -/
def encodeField (b : Buffer) (p : Pmap) (f : Field α) : Encoded (Field α) :=
  let s := encodeSwitch E p f
  match s.label with
  | .done => ⟨true, b, s.pmap, s.field⟩
  | .fail => ⟨false, b, s.pmap, s.field⟩
  | .empty =>
    afterTransfer (E.putNull b s.field) s.pmap ((E.onEmpty s.field).remember s.field.state)
  | .transfer =>
    afterTransfer (E.put b s.field) s.pmap ((E.onValue s.field).remember s.field.state)

end Operators

/-! ## The types -/

/-- `tmp >= 0 ? tmp + 1 : tmp` where the field is optional. -/
def nullableInt {α : Type} (f : Field α) (tmp : I64) : I64 :=
  if !f.isMandatory && (0 : I64).sle tmp then tmp + 1 else tmp

/-- `tmp + 1` where the field is optional. -/
def nullableUint {α : Type} (f : Field α) (tmp : U64) : U64 := if f.isMandatory then tmp else tmp + 1

section Numbers
variable (f : Field (BitVec 64))

/-- `empty:` of the number encoders. -/
def emptyNumber : Field (BitVec 64) := { f with value := f.previous }

/-- `transfer:` of the number encoders. -/
def savedNumber : Field (BitVec 64) := { f with previous := f.value }

/-- The number `fast_encode_int` transfers. -/
def intOnWire : I64 := nullableInt f (if f.op = .delta then f.value - f.previous else f.value)

/-- The number `fast_encode_uint` transfers; the difference of delta is signed. -/
def uintOnWire : U64 :=
  if f.op = .delta then nullableInt f (f.value - f.previous) else nullableUint f f.value

end Numbers

def intCoder : Coder I64 where
  same := (· == ·)
  incr := .step (· + 1)
  delta := true
  put b f := transferInt b (intOnWire f)
  putNull b _ := transferInt b 0
  onEmpty := emptyNumber
  onValue := savedNumber

def uintCoder : Coder U64 where
  same := (· == ·)
  incr := .step (· + 1)
  delta := true
  put b f := if f.op = .delta then transferInt b (uintOnWire f) else transferUint b (uintOnWire f)
  putNull b f := if f.op = .delta then transferInt b 0 else transferUint b 0
  onEmpty := emptyNumber
  onValue := savedNumber

def stringCoder : Coder Bytes where
  same s s' := cstr s == cstr s'
  incr := .refuse
  delta := false
  put b f := transferString b f.value
  putNull b _ := transferStop b
  onEmpty f :=
    let value := strcpy f.value f.previous
    { f with value := value, previous := strcpy f.previous value }
  onValue f := { f with previous := strcpy f.previous f.value }

/-- The exponent and mantissa `fast_encode_decimal_atomic` transfers. -/
def decimalOnWire (f : Field Decimal) : Decimal :=
  let d : Decimal :=
    if f.op = .delta then ⟨f.value.exp - f.previous.exp, f.value.mnt - f.previous.mnt⟩ else f.value
  { d with exp := nullableInt f d.exp }

/-- The mantissa follows where the exponent went through. -/
def transferDecimal (b : Buffer) (d : Decimal) : Transferred :=
  let t := transferInt b d.exp
  if t.1 then transferInt t.2 d.mnt else t

def decimalCoder : Coder Decimal where
  same := (· == ·)
  incr := .skip
  delta := true
  put b f := transferDecimal b (decimalOnWire f)
  putNull b _ := transferInt b 0
  onEmpty f := f
  onValue f := { f with previous := f.value }

/-- `fast_encode_int`. -/
def fastEncodeInt : Buffer → Pmap → Field I64 → Encoded (Field I64) := encodeField intCoder

/-- `fast_encode_uint`. -/
def fastEncodeUint : Buffer → Pmap → Field U64 → Encoded (Field U64) := encodeField uintCoder

/-- `fast_encode_string`. -/
def fastEncodeString : Buffer → Pmap → Field Bytes → Encoded (Field Bytes) := encodeField stringCoder

/-- `fast_encode_decimal_atomic`. -/
def fastEncodeDecimalAtomic : Buffer → Pmap → Field Decimal → Encoded (Field Decimal) :=
  encodeField decimalCoder

/-- `fast_encode_decimal_individ`. -/
def fastEncodeDecimalIndivid (b : Buffer) (p : Pmap) (d : DecimalFields) : Encoded DecimalFields :=
  let d := if d.field.stateEmpty then d else { d with
    exponent := { d.exponent with value := d.field.value.exp }
    mantissa := { d.mantissa with value := d.field.value.mnt } }
  let d := { d with
    exponent := { d.exponent with state := d.field.state }
    mantissa := { d.mantissa with state := d.field.state } }
  let e := fastEncodeInt b p d.exponent
  let d := { d with exponent := e.field }
  if !e.ok then ⟨false, e.buffer, e.pmap, d⟩
  else if d.exponent.stateEmpty then ⟨true, e.buffer, e.pmap, d⟩
  else
    let d := { d with field := { d.field with state := .assigned } }
    let m := fastEncodeInt e.buffer e.pmap d.mantissa
    ⟨m.ok, m.buffer, m.pmap, { d with mantissa := m.field }⟩

/-- The encoder of a field, by type; byte vectors are refused. -/
def encodeElement (b : Buffer) (p : Pmap) : ElementField → Encoded ElementField
  | .int f => let r := fastEncodeInt b p f; ⟨r.ok, r.buffer, r.pmap, .int r.field⟩
  | .uint f => let r := fastEncodeUint b p f; ⟨r.ok, r.buffer, r.pmap, .uint r.field⟩
  | .string unicode f =>
    let r := fastEncodeString b p f; ⟨r.ok, r.buffer, r.pmap, .string unicode r.field⟩
  | .decimal false f e m =>
    let r := fastEncodeDecimalAtomic b p f; ⟨r.ok, r.buffer, r.pmap, .decimal false r.field e m⟩
  | .decimal true f e m =>
    let r := fastEncodeDecimalIndivid b p ⟨f, e, m⟩
    ⟨r.ok, r.buffer, r.pmap, .decimal true r.field.field r.field.exponent r.field.mantissa⟩
  | f => ⟨false, b, p, f⟩

/-! ## The message -/

/-- The field loop of `fast_message_encode`. -/
def encodeFields (b : Buffer) (p : Pmap) : List FastField → Encoded (List FastField)
  | [] => ⟨true, b, p, []⟩
  | .sequence s :: fields => ⟨false, b, p, .sequence s :: fields⟩
  | .elem f :: fields =>
    let r := encodeElement b p f
    if !r.ok then ⟨false, r.buffer, r.pmap, .elem r.field :: fields⟩
    else
      let rest := encodeFields r.buffer r.pmap fields
      ⟨rest.ok, rest.buffer, rest.pmap, .elem r.field :: rest.field⟩

/-- The bytes of the map up to its last one that is not zero, out of the first `n`. -/
def trimmed (bytes : List UInt8) : Nat → Nat
  | 0 => 0
  | n + 1 => if bytes.getD n 0 ≠ 0 then n + 1 else trimmed bytes n

/-- The map as it is put: seven bits a byte, the stop bit on the last one. -/
def putPmap (bytes : List UInt8) : Nat → Nat → Buffer → Buffer
  | _, 0, b => b
  | i, 1, b => b.bufferPut (bytes.getD i 0 ||| 0x80)
  | i, n + 2, b => putPmap bytes (i + 1) (n + 1) (b.bufferPut (bytes.getD i 0 &&& 0x7F))

/-- The map `fast_message_encode` starts with: all of its bytes, the template id's bit set. -/
def initialPmap : Pmap :=
  ({ isValid := false, pmapBit := 0, nrBytes := pmapMaxBytes, bytes := List.replicate pmapMaxBytes 0 } : Pmap).pmapSet

/-- The outcome of `fast_message_encode`: success, `msg->pmap_buf`, `msg->msg_buf`, the message. -/
structure MessageEncoded where
  ok : Bool
  pmapBuf : Buffer
  msgBuf : Buffer
  msg : Message
  deriving DecidableEq, Repr

/-- `fast_message_encode`. -/
def fastMessageEncode (m : Message) (pmapBuf msgBuf : Buffer) : MessageEncoded :=
  let t := transferUint msgBuf m.tid
  if !t.1 then ⟨false, pmapBuf, t.2, m⟩
  else
    let r := encodeFields t.2 initialPmap m.fields
    let m := { m with fields := r.field }
    if !r.ok then ⟨false, pmapBuf, r.buffer, m⟩
    else
      let nrBytes := trimmed r.pmap.bytes pmapMaxBytes
      if pmapBuf.bufferRemaining < nrBytes then ⟨false, pmapBuf, r.buffer, m⟩
      else ⟨true, putPmap r.pmap.bytes 0 nrBytes pmapBuf, r.buffer, m⟩

end Libtrading.Fast
