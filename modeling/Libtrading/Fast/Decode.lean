import Libtrading.Fast.Field

/-!
# The field decoders

`fast_decode_uint`, `fast_decode_int`, `fast_decode_unicode`,
`fast_decode_ascii`, `fast_decode_decimal_atomic` and `fast_decode_vector`
are one switch over the operator; they differ in how a value is read off the
wire, how the initial value is loaded and in what increment and delta do.
`Kind` holds these differences and `decodeField` is the switch. A decimal with
individual operators runs the INT decoder on its two sub-fields.
-/

namespace Libtrading.Fast
open Buffer

/-- A value taken off the wire into a field, with the nullable adjustment. -/
structure Reading (α : Type) where
  ret : Ret
  buffer : Buffer
  field : Field α
  deriving DecidableEq, Repr

/-- The outcome of a field decoder. -/
structure Decoded (φ : Type) where
  ret : Ret
  buffer : Buffer
  pmap : Pmap
  field : φ
  deriving DecidableEq, Repr

namespace Reading
variable {α : Type}

def toDecoded (r : Reading α) (pmap : Pmap) : Decoded (Field α) := ⟨r.ret, r.buffer, pmap, r.field⟩

end Reading

/-- What the decoders of the field types do differently. -/
structure Kind (α : Type) where
  /-- A value on the wire: the operators none, copy, increment and default. -/
  read : Buffer → Field α → Reading α
  /-- The initial value written over the current one. -/
  load : α → α → α
  /-- One increment; `none` where the type refuses the operator. -/
  incr : Option (α → α)
  /-- The operator delta; `none` where the type refuses it. -/
  delta : Option (Buffer → Field α → Reading α)

section Operators
variable {α : Type} (K : Kind α)

/-- A field left off the wire whose dictionary entry is undefined. -/
def initialValue (f : Field α) : Ret × Field α :=
  if f.hasReset then (.ok, { f with state := .assigned, value := K.load f.value f.reset })
  else if f.isMandatory then (.garbled, f)
  else (.ok, { f with state := .empty })

/-- A field left off the wire whose dictionary entry is empty. -/
def emptyValue (f : Field α) : Ret × Field α :=
  if f.isMandatory then (.garbled, f) else (.ok, f)

/-- `FAST_OP_COPY` and `FAST_OP_INCR` with the presence bit clear; `keep` is what the operator
does with an assigned value. -/
def previousValue (keep : α → α) (f : Field α) : Ret × Field α :=
  match f.state with
  | .undefined => initialValue K f
  | .assigned => (.ok, { f with value := keep f.value })
  | .empty => emptyValue f

/-- The constant, loaded where the field is not assigned. -/
def constantValue (f : Field α) : Field α :=
  { f with
    value := if f.state ≠ .assigned then K.load f.value f.reset else f.value
    state := .assigned }

/-- `FAST_OP_CONSTANT`. -/
def decodeConstant (b : Buffer) (p : Pmap) (f : Field α) : Decoded (Field α) :=
  let f := constantValue K f
  if f.isMandatory then ⟨.ok, b, p, f⟩
  else if p.next.pmapIsSet then ⟨.ok, b, p.next, f⟩
  else ⟨.ok, b, p.next, { f with state := .empty }⟩

/-- The operators that use a presence bit: on the wire, or taken from the dictionary. -/
def decodePresent (absent : Field α → Ret × Field α) (b : Buffer) (p : Pmap) (f : Field α) :
    Decoded (Field α) :=
  if p.next.pmapIsSet then (K.read b f).toDecoded p.next
  else ⟨(absent f).1, b, p.next, (absent f).2⟩

/-- The switch over the operator. -/
def decodeField (b : Buffer) (p : Pmap) (f : Field α) : Decoded (Field α) :=
  match f.op with
  | .none => (K.read b f).toDecoded p
  | .copy => decodePresent K (previousValue K id) b p f
  | .incr =>
    match K.incr with
    | none => ⟨.garbled, b, p, f⟩
    | some incr => decodePresent K (previousValue K incr) b p f
  | .delta =>
    match K.delta with
    | none => ⟨.garbled, b, p, f⟩
    | some delta => (delta b f).toDecoded p
  | .default => decodePresent K (initialValue K) b p f
  | .constant => decodeConstant K b p f

end Operators

/-! ## Numbers -/

/-- The unsigned value a field takes from the wire: zero is NULL where the field is optional. -/
def assignUint (f : Field U64) (v : U64) : Field U64 :=
  if f.isMandatory then { f with state := .assigned, value := v }
  else if v = 0 then { f with state := .empty, value := v }
  else { f with state := .assigned, value := v - 1 }

/-- The signed value a field takes from the wire. -/
def assignInt (f : Field I64) (v : I64) : Field I64 :=
  if f.isMandatory then { f with state := .assigned, value := v }
  else if v = 0 then { f with state := .empty, value := v }
  else { f with state := .assigned, value := if (0 : I64).slt v then v - 1 else v }

/-- A number off the wire, given to the field by `assign`. -/
def readNumber (parse : Buffer → Parse (BitVec 64)) (assign : Field (BitVec 64) → BitVec 64 → Field (BitVec 64))
    (b : Buffer) (f : Field (BitVec 64)) : Reading (BitVec 64) :=
  match parse b with
  | .fail ret b => ⟨ret, b, f⟩
  | .done v b => ⟨.ok, b, assign f v⟩

def readUint : Buffer → Field U64 → Reading U64 := readNumber parseUint assignUint

def readInt : Buffer → Field I64 → Reading I64 := readNumber parseInt assignInt

/-- A delta from the wire added to the value; `tmp` is zero for NULL in an optional field. The
unsigned decoder subtracts `-tmp` where `tmp` is negative, which is the same 64-bit sum. -/
def assignDelta (f : Field I64) (tmp : I64) : Field I64 :=
  let sum := f.value + tmp
  if f.isMandatory then { f with state := .assigned, value := sum }
  else if tmp = 0 then { f with state := .empty, value := sum }
  else { f with state := .assigned, value := if (0 : I64).slt tmp then sum - 1 else sum }

def readDelta : Buffer → Field I64 → Reading I64 := readNumber parseInt assignDelta

def uintKind : Kind U64 := ⟨readUint, fun _ reset => reset, some (· + 1), some readDelta⟩
def intKind : Kind I64 := ⟨readInt, fun _ reset => reset, some (· + 1), some readDelta⟩

/-- `fast_decode_uint`. -/
def fastDecodeUint : Buffer → Pmap → Field U64 → Decoded (Field U64) := decodeField uintKind

/-- `fast_decode_int`. -/
def fastDecodeInt : Buffer → Pmap → Field I64 → Decoded (Field I64) := decodeField intKind

/-! ## Strings and byte vectors -/

/-- A value that starts with a number: the state is set first, zero is NULL where the field is
optional, and `rest` reads on. -/
def readNullable {α : Type} (parse : Buffer → Parse (BitVec 64))
    (rest : BitVec 64 → Buffer → Field α → Reading α) (b : Buffer) (f : Field α) : Reading α :=
  match parse b with
  | .fail ret b => ⟨ret, b, f⟩
  | .done v b =>
    let f := { f with state := .assigned }
    if !f.isMandatory && v = 0 then ⟨.ok, b, { f with state := .empty }⟩
    else rest v b f

/-- The number of zero bytes stored behind a length-prefixed value. -/
def zeroFill : Nat := 8

/-- Zero bytes behind the value just stored, at the full width of its length. -/
def terminateVector (f : Field Bytes) (len : U64) (value : Bytes) (b : Buffer) : Reading Bytes :=
  if stringMaxBytes < len.toNat + zeroFill then ⟨.fault, b, { f with value := value }⟩
  else ⟨.ok, b, { f with
    value := value.take len.toNat ++ List.replicate zeroFill 0 ++ value.drop (len.toNat + zeroFill) }⟩

/-- The bytes behind their length. The length is 64 bits wide on the wire, narrowed to `int` for
`parse_bytes` and used at full width for the zero bytes. -/
def readCounted (len : U64) (b : Buffer) (f : Field Bytes) : Reading Bytes :=
  let len := if f.isMandatory then len else len - 1
  match parseBytes b f.value (len.setWidth 32) with
  | .fail ret b => ⟨ret, b, f⟩
  | .done value b => terminateVector f len value b

/-- The length-prefixed bytes of a unicode string or a byte vector. -/
def readVector : Buffer → Field Bytes → Reading Bytes := readNullable parseUint readCounted

/-- A stop-bit string given to the field; one zero character is NULL where the field is optional. -/
def assignAscii (f : Field Bytes) (r : StringRead) : Reading Bytes :=
  let f := { f with value := r.value }
  if r.ret ≠ .ok then ⟨r.ret, r.buffer, f⟩
  else if !f.isMandatory && r.len = 1 && f.value.headD 0 = 0 then
    ⟨.ok, r.buffer, { f with state := .empty }⟩
  else ⟨.ok, r.buffer, { f with state := .assigned }⟩

def readAscii (b : Buffer) (f : Field Bytes) : Reading Bytes :=
  assignAscii f (parseString b f.value stringMaxBytes)

/-- The scratch array of an ASCII delta, `char delta[32]`. -/
def deltaScratch : Bytes := List.replicate 32 0

/-- The string an ASCII delta makes of `base`: `length` characters cut at the back, or with the
excess-one encoding of a negative `length`, at the front. `none` where the source reports garbled. -/
def spliceAscii (value delta : Bytes) (length : I64) : Option Bytes :=
  let lenb := (cstr value).length
  let lend := (cstr delta).length
  if (0 : I64).sle length then
    let k := length.toNat
    if lenb < k then none
    else if stringMaxBytes < lenb + lend - k + 1 then none
    else some (value.take (lenb - k) ++ cstr delta ++ 0 :: value.drop (lenb - k + lend + 1))
  else
    let k := (-(length + 1)).toNat
    if lenb < k then none
    else if stringMaxBytes < lenb + lend - k + 1 then none
    else some (cstr delta ++ (value.take lenb).drop k ++ 0 :: value.drop (lenb - k + lend + 1))

/-- The signed number of a nullable field, off by one above zero where the field is optional. -/
def adjustInt {α : Type} (f : Field α) (v : I64) : I64 :=
  if !f.isMandatory && (0 : I64).slt v then v - 1 else v

/-- The value spliced with the string of an ASCII delta. -/
def assignAsciiDelta (f : Field Bytes) (length : I64) (r : StringRead) : Reading Bytes :=
  if r.ret ≠ .ok then ⟨r.ret, r.buffer, f⟩
  else match spliceAscii f.value r.value length with
    | none => ⟨.garbled, r.buffer, f⟩
    | some value => ⟨.ok, r.buffer, { f with value := value }⟩

/-- The string of an ASCII delta behind its length. -/
def readSpliced (length : I64) (b : Buffer) (f : Field Bytes) : Reading Bytes :=
  assignAsciiDelta f (adjustInt f length) (parseString b deltaScratch deltaScratch.length)

/-- `FAST_OP_DELTA` of `fast_decode_ascii`. -/
def readAsciiDelta : Buffer → Field Bytes → Reading Bytes := readNullable parseInt readSpliced

def unicodeKind : Kind Bytes := ⟨readVector, strcpy, none, none⟩
def asciiKind : Kind Bytes := ⟨readAscii, strcpy, none, some readAsciiDelta⟩
def vectorKind : Kind Bytes := ⟨readVector, fun _ reset => reset, none, none⟩

/-- `fast_decode_unicode`. -/
def fastDecodeUnicode : Buffer → Pmap → Field Bytes → Decoded (Field Bytes) := decodeField unicodeKind

/-- `fast_decode_ascii`. -/
def fastDecodeAscii : Buffer → Pmap → Field Bytes → Decoded (Field Bytes) := decodeField asciiKind

/-- `fast_decode_vector`. -/
def fastDecodeVector : Buffer → Pmap → Field Bytes → Decoded (Field Bytes) := decodeField vectorKind

/-- `fast_decode_string`. -/
def fastDecodeString (unicode : Bool) : Buffer → Pmap → Field Bytes → Decoded (Field Bytes) :=
  if unicode then fastDecodeUnicode else fastDecodeAscii

/-! ## Decimals -/

/-- The exponents the decoder accepts. -/
def exponentOk (exp : I64) : Bool := (-63 : I64).sle exp && exp.sle 63

/-- The mantissa behind the exponent `exp`. `place` says what the two are added to: nothing, or the
current value for delta. -/
def readMantissa (place : Decimal → Decimal → Decimal) (exp : I64) (b : Buffer) (f : Field Decimal) :
    Reading Decimal :=
  let exp := adjustInt f exp
  if !exponentOk (place f.value ⟨exp, 0⟩).exp then ⟨.garbled, b, f⟩
  else match parseInt b with
    | .fail ret b => ⟨ret, b, f⟩
    | .done mnt b => ⟨.ok, b, { f with value := place f.value ⟨exp, mnt⟩ }⟩

/-- An exponent and a mantissa off the wire. -/
def readDecimalWith (place : Decimal → Decimal → Decimal) : Buffer → Field Decimal → Reading Decimal :=
  readNullable parseInt (readMantissa place)

def readDecimal : Buffer → Field Decimal → Reading Decimal := readDecimalWith fun _ d => d

def readDecimalDelta : Buffer → Field Decimal → Reading Decimal :=
  readDecimalWith fun v d => ⟨v.exp + d.exp, v.mnt + d.mnt⟩

def decimalKind : Kind Decimal := ⟨readDecimal, fun _ reset => reset, none, some readDecimalDelta⟩

/-- `fast_decode_decimal_atomic`. -/
def fastDecodeDecimalAtomic : Buffer → Pmap → Field Decimal → Decoded (Field Decimal) :=
  decodeField decimalKind

/-- The decimal put together from its sub-fields, the mantissa decoded as `m`. -/
def assignDecimal (d : DecimalFields) (m : Decoded (Field I64)) : Decoded DecimalFields :=
  let d := { d with mantissa := m.field }
  if m.ret ≠ .ok then ⟨m.ret, m.buffer, m.pmap, d⟩
  else ⟨.ok, m.buffer, m.pmap, { d with field := { d.field with
    state := .assigned, value := ⟨d.exponent.value, d.mantissa.value⟩ } }⟩

/-- The mantissa of a decimal with individual operators, behind the exponent decoded as `e`. -/
def decodeMantissa (e : Decoded (Field I64)) (d : DecimalFields) : Decoded DecimalFields :=
  let d := { d with exponent := e.field }
  if e.ret ≠ .ok then ⟨e.ret, e.buffer, e.pmap, d⟩
  else if e.field.stateEmpty then
    ⟨if d.field.isMandatory then .garbled else .ok, e.buffer, e.pmap,
      { d with field := { d.field with state := .empty } }⟩
  else if !exponentOk e.field.value then ⟨.garbled, e.buffer, e.pmap, d⟩
  else assignDecimal d (fastDecodeInt e.buffer e.pmap d.mantissa)

/-- `fast_decode_decimal_individ`. -/
def fastDecodeDecimalIndivid (b : Buffer) (p : Pmap) (d : DecimalFields) : Decoded DecimalFields :=
  decodeMantissa (fastDecodeInt b p d.exponent) d

/-- The decoder of an element's or a message's field, by type. -/
def decodeElement (b : Buffer) (p : Pmap) : ElementField → Decoded ElementField
  | .int f => let r := fastDecodeInt b p f; ⟨r.ret, r.buffer, r.pmap, .int r.field⟩
  | .uint f => let r := fastDecodeUint b p f; ⟨r.ret, r.buffer, r.pmap, .uint r.field⟩
  | .string unicode f =>
    let r := fastDecodeString unicode b p f; ⟨r.ret, r.buffer, r.pmap, .string unicode r.field⟩
  | .vector f => let r := fastDecodeVector b p f; ⟨r.ret, r.buffer, r.pmap, .vector r.field⟩
  | .decimal false f e m =>
    let r := fastDecodeDecimalAtomic b p f; ⟨r.ret, r.buffer, r.pmap, .decimal false r.field e m⟩
  | .decimal true f e m =>
    let r := fastDecodeDecimalIndivid b p ⟨f, e, m⟩
    ⟨r.ret, r.buffer, r.pmap, .decimal true r.field.field r.field.exponent r.field.mantissa⟩
  | .nested name => ⟨.garbled, b, p, .nested name⟩

end Libtrading.Fast
