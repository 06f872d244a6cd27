import Libtrading.Fast.Message

/-!
# Freshly loaded templates

`fast_template.c` fills `calloc`ed messages from the elements of an XML file.
The model starts behind the XML reader: a `Node` holds the attributes of a
field element and of the operator element inside it, the numbers already
through `strtol` and the bytes of a vector through `fast_vector_init`.
-/

namespace Libtrading.Fast
set_option autoImplicit false

/-- A field element. Where it has no operator element, nothing is asked for a `value`. -/
structure Node (α : Type) where
  name : String
  presence : Presence
  op : Op
  value : Option α
  deriving DecidableEq, Repr

namespace Node
variable {α : Type}

/-- The `value` of the operator element. -/
def prop (n : Node α) : Option α :=
  match n.op with
  | .none => none
  | _ => n.value

/-- `fast_field_init` of a field that holds one value; `zero` is what `fast_reset_init` stores
without a `value`, and `calloc` before it. -/
def fieldInit (n : Node α) (zero : α) : Field α where
  name := n.name
  presence := n.presence
  op := n.op
  state := .undefined
  statePrevious := .undefined
  hasReset := n.prop.isSome
  value := n.prop.getD zero
  reset := n.prop.getD zero
  previous := n.prop.getD zero

end Node

/-- The zeroed array of a string or a vector. -/
def blankBytes : Bytes := List.replicate stringMaxBytes 0

/-- `fast_field_init` of a string. -/
def stringInit (n : Node Bytes) : Field Bytes :=
  ({ n with value := n.value.map (strcpy blankBytes) } : Node Bytes).fieldInit blankBytes

/-- `fast_field_init` of a byte vector: the bytes, in a zeroed array. -/
def vectorInit (n : Node Bytes) : Field Bytes :=
  ({ n with value := n.value.map fun v => v ++ blankBytes.drop v.length } : Node Bytes).fieldInit blankBytes

/-- `fast_decimal_init_atomic`: a decimal never takes a `value`. -/
def decimalInit (n : Node Decimal) : Field Decimal := ({ n with value := none } : Node Decimal).fieldInit ⟨0, 0⟩

/-- The sub-field of a decimal without individual operators, which nothing reads. -/
def noSubField : Field I64 := Node.fieldInit ⟨"", .optional, .none, none⟩ 0

/-- The elements a template field or a sequence element is made from, by type. A decimal whose first
inner element is no operator has its operators on `exponent` and `mantissa`; one of these that is not
there is a zeroed sub-field. -/
inductive ElementNode where
  | int (n : Node I64)
  | uint (n : Node U64)
  | string (unicode : Bool) (n : Node Bytes)
  | vector (n : Node Bytes)
  | decimal (n : Node Decimal)
  | individ (name : String) (presence : Presence) (exponent mantissa : Node I64)
  | nested (name : String)
  deriving DecidableEq, Repr

/-- `fast_field_init` of a field that is no sequence. -/
def elementInit : ElementNode → ElementField
  | .int n => .int (n.fieldInit 0)
  | .uint n => .uint (n.fieldInit 0)
  | .string unicode n => .string unicode (stringInit n)
  | .vector n => .vector (vectorInit n)
  | .decimal n => .decimal false (decimalInit n) noSubField noSubField
  | .individ name presence e m =>
    .decimal true (decimalInit ⟨name, presence, .none, none⟩)
      (({ e with presence := presence } : Node I64).fieldInit 0) (m.fieldInit 0)
  | .nested name => .nested name

/-- A sequence element of a template: its length, and the fields of its elements. -/
structure SequenceNode where
  name : String
  presence : Presence
  length : Node U64
  fields : List ElementNode
  deriving DecidableEq, Repr

namespace Op

/-- `pmap_required`. -/
def pmapRequired (op : Op) (presence : Presence) : Bool :=
  match op with
  | .constant => presence != .mandatory
  | .copy | .incr | .default => true
  | .none | .delta => false

end Op

/-- `pmap_required` of an element's field; a decimal with individual operators has the operator none
itself, and so has a nested sequence. -/
def ElementNode.pmapRequired : ElementNode → Bool
  | .int n => n.op.pmapRequired n.presence
  | .uint n => n.op.pmapRequired n.presence
  | .string _ n => n.op.pmapRequired n.presence
  | .vector n => n.op.pmapRequired n.presence
  | .decimal n => n.op.pmapRequired n.presence
  | .individ .. => false
  | .nested _ => false

/-- `fast_sequence_init`: `FAST_SEQUENCE_ELEMENTS` copies of the element, the first of them the
running one. -/
def sequenceInit (n : SequenceNode) : Sequence where
  name := n.name
  presence := n.presence
  state := .undefined
  pmapReq := n.fields.any ElementNode.pmapRequired
  pmap := Pmap.empty
  decoded := 0
  length := ({ n.length with
    presence := if n.presence == .mandatory then n.length.presence else .optional } : Node U64).fieldInit 0
  msgDecoded := 0
  head := n.fields.map elementInit
  elements := List.replicate (sequenceElements - 1) (n.fields.map elementInit)

inductive FieldNode where
  | elem (n : ElementNode)
  | sequence (n : SequenceNode)
  deriving DecidableEq, Repr

/-- `fast_field_init`. -/
def fastFieldInit : FieldNode → FastField
  | .elem n => .elem (elementInit n)
  | .sequence n => .sequence (sequenceInit n)

/-- A `template` element. -/
structure Template where
  name : String
  tid : U64
  flagReset : Bool
  fields : List FieldNode
  deriving DecidableEq, Repr

/-- `fast_message_init`. -/
def messageInit (t : Template) : Message where
  name := t.name
  tid := t.tid
  flagReset := t.flagReset
  decoded := 0
  fields := t.fields.map fastFieldInit

/-- A slot of `rx_messages` with no template in it. -/
def emptySlot : Message := ⟨"", 0, false, 0, []⟩

/-- `FAST_TEMPLATE_MAX_NUMBER`. -/
def templateMaxNumber : Nat := 128

/-- `FAST_RECV_BUFFER_SIZE`. -/
def recvBufferSize : Nat := 2 * 2048

/-- `fast_session_new` and `fast_parse_template`: a session with `preambleBytes` in front of every
message, and the templates in the first slots. -/
def newSession (preambleBytes : Nat) (ts : List Template) : Session where
  lastTid := 0
  rxBuffer := Buffer.bufferNew recvBufferSize
  nrMessages := ts.length
  rxMessage := none
  rxMessages := ts.map messageInit ++ List.replicate (templateMaxNumber - ts.length) emptySlot
  preamble := ⟨false, preambleBytes, List.replicate 8 0⟩
  pmap := Pmap.empty

/-- What `fast_parse_template` needs to load the templates: at most `FAST_TEMPLATE_MAX_NUMBER` of them,
and values that fit the arrays they are copied to. -/
def ElementNode.fits : ElementNode → Prop
  | .string _ n => ∀ v, n.prop = some v → (cstr v).length < stringMaxBytes
  | .vector n => ∀ v, n.prop = some v → v.length ≤ stringMaxBytes
  | _ => True

end Libtrading.Fast
