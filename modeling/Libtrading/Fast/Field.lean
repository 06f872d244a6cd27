import Libtrading.Fast.Parse

/-!
# `struct fast_field`

A field keeps its template attributes and its dictionary: the current value
and state, the previous value and state (the encoder's), and the initial
value. The value union becomes a type parameter; `FastField` picks it by the
field's type. The sub-fields of a decimal with individual operators are INT
fields; a sequence keeps its length field, its own presence map and cursor,
the running element `elements[0]` and the elements handed to the application.
-/

namespace Libtrading.Fast

/-- `enum fast_op`. -/
inductive Op where
  | none
  | copy
  | incr
  | delta
  | default
  | constant
  deriving DecidableEq, Repr

/-- `enum fast_presence`. -/
inductive Presence where
  | optional
  | mandatory
  deriving DecidableEq, Repr

/-- `enum fast_state`. -/
inductive State where
  | undefined
  | assigned
  | empty
  deriving DecidableEq, Repr

/-- The members of `struct fast_field` that do not depend on the type, and the three unions. -/
structure Field (α : Type) where
  name : String
  presence : Presence
  op : Op
  state : State
  statePrevious : State
  hasReset : Bool
  value : α
  reset : α
  previous : α
  deriving DecidableEq, Repr

namespace Field
variable {α : Type}

/-- `field_is_mandatory`. -/
def isMandatory (f : Field α) : Bool := f.presence == .mandatory

/-- `field_state_empty`. -/
def stateEmpty (f : Field α) : Bool := f.state == .empty

/-- `field_state_empty_previous`. -/
def stateEmptyPrevious (f : Field α) : Bool := f.statePrevious == .empty

end Field

/-- The two numbers of `struct fast_decimal`. -/
structure Decimal where
  exp : I64
  mnt : I64
  deriving DecidableEq, Repr

/-- A decimal field and the two fields of its individual operators. -/
structure DecimalFields where
  field : Field Decimal
  exponent : Field I64
  mantissa : Field I64
  deriving DecidableEq, Repr

def stringMaxBytes : Nat := 256

/-- A 256-byte array of a field, `string_value` or `vector_value`. -/
abbrev Bytes := List UInt8

/-- The characters a C string function sees: up to the first zero byte. -/
def cstr (s : Bytes) : Bytes := s.takeWhile (· != 0)

/-- `strcpy`, `memcpy` of `strlen + 1` bytes: the source's characters and a terminator. -/
def strcpy (dst src : Bytes) : Bytes := cstr src ++ 0 :: dst.drop ((cstr src).length + 1)

/-- The fields a sequence element may hold, by type; `FAST_TYPE_SEQUENCE` inside an element is
accepted by the template loader and refused by the decoder, so nothing of it is kept. -/
inductive ElementField where
  | int (f : Field I64)
  | uint (f : Field U64)
  | string (unicode : Bool) (f : Field Bytes)
  | vector (f : Field Bytes)
  | decimal (individ : Bool) (f : Field Decimal) (exponent mantissa : Field I64)
  | nested (name : String)
  deriving DecidableEq, Repr

/-- A sequence field together with its `struct fast_sequence`: `decoded` and `msgDecoded` are the
cursors `seq->decoded` and `seq->elements->decoded`, `head` is `elements[0]` and `elements` the rest. -/
structure Sequence where
  name : String
  presence : Presence
  state : State
  pmapReq : Bool
  pmap : Pmap
  decoded : Nat
  length : Field U64
  msgDecoded : Nat
  head : List ElementField
  elements : List (List ElementField)
  deriving DecidableEq, Repr

/-- `struct fast_field` by `enum fast_type`. -/
inductive FastField where
  | elem (f : ElementField)
  | sequence (s : Sequence)
  deriving DecidableEq, Repr

/-- `struct fast_message`, less its buffers and the name index built over `fields`. -/
structure Message where
  name : String
  tid : U64
  flagReset : Bool
  decoded : Nat
  fields : List FastField
  deriving DecidableEq, Repr

end Libtrading.Fast
