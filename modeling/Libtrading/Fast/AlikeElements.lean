import Libtrading.Fast.AlikeDecimals
import Libtrading.Fast.CopiedOut

/-!
# Elements that decode alike

What the application sees of a field: its state, and the value of one that has a value. A field of an element decodes
alike with another one of the same template where its dictionary does, in one call or over several.
-/

namespace Libtrading.Fast
set_option autoImplicit false
open Buffer

/-! ## What is seen -/

/-- What the application sees of a field, by type. -/
inductive Seen where
  | number (f : State × Option (BitVec 64))
  | bytes (f : State × Option Bytes)
  | decimal (f : State × Option Decimal)
  | nothing
  deriving DecidableEq, Repr

/-- Of a string the characters are seen, of a decimal not its sub-fields. -/
def ElementField.seen : ElementField → Seen
  | .int f => .number (f.seen id)
  | .uint f => .number (f.seen id)
  | .string _ f => .bytes (f.seen cstr)
  | .vector f => .bytes (f.seen id)
  | .decimal _ f _ _ => .decimal (f.seen id)
  | .nested _ => .nothing

/-- Of a sequence the length and the elements received are seen. -/
inductive FieldSeen where
  | elem (f : Seen)
  | sequence (length : State × Option (BitVec 64)) (elements : List (List Seen))
  deriving DecidableEq, Repr

def FastField.seen : FastField → FieldSeen
  | .elem f => .elem f.seen
  | .sequence s => .sequence (s.length.seen id) ((s.elements.take s.count).map (·.map ElementField.seen))

/-! ## Fields of elements -/

/-- A step of two fields that went alike, as `Field.Stepped` says of one type. -/
structure Stepped {φ σ : Type} (Alike : Prop → φ → φ → Prop) (seen : φ → σ) (p q : Pmap) (r r' : Decoded φ) : Prop where
  step : Decoded.InStep p q r r'
  alike : r.ret ≠ .fault → Alike (r.ret = .msgPartial ∧ p.next.pmapIsSet = true) r.field r'.field
  seen : r.ret = .ok → seen r.field = seen r'.field

/-- Two fields of the template field `o` that decode alike, by type. The sub-fields of a decimal with individual
operators are fields themselves. -/
inductive ElementField.Alike (wire : Prop) : ElementField → ElementField → ElementField → Prop
  | int {o f g : Field I64} (h : Field.Alike intKind (plain _) o wire f g) : Alike wire (.int o) (.int f) (.int g)
  | uint {o f g : Field U64} (h : Field.Alike uintKind (plain _) o wire f g) : Alike wire (.uint o) (.uint f) (.uint g)
  | unicode {o f g : Field Bytes} (h : Field.Alike unicodeKind chars o wire f g) :
    Alike wire (.string true o) (.string true f) (.string true g)
  | ascii {o f g : Field Bytes} (h : Field.Alike asciiKind passing o wire f g) :
    Alike wire (.string false o) (.string false f) (.string false g)
  | vector {o f g : Field Bytes} (h : Field.Alike vectorKind (whole _) o wire f g) :
    Alike wire (.vector o) (.vector f) (.vector g)
  | atomic {o f g : Field Decimal} {e e₁ e₂ m m₁ m₂ : Field I64} (h : Field.Alike decimalKind (whole _) o wire f g) :
    Alike wire (.decimal false o e m) (.decimal false f e₁ m₁) (.decimal false g e₂ m₂)
  | individ {o : Field Decimal} {e m : Field I64} {d d' : DecimalFields} (h : DecimalFields.Alike o e m d d') :
    Alike wire (.decimal true o e m) (.decimal true d.field d.exponent d.mantissa)
      (.decimal true d'.field d'.exponent d'.mantissa)
  | nested {o f g : String} : Alike wire (.nested o) (.nested f) (.nested g)

theorem ElementField.Alike.mono {o f g : ElementField} {wire wire' : Prop} (h : ElementField.Alike wire o f g)
    (more : wire → wire') : ElementField.Alike wire' o f g := by
  cases h with
  | int h => exact .int (h.mono more)
  | uint h => exact .uint (h.mono more)
  | unicode h => exact .unicode (h.mono more)
  | ascii h => exact .ascii (h.mono more)
  | vector h => exact .vector (h.mono more)
  | atomic h => exact .atomic (h.mono more)
  | individ h => exact .individ h
  | nested => exact .nested

theorem Decoded.InStep.wrap {φ ψ : Type} {p q : Pmap} {r r' : Decoded φ} (h : Decoded.InStep p q r r') {f g : ψ} :
    Decoded.InStep p q ⟨r.ret, r.buffer, r.pmap, f⟩ ⟨r'.ret, r'.buffer, r'.pmap, g⟩ := ⟨h.ret, h.buffer, h.pmap⟩

/-- **A field of an element.** Fields that decode alike do, and then show the same. -/
theorem element_stepped {o f g : ElementField} {p q : Pmap} (map : p.Alike q) (b : Buffer)
    (h : ElementField.Alike (p.next.pmapIsSet = true) o f g) :
    Stepped (ElementField.Alike · o) ElementField.seen p q (decodeElement b p f) (decodeElement b q g) := by
  cases h with
  | int h =>
    obtain ⟨step, alike, agreed⟩ := field_stepped int_lockstep map b h
    exact ⟨step.wrap, fun defined => .int (alike defined), fun ok => congrArg Seen.number (agreed ok).seen⟩
  | uint h =>
    obtain ⟨step, alike, agreed⟩ := field_stepped uint_lockstep map b h
    exact ⟨step.wrap, fun defined => .uint (alike defined), fun ok => congrArg Seen.number (agreed ok).seen⟩
  | unicode h =>
    obtain ⟨step, alike, agreed⟩ := field_stepped unicode_lockstep map b h
    exact ⟨step.wrap, fun defined => .unicode (alike defined), fun ok => congrArg Seen.bytes (agreed ok).seen⟩
  | ascii h =>
    obtain ⟨step, alike, agreed⟩ := field_stepped ascii_lockstep map b h
    exact ⟨step.wrap, fun defined => .ascii (alike defined), fun ok => congrArg Seen.bytes (agreed ok).seen⟩
  | vector h =>
    obtain ⟨step, alike, agreed⟩ := field_stepped vector_lockstep map b h
    exact ⟨step.wrap, fun defined => .vector (alike defined), fun ok => congrArg Seen.bytes (agreed ok).seen⟩
  | atomic h =>
    obtain ⟨step, alike, agreed⟩ := field_stepped decimal_lockstep map b h
    exact ⟨step.wrap, fun defined => .atomic (alike defined), fun ok => congrArg Seen.decimal (agreed ok).seen⟩
  | individ h =>
    obtain ⟨step, alike, seen⟩ := individ_stepped h map b
    exact ⟨step.wrap, fun _ => .individ alike, fun ok => congrArg Seen.decimal (seen ok)⟩
  | nested => exact ⟨⟨rfl, rfl, 0, p.skip_zero.symm, q.skip_zero.symm⟩, fun _ => .nested, fun _ => rfl⟩

end Libtrading.Fast
