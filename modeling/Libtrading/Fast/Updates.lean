import Libtrading.Fast.Sequences

/-!
# What a field decoder writes

A field decoder writes the value and the state of its field and nothing else
(`Updates`), and whether it moves the bit of the presence map is decided by
the attributes of the field alone (`movesBit`).
-/

namespace Libtrading.Fast
set_option autoImplicit false
open Buffer

/-- Only the value and the state of a field may have changed. -/
def Field.Updates {α : Type} (f f' : Field α) : Prop := f' = { f with state := f'.state, value := f'.value }

namespace Field.Updates
variable {α : Type} {f f' f'' : Field α}

theorem refl (f : Field α) : f.Updates f := rfl

/-- Two writes are one write of the value and the state. -/
theorem trans (h : f.Updates f') (h' : f'.Updates f'') : f.Updates f'' := by
  rw [Updates] at h h' ⊢
  rw [h'.trans (congrArg (fun g : Field α => { g with state := f''.state, value := f''.value }) h)]

theorem op (h : f.Updates f') : f'.op = f.op := by
  rw [Updates] at h
  rw [h]

theorem presence (h : f.Updates f') : f'.presence = f.presence := by
  rw [Updates] at h
  rw [h]

theorem reset (h : f.Updates f') : f'.reset = f.reset := by
  rw [Updates] at h
  rw [h]

theorem hasReset (h : f.Updates f') : f'.hasReset = f.hasReset := by
  rw [Updates] at h
  rw [h]

end Field.Updates

/-- A reader that writes the value and the state only. -/
def Reads {α : Type} (read : Buffer → Field α → Reading α) : Prop :=
  ∀ (b : Buffer) (f : Field α), f.Updates (read b f).field

/-- So do all readers of a type. -/
structure Kind.Updates {α : Type} (K : Kind α) : Prop where
  read : Reads K.read
  delta : ∀ {delta}, K.delta = some delta → Reads delta

/-! ## The readers -/

theorem assign_uint_updates (f : Field U64) (v : U64) : f.Updates (assignUint f v) := by
  unfold assignUint
  split
  · rfl
  · split <;> rfl

theorem assign_int_updates (f : Field I64) (v : I64) : f.Updates (assignInt f v) := by
  unfold assignInt
  split
  · rfl
  · split <;> rfl

theorem assign_delta_updates (f : Field I64) (v : I64) : f.Updates (assignDelta f v) := by
  unfold assignDelta
  simp only
  split
  · rfl
  · split <;> rfl

/-- **A number** writes the value and the state, if its assignment does. -/
theorem reads_number {parse : Buffer → Parse (BitVec 64)}
    {assign : Field (BitVec 64) → BitVec 64 → Field (BitVec 64)} (h : ∀ (f : Field (BitVec 64)) (v : BitVec 64), f.Updates (assign f v)) :
    Reads (readNumber parse assign) := by
  intro b f
  unfold readNumber
  split
  · exact .refl f
  · exact h f _

/-- **A nullable number** writes the state, and leaves the rest to what is read behind it. -/
theorem reads_nullable {α : Type} {parse : Buffer → Parse (BitVec 64)}
    {rest : BitVec 64 → Buffer → Field α → Reading α} (h : ∀ v, Reads (rest v)) : Reads (readNullable parse rest) := by
  intro b f
  unfold readNullable
  split
  · exact .refl f
  · rename_i v b' _
    have assigned : f.Updates { f with state := .assigned } := rfl
    simp only
    split
    · rfl
    · exact assigned.trans (h v b' _)

/-- The end of a vector is part of its value. -/
theorem terminate_vector_updates (f : Field Bytes) (len : U64) (value : Bytes) (b : Buffer) :
    f.Updates (terminateVector f len value b).field := by
  unfold terminateVector
  split <;> rfl

/-- The bytes of a vector are its value. -/
theorem reads_counted (len : U64) : Reads (readCounted len) := by
  intro b f
  unfold readCounted
  simp only
  generalize (if f.isMandatory then len else len - 1) = len
  split
  · exact .refl f
  · exact terminate_vector_updates ..

/-- A stop-bit string is stored in the value, also where it is interrupted. -/
theorem reads_ascii : Reads readAscii := by
  intro b f
  unfold readAscii assignAscii
  simp only
  split
  · rfl
  · split <;> rfl

/-- An ASCII delta is spliced into the value. -/
theorem reads_spliced (length : I64) : Reads (readSpliced length) := by
  intro b f
  unfold readSpliced assignAsciiDelta
  split
  · exact .refl f
  · split <;> rfl

/-- A mantissa is placed in the value. -/
theorem reads_mantissa (place : Decimal → Decimal → Decimal) (exp : I64) : Reads (readMantissa place exp) := by
  intro b f
  unfold readMantissa
  simp only
  split
  · exact .refl f
  · split <;> rfl

/-- **Every type** writes the value and the state of its field: here the signed numbers, the others below. -/
theorem int_updates : intKind.Updates :=
  ⟨reads_number assign_int_updates, by rintro _ ⟨⟩; exact reads_number assign_delta_updates⟩

theorem uint_updates : uintKind.Updates :=
  ⟨reads_number assign_uint_updates, by rintro _ ⟨⟩; exact reads_number assign_delta_updates⟩

theorem unicode_updates : unicodeKind.Updates := ⟨reads_nullable reads_counted, by rintro _ ⟨⟩⟩

theorem ascii_updates : asciiKind.Updates := ⟨reads_ascii, by rintro _ ⟨⟩; exact reads_nullable reads_spliced⟩

theorem vector_updates : vectorKind.Updates := ⟨reads_nullable reads_counted, by rintro _ ⟨⟩⟩

theorem decimal_updates : decimalKind.Updates :=
  ⟨reads_nullable (reads_mantissa _), by rintro _ ⟨⟩; exact reads_nullable (reads_mantissa _)⟩

/-! ## The switch over the operator -/

section Operators
variable {α : Type} {K : Kind α}

/-- The value of the template, or none. -/
theorem initial_value_updates (f : Field α) : f.Updates (initialValue K f).2 := by
  unfold initialValue
  split
  · rfl
  · split <;> rfl

/-- The previous value stays, is stepped, or comes from the template. -/
theorem previous_value_updates (keep : α → α) (f : Field α) : f.Updates (previousValue K keep f).2 := by
  unfold previousValue emptyValue
  split
  · exact initial_value_updates f
  · rfl
  · split <;> rfl

/-- A bit of the map decides between the wire and the dictionary. -/
theorem decode_present_updates (hK : K.Updates) {absent : Field α → Ret × Field α}
    (h : ∀ f : Field α, f.Updates (absent f).2) (b : Buffer) (p : Pmap) (f : Field α) :
    f.Updates (decodePresent K absent b p f).field := by
  unfold decodePresent
  split
  · exact hK.read b f
  · exact h f

/-- A constant is taken from the template. -/
theorem decode_constant_updates (b : Buffer) (p : Pmap) (f : Field α) : f.Updates (decodeConstant K b p f).field := by
  unfold decodeConstant
  simp only
  split
  · rfl
  · split <;> rfl

/-- **A field decoder writes the value and the state.** -/
theorem decode_field_updates (hK : K.Updates) (b : Buffer) (p : Pmap) (f : Field α) :
    f.Updates (decodeField K b p f).field := by
  unfold decodeField
  split
  · exact hK.read b f
  · exact decode_present_updates hK (previous_value_updates id) b p f
  · split
    · exact .refl f
    · exact decode_present_updates hK (previous_value_updates _) b p f
  · split
    · exact .refl f
    · rename_i delta hd
      exact hK.delta hd b f
  · exact decode_present_updates hK initial_value_updates b p f
  · exact decode_constant_updates b p f

/-! ## The bit of the map -/

/-- Whether the decoder of a field moves the bit: `refuses` is that the type has no increment. -/
def Op.movesBit (op : Op) (presence : Presence) (refuses : Bool) : Bool :=
  op.pmapRequired presence && !(op == .incr && refuses)

/-- An optional constant takes a bit of the map, a mandatory one takes none. -/
theorem decode_constant_pmap (b : Buffer) (p : Pmap) (f : Field α) :
    (decodeConstant K b p f).pmap = if f.isMandatory then p else p.next := by
  unfold decodeConstant
  have mandatory : (constantValue K f).isMandatory = f.isMandatory := rfl
  simp only [mandatory]
  split
  · rfl
  · split <;> rfl

/-- **The attributes of a field decide whether its decoder moves the bit.** -/
theorem decode_field_pmap (b : Buffer) (p : Pmap) (f : Field α) :
    (decodeField K b p f).pmap = if f.op.movesBit f.presence K.incr.isNone then p.next else p := by
  unfold decodeField
  cases op : f.op with
  | none => rfl
  | copy => rw [if_pos (by rfl)]; exact decode_present_pmap ..
  | incr =>
    cases incr : K.incr with
    | none => rfl
    | some incr => rw [if_pos (by rfl)]; exact decode_present_pmap ..
  | delta =>
    cases K.delta with
    | none => rfl
    | some delta => rfl
  | default => rw [if_pos (by rfl)]; exact decode_present_pmap ..
  | constant =>
    cases presence : f.presence <;>
      simp [decode_constant_pmap, Field.isMandatory, Op.movesBit, Op.pmapRequired, presence]

end Operators

end Libtrading.Fast
