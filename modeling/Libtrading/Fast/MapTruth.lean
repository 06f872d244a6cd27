import Libtrading.Fast.Numbers
import Libtrading.Fast.RoundTrip
import Libtrading.Fast.Updates

/-!
# What the presence map says

Encoder and decoder count the bits of the presence map each on their own, and
the encoder ignores the failure of `pmap_set` on a bit behind the last byte of
the map. `Field.consults` is that the decoder of a field looks at a bit,
`Field.marked` that the encoder means to set it, `Truthful` that the bit the
decoder finds there is set exactly when a value was transmitted.
-/

namespace Libtrading.Fast
set_option autoImplicit false
open Buffer Pmap

/-! ## One field -/

/-- The type has no increment. -/
def Coder.refuses {α : Type} (E : Coder α) : Bool :=
  match E.incr with
  | .step _ => false
  | _ => true

namespace Field
variable {α : Type} (E : Coder α) (K : Kind α)

/-- The decoder looks at a bit of the map. -/
def consults (f : Field α) : Bool := f.op.movesBit f.presence K.incr.isNone

/-- The value of the field is the one `expected`, and the decoder is taken to have it. -/
def isExpected (f : Field α) (expected : α) : Bool :=
  !f.isNull && f.state == .assigned && !f.stateEmptyPrevious && E.same f.value expected

/-- The encoder means to set the bit. -/
def marked (f : Field α) : Bool :=
  match f.op with
  | .none | .delta => false
  | .copy => !f.isExpected E f.previous
  | .incr =>
    match E.incr with
    | .step next => !f.isExpected E (next f.previous)
    | _ => false
  | .default => true
  | .constant => !f.stateEmpty

/-- The encoder put bytes for the field, or it is an optional constant that is present. -/
def Transmitted (b : Buffer) (p : Pmap) (f : Field α) : Prop :=
  (encodeField E b p f).buffer ≠ b ∨ (f.op = .constant ∧ f.isMandatory = false ∧ f.stateEmpty = false)

/-- The bit the decoder looks at is set exactly when the field was transmitted. -/
def Truthful (b : Buffer) (p : Pmap) (f : Field α) (bit : Bool) : Prop :=
  f.consults K = true → (bit = true ↔ f.Transmitted E b p)

/-- The bit behind the cursor `i`, where it has to be set, is one of the map. -/
def InMap (i : Nat) (f : Field α) : Prop := f.consults K = true → f.marked E = true → i + 1 < bits

end Field

/-- What is put is never empty, and leaves the operator alone. -/
structure Coder.Puts {α : Type} (E : Coder α) : Prop where
  put : ∀ {b b' : Buffer} {f : Field α}, b.Valid → E.put b f = (true, b') → ∃ w, w ≠ [] ∧ b.Appends b' w
  putNull : ∀ {b b' : Buffer} {f : Field α}, b.Valid → E.putNull b f = (true, b') → ∃ w, w ≠ [] ∧ b.Appends b' w
  onEmpty : ∀ f, (E.onEmpty f).op = f.op
  onValue : ∀ f, (E.onValue f).op = f.op

theorem transfer_int_appends {b b' : Buffer} {v : I64} (hv : b.Valid) (h : transferInt b v = (true, b')) :
    ∃ w, w ≠ [] ∧ b.Appends b' w := by
  obtain ⟨n, size, -⟩ := transfer_size_int_bounds v
  rw [transferInt, size] at h
  split at h
  · cases h
  · rename_i room
    obtain ⟨-, rfl⟩ := Prod.mk.inj h
    exact ⟨_, (wire_groups_stopped v n).nonempty, put_groups_appends v hv (by omega)⟩

theorem transfer_uint_appends {b b' : Buffer} {v : U64} (hv : b.Valid) (h : transferUint b v = (true, b')) :
    ∃ w, w ≠ [] ∧ b.Appends b' w := by
  obtain ⟨n, size, -⟩ := transfer_size_uint_bounds v
  rw [transferUint, size] at h
  split at h
  · cases h
  · rename_i room
    obtain ⟨-, rfl⟩ := Prod.mk.inj h
    exact ⟨_, (wire_groups_stopped v n).nonempty, put_groups_appends v hv (by omega)⟩

theorem int_puts : intCoder.Puts where
  put hv h := by
    simp only [intCoder] at h
    exact transfer_int_appends hv h
  putNull hv h := by
    simp only [intCoder] at h
    exact transfer_int_appends hv h
  onEmpty _ := rfl
  onValue _ := rfl

theorem uint_puts : uintCoder.Puts where
  put {b b' f} hv h := by
    have sent : (if f.op = .delta then transferInt b (uintOnWire f) else transferUint b (uintOnWire f)) = (true, b') := h
    split at sent
    · exact transfer_int_appends hv sent
    · exact transfer_uint_appends hv sent
  putNull {b b' f} hv h := by
    have sent : (if f.op = .delta then transferInt b 0 else transferUint b 0) = (true, b') := h
    split at sent
    · exact transfer_int_appends hv sent
    · exact transfer_uint_appends hv sent
  onEmpty _ := rfl
  onValue _ := rfl

theorem string_puts : stringCoder.Puts where
  put hv h := ⟨_, List.append_ne_nil_of_right_ne_nil _ (List.cons_ne_nil _ _), transfer_string_appends hv h⟩
  putNull hv h := ⟨_, List.cons_ne_nil _ _, transfer_stop_appends hv h⟩
  onEmpty _ := rfl
  onValue _ := rfl

theorem decimal_puts : decimalCoder.Puts where
  put {b b' f} hv h := by
    simp only [decimalCoder, transferDecimal] at h
    rcases exp : transferInt b (decimalOnWire f).exp with ⟨ok, b₁⟩
    simp only [exp] at h
    cases ok with
    | false => cases h
    | true =>
      have sent : transferInt b₁ (decimalOnWire f).mnt = (true, b') := by simpa only [if_true] using h
      obtain ⟨w, nonempty, first⟩ := transfer_int_appends hv exp
      obtain ⟨w', -, second⟩ := transfer_int_appends first.valid sent
      exact ⟨w ++ w', List.append_ne_nil_of_left_ne_nil nonempty _, first.trans second⟩
  putNull hv h := by
    simp only [decimalCoder] at h
    exact transfer_int_appends hv h
  onEmpty _ := rfl
  onValue _ := rfl

/-- Something was appended: the buffer is another one. -/
theorem appends_ne {b b' : Buffer} {w : List UInt8} (nonempty : w ≠ []) (h : b.Appends b' w) : b' ≠ b := by
  rintro rfl
  have unread := h.unread
  exact nonempty (List.self_eq_append_right.mp unread)

section Switch
variable {α : Type} {E : Coder α} {K : Kind α} {b : Buffer} {p : Pmap} {f : Field α}

/-- A switch that is left by `break`: what the map says by then. -/
structure LeftOut (E : Coder α) (K : Kind α) (p : Pmap) (f : Field α) : Prop where
  label : (encodeSwitch E p f).label = .done
  pmap : (encodeSwitch E p f).pmap = if f.consults K then (if f.marked E then p.next.pmapSet else p.next) else p
  marked : f.consults K = true → (f.marked E = true ↔ f.op = .constant ∧ f.isMandatory = false ∧ f.stateEmpty = false)

/-- A switch that is left for a transfer. -/
structure Goes (E : Coder α) (K : Kind α) (p : Pmap) (f : Field α) : Prop where
  label : (encodeSwitch E p f).label = .empty ∨ (encodeSwitch E p f).label = .transfer
  op : (encodeSwitch E p f).field.op = f.op
  pmap : (encodeSwitch E p f).pmap = if f.consults K then p.next else p
  consults : f.usesBit = f.consults K
  marked : f.consults K = true → f.marked E = true
  op_ne : f.op ≠ .constant

theorem previous_exits (found : Bool) (omitted : Field α) (h : (switchPrevious found omitted p f).label ≠ .fail) :
    (switchPrevious found omitted p f).pmap = p ∧
      if !f.isNull && f.state == .assigned && !f.stateEmptyPrevious && found then
        (switchPrevious found omitted p f).label = .done
      else ((switchPrevious found omitted p f).label = .empty ∨ (switchPrevious found omitted p f).label = .transfer) ∧
        (switchPrevious found omitted p f).field.op = f.op := by
  unfold switchPrevious at h ⊢
  cases null : f.isNull with
  | true => exact ⟨rfl, .inl rfl, rfl⟩
  | false =>
    simp only [null, Bool.false_eq_true, if_false] at h ⊢
    cases state : f.state with
    | undefined => exact ⟨rfl, .inr rfl, rfl⟩
    | empty =>
      rw [state] at h
      exact absurd rfl h
    | assigned =>
      simp only
      cases previous : f.stateEmptyPrevious with
      | true => exact ⟨rfl, .inr rfl, rfl⟩
      | false =>
        cases found with
        | true => exact ⟨rfl, rfl⟩
        | false => exact ⟨rfl, .inr rfl, rfl⟩

theorem always_exits (p : Pmap) (f : Field α) : (switchAlways p f).pmap = p ∧
    ((switchAlways p f).label = .empty ∨ (switchAlways p f).label = .transfer) ∧ (switchAlways p f).field.op = f.op := by
  unfold switchAlways
  split
  · exact ⟨rfl, .inl rfl, rfl⟩
  · exact ⟨rfl, .inr rfl, rfl⟩

theorem default_exits (h : (switchDefault p f).label ≠ .fail) : (switchDefault p f).pmap = p ∧
    ((switchDefault p f).label = .empty ∨ (switchDefault p f).label = .transfer) ∧ (switchDefault p f).field.op = f.op := by
  unfold switchDefault at h ⊢
  split
  · exact ⟨rfl, .inl rfl, rfl⟩
  · rename_i null
    rw [if_neg null] at h
    cases state : f.state with
    | empty =>
      rw [state] at h
      exact absurd rfl h
    | undefined => exact ⟨rfl, .inr rfl, rfl⟩
    | assigned => exact ⟨rfl, .inr rfl, rfl⟩

/-- Copy and increment: the bit is set where the decoder does not find the value by itself. -/
theorem previous_left {omitted : Field α} {expected : α} (op : f.op = .copy ∨ f.op = .incr)
    (switch : encodeSwitch E p f = switchPrevious (E.same f.value expected) omitted p.next f)
    (looks : f.consults K = true) (marked : f.marked E = !f.isExpected E expected)
    (h : (encodeSwitch E p f).label ≠ .fail) : LeftOut E K p f ∨ Goes E K p f := by
  have op_ne : f.op ≠ .constant := by
    obtain op | op := op <;> rw [op] <;> exact nofun
  rw [switch] at h
  obtain ⟨pmap, exits⟩ := previous_exits _ _ h
  split at exits
  · rename_i found
    have unmarked : f.marked E = false := by rw [marked, Field.isExpected, found]; rfl
    refine .inl ⟨by rw [switch]; exact exits, by rw [switch, pmap, looks, unmarked]; rfl, fun _ => ?_⟩
    rw [unmarked]
    exact ⟨nofun, fun h => absurd h.1 op_ne⟩
  · rename_i found
    have found : f.isExpected E expected = false := Bool.eq_false_iff.mpr found
    have marks : f.marked E = true := by rw [marked, found]; rfl
    refine .inr ⟨by rw [switch]; exact exits.1, by rw [switch]; exact exits.2, by rw [switch, pmap, looks]; rfl, ?_,
      fun _ => marks, op_ne⟩
    rw [looks, Field.usesBit]
    obtain op | op := op <;> rw [op] <;> rfl

/-- The constant is never put; where it is optional, its bit tells whether it is there. -/
theorem constant_left (op : f.op = .constant) : LeftOut E K p f := by
  have switch : encodeSwitch E p f = switchConstant p f := by rw [encodeSwitch, op]
  have marked : f.marked E = !f.stateEmpty := by rw [Field.marked, op]
  have looks : f.consults K = !f.isMandatory := by
    rw [Field.consults, op, Field.isMandatory]
    cases f.presence <;> rfl
  refine ⟨?_, ?_, fun optional => ?_⟩
  · rw [switch, switchConstant]
    split
    · rfl
    · split <;> rfl
  · rw [switch, switchConstant, looks, marked]
    cases f.isMandatory with
    | true => rfl
    | false => cases f.stateEmpty <;> rfl
  · rw [looks, Bool.not_eq_true'] at optional
    rw [marked, Bool.not_eq_true']
    exact ⟨fun present => ⟨op, optional, present⟩, fun h => h.2.2⟩

/-- The two ways out of the switch that do not fail. -/
theorem switch_exits (alike : E.refuses = K.incr.isNone) (h : (encodeSwitch E p f).label ≠ .fail) :
    LeftOut E K p f ∨ Goes E K p f := by
  cases op : f.op with
  | none =>
    obtain ⟨pmap, label, same⟩ := always_exits p f
    have switch : encodeSwitch E p f = switchAlways p f := by rw [encodeSwitch, op]
    have idle : f.consults K = false := by rw [Field.consults, op]; rfl
    refine .inr ⟨by rw [switch]; exact label, by rw [switch, same], by rw [switch, pmap, idle]; rfl, ?_, ?_, ?_⟩
    · rw [idle, Field.usesBit, op]
      rfl
    · rw [idle]
      exact (absurd · (by decide))
    · rw [op]
      exact (absurd · (by decide))
  | delta =>
    have switch : encodeSwitch E p f = if E.delta then switchAlways p f else ⟨.fail, p, f⟩ := by rw [encodeSwitch, op]
    have idle : f.consults K = false := by rw [Field.consults, op]; rfl
    rw [switch] at h
    split at h
    case isFalse => exact absurd rfl h
    rename_i supported
    rw [if_pos supported] at switch
    obtain ⟨pmap, label, same⟩ := always_exits p f
    refine .inr ⟨by rw [switch]; exact label, by rw [switch, same], by rw [switch, pmap, idle]; rfl, ?_, ?_, ?_⟩
    · rw [idle, Field.usesBit, op]
      rfl
    · rw [idle]
      exact (absurd · (by decide))
    · rw [op]
      exact (absurd · (by decide))
  | default =>
    have switch : encodeSwitch E p f = switchDefault p.next f := by rw [encodeSwitch, op]
    have looks : f.consults K = true := by rw [Field.consults, op]; rfl
    rw [switch] at h
    obtain ⟨pmap, label, same⟩ := default_exits h
    refine .inr ⟨by rw [switch]; exact label, by rw [switch, same], by rw [switch, pmap, looks]; rfl, ?_, ?_, ?_⟩
    · rw [looks, Field.usesBit, op]
      rfl
    · rw [Field.marked, op]
      exact fun _ => rfl
    · rw [op]
      exact (absurd · (by decide))
  | copy =>
    have switch : encodeSwitch E p f = switchPrevious (E.same f.value f.previous) f p.next f := by rw [encodeSwitch, op]
    have looks : f.consults K = true := by rw [Field.consults, op]; rfl
    have marked : f.marked E = !f.isExpected E f.previous := by rw [Field.marked, op]
    exact previous_left (.inl op) switch looks marked h
  | incr =>
    cases incr : E.incr with
    | refuse =>
      have switch : encodeSwitch E p f = ⟨.fail, p, f⟩ := by rw [encodeSwitch, op]; simp only [incr]
      rw [switch] at h
      exact absurd rfl h
    | skip =>
      have switch : encodeSwitch E p f = ⟨.done, p, f⟩ := by rw [encodeSwitch, op]; simp only [incr]
      have refuses : K.incr.isNone = true := by rw [← alike, Coder.refuses, incr]
      have idle : f.consults K = false := by rw [Field.consults, op, refuses]; rfl
      refine .inl ⟨by rw [switch], by rw [switch, idle]; rfl, ?_⟩
      rw [idle]
      exact (absurd · (by decide))
    | step next =>
      have switch : encodeSwitch E p f = switchPrevious (E.same f.value (next f.previous))
          { f with previous := next f.previous } p.next f := by rw [encodeSwitch, op]; simp only [incr]
      have steps : K.incr.isNone = false := by rw [← alike, Coder.refuses, incr]
      have looks : f.consults K = true := by rw [Field.consults, op, steps]; rfl
      have marked : f.marked E = !f.isExpected E (next f.previous) := by rw [Field.marked, op]; simp only [incr]
      exact previous_left (.inr op) switch looks marked h
  | constant => exact .inl (constant_left op)

/-- **A field and the map**: where it moves the cursor, the bit it means to set, and whether it put bytes. -/
theorem field_marks (alike : E.refuses = K.incr.isNone) (puts : E.Puts) (hv : b.Valid)
    (ok : (encodeField E b p f).ok = true) :
    (encodeField E b p f).buffer.Valid ∧
      (encodeField E b p f).pmap = (if f.consults K then (if f.marked E then p.next.pmapSet else p.next) else p) ∧
      (f.consults K = true → (f.Transmitted E b p ↔ f.marked E = true)) := by
  have passed : (encodeSwitch E p f).label ≠ .fail := by
    intro fail
    rw [encodeField, fail] at ok
    cases ok
  rcases switch_exits alike passed with left | goes
  · have out : encodeField E b p f = ⟨true, b, (encodeSwitch E p f).pmap, (encodeSwitch E p f).field⟩ := by
      rw [encodeField, left.label]
    rw [Field.Transmitted, out]
    refine ⟨hv, left.pmap, fun looks => ?_⟩
    rw [left.marked looks]
    exact ⟨fun h => h.resolve_left fun h => h rfl, .inr⟩
  · obtain ⟨t, g, op, out, sent⟩ : ∃ (t : Transferred) (g : Field α), g.op = f.op ∧
        encodeField E b p f = afterTransfer t (encodeSwitch E p f).pmap g ∧
        (t.1 = true → ∃ w, w ≠ [] ∧ b.Appends t.2 w) := by
      rcases goes.label with label | label
      · refine ⟨_, (E.onEmpty (encodeSwitch E p f).field).remember (encodeSwitch E p f).field.state,
          (puts.onEmpty _).trans goes.op, by rw [encodeField, label], fun went => ?_⟩
        exact puts.putNull hv (Prod.ext went rfl)
      · refine ⟨_, (E.onValue (encodeSwitch E p f).field).remember (encodeSwitch E p f).field.state,
          (puts.onValue _).trans goes.op, by rw [encodeField, label], fun went => ?_⟩
        exact puts.put hv (Prod.ext went rfl)
    rw [out] at ok
    obtain ⟨w, nonempty, appends⟩ := sent ok
    have went : t.1 = true := ok
    have uses : g.usesBit = f.consults K := by rw [Field.usesBit, op, ← goes.consults, Field.usesBit]
    rw [Field.Transmitted, out]
    refine ⟨appends.valid, ?_, fun looks => ?_⟩
    · rw [afterTransfer, went, uses, goes.pmap]
      cases looks : f.consults K with
      | false => rfl
      | true =>
        rw [goes.marked looks]
        rfl
    · rw [goes.marked looks]
      exact ⟨fun _ => rfl, fun _ => .inl (appends_ne nonempty appends)⟩

end Switch

/-! ## The fields of a message -/

/-- The sub-fields of a decimal, as `fast_encode_decimal_individ` loads them. -/
def DecimalFields.loaded (d : DecimalFields) : DecimalFields :=
  let d := if d.field.stateEmpty then d else { d with
    exponent := { d.exponent with value := d.field.value.exp }
    mantissa := { d.mantissa with value := d.field.value.mnt } }
  { d with
    exponent := { d.exponent with state := d.field.state }
    mantissa := { d.mantissa with state := d.field.state } }

/-- Behind an exponent that is `NULL`, no mantissa is looked for. -/
def DecimalFields.bitsUsed (d : DecimalFields) : Nat :=
  (d.exponent.consults intKind).toNat + if d.loaded.exponent.isNull then 0 else (d.mantissa.consults intKind).toNat

/-- The bits of the exponent and the mantissa. -/
def DecimalFields.Truthful (bit : Nat → Bool) (i : Nat) (b : Buffer) (p : Pmap) (d : DecimalFields) : Prop :=
  d.loaded.exponent.Truthful intCoder intKind b p (bit (i + 1)) ∧
    (d.loaded.exponent.isNull = false →
      d.loaded.mantissa.Truthful intCoder intKind (fastEncodeInt b p d.loaded.exponent).buffer
        (fastEncodeInt b p d.loaded.exponent).pmap (bit (i + (d.exponent.consults intKind).toNat + 1)))

def DecimalFields.InMap (i : Nat) (d : DecimalFields) : Prop :=
  d.loaded.exponent.InMap intCoder intKind i ∧
    (d.loaded.exponent.isNull = false →
      d.loaded.mantissa.InMap intCoder intKind (i + (d.exponent.consults intKind).toNat))

namespace ElementField

/-- The decoder of a string's type. -/
abbrev stringKind (unicode : Bool) : Kind Bytes := if unicode then unicodeKind else asciiKind

/-- The bits by which the decoder of a field moves its cursor. -/
def bitsUsed : ElementField → Nat
  | .int f => (f.consults intKind).toNat
  | .uint f => (f.consults uintKind).toNat
  | .string unicode f => (f.consults (stringKind unicode)).toNat
  | .vector f => (f.consults vectorKind).toNat
  | .decimal false f _ _ => (f.consults decimalKind).toNat
  | .decimal true f e m => (⟨f, e, m⟩ : DecimalFields).bitsUsed
  | .nested _ => 0

/-- The bits the decoder of a field looks at, with its cursor at `i`, are set exactly where something
was transmitted. -/
def Truthful (bit : Nat → Bool) (i : Nat) (b : Buffer) (p : Pmap) : ElementField → Prop
  | .int f => f.Truthful intCoder intKind b p (bit (i + 1))
  | .uint f => f.Truthful uintCoder uintKind b p (bit (i + 1))
  | .string unicode f => f.Truthful stringCoder (stringKind unicode) b p (bit (i + 1))
  | .decimal false f _ _ => f.Truthful decimalCoder decimalKind b p (bit (i + 1))
  | .decimal true f e m => (⟨f, e, m⟩ : DecimalFields).Truthful bit i b p
  | _ => True

/-- The bits that have to be set are bits of the map. -/
def InMap (i : Nat) : ElementField → Prop
  | .int f => f.InMap intCoder intKind i
  | .uint f => f.InMap uintCoder uintKind i
  | .string unicode f => f.InMap stringCoder (stringKind unicode) i
  | .decimal false f _ _ => f.InMap decimalCoder decimalKind i
  | .decimal true f e m => (⟨f, e, m⟩ : DecimalFields).InMap i
  | _ => True

end ElementField

/-- The map `bit` tells the truth about the fields, the decoder's cursor at `i` and the encoder at `b`
and `p`. -/
def MapTruthful (bit : Nat → Bool) : Nat → Buffer → Pmap → List FastField → Prop
  | i, b, p, .elem f :: fields =>
    f.Truthful bit i b p ∧
      MapTruthful bit (i + f.bitsUsed) (encodeElement b p f).buffer (encodeElement b p f).pmap fields
  | _, _, _, _ => True

/-- Every bit that has to be set for the fields is one of the map. -/
def FieldsInMap : Nat → List FastField → Prop
  | i, .elem f :: fields => f.InMap i ∧ FieldsInMap (i + f.bitsUsed) fields
  | _, _ => True

/-! ## The map under construction -/

/-- Marking the bit at the cursor: a bit behind the map is dropped. -/
theorem writing_marked {p : Pmap} {i : Nat} (h : Writing p i) :
    Writing p.pmapSet i ∧ ∀ j, p.pmapSet.bitAt j = (p.bitAt j || decide (j = i ∧ i < bits)) := by
  by_cases inside : i < bits
  · refine ⟨writing_set h inside, fun j => ?_⟩
    rw [pmap_set_bit h.cursor h.size h.length inside]
    simp only [inside, and_true]
  · have dropped : p.pmapSet = p := by
      have behind : pmapMaxBytes ≤ i / 7 := (Nat.le_div_iff_mul_le (by decide)).mpr (by rw [bits] at inside; omega)
      rw [pmap_set_cursor h.cursor, h.size, if_pos behind]
    rw [dropped]
    refine ⟨h, fun j => ?_⟩
    simp only [inside, and_false, decide_false, Bool.or_false]

/-- A part of a message, encoded from the map `p` with its cursor at `i` to the map `q`: what the bits
say of it, as `n` more of them are used. -/
structure Mapped (i n : Nat) (p : Pmap) (b : Buffer) (q : Pmap) (truthful : (Nat → Bool) → Prop) (inMap : Prop) :
    Prop where
  valid : b.Valid
  writing : Writing q (i + n)
  before : ∀ j ≤ i, q.bitAt j = p.bitAt j
  truth : ∀ bit : Nat → Bool, (∀ j ≤ i + n, bit j = q.bitAt j) → (truthful bit ↔ inMap)

/-- One part after the other. -/
theorem Mapped.andThen {i n m : Nat} {p q r : Pmap} {b c : Buffer} {truthful truthful' : (Nat → Bool) → Prop}
    {inMap inMap' : Prop} (h : Mapped i n p b q truthful inMap) (h' : Mapped (i + n) m q c r truthful' inMap') :
    Mapped i (n + m) p c r (fun bit => truthful bit ∧ truthful' bit) (inMap ∧ inMap') where
  valid := h'.valid
  writing := by
    rw [← Nat.add_assoc]
    exact h'.writing
  before j hj := (h'.before j (by omega)).trans (h.before j hj)
  truth bit same := by
    have first := h.truth bit fun j hj => (same j (by omega)).trans (h'.before j hj)
    have second := h'.truth bit fun j hj => same j (by omega)
    exact and_congr first second

theorem Mapped.idle {i : Nat} {p : Pmap} {b : Buffer} (hv : b.Valid) (writing : Writing p i) :
    Mapped i 0 p b p (fun _ => True) True := ⟨hv, writing, fun _ _ => rfl, fun _ _ => Iff.rfl⟩

/-- The bit a field is given. -/
theorem field_mapped {α : Type} {E : Coder α} {K : Kind α} (alike : E.refuses = K.incr.isNone) (puts : E.Puts)
    {b : Buffer} {p : Pmap} {f : Field α} {i : Nat} (hv : b.Valid) (writing : Writing p i)
    (ok : (encodeField E b p f).ok = true) :
    Mapped i (f.consults K).toNat p (encodeField E b p f).buffer (encodeField E b p f).pmap
      (fun bit => f.Truthful E K b p (bit (i + 1))) (f.InMap E K i) := by
  obtain ⟨valid, pmap, transmitted⟩ := field_marks alike puts hv ok
  have next := writing_next writing
  cases looks : f.consults K with
  | false =>
    rw [looks] at pmap
    have pmap : (encodeField E b p f).pmap = p := pmap
    rw [pmap]
    refine ⟨valid, writing, fun _ _ => rfl, fun bit _ => ?_⟩
    rw [Field.Truthful, Field.InMap, looks]
    exact ⟨fun _ => nofun, fun _ => nofun⟩
  | true =>
    have sent := transmitted looks
    simp only [looks, if_true] at pmap
    rw [pmap]
    cases marked : f.marked E with
    | false =>
      refine ⟨valid, next, fun _ _ => rfl, fun bit same => ?_⟩
      have clear : bit (i + 1) = false := (same (i + 1) (Nat.le_refl _)).trans (writing.clear (i + 1) (Nat.lt_succ_self i))
      rw [marked] at sent
      rw [Field.Truthful, Field.InMap, looks, marked, clear, sent]
      exact ⟨fun _ _ => nofun, fun _ _ => Iff.rfl⟩
    | true =>
      obtain ⟨set, bitAt⟩ := writing_marked next
      refine ⟨valid, set, fun j hj => ?_, fun bit same => ?_⟩
      · rw [if_pos rfl, bitAt, decide_eq_false (by omega), Bool.or_false]
        rfl
      · have given : bit (i + 1) = decide (i + 1 < bits) := by
          rw [same (i + 1) (Nat.le_refl _), if_pos rfl, bitAt,
            show p.next.bitAt (i + 1) = false from writing.clear (i + 1) (Nat.lt_succ_self i)]
          simp only [true_and, Bool.false_or]
        rw [marked] at sent
        rw [Field.Truthful, Field.InMap, looks, marked, given, sent, decide_eq_true_iff]
        exact ⟨fun h _ _ => (h rfl).mpr rfl, fun h _ => ⟨fun _ => rfl, fun _ => h rfl rfl⟩⟩

/-! ## Exponent and mantissa -/

theorem previous_state {α : Type} {p : Pmap} {f omitted : Field α} (found : Bool) (same : omitted.state = f.state)
    (h : (switchPrevious found omitted p f).label ≠ .fail) :
    (switchPrevious found omitted p f).field.stateEmpty = f.isNull := by
  unfold switchPrevious at h ⊢
  cases null : f.isNull with
  | true =>
    rw [Field.isNull, Bool.and_eq_true] at null
    exact null.2
  | false =>
    simp only [null, Bool.false_eq_true, if_false] at h ⊢
    cases state : f.state with
    | undefined => rfl
    | empty =>
      rw [state] at h
      exact absurd rfl h
    | assigned =>
      have left : f.stateEmpty = false := by rw [Field.stateEmpty, state]; rfl
      simp only
      split
      · exact left
      · rw [Field.stateEmpty, same]
        exact left

theorem always_state {α : Type} (p : Pmap) (f : Field α) : (switchAlways p f).field.stateEmpty = f.isNull := by
  unfold switchAlways
  cases null : f.isNull with
  | true =>
    rw [Field.isNull, Bool.and_eq_true] at null
    exact null.2
  | false => rfl

/-- A number is `EMPTY` behind its encoder exactly where it was sent as `NULL`. -/
theorem switch_state {p : Pmap} {f : Field I64} (h : (encodeSwitch intCoder p f).label ≠ .fail) :
    (encodeSwitch intCoder p f).field.stateEmpty = f.isNull := by
  cases op : f.op with
  | none =>
    have switch : encodeSwitch intCoder p f = switchAlways p f := by
      rw [encodeSwitch, op]
    rw [switch]
    exact always_state p f
  | delta =>
    have switch : encodeSwitch intCoder p f = switchAlways p f := by
      rw [encodeSwitch, op]
      rfl
    rw [switch]
    exact always_state p f
  | copy =>
    have switch : encodeSwitch intCoder p f = switchPrevious (intCoder.same f.value f.previous) f p.next f := by
      rw [encodeSwitch, op]
    rw [switch] at h ⊢
    exact previous_state _ rfl h
  | incr =>
    have switch : encodeSwitch intCoder p f = switchPrevious (intCoder.same f.value (f.previous + 1)) { f with previous := f.previous + 1 } p.next f := by
      rw [encodeSwitch, op]
      simp only [intCoder]
    rw [switch] at h ⊢
    exact previous_state _ rfl h
  | default =>
    have switch : encodeSwitch intCoder p f = switchDefault p.next f := by
      rw [encodeSwitch, op]
    rw [switch] at h ⊢
    simp only [switchDefault] at h ⊢
    cases null : f.isNull with
    | true =>
      rw [Field.isNull, Bool.and_eq_true] at null
      exact null.2
    | false =>
      simp only [null, Bool.false_eq_true, if_false] at h ⊢
      cases state : f.state with
      | empty =>
        rw [state] at h
        exact absurd rfl h
      | undefined => rfl
      | assigned => rfl
  | constant =>
    have switch : encodeSwitch intCoder p f = switchConstant p f := by
      rw [encodeSwitch, op]
    rw [switch]
    simp only [switchConstant, Field.isNull]
    cases f.isMandatory with
    | true => rfl
    | false =>
      cases empty : f.stateEmpty with
      | true => exact empty
      | false => rfl

theorem encode_int_state {b : Buffer} {p : Pmap} {f : Field I64} (ok : (fastEncodeInt b p f).ok = true) :
    (fastEncodeInt b p f).field.stateEmpty = f.isNull := by
  have passed : (encodeSwitch intCoder p f).label ≠ .fail := by
    intro fail
    rw [fastEncodeInt, encodeField, fail] at ok
    cases ok
  have state := switch_state passed
  rw [fastEncodeInt, encodeField]
  cases label : (encodeSwitch intCoder p f).label with
  | fail => exact absurd label passed
  | _ => exact state

/-- The encoder of a decimal, with its sub-fields loaded. -/
theorem encode_individ (b : Buffer) (p : Pmap) (d : DecimalFields) :
    let e := fastEncodeInt b p d.loaded.exponent
    let m := fastEncodeInt e.buffer e.pmap d.loaded.mantissa
    fastEncodeDecimalIndivid b p d =
      if !e.ok then ⟨false, e.buffer, e.pmap, { d.loaded with exponent := e.field }⟩
      else if e.field.stateEmpty then ⟨true, e.buffer, e.pmap, { d.loaded with exponent := e.field }⟩
      else ⟨m.ok, m.buffer, m.pmap,
        ⟨{ d.loaded.field with state := .assigned }, e.field, m.field⟩⟩ := rfl

theorem loaded_consults (d : DecimalFields) : d.loaded.exponent.consults intKind = d.exponent.consults intKind ∧
    d.loaded.mantissa.consults intKind = d.mantissa.consults intKind := by
  unfold DecimalFields.loaded
  simp only
  split <;> exact ⟨rfl, rfl⟩

theorem individ_mapped {b : Buffer} {p : Pmap} {d : DecimalFields} {i : Nat} (hv : b.Valid) (writing : Writing p i)
    (ok : (fastEncodeDecimalIndivid b p d).ok = true) :
    Mapped i d.bitsUsed p (fastEncodeDecimalIndivid b p d).buffer (fastEncodeDecimalIndivid b p d).pmap
      (fun bit => d.Truthful bit i b p) (d.InMap i) := by
  obtain ⟨exponent, mantissa⟩ := loaded_consults d
  rw [encode_individ] at ok ⊢
  simp only at ok ⊢
  cases went : (fastEncodeInt b p d.loaded.exponent).ok with
  | false =>
    rw [went] at ok
    cases ok
  | true =>
    have first := field_mapped (E := intCoder) (K := intKind) rfl int_puts hv writing went
    rw [exponent] at first
    have state := encode_int_state went
    simp only [went, state, Bool.not_true, Bool.false_eq_true, if_false] at ok ⊢
    cases null : d.loaded.exponent.isNull with
    | true =>
      have used : d.bitsUsed = (d.exponent.consults intKind).toNat + 0 := by rw [DecimalFields.bitsUsed, null]; rfl
      rw [used, if_pos rfl]
      refine ⟨first.valid, first.writing, first.before, fun bit same => ?_⟩
      rw [DecimalFields.Truthful, DecimalFields.InMap, null]
      exact and_congr (first.truth bit same) ⟨fun _ => nofun, fun _ => nofun⟩
    | false =>
      have used : d.bitsUsed = (d.exponent.consults intKind).toNat + (d.mantissa.consults intKind).toNat := by
        rw [DecimalFields.bitsUsed, null]
        rfl
      simp only [null, Bool.false_eq_true, if_false] at ok ⊢
      have second := field_mapped (E := intCoder) (K := intKind) rfl int_puts first.valid first.writing ok
      rw [mantissa] at second
      have both := first.andThen second
      rw [used]
      refine ⟨both.valid, both.writing, both.before, fun bit same => ?_⟩
      rw [DecimalFields.Truthful, DecimalFields.InMap, null]
      have parts := both.truth bit same
      simp only [true_implies]
      exact parts

/-- A field of any type. -/
theorem element_mapped {b : Buffer} {p : Pmap} {f : ElementField} {i : Nat} (hv : b.Valid) (writing : Writing p i)
    (ok : (encodeElement b p f).ok = true) :
    Mapped i f.bitsUsed p (encodeElement b p f).buffer (encodeElement b p f).pmap (fun bit => f.Truthful bit i b p)
      (f.InMap i) := by
  cases f with
  | int f => exact field_mapped (E := intCoder) rfl int_puts hv writing ok
  | uint f => exact field_mapped (E := uintCoder) rfl uint_puts hv writing ok
  | string unicode f =>
    refine field_mapped (E := stringCoder) (K := ElementField.stringKind unicode) ?_ string_puts hv writing ok
    cases unicode <;> rfl
  | vector f => cases ok
  | decimal individ f e m =>
    cases individ with
    | false => exact field_mapped (E := decimalCoder) rfl decimal_puts hv writing ok
    | true => exact individ_mapped hv writing ok
  | nested name => cases ok

/-- **The fields of a message and the map**, by induction on the fields. -/
theorem fields_mapped {fields : List FastField} {b : Buffer} {p : Pmap} {i : Nat} (hv : b.Valid) (writing : Writing p i)
    (ok : (encodeFields b p fields).ok = true) :
    ∃ n, Mapped i n p (encodeFields b p fields).buffer (encodeFields b p fields).pmap
      (fun bit => MapTruthful bit i b p fields) (FieldsInMap i fields) := by
  induction fields generalizing b p i with
  | nil => exact ⟨0, .idle hv writing⟩
  | cons f fields ih =>
    cases f with
    | sequence s => cases ok
    | elem f =>
      obtain ⟨done, rest, shape⟩ := encode_fields_cons _ _ _ _ ok
      have head := element_mapped hv writing done
      obtain ⟨n, tail⟩ := ih head.valid head.writing rest
      rw [shape]
      exact ⟨f.bitsUsed + n, head.andThen tail⟩

/-! ## The decoder's cursor -/

/-- The same type, operator and presence. -/
def Field.SameAttributes {α : Type} (f g : Field α) : Prop := g.op = f.op ∧ g.presence = f.presence

def ElementField.SameAttributes : ElementField → ElementField → Prop
  | .int f, .int g => f.SameAttributes g
  | .uint f, .uint g => f.SameAttributes g
  | .string unicode f, .string unicode' g => unicode = unicode' ∧ f.SameAttributes g
  | .decimal false f _ _, .decimal false g _ _ => f.SameAttributes g
  | .decimal true _ e m, .decimal true _ e' m' => e.SameAttributes e' ∧ m.SameAttributes m'
  | .vector f, .vector g => f.SameAttributes g
  | .nested _, .nested _ => True
  | _, _ => False

/-- The fields of two copies of one template. -/
inductive FieldsAlike : List FastField → List FastField → Prop
  | nil : FieldsAlike [] []
  | elem {f g fs gs} (head : f.SameAttributes g) (tail : FieldsAlike fs gs) : FieldsAlike (.elem f :: fs) (.elem g :: gs)
  | sequence {s s' fs gs} : FieldsAlike (.sequence s :: fs) (.sequence s' :: gs)

/-- The decoder made of an exponent what the encoder sent it as: `NULL`, or a number. -/
def ElementField.NullAlike : ElementField → ElementField → Prop
  | .decimal true f e m, .decimal true _ e' _ => e'.stateEmpty = (⟨f, e, m⟩ : DecimalFields).loaded.exponent.isNull
  | _, _ => True

/-- With its map `P`, the decoder of a field asks `pmap_is_set` for the bits of `bit` behind `i`. -/
def ElementField.LooksAt (bit : Nat → Bool) (i : Nat) (c : Buffer) (P : Pmap) : ElementField → Prop
  | .decimal true _ e _ => P.next.pmapIsSet = bit (i + 1) ∧
      (fastDecodeInt c P e).pmap.next.pmapIsSet = bit (i + (e.consults intKind).toNat + 1)
  | _ => P.next.pmapIsSet = bit (i + 1)

/-- So do all decoders of a message, as long as the fields are decoded. -/
def DecoderLooks (bit : Nat → Bool) : Nat → Buffer → Pmap → List FastField → List FastField → Prop
  | i, c, P, .elem f :: fs, .elem g :: gs =>
    g.LooksAt bit i c P ∧
      ((decodeElement c P g).ret = .ok → f.NullAlike (decodeElement c P g).field →
        DecoderLooks bit (i + f.bitsUsed) (decodeElement c P g).buffer (decodeElement c P g).pmap fs gs)
  | _, _, _, _, _ => True

/-- The map shows the bits of `bit`, with the cursor at `i`. -/
structure Shown (bit : Nat → Bool) (i : Nat) (P : Pmap) : Prop where
  cursor : P.pmapBit = i
  same : ∀ j, P.bitAt j = bit j

section Cursor
variable {bit : Nat → Bool} {i : Nat} {P : Pmap} {c : Buffer}

theorem Shown.looks (h : Shown bit i P) : P.next.pmapIsSet = bit (i + 1) := (next_is_set h.cursor).trans (h.same _)

theorem Shown.next (h : Shown bit i P) : Shown bit (i + 1) P.next := ⟨next_bit h.cursor, h.same⟩

theorem Shown.field {α : Type} {K : Kind α} (h : Shown bit i P) (g : Field α) :
    Shown bit (i + (g.consults K).toNat) (decodeField K c P g).pmap := by
  rw [decode_field_pmap, show g.op.movesBit g.presence K.incr.isNone = g.consults K from rfl]
  cases g.consults K with
  | false => exact h
  | true => exact h.next

theorem Field.SameAttributes.consults {α : Type} {f g : Field α} (h : f.SameAttributes g) (K : Kind α) :
    g.consults K = f.consults K := by
  rw [Field.consults, Field.consults, h.1, h.2]

theorem Shown.alike {α : Type} {K : Kind α} (h : Shown bit i P) {f g : Field α} (same : f.SameAttributes g) :
    Shown bit (i + (f.consults K).toNat) (decodeField K c P g).pmap := by
  rw [← same.consults K]
  exact h.field g

/-- A decimal that was decoded: with its mantissa, or `NULL`. -/
theorem decimal_decoded {e : Decoded (Field I64)} {d : DecimalFields} (ok : (decodeMantissa e d).ret = .ok) :
    ReadsMantissa e ∨
      (e.field.stateEmpty = true ∧ (decodeMantissa e d).pmap = e.pmap ∧ (decodeMantissa e d).field.exponent = e.field) := by
  unfold decodeMantissa at ok ⊢
  simp only at ok ⊢
  split at ok
  · rename_i failed
    exact absurd ok failed
  · rename_i went
    rw [if_neg went]
    split at ok
    · rename_i null
      rw [if_pos null]
      exact .inr ⟨null, rfl, rfl⟩
    · rename_i number
      split at ok
      · cases ok
      · rename_i range
        exact .inl ⟨Decidable.not_not.mp went, Bool.eq_false_iff.mpr number, by simpa using range⟩

/-- The cursor behind a decimal: past the mantissa's bit unless the exponent was `NULL`. -/
theorem Shown.individ (h : Shown bit i P) {d g : DecimalFields} (exponent : d.exponent.SameAttributes g.exponent)
    (mantissa : d.mantissa.SameAttributes g.mantissa) (ok : (fastDecodeDecimalIndivid c P g).ret = .ok)
    (null : (fastDecodeDecimalIndivid c P g).field.exponent.stateEmpty = d.loaded.exponent.isNull) :
    Shown bit (i + d.bitsUsed) (fastDecodeDecimalIndivid c P g).pmap := by
  have first : Shown bit (i + (d.exponent.consults intKind).toNat) (fastDecodeInt c P g.exponent).pmap := h.alike exponent
  unfold fastDecodeDecimalIndivid at ok null ⊢
  obtain reads | ⟨empty, pmap, field⟩ := decimal_decoded ok
  · have sent : d.loaded.exponent.isNull = false := by
      rw [← null, reads.eq, assignDecimal]
      simp only
      split <;> exact reads.present
    have used : i + d.bitsUsed = i + (d.exponent.consults intKind).toNat + (d.mantissa.consults intKind).toNat := by
      rw [DecimalFields.bitsUsed, sent, Nat.add_assoc]
      rfl
    rw [used, reads.eq, assign_decimal_pmap]
    exact first.alike mantissa
  · have sent : d.loaded.exponent.isNull = true := by rw [← null, field, empty]
    have used : i + d.bitsUsed = i + (d.exponent.consults intKind).toNat := by
      rw [DecimalFields.bitsUsed, sent]
      rfl
    rw [used, pmap]
    exact first

/-- The bits the decoder of a field asks for, and its cursor behind the field. -/
theorem Shown.element (h : Shown bit i P) {f g : ElementField} (same : f.SameAttributes g) :
    g.LooksAt bit i c P ∧ ((decodeElement c P g).ret = .ok → f.NullAlike (decodeElement c P g).field →
      Shown bit (i + f.bitsUsed) (decodeElement c P g).pmap) := by
  cases f with
  | int f =>
    cases g with
    | int g => exact ⟨h.looks, fun _ _ => h.alike same⟩
    | _ => exact same.elim
  | uint f =>
    cases g with
    | uint g => exact ⟨h.looks, fun _ _ => h.alike same⟩
    | _ => exact same.elim
  | string unicode f =>
    cases g with
    | string unicode' g =>
      obtain ⟨rfl, same⟩ := same
      refine ⟨h.looks, fun _ _ => ?_⟩
      cases unicode with
      | false => exact h.alike same
      | true => exact h.alike same
    | _ => exact same.elim
  | vector f =>
    cases g with
    | vector g => exact ⟨h.looks, fun _ _ => h.alike same⟩
    | _ => exact same.elim
  | decimal individ f e m =>
    cases g with
    | decimal individ' f' e' m' =>
      cases individ with
      | false =>
        cases individ' with
        | false => exact ⟨h.looks, fun _ _ => h.alike same⟩
        | true => exact same.elim
      | true =>
        cases individ' with
        | false => exact same.elim
        | true =>
          have first := h.field (K := intKind) (c := c) e'
          exact ⟨⟨h.looks, first.looks⟩, fun ok null => h.individ same.1 same.2 ok null⟩
    | _ => cases individ <;> exact same.elim
  | nested name =>
    cases g with
    | nested name' => exact ⟨h.looks, fun ok => by cases ok⟩
    | _ => exact same.elim

theorem decoder_looks {fs gs : List FastField} (same : FieldsAlike fs gs) (h : Shown bit i P) :
    DecoderLooks bit i c P fs gs := by
  induction same generalizing i c P with
  | nil => trivial
  | elem head _ ih =>
    obtain ⟨looks, after⟩ := h.element (c := c) head
    exact ⟨looks, fun ok null => ih (after ok null)⟩
  | sequence => trivial

end Cursor

/-! ## The map on the wire -/

/-- No map off the wire is longer than its array. -/
theorem parse_pmap_from_size {n : Nat} {p : Pmap} {b : Buffer} : (parsePmapFrom n p b).2.1.nrBytes ≤ p.nrBytes + n := by
  induction n generalizing p b with
  | zero => exact Nat.le_refl _
  | succ n ih =>
    unfold parsePmapFrom
    split
    · exact Nat.le_add_right ..
    · simp only
      split
      · simp only
        omega
      · exact Nat.le_trans ih (by simp only; omega)

theorem behind_map {p : Pmap} {j : Nat} (size : p.nrBytes ≤ pmapMaxBytes) (h : bits ≤ j) : p.bitAt j = false := by
  have behind : pmapMaxBytes ≤ j / 7 := (Nat.le_div_iff_mul_le (by decide)).mpr (by rw [bits] at h; omega)
  rw [bit_at_eq, decide_eq_false (by omega), Bool.false_and]

/-- **The presence map tells the truth exactly where it is long enough**: read off the wire by the
decoder, which asks it for the bits `DecoderLooks` counts, it shows a bit for every field that was
transmitted and for no other, if and only if the bits of all these fields are within its 56. -/
theorem map_truthful_iff {m : Message} {pmapBuf msgBuf : Buffer} (hp : pmapBuf.Valid) (hm : msgBuf.Valid)
    (ok : (fastMessageEncode m pmapBuf msgBuf).ok = true) :
    ∃ w, pmapBuf.Appends (fastMessageEncode m pmapBuf msgBuf).pmapBuf w ∧
      ∀ {c : Buffer} {rest : List UInt8} {P : Pmap}, c.Valid → c.unread = w ++ rest → P.bytes.length = pmapMaxBytes →
        ∃ P', parsePmap c P = (.ok, P', c.bufferAdvance w.length) ∧
          (∀ fds b, FieldsAlike m.fields fds → DecoderLooks P'.bitAt 0 b { P' with isValid := true, pmapBit := 0 } m.fields fds) ∧
          (MapTruthful P'.bitAt 0 (transferUint msgBuf m.tid).2 initialPmap m.fields ↔ FieldsInMap 0 m.fields) := by
  obtain ⟨sent, fields, fit, shape⟩ := encode_message_ok ok
  have valid : (transferUint msgBuf m.tid).2.Valid := by
    obtain ⟨w, -, appends⟩ := transfer_uint_appends hm (Prod.ext sent rfl)
    exact appends.valid
  obtain ⟨n, mapped⟩ := fields_mapped valid initial_writing fields
  generalize encodeFields (transferUint msgBuf m.tid).2 initialPmap m.fields = r at fields fit shape mapped
  have first : r.pmap.bitAt 0 = true := (mapped.before 0 (Nat.le_refl _)).trans (by decide : initialPmap.bitAt 0 = true)
  rw [shape]
  refine ⟨_, put_pmap_appends hp fit, fun {c rest P} hc hu length => ?_⟩
  obtain ⟨P', read, -, -, same⟩ := parse_put_pmap mapped.writing first length hc hu
  rw [length_wire_pmap]
  have size : P'.nrBytes ≤ pmapMaxBytes := by
    have bound : (parsePmapFrom pmapMaxBytes { P with nrBytes := 0 } c).2.1.nrBytes ≤ 0 + pmapMaxBytes :=
      parse_pmap_from_size
    rw [show parsePmapFrom pmapMaxBytes { P with nrBytes := 0 } c = (.ok, P', _) from read, Nat.zero_add] at bound
    exact bound
  refine ⟨P', read, fun fds b alike => decoder_looks alike ⟨rfl, fun _ => rfl⟩, mapped.truth _ fun j _ => ?_⟩
  by_cases inside : j < bits
  · exact same j inside
  · rw [behind_map size (by omega), behind_map (Nat.le_of_eq mapped.writing.size) (by omega)]

instance {α : Type} [DecidableEq α] (E : Coder α) (K : Kind α) (b : Buffer) (p : Pmap) (f : Field α) (bit : Bool) :
    Decidable (f.Truthful E K b p bit) :=
  inferInstanceAs (Decidable (f.consults K = true → (bit = true ↔
    (encodeField E b p f).buffer ≠ b ∨ (f.op = .constant ∧ f.isMandatory = false ∧ f.stateEmpty = false))))

instance {α : Type} (E : Coder α) (K : Kind α) (i : Nat) (f : Field α) : Decidable (f.InMap E K i) :=
  inferInstanceAs (Decidable (f.consults K = true → f.marked E = true → i + 1 < bits))

instance (bit : Nat → Bool) (i : Nat) (b : Buffer) (p : Pmap) (d : DecimalFields) : Decidable (d.Truthful bit i b p) :=
  inferInstanceAs (Decidable (_ ∧ (_ → _)))

instance (i : Nat) (d : DecimalFields) : Decidable (d.InMap i) := inferInstanceAs (Decidable (_ ∧ (_ → _)))

instance (bit : Nat → Bool) (i : Nat) (b : Buffer) (p : Pmap) : (f : ElementField) → Decidable (f.Truthful bit i b p)
  | .int f => inferInstanceAs (Decidable (f.Truthful intCoder intKind b p (bit (i + 1))))
  | .uint f => inferInstanceAs (Decidable (f.Truthful uintCoder uintKind b p (bit (i + 1))))
  | .string unicode f =>
    inferInstanceAs (Decidable (f.Truthful stringCoder (ElementField.stringKind unicode) b p (bit (i + 1))))
  | .decimal false f _ _ => inferInstanceAs (Decidable (f.Truthful decimalCoder decimalKind b p (bit (i + 1))))
  | .decimal true f e m => inferInstanceAs (Decidable ((⟨f, e, m⟩ : DecimalFields).Truthful bit i b p))
  | .vector _ | .nested _ => .isTrue trivial

instance (i : Nat) : (f : ElementField) → Decidable (f.InMap i)
  | .int f => inferInstanceAs (Decidable (f.InMap intCoder intKind i))
  | .uint f => inferInstanceAs (Decidable (f.InMap uintCoder uintKind i))
  | .string unicode f => inferInstanceAs (Decidable (f.InMap stringCoder (ElementField.stringKind unicode) i))
  | .decimal false f _ _ => inferInstanceAs (Decidable (f.InMap decimalCoder decimalKind i))
  | .decimal true f e m => inferInstanceAs (Decidable ((⟨f, e, m⟩ : DecimalFields).InMap i))
  | .vector _ | .nested _ => .isTrue trivial

instance decideTruthful (bit : Nat → Bool) :
    (i : Nat) → (b : Buffer) → (p : Pmap) → (fields : List FastField) → Decidable (MapTruthful bit i b p fields)
  | _, _, _, [] => .isTrue trivial
  | _, _, _, .sequence _ :: _ => .isTrue trivial
  | i, b, p, .elem f :: fields =>
    have := decideTruthful bit (i + f.bitsUsed) (encodeElement b p f).buffer (encodeElement b p f).pmap fields
    inferInstanceAs (Decidable (f.Truthful bit i b p ∧ _))

instance decideInMap : (i : Nat) → (fields : List FastField) → Decidable (FieldsInMap i fields)
  | _, [] => .isTrue trivial
  | _, .sequence _ :: _ => .isTrue trivial
  | i, .elem f :: fields =>
    have := decideInMap (i + f.bitsUsed) fields
    inferInstanceAs (Decidable (f.InMap i ∧ _))

/-- A message of `n` mandatory UINT fields with the operator copy, a value set in each. -/
def levels (n : Nat) : Message :=
  let m := messageInit ⟨"Levels", 1, false, (List.range n).map fun i => .elem (.uint ⟨toString i, .mandatory, .copy, none⟩)⟩
  { m with fields := setFields m.fields (List.replicate n (.uint (.value 7))) }

/-- What `fast_message_encode` makes of it, in empty buffers. -/
def levelsSent (n : Nat) : MessageEncoded := fastMessageEncode (levels n) (.bufferNew 16) (.bufferNew 256)

/-- Fifty-five fields are within the map. -/
theorem fifty_five_told : ∃ P c, parsePmap (levelsSent 55).pmapBuf Pmap.empty = (.ok, P, c) ∧
    MapTruthful P.bitAt 0 (transferUint (.bufferNew 256) 1).2 initialPmap (levels 55).fields := by
  have hp : (bufferNew 16).Valid := ⟨Nat.le_refl _, Nat.zero_le _⟩
  have hm : (bufferNew 256).Valid := ⟨Nat.le_refl _, Nat.zero_le _⟩
  obtain ⟨w, appends, reads⟩ := map_truthful_iff (m := levels 55) hp hm (by decide +kernel)
  obtain ⟨P, read, -, truthful⟩ := reads (P := Pmap.empty) appends.valid (appends.unread.trans (List.append_nil w).symm) rfl
  exact ⟨P, _, read, truthful.mpr (by decide +kernel)⟩

/-- The value of a fifty-sixth field is put, but its bit is dropped. -/
theorem fifty_sixth_dropped : (levelsSent 56).ok = true ∧
    (parsePmap (levelsSent 56).pmapBuf Pmap.empty).1 = .ok ∧
    ¬MapTruthful (parsePmap (levelsSent 56).pmapBuf Pmap.empty).2.1.bitAt 0 (transferUint (.bufferNew 256) 1).2
      initialPmap (levels 56).fields := by
  decide +kernel

end Libtrading.Fast
