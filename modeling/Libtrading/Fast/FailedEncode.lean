import Libtrading.Fast.MapTruth

/-!
# What a failed encode leaves behind

A field encoder stores the value it is about to transfer as the previous one
before it knows whether the bytes fit, and `fast_message_encode` stops at the
first field that fails without a way back. `Field.Keeps` is that an encoder
finds what it is about to store already there, `Undisturbed` that every
encoder does that is run before the message fails.
-/

namespace Libtrading.Fast
set_option autoImplicit false
open Buffer Pmap

/-! ## Bytes that fit -/

/-- A transfer of `n` bytes: it goes through where there is room for them. -/
structure Needs (b : Buffer) (t : Transferred) (n : Nat) : Prop where
  ok : t.1 = decide (n ≤ b.bufferRemaining)
  valid : t.1 = true → t.2.Valid
  left : t.1 = true → t.2.bufferRemaining = b.bufferRemaining - n

theorem put_groups_room (tmp : BitVec 64) {n : Nat} {b : Buffer} (hv : b.Valid) (room : n ≤ b.bufferRemaining) :
    (putGroups tmp n b).Valid ∧ (putGroups tmp n b).bufferRemaining = b.bufferRemaining - n := by
  induction n generalizing b with
  | zero => exact ⟨hv, rfl⟩
  | succ n ih =>
    cases n with
    | zero => exact ⟨(put_appends hv room _).valid, put_remaining hv room _⟩
    | succ n =>
      have first := put_appends hv (by omega) (group tmp (7 * (n + 1)))
      have left := put_remaining hv (by omega) (group tmp (7 * (n + 1)))
      obtain ⟨valid, remaining⟩ := ih first.valid (by omega)
      exact ⟨valid, remaining.trans (by omega)⟩

/-- A transfer that asks for room first. -/
theorem needs_of {b b' : Buffer} {n : Nat} (h : n ≤ b.bufferRemaining → b'.Valid ∧ b'.bufferRemaining = b.bufferRemaining - n) :
    Needs b (if b.bufferRemaining < n then (false, b) else (true, b')) n := by
  split
  · rename_i full
    exact ⟨(decide_eq_false (by omega)).symm, nofun, nofun⟩
  · rename_i room
    obtain ⟨valid, left⟩ := h (by omega)
    exact ⟨(decide_eq_true (by omega)).symm, fun _ => valid, fun _ => left⟩

theorem transfer_int_needs {b : Buffer} (hv : b.Valid) (v : I64) : Needs b (transferInt b v) (transferSizeInt v) :=
  needs_of fun room => put_groups_room v hv room

theorem transfer_uint_needs {b : Buffer} (hv : b.Valid) (v : U64) : Needs b (transferUint b v) (transferSizeUint v) :=
  needs_of fun room => put_groups_room v hv room

/-- Two transfers, the second where the first went through. -/
theorem Needs.andThen {b : Buffer} {t t' : Transferred} {m n : Nat} (h : Needs b t m)
    (h' : t.1 = true → Needs t.2 t' n) : Needs b (if t.1 then t' else t) (m + n) := by
  cases ok : t.1 with
  | false =>
    have full : ¬m ≤ b.bufferRemaining := of_decide_eq_false (h.ok.symm.trans ok)
    refine ⟨?_, fun went => ?_, fun went => ?_⟩
    · rw [if_neg Bool.false_ne_true, ok, decide_eq_false (by omega)]
    · exact absurd (ok.symm.trans went) Bool.false_ne_true
    · exact absurd (ok.symm.trans went) Bool.false_ne_true
  | true =>
    have room : m ≤ b.bufferRemaining := of_decide_eq_true (h.ok.symm.trans ok)
    have second := h' ok
    have left := h.left ok
    rw [if_pos rfl]
    refine ⟨?_, second.valid, fun went => (second.left went).trans (by omega)⟩
    rw [second.ok, left]
    exact decide_eq_decide.mpr (by omega)

theorem put_bytes_room {b : Buffer} (hv : b.Valid) {w : List UInt8} (room : w.length ≤ b.bufferRemaining) :
    (putBytes b w).Valid ∧ (putBytes b w).bufferRemaining = b.bufferRemaining - w.length :=
  ⟨(put_bytes_appends hv room).1.valid, (put_bytes_appends hv room).2⟩

theorem transfer_stop_needs {b : Buffer} (hv : b.Valid) : Needs b (transferStop b) 1 :=
  needs_of fun room => ⟨(put_appends hv room _).valid, put_remaining hv room _⟩

theorem transfer_string_needs {b : Buffer} (hv : b.Valid) (s : Bytes) :
    Needs b (transferString b s) ((stringChars s).length + 1) := by
  have chars : Needs b (if b.bufferRemaining < (stringChars s).length then (false, b) else (true, putBytes b (stringChars s)))
      (stringChars s).length := needs_of fun room => put_bytes_room hv room
  have shape : transferString b s =
      if (if b.bufferRemaining < (stringChars s).length then (false, b) else (true, putBytes b (stringChars s))).1 then
        transferStop (putBytes b (stringChars s))
      else if b.bufferRemaining < (stringChars s).length then (false, b) else (true, putBytes b (stringChars s)) := by
    rw [transferString]
    split <;> rfl
  rw [shape]
  refine chars.andThen fun went => ?_
  have valid := chars.valid went
  split at went
  · cases went
  · rename_i room
    rw [if_neg room] at valid ⊢
    exact transfer_stop_needs valid

theorem transfer_decimal_needs {b : Buffer} (hv : b.Valid) (d : Decimal) :
    Needs b (transferDecimal b d) (transferSizeInt d.exp + transferSizeInt d.mnt) :=
  (transfer_int_needs hv d.exp).andThen fun went =>
    transfer_int_needs ((transfer_int_needs hv d.exp).valid went) d.mnt

/-! ## One field -/

namespace Field
variable {α : Type} (E : Coder α)

/-- The encoder fails without looking at the buffer: an operator it does not support, or a mandatory
field that is `EMPTY`. -/
def refused (f : Field α) : Bool :=
  match f.op with
  | .none | .constant => false
  | .copy | .default => f.isMandatory && f.stateEmpty
  | .incr =>
    match E.incr with
    | .step _ => f.isMandatory && f.stateEmpty
    | .refuse => true
    | .skip => false
  | .delta => !E.delta

/-- The field is left off the wire. -/
def leftOff (f : Field α) : Bool :=
  match f.op with
  | .none | .default | .delta => false
  | .copy => f.isExpected E f.previous
  | .incr =>
    match E.incr with
    | .step next => f.isExpected E (next f.previous)
    | _ => true
  | .constant => true

/-- The bytes the field takes, where a value takes `size`. -/
def takes (size : Field α → Nat) (f : Field α) : Nat :=
  if f.leftOff E then 0 else if f.isNull then 1 else size f

/-- The encoder passes on to the next field. -/
def passes (size : Field α → Nat) (room : Nat) (f : Field α) : Bool :=
  !f.refused E && decide (f.takes E size ≤ room)

/-- The previous value and the previous state stay: the field is refused, or is left off the wire
without a step, or the encoder stores what it stored the last time. -/
def Keeps (f : Field α) : Prop :=
  if f.refused E then True
  else if f.leftOff E then ¬(f.op = .incr ∧ E.refuses = false)
  else if f.isNull then f.statePrevious = .empty
  else f.statePrevious = .assigned ∧ E.same f.value f.previous = true

/-- The previous value and the previous state of `f'` are those of `f`. -/
def SameDictionary (f f' : Field α) : Prop := E.same f'.previous f.previous = true ∧ f'.statePrevious = f.statePrevious

instance (f : Field α) : Decidable (f.Keeps E) := by
  unfold Keeps
  infer_instance

end Field

/-- What the encoder of a type stores, and the bytes a value of the type takes. -/
structure Coder.Stores {α : Type} (E : Coder α) (size : Field α → Nat) : Prop where
  refl : ∀ v, E.same v v = true
  put : ∀ {b f}, b.Valid → Needs b (E.put b f) (size f)
  putNull : ∀ {b f}, b.Valid → Needs b (E.putNull b f) 1
  assigned : ∀ f : Field α, size { f with state := .assigned } = size f
  onEmpty : ∀ f, E.same (E.onEmpty f).previous f.previous = true
  onValue : ∀ f v, E.same (E.onValue f).previous v = E.same f.value v
  step : ∀ {next}, E.incr = .step next → ∀ v, E.same (next v) v = false

/-- How the switch over the operator is left, and with which field. -/
inductive Exits {α : Type} (E : Coder α) (f : Field α) : Switched α → Prop where
  | refused {p} (h : f.refused E = true) : Exits E f ⟨.fail, p, f⟩
  | kept {p g} (passed : f.refused E = false) (left : f.leftOff E = true) (still : ¬(f.op = .incr ∧ E.refuses = false))
      (previous : g.previous = f.previous) (state : g.statePrevious = f.statePrevious) : Exits E f ⟨.done, p, g⟩
  | stepped {p g next} (passed : f.refused E = false) (left : f.leftOff E = true) (op : f.op = .incr)
      (incr : E.incr = .step next) (previous : g.previous = next f.previous) : Exits E f ⟨.done, p, g⟩
  | null {p} (passed : f.refused E = false) (put : f.leftOff E = false) (null : f.isNull = true) : Exits E f ⟨.empty, p, f⟩
  | value {p} (passed : f.refused E = false) (put : f.leftOff E = false) (present : f.isNull = false) :
      Exits E f ⟨.transfer, p, { f with state := .assigned }⟩

section Switch
variable {α : Type} {E : Coder α} {p : Pmap} {f : Field α}

/-- A field that is `EMPTY` but not to be sent as `NULL` is mandatory. -/
theorem empty_mandatory (null : f.isNull = false) (empty : f.state = .empty) : (f.isMandatory && f.stateEmpty) = true := by
  rw [Field.isNull, Field.stateEmpty, empty] at null
  rw [Field.stateEmpty, empty]
  cases mandatory : f.isMandatory with
  | true => rfl
  | false =>
    rw [mandatory] at null
    cases null

theorem null_optional (null : f.isNull = true) : (f.isMandatory && f.stateEmpty) = false := by
  rw [Field.isNull] at null
  cases mandatory : f.isMandatory with
  | false => rfl
  | true =>
    rw [mandatory] at null
    cases null

theorem not_empty (h : f.state ≠ .empty) : (f.isMandatory && f.stateEmpty) = false := by
  rw [Field.stateEmpty, beq_eq_false_iff_ne.mpr h, Bool.and_false]

theorem always_exit (passed : f.refused E = false) (put : f.leftOff E = false) : Exits E f (switchAlways p f) := by
  unfold switchAlways
  cases null : f.isNull with
  | true => exact .null passed put null
  | false => exact .value passed put null

theorem default_exit (refused : f.refused E = (f.isMandatory && f.stateEmpty)) (put : f.leftOff E = false) :
    Exits E f (switchDefault p f) := by
  unfold switchDefault
  cases null : f.isNull with
  | true => exact .null (refused.trans (null_optional null)) put null
  | false =>
    cases state : f.state with
    | empty => exact .refused (refused.trans (empty_mandatory null state))
    | undefined => exact .value (refused.trans (not_empty (by rw [state]; exact nofun))) put null
    | assigned => exact .value (refused.trans (not_empty (by rw [state]; exact nofun))) put null

/-- Copy and increment, where `omitted` is the field as it is left off the wire. -/
theorem previous_exit {expected : α} {omitted : Field α} (refused : f.refused E = (f.isMandatory && f.stateEmpty))
    (left : f.leftOff E = f.isExpected E expected)
    (done : f.refused E = false → f.leftOff E = true → Exits E f ⟨.done, p, omitted⟩) :
    Exits E f (switchPrevious (E.same f.value expected) omitted p f) := by
  unfold switchPrevious
  unfold Field.isExpected at left
  cases null : f.isNull with
  | true =>
    rw [null] at left
    exact .null (refused.trans (null_optional null)) left null
  | false =>
    cases state : f.state with
    | empty => exact .refused (refused.trans (empty_mandatory null state))
    | undefined =>
      rw [null, state] at left
      exact .value (refused.trans (not_empty (by rw [state]; exact nofun))) left null
    | assigned =>
      have passed : f.refused E = false := refused.trans (not_empty (by rw [state]; exact nofun))
      have sent : f.leftOff E = false → Exits E f ⟨.transfer, p, f⟩ := fun put => by
        have value := Exits.value (p := p) passed put null
        rwa [← state] at value
      rw [null, state] at left
      simp only [Bool.false_eq_true, if_false]
      cases previous : f.stateEmptyPrevious with
      | true =>
        rw [previous] at left
        exact sent left
      | false =>
        rw [previous] at left
        cases same : E.same f.value expected with
        | true =>
          rw [same] at left
          exact done passed left
        | false =>
          rw [same] at left
          exact sent left

/-- **The exits of a field encoder's switch.** -/
theorem switch_exit (E : Coder α) (p : Pmap) (f : Field α) : Exits E f (encodeSwitch E p f) := by
  cases op : f.op with
  | none =>
    have switch : encodeSwitch E p f = switchAlways p f := by rw [encodeSwitch, op]
    rw [switch]
    exact always_exit (by rw [Field.refused, op]) (by rw [Field.leftOff, op])
  | copy =>
    have switch : encodeSwitch E p f = switchPrevious (E.same f.value f.previous) f p.next f := by rw [encodeSwitch, op]
    rw [switch]
    refine previous_exit (by rw [Field.refused, op]) (by rw [Field.leftOff, op]) fun passed left => ?_
    exact .kept passed left (by rw [op]; exact fun h => by cases h.1) rfl rfl
  | incr =>
    cases incr : E.incr with
    | refuse =>
      have switch : encodeSwitch E p f = ⟨.fail, p, f⟩ := by rw [encodeSwitch, op]; simp only [incr]
      rw [switch]
      exact .refused (by rw [Field.refused, op]; simp only [incr])
    | skip =>
      have switch : encodeSwitch E p f = ⟨.done, p, f⟩ := by rw [encodeSwitch, op]; simp only [incr]
      have refuses : E.refuses = true := by rw [Coder.refuses, incr]
      rw [switch]
      exact .kept (by rw [Field.refused, op]; simp only [incr]) (by rw [Field.leftOff, op]; simp only [incr])
        (by rw [refuses]; exact fun h => by cases h.2) rfl rfl
    | step next =>
      have switch : encodeSwitch E p f = switchPrevious (E.same f.value (next f.previous))
          { f with previous := next f.previous } p.next f := by rw [encodeSwitch, op]; simp only [incr]
      rw [switch]
      refine previous_exit (by rw [Field.refused, op]; simp only [incr]) (by rw [Field.leftOff, op]; simp only [incr])
        fun passed left => ?_
      exact .stepped passed left op incr rfl
  | delta =>
    have switch : encodeSwitch E p f = if E.delta then switchAlways p f else ⟨.fail, p, f⟩ := by rw [encodeSwitch, op]
    have refused : f.refused E = !E.delta := by rw [Field.refused, op]
    rw [switch]
    cases delta : E.delta with
    | false => exact .refused (by rw [refused, delta]; rfl)
    | true => exact always_exit (by rw [refused, delta]; rfl) (by rw [Field.leftOff, op])
  | default =>
    have switch : encodeSwitch E p f = switchDefault p.next f := by rw [encodeSwitch, op]
    rw [switch]
    exact default_exit (by rw [Field.refused, op]) (by rw [Field.leftOff, op])
  | constant =>
    have switch : encodeSwitch E p f = switchConstant p f := by rw [encodeSwitch, op]
    have kept : ∀ {q g}, g.previous = f.previous → g.statePrevious = f.statePrevious → Exits E f ⟨.done, q, g⟩ :=
      fun previous state => .kept (by rw [Field.refused, op]) (by rw [Field.leftOff, op])
        (by rw [op]; exact fun h => by cases h.1) previous state
    rw [switch, switchConstant]
    split
    · exact kept rfl rfl
    · split
      · exact kept rfl rfl
      · exact kept rfl rfl

/-- What an encoder makes of its buffer, where it goes through. -/
structure Passes (b : Buffer) {φ : Type} (r : Encoded φ) (passes : Bool) (takes : Nat) : Prop where
  ok : r.ok = passes
  valid : r.ok = true → r.buffer.Valid
  left : r.ok = true → r.buffer.bufferRemaining = b.bufferRemaining - takes

theorem needs_passes {b : Buffer} {t : Transferred} {n : Nat} (h : Needs b t n) (q : Pmap) (g : Field α) :
    Passes b (afterTransfer t q g) (decide (n ≤ b.bufferRemaining)) n := ⟨h.ok, h.valid, h.left⟩

/-- **One field**: whether it is encoded, and whether its dictionary is as before. -/
theorem field_effect {size : Field α → Nat} (stores : E.Stores size) {b : Buffer} (hv : b.Valid) :
    Passes b (encodeField E b p f) (f.passes E size b.bufferRemaining) (f.takes E size) ∧
      (f.SameDictionary E (encodeField E b p f).field ↔ f.Keeps E) := by
  have exit := switch_exit E p f
  generalize hs : encodeSwitch E p f = s at exit
  unfold Field.Keeps Field.passes Field.takes Field.SameDictionary
  cases exit with
  | @refused q refused =>
    have out : encodeField E b p f = ⟨false, b, q, f⟩ := by rw [encodeField, hs]
    rw [out, refused]
    exact ⟨⟨rfl, (absurd · Bool.false_ne_true), (absurd · Bool.false_ne_true)⟩, fun _ => trivial, fun _ => ⟨stores.refl _, rfl⟩⟩
  | @kept q g passed left still previous state =>
    have out : encodeField E b p f = ⟨true, b, q, g⟩ := by rw [encodeField, hs]
    rw [out, passed, left]
    refine ⟨⟨(decide_eq_true (Nat.zero_le b.bufferRemaining)).symm, fun _ => hv, fun _ => rfl⟩, fun _ => still, fun _ => ⟨?_, state⟩⟩
    rw [previous]
    exact stores.refl _
  | @stepped q g next passed left op incr previous =>
    have out : encodeField E b p f = ⟨true, b, q, g⟩ := by rw [encodeField, hs]
    have steps : E.refuses = false := by rw [Coder.refuses, incr]
    rw [out, passed, left]
    refine ⟨⟨(decide_eq_true (Nat.zero_le b.bufferRemaining)).symm, fun _ => hv, fun _ => rfl⟩, fun same => ?_, fun still => ?_⟩
    · have moved := stores.step incr f.previous
      rw [← previous, same.1] at moved
      cases moved
    · exact absurd ⟨op, steps⟩ still
  | @null q passed put null =>
    have out : encodeField E b p f = afterTransfer (E.putNull b f) q ((E.onEmpty f).remember f.state) := encode_empty hs
    have empty : f.state = .empty := by
      rw [Field.isNull, Bool.and_eq_true] at null
      exact eq_of_beq null.2
    rw [out, passed, put, null]
    refine ⟨needs_passes (stores.putNull hv) _ _, fun same => ?_, fun state => ⟨stores.onEmpty f, ?_⟩⟩
    · exact same.2.symm.trans empty
    · exact empty.trans state.symm
  | @value q passed put present =>
    have out : encodeField E b p f = afterTransfer (E.put b { f with state := .assigned }) q
      ((E.onValue { f with state := .assigned }).remember .assigned) := encode_transfer hs
    have stored : E.same ((E.onValue { f with state := .assigned }).remember .assigned).previous f.previous =
        E.same f.value f.previous := stores.onValue _ _
    rw [out, passed, put, present]
    refine ⟨?_, fun same => ?_, fun h => ⟨?_, h.1.symm⟩⟩
    · have sent := stores.put (f := { f with state := .assigned }) hv
      rw [stores.assigned] at sent
      exact needs_passes sent _ _
    · exact ⟨same.2.symm, stored.symm.trans same.1⟩
    · exact stored.trans h.2

end Switch

/-! ## The types -/

theorem step_differs (v : BitVec 64) : (v + 1 == v) = false :=
  beq_eq_false_iff_ne.mpr fun h => absurd (BitVec.add_right_eq_self.mp h) (by decide)

def intSize (f : Field I64) : Nat := transferSizeInt (intOnWire f)

theorem int_stores : intCoder.Stores intSize where
  refl := beq_self_eq_true
  put hv := transfer_int_needs hv _
  putNull hv := transfer_int_needs hv 0
  assigned _ := rfl
  onEmpty f := beq_self_eq_true f.previous
  onValue _ _ := rfl
  step h v := by
    cases h
    exact step_differs v

def uintSize (f : Field U64) : Nat :=
  if f.op = .delta then transferSizeInt (uintOnWire f) else transferSizeUint (uintOnWire f)

theorem uint_stores : uintCoder.Stores uintSize where
  refl := beq_self_eq_true
  put {b f} hv := by
    change Needs b (if f.op = .delta then _ else _) (uintSize f)
    unfold uintSize
    split
    · exact transfer_int_needs hv _
    · exact transfer_uint_needs hv _
  putNull {b f} hv := by
    change Needs b (if f.op = .delta then _ else _) 1
    split
    · exact transfer_int_needs hv 0
    · exact transfer_uint_needs hv 0
  assigned _ := rfl
  onEmpty f := beq_self_eq_true f.previous
  onValue _ _ := rfl
  step h v := by
    cases h
    exact step_differs v

def stringSize (f : Field Bytes) : Nat := (stringChars f.value).length + 1

theorem string_stores : stringCoder.Stores stringSize where
  refl s := beq_self_eq_true (cstr s)
  put hv := transfer_string_needs hv _
  putNull hv := transfer_stop_needs hv
  assigned _ := rfl
  onEmpty f := by
    change (cstr (strcpy f.previous (strcpy f.value f.previous)) == cstr f.previous) = true
    rw [cstr_strcpy, cstr_strcpy]
    exact beq_self_eq_true _
  onValue f v := by
    change (cstr (strcpy f.previous f.value) == cstr v) = _
    rw [cstr_strcpy]
    rfl
  step h := by cases h

def decimalSize (f : Field Decimal) : Nat :=
  transferSizeInt (decimalOnWire f).exp + transferSizeInt (decimalOnWire f).mnt

theorem decimal_stores : decimalCoder.Stores decimalSize where
  refl := beq_self_eq_true
  put hv := transfer_decimal_needs hv _
  putNull hv := transfer_int_needs hv 0
  assigned _ := rfl
  onEmpty f := beq_self_eq_true f.previous
  onValue _ _ := rfl
  step h := by cases h

/-! ## The fields of a message -/

namespace DecimalFields

/-- The exponent's encoder passes on to the mantissa, where `room` is left for the decimal. -/
def goesOn (room : Nat) (d : DecimalFields) : Bool :=
  d.loaded.exponent.passes intCoder intSize room && !d.loaded.exponent.isNull

/-- The bytes of a decimal with individual operators. -/
def takes (d : DecimalFields) : Nat :=
  d.loaded.exponent.takes intCoder intSize +
    if d.loaded.exponent.isNull then 0 else d.loaded.mantissa.takes intCoder intSize

def passes (room : Nat) (d : DecimalFields) : Bool :=
  d.loaded.exponent.passes intCoder intSize room &&
    (d.loaded.exponent.isNull ||
      d.loaded.mantissa.passes intCoder intSize (room - d.loaded.exponent.takes intCoder intSize))

def Keeps (room : Nat) (d : DecimalFields) : Prop :=
  d.loaded.exponent.Keeps intCoder ∧ (d.goesOn room = true → d.loaded.mantissa.Keeps intCoder)

def SameDictionary (d d' : DecimalFields) : Prop :=
  d.field.SameDictionary decimalCoder d'.field ∧ d.exponent.SameDictionary intCoder d'.exponent ∧
    d.mantissa.SameDictionary intCoder d'.mantissa

end DecimalFields

namespace ElementField

/-- The bytes a field takes. -/
def takes : ElementField → Nat
  | .int f => f.takes intCoder intSize
  | .uint f => f.takes uintCoder uintSize
  | .string _ f => f.takes stringCoder stringSize
  | .decimal false f _ _ => f.takes decimalCoder decimalSize
  | .decimal true f e m => (⟨f, e, m⟩ : DecimalFields).takes
  | _ => 0

/-- The encoder passes on to the next field, where `room` is left for this one. -/
def passes (room : Nat) : ElementField → Bool
  | .int f => f.passes intCoder intSize room
  | .uint f => f.passes uintCoder uintSize room
  | .string _ f => f.passes stringCoder stringSize room
  | .decimal false f _ _ => f.passes decimalCoder decimalSize room
  | .decimal true f e m => (⟨f, e, m⟩ : DecimalFields).passes room
  | _ => false

/-- The encoder finds what it stores already there. -/
def Keeps (room : Nat) : ElementField → Prop
  | .int f => f.Keeps intCoder
  | .uint f => f.Keeps uintCoder
  | .string _ f => f.Keeps stringCoder
  | .decimal false f _ _ => f.Keeps decimalCoder
  | .decimal true f e m => (⟨f, e, m⟩ : DecimalFields).Keeps room
  | _ => True

/-- The previous values and states of `f'` are those of `f`. -/
def SameDictionary : ElementField → ElementField → Prop
  | .int f, .int f' => f.SameDictionary intCoder f'
  | .uint f, .uint f' => f.SameDictionary uintCoder f'
  | .string _ f, .string _ f' => f.SameDictionary stringCoder f'
  | .decimal _ f e m, .decimal _ f' e' m' => (⟨f, e, m⟩ : DecimalFields).SameDictionary ⟨f', e', m'⟩
  | f, f' => f = f'

end ElementField

/-- The previous values and states of all fields of a message are those of `fields`. -/
def SameDictionaries : List FastField → List FastField → Prop
  | .elem f :: fields, .elem f' :: fields' => f.SameDictionary f' ∧ SameDictionaries fields fields'
  | fields, fields' => fields = fields'

/-- Every encoder that is run, with `room` left in the buffer, finds what it stores already there. -/
def Undisturbed : Nat → List FastField → Prop
  | room, .elem f :: fields => f.Keeps room ∧ (f.passes room = true → Undisturbed (room - f.takes) fields)
  | _, _ => True

section Individ
variable {b : Buffer} {p : Pmap} {d : DecimalFields}

theorem loaded_dictionaries (d : DecimalFields) : d.loaded.exponent.previous = d.exponent.previous ∧
    d.loaded.exponent.statePrevious = d.exponent.statePrevious ∧ d.loaded.mantissa.previous = d.mantissa.previous ∧
    d.loaded.mantissa.statePrevious = d.mantissa.statePrevious ∧ d.loaded.field = d.field := by
  unfold DecimalFields.loaded
  simp only
  split <;> exact ⟨rfl, rfl, rfl, rfl, rfl⟩

theorem int_same (f : Field I64) : f.SameDictionary intCoder f := ⟨beq_self_eq_true _, rfl⟩

/-- The sub-fields are compared to what they were before they were loaded. -/
theorem exponent_dictionary (d : DecimalFields) (f : Field I64) :
    d.loaded.exponent.SameDictionary intCoder f ↔ d.exponent.SameDictionary intCoder f := by
  obtain ⟨previous, state, -⟩ := loaded_dictionaries d
  rw [Field.SameDictionary, Field.SameDictionary, previous, state]

theorem mantissa_dictionary (d : DecimalFields) (f : Field I64) :
    d.loaded.mantissa.SameDictionary intCoder f ↔ d.mantissa.SameDictionary intCoder f := by
  obtain ⟨-, -, previous, state, -⟩ := loaded_dictionaries d
  rw [Field.SameDictionary, Field.SameDictionary, previous, state]

theorem int_effect (hv : b.Valid) (f : Field I64) :
    Passes b (fastEncodeInt b p f) (f.passes intCoder intSize b.bufferRemaining) (f.takes intCoder intSize) ∧
      (f.SameDictionary intCoder (fastEncodeInt b p f).field ↔ f.Keeps intCoder) := field_effect int_stores hv

/-- A decimal, its exponent and its mantissa one after the other. -/
theorem individ_effect (hv : b.Valid) :
    Passes b (fastEncodeDecimalIndivid b p d) (d.passes b.bufferRemaining) d.takes ∧
      (d.SameDictionary (fastEncodeDecimalIndivid b p d).field ↔ d.Keeps b.bufferRemaining) := by
  obtain ⟨ran, stored⟩ := int_effect (p := p) hv d.loaded.exponent
  rw [exponent_dictionary] at stored
  have mantissa : d.mantissa.SameDictionary intCoder d.loaded.mantissa := (mantissa_dictionary _ _).mp (int_same _)
  have field : d.field.SameDictionary decimalCoder d.loaded.field := by
    rw [(loaded_dictionaries d).2.2.2.2]
    exact ⟨beq_self_eq_true _, rfl⟩
  have alone : ∀ {r : Field I64}, d.SameDictionary ⟨d.loaded.field, r, d.loaded.mantissa⟩ ↔
      d.exponent.SameDictionary intCoder r := ⟨fun h => h.2.1, fun h => ⟨field, h, mantissa⟩⟩
  unfold DecimalFields.passes DecimalFields.takes DecimalFields.Keeps DecimalFields.goesOn
  rw [encode_individ]
  by_cases went : (fastEncodeInt b p d.loaded.exponent).ok = true
  · have goes := ran.ok.symm.trans went
    rw [if_neg (by rw [went]; exact Bool.false_ne_true), encode_int_state went, goes]
    by_cases null : d.loaded.exponent.isNull = true
    · rw [if_pos null, null, alone, stored]
      exact ⟨⟨rfl, fun _ => ran.valid went, fun _ => ran.left went⟩, fun h => ⟨h, nofun⟩, fun h => h.1⟩
    · obtain ⟨ran', stored'⟩ :=
        int_effect (p := (fastEncodeInt b p d.loaded.exponent).pmap) (ran.valid went) d.loaded.mantissa
      rw [mantissa_dictionary] at stored'
      rw [ran.left went] at ran'
      rw [if_neg null, Bool.eq_false_iff.mpr null, if_neg Bool.false_ne_true, ← stored, ← stored']
      refine ⟨⟨ran'.ok, ran'.valid, fun ok => (ran'.left ok).trans ?_⟩, fun h => ⟨h.2.1, fun _ => h.2.2⟩,
        fun h => ⟨field, h.1, h.2 rfl⟩⟩
      rw [ran.left went]
      exact Nat.sub_sub ..
  · have failed := Bool.eq_false_iff.mpr went
    have stops := ran.ok.symm.trans failed
    rw [if_pos (by rw [failed]; rfl), stops, alone, stored]
    exact ⟨⟨rfl, nofun, nofun⟩, fun h => ⟨h, nofun⟩, fun h => h.1⟩

end Individ

/-- A field of any type. -/
theorem element_effect {b : Buffer} {p : Pmap} (hv : b.Valid) (f : ElementField) :
    Passes b (encodeElement b p f) (f.passes b.bufferRemaining) f.takes ∧
      (f.SameDictionary (encodeElement b p f).field ↔ f.Keeps b.bufferRemaining) := by
  cases f with
  | int f =>
    obtain ⟨ran, stored⟩ := field_effect (p := p) (f := f) int_stores hv
    exact ⟨⟨ran.ok, ran.valid, ran.left⟩, stored⟩
  | uint f =>
    obtain ⟨ran, stored⟩ := field_effect (p := p) (f := f) uint_stores hv
    exact ⟨⟨ran.ok, ran.valid, ran.left⟩, stored⟩
  | string unicode f =>
    obtain ⟨ran, stored⟩ := field_effect (p := p) (f := f) string_stores hv
    exact ⟨⟨ran.ok, ran.valid, ran.left⟩, stored⟩
  | vector f => exact ⟨⟨rfl, nofun, nofun⟩, fun _ => trivial, fun _ => rfl⟩
  | decimal individ f e m =>
    cases individ with
    | true =>
      obtain ⟨ran, stored⟩ := individ_effect (p := p) (d := ⟨f, e, m⟩) hv
      exact ⟨⟨ran.ok, ran.valid, ran.left⟩, stored⟩
    | false =>
      obtain ⟨ran, stored⟩ := field_effect (p := p) (f := f) decimal_stores hv
      refine ⟨⟨ran.ok, ran.valid, ran.left⟩, fun h => stored.mp h.1, fun h => ⟨stored.mpr h, int_same e, int_same m⟩⟩
  | nested name => exact ⟨⟨rfl, nofun, nofun⟩, fun _ => trivial, fun _ => rfl⟩

theorem same_dictionaries (fields : List FastField) : SameDictionaries fields fields := by
  induction fields with
  | nil => rfl
  | cons f fields ih =>
    cases f with
    | sequence s => rfl
    | elem f =>
      refine ⟨?_, ih⟩
      cases f with
      | int f => exact int_same f
      | uint f => exact ⟨beq_self_eq_true _, rfl⟩
      | string unicode f => exact ⟨beq_self_eq_true (cstr f.previous), rfl⟩
      | vector f => rfl
      | decimal individ f e m => exact ⟨⟨beq_self_eq_true _, rfl⟩, int_same e, int_same m⟩
      | nested name => rfl

/-- **The field loop**, by induction on the fields. -/
theorem fields_effect (fields : List FastField) {b : Buffer} {p : Pmap} (hv : b.Valid) :
    SameDictionaries fields (encodeFields b p fields).field ↔ Undisturbed b.bufferRemaining fields := by
  induction fields generalizing b p with
  | nil => exact ⟨fun _ => trivial, fun _ => rfl⟩
  | cons f fields ih =>
    cases f with
    | sequence s => exact ⟨fun _ => trivial, fun _ => rfl⟩
    | elem f =>
      obtain ⟨ran, stored⟩ := element_effect (p := p) hv f
      simp only [encodeFields]
      cases went : (encodeElement b p f).ok with
      | false =>
        have stops := ran.ok.symm.trans went
        simp only [Bool.not_false, if_true, SameDictionaries, Undisturbed, stops, Bool.false_eq_true, false_implies]
        exact and_congr stored ⟨fun _ => trivial, fun _ => same_dictionaries fields⟩
      | true =>
        have goes := ran.ok.symm.trans went
        have rest := ih (p := (encodeElement b p f).pmap) (ran.valid went)
        rw [ran.left went] at rest
        simp only [Bool.not_true, Bool.false_eq_true, if_false, SameDictionaries, Undisturbed, goes, true_implies]
        exact and_congr stored rest

/-- **A failed encode leaves the encoder where it was** exactly where every field encoder that is run
before it fails is undisturbed. It is the same for an encode that does not fail, where they are all run. -/
theorem failed_encode_iff {m : Message} {pmapBuf msgBuf : Buffer} (hm : msgBuf.Valid) :
    SameDictionaries m.fields (fastMessageEncode m pmapBuf msgBuf).msg.fields ↔
      (transferSizeUint m.tid ≤ msgBuf.bufferRemaining →
        Undisturbed (msgBuf.bufferRemaining - transferSizeUint m.tid) m.fields) := by
  have tid := transfer_uint_needs hm m.tid
  unfold fastMessageEncode
  simp only
  cases sent : (transferUint msgBuf m.tid).1 with
  | false =>
    have full : ¬transferSizeUint m.tid ≤ msgBuf.bufferRemaining := of_decide_eq_false (tid.ok.symm.trans sent)
    exact ⟨fun _ room => absurd room full, fun _ => same_dictionaries _⟩
  | true =>
    have room : transferSizeUint m.tid ≤ msgBuf.bufferRemaining := of_decide_eq_true (tid.ok.symm.trans sent)
    have effect := fields_effect m.fields (p := initialPmap) (tid.valid sent)
    rw [tid.left sent] at effect
    simp only [Bool.not_true, Bool.false_eq_true, if_false, room, true_implies]
    rw [← effect]
    split
    · rfl
    · split <;> rfl

instance (room : Nat) (d : DecimalFields) : Decidable (d.Keeps room) := inferInstanceAs (Decidable (_ ∧ (_ → _)))

instance (room : Nat) : (f : ElementField) → Decidable (f.Keeps room)
  | .int f => inferInstanceAs (Decidable (f.Keeps intCoder))
  | .uint f => inferInstanceAs (Decidable (f.Keeps uintCoder))
  | .string _ f => inferInstanceAs (Decidable (f.Keeps stringCoder))
  | .decimal false f _ _ => inferInstanceAs (Decidable (f.Keeps decimalCoder))
  | .decimal true f e m => inferInstanceAs (Decidable ((⟨f, e, m⟩ : DecimalFields).Keeps room))
  | .vector _ | .nested _ => .isTrue trivial

instance decideUndisturbed : (room : Nat) → (fields : List FastField) → Decidable (Undisturbed room fields)
  | _, [] => .isTrue trivial
  | _, .sequence _ :: _ => .isTrue trivial
  | room, .elem f :: fields =>
    have := decideUndisturbed (room - f.takes) fields
    inferInstanceAs (Decidable (f.Keeps room ∧ (f.passes room = true → _)))

/-- Two prices, each sent only when it changes. -/
def quoteTemplate : Template :=
  ⟨"Quote", 1, false, [.elem (.uint ⟨"Bid", .mandatory, .copy, none⟩), .elem (.uint ⟨"Ask", .mandatory, .copy, none⟩)]⟩

/-- The application assigns a UINT field, or marks it `EMPTY`. -/
def assignPrice (price : Option U64) : FastField → FastField
  | .elem (.uint f) => .elem (.uint { f with value := price.getD f.value, state := if price.isSome then .assigned else .empty })
  | f => f

/-- A quote of the application, in the message `m`. -/
def quote (m : Message) (bid ask : Option U64) : Message :=
  { m with fields := List.zipWith assignPrice [bid, ask] m.fields }

/-- A quote that was sent, and then one with the same bid price and no ask price: it is refused, and
nothing has changed. -/
theorem repeated_price_undisturbed :
    let sent := fastMessageEncode (quote (messageInit quoteTemplate) (some 7) (some 9)) (.bufferNew 8) (.bufferNew 16)
    SameDictionaries (quote sent.msg (some 7) none).fields
      (fastMessageEncode (quote sent.msg (some 7) none) (.bufferNew 8) (.bufferNew 16)).msg.fields := by
  intro sent
  exact (failed_encode_iff ⟨Nat.le_refl _, Nat.zero_le _⟩).mpr (by decide +kernel)

/-- The first quote is refused for its ask price. -/
def quoteRefused : MessageEncoded :=
  fastMessageEncode (quote (messageInit quoteTemplate) (some 7) none) (.bufferNew 8) (.bufferNew 16)

/-- The second one is complete, with the same bid price. -/
def quoteSent : MessageEncoded :=
  fastMessageEncode (quote quoteRefused.msg (some 7) (some 9)) (.bufferNew 8) (.bufferNew 16)

/-- What a receiver that never saw the first one makes of the second. -/
def quoteReceived : Decode :=
  ((newSession 0 [quoteTemplate]).holding ((Buffer.bufferNew 32).receive
    (quoteSent.pmapBuf.unread ++ quoteSent.msgBuf.unread))).fastMessageDecode

/-- The bid price of the refused quote is remembered; it is left off the next one, which the receiver refuses. -/
theorem refused_price_remembered : quoteRefused.ok = false ∧
    ¬SameDictionaries (quote (messageInit quoteTemplate) (some 7) none).fields quoteRefused.msg.fields ∧
    quoteSent.ok = true ∧ quoteReceived.ret = .garbled := by
  refine ⟨by decide +kernel, fun h => ?_, by decide +kernel, by decide +kernel⟩
  exact absurd h.1.2 (by decide +kernel)

end Libtrading.Fast
