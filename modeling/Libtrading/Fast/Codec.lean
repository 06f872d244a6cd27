import Libtrading.Fast.Wire
import Libtrading.Fast.DecodeFacts

/-!
# One field through encoder and decoder

The encoder's dictionary is the previous value and state of a field, the
decoder's the current ones. `Agrees` is what holds between them after every
message: enough for the decoder to find by itself what the encoder leaves off
the wire. `Codec` lists what a field type has to bring, and `field_round_trip`
is one step: the field the application set comes out of the decoder as it was
set, and the dictionaries agree again.
-/

namespace Libtrading.Fast
set_option autoImplicit false
open Buffer

/-- What the application does to a field before a message is sent: mark it `EMPTY`, or set a value. -/
inductive Setting (α : Type) where
  | null
  | value (v : α)
  deriving DecidableEq, Repr

/-- A field type on both sides. Strings compare by their characters, `view`; `Stored` is the shape of
the decoder's array, `Sendable` what a value needs to fit the wire. -/
structure Codec (α : Type) where
  kind : Kind α
  coder : Coder α
  view : α → α
  Stored : α → Prop
  Sendable : Field α → Prop

namespace Field
variable {α : Type}

/-- The application sets a field; an assigned field that was `EMPTY` is `ASSIGNED` again. -/
def set (K : Kind α) (f : Field α) : Setting α → Field α
  | .null => { f with state := .empty }
  | .value v =>
    { f with value := K.load f.value v, state := if f.state = .undefined then .undefined else .assigned }

/-- Nothing but the dictionary differs. -/
structure SameTemplate (f g : Field α) : Prop where
  presence : g.presence = f.presence
  op : g.op = f.op
  hasReset : g.hasReset = f.hasReset
  reset : g.reset = f.reset

end Field

section Agreement
variable {α : Type} (C : Codec α)

/-- The decoder's field knows what the encoder takes it to know. -/
structure Agrees (fe fd : Field α) : Prop where
  template : fe.SameTemplate fd
  stored : C.Stored fd.value
  reset : C.Stored fd.reset
  /-- What copy and increment may leave off the wire. -/
  known : fe.op = .copy ∨ fe.op = .incr →
    fe.state = .undefined ∨ fe.statePrevious = .empty ∨ (fd.state = .assigned ∧ C.view fd.value = C.view fe.previous)
  /-- What a difference is taken from. -/
  base : fe.op = .delta → C.view fd.value = C.view fe.previous
  constant : fe.op = .constant → fd.state = .assigned → C.view fd.value = C.view fd.reset

/-- What the application finds in a decoded field. -/
def Shows (fd : Field α) : Setting α → Prop
  | .null => fd.state = .empty
  | .value v => fd.state = .assigned ∧ C.view fd.value = C.view v

/-- A setting the field allows: `EMPTY` where it is optional, a constant its own value. -/
def Allowed (fe : Field α) : Setting α → Prop
  | .null => fe.isMandatory = false
  | .value v => fe.op = .constant → C.view v = C.view fe.reset

/-- The bytes `w` make the decoder's field show the setting; what is stored may be any array with
these characters. -/
def ReadsAs (read : Buffer → Field α → Reading α) (w : List UInt8) (fd : Field α) (s : Setting α) : Prop :=
  ∀ {b : Buffer} {rest : List UInt8}, b.Valid → b.unread = w ++ rest →
    ∃ v st, read b fd = ⟨.ok, b.bufferAdvance w.length, { fd with state := st, value := v }⟩ ∧ C.Stored v ∧
      Shows C { fd with state := st, value := v } s

/-- What the two sides of a field type owe each other. -/
structure Codec.Laws : Prop where
  same : ∀ v v', C.coder.same v v' = true ↔ C.view v = C.view v'
  load : ∀ v r, C.view (C.kind.load v r) = C.view r ∧ (C.Stored v → C.Stored r → C.Stored (C.kind.load v r))
  /-- A value, for the operators that put it as it is. -/
  put : ∀ {b b' : Buffer} {f g : Field α}, b.Valid → f.op ≠ .delta → f.SameTemplate g → C.Stored g.value →
    C.Sendable f → C.coder.put b f = (true, b') →
    ∃ w, b.Appends b' w ∧ ReadsAs C C.kind.read w g (.value f.value)
  putNull : ∀ {b b' : Buffer} {f g : Field α}, b.Valid → f.op ≠ .delta → f.SameTemplate g → C.Stored g.value →
    f.isMandatory = false → C.coder.putNull b f = (true, b') →
    ∃ w, b.Appends b' w ∧ ReadsAs C C.kind.read w g .null
  /-- A difference, where the type has the operator. -/
  delta : C.coder.delta = true → ∃ read, C.kind.delta = some read ∧
    (∀ {b b' : Buffer} {f g : Field α}, b.Valid → f.op = .delta → f.SameTemplate g →
      C.view g.value = C.view f.previous → C.Sendable f → C.coder.put b f = (true, b') →
      ∃ w, b.Appends b' w ∧ ReadsAs C read w g (.value f.value)) ∧
    (∀ {b b' : Buffer} {f g : Field α}, b.Valid → f.op = .delta → f.SameTemplate g →
      f.isMandatory = false → C.coder.putNull b f = (true, b') →
      ∃ w, b.Appends b' w ∧ ∀ {B : Buffer} {rest : List UInt8}, B.Valid → B.unread = w ++ rest →
        read B g = ⟨.ok, B.bufferAdvance w.length, { g with state := .empty }⟩)
  incr : ∀ {next}, C.coder.incr = .step next → ∃ inc, C.kind.incr = some inc ∧
    ∀ v v', C.view v = C.view v' → C.view (inc v) = C.view (next v') ∧ (C.Stored v → C.Stored (inc v))
  onEmpty : ∀ f, f.SameTemplate (C.coder.onEmpty f) ∧ (C.coder.onEmpty f).state = f.state ∧
    C.view (C.coder.onEmpty f).previous = C.view f.previous
  onValue : ∀ f, f.SameTemplate (C.coder.onValue f) ∧ (C.coder.onValue f).state = f.state ∧
    C.view (C.coder.onValue f).previous = C.view f.value

end Agreement

/-! ## The encoder's exits -/

section Exits
variable {α : Type} {E : Coder α} {b : Buffer} {p : Pmap} {f : Field α}

/-- The operator is one the encoder has for the type. -/
structure Supported (E : Coder α) (f : Field α) : Prop where
  incr : f.op = .incr → ∃ next, E.incr = .step next
  delta : f.op = .delta → E.delta = true

/-- The field moves the cursor of the presence map. -/
def Field.takesBit (f : Field α) : Bool :=
  match f.op with
  | .none | .delta => false
  | .constant => !f.isMandatory
  | _ => true

/-- The cursor after a field. -/
def Field.step (f : Field α) (p : Pmap) : Pmap := if f.takesBit then p.next else p

theorem switch_null (supported : Supported E f) (hop : f.op ≠ .constant) (null : f.isNull = true) :
    encodeSwitch E p f = ⟨.empty, f.step p, f⟩ := by
  cases h : f.op with
  | none => simp [encodeSwitch, switchAlways, Field.step, Field.takesBit, h, null]
  | copy => simp [encodeSwitch, switchPrevious, Field.step, Field.takesBit, h, null]
  | incr =>
    obtain ⟨next, step⟩ := supported.incr h
    simp [encodeSwitch, switchPrevious, Field.step, Field.takesBit, h, null, step]
  | delta => simp [encodeSwitch, switchAlways, Field.step, Field.takesBit, h, null, supported.delta h]
  | default => simp [encodeSwitch, switchDefault, Field.step, Field.takesBit, h, null]
  | constant => exact absurd h hop

/-- A field that is left off the wire: copy and increment, where the value is the one expected. -/
structure Omitted (E : Coder α) (f omitted : Field α) : Prop where
  assigned : f.state = .assigned
  previous : f.statePrevious ≠ .empty
  found : (f.op = .copy ∧ omitted = f ∧ E.same f.value f.previous = true) ∨
    (f.op = .incr ∧ ∃ next, E.incr = .step next ∧ omitted = { f with previous := next f.previous } ∧
      E.same f.value (next f.previous) = true)

theorem switch_previous (found : Bool) (omitted : Field α) (null : f.isNull = false) (hs : f.state ≠ .empty) :
    switchPrevious found omitted p f = ⟨.transfer, p, { f with state := .assigned }⟩ ∨
      (f.state = .assigned ∧ f.statePrevious ≠ .empty ∧ found = true ∧
        switchPrevious found omitted p f = ⟨.done, p, omitted⟩) := by
  unfold switchPrevious
  rw [if_neg (by rw [null]; exact nofun)]
  cases h : f.state with
  | undefined => exact .inl rfl
  | empty => exact absurd h hs
  | assigned =>
    simp only
    split
    · exact .inl (by rw [← h])
    · rename_i expected
      simp only [Field.stateEmptyPrevious, Bool.or_eq_true, beq_iff_eq, Bool.not_eq_true', not_or,
        Bool.not_eq_false] at expected
      exact .inr ⟨trivial, expected.1, expected.2, rfl⟩

theorem switch_value (supported : Supported E f) (hop : f.op ≠ .constant) (null : f.isNull = false)
    (hs : f.state ≠ .empty) :
    encodeSwitch E p f = ⟨.transfer, f.step p, { f with state := .assigned }⟩ ∨
      ∃ omitted, Omitted E f omitted ∧ encodeSwitch E p f = ⟨.done, f.step p, omitted⟩ := by
  cases h : f.op with
  | none => exact .inl (by simp [encodeSwitch, switchAlways, Field.step, Field.takesBit, h, null])
  | copy =>
    have cursor : f.step p = p.next := by simp [Field.step, Field.takesBit, h]
    have switch : encodeSwitch E p f = switchPrevious (E.same f.value f.previous) f p.next f := by
      simp [encodeSwitch, h]
    rw [cursor, switch]
    obtain sent | ⟨assigned, previous, found, omitted⟩ :=
      switch_previous (p := p.next) (E.same f.value f.previous) f null hs
    · exact .inl (by rw [← h]; exact sent)
    · exact .inr ⟨f, ⟨assigned, previous, .inl ⟨h, rfl, found⟩⟩, omitted⟩
  | incr =>
    obtain ⟨next, step⟩ := supported.incr h
    have cursor : f.step p = p.next := by simp [Field.step, Field.takesBit, h]
    have switch : encodeSwitch E p f =
        switchPrevious (E.same f.value (next f.previous)) { f with previous := next f.previous } p.next f := by
      simp [encodeSwitch, h, step]
    rw [cursor, switch]
    obtain sent | ⟨assigned, previous, found, omitted⟩ :=
      switch_previous (p := p.next) (E.same f.value (next f.previous))
        { f with previous := next f.previous } null hs
    · exact .inl (by rw [← h]; exact sent)
    · exact .inr ⟨_, ⟨assigned, previous, .inr ⟨h, next, step, rfl, found⟩⟩, omitted⟩
  | delta =>
    exact .inl (by simp [encodeSwitch, switchAlways, Field.step, Field.takesBit, h, null, supported.delta h])
  | default =>
    refine .inl ?_
    cases state : f.state with
    | empty => exact absurd state hs
    | undefined => simp [encodeSwitch, switchDefault, Field.step, Field.takesBit, h, null, state]
    | assigned => simp [encodeSwitch, switchDefault, Field.step, Field.takesBit, h, null, state]
  | constant => exact absurd h hop

theorem encode_empty {q : Pmap} {g : Field α} (h : encodeSwitch E p f = ⟨.empty, q, g⟩) :
    encodeField E b p f = afterTransfer (E.putNull b g) q ((E.onEmpty g).remember g.state) := by
  rw [encodeField, h]

theorem encode_transfer {q : Pmap} {g : Field α} (h : encodeSwitch E p f = ⟨.transfer, q, g⟩) :
    encodeField E b p f = afterTransfer (E.put b g) q ((E.onValue g).remember g.state) := by
  rw [encodeField, h]

theorem encode_done {q : Pmap} {g : Field α} (h : encodeSwitch E p f = ⟨.done, q, g⟩) :
    encodeField E b p f = ⟨true, b, q, g⟩ := by
  rw [encodeField, h]

end Exits

/-! ## The decoder's entries -/

section Entries
variable {α : Type} {K : Kind α} {b : Buffer} {p : Pmap} {f : Field α}

theorem decode_value (hop : f.op ≠ .constant) (hdelta : f.op ≠ .delta) (hincr : f.op = .incr → K.incr ≠ none)
    (bit : f.takesBit = true → p.next.pmapIsSet = true) :
    decodeField K b p f = (K.read b f).toDecoded (f.step p) := by
  cases h : f.op with
  | none => simp [decodeField, Field.step, Field.takesBit, h]
  | copy =>
    have set := bit (by simp [Field.takesBit, h])
    simp [decodeField, decodePresent, Field.step, Field.takesBit, h, set]
  | incr =>
    have set := bit (by simp [Field.takesBit, h])
    obtain ⟨inc, hi⟩ := Option.ne_none_iff_exists'.mp (hincr h)
    simp [decodeField, decodePresent, Field.step, Field.takesBit, h, set, hi]
  | delta => exact absurd h hdelta
  | default =>
    have set := bit (by simp [Field.takesBit, h])
    simp [decodeField, decodePresent, Field.step, Field.takesBit, h, set]
  | constant => exact absurd h hop

theorem decode_difference {read : Buffer → Field α → Reading α} (hop : f.op = .delta) (hK : K.delta = some read) :
    decodeField K b p f = (read b f).toDecoded (f.step p) := by
  simp [decodeField, Field.step, Field.takesBit, hop, hK]

theorem decode_copied (hop : f.op = .copy) (assigned : f.state = .assigned) (bit : p.next.pmapIsSet = false) :
    decodeField K b p f = ⟨.ok, b, f.step p, f⟩ := by
  simp [decodeField, decodePresent, previousValue, Field.step, Field.takesBit, hop, assigned, bit]
  rw [← hop, ← assigned]

theorem decode_incremented {inc : α → α} (hop : f.op = .incr) (hK : K.incr = some inc)
    (assigned : f.state = .assigned) (bit : p.next.pmapIsSet = false) :
    decodeField K b p f = ⟨.ok, b, f.step p, { f with value := inc f.value }⟩ := by
  simp [decodeField, decodePresent, previousValue, Field.step, Field.takesBit, hop, assigned, bit, hK]

theorem decode_constant (hop : f.op = .constant) :
    decodeField K b p f = ⟨.ok, b, f.step p,
      { constantValue K f with
        state := if f.takesBit && !p.next.pmapIsSet then .empty else .assigned }⟩ := by
  cases hm : f.isMandatory with
  | true =>
    have mandatory : (constantValue K f).isMandatory = true := hm
    simp [decodeField, decodeConstant, mandatory, Field.step, Field.takesBit, hop, hm]
    rfl
  | false =>
    have optional : (constantValue K f).isMandatory = false := hm
    cases bit : p.next.pmapIsSet with
    | true =>
      simp [decodeField, decodeConstant, optional, Field.step, Field.takesBit, hop, hm, bit]
      rfl
    | false => simp [decodeField, decodeConstant, optional, Field.step, Field.takesBit, hop, hm, bit]

end Entries

/-! ## One step -/

section RoundTrip
variable {α : Type} {C : Codec α}

/-- A field that was encoded: the bytes it put, what it did to the presence map, and what the decoder
makes of them. -/
structure RoundTrip (C : Codec α) (b : Buffer) (p : Pmap) (fe fd : Field α) (s : Setting α)
    (r : Encoded (Field α)) (w : List UInt8) : Prop where
  kept : fe.SameTemplate r.field
  appends : b.Appends r.buffer w
  pmap : r.pmap = fe.step p ∨ (fe.takesBit = true ∧ r.pmap = p.next.pmapSet)
  decodes : ∀ {B : Buffer} {rest : List UInt8} {P : Pmap}, B.Valid → B.unread = w ++ rest →
    (fe.takesBit = true → P.next.pmapIsSet = r.pmap.pmapIsSet) →
    ∃ fd', decodeField C.kind B P fd = ⟨.ok, B.bufferAdvance w.length, fe.step P, fd'⟩ ∧
      Agrees C r.field fd' ∧ Shows C fd' s

/-- The bit behind the cursor is still clear, and inside the map. -/
structure FreeBit (p : Pmap) : Prop where
  clear : p.next.pmapIsSet = false
  set : p.next.pmapSet.pmapIsSet = true

theorem Field.SameTemplate.trans {f g h : Field α} (a : f.SameTemplate g) (b : g.SameTemplate h) :
    f.SameTemplate h :=
  ⟨b.presence.trans a.presence, b.op.trans a.op, b.hasReset.trans a.hasReset, b.reset.trans a.reset⟩

theorem Field.SameTemplate.takesBit {f g : Field α} (a : f.SameTemplate g) : g.takesBit = f.takesBit := by
  simp only [Field.takesBit, Field.isMandatory, a.op, a.presence]

theorem Field.SameTemplate.step {f g : Field α} (a : f.SameTemplate g) (p : Pmap) : g.step p = f.step p := by
  simp only [Field.step, a.takesBit]

theorem Field.SameTemplate.isMandatory {f g : Field α} (a : f.SameTemplate g) : g.isMandatory = f.isMandatory := by
  simp only [Field.isMandatory, a.presence]

theorem Field.SameTemplate.symm {f g : Field α} (a : f.SameTemplate g) : g.SameTemplate f :=
  ⟨a.presence.symm, a.op.symm, a.hasReset.symm, a.reset.symm⟩

/-- Setting a field leaves its template alone. -/
theorem set_template (K : Kind α) (f : Field α) (s : Setting α) : f.SameTemplate (f.set K s) := by
  cases s <;> exact ⟨rfl, rfl, rfl, rfl⟩

/-- The presence bit after a transfer. -/
theorem transferred_pmap {f : Field α} (hop : f.op ≠ .constant) (p : Pmap) :
    (if f.usesBit then (f.step p).pmapSet else f.step p) =
      if f.takesBit then p.next.pmapSet else f.step p := by
  cases h : f.op <;> simp_all [Field.usesBit, Field.takesBit, Field.step]

theorem encode_constant_null {E : Coder α} {b : Buffer} {p : Pmap} {f : Field α} (hop : f.op = .constant)
    (hm : f.isMandatory = false) (hs : f.state = .empty) : encodeField E b p f = ⟨true, b, p.next, f⟩ := by
  simp [encodeField, encodeSwitch, switchConstant, Field.stateEmpty, hop, hm, hs]

theorem encode_constant_value {E : Coder α} {b : Buffer} {p : Pmap} {f : Field α} (hop : f.op = .constant)
    (hs : f.state ≠ .empty) :
    encodeField E b p f =
      ⟨true, b, if f.takesBit then p.next.pmapSet else p, { f with state := .assigned }⟩ := by
  have state : f.stateEmpty = false := by simp [Field.stateEmpty, hs]
  cases hm : f.isMandatory <;>
    simp [encodeField, encodeSwitch, switchConstant, Field.takesBit, state, hop, hm]

theorem constant_view (laws : C.Laws) {fe fd : Field α} (ag : Agrees C fe fd) (hop : fe.op = .constant) :
    C.view (constantValue C.kind fd).value = C.view fd.reset ∧ C.Stored (constantValue C.kind fd).value := by
  unfold constantValue
  simp only
  split
  · obtain ⟨view, stored⟩ := laws.load fd.value fd.reset
    exact ⟨view, stored ag.stored ag.reset⟩
  · rename_i assigned
    exact ⟨ag.constant hop (Decidable.not_not.mp assigned), ag.stored⟩

/-- The application sets a value: the state is not `EMPTY`. -/
theorem set_value_state (K : Kind α) (f : Field α) (v : α) : (f.set K (.value v)).state ≠ .empty := by
  simp only [Field.set]
  split <;> exact nofun

/-- `FAST_OP_CONSTANT`: nothing but the presence bit. -/
theorem constant_round_trip (laws : C.Laws) {fe fd : Field α} (ag : Agrees C fe fd) (hop : fe.op = .constant)
    {s : Setting α} (allowed : Allowed C fe s) {b : Buffer} (hv : b.Valid) {p : Pmap}
    (free : fe.takesBit = true → FreeBit p) :
    RoundTrip C b p fe fd s (encodeField C.coder b p (fe.set C.kind s)) [] := by
  have hop' : fd.op = .constant := ag.template.op.trans hop
  have template := ag.template
  obtain ⟨view, stored⟩ := constant_view laws ag hop
  cases s with
  | null =>
    have bit : fe.takesBit = true := by
      have optional : fe.isMandatory = false := allowed
      simp [Field.takesBit, hop, optional]
    rw [encode_constant_null (f := fe.set C.kind .null) hop allowed rfl]
    refine ⟨⟨rfl, rfl, rfl, rfl⟩, hv.appends_nil, .inl (by simp [Field.step, bit]), fun {B rest P} hB hu same => ?_⟩
    have clear : P.next.pmapIsSet = false := (same bit).trans (free bit).clear
    rw [decode_constant hop', template.step]
    refine ⟨_, rfl, ⟨⟨template.presence, template.op, template.hasReset, template.reset⟩, stored, ag.reset, ?_, ?_, ?_⟩, ?_⟩
    · rintro (h | h) <;> exact nomatch h.symm.trans hop
    · exact fun h => nomatch h.symm.trans hop
    · simp [template.takesBit, bit, clear]
    · simp [Shows, template.takesBit, bit, clear]
  | value v =>
    have same' : (fe.set C.kind (.value v)).takesBit = fe.takesBit := (set_template _ _ _).takesBit
    rw [encode_constant_value (f := fe.set C.kind (.value v)) hop (set_value_state _ _ _), same']
    refine ⟨⟨rfl, rfl, rfl, rfl⟩, hv.appends_nil, ?_, fun {B rest P} hB hu same => ?_⟩
    · cases bit : fe.takesBit with
      | true => exact .inr ⟨rfl, by simp⟩
      | false => exact .inl (by simp [Field.step, bit])
    · have assigned : (if fd.takesBit && !P.next.pmapIsSet then State.empty else .assigned) = .assigned := by
        cases bit : fe.takesBit with
        | true =>
          have set : P.next.pmapIsSet = true := by
            rw [same bit]
            simpa [bit] using (free bit).set
          simp [set]
        | false => simp [template.takesBit, bit]
      rw [decode_constant hop', template.step, assigned]
      refine ⟨_, rfl, ⟨⟨template.presence, template.op, template.hasReset, template.reset⟩, stored, ag.reset, ?_, ?_, ?_⟩, ?_⟩
      · rintro (h | h) <;> exact nomatch h.symm.trans hop
      · exact fun h => nomatch h.symm.trans hop
      · exact fun _ _ => view
      · refine ⟨rfl, ?_⟩
        rw [show C.view v = C.view fe.reset from allowed hop, ← template.reset]
        exact view

/-- What a transfer leaves, where it went through. -/
theorem after_transfer_ok {t : Transferred} {p : Pmap} {f g : Field α} (hop : f.op ≠ .constant) (hg : g.op = f.op)
    (h : (afterTransfer t (f.step p) g).ok = true) :
    t.1 = true ∧
      afterTransfer t (f.step p) g = ⟨true, t.2, if f.takesBit then p.next.pmapSet else f.step p, g⟩ := by
  have ok : t.1 = true := h
  refine ⟨ok, ?_⟩
  have bit : g.usesBit = f.usesBit := by simp only [Field.usesBit, hg]
  rw [afterTransfer, ok, bit]
  exact congrArg (Encoded.mk true t.2 · g) (transferred_pmap hop p)

/-- The cursor and the bit of a field on the wire. -/
theorem on_wire_pmap {f : Field α} {p : Pmap} (free : f.takesBit = true → FreeBit p) :
    let q := if f.takesBit then p.next.pmapSet else f.step p
    (q = f.step p ∨ (f.takesBit = true ∧ q = p.next.pmapSet)) ∧ (f.takesBit = true → q.pmapIsSet = true) := by
  cases bit : f.takesBit with
  | true => exact ⟨.inr ⟨rfl, rfl⟩, fun _ => (free bit).set⟩
  | false => exact ⟨.inl rfl, nofun⟩

theorem decoder_increments (laws : C.Laws) {fe fd : Field α} (supported : Supported C.coder fe)
    (template : fe.SameTemplate fd) : fd.op = .incr → C.kind.incr ≠ none := by
  intro h
  obtain ⟨next, step⟩ := supported.incr (template.op.symm.trans h)
  obtain ⟨inc, hi, -⟩ := laws.incr step
  rw [hi]
  exact nofun

/-- `NULL` on the wire. -/
theorem null_round_trip (laws : C.Laws) {fe fd : Field α} (ag : Agrees C fe fd) (hop : fe.op ≠ .constant)
    (supported : Supported C.coder fe) (optional : fe.isMandatory = false) {b : Buffer} (hv : b.Valid) {p : Pmap}
    (free : fe.takesBit = true → FreeBit p) (ok : (encodeField C.coder b p (fe.set C.kind .null)).ok = true) :
    ∃ w, RoundTrip C b p fe fd .null (encodeField C.coder b p (fe.set C.kind .null)) w := by
  have template := ag.template
  have null : (fe.set C.kind .null).isNull = true := by
    have : (fe.set C.kind .null).isMandatory = false := optional
    simp only [Field.isNull, this, Bool.not_false, Bool.true_and]
    rfl
  obtain ⟨kept, -, previous⟩ := laws.onEmpty (fe.set C.kind .null)
  have encoded := encode_empty (b := b) (p := p)
    (switch_null (f := fe.set C.kind .null) ⟨supported.incr, supported.delta⟩ hop null)
  rw [encoded] at ok
  obtain ⟨put, after⟩ := after_transfer_ok (p := p) (f := fe.set C.kind .null)
    (g := (C.coder.onEmpty (fe.set C.kind .null)).remember (fe.set C.kind .null).state) hop kept.op ok
  rw [encoded, after]
  have put : C.coder.putNull b (fe.set C.kind .null) = (true, (C.coder.putNull b (fe.set C.kind .null)).2) :=
    Prod.ext put rfl
  obtain ⟨pmap, bit⟩ := on_wire_pmap free
  have set := (set_template C.kind fe .null).symm.trans template
  have sent := kept.symm.trans set
  have unchanged := (set_template C.kind fe .null).trans kept
  by_cases hd : fe.op = .delta
  · obtain ⟨read, hread, -, nulls⟩ := laws.delta (supported.delta hd)
    obtain ⟨w, appends, reads⟩ := nulls (f := fe.set C.kind .null) hv hd set optional put
    refine ⟨w, ⟨unchanged.presence, unchanged.op, unchanged.hasReset, unchanged.reset⟩, appends, pmap,
      fun {B rest P} hB hu same => ?_⟩
    rw [decode_difference (template.op.trans hd) hread, reads hB hu, template.step]
    refine ⟨_, rfl, ⟨⟨sent.presence, sent.op, sent.hasReset, sent.reset⟩, ag.stored, ag.reset,
      fun _ => .inr (.inl rfl), fun _ => ?_, fun h => ?_⟩, rfl⟩
    · exact (ag.base hd).trans previous.symm
    · exact absurd (kept.op.symm.trans h) hop
  · obtain ⟨w, appends, reads⟩ := laws.putNull (f := fe.set C.kind .null) hv hd set ag.stored optional put
    refine ⟨w, ⟨unchanged.presence, unchanged.op, unchanged.hasReset, unchanged.reset⟩, appends, pmap,
      fun {B rest P} hB hu same => ?_⟩
    obtain ⟨v, st, read, stored, empty⟩ := reads hB hu
    rw [decode_value (by rw [template.op]; exact hop) (by rw [template.op]; exact hd)
      (decoder_increments laws supported template)
      (fun h => (same (template.takesBit.symm.trans h)).trans (bit (template.takesBit.symm.trans h))),
      read, template.step]
    refine ⟨_, rfl, ⟨⟨sent.presence, sent.op, sent.hasReset, sent.reset⟩, stored, ag.reset,
      fun _ => .inr (.inl rfl), fun h => ?_, fun h => ?_⟩, empty⟩
    · exact absurd (kept.op.symm.trans h) hd
    · exact absurd (kept.op.symm.trans h) hop

/-- A value on the wire. -/
theorem value_round_trip (laws : C.Laws) {fe fd : Field α} (ag : Agrees C fe fd) (hop : fe.op ≠ .constant)
    (supported : Supported C.coder fe) (v : α) {b : Buffer} (hv : b.Valid) {p : Pmap}
    (free : fe.takesBit = true → FreeBit p)
    (transfer : encodeSwitch C.coder p (fe.set C.kind (.value v)) =
      ⟨.transfer, fe.step p, { fe.set C.kind (.value v) with state := .assigned }⟩)
    (sendable : C.Sendable { fe.set C.kind (.value v) with state := .assigned })
    (ok : (encodeField C.coder b p (fe.set C.kind (.value v))).ok = true) :
    ∃ w, RoundTrip C b p fe fd (.value v) (encodeField C.coder b p (fe.set C.kind (.value v))) w := by
  have template := ag.template
  obtain ⟨kept, assigned, previous⟩ := laws.onValue { fe.set C.kind (.value v) with state := .assigned }
  have encoded := encode_transfer (b := b) transfer
  rw [encoded] at ok
  obtain ⟨put, after⟩ := after_transfer_ok (p := p) (f := fe)
    (g := (C.coder.onValue { fe.set C.kind (.value v) with state := .assigned }).remember .assigned) hop kept.op ok
  rw [encoded, after]
  have put : C.coder.put b { fe.set C.kind (.value v) with state := .assigned } = (true, _) := Prod.ext put rfl
  obtain ⟨pmap, bit⟩ := on_wire_pmap free
  have set : ({ fe.set C.kind (.value v) with state := .assigned } : Field α).SameTemplate fd :=
    ⟨template.presence, template.op, template.hasReset, template.reset⟩
  have sent := kept.symm.trans set
  have unchanged := template.trans sent.symm
  have view : C.view (C.kind.load fe.value v) = C.view v := (laws.load fe.value v).1
  by_cases hd : fe.op = .delta
  · obtain ⟨read, hread, values, -⟩ := laws.delta (supported.delta hd)
    obtain ⟨w, appends, reads⟩ := values
      (f := { fe.set C.kind (.value v) with state := .assigned }) hv hd set (ag.base hd) sendable put
    refine ⟨w, ⟨unchanged.presence, unchanged.op, unchanged.hasReset, unchanged.reset⟩, appends, pmap,
      fun {B rest P} hB hu same => ?_⟩
    obtain ⟨v', st, read, stored, state, shown⟩ := reads hB hu
    rw [decode_difference (template.op.trans hd) hread, read, template.step]
    refine ⟨_, rfl, ⟨⟨sent.presence, sent.op, sent.hasReset, sent.reset⟩, stored, ag.reset,
      fun _ => .inr (.inr ⟨state, ?_⟩), fun _ => ?_, fun h => ?_⟩, state, shown.trans view⟩
    · exact shown.trans previous.symm
    · exact shown.trans previous.symm
    · exact absurd (kept.op.symm.trans h) hop
  · obtain ⟨w, appends, reads⟩ := laws.put
      (f := { fe.set C.kind (.value v) with state := .assigned }) hv hd set ag.stored sendable put
    refine ⟨w, ⟨unchanged.presence, unchanged.op, unchanged.hasReset, unchanged.reset⟩, appends, pmap,
      fun {B rest P} hB hu same => ?_⟩
    obtain ⟨v', st, read, stored, state, shown⟩ := reads hB hu
    rw [decode_value (by rw [template.op]; exact hop) (by rw [template.op]; exact hd)
      (decoder_increments laws supported template)
      (fun h => (same (template.takesBit.symm.trans h)).trans (bit (template.takesBit.symm.trans h))),
      read, template.step]
    refine ⟨_, rfl, ⟨⟨sent.presence, sent.op, sent.hasReset, sent.reset⟩, stored, ag.reset,
      fun _ => .inr (.inr ⟨state, ?_⟩), fun h => ?_, fun h => ?_⟩, state, shown.trans view⟩
    · exact shown.trans previous.symm
    · exact absurd (kept.op.symm.trans h) hd
    · exact absurd (kept.op.symm.trans h) hop

/-- A value left off the wire. -/
theorem omitted_round_trip (laws : C.Laws) {fe fd : Field α} (ag : Agrees C fe fd) (v : α) {b : Buffer}
    (hv : b.Valid) {p : Pmap} (free : fe.takesBit = true → FreeBit p) {omitted : Field α}
    (out : Omitted C.coder (fe.set C.kind (.value v)) omitted) :
    RoundTrip C b p fe fd (.value v) ⟨true, b, fe.step p, omitted⟩ [] := by
  have template := ag.template
  have view : C.view (C.kind.load fe.value v) = C.view v := (laws.load fe.value v).1
  have sent : fe.state ≠ .undefined := by
    intro undefined
    have := out.assigned
    simp [Field.set, undefined] at this
  have known : fe.op = .copy ∨ fe.op = .incr → fd.state = .assigned ∧ C.view fd.value = C.view fe.previous := by
    intro hop
    obtain h | h | h := ag.known hop
    · exact absurd h sent
    · exact absurd h out.previous
    · exact h
  have kept : fe.SameTemplate omitted := by
    obtain ⟨-, rfl, -⟩ | ⟨-, _, -, rfl, -⟩ := out.found <;> exact ⟨rfl, rfl, rfl, rfl⟩
  refine ⟨kept, hv.appends_nil, .inl rfl, fun {B rest P} hB hu same => ?_⟩
  obtain ⟨hop, rfl, found⟩ | ⟨hop, next, step, rfl, found⟩ := out.found
  · have hop : fe.op = .copy := hop
    have bit : fe.takesBit = true := by simp [Field.takesBit, hop]
    have clear : P.next.pmapIsSet = false := by
      rw [same bit]
      simpa [Field.step, bit] using (free bit).clear
    obtain ⟨assigned, value⟩ := known (.inl hop)
    have shown : C.view fd.value = C.view (C.kind.load fe.value v) :=
      value.trans ((laws.same _ _).mp found).symm
    rw [decode_copied (template.op.trans hop) assigned clear, template.step]
    refine ⟨_, rfl, ⟨⟨template.presence, template.op, template.hasReset, template.reset⟩, ag.stored, ag.reset,
      fun _ => .inr (.inr ⟨assigned, value⟩), fun h => ?_, fun h => ?_⟩, assigned, shown.trans view⟩
    · exact nomatch hop.symm.trans h
    · exact nomatch hop.symm.trans h
  · have hop : fe.op = .incr := hop
    have bit : fe.takesBit = true := by simp [Field.takesBit, hop]
    have clear : P.next.pmapIsSet = false := by
      rw [same bit]
      simpa [Field.step, bit] using (free bit).clear
    obtain ⟨assigned, value⟩ := known (.inr hop)
    obtain ⟨inc, hinc, steps⟩ := laws.incr step
    obtain ⟨stepped, stored⟩ := steps _ _ value
    have shown : C.view (inc fd.value) = C.view (C.kind.load fe.value v) :=
      stepped.trans ((laws.same _ _).mp found).symm
    rw [decode_incremented (template.op.trans hop) hinc assigned clear, template.step]
    refine ⟨_, rfl, ⟨⟨template.presence, template.op, template.hasReset, template.reset⟩, stored ag.stored, ag.reset,
      fun _ => .inr (.inr ⟨assigned, stepped⟩), fun h => ?_, fun h => ?_⟩, assigned, shown.trans view⟩
    · exact nomatch hop.symm.trans h
    · exact nomatch hop.symm.trans h

/-- **One field, one message.** What the application set comes out of the decoder, and the
dictionaries agree again. -/
theorem field_round_trip (laws : C.Laws) {fe fd : Field α} (ag : Agrees C fe fd) (supported : Supported C.coder fe)
    {s : Setting α} (allowed : Allowed C fe s) {b : Buffer} (hv : b.Valid) {p : Pmap}
    (free : fe.takesBit = true → FreeBit p)
    (sendable : ∀ {q g}, encodeSwitch C.coder p (fe.set C.kind s) = ⟨.transfer, q, g⟩ → C.Sendable g)
    (ok : (encodeField C.coder b p (fe.set C.kind s)).ok = true) :
    ∃ w, RoundTrip C b p fe fd s (encodeField C.coder b p (fe.set C.kind s)) w := by
  by_cases hop : fe.op = .constant
  · exact ⟨[], constant_round_trip laws ag hop allowed hv free⟩
  · cases s with
    | null => exact null_round_trip laws ag hop supported allowed hv free ok
    | value v =>
      have state := set_value_state C.kind fe v
      have null : (fe.set C.kind (.value v)).isNull = false := by
        simp [Field.isNull, Field.stateEmpty, state]
      have step : (fe.set C.kind (.value v)).step p = fe.step p := (set_template C.kind fe (.value v)).step p
      obtain sent | ⟨omitted, out, done⟩ :=
        switch_value (f := fe.set C.kind (.value v)) (p := p) ⟨supported.incr, supported.delta⟩ hop null state
      · rw [step] at sent
        exact value_round_trip laws ag hop supported v hv free sent (sendable sent) ok
      · rw [encode_done done, step]
        exact ⟨[], omitted_round_trip laws ag v hv free out⟩

end RoundTrip

end Libtrading.Fast
