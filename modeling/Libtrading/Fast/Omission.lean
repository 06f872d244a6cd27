import Libtrading.Fast.FailedEncode

/-!
# What is left off the wire

With copy and increment the encoder leaves off a value the decoder is taken to
find by itself. It decides so by the previous value and state of the field; a
field that was never transmitted has a previous value all the same, the
initial one or zero, and an application that assigns its fields from the first
message on can hit it. `Tracks` is what holds between the two dictionaries,
`Safe` what the application has to keep to.
-/

namespace Libtrading.Fast
set_option autoImplicit false
open Buffer Pmap

/-! ## One field -/

section OneField
variable {α : Type}

/-- The application sets the value and the state, `ASSIGNED` from the first message on. -/
def Field.assign (K : Kind α) (f : Field α) : Setting α → Field α
  | .null => { f with state := .empty }
  | .value v => { f with value := K.load f.value v, state := .assigned }

/-- A setting the decoder can follow: `EMPTY` where the field is optional; a value that fits the wire,
or one that is left off it. A field that was never transmitted is left off with copy and an initial
value only. -/
def Field.Safe (C : Codec α) (f : Field α) : Setting α → Prop
  | .null => f.isMandatory = false
  | .value v =>
    if (f.assign C.kind (.value v)).leftOff C.coder then
      f.statePrevious = .undefined → f.op = .copy ∧ f.hasReset = true
    else C.Sendable (f.assign C.kind (.value v))

/-- Nothing was transmitted yet: the encoder starts from the initial value, and the decoder from nothing. -/
structure Unsent (C : Codec α) (fe fd : Field α) : Prop where
  previous : fe.statePrevious = .undefined
  initial : C.view fe.previous = C.view fe.reset
  undefined : fd.state = .undefined

/-- The decoder's dictionary follows the encoder's. -/
structure Tracks (C : Codec α) (fe fd : Field α) : Prop where
  template : fe.SameTemplate fd
  op : fe.op = .copy ∨ fe.op = .incr
  stored : C.Stored fd.value
  reset : C.Stored fd.reset
  known : Unsent C fe fd ∨ fe.statePrevious = .empty ∨ (fd.state = .assigned ∧ C.view fd.value = C.view fe.previous)

/-- One message of a field: the bytes, the bit, and what the decoder makes of them. -/
structure Follows (C : Codec α) (b : Buffer) (p : Pmap) (fe fd : Field α) (s : Setting α) (r : Encoded (Field α))
    (w : List UInt8) : Prop where
  kept : fe.SameTemplate r.field
  appends : b.Appends r.buffer w
  pmap : r.pmap = p.next ∨ r.pmap = p.next.pmapSet
  decodes : ∀ {B : Buffer} {rest : List UInt8} {P : Pmap}, B.Valid → B.unread = w ++ rest →
    P.next.pmapIsSet = r.pmap.pmapIsSet →
    ∃ fd', decodeField C.kind B P fd = ⟨.ok, B.bufferAdvance w.length, P.next, fd'⟩ ∧
      Tracks C r.field fd' ∧ Shows C fd' s

variable {C : Codec α} {fe fd : Field α} {b : Buffer} {p : Pmap}

theorem Tracks.op_ne (h : Tracks C fe fd) : fe.op ≠ .constant := by
  obtain op | op := h.op <;> rw [op] <;> exact nofun

theorem Tracks.takesBit (h : Tracks C fe fd) : fe.takesBit = true := by
  rw [Field.takesBit]
  obtain op | op := h.op <;> rw [op]

theorem Tracks.step (h : Tracks C fe fd) (p : Pmap) : fe.step p = p.next := by rw [Field.step, h.takesBit, if_pos rfl]

/-- Assigning a field does not touch the dictionary. -/
theorem Tracks.assigned (h : Tracks C fe fd) {s : Setting α} : Tracks C (fe.assign C.kind s) fd := by
  have template : (fe.assign C.kind s).SameTemplate fd := by
    cases s <;> exact ⟨h.template.presence, h.template.op, h.template.hasReset, h.template.reset⟩
  have known : Unsent C (fe.assign C.kind s) fd ∨ (fe.assign C.kind s).statePrevious = .empty ∨
      (fd.state = .assigned ∧ C.view fd.value = C.view (fe.assign C.kind s).previous) := by
    cases s <;> exact h.known.imp_left fun unsent => ⟨unsent.previous, unsent.initial, unsent.undefined⟩
  exact ⟨template, by cases s <;> exact h.op, h.stored, h.reset, known⟩

/-- What the encoder does with a setting does not depend on the state the field was in. -/
theorem Tracks.agrees (h : Tracks C fe fd) (state : State)
    (known : state = .undefined ∨ (fd.state = .assigned ∧ C.view fd.value = C.view fe.previous)) :
    Agrees C { fe with state := state } fd where
  template := ⟨h.template.presence, h.template.op, h.template.hasReset, h.template.reset⟩
  stored := h.stored
  reset := h.reset
  known _ := known.imp_right .inr
  base delta := by
    have delta : fe.op = .delta := delta
    obtain op | op := h.op <;> exact absurd (op.symm.trans delta) (by decide)
  constant constant := absurd constant h.op_ne

/-- After a message that shows its setting, the dictionaries agree whatever the state. -/
theorem tracks_after {g : Field α} (kept : fe.SameTemplate g) (op : fe.op = .copy ∨ fe.op = .incr)
    (agrees : Agrees C g fd) (state : g.state ≠ .undefined) : Tracks C g fd where
  template := agrees.template
  op := by
    rw [kept.op]
    exact op
  stored := agrees.stored
  reset := agrees.reset
  known := .inr ((agrees.known (by rw [kept.op]; exact op)).resolve_left state)

/-- A round trip from the field in some state, for the field as the application assigned it. -/
theorem Tracks.follows (h : Tracks C fe fd) {state : State} {s : Setting α} {r : Encoded (Field α)} {w : List UInt8}
    (trip : RoundTrip C b p { fe with state := state } fd s r w) (sent : r.field.state ≠ .undefined) :
    Follows C b p fe fd s r w where
  kept := ⟨trip.kept.presence, trip.kept.op, trip.kept.hasReset, trip.kept.reset⟩
  appends := trip.appends
  pmap := by
    have pmap := trip.pmap
    rw [show ({ fe with state := state } : Field α).step p = fe.step p from rfl, h.step] at pmap
    exact pmap.imp_right And.right
  decodes {B rest P} hB hu same := by
    obtain ⟨fd', decoded, agrees, shows⟩ := trip.decodes hB hu fun _ => same
    rw [show ({ fe with state := state } : Field α).step P = fe.step P from rfl, h.step] at decoded
    exact ⟨fd', decoded, tracks_after ⟨trip.kept.presence, trip.kept.op, trip.kept.hasReset, trip.kept.reset⟩ h.op agrees sent, shows⟩

/-- A value that was put. -/
theorem put_state (laws : C.Laws) {f g : Field α} {q : Pmap} (h : encodeSwitch C.coder p f = ⟨.transfer, q, g⟩) :
    (encodeField C.coder b p f).field.state = .assigned := by
  rw [encode_transfer h]
  change (C.coder.onValue g).state = .assigned
  rw [(laws.onValue g).2.1, switch_transfers h]

theorem null_state (laws : C.Laws) {f g : Field α} {q : Pmap} (h : encodeSwitch C.coder p f = ⟨.empty, q, g⟩) :
    (encodeField C.coder b p f).field.state = g.state := by
  rw [encode_empty h]
  exact (laws.onEmpty g).2.1

/-- Copy with an initial value: the first value left off is the initial one, which the decoder has. -/
theorem initial_follows (laws : C.Laws) (h : Tracks C fe fd) (unsent : Unsent C fe fd) (v : α) (hv : b.Valid)
    (free : FreeBit p) (op : fe.op = .copy) (hasReset : fe.hasReset = true)
    (same : C.coder.same (C.kind.load fe.value v) fe.previous = true) :
    Follows C b p fe fd (.value v) ⟨true, b, p.next, fe.assign C.kind (.value v)⟩ [] := by
  have template := h.template
  have load := laws.load fd.value fd.reset
  have view : C.view fe.previous = C.view v := ((laws.same _ _).mp same).symm.trans (laws.load fe.value v).1
  refine ⟨⟨rfl, rfl, rfl, rfl⟩, hv.appends_nil, .inl rfl, fun {B rest P} hB hu bit => ?_⟩
  have clear : P.next.pmapIsSet = false := bit.trans free.clear
  have value : C.view (C.kind.load fd.value fd.reset) = C.view fe.previous := by
    rw [load.1, template.reset, unsent.initial]
  refine ⟨{ fd with state := .assigned, value := C.kind.load fd.value fd.reset }, ?_,
    ⟨⟨template.presence, template.op, template.hasReset, template.reset⟩, h.op, load.2 h.stored h.reset, h.reset,
      .inr (.inr ⟨rfl, value⟩)⟩, rfl, value.trans view⟩
  have initial : initialValue C.kind fd = (.ok, { fd with state := .assigned, value := C.kind.load fd.value fd.reset }) := by
    rw [initialValue, if_pos (template.hasReset.trans hasReset)]
  simp only [decodeField, template.op.trans op, decodePresent, clear, Bool.false_eq_true, if_false, previousValue,
    unsent.undefined, initial]
  rfl

/-- A value that goes on the wire: to the encoder it is the first one. -/
theorem sent_follows (laws : C.Laws) (supported : Supported C.coder fe) (h : Tracks C fe fd) (v : α) (hv : b.Valid)
    (free : FreeBit p)
    (sent : encodeSwitch C.coder p (fe.assign C.kind (.value v)) = ⟨.transfer, fe.step p, fe.assign C.kind (.value v)⟩)
    (sendable : C.Sendable (fe.assign C.kind (.value v)))
    (ok : (encodeField C.coder b p (fe.assign C.kind (.value v))).ok = true) :
    ∃ w, Follows C b p fe fd (.value v) (encodeField C.coder b p (fe.assign C.kind (.value v))) w := by
  have first : Agrees C { fe with state := .undefined } fd := h.agrees .undefined (.inl rfl)
  have supported' : Supported C.coder { fe with state := .undefined } := ⟨supported.incr, supported.delta⟩
  have present : (({ fe with state := .undefined } : Field α).set C.kind (.value v)).isNull = false := Bool.and_false _
  have transfer : encodeSwitch C.coder p (({ fe with state := .undefined } : Field α).set C.kind (.value v)) =
      ⟨.transfer, fe.step p, fe.assign C.kind (.value v)⟩ := by
    obtain transfer | ⟨omitted, out, -⟩ := switch_value (p := p)
      (f := ({ fe with state := .undefined } : Field α).set C.kind (.value v)) ⟨supported.incr, supported.delta⟩ h.op_ne
      present nofun
    · exact transfer
    · exact absurd out.assigned nofun
  have same : encodeField C.coder b p (fe.assign C.kind (.value v)) =
      encodeField C.coder b p (({ fe with state := .undefined } : Field α).set C.kind (.value v)) := by
    rw [encode_transfer sent, encode_transfer transfer]
  have state := put_state (b := b) laws sent
  rw [same] at ok state ⊢
  obtain ⟨w, trip⟩ := value_round_trip laws first h.op_ne supported' v hv (fun _ => free) transfer sendable ok
  exact ⟨w, h.follows trip (by rw [state]; exact nofun)⟩

/-- **One message of one field.** -/
theorem field_follows (laws : C.Laws) (supported : Supported C.coder fe) (h : Tracks C fe fd) {s : Setting α}
    (safe : fe.Safe C s) (hv : b.Valid) (free : FreeBit p)
    (ok : (encodeField C.coder b p (fe.assign C.kind s)).ok = true) :
    ∃ w, Follows C b p fe fd s (encodeField C.coder b p (fe.assign C.kind s)) w := by
  cases s with
  | null =>
    have first : Agrees C { fe with state := .undefined } fd := h.agrees .undefined (.inl rfl)
    have optional : fe.isMandatory = false := safe
    obtain ⟨w, trip⟩ := null_round_trip laws first h.op_ne ⟨supported.incr, supported.delta⟩ optional hv (fun _ => free) ok
    have null : (fe.assign C.kind .null).isNull = true := by
      have mandatory : (fe.assign C.kind .null).isMandatory = false := optional
      rw [Field.isNull, mandatory]
      rfl
    have exit := switch_null (f := fe.assign C.kind .null) (p := p) ⟨supported.incr, supported.delta⟩ h.op_ne null
    exact ⟨w, h.follows trip (by rw [null_state laws exit]; intro h; cases h)⟩
  | value v =>
    have present : (fe.assign C.kind (.value v)).isNull = false := Bool.and_false _
    have exit := switch_exit C.coder p (fe.assign C.kind (.value v))
    simp only [Field.Safe] at safe
    obtain sent | ⟨omitted, out, done⟩ :=
      switch_value (f := fe.assign C.kind (.value v)) (p := p) ⟨supported.incr, supported.delta⟩ h.op_ne present (by intro h; cases h)
    · rw [sent] at exit
      have put : (fe.assign C.kind (.value v)).leftOff C.coder = false := by
        cases exit
        assumption
      rw [put, if_neg Bool.false_ne_true] at safe
      exact sent_follows laws supported h v hv free sent safe ok
    · have out' : Omitted C.coder (({ fe with state := .assigned } : Field α).set C.kind (.value v)) omitted := out
      rw [done] at exit
      have left : (fe.assign C.kind (.value v)).leftOff C.coder = true := by
        cases exit <;> assumption
      rw [left, if_pos rfl] at safe
      rw [encode_done done, show (fe.assign C.kind (.value v)).step p = p.next from h.step p]
      refine ⟨[], ?_⟩
      rcases h.known with unsent | empty | known
      · obtain ⟨op, hasReset⟩ := safe unsent.previous
        obtain ⟨-, rfl, same⟩ | ⟨incr, -⟩ := out.found
        · exact initial_follows laws h unsent v hv free op hasReset same
        · exact absurd (op.symm.trans incr) (by decide)
      · exact absurd empty out.previous
      · have trip := omitted_round_trip laws (h.agrees .assigned (.inr known)) v hv (fun _ => free) out'
        rw [show ({ fe with state := .assigned } : Field α).step p = fe.step p from rfl, h.step] at trip
        refine h.follows trip ?_
        obtain ⟨-, rfl, -⟩ | ⟨-, _, -, rfl, -⟩ := out.found <;> (intro h; cases h)

end OneField

/-! ## Fields of any type -/

/-- The settings of a decimal with individual operators: its exponent is one the decoder accepts, and
both sub-fields can be followed. -/
def DecimalFields.Safe (d : DecimalFields) : Setting Decimal → Prop
  | .null => d.field.isMandatory = false
  | .value v =>
    exponentOk v.exp = true ∧ d.exponent.Safe intCodec (.value v.exp) ∧ d.mantissa.Safe intCodec (.value v.mnt)

namespace ElementField

/-- The setting, assigned. -/
def assign : ElementField → FieldSetting → ElementField
  | .int f, .int s => .int (f.assign intKind s)
  | .uint f, .uint s => .uint (f.assign uintKind s)
  | .string false f, .string s => .string false (f.assign asciiKind s)
  | .decimal individ f e m, .decimal s => .decimal individ (f.assign decimalKind s) e m
  | f, _ => f

/-- The setting is one for the field's type, and the decoder can follow it. -/
def Safe : ElementField → FieldSetting → Prop
  | .int f, .int s => f.Safe intCodec s
  | .uint f, .uint s => f.Safe uintCodec s
  | .string false f, .string s => f.Safe asciiCodec s
  | .decimal false f _ _, .decimal s => f.Safe decimalCodec s
  | .decimal true f e m, .decimal s => (⟨f, e, m⟩ : DecimalFields).Safe s
  | _, _ => False

/-- What the application finds in the field, individual operators included. -/
def Displays : ElementField → FieldSetting → Prop
  | .decimal true f _ _, .decimal s => Fast.Shows decimalCodec f s
  | f, s => f.Shows s

end ElementField

/-- A field of the encoder, and the one of the decoder that follows it. -/
inductive ElementsTrack : ElementField → ElementField → Prop
  | int {fe fd} (tracks : Tracks intCodec fe fd) : ElementsTrack (.int fe) (.int fd)
  | uint {fe fd} (tracks : Tracks uintCodec fe fd) : ElementsTrack (.uint fe) (.uint fd)
  | string {fe fd} (copy : fe.op = .copy) (tracks : Tracks asciiCodec fe fd) :
    ElementsTrack (.string false fe) (.string false fd)
  | decimal {fe fd e m e' m'} (copy : fe.op = .copy) (tracks : Tracks decimalCodec fe fd) :
    ElementsTrack (.decimal false fe e m) (.decimal false fd e' m')
  | individ {fe fd e m e' m'} (same : fd.presence = fe.presence) (presence : e.presence = fe.presence)
    (exponent : Tracks intCodec e e') (mantissa : Tracks intCodec m m') :
    ElementsTrack (.decimal true fe e m) (.decimal true fd e' m')

/-- One message of a field of any type; the decoder's map has the bits of the encoder's. -/
structure ElementFollows (b : Buffer) (i n : Nat) (fd : ElementField) (s : FieldSetting) (r : Encoded ElementField)
    (w : List UInt8) : Prop where
  appends : b.Appends r.buffer w
  decodes : ∀ {B : Buffer} {rest : List UInt8} {P : Pmap}, B.Valid → B.unread = w ++ rest → P.pmapBit = i →
    (∀ j ≤ i + n, P.bitAt j = r.pmap.bitAt j) →
    (decodeElement B P fd).ret = .ok ∧ (decodeElement B P fd).field.Displays s ∧
      ElementsTrack r.field (decodeElement B P fd).field

section Elements
variable {α : Type} {C : Codec α} {b : Buffer} {p : Pmap} {i : Nat}

/-- The map behind a field with one bit. -/
theorem moved_map {q : Pmap} (writing : Writing p i) (inside : i + 1 < bits) (h : q = p.next ∨ q = p.next.pmapSet) :
    Writing q (i + 1) ∧ ∀ j ≤ i, q.bitAt j = p.bitAt j := by
  have next := writing_next writing
  obtain rfl | rfl := h
  · exact ⟨next, fun _ _ => rfl⟩
  · refine ⟨writing_set next inside, fun j hj => ?_⟩
    rw [pmap_set_bit next.cursor next.size next.length inside, decide_eq_false (by omega), Bool.or_false]
    rfl

/-- The bit the decoder finds is the one at the encoder's cursor. -/
theorem bit_found {P q : Pmap} (writing : Writing q (i + 1)) (cursor : P.pmapBit = i) (same : P.bitAt (i + 1) = q.bitAt (i + 1)) :
    P.next.pmapIsSet = q.pmapIsSet := by
  rw [next_is_set cursor, is_set_eq writing.cursor, same]

theorem tracks_consults {K : Kind α} {fe fd : Field α} (h : Tracks C fe fd)
    (incr : fe.op = .incr → K.incr.isNone = false) : fe.consults K = true := by
  rw [Field.consults]
  obtain op | op := h.op
  · rw [op]
    rfl
  · rw [op, incr op]
    rfl

/-- A field type as the type of an element. -/
theorem of_follows (laws : C.Laws) (enc dec : Field α → ElementField) {fe fd : Field α} (supported : Supported C.coder fe)
    (tracks : Tracks C fe fd) {s : Setting α} {setting : FieldSetting} (safe : fe.Safe C s)
    (assign : (enc fe).assign setting = enc (fe.assign C.kind s))
    (encodes : ∀ b p f, encodeElement b p (enc f) =
      ⟨(encodeField C.coder b p f).ok, (encodeField C.coder b p f).buffer, (encodeField C.coder b p f).pmap,
        enc (encodeField C.coder b p f).field⟩)
    (decodes : ∀ B P f, decodeElement B P (dec f) =
      ⟨(decodeField C.kind B P f).ret, (decodeField C.kind B P f).buffer, (decodeField C.kind B P f).pmap,
        dec (decodeField C.kind B P f).field⟩)
    (track : ∀ {f g : Field α}, f.op = fe.op → Tracks C f g → ElementsTrack (enc f) (dec g))
    (shows : ∀ {f : Field α}, Shows C f s → (dec f).Displays setting)
    (hv : b.Valid) (writing : Writing p i) (inside : i + 1 < bits)
    (ok : (encodeElement b p ((enc fe).assign setting)).ok = true) :
    ∃ w, ElementFollows b i 1 (dec fd) setting (encodeElement b p ((enc fe).assign setting)) w := by
  rw [assign, encodes] at ok ⊢
  obtain ⟨w, follows⟩ := field_follows laws supported tracks safe hv (writing.free inside) ok
  refine ⟨w, follows.appends, fun {B rest P} hB hu cursor same => ?_⟩
  have behind := (moved_map writing inside follows.pmap).1
  obtain ⟨fd', decoded, tracks', shown⟩ := follows.decodes hB hu (bit_found behind cursor (same _ (Nat.le_refl _)))
  rw [decodes, decoded]
  exact ⟨rfl, shows shown, track follows.kept.op tracks'⟩

theorem int_supported (f : Field I64) : Supported intCoder f := ⟨fun _ => ⟨_, rfl⟩, fun _ => rfl⟩

/-- The sub-fields of an assigned decimal are assigned alike. -/
theorem loaded_assigned (d : DecimalFields) (s : Setting Decimal) :
    (⟨d.field.assign decimalKind s, d.exponent, d.mantissa⟩ : DecimalFields).loaded = match s with
      | .null => ⟨d.field.assign decimalKind .null, d.exponent.assign intKind .null, d.mantissa.assign intKind .null⟩
      | .value v => ⟨d.field.assign decimalKind (.value v), d.exponent.assign intKind (.value v.exp),
          d.mantissa.assign intKind (.value v.mnt)⟩ := by
  cases s <;> rfl

/-- A decimal that is `NULL`: its exponent is, and the mantissa stays where it was. -/
theorem individ_null {f f' : Field Decimal} {e e' m m' : Field I64} (same : f'.presence = f.presence)
    (presence : e.presence = f.presence) (exponent : Tracks intCodec e e') (mantissa : Tracks intCodec m m')
    (optional : f.isMandatory = false) (hv : b.Valid) (writing : Writing p i) (inside : i + 1 < bits)
    (ok : (fastEncodeDecimalIndivid b p ⟨f.assign decimalKind .null, e, m⟩).ok = true) :
    ∃ w, ElementFollows b i 1 (.decimal true f' e' m') (.decimal .null)
      (encodeElement b p (.decimal true (f.assign decimalKind .null) e m)) w := by
  have loaded := loaded_assigned ⟨f, e, m⟩ .null
  have optional' : e.isMandatory = false := by
    rw [Field.isMandatory, presence]
    exact optional
  have shape := encode_individ b p ⟨f.assign decimalKind .null, e, m⟩
  simp only [loaded] at shape
  have went : (fastEncodeInt b p (e.assign intKind .null)).ok = true := by
    by_contra failed
    rw [shape, if_pos (by rw [Bool.eq_false_iff.mpr failed]; rfl)] at ok
    cases ok
  have null : (fastEncodeInt b p (e.assign intKind .null)).field.stateEmpty = true := by
    have mandatory : (e.assign intKind .null).isMandatory = false := optional'
    rw [encode_int_state went, Field.isNull, mandatory]
    rfl
  rw [if_neg (by rw [went]; exact Bool.false_ne_true), if_pos null] at shape
  obtain ⟨w, follows⟩ := field_follows int_laws (int_supported e) exponent (s := .null) optional' hv (writing.free inside) went
  have encoded : encodeElement b p (.decimal true (f.assign decimalKind .null) e m) = ⟨true,
      (fastEncodeInt b p (e.assign intKind .null)).buffer, (fastEncodeInt b p (e.assign intKind .null)).pmap,
      .decimal true (f.assign decimalKind .null) (fastEncodeInt b p (e.assign intKind .null)).field
        (m.assign intKind .null)⟩ := by
    simp only [encodeElement, shape]
  rw [encoded]
  refine ⟨w, follows.appends, fun {B rest P} hB hu cursor same' => ?_⟩
  have behind := (moved_map writing inside follows.pmap).1
  obtain ⟨g, decoded, tracks, shown⟩ := follows.decodes hB hu (bit_found behind cursor (same' _ (Nat.le_refl _)))
  have decoded : fastDecodeInt B P e' = ⟨.ok, B.bufferAdvance w.length, P.next, g⟩ := decoded
  have empty : g.stateEmpty = true := by
    rw [Field.stateEmpty, show g.state = .empty from shown]
    rfl
  have mandatory : f'.isMandatory = false := by
    rw [Field.isMandatory, same]
    exact optional
  have result : fastDecodeDecimalIndivid B P ⟨f', e', m'⟩ =
      ⟨.ok, B.bufferAdvance w.length, P.next, ⟨{ f' with state := .empty }, g, m'⟩⟩ := by
    simp only [fastDecodeDecimalIndivid, decoded, decodeMantissa, ne_eq, not_true_eq_false, if_false, empty, if_true,
      mandatory, Bool.false_eq_true]
  simp only [decodeElement, result]
  exact ⟨trivial, rfl, .individ same (follows.kept.presence.trans presence) tracks mantissa.assigned⟩

/-- A decimal with a value: the exponent, and behind it the mantissa. -/
theorem individ_value {f f' : Field Decimal} {e e' m m' : Field I64} (same : f'.presence = f.presence)
    (presence : e.presence = f.presence) (exponent : Tracks intCodec e e') (mantissa : Tracks intCodec m m') {v : Decimal}
    (safe : (⟨f, e, m⟩ : DecimalFields).Safe (.value v)) (hv : b.Valid) (writing : Writing p i) (inside : i + 2 < bits)
    (ok : (fastEncodeDecimalIndivid b p ⟨f.assign decimalKind (.value v), e, m⟩).ok = true) :
    ∃ w, ElementFollows b i 2 (.decimal true f' e' m') (.decimal (.value v))
      (encodeElement b p (.decimal true (f.assign decimalKind (.value v)) e m)) w := by
  obtain ⟨range, safe_exp, safe_mnt⟩ := safe
  have loaded := loaded_assigned ⟨f, e, m⟩ (.value v)
  have shape := encode_individ b p ⟨f.assign decimalKind (.value v), e, m⟩
  simp only [loaded] at shape
  have went : (fastEncodeInt b p (e.assign intKind (.value v.exp))).ok = true := by
    by_contra failed
    rw [shape, if_pos (by rw [Bool.eq_false_iff.mpr failed]; rfl)] at ok
    cases ok
  have present : (fastEncodeInt b p (e.assign intKind (.value v.exp))).field.stateEmpty = false := by
    rw [encode_int_state went]
    exact Bool.and_false _
  rw [if_neg (by rw [went]; exact Bool.false_ne_true), present, if_neg Bool.false_ne_true] at shape
  obtain ⟨w, first⟩ := field_follows int_laws (int_supported e) exponent (s := .value v.exp) safe_exp hv
    (writing.free (by omega)) went
  obtain ⟨behind, before⟩ := moved_map writing (by omega) first.pmap
  rw [shape] at ok
  obtain ⟨w', second⟩ := field_follows int_laws (int_supported m) mantissa (s := .value v.mnt) safe_mnt first.appends.valid
    (behind.free inside) ok
  obtain ⟨behind', before'⟩ := moved_map behind inside second.pmap
  simp only [encodeElement, shape]
  refine ⟨w ++ w', first.appends.trans second.appends, fun {B rest P} hB hu cursor same' => ?_⟩
  rw [List.append_assoc] at hu
  have bit := (same' (i + 1) (by omega)).trans (before' (i + 1) (by omega))
  obtain ⟨g, decoded, tracks, shown⟩ := first.decodes hB hu (bit_found behind cursor bit)
  obtain ⟨valid, unread⟩ := unread_advance hB hu
  have moved : P.next.pmapBit = ((i + 1 : Nat) : Int) := next_bit cursor
  obtain ⟨g', decoded', tracks', shown'⟩ := second.decodes valid unread
    (bit_found behind' moved (same' (i + 2) (Nat.le_refl _)))
  have decoded : fastDecodeInt B P e' = ⟨.ok, B.bufferAdvance w.length, P.next, g⟩ := decoded
  have decoded' : fastDecodeInt (B.bufferAdvance w.length) P.next m' =
      ⟨.ok, (B.bufferAdvance w.length).bufferAdvance w'.length, P.next.next, g'⟩ := decoded'
  have assigned : g.stateEmpty = false := by
    rw [Field.stateEmpty, shown.1]
    rfl
  have exp : g.value = v.exp := shown.2
  have mnt : g'.value = v.mnt := shown'.2
  have result : fastDecodeDecimalIndivid B P ⟨f', e', m'⟩ =
      ⟨.ok, (B.bufferAdvance w.length).bufferAdvance w'.length, P.next.next,
        ⟨{ f' with state := .assigned, value := v }, g, g'⟩⟩ := by
    have reads : ReadsMantissa (fastDecodeInt B P e') := by
      rw [decoded]
      exact ⟨rfl, assigned, by rw [exp]; exact range⟩
    rw [fastDecodeDecimalIndivid, reads.eq, decoded, decoded', assignDecimal]
    simp only [ne_eq, not_true_eq_false, if_false, exp, mnt]
  simp only [decodeElement, result]
  exact ⟨trivial, ⟨rfl, rfl⟩, .individ same (first.kept.presence.trans presence) tracks tracks'⟩

theorem assign_consults {K : Kind α} (f : Field α) (s : Setting α) : (f.assign K s).consults K = f.consults K := by
  cases s <;> rfl

theorem copy_consults {K : Kind α} {f : Field α} (copy : f.op = .copy) : f.consults K = true := by
  rw [Field.consults, copy]
  rfl

/-- The bits of an assigned decimal. -/
theorem individ_bits {f : Field Decimal} {e e' m m' : Field I64} (presence : e.presence = f.presence)
    (exponent : Tracks intCodec e e') (mantissa : Tracks intCodec m m') {s : Setting Decimal}
    (safe : (⟨f, e, m⟩ : DecimalFields).Safe s) :
    (⟨f.assign decimalKind s, e, m⟩ : DecimalFields).bitsUsed = match s with
      | .null => 1
      | .value _ => 2 := by
  have looks : e.consults intKind = true := tracks_consults exponent fun _ => rfl
  have looks' : m.consults intKind = true := tracks_consults mantissa fun _ => rfl
  have loaded := loaded_assigned ⟨f, e, m⟩ s
  simp only [DecimalFields.bitsUsed, looks, looks', loaded]
  cases s with
  | null =>
    have optional : (e.assign intKind .null).isMandatory = false := by
      rw [show (e.assign intKind .null).isMandatory = e.isMandatory from rfl, Field.isMandatory, presence]
      exact safe
    have null : (e.assign intKind .null).isNull = true := by
      rw [Field.isNull, optional]
      rfl
    simp only [null]
    rfl
  | value v =>
    have present : (e.assign intKind (.value v.exp)).isNull = false := Bool.and_false _
    simp only [present]
    rfl

/-- **One message of a field of any type.** -/
theorem element_follows {fe fd : ElementField} (track : ElementsTrack fe fd) {s : FieldSetting} (safe : fe.Safe s)
    (hv : b.Valid) (writing : Writing p i) (inside : i + (fe.assign s).bitsUsed < bits)
    (ok : (encodeElement b p (fe.assign s)).ok = true) :
    ∃ w, ElementFollows b i (fe.assign s).bitsUsed fd s (encodeElement b p (fe.assign s)) w := by
  cases track with
  | @int fe fd tracks =>
    cases s with
    | int s =>
      have looks : fe.consults intKind = true := tracks_consults tracks fun _ => rfl
      have one : ((ElementField.int fe).assign (.int s)).bitsUsed = 1 := by
        simp only [ElementField.assign, ElementField.bitsUsed, assign_consults, looks]
        rfl
      rw [one] at inside ⊢
      exact of_follows int_laws .int .int (int_supported fe) tracks safe rfl (fun _ _ _ => rfl) (fun _ _ _ => rfl)
        (fun _ => .int) id hv writing inside ok
    | _ => exact safe.elim
  | @uint fe fd tracks =>
    cases s with
    | uint s =>
      have looks : fe.consults uintKind = true := tracks_consults tracks fun _ => rfl
      have one : ((ElementField.uint fe).assign (.uint s)).bitsUsed = 1 := by
        simp only [ElementField.assign, ElementField.bitsUsed, assign_consults, looks]
        rfl
      rw [one] at inside ⊢
      exact of_follows uint_laws .uint .uint ⟨fun _ => ⟨_, rfl⟩, fun _ => rfl⟩ tracks safe rfl (fun _ _ _ => rfl)
        (fun _ _ _ => rfl) (fun _ => .uint) id hv writing inside ok
    | _ => exact safe.elim
  | @string fe fd copy tracks =>
    cases s with
    | string s =>
      have one : ((ElementField.string false fe).assign (.string s)).bitsUsed = 1 := by
        simp only [ElementField.assign, ElementField.bitsUsed]
        rw [copy_consults (by cases s <;> exact copy)]
        rfl
      rw [one] at inside ⊢
      exact of_follows ascii_laws (.string false) (.string false)
        ⟨fun incr => absurd (copy.symm.trans incr) (by decide), fun delta => absurd (copy.symm.trans delta) (by decide)⟩
        tracks safe rfl (fun _ _ _ => rfl) (fun _ _ _ => rfl) (fun op => .string (op.trans copy)) id hv writing inside ok
    | _ => exact safe.elim
  | @decimal fe fd e m e' m' copy tracks =>
    cases s with
    | decimal s =>
      have one : ((ElementField.decimal false fe e m).assign (.decimal s)).bitsUsed = 1 := by
        simp only [ElementField.assign, ElementField.bitsUsed]
        rw [copy_consults (by cases s <;> exact copy)]
        rfl
      rw [one] at inside ⊢
      exact of_follows decimal_laws (.decimal false · e m) (.decimal false · e' m')
        ⟨fun incr => absurd (copy.symm.trans incr) (by decide), fun delta => absurd (copy.symm.trans delta) (by decide)⟩
        tracks safe rfl (fun _ _ _ => rfl) (fun _ _ _ => rfl) (fun op => .decimal (op.trans copy)) id hv writing inside ok
    | _ => exact safe.elim
  | @individ fe fd e m e' m' same presence exponent mantissa =>
    cases s with
    | decimal s =>
      have used := individ_bits presence exponent mantissa (s := s) safe
      cases s with
      | null =>
        have used : ((ElementField.decimal true fe e m).assign (.decimal .null)).bitsUsed = 1 := used
        rw [used] at inside ⊢
        exact individ_null same presence exponent mantissa safe hv writing inside ok
      | value v =>
        have used : ((ElementField.decimal true fe e m).assign (.decimal (.value v))).bitsUsed = 2 := used
        rw [used] at inside ⊢
        exact individ_value same presence exponent mantissa safe hv writing inside ok
    | _ => exact safe.elim

end Elements

/-! ## The run -/

/-- A run of messages with the field: each that is encoded is decoded to the value the application set,
whether it was put on the wire or left off. The decoder is given the bytes of the field and a map with
its bits. -/
def Reconstructs : ElementField → ElementField → List FieldSetting → Prop
  | _, _, [] => True
  | fe, fd, s :: ss =>
    ∀ {b : Buffer} {p : Pmap} {i : Nat} {w : List UInt8} {B : Buffer} {rest : List UInt8} {P : Pmap},
      b.Valid → Writing p i → i + (fe.assign s).bitsUsed < bits → (encodeElement b p (fe.assign s)).ok = true →
      b.Appends (encodeElement b p (fe.assign s)).buffer w → B.Valid → B.unread = w ++ rest → P.pmapBit = i →
      (∀ j ≤ i + (fe.assign s).bitsUsed, P.bitAt j = (encodeElement b p (fe.assign s)).pmap.bitAt j) →
      (decodeElement B P fd).ret = .ok ∧ (decodeElement B P fd).field.Displays s ∧
        Reconstructs (encodeElement b p (fe.assign s)).field (decodeElement B P fd).field ss

/-- Every setting of the run is safe, as long as the ones before it were encoded. -/
def SafeRun : ElementField → List FieldSetting → Prop
  | _, [] => True
  | fe, s :: ss => fe.Safe s ∧ ∀ {b : Buffer} {p : Pmap}, (encodeElement b p (fe.assign s)).ok = true →
      SafeRun (encodeElement b p (fe.assign s)).field ss

theorem run_reconstructs {fe fd : ElementField} (track : ElementsTrack fe fd) (ss : List FieldSetting)
    (safe : SafeRun fe ss) : Reconstructs fe fd ss := by
  induction ss generalizing fe fd with
  | nil => trivial
  | cons s ss ih =>
    intro b p i w B rest P hv writing inside ok appends hB hu cursor same
    obtain ⟨w', follows⟩ := element_follows track safe.1 hv writing inside ok
    obtain rfl : w = w' := List.append_cancel_left (appends.unread.symm.trans follows.appends.unread)
    obtain ⟨decoded, shown, track'⟩ := follows.decodes hB hu cursor same
    exact ⟨decoded, shown, ih track' (safe.2 ok)⟩

/-- The operators that leave a value off the wire, for the types the encoder has them for. -/
def ElementNode.Remembers : ElementNode → Prop
  | .int n => n.op = .copy ∨ n.op = .incr
  | .uint n => n.op = .copy ∨ n.op = .incr
  | .string false n => n.op = .copy ∧ (ElementNode.string false n).fits
  | .decimal n => n.op = .copy
  | .individ _ _ e m => (e.op = .copy ∨ e.op = .incr) ∧ (m.op = .copy ∨ m.op = .incr)
  | _ => False

theorem fresh_tracks {α : Type} {C : Codec α} (n : Node α) (zero : α) (op : n.op = .copy ∨ n.op = .incr)
    (stored : C.Stored (n.prop.getD zero)) : Tracks C (n.fieldInit zero) (n.fieldInit zero) :=
  ⟨⟨rfl, rfl, rfl, rfl⟩, op, stored, stored, .inl ⟨rfl, rfl, rfl⟩⟩

/-- Two freshly parsed copies of a field. -/
theorem fresh_track {n : ElementNode} (h : n.Remembers) : ElementsTrack (elementInit n) (elementInit n) := by
  cases n with
  | int n => exact .int (fresh_tracks n 0 h trivial)
  | uint n => exact .uint (fresh_tracks n 0 h trivial)
  | string unicode n =>
    cases unicode with
    | true => exact h.elim
    | false => exact .string h.1 (fresh_tracks _ _ (.inl h.1) (string_stored h.2))
  | decimal n => exact .decimal h (fresh_tracks _ _ (.inl h) trivial)
  | individ name presence e m =>
    exact .individ rfl rfl (fresh_tracks ({ e with presence := presence } : Node I64) 0 h.1 trivial)
      (fresh_tracks m 0 h.2 trivial)
  | vector n => exact h.elim
  | nested name => exact h.elim

/-- **What is left off the wire is reconstructed** in every run that never leaves off the first value of
a field, unless it is the initial value of a copy field, and puts only values that fit the wire. -/
theorem omitted_reconstructed {n : ElementNode} (h : n.Remembers) (ss : List FieldSetting)
    (safe : SafeRun (elementInit n) ss) : Reconstructs (elementInit n) (elementInit n) ss :=
  run_reconstructs (fresh_track h) ss safe

/-- A counter, assigned from the first message on: five, six, which is left off, and five again. -/
def counter : ElementNode := .int ⟨"Counter", .mandatory, .incr, none⟩

def counts : List FieldSetting := [.int (.value 5), .int (.value 6), .int (.value 5)]

theorem counts_safe : SafeRun (elementInit counter) counts := by
  have five : FitsInt 5 := ⟨by decide, by decide⟩
  refine ⟨five, fun _ => ⟨fun undefined => ?_, fun _ => ⟨five, fun _ => trivial⟩⟩⟩
  cases undefined

theorem counter_remembers : counter.Remembers := Or.inr rfl

theorem counts_reconstructed : Reconstructs (elementInit counter) (elementInit counter) counts :=
  omitted_reconstructed counter_remembers counts counts_safe

/-- A price, assigned zero in the first message. -/
def zeroPrice : ElementField := (elementInit (.int ⟨"Price", .mandatory, .copy, none⟩)).assign (.int (.value 0))

/-- The price is left off the wire, and the receiver refuses the message. -/
theorem first_zero_refused :
    let r := encodeElement (.bufferNew 16) initialPmap zeroPrice
    r.ok = true ∧ r.buffer = .bufferNew 16 ∧ r.pmap.pmapIsSet = false ∧
      (decodeElement (.bufferNew 16) initialPmap (elementInit (.int ⟨"Price", .mandatory, .copy, none⟩))).ret = .garbled ∧
      ¬Reconstructs (elementInit (.int ⟨"Price", .mandatory, .copy, none⟩))
        (elementInit (.int ⟨"Price", .mandatory, .copy, none⟩)) [.int (.value 0)] := by
  refine ⟨by decide +kernel, by decide +kernel, by decide +kernel, by decide +kernel, fun h => ?_⟩
  have valid : (bufferNew 16).Valid := ⟨Nat.le_refl _, Nat.zero_le _⟩
  have run := h (w := []) (P := initialPmap) valid initial_writing (by decide) rfl valid.appends_nil valid rfl rfl
    fun _ _ => rfl
  exact absurd run.1 (by decide +kernel)

end Libtrading.Fast
