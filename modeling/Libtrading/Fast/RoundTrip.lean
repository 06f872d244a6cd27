import Libtrading.Fast.Codecs
import Libtrading.Fast.PresenceMap
import Libtrading.Fast.Resume
import Libtrading.Fast.Template

/-!
# Whole messages, whole runs

`Sender` is the encoding side: the messages of `fast_parse_template` and the
two transmit buffers of the session. Every send sets the fields, resets the
buffers as `fast_session_send` does and runs `fast_message_encode`; the
receiver decodes the two buffers one behind the other. `InStep` is what holds
between the two sides after any number of messages.
-/

namespace Libtrading.Fast
set_option autoImplicit false
open Buffer Pmap

/-- What the application does to one field. -/
inductive FieldSetting where
  | int (s : Setting I64)
  | uint (s : Setting U64)
  | string (s : Setting Bytes)
  | decimal (s : Setting Decimal)
  deriving DecidableEq, Repr

namespace ElementField

/-- The setting, made. -/
def set : ElementField → FieldSetting → ElementField
  | .int f, .int s => .int (f.set intKind s)
  | .uint f, .uint s => .uint (f.set uintKind s)
  | .string false f, .string s => .string false (f.set asciiKind s)
  | .decimal false f e m, .decimal s => .decimal false (f.set decimalKind s) e m
  | f, _ => f

/-- The setting is one for the field's type, and the field allows it. -/
def Allows : ElementField → FieldSetting → Prop
  | .int f, .int s => Allowed intCodec f s
  | .uint f, .uint s => Allowed uintCodec f s
  | .string false f, .string s => Allowed asciiCodec f s
  | .decimal false f _ _, .decimal s => Allowed decimalCodec f s
  | _, _ => False

/-- What the application finds in the field. -/
def Shows : ElementField → FieldSetting → Prop
  | .int f, .int s => Fast.Shows intCodec f s
  | .uint f, .uint s => Fast.Shows uintCodec f s
  | .string false f, .string s => Fast.Shows asciiCodec f s
  | .decimal false f _ _, .decimal s => Fast.Shows decimalCodec f s
  | _, _ => False

/-- A value that goes on the wire fits it. -/
def Fits : ElementField → Prop
  | .int f => ∀ p q g, encodeSwitch intCoder p f = ⟨.transfer, q, g⟩ → intCodec.Sendable g
  | .uint f => ∀ p q g, encodeSwitch uintCoder p f = ⟨.transfer, q, g⟩ → uintCodec.Sendable g
  | .string _ f => ∀ p q g, encodeSwitch stringCoder p f = ⟨.transfer, q, g⟩ → asciiCodec.Sendable g
  | .decimal _ f _ _ => ∀ p q g, encodeSwitch decimalCoder p f = ⟨.transfer, q, g⟩ → decimalCodec.Sendable g
  | _ => True

/-- The field moves the cursor of the presence map. -/
def takesBit : ElementField → Bool
  | .int f => f.takesBit
  | .uint f => f.takesBit
  | .string _ f => f.takesBit
  | .decimal _ f _ _ => f.takesBit
  | _ => false

end ElementField

/-- A field of the encoder and its counterpart of the decoder. -/
inductive ElementsAgree : ElementField → ElementField → Prop
  | int {fe fd} (supported : Supported intCoder fe) (agrees : Agrees intCodec fe fd) :
    ElementsAgree (.int fe) (.int fd)
  | uint {fe fd} (supported : Supported uintCoder fe) (agrees : Agrees uintCodec fe fd) :
    ElementsAgree (.uint fe) (.uint fd)
  | string {fe fd} (supported : Supported stringCoder fe) (agrees : Agrees asciiCodec fe fd) :
    ElementsAgree (.string false fe) (.string false fd)
  | decimal {fe fd e m e' m'} (supported : Supported decimalCoder fe) (agrees : Agrees decimalCodec fe fd) :
    ElementsAgree (.decimal false fe e m) (.decimal false fd e' m')

/-- The cursor behind a field. -/
def ElementField.step (f : ElementField) (p : Pmap) : Pmap := if f.takesBit then p.next else p

/-- `RoundTrip`, by type. -/
structure ElementRoundTrip (b : Buffer) (p : Pmap) (fe fd : ElementField) (s : FieldSetting)
    (r : Encoded ElementField) (w : List UInt8) : Prop where
  kept : r.field.takesBit = fe.takesBit
  appends : b.Appends r.buffer w
  pmap : r.pmap = fe.step p ∨ (fe.takesBit = true ∧ r.pmap = p.next.pmapSet)
  decodes : ∀ {B : Buffer} {rest : List UInt8} {P : Pmap}, B.Valid → B.unread = w ++ rest →
    (fe.takesBit = true → P.next.pmapIsSet = r.pmap.pmapIsSet) →
    ∃ fd', decodeElement B P fd = ⟨.ok, B.bufferAdvance w.length, fe.step P, fd'⟩ ∧
      ElementsAgree r.field fd' ∧ fd'.Shows s

theorem Field.SameTemplate.supported {α : Type} {E : Coder α} {f g : Field α} (same : f.SameTemplate g)
    (h : Supported E f) : Supported E g :=
  ⟨fun hop => h.incr (same.op.symm.trans hop), fun hop => h.delta (same.op.symm.trans hop)⟩

/-- A field type as the type of an element: its two embeddings, and what is said of an element. -/
theorem of_field {α : Type} {C : Codec α} (laws : C.Laws) (enc dec : Field α → ElementField) {fe fd : Field α}
    (supported : Supported C.coder fe) (agrees : Agrees C fe fd) {s : Setting α} {setting : FieldSetting}
    (bit : ∀ f, (enc f).takesBit = f.takesBit)
    (encodes : ∀ b p f, encodeElement b p (enc f) =
      ⟨(encodeField C.coder b p f).ok, (encodeField C.coder b p f).buffer, (encodeField C.coder b p f).pmap,
        enc (encodeField C.coder b p f).field⟩)
    (decodes : ∀ B P f, decodeElement B P (dec f) =
      ⟨(decodeField C.kind B P f).ret, (decodeField C.kind B P f).buffer, (decodeField C.kind B P f).pmap,
        dec (decodeField C.kind B P f).field⟩)
    (agree : ∀ {f g : Field α}, Supported C.coder f → Agrees C f g → ElementsAgree (enc f) (dec g))
    (shows : ∀ {f : Field α}, Shows C f s → (dec f).Shows setting)
    (allowed : Allowed C fe s) {b : Buffer} (hv : b.Valid) {p : Pmap}
    (fits : ∀ p q g, encodeSwitch C.coder p (fe.set C.kind s) = ⟨.transfer, q, g⟩ → C.Sendable g)
    (free : (enc fe).takesBit = true → FreeBit p)
    (ok : (encodeElement b p (enc (fe.set C.kind s))).ok = true) :
    ∃ w, ElementRoundTrip b p (enc fe) (dec fd) setting (encodeElement b p (enc (fe.set C.kind s))) w := by
  rw [encodes] at ok ⊢
  obtain ⟨w, kept, appends, pmap, reads⟩ :=
    field_round_trip laws agrees supported allowed hv (fun h => free ((bit fe).trans h)) (fits _ _ _) ok
  refine ⟨w, (bit _).trans (kept.takesBit.trans (bit fe).symm), appends, ?_, fun {B rest P} hB hu same => ?_⟩
  · simp only [ElementField.step, bit]
    exact pmap
  · rw [bit] at same
    obtain ⟨fd', decoded, agrees', shown⟩ := reads hB hu same
    refine ⟨dec fd', ?_, agree (kept.supported supported) agrees', shows shown⟩
    rw [decodes, decoded, ElementField.step, bit, Field.step]

theorem element_round_trip {fe fd : ElementField} (ag : ElementsAgree fe fd) {s : FieldSetting}
    (allowed : fe.Allows s) (fits : (fe.set s).Fits) {b : Buffer} (hv : b.Valid) {p : Pmap}
    (free : fe.takesBit = true → FreeBit p) (ok : (encodeElement b p (fe.set s)).ok = true) :
    ∃ w, ElementRoundTrip b p fe fd s (encodeElement b p (fe.set s)) w := by
  cases ag with
  | int supported agrees =>
    cases s with
    | int s =>
      exact of_field int_laws .int .int supported agrees (fun _ => rfl) (fun _ _ _ => rfl)
        (fun _ _ _ => rfl) .int id allowed hv fits free ok
    | _ => exact allowed.elim
  | uint supported agrees =>
    cases s with
    | uint s =>
      exact of_field uint_laws .uint .uint supported agrees (fun _ => rfl) (fun _ _ _ => rfl)
        (fun _ _ _ => rfl) .uint id allowed hv fits free ok
    | _ => exact allowed.elim
  | string supported agrees =>
    cases s with
    | string s =>
      exact of_field ascii_laws (.string false) (.string false) supported agrees (fun _ => rfl)
        (fun _ _ _ => rfl) (fun _ _ _ => rfl) .string id allowed hv fits free ok
    | _ => exact allowed.elim
  | @decimal fe fd e m e' m' supported agrees =>
    cases s with
    | decimal s =>
      exact of_field decimal_laws (.decimal false · e m) (.decimal false · e' m') supported agrees
        (fun _ => rfl) (fun _ _ _ => rfl) (fun _ _ _ => rfl) .decimal id allowed hv fits free ok
    | _ => exact allowed.elim

/-! ## The fields of a message -/

/-- The fields of the two sides, one by one. -/
inductive FieldsAgree : List FastField → List FastField → Prop
  | nil : FieldsAgree [] []
  | cons {fe fd fes fds} (head : ElementsAgree fe fd) (tail : FieldsAgree fes fds) :
    FieldsAgree (.elem fe :: fes) (.elem fd :: fds)

/-- The settings of a message, made. -/
def setFields : List FastField → List FieldSetting → List FastField
  | .elem f :: fs, s :: ss => .elem (f.set s) :: setFields fs ss
  | fs, _ => fs

/-- One setting for every field, which allows it. -/
def FieldsAllow : List FastField → List FieldSetting → Prop
  | [], [] => True
  | .elem f :: fs, s :: ss => f.Allows s ∧ FieldsAllow fs ss
  | _, _ => False

/-- The values that go on the wire fit it. -/
def FieldsFit : List FastField → Prop
  | [] => True
  | .elem f :: fs => f.Fits ∧ FieldsFit fs
  | .sequence _ :: fs => FieldsFit fs

/-- Every field shows its setting. -/
def FieldsShow : List FastField → List FieldSetting → Prop
  | [], [] => True
  | .elem f :: fs, s :: ss => f.Shows s ∧ FieldsShow fs ss
  | _, _ => False

/-- The presence bits of a message's fields. -/
def presenceBits : List FastField → Nat
  | [] => 0
  | .elem f :: fs => (if f.takesBit then 1 else 0) + presenceBits fs
  | .sequence _ :: fs => presenceBits fs

/-- The map `P` of the decoder shows the bits of `q`, with the cursor at `i`. -/
structure ReadingMap (P q : Pmap) (i : Nat) : Prop where
  cursor : P.pmapBit = i
  same : ∀ j < bits, P.bitAt j = q.bitAt j

/-- The fields of a message, encoded from a map whose cursor is at `i`. -/
structure FieldsRoundTrip (b : Buffer) (p : Pmap) (i : Nat) (fes fds : List FastField) (ss : List FieldSetting)
    (r : Encoded (List FastField)) (w : List UInt8) : Prop where
  bits : presenceBits r.field = presenceBits fes
  appends : b.Appends r.buffer w
  written : ∃ k, Writing r.pmap k
  before : ∀ j ≤ i, r.pmap.bitAt j = p.bitAt j
  decodes : ∀ (pre : List FastField) {B : Buffer} {rest : List UInt8} {P : Pmap}, B.Valid → B.unread = w ++ rest →
    ReadingMap P r.pmap i →
    ∃ fds' P', decodeFields fds.length B P pre.length (pre ++ fds) =
        ⟨.ok, B.bufferAdvance w.length, P', pre.length + fds.length, pre ++ fds'⟩ ∧
      P'.bytes = P.bytes ∧ FieldsAgree r.field fds' ∧ FieldsShow fds' ss

/-- The map after a field: the cursor, and the bits before it. -/
theorem element_map {p q : Pmap} {i : Nat} {f : ElementField} (writing : Writing p i)
    (room : i + (if f.takesBit then 1 else 0) < bits) (h : q = f.step p ∨ (f.takesBit = true ∧ q = p.next.pmapSet)) :
    Writing q (i + if f.takesBit then 1 else 0) ∧ ∀ j ≤ i, q.bitAt j = p.bitAt j := by
  have next := writing_next writing
  obtain rfl | ⟨bit, rfl⟩ := h
  · unfold ElementField.step
    split
    · exact ⟨next, fun j _ => rfl⟩
    · exact ⟨writing, fun j _ => rfl⟩
  · rw [bit] at room ⊢
    refine ⟨writing_set next room, fun j hj => ?_⟩
    rw [pmap_set_bit next.cursor next.size next.length room, decide_eq_false (by omega), Bool.or_false]
    rfl

theorem encode_fields_cons (b : Buffer) (p : Pmap) (f : ElementField) (fs : List FastField)
    (ok : (encodeFields b p (.elem f :: fs)).ok = true) :
    (encodeElement b p f).ok = true ∧
      (encodeFields (encodeElement b p f).buffer (encodeElement b p f).pmap fs).ok = true ∧
      encodeFields b p (.elem f :: fs) =
        { encodeFields (encodeElement b p f).buffer (encodeElement b p f).pmap fs with
          field := .elem (encodeElement b p f).field ::
            (encodeFields (encodeElement b p f).buffer (encodeElement b p f).pmap fs).field } := by
  cases h : (encodeElement b p f).ok with
  | false =>
    simp only [encodeFields, h, Bool.not_false, if_true] at ok
    cases ok
  | true =>
    simp only [encodeFields, h, Bool.not_true, Bool.false_eq_true, if_false] at ok ⊢
    exact ⟨trivial, ok, trivial⟩

/-- **A message's fields**: the decoder finds every setting, by induction on the fields. -/
theorem fields_round_trip {fes fds : List FastField} (ag : FieldsAgree fes fds) {ss : List FieldSetting}
    (allowed : FieldsAllow fes ss) (fits : FieldsFit (setFields fes ss)) {b : Buffer} (hv : b.Valid) {p : Pmap}
    {i : Nat} (writing : Writing p i) (room : i + presenceBits fes < bits)
    (ok : (encodeFields b p (setFields fes ss)).ok = true) :
    ∃ w, FieldsRoundTrip b p i fes fds ss (encodeFields b p (setFields fes ss)) w := by
  induction ag generalizing ss b p i with
  | nil =>
    cases ss with
    | nil =>
      refine ⟨[], rfl, hv.appends_nil, ⟨i, writing⟩, fun _ _ => rfl, fun pre B rest P hB hu same => ?_⟩
      exact ⟨[], P, by simp [decodeFields, bufferAdvance], rfl, .nil, trivial⟩
    | cons s ss => exact allowed.elim
  | @cons fe fd fes fds head tail ih =>
    cases ss with
    | nil => exact allowed.elim
    | cons s ss =>
      obtain ⟨allowed, alloweds⟩ := allowed
      obtain ⟨fits, fitss⟩ := fits
      simp only [setFields] at ok ⊢
      obtain ⟨done, oks, shape⟩ := encode_fields_cons _ _ _ _ ok
      have room : i + ((if fe.takesBit then 1 else 0) + presenceBits fes) < bits := room
      obtain ⟨w, first⟩ := element_round_trip head allowed fits hv
        (fun bit => writing.free (by rw [bit] at room; simp only [if_true] at room; omega)) done
      obtain ⟨writing', before'⟩ := element_map writing (by omega) first.pmap
      obtain ⟨w', rest⟩ := ih alloweds fitss first.appends.valid writing' (by omega) oks
      rw [shape]
      refine ⟨w ++ w', ?_, first.appends.trans rest.appends, rest.written, fun j hj => ?_,
        fun pre B tail P hB hu same => ?_⟩
      · simp only [presenceBits, first.kept, rest.bits]
      · exact (rest.before j (by omega)).trans (before' j hj)
      · rw [List.append_assoc] at hu
        have same' : fe.takesBit = true →
            P.next.pmapIsSet = (encodeElement b p (fe.set s)).pmap.pmapIsSet := by
          intro bit
          simp only [bit, if_true] at room writing'
          rw [next_is_set same.cursor, is_set_eq writing'.cursor, same.same _ (by omega)]
          exact rest.before _ (by rw [bit]; exact Nat.le_refl _)
        obtain ⟨fd', decoded, agrees, shows⟩ := first.decodes hB hu same'
        obtain ⟨valid, unread⟩ := unread_advance hB hu
        have cursor : (fe.step P).pmapBit = ((i + if fe.takesBit then 1 else 0 : Nat) : Int) := by
          unfold ElementField.step
          split
          · exact next_bit same.cursor
          · exact same.cursor
        have map : (fe.step P).bytes = P.bytes ∧ ∀ j, (fe.step P).bitAt j = P.bitAt j := by
          unfold ElementField.step
          split <;> exact ⟨rfl, fun _ => rfl⟩
        obtain ⟨fds', P', run, bytes, agree, show'⟩ := rest.decodes (pre ++ [.elem fd']) valid unread
          ⟨cursor, fun j hj => (map.2 j).trans (same.same j hj)⟩
        refine ⟨.elem fd' :: fds', P', ?_, bytes.trans map.1, .cons agrees agree, shows, show'⟩
        have at_cursor : (pre ++ .elem fd :: fds)[pre.length]? = some (.elem fd) := by simp
        have stored : (pre ++ .elem fd :: fds).set pre.length (.elem fd') = pre ++ [.elem fd'] ++ fds := by simp
        have field : decodeFastField B P (.elem fd) = ⟨(decodeElement B P fd).ret, (decodeElement B P fd).buffer,
            (decodeElement B P fd).pmap, .elem (decodeElement B P fd).field⟩ := rfl
        rw [decoded] at field
        rw [List.length_cons, decode_fields_ok at_cursor (by rw [field]), field, stored]
        simp only [List.length_append, List.length_singleton] at run
        rw [run, advance_advance, List.length_append, List.append_assoc, List.singleton_append, Nat.add_assoc,
          Nat.add_comm 1]

/-! ## The message -/

theorem encode_message_ok {m : Message} {pmapBuf msgBuf : Buffer} (ok : (fastMessageEncode m pmapBuf msgBuf).ok = true) :
    let t := transferUint msgBuf m.tid
    let r := encodeFields t.2 initialPmap m.fields
    t.1 = true ∧ r.ok = true ∧ trimmed r.pmap.bytes pmapMaxBytes ≤ pmapBuf.bufferRemaining ∧
      fastMessageEncode m pmapBuf msgBuf =
        ⟨true, putPmap r.pmap.bytes 0 (trimmed r.pmap.bytes pmapMaxBytes) pmapBuf, r.buffer,
          { m with fields := r.field }⟩ := by
  unfold fastMessageEncode at ok ⊢
  simp only at ok ⊢
  cases sent : (transferUint msgBuf m.tid).1 with
  | false =>
    rw [sent] at ok
    cases ok
  | true =>
    simp only [sent, Bool.not_true, Bool.false_eq_true, if_false] at ok ⊢
    cases fields : (encodeFields (transferUint msgBuf m.tid).2 initialPmap m.fields).ok with
    | false =>
      rw [fields] at ok
      cases ok
    | true =>
      simp only [fields, Bool.not_true, Bool.false_eq_true, if_false] at ok ⊢
      split
      · rename_i full
        rw [if_pos full] at ok
        cases ok
      · exact ⟨trivial, trivial, by omega, rfl⟩

theorem and_then_ok {first next : Session → Stage} {s s' : Session} (h : first s = ⟨.ok, s'⟩) :
    Stage.andThen first next s = next s' := by
  simp only [Stage.andThen, h, ne_eq, not_true_eq_false, if_false]

/-- A session between two messages. -/
structure Idle (s : Session) : Prop where
  preamble : s.preamble.nrBytes = 0
  pmap : s.pmap.isValid = false
  length : s.pmap.bytes.length = pmapMaxBytes
  message : s.rxMessage = none

/-- The header of a message: its presence map and its template id. -/
theorem header_reads {s : Session} (idle : Idle s) (hv : s.rxBuffer.Valid) {q : Pmap} {k i : Nat} {tid : U64}
    {w rest : List UInt8} (written : Writing q k) (first : q.bitAt 0 = true) (carries : Carries parseUint w tid)
    (found : fastGetMsg s.rxMessages tid = some i)
    (hu : s.rxBuffer.unread = wirePmap q.bytes 0 (trimmed q.bytes pmapMaxBytes) ++ (w ++ rest)) :
    ∃ P B, s.decodeHeader = ⟨.ok, { s with rxBuffer := B, pmap := P, rxMessage := some i }⟩ ∧
      B.Valid ∧ B.unread = rest ∧ P.bytes.length = pmapMaxBytes ∧ ReadingMap P q 0 := by
  obtain ⟨P, read, length, -, same⟩ := parse_put_pmap written first idle.length hv hu
  obtain ⟨valid, unread⟩ := unread_advance hv hu
  rw [length_wire_pmap] at valid unread
  obtain ⟨valid', unread'⟩ := unread_advance valid unread
  refine ⟨{ P with isValid := true, pmapBit := 0 }, _, ?_, valid', unread', length, rfl, same⟩
  have skipped : s.decodePreamble = ⟨.ok, s⟩ := preamble_passed fun h => h.1 idle.preamble
  let mapped : Session := { s with
    rxBuffer := s.rxBuffer.bufferAdvance (trimmed q.bytes pmapMaxBytes)
    pmap := { P with isValid := true, pmapBit := 0 } }
  have map : s.decodePmap = ⟨.ok, mapped⟩ := by rw [pmap_read idle.pmap (by rw [read]), read]
  have tidBit : ({ P with isValid := true, pmapBit := 0 } : Pmap).pmapIsSet = true :=
    (same 0 (by decide)).trans first
  have tidRead : mapped.readTid = .done tid _ := (if_pos tidBit).trans (carries valid unread)
  rw [Session.decodeHeader, and_then_ok skipped, and_then_ok map, tid_read (s := mapped) idle.message tidRead]
  simp only [Session.chooseTemplate, mapped, found]

/-- **One message.** -/
theorem message_round_trip {me md : Message} {ss : List FieldSetting} (ag : FieldsAgree me.fields md.fields)
    (allowed : FieldsAllow me.fields ss) (fits : FieldsFit (setFields me.fields ss))
    (range : me.tid.toNat < 2 ^ 31) (room : presenceBits me.fields ≤ 55) {pmapBuf msgBuf : Buffer}
    (hp : pmapBuf.Valid) (hm : msgBuf.Valid)
    (ok : (fastMessageEncode { me with fields := setFields me.fields ss } pmapBuf msgBuf).ok = true) :
    let r := fastMessageEncode { me with fields := setFields me.fields ss } pmapBuf msgBuf
    r.msg.tid = me.tid ∧ presenceBits r.msg.fields = presenceBits me.fields ∧
      ∃ wp wm, r.pmapBuf.unread = pmapBuf.unread ++ wp ∧ r.msgBuf.unread = msgBuf.unread ++ wm ∧
        ∀ {s : Session} {rest : List UInt8} {i : Nat}, Idle s → s.rxBuffer.Valid → s.rxBuffer.unread = wp ++ wm ++ rest →
          fastGetMsg s.rxMessages me.tid = some i → s.rxMessages[i]? = some md → md.decoded = 0 →
          ∃ m, s.fastMessageDecode.msg = some m ∧ m.tid = md.tid ∧ m.decoded = 0 ∧ FieldsShow m.fields ss ∧
            FieldsAgree r.msg.fields m.fields ∧ Idle s.fastMessageDecode.session ∧
            s.fastMessageDecode.session.rxMessages = s.rxMessages.set i m ∧
            s.fastMessageDecode.session.rxBuffer.Valid ∧ s.fastMessageDecode.session.rxBuffer.unread = rest := by
  obtain ⟨sent, fields, fit, shape⟩ := encode_message_ok ok
  simp only at sent fields fit shape
  have put : transferUint msgBuf me.tid = (true, (transferUint msgBuf me.tid).2) := Prod.ext sent rfl
  obtain ⟨wt, appended, carries⟩ := transfer_uint_carries hm (by omega) put
  obtain ⟨wf, ran⟩ := fields_round_trip ag allowed fits appended.valid initial_writing (by rw [bits, pmapMaxBytes]; omega) fields
  obtain ⟨k, written⟩ := ran.written
  have first := (ran.before 0 (Nat.le_refl _)).trans (by decide : initialPmap.bitAt 0 = true)
  simp only [shape]
  refine ⟨trivial, ran.bits, _, wt ++ wf, (put_pmap_appends hp fit).unread, (appended.trans ran.appends).unread,
    fun {s rest i} idle hv hu found slot start => ?_⟩
  rw [List.append_assoc, List.append_assoc] at hu
  obtain ⟨P, B, header, hB, unread, length, map⟩ := header_reads idle hv written first carries found hu
  obtain ⟨fds', P', run, bytes, agree, shows⟩ := ran.decodes [] hB unread map
  obtain ⟨valid, left⟩ := unread_advance hB unread
  simp only [List.length_nil, Nat.zero_add, List.nil_append] at run
  have call := decode_fields_of (s := s) (i := i) (m := md) (by rw [header]) (by rw [header]) (by rw [header]; exact slot)
  have loop : ({ s with rxBuffer := B, pmap := P, rxMessage := some i } : Session).messageFields md =
      ⟨.ok, B.bufferAdvance wf.length, P', md.fields.length, fds'⟩ := by
    rw [Session.messageFields, start, Nat.sub_zero]
    exact run
  rw [header] at call
  simp only at call
  rw [call, Session.decodeMessage, loop]
  exact ⟨_, rfl, rfl, rfl, shows, agree, ⟨idle.preamble, rfl, (congrArg List.length bytes).trans length, rfl⟩, rfl, valid, left⟩

/-! ## The run -/

/-- The sending side: a message for every template, and `tx_pmap_buffer` and `tx_message_buffer`. -/
structure Sender where
  messages : List Message
  pmapBuf : Buffer
  msgBuf : Buffer
  deriving DecidableEq, Repr

/-- One message of the application: the template's slot, and a setting for every field. -/
structure Send where
  template : Nat
  settings : List FieldSetting
  deriving DecidableEq, Repr

namespace Sender

/-- `fast_session_send` up to the system call: the bytes of the two buffers, or `none` where
`fast_message_encode` fails. -/
def send (snd : Sender) (x : Send) : Option (List UInt8 × Sender) :=
  match snd.messages[x.template]? with
  | none => none
  | some m =>
    let r := fastMessageEncode { m with fields := setFields m.fields x.settings }
      snd.pmapBuf.bufferReset snd.msgBuf.bufferReset
    if r.ok then
      some (r.pmapBuf.unread ++ r.msgBuf.unread, ⟨snd.messages.set x.template r.msg, r.pmapBuf, r.msgBuf⟩)
    else none

/-- The message is one of a template, with settings its fields allow and values that fit the wire. -/
def Accepts (snd : Sender) (x : Send) : Prop :=
  ∃ m, snd.messages[x.template]? = some m ∧ FieldsAllow m.fields x.settings ∧
    FieldsFit (setFields m.fields x.settings)

/-- Every message of the run is accepted, as long as the ones before it were encoded. -/
def AcceptsAll : Sender → List Send → Prop
  | _, [] => True
  | snd, x :: xs => snd.Accepts x ∧ ∀ bytes snd', snd.send x = some (bytes, snd') → AcceptsAll snd' xs

end Sender

/-- A session with other bytes in its receive buffer. -/
def Session.holding (s : Session) (b : Buffer) : Session := { s with rxBuffer := b }

/-- The run arrives: as long as messages are encoded, each is decoded, with the bytes behind it left
in the buffer, to a message of the same template id whose fields show what was set. -/
def Delivers : Sender → Session → List Send → Prop
  | _, _, [] => True
  | snd, s, x :: xs => ∀ bytes snd', snd.send x = some (bytes, snd') →
    ∀ (b : Buffer) (rest : List UInt8), b.Valid → b.unread = bytes ++ rest →
      ∃ m m', snd.messages[x.template]? = some m ∧ (s.holding b).fastMessageDecode.msg = some m' ∧
        m'.tid = m.tid ∧ FieldsShow m'.fields x.settings ∧
        (s.holding b).fastMessageDecode.session.rxBuffer.unread = rest ∧
        Delivers snd' (s.holding b).fastMessageDecode.session xs

/-- One slot of the two sides. -/
structure SlotAgrees (s : Session) (i : Nat) (me md : Message) : Prop where
  found : fastGetMsg s.rxMessages me.tid = some i
  tid : md.tid = me.tid
  range : me.tid.toNat < 2 ^ 31
  bits : presenceBits me.fields ≤ 55
  start : md.decoded = 0
  fields : FieldsAgree me.fields md.fields

/-- **What holds between the two sides** after any number of messages. -/
structure InStep (snd : Sender) (s : Session) : Prop where
  idle : Idle s
  slots : ∀ i me, snd.messages[i]? = some me → ∃ md, s.rxMessages[i]? = some md ∧ SlotAgrees s i me md

theorem reset_valid (b : Buffer) : b.bufferReset.Valid ∧ b.bufferReset.unread = [] :=
  ⟨⟨Nat.le_refl _, Nat.zero_le _⟩, rfl⟩

/-- Storing a message of the same template id does not change which slot an id finds. -/
theorem fast_get_msg_set {ms : List Message} {i : Nat} {m m' : Message} (hi : ms[i]? = some m) (tid : m'.tid = m.tid)
    (t : U64) : fastGetMsg (ms.set i m') t = fastGetMsg ms t := by
  have tids : (ms.set i m').map Message.tid = ms.map Message.tid := by
    apply List.ext_getElem? fun j => ?_
    rw [List.getElem?_map, List.getElem?_map, List.getElem?_set]
    by_cases h : i = j
    · subst h
      obtain ⟨inside, rfl⟩ := List.getElem?_eq_some_iff.mp hi
      simp [inside, tid]
    · simp [h]
  have byTid : ∀ l : List Message, fastGetMsg l t = (l.map Message.tid).findIdx? (· == narrowTid t) := by
    intro l
    rw [List.findIdx?_map]
    rfl
  rw [byTid, byTid, tids]

/-- One message leaves the two sides in step. -/
theorem send_delivers {snd snd' : Sender} {s : Session} (step : InStep snd s) {x : Send} {bytes : List UInt8}
    (accepts : snd.Accepts x) (sent : snd.send x = some (bytes, snd')) {b : Buffer} {rest : List UInt8}
    (hv : b.Valid) (hu : b.unread = bytes ++ rest) :
    (∃ m m', snd.messages[x.template]? = some m ∧ (s.holding b).fastMessageDecode.msg = some m' ∧
      m'.tid = m.tid ∧ FieldsShow m'.fields x.settings ∧
      (s.holding b).fastMessageDecode.session.rxBuffer.unread = rest) ∧
    InStep snd' (s.holding b).fastMessageDecode.session := by
  obtain ⟨me, slot, allowed, fits⟩ := accepts
  obtain ⟨md, slot', found, tid, range, bits, start, agree⟩ := step.slots _ _ slot
  unfold Sender.send at sent
  simp only [slot] at sent
  split at sent
  case isFalse => cases sent
  rename_i ok
  obtain ⟨rfl, rfl⟩ := Prod.mk.inj (Option.some.inj sent)
  obtain ⟨tid', bits', wp, wm, pmap, msg, decodes⟩ := message_round_trip agree allowed fits range bits
    (reset_valid snd.pmapBuf).1 (reset_valid snd.msgBuf).1 ok
  rw [pmap, msg, (reset_valid _).2, (reset_valid _).2, List.nil_append, List.nil_append] at hu
  have idle : Idle (s.holding b) := ⟨step.idle.preamble, step.idle.pmap, step.idle.length, step.idle.message⟩
  obtain ⟨m, returned, mtid, mstart, shows, agree', idle', stored, -, left⟩ :=
    decodes idle hv hu found slot' start
  refine ⟨⟨me, m, slot, returned, mtid.trans tid, shows, left⟩, idle', fun j me' hj => ?_⟩
  have lookup := fast_get_msg_set slot' mtid
  have inside : x.template < s.rxMessages.length := (List.getElem?_eq_some_iff.mp slot').1
  have inside' : x.template < snd.messages.length := (List.getElem?_eq_some_iff.mp slot).1
  have stored : (s.holding b).fastMessageDecode.session.rxMessages = s.rxMessages.set x.template m := stored
  simp only at hj
  by_cases h : x.template = j
  · subst h
    rw [List.getElem?_set_self inside'] at hj
    obtain rfl := Option.some.inj hj
    refine ⟨m, by rw [stored, List.getElem?_set_self inside], ?_, mtid.trans (tid.trans tid'.symm), by rw [tid']; exact range,
      by rw [bits']; exact bits, mstart, agree'⟩
    rw [stored, lookup, tid']
    exact found
  · rw [List.getElem?_set_ne h] at hj
    obtain ⟨md', slot'', found', same, range', bits'', start', agree''⟩ := step.slots _ _ hj
    refine ⟨md', by rw [stored, List.getElem?_set_ne h]; exact slot'', ?_, same, range', bits'', start', agree''⟩
    rw [stored, lookup]
    exact found'

theorem run_delivers {snd : Sender} {s : Session} (step : InStep snd s) (xs : List Send)
    (accepts : snd.AcceptsAll xs) : Delivers snd s xs := by
  induction xs generalizing snd s with
  | nil => trivial
  | cons x xs ih =>
    intro bytes snd' sent b rest hv hu
    obtain ⟨⟨m, m', slot, returned, tid, shows, left⟩, step'⟩ := send_delivers step accepts.1 sent hv hu
    exact ⟨m, m', slot, returned, tid, shows, left, ih step' (accepts.2 _ _ sent)⟩

/-! ## The start -/

/-- The type and operator are ones the encoder supports, and a string's value fits its array. -/
def ElementNode.Encodable : ElementNode → Prop
  | .int _ | .uint _ => True
  | .string false n => n.op ≠ .incr ∧ n.op ≠ .delta ∧ (ElementNode.string false n).fits
  | .decimal n => n.op ≠ .incr
  | _ => False

def FieldNode.Encodable : FieldNode → Prop
  | .elem n => n.Encodable
  | .sequence _ => False

/-- A set of templates both sides can load and the encoder can send. -/
structure Catalog (ts : List Template) : Prop where
  distinct : ts.Pairwise fun t t' => t.tid ≠ t'.tid
  positive : ∀ t ∈ ts, 0 < t.tid.toNat
  range : ∀ t ∈ ts, t.tid.toNat < 2 ^ 31
  encodable : ∀ t ∈ ts, ∀ n ∈ t.fields, n.Encodable
  bits : ∀ t ∈ ts, presenceBits (messageInit t).fields ≤ 55

/-- A freshly parsed encoder, with transmit buffers in any state. -/
def newSender (pmapBuf msgBuf : Buffer) (ts : List Template) : Sender := ⟨ts.map messageInit, pmapBuf, msgBuf⟩

/-- Two fresh copies of a field agree. -/
theorem fresh_agrees {α : Type} {C : Codec α} (n : Node α) (zero : α) (stored : C.Stored (n.prop.getD zero)) :
    Agrees C (n.fieldInit zero) (n.fieldInit zero) where
  template := ⟨rfl, rfl, rfl, rfl⟩
  stored := stored
  reset := stored
  known _ := .inl rfl
  base _ := rfl
  constant _ := nofun

theorem blank_stored : IsCString blankBytes := by
  have empty : cstr ([] ++ 0 :: List.replicate 255 0) = [] := cstr_append nofun
  have empty : cstr blankBytes = [] := empty
  exact ⟨List.length_replicate, by rw [empty]; decide⟩

theorem string_stored {n : Node Bytes} (fits : (ElementNode.string false n).fits) :
    IsCString ((({ n with value := n.value.map (strcpy blankBytes) } : Node Bytes).prop).getD blankBytes) := by
  obtain ⟨name, presence, op, value⟩ := n
  cases value with
  | none => cases op <;> exact blank_stored
  | some v =>
    cases op with
    | none => exact blank_stored
    | _ => exact strcpy_stored blank_stored (fits v rfl)

theorem fresh_element {n : ElementNode} (h : n.Encodable) : ElementsAgree (elementInit n) (elementInit n) := by
  cases n with
  | int n => exact .int ⟨fun _ => ⟨_, rfl⟩, fun _ => rfl⟩ (fresh_agrees n 0 trivial)
  | uint n => exact .uint ⟨fun _ => ⟨_, rfl⟩, fun _ => rfl⟩ (fresh_agrees n 0 trivial)
  | string unicode n =>
    cases unicode with
    | true => exact h.elim
    | false =>
      obtain ⟨incr, delta, fits⟩ := h
      exact .string ⟨fun hop => absurd hop incr, fun hop => absurd hop delta⟩ (fresh_agrees _ _ (string_stored fits))
  | decimal n => exact .decimal ⟨fun hop => absurd hop h, fun _ => rfl⟩ (fresh_agrees _ _ trivial)
  | vector n => exact h.elim
  | individ name presence e m => exact h.elim
  | nested name => exact h.elim

theorem fresh_fields {ns : List FieldNode} (h : ∀ n ∈ ns, n.Encodable) :
    FieldsAgree (ns.map fastFieldInit) (ns.map fastFieldInit) := by
  induction ns with
  | nil => exact .nil
  | cons n ns ih =>
    have head := h n (List.mem_cons_self ..)
    have tail := ih fun n hn => h n (List.mem_cons_of_mem _ hn)
    cases n with
    | elem n => exact .cons (fresh_element head) tail
    | sequence n => exact head.elim

/-- The `int` of `fast_get_msg` holds the id. -/
theorem narrow_tid {t : U64} (h : t.toNat < 2 ^ 31) : narrowTid t = t := by
  have small : (t.setWidth 32).toNat = t.toNat := by rw [BitVec.toNat_setWidth]; omega
  have positive : (t.setWidth 32).msb = false := by rw [BitVec.msb_eq_decide, small, decide_eq_false (by omega)]
  rw [narrowTid, BitVec.signExtend_eq_setWidth_of_msb_false positive]
  apply BitVec.eq_of_toNat_eq
  rw [BitVec.toNat_setWidth, small]
  omega

/-- Every template is found by its id. -/
theorem fresh_found {ts : List Template} (h : Catalog ts) {i : Nat} {t : Template} (hi : ts[i]? = some t)
    (empty : List Message) : fastGetMsg (ts.map messageInit ++ empty) t.tid = some i := by
  obtain ⟨inside, rfl⟩ := List.getElem?_eq_some_iff.mp hi
  have narrow := narrow_tid (h.range _ (List.getElem_mem inside))
  refine List.findIdx?_eq_some_iff_getElem.mpr ⟨by simp; omega, ?_, fun j hj => ?_⟩
  · rw [List.getElem_append_left (by simpa using inside), List.getElem_map, narrow]
    exact beq_self_eq_true _
  · rw [List.getElem_append_left (by simp; omega), List.getElem_map, narrow, beq_iff_eq]
    exact List.pairwise_iff_getElem.mp h.distinct j i (by omega) inside hj

theorem fresh_in_step {ts : List Template} (h : Catalog ts) (pmapBuf msgBuf : Buffer) :
    InStep (newSender pmapBuf msgBuf ts) (newSession 0 ts) where
  idle := ⟨rfl, rfl, rfl, rfl⟩
  slots i me hi := by
    simp only [newSender, List.getElem?_map, Option.map_eq_some_iff] at hi
    obtain ⟨t, ht, rfl⟩ := hi
    have mem := List.mem_of_getElem? ht
    have slot : (newSession 0 ts).rxMessages[i]? = some (messageInit t) := by
      have inside := (List.getElem?_eq_some_iff.mp ht).1
      simp only [newSession]
      rw [List.getElem?_append_left (by simpa using inside), List.getElem?_map, ht]
      rfl
    exact ⟨messageInit t, slot, fresh_found h ht _, rfl, h.range t mem, h.bits t mem, rfl,
      fresh_fields (h.encodable t mem)⟩

/-- **FAST round trip.** Whatever is sent through freshly parsed templates, with settings the fields
allow and values that fit the wire, comes out of `fast_message_decode` as it was set. -/
theorem encode_decode_run {ts : List Template} (h : Catalog ts) (pmapBuf msgBuf : Buffer) (xs : List Send)
    (accepts : (newSender pmapBuf msgBuf ts).AcceptsAll xs) :
    Delivers (newSender pmapBuf msgBuf ts) (newSession 0 ts) xs :=
  run_delivers (fresh_in_step h pmapBuf msgBuf) xs accepts

/-- What a transfer starts from is the field, `ASSIGNED`. -/
theorem switch_transfers {α : Type} {E : Coder α} {p q : Pmap} {f g : Field α}
    (h : encodeSwitch E p f = ⟨.transfer, q, g⟩) : g = { f with state := .assigned } := by
  have previous : ∀ {found omitted p}, switchPrevious found omitted p f = ⟨.transfer, q, g⟩ →
      g = { f with state := .assigned } := by
    intro found omitted p h
    unfold switchPrevious at h
    split at h
    · cases h
    · split at h
      · cases h; rfl
      · rename_i assigned
        split at h
        · cases h; rw [← assigned]
        · cases h
      · cases h
  have always : switchAlways p f = ⟨.transfer, q, g⟩ → g = { f with state := .assigned } := by
    intro h
    unfold switchAlways at h
    split at h <;> cases h
    rfl
  unfold encodeSwitch at h
  split at h
  · exact always h
  · exact previous h
  · split at h
    · exact previous h
    · cases h
    · cases h
  · split at h
    · exact always h
    · cases h
  · unfold switchDefault at h
    split at h
    · cases h
    · split at h <;> cases h
      rfl
  · unfold switchConstant at h
    split at h
    · cases h
    · split at h <;> cases h

theorem int_fits {f : Field I64} (h : FitsInt (intOnWire f)) : (ElementField.int f).Fits := by
  intro p q g switch
  rw [switch_transfers switch]
  exact h

theorem int_null_fits {f : Field I64} (hop : f.op ≠ .constant) (null : f.isNull = true) :
    (ElementField.int f).Fits := by
  intro p q g switch
  rw [switch_null ⟨fun _ => ⟨_, rfl⟩, fun _ => rfl⟩ hop null] at switch
  cases switch

/-- The template of an optional INT with the operator copy. -/
def copyTemplates : List Template := [⟨"Copy", 1, false, [.elem (.int ⟨"Int", .optional, .copy, none⟩)]⟩]

theorem copy_catalog : Catalog copyTemplates where
  distinct := by decide
  positive := by decide
  range := by decide
  encodable := by
    rintro t (_ | ⟨_, ⟨⟩⟩) n (_ | ⟨_, ⟨⟩⟩)
    trivial
  bits := by decide

/-- A number, the same number, which is left off the wire, and then `NULL`. -/
def copySends : List Send := [⟨0, [.int (.value (-1))]⟩, ⟨0, [.int (.value (-1))]⟩, ⟨0, [.int .null]⟩]

def copySender : Sender := newSender (.bufferNew 16) (.bufferNew 16) copyTemplates

theorem copy_accepts : copySender.AcceptsAll copySends := by
  refine ⟨⟨_, rfl, ⟨nofun, trivial⟩, int_fits ⟨by decide, by decide⟩, trivial⟩, fun bytes snd h => ?_⟩
  obtain rfl : snd = ((copySender.send ⟨0, [.int (.value (-1))]⟩).getD ([], copySender)).2 := by rw [h]; rfl
  refine ⟨⟨_, rfl, ⟨nofun, trivial⟩, int_fits ⟨by decide, by decide⟩, trivial⟩, fun bytes snd h' => ?_⟩
  obtain rfl : snd = ((Sender.send _ ⟨0, [.int (.value (-1))]⟩).getD ([], copySender)).2 := by rw [h']; rfl
  exact ⟨⟨_, rfl, ⟨rfl, trivial⟩, int_null_fits (by decide) rfl, trivial⟩, fun _ _ _ => trivial⟩

theorem encode_decode_copy : (copySender.send ⟨0, [.int (.value (-1))]⟩).isSome = true ∧
    Delivers copySender (newSession 0 copyTemplates) copySends :=
  ⟨rfl, encode_decode_run copy_catalog _ _ copySends copy_accepts⟩

end Libtrading.Fast
