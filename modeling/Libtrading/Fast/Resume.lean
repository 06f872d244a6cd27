import Libtrading.Fast.Calls
import Libtrading.Stream.Resumable

/-!
# `fast_message_decode` over a stream

The calls of `fast_message_decode` make a reader of the byte stream, in the
sense of `Stream.Reader`: what is received goes behind the unread bytes of
`rx_buffer`, and a call that ends in `FAST_MSG_STATE_PARTIAL` waits. For
templates without sequences a call is stable unless it runs out of bytes in
the mantissa of a decimal with individual operators whose exponent moved, and
`run_drains` turns that into independence of the cut.
-/

namespace Libtrading.Fast
set_option autoImplicit false
open Buffer Libtrading.Stream

/-! ## Fields of a message -/

namespace FastField

/-- Everything but a sequence. -/
def flat : FastField → Bool
  | .elem _ => true
  | .sequence _ => false

end FastField

/-- No template field is a sequence. -/
def FlatFields (fields : List FastField) : Prop := ∀ f ∈ fields, f.flat = true

/-- The field loop runs out of bytes in a mantissa behind an exponent that moved. -/
def cutsMantissa : Nat → Buffer → Pmap → Nat → List FastField → Bool
  | 0, _, _, _, _ => false
  | n + 1, b, p, decoded, fields =>
    match fields[decoded]? with
    | some (.elem f) =>
      let r := decodeElement b p f
      splitsElement b p f ||
        (r.ret == .ok && cutsMantissa n r.buffer r.pmap (decoded + 1) (fields.set decoded (.elem r.field)))
    | _ => false

theorem flat_regular {fields : List FastField} (flat : FlatFields fields) : RegularFields fields := by
  intro f hf
  cases f with
  | elem f => trivial
  | sequence s => exact nomatch flat _ hf

theorem flat_fields_set {fields : List FastField} (flat : FlatFields fields) (i : Nat) (f : ElementField) :
    FlatFields (fields.set i (.elem f)) := by
  intro g hg
  obtain hg | rfl := List.mem_or_eq_of_mem_set hg
  · exact flat g hg
  · rfl

theorem flat_fields_get {fields : List FastField} (flat : FlatFields fields) {i : Nat} {f : FastField}
    (h : fields[i]? = some f) : ∃ e, f = .elem e := by
  cases f with
  | elem e => exact ⟨e, rfl⟩
  | sequence s => exact nomatch flat _ (List.mem_of_getElem? h)
/-- Without sequences, a mantissa is the only place where a field cannot be decoded again. -/
theorem cuts_field_flat (n : Nat) {decoded : Nat} {b : Buffer} {p : Pmap} {fields : List FastField}
    (flat : FlatFields fields) : cutsField n b p decoded fields = cutsMantissa n b p decoded fields := by
  induction n generalizing b p decoded fields with
  | zero => rfl
  | succ n ih =>
    cases hf : fields[decoded]? with
    | none => simp only [cutsField, cutsMantissa, hf]
    | some f =>
      obtain ⟨f, rfl⟩ := flat_fields_get flat hf
      simp only [cutsField, cutsMantissa, hf, splitsField, decodeFastField]
      rw [ih (flat_fields_set flat decoded _)]

theorem flat_field_decoded (b : Buffer) (p : Pmap) (f : FastField) (h : f.flat = true) :
    (decodeFastField b p f).field.flat = true := by
  cases f with
  | elem f => rfl
  | sequence s => exact nomatch h

/-! ## The call -/

namespace Session

/-- A session whose templates have no sequences. -/
structure Flat (s : Session) : Prop where
  valid : s.rxBuffer.Valid
  flat : ∀ m ∈ s.rxMessages, FlatFields m.fields

theorem Flat.receive {s : Session} (h : s.Flat) (x : List UInt8) : (s.receive x).Flat :=
  ⟨h.valid.receive x, h.flat⟩

theorem Flat.regular {s : Session} (h : s.Flat) : s.Regular := ⟨h.valid, fun m hm => flat_regular (h.flat m hm)⟩

/-- The call runs out of bytes in a mantissa behind an exponent that moved. -/
def cutsMantissa (s : Session) : Bool :=
  let t := s.decodeHeader
  match t.ret, t.session.rxMessage.bind (t.session.rxMessages[·]?) with
  | .ok, some m =>
    Fast.cutsMantissa (m.fields.length - m.decoded) t.session.rxBuffer t.session.pmap m.decoded m.fields
  | _, _ => false

end Session

section Call
variable {s : Session}

theorem decode_flat (hs : s.Flat) : s.fastMessageDecode.session.Flat :=
  ⟨(decode_regular hs.regular).valid, decode_keep flat_field_decoded hs.flat⟩

theorem session_cuts_field (hs : s.Flat) : s.cutsField = s.cutsMantissa := by
  have templates := stage_header.templates s
  unfold Session.cutsField Session.cutsMantissa
  simp only
  generalize hm : s.decodeHeader.session.rxMessage.bind (s.decodeHeader.session.rxMessages[·]?) = template
  cases s.decodeHeader.ret with
  | ok =>
    cases template with
    | none => rfl
    | some m =>
      obtain ⟨i, _, hi⟩ := Option.bind_eq_some_iff.mp hm
      rw [templates] at hi
      exact cuts_field_flat _ (hs.flat m (List.mem_of_getElem? hi))
  | _ => rfl

end Call

/-! ## The stream -/

/-- `fast_message_decode` as a reader of the byte stream, for templates without sequences. -/
def decoder : Reader { s : Session // s.Flat } UInt8 Outcome where
  feed s x := ⟨s.1.receive x, s.2.receive x⟩
  call s := (s.1.fastMessageDecode.outcome, ⟨s.1.fastMessageDecode.session, decode_flat s.2⟩)

theorem decoder_feed_laws : decoder.FeedLaws where
  nil s := Subtype.ext s.1.receive_nothing
  append s x y := Subtype.ext (s.2.regular.receive_receive x y)

theorem decoder_stable {s : { s : Session // s.Flat }} (whole : s.1.cutsMantissa = false) :
    decoder.StableAt s where
  emit {o s'} h x := by
    obtain ⟨ho, rfl⟩ := Prod.mk.inj h
    have later := decode_receive s.2.regular (outcome_some ho) x
    refine Prod.ext ?_ (Subtype.ext ?_)
    · simp only [decoder, later]
      exact ho
    · simp only [decoder, later]
      rfl
  wait {s'} h x := by
    obtain ⟨ho, rfl⟩ := Prod.mk.inj h
    have again := decode_again s.2.regular ((session_cuts_field s.2).trans whole) (outcome_none.mp ho) x
    exact Prod.ext (by simp only [decoder, again]) (Subtype.ext (by simp only [decoder, again]))

/-- **Decoding does not depend on how the bytes arrive.** Let a session with templates without
sequences drain to `os` when the whole stream is in its buffer. Over every cut of the stream into
received chunks, with a call after each, in which no call runs out of bytes in the mantissa of a
decimal behind an exponent that moved, the outcomes followed by those of draining the rest are `os`,
and the session ends in the same state. -/
theorem decode_any_cut (s : { s : Session // s.Flat }) (xs : List (List UInt8)) (os : List Outcome)
    (e : { s : Session // s.Flat }) (whole : decoder.Drains (decoder.feed s xs.flatten) os e)
    (cuts : ∀ d ∈ decoder.callSites s xs, d.1.cutsMantissa = false) :
    ∃ rest, decoder.Drains (decoder.run s xs).2 rest e ∧ (decoder.run s xs).1 ++ rest = os := by
  obtain ⟨rest, ho, hd⟩ :=
    Reader.run_drains decoder_feed_laws xs s e os whole fun d hd => decoder_stable (cuts d hd)
  exact ⟨rest, hd, ho.symm⟩

/-- A sub-field with nothing decoded yet. -/
def subField (name : String) (op : Op) : Field I64 :=
  ⟨name, .mandatory, op, .undefined, .undefined, false, 0, 0, 0⟩

/-- A session with one template: a price whose exponent has the operator delta. -/
def priceSession : { s : Session // s.Flat } where
  val :=
    { lastTid := 0, rxBuffer := bufferNew 0, nrMessages := 1, rxMessage := none
      rxMessages := [⟨"Price", 1, false, 0, [.elem (.decimal true
        ⟨"Px", .mandatory, .none, .undefined, .undefined, false, ⟨0, 0⟩, ⟨0, 0⟩, ⟨0, 0⟩⟩
        (subField "exponent" .delta) (subField "mantissa" .none))]⟩]
      preamble := ⟨false, 0, []⟩, pmap := Pmap.empty }
  property := ⟨⟨by decide, by decide⟩, by simp [FlatFields, FastField.flat]⟩

/-- The decimals of a returned message. -/
def Outcome.prices : Outcome → List Decimal
  | .message m => m.fields.filterMap fun f => match f with
    | .elem (.decimal _ f _ _) => some f.value
    | _ => none
  | .refused _ => []

theorem decode_price_cut :
    ∃ rest, decoder.Drains (decoder.run priceSession [[0xC0], [0x81], [0x81, 0x01, 0x81]]).2 rest
        (decoder.run priceSession [[0xC0, 0x81, 0x81, 0x01, 0x81], []]).2 ∧
      (decoder.run priceSession [[0xC0], [0x81], [0x81, 0x01, 0x81]]).1 ++ rest =
        (decoder.run priceSession [[0xC0, 0x81, 0x81, 0x01, 0x81]]).1 :=
  decode_any_cut priceSession _ _ _ (.emit rfl (.wait rfl)) (by decide)

/-- Cut in the mantissa, the delta of the exponent is added twice. -/
theorem decode_price_split :
    (decoder.run priceSession [[0xC0, 0x81, 0x81, 0x01, 0x81]]).1.flatMap Outcome.prices = [⟨1, 129⟩] ∧
      (decoder.run priceSession [[0xC0, 0x81, 0x81, 0x01], [0x81]]).1.flatMap Outcome.prices = [⟨2, 129⟩] := by
  decide

end Libtrading.Fast
