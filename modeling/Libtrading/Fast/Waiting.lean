import Libtrading.Fast.InBounds
import Libtrading.Fast.Numbers

/-!
# Waiting for more

A call that returns `FAST_MSG_STATE_PARTIAL` leaves the item it was cut in to
be decoded over again, from its first byte. Most items end within a bound of
their own: numbers after ten groups, ASCII strings after 255 characters, maps
after eight bytes. A unicode string or a byte vector takes as many bytes as
its length says, and they must all be in the buffer at once.
-/

namespace Libtrading.Fast
set_option autoImplicit false
open Buffer

/-! ## Items that are too long -/

/-- A length-prefixed value, its length and its bytes, takes more than `limit` bytes. -/
def overlong (limit : Nat) (b : Buffer) (f : Field Bytes) : Bool :=
  match parseUint b with
  | .fail _ _ => false
  | .done v b' =>
    let len := ((if f.isMandatory then v else v - 1).setWidth 32 : BitVec 32)
    !(!f.isMandatory && v = 0) && (len.msb || limit < (b'.start - b.start) + len.toNat)

/-- A field that reads one off the wire. -/
def overlongField (limit : Nat) (b : Buffer) (p : Pmap) (f : Field Bytes) : Bool :=
  match f.op with
  | .none => overlong limit b f
  | .copy | .default => p.next.pmapIsSet && overlong limit b f
  | _ => false

def overlongElement (limit : Nat) (b : Buffer) (p : Pmap) : ElementField → Bool
  | .string true f => overlongField limit b p f
  | .vector f => overlongField limit b p f
  | _ => false

/-- The fields of an element come to such a value. -/
def overlongElementFields (limit : Nat) : Nat → Buffer → Sequence → Bool
  | 0, _, _ => false
  | n + 1, b, s =>
    match s.head[s.msgDecoded]? with
    | none => false
    | some f =>
      let r := decodeElement b s.pmap f
      overlongElement limit b s.pmap f || (r.ret == .ok && overlongElementFields limit n r.buffer (s.decodedField r))

def overlongItem (limit : Nat) (b : Buffer) (s : Sequence) : Bool :=
  let r := decodeElementPmap b s
  r.ret == .ok && overlongElementFields limit (r.seq.head.length - r.seq.msgDecoded) r.buffer r.seq

def overlongElements (limit : Nat) : Nat → Buffer → Sequence → Bool
  | 0, _, _ => false
  | n + 1, b, s =>
    let r := elementItem b s
    !decide (s.length.value.toNat < s.decoded) &&
      (overlongItem limit b s || (r.ret == .ok && overlongElements limit n r.buffer r.seq.nextElement))

def overlongSequence (limit : Nat) (b : Buffer) (p : Pmap) (s : Sequence) : Bool :=
  let l := decodeLength b p s
  l.2 && overlongElements limit sequenceElements l.1.buffer l.1.field

def overlongFastField (limit : Nat) (b : Buffer) (p : Pmap) : FastField → Bool
  | .elem f => overlongElement limit b p f
  | .sequence s => overlongSequence limit b p s

/-- The field loop comes to such a value. -/
def overlongFields (limit : Nat) : Nat → Buffer → Pmap → Nat → List FastField → Bool
  | 0, _, _, _, _ => false
  | n + 1, b, p, decoded, fields =>
    match fields[decoded]? with
    | none => false
    | some f =>
      let r := decodeFastField b p f
      overlongFastField limit b p f ||
        (r.ret == .ok && overlongFields limit n r.buffer r.pmap (decoded + 1) (fields.set decoded r.field))

/-- A call of `fast_message_decode` comes to a value that takes more than `limit` bytes, or waits for a
preamble of more. -/
def Session.overlong (limit : Nat) (s : Session) : Bool :=
  let t := s.decodeHeader
  (!s.preamble.isValid && decide (limit < s.preamble.nrBytes)) ||
    match t.ret, t.session.rxMessage.bind (t.session.rxMessages[·]?) with
    | .ok, some m =>
      overlongFields limit (m.fields.length - m.decoded) t.session.rxBuffer t.session.pmap m.decoded m.fields
    | _, _ => false

/-! ## Where the readers end -/

/-- The loop over the groups takes no more of them than it may. -/
theorem parse_groups_takes {n : Nat} {r : BitVec 64} {b : Buffer} (hv : b.Valid) :
    b.bufferSize ≤ (parseGroups n r b).buffer.bufferSize + n := by
  induction n generalizing r b with
  | zero => exact Nat.le_refl _
  | succ n ih =>
    unfold parseGroups
    cases next : nextByte b with
    | none => exact Nat.le_add_right _ _
    | some cb =>
      obtain ⟨valid, size⟩ := size_next hv next
      simp only
      split
      · show b.bufferSize ≤ cb.2.bufferSize + (n + 1)
        omega
      · have rest := ih (r := (r <<< 7) ||| septet cb.1) valid
        omega

/-- Where it runs out of bytes, it had fewer. -/
theorem parse_groups_waits {n : Nat} {r : BitVec 64} {b : Buffer} (hv : b.Valid)
    (h : (parseGroups n r b).ret = .msgPartial) : b.bufferSize < n := by
  induction n generalizing r b with
  | zero => cases h
  | succ n ih =>
    unfold parseGroups at h
    cases next : nextByte b with
    | none => rw [size_none next]; omega
    | some cb =>
      obtain ⟨valid, size⟩ := size_next hv next
      rw [next] at h
      simp only at h
      split at h
      · cases h
      · have rest := ih valid h
        omega

theorem parse_uint_waits {b : Buffer} (hv : b.Valid) (h : (parseUint b).ret = .msgPartial) : b.bufferSize < 9 :=
  parse_groups_waits hv h

theorem parse_int_waits {b : Buffer} (hv : b.Valid) (h : (parseInt b).ret = .msgPartial) : b.bufferSize < 10 := by
  unfold parseInt at h
  split at h
  · omega
  · exact parse_groups_waits hv h

theorem parse_int_takes {b : Buffer} (hv : b.Valid) : b.bufferSize ≤ (parseInt b).buffer.bufferSize + 10 := by
  unfold parseInt
  split
  · exact Nat.le_add_right _ _
  · exact parse_groups_takes hv

theorem parse_string_from_waits {room n : Nat} {v : List UInt8} {b : Buffer} (hv : b.Valid)
    (h : (parseStringFrom room n v b).ret = .msgPartial) : b.bufferSize < room := by
  induction room generalizing n v b with
  | zero => cases h
  | succ room ih =>
    unfold parseStringFrom at h
    cases next : nextByte b with
    | none => rw [size_none next]; omega
    | some cb =>
      obtain ⟨valid, size⟩ := size_next hv next
      rw [next] at h
      simp only at h
      split at h
      · cases h
      · have rest := ih valid h
        omega

theorem parse_pmap_from_waits {n : Nat} {p : Pmap} {b : Buffer} (hv : b.Valid)
    (h : (parsePmapFrom n p b).1 = .msgPartial) : b.bufferSize < n := by
  induction n generalizing p b with
  | zero => cases h
  | succ n ih =>
    unfold parsePmapFrom at h
    cases next : nextByte b with
    | none => rw [size_none next]; omega
    | some cb =>
      obtain ⟨valid, size⟩ := size_next hv next
      rw [next] at h
      simp only at h
      split at h
      · cases h
      · have rest := ih valid h
        omega

/-! ## Fields -/

/-- Where the reader runs out of bytes, it had fewer than `n`. -/
def WaitsBelow {α : Type} (n : Nat) (read : Buffer → Field α → Reading α) : Prop :=
  ∀ {b : Buffer} (f : Field α), b.Valid → (read b f).ret = .msgPartial → b.bufferSize < n

theorem WaitsBelow.mono {α : Type} {n m : Nat} {read : Buffer → Field α → Reading α} (h : WaitsBelow n read)
    (le : n ≤ m) : WaitsBelow m read := fun f hv short => Nat.lt_of_lt_of_le (h f hv short) le

theorem read_number_waits {n : Nat} {parse : Buffer → Parse (BitVec 64)}
    {assign : Field (BitVec 64) → BitVec 64 → Field (BitVec 64)}
    (h : ∀ {b : Buffer}, b.Valid → (parse b).ret = .msgPartial → b.bufferSize < n) :
    WaitsBelow n (readNumber parse assign) := by
  intro b f hv short
  unfold readNumber at short
  cases parsed : parse b with
  | done v b' => rw [parsed] at short; exact nomatch short
  | fail ret b' =>
    rw [parsed] at short
    exact h hv (by rw [parsed]; exact short)

/-- A value that starts with a number, and what is read behind it. -/
theorem read_nullable_waits {α : Type} {n : Nat} {rest : BitVec 64 → Buffer → Field α → Reading α}
    (h : ∀ v, WaitsBelow n (rest v)) : WaitsBelow (n + 10) (readNullable parseInt rest) := by
  intro b f hv short
  have takes := parse_int_takes hv
  have valid := (parse_int_moved hv).valid hv
  unfold readNullable at short
  cases parsed : parseInt b with
  | fail ret b' =>
    rw [parsed] at short
    have := parse_int_waits hv (by rw [parsed]; exact short)
    omega
  | done v b' =>
    rw [parsed] at short takes valid
    simp only at short
    split at short
    · exact nomatch short
    · have behind := h v _ valid short
      simp only [Parse.buffer] at takes behind
      omega

theorem uint_waits : WaitsBelow 9 readUint := read_number_waits parse_uint_waits

theorem int_waits : WaitsBelow 10 readInt := read_number_waits parse_int_waits

theorem delta_waits : WaitsBelow 10 readDelta := read_number_waits parse_int_waits

theorem ascii_waits : WaitsBelow 255 readAscii := fun f hv short =>
  parse_string_from_waits hv ((assign_ascii_ret f _).symm.trans short)

theorem ascii_delta_waits : WaitsBelow 41 readAsciiDelta :=
  read_nullable_waits (n := 31) fun length b f hv short => by
    unfold readSpliced assignAsciiDelta at short
    split at short
    · exact parse_string_from_waits hv short
    · split at short <;> exact nomatch short

theorem decimal_waits (place : Decimal → Decimal → Decimal) : WaitsBelow 20 (readDecimalWith place) :=
  read_nullable_waits (n := 10) fun exp b f hv short => by
    unfold readMantissa at short
    simp only at short
    split at short
    · exact nomatch short
    · cases parsed : parseInt b with
      | done mnt b' => rw [parsed] at short; exact nomatch short
      | fail ret b' =>
        rw [parsed] at short
        exact parse_int_waits hv (by rw [parsed]; exact short)

theorem parse_bytes_waits {b : Buffer} (value : List UInt8) {len : BitVec 32}
    (short : (parseBytes b value len).ret = .msgPartial) : len.msb = true ∨ b.bufferSize < len.toNat := by
  unfold parseBytes at short
  split at short
  · assumption
  · split at short <;> exact nomatch short

theorem read_counted_waits {v : U64} {b : Buffer} {f : Field Bytes} (short : (readCounted v b f).ret = .msgPartial) :
    ((if f.isMandatory then v else v - 1).setWidth 32 : BitVec 32).msb = true ∨
      b.bufferSize < ((if f.isMandatory then v else v - 1).setWidth 32 : BitVec 32).toNat := by
  unfold readCounted at short
  simp only at short
  split at short
  · rename_i ret b' parsed
    exact parse_bytes_waits f.value (by rw [parsed]; exact short)
  · exact absurd short (terminate_vector_finished _ _ _ _)

/-- A counted value waits for its last byte. -/
theorem vector_waits {limit : Nat} (wide : 9 ≤ limit) {b : Buffer} {f : Field Bytes} (hv : b.Valid)
    (short : (readVector b f).ret = .msgPartial) (fits : overlong limit b f = false) : b.bufferSize < limit := by
  have moved := parse_uint_moved hv
  unfold readVector readNullable at short
  unfold overlong at fits
  cases parsed : parseUint b with
  | fail ret b' =>
    rw [parsed] at short
    have := parse_uint_waits hv (by rw [parsed]; exact short)
    omega
  | done v b' =>
    rw [parsed] at short fits moved
    have moved : b.Moved b' := moved
    have size := hv.size_eq
    have size' := (moved.valid hv).size_eq
    have there := moved.forward
    have inside := moved.bounded
    rw [moved.stop] at size'
    simp only at short fits
    split at short
    · exact nomatch short
    · rename_i given
      have given : ¬(!f.isMandatory && decide (v = 0)) = true := given
      rw [Bool.not_eq_true] at given
      rw [given, Bool.not_false, Bool.true_and, Bool.or_eq_false_iff, decide_eq_false_iff_not] at fits
      have missing := (read_counted_waits short).resolve_left (by rw [Bool.not_eq_true]; exact fits.1)
      have fits := fits.2
      have missing : b'.bufferSize < ((if f.isMandatory then v else v - 1).setWidth 32 : BitVec 32).toNat := missing
      omega

section Operators
variable {α : Type} {K : Kind α} {b : Buffer} {p : Pmap} {f : Field α}

/-- A field of a type whose readers wait below a bound. -/
theorem field_waits {n : Nat} (read : WaitsBelow n K.read) (delta : ∀ {r}, K.delta = some r → WaitsBelow n r)
    (hv : b.Valid) (short : (decodeField K b p f).ret = .msgPartial) : b.bufferSize < n := by
  obtain ⟨-, short, -⟩ | ⟨r, hr, short, -⟩ := decode_field_cut short
  · exact read f hv short
  · exact delta hr f hv short

end Operators

theorem decode_int_waits {b : Buffer} {p : Pmap} {f : Field I64} (hv : b.Valid)
    (short : (fastDecodeInt b p f).ret = .msgPartial) : b.bufferSize < 10 :=
  field_waits int_waits (by rintro _ ⟨⟩; exact delta_waits) hv short

theorem decode_uint_waits {b : Buffer} {p : Pmap} {f : Field U64} (hv : b.Valid)
    (short : (fastDecodeUint b p f).ret = .msgPartial) : b.bufferSize < 10 :=
  field_waits (uint_waits.mono (by decide)) (by rintro _ ⟨⟩; exact delta_waits) hv short

/-- A number takes ten bytes at most. -/
theorem decode_int_takes {b : Buffer} {p : Pmap} {f : Field I64} (hv : b.Valid) :
    b.bufferSize ≤ (fastDecodeInt b p f).buffer.bufferSize + 10 := by
  have read : ∀ assign, b.bufferSize ≤ (readNumber parseInt assign b f).buffer.bufferSize + 10 := by
    intro assign
    have takes := parse_int_takes hv
    unfold readNumber
    cases parsed : parseInt b <;> rw [parsed] at takes <;> exact takes
  have present : ∀ absent, b.bufferSize ≤ (decodePresent intKind absent b p f).buffer.bufferSize + 10 := by
    intro absent
    unfold decodePresent
    split
    · exact read assignInt
    · exact Nat.le_add_right _ _
  unfold fastDecodeInt decodeField
  cases f.op with
  | none => exact read assignInt
  | copy => exact present _
  | incr => exact present _
  | delta => exact read assignDelta
  | default => exact present _
  | constant =>
    simp only [decode_constant_buffer]
    exact Nat.le_add_right _ _

/-- A field of a type without increment and delta, whose value is counted. -/
theorem counted_waits {limit : Nat} (wide : 9 ≤ limit) {load : Bytes → Bytes → Bytes} {b : Buffer} {p : Pmap}
    {f : Field Bytes} (hv : b.Valid)
    (short : (decodeField ⟨readVector, load, none, none⟩ b p f).ret = .msgPartial)
    (fits : overlongField limit b p f = false) : b.bufferSize < limit := by
  obtain ⟨wire, short, -⟩ | ⟨r, hr, -⟩ := decode_field_cut short
  · refine vector_waits wide hv short ?_
    unfold overlongField at fits
    rcases wire with op | ⟨op | op | ⟨-, incr⟩, set⟩
    · simpa only [op] using fits
    · simpa only [op, set, Bool.true_and] using fits
    · simpa only [op, set, Bool.true_and] using fits
    · exact absurd rfl incr
  · exact nomatch hr

theorem individ_waits {b : Buffer} {p : Pmap} {d : DecimalFields} (hv : b.Valid)
    (short : (fastDecodeDecimalIndivid b p d).ret = .msgPartial) : b.bufferSize < 20 := by
  have moved := interruptible_int.moved p d.exponent hv
  unfold fastDecodeDecimalIndivid at short
  obtain reads | stops := mantissa_cases (fastDecodeInt b p d.exponent) d
  · rw [reads.eq, assign_decimal_ret] at short
    have behind := decode_int_waits (moved.valid hv) short
    have takes := decode_int_takes (p := p) (f := d.exponent) hv
    omega
  · have := decode_int_waits hv (stops.interrupted.mp short)
    omega

/-- Two stages are cut in one of them. -/
theorem cut_in {first next : Session → Stage} {s : Session}
    (short : (Stage.andThen first next s).ret = .msgPartial) :
    ((first s).ret = .msgPartial ∧ Stage.andThen first next s = first s) ∨
      ((next (first s).session).ret = .msgPartial ∧ Stage.andThen first next s = next (first s).session) := by
  unfold Stage.andThen at short ⊢
  split at short
  · rename_i failed
    exact .inl ⟨short, if_pos failed⟩
  · rename_i through
    exact .inr ⟨short, if_neg through⟩

section Bounded
variable {limit : Nat} (wide : stringMaxBytes ≤ limit)
include wide

/-- An element's field waits below the limit, unless it takes more. -/
theorem element_waits {b : Buffer} {p : Pmap} {f : ElementField} (hv : b.Valid)
    (short : (decodeElement b p f).ret = .msgPartial) (fits : overlongElement limit b p f = false) :
    b.bufferSize < limit := by
  have least : 41 ≤ limit := Nat.le_trans (by decide) wide
  cases f with
  | int f => exact Nat.lt_of_lt_of_le (decode_int_waits hv short) (by omega)
  | uint f => exact Nat.lt_of_lt_of_le (decode_uint_waits hv short) (by omega)
  | string unicode f =>
    cases unicode with
    | true => exact counted_waits (by omega) hv short fits
    | false =>
      have read : WaitsBelow limit asciiKind.read := ascii_waits.mono (Nat.le_trans (by decide) wide)
      exact field_waits read (by rintro _ ⟨⟩; exact ascii_delta_waits.mono least) hv short
  | vector f => exact counted_waits (by omega) hv short fits
  | decimal individ f e m =>
    cases individ with
    | true => exact Nat.lt_of_lt_of_le (individ_waits hv short) (by omega)
    | false =>
      exact Nat.lt_of_lt_of_le
        (field_waits (decimal_waits _) (by rintro _ ⟨⟩; exact decimal_waits _) hv short) (by omega)
  | nested name => exact nomatch short

/-! ## Sequences -/

/-- Where the fields of an element are cut, the bytes that are left are those of one of them. -/
theorem element_fields_waits {n : Nat} {b : Buffer} {s : Sequence} (hv : b.Valid)
    (short : (decodeElementFields n b s).ret = .msgPartial) (fits : overlongElementFields limit n b s = false) :
    (decodeElementFields n b s).buffer.bufferSize < limit := by
  induction n generalizing b s with
  | zero => exact nomatch short
  | succ n ih =>
    cases hf : s.head[s.msgDecoded]? with
    | none =>
      rw [element_fields_none hf] at short
      exact nomatch short
    | some f =>
      simp only [overlongElementFields, hf, Bool.or_eq_false_iff, Bool.and_eq_false_imp, beq_iff_eq] at fits
      by_cases interrupted : (decodeElement b s.pmap f).ret = .msgPartial
      · rw [element_fields_interrupted hv hf interrupted]
        exact element_waits wide hv interrupted fits.1
      · by_cases ok : (decodeElement b s.pmap f).ret = .ok
        · rw [element_fields_ok hf ok] at short ⊢
          exact ih ((streams_element.moved s.pmap f hv).valid hv) short (fits.2 ok)
        · rw [element_fields_refused hf ok interrupted] at short
          exact absurd short interrupted

theorem element_pmap_waits {b : Buffer} {s : Sequence} (hv : b.Valid)
    (short : (decodeElementPmap b s).ret = .msgPartial) : (decodeElementPmap b s).buffer.bufferSize < limit := by
  cases asked : s.pmapReq && !s.pmap.isValid with
  | false =>
    rw [element_pmap_passed asked] at short
    exact nomatch short
  | true =>
    by_cases ok : (parsePmap b s.pmap).1 = .ok
    · rw [element_pmap_read asked ok] at short
      exact nomatch short
    · by_cases cut : (parsePmap b s.pmap).1 = .msgPartial
      · rw [element_pmap_short hv asked cut]
        exact Nat.lt_of_lt_of_le (parse_pmap_from_waits hv cut) (Nat.le_trans (by decide) wide)
      · rw [element_pmap_refused asked ok cut] at short
        exact absurd short cut

theorem item_waits {b : Buffer} {s : Sequence} (hv : b.Valid) (short : (elementItem b s).ret = .msgPartial)
    (fits : overlongItem limit b s = false) : (elementItem b s).buffer.bufferSize < limit := by
  by_cases ok : (decodeElementPmap b s).ret = .ok
  · simp only [overlongItem, ok, BEq.rfl, Bool.true_and] at fits
    rw [item_fields ok] at short ⊢
    exact element_fields_waits wide ((element_pmap_moved hv s).1.valid hv) short fits
  · rw [item_stopped ok] at short ⊢
    exact element_pmap_waits wide hv short

theorem elements_waits {n : Nat} {b : Buffer} {s : Sequence} (hv : b.Valid)
    (short : (decodeElements n b s).ret = .msgPartial) (fits : overlongElements limit n b s = false) :
    (decodeElements n b s).buffer.bufferSize < limit := by
  induction n generalizing b s with
  | zero => exact nomatch short
  | succ n ih =>
    by_cases past : s.length.value.toNat < s.decoded
    · rw [elements_end past] at short
      exact nomatch short
    · simp only [overlongElements, past, decide_false, Bool.not_false, Bool.true_and, Bool.or_eq_false_iff,
        Bool.and_eq_false_imp, beq_iff_eq] at fits
      by_cases ok : (elementItem b s).ret = .ok
      · rw [elements_next past ok] at short ⊢
        exact ih ((item_moved hv s).1.valid hv) short (fits.2 ok)
      · rw [elements_stopped past ok] at short ⊢
        exact item_waits wide hv short fits.1

theorem sequence_waits {b : Buffer} {p : Pmap} {s : Sequence} (hv : b.Valid)
    (short : (fastDecodeSequence b p s).ret = .msgPartial) (fits : overlongSequence limit b p s = false) :
    (fastDecodeSequence b p s).buffer.bufferSize < limit := by
  unfold overlongSequence at fits
  cases length_cases b p s with
  | begun begun =>
    rw [length_passed begun, Bool.true_and] at fits
    rw [sequence_begun begun, elements_from_ret] at short
    rw [sequence_begun begun, elements_from_buffer]
    exact elements_waits wide hv short fits
  | read zero ok there range =>
    rw [length_read zero ok there range, Bool.true_and] at fits
    rw [sequence_read zero ok there range, elements_from_ret] at short
    rw [sequence_read zero ok there range, elements_from_buffer]
    exact elements_waits wide ((interruptible_uint.moved p s.length hv).valid hv) short fits
  | short zero cut =>
    rw [sequence_short hv zero cut]
    exact Nat.lt_of_lt_of_le (decode_uint_waits hv cut) (Nat.le_trans (by decide) wide)
  | past zero long past =>
    rw [sequence_over zero long past] at short
    exact absurd short (length_ret_finished long)

/-! ## Messages -/

theorem fast_field_waits {b : Buffer} {p : Pmap} {f : FastField} (hv : b.Valid)
    (short : (decodeFastField b p f).ret = .msgPartial) (fits : overlongFastField limit b p f = false) :
    (interruptedAt f b (decodeFastField b p f).buffer).bufferSize < limit := by
  cases f with
  | elem f =>
    simp only [interruptedAt, decodeFastField]
    rw [(streams_element.moved p f hv).rewind_eq]
    exact element_waits wide hv short fits
  | sequence s => exact sequence_waits wide hv short fits

theorem decode_fields_waits {n decoded : Nat} {b : Buffer} {p : Pmap} {fields : List FastField} (hv : b.Valid)
    (regular : RegularFields fields) (short : (decodeFields n b p decoded fields).ret = .msgPartial)
    (fits : overlongFields limit n b p decoded fields = false) :
    (decodeFields n b p decoded fields).buffer.bufferSize < limit := by
  induction n generalizing b p decoded fields with
  | zero => exact nomatch short
  | succ n ih =>
    cases hf : fields[decoded]? with
    | none =>
      rw [decode_fields_none hf] at short
      exact nomatch short
    | some f =>
      obtain ⟨moved, cursor, kept⟩ := field_moved hv p (regular f (List.mem_of_getElem? hf))
      simp only [overlongFields, hf, Bool.or_eq_false_iff, Bool.and_eq_false_imp, beq_iff_eq] at fits
      by_cases interrupted : (decodeFastField b p f).ret = .msgPartial
      · rw [decode_fields_interrupted cursor hf interrupted]
        exact fast_field_waits wide hv interrupted fits.1
      · by_cases ok : (decodeFastField b p f).ret = .ok
        · rw [decode_fields_ok hf ok] at short ⊢
          exact ih (moved.valid hv) (regular_fields_set regular decoded kept) short (fits.2 ok)
        · rw [decode_fields_refused hf ok interrupted] at short
          exact absurd short interrupted

/-- The stages in front of the fields. -/
theorem header_waits {s : Session} (hv : s.rxBuffer.Valid) (short : s.decodeHeader.ret = .msgPartial)
    (fits : (!s.preamble.isValid && decide (limit < s.preamble.nrBytes)) = false) :
    s.decodeHeader.session.rxBuffer.bufferSize < limit := by
  have least : 9 ≤ limit := Nat.le_trans (by decide) wide
  unfold Session.decodeHeader at short ⊢
  rcases cut_in short with ⟨cut, stop⟩ | ⟨cut, stop⟩
  · rw [stop]
    by_cases missing : s.preamble.nrBytes ≠ 0 ∧ !s.preamble.isValid
    · by_cases few : s.rxBuffer.bufferSize < s.preamble.nrBytes
      · rw [preamble_short missing few]
        rw [missing.2, Bool.true_and, decide_eq_false_iff_not, Nat.not_lt] at fits
        exact Nat.lt_of_lt_of_le few fits
      · rw [preamble_read missing few] at cut
        exact nomatch cut
    · rw [preamble_passed missing] at cut
      exact nomatch cut
  · rw [stop]
    have hv := stage_preamble.valid hv
    generalize s.decodePreamble.session = s at hv cut ⊢
    rcases cut_in cut with ⟨cut, stop⟩ | ⟨cut, stop⟩
    · rw [stop]
      cases valid : s.pmap.isValid with
      | true =>
        rw [pmap_passed valid] at cut
        exact nomatch cut
      | false =>
        by_cases ok : (parsePmap s.rxBuffer s.pmap).1 = .ok
        · rw [pmap_read valid ok] at cut
          exact nomatch cut
        · by_cases few : (parsePmap s.rxBuffer s.pmap).1 = .msgPartial
          · rw [pmap_short hv valid few]
            have few := parse_pmap_from_waits hv few
            exact Nat.lt_of_lt_of_le few (Nat.le_trans (by decide) least)
          · rw [pmap_refused valid ok few] at cut
            exact absurd cut few
    · rw [stop]
      have hv := stage_pmap.valid hv
      generalize s.decodePmap.session = s at hv cut ⊢
      cases chosen : s.rxMessage with
      | some i =>
        rw [tid_passed chosen] at cut
        exact nomatch cut
      | none =>
        cases read : s.readTid with
        | done tid b =>
          rw [tid_read chosen read] at cut
          exact absurd cut (choose_template_finished tid b)
        | fail ret b =>
          by_cases few : ret = .msgPartial
          · rw [tid_short hv chosen (by rw [read]; exact few)]
            unfold Session.readTid at read
            split at read
            · exact Nat.lt_of_lt_of_le (parse_uint_waits hv (by rw [read]; exact few)) least
            · exact nomatch read
          · rw [tid_refused chosen read few] at cut
            exact absurd cut few

/-- **What a call waits with.** A call that ran out of bytes leaves fewer than the limit, unless it came to a
value that takes more. -/
theorem decode_waits {s : Session} (hs : s.Regular) (short : s.fastMessageDecode.ret = .msgPartial)
    (fits : s.overlong limit = false) : s.fastMessageDecode.session.rxBuffer.bufferSize < limit := by
  simp only [Session.overlong, Bool.or_eq_false_iff] at fits
  obtain ⟨ret, call, -, waits⟩ | ⟨i, m, ok, hm, hi, call⟩ := decode_cases s
  · rw [call] at short ⊢
    exact header_waits wide hs.valid (waits short) fits.1
  · have regular := header_regular hs
    have fields : overlongFields limit (m.fields.length - m.decoded) s.decodeHeader.session.rxBuffer
        s.decodeHeader.session.pmap m.decoded m.fields = false := by
      simpa only [ok, hm, Option.bind_some, hi] using fits.2
    rw [call, decode_message_ret] at short
    rw [call, Session.decodeMessage, finish_message_buffer]
    exact decode_fields_waits wide regular.valid (regular.regular m (List.mem_of_getElem? hi)) short fields

end Bounded

/-! ## Room to receive -/

/-- Room that is made is all that the unread bytes leave. -/
theorem room_made_remaining {b : Buffer} (hv : b.Valid) :
    messageMaxSize < (roomMade b).bufferRemaining ∨ (roomMade b).bufferRemaining = b.data.length - b.bufferSize := by
  unfold roomMade
  split
  · obtain ⟨valid, -, size, stop⟩ := hv.compact
    rw [valid.remaining_eq, size, stop, length_unread hv, ← hv.size_eq]
    exact .inr rfl
  · exact .inl (by omega)

/-- **A receiver that waits can receive.** Where a call of `fast_message_decode` on a session that was reached
ran out of bytes, there is room for another byte when `fast_session_recv` goes on to receive, unless the call
came to a value that takes more than the whole buffer; and there is room for more than
`FAST_MESSAGE_MAX_SIZE` bytes, unless it came to one that takes more than that itself. -/
theorem waits_with_room (preambleBytes : Nat) (ts : List Template) (s : Session) (h : Reached preambleBytes ts s)
    (short : s.fastMessageDecode.ret = .msgPartial) :
    (s.overlong recvBufferSize = false → 0 < (roomMade s.fastMessageDecode.session.rxBuffer).bufferRemaining) ∧
      (s.overlong messageMaxSize = false →
        messageMaxSize < (roomMade s.fastMessageDecode.session.rxBuffer).bufferRemaining) := by
  obtain ⟨regular, -⟩ := h.regular
  obtain ⟨after, size⟩ := h.decoded.regular
  have size : s.fastMessageDecode.session.rxBuffer.data.length = recvBufferSize := size
  have room := room_made_remaining after.valid
  rw [size] at room
  have buffer : recvBufferSize = 2 * messageMaxSize := rfl
  have some : 0 < messageMaxSize := by decide
  constructor
  · intro fits
    have left := decode_waits (by decide) regular short fits
    omega
  · intro fits
    have left := decode_waits (by decide) regular short fits
    omega

/-- A template of one byte vector. -/
def blobTemplate : Template where
  name := "Blob"
  tid := 1
  flagReset := false
  fields := [.elem (.vector ⟨"Data", .mandatory, .none, none⟩)]

/-- A vector of five bytes is waited for with room. -/
theorem blob_waits_with_room :
    let s := (newSession 0 [blobTemplate]).receive [0xC0, 0x81, 0x85]
    0 < (roomMade s.fastMessageDecode.session.rxBuffer).bufferRemaining ∧
      messageMaxSize < (roomMade s.fastMessageDecode.session.rxBuffer).bufferRemaining :=
  have reached := Reached.opened.received [0xC0, 0x81, 0x85] (by decide +kernel)
  have room := waits_with_room 0 [blobTemplate] _ reached (by decide +kernel)
  ⟨room.1 (by decide +kernel), room.2 (by decide +kernel)⟩

/-! ## A receiver that is stuck -/

/-- In front of a vector of `16383` bytes, with `start` and `end` of the buffer. -/
structure InBlob (start stop : Nat) (s : Session) : Prop where
  valid : s.rxBuffer.Valid
  capacity : s.rxBuffer.data.length = recvBufferSize
  start_eq : s.rxBuffer.start = start
  stop_eq : s.rxBuffer.stop = stop
  header : HeaderDone s
  chosen : s.rxMessage = some 0
  template : ∃ m f, s.rxMessages[0]? = some m ∧ m.decoded = 0 ∧ m.fields = [.elem (.vector f)] ∧
    f.op = .none ∧ f.isMandatory = true
  begins : ∃ rest, s.rxBuffer.unread = [0x7F, 0xFF] ++ rest

namespace InBlob
variable {start stop : Nat} {s : Session}

/-- No buffer holds it. -/
theorem vector_cut {b : Buffer} (hv : b.Valid) (size : b.data.length = recvBufferSize) {rest : List UInt8}
    (hu : b.unread = [0x7F, 0xFF] ++ rest) {f : Field Bytes} (op : f.op = .none) (mandatory : f.isMandatory = true)
    (p : Pmap) :
    fastDecodeVector b p f = ⟨.msgPartial, b.bufferAdvance 2, p, { f with state := .assigned }⟩ := by
  have stopped : Stopped [0x7F, 0xFF] := .more rfl (.last rfl)
  obtain ⟨valid, -⟩ := unread_advance hv hu
  have valid : (b.bufferAdvance 2).Valid := valid
  have few : (b.bufferAdvance 2).bufferSize < 16383 := by
    have stop : (b.bufferAdvance 2).stop ≤ b.data.length := valid.stop_le
    rw [valid.size_eq]
    rw [size, recvBufferSize] at stop
    omega
  have kept : ({ f with state := .assigned } : Field Bytes).isMandatory = true := mandatory
  have counted : readCounted 16383 (b.bufferAdvance 2) { f with state := .assigned } =
      ⟨.msgPartial, b.bufferAdvance 2, { f with state := .assigned }⟩ := by
    unfold readCounted parseBytes
    simp only [kept, if_true]
    rw [if_pos (.inr (by exact few))]
  have read : readVector b f = ⟨.msgPartial, b.bufferAdvance 2, { f with state := .assigned }⟩ := by
    unfold readVector readNullable
    rw [parse_uint_stopped stopped hv (by decide) hu, ← counted]
    simp only [kept, Bool.not_true, Bool.false_and, Bool.false_eq_true, if_false]
    rfl
  have switch : fastDecodeVector b p f = (readVector b f).toDecoded p := by
    simp only [fastDecodeVector, decodeField, op]
    rfl
  rw [switch, read]
  rfl

/-- A call changes nothing but the field's state. -/
theorem decode (h : InBlob start stop s) :
    ∃ m, s.fastMessageDecode = ⟨none, .msgPartial, { s with rxMessages := s.rxMessages.set 0 m }⟩ ∧
      InBlob start stop { s with rxMessages := s.rxMessages.set 0 m } := by
  obtain ⟨m, f, slot, zero, fields, op, mandatory⟩ := h.template
  obtain ⟨rest, unread⟩ := h.begins
  have passed := h.header.passed h.chosen
  have cut := vector_cut h.valid h.capacity unread op mandatory s.pmap
  have read : decodeFastField s.rxBuffer s.pmap (.elem (.vector f)) =
      ⟨.msgPartial, s.rxBuffer.bufferAdvance 2, s.pmap, .elem (.vector { f with state := .assigned })⟩ := by
    simp only [decodeFastField, decodeElement, cut]
  have loop : s.messageFields m =
      ⟨.msgPartial, s.rxBuffer, s.pmap, 0, [.elem (.vector { f with state := .assigned })]⟩ := by
    unfold Session.messageFields
    rw [fields, zero]
    refine (decode_fields_interrupted (n := 0) (by rw [read]) rfl (by rw [read])).trans ?_
    rw [read]
    rfl
  have run : s.fastMessageDecode = s.decodeMessage 0 m := by
    have whole := decode_fields_of (s := s) (i := 0) (m := m) (by rw [passed]) (by rw [passed]; exact h.chosen)
      (by rw [passed]; exact slot)
    rw [whole, passed]
  refine ⟨{ m with decoded := 0, fields := [.elem (.vector { f with state := .assigned })] }, ?_, ?_⟩
  · rw [run, Session.decodeMessage, loop]
    exact finish_message_failed (by intro h; cases h)
  · have inside : 0 < s.rxMessages.length := (List.getElem?_eq_some_iff.mp slot).1
    exact ⟨h.valid, h.capacity, h.start_eq, h.stop_eq, ⟨h.header.preamble, h.header.pmap⟩, h.chosen,
      ⟨_, _, List.getElem?_set_self inside, rfl, rfl, op, mandatory⟩, h.begins⟩

/-- What is received lies behind it. -/
theorem receive (h : InBlob start stop s) {x : List UInt8} (room : stop + x.length ≤ recvBufferSize) :
    InBlob start (stop + x.length) (s.receive x) := by
  obtain ⟨rest, unread⟩ := h.begins
  have inside : s.rxBuffer.stop + x.length ≤ s.rxBuffer.data.length := by
    rw [h.stop_eq, h.capacity]
    exact room
  refine ⟨h.valid.receive x, (receive_size inside).trans h.capacity, h.start_eq, congrArg (· + x.length) h.stop_eq,
    ⟨h.header.preamble, h.header.pmap⟩, h.chosen, h.template, rest ++ x, ?_⟩
  rw [Session.receive, unread_receive h.valid, unread, List.append_assoc]

/-- Making room: the bytes move to the front where there is little. -/
theorem room_made (h : InBlob start stop s) :
    (messageMaxSize < recvBufferSize - stop → InBlob start stop { s with rxBuffer := roomMade s.rxBuffer }) ∧
      (recvBufferSize - stop ≤ messageMaxSize →
        InBlob 0 (stop - start) { s with rxBuffer := roomMade s.rxBuffer }) := by
  have remaining : s.rxBuffer.bufferRemaining = recvBufferSize - stop := by
    rw [h.valid.remaining_eq, h.capacity, h.stop_eq]
  unfold roomMade
  rw [remaining]
  constructor
  · intro much
    rw [if_neg (by omega)]
    exact h
  · intro little
    rw [if_pos little]
    obtain ⟨valid, unread, size, stop_eq⟩ := h.valid.compact
    refine ⟨valid, size.trans h.capacity, rfl, ?_, ⟨h.header.preamble, h.header.pmap⟩, h.chosen, h.template, ?_⟩
    · rw [stop_eq, length_unread h.valid, h.start_eq, h.stop_eq]
    · rw [unread]
      exact h.begins

/-- A call of `fast_session_recv` receives what there is room for, once room is made, and returns nothing. -/
theorem recv {start' stop' : Nat} (h : InBlob start stop s)
    (made : ∀ {s : Session}, InBlob start stop s → InBlob start' stop' { s with rxBuffer := roomMade s.rxBuffer })
    (sock : List UInt8) : (s.fastSessionRecv sock).msg = none ∧
      InBlob start' (stop' + min (min (recvBufferSize - stop') messageMaxSize) sock.length)
        (s.fastSessionRecv sock).session := by
  obtain ⟨m, run, after⟩ := h.decode
  have made := made after
  generalize { s with rxMessages := s.rxMessages.set 0 m } = t at run after made
  have remaining : (roomMade t.rxBuffer).bufferRemaining = recvBufferSize - stop' := by
    rw [Valid.remaining_eq made.valid]
    exact congrArg₂ (· - ·) made.capacity made.stop_eq
  have length : (heard (roomMade t.rxBuffer) sock).length =
      min (min (recvBufferSize - stop') messageMaxSize) sock.length := by
    rw [heard, List.length_take, remaining]
  have inside := made.valid.stop_le
  rw [made.stop_eq, made.capacity] at inside
  rw [← length]
  simp only [Session.fastSessionRecv, run, Option.isSome_none, Bool.false_eq_true, if_false]
  split
  · rename_i silent
    rw [silent]
    exact ⟨rfl, made⟩
  · obtain ⟨m', run', after'⟩ := (made.receive (x := heard (roomMade t.rxBuffer) sock) (by omega)).decode
    rw [run']
    exact ⟨rfl, after'⟩

/-- In a full buffer nothing more is received, ever. -/
theorem full (h : InBlob 0 recvBufferSize s) (sock : List UInt8) :
    (s.fastSessionRecv sock).msg = none ∧ InBlob 0 recvBufferSize (s.fastSessionRecv sock).session := by
  have again := h.recv (fun h => h.room_made.2 (by decide)) sock
  simpa using again

theorem full_run (h : InBlob 0 recvBufferSize s) (socks : List (List UInt8)) :
    InBlob 0 recvBufferSize (socks.foldl (fun s sock => (s.fastSessionRecv sock).session) s) := by
  induction socks generalizing s with
  | nil => exact h
  | cons sock socks ih => exact ih (h.full sock).2

theorem full_remaining (h : InBlob 0 recvBufferSize s) : (roomMade s.rxBuffer).bufferRemaining = 0 := by
  have made := h.room_made.2 (by decide)
  have remaining := Valid.remaining_eq made.valid
  rw [show (roomMade s.rxBuffer).data.length = recvBufferSize from made.capacity,
    show (roomMade s.rxBuffer).stop = recvBufferSize from made.stop_eq] at remaining
  exact remaining.trans (Nat.sub_self _)

end InBlob

/-- The map, the template id and the length of a vector of `16383` bytes. -/
def blobStream : List UInt8 := [0xC0, 0x81, 0x7F, 0xFF]

/-- The sessions that receive the first bytes of the vector, as many as are asked for. -/
def blobSession : Nat → Session
  | 0 => ((newSession 0 [blobTemplate]).fastSessionRecv blobStream).session
  | n + 1 => ((blobSession n).fastSessionRecv (List.replicate messageMaxSize 0)).session

theorem blob_session_reached (n : Nat) : Reached 0 [blobTemplate] (blobSession n) := by
  induction n with
  | zero => exact Reached.opened.recv blobStream
  | succ n ih => exact ih.recv _

theorem blob_session_begins : InBlob 2 4 (blobSession 0) := by
  obtain ⟨regular, size⟩ := (blob_session_reached 0).regular
  have state : (blobSession 0).rxBuffer.start = 2 ∧ (blobSession 0).rxBuffer.stop = 4 ∧
      (blobSession 0).rxBuffer.unread = [0x7F, 0xFF] ++ [] ∧ (blobSession 0).preamble.nrBytes = 0 ∧
      (blobSession 0).pmap.isValid = true ∧ (blobSession 0).rxMessage = some 0 ∧
      (blobSession 0).rxMessages[0]? = some { messageInit blobTemplate with
        fields := [.elem (.vector { vectorInit ⟨"Data", .mandatory, .none, none⟩ with state := .assigned })] } := by
    decide +kernel
  obtain ⟨start, stop, unread, preamble, pmap, chosen, slot⟩ := state
  have header : HeaderDone (blobSession 0) := ⟨fun h => h.1 preamble, pmap⟩
  exact ⟨regular.valid, size, start, stop, header, chosen, ⟨_, _, slot, rfl, rfl, rfl, rfl⟩, [], unread⟩

theorem blob_session_goes {start stop start' stop' : Nat} (n : Nat) (h : InBlob start stop (blobSession n))
    (made : ∀ {s : Session}, InBlob start stop s → InBlob start' stop' { s with rxBuffer := roomMade s.rxBuffer }) :
    InBlob start' (stop' + min (min (recvBufferSize - stop') messageMaxSize) messageMaxSize) (blobSession (n + 1)) := by
  have run := (h.recv made (List.replicate messageMaxSize 0)).2
  rwa [List.length_replicate] at run

theorem blob_session_full : InBlob 0 recvBufferSize (blobSession 2) := by
  have room : 4 + min (min (recvBufferSize - 4) messageMaxSize) messageMaxSize = 2052 := by decide
  have less : 2050 + min (min (recvBufferSize - 2050) messageMaxSize) messageMaxSize = recvBufferSize := by decide
  have more := blob_session_goes 0 blob_session_begins fun h => h.room_made.1 (by decide)
  rw [room] at more
  have rest := blob_session_goes 1 more fun h => h.room_made.2 (by decide)
  rwa [less] at rest

/-- **Stuck.** After three calls of `fast_session_recv` the buffer is full with the beginning of one vector:
a call waits for the rest of it without room, and no further call receives or returns anything. -/
theorem blob_waits_without_room :
    (blobSession 2).fastMessageDecode.ret = .msgPartial ∧
      (roomMade (blobSession 2).fastMessageDecode.session.rxBuffer).bufferRemaining = 0 ∧
      ∀ (socks : List (List UInt8)) (sock : List UInt8),
        let s := socks.foldl (fun s sock => (s.fastSessionRecv sock).session) (blobSession 2)
        (s.fastSessionRecv sock).msg = none := by
  obtain ⟨m, run, after⟩ := blob_session_full.decode
  refine ⟨by rw [run], ?_, fun socks sock => ((blob_session_full.full_run socks).full sock).1⟩
  rw [run]
  exact after.full_remaining

end Libtrading.Fast
