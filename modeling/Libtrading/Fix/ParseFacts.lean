import Libtrading.Fix.Bytes
import Mathlib.Data.List.TakeWhile

/-!
# The parser of the source is the parser on the unread bytes

One lemma for each reader: where the buffer is valid, it does what the reader of
the same name in `Bytes` does with `b.unread`, a rest `r` being the buffer with
`r.length` bytes left. The memory behind the unread bytes plays no part.
-/

namespace Libtrading

namespace Buffer
open Wire
set_option autoImplicit false

/-- The buffer with `n` bytes left to read. -/
def leaving (b : Buffer) (n : Nat) : Buffer := { b with start := b.stop - n }

@[simp] theorem leaving_data (b : Buffer) (n : Nat) : (b.leaving n).data = b.data := rfl

@[simp] theorem leaving_stop (b : Buffer) (n : Nat) : (b.leaving n).stop = b.stop := rfl

@[simp] theorem leaving_leaving (b : Buffer) (m n : Nat) : (b.leaving m).leaving n = b.leaving n := rfl

variable {b : Buffer}

theorem leaving_self (hv : b.Valid) : b.leaving b.unread.length = b := by
  have := hv.start_le
  have start : b.stop - (b.stop - b.start) = b.start := by omega
  rw [leaving, length_unread hv, start]

/-- A suffix of the unread bytes is what is unread when as many are left. -/
theorem unread_leaving (hv : b.Valid) {r : List UInt8} (hr : r <:+ b.unread) :
    (b.leaving r.length).Valid ∧ (b.leaving r.length).unread = r := by
  obtain ⟨t, ht⟩ := hr
  have hl := length_unread hv
  rw [← ht, List.length_append] at hl
  have := hv.start_le
  have place : b.leaving r.length = b.bufferAdvance t.length := by
    have : b.stop - r.length = b.start + t.length := by omega
    rw [leaving, bufferAdvance, this]
  rw [place]
  exact unread_advance hv ht.symm

/-- The memory from a place on: what is left, and what lies behind the buffer's end. -/
theorem data_drop (hv : b.Valid) {r : List UInt8} (hr : r <:+ b.unread) :
    b.data.drop (b.stop - r.length) = r ++ b.data.drop b.stop := by
  have stop := hv.stop_le
  have hl := (hr.trans (List.drop_suffix _ _)).length_le
  have front : last r.length (b.data.take b.stop) = r := last_of_suffix (hr.trans (List.drop_suffix _ _))
  rw [List.length_take, Nat.min_eq_left stop] at hl
  have whole : b.data = b.data.take b.stop ++ b.data.drop b.stop := (List.take_append_drop _ _).symm
  rw [last, List.length_take, Nat.min_eq_left stop] at front
  conv_lhs => rw [whole]
  rw [List.drop_append_of_le_length (by rw [List.length_take]; omega), front]

/-- `buffer_find` moves to the delimiter, or to the end. -/
theorem find_eq (hv : b.Valid) (c : UInt8) :
    b.bufferFind c =
      match cut c b.unread with
      | none => (false, b.leaving 0)
      | some (_, r) => (true, b.leaving (r.length + 1)) := by
  have loop : ∀ (n : Nat) (b : Buffer), b.Valid → b.unread.length = n →
      bufferFindFrom n b c =
        match cut c b.unread with
        | none => (false, b.leaving 0)
        | some (_, r) => (true, b.leaving (r.length + 1)) := by
    intro n
    induction n with
    | zero =>
      intro b hv hn
      have nil : b.unread = [] := List.length_eq_zero_iff.1 hn
      have self : b.leaving 0 = b := by rw [← hn, leaving_self hv]
      rw [nil, cut, bufferFindFrom]
      exact Prod.ext rfl self.symm
    | succ n ih =>
      intro b hv hn
      have more : b.start < b.stop := by
        have := length_unread hv
        omega
      have cons := unread_cons hv more
      have hv' : (b.bufferAdvance 1).Valid := (unread_advance hv (w := [b.byteAt b.start]) cons).1
      have rest : (b.bufferAdvance 1).unread.length = n := by
        rw [cons, List.length_cons] at hn
        omega
      rw [bufferFindFrom, bufferPeek8, cons, cut]
      split
      · have all : (b.bufferAdvance 1).unread.length + 1 = b.unread.length := by rw [cons, List.length_cons]
        simp only [all, leaving_self hv]
      · rw [ih _ hv' rest]
        cases cut c (b.bufferAdvance 1).unread with
        | none => rfl
        | some p => rfl
  have size : b.bufferSize = b.unread.length := by rw [hv.size_eq, length_unread hv]
  rw [bufferFind, size]
  exact loop _ b hv rfl

/-- The same of a place inside the unread bytes. -/
theorem find_leaving (hv : b.Valid) {r : List UInt8} (hr : r <:+ b.unread) (c : UInt8) :
    (b.leaving r.length).bufferFind c =
      match cut c r with
      | none => (false, b.leaving 0)
      | some (_, r') => (true, b.leaving (r'.length + 1)) := by
  obtain ⟨hv', hu⟩ := unread_leaving hv hr
  rw [find_eq hv' c, hu]
  rfl

end Buffer

namespace Fix
open Buffer Wire
set_option autoImplicit false
universe u v

/-- A result of a reader on bytes, as one on the buffer. -/
def Scan.on {α : Type u} (b : Buffer) : Scan α (List UInt8) → Scan α Buffer
  | .done x r => .done x (b.leaving r.length)
  | .stop ret r => .stop ret (b.leaving r.length)

/-- A value as the index of its first byte. -/
def Scan.at (b : Buffer) : Scan (List UInt8) (List UInt8) → Scan Nat Buffer
  | .done v r => .done (b.stop - Bytes.leftFrom v r) (b.leaving r.length)
  | .stop ret r => .stop ret (b.leaving r.length)

/-- Where a reader that finds a value stands: behind it, at the end of the bytes it was given. -/
structure Within (u v r : List UInt8) : Prop where
  soh : 1 ∉ v
  suffix : v ++ 1 :: r <:+ u

theorem Within.rest {u v r : List UInt8} (h : Within u v r) : r <:+ u :=
  List.IsSuffix.trans ⟨v ++ [1], by simp⟩ h.suffix

theorem Within.trans {u w v r : List UInt8} (h : Within w v r) (hw : w <:+ u) : Within u v r :=
  ⟨h.soh, h.suffix.trans hw⟩

theorem left_from (v r : List UInt8) : Bytes.leftFrom v r = (v ++ 1 :: r).length := by
  rw [Bytes.leftFrom, List.length_append, List.length_cons]
  omega

/-! ## What the readers on bytes leave -/

namespace Bytes
variable {u : List UInt8}

/-- The bytes `tag=value` with the SOH behind them. -/
def fieldText (t v : List UInt8) : List UInt8 := t ++ '='.toNat.toUInt8 :: (v ++ [1])

theorem field_text_append (t v r : List UInt8) :
    fieldText t v ++ r = t ++ '='.toNat.toUInt8 :: (v ++ 1 :: r) := by
  simp [fieldText]

theorem length_field_text (t v : List UInt8) : (fieldText t v).length = t.length + v.length + 2 := by
  simp only [fieldText, List.length_append, List.length_cons, List.length_nil]
  omega

theorem digits_no_equals {t : List UInt8} (h : t.all isDigit = true) : '='.toNat.toUInt8 ∉ t :=
  fun hm => absurd (List.all_eq_true.1 h _ hm) (by decide)

theorem parse_tag_done {t : Tag} {r : List UInt8} :
    parseTag u = .done t r ↔
      ∃ s, u = s ++ '='.toNat.toUInt8 :: r ∧ s.all isDigit = true ∧ fixUatoi s = t := by
  rw [parseTag]
  constructor
  · intro h
    cases hc : cut '='.toNat.toUInt8 u with
    | none => rw [hc] at h; nomatch h
    | some p =>
      rw [hc] at h
      simp only at h
      split at h
      · rename_i digits
        cases h
        exact ⟨p.1, (cut_eq_some.1 hc).1, digits, rfl⟩
      · nomatch h
  · rintro ⟨s, rfl, digits, rfl⟩
    rw [cut_mk (digits_no_equals digits)]
    simp only [digits, if_true]

theorem parse_value_done {v r : List UInt8} : parseValue u = .done v r ↔ u = v ++ 1 :: r ∧ 1 ∉ v := by
  rw [parseValue, ← cut_eq_some]
  cases cut 1 u with
  | none => exact ⟨fun h => (nomatch h), fun h => (nomatch h)⟩
  | some p => exact ⟨fun h => by cases h; rfl, fun h => by cases h; rfl⟩

/-- What a successful `match_field` has read. -/
theorem match_field_done {tag : Tag} {v r : List UInt8} :
    matchField u tag = .done v r ↔
      ∃ t, u = fieldText t v ++ r ∧ t.all isDigit = true ∧ fixUatoi t = tag ∧ 1 ∉ v := by
  rw [matchField]
  constructor
  · intro h
    cases ht : parseTag u with
    | stop ret r' => rw [ht] at h; nomatch h
    | done ptag r' =>
      rw [ht] at h
      simp only at h
      split at h
      · nomatch h
      · rename_i same
        obtain ⟨t, rfl, digits, value⟩ := parse_tag_done.1 ht
        obtain ⟨rfl, soh⟩ := parse_value_done.1 h
        exact ⟨t, (field_text_append t v r).symm, digits, value.trans (Classical.not_not.1 same), soh⟩
  · rintro ⟨t, rfl, digits, value, soh⟩
    have ht := parse_tag_done.2 ⟨t, field_text_append t v r, digits, value⟩
    simp only [ht, ne_eq, not_true, if_false]
    exact parse_value_done.2 ⟨rfl, soh⟩

/-- What a successful `parse_field` has read. -/
theorem parse_field_done {tag : Tag} {v r : List UInt8} :
    parseField u = .done (tag, v) r ↔
      ∃ t, u = fieldText t v ++ r ∧ t.all isDigit = true ∧ fixUatoi t = tag ∧ 1 ∉ v := by
  rw [parseField]
  constructor
  · intro h
    cases ht : parseTag u with
    | stop ret r' => rw [ht] at h; nomatch h
    | done ptag r' =>
      rw [ht] at h
      simp only at h
      cases hv : parseValue r' with
      | stop ret r'' => rw [hv] at h; nomatch h
      | done v' r'' =>
        rw [hv] at h
        cases h
        obtain ⟨t, rfl, digits, value⟩ := parse_tag_done.1 ht
        obtain ⟨rfl, soh⟩ := parse_value_done.1 hv
        exact ⟨t, (field_text_append t v r).symm, digits, value, soh⟩
  · rintro ⟨t, rfl, digits, value, soh⟩
    have ht := parse_tag_done.2 ⟨t, field_text_append t v r, digits, value⟩
    have hv : parseValue (v ++ 1 :: r) = .done v r := parse_value_done.2 ⟨rfl, soh⟩
    simp only [ht, hv]

theorem parse_tag_suffix {u : List UInt8} :
    (∀ t r, parseTag u = .done t r → r <:+ u) ∧ ∀ ret r, parseTag u = .stop ret r → r <:+ u := by
  rw [parseTag]
  cases hc : cut '='.toNat.toUInt8 u with
  | none => exact ⟨fun _ _ h => (nomatch h), fun _ _ h => by cases h; exact List.nil_suffix⟩
  | some p =>
    obtain ⟨t, r⟩ := p
    have whole := (cut_eq_some.1 hc).1
    simp only
    split
    · exact ⟨fun _ _ h => by cases h; exact cut_suffix hc, fun _ _ h => (nomatch h)⟩
    · exact ⟨fun _ _ h => (nomatch h), fun _ _ h => by cases h; exact ⟨t, whole.symm⟩⟩

theorem next_tag_suffix (u : List UInt8) : nextTag u <:+ u := by
  rw [nextTag]
  cases hc : cut 1 u with
  | none => exact List.nil_suffix
  | some p => exact cut_suffix hc

theorem parse_value_within {v r : List UInt8} (h : parseValue u = .done v r) : Within u v r := by
  rw [parseValue] at h
  cases hc : cut 1 u with
  | none => rw [hc] at h; nomatch h
  | some p =>
    rw [hc] at h
    cases h
    obtain ⟨rfl, soh⟩ := cut_eq_some.1 hc
    exact ⟨soh, List.suffix_refl _⟩

theorem parse_value_stop {ret : MsgState} {r : List UInt8} (h : parseValue u = .stop ret r) :
    ret = .msgPartial ∧ r = [] := by
  rw [parseValue] at h
  cases hc : cut 1 u with
  | none => rw [hc] at h; cases h; exact ⟨rfl, rfl⟩
  | some p => rw [hc] at h; nomatch h

theorem match_field_within {tag : Tag} {v r : List UInt8} (h : matchField u tag = .done v r) : Within u v r := by
  rw [matchField] at h
  cases ht : parseTag u with
  | stop ret r' => rw [ht] at h; nomatch h
  | done t r' =>
    rw [ht] at h
    simp only at h
    split at h
    · nomatch h
    · exact (parse_value_within h).trans (parse_tag_suffix.1 t r' ht)

theorem match_field_suffix {tag : Tag} {ret : MsgState} {r : List UInt8} (h : matchField u tag = .stop ret r) :
    r <:+ u := by
  rw [matchField] at h
  cases ht : parseTag u with
  | stop ret' r' =>
    rw [ht] at h
    cases h
    exact (next_tag_suffix r').trans (parse_tag_suffix.2 _ r' ht)
  | done t r' =>
    rw [ht] at h
    simp only at h
    split at h
    · cases h
      exact (next_tag_suffix r').trans (parse_tag_suffix.1 t r' ht)
    · rw [(parse_value_stop h).2]
      exact List.nil_suffix

theorem parse_field_within {t : Tag} {v r : List UInt8} (h : parseField u = .done (t, v) r) : Within u v r := by
  rw [parseField] at h
  cases ht : parseTag u with
  | stop ret r' => rw [ht] at h; nomatch h
  | done t' r' =>
    rw [ht] at h
    simp only at h
    cases hv : parseValue r' with
    | stop ret r'' => rw [hv] at h; nomatch h
    | done v' r'' =>
      rw [hv] at h
      cases h
      exact (parse_value_within hv).trans (parse_tag_suffix.1 _ r' ht)

/-- A tag other than 0 has a digit. -/
theorem tag_length {t : List UInt8} (h : fixUatoi t ≠ 0) : 1 ≤ t.length := by
  cases t with
  | nil => exact absurd rfl h
  | cons c t => exact Nat.succ_le_succ (Nat.zero_le _)

/-- A tag from 10 on has two. -/
theorem tag_length_two {t : List UInt8} (h : 10 ≤ (fixUatoi t).toNat) : 2 ≤ t.length := by
  match t, h with
  | [], h => exact absurd h (by decide)
  | [c], h =>
    exfalso
    rw [fixUatoi, atoiFrom] at h
    split at h
    · rename_i digit
      have range := is_digit_iff.1 digit
      have one : (0 * 10 + BitVec.ofNat 32 (digitValue c) : BitVec 32) = .ofNat 32 (digitValue c) := by simp
      rw [atoiFrom, one, BitVec.toNat_ofNat, digitValue] at h
      omega
    · exact absurd h (by decide)
  | _ :: _ :: t, _ => exact Nat.succ_le_succ (Nat.succ_le_succ (Nat.zero_le _))

/-- Where the values of a frame stand in the bytes it was read from. -/
structure Frame.Inside (f : Frame) (u r : List UInt8) : Prop where
  rest : r <:+ u
  beginString : f.beginString + 2 ≤ u.length
  msgType : f.msgType + 3 ≤ u.length
  behind : r.length < f.msgType

/-- A BodyLength is a field with a number that a message can have as its length. -/
theorem body_length_done {u r : List UInt8} {x : U64} (h : parseBodyLength u = .done x r) :
    ∃ v, matchField u Tag.bodyLength = .done v r ∧ x = (fixUatoi v).signExtend 64 ∧
      0 < (fixUatoi v).toInt ∧ (fixUatoi v).toInt ≤ fixMaxMessageSize := by
  rw [parseBodyLength] at h
  cases hm : matchField u Tag.bodyLength with
  | stop ret r' => rw [hm] at h; nomatch h
  | done v r' =>
    rw [hm] at h
    simp only at h
    split at h
    · nomatch h
    · rename_i range
      cases h
      exact ⟨v, rfl, rfl, by omega, by omega⟩

/-- It stops where the field does, or behind a field with another number. -/
theorem body_length_stop {u r : List UInt8} {ret : MsgState} (h : parseBodyLength u = .stop ret r) :
    matchField u Tag.bodyLength = .stop ret r ∨ ∃ v, matchField u Tag.bodyLength = .done v r := by
  rw [parseBodyLength] at h
  cases hm : matchField u Tag.bodyLength with
  | stop ret r' => rw [hm] at h; cases h; exact .inl rfl
  | done v r' =>
    rw [hm] at h
    simp only at h
    split at h
    · cases h; exact .inr ⟨v, rfl⟩
    · nomatch h

theorem body_length_rest {u r : List UInt8} {x : U64} (h : parseBodyLength u = .done x r) : r <:+ u := by
  obtain ⟨v, hm, -⟩ := body_length_done h
  exact (match_field_within hm).rest

theorem body_length_suffix {u r : List UInt8} {ret : MsgState} (h : parseBodyLength u = .stop ret r) : r <:+ u := by
  rcases body_length_stop h with hm | ⟨v, hm⟩
  · exact match_field_suffix hm
  · exact (match_field_within hm).rest

/-- An `int` that is not negative, as an `unsigned long`. -/
theorem extend_small {x : BitVec 32} (h : 0 ≤ x.toInt) : (x.signExtend 64).toNat = x.toNat := by
  have pos : x.msb = false := by
    rw [BitVec.msb_eq_toInt]
    simpa using h
  rw [BitVec.signExtend_eq_setWidth_of_msb_false pos, BitVec.toNat_setWidth]
  exact Nat.mod_eq_of_lt (by have := x.isLt; omega)

theorem to_int_small {x : BitVec 32} (h : 0 ≤ x.toInt) : x.toInt = x.toNat := by
  have pos : x.msb = false := by
    rw [BitVec.msb_eq_toInt]
    simpa using h
  rw [BitVec.toInt_eq_msb_cond, pos]
  rfl

/-- A BodyLength is in range. -/
theorem body_length_bound {u r : List UInt8} {x : U64} (h : parseBodyLength u = .done x r) :
    0 < x.toNat ∧ x.toNat ≤ fixMaxMessageSize := by
  obtain ⟨v, -, rfl, positive, most⟩ := body_length_done h
  have int := to_int_small (x := fixUatoi v) (by omega)
  rw [extend_small (by omega)]
  omega

theorem msg_type_within {u v r : List UInt8} {t : MsgType} {flags : U64}
    (h : parseMsgType u flags = .done (v, t) r) : matchField u Tag.msgType = .done v r := by
  rw [parseMsgType] at h
  cases hm : matchField u Tag.msgType with
  | stop ret r => rw [hm] at h; nomatch h
  | done v' r' =>
    rw [hm] at h
    simp only at h
    split at h
    · cases h; rfl
    · split at h
      · nomatch h
      · cases h; rfl

/-- A MsgType stops where the field does, or behind a field with a type that is not known. -/
theorem msg_type_stop {u r : List UInt8} {ret : MsgState} {flags : U64} (h : parseMsgType u flags = .stop ret r) :
    matchField u Tag.msgType = .stop ret r ∨ ∃ v, matchField u Tag.msgType = .done v r := by
  rw [parseMsgType] at h
  cases hm : matchField u Tag.msgType with
  | stop ret' r' => rw [hm] at h; cases h; exact .inl rfl
  | done v' r' =>
    rw [hm] at h
    simp only at h
    split at h
    · nomatch h
    · split at h
      · cases h; exact .inr ⟨v', rfl⟩
      · nomatch h

theorem msg_type_suffix {u r : List UInt8} {ret : MsgState} {flags : U64} (h : parseMsgType u flags = .stop ret r) :
    r <:+ u := by
  rcases msg_type_stop h with hm | ⟨v, hm⟩
  · exact match_field_suffix hm
  · exact (match_field_within hm).rest

/-- The three fields, one after the other. -/
theorem first_three_done {u r : List UInt8} {f : Frame} {flags : U64} (h : firstThreeFields u flags = .done f r) :
    ∃ bs r₁ r₂ mt, matchField u Tag.beginString = .done bs r₁ ∧ parseBodyLength r₁ = .done f.bodyLength r₂ ∧
      parseMsgType r₂ flags = .done (mt, f.type) r ∧ f.beginString = leftFrom bs r₁ ∧ f.msgType = leftFrom mt r := by
  rw [firstThreeFields] at h
  cases h8 : matchField u Tag.beginString with
  | stop ret r => rw [h8] at h; nomatch h
  | done bs r₁ =>
    rw [h8] at h
    simp only at h
    cases h9 : parseBodyLength r₁ with
    | stop ret r => rw [h9] at h; nomatch h
    | done len r₂ =>
      rw [h9] at h
      simp only at h
      cases h35 : parseMsgType r₂ flags with
      | stop ret r => rw [h35] at h; nomatch h
      | done p r₃ =>
        obtain ⟨mt, type⟩ := p
        rw [h35] at h
        cases h
        exact ⟨bs, r₁, r₂, mt, rfl, h9, h35, rfl, rfl⟩

/-- The field that stops the three is the first, the second or the third. -/
theorem first_three_stop {u r : List UInt8} {ret : MsgState} {flags : U64}
    (h : firstThreeFields u flags = .stop ret r) :
    matchField u Tag.beginString = .stop ret r ∨
      ∃ bs r₁, matchField u Tag.beginString = .done bs r₁ ∧
        (parseBodyLength r₁ = .stop ret r ∨
          ∃ len r₂, parseBodyLength r₁ = .done len r₂ ∧ parseMsgType r₂ flags = .stop ret r) := by
  rw [firstThreeFields] at h
  cases h8 : matchField u Tag.beginString with
  | stop ret r => rw [h8] at h; cases h; exact .inl rfl
  | done bs r₁ =>
    rw [h8] at h
    refine .inr ⟨bs, r₁, rfl, ?_⟩
    simp only at h
    cases h9 : parseBodyLength r₁ with
    | stop ret r => rw [h9] at h; cases h; exact .inl rfl
    | done len r₂ =>
      rw [h9] at h
      refine .inr ⟨len, r₂, rfl, ?_⟩
      simp only at h
      cases h35 : parseMsgType r₂ flags with
      | stop ret r => rw [h35] at h; cases h; rfl
      | done p r₃ => rw [h35] at h; nomatch h

theorem first_three_inside {u r : List UInt8} {f : Frame} {flags : U64}
    (h : firstThreeFields u flags = .done f r) : f.Inside u r := by
  obtain ⟨bs, r₁, r₂, mt, h8, h9, h35, beginString, msgType⟩ := first_three_done h
  obtain ⟨t8, whole, -, tag8, -⟩ := match_field_done.1 h8
  obtain ⟨t35, second, -, tag35, -⟩ := match_field_done.1 (msg_type_within h35)
  have := tag_length (t := t8) (by rw [tag8]; decide)
  have := tag_length_two (t := t35) (by rw [tag35]; decide)
  have rest := body_length_rest h9
  have one := congrArg List.length whole
  have two := congrArg List.length second
  have := rest.length_le
  simp only [List.length_append, length_field_text] at one two
  rw [leftFrom] at beginString msgType
  refine ⟨?_, ?_, ?_, ?_⟩
  · rw [whole]
    exact ((match_field_within (msg_type_within h35)).rest.trans rest).trans (List.suffix_append _ _)
  all_goals omega

theorem first_three_bound {u r : List UInt8} {f : Frame} {flags : U64} (h : firstThreeFields u flags = .done f r) :
    0 < f.bodyLength.toNat ∧ f.bodyLength.toNat ≤ fixMaxMessageSize := by
  obtain ⟨bs, r₁, r₂, mt, -, h9, -, -, -⟩ := first_three_done h
  exact body_length_bound h9

theorem first_three_suffix {u r : List UInt8} {ret : MsgState} {flags : U64}
    (h : firstThreeFields u flags = .stop ret r) : r <:+ u := by
  rcases first_three_stop h with h8 | ⟨bs, r₁, h8, h9 | ⟨len, r₂, h9, h35⟩⟩
  · exact match_field_suffix h8
  · exact (body_length_suffix h9).trans (match_field_within h8).rest
  · exact (msg_type_suffix h35).trans ((body_length_rest h9).trans (match_field_within h8).rest)

theorem checksum_suffix {u r r' : List UInt8} {f : Frame} {flags : U64} {ret : MsgState} (hf : f.Inside u r)
    (h : checksum u f r flags = .stop ret r') : r' <:+ u := by
  rw [checksum] at h
  split at h
  · cases h; exact hf.rest
  · split at h
    · nomatch h
    · split at h
      · rename_i hm
        cases h
        exact (match_field_suffix hm).trans (last_suffix _ _)
      · rename_i hm
        split at h
        · nomatch h
        · cases h
          exact (match_field_within hm).rest.trans (last_suffix _ _)

/-- An attempt is stopped by its first three fields or by the CheckSum, never by the fields between. -/
theorem attempt_stop {F : Type u} [Doubles F] {dialect : Dialect} {flags q : U64} {u r : List UInt8}
    {ret : MsgState} (h : attempt (F := F) dialect flags q u = .stop ret r) :
    firstThreeFields u flags = .stop ret r ∨
      ∃ f r₃, firstThreeFields u flags = .done f r₃ ∧ checksum u f r₃ flags = .stop ret r := by
  rw [attempt] at h
  cases h3 : firstThreeFields u flags with
  | stop ret r' => rw [h3] at h; cases h; exact .inl rfl
  | done f r₃ =>
    rw [h3] at h
    refine .inr ⟨f, r₃, rfl, ?_⟩
    simp only at h
    cases hc : checksum u f r₃ flags with
    | stop ret r' => rw [hc] at h; cases h; rfl
    | done x r' =>
      rw [hc] at h
      simp only at h
      split at h <;> nomatch h

/-- A failed attempt leaves a suffix of the bytes. -/
theorem attempt_suffix {F : Type u} [Doubles F] {dialect : Dialect} {flags q : U64} {u r : List UInt8}
    {ret : MsgState} (h : attempt (F := F) dialect flags q u = .stop ret r) : r <:+ u := by
  rcases attempt_stop h with h3 | ⟨f, r₃, h3, hc⟩
  · exact first_three_suffix h3
  · exact checksum_suffix (first_three_inside h3) hc

end Bytes

/-! ## Numbers and types do not look past their text -/

theorem atoi_from_append (w : Nat) (ret : BitVec w) (t : List UInt8) {c : UInt8} (hc : isDigit c = false)
    (s : List UInt8) : atoiFrom w ret (t ++ c :: s) = atoiFrom w ret t := by
  induction t generalizing ret with
  | nil => simp only [List.nil_append, atoiFrom, hc, Bool.false_eq_true, if_false]
  | cons x t ih => rw [List.cons_append, atoiFrom, atoiFrom, ih]

theorem uatoi_append (t : List UInt8) {c : UInt8} (hc : isDigit c = false) (s : List UInt8) :
    fixUatoi (t ++ c :: s) = fixUatoi t :=
  atoi_from_append 32 0 t hc s

theorem atoi64_cons (c : UInt8) (s : List UInt8) :
    fixAtoi64 (c :: s) = if c = '-'.toNat.toUInt8 then -atoiFrom 64 0 s else atoiFrom 64 0 (c :: s) := rfl

theorem atoi64_append (v s : List UInt8) : fixAtoi64 (v ++ 1 :: s) = fixAtoi64 (v ++ [1]) := by
  have same (t : List UInt8) : atoiFrom 64 0 (t ++ 1 :: s) = atoiFrom 64 0 (t ++ [1]) := by
    rw [atoi_from_append 64 0 t rfl s, atoi_from_append 64 0 t rfl []]
  cases v with
  | nil =>
    have plus : ¬ (1 : UInt8) = '-'.toNat.toUInt8 := by decide
    have front := same []
    rw [List.nil_append, List.nil_append] at front ⊢
    rw [atoi64_cons, atoi64_cons, if_neg plus, if_neg plus, front]
  | cons c v =>
    have front := same (c :: v)
    rw [List.cons_append, List.cons_append] at front ⊢
    rw [atoi64_cons, atoi64_cons, same v, front]

theorem uatoi_end_append (t : List UInt8) {c : UInt8} (hc : isDigit c = false) (s : List UInt8) :
    fixUatoiEnd (t ++ c :: s) = t.length ↔ t.all isDigit = true := by
  have short : (t.takeWhile isDigit).length = t.length ↔ t.all isDigit = true := by
    rw [List.all_eq_true]
    exact ⟨fun h => List.takeWhile_eq_self_iff.1 ((List.takeWhile_prefix _).eq_of_length h),
      fun h => by rw [List.takeWhile_eq_self_iff.2 h]⟩
  rw [fixUatoiEnd, ← short, List.takeWhile_append]
  split
  · rename_i all
    rw [List.takeWhile_cons_of_neg (by rw [hc]; exact Bool.false_ne_true), List.append_nil]
    exact ⟨fun _ => all, fun _ => rfl⟩
  · exact Iff.rfl

/-- The type of a text depends on the text up to its SOH. -/
theorem type_append {v : List UInt8} (hv : 1 ∉ v) (s : List UInt8) :
    fixMsgTypeParse (v ++ 1 :: s) 1 = Bytes.typeOf v := by
  match v, hv with
  | [], _ =>
    have single : singleMsgType 1 = .unknown := rfl
    have two (c : UInt8) : ¬ [1, c] = chars "AF" ∧ ¬ [1, c] = chars "CA" ∧ ¬ [1, c] = chars "BZ" := by
      refine ⟨?_, ?_, ?_⟩ <;> exact fun h => absurd (List.cons.inj h).1 (by decide)
    have empty : Bytes.typeOf [] = .unknown := rfl
    rw [empty, List.nil_append, fixMsgTypeParse]
    split
    · cases s with
      | nil => rfl
      | cons c s => simp [two]
    · exact single
  | [a], _ => rfl
  | [a, c], _ => rfl
  | a :: c :: d :: v, _ => exact msg_type_of_front rfl

/-! ## The readers -/

section
variable {b : Buffer}

theorem digit_equals : isDigit '='.toNat.toUInt8 = false := rfl

theorem parse_tag_eq (hv : b.Valid) {r : List UInt8} (hr : r <:+ b.unread) :
    parseTag (b.leaving r.length) = (Bytes.parseTag r).on b := by
  rw [parseTag, find_leaving hv hr, Bytes.parseTag]
  cases hc : cut '='.toNat.toUInt8 r with
  | none => rfl
  | some p =>
    obtain ⟨t, r'⟩ := p
    obtain ⟨rfl, -⟩ := cut_eq_some.1 hc
    have hl := hr.length_le
    rw [length_unread hv] at hl
    simp only [List.length_append, List.length_cons] at hl
    have memory : b.data.drop (b.leaving (t ++ '='.toNat.toUInt8 :: r').length).start =
        t ++ '='.toNat.toUInt8 :: (r' ++ b.data.drop b.stop) := by
      rw [leaving, data_drop hv hr, List.append_assoc, List.cons_append]
    have place : (b.leaving (t ++ '='.toNat.toUInt8 :: r').length).start + t.length =
        (b.leaving (r'.length + 1)).start := by
      simp only [leaving, List.length_append, List.length_cons]
      omega
    have whole := uatoi_end_append t digit_equals (r' ++ b.data.drop b.stop)
    have behind : (b.leaving (r'.length + 1)).bufferAdvance 1 = b.leaving r'.length := by
      simp only [leaving, bufferAdvance]
      congr 1
      omega
    simp only [leaving_data, memory, behind, uatoi_append t digit_equals]
    by_cases digits : t.all isDigit = true
    · rw [if_pos digits, if_neg (by rw [whole.2 digits, place]; exact fun h => h rfl)]
      rfl
    · rw [if_neg digits, if_pos (by rw [← place]; exact fun h => digits (whole.1 (by omega)))]
      rfl

theorem parse_value_eq (hv : b.Valid) {r : List UInt8} (hr : r <:+ b.unread) :
    parseValue (b.leaving r.length) = (Bytes.parseValue r).at b := by
  rw [parseValue, find_leaving hv hr, Bytes.parseValue]
  cases hc : cut 1 r with
  | none => rfl
  | some p =>
    obtain ⟨v, r'⟩ := p
    have hl := hr.length_le
    rw [length_unread hv, cut_length hc] at hl
    have behind : (b.leaving (r'.length + 1)).bufferAdvance 1 = b.leaving r'.length := by
      simp only [leaving, bufferAdvance]
      congr 1
      omega
    simp only [behind, Scan.at, Bytes.leftFrom]
    rw [leaving, cut_length hc]

theorem next_tag_eq (hv : b.Valid) {r : List UInt8} (hr : r <:+ b.unread) :
    nextTag (b.leaving r.length) = b.leaving (Bytes.nextTag r).length := by
  rw [nextTag, find_leaving hv hr, Bytes.nextTag]
  cases hc : cut 1 r with
  | none => rfl
  | some p =>
    obtain ⟨v, r'⟩ := p
    have hl := hr.length_le
    rw [length_unread hv, cut_length hc] at hl
    simp only [leaving, bufferAdvance]
    congr 1
    omega

theorem match_field_eq (hv : b.Valid) {r : List UInt8} (hr : r <:+ b.unread) (tag : Tag) :
    matchField (b.leaving r.length) tag = (Bytes.matchField r tag).at b := by
  rw [matchField, parse_tag_eq hv hr, Bytes.matchField]
  have rest := @Bytes.parse_tag_suffix r
  cases ht : Bytes.parseTag r with
  | stop ret r' =>
    have := next_tag_eq hv ((rest.2 _ _ ht).trans hr)
    simp only [Scan.on, Scan.at, this]
  | done t r' =>
    have hr' := (rest.1 _ _ ht).trans hr
    simp only [Scan.on]
    split
    · simp only [Scan.at, next_tag_eq hv hr']
    · exact parse_value_eq hv hr'

theorem parse_field_eq (hv : b.Valid) {r : List UInt8} (hr : r <:+ b.unread) :
    parseField (b.leaving r.length) =
      match Bytes.parseField r with
      | .stop ret r => .stop ret (b.leaving r.length)
      | .done (tag, v) r => .done (tag, b.stop - Bytes.leftFrom v r) (b.leaving r.length) := by
  rw [parseField, parse_tag_eq hv hr, Bytes.parseField]
  have rest := @Bytes.parse_tag_suffix r
  cases ht : Bytes.parseTag r with
  | stop ret r' =>
    have := next_tag_eq hv ((rest.2 _ _ ht).trans hr)
    simp only [Scan.on, this]
  | done t r' =>
    simp only [Scan.on, parse_value_eq hv ((rest.1 _ _ ht).trans hr)]
    cases Bytes.parseValue r' <;> rfl

/-- The memory from a value on: its text, its SOH, what is left behind it and what lies behind the
buffer's end. -/
theorem memory_value (hv : b.Valid) {v r : List UInt8} (h : Within b.unread v r) :
    b.data.drop (b.stop - Bytes.leftFrom v r) = v ++ 1 :: (r ++ b.data.drop b.stop) := by
  rw [left_from, data_drop hv h.suffix, List.append_assoc, List.cons_append]

theorem soh_no_digit : isDigit 1 = false := rfl

theorem uatoi_memory (hv : b.Valid) {v r : List UInt8} (h : Within b.unread v r) :
    fixUatoi (b.data.drop (b.stop - Bytes.leftFrom v r)) = fixUatoi v := by
  rw [memory_value hv h, uatoi_append v soh_no_digit]

theorem parse_body_length_eq (hv : b.Valid) {r : List UInt8} (hr : r <:+ b.unread) :
    parseBodyLength (b.leaving r.length) = (Bytes.parseBodyLength r).on b := by
  rw [parseBodyLength, match_field_eq hv hr, Bytes.parseBodyLength]
  cases hm : Bytes.matchField r Tag.bodyLength with
  | stop ret r' => rfl
  | done v r' =>
    simp only [Scan.at, leaving_data, uatoi_memory hv ((Bytes.match_field_within hm).trans hr)]
    split <;> rfl

theorem parse_msg_type_eq (hv : b.Valid) {r : List UInt8} (hr : r <:+ b.unread) (flags : U64) :
    parseMsgType (b.leaving r.length) flags =
      match Bytes.parseMsgType r flags with
      | .stop ret r => .stop ret (b.leaving r.length)
      | .done (v, type) r => .done (b.stop - Bytes.leftFrom v r, type) (b.leaving r.length) := by
  rw [parseMsgType, match_field_eq hv hr, Bytes.parseMsgType]
  cases hm : Bytes.matchField r Tag.msgType with
  | stop ret r' => rfl
  | done v r' =>
    have within := (Bytes.match_field_within hm).trans hr
    simp only [Scan.at, leaving_data, memory_value hv within, type_append within.soh]
    split
    · rfl
    · split <;> rfl

/-- A frame with its values named by index. -/
def Bytes.Frame.on (b : Buffer) (f : Bytes.Frame) : Fix.Frame :=
  ⟨b.stop - f.beginString, f.bodyLength, b.stop - f.msgType, f.type⟩

theorem first_three_eq (hv : b.Valid) {r : List UInt8} (hr : r <:+ b.unread) (flags : U64) :
    firstThreeFields (b.leaving r.length) flags =
      match Bytes.firstThreeFields r flags with
      | .stop ret r => .stop ret (b.leaving r.length)
      | .done f r => .done (f.on b) (b.leaving r.length) := by
  rw [firstThreeFields, match_field_eq hv hr, Bytes.firstThreeFields]
  cases h8 : Bytes.matchField r Tag.beginString with
  | stop ret r' => rfl
  | done bs r₁ =>
    have one := (Bytes.match_field_within h8).rest.trans hr
    simp only [Scan.at, parse_body_length_eq hv one]
    cases h9 : Bytes.parseBodyLength r₁ with
    | stop ret r' => rfl
    | done len r₂ =>
      have two := (Bytes.body_length_rest h9).trans one
      simp only [Scan.on, parse_msg_type_eq hv two]
      cases Bytes.parseMsgType r₂ flags with
      | stop ret r' => rfl
      | done p r₃ => rfl

/-- The bytes between two places, as a sum over the unread ones. -/
theorem sum_left (hv : b.Valid) {u : List UInt8} (hu : u <:+ b.unread) {m n : Nat} (hm : m ≤ u.length) :
    bufferSumRange b.data (b.stop - m) (b.stop - n) = Bytes.sumLeft u m n := by
  have hl := hu.length_le
  rw [length_unread hv] at hl
  have place := data_drop hv ((last_suffix m u).trans hu)
  rw [length_last hm] at place
  have start : b.stop - n - (b.stop - m) = m - n := by omega
  rw [bufferSumRange, List.drop_take, start, place, Bytes.sumLeft,
    List.take_append_of_le_length (by rw [length_last hm]; omega)]

theorem checksum_eq (hv : b.Valid) {u r : List UInt8} (hu : u <:+ b.unread) {f : Bytes.Frame} (hf : f.Inside u r)
    (flags : U64) :
    (∃ c, checksum (f.on b) (b.leaving r.length) flags = .done c (b.leaving r.length) ∧
      Bytes.checksum u f r flags = .done () r) ∨
    ∃ ret r', r' <:+ u ∧ checksum (f.on b) (b.leaving r.length) flags = .stop ret (b.leaving r'.length) ∧
      Bytes.checksum u f r flags = .stop ret r' := by
  have hl := hu.length_le
  rw [length_unread hv] at hl
  obtain ⟨rest, begins, type, behind⟩ := hf
  have hr := rest.trans hu
  have size : (b.leaving r.length).bufferSize = r.length := by
    obtain ⟨hv', hx⟩ := unread_leaving hv hr
    rw [hv'.size_eq, ← length_unread hv', hx]
  have offset : (b.leaving r.length).start - ((f.on b).msgType - 3) = f.msgType + 3 - r.length := by
    simp only [leaving, Bytes.Frame.on]
    omega
  have whole : r.length + (f.msgType + 3 - r.length) = f.msgType + 3 := by omega
  have len : (f.on b).bodyLength = f.bodyLength := rfl
  rw [checksum, Bytes.checksum, size, offset, whole, ← len]
  by_cases short : f.msgType + 3 < (f.on b).bodyLength.toNat + 7
  · simp only [if_pos short]
    exact .inr ⟨_, r, rest, rfl, rfl⟩
  · simp only [if_neg short]
    by_cases no : flags &&& noCsum ≠ 0
    · simp only [if_pos no]
      exact .inl ⟨none, rfl, trivial⟩
    · simp only [if_neg no]
      have inside : f.msgType + 3 - (f.on b).bodyLength.toNat ≤ u.length := by omega
      have place : (b.leaving r.length).rewind ((b.leaving r.length).start + (f.on b).bodyLength.toNat -
          (f.msgType + 3 - r.length)) = b.leaving (last (f.msgType + 3 - (f.on b).bodyLength.toNat) u).length := by
        rw [length_last inside]
        simp only [leaving, rewind]
        congr 1
        omega
      have suffix := (last_suffix (f.msgType + 3 - (f.on b).bodyLength.toNat) u)
      rw [place, match_field_eq hv (suffix.trans hu)]
      cases hm : Bytes.matchField (last (f.msgType + 3 - (f.on b).bodyLength.toNat) u) Tag.checkSum with
      | stop ret r' => exact .inr ⟨ret, r', (Bytes.match_field_suffix hm).trans suffix, rfl, rfl⟩
      | done v r' =>
        have within := (Bytes.match_field_within hm).trans suffix
        have verify : verifyChecksum (f.on b) (b.stop - Bytes.leftFrom v r') (b.leaving r'.length) =
            Bytes.verifyChecksum u f v r' := by
          rw [verifyChecksum, Bytes.verifyChecksum, leaving_data, uatoi_memory hv (within.trans hu), Bytes.Frame.on,
            Nat.sub_sub, Nat.sub_sub, sum_left hv hu begins]
        simp only [Scan.at, verify]
        by_cases ok : Bytes.verifyChecksum u f v r' = true
        · simp only [ok, if_true]
          exact .inl ⟨_, rfl, trivial⟩
        · simp only [ok, Bool.false_eq_true, if_false]
          exact .inr ⟨_, r', within.rest, rfl, rfl⟩

end

/-! ## The fields and the message -/

section
variable {F : Type u} [Doubles F] {b : Buffer}

/-- A field with a STRING cut at its SOH. -/
def FixField.text (f : FixField F) : FixField F := ⟨f.tag, Bytes.text f.value⟩

/-- What a user of the fields sees of them. -/
def Rest.text (r : Rest F) : Rest F := ⟨r.msgSeqNum, r.fields.map FixField.text⟩

theorem take_until_soh {v : List UInt8} (h : 1 ∉ v) (s : List UInt8) : (v ++ 1 :: s).takeWhile (· ≠ 1) = v := by
  rw [List.takeWhile_append_of_pos fun c hc => by simpa using fun e : c = 1 => h (e ▸ hc)]
  simp

theorem stored_text (type : FixType) {v : List UInt8} (h : 1 ∉ v) (s : List UInt8) :
    (storedValue type (v ++ 1 :: s) : Option (FieldValue F)).map Bytes.text =
      (storedValue type (v ++ [1])).map Bytes.text := by
  cases type with
  | int => simp only [storedValue, atoi64_append]
  | float => simp only [storedValue, take_until_soh h]
  | char => cases v <;> rfl
  | string => simp only [storedValue, Option.map_some, Bytes.text, take_until_soh h]
  | checkSum | msgSeqNum | string8 => rfl

/-- The field loop of the source and the one on the bytes. -/
theorem rest_from_eq (dialect : Dialect) (hv : b.Valid) (n : Nat) (s : Rest F) {r : List UInt8}
    (hr : r <:+ b.unread) :
    (restOfMessageFrom dialect n s (b.leaving r.length)).map (fun p => (p.1.text, p.2)) =
      (Bytes.restOfMessageFrom dialect n s.text r).map fun p => (p.1, b.leaving p.2.length) := by
  induction n generalizing s r with
  | zero => rfl
  | succ n ih =>
    rw [restOfMessageFrom, parse_field_eq hv hr, Bytes.restOfMessageFrom]
    cases hf : Bytes.parseField r with
    | stop ret r' => rfl
    | done p r' =>
      obtain ⟨tag, v⟩ := p
      have within := (Bytes.parse_field_within hf).trans hr
      have memory := memory_value hv within
      have stored := stored_text (F := F) (dialect.tagType tag) within.soh (r' ++ b.data.drop b.stop)
      simp only [leaving_data, memory]
      cases type : dialect.tagType tag with
      | checkSum => rfl
      | msgSeqNum =>
        rw [uatoi_append v soh_no_digit]
        exact ih _ within.rest
      | int | float | char | string | string8 =>
        rw [type] at stored
        simp only
        cases one : (storedValue _ (v ++ 1 :: (r' ++ b.data.drop b.stop)) : Option (FieldValue F)) with
        | none =>
          rw [one] at stored
          rw [Option.map_eq_none_iff.1 stored.symm]
          exact ih s within.rest
        | some x =>
          rw [one] at stored
          obtain ⟨y, two, same⟩ := Option.map_eq_some_iff.1 stored.symm
          have length : s.text.fields.length = s.fields.length := List.length_map _
          simp only [two, length]
          split
          · have := ih { s with fields := s.fields ++ [⟨tag, x⟩] } within.rest
            rw [this]
            simp only [Rest.text, List.map_append, List.map_cons, List.map_nil, FixField.text, same]
          · rfl

/-- What a message reports to its user. -/
def FixMessage.report (m : FixMessage F) : Bytes.Report F :=
  ⟨m.type, m.bodyLength, Rest.text ⟨m.msgSeqNum, m.fields⟩⟩

/-- A result of `fix_message_parse` on `b`, and one on the unread bytes: the same message, the same
bytes left, and only the start of the buffer moved. -/
inductive Agrees (b : Buffer) : Parsed F → Bytes.Parsed F → Prop
  | message (m : FixMessage F) {left : Nat} {r : List UInt8} (start : left ≤ b.unread.length) (rest : r <:+ b.unread) :
      Agrees b (.message m (b.stop - left) (b.leaving r.length)) (.message m.report left r)
  | waits {r : List UInt8} (rest : r <:+ b.unread) : Agrees b (.waits (b.leaving r.length)) (.waits r)
  | fault : Agrees b .fault .fault

theorem size_leaving (hv : b.Valid) {r : List UInt8} (hr : r <:+ b.unread) :
    (b.leaving r.length).bufferSize = r.length := by
  obtain ⟨hv', hu⟩ := unread_leaving hv hr
  rw [hv'.size_eq, ← length_unread hv', hu]

theorem rest_suffix (dialect : Dialect) (n : Nat) (s s' : Rest F) {u r : List UInt8}
    (h : Bytes.restOfMessageFrom dialect n s u = some (s', r)) : r <:+ u := by
  induction n generalizing s u with
  | zero => cases h; exact List.suffix_refl _
  | succ n ih =>
    rw [Bytes.restOfMessageFrom] at h
    cases hf : Bytes.parseField u with
    | stop ret r' =>
      rw [hf] at h
      cases h
      rw [Bytes.parseField] at hf
      cases ht : Bytes.parseTag u with
      | stop ret' r'' =>
        rw [ht] at hf
        cases hf
        exact (Bytes.next_tag_suffix r'').trans (Bytes.parse_tag_suffix.2 _ r'' ht)
      | done t r'' =>
        rw [ht] at hf
        simp only at hf
        cases hval : Bytes.parseValue r'' with
        | stop ret' w =>
          rw [hval] at hf
          cases hf
          rw [(Bytes.parse_value_stop hval).2]
          exact List.nil_suffix
        | done v w => rw [hval] at hf; nomatch hf
    | done p r' =>
      obtain ⟨tag, v⟩ := p
      have rest := (Bytes.parse_field_within hf).rest
      rw [hf] at h
      simp only at h
      cases type : dialect.tagType tag with
      | checkSum => rw [type] at h; cases h; exact rest
      | msgSeqNum => rw [type] at h; exact (ih _ h).trans rest
      | int | float | char | string | string8 =>
        rw [type] at h
        simp only at h
        split at h
        · exact (ih _ h).trans rest
        · split at h
          · exact (ih _ h).trans rest
          · nomatch h

/-- What one attempt of the source does, given what it does on the bytes. -/
theorem parse_from_agrees (dialect : Dialect) (flags : U64) (hv : b.Valid) (n : Nat) (self : FixMessage F)
    {r : List UInt8} (hr : r <:+ b.unread) :
    Agrees b (fixMessageParseFrom dialect flags n self (b.leaving r.length))
      (Bytes.parseFrom dialect flags self.msgSeqNum n r) := by
  induction n generalizing r with
  | zero => exact .waits hr
  | succ n ih =>
    rw [fixMessageParseFrom, size_leaving hv hr, Bytes.parseFrom, Bytes.attempt]
    by_cases none_left : r = []
    · rw [if_pos (by rw [none_left]; rfl), if_pos none_left]
      exact .waits hr
    · rw [if_neg (fun h => none_left (List.length_eq_zero_iff.1 h)), if_neg none_left, first_three_eq hv hr flags]
      cases h3 : Bytes.firstThreeFields r flags with
      | stop ret r' =>
        cases ret with
        | msgPartial => exact .waits hr
        | garbled => exact ih ((Bytes.first_three_suffix h3).trans hr)
      | done f r₃ =>
        have inside := Bytes.first_three_inside h3
        simp only
        rcases checksum_eq hv hr inside flags with ⟨c, source, bytes⟩ | ⟨ret, r', suffix, source, bytes⟩
        · simp only [source, bytes]
          have fields := rest_from_eq (F := F) dialect hv (r₃.length + 1) ⟨self.msgSeqNum, []⟩ (inside.rest.trans hr)
          have initial : Rest.text (F := F) ⟨self.msgSeqNum, []⟩ = ⟨self.msgSeqNum, []⟩ := rfl
          rw [initial] at fields
          rw [restOfMessage, size_leaving hv (inside.rest.trans hr)]
          cases hb : Bytes.restOfMessageFrom (F := F) dialect (r₃.length + 1) ⟨self.msgSeqNum, []⟩ r₃ with
          | none =>
            rw [hb] at fields
            rw [Option.map_eq_none_iff.1 fields]
            exact .fault
          | some p =>
            obtain ⟨s', r'⟩ := p
            rw [hb] at fields
            obtain ⟨⟨s, b'⟩, hs, heq⟩ := Option.map_eq_some_iff.1 fields
            simp only [Prod.mk.injEq] at heq
            obtain ⟨rfl, rfl⟩ := heq
            rw [hs]
            have suffix := rest_suffix dialect _ _ _ hb
            exact .message (self.parsed (f.on b) c s b.data) hr.length_le (suffix.trans (inside.rest.trans hr))
        · simp only [source, bytes]
          cases ret with
          | msgPartial => exact .waits hr
          | garbled => exact ih (suffix.trans hr)

/-- **The parser reads the unread bytes.** What `fix_message_parse` reports and how far it goes is a
function of the unread bytes and of the sequence number the message held before. -/
theorem parse_agrees (dialect : Dialect) (flags : U64) (hv : b.Valid) (self : FixMessage F) :
    Agrees b (fixMessageParse dialect flags self b) (Bytes.parse dialect flags self.msgSeqNum b.unread) := by
  have := parse_from_agrees dialect flags hv (b.unread.length + 1) self (List.suffix_refl b.unread)
  rw [leaving_self hv] at this
  have size : b.bufferSize = b.unread.length := by rw [hv.size_eq, length_unread hv]
  rw [fixMessageParse, size, Bytes.parse]
  exact this

end

end Fix

end Libtrading
