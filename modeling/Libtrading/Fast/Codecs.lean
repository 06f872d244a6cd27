import Libtrading.Fast.Codec

/-!
# The four field types

INT, UINT, ASCII STRING and atomic DECIMAL meet `Codec.Laws`: what
`fast_encode_*` puts for a value, a difference or `NULL` is what
`fast_decode_*` reads.
-/

namespace Libtrading.Fast
set_option autoImplicit false
open Buffer

/-- What nine groups hold of a signed number. -/
def FitsInt (v : I64) : Prop := -2 ^ 62 ≤ v.toInt ∧ v.toInt < 2 ^ 62

/-! ## Nullable numbers -/

/-- A 64-bit sum, up to one turn of the circle. -/
theorem to_int_add (v w : BitVec 64) : (v + w).toInt = v.toInt + w.toInt ∨
    (v + w).toInt = v.toInt + w.toInt - 2 ^ 64 ∨ (v + w).toInt = v.toInt + w.toInt + 2 ^ 64 := by
  have := v.isLt
  have := w.isLt
  simp only [BitVec.toInt_eq_toNat_cond, BitVec.toNat_add]
  omega

theorem zero_sle {v : I64} : (0 : I64).sle v = true ↔ 0 ≤ v.toInt := by
  rw [BitVec.sle_eq_decide, decide_eq_true_eq]
  rfl

theorem zero_slt {v : I64} : (0 : I64).slt v = true ↔ 0 < v.toInt := by
  rw [BitVec.slt_eq_decide, decide_eq_true_eq]
  rfl

section Nullable
variable {α : Type} {f : Field α}

theorem nullable_mandatory (h : f.isMandatory = true) (v : I64) : nullableInt f v = v := by
  simp [nullableInt, h]

theorem adjust_mandatory (h : f.isMandatory = true) (v : I64) : adjustInt f v = v := by
  simp [adjustInt, h]

/-- The number of an optional field is never zero, and taking the one off again gives the value. -/
theorem nullable_optional (h : f.isMandatory = false) {v : I64} (fits : FitsInt (nullableInt f v)) :
    nullableInt f v ≠ 0 ∧ adjustInt f (nullableInt f v) = v := by
  have range := BitVec.toInt_lt (x := v)
  have below : nullableInt f v = if (0 : I64).sle v then v + 1 else v := by simp [nullableInt, h]
  have above : ∀ n : I64, adjustInt f n = if (0 : I64).slt n then n - 1 else n := by simp [adjustInt, h]
  rw [below] at fits ⊢
  rw [above]
  by_cases sign : 0 ≤ v.toInt
  · rw [if_pos (zero_sle.mpr sign)] at fits ⊢
    have sum := to_int_add v 1
    have one : (1 : I64).toInt = 1 := rfl
    obtain ⟨lower, upper⟩ := fits
    have positive : 0 < (v + 1).toInt := by omega
    rw [if_pos (zero_slt.mpr positive)]
    refine ⟨fun zero => ?_, BitVec.add_sub_cancel v 1⟩
    rw [zero] at positive
    exact absurd positive (by decide)
  · rw [if_neg (fun h => sign (zero_sle.mp h)), if_neg (fun h => sign (Int.le_of_lt (zero_slt.mp h)))]
    refine ⟨fun zero => ?_, rfl⟩
    rw [zero] at sign
    exact sign (Int.le_refl 0)

/-- What the decoder takes from the number the encoder put. -/
theorem adjust_nullable {fe : Field α} (same : fe.SameTemplate f) {v : I64} (fits : FitsInt (nullableInt fe v)) :
    adjustInt f (nullableInt fe v) = v ∧ (f.isMandatory = false → nullableInt fe v ≠ 0) := by
  have presence := same.isMandatory
  have adjust : ∀ n, adjustInt f n = adjustInt fe n := fun n => by simp only [adjustInt, presence]
  rw [adjust, presence]
  cases h : fe.isMandatory with
  | true =>
    rw [nullable_mandatory h, adjust_mandatory h]
    exact ⟨rfl, fun optional => absurd optional (by decide)⟩
  | false =>
    obtain ⟨null, value⟩ := nullable_optional h fits
    exact ⟨value, fun _ => null⟩

end Nullable

/-- The number that was sent is the one assigned. -/
theorem assign_int_value {f : Field I64} {n : I64} (present : f.isMandatory = false → n ≠ 0) :
    assignInt f n = { f with state := .assigned, value := adjustInt f n } := by
  cases h : f.isMandatory with
  | true => rw [assign_int_mandatory h, adjust_mandatory h]
  | false => exact assign_int_optional h (present h)

/-- The difference that was sent leads to the value. -/
theorem assign_delta_value {f : Field I64} {n : I64} (present : f.isMandatory = false → n ≠ 0) :
    assignDelta f n = { f with state := .assigned, value := f.value + adjustInt f n } := by
  cases h : f.isMandatory with
  | true => rw [assign_delta_mandatory h, adjust_mandatory h]
  | false => exact assign_delta_optional h (present h)

theorem zero_fits : FitsInt 0 := ⟨by decide, by decide⟩

/-- What a base and the difference from it add up to. -/
theorem base_add_difference {base value : BitVec 64} : base + (value - base) = value := by
  rw [BitVec.add_comm, BitVec.sub_add_cancel]

section Numbers
variable {parse : Buffer → Parse (BitVec 64)} {assign : Field (BitVec 64) → BitVec 64 → Field (BitVec 64)}
  {fe fd : Field (BitVec 64)} {w : List UInt8} {n : BitVec 64} {b b' : Buffer} {rest : List UInt8}

/-- The field is given the number that is on the wire. -/
theorem read_number_carried (carries : Carries parse w n) (hb : b.Valid) (hu : b.unread = w ++ rest) :
    readNumber parse assign b fd = ⟨.ok, b.bufferAdvance w.length, assign fd n⟩ := by
  rw [readNumber, carries hb hu]

/-- The difference put for a value brings the decoder from the same base to that value. -/
theorem difference_put (hv : b.Valid) (same : fe.SameTemplate fd) (base : fd.value = fe.previous)
    (fits : FitsInt (nullableInt fe (fe.value - fe.previous)))
    (h : transferInt b (nullableInt fe (fe.value - fe.previous)) = (true, b')) :
    ∃ w, b.Appends b' w ∧ ∀ {B : Buffer} {rest : List UInt8}, B.Valid → B.unread = w ++ rest →
      readDelta B fd = ⟨.ok, B.bufferAdvance w.length, { fd with state := .assigned, value := fe.value }⟩ := by
  obtain ⟨w, appends, carries⟩ := transfer_int_carries hv fits.1 fits.2 h
  obtain ⟨value, present⟩ := adjust_nullable same fits
  have sum : fd.value + (fe.value - fe.previous) = fe.value := by rw [base, base_add_difference]
  refine ⟨w, appends, fun {B rest} hB hu => ?_⟩
  rw [readDelta, read_number_carried carries hB hu, assign_delta_value present, value, sum]

theorem difference_null (hv : b.Valid) (same : fe.SameTemplate fd) (optional : fe.isMandatory = false)
    (h : transferInt b 0 = (true, b')) :
    ∃ w, b.Appends b' w ∧ ∀ {B : Buffer} {rest : List UInt8}, B.Valid → B.unread = w ++ rest →
      readDelta B fd = ⟨.ok, B.bufferAdvance w.length, { fd with state := .empty }⟩ := by
  obtain ⟨w, appends, carries⟩ := transfer_int_carries hv zero_fits.1 zero_fits.2 h
  refine ⟨w, appends, fun {B rest} hB hu => ?_⟩
  rw [readDelta, read_number_carried carries hB hu, assign_delta_null (same.isMandatory.trans optional)]

end Numbers

/-! ## INT -/

/-- The signed numbers. -/
def intCodec : Codec I64 where
  kind := intKind
  coder := intCoder
  view v := v
  Stored _ := True
  Sendable f := FitsInt (intOnWire f)

/-- **INT** on both sides. -/
theorem int_laws : intCodec.Laws where
  same v v' := beq_iff_eq
  load v r := ⟨rfl, fun _ _ => trivial⟩
  put {b b' fe fd} hv hop same _ fits h := by
    have wire : intOnWire fe = nullableInt fe fe.value := by rw [intOnWire, if_neg hop]
    have fits : FitsInt (intOnWire fe) := fits
    simp only [intCodec, intCoder] at h
    obtain ⟨w, appends, carries⟩ := transfer_int_carries hv fits.1 fits.2 h
    rw [wire] at carries fits
    obtain ⟨value, present⟩ := adjust_nullable same fits
    refine ⟨w, appends, fun {B rest} hB hu => ⟨fe.value, .assigned, ?_, trivial, rfl, rfl⟩⟩
    refine (read_number_carried carries hB hu).trans ?_
    rw [assign_int_value present, value]
  putNull {b b' fe fd} hv hop same _ optional h := by
    simp only [intCodec, intCoder] at h
    obtain ⟨w, appends, carries⟩ := transfer_int_carries hv zero_fits.1 zero_fits.2 h
    refine ⟨w, appends, fun {B rest} hB hu => ⟨0, .empty, ?_, trivial, rfl⟩⟩
    refine (read_number_carried carries hB hu).trans ?_
    rw [assign_int_null (same.isMandatory.trans optional)]
  delta _ := by
    refine ⟨readDelta, rfl, ?_, ?_⟩
    · intro b b' fe fd hv hop same base fits h
      have wire : intOnWire fe = nullableInt fe (fe.value - fe.previous) := by rw [intOnWire, if_pos hop]
      have fits : FitsInt (intOnWire fe) := fits
      simp only [intCodec, intCoder, wire] at h
      rw [wire] at fits
      obtain ⟨w, appends, reads⟩ := difference_put hv same base fits h
      exact ⟨w, appends, fun hB hu => ⟨fe.value, .assigned, reads hB hu, trivial, rfl, rfl⟩⟩
    · intro b b' fe fd hv hop same optional h
      simp only [intCodec, intCoder] at h
      exact difference_null hv same optional h
  incr := by
    rintro next ⟨⟩
    exact ⟨_, rfl, fun v v' same => ⟨congrArg (· + 1) same, fun _ => trivial⟩⟩
  onEmpty f := ⟨⟨rfl, rfl, rfl, rfl⟩, rfl, rfl⟩
  onValue f := ⟨⟨rfl, rfl, rfl, rfl⟩, rfl, rfl⟩

/-! ## UINT -/

/-- What nine groups hold: the difference of delta is signed, any other number is not. -/
def FitsUint (f : Field U64) : Prop :=
  if f.op = .delta then FitsInt (uintOnWire f)
  else (if f.isMandatory then f.value.toNat else f.value.toNat + 1) < 2 ^ 63

/-- The unsigned numbers. -/
def uintCodec : Codec U64 where
  kind := uintKind
  coder := uintCoder
  view v := v
  Stored _ := True
  Sendable := FitsUint

theorem assign_uint_mandatory {f : Field U64} (h : f.isMandatory = true) (v : U64) :
    assignUint f v = { f with state := .assigned, value := v } := if_pos h

theorem assign_uint_null {f : Field U64} (h : f.isMandatory = false) :
    assignUint f 0 = { f with state := .empty, value := 0 } := by
  rw [assignUint, if_neg (by rw [h]; exact nofun), if_pos rfl]

theorem assign_uint_optional {f : Field U64} (h : f.isMandatory = false) {v : U64} (hv : v ≠ 0) :
    assignUint f v = { f with state := .assigned, value := v - 1 } := by
  rw [assignUint, if_neg (by rw [h]; exact nofun), if_neg hv]

/-- What the decoder takes from the number that is put, where one more is still a number. -/
theorem assign_nullable {fe fd : Field U64} (same : fe.SameTemplate fd)
    (fits : (if fe.isMandatory then fe.value.toNat else fe.value.toNat + 1) < 2 ^ 63) :
    (nullableUint fe fe.value).toNat < 2 ^ 63 ∧
      assignUint fd (nullableUint fe fe.value) = { fd with state := .assigned, value := fe.value } := by
  cases hm : fe.isMandatory with
  | true =>
    rw [if_pos hm] at fits
    rw [nullableUint, if_pos hm]
    exact ⟨fits, assign_uint_mandatory (same.isMandatory.trans hm) _⟩
  | false =>
    have optional : ¬fe.isMandatory = true := by rw [hm]; exact Bool.false_ne_true
    rw [if_neg optional] at fits
    rw [nullableUint, if_neg optional]
    have size : (fe.value + 1).toNat = fe.value.toNat + 1 := by
      rw [BitVec.toNat_add, show (1 : U64).toNat = 1 from rfl]
      omega
    have present : fe.value + 1 ≠ 0 := by
      intro zero
      rw [zero] at size
      exact Nat.succ_ne_zero _ size.symm
    refine ⟨by omega, ?_⟩
    rw [assign_uint_optional (same.isMandatory.trans hm) present, BitVec.add_sub_cancel]

/-- **UINT** on both sides. -/
theorem uint_laws : uintCodec.Laws where
  same v v' := beq_iff_eq
  load v r := ⟨rfl, fun _ _ => trivial⟩
  put {b b' fe fd} hv hop same _ fits h := by
    have wire : uintOnWire fe = nullableUint fe fe.value := by rw [uintOnWire, if_neg hop]
    have fits : FitsUint fe := fits
    rw [FitsUint, if_neg hop] at fits
    have h : transferUint b (uintOnWire fe) = (true, b') := by
      simpa only [uintCodec, uintCoder, if_neg hop] using h
    rw [wire] at h
    obtain ⟨size, value⟩ := assign_nullable same fits
    obtain ⟨w, appends, carries⟩ := transfer_uint_carries hv size h
    refine ⟨w, appends, fun {B rest} hB hu => ⟨fe.value, .assigned, ?_, trivial, rfl, rfl⟩⟩
    refine (read_number_carried carries hB hu).trans ?_
    rw [value]
  putNull {b b' fe fd} hv hop same _ optional h := by
    have h : transferUint b 0 = (true, b') := by simpa only [uintCodec, uintCoder, if_neg hop] using h
    obtain ⟨w, appends, carries⟩ := transfer_uint_carries hv (by decide) h
    refine ⟨w, appends, fun {B rest} hB hu => ⟨0, .empty, ?_, trivial, rfl⟩⟩
    refine (read_number_carried carries hB hu).trans ?_
    rw [assign_uint_null (same.isMandatory.trans optional)]
  delta _ := by
    refine ⟨readDelta, rfl, ?_, ?_⟩
    · intro b b' fe fd hv hop same base fits h
      have wire : uintOnWire fe = nullableInt fe (fe.value - fe.previous) := by rw [uintOnWire, if_pos hop]
      have fits : FitsUint fe := fits
      rw [FitsUint, if_pos hop, wire] at fits
      have h : transferInt b (uintOnWire fe) = (true, b') := by
        simpa only [uintCodec, uintCoder, if_pos hop] using h
      rw [wire] at h
      obtain ⟨w, appends, reads⟩ := difference_put hv same base fits h
      exact ⟨w, appends, fun hB hu => ⟨fe.value, .assigned, reads hB hu, trivial, rfl, rfl⟩⟩
    · intro b b' fe fd hv hop same optional h
      have h : transferInt b 0 = (true, b') := by simpa only [uintCodec, uintCoder, if_pos hop] using h
      exact difference_null hv same optional h
  incr := by
    rintro next ⟨⟩
    exact ⟨_, rfl, fun v v' same => ⟨congrArg (· + 1) same, fun _ => trivial⟩⟩
  onEmpty f := ⟨⟨rfl, rfl, rfl, rfl⟩, rfl, rfl⟩
  onValue f := ⟨⟨rfl, rfl, rfl, rfl⟩, rfl, rfl⟩

/-! ## Atomic DECIMAL -/

/-- The exponent the decoder accepts, and both numbers within nine groups. -/
structure FitsDecimal (f : Field Decimal) : Prop where
  exponent : exponentOk f.value.exp = true
  exp : FitsInt (decimalOnWire f).exp
  mnt : FitsInt (decimalOnWire f).mnt

/-- Decimals of one operator. -/
def decimalCodec : Codec Decimal where
  kind := decimalKind
  coder := decimalCoder
  view v := v
  Stored _ := True
  Sendable := FitsDecimal

theorem transfer_decimal_carries {b b' : Buffer} {d : Decimal} (hv : b.Valid) (exp : FitsInt d.exp)
    (mnt : FitsInt d.mnt) (h : transferDecimal b d = (true, b')) :
    ∃ w w', b.Appends b' (w ++ w') ∧ Carries parseInt w d.exp ∧ Carries parseInt w' d.mnt := by
  unfold transferDecimal at h
  rcases ht : transferInt b d.exp with ⟨ok, b₁⟩
  rw [ht] at h
  cases ok with
  | false => exact nomatch h
  | true =>
    obtain ⟨w, appends, carries⟩ := transfer_int_carries hv exp.1 exp.2 ht
    obtain ⟨w', appends', carries'⟩ := transfer_int_carries appends.valid mnt.1 mnt.2 h
    exact ⟨w, w', appends.trans appends', carries, carries'⟩

section Decimals
variable {fe fd : Field Decimal} {w w' : List UInt8} {place : Decimal → Decimal → Decimal} {b : Buffer}
  {rest : List UInt8}

/-- An exponent and a mantissa on the wire. -/
theorem read_decimal_value (same : fe.SameTemplate fd) {d v : Decimal} (fits : FitsInt (nullableInt fe d.exp))
    (exp : Carries parseInt w (nullableInt fe d.exp)) (mnt : Carries parseInt w' d.mnt)
    (placed : ∀ m, (place fd.value ⟨d.exp, m⟩).exp = v.exp) (hv : place fd.value d = v)
    (accepted : exponentOk v.exp = true) (hb : b.Valid) (hu : b.unread = (w ++ w') ++ rest) :
    readDecimalWith place b fd =
      ⟨.ok, b.bufferAdvance (w ++ w').length, { fd with state := .assigned, value := v }⟩ := by
  obtain ⟨value, present⟩ := adjust_nullable same fits
  rw [List.append_assoc] at hu
  obtain ⟨hb', hu'⟩ := unread_advance hb hu
  have nonzero : (!fd.isMandatory && decide (nullableInt fe d.exp = 0)) = false := by
    cases hm : fd.isMandatory with
    | true => rfl
    | false =>
      simp only [Bool.not_false, Bool.true_and]
      exact decide_eq_false (present hm)
  rw [readDecimalWith, readNullable, exp hb hu]
  have nonzero' : (!({ fd with state := .assigned } : Field Decimal).isMandatory &&
      decide (nullableInt fe d.exp = 0)) = false := nonzero
  simp only [nonzero', Bool.false_eq_true, if_false]
  have adjust : adjustInt ({ fd with state := .assigned } : Field Decimal) (nullableInt fe d.exp) = d.exp := value
  rw [readMantissa, adjust, placed, accepted, mnt hb' hu', advance_advance, List.length_append]
  simp only [Bool.not_true, Bool.false_eq_true, if_false]
  rw [show (⟨d.exp, d.mnt⟩ : Decimal) = d from rfl, hv]

theorem read_decimal_null (same : fe.SameTemplate fd) (optional : fe.isMandatory = false)
    (carries : Carries parseInt w 0) (hb : b.Valid) (hu : b.unread = w ++ rest) :
    readDecimalWith place b fd = ⟨.ok, b.bufferAdvance w.length, { fd with state := .empty }⟩ := by
  have optional' : ({ fd with state := .assigned } : Field Decimal).isMandatory = false :=
    same.isMandatory.trans optional
  rw [readDecimalWith, readNullable, carries hb hu]
  simp [optional']

end Decimals

/-- **Decimals** on both sides. -/
theorem decimal_laws : decimalCodec.Laws where
  same v v' := beq_iff_eq
  load v r := ⟨rfl, fun _ _ => trivial⟩
  put {b b' fe fd} hv hop same _ fits h := by
    have wire : decimalOnWire fe = ⟨nullableInt fe fe.value.exp, fe.value.mnt⟩ := by
      simp only [decimalOnWire, if_neg hop]
    have fits : FitsDecimal fe := fits
    simp only [decimalCodec, decimalCoder] at h
    obtain ⟨w, w', appends, exp, mnt⟩ := transfer_decimal_carries hv fits.exp fits.mnt h
    have fitsExp := fits.exp
    rw [wire] at exp mnt fitsExp
    exact ⟨w ++ w', appends, fun {B rest} hB hu => ⟨fe.value, .assigned,
      read_decimal_value same fitsExp exp mnt (fun _ => rfl) rfl fits.exponent hB hu, trivial, rfl, rfl⟩⟩
  putNull {b b' fe fd} hv hop same _ optional h := by
    simp only [decimalCodec, decimalCoder] at h
    obtain ⟨w, appends, carries⟩ := transfer_int_carries hv zero_fits.1 zero_fits.2 h
    exact ⟨w, appends, fun {B rest} hB hu => ⟨fd.value, .empty,
      read_decimal_null same optional carries hB hu, trivial, rfl⟩⟩
  delta _ := by
    refine ⟨readDecimalDelta, rfl, ?_, ?_⟩
    · intro b b' fe fd hv hop same base fits h
      have wire : decimalOnWire fe =
          ⟨nullableInt fe (fe.value.exp - fe.previous.exp), fe.value.mnt - fe.previous.mnt⟩ := by
        simp only [decimalOnWire, if_pos hop]
      have fits : FitsDecimal fe := fits
      simp only [decimalCodec, decimalCoder] at h
      obtain ⟨w, w', appends, exp, mnt⟩ := transfer_decimal_carries hv fits.exp fits.mnt h
      have fitsExp := fits.exp
      rw [wire] at exp mnt fitsExp
      have base : fd.value = fe.previous := base
      have placed : fd.value.exp + (fe.value.exp - fe.previous.exp) = fe.value.exp := by
        rw [base, base_add_difference]
      have mantissa : fd.value.mnt + (fe.value.mnt - fe.previous.mnt) = fe.value.mnt := by
        rw [base, base_add_difference]
      refine ⟨w ++ w', appends, fun {B rest} hB hu => ⟨fe.value, .assigned, ?_, trivial, rfl, rfl⟩⟩
      refine read_decimal_value same (d := ⟨fe.value.exp - fe.previous.exp, fe.value.mnt - fe.previous.mnt⟩)
        fitsExp exp mnt (fun _ => placed) ?_ fits.exponent hB hu
      simp only [placed, mantissa]
    · intro b b' fe fd hv hop same optional h
      simp only [decimalCodec, decimalCoder] at h
      obtain ⟨w, appends, carries⟩ := transfer_int_carries hv zero_fits.1 zero_fits.2 h
      exact ⟨w, appends, fun hB hu => read_decimal_null same optional carries hB hu⟩
  incr := by
    rintro next ⟨⟩
  onEmpty f := ⟨⟨rfl, rfl, rfl, rfl⟩, rfl, rfl⟩
  onValue f := ⟨⟨rfl, rfl, rfl, rfl⟩, rfl, rfl⟩

/-! ## ASCII STRING -/

/-- A 256-byte array with a terminator in it. -/
def IsCString (s : Bytes) : Prop := s.length = stringMaxBytes ∧ (cstr s).length < stringMaxBytes

/-- At most 254 characters of seven bits. -/
def FitsAscii (f : Field Bytes) : Prop :=
  (cstr f.value).length ≤ 254 ∧ ∀ c ∈ cstr f.value, isStop c = false

/-- ASCII strings, by their characters. -/
def asciiCodec : Codec Bytes where
  kind := asciiKind
  coder := stringCoder
  view := cstr
  Stored := IsCString
  Sendable := FitsAscii

theorem strcpy_stored {dst src : Bytes} (hd : IsCString dst) (hs : (cstr src).length < stringMaxBytes) :
    IsCString (strcpy dst src) := by
  refine ⟨?_, by rw [cstr_strcpy]; exact hs⟩
  have := hd.1
  simp only [strcpy, List.length_append, List.length_cons, List.length_drop]
  omega

/-- A zero byte stands for the empty string. -/
theorem string_chars_ne_nil (s : Bytes) : stringChars s ≠ [] := by
  unfold stringChars
  split
  · exact nofun
  · assumption

/-- The characters on the wire, read into an array. -/
theorem cstr_string_chars {s stored : Bytes} {n : Nat} (h : stored.take n = stringChars s ++ [0]) :
    cstr stored = cstr s := by
  unfold stringChars at h
  split at h
  · rename_i empty
    rw [empty]
    rw [← List.take_append_drop n stored, h]
    rfl
  · exact cstr_of_take h cstr_nonzero

/-- **ASCII strings** on both sides. -/
theorem ascii_laws : asciiCodec.Laws where
  same v v' := beq_iff_eq
  load v r := ⟨cstr_strcpy v r, fun hv hr => strcpy_stored hv hr.2⟩
  put {b b' fe fd} hv hop same stored fits h := by
    have fits : FitsAscii fe := fits
    have stored : IsCString fd.value := stored
    have appends := transfer_string_appends hv h
    have short : (stringChars fe.value).length ≤ 254 := by
      unfold stringChars
      split
      · decide
      · exact fits.1
    have more : ∀ c ∈ stringChars fe.value, isStop c = false := by
      unfold stringChars
      split
      · intro c hc
        rw [List.mem_singleton.mp hc]
        rfl
      · exact fits.2
    refine ⟨_, appends, fun {B rest} hB hu => ?_⟩
    rw [List.append_assoc] at hu
    obtain ⟨value, read, length, taken⟩ := parse_string_chars (m := stringMaxBytes - 1) (n := 0)
      (v := fd.value) hB more (by rw [stringMaxBytes]; omega) (by rw [stored.1, stringMaxBytes]; omega) hu
    simp only [Nat.zero_add, List.take_zero, List.nil_append] at read taken
    have chars := cstr_string_chars taken
    have kept : IsCString value := ⟨length.trans stored.1, by
      rw [chars, stringMaxBytes]
      exact Nat.lt_of_le_of_lt fits.1 (by decide)⟩
    refine ⟨value, .assigned, ?_, kept, rfl, chars⟩
    have shown : asciiCodec.kind.read B fd = assignAscii fd (parseStringFrom (stringMaxBytes - 1) 0 fd.value B) := rfl
    rw [shown, read, assignAscii]
    simp [string_chars_ne_nil]
  putNull {b b' fe fd} hv hop same stored optional h := by
    have stored : IsCString fd.value := stored
    have appends := transfer_stop_appends hv h
    refine ⟨_, appends, fun {B rest} hB hu => ?_⟩
    obtain ⟨value, read, length, taken⟩ := parse_string_chars (m := stringMaxBytes - 1) (n := 0) (w := [])
      (v := fd.value) hB nofun (by decide) (by rw [stored.1]; decide) hu
    simp only [List.length_nil, Nat.zero_add, List.take_zero, List.append_nil, List.nil_append] at read taken
    have empty : cstr value = [] := cstr_of_take (w := []) taken nofun
    have kept : IsCString value := ⟨length.trans stored.1, by rw [empty]; decide⟩
    refine ⟨value, .empty, ?_, kept, rfl⟩
    have shown : asciiCodec.kind.read B fd = assignAscii fd (parseStringFrom (stringMaxBytes - 1) 0 fd.value B) := rfl
    have first : value.head?.getD 0 = 0 := by
      cases value with
      | nil => rfl
      | cons c cs => exact (List.cons.inj taken).1
    have optional' : ({ fd with value := value } : Field Bytes).isMandatory = false := same.isMandatory.trans optional
    rw [shown, read, assignAscii]
    simp [first, optional']
  delta := nofun
  incr := by
    rintro next ⟨⟩
  onEmpty f := ⟨⟨rfl, rfl, rfl, rfl⟩, rfl, (cstr_strcpy _ _).trans (cstr_strcpy _ _)⟩
  onValue f := ⟨⟨rfl, rfl, rfl, rfl⟩, rfl, cstr_strcpy _ _⟩

end Libtrading.Fast
