import Libtrading.Fast.ReadFacts

/-!
# Interrupted field decoders

The switch over the operator inherits `Resumes`: a field decoder that ran out
of bytes can be called again, on the buffer and the presence-map cursor of the
first call, with the field as the first call left it. The one exception is a
decimal with individual operators that is interrupted in its mantissa: its
exponent is decoded a second time, and increment and delta move it twice.
-/

namespace Libtrading.Fast
set_option autoImplicit false
open Buffer

namespace Decoded
variable {φ : Type}

/-- The same outcome over a buffer that has received more. -/
def receive (x : List UInt8) (r : Decoded φ) : Decoded φ := { r with buffer := r.buffer.receive x }

end Decoded

/-! ## The operators -/

/-- A decoder of a field: it moves forward, uses presence bits only, and later bytes change nothing
it has decided. -/
structure Streams {φ : Type} (decode : Buffer → Pmap → φ → Decoded φ) : Prop where
  moved : ∀ {b : Buffer} p f, b.Valid → b.Moved (decode b p f).buffer
  cursor : ∀ b p f, { (decode b p f).pmap with pmapBit := p.pmapBit } = p
  receive : ∀ {b : Buffer} p f, b.Valid → (decode b p f).ret ≠ .msgPartial → ∀ x,
    decode (b.receive x) p f = (decode b p f).receive x

/-- A decoder of a field that can be interrupted: called again with the field it left and the cursor it
was given, it does what a first call with all the bytes does. -/
structure Interruptible {φ : Type} (decode : Buffer → Pmap → φ → Decoded φ) : Prop extends Streams decode where
  again : ∀ {b : Buffer} p f, b.Valid → (decode b p f).ret = .msgPartial → ∀ x,
    decode (b.receive x) p (decode b p f).field = decode (b.receive x) p f

/-- What a field type brings to the switch over the operator. -/
structure Kind.Resumes {α : Type} (K : Kind α) : Prop where
  read : Fast.Resumes K.read
  delta : ∀ {read}, K.delta = some read → Fast.Resumes read

section Operators
variable {α : Type} {K : Kind α}

/-- The template's value needs no bytes. -/
theorem initial_value_finished (f : Field α) : (initialValue K f).1 ≠ .msgPartial := by
  unfold initialValue
  split
  · exact nofun
  · split <;> exact nofun

theorem empty_value_finished (f : Field α) : (emptyValue f).1 ≠ .msgPartial := by
  unfold emptyValue
  split <;> exact nofun

/-- The previous value needs no bytes either. -/
theorem previous_value_finished (keep : α → α) (f : Field α) :
    (previousValue K keep f).1 ≠ .msgPartial := by
  unfold previousValue
  split
  · exact initial_value_finished f
  · exact nofun
  · exact empty_value_finished f

theorem initial_value_op (f : Field α) : (initialValue K f).2.op = f.op := by
  unfold initialValue
  split
  · rfl
  · split <;> rfl

theorem previous_value_op (keep : α → α) (f : Field α) : (previousValue K keep f).2.op = f.op := by
  unfold previousValue emptyValue
  split
  · exact initial_value_op f
  · rfl
  · split <;> rfl

theorem decode_present_moved (hK : K.Resumes) {absent : Field α → Ret × Field α} {b : Buffer} (hv : b.Valid)
    (p : Pmap) (f : Field α) : b.Moved (decodePresent K absent b p f).buffer := by
  unfold decodePresent
  split
  · exact hK.read.moved f hv
  · exact hv.refl_moved

/-- One bit of the map is used, whatever it says. -/
theorem decode_present_pmap (absent : Field α → Ret × Field α) (b : Buffer) (p : Pmap) (f : Field α) :
    (decodePresent K absent b p f).pmap = p.next := by
  unfold decodePresent
  split <;> rfl

/-- **The bit of the map** is there already, so later bytes can only reach the value on the wire. -/
theorem decode_present_receive (hK : K.Resumes) {absent : Field α → Ret × Field α} {b : Buffer} (hv : b.Valid)
    (p : Pmap) (f : Field α) (h : (decodePresent K absent b p f).ret ≠ .msgPartial) (x : List UInt8) :
    decodePresent K absent (b.receive x) p f = (decodePresent K absent b p f).receive x := by
  unfold decodePresent at h ⊢
  split
  · rename_i present
    rw [if_pos present] at h
    rw [hK.read.receive f hv h x]
    rfl
  · rfl

/-- **An interrupted value** is one that the bit announced, and it is read again. -/
theorem decode_present_again (hK : K.Resumes) {absent : Field α → Ret × Field α}
    (finished : ∀ f, (absent f).1 ≠ .msgPartial) {b : Buffer} (hv : b.Valid) (p : Pmap) (f : Field α)
    (h : (decodePresent K absent b p f).ret = .msgPartial) (x : List UInt8) :
    decodePresent K absent (b.receive x) p (decodePresent K absent b p f).field =
      decodePresent K absent (b.receive x) p f := by
  unfold decodePresent at h ⊢
  split
  · rename_i present
    rw [if_pos present] at h
    exact congrArg (Reading.toDecoded · p.next) (hK.read.again f hv h x)
  · rename_i missing
    rw [if_neg missing] at h
    exact absurd h (finished f)

/-- The operator stays as it was parsed. -/
theorem decode_present_op (hK : K.Resumes) {absent : Field α → Ret × Field α}
    (op : ∀ f, (absent f).2.op = f.op) (b : Buffer) (p : Pmap) (f : Field α) :
    (decodePresent K absent b p f).field.op = f.op := by
  unfold decodePresent
  split
  · exact hK.read.op b f
  · exact op f

/-- A field decoder does not change the operator it switches over. -/
theorem decode_field_op (hK : K.Resumes) (b : Buffer) (p : Pmap) (f : Field α) :
    (decodeField K b p f).field.op = f.op := by
  unfold decodeField
  split
  · exact hK.read.op b f
  · exact decode_present_op hK (previous_value_op id) b p f
  · split
    · rfl
    · exact decode_present_op hK (previous_value_op _) b p f
  · split
    · rfl
    · rename_i delta hd
      exact (hK.delta hd).op b f
  · exact decode_present_op hK initial_value_op b p f
  · unfold decodeConstant
    simp only
    split
    · rfl
    · split <;> rfl

/-- A constant is not on the wire. -/
theorem decode_constant_buffer (b : Buffer) (p : Pmap) (f : Field α) : (decodeConstant K b p f).buffer = b := by
  unfold decodeConstant
  simp only
  split
  · rfl
  · split <;> rfl

/-- It is never interrupted. -/
theorem decode_constant_finished (b : Buffer) (p : Pmap) (f : Field α) :
    (decodeConstant K b p f).ret = .ok := by
  unfold decodeConstant
  simp only
  split
  · rfl
  · split <;> rfl

/-- A field that is cut is cut in the value that it reads, with whatever field and bytes it is called again. -/
theorem decode_field_cut {b : Buffer} {p : Pmap} {f : Field α} (cut : (decodeField K b p f).ret = .msgPartial) :
    ((f.op = .none ∨
          ((f.op = .copy ∨ f.op = .default ∨ (f.op = .incr ∧ K.incr ≠ none)) ∧ p.next.pmapIsSet = true)) ∧
        (K.read b f).ret = .msgPartial ∧
        ∃ q, ∀ b' g, g.op = f.op → decodeField K b' p g = (K.read b' g).toDecoded q) ∨
      ∃ delta, K.delta = some delta ∧ (delta b f).ret = .msgPartial ∧
        ∀ b' g, g.op = f.op → decodeField K b' p g = (delta b' g).toDecoded p := by
  have present : ∀ {absent : Field α → Ret × Field α}, (∀ f, (absent f).1 ≠ .msgPartial) →
      (decodePresent K absent b p f).ret = .msgPartial →
        p.next.pmapIsSet = true ∧ (K.read b f).ret = .msgPartial ∧
          ∀ b' g, decodePresent K absent b' p g = (K.read b' g).toDecoded p.next := by
    intro absent finished h
    unfold decodePresent at h ⊢
    split at h
    · rename_i set
      exact ⟨set, h, fun b' g => if_pos set⟩
    · exact absurd h (finished f)
  unfold decodeField at cut
  cases op : f.op with
  | none =>
    simp only [op] at cut
    exact .inl ⟨.inl rfl, cut, p, fun b' g same => by simp only [decodeField, same]⟩
  | copy =>
    simp only [op] at cut
    obtain ⟨set, read, again⟩ := present (previous_value_finished id) cut
    exact .inl ⟨.inr ⟨.inl rfl, set⟩, read, p.next, fun b' g same => by simp only [decodeField, same, again]⟩
  | incr =>
    simp only [op] at cut
    cases incr : K.incr with
    | none =>
      rw [incr] at cut
      cases cut
    | some step =>
      rw [incr] at cut
      obtain ⟨set, read, again⟩ := present (previous_value_finished step) cut
      refine .inl ⟨.inr ⟨.inr (.inr ⟨rfl, Option.some_ne_none step⟩), set⟩, read, p.next, fun b' g same => ?_⟩
      simp only [decodeField, same, incr, again]
  | delta =>
    simp only [op] at cut
    cases delta : K.delta with
    | none =>
      rw [delta] at cut
      cases cut
    | some read =>
      rw [delta] at cut
      exact .inr ⟨read, rfl, cut, fun b' g same => by simp only [decodeField, same, delta]⟩
  | default =>
    simp only [op] at cut
    obtain ⟨set, read, again⟩ := present initial_value_finished cut
    exact .inl ⟨.inr ⟨.inr (.inl rfl), set⟩, read, p.next, fun b' g same => by simp only [decodeField, same, again]⟩
  | constant =>
    simp only [op] at cut
    rw [decode_constant_finished] at cut
    cases cut

theorem decode_constant_receive (b : Buffer) (p : Pmap) (f : Field α) (x : List UInt8) :
    decodeConstant K (b.receive x) p f = (decodeConstant K b p f).receive x := by
  unfold decodeConstant
  simp only [apply_ite (Decoded.receive x)]
  rfl

/-- **The switch over the operator can be interrupted.** -/
theorem interruptible_field (hK : K.Resumes) : Interruptible (decodeField K) where
  moved {b} p f hv := by
    unfold decodeField
    split
    · exact hK.read.moved f hv
    · exact decode_present_moved hK hv p f
    · split
      · exact hv.refl_moved
      · exact decode_present_moved hK hv p f
    · split
      · exact hv.refl_moved
      · rename_i delta hd
        exact (hK.delta hd).moved f hv
    · exact decode_present_moved hK hv p f
    · rw [decode_constant_buffer]
      exact hv.refl_moved
  cursor b p f := by
    unfold decodeField
    split
    · rfl
    · rw [decode_present_pmap]; rfl
    · split
      · rfl
      · rw [decode_present_pmap]; rfl
    · split <;> rfl
    · rw [decode_present_pmap]; rfl
    · unfold decodeConstant
      simp only
      split
      · rfl
      · split <;> rfl
  receive {b} p f hv h x := by
    unfold decodeField at h ⊢
    split
    · rename_i op
      simp only [op] at h
      rw [hK.read.receive f hv h x]
      rfl
    · rename_i op
      simp only [op] at h
      exact decode_present_receive hK hv p f h x
    · rename_i op
      simp only [op] at h
      split
      · rfl
      · rename_i incr hi
        rw [hi] at h
        exact decode_present_receive hK hv p f h x
    · rename_i op
      simp only [op] at h
      split
      · rfl
      · rename_i delta hd
        rw [hd] at h
        rw [(hK.delta hd).receive f hv h x]
        rfl
    · rename_i op
      simp only [op] at h
      exact decode_present_receive hK hv p f h x
    · exact decode_constant_receive ..
  again {b} p f hv h x := by
    have op := decode_field_op hK b p f
    unfold decodeField at h op ⊢
    cases hop : f.op with
    | none =>
      simp only [hop] at h op ⊢
      simp only [op]
      exact congrArg (Reading.toDecoded · p) (hK.read.again f hv h x)
    | copy =>
      simp only [hop] at h op ⊢
      simp only [op]
      exact decode_present_again hK (previous_value_finished _) hv p f h x
    | incr =>
      simp only [hop] at h op ⊢
      cases hi : K.incr with
      | none => rw [hi] at h; exact nomatch h
      | some incr =>
        rw [hi] at h op
        simp only at h op ⊢
        simp only [op]
        exact decode_present_again hK (previous_value_finished _) hv p f h x
    | delta =>
      simp only [hop] at h op ⊢
      cases hd : K.delta with
      | none => rw [hd] at h; exact nomatch h
      | some delta =>
        rw [hd] at h op
        simp only at h op ⊢
        simp only [op]
        exact congrArg (Reading.toDecoded · p) ((hK.delta hd).again f hv h x)
    | default =>
      simp only [hop] at h op ⊢
      simp only [op]
      exact decode_present_again hK initial_value_finished hv p f h x
    | constant =>
      simp only [hop] at h
      rw [decode_constant_finished] at h
      exact nomatch h

end Operators

/-- Each type's readers can be interrupted, with delta and without: here the signed numbers, the others below. -/
theorem int_resumes : intKind.Resumes := ⟨resumes_int, by rintro _ ⟨⟩; exact resumes_delta⟩

theorem uint_resumes : uintKind.Resumes := ⟨resumes_uint, by rintro _ ⟨⟩; exact resumes_delta⟩

theorem unicode_resumes : unicodeKind.Resumes := ⟨resumes_vector, nofun⟩

theorem ascii_resumes : asciiKind.Resumes := ⟨resumes_ascii, by rintro _ ⟨⟩; exact resumes_ascii_delta⟩

theorem vector_resumes : vectorKind.Resumes := ⟨resumes_vector, nofun⟩

theorem decimal_resumes : decimalKind.Resumes :=
  ⟨resumes_decimal _, by rintro _ ⟨⟩; exact resumes_decimal _⟩

/-- **Each type's field decoder** can be interrupted: here the signed numbers, the others below. -/
theorem interruptible_int : Interruptible fastDecodeInt := interruptible_field int_resumes

theorem interruptible_uint : Interruptible fastDecodeUint := interruptible_field uint_resumes

theorem interruptible_vector : Interruptible fastDecodeVector := interruptible_field vector_resumes

theorem interruptible_decimal : Interruptible fastDecodeDecimalAtomic := interruptible_field decimal_resumes

theorem interruptible_string (unicode : Bool) : Interruptible (fastDecodeString unicode) := by
  cases unicode with
  | false => exact interruptible_field ascii_resumes
  | true => exact interruptible_field unicode_resumes

/-! ## Decimals with individual operators -/

/-- A second step of the exponent's operator moves the exponent again: increment with the exponent
off the wire, delta with a difference that is not zero. -/
def movesExponent (b : Buffer) (p : Pmap) (e : Field I64) : Bool :=
  match e.op with
  | .incr => !p.next.pmapIsSet
  | .delta =>
    match parseInt b with
    | .done tmp _ => adjustInt e tmp != 0
    | .fail _ _ => false
  | _ => false

theorem assign_int_mandatory {f : Field I64} (h : f.isMandatory = true) (v : I64) :
    assignInt f v = { f with state := .assigned, value := v } := if_pos h

theorem assign_int_null {f : Field I64} (h : f.isMandatory = false) :
    assignInt f 0 = { f with state := .empty, value := 0 } := by
  rw [assignInt, if_neg (by rw [h]; exact nofun), if_pos rfl]

theorem assign_int_optional {f : Field I64} (h : f.isMandatory = false) {v : I64} (hv : v ≠ 0) :
    assignInt f v = { f with state := .assigned, value := adjustInt f v } := by
  rw [assignInt, if_neg (by rw [h]; exact nofun), if_neg hv]
  simp only [adjustInt, h, Bool.not_false, Bool.true_and]

/-- A number may be assigned twice: it is not added to anything. -/
theorem assign_int_twice (f : Field I64) (v : I64) : assignInt (assignInt f v) v = assignInt f v := by
  cases h : f.isMandatory with
  | true =>
    rw [assign_int_mandatory h]
    exact assign_int_mandatory (f := { f with state := .assigned, value := v }) h v
  | false =>
    by_cases null : v = 0
    · subst null
      rw [assign_int_null h]
      exact assign_int_null (f := { f with state := .empty, value := 0 }) h
    · rw [assign_int_optional h null]
      exact assign_int_optional (f := { f with state := .assigned, value := adjustInt f v }) h null

theorem assign_delta_mandatory {f : Field I64} (h : f.isMandatory = true) (tmp : I64) :
    assignDelta f tmp = { f with state := .assigned, value := f.value + tmp } := by
  simp only [assignDelta, h, if_true]

/-- A null difference empties the field and leaves its value. -/
theorem assign_delta_null {f : Field I64} (h : f.isMandatory = false) :
    assignDelta f 0 = { f with state := .empty } := by
  have sum : f.value + 0 = f.value := BitVec.add_zero f.value
  simp only [assignDelta, h, Bool.false_eq_true, if_false, if_true, sum]

/-- Any other difference is added. -/
theorem assign_delta_optional {f : Field I64} (h : f.isMandatory = false) {tmp : I64} (hv : tmp ≠ 0) :
    assignDelta f tmp = { f with state := .assigned, value := f.value + adjustInt f tmp } := by
  simp only [assignDelta, adjustInt, h, Bool.false_eq_true, if_false, hv, Bool.not_false, Bool.true_and]
  split
  · rw [BitVec.sub_eq_add_neg, BitVec.sub_eq_add_neg, BitVec.add_assoc]
  · rfl

/-- A difference of zero can be added twice. -/
theorem assign_delta_twice {f : Field I64} {tmp : I64} (h : adjustInt f tmp = 0) :
    assignDelta (assignDelta f tmp) tmp = assignDelta f tmp := by
  have stays : ∀ v : I64, v + 0 = v := BitVec.add_zero
  cases hm : f.isMandatory with
  | true =>
    have zero : tmp = 0 := by simpa [adjustInt, hm] using h
    subst zero
    rw [assign_delta_mandatory hm, stays]
    have again := assign_delta_mandatory (f := { f with state := .assigned }) hm 0
    rwa [stays] at again
  | false =>
    by_cases null : tmp = 0
    · subst null
      rw [assign_delta_null hm]
      exact assign_delta_null (f := { f with state := .empty }) hm
    · rw [assign_delta_optional hm null, h, stays]
      have again := assign_delta_optional (f := { f with state := .assigned }) hm null
      rwa [show adjustInt ({ f with state := .assigned } : Field I64) tmp = 0 from h, stays] at again

/-- What a first decode takes from the initial value, a second one finds assigned. -/
theorem initial_value_twice {f f' : Field I64} (h : initialValue intKind f = (.ok, f')) :
    initialValue intKind f' = (.ok, f') := by
  unfold initialValue at h
  split at h
  · rename_i reset
    obtain ⟨-, rfl⟩ := Prod.mk.inj h
    exact if_pos reset
  · rename_i reset
    split at h
    · exact nomatch h
    · rename_i optional
      obtain ⟨-, rfl⟩ := Prod.mk.inj h
      exact (if_neg reset).trans (if_neg optional)

/-- A second step of copy finds the value that the first one left. -/
theorem previous_value_twice {f f' : Field I64} (h : previousValue intKind id f = (.ok, f')) :
    previousValue intKind id f' = (.ok, f') := by
  unfold previousValue at h
  cases hs : f.state with
  | undefined =>
    simp only [hs] at h
    unfold initialValue at h
    split at h
    · obtain ⟨-, rfl⟩ := Prod.mk.inj h
      rfl
    · split at h
      · exact nomatch h
      · rename_i optional
        obtain ⟨-, rfl⟩ := Prod.mk.inj h
        exact if_neg optional
  | assigned =>
    simp only [hs] at h
    obtain ⟨-, rfl⟩ := Prod.mk.inj h
    exact congrArg (Prod.mk Ret.ok) rfl
  | empty =>
    simp only [hs, emptyValue] at h
    split at h
    · exact nomatch h
    · rename_i optional
      obtain ⟨-, rfl⟩ := Prod.mk.inj h
      simp only [previousValue, hs]
      exact if_neg optional

/-- A number may be read twice where it may be assigned twice. -/
theorem read_number_twice {parse : Buffer → Parse (BitVec 64)}
    {assign : Field (BitVec 64) → BitVec 64 → Field (BitVec 64)} {b b' : Buffer} {v : BitVec 64}
    (h : parse b = .done v b') {f : Field (BitVec 64)} (twice : assign (assign f v) v = assign f v) :
    readNumber parse assign b (readNumber parse assign b f).field = readNumber parse assign b f := by
  simp only [readNumber, h, twice]

theorem read_int_twice (b : Buffer) (f : Field I64) :
    readInt b (readInt b f).field = readInt b f := by
  cases h : parseInt b with
  | done v b' => exact read_number_twice h (assign_int_twice f v)
  | fail ret b' => simp only [readInt, readNumber, h]

/-- A value off the wire may be read twice, and one of the dictionary taken twice where taking it changes nothing. -/
theorem decode_present_twice {absent : Field I64 → Ret × Field I64} {b : Buffer} {p : Pmap} {f : Field I64}
    (again : p.next.pmapIsSet = false → ∀ {f'}, absent f = (.ok, f') → absent f' = (.ok, f'))
    (ok : (decodePresent intKind absent b p f).ret = .ok) :
    decodePresent intKind absent b p (decodePresent intKind absent b p f).field =
      decodePresent intKind absent b p f := by
  unfold decodePresent at ok ⊢
  cases bit : p.next.pmapIsSet with
  | true =>
    simp only [bit, if_true] at ok ⊢
    exact congrArg (Reading.toDecoded · p.next) (read_int_twice b _)
  | false =>
    simp only [bit, Bool.false_eq_true, if_false] at ok ⊢
    have first : absent f = (.ok, (absent f).2) := Prod.ext ok rfl
    rw [again bit first, ok]

theorem constant_value_twice (f : Field I64) :
    constantValue intKind (constantValue intKind f) = constantValue intKind f := rfl

/-- A constant that is present may be decoded twice. -/
theorem decode_constant_twice {b : Buffer} {p : Pmap} {f : Field I64}
    (present : (decodeConstant intKind b p f).field.stateEmpty = false) :
    decodeConstant intKind b p (decodeConstant intKind b p f).field = decodeConstant intKind b p f := by
  have same : (decodeConstant intKind b p f).field = constantValue intKind f := by
    unfold decodeConstant at present ⊢
    simp only at present ⊢
    split
    · rfl
    · rename_i optional
      rw [if_neg optional] at present
      split
      · rfl
      · rename_i bit
        rw [if_neg bit] at present
        exact nomatch present
  rw [same]
  unfold decodeConstant
  rw [constant_value_twice]

/-- An exponent whose second step changes nothing may be decoded twice. -/
theorem decode_int_twice {b : Buffer} {p : Pmap} {e : Field I64} (ok : (fastDecodeInt b p e).ret = .ok)
    (present : (fastDecodeInt b p e).field.stateEmpty = false) (still : movesExponent b p e = false) :
    fastDecodeInt b p (fastDecodeInt b p e).field = fastDecodeInt b p e := by
  have op := decode_field_op int_resumes b p e
  unfold fastDecodeInt decodeField at *
  cases hop : e.op with
  | none =>
    simp only [hop] at ok op ⊢
    simp only [op]
    exact congrArg (Reading.toDecoded · p) (read_int_twice b _)
  | copy =>
    simp only [hop] at ok op ⊢
    simp only [op]
    exact decode_present_twice (fun _ _ => previous_value_twice) ok
  | incr =>
    simp only [hop, intKind] at ok op ⊢
    simp only [op]
    refine decode_present_twice (fun bit => ?_) ok
    simp only [movesExponent, hop, bit] at still
    exact nomatch still
  | delta =>
    simp only [hop, intKind] at ok op ⊢
    simp only [op]
    refine congrArg (Reading.toDecoded · p) ?_
    cases h : parseInt b with
    | done tmp b' =>
      simp only [movesExponent, hop, h, bne_eq_false_iff_eq] at still
      exact read_number_twice h (assign_delta_twice still)
    | fail ret b' =>
      simp only [readDelta, readNumber, h]
      rfl
  | default =>
    simp only [hop] at ok op ⊢
    simp only [op]
    exact decode_present_twice (fun _ _ => initial_value_twice) ok
  | constant =>
    simp only [hop] at ok op present ⊢
    simp only [op]
    exact decode_constant_twice present

/-- The same with more bytes received. -/
theorem decode_int_twice_receive {b : Buffer} (hv : b.Valid) {p : Pmap} {e : Field I64}
    (ok : (fastDecodeInt b p e).ret = .ok) (present : (fastDecodeInt b p e).field.stateEmpty = false)
    (still : movesExponent b p e = false) (x : List UInt8) :
    fastDecodeInt (b.receive x) p (fastDecodeInt b p e).field = fastDecodeInt (b.receive x) p e := by
  have twice := decode_int_twice ok present still
  rw [interruptible_int.receive p e hv (by rw [ok]; exact nofun) x,
    interruptible_int.receive p _ hv (by rw [twice, ok]; exact nofun) x, twice]

/-! ## Decimals, interrupted -/

/-- Whether a decimal is complete is decided by its mantissa. -/
theorem assign_decimal_ret (d : DecimalFields) (m : Decoded (Field I64)) : (assignDecimal d m).ret = m.ret := by
  unfold assignDecimal
  simp only
  split
  · rfl
  · rename_i ok
    exact (Decidable.not_not.mp ok).symm

/-- Putting a decimal together takes no bytes. -/
theorem assign_decimal_buffer (d : DecimalFields) (m : Decoded (Field I64)) :
    (assignDecimal d m).buffer = m.buffer := by
  unfold assignDecimal
  simp only
  split <;> rfl

theorem assign_decimal_pmap (d : DecimalFields) (m : Decoded (Field I64)) : (assignDecimal d m).pmap = m.pmap := by
  unfold assignDecimal
  simp only
  split <;> rfl

/-- Later bytes do not change how a decimal is put together. -/
theorem assign_decimal_receive (d : DecimalFields) (m : Decoded (Field I64)) (x : List UInt8) :
    assignDecimal d (m.receive x) = (assignDecimal d m).receive x := by
  unfold assignDecimal
  simp only [apply_ite (Decoded.receive x)]
  rfl

/-- The exponent is there: the mantissa is decoded behind it. -/
structure ReadsMantissa (e : Decoded (Field I64)) : Prop where
  ok : e.ret = .ok
  present : e.field.stateEmpty = false
  exponent : exponentOk e.field.value = true

/-- Behind an exponent the mantissa is decoded like any number. -/
theorem ReadsMantissa.eq {e : Decoded (Field I64)} (h : ReadsMantissa e) (d : DecimalFields) :
    decodeMantissa e d =
      assignDecimal { d with exponent := e.field } (fastDecodeInt e.buffer e.pmap d.mantissa) := by
  simp only [decodeMantissa, h.ok, h.present, h.exponent, ne_eq, not_true_eq_false, Bool.false_eq_true,
    Bool.not_true, if_false]

/-- Without a mantissa the decimal is done where its exponent is. -/
structure StopsAt (e : Decoded (Field I64)) (d : DecimalFields) : Prop where
  buffer : (decodeMantissa e d).buffer = e.buffer
  pmap : (decodeMantissa e d).pmap = e.pmap
  interrupted : (decodeMantissa e d).ret = .msgPartial ↔ e.ret = .msgPartial
  receive : ∀ x, decodeMantissa (e.receive x) d = (decodeMantissa e d).receive x
  kept : e.ret ≠ .ok → (decodeMantissa e d).field = { d with exponent := e.field }

/-- The mantissa is read, or the decimal is done. -/
theorem mantissa_cases (e : Decoded (Field I64)) (d : DecimalFields) : ReadsMantissa e ∨ StopsAt e d := by
  by_cases ok : e.ret = .ok
  · by_cases null : e.field.stateEmpty = true
    · have refused : (if d.field.isMandatory = true then Ret.garbled else Ret.ok) ≠ .msgPartial := by
        split <;> exact nofun
      right
      constructor <;> simp [decodeMantissa, Decoded.receive, ok, null, refused]
    · by_cases exponent : exponentOk e.field.value = true
      · exact .inl ⟨ok, by simpa using null, exponent⟩
      · right
        constructor <;> simp [decodeMantissa, Decoded.receive, ok, null, exponent]
  · right
    constructor <;> simp [decodeMantissa, Decoded.receive, ok]

/-- **A decimal with operators of its own** moves forward: the exponent, and the mantissa behind it. -/
theorem streams_individ : Streams fastDecodeDecimalIndivid where
  moved {b} p d hv := by
    have exponent := interruptible_int.moved p d.exponent hv
    unfold fastDecodeDecimalIndivid
    obtain reads | stops := mantissa_cases (fastDecodeInt b p d.exponent) d
    · rw [reads.eq, assign_decimal_buffer]
      exact exponent.trans (interruptible_int.moved _ _ (exponent.valid hv))
    · rw [stops.buffer]
      exact exponent
  cursor b p d := by
    have exponent := interruptible_int.cursor b p d.exponent
    unfold fastDecodeDecimalIndivid
    obtain reads | stops := mantissa_cases (fastDecodeInt b p d.exponent) d
    · rw [reads.eq, assign_decimal_pmap]
      have mantissa := interruptible_int.cursor (fastDecodeInt b p d.exponent).buffer
        (fastDecodeInt b p d.exponent).pmap d.mantissa
      rw [← mantissa] at exponent
      exact exponent
    · rw [stops.pmap]
      exact exponent
  receive {b} p d hv h x := by
    have valid := (interruptible_int.moved p d.exponent hv).valid hv
    unfold fastDecodeDecimalIndivid at h ⊢
    obtain reads | stops := mantissa_cases (fastDecodeInt b p d.exponent) d
    · rw [reads.eq, assign_decimal_ret] at h
      rw [interruptible_int.receive p d.exponent hv (by rw [reads.ok]; exact nofun) x, reads.eq]
      have later : ReadsMantissa ((fastDecodeInt b p d.exponent).receive x) :=
        ⟨reads.ok, reads.present, reads.exponent⟩
      rw [later.eq, ← assign_decimal_receive, ← interruptible_int.receive _ _ valid h x]
      rfl
    · rw [ne_eq, stops.interrupted] at h
      rw [interruptible_int.receive p d.exponent hv h x]
      exact stops.receive x

/-- The decimal runs out of bytes behind an exponent that a second step would move. -/
def splitsMantissa (b : Buffer) (p : Pmap) (d : DecimalFields) : Bool :=
  movesExponent b p d.exponent && (fastDecodeInt b p d.exponent).ret == .ok &&
    (fastDecodeDecimalIndivid b p d).ret == .msgPartial

/-- **An interrupted decimal.** It can be decoded again unless the cut is in the mantissa, behind an
exponent that moves. -/
theorem individ_again {b : Buffer} (hv : b.Valid) (p : Pmap) (d : DecimalFields)
    (whole : splitsMantissa b p d = false) (h : (fastDecodeDecimalIndivid b p d).ret = .msgPartial)
    (x : List UInt8) :
    fastDecodeDecimalIndivid (b.receive x) p (fastDecodeDecimalIndivid b p d).field =
      fastDecodeDecimalIndivid (b.receive x) p d := by
  have valid := (interruptible_int.moved p d.exponent hv).valid hv
  unfold splitsMantissa at whole
  unfold fastDecodeDecimalIndivid at h whole ⊢
  obtain reads | stops := mantissa_cases (fastDecodeInt b p d.exponent) d
  · have still : movesExponent b p d.exponent = false := by simpa [reads.ok, h] using whole
    rw [reads.eq, assign_decimal_ret] at h
    have stored : (decodeMantissa (fastDecodeInt b p d.exponent) d).field =
        { d with
          exponent := (fastDecodeInt b p d.exponent).field
          mantissa := (fastDecodeInt (fastDecodeInt b p d.exponent).buffer
            (fastDecodeInt b p d.exponent).pmap d.mantissa).field } := by
      rw [reads.eq, assignDecimal, if_pos (by rw [h]; exact nofun)]
    have later : ReadsMantissa ((fastDecodeInt b p d.exponent).receive x) :=
      ⟨reads.ok, reads.present, reads.exponent⟩
    rw [stored]
    simp only
    rw [decode_int_twice_receive hv reads.ok reads.present still x,
      interruptible_int.receive p d.exponent hv (by rw [reads.ok]; exact nofun) x, later.eq, later.eq]
    simp only [Decoded.receive]
    rw [interruptible_int.again _ _ valid h x]
    rfl
  · rw [stops.interrupted] at h
    rw [stops.kept (by rw [h]; exact nofun)]
    simp only
    rw [interruptible_int.again p d.exponent hv h x]
    rfl

/-! ## Elements -/

/-- **Every element** moves forward, by type. -/
theorem streams_element : Streams decodeElement where
  moved p f hv := by
    cases f with
    | int f => exact interruptible_int.moved p f hv
    | uint f => exact interruptible_uint.moved p f hv
    | string unicode f => exact (interruptible_string unicode).moved p f hv
    | vector f => exact interruptible_vector.moved p f hv
    | decimal individ f e m =>
      cases individ with
      | false => exact interruptible_decimal.moved p f hv
      | true => exact streams_individ.moved p ⟨f, e, m⟩ hv
    | nested name => exact hv.refl_moved
  cursor b p f := by
    cases f with
    | int f => exact interruptible_int.cursor b p f
    | uint f => exact interruptible_uint.cursor b p f
    | string unicode f => exact (interruptible_string unicode).cursor b p f
    | vector f => exact interruptible_vector.cursor b p f
    | decimal individ f e m =>
      cases individ with
      | false => exact interruptible_decimal.cursor b p f
      | true => exact streams_individ.cursor b p ⟨f, e, m⟩
    | nested name => rfl
  receive p f hv h x := by
    cases f with
    | int f => simp only [decodeElement, interruptible_int.receive p f hv h x]; rfl
    | uint f => simp only [decodeElement, interruptible_uint.receive p f hv h x]; rfl
    | string unicode f => simp only [decodeElement, (interruptible_string unicode).receive p f hv h x]; rfl
    | vector f => simp only [decodeElement, interruptible_vector.receive p f hv h x]; rfl
    | decimal individ f e m =>
      cases individ with
      | false => simp only [decodeElement, interruptible_decimal.receive p f hv h x]; rfl
      | true => simp only [decodeElement, streams_individ.receive p ⟨f, e, m⟩ hv h x]; rfl
    | nested name => rfl

/-- The element runs out of bytes where decoding it again would not do. -/
def splitsElement (b : Buffer) (p : Pmap) : ElementField → Bool
  | .decimal true f e m => splitsMantissa b p ⟨f, e, m⟩
  | _ => false

/-- **An interrupted element** can be decoded again where it is not cut in such a mantissa. -/
theorem element_again {b : Buffer} (hv : b.Valid) (p : Pmap) (f : ElementField)
    (whole : splitsElement b p f = false) (h : (decodeElement b p f).ret = .msgPartial) (x : List UInt8) :
    decodeElement (b.receive x) p (decodeElement b p f).field = decodeElement (b.receive x) p f := by
  cases f with
  | int f => simp only [decodeElement, interruptible_int.again p f hv h x]
  | uint f => simp only [decodeElement, interruptible_uint.again p f hv h x]
  | string unicode f => simp only [decodeElement, (interruptible_string unicode).again p f hv h x]
  | vector f => simp only [decodeElement, interruptible_vector.again p f hv h x]
  | decimal individ f e m =>
    cases individ with
    | false => simp only [decodeElement, interruptible_decimal.again p f hv h x]
    | true => simp only [decodeElement, individ_again hv p ⟨f, e, m⟩ whole h x]
  | nested name => rfl

end Libtrading.Fast
