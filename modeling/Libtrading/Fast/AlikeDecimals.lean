import Libtrading.Fast.AlikeReaders

/-!
# Decimals that decode alike

A decimal with individual operators is put together from its exponent and its mantissa, which a reset leaves alone.
The exponent decides whether there is a mantissa; and the mantissa's value is taken over also where it comes out empty.
-/

namespace Libtrading.Fast
set_option autoImplicit false
open Buffer

/-! ## What is seen -/

/-- The state of a field, and its value where it has one. -/
def Field.seen {α : Type} (view : α → α) (f : Field α) : State × Option α :=
  (f.state, if f.state = .assigned then some (view f.value) else none)

theorem Field.Agreed.seen {α : Type} {L : Likeness α} {f g : Field α} (h : f.Agreed L g) :
    f.seen L.view = g.seen L.view := by
  simp only [Field.seen, ← h.state]
  split_ifs with assigned
  · rw [h.value (by rw [assigned]; decide)]
  · rfl

/-! ## Numbers that are not decoded -/

section Numbers
variable {K : Kind (BitVec 64)} {parse : Buffer → Parse (BitVec 64)}
  {assign : Field (BitVec 64) → BitVec 64 → Field (BitVec 64)} {o f g : Field (BitVec 64)} {p q : Pmap}

/-- A number that is not decoded stays what it was. -/
theorem decode_number_unfinished (read : K.read = readNumber parse assign) (delta : K.delta = some readDelta) {b : Buffer}
    (stop : (decodeField K b p f).ret ≠ .ok) : (decodeField K b p f).field = f := by
  have present : ∀ absent : Field (BitVec 64) → Ret × Field (BitVec 64), ((absent f).1 ≠ .ok → (absent f).2 = f) →
      (decodePresent K absent b p f).ret ≠ .ok → (decodePresent K absent b p f).field = f := by
    intro absent refused stop
    unfold decodePresent at stop ⊢
    rw [read] at stop ⊢
    split_ifs at stop ⊢
    · exact number_unfinished stop
    · exact refused stop
  unfold decodeField at stop ⊢
  cases op : f.op with
  | none =>
    rw [op] at stop
    simp only [read] at stop ⊢
    exact number_unfinished stop
  | copy =>
    rw [op] at stop
    exact present _ previous_refused stop
  | incr =>
    rw [op] at stop
    cases incr : K.incr with
    | none => rfl
    | some inc =>
      simp only [incr] at stop
      exact present _ previous_refused stop
  | delta =>
    rw [op] at stop
    simp only [delta] at stop ⊢
    exact number_unfinished stop
  | default =>
    rw [op] at stop
    exact present _ initial_refused stop
  | constant =>
    rw [op] at stop
    refine absurd ?_ stop
    simp only [decodeConstant]
    split_ifs <;> rfl

/-- A number that is no field of its own, and is decoded over again where the bytes run out. -/
theorem number_stepped (law : K.Lockstep (plain _)) (read : K.read = readNumber parse assign)
    (delta : K.delta = some readDelta) (map : p.Alike q) (b : Buffer) (h : Field.Alike K (plain _) o False f g) :
    Decoded.InStep p q (decodeField K b p f) (decodeField K b q g) ∧
      Field.Alike K (plain _) o False (decodeField K b p f).field (decodeField K b q g).field ∧
      ((decodeField K b p f).ret = .ok → (decodeField K b p f).field.Agreed (plain _) (decodeField K b q g).field) := by
  obtain ⟨step, alike, agreed⟩ := field_stepped law map b (h.mono False.elim)
  refine ⟨step, ?_, agreed⟩
  by_cases ok : (decodeField K b p f).ret = .ok
  · refine (alike ?_).mono fun waits => ?_
    · exact fun fault => by cases ok.symm.trans fault
    · cases ok.symm.trans waits.1
  · rw [decode_number_unfinished read delta ok, decode_number_unfinished read delta fun ok' => ok (step.ret.trans ok')]
    exact h

end Numbers

/-! ## Decimals with individual operators -/

section Individ
variable {p q : Pmap}

theorem int_stepped (map : p.Alike q) (b : Buffer) {o f g : Field I64} (h : Field.Alike intKind (plain _) o False f g) :
    Decoded.InStep p q (fastDecodeInt b p f) (fastDecodeInt b q g) ∧
      Field.Alike intKind (plain _) o False (fastDecodeInt b p f).field (fastDecodeInt b q g).field ∧
      ((fastDecodeInt b p f).ret = .ok → (fastDecodeInt b p f).field.Agreed (plain _) (fastDecodeInt b q g).field) :=
  number_stepped int_lockstep rfl rfl map b h

theorem decode_int_unfinished {b : Buffer} {f : Field I64} (stop : (fastDecodeInt b p f).ret ≠ .ok) :
    (fastDecodeInt b p f).field = f := decode_number_unfinished rfl rfl stop

/-- A mantissa is seen where it comes out empty too: its values are the same, or none is left of the old one. -/
def Field.Covered (o f g : Field I64) : Prop :=
  f.value = g.value ∨ o.isMandatory = true ∨ o.op = .none ∨ o.op = .constant ∨
    (o.hasReset = true ∧ (o.op = .default ∨ g.state = .undefined))

section Mantissa
variable {o f g : Field I64} {b : Buffer}

theorem read_value (left : o.SameTemplate f) (right : o.SameTemplate g) (ok : (readInt b f).ret = .ok) :
    (readInt b f).field.value = (readInt b g).field.value := by
  unfold readInt readNumber at ok ⊢
  cases parsed : parseInt b with
  | fail ret b' =>
    rw [parsed] at ok
    exact absurd ok (parse_fails.2 parsed)
  | done v b' => exact (int_given left right v).value

theorem initial_value (left : o.SameTemplate f) (right : o.SameTemplate g)
    (kept : o.hasReset = false → o.isMandatory = false → f.value = g.value) (ok : (initialValue intKind f).1 = .ok) :
    (initialValue intKind f).2.value = (initialValue intKind g).2.value := by
  unfold initialValue at ok ⊢
  cases reset : o.hasReset with
  | true =>
    rw [if_pos (left.hasReset.trans reset), if_pos (right.hasReset.trans reset)]
    exact left.reset.trans right.reset.symm
  | false =>
    rw [if_neg (left.without reset)] at ok ⊢
    rw [if_neg (right.without reset), left.both right]
    cases mandatory : f.isMandatory with
    | true =>
      rw [if_pos mandatory] at ok
      cases ok
    | false => exact kept reset (left.isMandatory.symm.trans mandatory)

theorem previous_value {keep : I64 → I64} (left : o.SameTemplate f) (right : o.SameTemplate g)
    (entry : Field.Dictionary (plain _) keep o False f g)
    (kept : (o.hasReset = false ∨ g.state = .empty) → o.isMandatory = false → f.value = g.value)
    (ok : (previousValue intKind keep f).1 = .ok) :
    (previousValue intKind keep f).2.value = (previousValue intKind keep g).2.value := by
  have optional : f.state = .empty → o.isMandatory = false := by
    intro empty
    simp only [previousValue, empty, emptyValue] at ok
    rw [← left.isMandatory]
    cases mandatory : f.isMandatory with
    | true =>
      rw [if_pos mandatory] at ok
      cases ok
    | false => rfl
  have emptied : ∀ f : Field I64, (emptyValue f).2 = f := by
    intro f
    unfold emptyValue
    split_ifs <;> rfl
  unfold previousValue at ok ⊢
  cases entry with
  | same state value =>
    rw [← state]
    cases here : f.state with
    | undefined =>
      rw [here] at ok
      exact initial_value left right (fun none => kept (.inl none)) ok
    | assigned => exact congrArg keep ((value here).resolve_left fun waits => waits.1)
    | empty =>
      simp only
      rw [emptied, emptied]
      exact kept (.inr (state.symm.trans here)) (optional here)
  | initial lasting assigned fresh reset value =>
    rw [assigned, fresh]
    simp only [initialValue]
    rw [if_pos (right.hasReset.trans reset)]
    exact value.trans right.reset.symm
  | none empty fresh reset =>
    rw [empty, fresh]
    simp only [initialValue]
    rw [emptied, if_neg (right.without reset), right.isMandatory, optional empty]
    exact kept (.inl reset) (optional empty)

theorem constant_field_value (b : Buffer) (p : Pmap) (f : Field I64) :
    (decodeConstant intKind b p f).field.value = (constantValue intKind f).value := by
  unfold decodeConstant
  simp only
  split_ifs <;> rfl

/-- A mantissa that is covered has one value, also where it is empty. -/
theorem int_value (h : Field.Alike intKind (plain _) o False f g) (covered : Field.Covered o f g) {p q : Pmap}
    (map : p.Alike q) (b : Buffer) (ok : (fastDecodeInt b p f).ret = .ok) :
    (fastDecodeInt b p f).field.value = (fastDecodeInt b q g).field.value := by
  obtain ⟨left, right, -, -, delta, known, copied, counted⟩ := h
  have present : ∀ {absent : Field I64 → Ret × Field I64}, ((absent f).1 = .ok → (absent f).2.value = (absent g).2.value) →
      (decodePresent intKind absent b p f).ret = .ok →
        (decodePresent intKind absent b p f).field.value = (decodePresent intKind absent b q g).field.value := by
    intro absent off ok
    unfold decodePresent at ok ⊢
    rw [← map.next]
    by_cases set : p.next.pmapIsSet = true
    · rw [if_pos set] at ok ⊢
      rw [if_pos set]
      exact read_value left right ok
    · rw [if_neg set] at ok ⊢
      rw [if_neg set]
      exact off ok
  have kept : o.op ≠ .none → o.op ≠ .constant → (o.hasReset = false ∨ (o.op ≠ .default ∧ g.state = .empty)) →
      o.isMandatory = false → f.value = g.value := by
    intro none constant reset optional
    rcases covered with same | mandatory | is | is | ⟨has, is | fresh⟩
    · exact same
    · exact absurd (mandatory.symm.trans optional) (by decide)
    · exact absurd is none
    · exact absurd is constant
    · rcases reset with reset | ⟨other, -⟩
      · exact absurd (has.symm.trans reset) (by decide)
      · exact absurd is other
    · rcases reset with reset | ⟨-, empty⟩
      · exact absurd (has.symm.trans reset) (by decide)
      · exact absurd (fresh.symm.trans empty) (by decide)
  unfold fastDecodeInt decodeField at ok ⊢
  rw [left.op] at ok ⊢
  rw [right.op]
  cases op : o.op with
  | none =>
    rw [op] at ok
    exact read_value left right ok
  | copy =>
    rw [op] at ok kept
    refine present (fun off => ?_) ok
    refine previous_value left right (copied op) (fun reset => kept (by decide) (by decide) ?_) off
    exact reset.imp_right fun empty => ⟨by decide, empty⟩
  | incr =>
    rw [op] at ok kept
    refine present (fun off => ?_) ok
    refine previous_value left right (counted op _ rfl) (fun reset => kept (by decide) (by decide) ?_) off
    exact reset.imp_right fun empty => ⟨by decide, empty⟩
  | delta => 
    rw [op] at ok
    exact (number_alike (fun {_ _ _} => parse_fails.2) left right
      (fun v => delta_given left right (delta op) v) b).2 (delta op)
  | default =>
    rw [op] at ok kept
    exact present (initial_value left right fun none => kept (by decide) (by decide) (.inl none)) ok
  | constant =>
    have here := constant_loaded int_lockstep left (known op).1
    have there := constant_loaded int_lockstep right (known op).2
    simp only
    rw [constant_field_value, constant_field_value]
    exact here.trans there.symm

end Mantissa

/-- Two decimals whose sub-fields decode alike. -/
structure DecimalFields.Alike (o : Field Decimal) (e m : Field I64) (d d' : DecimalFields) : Prop where
  left : o.SameTemplate d.field
  right : o.SameTemplate d'.field
  exponent : Field.Alike intKind (plain _) e False d.exponent d'.exponent
  mantissa : Field.Alike intKind (plain _) m False d.mantissa d'.mantissa
  covered : Field.Covered m d.mantissa d'.mantissa

theorem Decoded.InStep.trans {φ ψ : Type} {r r' : Decoded φ} {s s' : Decoded ψ} (h : Decoded.InStep p q r r')
    (h' : Decoded.InStep r.pmap r'.pmap s s') : Decoded.InStep p q s s' := by
  obtain ⟨-, -, k, here, there⟩ := h
  obtain ⟨ret, buffer, j, here', there'⟩ := h'
  refine ⟨ret, buffer, k + j, ?_, ?_⟩
  · rw [here', here, Pmap.skip_skip]
  · rw [there', there, Pmap.skip_skip]

theorem Decoded.InStep.map {φ : Type} {r r' : Decoded φ} (h : Decoded.InStep p q r r') (map : p.Alike q) :
    r.pmap.Alike r'.pmap := by
  obtain ⟨-, -, k, here, there⟩ := h
  rw [here, there]
  exact map.skip k

/-- The same outcome of two steps that went alike. -/
theorem Decoded.InStep.put {φ ψ : Type} {r r' : Decoded φ} (h : Decoded.InStep p q r r') (ret : Ret) (f g : ψ) :
    Decoded.InStep p q ⟨ret, r.buffer, r.pmap, f⟩ ⟨ret, r'.buffer, r'.pmap, g⟩ := ⟨rfl, h.buffer, h.pmap⟩

/-- What holds of two decimals behind a step. -/
structure DecimalFields.Stepped (o : Field Decimal) (e m : Field I64) (p q : Pmap) (r r' : Decoded DecimalFields) : Prop where
  step : Decoded.InStep p q r r'
  alike : DecimalFields.Alike o e m r.field r'.field
  seen : r.ret = .ok → r.field.field.seen id = r'.field.field.seen id

variable {o : Field Decimal} {e m : Field I64} {d d' : DecimalFields}

theorem assign_stepped (h : DecimalFields.Alike o e m d d') (value : d.exponent.value = d'.exponent.value)
    (map : p.Alike q) (b : Buffer) : DecimalFields.Stepped o e m p q
      (assignDecimal d (fastDecodeInt b p d.mantissa)) (assignDecimal d' (fastDecodeInt b q d'.mantissa)) := by
  obtain ⟨step, alike, -⟩ := int_stepped map b h.mantissa
  unfold assignDecimal
  simp only [← step.ret]
  by_cases ok : (fastDecodeInt b p d.mantissa).ret = .ok
  · rw [if_neg (not_not_intro ok), if_neg (not_not_intro ok)]
    have number := int_value h.mantissa h.covered map b ok
    refine ⟨step.put .ok _ _, ⟨h.left.put _ _, h.right.put _ _, h.exponent, alike, .inl number⟩, fun _ => ?_⟩
    simp only [Field.seen, value, number]
  · rw [if_pos ok, if_pos ok]
    have covered : Field.Covered m (fastDecodeInt b p d.mantissa).field (fastDecodeInt b q d'.mantissa).field := by
      rw [decode_int_unfinished ok, decode_int_unfinished fun ok' => ok (step.ret.trans ok')]
      exact h.covered
    exact ⟨step.put _ _ _, ⟨h.left, h.right, h.exponent, alike, covered⟩, fun done => absurd done ok⟩

theorem individ_stepped (h : DecimalFields.Alike o e m d d') (map : p.Alike q) (b : Buffer) :
    DecimalFields.Stepped o e m p q (fastDecodeDecimalIndivid b p d) (fastDecodeDecimalIndivid b q d') := by
  obtain ⟨step, alike, agreed⟩ := int_stepped map b h.exponent
  have map' := step.map map
  unfold fastDecodeDecimalIndivid decodeMantissa
  generalize fastDecodeInt b p d.exponent = E at *
  generalize fastDecodeInt b q d'.exponent = E' at *
  simp only [← step.ret]
  have d_alike : DecimalFields.Alike o e m { d with exponent := E.field } { d' with exponent := E'.field } :=
    ⟨h.left, h.right, alike, h.mantissa, h.covered⟩
  by_cases ok : E.ret = .ok
  · rw [if_neg (not_not_intro ok), if_neg (not_not_intro ok)]
    have null : E'.field.stateEmpty = E.field.stateEmpty := by simp only [Field.stateEmpty, (agreed ok).state]
    rw [null]
    by_cases empty : E.field.stateEmpty = true
    · rw [if_pos empty, if_pos empty, h.left.both h.right]
      refine ⟨step.put _ _ _, ⟨h.left.put _ _, h.right.put _ _, alike, h.mantissa, h.covered⟩, fun _ => ?_⟩
      simp only [Field.seen]
      rfl
    · rw [if_neg empty, if_neg empty]
      have value : E.field.value = E'.field.value := by
        refine (agreed ok).value fun is => empty ?_
        simp only [Field.stateEmpty, is]
        rfl
      rw [← value]
      split_ifs
      · exact ⟨step.put .garbled _ _, d_alike, fun done => by cases done⟩
      · rw [← step.buffer]
        obtain ⟨step', alike', seen⟩ := assign_stepped d_alike value map' E.buffer
        exact ⟨step.trans step', alike', seen⟩
  · rw [if_pos ok, if_pos ok]
    exact ⟨step.put _ _ _, d_alike, fun done => absurd done ok⟩

end Individ

end Libtrading.Fast
