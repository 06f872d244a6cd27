import Libtrading.Fast.AlikeMessages

/-!
# What a reset forgets

`fast_message_reset` puts the values of fields back and leaves their states, the sub-fields of a decimal with individual
operators, the length of a sequence, and of a vector without initial value all but the first bytes. A field is forgotten
where this comes to the same as loading its template.
-/

namespace Libtrading.Fast
set_option autoImplicit false
open Buffer

/-! ## Fields that are forgotten -/

namespace Field
variable {α : Type}

/-- What copy and increment make of the entry, once the value is put back, is what they make of an undefined one.
`lasting` says that a value which is refused half-way leaves the one before, `counts` that the type has an increment. -/
def forgotten (lasting counts : Bool) (f : Field α) : Bool :=
  match f.op with
  | .copy =>
    f.state == .undefined || (lasting && f.state == .assigned && f.hasReset) || (f.state == .empty && !f.hasReset)
  | .incr => !counts || f.state == .undefined || (f.state == .empty && !f.hasReset)
  | _ => true

/-- The same of a number that no reset puts back. -/
def untouched (f : Field (BitVec 64)) : Bool :=
  match f.op with
  | .delta => f.value == f.reset
  | .copy =>
    f.state == .undefined || (f.state == .assigned && f.hasReset && f.value == f.reset) ||
      (f.state == .empty && !f.hasReset)
  | .incr =>
    f.state == .undefined || (f.state == .assigned && f.hasReset && f.value + 1 == f.reset) ||
      (f.state == .empty && !f.hasReset)
  | _ => true

/-- Of a mantissa the value must not show where it is empty. -/
def covered (f : Field I64) : Bool :=
  f.value == f.reset || f.isMandatory || f.op == .none || f.op == .constant || f.hasReset

end Field

def ElementField.forgotten : ElementField → Bool
  | .int f => f.forgotten true true
  | .uint f => f.forgotten true true
  | .string unicode f => f.forgotten unicode false
  | .vector f => (f.hasReset || f.value.drop 8 == blankBytes.drop 8) && f.forgotten true false
  | .decimal false f _ _ => f.forgotten true false
  | .decimal true _ e m => e.untouched && m.untouched && m.covered
  | .nested _ => true

def FastField.forgotten : FastField → Bool
  | .elem f => f.forgotten
  | .sequence s => s.length.untouched && s.head.all ElementField.forgotten

def Message.forgotten (m : Message) : Bool := m.fields.all FastField.forgotten

/-! ## Fields of a template -/

/-- A field as its template loaded it; without an initial value it holds `zero`. -/
structure Field.Loaded {α : Type} (L : Likeness α) (zero : α) (o : Field α) : Prop where
  state : o.state = .undefined
  value : o.value = o.reset
  blank : o.hasReset = false → o.reset = zero
  initial : L.Initial o.reset
  stored : L.Stored o.reset o.reset

section Loading
variable {α : Type} {K : Kind α} {L : Likeness α} {zero : α} {o f : Field α} {wire : Prop} {clear : α → α}

theorem Field.SameTemplate.refl (o : Field α) : o.SameTemplate o := ⟨rfl, rfl, rfl, rfl⟩

theorem field_init_loaded (n : Node α) (empty : L.Initial zero ∧ L.Stored zero zero)
    (given : ∀ v, n.prop = some v → L.Initial v ∧ L.Stored v v) : (n.fieldInit zero).Loaded L zero := by
  have both : L.Initial (n.prop.getD zero) ∧ L.Stored (n.prop.getD zero) (n.prop.getD zero) := by
    cases prop : n.prop with
    | none => exact empty
    | some v => exact given v prop
  refine ⟨rfl, rfl, fun none => ?_, both.1, both.2⟩
  have none : n.prop.isSome = false := none
  show n.prop.getD zero = zero
  rw [Option.isSome_eq_false_iff, Option.isNone_iff_eq_none] at none
  rw [none]
  rfl

/-- A loaded field decodes as itself. -/
theorem Field.Loaded.alike (h : o.Loaded L zero) : Field.Alike K L o False o o where
  left := .refl o
  right := .refl o
  initial := h.initial
  stored := by
    rw [h.value]
    exact h.stored
  delta _ := rfl
  constant _ := ⟨fun _ => by rw [h.value], fun _ => by rw [h.value]⟩
  copied _ := .same rfl fun _ => .inr rfl
  counted _ _ _ := .same rfl fun _ => .inr rfl

/-- What is left of the template. -/
theorem template_restart (load : α → α → α) (same : o.SameTemplate f) : o.SameTemplate (f.restart load clear) := by
  unfold Field.restart
  split_ifs <;> exact ⟨same.presence, same.op, same.hasReset, same.reset⟩

theorem state_restart (load : α → α → α) : (f.restart load clear).state = f.state := by
  unfold Field.restart
  split_ifs <;> rfl

theorem value_restart (load : α → α → α) (same : o.SameTemplate f) : (f.restart load clear).value =
    if o.hasReset then load f.value o.reset else clear f.value := by
  unfold Field.restart
  rw [same.hasReset]
  split_ifs
  · rw [same.reset]
  · rfl

/-- A field that is put back decodes as itself. -/
theorem Field.Alike.restart (law : K.Lockstep L) (loaded : o.Loaded L zero)
    (clears : ∀ {v}, L.Stored v v → L.Stored (clear v) (clear v))
    (blank : ∀ {v}, L.view v = L.view zero → L.view (clear v) = L.view zero) (h : Field.Alike K L o wire f f) :
    Field.Alike K L o False (f.restart K.load clear) (f.restart K.load clear) := by
  have value : (f.restart K.load clear).value = _ := value_restart K.load h.left
  have known : o.op = .constant → (f.restart K.load clear).state = .assigned →
      L.view (f.restart K.load clear).value = L.view o.reset := by
    intro op assigned
    rw [state_restart] at assigned
    rw [value]
    split_ifs with reset
    · exact law.loaded _ _
    · have zero := loaded.blank (Bool.eq_false_iff.2 reset)
      have same := (h.constant op).1 assigned
      rw [zero] at same ⊢
      exact blank same
  refine ⟨template_restart _ h.left, template_restart _ h.left, h.initial, ?_, fun _ => rfl, fun op => ⟨known op, known op⟩,
    fun _ => .same rfl fun _ => .inr rfl, fun _ _ _ => .same rfl fun _ => .inr rfl⟩
  rw [value]
  split_ifs
  · exact law.load h.stored h.initial
  · exact clears h.stored

/-- **A field that is forgotten** decodes as the one of the template, once it is put back. -/
theorem Field.Alike.restarted (law : K.Lockstep L) (loaded : o.Loaded L zero) (h : Field.Alike K L o wire f f)
    (put : L.Stored (K.load f.value o.reset) o.reset)
    (cleared : o.hasReset = false → L.Stored (clear f.value) zero ∧ L.view (clear f.value) = L.view zero)
    {lasting counts : Bool} (lasts : lasting = true → L.Lasting) (incr : counts = false → K.incr = none)
    (forgotten : f.forgotten lasting counts = true) :
    Field.Alike K L o False (f.restart K.load clear) o := by
  have both : L.Stored (f.restart K.load clear).value o.value ∧ L.view (f.restart K.load clear).value = L.view o.reset := by
    rw [value_restart K.load h.left, loaded.value]
    split_ifs with reset
    · exact ⟨put, law.loaded _ _⟩
    · have none := Bool.eq_false_iff.2 reset
      rw [loaded.blank none]
      exact cleared none
  have state : (f.restart K.load clear).state = f.state := state_restart K.load
  refine ⟨template_restart _ h.left, .refl o, h.initial, both.1, fun _ => both.2.trans (by rw [loaded.value]),
    fun _ => ⟨fun _ => both.2, fun _ => by rw [loaded.value]⟩, fun op => ?_, fun op inc is => ?_⟩
  · unfold Field.forgotten at forgotten
    rw [h.left.op, op] at forgotten
    simp only [Bool.or_eq_true, Bool.and_eq_true, beq_iff_eq, Bool.not_eq_true', h.left.hasReset] at forgotten
    rcases forgotten with (undefined | ⟨⟨last, assigned⟩, reset⟩) | ⟨empty, reset⟩
    · exact .same (state.trans (undefined.trans loaded.state.symm)) fun _ => .inr (both.2.trans (by rw [loaded.value]))
    · exact .initial (lasts last) (state.trans assigned) loaded.state reset both.2
    · exact .none (state.trans empty) loaded.state reset
  · unfold Field.forgotten at forgotten
    rw [h.left.op, op] at forgotten
    simp only [Bool.or_eq_true, Bool.and_eq_true, beq_iff_eq, Bool.not_eq_true', h.left.hasReset] at forgotten
    rcases forgotten with (none | undefined) | ⟨empty, reset⟩
    · cases (incr none).symm.trans is
    · exact .same (state.trans (undefined.trans loaded.state.symm)) fun _ => .inr (both.2.trans (by rw [loaded.value]))
    · exact .none (state.trans empty) loaded.state reset

end Loading

/-! ## Numbers that no reset puts back -/

section Numbers
variable {K : Kind (BitVec 64)} {o f : Field (BitVec 64)}

theorem Field.Alike.untouched (incr : K.incr = some (· + 1)) (loaded : o.Loaded (plain _) 0)
    (h : Field.Alike K (plain _) o False f f) (untouched : f.untouched = true) :
    Field.Alike K (plain _) o False f o := by
  unfold Field.untouched at untouched
  rw [h.left.op] at untouched
  have undefined : f.state = .undefined → ∀ keep, Field.Dictionary (plain _) keep o False f o := by
    intro undefined keep
    refine .same (undefined.trans loaded.state.symm) fun assigned => ?_
    cases undefined.symm.trans assigned
  refine ⟨h.left, .refl o, h.initial, trivial, fun op => ?_, fun op => ⟨(h.constant op).1, fun _ => congrArg id loaded.value⟩,
    fun op => ?_, fun op inc is => ?_⟩
  · rw [op] at untouched
    simp only [beq_iff_eq] at untouched
    exact congrArg id (untouched.trans (h.left.reset.trans loaded.value.symm))
  · rw [op] at untouched
    simp only [Bool.or_eq_true, Bool.and_eq_true, beq_iff_eq, Bool.not_eq_true', h.left.hasReset, h.left.reset] at untouched
    rcases untouched with (here | ⟨⟨assigned, reset⟩, value⟩) | ⟨empty, reset⟩
    · exact undefined here _
    · exact .initial trivial assigned loaded.state reset (congrArg id value)
    · exact .none empty loaded.state reset
  · rw [op] at untouched
    rw [incr] at is
    obtain rfl := Option.some.inj is
    simp only [Bool.or_eq_true, Bool.and_eq_true, beq_iff_eq, Bool.not_eq_true', h.left.hasReset, h.left.reset] at untouched
    rcases untouched with (here | ⟨⟨assigned, reset⟩, value⟩) | ⟨empty, reset⟩
    · exact undefined here _
    · exact .initial trivial assigned loaded.state reset (congrArg id value)
    · exact .none empty loaded.state reset

theorem covered_loaded (loaded : o.Loaded (plain _) 0) (same : o.SameTemplate f) (covered : f.covered = true) :
    Field.Covered o f o := by
  unfold Field.covered at covered
  simp only [Bool.or_eq_true, beq_iff_eq, same.op, same.reset, same.hasReset, same.isMandatory] at covered
  rcases covered with (((value | mandatory) | none) | constant) | reset
  · exact .inl (value.trans loaded.value.symm)
  · exact .inr (.inl mandatory)
  · exact .inr (.inr (.inl none))
  · exact .inr (.inr (.inr (.inl constant)))
  · exact .inr (.inr (.inr (.inr ⟨reset, .inr loaded.state⟩)))

end Numbers

/-! ## Elements -/

section Templates

theorem number_loaded (n : Node (BitVec 64)) : (n.fieldInit 0).Loaded (plain _) 0 :=
  field_init_loaded n ⟨trivial, trivial⟩ fun _ _ => ⟨trivial, trivial⟩

theorem decimal_loaded (n : Node Decimal) : (decimalInit n).Loaded (whole _) ⟨0, 0⟩ :=
  field_init_loaded _ ⟨trivial, rfl⟩ fun _ _ => ⟨trivial, rfl⟩

theorem vector_loaded (n : Node Bytes) : (vectorInit n).Loaded (whole _) blankBytes :=
  field_init_loaded _ ⟨trivial, rfl⟩ fun _ _ => ⟨trivial, rfl⟩

theorem blank_terminated : Terminated blankBytes where
  size := List.length_replicate
  last := by
    rw [List.getD_eq_getElem?_getD, blankBytes, List.getElem?_replicate]
    rfl

theorem blank_chars : cstr blankBytes = [] := by decide

/-- The initial value of a string, in its array. -/
theorem string_given {unicode : Bool} {n : Node Bytes} (fits : (ElementNode.string unicode n).fits) {v : Bytes}
    (prop : ({ n with value := n.value.map (strcpy blankBytes) } : Node Bytes).prop = some v) :
    (cstr v).length < stringMaxBytes ∧ Terminated v := by
  have fits : ∀ v, n.prop = some v → (cstr v).length < stringMaxBytes := fits
  unfold Node.prop at prop fits
  cases value : n.value with
  | none =>
    rw [value] at prop
    simp only [Option.map_none] at prop
    split at prop <;> cases prop
  | some u =>
    rw [value] at prop fits
    simp only [Option.map_some] at prop
    split at prop
    · cases prop
    · rename_i other
      obtain rfl := Option.some.inj prop
      have short : (cstr u).length < stringMaxBytes := by
        refine fits u ?_
        split
        · rename_i none
          exact absurd none other
        · rfl
      rw [cstr_strcpy]
      exact ⟨short, blank_terminated.strcpy short⟩

theorem blank_short : (cstr blankBytes).length < stringMaxBytes := by
  rw [blank_chars]
  decide

theorem unicode_loaded {n : Node Bytes} (fits : (ElementNode.string true n).fits) :
    (stringInit n).Loaded chars blankBytes :=
  field_init_loaded _ ⟨blank_short, ⟨blank_terminated.size, blank_terminated.size⟩, rfl⟩ fun _ prop =>
    ⟨(string_given fits prop).1, ⟨(string_given fits prop).2.size, (string_given fits prop).2.size⟩, rfl⟩

theorem ascii_loaded {n : Node Bytes} (fits : (ElementNode.string false n).fits) :
    (stringInit n).Loaded passing blankBytes :=
  field_init_loaded _ ⟨blank_short, blank_terminated, blank_terminated⟩ fun _ prop =>
    ⟨(string_given fits prop).1, (string_given fits prop).2, (string_given fits prop).2⟩

/-- The first bytes of a cleared vector. -/
theorem cleared_bytes : List.replicate 8 (0 : UInt8) ++ blankBytes.drop 8 = blankBytes := by
  rw [blankBytes, List.drop_replicate, List.replicate_append_replicate]
  rfl

/-- A cleared string is an empty one. -/
theorem cleared_chars (v : Bytes) : cstr (v.set 0 0) = [] := by
  cases v <;> rfl

end Templates

section Elements
variable {n : ElementNode} {f g : ElementField} {wire : Prop}

/-- A decimal with individual operators, as its template loads it. -/
def individInit (name : String) (presence : Presence) (e m : Node I64) : DecimalFields :=
  ⟨decimalInit ⟨name, presence, .none, none⟩, ({ e with presence := presence } : Node I64).fieldInit 0, m.fieldInit 0⟩

/-- A loaded field decodes as itself. -/
theorem element_init_alike (fits : n.fits) :
    ElementField.Alike False (elementInit n) (elementInit n) (elementInit n) := by
  cases n with
  | int n => exact .int (number_loaded n).alike
  | uint n => exact .uint (number_loaded n).alike
  | string unicode n =>
    cases unicode with
    | true => exact .unicode (unicode_loaded fits).alike
    | false => exact .ascii (ascii_loaded fits).alike
  | vector n => exact .vector (vector_loaded n).alike
  | decimal n => exact .atomic (decimal_loaded n).alike
  | individ name presence e m =>
    have parts : DecimalFields.Alike _ _ _ (individInit name presence e m) (individInit name presence e m) :=
      ⟨.refl _, .refl _, (number_loaded _).alike, (number_loaded m).alike, .inl rfl⟩
    exact .individ parts
  | nested name => exact .nested

/-- What two decimals with individual operators that decode alike are. -/
theorem individ_alike {o : Field Decimal} {e m : Field I64} (h : ElementField.Alike wire (.decimal true o e m) f g) :
    ∃ d d' : DecimalFields, f = .decimal true d.field d.exponent d.mantissa ∧
      g = .decimal true d'.field d'.exponent d'.mantissa ∧ DecimalFields.Alike o e m d d' := by
  cases h with
  | individ h => exact ⟨_, _, rfl, rfl, h⟩

/-- The same of one decimal, which decodes as itself. -/
theorem individ_self {o : Field Decimal} {e m : Field I64} (h : ElementField.Alike wire (.decimal true o e m) f f) :
    ∃ d : DecimalFields, f = .decimal true d.field d.exponent d.mantissa ∧ DecimalFields.Alike o e m d d := by
  obtain ⟨d, d', here, there, alike⟩ := individ_alike h
  obtain ⟨field, exponent, mantissa⟩ := d
  obtain ⟨field', exponent', mantissa'⟩ := d'
  have same := here.symm.trans there
  injection same with _ field exponent mantissa
  subst field exponent mantissa
  exact ⟨_, here, alike⟩

theorem reset_decimal_template {o f : Field Decimal} (same : o.SameTemplate f) : o.SameTemplate (resetDecimal f) :=
  template_restart _ same

/-- A field that is put back decodes as itself. -/
theorem element_reset_alike (fits : n.fits) (h : ElementField.Alike wire (elementInit n) f f) :
    ElementField.Alike False (elementInit n) f.fastReset f.fastReset := by
  cases n with
  | int n =>
    cases h with
    | int h => exact .int (h.restart int_lockstep (number_loaded n) (fun _ => trivial) fun _ => rfl)
  | uint n =>
    cases h with
    | uint h => exact .uint (h.restart uint_lockstep (number_loaded n) (fun _ => trivial) fun _ => rfl)
  | string unicode n =>
    have blank : ∀ {v : Bytes}, cstr v = cstr blankBytes → cstr (v.set 0 0) = cstr blankBytes := fun _ =>
      (cleared_chars _).trans blank_chars.symm
    cases unicode with
    | true =>
      cases h with
      | unicode h =>
        refine .unicode (h.restart unicode_lockstep (unicode_loaded fits) (fun stored => ?_) blank)
        exact ⟨⟨List.length_set.trans stored.1.1, List.length_set.trans stored.1.2⟩, rfl⟩
    | false =>
      cases h with
      | ascii h =>
        refine .ascii (h.restart ascii_lockstep (ascii_loaded fits) (fun stored => ?_) blank)
        exact ⟨stored.1.set (.inr rfl), stored.2.set (.inr rfl)⟩
  | vector n =>
    cases h with
    | vector h =>
      refine .vector (h.restart vector_lockstep (vector_loaded n) (fun _ => rfl) fun {v} blank => ?_)
      have blank : v = blankBytes := blank
      rw [blank]
      exact cleared_bytes
  | decimal n =>
    cases h with
    | atomic h => exact .atomic (h.restart decimal_lockstep (decimal_loaded n) (fun _ => rfl) fun _ => rfl)
  | individ name presence e m =>
    obtain ⟨d, rfl, alike⟩ := individ_self h
    have left := reset_decimal_template alike.left
    have parts : DecimalFields.Alike _ _ _ ⟨resetDecimal d.field, d.exponent, d.mantissa⟩
        ⟨resetDecimal d.field, d.exponent, d.mantissa⟩ :=
      ⟨left, left, alike.exponent, alike.mantissa, alike.covered⟩
    exact .individ parts
  | nested name =>
    cases h with
    | nested => exact .nested

/-- **An element that is forgotten** decodes as the one of the template, once it is put back. -/
theorem element_reset_fresh (fits : n.fits) (h : ElementField.Alike wire (elementInit n) f f) (forgotten : f.forgotten = true) :
    ElementField.Alike False (elementInit n) f.fastReset (elementInit n) := by
  cases n with
  | int n =>
    cases h with
    | int h =>
      exact .int (h.restarted int_lockstep (number_loaded n) trivial (fun _ => ⟨trivial, rfl⟩) (fun _ => trivial)
        (fun none => by cases none) forgotten)
  | uint n =>
    cases h with
    | uint h =>
      exact .uint (h.restarted uint_lockstep (number_loaded n) trivial (fun _ => ⟨trivial, rfl⟩) (fun _ => trivial)
        (fun none => by cases none) forgotten)
  | string unicode n =>
    cases unicode with
    | true =>
      cases h with
      | unicode h =>
        have loaded := unicode_loaded fits
        refine .unicode (h.restarted unicode_lockstep loaded ?_ (fun _ => ⟨⟨⟨?_, blank_terminated.size⟩, ?_⟩, ?_⟩) (fun _ => trivial)
          (fun _ => rfl) forgotten)
        · exact ⟨⟨strcpy_size h.stored.1.1 h.initial, loaded.stored.1.1⟩, cstr_strcpy _ _⟩
        · exact List.length_set.trans h.stored.1.1
        · exact (cleared_chars _).trans blank_chars.symm
        · exact (cleared_chars _).trans blank_chars.symm
    | false =>
      cases h with
      | ascii h =>
        have loaded := ascii_loaded fits
        refine .ascii (h.restarted ascii_lockstep loaded ?_ (fun _ => ⟨⟨?_, blank_terminated⟩, ?_⟩)
          (fun lasts => by cases lasts) (fun _ => rfl) forgotten)
        · exact ⟨h.stored.1.strcpy h.initial, loaded.stored.1⟩
        · exact h.stored.1.set (.inr rfl)
        · exact (cleared_chars _).trans blank_chars.symm
  | vector n =>
    cases h with
    | @vector _ v _ h =>
      have both := Bool.and_eq_true_iff.1 forgotten
      refine .vector (h.restarted vector_lockstep (vector_loaded n) rfl (fun none => ?_) (fun _ => trivial) (fun _ => rfl) both.2)
      have rest : v.value.drop 8 = blankBytes.drop 8 := by
        have either := both.1
        rw [h.left.hasReset, none, Bool.false_or, beq_iff_eq] at either
        exact either
      have cleared : List.replicate 8 0 ++ v.value.drop 8 = blankBytes := by
        rw [rest]
        exact cleared_bytes
      exact ⟨cleared, cleared⟩
  | decimal n =>
    cases h with
    | atomic h =>
      exact .atomic (h.restarted decimal_lockstep (decimal_loaded n) rfl (fun _ => ⟨rfl, rfl⟩) (fun _ => trivial)
        (fun _ => rfl) forgotten)
  | individ name presence e m =>
    obtain ⟨d, rfl, alike⟩ := individ_self h
    have parts := Bool.and_eq_true_iff.1 forgotten
    obtain ⟨exponent, mantissa⟩ := Bool.and_eq_true_iff.1 parts.1
    have fresh : DecimalFields.Alike _ _ _ ⟨resetDecimal d.field, d.exponent, d.mantissa⟩ (individInit name presence e m) :=
      ⟨reset_decimal_template alike.left, .refl _, alike.exponent.untouched rfl (number_loaded _) exponent,
        alike.mantissa.untouched rfl (number_loaded m) mantissa, covered_loaded (number_loaded m) alike.mantissa.left parts.2⟩
    exact .individ fresh
  | nested name =>
    cases h with
    | nested => exact .nested

end Elements

end Libtrading.Fast
