import Libtrading.Fast.Codec
import Libtrading.Fast.Template

/-!
# Fields that decode alike

Two dictionaries of one template field, of which the second may be as the template loaded it. What the first one has
besides makes no difference where the operator does not look at it, or where it comes to the value that the field is
loaded with. Then the same bytes are read alike, and after them the two fields show the same.
-/

namespace Libtrading.Fast
set_option autoImplicit false
open Buffer

/-! ## Maps -/

namespace Pmap

/-- The map behind `k` of its bits. -/
def skip (p : Pmap) (k : Nat) : Pmap := { p with pmapBit := p.pmapBit + k }

/-- Two maps with the same bits to come. -/
def Alike (p q : Pmap) : Prop := ∀ k : Nat, (p.skip k).pmapIsSet = (q.skip k).pmapIsSet

theorem skip_zero (p : Pmap) : p.skip 0 = p := by simp only [skip, Int.natCast_zero, Int.add_zero]

theorem skip_skip (p : Pmap) (j k : Nat) : (p.skip j).skip k = p.skip (j + k) := by
  simp only [skip, Int.natCast_add, Int.add_assoc]

theorem Alike.skip {p q : Pmap} (h : p.Alike q) (k : Nat) : (p.skip k).Alike (q.skip k) := by
  intro j
  rw [skip_skip, skip_skip]
  exact h (k + j)

theorem Alike.next {p q : Pmap} (h : p.Alike q) : p.next.pmapIsSet = q.next.pmapIsSet := h 1

end Pmap

/-- Two outcomes of a field decoder that went alike: the same return, the same bytes read and the same bits used. -/
structure Decoded.InStep {φ : Type} (p q : Pmap) (r r' : Decoded φ) : Prop where
  ret : r.ret = r'.ret
  buffer : r.buffer = r'.buffer
  pmap : ∃ k, r.pmap = p.skip k ∧ r'.pmap = q.skip k

/-! ## Fields -/

/-- When two values of a type are alike: `view` is what the application sees, `Stored` what has to hold of their arrays
in any state, and `Initial` what it takes to load one. Where they are `Lasting`, a value that was not read to its end
leaves the one before. -/
structure Likeness (α : Type) where
  view : α → α
  Stored : α → α → Prop
  Initial : α → Prop
  Lasting : Prop

section Relation
variable {α : Type} (K : Kind α) (L : Likeness α)

/-- Two fields after they were decoded: in the same state, with the same value if there is one. -/
structure Field.Agreed (f g : Field α) : Prop where
  state : f.state = g.state
  value : f.state ≠ .empty → L.view f.value = L.view g.value

/-- Two dictionary entries that lead to the same value where a field with copy or increment is left off the wire:
`keep` is what the operator does with an assigned value. A value that is half read is on the wire, as `wire` says. -/
inductive Field.Dictionary (keep : α → α) (o : Field α) (wire : Prop) (f g : Field α) : Prop
  | same (state : f.state = g.state)
    (value : f.state = .assigned → wire ∧ ¬L.Lasting ∨ L.view f.value = L.view g.value)
  | initial (lasting : L.Lasting) (left : f.state = .assigned) (fresh : g.state = .undefined) (reset : o.hasReset = true)
    (value : L.view (keep f.value) = L.view o.reset)
  | none (left : f.state = .empty) (fresh : g.state = .undefined) (reset : o.hasReset = false)

/-- Two fields of the template field `o` that decode alike; `wire` says that the value is on the wire. -/
structure Field.Alike (o : Field α) (wire : Prop) (f g : Field α) : Prop where
  left : o.SameTemplate f
  right : o.SameTemplate g
  initial : L.Initial o.reset
  stored : L.Stored f.value g.value
  delta : o.op = .delta → L.view f.value = L.view g.value
  constant : o.op = .constant → (f.state = .assigned → L.view f.value = L.view o.reset) ∧
    (g.state = .assigned → L.view g.value = L.view o.reset)
  copied : o.op = .copy → Field.Dictionary L id o wire f g
  counted : o.op = .incr → ∀ inc, K.incr = some inc → Field.Dictionary L inc o wire f g

/-- Two readings that went alike. After a store outside of an array nothing is known of the values. -/
structure Reading.Alike (o : Field α) (r r' : Reading α) : Prop where
  ret : r.ret = r'.ret
  buffer : r.buffer = r'.buffer
  left : o.SameTemplate r.field
  right : o.SameTemplate r'.field
  stored : r.ret ≠ .fault → L.Stored r.field.value r'.field.value
  agreed : r.ret = .ok → r.field.Agreed L r'.field

/-- What a reading that fails leaves of `f` and `g`: both as they were, or one value in both, or where values do not
last, the states as they were and in the arrays what was there of the new value. -/
inductive Reading.Unfinished (f g : Field α) (r r' : Reading α) : Prop
  | kept (lasting : L.Lasting) (left : r.field = f) (right : r'.field = g)
  | same (state : r.field.state = r'.field.state) (value : L.view r.field.value = L.view r'.field.value)
  | torn (passing : ¬L.Lasting) (left : r.field.state = f.state) (right : r'.field.state = g.state)
    (value : r.ret = .msgPartial ∨ L.view r.field.value = L.view r'.field.value)

/-- What a field type brings: its readers read alike, and what is loaded is what was loaded. -/
structure Kind.Lockstep : Prop where
  read : ∀ {o f g : Field α} (b : Buffer), o.SameTemplate f → o.SameTemplate g → L.Stored f.value g.value →
    Reading.Alike L o (K.read b f) (K.read b g) ∧
      ((K.read b f).ret ≠ .ok → (K.read b f).ret ≠ .fault → Reading.Unfinished L f g (K.read b f) (K.read b g))
  delta : ∀ {read : Buffer → Field α → Reading α} {o f g : Field α}, K.delta = some read → ∀ b : Buffer,
    o.SameTemplate f → o.SameTemplate g → L.Stored f.value g.value → L.view f.value = L.view g.value →
    Reading.Alike L o (read b f) (read b g) ∧ L.view (read b f).field.value = L.view (read b g).field.value
  symm : ∀ {v w : α}, L.Stored v w → L.Stored w v
  loaded : ∀ v r : α, L.view (K.load v r) = L.view r
  load : ∀ {v w r : α}, L.Stored v w → L.Initial r → L.Stored (K.load v r) (K.load w r)
  kept : ∀ {v w r : α}, L.Stored v w → L.Initial r → L.view v = L.view r → L.Stored v (K.load w r)
  incr : ∀ {inc : α → α}, K.incr = some inc →
    (∀ v w, L.view v = L.view w → L.view (inc v) = L.view (inc w)) ∧ ∀ v w, L.Stored v w

end Relation

/-! ## The operators -/

section Operators
variable {α : Type} {K : Kind α} {L : Likeness α} {o f g : Field α}

/-- A field that is left off the wire, as what `absent` makes of it without reading. -/
def offWire (absent : Field α → Ret × Field α) (b : Buffer) (f : Field α) : Reading α := ⟨(absent f).1, b, (absent f).2⟩

theorem off_wire_initial (b : Buffer) (f : Field α) : offWire (initialValue K) b f =
    if f.hasReset then ⟨.ok, b, { f with state := .assigned, value := K.load f.value f.reset }⟩
    else if f.isMandatory then ⟨.garbled, b, f⟩ else ⟨.ok, b, { f with state := .empty }⟩ := by
  unfold offWire initialValue
  split_ifs <;> rfl

theorem off_wire_empty (b : Buffer) (f : Field α) :
    offWire emptyValue b f = if f.isMandatory then ⟨.garbled, b, f⟩ else ⟨.ok, b, f⟩ := by
  unfold offWire emptyValue
  split_ifs <;> rfl

theorem Field.SameTemplate.both (left : o.SameTemplate f) (right : o.SameTemplate g) : g.isMandatory = f.isMandatory :=
  right.isMandatory.trans left.isMandatory.symm

/-- The state and the value are none of the template. -/
theorem Field.SameTemplate.put (h : o.SameTemplate f) (state : State) (value : α) :
    o.SameTemplate { f with state := state, value := value } := ⟨h.presence, h.op, h.hasReset, h.reset⟩

theorem Field.SameTemplate.without (h : o.SameTemplate f) (none : o.hasReset = false) : ¬f.hasReset = true := by
  rw [h.hasReset, none]
  decide

/-- Both fields take their initial value. -/
theorem initial_alike (law : K.Lockstep L) (b : Buffer) (left : o.SameTemplate f) (right : o.SameTemplate g)
    (initial : L.Initial o.reset) (stored : L.Stored f.value g.value) :
    Reading.Alike L o (offWire (initialValue K) b f) (offWire (initialValue K) b g) := by
  rw [off_wire_initial, off_wire_initial]
  cases reset : o.hasReset with
  | true =>
    rw [if_pos (left.hasReset.trans reset), if_pos (right.hasReset.trans reset)]
    have arrays : L.Stored (K.load f.value f.reset) (K.load g.value g.reset) := by
      rw [left.reset, right.reset]
      exact law.load stored initial
    have value : L.view (K.load f.value f.reset) = L.view (K.load g.value g.reset) := by
      rw [law.loaded, law.loaded, left.reset, right.reset]
    exact ⟨rfl, rfl, left.put _ _, right.put _ _, fun _ => arrays, fun _ => ⟨rfl, fun _ => value⟩⟩
  | false =>
    rw [if_neg (left.without reset), if_neg (right.without reset), left.both right]
    split_ifs
    · exact ⟨rfl, rfl, left, right, fun _ => stored, fun ok => by cases ok⟩
    · exact ⟨rfl, rfl, left.put _ _, right.put _ _, fun _ => stored, fun _ => ⟨rfl, fun some => absurd rfl some⟩⟩

theorem off_wire_previous (keep : α → α) (b : Buffer) (f : Field α) : offWire (previousValue K keep) b f =
    match f.state with
    | .undefined => offWire (initialValue K) b f
    | .assigned => ⟨.ok, b, { f with value := keep f.value }⟩
    | .empty => offWire emptyValue b f := by
  unfold offWire previousValue
  cases f.state <;> rfl

/-- Both fields take the value of their entry, alike where the entries are. -/
theorem previous_alike (law : K.Lockstep L) {keep : α → α}
    (keeps : ∀ v w, L.view v = L.view w → L.view (keep v) = L.view (keep w))
    (stores : ∀ v w, L.Stored v w → L.Stored (keep v) (keep w))
    (loads : ∀ v w, L.Stored v w → L.view (keep v) = L.view o.reset → L.Stored (keep v) (K.load w o.reset))
    (b : Buffer) (left : o.SameTemplate f) (right : o.SameTemplate g) (initial : L.Initial o.reset)
    (stored : L.Stored f.value g.value) (entry : Field.Dictionary L keep o False f g) :
    Reading.Alike L o (offWire (previousValue K keep) b f) (offWire (previousValue K keep) b g) := by
  rw [off_wire_previous, off_wire_previous]
  cases entry with
  | same state value =>
    rw [← state]
    cases here : f.state with
    | undefined => exact initial_alike law b left right initial stored
    | assigned =>
      refine ⟨rfl, rfl, left.put _ _, right.put _ _, fun _ => stores _ _ stored, fun _ => ⟨rfl, fun _ => ?_⟩⟩
      exact keeps _ _ ((value here).resolve_left fun waits => waits.1)
    | empty =>
      simp only
      rw [off_wire_empty, off_wire_empty, left.both right]
      split_ifs
      · exact ⟨rfl, rfl, left, right, fun _ => stored, fun ok => by cases ok⟩
      · exact ⟨rfl, rfl, left, right, fun _ => stored, fun _ => ⟨state, fun some => absurd here some⟩⟩
  | initial lasting assigned fresh reset value =>
    rw [assigned, fresh]
    simp only
    rw [off_wire_initial, if_pos (right.hasReset.trans reset)]
    have same : L.view (keep f.value) = L.view (K.load g.value g.reset) := by rw [law.loaded, right.reset, value]
    refine ⟨rfl, rfl, left.put _ _, right.put _ _, fun _ => ?_, fun _ => ⟨rfl, fun _ => same⟩⟩
    simp only
    rw [right.reset]
    exact loads _ _ stored value
  | none empty fresh reset =>
    rw [empty, fresh]
    simp only
    rw [off_wire_empty, off_wire_initial, if_neg (right.without reset), left.both right]
    split_ifs
    · exact ⟨rfl, rfl, left, right, fun _ => stored, fun ok => by cases ok⟩
    · exact ⟨rfl, rfl, left, right.put _ _, fun _ => stored, fun _ => ⟨empty, fun some => absurd empty some⟩⟩

/-- A field that is left off the wire and refused stays what it was. -/
theorem initial_refused (refused : (initialValue K f).1 ≠ .ok) : (initialValue K f).2 = f := by
  unfold initialValue at refused ⊢
  split_ifs at refused ⊢
  · exact absurd rfl refused
  · rfl
  · exact absurd rfl refused

theorem previous_refused {keep : α → α} (refused : (previousValue K keep f).1 ≠ .ok) :
    (previousValue K keep f).2 = f := by
  unfold previousValue at refused ⊢
  cases here : f.state with
  | undefined =>
    rw [here] at refused
    exact initial_refused refused
  | assigned =>
    rw [here] at refused
    exact absurd rfl refused
  | empty =>
    simp only [emptyValue]
    split_ifs <;> rfl

theorem Field.Dictionary.mono {keep : α → α} {wire wire' : Prop} (h : Field.Dictionary L keep o wire f g)
    (more : wire → wire') : Field.Dictionary L keep o wire' f g := by
  cases h with
  | same state value => exact .same state fun assigned => (value assigned).imp_left fun waits => ⟨more waits.1, waits.2⟩
  | initial lasting left fresh reset value => exact .initial lasting left fresh reset value
  | none left fresh reset => exact .none left fresh reset

theorem Field.Alike.mono {wire wire' : Prop} (h : Field.Alike K L o wire f g) (more : wire → wire') :
    Field.Alike K L o wire' f g :=
  ⟨h.left, h.right, h.initial, h.stored, h.delta, h.constant, fun op => (h.copied op).mono more,
    fun op inc is => (h.counted op inc is).mono more⟩

/-- The entries behind a reading that failed: on the wire is what was torn and not refused. -/
theorem Field.Dictionary.unfinished {keep : α → α} {wire wire' : Prop} {r r' : Reading α}
    (h : Field.Dictionary L keep o wire f g) (left : Reading.Unfinished L f g r r') (waits : r.ret = .msgPartial → wire') :
    Field.Dictionary L keep o wire' r.field r'.field := by
  cases left with
  | kept lasting here there =>
    rw [here, there]
    cases h with
    | same state value =>
      exact .same state fun assigned => .inr ((value assigned).resolve_left fun torn => torn.2 lasting)
    | initial _ left fresh reset value => exact .initial lasting left fresh reset value
    | none left fresh reset => exact .none left fresh reset
  | same state value => exact .same state fun _ => .inr value
  | torn passing here there value =>
    cases h with
    | same state _ =>
      exact .same (here.trans (state.trans there.symm)) fun _ => value.imp_left fun cut => ⟨waits cut, passing⟩
    | initial lasting => exact absurd lasting passing
    | none left fresh reset => exact .none (here.trans left) (there.trans fresh) reset

variable {p q : Pmap}

/-- A step of two fields that went alike: the fields do again, and one that was decoded is as the other one. -/
structure Field.Stepped (K : Kind α) (L : Likeness α) (o : Field α) (p q : Pmap) (r r' : Decoded (Field α)) : Prop where
  step : Decoded.InStep p q r r'
  alike : r.ret ≠ .fault → Field.Alike K L o (r.ret = .msgPartial ∧ p.next.pmapIsSet = true) r.field r'.field
  agreed : r.ret = .ok → r.field.Agreed L r'.field

theorem Reading.Alike.stepped {r r' : Reading α} (h : Reading.Alike L o r r') (initial : L.Initial o.reset) (k : Nat)
    (delta : o.op = .delta → L.view r.field.value = L.view r'.field.value) (constant : o.op ≠ .constant)
    (left : r.ret ≠ .ok → r.ret ≠ .fault →
      (o.op = .copy → Field.Dictionary L id o (r.ret = .msgPartial ∧ p.next.pmapIsSet = true) r.field r'.field) ∧
      (o.op = .incr → ∀ inc, K.incr = some inc →
        Field.Dictionary L inc o (r.ret = .msgPartial ∧ p.next.pmapIsSet = true) r.field r'.field)) :
    Field.Stepped K L o p q (r.toDecoded (p.skip k)) (r'.toDecoded (q.skip k)) where
  step := ⟨h.ret, h.buffer, k, rfl, rfl⟩
  alike defined := by
    have entry : ∀ keep, r.ret = .ok → Field.Dictionary L keep o (r.ret = .msgPartial ∧ p.next.pmapIsSet = true) r.field r'.field := by
      intro keep ok
      have agreed := h.agreed ok
      exact .same agreed.state fun assigned => .inr (agreed.value (by rw [assigned]; decide))
    refine ⟨h.left, h.right, initial, h.stored defined, delta, fun op => absurd op constant, fun op => ?_, fun op inc is => ?_⟩
    · by_cases ok : r.ret = .ok
      · exact entry id ok
      · exact (left ok defined).1 op
    · by_cases ok : r.ret = .ok
      · exact entry inc ok
      · exact (left ok defined).2 op inc is
  agreed := h.agreed

/-- The operators that use a presence bit. -/
theorem present_stepped (law : K.Lockstep L) (map : p.Alike q) {absent : Field α → Ret × Field α} (b : Buffer)
    (refused : ∀ f, (absent f).1 ≠ .ok → (absent f).2 = f) (h : Field.Alike K L o (p.next.pmapIsSet = true) f g)
    (delta : o.op ≠ .delta) (constant : o.op ≠ .constant)
    (off : p.next.pmapIsSet ≠ true → Reading.Alike L o (offWire absent b f) (offWire absent b g)) :
    Field.Stepped K L o p q (decodePresent K absent b p f) (decodePresent K absent b q g) := by
  unfold decodePresent
  rw [← map.next]
  by_cases set : p.next.pmapIsSet = true
  · rw [if_pos set, if_pos set]
    obtain ⟨read, unfinished⟩ := law.read b h.left h.right h.stored
    refine read.stepped h.initial 1 (fun op => absurd op delta) constant fun stop defined => ⟨fun op => ?_, fun op inc is => ?_⟩
    · exact (h.copied op).unfinished (unfinished stop defined) fun cut => ⟨cut, set⟩
    · exact (h.counted op inc is).unfinished (unfinished stop defined) fun cut => ⟨cut, set⟩
  · rw [if_neg set, if_neg set]
    have went := off set
    refine went.stepped h.initial 1 (fun op => absurd op delta) constant fun stop _ => ?_
    have left : (offWire absent b f).field = f := refused f stop
    have right : (offWire absent b g).field = g := refused g fun ok => stop (went.ret.trans ok)
    rw [left, right]
    have here : Field.Alike K L o ((offWire absent b f).ret = .msgPartial ∧ p.next.pmapIsSet = true) f g :=
      h.mono fun set' => absurd set' set
    exact ⟨here.copied, here.counted⟩

theorem refused_stepped (h : Field.Alike K L o (p.next.pmapIsSet = true) f g) (b : Buffer)
    (copy : o.op ≠ .copy) (incr : o.op = .incr → K.incr = none) :
    Field.Stepped K L o p q ⟨.garbled, b, p, f⟩ ⟨.garbled, b, q, g⟩ where
  step := ⟨rfl, rfl, 0, p.skip_zero.symm, q.skip_zero.symm⟩
  alike _ := ⟨h.left, h.right, h.initial, h.stored, h.delta, h.constant, fun op => absurd op copy, fun op inc is => by
    rw [incr op] at is
    cases is⟩
  agreed done := by cases done

theorem constant_loaded (law : K.Lockstep L) (same : o.SameTemplate f)
    (known : f.state = .assigned → L.view f.value = L.view o.reset) :
    L.view (constantValue K f).value = L.view o.reset := by
  simp only [constantValue]
  split_ifs with loads
  · rw [law.loaded, same.reset]
  · exact known (Decidable.not_not.1 loads)

theorem constant_stored (law : K.Lockstep L) (left : o.SameTemplate f) (right : o.SameTemplate g)
    (initial : L.Initial o.reset) (stored : L.Stored f.value g.value)
    (known : (f.state = .assigned → L.view f.value = L.view o.reset) ∧
      (g.state = .assigned → L.view g.value = L.view o.reset)) :
    L.Stored (constantValue K f).value (constantValue K g).value := by
  simp only [constantValue]
  rw [left.reset, right.reset]
  split_ifs with loads loads' loads'
  · exact law.load stored initial
  · exact law.symm (law.kept (law.symm stored) initial (known.2 (Decidable.not_not.1 loads')))
  · exact law.kept stored initial (known.1 (Decidable.not_not.1 loads))
  · exact stored

/-- A constant is the one of the template. -/
theorem constant_stepped (law : K.Lockstep L) (map : p.Alike q) (b : Buffer) (op : o.op = .constant)
    (left : o.SameTemplate f) (right : o.SameTemplate g) (initial : L.Initial o.reset) (stored : L.Stored f.value g.value)
    (known : (f.state = .assigned → L.view f.value = L.view o.reset) ∧
      (g.state = .assigned → L.view g.value = L.view o.reset)) :
    Field.Stepped K L o p q (decodeConstant K b p f) (decodeConstant K b q g) := by
  have view := constant_loaded law left known.1
  have view' := constant_loaded law right known.2
  have arrays := constant_stored law left right initial stored known
  have same : o.SameTemplate (constantValue K f) := ⟨left.presence, left.op, left.hasReset, left.reset⟩
  have same' : o.SameTemplate (constantValue K g) := ⟨right.presence, right.op, right.hasReset, right.reset⟩
  have assigned : (constantValue K f).state = .assigned ∧ (constantValue K g).state = .assigned := ⟨rfl, rfl⟩
  unfold decodeConstant
  generalize constantValue K f = f' at *
  generalize constantValue K g = g' at *
  have after : ∀ state : State, Field.Alike K L o False { f' with state := state } { g' with state := state } ∧
      Field.Agreed L { f' with state := state } { g' with state := state } := by
    intro state
    have other : ∀ op' : Op, op' ≠ .constant → o.op ≠ op' := fun _ differs is => differs (is.symm.trans op)
    refine ⟨⟨same.put _ _, same'.put _ _, initial, arrays, ?_, fun _ => ⟨fun _ => view, fun _ => view'⟩, ?_, ?_⟩,
      ⟨rfl, fun _ => view.trans view'.symm⟩⟩
    · exact fun is => absurd is (other _ (by decide))
    · exact fun is => absurd is (other _ (by decide))
    · exact fun is => absurd is (other _ (by decide))
  have here : { f' with state := .assigned } = f' ∧ { g' with state := .assigned } = g' := by
    rw [← assigned.1]
    constructor
    · rfl
    · rw [assigned.1, ← assigned.2]
  simp only
  rw [same.both same', ← map.next]
  split_ifs
  · refine ⟨⟨rfl, rfl, 0, p.skip_zero.symm, q.skip_zero.symm⟩, fun _ => ?_, fun _ => ?_⟩
    · rw [← here.1, ← here.2]
      exact (after .assigned).1.mono False.elim
    · rw [← here.1, ← here.2]
      exact (after .assigned).2
  · refine ⟨⟨rfl, rfl, 1, rfl, rfl⟩, fun _ => ?_, fun _ => ?_⟩
    · rw [← here.1, ← here.2]
      exact (after .assigned).1.mono False.elim
    · rw [← here.1, ← here.2]
      exact (after .assigned).2
  · exact ⟨⟨rfl, rfl, 1, rfl, rfl⟩, fun _ => (after .empty).1.mono False.elim, fun _ => (after .empty).2⟩

/-- **A field.** Two fields that decode alike do: from the same bytes, with the same bits to come. -/
theorem field_stepped (law : K.Lockstep L) (map : p.Alike q) (b : Buffer)
    (h : Field.Alike K L o (p.next.pmapIsSet = true) f g) :
    Field.Stepped K L o p q (decodeField K b p f) (decodeField K b q g) := by
  unfold decodeField
  rw [h.left.op, h.right.op]
  cases op : o.op with
  | none =>
    have read := (law.read b h.left h.right h.stored).1.stepped (K := K) (p := p) (q := q) h.initial 0
      (fun used => absurd (op.symm.trans used) (by decide)) (by rw [op]; decide)
      fun _ _ => ⟨fun used => absurd (op.symm.trans used) (by decide), fun used => absurd (op.symm.trans used) (by decide)⟩
    rw [Pmap.skip_zero, Pmap.skip_zero] at read
    exact read
  | copy =>
    refine present_stepped law map b (fun _ => previous_refused) h (by rw [op]; decide) (by rw [op]; decide) fun off => ?_
    exact previous_alike law (fun _ _ same => same) (fun _ _ same => same)
      (fun _ _ same value => law.kept same h.initial value) b h.left h.right h.initial h.stored ((h.copied op).mono off)
  | incr =>
    cases incr : K.incr with
    | none => exact refused_stepped h b (by rw [op]; decide) fun _ => incr
    | some inc =>
      obtain ⟨keeps, any⟩ := law.incr incr
      refine present_stepped law map b (fun _ => previous_refused) h (by rw [op]; decide) (by rw [op]; decide) fun off => ?_
      exact previous_alike law keeps (fun _ _ _ => any _ _) (fun _ _ _ _ => any _ _) b h.left h.right h.initial h.stored
        ((h.counted op inc incr).mono off)
  | delta =>
    cases reads : K.delta with
    | none => exact refused_stepped h b (by rw [op]; decide) fun used => absurd (op.symm.trans used) (by decide)
    | some read =>
      obtain ⟨alike, view⟩ := law.delta reads b h.left h.right h.stored (h.delta op)
      have stepped := alike.stepped (K := K) (p := p) (q := q) h.initial 0 (fun _ => view) (by rw [op]; decide)
        fun _ _ => ⟨fun used => absurd (op.symm.trans used) (by decide), fun used => absurd (op.symm.trans used) (by decide)⟩
      rw [Pmap.skip_zero, Pmap.skip_zero] at stepped
      exact stepped
  | default =>
    refine present_stepped law map b (fun _ => initial_refused) h (by rw [op]; decide) (by rw [op]; decide) fun _ => ?_
    exact initial_alike law b h.left h.right h.initial h.stored
  | constant => exact constant_stepped law map b op h.left h.right h.initial h.stored (h.constant op)

end Operators

end Libtrading.Fast
