import Libtrading.Fast.Session
import Libtrading.Fast.Updates
import Libtrading.Fast.Template
import Libtrading.Fast.Numbers
import Mathlib.Data.BitVec

/-!
# When a sequence element has a presence map

`fast_sequence_init` gives the elements of a sequence a presence map if
`pmap_required` says so of one of their fields. That looks at the operator of
the field itself, and a decimal with individual operators has none; it also
counts the increment of a string, a vector or a decimal, which their decoders
refuse without a look at the map. These are the two ways in which the flag and
the decoder disagree.
-/

namespace Libtrading.Fast
set_option autoImplicit false
open Buffer StopBit

/-! ## What the template says -/

namespace ElementNode

/-- A decimal whose exponent is a constant out of range: it is garbled, whatever is received. -/
def hopeless (presence : Presence) (e : Node I64) : Bool :=
  presence == .mandatory && e.op == .constant && !exponentOk (e.prop.getD 0)

/-- The decoder of the field moves the bit of the map. -/
def usesMap : ElementNode → Bool
  | .int n => n.op.movesBit n.presence false
  | .uint n => n.op.movesBit n.presence false
  | .string _ n => n.op.movesBit n.presence true
  | .vector n => n.op.movesBit n.presence true
  | .decimal n => n.op.movesBit n.presence true
  | .individ _ presence e m =>
    e.op.movesBit presence false || (!hopeless presence e && m.op.movesBit m.presence false)
  | .nested _ => false

/-- The decoder refuses the field, whatever is received. -/
def refused : ElementNode → Bool
  | .int _ => false
  | .uint _ => false
  | .string unicode n => n.op == .incr || (unicode && n.op == .delta)
  | .vector n => n.op == .incr || n.op == .delta
  | .decimal n => n.op == .incr
  | .individ _ presence e _ => hopeless presence e
  | .nested _ => true

/-- The fields up to the first one that is refused: none behind it is ever decoded. -/
def called : List ElementNode → List ElementNode
  | [] => []
  | n :: ns => n :: if n.refused then [] else called ns

end ElementNode

open ElementNode

/-- The templates whose flag is wrong: no field asks for a map, and the exponent or mantissa of a decimal
with individual operators uses one; or a field asks for a map, and no field that is decoded uses it. -/
def Mispredicted (fields : List ElementNode) : Prop :=
  (fields.any ElementNode.pmapRequired = false ∧
      ∃ name presence e m, .individ name presence e m ∈ called fields ∧ usesMap (.individ name presence e m) = true) ∨
    (fields.any ElementNode.pmapRequired = true ∧ ∀ n ∈ called fields, n.usesMap = false)

/-! ## What the decoder does -/

/-- What the fields of an element may hold: what the template gave them, what the field loop of an element
left, from whatever bytes, and what a reset made of that. -/
inductive Dictionary (n : SequenceNode) : List ElementField → Prop where
  | loaded : Dictionary n (n.fields.map elementInit)
  | decoded {s : Sequence} {b : Buffer} (k : Nat) (valid : b.Valid) :
    Dictionary n s.head → Dictionary n (decodeElementFields k b s).seq.head
  | reset {head : List ElementField} : Dictionary n head → Dictionary n (head.map ElementField.fastReset)

/-- Decoding an element can consult its map: for some bytes, and some dictionary, the field decoders move
the bit of the map. -/
def ConsultsMap (n : SequenceNode) : Prop :=
  ∃ (b : Buffer) (s : Sequence), b.Valid ∧ Dictionary n s.head ∧ s.pmapReq = (sequenceInit n).pmapReq ∧
    s.msgDecoded = 0 ∧ (decodeElementPmap b s).ret = .ok ∧
    (elementItem b s).seq.pmap.pmapBit ≠ (decodeElementPmap b s).seq.pmap.pmapBit

/-! ## Fields made from a template -/

/-- The attributes of a field are those of its element; a constant exponent that is assigned has its
constant. -/
inductive Made : ElementNode → ElementField → Prop where
  | int {n : Node I64} {f : Field I64} (op : f.op = n.op) (presence : f.presence = n.presence) : Made (.int n) (.int f)
  | uint {n : Node U64} {f : Field U64} (op : f.op = n.op) (presence : f.presence = n.presence) : Made (.uint n) (.uint f)
  | string {unicode : Bool} {n : Node Bytes} {f : Field Bytes} (op : f.op = n.op) (presence : f.presence = n.presence) :
    Made (.string unicode n) (.string unicode f)
  | vector {n : Node Bytes} {f : Field Bytes} (op : f.op = n.op) (presence : f.presence = n.presence) :
    Made (.vector n) (.vector f)
  | decimal {n : Node Decimal} {f : Field Decimal} {e m : Field I64} (op : f.op = n.op) (presence : f.presence = n.presence) :
    Made (.decimal n) (.decimal false f e m)
  | individ {name : String} {presence : Presence} {e m : Node I64} {f : Field Decimal} {ef mf : Field I64}
    (op : ef.op = e.op) (same : ef.presence = presence) (reset : ef.reset = e.prop.getD 0)
    (constant : ef.op = .constant → ef.state = .assigned → ef.value = ef.reset)
    (mop : mf.op = m.op) (mpresence : mf.presence = m.presence) : Made (.individ name presence e m) (.decimal true f ef mf)
  | nested {name : String} : Made (.nested name) (.nested name)

theorem made_init (n : ElementNode) : Made n (elementInit n) := by
  cases n with
  | int n => exact .int rfl rfl
  | uint n => exact .uint rfl rfl
  | string unicode n => exact .string rfl rfl
  | vector n => exact .vector rfl rfl
  | decimal n => exact .decimal rfl rfl
  | individ name presence e m => exact .individ rfl rfl rfl (fun _ assigned => nomatch assigned) rfl rfl
  | nested name => exact .nested

/-- A constant that is assigned stays the constant. -/
theorem constant_kept (b : Buffer) (p : Pmap) {f : Field I64} (op : f.op = .constant)
    (h : f.state = .assigned → f.value = f.reset) :
    (fastDecodeInt b p f).field.state = .assigned → (fastDecodeInt b p f).field.value = f.reset := by
  have loaded : (constantValue intKind f).value = f.reset := by
    unfold constantValue
    simp only
    split
    · rfl
    · rename_i assigned
      exact h (Decidable.not_not.mp assigned)
  unfold fastDecodeInt decodeField
  simp only [op]
  unfold decodeConstant
  simp only
  split
  · exact fun _ => loaded
  · split
    · exact fun _ => loaded
    · intro assigned
      cases assigned

theorem assign_decimal_exponent (d : DecimalFields) (m : Decoded (Field I64)) :
    (assignDecimal d m).field.exponent = d.exponent ∧ (assignDecimal d m).field.mantissa = m.field := by
  unfold assignDecimal
  simp only
  split <;> exact ⟨rfl, rfl⟩

/-- What a decimal with individual operators leaves of its sub-fields. -/
theorem individ_updates (b : Buffer) (p : Pmap) (d : DecimalFields) :
    (fastDecodeDecimalIndivid b p d).field.exponent = (fastDecodeInt b p d.exponent).field ∧
      d.mantissa.Updates (fastDecodeDecimalIndivid b p d).field.mantissa := by
  unfold fastDecodeDecimalIndivid decodeMantissa
  simp only
  split
  · exact ⟨rfl, .refl _⟩
  · split
    · exact ⟨rfl, .refl _⟩
    · split
      · exact ⟨rfl, .refl _⟩
      · obtain ⟨exponent, mantissa⟩ := assign_decimal_exponent { d with exponent := (fastDecodeInt b p d.exponent).field }
          (fastDecodeInt (fastDecodeInt b p d.exponent).buffer (fastDecodeInt b p d.exponent).pmap d.mantissa)
        rw [exponent, mantissa]
        exact ⟨rfl, decode_field_updates int_updates ..⟩

theorem string_updates (b : Buffer) (p : Pmap) (unicode : Bool) (f : Field Bytes) : f.Updates (fastDecodeString unicode b p f).field := by
  cases unicode with
  | true => exact decode_field_updates unicode_updates b p f
  | false => exact decode_field_updates ascii_updates b p f

section Made
variable {n : ElementNode} {f : ElementField} {b : Buffer} {p : Pmap}

theorem Made.decode (h : Made n f) (b : Buffer) (p : Pmap) : Made n (decodeElement b p f).field := by
  cases h with
  | @int _ f op presence =>
    have updates := decode_field_updates int_updates b p f
    exact .int (updates.op.trans op) (updates.presence.trans presence)
  | @uint _ f op presence =>
    have updates := decode_field_updates uint_updates b p f
    exact .uint (updates.op.trans op) (updates.presence.trans presence)
  | @string unicode _ f op presence =>
    have updates := string_updates b p unicode f
    exact .string (updates.op.trans op) (updates.presence.trans presence)
  | @vector _ f op presence =>
    have updates := decode_field_updates vector_updates b p f
    exact .vector (updates.op.trans op) (updates.presence.trans presence)
  | @decimal _ f _ _ op presence =>
    have updates := decode_field_updates decimal_updates b p f
    exact .decimal (updates.op.trans op) (updates.presence.trans presence)
  | @individ name presence e m f ef mf op same reset constant mop mpresence =>
    obtain ⟨exponent, mantissa⟩ := individ_updates b p ⟨f, ef, mf⟩
    have updates : ef.Updates (fastDecodeInt b p ef).field := decode_field_updates int_updates b p ef
    refine .individ ?_ ?_ ?_ ?_ (mantissa.op.trans mop) (mantissa.presence.trans mpresence)
    · exact (congrArg Field.op exponent).trans (updates.op.trans op)
    · exact (congrArg Field.presence exponent).trans (updates.presence.trans same)
    · exact (congrArg Field.reset exponent).trans (updates.reset.trans reset)
    · intro const assigned
      rw [exponent] at const assigned ⊢
      rw [updates.op] at const
      exact (constant_kept b p const (constant const) assigned).trans updates.reset.symm
  | nested => exact .nested

theorem restart_attributes {α : Type} (load : α → α → α) (clear : α → α) (f : Field α) :
    (f.restart load clear).op = f.op ∧ (f.restart load clear).presence = f.presence := by
  unfold Field.restart
  split <;> exact ⟨rfl, rfl⟩

theorem Made.reset (h : Made n f) : Made n f.fastReset := by
  cases h with
  | int op presence =>
    exact .int ((restart_attributes ..).1.trans op) ((restart_attributes ..).2.trans presence)
  | uint op presence =>
    exact .uint ((restart_attributes ..).1.trans op) ((restart_attributes ..).2.trans presence)
  | string op presence =>
    exact .string ((restart_attributes ..).1.trans op) ((restart_attributes ..).2.trans presence)
  | vector op presence =>
    exact .vector ((restart_attributes ..).1.trans op) ((restart_attributes ..).2.trans presence)
  | decimal op presence =>
    exact .decimal ((restart_attributes ..).1.trans op) ((restart_attributes ..).2.trans presence)
  | individ op same reset constant mop mpresence => exact .individ op same reset constant mop mpresence
  | nested => exact .nested

/-! ## The bit, field by field -/

theorem decode_int_pmap (b : Buffer) (p : Pmap) (f : Field I64) :
    (fastDecodeInt b p f).pmap = if f.op.movesBit f.presence false then p.next else p := decode_field_pmap b p f

/-- The mantissa is decoded, or the map is left as the exponent left it. -/
theorem individ_pmap (b : Buffer) (p : Pmap) (d : DecimalFields) :
    (fastDecodeDecimalIndivid b p d).pmap = (fastDecodeInt b p d.exponent).pmap ∨
      ReadsMantissa (fastDecodeInt b p d.exponent) ∧ (fastDecodeDecimalIndivid b p d).pmap =
        if d.mantissa.op.movesBit d.mantissa.presence false then (fastDecodeInt b p d.exponent).pmap.next
        else (fastDecodeInt b p d.exponent).pmap := by
  unfold fastDecodeDecimalIndivid
  obtain reads | stops := mantissa_cases (fastDecodeInt b p d.exponent) d
  · right
    rw [reads.eq, assign_decimal_pmap, decode_int_pmap]
    exact ⟨reads, rfl⟩
  · exact .inl stops.pmap

/-- A hopeless exponent is not one that a mantissa follows. -/
theorem hopeless_exponent {e : Node I64} {ef : Field I64} {presence : Presence} (hopeless : hopeless presence e = true)
    (op : ef.op = e.op) (same : ef.presence = presence) (reset : ef.reset = e.prop.getD 0)
    (constant : ef.op = .constant → ef.state = .assigned → ef.value = ef.reset) :
    (fastDecodeInt b p ef).ret = .ok ∧ (fastDecodeInt b p ef).field.stateEmpty = false ∧
      exponentOk (fastDecodeInt b p ef).field.value = false := by
  simp only [ElementNode.hopeless, Bool.and_eq_true, beq_iff_eq, Bool.not_eq_true'] at hopeless
  obtain ⟨⟨mandatory, isConstant⟩, range⟩ := hopeless
  have op' : ef.op = .constant := op.trans isConstant
  have mandatory' : ef.isMandatory = true := by
    rw [Field.isMandatory, same, mandatory]
    rfl
  have decoded : fastDecodeInt b p ef = ⟨.ok, b, p, constantValue intKind ef⟩ := by
    unfold fastDecodeInt decodeField
    simp only [op']
    unfold decodeConstant
    have kept : (constantValue intKind ef).isMandatory = true := mandatory'
    simp only [kept, if_true]
  have value := constant_kept b p op' (constant op')
  rw [decoded] at value ⊢
  refine ⟨rfl, rfl, ?_⟩
  rw [value rfl, reset]
  exact range

/-- A field that does not use the map leaves its bit where it was. -/
theorem Made.unused (h : Made n f) (unused : n.usesMap = false) (b : Buffer) (p : Pmap) :
    (decodeElement b p f).pmap = p := by
  cases h with
  | int op presence =>
    rw [usesMap, ← op, ← presence] at unused
    exact (decode_int_pmap ..).trans (by rw [unused]; rfl)
  | uint op presence =>
    rw [usesMap, ← op, ← presence] at unused
    exact (decode_field_pmap (K := uintKind) ..).trans (if_neg (by rw [Bool.not_eq_true]; exact unused))
  | @string unicode _ f op presence =>
    rw [usesMap, ← op, ← presence] at unused
    have stays : (fastDecodeString unicode b p f).pmap = p := by
      cases unicode with
      | true => exact (decode_field_pmap (K := unicodeKind) ..).trans (if_neg (by rw [Bool.not_eq_true]; exact unused))
      | false => exact (decode_field_pmap (K := asciiKind) ..).trans (if_neg (by rw [Bool.not_eq_true]; exact unused))
    exact stays
  | vector op presence =>
    rw [usesMap, ← op, ← presence] at unused
    exact (decode_field_pmap (K := vectorKind) ..).trans (if_neg (by rw [Bool.not_eq_true]; exact unused))
  | decimal op presence =>
    rw [usesMap, ← op, ← presence] at unused
    exact (decode_field_pmap (K := decimalKind) ..).trans (if_neg (by rw [Bool.not_eq_true]; exact unused))
  | @individ name presence e m f ef mf op same reset constant mop mpresence =>
    simp only [usesMap, Bool.or_eq_false_iff, Bool.and_eq_false_iff, Bool.not_eq_false'] at unused
    obtain ⟨first, second⟩ := unused
    have exponent : (fastDecodeInt b p ef).pmap = p := by
      rw [decode_int_pmap, op, same, first]
      rfl
    obtain stays | ⟨reads, moves⟩ := individ_pmap b p ⟨f, ef, mf⟩
    · exact stays.trans exponent
    · obtain hopeless | second := second
      · have never := (hopeless_exponent (b := b) (p := p) hopeless op same reset constant).2.2
        rw [reads.exponent] at never
        cases never
      · rw [mop, mpresence, second] at moves
        exact moves.trans exponent
  | nested => rfl

theorem decode_field_refused {α : Type} {K : Kind α} {f : Field α}
    (h : f.op = .incr ∧ K.incr = none ∨ f.op = .delta ∧ K.delta = none) (b : Buffer) (p : Pmap) :
    (decodeField K b p f).ret = .garbled := by
  unfold decodeField
  obtain ⟨op, missing⟩ | ⟨op, missing⟩ := h <;> simp only [op, missing]

/-- A refused field ends the element. -/
theorem Made.refuses (h : Made n f) (refused : n.refused = true) (b : Buffer) (p : Pmap) :
    (decodeElement b p f).ret ≠ .ok := by
  cases h with
  | int _ _ => cases refused
  | uint _ _ => cases refused
  | @string unicode _ f op presence =>
    simp only [ElementNode.refused, Bool.or_eq_true, Bool.and_eq_true, beq_iff_eq, ← op] at refused
    have garbled : (fastDecodeString unicode b p f).ret = .garbled := by
      cases unicode with
      | true =>
        refine decode_field_refused (K := unicodeKind) ?_ b p
        obtain incr | ⟨-, delta⟩ := refused
        · exact .inl ⟨incr, rfl⟩
        · exact .inr ⟨delta, rfl⟩
      | false =>
        refine decode_field_refused (K := asciiKind) ?_ b p
        obtain incr | ⟨never, -⟩ := refused
        · exact .inl ⟨incr, rfl⟩
        · cases never
    intro ok
    rw [decodeElement] at ok
    exact absurd (ok.symm.trans garbled) (by decide)
  | @vector _ f op presence =>
    simp only [ElementNode.refused, Bool.or_eq_true, beq_iff_eq, ← op] at refused
    have garbled : (fastDecodeVector b p f).ret = .garbled :=
      decode_field_refused (K := vectorKind) (refused.imp (⟨·, rfl⟩) (⟨·, rfl⟩)) b p
    intro ok
    rw [decodeElement] at ok
    exact absurd (ok.symm.trans garbled) (by decide)
  | @decimal _ f _ _ op presence =>
    simp only [ElementNode.refused, beq_iff_eq, ← op] at refused
    have garbled : (fastDecodeDecimalAtomic b p f).ret = .garbled :=
      decode_field_refused (K := decimalKind) (.inl ⟨refused, rfl⟩) b p
    intro ok
    rw [decodeElement] at ok
    exact absurd (ok.symm.trans garbled) (by decide)
  | @individ name presence e m f ef mf op same reset constant mop mpresence =>
    obtain ⟨ok, present, range⟩ := hopeless_exponent (b := b) (p := p) refused op same reset constant
    have garbled : (fastDecodeDecimalIndivid b p ⟨f, ef, mf⟩).ret = .garbled := by
      simp only [fastDecodeDecimalIndivid, decodeMantissa, ok, present, range, ne_eq, not_true_eq_false, if_false,
        Bool.false_eq_true, Bool.not_false, if_true]
    intro ok
    rw [decodeElement] at ok
    exact absurd (ok.symm.trans garbled) (by decide)
  | nested =>
    intro ok
    cases ok

end Made

/-! ## The bit, over an element -/

/-- Every field of an element is made from the template. -/
structure MadeFrom (ns : List ElementNode) (head : List ElementField) : Prop where
  length : head.length = ns.length
  made : ∀ (i : Nat) (n : ElementNode) (f : ElementField), ns[i]? = some n → head[i]? = some f → Made n f

namespace MadeFrom
variable {ns : List ElementNode} {head : List ElementField}

theorem init (ns : List ElementNode) : MadeFrom ns (ns.map elementInit) := by
  refine ⟨List.length_map .., fun i n f hn hf => ?_⟩
  rw [List.getElem?_map, hn] at hf
  obtain rfl := Option.some.inj hf
  exact made_init n

theorem set (h : MadeFrom ns head) {i : Nat} {f : ElementField} (made : ∀ n, ns[i]? = some n → Made n f) :
    MadeFrom ns (head.set i f) := by
  refine ⟨by rw [List.length_set]; exact h.length, fun j n g hn hg => ?_⟩
  rw [List.getElem?_set] at hg
  split at hg
  · rename_i same
    subst same
    split at hg
    · obtain rfl := Option.some.inj hg
      exact made n hn
    · cases hg
  · exact h.made j n g hn hg

theorem reset (h : MadeFrom ns head) : MadeFrom ns (head.map ElementField.fastReset) := by
  refine ⟨by rw [List.length_map]; exact h.length, fun i n f hn hf => ?_⟩
  rw [List.getElem?_map] at hf
  obtain ⟨g, hg, rfl⟩ := Option.map_eq_some_iff.mp hf
  exact (h.made i n g hn hg).reset

end MadeFrom

/-- The field loop of an element keeps what the template says of the fields. -/
theorem element_fields_made {ns : List ElementNode} {k : Nat} {b : Buffer} (hv : b.Valid) {s : Sequence}
    (h : MadeFrom ns s.head) : MadeFrom ns (decodeElementFields k b s).seq.head := by
  induction k generalizing b s with
  | zero => exact h
  | succ k ih =>
    cases hf : s.head[s.msgDecoded]? with
    | none => rw [element_fields_none hf]; exact h
    | some f =>
      have decoded : MadeFrom ns (s.head.set s.msgDecoded (decodeElement b s.pmap f).field) :=
        h.set fun n hn => (h.made _ n f hn hf).decode b s.pmap
      by_cases ok : (decodeElement b s.pmap f).ret = .ok
      · rw [element_fields_ok hf ok]
        exact ih ((streams_element.moved s.pmap f hv).valid hv) decoded
      · by_cases interrupted : (decodeElement b s.pmap f).ret = .msgPartial
        · rw [element_fields_interrupted hv hf interrupted]
          exact decoded
        · rw [element_fields_refused hf ok interrupted]
          exact decoded

theorem Dictionary.made {n : SequenceNode} {head : List ElementField} (h : Dictionary n head) : MadeFrom n.fields head := by
  induction h with
  | loaded => exact .init n.fields
  | decoded k valid _ ih => exact element_fields_made valid ih
  | reset _ ih => exact ih.reset

/-- Where no field that is decoded uses the map, its bit stays. -/
theorem element_fields_unused {ns : List ElementNode} {k : Nat} {b : Buffer} (hv : b.Valid) {s : Sequence}
    (h : MadeFrom ns s.head) (unused : ∀ n ∈ called (ns.drop s.msgDecoded), n.usesMap = false) :
    (decodeElementFields k b s).seq.pmap.pmapBit = s.pmap.pmapBit := by
  induction k generalizing b s with
  | zero => rfl
  | succ k ih =>
    cases hf : s.head[s.msgDecoded]? with
    | none => rw [element_fields_none hf]
    | some f =>
      have inside : s.msgDecoded < ns.length := by
        rw [← h.length]
        exact (List.getElem?_eq_some_iff.mp hf).1
      have hn := List.getElem?_eq_getElem inside
      have made := h.made _ _ f hn hf
      rw [List.drop_eq_getElem_cons inside, called] at unused
      have stays := made.unused (unused _ List.mem_cons_self) b s.pmap
      by_cases ok : (decodeElement b s.pmap f).ret = .ok
      · have goes : ns[s.msgDecoded].refused = false := by
          cases refused : ns[s.msgDecoded].refused with
          | false => rfl
          | true => exact absurd ok (made.refuses refused b s.pmap)
        rw [goes, if_neg (by decide)] at unused
        have rest := ih ((streams_element.moved s.pmap f hv).valid hv) (s := s.decodedField (decodeElement b s.pmap f))
          (h.set fun n hn => (h.made _ n f hn hf).decode b s.pmap) (fun n hn => unused n (List.mem_cons_of_mem _ hn))
        rw [element_fields_ok hf ok, rest]
        exact congrArg Pmap.pmapBit stays
      · by_cases interrupted : (decodeElement b s.pmap f).ret = .msgPartial
        · rw [element_fields_interrupted hv hf interrupted]
          rfl
        · rw [element_fields_refused hf ok interrupted]
          exact congrArg Pmap.pmapBit stays

theorem element_pmap_fields (b : Buffer) (s : Sequence) :
    (decodeElementPmap b s).seq.head = s.head ∧ (decodeElementPmap b s).seq.msgDecoded = s.msgDecoded := by
  unfold decodeElementPmap
  split
  · split <;> exact ⟨rfl, rfl⟩
  · exact ⟨rfl, rfl⟩

theorem ConsultsMap.uses {n : SequenceNode} (h : ConsultsMap n) : ∃ node ∈ called n.fields, node.usesMap = true := by
  obtain ⟨b, s, valid, dictionary, -, first, ok, moves⟩ := h
  by_cases uses : ∃ node ∈ called n.fields, node.usesMap = true
  · exact uses
  · obtain ⟨head, cursor⟩ := element_pmap_fields b s
    have unused : ∀ node ∈ called (n.fields.drop (decodeElementPmap b s).seq.msgDecoded), node.usesMap = false := by
      rw [cursor, first, List.drop_zero]
      intro node hn
      rw [← Bool.not_eq_true]
      exact fun used => uses ⟨node, hn, used⟩
    rw [item_fields ok] at moves
    exact absurd (element_fields_unused ((element_pmap_moved valid s).1.valid valid) (head.symm ▸ dictionary.made) unused) moves

/-! ## Bytes that lead to a use of the map -/

theorem carries_int {w : List UInt8} (hw : Stopped w) (fits : w.length ≤ 10) :
    Carries parseInt w (BitVec.ofInt 64 (signedNumber w)) := fun hv hu => parse_int_stopped hw hv fits hu

theorem carries_uint {w : List UInt8} (hw : Stopped w) (fits : w.length ≤ 9) :
    Carries parseUint w (BitVec.ofInt 64 (unsignedNumber w)) := fun hv hu => parse_uint_stopped hw hv fits hu

theorem carries_zero : Carries parseInt [0x80] 0 ∧ Carries parseUint [0x80] 0 :=
  ⟨carries_int (.last rfl) (by decide), carries_uint (.last rfl) (by decide)⟩

theorem carries_one : Carries parseInt [0x81] 1 ∧ Carries parseUint [0x81] 1 :=
  ⟨carries_int (.last rfl) (by decide), carries_uint (.last rfl) (by decide)⟩

/-- Ten groups carry every `i64`. -/
theorem carries_ten (v : I64) : Carries parseInt (wireGroups v 10) v := by
  intro b rest hv hu
  have lower := v.le_toInt
  have upper := v.toInt_lt
  rw [parse_int_groups v hv (by decide) hu, read_signed (by omega) (by omega), length_wire_groups]

/-- A decoder takes the bytes `w` for its field, all of them. -/
def Takes {φ : Type} (decode : Buffer → Pmap → φ → Decoded φ) (w : List UInt8) (f : φ) : Prop :=
  ∀ {b : Buffer} {rest : List UInt8} (p : Pmap), b.Valid → b.unread = w ++ rest →
    (decode b p f).ret = .ok ∧ (decode b p f).buffer = b.bufferAdvance w.length

/-- So does a reader. -/
def TakenBy {α : Type} (read : Buffer → Field α → Reading α) (w : List UInt8) (f : Field α) : Prop :=
  ∀ {b : Buffer} {rest : List UInt8}, b.Valid → b.unread = w ++ rest →
    (read b f).ret = .ok ∧ (read b f).buffer = b.bufferAdvance w.length

theorem number_taken {parse : Buffer → Parse (BitVec 64)}
    {assign : Field (BitVec 64) → BitVec 64 → Field (BitVec 64)} {w : List UInt8} {v : BitVec 64}
    (carries : Carries parse w v) (f : Field (BitVec 64)) : TakenBy (readNumber parse assign) w f := by
  intro b rest hv hu
  unfold readNumber
  rw [carries hv hu]
  exact ⟨rfl, rfl⟩

/-- A zero is NULL where the field is optional, and the number in front of the value where it is not. -/
theorem nullable_taken {α : Type} {parse : Buffer → Parse (BitVec 64)} (carries : Carries parse [0x80] 0)
    {rest : BitVec 64 → Buffer → Field α → Reading α} {f : Field α} {w : List UInt8}
    (mandatory : f.isMandatory = true → TakenBy (rest 0) w { f with state := .assigned }) :
    ∃ w, TakenBy (readNullable parse rest) w f := by
  cases h : f.isMandatory with
  | false =>
    refine ⟨[0x80], fun {b r} hv hu => ?_⟩
    unfold readNullable
    have optional : ({ f with state := .assigned } : Field α).isMandatory = false := h
    rw [carries hv hu]
    simp only [optional, Bool.not_false, decide_true, Bool.and_self, if_true, List.length_singleton, and_self]
  | true =>
    refine ⟨[0x80] ++ w, fun {b r} hv hu => ?_⟩
    rw [List.append_assoc] at hu
    obtain ⟨valid, unread⟩ := unread_advance hv hu
    unfold readNullable
    have kept : ({ f with state := .assigned } : Field α).isMandatory = true := h
    rw [carries hv hu]
    simp only [kept, Bool.not_true, Bool.false_and, Bool.false_eq_true, if_false]
    obtain ⟨ok, buffer⟩ := mandatory h valid unread
    exact ⟨ok, by rw [buffer, advance_advance, List.length_append]⟩

theorem counted_taken {f : Field Bytes} (h : f.isMandatory = true) : TakenBy (readCounted 0) [] f := by
  intro b rest hv hu
  have counted : parseBytes b f.value ((0 : BitVec 64).setWidth 32) = .done f.value b := by
    unfold parseBytes
    rw [if_neg (by simp), if_neg (by simp)]
    rfl
  unfold readCounted
  simp only [h, if_true, counted]
  exact ⟨rfl, rfl⟩

theorem vector_taken (f : Field Bytes) : ∃ w, TakenBy readVector w f :=
  nullable_taken carries_zero.2 fun mandatory => counted_taken (f := { f with state := .assigned }) mandatory

/-- The empty string, as the ASCII reader takes it. -/
theorem empty_string_taken {v : Bytes} {b : Buffer} {rest : List UInt8} (hv : b.Valid) (hu : b.unread = [0x80] ++ rest)
    (size : Nat) (room : 1 < size) :
    (parseString b v size).ret = .ok ∧ (parseString b v size).buffer = b.bufferAdvance 1 ∧
      (parseString b v size).value = (v.set 0 0).set 1 0 := by
  obtain ⟨m, rfl⟩ : ∃ m, size = m + 2 := ⟨size - 2, by omega⟩
  unfold parseString
  rw [show m + 2 - 1 = m + 1 by omega, parseStringFrom, next_byte_cons hv hu]
  exact ⟨rfl, rfl, rfl⟩

theorem ascii_taken (f : Field Bytes) : TakenBy readAscii [0x80] f := by
  intro b rest hv hu
  obtain ⟨ok, buffer, -⟩ := empty_string_taken (v := f.value) hv hu stringMaxBytes (by decide)
  unfold readAscii
  rw [assign_ascii_ret, assign_ascii_buffer]
  exact ⟨ok, buffer⟩

/-- An empty string spliced into one that fits its array. -/
theorem spliced_taken {f : Field Bytes} (h : f.isMandatory = true) (fits : (cstr f.value).length < stringMaxBytes) :
    TakenBy (readSpliced 0) [0x80] f := by
  intro b rest hv hu
  obtain ⟨ok, buffer, value⟩ := empty_string_taken (v := deltaScratch) hv hu deltaScratch.length (by decide)
  have zero : adjustInt f 0 = 0 := by
    unfold adjustInt
    rw [h]
    rfl
  have nothing : cstr ((deltaScratch.set 0 0).set 1 0) = [] := by decide
  have spliced : ∃ v, spliceAscii f.value ((deltaScratch.set 0 0).set 1 0) 0 = some v := by
    unfold spliceAscii
    simp only [nothing, List.length_nil]
    rw [if_pos (by decide), if_neg (by simp), if_neg (by simp; omega)]
    exact ⟨_, rfl⟩
  obtain ⟨v, spliced⟩ := spliced
  unfold readSpliced assignAsciiDelta
  rw [zero, if_neg (by rw [ok]; decide), value, spliced]
  exact ⟨rfl, buffer⟩

theorem mantissa_taken {place : Decimal → Decimal → Decimal} {f : Field Decimal} (h : f.isMandatory = true)
    (range : exponentOk (place f.value ⟨0, 0⟩).exp = true) : TakenBy (readMantissa place 0) [0x80] f := by
  intro b rest hv hu
  have zero : adjustInt f 0 = 0 := by
    unfold adjustInt
    rw [h]
    rfl
  unfold readMantissa
  rw [zero]
  simp only [range, Bool.not_true, Bool.false_eq_true, if_false]
  rw [carries_zero.1 hv hu]
  exact ⟨rfl, rfl⟩

theorem ascii_delta_taken {f : Field Bytes} (fits : (cstr f.value).length < stringMaxBytes) :
    ∃ w, TakenBy readAsciiDelta w f :=
  nullable_taken carries_zero.1 fun mandatory => spliced_taken (f := { f with state := .assigned }) mandatory fits

theorem decimal_taken {place : Decimal → Decimal → Decimal} {f : Field Decimal}
    (range : exponentOk (place f.value ⟨0, 0⟩).exp = true) : ∃ w, TakenBy (readDecimalWith place) w f :=
  nullable_taken carries_zero.1 fun mandatory => mantissa_taken (f := { f with state := .assigned }) mandatory range

/-- A field that neither uses the map nor is refused takes some bytes. -/
theorem field_taken {α : Type} {K : Kind α} {f : Field α} (unused : f.op.movesBit f.presence K.incr.isNone = false)
    (incr : f.op = .incr → K.incr.isNone = false) (read : f.op = .none → ∃ w, TakenBy K.read w f)
    (delta : f.op = .delta → ∃ read w, K.delta = some read ∧ TakenBy read w f) : ∃ w, Takes (decodeField K) w f := by
  cases op : f.op with
  | none =>
    obtain ⟨w, taken⟩ := read op
    refine ⟨w, fun p hv hu => ?_⟩
    unfold decodeField
    simp only [op]
    exact taken hv hu
  | delta =>
    obtain ⟨read, w, has, taken⟩ := delta op
    refine ⟨w, fun p hv hu => ?_⟩
    unfold decodeField
    simp only [op, has]
    exact taken hv hu
  | constant =>
    refine ⟨[], fun p hv hu => ?_⟩
    unfold decodeField
    simp only [op]
    exact ⟨decode_constant_finished .., decode_constant_buffer ..⟩
  | copy =>
    rw [op] at unused
    cases unused
  | default =>
    rw [op] at unused
    cases unused
  | incr =>
    rw [op, Op.movesBit, incr op] at unused
    cases unused

theorem int_taken {f : Field I64} (unused : f.op.movesBit f.presence false = false) : ∃ w, Takes fastDecodeInt w f :=
  field_taken (K := intKind) unused (fun _ => rfl) (fun _ => ⟨_, number_taken carries_one.1 f⟩)
    fun _ => ⟨_, _, rfl, number_taken carries_one.1 f⟩

theorem uint_taken {f : Field U64} (unused : f.op.movesBit f.presence false = false) : ∃ w, Takes fastDecodeUint w f :=
  field_taken (K := uintKind) unused (fun _ => rfl) (fun _ => ⟨_, number_taken carries_one.2 f⟩)
    fun _ => ⟨_, _, rfl, number_taken carries_one.1 f⟩

/-- The exponent that some bytes make: assigned, and in range. -/
def InRange (f : Field I64) : Prop := f.stateEmpty = false ∧ exponentOk f.value = true

/-- Some difference makes an exponent in range of every value. -/
theorem delta_in_range (f : Field I64) : ∃ tmp, InRange (assignDelta f tmp) := by
  cases h : f.isMandatory with
  | true =>
    refine ⟨-f.value, ?_⟩
    rw [assign_delta_mandatory h]
    have value : f.value + -f.value = 0 := BitVec.add_right_neg _
    refine ⟨rfl, ?_⟩
    rw [value]
    rfl
  | false =>
    have adjusted : ∀ tmp, adjustInt f tmp = if (0 : I64).slt tmp then tmp - 1 else tmp := by
      intro tmp
      simp only [adjustInt, h, Bool.not_false, Bool.true_and]
    by_cases zero : -f.value + 1 = 0
    · have value : f.value + -1 = 0 := by
        rw [← neg_eq_zero, neg_add_rev, neg_neg, add_comm]
        exact zero
      refine ⟨-1, ?_⟩
      rw [assign_delta_optional h (by decide), adjusted, if_neg (by decide)]
      refine ⟨rfl, ?_⟩
      rw [value]
      rfl
    · refine ⟨-f.value + 1, ?_⟩
      rw [assign_delta_optional h zero, adjusted]
      refine ⟨rfl, ?_⟩
      split
      · have value : f.value + (-f.value + 1 - 1) = 0 := by rw [add_sub_cancel_right, add_neg_cancel]
        rw [value]
        rfl
      · have value : f.value + (-f.value + 1) = 1 := by rw [← add_assoc, add_neg_cancel, zero_add]
        rw [value]
        rfl

/-- The reader gives the field of an exponent by `assign` what bytes carry. -/
theorem number_in_range {assign : Field I64 → I64 → Field I64} {w : List UInt8} {v : I64} (carries : Carries parseInt w v)
    {f : Field I64} (range : InRange (assign f v)) {b : Buffer} {rest : List UInt8} (hv : b.Valid)
    (hu : b.unread = w ++ rest) :
    (readNumber parseInt assign b f).ret = .ok ∧ (readNumber parseInt assign b f).buffer = b.bufferAdvance w.length ∧
      InRange (readNumber parseInt assign b f).field := by
  unfold readNumber
  rw [carries hv hu]
  exact ⟨rfl, rfl, range⟩

/-- Some bytes make the freshly loaded exponent one that a mantissa follows. -/
theorem exponent_taken {presence : Presence} {e : Node I64} (unused : e.op.movesBit presence false = false)
    (hope : hopeless presence e = false) :
    ∃ w, ∀ {b : Buffer} {rest : List UInt8} (p : Pmap), b.Valid → b.unread = w ++ rest →
      let r := fastDecodeInt b p (({ e with presence := presence } : Node I64).fieldInit 0)
      r.buffer = b.bufferAdvance w.length ∧ r.pmap = p ∧ ReadsMantissa r := by
  generalize made : ({ e with presence := presence } : Node I64).fieldInit 0 = f
  have op : f.op = e.op := by rw [← made]; rfl
  have same : f.presence = presence := by rw [← made]; rfl
  have map : ∀ (b : Buffer) (p : Pmap), (fastDecodeInt b p f).pmap = p := by
    intro b p
    rw [decode_int_pmap, op, same, unused]
    rfl
  cases which : e.op with
  | none =>
    obtain ⟨w, v, carries, range⟩ : ∃ w v, Carries parseInt w v ∧ InRange (assignInt f v) := by
      cases h : f.isMandatory with
      | true => exact ⟨_, _, carries_zero.1, by rw [assign_int_mandatory h]; exact ⟨rfl, rfl⟩⟩
      | false =>
        have zero : adjustInt f 1 = 0 := by
          simp only [adjustInt, h, Bool.not_false, Bool.true_and]
          rfl
        refine ⟨_, _, carries_one.1, ?_⟩
        rw [assign_int_optional h (by decide), zero]
        exact ⟨rfl, rfl⟩
    refine ⟨w, fun {b rest} p hv hu => ?_⟩
    have run : fastDecodeInt b p f = (readInt b f).toDecoded p := by
      simp only [fastDecodeInt, decodeField, op, which, intKind]
    obtain ⟨ok, buffer, present, exponent⟩ := number_in_range carries range hv hu
    refine ⟨by rw [run]; exact buffer, map b p, ?_⟩
    rw [run]
    exact ⟨ok, present, exponent⟩
  | delta =>
    obtain ⟨tmp, range⟩ := delta_in_range f
    refine ⟨wireGroups tmp 10, fun {b rest} p hv hu => ?_⟩
    have run : fastDecodeInt b p f = (readDelta b f).toDecoded p := by
      simp only [fastDecodeInt, decodeField, op, which, intKind]
    obtain ⟨ok, buffer, present, exponent⟩ := number_in_range (carries_ten tmp) range hv hu
    refine ⟨by rw [run]; exact buffer, map b p, ?_⟩
    rw [run]
    exact ⟨ok, present, exponent⟩
  | constant =>
    have mandatory : presence = .mandatory := by
      rw [which] at unused
      cases presence with
      | mandatory => rfl
      | optional => cases unused
    have range : exponentOk (e.prop.getD 0) = true := by
      simpa only [ElementNode.hopeless, mandatory, which, beq_self_eq_true, Bool.true_and, Bool.not_eq_false'] using hope
    refine ⟨[], fun {b rest} p hv hu => ?_⟩
    have run : fastDecodeInt b p f = ⟨.ok, b, p, constantValue intKind f⟩ := by
      have kept : (constantValue intKind f).isMandatory = true := by
        rw [← made, mandatory]
        rfl
      simp only [fastDecodeInt, decodeField, op, which, decodeConstant, kept, if_true]
    rw [run]
    refine ⟨rfl, rfl, rfl, rfl, ?_⟩
    rw [← made]
    exact range
  | copy =>
    rw [which] at unused
    cases unused
  | incr =>
    rw [which] at unused
    cases unused
  | default =>
    rw [which] at unused
    cases unused

/-- The strings of a template fit their arrays with their terminator. -/
theorem string_init_fits {unicode : Bool} {n : Node Bytes} (fits : (ElementNode.string unicode n).fits) :
    (cstr (stringInit n).value).length < stringMaxBytes := by
  have blank : (cstr blankBytes).length < stringMaxBytes := by decide
  have fits : ∀ v, n.prop = some v → (cstr v).length < stringMaxBytes := fits
  simp only [stringInit, Node.fieldInit, Node.prop] at fits ⊢
  split
  · exact blank
  · rename_i op
    cases value : n.value with
    | none => exact blank
    | some v =>
      have short := fits v (by
        split
        · rename_i none
          exact absurd none op
        · exact value)
      simp only [Option.map_some, Option.getD_some, cstr_strcpy]
      exact short

/-- Some bytes pass a freshly loaded field that neither uses the map nor is refused. -/
theorem element_taken {n : ElementNode} (fits : n.fits) (unused : n.usesMap = false) (goes : n.refused = false) :
    ∃ w, Takes decodeElement w (elementInit n) := by
  cases n with
  | int n =>
    obtain ⟨w, takes⟩ := int_taken (f := n.fieldInit 0) unused
    exact ⟨w, fun p hv hu => takes p hv hu⟩
  | uint n =>
    obtain ⟨w, takes⟩ := uint_taken (f := n.fieldInit 0) unused
    exact ⟨w, fun p hv hu => takes p hv hu⟩
  | string unicode n =>
    simp only [ElementNode.refused, Bool.or_eq_false_iff, Bool.and_eq_false_iff, beq_eq_false_iff_ne] at goes
    obtain ⟨incr, delta⟩ := goes
    cases unicode with
    | true =>
      obtain ⟨w, takes⟩ := field_taken (K := unicodeKind) (f := stringInit n) unused (fun op => absurd op incr)
        (fun _ => vector_taken _) (fun op => absurd op (delta.resolve_left (by decide)))
      exact ⟨w, fun p hv hu => takes p hv hu⟩
    | false =>
      have spliced := ascii_delta_taken (string_init_fits fits)
      obtain ⟨w, takes⟩ := field_taken (K := asciiKind) (f := stringInit n) unused (fun op => absurd op incr)
        (fun _ => ⟨_, ascii_taken _⟩)
        (fun _ => ⟨readAsciiDelta, spliced.choose, rfl, spliced.choose_spec⟩)
      exact ⟨w, fun p hv hu => takes p hv hu⟩
  | vector n =>
    simp only [ElementNode.refused, Bool.or_eq_false_iff, beq_eq_false_iff_ne] at goes
    obtain ⟨w, takes⟩ := field_taken (K := vectorKind) (f := vectorInit n) unused (fun op => absurd op goes.1)
      (fun _ => vector_taken _) (fun op => absurd op goes.2)
    exact ⟨w, fun p hv hu => takes p hv hu⟩
  | decimal n =>
    simp only [ElementNode.refused, beq_eq_false_iff_ne] at goes
    have zero : (decimalInit n).value = ⟨0, 0⟩ := by
      simp only [decimalInit, Node.fieldInit, Node.prop]
      split <;> rfl
    have read : ∃ w, TakenBy readDecimal w (decimalInit n) := decimal_taken (by decide)
    have delta : ∃ w, TakenBy readDecimalDelta w (decimalInit n) := decimal_taken (by rw [zero]; decide)
    obtain ⟨w, takes⟩ := field_taken (K := decimalKind) (f := decimalInit n) unused (fun op => absurd op goes)
      (fun _ => read) (fun _ => ⟨readDecimalDelta, delta.choose, rfl, delta.choose_spec⟩)
    exact ⟨w, fun p hv hu => takes p hv hu⟩
  | individ name presence e m =>
    simp only [usesMap, Bool.or_eq_false_iff, Bool.and_eq_false_iff, Bool.not_eq_false'] at unused
    obtain ⟨first, second⟩ := unused
    have hope : hopeless presence e = false := goes
    obtain ⟨w, exponent⟩ := exponent_taken first hope
    obtain ⟨w', mantissa⟩ := int_taken (f := m.fieldInit 0) (second.resolve_left (by rw [hope]; decide))
    refine ⟨w ++ w', fun {b rest} p hv hu => ?_⟩
    rw [List.append_assoc] at hu
    obtain ⟨valid, unread⟩ := unread_advance hv hu
    obtain ⟨buffer, map, reads⟩ := exponent p hv hu
    simp only [elementInit, decodeElement, fastDecodeDecimalIndivid]
    rw [reads.eq, assign_decimal_ret, assign_decimal_buffer, buffer, map]
    obtain ⟨ok, buffer⟩ := mantissa p valid unread
    exact ⟨ok, by rw [buffer, advance_advance, List.length_append]⟩
  | nested name => cases goes

/-! ## A use of the map -/

/-- No bit of the map is set. -/
def Clear (p : Pmap) : Prop := ∀ bit : Int, ({ p with pmapBit := bit } : Pmap).pmapIsSet = false

theorem Clear.next {p : Pmap} (h : Clear p) : p.next.pmapIsSet = false := h (p.pmapBit + 1)

theorem Clear.cursor {p p' : Pmap} (h : Clear p) (same : { p' with pmapBit := p.pmapBit } = p) : Clear p' := by
  intro bit
  have moved : ({ p' with pmapBit := bit } : Pmap) = { p with pmapBit := bit } :=
    congrArg (fun q : Pmap => { q with pmapBit := bit }) same
  rw [moved]
  exact h bit

/-- A field whose bit is clear is taken from the dictionary, without a byte. -/
theorem field_finished {α : Type} {K : Kind α} {f : Field α} (uses : f.op.movesBit f.presence K.incr.isNone = true)
    {p : Pmap} (clear : Clear p) (b : Buffer) :
    (decodeField K b p f).ret ≠ .msgPartial ∧ (decodeField K b p f).buffer = b := by
  have absent : ∀ {absent : Field α → Ret × Field α}, (∀ f, (absent f).1 ≠ .msgPartial) →
      (decodePresent K absent b p f).ret ≠ .msgPartial ∧ (decodePresent K absent b p f).buffer = b := by
    intro absent finished
    unfold decodePresent
    rw [if_neg (by rw [clear.next]; decide)]
    exact ⟨finished f, rfl⟩
  unfold decodeField
  cases op : f.op with
  | none =>
    rw [op] at uses
    cases uses
  | delta =>
    rw [op] at uses
    cases uses
  | copy => exact absent (previous_value_finished id)
  | default => exact absent initial_value_finished
  | constant =>
    simp only
    rw [decode_constant_finished, decode_constant_buffer]
    exact ⟨by decide, rfl⟩
  | incr =>
    cases K.incr with
    | none => exact ⟨nofun, rfl⟩
    | some incr => exact absent (previous_value_finished incr)

/-- One byte is enough for an integer whose bit is clear. -/
theorem int_finished (f : Field I64) {p : Pmap} (clear : Clear p) {b : Buffer} (hv : b.Valid)
    {rest : List UInt8} (hu : b.unread = [0x81] ++ rest) : (fastDecodeInt b p f).ret ≠ .msgPartial := by
  cases uses : f.op.movesBit f.presence false with
  | true => exact (field_finished (K := intKind) uses clear b).1
  | false =>
    cases op : f.op with
    | none =>
      have run : fastDecodeInt b p f = (readInt b f).toDecoded p := by
        simp only [fastDecodeInt, decodeField, op, intKind]
      rw [run]
      exact ne_of_eq_of_ne (number_taken carries_one.1 f hv hu).1 (by decide)
    | delta =>
      have run : fastDecodeInt b p f = (readDelta b f).toDecoded p := by
        simp only [fastDecodeInt, decodeField, op, intKind]
      rw [run]
      exact ne_of_eq_of_ne (number_taken carries_one.1 f hv hu).1 (by decide)
    | constant =>
      have run : fastDecodeInt b p f = decodeConstant intKind b p f := by
        simp only [fastDecodeInt, decodeField, op]
      rw [run, decode_constant_finished]
      decide
    | copy =>
      rw [op] at uses
      cases uses
    | incr =>
      rw [op] at uses
      cases uses
    | default =>
      rw [op] at uses
      cases uses

theorem moves_le (p : Pmap) (moves : Bool) : p.pmapBit ≤ (if moves then p.next else p).pmapBit := by
  split
  · exact Int.le_add_one (Int.le_refl _)
  · exact Int.le_refl _

theorem field_bit_le {α : Type} {K : Kind α} (b : Buffer) (p : Pmap) (f : Field α) :
    p.pmapBit ≤ (decodeField K b p f).pmap.pmapBit := by
  rw [decode_field_pmap]
  exact moves_le ..

theorem individ_bit_le (b : Buffer) (p : Pmap) (d : DecimalFields) :
    (fastDecodeInt b p d.exponent).pmap.pmapBit ≤ (fastDecodeDecimalIndivid b p d).pmap.pmapBit := by
  obtain stays | ⟨-, moves⟩ := individ_pmap b p d
  · rw [stays]
  · rw [moves]
    exact moves_le ..

/-- The bit never goes back. -/
theorem element_bit_le (b : Buffer) (p : Pmap) (f : ElementField) : p.pmapBit ≤ (decodeElement b p f).pmap.pmapBit := by
  cases f with
  | int f => exact field_bit_le ..
  | uint f => exact field_bit_le ..
  | string unicode f =>
    cases unicode with
    | true => exact field_bit_le (K := unicodeKind) ..
    | false => exact field_bit_le (K := asciiKind) ..
  | vector f => exact field_bit_le (K := vectorKind) ..
  | decimal individ f e m =>
    cases individ with
    | true => exact Int.le_trans (field_bit_le ..) (individ_bit_le b p ⟨f, e, m⟩)
    | false => exact field_bit_le (K := decimalKind) ..
  | nested name => exact Int.le_refl _

theorem element_fields_bit_le {k : Nat} {b : Buffer} (hv : b.Valid) (s : Sequence) :
    s.pmap.pmapBit ≤ (decodeElementFields k b s).seq.pmap.pmapBit := by
  induction k generalizing b s with
  | zero => exact Int.le_refl _
  | succ k ih =>
    cases hf : s.head[s.msgDecoded]? with
    | none =>
      rw [element_fields_none hf]
    | some f =>
      have first := element_bit_le b s.pmap f
      by_cases ok : (decodeElement b s.pmap f).ret = .ok
      · rw [element_fields_ok hf ok]
        exact Int.le_trans first (ih ((streams_element.moved s.pmap f hv).valid hv) (s.decodedField _))
      · by_cases interrupted : (decodeElement b s.pmap f).ret = .msgPartial
        · rw [element_fields_interrupted hv hf interrupted]
          exact Int.le_refl _
        · rw [element_fields_refused hf ok interrupted]
          exact first

/-- A decoder moves the bit over the bytes `w`, and does not ask for more. -/
def Moves (w : List UInt8) (f : ElementField) : Prop :=
  ∀ {b : Buffer} {p : Pmap}, b.Valid → b.unread = w → Clear p →
    (decodeElement b p f).ret ≠ .msgPartial ∧ p.pmapBit < (decodeElement b p f).pmap.pmapBit

theorem field_moves {α : Type} {K : Kind α} {f : Field α} (uses : f.op.movesBit f.presence K.incr.isNone = true)
    {b : Buffer} {p : Pmap} (clear : Clear p) :
    (decodeField K b p f).ret ≠ .msgPartial ∧ p.pmapBit < (decodeField K b p f).pmap.pmapBit := by
  refine ⟨(field_finished uses clear b).1, ?_⟩
  rw [decode_field_pmap, uses, if_pos rfl]
  exact Int.lt_add_one_of_le (Int.le_refl _)

theorem mantissa_finished {e : Decoded (Field I64)} {d : DecimalFields} (exponent : e.ret ≠ .msgPartial)
    (mantissa : ReadsMantissa e → (fastDecodeInt e.buffer e.pmap d.mantissa).ret ≠ .msgPartial) :
    (decodeMantissa e d).ret ≠ .msgPartial := by
  obtain reads | stops := mantissa_cases e d
  · rw [reads.eq, assign_decimal_ret]
    exact mantissa reads
  · exact fun short => exponent (stops.interrupted.mp short)

/-- Some bytes make a freshly loaded field that uses the map move its bit. -/
theorem element_moves {n : ElementNode} (uses : n.usesMap = true) : ∃ w, Moves w (elementInit n) := by
  cases n with
  | int n => exact ⟨[], fun _ _ clear => field_moves (K := intKind) (f := n.fieldInit 0) uses clear⟩
  | uint n => exact ⟨[], fun _ _ clear => field_moves (K := uintKind) (f := n.fieldInit 0) uses clear⟩
  | string unicode n =>
    cases unicode with
    | true => exact ⟨[], fun _ _ clear => field_moves (K := unicodeKind) (f := stringInit n) uses clear⟩
    | false => exact ⟨[], fun _ _ clear => field_moves (K := asciiKind) (f := stringInit n) uses clear⟩
  | vector n => exact ⟨[], fun _ _ clear => field_moves (K := vectorKind) (f := vectorInit n) uses clear⟩
  | decimal n => exact ⟨[], fun _ _ clear => field_moves (K := decimalKind) (f := decimalInit n) uses clear⟩
  | individ name presence e m =>
    let d : DecimalFields := ⟨decimalInit ⟨name, presence, .none, none⟩,
      ({ e with presence := presence } : Node I64).fieldInit 0, m.fieldInit 0⟩
    cases first : e.op.movesBit presence false with
    | true =>
      refine ⟨[0x81], fun {b p} hv hu clear => ?_⟩
      obtain ⟨finished, moves⟩ := field_moves (K := intKind) (f := d.exponent) (b := b) first clear
      have rest := individ_bit_le b p d
      refine ⟨mantissa_finished (d := d) finished fun _ => ?_, Int.lt_of_lt_of_le moves rest⟩
      have still := (field_finished (K := intKind) (f := d.exponent) first clear b).2
      change (fastDecodeInt b p d.exponent).buffer = b at still
      rw [still]
      exact int_finished _ (clear.cursor (interruptible_int.cursor b p d.exponent)) hv hu
    | false =>
      simp only [usesMap, first, Bool.false_or, Bool.and_eq_true, Bool.not_eq_true'] at uses
      obtain ⟨hope, second⟩ := uses
      obtain ⟨w, exponent⟩ := exponent_taken first hope
      refine ⟨w ++ [], fun {b p} hv hu clear => ?_⟩
      obtain ⟨-, map, reads⟩ := exponent p hv hu
      have moves := field_moves (K := intKind) (f := d.mantissa) (b := (fastDecodeInt b p d.exponent).buffer) second clear
      have ran : (fastDecodeDecimalIndivid b p d).ret = (fastDecodeInt (fastDecodeInt b p d.exponent).buffer p d.mantissa).ret ∧
          (fastDecodeDecimalIndivid b p d).pmap = (fastDecodeInt (fastDecodeInt b p d.exponent).buffer p d.mantissa).pmap := by
        unfold fastDecodeDecimalIndivid
        rw [ReadsMantissa.eq reads, assign_decimal_ret, assign_decimal_pmap, map]
        exact ⟨rfl, rfl⟩
      exact ⟨ran.1.symm ▸ moves.1, ran.2.symm ▸ moves.2⟩
  | nested name => cases uses

/-- Some bytes lead the field loop to a field that uses the map. -/
theorem element_fields_use {ns : List ElementNode} (fits : ∀ n ∈ ns, n.fits) (uses : ∃ n ∈ called ns, n.usesMap = true) :
    ∃ w, ∀ {k : Nat} {b : Buffer} {s : Sequence}, ns.length ≤ k → b.Valid → b.unread = w → Clear s.pmap →
      s.head.drop s.msgDecoded = ns.map elementInit →
      s.pmap.pmapBit < (decodeElementFields k b s).seq.pmap.pmapBit := by
  induction ns with
  | nil =>
    obtain ⟨n, hn, -⟩ := uses
    cases hn
  | cons n ns ih =>
    -- the field at the cursor, and the loop with one turn at least
    have here : ∀ {s : Sequence}, s.head.drop s.msgDecoded = (n :: ns).map elementInit →
        s.head[s.msgDecoded]? = some (elementInit n) ∧ s.head.drop (s.msgDecoded + 1) = ns.map elementInit := by
      intro s line
      have first := congrArg List.head? line
      rw [List.head?_drop] at first
      have rest := congrArg (List.drop 1) line
      rw [List.drop_drop] at rest
      exact ⟨first, rest⟩
    cases used : n.usesMap with
    | true =>
      obtain ⟨w, moves⟩ := element_moves used
      refine ⟨w, fun {k b s} most hv hu clear line => ?_⟩
      obtain ⟨k, rfl⟩ : ∃ m, k = m + 1 := ⟨k - 1, by rw [List.length_cons] at most; omega⟩
      obtain ⟨hf, -⟩ := here line
      obtain ⟨finished, moved⟩ := moves hv hu clear
      by_cases ok : (decodeElement b s.pmap (elementInit n)).ret = .ok
      · rw [element_fields_ok hf ok]
        exact Int.lt_of_lt_of_le moved
          (element_fields_bit_le ((streams_element.moved s.pmap _ hv).valid hv) (s.decodedField _))
      · rw [element_fields_refused hf ok finished]
        exact moved
    | false =>
      obtain ⟨m, hm, found⟩ := uses
      have goes : n.refused = false := by
        cases refused : n.refused with
        | false => rfl
        | true =>
          rw [called, refused, if_pos rfl, List.mem_singleton] at hm
          rw [hm, used] at found
          cases found
      rw [called, goes, if_neg (by decide), List.mem_cons] at hm
      have later : m ∈ called ns := hm.resolve_left fun same => by
        rw [same, used] at found
        cases found
      obtain ⟨w, takes⟩ := element_taken (fits n List.mem_cons_self) used goes
      obtain ⟨w', moves⟩ := ih (fun n hn => fits n (List.mem_cons_of_mem _ hn)) ⟨m, later, found⟩
      refine ⟨w ++ w', fun {k b s} most hv hu clear line => ?_⟩
      rw [List.length_cons] at most
      obtain ⟨k, rfl⟩ : ∃ m, k = m + 1 := ⟨k - 1, by omega⟩
      obtain ⟨hf, rest⟩ := here line
      obtain ⟨valid, unread⟩ := unread_advance hv hu
      obtain ⟨ok, buffer⟩ := takes s.pmap hv hu
      have stays := (made_init n).unused used b s.pmap
      rw [element_fields_ok hf ok, buffer]
      have behind : (s.decodedField (decodeElement b s.pmap (elementInit n))).head.drop
          (s.decodedField (decodeElement b s.pmap (elementInit n))).msgDecoded = ns.map elementInit := by
        have past : (s.head.set s.msgDecoded (decodeElement b s.pmap (elementInit n)).field).drop (s.msgDecoded + 1) =
            s.head.drop (s.msgDecoded + 1) := List.drop_set_of_lt (Nat.lt_succ_self _)
        exact past.trans rest
      have map : (s.decodedField (decodeElement b s.pmap (elementInit n))).pmap = s.pmap := stays
      have moved := moves (k := k) (s := s.decodedField (decodeElement b s.pmap (elementInit n))) (by omega) valid unread
        (by rw [map]; exact clear) behind
      rw [map] at moved
      exact moved

/-- A map of one byte, with no bit set. -/
theorem clear_byte (p : Pmap) (bytes : List UInt8) (h : p.bytes = 0x80 :: bytes) (one : p.nrBytes = 1) : Clear p := by
  have bits : ∀ k < 7, ((0x80 : UInt8) &&& ((1 : UInt8) <<< (6 - k).toUInt8)) = 0 := by decide
  intro bit
  unfold Pmap.pmapIsSet
  split
  · rename_i k _
    simp only [one]
    split
    · rfl
    · rename_i inside
      have zero : k / 7 = 0 := by omega
      rw [zero, h, List.getD_cons_zero, bits (k % 7) (Nat.mod_lt _ (by decide))]
      rfl
  · rfl

/-- Where a field that is decoded uses the map, some bytes make it. -/
theorem consults_of_uses {n : SequenceNode} (fits : ∀ f ∈ n.fields, f.fits)
    (uses : ∃ f ∈ called n.fields, f.usesMap = true) : ConsultsMap n := by
  obtain ⟨w, moves⟩ := element_fields_use fits uses
  let s := sequenceInit n
  have all : n.fields.length ≤ (n.fields.map elementInit).length - 0 := by
    rw [List.length_map]
    exact Nat.le_refl _
  cases asked : s.pmapReq with
  | false =>
    let b : Buffer := ⟨w, 0, w.length⟩
    have valid : b.Valid := ⟨Nat.zero_le _, Nat.le_refl _⟩
    have unread : b.unread = w := by simp only [b, unread, List.take_length, List.drop_zero]
    have passed : decodeElementPmap b s = ⟨.ok, b, s⟩ := element_pmap_passed (by rw [asked]; rfl)
    refine ⟨b, s, valid, .loaded, rfl, rfl, by rw [passed], ?_⟩
    rw [item_fields (by rw [passed]), passed]
    have clear : Clear s.pmap := by
      intro bit
      unfold Pmap.pmapIsSet
      split
      · exact if_pos (Nat.zero_le _)
      · rfl
    exact (Int.ne_of_lt (moves all valid unread clear rfl)).symm
  | true =>
    let b : Buffer := ⟨0x80 :: w, 0, w.length + 1⟩
    have valid : b.Valid := ⟨Nat.zero_le _, Nat.le_refl _⟩
    have unread : b.unread = [0x80] ++ w := by
      simp only [b, unread, List.drop_zero, List.take_succ_cons, List.take_length]
      rfl
    obtain ⟨valid', unread'⟩ := unread_advance valid unread
    have read : parsePmap b s.pmap = (.ok, ⟨false, 0, 1, Pmap.empty.bytes.set 0 0x80⟩, b.bufferAdvance 1) := by
      unfold parsePmap
      rw [show pmapMaxBytes = 7 + 1 from rfl, parsePmapFrom, next_byte_cons valid unread]
      rfl
    have passed : decodeElementPmap b s =
        ⟨.ok, b.bufferAdvance 1, { s with pmap := ⟨true, -1, 1, Pmap.empty.bytes.set 0 0x80⟩ }⟩ := by
      rw [element_pmap_read (by rw [asked]; rfl) (by rw [read]), read]
    refine ⟨b, s, valid, .loaded, rfl, rfl, by rw [passed], ?_⟩
    rw [item_fields (by rw [passed]), passed]
    exact (Int.ne_of_lt (moves all valid' unread' (clear_byte _ _ rfl rfl) rfl)).symm

/-! ## The flag -/

theorem consults_iff {n : SequenceNode} (fits : ∀ f ∈ n.fields, f.fits) :
    ConsultsMap n ↔ ∃ f ∈ called n.fields, f.usesMap = true := ⟨ConsultsMap.uses, consults_of_uses fits⟩

theorem called_sublist (ns : List ElementNode) : ∀ n ∈ called ns, n ∈ ns := by
  induction ns with
  | nil => exact fun n hn => hn
  | cons m ns ih =>
    intro n hn
    rw [called, List.mem_cons] at hn
    rcases hn with rfl | hn
    · exact List.mem_cons_self
    · split at hn
      · cases hn
      · exact List.mem_cons_of_mem _ (ih n hn)

/-- A field that uses the map and does not ask for one is a decimal with individual operators. -/
theorem uses_unasked {n : ElementNode} (uses : n.usesMap = true) (unasked : n.pmapRequired = false) :
    ∃ name presence e m, n = .individ name presence e m := by
  cases n with
  | individ name presence e m => exact ⟨name, presence, e, m, rfl⟩
  | nested name => cases uses
  | int n =>
    simp only [usesMap, Op.movesBit, Bool.and_eq_true] at uses
    exact absurd (uses.1.symm.trans unasked) (by decide)
  | uint n =>
    simp only [usesMap, Op.movesBit, Bool.and_eq_true] at uses
    exact absurd (uses.1.symm.trans unasked) (by decide)
  | string unicode n =>
    simp only [usesMap, Op.movesBit, Bool.and_eq_true] at uses
    exact absurd (uses.1.symm.trans unasked) (by decide)
  | vector n =>
    simp only [usesMap, Op.movesBit, Bool.and_eq_true] at uses
    exact absurd (uses.1.symm.trans unasked) (by decide)
  | decimal n =>
    simp only [usesMap, Op.movesBit, Bool.and_eq_true] at uses
    exact absurd (uses.1.symm.trans unasked) (by decide)

/-- **The map of an element.** The flag of a sequence says whether decoding an element can consult its map,
if and only if the template is none of the mispredicted ones. -/
theorem pmap_flag_iff (n : SequenceNode) (fits : ∀ f ∈ n.fields, f.fits) :
    ((sequenceInit n).pmapReq = true ↔ ConsultsMap n) ↔ ¬Mispredicted n.fields := by
  have flag : (sequenceInit n).pmapReq = n.fields.any ElementNode.pmapRequired := rfl
  rw [flag, consults_iff fits]
  cases asked : n.fields.any ElementNode.pmapRequired with
  | false =>
    have unasked : ∀ f ∈ n.fields, f.pmapRequired = false := by simpa using List.any_eq_false.mp asked
    constructor
    · rintro same (⟨-, name, presence, e, m, found, uses⟩ | ⟨asked', -⟩)
      · exact nomatch same.mpr ⟨_, found, uses⟩
      · rw [asked] at asked'
        cases asked'
    · refine fun predicted => ⟨nofun, fun ⟨f, found, uses⟩ => ?_⟩
      obtain ⟨name, presence, e, m, rfl⟩ := uses_unasked uses (unasked f (called_sublist _ _ found))
      exact absurd (.inl ⟨asked, name, presence, e, m, found, uses⟩) predicted
  | true =>
    constructor
    · rintro same (⟨asked', -⟩ | ⟨-, unused⟩)
      · rw [asked] at asked'
        cases asked'
      · obtain ⟨f, found, uses⟩ := same.mp rfl
        rw [unused f found] at uses
        cases uses
    · intro predicted
      refine ⟨fun _ => ?_, fun _ => rfl⟩
      by_cases uses : ∃ f ∈ called n.fields, f.usesMap = true
      · exact uses
      · refine absurd (.inr ⟨asked, fun f found => ?_⟩) predicted
        cases used : f.usesMap with
        | false => rfl
        | true => exact absurd ⟨f, found, used⟩ uses

/-- A price whose exponent and mantissa are copied, in a sequence of its own. -/
def pricesNode : SequenceNode where
  name := "Prices"
  presence := .mandatory
  length := ⟨"NoPrices", .mandatory, .none, none⟩
  fields := [.individ "Price" .mandatory ⟨"", .mandatory, .copy, none⟩ ⟨"", .mandatory, .delta, none⟩]

/-- Levels of a price with a constant exponent, a side, a quantity that is counted up and a text. -/
def levelsNode : SequenceNode where
  name := "Levels"
  presence := .mandatory
  length := ⟨"NoLevels", .mandatory, .none, none⟩
  fields := [.individ "Price" .mandatory ⟨"", .mandatory, .constant, some (-2)⟩ ⟨"", .mandatory, .delta, none⟩,
    .uint ⟨"Side", .mandatory, .none, none⟩, .uint ⟨"Qty", .mandatory, .incr, none⟩, .string false ⟨"Text", .optional, .copy, none⟩]

/-- The map of the levels is predicted: the elements have one, and the decoder consults it. -/
theorem quantities_predicted : (sequenceInit levelsNode).pmapReq = true ∧ ConsultsMap levelsNode := by
  have fits : ∀ f ∈ levelsNode.fields, f.fits := by
    intro f hf
    simp only [levelsNode, List.mem_cons, List.not_mem_nil, or_false] at hf
    rcases hf with rfl | rfl | rfl | rfl
    · trivial
    · trivial
    · trivial
    · intro v no
      cases no
  have predicted : ¬Mispredicted levelsNode.fields := by
    rintro (⟨asked, -⟩ | ⟨-, unused⟩)
    · cases asked
    · have used := unused (.uint ⟨"Qty", .mandatory, .incr, none⟩) (by decide)
      cases used
  exact ⟨rfl, ((pmap_flag_iff levelsNode fits).2 predicted).1 rfl⟩

/-- The elements of a price sequence have no map, and their decoder consults one. -/
theorem prices_mispredicted : (sequenceInit pricesNode).pmapReq = false ∧ ConsultsMap pricesNode :=
  ⟨rfl, consults_of_uses (by simp [pricesNode, ElementNode.fits]) ⟨_, List.mem_cons_self, rfl⟩⟩

end Libtrading.Fast
