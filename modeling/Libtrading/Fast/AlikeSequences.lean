import Libtrading.Fast.AlikeElements

/-!
# Sequences that decode alike

A sequence decodes alike with another one where its length does, the running fields do, and a map that it is in the
middle of has the same bits. What it copied to its elements so far then shows the same.
-/

namespace Libtrading.Fast
set_option autoImplicit false
open Buffer

/-! ## Maps off the wire -/

/-- Two maps that were read from the same bytes, into arrays of a size. -/
structure Pmap.SameBytes (p q : Pmap) : Prop where
  count : p.nrBytes = q.nrBytes
  size : p.bytes.length = q.bytes.length
  bytes : ∀ i < p.nrBytes, p.bytes.getD i 0 = q.bytes.getD i 0

/-- Two maps that differ at most in the bit they are at. -/
structure Pmap.SameMap (p q : Pmap) : Prop where
  valid : p.isValid = q.isValid
  count : p.nrBytes = q.nrBytes
  bytes : p.bytes = q.bytes

theorem Pmap.SameBytes.isSet {p q : Pmap} (h : p.SameBytes q) (bit : p.pmapBit = q.pmapBit) :
    p.pmapIsSet = q.pmapIsSet := by
  unfold pmapIsSet
  rw [← bit]
  cases p.pmapBit with
  | ofNat bit =>
    simp only
    by_cases out : p.nrBytes ≤ bit / 7
    · rw [if_pos out, if_pos (h.count ▸ out)]
    · rw [if_neg out, if_neg (h.count ▸ out), h.bytes _ (Nat.lt_of_not_le out)]
  | negSucc bit => rfl

theorem Pmap.SameBytes.alike {p q : Pmap} (h : p.SameBytes q) (valid : Bool) (bit : Int) :
    Pmap.Alike { p with isValid := valid, pmapBit := bit } { q with isValid := valid, pmapBit := bit } := fun k =>
  SameBytes.isSet (p := skip _ k) (q := skip _ k) ⟨h.count, h.size, h.bytes⟩ rfl

theorem parse_pmap_from_alike {n : Nat} {p q : Pmap} (b : Buffer) (h : p.SameBytes q) :
    (parsePmapFrom n p b).1 = (parsePmapFrom n q b).1 ∧ (parsePmapFrom n p b).2.2 = (parsePmapFrom n q b).2.2 ∧
      (parsePmapFrom n p b).2.1.SameBytes (parsePmapFrom n q b).2.1 := by
  induction n generalizing p q b with
  | zero => exact ⟨rfl, rfl, h⟩
  | succ n ih =>
    unfold parsePmapFrom
    cases nextByte b with
    | none => exact ⟨rfl, rfl, h⟩
    | some cb =>
      obtain ⟨c, b'⟩ := cb
      have read : Pmap.SameBytes { p with bytes := p.bytes.set p.nrBytes c, nrBytes := p.nrBytes + 1 }
          { q with bytes := q.bytes.set q.nrBytes c, nrBytes := q.nrBytes + 1 } := by
        refine ⟨congrArg (· + 1) h.count, by simp only [List.length_set, h.size], fun i hi => ?_⟩
        simp only [List.getD_eq_getElem?_getD, List.getElem?_set, ← h.count, ← h.size]
        split_ifs with last
        · rfl
        · rfl
        · have before : i < p.nrBytes := by
            have hi : i < p.nrBytes + 1 := hi
            omega
          have old := h.bytes i before
          simp only [List.getD_eq_getElem?_getD] at old
          exact old
      simp only
      split_ifs
      · exact ⟨rfl, rfl, read⟩
      · exact ih b' read

/-- The same bytes make the same map, whatever the arrays held before. -/
theorem parse_pmap_alike {p q : Pmap} (size : p.bytes.length = q.bytes.length) (b : Buffer) :
    (parsePmap b p).1 = (parsePmap b q).1 ∧ (parsePmap b p).2.2 = (parsePmap b q).2.2 ∧
      (parsePmap b p).2.1.SameBytes (parsePmap b q).2.1 :=
  parse_pmap_from_alike b ⟨rfl, size, fun _ none => absurd none (Nat.not_lt_zero _)⟩

/-! ## Elements -/

/-- The map of the running element is there, or none is asked for. -/
def Sequence.Mapped (s : Sequence) : Prop := (s.pmapReq && !s.pmap.isValid) = false

/-- Field `j` of the element in row `i`. -/
def Sequence.cell (s : Sequence) (i j : Nat) : Option ElementField := (s.elements[i]?).bind (·[j]?)

/-- What a sequence keeps of the template's `o`; where no map is asked for, none is ever read. -/
structure Sequence.SameTemplate (o s : Sequence) : Prop where
  presence : s.presence = o.presence
  pmapReq : s.pmapReq = o.pmapReq
  size : s.pmap.bytes.length = pmapMaxBytes
  blank : o.pmapReq = false → s.pmap.nrBytes = 0
  heads : s.head.length = o.head.length

/-- Two sequences of the template's `o` that decode alike. -/
structure Sequence.Alike (o s t : Sequence) : Prop where
  left : o.SameTemplate s
  right : o.SameTemplate t
  decoded : s.decoded = t.decoded
  msgDecoded : s.msgDecoded = t.msgDecoded
  length : Field.Alike uintKind (plain _) o.length False s.length t.length
  begun : s.decoded ≠ 0 → s.length.state = t.length.state ∧ s.length.value = t.length.value
  valid : s.pmap.isValid = t.pmap.isValid
  map : s.Mapped → s.pmap.Alike t.pmap
  head : ∀ (j : Nat) (h f g : ElementField), o.head[j]? = some h → s.head[j]? = some f → t.head[j]? = some g →
    ElementField.Alike (j = s.msgDecoded ∧ s.Mapped ∧ s.pmap.next.pmapIsSet = true) h f g
  cells : ∀ (i j : Nat) (c d : ElementField), s.cell i j = some c → t.cell i j = some d →
    (i + 1 < s.decoded ∨ i + 1 = s.decoded ∧ j < s.msgDecoded) → c.seen = d.seen

/-- The map and the running fields are no part of the template, up to the map's size and whether there is one. -/
theorem Sequence.SameTemplate.running {o s s' : Sequence} (h : o.SameTemplate s) (presence : s'.presence = s.presence)
    (pmapReq : s'.pmapReq = s.pmapReq) (size : s'.pmap.bytes.length = s.pmap.bytes.length)
    (blank : s.pmapReq = false → s'.pmap.nrBytes = s.pmap.nrBytes) (heads : s'.head.length = s.head.length) :
    o.SameTemplate s' :=
  ⟨presence.trans h.presence, pmapReq.trans h.pmapReq, size.trans h.size,
    fun none => (blank (h.pmapReq.trans none)).trans (h.blank none), heads.trans h.heads⟩

/-- What is copied out shows what was decoded. -/
theorem copy_out_seen {c f : ElementField} (same : c.type = f.type) (vector : f.type ≠ .vector)
    (nested : f.type ≠ .sequence) : (copyOut c f).seen = f.seen := by
  cases f with
  | int f => cases c <;> first | rfl | cases same
  | uint f => cases c <;> first | rfl | cases same
  | string unicode f =>
    cases c with
    | string u c =>
      have chars : cstr (strcpy c.value f.value) = cstr f.value := cstr_strcpy c.value f.value
      simp only [copyOut, ElementField.seen, Field.seen, chars]
    | _ => cases same
  | decimal individ f e m => cases c <;> first | rfl | cases same
  | vector f => exact absurd rfl vector
  | nested name => exact absurd rfl nested

theorem ElementField.Alike.type {wire : Prop} {o f g : ElementField} (h : ElementField.Alike wire o f g) :
    f.type = g.type := by cases h <;> rfl

theorem cell_set_element (s : Sequence) (f : ElementField) (i j : Nat) :
    (s.setElement f).cell i j =
      (s.cell i j).map fun c => if s.decoded - 1 = i ∧ s.msgDecoded = j then copyOut c f else c := by
  simp only [Sequence.cell]
  rw [set_element_get]
  cases s.elements[i]? with
  | none => rfl
  | some e =>
    simp only [Option.map_some, Option.bind_some]
    by_cases row : s.decoded - 1 = i
    · rw [if_pos row, List.getElem?_modify]
      simp only [row, true_and]
      rfl
    · rw [if_neg row]
      simp only [row, false_and, if_false, Option.map_id']

theorem cell_mem {s : Sequence} {i j : Nat} {c : ElementField} (h : s.cell i j = some c) :
    ∃ e ∈ s.elements, e[j]? = some c := by
  obtain ⟨e, row, column⟩ := Option.bind_eq_some_iff.1 h
  exact ⟨e, List.mem_of_getElem? row, column⟩

/-- An entry of two lists in which one was replaced. -/
theorem set_entries {φ : Type} {fs gs : List φ} {i j : Nat} {f' g' f g : φ} (hf : (fs.set i f')[j]? = some f)
    (hg : (gs.set i g')[j]? = some g) : (j = i ∧ f = f' ∧ g = g') ∨ (j ≠ i ∧ fs[j]? = some f ∧ gs[j]? = some g) := by
  rw [List.getElem?_set] at hf hg
  by_cases same : i = j
  · rw [if_pos same] at hf hg
    split_ifs at hf hg
    exact .inl ⟨same.symm, (Option.some.inj hf).symm, (Option.some.inj hg).symm⟩
  · rw [if_neg same] at hf hg
    exact .inr ⟨Ne.symm same, hf, hg⟩

section Steps
variable {types : List FieldType} {o s t : Sequence} {f g k : ElementField} {r r' : Decoded ElementField}

theorem Decoded.InStep.moved {φ : Type} {p q : Pmap} {r r' : Decoded φ} (h : Decoded.InStep p q r r') :
    r.pmap.SameMap p ∧ r'.pmap.SameMap q := by
  obtain ⟨-, -, k, here, there⟩ := h
  rw [here, there]
  exact ⟨⟨rfl, rfl, rfl⟩, ⟨rfl, rfl, rfl⟩⟩

/-- Maps that differ in their bit. -/
theorem Sequence.SameTemplate.moved {s s' : Sequence} (h : o.SameTemplate s)
    (pmap : s'.pmap.SameMap s.pmap) (presence : s'.presence = s.presence)
    (pmapReq : s'.pmapReq = s.pmapReq) (heads : s'.head.length = s.head.length) : o.SameTemplate s' :=
  h.running presence pmapReq (congrArg List.length pmap.bytes) (fun _ => pmap.count) heads

/-- The running fields with one of them decoded, or waiting as `wire` says. -/
theorem head_set (h : Sequence.Alike o s t) (here : o.head[s.msgDecoded]? = some k) {wire : Prop}
    (alike : ElementField.Alike wire k r.field r'.field) (at' : Nat) (mapped : Prop)
    (more : wire → s.msgDecoded = at' ∧ mapped) (j : Nat) (k' f g : ElementField) (hk : o.head[j]? = some k')
    (hf : (s.head.set s.msgDecoded r.field)[j]? = some f) (hg : (t.head.set t.msgDecoded r'.field)[j]? = some g) :
    ElementField.Alike (j = at' ∧ mapped) k' f g := by
  rw [← h.msgDecoded] at hg
  rcases set_entries hf hg with ⟨rfl, rfl, rfl⟩ | ⟨other, hf, hg⟩
  · rw [here] at hk
    obtain rfl := Option.some.inj hk
    exact alike.mono more
  · exact (h.head j k' f g hk hf hg).mono fun wire => absurd wire.1 other

/-- A cell is of the type of the running field. -/
theorem cell_type (shaped : Shaped types s) {i j : Nat} {c : ElementField} (cell : s.cell i j = some c)
    (here : s.head[j]? = some f) : c.type = f.type := by
  obtain ⟨e, row, column⟩ := cell_mem cell
  have both := congrArg (·[j]?) ((shaped.elements e row).trans shaped.head.symm)
  simp only [List.getElem?_map, here, column] at both
  exact Option.some.inj both

/-- A vector of an element is as the template loaded it, also behind a copy. -/
theorem vector_cell (shaped : Shaped types s) {i j : Nat} {c : ElementField} (cell : s.cell i j = some c)
    (vector : c.type = .vector) (x : ElementField) : (copyOut c x).seen = .bytes (.undefined, none) := by
  obtain ⟨e, row, column⟩ := cell_mem cell
  cases c with
  | vector v =>
    have untouched := shaped.vectors e row v (List.mem_of_getElem? column)
    have same : copyOut (.vector v) x = .vector v := by cases x <;> rfl
    rw [same]
    simp only [ElementField.seen, Field.seen, untouched]
    rfl
  | _ => cases vector

/-- The cells of two elements show the same behind the field that was copied out. -/
theorem cells_set (shaped : Shaped types s) (shaped' : Shaped types t) (h : Sequence.Alike o s t)
    (here : s.head[s.msgDecoded]? = some f) (there : t.head[t.msgDecoded]? = some g)
    (type : r.field.type = f.type) (type' : r'.field.type = g.type) (same : r.field.type = r'.field.type)
    (seen : r.field.seen = r'.field.seen) (nested : f.type ≠ .sequence) (i j : Nat) (c d : ElementField)
    (hc : (s.setElement r.field).cell i j = some c) (hd : (t.setElement r'.field).cell i j = some d)
    (before : i + 1 < s.decoded ∨ i + 1 = s.decoded ∧ j < s.msgDecoded + 1) : c.seen = d.seen := by
  rw [cell_set_element] at hc hd
  rw [← h.decoded, ← h.msgDecoded] at hd
  obtain ⟨c', oldc, hc⟩ := Option.map_eq_some_iff.1 hc
  obtain ⟨d', oldd, hd⟩ := Option.map_eq_some_iff.1 hd
  by_cases place : s.decoded - 1 = i ∧ s.msgDecoded = j
  · rw [if_pos place] at hc hd
    subst hc hd
    have typed := cell_type shaped oldc (place.2 ▸ here)
    have typed' := cell_type shaped' oldd (place.2 ▸ h.msgDecoded ▸ there)
    by_cases vector : f.type = .vector
    · have vector' : g.type = .vector := by rw [← type', ← same, type, vector]
      rw [vector_cell shaped oldc (typed.trans vector), vector_cell shaped' oldd (typed'.trans vector')]
    · have other : g.type ≠ .vector ∧ g.type ≠ .sequence := by
        rw [← type', ← same, type]
        exact ⟨vector, nested⟩
      rw [copy_out_seen (typed.trans type.symm) (by rw [type]; exact vector) (by rw [type]; exact nested),
        copy_out_seen (typed'.trans type'.symm) (by rw [type']; exact other.1) (by rw [type']; exact other.2), seen]
  · rw [if_neg place] at hc hd
    subst hc hd
    exact h.cells i j c' d' oldc oldd (by omega)

/-- The entries of all three at a place. -/
theorem heads_some (h : Sequence.Alike o s t) (here : s.head[s.msgDecoded]? = some f) :
    ∃ k g, o.head[s.msgDecoded]? = some k ∧ t.head[t.msgDecoded]? = some g := by
  have inside := (List.getElem?_eq_some_iff.1 here).1
  have inside' : s.msgDecoded < o.head.length := h.left.heads ▸ inside
  have inside₂ : t.msgDecoded < t.head.length := by
    rw [h.right.heads, ← h.left.heads, ← h.msgDecoded]
    exact inside
  exact ⟨_, _, List.getElem?_eq_getElem inside', List.getElem?_eq_getElem inside₂⟩

theorem heads_none (h : Sequence.Alike o s t) (out : s.head[s.msgDecoded]? = none) : t.head[t.msgDecoded]? = none := by
  rw [List.getElem?_eq_none_iff, h.right.heads, ← h.left.heads, ← h.msgDecoded, ← List.getElem?_eq_none_iff]
  exact out

/-- Two turns over elements that went alike. -/
structure ElementRun.Alike (o : Sequence) (r r' : ElementRun) : Prop where
  ret : r.ret = r'.ret
  buffer : r.buffer = r'.buffer
  seq : r.ret ≠ .fault → Sequence.Alike o r.seq r'.seq

/-- The sequences behind a field that was decoded. -/
theorem decoded_field_alike (shaped : Shaped types s) (shaped' : Shaped types t) (h : Sequence.Alike o s t)
    (mapped : s.Mapped) (at' : o.head[s.msgDecoded]? = some k) (here : s.head[s.msgDecoded]? = some f)
    (there : t.head[t.msgDecoded]? = some g) {b : Buffer}
    (stepped : Stepped (ElementField.Alike · k) ElementField.seen s.pmap t.pmap (decodeElement b s.pmap f)
      (decodeElement b t.pmap g)) (ok : (decodeElement b s.pmap f).ret = .ok) :
    Sequence.Alike o (s.decodedField (decodeElement b s.pmap f)) (t.decodedField (decodeElement b t.pmap g)) := by
  have alike := stepped.alike fun fault => by cases ok.symm.trans fault
  obtain ⟨moved, moved'⟩ := stepped.step.moved
  have type := decode_element_type b s.pmap f
  have type' := decode_element_type b t.pmap g
  refine ⟨h.left.moved moved rfl rfl List.length_set, h.right.moved moved' rfl rfl List.length_set, h.decoded,
    congrArg (· + 1) h.msgDecoded, h.length, h.begun, ?_, fun _ => ?_, ?_, ?_⟩
  · exact moved.valid.trans (h.valid.trans moved'.valid.symm)
  · exact stepped.step.map (h.map mapped)
  · exact head_set h at' alike _ _ fun waits => by cases ok.symm.trans waits.1
  · intro i j c d hc hd before
    exact cells_set shaped shaped' h here there type type' alike.type (stepped.seen ok) (ok_not_nested ok) i j c d hc hd before

/-- The sequences with a running field that was not decoded, and a map to go on with. -/
theorem set_head_alike (h : Sequence.Alike o s t) (mapped : s.Mapped) (at' : o.head[s.msgDecoded]? = some k)
    {wire : Prop} (alike : ElementField.Alike wire k r.field r'.field) {p q : Pmap} (step : Decoded.InStep s.pmap t.pmap r r')
    (maps : (p = s.pmap ∧ q = t.pmap) ∨ (p = r.pmap ∧ q = r'.pmap)) (more : wire → p.next.pmapIsSet = true) :
    Sequence.Alike o { s.setHead r.field with pmap := p } { t.setHead r'.field with pmap := q } := by
  have moved : p.SameMap s.pmap ∧ q.SameMap t.pmap := by
    rcases maps with ⟨rfl, rfl⟩ | ⟨rfl, rfl⟩
    · exact ⟨⟨rfl, rfl, rfl⟩, ⟨rfl, rfl, rfl⟩⟩
    · exact step.moved
  have map : p.Alike q := by
    rcases maps with ⟨rfl, rfl⟩ | ⟨rfl, rfl⟩
    · exact h.map mapped
    · exact step.map (h.map mapped)
  have still : (s.pmapReq && !p.isValid) = false := by
    rw [moved.1.valid]
    exact mapped
  exact ⟨h.left.moved moved.1 rfl rfl List.length_set, h.right.moved moved.2 rfl rfl List.length_set, h.decoded, h.msgDecoded,
    h.length, h.begun, moved.1.valid.trans (h.valid.trans moved.2.valid.symm), fun _ => map,
    head_set h at' alike _ _ fun wire => ⟨rfl, still, more wire⟩, h.cells⟩

/-- The rest of an element, by induction on the fields left. -/
theorem element_fields_alike (n : Nat) {b : Buffer} (hv : b.Valid) (shaped : Shaped types s) (shaped' : Shaped types t)
    (h : Sequence.Alike o s t) (mapped : s.Mapped) (begun : s.decoded ≠ 0) (left : s.decoded ≤ s.length.value.toNat) :
    ElementRun.Alike o (decodeElementFields n b s) (decodeElementFields n b t) := by
  induction n generalizing b s t with
  | zero => exact ⟨rfl, rfl, fun _ => h⟩
  | succ n ih =>
    cases here : s.head[s.msgDecoded]? with
    | none =>
      rw [element_fields_none here, element_fields_none (heads_none h here)]
      exact ⟨rfl, rfl, fun _ => h⟩
    | some f =>
      obtain ⟨k, g, at', there⟩ := heads_some h here
      have entry : t.head[s.msgDecoded]? = some g := h.msgDecoded ▸ there
      have stepped := element_stepped (h.map mapped) b ((h.head _ k f g at' here entry).mono fun wire => wire.2.2)
      obtain ⟨ret, buffer, -⟩ := stepped.step
      by_cases ok : (decodeElement b s.pmap f).ret = .ok
      · have ok' : (decodeElement b t.pmap g).ret = .ok := ret.symm.trans ok
        have begun' : t.decoded ≠ 0 := h.decoded ▸ begun
        have left' : t.decoded ≤ t.length.value.toNat := by
          rw [← h.decoded, ← (h.begun begun).2]
          exact left
        rw [element_fields_ok here ok, element_fields_ok there ok', ← buffer]
        refine ih ((streams_element.moved s.pmap f hv).valid hv)
          (shaped.progress.succeeds here (decide_eq_true ok) begun left).shaped
          (shaped'.progress.succeeds there (decide_eq_true ok') begun' left').shaped
          (decoded_field_alike shaped shaped' h mapped at' here there stepped ok) ?_ begun left
        show (s.pmapReq && !(decodeElement b s.pmap f).pmap.isValid) = false
        rw [stepped.step.moved.1.valid]
        exact mapped
      · by_cases waits : (decodeElement b s.pmap f).ret = .msgPartial
        · rw [element_fields_interrupted hv here waits, element_fields_interrupted hv there (ret.symm.trans waits)]
          have alike := stepped.alike fun fault => by cases waits.symm.trans fault
          exact ⟨rfl, rfl, fun _ => set_head_alike h mapped at' alike stepped.step (.inl ⟨rfl, rfl⟩) fun wire => wire.2⟩
        · rw [element_fields_refused here ok waits,
            element_fields_refused there (by rw [← ret]; exact ok) (by rw [← ret]; exact waits)]
          refine ⟨ret, buffer, fun defined => ?_⟩
          exact set_head_alike h mapped at' (stepped.alike defined) stepped.step (.inr ⟨rfl, rfl⟩)
            fun wire => absurd wire.1 waits

/-- The map of an element, where one is asked for. -/
theorem element_pmap_alike {b : Buffer} (hv : b.Valid) (h : Sequence.Alike o s t) :
    ElementRun.Alike o (decodeElementPmap b s) (decodeElementPmap b t) := by
  have asks : (t.pmapReq && !t.pmap.isValid) = (s.pmapReq && !s.pmap.isValid) := by
    rw [h.left.pmapReq, h.right.pmapReq, h.valid]
  cases asked : s.pmapReq && !s.pmap.isValid with
  | false =>
    rw [element_pmap_passed asked, element_pmap_passed (asks.trans asked)]
    exact ⟨rfl, rfl, fun _ => h⟩
  | true =>
    obtain ⟨ret, buffer, same⟩ := parse_pmap_alike (h.left.size.trans h.right.size.symm) b
    have kept : ∀ u : Sequence, (parsePmap b u.pmap).2.1.isValid = u.pmap.isValid := fun _ => parse_pmap_from_cursor.1
    have required : s.pmapReq = true ∧ t.pmapReq = true := by
      have required : s.pmapReq = true := (Bool.and_eq_true_iff.1 asked).1
      exact ⟨required, (h.right.pmapReq.trans h.left.pmapReq.symm).trans required⟩
    have size : ∀ u : Sequence, (parsePmap b u.pmap).2.1.bytes.length = u.pmap.bytes.length := fun _ => parse_pmap_from_length
    -- before the map is there no running field is half read
    have before : ∀ (p q : Pmap), p.isValid = q.isValid → p.bytes.length = s.pmap.bytes.length →
        q.bytes.length = t.pmap.bytes.length → ((s.pmapReq && !p.isValid) = false → p.Alike q) →
        Sequence.Alike o { s with pmap := p } { t with pmap := q } := by
      intro p q valid size size' map
      refine ⟨h.left.running rfl rfl size (fun none => ?_) rfl, h.right.running rfl rfl size' (fun none => ?_) rfl, h.decoded,
        h.msgDecoded, h.length, h.begun, valid, map, ?_, h.cells⟩
      · cases required.1.symm.trans none
      · cases required.2.symm.trans none
      · intro j k f g hk hf hg
        refine (h.head j k f g hk hf hg).mono fun wire => ?_
        have unmapped : (s.pmapReq && !s.pmap.isValid) = false := wire.2.1
        cases asked.symm.trans unmapped
    by_cases ok : (parsePmap b s.pmap).1 = .ok
    · rw [element_pmap_read asked ok, element_pmap_read (asks.trans asked) (ret.symm.trans ok)]
      exact ⟨rfl, buffer, fun _ => before _ _ rfl (size s) (size t) fun _ => same.alike true (-1)⟩
    · have waiting : Sequence.Alike o { s with pmap := (parsePmap b s.pmap).2.1 } { t with pmap := (parsePmap b t.pmap).2.1 } := by
        refine before _ _ ((kept s).trans (h.valid.trans (kept t).symm)) (size s) (size t) fun mapped => ?_
        rw [kept s] at mapped
        cases asked.symm.trans mapped
      by_cases short : (parsePmap b s.pmap).1 = .msgPartial
      · rw [element_pmap_short hv asked short, element_pmap_short hv (asks.trans asked) (ret.symm.trans short)]
        exact ⟨rfl, rfl, fun _ => waiting⟩
      · rw [element_pmap_refused asked ok short,
          element_pmap_refused (asks.trans asked) (by rw [← ret]; exact ok) (by rw [← ret]; exact short)]
        exact ⟨ret, buffer, fun _ => waiting⟩

/-- One turn of the element loop. -/
theorem item_alike {b : Buffer} (hv : b.Valid) (shaped : Shaped types s) (shaped' : Shaped types t)
    (h : Sequence.Alike o s t) (begun : s.decoded ≠ 0) (left : s.decoded ≤ s.length.value.toNat) :
    ElementRun.Alike o (elementItem b s) (elementItem b t) := by
  obtain ⟨ret, buffer, seq⟩ := element_pmap_alike hv h
  obtain ⟨moved, -, there⟩ := element_pmap_moved hv s
  by_cases ok : (decodeElementPmap b s).ret = .ok
  · rw [item_fields ok, item_fields (ret.symm.trans ok), ← buffer]
    have alike := seq fun fault => by cases ok.symm.trans fault
    obtain ⟨q, here⟩ := element_pmap_only b s
    obtain ⟨q', here'⟩ := element_pmap_only b t
    have count : (decodeElementPmap b t).seq.head.length - (decodeElementPmap b t).seq.msgDecoded =
        (decodeElementPmap b s).seq.head.length - (decodeElementPmap b s).seq.msgDecoded := by
      rw [alike.left.heads, alike.right.heads, alike.msgDecoded]
    rw [count]
    refine element_fields_alike _ (moved.valid hv) (here ▸ shaped.withPmap q) (here' ▸ shaped'.withPmap q') alike (there ok)
      ?_ ?_
    · rw [here]
      exact begun
    · rw [here]
      exact left
  · rw [item_stopped ok, item_stopped fun ok' => ok (ret.trans ok')]
    exact ⟨ret, buffer, seq⟩

/-- What is left behind a turn: the cursor of the elements where it was, and that of the fields at the end. -/
theorem item_shaped (b : Buffer) (shaped : Shaped types s) (begun : s.decoded ≠ 0) (left : s.decoded ≤ s.length.value.toNat) :
    Shaped types (elementItem b s).seq ∧ (elementItem b s).seq.decoded = s.decoded ∧
      (elementItem b s).seq.length = s.length ∧
      ((elementItem b s).ret = .ok → types.length ≤ (elementItem b s).seq.msgDecoded) := by
  obtain ⟨q, here⟩ := element_pmap_only b s
  by_cases ok : (decodeElementPmap b s).ret = .ok
  · rw [item_fields ok]
    obtain ⟨progress, decoded, length, all⟩ := fields_progress ((decodeElementPmap b s).seq.head.length -
      (decodeElementPmap b s).seq.msgDecoded) (decodeElementPmap b s).buffer (here ▸ (shaped.withPmap q).progress)
      (by rw [here]; exact begun) (by rw [here]; exact left)
    refine ⟨progress.shaped, decoded.trans ?_, length.trans ?_, fun done => all done (Nat.le_refl _)⟩
    · rw [here]
    · rw [here]
  · rw [item_stopped ok, here]
    exact ⟨shaped.withPmap q, rfl, rfl, fun done => absurd done ok⟩

/-- The cursors at the next element. -/
theorem next_element_alike (shaped : Shaped types s) (h : Sequence.Alike o s t) (begun : s.decoded ≠ 0)
    (all : types.length ≤ s.msgDecoded) : Sequence.Alike o s.nextElement t.nextElement := by
  refine ⟨h.left.running rfl rfl rfl (fun _ => rfl) rfl, h.right.running rfl rfl rfl (fun _ => rfl) rfl,
    congrArg (· + 1) h.decoded, rfl, h.length, fun _ => h.begun begun, rfl, fun mapped => ?_, ?_, ?_⟩
  · have free : s.pmapReq = false := by
      have mapped : (s.pmapReq && !false) = false := mapped
      rw [Bool.not_false, Bool.and_true] at mapped
      exact mapped
    have passed : s.Mapped := by
      rw [Sequence.Mapped, free]
      rfl
    exact fun k => h.map passed k
  · intro j k f g hk hf hg
    refine (h.head j k f g hk hf hg).mono fun wire => ?_
    have inside : j < s.head.length := (List.getElem?_eq_some_iff.1 hf).1
    rw [← List.length_map (f := ElementField.type), shaped.head] at inside
    omega
  · intro i j c d hc hd before
    refine h.cells i j c d hc hd ?_
    obtain ⟨e, row, column⟩ := cell_mem hc
    have inside : j < e.length := (List.getElem?_eq_some_iff.1 column).1
    rw [← List.length_map (f := ElementField.type), shaped.elements e row] at inside
    have before : i + 1 < s.decoded + 1 ∨ i + 1 = s.decoded + 1 ∧ j < 0 := before
    omega

/-- The elements, by induction on the bound of their loop. -/
theorem elements_alike (n : Nat) {b : Buffer} (hv : b.Valid) (shaped : Shaped types s) (shaped' : Shaped types t)
    (h : Sequence.Alike o s t) (begun : s.decoded ≠ 0) :
    ElementRun.Alike o (decodeElements n b s) (decodeElements n b t) := by
  induction n generalizing b s t with
  | zero => exact ⟨rfl, rfl, fun _ => h⟩
  | succ n ih =>
    have bound : t.length.value.toNat = s.length.value.toNat := by rw [(h.begun begun).2]
    by_cases past : s.length.value.toNat < s.decoded
    · rw [elements_end past, elements_end (by rw [bound, ← h.decoded]; exact past)]
      exact ⟨rfl, rfl, fun _ => h⟩
    · have past' : ¬t.length.value.toNat < t.decoded := by
        rw [bound, ← h.decoded]
        exact past
      have begun' : t.decoded ≠ 0 := h.decoded ▸ begun
      obtain ⟨ret, buffer, seq⟩ := item_alike hv shaped shaped' h begun (Nat.le_of_not_lt past)
      obtain ⟨kept, decoded, length, all⟩ := item_shaped b shaped begun (Nat.le_of_not_lt past)
      obtain ⟨kept', decoded', length', all'⟩ := item_shaped b shaped' begun' (Nat.le_of_not_lt past')
      by_cases ok : (elementItem b s).ret = .ok
      · have ok' := ret.symm.trans ok
        have alike := seq fun fault => by cases ok.symm.trans fault
        rw [elements_next past ok, elements_next past' ok', ← buffer]
        refine ih ((item_moved hv s).1.valid hv) ?_ ?_ (next_element_alike kept alike (by rw [decoded]; exact begun) (all ok))
          (Nat.succ_ne_zero _)
        · exact (kept.progress.next (by rw [decoded]; exact begun) (by rw [decoded, length]; exact Nat.le_of_not_lt past)
            (all ok)).shaped
        · exact (kept'.progress.next (by rw [decoded']; exact begun')
            (by rw [decoded', length']; exact Nat.le_of_not_lt past') (all' ok')).shaped
      · rw [elements_stopped past ok, elements_stopped past' fun ok' => ok (ret.trans ok')]
        exact ⟨ret, buffer, seq⟩

/-- Where the cells of the first elements show the same, the elements do. -/
theorem elements_seen (shaped : Shaped types s) (shaped' : Shaped types t) {n : Nat}
    (cells : ∀ (i j : Nat) (c d : ElementField), s.cell i j = some c → t.cell i j = some d → i < n → c.seen = d.seen) :
    (s.elements.take n).map (·.map ElementField.seen) = (t.elements.take n).map (·.map ElementField.seen) := by
  refine List.ext_getElem? fun i => ?_
  rw [List.getElem?_map, List.getElem?_map, List.getElem?_take, List.getElem?_take]
  by_cases inside : i < n
  · rw [if_pos inside, if_pos inside]
    cases row : s.elements[i]? with
    | none =>
      have out := List.getElem?_eq_none_iff.1 row
      rw [shaped.size, ← shaped'.size] at out
      rw [List.getElem?_eq_none out]
    | some e =>
      have there : i < t.elements.length := by
        rw [shaped'.size, ← shaped.size]
        exact (List.getElem?_eq_some_iff.1 row).1
      have row' := List.getElem?_eq_getElem there
      rw [row', Option.map_some, Option.map_some, Option.some_inj]
      have types := congrArg List.length ((shaped.elements e (List.mem_of_getElem? row)).trans
        (shaped'.elements _ (List.mem_of_getElem? row')).symm)
      rw [List.length_map, List.length_map] at types
      refine List.ext_getElem? fun j => ?_
      rw [List.getElem?_map, List.getElem?_map]
      by_cases column : j < e.length
      · have here := List.getElem?_eq_getElem column
        have here' := List.getElem?_eq_getElem (types ▸ column)
        rw [here, here', Option.map_some, Option.map_some, Option.some_inj]
        refine cells i j _ _ ?_ ?_ inside
        · rw [Sequence.cell, row]
          exact here
        · rw [Sequence.cell, row']
          exact here'
      · rw [List.getElem?_eq_none (Nat.le_of_not_lt column), List.getElem?_eq_none (types ▸ Nat.le_of_not_lt column)]
  · rw [if_neg inside, if_neg inside]

/-- What holds of two sequences behind a step. -/
structure Sequence.Stepped (o : Sequence) (p q : Pmap) (r r' : Decoded Sequence) : Prop where
  step : Decoded.InStep p q r r'
  alike : r.ret ≠ .fault → Sequence.Alike o r.field r'.field
  seen : r.ret = .ok → (FastField.sequence r.field).seen = (FastField.sequence r'.field).seen

/-- The elements behind a length. -/
theorem elements_from_stepped {b : Buffer} (hv : b.Valid) (shaped : Shaped types s) (shaped' : Shaped types t)
    (h : Sequence.Alike o s t) (begun : s.decoded ≠ 0) (p q : Pmap) :
    Sequence.Stepped o p q (sequenceElementsFrom b p s) (sequenceElementsFrom b q t) := by
  obtain ⟨ret, buffer, seq⟩ := elements_alike sequenceElements hv shaped shaped' h begun
  obtain ⟨progress, more, length, all⟩ := elements_progress sequenceElements b shaped.progress begun
  obtain ⟨progress', -, length', -⟩ := elements_progress sequenceElements b shaped'.progress (h.decoded ▸ begun)
  have enough : s.left ≤ sequenceElements := by
    have range := shaped.range begun
    simp only [Sequence.left]
    omega
  unfold sequenceElementsFrom
  generalize decodeElements sequenceElements b s = r at *
  generalize decodeElements sequenceElements b t = r' at *
  simp only [← ret]
  by_cases ok : r.ret = .ok
  · rw [if_neg (not_not_intro ok), if_neg (not_not_intro ok)]
    have alike := seq fun fault => by cases ok.symm.trans fault
    have past := all ok enough
    rw [← length] at past
    refine ⟨⟨rfl, buffer, 0, p.skip_zero.symm, q.skip_zero.symm⟩, fun _ => ?_, fun _ => ?_⟩
    · refine ⟨alike.left.running rfl rfl rfl (fun _ => rfl) rfl, alike.right.running rfl rfl rfl (fun _ => rfl) rfl, rfl,
        alike.msgDecoded, alike.length, fun none => absurd rfl none, alike.valid, alike.map, alike.head, ?_⟩
      intro i j c d _ _ before
      have before : i + 1 < 0 ∨ i + 1 = 0 ∧ j < r.seq.msgDecoded := before
      omega
    · obtain ⟨state, value⟩ := alike.begun more
      have range := progress.shaped.range more
      have counts : r.seq.count = r.seq.length.value.toNat ∧ r'.seq.count = r.seq.length.value.toNat := by
        have empty : r'.seq.length.stateEmpty = false := by
          rw [← range.1]
          simp only [Field.stateEmpty, state]
        rw [Sequence.count, Sequence.count, range.1, empty, value]
        exact ⟨rfl, rfl⟩
      have cells := elements_seen (n := r.seq.length.value.toNat) progress.shaped progress'.shaped
        fun i j c d hc hd before => alike.cells i j c d hc hd (.inl (by omega))
      have lengths : r.seq.length.seen id = r'.seq.length.seen id := by simp only [Field.seen, state, value]
      show FieldSeen.sequence (r.seq.length.seen id) ((r.seq.elements.take r.seq.count).map _) =
        FieldSeen.sequence (r'.seq.length.seen id) ((r'.seq.elements.take r'.seq.count).map _)
      rw [counts.1, counts.2, lengths, cells]
  · rw [if_pos ok, if_pos ok]
    exact ⟨⟨rfl, buffer, 0, p.skip_zero.symm, q.skip_zero.symm⟩, seq, fun done => absurd done ok⟩

/-- Two lengths that were decoded: empty both, or of one value. -/
theorem Field.Agreed.number {f g : Field U64} (h : f.Agreed (plain _) g) :
    g.stateEmpty = f.stateEmpty ∧ (f.stateEmpty = false → f.value = g.value) := by
  have filled : f.stateEmpty = false → f.state ≠ .empty := by
    intro there empty
    simp only [Field.stateEmpty, empty] at there
    cases there
  exact ⟨congrArg (· == State.empty) h.state.symm, fun there => h.value (filled there)⟩

/-- **A sequence.** Sequences that decode alike do, and then show the same. -/
theorem sequence_stepped {p q : Pmap} (map : p.Alike q) {b : Buffer} (hv : b.Valid) (shaped : Shaped types s)
    (shaped' : Shaped types t) (h : Sequence.Alike o s t) :
    Sequence.Stepped o p q (fastDecodeSequence b p s) (fastDecodeSequence b q t) := by
  obtain ⟨step, alike, agreed⟩ := number_stepped uint_lockstep rfl rfl map b h.length
  have ret : (fastDecodeUint b p s.length).ret = (fastDecodeUint b q t.length).ret := step.ret
  have number : (fastDecodeUint b p s.length).ret = .ok →
      (fastDecodeUint b q t.length).field.stateEmpty = (fastDecodeUint b p s.length).field.stateEmpty ∧
        ((fastDecodeUint b p s.length).field.stateEmpty = false →
          (fastDecodeUint b p s.length).field.value = (fastDecodeUint b q t.length).field.value) := fun ok => (agreed ok).number
  have behind : s.decoded = 0 → Sequence.Alike o { s with length := (fastDecodeUint b p s.length).field }
      { t with length := (fastDecodeUint b q t.length).field } := fun idle =>
    ⟨h.left.running rfl rfl rfl (fun _ => rfl) rfl, h.right.running rfl rfl rfl (fun _ => rfl) rfl, h.decoded, h.msgDecoded,
      alike, fun begun => absurd idle begun, h.valid, h.map, h.head, h.cells⟩
  cases length_cases b p s with
  | begun begun =>
    rw [sequence_begun begun, sequence_begun (h.decoded ▸ begun)]
    exact elements_from_stepped hv shaped shaped' h begun p q
  | read idle ok there range =>
    have idle' : t.decoded = 0 := h.decoded ▸ idle
    obtain ⟨empty, value⟩ := number ok
    have there' := empty.trans there
    have range' : (fastDecodeUint b q t.length).field.value.toNat < sequenceElements := by
      rw [← value there]
      exact range
    rw [sequence_read idle ok there range, sequence_read idle' (ret.symm.trans ok) there' range']
    have first : Sequence.Alike o (s.withLength (fastDecodeUint b p s.length).field)
        (t.withLength (fastDecodeUint b q t.length).field) := by
      refine ⟨h.left.running rfl rfl rfl (fun _ => rfl) rfl, h.right.running rfl rfl rfl (fun _ => rfl) rfl, rfl, h.msgDecoded,
        alike, fun _ => ⟨(agreed ok).state, value there⟩, h.valid, h.map, h.head, ?_⟩
      intro i j c d _ _ before
      have before : i + 1 < 1 ∨ i + 1 = 1 ∧ j < s.msgDecoded := before
      rw [shaped.idle idle] at before
      omega
    have went := elements_from_stepped ((interruptible_uint.moved p s.length hv).valid hv)
      (shaped.progress.begin idle there range).shaped (shaped'.progress.begin idle' there' range').shaped first
      Nat.one_ne_zero (fastDecodeUint b p s.length).pmap (fastDecodeUint b q t.length).pmap
    have buffer : (fastDecodeUint b q t.length).buffer = (fastDecodeUint b p s.length).buffer := step.buffer.symm
    rw [buffer]
    exact ⟨Decoded.InStep.trans step went.step, went.alike, went.seen⟩
  | short idle short =>
    rw [sequence_short hv idle short, sequence_short hv (h.decoded ▸ idle) (ret.symm.trans short)]
    exact ⟨⟨rfl, rfl, step.pmap⟩, fun _ => behind idle, fun done => by cases done⟩
  | past idle long past =>
    have past' : ¬((fastDecodeUint b q t.length).ret = .ok ∧ (fastDecodeUint b q t.length).field.stateEmpty = false ∧
        (fastDecodeUint b q t.length).field.value.toNat < sequenceElements) := by
      rintro ⟨ok', there', range'⟩
      have ok := ret.trans ok'
      obtain ⟨empty, value⟩ := number ok
      have there := empty.symm.trans there'
      refine past ⟨ok, there, ?_⟩
      rw [value there]
      exact range'
    rw [sequence_over idle long past, sequence_over (h.decoded ▸ idle) (fun short => long (ret.trans short)) past']
    have rets : lengthRet s (fastDecodeUint b p s.length) = lengthRet t (fastDecodeUint b q t.length) := by
      unfold lengthRet
      rw [← ret, h.left.presence, h.right.presence]
      by_cases ok : (fastDecodeUint b p s.length).ret = .ok
      · rw [if_neg (not_not_intro ok), if_neg (not_not_intro ok), (number ok).1]
      · rw [if_pos ok, if_pos ok]
    refine ⟨⟨rets, step.buffer, step.pmap⟩, fun _ => behind idle, fun done => ?_⟩
    have ends : (fastDecodeUint b p s.length).ret = .ok ∧ (fastDecodeUint b p s.length).field.stateEmpty = true := by
      have done : lengthRet s (fastDecodeUint b p s.length) = .ok := done
      unfold lengthRet at done
      split_ifs at done with failed empty
      · exact absurd done failed
      · exact ⟨Decidable.not_not.1 failed, empty⟩
    have empty' := (number ends.1).1.trans ends.2
    have lengths : (fastDecodeUint b p s.length).field.seen id = (fastDecodeUint b q t.length).field.seen id :=
      (agreed ends.1).seen
    simp only [FastField.seen, Sequence.count, ends.2, empty', if_true, lengths, List.take_zero, List.map_nil]

end Steps

end Libtrading.Fast
