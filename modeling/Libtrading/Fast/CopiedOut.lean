import Libtrading.Fast.Session
import Libtrading.Fast.Wire

/-!
# The elements an application sees

`fast_decode_sequence` decodes every element into `elements[0]`, which so carries the dictionary from one
element to the next, and copies the fields out of it one by one. The runs of the field decoders, over all the
calls it takes, are one success after the other for each field of each element, each starting from what the
one before it left. What they produce is copied to the fields of the element they are for, but for vectors:
of these nothing is.
-/

namespace Libtrading.Fast
set_option autoImplicit false
open Buffer

/-! ## Runs of the field decoders -/

/-- A run of a field decoder: for a field of an element, from a buffer, a map and a dictionary entry. -/
structure FieldRun where
  element : Nat
  index : Nat
  buffer : Buffer
  pmap : Pmap
  field : ElementField
  deriving DecidableEq, Repr

namespace FieldRun

def result (r : FieldRun) : Decoded ElementField := decodeElement r.buffer r.pmap r.field

def ok (r : FieldRun) : Bool := r.result.ret = .ok

end FieldRun

/-- The runs for the rest of an element. -/
def elementFieldRuns : Nat → Buffer → Sequence → List FieldRun
  | 0, _, _ => []
  | n + 1, b, s =>
    match s.head[s.msgDecoded]? with
    | none => []
    | some f =>
      let r := decodeElement b s.pmap f
      ⟨s.decoded, s.msgDecoded, b, s.pmap, f⟩ ::
        match r.ret with
        | .ok => elementFieldRuns n r.buffer (s.decodedField r)
        | _ => []

/-- The runs for the elements left. -/
def elementRuns : Nat → Buffer → Sequence → List FieldRun
  | 0, _, _ => []
  | n + 1, b, s =>
    if s.length.value.toNat < s.decoded then []
    else
      let r := decodeElementPmap b s
      if r.ret ≠ .ok then []
      else
        let here := r.seq.head.length - r.seq.msgDecoded
        elementFieldRuns here r.buffer r.seq ++
          let r := decodeElementFields here r.buffer r.seq
          if r.ret ≠ .ok then [] else elementRuns n r.buffer r.seq.nextElement

/-- The runs of a call of `fast_decode_sequence`. -/
def sequenceRuns (b : Buffer) (p : Pmap) (s : Sequence) : List FieldRun :=
  let (l, more) := decodeLength b p s
  if !more then [] else elementRuns sequenceElements l.buffer l.field

/-- A sequence is received, in one call or in several: the runs of all calls, and what the last one, which
returns 0, leaves. -/
inductive Reception : Sequence → List FieldRun → Sequence → Prop
  | done {s : Sequence} (b : Buffer) (p : Pmap) (h : (fastDecodeSequence b p s).ret = .ok) :
    Reception s (sequenceRuns b p s) (fastDecodeSequence b p s).field
  | again {s s' : Sequence} {runs : List FieldRun} (b : Buffer) (p : Pmap) (h : (fastDecodeSequence b p s).ret ≠ .ok)
    (rest : Reception (fastDecodeSequence b p s).field runs s') : Reception s (sequenceRuns b p s ++ runs) s'

/-- The number of elements received: none for `NULL`. -/
def Sequence.count (s : Sequence) : Nat := if s.length.stateEmpty then 0 else s.length.value.toNat

/-! ## Order -/

/-- The fields that were decoded, in the order of the runs. -/
def places (runs : List FieldRun) : List (Nat × Nat) := (runs.filter FieldRun.ok).map fun r => (r.element, r.index)

/-- The fields before field `k` of element `d`, of elements with `m` fields. -/
def placesBefore (m d k : Nat) : List (Nat × Nat) :=
  (List.range' 1 (d - 1)).flatMap (fun i => (List.range m).map (i, ·)) ++ (List.range k).map (d, ·)

theorem places_before_next (m d k : Nat) : placesBefore m d (k + 1) = placesBefore m d k ++ [(d, k)] := by
  rw [placesBefore, placesBefore, List.range_succ, List.map_append, List.append_assoc]
  rfl

theorem places_before_element {m d : Nat} (h : d ≠ 0) : placesBefore m (d + 1) 0 = placesBefore m d m := by
  obtain ⟨d, rfl⟩ : ∃ e, d = e + 1 := ⟨d - 1, by omega⟩
  rw [placesBefore, placesBefore, List.range_zero, List.map_nil, List.append_nil, Nat.add_sub_cancel, Nat.add_sub_cancel,
    List.range'_1_concat, List.flatMap_append, List.flatMap_cons, List.flatMap_nil, List.append_nil, Nat.add_comm 1 d]

theorem mem_places_before {m d k i j : Nat} :
    (i, j) ∈ placesBefore m d k ↔ (1 ≤ i ∧ i < d ∧ j < m) ∨ (i = d ∧ j < k) := by
  simp only [placesBefore, List.mem_append, List.mem_flatMap, List.mem_map, List.mem_range, List.mem_range'_1, Prod.mk.injEq]
  constructor
  · rintro (⟨i', range, j', lt, rfl, rfl⟩ | ⟨j', lt, rfl, rfl⟩)
    · exact .inl ⟨range.1, by omega, lt⟩
    · exact .inr ⟨rfl, lt⟩
  · rintro (⟨one, lt, small⟩ | ⟨rfl, lt⟩)
    · exact .inl ⟨i, ⟨one, by omega⟩, j, small, rfl, rfl⟩
    · exact .inr ⟨j, lt, rfl, rfl⟩

/-! ## Dictionary entries -/

/-- The entry that runs leave for a field. -/
def leftBy (fields : List ElementField) (runs : List FieldRun) (j : Nat) : Option ElementField :=
  ((runs.filter fun r => r.index = j).getLast?.map fun r => r.result.field).or fields[j]?

/-- Every run starts from the entry that the runs before it left. -/
inductive Carried (fields : List ElementField) : List FieldRun → Prop
  | nil : Carried fields []
  | snoc {runs : List FieldRun} {r : FieldRun} (before : Carried fields runs)
    (carried : leftBy fields runs r.index = some r.field) : Carried fields (runs ++ [r])

theorem left_by_snoc (fields : List ElementField) (runs : List FieldRun) (r : FieldRun) (j : Nat) :
    leftBy fields (runs ++ [r]) j = if r.index = j then some r.result.field else leftBy fields runs j := by
  unfold leftBy
  rw [List.filter_append]
  by_cases same : r.index = j
  · rw [if_pos same, List.filter_cons_of_pos (by simpa using same), List.filter_nil, List.getLast?_concat, Option.map_some,
      Option.some_or]
  · rw [if_neg same, List.filter_cons_of_neg (by simpa using same), List.filter_nil, List.append_nil]

theorem places_snoc (runs : List FieldRun) (r : FieldRun) :
    places (runs ++ [r]) = if r.ok then places runs ++ [(r.element, r.index)] else places runs := by
  unfold places
  rw [List.filter_append]
  by_cases ok : r.ok = true
  · rw [if_pos ok, List.filter_cons_of_pos ok, List.filter_nil, List.map_append]
    rfl
  · rw [if_neg ok, List.filter_cons_of_neg ok, List.filter_nil, List.append_nil]

/-! ## Types of fields -/

/-- `enum fast_type`. -/
inductive FieldType where
  | int
  | uint
  | string
  | vector
  | decimal
  | sequence
  deriving DecidableEq, Repr

namespace ElementField

def type : ElementField → FieldType
  | .int _ => .int
  | .uint _ => .uint
  | .string .. => .string
  | .vector _ => .vector
  | .decimal .. => .decimal
  | .nested _ => .sequence

/-- A field holds the value and the state of another one. -/
def Holds : ElementField → ElementField → Prop
  | .int c, .int f => c.value = f.value ∧ c.state = f.state
  | .uint c, .uint f => c.value = f.value ∧ c.state = f.state
  | .string _ c, .string _ f => cstr c.value = cstr f.value ∧ c.state = f.state
  | .vector c, .vector f => c.value = f.value ∧ c.state = f.state
  | .decimal _ c _ _, .decimal _ f _ _ => c.value = f.value ∧ c.state = f.state
  | _, _ => False

end ElementField

theorem decode_element_type (b : Buffer) (p : Pmap) (f : ElementField) : (decodeElement b p f).field.type = f.type := by
  cases f with
  | decimal individ f e m => cases individ <;> rfl
  | int f => rfl
  | uint f => rfl
  | string unicode f => rfl
  | vector f => rfl
  | nested name => rfl

theorem copy_out_type (cur f : ElementField) : (copyOut cur f).type = cur.type := by cases cur <;> cases f <;> rfl

/-- What is copied out is held, but for a vector and what is never decoded. -/
theorem copy_out_holds {cur f : ElementField} (same : cur.type = f.type) (vector : f.type ≠ .vector)
    (nested : f.type ≠ .sequence) : (copyOut cur f).Holds f := by
  cases f with
  | int f => cases cur <;> first | exact ⟨rfl, rfl⟩ | cases same
  | uint f => cases cur <;> first | exact ⟨rfl, rfl⟩ | cases same
  | string unicode f =>
    cases cur with
    | string u c => exact ⟨cstr_strcpy c.value f.value, rfl⟩
    | _ => cases same
  | decimal individ f e m => cases cur <;> first | exact ⟨rfl, rfl⟩ | cases same
  | vector f => exact absurd rfl vector
  | nested name => exact absurd rfl nested

theorem copy_out_vector {cur f : ElementField} {v : Field Bytes} (h : copyOut cur f = .vector v) : cur = .vector v := by
  cases cur <;> cases f <;> first | exact h | cases h

/-! ## Invariants -/

/-- A sequence of a template whose elements have fields of these types. The vectors of its elements are as
the template loaded them. -/
structure Shaped (types : List FieldType) (s : Sequence) : Prop where
  head : s.head.map ElementField.type = types
  size : s.elements.length = sequenceElements - 1
  elements : ∀ e ∈ s.elements, e.map ElementField.type = types
  vectors : ∀ e ∈ s.elements, ∀ v, .vector v ∈ e → v.state = .undefined
  range : s.decoded ≠ 0 → s.length.stateEmpty = false ∧ s.length.value.toNat < sequenceElements ∧
    s.decoded ≤ s.length.value.toNat + 1
  idle : s.decoded = 0 → s.msgDecoded = 0
  past : s.length.value.toNat < s.decoded → s.msgDecoded = 0
  cursor : s.msgDecoded ≤ types.length

/-- What runs come to: they follow each other, with the `earlier` ones they decoded the fields before the
cursors, and what they produced is in the elements, but for vectors. -/
structure Progress (types : List FieldType) (earlier : List (Nat × Nat)) (fields : List ElementField) (s : Sequence)
    (runs : List FieldRun) : Prop where
  shaped : Shaped types s
  carried : Carried fields runs
  left : ∀ j, leftBy fields runs j = s.head[j]?
  order : earlier ++ places runs = placesBefore types.length s.decoded s.msgDecoded
  held : ∀ r ∈ runs, r.ok = true → ∃ e f, s.elements[r.element - 1]? = some e ∧ e[r.index]? = some f ∧
    f.type = r.result.field.type ∧ (f.type ≠ .vector → f.Holds r.result.field)

theorem Shaped.progress {types : List FieldType} {s : Sequence} (h : Shaped types s) :
    Progress types (placesBefore types.length s.decoded s.msgDecoded) s.head s [] where
  shaped := h
  carried := .nil
  left _ := rfl
  order := List.append_nil _
  held _ hr := absurd hr List.not_mem_nil

section Steps
variable {types : List FieldType} {earlier : List (Nat × Nat)} {fields : List ElementField} {s : Sequence}
  {runs : List FieldRun}

/-- The run at the cursors. -/
def Sequence.runAt (s : Sequence) (b : Buffer) (f : ElementField) : FieldRun := ⟨s.decoded, s.msgDecoded, b, s.pmap, f⟩

theorem set_head_shaped (h : Shaped types s) {f g : ElementField} (at' : s.head[s.msgDecoded]? = some f)
    (same : g.type = f.type) : Shaped types (s.setHead g) where
  head := by
    rw [← h.head]
    refine List.ext_getElem? fun j => ?_
    simp only [Sequence.setHead, List.getElem?_map, List.getElem?_set]
    split
    · rename_i here
      subst here
      rw [at', if_pos (List.getElem?_eq_some_iff.1 at').1, Option.map_some, Option.map_some, same]
    · rfl
  size := h.size
  elements := h.elements
  vectors := h.vectors
  range := h.range
  idle := h.idle
  past := h.past
  cursor := h.cursor

theorem Shaped.withPmap (h : Shaped types s) (q : Pmap) : Shaped types { s with pmap := q } :=
  ⟨h.head, h.size, h.elements, h.vectors, h.range, h.idle, h.past, h.cursor⟩

theorem Progress.withPmap (h : Progress types earlier fields s runs) (q : Pmap) :
    Progress types earlier fields { s with pmap := q } runs :=
  ⟨h.shaped.withPmap q, h.carried, h.left, h.order, h.held⟩

/-- The run at the cursors goes on from the entry in `elements[0]`, and leaves its own. -/
theorem Progress.carry (h : Progress types earlier fields s runs) {b : Buffer} {f : ElementField}
    (at' : s.head[s.msgDecoded]? = some f) :
    Carried fields (runs ++ [s.runAt b f]) ∧
      ∀ j, leftBy fields (runs ++ [s.runAt b f]) j = (s.setHead (s.runAt b f).result.field).head[j]? := by
  refine ⟨h.carried.snoc ((h.left _).trans at'), fun j => ?_⟩
  rw [left_by_snoc, h.left, Sequence.setHead, List.getElem?_set]
  have inside := (List.getElem?_eq_some_iff.1 at').1
  by_cases here : s.msgDecoded = j
  · rw [if_pos (show (s.runAt b f).index = j from here), if_pos here, if_pos inside]
  · rw [if_neg (show ¬(s.runAt b f).index = j from here), if_neg here]

/-- A run that fails leaves the elements, and its entry. -/
theorem Progress.fails (h : Progress types earlier fields s runs) {b : Buffer} {f : ElementField}
    (at' : s.head[s.msgDecoded]? = some f) (failed : (s.runAt b f).ok = false) (q : Pmap) :
    Progress types earlier fields { s.setHead (s.runAt b f).result.field with pmap := q } (runs ++ [s.runAt b f]) where
  shaped := (set_head_shaped h.shaped at' (decode_element_type ..)).withPmap q
  carried := (h.carry at').1
  left := (h.carry at').2
  order := by
    rw [places_snoc, if_neg (by rw [failed]; decide)]
    exact h.order
  held r hr ok := by
    rcases List.mem_append.1 hr with hr | hr
    · exact h.held r hr ok
    · rw [List.mem_singleton.1 hr, failed] at ok
      cases ok

theorem set_element_get (s : Sequence) (g : ElementField) (i : Nat) :
    (s.setElement g).elements[i]? =
      (s.elements[i]?).map fun e => if s.decoded - 1 = i then e.modify s.msgDecoded (copyOut · g) else e := by
  rw [Sequence.setElement, List.getElem?_modify]
  rfl

theorem modify_types (e : List ElementField) (k : Nat) (g : ElementField) :
    (e.modify k (copyOut · g)).map ElementField.type = e.map ElementField.type := by
  refine List.ext_getElem? fun j => ?_
  rw [List.getElem?_map, List.getElem?_map, List.getElem?_modify]
  cases e[j]? with
  | none => rfl
  | some f =>
    simp only [Option.map_some, Option.map_eq_map]
    split
    · rw [copy_out_type]
    · rfl

theorem modify_vectors {e : List ElementField} {k : Nat} {g : ElementField} {v : Field Bytes}
    (h : .vector v ∈ e.modify k (copyOut · g)) : .vector v ∈ e := by
  obtain ⟨j, at'⟩ := List.mem_iff_getElem?.1 h
  rw [List.getElem?_modify] at at'
  obtain ⟨f, old, same⟩ := Option.map_eq_some_iff.1 at'
  split at same
  · exact List.mem_of_getElem? (copy_out_vector same ▸ old)
  · exact List.mem_of_getElem? (same ▸ old)

theorem set_element_shaped (h : Shaped types s) (g : ElementField) : Shaped types (s.setElement g) where
  head := h.head
  size := by
    rw [← h.size]
    exact List.length_modify ..
  elements e he := by
    obtain ⟨i, at'⟩ := List.mem_iff_getElem?.1 he
    rw [set_element_get] at at'
    obtain ⟨e', old, same⟩ := Option.map_eq_some_iff.1 at'
    have types' := h.elements e' (List.mem_of_getElem? old)
    split at same
    · rw [← same, modify_types, types']
    · rw [← same, types']
  vectors e he v hv := by
    obtain ⟨i, at'⟩ := List.mem_iff_getElem?.1 he
    rw [set_element_get] at at'
    obtain ⟨e', old, same⟩ := Option.map_eq_some_iff.1 at'
    refine h.vectors e' (List.mem_of_getElem? old) v ?_
    split at same
    · exact modify_vectors (same ▸ hv)
    · exact same ▸ hv
  range := h.range
  idle := h.idle
  past := h.past
  cursor := h.cursor

/-- A successful run was for one of the fields decoded before the cursors. -/
theorem Progress.place (h : Progress types earlier fields s runs) {r : FieldRun} (hr : r ∈ runs) (ok : r.ok = true) :
    (1 ≤ r.element ∧ r.element < s.decoded ∧ r.index < types.length) ∨
      (r.element = s.decoded ∧ r.index < s.msgDecoded) := by
  rw [← mem_places_before, ← h.order]
  exact List.mem_append_right _ (List.mem_map.2 ⟨r, List.mem_filter.2 ⟨hr, ok⟩, rfl⟩)

theorem ok_not_nested {b : Buffer} {p : Pmap} {f : ElementField} (ok : (decodeElement b p f).ret = .ok) :
    f.type ≠ .sequence := by
  cases f with
  | nested name => cases ok
  | _ => exact fun h => by cases h

/-- What is copied out is in the element, at its place. -/
theorem held_at_cursors (h : Shaped types s) {b : Buffer} {f : ElementField} (at' : s.head[s.msgDecoded]? = some f)
    (ok : (s.runAt b f).ok = true) (begun : s.decoded ≠ 0) (there : s.decoded ≤ s.length.value.toNat) :
    ∃ e g, (s.setElement (s.runAt b f).result.field).elements[s.decoded - 1]? = some e ∧ e[s.msgDecoded]? = some g ∧
      g.type = (s.runAt b f).result.field.type ∧ (g.type ≠ .vector → g.Holds (s.runAt b f).result.field) := by
  have row : s.decoded - 1 < s.elements.length := by
    have := (h.range begun).2.1
    rw [h.size]
    omega
  have old := List.getElem?_eq_getElem row
  have types' := h.elements _ (List.getElem_mem row)
  have produced : (s.runAt b f).result.field.type = f.type := decode_element_type ..
  have column : (s.elements[s.decoded - 1].map ElementField.type)[s.msgDecoded]? = some f.type := by
    rw [types', ← h.head, List.getElem?_map, at']
    rfl
  rw [List.getElem?_map] at column
  obtain ⟨cur, inside, same⟩ := Option.map_eq_some_iff.1 column
  have copied : (copyOut cur (s.runAt b f).result.field).type = (s.runAt b f).result.field.type := by
    rw [copy_out_type, same, produced]
  refine ⟨s.elements[s.decoded - 1].modify s.msgDecoded (copyOut · (s.runAt b f).result.field),
    copyOut cur (s.runAt b f).result.field, ?_, ?_, copied, fun vector => ?_⟩
  · rw [set_element_get, old, Option.map_some, if_pos rfl]
  · rw [List.getElem?_modify, inside]
    simp only [Option.map_eq_map, Option.map_some, if_true]
  · refine copy_out_holds (same.trans produced.symm) (copied ▸ vector) ?_
    rw [produced]
    exact ok_not_nested (of_decide_eq_true ok)

/-- A field that was decoded is copied to the element it is for. -/
theorem Progress.succeeds (h : Progress types earlier fields s runs) {b : Buffer} {f : ElementField}
    (at' : s.head[s.msgDecoded]? = some f) (ok : (s.runAt b f).ok = true) (begun : s.decoded ≠ 0)
    (there : s.decoded ≤ s.length.value.toNat) :
    Progress types earlier fields (s.decodedField (s.runAt b f).result) (runs ++ [s.runAt b f]) where
  shaped := by
    have shaped := (set_element_shaped (set_head_shaped h.shaped at' (decode_element_type b s.pmap f))
      (s.runAt b f).result.field).withPmap (s.runAt b f).result.pmap
    have index : s.msgDecoded < types.length := by
      rw [← h.shaped.head, List.length_map]
      exact (List.getElem?_eq_some_iff.1 at').1
    exact { shaped with
      idle := fun zero => absurd zero begun
      past := fun past => absurd past (Nat.not_lt.2 there)
      cursor := index }
  carried := (h.carry at').1
  left := (h.carry at').2
  order := by
    rw [places_snoc, if_pos ok, ← List.append_assoc, h.order]
    exact (places_before_next ..).symm
  held r hr ok' := by
    rcases List.mem_append.1 hr with hr | hr
    · obtain ⟨e, g, row, column, type, holds⟩ := h.held r hr ok'
      have place := h.place hr ok'
      have moved : (s.decodedField (s.runAt b f).result).elements[r.element - 1]? =
          some (if s.decoded - 1 = r.element - 1 then e.modify s.msgDecoded (copyOut · (s.runAt b f).result.field)
            else e) := by
        have get := set_element_get (s.setHead (s.runAt b f).result.field) (s.runAt b f).result.field (r.element - 1)
        rw [show (s.setHead (s.runAt b f).result.field).elements = s.elements from rfl, row, Option.map_some] at get
        exact get
      refine ⟨_, g, moved, ?_, type, holds⟩
      split
      · rw [List.getElem?_modify, column]
        simp only [Option.map_eq_map, Option.map_some]
        rw [if_neg (by omega)]
      · exact column
    · rw [List.mem_singleton.1 hr]
      exact held_at_cursors h.shaped at' ok begun there

/-- The cursors move to the next element. -/
theorem Progress.next (h : Progress types earlier fields s runs) (begun : s.decoded ≠ 0)
    (there : s.decoded ≤ s.length.value.toNat) (all : types.length ≤ s.msgDecoded) :
    Progress types earlier fields s.nextElement runs where
  shaped := by
    have range := h.shaped.range begun
    exact { h.shaped.withPmap { s.pmap with isValid := false } with
      range := fun _ => ⟨range.1, range.2.1, Nat.succ_le_succ there⟩
      idle := fun _ => rfl
      past := fun _ => rfl
      cursor := Nat.zero_le _ }
  carried := h.carried
  left := h.left
  order := by
    have last : s.msgDecoded = types.length := Nat.le_antisymm h.shaped.cursor all
    rw [h.order, last]
    exact (places_before_element begun).symm
  held := h.held

/-- The elements begin behind their length. -/
theorem Progress.begin (h : Progress types earlier fields s runs) (idle : s.decoded = 0) {f : Field U64}
    (there : f.stateEmpty = false) (range : f.value.toNat < sequenceElements) :
    Progress types earlier fields (s.withLength f) runs where
  shaped := { h.shaped with
    range := fun _ => ⟨there, range, Nat.succ_le_succ (Nat.zero_le _)⟩
    idle := fun zero => by cases zero
    past := fun _ => h.shaped.idle idle }
  carried := h.carried
  left := h.left
  order := by
    have order := h.order
    rw [idle, h.shaped.idle idle] at order
    rw [order]
    show placesBefore types.length 0 0 = placesBefore types.length 1 s.msgDecoded
    rw [h.shaped.idle idle]
    rfl
  held := h.held

theorem Progress.withLengthField (h : Progress types earlier fields s runs) (idle : s.decoded = 0) (f : Field U64) :
    Progress types earlier fields { s with length := f } runs where
  shaped := { h.shaped with
    range := fun begun => absurd idle begun
    past := fun _ => h.shaped.idle idle }
  carried := h.carried
  left := h.left
  order := h.order
  held := h.held

end Steps

/-- A sequence has been received: what the runs come to, and the cursor is back where the next one begins. -/
structure Complete (types : List FieldType) (earlier : List (Nat × Nat)) (fields : List ElementField) (s : Sequence)
    (runs : List FieldRun) : Prop where
  shaped : Shaped types s
  idle : s.decoded = 0
  carried : Carried fields runs
  order : earlier ++ places runs = placesBefore types.length (s.count + 1) 0
  held : ∀ r ∈ runs, r.ok = true → ∃ e f, s.elements[r.element - 1]? = some e ∧ e[r.index]? = some f ∧
    f.type = r.result.field.type ∧ (f.type ≠ .vector → f.Holds r.result.field)

/-! ## Calls -/

section Loops
variable {types : List FieldType} {earlier : List (Nat × Nat)} {fields : List ElementField}

/-- The loop over the fields of an element. -/
theorem fields_progress (n : Nat) (b : Buffer) {s : Sequence} {runs : List FieldRun}
    (h : Progress types earlier fields s runs) (begun : s.decoded ≠ 0) (there : s.decoded ≤ s.length.value.toNat) :
    Progress types earlier fields (decodeElementFields n b s).seq (runs ++ elementFieldRuns n b s) ∧
      (decodeElementFields n b s).seq.decoded = s.decoded ∧ (decodeElementFields n b s).seq.length = s.length ∧
      ((decodeElementFields n b s).ret = .ok → s.head.length - s.msgDecoded ≤ n →
        types.length ≤ (decodeElementFields n b s).seq.msgDecoded) := by
  induction n generalizing b s runs with
  | zero =>
    rw [elementFieldRuns, List.append_nil]
    refine ⟨h, rfl, rfl, fun _ enough => ?_⟩
    rw [← h.shaped.head, List.length_map]
    simp only [decodeElementFields]
    omega
  | succ n ih =>
    cases at' : s.head[s.msgDecoded]? with
    | none =>
      rw [element_fields_none at', elementFieldRuns, at', List.append_nil]
      refine ⟨h, rfl, rfl, fun _ _ => ?_⟩
      rw [← h.shaped.head, List.length_map]
      exact List.getElem?_eq_none_iff.1 at'
    | some f =>
      by_cases ok : (decodeElement b s.pmap f).ret = .ok
      · have good : (s.runAt b f).ok = true := decide_eq_true ok
        have next := ih (decodeElement b s.pmap f).buffer (h.succeeds at' good begun there) begun there
        have runs_eq : runs ++ elementFieldRuns (n + 1) b s = runs ++ [s.runAt b f] ++
            elementFieldRuns n (decodeElement b s.pmap f).buffer (s.decodedField (decodeElement b s.pmap f)) := by
          rw [elementFieldRuns, at', List.append_assoc]
          simp only [ok]
          rfl
        rw [element_fields_ok at' ok, runs_eq]
        obtain ⟨progress, decoded, length, all⟩ := next
        refine ⟨progress, decoded, length, fun done enough => all done ?_⟩
        have size : (s.decodedField (s.runAt b f).result).head.length = s.head.length := (decoded_field_keeps s _).fields
        have cursor : (s.decodedField (s.runAt b f).result).msgDecoded = s.msgDecoded + 1 := rfl
        omega
      · have bad : (s.runAt b f).ok = false := decide_eq_false ok
        have runs_eq : runs ++ elementFieldRuns (n + 1) b s = runs ++ [s.runAt b f] := by
          rw [elementFieldRuns, at']
          congr 1
          simp only
          cases ret : (decodeElement b s.pmap f).ret with
          | ok => exact absurd ret ok
          | _ => rfl
        rw [runs_eq]
        cases ret : (decodeElement b s.pmap f).ret with
        | ok => exact absurd ret ok
        | msgPartial =>
          simp only [decodeElementFields, at', ret]
          exact ⟨h.fails at' bad s.pmap, rfl, rfl, fun done => by cases done⟩
        | garbled =>
          simp only [decodeElementFields, at', ret]
          exact ⟨h.fails at' bad _, rfl, rfl, fun done => by cases done⟩
        | fault =>
          simp only [decodeElementFields, at', ret]
          exact ⟨h.fails at' bad _, rfl, rfl, fun done => by cases done⟩

/-- The map of an element is all that is read in front of its fields. -/
theorem element_pmap_only (b : Buffer) (s : Sequence) :
    ∃ q, (decodeElementPmap b s).seq = { s with pmap := q } := by
  unfold decodeElementPmap
  split
  · split <;> exact ⟨_, rfl⟩
  · exact ⟨s.pmap, rfl⟩

/-- The loop over the elements. -/
theorem elements_progress (n : Nat) (b : Buffer) {s : Sequence} {runs : List FieldRun}
    (h : Progress types earlier fields s runs) (begun : s.decoded ≠ 0) :
    Progress types earlier fields (decodeElements n b s).seq (runs ++ elementRuns n b s) ∧
      (decodeElements n b s).seq.decoded ≠ 0 ∧ (decodeElements n b s).seq.length = s.length ∧
      ((decodeElements n b s).ret = .ok → s.left ≤ n → s.length.value.toNat < (decodeElements n b s).seq.decoded) := by
  induction n generalizing b s runs with
  | zero =>
    rw [elementRuns, List.append_nil]
    refine ⟨h, begun, rfl, fun _ enough => ?_⟩
    simp only [decodeElements, Sequence.left] at enough ⊢
    omega
  | succ n ih =>
    rw [decodeElements, elementRuns]
    by_cases past : s.length.value.toNat < s.decoded
    · rw [if_pos past, if_pos past, List.append_nil]
      exact ⟨h, begun, rfl, fun _ _ => past⟩
    · rw [if_neg past, if_neg past]
      obtain ⟨q, pmap⟩ := element_pmap_only b s
      have h' : Progress types earlier fields (decodeElementPmap b s).seq runs := pmap ▸ h.withPmap q
      have decoded : (decodeElementPmap b s).seq.decoded = s.decoded := by rw [pmap]
      have length : (decodeElementPmap b s).seq.length = s.length := by rw [pmap]
      simp only
      generalize decodeElementPmap b s = m at h' decoded length
      by_cases read : m.ret = .ok
      · rw [if_neg (not_not_intro read), if_neg (not_not_intro read)]
        obtain ⟨progress, decoded', length', all⟩ := fields_progress (m.seq.head.length - m.seq.msgDecoded) m.buffer h'
          (by rw [decoded]; exact begun) (by rw [decoded, length]; omega)
        generalize hr : decodeElementFields (m.seq.head.length - m.seq.msgDecoded) m.buffer m.seq = r
          at progress decoded' length' all
        by_cases ok : r.ret = .ok
        · rw [if_neg (not_not_intro ok), if_neg (not_not_intro ok), ← List.append_assoc]
          have next := progress.next (by rw [decoded', decoded]; exact begun)
            (by rw [decoded', length', decoded, length]; omega) (all ok (Nat.le_refl _))
          obtain ⟨rest, decoded'', length'', past'⟩ := ih r.buffer next (by exact Nat.succ_ne_zero _)
          have same : r.seq.nextElement.length = s.length := length'.trans length
          refine ⟨rest, decoded'', length''.trans same, fun done enough => ?_⟩
          rw [← same]
          refine past' done ?_
          have step : r.seq.nextElement.decoded = s.decoded + 1 := by
            show r.seq.decoded + 1 = s.decoded + 1
            rw [decoded', decoded]
          simp only [Sequence.left] at enough ⊢
          rw [same, step]
          omega
        · rw [if_pos ok, if_pos ok, List.append_nil]
          exact ⟨progress, by rw [decoded', decoded]; exact begun, length'.trans length, fun done => absurd done ok⟩
      · rw [if_pos read, if_pos read, List.append_nil]
        exact ⟨h', by rw [decoded]; exact begun, length, fun done => absurd done read⟩

/-- The length field moves the cursor to the first element, or leaves it. -/
theorem length_progress (b : Buffer) (p : Pmap) {s : Sequence} {runs : List FieldRun}
    (h : Progress types earlier fields s runs) :
    Progress types earlier fields (decodeLength b p s).1.field runs ∧
      ((decodeLength b p s).2 = true → (decodeLength b p s).1.field.decoded ≠ 0) ∧
      ((decodeLength b p s).2 = false → (decodeLength b p s).1.field.decoded = 0 ∧
        ((decodeLength b p s).1.ret = .ok → (decodeLength b p s).1.field.length.stateEmpty = true)) := by
  unfold decodeLength
  by_cases idle : s.decoded = 0
  · rw [if_pos idle]
    have kept := h.withLengthField idle (fastDecodeUint b p s.length).field
    simp only
    cases ret : (fastDecodeUint b p s.length).ret with
    | ok =>
      simp only
      by_cases empty : (fastDecodeUint b p s.length).field.stateEmpty = true
      · rw [if_pos empty]
        exact ⟨kept, (fun more => by cases more), fun _ => ⟨idle, fun _ => empty⟩⟩
      · rw [if_neg empty]
        by_cases long : sequenceElements ≤ (fastDecodeUint b p s.length).field.value.toNat
        · rw [if_pos long]
          exact ⟨kept, (fun more => by cases more), fun _ => ⟨idle, fun done => by cases done⟩⟩
        · rw [if_neg long]
          refine ⟨?_, fun _ => Nat.one_ne_zero, fun more => by cases more⟩
          exact h.begin idle (Bool.not_eq_true _ ▸ empty) (Nat.lt_of_not_le long)
    | msgPartial => exact ⟨kept, (fun more => by cases more), fun _ => ⟨idle, fun done => by cases done⟩⟩
    | garbled => exact ⟨kept, (fun more => by cases more), fun _ => ⟨idle, fun done => by cases done⟩⟩
    | fault => exact ⟨kept, (fun more => by cases more), fun _ => ⟨idle, fun done => by cases done⟩⟩
  · rw [if_neg idle]
    exact ⟨h, fun _ => idle, fun more => by cases more⟩

/-- Behind the last element nothing is left to do but to put the cursor back. -/
theorem Progress.complete {s : Sequence} {runs : List FieldRun} (h : Progress types earlier fields s runs)
    (begun : s.decoded ≠ 0) (past : s.length.value.toNat < s.decoded) :
    Complete types earlier fields { s with decoded := 0 } runs where
  shaped := { h.shaped with
    range := fun zero => absurd rfl zero
    idle := fun _ => h.shaped.past past
    past := fun past => absurd past (Nat.not_lt_zero _) }
  idle := rfl
  carried := h.carried
  order := by
    have range := h.shaped.range begun
    have count : ({ s with decoded := 0 } : Sequence).count = s.length.value.toNat := by
      rw [Sequence.count, if_neg (by rw [range.1]; decide)]
    rw [h.order, count, h.shaped.past past, Nat.le_antisymm range.2.2 past]
  held := h.held

/-- **A call of `fast_decode_sequence`.** What it returns 0 on is a sequence received, and what it does not
leaves the next call to go on. -/
theorem sequence_progress (b : Buffer) (p : Pmap) {s : Sequence} {runs : List FieldRun}
    (h : Progress types earlier fields s runs) :
    ((fastDecodeSequence b p s).ret ≠ .ok →
        Progress types earlier fields (fastDecodeSequence b p s).field (runs ++ sequenceRuns b p s)) ∧
      ((fastDecodeSequence b p s).ret = .ok →
        Complete types earlier fields (fastDecodeSequence b p s).field (runs ++ sequenceRuns b p s)) := by
  unfold fastDecodeSequence sequenceRuns
  have begins := length_progress b p h
  generalize decodeLength b p s = length at begins ⊢
  obtain ⟨l, go⟩ := length
  obtain ⟨progress, more, ends⟩ := begins
  simp only at progress more ends ⊢
  cases go with
  | false =>
    obtain ⟨idle, null⟩ := ends rfl
    simp only [Bool.not_false, if_true, List.append_nil]
    refine ⟨fun _ => progress, fun ok => ⟨progress.shaped, idle, progress.carried, ?_, progress.held⟩⟩
    rw [progress.order, idle, progress.shaped.idle idle, Sequence.count, if_pos (null ok)]
    rfl
  | true =>
    simp only [Bool.not_true, Bool.false_eq_true, if_false]
    obtain ⟨loop, begun, length, all⟩ := elements_progress sequenceElements l.buffer progress (more rfl)
    have enough : l.field.left ≤ sequenceElements := by
      have range := progress.shaped.range (more rfl)
      have := more rfl
      simp only [Sequence.left]
      omega
    by_cases ok : (decodeElements sequenceElements l.buffer l.field).ret = .ok
    · rw [if_neg (not_not_intro ok)]
      refine ⟨fun failed => absurd rfl failed, fun _ => ?_⟩
      refine loop.complete begun ?_
      rw [length]
      exact all ok enough
    · rw [if_pos ok]
      exact ⟨fun _ => loop, fun done => absurd done ok⟩

/-- The calls it takes to receive a sequence. -/
theorem reception_complete {s s' : Sequence} {runs later : List FieldRun} (h : Progress types earlier fields s runs)
    (received : Reception s later s') : Complete types earlier fields s' (runs ++ later) := by
  induction received generalizing runs with
  | done b p ok => exact (sequence_progress b p h).2 ok
  | again b p failed rest ih =>
    rw [← List.append_assoc]
    exact ih ((sequence_progress b p h).1 failed)

end Loops

/-! ## Vectors -/

theorem terminate_vector_state (f : Field Bytes) (len : U64) (value : Bytes) (b : Buffer) :
    (terminateVector f len value b).field.state = f.state := by
  unfold terminateVector
  split <;> rfl

/-- A length-prefixed value that was read is there, or is `NULL`. -/
theorem read_vector_state {b : Buffer} {f : Field Bytes} (ok : (readVector b f).ret = .ok) :
    (readVector b f).field.state ≠ .undefined := by
  unfold readVector readNullable at ok ⊢
  cases number : parseUint b with
  | fail ret b₁ =>
    rw [number] at ok
    rcases parse_groups_fails number with rfl | rfl <;> cases ok
  | done v b₁ =>
    rw [number] at ok
    simp only at ok ⊢
    split at ok
    · rename_i null
      rw [if_pos null]
      intro undefined
      cases undefined
    · rename_i some
      rw [if_neg some]
      unfold readCounted at ok ⊢
      simp only at ok ⊢
      split at ok
      · rename_i failed
        rcases parse_bytes_fails failed with rfl | rfl <;> cases ok
      · rw [terminate_vector_state]
        intro undefined
        cases undefined

theorem initial_value_state {α : Type} {K : Kind α} {f : Field α} (ok : (initialValue K f).1 = .ok) :
    (initialValue K f).2.state ≠ .undefined := by
  unfold initialValue at ok ⊢
  split at ok
  · rename_i reset
    rw [if_pos reset]
    exact fun undefined => by cases undefined
  · rename_i none
    rw [if_neg none]
    split at ok
    · cases ok
    · rename_i optional
      rw [if_neg optional]
      exact fun undefined => by cases undefined

theorem previous_value_state {α : Type} {K : Kind α} {keep : α → α} {f : Field α}
    (ok : (previousValue K keep f).1 = .ok) : (previousValue K keep f).2.state ≠ .undefined := by
  unfold previousValue at ok ⊢
  cases state : f.state with
  | undefined =>
    rw [state] at ok
    exact initial_value_state ok
  | assigned =>
    exact fun undefined => by cases undefined
  | empty =>
    simp only [emptyValue]
    split <;> exact fun undefined => by rw [state] at undefined; cases undefined

/-- **What a field decoder produces.** A field that was decoded has a value or is `NULL`, where the type's
reader sees to it. -/
theorem decode_field_state {α : Type} {K : Kind α}
    (read : ∀ b f, (K.read b f).ret = .ok → (K.read b f).field.state ≠ .undefined) (noDelta : K.delta = none)
    {b : Buffer} {p : Pmap} {f : Field α} (ok : (decodeField K b p f).ret = .ok) :
    (decodeField K b p f).field.state ≠ .undefined := by
  have present : ∀ absent : Field α → Ret × Field α, (∀ f, (absent f).1 = .ok → (absent f).2.state ≠ .undefined) →
      (decodePresent K absent b p f).ret = .ok → (decodePresent K absent b p f).field.state ≠ .undefined := by
    intro absent here ok
    unfold decodePresent at ok ⊢
    cases set : p.next.pmapIsSet with
    | true =>
      simp only [set, if_true] at ok ⊢
      exact read b f ok
    | false =>
      simp only [set, Bool.false_eq_true, if_false] at ok ⊢
      exact here f ok
  unfold decodeField at ok ⊢
  cases op : f.op with
  | none =>
    simp only [op] at ok ⊢
    exact read b f ok
  | copy =>
    simp only [op] at ok ⊢
    exact present _ (fun _ => previous_value_state) ok
  | incr =>
    simp only [op] at ok ⊢
    cases incr : K.incr with
    | none =>
      rw [incr] at ok
      cases ok
    | some next =>
      simp only [incr] at ok ⊢
      exact present _ (fun _ => previous_value_state) ok
  | delta =>
    simp only [op, noDelta] at ok
    cases ok
  | default =>
    simp only [op] at ok ⊢
    exact present _ (fun _ => initial_value_state) ok
  | constant =>
    simp only [decodeConstant]
    split
    · exact fun undefined => by cases undefined
    · split <;> exact fun undefined => by cases undefined

/-! ## Sequences of a template -/

/-- The sequences of a template, between the messages of a session: freshly loaded, behind any call, and put
back by a reset. -/
inductive SequenceReached (n : SequenceNode) : Sequence → Prop
  | loaded : SequenceReached n (sequenceInit n)
  | called {s : Sequence} (b : Buffer) (p : Pmap) (h : SequenceReached n s) :
    SequenceReached n (fastDecodeSequence b p s).field
  | reset {s : Sequence} (h : SequenceReached n s) :
    SequenceReached n { s with head := s.head.map ElementField.fastReset }

/-- The types of an element's fields. -/
def SequenceNode.types (n : SequenceNode) : List FieldType := n.fields.map fun f => (elementInit f).type

theorem init_undefined {ns : List ElementNode} {v : Field Bytes} (h : .vector v ∈ ns.map elementInit) :
    v.state = .undefined := by
  obtain ⟨node, _, made⟩ := List.mem_map.1 h
  cases node with
  | vector node =>
    obtain rfl := ElementField.vector.inj made
    rfl
  | _ => cases made

theorem sequence_init_shaped (n : SequenceNode) : Shaped n.types (sequenceInit n) where
  head := List.map_map ..
  size := List.length_replicate
  elements e he := by
    rw [(List.mem_replicate.1 he).2]
    exact List.map_map ..
  vectors e he v hv := by
    rw [(List.mem_replicate.1 he).2] at hv
    exact init_undefined hv
  range begun := absurd rfl begun
  idle _ := rfl
  past past := absurd past (Nat.not_lt_zero _)
  cursor := Nat.zero_le _

theorem fast_reset_type (f : ElementField) : f.fastReset.type = f.type := by cases f <;> rfl

theorem Shaped.after {types : List FieldType} {s : Sequence} (h : Shaped types s) (b : Buffer) (p : Pmap) :
    Shaped types (fastDecodeSequence b p s).field := by
  obtain ⟨failed, ok⟩ := sequence_progress b p h.progress
  by_cases done : (fastDecodeSequence b p s).ret = .ok
  · exact (ok done).shaped
  · exact (failed done).shaped

theorem Shaped.reset {types : List FieldType} {s : Sequence} (h : Shaped types s) :
    Shaped types { s with head := s.head.map ElementField.fastReset } := by
  have head : (s.head.map ElementField.fastReset).map ElementField.type = types := by
    rw [← h.head, List.map_map]
    exact List.map_congr_left fun f _ => fast_reset_type f
  exact { h with head := head }

theorem SequenceReached.shaped {n : SequenceNode} {s : Sequence} (h : SequenceReached n s) : Shaped n.types s := by
  induction h with
  | loaded => exact sequence_init_shaped n
  | called b p _ ih => exact ih.after b p
  | reset _ ih => exact ih.reset

/-- The fields of the elements hold what the field decoders produced for them. -/
def CopiedOut (s : Sequence) (runs : List FieldRun) : Prop :=
  ∀ r ∈ runs, r.ok = true →
    ∃ e f, s.elements[r.element - 1]? = some e ∧ e[r.index]? = some f ∧ f.Holds r.result.field

section Received
variable {n : SequenceNode} {earlier : List (Nat × Nat)} {fields : List ElementField} {s : Sequence}
  {runs : List FieldRun}

/-- A field of an element has the type that the template gives it. -/
theorem Shaped.at (h : Shaped n.types s) {i j : Nat} {e : List ElementField} {f : ElementField}
    (row : s.elements[i]? = some e) (column : e[j]? = some f) : ∃ node ∈ n.fields, f.type = (elementInit node).type := by
  have types := h.elements e (List.mem_of_getElem? row)
  have there : f.type ∈ n.types := types ▸ List.mem_map.2 ⟨f, List.mem_of_getElem? column, rfl⟩
  obtain ⟨node, inside, same⟩ := List.mem_map.1 there
  exact ⟨node, inside, same.symm⟩

theorem vector_init {node : ElementNode} (h : (elementInit node).type = .vector) : ∃ v, node = .vector v := by
  cases node with
  | vector v => exact ⟨v, rfl⟩
  | _ => cases h

theorem Complete.copied (h : Complete n.types earlier fields s runs) (none : ∀ v, ElementNode.vector v ∉ n.fields) :
    CopiedOut s runs := by
  intro r hr ok
  obtain ⟨e, f, row, column, -, holds⟩ := h.held r hr ok
  refine ⟨e, f, row, column, holds fun vector => ?_⟩
  obtain ⟨node, inside, same⟩ := h.shaped.at row column
  obtain ⟨v, rfl⟩ := vector_init (same ▸ vector)
  exact none v inside

/-- A vector that was decoded is not in its element, where the vectors are as the template loaded them. -/
theorem Complete.vector_left (h : Complete n.types earlier fields s runs) {r : FieldRun} (hr : r ∈ runs)
    (ok : r.ok = true) (vector : r.field.type = .vector) : ¬CopiedOut s runs := by
  intro copied
  obtain ⟨e, f, row, column, holds⟩ := copied r hr ok
  obtain ⟨element, index, b, q, g⟩ := r
  cases g with
  | vector g =>
    have produced : (fastDecodeVector b q g).field.state ≠ .undefined :=
      decode_field_state (fun _ _ => read_vector_state) rfl (of_decide_eq_true ok)
    cases f with
    | vector v =>
      have untouched := h.shaped.vectors e (List.mem_of_getElem? row) v (List.mem_of_getElem? column)
      exact produced (holds.2.symm.trans untouched)
    | _ => exact holds
  | _ => cases vector

/-- Every field of every element was decoded. -/
theorem Complete.run_at (h : Complete n.types [] fields s runs) {i j : Nat} (element : 1 ≤ i ∧ i ≤ s.count)
    (field : j < n.fields.length) : ∃ r ∈ runs, r.ok = true ∧ r.element = i ∧ r.index = j := by
  have place : (i, j) ∈ places runs := by
    rw [← List.nil_append (places runs), h.order, mem_places_before, SequenceNode.types, List.length_map]
    exact .inl ⟨element.1, Nat.lt_succ_of_le element.2, field⟩
  obtain ⟨r, hr, at'⟩ := List.mem_map.1 place
  obtain ⟨inside, ok⟩ := List.mem_filter.1 hr
  exact ⟨r, inside, ok, congrArg Prod.fst at', congrArg Prod.snd at'⟩

theorem Complete.none_decoded (h : Complete n.types [] fields s runs) (none : s.count = 0) : CopiedOut s runs := by
  intro r hr ok
  have place : (r.element, r.index) ∈ places runs := List.mem_map.2 ⟨r, List.mem_filter.2 ⟨hr, ok⟩, rfl⟩
  rw [← List.nil_append (places runs), h.order, none, mem_places_before] at place
  omega

end Received

/-- **What reaches the application.** A sequence of `count` elements is received, from where none was begun, in
one call or in several: the fields of the elements are decoded one after the other, each once and each from what the
one before left in the dictionary. The elements hold what was decoded if and only if there are none, or no field of
an element is a vector. -/
theorem Reception.copied_out_iff {n : SequenceNode} {s s' : Sequence} {runs : List FieldRun} {count : Nat}
    (reached : SequenceReached n s) (idle : s.decoded = 0) (received : Reception s runs s') (length : s'.count = count) :
    places runs = placesBefore n.fields.length (count + 1) 0 ∧ Carried s.head runs ∧
      (CopiedOut s' runs ↔ count = 0 ∨ ∀ v, ElementNode.vector v ∉ n.fields) := by
  have shaped := reached.shaped
  have start : Progress n.types [] s.head s [] := by
    have progress := shaped.progress
    rw [idle, shaped.idle idle] at progress
    exact progress
  have complete : Complete n.types [] s.head s' runs := reception_complete start received
  subst length
  refine ⟨?_, complete.carried, fun copied => ?_, fun condition => ?_⟩
  · rw [← List.nil_append (places runs), complete.order, SequenceNode.types, List.length_map]
  · by_contra fails
    rw [not_or, not_forall] at fails
    obtain ⟨more, v, vector⟩ := fails
    rw [not_not] at vector
    obtain ⟨j, at'⟩ := List.mem_iff_getElem?.1 vector
    obtain ⟨r, hr, ok, element, index⟩ := complete.run_at ⟨Nat.le_refl 1, Nat.pos_of_ne_zero more⟩
      (List.getElem?_eq_some_iff.1 at').1
    obtain ⟨e, f, row, column, same, -⟩ := complete.held r hr ok
    have types : (e.map ElementField.type)[j]? = some .vector := by
      rw [complete.shaped.elements e (List.mem_of_getElem? row), SequenceNode.types, List.getElem?_map, at']
      rfl
    rw [List.getElem?_map, ← index, column] at types
    have produced : r.result.field.type = .vector := same.symm.trans (Option.some.inj types)
    exact complete.vector_left hr ok ((decode_element_type ..).symm.trans produced) copied
  · rcases condition with none | none
    · exact complete.none_decoded none
    · exact complete.copied none

/-! ## One template -/

/-- A sequence whose elements have one field. -/
def oneField (f : ElementNode) : SequenceNode := ⟨"Entries", .mandatory, ⟨"NoEntries", .mandatory, .none, none⟩, [f]⟩

/-- A number that differs from the one of the element before. -/
def deltaNode : ElementNode := .uint ⟨"Price", .mandatory, .delta, none⟩

/-- Two elements: 5, and 1 more. -/
def twoPrices : Buffer := bufferPuts (bufferNew 8) [0x82, 0x85, 0x81]

/-- The prices 5 and 6 are in the elements. -/
theorem prices_copied_out :
    CopiedOut (fastDecodeSequence twoPrices Pmap.empty (sequenceInit (oneField deltaNode))).field
        (sequenceRuns twoPrices Pmap.empty (sequenceInit (oneField deltaNode))) ∧
      (sequenceRuns twoPrices Pmap.empty (sequenceInit (oneField deltaNode))).map (fun r => (r.element, r.result.field)) =
        [(1, .uint { Node.fieldInit ⟨"Price", .mandatory, .delta, none⟩ 0 with state := .assigned, value := 5 }),
          (2, .uint { Node.fieldInit ⟨"Price", .mandatory, .delta, none⟩ 0 with state := .assigned, value := 6 })] := by
  have none : ∀ v, ElementNode.vector v ∉ (oneField deltaNode).fields := by
    intro v vector
    cases List.mem_singleton.1 vector
  have received := Reception.done (s := sequenceInit (oneField deltaNode)) twoPrices Pmap.empty (by decide +kernel)
  exact ⟨((Reception.copied_out_iff .loaded rfl received rfl).2.2).2 (.inr none), by decide +kernel⟩

/-- Bytes that a message carries. -/
def vectorNode : Node Bytes := ⟨"Data", .mandatory, .none, none⟩

/-- One element, with one byte. -/
def oneByte : Buffer := bufferPuts (bufferNew 8) [0x81, 0x81, 0x41]

/-- **A vector.** Its element is decoded, and 0 is returned; the application finds the vector of the element
undefined. -/
theorem vector_not_copied :
    ¬(∀ (n : SequenceNode) (s s' : Sequence) (runs : List FieldRun), SequenceReached n s → s.decoded = 0 →
        Reception s runs s' → CopiedOut s' runs) ∧
      (fastDecodeSequence oneByte Pmap.empty (sequenceInit (oneField (.vector vectorNode)))).ret = .ok ∧
      (fastDecodeSequence oneByte Pmap.empty (sequenceInit (oneField (.vector vectorNode)))).field.head =
        [.vector { vectorInit vectorNode with state := .assigned, value := 0x41 :: List.replicate 255 0 }] ∧
      (fastDecodeSequence oneByte Pmap.empty (sequenceInit (oneField (.vector vectorNode)))).field.elements[0]? =
        some [.vector (vectorInit vectorNode)] := by
  have ok : (fastDecodeSequence oneByte Pmap.empty (sequenceInit (oneField (.vector vectorNode)))).ret = .ok := by
    decide +kernel
  have element :
      (fastDecodeSequence oneByte Pmap.empty (sequenceInit (oneField (.vector vectorNode)))).field.elements[0]? =
        some [.vector (vectorInit vectorNode)] := by
    decide +kernel
  refine ⟨fun always => ?_, ok, by decide +kernel, element⟩
  have run : (⟨1, 0, oneByte.bufferAdvance 1, Pmap.empty, .vector (vectorInit vectorNode)⟩ : FieldRun) ∈
      sequenceRuns oneByte Pmap.empty (sequenceInit (oneField (.vector vectorNode))) := by
    decide +kernel
  have produced : (FieldRun.result ⟨1, 0, oneByte.bufferAdvance 1, Pmap.empty, .vector (vectorInit vectorNode)⟩).field =
      .vector { vectorInit vectorNode with state := .assigned, value := 0x41 :: List.replicate 255 0 } := by
    decide +kernel
  obtain ⟨e, f, row, column, holds⟩ := always _ _ _ _ .loaded rfl (.done oneByte Pmap.empty ok) _ run (by decide +kernel)
  rw [show (1 : Nat) - 1 = 0 from rfl, element] at row
  obtain rfl := Option.some.inj row
  obtain rfl := Option.some.inj column
  rw [produced] at holds
  cases holds.2

end Libtrading.Fast
