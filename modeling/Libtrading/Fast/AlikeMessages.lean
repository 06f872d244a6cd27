import Libtrading.Fast.AlikeSequences

/-!
# Messages that decode alike

The fields of a message, one after the other: the ones in front of the cursor show the same already, and the one at it
may be half read.
-/

namespace Libtrading.Fast
set_option autoImplicit false
open Buffer

/-! ## Fields -/

/-- Two fields of a message that decode alike, by type. -/
inductive FastField.Alike (wire : Prop) : FastField → FastField → FastField → Prop
  | elem {o f g : ElementField} (h : ElementField.Alike wire o f g) : Alike wire (.elem o) (.elem f) (.elem g)
  | sequence {o s t : Sequence} (left : Shaped (o.head.map ElementField.type) s)
    (right : Shaped (o.head.map ElementField.type) t) (h : Sequence.Alike o s t) :
    Alike wire (.sequence o) (.sequence s) (.sequence t)

section Fields
variable {o f g : FastField} {wire wire' : Prop} {p q : Pmap} {b : Buffer}

theorem FastField.Alike.mono (h : FastField.Alike wire o f g) (more : wire → wire') : FastField.Alike wire' o f g := by
  cases h with
  | elem h => exact .elem (h.mono more)
  | sequence left right h => exact .sequence left right h

/-- **A field of a message.** Fields that decode alike do, and then show the same. -/
theorem fast_field_stepped (map : p.Alike q) (hv : b.Valid) (h : FastField.Alike (p.next.pmapIsSet = true) o f g) :
    Stepped (FastField.Alike · o) FastField.seen p q (decodeFastField b p f) (decodeFastField b q g) := by
  cases h with
  | elem h =>
    obtain ⟨step, alike, seen⟩ := element_stepped map b h
    exact ⟨step.wrap, fun defined => .elem (alike defined), fun ok => congrArg FieldSeen.elem (seen ok)⟩
  | sequence left right h =>
    obtain ⟨step, alike, seen⟩ := sequence_stepped map hv left right h
    exact ⟨step.wrap, fun defined => .sequence (left.after b p) (right.after b q) (alike defined), seen⟩

/-- An interrupted field goes back to the same place. -/
theorem interrupted_alike (h : FastField.Alike wire o f g) (before after : Buffer) :
    interruptedAt g before after = interruptedAt f before after := by
  cases h <;> rfl

end Fields

/-! ## The field loop -/

/-- The fields of two messages of the template's `o`, with the cursor at `decoded`. -/
structure RunningAlike (o : List FastField) (wire : Prop) (decoded : Nat) (fs gs : List FastField) : Prop where
  left : fs.length = o.length
  right : gs.length = o.length
  fields : ∀ (j : Nat) (k f g : FastField), o[j]? = some k → fs[j]? = some f → gs[j]? = some g →
    FastField.Alike (j = decoded ∧ wire) k f g
  seen : ∀ (j : Nat) (f g : FastField), fs[j]? = some f → gs[j]? = some g → j < decoded → f.seen = g.seen

/-- Two runs of the field loop that went alike. -/
structure FieldsRun.Alike (o : List FastField) (p q : Pmap) (r r' : FieldsRun) : Prop where
  ret : r.ret = r'.ret
  buffer : r.buffer = r'.buffer
  decoded : r.decoded = r'.decoded
  pmap : ∃ k, r.pmap = p.skip k ∧ r'.pmap = q.skip k
  fields : r.ret ≠ .fault → RunningAlike o (r.pmap.next.pmapIsSet = true) r.decoded r.fields r'.fields

section Loop
variable {o fs gs : List FastField} {decoded : Nat} {p q : Pmap} {wire wire' : Prop}

theorem RunningAlike.mono (h : RunningAlike o wire decoded fs gs) (more : wire → wire') :
    RunningAlike o wire' decoded fs gs :=
  ⟨h.left, h.right, fun j k f g hk hf hg => (h.fields j k f g hk hf hg).mono fun here => ⟨here.1, more here.2⟩, h.seen⟩

/-- The fields with the one at the cursor replaced. -/
theorem RunningAlike.set (h : RunningAlike o wire decoded fs gs) {k f g : FastField} {wire' : Prop}
    (here : o[decoded]? = some k) (alike : FastField.Alike wire' k f g) :
    RunningAlike o wire' decoded (fs.set decoded f) (gs.set decoded g) where
  left := List.length_set.trans h.left
  right := List.length_set.trans h.right
  fields j k' f' g' hk hf hg := by
    rcases set_entries hf hg with ⟨rfl, rfl, rfl⟩ | ⟨other, hf, hg⟩
    · obtain rfl := Option.some.inj (here.symm.trans hk)
      exact alike.mono fun wire => ⟨rfl, wire⟩
    · exact (h.fields j k' f' g' hk hf hg).mono fun wire => absurd wire.1 other
  seen j f' g' hf hg before := by
    rcases set_entries hf hg with ⟨rfl, -, -⟩ | ⟨-, hf, hg⟩
    · exact absurd before (Nat.lt_irrefl _)
    · exact h.seen j f' g' hf hg before

/-- The cursor moves over a field that was decoded. -/
theorem RunningAlike.next (h : RunningAlike o wire decoded fs gs) {k f g : FastField} {wire' : Prop}
    (here : o[decoded]? = some k) (alike : FastField.Alike False k f g) (seen : f.seen = g.seen) :
    RunningAlike o wire' (decoded + 1) (fs.set decoded f) (gs.set decoded g) where
  left := List.length_set.trans h.left
  right := List.length_set.trans h.right
  fields j k' f' g' hk hf hg := by
    refine ((h.set here alike).fields j k' f' g' hk hf hg).mono fun wire => wire.2.elim
  seen j f' g' hf hg before := by
    rcases set_entries hf hg with ⟨-, rfl, rfl⟩ | ⟨other, hf, hg⟩
    · exact seen
    · exact h.seen j f' g' hf hg (by omega)

/-- The entries of all three at the cursor. -/
theorem RunningAlike.entries (h : RunningAlike o wire decoded fs gs) {f : FastField} (here : fs[decoded]? = some f) :
    ∃ k g, o[decoded]? = some k ∧ gs[decoded]? = some g := by
  have inside := (List.getElem?_eq_some_iff.1 here).1
  exact ⟨_, _, List.getElem?_eq_getElem (h.left ▸ inside), List.getElem?_eq_getElem (h.right.trans h.left.symm ▸ inside)⟩

/-- The fields of a message, by induction on the ones left. -/
theorem decode_fields_alike (n : Nat) {b : Buffer} (hv : b.Valid) (map : p.Alike q)
    (h : RunningAlike o (p.next.pmapIsSet = true) decoded fs gs) :
    FieldsRun.Alike o p q (decodeFields n b p decoded fs) (decodeFields n b q decoded gs) := by
  induction n generalizing b p q decoded fs gs with
  | zero => exact ⟨rfl, rfl, rfl, ⟨0, p.skip_zero.symm, q.skip_zero.symm⟩, fun _ => h⟩
  | succ n ih =>
    cases here : fs[decoded]? with
    | none =>
      have out : gs[decoded]? = none := by
        rw [List.getElem?_eq_none_iff] at here ⊢
        rw [h.right, ← h.left]
        exact here
      rw [decode_fields_none here, decode_fields_none out]
      exact ⟨rfl, rfl, rfl, ⟨0, p.skip_zero.symm, q.skip_zero.symm⟩, fun _ => h⟩
    | some f =>
      obtain ⟨k, g, at', there⟩ := h.entries here
      have entry := h.fields decoded k f g at' here there
      obtain ⟨step, alike, seen⟩ := fast_field_stepped map hv (entry.mono And.right)
      obtain ⟨ret, buffer, i, pmap, pmap'⟩ := step
      by_cases ok : (decodeFastField b p f).ret = .ok
      · rw [decode_fields_ok here ok, decode_fields_ok there (ret.symm.trans ok), ← buffer]
        have moved : b.Moved (decodeFastField b p f).buffer := by
          cases entry with
          | elem _ => exact streams_element.moved p _ hv
          | sequence left _ _ => exact (sequence_moved hv p fun begun => (left.range begun).2.1).1
        have decodedAlike := alike fun fault => by cases ok.symm.trans fault
        have ahead : (decodeFastField b p f).pmap.Alike (decodeFastField b q g).pmap := by
          rw [pmap, pmap']
          exact map.skip i
        have rest := ih (moved.valid hv) ahead
          (h.next at' (decodedAlike.mono fun waits => by cases ok.symm.trans waits.1) (seen ok))
        obtain ⟨j, later, later'⟩ := rest.pmap
        refine ⟨rest.ret, rest.buffer, rest.decoded, ⟨i + j, ?_, ?_⟩, rest.fields⟩
        · rw [later, pmap, Pmap.skip_skip]
        · rw [later', pmap', Pmap.skip_skip]
      · by_cases waits : (decodeFastField b p f).ret = .msgPartial
        · have defined : (decodeFastField b p f).ret ≠ .fault := fun fault => by cases waits.symm.trans fault
          rw [decode_fields_interrupted (by rw [pmap]; rfl) here waits,
            decode_fields_interrupted (by rw [pmap']; rfl) there (ret.symm.trans waits)]
          refine ⟨rfl, ?_, rfl, ⟨0, p.skip_zero.symm, q.skip_zero.symm⟩, fun _ => ?_⟩
          · rw [interrupted_alike entry, buffer]
          · exact h.set at' ((alike defined).mono And.right)
        · rw [decode_fields_refused here ok waits,
            decode_fields_refused there (by rw [← ret]; exact ok) (by rw [← ret]; exact waits)]
          refine ⟨ret, buffer, rfl, ⟨i, pmap, pmap'⟩, fun defined => ?_⟩
          exact h.set at' ((alike defined).mono fun cut => absurd cut.1 waits)

/-- A field loop that is not stopped runs to the end of the fields. -/
theorem decode_fields_end {n : Nat} {b : Buffer} (ok : (decodeFields n b p decoded fs).ret = .ok) :
    fs.length ≤ decoded + n → fs.length ≤ (decodeFields n b p decoded fs).decoded := by
  induction n generalizing b p decoded fs with
  | zero => exact id
  | succ n ih =>
    intro bound
    unfold decodeFields at ok ⊢
    cases here : fs[decoded]? with
    | none => exact List.getElem?_eq_none_iff.1 here
    | some f =>
      simp only [here] at ok ⊢
      cases ret : (decodeFastField b p f).ret with
      | ok =>
        simp only [ret] at ok ⊢
        have rest := ih ok (by rw [List.length_set]; omega)
        rw [List.length_set] at rest
        exact rest
      | msgPartial =>
        simp only [ret] at ok
        cases ok
      | garbled =>
        simp only [ret] at ok
        cases ok
      | fault =>
        simp only [ret] at ok
        cases ok

end Loop

/-! ## Messages -/

/-- What the application sees of a message. -/
structure MessageSeen where
  name : String
  tid : U64
  flagReset : Bool
  fields : List FieldSeen
  deriving DecidableEq, Repr

def Message.seen (m : Message) : MessageSeen := ⟨m.name, m.tid, m.flagReset, m.fields.map FastField.seen⟩

/-- What a message keeps of the template's `o`. -/
structure Message.SameTemplate (o m : Message) : Prop where
  name : m.name = o.name
  tid : m.tid = o.tid
  flagReset : m.flagReset = o.flagReset

/-- Two messages of the template's `o` that decode alike. -/
structure Message.Alike (o : Message) (wire : Prop) (m m' : Message) : Prop where
  left : o.SameTemplate m
  right : o.SameTemplate m'
  decoded : m.decoded = m'.decoded
  fields : RunningAlike o.fields wire m.decoded m.fields m'.fields

section Messages
variable {o m m' : Message} {wire wire' : Prop}

theorem Message.Alike.mono (h : Message.Alike o wire m m') (more : wire → wire') : Message.Alike o wire' m m' :=
  ⟨h.left, h.right, h.decoded, h.fields.mono more⟩

/-- Fields that are all decoded show the same. -/
theorem RunningAlike.shown {o fs gs : List FastField} {decoded : Nat} (h : RunningAlike o wire decoded fs gs)
    (all : fs.length ≤ decoded) : fs.map FastField.seen = gs.map FastField.seen := by
  refine List.ext_getElem? fun j => ?_
  rw [List.getElem?_map, List.getElem?_map]
  by_cases inside : j < fs.length
  · have here := List.getElem?_eq_getElem inside
    have there := List.getElem?_eq_getElem (l := gs) (i := j) (by rw [h.right, ← h.left]; exact inside)
    rw [here, there, Option.map_some, Option.map_some, h.seen j _ _ here there (by omega)]
  · rw [List.getElem?_eq_none (Nat.le_of_not_lt inside),
      List.getElem?_eq_none (by rw [h.right, ← h.left]; exact Nat.le_of_not_lt inside)]

/-- The cursor goes back to the first field. -/
theorem RunningAlike.rewound {o fs gs : List FastField} {decoded : Nat} (h : RunningAlike o wire decoded fs gs)
    (all : fs.length ≤ decoded) : RunningAlike o wire' 0 fs gs where
  left := h.left
  right := h.right
  fields j k f g hk hf hg := by
    refine (h.fields j k f g hk hf hg).mono fun here => ?_
    have inside := (List.getElem?_eq_some_iff.1 hf).1
    omega
  seen _ _ _ _ _ before := absurd before (Nat.not_lt_zero _)

end Messages

end Libtrading.Fast
