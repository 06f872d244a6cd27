import Libtrading.Fast.Calls

/-!
# What a call leaves under way

Between two messages a session is fresh: no preamble, no presence map, no
template, and every cursor at its start. A call that waits or is refused leaves
at most one message under way, in one template; a call that returns a message
leaves a fresh session, and so does one that is refused in the map of a session
without preambles.
-/

namespace Libtrading.Fast
set_option autoImplicit false
open Buffer

/-! ## Cursors -/

/-- No element is begun. -/
structure Sequence.Idle (s : Sequence) : Prop where
  decoded : s.decoded = 0
  fields : s.msgDecoded = 0
  map : s.pmap.isValid = false

/-- Between two elements. -/
structure Sequence.Between (s : Sequence) : Prop where
  fields : s.msgDecoded = 0
  map : s.pmap.isValid = false

/-- A sequence that is idle, or in one of its elements. -/
def Sequence.Tidy (s : Sequence) : Prop := s.Idle ∨ (s.decoded ≠ 0 ∧ s.decoded ≤ s.length.value.toNat)

namespace FastField

/-- No item of a sequence is under way. -/
def Idle : FastField → Prop
  | .elem _ => True
  | .sequence s => s.Idle

/-- A sequence is idle, or in one of its items. -/
def Tidy : FastField → Prop
  | .elem _ => True
  | .sequence s => s.Tidy

theorem Idle.tidy {f : FastField} (h : f.Idle) : f.Tidy := by
  cases f with
  | elem f => trivial
  | sequence s => exact .inl h

end FastField

/-- The element loop ends between two elements, and stops in one. -/
theorem elements_tidy {n : Nat} {b : Buffer} (hv : b.Valid) {s : Sequence} (hn : s.left ≤ n)
    (h : s.decoded ≤ s.length.value.toNat ∨ s.Between) :
    ((decodeElements n b s).ret = .ok → (decodeElements n b s).seq.Between) ∧
      ((decodeElements n b s).ret ≠ .ok →
        (decodeElements n b s).seq.decoded ≤ (decodeElements n b s).seq.length.value.toNat) := by
  have over_between : s.length.value.toNat < s.decoded → s.Between := by
    intro past
    rcases h with inside | between
    · omega
    · exact between
  induction n generalizing b s with
  | zero =>
    have past : s.length.value.toNat < s.decoded := by
      simp only [Sequence.left] at hn
      omega
    exact ⟨fun _ => over_between past, fun stop => absurd rfl stop⟩
  | succ n ih =>
    by_cases past : s.length.value.toNat < s.decoded
    · rw [elements_end past]
      exact ⟨fun _ => over_between past, fun stop => absurd rfl stop⟩
    · obtain ⟨moved, keeps⟩ := item_moved hv s
      have next := left_next keeps past
      by_cases ok : (elementItem b s).ret = .ok
      · rw [elements_next past ok]
        have between : (elementItem b s).seq.nextElement.Between := ⟨rfl, rfl⟩
        exact ih (moved.valid hv) (by omega) (.inr between) fun _ => between
      · rw [elements_stopped past ok]
        refine ⟨fun h => absurd h ok, fun _ => ?_⟩
        rw [keeps.length, keeps.decoded]
        omega

theorem elements_from_tidy {b : Buffer} (hv : b.Valid) (p : Pmap) {s : Sequence} (hs : s.Regular)
    (begun : s.decoded ≠ 0) (h : s.decoded ≤ s.length.value.toNat ∨ s.Between) :
    ((sequenceElementsFrom b p s).ret = .ok → (sequenceElementsFrom b p s).field.Idle) ∧
      ((sequenceElementsFrom b p s).ret ≠ .ok → (sequenceElementsFrom b p s).field.Tidy) := by
  have left : s.left ≤ sequenceElements := by
    have := hs begun
    simp only [Sequence.left]
    omega
  obtain ⟨between, inside⟩ := elements_tidy hv left h
  rw [elements_from_ret]
  refine ⟨fun ok => ?_, fun stop => ?_⟩
  · have done := between ok
    simp only [sequenceElementsFrom, ok, ne_eq, not_true_eq_false, if_false]
    exact ⟨rfl, done.fields, done.map⟩
  · rw [elements_from_failed stop]
    have onwards := (elements_moved sequenceElements hv s).2.2
    exact .inr ⟨by omega, inside stop⟩

/-- A sequence that is decoded is idle, one that is not is tidy. -/
theorem sequence_tidy {b : Buffer} (hv : b.Valid) (p : Pmap) {s : Sequence} (hs : s.Regular) (tidy : s.Tidy) :
    ((fastDecodeSequence b p s).ret = .ok → (fastDecodeSequence b p s).field.Idle) ∧
      ((fastDecodeSequence b p s).ret ≠ .ok → (fastDecodeSequence b p s).field.Tidy) := by
  have moved := interruptible_uint.moved p s.length hv
  have idle : s.decoded = 0 → s.Idle := by
    intro zero
    rcases tidy with idle | ⟨begun, _⟩
    · exact idle
    · exact absurd zero begun
  cases length_cases b p s with
  | begun begun =>
    have inside : s.decoded ≤ s.length.value.toNat := by
      rcases tidy with idle | ⟨_, inside⟩
      · exact absurd idle.decoded begun
      · exact inside
    rw [sequence_begun begun]
    exact elements_from_tidy hv p hs begun (.inl inside)
  | read zero ok there range =>
    rw [sequence_read zero ok there range]
    have rest := idle zero
    have between : (s.withLength (fastDecodeUint b p s.length).field).Between := ⟨rest.fields, rest.map⟩
    exact elements_from_tidy (moved.valid hv) _ (with_length_regular s range) (by exact nofun) (.inr between)
  | short zero short =>
    rw [sequence_short hv zero short]
    have rest := idle zero
    exact ⟨nofun, fun _ => .inl ⟨zero, rest.fields, rest.map⟩⟩
  | past zero long past =>
    rw [sequence_over zero long past]
    have rest := idle zero
    exact ⟨fun _ => ⟨zero, rest.fields, rest.map⟩, fun _ => .inl ⟨zero, rest.fields, rest.map⟩⟩

/-- **A field decoder** leaves a tidy field. -/
theorem field_tidy {b : Buffer} (hv : b.Valid) (p : Pmap) {f : FastField} (hf : f.Regular) (tidy : f.Tidy) :
    ((decodeFastField b p f).ret = .ok → (decodeFastField b p f).field.Idle) ∧
      ((decodeFastField b p f).ret ≠ .ok → (decodeFastField b p f).field.Tidy) := by
  cases f with
  | elem f => exact ⟨fun _ => trivial, fun _ => trivial⟩
  | sequence s => exact sequence_tidy hv p hf tidy

/-! ## Messages -/

/-- The fields of a message under way: all idle but the one at the cursor, which is tidy. -/
def UnderWay (decoded : Nat) (fields : List FastField) : Prop :=
  ∀ (i : Nat) (f : FastField), fields[i]? = some f → f.Tidy ∧ (i ≠ decoded → f.Idle)

def IdleFields (fields : List FastField) : Prop := ∀ f ∈ fields, f.Idle

theorem IdleFields.underWay {fields : List FastField} (h : IdleFields fields) (decoded : Nat) :
    UnderWay decoded fields := fun _ _ hf =>
  ⟨(h _ (List.mem_of_getElem? hf)).tidy, fun _ => h _ (List.mem_of_getElem? hf)⟩

theorem under_way_set {decoded : Nat} {fields : List FastField} (h : UnderWay decoded fields) {f : FastField}
    (hf : f.Tidy) : UnderWay decoded (fields.set decoded f) := by
  intro i g hg
  rw [List.getElem?_set] at hg
  split at hg
  · rename_i same
    split at hg
    · cases hg
      exact ⟨hf, fun other => absurd same.symm other⟩
    · cases hg
  · exact h i g hg

/-- Past its cursor, a message under way is idle where the cursor's field is. -/
theorem under_way_next {decoded : Nat} {fields : List FastField} (h : UnderWay decoded fields) {f : FastField}
    (hf : f.Idle) : IdleFields (fields.set decoded f) := by
  intro g hg
  obtain ⟨i, hi⟩ := List.mem_iff_getElem?.mp hg
  rw [List.getElem?_set] at hi
  split at hi
  · split at hi
    · cases hi
      exact hf
    · cases hi
  · rename_i other
    exact (h i g hi).2 (Ne.symm other)

/-- A field loop that ends leaves idle fields, one that stops a message under way. -/
theorem decode_fields_tidy {n decoded : Nat} {b : Buffer} {p : Pmap} {fields : List FastField} (hv : b.Valid)
    (regular : RegularFields fields) (hn : n = fields.length - decoded) (h : UnderWay decoded fields) :
    ((decodeFields n b p decoded fields).ret = .ok → IdleFields (decodeFields n b p decoded fields).fields) ∧
      ((decodeFields n b p decoded fields).ret ≠ .ok →
        UnderWay (decodeFields n b p decoded fields).decoded (decodeFields n b p decoded fields).fields) := by
  have ended : fields[decoded]? = none → IdleFields fields := by
    intro out f hf
    obtain ⟨i, hi⟩ := List.mem_iff_getElem?.mp hf
    refine (h i f hi).2 ?_
    rintro rfl
    rw [out] at hi
    cases hi
  induction n generalizing b p decoded fields with
  | zero => exact ⟨fun _ => ended (List.getElem?_eq_none_iff.mpr (by omega)), fun stop => absurd rfl stop⟩
  | succ n ih =>
    cases hf : fields[decoded]? with
    | none =>
      rw [decode_fields_none hf]
      exact ⟨fun _ => ended hf, fun stop => absurd rfl stop⟩
    | some f =>
      have here := regular f (List.mem_of_getElem? hf)
      obtain ⟨moved, cursor, kept⟩ := field_moved hv p here
      obtain ⟨idle, tidy⟩ := field_tidy hv p here (h decoded f hf).1
      by_cases ok : (decodeFastField b p f).ret = .ok
      · rw [decode_fields_ok hf ok]
        have rest := under_way_next h (idle ok)
        exact ih (moved.valid hv) (regular_fields_set regular decoded kept) (by rw [List.length_set]; omega)
          (rest.underWay _) fun _ => rest
      · by_cases interrupted : (decodeFastField b p f).ret = .msgPartial
        · rw [decode_fields_interrupted cursor hf interrupted]
          exact ⟨nofun, fun _ => under_way_set h (tidy ok)⟩
        · rw [decode_fields_refused hf ok interrupted]
          exact ⟨fun h => absurd h ok, fun _ => under_way_set h (tidy ok)⟩

/-! ## Sessions -/

/-- Nothing of a message is there: what is returned next is made of bytes to come. -/
structure Session.Fresh (s : Session) : Prop where
  preamble : s.preamble.isValid = false
  map : s.pmap.isValid = false
  template : s.rxMessage = none
  messages : ∀ m ∈ s.rxMessages, m.decoded = 0 ∧ IdleFields m.fields

/-- At most one message is under way. -/
structure Session.Tidy (s : Session) : Prop where
  preamble : s.preamble.nrBytes = 0 → s.preamble.isValid = false
  map : s.pmap.isValid = false → s.rxMessage = none
  others : ∀ (i : Nat) (m : Message), s.rxMessages[i]? = some m → s.rxMessage ≠ some i →
    m.decoded = 0 ∧ IdleFields m.fields
  current : ∀ (i : Nat) (m : Message), s.rxMessages[i]? = some m → s.rxMessage = some i → UnderWay m.decoded m.fields

theorem Session.Fresh.tidy {s : Session} (h : s.Fresh) : s.Tidy where
  preamble _ := h.preamble
  map _ := h.template
  others _ m hm _ := h.messages m (List.mem_of_getElem? hm)
  current i m _ hi := by
    rw [h.template] at hi
    cases hi

/-- A session without a template under way, its preamble and its map. -/
theorem Session.Tidy.fresh {s : Session} (h : s.Tidy) (preamble : s.preamble.isValid = false)
    (map : s.pmap.isValid = false) : s.Fresh where
  preamble := preamble
  map := map
  template := h.map map
  messages m hm := by
    obtain ⟨i, hi⟩ := List.mem_iff_getElem?.mp hm
    exact h.others i m hi (by rw [h.map map]; exact nofun)

section Stages
variable {s : Session}

/-- The preamble leaves the fields alone. -/
theorem preamble_tidy (h : s.Tidy) : s.decodePreamble.session.Tidy := by
  by_cases missing : s.preamble.nrBytes ≠ 0 ∧ !s.preamble.isValid
  · by_cases short : s.rxBuffer.bufferSize < s.preamble.nrBytes
    · rw [preamble_short missing short]
      exact h
    · rw [preamble_read missing short]
      exact ⟨fun zero => absurd zero missing.1, h.map, h.others, h.current⟩
  · rw [preamble_passed missing]
    exact h

/-- So does the presence map. -/
theorem pmap_tidy (hv : s.rxBuffer.Valid) (h : s.Tidy) :
    s.decodePmap.session.Tidy ∧ (s.decodePmap.ret ≠ .ok → s.decodePmap.session.pmap.isValid = false) := by
  have still : (parsePmap s.rxBuffer s.pmap).2.1.isValid = s.pmap.isValid := parse_pmap_from_cursor.1
  cases valid : s.pmap.isValid with
  | true =>
    rw [pmap_passed valid]
    exact ⟨h, fun refused => absurd rfl refused⟩
  | false =>
    have template := h.map valid
    by_cases ok : (parsePmap s.rxBuffer s.pmap).1 = .ok
    · rw [pmap_read valid ok]
      exact ⟨⟨h.preamble, fun _ => template, h.others, h.current⟩, fun refused => absurd rfl refused⟩
    · by_cases short : (parsePmap s.rxBuffer s.pmap).1 = .msgPartial
      · rw [pmap_short hv valid short]
        exact ⟨⟨h.preamble, fun _ => template, h.others, h.current⟩, fun _ => still.trans valid⟩
      · rw [pmap_refused valid ok short]
        exact ⟨⟨h.preamble, fun _ => template, h.others, h.current⟩, fun _ => still.trans valid⟩

theorem choose_template_tidy (h : s.Tidy) (map : s.pmap.isValid = true) (none : s.rxMessage = none) (tid : U64)
    (b : Buffer) : (s.chooseTemplate tid b).session.Tidy := by
  unfold Session.chooseTemplate
  have idle : ∀ (i : Nat) (m : Message), s.rxMessages[i]? = some m → m.decoded = 0 ∧ IdleFields m.fields :=
    fun i m hm => h.others i m hm (by rw [none]; exact nofun)
  split
  · exact ⟨h.preamble, h.map, h.others, h.current⟩
  · exact ⟨h.preamble, fun invalid => absurd (map.symm.trans invalid) nofun, fun i m hm _ => idle i m hm,
      fun i m hm _ => (idle i m hm).2.underWay _⟩

/-- So does the template id. -/
theorem tid_tidy (hv : s.rxBuffer.Valid) (h : s.Tidy) (map : s.pmap.isValid = true) :
    s.decodeTid.session.Tidy := by
  cases template : s.rxMessage with
  | some i => rw [tid_passed template]; exact h
  | none =>
    cases hr : s.readTid with
    | done tid b => rw [tid_read template hr]; exact choose_template_tidy h map template tid b
    | fail ret b =>
      by_cases short : ret = .msgPartial
      · rw [tid_short hv template (by rw [hr]; exact short)]
        exact h
      · rw [tid_refused template hr short]
        exact ⟨h.preamble, h.map, h.others, h.current⟩

/-- **The header** keeps a session tidy. -/
theorem header_tidy (hv : s.rxBuffer.Valid) (h : s.Tidy) : s.decodeHeader.session.Tidy := by
  unfold Session.decodeHeader Stage.andThen
  split
  · exact preamble_tidy h
  · have valid := stage_preamble.valid hv
    obtain ⟨tidy, _⟩ := pmap_tidy valid (preamble_tidy h)
    split
    · exact tidy
    · rename_i ok
      exact tid_tidy (stage_pmap.valid valid) tidy (pmap_done valid (Decidable.of_not_not ok))

end Stages

section Call
variable {s : Session} {i : Nat} {m : Message}

theorem message_under_way (hs : s.Regular) (h : s.Tidy) (hm : s.rxMessages[i]? = some m)
    (hi : s.rxMessage = some i) :
    ((s.messageFields m).ret = .ok → IdleFields (s.messageFields m).fields) ∧
      ((s.messageFields m).ret ≠ .ok →
        UnderWay (s.messageFields m).decoded (s.messageFields m).fields) :=
  decode_fields_tidy hs.valid (hs.regular m (List.mem_of_getElem? hm)) rfl (h.current i m hm hi)

theorem decode_message_fresh (hs : s.Regular) (h : s.Tidy) (hm : s.rxMessages[i]? = some m)
    (hi : s.rxMessage = some i) (ok : (s.decodeMessage i m).ret = .ok) : (s.decodeMessage i m).session.Fresh := by
  rw [decode_message_ret] at ok
  have idle := (message_under_way hs h hm hi).1 ok
  rw [Session.decodeMessage, finish_message_done ok]
  refine ⟨rfl, rfl, rfl, fun t ht => ?_⟩
  obtain ⟨j, hj⟩ := List.mem_iff_getElem?.mp ht
  rw [List.getElem?_set] at hj
  split at hj
  · split at hj
    · cases hj
      exact ⟨rfl, idle⟩
    · cases hj
  · rename_i other
    refine h.others j t hj ?_
    rw [hi]
    simpa using other

/-- **The fields of a message** keep it tidy. -/
theorem decode_message_tidy (hs : s.Regular) (h : s.Tidy) (map : s.pmap.isValid = true)
    (hm : s.rxMessages[i]? = some m) (hi : s.rxMessage = some i) (stop : (s.decodeMessage i m).ret ≠ .ok) :
    (s.decodeMessage i m).session.Tidy := by
  rw [decode_message_ret] at stop
  have underWay := (message_under_way hs h hm hi).2 stop
  have kept := (decode_fields_moved (m.fields.length - m.decoded) m.decoded s.pmap hs.valid
    (hs.regular m (List.mem_of_getElem? hm))).2.1
  have stopped : s.decodeMessage i m = _ := finish_message_failed stop
  rw [stopped]
  refine ⟨h.preamble, fun invalid => ?_, fun j t hj other => ?_, fun j t hj same => ?_⟩
  · exact absurd ((kept.trans map).symm.trans invalid) nofun
  · rw [List.getElem?_set] at hj
    split at hj
    · rename_i same
      exact absurd (hi.trans (congrArg some same)) other
    · exact h.others j t hj other
  · rw [List.getElem?_set] at hj
    split at hj
    · split at hj
      · cases hj
        exact underWay
      · cases hj
    · exact h.current j t hj same

/-- A call that returns a message leaves a fresh session, any other one a tidy one. -/
theorem decode_tidy (hs : s.Regular) (h : s.Tidy) :
    (s.fastMessageDecode.ret = .ok → s.fastMessageDecode.session.Fresh) ∧
      (s.fastMessageDecode.ret ≠ .ok → s.fastMessageDecode.session.Tidy) := by
  have regular := header_regular hs
  have tidy := header_tidy hs.valid h
  obtain ⟨ret, call, refused, -⟩ | ⟨i, m, ok, hi, hm, call⟩ := decode_cases s
  · rw [call]
    exact ⟨fun ok => absurd ok refused, fun _ => tidy⟩
  · rw [call]
    have map := (header_done hs.valid ok).pmap
    exact ⟨decode_message_fresh regular tidy hm hi, decode_message_tidy regular tidy map hm hi⟩

end Call

end Libtrading.Fast
