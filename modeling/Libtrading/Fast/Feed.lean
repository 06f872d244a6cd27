import Libtrading.Fast.InBounds
import Libtrading.Fast.OwnBytes
import Libtrading.Fast.Packed

/-!
# Feeds that reset

`fast_feed_recv` of a feed with `session->reset` resets the dictionaries of
all templates before it receives, also between the two halves of a message.
The fields that were decoded before keep their place in the message and get
the values of the reset. Where the reset changes none of them, the message is
that of a reset and one call with all its bytes: the field that was cut is
read over again, and what the reset does to it is overwritten.
-/

namespace Libtrading.Fast
set_option autoImplicit false
open Buffer

/-! ## Strings that were cut -/

/-- Whether a string is there does not depend on the array. -/
theorem parse_string_from_ret (room len : Nat) (v w : List UInt8) (b : Buffer) :
    (parseStringFrom room len v b).ret = (parseStringFrom room len w b).ret := by
  induction room generalizing len v w b with
  | zero => rfl
  | succ room ih =>
    unfold parseStringFrom
    split
    · rfl
    · split
      · rfl
      · exact ih ..

/-- A string that was cut has been stored up to where the bytes end. -/
theorem parse_string_from_outside {room len i : Nat} {value : List UInt8} {b : Buffer} (hv : b.Valid)
    (cut : (parseStringFrom room len value b).ret = .msgPartial) (hi : len + b.bufferSize ≤ i) :
    (parseStringFrom room len value b).value[i]? = value[i]? := by
  induction room generalizing len value b with
  | zero => cases cut
  | succ room ih =>
    unfold parseStringFrom at cut ⊢
    cases next : nextByte b with
    | none => rfl
    | some cb =>
      obtain ⟨valid, size⟩ := size_next hv next
      rw [next] at cut
      simp only at cut ⊢
      split at cut
      · cases cut
      · rename_i go
        rw [if_neg go, ih valid cut (by omega), List.getElem?_set_ne (by omega)]

/-- What the array held where a string was cut makes no difference to the read that goes over it again. -/
theorem parse_string_from_over {room len : Nat} {v w : List UInt8} {b : Buffer} (hv : b.Valid)
    (cut : (parseStringFrom room len v b).ret = .msgPartial)
    (same : ∀ i, i < len ∨ len + b.bufferSize ≤ i → v[i]? = w[i]?) (length : v.length = w.length) (x : List UInt8) :
    parseStringFrom room len v (b.receive x) = parseStringFrom room len w (b.receive x) := by
  induction room generalizing len v w b with
  | zero => cases cut
  | succ room ih =>
    unfold parseStringFrom at cut
    cases next : nextByte b with
    | none =>
      have empty := size_none next
      have equal : v = w := List.ext_getElem? fun i => same i (by omega)
      rw [equal]
    | some cb =>
      obtain ⟨valid, size⟩ := size_next hv next
      rw [next] at cut
      simp only at cut
      split at cut
      · cases cut
      · rename_i go
        unfold parseStringFrom
        rw [next_byte_receive hv next]
        simp only [if_neg go]
        refine ih valid cut (fun i hi => ?_) (by rw [List.length_set, List.length_set, length])
        by_cases here : len = i
        · rw [List.getElem?_set, List.getElem?_set, if_pos here, if_pos here, length]
        · rw [List.getElem?_set_ne here, List.getElem?_set_ne here]
          exact same i (by omega)

/-! ## Fields that were cut -/

theorem strcpy_getElem? {v r : Bytes} (i : Nat) :
    (strcpy v r)[i]? = if i < (cstr r).length + 1 then (cstr r ++ [0])[i]? else v[i]? := by
  have parts : strcpy v r = (cstr r ++ [0]) ++ v.drop ((cstr r).length + 1) := by
    rw [strcpy, List.append_assoc]
    rfl
  have length : (cstr r ++ [0]).length = (cstr r).length + 1 := by rw [List.length_append]; rfl
  rw [parts]
  split
  · rw [List.getElem?_append_left (by omega)]
  · rw [List.getElem?_append_right (by omega), List.getElem?_drop, length]
    exact congrArg (v[·]?) (by omega)

/-- A reset field, its text cut, and reset again: only characters that are read over again have changed. -/
theorem reset_string_cut {f : Field Bytes} (settled : resetString f = f) {w : Bytes} {n : Nat}
    (length : w.length = f.value.length) (outside : ∀ i, n ≤ i → w[i]? = f.value[i]?) :
    ∃ v, resetString { f with value := w } = { f with value := v } ∧ v.length = w.length ∧
      ∀ i, n ≤ i → v[i]? = w[i]? := by
  unfold resetString Field.restart at settled ⊢
  cases reset : f.hasReset with
  | true =>
    simp only [reset, if_true] at settled ⊢
    have value : strcpy f.value f.reset = f.value := congrArg Field.value settled
    have previous : strcpy f.previous f.reset = f.previous := congrArg Field.previous settled
    refine ⟨strcpy w f.reset, by rw [previous], ?_, fun i hi => ?_⟩
    · have size := congrArg List.length value
      simp only [strcpy, List.length_append, List.length_cons, List.length_drop] at size ⊢
      omega
    · have at_ := congrArg (·[i]?) value
      simp only [strcpy_getElem?] at at_ ⊢
      split
      · rename_i inside
        rw [if_pos inside] at at_
        rw [at_, outside i hi]
      · rfl
  | false =>
    simp only [reset, Bool.false_eq_true, if_false] at settled ⊢
    have value : f.value.set 0 0 = f.value := congrArg Field.value settled
    have previous : f.previous.set 0 0 = f.previous := congrArg Field.previous settled
    refine ⟨w.set 0 0, by rw [previous], List.length_set .., fun i hi => ?_⟩
    by_cases zero : 0 = i
    · subst zero
      have at_ := congrArg (·[0]?) value
      simp only [List.getElem?_set, if_true] at at_ ⊢
      rw [length, at_, outside 0 hi]
    · rw [List.getElem?_set_ne zero]

/-- A reader that stores nothing but the state before it is cut. -/
def StoresState {α : Type} (read : Buffer → Field α → Reading α) : Prop :=
  ∀ {b : Buffer} (f : Field α), b.Valid → (read b f).ret = .msgPartial → ∃ state, (read b f).field = { f with state := state }

theorem StoresLast.stores_state {α : Type} {read : Buffer → Field α → Reading α} (h : StoresLast read) : StoresState read :=
  fun f hv cut => ⟨f.state, h.kept f hv cut⟩

theorem nullable_stores_state {α : Type} {parse : Buffer → Parse (BitVec 64)} (hp : Parses parse)
    {rest : BitVec 64 → Buffer → Field α → Reading α} (hr : ∀ v, StoresLast (rest v)) :
    StoresState (readNullable parse rest) := by
  intro b f hv cut
  have moved := hp.moved hv
  unfold readNullable at cut ⊢
  cases parsed : parse b with
  | fail ret b' => exact ⟨f.state, rfl⟩
  | done v b' =>
    rw [parsed] at cut moved
    simp only at cut ⊢
    split at cut
    · cases cut
    · rename_i given
      rw [if_neg given]
      exact ⟨.assigned, (hr v).kept _ (moved.valid hv) cut⟩

section Operators
variable {α : Type} {K : Kind α}

theorem field_stores_state (read : StoresState K.read) (delta : ∀ {r}, K.delta = some r → StoresState r) {b : Buffer}
    (hv : b.Valid) {p : Pmap} {f : Field α} (cut : (decodeField K b p f).ret = .msgPartial) :
    ∃ state, (decodeField K b p f).field = { f with state := state } := by
  obtain ⟨-, short, q, run⟩ | ⟨r, hr, short, run⟩ := decode_field_cut cut
  · rw [run b f rfl]
    exact read f hv short
  · rw [run b f rfl]
    exact delta hr f hv short

/-- A reset does not look at the state. -/
theorem restart_state {load : α → α → α} {clear : α → α} {f : Field α} (settled : f.restart load clear = f) (state : State) :
    ({ f with state := state } : Field α).restart load clear = { f with state := state } := by
  unfold Field.restart at settled ⊢
  cases reset : f.hasReset with
  | true =>
    simp only [reset, if_true] at settled ⊢
    rw [show load f.value f.reset = f.value from congrArg Field.value settled,
      show load f.previous f.reset = f.previous from congrArg Field.previous settled]
  | false =>
    simp only [reset, Bool.false_eq_true, if_false] at settled ⊢
    rw [show clear f.value = f.value from congrArg Field.value settled,
      show clear f.previous = f.previous from congrArg Field.previous settled]

end Operators

/-- A text that was cut, reset and read over again. -/
theorem ascii_cut_reset {b : Buffer} (hv : b.Valid) {p : Pmap} {f : Field Bytes} (settled : resetString f = f)
    (cut : (fastDecodeAscii b p f).ret = .msgPartial) (x : List UInt8) :
    fastDecodeAscii (b.receive x) p (resetString (fastDecodeAscii b p f).field) =
      fastDecodeAscii (b.receive x) p (fastDecodeAscii b p f).field := by
  obtain ⟨-, short, q, run⟩ | ⟨r, hr, short, run⟩ := decode_field_cut cut
  · have cut : (parseStringFrom (stringMaxBytes - 1) 0 f.value b).ret = .msgPartial := (assign_ascii_ret f _).symm.trans short
    have field : (fastDecodeAscii b p f).field = { f with value := (parseString b f.value stringMaxBytes).value } := by
      rw [show fastDecodeAscii b p f = (readAscii b f).toDecoded q from run b f rfl]
      have cut : (parseString b f.value stringMaxBytes).ret = .msgPartial := cut
      simp only [Reading.toDecoded, readAscii, assignAscii, cut, ne_eq, reduceCtorEq, not_false_eq_true, if_true]
    rw [field]
    have outside : ∀ i, b.bufferSize ≤ i → (parseString b f.value stringMaxBytes).value[i]? = f.value[i]? :=
      fun i hi => parse_string_from_outside hv cut (by omega)
    obtain ⟨v, reset, length, same⟩ := reset_string_cut settled parse_string_length outside
    rw [reset]
    have rewritten : parseString (b.receive x) v stringMaxBytes =
        parseString (b.receive x) (parseString b f.value stringMaxBytes).value stringMaxBytes := by
      have cut : (parseStringFrom (stringMaxBytes - 1) 0 v b).ret = .msgPartial := (parse_string_from_ret ..).trans cut
      exact parse_string_from_over hv cut (fun i hi => same i (by omega)) length x
    have run' : ∀ w, fastDecodeAscii (b.receive x) p { f with value := w } =
        (readAscii (b.receive x) { f with value := w }).toDecoded q := fun w => run (b.receive x) { f with value := w } rfl
    rw [run', run', readAscii, readAscii, rewritten]
    rfl
  · obtain rfl : r = readAsciiDelta := (Option.some.inj hr).symm
    obtain ⟨state, kept⟩ := nullable_stores_state parses_int stores_last_spliced f hv short
    have field : (fastDecodeAscii b p f).field = { f with state := state } := by
      rw [show fastDecodeAscii b p f = (readAsciiDelta b f).toDecoded p from run b f rfl]
      exact kept
    have reset : resetString { f with state := state } = { f with state := state } := restart_state settled state
    rw [field, reset]

theorem individ_cut_kept {b : Buffer} {p : Pmap} {d : DecimalFields}
    (cut : (fastDecodeDecimalIndivid b p d).ret = .msgPartial) : (fastDecodeDecimalIndivid b p d).field.field = d.field := by
  unfold fastDecodeDecimalIndivid at cut ⊢
  obtain reads | stops := mantissa_cases (fastDecodeInt b p d.exponent) d
  · rw [reads.eq] at cut ⊢
    rw [assign_decimal_ret] at cut
    rw [assignDecimal, if_pos (by rw [cut]; decide)]
  · rw [stops.kept (by rw [stops.interrupted.mp cut]; decide)]

theorem int_stores_state : StoresState readInt := (stores_last_number parses_int assign_int_op).stores_state

theorem uint_stores_state : StoresState readUint := (stores_last_number parses_uint assign_uint_op).stores_state

theorem delta_stores_state : StoresState readDelta := (stores_last_number parses_int assign_delta_op).stores_state

theorem vector_stores_state : StoresState readVector := nullable_stores_state parses_uint stores_last_counted

theorem decimal_stores_state (place : Decimal → Decimal → Decimal) : StoresState (readDecimalWith place) :=
  nullable_stores_state parses_int (stores_last_mantissa place)

/-- A field as a reset leaves it, cut, reset again and read over again. -/
theorem element_cut_reset {b : Buffer} (hv : b.Valid) {p : Pmap} {f : ElementField} (settled : f.fastReset = f)
    (cut : (decodeElement b p f).ret = .msgPartial) (x : List UInt8) :
    decodeElement (b.receive x) p (decodeElement b p f).field.fastReset =
      decodeElement (b.receive x) p (decodeElement b p f).field := by
  cases f with
  | int f =>
    obtain ⟨state, kept⟩ := field_stores_state int_stores_state (by rintro _ ⟨⟩; exact delta_stores_state) hv cut
    have reset : resetNumber { f with state := state } = { f with state := state } :=
      restart_state (ElementField.int.inj settled) state
    have field : (fastDecodeInt b p f).field = { f with state := state } := kept
    simp only [decodeElement, field, ElementField.fastReset, reset]
  | uint f =>
    obtain ⟨state, kept⟩ := field_stores_state uint_stores_state (by rintro _ ⟨⟩; exact delta_stores_state) hv cut
    have reset : resetNumber { f with state := state } = { f with state := state } :=
      restart_state (ElementField.uint.inj settled) state
    have field : (fastDecodeUint b p f).field = { f with state := state } := kept
    simp only [decodeElement, field, ElementField.fastReset, reset]
  | string unicode f =>
    have text : resetString f = f := (ElementField.string.inj settled).2
    cases unicode with
    | true =>
      obtain ⟨state, kept⟩ := field_stores_state vector_stores_state (by rintro _ ⟨⟩) hv cut
      have reset : resetString { f with state := state } = { f with state := state } := restart_state text state
      have field : (fastDecodeString true b p f).field = { f with state := state } := kept
      simp only [decodeElement, field, ElementField.fastReset, reset]
    | false =>
      have again := ascii_cut_reset hv text cut x
      have same : fastDecodeString false = fastDecodeAscii := rfl
      simp only [decodeElement, ElementField.fastReset, same, again]
  | vector f =>
    obtain ⟨state, kept⟩ := field_stores_state vector_stores_state (by rintro _ ⟨⟩) hv cut
    have reset : resetVector { f with state := state } = { f with state := state } :=
      restart_state (ElementField.vector.inj settled) state
    have field : (fastDecodeVector b p f).field = { f with state := state } := kept
    simp only [decodeElement, field, ElementField.fastReset, reset]
  | decimal individ f e m =>
    have number : resetDecimal f = f := (ElementField.decimal.inj settled).2.1
    cases individ with
    | true =>
      have kept := individ_cut_kept (d := ⟨f, e, m⟩) cut
      simp only [decodeElement, ElementField.fastReset, kept, number]
    | false =>
      obtain ⟨state, kept⟩ := field_stores_state (decimal_stores_state _)
        (by rintro _ ⟨⟩; exact decimal_stores_state _) hv cut
      have reset : resetDecimal { f with state := state } = { f with state := state } := restart_state number state
      have field : (fastDecodeDecimalAtomic b p f).field = { f with state := state } := kept
      simp only [decodeElement, field, ElementField.fastReset, reset]
  | nested name => rfl

/-! ## What a reset must not change -/

/-- A reset of a sequence: of its running fields. -/
def Sequence.fastReset (s : Sequence) : Sequence := { s with head := s.head.map ElementField.fastReset }

/-- A sequence that was cut, in whose elements a reset changes nothing that was decoded: in the first element
the fields in front of the one that was cut, in a later one every field, for they hold the values of the
element before. -/
def Sequence.unharmed (s : Sequence) : Bool :=
  s.decoded == 0 || (if s.decoded = 1 then s.head.take s.msgDecoded else s.head).all fun f => f.fastReset == f

/-- A message that was cut, in which a reset changes nothing that was decoded. -/
def Message.unharmed (m : Message) : Bool :=
  (m.fields.take m.decoded).all (fun f => f.fastReset == f) &&
    match m.fields[m.decoded]? with
    | some (.sequence s) => s.unharmed
    | _ => true

/-- A session whose message under way, if there is one, can be reset. -/
def Session.unharmed (s : Session) : Bool :=
  match s.rxMessage.bind (s.rxMessages[·]?) with
  | some m => m.unharmed
  | none => true

theorem map_settled {α : Type} {R : α → α} {l : List α} (settled : ∀ (j : Nat) (a : α), l[j]? = some a → R a = a) :
    l.map R = l := by
  refine List.ext_getElem? fun j => ?_
  rw [List.getElem?_map]
  cases here : l[j]? with
  | none => rfl
  | some a => exact congrArg some (settled j a here)

/-- Where all but one of a list are settled. -/
theorem map_settled_but {α : Type} {R : α → α} {l : List α} {i : Nat} {a : α} (here : l[i]? = some a)
    (settled : ∀ (j : Nat) (a : α), j ≠ i → l[j]? = some a → R a = a) : l.map R = l.set i (R a) := by
  have inside : i < l.length := (List.getElem?_eq_some_iff.mp here).1
  refine List.ext_getElem? fun j => ?_
  rw [List.getElem?_map]
  by_cases at_ : i = j
  · subst at_
    rw [here, List.getElem?_set_self inside]
    rfl
  · rw [List.getElem?_set_ne at_]
    cases there : l[j]? with
    | none => rfl
    | some c => exact congrArg some (settled j c (Ne.symm at_) there)

/-! ## Sequences that were cut -/

/-- The fields of an element from the cursor on are as a reset leaves them. -/
def Sequence.SettledFrom (s : Sequence) : Prop :=
  ∀ (j : Nat) (f : ElementField), s.msgDecoded ≤ j → s.head[j]? = some f → f.fastReset = f

/-- The fields of an element in front of the cursor are. -/
def Sequence.SettledBefore (s : Sequence) : Prop :=
  ∀ (j : Nat) (f : ElementField), j < s.msgDecoded → s.head[j]? = some f → f.fastReset = f

/-- The fields of an element that were cut, reset and read on. -/
theorem element_fields_cut_reset {n : Nat} {b : Buffer} {s : Sequence} (hv : b.Valid) (settled : s.SettledFrom)
    (cut : (decodeElementFields n b s).ret = .msgPartial) (before : (decodeElementFields n b s).seq.SettledBefore)
    (x : List UInt8) :
    let r := decodeElementFields n b s
    decodeElementFields (r.seq.head.length - r.seq.msgDecoded) (r.buffer.receive x) r.seq.fastReset =
      decodeElementFields (r.seq.head.length - r.seq.msgDecoded) (r.buffer.receive x) r.seq := by
  induction n generalizing b s with
  | zero => cases cut
  | succ n ih =>
    cases hf : s.head[s.msgDecoded]? with
    | none =>
      rw [element_fields_none hf] at cut
      cases cut
    | some f =>
      have inside : s.msgDecoded < s.head.length := (List.getElem?_eq_some_iff.mp hf).1
      by_cases interrupted : (decodeElement b s.pmap f).ret = .msgPartial
      · rw [element_fields_interrupted hv hf interrupted] at before ⊢
        have again := element_cut_reset hv (settled _ f (Nat.le_refl _) hf) interrupted x
        have here : (s.setHead (decodeElement b s.pmap f).field).head[s.msgDecoded]? =
            some (decodeElement b s.pmap f).field := List.getElem?_set_self inside
        have reset := map_settled_but (R := ElementField.fastReset) here fun j g apart hg => by
          rcases Nat.lt_or_gt_of_ne apart with less | more
          · exact before j g less hg
          · rw [Sequence.setHead, List.getElem?_set_ne (by omega)] at hg
            exact settled j g (Nat.le_of_lt more) hg
        obtain ⟨k, left⟩ := Nat.exists_eq_add_of_lt inside
        have left : (s.setHead (decodeElement b s.pmap f).field).head.length -
            (s.setHead (decodeElement b s.pmap f).field).msgDecoded = k + 1 := by
          simp only [Sequence.setHead, List.length_set]
          omega
        simp only [left, Sequence.fastReset, reset]
        simp only [Sequence.setHead, List.set_set, decodeElementFields, List.getElem?_set_self inside, again]
      · by_cases ok : (decodeElement b s.pmap f).ret = .ok
        · rw [element_fields_ok hf ok] at cut before ⊢
          refine ih ((streams_element.moved s.pmap f hv).valid hv) ?_ cut before
          intro j g after hg
          have after : s.msgDecoded + 1 ≤ j := after
          have hg : (s.head.set s.msgDecoded _)[j]? = some g := hg
          rw [List.getElem?_set_ne (by omega)] at hg
          exact settled j g (by omega) hg
        · rw [element_fields_refused hf ok interrupted] at cut
          exact absurd cut interrupted

theorem element_pmap_head (b : Buffer) (s : Sequence) :
    (decodeElementPmap b s).seq.head = s.head ∧ (decodeElementPmap b s).seq.msgDecoded = s.msgDecoded := by
  unfold decodeElementPmap
  split
  · split <;> exact ⟨rfl, rfl⟩
  · exact ⟨rfl, rfl⟩

/-- All running fields of a sequence are as a reset leaves them. -/
def Sequence.Settled (s : Sequence) : Prop := ∀ (j : Nat) (f : ElementField), s.head[j]? = some f → f.fastReset = f

theorem Sequence.Settled.reset {s : Sequence} (h : s.Settled) : s.fastReset = s := by
  simp only [fastReset, map_settled h]

theorem item_cut_reset {b : Buffer} {s : Sequence} (hv : b.Valid) (settled : s.Settled)
    (cut : (elementItem b s).ret = .msgPartial) (before : (elementItem b s).seq.SettledBefore) (x : List UInt8) :
    elementItem ((elementItem b s).buffer.receive x) (elementItem b s).seq.fastReset =
      elementItem ((elementItem b s).buffer.receive x) (elementItem b s).seq := by
  obtain ⟨moved, _, done⟩ := element_pmap_moved hv s
  obtain ⟨head, cursor⟩ := element_pmap_head b s
  have settled' : (decodeElementPmap b s).seq.Settled := fun j f hf => settled j f (head ▸ hf)
  by_cases ok : (decodeElementPmap b s).ret = .ok
  · have valid := moved.valid hv
    rw [item_fields ok] at cut before ⊢
    obtain ⟨_, kept, map⟩ := element_fields_moved ((decodeElementPmap b s).seq.head.length -
      (decodeElementPmap b s).seq.msgDecoded) valid (decodeElementPmap b s).seq
    have again := element_fields_cut_reset valid (fun j f _ hf => settled' j f hf) cut before x
    generalize decodeElementFields ((decodeElementPmap b s).seq.head.length -
      (decodeElementPmap b s).seq.msgDecoded) (decodeElementPmap b s).buffer (decodeElementPmap b s).seq = r
      at kept map again ⊢
    -- the map of the element is there, for the reset sequence too
    have passed : (r.seq.pmapReq && !r.seq.pmap.isValid) = false := by
      rw [kept.pmapReq, map]
      exact done ok
    have here : decodeElementPmap (r.buffer.receive x) r.seq = ⟨.ok, r.buffer.receive x, r.seq⟩ :=
      element_pmap_passed passed
    have there : decodeElementPmap (r.buffer.receive x) r.seq.fastReset = ⟨.ok, r.buffer.receive x, r.seq.fastReset⟩ :=
      element_pmap_passed (s := r.seq.fastReset) passed
    have length : r.seq.fastReset.head.length = r.seq.head.length := List.length_map ..
    rw [item_fields (by rw [there]), item_fields (by rw [here]), here, there]
    simp only [length]
    exact again
  · rw [item_stopped ok] at cut ⊢
    rw [settled'.reset]

/-- The element loop is a function of its first turn. -/
theorem elements_congr {n : Nat} {b b' : Buffer} {s s' : Sequence} (length : s'.length = s.length)
    (decoded : s'.decoded = s.decoded) (item : elementItem b' s' = elementItem b s)
    (before : ¬s.length.value.toNat < s.decoded) : decodeElements (n + 1) b' s' = decodeElements (n + 1) b s := by
  have before' : ¬s'.length.value.toNat < s'.decoded := by rw [length, decoded]; exact before
  by_cases ok : (elementItem b s).ret = .ok
  · rw [elements_next before ok, elements_next before' (by rw [item]; exact ok), item]
  · rw [elements_stopped before ok, elements_stopped before' (by rw [item]; exact ok), item]

/-- Elements that were cut in the first one. -/
theorem elements_cut_reset {n : Nat} {b : Buffer} {s : Sequence} (hv : b.Valid) (settled : s.Settled) (begun : s.decoded ≠ 0)
    (cut : (decodeElements (n + 1) b s).ret = .msgPartial) (first : (decodeElements (n + 1) b s).seq.decoded = 1)
    (before : (decodeElements (n + 1) b s).seq.SettledBefore) (x : List UInt8) :
    let r := decodeElements (n + 1) b s
    decodeElements (n + 1) (r.buffer.receive x) r.seq.fastReset = decodeElements (n + 1) (r.buffer.receive x) r.seq := by
  obtain ⟨moved, keeps⟩ := item_moved hv s
  by_cases past : s.length.value.toNat < s.decoded
  · rw [elements_end past] at cut
    cases cut
  · by_cases ok : (elementItem b s).ret = .ok
    · rw [elements_next past ok] at first
      have onward := (elements_moved n (moved.valid hv) (elementItem b s).seq.nextElement).2.2
      have next : (elementItem b s).seq.nextElement.decoded = s.decoded + 1 := congrArg (· + 1) keeps.decoded
      omega
    · rw [elements_stopped past ok] at cut before ⊢
      have item := item_cut_reset hv settled cut before x
      exact elements_congr rfl rfl item (by rw [keeps.length, keeps.decoded]; exact past)

theorem settled_of_all {l : List ElementField} (h : l.all (fun f => f.fastReset == f) = true) {j : Nat} {f : ElementField}
    (hf : l[j]? = some f) : f.fastReset = f :=
  beq_iff_eq.mp (List.all_eq_true.mp h f (List.mem_of_getElem? hf))

/-- Begun elements that were cut. -/
theorem elements_from_cut_reset {b : Buffer} {p : Pmap} {s : Sequence} (hv : b.Valid) (settled : s.Settled)
    (begun : s.decoded ≠ 0) (cut : (sequenceElementsFrom b p s).ret = .msgPartial)
    (unharmed : (sequenceElementsFrom b p s).field.unharmed = true) (q : Pmap) (x : List UInt8) :
    let r := sequenceElementsFrom b p s
    fastDecodeSequence (r.buffer.receive x) q r.field.fastReset = fastDecodeSequence (r.buffer.receive x) q r.field := by
  rw [elements_from_ret] at cut
  have onward := (elements_moved sequenceElements hv s).2.2
  have field : (sequenceElementsFrom b p s).field = (decodeElements sequenceElements b s).seq :=
    elements_from_failed (by rw [cut]; decide)
  rw [field] at unharmed
  simp only [field, elements_from_buffer]
  have still : (decodeElements sequenceElements b s).seq.decoded ≠ 0 := by omega
  have bound : sequenceElements = 127 + 1 := rfl
  have elements : decodeElements sequenceElements ((decodeElements sequenceElements b s).buffer.receive x)
        (decodeElements sequenceElements b s).seq.fastReset =
      decodeElements sequenceElements ((decodeElements sequenceElements b s).buffer.receive x)
        (decodeElements sequenceElements b s).seq := by
    rw [Sequence.unharmed, beq_eq_false_iff_ne.mpr still, Bool.false_or] at unharmed
    by_cases first : (decodeElements sequenceElements b s).seq.decoded = 1
    · rw [if_pos first] at unharmed
      have before : (decodeElements sequenceElements b s).seq.SettledBefore := fun j f hj hf =>
        settled_of_all unharmed (by rw [List.getElem?_take_of_lt hj]; exact hf)
      rw [bound] at cut first before ⊢
      exact elements_cut_reset hv settled begun cut first before x
    · rw [if_neg first] at unharmed
      have settled' : (decodeElements sequenceElements b s).seq.Settled := fun j f hf => settled_of_all unharmed hf
      rw [settled'.reset]
  have begun' : (decodeElements sequenceElements b s).seq.fastReset.decoded ≠ 0 := still
  rw [sequence_begun still, sequence_begun begun', sequenceElementsFrom, sequenceElementsFrom, elements]

/-- A sequence that was cut, reset and taken up again. -/
theorem sequence_cut_reset {b : Buffer} {p : Pmap} {s : Sequence} (hv : b.Valid) (settled : s.Settled)
    (cut : (fastDecodeSequence b p s).ret = .msgPartial) (unharmed : (fastDecodeSequence b p s).field.unharmed = true)
    (q : Pmap) (x : List UInt8) :
    let r := fastDecodeSequence b p s
    fastDecodeSequence (r.buffer.receive x) q r.field.fastReset = fastDecodeSequence (r.buffer.receive x) q r.field := by
  cases length_cases b p s with
  | begun h =>
    rw [sequence_begun h] at cut unharmed ⊢
    exact elements_from_cut_reset hv settled h cut unharmed q x
  | read h ok there range =>
    have valid := (interruptible_uint.moved p s.length hv).valid hv
    have settled' : (s.withLength (fastDecodeUint b p s.length).field).Settled := settled
    have begun : (s.withLength (fastDecodeUint b p s.length).field).decoded ≠ 0 := Nat.one_ne_zero
    rw [sequence_read h ok there range] at cut unharmed ⊢
    exact elements_from_cut_reset valid settled' begun cut unharmed q x
  | short h short =>
    rw [sequence_short hv h short]
    have settled' : ({ s with length := (fastDecodeUint b p s.length).field } : Sequence).Settled := settled
    simp only [settled'.reset]
  | past h long past =>
    rw [sequence_over h long past] at cut
    exact absurd cut (length_ret_finished long)

/-! ## Messages that were cut -/

/-- The fields of a message from the cursor on are as a reset leaves them. -/
def SettledFrom (decoded : Nat) (fields : List FastField) : Prop :=
  ∀ (j : Nat) (f : FastField), decoded ≤ j → fields[j]? = some f → f.fastReset = f

theorem sequence_settled {s : Sequence} (h : (FastField.sequence s).fastReset = .sequence s) : s.Settled := by
  have head : s.head.map ElementField.fastReset = s.head := congrArg Sequence.head (FastField.sequence.inj h)
  intro j f hf
  have at_ := congrArg (·[j]?) head
  simp only [List.getElem?_map, hf, Option.map_some] at at_
  exact Option.some.inj at_

/-- A field of a message that was cut, reset and read on. -/
theorem fast_field_cut_reset {b : Buffer} {p : Pmap} {f : FastField} (hv : b.Valid) (settled : f.fastReset = f)
    (cut : (decodeFastField b p f).ret = .msgPartial)
    (unharmed : ∀ s, (decodeFastField b p f).field = .sequence s → s.unharmed = true) (x : List UInt8) :
    let r := decodeFastField b p f
    decodeFastField ((interruptedAt f b r.buffer).receive x) p r.field.fastReset =
      decodeFastField ((interruptedAt f b r.buffer).receive x) p r.field := by
  cases f with
  | elem f =>
    have again := element_cut_reset hv (FastField.elem.inj settled) cut x
    simp only [interruptedAt, decodeFastField, FastField.fastReset]
    rw [(streams_element.moved p f hv).rewind_eq, again]
  | sequence s =>
    have again := sequence_cut_reset hv (sequence_settled settled) cut (unharmed _ rfl) p x
    simp only [interruptedAt, decodeFastField, FastField.fastReset]
    exact congrArg (fun r : Decoded Sequence => (⟨r.ret, r.buffer, r.pmap, .sequence r.field⟩ : Decoded FastField)) again

/-- The fields of a message that was cut, reset and read on. -/
theorem decode_fields_cut_reset {n decoded : Nat} {b : Buffer} {p : Pmap} {fields : List FastField} (hv : b.Valid)
    (regular : RegularFields fields) (settled : SettledFrom decoded fields)
    (cut : (decodeFields n b p decoded fields).ret = .msgPartial)
    (before : ∀ j f, j < (decodeFields n b p decoded fields).decoded →
      (decodeFields n b p decoded fields).fields[j]? = some f → f.fastReset = f)
    (unharmed : ∀ s, (decodeFields n b p decoded fields).fields[(decodeFields n b p decoded fields).decoded]? =
      some (.sequence s) → s.unharmed = true) (x : List UInt8) :
    let r := decodeFields n b p decoded fields
    decodeFields (r.fields.length - r.decoded) (r.buffer.receive x) r.pmap r.decoded (r.fields.map FastField.fastReset) =
      decodeFields (r.fields.length - r.decoded) (r.buffer.receive x) r.pmap r.decoded r.fields := by
  induction n generalizing b p decoded fields with
  | zero => cases cut
  | succ n ih =>
    cases hf : fields[decoded]? with
    | none =>
      rw [decode_fields_none hf] at cut
      cases cut
    | some f =>
      have inside : decoded < fields.length := (List.getElem?_eq_some_iff.mp hf).1
      obtain ⟨moved, cursor, kept⟩ := field_moved hv p (regular f (List.mem_of_getElem? hf))
      by_cases interrupted : (decodeFastField b p f).ret = .msgPartial
      · rw [decode_fields_interrupted cursor hf interrupted] at before unharmed ⊢
        have here : (fields.set decoded (decodeFastField b p f).field)[decoded]? = some (decodeFastField b p f).field :=
          List.getElem?_set_self inside
        have again := fast_field_cut_reset hv (settled _ f (Nat.le_refl _) hf) interrupted
          (fun s hs => unharmed s (by rw [← hs]; exact here)) x
        have reset := map_settled_but (R := FastField.fastReset) here fun j g apart hg => by
          rcases Nat.lt_or_gt_of_ne apart with less | more
          · exact before j g less hg
          · rw [List.getElem?_set_ne (by omega)] at hg
            exact settled j g (Nat.le_of_lt more) hg
        obtain ⟨k, left⟩ := Nat.exists_eq_add_of_lt inside
        have left : (fields.set decoded (decodeFastField b p f).field).length - decoded = k + 1 := by
          rw [List.length_set]
          omega
        have place : ∀ after, interruptedAt (decodeFastField b p f).field.fastReset
              ((interruptedAt f b (decodeFastField b p f).buffer).receive x) after =
            interruptedAt (decodeFastField b p f).field
              ((interruptedAt f b (decodeFastField b p f).buffer).receive x) after := by
          intro after
          cases (decodeFastField b p f).field <;> rfl
        simp only [left, reset, List.set_set]
        simp only [decodeFields, List.getElem?_set_self inside, again, List.set_set, place]
      · by_cases ok : (decodeFastField b p f).ret = .ok
        · rw [decode_fields_ok hf ok] at cut before unharmed ⊢
          refine ih (moved.valid hv) (regular_fields_set regular decoded kept) ?_ cut before unharmed
          intro j g after hg
          rw [List.getElem?_set_ne (by omega)] at hg
          exact settled j g (by omega) hg
        · rw [decode_fields_refused hf ok interrupted] at cut
          exact absurd cut interrupted

/-! ## Sessions that were cut -/

theorem and_then_loaded {first next : Session → Stage} (hf : ∀ s, (first s).session.nrMessages = s.nrMessages)
    (hn : ∀ s, (next s).session.nrMessages = s.nrMessages) (s : Session) :
    (Stage.andThen first next s).session.nrMessages = s.nrMessages := by
  unfold Stage.andThen
  split
  · exact hf s
  · exact (hn _).trans (hf s)

/-- What comes in front of the fields loads no template. -/
theorem header_loaded (s : Session) : s.decodeHeader.session.nrMessages = s.nrMessages := by
  refine and_then_loaded (fun s => ?_) (and_then_loaded (fun s => ?_) fun s => ?_) s
  · unfold Session.decodePreamble
    split
    · split <;> rfl
    · rfl
  · unfold Session.decodePmap
    split
    · split <;> rfl
    · rfl
  · unfold Session.decodeTid Session.chooseTemplate
    split
    · rfl
    · split
      · rfl
      · rfl
      · split <;> rfl

namespace Session
variable {s t : Session}

/-- A reset looks at the templates only. -/
theorem reset_same (settled : s.fastSessionReset = s) (templates : t.rxMessages = s.rxMessages)
    (loaded : t.nrMessages = s.nrMessages) : t.fastSessionReset = t := by
  have slots : t.fastSessionReset.rxMessages = t.rxMessages := by
    have same := congrArg Session.rxMessages settled
    simp only [fastSessionReset] at same ⊢
    rw [templates, loaded, same]
  simp only [fastSessionReset] at slots ⊢
  rw [slots]

/-- A loaded template of a session that was reset. -/
theorem settled_slot (settled : s.fastSessionReset = s) {i : Nat} {m : Message} (slot : s.rxMessages[i]? = some m)
    (loaded : i < s.nrMessages) : m.fastMessageReset = m := by
  have same := congrArg (·[i]?) (congrArg Session.rxMessages settled)
  simp only [reset_slot, slot, Option.map_some, if_pos loaded] at same
  exact Option.some.inj same

/-- A session that was cut in a message: the template as it stands, and where the bytes and the map are. -/
def cutIn (s : Session) (i : Nat) (m : Message) (b : Buffer) (p : Pmap) : Session :=
  { s with rxBuffer := b, rxMessages := s.rxMessages.set i m, pmap := p }

/-- The reset of a session that was reset before, but for one template. -/
theorem reset_cut_in (settled : s.fastSessionReset = s) {i : Nat} {m' : Message} (slot : s.rxMessages[i]? = some m')
    (m : Message) (b : Buffer) (p : Pmap) :
    (s.cutIn i m b p).fastSessionReset = s.cutIn i (if i < s.nrMessages then m.fastMessageReset else m) b p := by
  have inside : i < s.rxMessages.length := (List.getElem?_eq_some_iff.mp slot).1
  have slots : (s.cutIn i m b p).fastSessionReset.rxMessages =
      s.rxMessages.set i (if i < s.nrMessages then m.fastMessageReset else m) := by
    refine List.ext_getElem? fun j => ?_
    have templates : (s.cutIn i m b p).rxMessages = s.rxMessages.set i m := rfl
    have loaded : (s.cutIn i m b p).nrMessages = s.nrMessages := rfl
    rw [reset_slot, templates, loaded]
    by_cases here : i = j
    · subst here
      rw [List.getElem?_set_self inside, List.getElem?_set_self inside]
      rfl
    · rw [List.getElem?_set_ne here, List.getElem?_set_ne here]
      cases there : s.rxMessages[j]? with
      | none => rfl
      | some t =>
        rw [Option.map_some]
        split
        · rename_i inside
          rw [settled_slot settled there inside]
        · rfl
  simp only [fastSessionReset] at slots ⊢
  rw [slots]
  rfl

end Session

theorem message_settled {m : Message} (settled : m.fastMessageReset = m) : SettledFrom 0 m.fields := by
  intro j f _ hf
  have same := congrArg (·[j]?) (congrArg Message.fields settled)
  simp only [Message.fastMessageReset, List.getElem?_map, hf, Option.map_some] at same
  exact Option.some.inj same

/-- The next call goes on with the fields. -/
theorem cut_in_goes_on {s : Session} {i : Nat} {m m' : Message} {b : Buffer} {p : Pmap} (done : HeaderDone s)
    (valid : p.isValid = s.pmap.isValid) (chosen : s.rxMessage = some i) (slot : s.rxMessages[i]? = some m') (x : List UInt8) :
    ((s.cutIn i m b p).receive x).fastMessageDecode = ((s.cutIn i m b p).receive x).decodeMessage i m := by
  have header : HeaderDone ((s.cutIn i m b p).receive x) := ⟨done.preamble, valid.trans done.pmap⟩
  have passed := header.passed (i := i) chosen
  have inside : i < s.rxMessages.length := (List.getElem?_eq_some_iff.mp slot).1
  have slot : ((s.cutIn i m b p).receive x).rxMessages[i]? = some m := List.getElem?_set_self inside
  have run := decode_fields_of (s := (s.cutIn i m b p).receive x) (i := i) (m := m) (by rw [passed])
    (by rw [passed]; exact chosen) (by rw [passed]; exact slot)
  rw [run, passed]

/-- A message that was cut, reset and gone on with. -/
theorem message_cut_reset {s : Session} {i : Nat} {m : Message} (hs : s.Regular) (settled : m.fastMessageReset = m)
    (slot : s.rxMessages[i]? = some m) (cut : (s.messageFields m).ret = .msgPartial)
    (unharmed : (s.resumed m).unharmed = true) (x : List UInt8) :
    let r := s.messageFields m
    ((s.cutIn i (s.resumed m).fastMessageReset r.buffer r.pmap).receive x).decodeMessage i (s.resumed m).fastMessageReset =
      ((s.cutIn i (s.resumed m) r.buffer r.pmap).receive x).decodeMessage i (s.resumed m) := by
  have regular := hs.regular m (List.mem_of_getElem? slot)
  simp only [Message.unharmed, Bool.and_eq_true] at unharmed
  have before : ∀ j f, j < (s.messageFields m).decoded → (s.messageFields m).fields[j]? = some f → f.fastReset = f := by
    intro j f hj hf
    have member : f ∈ (s.messageFields m).fields.take (s.messageFields m).decoded :=
      List.mem_of_getElem? (i := j) (by rw [List.getElem?_take_of_lt hj]; exact hf)
    exact beq_iff_eq.mp (List.all_eq_true.mp unharmed.1 f member)
  have current : ∀ q, (s.messageFields m).fields[(s.messageFields m).decoded]? = some (.sequence q) → q.unharmed = true := by
    intro q hq
    have here : (s.resumed m).fields[(s.resumed m).decoded]? = some (.sequence q) := hq
    rw [here] at unharmed
    exact unharmed.2
  have fields := decode_fields_cut_reset hs.valid regular (fun j f _ hf => message_settled settled j f (Nat.zero_le _) hf)
    cut before current x
  have run : ((s.cutIn i (s.resumed m).fastMessageReset (s.messageFields m).buffer (s.messageFields m).pmap).receive
        x).messageFields (s.resumed m).fastMessageReset =
      ((s.cutIn i (s.resumed m) (s.messageFields m).buffer (s.messageFields m).pmap).receive x).messageFields
        (s.resumed m) := by
    unfold Session.messageFields
    rw [show (s.resumed m).fastMessageReset.fields.length = (s.resumed m).fields.length from List.length_map ..]
    exact fields
  simp only [Session.decodeMessage, run]
  unfold Session.finishMessage
  split <;> simp only [Session.receive, Session.cutIn, Message.fastMessageReset, List.set_set]

/-- **A reset between two halves of a message.** A session as a reset leaves it, cut in a message in which a
second reset changes nothing that was decoded: the reset makes no difference to what comes then. -/
theorem session_cut_reset {s : Session} (hs : s.Regular) (settled : s.fastSessionReset = s)
    (cut : s.fastMessageDecode.ret = .msgPartial) (unharmed : s.fastMessageDecode.session.unharmed = true) (x : List UInt8) :
    (s.fastMessageDecode.session.fastSessionReset.receive x).fastMessageDecode =
      (s.fastMessageDecode.session.receive x).fastMessageDecode := by
  have header := Session.reset_same settled (stage_header.templates s) (header_loaded s)
  obtain ⟨ret, call, -, -⟩ | ⟨i, m, ok, hm, hi, run⟩ := decode_cases s
  · rw [call]
    simp only [header]
  · have regular := header_regular hs
    have done := header_done hs.valid ok
    generalize s.decodeHeader.session = h at hm hi regular done run header
    rw [run, decode_message_ret] at cut
    have stopped : s.fastMessageDecode.session =
        h.cutIn i (h.resumed m) (h.messageFields m).buffer (h.messageFields m).pmap := by
      rw [run, Session.decodeMessage, finish_message_failed (by rw [cut]; decide)]
      rfl
    have map : (h.messageFields m).pmap.isValid = h.pmap.isValid := (decode_fields_moved (m.fields.length - m.decoded)
      m.decoded h.pmap regular.valid (regular.regular m (List.mem_of_getElem? hi))).2.1
    have inside : i < h.rxMessages.length := (List.getElem?_eq_some_iff.mp hi).1
    have slot : (h.rxMessages.set i (h.resumed m))[i]? = some (h.resumed m) := List.getElem?_set_self inside
    have reset : (h.cutIn i (h.resumed m) (h.messageFields m).buffer (h.messageFields m).pmap).fastSessionReset =
        h.cutIn i (if i < h.nrMessages then (h.resumed m).fastMessageReset else h.resumed m)
          (h.messageFields m).buffer (h.messageFields m).pmap := Session.reset_cut_in header hi ..
    rw [stopped] at unharmed ⊢
    simp only [Session.unharmed, Session.cutIn, hm, Option.bind_some, slot] at unharmed
    rw [reset]
    by_cases loaded : i < h.nrMessages
    · have message := Session.settled_slot header hi loaded
      have again := message_cut_reset regular message hi cut unharmed x
      rw [if_pos loaded, cut_in_goes_on done map hm hi x, cut_in_goes_on done map hm hi x]
      exact again
    · rw [if_neg loaded]

/-! ## Polling -/

namespace Session

/-- What `fast_session_recv` stores of the bytes that the descriptor has. -/
def received (s : Session) (sock : List UInt8) : List UInt8 :=
  if s.fastMessageDecode.msg.isSome then [] else heard (roomMade s.fastMessageDecode.session.rxBuffer) sock

/-- The session with room made in its buffer. -/
def madeRoom (s : Session) : Session := { s with rxBuffer := roomMade s.rxBuffer }

/-- The session that `fast_session_recv` calls `fast_message_decode` on a second time. -/
def filled (s : Session) (sock : List UInt8) : Session := s.fastMessageDecode.session.madeRoom.receive (s.received sock)

/-- No call of `fast_message_decode` in `fast_session_recv` is cut where a field cannot be decoded again. -/
def recvWhole (s : Session) (sock : List UInt8) : Bool :=
  !s.cutsField && (s.received sock = [] || !(s.filled sock).cutsField)

end Session

namespace FastFeed

/-- Polls of `fast_feed_recv`, up to the first message. -/
def polls (feed : FastFeed) : List (List UInt8) → Decode
  | [] => ⟨none, .msgPartial, feed.session⟩
  | sock :: socks =>
    let d := feed.fastFeedRecv sock
    if d.msg.isSome then d else polls { feed with session := d.session } socks

/-- The bytes that are received in them. -/
def took (feed : FastFeed) : List (List UInt8) → List UInt8
  | [] => []
  | sock :: socks =>
    let d := feed.fastFeedRecv sock
    feed.prepared.received sock ++
      if d.msg.isSome then [] else took { feed with session := d.session } socks

/-- No reset harms the message under way, and no call is cut where a field cannot be decoded again. -/
def spared (feed : FastFeed) : List (List UInt8) → Bool
  | [] => true
  | sock :: socks =>
    let d := feed.fastFeedRecv sock
    feed.session.unharmed && feed.prepared.recvWhole sock &&
      (d.msg.isSome || spared { feed with session := d.session } socks)

/-- One reset and one call, with all the bytes in one piece. -/
def inOnePiece (feed : FastFeed) (bytes : List UInt8) : Decode :=
  (feed.prepared.withBytes (feed.session.rxBuffer.unread ++ bytes)).fastMessageDecode

end FastFeed

/-! ### Sessions with the same bytes -/

theorem packed_reset (s : Session) : s.fastSessionReset.packed = s.packed.fastSessionReset := rfl

theorem packed_unharmed {s t : Session} (same : s.packed = t.packed) : s.unharmed = t.unharmed := by
  have message : s.packed.rxMessage = t.packed.rxMessage := by rw [same]
  have templates : s.packed.rxMessages = t.packed.rxMessages := by rw [same]
  have message : s.rxMessage = t.rxMessage := message
  have templates : s.rxMessages = t.rxMessages := templates
  rw [Session.unharmed, Session.unharmed, message, templates]

/-- Sessions with the same bytes go on in the same way. -/
theorem packed_goes_on {s t : Session} (hs : s.Regular) (ht : t.Regular) (same : s.packed = t.packed) (x : List UInt8) :
    (s.receive x).fastMessageDecode.packed = (t.receive x).fastMessageDecode.packed := by
  rw [← decode_packed (hs.receive x), ← decode_packed (ht.receive x), Session.packed_receive hs.valid,
    Session.packed_receive ht.valid, same]

/-- A feed in the middle of a message: with what comes, a reset and a call do what a call does that has all
the bytes since the message began. -/
structure Feeding (begun : Session) (got : List UInt8) (s : Session) : Prop where
  regular : s.Regular
  same : ∀ x, (s.fastSessionReset.receive x).fastMessageDecode.packed =
    (begun.withBytes (got ++ x)).fastMessageDecode.packed

/-- A poll that waits. -/
theorem Feeding.waits {begun s s' : Session} {got x : List UInt8} (h : Feeding begun got s)
    (cut : (s.fastSessionReset.receive x).fastMessageDecode.ret = .msgPartial) (regular : s'.Regular)
    (same : s'.packed = (s.fastSessionReset.receive x).fastMessageDecode.session.packed) (unharmed : s'.unharmed = true)
    (again : ∀ y, (s'.receive y).fastMessageDecode.packed = (s.fastSessionReset.receive (x ++ y)).fastMessageDecode.packed) :
    Feeding begun (got ++ x) s' where
  regular := regular
  same y := by
    have reset := h.regular.reset.receive x
    have settled : (s.fastSessionReset.receive x).fastSessionReset = s.fastSessionReset.receive x :=
      Session.reset_same s.reset_reset rfl rfl
    have still := (packed_unharmed same).symm.trans unharmed
    have harmless := session_cut_reset reset settled cut still y
    have left := decode_regular reset
    have packed : s'.fastSessionReset.packed =
        (s.fastSessionReset.receive x).fastMessageDecode.session.fastSessionReset.packed := by
      rw [packed_reset, packed_reset, same]
    calc (s'.fastSessionReset.receive y).fastMessageDecode.packed
        = ((s.fastSessionReset.receive x).fastMessageDecode.session.fastSessionReset.receive y).fastMessageDecode.packed :=
          packed_goes_on regular.reset left.reset packed y
      _ = ((s.fastSessionReset.receive x).fastMessageDecode.session.receive y).fastMessageDecode.packed := by rw [harmless]
      _ = (s'.receive y).fastMessageDecode.packed := packed_goes_on left regular same.symm y
      _ = (s.fastSessionReset.receive (x ++ y)).fastMessageDecode.packed := again y
      _ = (begun.withBytes (got ++ x ++ y)).fastMessageDecode.packed := by rw [h.same, List.append_assoc]

/-- What has been received is not refused, or is, whatever comes behind it. -/
theorem not_refused {begun : Session} (hs : begun.Regular) {got rest : List UInt8}
    (fine : (begun.withBytes (got ++ rest)).fastMessageDecode.ret = .ok ∨
      (begun.withBytes (got ++ rest)).fastMessageDecode.ret = .msgPartial) :
    (begun.withBytes got).fastMessageDecode.ret = .ok ∨ (begun.withBytes got).fastMessageDecode.ret = .msgPartial := by
  by_cases waits : (begun.withBytes got).fastMessageDecode.ret = .msgPartial
  · exact .inr waits
  · have later := decode_receive (hs.withBytes got) waits rest
    rw [Session.with_bytes_receive] at later
    rw [later] at fine
    exact fine

theorem Decode.packed_parts {d d' : Decode} (h : d.packed = d'.packed) :
    d.msg = d'.msg ∧ d.ret = d'.ret ∧ d.session.packed = d'.session.packed := by
  cases d
  cases d'
  exact Decode.mk.inj h

namespace Session
variable {s : Session} {sock : List UInt8}

theorem recv_returned (sock : List UInt8) {m : Message} (returned : s.fastMessageDecode.msg = some m) :
    s.received sock = [] ∧ s.fastSessionRecv sock = s.fastMessageDecode := by
  constructor
  · rw [received, returned, Option.isSome_some, if_pos rfl]
  · simp only [fastSessionRecv, returned, Option.isSome_some, if_true]

/-- A call that waits, and one with what is received then. -/
theorem recv_waits (sock : List UInt8) (returned : s.fastMessageDecode.msg = none) : s.fastSessionRecv sock =
    if s.received sock = [] then ⟨none, s.fastMessageDecode.ret, s.fastMessageDecode.session.madeRoom⟩
    else (s.filled sock).fastMessageDecode := by
  have got : s.received sock = heard (roomMade s.fastMessageDecode.session.rxBuffer) sock := by
    rw [received, returned, Option.isSome_none, if_neg Bool.false_ne_true]
  simp only [fastSessionRecv, returned, Option.isSome_none, Bool.false_eq_true, if_false, filled, got, madeRoom]

/-- After a call that waits and is not cut where a field cannot be decoded again, a call with more bytes does
what it does without the first one. -/
theorem made_room_goes_on (hs : s.Regular) (uncut : s.cutsField = false) (cut : s.fastMessageDecode.ret = .msgPartial) :
    s.fastMessageDecode.session.madeRoom.Regular ∧
      s.fastMessageDecode.session.madeRoom.packed = s.fastMessageDecode.session.packed ∧
      ∀ y, (s.fastMessageDecode.session.madeRoom.receive y).fastMessageDecode.packed =
        (s.receive y).fastMessageDecode.packed := by
  have left := decode_regular hs
  have roomy : s.fastMessageDecode.session.madeRoom.Regular := ⟨(room_made left.valid).1, left.regular⟩
  have packed := packed_room left.valid
  exact ⟨roomy, packed, fun y => (packed_goes_on roomy left packed y).trans (congrArg Decode.packed (decode_again hs uncut cut y))⟩

end Session

theorem waits_of_fine {s : Session} (fine : s.fastMessageDecode.ret = .ok ∨ s.fastMessageDecode.ret = .msgPartial)
    (returned : s.fastMessageDecode.msg = none) : s.fastMessageDecode.ret = .msgPartial := by
  refine fine.resolve_left fun ok => ?_
  have some := decode_ok_iff.mp ok
  rw [returned] at some
  cases some

/-- One poll: it returns what one call returns, or it waits like that. -/
theorem Feeding.poll {begun s : Session} {got sock : List UInt8} (start : begun.Regular) (h : Feeding begun got s)
    (whole : s.fastSessionReset.recvWhole sock = true) {rest : List UInt8}
    (fine : (begun.withBytes (got ++ s.fastSessionReset.received sock ++ rest)).fastMessageDecode.ret = .ok ∨
      (begun.withBytes (got ++ s.fastSessionReset.received sock ++ rest)).fastMessageDecode.ret = .msgPartial) :
    (s.fastSessionReset.fastSessionRecv sock).msg =
        (begun.withBytes (got ++ s.fastSessionReset.received sock)).fastMessageDecode.msg ∧
      ((s.fastSessionReset.fastSessionRecv sock).msg = none →
        (s.fastSessionReset.fastSessionRecv sock).session.unharmed = true →
        Feeding begun (got ++ s.fastSessionReset.received sock) (s.fastSessionReset.fastSessionRecv sock).session) := by
  have fine := not_refused start fine
  have regular := h.regular.reset
  have first := h.same []
  rw [Session.receive_nothing, List.append_nil] at first
  obtain ⟨msg, ret, -⟩ := Decode.packed_parts first
  simp only [Session.recvWhole, Bool.and_eq_true, Bool.or_eq_true, Bool.not_eq_true', decide_eq_true_eq] at whole
  cases returned : s.fastSessionReset.fastMessageDecode.msg with
  | some m =>
    obtain ⟨nothing, run⟩ := Session.recv_returned sock returned
    rw [run, nothing, List.append_nil, ← msg]
    refine ⟨rfl, fun none => ?_⟩
    rw [returned] at none
    cases none
  | none =>
    have started := not_refused start fine
    rw [← ret] at started
    have cut := waits_of_fine started returned
    obtain ⟨roomy, packed, goes⟩ := Session.made_room_goes_on regular whole.1 cut
    have run := Session.recv_waits sock returned
    by_cases silent : s.fastSessionReset.received sock = []
    · rw [run, if_pos silent, silent, List.append_nil, ← msg, returned]
      refine ⟨rfl, fun _ unharmed => ?_⟩
      have next := h.waits (x := []) (by rw [Session.receive_nothing]; exact cut) roomy
        (by rw [Session.receive_nothing]; exact packed) unharmed goes
      rwa [List.append_nil] at next
    · rw [run, if_neg silent]
      have all := goes (s.fastSessionReset.received sock)
      obtain ⟨msg', ret', -⟩ := Decode.packed_parts (all.trans (h.same _))
      refine ⟨msg', fun none unharmed => ?_⟩
      obtain ⟨-, ret'', left⟩ := Decode.packed_parts all
      rw [← ret'] at fine
      have cut' : (s.fastSessionReset.filled sock).fastMessageDecode.ret = .msgPartial := waits_of_fine fine none
      have twice : (s.fastSessionReset.filled sock).Regular := roomy.receive _
      have uncut := whole.2.resolve_left silent
      refine h.waits (ret''.symm.trans cut') (decode_regular twice) left unharmed fun y => ?_
      have more : (s.fastSessionReset.filled sock).receive y =
          s.fastSessionReset.fastMessageDecode.session.madeRoom.receive (s.fastSessionReset.received sock ++ y) := by
        exact roomy.receive_receive (s.fastSessionReset.received sock) y
      rw [decode_again twice uncut cut' y, more]
      exact goes _

/-- Polls in the middle of a message. -/
theorem Feeding.polls {begun : Session} (start : begun.Regular) (socks : List (List UInt8)) {got sock : List UInt8}
    {feed : FastFeed} (resets : feed.reset = true) (h : Feeding begun got feed.session)
    (spared : feed.spared (sock :: socks) = true)
    (fine : (begun.withBytes (got ++ feed.took (sock :: socks))).fastMessageDecode.ret = .ok ∨
      (begun.withBytes (got ++ feed.took (sock :: socks))).fastMessageDecode.ret = .msgPartial) :
    (feed.polls (sock :: socks)).msg = (begun.withBytes (got ++ feed.took (sock :: socks))).fastMessageDecode.msg := by
  have prepared : feed.prepared = feed.session.fastSessionReset := by rw [FastFeed.prepared, if_pos resets]
  have recv : feed.fastFeedRecv sock = feed.session.fastSessionReset.fastSessionRecv sock := by
    rw [FastFeed.fastFeedRecv, prepared]
  simp only [FastFeed.spared, Bool.and_eq_true, Bool.or_eq_true] at spared
  obtain ⟨⟨-, whole⟩, later⟩ := spared
  rw [prepared] at whole
  simp only [FastFeed.took, prepared, ← List.append_assoc] at fine ⊢
  obtain ⟨msg, next⟩ := h.poll start whole fine
  rw [← recv] at msg next
  rw [FastFeed.polls]
  cases returned : (feed.fastFeedRecv sock).msg with
  | some m =>
    simp only [Option.isSome_some, if_true, List.append_nil]
    exact msg
  | none =>
    have later := later.resolve_left (by rw [returned]; decide)
    rw [returned] at fine
    simp only [Option.isSome_none, Bool.false_eq_true, if_false] at fine ⊢
    cases socks with
    | nil =>
      rw [FastFeed.polls, FastFeed.took, List.append_nil, ← msg, returned]
    | cons sock' socks =>
      have unharmed : (feed.fastFeedRecv sock).session.unharmed = true := by
        simp only [FastFeed.spared, Bool.and_eq_true] at later
        exact later.1.1
      have rest : ({ feed with session := (feed.fastFeedRecv sock).session } : FastFeed).reset = true := resets
      exact Feeding.polls start socks rest (next returned unharmed) later fine

/-- **Implicit resets.** A feed that resets before every receive returns the message that one reset and one
call return that have its bytes in one piece, however they are split over the polls, if no reset between two
of its parts changes what was decoded of it and no call is cut where a field cannot be decoded again. -/
theorem resets_in_one_piece (preambleBytes : Nat) (ts : List Template) (feed : FastFeed) (resets : feed.reset = true)
    (h : Reached preambleBytes ts feed.session) (sock : List UInt8) (socks : List (List UInt8))
    (fine : (feed.inOnePiece (feed.took (sock :: socks))).ret = .ok ∨
      (feed.inOnePiece (feed.took (sock :: socks))).ret = .msgPartial)
    (spared : feed.spared (sock :: socks) = true) :
    (feed.polls (sock :: socks)).msg = (feed.inOnePiece (feed.took (sock :: socks))).msg := by
  obtain ⟨regular, -⟩ := h.regular
  have prepared : feed.prepared = feed.session.fastSessionReset := by rw [FastFeed.prepared, if_pos resets]
  have begins : Feeding feed.session.fastSessionReset feed.session.rxBuffer.unread feed.session := by
    refine ⟨regular, fun x => ?_⟩
    rw [← decode_packed (regular.reset.receive x), Session.packed_receive regular.reset.valid, Session.packed,
      Session.with_bytes_receive]
    rfl
  simp only [FastFeed.inOnePiece, prepared] at fine ⊢
  exact begins.polls regular.reset socks resets spared fine

/-- A feed that resets, with the template of two numbers. -/
def pairFeed : FastFeed := ⟨newSession 0 [pairTemplate], true⟩

/-- The numbers of the message that is returned. -/
def Decode.numbers (d : Decode) : List U64 := (d.msg.map fun m => Outcome.numbers (.message m)).getD []

/-- A message cut behind its template id. -/
theorem pair_in_one_piece :
    (pairFeed.polls [[0xC0, 0x81], [0x85, 0x86]]).msg =
      (pairFeed.inOnePiece (pairFeed.took [[0xC0, 0x81], [0x85, 0x86]])).msg :=
  resets_in_one_piece 0 [pairTemplate] pairFeed rfl .opened _ _ (by decide +kernel) (by decide +kernel)

/-- A message cut between its two numbers: the first one is reset. -/
theorem pair_reset :
    (pairFeed.inOnePiece [0xC0, 0x81, 0x85, 0x86]).numbers = [5, 6] ∧
      pairFeed.took [[0xC0, 0x81, 0x85], [0x86]] = [0xC0, 0x81, 0x85, 0x86] ∧
      (pairFeed.polls [[0xC0, 0x81, 0x85], [0x86]]).numbers = [0, 6] := by
  decide +kernel

end Libtrading.Fast
