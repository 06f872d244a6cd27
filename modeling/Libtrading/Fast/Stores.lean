import Libtrading.Fast.AsciiDelta

/-!
# Stores into a field

The runs of bytes that the string and vector decoders store into the array of a field, as the source makes
them: characters and their terminator, the copy of an initial value, the two moves of an ASCII delta, and
the bytes of a counted value with the zero bytes behind them. All others stay inside of the array; a
counted value has no bound but the bytes received, and an initial value none but what was loaded.
-/

namespace Libtrading.Fast
set_option autoImplicit false
open Buffer

/-- A run of stores: `count` bytes from index `start` on. -/
structure Store where
  start : Nat
  count : Nat
  deriving DecidableEq, Repr

/-- What the decoders store into the array, with a value off the wire, an initial value, or a delta. -/
structure Stores where
  read : Buffer → Field Bytes → List Store
  load : Bytes → List Store
  delta : Buffer → Field Bytes → List Store

/-- The characters of `parse_string`, and the terminator behind them. -/
def stringStores (r : StringRead) : List Store := if r.ret = .ok then [⟨0, r.len⟩, ⟨r.len, 1⟩] else [⟨0, r.len⟩]

/-- `memcpy` of `strlen + 1` bytes. -/
def copyStores (reset : Bytes) : List Store := [⟨0, (cstr reset).length + 1⟩]

/-- `parse_bytes` and `memset`; an `int` length that is negative or more than there is stores nothing. -/
def countedStores (b : Buffer) (f : Field Bytes) : List Store :=
  match parseUint b with
  | .fail .. => []
  | .done v b =>
    if !f.isMandatory && v = 0 then []
    else
      let len := if f.isMandatory then v else v - 1
      let int : BitVec 32 := len.setWidth 32
      if int.msb ∨ b.bufferSize < int.toNat then [] else [⟨0, int.toNat⟩, ⟨len.toNat, zeroFill⟩]

/-- `strncpy`, or `memmove` and `strncpy`, of an ASCII delta that is not refused. -/
def splicedStores (value delta : Bytes) (length : I64) : List Store :=
  if (spliceAscii value delta length).isNone then []
  else
    let lenb := (cstr value).length
    let lend := (cstr delta).length
    if (0 : I64).sle length then [⟨lenb - length.toNat, lend + 1⟩]
    else
      let k := (-(length + 1)).toNat
      [⟨lend, lenb - k + 1⟩, ⟨0, lend⟩]

/-- The stores of `FAST_OP_DELTA` of `fast_decode_ascii`. -/
def deltaStores (b : Buffer) (f : Field Bytes) : List Store :=
  match parseInt b with
  | .fail .. => []
  | .done v b =>
    if !f.isMandatory && v = 0 then []
    else
      let r := parseString b deltaScratch deltaScratch.length
      if r.ret ≠ .ok then [] else splicedStores f.value r.value (adjustInt f v)

def asciiStores : Stores :=
  ⟨fun b f => stringStores (parseString b f.value stringMaxBytes), copyStores, deltaStores⟩
def unicodeStores : Stores := ⟨countedStores, copyStores, fun _ _ => []⟩
def vectorStores : Stores := ⟨countedStores, fun _ => [⟨0, stringMaxBytes⟩], fun _ _ => []⟩

/-- The value is on the wire. -/
def Field.onWire {α : Type} (f : Field α) (p : Pmap) : Bool :=
  match f.op with
  | .none => true
  | .copy | .default => p.next.pmapIsSet
  | .incr | .delta | .constant => false

/-- The initial value is copied. -/
def Field.loads {α : Type} (f : Field α) (p : Pmap) : Bool :=
  match f.op with
  | .copy => !p.next.pmapIsSet && f.state = .undefined && f.hasReset
  | .default => !p.next.pmapIsSet && f.hasReset
  | .constant => f.state ≠ .assigned
  | .none | .incr | .delta => false

/-- The stores of a decoder. -/
def Stores.decode (S : Stores) (b : Buffer) (p : Pmap) (f : Field Bytes) : List Store :=
  if f.onWire p then S.read b f
  else if f.loads p then S.load f.reset
  else if f.op = .delta then S.delta b f
  else []

/-- No store at an index from `FAST_STRING_MAX_BYTES` on. -/
def Inside (stores : List Store) : Prop := ∀ s ∈ stores, s.start + s.count ≤ stringMaxBytes

/-! ## The stores account for the array -/

/-- The stores leave an index alone. -/
def Spares (stores : List Store) (i : Nat) : Prop := ∀ s ∈ stores, i < s.start ∨ s.start + s.count ≤ i

/-- The stores of a decoder are all there is: the rest of the array stays. -/
structure Kind.StoredBy (K : Kind Bytes) (S : Stores) : Prop where
  read : ∀ {b f i}, f.value.length = stringMaxBytes → Spares (S.read b f) i → (K.read b f).field.value[i]? = f.value[i]?
  load : ∀ {value reset i}, value.length = stringMaxBytes → reset.length = stringMaxBytes →
    Spares (S.load reset) i → (K.load value reset)[i]? = value[i]?
  delta : ∀ {delta b f i}, K.delta = some delta → Spares (S.delta b f) i → (delta b f).field.value[i]? = f.value[i]?
  incr : K.incr = none

theorem Spares.head {s : Store} {stores : List Store} {i : Nat} (h : Spares (s :: stores) i) :
    i < s.start ∨ s.start + s.count ≤ i := h s List.mem_cons_self

theorem Spares.tail {s : Store} {stores : List Store} {i : Nat} (h : Spares (s :: stores) i) : Spares stores i :=
  fun t ht => h t (List.mem_cons_of_mem _ ht)

/-- Behind what was written and its terminator. -/
theorem behind_terminator {w value : Bytes} {i : Nat} (h : w.length + 1 ≤ i) :
    (w ++ 0 :: value.drop (w.length + 1))[i]? = value[i]? := by
  rw [List.getElem?_append_right (by omega), List.getElem?_cons, if_neg (by omega), List.getElem?_drop]
  congr 1
  omega

theorem parse_string_from_after {room len i : Nat} {value : List UInt8} {b : Buffer}
    (h : Spares (stringStores (parseStringFrom room len value b)) i) :
    (parseStringFrom room len value b).value[i]? = value[i]? := by
  have reach : len ≤ (parseStringFrom room len value b).len ∧
      (((parseStringFrom room len value b).len ≤ i ∧
        ((parseStringFrom room len value b).ret = .ok → (parseStringFrom room len value b).len + 1 ≤ i)) →
      (parseStringFrom room len value b).value[i]? = value[i]?) := by
    clear h
    induction room generalizing len value b with
    | zero => exact ⟨Nat.le_refl _, fun _ => rfl⟩
    | succ room ih =>
      unfold parseStringFrom
      split
      · exact ⟨Nat.le_refl _, fun _ => rfl⟩
      · rename_i c b' _
        split
        · refine ⟨Nat.le_succ _, fun ⟨_, behind⟩ => ?_⟩
          have behind := behind rfl
          simp only at behind ⊢
          rw [List.getElem?_set_ne (by omega), List.getElem?_set_ne (by omega)]
        · obtain ⟨le, same⟩ := @ih (len + 1) (value.set len c) b'
          refine ⟨by omega, fun outside => ?_⟩
          rw [same outside, List.getElem?_set_ne (by omega)]
  unfold stringStores at h
  split at h
  · rename_i ok
    have first := h.head
    have second := h.tail.head
    simp only at first second
    exact reach.2 ⟨by omega, fun _ => by omega⟩
  · rename_i failed
    have first := h.head
    simp only at first
    exact reach.2 ⟨by omega, fun ok => absurd ok failed⟩

theorem strcpy_after {value reset : Bytes} {i : Nat} (h : Spares (copyStores reset) i) :
    (strcpy value reset)[i]? = value[i]? := by
  have behind := h.head
  simp only at behind
  exact behind_terminator (by omega)

theorem splice_after {value delta r : Bytes} {length : I64} {i : Nat} (spliced : spliceAscii value delta length = some r)
    (h : Spares (splicedStores value delta length) i) : r[i]? = value[i]? := by
  have inside : (cstr value).length ≤ value.length := (List.takeWhile_prefix _).length_le
  unfold splicedStores at h
  rw [spliced] at h
  unfold spliceAscii at spliced
  by_cases back : (0 : I64).sle length = true
  · simp only [back, if_true, Option.isNone_some, Bool.false_eq_true, if_false] at h spliced
    split at spliced
    · cases spliced
    · split at spliced
      · cases spliced
      · obtain rfl := Option.some.inj spliced
        have size : (value.take ((cstr value).length - length.toNat)).length = (cstr value).length - length.toNat := by
          rw [List.length_take]
          omega
        rcases h.head with before | behind
        · simp only at before
          rw [List.append_assoc, List.getElem?_append_left (by omega), List.getElem?_take_of_lt before]
        · simp only at behind
          have both : (value.take ((cstr value).length - length.toNat) ++ cstr delta).length =
              (cstr value).length - length.toNat + (cstr delta).length := by rw [List.length_append, size]
          rw [← both]
          exact behind_terminator (by omega)
  · simp only [back, Option.isNone_some, Bool.false_eq_true, if_false] at h spliced
    split at spliced
    · cases spliced
    · split at spliced
      · cases spliced
      · obtain rfl := Option.some.inj spliced
        have first := h.head
        have second := h.tail.head
        simp only at first second
        have size : (cstr delta ++ (value.take (cstr value).length).drop (-(length + 1)).toNat).length =
            (cstr value).length - (-(length + 1)).toNat + (cstr delta).length := by
          rw [List.length_append, List.length_drop, List.length_take]
          omega
        rw [← size]
        exact behind_terminator (by omega)

theorem length_take_bytes (n : Nat) (b : Buffer) : (takeBytes n b).1.length = n := by
  induction n generalizing b with
  | zero => rfl
  | succ n ih => exact congrArg (· + 1) (ih _)

/-- What `parse_bytes` stores is in front of the rest of the array. -/
theorem parse_bytes_array {b b' : Buffer} {value value' : Bytes} {len : BitVec 32}
    (h : parseBytes b value len = .done value' b') :
    value'.length = value.length ∧ ∀ i, len.toNat ≤ i → value'[i]? = value[i]? := by
  unfold parseBytes at h
  split at h
  · cases h
  · split at h
    · cases h
    · rename_i inside
      obtain ⟨rfl, -⟩ := Parse.done.inj h
      have length := length_take_bytes len.toNat b
      refine ⟨by rw [List.length_append, List.length_drop, length]; omega, fun i hi => ?_⟩
      rw [List.getElem?_append_right (by omega), List.getElem?_drop, length]
      congr 1
      omega

theorem terminate_array {f : Field Bytes} {len : U64} {value : Bytes} {b : Buffer} {i : Nat}
    (size : value.length = stringMaxBytes) (h : i < len.toNat ∨ len.toNat + zeroFill ≤ i) :
    (terminateVector f len value b).field.value[i]? = value[i]? := by
  unfold terminateVector
  split
  · rfl
  · rename_i fits
    have front : (value.take len.toNat).length = len.toNat := by rw [List.length_take]; omega
    have fill : (value.take len.toNat ++ List.replicate zeroFill 0).length = len.toNat + zeroFill := by
      rw [List.length_append, front, List.length_replicate]
    simp only
    rcases h with before | behind
    · rw [List.append_assoc, List.getElem?_append_left (by omega), List.getElem?_take_of_lt before]
    · rw [List.getElem?_append_right (by omega), List.getElem?_drop, fill]
      congr 1
      omega

theorem counted_array {b : Buffer} {f : Field Bytes} {i : Nat} (size : f.value.length = stringMaxBytes)
    (h : Spares (countedStores b f) i) : (readVector b f).field.value[i]? = f.value[i]? := by
  unfold countedStores at h
  unfold readVector readNullable
  cases parsed : parseUint b with
  | fail ret b₁ => rfl
  | done v b₁ =>
    rw [parsed] at h
    have same : (Field.isMandatory { f with state := .assigned }) = f.isMandatory := rfl
    simp only [same] at h ⊢
    split
    · rfl
    · rename_i some
      rw [if_neg some] at h
      unfold readCounted
      simp only [same]
      generalize (if f.isMandatory = true then v else v - 1) = len at h ⊢
      cases bytes : parseBytes b₁ f.value (len.setWidth 32) with
      | fail ret b₂ => rfl
      | done value b₂ =>
        have there : ¬((len.setWidth 32).msb = true ∨ b₁.bufferSize < (len.setWidth 32).toNat) := by
          intro short
          rw [parseBytes, if_pos short] at bytes
          cases bytes
        rw [if_neg there] at h
        obtain ⟨length, rest⟩ := parse_bytes_array bytes
        have first := h.head
        have second := h.tail.head
        simp only at first second
        exact (terminate_array (length.trans size) second).trans (rest i (by omega))

theorem delta_array {b : Buffer} {f : Field Bytes} {i : Nat} (h : Spares (deltaStores b f) i) :
    (readAsciiDelta b f).field.value[i]? = f.value[i]? := by
  unfold deltaStores at h
  unfold readAsciiDelta readNullable
  cases parsed : parseInt b with
  | fail ret b₁ => rfl
  | done v b₁ =>
    rw [parsed] at h
    have same : (Field.isMandatory { f with state := .assigned }) = f.isMandatory := rfl
    have shift : adjustInt { f with state := .assigned } v = adjustInt f v := rfl
    simp only [same] at h ⊢
    split
    · rfl
    · rename_i some
      rw [if_neg some] at h
      unfold readSpliced assignAsciiDelta
      rw [shift]
      split
      · rfl
      · rename_i ok
        rw [if_neg ok] at h
        cases spliced : spliceAscii f.value (parseString b₁ deltaScratch deltaScratch.length).value (adjustInt f v) with
        | none => rfl
        | some r => exact splice_after spliced h

theorem ascii_stored : asciiKind.StoredBy asciiStores where
  read {b f i} _ h := by
    have stored := parse_string_from_after h
    have value : (readAscii b f).field.value = (parseString b f.value stringMaxBytes).value := by
      unfold readAscii assignAscii
      simp only
      split
      · rfl
      · split <;> rfl
    exact (congrArg (·[i]?) value).trans stored
  load _ _ h := strcpy_after h
  delta := by
    rintro delta b f i ⟨⟩ h
    exact delta_array h
  incr := rfl

theorem unicode_stored : unicodeKind.StoredBy unicodeStores where
  read size h := counted_array size h
  load _ _ h := strcpy_after h
  delta := by rintro delta b f i ⟨⟩
  incr := rfl

theorem vector_stored : vectorKind.StoredBy vectorStores where
  read size h := counted_array size h
  load {value reset i} size size' h := by
    have behind := h.head
    simp only at behind
    have value_none : value[i]? = none := List.getElem?_eq_none (by omega)
    have reset_none : reset[i]? = none := List.getElem?_eq_none (by omega)
    exact reset_none.trans value_none.symm
  delta := by rintro delta b f i ⟨⟩
  incr := rfl

theorem Kind.StoredBy.initial {K : Kind Bytes} {S : Stores} (h : K.StoredBy S) {f : Field Bytes} {i : Nat}
    (value : f.value.length = stringMaxBytes) (reset : f.reset.length = stringMaxBytes)
    (spares : f.hasReset = true → Spares (S.load f.reset) i) : (initialValue K f).2.value[i]? = f.value[i]? := by
  unfold initialValue
  split
  · rename_i has
    exact h.load value reset (spares has)
  · split <;> rfl

/-- **The rest of the array.** A decoder changes the array of its field only where it stores. -/
theorem Kind.StoredBy.decode {K : Kind Bytes} {S : Stores} (h : K.StoredBy S) {b : Buffer} {p : Pmap} {f : Field Bytes}
    {i : Nat} (value : f.value.length = stringMaxBytes) (reset : f.reset.length = stringMaxBytes)
    (spares : Spares (S.decode b p f) i) : (decodeField K b p f).field.value[i]? = f.value[i]? := by
  unfold Stores.decode Field.onWire Field.loads at spares
  unfold decodeField
  cases op : f.op with
  | none =>
    simp only [op, if_true] at spares
    exact h.read value spares
  | copy =>
    simp only [op] at spares
    simp only [decodePresent]
    cases set : p.next.pmapIsSet with
    | true =>
      simp only [set, if_true] at spares ⊢
      exact h.read value spares
    | false =>
      simp only [set, Bool.false_eq_true, if_false, Bool.not_false, Bool.true_and] at spares ⊢
      unfold previousValue
      cases state : f.state with
      | undefined =>
        refine h.initial value reset fun has => ?_
        rw [if_pos (by simp [state, has])] at spares
        exact spares
      | assigned => rfl
      | empty =>
        simp only [emptyValue]
        split <;> rfl
  | incr =>
    simp only [h.incr]
  | delta =>
    simp only [op, Bool.false_eq_true, if_false, if_true] at spares
    cases delta : K.delta with
    | none => rfl
    | some d => exact h.delta delta spares
  | default =>
    simp only [op] at spares
    simp only [decodePresent]
    cases set : p.next.pmapIsSet with
    | true =>
      simp only [set, if_true] at spares ⊢
      exact h.read value spares
    | false =>
      simp only [set, Bool.false_eq_true, if_false, Bool.not_false, Bool.true_and] at spares ⊢
      refine h.initial value reset fun has => ?_
      rw [if_pos has] at spares
      exact spares
  | constant =>
    simp only [op, Bool.false_eq_true, if_false] at spares
    have constant : (constantValue K f).value[i]? = f.value[i]? := by
      unfold constantValue
      by_cases assigned : f.state = .assigned
      · simp only [assigned, ne_eq, not_true_eq_false, if_false]
      · simp only [assigned, ne_eq, not_false_eq_true, if_true]
        rw [if_pos (by simp [assigned])] at spares
        exact h.load value reset spares
    simp only [decodeConstant]
    split
    · exact constant
    · split <;> exact constant

/-! ## Stores inside of the array -/

/-- A counted value whose bytes are there, and whose zero bytes end behind the array. -/
def Overruns (b : Buffer) (p : Pmap) (f : Field Bytes) : Prop :=
  f.onWire p = true ∧ ∃ v b₁, parseUint b = .done v b₁ ∧ (f.isMandatory = true ∨ v ≠ 0) ∧
    let len := if f.isMandatory then v else v - 1
    (len.setWidth 32 : BitVec 32).msb = false ∧ (len.setWidth 32 : BitVec 32).toNat ≤ b₁.bufferSize ∧
      stringMaxBytes < len.toNat + zeroFill

/-- An initial value that is copied is, with its terminator, no longer than the array. -/
def LoadFits (p : Pmap) (f : Field Bytes) : Prop :=
  f.loads p = true → (cstr f.reset).length < stringMaxBytes

/-- Every store is inside of the array, or the field is reported. -/
def InsideOrGarbled (stores : List Store) (r : Decoded (Field Bytes)) : Prop := Inside stores ∨ r.ret = .garbled

theorem on_wire_ret {K : Kind Bytes} {b : Buffer} {p : Pmap} {f : Field Bytes} (wire : f.onWire p = true) :
    (decodeField K b p f).ret = (K.read b f).ret := by
  unfold Field.onWire at wire
  unfold decodeField
  cases op : f.op with
  | none => rfl
  | copy =>
    simp only [op] at wire
    simp only [decodePresent, wire, if_true]
    rfl
  | default =>
    simp only [op] at wire
    simp only [decodePresent, wire, if_true]
    rfl
  | incr => simp only [op, Bool.false_eq_true] at wire
  | delta => simp only [op, Bool.false_eq_true] at wire
  | constant => simp only [op, Bool.false_eq_true] at wire

/-- An initial value is copied without a failure, and not where there is a value on the wire. -/
theorem loads_ret {K : Kind Bytes} {b : Buffer} {p : Pmap} {f : Field Bytes} (loads : f.loads p = true) :
    (decodeField K b p f).ret = .ok ∧ f.onWire p = false := by
  unfold Field.loads at loads
  unfold Field.onWire decodeField
  cases op : f.op with
  | none => simp only [op, Bool.false_eq_true] at loads
  | incr => simp only [op, Bool.false_eq_true] at loads
  | delta => simp only [op, Bool.false_eq_true] at loads
  | copy =>
    simp only [op, Bool.and_eq_true, Bool.not_eq_true', decide_eq_true_eq] at loads
    obtain ⟨⟨clear, state⟩, has⟩ := loads
    simp only [decodePresent, clear, Bool.false_eq_true, if_false, previousValue, state, initialValue, has, if_true,
      and_self]
  | default =>
    simp only [op, Bool.and_eq_true, Bool.not_eq_true'] at loads
    obtain ⟨clear, has⟩ := loads
    simp only [decodePresent, clear, Bool.false_eq_true, if_false, initialValue, has, if_true, and_self]
  | constant =>
    simp only [decodeConstant, and_true]
    split
    · rfl
    · split <;> rfl

section
variable {b : Buffer} {p : Pmap} {f : Field Bytes}

theorem string_stores_inside (value : Bytes) : Inside (stringStores (parseString b value stringMaxBytes)) := by
  have bound : ∀ (room len : Nat) (value : Bytes) (b : Buffer), (parseStringFrom room len value b).len ≤ len + room := by
    intro room
    induction room with
    | zero => exact fun len value b => Nat.le_refl _
    | succ room ih =>
      intro len value b
      unfold parseStringFrom
      split
      · exact Nat.le_add_right ..
      · rename_i c b' _
        split
        · simp only
          omega
        · have := ih (len + 1) (value.set len c) b'
          omega
  have short : (parseString b value stringMaxBytes).len ≤ 255 := by
    have := bound (stringMaxBytes - 1) 0 value b
    simp only [stringMaxBytes] at this
    exact this
  intro s hs
  unfold stringStores at hs
  simp only [stringMaxBytes]
  split at hs
  · rcases List.mem_cons.1 hs with rfl | hs
    · simp only
      omega
    · rw [List.mem_singleton.1 hs]
      simp only
      omega
  · rw [List.mem_singleton.1 hs]
    simp only
    omega

theorem spliced_stores_inside (value delta : Bytes) (length : I64) : Inside (splicedStores value delta length) := by
  intro s hs
  unfold splicedStores at hs
  split at hs
  · cases hs
  · rename_i spliced
    unfold spliceAscii at spliced
    by_cases back : (0 : I64).sle length = true
    · simp only [back, if_true] at hs spliced
      rw [List.mem_singleton.1 hs]
      split at spliced
      · exact absurd rfl spliced
      · split at spliced
        · exact absurd rfl spliced
        · simp only
          omega
    · simp only [back, Bool.false_eq_true, if_false] at hs spliced
      split at spliced
      · exact absurd rfl spliced
      · split at spliced
        · exact absurd rfl spliced
        · rcases List.mem_cons.1 hs with rfl | hs
          · simp only
            omega
          · rw [List.mem_singleton.1 hs]
            simp only
            omega

theorem delta_stores_inside : Inside (deltaStores b f) := by
  intro s hs
  unfold deltaStores at hs
  split at hs
  · cases hs
  · split at hs
    · cases hs
    · simp only at hs
      split at hs
      · cases hs
      · exact spliced_stores_inside _ _ _ s hs

theorem copy_inside_iff (reset : Bytes) : Inside (copyStores reset) ↔ (cstr reset).length < stringMaxBytes := by
  constructor
  · intro inside
    have := inside _ List.mem_cons_self
    simp only at this
    omega
  · intro fits s hs
    rw [List.mem_singleton.1 hs]
    simp only
    omega

/-- The number on the wire is no `NULL`. -/
theorem not_null_iff {v : U64} : ¬(!f.isMandatory && decide (v = 0)) = true ↔ f.isMandatory = true ∨ v ≠ 0 := by
  rw [Bool.and_eq_true, Bool.not_eq_true', decide_eq_true_eq, not_and_or, Bool.not_eq_false]

theorem counted_inside (wire : f.onWire p = true) (fits : ¬Overruns b p f) : Inside (countedStores b f) := by
  intro s hs
  unfold countedStores at hs
  cases parsed : parseUint b with
  | fail ret b₁ => rw [parsed] at hs; cases hs
  | done v b₁ =>
    rw [parsed] at hs
    simp only at hs
    split at hs
    · cases hs
    · rename_i some
      obtain ⟨len, same⟩ : ∃ len : U64, (if f.isMandatory then v else v - 1) = len := ⟨_, rfl⟩
      rw [same] at hs
      split at hs
      · cases hs
      · rename_i there
        simp only [not_or, Bool.not_eq_true, Nat.not_lt] at there
        have inside : len.toNat + zeroFill ≤ stringMaxBytes := by
          by_contra long
          exact fits ⟨wire, v, b₁, parsed, not_null_iff.1 some, same ▸ there.1, same ▸ there.2, by rw [same]; omega⟩
        have narrow : (len.setWidth 32 : BitVec 32).toNat ≤ len.toNat := by
          rw [BitVec.toNat_setWidth]
          exact Nat.mod_le ..
        rcases List.mem_cons.1 hs with rfl | hs
        · simp only
          omega
        · rw [List.mem_singleton.1 hs]
          exact inside

/-- A value that overruns is stored behind the array, and the call says nothing of it. -/
theorem overruns_stores (h : Overruns b p f) : ¬Inside (countedStores b f) ∧ (readVector b f).ret = .fault := by
  obtain ⟨-, v, b₁, parsed, here, positive, there, long⟩ := h
  have some := not_null_iff.2 here
  have go : ¬(((if f.isMandatory then v else v - 1).setWidth 32 : BitVec 32).msb = true ∨
      b₁.bufferSize < ((if f.isMandatory then v else v - 1).setWidth 32 : BitVec 32).toNat) := by
    rw [positive]
    simp only [Bool.false_eq_true, false_or, Nat.not_lt]
    exact there
  constructor
  · intro inside
    unfold countedStores at inside
    rw [parsed] at inside
    simp only [if_neg some, if_neg go] at inside
    have := inside _ (List.mem_cons_of_mem _ List.mem_cons_self)
    simp only at this
    omega
  · have same : Field.isMandatory { f with state := .assigned } = f.isMandatory := rfl
    unfold readVector readNullable
    rw [parsed]
    simp only [same, if_neg some, readCounted]
    generalize (if f.isMandatory = true then v else v - 1) = len at positive there long go ⊢
    unfold parseBytes
    rw [if_neg go]
    by_cases room : f.value.length < (len.setWidth 32 : BitVec 32).toNat
    · simp only [if_pos room]
    · simp only [if_neg room, terminateVector, if_pos long]

/-- The stores of a decoder, where the value is on the wire, where the initial value is copied, for a delta,
and otherwise. -/
theorem stores_decode (S : Stores) :
    (f.onWire p = true → S.decode b p f = S.read b f) ∧ (f.loads p = true → S.decode b p f = S.load f.reset) ∧
      (f.onWire p = false → f.loads p = false → S.decode b p f = if f.op = .delta then S.delta b f else []) := by
  unfold Stores.decode
  refine ⟨fun wire => if_pos wire, fun loads => ?_, fun wire loads => ?_⟩
  · have wire := (loads_ret (K := asciiKind) (b := b) loads).2
    rw [wire, loads]
    rfl
  · rw [wire, loads]
    rfl

/-- Every store is inside, where those of the three occasions are. -/
theorem stores_inside {S : Stores} (read : f.onWire p = true → Inside (S.read b f))
    (load : f.loads p = true → Inside (S.load f.reset)) (delta : Inside (S.delta b f)) : Inside (S.decode b p f) := by
  obtain ⟨wire_eq, loads_eq, rest_eq⟩ := stores_decode (b := b) (p := p) (f := f) S
  cases wire : f.onWire p with
  | true =>
    rw [wire_eq wire]
    exact read wire
  | false =>
    cases loads : f.loads p with
    | true =>
      rw [loads_eq loads]
      exact load loads
    | false =>
      rw [rest_eq wire loads]
      split
      · exact delta
      · exact fun s hs => by cases hs

/-- An initial value that does not fit is copied, and the call succeeds. -/
theorem load_fits {K : Kind Bytes} {S : Stores} (copies : S.load = copyStores)
    (h : InsideOrGarbled (S.decode b p f) (decodeField K b p f)) : LoadFits p f := by
  intro loads
  obtain ⟨ok, -⟩ := loads_ret (K := K) (b := b) loads
  rcases h with inside | garbled
  · rw [(stores_decode S).2.1 loads, copies] at inside
    exact (copy_inside_iff _).1 inside
  · rw [ok] at garbled
    cases garbled

theorem not_overruns {K : Kind Bytes} {S : Stores} (read : K.read = readVector) (counted : S.read = countedStores)
    (h : InsideOrGarbled (S.decode b p f) (decodeField K b p f)) : ¬Overruns b p f := by
  intro behind
  obtain ⟨outside, fault⟩ := overruns_stores behind
  rcases h with inside | garbled
  · rw [(stores_decode S).1 behind.1, counted] at inside
    exact outside inside
  · rw [on_wire_ret behind.1, read, fault] at garbled
    cases garbled

/-- **Stores stay inside.** Every store of an ASCII decoder is inside of the array of the field where an
initial value that is copied fits it; of a unicode and a vector decoder, where no counted value runs over. -/
theorem stores_inside_iff (b : Buffer) (p : Pmap) (f : Field Bytes) :
    (InsideOrGarbled (asciiStores.decode b p f) (fastDecodeAscii b p f) ↔ LoadFits p f) ∧
      (InsideOrGarbled (unicodeStores.decode b p f) (fastDecodeUnicode b p f) ↔ LoadFits p f ∧ ¬Overruns b p f) ∧
      (InsideOrGarbled (vectorStores.decode b p f) (fastDecodeVector b p f) ↔ ¬Overruns b p f) := by
  have none : Inside [] := fun s hs => by cases hs
  refine ⟨⟨fun h => load_fits rfl h, fun fits => .inl ?_⟩, ⟨fun h => ⟨load_fits rfl h, not_overruns rfl rfl h⟩, ?_⟩,
    ⟨fun h => not_overruns rfl rfl h, fun fits => .inl ?_⟩⟩
  · exact stores_inside (fun _ => string_stores_inside f.value) (fun loads => (copy_inside_iff _).2 (fits loads))
      delta_stores_inside
  · rintro ⟨fits, short⟩
    exact .inl (stores_inside (fun wire => counted_inside wire short) (fun loads => (copy_inside_iff _).2 (fits loads)) none)
  · refine stores_inside (fun wire => counted_inside wire fits) (fun _ s hs => ?_) none
    rw [List.mem_singleton.1 hs]
    exact Nat.le_of_eq (Nat.zero_add _)

end

/-! ## A counted value -/

/-- A mandatory field with counted bytes, without an operator. -/
def countedField : Field Bytes := vectorInit ⟨"Data", .mandatory, .none, none⟩

/-- **Behind the array.** The length `2 ^ 32`, with no byte behind it, is 0 to `parse_bytes`; the zero bytes
are stored 4 GiB behind the array. With 249 bytes, which all fit, the last zero byte is behind it. -/
theorem zero_bytes_behind :
    (vectorStores.decode (bufferPuts (bufferNew 8) [0x10, 0, 0, 0, 0x80]) Pmap.empty countedField = [⟨0, 0⟩, ⟨2 ^ 32, 8⟩] ∧
      ¬InsideOrGarbled (vectorStores.decode (bufferPuts (bufferNew 8) [0x10, 0, 0, 0, 0x80]) Pmap.empty countedField)
        (fastDecodeVector (bufferPuts (bufferNew 8) [0x10, 0, 0, 0, 0x80]) Pmap.empty countedField)) ∧
    unicodeStores.decode (bufferPuts (bufferNew 251) ([0x01, 0xF9] ++ List.replicate 249 0x41)) Pmap.empty countedField =
      [⟨0, 249⟩, ⟨249, 8⟩] := by
  refine ⟨⟨by decide +kernel, fun inside => ?_⟩, by decide +kernel⟩
  have behind : Overruns (bufferPuts (bufferNew 8) [0x10, 0, 0, 0, 0x80]) Pmap.empty countedField :=
    ⟨rfl, 2 ^ 32, _, rfl, .inl rfl, by decide +kernel, by decide +kernel, by decide +kernel⟩
  exact not_overruns rfl rfl inside behind

end Libtrading.Fast
