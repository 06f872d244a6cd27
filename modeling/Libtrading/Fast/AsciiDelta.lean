import Libtrading.Fast.Strings

/-!
# The delta of an ASCII string

A signed number says how many characters of the string before go: at its end, or, in an excess-one
encoding of the negative numbers, at its beginning. The characters that come with it take their place. The
source moves them inside the array of the string; what a reader of the array sees is the string of the rule.
-/

namespace Libtrading.Fast
set_option autoImplicit false
open Buffer

/-! ## The rule -/

/-- How many characters a subtraction length takes away. -/
def cutLength (length : Int) : Nat := if 0 ≤ length then length.toNat else (-(length + 1)).toNat

/-- The string that a delta makes of a base. -/
def spliced (base delta : Bytes) (length : Int) : Bytes :=
  if 0 ≤ length then base.take (base.length - cutLength length) ++ delta else delta ++ base.drop (cutLength length)

/-- The subtraction length of a field, from the number on the wire: one less above zero where the field is
optional. -/
def subtractionLength (f : Field Bytes) (v : I64) : Int :=
  if f.isMandatory = false ∧ 0 < v.toInt then v.toInt - 1 else v.toInt

theorem length_spliced {base delta : Bytes} {length : Int} (inside : cutLength length ≤ base.length) :
    (spliced base delta length).length = base.length - cutLength length + delta.length := by
  unfold spliced
  split
  · rw [List.length_append, List.length_take]
    omega
  · rw [List.length_append, List.length_drop]
    omega

theorem adjust_int_subtraction (f : Field Bytes) (v : I64) : (adjustInt f v).toInt = subtractionLength f v := by
  have above : (0 : I64).slt v = true ↔ 0 < v.toInt := by
    rw [BitVec.slt_iff_toInt_lt]
    exact Iff.rfl
  unfold adjustInt subtractionLength
  by_cases optional : f.isMandatory = false ∧ 0 < v.toInt
  · obtain ⟨null, positive⟩ := optional
    have shifted : (!f.isMandatory && (0 : I64).slt v) = true := by
      rw [null, Bool.not_false, Bool.true_and]
      exact above.2 positive
    rw [if_pos shifted, if_pos ⟨null, positive⟩]
    rw [BitVec.toInt_eq_toNat_cond] at positive
    have one : (1 : I64).toNat = 1 := rfl
    have lt := v.isLt
    rw [BitVec.toInt_eq_toNat_cond, BitVec.toInt_eq_toNat_cond, BitVec.toNat_sub, one]
    omega
  · rw [if_neg optional, if_neg]
    rw [Bool.and_eq_true, above]
    simpa using optional

theorem cut_length_nonneg {length : I64} (h : 0 ≤ length.toInt) : length.toNat = cutLength length.toInt := by
  rw [cutLength, if_pos h]
  rw [BitVec.toInt_eq_toNat_cond] at h ⊢
  have := length.isLt
  split at h <;> omega

theorem cut_length_negative {length : I64} (h : ¬0 ≤ length.toInt) : (-(length + 1)).toNat = cutLength length.toInt := by
  rw [cutLength, if_neg h]
  rw [BitVec.toInt_eq_toNat_cond] at h ⊢
  have := length.isLt
  rw [BitVec.toNat_neg, BitVec.toNat_add]
  have one : (1 : I64).toNat = 1 := rfl
  rw [one]
  split at h <;> omega

/-- The array holds a string up to its end. -/
theorem take_cstr (s : Bytes) : s.take (cstr s).length = cstr s :=
  (List.prefix_iff_eq_take.1 (List.takeWhile_prefix _)).symm

/-- What the moves inside the array come to. -/
theorem splice_ascii_rule (value delta : Bytes) (length : I64) :
    match spliceAscii value delta length with
    | none => (cstr value).length < cutLength length.toInt ∨
        stringMaxBytes < (spliced (cstr value) (cstr delta) length.toInt).length + 1
    | some r => cutLength length.toInt ≤ (cstr value).length ∧
        (spliced (cstr value) (cstr delta) length.toInt).length + 1 ≤ stringMaxBytes ∧
        cstr r = spliced (cstr value) (cstr delta) length.toInt := by
  have sign : (0 : I64).sle length = true ↔ 0 ≤ length.toInt := by
    rw [BitVec.sle_iff_toInt_le]
    exact Iff.rfl
  have before : ∀ n, value.take ((cstr value).length - n) = (cstr value).take ((cstr value).length - n) := by
    intro n
    rw [← take_cstr value, List.take_take, take_cstr, Nat.min_eq_left (Nat.sub_le ..)]
  unfold spliceAscii
  by_cases back : 0 ≤ length.toInt
  · rw [if_pos (sign.2 back), cut_length_nonneg back]
    simp only
    by_cases short : (cstr value).length < cutLength length.toInt
    · rw [if_pos short]
      exact .inl short
    · have size : (spliced (cstr value) (cstr delta) length.toInt).length = _ := length_spliced (Nat.le_of_not_lt short)
      rw [if_neg short]
      by_cases long : stringMaxBytes < (cstr value).length + (cstr delta).length - cutLength length.toInt + 1
      · rw [if_pos long]
        exact .inr (by omega)
      · rw [if_neg long]
        refine ⟨Nat.le_of_not_lt short, by omega, ?_⟩
        rw [spliced, if_pos back, before]
        refine cstr_append fun c hc => ?_
        rcases List.mem_append.1 hc with hc | hc
        · exact cstr_nonzero c (List.mem_of_mem_take hc)
        · exact cstr_nonzero c hc
  · rw [if_neg (by rw [sign]; exact back), cut_length_negative back]
    simp only
    by_cases short : (cstr value).length < cutLength length.toInt
    · rw [if_pos short]
      exact .inl short
    · have size : (spliced (cstr value) (cstr delta) length.toInt).length = _ := length_spliced (Nat.le_of_not_lt short)
      rw [if_neg short]
      by_cases long : stringMaxBytes < (cstr value).length + (cstr delta).length - cutLength length.toInt + 1
      · rw [if_pos long]
        exact .inr (by omega)
      · rw [if_neg long]
        refine ⟨Nat.le_of_not_lt short, by omega, ?_⟩
        rw [spliced, if_neg back, take_cstr]
        refine cstr_append fun c hc => ?_
        rcases List.mem_append.1 hc with hc | hc
        · exact cstr_nonzero c hc
        · exact cstr_nonzero c (List.mem_of_mem_drop hc)

/-! ## The string on the wire -/

/-- The characters of a string on the wire, up to the one with the stop bit. -/
def wireChars (w : List UInt8) : Bytes := w.map (· &&& 0x7F)

theorem go_char {c : UInt8} (go : isStop c = false) : c &&& 0x7F = c := by
  have bits : ∀ n : Fin 256, isStop (UInt8.ofFin n) = false → UInt8.ofFin n &&& 0x7F = UInt8.ofFin n := by
    decide +kernel
  exact bits c.toFin go

/-- Bytes up to a stop bit are there, or none of the first `m` has one. -/
theorem stopped_or_go (m : Nat) (l : List UInt8) :
    (∃ w rest, l = w ++ rest ∧ Stopped w ∧ w.length ≤ m) ∨ ∀ c ∈ l.take m, isStop c = false := by
  induction m generalizing l with
  | zero => exact .inr fun c hc => by simp at hc
  | succ m ih =>
    cases l with
    | nil => exact .inr fun c hc => by simp at hc
    | cons c l =>
      cases stop : isStop c with
      | true => exact .inl ⟨[c], l, rfl, .last stop, by rw [List.length_singleton]; omega⟩
      | false =>
        rcases ih l with ⟨w, rest, rfl, stopped, fits⟩ | go
        · exact .inl ⟨c :: w, rest, rfl, .more stop stopped, by rw [List.length_cons]; omega⟩
        · refine .inr fun d hd => ?_
          rw [List.take_succ_cons] at hd
          rcases List.mem_cons.1 hd with rfl | hd
          · exact stop
          · exact go d hd

theorem take_set_succ {v : List UInt8} {n : Nat} (inside : n < v.length) (c : UInt8) :
    (v.set n c).take (n + 1) = v.take n ++ [c] := by
  have there : n < (v.set n c).length := by
    rw [List.length_set]
    exact inside
  rw [List.take_succ_eq_append_getElem there, List.getElem_set_self, List.take_set_of_le (Nat.le_refl _)]

/-- The last character and the terminator. -/
theorem take_terminated {v : List UInt8} {n : Nat} (inside : n + 1 < v.length) (c : UInt8) :
    ((v.set n c).set (n + 1) 0).take (n + 1 + 1) = v.take n ++ [c] ++ [0] := by
  have there : n + 1 < (v.set n c).length := by
    rw [List.length_set]
    exact inside
  rw [take_set_succ there, take_set_succ (by omega)]

/-- The reader stores the characters up to the stop bit, and a terminator. -/
theorem parse_string_stopped {w rest : List UInt8} (h : Stopped w) {m n : Nat} {v : List UInt8} {b : Buffer}
    (hv : b.Valid) (room : w.length ≤ m) (fits : n + w.length + 1 ≤ v.length) (hu : b.unread = w ++ rest) :
    ∃ stored, parseStringFrom m n v b = ⟨.ok, n + w.length, stored, b.bufferAdvance w.length⟩ ∧
      stored.take (n + w.length + 1) = v.take n ++ wireChars w ++ [0] := by
  induction h generalizing m n v b with
  | @last c stop =>
    obtain ⟨m, rfl⟩ : ∃ k, m = k + 1 := ⟨m - 1, by rw [List.length_singleton] at room; omega⟩
    rw [List.length_singleton] at fits ⊢
    rw [parseStringFrom, next_byte_cons hv hu]
    simp only [stop, if_true]
    exact ⟨_, rfl, take_terminated (by omega) _⟩
  | @more c w go stopped ih =>
    obtain ⟨m, rfl⟩ : ∃ k, m = k + 1 := ⟨m - 1, by rw [List.length_cons] at room; omega⟩
    rw [List.length_cons] at room fits
    obtain ⟨valid, unread⟩ := unread_advance hv (w := [c]) hu
    obtain ⟨stored, read, taken⟩ := ih (m := m) (n := n + 1) (v := v.set n c) valid (by omega)
      (by rw [List.length_set]; omega) unread
    rw [parseStringFrom, next_byte_cons hv hu]
    simp only [go, Bool.false_eq_true, if_false]
    refine ⟨stored, ?_, ?_⟩
    · rw [List.length_singleton] at read
      rw [read, advance_advance, List.length_cons, Nat.add_comm 1, show n + 1 + w.length = n + (w.length + 1) by omega]
    · rw [take_set_succ (by omega)] at taken
      rw [List.length_cons, show n + (w.length + 1) + 1 = n + 1 + w.length + 1 by omega, taken, wireChars, wireChars,
        List.map_cons, go_char go]
      simp

/-- Without a stop bit the reader runs out of room, or of bytes. -/
theorem parse_string_go {m n : Nat} {v : List UInt8} {b : Buffer} (hv : b.Valid)
    (go : ∀ c ∈ b.unread.take m, isStop c = false) :
    (parseStringFrom m n v b).ret = if m ≤ b.unread.length then .garbled else .msgPartial := by
  induction m generalizing n v b with
  | zero => rw [if_pos (Nat.zero_le _)]; rfl
  | succ m ih =>
    cases hu : b.unread with
    | nil =>
      have left : nextByte b = none := by
        cases next : nextByte b with
        | none => rfl
        | some cb =>
          obtain ⟨c, b'⟩ := cb
          obtain ⟨lt, -, -⟩ := next_byte_some hv next
          rw [unread_cons hv lt] at hu
          cases hu
      rw [parseStringFrom, left, if_neg (by simp)]
    | cons c rest =>
      rw [hu, List.take_succ_cons] at go
      obtain ⟨valid, unread⟩ := unread_advance hv (w := [c]) hu
      rw [List.length_singleton] at valid unread
      have here := go c List.mem_cons_self
      have rest_go := ih (n := n + 1) (v := v.set n c) valid fun d hd => by
        rw [unread] at hd
        exact go d (List.mem_cons_of_mem _ hd)
      rw [parseStringFrom, next_byte_cons hv hu]
      simp only [here, Bool.false_eq_true, if_false]
      rw [rest_go, unread, List.length_cons]
      simp only [Nat.add_le_add_iff_right]

/-! ## The field -/

/-- What a stream holds for a field: a subtraction length that is not the `NULL` of an optional field, and
a delta that fits the scratch array. -/
def DeltaAt (b : Buffer) (f : Field Bytes) (length : Int) (delta : Bytes) : Prop :=
  ∃ v b₁ w rest, parseInt b = .done v b₁ ∧ (f.isMandatory = true ∨ v ≠ 0) ∧ length = subtractionLength f v ∧
    b₁.unread = w ++ rest ∧ Stopped w ∧ w.length ≤ 31 ∧ delta = cstr (wireChars w)

/-- What is refused. -/
inductive DeltaRefused (b : Buffer) (f : Field Bytes) : Prop where
  /-- No subtraction length. -/
  | length (b₁ : Buffer) (h : parseInt b = .fail .garbled b₁)
  /-- A delta without a stop bit in the first 31 characters. -/
  | scratch (v : I64) (b₁ : Buffer) (h : parseInt b = .done v b₁) (here : f.isMandatory = true ∨ v ≠ 0)
    (long : 31 ≤ b₁.unread.length) (go : ∀ c ∈ b₁.unread.take 31, isStop c = false)
  /-- More characters to take away than there are. -/
  | base (length : Int) (delta : Bytes) (h : DeltaAt b f length delta)
    (short : (cstr f.value).length < cutLength length)
  /-- A string that does not fit with its terminator. -/
  | room (length : Int) (delta : Bytes) (h : DeltaAt b f length delta)
    (long : stringMaxBytes < (spliced (cstr f.value) delta length).length + 1)

theorem cstr_terminated (u rest : Bytes) : cstr (u ++ 0 :: rest) = cstr u := by
  induction u with
  | nil => rfl
  | cons c u ih =>
    rw [List.cons_append, cstr, cstr, List.takeWhile_cons, List.takeWhile_cons]
    split
    · rw [cstr, cstr] at ih
      rw [ih]
    · rfl

section
variable {b : Buffer} {p : Pmap} {f : Field Bytes}

theorem ascii_delta_eq (op : f.op = .delta) : fastDecodeAscii b p f = (readAsciiDelta b f).toDecoded p := by
  rw [fastDecodeAscii, decodeField, op]
  rfl

/-- Behind its length, a delta is read and spliced. -/
theorem delta_behind_length {v : I64} {b₁ : Buffer} (h : parseInt b = .done v b₁) (here : f.isMandatory = true ∨ v ≠ 0) :
    readAsciiDelta b f = readSpliced v b₁ { f with state := .assigned } := by
  have some : ¬((!f.isMandatory && decide (v = 0)) = true) := by
    rw [Bool.and_eq_true, decide_eq_true_eq]
    rintro ⟨optional, zero⟩
    rcases here with mandatory | nonzero
    · rw [mandatory] at optional
      cases optional
    · exact nonzero zero
  rw [readAsciiDelta, readNullable, h]
  exact if_neg some

/-- A delta that is there is spliced by the rule, or refused. -/
theorem delta_spliced (hv : b.Valid) (op : f.op = .delta) {length : Int} {delta : Bytes} (h : DeltaAt b f length delta) :
    (cutLength length ≤ (cstr f.value).length ∧ (spliced (cstr f.value) delta length).length + 1 ≤ stringMaxBytes ∧
      (fastDecodeAscii b p f).ret = .ok ∧ (fastDecodeAscii b p f).field.state = .assigned ∧
      cstr (fastDecodeAscii b p f).field.value = spliced (cstr f.value) delta length) ∨
    (((cstr f.value).length < cutLength length ∨
        stringMaxBytes < (spliced (cstr f.value) delta length).length + 1) ∧
      (fastDecodeAscii b p f).ret = .garbled ∧ (fastDecodeAscii b p f).field.value = f.value) := by
  obtain ⟨v, b₁, w, rest, parsed, here, rfl, unread, stopped, short, rfl⟩ := h
  have moved : b.Moved (parseInt b).buffer := parse_int_moved hv
  rw [parsed] at moved
  have valid : b₁.Valid := moved.valid hv
  obtain ⟨stored, read, taken⟩ := parse_string_stopped stopped (m := 31) (n := 0) (v := deltaScratch)
    valid short (by rw [deltaScratch, List.length_replicate]; omega) unread
  have content : cstr stored = cstr (wireChars w) := by
    rw [List.take_zero, List.nil_append] at taken
    rw [← List.take_append_drop (0 + w.length + 1) stored, taken, List.append_assoc]
    exact cstr_terminated _ _
  have rule := splice_ascii_rule f.value stored (adjustInt f v)
  rw [adjust_int_subtraction, content] at rule
  have spliced' : readAsciiDelta b f = match spliceAscii f.value stored (adjustInt f v) with
      | none => ⟨.garbled, b₁.bufferAdvance w.length, { f with state := .assigned }⟩
      | some value => ⟨.ok, b₁.bufferAdvance w.length, { f with state := .assigned, value := value }⟩ := by
    rw [delta_behind_length parsed here, readSpliced, parseString, show deltaScratch.length - 1 = 31 from rfl, read,
      assignAsciiDelta, if_neg (not_not_intro rfl)]
    rfl
  rw [ascii_delta_eq op, spliced']
  cases result : spliceAscii f.value stored (adjustInt f v) with
  | none =>
    rw [result] at rule
    exact .inr ⟨rule, rfl, rfl⟩
  | some value =>
    rw [result] at rule
    obtain ⟨cut, fits, same⟩ := rule
    exact .inl ⟨cut, fits, rfl, rfl, same⟩

theorem delta_no_length (op : f.op = .delta) {ret : Ret} {b₁ : Buffer} (h : parseInt b = .fail ret b₁) :
    fastDecodeAscii b p f = ⟨ret, b₁, p, f⟩ := by
  rw [ascii_delta_eq op, readAsciiDelta, readNullable, h]
  rfl

theorem delta_no_stop (hv : b.Valid) (op : f.op = .delta) {v : I64} {b₁ : Buffer} (h : parseInt b = .done v b₁)
    (here : f.isMandatory = true ∨ v ≠ 0) (go : ∀ c ∈ b₁.unread.take 31, isStop c = false) :
    (fastDecodeAscii b p f).ret = (if 31 ≤ b₁.unread.length then .garbled else .msgPartial) ∧
      (fastDecodeAscii b p f).field.value = f.value := by
  have moved : b.Moved (parseInt b).buffer := parse_int_moved hv
  rw [h] at moved
  have valid : b₁.Valid := moved.valid hv
  have ret := parse_string_go (n := 0) (v := deltaScratch) valid go
  have failed : (parseStringFrom 31 0 deltaScratch b₁).ret ≠ .ok := by
    rw [ret]
    split <;> decide
  have call : readAsciiDelta b f = ⟨(parseStringFrom 31 0 deltaScratch b₁).ret,
      (parseStringFrom 31 0 deltaScratch b₁).buffer, { f with state := .assigned }⟩ := by
    rw [delta_behind_length h here, readSpliced, parseString, show deltaScratch.length - 1 = 31 from rfl,
      assignAsciiDelta, if_pos failed]
  rw [ascii_delta_eq op, call]
  exact ⟨ret, rfl⟩

/-- The `NULL` of an optional field. -/
theorem delta_null (op : f.op = .delta) (optional : f.isMandatory = false) {b₁ : Buffer} (h : parseInt b = .done 0 b₁) :
    fastDecodeAscii b p f = ⟨.ok, b₁, p, { f with state := .empty }⟩ := by
  have null : (!f.isMandatory && decide ((0 : I64) = 0)) = true := by
    rw [optional]
    rfl
  have read : readAsciiDelta b f = ⟨.ok, b₁, { f with state := .empty }⟩ := by
    rw [readAsciiDelta, readNullable, h]
    exact if_pos null
  rw [ascii_delta_eq op, read]
  rfl

/-- What a stream can hold: a delta, the `NULL` of an optional field, or neither. -/
theorem delta_cases (hv : b.Valid) (op : f.op = .delta) :
    (∃ length delta, DeltaAt b f length delta) ∨
    (∃ b₁, f.isMandatory = false ∧ parseInt b = .done 0 b₁) ∨
    ((fastDecodeAscii b p f).field.value = f.value ∧
      (((fastDecodeAscii b p f).ret = .garbled ∧ DeltaRefused b f) ∨ (fastDecodeAscii b p f).ret = .msgPartial)) := by
  cases parsed : parseInt b with
  | fail ret b₁ =>
    rw [delta_no_length op parsed]
    refine .inr (.inr ⟨rfl, ?_⟩)
    rcases parse_int_fails parsed with rfl | rfl
    · exact .inl ⟨rfl, .length b₁ parsed⟩
    · exact .inr rfl
  | done v b₁ =>
    by_cases here : f.isMandatory = true ∨ v ≠ 0
    · rcases stopped_or_go 31 b₁.unread with ⟨w, rest, unread, stopped, short⟩ | go
      · exact .inl ⟨_, _, v, b₁, w, rest, parsed, here, rfl, unread, stopped, short, rfl⟩
      · obtain ⟨ret, value⟩ := delta_no_stop (p := p) hv op parsed here go
        refine .inr (.inr ⟨value, ?_⟩)
        by_cases long : 31 ≤ b₁.unread.length
        · exact .inl ⟨ret.trans (if_pos long), .scratch v b₁ parsed here long go⟩
        · exact .inr (ret.trans (if_neg long))
    · simp only [not_or, not_not, Bool.not_eq_true] at here
      obtain ⟨optional, rfl⟩ := here
      exact .inr (.inl ⟨b₁, optional, rfl⟩)

theorem refused_garbled (hv : b.Valid) (op : f.op = .delta) (refused : DeltaRefused b f) :
    (fastDecodeAscii b p f).ret = .garbled := by
  cases refused with
  | length b₁ h => rw [delta_no_length op h]
  | scratch v b₁ h here long go => exact (delta_no_stop hv op h here go).1.trans (if_pos long)
  | base length delta h short =>
    rcases delta_spliced hv op h with ⟨cut, -⟩ | ⟨-, garbled, -⟩
    · omega
    · exact garbled
  | room length delta h long =>
    rcases delta_spliced hv op h with ⟨-, fits, -⟩ | ⟨-, garbled, -⟩
    · omega
    · exact garbled

/-- **The delta of an ASCII string.** A delta that is there and is not refused makes the string of the rule,
the `NULL` of an optional field keeps the string, and otherwise the call fails and keeps the string: with
`GARBLED` exactly where the delta is refused. -/
theorem ascii_delta_rule (b : Buffer) (p : Pmap) (f : Field Bytes) (hv : b.Valid) (op : f.op = .delta) :
    (∀ length delta, DeltaAt b f length delta → ¬DeltaRefused b f →
      (fastDecodeAscii b p f).ret = .ok ∧ (fastDecodeAscii b p f).field.state = .assigned ∧
        cstr (fastDecodeAscii b p f).field.value = spliced (cstr f.value) delta length) ∧
    (∀ b₁, f.isMandatory = false → parseInt b = .done 0 b₁ →
      (fastDecodeAscii b p f).ret = .ok ∧ (fastDecodeAscii b p f).field.state = .empty ∧
        (fastDecodeAscii b p f).field.value = f.value) ∧
    ((fastDecodeAscii b p f).ret = .garbled ↔ DeltaRefused b f) ∧
    ((fastDecodeAscii b p f).ret = .ok →
      (∃ length delta, DeltaAt b f length delta) ∨ ∃ b₁, f.isMandatory = false ∧ parseInt b = .done 0 b₁) ∧
    ((fastDecodeAscii b p f).ret ≠ .ok → (fastDecodeAscii b p f).field.value = f.value) := by
  refine ⟨fun length delta h fits => ?_, fun b₁ optional null => ?_, ⟨fun garbled => ?_, refused_garbled hv op⟩,
    fun ok => ?_, fun failed => ?_⟩
  · rcases delta_spliced (p := p) hv op h with ⟨-, -, done⟩ | ⟨short | long, -⟩
    · exact done
    · exact absurd (.base length delta h short) fits
    · exact absurd (.room length delta h long) fits
  · rw [delta_null op optional null]
    exact ⟨rfl, rfl, rfl⟩
  · rcases delta_cases (p := p) hv op with ⟨length, delta, h⟩ | ⟨b₁, optional, null⟩ | ⟨-, ⟨-, refused⟩ | cut⟩
    · rcases delta_spliced (p := p) hv op h with ⟨-, -, ok, -⟩ | ⟨short | long, -⟩
      · rw [ok] at garbled
        cases garbled
      · exact .base length delta h short
      · exact .room length delta h long
    · rw [delta_null op optional null] at garbled
      cases garbled
    · exact refused
    · rw [cut] at garbled
      cases garbled
  · rcases delta_cases (p := p) hv op with there | null | ⟨-, ⟨garbled, -⟩ | cut⟩
    · exact .inl there
    · exact .inr null
    · rw [garbled] at ok
      cases ok
    · rw [cut] at ok
      cases ok
  · rcases delta_cases (p := p) hv op with ⟨length, delta, h⟩ | ⟨b₁, optional, null⟩ | ⟨kept, -⟩
    · rcases delta_spliced (p := p) hv op h with ⟨-, -, ok, -⟩ | ⟨-, -, kept⟩
      · exact absurd ok failed
      · exact kept
    · rw [delta_null op optional null]
    · exact kept

end

/-- A mandatory string with the operator delta and a value. -/
def deltaField (chars : Bytes) : Field Bytes := { stringInit ⟨"Text", .mandatory, .delta, none⟩ with value := strcpy blankBytes chars }

/-- The last character of a string is replaced. -/
theorem last_character_replaced :
    (fastDecodeAscii (bufferPuts (bufferNew 8) [0x81, 0xD8]) Pmap.empty (deltaField [0x61, 0x62, 0x63])).ret = .ok ∧
      cstr (fastDecodeAscii (bufferPuts (bufferNew 8) [0x81, 0xD8]) Pmap.empty (deltaField [0x61, 0x62, 0x63])).field.value =
        [0x61, 0x62, 0x58] := by
  have valid : (bufferPuts (bufferNew 8) [0x81, 0xD8]).Valid := ⟨by decide, by decide⟩
  obtain ⟨rule, -, garbled, -⟩ := ascii_delta_rule _ Pmap.empty (deltaField [0x61, 0x62, 0x63]) valid rfl
  have there : DeltaAt (bufferPuts (bufferNew 8) [0x81, 0xD8]) (deltaField [0x61, 0x62, 0x63]) 1 [0x58] :=
    ⟨1, _, [0xD8], [], rfl, .inl rfl, rfl, by decide +kernel, .last rfl, by decide, by decide⟩
  obtain ⟨ok, -, value⟩ := rule 1 [0x58] there fun refused => absurd (garbled.2 refused) (by decide +kernel)
  have spliced : spliced (cstr (deltaField [0x61, 0x62, 0x63]).value) [0x58] 1 = [0x61, 0x62, 0x58] := by decide +kernel
  exact ⟨ok, value.trans spliced⟩

end Libtrading.Fast
