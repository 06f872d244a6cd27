import Libtrading.Fast.Decode
import Libtrading.Fast.ParseFacts

/-!
# Interrupted reads

A value that runs out of bytes half-way is read again from its first byte,
into the field as the interrupted read left it. `Resumes` collects what makes
that harmless: the reader only moves forward, later bytes do not change a
finished value, and the repeated read does not see what the interrupted one
stored. It holds of every way a value is taken off the wire.
-/

namespace Libtrading.Fast
set_option autoImplicit false
open Buffer

namespace Reading
variable {α : Type}

/-- The same reading over a buffer that has received more. -/
def receive (x : List UInt8) (r : Reading α) : Reading α := { r with buffer := r.buffer.receive x }

end Reading

/-- A reader of the wire: it moves forward, and later bytes change nothing it has decided. -/
structure Parses {α : Type} (parse : Buffer → Parse α) : Prop where
  moved : ∀ {b : Buffer}, b.Valid → b.Moved (parse b).buffer
  receive : ∀ {b : Buffer}, b.Valid → (parse b).ret ≠ .msgPartial → ∀ x, parse (b.receive x) = (parse b).receive x

theorem parses_uint : Parses parseUint := ⟨parse_uint_moved, parse_uint_receive⟩

theorem parses_int : Parses parseInt := ⟨parse_int_moved, parse_int_receive⟩

/-- A value read off the wire into a field can be interrupted and read again. -/
structure Resumes {α : Type} (read : Buffer → Field α → Reading α) : Prop where
  moved : ∀ {b : Buffer} (f : Field α), b.Valid → b.Moved (read b f).buffer
  op : ∀ b f, (read b f).field.op = f.op
  receive : ∀ {b : Buffer} (f : Field α), b.Valid → (read b f).ret ≠ .msgPartial → ∀ x,
    read (b.receive x) f = (read b f).receive x
  again : ∀ {b : Buffer} (f : Field α), b.Valid → (read b f).ret = .msgPartial → ∀ x,
    read (b.receive x) (read b f).field = read (b.receive x) f

/-- A reader that stores nothing before it has all its bytes. -/
structure StoresLast {α : Type} (read : Buffer → Field α → Reading α) : Prop where
  moved : ∀ {b : Buffer} (f : Field α), b.Valid → b.Moved (read b f).buffer
  op : ∀ b f, (read b f).field.op = f.op
  receive : ∀ {b : Buffer} (f : Field α), b.Valid → (read b f).ret ≠ .msgPartial → ∀ x,
    read (b.receive x) f = (read b f).receive x
  kept : ∀ {b : Buffer} (f : Field α), b.Valid → (read b f).ret = .msgPartial → (read b f).field = f

/-- The repeated read meets the field it met before. -/
theorem StoresLast.resumes {α : Type} {read : Buffer → Field α → Reading α} (h : StoresLast read) :
    Resumes read where
  moved := h.moved
  op := h.op
  receive := h.receive
  again f hv hr x := by rw [h.kept f hv hr]

/-! ## Numbers off the wire -/

/-- **A number** is assigned when its last byte is there. -/
theorem stores_last_number {parse : Buffer → Parse (BitVec 64)} (hp : Parses parse)
    {assign : Field (BitVec 64) → BitVec 64 → Field (BitVec 64)}
    (op : ∀ f v, (assign f v).op = f.op) : StoresLast (readNumber parse assign) where
  moved {b} f hv := by
    have moved := hp.moved hv
    unfold readNumber
    cases h : parse b <;> (rw [h] at moved; exact moved)
  op b f := by
    unfold readNumber
    cases parse b with
    | done v b' => exact op f v
    | fail ret b' => rfl
  receive {b} f hv hr x := by
    unfold readNumber at hr ⊢
    cases h : parse b with
    | done v b' =>
      rw [hp.receive hv (by rw [h]; exact nofun) x, h]
      rfl
    | fail ret b' =>
      rw [h] at hr
      rw [hp.receive hv (by rw [h]; exact hr) x, h]
      rfl
  kept {b} f hv hr := by
    unfold readNumber at hr ⊢
    cases h : parse b with
    | done v b' => rw [h] at hr; exact nomatch hr
    | fail ret b' => rfl

theorem assign_uint_op (f : Field U64) (v : U64) : (assignUint f v).op = f.op := by
  unfold assignUint
  split
  · rfl
  · split <;> rfl

theorem assign_int_op (f : Field I64) (v : I64) : (assignInt f v).op = f.op := by
  unfold assignInt
  split
  · rfl
  · split <;> rfl

theorem assign_delta_op (f : Field I64) (v : I64) : (assignDelta f v).op = f.op := by
  unfold assignDelta
  split
  · rfl
  · split <;> rfl

/-- An unsigned number. -/
theorem resumes_uint : Resumes readUint := (stores_last_number parses_uint assign_uint_op).resumes

/-- A signed number. -/
theorem resumes_int : Resumes readInt := (stores_last_number parses_int assign_int_op).resumes

/-- The difference of a delta, which is added once its last byte is there. -/
theorem resumes_delta : Resumes readDelta := (stores_last_number parses_int assign_delta_op).resumes

/-! ## Values behind a number -/

/-- The state set before the rest of the value is read is set again by the repeated read. -/
theorem resumes_nullable {α : Type} {parse : Buffer → Parse (BitVec 64)} (hp : Parses parse)
    {rest : BitVec 64 → Buffer → Field α → Reading α} (hr : ∀ v, StoresLast (rest v)) :
    Resumes (readNullable parse rest) where
  moved {b} f hv := by
    have moved := hp.moved hv
    unfold readNullable
    cases h : parse b with
    | fail ret b' => rw [h] at moved; exact moved
    | done v b' =>
      have moved : b.Moved b' := by rw [h] at moved; exact moved
      simp only
      split
      · exact moved
      · exact moved.trans ((hr v).moved _ (moved.valid hv))
  op b f := by
    unfold readNullable
    cases parse b with
    | fail ret b' => rfl
    | done v b' =>
      simp only
      split
      · rfl
      · exact (hr v).op b' _
  receive {b} f hv finished x := by
    have moved := hp.moved hv
    unfold readNullable at finished ⊢
    cases h : parse b with
    | fail ret b' =>
      rw [h] at finished
      rw [hp.receive hv (by rw [h]; exact finished) x, h]
      rfl
    | done v b' =>
      have moved : b.Moved b' := by rw [h] at moved; exact moved
      rw [h] at finished
      rw [hp.receive hv (by rw [h]; exact nofun) x, h]
      simp only [Parse.receive] at finished ⊢
      split
      · rfl
      · rename_i null
        rw [if_neg null] at finished
        exact (hr v).receive _ (moved.valid hv) finished x
  again {b} f hv interrupted x := by
    have moved := hp.moved hv
    cases h : parse b with
    | fail ret b' => rw [show (readNullable parse rest b f).field = f by rw [readNullable, h]]
    | done v b' =>
      have moved : b.Moved b' := by rw [h] at moved; exact moved
      have kept : (readNullable parse rest b f).field = { f with state := .assigned } := by
        unfold readNullable at interrupted ⊢
        rw [h] at interrupted ⊢
        simp only at interrupted ⊢
        split
        · rename_i null
          rw [if_pos null] at interrupted
          exact nomatch interrupted
        · rename_i null
          rw [if_neg null] at interrupted
          exact (hr v).kept _ (moved.valid hv) interrupted
      rw [kept, readNullable, readNullable, hp.receive hv (by rw [h]; exact nofun) x, h]
      rfl

theorem terminate_vector_buffer (f : Field Bytes) (len : U64) (value : Bytes) (b : Buffer) :
    (terminateVector f len value b).buffer = b := by
  unfold terminateVector
  split <;> rfl

theorem terminate_vector_op (f : Field Bytes) (len : U64) (value : Bytes) (b : Buffer) :
    (terminateVector f len value b).field.op = f.op := by
  unfold terminateVector
  split <;> rfl

/-- The end of a vector needs no more bytes. -/
theorem terminate_vector_finished (f : Field Bytes) (len : U64) (value : Bytes) (b : Buffer) :
    (terminateVector f len value b).ret ≠ .msgPartial := by
  unfold terminateVector
  split <;> exact nofun

theorem terminate_vector_receive (f : Field Bytes) (len : U64) (value : Bytes) (b : Buffer) (x : List UInt8) :
    terminateVector f len value (b.receive x) = (terminateVector f len value b).receive x := by
  unfold terminateVector
  rw [apply_ite (Reading.receive x)]
  rfl

/-- **The bytes of a vector** are stored when all of them are there. -/
theorem stores_last_counted (len : U64) : StoresLast (readCounted len) where
  moved {b} f hv := by
    have moved : b.Moved (parseBytes b f.value ((if f.isMandatory then len else len - 1).setWidth 32)).buffer :=
      parse_bytes_moved hv
    unfold readCounted
    simp only
    split
    · rename_i h
      rw [h] at moved
      exact moved
    · rename_i h
      rw [h] at moved
      rw [terminate_vector_buffer]
      exact moved
  op b f := by
    unfold readCounted
    simp only
    split
    · rfl
    · exact terminate_vector_op ..
  receive {b} f hv finished x := by
    unfold readCounted at finished ⊢
    simp only at finished ⊢
    generalize (if f.isMandatory then len else len - 1) = len at finished ⊢
    cases h : parseBytes b f.value (len.setWidth 32) with
    | fail ret b' =>
      rw [h] at finished
      rw [parse_bytes_receive hv (by rw [h]; exact finished) x, h]
      rfl
    | done value b' =>
      rw [parse_bytes_receive hv (by rw [h]; exact nofun) x, h]
      exact terminate_vector_receive ..
  kept {b} f hv interrupted := by
    unfold readCounted at interrupted ⊢
    simp only at interrupted ⊢
    split
    · rfl
    · rename_i h
      rw [h] at interrupted
      exact (terminate_vector_finished _ _ _ _ interrupted).elim

theorem assign_ascii_delta_buffer (f : Field Bytes) (length : I64) (r : StringRead) :
    (assignAsciiDelta f length r).buffer = r.buffer := by
  unfold assignAsciiDelta
  split
  · rfl
  · split <;> rfl

/-- Only the string itself can be interrupted, not what is made of it. -/
theorem assign_ascii_delta_interrupted {f : Field Bytes} {length : I64} {r : StringRead} :
    (assignAsciiDelta f length r).ret = .msgPartial ↔ r.ret = .msgPartial := by
  unfold assignAsciiDelta
  split
  · exact Iff.rfl
  · rename_i ok
    rw [Decidable.not_not.mp ok]
    split <;> exact ⟨nofun, nofun⟩

theorem assign_ascii_delta_receive (f : Field Bytes) (length : I64) (r : StringRead) (x : List UInt8) :
    assignAsciiDelta f length (r.receive x) = (assignAsciiDelta f length r).receive x := by
  unfold assignAsciiDelta
  simp only [StringRead.receive]
  by_cases ok : r.ret = .ok
  · simp only [ok, ne_eq, not_true_eq_false, if_false]
    split <;> rfl
  · simp only [ok, ne_eq, not_false_eq_true, if_true]
    rfl

/-- **The string of an ASCII delta** is read into a scratch array, and spliced when its stop bit is there. -/
theorem stores_last_spliced (length : I64) : StoresLast (readSpliced length) where
  moved {b} f hv := by
    rw [readSpliced, assign_ascii_delta_buffer]
    exact parse_string_moved hv _ _
  op b f := by
    unfold readSpliced assignAsciiDelta
    split
    · rfl
    · split <;> rfl
  receive {b} f hv finished x := by
    rw [readSpliced, ne_eq, assign_ascii_delta_interrupted] at finished
    rw [readSpliced, parse_string_receive hv finished x, assign_ascii_delta_receive]
    rfl
  kept {b} f hv interrupted := by
    rw [readSpliced, assign_ascii_delta_interrupted] at interrupted
    simp only [readSpliced, assignAsciiDelta, interrupted]
    rfl

/-- **A mantissa** is placed behind its exponent when its last byte is there. -/
theorem stores_last_mantissa (place : Decimal → Decimal → Decimal) (exp : I64) :
    StoresLast (readMantissa place exp) where
  moved {b} f hv := by
    have moved := parse_int_moved hv
    unfold readMantissa
    simp only
    split
    · exact hv.refl_moved
    · cases h : parseInt b <;> (rw [h] at moved; exact moved)
  op b f := by
    unfold readMantissa
    simp only
    split
    · rfl
    · split <;> rfl
  receive {b} f hv finished x := by
    unfold readMantissa at finished ⊢
    simp only at finished ⊢
    split
    · rfl
    · rename_i exponent
      rw [if_neg exponent] at finished
      cases h : parseInt b with
      | fail ret b' =>
        rw [h] at finished
        rw [parse_int_receive hv (by rw [h]; exact finished) x, h]
        rfl
      | done mnt b' =>
        rw [parse_int_receive hv (by rw [h]; exact nofun) x, h]
        rfl
  kept {b} f hv interrupted := by
    unfold readMantissa at interrupted ⊢
    simp only at interrupted ⊢
    split
    · rfl
    · rename_i exponent
      rw [if_neg exponent] at interrupted
      cases h : parseInt b with
      | fail ret b' => rfl
      | done mnt b' => rw [h] at interrupted; exact nomatch interrupted

/-- A vector: the length and the bytes. -/
theorem resumes_vector : Resumes readVector := resumes_nullable parses_uint stores_last_counted

/-- An ASCII delta: the length and the string. -/
theorem resumes_ascii_delta : Resumes readAsciiDelta := resumes_nullable parses_int stores_last_spliced

/-- A decimal: the exponent and the mantissa. -/
theorem resumes_decimal (place : Decimal → Decimal → Decimal) : Resumes (readDecimalWith place) :=
  resumes_nullable parses_int (stores_last_mantissa place)

/-! ## Stop-bit strings -/

theorem assign_ascii_buffer (f : Field Bytes) (r : StringRead) : (assignAscii f r).buffer = r.buffer := by
  unfold assignAscii
  simp only
  split
  · rfl
  · split <;> rfl

/-- What a string means to the field does not decide whether it is complete. -/
theorem assign_ascii_ret (f : Field Bytes) (r : StringRead) : (assignAscii f r).ret = r.ret := by
  unfold assignAscii
  simp only
  split
  · rfl
  · rename_i ok
    rw [Decidable.not_not.mp ok]
    split <;> rfl

theorem assign_ascii_receive (f : Field Bytes) (r : StringRead) (x : List UInt8) :
    assignAscii f (r.receive x) = (assignAscii f r).receive x := by
  unfold assignAscii
  simp only [apply_ite (Reading.receive x)]
  rfl

/-- **A stop-bit string** is stored byte by byte into the field, and the repeated read stores the same bytes again. -/
theorem resumes_ascii : Resumes readAscii where
  moved {b} f hv := by
    rw [readAscii, assign_ascii_buffer]
    exact parse_string_moved hv f.value stringMaxBytes
  op b f := by
    unfold readAscii assignAscii
    simp only
    split
    · rfl
    · split <;> rfl
  receive {b} f hv finished x := by
    rw [readAscii, assign_ascii_ret] at finished
    rw [readAscii, parse_string_receive hv finished x, assign_ascii_receive]
    rfl
  again {b} f hv interrupted x := by
    rw [readAscii, assign_ascii_ret] at interrupted
    have stored : (readAscii b f).field = { f with value := (parseString b f.value stringMaxBytes).value } := by
      unfold readAscii assignAscii
      rw [interrupted]
      rfl
    rw [stored, readAscii, readAscii, parse_string_again hv interrupted x]
    rfl

end Libtrading.Fast
