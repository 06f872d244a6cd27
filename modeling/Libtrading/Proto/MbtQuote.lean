import Libtrading.Fifo
import Libtrading.Wire.Decimal

/-!
# MBT quotes

A Logging On message has two values, each between a `=` and a delimiter. The loop that looks for the delimiter tests
`buffer_remaining`, which says how much room there is behind the buffer, so it goes on behind the bytes there are or,
in a full buffer, gives up at once; and the exit for a message that does not end frees a message that may be none.

A read outside of the bytes there are, and one through a null pointer, end the model of a call.
-/

namespace Libtrading.MbtQuote
open Buffer
set_option autoImplicit false

/-- What a call must not do. -/
inductive Fault where
  | overrun
  | nullPointer
  deriving DecidableEq

/-- What the allocator gives: the message, and the copies of the two values. -/
structure Heap where
  message : Bool
  userName : Bool
  password : Bool

/-- `struct mbt_quote_logging_on`; a value that was not read is a null pointer. -/
structure LoggingOn where
  userName : Option (List UInt8)
  password : Option (List UInt8)
  deriving DecidableEq

/-- `MBT_QUOTE_FIELD_DELIM` or `MBT_QUOTE_MESSAGE_END`. -/
def isDelim (c : UInt8) : Bool := c = ';'.toNat.toUInt8 ∨ c = '\n'.toNat.toUInt8

/-- `buffer_get_char`. -/
def bufferGetChar (b : Buffer) : Except Fault (UInt8 × Buffer) :=
  if b.start < b.stop then .ok b.bufferGet8 else .error .overrun

/-- The loop over a value, which turns once for every unread byte at most: whether the delimiter was found. -/
def scan : Nat → Buffer → Except Fault (Bool × Buffer)
  | 0, _ => .error .overrun
  | n + 1, b =>
    if isDelim b.bufferPeek8 then .ok (true, b)
    else if b.bufferRemaining = 0 then .ok (false, b)
    else scan n (b.bufferAdvance 1)

/-- `strndup`: a copy up to a zero, if there is one. -/
def strndup (given : Bool) (w : List UInt8) : Option (List UInt8) := if given then some (w.takeWhile (· ≠ 0)) else none

/-- `mbt_quote_decode_field`. -/
def mbtQuoteDecodeField (given : Bool) (b : Buffer) : Except Fault (Option (List UInt8) × Buffer) :=
  match b.bufferFind '='.toNat.toUInt8 with
  | (false, b) => .ok (none, b)
  | (true, b) =>
    let b := b.bufferAdvance 1
    match scan b.bufferSize b with
    | .error e => .error e
    | .ok (false, e) => .ok (none, e)
    | .ok (true, e) => .ok (strndup given ((b.data.drop b.start).take (e.start - b.start)), e)

/-- The end of `mbt_quote_message_decode`. -/
def messageEnd (msg : Option LoggingOn) (b : Buffer) : Except Fault (Option LoggingOn × Buffer) :=
  match bufferGetChar b with
  | .error e => .error e
  | .ok (c, b) =>
    if c ≠ '\n'.toNat.toUInt8 then if msg.isNone then .error .nullPointer else .ok (none, b)
    else .ok (msg, b)

/-- The case of `MBT_QUOTE_LOGGING_ON`, and the end behind it. -/
def loggingOnDecode (heap : Heap) (b : Buffer) : Except Fault (Option LoggingOn × Buffer) :=
  if heap.message = false then .ok (none, b)
  else
    match mbtQuoteDecodeField heap.userName b with
    | .error e => .error e
    | .ok (userName, b) =>
      match mbtQuoteDecodeField heap.password b with
      | .error e => .error e
      | .ok (password, b) => messageEnd (some ⟨userName, password⟩) b

/-- `mbt_quote_message_decode`. -/
def mbtQuoteMessageDecode (heap : Heap) (b : Buffer) : Except Fault (Option LoggingOn × Buffer) :=
  match bufferGetChar b with
  | .error e => .error e
  | .ok (type, b) =>
    match bufferGetChar b with
    | .error e => .error e
    | .ok (c, b) =>
      if c ≠ '|'.toNat.toUInt8 then .ok (none, b)
      else if type ≠ 'L'.toNat.toUInt8 then messageEnd none b
      else loggingOnDecode heap b

/-! ## What is asked of it -/

/-- A value between a `=`, the first there is, and a delimiter, the first behind it; what is left begins with that. -/
inductive Value : List UInt8 → List UInt8 → List UInt8 → Prop
  | mk {p v rest : List UInt8} {d : UInt8} (first : '='.toNat.toUInt8 ∉ p) (plain : ∀ c ∈ v, isDelim c = false)
    (delim : isDelim d = true) : Value (p ++ '='.toNat.toUInt8 :: (v ++ d :: rest)) v (d :: rest)

/-- A complete Logging On message with these two values. -/
def IsLoggingOn (u user password : List UInt8) : Prop :=
  ∃ w w' rest, u = 'L'.toNat.toUInt8 :: '|'.toNat.toUInt8 :: w ∧ Value w user w' ∧
    Value w' password ('\n'.toNat.toUInt8 :: rest)

/-- A call that reads what there is only, and returns nothing or the two values of a complete message. -/
def DecodesSafely (heap : Heap) (b : Buffer) : Prop :=
  ∃ msg b', mbtQuoteMessageDecode heap b = .ok (msg, b') ∧
    ∀ m, msg = some m → ∃ user password, m = ⟨some user, some password⟩ ∧ IsLoggingOn b.unread user password

/-! ## When it is so -/

/-- What a call finds of a value: the value with its delimiter, or, where the buffer is full, a byte that is none. -/
inductive Found (full : Prop) : List UInt8 → Option (List UInt8) → List UInt8 → Prop
  | value {w v rest : List UInt8} (value : Value w v rest) (room : full → v = []) : Found full w (some v) rest
  | refused {p rest : List UInt8} {c : UInt8} (first : '='.toNat.toUInt8 ∉ p) (plain : isDelim c = false) (room : full) :
    Found full (p ++ '='.toNat.toUInt8 :: c :: rest) none (c :: rest)

/-- A value that is copied whole. -/
def Whole (given : Bool) (v : Option (List UInt8)) : Prop := ∃ w, v = some w ∧ 0 ∉ w ∧ given = true

/-- The bytes that are decoded safely. -/
inductive Handled (heap : Heap) (full : Prop) : List UInt8 → Prop
  | noHeader {type c : UInt8} {rest : List UInt8} (other : c ≠ '|'.toNat.toUInt8) : Handled heap full (type :: c :: rest)
  | unknown {type : UInt8} {rest : List UInt8} (other : type ≠ 'L'.toNat.toUInt8) :
    Handled heap full (type :: '|'.toNat.toUInt8 :: '\n'.toNat.toUInt8 :: rest)
  | noMemory {rest : List UInt8} (none : heap.message = false) :
    Handled heap full ('L'.toNat.toUInt8 :: '|'.toNat.toUInt8 :: rest)
  | loggingOn {w w' rest : List UInt8} {user password : Option (List UInt8)} {c : UInt8} (first : Found full w user w')
    (second : Found full w' password (c :: rest))
    (whole : c = '\n'.toNat.toUInt8 → Whole heap.userName user ∧ Whole heap.password password) :
    Handled heap full ('L'.toNat.toUInt8 :: '|'.toNat.toUInt8 :: w)

/-! ## The loop over a value -/

section Steps
variable {b : Buffer}

theorem moved_advance (hv : b.Valid) {c : UInt8} {rest : List UInt8} (some : b.unread = c :: rest) :
    b.byteAt b.start = c ∧ b.Moved (b.bufferAdvance 1) ∧ (b.bufferAdvance 1).unread = rest := by
  have length := length_unread hv
  rw [some, List.length_cons] at length
  have cons := unread_cons hv (by omega)
  obtain ⟨byte, tail⟩ := List.cons.inj (some.symm.trans cons)
  exact ⟨byte.symm, ⟨rfl, rfl, Nat.le_succ _, by simp only [bufferAdvance]; omega⟩, tail.symm⟩

theorem remaining_moved {e : Buffer} (moved : b.Moved e) : e.bufferRemaining = b.bufferRemaining := by
  rw [bufferRemaining, bufferRemaining, capacity, capacity, moved.data, moved.stop]

/-- The loop ends at the first delimiter; where the buffer is full, at the first byte. -/
theorem scan_ok (hv : b.Valid) {v rest : List UInt8} {c : UInt8} (row : b.unread = v ++ c :: rest)
    (plain : ∀ x ∈ v, isDelim x = false) (room : b.bufferRemaining = 0 → v = [])
    (last : isDelim c = true ∨ b.bufferRemaining = 0) :
    ∃ e, scan b.unread.length b = .ok (isDelim c, e) ∧ b.Moved e ∧ e.unread = c :: rest := by
  induction v generalizing b with
  | nil =>
    obtain ⟨byte, -, -⟩ := moved_advance hv row
    refine ⟨b, ?_, hv.refl_moved, row⟩
    rw [row, List.nil_append, List.length_cons, scan, bufferPeek8, byte]
    cases delim : isDelim c with
    | true => rfl
    | false =>
      have full : b.bufferRemaining = 0 := last.resolve_left (by rw [delim]; exact Bool.false_ne_true)
      rw [if_neg Bool.false_ne_true, if_pos full]
  | cons x v ih =>
    obtain ⟨byte, moved, unread⟩ := moved_advance hv row
    have some : b.bufferRemaining ≠ 0 := fun full => absurd (room full) (List.cons_ne_nil x v)
    have delim := last.resolve_right some
    obtain ⟨e, ends, later, bytes⟩ := ih (moved.valid hv) unread (fun y hy => plain y (List.mem_cons_of_mem x hy))
      (fun full => absurd full some) (.inl delim)
    refine ⟨e, ?_, moved.trans later, bytes⟩
    rw [unread] at ends
    rw [row, List.cons_append, List.length_cons, scan, bufferPeek8, byte, plain x List.mem_cons_self,
      if_neg Bool.false_ne_true, if_neg some]
    exact ends

/-- A loop that ends does so there. -/
theorem scan_found (hv : b.Valid) {r : Bool × Buffer} (ends : scan b.unread.length b = .ok r) :
    ∃ v c rest, b.unread = v ++ c :: rest ∧ (∀ x ∈ v, isDelim x = false) ∧ (b.bufferRemaining = 0 → v = []) ∧
      (isDelim c = true ∨ b.bufferRemaining = 0) := by
  generalize row : b.unread = u at ends
  induction u generalizing b with
  | nil => cases ends
  | cons x u ih =>
    obtain ⟨byte, moved, unread⟩ := moved_advance hv row
    rw [List.length_cons, scan, bufferPeek8, byte] at ends
    split at ends
    · next found =>
      cases ends
      exact ⟨[], x, u, rfl, List.forall_mem_nil _, fun _ => rfl, .inl found⟩
    · next other =>
      have plain := Bool.eq_false_iff.2 other
      split at ends
      · next full =>
        cases ends
        exact ⟨[], x, u, rfl, List.forall_mem_nil _, fun _ => rfl, .inr full⟩
      · next some =>
        obtain ⟨v, c, rest, rfl, all, -, last⟩ := ih (moved.valid hv) unread ends
        refine ⟨x :: v, c, rest, rfl, List.forall_mem_cons.2 ⟨plain, all⟩, fun full => absurd full some, last⟩

/-! ## A value -/

/-- `buffer_find` in terms of the unread bytes. -/
theorem find_ok (hv : b.Valid) (c : UInt8) : (b.bufferFind c).1 = decide (c ∈ b.unread) ∧ b.Moved (b.bufferFind c).2 ∧
    (b.bufferFind c).2.unread = b.unread.dropWhile (· ≠ c) := by
  have size : b.bufferSize = b.unread.length := by rw [length_unread hv, hv.size_eq]
  rw [bufferFind, size]
  exact Fifo.find_from_refined hv c

/-- The bytes up to a byte that is there. -/
theorem split_at_first {u : List UInt8} {c : UInt8} (there : c ∈ u) :
    ∃ p rest, c ∉ p ∧ u = p ++ c :: rest ∧ u.dropWhile (· ≠ c) = c :: rest := by
  induction u with
  | nil => exact absurd there List.not_mem_nil
  | cons x u ih =>
    by_cases here : x = c
    · exact ⟨[], u, List.not_mem_nil, congrArg (· :: u) here, by rw [here]; exact List.dropWhile_cons_of_neg (by simp)⟩
    · obtain ⟨p, rest, first, rfl, left⟩ := ih ((List.mem_cons.1 there).resolve_left (Ne.symm here))
      refine ⟨x :: p, rest, ?_, rfl, ?_⟩
      · rw [List.mem_cons, not_or]
        exact ⟨Ne.symm here, first⟩
      · exact (List.dropWhile_cons_of_pos (by simpa using here)).trans left

theorem drop_to_first {p rest : List UInt8} {c : UInt8} (first : c ∉ p) :
    (p ++ c :: rest).dropWhile (· ≠ c) = c :: rest := by
  rw [List.dropWhile_append_of_pos]
  · exact List.dropWhile_cons_of_neg (by simp)
  · intro x hx
    exact decide_eq_true fun same => first (same ▸ hx)

/-- What a scan went over. -/
theorem scanned (hv : b.Valid) {e : Buffer} (moved : b.Moved e) {v rest : List UInt8} (row : b.unread = v ++ rest)
    (left : e.unread = rest) : (b.data.drop b.start).take (e.start - b.start) = v := by
  have before := length_unread hv
  have after := length_unread (moved.valid hv)
  rw [row, List.length_append] at before
  rw [left, moved.stop] at after
  have forward := moved.forward
  have bounded := moved.bounded
  have distance : e.start - b.start = v.length := by omega
  rw [distance, take_unread hv row]

/-- Where there is a `=`, the loop starts right behind the first one. -/
theorem field_at (hv : b.Valid) (given : Bool) {p tail : List UInt8} (first : '='.toNat.toUInt8 ∉ p)
    (row : b.unread = p ++ '='.toNat.toUInt8 :: tail) :
    ∃ a, b.Moved a ∧ a.unread = tail ∧ mbtQuoteDecodeField given b =
      match scan a.unread.length a with
      | .error e => .error e
      | .ok (false, e) => .ok (none, e)
      | .ok (true, e) => .ok (strndup given ((a.data.drop a.start).take (e.start - a.start)), e) := by
  obtain ⟨there, moved, unread⟩ := find_ok hv '='.toNat.toUInt8
  rw [row, drop_to_first first] at unread
  rw [row, decide_eq_true (List.mem_append_right p List.mem_cons_self)] at there
  obtain ⟨-, next, tail⟩ := moved_advance (moved.valid hv) unread
  have whole := moved.trans next
  refine ⟨_, whole, tail, ?_⟩
  have size := (whole.valid hv).size_eq
  rw [← length_unread (whole.valid hv)] at size
  rw [mbtQuoteDecodeField, ← Prod.mk.eta (p := b.bufferFind _), there, ← size]

/-- A call that finds a value, or the byte where it gives up, moves the buffer there. -/
theorem field_ok (hv : b.Valid) (given : Bool) {v : Option (List UInt8)} {rest : List UInt8}
    (found : Found (b.bufferRemaining = 0) b.unread v rest) :
    ∃ e, mbtQuoteDecodeField given b = .ok (v.bind (strndup given), e) ∧ b.Moved e ∧ e.unread = rest := by
  generalize row : b.unread = u at found
  cases found with
  | @value w v rest value room =>
    cases value with
    | @mk p v rest d first plain delim =>
      obtain ⟨a, moved, tail, call⟩ := field_at hv given first row
      have valid := moved.valid hv
      have remaining := remaining_moved moved
      obtain ⟨e, ends, later, left⟩ := scan_ok valid tail plain (remaining ▸ room) (.inl delim)
      refine ⟨e, ?_, moved.trans later, left⟩
      rw [call, ends, delim]
      exact congrArg (fun w => Except.ok (strndup given w, e)) (scanned valid later tail left)
  | @refused p rest c first plain room =>
    obtain ⟨a, moved, tail, call⟩ := field_at hv given first row
    have remaining := remaining_moved moved
    obtain ⟨e, ends, later, left⟩ := scan_ok (v := []) (moved.valid hv) tail (List.forall_mem_nil _) (fun _ => rfl)
      (.inr (remaining.trans room))
    refine ⟨e, ?_, moved.trans later, left⟩
    rw [call, ends, plain]
    rfl

/-- A call that does not fail finds one of them, or no `=` at all. -/
theorem field_found (hv : b.Valid) {given : Bool} {r : Option (List UInt8)} {e : Buffer}
    (call : mbtQuoteDecodeField given b = .ok (r, e)) : b.Moved e ∧
      (e.unread = [] ∨ ∃ v, Found (b.bufferRemaining = 0) b.unread v e.unread ∧ r = v.bind (strndup given)) := by
  by_cases there : '='.toNat.toUInt8 ∈ b.unread
  · obtain ⟨p, tail, first, row, -⟩ := split_at_first there
    obtain ⟨a, moved, unread, body⟩ := field_at hv given first row
    have valid := moved.valid hv
    have remaining := remaining_moved moved
    rw [body] at call
    cases ends : scan a.unread.length a with
    | error fault =>
      rw [ends] at call
      cases call
    | ok result =>
      obtain ⟨v, c, rest, scannedRow, plain, room, last⟩ := scan_found valid ends
      obtain ⟨e', same, later, left⟩ := scan_ok valid scannedRow plain room last
      rw [same] at call
      rw [unread] at scannedRow
      subst scannedRow
      rw [remaining] at room last
      cases delim : isDelim c with
      | true =>
        rw [delim] at call
        obtain ⟨rfl, rfl⟩ := Prod.mk.inj (Except.ok.inj call)
        refine ⟨moved.trans later, .inr ⟨some v, ?_, ?_⟩⟩
        · rw [row, left]
          exact .value (.mk first plain delim) room
        · exact congrArg (strndup given) (scanned valid later unread left)
      | false =>
        rw [delim] at call
        obtain ⟨rfl, rfl⟩ := Prod.mk.inj (Except.ok.inj call)
        have full := last.resolve_left (by rw [delim]; exact Bool.false_ne_true)
        refine ⟨moved.trans later, .inr ⟨none, ?_, rfl⟩⟩
        rw [row, left, room full]
        exact .refused first delim full
  · obtain ⟨found, moved, unread⟩ := find_ok hv '='.toNat.toUInt8
    rw [decide_eq_false there] at found
    rw [mbtQuoteDecodeField, ← Prod.mk.eta (p := b.bufferFind _), found] at call
    cases call
    refine ⟨moved, .inl ?_⟩
    rw [unread, List.dropWhile_eq_nil_iff]
    intro x hx
    exact decide_eq_true fun same => there (same ▸ hx)

/-! ## A message -/

theorem get_char_ok (hv : b.Valid) {c : UInt8} {rest : List UInt8} (row : b.unread = c :: rest) :
    ∃ e, bufferGetChar b = .ok (c, e) ∧ b.Moved e ∧ e.unread = rest := by
  obtain ⟨byte, moved, left⟩ := moved_advance hv row
  have inside : b.start < b.stop := moved.bounded
  refine ⟨b.bufferAdvance 1, ?_, moved, left⟩
  rw [bufferGetChar, if_pos inside, bufferGet8, byte]
  rfl

theorem get_char_empty (hv : b.Valid) (empty : b.unread = []) : bufferGetChar b = .error .overrun :=
  if_neg (Nat.not_lt.2 (Nat.le_of_eq ((unread_eq_nil hv).1 empty).symm))

theorem empty_moved (hv : b.Valid) {e : Buffer} (moved : b.Moved e) (empty : b.unread = []) : e.unread = [] := by
  have all := (unread_eq_nil hv).1 empty
  have forward := moved.forward
  have bounded := moved.bounded
  have stop := moved.stop
  exact (unread_eq_nil (moved.valid hv)).2 (by omega)

/-- The last byte of a message. -/
theorem end_ok (hv : b.Valid) {c : UInt8} {rest : List UInt8} (row : b.unread = c :: rest) (msg : LoggingOn) :
    ∃ e, messageEnd (some msg) b = .ok (if c = '\n'.toNat.toUInt8 then some msg else none, e) := by
  obtain ⟨e, call, -, -⟩ := get_char_ok hv row
  refine ⟨e, ?_⟩
  rw [messageEnd, call]
  by_cases newline : c = '\n'.toNat.toUInt8
  · rw [if_pos newline]
    exact if_neg (not_not.2 newline)
  · rw [if_neg newline]
    exact if_pos newline

/-- The first byte of a kind, and what is in front of it. -/
theorem cut_unique {kind : UInt8 → Bool} {p p' t t' : List UInt8} {c c' : UInt8} (plain : ∀ x ∈ p, kind x = false)
    (plain' : ∀ x ∈ p', kind x = false) (is : kind c = true) (is' : kind c' = true)
    (same : p ++ c :: t = p' ++ c' :: t') : p = p' ∧ c :: t = c' :: t' := by
  have none {x : UInt8} (yes : kind x = true) : ¬kind x = false := by rw [yes]; exact Bool.noConfusion
  induction p generalizing p' with
  | nil =>
    cases p' with
    | nil => exact ⟨rfl, same⟩
    | cons x p' => exact absurd (plain' c ((List.cons.inj same).1 ▸ List.mem_cons_self)) (none is)
  | cons x p ih =>
    cases p' with
    | nil => exact absurd (plain c' ((List.cons.inj same).1 ▸ List.mem_cons_self)) (none is')
    | cons x' p' =>
      obtain ⟨rfl, tails⟩ := List.cons.inj same
      obtain ⟨rfl, left⟩ := ih (fun y hy => plain y (List.mem_cons_of_mem x hy))
        (fun y hy => plain' y (List.mem_cons_of_mem x hy)) tails
      exact ⟨rfl, left⟩

theorem Value.unique {w v v' rest rest' : List UInt8} (one : Value w v rest) (other : Value w v' rest') :
    v = v' ∧ rest = rest' := by
  generalize same : w = w' at other
  cases one with
  | mk first plain delim =>
    cases other with
    | mk first' plain' delim' =>
      have kind {p : List UInt8} (first : '='.toNat.toUInt8 ∉ p) : ∀ x ∈ p, (x == '='.toNat.toUInt8) = false :=
        fun x hx => beq_eq_false_iff_ne.2 fun is => first (is ▸ hx)
      obtain ⟨-, tails⟩ := cut_unique (kind first) (kind first') (beq_self_eq_true _) (beq_self_eq_true _) same
      exact cut_unique plain plain' delim delim' (List.cons.inj tails).2

/-- A copy that has the whole value. -/
theorem strndup_whole {given : Bool} {w : List UInt8} : strndup given w = some w ↔ given = true ∧ 0 ∉ w := by
  cases given with
  | false =>
    refine ⟨fun copy => ?_, fun whole => absurd whole.1 Bool.false_ne_true⟩
    cases copy
  | true =>
    rw [strndup, if_pos rfl, Option.some_inj, List.takeWhile_eq_self_iff]
    refine ⟨fun all => ⟨rfl, fun zero => ?_⟩, fun whole x hx => ?_⟩
    · exact absurd rfl (of_decide_eq_true (all 0 zero))
    · exact decide_eq_true fun zero => whole.2 (zero ▸ hx)

/-- A copy that is the value says that it is whole. -/
theorem whole_of_bind {full : Prop} {w rest rest' user : List UInt8} {given : Bool} {v : Option (List UInt8)}
    (found : Found full w v rest) (copy : v.bind (strndup given) = some user) (value : Value w user rest') :
    Whole given v := by
  cases found with
  | value one room =>
    obtain ⟨rfl, -⟩ := value.unique one
    obtain ⟨same, zero⟩ := strndup_whole.1 copy
    exact ⟨user, rfl, zero, same⟩
  | refused => cases copy

/-- A whole value that was found is one. -/
theorem Found.whole {full : Prop} {w rest : List UInt8} {v : Option (List UInt8)} {given : Bool}
    (found : Found full w v rest) (whole : Whole given v) :
    ∃ user, v.bind (strndup given) = some user ∧ Value w user rest := by
  obtain ⟨user, rfl, zero, rfl⟩ := whole
  cases found with
  | value one room => exact ⟨user, strndup_whole.2 ⟨rfl, zero⟩, one⟩

/-- The two bytes in front of a message. -/
theorem head_decoded (hv : b.Valid) (heap : Heap) {type c : UInt8} {rest : List UInt8}
    (row : b.unread = type :: c :: rest) :
    ∃ e, b.Moved e ∧ e.unread = rest ∧ mbtQuoteMessageDecode heap b =
      if c ≠ '|'.toNat.toUInt8 then .ok (none, e)
      else if type ≠ 'L'.toNat.toUInt8 then messageEnd none e
      else loggingOnDecode heap e := by
  obtain ⟨a, first, moved, left⟩ := get_char_ok hv row
  obtain ⟨e, second, later, rest⟩ := get_char_ok (moved.valid hv) left
  refine ⟨e, moved.trans later, rest, ?_⟩
  simp only [mbtQuoteMessageDecode, first, second]

/-- Two values that are found bring a call to the byte behind them. -/
theorem logging_on_decoded (hv : b.Valid) {heap : Heap} (memory : heap.message = true) {w rest : List UInt8} {c : UInt8}
    {user password : Option (List UInt8)} (one : Found (b.bufferRemaining = 0) b.unread user w)
    (two : Found (b.bufferRemaining = 0) w password (c :: rest)) :
    ∃ e, loggingOnDecode heap b = .ok (if c = '\n'.toNat.toUInt8 then
      some ⟨user.bind (strndup heap.userName), password.bind (strndup heap.password)⟩ else none, e) := by
  obtain ⟨f, userName, moved, names⟩ := field_ok hv heap.userName one
  rw [← names, ← remaining_moved moved] at two
  obtain ⟨g, passwords, later, tail⟩ := field_ok (moved.valid hv) heap.password two
  obtain ⟨last, ends⟩ := end_ok (later.valid (moved.valid hv)) tail
    ⟨user.bind (strndup heap.userName), password.bind (strndup heap.password)⟩
  refine ⟨last, ?_⟩
  simp only [loggingOnDecode, memory, Bool.true_eq_false, if_false, userName, passwords]
  exact ends

/-- A call that comes back found both, or had no memory. -/
theorem logging_on_found (hv : b.Valid) {heap : Heap} (memory : heap.message = true) {r : Option LoggingOn × Buffer}
    (call : loggingOnDecode heap b = .ok r) :
    ∃ user password w c rest, Found (b.bufferRemaining = 0) b.unread user w ∧
      Found (b.bufferRemaining = 0) w password (c :: rest) := by
  simp only [loggingOnDecode, memory, Bool.true_eq_false, if_false] at call
  cases one : mbtQuoteDecodeField heap.userName b with
  | error fault =>
    rw [one] at call
    cases call
  | ok userName =>
    obtain ⟨moved, found⟩ := field_found hv (e := userName.2) one
    have valid := moved.valid hv
    rw [one] at call
    cases two : mbtQuoteDecodeField heap.password userName.2 with
    | error fault =>
      simp only [two] at call
      cases call
    | ok password =>
      obtain ⟨later, found'⟩ := field_found valid (e := password.2) two
      simp only [two] at call
      -- the byte behind the second value is read, so there is one
      have some : password.2.unread ≠ [] := by
        intro empty
        rw [messageEnd, get_char_empty (later.valid valid) empty] at call
        cases call
      obtain ⟨v', second, -⟩ := found'.resolve_left some
      obtain ⟨v, first, -⟩ := found.resolve_left fun empty => some (empty_moved valid later empty)
      obtain ⟨c, rest, row⟩ := List.exists_cons_of_ne_nil some
      rw [row, remaining_moved moved] at second
      exact ⟨v, v', userName.2.unread, c, rest, first, second⟩

/-- What is handled is decoded safely. -/
theorem safe_of_handled (hv : b.Valid) {heap : Heap} (handled : Handled heap (b.bufferRemaining = 0) b.unread) :
    DecodesSafely heap b := by
  have nothing {e : Buffer} (call : mbtQuoteMessageDecode heap b = .ok (none, e)) : DecodesSafely heap b :=
    ⟨none, e, call, fun m no => by cases no⟩
  generalize row : b.unread = u at handled
  cases handled with
  | @noHeader type c rest other =>
    obtain ⟨e, -, -, call⟩ := head_decoded hv heap row
    exact nothing (call.trans (if_pos other))
  | @unknown type rest other =>
    obtain ⟨e, moved, left, call⟩ := head_decoded hv heap row
    obtain ⟨last, newline, -, -⟩ := get_char_ok (moved.valid hv) left
    rw [if_neg (not_not.2 rfl), if_pos other] at call
    refine nothing (e := last) (call.trans ?_)
    simp only [messageEnd, newline, ne_eq, not_true, if_false]
  | @noMemory rest none =>
    obtain ⟨e, -, -, call⟩ := head_decoded hv heap row
    rw [if_neg (not_not.2 rfl), if_neg (not_not.2 rfl)] at call
    exact nothing (call.trans (if_pos none))
  | @loggingOn w w' rest user password c one two whole =>
    obtain ⟨e, moved, left, call⟩ := head_decoded hv heap row
    rw [if_neg (not_not.2 rfl), if_neg (not_not.2 rfl)] at call
    cases memory : heap.message with
    | false => exact nothing (call.trans (if_pos memory))
    | true =>
      have full := remaining_moved moved
      obtain ⟨last, body⟩ := logging_on_decoded (moved.valid hv) memory (w := w') (by rw [left, full]; exact one)
        (by rw [full]; exact two)
      refine ⟨_, last, call.trans body, fun m returned => ?_⟩
      by_cases newline : c = '\n'.toNat.toUInt8
      · rw [if_pos newline] at returned
        obtain ⟨wholeUser, wholePassword⟩ := whole newline
        obtain ⟨userBytes, copied, value⟩ := one.whole wholeUser
        obtain ⟨passwordBytes, copied', value'⟩ := two.whole wholePassword
        rw [copied, copied'] at returned
        subst newline
        exact ⟨userBytes, passwordBytes, (Option.some.inj returned).symm, w, w', rest, row, value, value'⟩
      · rw [if_neg newline] at returned
        cases returned

/-- What is decoded safely is handled. -/
theorem handled_of_safe (hv : b.Valid) {heap : Heap} (safe : DecodesSafely heap b) :
    Handled heap (b.bufferRemaining = 0) b.unread := by
  obtain ⟨msg, b', call, right⟩ := safe
  match row : b.unread with
  | [] =>
    rw [mbtQuoteMessageDecode, get_char_empty hv row] at call
    cases call
  | [type] =>
    obtain ⟨a, first, moved, left⟩ := get_char_ok hv row
    simp only [mbtQuoteMessageDecode, first, get_char_empty (moved.valid hv) left] at call
    cases call
  | type :: c :: u =>
    obtain ⟨e, moved, left, body⟩ := head_decoded hv heap row
    have valid := moved.valid hv
    by_cases header : c = '|'.toNat.toUInt8
    swap
    · exact .noHeader header
    subst header
    rw [if_neg (not_not.2 rfl)] at body
    by_cases known : type = 'L'.toNat.toUInt8
    · subst known
      rw [if_neg (not_not.2 rfl)] at body
      cases memory : heap.message with
      | false => exact .noMemory memory
      | true =>
        obtain ⟨user, password, w, c, rest, one, two⟩ := logging_on_found valid memory (body.symm.trans call)
        obtain ⟨last, ends⟩ := logging_on_decoded valid memory one two
        rw [left, remaining_moved moved] at one
        rw [remaining_moved moved] at two
        refine .loggingOn one two fun newline => ?_
        rw [if_pos newline] at ends
        obtain ⟨same, -⟩ := Prod.mk.inj (Except.ok.inj (call.symm.trans (body.trans ends)))
        obtain ⟨userBytes, passwordBytes, values, p, p', rest', u', value, value'⟩ := right _ same
        obtain ⟨copied, copied'⟩ := LoggingOn.mk.inj values
        obtain ⟨-, tails⟩ := List.cons.inj (row.symm.trans u')
        obtain ⟨-, rfl⟩ := List.cons.inj tails
        have wholeUser := whole_of_bind one copied value
        obtain ⟨v, -, first⟩ := one.whole wholeUser
        obtain ⟨-, rfl⟩ := first.unique value
        exact ⟨wholeUser, whole_of_bind two copied' value'⟩
    · rw [if_pos known] at body
      have ends := body.symm.trans call
      match tail : e.unread with
      | [] =>
        rw [messageEnd, get_char_empty valid tail] at ends
        cases ends
      | c :: rest =>
        obtain ⟨last, newline, -, -⟩ := get_char_ok valid tail
        simp only [messageEnd, newline] at ends
        by_cases is : c = '\n'.toNat.toUInt8
        · rw [← left, tail, is]
          exact .unknown known
        · rw [if_pos is] at ends
          cases ends

end Steps

/-- **Decoding safely.** A call reads what there is only and returns nothing, or the values of a complete message, if
and only if the second byte is no `|`; or the type is unknown and a newline follows; or there is no memory; or both
values and a byte behind them are found, whole if that byte is the newline. -/
theorem decodes_safely_iff (heap : Heap) {b : Buffer} (hv : b.Valid) :
    DecodesSafely heap b ↔ Handled heap (b.bufferRemaining = 0) b.unread :=
  ⟨handled_of_safe hv, safe_of_handled hv⟩

/-- `L|100=USER;101=PASS` with its newline, and four bytes of room. -/
def logon : Buffer :=
  ⟨[76, 124, 49, 48, 48, 61, 85, 83, 69, 82, 59, 49, 48, 49, 61, 80, 65, 83, 83, 10, 0, 0, 0, 0], 0, 20⟩

/-- It is decoded. -/
theorem logon_decoded : DecodesSafely ⟨true, true, true⟩ logon := by
  have room : ¬logon.bufferRemaining = 0 := by decide
  refine (decodes_safely_iff ⟨true, true, true⟩ ⟨by decide, by decide⟩).2 ?_
  have plain {v : List UInt8} (all : (v.all fun c => !isDelim c) = true) : ∀ c ∈ v, isDelim c = false :=
    fun c hc => by simpa using List.all_eq_true.1 all c hc
  have first : Value [49, 48, 48, 61, 85, 83, 69, 82, 59, 49, 48, 49, 61, 80, 65, 83, 83, 10] [85, 83, 69, 82]
      [59, 49, 48, 49, 61, 80, 65, 83, 83, 10] :=
    @Value.mk [49, 48, 48] [85, 83, 69, 82] [49, 48, 49, 61, 80, 65, 83, 83, 10] 59 (by decide) (plain rfl) rfl
  have second : Value [59, 49, 48, 49, 61, 80, 65, 83, 83, 10] [80, 65, 83, 83] [10] :=
    @Value.mk [59, 49, 48, 49] [80, 65, 83, 83] [] 10 (by decide) (plain rfl) rfl
  exact .loggingOn (.value first fun full => absurd full room) (.value second fun full => absurd full room)
    fun _ => ⟨⟨_, rfl, by decide, rfl⟩, ⟨_, rfl, by decide, rfl⟩⟩

/-- Of an unknown type without the newline, a null pointer is freed; a value that does not end is read on behind the
bytes there are; and in a full buffer a value is not found. -/
theorem unsafe_messages : ¬DecodesSafely ⟨true, true, true⟩ ⟨[85, 124, 120], 0, 3⟩ ∧
    ¬DecodesSafely ⟨true, true, true⟩ ⟨[76, 124, 49, 61, 65, 0, 0, 0], 0, 5⟩ ∧
    ¬DecodesSafely ⟨true, true, true⟩ ⟨[76, 124, 61, 65, 61, 10], 0, 6⟩ := by
  refine ⟨?_, ?_, ?_⟩
  · rintro ⟨msg, b', call, -⟩
    have fault : mbtQuoteMessageDecode ⟨true, true, true⟩ ⟨[85, 124, 120], 0, 3⟩ = .error .nullPointer := by decide
    cases fault.symm.trans call
  · rintro ⟨msg, b', call, -⟩
    have fault : mbtQuoteMessageDecode ⟨true, true, true⟩ ⟨[76, 124, 49, 61, 65, 0, 0, 0], 0, 5⟩ = .error .overrun := by
      decide
    cases fault.symm.trans call
  · rintro ⟨msg, b', call, values⟩
    have returned : mbtQuoteMessageDecode ⟨true, true, true⟩ ⟨[76, 124, 61, 65, 61, 10], 0, 6⟩ =
        .ok (some ⟨none, some []⟩, ⟨[76, 124, 61, 65, 61, 10], 6, 6⟩) := by rfl
    obtain ⟨rfl, -⟩ := Prod.mk.inj (Except.ok.inj (returned.symm.trans call))
    obtain ⟨user, password, same, -⟩ := values _ rfl
    cases (LoggingOn.mk.inj same).1

end Libtrading.MbtQuote
