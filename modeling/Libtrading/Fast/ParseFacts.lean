import Libtrading.Fast.Parse

/-!
# What the wire readers do to the buffer

Each reader moves `start` forward inside the received bytes (`Moved`), and
bytes received later change nothing it has already decided: unless it ran out
of bytes, it returns the same thing and stands at the same place.
-/

namespace Libtrading.Fast
open Buffer

namespace Parse
variable {α : Type}

/-- `ok` for a value, else the reason there is none. -/
def ret : Parse α → Ret
  | .done _ _ => .ok
  | .fail ret _ => ret

/-- Where the reader stands. -/
def buffer : Parse α → Buffer
  | .done _ b => b
  | .fail _ b => b

/-- The same result over a buffer that has received more. -/
def receive (x : List UInt8) : Parse α → Parse α
  | .done v b => .done v (b.receive x)
  | .fail ret b => .fail ret (b.receive x)

end Parse

/-- A byte is taken at `start`, where one is left. -/
theorem next_byte_some {b b' : Buffer} {c : UInt8} (hv : b.Valid) (h : nextByte b = some (c, b')) :
    b.start < b.stop ∧ c = b.byteAt b.start ∧ b' = b.bufferAdvance 1 := by
  unfold nextByte at h
  split at h
  · cases h
  · rename_i hs
    rw [hv.size_eq] at hs
    simp only [bufferGet8, Option.some.injEq, Prod.mk.injEq] at h
    exact ⟨by omega, h.1.symm, h.2.symm⟩

/-- **One byte** moves the buffer forward. -/
theorem next_byte_moved {b b' : Buffer} {c : UInt8} (hv : b.Valid) (h : nextByte b = some (c, b')) :
    b.Moved b' := by
  obtain ⟨hs, -, rfl⟩ := next_byte_some hv h
  exact ⟨rfl, rfl, Nat.le_succ _, hs⟩

/-- It leaves one byte less. -/
theorem size_next {b b' : Buffer} {c : UInt8} (hv : b.Valid) (h : nextByte b = some (c, b')) :
    b'.Valid ∧ b.bufferSize = b'.bufferSize + 1 := by
  have valid := (next_byte_moved hv h).valid hv
  obtain ⟨left, -, rfl⟩ := next_byte_some hv h
  refine ⟨valid, ?_⟩
  rw [hv.size_eq, valid.size_eq]
  simp only [bufferAdvance]
  omega

theorem size_none {b : Buffer} (h : nextByte b = none) : b.bufferSize = 0 := by
  unfold nextByte at h
  split at h
  · assumption
  · cases h

/-- A byte that is there is the same with more bytes behind it. -/
theorem next_byte_receive {b b' : Buffer} {c : UInt8} (hv : b.Valid) (h : nextByte b = some (c, b'))
    (x : List UInt8) : nextByte (b.receive x) = some (c, b'.receive x) := by
  obtain ⟨hs, rfl, rfl⟩ := next_byte_some hv h
  unfold nextByte
  rw [(hv.receive x).size_eq, if_neg (by simp only [receive_start, receive_stop]; omega)]
  simp only [bufferGet8, receive_start, byteAt_receive hv hs]
  rfl

/-- The stop-bit loop moves forward, by induction on the groups it may still take. -/
theorem parse_groups_moved {n : Nat} {r : BitVec 64} {b : Buffer} (hv : b.Valid) :
    b.Moved (parseGroups n r b).buffer := by
  induction n generalizing r b with
  | zero => exact hv.refl_moved
  | succ n ih =>
    unfold parseGroups
    split
    · exact hv.refl_moved
    · rename_i c b' h
      have moved := next_byte_moved hv h
      split
      · exact moved
      · exact moved.trans (ih (moved.valid hv))

/-- **Seven bits at a time**: a number that is complete is not changed by later bytes. -/
theorem parse_groups_receive {n : Nat} {r : BitVec 64} {b : Buffer} (hv : b.Valid)
    (h : (parseGroups n r b).ret ≠ .msgPartial) (x : List UInt8) :
    parseGroups n r (b.receive x) = (parseGroups n r b).receive x := by
  induction n generalizing r b with
  | zero => rfl
  | succ n ih =>
    unfold parseGroups at h ⊢
    cases hn : nextByte b with
    | none =>
      rw [hn] at h
      exact absurd rfl h
    | some cb =>
      obtain ⟨c, b'⟩ := cb
      rw [hn] at h
      rw [next_byte_receive hv hn]
      simp only at h ⊢
      split
      · rfl
      · rename_i hc
        rw [if_neg hc] at h
        exact ih ((next_byte_moved hv hn).valid hv) h

/-- No number: too many groups, or too few bytes. -/
theorem parse_groups_fails {room : Nat} {r : BitVec 64} {b b' : Buffer} {ret : Ret} (h : parseGroups room r b = .fail ret b') :
    ret = .garbled ∨ ret = .msgPartial := by
  induction room generalizing r b with
  | zero =>
    obtain ⟨rfl, -⟩ := Parse.fail.inj h
    exact .inl rfl
  | succ room ih =>
    unfold parseGroups at h
    split at h
    · obtain ⟨rfl, -⟩ := Parse.fail.inj h
      exact .inr rfl
    · split at h
      · cases h
      · exact ih h

theorem parse_uint_moved {b : Buffer} (hv : b.Valid) : b.Moved (parseUint b).buffer :=
  parse_groups_moved hv

theorem parse_uint_receive {b : Buffer} (hv : b.Valid) (h : (parseUint b).ret ≠ .msgPartial)
    (x : List UInt8) : parseUint (b.receive x) = (parseUint b).receive x :=
  parse_groups_receive hv h x

theorem parse_int_fails {b b' : Buffer} {ret : Ret} (h : parseInt b = .fail ret b') : ret = .garbled ∨ ret = .msgPartial := by
  unfold parseInt at h
  split at h
  · obtain ⟨rfl, -⟩ := Parse.fail.inj h
    exact .inr rfl
  · exact parse_groups_fails h

theorem parse_int_moved {b : Buffer} (hv : b.Valid) : b.Moved (parseInt b).buffer := by
  unfold parseInt
  split
  · exact hv.refl_moved
  · exact parse_groups_moved hv

/-- The sign comes from a byte that is there. -/
theorem parse_int_receive {b : Buffer} (hv : b.Valid) (h : (parseInt b).ret ≠ .msgPartial)
    (x : List UInt8) : parseInt (b.receive x) = (parseInt b).receive x := by
  unfold parseInt at h ⊢
  split at h
  · exact absurd rfl h
  · rename_i hs
    have size := hv.size_eq
    have size' := (hv.receive x).size_eq
    simp only [receive_start, receive_stop] at size'
    have left : b.start < b.stop := by omega
    have peek : (b.receive x).bufferPeek8 = b.bufferPeek8 := byteAt_receive hv left x
    rw [if_neg hs, if_neg (by omega), peek]
    exact parse_groups_receive hv h x

namespace StringRead

/-- The same read over a buffer that has received more. -/
def receive (x : List UInt8) (r : StringRead) : StringRead := { r with buffer := r.buffer.receive x }

end StringRead

/-- The string loop moves forward, one byte at a time. -/
theorem parse_string_from_moved {room len : Nat} {value : List UInt8} {b : Buffer} (hv : b.Valid) :
    b.Moved (parseStringFrom room len value b).buffer := by
  induction room generalizing len value b with
  | zero => exact hv.refl_moved
  | succ room ih =>
    unfold parseStringFrom
    split
    · exact hv.refl_moved
    · rename_i c b' h
      have moved := next_byte_moved hv h
      split
      · exact moved
      · exact moved.trans (ih (moved.valid hv))

theorem parse_string_moved {b : Buffer} (hv : b.Valid) (value : List UInt8) (size : Nat) :
    b.Moved (parseString b value size).buffer :=
  parse_string_from_moved hv

/-- The stores of an interrupted string read are repeated by the read that completes it: whether the
array still holds them or not makes no difference. -/
theorem parse_string_from_receive {room len : Nat} {value : List UInt8} {b : Buffer} (hv : b.Valid)
    (h : (parseStringFrom room len value b).ret ≠ .msgPartial) (x : List UInt8) :
    parseStringFrom room len value (b.receive x) = (parseStringFrom room len value b).receive x := by
  induction room generalizing len value b with
  | zero => rfl
  | succ room ih =>
    unfold parseStringFrom at h ⊢
    cases hn : nextByte b with
    | none =>
      rw [hn] at h
      exact absurd rfl h
    | some cb =>
      obtain ⟨c, b'⟩ := cb
      rw [hn] at h
      rw [next_byte_receive hv hn]
      simp only at h ⊢
      split
      · rfl
      · rename_i hc
        rw [if_neg hc] at h
        exact ih ((next_byte_moved hv hn).valid hv) h

theorem parse_string_receive {b : Buffer} (hv : b.Valid) {value : List UInt8} {size : Nat}
    (h : (parseString b value size).ret ≠ .msgPartial) (x : List UInt8) :
    parseString (b.receive x) value size = (parseString b value size).receive x :=
  parse_string_from_receive hv h x

/-- The positions before the cursor are left alone. -/
theorem parse_string_from_before {room len i : Nat} {value : List UInt8} {b : Buffer} (hi : i < len) :
    (parseStringFrom room len value b).value[i]? = value[i]? := by
  induction room generalizing len value b with
  | zero => rfl
  | succ room ih =>
    unfold parseStringFrom
    split
    · rfl
    · split
      · simp only
        rw [List.getElem?_set_ne (by omega), List.getElem?_set_ne (by omega)]
      · rw [ih (by omega), List.getElem?_set_ne (by omega)]

/-- A store of what is there already. -/
theorem set_eq_self {α : Type} {l : List α} {i : Nat} {a : α} (h : i < l.length → l[i]? = some a) :
    l.set i a = l := by
  apply List.ext_getElem?
  intro k
  rw [List.getElem?_set]
  split
  · subst_vars
    split
    · rename_i hi
      exact (h hi).symm
    · rename_i hi
      exact (List.getElem?_eq_none (by omega)).symm
  · rfl

theorem parse_string_from_length {room len : Nat} {value : List UInt8} {b : Buffer} :
    (parseStringFrom room len value b).value.length = value.length := by
  induction room generalizing len value b with
  | zero => rfl
  | succ room ih =>
    unfold parseStringFrom
    split
    · rfl
    · split
      · simp
      · rw [ih, List.length_set]

/-- The stores of an interrupted read are made again by the read that has more bytes, so the array
may as well hold them already. -/
theorem parse_string_from_again {room len : Nat} {value : List UInt8} {b : Buffer} (hv : b.Valid)
    (h : (parseStringFrom room len value b).ret = .msgPartial) (x : List UInt8) :
    parseStringFrom room len (parseStringFrom room len value b).value (b.receive x) =
      parseStringFrom room len value (b.receive x) := by
  induction room generalizing len value b with
  | zero => rfl
  | succ room ih =>
    cases hn : nextByte b with
    | none => simp only [parseStringFrom, hn]
    | some cb =>
      obtain ⟨c, b'⟩ := cb
      have hn' := next_byte_receive hv hn x
      by_cases hc : isStop c
      · simp only [parseStringFrom, hn, hc, if_true] at h
        cases h
      · simp only [parseStringFrom, hn, hc, if_false, Bool.false_eq_true] at h
        have stored : (parseStringFrom room (len + 1) (value.set len c) b').value.set len c =
            (parseStringFrom room (len + 1) (value.set len c) b').value := by
          apply set_eq_self
          intro hl
          rw [parse_string_from_length, List.length_set] at hl
          rw [parse_string_from_before (by omega), List.getElem?_set_self hl]
        simp only [parseStringFrom, hn, hn', hc, if_false, Bool.false_eq_true, stored]
        exact ih ((next_byte_moved hv hn).valid hv) h

/-- **An interrupted string** is read again over what the interrupted read left. -/
theorem parse_string_again {b : Buffer} (hv : b.Valid) {value : List UInt8} {size : Nat}
    (h : (parseString b value size).ret = .msgPartial) (x : List UInt8) :
    parseString (b.receive x) (parseString b value size).value size =
      parseString (b.receive x) value size :=
  parse_string_from_again hv h x

theorem parse_string_length {b : Buffer} {value : List UInt8} {size : Nat} :
    (parseString b value size).value.length = value.length :=
  parse_string_from_length

/-! ## Counted bytes -/

/-- Bytes that are there are taken. -/
theorem take_bytes_moved {n : Nat} {b : Buffer} (hv : b.Valid) (hn : n ≤ b.bufferSize) :
    b.Moved (takeBytes n b).2 := by
  induction n generalizing b with
  | zero => exact hv.refl_moved
  | succ n ih =>
    rw [hv.size_eq] at hn
    have one : b.Moved (b.bufferAdvance 1) := ⟨rfl, rfl, Nat.le_succ _, by simp only [bufferAdvance]; omega⟩
    refine one.trans (ih (one.valid hv) ?_)
    rw [(one.valid hv).size_eq]
    simp only [bufferAdvance]
    omega

/-- They are the same with more bytes behind them. -/
theorem take_bytes_receive {n : Nat} {b : Buffer} (hv : b.Valid) (hn : n ≤ b.bufferSize) (x : List UInt8) :
    takeBytes n (b.receive x) = ((takeBytes n b).1, (takeBytes n b).2.receive x) := by
  induction n generalizing b with
  | zero => rfl
  | succ n ih =>
    rw [hv.size_eq] at hn
    have one : b.Moved (b.bufferAdvance 1) := ⟨rfl, rfl, Nat.le_succ _, by simp only [bufferAdvance]; omega⟩
    have rest := ih (one.valid hv) (by rw [(one.valid hv).size_eq]; simp only [bufferAdvance]; omega)
    have left : b.start < b.stop := by omega
    have byte : (b.receive x).byteAt (b.receive x).start = b.byteAt b.start :=
      byteAt_receive hv left x
    simp only [takeBytes, bufferGet8, byte]
    exact congrArg (fun p => (b.byteAt b.start :: p.1, p.2)) rest

/-- A vector is taken whole or not at all. -/
theorem parse_bytes_moved {b : Buffer} {value : List UInt8} {len : BitVec 32} (hv : b.Valid) :
    b.Moved (parseBytes b value len).buffer := by
  unfold parseBytes
  split
  · exact hv.refl_moved
  · split
    · exact hv.refl_moved
    · rename_i h _
      simp only [not_or, Nat.not_lt] at h
      exact take_bytes_moved hv h.2

/-- It is short of bytes, or too long for the array. -/
theorem parse_bytes_fails {b b' : Buffer} {value : List UInt8} {len : BitVec 32} {ret : Ret}
    (h : parseBytes b value len = .fail ret b') : ret = .msgPartial ∨ ret = .fault := by
  unfold parseBytes at h
  split at h
  · obtain ⟨rfl, -⟩ := Parse.fail.inj h
    exact .inl rfl
  · split at h
    · obtain ⟨rfl, -⟩ := Parse.fail.inj h
      exact .inr rfl
    · cases h

/-- **A counted vector** that is there is not changed by later bytes. -/
theorem parse_bytes_receive {b : Buffer} {value : List UInt8} {len : BitVec 32} (hv : b.Valid)
    (h : (parseBytes b value len).ret ≠ .msgPartial) (x : List UInt8) :
    parseBytes (b.receive x) value len = (parseBytes b value len).receive x := by
  unfold parseBytes at h ⊢
  split at h
  · exact absurd rfl h
  · rename_i hs
    simp only [not_or, Nat.not_lt] at hs
    have size := hv.size_eq
    have size' := (hv.receive x).size_eq
    simp only [receive_start, receive_stop] at size'
    have here : ¬(len.msb ∨ b.bufferSize < len.toNat) := by
      simp only [not_or, Nat.not_lt]
      exact hs
    have more : ¬(len.msb ∨ (b.receive x).bufferSize < len.toNat) := by
      simp only [not_or, Nat.not_lt]
      exact ⟨hs.1, by omega⟩
    rw [if_neg here, if_neg more]
    split
    · rfl
    · rw [take_bytes_receive hv hs.2]
      rfl

/-! ## The presence map -/

/-- The loop over the map moves forward. -/
theorem parse_pmap_from_moved {n : Nat} {p : Pmap} {b : Buffer} (hv : b.Valid) :
    b.Moved (parsePmapFrom n p b).2.2 := by
  induction n generalizing p b with
  | zero => exact hv.refl_moved
  | succ n ih =>
    unfold parsePmapFrom
    split
    · exact hv.refl_moved
    · rename_i c b' h
      have moved := next_byte_moved hv h
      simp only
      split
      · exact moved
      · exact moved.trans (ih (moved.valid hv))

theorem parse_pmap_moved {b : Buffer} (hv : b.Valid) (p : Pmap) : b.Moved (parsePmap b p).2.2 :=
  parse_pmap_from_moved hv

/-- **The presence map**, up to its stop bit, is not changed by later bytes. -/
theorem parse_pmap_from_receive {n : Nat} {p : Pmap} {b : Buffer} (hv : b.Valid)
    (h : (parsePmapFrom n p b).1 ≠ .msgPartial) (x : List UInt8) :
    parsePmapFrom n p (b.receive x) =
      ((parsePmapFrom n p b).1, (parsePmapFrom n p b).2.1, (parsePmapFrom n p b).2.2.receive x) := by
  induction n generalizing p b with
  | zero => rfl
  | succ n ih =>
    unfold parsePmapFrom at h ⊢
    cases hn : nextByte b with
    | none =>
      rw [hn] at h
      exact absurd rfl h
    | some cb =>
      obtain ⟨c, b'⟩ := cb
      rw [hn] at h
      rw [next_byte_receive hv hn]
      simp only at h ⊢
      split
      · rfl
      · rename_i hc
        rw [if_neg hc] at h
        exact ih ((next_byte_moved hv hn).valid hv) h

theorem parse_pmap_receive {b : Buffer} (hv : b.Valid) {p : Pmap} (h : (parsePmap b p).1 ≠ .msgPartial)
    (x : List UInt8) :
    parsePmap (b.receive x) p = ((parsePmap b p).1, (parsePmap b p).2.1, (parsePmap b p).2.2.receive x) :=
  parse_pmap_from_receive hv h x

theorem parse_pmap_from_length {n : Nat} {p : Pmap} {b : Buffer} :
    (parsePmapFrom n p b).2.1.bytes.length = p.bytes.length := by
  induction n generalizing p b with
  | zero => rfl
  | succ n ih =>
    unfold parsePmapFrom
    split
    · rfl
    · simp only
      split
      · exact List.length_set
      · rw [ih, List.length_set]

/-- The bytes that are in the map already are left alone. -/
theorem parse_pmap_from_before {n i : Nat} {p : Pmap} {b : Buffer} (hi : i < p.nrBytes) :
    (parsePmapFrom n p b).2.1.bytes[i]? = p.bytes[i]? := by
  induction n generalizing p b with
  | zero => rfl
  | succ n ih =>
    unfold parsePmapFrom
    split
    · rfl
    · simp only
      split
      · exact List.getElem?_set_ne (by omega)
      · rw [ih (by simp only; omega), List.getElem?_set_ne (by omega)]

/-- Reading the map does not decide whether it is valid, and does not move its bit. -/
theorem parse_pmap_from_cursor {n : Nat} {p : Pmap} {b : Buffer} :
    (parsePmapFrom n p b).2.1.isValid = p.isValid ∧ (parsePmapFrom n p b).2.1.pmapBit = p.pmapBit := by
  induction n generalizing p b with
  | zero => exact ⟨rfl, rfl⟩
  | succ n ih =>
    unfold parsePmapFrom
    split
    · exact ⟨rfl, rfl⟩
    · simp only
      split
      · exact ⟨rfl, rfl⟩
      · exact ih

/-- The bytes of an interrupted map are stored again, at the same places. -/
theorem parse_pmap_from_again {n : Nat} {p : Pmap} {b : Buffer} (hv : b.Valid)
    (h : (parsePmapFrom n p b).1 = .msgPartial) (x : List UInt8) :
    parsePmapFrom n { (parsePmapFrom n p b).2.1 with nrBytes := p.nrBytes } (b.receive x) =
      parsePmapFrom n p (b.receive x) := by
  induction n generalizing p b with
  | zero => exact nomatch h
  | succ n ih =>
    cases hn : nextByte b with
    | none => simp only [parsePmapFrom, hn]
    | some cb =>
      obtain ⟨c, b'⟩ := cb
      have hn' := next_byte_receive hv hn x
      by_cases hc : isStop c
      · simp only [parsePmapFrom, hn, hc, if_true] at h
        cases h
      · simp only [parsePmapFrom, hn, hc, if_false, Bool.false_eq_true] at h
        let p₁ : Pmap := { p with bytes := p.bytes.set p.nrBytes c, nrBytes := p.nrBytes + 1 }
        have stored : (parsePmapFrom n p₁ b').2.1.bytes.set p.nrBytes c = (parsePmapFrom n p₁ b').2.1.bytes := by
          apply set_eq_self
          intro hl
          rw [parse_pmap_from_length, List.length_set] at hl
          rw [parse_pmap_from_before (Nat.lt_succ_self _), List.getElem?_set_self hl]
        have rest := ih ((next_byte_moved hv hn).valid hv) h
        simp only [parsePmapFrom, hn, hn', hc, if_false, Bool.false_eq_true]
        rw [stored]
        exact rest

/-- An interrupted map is read again from its first byte. -/
theorem parse_pmap_again {b : Buffer} (hv : b.Valid) {p : Pmap} (h : (parsePmap b p).1 = .msgPartial)
    (x : List UInt8) : parsePmap (b.receive x) (parsePmap b p).2.1 = parsePmap (b.receive x) p :=
  parse_pmap_from_again hv h x

end Libtrading.Fast
