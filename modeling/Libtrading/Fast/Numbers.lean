import Libtrading.Fast.Wire

/-!
# What numbers a reader and a writer agree on

A number on the wire is a run of bytes of which the last and no other has the
stop bit. The readers take what these denote modulo the 64 bits of a value,
nine groups of an unsigned number and ten of a signed one; the writers never
put more than nine.
-/

namespace Libtrading.Fast
set_option autoImplicit false
open Buffer StopBit

/-! ## Groups -/

/-- The bytes of one number: the last one, and no other, has the stop bit. -/
inductive Stopped : List UInt8 → Prop where
  | last {c : UInt8} (stop : isStop c = true) : Stopped [c]
  | more {c : UInt8} {w : List UInt8} (more : isStop c = false) (rest : Stopped w) : Stopped (c :: w)

/-- The group in a byte. -/
def digit (c : UInt8) : BitVec 7 := c.toBitVec.setWidth 7

/-- The number that the bytes denote, without a sign. -/
def unsignedNumber (w : List UInt8) : Int := denoted 0 (w.map digit)

/-- The number that the bytes denote, with the sign in bit `0x40` of the first one. -/
def signedNumber (w : List UInt8) : Int :=
  denoted (if w.headD 0 &&& 0x40 != 0 then -1 else 0) (w.map digit)

/-- The range of `u64`. -/
def FitsU64 (z : Int) : Prop := 0 ≤ z ∧ z < 2 ^ 64

/-- The range of `i64`. -/
def FitsI64 (z : Int) : Prop := -2 ^ 63 ≤ z ∧ z < 2 ^ 63

theorem septet_digit (c : UInt8) : septet c = (digit c).setWidth 64 := by
  apply BitVec.eq_of_getLsbD_eq
  intro i hi
  have mask : (0x7F : BitVec 8).getLsbD i = decide (i < 7) := by
    by_cases low : i < 8
    · have : ∀ j < 8, (0x7F : BitVec 8).getLsbD j = decide (j < 7) := by decide
      exact this i low
    · rw [BitVec.getLsbD_of_ge _ _ (by omega), decide_eq_false (by omega)]
  have byte : (0x7F : UInt8).toBitVec = 0x7F := rfl
  simp only [septet, digit, UInt8.toBitVec_and, BitVec.getLsbD_setWidth, BitVec.getLsbD_and, byte, mask, hi, decide_true,
    Bool.true_and]
  exact Bool.and_comm ..

namespace Stopped

theorem nonempty {w : List UInt8} (h : Stopped w) : w ≠ [] := by
  cases h <;> exact List.cons_ne_nil _ _

/-- No number starts with another one. -/
theorem prefix_free {w w' : List UInt8} (h : Stopped w) (h' : Stopped w') {rest rest' : List UInt8}
    (same : w ++ rest = w' ++ rest') : w = w' := by
  induction h generalizing w' with
  | last stop =>
    cases h' with
    | last _ => rw [(List.cons.inj same).1]
    | more go _ =>
      rw [(List.cons.inj same).1, go] at stop
      cases stop
  | more go _ ih =>
    cases h' with
    | last stop =>
      rw [(List.cons.inj same).1, stop] at go
      cases go
    | more _ hw =>
      obtain ⟨head, tail⟩ := List.cons.inj same
      rw [head, ih hw tail]

end Stopped

/-- The loop reads a number that fits its bound. -/
theorem parse_groups_stopped {w rest : List UInt8} (hw : Stopped w) {room : Nat} {r : BitVec 64} {b : Buffer}
    (hv : b.Valid) (fits : w.length ≤ room) (hu : b.unread = w ++ rest) :
    parseGroups room r b = .done ((w.map digit).foldl push r) (b.bufferAdvance w.length) := by
  induction hw generalizing room r b with
  | last stop =>
    obtain ⟨room, rfl⟩ : ∃ k, room = k + 1 := ⟨room - 1, by rw [List.length_singleton] at fits; omega⟩
    rw [parseGroups, next_byte_cons hv hu]
    simp only [stop, if_true, septet_digit]
    rfl
  | @more c w go _ ih =>
    rw [List.length_cons] at fits
    obtain ⟨room, rfl⟩ : ∃ k, room = k + 1 := ⟨room - 1, by omega⟩
    obtain ⟨valid, unread⟩ := unread_advance hv (w := [c]) hu
    rw [show List.length [c] = 1 from rfl] at valid unread
    rw [parseGroups, next_byte_cons hv hu]
    simp only [go, Bool.false_eq_true, if_false, septet_digit]
    rw [ih valid (by omega) unread, advance_advance, List.length_cons, Nat.add_comm 1]
    rfl

/-- What the loop has read is a number that fits its bound. -/
theorem parse_groups_done {room : Nat} {r v : BitVec 64} {b b' : Buffer} (hv : b.Valid)
    (h : parseGroups room r b = .done v b') :
    ∃ w rest, b.unread = w ++ rest ∧ Stopped w ∧ w.length ≤ room := by
  induction room generalizing r b with
  | zero => cases h
  | succ room ih =>
    unfold parseGroups at h
    cases next : nextByte b with
    | none =>
      rw [next] at h
      cases h
    | some cb =>
      obtain ⟨c, rest⟩ := cb
      obtain ⟨left, rfl, rfl⟩ := next_byte_some hv next
      have unread := unread_cons hv left
      rw [next] at h
      simp only at h
      cases stop : isStop (b.byteAt b.start) with
      | true => exact ⟨[_], _, unread, .last stop, by rw [List.length_singleton]; omega⟩
      | false =>
        rw [if_neg (by rw [stop]; decide)] at h
        obtain ⟨w, tail, more, stopped, fits⟩ := ih ((next_byte_moved hv next).valid hv) h
        refine ⟨_ :: w, tail, ?_, .more stop stopped, by rw [List.length_cons]; omega⟩
        rw [unread, more]
        rfl

/-! ## What the readers read -/

theorem parse_uint_stopped {w rest : List UInt8} (hw : Stopped w) {b : Buffer} (hv : b.Valid) (fits : w.length ≤ 9)
    (hu : b.unread = w ++ rest) :
    parseUint b = .done (BitVec.ofInt 64 (unsignedNumber w)) (b.bufferAdvance w.length) := by
  rw [parseUint, parse_groups_stopped hw hv fits hu, unsignedNumber, ← foldl_push_of_int]
  rfl

/-- `parse_int` starts with the sign of the first byte. -/
theorem parse_int_eq {b : Buffer} (hv : b.Valid) {c : UInt8} {rest : List UInt8} (hu : b.unread = c :: rest) :
    parseInt b = parseGroups 10 (if c &&& 0x40 != 0 then -1 else 0) b := by
  have left : b.start < b.stop := by
    have length := length_unread hv
    rw [hu, List.length_cons] at length
    omega
  have head := unread_cons hv left
  rw [hu] at head
  have peek : b.bufferPeek8 = c := (List.cons.inj head).1.symm
  rw [parseInt, if_neg (by rw [hv.size_eq]; omega), peek]

theorem parse_int_stopped {w rest : List UInt8} (hw : Stopped w) {b : Buffer} (hv : b.Valid) (fits : w.length ≤ 10)
    (hu : b.unread = w ++ rest) :
    parseInt b = .done (BitVec.ofInt 64 (signedNumber w)) (b.bufferAdvance w.length) := by
  obtain ⟨c, cs, rfl⟩ := List.exists_cons_of_ne_nil hw.nonempty
  rw [parse_int_eq hv hu, parse_groups_stopped hw hv fits hu, signedNumber, List.headD_cons, ← foldl_push_of_int]
  split <;> rfl

theorem parse_int_done {b b' : Buffer} {v : I64} (hv : b.Valid) (h : parseInt b = .done v b') :
    ∃ w rest, b.unread = w ++ rest ∧ Stopped w ∧ w.length ≤ 10 := by
  unfold parseInt at h
  split at h
  · cases h
  · exact parse_groups_done hv h

theorem unsigned_bounds (w : List UInt8) : 0 ≤ unsignedNumber w ∧ unsignedNumber w < 128 ^ w.length := by
  have bounds := denoted_bounds 0 (w.map digit)
  rw [List.length_map] at bounds
  simpa [unsignedNumber] using bounds

/-- A signed number of one byte and `w` is from `-64` to `64` times what `w` may count. -/
theorem signed_bounds (c : UInt8) (w : List UInt8) :
    -64 * 128 ^ w.length ≤ signedNumber (c :: w) ∧ signedNumber (c :: w) < 64 * 128 ^ w.length := by
  let z : Int := 128 * (if c &&& 0x40 != 0 then -1 else 0) + (digit c).toNat
  have first : -64 ≤ z ∧ z + 1 ≤ 64 := by
    have all : ∀ c : BitVec 8, -64 ≤ (128 * (if (⟨c⟩ : UInt8) &&& 0x40 != 0 then -1 else 0) + (digit ⟨c⟩).toNat : Int) ∧
        (128 * (if (⟨c⟩ : UInt8) &&& 0x40 != 0 then -1 else 0) + (digit ⟨c⟩).toNat : Int) + 1 ≤ 64 := by
      decide
    exact all c.toBitVec
  obtain ⟨lower, upper⟩ := denoted_bounds z (w.map digit)
  rw [List.length_map] at lower upper
  have positive : (0 : Int) < 128 ^ w.length := Int.pow_pos (by decide)
  have number : signedNumber (c :: w) = denoted z (w.map digit) := rfl
  rw [number]
  exact ⟨Int.le_trans (Int.mul_le_mul_of_nonneg_right first.1 (by omega)) lower,
    Int.lt_of_lt_of_le upper (Int.mul_le_mul_of_nonneg_right first.2 (by omega))⟩

theorem to_nat_of_fits {z : Int} (h : FitsU64 z) : ((BitVec.ofInt 64 z).toNat : Int) = z := by
  obtain ⟨lower, upper⟩ := h
  rw [BitVec.toNat_ofInt]
  omega

theorem to_int_of_fits {z : Int} (h : FitsI64 z) : (BitVec.ofInt 64 z).toInt = z := by
  obtain ⟨lower, upper⟩ := h
  rw [BitVec.toInt_ofInt]
  exact Int.bmod_eq_of_le (by omega) (by omega)

/-- Nine groups are the 63 bits that every `u64` below `2 ^ 63` fits. -/
theorem unsigned_nine {w : List UInt8} (fits : w.length ≤ 9) : unsignedNumber w < 2 ^ 63 := by
  have wide : (128 : Int) ^ w.length ≤ 128 ^ 9 := by exact_mod_cast Nat.pow_le_pow_right (by decide) fits
  have := (unsigned_bounds w).2
  omega

theorem signed_nine {w : List UInt8} (hw : Stopped w) (fits : w.length ≤ 9) :
    -2 ^ 62 ≤ signedNumber w ∧ signedNumber w < 2 ^ 62 := by
  obtain ⟨c, cs, rfl⟩ := List.exists_cons_of_ne_nil hw.nonempty
  rw [List.length_cons] at fits
  have wide : (128 : Int) ^ cs.length ≤ 128 ^ 8 := by
    exact_mod_cast Nat.pow_le_pow_right (by decide) (show cs.length ≤ 8 by omega)
  have := signed_bounds c cs
  omega

/-! ## Numbers that survive the wire -/

theorem wire_groups_stopped (v : BitVec 64) (n : Nat) : Stopped (wireGroups v (n + 1)) := by
  induction n with
  | zero =>
    have byte : group v 0 = _ := group_septet v 0
    exact .last (by rw [byte]; exact (septet_stop _).2.1)
  | succ n ih => exact .more (by rw [group_septet]; exact (septet_more _).2.1) ih

theorem transfer_size_uint_bounds (v : U64) : ∃ n, transferSizeUint v = n + 1 ∧ n < 9 := by
  unfold transferSizeUint
  repeat' split
  all_goals exact ⟨_, rfl, by decide⟩

theorem transfer_size_int_bounds (v : I64) : ∃ n, transferSizeInt v = n + 1 ∧ n < 9 := by
  unfold transferSizeInt
  simp only
  repeat' split
  all_goals exact ⟨_, rfl, by decide⟩

/-- What `transfer_uint` has put is read back, if and only if the value needs no 64th bit. -/
theorem uint_survives {b b' : Buffer} {v : U64} (hv : b.Valid) (h : transferUint b v = (true, b')) :
    ∃ w, b.Appends b' w ∧ ∀ {c : Buffer} {rest : List UInt8}, c.Valid → c.unread = w ++ rest →
      (parseUint c = .done v (c.bufferAdvance w.length) ↔ v.toNat < 2 ^ 63) := by
  by_cases range : v.toNat < 2 ^ 63
  · obtain ⟨w, put, carries⟩ := transfer_uint_carries hv range h
    exact ⟨w, put, fun hc hu => iff_of_true (carries hc hu) range⟩
  · obtain ⟨n, size, bound⟩ := transfer_size_uint_bounds v
    rw [transferUint, size] at h
    split at h
    · cases h
    · rename_i room
      obtain ⟨-, rfl⟩ := Prod.mk.inj h
      refine ⟨_, put_groups_appends v hv (by omega), fun {c rest} hc hu => iff_of_false (fun read => ?_) range⟩
      have length := length_wire_groups v (n + 1)
      have stopped := wire_groups_stopped v n
      rw [parse_uint_stopped stopped hc (by omega) hu] at read
      have value := (Parse.done.inj read).1
      have small := unsigned_nine (w := wireGroups v (n + 1)) (by omega)
      have number := to_nat_of_fits ⟨(unsigned_bounds (wireGroups v (n + 1))).1, by omega⟩
      rw [value] at number
      omega

/-- What `transfer_int` has put is read back, if and only if 63 bits hold the value. -/
theorem int_survives {b b' : Buffer} {v : I64} (hv : b.Valid) (h : transferInt b v = (true, b')) :
    ∃ w, b.Appends b' w ∧ ∀ {c : Buffer} {rest : List UInt8}, c.Valid → c.unread = w ++ rest →
      (parseInt c = .done v (c.bufferAdvance w.length) ↔ -2 ^ 62 ≤ v.toInt ∧ v.toInt < 2 ^ 62) := by
  by_cases range : -2 ^ 62 ≤ v.toInt ∧ v.toInt < 2 ^ 62
  · obtain ⟨w, put, carries⟩ := transfer_int_carries hv range.1 range.2 h
    exact ⟨w, put, fun hc hu => iff_of_true (carries hc hu) range⟩
  · obtain ⟨n, size, bound⟩ := transfer_size_int_bounds v
    rw [transferInt, size] at h
    split at h
    · cases h
    · rename_i room
      obtain ⟨-, rfl⟩ := Prod.mk.inj h
      refine ⟨_, put_groups_appends v hv (by omega), fun {c rest} hc hu => iff_of_false (fun read => ?_) range⟩
      have length := length_wire_groups v (n + 1)
      have stopped := wire_groups_stopped v n
      rw [parse_int_stopped stopped hc (by omega) hu] at read
      have value := (Parse.done.inj read).1
      have small := signed_nine stopped (by omega)
      have number := to_int_of_fits (z := signedNumber (wireGroups v (n + 1))) ⟨by omega, by omega⟩
      rw [value] at number
      omega

/-- **Integers on the wire.** A value that a writer has put without an error is read back with exactly its
bytes, from any buffer that holds them next, if and only if it is an unsigned one below `2 ^ 63` or a signed
one of 63 bits. -/
theorem integers_survive_iff {b b' : Buffer} (hv : b.Valid) :
    (∀ v : U64, transferUint b v = (true, b') →
      ∃ w, b.Appends b' w ∧ ∀ {c : Buffer} {rest : List UInt8}, c.Valid → c.unread = w ++ rest →
        (parseUint c = .done v (c.bufferAdvance w.length) ↔ v.toNat < 2 ^ 63)) ∧
      ∀ v : I64, transferInt b v = (true, b') →
        ∃ w, b.Appends b' w ∧ ∀ {c : Buffer} {rest : List UInt8}, c.Valid → c.unread = w ++ rest →
          (parseInt c = .done v (c.bufferAdvance w.length) ↔ -2 ^ 62 ≤ v.toInt ∧ v.toInt < 2 ^ 62) :=
  ⟨fun _ h => uint_survives hv h, fun _ h => int_survives hv h⟩

/-- A `5` is among the values that survive. -/
theorem five_survives :
    ∃ w, (bufferNew 16).Appends (bufferPut (bufferNew 16) 0x85) w ∧
      ∀ {c : Buffer} {rest : List UInt8}, c.Valid → c.unread = w ++ rest →
        (parseUint c = .done 5 (c.bufferAdvance w.length) ↔ (5 : U64).toNat < 2 ^ 63) :=
  (integers_survive_iff ⟨by decide, by decide⟩).1 5 (by decide)

/-- `2 ^ 63` goes out in nine groups without an error and is read as 0, and `2 ^ 62` as `-2 ^ 62`. -/
theorem top_bit_lost :
    (∃ b' : Buffer, transferUint (bufferNew 16) 0x8000000000000000 = (true, b') ∧
      parseUint b' = .done 0 (b'.bufferAdvance 9)) ∧
      ∃ b' : Buffer, transferInt (bufferNew 16) 0x4000000000000000 = (true, b') ∧
        parseInt b' = .done 0xC000000000000000 (b'.bufferAdvance 9) :=
  ⟨⟨(transferUint (bufferNew 16) 0x8000000000000000).2, by decide +kernel, by decide +kernel⟩,
    ⟨(transferInt (bufferNew 16) 0x4000000000000000).2, by decide +kernel, by decide +kernel⟩⟩

/-! ## Numbers that are read exactly -/

/-- A reader is exact on a buffer: the value it stores is the number that the bytes it consumed denote, and
a number of up to ten groups that fits the value is accepted. -/
structure Exact (parse : Buffer → Parse (BitVec 64)) (value : BitVec 64 → Int) (number : List UInt8 → Int)
    (fits : Int → Prop) (b : Buffer) : Prop where
  exact : ∀ v b', parse b = .done v b' →
    ∃ w rest, b.unread = w ++ rest ∧ Stopped w ∧ b' = b.bufferAdvance w.length ∧ value v = number w
  accepts : ∀ w rest, b.unread = w ++ rest → Stopped w → w.length ≤ 10 → fits (number w) →
    ∃ v b', parse b = .done v b'

/-- The next number of a buffer has ten groups and is one that `fits` speaks of. -/
def TenGroups (number : List UInt8 → Int) (fits : Int → Prop) (b : Buffer) : Prop :=
  ∃ w rest, b.unread = w ++ rest ∧ Stopped w ∧ w.length = 10 ∧ fits (number w)

theorem uint_exact {b : Buffer} (hv : b.Valid) :
    Exact parseUint (fun v => v.toNat) unsignedNumber FitsU64 b ↔ ¬TenGroups unsignedNumber FitsU64 b := by
  constructor
  · rintro ⟨-, accepts⟩ ⟨w, rest, unread, stopped, ten, fits⟩
    obtain ⟨v, b', read⟩ := accepts w rest unread stopped (by omega) fits
    obtain ⟨w', rest', unread', stopped', nine⟩ := parse_groups_done hv read
    rw [unread] at unread'
    rw [stopped.prefix_free stopped' unread'] at ten
    omega
  · intro short
    refine ⟨fun v b' read => ?_, fun w rest unread stopped ten fits => ?_⟩
    · obtain ⟨w, rest, unread, stopped, nine⟩ := parse_groups_done hv read
      rw [parse_uint_stopped stopped hv nine unread] at read
      obtain ⟨rfl, rfl⟩ := Parse.done.inj read
      have small := unsigned_nine nine
      exact ⟨w, rest, unread, stopped, rfl, to_nat_of_fits ⟨(unsigned_bounds w).1, by omega⟩⟩
    · have nine : w.length ≤ 9 := by
        by_cases ten : w.length = 10
        · exact absurd ⟨w, rest, unread, stopped, ten, fits⟩ short
        · omega
      exact ⟨_, _, parse_uint_stopped stopped hv nine unread⟩

theorem int_exact {b : Buffer} (hv : b.Valid) :
    Exact parseInt BitVec.toInt signedNumber FitsI64 b ↔ ¬TenGroups signedNumber (fun z => ¬FitsI64 z) b := by
  constructor
  · rintro ⟨exact, -⟩ ⟨w, rest, unread, stopped, ten, large⟩
    obtain ⟨w', rest', unread', stopped', -, value⟩ := exact _ _ (parse_int_stopped stopped hv (by omega) unread)
    rw [unread] at unread'
    rw [← stopped.prefix_free stopped' unread'] at value
    have lower := (BitVec.ofInt 64 (signedNumber w)).le_toInt
    have upper := (BitVec.ofInt 64 (signedNumber w)).toInt_lt
    exact large ⟨by omega, by omega⟩
  · intro fit
    refine ⟨fun v b' read => ?_, fun w rest unread stopped ten _ => ⟨_, _, parse_int_stopped stopped hv ten unread⟩⟩
    obtain ⟨w, rest, unread, stopped, most⟩ := parse_int_done hv read
    have fits : FitsI64 (signedNumber w) := by
      by_cases ten : w.length = 10
      · by_cases inside : FitsI64 (signedNumber w)
        · exact inside
        · exact absurd ⟨w, rest, unread, stopped, ten, inside⟩ fit
      · have := signed_nine stopped (by omega)
        exact ⟨by omega, by omega⟩
    rw [parse_int_stopped stopped hv most unread] at read
    obtain ⟨rfl, rfl⟩ := Parse.done.inj read
    exact ⟨w, rest, unread, stopped, rfl, to_int_of_fits fits⟩

/-- **Reading integers.** `parse_uint` is exact on a buffer if and only if the next number is not one of ten
groups that fits a `u64`, and `parse_int` if and only if it is not one of ten groups beyond an `i64`. -/
theorem integers_exact_iff {b : Buffer} (hv : b.Valid) :
    (Exact parseUint (fun v => v.toNat) unsignedNumber FitsU64 b ↔ ¬TenGroups unsignedNumber FitsU64 b) ∧
      (Exact parseInt BitVec.toInt signedNumber FitsI64 b ↔ ¬TenGroups signedNumber (fun z => ¬FitsI64 z) b) :=
  ⟨uint_exact hv, int_exact hv⟩

/-- A number of one group. -/
theorem one_group_exact : Exact parseUint (fun v => v.toNat) unsignedNumber FitsU64 ⟨[0x85], 0, 1⟩ := by
  refine (integers_exact_iff (b := ⟨[0x85], 0, 1⟩) ⟨by decide, by decide⟩).1.mpr ?_
  rintro ⟨w, rest, unread, -, ten, -⟩
  have length := congrArg List.length unread
  rw [List.length_append, ten, show (⟨[0x85], 0, 1⟩ : Buffer).unread.length = 1 from rfl] at length
  omega

/-- `2 ^ 63` in ten groups is garbled to the unsigned reader, and `2 ^ 69 - 1` is `-1` to the signed one. -/
theorem ten_groups_lost :
    (parseUint ⟨[1, 0, 0, 0, 0, 0, 0, 0, 0, 0x80], 0, 10⟩).ret = .garbled ∧
      ¬Exact parseUint (fun v => v.toNat) unsignedNumber FitsU64 ⟨[1, 0, 0, 0, 0, 0, 0, 0, 0, 0x80], 0, 10⟩ ∧
      parseInt ⟨[0x3F, 0x7F, 0x7F, 0x7F, 0x7F, 0x7F, 0x7F, 0x7F, 0x7F, 0xFF], 0, 10⟩ =
        .done 0xFFFFFFFFFFFFFFFF ⟨[0x3F, 0x7F, 0x7F, 0x7F, 0x7F, 0x7F, 0x7F, 0x7F, 0x7F, 0xFF], 10, 10⟩ ∧
      ¬Exact parseInt BitVec.toInt signedNumber FitsI64
        ⟨[0x3F, 0x7F, 0x7F, 0x7F, 0x7F, 0x7F, 0x7F, 0x7F, 0x7F, 0xFF], 0, 10⟩ := by
  refine ⟨by decide, fun exact => ?_, by decide, fun exact => ?_⟩
  · refine (uint_exact ⟨by decide, by decide⟩).mp exact ⟨_, [], (List.append_nil _).symm, ?_, rfl, by decide, by decide⟩
    repeat' first | exact .last rfl | refine .more rfl ?_
  · refine (int_exact ⟨by decide, by decide⟩).mp exact ⟨_, [], (List.append_nil _).symm, ?_, rfl, ?_⟩
    · repeat' first | exact .last rfl | refine .more rfl ?_
    · intro fits
      exact absurd fits.2 (by decide)

end Libtrading.Fast
