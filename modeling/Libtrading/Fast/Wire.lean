import Libtrading.Fast.Encode
import Libtrading.Fast.ParseFacts
import Libtrading.Wire.StopBit

/-!
# What the encoder puts, the decoder reads

For every kind of value on the wire: the bytes the `transfer_*` functions put
behind the unread ones of a buffer, and what the readers make of a buffer
whose unread bytes start with them.
-/

namespace Libtrading.Fast
set_option autoImplicit false
open Buffer StopBit

theorem next_byte_cons {b : Buffer} (hv : b.Valid) {c : UInt8} {rest : List UInt8} (h : b.unread = c :: rest) :
    nextByte b = some (c, b.bufferAdvance 1) := by
  have left : b.start < b.stop := by
    have hl := length_unread hv
    rw [h, List.length_cons] at hl
    omega
  have head := unread_cons hv left
  rw [h] at head
  unfold nextByte
  rw [hv.size_eq, if_neg (by omega), bufferGet8, (List.cons.inj head).1]
  rfl

/-- The bytes `w` are the value `v` to a reader. -/
def Carries {α : Type} (parse : Buffer → Parse α) (w : List UInt8) (v : α) : Prop :=
  ∀ {b : Buffer} {rest : List UInt8}, b.Valid → b.unread = w ++ rest → parse b = .done v (b.bufferAdvance w.length)

/-! ## Numbers -/

/-- The bytes of a number in `n` groups. -/
def wireGroups (tmp : BitVec 64) : Nat → List UInt8
  | 0 => []
  | 1 => [group tmp 0 ||| 0x80]
  | n + 2 => group tmp (7 * (n + 1)) :: wireGroups tmp (n + 1)

theorem length_wire_groups (tmp : BitVec 64) (n : Nat) : (wireGroups tmp n).length = n := by
  induction n with
  | zero => rfl
  | succ n ih =>
    cases n with
    | zero => rfl
    | succ n => rw [wireGroups, List.length_cons, ih]

theorem put_groups_appends (tmp : BitVec 64) {n : Nat} {b : Buffer} (hv : b.Valid) (room : n ≤ b.bufferRemaining) :
    b.Appends (putGroups tmp n b) (wireGroups tmp n) := by
  induction n generalizing b with
  | zero => exact hv.appends_nil
  | succ n ih =>
    cases n with
    | zero => exact put_appends hv room _
    | succ n =>
      have first := put_appends hv (by omega) (group tmp (7 * (n + 1)))
      have left := put_remaining hv (by omega) (group tmp (7 * (n + 1)))
      exact first.trans (ih first.valid (by omega))

theorem group_septet (tmp : BitVec 64) (i : Nat) : group tmp (7 * i) = ⟨(septetAt tmp i).setWidth 8⟩ := by
  apply UInt8.toBitVec_inj.mp
  apply BitVec.eq_of_getLsbD_eq
  intro j hj
  have mask : (0x7F : BitVec 8).getLsbD j = decide (j < 7) := by
    have : ∀ j < 8, (0x7F : BitVec 8).getLsbD j = decide (j < 7) := by decide
    exact this j hj
  have byte : (0x7F : UInt8).toBitVec = 0x7F := rfl
  simp only [group, septetAt, UInt8.toBitVec_and, BitVec.getLsbD_and, BitVec.getLsbD_setWidth, hj, decide_true,
    Bool.true_and, BitVec.getLsbD_ushiftRight, BitVec.getLsbD_extractLsb', byte, mask]
  exact Bool.and_comm ..

theorem septet_more : ∀ g : BitVec 7, septet ⟨g.setWidth 8⟩ = g.setWidth 64 ∧ isStop ⟨g.setWidth 8⟩ = false ∧
    ((⟨g.setWidth 8⟩ : UInt8) &&& 0x40 != 0) = g.msb := by
  decide

theorem septet_stop : ∀ g : BitVec 7, septet (⟨g.setWidth 8⟩ ||| 0x80) = g.setWidth 64 ∧
    isStop (⟨g.setWidth 8⟩ ||| 0x80) = true ∧ ((⟨g.setWidth 8⟩ ||| 0x80 : UInt8) &&& 0x40 != 0) = g.msb := by
  decide

/-- The stop-bit loop reads the groups of a number. -/
theorem parse_wire_groups (tmp : BitVec 64) {n room : Nat} {r : BitVec 64} {b : Buffer} {rest : List UInt8}
    (hv : b.Valid) (hn : n < room) (hu : b.unread = wireGroups tmp (n + 1) ++ rest) :
    parseGroups room r b = .done ((septets tmp (n + 1)).foldl push r) (b.bufferAdvance (n + 1)) := by
  induction n generalizing room r b with
  | zero =>
    obtain ⟨room, rfl⟩ : ∃ k, room = k + 1 := ⟨room - 1, by omega⟩
    obtain ⟨value, stop, -⟩ := septet_stop (septetAt tmp 0)
    have byte : group tmp 0 = _ := group_septet tmp 0
    rw [parseGroups, next_byte_cons hv hu, byte]
    simp only [stop, if_true, value]
    rfl
  | succ n ih =>
    obtain ⟨room, rfl⟩ : ∃ k, room = k + 1 := ⟨room - 1, by omega⟩
    obtain ⟨value, more, -⟩ := septet_more (septetAt tmp (n + 1))
    obtain ⟨valid, unread⟩ := unread_advance hv (w := [group tmp (7 * (n + 1))]) hu
    rw [parseGroups, next_byte_cons hv hu, group_septet]
    simp only [more, Bool.false_eq_true, if_false, value]
    rw [show List.length [group tmp (7 * (n + 1))] = 1 from rfl] at valid unread
    rw [ih valid (by omega) unread, advance_advance, Nat.add_comm 1]
    rfl

/-- The first byte of a number shows its sign. -/
theorem wire_groups_sign (tmp : BitVec 64) (n : Nat) :
    ∃ c cs, wireGroups tmp (n + 1) = c :: cs ∧ (c &&& 0x40 != 0) = (septetAt tmp n).msb := by
  cases n with
  | zero =>
    have byte : group tmp 0 = _ := group_septet tmp 0
    exact ⟨_, [], rfl, by rw [byte]; exact (septet_stop _).2.2⟩
  | succ n => exact ⟨_, _, rfl, by rw [group_septet]; exact (septet_more _).2.2⟩

/-- The signed reader takes the sign of the first group. -/
theorem parse_int_groups (tmp : BitVec 64) {n : Nat} {b : Buffer} {rest : List UInt8} (hv : b.Valid) (hn : n < 10)
    (hu : b.unread = wireGroups tmp (n + 1) ++ rest) :
    parseInt b = .done ((septets tmp (n + 1)).foldl push (signFill (septetAt tmp n))) (b.bufferAdvance (n + 1)) := by
  obtain ⟨c, cs, first, sign⟩ := wire_groups_sign tmp n
  have left : b.start < b.stop := by
    have hl := length_unread hv
    rw [hu, first, List.cons_append, List.length_cons] at hl
    omega
  have peek : b.bufferPeek8 = c := by
    have head := unread_cons hv left
    rw [hu, first, List.cons_append] at head
    exact (List.cons.inj head).1.symm
  rw [parseInt, if_neg (by rw [hv.size_eq]; omega), peek, sign, parse_wire_groups tmp hv hn hu]
  rfl

theorem shift_zero {v : U64} {k : Nat} : v >>> k = 0 ↔ v.toNat < 2 ^ k := by
  rw [← BitVec.toNat_inj, BitVec.toNat_ushiftRight, Nat.shiftRight_eq_div_pow]
  exact Nat.div_eq_zero_iff_lt (Nat.two_pow_pos k)

/-- The size of an unsigned number below `2 ^ 63`. -/
theorem transfer_size_uint_fits {v : U64} (range : v.toNat < 2 ^ 63) :
    ∃ n, transferSizeUint v = n + 1 ∧ n < 9 ∧ v.toNat < 2 ^ (7 * (n + 1)) := by
  unfold transferSizeUint
  simp only [shift_zero]
  repeat' split
  · exact ⟨0, rfl, by decide, by assumption⟩
  · exact ⟨1, rfl, by decide, by assumption⟩
  · exact ⟨2, rfl, by decide, by assumption⟩
  · exact ⟨3, rfl, by decide, by assumption⟩
  · exact ⟨4, rfl, by decide, by assumption⟩
  · exact ⟨5, rfl, by decide, by assumption⟩
  · exact ⟨6, rfl, by decide, by assumption⟩
  · exact ⟨7, rfl, by decide, by assumption⟩
  · exact ⟨8, rfl, by decide, by assumption⟩

/-- `data >= 0 ? data : ~data` is the larger of the two. -/
theorem magnitude {v : I64} : (if (0 : I64).sle v then v else ~~~v).toInt = max v.toInt (-v.toInt - 1) := by
  have flipped : (~~~v).toInt = -v.toInt - 1 := by
    have := v.isLt
    rw [BitVec.toInt_eq_toNat_cond, BitVec.toInt_eq_toNat_cond, BitVec.toNat_not]
    omega
  by_cases sign : (0 : I64).sle v
  · rw [if_pos sign]
    rw [BitVec.sle_eq_decide, decide_eq_true_eq] at sign
    have : (0 : I64).toInt = 0 := rfl
    omega
  · rw [if_neg sign, flipped]
    rw [BitVec.sle_eq_decide, decide_eq_true_eq] at sign
    have : (0 : I64).toInt = 0 := rfl
    omega

theorem signed_shift_zero {v : I64} {k : Nat} (h : 0 ≤ v.toInt) : v.sshiftRight k = 0 ↔ v.toInt < 2 ^ k := by
  rw [← BitVec.toInt_inj, BitVec.toInt_sshiftRight, Int.shiftRight_eq_div_pow]
  have zero : (0 : I64).toInt = 0 := rfl
  have positive : (0 : Int) < (2 ^ k : Nat) := by exact_mod_cast Nat.two_pow_pos k
  rw [zero]
  constructor
  · intro below
    by_cases small : v.toInt < 2 ^ k
    · exact small
    · have : 1 ≤ v.toInt / (2 ^ k : Nat) := Int.le_ediv_of_mul_le positive (by push_cast; omega)
      omega
  · intro small
    exact Int.ediv_eq_zero_of_lt h (by exact_mod_cast small)

/-- The size of a signed number in `[-2 ^ 62, 2 ^ 62)`. -/
theorem transfer_size_int_fits {v : I64} (lower : -2 ^ 62 ≤ v.toInt) (upper : v.toInt < 2 ^ 62) :
    ∃ n, transferSizeInt v = n + 1 ∧ n < 9 ∧ -2 ^ (7 * n + 6) ≤ v.toInt ∧ v.toInt < 2 ^ (7 * n + 6) := by
  have size : (if (0 : I64).sle v then v else ~~~v).toInt = max v.toInt (-v.toInt - 1) := magnitude
  unfold transferSizeInt
  simp only
  generalize (if (0 : I64).sle v then v else ~~~v) = tmp at size ⊢
  simp only [signed_shift_zero (v := tmp) (by omega), size]
  repeat' split
  · exact ⟨0, rfl, by decide, by omega⟩
  · exact ⟨1, rfl, by decide, by omega⟩
  · exact ⟨2, rfl, by decide, by omega⟩
  · exact ⟨3, rfl, by decide, by omega⟩
  · exact ⟨4, rfl, by decide, by omega⟩
  · exact ⟨5, rfl, by decide, by omega⟩
  · exact ⟨6, rfl, by decide, by omega⟩
  · exact ⟨7, rfl, by decide, by omega⟩
  · exact ⟨8, rfl, by decide, by omega⟩

/-- A transfer that went through put the bytes of the value. -/
theorem transfer_uint_carries {b b' : Buffer} {v : U64} (hv : b.Valid) (range : v.toNat < 2 ^ 63)
    (h : transferUint b v = (true, b')) : ∃ w, b.Appends b' w ∧ Carries parseUint w v := by
  obtain ⟨n, size, bound, fits⟩ := transfer_size_uint_fits range
  rw [transferUint, size] at h
  split at h
  · exact nomatch h
  · rename_i room
    obtain ⟨-, rfl⟩ := Prod.mk.inj h
    refine ⟨wireGroups v (n + 1), put_groups_appends v hv (by omega), fun {b rest} hb hu => ?_⟩
    have read : parseGroups 9 0 b = _ := parse_wire_groups v hb bound hu
    rw [parseUint, read, read_unsigned fits, length_wire_groups]

theorem transfer_int_carries {b b' : Buffer} {v : I64} (hv : b.Valid) (lower : -2 ^ 62 ≤ v.toInt)
    (upper : v.toInt < 2 ^ 62) (h : transferInt b v = (true, b')) :
    ∃ w, b.Appends b' w ∧ Carries parseInt w v := by
  obtain ⟨n, size, bound, below, above⟩ := transfer_size_int_fits lower upper
  rw [transferInt, size] at h
  split at h
  · exact nomatch h
  · rename_i room
    obtain ⟨-, rfl⟩ := Prod.mk.inj h
    refine ⟨wireGroups v (n + 1), put_groups_appends v hv (by omega), fun {b rest} hb hu => ?_⟩
    rw [parse_int_groups v hb (by omega) hu, read_signed below above, length_wire_groups]

/-! ## Strings -/

/-- The characters of an array that starts with them and a zero. -/
theorem cstr_append {w rest : Bytes} (h : ∀ c ∈ w, c ≠ 0) : cstr (w ++ 0 :: rest) = w := by
  have all : ∀ c ∈ w, (c != 0) = true := fun c hc => bne_iff_ne.mpr (h c hc)
  rw [cstr, List.takeWhile_append_of_pos all, List.takeWhile_cons_of_neg (by decide), List.append_nil]

theorem cstr_nonzero {s : Bytes} : ∀ c ∈ cstr s, c ≠ 0 :=
  fun c hc => bne_iff_ne.mp (List.all_eq_true.mp List.all_takeWhile c hc)

theorem cstr_of_take {s w : Bytes} {n : Nat} (h : s.take n = w ++ [0]) (nonzero : ∀ c ∈ w, c ≠ 0) : cstr s = w := by
  rw [← List.take_append_drop n s, h, List.append_assoc]
  exact cstr_append nonzero

theorem cstr_strcpy (dst src : Bytes) : cstr (strcpy dst src) = cstr src := cstr_append cstr_nonzero

theorem put_bytes_appends {b : Buffer} (hv : b.Valid) {w : List UInt8} (room : w.length ≤ b.bufferRemaining) :
    b.Appends (putBytes b w) w ∧
      (putBytes b w).bufferRemaining = b.bufferRemaining - w.length := by
  induction w generalizing b with
  | nil => exact ⟨hv.appends_nil, rfl⟩
  | cons c cs ih =>
    rw [List.length_cons] at room
    have first := put_appends hv (by omega) c
    have left := put_remaining hv (by omega) c
    obtain ⟨rest, remaining⟩ := ih first.valid (by omega)
    refine ⟨first.trans rest, ?_⟩
    rw [List.length_cons]
    exact remaining.trans (by omega)

theorem transfer_stop_appends {b b' : Buffer} (hv : b.Valid) (h : transferStop b = (true, b')) :
    b.Appends b' [0x80] := by
  unfold transferStop at h
  split at h
  · exact nomatch h
  · rename_i room
    obtain ⟨-, rfl⟩ := Prod.mk.inj h
    exact put_appends hv (by omega) _

theorem transfer_string_appends {b b' : Buffer} {s : Bytes} (hv : b.Valid)
    (h : transferString b s = (true, b')) : b.Appends b' (stringChars s ++ [0x80]) := by
  unfold transferString at h
  split at h
  · exact nomatch h
  · rename_i room
    obtain ⟨put, -⟩ := put_bytes_appends hv (w := stringChars s) (by omega)
    exact put.trans (transfer_stop_appends put.valid h)

/-- The string reader stores characters up to the stop byte `0x80`, and a zero for it. -/
theorem parse_string_chars {m n : Nat} {v w rest : List UInt8} {b : Buffer} (hv : b.Valid)
    (more : ∀ c ∈ w, isStop c = false) (hroom : w.length < m) (fits : n + w.length + 1 < v.length)
    (hu : b.unread = w ++ 0x80 :: rest) :
    ∃ stored, parseStringFrom m n v b = ⟨.ok, n + w.length + 1, stored, b.bufferAdvance (w.length + 1)⟩ ∧
      stored.length = v.length ∧ stored.take (n + w.length + 1) = v.take n ++ w ++ [0] := by
  induction w generalizing m n v b with
  | nil =>
    obtain ⟨m, rfl⟩ : ∃ k, m = k + 1 := ⟨m - 1, by simp at hroom; omega⟩
    rw [parseStringFrom, next_byte_cons hv hu]
    refine ⟨_, rfl, by simp, ?_⟩
    simp only [List.length_nil, Nat.add_zero] at fits ⊢
    have inside : n < ((v.set n (0x80 &&& 0x7F)).set (n + 1) 0).length := by simp; omega
    rw [List.take_succ_eq_append_getElem inside, List.getElem_set_ne (by omega), List.getElem_set_self,
      List.take_set_of_le (by omega), List.take_set_of_le (by omega), List.append_nil]
    rfl
  | cons c w ih =>
    obtain ⟨m, rfl⟩ : ∃ k, m = k + 1 := ⟨m - 1, by omega⟩
    simp only [List.length_cons] at hroom fits
    obtain ⟨valid, unread⟩ := unread_advance hv (w := [c]) hu
    obtain ⟨stored, read, length, taken⟩ := ih (m := m) (n := n + 1) (v := v.set n c) valid
      (fun c hc => more c (List.mem_cons_of_mem _ hc)) (by omega) (by rw [List.length_set]; omega) unread
    rw [parseStringFrom, next_byte_cons hv hu]
    simp only [more c (List.mem_cons_self ..), Bool.false_eq_true, if_false]
    refine ⟨stored, ?_, by rw [length, List.length_set], ?_⟩
    · rw [show List.length [c] = 1 from rfl] at read
      rw [read, advance_advance, List.length_cons]
      simp only [StringRead.mk.injEq, true_and]
      exact ⟨by omega, by rw [Nat.add_comm 1]⟩
    · have first : (v.set n c).take (n + 1) = v.take n ++ [c] := by
        have inside : n < (v.set n c).length := by rw [List.length_set]; omega
        rw [List.take_succ_eq_append_getElem inside, List.getElem_set_self, List.take_set_of_le (Nat.le_refl _)]
      rw [first] at taken
      rw [List.length_cons, show n + (w.length + 1) + 1 = n + 1 + w.length + 1 by omega, taken]
      simp

end Libtrading.Fast
