import Mathlib.Data.Nat.Log
import Libtrading.Fix.Template

/-!
# What the printers store

Every printer of a field stores bytes at `end` and moves it behind them, without a look at the capacity: a
field is its tag, `=`, the value and SOH. Their number can be told from the field.
-/

namespace Libtrading
set_option autoImplicit false

namespace Buffer

theorem puts_nil (b : Buffer) : b.bufferPuts [] = b := rfl

theorem puts_cons (b : Buffer) (c : UInt8) (w : List UInt8) : b.bufferPuts (c :: w) = (b.bufferPut c).bufferPuts w := rfl

theorem puts_append (b : Buffer) (v w : List UInt8) : b.bufferPuts (v ++ w) = (b.bufferPuts v).bufferPuts w :=
  List.foldl_append

theorem puts_start (b : Buffer) (w : List UInt8) : (b.bufferPuts w).start = b.start := by
  induction w generalizing b with
  | nil => rfl
  | cons c w ih => exact ih (b.bufferPut c)

theorem puts_stop (b : Buffer) (w : List UInt8) : (b.bufferPuts w).stop = b.stop + w.length := by
  induction w generalizing b with
  | nil => rfl
  | cons c w ih =>
    rw [puts_cons, ih, List.length_cons]
    simp only [bufferPut]
    omega

theorem puts_size (b : Buffer) (w : List UInt8) : (b.bufferPuts w).data.length = b.data.length := by
  induction w generalizing b with
  | nil => rfl
  | cons c w ih => rw [puts_cons, ih, bufferPut, List.length_set]

/-- The bytes are stored from `end` on, and the rest of the memory stays. -/
theorem puts_get (b : Buffer) (w : List UInt8) (i : Nat) :
    (b.bufferPuts w).data[i]? =
      if b.stop ≤ i ∧ i < b.stop + w.length ∧ i < b.data.length then w[i - b.stop]? else b.data[i]? := by
  induction w generalizing b with
  | nil => rw [if_neg (by rw [List.length_nil]; omega)]; rfl
  | cons c w ih =>
    rw [puts_cons, ih]
    simp only [bufferPut, List.length_set, List.length_cons, List.getElem?_set]
    by_cases here : b.stop = i
    · subst here
      rw [if_neg (by omega), if_pos rfl]
      by_cases inside : b.stop < b.data.length
      · rw [if_pos inside, if_pos (by omega), Nat.sub_self]
        rfl
      · rw [if_neg inside, if_neg (by omega), List.getElem?_eq_none (by omega)]
    · rw [if_neg here]
      by_cases behind : b.stop + 1 ≤ i ∧ i < b.stop + 1 + w.length ∧ i < b.data.length
      · rw [if_pos behind, if_pos (by omega), show i - b.stop = i - (b.stop + 1) + 1 by omega, List.getElem?_cons_succ]
      · rw [if_neg behind, if_neg (by omega)]

/-- The zero of `sprintf` is written over by what is put next. -/
theorem sprintf_put (b : Buffer) (text : List UInt8) (c : UInt8) :
    (b.bufferSprintf text).bufferPut c = (b.bufferPuts text).bufferPut c := by
  simp only [bufferSprintf, bufferPut, List.set_set]

end Buffer

namespace Fix
open Buffer Wire
universe u

/-! ## Texts -/

section
variable {F : Type u} [Doubles F]

/-- The text of a value. -/
def FieldValue.printed : FieldValue F → List UInt8
  | .string s => cchars s
  | .string8 s => cchars (s.take 8)
  | .char c => [c]
  | .float x => Doubles.modpDtoa2 x 7
  | .int v => i64toa v
  | .checkSum v => checksumtoa (v.setWidth 32)
  | .msgSeqNum => []

/-- The text of a field. -/
def FixField.printed (f : FixField F) : List UInt8 := uitoa f.tag ++ '='.toNat.toUInt8 :: (f.value.printed ++ [1])

/-- The text of a field whose number is padded. -/
def FixField.padded (f : FixField F) (zpad : Nat) : List UInt8 :=
  match f.value with
  | .int v => uitoa f.tag ++ '='.toNat.toUInt8 :: (modpLitoa10Zpad v zpad ++ [1])
  | _ => f.printed

theorem unparse_value_put (value : FieldValue F) (b : Buffer) (c : UInt8) :
    (unparseValue value b).bufferPut c = (b.bufferPuts value.printed).bufferPut c := by
  cases value with
  | float x => exact sprintf_put ..
  | int v =>
    simp only [unparseValue]
    split
    · exact sprintf_put ..
    · rfl
  | _ => rfl

/-- A field is stored as its text. -/
theorem field_unparse_eq (f : FixField F) (b : Buffer) : fixFieldUnparse f b = b.bufferPuts f.printed := by
  rw [fixFieldUnparse, unparse_value_put, FixField.printed, puts_append, puts_cons, puts_append]
  rfl

theorem fields_unparse_eq (fs : List (FixField F)) (b : Buffer) :
    fixFieldsUnparse fs b = b.bufferPuts (fs.flatMap FixField.printed) := by
  induction fs generalizing b with
  | nil => rfl
  | cons f fs ih =>
    rw [List.flatMap_cons, puts_append, ← field_unparse_eq, ← ih]
    rfl

theorem field_zpad_eq (f : FixField F) (zpad : Nat) (b : Buffer) :
    fixFieldUnparseZpad f zpad b = (b.stop + ((uitoa f.tag).length + 1), b.bufferPuts (f.padded zpad)) := by
  have marker : ((b.bufferPuts (uitoa f.tag)).bufferPut '='.toNat.toUInt8).stop = b.stop + ((uitoa f.tag).length + 1) := by
    simp only [bufferPut, puts_stop]
    omega
  obtain ⟨tag, value⟩ := f
  rw [fixFieldUnparseZpad]
  cases value with
  | int v =>
    simp only [marker, FixField.padded, puts_append, puts_cons]
    rfl
  | _ =>
    simp only [marker, unparse_value_put, FixField.padded, FixField.printed, puts_append, puts_cons]
    rfl

end

/-! ## Sizes -/

/-- The number of decimal digits. -/
def digitCount (n : Nat) : Nat := Nat.log 10 n + 1

section
variable {F : Type u} [Doubles F]

/-- The number of bytes of a value. -/
def FieldValue.size : FieldValue F → Nat
  | .string s => (cchars s).length
  | .string8 s => (cchars (s.take 8)).length
  | .char _ => 1
  | .float x => (Doubles.modpDtoa2 x 7).length
  | .int v => if v.toInt < 0 then 1 + digitCount v.toInt.natAbs else digitCount v.toInt.natAbs
  | .checkSum v => max 3 (digitCount (v.setWidth 32).toNat)
  | .msgSeqNum => 0

/-- The number of bytes of a field. -/
def FixField.size (f : FixField F) : Nat := digitCount f.tag.toNat + 1 + f.value.size + 1

theorem length_decimal (n : Nat) : (decimal n).length = digitCount n := by
  have pos := length_decimal_pos n
  refine Nat.le_antisymm ((length_decimal_le (Nat.succ_pos _)).2 (Nat.lt_pow_succ_log_self (by decide) n)) ?_
  have lt : n < 10 ^ (decimal n).length := (length_decimal_le pos).1 (Nat.le_refl _)
  exact Nat.succ_le_of_lt (Nat.log_lt_of_lt_pow' (by omega) lt)

theorem length_uitoa (n : BitVec 32) : (uitoa n).length = digitCount n.toNat := by rw [uitoa_eq, length_decimal]

/-- Inside and outside of the `int`s a number is printed alike. -/
theorem i64toa_eq (n : BitVec 64) : i64toa n = sprintf64 n := by
  unfold i64toa
  split
  · rfl
  · rename_i inside
    simp only [outsideInt, Bool.or_eq_true, decide_eq_true_eq, not_or, Int.not_lt] at inside
    have isLt := n.isLt
    have msb : (n.setWidth 32).msb = n.msb := by
      rw [BitVec.msb_eq_decide, BitVec.msb_eq_decide, BitVec.toNat_setWidth]
      rw [BitVec.toInt_eq_toNat_cond] at inside
      refine decide_eq_decide.2 ?_
      omega
    unfold itoa sprintf64
    rw [msb, uitoa_eq, uitoa_eq]
    cases sign : n.msb with
    | true =>
      have wide : (-(n.setWidth 32)).toNat = (-n).toNat := by
        rw [BitVec.toInt_eq_toNat_cond] at inside
        rw [BitVec.msb_eq_decide, decide_eq_true_eq] at sign
        rw [BitVec.toNat_neg, BitVec.toNat_neg, BitVec.toNat_setWidth]
        omega
      simp only [if_true, wide]
    | false =>
      have wide : (n.setWidth 32).toNat = n.toNat := by
        rw [BitVec.toInt_eq_toNat_cond] at inside
        rw [BitVec.msb_eq_decide, decide_eq_false_iff_not] at sign
        rw [BitVec.toNat_setWidth]
        omega
      simp only [Bool.false_eq_true, if_false, wide]

theorem length_sprintf64 (n : BitVec 64) :
    (sprintf64 n).length = if n.toInt < 0 then 1 + digitCount n.toInt.natAbs else digitCount n.toInt.natAbs := by
  have isLt := n.isLt
  unfold sprintf64
  cases sign : n.msb with
  | true =>
    rw [BitVec.msb_eq_decide, decide_eq_true_eq] at sign
    have value : n.toInt = (n.toNat : Int) - 2 ^ 64 := by
      rw [BitVec.toInt_eq_toNat_cond, if_neg (by omega)]
      rfl
    have negated : (-n).toNat = n.toInt.natAbs := by
      rw [BitVec.toNat_neg]
      omega
    rw [if_pos rfl, if_pos (by omega), List.length_cons, length_decimal, negated, Nat.add_comm]
  | false =>
    rw [BitVec.msb_eq_decide, decide_eq_false_iff_not] at sign
    have value : n.toInt = (n.toNat : Int) := by rw [BitVec.toInt_eq_toNat_cond, if_pos (by omega)]
    rw [if_neg Bool.false_ne_true, if_neg (by omega), length_decimal, value, Int.natAbs_natCast]

theorem length_checksumtoa (n : BitVec 32) : (checksumtoa n).length = max 3 (digitCount n.toNat) := by
  have two := @length_decimal_le n.toNat 2 (by decide)
  rw [length_decimal] at two
  unfold checksumtoa
  split
  · have small := two.2 (by omega)
    rw [Nat.max_eq_left (by omega)]
    rfl
  · have large := mt two.1 (by omega)
    rw [uitoa_general_eq n, length_decimal, Nat.max_eq_right (by omega)]

theorem length_value (value : FieldValue F) : value.printed.length = value.size := by
  cases value with
  | int v => exact (congrArg List.length (i64toa_eq v)).trans (length_sprintf64 v)
  | checkSum v => exact length_checksumtoa _
  | _ => rfl

/-- The size of a field is that of its text. -/
theorem length_printed (f : FixField F) : f.printed.length = f.size := by
  rw [FixField.printed, List.length_append, List.length_cons, List.length_append, List.length_singleton, length_uitoa,
    length_value, FixField.size]
  omega

end

end Fix

end Libtrading
