import Libtrading.Book.FastBook
import Mathlib.Tactic.NormNum
import Mathlib.Algebra.Field.Rat

/-!
# Prices and sizes

A mantissa is scaled by as many multiplications by ten as the exponents differ, and nothing looks at an overflow;
the other way round each division is checked. `converts_iff` says which decimals come out as the numbers they are.
-/

namespace Libtrading.Book
open Fast
set_option autoImplicit false

/-- The number a decimal stands for. -/
def toRat (d : Decimal) : ℚ := d.mnt.toInt * 10 ^ d.exp.toInt

/-- A number of 64 bits with a sign. -/
def FitsInt64 (x : ℤ) : Prop := -2 ^ 63 ≤ x ∧ x < 2 ^ 63

instance (x : ℤ) : Decidable (FitsInt64 x) := inferInstanceAs (Decidable (_ ∧ _))

theorem fits_to_int (n : I64) : FitsInt64 n.toInt := ⟨BitVec.le_toInt n, BitVec.toInt_lt⟩

/-! ## The loops -/

theorem mul_ten_to_int (n : Nat) (m : I64) : (mulTen n m).toInt = (m.toInt * 10 ^ n).bmod (2 ^ 64) := by
  induction n generalizing m with
  | zero =>
    rw [mulTen, Int.pow_zero, Int.mul_one]
    exact (BitVec.toInt_bmod_cancel m).symm
  | succ n ih =>
    have ten : (10 : I64).toInt = 10 := by decide
    rw [mulTen, ih, BitVec.toInt_mul, ten, Int.bmod_mul_bmod, Int.pow_succ, Int.mul_assoc, Int.mul_comm (10 ^ n) 10]

/-- **Multiplications** give the number that is due exactly where it fits. -/
theorem mul_ten_exact (n : Nat) (m : I64) : (mulTen n m).toInt = m.toInt * 10 ^ n ↔ FitsInt64 (m.toInt * 10 ^ n) := by
  refine ⟨fun exact => exact ▸ fits_to_int _, fun ⟨lower, upper⟩ => ?_⟩
  rw [mul_ten_to_int]
  exact Int.bmod_eq_of_le (by omega) (by omega)

/-- **Divisions** that leave no remainder undo the multiplications. -/
theorem div_ten_exact {n : Nat} {m q : I64} (h : divTen n m = some q) : m.toInt = q.toInt * 10 ^ n := by
  induction n generalizing m with
  | zero =>
    cases h
    rw [Int.pow_zero, Int.mul_one]
  | succ n ih =>
    have ten : (10 : I64).toInt = 10 := by decide
    have lower := BitVec.le_toInt m
    have upper := @BitVec.toInt_lt 64 m
    rw [divTen] at h
    split at h
    · cases h
    · rename_i exact
      have rem : m.toInt.tmod 10 = 0 := by
        have zero := congrArg BitVec.toInt (not_not.1 exact)
        rwa [BitVec.toInt_srem, ten] at zero
      have whole := Int.mul_tdiv_add_tmod m.toInt 10
      rw [rem, Int.add_zero] at whole
      have quotient : (m.sdiv 10).toInt = m.toInt.tdiv 10 := by
        rw [BitVec.toInt_sdiv, ten]
        exact Int.bmod_eq_of_le (by omega) (by omega)
      rw [← quotient, ih h] at whole
      rw [← whole, Int.pow_succ, Int.mul_left_comm, Int.mul_comm 10]

/-! ## Exact, or refused -/

/-- A price and a size are what they were, or are refused, as they are where no number of 64 bits is the right one. -/
structure ConvertsExactly (price tick : Decimal) : Prop where
  aligned : ∀ r, priceAlign price tick = some r → toRat r = toRat price ∧ r.exp = tick.exp
  whole : ∀ n, decimalToInt price = some n → (n.toInt : ℚ) = toRat price
  alignRefused : (∀ n : I64, toRat ⟨tick.exp, n⟩ ≠ toRat price) → priceAlign price tick = none
  wholeRefused : (∀ n : I64, (n.toInt : ℚ) ≠ toRat price) → decimalToInt price = none

/-- A power of ten on the left, the rest of the exponent on the right. -/
theorem scaled (x : ℚ) {a b : ℤ} {n : Nat} (h : a = b + n) : x * 10 ^ n * 10 ^ b = x * 10 ^ a := by
  rw [h, zpow_add₀ (by decide), zpow_natCast, mul_assoc, mul_comm (10 ^ n : ℚ)]

/-- Scaled up to another exponent, a mantissa stands for the same number exactly where it fits. -/
theorem scaled_up_iff {d : Decimal} {exp : I64} {n : Nat} (h : d.exp.toInt = exp.toInt + n) :
    toRat ⟨exp, mulTen n d.mnt⟩ = toRat d ↔ FitsInt64 (d.mnt.toInt * 10 ^ n) := by
  have ten : (10 : ℚ) ^ exp.toInt ≠ 0 := zpow_ne_zero _ (by decide)
  rw [toRat, toRat, ← scaled _ h, mul_left_inj' ten, ← mul_ten_exact]
  norm_cast

/-- Scaled down, it stands for the same number. -/
theorem scaled_down {d : Decimal} {exp q : I64} {n : Nat} (h : exp.toInt = d.exp.toInt + n)
    (divided : divTen n d.mnt = some q) : toRat ⟨exp, q⟩ = toRat d := by
  rw [toRat, toRat, ← scaled _ h, div_ten_exact divided]
  push_cast
  rfl

/-- **Aligning** a price is exact if and only if it fits where it is scaled up. -/
theorem aligned_iff (price tick : Decimal) :
    (∀ r, priceAlign price tick = some r → toRat r = toRat price ∧ r.exp = tick.exp) ↔
      (tick.exp.toInt < price.exp.toInt →
        FitsInt64 (price.mnt.toInt * 10 ^ (price.exp.toInt - tick.exp.toInt).toNat)) := by
  rw [priceAlign]
  by_cases same : price.exp = tick.exp
  · rw [if_pos same]
    refine ⟨fun _ up => absurd (congrArg BitVec.toInt same) (by omega), fun _ r aligned => ?_⟩
    cases aligned
    exact ⟨rfl, same⟩
  rw [if_neg same]
  by_cases up : tick.exp.toInt < price.exp.toInt
  · have exponents : price.exp.toInt = tick.exp.toInt + (price.exp.toInt - tick.exp.toInt).toNat := by omega
    rw [if_pos up, ← scaled_up_iff exponents]
    refine ⟨fun exact _ => (exact _ rfl).1, fun fits r aligned => ?_⟩
    cases aligned
    exact ⟨fits up, rfl⟩
  · have exponents : tick.exp.toInt = price.exp.toInt + (tick.exp.toInt - price.exp.toInt).toNat := by omega
    rw [if_neg up]
    refine ⟨fun _ above => absurd above up, fun _ r aligned => ?_⟩
    obtain ⟨q, divided, rfl⟩ := Option.map_eq_some_iff.1 aligned
    exact ⟨scaled_down exponents divided, rfl⟩

/-- **A size** is exact if and only if it fits. -/
theorem whole_iff (d : Decimal) : (∀ n, decimalToInt d = some n → (n.toInt : ℚ) = toRat d) ↔
    (0 ≤ d.exp.toInt → FitsInt64 (d.mnt.toInt * 10 ^ d.exp.toInt.toNat)) := by
  rw [decimalToInt]
  by_cases negative : d.exp.toInt < 0
  · rw [if_pos negative]
    exact ⟨fun _ above => absurd negative (by omega), fun _ n none => by cases none⟩
  · have exponent : d.exp.toInt = (0 : I64).toInt + d.exp.toInt.toNat := by
      have zero : (0 : I64).toInt = 0 := by decide
      omega
    have number (n : I64) : toRat ⟨0, n⟩ = n.toInt := by
      rw [toRat, show (0 : I64).toInt = 0 by decide, zpow_zero, mul_one]
    rw [if_neg negative, ← scaled_up_iff exponent, number]
    refine ⟨fun exact _ => exact _ rfl, fun fits n converted => ?_⟩
    cases converted
    exact fits (by omega)

/-- **Prices and sizes** are exact or refused if and only if they fit wherever they are scaled up. -/
theorem converts_iff (price tick : Decimal) : ConvertsExactly price tick ↔
    (tick.exp.toInt < price.exp.toInt →
      FitsInt64 (price.mnt.toInt * 10 ^ (price.exp.toInt - tick.exp.toInt).toNat)) ∧
    (0 ≤ price.exp.toInt → FitsInt64 (price.mnt.toInt * 10 ^ price.exp.toInt.toNat)) := by
  rw [← aligned_iff, ← whole_iff]
  refine ⟨fun exact => ⟨exact.aligned, exact.whole⟩, fun ⟨aligned, whole⟩ => ⟨aligned, whole, ?_, ?_⟩⟩
  · intro other
    by_contra some
    obtain ⟨r, found⟩ := Option.ne_none_iff_exists'.1 some
    obtain ⟨same, exp⟩ := aligned r found
    refine other r.mnt ?_
    rw [← exp]
    exact same
  · intro other
    by_contra some
    obtain ⟨n, found⟩ := Option.ne_none_iff_exists'.1 some
    exact other n (whole n found)

/-- Ten times 10^18 comes out as a negative number. -/
theorem ten_wraps : ¬ConvertsExactly ⟨1, 1000000000000000000⟩ ⟨0, 1⟩ := by
  intro exact
  have wrapped : decimalToInt ⟨1, 1000000000000000000⟩ = some (-8446744073709551616) := by decide
  have equal := exact.whole _ wrapped
  have result : (-8446744073709551616 : I64).toInt = -8446744073709551616 := by decide
  have mantissa : (1000000000000000000 : I64).toInt = 1000000000000000000 := by decide
  have exponent : (1 : I64).toInt = 1 := by decide
  rw [toRat, result, mantissa, exponent] at equal
  norm_num at equal

end Libtrading.Book
