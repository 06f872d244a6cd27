import Mathlib.Algebra.Ring.Nat
import Mathlib.Algebra.Ring.Int.Defs

/-!
# Stop-bit numbers

A number in groups of seven bits, the most significant group first. `septets`
cuts the `7 * n` low bits of a word into groups and `push` is one step of the
reader; the reader gets the word back when it fits the groups, unsigned from
zero and signed from the sign in the first group.
-/

namespace Libtrading.StopBit
set_option autoImplicit false

variable {w : Nat}

/-- One group more: seven bits in from the right. -/
def push (r : BitVec w) (g : BitVec 7) : BitVec w := (r <<< 7) ||| g.setWidth w

/-- The group `i` groups from the right. -/
def septetAt (v : BitVec w) (i : Nat) : BitVec 7 := v.extractLsb' (7 * i) 7

/-- The `n` groups from the right, the most significant one first. -/
def septets (v : BitVec w) : Nat → List (BitVec 7)
  | 0 => []
  | n + 1 => septetAt v n :: septets v n

/-- What the reader starts a signed number with: the sign of its first group. -/
def signFill (g : BitVec 7) : BitVec w := if g.msb then -1 else 0

@[simp] theorem length_septets (v : BitVec w) (n : Nat) : (septets v n).length = n := by
  induction n with
  | zero => rfl
  | succ n ih => simp [septets, ih]

/-- Reading `n` groups shifts what was read before and fills in the groups. -/
theorem foldl_push_septets (v r : BitVec w) (n : Nat) :
    (septets v n).foldl push r = (r <<< (7 * n)) ||| (v.setWidth (7 * n)).setWidth w := by
  induction n generalizing r with
  | zero =>
    apply BitVec.eq_of_getLsbD_eq
    intro i hi
    simp [septets]
  | succ n ih =>
    rw [septets, List.foldl_cons, ih]
    apply BitVec.eq_of_getLsbD_eq
    intro i hi
    simp only [push, septetAt, BitVec.getLsbD_or, BitVec.getLsbD_shiftLeft, BitVec.getLsbD_setWidth,
      BitVec.getLsbD_extractLsb', hi, decide_true, Bool.true_and]
    by_cases low : i < 7 * n
    · have below : i < 7 * (n + 1) := by omega
      simp [low, below]
    · have inside : i - 7 * n < w := by omega
      by_cases here : i < 7 * (n + 1)
      · have first : i - 7 * n < 7 := by omega
        have back : 7 * n + (i - 7 * n) = i := by omega
        simp [low, here, inside, first, back]
      · have beyond : ¬i - 7 * n < 7 := by omega
        have back : i - 7 * n - 7 = i - 7 * (n + 1) := by omega
        simp [low, here, inside, beyond, back]

/-- An unsigned number that fits its groups is read back from zero. -/
theorem read_unsigned {v : BitVec w} {n : Nat} (fits : v.toNat < 2 ^ (7 * n)) :
    (septets v n).foldl push 0 = v := by
  rw [foldl_push_septets]
  apply BitVec.eq_of_getLsbD_eq
  intro i hi
  simp only [BitVec.getLsbD_or, BitVec.getLsbD_shiftLeft, BitVec.getLsbD_setWidth, hi, decide_true,
    Bool.true_and]
  by_cases low : i < 7 * n
  · simp [low]
  · have zero : v.getLsbD i = false := by
      rw [BitVec.getLsbD, Nat.testBit_lt_two_pow]
      exact Nat.lt_of_lt_of_le fits (Nat.pow_le_pow_right (by decide) (by omega))
    simp [low, zero]

/-- Above the bits a signed number needs there are copies of its sign. -/
theorem sign_bits {v : BitVec w} {k i : Nat} (lower : -2 ^ k ≤ v.toInt) (upper : v.toInt < 2 ^ k)
    (hk : k ≤ i) (hi : i < w) : v.getLsbD i = v.msb := by
  have wide : 2 ^ k ≤ 2 ^ i := Nat.pow_le_pow_right (by decide) hk
  cases sign : v.msb with
  | false =>
    have small : v.toNat < 2 ^ k := by
      rw [BitVec.toInt_eq_msb_cond, if_neg (by rw [sign]; exact nofun)] at upper
      exact_mod_cast upper
    rw [BitVec.getLsbD, Nat.testBit_lt_two_pow (by omega)]
  | true =>
    have flipped : (~~~v).toNat < 2 ^ k := by
      rw [BitVec.toInt_eq_msb_cond, if_pos sign] at lower
      have size := v.isLt
      rw [BitVec.toNat_not]
      have : ((2 ^ w : Nat) : Int) - 2 ^ k ≤ v.toNat := by omega
      have : ((2 ^ w - 1 - v.toNat : Nat) : Int) < 2 ^ k := by omega
      exact_mod_cast this
    have clear : (~~~v).getLsbD i = false := by
      rw [BitVec.getLsbD, Nat.testBit_lt_two_pow (by omega)]
    simpa [hi] using clear

/-- A signed number that fits its groups is read back from the sign of the first one. -/
theorem read_signed {v : BitVec w} {n : Nat} (lower : -2 ^ (7 * n + 6) ≤ v.toInt)
    (upper : v.toInt < 2 ^ (7 * n + 6)) :
    (septets v (n + 1)).foldl push (signFill (septetAt v n)) = v := by
  rw [foldl_push_septets]
  apply BitVec.eq_of_getLsbD_eq
  intro i hi
  simp only [BitVec.getLsbD_or, BitVec.getLsbD_shiftLeft, BitVec.getLsbD_setWidth, hi, decide_true,
    Bool.true_and]
  by_cases low : i < 7 * (n + 1)
  · simp [low]
  · have first : (septetAt v n).msb = v.getLsbD (7 * n + 6) := by
      simp [septetAt, BitVec.msb_eq_getLsbD_last]
    have fill : (signFill (septetAt v n) : BitVec w).getLsbD (i - 7 * (n + 1)) = v.getLsbD i := by
      rw [signFill, first, sign_bits lower upper (Nat.le_refl _) (by omega),
        sign_bits lower upper (i := i) (by omega) hi]
      cases v.msb with
      | false => simp
      | true =>
        have inside : i - 7 * (n + 1) < w := by omega
        rw [if_pos rfl, show (-1 : BitVec w) = BitVec.allOnes w from BitVec.neg_one_eq_allOnes]
        simp [inside]
    simp [low, fill]

/-! ## The number that groups denote -/

/-- The number of the groups `gs` behind the number `z`. -/
def denoted (z : Int) (gs : List (BitVec 7)) : Int := gs.foldl (fun z g => 128 * z + g.toNat) z

theorem push_of_int (z : Int) (g : BitVec 7) : push (BitVec.ofInt w z) g = BitVec.ofInt w (128 * z + g.toNat) := by
  have shifted : BitVec.ofInt w z <<< 7 = BitVec.ofInt w (128 * z) := by
    have word : BitVec.ofInt w 128 = BitVec.twoPow w 7 := by
      rw [show (128 : Int) = (2 ^ 7 : Nat) from rfl, BitVec.ofInt_natCast]
      exact BitVec.eq_of_toNat_eq (by rw [BitVec.toNat_ofNat, BitVec.toNat_twoPow])
    rw [BitVec.shiftLeft_eq_mul_twoPow, Int.mul_comm, BitVec.ofInt_mul, word]
  have apart : BitVec.ofInt w z <<< 7 &&& g.setWidth w = 0 := by
    apply BitVec.eq_of_getLsbD_eq
    intro i hi
    simp only [BitVec.getLsbD_and, BitVec.getLsbD_shiftLeft, BitVec.getLsbD_setWidth]
    by_cases low : i < 7
    · simp [low]
    · simp [BitVec.getLsbD_of_ge g i (by omega)]
  rw [push, ← BitVec.add_eq_or_of_and_eq_zero _ _ apart, shifted, BitVec.ofInt_add, BitVec.ofInt_natCast,
    BitVec.ofNat_toNat]

/-- The reader gets what the groups denote, in its word. -/
theorem foldl_push_of_int (z : Int) (gs : List (BitVec 7)) :
    gs.foldl push (BitVec.ofInt w z) = BitVec.ofInt w (denoted z gs) := by
  induction gs generalizing z with
  | nil => rfl
  | cons g gs ih =>
    rw [List.foldl_cons, push_of_int, ih]
    rfl

theorem denoted_bounds (z : Int) (gs : List (BitVec 7)) :
    z * 128 ^ gs.length ≤ denoted z gs ∧ denoted z gs < (z + 1) * 128 ^ gs.length := by
  induction gs generalizing z with
  | nil => exact ⟨by simp [denoted], by simp only [denoted, List.foldl_nil, List.length_nil, Int.pow_zero]; omega⟩
  | cons g gs ih =>
    obtain ⟨lower, upper⟩ := ih (128 * z + g.toNat)
    have digit := g.isLt
    have positive : (0 : Int) < 128 ^ gs.length := Int.pow_pos (by decide)
    have below : z * 128 * 128 ^ gs.length ≤ (128 * z + g.toNat) * 128 ^ gs.length :=
      Int.mul_le_mul_of_nonneg_right (by omega) (by omega)
    have above : (128 * z + g.toNat + 1) * 128 ^ gs.length ≤ (z + 1) * 128 * 128 ^ gs.length :=
      Int.mul_le_mul_of_nonneg_right (by omega) (by omega)
    rw [List.length_cons, Int.pow_succ', ← Int.mul_assoc, ← Int.mul_assoc]
    exact ⟨Int.le_trans below lower, Int.lt_of_lt_of_le upper above⟩

end Libtrading.StopBit
