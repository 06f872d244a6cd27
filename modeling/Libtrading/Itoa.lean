import Libtrading.Wire.Decimal

/-!
# `lib/itoa.c`

The integer printers. Each returns the characters it stores, in order; the
source returns their number. The unsigned ones print two digits at a time out
of `itoa_tab`; `modp_litoa10_zpad` prints them in reverse and turns the text
round at the end.
-/

namespace Libtrading
open Wire
set_option autoImplicit false

/-- The two characters `itoa_tab` has for a number below 100. -/
def itoaTab (n : Nat) : List UInt8 := [digit (n / 10), digit (n % 10)]

/-- `uilog_10`. -/
def uilog10 (n : Nat) : Nat :=
  if n ≤ 9 then 1
  else if n ≤ 99 then 2
  else if n ≤ 999 then 3
  else if n ≤ 9999 then 4
  else if n ≤ 99999 then 5
  else if n ≤ 999999 then 6
  else if n ≤ 9999999 then 7
  else if n ≤ 99999999 then 8
  else if n ≤ 999999999 then 9
  else 10

/-- What `uitoa_general` stores last, at the front. -/
def uitoaFront (n : Nat) : List UInt8 := if n ≤ 9 then [digit n] else itoaTab n

/-- The loop of `uitoa_general`; every turn stores two characters in front of those stored, so
the length of the text bounds the turns. -/
def uitoaLoop : Nat → Nat → List UInt8 → List UInt8
  | 0, n, out => uitoaFront n ++ out
  | turns + 1, n, out =>
    if 100 ≤ n then uitoaLoop turns (n / 100) (itoaTab (n % 100) ++ out) else uitoaFront n ++ out

/-- `uitoa_general`. -/
def uitoaGeneral (n : BitVec 32) : List UInt8 := uitoaLoop (uilog10 n.toNat) n.toNat []

/-- `uitoa`. -/
def uitoa (n : BitVec 32) : List UInt8 :=
  if n.toNat ≤ 9 then [digit (n.toNat % 10)]
  else if n.toNat ≤ 99 then itoaTab n.toNat
  else uitoaGeneral n

/-- `itoa`; the bits of `un = -n` are those of `-n`. -/
def itoa (n : BitVec 32) : List UInt8 := if n.msb then '-'.toNat.toUInt8 :: uitoa (-n) else uitoa n

/-- What `sprintf` prints for a `PRId64`. -/
def sprintf64 (n : BitVec 64) : List UInt8 :=
  if n.msb then '-'.toNat.toUInt8 :: decimal (-n).toNat else decimal n.toNat

/-- Whether a number is outside the `int`s. -/
def outsideInt (n : BitVec 64) : Bool := n.toInt > 2147483647 || n.toInt < -2147483648

/-- `i64toa`. -/
def i64toa (n : BitVec 64) : List UInt8 := if outsideInt n then sprintf64 n else itoa (n.setWidth 32)

/-- `checksumtoa`. -/
def checksumtoa (n : BitVec 32) : List UInt8 :=
  if n.toNat ≤ 99 then digit 0 :: itoaTab n.toNat else uitoaGeneral n

/-- The digits of a `uint64_t`, the last one first: at most twenty. -/
def reverseDigits : Nat → Nat → List UInt8
  | 0, _ => []
  | room + 1, n => digit (n % 10) :: if n / 10 = 0 then [] else reverseDigits room (n / 10)

/-- `modp_litoa10_zpad`. -/
def modpLitoa10Zpad (n : BitVec 64) (zpad : Nat) : List UInt8 :=
  let digits := reverseDigits 20 (if n.msb then (-n).toNat else n.toNat)
  let sign := if n.msb then ['-'.toNat.toUInt8] else []
  (digits ++ List.replicate (zpad - (digits.length + sign.length)) (digit 0) ++ sign).reverse

/-! ## What they print -/

theorem itoa_tab_eq {n : Nat} (h10 : 10 ≤ n) (h : n < 100) : itoaTab n = decimal n := by
  rw [itoaTab, decimal_ten h10, decimal_small (by omega)]
  rfl

theorem uitoa_front_eq {n : Nat} (h : n < 100) : uitoaFront n = decimal n := by
  rw [uitoaFront]
  split
  · rw [decimal_small (by omega)]
  · exact itoa_tab_eq (by omega) h

/-- Two digits off the end. -/
theorem decimal_hundred {n : Nat} (h : 100 ≤ n) : decimal n = decimal (n / 100) ++ itoaTab (n % 100) := by
  have tens : n / 10 / 10 = n / 100 := Nat.div_div_eq_div_mul n 10 10
  have last : n % 100 % 10 = n % 10 := Nat.mod_mod_of_dvd n (by decide)
  have second : n % 100 / 10 = n / 10 % 10 := by omega
  rw [decimal_ten (by omega), decimal_ten (by omega : 10 ≤ n / 10), tens, itoaTab, last, second,
    List.append_assoc]
  rfl

theorem uitoa_loop_eq (turns n : Nat) (out : List UInt8) (h : n < 100 ^ (turns + 1)) :
    uitoaLoop turns n out = decimal n ++ out := by
  induction turns generalizing n out with
  | zero => rw [uitoaLoop, uitoa_front_eq (by omega)]
  | succ turns ih =>
    rw [uitoaLoop]
    split
    · rename_i big
      rw [ih _ _ (by rw [Nat.pow_succ] at h; omega), decimal_hundred big, List.append_assoc]
    · rw [uitoa_front_eq (by omega)]

/-- The number of digits, as the bounds between which a number of so many lies. -/
theorem uilog10_bounds {n : Nat} (h : n < 10 ^ 10) : n < 10 ^ uilog10 n ∧ (10 ≤ n → 10 ^ (uilog10 n - 1) ≤ n) := by
  rw [uilog10]
  repeat' split
  all_goals
    simp only [Nat.reducePow, Nat.reduceSub]
    omega

/-- The length of the text is more than enough turns. -/
theorem uilog10_turns (n : BitVec 32) : n.toNat < 100 ^ (uilog10 n.toNat + 1) := by
  have small := n.isLt
  have upper := (uilog10_bounds (n := n.toNat) (by omega)).1
  calc n.toNat < 10 ^ uilog10 n.toNat := upper
    _ ≤ 100 ^ uilog10 n.toNat := Nat.pow_le_pow_left (by decide) _
    _ ≤ 100 ^ (uilog10 n.toNat + 1) := Nat.pow_le_pow_right (by decide) (Nat.le_succ _)

theorem uitoa_general_eq (n : BitVec 32) : uitoaGeneral n = decimal n.toNat := by
  rw [uitoaGeneral, uitoa_loop_eq _ _ _ (uilog10_turns n), List.append_nil]

/-- `uitoa` prints canonical decimals. -/
theorem uitoa_eq (n : BitVec 32) : uitoa n = decimal n.toNat := by
  rw [uitoa]
  split
  · rw [decimal_small (by omega), Nat.mod_eq_of_lt (by omega)]
  · split
    · exact itoa_tab_eq (by omega) (by omega)
    · exact uitoa_general_eq n

/-- The returned length is the number of characters stored. -/
theorem length_uitoa_general (n : BitVec 32) (h : 100 ≤ n.toNat) :
    (uitoaGeneral n).length = uilog10 n.toNat := by
  have small := n.isLt
  obtain ⟨upper, lower⟩ := uilog10_bounds (n := n.toNat) (by omega)
  have lower := lower (by omega)
  rw [uitoa_general_eq n]
  have two : 2 ≤ uilog10 n.toNat := by
    by_contra less
    have le := Nat.pow_le_pow_right (show 0 < 10 by decide) (show uilog10 n.toNat ≤ 1 by omega)
    omega
  have most := (length_decimal_le (n := n.toNat) (by omega)).2 upper
  have least := mt (length_decimal_le (n := n.toNat) (k := uilog10 n.toNat - 1) (by omega)).1 (Nat.not_lt.2 lower)
  omega

/-- A checksum has three digits. -/
theorem checksumtoa_eq (n : BitVec 32) (h : n.toNat < 256) : checksumtoa n = padded 3 n.toNat := by
  rw [checksumtoa, padded]
  split
  · rename_i small
    by_cases one : n.toNat < 10
    · rw [decimal_small one, itoaTab, Nat.div_eq_of_lt one, Nat.mod_eq_of_lt one]
      rfl
    · rw [itoa_tab_eq (by omega) (by omega)]
      have len : (decimal n.toNat).length = 2 := by
        have := (@length_decimal_le n.toNat 2 (by decide)).2 (by omega)
        have := mt (@length_decimal_le n.toNat 1 (by decide)).1 (by omega)
        omega
      rw [len]
      rfl
  · rw [uitoa_general_eq n]
    have : 3 ≤ (decimal n.toNat).length := by
      have := mt (@length_decimal_le n.toNat 2 (by decide)).1 (by omega)
      omega
    rw [Nat.sub_eq_zero_of_le this]
    rfl

theorem reverse_digits_eq (room n : Nat) (h : n < 10 ^ room) (pos : 0 < room) :
    reverseDigits room n = (decimal n).reverse := by
  induction room generalizing n with
  | zero => omega
  | succ room ih =>
    rw [reverseDigits]
    by_cases small : n < 10
    · rw [if_pos (by omega), decimal_small small, Nat.mod_eq_of_lt small]
      rfl
    · have room_pos : 0 < room := by
        rcases room with _ | room
        · rw [Nat.zero_add, Nat.pow_one] at h
          exact absurd h small
        · omega
      have rest : n / 10 < 10 ^ room := by
        rw [Nat.pow_succ] at h
        omega
      rw [if_neg (by omega), ih _ rest room_pos, decimal_ten (n := n) (by omega), List.reverse_append]
      rfl

/-- The sign of a number. -/
def signText (n : BitVec 64) : List UInt8 := if n.msb then ['-'.toNat.toUInt8] else []

/-- A number without its sign. -/
def magnitude (n : BitVec 64) : Nat := if n.msb then (-n).toNat else n.toNat

theorem sign_text (n : BitVec 64) : signText n = [] ∨ signText n = ['-'.toNat.toUInt8] := by
  rw [signText]
  split
  · exact .inr rfl
  · exact .inl rfl

theorem sprintf64_eq (n : BitVec 64) : sprintf64 n = signText n ++ decimal (magnitude n) := by
  rw [sprintf64, signText, magnitude]
  split <;> rfl

/-- A number is printed with zeros behind its sign, up to the width asked for. -/
theorem modp_litoa10_zpad_eq (n : BitVec 64) (zpad : Nat) : modpLitoa10Zpad n zpad =
    signText n ++ (List.replicate (zpad - (sprintf64 n).length) (digit 0) ++ decimal (magnitude n)) := by
  have bound : magnitude n < 10 ^ 20 := by
    have pos := n.isLt
    have neg := (-n).isLt
    rw [magnitude]
    split <;> omega
  have digits : reverseDigits 20 (if n.msb then (-n).toNat else n.toNat) = (decimal (magnitude n)).reverse :=
    reverse_digits_eq 20 _ bound (by decide)
  have sign : (signText n).reverse = signText n := by
    rw [signText]
    split <;> rfl
  show ((reverseDigits 20 (if n.msb then (-n).toNat else n.toNat) ++ List.replicate (zpad -
    ((reverseDigits 20 (if n.msb then (-n).toNat else n.toNat)).length + (signText n).length)) (digit 0)) ++
      signText n).reverse = _
  rw [digits, List.reverse_append, List.reverse_append, List.reverse_reverse, List.length_reverse,
    List.reverse_replicate, sign, sprintf64_eq, List.length_append, Nat.add_comm (decimal (magnitude n)).length]

/-- A number that is not negative has nothing but zeros in front. -/
theorem modp_litoa10_zpad_padded (n : BitVec 64) (zpad : Nat) (h : n.msb = false) :
    modpLitoa10Zpad n zpad = padded zpad n.toNat := by
  rw [modp_litoa10_zpad_eq, sprintf64_eq, signText, magnitude, h, if_neg Bool.false_ne_true, if_neg Bool.false_ne_true,
    List.nil_append, List.nil_append, padded]

end Libtrading
