import Mathlib.Algebra.Ring.Nat
import Mathlib.Algebra.Ring.Int.Defs

/-!
# Decimal texts

The canonical decimal text of a number as ASCII bytes, and what a reader of
digits makes of a text. `value_decimal` is the round trip; the rest says how
long a text is and which bytes it holds.
-/

namespace Libtrading.Wire
set_option autoImplicit false

/-- The ASCII byte of a digit. -/
def digit (d : Nat) : UInt8 := (48 + d).toUInt8

/-- An ASCII digit. -/
def isDigit (c : UInt8) : Bool := 48 ≤ c && c ≤ 57

/-- What a digit stands for. -/
def digitValue (c : UInt8) : Nat := c.toNat - 48

/-- The canonical decimal text of a number. -/
def decimal (n : Nat) : List UInt8 := (Nat.toDigits 10 n).map fun c => c.toNat.toUInt8

/-- The number a text of digits denotes, `v` read before it. -/
def valueFrom (v : Nat) (s : List UInt8) : Nat := s.foldl (fun v c => v * 10 + digitValue c) v

/-- The number a text of digits denotes. -/
def value (s : List UInt8) : Nat := valueFrom 0 s

theorem to_nat_digit {d : Nat} (h : d < 10) : (digit d).toNat = 48 + d := by
  have size : UInt8.size = 256 := rfl
  rw [digit, Nat.toUInt8, UInt8.toNat_ofNat_of_lt']
  omega

theorem digit_value_digit {d : Nat} (h : d < 10) : digitValue (digit d) = d := by
  rw [digitValue, to_nat_digit h]
  omega

theorem is_digit_iff {c : UInt8} : isDigit c = true ↔ 48 ≤ c.toNat ∧ c.toNat ≤ 57 := by
  simp only [isDigit, Bool.and_eq_true, decide_eq_true_eq, UInt8.le_iff_toNat_le]
  rfl

theorem is_digit_digit {d : Nat} (h : d < 10) : isDigit (digit d) = true := by
  rw [is_digit_iff, to_nat_digit h]
  omega

theorem digit_char_byte {d : Nat} (h : d < 10) : d.digitChar.toNat.toUInt8 = digit d := by
  rw [Nat.toNat_digitChar_of_lt_ten h, digit]

/-- Ten numbers have one digit, the others end in theirs. -/
theorem decimal_eq (n : Nat) :
    decimal n = if n < 10 then [digit n] else decimal (n / 10) ++ [digit (n % 10)] := by
  rw [decimal, Nat.toDigits_eq_if (by decide)]
  split
  · rename_i h
    rw [List.map_singleton, digit_char_byte h]
  · rw [List.map_append, List.map_singleton, digit_char_byte (Nat.mod_lt _ (by decide))]
    rfl

theorem decimal_small {n : Nat} (h : n < 10) : decimal n = [digit n] := by
  rw [decimal_eq, if_pos h]

theorem decimal_ten {n : Nat} (h : 10 ≤ n) : decimal n = decimal (n / 10) ++ [digit (n % 10)] := by
  rw [decimal_eq, if_neg (by omega)]

theorem length_decimal_le {n k : Nat} (h : 0 < k) : (decimal n).length ≤ k ↔ n < 10 ^ k := by
  rw [decimal, List.length_map, Nat.length_toDigits_le_iff (by decide) h]

theorem length_decimal_pos (n : Nat) : 0 < (decimal n).length := by
  rw [decimal, List.length_map]
  exact Nat.length_toDigits_pos

theorem decimal_ne_nil (n : Nat) : decimal n ≠ [] :=
  List.ne_nil_of_length_pos (length_decimal_pos n)

theorem digits_decimal (n : Nat) : ∀ c ∈ decimal n, isDigit c = true := by
  induction n using Nat.strongRecOn with
  | ind n ih =>
    intro c hc
    rw [decimal_eq] at hc
    split at hc
    · rename_i small
      rw [List.mem_singleton.1 hc]
      exact is_digit_digit small
    · rcases List.mem_append.1 hc with front | last
      · exact ih _ (by omega) c front
      · rw [List.mem_singleton.1 last]
        exact is_digit_digit (by omega)

theorem value_from_append (v : Nat) (s t : List UInt8) :
    valueFrom v (s ++ t) = valueFrom (valueFrom v s) t := by
  rw [valueFrom, List.foldl_append]
  rfl

/-- **Round trip.** Reading the canonical text of a number gives the number. -/
theorem value_decimal (n : Nat) : value (decimal n) = n := by
  induction n using Nat.strongRecOn with
  | ind n ih =>
    by_cases small : n < 10
    · rw [decimal_small small]
      simp [value, valueFrom, digit_value_digit small]
    · rw [decimal_ten (by omega), value, value_from_append]
      have front : valueFrom 0 (decimal (n / 10)) = n / 10 := ih _ (by omega)
      rw [front, valueFrom, List.foldl_cons, List.foldl_nil, digit_value_digit (by omega)]
      omega

/-- Leading zeros do not change what a text denotes. -/
theorem value_zeros (k : Nat) (s : List UInt8) : value (List.replicate k (digit 0) ++ s) = value s := by
  have zero : valueFrom 0 (List.replicate k (digit 0)) = 0 := by
    induction k with
    | zero => rfl
    | succ k ih =>
      rw [List.replicate_succ, valueFrom, List.foldl_cons, digit_value_digit (by decide)]
      exact ih
  rw [value, value_from_append, zero, value]

/-- The text of `n` with zeros in front up to `width` characters. -/
def padded (width n : Nat) : List UInt8 :=
  List.replicate (width - (decimal n).length) (digit 0) ++ decimal n

theorem value_padded (width n : Nat) : value (padded width n) = n := by
  rw [padded, value_zeros, value_decimal]

theorem length_padded {width n : Nat} (h : (decimal n).length ≤ width) : (padded width n).length = width := by
  rw [padded, List.length_append, List.length_replicate]
  omega

theorem digits_padded (width n : Nat) : ∀ c ∈ padded width n, isDigit c = true := by
  intro c hc
  rcases List.mem_append.1 hc with zero | front
  · rw [(List.mem_replicate.1 zero).2]
    exact is_digit_digit (by decide)
  · exact digits_decimal n c front

end Libtrading.Wire
