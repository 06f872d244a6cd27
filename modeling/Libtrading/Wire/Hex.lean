import Libtrading.Wire.Decimal

/-!
# Hexadecimal texts

Bytes written as pairs of hexadecimal digits of either case, with blanks between them. `Pairs` is the relation between
a text and its bytes; a text has one row of bytes at most.
-/

namespace Libtrading.Wire
set_option autoImplicit false

/-- What a hexadecimal digit stands for. -/
def hexValue (c : UInt8) : Option Nat :=
  if isDigit c then some (digitValue c)
  else if 65 ≤ c ∧ c ≤ 70 then some (c.toNat - 55)
  else if 97 ≤ c ∧ c ≤ 102 then some (c.toNat - 87)
  else none

/-- A space or a tab. -/
def isBlank (c : UInt8) : Bool := c == 32 || c == 9

/-- A byte by its two digits. -/
def hexByte (high low : Nat) : UInt8 := (16 * high + low).toUInt8

/-- A text that denotes these bytes. -/
inductive Pairs : List UInt8 → List UInt8 → Prop where
  | nil : Pairs [] []
  | blank {c : UInt8} {w bs : List UInt8} (blank : isBlank c = true) (rest : Pairs w bs) : Pairs (c :: w) bs
  | pair {c d : UInt8} {h l : Nat} {w bs : List UInt8} (high : hexValue c = some h) (low : hexValue d = some l)
      (rest : Pairs w bs) : Pairs (c :: d :: w) (hexByte h l :: bs)

/-- A blank is no digit. -/
theorem hex_value_blank {c : UInt8} (blank : isBlank c = true) : hexValue c = none := by
  rw [isBlank, Bool.or_eq_true, beq_iff_eq, beq_iff_eq] at blank
  rcases blank with rfl | rfl <;> decide

/-- A zero byte is neither. -/
theorem hex_value_zero : hexValue 0 = none ∧ isBlank 0 = false := by decide

/-- A text denotes one row of bytes at most. -/
theorem pairs_unique {w bs bs' : List UInt8} (first : Pairs w bs) (other : Pairs w bs') : bs = bs' := by
  induction first generalizing bs' with
  | nil =>
    cases other
    rfl
  | blank blank rest ih =>
    cases other with
    | blank _ rest' => exact ih rest'
    | pair high low rest' =>
      rw [hex_value_blank blank] at high
      cases high
  | pair high low rest ih =>
    cases other with
    | blank blank rest' =>
      rw [hex_value_blank blank] at high
      cases high
    | pair high' low' rest' =>
      rw [high] at high'
      rw [low] at low'
      cases high'
      cases low'
      rw [ih rest']

end Libtrading.Wire
