import Libtrading.Fix.Delivery
import Mathlib.Data.List.GetD

/-!
# The text of a number, in memory

`uitoa_general` asks `uilog_10` for the number of characters and stores them from the last one down, so they begin
where the pointer points only if `uilog_10` is right. Here the printers work on memory; `prints_canonically` says
that they store the canonical text and nothing else, and that `fix_atoi64` reads it back.
-/

namespace Libtrading
open Wire
set_option autoImplicit false

/-- Memory around a pointer: the pointer itself is 0. -/
abbrev Memory := ℤ → UInt8

/-- `memcpy` of `w` to `p`. -/
def Memory.store (m : Memory) (p : ℤ) (w : List UInt8) : Memory := fun i =>
  if p ≤ i ∧ i < p + w.length then w.getD (i - p).toNat 0 else m i

/-- The number a printer returns, and what it leaves. -/
structure Stored where
  length : ℤ
  memory : Memory

/-- What is stored in front of a text makes one text with it. -/
theorem store_in_front (m : Memory) (p : ℤ) (v w : List UInt8) :
    (m.store (p + v.length) w).store p v = m.store p (v ++ w) := by
  funext i
  simp only [Memory.store, List.length_append, Nat.cast_add]
  by_cases front : p ≤ i ∧ i < p + v.length
  · rw [if_pos front, if_pos (by omega), List.getD_append _ _ _ _ (by omega)]
  · rw [if_neg front]
    by_cases back : p + v.length ≤ i ∧ i < p + v.length + w.length
    · rw [if_pos back, if_pos (by omega), List.getD_append_right _ _ _ _ (by omega)]
      congr 1
      omega
    · rw [if_neg back, if_neg (by omega)]

theorem store_nil (m : Memory) (p : ℤ) : m.store p [] = m := by
  funext i
  rw [Memory.store, if_neg]
  simp only [List.length_nil, Nat.cast_zero, Int.add_zero]
  omega

/-! ## The printers -/

/-- What `uitoa_general` stores last: the digits of a number below 100, in front of `p`. -/
def uitoaTailAt (p : ℤ) (n : Nat) (m : Memory) : Memory :=
  let m := m.store (p - 1) [digit (n % 10)]
  if n ≤ 9 then m else m.store (p - 2) [digit (n / 10)]

/-- The loop of `uitoa_general`, with what comes behind it. -/
def uitoaLoopAt : Nat → ℤ → Nat → Memory → Memory
  | 0, p, n, m => uitoaTailAt p n m
  | turns + 1, p, n, m =>
    if 100 ≤ n then uitoaLoopAt turns (p - 2) (n / 100) (m.store (p - 2) (itoaTab (n % 100))) else uitoaTailAt p n m

/-- `uitoa_general` at `s`. -/
def uitoaGeneralAt (s : ℤ) (n : BitVec 32) (m : Memory) : Stored :=
  ⟨uilog10 n.toNat, uitoaLoopAt (uilog10 n.toNat) (s + uilog10 n.toNat) n.toNat m⟩

/-- `uitoa` at `s`. -/
def uitoaAt (s : ℤ) (n : BitVec 32) (m : Memory) : Stored :=
  if n.toNat ≤ 9 then ⟨1, m.store s [digit (n.toNat % 10)]⟩
  else if n.toNat ≤ 99 then ⟨2, (m.store s [digit (n.toNat / 10)]).store (s + 1) [digit (n.toNat % 10)]⟩
  else uitoaGeneralAt s n m

/-- `itoa` at `s`. -/
def itoaAt (s : ℤ) (n : BitVec 32) (m : Memory) : Stored :=
  if n.msb then
    let r := uitoaAt (s + 1) (-n) (m.store s ['-'.toNat.toUInt8])
    ⟨r.length + 1, r.memory⟩
  else uitoaAt s n m

/-- `i64toa` at `s`; `sprintf` stores a terminator behind the text. -/
def i64toaAt (s : ℤ) (n : BitVec 64) (m : Memory) : Stored :=
  if outsideInt n then ⟨(sprintf64 n).length, m.store s (sprintf64 n ++ [0])⟩ else itoaAt s (n.setWidth 32) m

/-! ## What they store -/

/-- The tail stores the digits of a number below 100 in front of a text. -/
theorem uitoa_tail_at {n : Nat} (small : n < 100) (p : ℤ) (m : Memory) (out : List UInt8) :
    uitoaTailAt p n (m.store p out) = m.store (p - (uitoaFront n).length) (uitoaFront n ++ out) := by
  have last := store_in_front m (p - 1) [digit (n % 10)] out
  have one : (([digit (n % 10)] : List UInt8).length : ℤ) = 1 := rfl
  rw [one, Int.sub_add_cancel] at last
  rw [uitoaTailAt, uitoaFront]
  simp only [last]
  split
  · rw [Nat.mod_eq_of_lt (by omega)]
    rfl
  · have both := store_in_front m (p - 2) [digit (n / 10)] ([digit (n % 10)] ++ out)
    have next : p - 2 + (([digit (n / 10)] : List UInt8).length : ℤ) = p - 1 := by
      simp only [List.length_singleton, Nat.cast_one]
      omega
    rw [next] at both
    exact both

/-- **The loop** stores what it prints, and ends where it is to. -/
theorem uitoa_loop_at (turns : Nat) {n : Nat} (small : n < 100 ^ (turns + 1)) (p : ℤ) (m : Memory) (out : List UInt8) :
    uitoaLoopAt turns p n (m.store p out) =
      m.store (p + out.length - (uitoaLoop turns n out).length) (uitoaLoop turns n out) := by
  have tail {n : Nat} (small : n < 100) (p : ℤ) (out : List UInt8) : uitoaTailAt p n (m.store p out) =
      m.store (p + out.length - (uitoaFront n ++ out).length) (uitoaFront n ++ out) := by
    rw [uitoa_tail_at small, List.length_append]
    congr 1
    push_cast
    omega
  induction turns generalizing n p out with
  | zero => exact tail (by omega) p out
  | succ turns ih =>
    rw [uitoaLoopAt, uitoaLoop]
    split
    · have front := store_in_front m (p - 2) (itoaTab (n % 100)) out
      have two : ((itoaTab (n % 100)).length : ℤ) = 2 := rfl
      rw [two, Int.sub_add_cancel] at front
      have fewer : n / 100 < 100 ^ (turns + 1) := by
        rw [Nat.pow_succ] at small
        omega
      rw [front, ih fewer, List.length_append]
      congr 1
      push_cast
      omega
    · exact tail (by omega) p out

/-- A printer that stores a text at `s` and returns its length. -/
def Stores (s : ℤ) (w : List UInt8) (m : Memory) (r : Stored) : Prop := r.length = w.length ∧ r.memory = m.store s w

theorem uitoa_general_at (s : ℤ) {n : BitVec 32} (h : 100 ≤ n.toNat) (m : Memory) :
    Stores s (decimal n.toNat) m (uitoaGeneralAt s n m) := by
  have bound := uilog10_turns n
  have text := uitoa_general_eq n
  have length := length_uitoa_general n h
  have loop := uitoa_loop_at _ bound (s + uilog10 n.toNat) m []
  rw [store_nil] at loop
  rw [uitoaGeneral] at text length
  refine ⟨?_, loop.trans ?_⟩
  · rw [← text, length]
    rfl
  · rw [length, text]
    congr 1
    simp only [List.length_nil, Nat.cast_zero]
    omega

/-- `uitoa` stores the digits. -/
theorem uitoa_at (s : ℤ) (n : BitVec 32) (m : Memory) : Stores s (decimal n.toNat) m (uitoaAt s n m) := by
  rw [uitoaAt]
  split
  · rw [decimal_small (by omega), Nat.mod_eq_of_lt (by omega)]
    exact ⟨rfl, rfl⟩
  · split
    · rw [← itoa_tab_eq (by omega) (by omega)]
      refine ⟨rfl, ?_⟩
      funext i
      simp only [Memory.store, itoaTab, List.length_cons, List.length_nil, Nat.zero_add, Nat.cast_one, Nat.reduceAdd,
        Nat.cast_ofNat]
      by_cases first : i = s
      · rw [if_neg (by omega), if_pos (by omega), if_pos (by omega), first, Int.sub_self]
        rfl
      · by_cases second : i = s + 1
        · have next : s + 1 - s = 1 := by omega
          rw [if_pos (by omega), if_pos (by omega), second, Int.sub_self, next]
          rfl
        · rw [if_neg (by omega), if_neg (by omega), if_neg (by omega)]
    · exact uitoa_general_at s (by omega) m

/-! ## The canonical text -/

/-- The canonical decimal text of a number: a sign where it is negative, and its digits. -/
def canonical (n : ℤ) : List UInt8 := if n < 0 then '-'.toNat.toUInt8 :: decimal n.natAbs else decimal n.natAbs

/-- No number is written with a leading zero, but zero. -/
theorem decimal_no_leading (n : Nat) : decimal n = [digit 0] ∨ (decimal n).head? ≠ some (digit 0) := by
  induction n using Nat.strongRecOn with
  | ind n ih =>
    by_cases small : n < 10
    · have digits : ∀ k < 10, [digit k] = [digit 0] ∨ [digit k].head? ≠ some (digit 0) := by decide
      rw [decimal_small small]
      exact digits n small
    · rw [decimal_ten (by omega)]
      refine .inr ?_
      rcases ih (n / 10) (by omega) with zero | other
      · have value := value_decimal (n / 10)
        rw [zero] at value
        have none : n / 10 = 0 := value.symm
        omega
      · cases front : decimal (n / 10) with
        | nil => exact absurd front (decimal_ne_nil _)
        | cons c t =>
          rw [front] at other
          exact other

theorem sprintf64_canonical (n : BitVec 64) : sprintf64 n = canonical n.toInt := by
  have bound := n.isLt
  have negated : n.msb = true → (-n).toNat = n.toInt.natAbs := by
    intro negative
    rw [BitVec.msb_eq_decide, decide_eq_true_eq] at negative
    rw [BitVec.toNat_neg, BitVec.toInt_eq_toNat_cond]
    omega
  have plain : n.msb = false → n.toNat = n.toInt.natAbs ∧ ¬n.toInt < 0 := by
    intro positive
    rw [BitVec.msb_eq_decide, decide_eq_false_iff_not] at positive
    rw [BitVec.toInt_eq_toNat_cond]
    omega
  rw [sprintf64, canonical]
  cases sign : n.msb with
  | true =>
    have negative : n.toInt < 0 := by
      rw [BitVec.msb_eq_decide, decide_eq_true_eq] at sign
      rw [BitVec.toInt_eq_toNat_cond]
      omega
    rw [if_pos rfl, if_pos negative, negated sign]
  | false =>
    rw [if_neg Bool.false_ne_true, if_neg (plain sign).2, (plain sign).1]

/-- `itoa` stores the text of an `int`. -/
theorem itoa_at (s : ℤ) (n : BitVec 32) (m : Memory) : Stores s (itoa n) m (itoaAt s n m) := by
  rw [itoa, itoaAt]
  split
  · obtain ⟨length, memory⟩ := uitoa_at (s + 1) (-n) (m.store s ['-'.toNat.toUInt8])
    refine ⟨?_, memory.trans ?_⟩
    · simp only [length, uitoa_eq, List.length_cons]
      push_cast
      rfl
    · -- the sign was stored before the digits
      have front : _ = m.store s ('-'.toNat.toUInt8 :: uitoa (-n)) := store_in_front m s ['-'.toNat.toUInt8] (uitoa (-n))
      rw [← front, ← uitoa_eq]
      funext i
      simp only [Memory.store, List.length_singleton, Nat.cast_one]
      by_cases first : s ≤ i ∧ i < s + 1
      · rw [if_neg (by omega), if_pos first, if_pos first]
      · rw [if_neg first, if_neg first]
  · rw [uitoa_eq]
    exact uitoa_at s n m

/-- **Printing.** `uitoa` stores the canonical text, and so does `i64toa`, with a terminator behind it outside of the
`int`s; both return its length. -/
theorem i64toa_at (s : ℤ) (n : BitVec 64) (m : Memory) : (i64toaAt s n m).length = (canonical n.toInt).length ∧
    (i64toaAt s n m).memory = m.store s (canonical n.toInt ++ if outsideInt n then [0] else []) := by
  have text : i64toa n = canonical n.toInt := by rw [Fix.i64toa_eq, sprintf64_canonical]
  rw [i64toaAt]
  split
  · rw [sprintf64_canonical]
    exact ⟨rfl, rfl⟩
  · rename_i inside
    obtain ⟨length, memory⟩ := itoa_at s (n.setWidth 32) m
    rw [i64toa, if_neg inside] at text
    rw [List.append_nil, ← text]
    exact ⟨length, memory⟩

/-! ## Reading back -/

namespace Fix

/-- Where `fix_atoi64` stops. -/
def fixAtoi64End (p : List UInt8) : Nat :=
  if p.headD 0 = '-'.toNat.toUInt8 then 1 + (p.tail.takeWhile isDigit).length else (p.takeWhile isDigit).length

/-- What stands behind digits and does not continue them is where they end. -/
theorem digits_end {t : List UInt8} (digits : ∀ c ∈ t, isDigit c = true) {c : UInt8} (other : isDigit c = false)
    (rest : List UInt8) : ((t ++ c :: rest).takeWhile isDigit).length = t.length := by
  rw [List.takeWhile_append_of_pos digits, List.takeWhile_cons_of_neg (by rw [other]; exact Bool.false_ne_true),
    List.append_nil]

theorem canonical_read (n : BitVec 64) (rest : List UInt8) : fixAtoi64 (canonical n.toInt ++ 1 :: rest) = n ∧
    fixAtoi64End (canonical n.toInt ++ 1 :: rest) = (canonical n.toInt).length := by
  constructor
  · rw [atoi64_append, ← sprintf64_canonical, atoi64_sprintf]
  · have digits := digits_decimal n.toInt.natAbs
    have soh : isDigit 1 = false := by decide
    have stop := digits_end digits soh rest
    rw [canonical]
    split
    · have sign : ('-'.toNat.toUInt8 :: decimal n.toInt.natAbs ++ 1 :: rest).headD 0 = '-'.toNat.toUInt8 := rfl
      rw [fixAtoi64End, if_pos sign, List.length_cons, Nat.add_comm]
      exact congrArg (· + 1) stop
    · have plus : (decimal n.toInt.natAbs ++ 1 :: rest).headD 0 ≠ '-'.toNat.toUInt8 := by
        cases text : decimal n.toInt.natAbs with
        | nil => exact absurd text (decimal_ne_nil _)
        | cons c t =>
          rw [text] at digits
          rintro minus
          have digit := digits c List.mem_cons_self
          rw [show c = '-'.toNat.toUInt8 from minus] at digit
          exact absurd digit (by decide)
      rw [fixAtoi64End, if_neg plus, stop]

end Fix

/-- **The text of a number** is canonical, and is read back. -/
theorem prints_canonically :
    (∀ (n : BitVec 64) (s : ℤ) (m : Memory) (rest : List UInt8),
      (i64toaAt s n m).length = (canonical n.toInt).length ∧
      (i64toaAt s n m).memory = m.store s (canonical n.toInt ++ if outsideInt n then [0] else []) ∧
      Fix.fixAtoi64 (canonical n.toInt ++ 1 :: rest) = n ∧
      Fix.fixAtoi64End (canonical n.toInt ++ 1 :: rest) = (canonical n.toInt).length) ∧
    (∀ (n : BitVec 32) (s : ℤ) (m : Memory),
      (uitoaAt s n m).length = (canonical n.toNat).length ∧ (uitoaAt s n m).memory = m.store s (canonical n.toNat)) ∧
    ∀ n : ℤ, ∃ t, canonical n = (if n < 0 then ['-'.toNat.toUInt8] else []) ++ t ∧ value t = n.natAbs ∧
      (∀ c ∈ t, isDigit c = true) ∧ t ≠ [] ∧ (t = [digit 0] ∨ t.head? ≠ some (digit 0)) := by
  refine ⟨fun n s m rest => ?_, fun n s m => ?_, fun n => ?_⟩
  · obtain ⟨length, memory⟩ := i64toa_at s n m
    exact ⟨length, memory, Fix.canonical_read n rest⟩
  · have text : canonical n.toNat = decimal n.toNat := by
      rw [canonical, if_neg (by omega), Int.natAbs_natCast]
    rw [text]
    exact uitoa_at s n m
  · refine ⟨decimal n.natAbs, ?_, value_decimal _, digits_decimal _, decimal_ne_nil _, decimal_no_leading _⟩
    rw [canonical]
    split <;> rfl

end Libtrading
