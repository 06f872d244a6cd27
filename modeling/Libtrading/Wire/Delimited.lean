import Mathlib.Algebra.Ring.Nat
import Mathlib.Algebra.Ring.Int.Defs

/-!
# Delimited bytes

Cutting a list of bytes at the first delimiter, and naming a place in it by the
number of bytes left from there on. Both survive more bytes being put behind:
`cut_append` and `last_append` say how.
-/

namespace Libtrading.Wire
set_option autoImplicit false

/-- The bytes before the first `c` and those behind it. -/
def cut (c : UInt8) : List UInt8 → Option (List UInt8 × List UInt8)
  | [] => none
  | x :: xs => if x = c then some ([], xs) else (cut c xs).map fun p => (x :: p.1, p.2)

/-- The last `n` bytes. -/
def last (n : Nat) (u : List UInt8) : List UInt8 := u.drop (u.length - n)

theorem cut_eq_some {c : UInt8} {u t r : List UInt8} :
    cut c u = some (t, r) ↔ u = t ++ c :: r ∧ c ∉ t := by
  induction u generalizing t with
  | nil => simp [cut]
  | cons x xs ih =>
    rw [cut]
    split
    · rename_i hx
      constructor
      · rintro ⟨⟩
        exact ⟨by rw [hx, List.nil_append], List.not_mem_nil⟩
      · rintro ⟨h, hc⟩
        cases t with
        | nil => rw [(List.cons.inj h).2]
        | cons y t => exact absurd (List.mem_cons.2 (.inl (hx.symm.trans (List.cons.inj h).1))) hc
    · rename_i hx
      rw [Option.map_eq_some_iff]
      constructor
      · rintro ⟨⟨t', r'⟩, hp, heq⟩
        obtain ⟨rfl, rfl⟩ := Prod.mk.inj heq
        obtain ⟨rfl, hc⟩ := ih.1 hp
        exact ⟨rfl, fun h => (List.mem_cons.1 h).elim (fun e => hx e.symm) hc⟩
      · rintro ⟨h, hc⟩
        cases t with
        | nil => exact absurd (List.cons.inj h).1 hx
        | cons y t =>
          obtain ⟨rfl, rfl⟩ := List.cons.inj h
          exact ⟨(t, r), ih.2 ⟨rfl, fun h => hc (List.mem_cons_of_mem _ h)⟩, rfl⟩

theorem cut_eq_none {c : UInt8} {u : List UInt8} : cut c u = none ↔ c ∉ u := by
  induction u with
  | nil => simp [cut]
  | cons x xs ih =>
    rw [cut]
    split
    · rename_i hx
      simp [hx]
    · rename_i hx
      rw [Option.map_eq_none_iff, ih, List.mem_cons, not_or]
      exact ⟨fun h => ⟨fun e => hx e.symm, h⟩, fun h => h.2⟩

theorem cut_mk {c : UInt8} {t : List UInt8} (h : c ∉ t) (r : List UInt8) : cut c (t ++ c :: r) = some (t, r) :=
  cut_eq_some.2 ⟨rfl, h⟩

/-- What is found stays found when bytes are put behind. -/
theorem cut_append {c : UInt8} {u t r : List UInt8} (h : cut c u = some (t, r)) (x : List UInt8) :
    cut c (u ++ x) = some (t, r ++ x) := by
  obtain ⟨rfl, hc⟩ := cut_eq_some.1 h
  rw [List.append_assoc, List.cons_append, cut_mk hc]

/-- The bytes behind a delimiter end the bytes it was looked for in. -/
theorem cut_suffix {c : UInt8} {u t r : List UInt8} (h : cut c u = some (t, r)) : r <:+ u := by
  obtain ⟨rfl, -⟩ := cut_eq_some.1 h
  exact ⟨t ++ [c], by simp⟩

theorem cut_length {c : UInt8} {u t r : List UInt8} (h : cut c u = some (t, r)) :
    u.length = t.length + 1 + r.length := by
  obtain ⟨rfl, -⟩ := cut_eq_some.1 h
  simp only [List.length_append, List.length_cons]
  omega

@[simp] theorem length_last {n : Nat} {u : List UInt8} (h : n ≤ u.length) : (last n u).length = n := by
  rw [last, List.length_drop]
  omega

theorem last_suffix (n : Nat) (u : List UInt8) : last n u <:+ u := List.drop_suffix _ _

theorem last_length (u : List UInt8) : last u.length u = u := by
  rw [last, Nat.sub_self, List.drop_zero]

/-- A suffix is named by its length. -/
theorem last_of_suffix {r u : List UInt8} (h : r <:+ u) : last r.length u = r := by
  obtain ⟨t, rfl⟩ := h
  rw [last, List.length_append, Nat.add_sub_cancel, List.drop_left]

/-- A place inside a suffix is that place in the whole. -/
theorem last_last {r u : List UInt8} {n : Nat} (h : r <:+ u) (hn : n ≤ r.length) : last n r = last n u := by
  obtain ⟨t, rfl⟩ := h
  have front : t.length + r.length - n = t.length + (r.length - n) := by omega
  rw [last, last, List.length_append, front, ← List.drop_drop, List.drop_left]

/-- Bytes put behind are left from every place on. -/
theorem last_append {n : Nat} {u : List UInt8} (h : n ≤ u.length) (x : List UInt8) :
    last (n + x.length) (u ++ x) = last n u ++ x := by
  rw [last, List.length_append, last, List.drop_append_of_le_length (by omega)]
  congr 2
  omega

end Libtrading.Wire
