import Mathlib.Algebra.Ring.Nat
import Mathlib.Algebra.Ring.Int.Defs
import Mathlib.Logic.Function.Basic

/-!
# GLib's containers

`GHashTable` with direct hash and equality is a map on its keys. `GTree` is a
map up to a comparison: of keys that compare equal it keeps one, the first,
with the value of the last. `GList` is a list, `g_list_insert_sorted` inserts
before the first element that is not smaller, and `g_list_remove` is
`List.erase`.
-/

namespace Libtrading.Store
set_option autoImplicit false
universe u v

section
variable {κ : Type u} {υ : Type v}

/-- `GHashTable`. -/
abbrev HashTable (κ : Type u) (υ : Type v) := κ → Option υ

namespace HashTable
variable [DecidableEq κ]

/-- `g_hash_table_insert`. -/
def insert (t : HashTable κ υ) (k : κ) (x : υ) : HashTable κ υ := Function.update t k (some x)

/-- `g_hash_table_remove`: whether there was such a key, and the table without it. -/
def remove (t : HashTable κ υ) (k : κ) : Bool × HashTable κ υ := ((t k).isSome, Function.update t k none)

@[simp] theorem insert_self (t : HashTable κ υ) (k : κ) (x : υ) : t.insert k x k = some x := Function.update_self _ _ _

theorem insert_ne (t : HashTable κ υ) {k k' : κ} (x : υ) (h : k' ≠ k) : t.insert k x k' = t k' :=
  Function.update_of_ne h _ _

@[simp] theorem remove_self (t : HashTable κ υ) (k : κ) : (t.remove k).2 k = none := Function.update_self _ _ _

theorem remove_ne (t : HashTable κ υ) {k k' : κ} (h : k' ≠ k) : (t.remove k).2 k' = t k' := Function.update_of_ne h _ _

end HashTable

/-- `GTree`, as its entries; their order is not modelled. -/
abbrev Tree (κ : Type u) (υ : Type v) := List (κ × υ)

namespace Tree
variable (cmp : κ → κ → Int)

/-- `g_tree_insert`. -/
def insert (t : Tree κ υ) (k : κ) (x : υ) : Tree κ υ :=
  if t.any fun e => cmp e.1 k = 0 then t.map fun e => if cmp e.1 k = 0 then (e.1, x) else e
  else (k, x) :: t

/-- `g_tree_remove`: whether there was such a key, and the tree without it. -/
def remove (t : Tree κ υ) (k : κ) : Bool × Tree κ υ :=
  (t.any fun e => cmp e.1 k = 0, t.filter fun e => cmp e.1 k ≠ 0)

variable {cmp} {t : Tree κ υ} {k : κ} {x : υ}

/-- A key that compares equal to none is a new entry. -/
theorem mem_insert_new (new : ∀ e ∈ t, cmp e.1 k ≠ 0) (e : κ × υ) : e ∈ t.insert cmp k x ↔ e = (k, x) ∨ e ∈ t := by
  have none : (t.any fun e => decide (cmp e.1 k = 0)) = false :=
    List.any_eq_false.2 fun e he => by simpa using new e he
  rw [insert, if_neg (by rw [none]; exact Bool.false_ne_true), List.mem_cons]

/-- A key that compares equal to another takes the place of its value. -/
theorem mem_insert_old {k' : κ} {x' : υ} (old : (k', x') ∈ t) (same : cmp k' k = 0) (e : κ × υ) :
    e ∈ t.insert cmp k x ↔ (cmp e.1 k = 0 ∧ e.2 = x ∧ ∃ y, (e.1, y) ∈ t) ∨ (cmp e.1 k ≠ 0 ∧ e ∈ t) := by
  have found : (t.any fun e => decide (cmp e.1 k = 0)) = true :=
    List.any_eq_true.2 ⟨(k', x'), old, decide_eq_true same⟩
  rw [insert, if_pos found, List.mem_map]
  constructor
  · rintro ⟨e', he', rfl⟩
    by_cases equal : cmp e'.1 k = 0
    · rw [if_pos equal]
      exact .inl ⟨equal, rfl, e'.2, he'⟩
    · rw [if_neg equal]
      exact .inr ⟨equal, he'⟩
  · rintro (⟨equal, rfl, y, hy⟩ | ⟨other, he⟩)
    · exact ⟨(e.1, y), hy, if_pos equal⟩
    · exact ⟨e, he, if_neg other⟩

theorem mem_remove (e : κ × υ) : e ∈ (t.remove cmp k).2 ↔ e ∈ t ∧ cmp e.1 k ≠ 0 := by
  simp only [remove, List.mem_filter, decide_eq_true_eq]

theorem remove_found : (t.remove cmp k).1 = true ↔ ∃ e ∈ t, cmp e.1 k = 0 := by
  simp only [remove, List.any_eq_true, decide_eq_true_eq]

end Tree

/-! ## Lists -/

/-- `g_list_insert_sorted`. -/
def insertSorted (cmp : υ → υ → Int) (x : υ) : List υ → List υ
  | [] => [x]
  | y :: ys => if cmp x y ≤ 0 then x :: y :: ys else y :: insertSorted cmp x ys

theorem mem_insertSorted (cmp : υ → υ → Int) (x y : υ) (l : List υ) : y ∈ insertSorted cmp x l ↔ y = x ∨ y ∈ l := by
  induction l with
  | nil => rw [insertSorted, List.mem_singleton, or_iff_left List.not_mem_nil]
  | cons z l ih =>
    rw [insertSorted]
    split
    · rw [List.mem_cons]
    · rw [List.mem_cons, ih, List.mem_cons]
      exact or_left_comm

/-- Insertion keeps a list in strict order, by a key that no element of it has. -/
theorem pairwise_insertSorted {cmp : υ → υ → Int} {key : υ → Nat} {x : υ} {l : List υ}
    (le : ∀ y ∈ l, cmp x y ≤ 0 ↔ key x ≤ key y) (new : ∀ y ∈ l, key y ≠ key x)
    (sorted : l.Pairwise fun a b => key a < key b) : (insertSorted cmp x l).Pairwise fun a b => key a < key b := by
  induction l with
  | nil => exact List.pairwise_singleton _ _
  | cons z l ih =>
    obtain ⟨first, rest⟩ := List.pairwise_cons.1 sorted
    rw [insertSorted]
    split
    · rename_i here
      have before : key x < key z :=
        Nat.lt_of_le_of_ne ((le z List.mem_cons_self).1 here) (Ne.symm (new z List.mem_cons_self))
      refine List.pairwise_cons.2 ⟨fun y hy => ?_, sorted⟩
      rcases List.mem_cons.1 hy with rfl | hy
      · exact before
      · exact Nat.lt_trans before (first y hy)
    · rename_i later
      have behind : key z < key x := Nat.lt_of_not_le fun h => later ((le z List.mem_cons_self).2 h)
      refine List.pairwise_cons.2 ⟨fun y hy => ?_, ?_⟩
      · rcases (mem_insertSorted cmp x y l).1 hy with rfl | hy
        · exact behind
        · exact first y hy
      · exact ih (fun y hy => le y (List.mem_cons_of_mem _ hy)) (fun y hy => new y (List.mem_cons_of_mem _ hy)) rest

end

end Libtrading.Store
