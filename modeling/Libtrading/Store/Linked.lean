import Mathlib.Algebra.Ring.Nat
import Mathlib.Algebra.Ring.Int.Defs
import Mathlib.Data.List.Nodup

/-!
# Doubly linked lists

Nodes of a memory that hold the next and the previous node, with the first
and the last node kept outside. `Linked` says which list of nodes they form;
a new last node and the removal of any node are described by what they
change, so that they can be used whatever else a memory holds.
-/

namespace Libtrading.Store
set_option autoImplicit false
universe u

variable {ι : Type u}

/-- The nodes `ids`, in their order, are linked both ways between `head` and `tail`. -/
structure Linked (head tail : Option ι) (next prev : ι → Option ι) (ids : List ι) : Prop where
  nodup : ids.Nodup
  head_eq : head = ids.head?
  tail_eq : tail = ids.getLast?
  next_eq : ∀ l x r, ids = l ++ x :: r → next x = r.head?
  prev_eq : ∀ l x r, ids = l ++ x :: r → prev x = l.getLast?

namespace Linked

variable {head tail : Option ι} {next prev next' prev' : ι → Option ι} {ids : List ι}

theorem nil (next prev : ι → Option ι) : Linked none none next prev [] where
  nodup := List.nodup_nil
  head_eq := rfl
  tail_eq := rfl
  next_eq l x r h := absurd (congrArg List.length h) (by simp)
  prev_eq l x r h := absurd (congrArg List.length h) (by simp)

/-- Only the links of the list's own nodes matter. -/
theorem frame (h : Linked head tail next prev ids) (nexts : ∀ x ∈ ids, next' x = next x)
    (prevs : ∀ x ∈ ids, prev' x = prev x) : Linked head tail next' prev' ids where
  nodup := h.nodup
  head_eq := h.head_eq
  tail_eq := h.tail_eq
  next_eq l x r hs := by rw [nexts x (by simp [hs]), h.next_eq l x r hs]
  prev_eq l x r hs := by rw [prevs x (by simp [hs]), h.prev_eq l x r hs]

theorem head_none (h : Linked head tail next prev ids) : head = none ↔ ids = [] := by
  rw [h.head_eq, List.head?_eq_none_iff]

/-- **A new last node.** -/
theorem concat (h : Linked head tail next prev ids) {x : ι} (new : x ∉ ids)
    (next_new : next' x = none) (prev_new : prev' x = tail)
    (next_tail : ∀ t, tail = some t → next' t = some x)
    (nexts : ∀ y ∈ ids, tail ≠ some y → next' y = next y) (prevs : ∀ y ∈ ids, prev' y = prev y) :
    Linked (if head = none then some x else head) (some x) next' prev' (ids ++ [x]) where
  nodup := by
    rw [List.nodup_append]
    refine ⟨h.nodup, List.nodup_singleton x, fun a ha b hb same => ?_⟩
    rw [List.mem_singleton] at hb
    exact new (hb ▸ same ▸ ha)
  head_eq := by
    by_cases empty : ids = []
    · rw [if_pos (h.head_none.2 empty), empty]
      rfl
    · rw [if_neg (fun none => empty (h.head_none.1 none)), h.head_eq, List.head?_append_of_ne_nil _ empty]
  tail_eq := List.getLast?_concat.symm
  next_eq l y r hs := by
    rcases List.eq_nil_or_concat r with rfl | ⟨r', z, rfl⟩
    · obtain ⟨-, hx⟩ := List.append_inj' hs rfl
      cases hx
      exact next_new
    · rw [List.concat_eq_append, ← List.cons_append, ← List.append_assoc] at hs
      obtain ⟨front, hz⟩ := List.append_inj' hs rfl
      cases hz
      have mem : y ∈ ids := by simp [front]
      cases r' with
      | nil =>
        rw [next_tail y (by rw [h.tail_eq, front, List.getLast?_concat])]
        rfl
      | cons z r' =>
        -- `y` is not the last node, because the list has no node twice
        have inner : tail ≠ some y := by
          rw [h.tail_eq]
          intro last
          have apart := h.nodup
          rw [front, List.nodup_append] at apart
          have once := (List.nodup_cons.1 apart.2.1).1
          rw [front, List.getLast?_append_of_ne_nil _ (List.cons_ne_nil _ _), List.getLast?_cons_cons] at last
          exact once (List.mem_of_getLast? last)
        rw [nexts y mem inner, h.next_eq l y _ front]
        rfl
  prev_eq l y r hs := by
    rcases List.eq_nil_or_concat r with rfl | ⟨r', z, rfl⟩
    · obtain ⟨hl, hx⟩ := List.append_inj' hs rfl
      cases hx
      rw [prev_new, h.tail_eq, hl]
    · rw [List.concat_eq_append, ← List.cons_append, ← List.append_assoc] at hs
      obtain ⟨front, -⟩ := List.append_inj' hs rfl
      rw [prevs y (by simp [front]), h.prev_eq l y r' front]

/-- In a list without repetition, the nodes before one and behind it are apart. -/
theorem apart (h : Linked head tail next prev ids) {l r : List ι} {x : ι} (at' : ids = l ++ x :: r) :
    x ∉ l ∧ x ∉ r ∧ ∀ y ∈ l, y ∉ r := by
  have nodup := h.nodup
  rw [at', List.nodup_append] at nodup
  obtain ⟨-, behind, other⟩ := nodup
  refine ⟨fun hx => other x hx x List.mem_cons_self rfl, (List.nodup_cons.1 behind).1, fun y hl hr => ?_⟩
  exact other y hl y (List.mem_cons_of_mem _ hr) rfl

/-- A place in two lists put together is a place in one of them. -/
theorem place_append {l r l' r' : List ι} {y : ι} (h : l ++ r = l' ++ y :: r') :
    (∃ m, l' = l ++ m ∧ r = m ++ y :: r') ∨ ∃ m, l = l' ++ y :: m ∧ r' = m ++ r := by
  rcases List.append_eq_append_iff.1 h with ⟨m, hl, hr⟩ | ⟨m, hl, hr⟩
  · exact .inl ⟨m, hl, hr⟩
  · cases m with
    | nil => exact .inl ⟨[], by rw [hl, List.append_nil, List.append_nil], hr.symm⟩
    | cons w m =>
      obtain ⟨rfl, behind⟩ := List.cons.inj hr
      exact .inr ⟨m, hl, behind⟩

/-- **Removal.** The nodes before and behind the removed one are linked to each other, or to the ends. -/
theorem remove (h : Linked head tail next prev ids) {l r : List ι} {x : ι} (at' : ids = l ++ x :: r)
    (next_prev : ∀ y, prev x = some y → next' y = next x)
    (nexts : ∀ y ∈ ids, y ≠ x → prev x ≠ some y → next' y = next y)
    (prev_next : ∀ y, next x = some y → prev' y = prev x)
    (prevs : ∀ y ∈ ids, y ≠ x → next x ≠ some y → prev' y = prev y) :
    Linked (if prev x = none then next x else head) (if next x = none then prev x else tail) next' prev' (l ++ r) := by
  have nextx := h.next_eq l x r at'
  have prevx := h.prev_eq l x r at'
  obtain ⟨xl, xr, lr⟩ := h.apart at'
  refine ⟨?_, ?_, ?_, ?_, ?_⟩
  · have nodup := h.nodup
    rw [at', List.nodup_middle, List.nodup_cons] at nodup
    exact nodup.2
  · rw [nextx, prevx, h.head_eq, at']
    cases l with
    | nil => rfl
    | cons z l =>
      have inner : (z :: l).getLast? ≠ none := fun none => nomatch List.getLast?_eq_none_iff.1 none
      rw [if_neg inner]
      rfl
  · rw [nextx, prevx, h.tail_eq, at']
    cases r with
    | nil => rw [List.append_nil]; rfl
    | cons z r =>
      rw [if_neg (by simp), List.getLast?_append_of_ne_nil _ (List.cons_ne_nil _ _),
        List.getLast?_append_of_ne_nil _ (List.cons_ne_nil _ _), List.getLast?_cons_cons]
  · intro l' y r' hs
    rcases place_append hs with ⟨m, rfl, hr⟩ | ⟨m, hl, hr⟩
    · -- `y` is behind the removed node, and so is what follows it
      have mem : y ∈ r := by simp [hr]
      have inner : prev x ≠ some y := by
        rw [prevx]
        exact fun last => lr y (List.mem_of_getLast? last) mem
      rw [nexts y (by simp [at', mem]) (fun same => xr (same ▸ mem)) inner]
      exact h.next_eq (l ++ x :: m) y r' (by rw [at', hr]; simp)
    · have mem : y ∈ l := by simp [hl]
      cases m with
      | nil =>
        -- `y` was followed by the removed node
        rw [next_prev y (by rw [prevx, hl, List.getLast?_concat]), nextx, hr]
        rfl
      | cons z m =>
        have inner : prev x ≠ some y := by
          rw [prevx, hl, List.getLast?_append_of_ne_nil _ (List.cons_ne_nil _ _), List.getLast?_cons_cons]
          intro last
          exact (h.apart (l := l') (x := y) (r := z :: m ++ x :: r) (by rw [at', hl]; simp)).2.1
            (List.mem_append_left _ (List.mem_of_getLast? last))
        rw [nexts y (by simp [at', mem]) (fun same => xl (same ▸ mem)) inner,
          h.next_eq l' y (z :: m ++ x :: r) (by rw [at', hl]; simp), hr]
        rfl
  · intro l' y r' hs
    rcases place_append hs with ⟨m, hl, hr⟩ | ⟨m, hl, hr⟩
    · have mem : y ∈ r := by simp [hr]
      cases m with
      | nil =>
        -- `y` followed the removed node
        rw [prev_next y (by rw [nextx, hr]; rfl), prevx, hl, List.append_nil]
      | cons z m =>
        have inner : next x ≠ some y := by
          rw [nextx, hr]
          intro first
          obtain rfl : z = y := Option.some.inj first
          exact (h.apart (l := l ++ x :: z :: m) (x := z) (r := r') (by rw [at', hr]; simp)).1 (by simp)
        rw [prevs y (by simp [at', mem]) (fun same => xr (same ▸ mem)) inner,
          h.prev_eq (l ++ x :: z :: m) y r' (by rw [at', hr]; simp), hl,
          List.getLast?_append_of_ne_nil _ (List.cons_ne_nil _ _),
          List.getLast?_append_of_ne_nil _ (List.cons_ne_nil _ _), List.getLast?_cons_cons]
    · -- `y` is before the removed node, and so is what precedes it
      have mem : y ∈ l := by simp [hl]
      have inner : next x ≠ some y := by
        rw [nextx]
        exact fun first => lr y mem (List.mem_of_head? first)
      rw [prevs y (by simp [at', mem]) (fun same => xl (same ▸ mem)) inner]
      exact h.prev_eq l' y (m ++ x :: r) (by rw [at', hl]; simp)

end Linked

end Libtrading.Store
