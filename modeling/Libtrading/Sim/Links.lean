import Libtrading.Sim.Reference
import Libtrading.Store.Linked

/-!
# The lists of the engine

What `order_insert` and `order_remove` change of the book, and that a level
which holds a queue holds it with the order behind it, or without it.
-/

namespace Libtrading.Sim
open Store
set_option autoImplicit false

namespace OrderBook

/-- The order behind `i` in its list. -/
def next (b : OrderBook) (i : Nat) : Option Nat := (b.orders i).next

/-- The order before `i`. -/
def prev (b : OrderBook) (i : Nat) : Option Nat := (b.orders i).prev

/-- At most the ends of the list at `l` and links of the orders in `ids` are different. -/
structure Relinks (b b' : OrderBook) (l : Nat) (ids : List Nat) : Prop where
  levels : ∀ l', l' ≠ l → b'.levels l' = b.levels l'
  orders : ∀ i, i ∉ ids → b'.orders i = b.orders i
  data : ∀ i, b'.orders i = { b.orders i with next := b'.next i, prev := b'.prev i }
  ordersNum : b'.ordersNum = b.ordersNum
  bestAsk : b'.bestAsk = b.bestAsk
  bestBid : b'.bestBid = b.bestBid

section
variable {b b' c : OrderBook} {l : Nat} {ids : List Nat}

/-- Nothing changes. -/
theorem Relinks.refl (b : OrderBook) (l : Nat) (ids : List Nat) : b.Relinks b l ids :=
  ⟨fun _ _ => rfl, fun _ _ => rfl, fun _ => rfl, rfl, rfl, rfl⟩

/-- Two changes of the same list are one. -/
theorem Relinks.trans (h : b.Relinks b' l ids) (h' : b'.Relinks c l ids) : b.Relinks c l ids where
  levels l' hl := (h'.levels l' hl).trans (h.levels l' hl)
  orders i hi := (h'.orders i hi).trans (h.orders i hi)
  data i := by
    rw [h'.data i, h.data i]
  ordersNum := h'.ordersNum.trans h.ordersNum
  bestAsk := h'.bestAsk.trans h.bestAsk
  bestBid := h'.bestBid.trans h.bestBid

/-- A new head. -/
theorem relinks_setHead (b : OrderBook) (l : Nat) (ids : List Nat) (p : Option Nat) : b.Relinks (b.setHead l p) l ids :=
  ⟨fun _ hl => Function.update_of_ne hl _ _, fun _ _ => rfl, fun _ => rfl, rfl, rfl, rfl⟩

/-- A new tail. -/
theorem relinks_setTail (b : OrderBook) (l : Nat) (ids : List Nat) (p : Option Nat) : b.Relinks (b.setTail l p) l ids :=
  ⟨fun _ hl => Function.update_of_ne hl _ _, fun _ _ => rfl, fun _ => rfl, rfl, rfl, rfl⟩

/-- A link to the order behind, of an order among `ids`. -/
theorem relinks_setNext (b : OrderBook) (l : Nat) {at' : Option Nat} (hi : ∀ i, at' = some i → i ∈ ids) (p : Option Nat) :
    b.Relinks (b.setNext at' p) l ids := by
  cases at' with
  | none => exact .refl b l ids
  | some i =>
    refine ⟨fun _ _ => rfl, fun j hj => ?_, fun j => ?_, rfl, rfl, rfl⟩
    · exact Function.update_of_ne (fun same : j = i => hj (same ▸ hi i rfl)) _ _
    · by_cases same : j = i
      · subst same
        simp only [setNext, next, prev, Function.update_self]
      · simp only [setNext, next, prev, Function.update_of_ne same]

/-- A link to the order before. -/
theorem relinks_setPrev (b : OrderBook) (l : Nat) {i : Nat} (hi : i ∈ ids) (p : Option Nat) :
    b.Relinks (b.setPrev i p) l ids := by
  refine ⟨fun _ _ => rfl, fun j hj => ?_, fun j => ?_, rfl, rfl, rfl⟩
  · exact Function.update_of_ne (fun same : j = i => hj (same ▸ hi)) _ _
  · by_cases same : j = i
    · subst same
      simp only [setPrev, next, prev, Function.update_self]
    · simp only [setPrev, next, prev, Function.update_of_ne same]

/-! ## The links after a store -/

/-- The link that was set, and the others. -/
@[simp] theorem setNext_next (b : OrderBook) (at' : Option Nat) (j : Nat) (p : Option Nat) :
    (b.setNext at' p).next j = if at' = some j then p else b.next j := by
  cases at' with
  | none => rfl
  | some i =>
    by_cases same : i = j
    · subst same
      simp only [setNext, next, Function.update_self, if_true]
    · rw [if_neg (fun h => same (Option.some.inj h))]
      simp only [setNext, next, Function.update_of_ne (Ne.symm same)]

/-- Links the other way are left alone. -/
@[simp] theorem setNext_prev (b : OrderBook) (at' : Option Nat) (j : Nat) (p : Option Nat) :
    (b.setNext at' p).prev j = b.prev j := by
  cases at' with
  | none => rfl
  | some i =>
    by_cases same : j = i
    · subst same
      simp only [setNext, prev, Function.update_self]
    · simp only [setNext, prev, Function.update_of_ne same]

@[simp] theorem setPrev_prev (b : OrderBook) (i j : Nat) (p : Option Nat) :
    (b.setPrev i p).prev j = if i = j then p else b.prev j := by
  by_cases same : i = j
  · subst same
    simp only [setPrev, prev, Function.update_self, if_true]
  · simp only [setPrev, prev, Function.update_of_ne (Ne.symm same), if_neg same]

@[simp] theorem setPrev_next (b : OrderBook) (i j : Nat) (p : Option Nat) : (b.setPrev i p).next j = b.next j := by
  by_cases same : j = i
  · subst same
    simp only [setPrev, next, Function.update_self]
  · simp only [setPrev, next, Function.update_of_ne same]

@[simp] theorem setHead_next (b : OrderBook) (l : Nat) (p : Option Nat) : (b.setHead l p).next = b.next := rfl
@[simp] theorem setHead_prev (b : OrderBook) (l : Nat) (p : Option Nat) : (b.setHead l p).prev = b.prev := rfl
@[simp] theorem setTail_next (b : OrderBook) (l : Nat) (p : Option Nat) : (b.setTail l p).next = b.next := rfl
@[simp] theorem setTail_prev (b : OrderBook) (l : Nat) (p : Option Nat) : (b.setTail l p).prev = b.prev := rfl

@[simp] theorem setNext_levels (b : OrderBook) (at' : Option Nat) (p : Option Nat) :
    (b.setNext at' p).levels = b.levels := by cases at' <;> rfl

@[simp] theorem setPrev_levels (b : OrderBook) (i : Nat) (p : Option Nat) : (b.setPrev i p).levels = b.levels := rfl

@[simp] theorem setHead_levels (b : OrderBook) (l : Nat) (p : Option Nat) :
    (b.setHead l p).levels l = ⟨p, (b.levels l).tail⟩ := Function.update_self _ _ _

@[simp] theorem setTail_levels (b : OrderBook) (l : Nat) (p : Option Nat) :
    (b.setTail l p).levels l = ⟨(b.levels l).head, p⟩ := Function.update_self _ _ _

/-! ## `order_insert` and `order_remove` -/

/-- The orders `ids` are the list at `l`. -/
def LinkedAt (b : OrderBook) (l : Nat) (ids : List Nat) : Prop :=
  Linked (b.levels l).head (b.levels l).tail b.next b.prev ids

/-- The list at a level, its ends and links unchanged. -/
theorem LinkedAt.frame (h : b.LinkedAt l ids) (level : b'.levels l = b.levels l)
    (orders : ∀ i ∈ ids, b'.next i = b.next i ∧ b'.prev i = b.prev i) : b'.LinkedAt l ids := by
  rw [LinkedAt, level]
  exact Linked.frame h (fun i hi => (orders i hi).1) (fun i hi => (orders i hi).2)

/-- The ends of the list behind `order_insert`: the order is the tail, and the head of an empty list. -/
theorem insert_level (b : OrderBook) (l o : Nat) :
    (b.orderInsert l o).levels l = ⟨if (b.levels l).head = none then some o else (b.levels l).head, some o⟩ := by
  by_cases empty : (b.levels l).head = none <;> simp [orderInsert, empty]

/-- The tail points at the order, and the order at nothing. -/
theorem insert_next (b : OrderBook) (l o y : Nat) :
    (b.orderInsert l o).next y =
      if o = y then none
      else if (b.levels l).head ≠ none ∧ (b.levels l).tail = some y then some o
      else b.next y := by
  by_cases empty : (b.levels l).head = none <;> simp [orderInsert, empty]

/-- The order points back at the tail. -/
theorem insert_prev (b : OrderBook) (l o y : Nat) :
    (b.orderInsert l o).prev y =
      if o = y then (if (b.levels l).head = none then none else (b.levels l).tail) else b.prev y := by
  by_cases empty : (b.levels l).head = none <;> simp [orderInsert, empty]

/-- **`order_insert`** touches the order, the tail and the ends of the list. -/
theorem insert_relinks (b : OrderBook) (l : Nat) {o : Nat} (ho : o ∈ ids)
    (last : ∀ t, (b.levels l).tail = some t → t ∈ ids) : b.Relinks (b.orderInsert l o) l ids := by
  rw [orderInsert]
  refine Relinks.trans ?_ ((relinks_setTail _ l ids _).trans
    (relinks_setNext _ l (fun i hi => Option.some.inj hi ▸ ho) none))
  split
  · exact (relinks_setNext b l last _).trans (relinks_setPrev _ l ho _)
  · exact (relinks_setHead b l ids _).trans (relinks_setPrev _ l ho _)

/-- **`order_insert`** links an order behind the others. -/
theorem insert_linked {o : Nat} (h : b.LinkedAt l ids) (new : o ∉ ids) :
    (b.orderInsert l o).LinkedAt l (ids ++ [o]) ∧ b.Relinks (b.orderInsert l o) l (ids ++ [o]) := by
  have tails : ∀ t, (b.levels l).tail = some t → t ∈ ids := fun t ht =>
    List.mem_of_getLast? (h.tail_eq.symm.trans ht)
  have ends : (b.levels l).head = none → (b.levels l).tail = none := fun none => by
    rw [h.tail_eq, h.head_none.1 none]
    rfl
  refine ⟨?_, ?_⟩
  · rw [LinkedAt, insert_level]
    refine Linked.concat h new ?_ ?_ ?_ ?_ ?_
    · rw [insert_next, if_pos rfl]
    · rw [insert_prev, if_pos rfl]
      split
      · rename_i empty
        exact (ends empty).symm
      · rfl
    · intro t ht
      have other : o ≠ t := fun same => new (same ▸ tails t ht)
      have some : (b.levels l).head ≠ none := fun empty => nomatch (ends empty).symm.trans ht
      rw [insert_next, if_neg other, if_pos ⟨some, ht⟩]
    · intro y hy inner
      have other : o ≠ y := fun same => new (same ▸ hy)
      rw [insert_next, if_neg other, if_neg (fun last => inner last.2)]
    · intro y hy
      have other : o ≠ y := fun same => new (same ▸ hy)
      rw [insert_prev, if_neg other]
  · exact insert_relinks b l (List.mem_append_right _ List.mem_cons_self)
      (fun t ht => List.mem_append_left _ (tails t ht))

/-- `order_remove`: the link before the order, then the one behind it. -/
theorem remove_eq (b : OrderBook) (l o : Nat) :
    b.orderRemove l o =
      let c := if b.prev o = none then b.setHead l (b.next o) else b.setNext (b.prev o) (b.next o)
      match b.next o with
      | none => c.setTail l (b.prev o)
      | some n => c.setPrev n (b.prev o) := by
  rw [orderRemove]
  show (match b.next o with
    | none => (match b.prev o with
      | none => b.setHead l (b.next o)
      | some p => b.setNext (some p) (b.next o)).setTail l (b.prev o)
    | some n => (match b.prev o with
      | none => b.setHead l (b.next o)
      | some p => b.setNext (some p) (b.next o)).setPrev n (b.prev o)) = _
  cases b.prev o <;> rfl

/-- The ends of the list behind `order_remove` pass over the order. -/
theorem remove_level (b : OrderBook) (l o : Nat) :
    (b.orderRemove l o).levels l =
      ⟨if b.prev o = none then b.next o else (b.levels l).head, if b.next o = none then b.prev o else (b.levels l).tail⟩ := by
  rw [remove_eq]
  cases b.next o <;> by_cases first : b.prev o = none <;> simp [first]

/-- The order before it points at the one behind it. -/
theorem remove_next (b : OrderBook) (l o y : Nat) :
    (b.orderRemove l o).next y = if b.prev o = some y then b.next o else b.next y := by
  rw [remove_eq]
  cases b.next o <;> by_cases first : b.prev o = none <;> simp [first]

/-- And the one behind it back. -/
theorem remove_prev (b : OrderBook) (l o y : Nat) :
    (b.orderRemove l o).prev y = if b.next o = some y then b.prev o else b.prev y := by
  rw [remove_eq]
  cases b.next o <;> by_cases first : b.prev o = none <;> simp [first]

/-- **`order_remove`** touches the two neighbours and the ends of the list, and not the order itself. -/
theorem remove_relinks (b : OrderBook) (l : Nat) {o : Nat} (before : ∀ p, b.prev o = some p → p ∈ ids)
    (behind : ∀ n, b.next o = some n → n ∈ ids) : b.Relinks (b.orderRemove l o) l ids := by
  rw [remove_eq]
  have first : b.Relinks (if b.prev o = none then b.setHead l (b.next o) else b.setNext (b.prev o) (b.next o)) l ids := by
    split
    · exact relinks_setHead b l ids _
    · exact relinks_setNext b l before _
  refine first.trans ?_
  generalize (if b.prev o = none then b.setHead l (b.next o) else b.setNext (b.prev o) (b.next o)) = c
  cases hn : b.next o with
  | none => exact relinks_setTail c l ids _
  | some n => exact relinks_setPrev c l (behind n hn) _

/-- **`order_remove`** takes an order out of the list, wherever it is. -/
theorem remove_linked {o : Nat} {before behind : List Nat} (h : b.LinkedAt l (before ++ o :: behind)) :
    (b.orderRemove l o).LinkedAt l (before ++ behind) ∧ b.Relinks (b.orderRemove l o) l (before ++ behind) := by
  have prev := h.prev_eq before o behind rfl
  have next := h.next_eq before o behind rfl
  refine ⟨?_, ?_⟩
  · rw [LinkedAt, remove_level]
    refine Linked.remove h rfl ?_ ?_ ?_ ?_
    · exact fun y hy => by rw [remove_next, if_pos hy]
    · exact fun y _ _ hy => by rw [remove_next, if_neg hy]
    · exact fun y hy => by rw [remove_prev, if_pos hy]
    · exact fun y _ _ hy => by rw [remove_prev, if_neg hy]
  · refine remove_relinks b l (fun p hp => ?_) (fun n hn => ?_)
    · exact List.mem_append_left _ (List.mem_of_getLast? (prev.symm.trans hp))
    · exact List.mem_append_right _ (List.mem_of_head? (next.symm.trans hn))

end

end OrderBook

end Libtrading.Sim
