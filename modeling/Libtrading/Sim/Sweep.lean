import Libtrading.Sim.Links
import Mathlib.Data.List.Perm.Subperm

/-!
# One level against one queue

A level that holds a queue is swept as the reference consumes the queue: the
same trades, and the level then holds what the reference leaves.
-/

namespace Libtrading.Sim
open Store
set_option autoImplicit false

/-- The orders in a queue. -/
def ids (q : List Resting) : List Nat := q.map (·.id)

theorem mem_ids {q : List Resting} {i : Nat} : i ∈ ids q ↔ ∃ x ∈ q, x.id = i := List.mem_map

theorem consume_zero (side : Side) (trader price : Nat) (q : List Resting) :
    consume side trader price q 0 = ([], q, 0) := by
  cases q with
  | nil => rfl
  | cons x q => rw [consume, if_pos rfl]

/-- An order with something left has emptied the queue. -/
theorem consume_left {side : Side} {trader price : Nat} (q : List Resting) {n : Nat}
    (left : (consume side trader price q n).2.2 ≠ 0) : (consume side trader price q n).2.1 = [] := by
  induction q generalizing n with
  | nil => rfl
  | cons x q ih =>
    rw [consume] at left ⊢
    by_cases none : n = 0
    · rw [if_pos none] at left
      exact absurd rfl left
    · rw [if_neg none] at left ⊢
      by_cases some : n < x.size
      · rw [if_pos some] at left
        exact absurd rfl left
      · rw [if_neg some] at left ⊢
        exact ih left

namespace OrderBook

variable {b b' c : OrderBook} {l : Nat} {q : List Resting}

/-- The order at `l` that rests as `x`. -/
structure Kept (b : OrderBook) (l : Nat) (x : Resting) : Prop where
  trader : (b.orders x.id).trader = x.trader
  level : (b.orders x.id).level = l
  size : (b.orders x.id).size = x.size
  pos : 0 < x.size
  issued : x.id < b.ordersNum

/-- The level `l` holds the queue `q`. -/
structure Holds (b : OrderBook) (l : Nat) (q : List Resting) : Prop where
  linked : b.LinkedAt l (ids q)
  kept : ∀ x ∈ q, b.Kept l x

theorem Kept.relinks {x : Resting} {l' : Nat} {js : List Nat} (h : b.Kept l x) (r : b.Relinks b' l' js) : b'.Kept l x := by
  have data := r.data x.id
  refine ⟨?_, ?_, ?_, h.pos, r.ordersNum ▸ h.issued⟩
  · rw [data]
    exact h.trader
  · rw [data]
    exact h.level
  · rw [data]
    exact h.size

theorem Kept.same {x : Resting} (h : b.Kept l x) (orders : b'.orders x.id = b.orders x.id)
    (issued : b.ordersNum ≤ b'.ordersNum) : b'.Kept l x :=
  ⟨by rw [orders, h.trader], by rw [orders, h.level], by rw [orders, h.size], h.pos, Nat.lt_of_lt_of_le h.issued issued⟩

/-- A level is not touched by what happens elsewhere. -/
theorem Holds.frame (h : b.Holds l q) (level : b'.levels l = b.levels l)
    (orders : ∀ i ∈ ids q, b'.orders i = b.orders i) (issued : b.ordersNum ≤ b'.ordersNum) : b'.Holds l q where
  linked := h.linked.frame level fun i hi => by simp only [next, prev, orders i hi, and_self]
  kept x hx := (h.kept x hx).same (orders x.id (List.mem_map_of_mem hx)) issued

theorem Holds.issued (h : b.Holds l q) {i : Nat} (hi : i ∈ ids q) : i < b.ordersNum := by
  obtain ⟨x, hx, rfl⟩ := mem_ids.1 hi
  exact (h.kept x hx).issued

/-- There are no more orders in a queue than there are orders. -/
theorem Holds.length_le (h : b.Holds l q) : q.length ≤ b.ordersNum := by
  have inside : ids q ⊆ List.range b.ordersNum := fun i hi => List.mem_range.2 (h.issued hi)
  have := (List.subperm_of_subset h.linked.nodup inside).length_le
  rwa [ids, List.length_map, List.length_range] at this

/-! ## A turn of the loop -/

/-- What a turn leaves: both sizes less the smaller of the two. -/
structure Turned (b s : OrderBook) (o h : Nat) : Prop where
  resting : s.orders h = { b.orders h with size := (b.orders h).size - (b.orders o).size }
  incoming : s.orders o = { b.orders o with size := (b.orders o).size - (b.orders h).size }
  orders : ∀ i, i ≠ h → i ≠ o → s.orders i = b.orders i
  levels : s.levels = b.levels
  next : s.next = b.next
  prev : s.prev = b.prev
  ordersNum : s.ordersNum = b.ordersNum
  bestAsk : s.bestAsk = b.bestAsk
  bestBid : s.bestBid = b.bestBid

theorem setSize_orders (b : OrderBook) (i n j : Nat) :
    (b.setSize i n).orders j = if j = i then { b.orders i with size := n } else b.orders j := by
  simp only [setSize, Function.update_apply]

@[simp] theorem setSize_next (b : OrderBook) (i n : Nat) : (b.setSize i n).next = b.next := by
  funext j
  by_cases same : j = i
  · subst same
    simp only [next, setSize_orders, if_true]
  · simp only [next, setSize_orders, if_neg same]

@[simp] theorem setSize_prev (b : OrderBook) (i n : Nat) : (b.setSize i n).prev = b.prev := by
  funext j
  by_cases same : j = i
  · subst same
    simp only [prev, setSize_orders, if_true]
  · simp only [prev, setSize_orders, if_neg same]

/-- A turn trades the smaller size. -/
theorem turn_spec (b : OrderBook) (side : Side) {l o h : Nat} (apart : o ≠ h) :
    ∃ s, b.turn side l o h = (b.tradeOf side l o h (min (b.orders h).size (b.orders o).size), s) ∧ b.Turned s o h := by
  rw [turn]
  split
  · rename_i less
    refine ⟨_, by rw [Nat.min_eq_left (Nat.le_of_lt less)], ?_⟩
    refine ⟨?_, ?_, fun i hh ho => ?_, rfl, by simp, by simp, rfl, rfl, rfl⟩
    · rw [setSize_orders, if_pos rfl, setSize_orders, if_neg (Ne.symm apart), Nat.sub_eq_zero_of_le (Nat.le_of_lt less)]
    · rw [setSize_orders, if_neg apart, setSize_orders, if_pos rfl]
    · rw [setSize_orders, if_neg hh, setSize_orders, if_neg ho]
  · rename_i enough
    have enough := Nat.le_of_not_lt enough
    refine ⟨_, by rw [Nat.min_eq_right enough], ?_⟩
    refine ⟨?_, ?_, fun i hh ho => ?_, rfl, by simp, by simp, rfl, rfl, rfl⟩
    · rw [setSize_orders, if_neg (Ne.symm apart), setSize_orders, if_pos rfl]
    · rw [setSize_orders, if_pos rfl, setSize_orders, if_neg apart, Nat.sub_eq_zero_of_le enough]
    · rw [setSize_orders, if_neg ho, setSize_orders, if_neg hh]

/-! ## The loop -/

/-- The level `l` was swept by the order `o`: it held `q`, it holds `q'`, and `left` is left of the order. -/
structure Swept (b b' : OrderBook) (l : Nat) (q : List Resting) (o : Nat) (q' : List Resting) (left : Nat) : Prop where
  holds : b'.Holds l q'
  subset : ids q' ⊆ ids q
  incoming : b'.orders o = { b.orders o with size := left }
  gone : ∀ i ∈ ids q, i ∉ ids q' → (b'.orders i).size = 0
  orders : ∀ i, i ∉ ids q → i ≠ o → b'.orders i = b.orders i
  levels : ∀ l', l' ≠ l → b'.levels l' = b.levels l'
  ordersNum : b'.ordersNum = b.ordersNum
  bestAsk : b'.bestAsk = b.bestAsk
  bestBid : b'.bestBid = b.bestBid

theorem Swept.trans {q' q'' : List Resting} {o m left : Nat} (h : b.Swept b' l q o q' m) (h' : b'.Swept c l q' o q'' left)
    (out : o ∉ ids q) : b.Swept c l q o q'' left where
  holds := h'.holds
  subset := List.Subset.trans h'.subset h.subset
  incoming := by rw [h'.incoming, h.incoming]
  gone i hi hn := by
    by_cases still : i ∈ ids q'
    · exact h'.gone i still hn
    · rw [h'.orders i still (fun same => out (same ▸ hi))]
      exact h.gone i hi still
  orders i hi ho := (h'.orders i (fun still => hi (h.subset still)) ho).trans (h.orders i hi ho)
  levels l' hl := (h'.levels l' hl).trans (h.levels l' hl)
  ordersNum := h'.ordersNum.trans h.ordersNum
  bestAsk := h'.bestAsk.trans h.bestAsk
  bestBid := h'.bestBid.trans h.bestBid

/-- The head has more than the order: it stays, with what it has left. -/
theorem swept_some {s : OrderBook} {x : Resting} {o : Nat} (h : b.Holds l (x :: q)) (out : o ∉ ids (x :: q))
    (less : (b.orders o).size < x.size) (t : b.Turned s o x.id) :
    b.Swept s l (x :: q) o ({ x with size := x.size - (b.orders o).size } :: q) 0 := by
  have kept := h.kept x List.mem_cons_self
  have first : x.id ∉ ids q := (List.nodup_cons.1 h.linked.nodup).1
  refine ⟨⟨?_, fun y hy => ?_⟩, fun i hi => hi, ?_, fun i hi hn => absurd hi hn, ?_, ?_, t.ordersNum, t.bestAsk, t.bestBid⟩
  · exact h.linked.frame (by rw [t.levels]) fun i _ => by rw [t.next, t.prev]; exact ⟨rfl, rfl⟩
  · rcases List.mem_cons.1 hy with rfl | hy
    · refine ⟨?_, ?_, ?_, by simp only; omega, by rw [t.ordersNum]; exact kept.issued⟩
      · rw [t.resting]
        exact kept.trader
      · rw [t.resting]
        exact kept.level
      · rw [t.resting]
        simp only [kept.size]
    · have hid : y.id ∈ ids q := List.mem_map_of_mem hy
      refine (h.kept y (List.mem_cons_of_mem _ hy)).same ?_ (Nat.le_of_eq t.ordersNum.symm)
      exact t.orders y.id (fun same => first (same ▸ hid)) (fun same => out (same ▸ List.mem_cons_of_mem _ hid))
  · rw [t.incoming, kept.size, Nat.sub_eq_zero_of_le (Nat.le_of_lt less)]
  · exact fun i hi ho => t.orders i (fun same => hi (same ▸ List.mem_cons_self)) ho
  · exact fun l' _ => by rw [t.levels]

/-- The order has enough for the head: it is removed. -/
theorem swept_all {s : OrderBook} {x : Resting} {o : Nat} (h : b.Holds l (x :: q)) (out : o ∉ ids (x :: q))
    (enough : x.size ≤ (b.orders o).size) (t : b.Turned s o x.id) :
    b.Swept (s.orderRemove l x.id) l (x :: q) o q ((b.orders o).size - x.size) := by
  have kept := h.kept x List.mem_cons_self
  have first : x.id ∉ ids q := (List.nodup_cons.1 h.linked.nodup).1
  have linked : s.LinkedAt l ([] ++ x.id :: ids q) :=
    h.linked.frame (by rw [t.levels]) fun i _ => by rw [t.next, t.prev]; exact ⟨rfl, rfl⟩
  obtain ⟨linked', r⟩ := remove_linked linked
  refine ⟨⟨linked', fun y hy => ?_⟩, List.subset_cons_self _ _, ?_, fun i hi hn => ?_, fun i hi ho => ?_, fun l' hl => ?_,
    r.ordersNum.trans t.ordersNum, r.bestAsk.trans t.bestAsk, r.bestBid.trans t.bestBid⟩
  · have hid : y.id ∈ ids q := List.mem_map_of_mem hy
    refine Kept.relinks (Kept.same (h.kept y (List.mem_cons_of_mem _ hy)) ?_ (Nat.le_of_eq t.ordersNum.symm)) r
    exact t.orders y.id (fun same => first (same ▸ hid)) (fun same => out (same ▸ List.mem_cons_of_mem _ hid))
  · rw [r.orders o (fun ho => out (List.mem_cons_of_mem _ ho)), t.incoming, kept.size]
  · -- only the head is gone, and it has nothing left
    rcases List.mem_cons.1 hi with rfl | hi
    · rw [r.orders _ hn, t.resting, kept.size]
      exact Nat.sub_eq_zero_of_le enough
    · exact absurd hi hn
  · rw [r.orders i (fun hq => hi (List.mem_cons_of_mem _ hq))]
    exact t.orders i (fun same => hi (same ▸ List.mem_cons_self)) ho
  · rw [r.levels l' hl, t.levels]

/-- The two engines call a trade the same. -/
theorem trade_with (side : Side) (l o : Nat) {x : Resting} (kept : b.Kept l x) (n : Nat) :
    b.tradeOf side l o x.id n = tradeWith side (b.orders o).trader l x n := by
  cases side <;> simp only [tradeOf, tradeWith, kept.trader]

/-- **A swept level.** The loop over a level that holds `q` trades as the reference consumes `q`. -/
theorem sweep_consumes (side : Side) (o : Nat) {q : List Resting} (h : b.Holds l q) (out : o ∉ ids q)
    (some : 0 < (b.orders o).size) {turns : Nat} (enough : q.length < turns) :
    ∃ b', sweep side l o turns b =
        .some ((consume side (b.orders o).trader l q (b.orders o).size).1,
          decide ((consume side (b.orders o).trader l q (b.orders o).size).2.2 = 0), b') ∧
      b.Swept b' l q o (consume side (b.orders o).trader l q (b.orders o).size).2.1
        (consume side (b.orders o).trader l q (b.orders o).size).2.2 := by
  induction q generalizing b turns with
  | nil =>
    obtain ⟨turns, rfl⟩ : ∃ k, turns = k + 1 := ⟨turns - 1, by simp only [List.length_nil] at enough; omega⟩
    have empty : (b.levels l).head = none := h.linked.head_none.2 rfl
    refine ⟨b, ?_, ?_⟩
    · rw [sweep, empty]
      simp only [consume, Nat.ne_of_gt some, decide_false]
    · exact ⟨h, fun i hi => hi, rfl, fun i hi hn => absurd hi hn, fun _ _ _ => rfl, fun _ _ => rfl, rfl, rfl, rfl⟩
  | cons x q ih =>
    obtain ⟨turns, rfl⟩ : ∃ k, turns = k + 1 := ⟨turns - 1, by omega⟩
    have head : (b.levels l).head = .some x.id := h.linked.head_eq
    have kept := h.kept x List.mem_cons_self
    have apart : o ≠ x.id := fun same => out (same ▸ List.mem_cons_self)
    obtain ⟨s, turned, t⟩ := turn_spec b side (l := l) apart
    have resting : (s.orders x.id).size = x.size - (b.orders o).size := by rw [t.resting, kept.size]
    rw [sweep, head]
    simp only [turned, resting]
    rw [consume, if_neg (Nat.ne_of_gt some)]
    by_cases less : (b.orders o).size < x.size
    · have left : (s.orders o).size = 0 := by rw [t.incoming, kept.size, Nat.sub_eq_zero_of_le (Nat.le_of_lt less)]
      have keeps : ¬ x.size - (b.orders o).size = 0 := Nat.sub_ne_zero_of_lt less
      simp only [if_neg keeps, if_pos left, if_pos less]
      rw [kept.size, Nat.min_eq_right (Nat.le_of_lt less),
        trade_with side l o kept]
      exact ⟨s, by simp only [decide_true], swept_some h out less t⟩
    · have less := Nat.le_of_not_lt less
      have first := swept_all h out less t
      have leaves : x.size - (b.orders o).size = 0 := Nat.sub_eq_zero_of_le less
      simp only [if_pos leaves, if_neg (Nat.not_lt.2 less)]
      rw [kept.size, Nat.min_eq_left less,
        trade_with side l o kept]
      have size : ((s.orderRemove l x.id).orders o).size = (b.orders o).size - x.size := by rw [first.incoming]
      have trader : ((s.orderRemove l x.id).orders o).trader = (b.orders o).trader := by rw [first.incoming]
      rw [size]
      by_cases none : (b.orders o).size - x.size = 0
      · rw [if_pos none, none, consume_zero]
        rw [none] at first
        exact ⟨_, by simp only [decide_true], first⟩
      · rw [if_neg none]
        have shorter : q.length < turns := by simp only [List.length_cons] at enough; omega
        obtain ⟨b', rest, swept⟩ := ih first.holds (fun ho => out (List.mem_cons_of_mem _ ho))
          (by rw [size]; exact Nat.pos_of_ne_zero none) shorter
        rw [size, trader] at rest swept
        rw [rest]
        exact ⟨b', rfl, first.trans swept out⟩

end OrderBook

end Libtrading.Sim
