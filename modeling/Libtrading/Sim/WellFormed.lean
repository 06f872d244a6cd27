import Libtrading.Sim.Priority

/-!
# The book between calls

The orders of which something is left are linked, each at its own level and nowhere else, and bids are at or below
`best_bid`, asks at or above `best_ask`. Which orders are in which queue is what the reference says; that a queue has
orders of its side only needs that no call changes the side of an order.
-/

namespace Libtrading.Sim
open Store
set_option autoImplicit false

/-! ## What is asked of the book -/

/-- The book is well formed: the bounds are apart; each level has a list that is linked both ways and ends, and in it
exactly the orders of the table of this level of which something is left; and the sides keep to their bounds. -/
structure OrderBook.WellFormed (b : OrderBook) : Prop where
  apart : b.bestBid < b.bestAsk
  linked : ∃ lists : Nat → List Nat, (∀ l, b.LinkedAt l (lists l)) ∧
    ∀ i l, i ∈ lists l ↔ i < b.ordersNum ∧ (b.orders i).size ≠ 0 ∧ (b.orders i).level = l
  table : b.ordersNum ≤ maxOrders
  bids : ∀ i < b.ordersNum, (b.orders i).size ≠ 0 → (b.orders i).sideOf = .buy → (b.orders i).level ≤ b.bestBid
  asks : ∀ i < b.ordersNum, (b.orders i).size ≠ 0 → (b.orders i).sideOf = .sell → b.bestAsk ≤ (b.orders i).level

/-- The levels that the loop over the levels comes to. -/
def levelsThrough (side : Side) (o : Nat) : Nat → OrderBook → List Nat
  | 0, _ => []
  | turns + 1, b =>
    if b.crosses o side then
      b.best side ::
        match OrderBook.sweep side (b.best side) o (maxOrders + 1) b with
        | some (_, false, swept) => levelsThrough side o turns (swept.pass side)
        | _ => []
    else []

/-- The indexes into `levels` that a call makes. -/
def OrderBook.indexes (b : OrderBook) : Call → List Nat
  | .limit limit =>
    if maxOrders ≤ b.ordersNum ∨ maxLevel < limit.level ∨ limit.level < 1 ∨ limit.size = 0 then []
    else
      let issued := { b with orders := Function.update b.orders b.ordersNum limit, ordersNum := b.ordersNum + 1 }
      limit.level :: levelsThrough limit.sideOf b.ordersNum (maxLevel + 2) issued
  | .cancel id => if b.ordersNum = 0 ∨ b.ordersNum ≤ id ∨ (b.orders id).size = 0 then [] else [(b.orders id).level]

/-- The orders that the calls of `do_limit` took, the ones that returned 0. -/
def accepted : List Call → List (Int × List Trade) → List Order
  | .limit limit :: cs, out :: outs => if out.1 = 0 then limit :: accepted cs outs else accepted cs outs
  | .cancel _ :: cs, _ :: outs => accepted cs outs
  | _, _ => []

/-- The order `i` of the table is the one given: of its trader, on its side and at its level. -/
structure OrderBook.Given (b : OrderBook) (i : Nat) (o : Order) : Prop where
  trader : (b.orders i).trader = o.trader
  side : (b.orders i).side = o.side
  level : (b.orders i).level = o.level

/-- An order that a call of the sequence cancelled. -/
def Cancelled (cs : List Call) (outs : List (Int × List Trade)) (id : Nat) : Prop :=
  ∃ k : Nat, cs[k]? = some (.cancel id) ∧ (outs[k]?).map Prod.fst = some 0

/-! ## The trader, the side and the level of an order -/

namespace OrderBook

/-- No order has another trader, another side or another level. -/
def SamePlaces (b b' : OrderBook) : Prop := ∀ i, b'.Given i (b.orders i)

/-- Work on the lists and the sizes, which leaves the bids' bound as well. -/
structure Steady (b b' : OrderBook) : Prop where
  places : b.SamePlaces b'
  bestBid : b'.bestBid = b.bestBid

section
variable {b b' c : OrderBook}

theorem Given.refl (b : OrderBook) (i : Nat) : b.Given i (b.orders i) := ⟨rfl, rfl, rfl⟩

theorem Given.trans {i : Nat} {o : Order} (h : b.Given i (b'.orders i)) (h' : b'.Given i o) : b.Given i o :=
  ⟨h.trader.trans h'.trader, h.side.trans h'.side, h.level.trans h'.level⟩

theorem SamePlaces.trans (h : b.SamePlaces b') (h' : b'.SamePlaces c) : b.SamePlaces c := fun i => (h' i).trans (h i)

theorem Steady.refl (b : OrderBook) : b.Steady b := ⟨.refl b, rfl⟩

theorem Steady.trans (h : b.Steady b') (h' : b'.Steady c) : b.Steady c :=
  ⟨h.places.trans h'.places, h'.bestBid.trans h.bestBid⟩

theorem steady_setHead (b : OrderBook) (l : Nat) (p : Option Nat) : b.Steady (b.setHead l p) :=
  ⟨fun _ => ⟨rfl, rfl, rfl⟩, rfl⟩

theorem steady_setTail (b : OrderBook) (l : Nat) (p : Option Nat) : b.Steady (b.setTail l p) :=
  ⟨fun _ => ⟨rfl, rfl, rfl⟩, rfl⟩

/-- A store to one order that leaves its trader, its side and its level. -/
theorem steady_update (b : OrderBook) (i : Nat) {o : Order} (trader : o.trader = (b.orders i).trader)
    (side : o.side = (b.orders i).side) (level : o.level = (b.orders i).level) :
    b.Steady { b with orders := Function.update b.orders i o } := by
  have there (j : Nat) : Function.update b.orders i o j = if j = i then o else b.orders j := Function.update_apply ..
  refine ⟨fun j => ?_, rfl⟩
  by_cases here : j = i
  · subst here
    have new := (there j).trans (if_pos rfl)
    exact ⟨(congrArg Order.trader new).trans trader, (congrArg Order.side new).trans side,
      (congrArg Order.level new).trans level⟩
  · have old := (there j).trans (if_neg here)
    exact ⟨congrArg Order.trader old, congrArg Order.side old, congrArg Order.level old⟩

theorem steady_setNext (b : OrderBook) (at' p : Option Nat) : b.Steady (b.setNext at' p) := by
  cases at' with
  | none => exact .refl b
  | some i => exact steady_update b i rfl rfl rfl

theorem steady_setPrev (b : OrderBook) (i : Nat) (p : Option Nat) : b.Steady (b.setPrev i p) :=
  steady_update b i rfl rfl rfl

theorem steady_setSize (b : OrderBook) (i n : Nat) : b.Steady (b.setSize i n) := steady_update b i rfl rfl rfl

theorem steady_insert (b : OrderBook) (l o : Nat) : b.Steady (b.orderInsert l o) := by
  rw [orderInsert]
  refine Steady.trans ?_ ((steady_setTail _ l _).trans (steady_setNext _ (some o) none))
  split
  · exact (steady_setNext b _ _).trans (steady_setPrev _ o _)
  · exact (steady_setHead b l _).trans (steady_setPrev _ o none)

theorem steady_remove (b : OrderBook) (l o : Nat) : b.Steady (b.orderRemove l o) := by
  have first : b.Steady (if b.prev o = none then b.setHead l (b.next o) else b.setNext (b.prev o) (b.next o)) := by
    split
    · exact steady_setHead b l _
    · exact steady_setNext b _ _
  rw [remove_eq]
  cases hn : b.next o with
  | none => exact (hn ▸ first).trans (steady_setTail _ l _)
  | some n => exact (hn ▸ first).trans (steady_setPrev _ n _)

theorem steady_turn (b : OrderBook) (side : Side) (l o h : Nat) : b.Steady (b.turn side l o h).2 := by
  rw [turn]
  split
  · exact (steady_setSize b o _).trans (steady_setSize _ h 0)
  · exact (steady_setSize b h _).trans (steady_setSize _ o 0)

theorem steady_sweep (side : Side) (l o : Nat) {turns : Nat} {r : List Trade × Bool × OrderBook}
    (run : sweep side l o turns b = some r) : b.Steady r.2.2 := by
  induction turns generalizing b r with
  | zero => cases run
  | succ turns ih =>
    rw [sweep] at run
    split at run
    · cases run
      exact .refl b
    · next h _ =>
      have turned := steady_turn b side l o h
      have removed : b.Steady (if ((b.turn side l o h).2.orders h).size = 0 then (b.turn side l o h).2.orderRemove l h
          else (b.turn side l o h).2) := by
        split
        · exact turned.trans (steady_remove _ l h)
        · exact turned
      simp only at run
      generalize (if ((b.turn side l o h).2.orders h).size = 0 then (b.turn side l o h).2.orderRemove l h
        else (b.turn side l o h).2) = s at removed run
      split at run
      · cases run
        exact removed
      · split at run
        · cases run
        · next later =>
          have rest := ih later
          cases run
          exact removed.trans rest

/-- The same table. -/
theorem same_places_of_orders (orders : b'.orders = b.orders) : b.SamePlaces b' := by
  intro i
  have here := congrFun orders i
  exact ⟨congrArg Order.trader here, congrArg Order.side here, congrArg Order.level here⟩

theorem same_places_pass (b : OrderBook) (side : Side) : b.SamePlaces (b.pass side) := same_places_of_orders (pass_orders b side)

theorem same_places_through (side : Side) (o : Nat) {turns level : Nat} {r : List Trade × Option Nat × OrderBook}
    (run : through side o turns b level = some r) : b.SamePlaces r.2.2 := by
  induction turns generalizing b level r with
  | zero => cases run
  | succ turns ih =>
    rw [through] at run
    split at run
    · split at run
      · cases run
      · next swept =>
        cases run
        exact (steady_sweep side _ o swept).places
      · next swept =>
        split at run
        · cases run
        · next later =>
          have rest := ih later
          cases run
          exact ((steady_sweep side _ o swept).places.trans (same_places_pass _ side)).trans rest
    · cases run
      exact (Steady.refl b).places

theorem same_places_match (o : Nat) {r : List Trade × OrderBook} (run : b.matchOrder o = some r) : b.SamePlaces r.2 := by
  rw [matchOrder] at run
  split at run
  · cases run
  · next met =>
    cases run
    exact same_places_through _ o met
  · next _ rest met =>
    cases run
    have bounded : rest.SamePlaces (rest.bound o (b.orders o).sideOf) := same_places_of_orders (bound_orders ..)
    exact ((same_places_through _ o met).trans bounded).trans (steady_insert _ _ o).places

/-- `do_limit` leaves the book, or puts the order in the table. -/
theorem limit_places {limit : Order} {out : Int × List Trade} (run : b.call (.limit limit) = some (out, b')) :
    b' = b ∨ OrderBook.SamePlaces { b with orders := Function.update b.orders b.ordersNum limit } b' := by
  rw [call] at run
  split at run
  · cases run
  · next done =>
    cases run
    rw [doLimit] at done
    split at done
    · cases done
      exact .inl rfl
    split at done
    · cases done
      exact .inl rfl
    split at done
    · cases done
      exact .inl rfl
    · simp only at done
      split at done
      · cases done
      · next matched =>
        have kept := same_places_match _ matched
        cases done
        exact .inr kept

/-- A call changes the trader, the side and the level of no order that the table has. -/
theorem call_places {c : Call} {out : Int × List Trade} (run : b.call c = some (out, b')) {i : Nat}
    (issued : i < b.ordersNum) : b'.Given i (b.orders i) := by
  cases c with
  | cancel id =>
    cases run
    rw [doCancel]
    split
    · exact .refl b i
    · split
      · exact .refl b i
      · exact ((steady_remove b _ id).trans (steady_setSize _ id 0)).places i
  | limit limit =>
    rcases limit_places run with rfl | kept
    · exact .refl _ i
    · have here := kept i
      simp only [Function.update_of_ne (Nat.ne_of_lt issued)] at here
      exact here

/-- The new order is the one that was given. -/
theorem limit_given {limit : Order} {out : Int × List Trade} (run : b.call (.limit limit) = some (out, b'))
    (issued : b'.ordersNum = b.ordersNum + 1) : b'.Given b.ordersNum limit := by
  rcases limit_places run with rfl | kept
  · omega
  · have here := kept b.ordersNum
    simp only [Function.update_self] at here
    exact here

/-- The loop over the levels comes to no level behind the last one. -/
theorem levels_inside (side : Side) (o : Nat) (level : (b.orders o).level ≤ maxLevel) (bid : b.bestBid < maxLevel + 2)
    (turns : Nat) : ∀ l ∈ levelsThrough side o turns b, l < maxLevel + 2 := by
  induction turns generalizing b with
  | zero => exact List.forall_mem_nil _
  | succ turns ih =>
    rw [levelsThrough]
    split
    · next crosses =>
      have here : b.best side < maxLevel + 2 := by
        cases side with
        | buy =>
          have below : b.bestAsk ≤ (b.orders o).level := of_decide_eq_true crosses
          exact Nat.lt_of_le_of_lt (Nat.le_trans below level) (by omega)
        | sell => exact bid
      refine List.forall_mem_cons.2 ⟨here, ?_⟩
      split
      · next swept run =>
        have steady := steady_sweep side _ o run
        refine ih ?_ ?_
        · rw [pass_orders, (steady.places o).level]
          exact level
        · have kept : swept.bestBid < maxLevel + 2 := steady.bestBid ▸ bid
          cases side with
          | buy => exact kept
          | sell => exact Nat.lt_of_le_of_lt (Nat.sub_le _ 1) kept
      · exact List.forall_mem_nil _
    · exact List.forall_mem_nil _

end

end OrderBook

/-! ## Who is in the queues -/

theorem consume_subset (side : Side) (trader price : Nat) (q : List Resting) (n : Nat) :
    ids (consume side trader price q n).2.1 ⊆ ids q := by
  induction q generalizing n with
  | nil => exact List.Subset.refl _
  | cons x q ih =>
    rw [consume]
    split
    · exact List.Subset.refl _
    · split
      · exact List.Subset.refl _
      · exact List.Subset.trans (ih _) (List.subset_cons_self _ _)

theorem meet_subset (side : Side) (trader : Nat) (ps : List Nat) (q : Nat → List Resting) (n l : Nat) :
    ids ((meet side trader ps q n).2.1 l) ⊆ ids (q l) := by
  induction ps generalizing q n with
  | nil => exact List.Subset.refl _
  | cons p ps ih =>
    rw [meet]
    refine List.Subset.trans (ih _ _) ?_
    by_cases here : l = p
    · subst here
      rw [Function.update_self]
      exact consume_subset side trader l (q l) n
    · rw [Function.update_of_ne here]
      exact List.Subset.refl _

/-- An order in a queue after a call was there before, or it is the new one, on its side. -/
theorem call_queues (r : Reference) (c : Call) {s : Side} {l i : Nat} (there : i ∈ ids ((r.call c).2.queues s l)) :
    i ∈ ids (r.queues s l) ∨ ∃ limit, c = .limit limit ∧ i = r.issued ∧ limit.sideOf = s ∧
      (r.call c).2.issued = r.issued + 1 := by
  cases c with
  | cancel id =>
    rw [Reference.call, Reference.cancel] at there
    split at there
    · exact .inl there
    · obtain ⟨x, hx, rfl⟩ := mem_ids.1 there
      exact .inl (mem_ids.2 ⟨x, (List.mem_filter.1 hx).1, rfl⟩)
  | limit limit =>
    rw [Reference.call, Reference.limit] at there ⊢
    split at there
    · exact .inl there
    · next accepted =>
      rw [if_neg accepted]
      simp only [Reference.rest] at there
      by_cases own : s = limit.sideOf
      · rw [if_pos own] at there
        split at there
        · exact .inl there
        · by_cases here : l = limit.level
          · subst here
            rw [Function.update_self, ids, List.map_append, List.mem_append] at there
            refine there.imp_right fun new => ?_
            exact ⟨limit, rfl, List.mem_singleton.1 new, own.symm, rfl⟩
          · rw [Function.update_of_ne here] at there
            exact .inl there
      · rw [if_neg own] at there
        have other : s = limit.sideOf.other := by
          cases s <;> cases side : limit.sideOf <;> first | rfl | exact absurd side.symm own
        rw [other]
        exact .inl (meet_subset _ _ _ _ _ _ there)

theorem call_issued (r : Reference) (c : Call) : r.issued ≤ (r.call c).2.issued := by
  cases c with
  | cancel id =>
    rw [Reference.call, Reference.cancel]
    split <;> exact Nat.le_refl _
  | limit limit =>
    rw [Reference.call, Reference.limit]
    split
    · exact Nat.le_refl _
    · exact Nat.le_succ _

/-- An issued order that rests nowhere. -/
structure Gone (r : Reference) (id : Nat) : Prop where
  issued : id < r.issued
  out : ∀ s l, id ∉ ids (r.queues s l)

/-- What is gone does not come back. -/
theorem Gone.call {r : Reference} {id : Nat} (gone : Gone r id) (c : Call) : Gone (r.call c).2 id where
  issued := Nat.lt_of_lt_of_le gone.issued (call_issued r c)
  out s l there := by
    rcases call_queues r c there with old | ⟨-, -, new, -⟩
    · exact gone.out s l old
    · exact Nat.ne_of_lt gone.issued new

/-- A cancel that is not refused. -/
theorem cancelled_gone {r : Reference} {id : Nat} (done : (r.call (.cancel id)).1.1 = 0) :
    Gone (r.call (.cancel id)).2 id := by
  rw [Reference.call, Reference.cancel] at done ⊢
  by_cases refused : r.issued ≤ id ∨ r.remaining id = 0
  · rw [if_pos refused] at done
    cases done
  · rw [if_neg refused]
    refine ⟨Nat.lt_of_not_le fun high => refused (.inl high), fun s l there => ?_⟩
    obtain ⟨x, hx, same⟩ := mem_ids.1 there
    exact of_decide_eq_true (List.mem_filter.1 hx).2 same

namespace OrderBook

section
variable {b b' : OrderBook} {r : Reference}

/-- The orders in the queues of a side are of that side. -/
def Sided (b : OrderBook) (r : Reference) : Prop := ∀ s l i, i ∈ ids (r.queues s l) → (b.orders i).sideOf = s

theorem Mirrors.mem_both {q : Side → Nat → List Resting} {s : Side} {l i : Nat} (there : i ∈ ids (q s l)) :
    i ∈ ids (both q l) := by
  rw [both, ids, List.map_append]
  cases s with
  | buy => exact List.mem_append_left _ there
  | sell => exact List.mem_append_right _ there

theorem Sided.call (sided : b.Sided r) (h : b.Refines r) {c : Call} {out : Int × List Trade}
    (run : b.call c = some (out, b')) (h' : b'.Refines (r.call c).2) : b'.Sided (r.call c).2 := by
  intro s l i there
  rcases call_queues r c there with old | ⟨limit, rfl, rfl, side, issued⟩
  · have known := (h.mirrors.holds l).issued (Mirrors.mem_both old)
    rw [Order.sideOf, (call_places run known).side]
    exact sided s l i old
  · rw [← h.issued, Order.sideOf, (limit_given run (by rw [h'.issued, issued, h.issued])).side]
    exact side

/-- The orders in the queues of a level are those of this level of which something is left. -/
theorem Refines.rests_iff (h : b.Refines r) (i l : Nat) : i ∈ ids (both r.queues l) ↔
    i < b.ordersNum ∧ (b.orders i).size ≠ 0 ∧ (b.orders i).level = l := by
  constructor
  · intro there
    obtain ⟨x, hx, rfl⟩ := mem_ids.1 there
    have kept := (h.mirrors.holds l).kept x hx
    exact ⟨kept.issued, kept.size ▸ Nat.ne_of_gt kept.pos, kept.level⟩
  · rintro ⟨-, left, rfl⟩
    by_contra out
    refine left (h.mirrors.gone i (by simp) fun l there => out ?_)
    obtain ⟨x, hx, rfl⟩ := mem_ids.1 there
    rw [((h.mirrors.holds l).kept x hx).level]
    exact there

/-- A book that refines the reference, with the sides in order, is well formed. -/
theorem Refines.well_formed (h : b.Refines r) (sided : b.Sided r) : b.WellFormed := by
  have spread := h.mirrors.spread
  -- an order in the list of a level is in the queue of its side
  have inQueue {i l : Nat} (there : i ∈ ids (both r.queues l)) : i ∈ ids (r.queues (b.orders i).sideOf l) := by
    rw [both, ids, List.map_append, List.mem_append] at there
    rcases there with buy | sell
    · rw [sided .buy l i buy]
      exact buy
    · rw [sided .sell l i sell]
      exact sell
  have rests := h.rests_iff
  refine ⟨spread, ⟨fun l => ids (both r.queues l), fun l => (h.mirrors.holds l).linked, rests⟩, ?_, ?_, ?_⟩
  · rw [h.issued]
    exact h.few
  · intro i issued left side
    have there := inQueue ((rests i _).2 ⟨issued, left, rfl⟩)
    rw [side] at there
    by_contra above
    rw [h.mirrors.bids _ (Nat.lt_of_not_le above)] at there
    cases there
  · intro i issued left side
    have there := inQueue ((rests i _).2 ⟨issued, left, rfl⟩)
    rw [side] at there
    by_contra below
    rw [h.mirrors.asks _ (Nat.lt_of_not_le below)] at there
    cases there

/-- Nothing is left of an order that is gone. -/
theorem Refines.gone_size (h : b.Refines r) {id : Nat} (gone : Gone r id) : (b.orders id).size = 0 := by
  refine h.mirrors.gone id (by simp) fun l there => ?_
  rw [both, ids, List.map_append, List.mem_append] at there
  exact there.elim (gone.out .buy l) (gone.out .sell l)

/-- The indexes of a call are inside of `levels`. -/
theorem Refines.indexes_inside (h : b.Refines r) (c : Call) : ∀ l ∈ b.indexes c, l < maxLevel + 2 := by
  have spread := h.mirrors.spread
  have top := h.mirrors.ask_le
  cases c with
  | limit limit =>
    rw [indexes]
    split
    · exact List.forall_mem_nil _
    · next accepted =>
      have inside : limit.level ≤ maxLevel := by omega
      refine List.forall_mem_cons.2 ⟨by omega, levels_inside limit.sideOf b.ordersNum ?_ ?_ _⟩
      · simp only [Function.update_self]
        exact inside
      · exact (by omega : b.bestBid < maxLevel + 2)
  | cancel id =>
    rw [indexes]
    split
    · exact List.forall_mem_nil _
    · next accepted =>
      refine List.forall_mem_singleton.2 (Nat.lt_of_not_le fun high => ?_)
      have there := (h.rests_iff id _).2 ⟨by omega, fun none => accepted (.inr (.inr none)), rfl⟩
      rw [both, h.mirrors.inside _ (by omega), h.mirrors.bids _ (by omega)] at there
      cases there

/-- A call of the reference issues an order where it is of `do_limit` and returns 0. -/
theorem call_issues (r : Reference) (c : Call) :
    (r.call c).2.issued = r.issued + (accepted [c] [(r.call c).1]).length := by
  cases c with
  | cancel id =>
    rw [Reference.call, Reference.cancel]
    split <;> rfl
  | limit limit =>
    rw [Reference.call, Reference.limit]
    split <;> rfl

/-- What the first call takes, and what the others take. -/
theorem accepted_cons (c : Call) (cs : List Call) (out : Int × List Trade) (outs : List (Int × List Trade)) :
    accepted (c :: cs) (out :: outs) = accepted [c] [out] ++ accepted cs outs := by
  cases c with
  | cancel id => rfl
  | limit limit =>
    rw [accepted, accepted]
    split <;> rfl

/-- An order of the table that a call takes is the one given to it. -/
theorem takes_given {c : Call} {out : Int × List Trade} (run : b.call c = some (out, b'))
    (issued : b'.ordersNum = b.ordersNum + (accepted [c] [out]).length) :
    ∀ k o, (accepted [c] [out])[k]? = some o → b'.Given (b.ordersNum + k) o := by
  intro k o taken
  cases c with
  | cancel id => cases taken
  | limit limit =>
    rw [accepted] at issued taken
    split at taken
    · next done =>
      rw [if_pos done] at issued
      cases k with
      | zero =>
        cases taken
        exact limit_given run issued
      | succ k => cases taken
    · cases taken

/-- **The table has the orders that were taken**, in their order, by induction on the calls. -/
theorem calls_given (h : b.Refines r) {cs : List Call} {outs : List (Int × List Trade)}
    (run : b.calls cs = some (outs, b')) : b'.ordersNum = b.ordersNum + (accepted cs outs).length ∧
      (∀ k o, (accepted cs outs)[k]? = some o → b'.Given (b.ordersNum + k) o) ∧
      ∀ i < b.ordersNum, b'.Given i (b.orders i) := by
  induction cs generalizing b r outs with
  | nil =>
    cases run
    exact ⟨rfl, fun k o none => (by cases none), fun i _ => .refl _ i⟩
  | cons c cs ih =>
    obtain ⟨next, first, h'⟩ := call_refines h c
    rw [calls, first] at run
    simp only at run
    split at run
    · cases run
    next outs' last rest =>
    cases run
    obtain ⟨table, given, old⟩ := ih h' rest
    have issued : next.ordersNum = b.ordersNum + (accepted [c] [(r.call c).1]).length := by
      rw [h'.issued, h.issued, call_issues]
    rw [accepted_cons, List.length_append]
    refine ⟨by omega, fun k o taken => ?_, fun i known => ?_⟩
    · by_cases here : k < (accepted [c] [(r.call c).1]).length
      · rw [List.getElem?_append_left here] at taken
        have before := old (b.ordersNum + k) (by omega)
        exact before.trans (takes_given first issued k o taken)
      · rw [List.getElem?_append_right (Nat.le_of_not_lt here)] at taken
        have place : next.ordersNum + (k - (accepted [c] [(r.call c).1]).length) = b.ordersNum + k := by omega
        rw [← place]
        exact given _ o taken
    · exact (old i (by omega)).trans (call_places first known)

/-- **A sequence of calls** keeps the book in step with the reference, and what it cancels is gone. -/
theorem calls_kept (h : b.Refines r) (sided : b.Sided r) (cs : List Call) :
    ∃ outs b' r', b.calls cs = some (outs, b') ∧ b'.Refines r' ∧ b'.Sided r' ∧
      ∀ id, Gone r id ∨ Cancelled cs outs id → Gone r' id := by
  induction cs generalizing b r with
  | nil =>
    refine ⟨[], b, r, rfl, h, sided, fun id => ?_⟩
    rintro (gone | ⟨k, no, -⟩)
    · exact gone
    · cases no
  | cons c cs ih =>
    obtain ⟨next, run, h'⟩ := call_refines h c
    obtain ⟨outs, b', r', runs, h'', sided', gone⟩ := ih h' (sided.call h run h')
    refine ⟨(r.call c).1 :: outs, b', r', ?_, h'', sided', fun id => ?_⟩
    · simp only [calls, run, runs]
    · rintro (before | ⟨k, called, done⟩)
      · exact gone id (.inl (before.call c))
      · cases k with
        | zero =>
          cases called
          exact gone id (.inl (cancelled_gone (Option.some.inj done)))
        | succ k => exact gone id (.inr ⟨k, called, done⟩)

end

end OrderBook

/-- **The book stays well formed.** After every sequence of calls on a new book the table has the orders that the calls of
`do_limit` took, one behind the other; the book is well formed; nothing is left of an order that was cancelled; and the
next call, whichever it is, indexes into `levels` inside of the array. -/
theorem book_well_formed (cs : List Call) :
    ∃ outs b, orderBookInit.calls cs = some (outs, b) ∧ b.WellFormed ∧
      (b.ordersNum = (accepted cs outs).length ∧ ∀ (k : Nat) (o : Order), (accepted cs outs)[k]? = some o → b.Given k o) ∧
      (∀ id, Cancelled cs outs id → (b.orders id).size = 0) ∧ ∀ c, ∀ l ∈ b.indexes c, l < maxLevel + 2 := by
  have sided : orderBookInit.Sided Reference.init := fun s l i there => by cases there
  obtain ⟨outs, b, r, run, h, sided, gone⟩ := OrderBook.calls_kept OrderBook.init_refines sided cs
  obtain ⟨table, given, -⟩ := OrderBook.calls_given OrderBook.init_refines run
  have none : orderBookInit.ordersNum = 0 := rfl
  simp only [none, Nat.zero_add] at table given
  exact ⟨outs, b, run, h.well_formed sided, ⟨table, given⟩, fun id cancelled => h.gone_size (gone id (.inr cancelled)),
    h.indexes_inside⟩

end Libtrading.Sim
