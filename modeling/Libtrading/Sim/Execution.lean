import Libtrading.Sim.Ledger
import Mathlib.Data.List.Pairwise

/-!
# How an order is executed

What a trader may expect of the market, told on the table of the engine alone:
an order trades at prices within its limit, the best ones first, and only with
orders that rest; and no resting order loses a unit while one before it, at a
better price or at the same price and older, keeps anything.

The age of an order is its index in the table. A queue is in the order of age
since a new order goes to its end, with the greatest index so far.
-/

namespace Libtrading.Sim
set_option autoImplicit false

/-- A price that is better for an incoming order. -/
def Better : Side → Nat → Nat → Prop
  | .buy, p, p' => p < p'
  | .sell, p, p' => p' < p

theorem Better.asymm {side : Side} {p p' : Nat} (h : Better side p p') : ¬Better side p' p := by
  cases side
  · exact Nat.lt_asymm h
  · exact Nat.lt_asymm h

theorem Better.ne {side : Side} {p p' : Nat} (h : Better side p p') : p ≠ p' := by
  cases side
  · exact Nat.ne_of_lt h
  · exact Nat.ne_of_gt h

theorem Better.crosses {side : Side} {p p' : Nat} (h : Better side p p') : Crosses side p p' := by
  cases side
  · exact Nat.le_of_lt h
  · exact Nat.le_of_lt h

theorem crosses_refl (side : Side) (p : Nat) : Crosses side p p := by
  cases side
  · exact Nat.le_refl p
  · exact Nat.le_refl p

/-- The prices that an order meets come best first. -/
theorem prices_better (side : Side) (level : Nat) : (prices side level).Pairwise (Better side) := by
  cases side with
  | buy => exact List.pairwise_lt_range' 1 (by decide)
  | sell => exact List.pairwise_reverse.2 (List.pairwise_lt_range' 1 (by decide))

/-- The prices that an order meets are those within its limit. -/
theorem mem_prices {side : Side} {level p : Nat} :
    p ∈ prices side level ↔ (1 ≤ p ∨ side = .sell) ∧ (p ≤ maxLevel ∨ side = .buy) ∧ Crosses side p level := by
  cases side with
  | buy =>
    simp only [prices, List.mem_range'_1, Crosses, reduceCtorEq, or_false, or_true, true_and]
    omega
  | sell =>
    simp only [prices, List.mem_reverse, List.mem_range'_1, Crosses, reduceCtorEq, or_false, or_true, true_and]
    omega

/-! ## One queue -/

/-- What an order leaves of a queue is its end: the orders before it are gone, and of its first one
a part may be. -/
theorem consume_front (side : Side) (owner price : Nat) (q : List Resting) (n : Nat) :
    ∃ front back, q = front ++ back ∧
      ((consume side owner price q n).2.1 = back ∨
        ∃ x rest m, back = x :: rest ∧ (consume side owner price q n).2.1 = { x with size := m } :: rest) := by
  induction q generalizing n with
  | nil => exact ⟨[], [], rfl, .inl rfl⟩
  | cons x q ih =>
    rw [consume]
    by_cases done : n = 0
    · rw [if_pos done]
      exact ⟨[], x :: q, rfl, .inl rfl⟩
    rw [if_neg done]
    by_cases part : n < x.size
    · rw [if_pos part]
      exact ⟨[], x :: q, rfl, .inr ⟨x, q, x.size - n, rfl, rfl⟩⟩
    · rw [if_neg part]
      obtain ⟨front, back, whole, left⟩ := ih (n - x.size)
      exact ⟨x :: front, back, congrArg (x :: ·) whole, left⟩

theorem consume_sublist (side : Side) (owner price : Nat) (q : List Resting) (n : Nat) :
    (ids (consume side owner price q n).2.1).Sublist (ids q) := by
  obtain ⟨front, back, whole, left | ⟨x, rest, m, is, left⟩⟩ := consume_front side owner price q n
  · rw [left, whole, ids, ids, List.map_append]
    exact List.sublist_append_right _ _
  · rw [left, whole, is, ids, ids, List.map_append]
    exact List.sublist_append_right _ _

/-- **Time priority in a queue.** A younger order is as it was, or the older one is gone. -/
theorem consume_fair (side : Side) (owner price : Nat) {q : List Resting} (n : Nat) (aged : (ids q).Pairwise (· < ·))
    {x y : Resting} (hx : x ∈ q) (hy : y ∈ q) (older : x.id < y.id) :
    y ∈ (consume side owner price q n).2.1 ∨ x.id ∉ ids (consume side owner price q n).2.1 := by
  obtain ⟨front, back, rfl, left⟩ := consume_front side owner price q n
  rw [ids, List.map_append, List.pairwise_append] at aged
  obtain ⟨-, agedBack, across⟩ := aged
  have youngerFront (there : y ∈ front) : x.id ∉ ids back := fun no =>
    Nat.lt_asymm older (across y.id (List.mem_map_of_mem there) x.id no)
  rcases left with left | ⟨head, rest, m, rfl, left⟩
  · rw [left]
    rcases List.mem_append.1 hy with there | there
    · exact .inr (youngerFront there)
    · exact .inl there
  · rw [left]
    have same : ids ({ head with size := m } :: rest) = ids (head :: rest) := rfl
    rw [same]
    rcases List.mem_append.1 hy with there | there
    · exact .inr (youngerFront there)
    · rcases List.mem_cons.1 there with rfl | there
      · refine .inr fun no => ?_
        -- nothing in the rest is older than its head
        rcases List.mem_cons.1 no with is | later
        · exact Nat.ne_of_lt older is
        · exact Nat.lt_asymm older ((List.pairwise_cons.1 agedBack).1 x.id later)
      · exact .inl (List.mem_cons_of_mem _ there)

/-! ## All queues -/

theorem meet_sublist (side : Side) (owner : Nat) (ps : List Nat) (q : Nat → List Resting) (n l : Nat) :
    (ids ((meet side owner ps q n).2.1 l)).Sublist (ids (q l)) := by
  induction ps generalizing q n with
  | nil => exact List.Sublist.refl _
  | cons p ps ih =>
    rw [meet]
    refine (ih _ _).trans ?_
    by_cases here : l = p
    · subst here
      rw [Function.update_self]
      exact consume_sublist side owner l (q l) n
    · rw [Function.update_of_ne here]

/-- A queue that is not met is left. -/
theorem meet_elsewhere (side : Side) (owner : Nat) {ps : List Nat} (q : Nat → List Resting) (n : Nat) {l : Nat}
    (out : l ∉ ps) : (meet side owner ps q n).2.1 l = q l := by
  induction ps generalizing q n with
  | nil => rfl
  | cons p ps ih =>
    obtain ⟨here, later⟩ := List.ne_and_not_mem_of_not_mem_cons out
    rw [meet]
    exact (ih _ _ later).trans (Function.update_of_ne here _ _)

/-- A queue that is met is met once. -/
theorem meet_at (side : Side) (owner : Nat) {ps : List Nat} (nodup : ps.Nodup) (q : Nat → List Resting) (n : Nat)
    {p : Nat} (there : p ∈ ps) :
    ∃ m, (meet side owner ps q n).2.1 p = (consume side owner p (q p) m).2.1 := by
  induction ps generalizing q n with
  | nil => cases there
  | cons p' ps ih =>
    obtain ⟨out, nodup⟩ := List.nodup_cons.1 nodup
    rw [meet]
    rcases List.mem_cons.1 there with rfl | later
    · exact ⟨n, (meet_elsewhere side owner _ _ out).trans (Function.update_self _ _ _)⟩
    · obtain ⟨m, left⟩ := ih nodup (Function.update q p' (consume side owner p' (q p') n).2.1)
        (consume side owner p' (q p') n).2.2 later
      have apart : p ≠ p' := fun is => out (is ▸ later)
      rw [Function.update_of_ne apart] at left
      exact ⟨m, left⟩

/-- **Price priority.** An order at a worse price is as it was, or the queue at the better price is empty. -/
theorem meet_fair (side : Side) (owner : Nat) {ps : List Nat} (sorted : ps.Pairwise (Better side))
    (q : Nat → List Resting) (n : Nat) {p p' : Nat} (hp : p ∈ ps) (hp' : p' ∈ ps) (better : Better side p p') :
    (meet side owner ps q n).2.1 p' = q p' ∨ (meet side owner ps q n).2.1 p = [] := by
  induction ps generalizing q n with
  | nil => cases hp
  | cons first ps ih =>
    obtain ⟨before, sorted⟩ := List.pairwise_cons.1 sorted
    have later' : p' ∈ ps := by
      rcases List.mem_cons.1 hp' with rfl | later'
      · rcases List.mem_cons.1 hp with rfl | later
        · exact absurd rfl better.ne
        · exact absurd better (before p later).asymm
      · exact later'
    have apart' : p' ≠ first := fun is => (before p' later').ne is.symm
    rw [meet]
    rcases List.mem_cons.1 hp with rfl | later
    · have out : p ∉ ps := fun again => (before p again).ne rfl
      by_cases done : (consume side owner p (q p) n).2.2 = 0
      · left
        simp only [done, meet_zero]
        exact Function.update_of_ne apart' _ _
      · right
        exact (meet_elsewhere side owner _ _ out).trans ((Function.update_self _ _ _).trans (consume_left _ done))
    · have rest := ih sorted (Function.update q first (consume side owner first (q first) n).2.1)
        (consume side owner first (q first) n).2.2 later later'
      rw [Function.update_of_ne apart'] at rest
      exact rest

/-! ## The trades -/

/-- A trade of the orders of `owner` with one of a queue. -/
structure Struck (side : Side) (owner : Nat) (q : Nat → List Resting) (t : Trade) : Prop where
  own : t.party side = owner
  pos : 0 < t.size
  with' : ∃ x ∈ q t.price, x.trader = t.party side.other ∧ t.size ≤ x.size

theorem struck_with {side : Side} {owner price n : Nat} {q : Nat → List Resting} {x : Resting} (there : x ∈ q price)
    (pos : 0 < n) (le : n ≤ x.size) : Struck side owner q (tradeWith side owner price x n) where
  own := party_own side owner price x n
  pos := by
    rw [size_tradeWith]
    exact pos
  with' := by
    rw [price_tradeWith, party_other, size_tradeWith]
    exact ⟨x, there, rfl, le⟩

theorem consume_struck (side : Side) (owner price : Nat) {q : Nat → List Resting} {q' : List Resting}
    (sub : ∀ x ∈ q', x ∈ q price) (pos : ∀ x ∈ q', 0 < x.size) (n : Nat) :
    ∀ t ∈ (consume side owner price q' n).1, Struck side owner q t := by
  induction q' generalizing n with
  | nil => exact List.forall_mem_nil _
  | cons x q' ih =>
    obtain ⟨first, rest⟩ := List.forall_mem_cons.1 sub
    obtain ⟨posFirst, posRest⟩ := List.forall_mem_cons.1 pos
    rw [consume]
    by_cases done : n = 0
    · rw [if_pos done]
      exact List.forall_mem_nil _
    rw [if_neg done]
    by_cases part : n < x.size
    · rw [if_pos part]
      exact List.forall_mem_singleton.2 (struck_with first (Nat.pos_of_ne_zero done) (Nat.le_of_lt part))
    · rw [if_neg part]
      exact List.forall_mem_cons.2 ⟨struck_with first posFirst (Nat.le_refl _), ih rest posRest _⟩

/-- **The trades of an order** are with orders of the queues at its prices. -/
theorem meet_struck (side : Side) (owner : Nat) {ps : List Nat} (nodup : ps.Nodup) {q q' : Nat → List Resting}
    (same : ∀ p ∈ ps, q' p = q p) (pos : ∀ p, ∀ x ∈ q p, 0 < x.size) (n : Nat) :
    ∀ t ∈ (meet side owner ps q' n).1, Struck side owner q t := by
  induction ps generalizing q' n with
  | nil => exact List.forall_mem_nil _
  | cons p ps ih =>
    obtain ⟨out, nodup⟩ := List.nodup_cons.1 nodup
    obtain ⟨first, rest⟩ := List.forall_mem_cons.1 same
    intro t there
    rw [meet] at there
    rcases List.mem_append.1 there with here | later
    · have sub : ∀ x ∈ q' p, x ∈ q p := fun x is => first ▸ is
      exact consume_struck side owner p sub (fun x is => pos p x (sub x is)) n t here
    · have same' : ∀ p' ∈ ps, Function.update q' p (consume side owner p (q' p) n).2.1 p' = q p' := fun p' is => by
        have apart : p' ≠ p := fun again => out (again ▸ is)
        rw [Function.update_of_ne apart]
        exact rest p' is
      exact ih nodup same' _ t later

theorem consume_price (side : Side) (owner price : Nat) (q : List Resting) (n : Nat) :
    ∀ t ∈ (consume side owner price q n).1, t.price = price := by
  induction q generalizing n with
  | nil => exact List.forall_mem_nil _
  | cons x q ih =>
    rw [consume]
    split
    · exact List.forall_mem_nil _
    · split
      · exact List.forall_mem_singleton.2 (price_tradeWith _ _ _ _ _)
      · exact List.forall_mem_cons.2 ⟨price_tradeWith _ _ _ _ _, ih _⟩

theorem meet_price (side : Side) (owner : Nat) (ps : List Nat) (q : Nat → List Resting) (n : Nat) :
    ∀ t ∈ (meet side owner ps q n).1, t.price ∈ ps := by
  induction ps generalizing q n with
  | nil => exact List.forall_mem_nil _
  | cons p ps ih =>
    intro t there
    rw [meet] at there
    rcases List.mem_append.1 there with here | later
    · exact consume_price side owner p (q p) n t here ▸ List.mem_cons_self
    · exact List.mem_cons_of_mem _ (ih _ _ t later)

/-- The trades come best price first. -/
theorem meet_best_first (side : Side) (owner : Nat) {ps : List Nat} (sorted : ps.Pairwise (Better side))
    (q : Nat → List Resting) (n : Nat) :
    (meet side owner ps q n).1.Pairwise fun t u => Crosses side t.price u.price := by
  induction ps generalizing q n with
  | nil => exact .nil
  | cons p ps ih =>
    obtain ⟨before, sorted⟩ := List.pairwise_cons.1 sorted
    rw [meet]
    refine List.pairwise_append.2 ⟨?_, ih sorted _ _, fun t here u later => ?_⟩
    · refine List.Pairwise.imp_of_mem (R := fun _ _ => True) (fun {t u} ht hu _ => ?_) (List.pairwise_of_forall fun _ _ => trivial)
      rw [consume_price side owner p (q p) n t ht, consume_price side owner p (q p) n u hu]
      exact crosses_refl side p
    · rw [consume_price side owner p (q p) n t here]
      exact (before u.price (meet_price side owner ps _ _ u later)).crosses

theorem dealt_own {s : Side} {owner : Nat} {trades : List Trade} (own : ∀ t ∈ trades, t.party s = owner) :
    dealt s owner trades = (trades.map (·.size)).sum := by
  rw [dealt, List.filter_eq_self.2 fun t there => decide_eq_true (own t there)]

/-! ## The age of the orders -/

/-- Every queue is in the order of age. -/
def Reference.Aged (r : Reference) : Prop := ∀ s l, (ids (r.queues s l)).Pairwise (· < ·)

/-- A call keeps the queues in order. -/
theorem Reference.Aged.call {r : Reference} (aged : r.Aged) (known : ∀ s l, ∀ i ∈ ids (r.queues s l), i < r.issued)
    (c : Call) : (r.call c).2.Aged := by
  intro s l
  cases c with
  | cancel id =>
    rw [Reference.call, Reference.cancel]
    split
    · exact aged s l
    · exact (aged s l).sublist (List.filter_sublist.map _)
  | limit limit =>
    rw [Reference.call, Reference.limit]
    split
    · exact aged s l
    · simp only [Reference.rest]
      split
      · split
        · exact aged s l
        · by_cases here : l = limit.level
          · subst here
            rw [Function.update_self, ids, List.map_append, List.pairwise_append]
            refine ⟨aged s _, List.pairwise_singleton _ _, fun i there j is => ?_⟩
            rw [List.mem_singleton.1 is]
            exact known s _ i there
          · rw [Function.update_of_ne here]
            exact aged s l
      · exact (aged limit.sideOf.other l).sublist (meet_sublist _ _ _ _ _ l)

namespace OrderBook

variable {b b' : OrderBook} {r : Reference}

theorem Refines.known (h : b.Refines r) (s : Side) (l : Nat) : ∀ i ∈ ids (r.queues s l), i < r.issued := by
  intro i there
  rw [← h.issued]
  exact (h.mirrors.holds l).issued (Mirrors.mem_both there)

/-- A new book comes to states in which it refines a reference with its queues in order. -/
theorem run_refines (cs : List Call) {outs : List (Int × List Trade)} (run : orderBookInit.calls cs = some (outs, b)) :
    ∃ r, b.Refines r ∧ b.Sided r ∧ r.Aged := by
  suffices step : ∀ (c : OrderBook) (r : Reference), c.Refines r → c.Sided r → r.Aged → ∀ outs, c.calls cs = some (outs, b) →
      ∃ r, b.Refines r ∧ b.Sided r ∧ r.Aged from
    step orderBookInit Reference.init init_refines (fun s l i there => by cases there) (fun s l => .nil) outs run
  clear run
  induction cs with
  | nil =>
    intro c r h sided aged outs run
    cases run
    exact ⟨r, h, sided, aged⟩
  | cons call cs ih =>
    intro c r h sided aged outs run
    obtain ⟨next, first, h'⟩ := call_refines h call
    rw [calls, first] at run
    simp only at run
    split at run
    · cases run
    · next outs' last rest =>
      cases run
      exact ih next (r.call call).2 h' (sided.call h first h') (aged.call h.known call) outs' rest

/-! ## An order that is accepted -/

/-- The reference after an order with `left` of it left, and `others` of the other side. -/
def placedIn (r : Reference) (limit : Order) (others : Nat → List Resting) (left : Nat) : Reference :=
  ⟨r.rest limit.sideOf limit.level ⟨r.issued, limit.trader, left⟩ others, r.issued + 1⟩

/-- An order that is accepted met the queues of the other side. -/
structure Placed (b : OrderBook) (r : Reference) (limit : Order) (trades : List Trade) (b' : OrderBook)
    (others : Nat → List Resting) (left : Nat) : Prop where
  met : meet limit.sideOf limit.trader (prices limit.sideOf limit.level) (r.queues limit.sideOf.other) limit.size =
    (trades, others, left)
  low : 1 ≤ limit.level
  high : limit.level ≤ maxLevel
  refines : b'.Refines (placedIn r limit others left)
  sided : b'.Sided (placedIn r limit others left)
  places : ∀ i, i < b.ordersNum → (b'.orders i).side = (b.orders i).side ∧ (b'.orders i).level = (b.orders i).level

theorem Refines.placed (h : b.Refines r) (sided : b.Sided r) {limit : Order} {trades : List Trade}
    (run : b.doLimit limit = some (0, trades, b')) : ∃ others left, b.Placed r limit trades b' others left := by
  obtain ⟨last, done, h'⟩ := limit_refines h limit
  rw [run] at done
  have called : b.call (.limit limit) = some ((0, trades), b') := by rw [call, run]
  have same : b' = last := by injection done with done; injection done with _ done; injection done
  subst same
  have sided' := sided.call h called h'
  rw [Reference.call] at sided'
  have ret : (r.limit limit.sideOf limit.trader limit.level limit.size).1.1 = 0 := by
    injection done with done; injection done with done; exact done.symm
  have reported : (r.limit limit.sideOf limit.trader limit.level limit.size).1.2 = trades := by
    injection done with done; injection done with _ done; injection done with done; exact done.symm
  rw [Reference.limit] at h' sided' ret reported
  by_cases refused : maxOrders ≤ r.issued ∨ maxLevel < limit.level ∨ limit.level < 1 ∨ limit.size = 0
  · rw [if_pos refused] at ret
    cases ret
  rw [if_neg refused] at h' sided' reported
  rcases met : meet limit.sideOf limit.trader (prices limit.sideOf limit.level) (r.queues limit.sideOf.other) limit.size with
    ⟨trades', others, left⟩
  simp only [met] at h' sided' reported
  subst reported
  exact ⟨others, left, met, by omega, by omega, h', sided', fun i issued =>
    ⟨(call_places called issued).side, (call_places called issued).level⟩⟩

section
variable {limit : Order} {trades : List Trade} {others : Nat → List Resting} {left : Nat}

theorem placed_queues_other (r : Reference) (limit : Order) (others : Nat → List Resting) (left : Nat) :
    (placedIn r limit others left).queues limit.sideOf.other = others := by
  have apart : limit.sideOf.other ≠ limit.sideOf := by cases limit.sideOf <;> exact fun no => by cases no
  rw [placedIn]
  simp only [Reference.rest, if_neg apart]

/-- What is left of the new order is in the table. -/
theorem Placed.left_eq (p : b.Placed r limit trades b' others left) (h : b.Refines r) :
    (b'.orders b.ordersNum).size = left := by
  rw [h.issued]
  by_cases done : left = 0
  · subst done
    refine p.refines.mirrors.gone r.issued (fun no => by cases no) fun l there => ?_
    have queued : r.issued ∈ ids (both r.queues l) := by
      rw [both, ids, List.map_append, List.mem_append] at there ⊢
      have own (s : Side) (is : r.issued ∈ ids ((placedIn r limit others 0).queues s l)) : r.issued ∈ ids (r.queues s l) := by
        by_cases same : s = limit.sideOf
        · simp only [placedIn, Reference.rest, if_pos same, if_true] at is
          exact is
        · have other : s = limit.sideOf.other := by
            cases s <;> cases side : limit.sideOf <;> first | rfl | exact absurd side.symm same
          rw [other, placed_queues_other] at is
          have sub := meet_subset limit.sideOf limit.trader (prices limit.sideOf limit.level)
            (r.queues limit.sideOf.other) limit.size l
          rw [p.met] at sub
          exact other ▸ sub is
      exact there.imp (own .buy) (own .sell)
    have known := (h.mirrors.holds l).issued queued
    rw [h.issued] at known
    exact Nat.lt_irrefl _ known
  · have rests : (⟨r.issued, limit.trader, left⟩ : Resting) ∈ both (placedIn r limit others left).queues limit.level := by
      have own : (⟨r.issued, limit.trader, left⟩ : Resting) ∈ (placedIn r limit others left).queues limit.sideOf limit.level := by
        simp only [placedIn, Reference.rest, if_true, if_neg done, Function.update_self]
        exact List.mem_append_right _ List.mem_cons_self
      rw [both, List.mem_append]
      cases side : limit.sideOf with
      | buy => exact .inl (side ▸ own)
      | sell => exact .inr (side ▸ own)
    exact ((p.refines.mirrors.holds limit.level).kept _ rests).size

/-- An order in a queue, in the table. -/
theorem Refines.in_table (h : b.Refines r) (sided : b.Sided r) {s : Side} {l : Nat} {x : Resting} (there : x ∈ r.queues s l) :
    x.id < b.ordersNum ∧ (b.orders x.id).sideOf = s ∧ (b.orders x.id).trader = x.trader ∧
      (b.orders x.id).level = l ∧ (b.orders x.id).size = x.size ∧ 0 < x.size := by
  have kept : b.Kept l x := by
    refine (h.mirrors.holds l).kept x ?_
    rw [both, List.mem_append]
    cases s with
    | buy => exact .inl there
    | sell => exact .inr there
  exact ⟨kept.issued, sided s l x.id (List.mem_map_of_mem there), kept.trader, kept.level, kept.size, kept.pos⟩

/-- Once a part of the new order rests, no order of the other side is within its limit. -/
theorem Placed.uncrossed (p : b.Placed r limit trades b' others left) (some : left ≠ 0) {i : Nat}
    (other : (b'.orders i).sideOf = limit.sideOf.other) (known : i < b'.ordersNum) (live : (b'.orders i).size ≠ 0) :
    ¬Crosses limit.sideOf (b'.orders i).level limit.level := by
  have mine : (⟨r.issued, limit.trader, left⟩ : Resting) ∈ (placedIn r limit others left).queues limit.sideOf limit.level := by
    simp only [placedIn, Reference.rest, if_true, if_neg some, Function.update_self]
    exact List.mem_append_right _ List.mem_cons_self
  have theirs := (p.refines.queue_iff p.sided limit.sideOf.other _ i).2 ⟨⟨known, live, rfl⟩, other⟩
  have mirrors := p.refines.mirrors
  have spread := mirrors.spread
  intro crosses
  cases side : limit.sideOf with
  | buy =>
    rw [side] at mine theirs crosses
    have bid : limit.level ≤ b'.bestBid := Nat.le_of_not_lt fun above => by
      rw [mirrors.bids _ above] at mine
      cases mine
    have ask : b'.bestAsk ≤ (b'.orders i).level := Nat.le_of_not_lt fun below => by
      rw [show Side.other .buy = .sell from rfl, mirrors.asks _ below] at theirs
      cases theirs
    have crosses : (b'.orders i).level ≤ limit.level := crosses
    omega
  | sell =>
    rw [side] at mine theirs crosses
    have ask : b'.bestAsk ≤ limit.level := Nat.le_of_not_lt fun below => by
      rw [mirrors.asks _ below] at mine
      cases mine
    have bid : (b'.orders i).level ≤ b'.bestBid := Nat.le_of_not_lt fun above => by
      rw [show Side.other .sell = .buy from rfl, mirrors.bids _ above] at theirs
      cases theirs
    have crosses : limit.level ≤ (b'.orders i).level := crosses
    omega

/-- **Priority.** An order of the other side that has less than before has none before it that keeps anything. -/
theorem Placed.fair (p : b.Placed r limit trades b' others left) (h : b.Refines r) (sided : b.Sided r) (aged : r.Aged)
    {i j : Nat} (hi : i < b.ordersNum) (sideI : (b.orders i).sideOf = limit.sideOf.other)
    (hj : j < b.ordersNum) (sideJ : (b.orders j).sideOf = limit.sideOf.other)
    (first : Better limit.sideOf (b.orders j).level (b.orders i).level ∨ (b.orders j).level = (b.orders i).level ∧ j < i)
    (less : (b'.orders i).size < (b.orders i).size) : (b'.orders j).size = 0 := by
  by_contra keeps
  have before := h.queue_iff sided limit.sideOf.other
  have queueI := (before _ i).2 ⟨⟨hi, by omega, rfl⟩, sideI⟩
  obtain ⟨y, hy, is⟩ := mem_ids.1 queueI
  -- the order at `i` is not in its queue as it was
  have changed : y ∉ others (b.orders i).level := fun same => by
    have there := p.refines.in_table p.sided (s := limit.sideOf.other) (by rw [placed_queues_other]; exact same)
    have here := h.in_table sided hy
    rw [is] at there here
    omega
  have met := p.met
  -- the order at `j` is still in its queue
  have issued : b.ordersNum < b'.ordersNum := by
    rw [p.refines.issued, h.issued]
    exact Nat.lt_succ_self _
  have queueJ : j ∈ ids (others (b.orders j).level) := by
    have side : (b'.orders j).sideOf = limit.sideOf.other := by
      rw [Order.sideOf, (p.places j hj).1]
      exact sideJ
    have there := (p.refines.queue_iff p.sided limit.sideOf.other _ j).2
      ⟨⟨Nat.lt_trans hj issued, keeps, (p.places j hj).2⟩, side⟩
    rw [placed_queues_other] at there
    exact there
  have wasJ : j ∈ ids (r.queues limit.sideOf.other (b.orders j).level) := by
    have sub := meet_sublist limit.sideOf limit.trader (prices limit.sideOf limit.level) (r.queues limit.sideOf.other)
      limit.size (b.orders j).level
    rw [met] at sub
    exact sub.subset queueJ
  have metI : (b.orders i).level ∈ prices limit.sideOf limit.level := by
    by_contra out
    have same := meet_elsewhere limit.sideOf limit.trader (r.queues limit.sideOf.other) limit.size out
    rw [met] at same
    have same : others (b.orders i).level = r.queues limit.sideOf.other (b.orders i).level := same
    exact changed (same ▸ hy)
  rcases first with better | ⟨level, older⟩
  · have metJ : (b.orders j).level ∈ prices limit.sideOf limit.level := by
      obtain ⟨-, -, crosses⟩ := mem_prices.1 metI
      have spread := h.mirrors.spread
      have top := h.mirrors.ask_le
      rw [mem_prices]
      cases side : limit.sideOf with
      | buy =>
        rw [side] at wasJ better crosses
        have ask : b.bestAsk ≤ (b.orders j).level := Nat.le_of_not_lt fun below => by
          rw [show Side.other .buy = .sell from rfl, h.mirrors.asks _ below] at wasJ
          cases wasJ
        exact ⟨.inl (by omega), .inr rfl, Nat.le_trans (Nat.le_of_lt better) crosses⟩
      | sell =>
        rw [side] at wasJ better crosses
        have bid : (b.orders j).level ≤ b.bestBid := Nat.le_of_not_lt fun above => by
          rw [show Side.other .sell = .buy from rfl, h.mirrors.bids _ above] at wasJ
          cases wasJ
        exact ⟨.inr rfl, .inl (by omega), Nat.le_trans crosses (Nat.le_of_lt better)⟩
    have fair := meet_fair limit.sideOf limit.trader (prices_better limit.sideOf limit.level)
      (r.queues limit.sideOf.other) limit.size metJ metI better
    rw [met] at fair
    rcases fair with same | empty
    · have same : others (b.orders i).level = r.queues limit.sideOf.other (b.orders i).level := same
      exact changed (same ▸ hy)
    · rw [show others (b.orders j).level = [] from empty] at queueJ
      cases queueJ
  · obtain ⟨x, hx, named⟩ := mem_ids.1 wasJ
    rw [level] at hx queueJ
    have nodup : (prices limit.sideOf limit.level).Nodup := (prices_better _ _).imp fun better => better.ne
    obtain ⟨m, left⟩ := meet_at limit.sideOf limit.trader nodup (r.queues limit.sideOf.other) limit.size metI
    rw [met] at left
    have fair := consume_fair limit.sideOf limit.trader (b.orders i).level m (aged _ _) hx hy
      (by rw [named, is]; exact older)
    rw [← left, named] at fair
    rcases fair with same | gone
    · exact changed same
    · exact gone queueJ

end

/-- **What a trader may expect** of an order that is accepted. -/
structure Executes (b : OrderBook) (limit : Order) (trades : List Trade) (b' : OrderBook) : Prop where
  /-- The order is on its side of every trade, at a price within its limit. -/
  own : ∀ t ∈ trades, t.party limit.sideOf = limit.trader ∧ Crosses limit.sideOf t.price limit.level
  /-- A trade is with an order that rests at its price, and takes no more than that has. -/
  resting : ∀ t ∈ trades, 0 < t.size ∧ ∃ i, i < b.ordersNum ∧ (b.orders i).sideOf = limit.sideOf.other ∧
    (b.orders i).trader = t.party limit.sideOf.other ∧ (b.orders i).level = t.price ∧ t.size ≤ (b.orders i).size
  bestFirst : trades.Pairwise fun t u => Crosses limit.sideOf t.price u.price
  /-- What it does not trade rests. -/
  total : (trades.map (·.size)).sum + (b'.orders b.ordersNum).size = limit.size
  /-- It rests only if no order of the other side is within its limit any more. -/
  uncrossed : (b'.orders b.ordersNum).size ≠ 0 → ∀ i, i < b'.ordersNum → (b'.orders i).sideOf = limit.sideOf.other →
    (b'.orders i).size ≠ 0 → ¬Crosses limit.sideOf (b'.orders i).level limit.level

theorem Placed.executes {limit : Order} {trades : List Trade} {others : Nat → List Resting} {left : Nat}
    (p : b.Placed r limit trades b' others left) (h : b.Refines r) (sided : b.Sided r) : b.Executes limit trades b' := by
  have nodup : (prices limit.sideOf limit.level).Nodup := (prices_better _ _).imp fun better => better.ne
  have pos : ∀ l, ∀ x ∈ r.queues limit.sideOf.other l, 0 < x.size := fun l x there =>
    (h.in_table sided there).2.2.2.2.2
  have struck := meet_struck limit.sideOf limit.trader nodup (fun l _ => rfl) pos limit.size
  have price := meet_price limit.sideOf limit.trader (prices limit.sideOf limit.level) (r.queues limit.sideOf.other) limit.size
  have sorted := meet_best_first limit.sideOf limit.trader (prices_better limit.sideOf limit.level)
    (r.queues limit.sideOf.other) limit.size
  have account := meet_dealt limit.sideOf limit.trader limit.trader (prices limit.sideOf limit.level)
    (r.queues limit.sideOf.other) limit.size
  rw [p.met] at struck price sorted account
  refine ⟨fun t there => ⟨(struck t there).own, (mem_prices.1 (price t there)).2.2⟩, fun t there => ?_, sorted, ?_, ?_⟩
  · obtain ⟨x, hx, party, le⟩ := (struck t there).with'
    obtain ⟨known, side, trader, level, size, -⟩ := h.in_table sided hx
    exact ⟨(struck t there).pos, x.id, known, side, trader.trans party, level, size ▸ le⟩
  · rw [dealt_own fun t there => (struck t there).own] at account
    simp only [share, if_true] at account
    rw [p.left_eq h, account]
  · intro some i known other live
    rw [p.left_eq h] at some
    exact p.uncrossed some other known live

end OrderBook

section
variable {cs : List Call} {outs : List (Int × List Trade)} {b b' : OrderBook} {limit : Order} {trades : List Trade}

/-- **Best execution.** In every state of the engine, an order that is accepted trades within its limit, best price first,
with orders that rest, and rests with all that it did not trade once nothing within its limit is left. -/
theorem orders_execute (run : orderBookInit.calls cs = some (outs, b)) (placed : b.doLimit limit = some (0, trades, b')) :
    b.Executes limit trades b' := by
  obtain ⟨r, h, sided, -⟩ := OrderBook.run_refines cs run
  obtain ⟨others, left, p⟩ := h.placed sided placed
  exact p.executes h sided

/-- Two asks. -/
def twoAsks : List Call := [.limit ⟨1, 10, none, none, 1, 5⟩, .limit ⟨2, 12, none, none, 1, 5⟩]

/-- A bid that takes all of the first and a part of the second. -/
theorem two_asks_taken :
    ∃ outs b trades b', orderBookInit.calls twoAsks = some (outs, b) ∧
      b.doLimit ⟨3, 12, none, none, 0, 7⟩ = some (0, trades, b') ∧ trades = [⟨3, 1, 10, 5⟩, ⟨3, 2, 12, 2⟩] ∧
      b.Executes ⟨3, 12, none, none, 0, 7⟩ trades b' :=
  ⟨_, _, _, _, rfl, rfl, rfl, @orders_execute twoAsks _ _ _ _ _ rfl rfl⟩

/-- **No order is passed over.** In every state of the engine, if an incoming order takes anything from the order at `i`,
then nothing is left of any order at `j` of that side with a better price, or with the same price and an earlier place. -/
theorem no_trade_through (run : orderBookInit.calls cs = some (outs, b)) (placed : b.doLimit limit = some (0, trades, b'))
    {i j : Nat} (hi : i < b.ordersNum) (sideI : (b.orders i).sideOf = limit.sideOf.other)
    (hj : j < b.ordersNum) (sideJ : (b.orders j).sideOf = limit.sideOf.other)
    (first : Better limit.sideOf (b.orders j).level (b.orders i).level ∨ (b.orders j).level = (b.orders i).level ∧ j < i)
    (less : (b'.orders i).size < (b.orders i).size) : (b'.orders j).size = 0 := by
  obtain ⟨r, h, sided, aged⟩ := OrderBook.run_refines cs run
  obtain ⟨others, left, p⟩ := h.placed sided placed
  exact p.fair h sided aged hi sideI hj sideJ first less

end

/-- The bid takes two of the second ask, and nothing is left of the first. -/
theorem first_ask_first :
    ∃ outs b trades b', orderBookInit.calls twoAsks = some (outs, b) ∧
      b.doLimit ⟨3, 12, none, none, 0, 7⟩ = some (0, trades, b') ∧ (b'.orders 1).size = 3 ∧ (b'.orders 0).size = 0 :=
  ⟨_, _, _, _, rfl, rfl, rfl, @no_trade_through twoAsks _ _ _ ⟨3, 12, none, none, 0, 7⟩ _ rfl rfl 1 0 (by decide) rfl (by decide) rfl
    (.inl (by decide : 10 < 12)) (by decide : 3 < 5)⟩

end Libtrading.Sim
