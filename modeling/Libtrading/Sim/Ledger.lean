import Libtrading.Sim.WellFormed
import Mathlib.Algebra.BigOperators.Group.Finset.Sigma

/-!
# The books of the market

Every unit that a trader brings to the market is somewhere: it was dealt in a
trade, it rests in the book, or it was withdrawn by a cancel. The account is
kept for one trader and one side. The queues of the reference carry the trades,
since a sweep is a recursion over them; the table of the engine carries the
cancels, which clear one of its entries. `Refines.resting_eq` is the way from
one to the other.
-/

namespace Libtrading.Sim
set_option autoImplicit false

/-- The trader on a side of a trade. -/
def Trade.party (t : Trade) : Side → Nat
  | .buy => t.buyer
  | .sell => t.seller

/-- What a trader dealt on a side. -/
def dealt (s : Side) (trader : Nat) (trades : List Trade) : Nat :=
  ((trades.filter fun t => t.party s = trader).map (·.size)).sum

/-- What a queue holds of a trader. -/
def queued (trader : Nat) (q : List Resting) : Nat := ((q.filter fun x => x.trader = trader).map (·.size)).sum

/-- The quantity `n` of one trader in the account of another. -/
def share (trader owner n : Nat) : Nat := if owner = trader then n else 0

@[simp] theorem dealt_nil (s : Side) (trader : Nat) : dealt s trader [] = 0 := rfl

theorem dealt_cons (s : Side) (trader : Nat) (t : Trade) (ts : List Trade) :
    dealt s trader (t :: ts) = share trader (t.party s) t.size + dealt s trader ts := by
  rw [dealt, share, List.filter_cons]
  split <;> simp_all [dealt]

theorem dealt_append (s : Side) (trader : Nat) (ts ts' : List Trade) :
    dealt s trader (ts ++ ts') = dealt s trader ts + dealt s trader ts' := by
  rw [dealt, List.filter_append, List.map_append, List.sum_append]
  rfl

theorem queued_cons (trader : Nat) (x : Resting) (q : List Resting) :
    queued trader (x :: q) = share trader x.trader x.size + queued trader q := by
  rw [queued, share, List.filter_cons]
  split <;> simp_all [queued]

theorem queued_concat (trader : Nat) (x : Resting) (q : List Resting) :
    queued trader (q ++ [x]) = queued trader q + share trader x.trader x.size := by
  rw [queued, List.filter_append, List.map_append, List.sum_append]
  exact congrArg (queued trader q + ·) (by rw [← queued, queued_cons]; rfl)

theorem share_add (trader owner n m : Nat) : share trader owner (n + m) = share trader owner n + share trader owner m := by
  rw [share, share, share]
  split <;> rfl

@[simp] theorem share_zero (trader owner : Nat) : share trader owner 0 = 0 := ite_self 0

/-- The incoming order is on its own side of its trades, the resting one on the other. -/
theorem party_own (side : Side) (trader price : Nat) (x : Resting) (n : Nat) :
    (tradeWith side trader price x n).party side = trader := by
  cases side <;> rfl

theorem party_other (side : Side) (trader price : Nat) (x : Resting) (n : Nat) :
    (tradeWith side trader price x n).party side.other = x.trader := by
  cases side <;> rfl

theorem size_tradeWith (side : Side) (trader price : Nat) (x : Resting) (n : Nat) :
    (tradeWith side trader price x n).size = n := by
  cases side <;> rfl

theorem price_tradeWith (side : Side) (trader price : Nat) (x : Resting) (n : Nat) :
    (tradeWith side trader price x n).price = price := by
  cases side <;> rfl

/-! ## One order -/

/-- What an order takes from a queue is dealt. -/
theorem consume_queued (side : Side) (owner price trader : Nat) (q : List Resting) (n : Nat) :
    queued trader (consume side owner price q n).2.1 + dealt side.other trader (consume side owner price q n).1 =
      queued trader q := by
  induction q generalizing n with
  | nil => rfl
  | cons x q ih =>
    rw [consume]
    by_cases done : n = 0
    · rw [if_pos done]
      rfl
    rw [if_neg done]
    by_cases part : n < x.size
    · rw [if_pos part]
      have whole : x.size = x.size - n + n := (Nat.sub_add_cancel (Nat.le_of_lt part)).symm
      simp only [queued_cons, dealt_cons, party_other, size_tradeWith, dealt_nil]
      conv_rhs => rw [whole, share_add]
      omega
    · rw [if_neg part]
      have rest := ih (n - x.size)
      rcases run : consume side owner price q (n - x.size) with ⟨trades, q', left⟩
      rw [run] at rest
      simp only [queued_cons, dealt_cons, party_other, size_tradeWith] at rest ⊢
      omega

/-- What is left of the order is what it did not deal. -/
theorem consume_dealt (side : Side) (owner price trader : Nat) (q : List Resting) (n : Nat) :
    dealt side trader (consume side owner price q n).1 + share trader owner (consume side owner price q n).2.2 =
      share trader owner n := by
  induction q generalizing n with
  | nil => exact Nat.zero_add _
  | cons x q ih =>
    rw [consume]
    by_cases done : n = 0
    · rw [if_pos done, done]
      exact Nat.zero_add _
    rw [if_neg done]
    by_cases part : n < x.size
    · rw [if_pos part]
      simp only [dealt_cons, party_own, size_tradeWith, dealt_nil, share_zero, Nat.add_zero]
    · rw [if_neg part]
      have rest := ih (n - x.size)
      have whole : share trader owner n = share trader owner x.size + share trader owner (n - x.size) := by
        rw [← share_add, Nat.add_sub_cancel' (Nat.le_of_not_lt part)]
      rcases run : consume side owner price q (n - x.size) with ⟨trades, q', left⟩
      rw [run] at rest
      simp only [dealt_cons, party_own, size_tradeWith] at rest ⊢
      omega

/-- A queue that is replaced, in the account over all prices. -/
theorem queued_update {prices : Finset ℕ} {p : Nat} (here : p ∈ prices) (trader : Nat) (q : Nat → List Resting)
    (rest : List Resting) :
    ∑ l ∈ prices, queued trader (Function.update q p rest l) + queued trader (q p) =
      ∑ l ∈ prices, queued trader (q l) + queued trader rest := by
  rw [← Finset.add_sum_erase prices (fun l => queued trader (q l)) here,
    ← Finset.add_sum_erase prices (fun l => queued trader (Function.update q p rest l)) here]
  have others : ∑ l ∈ prices.erase p, queued trader (Function.update q p rest l) =
      ∑ l ∈ prices.erase p, queued trader (q l) :=
    Finset.sum_congr rfl fun l there => by rw [Function.update_of_ne (Finset.ne_of_mem_erase there)]
  rw [others, Function.update_self]
  omega

/-- What an order takes from all queues is dealt. -/
theorem meet_queued {prices : Finset ℕ} (side : Side) (owner trader : Nat) {ps : List Nat} (inside : ∀ p ∈ ps, p ∈ prices)
    (q : Nat → List Resting) (n : Nat) :
    ∑ l ∈ prices, queued trader ((meet side owner ps q n).2.1 l) + dealt side.other trader (meet side owner ps q n).1 =
      ∑ l ∈ prices, queued trader (q l) := by
  induction ps generalizing q n with
  | nil => rfl
  | cons p ps ih =>
    have rest := ih (fun p' hp => inside p' (List.mem_cons_of_mem _ hp))
      (Function.update q p (consume side owner p (q p) n).2.1) (consume side owner p (q p) n).2.2
    have first := consume_queued side owner p trader (q p) n
    have put := queued_update (inside p List.mem_cons_self) trader q (consume side owner p (q p) n).2.1
    rw [meet]
    rcases run : consume side owner p (q p) n with ⟨trades, q', left⟩
    rcases runs : meet side owner ps (Function.update q p q') left with ⟨trades', q'', left'⟩
    simp only [run, runs, dealt_append] at rest first put ⊢
    omega

theorem meet_dealt (side : Side) (owner trader : Nat) (ps : List Nat) (q : Nat → List Resting) (n : Nat) :
    dealt side trader (meet side owner ps q n).1 + share trader owner (meet side owner ps q n).2.2 =
      share trader owner n := by
  induction ps generalizing q n with
  | nil => exact Nat.zero_add _
  | cons p ps ih =>
    have rest := ih (Function.update q p (consume side owner p (q p) n).2.1) (consume side owner p (q p) n).2.2
    have first := consume_dealt side owner p trader (q p) n
    rw [meet]
    rcases run : consume side owner p (q p) n with ⟨trades, q', left⟩
    rcases runs : meet side owner ps (Function.update q p q') left with ⟨trades', q'', left'⟩
    simp only [run, runs, dealt_append] at rest first ⊢
    omega

/-! ## The queues of the reference -/

namespace Reference

/-- What the queues of a side hold of a trader. -/
def queuedOn (r : Reference) (s : Side) (trader : Nat) : Nat :=
  ∑ l ∈ Finset.range (maxLevel + 1), queued trader (r.queues s l)

theorem prices_inside (side : Side) {level p : Nat} (inside : level ≤ maxLevel) (there : p ∈ prices side level) :
    p ∈ Finset.range (maxLevel + 1) := by
  rw [Finset.mem_range]
  cases side with
  | buy =>
    have := (List.mem_range'_1.1 there).2
    omega
  | sell =>
    have := (List.mem_range'_1.1 (List.mem_reverse.1 there)).2
    omega

/-- **An order in the account.** What it does not deal rests. -/
theorem limit_account (r : Reference) (side : Side) (owner level size : Nat) (s : Side) (trader : Nat) :
    (r.limit side owner level size).2.queuedOn s trader + dealt s trader (r.limit side owner level size).1.2 =
      r.queuedOn s trader +
        if (r.limit side owner level size).1.1 = 0 ∧ side = s then share trader owner size else 0 := by
  rw [limit]
  by_cases refused : maxOrders ≤ r.issued ∨ maxLevel < level ∨ level < 1 ∨ size = 0
  · rw [if_pos refused, if_neg fun no => by cases no.1]
    rfl
  rw [if_neg refused]
  have level_le : level ≤ maxLevel := by omega
  have queuedThem := meet_queued side owner trader (fun p there => prices_inside side level_le there)
    (r.queues side.other) size
  have dealtOwn := meet_dealt side owner trader (prices side level) (r.queues side.other) size
  rcases met : meet side owner (prices side level) (r.queues side.other) size with ⟨trades, others, left⟩
  simp only [met, true_and] at queuedThem dealtOwn ⊢
  by_cases own : side = s
  · subst own
    rw [if_pos rfl, ← dealtOwn]
    have rests : queuedOn ⟨r.rest side level ⟨r.issued, owner, left⟩ others, r.issued + 1⟩ side trader =
        r.queuedOn side trader + share trader owner left := by
      simp only [queuedOn, rest, if_true]
      by_cases done : left = 0
      · simp only [done, if_true, share_zero, Nat.add_zero]
      · have here : level ∈ Finset.range (maxLevel + 1) := Finset.mem_range.2 (Nat.lt_succ_of_le level_le)
        have put := queued_update here trader (r.queues side)
          (r.queues side level ++ [⟨r.issued, owner, left⟩])
        simp only [queued_concat] at put
        simp only [done, if_false]
        omega
    omega
  · rw [if_neg own]
    have other : s = side.other := by cases s <;> cases side <;> first | rfl | exact absurd rfl own
    subst other
    have them : queuedOn ⟨r.rest side level ⟨r.issued, owner, left⟩ others, r.issued + 1⟩ side.other trader =
        ∑ l ∈ Finset.range (maxLevel + 1), queued trader (others l) := by
      simp only [queuedOn, rest, if_neg (Ne.symm own)]
    rw [them, queuedThem, queuedOn]
    exact (Nat.add_zero _).symm

end Reference

/-! ## The table of the engine -/

namespace OrderBook

section
variable {b b' : OrderBook} {r : Reference}

/-- What the table has left of the orders of a trader on a side. -/
def resting (b : OrderBook) (s : Side) (trader : Nat) : Nat :=
  ∑ i ∈ Finset.range b.ordersNum, if (b.orders i).sideOf = s then share trader (b.orders i).trader (b.orders i).size else 0

/-- The orders in a queue are those of its side and level of which something is left. -/
theorem Refines.queue_iff (h : b.Refines r) (sided : b.Sided r) (s : Side) (l i : Nat) : i ∈ ids (r.queues s l) ↔
    (i < b.ordersNum ∧ (b.orders i).size ≠ 0 ∧ (b.orders i).level = l) ∧ (b.orders i).sideOf = s := by
  rw [← h.rests_iff]
  constructor
  · intro there
    exact ⟨Mirrors.mem_both there, sided s l i there⟩
  · rintro ⟨there, rfl⟩
    rw [both, ids, List.map_append, List.mem_append] at there
    rcases there with buy | sell
    · rw [sided .buy l i buy]
      exact buy
    · rw [sided .sell l i sell]
      exact sell

theorem queued_eq_sum (trader : Nat) (q : List Resting) :
    queued trader q = (q.map fun x => share trader x.trader x.size).sum := by
  induction q with
  | nil => rfl
  | cons x q ih => rw [queued_cons, ih, List.map_cons, List.sum_cons]

/-- A queue, in the table. -/
theorem Refines.queued_eq (h : b.Refines r) (s : Side) (trader l : Nat) :
    queued trader (r.queues s l) =
      ∑ i ∈ (ids (r.queues s l)).toFinset, share trader (b.orders i).trader (b.orders i).size := by
  have whole := (h.mirrors.holds l).linked.nodup
  have nodup : (ids (r.queues s l)).Nodup := by
    rw [both, ids, List.map_append] at whole
    cases s with
    | buy => exact (List.nodup_append.1 whole).1
    | sell => exact (List.nodup_append.1 whole).2.1
  rw [List.sum_toFinset _ nodup, queued_eq_sum, ids, List.map_map]
  refine congrArg List.sum (List.map_congr_left fun x there => ?_)
  obtain ⟨y, hy, same⟩ := mem_ids.1 (Mirrors.mem_both (q := r.queues) (s := s) (List.mem_map_of_mem there))
  have kept : b.Kept l x := by
    refine (h.mirrors.holds l).kept x ?_
    rw [both, List.mem_append]
    cases s with
    | buy => exact .inl there
    | sell => exact .inr there
  simp only [Function.comp_apply, kept.trader, kept.size]

/-- **The table and the queues** hold the same of every trader. -/
theorem Refines.resting_eq (h : b.Refines r) (sided : b.Sided r) (s : Side) (trader : Nat) :
    b.resting s trader = r.queuedOn s trader := by
  let live := (Finset.range b.ordersNum).filter fun i => (b.orders i).size ≠ 0 ∧ (b.orders i).sideOf = s
  have placed : ∀ i ∈ live, (b.orders i).level ∈ Finset.range (maxLevel + 1) := by
    intro i there
    obtain ⟨issued, left, -⟩ := Finset.mem_filter.1 there
    have rests := (h.rests_iff i (b.orders i).level).2 ⟨Finset.mem_range.1 issued, left, rfl⟩
    rw [Finset.mem_range]
    by_contra high
    have spread := h.mirrors.spread
    have top := h.mirrors.ask_le
    rw [both, h.mirrors.inside _ (by omega), h.mirrors.bids _ (by omega)] at rests
    cases rests
  have level (l : Nat) : (ids (r.queues s l)).toFinset = live.filter fun i => (b.orders i).level = l := by
    ext i
    rw [List.mem_toFinset, h.queue_iff sided, Finset.mem_filter, Finset.mem_filter, Finset.mem_range]
    tauto
  have queues : r.queuedOn s trader = ∑ i ∈ live, share trader (b.orders i).trader (b.orders i).size := by
    rw [Reference.queuedOn, ← Finset.sum_fiberwise_of_maps_to placed]
    exact Finset.sum_congr rfl fun l _ => by rw [h.queued_eq, level]
  rw [queues, Finset.sum_filter, resting]
  refine Finset.sum_congr rfl fun i _ => ?_
  by_cases none : (b.orders i).size = 0
  · rw [none, share_zero, ite_self, if_neg fun both => both.1 rfl]
  · simp only [none, ne_eq, not_false_eq_true, true_and]

/-! ## One call -/

/-- What a call brings to the market for a trader, given what the call returned. -/
def submits (s : Side) (trader : Nat) (ret : Int) : Call → Nat
  | .limit limit => if ret = 0 ∧ limit.sideOf = s then share trader limit.trader limit.size else 0
  | .cancel _ => 0

/-- What a call withdraws of a trader. -/
def withdraws (b : OrderBook) (s : Side) (trader : Nat) : Call → Nat
  | .limit _ => 0
  | .cancel id =>
    if (b.doCancel id).1 = 0 ∧ (b.orders id).sideOf = s then share trader (b.orders id).trader (b.orders id).size else 0

/-- The links of an order that leaves a list are all that `order_remove` changes. -/
theorem remove_data (b : OrderBook) (l o : Nat) :
    (b.orderRemove l o).ordersNum = b.ordersNum ∧ ∀ i, ((b.orderRemove l o).orders i).sideOf = (b.orders i).sideOf ∧
      ((b.orderRemove l o).orders i).trader = (b.orders i).trader ∧
      ((b.orderRemove l o).orders i).size = (b.orders i).size := by
  have relinks : b.Relinks (b.orderRemove l o) l ((b.prev o).toList ++ (b.next o).toList) := by
    refine remove_relinks b l (fun p is => ?_) (fun n is => ?_)
    · rw [is]
      exact List.mem_cons_self
    · rw [is]
      exact List.mem_append_right _ List.mem_cons_self
  refine ⟨relinks.ordersNum, fun i => ?_⟩
  rw [relinks.data i]
  exact ⟨rfl, rfl, rfl⟩

/-- **A cancel in the account.** What the order had left is withdrawn. -/
theorem cancel_account (b : OrderBook) (id : Nat) (s : Side) (trader : Nat) :
    (b.doCancel id).2.resting s trader + b.withdraws s trader (.cancel id) = b.resting s trader := by
  simp only [withdraws]
  rw [doCancel]
  by_cases unknown : b.ordersNum = 0 ∨ b.ordersNum ≤ id
  · rw [if_pos unknown, if_neg fun no => by cases no.1]
    rfl
  rw [if_neg unknown]
  by_cases none : (b.orders id).size = 0
  · rw [if_pos none, if_neg fun no => by cases no.1]
    rfl
  rw [if_neg none]
  have known : id ∈ Finset.range b.ordersNum := Finset.mem_range.2 (by omega)
  obtain ⟨issued, data⟩ := remove_data b (b.orders id).level id
  simp only [true_and, resting]
  have num : ((b.orderRemove (b.orders id).level id).setSize id 0).ordersNum = b.ordersNum := issued
  rw [num, ← Finset.add_sum_erase _ _ known, ← Finset.add_sum_erase (Finset.range b.ordersNum) (fun i =>
    if (b.orders i).sideOf = s then share trader (b.orders i).trader (b.orders i).size else 0) known]
  have cleared : ((b.orderRemove (b.orders id).level id).setSize id 0).orders id =
      { (b.orderRemove (b.orders id).level id).orders id with size := 0 } := by rw [setSize_orders, if_pos rfl]
  have others : ∀ i ∈ (Finset.range b.ordersNum).erase id,
      ((b.orderRemove (b.orders id).level id).setSize id 0).orders i =
        (b.orderRemove (b.orders id).level id).orders i := fun i there => by
    rw [setSize_orders, if_neg (Finset.ne_of_mem_erase there)]
  rw [cleared]
  simp only [share_zero, ite_self, Nat.zero_add]
  rw [Nat.add_comm]
  refine congrArg (_ + ·) (Finset.sum_congr rfl fun i there => ?_)
  rw [others i there, (data i).1, (data i).2.1, (data i).2.2]

/-- **A call in the account.** What it brings is dealt, rests, or is withdrawn. -/
theorem call_account (h : b.Refines r) (sided : b.Sided r) {c : Call} {out : Int × List Trade}
    (run : b.call c = some (out, b')) (h' : b'.Refines (r.call c).2) (sided' : b'.Sided (r.call c).2)
    (same : out = (r.call c).1) (s : Side) (trader : Nat) :
    b'.resting s trader + dealt s trader out.2 + b.withdraws s trader c = b.resting s trader + submits s trader out.1 c := by
  cases c with
  | limit limit =>
    rw [h.resting_eq sided, h'.resting_eq sided', same, withdraws, submits, Nat.add_zero]
    exact r.limit_account limit.sideOf limit.trader limit.level limit.size s trader
  | cancel id =>
    cases run
    have account := b.cancel_account id s trader
    rw [dealt_nil, submits]
    omega

/-! ## All calls -/

/-- What a sequence of calls brings to the market for a trader, given what the calls returned. -/
def submitted (s : Side) (trader : Nat) : List Call → List (Int × List Trade) → Nat
  | c :: cs, out :: outs => submits s trader out.1 c + submitted s trader cs outs
  | _, _ => 0

/-- What a sequence of calls withdraws of a trader. -/
def withdrawn (b : OrderBook) (s : Side) (trader : Nat) : List Call → Nat
  | [] => 0
  | c :: cs =>
    match b.call c with
    | none => 0
    | some (_, b') => b.withdraws s trader c + b'.withdrawn s trader cs

/-- The account of a sequence of calls. -/
theorem calls_account (h : b.Refines r) (sided : b.Sided r) (cs : List Call) (s : Side) (trader : Nat) :
    ∃ outs b', b.calls cs = some (outs, b') ∧
      b'.resting s trader + dealt s trader (outs.flatMap (·.2)) + b.withdrawn s trader cs =
        b.resting s trader + submitted s trader cs outs := by
  induction cs generalizing b r with
  | nil => exact ⟨[], b, rfl, rfl⟩
  | cons c cs ih =>
    obtain ⟨next, run, h'⟩ := call_refines h c
    have sided' := sided.call h run h'
    have first := call_account h sided run h' sided' rfl s trader
    obtain ⟨outs, b', runs, rest⟩ := ih h' sided'
    refine ⟨(r.call c).1 :: outs, b', ?_, ?_⟩
    · simp only [calls, run, runs]
    · simp only [withdrawn, run, submitted, List.flatMap_cons, dealt_append]
      omega

end

end OrderBook

/-- **Nothing is lost.** Over any sequence of calls on a new book, what the accepted orders of a trader bring to a side of
the market is what the trader dealt there, what rests of these orders, and what the cancels withdrew. -/
theorem quantities_conserved (cs : List Call) (s : Side) (trader : Nat) :
    ∃ outs b, orderBookInit.calls cs = some (outs, b) ∧
      OrderBook.submitted s trader cs outs =
        dealt s trader (outs.flatMap (·.2)) + b.resting s trader + orderBookInit.withdrawn s trader cs := by
  have sided : orderBookInit.Sided Reference.init := fun s l i there => by cases there
  obtain ⟨outs, b, run, account⟩ := OrderBook.calls_account OrderBook.init_refines sided cs s trader
  have empty : orderBookInit.resting s trader = 0 := rfl
  exact ⟨outs, b, run, by omega⟩

end Libtrading.Sim
