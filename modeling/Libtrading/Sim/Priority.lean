import Libtrading.Sim.Sweep
import Mathlib.Data.List.Range

/-!
# Price-time priority

The engine keeps bids and asks in one list per level, and two bounds that may
point at empty levels. `Mirrors` relates it to the queues of the reference:
a level holds its bids and its asks, no bid is above `best_bid`, no ask below
`best_ask`, and the two bounds never meet, so that one of the two is empty.
-/

namespace Libtrading.Sim
open Store
set_option autoImplicit false

/-- What a level holds. -/
def both (q : Side → Nat → List Resting) (l : Nat) : List Resting := q .buy l ++ q .sell l

/-- The queues with those of the other side replaced. -/
def withOther (q : Side → Nat → List Resting) (side : Side) (v : Nat → List Resting) : Side → Nat → List Resting :=
  fun s => if s = side then q s else v

/-! ## Prices -/

/-- The prices an order at `level` meets from `best` on. -/
def ahead : Side → Nat → Nat → List Nat
  | .buy, best, level => List.range' best (level + 1 - best)
  | .sell, best, level => (List.range' level (best + 1 - level)).reverse

/-- The order at `level` crosses the best price. -/
def Crosses : Side → Nat → Nat → Prop
  | .buy, best, level => best ≤ level
  | .sell, best, level => level ≤ best

/-- The price behind the best one. -/
def nextBest : Side → Nat → Nat
  | .buy, best => best + 1
  | .sell, best => best - 1

theorem ahead_cons {side : Side} {best level : Nat} (pos : 0 < level) (h : Crosses side best level) :
    ahead side best level = best :: ahead side (nextBest side best) level := by
  cases side with
  | buy =>
    have h : best ≤ level := h
    have count : level + 1 - best = level + 1 - (best + 1) + 1 := by omega
    simp only [ahead, nextBest]
    rw [count, List.range'_succ]
  | sell =>
    have h : level ≤ best := h
    have count : best + 1 - level = best - 1 + 1 - level + 1 := by omega
    have last : level + (best - 1 + 1 - level) = best := by omega
    simp only [ahead, nextBest]
    rw [count, List.range'_1_concat, List.reverse_append, last]
    rfl

theorem ahead_nil {side : Side} {best level : Nat} (h : ¬ Crosses side best level) : ahead side best level = [] := by
  cases side with
  | buy =>
    have h : ¬ best ≤ level := h
    simp only [ahead]
    rw [Nat.sub_eq_zero_of_le (by omega)]
    rfl
  | sell =>
    have h : ¬ level ≤ best := h
    simp only [ahead]
    rw [Nat.sub_eq_zero_of_le (by omega)]
    rfl

/-- A price on the wrong side of the best one. -/
def Behind : Side → Nat → Nat → Prop
  | .buy, best, p => p < best
  | .sell, best, p => best < p

/-- All prices an order may meet are those behind the best one, then those from it on. -/
theorem prices_split (side : Side) {best level : Nat} (low : 1 ≤ best ∨ side = .sell)
    (high : best ≤ maxLevel ∨ side = .buy) (inside : level ≤ maxLevel) :
    ∃ ps, prices side level = ps ++ ahead side best level ∧ ∀ p ∈ ps, Behind side best p := by
  cases side with
  | buy =>
    have low : 1 ≤ best := low.resolve_right (nomatch ·)
    by_cases crosses : best ≤ level + 1
    · refine ⟨List.range' 1 (best - 1), ?_, fun p hp => ?_⟩
      · have from' : best = 1 + 1 * (best - 1) := by omega
        have count : level = best - 1 + (level + 1 - best) := by omega
        simp only [prices, ahead]
        conv_lhs => rw [count, ← List.range'_append, ← from']
      · have := List.mem_range'_1.1 hp
        exact Nat.lt_of_lt_of_le this.2 (by omega)
    · refine ⟨List.range' 1 level, ?_, fun p hp => ?_⟩
      · rw [@ahead_nil .buy best level (by simp only [Crosses]; omega), List.append_nil]
        rfl
      · have := List.mem_range'_1.1 hp
        exact Nat.lt_of_lt_of_le this.2 (by omega)
  | sell =>
    have high : best ≤ maxLevel := high.resolve_right (nomatch ·)
    by_cases crosses : level ≤ best + 1
    · refine ⟨(List.range' (best + 1) (maxLevel - best)).reverse, ?_, fun p hp => ?_⟩
      · have from' : best + 1 = level + 1 * (best + 1 - level) := by omega
        have count : maxLevel + 1 - level = best + 1 - level + (maxLevel - best) := by omega
        simp only [prices, ahead]
        rw [← List.reverse_append, count, ← List.range'_append, ← from']
      · have := List.mem_range'_1.1 (List.mem_reverse.1 hp)
        exact this.1
    · refine ⟨(List.range' level (maxLevel + 1 - level)).reverse, ?_, fun p hp => ?_⟩
      · rw [@ahead_nil .sell best level (by simp only [Crosses]; omega), List.append_nil]
        rfl
      · have := List.mem_range'_1.1 (List.mem_reverse.1 hp)
        exact Nat.lt_of_lt_of_le (by omega) this.1

/-! ## The reference over empty queues -/

theorem meet_zero (side : Side) (trader : Nat) (ps : List Nat) (q : Nat → List Resting) :
    meet side trader ps q 0 = ([], q, 0) := by
  induction ps with
  | nil => rfl
  | cons p ps ih =>
    rw [meet, consume_zero]
    simp only [Function.update_eq_self, ih, List.nil_append]

theorem meet_skip (side : Side) (trader : Nat) {ps : List Nat} (ps' : List Nat) {q : Nat → List Resting} (n : Nat)
    (empty : ∀ p ∈ ps, q p = []) : meet side trader (ps ++ ps') q n = meet side trader ps' q n := by
  induction ps with
  | nil => rfl
  | cons p ps ih =>
    have none : consume side trader p (q p) n = ([], q p, n) := by rw [empty p List.mem_cons_self]; rfl
    have rest := ih (fun p' hp => empty p' (List.mem_cons_of_mem _ hp))
    rw [List.cons_append, meet, none]
    simp only [Function.update_eq_self, rest, List.nil_append]

namespace OrderBook

/-- **The book is the queues.** Nothing is left of an order that is in no queue, except for the one
that is being matched. -/
structure Mirrors (b : OrderBook) (q : Side → Nat → List Resting) (incoming : Option Nat) : Prop where
  spread : b.bestBid < b.bestAsk
  ask_le : b.bestAsk ≤ maxLevel + 1
  asks : ∀ l, l < b.bestAsk → q .sell l = []
  bids : ∀ l, b.bestBid < l → q .buy l = []
  inside : ∀ l, maxLevel < l → q .sell l = []
  holds : ∀ l, b.Holds l (both q l)
  gone : ∀ i, incoming ≠ some i → (∀ l, i ∉ ids (both q l)) → (b.orders i).size = 0

section
variable {b b' : OrderBook} {q : Side → Nat → List Resting} {o : Nat}

/-- An order is at one level. -/
theorem Mirrors.level_unique {c : Option Nat} (h : b.Mirrors q c) {i l l' : Nat} (hi : i ∈ ids (both q l))
    (hi' : i ∈ ids (both q l')) : l = l' := by
  obtain ⟨x, hx, rfl⟩ := mem_ids.1 hi
  obtain ⟨y, hy, same⟩ := mem_ids.1 hi'
  rw [← ((h.holds l).kept x hx).level, ← ((h.holds l').kept y hy).level, same]

/-- The best level of the other side holds no order of the own one. -/
theorem Mirrors.best_other {c : Option Nat} (h : b.Mirrors q c) (side : Side) :
    both q (b.best side) = q side.other (b.best side) := by
  cases side with
  | buy =>
    have none : q .buy (b.best .buy) = [] := h.bids b.bestAsk h.spread
    rw [both, none, List.nil_append]
    rfl
  | sell =>
    have none : q .sell (b.best .sell) = [] := h.asks b.bestBid h.spread
    rw [both, none, List.append_nil]
    rfl

theorem both_withOther (q : Side → Nat → List Resting) (side : Side) {v : Nat → List Resting} {l : Nat}
    (same : v l = q side.other l) : both (withOther q side v) l = both q l := by
  cases side <;> simp only [both, withOther, same, Side.other, if_true, reduceCtorEq, if_false]

/-- The best level once its queue is replaced. -/
theorem Mirrors.both_best {c : Option Nat} (h : b.Mirrors q c) (side : Side) (rest : List Resting) :
    both (withOther q side (Function.update (q side.other) (b.best side) rest)) (b.best side) = rest := by
  have own : q side (b.best side) = [] := by
    cases side
    · exact h.bids b.bestAsk h.spread
    · exact h.asks b.bestBid h.spread
  cases side <;> simp only [both, withOther, Side.other, if_true, reduceCtorEq, if_false, own, Function.update_self,
    List.nil_append, List.append_nil]

/-- The orders in the queues after a sweep were in the queues before it. -/
theorem Mirrors.swept_subset {c : Option Nat} (h : b.Mirrors q c) (side : Side) {rest : List Resting}
    (subset : ids rest ⊆ ids (q side.other (b.best side))) (l : Nat) :
    ids (both (withOther q side (Function.update (q side.other) (b.best side) rest)) l) ⊆ ids (both q l) := by
  by_cases here : l = b.best side
  · rw [here, h.both_best, h.best_other]
    exact subset
  · rw [both_withOther q side (Function.update_of_ne here _ _)]
    exact List.Subset.refl _

/-- A queue without orders has none after a sweep. -/
theorem swept_empty (side : Side) {best : Nat} {rest : List Resting} (subset : ids rest ⊆ ids (q side.other best))
    {s : Side} {l : Nat} (none : q s l = []) : withOther q side (Function.update (q side.other) best rest) s l = [] := by
  by_cases own : s = side
  · rw [withOther, if_pos own, none]
  · have other : s = side.other := by cases side <;> cases s <;> simp_all [Side.other]
    rw [withOther, if_neg own]
    by_cases here : l = best
    · rw [here, Function.update_self]
      rw [here, other] at none
      rw [none] at subset
      exact List.map_eq_nil_iff.1 (List.subset_nil.1 subset)
    · rw [Function.update_of_ne here, ← other, none]

/-- After a sweep of the best level, the book is the queues after it. -/
theorem Mirrors.swept (h : b.Mirrors q (some o)) (out : ∀ l, o ∉ ids (both q l)) (side : Side) {rest : List Resting}
    {left : Nat} (s : b.Swept b' (b.best side) (q side.other (b.best side)) o rest left) :
    b'.Mirrors (withOther q side (Function.update (q side.other) (b.best side) rest)) (some o) := by
  have best := h.best_other side
  have inner : ∀ l, l ≠ b.best side → both (withOther q side (Function.update (q side.other) (b.best side) rest)) l = both q l :=
    fun l hl => both_withOther q side (Function.update_of_ne hl _ _)
  refine ⟨by rw [s.bestBid, s.bestAsk]; exact h.spread, by rw [s.bestAsk]; exact h.ask_le, fun l hl => ?_, fun l hl => ?_,
    fun l hl => swept_empty side s.subset (h.inside l hl), fun l => ?_, fun i ho hi => ?_⟩
  · exact swept_empty side s.subset (h.asks l (s.bestAsk ▸ hl))
  · exact swept_empty side s.subset (h.bids l (s.bestBid ▸ hl))
  · by_cases here : l = b.best side
    · rw [here, h.both_best]
      exact s.holds
    · rw [inner l here]
      refine (h.holds l).frame (s.levels l here) (fun i hi => ?_) (Nat.le_of_eq s.ordersNum.symm)
      refine s.orders i (fun there => here ?_) (fun same => out l (same ▸ hi))
      rw [← best] at there
      exact h.level_unique hi there
  · have other : i ≠ o := fun same => ho (same ▸ rfl)
    by_cases there : i ∈ ids (q side.other (b.best side))
    · exact s.gone i there (h.both_best side rest ▸ hi (b.best side))
    · rw [s.orders i there other]
      refine h.gone i ho (fun l hl => ?_)
      by_cases here : l = b.best side
      · rw [here, best] at hl
        exact there hl
      · exact hi l (inner l here ▸ hl)

/-- The links and the orders do not know the bounds. -/
theorem Mirrors.pass (h : b.Mirrors q (some o)) (side : Side) (empty : q side.other (b.best side) = [])
    (top : side = .buy → b.bestAsk ≤ maxLevel) : (b.pass side).Mirrors q (some o) := by
  cases side with
  | buy =>
    refine ⟨Nat.lt_succ_of_lt h.spread, Nat.succ_le_succ (top rfl), fun l hl => ?_, h.bids, h.inside,
      fun l => (h.holds l).frame rfl (fun _ _ => rfl) (Nat.le_refl _), h.gone⟩
    rcases Nat.lt_or_eq_of_le (Nat.le_of_lt_succ hl) with below | here
    · exact h.asks l below
    · exact here ▸ empty
  | sell =>
    refine ⟨Nat.lt_of_le_of_lt (Nat.sub_le _ 1) h.spread, h.ask_le, h.asks, fun l hl => ?_, h.inside,
      fun l => (h.holds l).frame rfl (fun _ _ => rfl) (Nat.le_refl _), h.gone⟩
    have hl : b.bestBid - 1 < l := hl
    by_cases here : l = b.bestBid
    · exact here ▸ empty
    · exact h.bids l (by omega)

theorem crosses_iff (b : OrderBook) (o : Nat) (side : Side) :
    b.crosses o side = true ↔ Crosses side (b.best side) (b.orders o).level := by
  cases side <;> simp only [crosses, Crosses, best, decide_eq_true_eq]

theorem best_pass (b : OrderBook) (side : Side) : (b.pass side).best side = nextBest side (b.best side) := by
  cases side <;> rfl

theorem pass_orders (b : OrderBook) (side : Side) : (b.pass side).orders = b.orders := by cases side <;> rfl

theorem pass_ordersNum (b : OrderBook) (side : Side) : (b.pass side).ordersNum = b.ordersNum := by cases side <;> rfl

theorem Swept.best {l : Nat} {rest rest' : List Resting} {left : Nat} (s : b.Swept b' l rest o rest' left) (side : Side) :
    b'.best side = b.best side := by
  cases side
  · exact s.bestAsk
  · exact s.bestBid

/-- A price that is crossed and whose next one is not is the order's own. -/
theorem last_crossed {side : Side} {best L : Nat} (h : Crosses side best L)
    (h' : ¬ Crosses side (nextBest side best) L) : best = L := by
  cases side <;> simp only [Crosses, nextBest] at h h' <;> omega

/-- What the loop over the levels leaves. -/
structure Through (b b' : OrderBook) (side : Side) (o : Nat) (q : Side → Nat → List Resting) (v : Nat → List Resting)
    (left : Nat) : Prop where
  mirrors : b'.Mirrors (withOther q side v) (some o)
  incoming : b'.orders o = { b.orders o with size := left }
  ordersNum : b'.ordersNum = b.ordersNum
  out : ∀ l, o ∉ ids (both (withOther q side v) l)
  stops : left ≠ 0 → b'.crosses o side = false

/-- Replacing the queues of the other side twice is replacing them once. -/
theorem withOther_withOther (q : Side → Nat → List Resting) (side : Side) (v w : Nat → List Resting) :
    withOther (withOther q side v) side w = withOther q side w := by
  funext s l
  cases side <;> cases s <;> simp [withOther]

theorem withOther_other (q : Side → Nat → List Resting) (side : Side) (v : Nat → List Resting) :
    withOther q side v side.other = v := by
  cases side <;> simp [withOther, Side.other]

theorem withOther_self (q : Side → Nat → List Resting) (side : Side) : withOther q side (q side.other) = q := by
  funext s l
  cases side <;> cases s <;> simp [withOther, Side.other]

/-- **The loop over the levels.** It trades as the reference does over the prices from the best one on,
and leaves the variable `level` at the level of the order. -/
theorem through_meets (side : Side) {level L : Nat} (h : b.Mirrors q (some o)) (at' : (b.orders o).level = L)
    (pos : 0 < L) (inside : L ≤ maxLevel) (out : ∀ l, o ∉ ids (both q l)) (size : 0 < (b.orders o).size)
    (few : b.ordersNum ≤ maxOrders) (here : b.crosses o side = false → level = L) {ps : List Nat}
    (hps : ahead side (b.best side) L = ps) {turns : Nat} (enough : ps.length < turns) :
    ∃ b', through side o turns b level =
        some ((meet side (b.orders o).trader ps (q side.other) (b.orders o).size).1,
          if (meet side (b.orders o).trader ps (q side.other) (b.orders o).size).2.2 = 0 then none else some L, b') ∧
      b.Through b' side o q (meet side (b.orders o).trader ps (q side.other) (b.orders o).size).2.1
        (meet side (b.orders o).trader ps (q side.other) (b.orders o).size).2.2 := by
  induction ps generalizing b q level turns with
  | nil =>
    obtain ⟨turns, rfl⟩ : ∃ k, turns = k + 1 := ⟨turns - 1, by simp only [List.length_nil] at enough; omega⟩
    have stops : b.crosses o side = false := by
      by_contra crosses
      rw [Bool.not_eq_false, crosses_iff, at'] at crosses
      rw [ahead_cons pos crosses] at hps
      cases hps
    have some_left : ¬ (b.orders o).size = 0 := Nat.ne_of_gt size
    have met : meet side (b.orders o).trader [] (q side.other) (b.orders o).size = ([], q side.other, (b.orders o).size) := rfl
    rw [met]
    refine ⟨b, ?_, ?_⟩
    · rw [through, stops, here stops, if_neg some_left]
      rfl
    · exact ⟨by rw [withOther_self]; exact h, rfl, rfl, by rw [withOther_self]; exact out, fun _ => stops⟩
  | cons p ps ih =>
    obtain ⟨turns, rfl⟩ : ∃ k, turns = k + 1 := ⟨turns - 1, by omega⟩
    have crosses : b.crosses o side = true := by
      by_contra stops
      rw [crosses_iff, at'] at stops
      rw [ahead_nil stops] at hps
      cases hps
    have ahead' := (crosses_iff b o side).1 crosses
    rw [at'] at ahead'
    rw [ahead_cons pos ahead'] at hps
    obtain ⟨rfl, hrest⟩ := List.cons.inj hps
    have best := h.best_other side
    have queue : b.Holds (b.best side) (q side.other (b.best side)) := best ▸ h.holds (b.best side)
    have outside : o ∉ ids (q side.other (b.best side)) := best ▸ out (b.best side)
    have turns_enough : (q side.other (b.best side)).length < maxOrders + 1 :=
      Nat.lt_succ_of_le (Nat.le_trans queue.length_le few)
    obtain ⟨swept, run, s⟩ := sweep_consumes side o queue outside size turns_enough
    have emptied := @consume_left side (b.orders o).trader (b.best side)
      (q side.other (b.best side)) (n := (b.orders o).size)
    have mirrors := h.swept out side s
    have out' := fun l => fun ho => out l (h.swept_subset side s.subset l ho)
    rw [through, if_pos crosses, run, meet]
    generalize consume side (b.orders o).trader (b.best side) (q side.other (b.best side)) (b.orders o).size = c at *
    obtain ⟨trades, rest, left⟩ := c
    simp only at *
    by_cases done : left = 0
    · subst done
      simp only [meet_zero, List.append_nil, decide_true, if_true]
      exact ⟨swept, rfl, mirrors, s.incoming, s.ordersNum, out', fun h => absurd rfl h⟩
    · have best' := s.best side
      have empty : withOther q side (Function.update (q side.other) (b.best side) rest) side.other (swept.best side) = [] := by
        rw [best', withOther_other, Function.update_self, emptied done]
      have top : side = .buy → swept.bestAsk ≤ maxLevel := by
        rintro rfl
        rw [s.bestAsk]
        exact Nat.le_trans ahead' inside
      have passed := mirrors.pass side empty top
      have order : (swept.pass side).orders o = { b.orders o with size := left } := by rw [pass_orders, s.incoming]
      have last : (swept.pass side).crosses o side = false → b.best side = L := by
        intro stops
        refine last_crossed ahead' (fun more => ?_)
        rw [← best', ← best_pass, ← at'] at more
        have := (crosses_iff (swept.pass side) o side).2 (by rw [order]; exact more)
        rw [this] at stops
        cases stops
      obtain ⟨b', run', t⟩ := ih passed (by rw [order]; exact at') out' (by rw [order]; exact Nat.pos_of_ne_zero done)
        (by rw [pass_ordersNum, s.ordersNum]; exact few) last (by rw [best_pass, best']; exact hrest)
        (show ps.length < turns by simp only [List.length_cons] at enough; omega)
      rw [order, withOther_other] at run' t
      simp only at run' t
      simp only [done, decide_false, run']
      refine ⟨b', rfl, ?_, ?_, ?_, ?_, t.stops⟩
      · rw [← withOther_withOther]
        exact t.mirrors
      · rw [t.incoming, order]
      · rw [t.ordersNum, pass_ordersNum, s.ordersNum]
      · have := t.out
        rw [withOther_withOther] at this
        exact this

/-! ## Resting -/

/-- The queues with an order behind those of its own side and level. -/
def withOwn (q : Side → Nat → List Resting) (side : Side) (level : Nat) (x : Resting) : Side → Nat → List Resting :=
  fun s => if s = side then Function.update (q s) level (q s level ++ [x]) else q s

theorem withOwn_ne (q : Side → Nat → List Resting) {side s : Side} {level l : Nat} (x : Resting)
    (h : s ≠ side ∨ l ≠ level) : withOwn q side level x s l = q s l := by
  unfold withOwn
  split
  · rename_i same
    rw [Function.update_of_ne (h.resolve_left (fun other => other same))]
  · rfl

theorem both_withOwn_ne (q : Side → Nat → List Resting) (side : Side) {level l : Nat} (x : Resting) (h : l ≠ level) :
    both (withOwn q side level x) l = both q l := by
  rw [both, withOwn_ne q x (.inr h), withOwn_ne q x (.inr h), both]

/-- With no order of the other side at the level, the new one is behind all that it holds. -/
theorem both_withOwn (q : Side → Nat → List Resting) (side : Side) {level : Nat} (x : Resting)
    (empty : q side.other level = []) : both (withOwn q side level x) level = both q level ++ [x] := by
  cases side with
  | buy =>
    have empty : q .sell level = [] := empty
    simp [both, withOwn, empty]
  | sell => simp [both, withOwn]

theorem bound_orders (b : OrderBook) (o : Nat) (side : Side) : (b.bound o side).orders = b.orders := by
  cases side <;> simp only [bound] <;> split <;> rfl

theorem bound_levels (b : OrderBook) (o : Nat) (side : Side) : (b.bound o side).levels = b.levels := by
  cases side <;> simp only [bound] <;> split <;> rfl

theorem bound_ordersNum (b : OrderBook) (o : Nat) (side : Side) : (b.bound o side).ordersNum = b.ordersNum := by
  cases side <;> simp only [bound] <;> split <;> rfl

/-- Once the own bound reaches the order's level, the bounds are as the queues with the order ask. -/
theorem Mirrors.bound (h : b.Mirrors q (some o)) (side : Side) {L : Nat} (hL : (b.orders o).level = L) (x : Resting)
    (stops : ¬ Crosses side (b.best side) L) :
    (b.bound o side).bestBid < (b.bound o side).bestAsk ∧ (b.bound o side).bestAsk ≤ maxLevel + 1 ∧
      (∀ l, l < (b.bound o side).bestAsk → withOwn q side L x .sell l = []) ∧
      ∀ l, (b.bound o side).bestBid < l → withOwn q side L x .buy l = [] := by
  have spread := h.spread
  have ask_le := h.ask_le
  cases side with
  | buy =>
    have stops : L < b.bestAsk := Nat.lt_of_not_le stops
    have others : ∀ l, withOwn q .buy L x .sell l = q .sell l := fun l => withOwn_ne q x (.inl (nomatch ·))
    rw [OrderBook.bound, hL]
    split
    · rename_i below
      refine ⟨stops, ask_le, fun l hl => (others l).trans (h.asks l hl), fun l hl => ?_⟩
      have hl : L < l := hl
      rw [withOwn_ne q x (.inr (Nat.ne_of_gt hl)), h.bids l (Nat.lt_trans below hl)]
    · rename_i above
      refine ⟨spread, ask_le, fun l hl => (others l).trans (h.asks l hl), fun l hl => ?_⟩
      rw [withOwn_ne q x (.inr (by omega)), h.bids l hl]
  | sell =>
    have stops : b.bestBid < L := Nat.lt_of_not_le stops
    have others : ∀ l, withOwn q .sell L x .buy l = q .buy l := fun l => withOwn_ne q x (.inl (nomatch ·))
    rw [OrderBook.bound, hL]
    split
    · rename_i below
      refine ⟨stops, Nat.le_of_lt (Nat.lt_of_lt_of_le below ask_le), fun l hl => ?_, fun l hl => (others l).trans (h.bids l hl)⟩
      have hl : l < L := hl
      rw [withOwn_ne q x (.inr (Nat.ne_of_lt hl)), h.asks l (Nat.lt_trans hl below)]
    · rename_i above
      refine ⟨spread, ask_le, fun l hl => ?_, fun l hl => (others l).trans (h.bids l hl)⟩
      rw [withOwn_ne q x (.inr (by omega)), h.asks l hl]

/-- **An order rests.** With no order left to meet, `order_insert` puts the incoming one into the queue
of its side and level. -/
theorem Mirrors.rests (h : b.Mirrors q (some o)) (side : Side) {x : Resting} (out : ∀ l, o ∉ ids (both q l))
    (stops : ¬ Crosses side (b.best side) (b.orders o).level) (inside : (b.orders o).level ≤ maxLevel) (is : x.id = o)
    (trader : (b.orders o).trader = x.trader) (size : (b.orders o).size = x.size) (pos : 0 < x.size)
    (issued : o < b.ordersNum) :
    ((b.bound o side).orderInsert (b.orders o).level o).Mirrors (withOwn q side (b.orders o).level x) none ∧
      ((b.bound o side).orderInsert (b.orders o).level o).ordersNum = b.ordersNum := by
  generalize hL : (b.orders o).level = L at *
  have empty : q side.other L = [] := by
    cases side with
    | buy => exact h.asks L (Nat.lt_of_not_le stops)
    | sell => exact h.bids L (Nat.lt_of_not_le stops)
  have held : (b.bound o side).Holds L (both q L) := (h.holds L).frame (by rw [bound_levels])
    (fun i _ => by rw [bound_orders]) (Nat.le_of_eq (bound_ordersNum b o side).symm)
  obtain ⟨linked, r⟩ := insert_linked held.linked (out L)
  have at' : both (withOwn q side L x) L = both q L ++ [x] := both_withOwn q side x empty
  have data : ∀ i, ((b.bound o side).orderInsert L o).orders i = { b.orders i with
      next := ((b.bound o side).orderInsert L o).next i, prev := ((b.bound o side).orderInsert L o).prev i } := by
    intro i
    rw [r.data i, bound_orders]
  obtain ⟨spread, ask_le, asks, bids⟩ := h.bound side hL x stops
  rw [← r.bestBid, ← r.bestAsk] at spread
  rw [← r.bestAsk] at ask_le asks
  rw [← r.bestBid] at bids
  refine ⟨⟨spread, ask_le, asks, bids, fun l hl => ?_, fun l => ?_, fun i _ hi => ?_⟩, ?_⟩
  · rw [withOwn_ne q x (.inr (by omega)), h.inside l hl]
  · by_cases here : l = L
    · subst here
      rw [at']
      refine ⟨?_, fun y hy => ?_⟩
      · rw [ids, List.map_append]
        exact is ▸ linked
      · rcases List.mem_append.1 hy with hy | hy
        · exact (held.kept y hy).relinks r
        · rw [List.mem_singleton] at hy
          subst hy
          refine ⟨?_, ?_, ?_, pos, ?_⟩
          · rw [data, is, trader]
          · rw [data, is, hL]
          · rw [data, is, size]
          · rw [r.ordersNum, bound_ordersNum, is]
            exact issued
    · rw [both_withOwn_ne q side x here]
      refine (h.holds l).frame ?_ (fun i hi => ?_) ?_
      · rw [r.levels l here, bound_levels]
      · rw [r.orders i, bound_orders]
        intro there
        rcases List.mem_append.1 there with there | there
        · exact here (h.level_unique hi there)
        · rw [List.mem_singleton] at there
          exact out l (there ▸ hi)
      · rw [r.ordersNum, bound_ordersNum]
  · have other : i ≠ o := by
      rintro rfl
      refine hi L ?_
      rw [at', ids, List.map_append, List.map_singleton, is]
      exact List.mem_append_right _ List.mem_cons_self
    rw [data]
    refine h.gone i (fun same => other (Option.some.inj same).symm) (fun l hl => ?_)
    by_cases here : l = L
    · subst here
      refine hi l ?_
      rw [at', ids, List.map_append]
      exact List.mem_append_left _ hl
    · exact hi l (both_withOwn_ne q side x here ▸ hl)
  · rw [r.ordersNum, bound_ordersNum]

/-! ## The calls -/

/-- The book refines the reference. -/
structure Refines (b : OrderBook) (r : Reference) : Prop where
  mirrors : b.Mirrors r.queues none
  issued : b.ordersNum = r.issued
  few : r.issued ≤ maxOrders

theorem init_refines : orderBookInit.Refines Reference.init where
  mirrors :=
    { spread := Nat.succ_pos _
      ask_le := Nat.le_refl _
      asks := fun _ _ => rfl
      bids := fun _ _ => rfl
      inside := fun _ _ => rfl
      holds := fun _ => ⟨Linked.nil _ _, fun _ hx => absurd hx List.not_mem_nil⟩
      gone := fun _ _ _ => rfl }
  issued := rfl
  few := Nat.zero_le _

/-- The book once an order was copied into the table. -/
theorem Mirrors.issue (h : b.Mirrors q none) (limit : Order) :
    OrderBook.Mirrors { b with orders := Function.update b.orders b.ordersNum limit, ordersNum := b.ordersNum + 1 } q
        (some b.ordersNum) ∧
      ∀ l, b.ordersNum ∉ ids (both q l) := by
  have out : ∀ l, b.ordersNum ∉ ids (both q l) := fun l hi => Nat.lt_irrefl _ ((h.holds l).issued hi)
  refine ⟨⟨h.spread, h.ask_le, h.asks, h.bids, h.inside, fun l => ?_, fun i ho hi => ?_⟩, out⟩
  · refine (h.holds l).frame rfl (fun i hi => ?_) (Nat.le_succ _)
    exact Function.update_of_ne (fun same : i = b.ordersNum => out l (same ▸ hi)) _ _
  · have other : i ≠ b.ordersNum := fun same => ho (same ▸ rfl)
    simp only [Function.update_of_ne other]
    exact h.gone i (nomatch ·) hi

/-- The prices behind the best one have no orders to meet. -/
theorem Mirrors.behind {c : Option Nat} (h : b.Mirrors q c) {side : Side} {p : Nat} (hp : Behind side (b.best side) p) :
    q side.other p = [] := by
  cases side with
  | buy => exact h.asks p hp
  | sell => exact h.bids p hp

theorem length_ahead (side : Side) {best level : Nat} (high : best ≤ maxLevel ∨ side = .buy) (inside : level ≤ maxLevel) :
    (ahead side best level).length < maxLevel + 2 := by
  cases side with
  | buy =>
    rw [ahead, List.length_range']
    omega
  | sell =>
    have := high.resolve_right (nomatch ·)
    rw [ahead, List.length_reverse, List.length_range']
    omega

/-- **`match`** trades as the reference does over all prices that the order may meet. -/
theorem match_meets {r : Reference} {side : Side} (h : b.Mirrors r.queues (some o)) (sided : (b.orders o).sideOf = side)
    (out : ∀ l, o ∉ ids (both r.queues l)) (few : b.ordersNum ≤ maxOrders) (issued : o < b.ordersNum)
    (pos : 0 < (b.orders o).level) (inside : (b.orders o).level ≤ maxLevel) (size : 0 < (b.orders o).size) {m}
    (hm : meet side (b.orders o).trader (prices side (b.orders o).level) (r.queues side.other) (b.orders o).size = m) :
    ∃ b', b.matchOrder o = some (m.1, b') ∧ b'.ordersNum = b.ordersNum ∧
      b'.Mirrors (r.rest side (b.orders o).level ⟨o, (b.orders o).trader, m.2.2⟩ m.2.1) none := by
  have spread := h.spread
  have ask_le := h.ask_le
  have low : 1 ≤ b.best side ∨ side = .sell := by cases side <;> simp only [best, reduceCtorEq, or_true, or_false]; omega
  have high : b.best side ≤ maxLevel ∨ side = .buy := by
    cases side <;> simp only [best, reduceCtorEq, or_true, or_false]
    omega
  obtain ⟨ps, split, behind⟩ := prices_split side low high inside
  rw [split, meet_skip side _ _ _ (fun p hp => h.behind (behind p hp))] at hm
  obtain ⟨c, run, t⟩ := through_meets side h rfl pos inside out size few (fun _ => rfl) rfl (length_ahead side high inside)
  rw [hm] at run t
  rw [matchOrder, sided]
  simp only [run]
  by_cases done : m.2.2 = 0
  · simp only [if_pos done]
    refine ⟨c, rfl, t.ordersNum, ?_⟩
    have same : r.rest side (b.orders o).level ⟨o, (b.orders o).trader, m.2.2⟩ m.2.1 = withOther r.queues side m.2.1 := by
      funext s
      simp only [Reference.rest, withOther, if_pos done]
    rw [same]
    refine { t.mirrors with gone := fun i _ hi => ?_ }
    by_cases here : i = o
    · rw [here, t.incoming, done]
    · exact t.mirrors.gone i (fun same => here (Option.some.inj same).symm) hi
  · simp only [if_neg done]
    have level : (c.orders o).level = (b.orders o).level := by rw [t.incoming]
    have stops : ¬ Crosses side (c.best side) (c.orders o).level := fun more => by
      have := (crosses_iff c o side).2 more
      rw [t.stops done] at this
      cases this
    obtain ⟨mirrors, issued'⟩ := t.mirrors.rests side (x := ⟨o, (b.orders o).trader, m.2.2⟩) t.out stops (level ▸ inside) rfl
      (by rw [t.incoming]) (by rw [t.incoming]) (Nat.pos_of_ne_zero done) (t.ordersNum ▸ issued)
    have same : r.rest side (b.orders o).level ⟨o, (b.orders o).trader, m.2.2⟩ m.2.1 =
        withOwn (withOther r.queues side m.2.1) side (b.orders o).level ⟨o, (b.orders o).trader, m.2.2⟩ := by
      funext s
      by_cases own : s = side <;> simp only [Reference.rest, withOwn, withOther, own, if_neg done, if_true, if_false]
    rw [same, ← level]
    exact ⟨_, by rw [level], issued'.trans t.ordersNum, mirrors⟩

/-- **`do_limit`** is the reference's. -/
theorem limit_refines {r : Reference} (h : b.Refines r) (limit : Order) :
    ∃ b', b.doLimit limit = some ((r.limit limit.sideOf limit.trader limit.level limit.size).1.1,
        (r.limit limit.sideOf limit.trader limit.level limit.size).1.2, b') ∧
      b'.Refines (r.limit limit.sideOf limit.trader limit.level limit.size).2 := by
  rw [doLimit, Reference.limit, h.issued]
  by_cases full : maxOrders ≤ r.issued
  · rw [if_pos full, if_pos (.inl full)]
    exact ⟨b, rfl, h⟩
  rw [if_neg full]
  by_cases outside : maxLevel < limit.level ∨ limit.level < 1
  · rw [if_pos outside, if_pos (.inr (by omega))]
    exact ⟨b, rfl, h⟩
  rw [if_neg outside]
  by_cases none : limit.size = 0
  · rw [if_pos none, if_pos (.inr (.inr (.inr none)))]
    exact ⟨b, rfl, h⟩
  rw [if_neg none, if_neg (by omega)]
  obtain ⟨mirrors, out⟩ := h.mirrors.issue limit
  have order : Function.update b.orders b.ordersNum limit b.ordersNum = limit := Function.update_self _ _ _
  have few := Nat.lt_of_not_le full
  rw [← h.issued] at few ⊢
  obtain ⟨b', run, issued, mirrors'⟩ := match_meets mirrors (show _ = limit.sideOf by simp only [order]) out few
    (Nat.lt_succ_self _) (by simp only [order]; omega) (by simp only [order]; omega)
    (by simp only [order]; exact Nat.pos_of_ne_zero none) (by simp only [order]; rfl)
  simp only [order] at mirrors'
  simp only [run]
  exact ⟨b', rfl, mirrors', issued, few⟩

/-- The resting orders are those in the queues. -/
theorem Mirrors.mem_resting {r : Reference} {c : Option Nat} (h : b.Mirrors r.queues c) (x : Resting) :
    x ∈ r.resting ↔ ∃ l, x ∈ both r.queues l := by
  rw [Reference.resting, List.mem_flatMap]
  constructor
  · rintro ⟨l, -, hx⟩
    exact ⟨l, hx⟩
  · rintro ⟨l, hx⟩
    refine ⟨l, List.mem_range.2 (Nat.lt_succ_of_le (Nat.le_of_not_lt fun high => ?_)), hx⟩
    have spread := h.spread
    have ask_le := h.ask_le
    rw [both, h.inside l high, h.bids l (by omega)] at hx
    cases hx

/-- What the table has left of an order is what rests of it. -/
theorem Refines.remaining {r : Reference} (h : b.Refines r) (i : Nat) : (b.orders i).size = r.remaining i := by
  rw [Reference.remaining]
  cases found : r.resting.find? fun x => x.id = i with
  | some x =>
    have same : x.id = i := by simpa using List.find?_some found
    obtain ⟨l, hx⟩ := (h.mirrors.mem_resting x).1 (List.mem_of_find?_eq_some found)
    exact same ▸ ((h.mirrors.holds l).kept x hx).size
  | none =>
    refine h.mirrors.gone i (nomatch ·) (fun l hi => ?_)
    obtain ⟨x, hx, same⟩ := mem_ids.1 hi
    have := List.find?_eq_none.1 found x ((h.mirrors.mem_resting x).2 ⟨l, hx⟩)
    exact this (decide_eq_true same)

/-- The queues without an order. -/
def without (q : Side → Nat → List Resting) (id : Nat) : Side → Nat → List Resting :=
  fun s l => (q s l).filter fun x => x.id ≠ id

theorem both_without (q : Side → Nat → List Resting) (id l : Nat) :
    both (without q id) l = (both q l).filter fun x => x.id ≠ id := (List.filter_append ..).symm

/-- A list without repetition, without one of its orders. -/
theorem filter_around {front back : List Resting} {x : Resting} (nodup : (ids (front ++ x :: back)).Nodup) :
    (front ++ x :: back).filter (fun y => y.id ≠ x.id) = front ++ back := by
  rw [ids, List.map_append, List.map_cons, List.nodup_middle, List.nodup_cons, ← List.map_append] at nodup
  have others : ∀ y ∈ front ++ back, y.id ≠ x.id := fun y hy same => nodup.1 (same ▸ List.mem_map_of_mem hy)
  rw [List.filter_append, List.filter_cons_of_neg (by simp), ← List.filter_append]
  exact List.filter_eq_self.2 fun y hy => decide_eq_true (others y hy)

/-- **An order is cancelled.** Wherever it is in its list, it is out of its queue. -/
theorem Mirrors.cancel (h : b.Mirrors q none) {id : Nat} (size : (b.orders id).size ≠ 0) :
    ((b.orderRemove (b.orders id).level id).setSize id 0).Mirrors (without q id) none ∧
      ((b.orderRemove (b.orders id).level id).setSize id 0).ordersNum = b.ordersNum := by
  obtain ⟨l, hl⟩ : ∃ l, id ∈ ids (both q l) := by
    by_contra out
    exact size (h.gone id (nomatch ·) (fun l hl => out ⟨l, hl⟩))
  obtain ⟨x, hx, rfl⟩ := mem_ids.1 hl
  have level := ((h.holds l).kept x hx).level
  obtain ⟨front, back, whole⟩ := List.append_of_mem hx
  have linked : b.LinkedAt l (ids front ++ x.id :: ids back) := by
    have := (h.holds l).linked
    rw [whole, ids, List.map_append] at this
    exact this
  have rest : both (without q x.id) l = front ++ back := by
    rw [both_without, whole]
    exact filter_around (whole ▸ (h.holds l).linked.nodup)
  have elsewhere : ∀ l', l' ≠ l → both (without q x.id) l' = both q l' := fun l' hl' => by
    rw [both_without]
    exact List.filter_eq_self.2 fun y hy =>
      decide_eq_true fun same => hl' (h.level_unique (mem_ids.2 ⟨y, hy, same⟩) hl)
  obtain ⟨linked', r⟩ := remove_linked linked
  rw [level]
  have ask : ((b.orderRemove l x.id).setSize x.id 0).bestAsk = b.bestAsk := r.bestAsk
  have bid : ((b.orderRemove l x.id).setSize x.id 0).bestBid = b.bestBid := r.bestBid
  have emptied : ∀ s l, q s l = [] → without q x.id s l = [] := fun s l none => by rw [without, none]; rfl
  refine ⟨⟨by rw [ask, bid]; exact h.spread, by rw [ask]; exact h.ask_le, fun l hl => ?_, fun l hl => ?_,
    fun l hl => emptied _ l (h.inside l hl), fun l' => ?_, fun i _ hi => ?_⟩, r.ordersNum⟩
  · exact emptied _ l (h.asks l (ask ▸ hl))
  · exact emptied _ l (h.bids l (bid ▸ hl))
  · by_cases here : l' = l
    · subst here
      rw [rest]
      refine ⟨?_, fun y hy => ?_⟩
      · rw [ids, List.map_append]
        exact linked'.frame rfl fun i _ => by rw [setSize_next, setSize_prev]; exact ⟨rfl, rfl⟩
      · have mem : y ∈ both (without q x.id) l' := rest ▸ hy
        rw [both_without, List.mem_filter] at mem
        refine (((h.holds l').kept y mem.1).relinks r).same ?_ (Nat.le_refl _)
        rw [setSize_orders, if_neg (of_decide_eq_true mem.2)]
    · rw [elsewhere l' here]
      refine (h.holds l').frame (r.levels l' here) (fun i hi => ?_) (Nat.le_of_eq r.ordersNum.symm)
      have other : ∀ j ∈ ids (both q l), i ≠ j := fun j hj same => here (h.level_unique hi (same ▸ hj))
      rw [setSize_orders, if_neg (other x.id hl), r.orders i]
      intro there
      refine other i ?_ rfl
      rw [whole, ids, List.map_append, List.map_cons]
      rcases List.mem_append.1 there with there | there
      · exact List.mem_append_left _ there
      · exact List.mem_append_right _ (List.mem_cons_of_mem _ there)
  · rw [setSize_orders]
    split
    · rfl
    · rename_i other
      rw [r.data i]
      refine h.gone i (nomatch ·) (fun l' hl' => hi l' ?_)
      obtain ⟨y, hy, rfl⟩ := mem_ids.1 hl'
      rw [both_without]
      exact mem_ids.2 ⟨y, List.mem_filter.2 ⟨hy, decide_eq_true other⟩, rfl⟩

/-- **`do_cancel`** is the reference's. -/
theorem cancel_refines {r : Reference} (h : b.Refines r) (id : Nat) :
    (b.doCancel id).1 = (r.cancel id).1.1 ∧ [] = (r.cancel id).1.2 ∧ (b.doCancel id).2.Refines (r.cancel id).2 := by
  rw [doCancel, Reference.cancel, ← h.remaining, h.issued]
  by_cases unknown : r.issued ≤ id
  · rw [if_pos (.inr unknown), if_pos (.inl unknown)]
    exact ⟨rfl, rfl, h⟩
  rw [if_neg (by omega)]
  by_cases none : (b.orders id).size = 0
  · rw [if_pos none, if_pos (.inr none)]
    exact ⟨rfl, rfl, h⟩
  rw [if_neg none, if_neg (fun either => either.elim unknown none)]
  obtain ⟨mirrors, issued⟩ := h.mirrors.cancel none
  exact ⟨rfl, rfl, mirrors, issued.trans h.issued, h.few⟩

/-- One call. -/
theorem call_refines {r : Reference} (h : b.Refines r) (c : Call) :
    ∃ b', b.call c = some ((r.call c).1, b') ∧ b'.Refines (r.call c).2 := by
  cases c with
  | limit order =>
    obtain ⟨b', run, h'⟩ := limit_refines h order
    rw [OrderBook.call, run]
    exact ⟨b', rfl, h'⟩
  | cancel id =>
    obtain ⟨ret, trades, h'⟩ := cancel_refines h id
    refine ⟨(b.doCancel id).2, ?_, h'⟩
    rw [OrderBook.call, ret, trades]
    rfl

/-- All calls. -/
theorem calls_refine {r : Reference} (h : b.Refines r) (cs : List Call) :
    ∃ b', b.calls cs = some ((r.calls cs).1, b') ∧ b'.Refines (r.calls cs).2 := by
  induction cs generalizing b r with
  | nil => exact ⟨b, rfl, h⟩
  | cons c cs ih =>
    obtain ⟨b', first, h'⟩ := call_refines h c
    obtain ⟨b'', others, h''⟩ := ih h'
    refine ⟨b'', ?_, h''⟩
    rw [OrderBook.calls, first]
    simp only [others]
    rfl

end

end OrderBook

/-- **Price-time priority.** Any sequence of calls on a new book returns what it returns from the
reference, reports the same trades, and leaves of every accepted order what rests of it there. -/
theorem price_time_priority (cs : List Call) :
    ∃ b, orderBookInit.calls cs = some ((Reference.init.calls cs).1, b) ∧
      b.ordersNum = (Reference.init.calls cs).2.issued ∧
      ∀ id, id < b.ordersNum → (b.orders id).size = (Reference.init.calls cs).2.remaining id := by
  obtain ⟨b, run, h⟩ := OrderBook.calls_refine OrderBook.init_refines cs
  exact ⟨b, run, h.issued, fun id _ => h.remaining id⟩

end Libtrading.Sim
