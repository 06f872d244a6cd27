import Libtrading.Sim.Engine

/-!
# The reference engine

What a price-time priority engine is: one queue of resting orders per side and
price, the oldest first. An incoming order meets the best price of the other
side first, and what is left of it rests behind the orders of its own price.
-/

namespace Libtrading.Sim
set_option autoImplicit false

/-- An order in a queue. -/
structure Resting where
  id : Nat
  trader : Nat
  size : Nat
  deriving DecidableEq, Repr

structure Reference where
  queues : Side → Nat → List Resting
  issued : Nat

def Side.other : Side → Side
  | .buy => .sell
  | .sell => .buy

/-- The prices that an order meets, the best one first. -/
def prices : Side → Nat → List Nat
  | .buy, level => List.range' 1 level
  | .sell, level => (List.range' level (maxLevel + 1 - level)).reverse

/-- The trade of an incoming order with a resting one. -/
def tradeWith (side : Side) (trader price : Nat) (x : Resting) (size : Nat) : Trade :=
  match side with
  | .buy => ⟨trader, x.trader, price, size⟩
  | .sell => ⟨x.trader, trader, price, size⟩

/-- An order of size `n` against one queue: the trades, the queue after them, and what is left of the order. -/
def consume (side : Side) (trader price : Nat) : List Resting → Nat → List Trade × List Resting × Nat
  | [], n => ([], [], n)
  | x :: q, n =>
    if n = 0 then ([], x :: q, 0)
    else if n < x.size then ([tradeWith side trader price x n], { x with size := x.size - n } :: q, 0)
    else
      let (trades, q, left) := consume side trader price q (n - x.size)
      (tradeWith side trader price x x.size :: trades, q, left)

/-- An order of size `n` against the queues at `ps`, one after the other. -/
def meet (side : Side) (trader : Nat) : List Nat → (Nat → List Resting) → Nat →
    List Trade × (Nat → List Resting) × Nat
  | [], q, n => ([], q, n)
  | p :: ps, q, n =>
    let (trades, rest, left) := consume side trader p (q p) n
    let (trades', q, left) := meet side trader ps (Function.update q p rest) left
    (trades ++ trades', q, left)

namespace Reference

def init : Reference := ⟨fun _ _ => [], 0⟩

/-- All resting orders. -/
def resting (r : Reference) : List Resting :=
  (List.range (maxLevel + 1)).flatMap fun l => r.queues .buy l ++ r.queues .sell l

/-- The resting quantity of an order. -/
def remaining (r : Reference) (id : Nat) : Nat :=
  match r.resting.find? fun x => x.id = id with
  | none => 0
  | some x => x.size

/-- The queues once an order met the ones of the other side and rests with what is left. -/
def rest (r : Reference) (side : Side) (level : Nat) (x : Resting) (others : Nat → List Resting) :
    Side → Nat → List Resting :=
  fun s =>
    if s = side then
      if x.size = 0 then r.queues s else Function.update (r.queues s) level (r.queues s level ++ [x])
    else others

def limit (r : Reference) (side : Side) (trader level size : Nat) : (Int × List Trade) × Reference :=
  if maxOrders ≤ r.issued ∨ maxLevel < level ∨ level < 1 ∨ size = 0 then ((-1, []), r)
  else
    let (trades, others, left) := meet side trader (prices side level) (r.queues side.other) size
    ((0, trades), ⟨r.rest side level ⟨r.issued, trader, left⟩ others, r.issued + 1⟩)

def cancel (r : Reference) (id : Nat) : (Int × List Trade) × Reference :=
  if r.issued ≤ id ∨ r.remaining id = 0 then ((-1, []), r)
  else ((0, []), { r with queues := fun s l => (r.queues s l).filter fun x => x.id ≠ id })

def call (r : Reference) : Call → (Int × List Trade) × Reference
  | .limit order => r.limit order.sideOf order.trader order.level order.size
  | .cancel id => r.cancel id

def calls (r : Reference) : List Call → List (Int × List Trade) × Reference
  | [] => ([], r)
  | c :: cs =>
    let (out, r) := r.call c
    let (outs, r) := r.calls cs
    (out :: outs, r)

end Reference

end Libtrading.Sim
