import Mathlib.Algebra.Ring.Nat
import Mathlib.Algebra.Ring.Int.Defs
import Mathlib.Logic.Function.Basic

/-!
# The simulator's matching engine

`struct order_book` of the exchange simulator: a table of orders and one list
of resting orders per price level, which bids and asks share, linked through
the orders themselves. A pointer to an order is its index in the table.

The two branches of `match` differ in who buys and in which bound they move;
`sweep` is the loop over one level and `through` the loop over the levels,
both told by the side of the incoming order. A loop that is out of turns
gives nothing.
-/

namespace Libtrading.Sim
set_option autoImplicit false

/-- `MAX_ORDERS`. -/
def maxOrders : Nat := 10000

/-- `MAX_LEVEL`. -/
def maxLevel : Nat := 100

/-- `struct order`. -/
structure Order where
  trader : Nat
  level : Nat
  next : Option Nat
  prev : Option Nat
  side : Nat
  size : Nat
  deriving DecidableEq, Repr

/-- `struct level`. -/
structure Level where
  head : Option Nat
  tail : Option Nat
  deriving DecidableEq, Repr

/-- `struct order_book`, less its id and its code. -/
structure OrderBook where
  levels : Nat → Level
  orders : Nat → Order
  ordersNum : Nat
  bestAsk : Nat
  bestBid : Nat

/-- What `do_trade` reports. -/
structure Trade where
  buyer : Nat
  seller : Nat
  price : Nat
  size : Nat
  deriving DecidableEq, Repr

/-- `order->side`, of which only 0 buys. -/
inductive Side where
  | buy
  | sell
  deriving DecidableEq, Repr

def Order.sideOf (o : Order) : Side := if o.side = 0 then .buy else .sell

/-- `order_book_init`. -/
def orderBookInit : OrderBook where
  levels := fun _ => ⟨none, none⟩
  orders := fun _ => ⟨0, 0, none, none, 0, 0⟩
  ordersNum := 0
  bestAsk := maxLevel + 1
  bestBid := 0

namespace OrderBook

/-! ## Stores -/

def setHead (b : OrderBook) (l : Nat) (p : Option Nat) : OrderBook :=
  { b with levels := Function.update b.levels l { b.levels l with head := p } }

def setTail (b : OrderBook) (l : Nat) (p : Option Nat) : OrderBook :=
  { b with levels := Function.update b.levels l { b.levels l with tail := p } }

/-- A store through NULL, which no list asks for, is none. -/
def setNext (b : OrderBook) (at' : Option Nat) (p : Option Nat) : OrderBook :=
  match at' with
  | none => b
  | some i => { b with orders := Function.update b.orders i { b.orders i with next := p } }

def setPrev (b : OrderBook) (i : Nat) (p : Option Nat) : OrderBook :=
  { b with orders := Function.update b.orders i { b.orders i with prev := p } }

def setSize (b : OrderBook) (i n : Nat) : OrderBook :=
  { b with orders := Function.update b.orders i { b.orders i with size := n } }

/-- `order_insert`. -/
def orderInsert (b : OrderBook) (l o : Nat) : OrderBook :=
  let b :=
    if (b.levels l).head ≠ none then (b.setNext (b.levels l).tail (some o)).setPrev o (b.levels l).tail
    else (b.setHead l (some o)).setPrev o none
  (b.setTail l (some o)).setNext (some o) none

/-- `order_remove`. -/
def orderRemove (b : OrderBook) (l o : Nat) : OrderBook :=
  let prev := (b.orders o).prev
  let next := (b.orders o).next
  let b :=
    match prev with
    | none => b.setHead l next
    | some p => b.setNext (some p) next
  match next with
  | none => b.setTail l prev
  | some n => b.setPrev n prev

/-! ## Matching -/

/-- The trade of the incoming order `o` with the resting `h`. -/
def tradeOf (b : OrderBook) (side : Side) (price o h size : Nat) : Trade :=
  match side with
  | .buy => ⟨(b.orders o).trader, (b.orders h).trader, price, size⟩
  | .sell => ⟨(b.orders h).trader, (b.orders o).trader, price, size⟩

/-- The trade of a turn of `sweep`, and the sizes after it. -/
def turn (b : OrderBook) (side : Side) (l o h : Nat) : Trade × OrderBook :=
  let head := b.orders h
  let order := b.orders o
  if head.size < order.size then
    (b.tradeOf side l o h head.size, (b.setSize o (order.size - head.size)).setSize h 0)
  else
    (b.tradeOf side l o h order.size, (b.setSize h (head.size - order.size)).setSize o 0)

/-- The loop `while (head != NULL)` on the level `l`: the trades, whether it left for `done`, and the book. -/
def sweep (side : Side) (l o : Nat) : Nat → OrderBook → Option (List Trade × Bool × OrderBook)
  | 0, _ => none
  | turns + 1, b =>
    match (b.levels l).head with
    | none => some ([], false, b)
    | some h =>
      let (trade, b) := b.turn side l o h
      let b := if (b.orders h).size = 0 then b.orderRemove l h else b
      if (b.orders o).size = 0 then some ([trade], true, b)
      else
        match sweep side l o turns b with
        | none => none
        | some (trades, done, b) => some (trade :: trades, done, b)

/-- The best level of the other side. -/
def best (b : OrderBook) : Side → Nat
  | .buy => b.bestAsk
  | .sell => b.bestBid

/-- The condition of the loop over the levels. -/
def crosses (b : OrderBook) (o : Nat) : Side → Bool
  | .buy => b.bestAsk ≤ (b.orders o).level
  | .sell => (b.orders o).level ≤ b.bestBid

/-- The step of the loop over the levels. -/
def pass (b : OrderBook) : Side → OrderBook
  | .buy => { b with bestAsk := b.bestAsk + 1 }
  | .sell => { b with bestBid := b.bestBid - 1 }

/-- The loop over the levels of the other side: the trades, the book, and the level in the variable
`level` unless the loop left for `done`. -/
def through (side : Side) (o : Nat) : Nat → OrderBook → Nat → Option (List Trade × Option Nat × OrderBook)
  | 0, _, _ => none
  | turns + 1, b, level =>
    if b.crosses o side then
      match sweep side (b.best side) o (maxOrders + 1) b with
      | none => none
      | some (trades, true, swept) => some (trades, none, swept)
      | some (trades, false, swept) =>
        match through side o turns (swept.pass side) (b.best side) with
        | none => none
        | some (trades', level, b) => some (trades ++ trades', level, b)
    else some ([], some level, b)

/-- The bound of the order's own side, once it is to rest. -/
def bound (b : OrderBook) (o : Nat) : Side → OrderBook
  | .buy => if b.bestBid < (b.orders o).level then { b with bestBid := (b.orders o).level } else b
  | .sell => if (b.orders o).level < b.bestAsk then { b with bestAsk := (b.orders o).level } else b

/-- `match`. -/
def matchOrder (b : OrderBook) (o : Nat) : Option (List Trade × OrderBook) :=
  let side := (b.orders o).sideOf
  match through side o (maxLevel + 2) b (b.orders o).level with
  | none => none
  | some (trades, none, b) => some (trades, b)
  | some (trades, some level, b) => some (trades, (b.bound o side).orderInsert level o)

/-- `do_limit`: what it returns, the trades, and the book. -/
def doLimit (b : OrderBook) (limit : Order) : Option (Int × List Trade × OrderBook) :=
  if maxOrders ≤ b.ordersNum then some (-1, [], b)
  else if maxLevel < limit.level ∨ limit.level < 1 then some (-1, [], b)
  else if limit.size = 0 then some (-1, [], b)
  else
    let order := b.ordersNum
    let b := { b with orders := Function.update b.orders order limit, ordersNum := b.ordersNum + 1 }
    match b.matchOrder order with
    | none => none
    | some (trades, b) => some (0, trades, b)

/-- `do_cancel`. -/
def doCancel (b : OrderBook) (id : Nat) : Int × OrderBook :=
  if b.ordersNum = 0 ∨ b.ordersNum ≤ id then (-1, b)
  else if (b.orders id).size = 0 then (-1, b)
  else (0, (b.orderRemove (b.orders id).level id).setSize id 0)

end OrderBook

/-! ## Sequences of calls -/

inductive Call where
  | limit (order : Order)
  | cancel (id : Nat)

/-- One call: what it returns and the trades it reports, and the book. -/
def OrderBook.call (b : OrderBook) : Call → Option ((Int × List Trade) × OrderBook)
  | .limit order =>
    match b.doLimit order with
    | none => none
    | some (ret, trades, b) => some ((ret, trades), b)
  | .cancel id => some (((b.doCancel id).1, []), (b.doCancel id).2)

/-- A sequence of calls. -/
def OrderBook.calls (b : OrderBook) : List Call → Option (List (Int × List Trade) × OrderBook)
  | [] => some ([], b)
  | c :: cs =>
    match b.call c with
    | none => none
    | some (out, b) =>
      match b.calls cs with
      | none => none
      | some (outs, b) => some (out :: outs, b)

end Libtrading.Sim
