import Libtrading.Fast.Parse
import Libtrading.Store.Glib

/-!
# `struct order_book`

The levels of one side are in a hash table and a tree, by price, and in a
list, in order of price. On LP64 `GUINT_TO_POINTER` keeps all 64 bits of a
price, so the hash table sees the whole price; `g_uint_compare` takes the low
32 bits out of the pointer, so the tree does not.
-/

namespace Libtrading.Book
open Store
open Fast (U64)
set_option autoImplicit false

/-- `struct ob_level`. -/
structure ObLevel where
  seqNum : U64
  price : U64
  size : U64
  deriving DecidableEq, Repr

/-- `struct ob_order`. -/
structure ObOrder where
  seqNum : U64
  price : U64
  size : U64
  buy : Bool
  deriving DecidableEq, Repr

/-- The address of a level. -/
abbrev Addr := Nat

/-- The three indexes of one side. -/
structure Index where
  hash : HashTable U64 Addr
  tree : Tree U64 Addr
  list : List Addr

/-- `struct order_book`, with the levels in memory and which of them are allocated. -/
structure OrderBook where
  bids : Index
  asks : Index
  memory : Addr → ObLevel
  live : Addr → Bool

/-- `g_uint_compare`. -/
def gUintCompare (pa pb : U64) : Int :=
  let a := pa.setWidth 32
  let b := pb.setWidth 32
  if a < b then -1 else if b < a then 1 else 0

/-- `g_level_compare`. -/
def gLevelCompare (memory : Addr → ObLevel) (pa pb : Addr) : Int :=
  if (memory pa).price < (memory pb).price then -1 else if (memory pb).price < (memory pa).price then 1 else 0

/-- `ob_init`. -/
def obInit : OrderBook where
  bids := ⟨fun _ => none, [], []⟩
  asks := ⟨fun _ => none, [], []⟩
  memory := fun _ => ⟨0, 0, 0⟩
  live := fun _ => false

namespace OrderBook

/-- The indexes an order is for. -/
def side (ob : OrderBook) (buy : Bool) : Index := if buy then ob.bids else ob.asks

def setSide (ob : OrderBook) (buy : Bool) (ix : Index) : OrderBook :=
  if buy then { ob with bids := ix } else { ob with asks := ix }

/-- A level once `calloc` gave it or `free` took it back. -/
def setLive (ob : OrderBook) (a : Addr) (live : Bool) : OrderBook :=
  { ob with live := Function.update ob.live a live }

def setLevel (ob : OrderBook) (a : Addr) (level : ObLevel) : OrderBook :=
  { ob with memory := Function.update ob.memory a level }

/-- `ob_level_lookup`. -/
def obLevelLookup (ob : OrderBook) (order : ObOrder) : Option Addr := (ob.side order.buy).hash order.price

/-- `ob_level_modify`, where `calloc` gives `calloc`. -/
def obLevelModify (ob : OrderBook) (order : ObOrder) (calloc : Option Addr) : Int × OrderBook :=
  let ix := ob.side order.buy
  match ix.hash order.price with
  | none =>
    match calloc with
    | none => (-1, ob)
    | some level =>
      let ob := (ob.setLive level true).setLevel level ⟨order.seqNum, order.price, order.size⟩
      (0, ob.setSide order.buy
        { hash := ix.hash.insert (ob.memory level).price level
          list := insertSorted (gLevelCompare ob.memory) level ix.list
          tree := ix.tree.insert gUintCompare (ob.memory level).price level })
  | some level =>
    if order.seqNum ≤ (ob.memory level).seqNum then (-1, ob)
    else (0, ob.setLevel level { ob.memory level with seqNum := order.seqNum, size := order.size })

/-- `ob_level_delete`; the hash table frees the level it removes. -/
def obLevelDelete (ob : OrderBook) (order : ObOrder) : Int × OrderBook :=
  let ix := ob.side order.buy
  match ix.hash order.price with
  | none => (0, ob)
  | some level =>
    let (found, hash) := ix.hash.remove order.price
    if found = false then (-1, ob)
    else
      let ob := ob.setLive level false
      let (found, tree) := ix.tree.remove gUintCompare order.price
      if found = false then (-1, ob.setSide order.buy { ix with hash := hash, tree := tree })
      else (0, ob.setSide order.buy { hash := hash, tree := tree, list := ix.list.erase level })

/-! ## Calls -/

/-- A call on the book, with what `calloc` gives it. -/
inductive Call where
  | modify (order : ObOrder) (calloc : Option Addr)
  | delete (order : ObOrder)
  | lookup (order : ObOrder)

/-- What a call returns; of a level, its sequence number and size. -/
inductive Out where
  | ret (r : Int)
  | level (l : Option (U64 × U64))
  deriving DecidableEq, Repr

def call (ob : OrderBook) : Call → Out × OrderBook
  | .modify order calloc => (.ret (ob.obLevelModify order calloc).1, (ob.obLevelModify order calloc).2)
  | .delete order => (.ret (ob.obLevelDelete order).1, (ob.obLevelDelete order).2)
  | .lookup order => (.level ((ob.obLevelLookup order).map fun a => ((ob.memory a).seqNum, (ob.memory a).size)), ob)

/-- `calloc` gives memory that nothing holds. -/
def Allocates (ob : OrderBook) : Call → Prop
  | .modify _ (some a) => ob.live a = false
  | _ => True

end OrderBook

/-! ## The map -/

/-- What the book is for: of every price of a side, the sequence number and the size of its level. -/
abbrev Levels := Bool → U64 → Option (U64 × U64)

namespace Levels

def set (m : Levels) (buy : Bool) (price : U64) (v : Option (U64 × U64)) : Levels :=
  Function.update m buy (Function.update (m buy) price v)

/-- Insert an absent price, overwrite with a larger sequence number, fail otherwise; with no memory to
insert, fail. -/
def modify (m : Levels) (order : ObOrder) (room : Bool) : Int × Levels :=
  match m order.buy order.price with
  | none => if room then (0, m.set order.buy order.price (some (order.seqNum, order.size))) else (-1, m)
  | some (seqNum, _) =>
    if seqNum < order.seqNum then (0, m.set order.buy order.price (some (order.seqNum, order.size))) else (-1, m)

def delete (m : Levels) (order : ObOrder) : Int × Levels := (0, m.set order.buy order.price none)

def call (m : Levels) : OrderBook.Call → OrderBook.Out × Levels
  | .modify order calloc => (.ret (m.modify order calloc.isSome).1, (m.modify order calloc.isSome).2)
  | .delete order => (.ret (m.delete order).1, (m.delete order).2)
  | .lookup order => (.level (m order.buy order.price), m)

end Levels

end Libtrading.Book
