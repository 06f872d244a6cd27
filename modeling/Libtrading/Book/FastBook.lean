import Libtrading.Book.Feeds
import Libtrading.Book.OrderBook

/-!
# `fast_book.c`

Entries of increments and snapshots go to the books of a set, by security id
or by symbol. `fast_books_join` follows the increments until a snapshot
catches up with them; `fast_books_recover` joins all subscribed books again,
from the start whenever one of them fails.

`calloc` is what the allocator gives a book. What arrives is told turn by
turn, and a loop that is out of turns is still running. Beside what the source
returns, a function names the books it counted an entry in.
-/

namespace Libtrading.Book
set_option autoImplicit false
open Fast

/-- `struct fast_book`; its flags one by one. -/
structure FastBook where
  tick : Decimal
  ob : OrderBook
  session : Bytes
  symbol : Bytes
  rptseq : U64
  snpseq : U64
  subscribed : Bool
  active : Bool
  empty : Bool
  join : Bool
  secid : U64

/-- `struct fast_book_set`, less the mask of the books that changed. -/
structure FastBookSet where
  feeds : FeedSet
  snpFeeds : List Feed
  books : List FastBook

/-- The characters of a string field, up to the terminator. -/
def cstring (s : Bytes) : Bytes := s.takeWhile (· ≠ 0)

/-! ## Entries -/

def mulTen : Nat → I64 → I64
  | 0, m => m
  | n + 1, m => mulTen n (m * 10)

def divTen : Nat → I64 → Option I64
  | 0, m => some m
  | n + 1, m => if m.srem 10 ≠ 0 then none else divTen n (m.sdiv 10)

/-- `decimal_to_int`. -/
def decimalToInt (d : Decimal) : Option I64 :=
  if d.exp.toInt < 0 then none else some (mulTen d.exp.toInt.toNat d.mnt)

/-- `price_align`. -/
def priceAlign (price tick : Decimal) : Option Decimal :=
  if price.exp = tick.exp then some price
  else if tick.exp.toInt < price.exp.toInt then
    some ⟨tick.exp, mulTen (price.exp.toInt - tick.exp.toInt).toNat price.mnt⟩
  else (divTen (tick.exp.toInt - price.exp.toInt).toNat price.mnt).map fun m => ⟨tick.exp, m⟩

/-- What `md_increment` and `md_snapshot` read first. -/
inductive Entry where
  | bad
  | emptyBook
  | order (buy : Bool) (price size : I64)

/-- The size of an entry. -/
def entrySize : SizeValue → Option I64
  | .int v => some v
  | .decimal d => decimalToInt d
  | .other => none

/-- The type, the size and the price of an entry; an empty string starts with its terminator. -/
def readEntry (tick : Decimal) (md : MdEntry) : Entry :=
  match md.mdEntryType.get with
  | none => .bad
  | some type =>
    let first := type.headD 0
    if first = 'J'.toNat.toUInt8 then .emptyBook
    else if first ≠ '0'.toNat.toUInt8 ∧ first ≠ '1'.toNat.toUInt8 then .bad
    else
      match md.mdEntrySize.get.bind entrySize with
      | none => .bad
      | some size =>
        match md.mdEntryPx.get.bind (priceAlign · tick) with
        | none => .bad
        | some price => .order (first = '0'.toNat.toUInt8) price.mnt size

/-- `ob_level_modify` on a book: whether it succeeds. -/
def FastBook.modify (calloc : OrderBook → Option Addr) (book : FastBook) (order : ObOrder) : Bool × FastBook :=
  let r := book.ob.obLevelModify order (calloc book.ob)
  (r.1 = 0, { book with ob := r.2 })

/-- `ob_level_delete` on a book: whether it succeeds. -/
def FastBook.delete (book : FastBook) (order : ObOrder) : Bool × FastBook :=
  let r := book.ob.obLevelDelete order
  (r.1 = 0, { book with ob := r.2 })

section
variable (calloc : OrderBook → Option Addr)

/-- `md_increment`. -/
def mdIncrement (book : FastBook) (md : MdEntry) : Bool × FastBook :=
  match readEntry book.tick md with
  | .bad => (false, book)
  | .emptyBook => (true, { book with empty := true })
  | .order buy price size =>
    match md.mdUpdateAction.get with
    | none => (false, book)
    | some action =>
      if action = 0 ∨ action = 1 then book.modify calloc ⟨book.rptseq, price, size, buy⟩
      else if action = 2 then
        if book.active then book.delete ⟨book.rptseq, price, size, buy⟩
        else book.modify calloc ⟨book.rptseq, price, 0, buy⟩
      else (false, book)

/-- `md_snapshot`. -/
def mdSnapshot (book : FastBook) (md : MdEntry) : Bool × FastBook :=
  match readEntry book.tick md with
  | .bad => (false, book)
  | .emptyBook => (true, { book with empty := true })
  | .order buy price size =>
    match book.ob.obLevelLookup ⟨book.snpseq, price, size, buy⟩ with
    | none => book.modify calloc ⟨book.snpseq, price, size, buy⟩
    | some level =>
      if (book.ob.memory level).seqNum ≤ book.snpseq ∧ (book.ob.memory level).size ≠ size then (false, book)
      else (true, book)

/-! ## Routing -/

/-- `fast_book_by_id`. -/
def fastBookById (books : List FastBook) (secid : U64) : Option Nat := books.findIdx? fun b => b.secid = secid

/-- `fast_book_by_symbol`: the first book whose symbol the given one starts with. -/
def fastBookBySymbol (books : List FastBook) (symbol : Bytes) : Option Nat :=
  books.findIdx? fun b => b.symbol.isPrefixOf (cstring symbol)

/-- Where a message or an entry goes. -/
inductive Route where
  | fail
  | skip
  | book (i : Nat) (b : FastBook)

/-- The book of a message or an entry, if it `takes` it: by id or, where there is none, by symbol.
With a `dst`, only the book of the same id or symbol. -/
def route (books : List FastBook) (dst : Option FastBook) (takes : FastBook → Bool) (securityId : FieldRead U64)
    (symbol : FieldRead Bytes) : Route :=
  let found (i : Option Nat) (same : FastBook → FastBook → Bool) : Route :=
    match i with
    | none => .skip
    | some i =>
      match books[i]? with
      | none => .skip
      | some b =>
        if takes b = false then .skip
        else if (dst.all fun d => same d b) = false then .skip
        else .book i b
  match securityId with
  | .empty => .fail
  | .value id => found (fastBookById books id) fun d b => d.secid = b.secid
  | .missing =>
    match symbol.get with
    | none => .fail
    | some symbol => found (fastBookBySymbol books symbol) fun d b => d.symbol.isPrefixOf b.symbol

/-- The test of `TradingSessionID`, where there is one: `none` fails, `some false` skips. -/
def inSession (b : FastBook) (tradingSessionId : FieldRead Bytes) : Option Bool :=
  match tradingSessionId with
  | .missing => some true
  | .empty => none
  | .value v => some (b.session.isPrefixOf (cstring v))

/-! ## Increments -/

/-- What `apply_increment` returns and leaves, with the books whose `rptseq` it counted an entry in. -/
structure Applied where
  ok : Bool
  books : List FastBook
  fed : List Nat

/-- An entry with `RptSeq` `rptSeq` for a book. -/
def countEntry (b : FastBook) (rptSeq : U64) (md : MdEntry) : Bool × FastBook :=
  let b := if b.rptseq = 0 then { b with rptseq := rptSeq - 1 } else b
  let b := { b with rptseq := b.rptseq + 1 }
  if b.rptseq ≠ rptSeq then (false, b) else mdIncrement calloc { b with empty := false } md

/-- The loop of `apply_increment`. -/
def applyEntries (dst : Option FastBook) : List FastBook → List MdEntry → Applied
  | books, [] => ⟨true, books, []⟩
  | books, md :: mds =>
    match route books dst (fun b => b.active || b.join) md.securityId md.symbol with
    | .fail => ⟨false, books, []⟩
    | .skip => applyEntries dst books mds
    | .book i b =>
      match inSession b md.tradingSessionId with
      | none => ⟨false, books, []⟩
      | some false => applyEntries dst books mds
      | some true =>
        match md.rptSeq.get with
        | none => ⟨false, books, []⟩
        | some rptSeq =>
          let r := countEntry calloc b rptSeq md
          let books := books.set i r.2
          if r.1 = false then ⟨false, books, [i]⟩
          else
            let rest := applyEntries dst books mds
            { rest with fed := i :: rest.fed }

/-- `apply_increment`. -/
def applyIncrement (books : List FastBook) (dst : Option FastBook) (msg : MdMessage) : Applied :=
  match msg.mdEntries.get with
  | none => ⟨false, books, []⟩
  | some seq =>
    match seq.length.get with
    | none => ⟨false, books, []⟩
    | some n => applyEntries calloc dst books (seq.elements.take n.toNat)

/-! ## Snapshots -/

/-- The loop of `apply_snapshot`. -/
def snapshotEntries : FastBook → List MdEntry → Bool × FastBook
  | b, [] => (true, b)
  | b, md :: mds =>
    let r := mdSnapshot calloc b md
    if r.1 = false then (false, r.2) else snapshotEntries r.2 mds

/-- `apply_snapshot` once it is clear that the message is for a book: its number, its entries, and the
flag. -/
def snapshotBook (b : FastBook) (rptSeq : U64) (mds : List MdEntry) : Bool × FastBook :=
  let r := snapshotEntries calloc { b with snpseq := rptSeq, empty := false } mds
  if r.1 = false then (false, r.2)
  else if r.2.empty then (true, r.2)
  else (true, { r.2 with active := true })

/-- `apply_snapshot`. -/
def applySnapshot (books : List FastBook) (dst : Option FastBook) (msg : MdMessage) : Bool × List FastBook :=
  match route books dst (fun b => !b.active && b.join) msg.securityId msg.symbol with
  | .fail => (false, books)
  | .skip => (true, books)
  | .book i b =>
    match msg.mdEntries.get with
    | none => (false, books)
    | some seq =>
      match seq.length.get with
      | none => (false, books)
      | some n =>
        if n = 0 then (true, books)
        else
          match inSession b seq.running.tradingSessionId with
          | none => (false, books)
          | some false => (true, books)
          | some true =>
            match msg.rptSeq.get with
            | none => (false, books)
            | some rptSeq =>
              let r := snapshotBook calloc b rptSeq (seq.elements.take n.toNat)
              (r.1, books.set i r.2)

end

end Libtrading.Book
