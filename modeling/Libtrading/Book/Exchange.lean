import Libtrading.Book.Decimals
import Libtrading.Book.Emptied
import Libtrading.Store.CatchUp

/-!
# The exchange behind the messages

What a book of the set is to be is not in the messages but at the exchange: it has a book for every
instrument, changes it level by level, and numbers the messages that carry the changes. A snapshot shows the
book behind one of these messages. The levels of a book are compared with that.
-/

namespace Libtrading.Book
set_option autoImplicit false
open Fast OrderBook

/-! ## Instruments -/

/-- What a book of the set is configured with; no call changes it. -/
structure Instrument where
  tick : Decimal
  session : Bytes
  symbol : Bytes
  secid : U64
  deriving DecidableEq, Repr

def FastBook.instrument (b : FastBook) : Instrument := ⟨b.tick, b.session, b.symbol, b.secid⟩

/-- The book that an id, or a symbol where there is none, leads to: the scans of `fast_book_by_id` and
`fast_book_by_symbol`. -/
def leads (instruments : List Instrument) (securityId : FieldRead U64) (symbol : FieldRead Bytes) : Option Nat :=
  match securityId with
  | .value id => instruments.findIdx? fun i => i.secid = id
  | .empty => none
  | .missing => symbol.get.bind fun s => instruments.findIdx? fun i => i.symbol.isPrefixOf (cstring s)

/-! ## Changes -/

/-- A change of a book at the exchange: the size of the level at a price, or no level there. -/
structure Change where
  buy : Bool
  price : U64
  size : Option U64
  deriving DecidableEq, Repr

/-- A price of 32 bits, and a level with a size. -/
structure Change.Proper (c : Change) : Prop where
  price : c.price.toNat < 2 ^ 32
  size : c.size ≠ some 0

namespace Sent

def apply (sent : Sent) (c : Change) : Sent := sent.set c.buy c.price c.size

/-- The levels have prices of 32 bits, and sizes. -/
structure Proper (sent : Sent) : Prop where
  price : ∀ buy price, sent buy price ≠ none → price.toNat < 2 ^ 32
  size : ∀ buy price, sent buy price ≠ some 0

theorem Proper.apply {sent : Sent} (h : sent.Proper) {c : Change} (proper : c.Proper) : (sent.apply c).Proper := by
  have at' (buy : Bool) (price : U64) : sent.apply c buy price = sent buy price ∨
      (price = c.price ∧ sent.apply c buy price = c.size) := by
    rw [Sent.apply, Sent.set]
    by_cases side : buy = c.buy
    · subst side
      rw [Function.update_self]
      by_cases here : price = c.price
      · rw [here, Function.update_self]
        exact .inr ⟨rfl, rfl⟩
      · rw [Function.update_of_ne here]
        exact .inl rfl
    · rw [Function.update_of_ne side]
      exact .inl rfl
  refine ⟨fun buy price there => ?_, fun buy price => ?_⟩
  · rcases at' buy price with old | ⟨rfl, -⟩
    · exact h.price buy price (old ▸ there)
    · exact proper.price
  · rcases at' buy price with old | ⟨-, new⟩
    · rw [old]
      exact h.size buy price
    · rw [new]
      exact proper.size

theorem Proper.applyAll {sent : Sent} (h : sent.Proper) {cs : List Change} (proper : ∀ c ∈ cs, c.Proper) :
    (cs.foldl Sent.apply sent).Proper := by
  induction cs generalizing sent with
  | nil => exact h
  | cons c cs ih =>
    obtain ⟨first, rest⟩ := List.forall_mem_cons.1 proper
    exact ih (h.apply first) rest

end Sent

/-! ## What the messages say -/

/-- The number of a size field. -/
def SizeValue.Is (z : SizeValue) (size : U64) : Prop :=
  match z with
  | .int v => v.toInt = size.toNat
  | .decimal d => toRat d = size.toNat
  | .other => False

/-- An entry for the level of a side at a price, counted in ticks. -/
structure MdEntry.At (md : MdEntry) (tick : Decimal) (buy : Bool) (price : U64) : Prop where
  side : ∃ v, md.mdEntryType = .value v ∧ v.headD 0 = (if buy then '0' else '1').toNat.toUInt8
  price : ∃ d, md.mdEntryPx = .value d ∧ toRat d = price.toNat * 10 ^ tick.exp.toInt

/-- The size of an entry. -/
def MdEntry.Sized (md : MdEntry) (size : U64) : Prop := ∃ z, md.mdEntrySize = .value z ∧ z.Is size

/-- An entry of an increment carries a change: `MDUpdateAction` is 0 or 1 with a size, or 2. -/
structure Carries (i : Instrument) (c : Change) (md : MdEntry) : Prop where
  at' : md.At i.tick c.buy c.price
  session : md.tradingSessionId = .missing ∨ ∃ v, md.tradingSessionId = .value v ∧ i.session <+: cstring v
  removes : c.size = none → md.mdUpdateAction = .value 2
  sets : ∀ size, c.size = some size → (md.mdUpdateAction = .value 0 ∨ md.mdUpdateAction = .value 1) ∧ md.Sized size

/-! ## The exchange -/

/-- The exchange: the instruments of the books of a set, its numbered messages, the changes that each makes to
each book, and the books before the first of them. -/
structure Exchange where
  instruments : List Instrument
  messages : Nat → MdMessage
  changes : Nat → Nat → List Change
  start : Nat → Sent

namespace Exchange
variable (ex : Exchange)

/-- The book `k` behind message `n`. -/
def book (k : Nat) : Nat → Sent
  | 0 => ex.start k
  | n + 1 => (ex.changes k (n + 1)).foldl Sent.apply (book k n)

/-- The entries of message `n` that lead to the book `k`. -/
def entriesFor (k n : Nat) : List MdEntry :=
  (ex.messages n).entries.filter fun md => leads ex.instruments md.securityId md.symbol = some k

/-- The messages send the book `k`: the entries of a refresh that lead to it carry its changes, in order, and
no other message changes it. -/
structure Sends (k : Nat) (i : Instrument) : Prop where
  carries : ∀ n, (ex.messages n).isIncrement = true → List.Forall₂ (Carries i) (ex.changes k n) (ex.entriesFor k n)
  silent : ∀ n, (ex.messages n).isIncrement = false → ex.changes k n = []
  proper : ∀ n, ∀ c ∈ ex.changes k n, c.Proper
  start : (ex.start k).Proper

/-- A snapshot lists the levels of a book: each of its entries is one, and each has an entry. -/
structure Lists (i : Instrument) (sent : Sent) (mds : List MdEntry) : Prop where
  levels : ∀ md ∈ mds, ∃ buy price size, sent buy price = some size ∧ md.At i.tick buy price ∧ md.Sized size
  all : ∀ buy price, sent buy price ≠ none → ∃ md ∈ mds, md.At i.tick buy price

/-- A snapshot that leads to a book lists its levels behind the message `LastMsgSeqNumProcessed`; no other book has
the id or the symbol of that book. -/
structure Shows (msg : MdMessage) : Prop where
  lists : ∀ k i last, leads ex.instruments msg.securityId msg.symbol = some k → ex.instruments[k]? = some i →
    msg.lastMsgSeqNumProcessed = .value last → Lists i (ex.book k last.toNat) msg.entries
  one : ∀ k i, leads ex.instruments msg.securityId msg.symbol = some k → ex.instruments[k]? = some i →
    ∀ l j, ex.instruments[l]? = some j → (msg.securityId = .missing → j.symbol = i.symbol) →
      (msg.securityId ≠ .missing → j.secid = i.secid) → l = k

/-- The book `k` behind some message from `first` to `last`. -/
def past (k first last : Nat) (sent : Sent) : Prop := ∃ n, first ≤ n ∧ n ≤ last ∧ sent = ex.book k n

/-- The books of an exchange are proper. -/
theorem book_proper {k : Nat} {i : Instrument} (sends : ex.Sends k i) (n : Nat) : (ex.book k n).Proper := by
  induction n with
  | zero => exact sends.start
  | succ n ih => exact ih.applyAll (sends.proper (n + 1))

end Exchange

end Libtrading.Book
