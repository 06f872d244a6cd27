import Libtrading.Book.FastBook

/-!
# Joining and recovering

One turn of the loop of `fast_books_join` polls the increments, then the
snapshots until the right one is there, and applies it once the increments
have caught up. What the environment decides is in `Turn` and `Joining`;
`Event` is what a run of `fast_books_recover` does to its books, in order.
-/

namespace Libtrading.Book
set_option autoImplicit false
open Fast

/-- What `recv_snapshot` returns and leaves: 0 or -1, the feed, `*next`. -/
structure RecvSnapshot where
  ok : Bool
  feed : Feed
  next : Option MdMessage

/-- `recv_snapshot`. -/
def recvSnapshot (arrived : Bool) (feed : Feed) : RecvSnapshot :=
  match feed.fastFeedRecv arrived with
  | (none, feed) => ⟨true, feed, none⟩
  | (some msg, feed) =>
    if msg.flagReset then ⟨true, feed, none⟩
    else
      match msg.type with
      | some .sessionStatus | some .sequenceReset | some .heartbeat => ⟨true, feed, none⟩
      | some .snapshotRefresh => ⟨true, feed, some msg⟩
      | _ => ⟨false, feed, none⟩

/-- `next_snapshot` on the feeds with what has arrived on them: whether it succeeds, the feeds, `*next`. -/
def nextSnapshot (next : Option MdMessage) : List (Bool × Feed) → Bool × List Feed × Option MdMessage
  | [] => (true, [], next)
  | (arrived, feed) :: rest =>
    let r := recvSnapshot arrived feed
    if r.ok = false then (false, r.feed :: rest.map (·.2), next)
    else
      let (ok, feeds, next) := nextSnapshot (keepFirst next r.next) rest
      (ok, r.feed :: feeds, next)

/-- What has arrived on the feeds at a turn. -/
structure Turn where
  incArrived : Nat → Bool
  snpArrived : Nat → Bool

/-- What the environment decides of one `fast_books_join`: what the snapshot feed will deliver once it is
open, or that it cannot be opened; the turns of the loop; whether the feed can be closed. -/
structure Joining where
  opened : Option (List MdMessage)
  turns : List Turn
  closes : Bool

/-- The variables of `fast_books_join`. -/
structure JoinState where
  set : FastBookSet
  snpMsg : Option MdMessage
  snpReceived : Bool
  msgNumInit : U64
  msgNumCur : U64

namespace FastBookSet

/-- A book of the set, changed. -/
def modifyBook (s : FastBookSet) (k : Nat) (f : FastBook → FastBook) : FastBookSet := { s with books := s.books.modify k f }

/-- `fast_feed_open(set->snp_feeds)`: the first snapshot feed. -/
def openSnapshots (s : FastBookSet) (waiting : List MdMessage) : FastBookSet :=
  { s with snpFeeds := s.snpFeeds.modify 0 fun f => { f with waiting := waiting } }

end FastBookSet

section
variable (calloc : OrderBook → Option Addr)

/-- The increment of a turn: whether the join goes on, and the books an entry was counted in. -/
def joinIncrement (s : JoinState) (next : NextIncrement) : Bool × JoinState × List Nat :=
  let s := { s with set := { s.set with feeds := next.set } }
  if next.ok = false then (false, s, [])
  else
    match next.next with
    | none => (true, s, [])
    | some msg =>
      let a := applyIncrement calloc s.set.books none msg
      let s := { s with set := { s.set with books := a.books } }
      if a.ok = false then (false, s, a.fed)
      else
        match msg.msgSeqNum.get with
        | none => (false, s, a.fed)
        | some num =>
          (true, { s with msgNumCur := num, msgNumInit := if s.msgNumInit = 0 then num else s.msgNumInit }, a.fed)

/-- Whether a snapshot is for the book that is being joined: `none` fails. -/
def snapshotFor (books : List FastBook) (book : FastBook) (msg : MdMessage) : Option Bool :=
  match msg.securityId with
  | .empty => none
  | .value id =>
    match (fastBookById books id).bind (books[·]?) with
    | none => some false
    | some sbook => some (book.secid = sbook.secid)
  | .missing =>
    match msg.symbol.get with
    | none => none
    | some symbol =>
      match (fastBookBySymbol books symbol).bind (books[·]?) with
      | none => some false
      | some sbook => some (sbook.symbol = book.symbol)

/-- The snapshot of a turn: whether the join goes on. -/
def joinSnapshot (k : Nat) (s : JoinState) (msg : MdMessage) : Bool × JoinState :=
  match s.set.books[k]? with
  | none => (false, s)
  | some book =>
    match snapshotFor s.set.books book msg with
    | none => (false, s)
    | some false => (true, s)
    | some true =>
      match msg.lastMsgSeqNumProcessed.get with
      | none => (false, s)
      | some last =>
        if s.msgNumInit = 0 then (true, s)
        else if last < s.msgNumInit then (true, s)
        else
          let s := { s with snpReceived := true }
          if s.msgNumCur < last then (true, s)
          else
            let r := applySnapshot calloc s.set.books (some book) msg
            let s := { s with set := { s.set with books := r.2 } }
            if r.1 = false then (false, s)
            else (true, { s with snpReceived := !(s.set.books[k]?.any (·.empty)) })

/-- The poll of the snapshot feeds, until the snapshot is received. -/
def pollSnapshots (t : Turn) (s : JoinState) : Bool × JoinState :=
  if s.snpReceived then (true, s)
  else
    let (ok, feeds, next) := nextSnapshot none (s.set.snpFeeds.mapIdx fun i f => (t.snpArrived i, f))
    (ok, { s with set := { s.set with snpFeeds := feeds }, snpMsg := next })

/-- One turn of the loop of `fast_books_join`. -/
def joinTurn (k : Nat) (t : Turn) (s : JoinState) : Bool × JoinState × List Nat :=
  let (ok, s, fed) := joinIncrement calloc s (s.set.feeds.nextIncrement t.incArrived)
  if ok = false then (false, s, fed)
  else
    let (ok, s) := pollSnapshots t s
    if ok = false then (false, s, fed)
    else
      match s.snpMsg with
      | none => (true, s, fed)
      | some msg =>
        let (ok, s) := joinSnapshot calloc k s msg
        (ok, s, fed)

/-- How a loop ended: its condition, the failing exit, or not yet. -/
inductive Ended where
  | done
  | failed
  | running
  deriving DecidableEq, Repr

/-- The loop of `fast_books_join`. -/
def joinLoop (k : Nat) : List Turn → JoinState → Ended × JoinState × List Nat
  | ts, s =>
    if s.set.books[k]?.any (·.active) then (.done, s, [])
    else
      match ts with
      | [] => (.running, s, [])
      | t :: ts =>
        match joinTurn calloc k t s with
        | (false, s, fed) => (.failed, s, fed)
        | (true, s, fed) =>
          let (ended, s, fed') := joinLoop k ts s
          (ended, s, fed ++ fed')

end

/-- The levels of a side without a size are deleted, one after the other. -/
def dropEmpty (buy : Bool) : List Addr → OrderBook → Bool × OrderBook
  | [], ob => (true, ob)
  | a :: as, ob =>
    if (ob.memory a).size ≠ 0 then dropEmpty buy as ob
    else
      let r := ob.obLevelDelete ⟨0, (ob.memory a).price, 0, buy⟩
      if r.1 ≠ 0 then (false, r.2) else dropEmpty buy as r.2

/-- The levels without a size are deleted from both sides of a book. -/
def FastBook.dropEmpty (b : FastBook) : Bool × FastBook :=
  let (ok, ob) := Book.dropEmpty false b.ob.asks.list b.ob
  if ok = false then (false, { b with ob := ob })
  else
    let (ok, ob) := Book.dropEmpty true ob.bids.list ob
    (ok, { b with ob := ob })

/-- `fast_books_join` on the book `k`: how it ended, the set, and the books an entry was counted in. -/
def fastBooksJoin (calloc : OrderBook → Option Addr) (set : FastBookSet) (k : Nat) (j : Joining) :
    Ended × FastBookSet × List Nat :=
  match j.opened with
  | none => (.failed, set, [])
  | some waiting =>
    let set := (set.openSnapshots waiting).modifyBook k fun b => { b with active := false, join := true }
    match joinLoop calloc k j.turns ⟨set, none, false, 0, 0⟩ with
    | (.failed, s, fed) => (.failed, s.set, fed)
    | (.running, s, fed) => (.running, s.set, fed)
    | (.done, s, fed) =>
      match s.set.books[k]? with
      | none => (.failed, s.set, fed)
      | some b =>
        let r := b.dropEmpty
        if r.1 = false then (.failed, s.set.modifyBook k fun _ => r.2, fed)
        else
          let set := s.set.modifyBook k fun _ => { r.2 with join := false }
          (if j.closes then .done else .failed, set, fed)

/-! ## Recovery -/

/-- `fast_book_clear`; the constructors of GLib that `ob_init` calls do not fail. -/
def FastBook.clear (b : FastBook) : FastBook := { b with ob := obInit, rptseq := 0, snpseq := 0 }

/-- What a run of `fast_books_recover` does: a retry begins, a book is cleared, an entry is counted in a
book, the join of a book fails with the book still marked. -/
inductive Event where
  | retry
  | clears (k : Nat)
  | feeds (k : Nat)
  | abandons (k : Nat)
  deriving DecidableEq, Repr

/-- The start of a retry. -/
def FastBookSet.restart (s : FastBookSet) : FastBookSet where
  feeds := ⟨⟨0, false⟩, s.feeds.incFeeds.map fun f => { f with recvNum := 0 }⟩
  snpFeeds := s.snpFeeds
  books := s.books.map fun b => { b with active := false }

section
variable (calloc : OrderBook → Option Addr)

/-- The second loop of `fast_books_recover` from the books `ks` on, with what the environment decides of
the joins. -/
def joinBooks (set : FastBookSet) : List Nat → List Joining → Ended × FastBookSet × List Event
  | [], _ => (.done, set, [])
  | k :: ks, js =>
    if set.books[k]?.any (·.subscribed) = false then joinBooks set ks js
    else
      match js with
      | [] => (.running, set, [])
      | j :: js =>
        match fastBooksJoin calloc (set.modifyBook k FastBook.clear) k j with
        | (.done, set, fed) =>
          let (ended, set, events) := joinBooks set ks js
          (ended, set, .clears k :: fed.map .feeds ++ events)
        | (.failed, set, fed) =>
          let abandoned := if set.books[k]?.any (·.join) then [.abandons k] else []
          (.failed, set, .clears k :: fed.map .feeds ++ abandoned)
        | (.running, set, fed) => (.running, set, .clears k :: fed.map .feeds)

/-- `fast_books_recover`, with what the environment decides of the joins of each retry. -/
def fastBooksRecover (set : FastBookSet) : List (List Joining) → Ended × FastBookSet × List Event
  | [] => (.running, set, [])
  | js :: rest =>
    match joinBooks calloc set.restart (List.range set.books.length) js with
    | (.failed, set, events) =>
      let (ended, set, events') := fastBooksRecover set rest
      (ended, set, .retry :: events ++ events')
    | (ended, set, events) => (ended, set, .retry :: events)

/-! ## The calls -/

/-- `fast_books_subscribe` of the book `k`. -/
def fastBooksSubscribe (set : FastBookSet) (k : Nat) (j : Joining) : Ended × FastBookSet :=
  match fastBooksJoin calloc set k j with
  | (.done, set, _) => (.done, set.modifyBook k fun b => { b with subscribed := true })
  | (ended, set, _) => (ended, set)

/-- `fast_books_update`, with what has arrived on the increment feeds and, if it comes to a recovery, what the
environment decides of that. -/
def fastBooksUpdate (set : FastBookSet) (arrived : Nat → Bool) (attempts : List (List Joining)) : Ended × FastBookSet :=
  let next := set.feeds.nextIncrement arrived
  let set := { set with feeds := next.set }
  if next.ok = false then
    match fastBooksRecover calloc set attempts with
    | (ended, set, _) => (ended, set)
  else
    match next.next with
    | none => (.done, set)
    | some msg =>
      let a := applyIncrement calloc set.books none msg
      (if a.ok then .done else .failed, { set with books := a.books })

end

end Libtrading.Book
