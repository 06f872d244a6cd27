import Libtrading.Book.Joined

/-!
# The books converge

A set is configured, opened, and asked for books; then it is updated, and recovers whenever the feed has lost
something. Behind every call that succeeded each book that was asked for is the one at the exchange, behind the last
message the set has got to, whatever was lost on the way.
-/

namespace Libtrading.Book
set_option autoImplicit false
open Fast OrderBook Store

/-- What the environment decides of a join: the snapshots that come are of books of the exchange. -/
def Joining.Shows (ex : Exchange) (j : Joining) : Prop := ∀ waiting, j.opened = some waiting → ∀ msg ∈ waiting, ex.Shows msg

/-- The book is subscribed. -/
def Subscribed (books : List FastBook) (k : Nat) : Prop := ∃ b, books[k]? = some b ∧ b.subscribed = true

section
variable {ex : Exchange} {calloc : OrderBook → Option Addr} {idle which : Nat → Prop} {k : Nat} {set : FastBookSet}

theorem subscribed_same {books books' : List FastBook} (same : books'.map (·.subscribed) = books.map (·.subscribed))
    (k : Nat) : Subscribed books' k ↔ Subscribed books k := by
  have at' := congrArg (·[k]? = some true) same
  simp only [List.getElem?_map, Option.map_eq_some_iff] at at'
  exact Iff.of_eq at'

/-! ## The recovery -/

/-- A subsequence from a later message on. -/
theorem Subsequence.weaken {stream : Nat → MdMessage} {n n' : Nat} {ms : List MdMessage} (h : Subsequence stream n ms)
    (le : n' ≤ n) : Subsequence stream n' ms := by
  induction h generalizing n' with
  | nil => exact .nil
  | reset flag _ ih => exact .reset flag (ih le)
  | next later bound rest _ => exact .next (Nat.lt_of_le_of_lt le later) bound rest

/-- A retry begins behind no message, and nothing is behind it. -/
theorem Served.restart (h : Served ex idle set) : Served ex idle set.restart := by
  refine ⟨?_, ?_, h.snapshots, fun l quiet b' there => ?_⟩
  · obtain ⟨f, feeds, follows⟩ := h.feed
    refine ⟨{ f with recvNum := 0 }, ?_, ?_, fun _ => rfl⟩
    · simp only [FastBookSet.restart, feeds, List.map_cons, List.map_nil]
    · exact follows.behind.weaken (Nat.zero_le _)
  · rw [← h.configured]
    simp only [FastBookSet.restart, List.map_map]
    rfl
  · rw [FastBookSet.restart, List.getElem?_map] at there
    obtain ⟨b, here, rfl⟩ := Option.map_eq_some_iff.1 there
    obtain ⟨unmarked, empty⟩ := h.idle l quiet b here
    refine ⟨fun marked => ?_, empty⟩
    rcases marked with active | join
    · cases active
    · exact unmarked (.inr join)

/-- **The joins of a recovery** leave every book of theirs live. -/
theorem join_books_track (sending : Sending ex calloc which) (busy : ∀ l, which l → ¬idle l) (served : Served ex idle set)
    (subscribed : ∀ l, which l ↔ Subscribed set.books l) {ks : List Nat} (once : ks.Nodup)
    (tracked : Tracked ex (fun l => which l ∧ l ∉ ks) set.feeds.position set.books) {js : List Joining}
    (shows : ∀ j ∈ js, j.Shows ex) :
    let r := joinBooks calloc set ks js
    Served ex idle r.2.1 ∧ (∀ l, which l ↔ Subscribed r.2.1.books l) ∧
      (r.1 = .done → Tracked ex which r.2.1.feeds.position r.2.1.books) := by
  induction ks generalizing set js with
  | nil => exact ⟨served, subscribed, fun _ l is => tracked l ⟨is, List.not_mem_nil⟩⟩
  | cons k ks ih =>
    obtain ⟨first, later⟩ := List.nodup_cons.1 once
    cases asked : set.books[k]?.any (·.subscribed) with
    | false =>
      have skips : joinBooks calloc set (k :: ks) js = joinBooks calloc set ks js := by
        cases js <;> simp only [joinBooks, asked, if_true]
      rw [skips]
      refine ih served subscribed later (fun l is => tracked l ⟨is.1, fun mem => ?_⟩) shows
      rcases List.mem_cons.1 mem with rfl | mem
      · have found := (Option.any_eq_true ..).2 ((subscribed l).1 is.1)
        rw [asked] at found
        cases found
      · exact is.2 mem
    | true =>
      obtain ⟨b, here, -⟩ := (Option.any_eq_true ..).1 asked
      have mine : which k := (subscribed k).2 ((Option.any_eq_true ..).1 asked)
      have sub : ¬set.books[k]?.any (·.subscribed) = false := fun no => Bool.false_ne_true (no.symm.trans asked)
      cases js with
      | nil =>
        have stays : joinBooks calloc set (k :: ks) [] = (.running, set, []) := by
          rw [joinBooks, if_neg sub]
        rw [stays]
        exact ⟨served, subscribed, fun no => by cases no⟩
      | cons j js =>
        rw [join_books_next calloc set js sub]
        obtain ⟨showsFirst, showsLater⟩ := List.forall_mem_cons.1 shows
        have body : (set.modifyBook k FastBook.clear).books = set.books.set k b.clear := modify_at here _
        have cleared : Served ex idle (set.modifyBook k FastBook.clear) := by
          have put : Served ex idle (set.modifyBook k fun _ => b.clear) := served.put here (busy k mine) rfl
          rw [FastBookSet.modifyBook, modify_at here] at put ⊢
          exact put
        have sending' : Sending ex calloc fun l => which l ∧ l ∉ ks :=
          ⟨sending.numbered, fun l i is => sending.sends l i is.1, sending.fresh⟩
        have join := fast_books_join_tracks sending' ⟨mine, first⟩ cleared (busy k mine) (j := j) (fun l is => by
            rw [body, List.getElem?_set_ne (Ne.symm is.2)]
            refine tracked l ⟨is.1.1, fun mem => ?_⟩
            rcases List.mem_cons.1 mem with same | mem
            · exact is.2 same
            · exact is.1.2 mem)
          ⟨b.clear, by rw [body]; exact List.getElem?_set_self (List.getElem?_eq_some_iff.1 here).1, rfl⟩ showsFirst
        have keeps := (fast_books_join_joins calloc (set.modifyBook k FastBook.clear) k j).keeps.subscribed
        have kept : (set.modifyBook k FastBook.clear).books.map (·.subscribed) = set.books.map (·.subscribed) := by
          rw [body]
          exact map_set_same _ here rfl
        have subscribed' : ∀ l, which l ↔ Subscribed (fastBooksJoin calloc (set.modifyBook k FastBook.clear) k j).2.1.books l :=
          fun l => (subscribed l).trans (subscribed_same (keeps.trans kept) l).symm
        generalize fastBooksJoin calloc (set.modifyBook k FastBook.clear) k j = r at join subscribed'
        obtain ⟨ended, set', fed⟩ := r
        obtain ⟨served', done⟩ := join
        cases ended with
        | failed => exact ⟨served', subscribed', fun no => by cases no⟩
        | running => exact ⟨served', subscribed', fun no => by cases no⟩
        | done => exact ih served' subscribed' later (done rfl) showsLater

/-- **A recovery** that comes to an end leaves the subscribed books live. -/
theorem fast_books_recover_tracks (sending : Sending ex calloc which) (busy : ∀ l, which l → ¬idle l)
    (served : Served ex idle set) (subscribed : ∀ l, which l ↔ Subscribed set.books l) {attempts : List (List Joining)}
    (shows : ∀ js ∈ attempts, ∀ j ∈ js, j.Shows ex) :
    let r := fastBooksRecover calloc set attempts
    Served ex idle r.2.1 ∧ (∀ l, which l ↔ Subscribed r.2.1.books l) ∧
      (r.1 = .done → Tracked ex which r.2.1.feeds.position r.2.1.books) := by
  induction attempts generalizing set with
  | nil => exact ⟨served, subscribed, fun no => by cases no⟩
  | cons js rest ih =>
    obtain ⟨showsFirst, showsLater⟩ := List.forall_mem_cons.1 shows
    have flags : set.restart.books.map (·.subscribed) = set.books.map (·.subscribed) := by
      simp only [FastBookSet.restart, List.map_map]
      rfl
    have distinct : (List.range set.books.length).Nodup := List.nodup_range
    have tried := join_books_track sending busy served.restart
      (fun l => (subscribed l).trans (subscribed_same flags l).symm) distinct
      (fun l is => by
        obtain ⟨b, here, -⟩ := (subscribed l).1 is.1
        exact absurd (List.mem_range.2 (List.getElem?_eq_some_iff.1 here).1) is.2)
      showsFirst
    rw [fastBooksRecover]
    generalize joinBooks calloc set.restart (List.range set.books.length) js = r at tried
    obtain ⟨ended, set', events⟩ := r
    obtain ⟨served', subscribed', done⟩ := tried
    cases ended with
    | done => exact ⟨served', subscribed', done⟩
    | running => exact ⟨served', subscribed', fun no => by cases no⟩
    | failed => exact ih served' subscribed' showsLater

/-! ## The calls -/

/-- **An update** that succeeds leaves the subscribed books live, by one message or by a recovery. -/
theorem fast_books_update_tracks (sending : Sending ex calloc which) (busy : ∀ l, which l → ¬idle l)
    (served : Served ex idle set) (subscribed : ∀ l, which l ↔ Subscribed set.books l)
    (tracked : Tracked ex which set.feeds.position set.books) (arrived : Nat → Bool) {attempts : List (List Joining)}
    (shows : ∀ js ∈ attempts, ∀ j ∈ js, j.Shows ex) :
    let r := fastBooksUpdate calloc set arrived attempts
    r.1 = .done → Served ex idle r.2 ∧ (∀ l, which l ↔ Subscribed r.2.books l) ∧
      Tracked ex which r.2.feeds.position r.2.books := by
  intro r
  obtain ⟨feed, takes⟩ := next_one_feed sending.numbered served.feed arrived
  have received : Served ex idle { set with feeds := (set.feeds.nextIncrement arrived).set } :=
    ⟨feed, served.configured, served.snapshots, served.idle⟩
  simp only [r, fastBooksUpdate]
  cases ok : (set.feeds.nextIncrement arrived).ok with
  | false =>
    rw [if_pos rfl]
    have recovered := fast_books_recover_tracks sending busy received subscribed shows
    intro done
    exact ⟨recovered.1, recovered.2.1, recovered.2.2 done⟩
  | true =>
    rw [if_neg (by decide)]
    have takes := takes ok
    generalize (set.feeds.nextIncrement arrived).next = next at takes
    generalize (set.feeds.nextIncrement arrived).set = feeds at takes received
    generalize after : feeds.counters.incMsgNum.toNat = n at takes
    have behind : feeds.position = n := after
    cases takes with
    | nothing =>
      refine fun _ => ⟨received, subscribed, ?_⟩
      simp only [behind]
      exact tracked
    | @message j next bound =>
      cases refresh : (ex.messages (j + 1)).isIncrement with
      | false =>
        rw [if_neg Bool.false_ne_true]
        refine fun _ => ⟨received, subscribed, ?_⟩
        simp only [behind]
        exact tracked.silent sending.sends served.configured next refresh
      | true =>
        rw [if_pos rfl]
        have fixed := apply_increment_fixed calloc set.books none (ex.messages (j + 1))
        have flags : (applyIncrement calloc set.books none (ex.messages (j + 1))).books.map (·.subscribed) =
            set.books.map (·.subscribed) := by
          have parts := congrArg (List.map Fixed.subscribed) fixed
          rwa [List.map_map, List.map_map] at parts
        cases applied : (applyIncrement calloc set.books none (ex.messages (j + 1))).ok with
        | false =>
          simp only [applied, Bool.false_eq_true, if_false]
          exact fun no => (nomatch no)
        | true =>
          simp only [applied, if_true]
          refine fun _ => ⟨⟨received.feed, (fixed_instruments fixed).trans served.configured, served.snapshots,
            fun l quiet => apply_increment_idle (served.idle l quiet)⟩,
            fun l => (subscribed l).trans (subscribed_same flags l).symm, ?_⟩
          simp only [behind]
          exact tracked.refresh sending.sends served.configured sending.fresh next refresh applied

/-- **A subscription** that succeeds adds its book to the live ones. -/
theorem fast_books_subscribe_tracks (sending : Sending ex calloc which) (busy : ∀ l, which l → ¬idle l)
    (served : Served ex idle set) (subscribed : ∀ l, l ≠ k → (which l ↔ Subscribed set.books l)) (mine : which k)
    (tracked : Tracked ex (others which k) set.feeds.position set.books)
    (cleared : ∃ b, set.books[k]? = some b ∧ b.ob = obInit) {j : Joining} (shows : j.Shows ex) :
    let r := fastBooksSubscribe calloc set k j
    r.1 = .done → Served ex idle r.2 ∧ (∀ l, which l ↔ Subscribed r.2.books l) ∧
      Tracked ex which r.2.feeds.position r.2.books := by
  intro r
  have join := fast_books_join_tracks sending mine served (busy k mine) tracked cleared shows
  have keeps := (fast_books_join_joins calloc set k j).keeps.subscribed
  simp only [r, fastBooksSubscribe]
  generalize fastBooksJoin calloc set k j = result at join keeps
  obtain ⟨ended, set', fed⟩ := result
  cases ended with
  | failed => exact fun no => (nomatch no)
  | running => exact fun no => (nomatch no)
  | done =>
    obtain ⟨served', live⟩ := join
    have live := live rfl
    obtain ⟨started, b, here, active, shown⟩ := live k mine
    have body : (set'.modifyBook k fun b => { b with subscribed := true }).books =
        set'.books.set k { b with subscribed := true } := modify_at here _
    have put : Served ex idle (set'.modifyBook k fun b => { b with subscribed := true }) := by
      have put : Served ex idle (set'.modifyBook k fun _ => { b with subscribed := true }) :=
        served'.put here (busy k mine) rfl
      rw [FastBookSet.modifyBook, modify_at here] at put ⊢
      exact put
    have lt := (List.getElem?_eq_some_iff.1 here).1
    refine fun _ => ⟨put, fun l => ?_, fun l is => ?_⟩
    · simp only [body]
      by_cases same : l = k
      · rw [same]
        exact ⟨fun _ => ⟨_, List.getElem?_set_self lt, rfl⟩, fun _ => mine⟩
      · rw [Subscribed, List.getElem?_set_ne (Ne.symm same)]
        exact (subscribed l same).trans (subscribed_same keeps l).symm
    · simp only [body]
      by_cases same : l = k
      · rw [same]
        exact ⟨started, _, List.getElem?_set_self lt, active, shown⟩
      · rw [List.getElem?_set_ne (Ne.symm same)]
        exact live l is

end

/-! ## The runs -/

/-- A set behind `fast_books_init`: nothing was received, and no book was asked for. -/
structure FastBookSet.Opened (ex : Exchange) (set : FastBookSet) : Prop where
  feed : ∃ ms, Subsequence ex.messages 0 ms ∧ set.feeds = ⟨⟨0, false⟩, [⟨0, ms⟩]⟩
  configured : set.books.map FastBook.instrument = ex.instruments
  closed : ∀ f ∈ set.snpFeeds, f.waiting = []
  added : ∀ b ∈ set.books, b.subscribed = false ∧ ¬b.Marked ∧ b.ob = obInit

/-- The calls of a user, one after the other, all of which succeed: a book is asked for once. -/
inductive Runs (ex : Exchange) (calloc : OrderBook → Option Addr) (set : FastBookSet) : FastBookSet → Prop
  | opened : Runs ex calloc set set
  | subscribe {s : FastBookSet} (run : Runs ex calloc set s) (k : Nat) (j : Joining) (added : k < s.books.length)
    (once : ¬Subscribed s.books k) (shows : j.Shows ex) (done : (fastBooksSubscribe calloc s k j).1 = .done) :
    Runs ex calloc set (fastBooksSubscribe calloc s k j).2
  | update {s : FastBookSet} (run : Runs ex calloc set s) (arrived : Nat → Bool) (attempts : List (List Joining))
    (shows : ∀ js ∈ attempts, ∀ j ∈ js, j.Shows ex) (done : (fastBooksUpdate calloc s arrived attempts).1 = .done) :
    Runs ex calloc set (fastBooksUpdate calloc s arrived attempts).2

section
variable {ex : Exchange} {calloc : OrderBook → Option Addr} {set set' : FastBookSet}

theorem FastBookSet.Opened.served (h : set.Opened ex) : Served ex (fun _ => True) set := by
  obtain ⟨ms, subsequence, feeds⟩ := h.feed
  refine ⟨⟨⟨0, ms⟩, by rw [feeds], subsequence, fun _ => rfl⟩, h.configured, fun f mem msg waits => ?_, fun k _ b here => ?_⟩
  · rw [h.closed f mem] at waits
    cases waits
  · exact (h.added b (List.mem_of_getElem? here)).2

/-- What holds behind every call: the books that were asked for are live, and the others are as they were added. -/
structure Following (ex : Exchange) (set : FastBookSet) : Prop where
  served : Served ex (fun k => ¬Subscribed set.books k) set
  tracked : Tracked ex (Subscribed set.books) set.feeds.position set.books

/-- The books that are looked at, by another description. -/
theorem Following.of_iff {which : Nat → Prop} (served : Served ex (fun k => ¬which k) set)
    (subscribed : ∀ l, which l ↔ Subscribed set.books l) (tracked : Tracked ex which set.feeds.position set.books) :
    Following ex set := by
  obtain rfl : which = Subscribed set.books := funext fun l => propext (subscribed l)
  exact ⟨served, tracked⟩

theorem Runs.following (run : Runs ex calloc set set') (sending : Sending ex calloc fun _ => True) (opened : set.Opened ex) :
    Following ex set' := by
  have only (which : Nat → Prop) : Sending ex calloc which :=
    ⟨sending.numbered, fun l i _ => sending.sends l i trivial, sending.fresh⟩
  induction run with
  | opened =>
    have none (k : Nat) : ¬Subscribed set.books k := by
      rintro ⟨b, here, asked⟩
      rw [(opened.added b (List.mem_of_getElem? here)).1] at asked
      cases asked
    exact ⟨opened.served.fewer fun _ _ => trivial, fun k is => absurd is (none k)⟩
  | @subscribe s run k j added once shows done before =>
    obtain ⟨served, tracked⟩ := before
    have idle : Served ex (fun l => ¬(l = k ∨ Subscribed s.books l)) s := served.fewer fun l quiet is => quiet (.inr is)
    have here : s.books[k]? = some s.books[k] := List.getElem?_eq_getElem added
    obtain ⟨served', subscribed, tracked'⟩ := fast_books_subscribe_tracks (only fun l => l = k ∨ Subscribed s.books l)
      (fun l is no => no is) idle (fun l other => ⟨fun is => is.resolve_left other, .inr⟩) (.inl rfl)
      (fun l is => tracked l (is.1.resolve_left is.2)) ⟨_, here, (served.idle k once _ here).2⟩ shows done
    exact .of_iff served' subscribed tracked'
  | @update s run arrived attempts shows done before =>
    obtain ⟨served', subscribed, tracked'⟩ := fast_books_update_tracks (only (Subscribed s.books)) (fun l is no => no is)
      before.served (fun l => Iff.rfl) before.tracked arrived shows done
    exact .of_iff served' subscribed tracked'

/-- A live book shows its levels. -/
theorem OrderBook.Live.shows {ob : OrderBook} {sent : Sent} (h : ob.Live sent) : ob.Shows sent := by
  obtain ⟨m, indexed, same⟩ := h
  exact ⟨m, indexed.exact, same⟩

/-- **A join converges.** However the increments and the snapshots come in, and whatever the feed lost before: a join
of a book with no levels that is done leaves the levels of the book behind the last message it counted. -/
theorem joined_book_shows {k : Nat} (sending : Sending ex calloc (· = k)) (served : Served ex (fun _ => False) set)
    (cleared : ∃ b, set.books[k]? = some b ∧ b.ob = obInit) {j : Joining} (shows : j.Shows ex)
    (done : (fastBooksJoin calloc set k j).1 = .done) :
    ∃ b, (fastBooksJoin calloc set k j).2.1.books[k]? = some b ∧ b.active = true ∧
      b.ob.Shows (ex.book k (fastBooksJoin calloc set k j).2.1.feeds.position) := by
  have join := fast_books_join_tracks sending rfl served (fun no => no) (fun l is => absurd is.1 is.2) cleared shows
  obtain ⟨-, b, here, active, live⟩ := join.2 done k rfl
  exact ⟨b, here, active, live.shows⟩

/-- **A recovery converges**, from whatever the books came to. -/
theorem recovered_books_show (sending : Sending ex calloc (Subscribed set.books)) (served : Served ex (fun _ => False) set)
    {attempts : List (List Joining)} (shows : ∀ js ∈ attempts, ∀ j ∈ js, j.Shows ex)
    (done : (fastBooksRecover calloc set attempts).1 = .done) {k : Nat} (subscribed : Subscribed set.books k) :
    ∃ b, (fastBooksRecover calloc set attempts).2.1.books[k]? = some b ∧ b.active = true ∧
      b.ob.Shows (ex.book k (fastBooksRecover calloc set attempts).2.1.feeds.position) := by
  have recovery := fast_books_recover_tracks sending (fun _ _ no => no) served (fun _ => Iff.rfl) shows
  obtain ⟨-, b, here, active, live⟩ := recovery.2.2 done k subscribed
  exact ⟨b, here, active, live.shows⟩

/-- **The books converge.** Behind every call that succeeds the books that were asked for are the books of the
exchange, behind the last message that was counted. -/
theorem subscribed_books_show (sending : Sending ex calloc fun _ => True) (opened : set.Opened ex)
    (run : Runs ex calloc set set') {k : Nat} {b : FastBook} (here : set'.books[k]? = some b) (subscribed : b.subscribed = true) :
    b.active = true ∧ b.ob.Shows (ex.book k set'.feeds.position) := by
  obtain ⟨-, b', there, active, live⟩ := (run.following sending opened).tracked k ⟨b, here, subscribed⟩
  obtain rfl : b = b' := Option.some.inj (here.symm.trans there)
  exact ⟨active, live.shows⟩

end

/-! ## One bid -/

/-- The exchange of one book, to which a bid comes with the first message. -/
def oneBid : Exchange where
  instruments := [⟨⟨0, 1⟩, [], Fix.chars "AAPL", 1⟩]
  messages k := refreshOf (BitVec.ofNat 64 k) (if k = 1 then [bidEntry 1 1] else [])
  changes _ n := if n = 1 then [⟨true, 100, some 10⟩] else []
  start _ _ _ := none

/-- A book behind `fast_book_add` and its configuration. -/
def addedBook : FastBook := { subscribedBook 1 "AAPL" with subscribed := false, active := false }

/-- A set with a book, and a feed that delivers some of the messages. -/
def delivering (book : FastBook) (numbers : List Nat) : FastBookSet :=
  ⟨⟨⟨0, false⟩, [⟨0, numbers.map oneBid.messages⟩]⟩, [⟨0, []⟩], [book]⟩

theorem bid_at : (bidEntry 1 1).At ⟨0, 1⟩ true 100 where
  side := ⟨_, rfl, rfl⟩
  price := by
    refine ⟨_, rfl, ?_⟩
    change ((100 : ℤ) : ℚ) * 10 ^ (0 : ℤ) = ((100 : ℕ) : ℚ) * 10 ^ (0 : ℤ)
    rw [Int.cast_ofNat, Nat.cast_ofNat]

theorem one_bid_sends (k : Nat) (i : Instrument) (here : oneBid.instruments[k]? = some i) : oneBid.Sends k i := by
  obtain rfl : k = 0 := by
    have lt : k < 1 := (List.getElem?_eq_some_iff.1 here).1
    omega
  cases here
  refine ⟨fun n _ => ?_, fun n silent => ?_, fun n c mem => ?_, ⟨fun _ _ no => absurd rfl no, fun _ _ no => (nomatch no)⟩⟩
  · by_cases first : n = 1
    · rw [first]
      refine .cons ⟨bid_at, .inl rfl, fun no => (nomatch no), fun size same => ?_⟩ .nil
      cases same
      exact ⟨.inl rfl, _, rfl, rfl⟩
    · have nothing : oneBid.entriesFor 0 n = [] := by
        simp only [Exchange.entriesFor, oneBid, if_neg first]
        rfl
      rw [nothing]
      simp only [oneBid, if_neg first]
      exact .nil
  · cases silent
  · simp only [oneBid] at mem
    split at mem
    · rw [List.mem_singleton.1 mem]
      exact ⟨by decide, by decide⟩
    · cases mem

theorem one_bid_sending (which : Nat → Prop) : Sending oneBid twoAddresses which where
  numbered _ := ⟨rfl, rfl⟩
  sends k i _ here := one_bid_sends k i here
  fresh := two_addresses_free

/-- The bid stays. -/
theorem one_bid_book (n : Nat) : oneBid.book 0 (n + 1) = Sent.set (fun _ _ => none) true 100 (some 10) := by
  induction n with
  | zero => rfl
  | succ n ih =>
    rw [Exchange.book, ih]
    rfl

/-- A snapshot of the bid, from the first message on. -/
theorem one_bid_shows {last : U64} (first : last ≠ 0) : oneBid.Shows (snapshotOf 1 1 last) := by
  have number : last.toNat ≠ 0 := fun zero => first (BitVec.eq_of_toNat_eq zero)
  have book : oneBid.book 0 last.toNat = Sent.set (fun _ _ => none) true 100 (some 10) := by
    rw [← Nat.succ_pred number]
    exact one_bid_book _
  refine ⟨fun k i _ goes here same => ?_, fun k i goes here l j there _ _ => ?_⟩
  · cases same
    obtain rfl : 0 = k := Option.some.inj goes
    cases here
    rw [book]
    refine ⟨List.forall_mem_singleton.2 ⟨true, 100, 10, rfl, bid_at, _, rfl, rfl⟩, fun buy price there => ?_⟩
    refine ⟨_, List.mem_singleton_self _, ?_⟩
    cases buy with
    | false => exact absurd rfl there
    | true =>
      by_cases level : price = 100
      · rw [level]
        exact bid_at
      · refine absurd ?_ there
        rw [Sent.set, Function.update_self, Function.update_of_ne level]
  · obtain rfl : 0 = k := Option.some.inj goes
    have lt : l < 1 := (List.getElem?_eq_some_iff.1 there).1
    omega

theorem delivering_opened {numbers : List Nat} (subsequence : Subsequence oneBid.messages 0 (numbers.map oneBid.messages)) :
    (delivering addedBook numbers).Opened oneBid where
  feed := ⟨_, subsequence, rfl⟩
  configured := rfl
  closed := List.forall_mem_singleton.2 rfl
  added := by
    refine List.forall_mem_singleton.2 ⟨rfl, fun marked => ?_, rfl⟩
    rcases marked with no | no <;> cases no

theorem arriving_shows {turns : Nat} {last : U64} (first : last ≠ 0) : (arriving [snapshotOf 1 1 last] turns).Shows oneBid := by
  rintro _ ⟨⟩
  exact List.forall_mem_singleton.2 (one_bid_shows first)

theorem delivering_served {book : FastBook} {numbers : List Nat} (is : book.instrument = addedBook.instrument)
    (subsequence : Subsequence oneBid.messages 0 (numbers.map oneBid.messages)) :
    Served oneBid (fun _ => False) (delivering book numbers) where
  feed := ⟨_, rfl, subsequence, fun _ => rfl⟩
  configured := congrArg (fun i => [i]) is
  snapshots := List.forall_mem_singleton.2 (List.forall_mem_nil _)
  idle _ no := no.elim

/-- The feed loses the third message. -/
theorem third_lost : Subsequence oneBid.messages 0 ([1, 2, 4, 5].map oneBid.messages) :=
  .next (by decide) (by decide) (.next (by decide) (by decide) (.next (by decide) (by decide)
    (.next (by decide) (by decide) .nil)))

/-- The snapshot of a join comes with the first message. -/
theorem bid_joined :
    let r := fastBooksJoin twoAddresses (delivering addedBook [1, 2, 4, 5]) 0 (arriving [snapshotOf 1 1 1] 1)
    ∃ b, r.2.1.books[0]? = some b ∧ b.active = true ∧ b.ob.Shows (oneBid.book 0 r.2.1.feeds.position) := by
  have served : Served oneBid (fun _ => False) (delivering addedBook [1, 2, 4, 5]) := delivering_served rfl third_lost
  exact joined_book_shows (one_bid_sending _) served ⟨_, rfl, rfl⟩ (arriving_shows (by decide)) (by decide +kernel)

/-- Nothing of the book was right in front of the recovery, whose first join fails at the gap. -/
theorem stale_recovered :
    let r := fastBooksRecover twoAddresses (delivering (subscribedBook 1 "AAPL") [1, 2, 4, 5])
      [[arriving [] 3], [arriving [snapshotOf 1 1 5] 1]]
    ∃ b, r.2.1.books[0]? = some b ∧ b.active = true ∧ b.ob.Shows (oneBid.book 0 r.2.1.feeds.position) := by
  have served : Served oneBid (fun _ => False) (delivering (subscribedBook 1 "AAPL") [1, 2, 4, 5]) :=
    delivering_served rfl third_lost
  have subscribed : Subscribed (delivering (subscribedBook 1 "AAPL") [1, 2, 4, 5]).books 0 := ⟨_, rfl, rfl⟩
  refine recovered_books_show (one_bid_sending _) served ?_ (by decide +kernel) subscribed
  refine List.forall_mem_cons.2 ⟨List.forall_mem_singleton.2 fun _ same => ?_,
    List.forall_mem_singleton.2 (List.forall_mem_singleton.2 (arriving_shows (by decide)))⟩
  cases same
  exact List.forall_mem_nil _

/-- The book is asked for. -/
def bidAsked : FastBookSet :=
  (fastBooksSubscribe twoAddresses (delivering addedBook [1, 2, 4, 5]) 0 (arriving [snapshotOf 1 1 1] 1)).2

/-- The second message comes, then the gap is found. -/
def bidRecovered : FastBookSet :=
  (fastBooksUpdate twoAddresses (fastBooksUpdate twoAddresses bidAsked (fun _ => true) []).2 (fun _ => true)
    [[arriving [snapshotOf 1 1 5] 1]]).2

theorem bid_recovered_runs : Runs oneBid twoAddresses (delivering addedBook [1, 2, 4, 5]) bidRecovered := by
  have asked : Runs oneBid twoAddresses (delivering addedBook [1, 2, 4, 5]) bidAsked :=
    .subscribe .opened 0 _ (by decide) (by rintro ⟨_, ⟨⟩, ⟨⟩⟩) (arriving_shows (by decide)) (by decide +kernel)
  have updated := asked.update (fun _ => true) [] (List.forall_mem_nil _) (by decide +kernel)
  exact updated.update (fun _ => true) [[arriving [snapshotOf 1 1 5] 1]]
    (List.forall_mem_singleton.2 (List.forall_mem_singleton.2 (arriving_shows (by decide)))) (by decide +kernel)

/-- The book is the one behind the fifth message. -/
theorem bid_recovered : ∃ b, bidRecovered.books[0]? = some b ∧ b.active = true ∧ b.ob.Shows (oneBid.book 0 5) := by
  have position : bidRecovered.feeds.position = 5 := by decide +kernel
  have subscribed : bidRecovered.books[0]?.any (·.subscribed) = true := by decide +kernel
  obtain ⟨b, here, asked⟩ := (Option.any_eq_true ..).1 subscribed
  have shown := subscribed_books_show (one_bid_sending _) (delivering_opened third_lost) bid_recovered_runs here asked
  rw [position] at shown
  exact ⟨b, here, shown⟩

end Libtrading.Book
