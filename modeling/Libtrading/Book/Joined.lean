import Libtrading.Book.Following

/-!
# Joining converges

The books of a set stand behind the message that `inc_msg_num` has got to. A book that is being joined catches up
with its book at the exchange, from the message where the join began; the snapshot that is applied is of a later
message and not of one that is still to come, so it is of this past. The active books are live all along.
-/

namespace Libtrading.Book
set_option autoImplicit false
open Fast OrderBook Store

/-! ## The set behind a message -/

/-- The message a set has got to. -/
def FeedSet.position (s : FeedSet) : Nat := s.counters.incMsgNum.toNat

/-- The set is configured as the exchange has it, its one feed delivers of the messages of the exchange, and its
snapshot feeds deliver snapshots of its books; the idle books take no entries and have no levels. -/
structure Served (ex : Exchange) (idle : Nat → Prop) (set : FastBookSet) : Prop where
  feed : set.feeds.OneFeed ex.messages
  configured : set.books.map FastBook.instrument = ex.instruments
  snapshots : ∀ f ∈ set.snpFeeds, ∀ msg ∈ f.waiting, ex.Shows msg
  idle : ∀ k, idle k → ∀ b, set.books[k]? = some b → ¬b.Marked ∧ b.ob = obInit

/-- Some books are active, and live behind message `n`. -/
def Tracked (ex : Exchange) (which : Nat → Prop) (n : Nat) (books : List FastBook) : Prop :=
  ∀ k, which k → n ≠ 0 ∧ ∃ b, books[k]? = some b ∧ b.active = true ∧ b.ob.Live (ex.book k n)

/-- A book that is being joined, behind message `n`: with no message yet it is as it was cleared; it catches up from
a message in front of the first one that was applied; and once it is active it has every level of a book of the past. -/
structure Behind (ex : Exchange) (k n : Nat) (init : U64) (b : FastBook) : Prop where
  join : b.join = true
  fresh : n = 0 → b.ob = obInit ∧ init = 0
  catching : ∃ first ≤ n, (init ≠ 0 → first < init.toNat) ∧ ∃ m, Catching (ex.past k first n) (ex.book k n) b.ob m ∧
    (b.active = true → n ≠ 0 ∧ ∃ old, ex.past k first n old ∧ (seenLevels m).Covers fun e => old e.1 e.2)

section
variable {ex : Exchange} {calloc : OrderBook → Option Addr} {which : Nat → Prop} {n j k : Nat} {i : Instrument}
  {books : List FastBook} {b : FastBook} {init : U64}

/-- Entries leave a book alone that takes none. -/
theorem apply_entries_unmarked {dst : Option FastBook} {mds : List MdEntry} (here : books[k]? = some b)
    (unmarked : ¬b.Marked) : (applyEntries calloc dst books mds).books[k]? = some b := by
  induction mds generalizing books with
  | nil => exact here
  | cons md mds ih =>
    rw [apply_entries_reached]
    cases way : reached dst books md with
    | ends => exact here
    | passed => exact ih here
    | counted i c n =>
      have other : i ≠ k := by
        rintro rfl
        obtain rfl : b = c := Option.some.inj (here.symm.trans (reached_book way))
        exact unmarked (reached_marked way)
      have stays := (List.getElem?_set_ne (a := (countEntry calloc c n md).2) other).trans here
      simp only
      split
      · exact stays
      · exact ih stays

theorem apply_increment_idle {dst : Option FastBook} {msg : MdMessage}
    (quiet : ∀ b, books[k]? = some b → ¬b.Marked ∧ b.ob = obInit) (b' : FastBook)
    (there : (applyIncrement calloc books dst msg).books[k]? = some b') : ¬b'.Marked ∧ b'.ob = obInit := by
  obtain ⟨b, here, -⟩ := fixed_at (apply_increment_fixed calloc books dst msg) there
  have stays : (applyIncrement calloc books dst msg).books[k]? = some b := by
    rw [apply_increment_entries]
    exact apply_entries_unmarked here (quiet b here).1
  obtain rfl : b = b' := Option.some.inj (stays.symm.trans there)
  exact quiet b here

/-- A message that is no refresh changes no book. -/
theorem book_silent (sends : ex.Sends k i) (silent : (ex.messages (j + 1)).isIncrement = false) :
    ex.book k (j + 1) = ex.book k j := by
  rw [Exchange.book, sends.silent (j + 1) silent]
  rfl

/-- The configuration of a book. -/
theorem configured_at (configured : books.map FastBook.instrument = ex.instruments) (here : books[k]? = some b) :
    ex.instruments[k]? = some b.instrument := by
  rw [← configured, List.getElem?_map, here]
  rfl

/-- The exchange sends what the books that are looked at are to be. -/
def SendsAll (ex : Exchange) (which : Nat → Prop) : Prop := ∀ k i, which k → ex.instruments[k]? = some i → ex.Sends k i

theorem Tracked.silent (h : Tracked ex which n books) (sends : SendsAll ex which)
    (configured : books.map FastBook.instrument = ex.instruments) (next : n = 0 ∨ j = n)
    (silent : (ex.messages (j + 1)).isIncrement = false) : Tracked ex which (j + 1) books := by
  intro k is
  obtain ⟨started, b, here, active, live⟩ := h k is
  obtain rfl := next.resolve_left started
  rw [book_silent (sends k _ is (configured_at configured here)) silent]
  exact ⟨Nat.succ_ne_zero j, b, here, active, live⟩

/-- A refresh that is applied keeps the active books live. -/
theorem Tracked.refresh (h : Tracked ex which n books) (sends : SendsAll ex which)
    (configured : books.map FastBook.instrument = ex.instruments) (fresh : ∀ ob a, calloc ob = some a → ob.live a = false)
    (next : n = 0 ∨ j = n) (refresh : (ex.messages (j + 1)).isIncrement = true)
    (ok : (applyIncrement calloc books none (ex.messages (j + 1))).ok = true) :
    Tracked ex which (j + 1) (applyIncrement calloc books none (ex.messages (j + 1))).books := by
  intro k is
  obtain ⟨started, b, here, active, live⟩ := h k is
  obtain rfl := next.resolve_left started
  have sends := sends k _ is (configured_at configured here)
  obtain ⟨b', there, active', after, -⟩ := increment_follows
    (P := fun b sent => b.active = true ∧ b.ob.Live sent ∧ sent.Proper) (fun b _ before => by rw [before.1]; rfl)
    (fun b sent c md n is before carries proper taken => by
      obtain ⟨active, live, sized⟩ := before
      have fixed := @count_entry_fixed calloc b n md
      exact ⟨(congrArg Fixed.active fixed).trans active,
        live.change sized active (is ▸ carries) proper (fresh b.ob) taken, sized.apply proper⟩)
    sends configured refresh here rfl ⟨active, live, ex.book_proper sends j⟩ ok
  exact ⟨Nat.succ_ne_zero j, b', there, active', after⟩

/-- Where the next message finds a book that is being joined. -/
theorem Behind.ready (h : Behind ex k n init b) (next : n = 0 ∨ j = n) :
    ∃ first ≤ j, (init ≠ 0 → first < init.toNat) ∧ ∃ m, Catching (ex.past k first j) (ex.book k j) b.ob m := by
  by_cases start : n = 0
  · obtain ⟨cleared, zero⟩ := h.fresh start
    refine ⟨j, Nat.le_refl j, fun no => absurd zero no, fun _ _ => none, ?_⟩
    have catching := Catching.init (ex.book k j)
    rw [cleared]
    refine ⟨catching.indexed, catching.small, catching.catches.mono fun map old => ?_⟩
    obtain ⟨l, lower, upper, same⟩ := old
    rw [show l = j by omega] at same
    exact same
  · obtain rfl := next.resolve_left start
    obtain ⟨first, le, before, m, catching, -⟩ := h.catching
    exact ⟨first, le, before, m, catching⟩

/-- The book behind the message becomes part of the past. -/
theorem Catching.behind {first : Nat} {ob : OrderBook} {m : Levels}
    (h : Catching (ex.past k first j) (ex.book k (j + 1)) ob m) :
    Catching (ex.past k first (j + 1)) (ex.book k (j + 1)) ob m where
  indexed := h.indexed
  small := h.small
  catches := h.catches.extend.mono fun map old => by
    obtain ⟨l, lower, upper, same⟩ := old
    by_cases last : l = j + 1
    · right
      funext e
      rw [last] at same
      exact congrFun (congrFun same e.1) e.2
    · left
      exact ⟨l, lower, by omega, same⟩

/-- A message that is no refresh. -/
theorem Behind.silent (h : Behind ex k n init b) (sends : ex.Sends k i) (inactive : b.active = false)
    (next : n = 0 ∨ j = n) (silent : (ex.messages (j + 1)).isIncrement = false) : Behind ex k (j + 1) init b := by
  obtain ⟨first, le, before, m, catching⟩ := h.ready next
  rw [← book_silent sends silent] at catching
  refine ⟨h.join, fun no => absurd no (Nat.succ_ne_zero j), first, by omega, before, m, catching.behind, fun active => ?_⟩
  rw [inactive] at active
  cases active

/-- **A refresh that is applied** to a book that is being joined. -/
theorem Behind.refresh (h : Behind ex k n init b) (sends : ex.Sends k b.instrument) (inactive : b.active = false)
    (configured : books.map FastBook.instrument = ex.instruments) (fresh : ∀ ob a, calloc ob = some a → ob.live a = false)
    (next : n = 0 ∨ j = n) (bound : j + 1 < 2 ^ 64) (refresh : (ex.messages (j + 1)).isIncrement = true)
    (here : books[k]? = some b) (ok : (applyIncrement calloc books none (ex.messages (j + 1))).ok = true) :
    ∃ b', (applyIncrement calloc books none (ex.messages (j + 1))).books[k]? = some b' ∧ b'.active = false ∧
      Behind ex k (j + 1) (if init = 0 then BitVec.ofNat 64 (j + 1) else init) b' := by
  obtain ⟨first, le, before, m, catching⟩ := h.ready next
  obtain ⟨b', there, inactive', join, m', catching'⟩ := increment_follows
    (P := fun b sent => b.active = false ∧ b.join = true ∧ ∃ m, Catching (ex.past k first j) sent b.ob m)
    (fun b _ before => by rw [before.2.1, Bool.or_true])
    (fun b sent c md n is before carries proper taken => by
      obtain ⟨inactive, join, m, catching⟩ := before
      have fixed := @count_entry_fixed calloc b n md
      exact ⟨(congrArg Fixed.active fixed).trans inactive, (congrArg Fixed.join fixed).trans join,
        catching.change inactive (is ▸ carries) proper (fresh b.ob) taken⟩)
    sends configured refresh here rfl ⟨inactive, h.join, m, catching⟩ ok
  refine ⟨b', there, inactive', join, fun no => absurd no (Nat.succ_ne_zero j), first, by omega, fun _ => ?_, m',
    catching'.behind, fun active => ?_⟩
  · split
    · rw [BitVec.toNat_ofNat, Nat.mod_eq_of_lt bound]
      omega
    · rename_i applied
      exact before applied
  · rw [inactive'] at active
    cases active

end

/-! ## One turn -/

/-- What the environment keeps to: the messages are numbered, they send the books that are looked at, and memory that
is handed out is free. -/
structure Sending (ex : Exchange) (calloc : OrderBook → Option Addr) (which : Nat → Prop) : Prop where
  numbered : Numbered ex.messages
  sends : SendsAll ex which
  fresh : ∀ ob a, calloc ob = some a → ob.live a = false

/-- The others of some books. -/
def others (which : Nat → Prop) (k : Nat) : Nat → Prop := fun i => which i ∧ i ≠ k

/-- The state of a join of the book `k`. -/
structure Underway (ex : Exchange) (idle which : Nat → Prop) (k : Nat) (s : JoinState) : Prop where
  served : Served ex idle s.set
  pending : ∀ msg, s.snpMsg = some msg → ex.Shows msg
  cur : s.msgNumCur.toNat ≤ s.set.feeds.position
  others : Tracked ex (others which k) s.set.feeds.position s.set.books
  book : ∃ b, s.set.books[k]? = some b ∧ Behind ex k s.set.feeds.position s.msgNumInit b

/-- The book is not active yet. -/
def JoinState.Waiting (s : JoinState) (k : Nat) : Prop := ∀ b, s.set.books[k]? = some b → b.active = false

section
variable {ex : Exchange} {calloc : OrderBook → Option Addr} {idle which : Nat → Prop} {k : Nat} {s : JoinState}

theorem Sending.others (h : Sending ex calloc which) (k : Nat) : SendsAll ex (Book.others which k) :=
  fun j i is at' => h.sends j i is.1 at'

/-- The step of a join once the next increment is known. -/
theorem join_increment_takes (calloc : OrderBook → Option Addr) {s : JoinState} {next : NextIncrement}
    (ok : next.ok = true) :
    joinIncrement calloc s next = match next.next with
      | none => (true, { s with set := { s.set with feeds := next.set } }, [])
      | some msg =>
        let a := applyIncrement calloc s.set.books none msg
        let s := { s with set := { s.set with feeds := next.set, books := a.books } }
        if a.ok = false then (false, s, a.fed)
        else
          match msg.msgSeqNum.get with
          | none => (false, s, a.fed)
          | some num =>
            (true, { s with msgNumCur := num, msgNumInit := if s.msgNumInit = 0 then num else s.msgNumInit }, a.fed) := by
  cases there : next.next with
  | none => simp only [joinIncrement, ok, there, Bool.true_eq_false, if_false]
  | some msg =>
    cases num : msg.msgSeqNum.get <;> simp only [joinIncrement, ok, there, num, Bool.true_eq_false, if_false]

/-- The increment of a turn. -/
theorem join_increment_underway (sending : Sending ex calloc which) (mine : which k) (under : Underway ex idle which k s)
    (waiting : s.Waiting k) (arrived : Nat → Bool) :
    let r := joinIncrement calloc s (s.set.feeds.nextIncrement arrived)
    Served ex idle r.2.1.set ∧ (r.1 = true → Underway ex idle which k r.2.1 ∧ r.2.1.Waiting k) := by
  intro r
  obtain ⟨feed, takes⟩ := next_one_feed sending.numbered under.served.feed arrived
  obtain ⟨b, here, behind⟩ := under.book
  have configured := under.served.configured
  have inactive := waiting b here
  have sends := sending.sends k _ mine (configured_at configured here)
  have served : Served ex idle { s.set with feeds := (s.set.feeds.nextIncrement arrived).set } :=
    ⟨feed, configured, under.served.snapshots, under.served.idle⟩
  cases ok : (s.set.feeds.nextIncrement arrived).ok with
  | false =>
    have body : r = (false, { s with set := { s.set with feeds := (s.set.feeds.nextIncrement arrived).set } }, []) := by
      simp only [r, joinIncrement, ok, if_true]
    rw [body]
    exact ⟨served, fun no => by cases no⟩
  | true =>
    have body := join_increment_takes calloc ok (s := s)
    change r = _ at body
    rw [body]
    have takes := takes ok
    have position : (s.set.feeds.nextIncrement arrived).set.counters.incMsgNum.toNat =
        (s.set.feeds.nextIncrement arrived).set.position := rfl
    rw [position] at takes
    generalize (s.set.feeds.nextIncrement arrived).next = next at takes
    generalize (s.set.feeds.nextIncrement arrived).set = feeds at takes served
    generalize after : feeds.position = n at takes
    cases takes with
    | nothing =>
      refine ⟨served, fun _ => ⟨⟨served, under.pending, ?_, ?_, b, here, ?_⟩, waiting⟩⟩
      · rw [after]
        exact under.cur
      · rw [after]
        exact under.others
      · rw [after]
        exact behind
    | @message j next bound =>
      cases refresh : (ex.messages (j + 1)).isIncrement with
      | false =>
        rw [if_neg Bool.false_ne_true]
        refine ⟨served, fun _ => ⟨⟨served, under.pending, ?_, ?_, b, here, ?_⟩, waiting⟩⟩
        · have cur : s.msgNumCur.toNat ≤ s.set.feeds.counters.incMsgNum.toNat := under.cur
          simp only [after]
          omega
        · simp only [after]
          exact under.others.silent (sending.others k) configured next refresh
        · simp only [after]
          exact behind.silent sends inactive next refresh
      | true =>
        rw [if_pos rfl]
        have fixed := apply_increment_fixed calloc s.set.books none (ex.messages (j + 1))
        have served' : Served ex idle { s.set with
            feeds := feeds, books := (applyIncrement calloc s.set.books none (ex.messages (j + 1))).books } :=
          ⟨served.feed, (fixed_instruments fixed).trans configured, under.served.snapshots,
            fun l quiet => apply_increment_idle (under.served.idle l quiet)⟩
        cases applied : (applyIncrement calloc s.set.books none (ex.messages (j + 1))).ok with
        | false =>
          simp only [applied, if_true]
          exact ⟨served', fun no => by cases no⟩
        | true =>
          have number : (ex.messages (j + 1)).msgSeqNum.get = some (BitVec.ofNat 64 (j + 1)) := by
            rw [(sending.numbered (j + 1)).2]
            rfl
          simp only [applied, Bool.true_eq_false, if_false, number]
          obtain ⟨b', there, inactive', behind'⟩ := behind.refresh sends inactive configured sending.fresh next bound
            refresh here applied
          refine ⟨served', fun _ => ⟨⟨served', under.pending, ?_, ?_, b', there, ?_⟩, ?_⟩⟩
          · simp only [after]
            rw [BitVec.toNat_ofNat, Nat.mod_eq_of_lt bound]
          · simp only [after]
            exact under.others.refresh (sending.others k) configured sending.fresh next refresh applied
          · simp only [after]
            exact behind'
          · intro c at'
            obtain rfl : b' = c := Option.some.inj (there.symm.trans at')
            exact inactive'

/-- Snapshots come off the feeds they wait on. -/
theorem recv_snapshot_from {P : MdMessage → Prop} {f : Feed} (all : ∀ msg ∈ f.waiting, P msg) (arrived : Bool) :
    (∀ msg ∈ (recvSnapshot arrived f).feed.waiting, P msg) ∧ ∀ msg, (recvSnapshot arrived f).next = some msg → P msg := by
  have tail : ∀ msg ∈ (f.fastFeedRecv arrived).2.waiting, P msg := by
    cases arrived with
    | false => exact all
    | true => exact fun msg mem => all msg (List.mem_of_mem_tail mem)
  have head : ∀ msg, (f.fastFeedRecv arrived).1 = some msg → P msg := by
    cases arrived with
    | false => exact fun msg (no : none = some msg) => nomatch no
    | true => exact fun msg first => all msg (List.mem_of_head? first)
  rw [recvSnapshot]
  generalize f.fastFeedRecv arrived = r at tail head
  obtain ⟨first, feed⟩ := r
  cases first with
  | none => exact ⟨tail, fun msg (no : none = some msg) => nomatch no⟩
  | some m =>
    simp only
    repeat' split
    all_goals first
      | exact ⟨tail, fun msg (no : none = some msg) => nomatch no⟩
      | exact ⟨tail, fun msg same => head msg same⟩

theorem next_snapshot_from {P : MdMessage → Prop} {polled : List (Bool × Feed)}
    (all : ∀ p ∈ polled, ∀ msg ∈ p.2.waiting, P msg) {next : Option MdMessage} (first : ∀ msg, next = some msg → P msg) :
    (∀ f ∈ (nextSnapshot next polled).2.1, ∀ msg ∈ f.waiting, P msg) ∧
      ∀ msg, (nextSnapshot next polled).2.2 = some msg → P msg := by
  induction polled generalizing next with
  | nil => exact ⟨nofun, first⟩
  | cons p rest ih =>
    obtain ⟨arrived, f⟩ := p
    obtain ⟨here, later⟩ := List.forall_mem_cons.1 all
    obtain ⟨feed, received⟩ := recv_snapshot_from here arrived
    have kept : ∀ msg, keepFirst next (recvSnapshot arrived f).next = some msg → P msg := by
      intro msg same
      cases old : next with
      | none =>
        rw [old] at same
        cases new : (recvSnapshot arrived f).next with
        | none =>
          rw [new] at same
          cases same
        | some m =>
          rw [new] at same
          cases same
          exact received _ new
      | some m =>
        rw [old] at same
        refine first msg (old.trans ?_)
        cases new : (recvSnapshot arrived f).next <;> rw [new] at same <;> exact same
    rw [nextSnapshot]
    split
    · refine ⟨List.forall_mem_cons.2 ⟨feed, fun g mem => ?_⟩, first⟩
      obtain ⟨q, there, rfl⟩ := List.mem_map.1 mem
      exact later q there
    · obtain ⟨feeds, next'⟩ := ih later kept
      exact ⟨List.forall_mem_cons.2 ⟨feed, feeds⟩, next'⟩

/-- The poll of the snapshot feeds. -/
theorem poll_snapshots_underway (under : Underway ex idle which k s) (waiting : s.Waiting k) (t : Turn) :
    Underway ex idle which k (pollSnapshots t s).2 ∧ (pollSnapshots t s).2.Waiting k := by
  rw [pollSnapshots]
  split
  · exact ⟨under, waiting⟩
  · have all : ∀ p ∈ s.set.snpFeeds.mapIdx (fun i f => (t.snpArrived i, f)), ∀ msg ∈ p.2.waiting, ex.Shows msg := by
      intro p mem
      obtain ⟨i, lt, same⟩ := List.mem_mapIdx.1 mem
      have feed : p.2 = s.set.snpFeeds[i] := by rw [← same]
      rw [feed]
      exact under.served.snapshots _ (List.getElem_mem lt)
    have first : ∀ msg, (none : Option MdMessage) = some msg → ex.Shows msg := fun msg no => (nomatch no)
    obtain ⟨feeds, next⟩ := next_snapshot_from all first
    generalize nextSnapshot none (s.set.snpFeeds.mapIdx fun i f => (t.snpArrived i, f)) = r at feeds next
    obtain ⟨ok, snpFeeds, snpMsg⟩ := r
    exact ⟨⟨⟨under.served.feed, under.served.configured, feeds, under.served.idle⟩, next, under.cur, under.others, under.book⟩, waiting⟩

/-! ## The snapshot of a turn -/

theorem get_value {α : Type} {f : FieldRead α} {v : α} (h : f.get = some v) : f = .value v := by
  cases f <;> cases h
  rfl

theorem snapshot_entries_shape (b : FastBook) (mds : List MdEntry) :
    ∃ ob empty, (snapshotEntries calloc b mds).2 = { b with ob := ob, empty := empty } := by
  induction mds generalizing b with
  | nil => exact ⟨b.ob, b.empty, rfl⟩
  | cons md mds ih =>
    obtain ⟨ob, empty, first⟩ := @md_snapshot_shape calloc b md
    rw [snapshotEntries]
    split
    · exact ⟨ob, empty, first⟩
    · obtain ⟨ob', empty', rest⟩ := ih (mdSnapshot calloc b md).2
      refine ⟨ob', empty', rest.trans ?_⟩
      rw [first]

/-- The book a snapshot is written to: the message leads to it, and it is being joined. -/
theorem snapshot_target_taken {books : List FastBook} {dst : Option FastBook} {msg : MdMessage} {i : Nat} {b : FastBook}
    {n : U64} (target : snapshotTarget books dst msg = some (i, b, n)) :
    leads (books.map FastBook.instrument) msg.securityId msg.symbol = some i ∧ books[i]? = some b ∧
      (applySnapshot calloc books dst msg).1 = (snapshotBook calloc b n msg.entries).1 := by
  rw [snapshotTarget] at target
  rw [applySnapshot, MdMessage.entries]
  cases routed : route books dst (fun b => !b.active && b.join) msg.securityId msg.symbol with
  | fail => rw [routed] at target; cases target
  | skip => rw [routed] at target; cases target
  | book j c =>
    rw [routed] at target
    simp only at target ⊢
    cases entries : msg.mdEntries.get with
    | none => rw [entries] at target; cases target
    | some seq =>
      rw [entries] at target
      simp only at target ⊢
      cases length : seq.length.get with
      | none => rw [length] at target; cases target
      | some count =>
        rw [length] at target
        simp only at target ⊢
        by_cases zero : count = 0
        · rw [if_pos zero] at target
          cases target
        · rw [if_neg zero] at target ⊢
          cases session : inSession c seq.running.tradingSessionId with
          | none => rw [session] at target; cases target
          | some here =>
            rw [session] at target
            cases here with
            | false => cases target
            | true =>
              simp only at target ⊢
              obtain ⟨number, there, same⟩ := Option.map_eq_some_iff.1 target
              cases same
              rw [there]
              exact ⟨route_leads routed, (route_book routed).1, rfl⟩

/-- The book that a snapshot leads to has the id, or the symbol, of the one that is being joined. -/
theorem snapshot_for_same {books : List FastBook} {book b : FastBook} {msg : MdMessage} {i : Nat}
    (wanted : snapshotFor books book msg = some true)
    (goes : leads (books.map FastBook.instrument) msg.securityId msg.symbol = some i) (here : books[i]? = some b) :
    (msg.securityId = .missing → book.symbol = b.symbol) ∧ (msg.securityId ≠ .missing → book.secid = b.secid) := by
  unfold leads at goes
  rw [snapshotFor] at wanted
  cases id : msg.securityId with
  | empty =>
    rw [id] at wanted
    cases wanted
  | value id' =>
    rw [id] at wanted goes
    have found : fastBookById books id' = some i := (find_by_id books id').symm.trans goes
    simp only [found, Option.bind_some, here] at wanted
    exact ⟨fun no => (nomatch no), fun _ => of_decide_eq_true (Option.some.inj wanted)⟩
  | missing =>
    rw [id] at wanted goes
    cases read : msg.symbol.get with
    | none =>
      rw [read] at goes
      cases goes
    | some symbol =>
      rw [read] at wanted goes
      have found : fastBookBySymbol books symbol = some i := (find_by_symbol books symbol).symm.trans goes
      simp only [found, Option.bind_some, here] at wanted
      exact ⟨fun _ => (of_decide_eq_true (Option.some.inj wanted)).symm, fun no => absurd rfl no⟩

/-- **The snapshot** that is applied is of a message of the past, and leaves every level of the book behind it. -/
theorem Behind.snapshot {n : Nat} {init last number : U64} {b : FastBook} {mds : List MdEntry}
    (h : Behind ex k n init b) (sends : ex.Sends k b.instrument) (inactive : b.active = false)
    (fresh : ∀ ob a, calloc ob = some a → ob.live a = false) (lists : Exchange.Lists b.instrument (ex.book k last.toNat) mds)
    (begun : init ≠ 0) (later : ¬last < init) (come : last.toNat ≤ n)
    (ok : (snapshotBook calloc b number mds).1 = true) : Behind ex k n init (snapshotBook calloc b number mds).2 := by
  obtain ⟨first, le, before, m, catching, -⟩ := h.catching
  have lower : init.toNat ≤ last.toNat := BitVec.not_lt.1 later
  have started : n ≠ 0 := fun none => begun (h.fresh none).2
  have isOld : ex.past k first n (ex.book k last.toNat) := by
    have apart := before begun
    exact ⟨last.toNat, by omega, come, rfl⟩
  rw [snapshotBook] at ok ⊢
  simp only at ok ⊢
  cases taken : (snapshotEntries calloc { b with snpseq := number, empty := false } mds).1 with
  | false =>
    simp only [taken, if_true, Bool.false_eq_true] at ok
  | true =>
    obtain ⟨m', catching', covers⟩ := catching.covers (b := { b with snpseq := number, empty := false }) isOld
      (ex.book_proper sends last.toNat) lists fresh taken
    obtain ⟨ob, empty, shape⟩ := @snapshot_entries_shape calloc { b with snpseq := number, empty := false } mds
    rw [shape] at catching' ⊢
    simp only [Bool.true_eq_false, if_false]
    split
    · refine ⟨h.join, fun none => absurd none started, first, le, before, m', catching', fun active => ?_⟩
      rw [show b.active = true from active] at inactive
      cases inactive
    · exact ⟨h.join, fun none => absurd none started, first, le, before, m', catching',
        fun _ => ⟨started, _, isOld, covers⟩⟩

theorem snapshot_book_instrument (b : FastBook) (n : U64) (mds : List MdEntry) :
    (snapshotBook calloc b n mds).2.instrument = b.instrument := by
  obtain ⟨ob, empty, shape⟩ := @snapshot_entries_shape calloc { b with snpseq := n, empty := false } mds
  rw [snapshotBook]
  simp only [shape]
  split
  · rfl
  · split <;> rfl

/-- The snapshot of a turn. -/
theorem join_snapshot_underway (sending : Sending ex calloc which) (mine : which k) (under : Underway ex idle which k s)
    (waiting : s.Waiting k) {msg : MdMessage} (shows : ex.Shows msg) :
    let r := joinSnapshot calloc k s msg
    Served ex idle r.2.set ∧ (r.1 = true → Underway ex idle which k r.2) := by
  intro r
  obtain ⟨book, here, behind⟩ := under.book
  have configured := under.served.configured
  have is := configured_at configured here
  have same (snpReceived : Bool) : Underway ex idle which k { s with snpReceived := snpReceived } :=
    ⟨under.served, under.pending, under.cur, under.others, book, here, behind⟩
  have failed : Served ex idle s.set ∧ (false = true → Underway ex idle which k s) := ⟨under.served, fun no => (nomatch no)⟩
  have on : Served ex idle s.set ∧ (true = true → Underway ex idle which k s) := ⟨under.served, fun _ => under⟩
  simp only [r, joinSnapshot, here]
  cases wanted : snapshotFor s.set.books book msg with
  | none => exact failed
  | some this =>
    cases this with
    | false => exact on
    | true =>
      simp only
      cases read : msg.lastMsgSeqNumProcessed.get with
      | none => exact failed
      | some last =>
        simp only
        by_cases begun : s.msgNumInit = 0
        · rw [if_pos begun]
          exact on
        rw [if_neg begun]
        by_cases early : last < s.msgNumInit
        · rw [if_pos early]
          exact on
        rw [if_neg early]
        by_cases late : s.msgNumCur < last
        · rw [if_pos late]
          exact ⟨under.served, fun _ => same true⟩
        rw [if_neg late]
        have come : last.toNat ≤ s.set.feeds.position := Nat.le_trans (BitVec.not_lt.1 late) under.cur
        have result := @apply_snapshot_target calloc s.set.books (some book) msg
        cases target : snapshotTarget s.set.books (some book) msg with
        | none =>
          rw [target] at result
          simp only [result]
          cases ok : (applySnapshot calloc s.set.books (some book) msg).1 with
          | false =>
            rw [if_pos rfl]
            exact ⟨under.served, fun no => (nomatch no)⟩
          | true =>
            rw [if_neg (by decide)]
            exact ⟨under.served, fun _ => same _⟩
        | some hit =>
          obtain ⟨i, b, number⟩ := hit
          rw [target] at result
          obtain ⟨goes, there, ends⟩ := @snapshot_target_taken calloc _ _ _ _ _ _ target
          have them := configured_at configured there
          have leads' := goes
          rw [configured] at leads'
          have names := snapshot_for_same wanted goes there
          obtain rfl : k = i := shows.one i b.instrument leads' them k book.instrument is names.1 names.2
          obtain rfl : book = b := Option.some.inj (here.symm.trans there)
          have lists := shows.lists k _ last leads' them (get_value read)
          have lt : k < s.set.books.length := (List.getElem?_eq_some_iff.1 here).1
          have instruments : (s.set.books.set k (snapshotBook calloc book number msg.entries).2).map FastBook.instrument =
              s.set.books.map FastBook.instrument := map_set_same _ here (snapshot_book_instrument book number msg.entries)
          have served : Served ex idle { s.set with books := (applySnapshot calloc s.set.books (some book) msg).2 } := by
            refine ⟨under.served.feed, ?_, under.served.snapshots, fun l quiet c at' => ?_⟩
            · simp only [result]
              exact instruments.trans configured
            · have other : k ≠ l := fun same => (under.served.idle l quiet book (same ▸ here)).1 (.inr behind.join)
              simp only [result, List.getElem?_set_ne other] at at'
              exact under.served.idle l quiet c at'
          cases ok : (applySnapshot calloc s.set.books (some book) msg).1 with
          | false =>
            rw [if_pos rfl]
            exact ⟨served, fun no => (nomatch no)⟩
          | true =>
            rw [if_neg (by decide)]
            refine ⟨served, fun _ => ⟨served, under.pending, under.cur, ?_, (snapshotBook calloc book number msg.entries).2,
              ?_, ?_⟩⟩
            · intro l other
              simp only [result, List.getElem?_set_ne (Ne.symm other.2)]
              exact under.others l other
            · simp only [result]
              exact List.getElem?_set_self lt
            · exact behind.snapshot (sending.sends k _ mine is) (waiting book here) sending.fresh lists begun early come
                (ends.symm.trans ok)

/-! ## The loop -/

/-- **One turn.** -/
theorem join_turn_underway (sending : Sending ex calloc which) (mine : which k) (under : Underway ex idle which k s)
    (waiting : s.Waiting k) (t : Turn) :
    let r := joinTurn calloc k t s
    Served ex idle r.2.1.set ∧ (r.1 = true → Underway ex idle which k r.2.1) := by
  intro r
  have increment := join_increment_underway sending mine under waiting t.incArrived
  simp only [r, joinTurn]
  generalize joinIncrement calloc s (s.set.feeds.nextIncrement t.incArrived) = first at increment
  obtain ⟨ok, s₁, fed⟩ := first
  obtain ⟨served, goesOn⟩ := increment
  cases ok with
  | false => exact ⟨served, fun no => (nomatch no)⟩
  | true =>
    simp only [Bool.true_eq_false, if_false]
    obtain ⟨under₁, waiting₁⟩ := goesOn rfl
    have polled := poll_snapshots_underway under₁ waiting₁ t
    generalize pollSnapshots t s₁ = second at polled
    obtain ⟨ok, s₂⟩ := second
    obtain ⟨under₂, waiting₂⟩ := polled
    cases ok with
    | false => exact ⟨under₂.served, fun no => (nomatch no)⟩
    | true =>
      simp only [Bool.true_eq_false, if_false]
      cases pending : s₂.snpMsg with
      | none => exact ⟨under₂.served, fun _ => under₂⟩
      | some msg => exact join_snapshot_underway sending mine under₂ waiting₂ (under₂.pending msg pending)

/-- **The loop** comes to its end with the book active, and every level of a book of the past in it. -/
theorem join_loop_underway (sending : Sending ex calloc which) (mine : which k) (under : Underway ex idle which k s)
    (turns : List Turn) :
    let r := joinLoop calloc k turns s
    Served ex idle r.2.1.set ∧ (r.1 = .done → Underway ex idle which k r.2.1 ∧
      ∃ b, r.2.1.set.books[k]? = some b ∧ b.active = true) := by
  induction turns generalizing s with
  | nil =>
    rw [joinLoop]
    split
    · rename_i active
      exact ⟨under.served, fun _ => ⟨under, (Option.any_eq_true ..).1 active⟩⟩
    · exact ⟨under.served, fun no => by cases no⟩
  | cons t turns ih =>
    rw [joinLoop]
    split
    · rename_i active
      exact ⟨under.served, fun _ => ⟨under, (Option.any_eq_true ..).1 active⟩⟩
    · rename_i inactive
      have waiting : s.Waiting k := by
        intro b here
        rw [here] at inactive
        exact Bool.eq_false_iff.2 inactive
      obtain ⟨served, goesOn⟩ := join_turn_underway sending mine under waiting t
      simp only
      generalize joinTurn calloc k t s = turn at served goesOn
      obtain ⟨ok, s', fed⟩ := turn
      cases ok with
      | false => exact ⟨served, fun no => by cases no⟩
      | true => exact ih (goesOn rfl)

/-! ## The join -/

theorem modify_at {books : List FastBook} {b : FastBook} (here : books[k]? = some b) (f : FastBook → FastBook) :
    books.modify k f = books.set k (f b) := by
  rw [List.modify_eq_set_getElem?, here]
  rfl

theorem Served.fewer {idle' : Nat → Prop} {set : FastBookSet} (h : Served ex idle set) (fewer : ∀ l, idle' l → idle l) :
    Served ex idle' set :=
  ⟨h.feed, h.configured, h.snapshots, fun l quiet => h.idle l (fewer l quiet)⟩

/-- A book that is put in place of one that is not idle. -/
theorem Served.put {set : FastBookSet} {b b' : FastBook} (h : Served ex idle set) (here : set.books[k]? = some b)
    (busy : ¬idle k) (same : b'.instrument = b.instrument) : Served ex idle (set.modifyBook k fun _ => b') := by
  have body : (set.modifyBook k fun _ => b').books = set.books.set k b' := modify_at here _
  refine ⟨h.feed, ?_, h.snapshots, fun l quiet c there => ?_⟩
  · rw [body, map_set_same _ here same]
    exact h.configured
  · rw [body] at there
    have other : k ≠ l := fun is => busy (is ▸ quiet)
    rw [List.getElem?_set_ne other] at there
    exact h.idle l quiet c there

/-- The loop of a join begins with the book as it was cleared. -/
theorem join_starts {set : FastBookSet} {waiting : List MdMessage} (served : Served ex idle set) (busy : ¬idle k)
    (tracked : Tracked ex (others which k) set.feeds.position set.books)
    (cleared : ∃ b, set.books[k]? = some b ∧ b.ob = obInit) (shows : ∀ msg ∈ waiting, ex.Shows msg) :
    Underway ex idle which k
      ⟨(set.openSnapshots waiting).modifyBook k fun b => { b with active := false, join := true }, none, false, 0, 0⟩ := by
  obtain ⟨b, here, empty⟩ := cleared
  have body : ((set.openSnapshots waiting).modifyBook k fun b => { b with active := false, join := true }).books =
      set.books.set k { b with active := false, join := true } := modify_at here _
  refine ⟨⟨served.feed, ?_, fun f mem => ?_, fun l quiet c there => ?_⟩, fun msg no => (nomatch no), Nat.zero_le _,
    fun l other => ?_, { b with active := false, join := true }, ?_, rfl, fun _ => ⟨empty, rfl⟩, ?_⟩
  · rw [body]
    have same : FastBook.instrument { b with active := false, join := true } = b.instrument := rfl
    exact (map_set_same FastBook.instrument here same).trans served.configured
  · obtain ⟨l, lt, same⟩ := List.mem_iff_getElem.1 mem
    have at' : (set.snpFeeds.modify 0 fun f => { f with waiting := waiting })[l]? = some f := List.getElem?_eq_some_iff.2 ⟨lt, same⟩
    rw [List.getElem?_modify] at at'
    obtain ⟨g, there, is⟩ := Option.map_eq_some_iff.1 at'
    rw [← is]
    split
    · exact shows
    · exact served.snapshots g (List.mem_of_getElem? there)
  · have other : k ≠ l := fun same => busy (same ▸ quiet)
    rw [body, List.getElem?_set_ne other] at there
    exact served.idle l quiet c there
  · rw [body, List.getElem?_set_ne (Ne.symm other.2)]
    exact tracked l other
  · rw [body]
    exact List.getElem?_set_self (List.getElem?_eq_some_iff.1 here).1
  · have catching := Catching.init (ex.book k set.feeds.position)
    refine ⟨set.feeds.position, Nat.le_refl _, fun no => absurd rfl no, fun _ _ => none, ?_, fun no => (nomatch no)⟩
    rw [show ({ b with active := false, join := true } : FastBook).ob = obInit from empty]
    refine ⟨catching.indexed, catching.small, catching.catches.mono fun map old => ?_⟩
    obtain ⟨l, lower, upper, same⟩ := old
    rw [Nat.le_antisymm upper lower] at same
    exact same

/-- **A join** leaves the book live, when it is done, and the others as live as they were. -/
theorem fast_books_join_tracks (sending : Sending ex calloc which) (mine : which k) {set : FastBookSet}
    (served : Served ex idle set) (busy : ¬idle k) (tracked : Tracked ex (others which k) set.feeds.position set.books)
    (cleared : ∃ b, set.books[k]? = some b ∧ b.ob = obInit) {j : Joining}
    (shows : ∀ waiting, j.opened = some waiting → ∀ msg ∈ waiting, ex.Shows msg) :
    let r := fastBooksJoin calloc set k j
    Served ex idle r.2.1 ∧ (r.1 = .done → Tracked ex which r.2.1.feeds.position r.2.1.books) := by
  intro r
  simp only [r, fastBooksJoin]
  cases opened : j.opened with
  | none => exact ⟨served, fun no => (nomatch no)⟩
  | some waiting =>
    simp only
    have loop := join_loop_underway sending mine (join_starts served busy tracked cleared (shows waiting opened)) j.turns
    generalize joinLoop calloc k j.turns ⟨(set.openSnapshots waiting).modifyBook k fun b =>
      { b with active := false, join := true }, none, false, 0, 0⟩ = l at loop
    obtain ⟨ended, s, fed⟩ := l
    obtain ⟨served', done⟩ := loop
    cases ended with
    | failed => exact ⟨served', fun no => (nomatch no)⟩
    | running => exact ⟨served', fun no => (nomatch no)⟩
    | done =>
      obtain ⟨under, b, here, active⟩ := done rfl
      obtain ⟨b', there, behind⟩ := under.book
      obtain rfl : b = b' := Option.some.inj (here.symm.trans there)
      obtain ⟨first, -, -, m, catching, complete⟩ := behind.catching
      obtain ⟨started, old, isOld, covers⟩ := complete active
      obtain ⟨dropped, live⟩ := catching.live isOld covers
      have same : b.dropEmpty.2.instrument = b.instrument ∧ b.dropEmpty.2.active = b.active := by
        rw [FastBook.dropEmpty]
        simp only
        split <;> exact ⟨rfl, rfl⟩
      simp only [here, dropped, Bool.true_eq_false, if_false]
      refine ⟨served'.put here busy same.1, fun _ l is => ?_⟩
      have body : (s.set.modifyBook k fun _ => { b.dropEmpty.2 with join := false }).books =
          s.set.books.set k { b.dropEmpty.2 with join := false } := modify_at here _
      rw [body]
      by_cases other : l = k
      · rw [other]
        exact ⟨started, { b.dropEmpty.2 with join := false },
          List.getElem?_set_self (List.getElem?_eq_some_iff.1 here).1, same.2.trans active, live⟩
      · rw [List.getElem?_set_ne (Ne.symm other)]
        exact under.others l ⟨is, other⟩

end

end Libtrading.Book
