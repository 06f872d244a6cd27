import Libtrading.Book.Merging

/-!
# Following the messages

No call changes what a book is configured with, so an id or a symbol leads to one book through a whole run. What
an increment that is applied does to this book, its entries do one after the other, each with a change it
carries; `entries_follow` is that for any invariant of a book and its levels at the exchange. The messages come
off one feed, which may lose any of them: a call that does not fail takes the next one, or none.
-/

namespace Libtrading.Book
set_option autoImplicit false
open Fast OrderBook Store

/-! ## What stays of the books -/

/-- What an increment leaves of a book. -/
structure Fixed where
  instrument : Instrument
  subscribed : Bool
  active : Bool
  join : Bool
  deriving DecidableEq, Repr

def FastBook.fixed (b : FastBook) : Fixed := ⟨b.instrument, b.subscribed, b.active, b.join⟩

section
variable {books : List FastBook} {dst : Option FastBook} {takes : FastBook → Bool} {securityId : FieldRead U64}
  {symbol : FieldRead Bytes} {i : Nat} {b : FastBook}

/-- A book put in the place of one with the same of anything that is looked at. -/
theorem map_set_same {α : Type} (f : FastBook → α) (here : books[i]? = some b) {b' : FastBook} (same : f b' = f b) :
    (books.set i b').map f = books.map f := by
  obtain ⟨lt, rfl⟩ := List.getElem?_eq_some_iff.1 here
  rw [List.map_set, same]
  refine List.ext_getElem? fun j => ?_
  by_cases at' : i = j
  · subst at'
    rw [List.getElem?_set_self (by rw [List.length_map]; exact lt), List.getElem?_map, List.getElem?_eq_getElem lt]
    rfl
  · rw [List.getElem?_set_ne at']

theorem find_by_id (books : List FastBook) (id : U64) :
    (books.map FastBook.instrument).findIdx? (fun i => i.secid = id) = fastBookById books id := List.findIdx?_map

theorem find_by_symbol (books : List FastBook) (s : Bytes) :
    (books.map FastBook.instrument).findIdx? (fun i => i.symbol.isPrefixOf (cstring s)) = fastBookBySymbol books s :=
  List.findIdx?_map

/-- A book that is chosen is the one that was found. -/
theorem chosen_found {same : FastBook → Bool} {j : Option Nat}
    (chosen : (match j with
      | none => Route.skip
      | some j =>
        match books[j]? with
        | none => .skip
        | some c => if takes c = false then .skip else if same c = false then .skip else .book j c) = .book i b) :
    j = some i := by
  cases j with
  | none => cases chosen
  | some j =>
    simp only at chosen
    split at chosen
    · cases chosen
    · split at chosen
      · cases chosen
      · split at chosen
        · cases chosen
        · cases chosen
          rfl

/-- What is routed to a book leads to it. -/
theorem route_leads (routed : route books dst takes securityId symbol = .book i b) :
    leads (books.map FastBook.instrument) securityId symbol = some i := by
  unfold route at routed
  unfold leads
  cases securityId with
  | empty => cases routed
  | value id => exact (find_by_id books id).trans (chosen_found routed)
  | missing =>
    cases read : symbol.get with
    | none =>
      rw [read] at routed
      cases routed
    | some s =>
      rw [read] at routed
      exact (find_by_symbol books s).trans (chosen_found routed)

/-- What leads to a book that takes it is routed there. -/
theorem leads_route (goes : leads (books.map FastBook.instrument) securityId symbol = some i) (here : books[i]? = some b)
    (takes' : takes b = true) : route books none takes securityId symbol = .book i b := by
  unfold leads at goes
  unfold route
  cases securityId with
  | empty => cases goes
  | value id =>
    have found : fastBookById books id = some i := (find_by_id books id).symm.trans goes
    simp only [found, here, takes', Bool.true_eq_false, if_false, Option.all_none]
  | missing =>
    cases read : symbol.get with
    | none =>
      rw [read] at goes
      cases goes
    | some s =>
      rw [read] at goes
      have found : fastBookBySymbol books s = some i := (find_by_symbol books s).symm.trans goes
      simp only [found, here, takes', Bool.true_eq_false, if_false, Option.all_none]

theorem reached_route {md : MdEntry} {n : U64} (counted : reached dst books md = .counted i b n) :
    route books dst (fun b => b.active || b.join) md.securityId md.symbol = .book i b := by
  rw [reached] at counted
  cases routed : route books dst (fun b => b.active || b.join) md.securityId md.symbol with
  | fail => rw [routed] at counted; cases counted
  | skip => rw [routed] at counted; cases counted
  | book j c =>
    rw [routed] at counted
    simp only at counted
    split at counted
    · cases counted
    · cases counted
    · split at counted
      · cases counted
      · cases counted
        rfl

theorem reached_leads {md : MdEntry} {n : U64} (counted : reached dst books md = .counted i b n) :
    leads (books.map FastBook.instrument) md.securityId md.symbol = some i := route_leads (reached_route counted)

theorem reached_marked {md : MdEntry} {n : U64} (counted : reached dst books md = .counted i b n) : b.Marked :=
  Bool.or_eq_true_iff.1 (route_book (reached_route counted)).2

/-- An entry that carries a change comes to its book, if that takes entries. -/
theorem reached_carried {md : MdEntry} {c : Change}
    (goes : leads (books.map FastBook.instrument) md.securityId md.symbol = some i) (here : books[i]? = some b)
    (takes' : (b.active || b.join) = true) (carries : Carries b.instrument c md) :
    reached none books md = match md.rptSeq.get with
      | none => .ends
      | some n => .counted i b n := by
  have session : inSession b md.tradingSessionId = some true := in_session_iff.2 carries.session
  rw [reached, leads_route goes here takes']
  cases md.rptSeq.get <;> simp only [session]

end

section
variable {calloc : OrderBook → Option Addr}

theorem md_increment_shape (b : FastBook) (md : MdEntry) :
    ∃ ob empty, (mdIncrement calloc b md).2 = { b with ob := ob, empty := empty } := by
  rw [mdIncrement]
  split
  · exact ⟨b.ob, b.empty, rfl⟩
  · exact ⟨b.ob, true, rfl⟩
  · split
    · exact ⟨b.ob, b.empty, rfl⟩
    · split
      · exact ⟨_, b.empty, rfl⟩
      · split
        · split <;> exact ⟨_, b.empty, rfl⟩
        · exact ⟨b.ob, b.empty, rfl⟩

theorem count_entry_fixed (b : FastBook) (n : U64) (md : MdEntry) : (countEntry calloc b n md).2.fixed = b.fixed := by
  rw [count_entry_eq]
  split
  · obtain ⟨ob, empty, shape⟩ := @md_increment_shape calloc { b with rptseq := n, empty := false } md
    rw [shape]
    rfl
  · rfl

theorem apply_entries_fixed (dst : Option FastBook) (books : List FastBook) (mds : List MdEntry) :
    (applyEntries calloc dst books mds).books.map FastBook.fixed = books.map FastBook.fixed := by
  induction mds generalizing books with
  | nil => rfl
  | cons md mds ih =>
    rw [apply_entries_reached]
    cases way : reached dst books md with
    | ends => rfl
    | passed => exact ih books
    | counted i b n =>
      have set : (books.set i (countEntry calloc b n md).2).map FastBook.fixed = books.map FastBook.fixed :=
        map_set_same _ (reached_book way) (count_entry_fixed b n md)
      simp only
      split
      · exact set
      · exact (ih _).trans set

/-- An increment leaves the configurations. -/
theorem fixed_instruments {books books' : List FastBook}
    (same : books'.map FastBook.fixed = books.map FastBook.fixed) :
    books'.map FastBook.instrument = books.map FastBook.instrument := by
  have parts := congrArg (List.map Fixed.instrument) same
  rwa [List.map_map, List.map_map] at parts

theorem fixed_at {books books' : List FastBook} (same : books'.map FastBook.fixed = books.map FastBook.fixed) {k : Nat}
    {b' : FastBook} (here : books'[k]? = some b') : ∃ b, books[k]? = some b ∧ b.fixed = b'.fixed := by
  have at' := congrArg (·[k]?) same
  simp only [List.getElem?_map, here, Option.map_some] at at'
  exact Option.map_eq_some_iff.1 at'.symm

/-! ## Entries -/

/-- **The entries of an increment that is applied** take the changes they carry to their book. -/
theorem entries_follow {P : FastBook → Sent → Prop} {k : Nat} {i : Instrument}
    (takes : ∀ b sent, P b sent → (b.active || b.join) = true)
    (step : ∀ b sent c md n, b.instrument = i → P b sent → Carries i c md → c.Proper →
      (countEntry calloc b n md).1 = true → P (countEntry calloc b n md).2 (sent.apply c))
    {mds : List MdEntry} {cs : List Change} {books : List FastBook} {b : FastBook} {sent : Sent}
    (carries : List.Forall₂ (Carries i) cs
      (mds.filter fun md => leads (books.map FastBook.instrument) md.securityId md.symbol = some k))
    (proper : ∀ c ∈ cs, c.Proper) (here : books[k]? = some b) (is : b.instrument = i) (before : P b sent)
    (ok : (applyEntries calloc none books mds).ok = true) :
    ∃ b', (applyEntries calloc none books mds).books[k]? = some b' ∧ P b' (cs.foldl Sent.apply sent) := by
  induction mds generalizing cs books b sent with
  | nil =>
    cases carries
    exact ⟨b, here, before⟩
  | cons md mds ih =>
    rw [apply_entries_reached] at ok ⊢
    by_cases goes : leads (books.map FastBook.instrument) md.securityId md.symbol = some k
    · rw [List.filter_cons, if_pos (decide_eq_true goes)] at carries
      cases carries with
      | @cons c _ cs _ carried rest =>
        obtain ⟨first, later⟩ := List.forall_mem_cons.1 proper
        rw [reached_carried goes here (takes b sent before) (is ▸ carried)] at ok ⊢
        cases number : md.rptSeq.get with
        | none =>
          simp only [number, Bool.false_eq_true] at ok
        | some n =>
          simp only [number] at ok ⊢
          cases taken : (countEntry calloc b n md).1 with
          | false =>
            simp only [taken, if_true, Bool.false_eq_true] at ok
          | true =>
            simp only [taken, Bool.true_eq_false, if_false] at ok ⊢
            have fixed := @count_entry_fixed calloc b n md
            have instrument : (countEntry calloc b n md).2.instrument = b.instrument := congrArg Fixed.instrument fixed
            have same : (books.set k (countEntry calloc b n md).2).map FastBook.instrument =
                books.map FastBook.instrument := map_set_same _ here instrument
            refine @ih cs _ _ (sent.apply c) (same ▸ rest) later
              (List.getElem?_set_self (List.getElem?_eq_some_iff.1 here).1) (instrument.trans is) ?_ ok
            exact step b sent c md n is before carried first taken
    · rw [List.filter_cons, if_neg (by simpa using goes)] at carries
      cases way : reached none books md with
      | ends =>
        simp only [way, Bool.false_eq_true] at ok
      | passed =>
        simp only [way] at ok ⊢
        exact ih carries proper here is before ok
      | counted j c n =>
        simp only [way] at ok ⊢
        have other : j ≠ k := fun same => goes (same ▸ reached_leads way)
        have instrument : (countEntry calloc c n md).2.instrument = c.instrument :=
          congrArg Fixed.instrument (count_entry_fixed c n md)
        have same : (books.set j (countEntry calloc c n md).2).map FastBook.instrument = books.map FastBook.instrument :=
          map_set_same _ (reached_book way) instrument
        cases taken : (countEntry calloc c n md).1 with
        | false =>
          simp only [taken, if_true, Bool.false_eq_true] at ok
        | true =>
          simp only [taken, Bool.true_eq_false, if_false] at ok ⊢
          exact ih (same ▸ carries) proper ((List.getElem?_set_ne other).trans here) is before ok

end

/-- What an increment that is applied does to a book that takes entries: it takes the changes of the message. -/
theorem increment_follows {ex : Exchange} {calloc : OrderBook → Option Addr} {P : FastBook → Sent → Prop} {k : Nat}
    {i : Instrument} (takes : ∀ b sent, P b sent → (b.active || b.join) = true)
    (step : ∀ b sent c md n, b.instrument = i → P b sent → Carries i c md → c.Proper →
      (countEntry calloc b n md).1 = true → P (countEntry calloc b n md).2 (sent.apply c))
    (sends : ex.Sends k i) {books : List FastBook} (configured : books.map FastBook.instrument = ex.instruments) {j : Nat}
    (refresh : (ex.messages (j + 1)).isIncrement = true) {b : FastBook} (here : books[k]? = some b) (is : b.instrument = i)
    (before : P b (ex.book k j)) (ok : (applyIncrement calloc books none (ex.messages (j + 1))).ok = true) :
    ∃ b', (applyIncrement calloc books none (ex.messages (j + 1))).books[k]? = some b' ∧ P b' (ex.book k (j + 1)) := by
  have loop : (applyEntries calloc none books (ex.messages (j + 1)).entries).ok = true := by
    rw [applyIncrement] at ok
    rw [MdMessage.entries]
    cases there : (ex.messages (j + 1)).mdEntries.get with
    | none =>
      rw [there] at ok
      cases ok
    | some seq =>
      cases length : seq.length.get with
      | none =>
        simp only [there, length] at ok
        cases ok
      | some n => simpa only [there, length] using ok
  rw [apply_increment_entries]
  exact entries_follow takes step (configured ▸ sends.carries (j + 1) refresh) (sends.proper (j + 1)) here is before loop

theorem apply_increment_fixed (calloc : OrderBook → Option Addr) (books : List FastBook) (dst : Option FastBook)
    (msg : MdMessage) : (applyIncrement calloc books dst msg).books.map FastBook.fixed = books.map FastBook.fixed := by
  rw [apply_increment_entries]
  exact apply_entries_fixed dst books msg.entries

/-! ## The feed -/

/-- One increment feed, which delivers a subsequence of the messages. -/
def FeedSet.OneFeed (stream : Nat → MdMessage) (s : FeedSet) : Prop :=
  ∃ f, s.incFeeds = [f] ∧ f.Follows stream s.counters

/-- What a call takes behind message `n`, where it is not the first: nothing, or the next message, which it hands
out if it is a refresh. -/
inductive Takes (stream : Nat → MdMessage) (n : Nat) : Option MdMessage → Nat → Prop
  | nothing : Takes stream n none n
  | message {j : Nat} (next : n = 0 ∨ j = n) (bound : j + 1 < 2 ^ 64) :
    Takes stream n (if (stream (j + 1)).isIncrement then some (stream (j + 1)) else none) (j + 1)

/-- What `next_increment` leaves of its polls, whether it finds a gap or not. -/
theorem next_increment_poll (s : FeedSet) (arrived : Nat → Bool) :
    let p := pollFeeds s.counters none (s.polled arrived)
    (s.nextIncrement arrived).set = ⟨p.counters, p.feeds⟩ ∧ (s.nextIncrement arrived).next = p.next ∧
      ((s.nextIncrement arrived).ok = true → p.ok = true) := by
  intro p
  have body : s.nextIncrement arrived = if !p.ok then ⟨false, ⟨p.counters, p.feeds⟩, p.next⟩
      else if p.counters.incGapMode && decide (p.counters.incMsgNum < minMsgNum p.counters p.feeds) then
        ⟨false, ⟨p.counters, p.feeds⟩, p.next⟩
      else ⟨true, ⟨p.counters, p.feeds⟩, p.next⟩ := rfl
  rw [body]
  cases p.ok with
  | false => exact ⟨rfl, rfl, fun failed => nomatch failed⟩
  | true =>
    rw [if_neg (by decide)]
    split
    · exact ⟨rfl, rfl, fun _ => rfl⟩
    · exact ⟨rfl, rfl, fun _ => rfl⟩

/-- **One feed.** A call takes nothing or the next message, or fails. -/
theorem next_one_feed {stream : Nat → MdMessage} (numbered : Numbered stream) {s : FeedSet} (one : s.OneFeed stream)
    (arrived : Nat → Bool) :
    (s.nextIncrement arrived).set.OneFeed stream ∧
      ((s.nextIncrement arrived).ok = true → Takes stream s.counters.incMsgNum.toNat (s.nextIncrement arrived).next
        (s.nextIncrement arrived).set.counters.incMsgNum.toNat) := by
  obtain ⟨f, feeds, follows⟩ := one
  have polled : s.polled arrived = [(arrived 0, f)] := by
    rw [FeedSet.polled, feeds]
    rfl
  obtain ⟨set, next, succeeds⟩ := next_increment_poll s arrived
  have poll : Polled stream s.counters (arrived 0) f (recvIncrement s.counters (arrived 0) f) :=
    recv_polled numbered follows
  have body : pollFeeds s.counters none (s.polled arrived) =
      let r := recvIncrement s.counters (arrived 0) f
      ⟨r.ok, r.counters, [r.feed], if r.ok then r.next else none⟩ := by
    rw [polled, pollFeeds]
    cases ok : (recvIncrement s.counters (arrived 0) f).ok with
    | false => simp [ok]
    | true =>
      simp only [ok, Bool.not_true, Bool.false_eq_true, if_false, if_true, pollFeeds]
      cases (recvIncrement s.counters (arrived 0) f).next <;> rfl
  rw [body] at set next succeeds
  generalize recvIncrement s.counters (arrived 0) f = r at set next succeeds poll
  simp only at set next succeeds
  rw [set, next]
  refine ⟨⟨r.feed, rfl, ?_⟩, fun ok => ?_⟩
  · cases poll with
    | idle _ _ _ _ follows' => exact follows'
    | took _ _ _ _ _ follows' => exact follows'
  · rw [if_pos (succeeds ok)]
    cases poll with
    | idle _ inc none _ _ =>
      simp only [inc, none]
      exact .nothing
    | @took k _ bound later inc handed _ =>
      obtain ⟨j, rfl⟩ : ∃ j, k = j + 1 := ⟨k - 1, by omega⟩
      have number : r.counters.incMsgNum.toNat = j + 1 := by
        rw [inc, BitVec.toNat_ofNat, Nat.mod_eq_of_lt bound.2]
      rw [handed (succeeds ok)]
      simp only [number]
      refine .message ?_ bound.2
      rcases later with zero | following
      · left
        rw [zero]
        rfl
      · right
        omega

end Libtrading.Book
