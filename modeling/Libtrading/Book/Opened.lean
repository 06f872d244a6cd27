import Libtrading.Book.Recover

/-!
# Which feeds are open

`fast_books_init` opens the increment feeds, `fast_books_join` the first snapshot feed, and the loops that poll them walk
over all feeds of the set. Here a feed is whether it is active and what its session is, and everything else that decides
how a call goes on, from the sockets to the messages, is told by the environment. Beside what it returns, a call names
the feeds it read from, as `fast_feed_recv` found them.
-/

namespace Libtrading.Book.Opened
set_option autoImplicit false

/-- What `feed->session` points to. -/
inductive Session where
  | null
  | live
  | freed
  deriving DecidableEq, Repr

/-- `fast_session_free`. For a session that was freed before, as when `fast_books_init` comes to feeds that are open and
closes them behind `fast_feed_open`, C says nothing about the second `free`; here it is let pass, and the run goes on. -/
def Session.free : Session → Session
  | .null => .null
  | _ => .freed

/-- `struct fast_feed`, as far as it is open. -/
structure Feed where
  active : Bool
  session : Session
  deriving DecidableEq, Repr

/-- An active feed with a session. -/
def Feed.IsOpen (f : Feed) : Prop := f = ⟨true, .live⟩

/-! ## A feed -/

/-- How far `fast_feed_open` comes: to the socket or the file, to the session, to the template, or through. -/
inductive Opening where
  | noSocket
  | noSession
  | noTemplate
  | through

/-- `fast_feed_open`. -/
def fastFeedOpen (how : Opening) (f : Feed) : Bool × Feed :=
  if f.active then (false, { f with session := f.session.free })
  else
    match how with
    | .noSocket | .noSession => (false, { f with session := .null })
    | .noTemplate => (false, { f with session := .freed })
    | .through => (true, ⟨true, .live⟩)

/-- `fast_feed_close`, where a session that was freed before is freed a second time and let pass as in `Session.free`. -/
def fastFeedClose (closes : Bool) (f : Feed) : Bool × Feed :=
  if f.active = false then (true, f)
  else if f.session = .null then (true, f)
  else if closes = false then (false, { f with session := .freed })
  else (true, ⟨false, .null⟩)

/-! ## Polls -/

/-- The feeds of `struct fast_book_set`. -/
structure FeedSet where
  incFeeds : List Feed
  snpFeeds : List Feed
  deriving DecidableEq, Repr

/-- A feed that is ahead of the set is not read from; one that is read from may fail the poll. -/
structure Poll where
  ahead : Bool
  ok : Bool

/-- The loop of `next_increment` and `next_snapshot`: whether it goes through, and the feeds it read from. -/
def pollFeeds : List (Poll × Feed) → Bool × List Feed
  | [] => (true, [])
  | (p, f) :: rest =>
    if p.ahead then pollFeeds rest
    else if p.ok = false then (false, [f])
    else ((pollFeeds rest).1, f :: (pollFeeds rest).2)

/-- What the environment decides of one `next_increment`: the polls, and whether there is a gap. -/
structure Increment where
  polls : Nat → Poll
  gap : Bool

/-- `next_increment`. -/
def nextIncrement (s : FeedSet) (e : Increment) : Bool × List Feed :=
  let r := pollFeeds (s.incFeeds.mapIdx fun i f => (e.polls i, f))
  (r.1 && !e.gap, r.2)

/-- `next_snapshot`, where no feed is ahead. -/
def nextSnapshot (s : FeedSet) (ok : Nat → Bool) : Bool × List Feed :=
  pollFeeds (s.snpFeeds.mapIdx fun i f => (⟨false, ok i⟩, f))

/-! ## The join -/

/-- What the environment decides of a turn: whether the increment could be applied, whether a snapshot is still
wanted, the polls of the snapshot feeds, and whether the snapshot could be used. -/
structure Turn where
  increment : Increment
  applied : Bool
  wanted : Bool
  snapshots : Nat → Bool
  used : Bool

/-- One turn of the loop of `fast_books_join`. -/
def joinTurn (s : FeedSet) (t : Turn) : Bool × List Feed :=
  let inc := nextIncrement s t.increment
  if inc.1 = false then (false, inc.2)
  else if t.applied = false then (false, inc.2)
  else if t.wanted = false then (t.used, inc.2)
  else
    let snp := nextSnapshot s t.snapshots
    if snp.1 = false then (false, inc.2 ++ snp.2) else (t.used, inc.2 ++ snp.2)

/-- The loop, which ends when the book is active. -/
def joinLoop (s : FeedSet) (active : Bool) : List Turn → Ended × List Feed
  | [] => (if active then .done else .running, [])
  | t :: ts =>
    let r := joinTurn s t
    if r.1 = false then (.failed, r.2)
    else
      let later := joinLoop s active ts
      (later.1, r.2 ++ later.2)

/-- What the environment decides of a join: the opening, the turns and whether the book is active behind them, whether
its levels without a size could be deleted, and the closing, there and at the failing exit. -/
structure Joining where
  opening : Opening
  turns : List Turn
  active : Bool
  cleaned : Bool
  closes : Bool
  closesFailed : Bool

/-- Work on the first snapshot feed, `set->snp_feeds`. -/
def FeedSet.onFirst (s : FeedSet) (f : Feed → Bool × Feed) : Bool × FeedSet :=
  match s.snpFeeds with
  | [] => (false, s)
  | first :: others => ((f first).1, { s with snpFeeds := (f first).2 :: others })

/-- The failing exit of `fast_books_join`. -/
def joinFailed (s : FeedSet) (j : Joining) (reads : List Feed) : Ended × FeedSet × List Feed :=
  (.failed, (s.onFirst (fastFeedClose j.closesFailed)).2, reads)

/-- `fast_books_join`. -/
def fastBooksJoin (s : FeedSet) (j : Joining) : Ended × FeedSet × List Feed :=
  let opened := s.onFirst (fastFeedOpen j.opening)
  if opened.1 = false then joinFailed opened.2 j []
  else
    match joinLoop opened.2 j.active j.turns with
    | (.running, reads) => (.running, opened.2, reads)
    | (.failed, reads) => joinFailed opened.2 j reads
    | (.done, reads) =>
      if j.cleaned = false then joinFailed opened.2 j reads
      else
        let closed := opened.2.onFirst (fastFeedClose j.closes)
        if closed.1 = false then joinFailed closed.2 j reads else (.done, closed.2, reads)

/-! ## Recovery -/

/-- How an attempt of `fast_books_recover` ends. -/
inductive Tried where
  | done
  | retry
  | failed
  | running
  deriving DecidableEq

/-- The joins of one attempt, with whether each book could be cleared. -/
def joinBooks (s : FeedSet) : List (Bool × Joining) → Tried × FeedSet × List Feed
  | [] => (.done, s, [])
  | (cleared, j) :: js =>
    if cleared = false then (.failed, s, [])
    else
      match fastBooksJoin s j with
      | (.running, s, reads) => (.running, s, reads)
      | (.failed, s, reads) => (.retry, s, reads)
      | (.done, s, reads) =>
        let later := joinBooks s js
        (later.1, later.2.1, reads ++ later.2.2)

/-- `fast_books_recover`. -/
def fastBooksRecover (s : FeedSet) : List (List (Bool × Joining)) → Ended × FeedSet × List Feed
  | [] => (.running, s, [])
  | attempt :: attempts =>
    match joinBooks s attempt with
    | (.running, s, reads) => (.running, s, reads)
    | (.failed, s, reads) => (.failed, s, reads)
    | (.done, s, reads) => (.done, s, reads)
    | (.retry, s, reads) =>
      let later := fastBooksRecover s attempts
      (later.1, later.2.1, reads ++ later.2.2)

/-! ## The calls -/

/-- The loops that open and close feeds, up to the first that fails. -/
def each {α : Type} (f : α → Feed → Bool × Feed) : List (α × Feed) → Bool × List Feed
  | [] => (true, [])
  | (a, feed) :: rest =>
    let r := f a feed
    if r.1 = false then (false, r.2 :: rest.map Prod.snd)
    else
      let later := each f rest
      (later.1, r.2 :: later.2)

/-- Which feeds can be closed. -/
structure Closing where
  inc : Nat → Bool
  snp : Nat → Bool

/-- `fast_books_fini`. -/
def fastBooksFini (s : FeedSet) (c : Closing) : Bool × FeedSet :=
  let inc := each fastFeedClose (s.incFeeds.mapIdx fun i f => (c.inc i, f))
  if inc.1 = false then (false, { s with incFeeds := inc.2 })
  else
    let snp := each fastFeedClose (s.snpFeeds.mapIdx fun i f => (c.snp i, f))
    (snp.1, ⟨inc.2, snp.2⟩)

/-- `fast_books_init`. -/
def fastBooksInit (s : FeedSet) (openings : Nat → Opening) (c : Closing) : Bool × FeedSet :=
  if s.incFeeds = [] ∨ s.snpFeeds = [] then (false, (fastBooksFini s c).2)
  else
    let inc := each fastFeedOpen (s.incFeeds.mapIdx fun i f => (openings i, f))
    if inc.1 = false then (false, (fastBooksFini { s with incFeeds := inc.2 } c).2)
    else (true, { s with incFeeds := inc.2 })

/-- A call on the set, with what the environment decides of it. -/
inductive Call where
  | init (openings : Nat → Opening) (closing : Closing)
  | subscribe (j : Joining)
  | update (e : Increment) (applied : Bool) (attempts : List (List (Bool × Joining)))
  | fini (closing : Closing)

def ended (ok : Bool) : Ended := if ok then .done else .failed

/-- A call: how it ends, the set, and the feeds it read from. -/
def FeedSet.call (s : FeedSet) : Call → Ended × FeedSet × List Feed
  | .init openings closing => (ended (fastBooksInit s openings closing).1, (fastBooksInit s openings closing).2, [])
  | .subscribe j => fastBooksJoin s j
  | .update e applied attempts =>
    let next := nextIncrement s e
    if next.1 = false then
      let r := fastBooksRecover s attempts
      (r.1, r.2.1, next.2 ++ r.2.2)
    else (ended applied, s, next.2)
  | .fini closing => (ended (fastBooksFini s closing).1, (fastBooksFini s closing).2, [])

/-- The feeds that calls one after the other read from; one that is still running is the last. -/
def reads : FeedSet → List Call → List Feed
  | _, [] => []
  | s, c :: cs =>
    match s.call c with
    | (.running, _, feeds) => feeds
    | (_, s, feeds) => feeds ++ reads s cs

/-! ## When they are open -/

/-- Among `count` snapshot feeds, a turn polls the first one only. -/
def Turn.FirstOnly (t : Turn) (count : Nat) : Prop := count ≤ 1 ∨ t.wanted = false ∨ t.snapshots 0 = false

/-- The turns of the joins of a call. -/
def Call.turns : Call → List Turn
  | .init _ _ | .fini _ => []
  | .subscribe j => j.turns
  | .update _ _ attempts => attempts.flatten.flatMap fun a => a.2.turns

/-- The set is initialised: the latest call but `fast_books_subscribe` and `fast_books_update` was a
`fast_books_init` that returned 0. -/
def initialised (before : Bool) (c : Call) (ret : Ended) : Bool :=
  match c with
  | .init _ _ => ret = .done
  | .fini _ => false
  | .subscribe _ | .update _ _ _ => before

/-- Every `fast_books_subscribe` and `fast_books_update` comes to a set that is initialised, and no turn in it gets
behind the first snapshot feed. -/
def Orderly : Bool → FeedSet → List Call → Prop
  | _, _, [] => True
  | before, s, c :: cs =>
    (match c with
      | .init _ _ | .fini _ => True
      | .subscribe _ | .update _ _ _ => before = true ∧ ∀ t ∈ c.turns, t.FirstOnly s.snpFeeds.length) ∧
      Orderly (initialised before c (s.call c).1) (s.call c).2.1 cs

/-! ## Polls read the feeds they are given -/

/-- All feeds of a list are open. -/
def AllOpen (feeds : List Feed) : Prop := ∀ f ∈ feeds, f.IsOpen

theorem AllOpen.append {as bs : List Feed} (h : AllOpen as) (h' : AllOpen bs) : AllOpen (as ++ bs) :=
  fun f hf => (List.mem_append.1 hf).elim (h f) (h' f)

theorem poll_reads (l : List (Poll × Feed)) : ∀ f ∈ (pollFeeds l).2, ∃ p, (p, f) ∈ l := by
  induction l with
  | nil => exact List.forall_mem_nil _
  | cons a l ih =>
    obtain ⟨p, feed⟩ := a
    have later : ∀ f ∈ (pollFeeds l).2, ∃ q, (q, f) ∈ (p, feed) :: l := fun f hf => by
      obtain ⟨q, there⟩ := ih f hf
      exact ⟨q, List.mem_cons_of_mem _ there⟩
    rw [pollFeeds]
    split
    · exact later
    · split
      · exact List.forall_mem_singleton.2 ⟨p, List.mem_cons_self⟩
      · exact List.forall_mem_cons.2 ⟨⟨p, List.mem_cons_self⟩, later⟩

section
variable {s : FeedSet}

theorem next_increment_open (inc : AllOpen s.incFeeds) (e : Increment) : AllOpen (nextIncrement s e).2 := by
  intro f hf
  obtain ⟨p, there⟩ := poll_reads _ f hf
  obtain ⟨i, inside, same⟩ := List.mem_mapIdx.1 there
  rw [← (Prod.mk.inj same).2]
  exact inc _ (List.getElem_mem inside)

/-- The set while a book is joined: its increment feeds and the first snapshot feed are open. -/
structure Joinable (s : FeedSet) : Prop where
  inc : AllOpen s.incFeeds
  first : ∃ first others, s.snpFeeds = first :: others ∧ first.IsOpen

theorem next_snapshot_open (h : Joinable s) {ok : Nat → Bool} (only : s.snpFeeds.length ≤ 1 ∨ ok 0 = false) :
    AllOpen (nextSnapshot s ok).2 := by
  obtain ⟨first, others, feeds, isOpen⟩ := h.first
  rw [nextSnapshot, feeds, List.mapIdx_cons, pollFeeds, if_neg Bool.false_ne_true]
  split
  · exact List.forall_mem_singleton.2 isOpen
  · next read =>
    have alone := only.resolve_right read
    rw [feeds, List.length_cons] at alone
    have none : others = [] := List.eq_nil_of_length_eq_zero (by omega)
    subst none
    exact List.forall_mem_singleton.2 isOpen

theorem join_turn_open (h : Joinable s) {t : Turn} (only : t.FirstOnly s.snpFeeds.length) : AllOpen (joinTurn s t).2 := by
  have inc := next_increment_open h.inc t.increment
  rw [joinTurn]
  simp only
  split
  · exact inc
  split
  · exact inc
  split
  · exact inc
  · next wanted =>
    have rest : s.snpFeeds.length ≤ 1 ∨ t.snapshots 0 = false := only.imp_right fun h => h.resolve_left wanted
    have snp := next_snapshot_open h rest
    split
    · exact inc.append snp
    · exact inc.append snp

theorem join_loop_open (h : Joinable s) (active : Bool) (ts : List Turn)
    (only : ∀ t ∈ ts, t.FirstOnly s.snpFeeds.length) : AllOpen (joinLoop s active ts).2 := by
  induction ts with
  | nil => exact List.forall_mem_nil _
  | cons t ts ih =>
    obtain ⟨here, later⟩ := List.forall_mem_cons.1 only
    have turn := join_turn_open h here
    rw [joinLoop]
    simp only
    split
    · exact turn
    · exact turn.append (ih later)

/-! ## The join -/

/-- Work on the first snapshot feed leaves the increment feeds, and as many snapshot feeds. -/
structure Keeps (s s' : FeedSet) : Prop where
  inc : s'.incFeeds = s.incFeeds
  count : s'.snpFeeds.length = s.snpFeeds.length

theorem Keeps.refl (s : FeedSet) : Keeps s s := ⟨rfl, rfl⟩

theorem Keeps.trans {s s' s'' : FeedSet} (h : Keeps s s') (h' : Keeps s' s'') : Keeps s s'' :=
  ⟨h'.inc.trans h.inc, h'.count.trans h.count⟩

theorem on_first_keeps (s : FeedSet) (f : Feed → Bool × Feed) : Keeps s (s.onFirst f).2 := by
  rw [FeedSet.onFirst]
  cases feeds : s.snpFeeds with
  | nil => exact .refl s
  | cons first others =>
    refine ⟨rfl, ?_⟩
    rw [feeds]
    rfl

/-- A feed that could be opened is open. -/
theorem opened_open {how : Opening} {f : Feed} (ok : (fastFeedOpen how f).1 = true) : (fastFeedOpen how f).2.IsOpen := by
  unfold fastFeedOpen at ok ⊢
  split at ok
  · cases ok
  · next inactive =>
    rw [if_neg inactive]
    cases how with
    | through => rfl
    | noSocket => cases ok
    | noSession => cases ok
    | noTemplate => cases ok

/-- The set behind the opening of a join. -/
theorem joinable (inc : AllOpen s.incFeeds) {how : Opening} (ok : (s.onFirst (fastFeedOpen how)).1 = true) :
    Joinable (s.onFirst (fastFeedOpen how)).2 := by
  rw [FeedSet.onFirst] at ok ⊢
  cases feeds : s.snpFeeds with
  | nil =>
    rw [feeds] at ok
    cases ok
  | cons first others =>
    rw [feeds] at ok
    exact ⟨inc, _, _, rfl, opened_open ok⟩

/-- What a call reads is open, and what it leaves keeps the feeds. -/
structure Sound {α : Type} (s : FeedSet) (r : α × FeedSet × List Feed) : Prop where
  keeps : Keeps s r.2.1
  isOpen : AllOpen r.2.2

theorem join_failed_sound {s' : FeedSet} (keeps : Keeps s s') (j : Joining) {feeds : List Feed} (isOpen : AllOpen feeds) :
    Sound s (joinFailed s' j feeds) := ⟨keeps.trans (on_first_keeps s' _), isOpen⟩

/-- **The join** of a book, with the increment feeds open. -/
theorem join_sound (inc : AllOpen s.incFeeds) {j : Joining} (only : ∀ t ∈ j.turns, t.FirstOnly s.snpFeeds.length) :
    Sound s (fastBooksJoin s j) := by
  have keeps := on_first_keeps s (fastFeedOpen j.opening)
  rw [fastBooksJoin]
  simp only
  split
  · exact join_failed_sound keeps j (List.forall_mem_nil _)
  · next ok =>
    have ready := joinable inc (Bool.not_eq_false _ ▸ ok)
    have loop := join_loop_open ready j.active j.turns fun t ht => keeps.count ▸ only t ht
    split
    · next out =>
      rw [out] at loop
      exact ⟨keeps, loop⟩
    · next out =>
      rw [out] at loop
      exact join_failed_sound keeps j loop
    · next out =>
      rw [out] at loop
      split
      · exact join_failed_sound keeps j loop
      · have closed := keeps.trans (on_first_keeps (s.onFirst (fastFeedOpen j.opening)).2 (fastFeedClose j.closes))
        split
        · exact join_failed_sound closed j loop
        · exact ⟨closed, loop⟩

/-! ## Recovery -/

theorem Sound.later {α β γ : Type} {a : α} {b : β} {c : γ} {s' s'' : FeedSet} {feeds feeds' : List Feed}
    (first : Sound s (a, s', feeds)) (rest : Sound s' (b, s'', feeds')) : Sound s (c, s'', feeds ++ feeds') :=
  ⟨first.keeps.trans rest.keeps, first.isOpen.append rest.isOpen⟩

theorem join_books_sound (inc : AllOpen s.incFeeds) {js : List (Bool × Joining)}
    (only : ∀ a ∈ js, ∀ t ∈ a.2.turns, t.FirstOnly s.snpFeeds.length) : Sound s (joinBooks s js) := by
  induction js generalizing s with
  | nil => exact ⟨.refl s, List.forall_mem_nil _⟩
  | cons a js ih =>
    obtain ⟨cleared, j⟩ := a
    obtain ⟨here, behind⟩ := List.forall_mem_cons.1 only
    have joined := join_sound inc here
    rw [joinBooks]
    split
    · exact ⟨.refl s, List.forall_mem_nil _⟩
    · split
      · next out =>
        rw [out] at joined
        exact ⟨joined.keeps, joined.isOpen⟩
      · next out =>
        rw [out] at joined
        exact ⟨joined.keeps, joined.isOpen⟩
      · next out =>
        rw [out] at joined
        have keeps := joined.keeps
        exact joined.later (ih (keeps.inc ▸ inc) fun a ha t ht => keeps.count ▸ behind a ha t ht)

theorem recover_sound (inc : AllOpen s.incFeeds) (attempts : List (List (Bool × Joining)))
    (only : ∀ attempt ∈ attempts, ∀ a ∈ attempt, ∀ t ∈ a.2.turns, t.FirstOnly s.snpFeeds.length) :
    Sound s (fastBooksRecover s attempts) := by
  induction attempts generalizing s with
  | nil => exact ⟨.refl s, List.forall_mem_nil _⟩
  | cons attempt attempts ih =>
    obtain ⟨here, behind⟩ := List.forall_mem_cons.1 only
    have tried := join_books_sound inc here
    rw [fastBooksRecover]
    split
    · next out =>
      rw [out] at tried
      exact ⟨tried.keeps, tried.isOpen⟩
    · next out =>
      rw [out] at tried
      exact ⟨tried.keeps, tried.isOpen⟩
    · next out =>
      rw [out] at tried
      exact ⟨tried.keeps, tried.isOpen⟩
    · next out =>
      rw [out] at tried
      have keeps := tried.keeps
      exact tried.later (ih (keeps.inc ▸ inc) fun attempt h a ha t ht => keeps.count ▸ behind attempt h a ha t ht)

/-! ## Runs -/

/-- Feeds that could all be opened are open. -/
theorem each_opened {l : List (Opening × Feed)} (ok : (each fastFeedOpen l).1 = true) : AllOpen (each fastFeedOpen l).2 := by
  induction l with
  | nil => exact List.forall_mem_nil _
  | cons a l ih =>
    obtain ⟨how, feed⟩ := a
    rw [each] at ok ⊢
    simp only at ok ⊢
    split at ok
    · cases ok
    · next opened =>
      rw [if_neg opened]
      exact List.forall_mem_cons.2 ⟨opened_open (Bool.not_eq_false _ ▸ opened), ih ok⟩

/-- A `fast_books_init` that returns 0 leaves the increment feeds open. -/
theorem init_open {openings : Nat → Opening} {c : Closing} (ok : (fastBooksInit s openings c).1 = true) :
    AllOpen (fastBooksInit s openings c).2.incFeeds := by
  rw [fastBooksInit] at ok ⊢
  split at ok
  · cases ok
  · next some =>
    rw [if_neg some]
    simp only at ok ⊢
    split at ok
    · cases ok
    · next opened =>
      rw [if_neg opened]
      exact each_opened (Bool.not_eq_false _ ▸ opened)

/-- One call: what it reads is open, and the increment feeds of an initialised set are open behind it. -/
theorem call_open {before : Bool} (inc : before = true → AllOpen s.incFeeds) {c : Call}
    (orderly : match c with
      | .init _ _ | .fini _ => True
      | .subscribe _ | .update _ _ _ => before = true ∧ ∀ t ∈ c.turns, t.FirstOnly s.snpFeeds.length) :
    AllOpen (s.call c).2.2 ∧ (initialised before c (s.call c).1 = true → AllOpen (s.call c).2.1.incFeeds) := by
  cases c with
  | init openings closing =>
    refine ⟨List.forall_mem_nil _, fun done => init_open ?_⟩
    have done : ended (fastBooksInit s openings closing).1 = .done := of_decide_eq_true done
    rw [ended] at done
    split at done
    · next ok => exact ok
    · cases done
  | fini closing => exact ⟨List.forall_mem_nil _, fun no => by cases no⟩
  | subscribe j =>
    obtain ⟨ready, only⟩ := orderly
    have joined := join_sound (inc ready) only
    exact ⟨joined.isOpen, fun _ => joined.keeps.inc ▸ inc ready⟩
  | update e applied attempts =>
    obtain ⟨ready, only⟩ := orderly
    have next := next_increment_open (inc ready) e
    rw [FeedSet.call]
    simp only
    split
    · have recovered := recover_sound (inc ready) attempts fun attempt h a ha t ht =>
        only t (List.mem_flatMap.2 ⟨a, List.mem_flatten.2 ⟨attempt, h, ha⟩, ht⟩)
      exact ⟨next.append recovered.isOpen, fun _ => recovered.keeps.inc ▸ inc ready⟩
    · exact ⟨next, fun _ => inc ready⟩

/-- A run of orderly calls. -/
theorem run_open {before : Bool} (inc : before = true → AllOpen s.incFeeds) {cs : List Call}
    (orderly : Orderly before s cs) : AllOpen (reads s cs) := by
  induction cs generalizing s before with
  | nil => exact List.forall_mem_nil _
  | cons c cs ih =>
    obtain ⟨here, later⟩ := orderly
    obtain ⟨first, left⟩ := call_open inc here
    have rest := ih left later
    rw [reads]
    generalize s.call c = r at first rest
    obtain ⟨how, s', feeds⟩ := r
    cases how with
    | running => exact first
    | done => exact first.append rest
    | failed => exact first.append rest

end

/-- **Feeds are read while they are open.** Of calls that start with a `fast_books_init` that returns 0, in which every
`fast_books_subscribe` and `fast_books_update` comes to an initialised set and polls no snapshot feed behind the first,
every `fast_feed_recv` is on a feed that is active and has a session that was not freed. -/
theorem reads_open {s : FeedSet} {openings : Nat → Opening} {closing : Closing}
    (started : (fastBooksInit s openings closing).1 = true) {cs : List Call}
    (orderly : Orderly true (fastBooksInit s openings closing).2 cs) :
    AllOpen (reads s (.init openings closing :: cs)) := by
  have rest := run_open (fun _ => init_open started) orderly
  rw [reads, FeedSet.call, ended, if_pos started]
  exact rest

/-! ## One snapshot feed, and two -/

/-- A feed that was not opened yet. -/
def unopened : Feed := ⟨false, .null⟩

/-- A turn in which all is well, and the book is joined behind it. -/
def goodJoin : Joining where
  opening := .through
  turns := [⟨⟨fun _ => ⟨false, true⟩, false⟩, true, true, fun _ => true, true⟩]
  active := true
  cleaned := true
  closes := true
  closesFailed := true

def allClose : Closing := ⟨fun _ => true, fun _ => true⟩

/-- With one snapshot feed: a book is subscribed to, a gap has it joined again, and the set is shut down. -/
theorem subscribe_recover_fini :
    AllOpen (reads ⟨[unopened, unopened], [unopened]⟩ [.init (fun _ => .through) allClose, .subscribe goodJoin,
      .update ⟨fun _ => ⟨false, true⟩, true⟩ true [[(true, goodJoin)]], .fini allClose]) := by
  refine reads_open rfl ⟨⟨rfl, ?_⟩, ⟨rfl, ?_⟩, trivial, trivial⟩
  · exact fun t _ => .inl (Nat.le_refl 1)
  · exact fun t _ => .inl (Nat.le_refl 1)

/-- With two snapshot feeds the join of a book reads the second, which nothing opens; and an update that comes behind
`fast_books_fini` reads a feed that is closed. -/
theorem second_snapshot_feed :
    (fastBooksInit ⟨[unopened], [unopened, unopened]⟩ (fun _ => .through) allClose).1 = true ∧
      ¬AllOpen (reads ⟨[unopened], [unopened, unopened]⟩ [.init (fun _ => .through) allClose, .subscribe goodJoin]) ∧
      ¬AllOpen (reads ⟨[unopened], [unopened]⟩ [.init (fun _ => .through) allClose, .fini allClose,
        .update ⟨fun _ => ⟨false, true⟩, false⟩ true []]) := by
  refine ⟨rfl, fun all => ?_, fun all => ?_⟩
  · have second : unopened ∈ reads ⟨[unopened], [unopened, unopened]⟩
        [.init (fun _ => .through) allClose, .subscribe goodJoin] := by decide
    cases all _ second
  · have closed : unopened ∈ reads ⟨[unopened], [unopened]⟩ [.init (fun _ => .through) allClose, .fini allClose,
        .update ⟨fun _ => ⟨false, true⟩, false⟩ true []] := by decide
    cases all _ closed

end Libtrading.Book.Opened
