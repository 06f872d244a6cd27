import Libtrading.Book.Message

/-!
# The incremental feeds

`recv_increment` takes at most one message off one feed and `next_increment`
polls all of them once. `inc_msg_num` is the number the set has got to, a
feed's `recv_num` the last number taken off that feed; a feed that ran ahead
is not polled until the others have caught up.

The environment decides, at every poll, whether the feed's next message has
arrived. `counted` names the messages that moved `inc_msg_num`, and
`next_increment` hands out the first of them that is an incremental refresh.
-/

namespace Libtrading.Book
set_option autoImplicit false
open Fast

/-- `struct fast_feed`: its counter, and the messages its socket will deliver. -/
structure Feed where
  recvNum : U64
  waiting : List MdMessage
  deriving DecidableEq, Repr

/-- `fast_feed_recv`: the next message, if it has arrived. -/
def Feed.fastFeedRecv (arrived : Bool) (f : Feed) : Option MdMessage × Feed :=
  if arrived then (f.waiting.head?, { f with waiting := f.waiting.tail }) else (none, f)

/-- `inc_msg_num` and `inc_gap_mode` of `struct fast_book_set`. -/
structure Counters where
  incMsgNum : U64
  incGapMode : Bool
  deriving DecidableEq, Repr

/-- What `recv_increment` returns and leaves: 0 or -1, the counters, the feed, `*next`. -/
structure Recv where
  ok : Bool
  counters : Counters
  feed : Feed
  next : Option MdMessage
  deriving DecidableEq, Repr

/-- The switch of `recv_increment` over the message type. -/
def dispatchIncrement (c : Counters) (feed : Feed) (msg : MdMessage) : Recv :=
  match msg.type with
  | some .sessionStatus | some .sequenceReset | some .heartbeat | some .securityStatus => ⟨true, c, feed, none⟩
  | some .incrementRefresh => ⟨true, c, feed, some msg⟩
  | _ => ⟨false, c, feed, none⟩

/-- A message with a number: the next one, the first one, one too early, or one already seen. -/
def countIncrement (c : Counters) (feed : Feed) (msg : MdMessage) (msgNum : U64) : Recv :=
  let feed := { feed with recvNum := msgNum }
  if c.incMsgNum = 0 then dispatchIncrement { c with incMsgNum := msgNum } feed msg
  else if c.incMsgNum + 1 = msgNum then dispatchIncrement ⟨c.incMsgNum + 1, false⟩ feed msg
  else if c.incMsgNum < msgNum then ⟨true, { c with incGapMode := true }, feed, none⟩
  else ⟨true, c, feed, none⟩

/-- `recv_increment`. A message with the reset flag resets the dictionaries of the session, of which
nothing is left to model behind the decoder. -/
def recvIncrement (c : Counters) (arrived : Bool) (feed : Feed) : Recv :=
  if c.incMsgNum < feed.recvNum then ⟨true, c, feed, none⟩
  else match feed.fastFeedRecv arrived with
    | (none, feed) => ⟨true, c, feed, none⟩
    | (some msg, feed) =>
      if msg.flagReset then ⟨true, c, feed, none⟩
      else match msg.msgSeqNum.get with
        | none => ⟨false, c, feed, none⟩
        | some msgNum => countIncrement c feed msg msgNum

/-- The first loop of `next_increment`. -/
structure Poll where
  ok : Bool
  counters : Counters
  feeds : List Feed
  next : Option MdMessage
  deriving DecidableEq, Repr

/-- `if (!msg || *next) continue; *next = msg;` -/
def keepFirst (next msg : Option MdMessage) : Option MdMessage :=
  match msg, next with
  | some m, none => some m
  | _, _ => next

/-- The polls of one call, feed by feed, with what has arrived. -/
def pollFeeds (c : Counters) (next : Option MdMessage) : List (Bool × Feed) → Poll
  | [] => ⟨true, c, [], next⟩
  | (arrived, feed) :: rest =>
    let r := recvIncrement c arrived feed
    if !r.ok then ⟨false, r.counters, r.feed :: rest.map (·.2), next⟩
    else
      let p := pollFeeds r.counters (keepFirst next r.next) rest
      { p with feeds := r.feed :: p.feeds }

/-- The second loop of `next_increment`: the smallest number any feed got to, at most the next one. -/
def minMsgNum (c : Counters) (feeds : List Feed) : U64 :=
  feeds.foldl (fun least f => if f.recvNum < least then f.recvNum else least) (c.incMsgNum + 1)

/-- The increment side of `struct fast_book_set`. -/
structure FeedSet where
  counters : Counters
  incFeeds : List Feed
  deriving DecidableEq, Repr

/-- What `next_increment` returns and leaves. -/
structure NextIncrement where
  ok : Bool
  set : FeedSet
  next : Option MdMessage
  deriving DecidableEq, Repr

namespace FeedSet

/-- The feeds of one call, with whether their next message has arrived. -/
def polled (s : FeedSet) (arrived : Nat → Bool) : List (Bool × Feed) :=
  s.incFeeds.mapIdx fun i f => (arrived i, f)

/-- `next_increment`. -/
def nextIncrement (s : FeedSet) (arrived : Nat → Bool) : NextIncrement :=
  let p := pollFeeds s.counters none (s.polled arrived)
  let s := ⟨p.counters, p.feeds⟩
  if !p.ok then ⟨false, s, p.next⟩
  else if p.counters.incGapMode && decide (p.counters.incMsgNum < minMsgNum p.counters p.feeds) then
    ⟨false, s, p.next⟩
  else ⟨true, s, p.next⟩

end FeedSet

/-- The messages whose number moved `inc_msg_num` during the polls of one call. -/
def counted (c : Counters) : List (Bool × Feed) → List MdMessage
  | [] => []
  | (arrived, feed) :: rest =>
    let r := recvIncrement c arrived feed
    (if r.counters.incMsgNum = c.incMsgNum then [] else (feed.fastFeedRecv arrived).1.toList) ++
      counted r.counters rest

/-- Type `X`. -/
def MdMessage.isIncrement (m : MdMessage) : Bool := m.type == some .incrementRefresh

/-! ## Runs -/

/-- One call of a run: the set before it, what arrived, and what it handed out. -/
structure Call where
  before : FeedSet
  arrived : Nat → Bool
  next : Option MdMessage

namespace Call

/-- The messages the call counted as received. -/
def counted (c : Call) : List MdMessage := Book.counted c.before.counters (c.before.polled c.arrived)

end Call

/-- The call made of a set. -/
def FeedSet.call (s : FeedSet) (arrived : Nat → Bool) : Call := ⟨s, arrived, (s.nextIncrement arrived).next⟩

/-- A run of `next_increment` calls, none of which fails. -/
inductive Run : FeedSet → List Call → FeedSet → Prop
  | nil (s) : Run s [] s
  | cons {s s' : FeedSet} {arrived : Nat → Bool} {calls : List Call}
    (ok : (s.nextIncrement arrived).ok = true) (rest : Run (s.nextIncrement arrived).set calls s') :
    Run s (s.call arrived :: calls) s'

/-! ## The numbered stream -/

/-- Message `k` of the stream carries the number `k`. -/
def Numbered (stream : Nat → MdMessage) : Prop :=
  ∀ k, (stream k).flagReset = false ∧ (stream k).msgSeqNum = .value (BitVec.ofNat 64 k)

/-- An increasing subsequence of the stream, behind the number `n`; messages that reset the session
are not numbered and may stand anywhere. -/
inductive Subsequence (stream : Nat → MdMessage) : Nat → List MdMessage → Prop
  | nil {n} : Subsequence stream n []
  | reset {n m ms} (flag : m.flagReset = true) (rest : Subsequence stream n ms) : Subsequence stream n (m :: ms)
  | next {n k ms} (later : n < k) (bound : k < 2 ^ 64) (rest : Subsequence stream k ms) :
    Subsequence stream n (stream k :: ms)

/-- A feed delivers a subsequence of the stream, behind what it delivered before; it delivered nothing
to a set that has received nothing. -/
structure Feed.Follows (stream : Nat → MdMessage) (c : Counters) (f : Feed) : Prop where
  behind : Subsequence stream f.recvNum.toNat f.waiting
  fresh : c.incMsgNum = 0 → f.recvNum = 0

/-- Every feed delivers a subsequence of the one stream. -/
def FeedSet.Follows (stream : Nat → MdMessage) (s : FeedSet) : Prop := ∀ f ∈ s.incFeeds, f.Follows stream s.counters

/-- From the number `inc` on, the messages are consecutive ones of the stream, up to `last`; zero is
the counter of a set that has received nothing. -/
def Consecutive (stream : Nat → MdMessage) : Nat → List MdMessage → Nat → Prop
  | inc, [], last => inc = last
  | inc, m :: ms, last => ∃ k, m = stream k ∧ (inc = 0 ∨ k = inc + 1) ∧ Consecutive stream k ms last

/-- **Nothing is lost**: the counter moves through consecutive numbers of the stream, and the
incremental refreshes among them are handed out, each once and in order. -/
structure LosesNothing (stream : Nat → MdMessage) (s : FeedSet) (calls : List Call) (s' : FeedSet) : Prop where
  consecutive : Consecutive stream s.counters.incMsgNum.toNat (calls.flatMap Call.counted) s'.counters.incMsgNum.toNat
  handed : calls.filterMap Call.next = (calls.flatMap Call.counted).filter MdMessage.isIncrement

/-! ## The condition -/

/-- The message that waits at a feed. -/
def headNow (polled : Bool × Feed) : Option MdMessage := if polled.1 then polled.2.waiting.head? else none

/-- The messages that wait at the feeds a call polls, in the order of the feeds. -/
def FeedSet.waitingNow (s : FeedSet) (arrived : Nat → Bool) : List MdMessage := (s.polled arrived).filterMap headNow

/-- Of these, the ones that continue the count one by one. -/
def continuing : U64 → List MdMessage → List MdMessage
  | _, [] => []
  | inc, m :: ms =>
    match m.msgSeqNum.get with
    | some k =>
      if m.flagReset = false ∧ (inc = 0 ∨ inc + 1 = k) then m :: continuing k ms else continuing inc ms
    | none => continuing inc ms

/-- At most one of the messages that continue the count is an incremental refresh. -/
def Call.OneIncrement (c : Call) : Prop :=
  ((continuing c.before.counters.incMsgNum (c.before.waitingNow c.arrived)).filter MdMessage.isIncrement).length ≤ 1

/-! ## One poll -/

section Polls
variable {stream : Nat → MdMessage} {c : Counters} {arrived : Bool} {f : Feed}

/-- What one poll of a feed does to the count: nothing, or one message of the stream. -/
inductive Polled (stream : Nat → MdMessage) (c : Counters) (arrived : Bool) (f : Feed) (r : Recv) : Prop
  | idle (ok : r.ok = true) (inc : r.counters.incMsgNum = c.incMsgNum) (next : r.next = none)
    (skipped : ∀ ms, continuing c.incMsgNum ((headNow (arrived, f)).toList ++ ms) = continuing c.incMsgNum ms)
    (follows : r.feed.Follows stream r.counters)
  | took {k : Nat} (head : headNow (arrived, f) = some (stream k)) (bound : 0 < k ∧ k < 2 ^ 64)
    (later : c.incMsgNum = 0 ∨ k = c.incMsgNum.toNat + 1) (inc : r.counters.incMsgNum = BitVec.ofNat 64 k)
    (next : r.ok = true → r.next = if (stream k).isIncrement then some (stream k) else none)
    (follows : r.feed.Follows stream r.counters)

theorem dispatch_spec (c : Counters) (f : Feed) (m : MdMessage) :
    (dispatchIncrement c f m).counters = c ∧ (dispatchIncrement c f m).feed = f ∧
      ((dispatchIncrement c f m).ok = true → (dispatchIncrement c f m).next = if m.isIncrement then some m else none) := by
  unfold dispatchIncrement MdMessage.isIncrement
  split <;> rename_i h <;> simp [h]

/-- The message at the head of a feed that arrived. -/
theorem head_arrived {m : MdMessage} {f' : Feed} (h : f.fastFeedRecv arrived = (some m, f')) :
    headNow (arrived, f) = some m ∧ f.waiting = m :: f'.waiting ∧ f'.recvNum = f.recvNum := by
  cases arrived with
  | false => exact nomatch h
  | true =>
    simp only [Feed.fastFeedRecv, if_true] at h
    cases hw : f.waiting with
    | nil =>
      rw [hw] at h
      cases h
    | cons m' ms =>
      rw [hw] at h
      cases h
      exact ⟨by simp [headNow, hw], rfl, rfl⟩

theorem no_head {f' : Feed} (h : f.fastFeedRecv arrived = (none, f')) :
    headNow (arrived, f) = none ∧ (f' = f ∨ (f.waiting = [] ∧ f' = { f with waiting := [] })) := by
  cases arrived with
  | false =>
    cases h
    exact ⟨rfl, .inl rfl⟩
  | true =>
    simp only [Feed.fastFeedRecv, if_true] at h
    cases hw : f.waiting with
    | nil =>
      rw [hw] at h
      cases h
      exact ⟨by simp [headNow, hw], .inr ⟨rfl, rfl⟩⟩
    | cons m' ms =>
      rw [hw] at h
      cases h

/-- A message that resets the session is passed over, and one that does not continue the count. -/
theorem continuing_reset {inc : U64} {m : MdMessage} {ms : List MdMessage} (flag : m.flagReset = true) :
    continuing inc (m :: ms) = continuing inc ms := by
  rw [continuing, flag]
  split
  · exact if_neg fun h => nomatch h.1
  · rfl

theorem continuing_skip {inc k : U64} {m : MdMessage} {ms : List MdMessage} (number : m.msgSeqNum.get = some k)
    (started : inc ≠ 0) (other : inc + 1 ≠ k) : continuing inc (m :: ms) = continuing inc ms := by
  rw [continuing, number]
  exact if_neg fun h => h.2.elim started other

theorem continuing_take {inc k : U64} {m : MdMessage} {ms : List MdMessage} (number : m.msgSeqNum.get = some k)
    (flag : m.flagReset = false) (h : inc = 0 ∨ inc + 1 = k) :
    continuing inc (m :: ms) = m :: continuing k ms := by
  rw [continuing, number]
  exact if_pos ⟨flag, h⟩

/-- The next number of the stream, in 64 bits. -/
theorem next_number {inc : U64} {k : Nat} (pos : 0 < k) (bound : k < 2 ^ 64) :
    inc + 1 = BitVec.ofNat 64 k ↔ k = inc.toNat + 1 := by
  rw [← BitVec.toNat_inj, BitVec.toNat_add, BitVec.toNat_ofNat, Nat.mod_eq_of_lt bound]
  have := inc.isLt
  constructor
  · intro h
    by_cases wrap : inc.toNat + 1 < 2 ^ 64
    · rw [show (1 : U64).toNat = 1 from rfl, Nat.mod_eq_of_lt wrap] at h
      exact h.symm
    · rw [show (1 : U64).toNat = 1 from rfl, show inc.toNat + 1 = 2 ^ 64 by omega, Nat.mod_self] at h
      omega
  · rintro rfl
    rw [show (1 : U64).toNat = 1 from rfl, Nat.mod_eq_of_lt bound]

theorem recv_polled (numbered : Numbered stream) (follows : f.Follows stream c) :
    Polled stream c arrived f (recvIncrement c arrived f) := by
  unfold recvIncrement
  by_cases ahead : c.incMsgNum < f.recvNum
  · rw [if_pos ahead]
    refine .idle rfl rfl rfl (fun ms => ?_) follows
    have started : c.incMsgNum ≠ 0 := by
      intro zero
      rw [zero, follows.fresh zero] at ahead
      exact absurd ahead (by decide)
    cases head : headNow (arrived, f) with
    | none => rfl
    | some m =>
      have first : ∃ ms, f.waiting = m :: ms := by
        unfold headNow at head
        split at head
        · exact List.head?_eq_some_iff.mp head
        · cases head
      obtain ⟨ms', waiting⟩ := first
      have behind := follows.behind
      rw [waiting] at behind
      cases behind with
      | reset flag rest => exact continuing_reset flag
      | @next _ k _ later bound rest =>
        obtain ⟨-, number⟩ := numbered k
        have above : c.incMsgNum.toNat < f.recvNum.toNat := ahead
        refine continuing_skip (k := BitVec.ofNat 64 k) (by rw [number]; rfl) started fun h => ?_
        have := (next_number (by omega) bound).mp h
        omega
  · rw [if_neg ahead]
    have behind : f.recvNum.toNat ≤ c.incMsgNum.toNat := Nat.not_lt.mp ahead
    rcases hr : f.fastFeedRecv arrived with ⟨m, f'⟩
    cases m with
    | none =>
      obtain ⟨head, same⟩ := no_head hr
      refine .idle rfl rfl rfl (fun ms => by rw [head]; rfl) ?_
      obtain rfl | ⟨-, rfl⟩ := same
      · exact follows
      · exact ⟨.nil, follows.fresh⟩
    | some m =>
      obtain ⟨head, waiting, recvNum⟩ := head_arrived hr
      have subsequence := follows.behind
      rw [waiting] at subsequence
      simp only
      cases flag : m.flagReset with
      | true =>
        rw [if_pos rfl]
        refine .idle rfl rfl rfl (fun ms => by rw [head]; exact continuing_reset flag) ?_
        cases subsequence with
        | reset _ rest => exact ⟨by rw [recvNum]; exact rest, fun zero => by rw [recvNum]; exact follows.fresh zero⟩
        | @next _ k _ later bound rest => exact nomatch (numbered k).1.symm.trans flag
      | false =>
        rw [if_neg (by decide)]
        cases subsequence with
        | reset flag' rest => exact nomatch flag.symm.trans flag'
        | @next _ k _ later bound rest =>
          have number : (stream k).msgSeqNum.get = some (BitVec.ofNat 64 k) := by
            rw [(numbered k).2]
            rfl
          have toNat : (BitVec.ofNat 64 k).toNat = k := by rw [BitVec.toNat_ofNat, Nat.mod_eq_of_lt bound]
          have nonzero : BitVec.ofNat 64 k ≠ 0 := by
            intro zero
            have := congrArg BitVec.toNat zero
            rw [toNat] at this
            have : (0 : U64).toNat = 0 := rfl
            omega
          have after : ({ f' with recvNum := BitVec.ofNat 64 k } : Feed).Follows stream
              { c with incMsgNum := BitVec.ofNat 64 k } := ⟨by rw [toNat]; exact rest, fun zero => absurd zero nonzero⟩
          rw [number]
          simp only [countIncrement]
          have took : ∀ c', c'.incMsgNum = BitVec.ofNat 64 k → (c.incMsgNum = 0 ∨ k = c.incMsgNum.toNat + 1) →
              Polled stream c arrived f (dispatchIncrement c' { f' with recvNum := BitVec.ofNat 64 k } (stream k)) := by
            intro c' inc order
            obtain ⟨counters, feed, next⟩ := dispatch_spec c' { f' with recvNum := BitVec.ofNat 64 k } (stream k)
            refine .took head ⟨by omega, bound⟩ order (by rw [counters, inc]) next ?_
            rw [feed, counters]
            exact ⟨after.behind, fun zero => absurd (inc.symm.trans zero) nonzero⟩
          have skipped (started : c.incMsgNum ≠ 0) (other : c.incMsgNum + 1 ≠ BitVec.ofNat 64 k) :
              ∀ ms, continuing c.incMsgNum ((headNow (arrived, f)).toList ++ ms) = continuing c.incMsgNum ms := by
            intro ms
            rw [head]
            exact continuing_skip number started other
          split
          · rename_i zero
            exact took _ rfl (.inl zero)
          · rename_i started
            split
            · rename_i following
              exact took _ following (.inr ((next_number (by omega) bound).mp following))
            · rename_i other
              split
              · exact .idle rfl rfl rfl (skipped started other) ⟨after.behind, fun zero => absurd zero started⟩
              · exact .idle rfl rfl rfl (skipped started other) ⟨after.behind, fun zero => absurd zero started⟩

end Polls

/-! ## One call -/

section Calls
variable {stream : Nat → MdMessage}

theorem consecutive_append {inc mid last : Nat} {ms ms' : List MdMessage} (h : Consecutive stream inc ms mid)
    (h' : Consecutive stream mid ms' last) : Consecutive stream inc (ms ++ ms') last := by
  induction ms generalizing inc with
  | nil =>
    obtain rfl : inc = mid := h
    exact h'
  | cons m ms ih =>
    obtain ⟨k, hm, order, rest⟩ := h
    exact ⟨k, hm, order, ih rest⟩

/-- What the polls of one call amount to. -/
structure Polls (stream : Nat → MdMessage) (c : Counters) (next : Option MdMessage) (fs : List (Bool × Feed))
    (p : Poll) : Prop where
  counted : counted c fs = continuing c.incMsgNum (fs.filterMap headNow)
  consecutive : Consecutive stream c.incMsgNum.toNat (Book.counted c fs) p.counters.incMsgNum.toNat
  next : p.next = next.or ((Book.counted c fs).filter MdMessage.isIncrement).head?
  started : c.incMsgNum ≠ 0 → p.counters.incMsgNum ≠ 0
  follows : ∀ f ∈ p.feeds, f.Follows stream p.counters

theorem poll_cons {c : Counters} {next : Option MdMessage} {arrived : Bool} {f : Feed} {fs : List (Bool × Feed)}
    (ok : (pollFeeds c next ((arrived, f) :: fs)).ok = true) :
    let r := recvIncrement c arrived f
    r.ok = true ∧ (pollFeeds r.counters (keepFirst next r.next) fs).ok = true ∧
      pollFeeds c next ((arrived, f) :: fs) =
        { pollFeeds r.counters (keepFirst next r.next) fs with
          feeds := r.feed :: (pollFeeds r.counters (keepFirst next r.next) fs).feeds } := by
  simp only [pollFeeds] at ok ⊢
  cases h : (recvIncrement c arrived f).ok with
  | false => simp [h] at ok
  | true =>
    simp only [h, Bool.not_true, Bool.false_eq_true, if_false] at ok ⊢
    exact ⟨trivial, ok, trivial⟩

/-- A set that has received something goes on having received something. -/
theorem follows_later {c c' : Counters} {f : Feed} (h : f.Follows stream c)
    (later : c'.incMsgNum = 0 → c.incMsgNum = 0) : f.Follows stream c' :=
  ⟨h.behind, fun zero => h.fresh (later zero)⟩

theorem recv_head (arrived : Bool) (f : Feed) : (f.fastFeedRecv arrived).1 = headNow (arrived, f) := by
  cases arrived <;> rfl

theorem keep_first_or (next : Option MdMessage) (m : MdMessage) (ms : List MdMessage) :
    (keepFirst next (if m.isIncrement then some m else none)).or (ms.filter MdMessage.isIncrement).head? =
      next.or ((m :: ms).filter MdMessage.isIncrement).head? := by
  cases h : m.isIncrement <;> cases next <;> simp [keepFirst, h]

theorem polls_of {fs : List (Bool × Feed)} (numbered : Numbered stream) {c : Counters} {next : Option MdMessage}
    (follows : ∀ f ∈ fs, f.2.Follows stream c) (ok : (pollFeeds c next fs).ok = true) :
    Polls stream c next fs (pollFeeds c next fs) := by
  induction fs generalizing c next with
  | nil => exact ⟨rfl, rfl, (Option.or_none).symm, id, nofun⟩
  | cons af fs ih =>
    obtain ⟨arrived, f⟩ := af
    obtain ⟨done, oks, shape⟩ := poll_cons ok
    rw [shape]
    have polled : Polled stream c arrived f (recvIncrement c arrived f) :=
      recv_polled numbered (follows _ (List.mem_cons_self ..))
    cases polled with
    | idle _ inc none skipped follows' =>
      rw [none] at oks ⊢
      obtain ⟨counted, consecutive, next', started, rest⟩ := ih
        (fun g hg => follows_later (follows g (List.mem_cons_of_mem _ hg)) (inc ▸ id)) oks
      have shapes : Book.counted c ((arrived, f) :: fs) = Book.counted (recvIncrement c arrived f).counters fs := by
        rw [Book.counted, if_pos inc]
        rfl
      have heads : ((arrived, f) :: fs).filterMap headNow = (headNow (arrived, f)).toList ++ fs.filterMap headNow := by
        rw [List.filterMap_cons]
        cases headNow (arrived, f) <;> rfl
      refine ⟨?_, ?_, ?_, fun h => started (inc ▸ h), ?_⟩
      · rw [shapes, counted, heads, skipped, inc]
      · rw [shapes, ← inc]
        exact consecutive
      · rw [shapes]
        exact next'
      · exact List.forall_mem_cons.mpr ⟨follows_later follows' (Decidable.not_imp_not.mp started), rest⟩
    | @took k head bound later inc taken follows' =>
      have toNat : (BitVec.ofNat 64 k).toNat = k := by rw [BitVec.toNat_ofNat, Nat.mod_eq_of_lt bound.2]
      have moved : (recvIncrement c arrived f).counters.incMsgNum ≠ c.incMsgNum := by
        intro same
        have := congrArg BitVec.toNat (inc.symm.trans same)
        rw [toNat] at this
        obtain zero | following := later
        · rw [zero] at this
          exact absurd this (Nat.ne_of_gt bound.1)
        · omega
      have nonzero : (recvIncrement c arrived f).counters.incMsgNum ≠ 0 := by
        intro zero
        have := congrArg BitVec.toNat (inc.symm.trans zero)
        rw [toNat] at this
        exact absurd this (Nat.ne_of_gt bound.1)
      have shapes : Book.counted c ((arrived, f) :: fs) =
          stream k :: Book.counted (recvIncrement c arrived f).counters fs := by
        rw [Book.counted, if_neg moved, recv_head, head]
        rfl
      have number : (stream k).msgSeqNum.get = some (BitVec.ofNat 64 k) := by
        rw [(numbered k).2]
        rfl
      rw [taken done] at oks ⊢
      obtain ⟨counted, consecutive, next', started, rest⟩ := ih
        (fun g hg => follows_later (follows g (List.mem_cons_of_mem _ hg)) fun zero => absurd zero nonzero) oks
      refine ⟨?_, ?_, ?_, fun _ => started nonzero, ?_⟩
      · have take : continuing c.incMsgNum (stream k :: fs.filterMap headNow) = _ :=
          continuing_take number (numbered k).1 (later.imp_right (next_number bound.1 bound.2).mpr)
        rw [shapes, List.filterMap_cons, head, counted, inc, take]
      · rw [shapes]
        refine ⟨k, rfl, later.imp_left fun zero => by rw [zero]; rfl, ?_⟩
        rw [inc, toNat] at consecutive
        exact consecutive
      · rw [shapes, ← keep_first_or]
        exact next'
      · exact List.forall_mem_cons.mpr ⟨follows_later follows' (fun zero => absurd zero (started nonzero)), rest⟩

/-- One call that did not fail. -/
theorem call_counts (numbered : Numbered stream) {s : FeedSet} (follows : s.Follows stream) {arrived : Nat → Bool}
    (ok : (s.nextIncrement arrived).ok = true) :
    (s.call arrived).counted = continuing s.counters.incMsgNum (s.waitingNow arrived) ∧
      Consecutive stream s.counters.incMsgNum.toNat (s.call arrived).counted
        (s.nextIncrement arrived).set.counters.incMsgNum.toNat ∧
      (s.call arrived).next = ((s.call arrived).counted.filter MdMessage.isIncrement).head? ∧
      (s.nextIncrement arrived).set.Follows stream := by
  have polled : ∀ af ∈ s.polled arrived, af.2.Follows stream s.counters := by
    intro af mem
    obtain ⟨i, hi, rfl⟩ := List.mem_mapIdx.mp mem
    exact follows _ (List.getElem_mem hi)
  unfold FeedSet.call FeedSet.nextIncrement at *
  simp only at ok ⊢
  cases done : (pollFeeds s.counters none (s.polled arrived)).ok with
  | false => simp [done] at ok
  | true =>
    obtain ⟨counted, consecutive, next, -, after⟩ := polls_of numbered polled done
    simp only [done, Bool.not_true, Bool.false_eq_true, if_false] at ok ⊢
    split
    · rename_i gap
      rw [if_pos gap] at ok
      cases ok
    · exact ⟨counted, consecutive, next, after⟩

end Calls

/-! ## The run -/

theorem firsts_le (calls : List Call) (h : ∀ c ∈ calls, c.next = (c.counted.filter MdMessage.isIncrement).head?) :
    (calls.filterMap Call.next).length ≤ ((calls.flatMap Call.counted).filter MdMessage.isIncrement).length := by
  induction calls with
  | nil => exact Nat.le_refl _
  | cons c cs ih =>
    have tail := ih fun c hc => h c (List.mem_cons_of_mem _ hc)
    rw [List.filterMap_cons, List.flatMap_cons, List.filter_append, List.length_append, h c (List.mem_cons_self ..)]
    cases c.counted.filter MdMessage.isIncrement with
    | nil => simpa using tail
    | cons m ms =>
      simp only [List.head?_cons, List.length_cons]
      omega

/-- Handing out the first of every call hands out all, if and only if no call has a second. -/
theorem firsts_are_all (calls : List Call)
    (h : ∀ c ∈ calls, c.next = (c.counted.filter MdMessage.isIncrement).head?) :
    calls.filterMap Call.next = (calls.flatMap Call.counted).filter MdMessage.isIncrement ↔
      ∀ c ∈ calls, (c.counted.filter MdMessage.isIncrement).length ≤ 1 := by
  induction calls with
  | nil => simp
  | cons c cs ih =>
    have rest : ∀ c ∈ cs, c.next = (c.counted.filter MdMessage.isIncrement).head? :=
      fun c hc => h c (List.mem_cons_of_mem _ hc)
    have le := firsts_le cs rest
    rw [List.forall_mem_cons, ← ih rest, List.filterMap_cons, List.flatMap_cons, List.filter_append,
      h c (List.mem_cons_self ..)]
    cases c.counted.filter MdMessage.isIncrement with
    | nil => simp
    | cons m ms =>
      cases ms with
      | nil => simp
      | cons m' ms =>
        simp only [List.head?_cons, List.length_cons, List.cons_append, List.cons.injEq, true_and]
        refine ⟨fun all => ?_, fun one => by omega⟩
        have := congrArg List.length all
        simp only [List.length_cons, List.length_append] at this
        omega

/-- A run counts the consecutive messages of the stream, and hands out the first refresh of every call. -/
theorem run_counts {stream : Nat → MdMessage} (numbered : Numbered stream) {s s' : FeedSet} {calls : List Call}
    (run : Run s calls s') (follows : s.Follows stream) :
    Consecutive stream s.counters.incMsgNum.toNat (calls.flatMap Call.counted) s'.counters.incMsgNum.toNat ∧
      ∀ c ∈ calls, c.next = (c.counted.filter MdMessage.isIncrement).head? ∧
        c.counted = continuing c.before.counters.incMsgNum (c.before.waitingNow c.arrived) := by
  induction run with
  | nil s => exact ⟨rfl, List.forall_mem_nil _⟩
  | cons ok rest ih =>
    obtain ⟨counted, consecutive, next, after⟩ := call_counts numbered follows ok
    obtain ⟨later, calls⟩ := ih after
    rw [List.flatMap_cons]
    exact ⟨consecutive_append consecutive later, List.forall_mem_cons.mpr ⟨⟨next, counted⟩, calls⟩⟩

/-- **Redundant feeds.** However the stream reaches the feeds, a run loses nothing if and only if no call
finds two incremental refreshes that continue the count. -/
theorem increments_handed_out {stream : Nat → MdMessage} (numbered : Numbered stream) {s s' : FeedSet}
    {calls : List Call} (follows : s.Follows stream) (run : Run s calls s') :
    LosesNothing stream s calls s' ↔ ∀ c ∈ calls, c.OneIncrement := by
  obtain ⟨consecutive, each⟩ := run_counts numbered run follows
  have all := firsts_are_all calls fun c hc => (each c hc).1
  refine ⟨fun h c hc => ?_, fun h => ⟨consecutive, all.mpr fun c hc => ?_⟩⟩
  · rw [Call.OneIncrement, ← (each c hc).2]
    exact all.mp h.handed c hc
  · rw [(each c hc).2]
    exact h c hc

/-! ## Two feeds, one loss -/

/-- A stream of incremental refreshes with nothing in them. -/
def refreshes (k : Nat) : MdMessage where
  flagReset := false
  msgSeqNum := .value (BitVec.ofNat 64 k)
  messageType := .value (Fix.chars "X" ++ [0])
  securityId := .missing
  symbol := .missing
  rptSeq := .missing
  lastMsgSeqNumProcessed := .missing
  mdEntries := .missing

theorem refreshes_numbered : Numbered refreshes := fun _ => ⟨rfl, rfl⟩

/-- Feed A delivers message 1; feed B lost it and delivers message 2. -/
def twoFeeds : FeedSet := ⟨⟨0, false⟩, [⟨0, [refreshes 1]⟩, ⟨0, [refreshes 2]⟩]⟩

theorem two_feeds_follow : twoFeeds.Follows refreshes := by
  refine List.forall_mem_cons.mpr ⟨⟨?_, fun _ => rfl⟩, List.forall_mem_cons.mpr ⟨⟨?_, fun _ => rfl⟩, List.forall_mem_nil _⟩⟩
  · exact .next (by decide) (by decide) .nil
  · exact .next (by decide) (by decide) .nil

theorem apart_runs : Run twoFeeds [twoFeeds.call (· == 0), (twoFeeds.nextIncrement (· == 0)).set.call (· == 1)]
    ((twoFeeds.nextIncrement (· == 0)).set.nextIncrement (· == 1)).set :=
  .cons (by decide) (.cons (by decide) (.nil _))

/-- The calls where only feed A has something, and then only feed B: both are handed out. -/
theorem apart_handed_out :
    LosesNothing refreshes twoFeeds
      [twoFeeds.call (· == 0), (twoFeeds.nextIncrement (· == 0)).set.call (· == 1)]
      ((twoFeeds.nextIncrement (· == 0)).set.nextIncrement (· == 1)).set :=
  (increments_handed_out refreshes_numbered two_feeds_follow apart_runs).mpr
    (List.forall_mem_cons.mpr ⟨by unfold Call.OneIncrement; decide,
      List.forall_mem_cons.mpr ⟨by unfold Call.OneIncrement; decide, List.forall_mem_nil _⟩⟩)

/-- Where both arrive before one call, it counts 1 and 2 and hands out 1 only. -/
theorem second_increment_dropped :
    Numbered refreshes ∧ twoFeeds.Follows refreshes ∧
      Run twoFeeds [twoFeeds.call fun _ => true] (twoFeeds.nextIncrement fun _ => true).set ∧
      ¬LosesNothing refreshes twoFeeds [twoFeeds.call fun _ => true] (twoFeeds.nextIncrement fun _ => true).set := by
  refine ⟨refreshes_numbered, two_feeds_follow, .cons (by decide) (.nil _), fun h => ?_⟩
  have handed := h.handed
  revert handed
  decide

end Libtrading.Book
