import Libtrading.Fix.FastPath
import Libtrading.Fix.InFlight
import Libtrading.Fix.Keepalive

/-!
# A live peer is not given up on

Two sessions that have missed nothing, each with its own heartbeat interval, both answering what they receive. A
TestRequest of one is in flight to the other, or the Heartbeat that answers it is in flight back, until it is answered;
so where no message is longer in flight than a quarter of an interval, no keepalive comes before the answer.
-/

namespace Libtrading.Fix
set_option autoImplicit false
open Wire Bytes
universe u

/-! ## A TestRequest and its answer -/

namespace FixMessage
variable {F : Type u} [Doubles F]

/-- A TestRequest, or a Heartbeat, with a TestReqID. -/
structure Names (m : FixMessage F) (type : MsgType) (id : List UInt8) : Prop where
  type : m.type = type
  fields : ∃ text, m.fields = [.ofString Tag.testReqId text] ∧ cchars text = id

/-- A text of the clock, that fits the session's `testreqid`. -/
structure Clock (text : List UInt8) : Prop where
  short : (cchars text).length < 64
  soh : 1 ∉ cchars text

theorem chars_not_zero (text : List UInt8) : ∀ c ∈ cchars text, decide (c ≠ 0) = true :=
  fun c hc => by simpa using List.mem_takeWhile_imp hc

theorem cchars_cstr (text : List UInt8) : cchars (cstr (cchars text)) = cchars text := by
  rw [cstr, cchars, List.takeWhile_append_of_pos (chars_not_zero text), List.takeWhile_cons_of_neg (by decide), List.append_nil]

omit [Doubles F] in
/-- A text with a SOH in it is what is in front of the SOH, the SOH, and the rest. -/
theorem soh_splits {p : List UInt8} (inside : 1 ∈ p) : ∃ rest, p = p.takeWhile (· ≠ 1) ++ 1 :: rest := by
  induction p with
  | nil => cases inside
  | cons c p ih =>
    by_cases first : c = 1
    · exact ⟨p, by rw [List.takeWhile_cons_of_neg (by simpa using first), List.nil_append, first]⟩
    · obtain ⟨rest, same⟩ := ih ((List.mem_cons.1 inside).resolve_left fun is => first is.symm)
      exact ⟨rest, by rw [List.takeWhile_cons_of_pos (by simpa using first), List.cons_append, ← same]⟩

/-- The TestReqID as it is heard. -/
theorem Names.heard {m r : FixMessage F} {type : MsgType} {id : List UInt8} {v : Version} (h : m.Names type id)
    (heard : m.Heard v.dialect r) :
    ∃ f rest, r.fixGetField Tag.testReqId = some f ∧ f.stringValue = id ++ 1 :: rest ∧ f.stringValue.takeWhile (· ≠ 1) = id := by
  obtain ⟨text, fields, rfl⟩ := h.fields
  have shown := heard.field Tag.testReqId
  rw [FixMessage.shown, fields] at shown
  obtain ⟨f, there, same⟩ := Option.map_eq_some_iff.1 (shown.trans rfl)
  obtain ⟨value, before⟩ := string_of_text same
  have inside : 1 ∈ f.stringValue := heard.ends f (List.mem_of_find?_eq_some there) _ value
  obtain ⟨rest, splits⟩ := soh_splits inside
  rw [before] at splits
  exact ⟨f, rest, there, splits, before⟩

theorem test_request_id {m r : FixMessage F} {type : MsgType} {text : List UInt8} {v : Version}
    (h : m.Names type (cchars text)) (clock : Clock text) (heard : m.Heard v.dialect r) :
    Session.testRequestId r = cstr (cchars text) := by
  obtain ⟨f, rest, there, splits, before⟩ := h.heard heard
  have inside : (1 : UInt8) ∈ f.stringValue.take 128 := by
    have short := clock.short
    rw [splits, List.take_append, List.mem_append]
    refine .inr ?_
    obtain ⟨k, more⟩ : ∃ k, 128 - (cchars text).length = k + 1 := ⟨127 - (cchars text).length, by omega⟩
    rw [more, List.take_succ_cons]
    exact List.mem_cons_self
  have value : fixGetString f 128 = some (cchars text) := by
    rw [fixGetString, if_pos inside, before]
    exact congrArg some (List.takeWhile_eq_self_iff.2 (chars_not_zero text))
  rw [Session.testRequestId, there, Option.bind_some, value]
  rfl

end FixMessage

namespace Session
variable {F : Type u} [Doubles F] {s : Session F} {m : FixMessage F}

/-- A message with the number expected, no ResendRequest and no SequenceReset, is taken. -/
theorem handle_expected (number : m.msgSeqNum = s.inMsgSeqNum + 1) (resend : m.type ≠ .resendRequest)
    (reset : m.type ≠ .sequenceReset) : (s.handle m).1.inMsgSeqNum = s.inMsgSeqNum + 1 ∧
      ((s.handle m).2 = [] ∧ (s.handle m).1.outMsgSeqNum = s.outMsgSeqNum ∨
        ∃ r, (s.handle m).2 = [r] ∧ (s.handle m).1.outMsgSeqNum = s.outMsgSeqNum + 1 ∧ r.msgSeqNum = s.outMsgSeqNum ∧
          r.type ≠ .resendRequest ∧ r.type ≠ .sequenceReset) := by
  have sends := handle_sends s m
  refine ⟨?_, ?_⟩
  · rw [handle_in, FixMessage.counterAfter, if_neg reset, if_pos number]
  · generalize (s.handle m).2 = sent at sends ⊢
    generalize (s.handle m).1.outMsgSeqNum = out at sends ⊢
    cases sends with
    | nothing => exact .inl ⟨rfl, rfl⟩
    | @numbered r reset request number => exact .inr ⟨r, rfl, rfl, number, request, reset⟩
    | request high =>
      rw [number] at high
      exact absurd high (BitVec.lt_irrefl _)
    | gapFill request => exact absurd request resend

/-- A TestRequest with the number expected is answered by its name. -/
theorem handle_test_request (number : m.msgSeqNum = s.inMsgSeqNum + 1) (request : m.type = .testRequest) :
    (s.handle m).2 = [((s.received m).fixSessionHeartbeat (some (testRequestId m))).2] := by
  have expected : (s.received m).fixMsgExpected m = true := by
    rw [fixMsgExpected, received_in, number, BEq.rfl, Bool.true_or]
  have step : (s.received m).adminStep m = ⟨true, ((s.received m).fixSessionHeartbeat (some (testRequestId m))).1,
      [((s.received m).fixSessionHeartbeat (some (testRequestId m))).2], none⟩ := by
    rw [adminStep, expected, request]
    rfl
  rw [handle, respond, step]

/-- A Heartbeat with the name and the number expected answers the TestRequest. -/
theorem answered_by_name {v : Version} {id : List UInt8} {r : FixMessage F} (names : m.Names .heartbeat id)
    (heard : m.Heard v.dialect r) (number : r.msgSeqNum = s.inMsgSeqNum + 1) (same : cchars s.testreqid = id) :
    s.answeredBy r = true := by
  obtain ⟨f, rest, there, splits, -⟩ := names.heard heard
  have type : r.type = .heartbeat := heard.type.trans names.type
  rw [answeredBy, decide_eq_true type, decide_eq_true number, there, Option.any_some, same, splits,
    List.take_left' rfl, decide_eq_true rfl, Bool.and_self, Bool.and_self]

end Session

/-! ## A call, and a keepalive -/

namespace Timed
variable {F : Type u} [Doubles F]

/-- A message that `fix_session_recv` has returned, handed to `fix_session_admin`. -/
def respond (s : Timed F) (m : FixMessage F) : Timed F × List (FixMessage F) :=
  let r := s.session.respond m
  ({ s with session := r.1, txTimestamp := if r.2.isEmpty then s.txTimestamp else s.now }, r.2)

/-- A call of `fix_session_recv` where the first `n` of the bytes in flight have come, and of `fix_session_admin` with the
message that it returns: whether it returned one, the session, what is in flight to it then, and what it sent. -/
def take (s : Timed F) (bytes : List UInt8) (n : Nat) : Bool × Timed F × List UInt8 × List (FixMessage F) :=
  let r := s.session.hear bytes n
  match r.1 with
  | .message m =>
    let e := { s with session := r.2.1, rxTimestamp := s.now : Timed F }.respond m
    (true, e.1, r.2.2, e.2)
  | _ => (false, { s with session := r.2.1 }, r.2.2, [])

/-- A session that has received and parsed, and returned nothing. -/
def parsedTo (s : Timed F) (b : Buffer) (reason : FailureReason) : Timed F :=
  { s with session := s.session.parsedTo b reason }

variable {v : Version} {s : Timed F} {w : Way F}

/-- What a call makes of a way. -/
inductive Takes (v : Version) (s : Timed F) (w : Way F) : Bool × Timed F × List UInt8 × List (FixMessage F) → Prop
  | message {m r : FixMessage F} {ms : List (FixMessage F)} {b : Buffer} {bytes : List UInt8} (first : w.sent = m :: ms)
    (heard : m.Heard v.dialect r) (attends : (s.parsedTo b .success).session.Attends v ⟨bytes, ms⟩) :
    Takes v s w (true, ((s.parsedTo b .success).handle r).1, bytes, ((s.parsedTo b .success).handle r).2)
  | nothing {b : Buffer} {reason : FailureReason} {bytes : List UInt8}
    (attends : (s.parsedTo b reason).session.Attends v ⟨bytes, w.sent⟩) : Takes v s w (false, s.parsedTo b reason, bytes, [])

theorem take_takes (h : s.session.Attends v w) (n : Nat) : Takes v s w (s.take w.bytes n) := by
  have hears := Session.hear_hears h n
  rw [take]
  generalize s.session.hear w.bytes n = result at hears
  cases hears with
  | message first heard attends => exact .message first heard attends
  | @nothing ret b reason bytes none attends =>
    cases ret with
    | message m => exact absurd rfl (none m)
    | nothing | failed | fault => exact .nothing attends

/-- **What a keepalive sends** is what a session writes by itself. -/
theorem keepalive_same (brief : Brief s.session.strNow) (t : Int) :
    s.session.Same (s.fixSessionKeepalive t).2.1.session ∧ ∀ m ∈ (s.fixSessionKeepalive t).2.2, s.session.Writes m := by
  have keeping := keepalive_keeping s t
  have asked {s' : Timed F} {sent : List (FixMessage F)} (asking : Asking s t s' sent) :
      s.session.Same s'.session ∧ ∀ m ∈ sent, s.session.Writes m := by
    cases asking with
    | asks asks =>
      have request : s.session.Same { s.session with testreqid := strncpy s.session.strNow 64, trPending := true } :=
        ⟨rfl, rfl, rfl, rfl, rfl, rfl⟩
      obtain ⟨same, writes⟩ := request.sends (r := .init .testRequest [.ofString Tag.testReqId s.session.strNow]) 0
        (fun no => by cases no) (Nat.le_succ 1) (List.forall_mem_singleton.2 (brief_text (by decide) brief))
      exact ⟨same, List.forall_mem_singleton.2 writes⟩
    | waits none early => exact ⟨Session.same_refl _, List.forall_mem_nil _⟩
  generalize s.fixSessionKeepalive t = r at keeping ⊢
  cases keeping with
  | overdue pending late => exact ⟨Session.same_refl _, List.forall_mem_nil _⟩
  | beats asking silent =>
    obtain ⟨same, writes⟩ := asked asking
    obtain ⟨same', beat⟩ := same.sends (r := .init .heartbeat []) 0 (fun no => by cases no) (Nat.zero_le 2)
      (List.forall_mem_nil _)
    exact ⟨same', List.forall_mem_append.2 ⟨writes, List.forall_mem_singleton.2 beat⟩⟩
  | rests asking spoke => exact asked asking

end Timed

/-! ## The two of them -/

/-- Two sessions, the bytes in flight to either, and, with the time they were sent at, the messages that it has not returned
yet. -/
structure Pair (F : Type u) where
  time : Int
  party : Bool → Timed F
  bytes : Bool → List UInt8
  inFlight : Bool → List (Int × FixMessage F)

/-- Time goes on; a session updates its time and calls `fix_session_keepalive`; it calls `fix_session_recv` with the first
`n` bytes in flight to it; or it sends a message of its own. -/
inductive Pair.Act (F : Type u) where
  | pass (t : Int)
  | poll (i : Bool) (text : List UInt8)
  | take (i : Bool) (n : Nat)
  | send (i : Bool) (m : FixMessage F)

namespace Pair
variable {F : Type u} [Doubles F]

/-- A session behind what it did, and what it sent. -/
def post (p : Pair F) (i : Bool) (r : Timed F × List (FixMessage F)) : Pair F :=
  { p with
    party := Function.update p.party i r.1
    bytes := Function.update p.bytes (!i) (p.bytes (!i) ++ r.2.flatMap FixMessage.bytes)
    inFlight := Function.update p.inFlight (!i) (p.inFlight (!i) ++ r.2.map fun m => (p.time, m)) }

/-- The keepalive of a session, at the time there is. -/
def keepalive (p : Pair F) (i : Bool) (text : List UInt8) : Bool × Timed F × List (FixMessage F) :=
  ((p.party i).fixSessionTimeUpdate p.time text).fixSessionKeepalive p.time

/-- One act. -/
def step (p : Pair F) : Act F → Pair F
  | .pass t => { p with time := t }
  | .poll i text => p.post i (p.keepalive i text).2
  | .take i n =>
    let r := (p.party i).take (p.bytes i) n
    { p with
      bytes := Function.update p.bytes i r.2.2.1
      inFlight := Function.update p.inFlight i (if r.1 then (p.inFlight i).tail else p.inFlight i) }.post i (r.2.1, r.2.2.2)
  | .send i m => p.post i (((p.party i).fixSessionSend m 0).1, [((p.party i).fixSessionSend m 0).2])

/-- What an act is to keep to: no message is in flight for more than `d` seconds, a text of the clock is one, and what
a session sends of its own is no ResendRequest and no SequenceReset, and can be conveyed once it is numbered. -/
def Keeps (d : Int) (p : Pair F) : Act F → Prop
  | .pass t => p.time ≤ t ∧ ∀ i, ∀ q ∈ p.inFlight i, t ≤ q.1 + d
  | .poll _ text => FixMessage.Clock text
  | .take _ _ => True
  | .send i m => m.type ≠ .resendRequest ∧ m.type ≠ .sequenceReset ∧
    ((p.party i).session.numbered m 0).Conveyable (p.party i).session.dialect

/-- Acts that keep to that, with numbers below 2³¹. -/
inductive Run (d : Int) (p : Pair F) : Pair F → Prop
  | start : Run d p p
  | step {p' : Pair F} (run : Run d p p') (a : Act F) (keeps : p'.Keeps d a)
    (small : ∀ i, (p'.party i).session.outMsgSeqNum.toNat + 1 < 2 ^ 31) : Run d p (p'.step a)

/-! ## What is in flight -/

/-- Messages with the numbers from `x + 1` to before `out`. -/
def Follows (x : U64) : List (FixMessage F) → U64 → Prop
  | [], out => out = x + 1
  | m :: ms, out => m.msgSeqNum = x + 1 ∧ Follows (x + 1) ms out

/-- A message that its receiver takes. -/
structure Plain (m : FixMessage F) : Prop where
  resend : m.type ≠ .resendRequest
  reset : m.type ≠ .sequenceReset
  small : m.msgSeqNum.toNat < 2 ^ 31

/-- The TestRequest of a session is in flight to its peer, or its answer is in flight to the session. -/
def Outstanding (d : Int) (s : Timed F) (toPeer toIt : List (Int × FixMessage F)) : Prop :=
  ∃ text, FixMessage.Clock text ∧ cchars s.session.testreqid = cchars text ∧
    ((∃ q ∈ toPeer, q.1 = s.trTimestamp ∧ q.2.Names .testRequest (cchars text)) ∨
      ∃ q ∈ toIt, q.1 ≤ s.trTimestamp + d ∧ q.2.Names .heartbeat (cchars text))

/-- What holds of a session of a pair all the time. -/
structure InStep (d time : Int) (s peer : Timed F) (toPeer toIt : List (Int × FixMessage F)) : Prop where
  interval : 4 * d ≤ s.heartbtint ∧ s.heartbtint < 2 ^ 31
  follows : Follows s.session.inMsgSeqNum (toIt.map Prod.snd) peer.session.outMsgSeqNum
  plain : ∀ q ∈ toIt, Plain q.2
  recent : ∀ q ∈ toIt, q.1 ≤ time ∧ time ≤ q.1 + d
  request : s.session.trPending = true → s.trTimestamp ≤ time ∧ Outstanding d s toPeer toIt

/-- The way to a session. -/
def way (p : Pair F) (i : Bool) : Way F := ⟨p.bytes i, (p.inFlight i).map Prod.snd⟩

/-- Both of them, and what they attend to. -/
structure Inv (v : Version) (d : Int) (p : Pair F) : Prop where
  inStep : ∀ i, InStep d p.time (p.party i) (p.party !i) (p.inFlight !i) (p.inFlight i)
  attends : ∀ i, (p.party i).session.Attends v (p.way i)

variable {v : Version} {d time : Int} {s s' peer : Timed F} {toPeer toIt : List (Int × FixMessage F)}

omit [Doubles F] in
theorem Follows.append {x out : U64} {ms : List (FixMessage F)} (h : Follows x ms out) {m : FixMessage F}
    (number : m.msgSeqNum = out) : Follows x (ms ++ [m]) (out + 1) := by
  induction ms generalizing x with
  | nil =>
    cases h
    exact ⟨number, rfl⟩
  | cons m' ms ih => exact ⟨h.1, ih h.2⟩

omit [Doubles F] in
theorem Outstanding.mono (h : Outstanding d s toPeer toIt) {toPeer' toIt' : List (Int × FixMessage F)}
    (there : ∀ q ∈ toPeer, q ∈ toPeer') (back : ∀ q ∈ toIt, q ∈ toIt') : Outstanding d s toPeer' toIt' := by
  obtain ⟨text, clock, same, ⟨q, mem, time, names⟩ | ⟨q, mem, time, names⟩⟩ := h
  · exact ⟨text, clock, same, .inl ⟨q, there q mem, time, names⟩⟩
  · exact ⟨text, clock, same, .inr ⟨q, back q mem, time, names⟩⟩

omit [Doubles F] in
/-- Half an interval behind the TestRequest is not over while it is outstanding. -/
theorem InStep.early (h : InStep d time s peer toPeer toIt) (there : ∀ q ∈ toPeer, time ≤ q.1 + d)
    (pending : s.session.trPending = true) : ¬s.heartbtint < 2 * secondsSince time s.trTimestamp := by
  obtain ⟨quarter, most⟩ := h.interval
  obtain ⟨past, text, -, -, outstanding⟩ := h.request pending
  have soon : time - s.trTimestamp ≤ 2 * d := by
    rcases outstanding with ⟨q, mem, sent, -⟩ | ⟨q, mem, sent, -⟩
    · have early := there q mem
      omega
    · have early := (h.recent q mem).2
      omega
  rw [Timed.seconds_since past (by omega)]
  omega

/-! ## A session that sends -/

/-- Messages with the numbers from `out` to before `out'`. -/
def Numbers : U64 → List (FixMessage F) → U64 → Prop
  | out, [], out' => out' = out
  | out, m :: ms, out' => m.msgSeqNum = out ∧ Numbers (out + 1) ms out'

omit [Doubles F] in
theorem Follows.numbers {x out out' : U64} {ms ms' : List (FixMessage F)} (h : Follows x ms out)
    (numbers : Numbers out ms' out') : Follows x (ms ++ ms') out' := by
  induction ms' generalizing ms out with
  | nil =>
    cases numbers
    rw [List.append_nil]
    exact h
  | cons m ms' ih =>
    have first := ih (h.append numbers.1) numbers.2
    rwa [List.append_assoc] at first

/-- What a session did that sent `ms`, and took the first of what is in flight to it or nothing. -/
structure Does (d time : Int) (s s' : Timed F) (ms : List (FixMessage F))
    (toPeer toIt toIt' : List (Int × FixMessage F)) (peer : Timed F) : Prop where
  heartbtint : s'.heartbtint = s.heartbtint
  follows : Follows s'.session.inMsgSeqNum (toIt'.map Prod.snd) peer.session.outMsgSeqNum
  left : ∀ q ∈ toIt', q ∈ toIt
  numbers : Numbers s.session.outMsgSeqNum ms s'.session.outMsgSeqNum
  plain : ∀ m ∈ ms, Plain m
  request : s'.session.trPending = true → s'.trTimestamp ≤ time ∧
    Outstanding d s' (toPeer ++ ms.map fun m => (time, m)) toIt'
  -- the TestRequest that it took, if the peer had sent one, is answered
  answers : peer.session.trPending = true → Outstanding d peer toIt' (toPeer ++ ms.map fun m => (time, m))

omit [Doubles F] in
/-- Both are in step behind what one of them did. -/
theorem InStep.does (order : 0 ≤ d) {ms : List (FixMessage F)} {toIt' : List (Int × FixMessage F)}
    (h : InStep d time s peer toPeer toIt) (h' : InStep d time peer s toIt toPeer)
    (does : Does d time s s' ms toPeer toIt toIt' peer) :
    InStep d time s' peer (toPeer ++ ms.map fun m => (time, m)) toIt' ∧
      InStep d time peer s' toIt' (toPeer ++ ms.map fun m => (time, m)) := by
  refine ⟨⟨does.heartbtint ▸ h.interval, does.follows, fun q mem => h.plain q (does.left q mem),
    fun q mem => h.recent q (does.left q mem), does.request⟩, ⟨h'.interval, ?_, fun q mem => ?_, fun q mem => ?_,
    fun pending => ⟨(h'.request pending).1, does.answers pending⟩⟩⟩
  · have sent : (ms.map fun m => (time, m)).map Prod.snd = ms := by
      rw [List.map_map]
      exact List.map_id ms
    rw [List.map_append, sent]
    exact h'.follows.numbers does.numbers
  · rcases List.mem_append.1 mem with old | new
    · exact h'.plain q old
    · obtain ⟨m, there, rfl⟩ := List.mem_map.1 new
      exact does.plain m there
  · rcases List.mem_append.1 mem with old | new
    · exact h'.recent q old
    · obtain ⟨m, there, rfl⟩ := List.mem_map.1 new
      exact ⟨Int.le_refl _, by omega⟩

/-- A message of its own. -/
theorem does_send (h : InStep d time s peer toPeer toIt) (h' : InStep d time peer s toIt toPeer)
    (small : s.session.outMsgSeqNum.toNat + 1 < 2 ^ 31) {m : FixMessage F} (resend : m.type ≠ .resendRequest)
    (reset : m.type ≠ .sequenceReset) :
    Does d time s (s.fixSessionSend m 0).1 [(s.fixSessionSend m 0).2] toPeer toIt toIt peer where
  heartbtint := rfl
  follows := h.follows
  left _ mem := mem
  numbers := ⟨rfl, rfl⟩
  plain := List.forall_mem_singleton.2 ⟨resend, reset, Nat.lt_of_succ_lt small⟩
  request pending := by
    obtain ⟨past, outstanding⟩ := h.request pending
    have more : Outstanding d s (toPeer ++ [(time, (s.fixSessionSend m 0).2)]) toIt :=
      outstanding.mono (fun q mem => List.mem_append_left _ mem) fun q mem => mem
    exact ⟨past, more⟩
  answers pending := (h'.request pending).2.mono (fun q mem => mem) fun q mem => List.mem_append_left _ mem

omit [Doubles F] in
/-- Nothing that the two are concerned with. -/
theorem does_nothing (h : InStep d time s peer toPeer toIt) (h' : InStep d time peer s toIt toPeer) {t : Session F} {now : Int}
    (incoming : t.inMsgSeqNum = s.session.inMsgSeqNum) (outgoing : t.outMsgSeqNum = s.session.outMsgSeqNum)
    (pends : t.trPending = s.session.trPending) (testreqid : t.testreqid = s.session.testreqid) :
    Does d time s { s with session := t, now := now } [] toPeer toIt toIt peer where
  heartbtint := rfl
  follows := by
    simp only [incoming]
    exact h.follows
  left _ mem := mem
  numbers := outgoing
  plain := List.forall_mem_nil _
  request pending := by
    obtain ⟨past, text, clock, same, outstanding⟩ := h.request (pends.symm.trans pending)
    rw [List.map_nil, List.append_nil]
    exact ⟨past, text, clock, (congrArg cchars testreqid).trans same, outstanding⟩
  answers pending := (h'.request pending).2.mono (fun q mem => mem) fun q mem => List.mem_append_left _ mem

/-- A message that is taken. -/
theorem does_take {q : Int × FixMessage F} {qs : List (Int × FixMessage F)} (h : InStep d time s peer toPeer (q :: qs))
    (h' : InStep d time peer s (q :: qs) toPeer) (small : s.session.outMsgSeqNum.toNat + 1 < 2 ^ 31) {r : FixMessage F}
    (heard : q.2.Heard v.dialect r) : Does d time s (s.handle r).1 (s.handle r).2 toPeer (q :: qs) qs peer := by
  obtain ⟨resend, reset, low⟩ := h.plain q List.mem_cons_self
  rw [← heard.type] at resend reset
  have number : r.msgSeqNum = s.session.inMsgSeqNum + 1 := heard.msgSeqNum.trans h.follows.1
  have request := Session.handle_request s.session r
  obtain ⟨counts, sends⟩ := Session.handle_expected (s := s.session) number resend reset
  refine ⟨rfl, ?_, fun q' mem => List.mem_cons_of_mem _ mem, ?_, ?_, fun pending => ?_,
    fun pending => ?_⟩
  · change Follows (s.session.handle _).1.inMsgSeqNum _ _
    rw [counts]
    exact h.follows.2
  · change Numbers s.session.outMsgSeqNum (s.session.handle _).2 (s.session.handle _).1.outMsgSeqNum
    rcases sends with ⟨none, out⟩ | ⟨x, one, out, numbered, -, -⟩
    · rw [none]
      exact out
    · rw [one]
      exact ⟨numbered, out⟩
  · change ∀ m ∈ (s.session.handle _).2, Plain m
    rcases sends with ⟨none, -⟩ | ⟨x, one, -, numbered, resend', reset'⟩
    · rw [none]
      exact List.forall_mem_nil _
    · rw [one]
      exact List.forall_mem_singleton.2 ⟨resend', reset', by rw [numbered]; omega⟩
  · have both : s.session.trPending = true ∧ s.session.answeredBy r = false := by
      have left := request.2.symm.trans pending
      rw [Bool.and_eq_true, Bool.not_eq_true'] at left
      exact left
    obtain ⟨past, text, clock, same, outstanding⟩ := h.request both.1
    refine ⟨past, text, clock, (congrArg cchars request.1).trans same, ?_⟩
    rcases outstanding with ⟨q', mem, sent, names⟩ | ⟨q', mem, sent, names⟩
    · exact .inl ⟨q', List.mem_append_left _ mem, sent, names⟩
    · rcases List.mem_cons.1 mem with rfl | mem
      · have answered := Session.answered_by_name names heard number same
        rw [both.2] at answered
        cases answered
      · exact .inr ⟨q', mem, sent, names⟩
  · obtain ⟨past, text, clock, same, outstanding⟩ := h'.request pending
    refine ⟨text, clock, same, ?_⟩
    rcases outstanding with ⟨q', mem, sent, names⟩ | ⟨q', mem, sent, names⟩
    · rcases List.mem_cons.1 mem with rfl | mem
      · have answer : (s.handle r).2 =
            [((s.session.received r).fixSessionHeartbeat (some (Session.testRequestId r))).2] :=
          Session.handle_test_request number (heard.type.trans names.type)
        rw [answer, FixMessage.test_request_id names clock heard]
        have soon := (h.recent q' List.mem_cons_self).2
        have sentBack : time ≤ peer.trTimestamp + d := by omega
        exact .inr ⟨_, List.mem_append_right _ (List.mem_singleton_self _), sentBack, rfl, _, rfl,
          FixMessage.cchars_cstr text⟩
      · exact .inl ⟨q', mem, sent, names⟩
    · exact .inr ⟨q', List.mem_append_left _ mem, sent, names⟩

omit [Doubles F] in
theorem Numbers.append {out out' : U64} {ms : List (FixMessage F)} (h : Numbers out ms out') {m : FixMessage F}
    (number : m.msgSeqNum = out') : Numbers out (ms ++ [m]) (out' + 1) := by
  induction ms generalizing out with
  | nil =>
    cases h
    exact ⟨number, rfl⟩
  | cons m' ms ih => exact ⟨h.1, ih h.2⟩

/-- A Heartbeat behind what it did. -/
theorem Does.beat {ms : List (FixMessage F)} {toIt' : List (Int × FixMessage F)}
    (h : Does d time s s' ms toPeer toIt toIt' peer) (small : s'.session.outMsgSeqNum.toNat < 2 ^ 31) :
    Does d time s (s'.fixSessionHeartbeat none).1 (ms ++ [(s'.fixSessionHeartbeat none).2]) toPeer toIt toIt' peer := by
  have more : ∀ q ∈ toPeer ++ ms.map fun m => (time, m),
      q ∈ toPeer ++ (ms ++ [(s'.fixSessionHeartbeat none).2]).map fun m => (time, m) := by
    intro q mem
    rw [List.map_append, ← List.append_assoc]
    exact List.mem_append_left _ mem
  refine ⟨h.heartbtint, h.follows, h.left, h.numbers.append rfl, ?_, fun pending => ?_, fun pending =>
    (h.answers pending).mono (fun q mem => mem) more⟩
  · intro m mem
    rcases List.mem_append.1 mem with old | new
    · exact h.plain m old
    · rw [List.mem_singleton.1 new]
      exact ⟨nofun, nofun, small⟩
  · obtain ⟨past, outstanding⟩ := h.request pending
    exact ⟨past, outstanding.mono more fun q mem => mem⟩

/-- A keepalive at the time there is. -/
theorem does_poll (h : InStep d time s peer toPeer toIt) (h' : InStep d time peer s toIt toPeer)
    (small : s.session.outMsgSeqNum.toNat + 1 < 2 ^ 31) {text : List UInt8} (clock : FixMessage.Clock text) :
    let r := (s.fixSessionTimeUpdate time text).fixSessionKeepalive time
    r.1 = true ∧ Does d time s r.2.1 r.2.2 toPeer toIt toIt peer := by
  intro r
  have early := h.early fun q mem => (h'.recent q mem).2
  have keeping := Timed.keepalive_keeping (s.fixSessionTimeUpdate time text) time
  have asked {s' : Timed F} {sent : List (FixMessage F)} (asking : Timed.Asking (s.fixSessionTimeUpdate time text) time s' sent) :
      Does d time s s' sent toPeer toIt toIt peer ∧ s'.session.outMsgSeqNum.toNat < 2 ^ 31 := by
    cases asking with
    | asks asks =>
      refine ⟨⟨rfl, h.follows, fun q mem => mem, ⟨rfl, rfl⟩, List.forall_mem_singleton.2 ⟨nofun, nofun, ?_⟩, fun _ => ?_,
        fun pending => (h'.request pending).2.mono (fun q mem => mem) fun q mem => List.mem_append_left _ mem⟩, ?_⟩
      · exact Nat.lt_of_succ_lt small
      · refine ⟨Int.le_refl _, text, clock, FixTemplate.strncpy_chars clock.short, .inl ?_⟩
        exact ⟨_, List.mem_append_right _ (List.mem_singleton_self _), rfl, rfl, text, rfl, rfl⟩
      · change (s.session.outMsgSeqNum + 1).toNat < 2 ^ 31
        rw [next_number (Nat.lt_of_succ_lt small)]
        exact small
    | waits none _ =>
      exact ⟨does_nothing h h' rfl rfl rfl rfl, Nat.lt_of_succ_lt small⟩
  change Timed.Keeping _ time r at keeping
  generalize r = r at keeping
  cases keeping with
  | overdue pending late => exact absurd late (early pending)
  | beats asking silent => exact ⟨rfl, (asked asking).1.beat (asked asking).2⟩
  | rests asking spoke => exact ⟨rfl, (asked asking).1⟩

/-! ## The runs -/

variable {p p' : Pair F}

theorem not_ne (i : Bool) : (!i) ≠ i := by
  cases i <;> decide

omit [Doubles F] in
/-- A session that has parsed some more. -/
theorem InStep.parsed (h : InStep d time s peer toPeer toIt) (h' : InStep d time peer s toIt toPeer) (b : Buffer)
    (reason : FailureReason) :
    InStep d time (s.parsedTo b reason) peer toPeer toIt ∧ InStep d time peer (s.parsedTo b reason) toIt toPeer :=
  ⟨⟨h.interval, h.follows, h.plain, h.recent, h.request⟩, ⟨h'.interval, h'.follows, h'.plain, h'.recent, h'.request⟩⟩

/-- What a session writes by itself, with its number below 2³¹, is fair. -/
theorem Plain.fair {t : Session F} {m : FixMessage F} (h : Plain m) (headed : t.Headed v) (writes : t.Writes m) : m.Fair v :=
  ⟨headed.conveyable writes h.small, fun request => absurd request h.resend⟩

/-- A pair behind what one of them did. -/
theorem Inv.post (inv : Inv v d p) (order : 0 ≤ d) {i : Bool} {t : Timed F} {r : Timed F × List (FixMessage F)}
    {bytes' : List UInt8} {toIt' : List (Int × FixMessage F)}
    (mine : InStep d p.time t (p.party !i) (p.inFlight !i) (p.inFlight i))
    (theirs : InStep d p.time (p.party !i) t (p.inFlight i) (p.inFlight !i))
    (does : Does d p.time t r.1 r.2 (p.inFlight !i) (p.inFlight i) toIt' (p.party !i))
    (attends : r.1.session.Attends v ⟨bytes', toIt'.map Prod.snd⟩) (fair : ∀ m ∈ r.2, m.Fair v) :
    Inv v d ({ p with
      bytes := Function.update p.bytes i bytes'
      inFlight := Function.update p.inFlight i toIt' }.post i r) := by
  obtain ⟨first, second⟩ := mine.does order theirs does
  have posted := (inv.attends !i).posted fair
  have sent : (r.2.map fun m => (p.time, m)).map Prod.snd = r.2 := by
    rw [List.map_map]
    exact List.map_id _
  refine ⟨fun j => ?_, fun j => ?_⟩ <;> by_cases same : j = i
  · subst same
    simp only [Pair.post, Function.update_self, Function.update_of_ne (not_ne j), Function.update_of_ne (not_ne j).symm]
    exact first
  · obtain rfl : j = !i := by
      cases i <;> cases j <;> first | rfl | exact absurd rfl same
    simp only [Pair.post, Function.update_self, Function.update_of_ne (not_ne i), Bool.not_not,
      Function.update_of_ne (not_ne i).symm]
    exact second
  · subst same
    simp only [way, Pair.post, Function.update_self, Function.update_of_ne (not_ne j).symm]
    exact attends
  · obtain rfl : j = !i := by
      cases i <;> cases j <;> first | rfl | exact absurd rfl same
    simp only [way, Pair.post, Function.update_self, Function.update_of_ne (not_ne i), List.map_append, sent]
    exact posted

/-- **An act** keeps the two in step. -/
theorem Inv.step (inv : Inv v d p) (order : 0 ≤ d) {a : Act F} (keeps : p.Keeps d a)
    (small : ∀ i, (p.party i).session.outMsgSeqNum.toNat + 1 < 2 ^ 31) : Inv v d (p.step a) := by
  have mine := inv.inStep
  have theirs (i : Bool) : InStep d p.time (p.party !i) (p.party i) (p.inFlight i) (p.inFlight !i) := by
    have theirs := mine (!i)
    rwa [Bool.not_not] at theirs
  cases a with
  | pass t =>
    obtain ⟨on, soon⟩ := keeps
    refine ⟨fun i => ?_, inv.attends⟩
    obtain ⟨interval, follows, plain, recent, request⟩ := mine i
    refine ⟨interval, follows, plain, fun q mem => ⟨(recent q mem).1.trans on, soon i q mem⟩, fun pending => ?_⟩
    exact ⟨(request pending).1.trans on, (request pending).2⟩
  | poll i text =>
    have does := (does_poll (mine i) (theirs i) (small i) keeps).2
    have before := inv.attends i
    have updated : ((p.party i).fixSessionTimeUpdate p.time text).session.Attends v (p.way i) :=
      ⟨⟨before.headed.dialect, before.headed.beginString, before.headed.senderCompId, before.headed.targetCompId, keeps.soh⟩,
        ⟨before.receives.valid, before.receives.size⟩, before.bytes, before.fair⟩
    have brief : Brief text := ⟨keeps.soh, by have short := keeps.short; omega⟩
    obtain ⟨same, writes⟩ :=
      Timed.keepalive_same (s := (p.party i).fixSessionTimeUpdate p.time text) brief p.time
    have behind := inv.post order (i := i) (mine i) (theirs i) does (updated.same same) fun m hm =>
      (does.plain m hm).fair updated.headed (writes m hm)
    rwa [Function.update_eq_self, Function.update_eq_self] at behind
  | take i n =>
    have takes := Timed.take_takes (inv.attends i) n
    rw [Pair.step]
    change Timed.Takes v (p.party i) (p.way i) ((p.party i).take (p.bytes i) n) at takes
    generalize (p.party i).take (p.bytes i) n = result at takes
    cases takes with
    | @message m r ms b bytes first heard attends =>
      obtain ⟨q, qs, there, rfl, rfl⟩ := List.map_eq_cons_iff.1 first
      obtain ⟨mine', theirs'⟩ := (mine i).parsed (theirs i) b .success
      rw [there] at mine' theirs'
      have does := does_take mine' theirs' (small i) heard
      obtain ⟨same, writes⟩ := Session.handle_same ((p.party i).parsedTo b .success).session r
      rw [← there] at mine' theirs' does
      have behind := inv.post order (i := i) (r := ((p.party i).parsedTo b .success).handle r) mine' theirs' does
        (attends.same same) fun m hm => (does.plain m hm).fair attends.headed (writes m hm)
      simp only [there, List.tail_cons, if_true]
      exact behind
    | @nothing b reason bytes attends =>
      have does : Does d p.time (p.party i) ((p.party i).parsedTo b reason) [] (p.inFlight !i) (p.inFlight i) (p.inFlight i)
          (p.party !i) := does_nothing (mine i) (theirs i) rfl rfl rfl rfl
      exact inv.post order (i := i) (r := ((p.party i).parsedTo b reason, [])) (mine i) (theirs i) does attends
        (List.forall_mem_nil _)
  | send i m =>
    obtain ⟨resend, reset, conveys⟩ := keeps
    have does := does_send (mine i) (theirs i) (small i) resend reset
    have before := inv.attends i
    have conveyable : ((p.party i).fixSessionSend m 0).2.Conveyable v.dialect := before.headed.dialect ▸ conveys
    have behind := inv.post order (i := i) (r := (((p.party i).fixSessionSend m 0).1, [((p.party i).fixSessionSend m 0).2]))
      (mine i) (theirs i) does (before.same (Session.same_send _ m 0))
      (List.forall_mem_singleton.2 ⟨conveyable, fun request => absurd request resend⟩)
    rwa [Function.update_eq_self, Function.update_eq_self] at behind

/-- Two sessions of a version, with headers that can be conveyed, that have missed nothing, with nothing in flight, nothing
asked, and heartbeat intervals of four times `d` or more. -/
structure Started (v : Version) (d : Int) (p : Pair F) : Prop where
  headed : ∀ i, (p.party i).session.Headed v
  receives : ∀ i, (p.party i).session.Receives ∧ (p.party i).session.rxBuffer.unread = []
  interval : ∀ i, 4 * d ≤ (p.party i).heartbtint ∧ (p.party i).heartbtint < 2 ^ 31
  numbers : ∀ i, (p.party !i).session.outMsgSeqNum = (p.party i).session.inMsgSeqNum + 1
  idle : ∀ i, (p.party i).session.trPending = false
  nothing : ∀ i, p.bytes i = [] ∧ p.inFlight i = []

theorem Started.inv (h : p.Started v d) : Inv v d p := by
  refine ⟨fun i => ?_, fun i => ?_⟩
  · refine ⟨h.interval i, ?_, ?_, ?_, fun pending => absurd (pending.symm.trans (h.idle i)) (by decide)⟩
    · rw [(h.nothing i).2]
      exact h.numbers i
    · rw [(h.nothing i).2]
      exact List.forall_mem_nil _
    · rw [(h.nothing i).2]
      exact List.forall_mem_nil _
  · rw [way, (h.nothing i).1, (h.nothing i).2]
    exact Session.attends_nothing (h.headed i) (h.receives i).1 (h.receives i).2

theorem Run.inv (run : Run d p p') (order : 0 ≤ d) (started : p.Started v d) : Inv v d p' := by
  induction run with
  | start => exact started.inv
  | step run a keeps small ih => exact ih.step order keeps small

/-- **A live peer is not given up on.** Where no message is in flight for more than `d` seconds, a quarter of a heartbeat
interval at most, every keepalive of two sessions that have missed nothing returns true. -/
theorem live_peer_kept (order : 0 ≤ d) (started : p.Started v d) (run : Run d p p')
    (small : ∀ i, (p'.party i).session.outMsgSeqNum.toNat + 1 < 2 ^ 31) (i : Bool) {text : List UInt8}
    (clock : FixMessage.Clock text) : (p'.keepalive i text).1 = true := by
  have inv := (run.inv order started).inStep
  have theirs := inv (!i)
  rw [Bool.not_not] at theirs
  exact (does_poll (inv i) theirs (small i) clock).1

end Pair

/-! ## An interval of eight seconds -/

/-- Two new sessions with a heartbeat interval of eight seconds. -/
def eightSeconds : Pair (List UInt8) where
  time := 0
  bytes _ := []
  party i := ⟨fixSessionNew ⟨chars (if i then "A" else "B"), chars (if i then "B" else "A"), Version.fix44.dialect, 0, 1⟩ [],
    8, 0, 0, 0, 0⟩
  inFlight _ := []

theorem eight_seconds_started : eightSeconds.Started .fix44 2 where
  headed := Bool.forall_bool.2 ⟨⟨rfl, rfl, ⟨by decide, by decide⟩, ⟨by decide, by decide⟩, List.not_mem_nil⟩,
    ⟨rfl, rfl, ⟨by decide, by decide⟩, ⟨by decide, by decide⟩, List.not_mem_nil⟩⟩
  receives _ := ⟨Session.new_receives _ _, rfl⟩
  interval _ := ⟨Int.le_refl 8, by change (8 : Int) < 2 ^ 31; decide⟩
  numbers _ := rfl
  idle _ := rfl
  nothing _ := ⟨rfl, rfl⟩

/-- A silence of ten seconds, the TestRequest of the first session with a Heartbeat, the answer two seconds later, and
three seconds more. -/
def askedAndAnswered : List (Pair.Act (List UInt8)) :=
  [.pass 10, .poll true (cstr (chars "10")), .take false 20, .take false 1000, .take false 0, .pass 12, .take true 1000,
    .pass 15]

theorem asked_and_answered_run : Pair.Run 2 eightSeconds (askedAndAnswered.foldl Pair.step eightSeconds) := by
  have passed := (Pair.Run.start (p := eightSeconds) (d := 2)).step (.pass 10)
    ⟨by decide, Bool.forall_bool.2 ⟨by decide, by decide⟩⟩ (Bool.forall_bool.2 ⟨by decide, by decide⟩)
  have polled := passed.step (.poll true (cstr (chars "10"))) ⟨by decide, by decide⟩
    (Bool.forall_bool.2 ⟨by decide, by decide⟩)
  have part := polled.step (.take false 20) trivial (Bool.forall_bool.2 ⟨by decide +kernel, by decide +kernel⟩)
  have asked := part.step (.take false 1000) trivial (Bool.forall_bool.2 ⟨by decide +kernel, by decide +kernel⟩)
  have told := asked.step (.take false 0) trivial (Bool.forall_bool.2 ⟨by decide +kernel, by decide +kernel⟩)
  have later := told.step (.pass 12) ⟨by decide, Bool.forall_bool.2 ⟨by decide +kernel, by decide +kernel⟩⟩
    (Bool.forall_bool.2 ⟨by decide +kernel, by decide +kernel⟩)
  have answered := later.step (.take true 1000) trivial (Bool.forall_bool.2 ⟨by decide +kernel, by decide +kernel⟩)
  exact answered.step (.pass 15) ⟨by decide, Bool.forall_bool.2 ⟨by decide +kernel, by decide +kernel⟩⟩
    (Bool.forall_bool.2 ⟨by decide +kernel, by decide +kernel⟩)

/-- Unanswered, the TestRequest would be overdue by now. -/
theorem asked_and_kept :
    ((askedAndAnswered.foldl Pair.step eightSeconds).keepalive true (cstr (chars "15"))).1 = true :=
  Pair.live_peer_kept (by decide) eight_seconds_started asked_and_answered_run
    (Bool.forall_bool.2 ⟨by decide +kernel, by decide +kernel⟩) true ⟨by decide, by decide⟩

end Libtrading.Fix
