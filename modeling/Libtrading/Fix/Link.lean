import Libtrading.Fix.Handling

/-!
# Two sessions

Two sessions and the bytes in flight between them, each way in order and without a loss. Either calls `fix_session_recv`
with as many of these bytes as have come, and hands a message that it returns to `fix_session_admin`, which may send; and
either sends messages of its own. ResendRequests and SequenceResets are sent by `fix_session_admin` alone.

The bytes to a session, those it has received and not parsed in front, are those of the messages sent to it that it has not
returned yet; so a call that returns a message returns the first of these.
-/

namespace Libtrading.Fix
open Buffer Wire Bytes
set_option autoImplicit false
universe u

section
variable {F : Type u} [Doubles F] {dialect : Dialect} {v : Version}

/-! ## What is heard of a message -/

namespace FixMessage

/-- A message as it was received: as it is to be delivered, its texts going on to their SOHs. -/
structure Heard (dialect : Dialect) (sent r : FixMessage F) : Prop extends sent.Delivered dialect r where
  ends : ∀ f ∈ r.fields, f.Ends

/-- A gap fill to `new`. -/
structure FillsTo (m : FixMessage F) (new : U64) : Prop where
  type : m.type = .sequenceReset
  fields : m.fields = [.ofInt Tag.newSeqNo new, .ofString Tag.gapFillFlag (cstr (chars "Y"))]

/-- A request for what comes from `first` on. -/
structure Requests (m : FixMessage F) (first stop : U64) : Prop where
  type : m.type = .resendRequest
  fields : m.fields = [.ofInt Tag.beginSeqNo first, .ofInt Tag.endSeqNo stop]

variable {m r : FixMessage F}

theorem heard_of_arrived (common : dialect.Common) (h : m.Conveyable dialect) (arrived : Arrived dialect m.onWire r) :
    m.Heard dialect r :=
  ⟨arrived_delivered common h arrived, arrived.ends⟩

/-- The first field with a tag, of those heard, is the first one shown. -/
theorem Heard.field (h : m.Heard dialect r) (tag : Tag) : (r.fixGetField tag).map FixField.text =
    (m.shown.map (FixField.readAs dialect)).find? fun f => f.tag = tag := by
  rw [← h.fields, List.find?_map, fixGetField]
  rfl

omit [Doubles F] in
theorem int_of_text {f : FixField F} {tag : Tag} {n : U64} (text : f.text = .ofInt tag n) : f.intValue = n := by
  obtain ⟨t, value⟩ := f
  have same : Bytes.text value = .int n := congrArg FixField.value text
  cases value with
  | int w =>
    cases same
    rfl
  | float | char | string | checkSum | msgSeqNum | string8 => cases same

omit [Doubles F] in
theorem string_of_text {f : FixField F} {tag : Tag} {w : List UInt8} (text : f.text = .ofString tag w) :
    f.value = .string f.stringValue ∧ f.stringValue.takeWhile (· ≠ 1) = w := by
  obtain ⟨t, value⟩ := f
  have same : Bytes.text value = .string w := congrArg FixField.value text
  cases value with
  | string p =>
    cases same
    exact ⟨rfl, rfl⟩
  | int | float | char | checkSum | msgSeqNum | string8 => cases same

/-- The fields of a gap fill as they are heard. -/
theorem Heard.fill {new : U64} (h : m.Heard v.dialect r) (fills : m.FillsTo new) :
    (∃ f, r.fixGetField Tag.newSeqNo = some f ∧ f.intValue = new) ∧ r.gapFill = true := by
  have number := h.field Tag.newSeqNo
  have flag := h.field Tag.gapFillFlag
  rw [shown, fills.fields] at number flag
  obtain ⟨f, there, text⟩ := Option.map_eq_some_iff.1 (number.trans rfl)
  obtain ⟨g, there', text'⟩ := Option.map_eq_some_iff.1 (flag.trans rfl)
  refine ⟨⟨f, there, int_of_text text⟩, ?_⟩
  have yes : g.stringValue.takeWhile (· ≠ 1) = chars "Y" := (string_of_text text').2
  have head : g.stringValue.headD 0 = 'Y'.toNat.toUInt8 := by
    have one : chars "Y" = ['Y'.toNat.toUInt8] := by decide
    rw [one] at yes
    cases value : g.stringValue with
    | nil =>
      rw [value] at yes
      cases yes
    | cons c w =>
      rw [value, List.takeWhile_cons] at yes
      split at yes
      · exact (List.cons.inj yes).1
      · cases yes
  rw [gapFill, there']
  simp only [head, BEq.rfl]

/-- The fields of a request as they are heard. -/
theorem Heard.request {first stop : U64} (h : m.Heard v.dialect r) (requests : m.Requests first stop) {f g : FixField F}
    (begins : r.fixGetField Tag.beginSeqNo = some f) (ends : r.fixGetField Tag.endSeqNo = some g) :
    f.intValue = first ∧ g.intValue = stop := by
  have first' := h.field Tag.beginSeqNo
  have last' := h.field Tag.endSeqNo
  rw [shown, requests.fields, begins] at first'
  rw [shown, requests.fields, ends] at last'
  exact ⟨int_of_text (Option.some.inj first'), int_of_text (Option.some.inj last')⟩

/-! ## The bytes in flight -/

/-- The bytes of a message, as `fix_message_unparse` leaves them in the buffers of a session. -/
def bytes (m : FixMessage F) : List UInt8 :=
  let tx := m.fixMessageUnparse (bufferNew fixMaxHeadLen) (bufferNew fixMaxBodyLen)
  tx.1.data.take tx.1.stop ++ tx.2.data.take tx.2.stop

theorem bytes_on_wire (fits : m.Fits) : m.bytes = m.onWire.text := by
  obtain ⟨head, body⟩ := fits
  have bodyMax : fixMaxBodyLen = 1024 := rfl
  have headRoom : (bufferNew fixMaxHeadLen).data.length = fixMaxHeadLen := List.length_replicate
  have bodyRoom : (bufferNew fixMaxBodyLen).data.length = fixMaxBodyLen := List.length_replicate
  exact unparsed_on_wire ⟨rfl, rfl⟩ ⟨rfl, rfl⟩ (head.trans headRoom.ge) (body.trans bodyRoom.ge) (by omega)

/-- A message in flight: it can be conveyed, and if it is a ResendRequest, it is one of a session. -/
structure Fair (v : Version) (m : FixMessage F) : Prop where
  conveyable : m.Conveyable v.dialect
  asks : m.type = .resendRequest → ∃ first stop, m.Requests first stop ∧ first.toNat < 2 ^ 31

end FixMessage

/-- One way of a connection: the bytes that were sent and not received yet, and, as they were sent, the messages that the
receiver has not returned yet. -/
structure Way (F : Type u) where
  bytes : List UInt8
  sent : List (FixMessage F)

/-- The way behind some more messages. -/
def Way.posted (w : Way F) (ms : List (FixMessage F)) : Way F := ⟨w.bytes ++ ms.flatMap FixMessage.bytes, w.sent ++ ms⟩

theorem Way.posted_nil (w : Way F) : w.posted [] = w := by
  rw [posted, List.flatMap_nil, List.append_nil, List.append_nil]

/-! ## One call -/

namespace Session

/-- **The bytes of a send** are those that go out with it. -/
theorem send_bytes {s : Session F} (h : s.Transmits) {msg : FixMessage F} {flags : U64}
    (printed : flags &&& preserveBuffer = 0) (fits : (s.fixSessionSend msg flags).2.Fits) :
    (s.fixSessionSend msg flags).1.wire = (s.fixSessionSend msg flags).2.bytes :=
  (send_wire h printed fits).trans (FixMessage.bytes_on_wire fits).symm

/-- A call has returned a message that passes a test. -/
def Ret.any (p : FixMessage F → Bool) : Ret F → Bool
  | .message m => p m
  | _ => false

omit [Doubles F] in
theorem Ret.any_iff {p : FixMessage F → Bool} {ret : Ret F} : ret.any p = true ↔ ∃ m, ret = .message m ∧ p m = true := by
  cases ret with
  | message m => exact ⟨fun passes => ⟨m, rfl, passes⟩, fun ⟨_, same, passes⟩ => by cases same; exact passes⟩
  | nothing | failed | fault => exact ⟨fun no => (by cases no), fun ⟨_, same, _⟩ => (by cases same)⟩

/-- `fix_session_recv` where the first `n` of the bytes in flight have come: what it returns, the session, and what is in
flight then. -/
def hear (s : Session F) (bytes : List UInt8) (n : Nat) : Ret F × Session F × List UInt8 :=
  let r := s.fixSessionRecv (if bytes.take n = [] then [] else [bytes.take n]) 0
  (r.1, r.2.1, r.2.2.flatten ++ bytes.drop n)

/-- A call of `fix_session_recv`, and of `fix_session_admin` with the message that it returns: the session, what is in
flight to it, and what it sent. -/
def take (s : Session F) (w : Way F) (n : Nat) : Session F × Way F × List (FixMessage F) :=
  let r := s.hear w.bytes n
  match r.1 with
  | .message m => ((r.2.1.respond m).1, ⟨r.2.2, w.sent.tail⟩, (r.2.1.respond m).2)
  | _ => (r.2.1, ⟨r.2.2, w.sent⟩, [])

/-- A session of a version and the way to it: the bytes it has not parsed and those in flight are the messages that it has
not returned. -/
structure Attends (v : Version) (s : Session F) (w : Way F) : Prop where
  headed : s.Headed v
  receives : s.Receives
  bytes : rowText (w.sent.map FixMessage.onWire) = s.rxBuffer.unread ++ w.bytes
  fair : ∀ m ∈ w.sent, m.Fair v

/-- A session that has received and parsed, and returned nothing. -/
def parsedTo (s : Session F) (b : Buffer) (reason : FailureReason) : Session F :=
  { s with rxBuffer := b, failureReason := reason }

variable {s t : Session F} {w : Way F} {m r : FixMessage F}

theorem Attends.sendable (h : s.Attends v w) : ∀ t ∈ w.sent.map FixMessage.onWire, Sendable F v.dialect t := by
  intro t ht
  obtain ⟨m, hm, rfl⟩ := List.mem_map.1 ht
  exact on_wire_sendable (dialect_common v) (h.fair m hm).conveyable

/-- A call that returns no message leaves all but the buffer and the reason. -/
theorem recv_quiet {s' : Session F} {sock sock' : Socket} {flags : U64} {ret : Ret F}
    (none : ∀ m, ret ≠ .message m) (call : s.fixSessionRecv sock flags = (ret, s', sock')) :
    ∃ b reason, s' = s.parsedTo b reason := by
  have again {b : Buffer} {t : Session F} (call : s.parseAgain b flags = (ret, t)) : ∃ b reason, t = s.parsedTo b reason := by
    rw [parseAgain] at call
    split at call
    · obtain ⟨returned, -⟩ := Prod.mk.inj call
      exact absurd returned.symm (none _)
    · obtain ⟨-, rfl⟩ := Prod.mk.inj call
      exact ⟨_, _, rfl⟩
    · obtain ⟨-, rfl⟩ := Prod.mk.inj call
      exact ⟨s.rxBuffer, s.failureReason, rfl⟩
  rw [fixSessionRecv] at call
  split at call
  · obtain ⟨returned, -⟩ := Prod.mk.inj call
    exact absurd returned.symm (none _)
  · obtain ⟨-, rest⟩ := Prod.mk.inj call
    exact ⟨s.rxBuffer, s.failureReason, (Prod.mk.inj rest).1.symm⟩
  · simp only at call
    split at call
    · split at call
      · obtain ⟨-, rest⟩ := Prod.mk.inj call
        exact ⟨_, _, (Prod.mk.inj rest).1.symm⟩
      · obtain ⟨-, rest⟩ := Prod.mk.inj call
        exact ⟨_, _, (Prod.mk.inj rest).1.symm⟩
      · obtain ⟨ret, rest⟩ := Prod.mk.inj call
        obtain ⟨b, reason, same⟩ := again (Prod.ext ret rfl)
        exact ⟨b, reason, (Prod.mk.inj rest).1.symm.trans same⟩
    · obtain ⟨ret, rest⟩ := Prod.mk.inj call
      obtain ⟨b, reason, same⟩ := again (Prod.ext ret rfl)
      exact ⟨b, reason, (Prod.mk.inj rest).1.symm.trans same⟩

/-- What `fix_session_recv` makes of a way: it returns the first message that is on it, as it is heard, or none. -/
inductive Hears (v : Version) (s : Session F) (w : Way F) : Ret F × Session F × List UInt8 → Prop
  | message {m r : FixMessage F} {ms : List (FixMessage F)} {b : Buffer} {bytes : List UInt8} (first : w.sent = m :: ms)
    (heard : m.Heard v.dialect r) (attends : (s.parsedTo b .success).Attends v ⟨bytes, ms⟩) :
    Hears v s w (.message r, (s.parsedTo b .success).received r, bytes)
  | nothing {ret : Ret F} {b : Buffer} {reason : FailureReason} {bytes : List UInt8} (none : ∀ r, ret ≠ .message r)
    (attends : (s.parsedTo b reason).Attends v ⟨bytes, w.sent⟩) : Hears v s w (ret, s.parsedTo b reason, bytes)

/-- **One call**: the bytes of the next message are taken from the front, once they have all come. -/
theorem hear_hears (h : s.Attends v w) (n : Nat) : Hears v s w (s.hear w.bytes n) := by
  generalize came : (if w.bytes.take n = [] then [] else [w.bytes.take n]) = sock
  have flatten : sock.flatten = w.bytes.take n := by
    rw [← came]
    split
    · next none => rw [none, List.flatten_nil]
    · exact List.append_nil _
  have opened : ∀ x ∈ sock, x ≠ [] := by
    rw [← came]
    split
    · exact List.forall_mem_nil _
    · next some => exact List.forall_mem_singleton.2 some
  have awaits : s.Awaits v.dialect sock (w.bytes.drop n) (w.sent.map FixMessage.onWire) := by
    refine ⟨h.receives, h.headed.dialect, opened, ?_⟩
    rw [flatten, List.take_append_drop]
    exact h.bytes
  have receipt := recv_receipt flags_zero h.sendable awaits
  have hears : s.hear w.bytes n = ((s.fixSessionRecv sock 0).1, (s.fixSessionRecv sock 0).2.1,
      (s.fixSessionRecv sock 0).2.2.flatten ++ w.bytes.drop n) := by rw [hear, came]
  have headed (b : Buffer) (reason : FailureReason) : (s.parsedTo b reason).Headed v :=
    ⟨h.headed.dialect, h.headed.beginString, h.headed.senderCompId, h.headed.targetCompId, h.headed.strNow⟩
  generalize call : s.fixSessionRecv sock 0 = result at receipt hears
  -- a call without a message
  have quiet {ret : Ret F} {s' : Session F} {sock' : Socket} (same : result = (ret, s', sock')) (none : ∀ m, ret ≠ .message m)
      (awaits : s'.Awaits v.dialect sock' (w.bytes.drop n) (w.sent.map FixMessage.onWire)) :
      Hears v s w (s.hear w.bytes n) := by
    subst same
    obtain ⟨b, reason, rfl⟩ := recv_quiet none call
    rw [hears]
    exact .nothing none ⟨headed b reason, awaits.receives, awaits.bytes, h.fair⟩
  cases receipt with
  | nothing awaits' received => exact quiet rfl (fun m is => by cases is) awaits'
  | failed awaits' none => exact quiet rfl (fun m is => by cases is) awaits'
  | @message t ts' r s' sock' first arrived awaits' received =>
    cases there : w.sent with
    | nil =>
      rw [there] at first
      cases first
    | cons m ms =>
      rw [there] at first
      obtain ⟨rfl, rfl⟩ := List.cons.inj first
      have fair := h.fair
      rw [there] at fair
      have heard := FixMessage.heard_of_arrived (dialect_common v) (fair m List.mem_cons_self).conveyable arrived
      obtain ⟨b, rfl⟩ := recv_received (by decide) call
      have receives : (s.parsedTo b .success).Receives := ⟨awaits'.receives.valid, awaits'.receives.size⟩
      rw [hears]
      exact .message there heard ⟨headed b .success, receives, awaits'.bytes, fun m' hm => fair m' (List.mem_cons_of_mem _ hm)⟩

/-- What handling a message leaves to receive is what was left. -/
theorem Attends.same (h : s.Attends v w) (same : s.Same t) : t.Attends v w where
  headed := h.headed.same same
  receives := ⟨same.rxBuffer ▸ h.receives.valid, same.rxBuffer ▸ h.receives.size⟩
  bytes := by
    rw [same.rxBuffer]
    exact h.bytes
  fair := h.fair

/-- What a call, and the handling of the message that it returns, make of a way. -/
inductive Takes (v : Version) (s : Session F) (w : Way F) (n : Nat) : Session F × Way F × List (FixMessage F) → Prop
  | message {m r : FixMessage F} {ms : List (FixMessage F)} {b : Buffer} {bytes : List UInt8} (first : w.sent = m :: ms)
    (returned : (s.hear w.bytes n).1 = .message r) (heard : m.Heard v.dialect r)
    (attends : ((s.parsedTo b .success).handle r).1.Attends v ⟨bytes, ms⟩) :
    Takes v s w n (((s.parsedTo b .success).handle r).1, ⟨bytes, ms⟩, ((s.parsedTo b .success).handle r).2)
  | nothing {b : Buffer} {reason : FailureReason} {bytes : List UInt8} (none : ∀ r, (s.hear w.bytes n).1 ≠ .message r)
    (attends : (s.parsedTo b reason).Attends v ⟨bytes, w.sent⟩) :
    Takes v s w n (s.parsedTo b reason, ⟨bytes, w.sent⟩, [])

/-- A call that returns no message. -/
theorem take_nothing {n : Nat} (none : ∀ r, (s.hear w.bytes n).1 ≠ .message r) :
    s.take w n = ((s.hear w.bytes n).2.1, ⟨(s.hear w.bytes n).2.2, w.sent⟩, []) := by
  rw [take]
  cases ret : (s.hear w.bytes n).1 with
  | message m => exact absurd ret (none m)
  | nothing | failed | fault => rfl

theorem take_takes (h : s.Attends v w) (n : Nat) : Takes v s w n (s.take w n) := by
  have hears := hear_hears h n
  generalize call : s.hear w.bytes n = result at hears
  cases hears with
  | @message m r ms b bytes first heard attends =>
    have taken : s.take w n = (((s.parsedTo b .success).handle r).1, ⟨bytes, ms⟩, ((s.parsedTo b .success).handle r).2) := by
      rw [take, call, first]
      rfl
    rw [taken]
    exact .message first (by rw [call]) heard (attends.same (handle_same (s.parsedTo b .success) r).1)
  | nothing none attends =>
    have none' : ∀ r, (s.hear w.bytes n).1 ≠ .message r := by
      rw [call]
      exact none
    rw [take_nothing none', call]
    exact .nothing none' attends

/-- What a session sends for a fair message is fair, its own numbers below 2³¹. -/
theorem handle_fair (h : s.Headed v) (small : s.outMsgSeqNum.toNat < 2 ^ 31) (fair : m.Fair v)
    (heard : m.Heard v.dialect r) : ∀ x ∈ (s.handle r).2, x.Fair v := by
  have writes := (handle_same s r).2
  have sends := handle_sends s r
  have low := fair.conveyable.number
  intro x there
  have own := writes x there
  generalize (s.handle r).2 = sent at there sends
  generalize (s.handle r).1.outMsgSeqNum = out at sends
  cases sends with
  | nothing => cases there
  | numbered reset request number =>
    cases List.mem_singleton.1 there
    exact ⟨h.conveyable own (number ▸ small), fun asks => absurd asks request⟩
  | @request r' stop high type number fields stops =>
    cases List.mem_singleton.1 there
    rw [heard.msgSeqNum, BitVec.lt_def] at high
    exact ⟨h.conveyable own (number ▸ small), fun _ => ⟨s.inMsgSeqNum + 1, stop, ⟨type, fields⟩, by omega⟩⟩
  | gapFill request expected begins ends type number fields =>
    cases List.mem_singleton.1 there
    obtain ⟨first, stop, requests, below⟩ := fair.asks (heard.type.symm.trans request)
    have same := (heard.request requests begins ends).1
    refine ⟨h.conveyable own ?_, fun asks => ?_⟩
    · rw [number, same]
      exact below
    · rw [type] at asks
      cases asks

theorem same_send (s : Session F) (m : FixMessage F) (flags : U64) : s.Same (s.fixSessionSend m flags).1 :=
  ⟨rfl, rfl, rfl, rfl, rfl, rfl⟩

/-- The bytes of more messages are behind those that were there. -/
theorem Attends.posted (h : s.Attends v w) {ms : List (FixMessage F)} (fair : ∀ m ∈ ms, m.Fair v) :
    s.Attends v (w.posted ms) where
  headed := h.headed
  receives := h.receives
  bytes := by
    have new : rowText (ms.map FixMessage.onWire) = ms.flatMap FixMessage.bytes := by
      rw [rowText, List.flatMap_map]
      exact List.flatMap_congr fun m hm => (FixMessage.bytes_on_wire (fair m hm).conveyable.fits).symm
    have all : rowText ((w.sent ++ ms).map FixMessage.onWire) =
        rowText (w.sent.map FixMessage.onWire) ++ rowText (ms.map FixMessage.onWire) := by
      rw [List.map_append]
      exact List.flatMap_append
    rw [Way.posted, all, new, h.bytes, List.append_assoc]
  fair := List.forall_mem_append.2 ⟨h.fair, fair⟩

/-- With nothing received and nothing in flight, nothing is awaited. -/
theorem attends_nothing (headed : s.Headed v) (receives : s.Receives) (unread : s.rxBuffer.unread = []) :
    s.Attends v ⟨[], []⟩ where
  headed := headed
  receives := receives
  bytes := by
    rw [unread]
    rfl
  fair := List.forall_mem_nil _

/-- Where no bytes are left, every message was returned. -/
theorem Attends.over (h : s.Attends v w) (unread : s.rxBuffer.unread = []) (none : w.bytes = []) : w.sent = [] := by
  have bytes := h.bytes
  rw [unread, none] at bytes
  rcases row_cases (w := []) 0 h.sendable bytes with ⟨t, ts, rest, -, text, -⟩ | ⟨-, -, ends⟩
  · have front := (List.append_eq_nil_iff.1 text.symm).1
    rw [WireMessage.text] at front
    have sum := (List.append_eq_nil_iff.1 front).2
    cases sum
  · exact List.map_eq_nil_iff.1 (ends rfl)

end Session

end

/-! ## The two of them -/

/-- Two sessions, and the ways to either. -/
structure Link (F : Type u) where
  a : Session F
  b : Session F
  toA : Way F
  toB : Way F

/-- One of them calls `fix_session_recv` with the first `n` bytes in flight to it, or sends a message of its own. -/
inductive Act (F : Type u) where
  | takeA (n : Nat)
  | takeB (n : Nat)
  | sendA (m : FixMessage F)
  | sendB (m : FixMessage F)

/-- What is sent of their own are no ResendRequests and no SequenceResets. -/
def Act.plain {F : Type u} : Act F → Bool
  | .takeA _ | .takeB _ => true
  | .sendA m | .sendB m => m.type ≠ .resendRequest && m.type ≠ .sequenceReset

namespace Link
variable {F : Type u} [Doubles F]

/-- A step of the two. -/
def step (l : Link F) : Act F → Link F
  | .takeA n =>
    let r := l.a.take l.toA n
    { l with a := r.1, toA := r.2.1, toB := l.toB.posted r.2.2 }
  | .takeB n =>
    let r := l.b.take l.toB n
    { l with b := r.1, toB := r.2.1, toA := l.toA.posted r.2.2 }
  | .sendA m =>
    let r := l.a.fixSessionSend m 0
    { l with a := r.1, toB := l.toB.posted [r.2] }
  | .sendB m =>
    let r := l.b.fixSessionSend m 0
    { l with b := r.1, toA := l.toA.posted [r.2] }

/-- Steps one after the other. -/
def run (l : Link F) (acts : List (Act F)) : Link F := acts.foldl step l

/-- Each step of a run, with the state it starts from. -/
def trace (l : Link F) : List (Act F) → List (Link F × Act F)
  | [] => []
  | x :: xs => (l, x) :: trace (l.step x) xs

/-- A message of its own can be conveyed once its session has numbered it. -/
def Conveys (l : Link F) : Act F → Prop
  | .takeA _ | .takeB _ => True
  | .sendA m => (l.a.numbered m 0).Conveyable l.a.dialect
  | .sendB m => (l.b.numbered m 0).Conveyable l.b.dialect

instance (l : Link F) : (x : Act F) → Decidable (l.Conveys x)
  | .takeA _ | .takeB _ => .isTrue trivial
  | .sendA m => inferInstanceAs (Decidable ((l.a.numbered m 0).Conveyable l.a.dialect))
  | .sendB m => inferInstanceAs (Decidable ((l.b.numbered m 0).Conveyable l.b.dialect))

/-- The next numbers of both are below 2³¹. -/
structure Small (l : Link F) : Prop where
  a : l.a.outMsgSeqNum.toNat < 2 ^ 31
  b : l.b.outMsgSeqNum.toNat < 2 ^ 31

instance (l : Link F) : Decidable l.Small :=
  decidable_of_iff (l.a.outMsgSeqNum.toNat < 2 ^ 31 ∧ l.b.outMsgSeqNum.toNat < 2 ^ 31)
    ⟨fun h => ⟨h.1, h.2⟩, fun h => ⟨h.a, h.b⟩⟩

/-- Both attend to what is on the way to them. -/
structure Wired (v : Version) (l : Link F) : Prop where
  a : l.a.Attends v l.toA
  b : l.b.Attends v l.toB

variable {v : Version} {l : Link F}

/-- A call takes the next message as it is heard, and what the session sends for it is fair. -/
theorem take_fair {s : Session F} {w : Way F} (h : s.Attends v w) (small : s.outMsgSeqNum.toNat < 2 ^ 31) (n : Nat) :
    (s.take w n).1.Attends v (s.take w n).2.1 ∧ ∀ x ∈ (s.take w n).2.2, x.Fair v := by
  have takes := Session.take_takes h n
  generalize s.take w n = taken at takes
  cases takes with
  | @message m r ms b bytes first returned heard attends =>
    have headed : (s.parsedTo b .success).Headed v :=
      ⟨h.headed.dialect, h.headed.beginString, h.headed.senderCompId, h.headed.targetCompId, h.headed.strNow⟩
    have fair : m.Fair v := h.fair m (first ▸ List.mem_cons_self)
    exact ⟨attends, Session.handle_fair headed small fair heard⟩
  | nothing none attends => exact ⟨attends, List.forall_mem_nil _⟩

/-- **A step** keeps both at what is on the way to them. -/
theorem Wired.step (h : l.Wired v) (small : l.Small) {x : Act F} (plain : x.plain = true) (conveys : l.Conveys x) :
    (l.step x).Wired v := by
  cases x with
  | takeA n =>
    obtain ⟨attends, fair⟩ := take_fair h.a small.a n
    exact ⟨attends, h.b.posted fair⟩
  | takeB n =>
    obtain ⟨attends, fair⟩ := take_fair h.b small.b n
    exact ⟨h.a.posted fair, attends⟩
  | sendA m =>
    rw [Act.plain, Bool.and_eq_true] at plain
    have conveyable : (l.a.fixSessionSend m 0).2.Conveyable v.dialect := h.a.headed.dialect ▸ conveys
    exact ⟨h.a.same (Session.same_send l.a m 0), h.b.posted (List.forall_mem_singleton.2
      ⟨conveyable, fun request => absurd request (of_decide_eq_true plain.1)⟩)⟩
  | sendB m =>
    rw [Act.plain, Bool.and_eq_true] at plain
    have conveyable : (l.b.fixSessionSend m 0).2.Conveyable v.dialect := h.b.headed.dialect ▸ conveys
    exact ⟨h.a.posted (List.forall_mem_singleton.2
      ⟨conveyable, fun request => absurd request (of_decide_eq_true plain.1)⟩), h.b.same (Session.same_send l.b m 0)⟩

end Link

end Libtrading.Fix
