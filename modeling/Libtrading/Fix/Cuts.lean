import Libtrading.Fix.Decided
import Libtrading.Stream.Resumable

/-!
# However the bytes are cut

The parses of a run of calls, as a reader of the stream that comes in. Calls whose parses decide nothing that more
bytes would change return the messages of the stream, whatever the pieces were that it came in.
-/

namespace Libtrading.Fix
open Buffer Wire
set_option autoImplicit false
universe u

/-! ## The stream -/

section
variable (F : Type u) [Doubles F] (dialect : Dialect) (flags : U64)

/-- `fix_message_parse` as a reader of the unread bytes, with the sequence number that its message holds before. After
a store outside the array of fields nothing is left. -/
def parser : Stream.Reader (U64 × List UInt8) UInt8 (Bytes.Report F) where
  feed c x := (c.1, c.2 ++ x)
  call c :=
    match Bytes.parse dialect flags c.1 c.2 with
    | .message m _ r => (some m, (m.rest.msgSeqNum, r))
    | .waits w => (none, (c.1, w))
    | .fault => (none, (c.1, []))

variable {F dialect flags}

theorem parser_stable {c : U64 × List UInt8} (h : Bytes.Decided F dialect flags c.2)
    (sound : (Bytes.parse dialect flags c.1 c.2 : Bytes.Parsed F) ≠ .fault) :
    (parser F dialect flags).StableAt c where
  emit {o c'} called x := by
    simp only [parser] at called ⊢
    obtain ⟨message, -⟩ := h.parse (q := c.1) x
    cases hp : (Bytes.parse dialect flags c.1 c.2 : Bytes.Parsed F) with
    | message m left r =>
      rw [hp] at called
      rw [message m left r hp]
      cases called
      rfl
    | waits w => rw [hp] at called; cases called
    | fault => rw [hp] at called; cases called
  wait {c'} called x := by
    simp only [parser] at called ⊢
    obtain ⟨-, waits⟩ := h.parse (q := c.1) x
    cases hp : (Bytes.parse dialect flags c.1 c.2 : Bytes.Parsed F) with
    | message m left r => rw [hp] at called; cases called
    | waits w =>
      rw [hp] at called
      cases called
      rw [waits w hp]
    | fault => exact absurd hp sound

/-! ### A parse of a buffer -/

variable {b c : Buffer} {self m : FixMessage F} {start : Nat}

theorem call_message (hv : b.Valid) (h : fixMessageParse dialect flags self b = .message m start c) :
    (parser F dialect flags).call (self.msgSeqNum, b.unread) = (some m.report, (m.msgSeqNum, c.unread)) ∧
      (Bytes.parse dialect flags self.msgSeqNum b.unread : Bytes.Parsed F) ≠ .fault := by
  have agrees := parse_agrees dialect flags hv self
  rw [h] at agrees
  simp only [parser]
  generalize Bytes.parse (F := F) dialect flags self.msgSeqNum b.unread = p at agrees
  cases agrees with
  | message _ _ rest =>
    rw [(unread_leaving hv rest).2]
    refine ⟨rfl, fun fault => ?_⟩
    cases fault

theorem call_waits (hv : b.Valid) (h : fixMessageParse dialect flags self b = .waits c) :
    (parser F dialect flags).call (self.msgSeqNum, b.unread) = (none, (self.msgSeqNum, c.unread)) ∧
      (Bytes.parse dialect flags self.msgSeqNum b.unread : Bytes.Parsed F) ≠ .fault := by
  have agrees := parse_agrees dialect flags hv self
  rw [h] at agrees
  simp only [parser]
  generalize Bytes.parse (F := F) dialect flags self.msgSeqNum b.unread = p at agrees
  cases agrees with
  | waits rest =>
    rw [(unread_leaving hv rest).2]
    refine ⟨rfl, fun fault => ?_⟩
    cases fault

variable {later : List UInt8} {os : List (Bytes.Report F)} {e : U64 × List UInt8}

/-- A message that is parsed from some of the bytes is the first one of all. -/
theorem drains_message (hv : b.Valid) (decided : Bytes.Decided F dialect flags b.unread)
    (h : fixMessageParse dialect flags self b = .message m start c)
    (rest : (parser F dialect flags).Drains (m.msgSeqNum, c.unread ++ later) os e) :
    (parser F dialect flags).Drains (self.msgSeqNum, b.unread ++ later) (m.report :: os) e := by
  obtain ⟨call, sound⟩ := call_message hv h
  have stable : (parser F dialect flags).StableAt (self.msgSeqNum, b.unread) := parser_stable decided sound
  exact .emit (stable.emit call later) rest

/-- What a parse of some of the bytes discards does not matter. -/
theorem drains_waits (hv : b.Valid) (decided : Bytes.Decided F dialect flags b.unread)
    (h : fixMessageParse dialect flags self b = .waits c)
    (rest : (parser F dialect flags).Drains (self.msgSeqNum, c.unread ++ later) os e) :
    (parser F dialect flags).Drains (self.msgSeqNum, b.unread ++ later) os e := by
  obtain ⟨call, sound⟩ := call_waits hv h
  have stable : (parser F dialect flags).StableAt (self.msgSeqNum, b.unread) := parser_stable decided sound
  exact rest.congr (stable.wait call later).symm

end

/-! ## Calls of `fix_session_recv` -/

namespace Session
variable {F : Type u} [Doubles F] {flags : U64}

/-- What the next parse of a session goes on from, with bytes that are still to come. -/
def goesOn (s : Session F) (later : List UInt8) : U64 × List UInt8 :=
  (s.rxMessage.msgSeqNum, s.rxBuffer.unread ++ later)

/-- What a return reports. -/
def reports (rets : List (Ret F)) : List (Bytes.Report F) := (messages rets).map FixMessage.report

/-- The unread bytes that the parses of a call are given. -/
def parsedBytes (s : Session F) (sock : Socket) (flags : U64) : List (List UInt8) :=
  s.rxBuffer.unread ::
    match fixMessageParse s.dialect flags s.rxMessage s.rxBuffer with
    | .waits b => [b.unread ++ heard b sock]
    | _ => []

/-- Those of `n` calls. -/
def parsedRun (flags : U64) : Nat → Session F → Socket → List (List UInt8)
  | 0, _, _ => []
  | n + 1, s, sock =>
    let r := s.fixSessionRecv sock flags
    s.parsedBytes sock flags ++ parsedRun flags n r.2.1 r.2.2

theorem io_recv_flatten (sock : Socket) (count : Nat) :
    sock.flatten = (ioRecv sock count).1.getD [] ++ (ioRecv sock count).2.flatten := by
  cases sock with
  | nil => rfl
  | cons x xs =>
    rw [ioRecv]
    split
    · rfl
    · simp only [Option.getD_some, List.flatten_cons, ← List.append_assoc, List.take_append_drop]

theorem again_drains {s : Session F} {b : Buffer} (hv : b.Valid) (decided : Bytes.Decided F s.dialect flags b.unread)
    (sound : (s.parseAgain b flags).1 ≠ .fault) {later : List UInt8} {os : List (Bytes.Report F)}
    {e : U64 × List UInt8}
    (rest : (parser F s.dialect flags).Drains ((s.parseAgain b flags).2.goesOn later) os e) :
    (parser F s.dialect flags).Drains (s.rxMessage.msgSeqNum, b.unread ++ later)
      (reports [(s.parseAgain b flags).1] ++ os) e := by
  rw [parseAgain] at sound rest ⊢
  cases hp : fixMessageParse s.dialect flags s.rxMessage b with
  | message m start c =>
    rw [hp] at rest
    exact drains_message hv decided hp rest
  | waits c =>
    rw [hp] at rest
    exact drains_waits hv decided hp rest
  | fault =>
    rw [hp] at sound
    exact absurd rfl sound

/-- **One call** returns the first message of the bytes that are there and those to come, or none, and goes on with
what is behind it. -/
theorem call_drains {s : Session F} (h : s.Receives) {sock : Socket}
    (sound : (s.fixSessionRecv sock flags).1 ≠ .fault)
    (decided : ∀ u ∈ s.parsedBytes sock flags, Bytes.Decided F s.dialect flags u) {os : List (Bytes.Report F)}
    {e : U64 × List UInt8}
    (rest : (parser F s.dialect flags).Drains
      ((s.fixSessionRecv sock flags).2.1.goesOn (s.fixSessionRecv sock flags).2.2.flatten) os e) :
    (parser F s.dialect flags).Drains (s.goesOn sock.flatten) (reports [(s.fixSessionRecv sock flags).1] ++ os) e := by
  have first := decided _ List.mem_cons_self
  cases hp : fixMessageParse s.dialect flags s.rxMessage s.rxBuffer with
  | message m start c =>
    rw [fixSessionRecv, hp] at rest ⊢
    exact drains_message h.valid first hp rest
  | fault =>
    rw [fixSessionRecv, hp] at sound
    exact absurd rfl sound
  | waits c =>
    obtain ⟨hvc, data, -, -⟩ := parse_waits h.valid hp
    have size : c.data.length = recvBufferSize := by rw [data, h.size]
    have second : Bytes.Decided F s.dialect flags (c.unread ++ heard c sock) := by
      refine decided _ ?_
      rw [parsedBytes, hp]
      exact List.mem_cons_of_mem _ List.mem_cons_self
    obtain ⟨hv₂, -, unread₂⟩ := heard_unread hvc size sock
    obtain ⟨hvc', -, unreadc, -⟩ := compacted_room hvc size
    refine drains_waits h.valid first hp ?_
    rw [fixSessionRecv, hp] at sound rest ⊢
    by_cases room : fixMaxMessageSize < (compacted c).bufferRemaining
    · have bytes := io_recv_flatten sock ((compacted c).bufferRemaining - fixMaxMessageSize)
      rw [heard, if_pos room] at second hv₂ unread₂
      simp only [if_pos room] at sound rest ⊢
      cases hr : ioRecv sock ((compacted c).bufferRemaining - fixMaxMessageSize) with
      | mk x sock' =>
        rw [hr] at sound rest bytes second hv₂ unread₂
        rw [bytes]
        cases x with
        | none =>
          simp only [Session.goesOn, unreadc] at rest
          exact rest
        | some x =>
          cases x with
          | nil =>
            simp only [Session.goesOn, unreadc] at rest
            exact rest
          | cons y x =>
            simp only [Option.getD_some] at second hv₂ unread₂ ⊢
            rw [← unread₂] at second
            rw [← List.append_assoc, ← unread₂]
            exact again_drains hv₂ second sound rest
    · rw [heard, if_neg room, List.append_nil, ← unreadc] at second
      simp only [if_neg room] at sound rest ⊢
      rw [← unreadc]
      exact again_drains hvc' second sound rest

theorem again_dialect (flags : U64) (s : Session F) (b : Buffer) : (s.parseAgain b flags).2.dialect = s.dialect := by
  rw [parseAgain]
  split <;> rfl

theorem recv_dialect (flags : U64) (s : Session F) (sock : Socket) :
    (s.fixSessionRecv sock flags).2.1.dialect = s.dialect := by
  rw [fixSessionRecv]
  split
  · rfl
  · rfl
  · simp only
    split
    · split
      · rfl
      · rfl
      · exact again_dialect ..
    · exact again_dialect ..

/-- **A run of calls** returns the messages of the stream, by induction on the calls. -/
theorem run_drains {n : Nat} {s : Session F} (h : s.Receives) {sock : Socket}
    (sound : ∀ r ∈ (recvRun flags n s sock).1, r ≠ .fault)
    (decided : ∀ u ∈ parsedRun flags n s sock, Bytes.Decided F s.dialect flags u) {os : List (Bytes.Report F)}
    {e : U64 × List UInt8}
    (rest : (parser F s.dialect flags).Drains
      ((recvRun flags n s sock).2.1.goesOn (recvRun flags n s sock).2.2.flatten) os e) :
    (parser F s.dialect flags).Drains (s.goesOn sock.flatten) (reports (recvRun flags n s sock).1 ++ os) e := by
  induction n generalizing s sock with
  | zero => exact rest
  | succ n ih =>
    have dialect := recv_dialect flags s sock
    have receives : (s.fixSessionRecv sock flags).2.1.Receives := call_receives (c := ⟨s, sock, flags⟩) h
    rw [recvRun] at sound rest ⊢
    rw [parsedRun] at decided
    simp only at sound decided rest ⊢
    have later := ih receives (fun r hr => sound r (List.mem_cons_of_mem _ hr))
      (fun u hu => by rw [dialect]; exact decided u (List.mem_append_right _ hu)) (by rw [dialect]; exact rest)
    rw [dialect] at later
    have here := call_drains h (sound _ List.mem_cons_self) (fun u hu => decided u (List.mem_append_left _ hu)) later
    rw [← List.append_assoc] at here
    have split (r : Ret F) (rs : List (Ret F)) : reports (r :: rs) = reports [r] ++ reports rs := by
      rw [reports, reports, reports, messages, messages, messages, ← List.map_append, ← List.filterMap_append]
      rfl
    rw [split]
    exact here

/-- A run has received all that was sent, and has no message left to return. -/
structure Delivered (flags : U64) (n : Nat) (s : Session F) (sock : Socket) : Prop where
  sound : ∀ r ∈ (recvRun flags n s sock).1, r ≠ .fault
  received : (recvRun flags n s sock).2.2.flatten = []
  waits : ∃ b, fixMessageParse s.dialect flags (recvRun flags n s sock).2.1.rxMessage
    (recvRun flags n s sock).2.1.rxBuffer = .waits b

theorem run_receives_all (flags : U64) (n : Nat) {s : Session F} (h : s.Receives) (sock : Socket) :
    (recvRun flags n s sock).2.1.Receives := by
  induction n generalizing s sock with
  | zero => exact h
  | succ n ih => exact ih (call_receives (c := ⟨s, sock, flags⟩) h) _

theorem Delivered.drains {n : Nat} {s : Session F} (h : s.Receives) {sock : Socket}
    (delivered : Delivered flags n s sock)
    (decided : ∀ u ∈ parsedRun flags n s sock, Bytes.Decided F s.dialect flags u) :
    ∃ e, (parser F s.dialect flags).Drains (s.goesOn sock.flatten) (reports (recvRun flags n s sock).1) e := by
  obtain ⟨sound, received, b, waits⟩ := delivered
  have valid := (run_receives_all flags n h sock).valid
  obtain ⟨call, -⟩ := call_waits valid waits
  have last : (parser F s.dialect flags).Drains
      ((recvRun flags n s sock).2.1.goesOn (recvRun flags n s sock).2.2.flatten) []
      ((recvRun flags n s sock).2.1.rxMessage.msgSeqNum, b.unread) := by
    rw [received, Session.goesOn, List.append_nil]
    exact .wait call
  have rest := run_drains h sound decided last
  rw [List.append_nil] at rest
  exact ⟨_, rest⟩

/-- **Receiving does not depend on the pieces.** Two runs of calls from the same state of a session, on sockets that
deliver the same bytes in whatever pieces, return the same messages, once each of them has received all and returned
all, if no parse in them skips a field before it is whole or takes the end of the bytes for the end of a message. -/
theorem received_however_cut {s : Session F} (h : s.Receives) {sock sock' : Socket}
    (bytes : sock.flatten = sock'.flatten) {n n' : Nat} (all : Delivered flags n s sock)
    (all' : Delivered flags n' s sock')
    (decided : ∀ u ∈ parsedRun flags n s sock, Bytes.Decided F s.dialect flags u)
    (decided' : ∀ u ∈ parsedRun flags n' s sock', Bytes.Decided F s.dialect flags u) :
    reports (recvRun flags n s sock).1 = reports (recvRun flags n' s sock').1 := by
  obtain ⟨e, whole⟩ := all.drains h decided
  obtain ⟨e', whole'⟩ := all'.drains h decided'
  rw [bytes] at whole
  exact (whole.det whole').1

/-- A Heartbeat. -/
def heartbeatBytes : List UInt8 := (sohBuffer "8=FIX.4.4|9=5|35=0|10=163|").unread

/-- A new session. -/
def newSession : Session (List UInt8) := fixSessionNew anyCfg []

theorem new_session_receives : newSession.Receives := new_receives ..

/-- A run that has returned no fault and left nothing in the buffer and on the socket. -/
theorem delivered_of_empty {n : Nat} {sock : Socket}
    (sound : (recvRun 0 n newSession sock).1.all (fun r => match r with | .fault => false | _ => true) = true)
    (received : (recvRun 0 n newSession sock).2.2.flatten = [])
    (unread : (recvRun 0 n newSession sock).2.1.rxBuffer.unread = []) : Delivered 0 n newSession sock where
  sound r hr fault := by
    have one := List.all_eq_true.1 sound r hr
    rw [fault] at one
    cases one
  received := received
  waits := by
    have valid := (run_receives_all 0 n new_session_receives sock).valid
    exact ⟨_, waits_of_comes _ valid ⟨unread ▸ .refl, .nil⟩⟩

/-- The hypotheses are met by a Heartbeat that comes in one piece and in two. -/
theorem heartbeat_however_cut :
    reports (recvRun 0 1 newSession [heartbeatBytes]).1 =
      reports (recvRun 0 2 newSession [heartbeatBytes.take 12, heartbeatBytes.drop 12]).1 := by
  have none : Bytes.Decided (List UInt8) anyCfg.dialect 0 [] := .incomplete rfl .nil
  have front : Bytes.Decided (List UInt8) anyCfg.dialect 0 (heartbeatBytes.take 12) :=
    .incomplete (by decide +kernel) ⟨[], by decide +kernel⟩
  have whole : Bytes.Decided (List UInt8) anyCfg.dialect 0 heartbeatBytes :=
    .accepted (by decide +kernel) (m := ⟨.heartbeat, 5, ⟨0, []⟩⟩) (r := []) (by decide +kernel)
  refine received_however_cut new_session_receives (by decide +kernel)
    (delivered_of_empty (by decide +kernel) (by decide +kernel) (by decide +kernel))
    (delivered_of_empty (by decide +kernel) (by decide +kernel) (by decide +kernel)) ?_ ?_
  · have sites : parsedRun 0 1 newSession [heartbeatBytes] = [[], heartbeatBytes] := by decide +kernel
    rw [sites]
    intro u hu
    rcases List.mem_cons.1 hu with rfl | hu
    · exact none
    · rw [List.mem_singleton.1 hu]
      exact whole
  · have sites : parsedRun 0 2 newSession [heartbeatBytes.take 12, heartbeatBytes.drop 12] =
        [[], heartbeatBytes.take 12, heartbeatBytes.take 12, heartbeatBytes] := by decide +kernel
    rw [sites]
    intro u hu
    rcases List.mem_cons.1 hu with rfl | hu
    · exact none
    rcases List.mem_cons.1 hu with rfl | hu
    · exact front
    rcases List.mem_cons.1 hu with rfl | hu
    · exact front
    · rw [List.mem_singleton.1 hu]
      exact whole

/-- **A cut loses a message.** A field in front of a Heartbeat is cut before its SOH: what there is of it is thrown
away, and the SOH and the BeginString of the Heartbeat are taken for the next field. -/
theorem cut_loses_message :
    ∃ sock sock' : Socket, sock.flatten = sock'.flatten ∧
      Delivered 0 1 newSession sock ∧ Delivered 0 2 newSession sock' ∧
      reports (recvRun 0 1 newSession sock).1 ≠ reports (recvRun 0 2 newSession sock').1 :=
  ⟨[chars "58=A" ++ 1 :: heartbeatBytes], [chars "58=A", 1 :: heartbeatBytes], by decide +kernel,
    delivered_of_empty (by decide +kernel) (by decide +kernel) (by decide +kernel),
    delivered_of_empty (by decide +kernel) (by decide +kernel) (by decide +kernel), by decide +kernel⟩

end Session

end Libtrading.Fix
