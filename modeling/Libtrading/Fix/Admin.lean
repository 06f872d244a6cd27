import Libtrading.Fix.Session

/-!
# `fix_session_admin`

What the tools do with a received message before the application sees it:
the sequence number is compared, test requests and resend requests are
answered, sequence resets are followed. `fix_session_recv` has counted the
message already, so a message that is not consumed is taken off the counter
again. Too low a number ends the session with a Logout, and
`fix_session_logout` goes on receiving until its grace period is over, each
message handed to `fix_session_admin` again; time is an input, as the turns
of that loop.
-/

namespace Libtrading.Fix
set_option autoImplicit false
universe u

/-- The outcome of a turn of the loop in `fix_session_logout`: the clock says that the grace period is
over, or `fix_session_recv` returns no message, or one. -/
inductive Turn (F : Type u) where
  | elapsed
  | nothing
  | message (m : FixMessage F)

/-- What `fix_session_admin` does before it returns or calls `fix_session_logout`: what it returns, what it
has sent, and the text of the Logout if it comes to one. -/
structure AdminStep (F : Type u) where
  handled : Bool
  session : Session F
  sent : List (FixMessage F)
  logout : Option (List UInt8)

/-- A message as `fix_session_admin` has taken it: the counter before it was received and after it was
handled, and what was returned for it. -/
structure Event (F : Type u) where
  before : U64
  message : FixMessage F
  handled : Bool
  after : U64

/-- A call with the Logouts that it comes to: the messages sent and taken meanwhile, and the turns left. -/
structure AdminRun (F : Type u) where
  handled : Bool
  session : Session F
  sent : List (FixMessage F)
  events : List (Event F)
  turns : List (Turn F)

/-- "MsgSeqNum too low, expecting %lu received %lu". -/
def tooLowText (expected received : U64) : List UInt8 :=
  cstr (chars "MsgSeqNum too low, expecting " ++ Wire.decimal expected.toNat ++ chars " received " ++
    Wire.decimal received.toNat)

/-- "Attempt to lower sequence number, invalid value NewSeqNum = %lu". -/
def lowerText (n : U64) : List UInt8 :=
  cstr (chars "Attempt to lower sequence number, invalid value NewSeqNum = " ++ Wire.decimal n.toNat)

/-- "Value is incorrect (too low) %lu". -/
def valueText (n : U64) : List UInt8 := cstr (chars "Value is incorrect (too low) " ++ Wire.decimal n.toNat)

namespace FixMessage
variable {F : Type u}

/-- Whether the message has a GapFillFlag that starts with `Y`. -/
def gapFill (m : FixMessage F) : Bool :=
  match m.fixGetField Tag.gapFillFlag with
  | some f => f.stringValue.headD 0 == 'Y'.toNat.toUInt8
  | none => false

/-- Whether the message has a PossDupFlag; its value is not looked at. -/
def possDup (m : FixMessage F) : Bool := (m.fixGetField Tag.possDupFlag).isSome

end FixMessage

namespace Session
variable {F : Type u} [Doubles F]

/-! ## Messages the session sends -/

/-- `fix_session_heartbeat`. -/
def fixSessionHeartbeat (s : Session F) (testReqId : Option (List UInt8)) : Session F × FixMessage F :=
  s.fixSessionSend (.init .heartbeat (testReqId.toList.map (.ofString Tag.testReqId))) 0

/-- `fix_session_resend_request`. -/
def fixSessionResendRequest (s : Session F) (bgn stop : U64) : Session F × FixMessage F :=
  s.fixSessionSend (.init .resendRequest [.ofInt Tag.beginSeqNo bgn, .ofInt Tag.endSeqNo stop]) 0

/-- `fix_session_reject` with a text. -/
def fixSessionReject (s : Session F) (refSeqNum : U64) (text : List UInt8) : Session F × FixMessage F :=
  s.fixSessionSend (.init .reject [.ofInt Tag.refSeqNum refSeqNum, .ofString Tag.text text]) 0

/-- `fix_session_sequence_reset`. -/
def fixSessionSequenceReset (s : Session F) (msgSeqNum newSeqNum : U64) (gapFill : Bool) : Session F × FixMessage F :=
  s.fixSessionSend
    { FixMessage.init .sequenceReset
        (.ofInt Tag.newSeqNo newSeqNum :: if gapFill then [.ofString Tag.gapFillFlag (cstr (chars "Y"))] else []) with
      msgSeqNum := msgSeqNum } preserveMsgNum

/-- The beginning of `fix_session_logout` with a text: the Logout, after which the session is not active. -/
def sendLogout (s : Session F) (text : List UInt8) : Session F × FixMessage F :=
  let r := s.fixSessionSend (.init .logout [.ofString Tag.text text]) 0
  ({ r.1 with active := false }, r.2)

/-! ## The switch -/

/-- `fix_msg_expected`. -/
def fixMsgExpected (s : Session F) (m : FixMessage F) : Bool :=
  m.msgSeqNum == s.inMsgSeqNum || m.fixMessageTypeIs .sequenceReset

/-- The message is not consumed: the counter goes back to where it was before it. -/
def takenBack (s : Session F) : Session F := { s with inMsgSeqNum := s.inMsgSeqNum - 1 }

/-- The step is over, nothing sent. -/
def adminDone (s : Session F) (handled : Bool) : AdminStep F := ⟨handled, s, [], none⟩

/-- A ResendRequest up to `stop`, and the message taken back. -/
def requestResend (s : Session F) (stop : U64) : AdminStep F :=
  let r := s.fixSessionResendRequest s.inMsgSeqNum stop
  ⟨true, r.1.takenBack, [r.2], none⟩

/-- Too low a number: the message is taken back, and the session ends unless it is a possible duplicate. -/
def tooLow (s : Session F) (m : FixMessage F) : AdminStep F :=
  ⟨true, s.takenBack, [], if m.possDup then none else some (tooLowText s.inMsgSeqNum m.msgSeqNum)⟩

/-- The EndSeqNo that stands for everything after, by version. -/
def endSeqNo (v : Version) : U64 := if v.toNat ≤ Version.fix41.toNat then 999999 else 0

/-- `fix_do_unexpected`. -/
def fixDoUnexpected (s : Session F) (m : FixMessage F) : AdminStep F :=
  if s.inMsgSeqNum < m.msgSeqNum then s.requestResend (endSeqNo s.dialect.version)
  else if m.msgSeqNum < s.inMsgSeqNum then s.tooLow m
  else s.adminDone true

/-- `FIX_MSG_TYPE_HEARTBEAT`. -/
def adminHeartbeat (s : Session F) (m : FixMessage F) : AdminStep F :=
  match m.fixGetField Tag.testReqId with
  | some f =>
    if f.stringValue.take (cchars s.testreqid).length = cchars s.testreqid then
      { s with trPending := false }.adminDone true
    else s.adminDone true
  | none => s.adminDone true

/-- The `id` a test request is answered with. -/
def testRequestId (m : FixMessage F) : List UInt8 :=
  cstr (((m.fixGetField Tag.testReqId).bind fun f => fixGetString f 128).getD (chars "TestReqID"))

/-- `FIX_MSG_TYPE_TEST_REQUEST`. -/
def adminTestRequest (s : Session F) (m : FixMessage F) : AdminStep F :=
  let r := s.fixSessionHeartbeat (some (testRequestId m))
  ⟨true, r.1, [r.2], none⟩

/-- `FIX_MSG_TYPE_RESEND_REQUEST`: everything asked for is skipped by a gap fill. -/
def adminResendRequest (s : Session F) (m : FixMessage F) : AdminStep F :=
  match m.fixGetField Tag.beginSeqNo with
  | none => s.adminDone false
  | some f =>
    match m.fixGetField Tag.endSeqNo with
    | none => s.adminDone false
    | some g =>
      let r := s.fixSessionSequenceReset f.intValue (g.intValue + 1) true
      ⟨true, r.1, [r.2], none⟩

/-- `FIX_MSG_TYPE_SEQUENCE_RESET` with a GapFillFlag `Y`, to the number `n`. -/
def adminGapFill (s : Session F) (m : FixMessage F) (n : U64) : AdminStep F :=
  if s.inMsgSeqNum < m.msgSeqNum then s.requestResend m.msgSeqNum
  else if m.msgSeqNum < s.inMsgSeqNum then s.tooLow m
  else if m.msgSeqNum < n then { s with inMsgSeqNum := n - 1 }.adminDone true
  else
    let r := s.fixSessionReject m.msgSeqNum (lowerText n)
    ⟨true, r.1, [r.2], none⟩

/-- `FIX_MSG_TYPE_SEQUENCE_RESET` without one. -/
def adminReset (s : Session F) (n : U64) : AdminStep F :=
  if s.inMsgSeqNum < n then { s with inMsgSeqNum := n - 1 }.adminDone true
  else if n < s.inMsgSeqNum then
    let r := s.takenBack.fixSessionReject s.inMsgSeqNum (valueText n)
    ⟨true, r.1, [r.2], none⟩
  else s.adminDone true

/-- `FIX_MSG_TYPE_SEQUENCE_RESET`. -/
def adminSequenceReset (s : Session F) (m : FixMessage F) : AdminStep F :=
  match m.fixGetField Tag.newSeqNo with
  | none => s.adminDone true
  | some f => if m.gapFill then s.adminGapFill m f.intValue else s.adminReset f.intValue

/-- `fix_session_admin` up to where it returns or calls `fix_session_logout`. -/
def adminStep (s : Session F) (m : FixMessage F) : AdminStep F :=
  if !s.fixMsgExpected m then s.fixDoUnexpected m
  else
    match m.type with
    | .heartbeat => s.adminHeartbeat m
    | .testRequest => s.adminTestRequest m
    | .resendRequest => s.adminResendRequest m
    | .sequenceReset => s.adminSequenceReset m
    | _ => s.adminDone false

/-! ## The grace period -/

/-- What a `fix_session_recv` that returns `m` does to the counter. -/
def received (s : Session F) (m : FixMessage F) : Session F :=
  { s with rxMessage := m, inMsgSeqNum := s.inMsgSeqNum + 1 }

/-- A message received and handled. -/
def event (s : Session F) (m : FixMessage F) : Event F :=
  ⟨s.inMsgSeqNum, m, ((s.received m).adminStep m).handled, ((s.received m).adminStep m).session.inMsgSeqNum⟩

/-- The run, with what came before it. -/
def behind (sent : List (FixMessage F)) (events : List (Event F)) (r : AdminRun F) : AdminRun F :=
  { r with sent := sent ++ r.sent, events := events ++ r.events }

/-- The loop of `fix_session_logout`. `loops` of them are under way, each called from a turn of the one
before it; a turn belongs to the last. -/
def logoutLoop : Nat → Session F → List (Turn F) → AdminRun F
  | 0, s, turns => ⟨true, s, [], [], turns⟩
  | _ + 1, s, [] => ⟨true, s, [], [], []⟩
  | loops + 1, s, .elapsed :: turns => logoutLoop loops s turns
  | loops + 1, s, .nothing :: turns => logoutLoop (loops + 1) s turns
  | loops + 1, s, .message m :: turns =>
    let e := (s.received m).adminStep m
    match e.logout with
    | some text =>
      let l := e.session.sendLogout text
      behind (e.sent ++ [l.2]) [s.event m] (logoutLoop (loops + 2) l.1 turns)
    | none =>
      -- a message that is not handled ends the loop, whether or not it is a Logout
      behind e.sent [s.event m] (logoutLoop (if e.handled then loops + 1 else loops) e.session turns)

/-- `fix_session_admin` of a message that `fix_session_recv` has counted. -/
def fixSessionAdmin (s : Session F) (m : FixMessage F) (turns : List (Turn F)) : AdminRun F :=
  let e := s.adminStep m
  match e.logout with
  | some text =>
    let l := e.session.sendLogout text
    behind (e.sent ++ [l.2]) [] (logoutLoop 1 l.1 turns)
  | none => ⟨e.handled, e.session, e.sent, [], turns⟩

/-! ## What they do to the counter -/

omit [Doubles F] in
@[simp] theorem taken_back_in (s : Session F) : s.takenBack.inMsgSeqNum = s.inMsgSeqNum - 1 := rfl

omit [Doubles F] in
@[simp] theorem received_in (s : Session F) (m : FixMessage F) : (s.received m).inMsgSeqNum = s.inMsgSeqNum + 1 := rfl

/-- Sending leaves the counter of received messages alone. -/
@[simp] theorem send_in (s : Session F) (m : FixMessage F) (flags : U64) :
    (s.fixSessionSend m flags).1.inMsgSeqNum = s.inMsgSeqNum := rfl

@[simp] theorem send_logout_in (s : Session F) (text : List UInt8) : (s.sendLogout text).1.inMsgSeqNum = s.inMsgSeqNum :=
  rfl

/-- A receive that returns a message counts it. -/
theorem recv_received {s s' : Session F} {sock sock' : Socket} {flags : U64} {m : FixMessage F}
    (keep : flags &&& keepInMsgSeqNum = 0) (h : s.fixSessionRecv sock flags = (.message m, s', sock')) :
    ∃ b, s' = { s.received m with rxBuffer := b, failureReason := .success } := by
  have counted (b : Buffer) : s.counted m b flags = { s.received m with rxBuffer := b, failureReason := .success } := by
    rw [Session.counted, if_pos keep, received]
  have again {b : Buffer} {t : Session F} (h : s.parseAgain b flags = (.message m, t)) :
      ∃ b, t = { s.received m with rxBuffer := b, failureReason := .success } := by
    rw [parseAgain] at h
    split at h
    · obtain ⟨same, rfl⟩ := Prod.mk.inj h
      cases same
      exact ⟨_, counted _⟩
    · cases (Prod.mk.inj h).1
    · cases (Prod.mk.inj h).1
  rw [fixSessionRecv] at h
  split at h
  · obtain ⟨same, rest⟩ := Prod.mk.inj h
    cases same
    exact ⟨_, (Prod.mk.inj rest).1.symm.trans (counted _)⟩
  · cases (Prod.mk.inj h).1
  · simp only at h
    split at h
    · split at h
      · cases (Prod.mk.inj h).1
      · cases (Prod.mk.inj h).1
      · obtain ⟨ret, rest⟩ := Prod.mk.inj h
        obtain ⟨b, same⟩ := again (Prod.ext ret rfl)
        exact ⟨b, (Prod.mk.inj rest).1.symm.trans same⟩
    · obtain ⟨ret, rest⟩ := Prod.mk.inj h
      obtain ⟨b, same⟩ := again (Prod.ext ret rfl)
      exact ⟨b, (Prod.mk.inj rest).1.symm.trans same⟩

end Session

end Libtrading.Fix
