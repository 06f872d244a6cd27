import Libtrading.Fix.Parse

/-!
# `struct fix_session`: sending and receiving

The session owns the buffers, the message its parser fills in and the two
sequence numbers. `fix_session_recv` parses what it has, receives once if that
is not a message, and parses again; `fix_session_send` numbers a message and
prints it into the two transmit buffers.
-/

namespace Libtrading.Fix
open Buffer
set_option autoImplicit false
universe u

/-- `RECV_BUFFER_SIZE`. -/
def recvBufferSize : Nat := 4096

/-- `enum fix_failure_reason`, of those a receive sets. -/
inductive FailureReason where
  | success
  | connClosed
  | system
  deriving DecidableEq, Repr

/-- `struct fix_session`, less the socket, the timestamps, the heartbeat interval and the password. -/
structure Session (F : Type u) where
  dialect : Dialect
  active : Bool
  beginString : List UInt8
  senderCompId : List UInt8
  targetCompId : List UInt8
  inMsgSeqNum : U64
  outMsgSeqNum : U64
  rxBuffer : Buffer
  txHeadBuffer : Buffer
  txBodyBuffer : Buffer
  rxMessage : FixMessage F
  strNow : List UInt8
  testreqid : List UInt8
  trPending : Bool
  failureReason : FailureReason

/-- `begin_strings`; there is no entry for `FIX_5_0`. -/
def beginStrings : Version → List UInt8
  | .fixt11 => cstr (chars "FIXT.1.1")
  | .fix44 => cstr (chars "FIX.4.4")
  | .fix43 => cstr (chars "FIX.4.3")
  | .fix42 => cstr (chars "FIX.4.2")
  | .fix41 => cstr (chars "FIX.4.1")
  | .fix40 => cstr (chars "FIX.4.0")
  | .fix50 => []

/-- `struct fix_session_cfg`, of what a session takes from it. -/
structure SessionCfg where
  senderCompId : List UInt8
  targetCompId : List UInt8
  dialect : Dialect
  inMsgSeqNum : U64
  outMsgSeqNum : U64

section
variable {F : Type u} [Doubles F]

/-- `fix_session_new`, at the time whose text is `now`. -/
def fixSessionNew (cfg : SessionCfg) (now : List UInt8) : Session F where
  dialect := cfg.dialect
  active := false
  beginString := beginStrings cfg.dialect.version
  senderCompId := cfg.senderCompId
  targetCompId := cfg.targetCompId
  inMsgSeqNum := if 0 < cfg.inMsgSeqNum then cfg.inMsgSeqNum else 0
  outMsgSeqNum := if 1 < cfg.outMsgSeqNum then cfg.outMsgSeqNum else 1
  rxBuffer := bufferNew recvBufferSize
  txHeadBuffer := bufferNew fixMaxHeadLen
  txBodyBuffer := bufferNew fixMaxBodyLen
  rxMessage := FixMessage.init .heartbeat []
  strNow := now
  testreqid := List.replicate 64 0
  trPending := false
  failureReason := .success

/-! ## Sending -/

/-- `FIX_SEND_FLAG_PRESERVE_MSG_NUM`. -/
def preserveMsgNum : U64 := 1

/-- `FIX_SEND_FLAG_PRESERVE_BUFFER`. -/
def preserveBuffer : U64 := 2

namespace Session

/-- The message with what the session fills in. The test of the flag is a logical and, which any
flag passes. -/
def numbered (s : Session F) (msg : FixMessage F) (flags : U64) : FixMessage F :=
  { msg with
    beginString := s.beginString
    senderCompId := s.senderCompId
    targetCompId := s.targetCompId
    msgSeqNum := if flags = 0 then s.outMsgSeqNum else msg.msgSeqNum
    strNow := s.strNow }

/-- The transmit buffers with a message in them. -/
def unparsed (s : Session F) (msg : FixMessage F) (flags : U64) : Buffer × Buffer :=
  if flags &&& preserveBuffer = 0 then msg.fixMessageUnparse s.txHeadBuffer.bufferReset s.txBodyBuffer.bufferReset
  else (s.txHeadBuffer.bufferReset, s.txBodyBuffer.bufferReset)

/-- `fix_session_send`: the session and the message as sent. -/
def fixSessionSend (s : Session F) (msg : FixMessage F) (flags : U64) : Session F × FixMessage F :=
  let msg := s.numbered msg flags
  let tx := s.unparsed msg flags
  ({ s with
      outMsgSeqNum := if flags = 0 then s.outMsgSeqNum + 1 else s.outMsgSeqNum
      txHeadBuffer := tx.1
      txBodyBuffer := tx.2 }, msg)

/-- The bytes the two iovecs of the last send hold. -/
def wire (s : Session F) : List UInt8 :=
  s.txHeadBuffer.data.take s.txHeadBuffer.stop ++ s.txBodyBuffer.data.take s.txBodyBuffer.stop

/-! ## Receiving -/

/-- `FIX_RECV_KEEP_IN_MSGSEQNUM`. -/
def keepInMsgSeqNum : U64 := 131072

/-- What the peer has sent and the session has not received, by the chunks that single `recv`s
deliver at most. -/
abbrev Socket := List (List UInt8)

/-- `recv` of at most `count` bytes: the bytes, or nothing where none are there. -/
def ioRecv (sock : Socket) (count : Nat) : Option (List UInt8) × Socket :=
  match sock with
  | [] => (none, [])
  | x :: xs => if x.length ≤ count then (some x, xs) else (some (x.take count), x.drop count :: xs)

/-- `fix_session_buffer_full`. -/
def fixSessionBufferFull (b : Buffer) : Bool := b.bufferRemaining ≤ fixMaxMessageSize

/-- The buffer after the test for a full one. -/
def compacted (b : Buffer) : Buffer := if fixSessionBufferFull b then b.bufferCompact else b

/-- What `fix_session_recv` returns: 1 with the message, 0, or -1; or the fault of its parser. -/
inductive Ret (F : Type u) where
  | message (m : FixMessage F)
  | nothing
  | failed
  | fault

/-- After a successful parse. -/
def counted (s : Session F) (m : FixMessage F) (b : Buffer) (flags : U64) : Session F :=
  { s with
    rxMessage := m
    rxBuffer := b
    failureReason := .success
    inMsgSeqNum := if flags &&& keepInMsgSeqNum = 0 then s.inMsgSeqNum + 1 else s.inMsgSeqNum }

/-- The second parse of `fix_session_recv`, on the buffer `b`. -/
def parseAgain (s : Session F) (b : Buffer) (flags : U64) : Ret F × Session F :=
  match fixMessageParse s.dialect flags s.rxMessage b with
  | .message m _ b => (.message m, s.counted m b flags)
  | .waits b => (.nothing, { s with rxBuffer := b, failureReason := .success })
  | .fault => (.fault, s)

/-- `fix_session_recv`. -/
def fixSessionRecv (s : Session F) (sock : Socket) (flags : U64) : Ret F × Session F × Socket :=
  match fixMessageParse s.dialect flags s.rxMessage s.rxBuffer with
  | .message m _ b => (.message m, s.counted m b flags, sock)
  | .fault => (.fault, s, sock)
  | .waits b =>
    let b := compacted b
    if fixMaxMessageSize < b.bufferRemaining then
      match ioRecv sock (b.bufferRemaining - fixMaxMessageSize) with
      | (none, sock) => (.failed, { s with rxBuffer := b, failureReason := .system }, sock)
      | (some [], sock) => (.failed, { s with rxBuffer := b, failureReason := .connClosed }, sock)
      | (some x, sock) =>
        let (ret, s) := s.parseAgain (b.receive x) flags
        (ret, s, sock)
    else
      let (ret, s) := s.parseAgain b flags
      (ret, s, sock)

/-! ## A run of calls -/

/-- `n` calls of `fix_session_recv` one after the other: what they return, and what they leave. -/
def recvRun (flags : U64) : Nat → Session F → Socket → List (Ret F) × Session F × Socket
  | 0, s, sock => ([], s, sock)
  | n + 1, s, sock =>
    let r := s.fixSessionRecv sock flags
    let rest := recvRun flags n r.2.1 r.2.2
    (r.1 :: rest.1, rest.2)

end Session

end

end Libtrading.Fix
