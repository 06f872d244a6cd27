import Libtrading.Fix.Session
import Libtrading.Fix.Progress

/-!
# Room to receive

A receive that ends without a message keeps what its parser waits on. The
reserve of `FIX_MAX_MESSAGE_SIZE` bytes is never received into, so the next
call can receive as long as fewer than `RECV_BUFFER_SIZE -
FIX_MAX_MESSAGE_SIZE` bytes are kept. Body lengths are bounded, but fields
are not: a tag without its `=` or a value without its SOH is waited for
whatever its length.
-/

namespace Libtrading.Fix
open Buffer Wire
set_option autoImplicit false
universe u

namespace Bytes

section
variable (F : Type u) [Doubles F] (dialect : Dialect) (flags : U64)

/-- An attempt on `u` is garbled and leaves `w`. -/
def Discards (u w : List UInt8) : Prop := attempt (F := F) dialect flags 0 u = .stop .garbled w

/-- An attempt on `u` waits for more bytes. -/
def Incomplete (u : List UInt8) : Prop := ∃ r, attempt (F := F) dialect flags 0 u = .stop .msgPartial r

/-- Past garbled beginnings of `u`, the bytes `w` are left, and are incomplete. -/
structure ComesTo (u w : List UInt8) : Prop where
  chain : Relation.ReflTransGen (Discards F dialect flags) u w
  incomplete : Incomplete F dialect flags w

variable {F dialect flags}

theorem match_field_no_tag {u : List UInt8} (tag : Tag) (h : '='.toNat.toUInt8 ∉ u) :
    matchField u tag = .stop .msgPartial [] := by
  rw [matchField, parseTag, cut_eq_none.2 h]
  rfl

/-- No attempt gets anywhere in bytes without a `=`. -/
theorem incomplete_no_tag {u : List UInt8} (h : '='.toNat.toUInt8 ∉ u) : Incomplete F dialect flags u := by
  refine ⟨[], ?_⟩
  rw [attempt, firstThreeFields, match_field_no_tag Tag.beginString h]

theorem Incomplete.nil : Incomplete F dialect flags [] := incomplete_no_tag List.not_mem_nil

theorem ComesTo.suffix {u w : List UInt8} (h : ComesTo F dialect flags u w) : w <:+ u := by
  obtain ⟨chain, -⟩ := h
  induction chain with
  | refl => exact List.suffix_refl _
  | tail _ step ih => exact (attempt_suffix step).trans ih

/-- Incomplete bytes are not discarded. -/
theorem Incomplete.stays {u w : List UInt8} (h : Incomplete F dialect flags u) (comes : ComesTo F dialect flags u w) :
    w = u := by
  obtain ⟨r, waits⟩ := h
  rcases Relation.ReflTransGen.cases_head comes.chain with same | ⟨v, step, -⟩
  · exact same.symm
  · rw [Discards, waits] at step
    cases step

/-- A parse waits exactly on what the bytes come to. -/
theorem parse_waits_iff (q : U64) (u w : List UInt8) :
    (parse dialect flags q u : Parsed F) = .waits w ↔ ComesTo F dialect flags u w := by
  constructor
  · intro h
    induction hn : u.length using Nat.strongRecOn generalizing u with
    | ind n ih =>
      subst hn
      by_cases empty : u = []
      · rw [parse, parseFrom, if_pos empty] at h
        cases h
        exact ⟨.refl, empty ▸ Incomplete.nil⟩
      cases ha : attempt (F := F) dialect flags q u with
      | stop ret r =>
        have ha' := (attempt_seq_num q 0).1 _ ha
        cases ret with
        | msgPartial =>
          rw [parse, parseFrom, if_neg empty, ha] at h
          cases h
          exact ⟨.refl, r, ha'⟩
        | garbled =>
          rw [parse_garbled ha] at h
          have rest := ih r.length (attempt_short (.inl ha)) r h rfl
          exact ⟨.head ha' rest.chain, rest.incomplete⟩
      | done o r =>
        cases o with
        | none => rw [parse, parseFrom, if_neg empty, ha] at h; cases h
        | some m => rw [parse_done ha] at h; cases h
  · rintro ⟨chain, r, waits⟩
    induction chain using Relation.ReflTransGen.head_induction_on with
    | refl =>
      rw [parse, parseFrom, (attempt_seq_num 0 q).1 _ waits]
      split <;> rfl
    | head step _ ih =>
      rw [parse_garbled ((attempt_seq_num 0 q).1 _ step)]
      exact ih

end

end Bytes

namespace Session

variable {F : Type u} [Doubles F]

/-- A session's receive buffer is as it was made. -/
structure Receives (s : Session F) : Prop where
  valid : s.rxBuffer.Valid
  size : s.rxBuffer.data.length = recvBufferSize

omit [Doubles F] in
theorem new_receives (cfg : SessionCfg) (now : List UInt8) : (fixSessionNew cfg now : Session F).Receives where
  valid := ⟨Nat.le_refl _, Nat.zero_le _⟩
  size := List.length_replicate

/-- Where the next call's parser waits, that call has room to receive at least one byte. -/
def HasRoom (s : Session F) (flags : U64) : Prop :=
  ∀ b, fixMessageParse s.dialect flags s.rxMessage s.rxBuffer = .waits b →
    fixMaxMessageSize < (compacted b).bufferRemaining

/-- Compaction makes all the room there is: what is not unread, less the reserve. -/
theorem compacted_room {b : Buffer} (hv : b.Valid) (size : b.data.length = recvBufferSize) :
    (compacted b).Valid ∧ (compacted b).data.length = recvBufferSize ∧ (compacted b).unread = b.unread ∧
      (fixMaxMessageSize < (compacted b).bufferRemaining ↔ b.unread.length < recvBufferSize - fixMaxMessageSize) := by
  have unread := length_unread hv
  have start := hv.start_le
  have stop := hv.stop_le
  by_cases full : fixSessionBufferFull b = true
  · obtain ⟨hc, same, kept, ends⟩ := hv.compact
    rw [compacted, if_pos full]
    refine ⟨hc, kept.trans size, same, ?_⟩
    rw [hc.remaining_eq, kept, ends, size]
    simp only [recvBufferSize, fixMaxMessageSize] at *
    omega
  · rw [compacted, if_neg full]
    refine ⟨hv, size, rfl, ?_⟩
    simp only [fixSessionBufferFull, decide_eq_true_eq] at full
    rw [hv.remaining_eq] at full ⊢
    simp only [recvBufferSize, fixMaxMessageSize] at *
    omega

/-- A parser that waits, waits on what its bytes come to. -/
theorem parse_waits {dialect : Dialect} {flags : U64} {self : FixMessage F} {b c : Buffer} (hv : b.Valid)
    (h : fixMessageParse dialect flags self b = .waits c) :
    c.Valid ∧ c.data = b.data ∧ c = b.leaving c.unread.length ∧ Bytes.ComesTo F dialect flags b.unread c.unread := by
  have agrees := parse_agrees dialect flags hv self
  rw [h] at agrees
  generalize hp : Bytes.parse (F := F) dialect flags self.msgSeqNum b.unread = p at agrees
  cases agrees with
  | waits rest =>
    obtain ⟨hv', hu⟩ := unread_leaving hv rest
    rw [hu]
    refine ⟨hv', rfl, rfl, ?_⟩
    exact (Bytes.parse_waits_iff _ _ _).1 hp

/-- Bytes that come to incomplete ones are waited on. -/
theorem waits_of_comes {dialect : Dialect} {flags : U64} (self : FixMessage F) {b : Buffer} {w : List UInt8} (hv : b.Valid)
    (h : Bytes.ComesTo F dialect flags b.unread w) :
    fixMessageParse dialect flags self b = .waits (b.leaving w.length) := by
  have agrees := parse_agrees dialect flags hv self
  rw [(Bytes.parse_waits_iff _ _ _).2 h] at agrees
  generalize fixMessageParse dialect flags self b = p at agrees
  cases agrees with
  | waits rest => rfl

/-- A parser that returns a message only moved `start`. -/
theorem parse_message_buffer {dialect : Dialect} {flags : U64} {self m : FixMessage F} {b c : Buffer} {start : Nat}
    (hv : b.Valid) (h : fixMessageParse dialect flags self b = .message m start c) : c.Valid ∧ c.data = b.data := by
  have agrees := parse_agrees dialect flags hv self
  rw [h] at agrees
  generalize Bytes.parse (F := F) dialect flags self.msgSeqNum b.unread = p at agrees
  cases agrees with
  | message _ _ rest => exact ⟨(unread_leaving hv rest).1, rfl⟩

/-- What a call receives once its parser waits with the buffer `b`. -/
def heard (b : Buffer) (sock : Socket) : List UInt8 :=
  if fixMaxMessageSize < (compacted b).bufferRemaining then
    (ioRecv sock ((compacted b).bufferRemaining - fixMaxMessageSize)).1.getD []
  else []

theorem length_io_recv {sock rest : Socket} {count : Nat} {x : List UInt8} (h : ioRecv sock count = (some x, rest)) :
    x.length ≤ count := by
  unfold ioRecv at h
  split at h
  · cases h
  · split at h
    · cases h
      assumption
    · cases h
      exact List.length_take_le _ _

/-- A call of `fix_session_recv`: the session before it, what its peer has sent, and its flags. -/
structure Call (F : Type u) where
  before : Session F
  sock : Socket
  flags : U64

namespace Call

/-- What the call returns. -/
def ret (c : Call F) : Ret F := (c.before.fixSessionRecv c.sock c.flags).1

/-- The session after the call. -/
def after (c : Call F) : Session F := (c.before.fixSessionRecv c.sock c.flags).2.1

/-- Past garbled beginnings, the unread bytes come to some that the call waits on, and these, with
those it receives behind them, to incomplete ones too many to receive behind. -/
def Outgrows (c : Call F) : Prop :=
  ∃ u w, Bytes.ComesTo F c.before.dialect c.flags c.before.rxBuffer.unread u ∧
    Bytes.ComesTo F c.before.dialect c.flags (u ++ heard (c.before.rxBuffer.leaving u.length) c.sock) w ∧
    recvBufferSize - fixMaxMessageSize ≤ w.length

/-- If the call returns 0, the next one, with any flags, has room. -/
def LeavesRoom (c : Call F) : Prop := c.ret = .nothing → ∀ flags, c.after.HasRoom flags

end Call

/-- The buffer in front of the second parse: what was waited on and what was received. -/
theorem heard_unread {b : Buffer} (hv : b.Valid) (size : b.data.length = recvBufferSize) (sock : Socket) :
    ((compacted b).receive (heard b sock)).Valid ∧
      ((compacted b).receive (heard b sock)).data.length = recvBufferSize ∧
      ((compacted b).receive (heard b sock)).unread = b.unread ++ heard b sock := by
  obtain ⟨hv', size', unread, -⟩ := compacted_room hv size
  refine ⟨hv'.receive _, ?_, by rw [unread_receive hv', unread]⟩
  have stop := hv'.stop_le
  have inside : (compacted b).stop + (heard b sock).length ≤ recvBufferSize := by
    unfold heard
    split
    · rename_i room
      rw [hv'.remaining_eq, size'] at room ⊢
      cases hr : ioRecv sock (recvBufferSize - (compacted b).stop - fixMaxMessageSize) with
      | mk x rest =>
        cases x with
        | none =>
          simp only [Option.getD_none, List.length_nil]
          omega
        | some x =>
          have := length_io_recv hr
          simp only [Option.getD_some]
          omega
    · simp only [List.length_nil]
      omega
  simp only [Buffer.receive, List.length_append, List.length_take, List.length_drop]
  omega

/-- With room and nothing to receive, the call fails. -/
theorem recv_failed {s : Session F} {sock : Socket} {flags : U64} {b : Buffer}
    (first : fixMessageParse s.dialect flags s.rxMessage s.rxBuffer = .waits b)
    (room : fixMaxMessageSize < (compacted b).bufferRemaining) (none : heard b sock = []) :
    (s.fixSessionRecv sock flags).1 = .failed ∧ (s.fixSessionRecv sock flags).2.1.rxBuffer = compacted b := by
  rw [heard, if_pos room] at none
  rw [fixSessionRecv, first]
  simp only [if_pos room]
  cases hr : ioRecv sock ((compacted b).bufferRemaining - fixMaxMessageSize) with
  | mk x rest =>
    rw [hr] at none
    cases x with
    | none => exact ⟨rfl, rfl⟩
    | some x =>
      simp only [Option.getD_some] at none
      subst none
      exact ⟨rfl, rfl⟩

/-- Otherwise it parses again what it waited on and what it received. -/
theorem recv_again {s : Session F} {sock : Socket} {flags : U64} {b : Buffer} (hv : b.Valid)
    (size : b.data.length = recvBufferSize)
    (first : fixMessageParse s.dialect flags s.rxMessage s.rxBuffer = .waits b)
    (goes : fixMaxMessageSize < (compacted b).bufferRemaining → heard b sock ≠ []) :
    (s.fixSessionRecv sock flags).1 = (s.parseAgain ((compacted b).receive (heard b sock)) flags).1 ∧
      (s.fixSessionRecv sock flags).2.1 = (s.parseAgain ((compacted b).receive (heard b sock)) flags).2 := by
  obtain ⟨hv', -, -, -⟩ := compacted_room hv size
  by_cases room : fixMaxMessageSize < (compacted b).bufferRemaining
  · have some := goes room
    rw [heard, if_pos room] at some ⊢
    rw [fixSessionRecv, first]
    simp only [if_pos room]
    cases hr : ioRecv sock ((compacted b).bufferRemaining - fixMaxMessageSize) with
    | mk x rest =>
      rw [hr] at some
      cases x with
      | none => exact absurd rfl some
      | some x =>
        cases x with
        | nil => exact absurd rfl some
        | cons _ _ => exact ⟨rfl, rfl⟩
  · rw [heard, if_neg room, receive_nil]
    rw [fixSessionRecv, first]
    simp only [if_neg room, and_self]

/-- Only a call whose first parse waits returns 0. -/
theorem nothing_waits {s : Session F} {sock : Socket} {flags : U64}
    (h : (s.fixSessionRecv sock flags).1 = .nothing) :
    ∃ b, fixMessageParse s.dialect flags s.rxMessage s.rxBuffer = .waits b := by
  rw [fixSessionRecv] at h
  cases hp : fixMessageParse s.dialect flags s.rxMessage s.rxBuffer with
  | message m start b => rw [hp] at h; cases h
  | fault => rw [hp] at h; cases h
  | waits b => exact ⟨b, rfl⟩

/-- Parsing again returns 0 exactly where the parser waits, with what it waits on in the buffer. -/
theorem parse_again_nothing {s : Session F} {b : Buffer} {flags : U64} (h : (s.parseAgain b flags).1 = .nothing) :
    ∃ c, fixMessageParse s.dialect flags s.rxMessage b = .waits c ∧
      (s.parseAgain b flags).2 = { s with rxBuffer := c, failureReason := .success } := by
  rw [parseAgain] at h ⊢
  cases hp : fixMessageParse s.dialect flags s.rxMessage b with
  | message m start b => rw [hp] at h; cases h
  | fault => rw [hp] at h; cases h
  | waits c => exact ⟨c, rfl, rfl⟩

/-- A call that outgrows its buffer returns 0 and keeps what is too many; it does not matter what is sent to
the next one. -/
theorem outgrown {c : Call F} (h : c.before.Receives) (grows : c.Outgrows) :
    c.ret = .nothing ∧ ¬ c.after.HasRoom c.flags ∧
      ∀ sock, (⟨c.after, sock, c.flags⟩ : Call F).Outgrows := by
  obtain ⟨hv, size⟩ := h
  obtain ⟨u, w, first, second, large⟩ := grows
  obtain ⟨hvu, unread⟩ := unread_leaving hv first.suffix
  have size' : (c.before.rxBuffer.leaving u.length).data.length = recvBufferSize := size
  obtain ⟨hv₂, size₂, again⟩ := heard_unread hvu size' c.sock
  have first' := waits_of_comes c.before.rxMessage hv first
  rw [unread] at again
  have goes : fixMaxMessageSize < (compacted (c.before.rxBuffer.leaving u.length)).bufferRemaining →
      heard (c.before.rxBuffer.leaving u.length) c.sock ≠ [] := by
    -- with nothing received the bytes are the ones waited on first, and those left room
    intro room none
    rw [none, List.append_nil] at second
    rw [(compacted_room hvu size').2.2.2, unread, ← first.incomplete.stays second] at room
    omega
  obtain ⟨ret, after⟩ := recv_again hvu size' first' goes
  rw [← again] at second
  have second' := waits_of_comes c.before.rxMessage hv₂ second
  generalize (compacted (c.before.rxBuffer.leaving u.length)).receive
    (heard (c.before.rxBuffer.leaving u.length) c.sock) = b at *
  obtain ⟨hvw, left⟩ := unread_leaving hv₂ second.suffix
  rw [parseAgain, second'] at ret after
  have stays : Bytes.ComesTo F c.before.dialect c.flags (b.leaving w.length).unread w := by
    rw [left]
    exact ⟨.refl, second.incomplete⟩
  have full : ¬ fixMaxMessageSize < (compacted (b.leaving w.length)).bufferRemaining := by
    rw [(compacted_room hvw size₂).2.2.2, left]
    omega
  refine ⟨ret, fun room => ?_, fun sock => ?_⟩
  · rw [Call.after, after] at room
    exact full (room _ (waits_of_comes c.before.rxMessage hvw stays))
  · have place : c.after.rxBuffer = b.leaving w.length ∧ c.after.dialect = c.before.dialect := by
      rw [Call.after, after]
      exact ⟨rfl, rfl⟩
    refine ⟨w, w, ?_, ?_, large⟩
    · rw [place.1, place.2]
      exact stays
    · rw [place.1, place.2, leaving_leaving, heard, if_neg full, List.append_nil, ← left]
      rw [left] at stays ⊢
      exact stays

/-- **A call leaves room.** A call on a session whose buffer is as it was made leaves room to the
next one if and only if what it has not discarded does not outgrow the buffer. -/
theorem call_room {c : Call F} (h : c.before.Receives) : c.LeavesRoom ↔ ¬ c.Outgrows := by
  obtain ⟨hv, size⟩ := h
  constructor
  · intro leaves grows
    obtain ⟨ret, wedged, -⟩ := outgrown ⟨hv, size⟩ grows
    exact wedged (leaves ret c.flags)
  · intro fits ret flags b waits
    obtain ⟨b₁, first⟩ := nothing_waits ret
    obtain ⟨hv₁, data₁, place₁, comes₁⟩ := parse_waits hv first
    have size₁ : b₁.data.length = recvBufferSize := by rw [data₁, size]
    obtain ⟨hv₂, size₂, again⟩ := heard_unread hv₁ size₁ c.sock
    have goes : fixMaxMessageSize < (compacted b₁).bufferRemaining → heard b₁ c.sock ≠ [] := by
      intro room none
      rw [Call.ret, (recv_failed first room none).1] at ret
      cases ret
    obtain ⟨same, after⟩ := recv_again hv₁ size₁ first goes
    rw [Call.ret, same] at ret
    obtain ⟨c₂, second, left⟩ := parse_again_nothing ret
    obtain ⟨hvc, datac, -, comes₂⟩ := parse_waits hv₂ second
    have small : c₂.unread.length < recvBufferSize - fixMaxMessageSize := by
      by_contra large
      refine fits ⟨b₁.unread, c₂.unread, comes₁, ?_, Nat.le_of_not_lt large⟩
      rw [← place₁, ← again]
      exact comes₂
    rw [Call.after, after, left] at waits
    obtain ⟨hvb, datab, -, comes₃⟩ := parse_waits hvc waits
    have short := comes₃.suffix.length_le
    rw [(compacted_room hvb (by rw [datab, datac, size₂])).2.2.2]
    omega

/-! ## Runs -/

/-- A call keeps the memory of the buffer. -/
theorem call_receives {c : Call F} (h : c.before.Receives) : c.after.Receives := by
  obtain ⟨hv, size⟩ := h
  cases first : fixMessageParse c.before.dialect c.flags c.before.rxMessage c.before.rxBuffer with
  | message m start b =>
    obtain ⟨hv', data⟩ := parse_message_buffer hv first
    rw [Call.after, fixSessionRecv, first]
    exact ⟨hv', (congrArg List.length data).trans size⟩
  | fault =>
    rw [Call.after, fixSessionRecv, first]
    exact ⟨hv, size⟩
  | waits b =>
    obtain ⟨hv₁, data₁, -, -⟩ := parse_waits hv first
    have size₁ : b.data.length = recvBufferSize := by rw [data₁, size]
    by_cases fails : fixMaxMessageSize < (compacted b).bufferRemaining ∧ heard b c.sock = []
    · obtain ⟨-, buffer⟩ := recv_failed first fails.1 fails.2
      obtain ⟨hv₂, size₂, -, -⟩ := compacted_room hv₁ size₁
      exact ⟨by rw [Call.after, buffer]; exact hv₂, by rw [Call.after, buffer]; exact size₂⟩
    · obtain ⟨hv₂, size₂, -⟩ := heard_unread hv₁ size₁ c.sock
      obtain ⟨-, after⟩ := recv_again hv₁ size₁ first (fun room none => fails ⟨room, none⟩)
      rw [Call.after, after, parseAgain]
      cases second : fixMessageParse c.before.dialect c.flags c.before.rxMessage
          ((compacted b).receive (heard b c.sock)) with
      | message m start b' =>
        obtain ⟨hv', data⟩ := parse_message_buffer hv₂ second
        exact ⟨hv', (congrArg List.length data).trans size₂⟩
      | fault => exact ⟨hv, size⟩
      | waits b' =>
        obtain ⟨hv', data, -, -⟩ := parse_waits hv₂ second
        exact ⟨hv', by rw [data, size₂]⟩

/-- After a call that outgrew the buffer, every call with its flags returns 0, whatever is sent. -/
theorem outgrown_next {c : Call F} (h : c.before.Receives) (grows : c.Outgrows) (sock : Socket) :
    (⟨c.after, sock, c.flags⟩ : Call F).ret = .nothing :=
  (outgrown (c := ⟨c.after, sock, c.flags⟩) (call_receives h) ((outgrown h grows).2.2 sock)).1

/-- The calls of `fix_session_recv` on a new session, the last one first, whatever arrives before each
and with whatever flags; what else is done with the session between them leaves its buffer alone. -/
inductive Run (cfg : SessionCfg) (now : List UInt8) : List (Call F) → Session F → Prop
  | new : Run cfg now [] (fixSessionNew cfg now)
  | recv {cs : List (Call F)} {s : Session F} (before : Run cfg now cs s) (sock : Socket) (flags : U64)
      (sound : (s.fixSessionRecv sock flags).1 ≠ .fault) :
      Run cfg now (⟨s, sock, flags⟩ :: cs) (s.fixSessionRecv sock flags).2.1
  | other {cs : List (Call F)} {s s' : Session F} (before : Run cfg now cs s) (same : s'.rxBuffer = s.rxBuffer) :
      Run cfg now cs s'

/-- Every call of a run is on a session whose buffer is as it was made. -/
theorem run_receives {cfg : SessionCfg} {now : List UInt8} {cs : List (Call F)} {s : Session F} (h : Run cfg now cs s) :
    s.Receives ∧ ∀ c ∈ cs, c.before.Receives := by
  induction h with
  | new => exact ⟨new_receives cfg now, fun _ hc => absurd hc List.not_mem_nil⟩
  | recv _ sock flags _ ih =>
    refine ⟨call_receives (c := ⟨_, sock, flags⟩) ih.1, fun c hc => ?_⟩
    rcases List.mem_cons.1 hc with rfl | earlier
    · exact ih.1
    · exact ih.2 c earlier
  | other _ same ih => exact ⟨⟨by rw [same]; exact ih.1.valid, by rw [same]; exact ih.1.size⟩, ih.2⟩

/-- **Room to receive.** In every run, each call that returns 0 leaves the next one room to receive, if
and only if no call of the run comes to 2816 incomplete bytes or more. -/
theorem always_room {cfg : SessionCfg} {now : List UInt8} {cs : List (Call F)} {s : Session F} (h : Run cfg now cs s) :
    (∀ c ∈ cs, c.LeavesRoom) ↔ ∀ c ∈ cs, ¬ c.Outgrows :=
  forall₂_congr fun c hc => call_room ((run_receives h).2 c hc)

/-! ## The first call -/

section
variable (cfg : SessionCfg) (now : List UInt8) {x : List UInt8}

omit [Doubles F] in
theorem new_unread : (fixSessionNew cfg now : Session F).rxBuffer.unread = [] := rfl

omit [Doubles F] in
/-- A new session receives all of the first chunk, if there is room. -/
theorem new_heard (fits : x.length ≤ recvBufferSize - fixMaxMessageSize) :
    heard (fixSessionNew cfg now : Session F).rxBuffer [x] = x := by
  obtain ⟨hv, size⟩ := new_receives (F := F) cfg now
  have spacious : fixSessionBufferFull (fixSessionNew cfg now : Session F).rxBuffer = false := by
    rw [fixSessionBufferFull, hv.remaining_eq, size]
    rfl
  have whole : compacted (fixSessionNew cfg now : Session F).rxBuffer = (fixSessionNew cfg now : Session F).rxBuffer := by
    rw [compacted, spacious]
    rfl
  have remaining : (fixSessionNew cfg now : Session F).rxBuffer.bufferRemaining = recvBufferSize := by
    rw [hv.remaining_eq, size]
    rfl
  rw [heard, whole, remaining, if_pos (by decide), ioRecv, if_pos fits]
  rfl

/-- On incomplete bytes, the first call returns 0. -/
theorem new_nothing (flags : U64) (some : x ≠ []) (fits : x.length ≤ recvBufferSize - fixMaxMessageSize)
    (incomplete : Bytes.Incomplete F cfg.dialect flags x) :
    (⟨fixSessionNew cfg now, [x], flags⟩ : Call F).ret = .nothing := by
  obtain ⟨hv, size⟩ := new_receives (F := F) cfg now
  have first : fixMessageParse cfg.dialect flags (fixSessionNew cfg now : Session F).rxMessage
      (fixSessionNew cfg now : Session F).rxBuffer = .waits (fixSessionNew cfg now : Session F).rxBuffer :=
    waits_of_comes _ hv ⟨.refl, Bytes.Incomplete.nil⟩
  obtain ⟨hv₂, -, again⟩ := heard_unread hv size [x]
  rw [new_heard cfg now fits, new_unread, List.nil_append] at again
  obtain ⟨ret, -⟩ := recv_again hv size first (fun _ => by rw [new_heard cfg now fits]; exact some)
  have second := waits_of_comes (fixSessionNew cfg now : Session F).rxMessage hv₂
    (show Bytes.ComesTo F cfg.dialect flags _ x by
      rw [new_heard cfg now fits, again]; exact ⟨.refl, incomplete⟩)
  have same : (fixSessionNew cfg now : Session F).dialect = cfg.dialect := rfl
  rw [Call.ret, ret, parseAgain, same, second]

/-- It outgrows the buffer when it fills what may be received into. -/
theorem new_outgrows (flags : U64) (fits : x.length = recvBufferSize - fixMaxMessageSize)
    (incomplete : Bytes.Incomplete F cfg.dialect flags x) :
    (⟨fixSessionNew cfg now, [x], flags⟩ : Call F).Outgrows := by
  refine ⟨[], x, ⟨.refl, .nil⟩, ?_, Nat.le_of_eq fits.symm⟩
  have heard : heard (fixSessionNew cfg now : Session F).rxBuffer [x] = x := new_heard cfg now (Nat.le_of_eq fits)
  show Bytes.ComesTo F cfg.dialect flags ([] ++ Session.heard (fixSessionNew cfg now : Session F).rxBuffer [x]) x
  rw [List.nil_append, heard]
  exact ⟨.refl, incomplete⟩

end

def anyCfg : SessionCfg :=
  { senderCompId := chars "A", targetCompId := chars "B", dialect := ⟨.fix44, fixTagType⟩,
    inMsgSeqNum := 0, outMsgSeqNum := 1 }

/-- The first bytes of a message leave room for the others. -/
theorem first_bytes_leave_room :
    (⟨fixSessionNew anyCfg [], [chars "8=FIX"], 0⟩ : Call (List UInt8)).ret = .nothing ∧
      (⟨fixSessionNew anyCfg [], [chars "8=FIX"], 0⟩ : Call (List UInt8)).LeavesRoom := by
  have incomplete : Bytes.Incomplete (List UInt8) anyCfg.dialect 0 (chars "8=FIX") := ⟨[], by decide⟩
  have ret := new_nothing (F := List UInt8) anyCfg [] 0 (by decide) (by decide) incomplete
  have run : Run (F := List UInt8) anyCfg [] [⟨fixSessionNew anyCfg [], [chars "8=FIX"], 0⟩] _ :=
    .recv .new [chars "8=FIX"] 0 (fun fault => nomatch ret.symm.trans fault)
  refine ⟨ret, (always_room run).2 (fun c hc => ?_) _ List.mem_cons_self⟩
  rcases List.mem_singleton.1 hc with rfl
  rintro ⟨u, w, first, second, large⟩
  have none : u = [] := List.suffix_nil.1 first.suffix
  subst none
  have heard : heard (fixSessionNew anyCfg [] : Session (List UInt8)).rxBuffer [chars "8=FIX"] = chars "8=FIX" :=
    new_heard anyCfg [] (by decide)
  have second : Bytes.ComesTo (List UInt8) anyCfg.dialect 0
      ([] ++ Session.heard (fixSessionNew anyCfg [] : Session (List UInt8)).rxBuffer [chars "8=FIX"]) w := second
  rw [heard] at second
  exact absurd (Nat.le_trans large second.suffix.length_le) (by decide)

/-- **The receiver wedges.** 2816 bytes without a `=` and there is no room left, for good. -/
theorem receiver_wedges :
    ∃ c : Call (List UInt8), c.before = fixSessionNew anyCfg [] ∧ c.sock = [List.replicate 2816 65] ∧
      c.ret = .nothing ∧ ¬ c.after.HasRoom c.flags ∧
      ∀ sock, (⟨c.after, sock, c.flags⟩ : Call (List UInt8)).ret = .nothing := by
  have incomplete : Bytes.Incomplete (List UInt8) anyCfg.dialect 0 (List.replicate 2816 65) :=
    Bytes.incomplete_no_tag (fun h => absurd (List.eq_of_mem_replicate h) (by decide))
  have fits : (List.replicate 2816 (65 : UInt8)).length = recvBufferSize - fixMaxMessageSize := List.length_replicate
  have receives := new_receives (F := List UInt8) anyCfg []
  have grows := new_outgrows (F := List UInt8) anyCfg [] 0 fits incomplete
  obtain ⟨ret, full, -⟩ := outgrown receives grows
  exact ⟨_, rfl, rfl, ret, full, outgrown_next receives grows⟩

end Session

end Libtrading.Fix
