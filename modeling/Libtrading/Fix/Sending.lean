import Libtrading.Fix.Session

/-!
# Outgoing sequence numbers

`fix_session_send` numbers a message with `out_msg_seq_num`, or, sent with
`FIX_SEND_FLAG_PRESERVE_MSG_NUM`, leaves it the number it has. The flags of
sending and receiving share one word, and the test of that one flag is the
logical and of C, which any flag passes; `allotted_once_iff` says for which
runs of sends this makes no difference.
-/

namespace Libtrading.Fix
set_option autoImplicit false
universe u

/-- Whether the flags of a send have `FIX_SEND_FLAG_PRESERVE_MSG_NUM` among them. -/
def preservesMsgNum (flags : U64) : Bool := flags &&& preserveMsgNum != 0

/-- A call of `fix_session_send`. -/
structure Send (F : Type u) where
  msg : FixMessage F
  flags : U64

/-- A call that was made: the message as it was sent, and the counter behind it. -/
structure Sent (F : Type u) where
  call : Send F
  msg : FixMessage F
  counter : U64

/-- A call that is to take a number off the counter. -/
def Send.numbers {F : Type u} (x : Send F) : Bool := !preservesMsgNum x.flags

namespace Session
variable {F : Type u} [Doubles F]

/-- The calls one after the other. -/
def sendRun (s : Session F) : List (Send F) → List (Sent F)
  | [] => []
  | x :: xs =>
    let r := s.fixSessionSend x.msg x.flags
    ⟨x, r.2, r.1.outMsgSeqNum⟩ :: r.1.sendRun xs

end Session

variable {F : Type u}

/-- The counter behind each of the calls, one further for every call that numbers its message. -/
def countersDue (out : U64) : List (Send F) → List U64
  | [] => []
  | x :: xs => (if x.numbers then out + 1 else out) :: countersDue (if x.numbers then out + 1 else out) xs

/-- `count` numbers from `first` on. -/
def numbersFrom (first : U64) (count : Nat) : List U64 := (List.range count).map fun i => first + .ofNat 64 i

/-- Every number is allotted once: the messages sent without the flag have the numbers from the counter on,
in order; those sent with it have their own; and the counter moves on for the former only. -/
structure AllottedOnce [Doubles F] (s : Session F) (calls : List (Send F)) : Prop where
  consecutive : ((s.sendRun calls).filter fun x => x.call.numbers).map (fun x => x.msg.msgSeqNum) =
    numbersFrom s.outMsgSeqNum (calls.countP Send.numbers)
  kept : ∀ x ∈ s.sendRun calls, x.call.numbers = false → x.msg.msgSeqNum = x.call.msg.msgSeqNum
  counter : (s.sendRun calls).map Sent.counter = countersDue s.outMsgSeqNum calls

/-- A flag word that the test of the flag takes for what it is. -/
def Send.Plain (x : Send F) : Prop := x.flags = 0 ∨ x.numbers = false

theorem numbers_from_succ (first : U64) (count : Nat) :
    numbersFrom first (count + 1) = first :: numbersFrom (first + 1) count := by
  have next : ∀ i : Nat, first + .ofNat 64 (i + 1) = first + 1 + .ofNat 64 i := by
    intro i
    rw [BitVec.add_assoc, BitVec.ofNat_add, BitVec.add_comm 1]
    rfl
  rw [numbersFrom, List.range_succ_eq_map, List.map_cons, List.map_map, numbersFrom]
  congr 1
  · exact BitVec.add_zero first
  · exact List.map_congr_left fun i _ => next i

section
variable [Doubles F] {s : Session F}

/-- Without flags the message gets the counter's number, and the counter moves on. -/
theorem send_numbered (msg : FixMessage F) :
    (s.fixSessionSend msg 0).2.msgSeqNum = s.outMsgSeqNum ∧
      (s.fixSessionSend msg 0).1.outMsgSeqNum = s.outMsgSeqNum + 1 := by
  simp only [Session.fixSessionSend, Session.numbered, if_true, and_self]

/-- With any flag it keeps its own, and the counter stays. -/
theorem send_preserved (msg : FixMessage F) {flags : U64} (some : flags ≠ 0) :
    (s.fixSessionSend msg flags).2.msgSeqNum = msg.msgSeqNum ∧
      (s.fixSessionSend msg flags).1.outMsgSeqNum = s.outMsgSeqNum := by
  simp only [Session.fixSessionSend, Session.numbered, if_neg some, and_self]

omit [Doubles F] in
theorem numbers_zero (msg : FixMessage F) : (⟨msg, 0⟩ : Send F).numbers = true := by
  simp only [Send.numbers, preservesMsgNum]
  decide

omit [Doubles F] in
theorem preserving_some {x : Send F} (h : x.numbers = false) : x.flags ≠ 0 := by
  intro zero
  obtain ⟨msg, flags⟩ := x
  subst zero
  rw [numbers_zero] at h
  cases h

/-- **One send.** The counter behind a call is as due exactly where the flags are plain. -/
theorem counter_due {x : Send F} :
    (s.fixSessionSend x.msg x.flags).1.outMsgSeqNum = (if x.numbers then s.outMsgSeqNum + 1 else s.outMsgSeqNum) ↔
      x.Plain := by
  obtain ⟨msg, flags⟩ := x
  by_cases zero : flags = 0
  · subst zero
    refine ⟨fun _ => .inl rfl, fun _ => ?_⟩
    rw [if_pos (numbers_zero msg)]
    exact (send_numbered msg).2
  · rw [(send_preserved msg zero).2]
    cases number : (⟨msg, flags⟩ : Send F).numbers with
    | false => exact ⟨fun _ => .inr number, fun _ => rfl⟩
    | true =>
      refine ⟨fun same => ?_, fun plain => ?_⟩
      · rw [if_pos rfl] at same
        have toNat := congrArg BitVec.toNat same
        rw [BitVec.toNat_add] at toNat
        have := s.outMsgSeqNum.isLt
        have one : (1 : U64).toNat = 1 := rfl
        omega
      · rcases plain with none | preserves
        · exact absurd none zero
        · rw [number] at preserves
          cases preserves

/-- **One send** with plain flags, in front of a run that allots every number once. -/
theorem allotted_cons {x : Send F} {xs : List (Send F)} (plain : x.Plain)
    (rest : AllottedOnce (s.fixSessionSend x.msg x.flags).1 xs) : AllottedOnce s (x :: xs) := by
  have due := (counter_due (s := s)).2 plain
  have counter : (s.sendRun (x :: xs)).map Sent.counter = countersDue s.outMsgSeqNum (x :: xs) := by
    rw [Session.sendRun, List.map_cons, rest.counter, due, countersDue]
  rcases plain with zero | preserves
  · obtain ⟨msg, flags⟩ := x
    obtain rfl : flags = 0 := zero
    obtain ⟨number, next⟩ := send_numbered (s := s) msg
    refine ⟨?_, ?_, counter⟩
    · rw [Session.sendRun, List.filter_cons_of_pos (by exact numbers_zero msg), List.map_cons, rest.consecutive,
        List.countP_cons_of_pos (numbers_zero msg), numbers_from_succ, number, next]
    · intro y hy preserves
      rcases List.mem_cons.1 hy with rfl | later
      · rw [numbers_zero] at preserves
        cases preserves
      · exact rest.kept y later preserves
  · have own := send_preserved (s := s) x.msg (preserving_some preserves)
    have not : ¬x.numbers = true := by rw [preserves]; exact Bool.false_ne_true
    refine ⟨?_, ?_, counter⟩
    · rw [Session.sendRun, List.filter_cons_of_neg (by exact not), rest.consecutive, List.countP_cons_of_neg not, own.2]
    · intro y hy _
      rcases List.mem_cons.1 hy with rfl | later
      · exact own.1
      · rename_i preserves'
        exact rest.kept y later preserves'

/-- Where all counters are as due, all flags are plain. -/
theorem counters_plain {s : Session F} {calls : List (Send F)}
    (h : (s.sendRun calls).map Sent.counter = countersDue s.outMsgSeqNum calls) : ∀ x ∈ calls, x.Plain := by
  induction calls generalizing s with
  | nil => exact fun x hx => absurd hx List.not_mem_nil
  | cons x xs ih =>
    rw [Session.sendRun, List.map_cons, countersDue] at h
    obtain ⟨first, rest⟩ := List.cons.inj h
    have first : (s.fixSessionSend x.msg x.flags).1.outMsgSeqNum = _ := first
    rw [← first] at rest
    intro y hy
    rcases List.mem_cons.1 hy with rfl | later
    · exact counter_due.1 first
    · exact ih rest y later

/-- **Outgoing numbers.** A run of sends allots every number once exactly where each call has no flags or
has the flag that preserves the number among them. -/
theorem allotted_once_iff (s : Session F) (calls : List (Send F)) :
    AllottedOnce s calls ↔ ∀ x ∈ calls, x.flags = 0 ∨ preservesMsgNum x.flags = true := by
  have plain (x : Send F) : (x.flags = 0 ∨ preservesMsgNum x.flags = true) ↔ x.Plain := by
    rw [Send.Plain, Send.numbers, Bool.not_eq_false']
  simp only [plain]
  constructor
  · exact fun allotted => counters_plain allotted.counter
  · intro all
    induction calls generalizing s with
    | nil => exact ⟨rfl, fun x hx => absurd hx List.not_mem_nil, rfl⟩
    | cons x xs ih =>
      exact allotted_cons (all x List.mem_cons_self) (ih _ fun y hy => all y (List.mem_cons_of_mem x hy))

end

/-- A new session for a counterparty. -/
def sendingSession : Session (List UInt8) :=
  fixSessionNew ⟨chars "A", chars "B", ⟨.fix44, fixTagType⟩, 0, 5⟩ []

/-- A Heartbeat, as the caller fills it in. -/
def plainHeartbeat : FixMessage (List UInt8) := FixMessage.init .heartbeat []

/-- A Heartbeat, a gap fill with the number 2, and a Heartbeat again. -/
theorem gap_fill_between :
    AllottedOnce sendingSession
      [⟨plainHeartbeat, 0⟩, ⟨{ FixMessage.init .sequenceReset [] with msgSeqNum := 2 }, preserveMsgNum⟩, ⟨plainHeartbeat, 0⟩] :=
  (allotted_once_iff sendingSession _).2 (by decide)

/-- A message sent with `FIX_SEND_FLAG_PRESERVE_BUFFER` alone takes no number. -/
theorem buffer_flag_not_numbered : ¬AllottedOnce sendingSession [⟨plainHeartbeat, preserveBuffer⟩] := by
  intro allotted
  have plain := counters_plain allotted.counter _ List.mem_cons_self
  rcases plain with none | preserves
  · exact absurd none (by decide)
  · exact absurd preserves (by decide)

end Libtrading.Fix
