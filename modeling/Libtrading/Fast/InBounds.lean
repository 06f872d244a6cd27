import Libtrading.Fast.Place
import Libtrading.Fast.Session

/-!
# The decoder reads received bytes only

Over every state that a receiver can bring a session into, by receiving,
making room, decoding and resetting in any order: a call of
`fast_message_decode` moves `start` only, forwards and not past `end`, and does
the same whatever the memory holds outside of `[start, end)`.
-/

namespace Libtrading.Fast
set_option autoImplicit false
open Buffer

/-- The states of a session opened with some templates: bytes are received into the room there is, room
is made, messages are decoded and the dictionaries are reset. -/
inductive Reached (preambleBytes : Nat) (ts : List Template) : Session → Prop
  | opened : Reached preambleBytes ts (newSession preambleBytes ts)
  | received {s : Session} (x : List UInt8) (room : s.rxBuffer.stop + x.length ≤ s.rxBuffer.capacity) :
    Reached preambleBytes ts s → Reached preambleBytes ts (s.receive x)
  | compacted {s : Session} :
    Reached preambleBytes ts s → Reached preambleBytes ts { s with rxBuffer := s.rxBuffer.bufferCompact }
  | decoded {s : Session} : Reached preambleBytes ts s → Reached preambleBytes ts s.fastMessageDecode.session
  | reset {s : Session} : Reached preambleBytes ts s → Reached preambleBytes ts s.fastSessionReset

section Reached
variable {preambleBytes : Nat} {ts : List Template} {s : Session}

/-- The invariant: regular fields, a valid buffer, and its memory of the size it was allocated with. -/
theorem Reached.regular (h : Reached preambleBytes ts s) :
    s.Regular ∧ s.rxBuffer.capacity = recvBufferSize := by
  induction h with
  | opened => exact ⟨new_session_regular preambleBytes ts, List.length_replicate ..⟩
  | received x room _ ih => exact ⟨ih.1.receive x, (receive_size room).trans ih.2⟩
  | compacted _ ih =>
    obtain ⟨valid, _, size, _⟩ := ih.1.valid.compact
    exact ⟨⟨valid, ih.1.regular⟩, size.trans ih.2⟩
  | decoded _ ih => exact ⟨decode_regular ih.1, (congrArg List.length (decode_moved ih.1).data).trans ih.2⟩
  | reset _ ih => exact ⟨ih.1.reset, ih.2⟩

theorem Reached.room_made (h : Reached preambleBytes ts s) :
    Reached preambleBytes ts { s with rxBuffer := roomMade s.rxBuffer } := by
  unfold roomMade
  split
  · exact h.compacted
  · exact h

/-- `fast_session_recv` goes through these states. -/
theorem Reached.recv (h : Reached preambleBytes ts s) (sock : List UInt8) :
    Reached preambleBytes ts (s.fastSessionRecv sock).session := by
  have made := h.decoded.room_made
  simp only [Session.fastSessionRecv]
  split
  · exact h.decoded
  · split
    · exact made
    · exact (made.received _ (heard_room made.regular.1.valid sock)).decoded

end Reached

/-- The session over another memory, with the same `start` and `end`. -/
def Session.withMemory (s : Session) (memory : List UInt8) : Session :=
  { s with rxBuffer := { s.rxBuffer with data := memory } }

/-- A call that keeps to the received bytes. -/
structure InBounds (s : Session) : Prop where
  data : s.fastMessageDecode.session.rxBuffer.data = s.rxBuffer.data
  stop : s.fastMessageDecode.session.rxBuffer.stop = s.rxBuffer.stop
  forward : s.rxBuffer.start ≤ s.fastMessageDecode.session.rxBuffer.start
  start_le : s.fastMessageDecode.session.rxBuffer.start ≤ s.fastMessageDecode.session.rxBuffer.stop
  stop_le : s.fastMessageDecode.session.rxBuffer.stop ≤ s.fastMessageDecode.session.rxBuffer.capacity
  /-- What is outside of the received bytes, and whether there is anything, makes no difference. -/
  sees : ∀ memory : List UInt8,
    (∀ i, s.rxBuffer.start ≤ i → i < s.rxBuffer.stop → memory.getD i 0 = s.rxBuffer.byteAt i) →
      (s.withMemory memory).fastMessageDecode =
        { s.fastMessageDecode with session := s.fastMessageDecode.session.withMemory memory }

/-- **In bounds.** Every call of `fast_message_decode` on a session that was reached keeps to the bytes that
were received. -/
theorem decode_in_bounds (preambleBytes : Nat) (ts : List Template) (s : Session) (h : Reached preambleBytes ts s) :
    InBounds s := by
  obtain ⟨regular, -⟩ := h.regular
  have moved := decode_moved regular
  have valid := moved.valid regular.valid
  refine ⟨moved.data, moved.stop, moved.forward, valid.start_le, valid.stop_le, fun memory same => ?_⟩
  have holds : Place.Holds ⟨memory, 0⟩ s.rxBuffer := ⟨regular.valid, same⟩
  exact decode_anywhere regular holds

/-- A message of a template with a sequence, cut in the sequence and decoded over again. -/
theorem levels_in_bounds :
    InBounds (((newSession 0 [levelsTemplate .copy]).receive [0xD0, 0x81, 0x85]).fastMessageDecode.session.receive [0x86]) :=
  decode_in_bounds 0 [levelsTemplate .copy] _
    (.received [0x86] (by decide +kernel) (.decoded (.received [0xD0, 0x81, 0x85] (by decide +kernel) .opened)))

end Libtrading.Fast
