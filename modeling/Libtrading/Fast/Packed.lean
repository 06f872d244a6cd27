import Libtrading.Fast.Place
import Libtrading.Fast.Session

/-!
# Sessions up to where their bytes lie

`buffer_compact` moves the unread bytes to the front of the memory, and a
receiver does so at any time. `packed` is the session with nothing but its
unread bytes in memory: making room does not change it, and a call does to it
what it does to the session.
-/

namespace Libtrading.Buffer
set_option autoImplicit false

/-- A buffer with nothing but unread bytes in it. -/
def holding (u : List UInt8) : Buffer := ⟨u, 0, u.length⟩

theorem holding_valid (u : List UInt8) : (holding u).Valid := ⟨Nat.zero_le _, Nat.le_refl _⟩

@[simp] theorem holding_unread (u : List UInt8) : (holding u).unread = u := by
  simp only [unread, holding, List.take_length, List.drop_zero]

theorem holding_receive (u x : List UInt8) : (holding u).receive x = holding (u ++ x) := by
  simp only [Buffer.receive, holding, List.take_length, List.length_append, List.drop_eq_nil_of_le (Nat.le_add_right _ _),
    List.append_nil]

/-- The place of the unread bytes in a buffer. -/
def place (b : Buffer) : Place := ⟨b.data, b.start⟩

/-- A buffer is its unread bytes, put where they lie. -/
theorem place_put {b : Buffer} (hv : b.Valid) : b.place.put (holding b.unread) = b := by
  have := hv.start_le
  have length := length_unread hv
  have stop : b.unread.length + b.start = b.stop := by omega
  simp only [Place.put, place, holding, Nat.zero_add, stop]

/-- They are there. -/
theorem place_holds {b : Buffer} (hv : b.Valid) : b.place.Holds (holding b.unread) where
  valid := holding_valid _
  same i _ inside := by
    have := hv.start_le
    have := hv.stop_le
    have length := length_unread hv
    have inside : i < b.unread.length := inside
    rw [place_put hv]
    simp only [byteAt, holding, place, unread, List.getD_eq_getElem?_getD, List.getElem?_drop]
    rw [List.getElem?_take_of_lt (by omega), Nat.add_comm]

namespace Place
variable {P : Place} {b : Buffer}

/-- The bytes of a buffer that is put are those of the buffer. -/
theorem put_unread (h : P.Holds b) (room : b.stop + P.offset ≤ P.data.length) : (P.put b).unread = b.unread := by
  have := h.valid.start_le
  have := h.valid.stop_le
  have valid : (P.put b).Valid := ⟨by simp only [put]; omega, room⟩
  refine List.ext_getElem? fun i => ?_
  by_cases inside : b.start + i < b.stop
  · have byte := h.same (b.start + i) (Nat.le_add_right _ _) inside
    simp only [byteAt, put, List.getD_eq_getElem?_getD] at byte
    rw [List.getElem?_eq_getElem (by omega), List.getElem?_eq_getElem (by omega)] at byte
    simp only [unread, put, List.getElem?_drop]
    rw [List.getElem?_take_of_lt (by omega), List.getElem?_take_of_lt inside, List.getElem?_eq_getElem (by omega),
      List.getElem?_eq_getElem (by omega)]
    simp only [Option.getD_some] at byte
    rw [← byte]
    simp only [show b.start + P.offset + i = b.start + i + P.offset by omega]
  · have length : (P.put b).unread.length = b.unread.length := by
      rw [length_unread valid, length_unread h.valid]
      simp only [put]
      omega
    have outside : b.unread.length ≤ i := by
      rw [length_unread h.valid]
      omega
    rw [List.getElem?_eq_none (by omega), List.getElem?_eq_none outside]

end Place

end Libtrading.Buffer

namespace Libtrading.Fast
set_option autoImplicit false
open Buffer

/-! ## A session apart from where its bytes lie -/

namespace Session

/-- The session with its buffer replaced by one that holds `u`. -/
def withBytes (s : Session) (u : List UInt8) : Session := { s with rxBuffer := Buffer.holding u }

/-- The session with its unread bytes at the front of a memory of their size. -/
def packed (s : Session) : Session := s.withBytes s.rxBuffer.unread

theorem Regular.withBytes {s : Session} (h : s.Regular) (u : List UInt8) : (s.withBytes u).Regular :=
  ⟨holding_valid u, h.regular⟩

theorem with_bytes_receive (s : Session) (u x : List UInt8) : (s.withBytes u).receive x = s.withBytes (u ++ x) := by
  simp only [withBytes, receive, Buffer.holding_receive]

/-- The session without its place receives like the one with it. -/
theorem packed_receive {s : Session} (hv : s.rxBuffer.Valid) (x : List UInt8) :
    (s.receive x).packed = s.packed.receive x := by
  rw [packed, packed, with_bytes_receive]
  simp only [receive, unread_receive hv, withBytes]

/-- Making room moves the bytes, and nothing else. -/
theorem packed_room {s : Session} (hv : s.rxBuffer.Valid) :
    ({ s with rxBuffer := roomMade s.rxBuffer } : Session).packed = s.packed := by
  simp only [packed, withBytes, (room_made hv).2.1]

end Session

def Decode.packed (d : Decode) : Decode := { d with session := d.session.packed }

/-- A call does the same with the bytes at the front of a memory. -/
theorem decode_packed {s : Session} (hs : s.Regular) : s.packed.fastMessageDecode.packed = s.fastMessageDecode.packed := by
  have regular := hs.withBytes s.rxBuffer.unread
  have holds := place_holds hs.valid
  have back : s.packed.placed s.rxBuffer.place = s := by
    have put := place_put hs.valid
    simp only [Session.placed, Session.packed, Session.withBytes, put]
  have moved := decode_moved regular
  have placed := decode_anywhere (P := s.rxBuffer.place) regular holds
  rw [show s.withBytes s.rxBuffer.unread = s.packed from rfl, back] at placed
  have room : s.packed.fastMessageDecode.session.rxBuffer.stop + s.rxBuffer.place.offset ≤ s.rxBuffer.place.data.length := by
    have stop : s.packed.fastMessageDecode.session.rxBuffer.stop = s.rxBuffer.unread.length := moved.stop
    have length := length_unread hs.valid
    have := hs.valid.start_le
    have := hs.valid.stop_le
    simp only [place]
    omega
  have unread : (s.rxBuffer.place.put s.packed.fastMessageDecode.session.rxBuffer).unread =
      s.packed.fastMessageDecode.session.rxBuffer.unread := Place.put_unread (holds.moved moved) room
  rw [placed]
  generalize s.packed.fastMessageDecode = d at unread
  simp only [Decode.packed, Decode.placed, Session.packed, Session.placed, unread]
  rfl

end Libtrading.Fast
