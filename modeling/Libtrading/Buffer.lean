import Mathlib.Algebra.Ring.Nat
import Mathlib.Algebra.Ring.Int.Defs
import Mathlib.Data.UInt

/-!
# `struct buffer`

The byte buffer every protocol parser of the library works on: a block of
memory with two indices, `start` (the next byte to read) and `stop` (the
source's `end`, one past the last received byte). Readers only move `start`;
`Moved` says so, and `unread` is what a reader can still see.
-/

namespace Libtrading

/-- `struct buffer`; `stop` is the source's `end`, and the capacity is the length of `data`. -/
structure Buffer where
  data : List UInt8
  start : Nat
  stop : Nat
  deriving DecidableEq, Repr

namespace Buffer

/-- `buffer_new`: fresh memory of `capacity` bytes, nothing received. -/
def bufferNew (capacity : Nat) : Buffer := ⟨List.replicate capacity 0, 0, 0⟩

def capacity (b : Buffer) : Nat := b.data.length

/-- The byte at an index of the buffer's memory. -/
def byteAt (b : Buffer) (i : Nat) : UInt8 := b.data.getD i 0

/-- `buffer_size`, an `unsigned long` difference. -/
def bufferSize (b : Buffer) : Nat :=
  if b.start ≤ b.stop then b.stop - b.start else 2 ^ 64 - (b.start - b.stop)

/-- `buffer_remaining`, an `unsigned long` difference. -/
def bufferRemaining (b : Buffer) : Nat :=
  if b.stop ≤ b.capacity then b.capacity - b.stop else 2 ^ 64 - (b.stop - b.capacity)

/-- `buffer_peek_8`. -/
def bufferPeek8 (b : Buffer) : UInt8 := b.byteAt b.start

/-- `buffer_get_8`. -/
def bufferGet8 (b : Buffer) : UInt8 × Buffer := (b.byteAt b.start, { b with start := b.start + 1 })

/-- `buffer_advance` by a non-negative distance. -/
def bufferAdvance (b : Buffer) (n : Nat) : Buffer := { b with start := b.start + n }

/-- `buffer_advance(buffer, start - buffer_start(buffer))`: back to a saved start. -/
def rewind (b : Buffer) (start : Nat) : Buffer := { b with start := start }

/-- `buffer_put`. -/
def bufferPut (b : Buffer) (byte : UInt8) : Buffer :=
  { b with data := b.data.set b.stop byte, stop := b.stop + 1 }

/-- `buffer_put` of one byte after the other; also what a printer stores at `end`, counted. -/
def bufferPuts (b : Buffer) (bytes : List UInt8) : Buffer := bytes.foldl bufferPut b

/-- What `sprintf` stores at `end`: the text, counted, and a zero behind it, not counted. -/
def bufferSprintf (b : Buffer) (text : List UInt8) : Buffer :=
  let b := b.bufferPuts text
  { b with data := b.data.set b.stop 0 }

/-- `buffer_sum_range` between two indices of a memory; `char` is signed, but the sum is taken
in a `u8`. -/
def bufferSumRange (data : List UInt8) (start stop : Nat) : UInt8 := ((data.take stop).drop start).sum

/-- `buffer_sum`. -/
def bufferSum (b : Buffer) : UInt8 := bufferSumRange b.data b.start b.stop

/-- The loop of `buffer_find`, which turns once for every unread byte at most. -/
def bufferFindFrom : Nat → Buffer → UInt8 → Bool × Buffer
  | 0, b, _ => (false, b)
  | n + 1, b, c => if b.bufferPeek8 = c then (true, b) else bufferFindFrom n (b.bufferAdvance 1) c

/-- `buffer_find`: whether the byte is there; then it is the next one to read. -/
def bufferFind (b : Buffer) (c : UInt8) : Bool × Buffer := bufferFindFrom b.bufferSize b c

/-- `buffer_reset`. -/
def bufferReset (b : Buffer) : Buffer := { b with start := 0, stop := 0 }

/-- `buffer_compact`: `memmove` of the unread bytes to the front. -/
def bufferCompact (b : Buffer) : Buffer :=
  let count := b.bufferSize
  { data := (b.data.drop b.start).take count ++ b.data.drop count, start := 0, stop := count }

/-- What a receive leaves in the buffer: the bytes stored at `end`, `end` advanced. -/
def receive (b : Buffer) (bytes : List UInt8) : Buffer :=
  { b with data := b.data.take b.stop ++ bytes ++ b.data.drop (b.stop + bytes.length),
           stop := b.stop + bytes.length }

/-- The received bytes not read yet. -/
def unread (b : Buffer) : List UInt8 := (b.data.take b.stop).drop b.start

/-- The indices are in order and inside the memory. -/
structure Valid (b : Buffer) : Prop where
  start_le : b.start ≤ b.stop
  stop_le : b.stop ≤ b.data.length

/-- Only `start` moved, forwards, and not past `end`. -/
structure Moved (b b' : Buffer) : Prop where
  data : b'.data = b.data
  stop : b'.stop = b.stop
  forward : b.start ≤ b'.start
  bounded : b'.start ≤ b.stop

theorem Valid.refl_moved {b : Buffer} (h : b.Valid) : b.Moved b := ⟨rfl, rfl, Nat.le_refl _, h.start_le⟩

theorem Moved.trans {a b c : Buffer} (h : a.Moved b) (h' : b.Moved c) : a.Moved c :=
  ⟨h'.data.trans h.data, h'.stop.trans h.stop, Nat.le_trans h.forward h'.forward, h.stop ▸ h'.bounded⟩

theorem Moved.valid {b b' : Buffer} (h : b.Moved b') (hv : b.Valid) : b'.Valid :=
  ⟨h.stop ▸ h.bounded, by rw [h.data, h.stop]; exact hv.stop_le⟩

/-- A reader that only moved `start` is undone by going back to the saved start. -/
theorem Moved.rewind_eq {b b' : Buffer} (h : b.Moved b') : b'.rewind b.start = b := by
  obtain ⟨data, start, stop⟩ := b
  obtain ⟨data', start', stop'⟩ := b'
  obtain ⟨rfl, rfl, -, -⟩ := h
  rfl

@[simp] theorem rewind_start (b : Buffer) : b.rewind b.start = b := rfl

@[simp] theorem receive_start (b : Buffer) (x : List UInt8) : (b.receive x).start = b.start := rfl

@[simp] theorem receive_stop (b : Buffer) (x : List UInt8) : (b.receive x).stop = b.stop + x.length := rfl

theorem Valid.size_eq {b : Buffer} (h : b.Valid) : b.bufferSize = b.stop - b.start := if_pos h.start_le

theorem Valid.receive {b : Buffer} (h : b.Valid) (x : List UInt8) : (b.receive x).Valid := by
  have := h.start_le
  have := h.stop_le
  refine ⟨by simp only [receive_start, receive_stop]; omega, ?_⟩
  simp only [Buffer.receive, List.length_append, List.length_take, List.length_drop]
  omega

theorem receive_nil (b : Buffer) : b.receive [] = b := by
  simp [receive]

/-- Receiving twice is receiving once. -/
theorem Valid.receive_receive {b : Buffer} (h : b.Valid) (x y : List UInt8) :
    (b.receive x).receive y = b.receive (x ++ y) := by
  have hl : (b.data.take b.stop).length = b.stop := by
    have := h.stop_le
    rw [List.length_take]
    omega
  have front : (b.data.take b.stop ++ x ++ b.data.drop (b.stop + x.length)).take (b.stop + x.length) =
      b.data.take b.stop ++ x := List.take_left' (by rw [List.length_append, hl])
  have back : (b.data.take b.stop ++ x ++ b.data.drop (b.stop + x.length)).drop (b.stop + x.length + y.length) =
      b.data.drop (b.stop + x.length + y.length) := by
    rw [← List.drop_drop, List.drop_left' (by rw [List.length_append, hl]), List.drop_drop]
  simp only [Buffer.receive]
  rw [front, back]
  simp only [List.append_assoc, List.length_append, Nat.add_assoc]

theorem byteAt_receive {b : Buffer} (h : b.Valid) {i : Nat} (hi : i < b.stop) (x : List UInt8) :
    (b.receive x).byteAt i = b.byteAt i := by
  have := h.stop_le
  simp only [byteAt, Buffer.receive, List.getD_eq_getElem?_getD, List.append_assoc]
  rw [List.getElem?_append_left (by rw [List.length_take]; omega), List.getElem?_take_of_lt hi]

/-- What is received into the room there is leaves the memory its size. -/
theorem receive_size {b : Buffer} {x : List UInt8} (room : b.stop + x.length ≤ b.data.length) :
    (b.receive x).data.length = b.data.length := by
  simp only [Buffer.receive, List.length_append, List.length_take, List.length_drop]
  omega

@[simp] theorem length_unread {b : Buffer} (h : b.Valid) : b.unread.length = b.stop - b.start := by
  have := h.stop_le
  simp only [unread, List.length_drop, List.length_take]
  omega

theorem unread_receive {b : Buffer} (h : b.Valid) (x : List UInt8) :
    (b.receive x).unread = b.unread ++ x := by
  have hs := h.start_le
  have hl := h.stop_le
  have ht : (b.receive x).data.take (b.receive x).stop = b.data.take b.stop ++ x := by
    simp only [Buffer.receive]
    rw [List.take_append_of_le_length (by rw [List.length_append, List.length_take]; omega),
      List.take_of_length_le (by rw [List.length_append, List.length_take]; omega)]
  rw [unread, ht, receive_start, List.drop_append_of_le_length (by rw [List.length_take]; omega)]
  rfl

/-- Compaction keeps the unread bytes and the memory's size; they end where they are many. -/
theorem Valid.compact {b : Buffer} (h : b.Valid) :
    b.bufferCompact.Valid ∧ b.bufferCompact.unread = b.unread ∧ b.bufferCompact.data.length = b.data.length ∧
      b.bufferCompact.stop = b.unread.length := by
  have hs := h.start_le
  have hl := h.stop_le
  have front : ((b.data.drop b.start).take (b.stop - b.start)) = b.unread := by rw [unread, List.drop_take]
  have count := length_unread h
  simp only [bufferCompact, h.size_eq, front]
  refine ⟨⟨Nat.zero_le _, ?_⟩, ?_, ?_, count.symm⟩
  · simp only [List.length_append, List.length_drop]
    omega
  · rw [unread, List.drop_zero, List.take_left' count]
  · simp only [List.length_append, List.length_drop]
    omega

theorem unread_eq_nil {b : Buffer} (h : b.Valid) : b.unread = [] ↔ b.start = b.stop := by
  have := h.start_le
  rw [← List.length_eq_zero_iff, length_unread h]
  omega

/-- With a byte left, the unread bytes are that byte and what follows it. -/
theorem unread_cons {b : Buffer} (h : b.Valid) (hs : b.start < b.stop) :
    b.unread = b.byteAt b.start :: (b.bufferAdvance 1).unread := by
  have hl := h.stop_le
  have hlt : b.start < (b.data.take b.stop).length := by rw [List.length_take]; omega
  rw [unread, List.drop_eq_getElem_cons hlt]
  simp only [byteAt, bufferAdvance, unread, List.getElem_take, List.getD_eq_getElem?_getD]
  rw [List.getElem?_eq_getElem (by omega)]
  rfl

/-- What is unread after some of it was read. -/
theorem unread_advance {b : Buffer} (h : b.Valid) {w rest : List UInt8} (hu : b.unread = w ++ rest) :
    (b.bufferAdvance w.length).Valid ∧ (b.bufferAdvance w.length).unread = rest := by
  have hl := length_unread h
  rw [hu, List.length_append] at hl
  have := h.start_le
  refine ⟨⟨?_, h.stop_le⟩, ?_⟩
  · simp only [bufferAdvance]
    omega
  · have moved : (b.bufferAdvance w.length).unread = b.unread.drop w.length := by
      simp only [unread, bufferAdvance, List.drop_drop]
    rw [moved, hu, List.drop_left]

/-- The bytes that are unread first stand in the array from `start` on. -/
theorem take_unread {b : Buffer} (h : b.Valid) {w rest : List UInt8} (hu : b.unread = w ++ rest) :
    (b.data.drop b.start).take w.length = w := by
  have hl := length_unread h
  rw [hu, List.length_append] at hl
  have front : (b.data.drop b.start).take w.length = b.unread.take w.length := by
    rw [unread, List.drop_take, List.take_take, Nat.min_eq_left (by omega)]
  rw [front, hu, List.take_left]

theorem advance_advance (b : Buffer) (m n : Nat) :
    (b.bufferAdvance m).bufferAdvance n = b.bufferAdvance (m + n) := by
  simp only [bufferAdvance, Nat.add_assoc]

/-- Some bytes were put behind the unread ones. -/
structure Appends (b b' : Buffer) (w : List UInt8) : Prop where
  valid : b'.Valid
  unread : b'.unread = b.unread ++ w

theorem Valid.appends_nil {b : Buffer} (h : b.Valid) : b.Appends b [] := ⟨h, (List.append_nil _).symm⟩

theorem Appends.trans {a b c : Buffer} {w w' : List UInt8} (h : a.Appends b w) (h' : b.Appends c w') :
    a.Appends c (w ++ w') := ⟨h'.valid, by rw [h'.unread, h.unread, List.append_assoc]⟩

theorem Valid.remaining_eq {b : Buffer} (h : b.Valid) : b.bufferRemaining = b.data.length - b.stop :=
  if_pos h.stop_le

theorem put_appends {b : Buffer} (h : b.Valid) (room : 0 < b.bufferRemaining) (c : UInt8) :
    b.Appends (b.bufferPut c) [c] := by
  rw [h.remaining_eq] at room
  have := h.start_le
  refine ⟨⟨?_, ?_⟩, ?_⟩
  · simp only [bufferPut]
    omega
  · simp only [bufferPut, List.length_set]
    omega
  · have inside : b.stop < (b.data.set b.stop c).length := by rw [List.length_set]; omega
    have stored : (b.data.set b.stop c).take (b.stop + 1) = b.data.take b.stop ++ [c] := by
      rw [List.take_succ_eq_append_getElem inside, List.getElem_set_self, List.take_set_of_le (Nat.le_refl _)]
    simp only [unread, bufferPut, stored]
    rw [List.drop_append_of_le_length (by rw [List.length_take]; omega)]

theorem put_remaining {b : Buffer} (h : b.Valid) (room : 0 < b.bufferRemaining) (c : UInt8) :
    (b.bufferPut c).bufferRemaining = b.bufferRemaining - 1 := by
  rw [(put_appends h room c).valid.remaining_eq, h.remaining_eq]
  simp only [bufferPut, List.length_set]
  omega

end Buffer

end Libtrading
