import Libtrading.Buffer
import Libtrading.Wire.Decimal
import Libtrading.Wire.Frames

/-!
# OUCH 4.2

A message is as long as the `struct` of its type. The decoders read the type with `buffer_get_8`, which consumes
it, copy the message from where the type was, and advance by the whole length: each call consumes one byte more
than the message has, and one that fails has consumed a byte as well.
-/

namespace Libtrading.Ouch42
open Buffer Wire
set_option autoImplicit false

/-- The bytes of a `struct` that is packed, field by field. -/
def sizeof (fields : List Nat) : Nat := fields.sum

/-- `ouch42_in_message_size`. -/
def ouch42InMessageSize (type : UInt8) : Nat :=
  if type = 'O'.toNat.toUInt8 then sizeof [1, 14, 1, 4, 8, 4, 4, 4, 1, 1, 1, 4, 1]
  else if type = 'U'.toNat.toUInt8 then sizeof [1, 14, 14, 4, 4, 4, 1, 1, 4]
  else if type = 'X'.toNat.toUInt8 then sizeof [1, 14, 4]
  else if type = 'M'.toNat.toUInt8 then sizeof [1, 14, 1, 4]
  else 0

/-- `ouch42_out_message_size`. -/
def ouch42OutMessageSize (type : UInt8) : Nat :=
  if type = 'S'.toNat.toUInt8 then sizeof [1, 8, 1]
  else if type = 'A'.toNat.toUInt8 then sizeof [1, 8, 14, 1, 4, 8, 4, 4, 4, 1, 8, 1, 1, 4, 1, 1, 1]
  else if type = 'U'.toNat.toUInt8 then sizeof [1, 8, 14, 1, 4, 8, 4, 4, 4, 1, 8, 1, 1, 4, 1, 1, 14, 1]
  else if type = 'C'.toNat.toUInt8 then sizeof [1, 8, 14, 4, 1]
  else if type = 'D'.toNat.toUInt8 then sizeof [1, 8, 14, 4, 1, 4, 4, 1]
  else if type = 'E'.toNat.toUInt8 then sizeof [1, 8, 14, 4, 4, 1, 8]
  else if type = 'B'.toNat.toUInt8 then sizeof [1, 8, 14, 8, 1]
  else if type = 'J'.toNat.toUInt8 then sizeof [1, 8, 14, 1]
  else if type = 'P'.toNat.toUInt8 then sizeof [1, 8, 14]
  else if type = 'I'.toNat.toUInt8 then sizeof [1, 8, 14]
  else if type = 'T'.toNat.toUInt8 then sizeof [1, 8, 14, 4, 1, 8]
  else if type = 'M'.toNat.toUInt8 then sizeof [1, 8, 14, 1, 4]
  else 0

/-- The body of both decoders, with the table of sizes. -/
def messageDecode (messageSize : UInt8 → Nat) (b : Buffer) : Option (List UInt8) × Buffer :=
  let start := b.start
  let r := b.bufferGet8
  let size := messageSize r.1
  if size = 0 then (none, r.2) else (some ((r.2.data.drop start).take size), r.2.bufferAdvance size)

/-- `ouch42_in_message_decode`. -/
def ouch42InMessageDecode (b : Buffer) : Option (List UInt8) × Buffer := messageDecode ouch42InMessageSize b

/-- `ouch42_out_message_decode`. -/
def ouch42OutMessageDecode (b : Buffer) : Option (List UInt8) × Buffer := messageDecode ouch42OutMessageSize b

/-! ## What is asked of them -/

/-- The bytes of a message: a type of the table, and as many bytes as it says. -/
structure IsMessage (messageSize : UInt8 → Nat) (m : List UInt8) : Prop where
  some : m ≠ []
  supported : messageSize (m.headD 0) ≠ 0
  size : m.length = messageSize (m.headD 0)

/-- Calls on a row of messages return each of them and consume its bytes, and at the end all are consumed. -/
structure DecodesRow (decode : Buffer → Option (List UInt8) × Buffer) (b : Buffer) (ms : List (List UInt8)) : Prop where
  returned : (calls decode ms.length b).1 = ms.map some
  consumed : ∀ i ≤ ms.length, (calls decode i b).2 = b.bufferAdvance (ms.take i).flatten.length
  empty : (calls decode ms.length b).2.start = (calls decode ms.length b).2.stop

/-- A call that keeps to the unread bytes, whatever the memory holds behind them, and that leaves the buffer as it
was where it fails. -/
structure KeepsTo (decode : Buffer → Option (List UInt8) × Buffer) (b : Buffer) : Prop where
  failed : (decode b).1 = none → (decode b).2 = b
  reads : ∀ memory, memory.take b.stop = b.data.take b.stop →
    (decode { b with data := memory }).1 = (decode b).1 ∧ (decode { b with data := memory }).2.start = (decode b).2.start

section
variable {messageSize : UInt8 → Nat} {b : Buffer}

/-- A call that fails has consumed the type. -/
theorem failed_advanced (unsupported : messageSize (b.byteAt b.start) = 0) :
    messageDecode messageSize b = (none, b.bufferAdvance 1) := if_pos unsupported

/-- A call that does not fail consumes the type, and the whole message behind it. -/
theorem decoded (supported : messageSize (b.byteAt b.start) ≠ 0) : messageDecode messageSize b =
    (some ((b.data.drop b.start).take (messageSize (b.byteAt b.start))),
      b.bufferAdvance (1 + messageSize (b.byteAt b.start))) :=
  (if_neg supported).trans (congrArg (Prod.mk _) (advance_advance b 1 _))

/-- **A row of messages** is decoded message by message if and only if there is none in it. -/
theorem decodes_row_iff (hv : b.Valid) {ms : List (List UInt8)} (messages : ∀ m ∈ ms, IsMessage messageSize m)
    (row : b.unread = ms.flatten) : DecodesRow (messageDecode messageSize) b ms ↔ ms = [] := by
  constructor
  · intro decodes
    cases ms with
    | nil => rfl
    | cons m ms =>
      obtain ⟨some, supported, size⟩ := messages m List.mem_cons_self
      have length := length_unread hv
      rw [row, List.flatten_cons, List.length_append] at length
      have pos := List.length_pos_iff.2 some
      have first : b.byteAt b.start = m.headD 0 := by
        have cons := unread_cons hv (by omega)
        rw [row, List.flatten_cons] at cons
        cases m with
        | nil => exact absurd rfl some
        | cons c m => exact (List.cons.inj cons).1.symm
      have one := decodes.consumed 1 (Nat.succ_le_succ (Nat.zero_le _))
      simp only [calls, List.take_succ_cons, List.take_zero, List.flatten_cons, List.flatten_nil, List.append_nil] at one
      rw [decoded (first ▸ supported), first, ← size] at one
      have starts := congrArg Buffer.start one
      simp only [bufferAdvance] at starts
      omega
  · rintro rfl
    refine ⟨rfl, fun i hi => ?_, (unread_eq_nil hv).1 row⟩
    rw [List.length_nil, Nat.le_zero] at hi
    subst hi
    rfl

/-- Bytes in front of `stop` are those of every memory that agrees there. -/
theorem taken_same {memory data : List UInt8} {start size stop : Nat} (same : memory.take stop = data.take stop)
    (inside : start + size ≤ stop) : (memory.drop start).take size = (data.drop start).take size := by
  have front (w : List UInt8) : (w.drop start).take size = ((w.take stop).drop start).take size := by
    rw [List.drop_take, List.take_take, Nat.min_eq_left (by omega)]
  rw [front, front data, same]

theorem byte_same {memory data : List UInt8} {i stop : Nat} (same : memory.take stop = data.take stop)
    (inside : i < stop) : memory.getD i 0 = data.getD i 0 := by
  rw [List.getD_eq_getElem?_getD, List.getD_eq_getElem?_getD, ← List.getElem?_take_of_lt inside, same,
    List.getElem?_take_of_lt inside]

/-- **A call** keeps to the buffer if and only if a whole message of a supported type is there. -/
theorem keeps_to_iff (hv : b.Valid) (other : messageSize 0 = 0) : KeepsTo (messageDecode messageSize) b ↔
    b.start < b.stop ∧ messageSize (b.byteAt b.start) ≠ 0 ∧ messageSize (b.byteAt b.start) ≤ b.stop - b.start := by
  have start := hv.start_le
  have stop := hv.stop_le
  constructor
  · rintro ⟨failed, reads⟩
    have supported : messageSize (b.byteAt b.start) ≠ 0 := by
      intro unsupported
      have advanced := failed_advanced unsupported
      have same := failed (congrArg Prod.fst advanced)
      rw [advanced] at same
      have starts := congrArg Buffer.start same
      simp only [bufferAdvance] at starts
      omega
    have front : (b.data.take b.stop).length = b.stop := by rw [List.length_take]; omega
    have some : b.start < b.stop := by
      by_contra none
      -- behind an empty buffer there may be a zero as well
      have zero := (reads (b.data.take b.stop ++ [0]) (List.take_left' front)).1
      have byte : ({ b with data := b.data.take b.stop ++ [0] } : Buffer).byteAt b.start = 0 := by
        rw [byteAt, List.getD_eq_getElem?_getD, List.getElem?_append_right (by omega),
          show b.start - (b.data.take b.stop).length = 0 by omega]
        rfl
      have fails := failed_advanced (b := { b with data := b.data.take b.stop ++ [0] }) (byte.symm ▸ other)
      rw [decoded supported, fails] at zero
      cases zero
    refine ⟨some, supported, ?_⟩
    by_contra long
    -- a message that goes on behind the buffer is copied from there
    have copied (memory : List UInt8) (same : memory.take b.stop = b.data.take b.stop) :
        (memory.drop b.start).take (messageSize (b.byteAt b.start)) =
          (b.data.drop b.start).take (messageSize (b.byteAt b.start)) := by
      have byte : ({ b with data := memory } : Buffer).byteAt b.start = b.byteAt b.start := byte_same same some
      have read := (reads memory same).1
      rw [decoded supported, decoded (b := { b with data := memory }) (byte.symm ▸ supported), byte] at read
      exact Option.some.inj read
    have short := congrArg List.length (copied (b.data.take b.stop) (List.take_of_length_le (by omega)))
    have longer := congrArg List.length (copied (b.data.take b.stop ++ [0]) (List.take_left' front))
    rw [← short] at longer
    simp only [List.length_take, List.length_drop, List.length_append, List.length_singleton] at longer
    omega
  · rintro ⟨some, supported, size⟩
    constructor
    · intro none
      rw [decoded supported] at none
      cases none
    · intro memory same
      have byte : ({ b with data := memory } : Buffer).byteAt b.start = b.byteAt b.start := byte_same same some
      have read := decoded (b := { b with data := memory }) (byte.symm ▸ supported)
      have copied : (memory.drop b.start).take (messageSize (b.byteAt b.start)) =
          (b.data.drop b.start).take (messageSize (b.byteAt b.start)) := taken_same same (by omega)
      rw [read, decoded supported, byte]
      exact ⟨congrArg Option.some copied, rfl⟩

end

/-- **OUCH 4.2.** Inbound and outbound, a row of messages is decoded message by message if and only if it is empty,
and a call keeps to its buffer if and only if a whole message of a supported type is there. -/
theorem decodes_rows_iff {b c : Buffer} (hb : b.Valid) (hc : c.Valid) {ins outs : List (List UInt8)}
    (inbound : ∀ m ∈ ins, IsMessage ouch42InMessageSize m) (inRow : b.unread = ins.flatten)
    (outbound : ∀ m ∈ outs, IsMessage ouch42OutMessageSize m) (outRow : c.unread = outs.flatten) :
    (DecodesRow ouch42InMessageDecode b ins ↔ ins = []) ∧ (DecodesRow ouch42OutMessageDecode c outs ↔ outs = []) ∧
    (KeepsTo ouch42InMessageDecode b ↔ b.start < b.stop ∧ ouch42InMessageSize (b.byteAt b.start) ≠ 0 ∧
      ouch42InMessageSize (b.byteAt b.start) ≤ b.stop - b.start) ∧
    (KeepsTo ouch42OutMessageDecode c ↔ c.start < c.stop ∧ ouch42OutMessageSize (c.byteAt c.start) ≠ 0 ∧
      ouch42OutMessageSize (c.byteAt c.start) ≤ c.stop - c.start) :=
  ⟨decodes_row_iff hb inbound inRow, decodes_row_iff hc outbound outRow, keeps_to_iff hb rfl, keeps_to_iff hc rfl⟩

/-- A buffer with a CancelOrder. -/
def cancelOrder : Buffer := ⟨'X'.toNat.toUInt8 :: List.replicate 18 65, 0, 19⟩

/-- A buffer with a system event and a canceled message. -/
def twoEvents : Buffer := ⟨'S'.toNat.toUInt8 :: (List.replicate 9 0 ++ 'C'.toNat.toUInt8 :: List.replicate 27 0), 0, 38⟩

/-- A call keeps to the buffer with a whole message at its front, and no row of messages is decoded. -/
theorem cancel_order_and_events :
    ¬DecodesRow ouch42InMessageDecode cancelOrder [cancelOrder.unread] ∧
      ¬DecodesRow ouch42OutMessageDecode twoEvents [twoEvents.unread.take 10, twoEvents.unread.drop 10] ∧
      KeepsTo ouch42InMessageDecode cancelOrder ∧ KeepsTo ouch42OutMessageDecode twoEvents := by
  have cancel : cancelOrder.Valid := ⟨by decide, by decide⟩
  have events : twoEvents.Valid := ⟨by decide, by decide⟩
  have inbound : ∀ m ∈ [cancelOrder.unread], IsMessage ouch42InMessageSize m :=
    List.forall_mem_singleton.2 ⟨by decide, by decide, by decide⟩
  have outbound : ∀ m ∈ [twoEvents.unread.take 10, twoEvents.unread.drop 10], IsMessage ouch42OutMessageSize m :=
    List.forall_mem_cons.2 ⟨⟨by decide, by decide, by decide⟩, List.forall_mem_singleton.2 ⟨by decide, by decide, by decide⟩⟩
  obtain ⟨ins, outs, keepsIn, keepsOut⟩ := decodes_rows_iff cancel events inbound rfl outbound rfl
  exact ⟨fun row => absurd (ins.1 row) (List.cons_ne_nil _ _), fun row => absurd (outs.1 row) (List.cons_ne_nil _ _),
    keepsIn.2 (by decide), keepsOut.2 (by decide)⟩

/-- A CancelOrder alone in its buffer takes the index of the next byte past the end. -/
theorem cancel_order_past_end : ¬DecodesRow ouch42InMessageDecode cancelOrder [cancelOrder.unread] := by
  rintro ⟨-, -, empty⟩
  exact absurd empty (by decide)

end Libtrading.Ouch42
