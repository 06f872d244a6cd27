import Libtrading.Buffer
import Libtrading.Wire.Frames

/-!
# BOE, XDP and LSE ITCH frames

Each frame says how long it is, and each decoder compares that with something else, or with nothing: BOE only cuts
what it copies to the caller's `size`, XDP compares with `size` alone, LSE ITCH with the bytes there are alone. No
length is too small for any of them. `takes_one_frame_iff` says what has to be so that a call takes one frame.
-/

namespace Libtrading.Proto
open Buffer Wire
set_option autoImplicit false

/-- The number two bytes make, the low one first. -/
def le16 (low high : UInt8) : Nat := low.toNat + 256 * high.toNat

/-- `buffer_peek_le16`. -/
def bufferPeekLe16 (b : Buffer) : Nat := le16 (b.byteAt b.start) (b.byteAt (b.start + 1))

/-- `buffer_get_le16`. -/
def bufferGetLe16 (b : Buffer) : Nat × Buffer :=
  let low := b.bufferGet8
  let high := low.2.bufferGet8
  (le16 low.1 high.1, high.2)

/-- `memcpy` of `count` bytes from the start of a buffer. -/
def copied (b : Buffer) (count : Nat) : List UInt8 := (b.data.drop b.start).take count

/-- `BOE_MAGIC`. -/
def boeMagic : Nat := 0xBABA

/-- `boe_message_decode`. The distance of `buffer_advance` is negative for a length below 2, and the sum is not. -/
def boeMessageDecode (b : Buffer) (size : Nat) : Option (List UInt8) × Buffer :=
  let magic := bufferGetLe16 b
  if magic.1 ≠ boeMagic then (none, magic.2)
  else
    let len := bufferGetLe16 magic.2
    let count := if size < 2 + len.1 then size else 2 + len.1
    (some (copied b count), { len.2 with start := len.2.start + len.1 - 2 })

/-- `xdp_message_decode`. -/
def xdpMessageDecode (b : Buffer) (size : Nat) : Option (List UInt8) × Buffer :=
  if b.bufferSize = 0 then (none, b)
  else if size < bufferPeekLe16 b then (none, b)
  else (some (copied b (bufferPeekLe16 b)), b.bufferAdvance (bufferPeekLe16 b))

/-- `lse_itch_message_decode`. -/
def lseItchMessageDecode (b : Buffer) : Option (List UInt8) × Buffer :=
  if b.bufferSize = 0 then (none, b)
  else if b.bufferSize < b.bufferPeek8.toNat then (none, b)
  else (some (copied b b.bufferPeek8.toNat), b.bufferAdvance b.bufferPeek8.toNat)

/-! ## One frame -/

/-- The length a BOE frame declares: the magic and MessageLength. -/
def boeDeclared (b : Buffer) : Nat := 2 + le16 (b.byteAt (b.start + 2)) (b.byteAt (b.start + 3))

/-- The sizes of `struct boe_header`, `struct xdp_message` and `struct lse_itch_message`. -/
def boeHeader : Nat := 10
def xdpHeader : Nat := 4
def lseItchHeader : Nat := 2

/-- A call that takes the frame that is there: it advances by what the frame declares, no less than a header and no
more than there is; or it fails and leaves the buffer. -/
structure TakesOneFrame (header declared : Nat) (b : Buffer) (r : Option (List UInt8) × Buffer) : Prop where
  taken : r.1 ≠ none → r.2 = b.bufferAdvance declared ∧ header ≤ declared ∧ declared ≤ b.stop - b.start
  failed : r.1 = none → r.2 = b

section
variable {b : Buffer}

theorem takes_failed (header declared : Nat) (b : Buffer) : TakesOneFrame header declared b (none, b) :=
  ⟨fun some => absurd rfl some, fun _ => rfl⟩

/-- A call that succeeds and advances by what is declared. -/
theorem takes_some {header declared : Nat} {w : List UInt8} :
    TakesOneFrame header declared b (some w, b.bufferAdvance declared) ↔
      header ≤ declared ∧ declared ≤ b.stop - b.start :=
  ⟨fun takes => (takes.taken (Option.some_ne_none w)).2, fun fits => ⟨fun _ => ⟨rfl, fits⟩, fun none => by cases none⟩⟩

/-- What a BOE call does behind the magic. -/
theorem boe_decoded (magic : bufferPeekLe16 b = boeMagic) (size : Nat) : boeMessageDecode b size =
    (some (copied b (if size < boeDeclared b then size else boeDeclared b)), b.bufferAdvance (boeDeclared b)) := by
  have same : (bufferGetLe16 b).1 = boeMagic := magic
  have length : (bufferGetLe16 (bufferGetLe16 b).2).1 = le16 (b.byteAt (b.start + 2)) (b.byteAt (b.start + 3)) := rfl
  have start : (bufferGetLe16 (bufferGetLe16 b).2).2 = { b with start := b.start + 4 } := rfl
  rw [boeMessageDecode]
  simp only [same, ne_eq, not_true, if_false, length, start, boeDeclared, bufferAdvance]
  congr 2
  omega

/-- A BOE call that does not find the magic has consumed two bytes. -/
theorem boe_failed (magic : bufferPeekLe16 b ≠ boeMagic) (size : Nat) :
    boeMessageDecode b size = (none, b.bufferAdvance 2) := if_pos magic

theorem boe_takes_iff (size : Nat) : TakesOneFrame boeHeader (boeDeclared b) b (boeMessageDecode b size) ↔
    bufferPeekLe16 b = boeMagic ∧ boeHeader ≤ boeDeclared b ∧ boeDeclared b ≤ b.stop - b.start := by
  by_cases magic : bufferPeekLe16 b = boeMagic
  · rw [boe_decoded magic, takes_some]
    exact (and_iff_right magic).symm
  · rw [boe_failed magic]
    refine ⟨fun takes => ?_, fun found => absurd found.1 magic⟩
    have starts := congrArg Buffer.start (takes.failed rfl)
    simp only [bufferAdvance] at starts
    omega

theorem xdp_takes_iff (hv : b.Valid) (size : Nat) :
    TakesOneFrame xdpHeader (bufferPeekLe16 b) b (xdpMessageDecode b size) ↔
      b.start = b.stop ∨ size < bufferPeekLe16 b ∨ xdpHeader ≤ bufferPeekLe16 b ∧ bufferPeekLe16 b ≤ b.stop - b.start := by
  have start := hv.start_le
  rw [xdpMessageDecode, hv.size_eq]
  by_cases none : b.stop - b.start = 0
  · rw [if_pos none]
    exact ⟨fun _ => .inl (by omega), fun _ => takes_failed ..⟩
  rw [if_neg none]
  by_cases large : size < bufferPeekLe16 b
  · rw [if_pos large]
    exact ⟨fun _ => .inr (.inl large), fun _ => takes_failed ..⟩
  · rw [if_neg large, takes_some, or_iff_right (by omega), or_iff_right large]

theorem lse_itch_takes_iff (hv : b.Valid) :
    TakesOneFrame lseItchHeader b.bufferPeek8.toNat b (lseItchMessageDecode b) ↔
      b.start = b.stop ∨ b.stop - b.start < b.bufferPeek8.toNat ∨ lseItchHeader ≤ b.bufferPeek8.toNat := by
  have start := hv.start_le
  rw [lseItchMessageDecode, hv.size_eq]
  by_cases none : b.stop - b.start = 0
  · rw [if_pos none]
    exact ⟨fun _ => .inl (by omega), fun _ => takes_failed ..⟩
  rw [if_neg none]
  by_cases short : b.stop - b.start < b.bufferPeek8.toNat
  · rw [if_pos short]
    exact ⟨fun _ => .inr (.inl short), fun _ => takes_failed ..⟩
  · rw [if_neg short, takes_some, or_iff_right (by omega), or_iff_right short]
    exact and_iff_left (by omega)

end

/-- **One frame.** A BOE call takes one frame if and only if the magic is there and the frame is no shorter than its
header and all there; an XDP call if and only if the buffer is empty, or the caller's size refuses the frame, or it is
no shorter than its header and all there; an LSE ITCH call if and only if the buffer is empty, or the frame is not all
there, or it is no shorter than its header. -/
theorem takes_one_frame_iff {b : Buffer} (hv : b.Valid) (size : Nat) :
    (TakesOneFrame boeHeader (boeDeclared b) b (boeMessageDecode b size) ↔
      bufferPeekLe16 b = boeMagic ∧ boeHeader ≤ boeDeclared b ∧ boeDeclared b ≤ b.stop - b.start) ∧
    (TakesOneFrame xdpHeader (bufferPeekLe16 b) b (xdpMessageDecode b size) ↔
      b.start = b.stop ∨ size < bufferPeekLe16 b ∨
        xdpHeader ≤ bufferPeekLe16 b ∧ bufferPeekLe16 b ≤ b.stop - b.start) ∧
    (TakesOneFrame lseItchHeader b.bufferPeek8.toNat b (lseItchMessageDecode b) ↔
      b.start = b.stop ∨ b.stop - b.start < b.bufferPeek8.toNat ∨ lseItchHeader ≤ b.bufferPeek8.toNat) :=
  ⟨boe_takes_iff size, xdp_takes_iff hv size, lse_itch_takes_iff hv⟩

/-! ## Rows of frames -/

section
variable {b : Buffer} {f rest : List UInt8}

theorem byte_at_unread (hv : b.Valid) (row : b.unread = f ++ rest) {i : Nat} (inside : i < f.length) :
    b.byteAt (b.start + i) = f.getD i 0 := by
  have length := length_unread hv
  rw [row, List.length_append] at length
  have byte := congrArg (·[i]?) row
  simp only [unread, List.getElem?_drop, List.getElem?_append_left inside] at byte
  rw [List.getElem?_take_of_lt (by omega)] at byte
  rw [byteAt, List.getD_eq_getElem?_getD, List.getD_eq_getElem?_getD, byte]

theorem copied_frame (hv : b.Valid) (row : b.unread = f ++ rest) : copied b f.length = f := take_unread hv row

/-- A call that copies a frame and advances by it takes it. -/
theorem takes_frame {decode : Buffer → Option (List UInt8) × Buffer}
    (call : ∀ b rest, b.Valid → b.unread = f ++ rest → decode b = (some (copied b f.length), b.bufferAdvance f.length)) :
    TakesFrame decode unread Valid id f := by
  intro b rest hv row
  have row : b.unread = f ++ rest := row
  obtain ⟨valid, left⟩ := unread_advance hv row
  rw [call b rest hv row, copied_frame hv row]
  exact ⟨rfl, valid, left⟩

theorem boe_takes_frame {size : Nat} (magic : le16 (f.getD 0 0) (f.getD 1 0) = boeMagic) (header : boeHeader ≤ f.length)
    (declared : f.length = 2 + le16 (f.getD 2 0) (f.getD 3 0)) (fits : f.length ≤ size) :
    TakesFrame (boeMessageDecode · size) unread Valid id f := by
  have ten : boeHeader = 10 := rfl
  refine takes_frame fun b rest hv row => ?_
  have byte (i : Nat) (inside : i < 4) : b.byteAt (b.start + i) = f.getD i 0 := byte_at_unread hv row (by omega)
  have found : bufferPeekLe16 b = boeMagic := by
    rw [bufferPeekLe16, byte 1 (by decide), ← Nat.add_zero b.start, byte 0 (by decide)]
    exact magic
  have length : boeDeclared b = f.length := by rw [boeDeclared, byte 2 (by decide), byte 3 (by decide), declared]
  rw [boe_decoded found, length, if_neg (by omega)]

theorem xdp_takes_frame {size : Nat} (header : xdpHeader ≤ f.length)
    (declared : f.length = le16 (f.getD 0 0) (f.getD 1 0)) (fits : f.length ≤ size) :
    TakesFrame (xdpMessageDecode · size) unread Valid id f := by
  have four : xdpHeader = 4 := rfl
  refine takes_frame fun b rest hv row => ?_
  have byte (i : Nat) (inside : i < 4) : b.byteAt (b.start + i) = f.getD i 0 := byte_at_unread hv row (by omega)
  have length : bufferPeekLe16 b = f.length := by
    rw [bufferPeekLe16, byte 1 (by decide), ← Nat.add_zero b.start, byte 0 (by decide), declared]
  have some := length_unread hv
  rw [row, List.length_append] at some
  rw [xdpMessageDecode, hv.size_eq, if_neg (by omega), length, if_neg (by omega)]

theorem lse_itch_takes_frame (header : lseItchHeader ≤ f.length) (declared : f.length = (f.getD 0 0).toNat) :
    TakesFrame lseItchMessageDecode unread Valid id f := by
  have two : lseItchHeader = 2 := rfl
  refine takes_frame fun b rest hv row => ?_
  have length : b.bufferPeek8.toNat = f.length := by
    rw [bufferPeek8, ← Nat.add_zero b.start, byte_at_unread hv row (by omega), declared]
  have some := length_unread hv
  rw [row, List.length_append] at some
  rw [lseItchMessageDecode, hv.size_eq, if_neg (by omega), length, if_neg (by omega)]

end

/-- **Frames in a row**, each of them taken, are decoded one by one, and the buffer is empty then. -/
theorem rows_decoded {decode : Buffer → Option (List UInt8) × Buffer} {fs : List (List UInt8)}
    (all : ∀ f ∈ fs, TakesFrame decode unread Valid id f) {b : Buffer} (hv : b.Valid) (row : b.unread = fs.flatten) :
    (calls decode fs.length b).1 = fs.map some ∧ (calls decode fs.length b).2.unread = [] := by
  have flat : b.unread = fs.flatMap id ++ [] := by rw [row, List.append_nil, List.flatMap_id]
  obtain ⟨returned, -, empty⟩ := calls_frames all hv flat
  exact ⟨returned, empty⟩

/-- A buffer with a BOE heartbeat. -/
def boeHeartbeat : Buffer := ⟨[0xBA, 0xBA, 8, 0, 3, 0, 0, 0, 0, 0], 0, 10⟩

/-- A buffer with an XDP message of six bytes and the first one of the next. -/
def xdpFrame : Buffer := ⟨[6, 0, 1, 0, 7, 7, 9], 0, 7⟩

/-- A buffer with an LSE ITCH message of three bytes and the first one of the next. -/
def itchFrame : Buffer := ⟨[3, 0x54, 1, 5], 0, 4⟩

/-- Each of the three decoders takes its frame. -/
theorem heartbeat_taken :
    TakesOneFrame boeHeader (boeDeclared boeHeartbeat) boeHeartbeat (boeMessageDecode boeHeartbeat 183) ∧
      TakesOneFrame xdpHeader (bufferPeekLe16 xdpFrame) xdpFrame (xdpMessageDecode xdpFrame 64) ∧
      TakesOneFrame lseItchHeader itchFrame.bufferPeek8.toNat itchFrame (lseItchMessageDecode itchFrame) :=
  ⟨(takes_one_frame_iff ⟨by decide, by decide⟩ 183).1.2 (by decide),
    (takes_one_frame_iff ⟨by decide, by decide⟩ 64).2.1.2 (by decide),
    (takes_one_frame_iff ⟨by decide, by decide⟩ 64).2.2.2 (by decide)⟩

/-- An XDP frame that declares no bytes is taken, and the buffer stays where it is; of one that declares more than
there is, the rest is taken from behind the buffer; and a BOE call that does not find the magic consumes two bytes. -/
theorem no_frame_taken :
    ¬TakesOneFrame xdpHeader 0 ⟨[0, 0, 0, 0], 0, 4⟩ (xdpMessageDecode ⟨[0, 0, 0, 0], 0, 4⟩ 64) ∧
    ¬TakesOneFrame xdpHeader 9 ⟨[9, 0, 0, 0], 0, 4⟩ (xdpMessageDecode ⟨[9, 0, 0, 0], 0, 4⟩ 64) ∧
    ¬TakesOneFrame boeHeader 2 ⟨[1, 2, 0, 0], 0, 4⟩ (boeMessageDecode ⟨[1, 2, 0, 0], 0, 4⟩ 64) := by
  refine ⟨fun takes => ?_, fun takes => ?_, fun takes => ?_⟩
  · exact absurd (takes.taken (by decide)).2.1 (by decide)
  · exact absurd (takes.taken (by decide)).2.2 (by decide)
  · exact absurd (takes.failed (by decide)) (by decide)

end Libtrading.Proto
