import Libtrading.Fast.Calls
import Libtrading.Stream.Resumable

/-!
# Sequences over a stream

The calls of `fast_message_decode` as a reader of the byte stream, for
templates with sequences. Where the length of a sequence takes a bit of the
message's map and the call runs out of bytes in the elements, the bit is given
back though the length is not read again, and the fields behind the sequence
look one bit too early.
-/

namespace Libtrading.Fast
set_option autoImplicit false
open Buffer Libtrading.Stream

/-! ## Loaded templates -/

theorem field_init_regular (n : FieldNode) : (fastFieldInit n).Regular := by
  cases n with
  | elem n => trivial
  | sequence n => exact fun begun => absurd rfl begun

/-- A session that was just opened. -/
theorem new_session_regular (preambleBytes : Nat) (ts : List Template) :
    (newSession preambleBytes ts).Regular where
  valid := ⟨Nat.le_refl 0, Nat.zero_le _⟩
  regular m hm f hf := by
    rcases List.mem_append.mp hm with hm | hm
    · obtain ⟨t, _, rfl⟩ := List.mem_map.mp hm
      obtain ⟨n, _, rfl⟩ := List.mem_map.mp hf
      exact field_init_regular n
    · obtain ⟨_, rfl⟩ := List.mem_replicate.mp hm
      exact absurd hf List.not_mem_nil

/-! ## The stream -/

/-- `fast_message_decode` as a reader of the byte stream. -/
def messageDecoder : Reader { s : Session // s.Regular } UInt8 Outcome where
  feed s x := ⟨s.1.receive x, s.2.receive x⟩
  call s := (s.1.fastMessageDecode.outcome, ⟨s.1.fastMessageDecode.session, decode_regular s.2⟩)

theorem message_decoder_feed_laws : messageDecoder.FeedLaws where
  nil s := Subtype.ext s.1.receive_nothing
  append s x y := Subtype.ext (s.2.receive_receive x y)

theorem message_decoder_stable {s : { s : Session // s.Regular }} (whole : s.1.cutsField = false) :
    messageDecoder.StableAt s where
  emit {o s'} h x := by
    obtain ⟨ho, rfl⟩ := Prod.mk.inj h
    have later := decode_receive s.2 (outcome_some ho) x
    refine Prod.ext ?_ (Subtype.ext ?_)
    · simp only [messageDecoder, later]
      exact ho
    · simp only [messageDecoder, later]
      rfl
  wait {s'} h x := by
    obtain ⟨ho, rfl⟩ := Prod.mk.inj h
    have again := decode_again s.2 whole (outcome_none.mp ho) x
    exact Prod.ext (by simp only [messageDecoder, again]) (Subtype.ext (by simp only [messageDecoder, again]))

/-- **Sequences do not depend on how the bytes arrive.** Let a session drain to `os` when the whole stream
is in its buffer. Over every cut of the stream into chunks, with a call after each, in which no call is cut
where a field cannot be decoded again, the outcomes followed by those of draining the rest are `os`, and
the session ends in the same state. -/
theorem sequences_any_cut (s : { s : Session // s.Regular }) (xs : List (List UInt8)) (os : List Outcome)
    (e : { s : Session // s.Regular }) (whole : messageDecoder.Drains (messageDecoder.feed s xs.flatten) os e)
    (cuts : ∀ d ∈ messageDecoder.callSites s xs, d.1.cutsField = false) :
    ∃ rest, messageDecoder.Drains (messageDecoder.run s xs).2 rest e ∧ (messageDecoder.run s xs).1 ++ rest = os := by
  obtain ⟨rest, ho, hd⟩ :=
    Reader.run_drains message_decoder_feed_laws xs s e os whole fun d hd => message_decoder_stable (cuts d hd)
  exact ⟨rest, hd, ho.symm⟩

/-- A template with a sequence of numbers, whose length has an operator, and a number behind it. -/
def levelsTemplate (lengthOp : Op) : Template where
  name := "Levels"
  tid := 1
  flagReset := false
  fields := [.sequence ⟨"Levels", .mandatory, ⟨"NoLevels", .mandatory, lengthOp, some 2⟩,
      [.uint ⟨"Px", .mandatory, .none, none⟩]⟩,
    .elem (.uint ⟨"Last", .mandatory, .default, some 3⟩)]

/-- A new session with that template. -/
def levelsSession (lengthOp : Op) : { s : Session // s.Regular } :=
  ⟨newSession 0 [levelsTemplate lengthOp], new_session_regular 0 _⟩

/-- The numbers of a returned message behind its sequences. -/
def Outcome.numbers : Outcome → List U64
  | .message m => m.fields.filterMap fun f => match f with
    | .elem (.uint f) => some f.value
    | _ => none
  | .refused _ => []

/-- Cut in the elements, behind a length without an operator. -/
theorem levels_cut :
    ∃ rest, messageDecoder.Drains
        (messageDecoder.run (levelsSession .none) [[0xE0, 0x81, 0x82, 0x85], [0x86, 0x87]]).2 rest
        (messageDecoder.run (levelsSession .none) [[0xE0, 0x81, 0x82, 0x85, 0x86, 0x87], []]).2 ∧
      (messageDecoder.run (levelsSession .none) [[0xE0, 0x81, 0x82, 0x85], [0x86, 0x87]]).1 ++ rest =
        (messageDecoder.run (levelsSession .none) [[0xE0, 0x81, 0x82, 0x85, 0x86, 0x87]]).1 :=
  sequences_any_cut (levelsSession .none) _ _ _ (.emit rfl (.wait rfl)) (by decide +kernel)

/-- Cut in the elements, behind a length left off the wire: the number behind the sequence, which is on
the wire, is taken from the template. -/
theorem levels_split :
    (messageDecoder.run (levelsSession .copy) [[0xD0, 0x81, 0x85, 0x86, 0x87]]).1.flatMap Outcome.numbers = [7] ∧
      (messageDecoder.run (levelsSession .copy) [[0xD0, 0x81, 0x85], [0x86, 0x87]]).1.flatMap Outcome.numbers =
        [3] := by
  decide +kernel

end Libtrading.Fast
