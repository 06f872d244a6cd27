import Libtrading.Buffer

/-!
# `soupbin3_session.c`

A SoupBin packet is a length in two bytes, the high one first, and that many
bytes. `soupbin3_session_recv` reads from the descriptor only when its buffer
is empty and takes the packet that starts there for a whole one. So packets
come out as they went in exactly when every read ends with a packet, and the
room behind what was read is no less than the length of each packet in it:
that is what the one test of the code compares.
-/

namespace Libtrading.Soup
set_option autoImplicit false
open Buffer

/-! ## The session -/

/-- `SOUPBIN3_RX_BUFFER_SIZE`. -/
def rxBufferSize : Nat := 4096

/-- `struct soupbin3_session`, with what the reads of its descriptor are going to return. -/
structure Session where
  rxBuffer : Buffer
  reads : List (List UInt8)
  deriving DecidableEq, Repr

/-- `soupbin3_session_new`. -/
def soupbin3SessionNew (reads : List (List UInt8)) : Session := ⟨bufferNew rxBufferSize, reads⟩

/-- `buffer_get_be16`. -/
def bufferGetBe16 (b : Buffer) : Nat × Buffer :=
  let (high, b) := b.bufferGet8
  let (low, b) := b.bufferGet8
  (256 * high.toNat + low.toNat, b)

/-- What a call of `soupbin3_session_recv` comes to: 0 and the bytes copied to the packet, -1, or the end of
the program in `assert(0)`. -/
inductive Received where
  | packet (bytes : List UInt8) (session : Session)
  | nothing (session : Session)
  | assertion
  deriving DecidableEq, Repr

namespace Session

/-- `soupbin3_packet_decode`: it copies from `sizeof(u16)` before `start` on. -/
def soupbin3PacketDecode (s : Session) (len : Nat) : Received :=
  .packet ((s.rxBuffer.data.drop (s.rxBuffer.start - 2)).take (2 + len)) { s with rxBuffer := s.rxBuffer.bufferAdvance len }

/-- `soupbin3_session_recv` from the label `decode` on. -/
def decode (s : Session) : Received :=
  let (len, b) := bufferGetBe16 s.rxBuffer
  if b.bufferRemaining < len then .assertion else { s with rxBuffer := b }.soupbin3PacketDecode len

/-- `soupbin3_session_recv` up to the label `decode`: `none` where it returns -1. -/
def filled (s : Session) : Option Session :=
  if 0 < s.rxBuffer.bufferSize then some s
  else match s.reads with
    | [] => none
    | x :: reads => if x = [] then none else some ⟨s.rxBuffer.bufferReset.receive x, reads⟩

/-- `soupbin3_session_recv`. -/
def soupbin3SessionRecv (s : Session) : Received :=
  match s.filled with
  | none => .nothing { s with rxBuffer := s.rxBuffer.bufferReset, reads := s.reads.tail }
  | some s => s.decode

end Session

/-! ## Packets -/

/-- What follows the length of a packet, which fits the buffer with it. -/
structure Packet where
  body : List UInt8
  fits : 2 + body.length ≤ rxBufferSize

namespace Packet

/-- The bytes of a packet. -/
def wire (p : Packet) : List UInt8 := (p.body.length / 256).toUInt8 :: (p.body.length % 256).toUInt8 :: p.body

/-- The bytes of packets, one behind the other. -/
def wires (ps : List Packet) : List UInt8 := ps.flatMap wire

theorem length_wire (p : Packet) : p.wire.length = 2 + p.body.length := by
  rw [wire, List.length_cons, List.length_cons]
  omega

theorem wires_cons (p : Packet) (ps : List Packet) : wires (p :: ps) = p.wire ++ wires ps := List.flatMap_cons ..

theorem wires_eq_nil {ps : List Packet} (h : wires ps = []) : ps = [] := by
  cases ps with
  | nil => rfl
  | cons p ps =>
    rw [wires_cons, wire] at h
    cases h

/-- The length in front of a packet is that of the packet. -/
theorem announced (p : Packet) :
    256 * (p.body.length / 256).toUInt8.toNat + (p.body.length % 256).toUInt8.toNat = p.body.length := by
  have fits := p.fits
  simp only [rxBufferSize] at fits
  simp only [Nat.toUInt8, UInt8.toNat_ofNat']
  omega

end Packet

open Packet

/-- One past the last index that `decode` reads from a buffer: of the length, and of the packet that is copied. -/
def extent (b : Buffer) : Nat := b.start + 2 + (bufferGetBe16 b).1

/-- Successive calls return exactly these packets, reading received bytes only; then there is nothing more. -/
def Delivers : List Packet → Session → Prop
  | [], s => ∃ t, s.soupbin3SessionRecv = .nothing t
  | p :: ps, s => ∃ d t, s.filled = some d ∧ extent d.rxBuffer ≤ d.rxBuffer.stop ∧
    s.soupbin3SessionRecv = .packet p.wire t ∧ Delivers ps t

/-- The reads are of whole packets, and what was read leaves room for the length of each packet in it. -/
def WholePackets (ps : List Packet) (reads : List (List UInt8)) : Prop :=
  ∃ groups : List (List Packet), groups.flatten = ps ∧ groups.map wires = reads ∧
    ∀ g ∈ groups, ∀ p ∈ g, p.body.length + (wires g).length ≤ rxBufferSize

/-! ## One call -/

namespace Session

/-- A session whose unread bytes and reads are those of the packets. -/
structure Lined (ps : List Packet) (s : Session) : Prop where
  valid : s.rxBuffer.Valid
  capacity : s.rxBuffer.data.length = rxBufferSize
  bytes : s.rxBuffer.unread ++ s.reads.flatten = wires ps
  nonempty : ∀ x ∈ s.reads, x ≠ []
  fits : ∀ x ∈ s.reads, x.length ≤ rxBufferSize

/-- The rest of a group is unread, and the reads to come are of whole packets. -/
def Grouped (ps : List Packet) (s : Session) : Prop :=
  ∃ g rest, ps = g ++ rest ∧ s.rxBuffer.unread = wires g ∧ (∀ p ∈ g, p.body.length + s.rxBuffer.stop ≤ rxBufferSize) ∧
    WholePackets rest s.reads

theorem filled_unread {s : Session} (hv : s.rxBuffer.Valid) (h : s.rxBuffer.unread ≠ []) : s.filled = some s := by
  have left : s.rxBuffer.start ≠ s.rxBuffer.stop := fun h' => h ((unread_eq_nil hv).mpr h')
  have := hv.start_le
  rw [filled, if_pos (by rw [hv.size_eq]; omega)]

theorem filled_empty {s : Session} (hv : s.rxBuffer.Valid) (h : s.rxBuffer.unread = []) :
    ¬0 < s.rxBuffer.bufferSize := by
  have := (unread_eq_nil hv).mp h
  rw [hv.size_eq]
  omega

/-- What a read leaves in an empty buffer. -/
theorem refilled {b : Buffer} (capacity : b.data.length = rxBufferSize) {x : List UInt8} (fits : x.length ≤ rxBufferSize) :
    (b.bufferReset.receive x).Valid ∧ (b.bufferReset.receive x).unread = x ∧
      (b.bufferReset.receive x).data.length = rxBufferSize ∧ (b.bufferReset.receive x).stop = x.length := by
  have valid : b.bufferReset.Valid := ⟨Nat.le_refl _, Nat.zero_le _⟩
  refine ⟨valid.receive x, unread_receive valid x, ?_, Nat.zero_add _⟩
  rw [receive_size (by simp only [bufferReset]; omega)]
  exact capacity

/-- The two bytes in front are the length. -/
theorem get_be16 {b : Buffer} (hv : b.Valid) {c d : UInt8} {rest : List UInt8} (hu : b.unread = c :: d :: rest) :
    bufferGetBe16 b = (256 * c.toNat + d.toNat, b.bufferAdvance 2) := by
  have length := length_unread hv
  rw [hu, List.length_cons, List.length_cons] at length
  have first := unread_cons hv (by omega)
  rw [hu] at first
  obtain ⟨high, tail⟩ := List.cons.inj first
  have valid : (b.bufferAdvance 1).Valid := ⟨by simp only [bufferAdvance]; omega, hv.stop_le⟩
  have second := unread_cons valid (by simp only [bufferAdvance]; omega)
  rw [← tail] at second
  obtain ⟨low, -⟩ := List.cons.inj second
  rw [high, low]
  rfl

/-- A call with a packet at the front of the unread bytes. -/
theorem decode_packet {s : Session} (hv : s.rxBuffer.Valid) {p : Packet} {u : List UInt8}
    (hu : s.rxBuffer.unread = p.wire ++ u) :
    extent s.rxBuffer ≤ s.rxBuffer.stop ∧ s.decode =
      if s.rxBuffer.bufferRemaining < p.body.length then .assertion
      else .packet p.wire { s with rxBuffer := s.rxBuffer.bufferAdvance p.wire.length } := by
  have length := length_unread hv
  have start := hv.start_le
  rw [hu, List.length_append, length_wire] at length
  have front : s.rxBuffer.unread =
      (p.body.length / 256).toUInt8 :: (p.body.length % 256).toUInt8 :: (p.body ++ u) := hu
  have announced := get_be16 hv front
  rw [p.announced] at announced
  have copied : (s.rxBuffer.data.drop s.rxBuffer.start).take (2 + p.body.length) = p.wire := by
    have unread : s.rxBuffer.unread = (s.rxBuffer.data.drop s.rxBuffer.start).take (s.rxBuffer.stop - s.rxBuffer.start) := by
      rw [unread, List.drop_take]
    have most : 2 + p.body.length = min (2 + p.body.length) (s.rxBuffer.stop - s.rxBuffer.start) := by omega
    rw [most, ← List.take_take, ← unread, hu, ← length_wire, List.take_left]
  refine ⟨by rw [extent, announced]; omega, ?_⟩
  simp only [decode, announced]
  split
  · rw [if_pos (by assumption)]
  · rw [if_neg (by assumption), length_wire, soupbin3PacketDecode, advance_advance]
    simp only [bufferAdvance, Nat.add_sub_cancel, copied]

/-- A call that keeps to the received bytes has a whole packet of them. -/
theorem extent_packet {b : Buffer} (hv : b.Valid) {p : Packet} {u v : List UInt8} (hu : b.unread ++ u = p.wire ++ v)
    (inside : extent b ≤ b.stop) : ∃ w, b.unread = p.wire ++ w ∧ w ++ u = v := by
  have length := length_unread hv
  have := hv.start_le
  have two : 2 ≤ b.unread.length := by
    rw [length]
    simp only [extent] at inside
    omega
  obtain ⟨c, d, rest, unread⟩ : ∃ c d rest, b.unread = c :: d :: rest := by
    match b.unread, two with
    | c :: d :: rest, _ => exact ⟨c, d, rest, rfl⟩
  have announced := get_be16 hv unread
  rw [unread, wire] at hu
  simp only [List.cons_append, List.cons.injEq] at hu
  obtain ⟨rfl, rfl, body⟩ := hu
  rw [p.announced] at announced
  have fits : p.body.length ≤ rest.length := by
    rw [unread, List.length_cons, List.length_cons] at length
    simp only [extent, announced] at inside
    omega
  obtain ⟨w, rfl⟩ : ∃ w, rest = p.body ++ w := by
    have taken := congrArg (List.take p.body.length) body
    rw [List.take_append_of_le_length fits, List.take_left] at taken
    have both := (List.take_append_drop p.body.length rest).symm
    rw [taken] at both
    exact ⟨_, both⟩
  rw [List.append_assoc] at body
  exact ⟨w, by rw [unread, wire]; rfl, List.append_cancel_left body⟩

/-! ## All calls -/

theorem Lined.advance {p : Packet} {ps : List Packet} {s : Session} (h : s.Lined (p :: ps)) {u : List UInt8}
    (hu : s.rxBuffer.unread = p.wire ++ u) :
    Lined ps { s with rxBuffer := s.rxBuffer.bufferAdvance p.wire.length } ∧
      (s.rxBuffer.bufferAdvance p.wire.length).unread = u := by
  obtain ⟨valid, unread⟩ := unread_advance h.valid hu
  have bytes := h.bytes
  rw [hu, wires_cons, List.append_assoc] at bytes
  exact ⟨⟨valid, h.capacity, by rw [unread]; exact List.append_cancel_left bytes, h.nonempty, h.fits⟩, unread⟩

/-- With a packet to come and nothing unread, there is a read to come. -/
theorem Lined.refill {p : Packet} {ps : List Packet} {s : Session} (h : s.Lined (p :: ps)) (empty : s.rxBuffer.unread = []) :
    ∃ x reads, s.reads = x :: reads ∧ s.filled = some ⟨s.rxBuffer.bufferReset.receive x, reads⟩ ∧
      Lined (p :: ps) ⟨s.rxBuffer.bufferReset.receive x, reads⟩ := by
  have bytes := h.bytes
  rw [empty, List.nil_append] at bytes
  cases reads : s.reads with
  | nil =>
    rw [reads] at bytes
    cases wires_eq_nil bytes.symm
  | cons x rest =>
    have here : x ∈ s.reads := reads ▸ List.mem_cons_self
    obtain ⟨valid, unread, capacity, -⟩ := refilled h.capacity (h.fits x here)
    refine ⟨x, rest, rfl, ?_, valid, capacity, ?_, fun y hy => h.nonempty y ?_, fun y hy => h.fits y ?_⟩
    · rw [filled, if_neg (filled_empty h.valid empty), reads]
      exact if_neg (h.nonempty x here)
    · rw [unread, ← bytes, reads, List.flatten_cons]
    · exact reads ▸ List.mem_cons_of_mem _ hy
    · exact reads ▸ List.mem_cons_of_mem _ hy

/-- The next group is the next read. -/
theorem Lined.grouped_refill {ps : List Packet} {s : Session} (h : s.Lined ps) (empty : s.rxBuffer.unread = [])
    {x : List UInt8} {reads : List (List UInt8)} (next : s.reads = x :: reads) :
    s.Grouped ps ↔ Grouped ps ⟨s.rxBuffer.bufferReset.receive x, reads⟩ := by
  have here : x ∈ s.reads := next ▸ List.mem_cons_self
  obtain ⟨-, unread, -, stop⟩ := refilled h.capacity (h.fits x here)
  constructor
  · rintro ⟨g, rest, rfl, group, -, groups, flat, split, room⟩
    rw [empty] at group
    obtain rfl := wires_eq_nil group.symm
    rw [next] at split
    cases groups with
    | nil => cases split
    | cons g groups =>
      obtain ⟨first, more⟩ := List.cons.inj split
      refine ⟨g, groups.flatten, flat.symm, unread.trans first.symm, fun p hp => ?_, groups, rfl, more,
        fun g' hg => room g' (List.mem_cons_of_mem _ hg)⟩
      rw [stop, ← first]
      exact room g List.mem_cons_self p hp
  · rintro ⟨g, rest, rfl, group, fit, groups, rfl, split, room⟩
    have first : wires g = x := group.symm.trans unread
    refine ⟨[], _, rfl, empty, fun p hp => (List.not_mem_nil hp).elim, g :: groups, List.flatten_cons, ?_, fun g' hg => ?_⟩
    · rw [List.map_cons, first, split, next]
    · rcases List.mem_cons.mp hg with rfl | hg
      · intro p hp
        have := fit p hp
        rw [stop] at this
        rwa [first]
      · exact room g' hg

/-- The packet in front has gone: its group goes on. -/
theorem grouped_advance {p : Packet} {ps : List Packet} {s : Session} {u : List UInt8} (hv : s.rxBuffer.Valid)
    (hu : s.rxBuffer.unread = p.wire ++ u) :
    s.Grouped (p :: ps) ↔ p.body.length + s.rxBuffer.stop ≤ rxBufferSize ∧
      Grouped ps { s with rxBuffer := s.rxBuffer.bufferAdvance p.wire.length } := by
  obtain ⟨-, unread⟩ := unread_advance hv hu
  constructor
  · rintro ⟨g, rest, line, group, fit, whole⟩
    cases g with
    | nil =>
      rw [hu, wire] at group
      cases group
    | cons q g =>
      obtain ⟨rfl, rfl⟩ := List.cons.inj line
      rw [hu, wires_cons] at group
      exact ⟨fit p List.mem_cons_self, g, rest, rfl, unread.trans (List.append_cancel_left group),
        fun q hq => fit q (List.mem_cons_of_mem _ hq), whole⟩
  · rintro ⟨first, g, rest, rfl, group, fit, whole⟩
    have same : u = wires g := unread.symm.trans group
    refine ⟨p :: g, rest, rfl, by rw [hu, wires_cons, same], fun q hq => ?_, whole⟩
    rcases List.mem_cons.mp hq with rfl | hq
    · exact first
    · exact fit q hq

theorem recv_of_filled {s d : Session} (h : s.filled = some d) : s.soupbin3SessionRecv = d.decode := by
  simp only [soupbin3SessionRecv, h]

/-- One call on unread bytes: the packet in front is whole and passes the test, or it is not delivered. -/
theorem Lined.delivers_unread {p : Packet} {ps : List Packet} {s : Session} (h : s.Lined (p :: ps))
    (more : s.rxBuffer.unread ≠ []) :
    Delivers (p :: ps) s ↔ ∃ u, s.rxBuffer.unread = p.wire ++ u ∧ p.body.length + s.rxBuffer.stop ≤ rxBufferSize ∧
      Delivers ps { s with rxBuffer := s.rxBuffer.bufferAdvance p.wire.length } := by
  have filled := filled_unread h.valid more
  have room : s.rxBuffer.bufferRemaining = rxBufferSize - s.rxBuffer.stop := by rw [h.valid.remaining_eq, h.capacity]
  have stop := h.valid.stop_le
  rw [h.capacity] at stop
  constructor
  · rintro ⟨d, t, same, inside, returned, rest⟩
    rw [filled] at same
    obtain rfl := Option.some.inj same
    obtain ⟨u, unread, -⟩ := extent_packet h.valid (h.bytes.trans (wires_cons p ps)) inside
    rw [recv_of_filled filled, (decode_packet h.valid unread).2] at returned
    split at returned
    · cases returned
    · obtain ⟨-, rfl⟩ := Received.packet.inj returned
      exact ⟨u, unread, by omega, rest⟩
  · rintro ⟨u, unread, fit, rest⟩
    obtain ⟨inside, decoded⟩ := decode_packet h.valid unread
    refine ⟨s, _, filled, inside, ?_, rest⟩
    rw [recv_of_filled filled, decoded, if_neg (by omega)]

/-- The calls deliver the packets if and only if the reads are of whole packets. -/
theorem Lined.delivers_iff {ps : List Packet} {s : Session} (h : s.Lined ps) : Delivers ps s ↔ s.Grouped ps := by
  induction ps generalizing s with
  | nil =>
    obtain ⟨unread, flat⟩ := List.append_eq_nil_iff.mp h.bytes
    have done : s.reads = [] := by
      cases reads : s.reads with
      | nil => rfl
      | cons x rest =>
        rw [reads] at flat
        exact absurd (List.append_eq_nil_iff.mp flat).1 (h.nonempty x (reads ▸ List.mem_cons_self))
    have empty : s.filled = none := by rw [filled, if_neg (filled_empty h.valid unread), done]
    refine iff_of_true ⟨_, by simp only [soupbin3SessionRecv, empty]; rfl⟩ ⟨[], [], rfl, unread, ?_, [], rfl, done.symm, ?_⟩
    · exact fun p hp => (List.not_mem_nil hp).elim
    · exact fun g hg => (List.not_mem_nil hg).elim
  | cons p ps ih =>
    have unread_case : ∀ {s : Session}, s.Lined (p :: ps) → s.rxBuffer.unread ≠ [] →
        (Delivers (p :: ps) s ↔ s.Grouped (p :: ps)) := by
      intro s h more
      rw [h.delivers_unread more]
      constructor
      · rintro ⟨u, unread, fit, rest⟩
        exact (grouped_advance h.valid unread).mpr ⟨fit, (ih (h.advance unread).1).mp rest⟩
      · intro grouped
        obtain ⟨u, unread⟩ : ∃ u, s.rxBuffer.unread = p.wire ++ u := by
          obtain ⟨g, rest, line, group, -, -⟩ := grouped
          cases g with
          | nil => exact absurd group more
          | cons q g =>
            obtain ⟨rfl, -⟩ := List.cons.inj line
            exact ⟨wires g, group⟩
        obtain ⟨fit, rest⟩ := (grouped_advance h.valid unread).mp grouped
        exact ⟨u, unread, fit, (ih (h.advance unread).1).mpr rest⟩
    by_cases empty : s.rxBuffer.unread = []
    · obtain ⟨x, reads, next, filled, lined⟩ := h.refill empty
      have here : x ∈ s.reads := next ▸ List.mem_cons_self
      obtain ⟨valid, unread, -, -⟩ := refilled h.capacity (h.fits x here)
      have more : (s.rxBuffer.bufferReset.receive x).unread ≠ [] := by
        rw [unread]
        exact h.nonempty x here
      have again := filled_unread (s := ⟨s.rxBuffer.bufferReset.receive x, reads⟩) valid more
      rw [h.grouped_refill empty next, ← unread_case lined more]
      simp only [Delivers, filled, again, recv_of_filled filled, recv_of_filled again]
    · exact unread_case h empty

end Session

/-- **Framing.** However the reads split the bytes of some packets, the calls return exactly these packets,
in order and from received bytes only, if and only if every read ends with a packet and leaves as much room
behind it as each of its packets is long. -/
theorem framing_iff (ps : List Packet) (reads : List (List UInt8)) (nonempty : ∀ x ∈ reads, x ≠ [])
    (fits : ∀ x ∈ reads, x.length ≤ rxBufferSize) (split : reads.flatten = wires ps) :
    Delivers ps (soupbin3SessionNew reads) ↔ WholePackets ps reads := by
  have lined : (soupbin3SessionNew reads).Lined ps :=
    ⟨⟨Nat.le_refl _, Nat.zero_le _⟩, List.length_replicate .., split, nonempty, fits⟩
  rw [lined.delivers_iff]
  constructor
  · rintro ⟨g, rest, rfl, group, -, whole⟩
    obtain rfl := wires_eq_nil group.symm
    exact whole
  · intro whole
    exact ⟨[], ps, rfl, rfl, fun p hp => (List.not_mem_nil hp).elim, whole⟩

/-- A heartbeat. -/
def heartbeat : Packet := ⟨[0x48], by decide⟩

/-- Two heartbeats in one read, and another in a second. -/
theorem heartbeats_delivered :
    Delivers [heartbeat, heartbeat, heartbeat] (soupbin3SessionNew [[0, 1, 0x48, 0, 1, 0x48], [0, 1, 0x48]]) :=
  (framing_iff [heartbeat, heartbeat, heartbeat] [[0, 1, 0x48, 0, 1, 0x48], [0, 1, 0x48]] (by decide) (by decide)
    (by decide)).mpr ⟨[[heartbeat, heartbeat], [heartbeat]], rfl, by decide, by decide⟩

/-- A heartbeat cut behind its length: what the first call copies is in part not received, and the second
call has no packet. -/
theorem cut_heartbeat_lost :
    (soupbin3SessionNew [[0, 1], [0x48]]).reads.flatten = wires [heartbeat] ∧
      ¬Delivers [heartbeat] (soupbin3SessionNew [[0, 1], [0x48]]) := by
  refine ⟨by decide, ?_⟩
  rintro ⟨d, t, filled, inside, -, -⟩
  have cut : d = ⟨(bufferNew rxBufferSize).receive [0, 1], [[0x48]]⟩ := (Option.some.inj filled).symm
  rw [cut] at inside
  exact absurd inside (by decide +kernel)

end Libtrading.Soup
