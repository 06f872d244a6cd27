import Libtrading.Fast.Codec

/-!
# The presence map on both sides

The encoder sets bits in a map of all `FAST_PMAP_MAX_BYTES` bytes and puts the
bytes up to the last one that is not zero; the decoder takes the bits from the
bytes it was sent. `bitAt` is one bit of a map, `Writing` the map under
construction: nothing is set behind the cursor.
-/

namespace Libtrading.Fast
set_option autoImplicit false
open Buffer

namespace Pmap

/-- The bit `i` of the map, wherever its cursor stands. -/
def bitAt (p : Pmap) (i : Nat) : Bool := ({ p with pmapBit := i } : Pmap).pmapIsSet

/-- The bits the map has room for. -/
def bits : Nat := 7 * pmapMaxBytes

end Pmap

open Pmap

theorem mask_bit : ∀ k < 7, ∀ c : BitVec 8,
    ((⟨c⟩ : UInt8) &&& ((1 : UInt8) <<< (6 - k).toUInt8) != 0) = c.getLsbD (6 - k) := by
  decide

/-- A bit of the map is a bit of one of its bytes. -/
theorem bit_at_eq (p : Pmap) (i : Nat) :
    p.bitAt i = (decide (i / 7 < p.nrBytes) && (p.bytes.getD (i / 7) 0).toBitVec.getLsbD (6 - i % 7)) := by
  have bit := mask_bit (i % 7) (Nat.mod_lt _ (by decide)) (p.bytes.getD (i / 7) 0).toBitVec
  have inside : p.bitAt i = if p.nrBytes ≤ i / 7 then false else
      (p.bytes.getD (i / 7) 0 &&& ((1 : UInt8) <<< (6 - i % 7).toUInt8)) != 0 := rfl
  rw [inside]
  split
  · rename_i out
    rw [decide_eq_false (by omega), Bool.false_and]
  · rename_i within
    rw [decide_eq_true (by omega), Bool.true_and, ← bit]

theorem is_set_eq {p : Pmap} {i : Nat} (h : p.pmapBit = i) : p.pmapIsSet = p.bitAt i := by
  rw [bitAt, ← h]

theorem next_bit {p : Pmap} {i : Nat} (h : p.pmapBit = i) : p.next.pmapBit = ((i + 1 : Nat) : Int) := by
  simp only [next, h]
  rfl

/-- The next bit of the map. -/
theorem next_is_set {p : Pmap} {i : Nat} (h : p.pmapBit = i) : p.next.pmapIsSet = p.bitAt (i + 1) :=
  is_set_eq (next_bit h)

/-- A map of full size, with nothing set behind its cursor at `i`. -/
structure Writing (p : Pmap) (i : Nat) : Prop where
  cursor : p.pmapBit = i
  size : p.nrBytes = pmapMaxBytes
  length : p.bytes.length = pmapMaxBytes
  /-- The eighth bit of a byte is the stop bit, which no presence bit is. -/
  septets : ∀ c ∈ p.bytes, isStop c = false
  clear : ∀ j, i < j → p.bitAt j = false

theorem single_bit : ∀ k < 7, ∀ m < 7, ((1 : UInt8) <<< (6 - k).toUInt8).toBitVec.getLsbD (6 - m) = decide (m = k) := by
  decide

theorem pmap_set_cursor {p : Pmap} {i : Nat} (h : p.pmapBit = i) : p.pmapSet =
    if p.nrBytes ≤ i / 7 then p
    else { p with bytes := p.bytes.modify (i / 7) (· ||| ((1 : UInt8) <<< (6 - i % 7).toUInt8)) } := by
  rw [pmapSet, h]

/-- Setting the bit at the cursor sets that bit, and no other. -/
theorem pmap_set_bit {p : Pmap} {i : Nat} (cursor : p.pmapBit = i) (size : p.nrBytes = pmapMaxBytes)
    (length : p.bytes.length = pmapMaxBytes) (hi : i < bits) (j : Nat) :
    p.pmapSet.bitAt j = (p.bitAt j || decide (j = i)) := by
  have byte : i / 7 < pmapMaxBytes := Nat.div_lt_of_lt_mul hi
  have set := single_bit (i % 7) (Nat.mod_lt _ (by decide)) (j % 7) (Nat.mod_lt _ (by decide))
  rw [pmap_set_cursor cursor, size, if_neg (by omega), bit_at_eq, bit_at_eq, size]
  simp only [List.getD_eq_getElem?_getD, List.getElem?_modify]
  by_cases same : i / 7 = j / 7
  · have inside : j / 7 < p.bytes.length := by omega
    have bit : decide (j % 7 = i % 7) = decide (j = i) := decide_eq_decide.mpr (by omega)
    simp only [if_pos same, List.getElem?_eq_getElem inside, Option.map_eq_map, Option.map_some, Option.getD_some,
      UInt8.toBitVec_or, BitVec.getLsbD_or]
    rw [set, bit, decide_eq_true (by omega), Bool.true_and, Bool.true_and]
  · have other : decide (j = i) = false := decide_eq_false fun h => same (by rw [h])
    simp only [if_neg same, Option.map_eq_map, Option.map_id_fun', id, other, Bool.or_false]

/-- The bytes stay septets. -/
theorem set_septet : ∀ k < 7, ∀ c : BitVec 8, isStop ⟨c⟩ = false →
    isStop ((⟨c⟩ : UInt8) ||| ((1 : UInt8) <<< (6 - k).toUInt8)) = false := by
  decide

/-- **A field that is sent** passes its bit. -/
theorem writing_next {p : Pmap} {i : Nat} (h : Writing p i) : Writing p.next (i + 1) where
  cursor := next_bit h.cursor
  size := h.size
  length := h.length
  septets := h.septets
  clear j hj := h.clear j (by omega)

/-- A field may set its bit. -/
theorem writing_set {p : Pmap} {i : Nat} (h : Writing p i) (hi : i < bits) : Writing p.pmapSet i := by
  have byte : i / 7 < pmapMaxBytes := Nat.div_lt_of_lt_mul hi
  have bit := pmap_set_bit h.cursor h.size h.length hi
  have shape := pmap_set_cursor h.cursor
  rw [h.size, if_neg (by omega)] at shape
  refine ⟨by rw [shape]; exact h.cursor, by rw [shape], ?_, ?_, fun j hj => ?_⟩
  · rw [shape, List.length_modify, h.length]
  · rw [shape]
    intro c hc
    obtain ⟨n, hn, rfl⟩ := List.mem_iff_getElem.mp hc
    rw [List.getElem_modify]
    split
    · exact set_septet _ (Nat.mod_lt _ (by decide)) _ (h.septets _ (List.getElem_mem _))
    · exact h.septets _ (List.getElem_mem _)
  · rw [bit, h.clear j hj, decide_eq_false (by omega), Bool.or_false]

theorem Writing.free {p : Pmap} {i : Nat} (h : Writing p i) (hi : i + 1 < bits) : FreeBit p where
  clear := (next_is_set h.cursor).trans (h.clear _ (by omega))
  set := by
    have next := writing_next h
    rw [is_set_eq (writing_set next hi).cursor, pmap_set_bit next.cursor next.size next.length hi,
      decide_eq_true rfl, Bool.or_true]

/-- `fast_message_encode` begins at bit 0, the template id's, and sets it. -/
theorem initial_writing : Writing initialPmap 0 := by
  have clear : Writing { isValid := false, pmapBit := 0, nrBytes := pmapMaxBytes, bytes := List.replicate pmapMaxBytes 0 } 0 := by
    refine ⟨rfl, rfl, rfl, fun c hc => ?_, fun j hj => ?_⟩
    · rw [List.eq_of_mem_replicate hc]
      rfl
    · rw [bit_at_eq, List.getD_eq_getElem?_getD, List.getElem?_replicate]
      split <;> simp
  exact writing_set clear (by decide)

/-! ## The map on the wire -/

/-- The bytes of the map that are put. -/
def wirePmap (bytes : List UInt8) : Nat → Nat → List UInt8
  | _, 0 => []
  | i, 1 => [bytes.getD i 0 ||| 0x80]
  | i, n + 2 => (bytes.getD i 0 &&& 0x7F) :: wirePmap bytes (i + 1) (n + 1)

theorem length_wire_pmap (bytes : List UInt8) (i n : Nat) : (wirePmap bytes i n).length = n := by
  induction n generalizing i with
  | zero => rfl
  | succ n ih =>
    cases n with
    | zero => rfl
    | succ n => rw [wirePmap, List.length_cons, ih]

theorem put_pmap_bytes (bytes : List UInt8) (i n : Nat) (b : Buffer) :
    putPmap bytes i n b = putBytes b (wirePmap bytes i n) := by
  induction n generalizing i b with
  | zero => rfl
  | succ n ih =>
    cases n with
    | zero => rfl
    | succ n => exact ih _ _

/-- The map is put with its stop bit on the last byte. -/
theorem put_pmap_appends {bytes : List UInt8} {i n : Nat} {b : Buffer} (hv : b.Valid) (room : n ≤ b.bufferRemaining) :
    b.Appends (putPmap bytes i n b) (wirePmap bytes i n) := by
  rw [put_pmap_bytes]
  exact (put_bytes_appends hv (by rw [length_wire_pmap]; exact room)).1

theorem septet_kept : ∀ c : BitVec 8, isStop ⟨c⟩ = false →
    isStop ((⟨c⟩ : UInt8) &&& 0x7F) = false ∧ (⟨c⟩ : UInt8) &&& 0x7F = ⟨c⟩ := by
  decide

theorem stop_added : ∀ c : BitVec 8, isStop ((⟨c⟩ : UInt8) ||| 0x80) = true ∧
    ∀ m < 7, ((⟨c⟩ : UInt8) ||| 0x80).toBitVec.getLsbD (6 - m) = c.getLsbD (6 - m) := by
  decide

theorem get_septet {bytes : List UInt8} (septets : ∀ c ∈ bytes, isStop c = false) (i : Nat) :
    isStop (bytes.getD i 0) = false := by
  rw [List.getD_eq_getElem?_getD]
  cases h : bytes[i]? with
  | none => rfl
  | some c => exact septets c (List.mem_of_getElem? h)

/-- A map `P` read off the wire into `p`: the septets of `bytes`, as far as they were put. -/
structure ReadFrom (bytes : List UInt8) (p P : Pmap) (n : Nat) : Prop where
  size : P.nrBytes = p.nrBytes + n
  length : P.bytes.length = p.bytes.length
  isValid : P.isValid = p.isValid
  before : ∀ j < p.nrBytes, P.bytes.getD j 0 = p.bytes.getD j 0
  same : ∀ j < p.nrBytes + n, p.nrBytes ≤ j → ∀ m < 7,
    (P.bytes.getD j 0).toBitVec.getLsbD (6 - m) = (bytes.getD j 0).toBitVec.getLsbD (6 - m)

theorem stored_byte (p : Pmap) (c : UInt8) (fits : p.nrBytes < p.bytes.length) (j : Nat) :
    (p.bytes.set p.nrBytes c).getD j 0 = if p.nrBytes = j then c else p.bytes.getD j 0 := by
  simp only [List.getD_eq_getElem?_getD, List.getElem?_set, fits, if_true]
  split <;> rfl

/-- **The map off the wire** has the bytes that were put. -/
theorem parse_wire_pmap {bytes : List UInt8} (septets : ∀ c ∈ bytes, isStop c = false) {n m : Nat} {p : Pmap}
    {b : Buffer} {rest : List UInt8} (hv : b.Valid) (hn : n < m) (fits : p.nrBytes + n < p.bytes.length)
    (hu : b.unread = wirePmap bytes p.nrBytes (n + 1) ++ rest) :
    ∃ P, parsePmapFrom m p b = (.ok, P, b.bufferAdvance (n + 1)) ∧ ReadFrom bytes p P (n + 1) := by
  obtain ⟨m, rfl⟩ : ∃ k, m = k + 1 := ⟨m - 1, by omega⟩
  induction n generalizing m p b with
  | zero =>
    obtain ⟨stop, bits⟩ := stop_added (bytes.getD p.nrBytes 0).toBitVec
    have stop : isStop (bytes.getD p.nrBytes 0 ||| 0x80) = true := stop
    rw [parsePmapFrom, next_byte_cons hv hu]
    simp only [stop, if_true]
    refine ⟨_, rfl, rfl, List.length_set, rfl, fun j hj => ?_, fun j hj above k hk => ?_⟩
    · rw [stored_byte _ _ (by omega), if_neg (by omega)]
    · rw [stored_byte _ _ (by omega), if_pos (by omega), show j = p.nrBytes by omega]
      exact bits k hk
  | succ n ih =>
    obtain ⟨more, kept⟩ := septet_kept (bytes.getD p.nrBytes 0).toBitVec (get_septet septets _)
    have more : isStop (bytes.getD p.nrBytes 0 &&& 0x7F) = false := more
    have kept : bytes.getD p.nrBytes 0 &&& 0x7F = bytes.getD p.nrBytes 0 := kept
    rw [parsePmapFrom, next_byte_cons hv hu]
    simp only [more, Bool.false_eq_true, if_false]
    obtain ⟨valid, unread⟩ := unread_advance hv (w := [_]) hu
    obtain ⟨m, rfl⟩ : ∃ k, m = k + 1 := ⟨m - 1, by omega⟩
    obtain ⟨P, read, size, length, same, before, after⟩ :=
      ih (p := { p with bytes := p.bytes.set p.nrBytes (bytes.getD p.nrBytes 0 &&& 0x7F), nrBytes := p.nrBytes + 1 })
        valid (by simp only [List.length_set]; omega) unread m (by omega)
    refine ⟨P, ?_, ?_, length.trans List.length_set, same, fun j hj => ?_, fun j hj above k hk => ?_⟩
    · rw [List.length_singleton, advance_advance, Nat.add_comm 1] at read
      exact read
    · simp only at size
      omega
    · rw [before j (by simp only; omega), stored_byte _ _ (by omega), if_neg (by omega)]
    · by_cases first : p.nrBytes = j
      · rw [before j (by simp only; omega), stored_byte _ _ (by omega), if_pos first, kept, first]
      · exact after j (by simp only; omega) (by simp only; omega) k hk

/-- The bytes that are not put are zero. -/
theorem trimmed_zero (bytes : List UInt8) {n j : Nat} (hj : j < n) (above : trimmed bytes n ≤ j) :
    bytes.getD j 0 = 0 := by
  induction n with
  | zero => omega
  | succ n ih =>
    rw [trimmed] at above
    split at above
    · omega
    · rename_i zero
      by_cases last : j = n
      · exact last ▸ Decidable.not_not.mp zero
      · exact ih (by omega) above

theorem trimmed_le (bytes : List UInt8) (n : Nat) : trimmed bytes n ≤ n := by
  induction n with
  | zero => exact Nat.le_refl _
  | succ n ih =>
    rw [trimmed]
    split <;> omega

theorem trimmed_pos {bytes : List UInt8} {n : Nat} (hn : 0 < n) (h : bytes.getD 0 0 ≠ 0) : 0 < trimmed bytes n := by
  refine Nat.pos_of_ne_zero fun zero => h (trimmed_zero bytes hn (Nat.le_of_eq zero))

/-- **The map comes out as it went in**, whatever the decoder's map held before. -/
theorem parse_put_pmap {p P : Pmap} {i : Nat} (written : Writing p i) (first : p.bitAt 0 = true)
    (length : P.bytes.length = pmapMaxBytes) {b : Buffer} {rest : List UInt8} (hv : b.Valid)
    (hu : b.unread = wirePmap p.bytes 0 (trimmed p.bytes pmapMaxBytes) ++ rest) :
    ∃ P', parsePmap b P = (.ok, P', b.bufferAdvance (trimmed p.bytes pmapMaxBytes)) ∧
      P'.bytes.length = pmapMaxBytes ∧ P'.isValid = P.isValid ∧ ∀ j < bits, P'.bitAt j = p.bitAt j := by
  have nonzero : p.bytes.getD 0 0 ≠ 0 := by
    intro zero
    rw [bit_at_eq, Nat.zero_div, zero] at first
    simp at first
  have pos := trimmed_pos (n := pmapMaxBytes) (by decide) nonzero
  have le := trimmed_le p.bytes pmapMaxBytes
  obtain ⟨n, hn⟩ : ∃ n, trimmed p.bytes pmapMaxBytes = n + 1 := ⟨_, (Nat.succ_pred_eq_of_pos pos).symm⟩
  rw [hn] at hu le ⊢
  obtain ⟨P', read, size, kept, isValid, -, same⟩ :=
    parse_wire_pmap written.septets (p := { P with nrBytes := 0 }) (m := pmapMaxBytes) hv le
      (by simp only; omega) hu
  refine ⟨P', read, kept.trans length, isValid, fun j hj => ?_⟩
  have byte : j / 7 < pmapMaxBytes := Nat.div_lt_of_lt_mul hj
  simp only [Nat.zero_add] at size same
  rw [bit_at_eq, bit_at_eq, size, written.size, decide_eq_true byte, Bool.true_and]
  by_cases put : j / 7 < n + 1
  · rw [decide_eq_true put, Bool.true_and, same _ put (Nat.zero_le _) _ (Nat.mod_lt _ (by decide))]
  · have zero := trimmed_zero p.bytes byte (by omega)
    rw [decide_eq_false put, Bool.false_and, zero]
    simp

end Libtrading.Fast
