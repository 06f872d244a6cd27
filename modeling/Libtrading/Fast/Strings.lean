import Libtrading.Fast.Codecs
import Libtrading.Fast.Numbers
import Libtrading.Fast.Template

/-!
# Which strings come through

`fast_encode_string` puts the characters and a byte `0x80`, for ASCII and
unicode fields alike. The ASCII decoder ends at the first byte with the stop
bit, or after 255 bytes; the unicode decoder takes the same bytes for a length
and what it counts.
-/

namespace Libtrading.Fast
set_option autoImplicit false
open Buffer

/-- The strings that the decoder reads as they were sent: `NULL`; in ASCII at most 254 characters of seven
bits; in unicode the empty one of a mandatory field. -/
def ComesThrough (unicode : Bool) (f : Field Bytes) : Prop :=
  f.isNull = true ∨ if unicode then f.isMandatory = true ∧ cstr f.value = [] else FitsAscii f

/-- What the decoder should have made of a field. -/
structure ReceivedAs (fe : Field Bytes) (c : Buffer) (w : List UInt8) (r : Decoded (Field Bytes)) : Prop where
  ok : r.ret = .ok
  consumed : r.buffer = c.bufferAdvance w.length
  empty : r.field.state = .empty ↔ fe.isNull = true
  value : fe.isNull = false → r.field.state = .assigned ∧ cstr r.field.value = cstr fe.value

/-! ## What is sent -/

/-- The bytes of a string field. -/
def stringWire (f : Field Bytes) : List UInt8 := if f.isNull then [0x80] else stringChars f.value ++ [0x80]

/-- A field with one of these operators is sent as `NULL`, or as its characters. -/
theorem string_sent {fe : Field Bytes} (op : fe.op = .none ∨ fe.op = .copy ∨ fe.op = .default) {b : Buffer} {p : Pmap}
    (hv : b.Valid) (sent : (encodeSwitch stringCoder p fe).label ≠ .done)
    (ok : (fastEncodeString b p fe).ok = true) : b.Appends (fastEncodeString b p fe).buffer (stringWire fe) := by
  have supported : Supported stringCoder fe :=
    ⟨fun h => by rw [h] at op; simp at op, fun h => by rw [h] at op; simp at op⟩
  have constant : fe.op ≠ .constant := fun h => by rw [h] at op; simp at op
  unfold stringWire
  cases null : fe.isNull with
  | true =>
    have encoded : fastEncodeString b p fe = _ := encode_empty (switch_null supported constant null)
    rw [encoded, afterTransfer] at ok ⊢
    exact transfer_stop_appends hv (Prod.ext ok rfl)
  | false =>
    have switch : ∃ q, encodeSwitch stringCoder p fe = ⟨.transfer, q, { fe with state := .assigned }⟩ := by
      have fails : ∀ q, encodeSwitch stringCoder p fe ≠ ⟨.fail, q, fe⟩ := by
        intro q h
        rw [fastEncodeString, encodeField, h] at ok
        cases ok
      rcases op with op | op | op
      · exact ⟨p, by simp [encodeSwitch, switchAlways, op, null]⟩
      · cases state : fe.state with
        | empty => exact absurd (by simp [encodeSwitch, switchPrevious, op, null, state]) (fails p.next)
        | undefined =>
          obtain switch | ⟨omitted, ⟨assigned, -, -⟩, -⟩ :=
            switch_value (p := p) supported constant null (by rw [state]; decide)
          · exact ⟨_, switch⟩
          · rw [state] at assigned
            cases assigned
        | assigned =>
          obtain switch | ⟨omitted, -, switch⟩ := switch_value (p := p) supported constant null (by rw [state]; decide)
          · exact ⟨_, switch⟩
          · rw [switch] at sent
            exact absurd rfl sent
      · cases state : fe.state with
        | empty => exact absurd (by simp [encodeSwitch, switchDefault, op, null, state]) (fails p.next)
        | undefined => exact ⟨p.next, by simp [encodeSwitch, switchDefault, op, null, state]⟩
        | assigned => exact ⟨p.next, by simp [encodeSwitch, switchDefault, op, null, state]⟩
    obtain ⟨q, switch⟩ := switch
    have encoded : fastEncodeString b p fe = _ := encode_transfer switch
    rw [encoded, afterTransfer] at ok ⊢
    exact transfer_string_appends hv (Prod.ext ok rfl)

/-! ## What the readers take -/

/-- What a string was read from: bytes that end with the first stop bit, at most as many as there is room for. -/
theorem parse_string_from_ok {room n : Nat} {v : List UInt8} {b : Buffer} (hv : b.Valid)
    (h : (parseStringFrom room n v b).ret = .ok) :
    ∃ w rest, b.unread = w ++ rest ∧ Stopped w ∧ w.length ≤ room ∧
      (parseStringFrom room n v b).buffer = b.bufferAdvance w.length := by
  induction room generalizing n v b with
  | zero => cases h
  | succ room ih =>
    unfold parseStringFrom at h ⊢
    cases next : nextByte b with
    | none =>
      rw [next] at h
      cases h
    | some cb =>
      obtain ⟨c, b'⟩ := cb
      obtain ⟨left, rfl, rfl⟩ := next_byte_some hv next
      have unread := unread_cons hv left
      rw [next] at h
      simp only at h ⊢
      cases stop : isStop (b.byteAt b.start) with
      | true => exact ⟨[_], _, unread, .last stop, by rw [List.length_singleton]; omega, rfl⟩
      | false =>
        rw [if_neg (by rw [stop]; decide)] at h
        obtain ⟨w, tail, more, stopped, fits, read⟩ := ih ((next_byte_moved hv next).valid hv) h
        refine ⟨_ :: w, tail, ?_, .more stop stopped, by rw [List.length_cons]; omega, ?_⟩
        · rw [unread, more]
          rfl
        · rw [if_neg (by decide), read, advance_advance, List.length_cons, Nat.add_comm 1]

theorem Stopped.before {s : List UInt8} {c : UInt8} (h : Stopped (s ++ [c])) : ∀ d ∈ s, isStop d = false := by
  induction s with
  | nil => exact nofun
  | cons d s ih =>
    rw [List.cons_append] at h
    generalize line : s ++ [c] = t at h
    cases h with
    | last _ => exact absurd line (by simp)
    | more go rest =>
      intro e he
      rcases List.mem_cons.mp he with rfl | he
      · exact go
      · exact ih (line ▸ rest) e he

theorem take_bytes_unread {n : Nat} {b : Buffer} (hv : b.Valid) (hn : n ≤ b.unread.length) :
    takeBytes n b = (b.unread.take n, b.bufferAdvance n) := by
  induction n generalizing b with
  | zero => rfl
  | succ n ih =>
    rw [length_unread hv] at hn
    have left : b.start < b.stop := by omega
    have valid : (b.bufferAdvance 1).Valid := ⟨by simp only [bufferAdvance]; omega, hv.stop_le⟩
    have rest := ih valid (by rw [length_unread valid]; simp only [bufferAdvance]; omega)
    rw [unread_cons hv left, takeBytes]
    simp only [bufferGet8]
    change (_ :: (takeBytes n (b.bufferAdvance 1)).1, (takeBytes n (b.bufferAdvance 1)).2) = _
    rw [rest, advance_advance, List.take_succ_cons, Nat.add_comm 1]

theorem advance_inj {b : Buffer} {m n : Nat} (h : b.bufferAdvance m = b.bufferAdvance n) : m = n := by
  have start := congrArg Buffer.start h
  simp only [bufferAdvance] at start
  omega

/-! ## ASCII -/

section Received
variable {fe fd : Field Bytes} {c : Buffer} {rest : List UInt8} {q : Pmap}

theorem string_chars_fit (h : FitsAscii fe) : (stringChars fe.value).length ≤ 254 ∧ ∀ d ∈ stringChars fe.value, isStop d = false := by
  unfold stringChars
  split
  · refine ⟨by decide, fun d hd => ?_⟩
    rw [List.mem_singleton.mp hd]
    rfl
  · exact h

theorem ascii_received (same : fe.SameTemplate fd) (room : fd.value.length = stringMaxBytes) (hc : c.Valid)
    (hu : c.unread = stringWire fe ++ rest) :
    ReceivedAs fe c (stringWire fe) ((readAscii c fd).toDecoded q) ↔ ComesThrough false fe := by
  constructor
  · rintro ⟨ok, consumed, -, -⟩
    cases null : fe.isNull with
    | true => exact .inl null
    | false =>
      have wire : stringWire fe = stringChars fe.value ++ [0x80] := by
        rw [stringWire, null]
        rfl
      have ok : (parseString c fd.value stringMaxBytes).ret = .ok := (assign_ascii_ret fd _).symm.trans ok
      have consumed : (parseString c fd.value stringMaxBytes).buffer = _ := (assign_ascii_buffer fd _).symm.trans consumed
      obtain ⟨w, tail, unread, stopped, fits, read⟩ := parse_string_from_ok hc ok
      have length : w.length = (stringWire fe).length := advance_inj (read.symm.trans consumed)
      obtain ⟨rfl, -⟩ := List.append_inj (unread.symm.trans hu) length
      rw [wire] at stopped fits
      have more := stopped.before
      rw [List.length_append, List.length_singleton, stringMaxBytes] at fits
      refine .inr ?_
      show FitsAscii fe
      by_cases empty : cstr fe.value = []
      · unfold FitsAscii
        rw [empty]
        exact ⟨by decide, List.forall_mem_nil _⟩
      · rw [stringChars, if_neg empty] at more fits
        exact ⟨by omega, more⟩
  · intro through
    cases null : fe.isNull with
    | true =>
      have wire : stringWire fe = [0x80] := by rw [stringWire, null]; rfl
      rw [wire] at hu ⊢
      obtain ⟨value, read, -, taken⟩ := parse_string_chars (m := stringMaxBytes - 1) (n := 0) (w := []) (v := fd.value) hc
        (List.forall_mem_nil _) (by decide) (by rw [room]; decide) hu
      simp only [List.length_nil, Nat.zero_add, List.take_zero, List.append_nil, List.nil_append] at read taken
      have first : value.headD 0 = 0 := by
        cases value with
        | nil => rfl
        | cons d ds => exact (List.cons.inj taken).1
      have optional : fd.isMandatory = false := by
        rw [same.isMandatory]
        simp only [Field.isNull, Bool.and_eq_true, Bool.not_eq_true'] at null
        exact null.1
      have optional' : ({ fd with value := value } : Field Bytes).isMandatory = false := optional
      have run : readAscii c fd = ⟨.ok, c.bufferAdvance 1, { fd with value := value, state := .empty }⟩ := by
        rw [readAscii, parseString, read, assignAscii]
        simp only [optional', first, ne_eq, not_true_eq_false, if_false, Bool.not_false, decide_true, Bool.and_self, if_true]
      rw [run]
      exact ⟨rfl, rfl, iff_of_true rfl null, by rw [null]; exact (absurd · (by decide))⟩
    | false =>
      have wire : stringWire fe = stringChars fe.value ++ [0x80] := by
        rw [stringWire, null]
        rfl
      obtain ⟨short, more⟩ := string_chars_fit (through.resolve_left (by rw [null]; decide))
      rw [wire] at hu ⊢
      rw [List.append_assoc] at hu
      obtain ⟨value, read, -, taken⟩ := parse_string_chars (m := stringMaxBytes - 1) (n := 0) (v := fd.value) hc more
        (by rw [stringMaxBytes]; omega) (by rw [room, stringMaxBytes]; omega) hu
      simp only [Nat.zero_add, List.take_zero, List.nil_append] at read taken
      have nonempty : (stringChars fe.value).length ≠ 0 := by simp [string_chars_ne_nil]
      have run : readAscii c fd =
          ⟨.ok, c.bufferAdvance ((stringChars fe.value).length + 1), { fd with value := value, state := .assigned }⟩ := by
        rw [readAscii, parseString, read, assignAscii, if_neg (not_not_intro rfl), if_neg (by simp [nonempty])]
      rw [run]
      refine ⟨rfl, by rw [List.length_append]; rfl, iff_of_false (by intro h; cases h) (by rw [null]; decide), fun _ => ⟨rfl, ?_⟩⟩
      exact cstr_string_chars taken

/-! ## Unicode -/

/-- The bytes behind a length, zeros behind them. -/
theorem counted_ok {len : U64} {f : Field Bytes} (hc : c.Valid) (h : (readCounted len c f).ret = .ok) :
    ∃ u rest, c.unread = u ++ rest ∧ u.length = (if f.isMandatory then len else len - 1).toNat ∧
      (readCounted len c f).buffer = c.bufferAdvance u.length ∧
      ∃ zeros, (readCounted len c f).field = { f with value := u ++ 0 :: zeros } := by
  unfold readCounted at h ⊢
  simp only at h ⊢
  generalize (if f.isMandatory then len else len - 1) = len at h ⊢
  unfold parseBytes at h ⊢
  by_cases short : (len.setWidth 32).msb = true ∨ c.bufferSize < (len.setWidth 32).toNat
  · rw [if_pos short] at h
    cases h
  · rw [if_neg short] at h ⊢
    by_cases small : f.value.length < (len.setWidth 32).toNat
    · rw [if_pos small] at h
      cases h
    · rw [if_neg small] at h ⊢
      simp only [terminateVector] at h ⊢
      by_cases wide : stringMaxBytes < len.toNat + zeroFill
      · rw [if_pos wide] at h
        cases h
      · rw [if_neg wide]
        simp only [stringMaxBytes, zeroFill] at wide
        have narrow : (len.setWidth 32).toNat = len.toNat := by
          rw [BitVec.toNat_setWidth]
          omega
        rw [narrow] at short small ⊢
        have inside : len.toNat ≤ c.unread.length := by
          rw [length_unread hc, ← hc.size_eq]
          omega
        rw [take_bytes_unread hc inside]
        refine ⟨c.unread.take len.toNat, c.unread.drop len.toNat, (List.take_append_drop ..).symm, ?_, ?_, ?_⟩
        · rw [List.length_take]
          omega
        · rw [List.length_take, Nat.min_eq_left inside]
        · have length : (c.unread.take len.toNat).length = len.toNat := by rw [List.length_take]; omega
          refine ⟨List.replicate 7 0 ++ (c.unread.take len.toNat ++ f.value.drop len.toNat).drop (len.toNat + 8), ?_⟩
          rw [List.take_left' length, zeroFill]
          simp only [List.append_assoc]
          rfl

theorem rotated {a z : UInt8} {s : List UInt8} (h : a :: s = s ++ [z]) : a = z := by
  induction s generalizing a with
  | nil => exact (List.cons.inj h).1
  | cons d s ih =>
    obtain ⟨rfl, rest⟩ := List.cons.inj h
    exact ih rest

/-- A counted value that is there: its length, not the `NULL` of an optional field, and its bytes. -/
theorem vector_ok (hc : c.Valid) (ok : (readVector c fd).ret = .ok) (assigned : (readVector c fd).field.state = .assigned) :
    ∃ g u rest, c.unread = g ++ (u ++ rest) ∧ Stopped g ∧ (unsignedNumber g ≠ 0 ∨ u = []) ∧
      (readVector c fd).buffer = c.bufferAdvance (g.length + u.length) ∧
      ∃ zeros, (readVector c fd).field.value = u ++ 0 :: zeros := by
  unfold readVector readNullable at ok assigned ⊢
  cases parsed : parseUint c with
  | fail ret b =>
    rw [parsed] at ok
    rcases parse_groups_fails parsed with rfl | rfl <;> cases ok
  | done v b =>
    obtain ⟨g, tail, unread, stopped, fits⟩ := parse_groups_done hc parsed
    rw [parse_uint_stopped stopped hc fits unread] at parsed
    obtain ⟨rfl, rfl⟩ := Parse.done.inj parsed
    obtain ⟨valid, unread'⟩ := unread_advance hc unread
    rw [parse_uint_stopped stopped hc fits unread] at ok assigned
    simp only at ok assigned ⊢
    generalize number : BitVec.ofInt 64 (unsignedNumber g) = v at ok assigned ⊢
    by_cases isNull : (!({ fd with state := .assigned } : Field Bytes).isMandatory && decide (v = 0)) = true
    · rw [if_pos isNull] at assigned
      cases assigned
    · rw [if_neg isNull] at ok ⊢
      obtain ⟨u, rest, more, length, read, zeros, field⟩ := counted_ok valid ok
      refine ⟨g, u, rest, by rw [unread, ← more, unread'], stopped, ?_, by rw [read, advance_advance], zeros, by rw [field]⟩
      by_cases zero : unsignedNumber g = 0
      · right
        rw [zero] at number
        have mandatory : ({ fd with state := .assigned } : Field Bytes).isMandatory = true := by
          cases h : ({ fd with state := .assigned } : Field Bytes).isMandatory with
          | true => rfl
          | false =>
            rw [h, ← number] at isNull
            exact absurd rfl isNull
        rw [if_pos mandatory, ← number] at length
        exact List.eq_nil_of_length_eq_zero length
      · exact .inl zero

/-- Characters are no length of what follows them. -/
theorem unicode_refuses (hc : c.Valid) (null : fe.isNull = false) (chars : cstr fe.value ≠ [])
    (hu : c.unread = stringWire fe ++ rest) : ¬ReceivedAs fe c (stringWire fe) ((readVector c fd).toDecoded q) := by
  rintro ⟨ok, consumed, -, value⟩
  have wire : stringWire fe = cstr fe.value ++ [0x80] := by
    rw [stringWire, null, if_neg (by decide), stringChars, if_neg chars]
  obtain ⟨assigned, view⟩ := value null
  obtain ⟨g, u, tail, unread, stopped, number, read, zeros, stored⟩ := vector_ok hc ok assigned
  have view : cstr (readVector c fd).field.value = cstr fe.value := view
  have length : g.length + u.length = (stringWire fe).length := advance_inj (read.symm.trans consumed)
  -- the length and the value are the bytes that were sent, and none of them is zero
  rw [← List.append_assoc] at unread
  obtain ⟨line, -⟩ := List.append_inj (unread.symm.trans hu) (by rw [List.length_append, length])
  rw [wire] at line
  have nonzero : ∀ d ∈ u, d ≠ 0 := by
    intro d hd
    have member : d ∈ cstr fe.value ++ [0x80] := line ▸ List.mem_append_right g hd
    rcases List.mem_append.mp member with h | h
    · exact cstr_nonzero d h
    · rw [List.mem_singleton.mp h]
      decide
  rw [stored, cstr_append nonzero] at view
  -- so the length is one byte, the last one too
  have one : g.length = 1 := by
    rw [wire, List.length_append, List.length_singleton, view] at length
    omega
  obtain ⟨a, rfl⟩ := List.length_eq_one_iff.mp one
  rw [view] at line
  obtain rfl := rotated line
  rcases number with number | empty
  · exact absurd (by decide) number
  · rw [view] at empty
    exact chars empty

theorem unicode_received (same : fe.SameTemplate fd) (hc : c.Valid) (hu : c.unread = stringWire fe ++ rest) :
    ReceivedAs fe c (stringWire fe) ((readVector c fd).toDecoded q) ↔ ComesThrough true fe := by
  cases null : fe.isNull with
  | true =>
    have wire : stringWire fe = [0x80] := by rw [stringWire, null]; rfl
    rw [wire] at hu ⊢
    have optional : ({ fd with state := .assigned } : Field Bytes).isMandatory = false := by
      refine same.isMandatory.trans ?_
      simp only [Field.isNull, Bool.and_eq_true, Bool.not_eq_true'] at null
      exact null.1
    have run : readVector c fd = ⟨.ok, c.bufferAdvance 1, { fd with state := .empty }⟩ := by
      unfold readVector readNullable
      rw [parse_uint_stopped (w := [0x80]) (.last rfl) hc (by decide) hu]
      simp only [optional, Bool.not_false, Bool.true_and]
      rfl
    rw [run]
    exact iff_of_true ⟨rfl, rfl, iff_of_true rfl null, by rw [null]; exact (absurd · (by decide))⟩ (.inl null)
  | false =>
    by_cases chars : cstr fe.value = []
    · have wire : stringWire fe = [0, 0x80] := by
        rw [stringWire, null, if_neg (by decide), stringChars, if_pos chars]
        rfl
      rw [wire] at hu ⊢
      have stopped : Stopped [0, 0x80] := .more rfl (.last rfl)
      obtain ⟨valid, -⟩ := unread_advance hc hu
      have parsed := parse_uint_stopped stopped hc (by decide) hu
      cases mandatory : fd.isMandatory with
      | true =>
        have kept : ({ fd with state := .assigned } : Field Bytes).isMandatory = true := mandatory
        have run : readVector c fd = ⟨.ok, c.bufferAdvance 2,
            { fd with state := .assigned, value := List.replicate 8 0 ++ fd.value.drop 8 }⟩ := by
          unfold readVector readNullable
          rw [parsed]
          simp only [kept, Bool.not_true, Bool.false_and, Bool.false_eq_true, if_false, readCounted, if_true]
          unfold parseBytes
          rw [if_neg (by simp [unsignedNumber, StopBit.denoted, digit]), if_neg (by simp [unsignedNumber, StopBit.denoted, digit])]
          rfl
        rw [run]
        refine iff_of_true ⟨rfl, rfl, iff_of_false (by intro h; cases h) (by rw [null]; decide), fun _ => ⟨rfl, ?_⟩⟩
          (.inr ⟨same.isMandatory ▸ mandatory, chars⟩)
        rw [chars]
        rfl
      | false =>
        have optional : ({ fd with state := .assigned } : Field Bytes).isMandatory = false := mandatory
        have run : readVector c fd = ⟨.ok, c.bufferAdvance 2, { fd with state := .empty }⟩ := by
          unfold readVector readNullable
          rw [parsed]
          simp only [optional, Bool.not_false, Bool.true_and]
          rfl
        rw [run]
        refine iff_of_false (fun received => ?_) ?_
        · cases (received.value null).1
        · rintro (null' | ⟨mandatory', -⟩)
          · exact absurd (null.symm.trans null') (by decide)
          · rw [← same.isMandatory, mandatory] at mandatory'
            cases mandatory'
    · refine iff_of_false (unicode_refuses hc null chars hu) ?_
      rintro (null' | ⟨-, empty⟩)
      · exact absurd (null.symm.trans null') (by decide)
      · exact chars empty

end Received

/-- **Strings on the wire.** A string field that was sent is read with exactly its bytes, as the same C string,
or as `EMPTY` if and only if that was sent, exactly where the strings come through. -/
theorem string_survives_iff (unicode : Bool) {fe fd : Field Bytes} (same : fe.SameTemplate fd)
    (op : fe.op = .none ∨ fe.op = .copy ∨ fe.op = .default) (room : fd.value.length = stringMaxBytes) {b : Buffer}
    (hv : b.Valid) (p : Pmap) (sent : (encodeSwitch stringCoder p fe).label ≠ .done)
    (ok : (fastEncodeString b p fe).ok = true) :
    b.Appends (fastEncodeString b p fe).buffer (stringWire fe) ∧
      ∀ (c : Buffer) (rest : List UInt8) (q : Pmap), c.Valid → c.unread = stringWire fe ++ rest →
        (fe.takesBit = true → q.next.pmapIsSet = true) →
        (ReceivedAs fe c (stringWire fe) (fastDecodeString unicode c q fd) ↔ ComesThrough unicode fe) := by
  refine ⟨string_sent op hv sent ok, fun c rest q hc hu bit => ?_⟩
  have constant : fd.op ≠ .constant := fun h => by rw [← same.op, h] at op; simp at op
  have delta : fd.op ≠ .delta := fun h => by rw [← same.op, h] at op; simp at op
  have incr : fd.op ≠ .incr := fun h => by rw [← same.op, h] at op; simp at op
  have bit : fd.takesBit = true → q.next.pmapIsSet = true := by rw [same.takesBit]; exact bit
  cases unicode with
  | true =>
    have run : fastDecodeString true c q fd = (readVector c fd).toDecoded (fd.step q) :=
      decode_value (K := unicodeKind) constant delta (fun h => absurd h incr) bit
    rw [run]
    exact unicode_received same hc hu
  | false =>
    have run : fastDecodeString false c q fd = (readAscii c fd).toDecoded (fd.step q) :=
      decode_value (K := asciiKind) constant delta (fun h => absurd h incr) bit
    rw [run]
    exact ascii_received same room hc hu

/-- A mandatory string without an operator, with these characters. -/
def textField (chars : Bytes) : Field Bytes := { stringInit ⟨"Text", .mandatory, .none, none⟩ with value := strcpy blankBytes chars }

/-- An ASCII character is sent and read. -/
theorem character_survives :
    (bufferNew 8).Appends (fastEncodeString (bufferNew 8) Pmap.empty (textField [0x41])).buffer (stringWire (textField [0x41])) ∧
      ∀ (c : Buffer) (rest : List UInt8) (q : Pmap), c.Valid → c.unread = stringWire (textField [0x41]) ++ rest →
        ((textField [0x41]).takesBit = true → q.next.pmapIsSet = true) →
        (ReceivedAs (textField [0x41]) c (stringWire (textField [0x41])) (fastDecodeString false c q (textField [])) ↔
          ComesThrough false (textField [0x41])) :=
  string_survives_iff false (⟨rfl, rfl, rfl, rfl⟩ : (textField [0x41]).SameTemplate (textField [])) (.inl rfl)
    (by decide +kernel) ⟨by decide, by decide⟩ Pmap.empty (by decide +kernel) (by decide +kernel)

/-- A Latin-1 character is sent and read as another one, and a unicode character as a length. -/
theorem characters_lost :
    (fastEncodeString (bufferNew 8) Pmap.empty (textField [0xE9])).buffer = bufferPuts (bufferNew 8) [0xE9, 0x80] ∧
      ¬ReceivedAs (textField [0xE9]) (bufferPuts (bufferNew 8) [0xE9, 0x80]) [0xE9, 0x80]
        (fastDecodeString false (bufferPuts (bufferNew 8) [0xE9, 0x80]) Pmap.empty (textField [])) ∧
      (fastEncodeString (bufferNew 8) Pmap.empty (textField [0x41])).buffer = bufferPuts (bufferNew 8) [0x41, 0x80] ∧
      ¬ReceivedAs (textField [0x41]) (bufferPuts (bufferNew 8) [0x41, 0x80]) [0x41, 0x80]
        (fastDecodeString true (bufferPuts (bufferNew 8) [0x41, 0x80]) Pmap.empty (textField [])) := by
  refine ⟨by decide +kernel, fun received => ?_, by decide +kernel, fun received => ?_⟩
  · exact absurd received.consumed (by decide +kernel)
  · exact absurd received.ok (by decide +kernel)

end Libtrading.Fast
