import Libtrading.Fast.AlikeMessages
import Libtrading.Fast.Packed
import Libtrading.Fast.TemplateIds

/-!
# Sessions that decode alike

Two sessions with the same bytes to read, whose messages decode alike. The template id of the message returned last is
looked at where a message does not name its template; if it is not the same in both, the next message names it.
-/

namespace Libtrading.Fast
set_option autoImplicit false
open Buffer

/-! ## Explicit template ids -/

/-- A stream whose first message, behind `n` bytes, names its template: of its presence map, as far as it is there, the
first bit is set, and it ends in the bytes there is room for. -/
structure ExplicitId (n : Nat) (u : List UInt8) : Prop where
  bit : ∀ c, u[n]? = some c → (c &&& 0x40 != 0) = true
  ends : n + pmapMaxBytes ≤ u.length → ∃ (i : Nat) (c : UInt8), i < pmapMaxBytes ∧ u[n + i]? = some c ∧ isStop c = true

theorem ExplicitId.drop {n m : Nat} {u : List UInt8} (h : ExplicitId (n + m) u) : ExplicitId m (u.drop n) where
  bit c hc := by
    rw [List.getElem?_drop] at hc
    exact h.bit c hc
  ends long := by
    rw [List.length_drop] at long
    obtain ⟨i, c, room, at', stop⟩ := h.ends (by simp only [pmapMaxBytes] at long ⊢; omega)
    refine ⟨i, c, room, ?_, stop⟩
    rw [List.getElem?_drop, ← Nat.add_assoc]
    exact at'

section Maps
variable {n : Nat} {p : Pmap} {b : Buffer}

/-- A map is refused where none of the bytes there is room for ends it. -/
theorem parse_pmap_from_refused (hv : b.Valid) (ok : (parsePmapFrom n p b).1 ≠ .ok)
    (long : (parsePmapFrom n p b).1 ≠ .msgPartial) :
    n ≤ b.unread.length ∧ ∀ (i : Nat) (c : UInt8), i < n → b.unread[i]? = some c → isStop c = false := by
  induction n generalizing p b with
  | zero => exact ⟨Nat.zero_le _, fun i _ none => absurd none (Nat.not_lt_zero _)⟩
  | succ n ih =>
    unfold parsePmapFrom at ok long
    cases next : nextByte b with
    | none =>
      simp only [next] at long
      exact absurd rfl long
    | some cb =>
      obtain ⟨c, b'⟩ := cb
      obtain ⟨left, first, rest⟩ := next_byte_some hv next
      have valid := (next_byte_moved hv next).valid hv
      simp only [next] at ok long
      by_cases stop : isStop c = true
      · rw [if_pos stop] at ok
        exact absurd rfl ok
      · rw [if_neg stop] at ok long
        obtain ⟨room, none⟩ := ih valid ok long
        rw [unread_cons hv left, ← rest, ← first]
        refine ⟨Nat.succ_le_succ room, fun i d hi hd => ?_⟩
        cases i with
        | zero =>
          obtain rfl := Option.some.inj hd
          exact Bool.not_eq_true _ ▸ stop
        | succ i => exact none i d (by omega) hd

theorem parse_pmap_from_count (p : Pmap) (b : Buffer) : p.nrBytes ≤ (parsePmapFrom n p b).2.1.nrBytes := by
  induction n generalizing p b with
  | zero => exact Nat.le_refl _
  | succ n ih =>
    unfold parsePmapFrom
    cases nextByte b with
    | none => exact Nat.le_refl _
    | some cb =>
      simp only
      split
      · exact Nat.le_succ _
      · exact Nat.le_of_succ_le (ih { p with bytes := p.bytes.set p.nrBytes cb.1, nrBytes := p.nrBytes + 1 } cb.2)

/-- The first bit of a map is in its first byte. -/
theorem parse_pmap_first (hv : b.Valid) (size : p.bytes.length = pmapMaxBytes) (ok : (parsePmap b p).1 = .ok) :
    ∃ c, b.unread[0]? = some c ∧
      ({ (parsePmap b p).2.1 with isValid := true, pmapBit := 0 } : Pmap).pmapIsSet = (c &&& 0x40 != 0) := by
  have bit : ∀ (q : Pmap) (c : UInt8), q.bytes[0]? = some c → 1 ≤ q.nrBytes →
      ({ q with isValid := true, pmapBit := 0 } : Pmap).pmapIsSet = (c &&& 0x40 != 0) := by
    intro q c first count
    have read : ¬q.nrBytes ≤ 0 / 7 := by omega
    simp only [Pmap.pmapIsSet]
    rw [if_neg read, List.getD_eq_getElem?_getD, Nat.zero_div, first]
    rfl
  unfold parsePmap at ok ⊢
  rw [show pmapMaxBytes = 7 + 1 from rfl] at ok ⊢
  unfold parsePmapFrom at ok ⊢
  cases next : nextByte b with
  | none =>
    simp only [next] at ok
    cases ok
  | some cb =>
    obtain ⟨c, b'⟩ := cb
    obtain ⟨left, first, rest⟩ := next_byte_some hv next
    have stored : (p.bytes.set 0 c)[0]? = some c := List.getElem?_set_self (by rw [size]; decide)
    refine ⟨c, by rw [unread_cons hv left, ← first]; rfl, ?_⟩
    simp only
    split_ifs
    · exact bit _ c stored (Nat.le_refl _)
    · exact bit _ c ((parse_pmap_from_before Nat.one_pos).trans stored)
        (parse_pmap_from_count { p with nrBytes := 0 + 1, bytes := p.bytes.set 0 c } b')

end Maps

/-! ## Sessions -/

namespace Session

/-- The first bit of the map tells that the template id is on the wire. -/
def named (s : Session) : Bool := ({ s.pmap with pmapBit := 0 } : Pmap).pmapIsSet

/-- The message under way, or the next one, names its template; `rest` are the bytes to be received. -/
inductive Names (rest : List UInt8) (s : Session) : Prop
  | chosen (h : s.rxMessage ≠ none)
  | told (map : s.pmap.isValid = true) (h : s.named = true)
  | ahead (map : s.pmap.isValid = false)
    (h : ExplicitId (if s.preamble.isValid then 0 else s.preamble.nrBytes) (s.rxBuffer.unread ++ rest))

/-- Two sessions with the templates `o` that decode alike. -/
structure Alike (o : List Message) (rest : List UInt8) (s t : Session) : Prop where
  buffer : s.rxBuffer = t.rxBuffer
  template : s.rxMessage = t.rxMessage
  preamble : s.preamble.isValid = t.preamble.isValid
  nrBytes : s.preamble.nrBytes = t.preamble.nrBytes
  valid : s.pmap.isValid = t.pmap.isValid
  size : s.pmap.bytes.length = pmapMaxBytes ∧ t.pmap.bytes.length = pmapMaxBytes
  map : s.pmap.isValid = true → s.pmap.Alike t.pmap
  bit : s.pmap.isValid = true → s.rxMessage = none → s.pmap.pmapBit = 0 ∧ t.pmap.pmapBit = 0
  idle : s.pmap.isValid = false → s.rxMessage = none
  id : s.lastTid = t.lastTid ∨ s.Names rest
  left : s.rxMessages.length = o.length
  right : t.rxMessages.length = o.length
  messages : ∀ (i : Nat) (k m m' : Message), o[i]? = some k → s.rxMessages[i]? = some m → t.rxMessages[i]? = some m' →
    Message.Alike k (s.rxMessage = some i ∧ s.pmap.next.pmapIsSet = true) m m'

end Session

/-- Two stages that went alike. -/
structure Stage.Alike (o : List Message) (rest : List UInt8) (a a' : Stage) : Prop where
  ret : a.ret = a'.ret
  session : Session.Alike o rest a.session a'.session

section Header
variable {o : List Message} {rest : List UInt8} {s t : Session}

/-- Messages with the template ids of `o`. -/
theorem Session.Alike.ids (h : Session.Alike o rest s t) :
    s.rxMessages.map Message.tid = o.map Message.tid ∧ t.rxMessages.map Message.tid = o.map Message.tid := by
  have entries : ∀ i, i < o.length → ∃ k m m', o[i]? = some k ∧ s.rxMessages[i]? = some m ∧ t.rxMessages[i]? = some m' ∧
      m.tid = k.tid ∧ m'.tid = k.tid := by
    intro i inside
    have here := List.getElem?_eq_getElem inside
    have left := List.getElem?_eq_getElem (l := s.rxMessages) (i := i) (by rw [h.left]; exact inside)
    have right := List.getElem?_eq_getElem (l := t.rxMessages) (i := i) (by rw [h.right]; exact inside)
    have alike := h.messages i _ _ _ here left right
    exact ⟨_, _, _, here, left, right, alike.left.tid, alike.right.tid⟩
  have same : ∀ ms : List Message, ms.length = o.length →
      (∀ i, i < o.length → ∃ k m, o[i]? = some k ∧ ms[i]? = some m ∧ m.tid = k.tid) →
        ms.map Message.tid = o.map Message.tid := by
    intro ms length each
    refine List.ext_getElem? fun i => ?_
    rw [List.getElem?_map, List.getElem?_map]
    by_cases inside : i < o.length
    · obtain ⟨k, m, here, there, tid⟩ := each i inside
      rw [here, there, Option.map_some, Option.map_some, tid]
    · rw [List.getElem?_eq_none (by rw [length]; exact Nat.le_of_not_lt inside),
        List.getElem?_eq_none (Nat.le_of_not_lt inside)]
  constructor
  · refine same _ h.left fun i inside => ?_
    obtain ⟨k, m, -, here, left, -, tid, -⟩ := entries i inside
    exact ⟨k, m, here, left, tid⟩
  · refine same _ h.right fun i inside => ?_
    obtain ⟨k, -, m', here, -, right, -, tid⟩ := entries i inside
    exact ⟨k, m', here, right, tid⟩

theorem decode_preamble_alike (hv : s.rxBuffer.Valid) (h : Session.Alike o rest s t) :
    Stage.Alike o rest s.decodePreamble t.decodePreamble := by
  have asks : (t.preamble.nrBytes ≠ 0 ∧ (!t.preamble.isValid) = true) ↔
      (s.preamble.nrBytes ≠ 0 ∧ (!s.preamble.isValid) = true) := by rw [h.nrBytes, h.preamble]
  by_cases missing : s.preamble.nrBytes ≠ 0 ∧ (!s.preamble.isValid) = true
  · have size : t.rxBuffer.bufferSize < t.preamble.nrBytes ↔ s.rxBuffer.bufferSize < s.preamble.nrBytes := by
      rw [h.buffer, h.nrBytes]
    by_cases short : s.rxBuffer.bufferSize < s.preamble.nrBytes
    · rw [preamble_short missing short, preamble_short (asks.2 missing) (size.2 short)]
      exact ⟨rfl, h⟩
    · rw [preamble_read missing short, preamble_read (asks.2 missing) (fun short' => short (size.1 short')), ← h.buffer,
        ← h.nrBytes]
      refine ⟨rfl, { h with buffer := rfl, preamble := rfl, nrBytes := h.nrBytes, id := h.id.imp_right fun names => ?_ }⟩
      cases names with
      | chosen chosen => exact .chosen chosen
      | told map told => exact .told map told
      | ahead map ahead =>
        refine .ahead map ?_
        have invalid : s.preamble.isValid = false := by
          rw [← Bool.not_eq_true']
          exact missing.2
        have room : s.preamble.nrBytes ≤ s.rxBuffer.unread.length := by
          rw [length_unread hv, ← hv.size_eq]
          exact Nat.le_of_not_lt short
        rw [if_neg (by rw [invalid]; decide)] at ahead
        have taken : (takeBytes s.preamble.nrBytes s.rxBuffer).2.unread = s.rxBuffer.unread.drop s.preamble.nrBytes := by
          have split : s.rxBuffer.unread = s.rxBuffer.unread.take s.preamble.nrBytes ++
              s.rxBuffer.unread.drop s.preamble.nrBytes := (List.take_append_drop _ _).symm
          have rest := (unread_advance hv split).2
          rw [List.length_take, Nat.min_eq_left room] at rest
          rw [take_bytes_unread hv room]
          exact rest
        have behind := ExplicitId.drop (n := s.preamble.nrBytes) (m := 0) ahead
        rw [List.drop_append_of_le_length room, ← taken] at behind
        exact behind
  · rw [preamble_passed missing, preamble_passed fun missing' => missing (asks.1 missing')]
    exact ⟨rfl, h⟩

theorem decode_pmap_alike (hv : s.rxBuffer.Valid) (h : Session.Alike o rest s t)
    (preamble : ¬(s.preamble.nrBytes ≠ 0 ∧ (!s.preamble.isValid) = true)) :
    Stage.Alike o rest s.decodePmap t.decodePmap := by
  cases valid : s.pmap.isValid with
  | true =>
    rw [pmap_passed valid, pmap_passed (h.valid.symm.trans valid)]
    exact ⟨rfl, h⟩
  | false =>
    have valid' := h.valid.symm.trans valid
    have none := h.idle valid
    obtain ⟨ret, buffer, bytes⟩ := parse_pmap_alike (h.size.1.trans h.size.2.symm) s.rxBuffer
    have read : parsePmap t.rxBuffer t.pmap = parsePmap s.rxBuffer t.pmap := by rw [h.buffer]
    have kept : ∀ (b : Buffer) (p : Pmap), (parsePmap b p).2.1.isValid = p.isValid ∧
        (parsePmap b p).2.1.bytes.length = p.bytes.length :=
      fun _ _ => ⟨parse_pmap_from_cursor.1, parse_pmap_from_length⟩
    have sizes : (parsePmap s.rxBuffer s.pmap).2.1.bytes.length = pmapMaxBytes ∧
        (parsePmap s.rxBuffer t.pmap).2.1.bytes.length = pmapMaxBytes :=
      ⟨(kept _ _).2.trans h.size.1, (kept _ _).2.trans h.size.2⟩
    have ahead : s.Names rest → ExplicitId 0 (s.rxBuffer.unread ++ rest) := by
      intro names
      cases names with
      | chosen chosen => exact absurd none chosen
      | told map _ => cases valid.symm.trans map
      | ahead _ ahead =>
        have zero : (if s.preamble.isValid = true then 0 else s.preamble.nrBytes) = 0 := by
          split_ifs with read
          · rfl
          · by_contra more
            exact preamble ⟨more, by rw [Bool.eq_false_iff.2 read, Bool.not_false]⟩
        rw [zero] at ahead
        exact ahead
    -- the messages do not see the map: none is under way
    have messages : ∀ (p q : Pmap) (i : Nat) (k m m' : Message), o[i]? = some k → s.rxMessages[i]? = some m →
        t.rxMessages[i]? = some m' → Message.Alike k (s.rxMessage = some i ∧ p.next.pmapIsSet = true) m m' := by
      intro p q i k m m' hk hm hm'
      refine (h.messages i k m m' hk hm hm').mono fun here => ?_
      cases none.symm.trans here.1
    by_cases ok : (parsePmap s.rxBuffer s.pmap).1 = .ok
    · rw [pmap_read valid ok, pmap_read valid' (by rw [read]; exact ret.symm.trans ok), read]
      refine ⟨rfl, { h with
        buffer := buffer, valid := rfl, size := sizes, map := fun _ => bytes.alike true 0, bit := fun _ _ => ⟨rfl, rfl⟩,
        idle := fun invalid => by cases invalid
        id := h.id.imp_right fun names => ?_, messages := messages _ { t.pmap with isValid := true } }⟩
      obtain ⟨c, first, bit⟩ := parse_pmap_first hv h.size.1 ok
      refine .told rfl (bit.trans ((ahead names).bit c ?_))
      rw [List.getElem?_append_left (List.getElem?_eq_some_iff.1 first).1]
      exact first
    · have waiting : Session.Alike o rest { s with pmap := (parsePmap s.rxBuffer s.pmap).2.1 }
          { t with pmap := (parsePmap s.rxBuffer t.pmap).2.1 } := by
        refine { h with
          valid := (kept _ _).1.trans (h.valid.trans (kept _ _).1.symm), size := sizes
          map := fun map => by cases valid.symm.trans ((kept _ _).1.symm.trans map)
          bit := fun map => by cases valid.symm.trans ((kept _ _).1.symm.trans map)
          idle := fun _ => none
          id := h.id.imp_right fun names => ?_, messages := messages _ t.pmap }
        refine .ahead ((kept _ _).1.trans valid) ?_
        cases names with
        | chosen chosen => exact absurd none chosen
        | told map _ => cases valid.symm.trans map
        | ahead _ ahead => exact ahead
      by_cases short : (parsePmap s.rxBuffer s.pmap).1 = .msgPartial
      · rw [pmap_short hv valid short, pmap_short (h.buffer ▸ hv) valid' (by rw [read]; exact ret.symm.trans short), read]
        exact ⟨rfl, waiting⟩
      · rw [pmap_refused valid ok short,
          pmap_refused valid' (by rw [read, ← ret]; exact ok) (by rw [read, ← ret]; exact short), read]
        refine ⟨ret, { waiting with buffer := buffer, id := h.id.imp_right fun names => ?_ }⟩
        obtain ⟨room, none⟩ := parse_pmap_from_refused hv ok short
        obtain ⟨i, c, inside, at', stop⟩ := (ahead names).ends (by rw [List.length_append]; omega)
        rw [Nat.zero_add, List.getElem?_append_left (by omega)] at at'
        cases stop.symm.trans (none i c inside at')

/-- Both sessions take the same template id, off the wire or from the message returned last. -/
theorem read_tid_alike (h : Session.Alike o rest s t) (map : s.pmap.isValid = true) (none : s.rxMessage = none) :
    s.readTid = t.readTid ∧ (s.lastTid = t.lastTid ∨ s.named = true) := by
  obtain ⟨bit, bit'⟩ := h.bit map none
  have named : t.named = s.named := by
    have first := h.map map 0
    rw [Pmap.skip_zero, Pmap.skip_zero] at first
    have here : ({ s.pmap with pmapBit := 0 } : Pmap) = s.pmap := by rw [← bit]
    have there : ({ t.pmap with pmapBit := 0 } : Pmap) = t.pmap := by rw [← bit']
    rw [Session.named, Session.named, here, there, first]
  have known : s.lastTid = t.lastTid ∨ s.named = true := by
    refine h.id.imp_right fun names => ?_
    cases names with
    | chosen chosen => exact absurd none chosen
    | told _ told => exact told
    | ahead invalid _ => cases map.symm.trans invalid
  refine ⟨?_, known⟩
  show (if s.named = true then parseUint s.rxBuffer else Parse.done s.lastTid s.rxBuffer) =
    if t.named = true then parseUint t.rxBuffer else Parse.done t.lastTid t.rxBuffer
  rw [named, ← h.buffer]
  split_ifs with told
  · rfl
  · rw [known.resolve_right told]

theorem decode_tid_alike (hv : s.rxBuffer.Valid) (h : Session.Alike o rest s t) (map : s.pmap.isValid = true) :
    Stage.Alike o rest s.decodeTid t.decodeTid := by
  cases none : s.rxMessage with
  | some i =>
    rw [tid_passed none, tid_passed (h.template.symm.trans none)]
    exact ⟨rfl, h⟩
  | none =>
    have none' := h.template.symm.trans none
    obtain ⟨read, known⟩ := read_tid_alike h map none
    have behind : ∀ b : Buffer, Session.Alike o rest { s with rxBuffer := b } { t with rxBuffer := b } := fun b =>
      { h with buffer := rfl, id := known.imp_right fun told => .told map told }
    cases tid : s.readTid with
    | fail ret b =>
      have tid' := read.symm.trans tid
      by_cases short : ret = .msgPartial
      · rw [tid_short hv none (by rw [tid]; exact short), tid_short (h.buffer ▸ hv) none' (by rw [tid']; exact short)]
        exact ⟨rfl, h⟩
      · rw [tid_refused none tid short, tid_refused none' tid' short]
        exact ⟨rfl, behind b⟩
    | done v b =>
      rw [tid_read none tid, tid_read none' (read.symm.trans tid)]
      unfold Session.chooseTemplate
      rw [get_msg_ids h.ids.1, get_msg_ids h.ids.2]
      cases (o.map Message.tid).findIdx? (· == narrowTid v) with
      | none => exact ⟨rfl, behind b⟩
      | some i =>
        refine ⟨rfl, { behind b with
          template := rfl, bit := fun _ chosen => (by cases chosen), idle := fun invalid => (by cases map.symm.trans invalid)
          id := known.imp_right fun _ => .chosen (fun none => by cases none), messages := fun j k m m' hk hm hm' => ?_ }⟩
        refine (h.messages j k m m' hk hm hm').mono fun here => ?_
        cases none.symm.trans here.1

/-- The header of a message, one stage after the other. -/
theorem decode_header_alike (hv : s.rxBuffer.Valid) (h : Session.Alike o rest s t) :
    Stage.Alike o rest s.decodeHeader t.decodeHeader := by
  obtain ⟨ret, preamble⟩ := decode_preamble_alike hv h
  have valid := stage_preamble.valid hv
  unfold Session.decodeHeader Stage.andThen
  rw [← ret]
  by_cases read : s.decodePreamble.ret = .ok
  · rw [if_neg (not_not_intro read), if_neg (not_not_intro read)]
    obtain ⟨ret', pmap⟩ := decode_pmap_alike valid preamble (preamble_done read)
    rw [← ret']
    by_cases mapped : s.decodePreamble.session.decodePmap.ret = .ok
    · rw [if_neg (not_not_intro mapped), if_neg (not_not_intro mapped)]
      exact decode_tid_alike (stage_pmap.valid valid) pmap (pmap_done valid mapped)
    · rw [if_pos mapped, if_pos mapped]
      exact ⟨ret', pmap⟩
  · rw [if_pos read, if_pos read]
    exact ⟨ret, preamble⟩

end Header

/-! ## Calls -/

/-- What a call returns: the message, as the application sees it, or why there is none. -/
inductive Result where
  | message (m : MessageSeen)
  | refused (ret : Ret)
  deriving DecidableEq, Repr

def Decode.result (d : Decode) : Result :=
  match d.msg with
  | some m => .message m.seen
  | none => .refused d.ret

/-- Two calls that went alike. Of a call that stores outside of a field nothing is known but that the other one does. -/
structure Decode.Alike (o : List Message) (rest : List UInt8) (d d' : Decode) : Prop where
  ret : d.ret = d'.ret
  result : d.result = d'.result
  session : d.ret ≠ .fault → Session.Alike o rest d.session d'.session

section Call
variable {o : List Message} {rest : List UInt8} {s t : Session}

/-- The entries of all three at a place. -/
theorem Session.Alike.entries (h : Session.Alike o rest s t) {i : Nat} {m : Message} (here : s.rxMessages[i]? = some m) :
    ∃ k m', o[i]? = some k ∧ t.rxMessages[i]? = some m' := by
  have inside := (List.getElem?_eq_some_iff.1 here).1
  exact ⟨_, _, List.getElem?_eq_getElem (h.left ▸ inside), List.getElem?_eq_getElem (h.right.trans h.left.symm ▸ inside)⟩

/-- The message under way is decoded on, and returned if that was the rest of it. -/
theorem decode_message_alike (hv : s.rxBuffer.Valid) (h : Session.Alike o rest s t) (map : s.pmap.isValid = true) {i : Nat}
    (chosen : s.rxMessage = some i) {k m m' : Message} (hk : o[i]? = some k) (hm : s.rxMessages[i]? = some m)
    (hm' : t.rxMessages[i]? = some m') : Decode.Alike o rest (s.decodeMessage i m) (t.decodeMessage i m') := by
  have message := h.messages i k m m' hk hm hm'
  have run : FieldsRun.Alike k.fields s.pmap t.pmap (s.messageFields m) (t.messageFields m') := by
    have count : m'.fields.length - m'.decoded = m.fields.length - m.decoded := by
      rw [message.fields.left, message.fields.right, message.decoded]
    unfold Session.messageFields
    rw [count, ← message.decoded, ← h.buffer]
    exact decode_fields_alike _ hv (h.map map) (message.fields.mono And.right)
  obtain ⟨ret, buffer, decoded, ⟨j, pmap, pmap'⟩, fields⟩ := run
  have sizes : (s.messageFields m).pmap.bytes.length = pmapMaxBytes ∧ (t.messageFields m').pmap.bytes.length = pmapMaxBytes := by
    rw [pmap, pmap']
    exact h.size
  have others : ∀ {n n' : Message} (wire : Nat → Prop) (next : Message.Alike k (wire i) n n') (l : Nat)
      (k₁ m₁ m₂ : Message), o[l]? = some k₁ → (s.rxMessages.set i n)[l]? = some m₁ → (t.rxMessages.set i n')[l]? = some m₂ →
        Message.Alike k₁ (wire l) m₁ m₂ := by
    intro n n' wire next l k₁ m₁ m₂ hk₁ hm₁ hm₂
    rcases set_entries hm₁ hm₂ with ⟨rfl, rfl, rfl⟩ | ⟨other, hm₁, hm₂⟩
    · obtain rfl := Option.some.inj (hk.symm.trans hk₁)
      exact next
    · refine (h.messages l k₁ m₁ m₂ hk₁ hm₁ hm₂).mono fun here => ?_
      exact absurd (Option.some.inj (chosen.symm.trans here.1)).symm other
  unfold Session.decodeMessage
  by_cases ok : (s.messageFields m).ret = .ok
  · rw [finish_message_done ok, finish_message_done (ret.symm.trans ok)]
    have running := fields fun fault => by cases ok.symm.trans fault
    have all : (s.messageFields m).fields.length ≤ (s.messageFields m).decoded := by
      rw [running.left, ← message.fields.left]
      exact decode_fields_end ok (by omega)
    have shown := running.shown all
    have tids : m.tid = m'.tid := message.left.tid.trans message.right.tid.symm
    refine ⟨rfl, ?_, fun _ => ?_⟩
    · simp only [Decode.result, Message.seen, shown, message.left.name, message.left.tid, message.left.flagReset,
        message.right.name, message.right.tid, message.right.flagReset]
    · refine
        { buffer := buffer, template := rfl, preamble := rfl, nrBytes := h.nrBytes, valid := rfl, size := sizes
          map := ?_, bit := ?_, idle := fun _ => rfl, id := .inl tids
          left := List.length_set.trans h.left, right := List.length_set.trans h.right, messages := ?_ }
      · intro map
        cases map
      · intro map
        cases map
      · refine others (fun l => none = some l ∧ _) ?_
        exact ⟨⟨message.left.name, message.left.tid, message.left.flagReset⟩,
          ⟨message.right.name, message.right.tid, message.right.flagReset⟩, rfl, running.rewound all⟩
  · rw [finish_message_failed ok, finish_message_failed fun ok' => ok (ret.trans ok')]
    refine ⟨ret, congrArg Result.refused ret, fun defined => ?_⟩
    have running := fields defined
    have kept : (s.messageFields m).pmap.isValid = true ∧ (t.messageFields m').pmap.isValid = true := by
      rw [pmap, pmap']
      exact ⟨map, h.valid.symm.trans map⟩
    refine
      { buffer := buffer, template := h.template, preamble := h.preamble, nrBytes := h.nrBytes
        valid := kept.1.trans kept.2.symm, size := sizes, map := fun _ => ?_, bit := ?_, idle := ?_
        id := h.id.imp_right fun _ => ?_, left := List.length_set.trans h.left, right := List.length_set.trans h.right
        messages := ?_ }
    · show (s.messageFields m).pmap.Alike (t.messageFields m').pmap
      rw [pmap, pmap']
      exact (h.map map).skip j
    · intro _ none
      cases chosen.symm.trans none
    · intro invalid
      cases kept.1.symm.trans invalid
    · refine .chosen fun none => ?_
      cases chosen.symm.trans none
    · refine others (fun l => s.rxMessage = some l ∧ _) ?_
      exact ⟨⟨message.left.name, message.left.tid, message.left.flagReset⟩,
        ⟨message.right.name, message.right.tid, message.right.flagReset⟩, decoded, running.mono fun set => ⟨chosen, set⟩⟩

/-- **A call.** Sessions that decode alike return the same and still decode alike. -/
theorem decode_alike (hv : s.rxBuffer.Valid) (h : Session.Alike o rest s t) :
    Decode.Alike o rest s.fastMessageDecode t.fastMessageDecode := by
  obtain ⟨ret, header⟩ := decode_header_alike hv h
  by_cases ok : s.decodeHeader.ret = .ok
  · have ok' := ret.symm.trans ok
    cases chosen : s.decodeHeader.session.rxMessage with
    | none =>
      rw [decode_no_template ok chosen, decode_no_template ok' (header.template.symm.trans chosen)]
      exact ⟨rfl, rfl, fun _ => header⟩
    | some i =>
      have chosen' := header.template.symm.trans chosen
      cases slot : s.decodeHeader.session.rxMessages[i]? with
      | none =>
        have out : t.decodeHeader.session.rxMessages[i]? = none := by
          rw [List.getElem?_eq_none_iff] at slot ⊢
          rw [header.right, ← header.left]
          exact slot
        rw [decode_lost ok chosen slot, decode_lost ok' chosen' out]
        exact ⟨rfl, rfl, fun defined => absurd rfl defined⟩
      | some m =>
        obtain ⟨k, m', hk, slot'⟩ := header.entries slot
        rw [decode_fields_of ok chosen slot, decode_fields_of ok' chosen' slot']
        exact decode_message_alike (stage_header.valid hv) header (header_done hv ok).pmap chosen hk slot slot'
  · rw [decode_stopped ok, decode_stopped fun ok' => ok (ret.trans ok')]
    exact ⟨ret, congrArg Result.refused ret, fun _ => header⟩

end Call

/-! ## Runs -/

namespace Session

/-- What the calls of a run return, up to one that stores outside of a field: after it C says nothing. -/
def results (s : Session) : List SessionCall → List Result
  | [] => []
  | .receive x :: calls => (s.receive x).results calls
  | .compact :: calls => ({ s with rxBuffer := s.rxBuffer.bufferCompact } : Session).results calls
  | .decode :: calls =>
    s.fastMessageDecode.result ::
      if s.fastMessageDecode.ret = .fault then [] else s.fastMessageDecode.session.results calls
  | .reset :: calls => s.fastSessionReset.results calls

end Session

/-- The bytes that arrive in a run. -/
def arriving : List SessionCall → List UInt8
  | [] => []
  | .receive x :: calls => x ++ arriving calls
  | _ :: calls => arriving calls

section Runs
variable {o : List Message} {s t : Session}

/-- Sessions that decode alike return the same in a run without another reset, by induction on its calls. -/
theorem results_alike {calls : List SessionCall} (hs : s.Regular) (h : Session.Alike o (arriving calls) s t)
    (plain : .reset ∉ calls) : s.results calls = t.results calls := by
  induction calls generalizing s t with
  | nil => rfl
  | cons call calls ih =>
    have plain' : .reset ∉ calls := fun reset => plain (List.mem_cons_of_mem _ reset)
    have moved : ∀ (b c : Buffer), b = c → b.unread ++ arriving calls = s.rxBuffer.unread ++ arriving (call :: calls) →
        Session.Alike o (arriving calls) { s with rxBuffer := b } { t with rxBuffer := c } := by
      rintro b _ rfl unread
      refine { h with buffer := rfl, id := h.id.imp_right fun names => ?_ }
      cases names with
      | chosen chosen => exact .chosen chosen
      | told map told => exact .told map told
      | ahead map ahead =>
        refine .ahead map ?_
        rw [unread]
        exact ahead
    cases call with
    | receive x =>
      refine ih (hs.receive x) (moved _ _ (by rw [h.buffer]) ?_) plain'
      rw [unread_receive hs.valid, List.append_assoc]
      rfl
    | compact =>
      obtain ⟨valid, unread, -⟩ := hs.valid.compact
      refine ih ⟨valid, hs.regular⟩ (moved _ _ (by rw [h.buffer]) ?_) plain'
      rw [unread]
      rfl
    | decode =>
      obtain ⟨ret, result, session⟩ := decode_alike hs.valid h
      unfold Session.results
      rw [← ret, result]
      split_ifs with fault
      · rfl
      · rw [ih (decode_regular hs) (session fault) plain']
    | reset => exact absurd List.mem_cons_self plain

/-- Where the bytes lie in memory makes no difference to a run. -/
theorem results_packed {calls : List SessionCall} (hs : s.Regular) (ht : t.Regular) (same : s.packed = t.packed) :
    s.results calls = t.results calls := by
  induction calls generalizing s t with
  | nil => rfl
  | cons call calls ih =>
    cases call with
    | receive x =>
      refine ih (hs.receive x) (ht.receive x) ?_
      rw [Session.packed_receive hs.valid, Session.packed_receive ht.valid, same]
    | compact =>
      have kept : ∀ {u : Session}, u.Regular → ({ u with rxBuffer := u.rxBuffer.bufferCompact } : Session).Regular ∧
          ({ u with rxBuffer := u.rxBuffer.bufferCompact } : Session).packed = u.packed := by
        intro u hu
        obtain ⟨valid, unread, -⟩ := hu.valid.compact
        exact ⟨⟨valid, hu.regular⟩, by simp only [Session.packed, Session.withBytes, unread]⟩
      exact ih (kept hs).1 (kept ht).1 ((kept hs).2.trans (same.trans (kept ht).2.symm))
    | decode =>
      have call : s.fastMessageDecode.packed = t.fastMessageDecode.packed := by
        rw [← decode_packed hs, ← decode_packed ht, same]
      have ret : s.fastMessageDecode.ret = t.fastMessageDecode.ret := by
        show s.fastMessageDecode.packed.ret = t.fastMessageDecode.packed.ret
        rw [call]
      have msg : s.fastMessageDecode.msg = t.fastMessageDecode.msg := by
        show s.fastMessageDecode.packed.msg = t.fastMessageDecode.packed.msg
        rw [call]
      have result : s.fastMessageDecode.result = t.fastMessageDecode.result := by rw [Decode.result, Decode.result, msg, ret]
      unfold Session.results
      rw [ret, result, ih (decode_regular hs) (decode_regular ht) (congrArg Decode.session call)]
    | reset => exact ih hs.reset ht.reset (congrArg Session.fastSessionReset same)

end Runs

end Libtrading.Fast
