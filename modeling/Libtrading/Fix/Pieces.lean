import Libtrading.Fix.Resync
import Libtrading.Fix.Room

/-!
# Messages in pieces

The first bytes of a message are waited on, wherever they end: in a field of the frame, where its SOH is missing,
or behind it, where BodyLength says that more is to come. So a receiver that is given a row of messages piece by
piece returns the next one in the call that has its last byte, and never another.
-/

namespace Libtrading.Fix
open Buffer Wire Bytes
set_option autoImplicit false
universe u

/-! ## The first bytes of a message -/

/-- A list that starts two others, one behind the other, ends in the first or goes through it. -/
theorem prefix_split {u v a b : List UInt8} (h : a ++ b = u ++ v) :
    (∃ w, w ≠ [] ∧ a = u ++ w) ∨ ∃ u', u = a ++ u' ∧ b = u' ++ v := by
  rcases List.append_eq_append_iff.1 h with ⟨w, through, rest⟩ | ⟨w, inside, rest⟩
  · exact .inr ⟨w, through, rest⟩
  · by_cases some : w = []
    · subst some
      refine .inr ⟨[], ?_, ?_⟩
      · rw [inside]
        simp only [List.append_nil]
      · exact rest.symm
    · exact .inl ⟨w, some, inside⟩

/-- A field without its end is waited on. -/
theorem match_field_cut (tag : Tag) {t v u w : List UInt8} (digits : t.all isDigit = true) (number : fixUatoi t = tag)
    (soh : 1 ∉ v) (some : w ≠ []) (split : fieldText t v = u ++ w) :
    ∃ r, Bytes.matchField u tag = .stop .msgPartial r := by
  rcases prefix_split split with ⟨w', -, inside⟩ | ⟨u', rfl, rest⟩
  · -- the cut is in the tag
    refine ⟨[], match_field_no_tag tag fun equals => ?_⟩
    exact digits_no_equals digits (inside ▸ List.mem_append_left _ equals)
  · cases u' with
    | nil =>
      refine ⟨[], match_field_no_tag tag ?_⟩
      rw [List.append_nil]
      exact digits_no_equals digits
    | cons c u' =>
      obtain ⟨rfl, value⟩ := List.cons.inj rest
      have inside : 1 ∉ u' := by
        rcases prefix_split value with ⟨w', -, inside⟩ | ⟨u'', rfl, rest⟩
        · exact fun h => soh (inside ▸ List.mem_append_left _ h)
        · have none : u'' = [] := by
            cases u'' with
            | nil => rfl
            | cons _ _ =>
              have length := congrArg List.length rest
              have pos := List.length_pos_iff.2 some
              simp only [List.cons_append, List.length_cons, List.length_append, List.length_nil] at length
              omega
          rw [none, List.append_nil]
          exact soh
      have found : Bytes.parseTag (t ++ '='.toNat.toUInt8 :: u') = .done tag u' :=
        parse_tag_done.2 ⟨t, rfl, digits, number⟩
      refine ⟨[], ?_⟩
      rw [Bytes.matchField, found]
      simp only [ne_eq, not_true, if_false]
      rw [Bytes.parseValue, cut_eq_none.2 inside]

section
variable {F : Type u} [Doubles F] {dialect : Dialect} {t : WireMessage} {flags : U64}

/-- **A message in pieces.** Without its last bytes it is waited on. -/
theorem incomplete_front (h : WellFormed dialect t) {u v : List UInt8} (split : t.text = u ++ v) (some : v ≠ []) :
    Incomplete F dialect flags u := by
  have len := h.bodyLength
  have le := h.size
  have max : fixMaxMessageSize = 1280 := rfl
  have whole := text_append t []
  rw [List.append_nil, split, WireMessage.behindBegin, body_append] at whole
  rcases prefix_split whole.symm with ⟨w, more, cut⟩ | ⟨u₁, rfl, rest₁⟩
  · obtain ⟨r, waits⟩ := match_field_cut Tag.beginString rfl rfl h.proper.beginString more cut
    exact ⟨r, by rw [attempt, Bytes.firstThreeFields, waits]⟩
  · have h8 : Bytes.matchField (fieldText (chars "8") t.beginString ++ u₁) Tag.beginString = .done t.beginString u₁ :=
      match_field_done.2 ⟨chars "8", rfl, rfl, rfl, h.proper.beginString⟩
    rcases prefix_split rest₁ with ⟨w, more, cut⟩ | ⟨u₂, rfl, rest₂⟩
    · obtain ⟨r, waits⟩ := match_field_cut Tag.bodyLength rfl rfl (digits_no_soh h.proper.bodyLength) more cut
      exact ⟨r, by rw [attempt, Bytes.firstThreeFields, h8]; simp only [Bytes.parseBodyLength, waits]⟩
    · have h9 := body_length_text h.proper len (len ▸ le) u₂
      rcases prefix_split rest₂ with ⟨w, more, cut⟩ | ⟨u₃, rfl, rest₃⟩
      · obtain ⟨r, waits⟩ := match_field_cut Tag.msgType rfl rfl h.proper.msgType more cut
        exact ⟨r, by rw [attempt, Bytes.firstThreeFields, h8]; simp only [h9, Bytes.parseMsgType, waits]⟩
      · -- the frame is there, and BodyLength says that more is to come
        have h35 : Bytes.matchField (fieldText (chars "35") t.msgType ++ u₃) Tag.msgType = .done t.msgType u₃ :=
          match_field_done.2 ⟨chars "35", rfl, rfl, rfl, h.proper.msgType⟩
        have found : ∃ type, Bytes.parseMsgType (fieldText (chars "35") t.msgType ++ u₃) flags =
            .done (t.msgType, type) u₃ := by
          rw [Bytes.parseMsgType, h35]
          by_cases untyped : flags &&& noType ≠ 0
          · exact ⟨.unknown, by simp only [if_pos untyped]⟩
          · exact ⟨typeOf t.msgType, by simp only [if_neg untyped, if_neg h.known]⟩
        obtain ⟨type, found⟩ := found
        have short : leftFrom t.msgType u₃ + 3 < t.body.length + 7 := by
          have lengths := congrArg List.length rest₃
          have size := congrArg List.length (body_append t [])
          have pos := List.length_pos_iff.2 some
          have three := h.threeDigits
          have ten : (chars "10").length = 2 := rfl
          have two : (chars "35").length = 2 := rfl
          simp only [List.append_nil, List.length_append, length_field_text, ten, two] at lengths size
          rw [leftFrom]
          omega
        refine ⟨u₃, ?_⟩
        rw [attempt, Bytes.firstThreeFields, h8]
        simp only [h9, found, Bytes.checksum]
        rw [if_pos (by rw [BitVec.toNat_ofNat, Nat.mod_eq_of_lt (by omega)]; exact short)]

/-! ## The ends of texts -/

/-- The text of a STRING goes on to its SOH. -/
def FixField.Ends (f : FixField F) : Prop := ∀ p, f.value = .string p → 1 ∈ p

/-- A text that is stored has the SOH in it that is in the memory. -/
theorem stored_ends {type : FixType} {v w p : List UInt8} (stored : storedValue (F := F) type (v ++ 1 :: w) = some (.string p)) :
    1 ∈ p := by
  cases type with
  | string =>
    cases stored
    exact List.mem_append_right _ List.mem_cons_self
  | int | float | char | checkSum | msgSeqNum | string8 => cases stored

/-- The loop over the fields stores no text without its SOH, by induction on the turns. -/
theorem rest_ends {b : Buffer} (hv : b.Valid) (n : Nat) {s s' : Rest F} {r : List UInt8} {b' : Buffer}
    (hr : r <:+ b.unread) (all : ∀ f ∈ s.fields, f.Ends)
    (stored : restOfMessageFrom dialect n s (b.leaving r.length) = some (s', b')) : ∀ f ∈ s'.fields, f.Ends := by
  induction n generalizing s r with
  | zero =>
    cases stored
    exact List.forall_mem_nil _
  | succ n ih =>
    rw [restOfMessageFrom, parse_field_eq hv hr] at stored
    cases hf : Bytes.parseField r with
    | stop ret r' =>
      rw [hf] at stored
      cases stored
      exact List.forall_mem_nil _
    | done p r' =>
      obtain ⟨tag, v⟩ := p
      rw [hf] at stored
      have within := (Bytes.parse_field_within hf).trans hr
      simp only [leaving_data, memory_value hv within] at stored
      cases type : dialect.tagType tag with
      | checkSum =>
        rw [type] at stored
        cases stored
        exact all
      | msgSeqNum =>
        rw [type] at stored
        refine ih within.rest ?_ stored
        exact all
      | int | float | char | string | string8 =>
        rw [type] at stored
        simp only at stored
        cases value : (storedValue _ (v ++ 1 :: (r' ++ b.data.drop b.stop)) : Option (FieldValue F)) with
        | none =>
          rw [value] at stored
          exact ih within.rest all stored
        | some x =>
          rw [value] at stored
          simp only at stored
          split at stored
          · refine ih within.rest (List.forall_mem_append.2 ⟨all, List.forall_mem_singleton.2 fun p is => ?_⟩) stored
            cases is
            exact stored_ends value
          · cases stored

/-- No text of a message that is parsed is without its SOH, by induction on the attempts. -/
theorem parse_from_texts {b : Buffer} (hv : b.Valid) (n : Nat) (self : FixMessage F) {r : List UInt8} (hr : r <:+ b.unread)
    {m : FixMessage F} {start : Nat} {b' : Buffer}
    (parsed : fixMessageParseFrom dialect flags n self (b.leaving r.length) = .message m start b') :
    ∀ f ∈ m.fields, f.Ends := by
  induction n generalizing r with
  | zero => cases parsed
  | succ n ih =>
    rw [fixMessageParseFrom] at parsed
    split at parsed
    · cases parsed
    rw [first_three_eq hv hr flags] at parsed
    cases h3 : Bytes.firstThreeFields r flags with
    | stop ret r' =>
      rw [h3] at parsed
      cases ret with
      | msgPartial => cases parsed
      | garbled => exact ih ((Bytes.first_three_suffix h3).trans hr) parsed
    | done f r₃ =>
      have inside := Bytes.first_three_inside h3
      rw [h3] at parsed
      simp only at parsed
      rcases checksum_eq hv hr inside flags with ⟨c, source, -⟩ | ⟨ret, r', suffix, source, -⟩
      · rw [source] at parsed
        simp only at parsed
        rw [restOfMessage] at parsed
        split at parsed
        · cases parsed
        · next stored =>
          cases parsed
          exact rest_ends hv _ (inside.rest.trans hr) (List.forall_mem_nil _) stored
      · rw [source] at parsed
        cases ret with
        | msgPartial => cases parsed
        | garbled => exact ih (suffix.trans hr) parsed

theorem parse_texts {b : Buffer} (hv : b.Valid) {self m : FixMessage F} {start : Nat} {b' : Buffer}
    (parsed : fixMessageParse dialect flags self b = .message m start b') : ∀ f ∈ m.fields, f.Ends := by
  have whole := leaving_self hv
  rw [fixMessageParse, ← whole] at parsed
  exact parse_from_texts hv _ self (List.suffix_refl b.unread) parsed

/-! ## Parsing a row of messages -/

/-- A well-formed message that fits the array of fields and the buffers it is sent from. -/
structure Sendable (F : Type u) [Doubles F] (dialect : Dialect) (t : WireMessage) : Prop where
  wellFormed : WellFormed dialect t
  fields : (storedFields (F := F) dialect t.fields).length ≤ fixMaxFieldNumber
  size : t.text.length ≤ fixMaxMessageSize

/-- What is returned for a message. -/
structure Arrived (dialect : Dialect) (t : WireMessage) (m : FixMessage F) : Prop where
  type : m.type = typeOf t.msgType
  msgSeqNum : ∀ f ∈ t.fields, dialect.tagType f.number = .msgSeqNum → m.msgSeqNum = (fixUatoi f.value).signExtend 64
  fields : m.fields.map FixField.text = storedFields dialect t.fields
  ends : ∀ f ∈ m.fields, f.Ends

/-- The bytes of messages one behind the other. -/
def rowText (ts : List WireMessage) : List UInt8 := ts.flatMap WireMessage.text

variable (flags) in
/-- The beginning of a row of messages is a message with the beginning of the others behind it, or is waited on;
it is not all of the row then, unless there is none. -/
theorem row_cases {ts : List WireMessage} (all : ∀ t ∈ ts, Sendable F dialect t) {u w : List UInt8}
    (bytes : rowText ts = u ++ w) :
    (∃ t ts' r, ts = t :: ts' ∧ u = t.text ++ r ∧ rowText ts' = r ++ w) ∨
      (Incomplete F dialect flags u ∧ u.length ≤ fixMaxMessageSize ∧ (w = [] → ts = [])) := by
  cases ts with
  | nil =>
    have none : u = [] := (List.append_eq_nil_iff.1 bytes.symm).1
    subst none
    exact .inr ⟨.nil, Nat.zero_le _, fun _ => rfl⟩
  | cons t ts =>
    rw [rowText, List.flatMap_cons] at bytes
    have sendable := all t List.mem_cons_self
    rcases prefix_split bytes with ⟨v, more, cut⟩ | ⟨r, rfl, rest⟩
    · have length := congrArg List.length cut
      have size := sendable.size
      rw [List.length_append] at length
      refine .inr ⟨incomplete_front sendable.wellFormed cut more, by omega, ?_⟩
      rintro rfl
      -- the row would end inside of its first message
      have whole := congrArg List.length bytes
      have pos := List.length_pos_iff.2 more
      simp only [List.append_nil, List.length_append] at whole
      omega
    · exact .inl ⟨t, ts, r, rfl, rfl, rest⟩

/-- A parse of a message with anything behind it returns that message. -/
theorem parse_arrives (typed : flags &&& noType = 0) (h : Sendable F dialect t) {b : Buffer} (hv : b.Valid)
    {r : List UInt8} (unread : b.unread = t.text ++ r) (self : FixMessage F) :
    ∃ m start, fixMessageParse dialect flags self b = .message m start (b.leaving r.length) ∧ Arrived dialect t m := by
  have agrees := parse_agrees dialect flags hv self
  have found := attempt_well_formed (F := F) h.wellFormed typed self.msgSeqNum r
  rw [if_pos h.fields] at found
  rw [unread, parse_done found] at agrees
  have ends {m : FixMessage F} {start : Nat} {b' : Buffer} (parsed : fixMessageParse dialect flags self b = .message m start b') :=
    parse_texts hv parsed
  generalize hp : fixMessageParse dialect flags self b = p at agrees ends
  generalize hm : (⟨typeOf t.msgType, .ofNat 64 t.body.length,
    ⟨lastSeqNum dialect self.msgSeqNum t.fields, storedFields dialect t.fields⟩⟩ : Report F) = report at agrees
  cases agrees with
  | message m _ _ =>
    refine ⟨m, _, rfl, (congrArg Report.type hm).symm, ?_, (congrArg (fun x => x.rest.fields) hm).symm, ends rfl⟩
    intro f hf seq
    have last := last_seq_num dialect t.fields self.msgSeqNum h.wellFormed.agree f hf seq
    exact (congrArg (fun x => x.rest.msgSeqNum) hm).symm.trans last

end

/-! ## Receiving a row of messages -/

namespace Session
variable {F : Type u} [Doubles F] {dialect : Dialect} {flags : U64}

/-- A socket on which nothing was closed delivers some bytes as long as there are any. -/
theorem io_recv_open {sock : Socket} {count : Nat} (opened : ∀ x ∈ sock, x ≠ []) (room : 0 < count) :
    (sock = [] ∧ ioRecv sock count = (none, [])) ∨
      ∃ x sock', ioRecv sock count = (some x, sock') ∧ x ≠ [] ∧ sock.flatten = x ++ sock'.flatten ∧
        ∀ y ∈ sock', y ≠ [] := by
  cases sock with
  | nil => exact .inl ⟨rfl, rfl⟩
  | cons x xs =>
    refine .inr ?_
    have some := opened x List.mem_cons_self
    have others : ∀ y ∈ xs, y ≠ [] := fun y hy => opened y (List.mem_cons_of_mem _ hy)
    rw [ioRecv]
    by_cases fits : x.length ≤ count
    · rw [if_pos fits]
      exact ⟨x, xs, rfl, some, List.flatten_cons, others⟩
    · rw [if_neg fits]
      refine ⟨x.take count, x.drop count :: xs, rfl, ?_, ?_, ?_⟩
      · intro none
        have length := congrArg List.length none
        rw [List.length_take, List.length_nil] at length
        omega
      · rw [List.flatten_cons, List.flatten_cons, ← List.append_assoc, List.take_append_drop]
      · intro y hy
        rcases List.mem_cons.1 hy with rfl | later
        · intro none
          have length := congrArg List.length none
          rw [List.length_drop, List.length_nil] at length
          omega
        · exact others y later

/-- A session that a row of messages is on the way to: it has some of its bytes, its socket the next ones, and the others
come later. -/
structure Awaits (dialect : Dialect) (s : Session F) (sock : Socket) (later : List UInt8) (ts : List WireMessage) :
    Prop where
  receives : s.Receives
  dialect : s.dialect = dialect
  opened : ∀ x ∈ sock, x ≠ []
  bytes : rowText ts = s.rxBuffer.unread ++ (sock.flatten ++ later)

/-- What a call makes of a row: it returns the first message, or nothing but has received bytes, or fails with no
message left but those whose bytes come later. -/
inductive Receipt (dialect : Dialect) (ts : List WireMessage) (sock : Socket) (later : List UInt8) :
    Ret F × Session F × Socket → Prop
  | message {t : WireMessage} {ts' : List WireMessage} {m : FixMessage F} {s' : Session F} {sock' : Socket}
    (first : ts = t :: ts') (arrived : Arrived dialect t m) (awaits : s'.Awaits dialect sock' later ts')
    (received : sock'.flatten.length ≤ sock.flatten.length) : Receipt dialect ts sock later (.message m, s', sock')
  | nothing {s' : Session F} {sock' : Socket} (awaits : s'.Awaits dialect sock' later ts)
    (received : sock'.flatten.length < sock.flatten.length) : Receipt dialect ts sock later (.nothing, s', sock')
  | failed {s' : Session F} (awaits : s'.Awaits dialect [] later ts) (none : later = [] → ts = []) :
    Receipt dialect ts sock later (.failed, s', [])

/-- The second parse of a call that has received. -/
theorem again_receipt {s : Session F} {ts : List WireMessage} {sock sock' : Socket} {later : List UInt8} {b : Buffer}
    (typed : flags &&& noType = 0) (all : ∀ t ∈ ts, Sendable F dialect t) (same : s.dialect = dialect) (hv : b.Valid)
    (size : b.data.length = recvBufferSize) (opened : ∀ x ∈ sock', x ≠ [])
    (bytes : rowText ts = b.unread ++ (sock'.flatten ++ later)) (received : sock'.flatten.length < sock.flatten.length) :
    Receipt dialect ts sock later ((s.parseAgain b flags).1, (s.parseAgain b flags).2, sock') := by
  subst same
  rw [parseAgain]
  rcases row_cases flags all bytes with ⟨t, ts', r, rfl, unread, rest⟩ | ⟨waits, -, -⟩
  · obtain ⟨m, start, parsed, arrived⟩ := parse_arrives typed (all t List.mem_cons_self) hv unread s.rxMessage
    have suffix : r <:+ b.unread := unread ▸ List.suffix_append _ _
    obtain ⟨hv', unread'⟩ := unread_leaving hv suffix
    rw [parsed]
    exact .message rfl arrived ⟨⟨hv', size⟩, rfl, opened, rest.trans (congrArg (· ++ _) unread'.symm)⟩ received.le
  · have parsed : fixMessageParse s.dialect flags s.rxMessage b = _ := waits_of_comes s.rxMessage hv ⟨.refl, waits⟩
    rw [leaving_self hv] at parsed
    rw [parsed]
    exact .nothing ⟨⟨hv, size⟩, rfl, opened, bytes⟩ received

/-- **One call.** -/
theorem recv_receipt {s : Session F} {ts : List WireMessage} {sock : Socket} {later : List UInt8}
    (typed : flags &&& noType = 0) (all : ∀ t ∈ ts, Sendable F dialect t) (h : s.Awaits dialect sock later ts) :
    Receipt dialect ts sock later (s.fixSessionRecv sock flags) := by
  obtain ⟨⟨hv, size⟩, same, open', bytes⟩ := h
  subst same
  rw [fixSessionRecv]
  rcases row_cases flags all bytes with ⟨t, ts', r, rfl, unread, rest⟩ | ⟨waits, small, ends⟩
  · obtain ⟨m, start, parsed, arrived⟩ := parse_arrives typed (all t List.mem_cons_self) hv unread s.rxMessage
    have suffix : r <:+ s.rxBuffer.unread := unread ▸ List.suffix_append _ _
    obtain ⟨hv', unread'⟩ := unread_leaving hv suffix
    rw [parsed]
    exact .message rfl arrived ⟨⟨hv', size⟩, rfl, open', rest.trans (congrArg (· ++ _) unread'.symm)⟩
      (Nat.le_refl _)
  · have parsed : fixMessageParse s.dialect flags s.rxMessage s.rxBuffer = _ :=
      waits_of_comes s.rxMessage hv ⟨.refl, waits⟩
    rw [leaving_self hv] at parsed
    obtain ⟨hvc, sizec, unread, room⟩ := compacted_room hv size
    have room := room.2 (by simp only [recvBufferSize, fixMaxMessageSize, fixMaxHeadLen, fixMaxBodyLen] at *; omega)
    rw [parsed]
    simp only [if_pos room]
    rcases io_recv_open open' (Nat.sub_pos_of_lt room) with ⟨none, io⟩ | ⟨x, sock', io, some, flatten, opened⟩
    · rw [io]
      refine .failed ⟨⟨hvc, sizec⟩, rfl, fun _ hx => absurd hx List.not_mem_nil, ?_⟩ fun ended => ends ?_
      · rw [unread]
        rwa [none] at bytes
      · rw [none, ended]
        rfl
    · have heard : heard s.rxBuffer sock = x := by
        rw [heard, if_pos room, io]
        rfl
      obtain ⟨hv₂, size₂, unread₂⟩ := heard_unread hv size sock
      rw [heard] at hv₂ size₂ unread₂
      have received : sock'.flatten.length < sock.flatten.length := by
        have pos := List.length_pos_iff.2 some
        rw [flatten, List.length_append]
        omega
      rw [flatten, List.append_assoc, ← List.append_assoc, ← unread₂] at bytes
      rw [io]
      cases x with
      | nil => exact absurd rfl some
      | cons c x => exact again_receipt typed all rfl hv₂ size₂ opened bytes received

/-- The messages among what calls return. -/
def messages (rets : List (Ret F)) : List (FixMessage F) :=
  rets.filterMap fun r => match r with
    | .message m => some m
    | _ => none

/-- **A row of messages arrives.** Calls return the first of its messages, in order, and each call that returns none
has received bytes, until there are no more. -/
theorem run_arrives {s : Session F} {ts : List WireMessage} {sock : Socket} (typed : flags &&& noType = 0)
    (all : ∀ t ∈ ts, Sendable F dialect t) (h : s.Awaits dialect sock [] ts) (n : Nat) :
    ∃ ts₁ ts₂, ts = ts₁ ++ ts₂ ∧ List.Forall₂ (Arrived dialect) ts₁ (messages (recvRun flags n s sock).1) ∧
      (recvRun flags n s sock).2.1.Awaits dialect (recvRun flags n s sock).2.2 [] ts₂ ∧
      ts₂.length + (recvRun flags n s sock).2.2.flatten.length ≤ ts.length + sock.flatten.length - n := by
  induction n generalizing s ts sock with
  | zero => exact ⟨[], ts, rfl, .nil, h, Nat.le_refl _⟩
  | succ n ih =>
    have receipt : Receipt dialect ts sock [] (s.fixSessionRecv sock flags) := recv_receipt typed all h
    rw [recvRun]
    generalize s.fixSessionRecv sock flags = call at receipt
    cases receipt with
    | @message t ts' m s' sock' first arrived awaits received =>
      subst first
      obtain ⟨ts₁, ts₂, rfl, returned, awaits', left⟩ := ih (fun t ht => all t (List.mem_cons_of_mem _ ht)) awaits
      refine ⟨t :: ts₁, ts₂, rfl, .cons arrived returned, awaits', ?_⟩
      simp only [List.length_cons, List.length_append] at left ⊢
      omega
    | nothing awaits received =>
      obtain ⟨ts₁, ts₂, split, returned, awaits', left⟩ := ih all awaits
      refine ⟨ts₁, ts₂, split, returned, awaits', ?_⟩
      simp only at left ⊢
      omega
    | failed awaits none =>
      obtain ⟨ts₁, ts₂, split, returned, awaits', left⟩ := ih all awaits
      refine ⟨ts₁, ts₂, split, returned, awaits', ?_⟩
      have zero := congrArg List.length (none rfl)
      simp only [List.flatten_nil, List.length_nil] at left zero ⊢
      omega

end Session

end Libtrading.Fix
