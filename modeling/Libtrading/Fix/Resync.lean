import Libtrading.Fix.Progress

/-!
# Finding the next message again

Behind garbled bytes `fix_message_parse` has to hit the first byte of the next
good message. It goes from attempt to attempt, and an attempt may jump by a
BodyLength it cannot trust or match a frame field against the next message's
BeginString. `next_message_found` says when the next message is returned: when
no attempt that starts in front of it waits or goes beyond its first byte.
-/

namespace Libtrading.Fix
open Buffer Wire Bytes
set_option autoImplicit false
universe u

/-- **A well-formed message** of a known type and of a size the library takes. -/
structure WellFormed (dialect : Dialect) (t : WireMessage) : Prop where
  proper : t.Proper
  bodyLength : value t.bodyLength = t.body.length
  size : t.body.length ≤ fixMaxMessageSize
  known : typeOf t.msgType ≠ .unknown
  threeDigits : t.checkSum.length = 3
  checkSum : value t.checkSum = t.front.sum.toNat
  sumType : dialect.tagType Tag.checkSum = .checkSum
  read : ∀ f ∈ t.fields, dialect.tagType f.number ≠ .checkSum ∧ dialect.tagType f.number ≠ .string8
  agree : ∀ f ∈ t.fields, ∀ g ∈ t.fields, dialect.tagType f.number = .msgSeqNum →
    dialect.tagType g.number = .msgSeqNum → fixUatoi f.value = fixUatoi g.value

section
variable {F : Type u} [Doubles F]

theorem flags_zero : (0 : U64) &&& noType = 0 := BitVec.zero_and

/-- The CheckSum of a well-formed message is found and right, or not looked at. -/
theorem checksum_well_formed {dialect : Dialect} {t : WireMessage} (h : WellFormed dialect t) (type : MsgType) (flags : U64)
    (r : List UInt8) : Bytes.checksum (t.text ++ r) (t.frame type r) (t.behindType r) flags = .done () (t.behindType r) := by
  have size : fixMaxMessageSize = 1280 := rfl
  have le := h.size
  have three := h.threeDigits
  by_cases summed : flags &&& noCsum = 0
  · have digits := h.proper.checkSum
    have small : value t.checkSum < 256 := by
      rw [h.checkSum]
      exact t.front.sum.toNat_lt
    have number := uatoi_to_nat digits (show value t.checkSum < 2 ^ 32 by omega)
    have int : (fixUatoi t.checkSum).toInt = value t.checkSum := by
      rw [BitVec.toInt_eq_toNat_of_lt (by omega), number]
    rw [checksum_text h.proper (by omega) type r (by omega) flags summed, int, if_pos (by rw [h.checkSum])]
  · have len : (t.frame type r).bodyLength.toNat = t.body.length := by
      rw [WireMessage.frame, BitVec.toNat_ofNat, Nat.mod_eq_of_lt (by omega)]
    have ten : (chars "10").length = 2 := rfl
    have two : (chars "35").length = 2 := rfl
    have lengths := congrArg List.length (body_append t r)
    simp only [List.length_append, length_field_text, ten, two] at lengths
    rw [Bytes.checksum, len, if_neg, if_pos summed]
    simp only [WireMessage.frame, leftFrom]
    omega

/-- An attempt on a well-formed message finds it, or stores outside the array of fields. -/
theorem attempt_well_formed {dialect : Dialect} {t : WireMessage} (h : WellFormed dialect t) {flags : U64}
    (typed : flags &&& noType = 0) (q : U64) (r : List UInt8) :
    attempt (F := F) dialect flags q (t.text ++ r) =
      if (storedFields (F := F) dialect t.fields).length ≤ fixMaxFieldNumber then
        .done (some ⟨typeOf t.msgType, .ofNat 64 t.body.length,
          ⟨lastSeqNum dialect q t.fields, storedFields dialect t.fields⟩⟩) r
      else .done none [] := by
  have head := first_three_text h.proper h.bodyLength (by rw [h.bodyLength]; exact h.size) flags r
  rw [if_neg (fun e => e typed), if_neg h.known] at head
  have sum := checksum_well_formed h (typeOf t.msgType) flags r
  have turns : (t.behindType r).length + 1 =
      ((t.behindType r).length - t.fields.length) + 1 + t.fields.length := by
    have := t.fields_length r
    omega
  have walk := walk_message (F := F) dialect h.proper (fun f hf => (h.read f hf).1) h.sumType q r
    ((t.behindType r).length - t.fields.length)
  rw [← turns, ← WireMessage.behindType] at walk
  rw [attempt, head]
  simp only [sum]
  by_cases fits : (storedFields (F := F) dialect t.fields).length ≤ fixMaxFieldNumber
  · rw [walk.1 fits, if_pos fits]
    rfl
  · rw [walk.2 (by omega), if_neg fits]

/-- Repeated calls of `fix_message_parse` on one message struct and one buffer. -/
inductive Called (dialect : Dialect) (self : FixMessage F) (b : Buffer) : FixMessage F → Buffer → Prop
  | none : Called dialect self b self b
  | message {self' m : FixMessage F} {c c' : Buffer} {start : Nat} (before : Called dialect self b self' c)
      (call : fixMessageParse dialect 0 self' c = .message m start c') : Called dialect self b m c'
  | waits {self' : FixMessage F} {c c' : Buffer} (before : Called dialect self b self' c)
      (call : fixMessageParse dialect 0 self' c = .waits c') : Called dialect self b self' c'

variable (F)

/-- Every attempt that starts on the way through `u`, with more than the last `n` bytes left, takes
bytes away and leaves at least these. -/
def StaysAhead (dialect : Dialect) (u : List UInt8) (n : Nat) : Prop :=
  ∀ w, Relation.ReflTransGen (Advances F dialect 0) u w → n < w.length →
    ∃ w', Advances F dialect 0 w w' ∧ n ≤ w'.length

variable {F}

theorem chain_suffix {dialect : Dialect} {flags : U64} {u w : List UInt8}
    (h : Relation.ReflTransGen (Advances F dialect flags) u w) : w <:+ u := by
  induction h with
  | refl => exact List.suffix_refl _
  | tail _ step ih => exact step.suffix.trans ih

/-- Calls go along the chain of attempts. -/
theorem called_chain {dialect : Dialect} {self self' : FixMessage F} {b c : Buffer} (hv : b.Valid)
    (h : Called dialect self b self' c) :
    ∃ w, Relation.ReflTransGen (Advances F dialect 0) b.unread w ∧ c = b.leaving w.length := by
  induction h with
  | none => exact ⟨b.unread, .refl, (leaving_self hv).symm⟩
  | @message self' m c c' start before call ih =>
    obtain ⟨w, chain, rfl⟩ := ih
    obtain ⟨hv', hu⟩ := unread_leaving hv (chain_suffix chain)
    have agrees := parse_agrees dialect 0 hv' self'
    have steps := @parse_chain F _ dialect 0 self'.msgSeqNum w
    rw [call, hu] at agrees
    generalize parse (F := F) dialect 0 self'.msgSeqNum w = p at agrees steps
    cases agrees with
    | message _ _ _ => exact ⟨_, (chain.trans steps.1).tail steps.2, rfl⟩
  | @waits self' c c' before call ih =>
    obtain ⟨w, chain, rfl⟩ := ih
    obtain ⟨hv', hu⟩ := unread_leaving hv (chain_suffix chain)
    have agrees := parse_agrees dialect 0 hv' self'
    have steps := @parse_chain F _ dialect 0 self'.msgSeqNum w
    rw [call, hu] at agrees
    generalize parse (F := F) dialect 0 self'.msgSeqNum w = p at agrees steps
    cases agrees with
    | waits _ => exact ⟨_, chain.trans steps, rfl⟩

/-- Every place on the chain of attempts is parsed, by a call made from it or from a place before it
that only garbled attempts lie behind. -/
theorem chain_called {dialect : Dialect} (self : FixMessage F) {b : Buffer} (hv : b.Valid) {w : List UInt8}
    (h : Relation.ReflTransGen (Advances F dialect 0) b.unread w) :
    ∃ (self' : FixMessage F) (v : List UInt8), v <:+ b.unread ∧
      Called dialect self b self' (b.leaving v.length) ∧
      (parse dialect 0 self'.msgSeqNum v : Bytes.Parsed F) = parse dialect 0 self'.msgSeqNum w := by
  induction h with
  | refl => exact ⟨self, b.unread, List.suffix_refl _, by rw [leaving_self hv]; exact .none, rfl⟩
  | @tail w w' _ step ih =>
    obtain ⟨self', v, suffix, called, same⟩ := ih
    rcases step with garbled | ⟨m, found⟩
    · refine ⟨self', v, suffix, called, ?_⟩
      rw [same]
      exact parse_garbled ((attempt_seq_num 0 self'.msgSeqNum).1 _ garbled)
    · obtain ⟨m', found'⟩ := (attempt_seq_num 0 self'.msgSeqNum).2 m found
      obtain ⟨hv', hu⟩ := unread_leaving hv suffix
      have agrees := parse_agrees dialect 0 hv' self'
      rw [hu, same, parse_done found'] at agrees
      generalize hp : fixMessageParse dialect 0 self' (b.leaving v.length) = p at agrees
      cases agrees with
      | message m'' inside rest =>
        rw [hu] at rest
        exact ⟨m'', w', rest.trans suffix, .message called hp, rfl⟩

/-- **Resynchronisation.** With bytes `g` and then a well-formed message in front of the parser,
some call of `fix_message_parse` returns that message, with its own type, sequence number and
fields, if and only if it has at most 48 fields to store and no attempt that starts inside `g`
waits for more bytes or goes beyond the first byte of the message. -/
theorem next_message_found {dialect : Dialect} {t : WireMessage} (h : WellFormed dialect t) {b : Buffer} (hv : b.Valid)
    (g r : List UInt8) (bytes : b.unread = g ++ (t.text ++ r)) (self : FixMessage F) :
    (∃ (self' : FixMessage F) (c : Buffer) (m : FixMessage F) (c' : Buffer), Called dialect self b self' c ∧
        fixMessageParse dialect 0 self' c = .message m (b.stop - (t.text ++ r).length) c' ∧
        m.type = typeOf t.msgType ∧ Reports dialect t.fields m.report.rest) ↔
      (storedFields (F := F) dialect t.fields).length ≤ fixMaxFieldNumber ∧
        StaysAhead F dialect (g ++ (t.text ++ r)) (t.text ++ r).length := by
  have own : t.text ++ r <:+ b.unread := by
    rw [bytes]
    exact List.suffix_append _ _
  have start_le := hv.start_le
  have inside := own.length_le
  rw [length_unread hv] at inside
  have right : Relator.RightUnique (Advances F dialect 0) := fun _ _ _ => Advances.unique
  rw [← bytes]
  constructor
  · rintro ⟨self', c, m, c', called, call, -, -⟩
    obtain ⟨w, chain, rfl⟩ := called_chain hv called
    obtain ⟨hv', hu⟩ := unread_leaving hv (chain_suffix chain)
    have agrees := parse_agrees dialect 0 hv' self'
    have steps := @parse_chain F _ dialect 0 self'.msgSeqNum w
    rw [call, hu] at agrees
    generalize hp : parse (F := F) dialect 0 self'.msgSeqNum w = p at agrees steps
    generalize hs : b.stop - (t.text ++ r).length = s at agrees
    cases agrees with
    | @message _ left r' here rest =>
      rw [hu] at here
      have short := (chain_suffix chain).length_le
      rw [length_unread hv] at short
      have left_eq : left = (t.text ++ r).length := by
        simp only [leaving_stop] at hs
        omega
      have place : last left w = t.text ++ r := by
        rw [last_last (chain_suffix chain) here, left_eq, last_of_suffix own]
      obtain ⟨garbled, found⟩ := steps
      rw [place] at garbled found
      have reach := chain.trans garbled
      refine ⟨?_, fun v hv' long => ?_⟩
      · by_contra past
        rcases found with found | ⟨m', found⟩ <;> rw [attempt_well_formed h flags_zero, if_neg past] at found <;> nomatch found
      · rcases Relation.ReflTransGen.total_of_right_unique right hv' reach with ahead | behind
        · rcases ahead.cases_head with rfl | ⟨v', step, rest'⟩
          · exact absurd long (Nat.lt_irrefl _)
          · exact ⟨v', step, (chain_suffix rest').length_le⟩
        · exact absurd (chain_suffix behind).length_le (by omega)
  · rintro ⟨fits, ahead⟩
    -- along the chain, never beyond the first byte of the message
    have reach : ∀ (n : Nat) (w : List UInt8), w.length = n → Relation.ReflTransGen (Advances F dialect 0) b.unread w →
        (t.text ++ r).length ≤ w.length → Relation.ReflTransGen (Advances F dialect 0) b.unread (t.text ++ r) := by
      intro n
      induction n using Nat.strongRecOn with
      | ind n ih =>
        intro w hn chain le
        by_cases arrived : w.length = (t.text ++ r).length
        · have : w = t.text ++ r := by
            rw [← last_of_suffix (chain_suffix chain), arrived, last_of_suffix own]
          rwa [← this]
        · obtain ⟨w', step, le'⟩ := ahead w chain (by omega)
          exact ih w'.length (hn ▸ step.short) w' rfl (chain.tail step) le'
    have chain := reach _ b.unread rfl .refl own.length_le
    obtain ⟨self', v, suffix, called, same⟩ := chain_called self hv chain
    obtain ⟨hv', hu⟩ := unread_leaving hv suffix
    have agrees := parse_agrees dialect 0 hv' self'
    rw [hu, same, parse_done (by rw [attempt_well_formed h flags_zero, if_pos fits])] at agrees
    generalize hp : fixMessageParse dialect 0 self' (b.leaving v.length) = p at agrees
    generalize hm : (⟨typeOf t.msgType, .ofNat 64 t.body.length,
      ⟨lastSeqNum dialect self'.msgSeqNum t.fields, storedFields dialect t.fields⟩⟩ : Report F) = report at agrees
    cases agrees with
    | message m here rest =>
      refine ⟨self', _, m, _, called, hp, (congrArg Report.type hm).symm, ?_⟩
      rw [← hm]
      exact ⟨stored_reported dialect t.fields h.read, last_seq_num dialect t.fields _ h.agree⟩

end

/-- A Heartbeat with MsgSeqNum 3. -/
def heartbeat : WireMessage :=
  ⟨chars "FIX.4.4", chars "10", chars "0", [⟨chars "34", chars "3"⟩], chars "167"⟩

theorem heartbeat_well_formed : WellFormed ⟨.fix44, fixTagType⟩ heartbeat where
  proper :=
    { beginString := by decide
      bodyLength := by decide
      msgType := by decide
      fields := by
        intro f hf
        rw [List.mem_singleton.1 hf]
        exact ⟨by decide, by decide, by decide⟩
      checkSum := by decide
      checkSumSome := by decide }
  bodyLength := by decide
  size := by decide
  known := by decide
  threeDigits := rfl
  checkSum := by decide
  sumType := rfl
  read := by
    intro f hf
    rw [List.mem_singleton.1 hf]
    exact ⟨by decide, by decide⟩
  agree := by
    intro f hf g hg _ _
    rw [List.mem_singleton.1 hf, List.mem_singleton.1 hg]

/-- The hypotheses are met by a Heartbeat behind a lone Text field. -/
theorem heartbeat_found :
    (∃ (self' : FixMessage (List UInt8)) (c : Buffer) (m : FixMessage (List UInt8)) (c' : Buffer),
        Called ⟨.fix44, fixTagType⟩ (holding 7) (sohBuffer "58=x|8=FIX.4.4|9=10|35=0|34=3|10=167|") self' c ∧
        fixMessageParse ⟨.fix44, fixTagType⟩ 0 self' c =
          .message m ((sohBuffer "58=x|8=FIX.4.4|9=10|35=0|34=3|10=167|").stop - (heartbeat.text ++ []).length) c' ∧
        m.type = typeOf heartbeat.msgType ∧ Reports ⟨.fix44, fixTagType⟩ heartbeat.fields m.report.rest) ↔
      (storedFields (F := List UInt8) ⟨.fix44, fixTagType⟩ heartbeat.fields).length ≤ fixMaxFieldNumber ∧
        StaysAhead (List UInt8) ⟨.fix44, fixTagType⟩ (sohText "58=x|" ++ (heartbeat.text ++ []))
          (heartbeat.text ++ []).length :=
  next_message_found heartbeat_well_formed (soh_buffer_valid _) (sohText "58=x|") [] (by decide +kernel) (holding 7)

/-- A well-formed message is longer than its frame tags. -/
theorem well_formed_length {dialect : Dialect} {t : WireMessage} (h : WellFormed dialect t) : 14 < t.text.length := by
  have eight : (chars "8").length = 1 := rfl
  have nine : (chars "9").length = 1 := rfl
  have ten : (chars "10").length = 2 := rfl
  have body := body_pos t
  have three := h.threeDigits
  simp only [WireMessage.text, WireMessage.front, List.length_append, length_field_text, eight, nine, ten]
  omega

/-- Behind a message cut short after its BeginString the next message is lost: its own BeginString
is taken for the BodyLength that is missing. -/
theorem good_message_lost :
    WellFormed ⟨.fix44, fixTagType⟩ heartbeat ∧
    (∀ t, WellFormed ⟨.fix44, fixTagType⟩ t → ¬ t.text <:+: fieldsText [⟨chars "8", chars "FIX.4.4"⟩]) ∧
    (sohBuffer "8=FIX.4.4|8=FIX.4.4|9=10|35=0|34=3|10=167|").unread =
      fieldsText [⟨chars "8", chars "FIX.4.4"⟩] ++ heartbeat.text ∧
    ¬ ∃ (self' : FixMessage (List UInt8)) (c : Buffer) (m : FixMessage (List UInt8)) (start : Nat) (c' : Buffer),
      Called ⟨.fix44, fixTagType⟩ (holding 7) (sohBuffer "8=FIX.4.4|8=FIX.4.4|9=10|35=0|34=3|10=167|") self' c ∧
      fixMessageParse ⟨.fix44, fixTagType⟩ 0 self' c = .message m start c' := by
  refine ⟨heartbeat_well_formed, fun t ht inside => ?_, by decide +kernel, ?_⟩
  · have := inside.length_le
    have short : (fieldsText [⟨chars "8", chars "FIX.4.4"⟩]).length = 10 := rfl
    have := well_formed_length ht
    omega
  · generalize hb : sohBuffer "8=FIX.4.4|8=FIX.4.4|9=10|35=0|34=3|10=167|" = b
    have hv : b.Valid := hb ▸ soh_buffer_valid _
    have waits (q : U64) : ∀ w, w = b.unread ∨ w = [] →
        (parse ⟨.fix44, fixTagType⟩ 0 q w : Bytes.Parsed (List UInt8)) = .waits [] := by
      rintro w (rfl | rfl)
      · subst hb
        rfl
      · rfl
    have call {self' : FixMessage (List UInt8)} {w : List UInt8} (suffix : w <:+ b.unread) (hw : w = b.unread ∨ w = []) :
        fixMessageParse ⟨.fix44, fixTagType⟩ 0 self' (b.leaving w.length) = .waits (b.leaving 0) := by
      obtain ⟨hv', hu⟩ := unread_leaving hv suffix
      have agrees := parse_agrees ⟨.fix44, fixTagType⟩ 0 hv' self'
      rw [hu, waits _ w hw] at agrees
      generalize fixMessageParse ⟨.fix44, fixTagType⟩ 0 self' (b.leaving w.length) = p at agrees
      generalize hn : ([] : List UInt8) = n at agrees
      cases agrees with
      | waits _ => rw [← hn]; rfl
    have places : ∀ self' c, Called ⟨.fix44, fixTagType⟩ (holding 7) b self' c →
        ∃ w, w <:+ b.unread ∧ (w = b.unread ∨ w = []) ∧ c = b.leaving w.length := by
      intro self' c called
      induction called with
      | none => exact ⟨b.unread, List.suffix_refl _, .inl rfl, (leaving_self hv).symm⟩
      | message before h ih =>
        obtain ⟨w, suffix, hw, rfl⟩ := ih
        rw [call suffix hw] at h
        nomatch h
      | waits before h ih =>
        obtain ⟨w, suffix, hw, rfl⟩ := ih
        rw [call suffix hw] at h
        cases h
        exact ⟨[], List.nil_suffix, .inr rfl, rfl⟩
    rintro ⟨self', c, m, start, c', called, h⟩
    obtain ⟨w, suffix, hw, rfl⟩ := places self' c called
    rw [call suffix hw] at h
    nomatch h

end Libtrading.Fix
