import Libtrading.Fix.ParseFacts

/-!
# What a parse reports

`fix_message_parse` writes into a message that held others before. Everything
it reports is taken from the unread bytes, except the sequence number of a
message without one: `report_same` says when two parses of the same bytes
report the same.
-/

namespace Libtrading.Fix
open Buffer Wire
set_option autoImplicit false
universe u

namespace Bytes

/-- Whether the field loop of `rest_of_message` meets a field the dialect types MSGSEQNUM. -/
def readsSeqNum (dialect : Dialect) : Nat → List UInt8 → Bool
  | 0, _ => false
  | turns + 1, u =>
    match parseField u with
    | .stop _ _ => false
    | .done (tag, _) r =>
      match dialect.tagType tag with
      | .checkSum => false
      | .msgSeqNum => true
      | _ => readsSeqNum dialect turns r

/-- Whether the first message of the bytes that is framed as one has a MsgSeqNum among the fields
`rest_of_message` reads. -/
def hasSeqNumFrom (dialect : Dialect) (flags : U64) : Nat → List UInt8 → Bool
  | 0, _ => false
  | attempts + 1, u =>
    match firstThreeFields u flags with
    | .stop .msgPartial _ => false
    | .stop .garbled r => hasSeqNumFrom dialect flags attempts r
    | .done f r =>
      match checksum u f r flags with
      | .stop .msgPartial _ => false
      | .stop .garbled r => hasSeqNumFrom dialect flags attempts r
      | .done () r => readsSeqNum dialect (r.length + 1) r

def hasSeqNum (dialect : Dialect) (flags : U64) (u : List UInt8) : Bool :=
  hasSeqNumFrom dialect flags (u.length + 1) u

section
variable {F : Type u} [Doubles F]

/-- A report with another sequence number. -/
def Report.withSeqNum (m : Report F) (q : U64) : Report F := { m with rest := { m.rest with msgSeqNum := q } }

def Parsed.withSeqNum (p : Parsed F) (q : U64) : Parsed F :=
  match p with
  | .message m left r => .message (m.withSeqNum q) left r
  | p => p

/-- A field loop forgets the number before it where it meets a MsgSeqNum, and leaves it alone elsewhere. -/
theorem rest_seq_num (dialect : Dialect) (n : Nat) (q q' : U64) (fs : List (FixField F)) (u : List UInt8) :
    restOfMessageFrom dialect n ⟨q, fs⟩ u =
      if readsSeqNum dialect n u = true then restOfMessageFrom dialect n ⟨q', fs⟩ u
      else (restOfMessageFrom dialect n ⟨q', fs⟩ u).map fun p => (⟨q, p.1.fields⟩, p.2) := by
  induction n generalizing fs u with
  | zero => rfl
  | succ n ih =>
    rw [readsSeqNum, restOfMessageFrom, restOfMessageFrom]
    cases hf : parseField u with
    | stop ret r => rfl
    | done p r =>
      obtain ⟨tag, v⟩ := p
      simp only
      cases type : dialect.tagType tag with
      | checkSum => rfl
      | msgSeqNum => rfl
      | int | float | char | string | string8 =>
        simp only
        split
        · exact ih fs r
        · split
          · exact ih _ r
          · split <;> rfl

theorem rest_reads (dialect : Dialect) (n : Nat) (q q' : U64) (fs : List (FixField F)) (u : List UInt8)
    (h : readsSeqNum dialect n u = true) :
    restOfMessageFrom dialect n ⟨q, fs⟩ u = restOfMessageFrom dialect n ⟨q', fs⟩ u := by
  rw [rest_seq_num dialect n q q', if_pos h]

theorem rest_keeps (dialect : Dialect) (n : Nat) (q q' : U64) (fs : List (FixField F)) (u : List UInt8)
    (h : readsSeqNum dialect n u = false) :
    restOfMessageFrom dialect n ⟨q, fs⟩ u =
      (restOfMessageFrom dialect n ⟨q', fs⟩ u).map fun p => (⟨q, p.1.fields⟩, p.2) := by
  rw [rest_seq_num dialect n q q', if_neg (by rw [h]; exact Bool.false_ne_true)]

/-- The number before a parse matters to a message without a MsgSeqNum only. -/
theorem parse_from_seq_num (dialect : Dialect) (flags : U64) (n : Nat) (q q' : U64) (u : List UInt8) :
    (parseFrom dialect flags q n u : Parsed F) =
      if hasSeqNumFrom dialect flags n u = true then parseFrom dialect flags q' n u
      else (parseFrom dialect flags q' n u).withSeqNum q := by
  induction n generalizing u with
  | zero => rfl
  | succ n ih =>
    rw [parseFrom, parseFrom, hasSeqNumFrom, attempt, attempt]
    by_cases none_left : u = []
    · rw [if_pos none_left, none_left]
      rfl
    · rw [if_neg none_left, if_neg none_left]
      cases h3 : firstThreeFields u flags with
      | stop ret r =>
        cases ret with
        | msgPartial => rfl
        | garbled => exact ih r
      | done f r =>
        simp only
        cases hc : checksum u f r flags with
        | stop ret r' =>
          cases ret with
          | msgPartial => rfl
          | garbled => exact ih r'
        | done _ r' =>
          simp only
          by_cases reads : readsSeqNum dialect (r'.length + 1) r' = true
          · rw [if_pos reads, rest_reads dialect _ q q' [] r' reads]
            cases restOfMessageFrom (F := F) dialect (r'.length + 1) ⟨q', []⟩ r' <;> rfl
          · rw [if_neg reads, rest_keeps dialect _ q q' [] r' (Bool.eq_false_iff.2 reads)]
            cases restOfMessageFrom (F := F) dialect (r'.length + 1) ⟨q', []⟩ r' <;> rfl

end

end Bytes

section
variable {F : Type u} [Doubles F]

/-- **What a parse reports.** Two parses of the same unread bytes with the same dialect and flags,
into messages that held anything before and with anything behind the bytes, report the same type,
body length, sequence number and fields if and only if the message has a MsgSeqNum among the fields
that are read, or the two messages held the same sequence number before. -/
theorem report_same (dialect : Dialect) (flags : U64) {b b' c c' : Buffer} (hv : b.Valid) (hv' : b'.Valid)
    (bytes : b.unread = b'.unread) (self self' : FixMessage F) {m m' : FixMessage F} {start start' : Nat}
    (h : fixMessageParse dialect flags self b = .message m start c)
    (h' : fixMessageParse dialect flags self' b' = .message m' start' c') :
    m.report = m'.report ↔
      Bytes.hasSeqNum dialect flags b.unread = true ∨ self.msgSeqNum = self'.msgSeqNum := by
  have one := parse_agrees dialect flags hv self
  have two := parse_agrees dialect flags hv' self'
  rw [h] at one
  rw [h', ← bytes] at two
  have seq (q q' : U64) : (Bytes.parse dialect flags q b.unread : Bytes.Parsed F) =
      if Bytes.hasSeqNum dialect flags b.unread = true then Bytes.parse dialect flags q' b.unread
      else (Bytes.parse dialect flags q' b.unread).withSeqNum q :=
    Bytes.parse_from_seq_num dialect flags _ q q' b.unread
  have link := seq self.msgSeqNum self'.msgSeqNum
  have own := seq self'.msgSeqNum self'.msgSeqNum
  generalize Bytes.parse (F := F) dialect flags self.msgSeqNum b.unread = p at one link
  generalize Bytes.parse (F := F) dialect flags self'.msgSeqNum b.unread = p' at two link own
  cases one with
  | message _ _ _ =>
    cases two with
    | message _ _ _ =>
      by_cases has : Bytes.hasSeqNum dialect flags b.unread = true
      · rw [if_pos has] at link
        exact ⟨fun _ => .inl has, fun _ => (Bytes.Parsed.message.inj link).1⟩
      · rw [if_neg has] at link own
        have same : m.report = m'.report.withSeqNum self.msgSeqNum := (Bytes.Parsed.message.inj link).1
        have kept : m'.report = m'.report.withSeqNum self'.msgSeqNum := (Bytes.Parsed.message.inj own).1
        have number : m.report.rest.msgSeqNum = self.msgSeqNum := congrArg (fun r => r.rest.msgSeqNum) same
        have number' : m'.report.rest.msgSeqNum = self'.msgSeqNum := congrArg (fun r => r.rest.msgSeqNum) kept
        constructor
        · intro equal
          exact .inr (by rw [← number, ← number', equal])
        · rintro (absent | equal)
          · exact absurd absent has
          · rw [same, equal, ← kept]

end

/-- A message struct that holds a sequence number. -/
def holding (q : U64) : FixMessage (List UInt8) := { FixMessage.init .unknown [] with msgSeqNum := q }

/-- The message a text is parsed to by a message struct that holds a sequence number. -/
def parsedAfter (s : String) (q : U64) : FixMessage (List UInt8) :=
  match fixMessageParse ⟨.fix44, fixTagType⟩ 0 (holding q) (sohBuffer s) with
  | .message m _ _ => m
  | _ => holding q

/-- A Heartbeat with a MsgSeqNum is reported as it is, whatever was parsed before it. -/
theorem report_same_heartbeat :
    (parsedAfter "8=FIX.4.4|9=10|35=0|34=3|10=167|" 7).report = (parsedAfter "8=FIX.4.4|9=10|35=0|34=3|10=167|" 9).report := by
  have valid := soh_buffer_valid "8=FIX.4.4|9=10|35=0|34=3|10=167|"
  have numbered : Bytes.hasSeqNum ⟨.fix44, fixTagType⟩ 0 (sohBuffer "8=FIX.4.4|9=10|35=0|34=3|10=167|").unread = true := by
    decide +kernel
  exact (report_same ⟨.fix44, fixTagType⟩ 0 valid valid rfl (holding 7) (holding 9) rfl rfl).2 (.inl numbered)

/-- A Heartbeat without a MsgSeqNum reports the number of whatever was parsed before it. -/
theorem seq_num_carried_over :
    (∃ c, fixMessageParse ⟨.fix44, fixTagType⟩ 0 (holding 7) (sohBuffer "8=FIX.4.4|9=5|35=0|10=163|") =
      .message (parsedAfter "8=FIX.4.4|9=5|35=0|10=163|" 7) 0 c) ∧
    (∃ c, fixMessageParse ⟨.fix44, fixTagType⟩ 0 (holding 9) (sohBuffer "8=FIX.4.4|9=5|35=0|10=163|") =
      .message (parsedAfter "8=FIX.4.4|9=5|35=0|10=163|" 9) 0 c) ∧
    (parsedAfter "8=FIX.4.4|9=5|35=0|10=163|" 7).report ≠ (parsedAfter "8=FIX.4.4|9=5|35=0|10=163|" 9).report :=
  ⟨⟨_, rfl⟩, ⟨_, rfl⟩, by decide +kernel⟩

end Libtrading.Fix
