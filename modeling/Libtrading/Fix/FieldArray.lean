import Libtrading.Fix.Progress

/-!
# The array of fields

`rest_of_message` stores a field of every turn into an array that
`fix_message_new` allocates with `FIX_MAX_FIELD_NUMBER` elements, and compares
the index with nothing. The model says `fault` at the store behind the array;
`field_array_kept` counts on the unread bytes when it comes to that.
-/

namespace Libtrading.Fix
open Buffer Wire
set_option autoImplicit false
universe u

namespace Bytes

/-- The fields up to the CheckSum of the types that `rest_of_message` stores. -/
def fieldsMet (dialect : Dialect) : Nat → List UInt8 → Nat
  | 0, _ => 0
  | turns + 1, u =>
    match parseField u with
    | .stop _ _ => 0
    | .done (tag, _) r =>
      match dialect.tagType tag with
      | .checkSum => 0
      | .msgSeqNum | .string8 => fieldsMet dialect turns r
      | .int | .float | .char | .string => fieldsMet dialect turns r + 1

/-- These fields of the first message of the bytes that is framed as one. -/
def framedFieldsFrom (dialect : Dialect) (flags : U64) : Nat → List UInt8 → Nat
  | 0, _ => 0
  | attempts + 1, u =>
    match firstThreeFields u flags with
    | .stop .msgPartial _ => 0
    | .stop .garbled r => framedFieldsFrom dialect flags attempts r
    | .done f r =>
      match checksum u f r flags with
      | .stop .msgPartial _ => 0
      | .stop .garbled r => framedFieldsFrom dialect flags attempts r
      | .done () r => fieldsMet dialect (r.length + 1) r

def framedFields (dialect : Dialect) (flags : U64) (u : List UInt8) : Nat :=
  framedFieldsFrom dialect flags (u.length + 1) u

section
variable {F : Type u} [Doubles F]

/-- The types whose values are stored. -/
theorem stored_some {type : FixType} (p : List UInt8) (h : type = .int ∨ type = .float ∨ type = .char ∨ type = .string) :
    ∃ x : FieldValue F, storedValue type p = some x := by
  rcases h with rfl | rfl | rfl | rfl <;> exact ⟨_, rfl⟩

/-- The field loop with `met` stored fields behind it: it stays in the array exactly where these and the
ones to come have room in it. -/
theorem rest_in_array (dialect : Dialect) (n : Nat) (s : Rest F) (u : List UInt8)
    (room : s.fields.length ≤ fixMaxFieldNumber) :
    (restOfMessageFrom dialect n s u = none ↔ fixMaxFieldNumber < s.fields.length + fieldsMet dialect n u) ∧
      ∀ s' r, restOfMessageFrom dialect n s u = some (s', r) → s'.fields.length ≤ fixMaxFieldNumber := by
  have nothing : ([] : List (FixField F)).length ≤ fixMaxFieldNumber := Nat.zero_le _
  induction n generalizing s u with
  | zero =>
    rw [restOfMessageFrom, fieldsMet]
    refine ⟨⟨fun h => (by cases h), fun h => by omega⟩, fun s' r h => ?_⟩
    cases h
    exact nothing
  | succ n ih =>
    rw [restOfMessageFrom, fieldsMet]
    cases hf : parseField u with
    | stop ret r =>
      refine ⟨⟨fun h => (by cases h), fun h => by simp only at h; omega⟩, fun s' r' h => ?_⟩
      cases h
      exact nothing
    | done p r =>
      obtain ⟨tag, v⟩ := p
      simp only
      cases type : dialect.tagType tag with
      | checkSum =>
        refine ⟨⟨fun h => (by cases h), fun h => by simp only at h; omega⟩, fun s' r' h => ?_⟩
        cases h
        exact room
      | msgSeqNum => exact ih _ r room
      | string8 => exact ih s r room
      | int | float | char | string =>
        obtain ⟨x, hx⟩ : ∃ x : FieldValue F, storedValue (dialect.tagType tag) (v ++ [1]) = some x :=
          stored_some _ (by rw [type]; decide)
        rw [type] at hx
        simp only [hx]
        by_cases fits : s.fields.length < fixMaxFieldNumber
        · rw [if_pos fits]
          have next := ih { s with fields := s.fields ++ [⟨tag, text x⟩] } r
            (by rw [List.length_append, List.length_singleton]; omega)
          rw [List.length_append, List.length_singleton] at next
          have turns : s.fields.length + (fieldsMet dialect n r + 1) = s.fields.length + 1 + fieldsMet dialect n r := by
            omega
          rw [turns]
          exact next
        · rw [if_neg fits]
          exact ⟨⟨fun _ => by omega, fun _ => rfl⟩, fun s' r' h => by cases h⟩

/-- A parse stores behind the array exactly where the message it comes to has more fields than that. -/
theorem parse_from_fault (dialect : Dialect) (flags q : U64) (n : Nat) (u : List UInt8) (turns : u.length < n) :
    (parseFrom dialect flags q n u : Parsed F) = .fault ↔ fixMaxFieldNumber < framedFieldsFrom dialect flags n u := by
  induction n generalizing u with
  | zero => omega
  | succ n ih =>
    rw [parseFrom, framedFieldsFrom, attempt]
    by_cases none_left : u = []
    · rw [if_pos none_left, none_left]
      exact ⟨fun h => (by cases h), fun h => absurd h (Nat.not_lt_zero _)⟩
    · rw [if_neg none_left]
      have waits : (Parsed.waits u : Parsed F) = .fault ↔ fixMaxFieldNumber < 0 :=
        ⟨fun h => (by cases h), fun h => absurd h (Nat.not_lt_zero _)⟩
      cases h3 : firstThreeFields u flags with
      | stop ret r =>
        cases ret with
        | msgPartial => exact waits
        | garbled =>
          have short := first_three_garbled h3
          exact ih r (by omega)
      | done f r =>
        simp only
        cases hc : checksum u f r flags with
        | stop ret r' =>
          cases ret with
          | msgPartial => exact waits
          | garbled =>
            have short := checksum_garbled (first_three_inside h3) hc
            exact ih r' (by omega)
        | done _ r' =>
          have array := (rest_in_array (F := F) dialect (r'.length + 1) ⟨q, []⟩ r' (Nat.zero_le _)).1
          rw [List.length_nil, Nat.zero_add] at array
          simp only
          rw [← array]
          cases restOfMessageFrom (F := F) dialect (r'.length + 1) ⟨q, []⟩ r' with
          | none => exact ⟨fun _ => rfl, fun _ => rfl⟩
          | some p => exact ⟨fun h => (by cases h), fun h => by cases h⟩

end

end Bytes

section
variable {F : Type u} [Doubles F]

/-- What a call of `fix_message_parse` on `self` stores stays in the array, and `nr_fields` with it. -/
def InFieldArray (self : FixMessage F) : Parsed F → Prop
  | .message m _ _ => m.fields.length ≤ fixMaxFieldNumber
  | .waits _ => self.fields.length ≤ fixMaxFieldNumber
  | .fault => False

omit [Doubles F] in
/-- The fields a parse reports are as many as it has stored. -/
theorem report_fields (m : FixMessage F) : m.report.rest.fields.length = m.fields.length := List.length_map ..

/-- A call stores behind the array exactly where the message it comes to has more fields than fit it. -/
theorem parse_faults (dialect : Dialect) (flags : U64) {b : Buffer} (hv : b.Valid) (self : FixMessage F) :
    fixMessageParse dialect flags self b = .fault ↔ fixMaxFieldNumber < Bytes.framedFields dialect flags b.unread := by
  have agrees := parse_agrees dialect flags hv self
  have fault := Bytes.parse_from_fault (F := F) dialect flags self.msgSeqNum _ b.unread (Nat.lt_succ_self _)
  rw [← Bytes.parse, ← Bytes.framedFields] at fault
  rw [← fault]
  generalize Bytes.parse (F := F) dialect flags self.msgSeqNum b.unread = p at agrees
  generalize fixMessageParse dialect flags self b = q at agrees
  cases agrees with
  | message m inside suffix => exact ⟨fun h => (by cases h), fun h => by cases h⟩
  | waits suffix => exact ⟨fun h => (by cases h), fun h => by cases h⟩
  | fault => exact ⟨fun _ => rfl, fun _ => rfl⟩

/-- A message a call returns has no more fields than fit the array. -/
theorem parse_message_fields {dialect : Dialect} {flags : U64} {b c : Buffer} (hv : b.Valid) {self m : FixMessage F}
    {start : Nat} (h : fixMessageParse dialect flags self b = .message m start c) :
    m.fields.length ≤ fixMaxFieldNumber := by
  have agrees := parse_agrees dialect flags hv self
  rw [h] at agrees
  generalize hp : Bytes.parse (F := F) dialect flags self.msgSeqNum b.unread = p at agrees
  cases agrees with
  | message _ inside suffix =>
    obtain ⟨f, r₃, acc⟩ := attempt_done.1 (parse_message hp).2
    have few := (Bytes.rest_in_array dialect _ _ _ (Nat.zero_le _)).2 _ _ acc.fields
    rwa [report_fields] at few

/-- **The array of fields.** `fix_message_parse` stores inside the array, and leaves `nr_fields` within it,
exactly where the message it comes to has at most `FIX_MAX_FIELD_NUMBER` fields to store in front of its
CheckSum. -/
theorem field_array_kept (dialect : Dialect) (flags : U64) {b : Buffer} (hv : b.Valid) (self : FixMessage F)
    (before : self.fields.length ≤ fixMaxFieldNumber) :
    InFieldArray self (fixMessageParse dialect flags self b) ↔
      Bytes.framedFields dialect flags b.unread ≤ fixMaxFieldNumber := by
  rw [← Nat.not_lt, ← parse_faults dialect flags hv self]
  cases hp : fixMessageParse dialect flags self b with
  | message m start c => exact ⟨fun _ h => (by cases h), fun _ => parse_message_fields hv hp⟩
  | waits c => exact ⟨fun _ h => (by cases h), fun _ => before⟩
  | fault => exact ⟨fun h => h.elim, fun h => absurd rfl h⟩

end

/-- A Heartbeat whose header and TestReqID are stored, four fields beside the MsgSeqNum. -/
def namedHeartbeat : Buffer := sohBuffer "8=FIX.4.4|9=33|35=0|49=A|56=B|34=3|52=now|112=x|10=198|"

theorem heartbeat_in_array :
    Bytes.framedFields ⟨.fix44, fixTagType⟩ 0 namedHeartbeat.unread = 4 ∧
      InFieldArray (holding 7) (fixMessageParse ⟨.fix44, fixTagType⟩ 0 (holding 7) namedHeartbeat) := by
  have four : Bytes.framedFields ⟨.fix44, fixTagType⟩ 0 namedHeartbeat.unread = 4 := by decide +kernel
  refine ⟨four, (field_array_kept ⟨.fix44, fixTagType⟩ 0 (b := namedHeartbeat) (soh_buffer_valid _) (holding 7)
    (Nat.zero_le _)).2 ?_⟩
  rw [four]
  decide

/-- A Heartbeat of 206 bytes with 49 empty Text fields. -/
def fortyNineTexts : WireMessage :=
  ⟨chars "FIX.4.4", chars "206", chars "0", ⟨chars "34", chars "1"⟩ :: List.replicate 49 ⟨chars "58", []⟩, chars "151"⟩

/-- The 49th Text is stored behind the array. -/
theorem texts_behind_array :
    ¬InFieldArray (holding 7)
      (fixMessageParse ⟨.fix44, fixTagType⟩ 0 (holding 7)
        ⟨fortyNineTexts.text, 0, fortyNineTexts.text.length⟩) := by
  have bytes : (⟨fortyNineTexts.text, 0, fortyNineTexts.text.length⟩ : Buffer).unread = fortyNineTexts.text := by
    rw [unread, List.take_length, List.drop_zero]
  have fault : fixMessageParse ⟨.fix44, fixTagType⟩ 0 (holding 7)
      ⟨fortyNineTexts.text, 0, fortyNineTexts.text.length⟩ = .fault := by
    rw [parse_faults _ _ ⟨Nat.zero_le _, Nat.le_refl _⟩, bytes]
    decide +kernel
  rw [fault]
  exact fun h => h

end Libtrading.Fix
