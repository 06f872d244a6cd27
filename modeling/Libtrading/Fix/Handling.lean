import Mathlib.Algebra.Order.BigOperators.Group.List
import Mathlib.Algebra.Order.Ring.Nat
import Libtrading.Fix.Delivery
import Libtrading.Fix.SequenceReset

/-!
# Handling a message

What `fix_session_admin` does to a session that has received a message, and what it sends: one message at most, under the
header of the session, with fields that are short and can be carried. So all that a session sends by itself is a message
that its peer can receive, once its number is below 2³¹.
-/

namespace Libtrading.Fix
open Wire Bytes
set_option autoImplicit false
universe u

/-- The dialect of a version that has one. -/
def Version.dialect (v : Version) : Dialect := ⟨v, fixTagType⟩

theorem dialect_common (v : Version) : v.dialect.Common := ⟨rfl, rfl, rfl, rfl, rfl⟩

/-! ## Short texts -/

/-- A C string without a SOH, of 150 characters at most. -/
structure Brief (text : List UInt8) : Prop where
  soh : 1 ∉ cchars text
  short : (cchars text).length ≤ 150

/-- The characters of a C string are among its bytes. -/
theorem brief_of_bytes {text : List UInt8} (soh : 1 ∉ text) (short : text.length ≤ 150) : Brief text := by
  have part : (cchars text).Sublist text := List.takeWhile_sublist _
  exact ⟨fun one => soh (part.subset one), part.length_le.trans short⟩

/-- A number of 64 bits has 20 digits at most, and no SOH among them. -/
theorem number_digits (n : U64) : 1 ∉ decimal n.toNat ∧ (decimal n.toNat).length ≤ 20 := by
  have small := n.isLt
  exact ⟨digits_no_soh (List.all_eq_true.2 (digits_decimal _)), (length_decimal_le (by decide)).2 (by omega)⟩

theorem brief_too_low (expected received : U64) : Brief (tooLowText expected received) := by
  obtain ⟨first, short⟩ := number_digits expected
  obtain ⟨second, short'⟩ := number_digits received
  have front : (chars "MsgSeqNum too low, expecting ").length = 29 := by decide
  have middle : (chars " received ").length = 10 := by decide
  refine brief_of_bytes ?_ ?_
  · simp only [tooLowText, cstr, List.mem_append, not_or]
    exact ⟨⟨⟨⟨by decide, first⟩, by decide⟩, second⟩, by decide⟩
  · simp only [tooLowText, cstr, List.length_append, front, middle, List.length_singleton]
    omega

theorem brief_lower (n : U64) : Brief (lowerText n) := by
  obtain ⟨digits, short⟩ := number_digits n
  have front : (chars "Attempt to lower sequence number, invalid value NewSeqNum = ").length = 60 := by decide
  refine brief_of_bytes ?_ ?_
  · simp only [lowerText, cstr, List.mem_append, not_or]
    exact ⟨⟨by decide, digits⟩, by decide⟩
  · simp only [lowerText, cstr, List.length_append, front, List.length_singleton]
    omega

theorem brief_value (n : U64) : Brief (valueText n) := by
  obtain ⟨digits, short⟩ := number_digits n
  have front : (chars "Value is incorrect (too low) ").length = 29 := by decide
  refine brief_of_bytes ?_ ?_
  · simp only [valueText, cstr, List.mem_append, not_or]
    exact ⟨⟨by decide, digits⟩, by decide⟩
  · simp only [valueText, cstr, List.length_append, front, List.length_singleton]
    omega

/-- What is in front of a SOH is shorter than what the SOH is in. -/
theorem before_soh {l : List UInt8} {k : Nat} (soh : 1 ∈ l.take k) : (l.takeWhile (· ≠ 1)).length < k := by
  induction l generalizing k with
  | nil =>
    rw [List.take_nil] at soh
    cases soh
  | cons c l ih =>
    cases k with
    | zero => cases soh
    | succ k =>
      by_cases first : c = 1
      · rw [List.takeWhile_cons_of_neg (by simpa using first)]
        exact Nat.succ_pos k
      · rw [List.takeWhile_cons_of_pos (by simpa using first), List.length_cons]
        rw [List.take_succ_cons, List.mem_cons] at soh
        exact Nat.succ_lt_succ (ih (soh.resolve_left fun is => first is.symm))

/-- The text a TestRequest is answered with is cut at its SOH, inside of 128 bytes. -/
theorem brief_test_request {F : Type u} (m : FixMessage F) : Brief (Session.testRequestId m) := by
  have own : Brief (cstr (chars "TestReqID")) := ⟨by decide, by decide⟩
  rw [Session.testRequestId]
  cases m.fixGetField Tag.testReqId with
  | none => exact own
  | some f =>
    rw [Option.bind_some, fixGetString]
    split
    · next inside =>
      have cut := before_soh inside
      have part : (cchars (f.stringValue.takeWhile (· ≠ 1))).Sublist (f.stringValue.takeWhile (· ≠ 1)) :=
        List.takeWhile_sublist _
      have soh : 1 ∉ f.stringValue.takeWhile (· ≠ 1) := fun one => by simpa using List.mem_takeWhile_imp one
      have short := part.length_le
      refine brief_of_bytes ?_ ?_
      · rw [Option.getD_some, cstr, List.mem_append, not_or]
        exact ⟨fun one => soh (part.subset one), by decide⟩
      · rw [Option.getD_some, cstr, List.length_append, List.length_singleton]
        omega
    · exact own

section
variable {F : Type u} [Doubles F]

/-- A field that can be carried, of 200 bytes at most. -/
structure FixField.Brief (f : FixField F) : Prop where
  carried : ∀ v : Version, f.Carried v.dialect
  short : f.size ≤ 200

/-- A tag has ten digits at most. -/
theorem tag_digits (tag : Tag) : digitCount tag.toNat ≤ 10 := by
  have small := tag.isLt
  rw [← length_decimal]
  exact (length_decimal_le (by decide)).2 (by omega)

/-- A printed number has 21 characters at most, none of them a SOH. -/
theorem printed_number (n : U64) : 1 ∉ i64toa n ∧ (i64toa n).length ≤ 21 := by
  have text : i64toa n = signText n ++ decimal (magnitude n) := by rw [i64toa_eq, sprintf64_eq]
  have digits : ∃ k : U64, magnitude n = k.toNat := by
    rw [magnitude]
    split
    · exact ⟨-n, rfl⟩
    · exact ⟨n, rfl⟩
  obtain ⟨k, same⟩ := digits
  obtain ⟨soh, short⟩ := number_digits k
  rw [text, same, List.length_append]
  rcases sign_text n with sign | sign
  · rw [sign, List.nil_append, List.length_nil]
    exact ⟨soh, by omega⟩
  · rw [sign, List.length_singleton]
    refine ⟨?_, by omega⟩
    rw [List.mem_append, not_or]
    exact ⟨by decide, soh⟩

theorem brief_int {tag : Tag} (n : U64) (type : fixTagType tag = .int) : (FixField.ofInt tag n : FixField F).Brief := by
  obtain ⟨soh, short⟩ := printed_number n
  have digits := tag_digits tag
  have size : (FixField.ofInt tag n : FixField F).value.size = (i64toa n).length := (length_value _).symm
  refine ⟨fun v => ⟨by simp only [FixField.ofInt, FieldValue.type]; decide, .inr type, soh⟩, ?_⟩
  have tagSize : (FixField.ofInt tag n : FixField F).tag = tag := rfl
  rw [FixField.size, size, tagSize]
  omega

theorem brief_text {tag : Tag} {text : List UInt8} (type : fixTagType tag = .string) (brief : Brief text) :
    (FixField.ofString tag text : FixField F).Brief := by
  have most := brief.short
  have digits := tag_digits tag
  refine ⟨fun v => ⟨by simp only [FixField.ofString, FieldValue.type]; decide, .inl type, brief.soh⟩, ?_⟩
  have size : (FixField.ofString tag text : FixField F).value.size = (cchars text).length := rfl
  have tagSize : (FixField.ofString tag text : FixField F).tag = tag := rfl
  rw [FixField.size, size, tagSize]
  omega

end

/-! ## What handling a message does -/

namespace Session
variable {F : Type u} [Doubles F]

/-- A message that `fix_session_recv` has returned, handed to `fix_session_admin`: the session behind it, less the grace
period of a Logout, and what was sent. -/
def respond (s : Session F) (m : FixMessage F) : Session F × List (FixMessage F) :=
  let e := s.adminStep m
  match e.logout with
  | some text => ((e.session.sendLogout text).1, e.sent ++ [(e.session.sendLogout text).2])
  | none => (e.session, e.sent)

/-- A message counted, and handed to `fix_session_admin`. -/
def handle (s : Session F) (m : FixMessage F) : Session F × List (FixMessage F) := (s.received m).respond m

/-- Messages handled one after the other. -/
def handleAll (s : Session F) : List (FixMessage F) → Session F × List (FixMessage F)
  | [] => (s, [])
  | m :: ms =>
    let rest := (s.handle m).1.handleAll ms
    (rest.1, (s.handle m).2 ++ rest.2)

theorem logout_loop_handles (loops : Nat) (s : Session F) (turns : List (Turn F)) :
    ∃ ms, (logoutLoop loops s turns).session = (s.handleAll ms).1 ∧
      (logoutLoop loops s turns).sent = (s.handleAll ms).2 := by
  induction turns generalizing loops s with
  | nil => cases loops <;> exact ⟨[], rfl, rfl⟩
  | cons turn turns ih =>
    cases loops with
    | zero => exact ⟨[], rfl, rfl⟩
    | succ loops =>
      cases turn with
      | elapsed => exact ih loops s
      | nothing => exact ih (loops + 1) s
      | message m =>
        rw [logoutLoop]
        cases ends : ((s.received m).adminStep m).logout with
        | some text =>
          obtain ⟨ms, session, sent⟩ := ih (loops + 2) (((s.received m).adminStep m).session.sendLogout text).1
          refine ⟨m :: ms, ?_, ?_⟩
          · simp only [behind, handleAll, handle, respond, ends]
            exact session
          · simp only [behind, handleAll, handle, respond, ends]
            rw [sent]
        | none =>
          obtain ⟨ms, session, sent⟩ := ih (if ((s.received m).adminStep m).handled then loops + 1 else loops)
            ((s.received m).adminStep m).session
          refine ⟨m :: ms, ?_, ?_⟩
          · simp only [behind, handleAll, handle, respond, ends]
            exact session
          · simp only [behind, handleAll, handle, respond, ends]
            rw [sent]

/-- **A call of `fix_session_admin`** handles its message, and, where that comes to a Logout, the messages of the grace
period one after the other. -/
theorem admin_handles (s : Session F) (m : FixMessage F) (turns : List (Turn F)) :
    ∃ ms, ((s.received m).fixSessionAdmin m turns).session = (s.handleAll (m :: ms)).1 ∧
      ((s.received m).fixSessionAdmin m turns).sent = (s.handleAll (m :: ms)).2 := by
  rw [fixSessionAdmin]
  cases ends : ((s.received m).adminStep m).logout with
  | some text =>
    obtain ⟨ms, session, sent⟩ :=
      logout_loop_handles 1 (((s.received m).adminStep m).session.sendLogout text).1 turns
    refine ⟨ms, ?_, ?_⟩
    · simp only [behind, handleAll, handle, respond, ends]
      exact session
    · simp only [behind, handleAll, handle, respond, ends]
      rw [sent]
  | none =>
    refine ⟨[], ?_, ?_⟩
    · simp only [handleAll, handle, respond, ends]
    · simp only [handleAll, handle, respond, ends, List.append_nil]

theorem handle_in (s : Session F) (m : FixMessage F) :
    (s.handle m).1.inMsgSeqNum = m.counterAfter (s.inMsgSeqNum + 1) := by
  have counter := (admin_step_leaves (s.received m) m).counter
  rw [received_in] at counter
  rw [← counter, handle, respond]
  cases ((s.received m).adminStep m).logout <;> rfl

/-- What the handling of `m` sends, and the number of the next message behind it. -/
inductive Sends (s : Session F) (m : FixMessage F) : List (FixMessage F) → U64 → Prop where
  | nothing : Sends s m [] s.outMsgSeqNum
  | numbered {r : FixMessage F} (reset : r.type ≠ .sequenceReset) (request : r.type ≠ .resendRequest)
      (number : r.msgSeqNum = s.outMsgSeqNum) : Sends s m [r] (s.outMsgSeqNum + 1)
  | request {r : FixMessage F} {stop : U64} (high : s.inMsgSeqNum + 1 < m.msgSeqNum) (type : r.type = .resendRequest)
      (number : r.msgSeqNum = s.outMsgSeqNum)
      (fields : r.fields = [.ofInt Tag.beginSeqNo (s.inMsgSeqNum + 1), .ofInt Tag.endSeqNo stop])
      (stops : m.type ≠ .sequenceReset → stop = endSeqNo s.dialect.version) : Sends s m [r] (s.outMsgSeqNum + 1)
  | gapFill {r : FixMessage F} {f g : FixField F} (request : m.type = .resendRequest)
      (expected : m.msgSeqNum = s.inMsgSeqNum + 1) (begins : m.fixGetField Tag.beginSeqNo = some f)
      (ends : m.fixGetField Tag.endSeqNo = some g) (type : r.type = .sequenceReset) (number : r.msgSeqNum = f.intValue)
      (fields : r.fields =
        [.ofInt Tag.newSeqNo (g.intValue + 1), .ofString Tag.gapFillFlag (cstr (chars "Y"))]) :
      Sends s m [r] s.outMsgSeqNum

/-! ## One step -/

/-- What neither a send nor the handling of a message changes: the dialect, the header, and what was received. -/
structure Same (s t : Session F) : Prop where
  dialect : t.dialect = s.dialect
  beginString : t.beginString = s.beginString
  senderCompId : t.senderCompId = s.senderCompId
  targetCompId : t.targetCompId = s.targetCompId
  strNow : t.strNow = s.strNow
  rxBuffer : t.rxBuffer = s.rxBuffer

/-- A message that a session sends by itself: under its header, of a known type, with a few short fields that can be
carried. -/
structure Writes (s : Session F) (r : FixMessage F) : Prop where
  beginString : r.beginString = s.beginString
  senderCompId : r.senderCompId = s.senderCompId
  targetCompId : r.targetCompId = s.targetCompId
  strNow : r.strNow = s.strNow
  known : r.type ≠ .unknown
  few : r.fields.length ≤ 2
  fields : ∀ f ∈ r.fields, f.Brief

/-- A step that sends so, or nothing before a Logout, whose text is a short one. -/
structure Steps (s : Session F) (m : FixMessage F) (e : AdminStep F) : Prop where
  same : s.Same e.session
  sends : Sends s m e.sent e.session.outMsgSeqNum
  writes : ∀ r ∈ e.sent, s.Writes r
  logout : e.logout.isSome → e.sent = []
  text : ∀ text ∈ e.logout, Brief text

variable {s t : Session F} {m : FixMessage F}

omit [Doubles F] in
theorem same_refl (s : Session F) : s.Same s := ⟨rfl, rfl, rfl, rfl, rfl, rfl⟩

/-- A message of a session with the same header. -/
theorem Same.sends (h : s.Same t) {r : FixMessage F} (flags : U64) (known : r.type ≠ .unknown) (few : r.fields.length ≤ 2)
    (fields : ∀ f ∈ r.fields, f.Brief) : s.Same (t.fixSessionSend r flags).1 ∧ s.Writes (t.fixSessionSend r flags).2 :=
  ⟨⟨h.dialect, h.beginString, h.senderCompId, h.targetCompId, h.strNow, h.rxBuffer⟩,
    ⟨h.beginString, h.senderCompId, h.targetCompId, h.strNow, known, few, fields⟩⟩

theorem done_steps (same : s.Same t) (out : t.outMsgSeqNum = s.outMsgSeqNum) (handled : Bool) :
    Steps s m (t.adminDone handled) where
  same := same
  sends := by
    rw [adminDone, out]
    exact .nothing
  writes := List.forall_mem_nil _
  logout _ := rfl
  text _ none := by cases none

theorem too_low_steps : Steps s m ((s.received m).tooLow m) where
  same := ⟨rfl, rfl, rfl, rfl, rfl, rfl⟩
  sends := .nothing
  writes := List.forall_mem_nil _
  logout _ := rfl
  text text is := by
    rw [tooLow] at is
    split at is
    · cases is
    · cases is
      exact brief_too_low _ _

theorem request_steps {stop : U64} (high : s.inMsgSeqNum + 1 < m.msgSeqNum)
    (stops : m.type ≠ .sequenceReset → stop = endSeqNo s.dialect.version) :
    Steps s m ((s.received m).requestResend stop) where
  same := ⟨rfl, rfl, rfl, rfl, rfl, rfl⟩
  sends := .request high rfl rfl rfl stops
  writes := by
    have received : s.Same (s.received m) := ⟨rfl, rfl, rfl, rfl, rfl, rfl⟩
    have fields : ∀ f ∈ [(.ofInt Tag.beginSeqNo (s.inMsgSeqNum + 1) : FixField F), .ofInt Tag.endSeqNo stop], f.Brief :=
      List.forall_mem_cons.2 ⟨brief_int _ (by decide), List.forall_mem_singleton.2 (brief_int _ (by decide))⟩
    exact List.forall_mem_singleton.2 (received.sends 0
      (r := .init .resendRequest [.ofInt Tag.beginSeqNo (s.inMsgSeqNum + 1), .ofInt Tag.endSeqNo stop])
      (fun no => by cases no) (Nat.le_refl 2) fields).2
  logout ends := by cases ends
  text _ none := by cases none

theorem reject_steps (same : s.Same t) (number : t.outMsgSeqNum = s.outMsgSeqNum) (n : U64) {text : List UInt8}
    (brief : Brief text) :
    Steps s m ⟨true, (t.fixSessionReject n text).1, [(t.fixSessionReject n text).2], none⟩ := by
  have fields : ∀ f ∈ [(.ofInt Tag.refSeqNum n : FixField F), .ofString Tag.text text], f.Brief :=
    List.forall_mem_cons.2 ⟨brief_int _ (by decide), List.forall_mem_singleton.2 (brief_text (by decide) brief)⟩
  obtain ⟨same', writes⟩ := same.sends 0 (r := .init .reject [.ofInt Tag.refSeqNum n, .ofString Tag.text text])
    (fun no => by cases no) (Nat.le_refl 2) fields
  have next : (t.fixSessionReject n text).1.outMsgSeqNum = s.outMsgSeqNum + 1 := by
    rw [← number]
    rfl
  refine ⟨same', ?_, List.forall_mem_singleton.2 writes, fun ends => (by cases ends), fun _ none => (by cases none)⟩
  simp only
  rw [next]
  exact .numbered (fun h => by cases h) (fun h => by cases h) number

theorem unexpected_steps : Steps s m ((s.received m).fixDoUnexpected m) := by
  rw [fixDoUnexpected]
  split_ifs with high low
  · exact request_steps high fun _ => rfl
  · exact too_low_steps
  · exact done_steps (by exact ⟨rfl, rfl, rfl, rfl, rfl, rfl⟩) (by rfl) true

theorem sequence_reset_steps (reset : m.type = .sequenceReset) : Steps s m ((s.received m).adminSequenceReset m) := by
  rw [adminSequenceReset]
  split
  · exact done_steps (by exact ⟨rfl, rfl, rfl, rfl, rfl, rfl⟩) (by rfl) true
  · split
    · rw [adminGapFill]
      split_ifs with high low on
      · exact request_steps high fun plain => absurd reset plain
      · exact too_low_steps
      · exact done_steps (by exact ⟨rfl, rfl, rfl, rfl, rfl, rfl⟩) (by rfl) true
      · exact reject_steps (by exact ⟨rfl, rfl, rfl, rfl, rfl, rfl⟩) (by rfl) _ (brief_lower _)
    · rw [adminReset]
      split_ifs with on low
      · exact done_steps (by exact ⟨rfl, rfl, rfl, rfl, rfl, rfl⟩) (by rfl) true
      · exact reject_steps (by exact ⟨rfl, rfl, rfl, rfl, rfl, rfl⟩) (by rfl) _ (brief_value _)
      · exact done_steps (by exact ⟨rfl, rfl, rfl, rfl, rfl, rfl⟩) (by rfl) true

theorem resend_request_steps (request : m.type = .resendRequest) (expected : m.msgSeqNum = s.inMsgSeqNum + 1) :
    Steps s m ((s.received m).adminResendRequest m) := by
  have received : s.Same (s.received m) := ⟨rfl, rfl, rfl, rfl, rfl, rfl⟩
  rw [adminResendRequest]
  split
  · exact done_steps (by exact received) (by rfl) false
  · next f begins =>
    split
    · exact done_steps (by exact received) (by rfl) false
    · next g ends =>
      have fields : ∀ f ∈ [(.ofInt Tag.newSeqNo (g.intValue + 1) : FixField F), .ofString Tag.gapFillFlag (cstr (chars "Y"))],
          f.Brief := List.forall_mem_cons.2 ⟨brief_int _ (by decide),
        List.forall_mem_singleton.2 (brief_text (by decide) ⟨by decide, by decide⟩)⟩
      obtain ⟨same, writes⟩ := received.sends preserveMsgNum (r := { FixMessage.init .sequenceReset
        [.ofInt Tag.newSeqNo (g.intValue + 1), .ofString Tag.gapFillFlag (cstr (chars "Y"))] with msgSeqNum := f.intValue })
        (fun no => by cases no) (Nat.le_refl 2) fields
      exact ⟨same, .gapFill request expected begins ends rfl rfl rfl, List.forall_mem_singleton.2 writes,
        fun logout => (by cases logout), fun _ none => (by cases none)⟩

/-- A TestRequest is answered. -/
theorem test_request_steps : Steps s m ((s.received m).adminTestRequest m) := by
  have received : s.Same (s.received m) := ⟨rfl, rfl, rfl, rfl, rfl, rfl⟩
  obtain ⟨same, writes⟩ := received.sends 0 (r := .init .heartbeat [.ofString Tag.testReqId (testRequestId m)])
    (fun no => by cases no) (Nat.le_succ 1)
    (List.forall_mem_singleton.2 (brief_text (by decide) (brief_test_request m)))
  exact ⟨same, .numbered (fun h => by cases h) (fun h => by cases h) rfl, List.forall_mem_singleton.2 writes,
    fun logout => (by cases logout), fun _ none => (by cases none)⟩

theorem admin_steps : Steps s m ((s.received m).adminStep m) := by
  have received : s.Same (s.received m) := ⟨rfl, rfl, rfl, rfl, rfl, rfl⟩
  rw [adminStep]
  split_ifs with unexpected
  · exact unexpected_steps
  · split
    · rw [adminHeartbeat]
      split
      · split
        · exact done_steps (by exact ⟨rfl, rfl, rfl, rfl, rfl, rfl⟩) (by rfl) true
        · exact done_steps (by exact received) (by rfl) true
      · exact done_steps (by exact received) (by rfl) true
    · exact test_request_steps
    · next request =>
      refine resend_request_steps request ?_
      rw [fixMsgExpected, FixMessage.fixMessageTypeIs, request, Bool.not_eq_true', Bool.not_eq_false,
        Bool.or_eq_true] at unexpected
      exact beq_iff_eq.1 (unexpected.resolve_right (by decide))
    · next reset => exact sequence_reset_steps reset
    · exact done_steps (by exact received) (by rfl) false

/-! ## One message -/

/-- What handling a message leaves, and what it writes. -/
theorem handle_same (s : Session F) (m : FixMessage F) : s.Same (s.handle m).1 ∧ ∀ r ∈ (s.handle m).2, s.Writes r := by
  obtain ⟨same, -, writes, -, short⟩ := admin_steps (s := s) (m := m)
  rw [handle, respond]
  cases ends : ((s.received m).adminStep m).logout with
  | none => exact ⟨same, writes⟩
  | some text =>
    have brief : Brief text := short text ends
    obtain ⟨same', last⟩ := same.sends 0 (r := .init .logout [.ofString Tag.text text]) (fun no => by cases no)
      (Nat.le_succ 1) (List.forall_mem_singleton.2 (brief_text (by decide) brief))
    refine ⟨⟨same'.dialect, same'.beginString, same'.senderCompId, same'.targetCompId, same'.strNow, same'.rxBuffer⟩, ?_⟩
    exact List.forall_mem_append.2 ⟨writes, List.forall_mem_singleton.2 last⟩

/-- **Handling a message** sends one message at most: a numbered one, a request for what is missing, or the gap fill
that answers such a request. -/
theorem handle_sends (s : Session F) (m : FixMessage F) : Sends s m (s.handle m).2 (s.handle m).1.outMsgSeqNum := by
  obtain ⟨-, sends, -, logout, -⟩ := admin_steps (s := s) (m := m)
  rw [handle, respond]
  cases ends : ((s.received m).adminStep m).logout with
  | none => exact sends
  | some text =>
    rw [ends] at logout
    have none := logout rfl
    have out : ((s.received m).adminStep m).session.outMsgSeqNum = s.outMsgSeqNum := by
      rw [none] at sends
      generalize ((s.received m).adminStep m).session.outMsgSeqNum = out at sends
      cases sends
      rfl
    have next : ((((s.received m).adminStep m).session.sendLogout text).1).outMsgSeqNum = s.outMsgSeqNum + 1 := by
      rw [← out]
      rfl
    simp only
    rw [none, List.nil_append, next]
    exact .numbered (fun h => by cases h) (fun h => by cases h) out

/-! ## What can be conveyed -/

/-- A CompID, an array of 32 characters. -/
structure CompId (text : List UInt8) : Prop where
  soh : 1 ∉ cchars text
  short : (cchars text).length < 32

/-- A session of a version whose header can be conveyed: BeginString as `fix_session_new` leaves it, CompIDs, and a time
without a SOH. -/
structure Headed (v : Version) (s : Session F) : Prop where
  dialect : s.dialect = v.dialect
  beginString : s.beginString = beginStrings v
  senderCompId : CompId s.senderCompId
  targetCompId : CompId s.targetCompId
  strNow : 1 ∉ cchars s.strNow

variable {v : Version}

omit [Doubles F] in
theorem Headed.same (h : s.Headed v) (same : s.Same t) : t.Headed v where
  dialect := same.dialect.trans h.dialect
  beginString := same.beginString.trans h.beginString
  senderCompId := same.senderCompId ▸ h.senderCompId
  targetCompId := same.targetCompId ▸ h.targetCompId
  strNow := same.strNow ▸ h.strNow

theorem begin_string_chars (v : Version) : 1 ∉ cchars (beginStrings v) ∧ (cchars (beginStrings v)).length ≤ 8 := by
  cases v <;> decide

theorem type_text_length (t : MsgType) : (cchars (cstr (fixMsgTypes t))).length ≤ 4 := by
  cases t <;> decide

/-- A number is printed with 21 characters at most. -/
theorem size_int (tag : Tag) (n : U64) : (FixField.ofInt tag n : FixField F).size ≤ digitCount tag.toNat + 23 := by
  have short := (printed_number n).2
  have size : (FixField.ofInt tag n : FixField F).value.size = (i64toa n).length := (length_value _).symm
  have tagSize : (FixField.ofInt tag n : FixField F).tag = tag := rfl
  rw [FixField.size, size, tagSize]
  omega

theorem size_text (tag : Tag) (text : List UInt8) :
    (FixField.ofString tag text : FixField F).size = digitCount tag.toNat + (cchars text).length + 2 := by
  have size : (FixField.ofString tag text : FixField F).value.size = (cchars text).length := rfl
  have tagSize : (FixField.ofString tag text : FixField F).tag = tag := rfl
  rw [FixField.size, size, tagSize]
  omega

/-- The header of a session takes 200 bytes at most. -/
theorem Headed.header_size (h : s.Headed v) {r : FixMessage F} (w : s.Writes r) :
    (r.standardHeader.map FixField.size).sum ≤ 200 := by
  have sender := h.senderCompId.short
  have target := h.targetCompId.short
  rw [← w.senderCompId] at sender
  rw [← w.targetCompId] at target
  have type := type_text_length r.type
  have number := size_int (F := F) Tag.msgSeqNum r.msgSeqNum
  have time : (cchars (strncpy r.strNow 64)).length ≤ 64 := by
    have part : (cchars (strncpy r.strNow 64)).length ≤ (strncpy r.strNow 64).length :=
      (List.takeWhile_sublist _).length_le
    rw [strncpy, List.length_append, List.length_take, List.length_replicate] at part
    rw [strncpy]
    omega
  have tags : digitCount Tag.msgType.toNat = 2 ∧ digitCount Tag.senderCompId.toNat = 2 ∧
      digitCount Tag.targetCompId.toNat = 2 ∧ digitCount Tag.msgSeqNum.toNat = 2 ∧ digitCount Tag.sendingTime.toNat = 2 := by
    decide
  obtain ⟨type', sender', target', number', time'⟩ := tags
  rw [FixMessage.standardHeader, if_pos w.known]
  simp only [List.map_cons, List.map_nil, List.sum_cons, List.sum_nil, size_text, type', sender', target', time']
  omega

/-- **What a session sends by itself** can be conveyed, once its number is below 2³¹. -/
theorem Headed.conveyable (h : s.Headed v) {r : FixMessage F} (w : s.Writes r) (small : r.msgSeqNum.toNat < 2 ^ 31) :
    r.Conveyable v.dialect := by
  obtain ⟨begins, few⟩ := begin_string_chars v
  have header := h.header_size w
  have fields : (r.fields.map FixField.size).sum ≤ 400 := by
    have each : ∀ n ∈ r.fields.map FixField.size, n ≤ 200 := by
      intro n hn
      obtain ⟨f, hf, rfl⟩ := List.mem_map.1 hn
      exact (w.fields f hf).short
    have sum := List.sum_le_card_nsmul _ 200 each
    have length := w.few
    rw [List.length_map, nsmul_eq_mul, Nat.cast_id] at sum
    omega
  have body : r.bodySize ≤ 600 := by
    rw [FixMessage.bodySize, List.map_append, List.sum_append]
    omega
  have length := size_int (F := F) Tag.bodyLength (.ofNat 64 r.bodySize)
  have tags : digitCount Tag.beginString.toNat = 1 ∧ digitCount Tag.bodyLength.toNat = 1 := by decide
  have head : r.headSize ≤ 256 := by
    rw [FixMessage.headSize, size_text, w.beginString, h.beginString, tags.1]
    omega
  refine ⟨w.known, small, by have := w.few; omega, fun f hf => (w.fields f hf).carried v, ?_, ?_, ?_, ?_, head, ?_⟩
  · rw [w.beginString, h.beginString]
    exact begins
  · rw [w.senderCompId]
    exact h.senderCompId.soh
  · rw [w.targetCompId]
    exact h.targetCompId.soh
  · rw [w.strNow]
    exact h.strNow
  · have sum : FixMessage.checkSumSize = 7 := rfl
    have max : fixMaxBodyLen = 1024 := rfl
    omega

/-- A request with the number expected is answered with a gap fill up to the number behind its EndSeqNo. -/
theorem handle_resend_request {f g : FixField F} (request : m.type = .resendRequest)
    (expected : m.msgSeqNum = s.inMsgSeqNum + 1) (begins : m.fixGetField Tag.beginSeqNo = some f)
    (ends : m.fixGetField Tag.endSeqNo = some g) :
    s.handle m = (((s.received m).fixSessionSequenceReset f.intValue (g.intValue + 1) true).1,
      [((s.received m).fixSessionSequenceReset f.intValue (g.intValue + 1) true).2]) := by
  have same : (s.received m).fixMsgExpected m = true := by
    rw [fixMsgExpected, received_in, expected, BEq.rfl, Bool.true_or]
  have step : (s.received m).adminStep m =
      ⟨true, ((s.received m).fixSessionSequenceReset f.intValue (g.intValue + 1) true).1,
        [((s.received m).fixSessionSequenceReset f.intValue (g.intValue + 1) true).2], none⟩ := by
    rw [adminStep, same, request]
    simp only [Bool.not_true, Bool.false_eq_true, if_false, adminResendRequest, begins, ends]
  rw [handle, respond, step]

end Session

end Libtrading.Fix
