import Libtrading.Fix.Admin

/-!
# Following a SequenceReset

`fix_session_admin` meets a message when `in_msg_seq_num` has counted it
already: the counter is then the number `E` that was expected, and each branch
has to leave it one below the number to expect next. `counterAfter` says where
every branch leaves it, as a function of `E` and the message alone.
-/

namespace Libtrading.Fix
set_option autoImplicit false
universe u

namespace FixMessage
variable {F : Type u}

/-- The counter after a SequenceReset to `n`, received where `E` was expected. -/
def counterAfterReset (E n : U64) (m : FixMessage F) : U64 :=
  if m.gapFill then
    if m.msgSeqNum = E then if E < n then n - 1 else E
    else E - 1
  else if E < n then n - 1
  else if n < E then E - 1
  else E

/-- The counter after a message that was received where `E` was expected. -/
def counterAfter (E : U64) (m : FixMessage F) : U64 :=
  if m.type = .sequenceReset then
    match m.fixGetField Tag.newSeqNo with
    | none => E
    | some f => m.counterAfterReset E f.intValue
  else if m.msgSeqNum = E then E
  else E - 1

/-- Whether the number of the message is compared with the one expected, and nothing else of it: every
message but a SequenceReset, and of these the gap fills with a NewSeqNo. -/
def numbered (m : FixMessage F) : Bool :=
  m.type ≠ .sequenceReset || (m.fixGetField Tag.newSeqNo).isSome && m.gapFill

/-- Whether the message ends a session that expects `E`: its number is too low, and it is no possible duplicate. -/
def endsSession (E : U64) (m : FixMessage F) : Bool := m.numbered && decide (m.msgSeqNum < E) && !m.possDup

/-- Whether a session that expects `E` takes the message for good, so that the counter moves. -/
def movesOn (E : U64) (m : FixMessage F) : Bool :=
  if m.numbered then m.msgSeqNum = E
  else
    match m.fixGetField Tag.newSeqNo with
    | none => true
    | some f => E ≤ f.intValue

end FixMessage

namespace Session
variable {F : Type u} [Doubles F]

omit [Doubles F] in
/-- Three outcomes of a comparison of numbers, as the code tests them. -/
theorem number_cases (x y : U64) :
    (x < y ∧ ¬y < x ∧ y ≠ x) ∨ (y = x ∧ ¬x < y ∧ ¬y < x) ∨ (y < x ∧ ¬x < y ∧ y ≠ x) := by
  simp only [BitVec.lt_def, ne_eq, ← BitVec.toNat_inj]
  omega

/-- Where the step leaves the counter, and whether it comes to a Logout. -/
structure Leaves (e : AdminStep F) (counter : U64) (ends : Bool) : Prop where
  counter : e.session.inMsgSeqNum = counter
  ends : e.logout.isSome = ends

omit [Doubles F] in
theorem too_low_leaves (s : Session F) (m : FixMessage F) : Leaves (s.tooLow m) (s.inMsgSeqNum - 1) (!m.possDup) := by
  refine ⟨rfl, ?_⟩
  rw [tooLow]
  cases m.possDup <;> rfl

theorem unexpected_leaves (s : Session F) (m : FixMessage F) (other : m.msgSeqNum ≠ s.inMsgSeqNum) :
    Leaves (s.fixDoUnexpected m) (s.inMsgSeqNum - 1) (decide (m.msgSeqNum < s.inMsgSeqNum) && !m.possDup) := by
  rw [fixDoUnexpected]
  rcases number_cases s.inMsgSeqNum m.msgSeqNum with ⟨high, low, -⟩ | ⟨same, -, -⟩ | ⟨low, high, -⟩
  · rw [if_pos high, decide_eq_false low, Bool.false_and]
    exact ⟨rfl, rfl⟩
  · exact absurd same other
  · rw [if_neg high, if_pos low, decide_eq_true low, Bool.true_and]
    exact too_low_leaves s m

theorem gap_fill_leaves (s : Session F) (m : FixMessage F) (n : U64) :
    Leaves (s.adminGapFill m n)
      (if m.msgSeqNum = s.inMsgSeqNum then if s.inMsgSeqNum < n then n - 1 else s.inMsgSeqNum else s.inMsgSeqNum - 1)
      (decide (m.msgSeqNum < s.inMsgSeqNum) && !m.possDup) := by
  rw [adminGapFill]
  rcases number_cases s.inMsgSeqNum m.msgSeqNum with ⟨high, low, other⟩ | ⟨same, high, low⟩ | ⟨low, high, other⟩
  · rw [if_pos high, if_neg other, decide_eq_false low, Bool.false_and]
    exact ⟨rfl, rfl⟩
  · rw [if_neg high, if_neg low, if_pos same, decide_eq_false low, Bool.false_and, same]
    by_cases on : s.inMsgSeqNum < n
    · rw [if_pos on, if_pos on]
      exact ⟨rfl, rfl⟩
    · rw [if_neg on, if_neg on]
      exact ⟨rfl, rfl⟩
  · rw [if_neg high, if_pos low, if_neg other, decide_eq_true low, Bool.true_and]
    exact too_low_leaves s m

theorem reset_leaves (s : Session F) (n : U64) :
    Leaves (s.adminReset n)
      (if s.inMsgSeqNum < n then n - 1 else if n < s.inMsgSeqNum then s.inMsgSeqNum - 1 else s.inMsgSeqNum) false := by
  rw [adminReset]
  by_cases on : s.inMsgSeqNum < n
  · rw [if_pos on, if_pos on]
    exact ⟨rfl, rfl⟩
  · rw [if_neg on, if_neg on]
    by_cases low : n < s.inMsgSeqNum
    · rw [if_pos low, if_pos low]
      exact ⟨rfl, rfl⟩
    · rw [if_neg low, if_neg low]
      exact ⟨rfl, rfl⟩

theorem sequence_reset_leaves (s : Session F) (m : FixMessage F) (reset : m.type = .sequenceReset) :
    Leaves (s.adminSequenceReset m) (m.counterAfter s.inMsgSeqNum) (m.endsSession s.inMsgSeqNum) := by
  have numbered : m.numbered = ((m.fixGetField Tag.newSeqNo).isSome && m.gapFill) := by
    rw [FixMessage.numbered, reset]
    rfl
  rw [adminSequenceReset, FixMessage.counterAfter, if_pos reset, FixMessage.endsSession, numbered]
  cases m.fixGetField Tag.newSeqNo with
  | none => exact ⟨rfl, rfl⟩
  | some f =>
    rw [Option.isSome_some, Bool.true_and]
    simp only [FixMessage.counterAfterReset]
    cases m.gapFill with
    | true => exact gap_fill_leaves s m f.intValue
    | false => exact reset_leaves s f.intValue

/-- A message with the number expected that is no SequenceReset stays counted. -/
theorem expected_leaves (s : Session F) (m : FixMessage F) (plain : m.type ≠ .sequenceReset)
    (same : m.msgSeqNum = s.inMsgSeqNum) : Leaves (s.adminStep m) s.inMsgSeqNum false := by
  have expected : s.fixMsgExpected m = true := by rw [fixMsgExpected, same, BEq.rfl, Bool.true_or]
  rw [adminStep, expected]
  simp only [Bool.not_true, Bool.false_eq_true, if_false]
  split
  · rw [adminHeartbeat]
    split
    · split <;> exact ⟨rfl, rfl⟩
    · exact ⟨rfl, rfl⟩
  · exact ⟨rfl, rfl⟩
  · rw [adminResendRequest]
    split
    · exact ⟨rfl, rfl⟩
    · split <;> exact ⟨rfl, rfl⟩
  · exact absurd ‹_› plain
  · exact ⟨rfl, rfl⟩

/-- **A step of the session**: what it does to the counter, and whether it comes to a Logout. -/
theorem admin_step_leaves (s : Session F) (m : FixMessage F) :
    Leaves (s.adminStep m) (m.counterAfter s.inMsgSeqNum) (m.endsSession s.inMsgSeqNum) := by
  by_cases reset : m.type = .sequenceReset
  · have expected : s.fixMsgExpected m = true := by
      rw [fixMsgExpected, FixMessage.fixMessageTypeIs, reset, decide_eq_true rfl, Bool.or_true]
    have step : s.adminStep m = s.adminSequenceReset m := by
      rw [adminStep, expected, reset]
      rfl
    rw [step]
    exact sequence_reset_leaves s m reset
  · have numbered : m.numbered = true := by
      rw [FixMessage.numbered, decide_eq_true reset, Bool.true_or]
    rw [FixMessage.counterAfter, if_neg reset, FixMessage.endsSession, numbered, Bool.true_and]
    by_cases same : m.msgSeqNum = s.inMsgSeqNum
    · have low : ¬m.msgSeqNum < s.inMsgSeqNum := by rw [same]; exact BitVec.lt_irrefl _
      rw [if_pos same, decide_eq_false low, Bool.false_and]
      exact expected_leaves s m reset same
    · have unexpected : s.fixMsgExpected m = false := by
        rw [fixMsgExpected, FixMessage.fixMessageTypeIs, decide_eq_false reset, Bool.or_false, beq_eq_false_iff_ne]
        exact same
      rw [if_neg same, adminStep, unexpected]
      exact unexpected_leaves s m same

/-- Only a message with the number expected is left to the caller, and no SequenceReset. -/
theorem unhandled_expected {s : Session F} {m : FixMessage F} (h : (s.adminStep m).handled = false) :
    m.type ≠ .sequenceReset ∧ m.msgSeqNum = s.inMsgSeqNum := by
  by_cases reset : m.type = .sequenceReset
  · have expected : s.fixMsgExpected m = true := by
      rw [fixMsgExpected, FixMessage.fixMessageTypeIs, reset, decide_eq_true rfl, Bool.or_true]
    rw [adminStep, expected, reset] at h
    have handled : (s.adminSequenceReset m).handled = true := by
      rw [adminSequenceReset]
      split
      · rfl
      · split
        · rw [adminGapFill]
          split_ifs <;> rfl
        · rw [adminReset]
          split_ifs <;> rfl
    exact absurd (handled.symm.trans h) (by decide)
  · refine ⟨reset, ?_⟩
    by_contra other
    have unexpected : s.fixMsgExpected m = false := by
      rw [fixMsgExpected, FixMessage.fixMessageTypeIs, decide_eq_false reset, Bool.or_false, beq_eq_false_iff_ne]
      exact other
    rw [adminStep, unexpected] at h
    have handled : (s.fixDoUnexpected m).handled = true := by
      rw [fixDoUnexpected]
      split_ifs <;> rfl
    exact absurd (handled.symm.trans h) (by decide)

end Session

namespace FixMessage
variable {F : Type u}

theorem sub_one_ne (E : U64) : E ≠ E - 1 := by
  have one : (1 : U64).toNat = 1 := rfl
  have := E.isLt
  rw [ne_eq, ← BitVec.toNat_inj, BitVec.toNat_sub, one]
  omega

/-- A message leaves the next number expected what it was exactly where it is not taken for good. -/
theorem counter_stays (E : U64) (m : FixMessage F) : m.counterAfter E = E - 1 ↔ m.movesOn E = false := by
  have back {n : U64} (h : E < n) : n - 1 ≠ E - 1 := by
    rw [ne_eq, BitVec.sub_left_inj]
    exact fun same => BitVec.lt_irrefl E (same ▸ h)
  rw [counterAfter, movesOn, numbered]
  by_cases reset : m.type = .sequenceReset
  · rw [if_pos reset, decide_eq_false (not_not_intro reset), Bool.false_or]
    cases m.fixGetField Tag.newSeqNo with
    | none => exact ⟨fun h => absurd h (sub_one_ne E), fun h => by cases h⟩
    | some f =>
      simp only [counterAfterReset, Option.isSome_some, Bool.true_and]
      cases m.gapFill with
      | true =>
        simp only [if_true, decide_eq_false_iff_not]
        split_ifs with same on
        · exact ⟨fun h => absurd h (back on), fun h => absurd same h⟩
        · exact ⟨fun h => absurd h (sub_one_ne E), fun h => absurd same h⟩
        · exact ⟨fun _ => same, fun _ => rfl⟩
      | false =>
        simp only [Bool.false_eq_true, if_false, decide_eq_false_iff_not, BitVec.not_le]
        split_ifs with on low
        · exact ⟨fun h => absurd h (back on), fun h => absurd h (BitVec.lt_asymm on)⟩
        · exact ⟨fun _ => low, fun _ => rfl⟩
        · exact ⟨fun h => absurd h (sub_one_ne E), fun h => absurd h low⟩
  · rw [if_neg reset, decide_eq_true reset, Bool.true_or, if_pos rfl, decide_eq_false_iff_not]
    split_ifs with same
    · exact ⟨fun h => absurd h (sub_one_ne E), fun h => absurd same h⟩
    · exact ⟨fun _ => same, fun _ => rfl⟩

/-- No message received in the turns of the grace period, with `loops` Logouts under way, is taken for good
by a session that expects `E`. -/
def graceQuiet (E : U64) : Nat → List (Turn F) → Bool
  | 0, _ => true
  | _ + 1, [] => true
  | loops + 1, .elapsed :: turns => graceQuiet E loops turns
  | loops + 1, .nothing :: turns => graceQuiet E (loops + 1) turns
  | loops + 1, .message m :: turns =>
    !m.movesOn E && graceQuiet E (if m.endsSession E then loops + 2 else loops + 1) turns

end FixMessage

namespace Session
variable {F : Type u} [Doubles F]

/-- The numbers expected from a call on: of every message received before it returns, and after it. -/
def expectedFrom (r : AdminRun F) : List U64 := r.events.map (fun e => e.before + 1) ++ [r.session.inMsgSeqNum + 1]

omit [Doubles F] in
theorem expected_behind (sent : List (FixMessage F)) (events : List (Event F)) (r : AdminRun F) :
    expectedFrom (behind sent events r) = events.map (fun e => e.before + 1) ++ expectedFrom r := by
  rw [expectedFrom, expectedFrom, behind, List.map_append, List.append_assoc]

/-- The first of them is the one expected when the loop starts. -/
theorem expected_first (loops : Nat) (s : Session F) (turns : List (Turn F)) :
    s.inMsgSeqNum + 1 ∈ expectedFrom (logoutLoop loops s turns) := by
  induction turns generalizing loops s with
  | nil => cases loops <;> exact List.mem_singleton.2 rfl
  | cons turn turns ih =>
    cases loops with
    | zero => exact List.mem_singleton.2 rfl
    | succ loops =>
      cases turn with
      | elapsed => exact ih loops s
      | nothing => exact ih (loops + 1) s
      | message m =>
        rw [logoutLoop]
        simp only
        split <;> (rw [expected_behind]; exact List.mem_append_left _ (List.mem_singleton.2 rfl))

/-- **The grace period.** The number expected stays what it is through the turns of a Logout exactly where
none of the messages received in them is taken for good. -/
theorem grace_period {E : U64} (turns : List (Turn F)) (loops : Nat) (s : Session F) (at' : s.inMsgSeqNum = E - 1) :
    (∀ x ∈ expectedFrom (logoutLoop loops s turns), x = E) ↔ FixMessage.graceQuiet E loops turns = true := by
  have here : s.inMsgSeqNum + 1 = E := by rw [at', BitVec.sub_add_cancel]
  have still : (∀ x ∈ [s.inMsgSeqNum + 1], x = E) ↔ True := by
    rw [List.forall_mem_singleton, here]
    exact ⟨fun _ => trivial, fun _ => rfl⟩
  induction turns generalizing loops s with
  | nil =>
    cases loops with
    | zero => exact still.trans ⟨fun _ => rfl, fun _ => trivial⟩
    | succ loops => exact still.trans ⟨fun _ => rfl, fun _ => trivial⟩
  | cons turn turns ih =>
    cases loops with
    | zero => exact still.trans ⟨fun _ => rfl, fun _ => trivial⟩
    | succ loops =>
      cases turn with
      | elapsed => exact ih loops s at' here still
      | nothing => exact ih (loops + 1) s at' here still
      | message m =>
        have step := admin_step_leaves (s.received m) m
        rw [received_in, here] at step
        have run : ∃ l sent, l.inMsgSeqNum = m.counterAfter E ∧ logoutLoop (loops + 1) s (.message m :: turns) =
            behind sent [s.event m] (logoutLoop
              (if m.endsSession E then loops + 2 else if ((s.received m).adminStep m).handled then loops + 1 else loops)
              l turns) := by
          rw [logoutLoop, ← step.ends]
          cases (((s.received m).adminStep m).logout) with
          | some text => exact ⟨(((s.received m).adminStep m).session.sendLogout text).1, _, step.counter, rfl⟩
          | none => exact ⟨_, _, step.counter, rfl⟩
        obtain ⟨l, sent, counter, run⟩ := run
        rw [run, expected_behind, List.map_singleton, List.forall_mem_append, List.forall_mem_singleton,
          FixMessage.graceQuiet, Bool.and_eq_true, Bool.not_eq_true', ← FixMessage.counter_stays]
        have first : (s.event m).before + 1 = E := here
        rw [and_iff_right first]
        by_cases stays : m.counterAfter E = E - 1
        · have same : l.inMsgSeqNum = E - 1 := counter.trans stays
          have handled : ((s.received m).adminStep m).handled = true := by
            by_contra not
            obtain ⟨plain, expected⟩ := unhandled_expected (Bool.eq_false_iff.2 not)
            rw [received_in, here] at expected
            rw [FixMessage.counter_stays, FixMessage.movesOn, FixMessage.numbered, decide_eq_true plain, Bool.true_or,
              if_pos rfl, decide_eq_false_iff_not] at stays
            exact stays expected
          have next : l.inMsgSeqNum + 1 = E := by rw [same, BitVec.sub_add_cancel]
          rw [and_iff_right stays, handled, if_pos rfl]
          exact ih _ l same next (by
            rw [List.forall_mem_singleton, next]
            exact ⟨fun _ => trivial, fun _ => rfl⟩)
        · refine ⟨fun all => absurd ?_ stays, fun quiet => absurd quiet.1 stays⟩
          have := all _ (expected_first _ l turns)
          rw [← counter, ← this, BitVec.add_sub_cancel]

/-- The next number expected is the one announced: by a SequenceReset to `n`, received where the counter
says `E`, with a Reject or a ResendRequest where one is due. -/
structure Announced (s : Session F) (m : FixMessage F) (n : U64) (turns : List (Turn F)) : Prop where
  reset : m.gapFill = false → s.inMsgSeqNum ≤ n → ∀ x ∈ expectedFrom (s.fixSessionAdmin m turns), x = n
  resetLow : m.gapFill = false → n < s.inMsgSeqNum →
    (∀ x ∈ expectedFrom (s.fixSessionAdmin m turns), x = s.inMsgSeqNum) ∧
      ∃ j ∈ (s.fixSessionAdmin m turns).sent, j.type = .reject
  gapFill : m.gapFill = true → m.msgSeqNum = s.inMsgSeqNum → m.msgSeqNum < n →
    ∀ x ∈ expectedFrom (s.fixSessionAdmin m turns), x = n
  gapFillHigh : m.gapFill = true → s.inMsgSeqNum < m.msgSeqNum →
    (∀ x ∈ expectedFrom (s.fixSessionAdmin m turns), x = s.inMsgSeqNum) ∧
      ∃ j ∈ (s.fixSessionAdmin m turns).sent, j.type = .resendRequest ∧
        .ofInt Tag.beginSeqNo s.inMsgSeqNum ∈ j.fields
  gapFillLow : m.gapFill = true → m.msgSeqNum < s.inMsgSeqNum →
    ∀ x ∈ expectedFrom (s.fixSessionAdmin m turns), x = s.inMsgSeqNum

section
variable {s : Session F} {m : FixMessage F} {f : FixField F} {turns : List (Turn F)}

theorem admin_sequence_reset (reset : m.type = .sequenceReset) (new : m.fixGetField Tag.newSeqNo = some f) :
    s.adminStep m = if m.gapFill then s.adminGapFill m f.intValue else s.adminReset f.intValue := by
  have expected : s.fixMsgExpected m = true := by
    rw [fixMsgExpected, FixMessage.fixMessageTypeIs, reset, decide_eq_true rfl, Bool.or_true]
  rw [adminStep, expected, reset]
  simp only [Bool.not_true, Bool.false_eq_true, if_false, adminSequenceReset, new]

/-- A step that comes to no Logout is the whole call. -/
theorem admin_of_step {e : AdminStep F} (step : s.adminStep m = e) (none : e.logout = none) :
    s.fixSessionAdmin m turns = ⟨e.handled, e.session, e.sent, [], turns⟩ := by
  rw [fixSessionAdmin, step]
  simp only [none]

/-- Then the number expected next is the one after its counter. -/
theorem expected_of_step {e : AdminStep F} (step : s.adminStep m = e) (none : e.logout = none) {x : U64}
    (counter : e.session.inMsgSeqNum = x - 1) : ∀ y ∈ expectedFrom (s.fixSessionAdmin m turns), y = x := by
  rw [admin_of_step step none]
  intro y hy
  rw [List.mem_singleton.1 hy]
  simp only [counter, BitVec.sub_add_cancel]

/-- In reset mode. -/
theorem reset_announced (type : m.type = .sequenceReset) (new : m.fixGetField Tag.newSeqNo = some f)
    (mode : m.gapFill = false) : Announced s m f.intValue turns ↔ f.intValue ≠ s.inMsgSeqNum := by
  have step := admin_sequence_reset (s := s) type new
  rw [mode, if_neg Bool.false_ne_true, adminReset] at step
  have other {P : Prop} (h : m.gapFill = true) : P := by
    rw [mode] at h
    cases h
  rcases number_cases s.inMsgSeqNum f.intValue with ⟨on, low, ne⟩ | ⟨same, on, low⟩ | ⟨low, on, ne⟩
  · rw [if_pos on] at step
    refine ⟨fun _ => ne, fun _ => ⟨fun _ _ => expected_of_step step rfl rfl, fun _ h => absurd h low, other, other, other⟩⟩
  · rw [if_neg on, if_neg low] at step
    refine ⟨fun announced => ?_, fun ne => absurd same ne⟩
    have next := announced.reset mode (by rw [same]; exact BitVec.le_refl _) (s.inMsgSeqNum + 1)
      (by rw [admin_of_step step rfl]; exact List.mem_singleton.2 rfl)
    rw [same] at next
    have back := congrArg (· - 1) next
    simp only [BitVec.add_sub_cancel] at back
    exact absurd back (FixMessage.sub_one_ne _)
  · rw [if_neg on, if_pos low] at step
    refine ⟨fun _ => ne, fun _ => ⟨fun _ h => absurd low (BitVec.not_lt.2 h), fun _ _ => ⟨?_, ?_⟩, other, other, other⟩⟩
    · exact expected_of_step step rfl rfl
    · rw [admin_of_step step rfl]
      exact ⟨_, List.mem_singleton.2 rfl, rfl⟩

/-- In gap-fill mode. -/
theorem gap_fill_announced (type : m.type = .sequenceReset) (new : m.fixGetField Tag.newSeqNo = some f)
    (mode : m.gapFill = true) : Announced s m f.intValue turns ↔
      (m.msgSeqNum < s.inMsgSeqNum → m.possDup = false → FixMessage.graceQuiet s.inMsgSeqNum 1 turns = true) := by
  have step := admin_sequence_reset (s := s) type new
  rw [mode, if_pos rfl, adminGapFill] at step
  have other {P : Prop} (h : m.gapFill = false) : P := by
    rw [mode] at h
    cases h
  rcases number_cases s.inMsgSeqNum m.msgSeqNum with ⟨high, low, ne⟩ | ⟨same, high, low⟩ | ⟨low, high, ne⟩
  · rw [if_pos high] at step
    refine ⟨fun _ h => absurd h low, fun _ => ⟨other, other, fun _ h => absurd h ne, fun _ _ => ⟨?_, ?_⟩,
      fun _ h => absurd h low⟩⟩
    · exact expected_of_step step rfl rfl
    · rw [admin_of_step step rfl]
      exact ⟨_, List.mem_singleton.2 rfl, rfl, List.mem_cons_self⟩
  · rw [if_neg high, if_neg low] at step
    refine ⟨fun _ h => absurd h low, fun _ => ⟨other, other, fun _ _ on => ?_, fun _ h => absurd h high,
      fun _ h => absurd h low⟩⟩
    rw [if_pos on] at step
    exact expected_of_step step rfl rfl
  · rw [if_neg high, if_pos low] at step
    have announced : Announced s m f.intValue turns ↔ ∀ x ∈ expectedFrom (s.fixSessionAdmin m turns), x = s.inMsgSeqNum :=
      ⟨fun h => h.gapFillLow mode low, fun h => ⟨other, other, fun _ same => absurd same ne,
        fun _ h => absurd h high, fun _ _ => h⟩⟩
    rw [announced]
    cases dup : m.possDup with
    | true =>
      refine ⟨fun _ _ h => absurd h (by decide), fun _ => ?_⟩
      refine expected_of_step step ?_ rfl
      rw [tooLow, dup]
      rfl
    | false =>
      have ends : (s.tooLow m).logout = some (tooLowText s.inMsgSeqNum m.msgSeqNum) := by
        rw [tooLow, dup]
        rfl
      rw [fixSessionAdmin, step]
      simp only [ends]
      rw [expected_behind, List.map_nil, List.nil_append, grace_period turns 1 _ rfl]
      exact ⟨fun quiet _ _ => quiet, fun quiet => quiet low trivial⟩

end

/-- **Following a SequenceReset.** The number expected next is the one announced exactly where a SequenceReset
in reset mode does not announce the number that it is itself expected to have, and where no message that the
Logout after too low a gap fill still receives is taken for good. -/
theorem sequence_reset_announced (s : Session F) {m : FixMessage F} {f : FixField F} (turns : List (Turn F))
    (type : m.type = .sequenceReset) (new : m.fixGetField Tag.newSeqNo = some f) :
    Announced s m f.intValue turns ↔
      (m.gapFill = false → f.intValue ≠ s.inMsgSeqNum) ∧
        (m.gapFill = true → m.msgSeqNum < s.inMsgSeqNum → m.possDup = false →
          FixMessage.graceQuiet s.inMsgSeqNum 1 turns = true) := by
  cases mode : m.gapFill with
  | true =>
    rw [gap_fill_announced type new mode]
    exact ⟨fun h => ⟨fun e => (by cases e), fun _ => h⟩, fun h => h.2 rfl⟩
  | false =>
    rw [reset_announced type new mode]
    exact ⟨fun h => ⟨fun _ => h, fun e => by cases e⟩, fun h => h.1 rfl⟩

end Session

/-- A session that has counted a message and expects 5 of it. -/
def expectingFive : Session (List UInt8) :=
  { fixSessionNew ⟨chars "A", chars "B", ⟨.fix44, fixTagType⟩, 0, 1⟩ [] with inMsgSeqNum := 5 }

/-- A SequenceReset in reset mode. -/
def resetTo (n : U64) : FixMessage (List UInt8) := .init .sequenceReset [.ofInt Tag.newSeqNo n]

/-- To 7, where 5 was expected. -/
theorem reset_to_seven : Session.Announced expectingFive (resetTo 7) 7 [] :=
  (Session.sequence_reset_announced (m := resetTo 7) (f := .ofInt Tag.newSeqNo 7) expectingFive [] rfl rfl).2
    ⟨fun _ => by decide, fun fills => absurd fills (by decide)⟩

/-- A reset to the number expected is followed to the number after it. -/
theorem reset_to_expected : ¬Session.Announced expectingFive (resetTo 5) 5 [] := by
  intro announced
  have next := announced.reset rfl (by decide) 6 (by decide)
  exact absurd next (by decide)

end Libtrading.Fix
