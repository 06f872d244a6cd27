import Libtrading.Fix.SequenceReset

/-!
# Inbound numbers are consumed in order

A run receives one message after the other and hands each to
`fix_session_admin`; the messages that a Logout's grace period receives are
part of it. Between two messages nothing touches the counter, so the run is
the list of its events, and the counter is what the last one has left.
-/

namespace Libtrading.Fix
set_option autoImplicit false
universe u

namespace Event
variable {F : Type u}

/-- The number that was expected of the message. -/
def expected (e : Event F) : U64 := e.before + 1

/-- No gap opens: a number that the next one expected moves past is the message's own, or is skipped by the
NewSeqNo of a SequenceReset that is followed. -/
def NoGap (e : Event F) : Prop :=
  ∀ n : U64, e.expected ≤ n → n < e.after + 1 →
    e.message.msgSeqNum = n ∨
      e.message.type = .sequenceReset ∧
        ∃ f, e.message.fixGetField Tag.newSeqNo = some f ∧ n < f.intValue ∧ e.after + 1 = f.intValue

/-- A message that moves the counter as it should: below the last number of all, and, where it is a
SequenceReset without a NewSeqNo, or in reset mode to the number expected, with that number itself. -/
def Orderly (e : Event F) : Prop :=
  e.expected ≠ 0 ∧
    (e.message.type = .sequenceReset → e.message.msgSeqNum ≠ e.expected →
      ∃ f, e.message.fixGetField Tag.newSeqNo = some f ∧ (e.message.gapFill = false → f.intValue ≠ e.expected))

end Event

namespace Session
variable {F : Type u} [Doubles F]

/-- The events of a run: each message with the turns of the grace period that it may come to. -/
def adminEvents (s : Session F) : List (FixMessage F × List (Turn F)) → List (Event F)
  | [] => []
  | (m, turns) :: rest =>
    let r := (s.received m).fixSessionAdmin m turns
    s.event m :: r.events ++ r.session.adminEvents rest

/-- Events one after the other: each is that of a session with the counter the one before has left. -/
inductive Chain : U64 → List (Event F) → U64 → Prop
  | nil (x : U64) : Chain x [] x
  | cons {s : Session F} {m : FixMessage F} {es : List (Event F)} {y : U64} (rest : Chain (s.event m).after es y) :
      Chain s.inMsgSeqNum (s.event m :: es) y

theorem Chain.append {x y z : U64} {es es' : List (Event F)} (h : Chain x es y) (h' : Chain y es' z) :
    Chain x (es ++ es') z := by
  induction h with
  | nil => exact h'
  | cons _ ih => exact .cons (ih h')

/-- The events of the grace period follow the counter. -/
theorem logout_chain (loops : Nat) (s : Session F) (turns : List (Turn F)) :
    Chain s.inMsgSeqNum (logoutLoop loops s turns).events (logoutLoop loops s turns).session.inMsgSeqNum := by
  induction turns generalizing loops s with
  | nil => cases loops <;> exact .nil _
  | cons turn turns ih =>
    cases loops with
    | zero => exact .nil _
    | succ loops =>
      cases turn with
      | elapsed => exact ih loops s
      | nothing => exact ih (loops + 1) s
      | message m =>
        rw [logoutLoop]
        simp only
        split
        · rename_i text _
          exact .cons (ih (loops + 2) (((s.received m).adminStep m).session.sendLogout text).1)
        · exact .cons (ih _ ((s.received m).adminStep m).session)

/-- So do those of a call. -/
theorem admin_chain (s : Session F) (m : FixMessage F) (turns : List (Turn F)) :
    Chain (s.event m).after ((s.received m).fixSessionAdmin m turns).events
      ((s.received m).fixSessionAdmin m turns).session.inMsgSeqNum := by
  rw [fixSessionAdmin]
  simp only
  split
  · rename_i text _
    exact logout_chain 1 (((s.received m).adminStep m).session.sendLogout text).1 turns
  · exact .nil _

theorem run_chain (s : Session F) (inputs : List (FixMessage F × List (Turn F))) :
    ∃ y, Chain s.inMsgSeqNum (s.adminEvents inputs) y := by
  induction inputs generalizing s with
  | nil => exact ⟨_, .nil _⟩
  | cons input rest ih =>
    obtain ⟨m, turns⟩ := input
    obtain ⟨y, later⟩ := ih ((s.received m).fixSessionAdmin m turns).session
    exact ⟨y, .cons ((admin_chain s m turns).append later)⟩

/-- What an event leaves, by the expected number and the message. -/
theorem event_after (s : Session F) (m : FixMessage F) : (s.event m).after = m.counterAfter (s.inMsgSeqNum + 1) :=
  (admin_step_leaves (s.received m) m).counter

/-- An event the caller has to process has the number expected, and leaves the counter at it. -/
theorem event_unhandled {s : Session F} {m : FixMessage F} (h : (s.event m).handled = false) :
    m.msgSeqNum = s.inMsgSeqNum + 1 ∧ (s.event m).after = s.inMsgSeqNum + 1 := by
  obtain ⟨plain, same⟩ := unhandled_expected h
  rw [received_in] at same
  refine ⟨same, ?_⟩
  rw [event_after, FixMessage.counterAfter, if_neg plain, if_pos same]

omit [Doubles F] in
/-- A number is moved past by one. -/
theorem between {E n : U64} (le : E ≤ n) (lt : n < E + 1) : n = E := by
  have one : (1 : U64).toNat = 1 := rfl
  rw [BitVec.le_def] at le
  rw [BitVec.lt_def, BitVec.toNat_add, one] at lt
  rw [← BitVec.toNat_inj]
  have := Nat.mod_le (E.toNat + 1) (2 ^ 64)
  omega

/-- **One step**: an orderly message opens no gap. -/
theorem event_no_gap {s : Session F} {m : FixMessage F} (h : (s.event m).Orderly) : (s.event m).NoGap := by
  obtain ⟨-, announced⟩ := h
  intro n from' past
  have expected : (s.event m).expected = s.inMsgSeqNum + 1 := rfl
  have message : (s.event m).message = m := rfl
  rw [expected, message] at announced
  rw [expected] at from'
  rw [event_after] at past ⊢
  rw [message]
  generalize s.inMsgSeqNum + 1 = E at *
  -- the counter stays at the number expected, and it is the message's own
  have own (same : m.msgSeqNum = E) (after : m.counterAfter E = E) : m.msgSeqNum = n := by
    rw [after] at past
    rw [same, between from' past]
  have back {P : Prop} (after : m.counterAfter E = E - 1) : P := by
    rw [after, BitVec.sub_add_cancel] at past
    exact absurd past (BitVec.not_lt.2 from')
  by_cases reset : m.type = .sequenceReset
  · by_cases same : m.msgSeqNum = E
    · cases new : m.fixGetField Tag.newSeqNo with
      | none => exact .inl (own same (by rw [FixMessage.counterAfter, if_pos reset, new]))
      | some f =>
        by_cases on : E < f.intValue
        · have after : m.counterAfter E = f.intValue - 1 := by
            simp only [FixMessage.counterAfter, if_pos reset, new, FixMessage.counterAfterReset, if_pos same, if_pos on,
              ite_self]
          rw [after, BitVec.sub_add_cancel] at past ⊢
          exact .inr ⟨reset, f, rfl, past, rfl⟩
        · left
          by_cases low : m.gapFill = false ∧ f.intValue < E
          · refine back ?_
            simp only [FixMessage.counterAfter, if_pos reset, new, FixMessage.counterAfterReset, low.1, Bool.false_eq_true,
              if_false, if_neg on, if_pos low.2]
          · refine own same ?_
            simp only [FixMessage.counterAfter, if_pos reset, new, FixMessage.counterAfterReset, if_pos same, if_neg on]
            cases mode : m.gapFill with
            | true => rfl
            | false => exact if_neg fun h => low ⟨mode, h⟩
    · obtain ⟨f, new, ne⟩ := announced reset same
      cases mode : m.gapFill with
      | true =>
        refine back ?_
        simp only [FixMessage.counterAfter, if_pos reset, new, FixMessage.counterAfterReset, mode, if_true, if_neg same]
      | false =>
        by_cases on : E < f.intValue
        · have after : m.counterAfter E = f.intValue - 1 := by
            simp only [FixMessage.counterAfter, if_pos reset, new, FixMessage.counterAfterReset, mode, Bool.false_eq_true,
              if_false, if_pos on]
          rw [after, BitVec.sub_add_cancel] at past ⊢
          exact .inr ⟨reset, f, new, past, rfl⟩
        · have low : f.intValue < E := by
            rcases number_cases E f.intValue with ⟨high, -, -⟩ | ⟨equal, -, -⟩ | ⟨low, -, -⟩
            · exact absurd high on
            · exact absurd equal (ne mode)
            · exact low
          refine back ?_
          simp only [FixMessage.counterAfter, if_pos reset, new, FixMessage.counterAfterReset, mode, Bool.false_eq_true,
            if_false, if_neg on, if_pos low]
  · by_cases same : m.msgSeqNum = E
    · exact .inl (own same (by rw [FixMessage.counterAfter, if_neg reset, if_pos same]))
    · exact back (by rw [FixMessage.counterAfter, if_neg reset, if_neg same])

/-- **One step**: where the numbers have not run out, the counter does not go back. -/
theorem event_forward {s : Session F} {m : FixMessage F} (some : (s.event m).expected ≠ 0) :
    s.inMsgSeqNum ≤ (s.event m).after := by
  have expected : (s.event m).expected = s.inMsgSeqNum + 1 := rfl
  have one : (1 : U64).toNat = 1 := rfl
  rw [expected] at some
  have next : (s.inMsgSeqNum + 1).toNat = s.inMsgSeqNum.toNat + 1 := by
    have zero : (0 : U64).toNat = 0 := rfl
    rw [ne_eq, ← BitVec.toNat_inj, BitVec.toNat_add, one, zero] at some
    rw [BitVec.toNat_add, one]
    have := s.inMsgSeqNum.isLt
    omega
  rw [event_after]
  have keeps : s.inMsgSeqNum ≤ s.inMsgSeqNum + 1 - 1 := by
    rw [BitVec.add_sub_cancel]
    exact BitVec.le_refl _
  have counts : s.inMsgSeqNum ≤ s.inMsgSeqNum + 1 := by
    rw [BitVec.le_def]
    omega
  have jumps {n : U64} (on : s.inMsgSeqNum + 1 < n) : s.inMsgSeqNum ≤ n - 1 := by
    rw [BitVec.lt_def] at on
    rw [BitVec.le_def, BitVec.toNat_sub, one]
    have := n.isLt
    omega
  rw [FixMessage.counterAfter]
  split
  · split
    · exact counts
    · rw [FixMessage.counterAfterReset]
      split_ifs with _ _ on on low
      · exact jumps on
      · exact counts
      · exact keeps
      · exact jumps on
      · exact keeps
      · exact counts
  · split
    · exact counts
    · exact keeps

/-- What a chain leaves to the caller has numbers beyond the counter it starts from, each beyond those before. -/
theorem chain_increasing {x y : U64} {es : List (Event F)} (h : Chain x es y) (some : ∀ e ∈ es, e.expected ≠ 0) :
    (∀ e ∈ es.filter (fun e => !e.handled), x < e.message.msgSeqNum) ∧
      (es.filter fun e => !e.handled).Pairwise fun e e' => e.message.msgSeqNum < e'.message.msgSeqNum := by
  induction h with
  | nil => exact ⟨fun e he => absurd he List.not_mem_nil, .nil⟩
  | @cons s m es y rest ih =>
    obtain ⟨beyond, sorted⟩ := ih fun e he => some e (List.mem_cons_of_mem _ he)
    have here := some _ List.mem_cons_self
    have forward := event_forward here
    have further : ∀ e ∈ es.filter (fun e => !e.handled), s.inMsgSeqNum < e.message.msgSeqNum := by
      intro e he
      have later := beyond e he
      rw [BitVec.le_def] at forward
      rw [BitVec.lt_def] at later ⊢
      exact Nat.lt_of_le_of_lt forward later
    cases handled : (s.event m).handled with
    | true =>
      rw [List.filter_cons_of_neg (by rw [handled]; decide)]
      exact ⟨further, sorted⟩
    | false =>
      obtain ⟨same, after⟩ := event_unhandled handled
      rw [List.filter_cons_of_pos (by rw [handled]; rfl)]
      have message : (s.event m).message = m := rfl
      refine ⟨fun e he => ?_, List.pairwise_cons.2 ⟨fun e he => ?_, sorted⟩⟩
      · rcases List.mem_cons.1 he with rfl | later
        · have expected : (s.event m).expected = s.inMsgSeqNum + 1 := rfl
          have one : (1 : U64).toNat = 1 := rfl
          have zero : (0 : U64).toNat = 0 := rfl
          rw [expected, ne_eq, ← BitVec.toNat_inj, BitVec.toNat_add, one, zero] at here
          rw [message, same, BitVec.lt_def, BitVec.toNat_add, one]
          have := s.inMsgSeqNum.isLt
          omega
        · exact further e later
      · rw [message, same, ← after]
        exact beyond e he

theorem chain_no_gap {x y : U64} {es : List (Event F)} (h : Chain x es y) (orderly : ∀ e ∈ es, e.Orderly) :
    ∀ e ∈ es, e.NoGap := by
  induction h with
  | nil => exact fun e he => absurd he List.not_mem_nil
  | cons rest ih =>
    intro e he
    rcases List.mem_cons.1 he with rfl | later
    · exact event_no_gap (orderly _ List.mem_cons_self)
    · exact ih (fun e he => orderly e (List.mem_cons_of_mem _ he)) e later

/-- **Inbound numbers.** In every run whose messages are all orderly, no gap opens at any message, and those
that `fix_session_admin` leaves to the caller have strictly increasing numbers. -/
theorem numbers_in_order (s : Session F) (inputs : List (FixMessage F × List (Turn F)))
    (orderly : ∀ e ∈ s.adminEvents inputs, e.Orderly) :
    (∀ e ∈ s.adminEvents inputs, e.NoGap) ∧
      ((s.adminEvents inputs).filter fun e => !e.handled).Pairwise
        fun e e' => e.message.msgSeqNum < e'.message.msgSeqNum := by
  obtain ⟨y, chain⟩ := run_chain s inputs
  exact ⟨chain_no_gap chain orderly, (chain_increasing chain fun e he => (orderly e he).1).2⟩

end Session

/-- A new session that has consumed the numbers up to 4. -/
def consumedFour : Session (List UInt8) :=
  { fixSessionNew ⟨chars "A", chars "B", ⟨.fix44, fixTagType⟩, 0, 1⟩ [] with inMsgSeqNum := 4 }

/-- A message of a type the caller processes. -/
def orderNumber (n : U64) : FixMessage (List UInt8) := { FixMessage.init .newOrderSingle [] with msgSeqNum := n }

/-- The hypothesis is met by an order in front of a gap, and one behind it. -/
theorem orders_in_order :
    (∀ e ∈ consumedFour.adminEvents [(orderNumber 5, []), (orderNumber 7, [])], e.NoGap) ∧
      ((consumedFour.adminEvents [(orderNumber 5, []), (orderNumber 7, [])]).filter fun e => !e.handled).Pairwise
        fun e e' => e.message.msgSeqNum < e'.message.msgSeqNum := by
  refine Session.numbers_in_order consumedFour _ fun e he => ?_
  have plain : e.message.type = .newOrderSingle ∧ e.expected ≠ 0 := by
    rcases List.mem_cons.1 he with rfl | he
    · exact ⟨rfl, by decide⟩
    · rcases List.mem_cons.1 he with rfl | he
      · exact ⟨rfl, by decide⟩
      · exact absurd he List.not_mem_nil
  refine ⟨plain.2, fun reset => ?_⟩
  rw [plain.1] at reset
  cases reset

/-- A SequenceReset without a NewSeqNo, numbered 9 where 5 is expected, is counted: 5 is skipped. -/
theorem five_skipped :
    ¬∀ e ∈ consumedFour.adminEvents [({ FixMessage.init .sequenceReset [] with msgSeqNum := 9 }, [])], e.NoGap := by
  intro all
  rcases all _ List.mem_cons_self 5 (by decide) (by decide) with own | ⟨-, f, new, -⟩
  · exact absurd own (by decide)
  · cases new

end Libtrading.Fix
