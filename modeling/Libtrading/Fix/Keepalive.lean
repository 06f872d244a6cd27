import Libtrading.Fix.Handling

/-!
# `fix_session_keepalive`

A session that has heard nothing for 1.2 heartbeat intervals asks its peer with a TestRequest, and gives up half an
interval later if no Heartbeat has answered it; one that has sent nothing for an interval sends a Heartbeat. The times
are seconds of the monotonic clock, as the last `fix_session_time_update` left them in the session.
-/

namespace Libtrading.Fix
set_option autoImplicit false
universe u

/-- `struct fix_session` with its times, of which only the seconds are looked at, and the heartbeat interval. -/
structure Timed (F : Type u) where
  session : Session F
  heartbtint : Int
  now : Int
  rxTimestamp : Int
  txTimestamp : Int
  trTimestamp : Int

/-- The difference of two times, in an `int`. -/
def secondsSince (now then' : Int) : Int := (now - then').bmod (2 ^ 32)

/-- What a user of a session does with it: update its time, send a message, hand messages that were received to
`fix_session_admin`, and call `fix_session_keepalive` at a time. -/
inductive Timed.Act (F : Type u) where
  | update (now : Int) (text : List UInt8)
  | send (m : FixMessage F) (flags : U64)
  | receive (m : FixMessage F)
  | keepalive (now : Int)

namespace Session
variable {F : Type u} [Doubles F]

/-- A message answers the TestRequest: a Heartbeat with the number expected, whose TestReqID goes on from that of the
request. -/
def answeredBy (s : Session F) (m : FixMessage F) : Bool :=
  m.type = .heartbeat && m.msgSeqNum = s.inMsgSeqNum + 1 && (m.fixGetField Tag.testReqId).any fun f =>
    f.stringValue.take (cchars s.testreqid).length = cchars s.testreqid

end Session

namespace Timed
variable {F : Type u} [Doubles F]

/-- `fix_session_time_update`. -/
def fixSessionTimeUpdate (s : Timed F) (now : Int) (text : List UInt8) : Timed F :=
  { s with now := now, session := { s.session with strNow := text } }

/-- `fix_session_send`, which notes the time. -/
def fixSessionSend (s : Timed F) (m : FixMessage F) (flags : U64) : Timed F × FixMessage F :=
  let r := s.session.fixSessionSend m flags
  ({ s with session := r.1, txTimestamp := s.now }, r.2)

/-- `fix_session_heartbeat`. -/
def fixSessionHeartbeat (s : Timed F) (testReqId : Option (List UInt8)) : Timed F × FixMessage F :=
  let r := s.session.fixSessionHeartbeat testReqId
  ({ s with session := r.1, txTimestamp := s.now }, r.2)

/-- `fix_session_test_request`. -/
def fixSessionTestRequest (s : Timed F) : Timed F × FixMessage F :=
  let s := { s with
    session := { s.session with testreqid := strncpy s.session.strNow 64, trPending := true }
    trTimestamp := s.now }
  s.fixSessionSend (.init .testRequest [.ofString Tag.testReqId s.session.strNow]) 0

/-- The first half of `fix_session_keepalive`: a TestRequest is sent, or the one sent before is overdue. Of whole
numbers `1.2 * heartbtint` and `0.5 * heartbtint` are compared exactly. -/
def ask (s : Timed F) (now : Int) : Option (Timed F × List (FixMessage F)) :=
  if s.session.trPending = false then
    if 6 * s.heartbtint < 5 * secondsSince now s.rxTimestamp then
      let r := s.fixSessionTestRequest
      some (r.1, [r.2])
    else some (s, [])
  else if s.heartbtint < 2 * secondsSince now s.trTimestamp then none
  else some (s, [])

/-- `fix_session_keepalive`: what it returns, the session and what was sent. -/
def fixSessionKeepalive (s : Timed F) (now : Int) : Bool × Timed F × List (FixMessage F) :=
  match s.ask now with
  | none => (false, s, [])
  | some (s, sent) =>
    if s.heartbtint < secondsSince now s.txTimestamp then
      let r := s.fixSessionHeartbeat none
      (true, r.1, sent ++ [r.2])
    else (true, s, sent)

/-- A message that `fix_session_recv` returns, handed to `fix_session_admin`. -/
def handle (s : Timed F) (m : FixMessage F) : Timed F × List (FixMessage F) :=
  let r := s.session.handle m
  ({ s with session := r.1, rxTimestamp := s.now, txTimestamp := if r.2.isEmpty then s.txTimestamp else s.now }, r.2)

/-- One act. -/
def act (s : Timed F) : Act F → Timed F
  | .update now text => s.fixSessionTimeUpdate now text
  | .send m flags => (s.fixSessionSend m flags).1
  | .receive m => (s.handle m).1
  | .keepalive now => (s.fixSessionKeepalive now).2.1

/-- Acts one after the other. -/
def run (s : Timed F) (as : List (Act F)) : Timed F := as.foldl act s

/-- Whether every `fix_session_keepalive` returned true. -/
def kept (s : Timed F) : List (Act F) → Bool
  | [] => true
  | .keepalive now :: as => (s.fixSessionKeepalive now).1 && (s.act (.keepalive now)).kept as
  | a :: as => (s.act a).kept as

/-! ## What is outstanding -/

/-- A keepalive that sends a TestRequest. -/
def Asks (s : Timed F) (now : Int) : Prop :=
  s.session.trPending = false ∧ 6 * s.heartbtint < 5 * secondsSince now s.rxTimestamp

/-- No message answers the TestRequest. -/
def unanswered (s : Timed F) : List (Act F) → Bool
  | [] => true
  | .receive m :: as => !s.session.answeredBy m && (s.act (.receive m)).unanswered as
  | a :: as => (s.act a).unanswered as

end Timed

/-! ## What handling a message leaves -/

namespace Session
variable {F : Type u} [Doubles F] {s : Session F} {m : FixMessage F}

omit [Doubles F] in
/-- A message with another number answers nothing. -/
theorem not_answered (other : m.msgSeqNum ≠ s.inMsgSeqNum + 1 ∨ m.type ≠ .heartbeat) : s.answeredBy m = false := by
  rw [answeredBy]
  rcases other with number | type
  · rw [decide_eq_false number, Bool.and_false, Bool.false_and]
  · rw [decide_eq_false type, Bool.false_and, Bool.false_and]

/-- A step that leaves the TestRequest as it is. -/
structure LeavesRequest (s : Session F) (e : AdminStep F) : Prop where
  pending : e.session.trPending = s.trPending
  testreqid : e.session.testreqid = s.testreqid

theorem unexpected_request : LeavesRequest s (s.fixDoUnexpected m) := by
  rw [fixDoUnexpected]
  split_ifs
  · exact ⟨rfl, rfl⟩
  · exact ⟨rfl, rfl⟩
  · exact ⟨rfl, rfl⟩

theorem sequence_reset_request : LeavesRequest s (s.adminSequenceReset m) := by
  rw [adminSequenceReset]
  split
  · exact ⟨rfl, rfl⟩
  · split
    · rw [adminGapFill]
      split_ifs <;> exact ⟨rfl, rfl⟩
    · rw [adminReset]
      split_ifs <;> exact ⟨rfl, rfl⟩

theorem resend_request_request : LeavesRequest s (s.adminResendRequest m) := by
  rw [adminResendRequest]
  split
  · exact ⟨rfl, rfl⟩
  · split <;> exact ⟨rfl, rfl⟩

/-- **A step** takes back the TestRequest that its message answers. -/
theorem admin_request (s : Session F) (m : FixMessage F) :
    ((s.received m).adminStep m).session.testreqid = s.testreqid ∧
      ((s.received m).adminStep m).session.trPending = (s.trPending && !s.answeredBy m) := by
  have leaves {e : AdminStep F} (h : LeavesRequest (s.received m) e) (not : s.answeredBy m = false) :
      e.session.testreqid = s.testreqid ∧ e.session.trPending = (s.trPending && !s.answeredBy m) := by
    rw [not, Bool.not_false, Bool.and_true]
    exact ⟨h.testreqid, h.pending⟩
  rw [adminStep]
  split_ifs with unexpected
  · rw [fixMsgExpected, received_in, Bool.not_eq_true', Bool.or_eq_false_iff, beq_eq_false_iff_ne] at unexpected
    exact leaves unexpected_request (not_answered (.inl unexpected.1))
  · cases type : m.type with
    | heartbeat =>
      have number : m.msgSeqNum = s.inMsgSeqNum + 1 := by
        rw [fixMsgExpected, received_in, FixMessage.fixMessageTypeIs, type, Bool.not_eq_true', Bool.not_eq_false,
          Bool.or_eq_true] at unexpected
        exact beq_iff_eq.1 (unexpected.resolve_right (by decide))
      have answered : s.answeredBy m = (m.fixGetField Tag.testReqId).any fun f =>
          f.stringValue.take (cchars s.testreqid).length = cchars s.testreqid := by
        rw [answeredBy, decide_eq_true type, decide_eq_true number, Bool.true_and, Bool.true_and]
      rw [answered]
      simp only [adminHeartbeat]
      cases m.fixGetField Tag.testReqId with
      | none => exact ⟨rfl, (Bool.and_true _).symm⟩
      | some f =>
        simp only [Option.any_some]
        have same : (s.received m).testreqid = s.testreqid := rfl
        rw [same]
        by_cases goesOn : f.stringValue.take (cchars s.testreqid).length = cchars s.testreqid
        · rw [if_pos goesOn, decide_eq_true goesOn, Bool.not_true, Bool.and_false]
          exact ⟨rfl, rfl⟩
        · rw [if_neg goesOn, decide_eq_false goesOn, Bool.not_false, Bool.and_true]
          exact ⟨rfl, rfl⟩
    | testRequest => exact leaves ⟨rfl, rfl⟩ (not_answered (.inr (by rw [type]; decide)))
    | resendRequest => exact leaves resend_request_request (not_answered (.inr (by rw [type]; decide)))
    | sequenceReset => exact leaves sequence_reset_request (not_answered (.inr (by rw [type]; decide)))
    | _ => exact leaves ⟨rfl, rfl⟩ (not_answered (.inr (by rw [type]; decide)))

theorem handle_request (s : Session F) (m : FixMessage F) :
    (s.handle m).1.testreqid = s.testreqid ∧ (s.handle m).1.trPending = (s.trPending && !s.answeredBy m) := by
  have step := admin_request s m
  rw [handle, respond]
  cases ((s.received m).adminStep m).logout <;> exact step

end Session

namespace Timed
variable {F : Type u} [Doubles F] {s : Timed F}

/-! ## One call -/

/-- The first half of a keepalive that does not give up. -/
inductive Asking (s : Timed F) (t : Int) : Timed F → List (FixMessage F) → Prop
  | asks (asks : s.Asks t) : Asking s t s.fixSessionTestRequest.1 [s.fixSessionTestRequest.2]
  | waits (none : ¬s.Asks t)
      (early : s.session.trPending = true → ¬s.heartbtint < 2 * secondsSince t s.trTimestamp) : Asking s t s []

/-- What a keepalive does: it gives up, sends a Heartbeat, or none. -/
inductive Keeping (s : Timed F) (t : Int) : Bool × Timed F × List (FixMessage F) → Prop
  | overdue (pending : s.session.trPending = true) (late : s.heartbtint < 2 * secondsSince t s.trTimestamp) :
    Keeping s t (false, s, [])
  | beats {s' : Timed F} {sent : List (FixMessage F)} (asking : Asking s t s' sent)
      (silent : s'.heartbtint < secondsSince t s'.txTimestamp) :
    Keeping s t (true, (s'.fixSessionHeartbeat none).1, sent ++ [(s'.fixSessionHeartbeat none).2])
  | rests {s' : Timed F} {sent : List (FixMessage F)} (asking : Asking s t s' sent)
      (spoke : ¬s'.heartbtint < secondsSince t s'.txTimestamp) : Keeping s t (true, s', sent)

theorem keepalive_keeping (s : Timed F) (t : Int) : Keeping s t (s.fixSessionKeepalive t) := by
  have second {s' : Timed F} {sent : List (FixMessage F)} (asked : s.ask t = some (s', sent)) (asking : Asking s t s' sent) :
      Keeping s t (s.fixSessionKeepalive t) := by
    rw [fixSessionKeepalive, asked]
    simp only
    split
    · rename_i silent
      exact .beats asking silent
    · rename_i spoke
      exact .rests asking spoke
  by_cases pending : s.session.trPending = false
  · by_cases quiet : 6 * s.heartbtint < 5 * secondsSince t s.rxTimestamp
    · refine second ?_ (.asks ⟨pending, quiet⟩)
      rw [ask, if_pos pending, if_pos quiet]
    · refine second ?_ (.waits (fun asks => quiet asks.2) fun is => absurd (is.symm.trans pending) (by decide))
      rw [ask, if_pos pending, if_neg quiet]
  · by_cases late : s.heartbtint < 2 * secondsSince t s.trTimestamp
    · have gives : s.fixSessionKeepalive t = (false, s, []) := by
        rw [fixSessionKeepalive, ask, if_neg pending, if_pos late]
      rw [gives]
      exact .overdue (Bool.eq_true_of_not_eq_false pending) late
    · refine second ?_ (.waits (fun asks => pending asks.1) fun _ => late)
      rw [ask, if_neg pending, if_neg late]

/-- A keepalive gives up on a TestRequest that is overdue, and only then. -/
theorem keepalive_false_iff (s : Timed F) (t : Int) :
    (s.fixSessionKeepalive t).1 = false ↔
      s.session.trPending = true ∧ s.heartbtint < 2 * secondsSince t s.trTimestamp := by
  have keeping := keepalive_keeping s t
  generalize s.fixSessionKeepalive t = r at keeping
  have true' {s' : Timed F} {sent : List (FixMessage F)} (asking : Asking s t s' sent) :
      ¬(s.session.trPending = true ∧ s.heartbtint < 2 * secondsSince t s.trTimestamp) := by
    rintro ⟨pending, late⟩
    cases asking with
    | asks asks => exact absurd (pending.symm.trans asks.1) (by decide)
    | waits none early => exact early pending late
  cases keeping with
  | overdue pending late => exact ⟨fun _ => ⟨pending, late⟩, fun _ => rfl⟩
  | beats asking silent => exact ⟨fun no => (nomatch no), fun late => absurd late (true' asking)⟩
  | rests asking spoke => exact ⟨fun no => (nomatch no), fun late => absurd late (true' asking)⟩

/-- What an act leaves of the TestRequest: one that is sent, or the one there was unless it is answered. -/
theorem act_pending (s : Timed F) (a : Act F) (x : Int) :
    ((s.act a).session.trPending = true ∧ (s.act a).trTimestamp = x) ↔
      (s.session.trPending = true ∧ s.trTimestamp = x ∧ s.unanswered [a] = true) ∨
        ∃ t, a = .keepalive t ∧ s.Asks t ∧ s.now = x := by
  have same {p q : Prop} (h : p ↔ q) (none : ∀ t, a ≠ .keepalive t ∨ ¬s.Asks t) :
      p ↔ q ∨ ∃ t, a = .keepalive t ∧ s.Asks t ∧ s.now = x := by
    refine h.trans ⟨.inl, fun either => either.resolve_right ?_⟩
    rintro ⟨t, is, asks, -⟩
    exact (none t).elim (fun other => other is) fun not => not asks
  cases a with
  | update now text =>
    refine same ?_ fun t => .inl nofun
    exact ⟨fun h => ⟨h.1, h.2, rfl⟩, fun h => ⟨h.1, h.2.1⟩⟩
  | send m flags =>
    refine same ?_ fun t => .inl nofun
    exact ⟨fun h => ⟨h.1, h.2, rfl⟩, fun h => ⟨h.1, h.2.1⟩⟩
  | receive m =>
    refine same ?_ fun t => .inl nofun
    have pending : (s.act (.receive m)).session.trPending = (s.session.trPending && !s.session.answeredBy m) :=
      (Session.handle_request s.session m).2
    have time : (s.act (.receive m)).trTimestamp = s.trTimestamp := rfl
    rw [pending, time, unanswered, unanswered, Bool.and_true, Bool.and_eq_true]
    exact ⟨fun h => ⟨h.1.1, h.2, h.1.2⟩, fun h => ⟨⟨h.1, h.2.2⟩, h.2.1⟩⟩
  | keepalive t =>
    have keeping := keepalive_keeping s t
    rw [act]
    generalize s.fixSessionKeepalive t = r at keeping
    have stays (not : ¬s.Asks t) : (s.session.trPending = true ∧ s.trTimestamp = x) ↔
        (s.session.trPending = true ∧ s.trTimestamp = x ∧ s.unanswered [.keepalive t] = true) ∨
          ∃ t', Act.keepalive (F := F) t = .keepalive t' ∧ s.Asks t' ∧ s.now = x := by
      refine same ⟨fun h => ⟨h.1, h.2, rfl⟩, fun h => ⟨h.1, h.2.1⟩⟩ fun t' => ?_
      by_cases other : t' = t
      · exact .inr (other ▸ not)
      · exact .inl fun is => other (Act.keepalive.inj is).symm
    have begins (asks : s.Asks t) : (true = true ∧ s.now = x) ↔
        (s.session.trPending = true ∧ s.trTimestamp = x ∧ s.unanswered [.keepalive t] = true) ∨
          ∃ t', Act.keepalive (F := F) t = .keepalive t' ∧ s.Asks t' ∧ s.now = x := by
      refine ⟨fun h => .inr ⟨t, rfl, asks, h.2⟩, ?_⟩
      rintro (⟨pending, -⟩ | ⟨t', -, -, now⟩)
      · exact absurd (pending.symm.trans asks.1) (by decide)
      · exact ⟨rfl, now⟩
    cases keeping with
    | overdue pending late => exact stays fun asks => absurd (pending.symm.trans asks.1) (by decide)
    | beats asking silent =>
      cases asking with
      | asks asks => exact begins asks
      | waits none early => exact stays none
    | rests asking spoke =>
      cases asking with
      | asks asks => exact begins asks
      | waits none early => exact stays none

/-! ## Runs -/

theorem unanswered_cons (s : Timed F) (a : Act F) (as : List (Act F)) :
    s.unanswered (a :: as) = (s.unanswered [a] && (s.act a).unanswered as) := by
  cases a <;> simp only [unanswered, Bool.true_and, Bool.and_true]

/-- **What is outstanding behind a run**: the TestRequest there was, if nothing answered it, or the last one that was
sent, by induction on the acts. -/
theorem run_pending (s : Timed F) (as : List (Act F)) (x : Int) :
    ((s.run as).session.trPending = true ∧ (s.run as).trTimestamp = x) ↔
      (s.session.trPending = true ∧ s.trTimestamp = x ∧ s.unanswered as = true) ∨
        ∃ before t after, as = before ++ .keepalive t :: after ∧ (s.run before).Asks t ∧ (s.run before).now = x ∧
          ((s.run before).act (.keepalive t)).unanswered after = true := by
  induction as generalizing s with
  | nil =>
    refine ⟨fun h => .inl ⟨h.1, h.2, rfl⟩, ?_⟩
    rintro (⟨pending, time, -⟩ | ⟨before, t, after, no, -⟩)
    · exact ⟨pending, time⟩
    · exact absurd no.symm (List.append_ne_nil_of_right_ne_nil _ (List.cons_ne_nil _ _))
  | cons a as ih =>
    have first := act_pending s a x
    rw [unanswered_cons, Bool.and_eq_true]
    refine (ih (s.act a)).trans ⟨?_, ?_⟩
    · rintro (⟨pending, time, rest⟩ | ⟨before, t, after, same, asks, now, rest⟩)
      · rcases first.1 ⟨pending, time⟩ with ⟨pending', time', un⟩ | ⟨t, rfl, asks, now⟩
        · exact .inl ⟨pending', time', un, rest⟩
        · exact .inr ⟨[], t, as, rfl, asks, now, rest⟩
      · exact .inr ⟨a :: before, t, after, by rw [same, List.cons_append], asks, now, rest⟩
    · rintro (⟨pending, time, un, rest⟩ | ⟨before, t, after, same, asks, now, rest⟩)
      · obtain ⟨pending', time'⟩ := first.2 (.inl ⟨pending, time, un⟩)
        exact .inl ⟨pending', time', rest⟩
      · cases before with
        | nil =>
          obtain ⟨rfl, rfl⟩ := List.cons.inj same
          obtain ⟨pending', time'⟩ := first.2 (.inr ⟨t, rfl, asks, now⟩)
          exact .inl ⟨pending', time', rest⟩
        | cons b before =>
          obtain ⟨rfl, later⟩ := List.cons.inj same
          exact .inr ⟨before, t, after, later, asks, now, rest⟩

theorem act_heartbtint (s : Timed F) (a : Act F) : (s.act a).heartbtint = s.heartbtint := by
  cases a with
  | update now text => rfl
  | send m flags => rfl
  | receive m => rfl
  | keepalive t =>
    have keeping := keepalive_keeping s t
    rw [act]
    generalize s.fixSessionKeepalive t = r at keeping
    cases keeping with
    | overdue pending late => rfl
    | beats asking silent => cases asking <;> rfl
    | rests asking spoke => cases asking <;> rfl

theorem run_heartbtint (s : Timed F) (as : List (Act F)) : (s.run as).heartbtint = s.heartbtint := by
  induction as generalizing s with
  | nil => rfl
  | cons a as ih => exact (ih (s.act a)).trans (act_heartbtint s a)

/-- **Who is given up on.** A keepalive returns false if and only if the session had sent a TestRequest, having heard
nothing for 1.2 intervals, more than half an interval before, and no Heartbeat has answered it since. -/
theorem gives_up_iff {s : Timed F} (idle : s.session.trPending = false) (as : List (Act F)) (t : Int) :
    ((s.run as).fixSessionKeepalive t).1 = false ↔
      ∃ before t' after, as = before ++ .keepalive t' :: after ∧ (s.run before).Asks t' ∧
        s.heartbtint < 2 * secondsSince t (s.run before).now ∧
        ((s.run before).act (.keepalive t')).unanswered after = true := by
  have outstanding (x : Int) := (run_pending s as x).trans
    (or_iff_right fun was => absurd (was.1.symm.trans idle) (by decide))
  rw [keepalive_false_iff, run_heartbtint]
  constructor
  · rintro ⟨pending, late⟩
    obtain ⟨before, t', after, same, asks, now, rest⟩ := (outstanding _).1 ⟨pending, rfl⟩
    exact ⟨before, t', after, same, asks, now ▸ late, rest⟩
  · rintro ⟨before, t', after, same, asks, late, rest⟩
    obtain ⟨pending, time⟩ := (outstanding _).2 ⟨before, t', after, same, asks, rfl, rest⟩
    exact ⟨pending, time ▸ late⟩

/-! ## Calls that come in time -/

/-- The keepalives of a run come at most `p` seconds apart, the first of them behind `last`, with a time of the session
that is at most `e` seconds old; and the time goes on. -/
def InTime (p e : Int) : Int → Timed F → List (Act F) → Prop
  | _, _, [] => True
  | last, s, .keepalive t :: as =>
    last ≤ t ∧ t ≤ last + p ∧ s.now ≤ t ∧ t ≤ s.now + e ∧ InTime p e t (s.act (.keepalive t)) as
  | last, s, .update now text :: as => s.now ≤ now ∧ InTime p e last (s.act (.update now text)) as
  | last, s, a :: as => InTime p e last (s.act a) as

/-- The time of the last keepalive. -/
def lastCall : Int → List (Act F) → Int
  | last, [] => last
  | _, .keepalive t :: as => lastCall t as
  | last, _ :: as => lastCall last as

/-- The run hands no message to the session. -/
def Silence (as : List (Act F)) : Prop := ∀ m, Act.receive m ∉ as

/-- Times that are less than 2³¹ seconds apart. -/
theorem seconds_since {now then' : Int} (order : then' ≤ now) (near : now - then' < 2 ^ 31) :
    secondsSince now then' = now - then' := by
  rw [secondsSince, Int.bmod_eq_of_le] <;> omega

theorem last_call_after {p e : Int} {as : List (Act F)} {last : Int} {s : Timed F} (inTime : InTime p e last s as) :
    last ≤ lastCall last as := by
  induction as generalizing last s with
  | nil => exact Int.le_refl _
  | cons a as ih =>
    cases a with
    | update now text => exact ih inTime.2
    | send m flags => exact ih inTime
    | receive m => exact ih inTime
    | keepalive t => exact inTime.1.trans (ih inTime.2.2.2.2)

/-! ## A peer that is silent -/

/-- What holds of a session that has heard nothing since `rx`, behind a keepalive at `last`: either 1.2 intervals are not
over, or it sent a TestRequest in time, not before `earliest`, and half an interval since is not over. -/
structure Waits (p earliest rx last : Int) (s : Timed F) : Prop where
  heard : s.rxTimestamp = rx
  now : rx ≤ s.now
  behind : rx ≤ last
  quiet : s.session.trPending = false → 5 * (last - rx) ≤ 6 * s.heartbtint
  asked : s.session.trPending = true → earliest ≤ s.trTimestamp ∧ s.trTimestamp ≤ last ∧
    5 * (s.trTimestamp - rx) ≤ 6 * s.heartbtint + 5 * p ∧
    (5 * (last - rx) ≤ 6 * s.heartbtint + 5 * p ∨ 2 * (last - s.trTimestamp) ≤ s.heartbtint)

theorem Waits.asking {p earliest rx last t : Int} (h : s.Waits p earliest rx last) (first : earliest ≤ rx) (order : last ≤ t)
    (soon : t ≤ last + p) (now : s.now ≤ t) (near : t - earliest < 2 ^ 31) {s' : Timed F} {sent : List (FixMessage F)}
    (asking : Asking s t s' sent) : s'.Waits p earliest rx t := by
  have behind := h.behind
  have since : secondsSince t s.rxTimestamp = t - rx := by
    rw [h.heard]
    exact seconds_since (by omega) (by omega)
  cases asking with
  | asks asks =>
    have quiet := h.quiet asks.1
    have heard := h.now
    refine ⟨h.heard, h.now, by omega, fun no => (nomatch no), fun _ => ?_⟩
    change earliest ≤ s.now ∧ s.now ≤ t ∧ 5 * (s.now - rx) ≤ 6 * s.heartbtint + 5 * p ∧
      (5 * (t - rx) ≤ 6 * s.heartbtint + 5 * p ∨ 2 * (t - s.now) ≤ s.heartbtint)
    omega
  | waits none early =>
    refine ⟨h.heard, h.now, by omega, fun idle => ?_, fun pending => ?_⟩
    · have quiet : ¬6 * s.heartbtint < 5 * secondsSince t s.rxTimestamp := fun quiet => none ⟨idle, quiet⟩
      rw [since] at quiet
      omega
    · obtain ⟨lower, upper, sent, -⟩ := h.asked pending
      have late := early pending
      rw [seconds_since (by omega) (by omega)] at late
      exact ⟨lower, by omega, sent, .inr (by omega)⟩

theorem Waits.keepalive {p earliest rx last t : Int} (h : s.Waits p earliest rx last) (first : earliest ≤ rx) (order : last ≤ t)
    (soon : t ≤ last + p) (now : s.now ≤ t) (near : t - earliest < 2 ^ 31) (kept : (s.fixSessionKeepalive t).1 = true) :
    (s.act (.keepalive t)).Waits p earliest rx t := by
  have keeping := keepalive_keeping s t
  rw [act]
  generalize s.fixSessionKeepalive t = r at keeping kept
  cases keeping with
  | overdue pending late => cases kept
  | beats asking silent =>
    have waits := h.asking first order soon now near asking
    exact ⟨waits.heard, waits.now, waits.behind, waits.quiet, waits.asked⟩
  | rests asking spoke => exact h.asking first order soon now near asking

/-- **A silent peer is given up on**: if it is heard no more, and the keepalives come at most `p` seconds apart, they
return true for 1.7 heartbeat intervals and `p` seconds at the most, also where a TestRequest is outstanding from the
start. -/
theorem silent_peer_given_up {p e last : Int} {s : Timed F} {as : List (Act F)} (interval : 0 ≤ s.heartbtint) (period : 0 ≤ p)
    (asked : s.session.trPending = true → s.trTimestamp ≤ last ∧ lastCall last as - s.trTimestamp < 2 ^ 31)
    (now : s.rxTimestamp ≤ s.now) (behind : s.rxTimestamp ≤ last) (heard : 5 * (last - s.rxTimestamp) ≤ 6 * s.heartbtint)
    (silence : Silence as) (inTime : InTime p e last s as) (near : lastCall last as - s.rxTimestamp < 2 ^ 31)
    (kept : s.kept as = true) : 10 * (lastCall last as - s.rxTimestamp) ≤ 17 * s.heartbtint + 10 * p := by
  obtain ⟨earliest, first, close, start⟩ : ∃ earliest, earliest ≤ s.rxTimestamp ∧ lastCall last as - earliest < 2 ^ 31 ∧
      s.Waits p earliest s.rxTimestamp last := by
    cases pending : s.session.trPending with
    | false => exact ⟨_, Int.le_refl _, near, rfl, now, behind, fun _ => heard, fun is =>
        absurd (is.symm.trans pending) (by decide)⟩
    | true =>
      obtain ⟨past, close⟩ := asked pending
      refine ⟨min s.trTimestamp s.rxTimestamp, by omega, by omega, rfl, now, behind, fun _ => heard, fun _ => ?_⟩
      exact ⟨by omega, past, by omega, .inl (by omega)⟩
  clear asked now behind heard near
  generalize s.rxTimestamp = rx at first start ⊢
  induction as generalizing s last with
  | nil =>
    change 10 * (last - rx) ≤ 17 * s.heartbtint + 10 * p
    cases pending : s.session.trPending with
    | false =>
      have quiet := start.quiet pending
      omega
    | true =>
      obtain ⟨lower, upper, sent, since⟩ := start.asked pending
      omega
  | cons a as ih =>
    have later : Silence as := fun m mem => silence m (List.mem_cons_of_mem _ mem)
    have same := act_heartbtint s a
    rw [← same] at interval ⊢
    cases a with
    | update now text =>
      exact ih interval later inTime.2 kept close
        ⟨start.heard, start.now.trans inTime.1, start.behind, start.quiet, start.asked⟩
    | send m flags =>
      exact ih interval later inTime kept close ⟨start.heard, start.now, start.behind, start.quiet, start.asked⟩
    | receive m => exact absurd List.mem_cons_self (silence m)
    | keepalive t =>
      obtain ⟨order, soon, now, -, rest⟩ := inTime
      rw [Timed.kept, Bool.and_eq_true] at kept
      have after := last_call_after rest
      have near : t - earliest < 2 ^ 31 := by
        change lastCall t as - earliest < 2 ^ 31 at close
        omega
      exact ih interval later rest kept.2 close (start.keepalive first order soon now near kept.1)

/-! ## A session that is not silent -/

/-- What holds of a session that keeps its peer informed, behind a keepalive at `last`. -/
structure Speaks (e last : Int) (s : Timed F) : Prop where
  past : s.txTimestamp ≤ s.now
  recent : last - s.txTimestamp ≤ max s.heartbtint e

theorem Speaks.keepalive {p e last t : Int} (h : s.Speaks e last) (soon : t ≤ last + p)
    (now : s.now ≤ t) (fresh : t ≤ s.now + e) (near : max s.heartbtint e + p < 2 ^ 31)
    (kept : (s.fixSessionKeepalive t).1 = true) : (s.act (.keepalive t)).Speaks e t := by
  obtain ⟨past, recent⟩ := h
  have keeping := keepalive_keeping s t
  rw [act]
  generalize s.fixSessionKeepalive t = r at keeping kept
  have asked {s' : Timed F} {sent : List (FixMessage F)} (asking : Asking s t s' sent) :
      s'.now = s.now ∧ s'.heartbtint = s.heartbtint ∧ s.txTimestamp ≤ s'.txTimestamp ∧ s'.txTimestamp ≤ s.now := by
    cases asking with
    | asks asks => exact ⟨rfl, rfl, past, Int.le_refl _⟩
    | waits none early => exact ⟨rfl, rfl, Int.le_refl _, past⟩
  cases keeping with
  | overdue pending late => cases kept
  | @beats s' sent asking silent =>
    obtain ⟨same, interval, -, -⟩ := asked asking
    have stamp : (s'.fixSessionHeartbeat none).1.txTimestamp = s.now := same
    have interval' : (s'.fixSessionHeartbeat none).1.heartbtint = s.heartbtint := interval
    refine ⟨Int.le_refl _, ?_⟩
    rw [stamp, interval']
    omega
  | @rests s' sent asking spoke =>
    obtain ⟨same, interval, later, upper⟩ := asked asking
    rw [interval, seconds_since (by omega) (by omega)] at spoke
    refine ⟨by rw [same]; exact upper, ?_⟩
    change t - s'.txTimestamp ≤ max s'.heartbtint e
    rw [interval]
    omega

/-- **A session is not silent**: behind keepalives that come at most `p` seconds apart, with times at most `e` seconds
old, it sent its last message at most a heartbeat interval, or `e` seconds, before the last of them. -/
theorem never_silent {p e last : Int} {s : Timed F} {as : List (Act F)} (past : s.txTimestamp ≤ s.now)
    (recent : last - s.txTimestamp ≤ max s.heartbtint e) (inTime : InTime p e last s as)
    (near : max s.heartbtint e + p < 2 ^ 31) (kept : s.kept as = true) :
    lastCall last as - (s.run as).txTimestamp ≤ max s.heartbtint e := by
  induction as generalizing s last with
  | nil => exact recent
  | cons a as ih =>
    have same := act_heartbtint s a
    rw [← same] at near recent ⊢
    cases a with
    | update now text => exact ih (past.trans inTime.1) recent inTime.2 near kept
    | send m flags =>
      have after := recent
      refine ih (Int.le_refl _) ?_ inTime near kept
      change last - s.now ≤ _
      omega
    | receive m =>
      have later : s.txTimestamp ≤ (s.act (.receive m)).txTimestamp ∧ (s.act (.receive m)).txTimestamp ≤ s.now := by
        rw [act, handle]
        simp only
        split
        · exact ⟨Int.le_refl _, past⟩
        · exact ⟨past, Int.le_refl _⟩
      exact ih later.2 (by omega) inTime near kept
    | keepalive t =>
      obtain ⟨-, soon, now, fresh, rest⟩ := inTime
      rw [Timed.kept, Bool.and_eq_true] at kept
      rw [same] at near recent
      have speaks : s.Speaks e last := ⟨past, recent⟩
      have next := speaks.keepalive soon now fresh near kept.1
      rw [← same] at near
      exact ih next.past next.recent rest near kept.2

end Timed

/-! ## An interval of ten seconds -/

/-- A new session with a heartbeat interval of ten seconds. -/
def tenSeconds : Timed (List UInt8) :=
  ⟨fixSessionNew ⟨chars "A", chars "B", ⟨.fix44, fixTagType⟩, 0, 1⟩ [], 10, 0, 0, 0, 0⟩

/-- Keepalives at some times, each behind an update. -/
def polls (times : List Int) : List (Timed.Act (List UInt8)) :=
  times.flatMap fun t => [.update t (cstr (chars "now")), .keepalive t]

/-- Thirteen seconds of silence, and six more. -/
theorem unanswered_given_up : ((tenSeconds.run (polls [13])).fixSessionKeepalive 19).1 = false := by
  refine (Timed.gives_up_iff rfl _ _).2 ⟨[.update 13 (cstr (chars "now"))], 13, [], rfl, ⟨rfl, by decide⟩, by decide, rfl⟩

theorem polls_in_time : Timed.InTime 6 0 0 tenSeconds (polls [6, 12, 18]) := by
  repeat' apply And.intro
  all_goals trivial

/-- Silence, but for what the session sends. -/
theorem ten_seconds_bound : 10 * (Timed.lastCall (F := List UInt8) 0 (polls [6, 12, 18]) - 0) ≤ 17 * 10 + 10 * 6 :=
  Timed.silent_peer_given_up (s := tenSeconds) (by decide) (by decide) (by decide) (by decide) (by decide)
    (by decide) (fun m mem => by simp [polls] at mem) polls_in_time (by decide) (by decide +kernel)

theorem ten_seconds_heard : Timed.lastCall 0 (polls [6, 12, 18]) - (tenSeconds.run (polls [6, 12, 18])).txTimestamp ≤ 10 :=
  Timed.never_silent (s := tenSeconds) (by decide) (by decide) polls_in_time (by decide) (by decide +kernel)

end Libtrading.Fix
