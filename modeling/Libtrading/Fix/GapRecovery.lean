import Libtrading.Fix.InFlight

/-!
# Recovering what is missing

The number that a session will expect once it has taken all in flight to it stays below the next number of its peer,
once it is: a gap fill from FIX 4.2 on moves it by one, and one of the older versions takes it to 1000000. There the
two meet, if the peer was not past it and gets there as well.
-/

namespace Libtrading.Fix
open Wire Bytes
set_option autoImplicit false
universe u

namespace Link
variable {F : Type u} [Doubles F] {v : Version} {l : Link F}

/-! ## A run -/

/-- A step in which `b` answers a request for the number that `a` will expect, its own numbers not past 1000000. -/
def Filled (p : Link F × Act F) : Prop := p.1.Answers p.2 ∧ p.1.b.outMsgSeqNum ≤ 1000000

instance (p : Link F × Act F) : Decidable (Filled p) :=
  inferInstanceAs (Decidable (p.1.Answers p.2 ∧ p.1.b.outMsgSeqNum ≤ 1000000))

/-- What a run is to keep to: messages of their own that can be conveyed, and numbers below 2³¹. -/
structure Within (l : Link F) (acts : List (Act F)) : Prop where
  plain : ∀ x ∈ acts, x.plain = true
  conveys : ∀ p ∈ l.trace acts, p.1.Conveys p.2
  small : ∀ p ∈ l.trace acts, p.1.Small

variable {x : Act F} {xs : List (Act F)}

theorem Within.first (h : l.Within (x :: xs)) : x.plain = true ∧ l.Conveys x ∧ l.Small :=
  ⟨h.plain x List.mem_cons_self, h.conveys (l, x) List.mem_cons_self, h.small (l, x) List.mem_cons_self⟩

theorem Within.rest (h : l.Within (x :: xs)) : (l.step x).Within xs :=
  ⟨fun y hy => h.plain y (List.mem_cons_of_mem _ hy), fun p hp => h.conveys p (List.mem_cons_of_mem _ hp),
    fun p hp => h.small p (List.mem_cons_of_mem _ hp)⟩

/-- A step gives out at most one number. -/
theorem Moves.out {l' : Link F} (h : Moves v l x l') (small : l.b.outMsgSeqNum.toNat < 2 ^ 31) :
    l.b.outMsgSeqNum.toNat ≤ l'.b.outMsgSeqNum.toNat := by
  cases h with
  | stays other expect out => rw [out]
  | numbered other expect out =>
    rw [out, next_number small]
    omega
  | answers answers missing expect out => rw [out]

/-- A run gives out numbers and takes none back. -/
theorem run_out (inv : Inv v l) (h : l.Within xs) : l.b.outMsgSeqNum.toNat ≤ (l.run xs).b.outMsgSeqNum.toNat := by
  induction xs generalizing l with
  | nil => exact Nat.le_refl _
  | cons x xs ih =>
    obtain ⟨plain, conveys, both⟩ := h.first
    have small := both.b
    obtain ⟨inv', moves⟩ := step_moves inv both plain conveys
    exact (moves.out small).trans (ih inv' h.rest)

/-- Once `b` is not past the number that `a` will expect, the two meet there and stay together, by induction on the
steps. -/
theorem ahead_run (inv : Inv v l) (h : l.Within xs) (ahead : l.b.outMsgSeqNum.toNat ≤ l.willExpect.toNat) :
    (l.run xs).willExpect = (l.run xs).b.outMsgSeqNum ↔ l.willExpect.toNat ≤ (l.run xs).b.outMsgSeqNum.toNat := by
  induction xs generalizing l with
  | nil =>
    show l.willExpect = l.b.outMsgSeqNum ↔ l.willExpect.toNat ≤ l.b.outMsgSeqNum.toNat
    rw [← BitVec.toNat_inj]
    omega
  | cons x xs ih =>
    obtain ⟨plain, conveys, both⟩ := h.first
    have small := both.b
    obtain ⟨inv', moves⟩ := step_moves inv both plain conveys
    have past := run_out inv' h.rest
    show ((l.step x).run xs).willExpect = ((l.step x).run xs).b.outMsgSeqNum ↔
      l.willExpect.toNat ≤ ((l.step x).run xs).b.outMsgSeqNum.toNat
    cases moves with
    | stays other expect out =>
      rw [ih inv' h.rest (by rw [expect, out]; exact ahead), expect]
    | numbered other expect out =>
      rw [out, next_number small] at past
      by_cases met : l.b.outMsgSeqNum = l.willExpect
      · rw [if_pos met] at expect
        have next : (l.step x).willExpect.toNat = l.b.outMsgSeqNum.toNat + 1 := by rw [expect, ← met, next_number small]
        rw [ih inv' h.rest (by rw [next, out, next_number small]), next, ← met]
        omega
      · rw [if_neg met] at expect
        have apart : l.b.outMsgSeqNum.toNat ≠ l.willExpect.toNat := fun same => met (BitVec.toNat_inj.1 same)
        rw [ih inv' h.rest (by rw [expect, out, next_number small]; omega), expect]
    | answers answers missing expect out => omega

omit [Doubles F] in
theorem filled_cons {p : Link F × Act F} {ps : List (Link F × Act F)} {P : Link F × Act F → Prop} (not : ¬P p) :
    (∃ q ∈ p :: ps, P q) ↔ ∃ q ∈ ps, P q := by
  constructor
  · rintro ⟨q, hq, h⟩
    rcases List.mem_cons.1 hq with rfl | later
    · exact absurd h not
    · exact ⟨q, later, h⟩
  · rintro ⟨q, hq, h⟩
    exact ⟨q, List.mem_cons_of_mem _ hq, h⟩

/-- While the number that `a` will expect is below the next one of `b`, a gap fill alone gets it there, by induction on
the steps. -/
theorem gap_run (inv : Inv v l) (h : l.Within xs) (gap : l.willExpect.toNat < l.b.outMsgSeqNum.toNat) :
    (l.run xs).willExpect = (l.run xs).b.outMsgSeqNum ↔
      v.toNat ≤ Version.fix41.toNat ∧ (∃ p ∈ l.trace xs, Filled p) ∧ 1000000 ≤ (l.run xs).b.outMsgSeqNum := by
  induction xs generalizing l with
  | nil =>
    constructor
    · intro same
      exact absurd (congrArg BitVec.toNat same) (Nat.ne_of_lt gap)
    · rintro ⟨-, ⟨p, hp, -⟩, -⟩
      exact absurd hp List.not_mem_nil
  | cons x xs ih =>
    obtain ⟨plain, conveys, both⟩ := h.first
    have small := both.b
    obtain ⟨inv', moves⟩ := step_moves inv both plain conveys
    show ((l.step x).run xs).willExpect = ((l.step x).run xs).b.outMsgSeqNum ↔ _ ∧
      (∃ p ∈ (l, x) :: (l.step x).trace xs, Filled p) ∧ 1000000 ≤ ((l.step x).run xs).b.outMsgSeqNum
    cases moves with
    | stays other expect out =>
      have not : ¬Filled (l, x) := fun filled => other filled.1
      rw [filled_cons not]
      exact ih inv' h.rest (by rw [expect, out]; exact gap)
    | numbered other expect out =>
      have not : ¬Filled (l, x) := fun filled => other filled.1
      have apart : l.b.outMsgSeqNum ≠ l.willExpect := fun same => by rw [same] at gap; omega
      rw [if_neg apart] at expect
      rw [filled_cons not]
      exact ih inv' h.rest (by rw [expect, out, next_number small]; omega)
    | answers answers missing expect out =>
      have next := next_number (x := l.willExpect) (by omega)
      by_cases old : v.toNat ≤ Version.fix41.toNat
      · have new : Session.endSeqNo v + 1 = 1000000 := by
          rw [Session.endSeqNo, if_pos old]
          rfl
        have million : (1000000 : U64).toNat = 1000000 := rfl
        rw [new] at expect
        by_cases reaches : l.b.outMsgSeqNum ≤ 1000000
        · have filled : Filled (l, x) := ⟨answers, reaches⟩
          rw [BitVec.le_def, million] at reaches
          have low : l.willExpect < 1000000 := by
            rw [BitVec.lt_def, million]
            omega
          rw [if_pos low] at expect
          rw [ahead_run inv' h.rest (by rw [expect, out, million]; exact reaches), expect, million]
          rw [BitVec.le_def, million]
          exact ⟨fun past => ⟨old, ⟨_, List.mem_cons_self, filled⟩, past⟩, fun all => all.2.2⟩
        · have not : ¬Filled (l, x) := fun filled => reaches filled.2
          rw [BitVec.le_def, million] at reaches
          rw [filled_cons not]
          refine ih inv' h.rest ?_
          rw [expect, out]
          split_ifs
          · rw [million]
            omega
          · omega
      · have stop : Session.endSeqNo v + 1 = 1 := by
          rw [Session.endSeqNo, if_neg old]
          rfl
        have one : (1 : U64).toNat = 1 := rfl
        have behind : (l.step x).willExpect.toNat < (l.step x).b.outMsgSeqNum.toNat := by
          rw [expect, stop, out]
          split_ifs with low
          · omega
          · omega
        rw [ih inv' h.rest behind]
        exact ⟨fun all => absurd all.1 old, fun all => absurd all.1 old⟩

/-! ## In step -/

/-- Messages with numbers that are not above the one expected where they come, up to the next one of `b`. -/
def follows (out : U64) : U64 → List (FixMessage F) → Prop
  | x, [] => out.toNat ≤ x.toNat
  | x, m :: ms => m.type ≠ .sequenceReset ∧ m.msgSeqNum.toNat ≤ x.toNat ∧ m.msgSeqNum.toNat < 2 ^ 31 ∧
      follows out (if m.msgSeqNum = x then x + 1 else x) ms

/-- Nothing is missing: `a` has asked for nothing, and takes no number that is too high. -/
structure InStep (v : Version) (l : Link F) : Prop where
  wired : l.Wired v
  toA : follows l.b.outMsgSeqNum (l.a.inMsgSeqNum + 1) l.toA.sent
  toB : ∀ m ∈ l.toB.sent, m.type ≠ .resendRequest

omit [Doubles F] in
/-- One more numbered message at the end of a row. -/
theorem follows_append {out x : U64} (small : out.toNat < 2 ^ 31) {ms : List (FixMessage F)} (h : follows out x ms)
    {m : FixMessage F} (plain : m.type ≠ .sequenceReset) (number : m.msgSeqNum = out) :
    follows (out + 1) x (ms ++ [m]) := by
  induction ms generalizing x with
  | nil =>
    have most : out.toNat ≤ x.toNat := h
    refine ⟨plain, by rw [number]; exact most, by rw [number]; exact small, ?_⟩
    rw [number]
    show (out + 1).toNat ≤ (if out = x then x + 1 else x).toNat
    split_ifs with same
    · rw [same]
    · have apart : out.toNat ≠ x.toNat := fun equal => same (BitVec.toNat_inj.1 equal)
      rw [next_number small]
      omega
  | cons r rs ih =>
    obtain ⟨reset, most, low, rest⟩ := h
    exact ⟨reset, most, low, ih rest⟩

/-- No call returns a number that is too high. -/
theorem InStep.holds (h : InStep v l) : ¬l.Holds x := by
  rintro ⟨n, -, r, returned, high⟩
  have takes := Session.take_takes h.wired.a n
  generalize l.a.take l.toA n = taken at takes
  cases takes with
  | nothing none attends => exact none r returned
  | @message m r' ms b bytes first returned' heard attends =>
    rw [returned] at returned'
    cases returned'
    have toA := h.toA
    rw [first] at toA
    obtain ⟨-, most, -⟩ := toA
    rw [heard.msgSeqNum, BitVec.lt_def] at high
    omega

/-- A numbered message of `b` is the one that `a` will expect. -/
theorem in_step_numbered (h : InStep v l) (small : l.b.outMsgSeqNum.toNat < 2 ^ 31) {m : FixMessage F}
    (plain : m.type ≠ .sequenceReset) (number : m.msgSeqNum = l.b.outMsgSeqNum) {b : Session F}
    (out : b.outMsgSeqNum = l.b.outMsgSeqNum + 1) {toB : Way F} (rest : ∀ r ∈ toB.sent, r ∈ l.toB.sent)
    (wired : Wired v ⟨l.a, b, l.toA.posted [m], toB⟩) : InStep v ⟨l.a, b, l.toA.posted [m], toB⟩ where
  wired := wired
  toA := by
    simp only [out]
    exact follows_append small h.toA plain number
  toB r hr := h.toB r (rest r hr)

/-- `a` takes messages in order, and asks for none. -/
theorem in_step_take_a (h : InStep v l) (n : Nat) (wired : (l.step (.takeA n)).Wired v) :
    InStep v (l.step (.takeA n)) := by
  have takes := Session.take_takes h.wired.a n
  rw [step] at wired ⊢
  generalize l.a.take l.toA n = taken at takes wired ⊢
  cases takes with
  | nothing none attends =>
    refine ⟨wired, h.toA, ?_⟩
    rw [Way.posted_nil]
    exact h.toB
  | @message m r ms b bytes first returned heard attends =>
    have toA := h.toA
    rw [first] at toA
    obtain ⟨reset, most, low, rest⟩ := toA
    have plain : r.type ≠ .sequenceReset := by
      rw [heard.type]
      exact reset
    have next : ((l.a.parsedTo b .success).handle r).1.inMsgSeqNum + 1 =
        if m.msgSeqNum = l.a.inMsgSeqNum + 1 then l.a.inMsgSeqNum + 1 + 1 else l.a.inMsgSeqNum + 1 := by
      have after := FixMessage.numbered_after (x := l.a.inMsgSeqNum + 1) plain
      rw [FixMessage.expectedAfter, heard.msgSeqNum] at after
      rw [Session.handle_in]
      exact after
    have sends := Session.handle_sends (l.a.parsedTo b .success) r
    refine ⟨wired, by simp only [next]; exact rest, ?_⟩
    intro x hx
    rcases List.mem_append.1 hx with old | new
    · exact h.toB x old
    · generalize ((l.a.parsedTo b .success).handle r).2 = rs at sends new
      generalize ((l.a.parsedTo b .success).handle r).1.outMsgSeqNum = out at sends
      cases sends with
      | nothing => exact absurd new List.not_mem_nil
      | numbered _ request _ =>
        rw [List.mem_singleton.1 new]
        exact request
      | request high type _ _ _ =>
        have same : (l.a.parsedTo b .success).inMsgSeqNum = l.a.inMsgSeqNum := rfl
        rw [heard.msgSeqNum, same, BitVec.lt_def] at high
        omega
      | gapFill _ _ _ _ type _ _ =>
        rw [List.mem_singleton.1 new, type]
        exact fun same => by cases same

/-- `b` is asked for nothing, and what it sends it numbers. -/
theorem in_step_take_b (h : InStep v l) (small : l.b.outMsgSeqNum.toNat < 2 ^ 31) (n : Nat)
    (wired : (l.step (.takeB n)).Wired v) : InStep v (l.step (.takeB n)) := by
  have takes := Session.take_takes h.wired.b n
  rw [step] at wired ⊢
  generalize l.b.take l.toB n = taken at takes wired ⊢
  cases takes with
  | nothing none attends =>
    rw [Way.posted_nil] at wired ⊢
    exact ⟨wired, h.toA, h.toB⟩
  | @message m r ms b bytes first returned heard attends =>
    have plain : r.type ≠ .resendRequest := by
      rw [heard.type]
      exact h.toB m (by rw [first]; exact List.mem_cons_self)
    have rest : ∀ x ∈ ms, x ∈ l.toB.sent := fun x hx => by rw [first]; exact List.mem_cons_of_mem _ hx
    have sends := Session.handle_sends (l.b.parsedTo b .success) r
    generalize ((l.b.parsedTo b .success).handle r).1 = after at sends wired ⊢
    generalize ((l.b.parsedTo b .success).handle r).2 = rs at sends wired ⊢
    generalize next : after.outMsgSeqNum = out at sends
    cases sends with
    | nothing =>
      rw [Way.posted_nil] at wired ⊢
      refine ⟨wired, ?_, fun x hx => h.toB x (rest x hx)⟩
      simp only [next]
      exact h.toA
    | numbered reset _ number => exact in_step_numbered h small reset number next rest wired
    | request _ type number _ _ =>
      refine in_step_numbered h small ?_ number next rest wired
      rw [type]
      exact fun same => by cases same
    | gapFill request _ _ _ _ _ _ => exact absurd request plain

/-- **One step** of two sessions that are in step. -/
theorem in_step (h : InStep v l) (small : l.Small) (plain : x.plain = true) (conveys : l.Conveys x) :
    InStep v (l.step x) := by
  have wired := h.wired.step small plain conveys
  cases x with
  | takeA n => exact in_step_take_a h n wired
  | takeB n => exact in_step_take_b h small.b n wired
  | sendA m =>
    rw [Act.plain, Bool.and_eq_true] at plain
    refine ⟨wired, h.toA, ?_⟩
    intro r hr
    rcases List.mem_append.1 hr with old | new
    · exact h.toB r old
    · rw [List.mem_singleton.1 new]
      exact of_decide_eq_true plain.1
  | sendB m =>
    rw [Act.plain, Bool.and_eq_true] at plain
    have reset : m.type ≠ .sequenceReset := of_decide_eq_true plain.2
    exact in_step_numbered h small.b (m := (l.b.fixSessionSend m 0).2) (b := (l.b.fixSessionSend m 0).1) reset rfl
      rfl (fun r hr => hr) wired

/-- Sessions in step stay so, by induction on the steps. -/
theorem in_step_run (h : InStep v l) (within : l.Within xs) : ∀ p ∈ l.trace xs, ¬p.1.Holds p.2 := by
  induction xs generalizing l with
  | nil => exact fun p hp => absurd hp List.not_mem_nil
  | cons x xs ih =>
    obtain ⟨plain, conveys, small⟩ := within.first
    intro p hp
    rcases List.mem_cons.1 hp with rfl | later
    · exact h.holds
    · exact ih (in_step h small plain conveys) within.rest p later

/-! ## Recovery -/

theorem Joined.wired (h : Joined v l) : l.Wired v := by
  obtain ⟨headedA, receivesA, unreadA⟩ := h.a
  obtain ⟨headedB, receivesB, unreadB⟩ := h.b
  refine ⟨?_, ?_⟩
  · rw [h.toA]
    exact Session.attends_nothing headedA receivesA unreadA
  · rw [h.toB]
    exact Session.attends_nothing headedB receivesB unreadB

theorem Joined.inv (h : Joined v l) (small : l.b.outMsgSeqNum.toNat ≤ 2 ^ 31) : Inv v l where
  wired := h.wired
  small := small
  toA m hm := by
    rw [h.toA] at hm
    exact absurd hm List.not_mem_nil
  toB m hm := by
    rw [h.toB] at hm
    exact absurd hm List.not_mem_nil

/-- Where `a` comes to hold a message with too high a number, its numbers were behind from the start. -/
theorem Joined.behind (h : Joined v l) (within : l.Within xs) (held : ∃ p ∈ l.trace xs, p.1.Holds p.2) :
    l.willExpect.toNat < l.b.outMsgSeqNum.toNat := by
  have expects : l.willExpect = l.a.inMsgSeqNum + 1 := by
    rw [willExpect, h.toA]
    rfl
  by_contra ahead
  have step : InStep v l := by
    refine ⟨h.wired, ?_, ?_⟩
    · rw [h.toA]
      show l.b.outMsgSeqNum.toNat ≤ (l.a.inMsgSeqNum + 1).toNat
      rw [← expects]
      exact Nat.le_of_not_lt ahead
    · rw [h.toB]
      exact fun m hm => absurd hm List.not_mem_nil
  obtain ⟨p, hp, holds⟩ := held
  exact in_step_run step within p hp holds

/-- The bytes in flight stay those of the messages in flight, over a whole run. -/
theorem run_wired (wired : l.Wired v) (within : l.Within xs) : (l.run xs).Wired v := by
  induction xs generalizing l with
  | nil => exact wired
  | cons x xs ih =>
    obtain ⟨plain, conveys, small⟩ := within.first
    exact ih (wired.step small plain conveys) within.rest

/-- **Recovering what is missing.** Two sessions of a version are joined, and a call of one of them returns a message with
a number above the one it expects. Once it has received and parsed all bytes in flight to it, it expects the next number of
the other exactly where the version is an old one, the other has answered the request for what is missing when its own
numbers were not past 1000000, and its numbers have got there. -/
theorem recovers_iff {l : Link F} (joined : Joined v l) {acts : List (Act F)} (within : l.Within acts)
    (held : ∃ p ∈ l.trace acts, p.1.Holds p.2) (received : (l.run acts).toA.bytes = [])
    (parsed : (l.run acts).a.rxBuffer.unread = []) :
    (l.run acts).a.inMsgSeqNum + 1 = (l.run acts).b.outMsgSeqNum ↔
      v.toNat ≤ Version.fix41.toNat ∧ (∃ p ∈ l.trace acts, Filled p) ∧ 1000000 ≤ (l.run acts).b.outMsgSeqNum := by
  have small : l.b.outMsgSeqNum.toNat ≤ 2 ^ 31 := by
    obtain ⟨p, hp, -⟩ := held
    cases acts with
    | nil => exact absurd hp List.not_mem_nil
    | cons x xs => exact Nat.le_of_lt within.first.2.2.b
  have taken : (l.run acts).toA.sent = [] := (run_wired joined.wired within).a.over parsed received
  have expects : (l.run acts).willExpect = (l.run acts).a.inMsgSeqNum + 1 := by
    rw [willExpect, taken]
    rfl
  rw [← expects]
  exact gap_run (joined.inv small) within (joined.behind within held)

/-- Two new sessions of a version, the second of them about to send the number `out`, and the first one without the
number `missing`. -/
def joinedAt (v : Version) (missing out : U64) : Link (List UInt8) where
  a := fixSessionNew ⟨chars "A", chars "B", v.dialect, missing - 1, 1⟩ []
  b := fixSessionNew ⟨chars "B", chars "A", v.dialect, 0, out⟩ []
  toA := ⟨[], []⟩
  toB := ⟨[], []⟩

/-- A Heartbeat in two pieces, the request for what is missing before it, and the gap fill. -/
def recovery : List (Act (List UInt8)) :=
  [.sendB (.init .heartbeat []), .takeA 20, .takeA 1000, .takeB 1000, .takeA 1000, .takeB 1000]

/-- Such sessions join, whatever the numbers. -/
theorem joined_at {v : Version} (known : fixDialects v = some v.dialect) (missing out : U64) :
    Joined v (joinedAt v missing out) := by
  have a : Session.CompId (chars "A") := ⟨by decide, by decide⟩
  have b : Session.CompId (chars "B") := ⟨by decide, by decide⟩
  exact ⟨known, ⟨⟨rfl, rfl, a, b, List.not_mem_nil⟩, Session.new_receives _ _, rfl⟩,
    ⟨⟨rfl, rfl, b, a, List.not_mem_nil⟩, Session.new_receives _ _, rfl⟩, rfl, rfl⟩

/-- A session of FIX 4.1 that expects 2 and takes 999999 goes on with 1000000, and so does its peer. -/
theorem million_recovered :
    ((joinedAt .fix41 2 999999).run recovery).a.inMsgSeqNum + 1 =
      ((joinedAt .fix41 2 999999).run recovery).b.outMsgSeqNum := by
  have within : Within (joinedAt .fix41 2 999999) recovery := ⟨by decide, by decide +kernel, by decide +kernel⟩
  have held : ∃ p ∈ (joinedAt .fix41 2 999999).trace recovery, p.1.Holds p.2 := by decide +kernel
  refine (recovers_iff (joined_at rfl _ _) within held (by decide +kernel) (by decide +kernel)).2 ⟨by decide, ?_, ?_⟩
  · decide +kernel
  · decide +kernel

/-- A session of FIX 4.4 that expects 2 and takes 3 goes on with 3, where its peer goes on with 4. -/
theorem four_not_recovered :
    ∃ (l : Link (List UInt8)) (acts : List (Act (List UInt8))), Joined .fix44 l ∧ l.Within acts ∧
      (∃ p ∈ l.trace acts, p.1.Holds p.2) ∧ (l.run acts).toA.bytes = [] ∧ (l.run acts).a.rxBuffer.unread = [] ∧
      (l.run acts).toB.bytes = [] ∧ (l.run acts).b.rxBuffer.unread = [] ∧
      (l.run acts).a.inMsgSeqNum + 1 ≠ (l.run acts).b.outMsgSeqNum := by
  refine ⟨joinedAt .fix44 2 3, recovery, joined_at rfl _ _, ⟨by decide, by decide +kernel, by decide +kernel⟩, ?_,
    by decide +kernel, by decide +kernel, by decide +kernel, by decide +kernel, by decide +kernel⟩
  decide +kernel

end Link

end Libtrading.Fix
