import Libtrading.Fix.Link

/-!
# What is in flight

A session that takes a message with too high a number asks for what is missing, up to EndSeqNo 999999 in the older
versions and 0 in the others; and its peer answers with a gap fill to the number behind EndSeqNo, whichever it is. So
of all that is in flight to a session, the numbers and the gap fills say which number it will expect once it has taken
it; and a step moves this number and the next one of its peer in one of three ways.
-/

namespace Libtrading.Fix
open Wire Bytes
set_option autoImplicit false
universe u

theorem next_number {x : U64} (small : x.toNat < 2 ^ 31) : (x + 1).toNat = x.toNat + 1 := by
  have one : (1 : U64).toNat = 1 := rfl
  rw [BitVec.toNat_add, one]
  omega

namespace FixMessage
variable {F : Type u} [Doubles F] {v : Version} {m r : FixMessage F}

/-- The number expected behind a message that comes where `x` is. -/
def expectedAfter (x : U64) (m : FixMessage F) : U64 := m.counterAfter x + 1

omit [Doubles F] in
/-- A receiver that expects a numbered message counts it, and one that does not goes on expecting. -/
theorem numbered_after {x : U64} (plain : m.type ≠ .sequenceReset) :
    m.expectedAfter x = if m.msgSeqNum = x then x + 1 else x := by
  rw [expectedAfter, counterAfter, if_neg plain]
  split_ifs
  · rfl
  · rw [BitVec.sub_add_cancel]

omit [Doubles F] in
/-- A gap fill to the number of `f`. -/
theorem gap_fill_after {x : U64} {f : FixField F} (type : m.type = .sequenceReset)
    (there : m.fixGetField Tag.newSeqNo = some f) (fill : m.gapFill = true) :
    m.expectedAfter x = if m.msgSeqNum = x then if x < f.intValue then f.intValue else x + 1 else x := by
  rw [expectedAfter, counterAfter, if_pos type, there]
  simp only [counterAfterReset, if_pos fill]
  split_ifs
  · rw [BitVec.sub_add_cancel]
  · rfl
  · rw [BitVec.sub_add_cancel]

omit [Doubles F] in
/-- A gap fill in turn takes the receiver to its NewSeqNo, or one number on. -/
theorem fill_after {new x : U64} (h : m.FillsTo new) :
    m.expectedAfter x = if m.msgSeqNum = x then if x < new then new else x + 1 else x := by
  have there : m.fixGetField Tag.newSeqNo = some (.ofInt Tag.newSeqNo new) := by
    rw [fixGetField, h.fields]
    rfl
  have fill : m.gapFill = true := by
    rw [gapFill, fixGetField, h.fields]
    rfl
  exact gap_fill_after h.type there fill

/-- A message moves the number expected as it was sent. -/
theorem Heard.after (h : m.Heard v.dialect r) (known : m.type ≠ .sequenceReset ∨ ∃ new, m.FillsTo new) (x : U64) :
    r.expectedAfter x = m.expectedAfter x := by
  rcases known with plain | ⟨new, fills⟩
  · have plain' : r.type ≠ .sequenceReset := by
      rw [h.type]
      exact plain
    rw [numbered_after plain, numbered_after plain', h.msgSeqNum]
  · obtain ⟨⟨f, there, value⟩, fill⟩ := h.fill fills
    rw [fill_after fills, gap_fill_after (h.type.trans fills.type) there fill, h.msgSeqNum, value]

end FixMessage

namespace Link
variable {F : Type u} [Doubles F] {v : Version} {l : Link F}

/-- The number that `a` will expect once it has taken all that is in flight. -/
def willExpect (l : Link F) : U64 := l.toA.sent.foldl (fun x m => m.expectedAfter x) (l.a.inMsgSeqNum + 1)

/-- `b` takes a request for that number. -/
structure Asked (l : Link F) (m : FixMessage F) : Prop where
  request : m.type = .resendRequest
  expected : m.msgSeqNum = l.b.inMsgSeqNum + 1
  begins : ∃ f, m.fixGetField Tag.beginSeqNo = some f ∧ f.intValue = l.willExpect
  ends : ∃ g, m.fixGetField Tag.endSeqNo = some g

/-- A step in which `b` answers such a request, which `fix_session_recv` has returned. -/
def Answers (l : Link F) (x : Act F) : Prop :=
  ∃ n, x = .takeB n ∧ ∃ m, (l.b.hear l.toB.bytes n).1 = .message m ∧ l.Asked m

/-- A step in which `fix_session_recv` returns to `a` a message whose number is above the one it expects. -/
def Holds (l : Link F) (x : Act F) : Prop :=
  ∃ n, x = .takeA n ∧ ∃ m, (l.a.hear l.toA.bytes n).1 = .message m ∧ l.a.inMsgSeqNum + 1 < m.msgSeqNum

instance (l : Link F) (m : FixMessage F) : Decidable (l.Asked m) :=
  decidable_of_iff (m.type = .resendRequest ∧ m.msgSeqNum = l.b.inMsgSeqNum + 1 ∧
      (m.fixGetField Tag.beginSeqNo).any (fun f => f.intValue = l.willExpect) = true ∧
      (m.fixGetField Tag.endSeqNo).isSome = true)
    ⟨fun h => ⟨h.1, h.2.1, by simpa [Option.any_eq_true] using h.2.2.1, Option.isSome_iff_exists.1 h.2.2.2⟩,
      fun h => ⟨h.request, h.expected, by simpa [Option.any_eq_true] using h.begins, Option.isSome_iff_exists.2 h.ends⟩⟩

/-- Whether the step is a call of `fix_session_recv` by which a session gets a message that passes a test. -/
def gets (l : Link F) (p : FixMessage F → Bool) (toB : Bool) : Act F → Bool
  | .takeA n => !toB && (l.a.hear l.toA.bytes n).1.any p
  | .takeB n => toB && (l.b.hear l.toB.bytes n).1.any p
  | .sendA _ | .sendB _ => false

theorem answers_gets (l : Link F) (x : Act F) : l.gets (fun m => l.Asked m) true x = true ↔ l.Answers x := by
  cases x with
  | takeB n =>
    rw [gets, Bool.true_and, Session.Ret.any_iff]
    constructor
    · rintro ⟨m, returned, asked⟩
      exact ⟨n, rfl, m, returned, of_decide_eq_true asked⟩
    · rintro ⟨k, same, m, returned, asked⟩
      cases same
      exact ⟨m, returned, decide_eq_true asked⟩
  | takeA | sendA | sendB =>
    refine ⟨fun no => (by cases no), ?_⟩
    rintro ⟨k, no, -⟩
    cases no

theorem holds_gets (l : Link F) (x : Act F) :
    l.gets (fun m => l.a.inMsgSeqNum + 1 < m.msgSeqNum) false x = true ↔ l.Holds x := by
  cases x with
  | takeA n =>
    rw [gets, Bool.not_false, Bool.true_and, Session.Ret.any_iff]
    constructor
    · rintro ⟨m, returned, high⟩
      exact ⟨n, rfl, m, returned, of_decide_eq_true high⟩
    · rintro ⟨k, same, m, returned, high⟩
      cases same
      exact ⟨m, returned, decide_eq_true high⟩
  | takeB | sendA | sendB =>
    refine ⟨fun no => (by cases no), ?_⟩
    rintro ⟨k, no, -⟩
    cases no

instance (l : Link F) (x : Act F) : Decidable (l.Answers x) := decidable_of_iff _ (answers_gets l x)

instance (l : Link F) (x : Act F) : Decidable (l.Holds x) := decidable_of_iff _ (holds_gets l x)

/-- Two sessions of a version, with headers that can be conveyed, and nothing in flight yet. -/
structure Joined (v : Version) (l : Link F) : Prop where
  version : fixDialects v = some v.dialect
  a : l.a.Headed v ∧ l.a.Receives ∧ l.a.rxBuffer.unread = []
  b : l.b.Headed v ∧ l.b.Receives ∧ l.b.rxBuffer.unread = []
  toA : l.toA = ⟨[], []⟩
  toB : l.toB = ⟨[], []⟩

/-! ## What is in flight -/

/-- What is in flight to `a`: numbers that `b` is past, and gap fills from numbers that `a` has asked for. -/
inductive Comes (v : Version) (x out : U64) (m : FixMessage F) : Prop where
  | numbered (plain : m.type ≠ .sequenceReset) (past : m.msgSeqNum.toNat < out.toNat)
  | gapFill (fills : m.FillsTo (Session.endSeqNo v + 1)) (asked : m.msgSeqNum.toNat ≤ x.toNat)
      (past : m.msgSeqNum.toNat + 1 < out.toNat)

/-- What is in flight to `b`: no request but those for numbers that `a` did not have, below one that `b` had sent. -/
def Goes (v : Version) (x out : U64) (m : FixMessage F) : Prop :=
  m.type = .resendRequest → ∃ first, m.Requests first (Session.endSeqNo v) ∧ first.toNat ≤ x.toNat ∧
    first.toNat + 1 < out.toNat

/-- What holds of the two all the time, while the numbers of `b` are below 2³¹. -/
structure Inv (v : Version) (l : Link F) : Prop where
  wired : l.Wired v
  small : l.b.outMsgSeqNum.toNat ≤ 2 ^ 31
  toA : ∀ m ∈ l.toA.sent, Comes v (l.a.inMsgSeqNum + 1) l.b.outMsgSeqNum m
  toB : ∀ m ∈ l.toB.sent, Goes v (l.a.inMsgSeqNum + 1) l.b.outMsgSeqNum m

omit [Doubles F] in
/-- What was sent to `a` stays so while the numbers grow. -/
theorem Comes.mono {x x' out out' : U64} {m : FixMessage F} (h : Comes v x out m) (on : x.toNat ≤ x'.toNat)
    (past : out.toNat ≤ out'.toNat) : Comes v x' out' m := by
  cases h with
  | numbered plain less => exact .numbered plain (by omega)
  | gapFill fills asked less => exact .gapFill fills (by omega) (by omega)

omit [Doubles F] in
/-- And what was sent to `b`. -/
theorem Goes.mono {x x' out out' : U64} {m : FixMessage F} (h : Goes v x out m) (on : x.toNat ≤ x'.toNat)
    (past : out.toNat ≤ out'.toNat) : Goes v x' out' m := by
  intro request
  obtain ⟨first, requests, asked, less⟩ := h request
  exact ⟨first, requests, by omega, by omega⟩

omit [Doubles F] in
theorem Comes.known {x out : U64} {m : FixMessage F} (h : Comes v x out m) :
    m.type ≠ .sequenceReset ∨ ∃ new, m.FillsTo new := by
  cases h with
  | numbered plain less => exact .inl plain
  | gapFill fills asked less => exact .inr ⟨_, fills⟩

omit [Doubles F] in
/-- The number expected does not go back. -/
theorem Comes.on {x out : U64} {m : FixMessage F} (h : Comes v x out m) (small : out.toNat ≤ 2 ^ 31) :
    x.toNat ≤ (m.expectedAfter x).toNat := by
  cases h with
  | numbered plain less =>
    rw [FixMessage.numbered_after plain]
    split_ifs with same
    · rw [next_number (by rw [← same]; omega)]
      omega
    · omega
  | gapFill fills asked less =>
    rw [FixMessage.fill_after fills]
    split_ifs with same on
    · exact Nat.le_of_lt on
    · rw [next_number (by rw [← same]; omega)]
      omega
    · omega

/-! ## A step -/

/-- What a step does to the number that `a` will expect and to the next one of `b`. -/
inductive Moves (v : Version) (l : Link F) (x : Act F) (l' : Link F) : Prop where
  | stays (other : ¬l.Answers x) (expect : l'.willExpect = l.willExpect)
      (out : l'.b.outMsgSeqNum = l.b.outMsgSeqNum)
  | numbered (other : ¬l.Answers x)
      (expect : l'.willExpect = if l.b.outMsgSeqNum = l.willExpect then l.willExpect + 1 else l.willExpect)
      (out : l'.b.outMsgSeqNum = l.b.outMsgSeqNum + 1)
  | answers (answers : l.Answers x) (missing : l.willExpect.toNat + 1 < l.b.outMsgSeqNum.toNat)
      (expect : l'.willExpect =
        if l.willExpect < Session.endSeqNo v + 1 then Session.endSeqNo v + 1 else l.willExpect + 1)
      (out : l'.b.outMsgSeqNum = l.b.outMsgSeqNum)

omit [Doubles F] in
/-- What `a` will expect behind one more message. -/
theorem will_expect_append (a b : Session F) (toA toB : Way F) (bytes : List UInt8) (m : FixMessage F) :
    willExpect ⟨a, b, ⟨bytes, toA.sent ++ [m]⟩, toB⟩ = m.expectedAfter (willExpect ⟨a, b, toA, toB⟩) := by
  rw [willExpect, willExpect, List.foldl_append]
  rfl

/-- A numbered message of `b` is behind all that is in flight. -/
theorem sends_numbered (inv : Inv v l) (small : l.b.outMsgSeqNum.toNat < 2 ^ 31) {x : Act F} (other : ¬l.Answers x)
    {m : FixMessage F} (plain : m.type ≠ .sequenceReset) (number : m.msgSeqNum = l.b.outMsgSeqNum) {b : Session F}
    (out : b.outMsgSeqNum = l.b.outMsgSeqNum + 1) {toB : Way F} (rest : ∀ r ∈ toB.sent, r ∈ l.toB.sent)
    (wired : Wired v ⟨l.a, b, l.toA.posted [m], toB⟩) :
    Inv v ⟨l.a, b, l.toA.posted [m], toB⟩ ∧ Moves v l x ⟨l.a, b, l.toA.posted [m], toB⟩ := by
  have next : b.outMsgSeqNum.toNat = l.b.outMsgSeqNum.toNat + 1 := by rw [out, next_number small]
  have most : b.outMsgSeqNum.toNat ≤ 2 ^ 31 := by omega
  have past : l.b.outMsgSeqNum.toNat ≤ b.outMsgSeqNum.toNat := by omega
  have less : m.msgSeqNum.toNat < b.outMsgSeqNum.toNat := by
    rw [number]
    omega
  refine ⟨⟨wired, most, ?_, ?_⟩, .numbered other ?_ out⟩
  · intro r hr
    rcases List.mem_append.1 hr with old | new
    · exact (inv.toA r old).mono (Nat.le_refl _) past
    · rw [List.mem_singleton.1 new]
      exact .numbered plain less
  · intro r hr
    exact (inv.toB r (rest r hr)).mono (Nat.le_refl _) past
  · have behind := will_expect_append l.a b l.toA toB (l.toA.posted [m]).bytes m
    rw [FixMessage.numbered_after plain, number] at behind
    exact behind

/-- What `a` sends for a message that comes. -/
theorem goes_of_sends {m r : FixMessage F} (comes : Comes v (l.a.inMsgSeqNum + 1) l.b.outMsgSeqNum m)
    (heard : m.Heard v.dialect r) {s : Session F} (dialect : s.dialect = v.dialect) (in' : s.inMsgSeqNum = l.a.inMsgSeqNum)
    {rs : List (FixMessage F)} {out : U64} (sends : Session.Sends s r rs out) :
    ∀ r ∈ rs, Goes v (l.a.inMsgSeqNum + 1) l.b.outMsgSeqNum r := by
  intro x hx
  cases sends with
  | nothing => exact absurd hx List.not_mem_nil
  | numbered reset request number =>
    rw [List.mem_singleton.1 hx]
    exact fun type => absurd type request
  | gapFill request expected begins ends type number fields =>
    rw [List.mem_singleton.1 hx]
    intro same
    rw [type] at same
    cases same
  | request high type number fields stops =>
    rw [List.mem_singleton.1 hx]
    intro _
    rw [in'] at high fields
    rw [heard.msgSeqNum, BitVec.lt_def] at high
    cases comes with
    | numbered plain less =>
      have stop := stops (by rw [heard.type]; exact plain)
      rw [dialect] at stop
      exact ⟨l.a.inMsgSeqNum + 1, ⟨type, by rw [fields, stop]; rfl⟩, Nat.le_refl _, by omega⟩
    | gapFill fills asked less => omega

/-- **A call of `a`**: it counts what comes, and asks again where a number is above the one it expects. -/
theorem take_a (inv : Inv v l) (n : Nat) (wired : (l.step (.takeA n)).Wired v) :
    Inv v (l.step (.takeA n)) ∧ Moves v l (.takeA n) (l.step (.takeA n)) := by
  have other : ¬l.Answers (.takeA n) := by
    rintro ⟨k, no, -⟩
    cases no
  have takes := Session.take_takes inv.wired.a n
  rw [step] at wired ⊢
  generalize l.a.take l.toA n = taken at takes wired ⊢
  cases takes with
  | nothing none attends =>
    refine ⟨⟨wired, inv.small, inv.toA, ?_⟩, .stays other rfl rfl⟩
    rw [Way.posted_nil]
    exact inv.toB
  | @message m r ms b bytes first returned heard attends =>
    have all := inv.toA
    rw [first] at all
    have comes := all m List.mem_cons_self
    have counter : ((l.a.parsedTo b .success).handle r).1.inMsgSeqNum + 1 = m.expectedAfter (l.a.inMsgSeqNum + 1) := by
      rw [Session.handle_in, ← heard.after comes.known, FixMessage.expectedAfter]
      rfl
    have on := comes.on inv.small
    have sends := goes_of_sends (s := l.a.parsedTo b .success) comes heard inv.wired.a.headed.dialect rfl
      (Session.handle_sends (l.a.parsedTo b .success) r)
    refine ⟨⟨wired, inv.small, ?_, ?_⟩, .stays other ?_ rfl⟩
    · intro x hx
      rw [counter]
      exact (all x (List.mem_cons_of_mem _ hx)).mono on (Nat.le_refl _)
    · intro x hx
      rw [counter]
      rcases List.mem_append.1 hx with old | new
      · exact (inv.toB x old).mono on (Nat.le_refl _)
      · exact (sends x new).mono on (Nat.le_refl _)
    · rw [willExpect, willExpect, first, counter]
      rfl

/-- A gap fill that `b` sends, to a request with these fields. -/
theorem answer_comes {first stop : U64} {m r x : FixMessage F} {f g : FixField F} (requests : m.Requests first stop)
    (heard : m.Heard v.dialect r) (begins : r.fixGetField Tag.beginSeqNo = some f)
    (ends : r.fixGetField Tag.endSeqNo = some g) (type : x.type = .sequenceReset) (number : x.msgSeqNum = f.intValue)
    (fields : x.fields = [.ofInt Tag.newSeqNo (g.intValue + 1), .ofString Tag.gapFillFlag (cstr (chars "Y"))]) :
    x.FillsTo (stop + 1) ∧ x.msgSeqNum = first := by
  obtain ⟨begins', ends'⟩ := heard.request requests begins ends
  rw [ends'] at fields
  exact ⟨⟨type, fields⟩, number.trans begins'⟩

/-- A gap fill of `b`, which moves what `a` will expect to its NewSeqNo, or by one. -/
theorem sends_gap_fill (inv : Inv v l) {r : FixMessage F} (fills : r.FillsTo (Session.endSeqNo v + 1))
    (asked : r.msgSeqNum.toNat ≤ (l.a.inMsgSeqNum + 1).toNat)
    (past : r.msgSeqNum.toNat + 1 < l.b.outMsgSeqNum.toNat) {b : Session F}
    (out : b.outMsgSeqNum = l.b.outMsgSeqNum) {w : Way F} (rest : ∀ r ∈ w.sent, r ∈ l.toB.sent)
    (wired : Wired v ⟨l.a, b, l.toA.posted [r], w⟩) :
    Inv v ⟨l.a, b, l.toA.posted [r], w⟩ ∧ willExpect ⟨l.a, b, l.toA.posted [r], w⟩ =
      if r.msgSeqNum = l.willExpect then
        if l.willExpect < Session.endSeqNo v + 1 then Session.endSeqNo v + 1 else l.willExpect + 1
      else l.willExpect := by
  have comes : Comes v (l.a.inMsgSeqNum + 1) l.b.outMsgSeqNum r := .gapFill fills asked past
  refine ⟨⟨wired, ?_, ?_, ?_⟩, ?_⟩
  · simp only [out]
    exact inv.small
  · intro m hm
    simp only [out]
    rcases List.mem_append.1 hm with old | new
    · exact inv.toA m old
    · rw [List.mem_singleton.1 new]
      exact comes
  · intro m hm
    simp only [out]
    exact inv.toB m (rest m hm)
  · have behind := will_expect_append l.a b l.toA w (l.toA.posted [r]).bytes r
    rw [FixMessage.fill_after fills] at behind
    exact behind

/-- A call in which `b` has been returned a message answers it where the message asks for what `a` misses. -/
theorem answers_take_b {n : Nat} {r : FixMessage F} (returned : (l.b.hear l.toB.bytes n).1 = .message r) :
    l.Answers (.takeB n) ↔ l.Asked r := by
  constructor
  · rintro ⟨k, same, m, returned', asked⟩
    cases same
    rw [returned] at returned'
    cases returned'
    exact asked
  · intro asked
    exact ⟨n, rfl, r, returned, asked⟩

/-- **A call of `b`**: it answers a request of what `a` will still miss, or numbers what it sends. -/
theorem take_b (inv : Inv v l) (small : l.b.outMsgSeqNum.toNat < 2 ^ 31) (n : Nat)
    (wired : (l.step (.takeB n)).Wired v) :
    Inv v (l.step (.takeB n)) ∧ Moves v l (.takeB n) (l.step (.takeB n)) := by
  have takes := Session.take_takes inv.wired.b n
  rw [step] at wired ⊢
  generalize l.b.take l.toB n = taken at takes wired ⊢
  cases takes with
  | nothing none attends =>
    have other : ¬l.Answers (.takeB n) := by
      rintro ⟨k, same, m, returned, -⟩
      cases same
      exact none m returned
    rw [Way.posted_nil] at wired ⊢
    exact ⟨⟨wired, inv.small, inv.toA, inv.toB⟩, .stays other rfl rfl⟩
  | @message m r ms b bytes first returned heard attends =>
    have goes : Goes v (l.a.inMsgSeqNum + 1) l.b.outMsgSeqNum m := inv.toB m (by rw [first]; exact List.mem_cons_self)
    have rest : ∀ x ∈ ms, x ∈ l.toB.sent := fun x hx => by rw [first]; exact List.mem_cons_of_mem _ hx
    have head := answers_take_b returned
    have requested (request : r.type = .resendRequest) := goes (heard.type.symm.trans request)
    by_cases asked : l.Asked r
    · obtain ⟨request, expected, ⟨f, begins, missing⟩, g, ends⟩ := asked
      obtain ⟨first', requests, below, past⟩ := requested request
      have answer := Session.handle_resend_request (s := l.b.parsedTo b .success) request expected begins ends
      rw [answer] at wired ⊢
      obtain ⟨fills, number⟩ := answer_comes (x := (((l.b.parsedTo b .success).received r).fixSessionSequenceReset
        f.intValue (g.intValue + 1) true).2) requests heard begins ends rfl rfl rfl
      have same := number.symm.trans missing
      rw [← number] at below past
      obtain ⟨inv', expect⟩ := sends_gap_fill (b := (((l.b.parsedTo b .success).received r).fixSessionSequenceReset
        f.intValue (g.intValue + 1) true).1) (w := ⟨bytes, ms⟩) inv fills below past rfl rest wired
      rw [if_pos (number.trans same)] at expect
      refine ⟨inv', .answers (head.2 ⟨request, expected, ⟨f, begins, missing⟩, g, ends⟩) ?_ expect rfl⟩
      rw [← number.trans same]
      exact past
    · have other : ¬l.Answers (.takeB n) := fun h => asked (head.1 h)
      have sends := Session.handle_sends (l.b.parsedTo b .success) r
      generalize ((l.b.parsedTo b .success).handle r).1 = after at sends wired ⊢
      generalize ((l.b.parsedTo b .success).handle r).2 = rs at sends wired ⊢
      generalize next : after.outMsgSeqNum = out at sends
      cases sends with
      | nothing =>
        rw [Way.posted_nil] at wired ⊢
        refine ⟨⟨wired, ?_, ?_, ?_⟩, .stays other rfl next⟩
        · simp only [next]
          exact inv.small
        · simp only [next]
          exact inv.toA
        · simp only [next]
          exact fun x hx => inv.toB x (rest x hx)
      | numbered reset request number => exact sends_numbered inv small other reset number next rest wired
      | request high type number fields stops =>
        refine sends_numbered inv small other ?_ number next rest wired
        rw [type]
        exact fun h => by cases h
      | gapFill request expected begins ends type number fields =>
        obtain ⟨first', requests, below, past⟩ := requested request
        obtain ⟨fills, same⟩ := answer_comes requests heard begins ends type number fields
        rw [← same] at below past
        obtain ⟨inv', expect⟩ := sends_gap_fill inv fills below past next rest wired
        have elsewhere : _ ≠ l.willExpect := fun h =>
          asked ⟨request, expected, ⟨_, begins, number.symm.trans h⟩, _, ends⟩
        rw [if_neg elsewhere] at expect
        exact ⟨inv', .stays other expect next⟩

/-- **A step** keeps what is in flight in order, and moves the two numbers in one of three ways. -/
theorem step_moves (inv : Inv v l) (small : l.Small) {x : Act F} (plain : x.plain = true) (conveys : l.Conveys x) :
    Inv v (l.step x) ∧ Moves v l x (l.step x) := by
  have wired := inv.wired.step small plain conveys
  cases x with
  | takeA n => exact take_a inv n wired
  | takeB n => exact take_b inv small.b n wired
  | sendA m =>
    rw [Act.plain, Bool.and_eq_true] at plain
    have other : ¬l.Answers (.sendA m) := by
      rintro ⟨k, no, -⟩
      cases no
    refine ⟨⟨wired, inv.small, inv.toA, ?_⟩, .stays other rfl rfl⟩
    intro r hr
    rcases List.mem_append.1 hr with old | new
    · exact inv.toB r old
    · rw [List.mem_singleton.1 new]
      intro request
      exact absurd request (of_decide_eq_true plain.1)
  | sendB m =>
    rw [Act.plain, Bool.and_eq_true] at plain
    have other : ¬l.Answers (.sendB m) := by
      rintro ⟨k, no, -⟩
      cases no
    have reset : m.type ≠ .sequenceReset := of_decide_eq_true plain.2
    exact sends_numbered inv small.b other (m := (l.b.fixSessionSend m 0).2) (b := (l.b.fixSessionSend m 0).1) reset rfl
      rfl (fun r hr => hr) wired

end Link

end Libtrading.Fix
