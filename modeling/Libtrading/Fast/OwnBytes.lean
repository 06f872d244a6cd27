import Libtrading.Fast.AnyCut
import Libtrading.Fast.Tidy

/-!
# A message is made of its own bytes

Each call of a run is looked at together with the session that the last
message or refusal left and with what was received since. The message it
returns is made of its own bytes where that session is fresh and the call does
what one call there does that has all the bytes. A refusal behind the map
leaves the preamble, the map, the template and the fields it has read, and the
next message goes on with them.
-/

namespace Libtrading.Fast
set_option autoImplicit false
open Buffer

theorem new_session_fresh (preambleBytes : Nat) (ts : List Template) : (newSession preambleBytes ts).Fresh where
  preamble := rfl
  map := rfl
  template := rfl
  messages m hm := by
    rcases List.mem_append.mp hm with hm | hm
    · obtain ⟨t, _, rfl⟩ := List.mem_map.mp hm
      refine ⟨rfl, fun f hf => ?_⟩
      obtain ⟨n, _, rfl⟩ := List.mem_map.mp hf
      cases n with
      | elem n => trivial
      | sequence n => exact ⟨rfl, rfl, rfl⟩
    · obtain ⟨_, rfl⟩ := List.mem_replicate.mp hm
      exact ⟨rfl, fun f hf => absurd hf List.not_mem_nil⟩

/-- A call of a run: the session it is made on, the session that the last message or refusal left, and
what was received since. -/
structure Turn where
  begun : Session
  got : List UInt8
  site : Session

/-- The calls of a run, one after each chunk. -/
def turns (begun s : Session) (got : List UInt8) : List (List UInt8) → List Turn
  | [] => []
  | x :: xs =>
    let site := s.receive x
    let d := site.fastMessageDecode
    ⟨begun, got ++ x, site⟩ ::
      (match d.outcome with
      | none => turns begun d.session (got ++ x) xs
      | some _ => turns d.session d.session [] xs)

/-- The call decodes what it returns from its own bytes: where nothing of a message was there it does
what one call does that has all of them, and it has read on from the place where that one starts. -/
structure Turn.OwnBytes (t : Turn) : Prop where
  fresh : t.begun.Fresh
  whole : t.site.fastMessageDecode = (t.begun.receive t.got).fastMessageDecode
  range : (t.begun.receive t.got).rxBuffer.Moved t.site.fastMessageDecode.session.rxBuffer

/-- The call is not cut where a field cannot be decoded again, and is refused in the map of a session
without preambles, if at all. -/
structure Session.Clean (s : Session) : Prop where
  whole : s.cutsField = false
  refused : s.fastMessageDecode.ret = .ok ∨ s.fastMessageDecode.ret = .msgPartial ∨
    (s.preamble.nrBytes = 0 ∧ s.decodePmap.ret ≠ .ok)

instance (s : Session) : Decidable s.Clean :=
  decidable_of_iff (s.cutsField = false ∧ (s.fastMessageDecode.ret = .ok ∨ s.fastMessageDecode.ret = .msgPartial ∨
      (s.preamble.nrBytes = 0 ∧ s.decodePmap.ret ≠ .ok)))
    ⟨fun h => ⟨h.1, h.2⟩, fun h => ⟨h.whole, h.refused⟩⟩

/-- A refusal in the map of a session without preambles leaves a fresh session. -/
theorem refused_in_map_fresh {s : Session} (hs : s.Regular) (h : s.Tidy) (none : s.preamble.nrBytes = 0)
    (refused : s.decodePmap.ret ≠ .ok) : s.fastMessageDecode.session.Fresh := by
  have passed : s.decodePreamble = ⟨.ok, s⟩ := preamble_passed fun missing => missing.1 none
  have header : s.decodeHeader = s.decodePmap := by
    rw [Session.decodeHeader, Stage.andThen, passed, if_neg (not_not_intro rfl), Stage.andThen, if_pos refused]
  obtain ⟨tidy, invalid⟩ := pmap_tidy hs.valid h
  have kept := pmap_keeps_preamble s
  rw [decode_stopped (by rw [header]; exact refused), header]
  refine tidy.fresh (tidy.preamble ?_) (invalid refused)
  rw [kept]
  exact none

/-- A call that is clean leaves a fresh session, or waits. -/
theorem clean_fresh {s : Session} (hs : s.Regular) (h : s.Tidy) (clean : s.Clean)
    (finished : s.fastMessageDecode.ret ≠ .msgPartial) : s.fastMessageDecode.session.Fresh := by
  rcases clean.refused with ok | waits | ⟨none, refused⟩
  · exact (decode_tidy hs h).1 ok
  · exact absurd waits finished
  · exact refused_in_map_fresh hs h none refused

/-- What holds between two calls of a run: the message under way is decoded as one call would from where
it was begun. -/
structure Continues (begun : Session) (got : List UInt8) (s : Session) : Prop where
  fresh : begun.Fresh
  start : begun.Regular
  regular : s.Regular
  tidy : s.Tidy
  same : ∀ x, (s.receive x).fastMessageDecode = (begun.receive (got ++ x)).fastMessageDecode

theorem Session.Fresh.continues {s : Session} (h : s.Fresh) (hs : s.Regular) : Continues s [] s :=
  ⟨h, hs, hs, h.tidy, fun _ => rfl⟩

theorem receive_tidy {s : Session} (h : s.Tidy) (x : List UInt8) : (s.receive x).Tidy :=
  ⟨h.preamble, h.map, h.others, h.current⟩

/-- A call that waits goes on with the same message. -/
theorem Continues.wait {begun s : Session} {got x : List UInt8} (h : Continues begun got s)
    (whole : (s.receive x).cutsField = false) (waits : (s.receive x).fastMessageDecode.ret = .msgPartial) :
    Continues begun (got ++ x) (s.receive x).fastMessageDecode.session where
  fresh := h.fresh
  start := h.start
  regular := decode_regular (h.regular.receive x)
  tidy := (decode_tidy (h.regular.receive x) (receive_tidy h.tidy x)).2 (by rw [waits]; decide)
  same y := by
    have twice : (s.receive x).receive y = s.receive (x ++ y) := h.regular.receive_receive x y
    calc ((s.receive x).fastMessageDecode.session.receive y).fastMessageDecode
        = ((s.receive x).receive y).fastMessageDecode := decode_again (h.regular.receive x) whole waits y
      _ = (s.receive (x ++ y)).fastMessageDecode := by rw [twice]
      _ = (begun.receive (got ++ (x ++ y))).fastMessageDecode := h.same (x ++ y)
      _ = (begun.receive (got ++ x ++ y)).fastMessageDecode := by rw [List.append_assoc]

theorem own_bytes_from {begun s : Session} {got : List UInt8} (h : Continues begun got s) (xs : List (List UInt8))
    (clean : ∀ t ∈ turns begun s got xs, t.site.Clean) : ∀ t ∈ turns begun s got xs, t.OwnBytes := by
  induction xs generalizing begun s got with
  | nil => exact fun _ ht => absurd ht List.not_mem_nil
  | cons x xs ih =>
    have range := decode_moved (h.start.receive (got ++ x))
    have here : Turn.OwnBytes ⟨begun, got ++ x, s.receive x⟩ := ⟨h.fresh, h.same x, by rw [h.same x]; exact range⟩
    have site : (s.receive x).Clean := clean _ List.mem_cons_self
    have regular := h.regular.receive x
    have tidy := receive_tidy h.tidy x
    have later := fun t ht => clean t (List.mem_cons_of_mem _ ht)
    intro t ht
    rcases List.mem_cons.mp ht with rfl | ht
    · exact here
    · cases ho : (s.receive x).fastMessageDecode.outcome with
      | none =>
        simp only [ho] at ht later
        exact ih (h.wait site.whole (outcome_none.mp ho)) later t ht
      | some o =>
        simp only [ho] at ht later
        have fresh := clean_fresh regular tidy site (outcome_some ho)
        exact ih (fresh.continues (decode_regular regular)) later t ht

/-- **Own bytes.** In a run from a fresh session whose calls are all clean, every message that is returned
is decoded from the bytes since the last message or refusal: its own preamble, map, template id and
fields. -/
theorem own_bytes (s : Session) (regular : s.Regular) (fresh : s.Fresh) (xs : List (List UInt8))
    (clean : ∀ t ∈ turns s s [] xs, t.site.Clean) :
    ∀ t ∈ turns s s [] xs, ∀ m, t.site.fastMessageDecode.msg = some m → t.OwnBytes :=
  fun t ht _ _ => own_bytes_from (fresh.continues regular) xs clean t ht

/-- A template with two numbers. -/
def pairTemplate : Template where
  name := "Pair"
  tid := 1
  flagReset := false
  fields := [.elem (.uint ⟨"First", .mandatory, .none, none⟩), .elem (.uint ⟨"Second", .mandatory, .none, none⟩)]

/-- A map that never ends is refused, and the message behind it is decoded from its own bytes. -/
theorem refused_map_own_bytes :
    ∃ t ∈ turns (newSession 0 [pairTemplate]) (newSession 0 [pairTemplate]) []
        [List.replicate 8 0x01, [0xC0, 0x81, 0x85, 0x86]],
      t.site.fastMessageDecode.msg.isSome = true ∧ t.OwnBytes := by
  have returned : ∃ t ∈ turns (newSession 0 [pairTemplate]) (newSession 0 [pairTemplate]) []
        [List.replicate 8 0x01, [0xC0, 0x81, 0x85, 0x86]],
      t.site.fastMessageDecode.msg.isSome = true := by decide +kernel
  obtain ⟨t, ht, some⟩ := returned
  obtain ⟨m, hm⟩ := Option.isSome_iff_exists.mp some
  exact ⟨t, ht, some, own_bytes _ (new_session_regular 0 _) (new_session_fresh 0 _) _ (by decide +kernel) t ht m hm⟩

/-- **Mixed bytes.** The second number of a message never ends. The call that refuses it keeps the first
one, and the next message goes on with it: it is returned with the number 5 from before the refusal, and
with its own map as the second number. -/
theorem mixed_bytes :
    ∃ t ∈ turns (newSession 0 [pairTemplate]) (newSession 0 [pairTemplate]) []
        [[0xC0, 0x81, 0x85] ++ List.replicate 9 0x01, [0xC0, 0x81, 0x86, 0x87]],
      ∃ m, t.site.fastMessageDecode.msg = some m ∧ (Outcome.message m).numbers = [5, 64] ∧ ¬t.OwnBytes := by
  have mixed : ∃ t ∈ turns (newSession 0 [pairTemplate]) (newSession 0 [pairTemplate]) []
        [[0xC0, 0x81, 0x85] ++ List.replicate 9 0x01, [0xC0, 0x81, 0x86, 0x87]],
      t.site.fastMessageDecode.msg.map (fun m => (Outcome.message m).numbers) = some [5, 64] ∧
        t.begun.pmap.isValid = true := by decide +kernel
  obtain ⟨t, ht, numbers, valid⟩ := mixed
  obtain ⟨m, hm, numbers⟩ := Option.map_eq_some_iff.mp numbers
  exact ⟨t, ht, m, hm, numbers, fun own => absurd (valid.symm.trans own.fresh.map) nofun⟩

end Libtrading.Fast
