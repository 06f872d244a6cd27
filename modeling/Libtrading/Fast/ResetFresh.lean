import Libtrading.Fast.AlikeSessions
import Libtrading.Fast.Feed
import Libtrading.Fast.Forgotten

/-!
# Sessions after a reset

A session that was used in any way decodes like itself. Between two messages, and where all its fields are forgotten,
it decodes after a reset like one that its templates were just loaded into.
-/

namespace Libtrading.Fast
set_option autoImplicit false
open Buffer

/-! ## Templates that fit -/

def SequenceNode.fits (n : SequenceNode) : Prop := ∀ f ∈ n.fields, f.fits

def FieldNode.fits : FieldNode → Prop
  | .elem n => n.fits
  | .sequence n => n.fits

def Template.fits (t : Template) : Prop := ∀ f ∈ t.fields, f.fits

/-! ## Sequences -/

section Sequences
variable {n : SequenceNode} {o s : Sequence}

/-- The running fields of a loaded sequence are loaded. -/
theorem head_init {j : Nat} {h : ElementField} (fits : n.fits) (here : (sequenceInit n).head[j]? = some h) :
    ∃ e : ElementNode, e.fits ∧ h = elementInit e := by
  have entry : (n.fields.map elementInit)[j]? = some h := here
  rw [List.getElem?_map] at entry
  obtain ⟨e, at', rfl⟩ := Option.map_eq_some_iff.1 entry
  exact ⟨e, fits e (List.mem_of_getElem? at'), rfl⟩

theorem sequence_init_template (n : SequenceNode) : (sequenceInit n).SameTemplate (sequenceInit n) where
  presence := rfl
  pmapReq := rfl
  size := List.length_replicate
  blank _ := rfl
  heads := rfl

/-- A loaded sequence decodes as itself. -/
theorem sequence_init_alike (fits : n.fits) : Sequence.Alike (sequenceInit n) (sequenceInit n) (sequenceInit n) where
  left := sequence_init_template n
  right := sequence_init_template n
  decoded := rfl
  msgDecoded := rfl
  length := (number_loaded _).alike
  begun _ := ⟨rfl, rfl⟩
  valid := rfl
  map _ _ := rfl
  head j h f g hh hf hg := by
    obtain rfl := Option.some.inj (hh.symm.trans hf)
    obtain rfl := Option.some.inj (hh.symm.trans hg)
    obtain ⟨e, fits, rfl⟩ := head_init fits hh
    exact (element_init_alike fits).mono False.elim
  cells i j c d hc hd _ := by rw [Option.some.inj (hc.symm.trans hd)]

theorem sequence_reset_template (h : o.SameTemplate s) :
    o.SameTemplate { s with head := s.head.map ElementField.fastReset } :=
  h.running rfl rfl rfl (fun _ => rfl) (List.length_map _)

/-- A sequence that is put back decodes as itself. -/
theorem sequence_reset_alike (fits : n.fits) (h : Sequence.Alike (sequenceInit n) s s) :
    Sequence.Alike (sequenceInit n) { s with head := s.head.map ElementField.fastReset }
      { s with head := s.head.map ElementField.fastReset } where
  left := sequence_reset_template h.left
  right := sequence_reset_template h.right
  decoded := rfl
  msgDecoded := rfl
  length := h.length
  begun _ := ⟨rfl, rfl⟩
  valid := rfl
  map _ _ := rfl
  head j k f g hk hf hg := by
    obtain rfl := Option.some.inj (hf.symm.trans hg)
    obtain ⟨e, fits, rfl⟩ := head_init fits hk
    rw [List.getElem?_map] at hf
    obtain ⟨f, here, rfl⟩ := Option.map_eq_some_iff.1 hf
    exact (element_reset_alike fits (h.head j _ f f hk here here)).mono False.elim
  cells := h.cells

/-- A map that no byte was read into has no bit set. -/
theorem blank_map {p : Pmap} (blank : p.nrBytes = 0) : p.pmapIsSet = false := by
  unfold Pmap.pmapIsSet
  cases p.pmapBit with
  | ofNat bit => exact if_pos (by rw [blank]; exact Nat.zero_le _)
  | negSucc bit => rfl

/-- **A sequence that is forgotten**, its length included, decodes as a loaded one once it is put back. -/
theorem sequence_reset_fresh (fits : n.fits) (h : Sequence.Alike (sequenceInit n) s s) (idle : s.Idle)
    (length : s.length.untouched = true) (head : ∀ f ∈ s.head, f.forgotten = true) :
    Sequence.Alike (sequenceInit n) { s with head := s.head.map ElementField.fastReset } (sequenceInit n) where
  left := sequence_reset_template h.left
  right := sequence_init_template n
  decoded := idle.decoded
  msgDecoded := idle.fields
  length := h.length.untouched rfl (number_loaded _) length
  begun begun := absurd idle.decoded begun
  valid := idle.map
  map mapped k := by
    -- no map is asked for: none was ever read
    have none : (sequenceInit n).pmapReq = false := by
      have mapped : (s.pmapReq && !s.pmap.isValid) = false := mapped
      rw [idle.map, Bool.not_false, Bool.and_true] at mapped
      exact h.left.pmapReq.symm.trans mapped
    have left : (s.pmap.skip k).pmapIsSet = false := blank_map (h.left.blank none)
    have right : ((sequenceInit n).pmap.skip k).pmapIsSet = false := blank_map rfl
    exact left.trans right.symm
  head j k f g hk hf hg := by
    obtain rfl := Option.some.inj (hk.symm.trans hg)
    obtain ⟨e, fits, rfl⟩ := head_init fits hk
    rw [List.getElem?_map] at hf
    obtain ⟨f, here, rfl⟩ := Option.map_eq_some_iff.1 hf
    have forgotten := head f (List.mem_of_getElem? here)
    exact (element_reset_fresh fits (h.head j _ f f hk here here) forgotten).mono False.elim
  cells i j c d _ _ before := by
    have none : s.decoded = 0 := idle.decoded
    have before : i + 1 < s.decoded ∨ i + 1 = s.decoded ∧ j < s.msgDecoded := before
    omega

end Sequences

/-! ## Fields -/

section Fields
variable {n : FieldNode} {f : FastField} {wire : Prop}

theorem head_types (n : SequenceNode) : (sequenceInit n).head.map ElementField.type = n.types :=
  (sequence_init_shaped n).head

theorem fast_field_init_alike (fits : n.fits) :
    FastField.Alike False (fastFieldInit n) (fastFieldInit n) (fastFieldInit n) := by
  cases n with
  | elem n => exact .elem (element_init_alike fits)
  | sequence n =>
    have shaped := sequence_init_shaped n
    rw [← head_types n] at shaped
    exact .sequence shaped shaped (sequence_init_alike fits)

theorem fast_field_reset_alike (fits : n.fits) (h : FastField.Alike wire (fastFieldInit n) f f) :
    FastField.Alike False (fastFieldInit n) f.fastReset f.fastReset := by
  cases n with
  | elem n =>
    cases h with
    | elem h => exact .elem (element_reset_alike fits h)
  | sequence n =>
    cases h with
    | sequence left right h => exact .sequence left.reset right.reset (sequence_reset_alike fits h)

theorem fast_field_reset_fresh (fits : n.fits) (h : FastField.Alike wire (fastFieldInit n) f f) (idle : f.Idle)
    (forgotten : f.forgotten = true) : FastField.Alike False (fastFieldInit n) f.fastReset (fastFieldInit n) := by
  cases n with
  | elem n =>
    cases h with
    | elem h => exact .elem (element_reset_fresh fits h forgotten)
  | sequence n =>
    cases h with
    | sequence left right h =>
      have shaped := sequence_init_shaped n
      rw [← head_types n] at shaped
      obtain ⟨length, head⟩ := Bool.and_eq_true_iff.1 forgotten
      exact .sequence left.reset shaped (sequence_reset_fresh fits h idle length (List.all_eq_true.1 head))

end Fields

/-! ## Messages -/

section Messages
variable {t : Template} {m : Message} {wire wire' : Prop}

/-- The fields of a loaded message are loaded. -/
theorem fields_init {j : Nat} {k : FastField} (fits : t.fits) (here : (messageInit t).fields[j]? = some k) :
    ∃ n : FieldNode, n.fits ∧ k = fastFieldInit n := by
  have entry : (t.fields.map fastFieldInit)[j]? = some k := here
  rw [List.getElem?_map] at entry
  obtain ⟨n, at', rfl⟩ := Option.map_eq_some_iff.1 entry
  exact ⟨n, fits n (List.mem_of_getElem? at'), rfl⟩

theorem message_init_alike (fits : t.fits) : Message.Alike (messageInit t) False (messageInit t) (messageInit t) where
  left := ⟨rfl, rfl, rfl⟩
  right := ⟨rfl, rfl, rfl⟩
  decoded := rfl
  fields :=
    { left := rfl
      right := rfl
      fields := fun j k f g hk hf hg => by
        obtain rfl := Option.some.inj (hk.symm.trans hf)
        obtain rfl := Option.some.inj (hk.symm.trans hg)
        obtain ⟨n, fits, rfl⟩ := fields_init fits hk
        exact (fast_field_init_alike fits).mono False.elim
      seen := fun _ _ _ _ _ before => absurd before (Nat.not_lt_zero _) }

/-- A field of a message that was put back. -/
theorem field_reset {j : Nat} {f : FastField} (here : m.fastMessageReset.fields[j]? = some f) :
    ∃ g, m.fields[j]? = some g ∧ f = g.fastReset := by
  have entry : (m.fields.map FastField.fastReset)[j]? = some f := here
  rw [List.getElem?_map] at entry
  obtain ⟨g, at', rfl⟩ := Option.map_eq_some_iff.1 entry
  exact ⟨g, at', rfl⟩

/-- A message that is put back decodes as itself, also in the middle of it. -/
theorem message_reset_alike (fits : t.fits) (h : Message.Alike (messageInit t) wire m m) :
    Message.Alike (messageInit t) False m.fastMessageReset m.fastMessageReset where
  left := ⟨h.left.name, h.left.tid, h.left.flagReset⟩
  right := ⟨h.left.name, h.left.tid, h.left.flagReset⟩
  decoded := rfl
  fields :=
    { left := (List.length_map _).trans h.fields.left
      right := (List.length_map _).trans h.fields.left
      fields := fun j k f g hk hf hg => by
        obtain rfl := Option.some.inj (hf.symm.trans hg)
        obtain ⟨n, fits, rfl⟩ := fields_init fits hk
        obtain ⟨f, here, rfl⟩ := field_reset hf
        exact (fast_field_reset_alike fits (h.fields.fields j _ f f hk here here)).mono False.elim
      seen := fun j f g hf hg _ => by rw [Option.some.inj (hf.symm.trans hg)] }

theorem message_reset_fresh (fits : t.fits) (h : Message.Alike (messageInit t) wire m m) (decoded : m.decoded = 0)
    (idle : IdleFields m.fields) (forgotten : m.forgotten = true) :
    Message.Alike (messageInit t) False m.fastMessageReset (messageInit t) where
  left := ⟨h.left.name, h.left.tid, h.left.flagReset⟩
  right := ⟨rfl, rfl, rfl⟩
  decoded := decoded
  fields :=
    { left := (List.length_map _).trans h.fields.left
      right := rfl
      fields := fun j k f g hk hf hg => by
        obtain rfl := Option.some.inj (hk.symm.trans hg)
        obtain ⟨n, fits, rfl⟩ := fields_init fits hk
        obtain ⟨f, here, rfl⟩ := field_reset hf
        have inside := List.mem_of_getElem? here
        have forgotten := List.all_eq_true.1 forgotten f inside
        have entry := h.fields.fields j _ f f hk here here
        exact (fast_field_reset_fresh fits entry (idle f inside) forgotten).mono False.elim
      seen := fun j f g _ _ before => by
        have none : m.fastMessageReset.decoded = 0 := decoded
        rw [none] at before
        exact absurd before (Nat.not_lt_zero _) }

end Messages

/-! ## Cursors -/

section Cursors
variable {f : FastField} {m : Message} {s : Session}

/-- A reset moves no cursor. -/
theorem FastField.Idle.reset (h : f.Idle) : f.fastReset.Idle := by
  cases f with
  | elem f => trivial
  | sequence s => exact ⟨h.decoded, h.fields, h.map⟩

theorem FastField.Tidy.reset (h : f.Tidy) : f.fastReset.Tidy := by
  cases f with
  | elem f => trivial
  | sequence s =>
    rcases h with idle | inside
    · exact .inl ⟨idle.decoded, idle.fields, idle.map⟩
    · exact .inr inside

theorem IdleFields.reset (h : IdleFields m.fields) : IdleFields m.fastMessageReset.fields := by
  intro f hf
  obtain ⟨g, hg, rfl⟩ := List.mem_map.1 hf
  exact (h g hg).reset

theorem UnderWay.reset (h : UnderWay m.decoded m.fields) :
    UnderWay m.fastMessageReset.decoded m.fastMessageReset.fields := by
  intro i f hf
  obtain ⟨g, hg, rfl⟩ := field_reset hf
  obtain ⟨tidy, idle⟩ := h i g hg
  exact ⟨tidy.reset, fun other => (idle other).reset⟩

theorem Session.Tidy.reset (h : s.Tidy) : s.fastSessionReset.Tidy where
  preamble := h.preamble
  map := h.map
  others i m hm other := by
    rw [Session.reset_slot] at hm
    obtain ⟨n, here, rfl⟩ := Option.map_eq_some_iff.1 hm
    obtain ⟨decoded, idle⟩ := h.others i n here other
    split_ifs
    · exact ⟨decoded, idle.reset⟩
    · exact ⟨decoded, idle⟩
  current i m hm same := by
    rw [Session.reset_slot] at hm
    obtain ⟨n, here, rfl⟩ := Option.map_eq_some_iff.1 hm
    have underWay := h.current i n here same
    split_ifs
    · exact underWay.reset
    · exact underWay

end Cursors

/-! ## Sessions in use -/

/-- A session opened with some templates and used in any way, but for calls that stored outside of a field. -/
inductive Used (preambleBytes : Nat) (ts : List Template) : Session → Prop
  | opened : Used preambleBytes ts (newSession preambleBytes ts)
  | received {s : Session} (x : List UInt8) (h : Used preambleBytes ts s) : Used preambleBytes ts (s.receive x)
  | compacted {s : Session} (h : Used preambleBytes ts s) :
    Used preambleBytes ts { s with rxBuffer := s.rxBuffer.bufferCompact }
  | decoded {s : Session} (defined : s.fastMessageDecode.ret ≠ .fault) (h : Used preambleBytes ts s) :
    Used preambleBytes ts s.fastMessageDecode.session
  | reset {s : Session} (h : Used preambleBytes ts s) : Used preambleBytes ts s.fastSessionReset

/-- What holds of a session in use. -/
structure Steady (preambleBytes : Nat) (ts : List Template) (s : Session) : Prop where
  regular : s.Regular
  tidy : s.Tidy
  nrBytes : s.preamble.nrBytes = preambleBytes
  loaded : s.nrMessages = ts.length
  self : Session.Alike (newSession preambleBytes ts).rxMessages [] s s

section Slots
variable {preambleBytes : Nat} {ts : List Template} {i : Nat} {k m : Message} {s : Session}

/-- A slot of a new session: what is not loaded is like a template without fields. -/
theorem slot_init (fits : ∀ t ∈ ts, t.fits) (here : (newSession preambleBytes ts).rxMessages[i]? = some k) :
    ∃ t : Template, t.fits ∧ k = messageInit t ∧ (ts.length ≤ i → t.fields = []) := by
  have entry : (ts.map messageInit ++ List.replicate (templateMaxNumber - ts.length) emptySlot)[i]? = some k := here
  by_cases loaded : i < ts.length
  · rw [List.getElem?_append_left (by rw [List.length_map]; exact loaded), List.getElem?_map] at entry
    obtain ⟨t, at', rfl⟩ := Option.map_eq_some_iff.1 entry
    exact ⟨t, fits t (List.mem_of_getElem? at'), rfl, fun past => absurd loaded (Nat.not_lt_of_le past)⟩
  · rw [List.getElem?_append_right (by rw [List.length_map]; exact Nat.le_of_not_lt loaded)] at entry
    obtain ⟨-, rfl⟩ := List.mem_replicate.1 (List.mem_of_getElem? entry)
    exact ⟨⟨"", 0, false, []⟩, fun f none => absurd none List.not_mem_nil, rfl, fun _ => rfl⟩

/-- A reset puts back every slot: the ones that are not loaded have no fields. -/
theorem slot_reset (fits : ∀ t ∈ ts, t.fits) (steady : Steady preambleBytes ts s)
    (hk : (newSession preambleBytes ts).rxMessages[i]? = some k) (hm : s.fastSessionReset.rxMessages[i]? = some m) :
    ∃ n : Message, s.rxMessages[i]? = some n ∧ m = n.fastMessageReset := by
  rw [Session.reset_slot] at hm
  obtain ⟨n, here, rfl⟩ := Option.map_eq_some_iff.1 hm
  refine ⟨n, here, ?_⟩
  split_ifs with loaded
  · rfl
  · obtain ⟨t, -, rfl, empty⟩ := slot_init fits hk
    have length := (steady.self.messages i _ n n hk here here).fields.left
    have none : n.fields = [] := by
      have bare := empty (by rw [← steady.loaded]; exact Nat.le_of_not_lt loaded)
      have size : (messageInit t).fields = [] := congrArg (List.map fastFieldInit) bare
      rw [size] at length
      exact List.length_eq_zero_iff.1 length
    unfold Message.fastMessageReset
    rw [none, List.map_nil, ← none]

theorem reset_length (s : Session) : s.fastSessionReset.rxMessages.length = s.rxMessages.length := by
  unfold Session.fastSessionReset
  simp only [List.length_append, List.length_map, List.length_take, List.length_drop]
  omega

end Slots

section Steps
variable {preambleBytes : Nat} {ts : List Template} {s : Session}

theorem new_session_steady (fits : ∀ t ∈ ts, t.fits) : Steady preambleBytes ts (newSession preambleBytes ts) where
  regular := new_session_regular preambleBytes ts
  tidy := (new_session_fresh preambleBytes ts).tidy
  nrBytes := rfl
  loaded := rfl
  self :=
    { buffer := rfl, template := rfl, preamble := rfl, nrBytes := rfl, valid := rfl
      size := ⟨List.length_replicate, List.length_replicate⟩
      map := fun _ _ => rfl
      bit := fun valid => by cases valid
      idle := fun _ => rfl, id := .inl rfl, left := rfl, right := rfl
      messages := fun i k m m' hk hm hm' => by
        obtain rfl := Option.some.inj (hk.symm.trans hm)
        obtain rfl := Option.some.inj (hk.symm.trans hm')
        obtain ⟨t, fits, rfl, -⟩ := slot_init fits hk
        exact (message_init_alike fits).mono False.elim }

/-- Bytes arrive, or move. -/
theorem Steady.withBuffer (h : Steady preambleBytes ts s) {b : Buffer} (valid : b.Valid) :
    Steady preambleBytes ts { s with rxBuffer := b } where
  regular := ⟨valid, h.regular.regular⟩
  tidy := ⟨h.tidy.preamble, h.tidy.map, h.tidy.others, h.tidy.current⟩
  nrBytes := h.nrBytes
  loaded := h.loaded
  self := { h.self with buffer := rfl, id := .inl rfl }

/-- A call reads no template, and no other number of preamble bytes. -/
theorem decode_opened (s : Session) : s.fastMessageDecode.session.nrMessages = s.nrMessages ∧
    s.fastMessageDecode.session.preamble.nrBytes = s.preamble.nrBytes := by
  have preamble : s.decodePreamble.session.preamble.nrBytes = s.preamble.nrBytes := by
    unfold Session.decodePreamble
    split
    · split <;> rfl
    · rfl
  have header : s.decodeHeader.session.preamble.nrBytes = s.preamble.nrBytes := by
    unfold Session.decodeHeader
    rw [Stage.andThen]
    split
    · exact preamble
    · rw [pmap_tid_keeps_preamble]
      exact preamble
  obtain ⟨ret, call, -⟩ | ⟨i, m, -, -, -, call⟩ := decode_cases s
  · rw [call]
    exact ⟨header_loaded s, header⟩
  · rw [call, Session.decodeMessage]
    by_cases ok : (s.decodeHeader.session.messageFields m).ret = .ok
    · rw [finish_message_done ok]
      exact ⟨header_loaded s, header⟩
    · rw [finish_message_failed ok]
      exact ⟨header_loaded s, header⟩

theorem Steady.decode (h : Steady preambleBytes ts s) (defined : s.fastMessageDecode.ret ≠ .fault) :
    Steady preambleBytes ts s.fastMessageDecode.session where
  regular := decode_regular h.regular
  tidy := by
    obtain ⟨fresh, tidy⟩ := decode_tidy h.regular h.tidy
    by_cases ok : s.fastMessageDecode.ret = .ok
    · exact (fresh ok).tidy
    · exact tidy ok
  nrBytes := (decode_opened s).2.trans h.nrBytes
  loaded := (decode_opened s).1.trans h.loaded
  self := (decode_alike h.regular.valid h.self).session defined

theorem Steady.reset (fits : ∀ t ∈ ts, t.fits) (h : Steady preambleBytes ts s) :
    Steady preambleBytes ts s.fastSessionReset where
  regular := h.regular.reset
  tidy := h.tidy.reset
  nrBytes := h.nrBytes
  loaded := h.loaded
  self :=
    { h.self with
      buffer := rfl, id := .inl rfl
      left := (reset_length s).trans h.self.left, right := (reset_length s).trans h.self.left
      messages := fun i k m m' hk hm hm' => by
        obtain rfl := Option.some.inj (hm.symm.trans hm')
        obtain ⟨n, here, rfl⟩ := slot_reset fits h hk hm
        obtain ⟨t, fits, rfl, -⟩ := slot_init fits hk
        exact (message_reset_alike fits (h.self.messages i _ n n hk here here)).mono False.elim }

/-- The invariant of a session in use. -/
theorem Used.steady (fits : ∀ t ∈ ts, t.fits) (h : Used preambleBytes ts s) : Steady preambleBytes ts s := by
  induction h with
  | opened => exact new_session_steady fits
  | received x _ ih => exact ih.withBuffer (ih.regular.receive x).valid
  | compacted _ ih => exact ih.withBuffer ih.regular.valid.compact.1
  | decoded defined _ ih => exact ih.decode defined
  | reset _ ih => exact ih.reset fits

end Steps

/-! ## After a reset -/

namespace Session

/-- No message is under way. -/
structure Boundary (s : Session) : Prop where
  preamble : s.preamble.isValid = false
  map : s.pmap.isValid = false
  template : s.rxMessage = none

instance (s : Session) : Decidable s.Boundary :=
  decidable_of_iff (s.preamble.isValid = false ∧ s.pmap.isValid = false ∧ s.rxMessage = none)
    ⟨fun h => ⟨h.1, h.2.1, h.2.2⟩, fun h => ⟨h.1, h.2, h.3⟩⟩

/-- A reset forgets every field of every template. -/
def forgotten (s : Session) : Bool := s.rxMessages.all Message.forgotten

end Session

section Reset
variable {preambleBytes : Nat} {ts : List Template} {s : Session} {rest : List UInt8}

/-- Between two messages, a session whose fields are forgotten decodes after a reset like a new one with its bytes. -/
theorem reset_fresh_alike (fits : ∀ t ∈ ts, t.fits) (h : Steady preambleBytes ts s) (boundary : s.Boundary)
    (forgotten : s.forgotten = true) (named : ExplicitId preambleBytes (s.rxBuffer.unread ++ rest)) :
    Session.Alike (newSession preambleBytes ts).rxMessages rest (s.fastSessionReset.withBytes s.rxBuffer.unread)
      ((newSession preambleBytes ts).withBytes s.rxBuffer.unread) := by
  have fresh := h.tidy.fresh boundary.preamble boundary.map
  refine
    { buffer := rfl, template := boundary.template, preamble := boundary.preamble, nrBytes := h.nrBytes
      valid := boundary.map, size := ⟨h.self.size.1, List.length_replicate⟩
      map := fun valid => ?_, bit := fun valid => ?_, idle := fun _ => boundary.template
      id := .inr (.ahead boundary.map ?_)
      left := (reset_length s).trans h.self.left, right := rfl, messages := fun i k m m' hk hm hm' => ?_ }
  · cases boundary.map.symm.trans valid
  · cases boundary.map.symm.trans valid
  · have invalid : (s.fastSessionReset.withBytes s.rxBuffer.unread).preamble.isValid = false := boundary.preamble
    have unread : (s.fastSessionReset.withBytes s.rxBuffer.unread).rxBuffer.unread = s.rxBuffer.unread :=
      holding_unread _
    rw [invalid, unread, if_neg Bool.false_ne_true]
    show ExplicitId s.preamble.nrBytes (s.rxBuffer.unread ++ rest)
    rw [h.nrBytes]
    exact named
  · obtain rfl := Option.some.inj (hk.symm.trans hm')
    obtain ⟨n, here, rfl⟩ := slot_reset fits h hk hm
    obtain ⟨t, fits, rfl, -⟩ := slot_init fits hk
    have inside := List.mem_of_getElem? here
    obtain ⟨decoded, idle⟩ := fresh.messages n inside
    have forgotten := List.all_eq_true.1 forgotten n inside
    exact (message_reset_fresh fits (h.self.messages i _ n n hk here here) decoded idle forgotten).mono False.elim

/-- **A reset session.** Between two messages, and where all fields are forgotten, the calls after a reset return what
they return on a new session with the same templates and the same bytes. -/
theorem reset_as_new (preambleBytes : Nat) (ts : List Template) (fits : ∀ t ∈ ts, t.fits) (s : Session)
    (used : Used preambleBytes ts s) (boundary : s.Boundary) (forgotten : s.forgotten = true) (calls : List SessionCall)
    (plain : .reset ∉ calls) (named : ExplicitId preambleBytes (s.rxBuffer.unread ++ arriving calls)) :
    s.fastSessionReset.results calls = ((newSession preambleBytes ts).receive s.rxBuffer.unread).results calls := by
  have steady := used.steady fits
  have new := new_session_regular preambleBytes ts
  have left := steady.regular.reset.withBytes s.rxBuffer.unread
  have right := new.withBytes s.rxBuffer.unread
  have empty : (newSession preambleBytes ts).rxBuffer.unread = [] := rfl
  have packed : (s.fastSessionReset.withBytes s.rxBuffer.unread).packed = s.fastSessionReset.packed := by
    simp only [Session.packed, Session.withBytes, holding_unread]
    rfl
  have packed' : ((newSession preambleBytes ts).withBytes s.rxBuffer.unread).packed =
      ((newSession preambleBytes ts).receive s.rxBuffer.unread).packed := by
    rw [Session.packed_receive new.valid, Session.packed, Session.packed, Session.with_bytes_receive, empty]
    simp only [Session.withBytes, holding_unread, List.nil_append]
  calc s.fastSessionReset.results calls
      = (s.fastSessionReset.withBytes s.rxBuffer.unread).results calls :=
      results_packed steady.regular.reset left packed.symm
    _ = ((newSession preambleBytes ts).withBytes s.rxBuffer.unread).results calls :=
      results_alike left (reset_fresh_alike fits steady boundary forgotten named) plain
    _ = ((newSession preambleBytes ts).receive s.rxBuffer.unread).results calls :=
      results_packed right (new.receive _) packed'

end Reset

/-- A template with a number that is copied, with an initial value or without one. -/
def copyTemplate (initial : Option U64) : Template where
  name := "Copy"
  tid := 5
  flagReset := true
  fields := [.elem (.uint ⟨"Number", .mandatory, .copy, initial⟩)]

theorem copy_template_fits (initial : Option U64) : ∀ t ∈ [copyTemplate initial], t.fits := by
  intro t ht f hf
  obtain rfl := List.mem_singleton.1 ht
  obtain rfl := List.mem_singleton.1 hf
  trivial

/-- A map of one byte that names the template. -/
theorem explicit_byte {n : Nat} {u : List UInt8} {c : UInt8} (first : u[n]? = some c) (bit : (c &&& 0x40 != 0) = true)
    (stop : isStop c = true) : ExplicitId n u where
  bit d hd := by
    obtain rfl := Option.some.inj (first.symm.trans hd)
    exact bit
  ends _ := ⟨0, c, by decide, first, stop⟩

/-- A session that has returned a message with the number 7. -/
def copied (initial : Option U64) : Session :=
  ((newSession 0 [copyTemplate initial]).receive [0xE0, 0x85, 0x87]).fastMessageDecode.session

theorem copied_used (initial : Option U64) (defined : ((newSession 0 [copyTemplate initial]).receive
    [0xE0, 0x85, 0x87]).fastMessageDecode.ret ≠ .fault) : Used 0 [copyTemplate initial] (copied initial) :=
  .decoded defined (.received _ .opened)

/-- With an initial value the number is forgotten. -/
theorem initial_as_new : (copied (some 3)).fastSessionReset.results [.receive [0xC0, 0x85], .decode] =
    ((newSession 0 [copyTemplate (some 3)]).receive (copied (some 3)).rxBuffer.unread).results
      [.receive [0xC0, 0x85], .decode] :=
  reset_as_new 0 [copyTemplate (some 3)] (copy_template_fits _) (copied (some 3)) (copied_used _ (by decide +kernel))
    (by decide +kernel) (by decide +kernel) [.receive [0xC0, 0x85], .decode] (by decide)
    (@explicit_byte _ _ 0xC0 (by decide +kernel) (by decide) (by decide))

/-- **A number that is not forgotten.** Without an initial value a reset leaves the state of a copied number: a message
without it is returned with the number 0, where a new session refuses it. -/
theorem copied_not_forgotten : ¬∀ (preambleBytes : Nat) (ts : List Template) (s : Session), (∀ t ∈ ts, t.fits) →
    Used preambleBytes ts s → s.Boundary → ∀ calls : List SessionCall, .reset ∉ calls →
      ExplicitId preambleBytes (s.rxBuffer.unread ++ arriving calls) →
        s.fastSessionReset.results calls = ((newSession preambleBytes ts).receive s.rxBuffer.unread).results calls := by
  intro always
  have named : ExplicitId 0 ((copied none).rxBuffer.unread ++ arriving [.receive [0xC0, 0x85], .decode]) :=
    @explicit_byte _ _ 0xC0 (by decide +kernel) (by decide) (by decide)
  have same := always 0 [copyTemplate none] (copied none) (copy_template_fits _) (copied_used _ (by decide +kernel))
    (by decide +kernel) [.receive [0xC0, 0x85], .decode] (by decide) named
  exact absurd same (by decide +kernel)

end Libtrading.Fast
