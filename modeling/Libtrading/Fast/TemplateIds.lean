import Libtrading.Fast.Session

/-!
# The template that an id names

A message names its template by an id of 64 bits, or goes by the template of the message before it. The
lookup narrows the id to an `int` and runs over all slots, also those that hold no template, whose id
is 0; a session that returned no message yet goes by the id 0 too.
-/

namespace Libtrading.Fast
set_option autoImplicit false
open Buffer

/-! ## The id of a call -/

namespace Session

/-- The session where the id of a message is read, in a call that comes so far. -/
def atId (s : Session) : Option Session :=
  let t := Stage.andThen decodePreamble decodePmap s
  if t.ret = .ok ∧ t.session.rxMessage = none then some t.session else none

/-- The id that a call finds the template by, where it looks for one: the id on the wire, or none with
presence bit 0 clear. -/
def wireId (s : Session) : Option (Option U64) :=
  match s.atId with
  | none => none
  | some s =>
    if ({ s.pmap with pmapBit := 0 } : Pmap).pmapIsSet then
      match parseUint s.rxBuffer with
      | .done tid _ => some (some tid)
      | .fail .. => none
    else some none

end Session

theorem and_then_assoc (first next last : Session → Stage) :
    Stage.andThen first (Stage.andThen next last) = Stage.andThen (Stage.andThen first next) last := by
  funext s
  unfold Stage.andThen
  by_cases ok : (first s).ret = .ok
  · simp only [if_neg (not_not_intro ok)]
  · simp only [if_pos ok]

/-- The preamble and the presence map leave the message under way and the last id. -/
theorem before_id_keeps (s : Session) :
    (Stage.andThen Session.decodePreamble Session.decodePmap s).session.rxMessage = s.rxMessage ∧
      (Stage.andThen Session.decodePreamble Session.decodePmap s).session.lastTid = s.lastTid ∧
      (Stage.andThen Session.decodePreamble Session.decodePmap s).session.rxMessages = s.rxMessages := by
  have preamble (s : Session) : s.decodePreamble.session.rxMessage = s.rxMessage ∧
      s.decodePreamble.session.lastTid = s.lastTid ∧ s.decodePreamble.session.rxMessages = s.rxMessages := by
    unfold Session.decodePreamble
    split
    · split <;> exact ⟨rfl, rfl, rfl⟩
    · exact ⟨rfl, rfl, rfl⟩
  have pmap (s : Session) : s.decodePmap.session.rxMessage = s.rxMessage ∧
      s.decodePmap.session.lastTid = s.lastTid ∧ s.decodePmap.session.rxMessages = s.rxMessages := by
    unfold Session.decodePmap
    split
    · split <;> exact ⟨rfl, rfl, rfl⟩
    · exact ⟨rfl, rfl, rfl⟩
  unfold Stage.andThen
  split
  · exact preamble s
  · obtain ⟨message, tid, messages⟩ := pmap s.decodePreamble.session
    obtain ⟨message', tid', messages'⟩ := preamble s
    exact ⟨message.trans message', tid.trans tid', messages.trans messages'⟩

theorem header_last_tid (s : Session) : s.decodeHeader.session.lastTid = s.lastTid := by
  obtain ⟨-, last, -⟩ := before_id_keeps s
  rw [Session.decodeHeader, and_then_assoc, Stage.andThen]
  split
  · exact last
  · rw [← last]
    unfold Session.decodeTid Session.chooseTemplate
    split
    · rfl
    · split
      · rfl
      · rfl
      · split <;> rfl

/-- A call that looks for no template leaves the message under way. -/
theorem header_chooses_none {s : Session} (none' : s.wireId = none) :
    s.decodeHeader.session.rxMessage = s.rxMessage := by
  obtain ⟨message, last, messages⟩ := before_id_keeps s
  rw [Session.wireId, Session.atId] at none'
  rw [Session.decodeHeader, and_then_assoc, Stage.andThen]
  generalize Stage.andThen Session.decodePreamble Session.decodePmap s = t at none' message last messages ⊢
  by_cases ok : t.ret = .ok
  · rw [if_neg (not_not_intro ok)]
    cases under : t.session.rxMessage with
    | some i => rw [tid_passed under, under, ← message, under]
    | none =>
      simp only [ok, under, and_self, if_true] at none'
      split at none'
      · rename_i set
        split at none'
        · cases none'
        · rename_i ret b fails
          have read : t.session.readTid = .fail ret b := by rw [Session.readTid, if_pos set, fails]
          rw [← message, under]
          by_cases short : ret = .msgPartial
          · subst short
            simp only [Session.decodeTid, under, read]
          · rw [tid_refused under read short]
            exact under
      · cases none'
  · rw [if_pos ok]
    exact message

/-- A call that looks for a template finds it, or fails. -/
theorem header_chooses {s : Session} {id : Option U64} (named : s.wireId = some id) :
    match fastGetMsg s.rxMessages (id.getD s.lastTid) with
    | none => s.decodeHeader.ret = .garbled ∧ s.decodeHeader.session.rxMessage = none
    | some i => s.decodeHeader.ret = .ok ∧ s.decodeHeader.session.rxMessage = some i := by
  obtain ⟨message, last, messages⟩ := before_id_keeps s
  rw [Session.wireId, Session.atId] at named
  rw [Session.decodeHeader, and_then_assoc, Stage.andThen]
  generalize Stage.andThen Session.decodePreamble Session.decodePmap s = t at named message last messages ⊢
  by_cases here : t.ret = .ok ∧ t.session.rxMessage = none
  · obtain ⟨ok, under⟩ := here
    simp only [ok, under, and_self, if_true] at named
    have read : ∃ b, t.session.readTid = .done (id.getD s.lastTid) b := by
      rw [Session.readTid]
      split at named
      · rename_i set
        rw [if_pos set]
        split at named
        · rename_i tid b done
          cases named
          exact ⟨b, done⟩
        · cases named
      · rename_i clear
        rw [if_neg clear]
        cases named
        exact ⟨_, by rw [last]; rfl⟩
    obtain ⟨b, read⟩ := read
    rw [if_neg (not_not_intro ok), tid_read under read, Session.chooseTemplate, messages]
    cases fastGetMsg s.rxMessages (id.getD s.lastTid) with
    | none => exact ⟨rfl, under⟩
    | some i => exact ⟨rfl, rfl⟩
  · simp only [if_neg here] at named
    cases named

/-! ## Slots -/

/-- The ids of the slots: those of the loaded templates, and 0 where there is none. -/
def slotIds (ts : List Template) : List U64 :=
  ts.map Template.tid ++ List.replicate (templateMaxNumber - ts.length) 0

theorem new_session_ids (preambleBytes : Nat) (ts : List Template) :
    (newSession preambleBytes ts).rxMessages.map Message.tid = slotIds ts := by
  simp only [newSession, slotIds, List.map_append, List.map_map, List.map_replicate]
  rfl

/-- Storing a message of the same id leaves the ids. -/
theorem ids_set {ms : List Message} {i : Nat} {m m' : Message} (hi : ms[i]? = some m) (tid : m'.tid = m.tid) :
    (ms.set i m').map Message.tid = ms.map Message.tid := by
  have same : (ms.map Message.tid)[i]? = some m'.tid := by rw [List.getElem?_map, hi, tid]; rfl
  rw [List.map_set]
  refine List.ext_getElem? fun j => ?_
  rw [List.getElem?_set]
  split
  · rename_i here
    subst here
    rw [same, if_pos (List.getElem?_eq_some_iff.1 same).1]
  · rfl

theorem reset_ids (s : Session) : s.fastSessionReset.rxMessages.map Message.tid = s.rxMessages.map Message.tid := by
  refine List.ext_getElem? fun i => ?_
  rw [List.getElem?_map, List.getElem?_map, Session.reset_slot, Option.map_map]
  refine congrArg (Option.map · _) (funext fun m => ?_)
  simp only [Function.comp_apply]
  split <;> rfl

/-- What a lookup by the id finds in slots with the given ids. -/
theorem get_msg_ids {ms : List Message} {ids : List U64} (same : ms.map Message.tid = ids) (tid : U64) :
    fastGetMsg ms tid = ids.findIdx? (· == narrowTid tid) := by
  rw [← same, List.findIdx?_map]
  rfl

/-- The first slots are those of the templates. -/
theorem loaded_slot {ts : List Template} {i : Nat} {t : Template} (at' : ts[i]? = some t) :
    (slotIds ts)[i]? = some t.tid := by
  have inside : i < (ts.map Template.tid).length := by
    rw [List.length_map]
    exact (List.getElem?_eq_some_iff.1 at').1
  rw [slotIds, List.getElem?_append_left inside, List.getElem?_map, at']
  rfl

/-- The id of a loaded template leads to a loaded template with this id. -/
theorem loaded_first {ts : List Template} {v : U64} {i : Nat} (loaded : ∃ t ∈ ts, t.tid = v)
    (found : (slotIds ts).findIdx? (· == v) = some i) : ∃ t, ts[i]? = some t ∧ t.tid = v := by
  obtain ⟨t, mem, rfl⟩ := loaded
  obtain ⟨j, lt, rfl⟩ := List.mem_iff_getElem.1 mem
  obtain ⟨inside, same, before⟩ := List.findIdx?_eq_some_iff_getElem.1 found
  have at' (k : Nat) (h : k < ts.length) (h' : k < (slotIds ts).length) : (slotIds ts)[k] = ts[k].tid := by
    simp only [slotIds]
    rw [List.getElem_append_left (by rw [List.length_map]; exact h), List.getElem_map]
  have first : i ≤ j := by
    by_contra later
    have := before j (by omega)
    rw [at' j lt (by omega)] at this
    exact this (beq_self_eq_true _)
  have i_lt : i < ts.length := by omega
  refine ⟨ts[i], List.getElem?_eq_getElem i_lt, ?_⟩
  rw [← at' i i_lt inside]
  exact beq_iff_eq.1 same

/-! ## A call -/

/-- A call that returns no message. -/
structure ReturnsNone (s : Session) : Prop where
  msg : s.fastMessageDecode.msg = none
  under : s.fastMessageDecode.session.rxMessage = s.decodeHeader.session.rxMessage
  last : s.fastMessageDecode.session.lastTid = s.lastTid

/-- A call that returns the message in slot `i`. -/
structure ReturnsSlot (s : Session) (i : Nat) (m : Message) : Prop where
  msg : s.fastMessageDecode.msg = some m
  chosen : s.decodeHeader.session.rxMessage = some i
  slot : s.fastMessageDecode.session.rxMessages[i]? = some m
  tid : (s.rxMessages.map Message.tid)[i]? = some m.tid
  under : s.fastMessageDecode.session.rxMessage = none
  last : s.fastMessageDecode.session.lastTid = m.tid

/-- A call returns nothing or the message of its slot, and leaves the ids of the slots. -/
theorem decode_returns (s : Session) :
    s.fastMessageDecode.session.rxMessages.map Message.tid = s.rxMessages.map Message.tid ∧
      (ReturnsNone s ∨ ∃ i m, ReturnsSlot s i m) := by
  have templates := stage_header.templates s
  have last := header_last_tid s
  obtain ⟨ret, call, -, -⟩ | ⟨i, m, -, chosen, slot, call⟩ := decode_cases s
  · exact ⟨by rw [call, templates], .inl ⟨by rw [call], by rw [call], by rw [call, last]⟩⟩
  · rw [Session.decodeMessage] at call
    generalize s.decodeHeader.session.messageFields m = r at call
    have inside : i < s.decodeHeader.session.rxMessages.length := (List.getElem?_eq_some_iff.1 slot).1
    by_cases fields : r.ret = .ok
    · rw [Session.finishMessage] at call
      simp only [fields] at call
      refine ⟨?_, .inr ⟨i, { m with decoded := 0, fields := r.fields }, ?_, chosen, ?_, ?_, ?_, ?_⟩⟩
      · rw [call, ← templates]
        exact ids_set slot rfl
      · rw [call]
      · rw [call]
        exact List.getElem?_set_self inside
      · rw [← templates, List.getElem?_map, slot]
        rfl
      · rw [call]
      · rw [call]
    · rw [finish_message_failed fields] at call
      refine ⟨?_, .inl ⟨by rw [call], by rw [call], by rw [call, last]⟩⟩
      rw [call, ← templates]
      exact ids_set slot rfl

/-! ## Runs -/

/-- What the user of a session does with it, and what arrives. -/
inductive SessionCall where
  | receive (x : List UInt8)
  | compact
  | decode
  | reset
  deriving DecidableEq, Repr

/-- A session, with the id that the message under way was named by and the message returned last. -/
structure Followed where
  session : Session
  id : Option U64
  last : Option Message

namespace Followed

/-- The id that a call names its message by: the one on the wire, that of the message returned last, or the
one by which the message under way was named. -/
def named (f : Followed) : Option U64 :=
  match f.session.wireId with
  | none => f.id
  | some (some tid) => some tid
  | some none => f.last.map Message.tid

def step (f : Followed) : SessionCall → Followed
  | .receive x => { f with session := f.session.receive x }
  | .compact => { f with session := { f.session with rxBuffer := f.session.rxBuffer.bufferCompact } }
  | .decode => ⟨f.session.fastMessageDecode.session, f.named, f.session.fastMessageDecode.msg.or f.last⟩
  | .reset => { f with session := f.session.fastSessionReset }

/-- A session opened with templates, and used. -/
def run (preambleBytes : Nat) (ts : List Template) (calls : List SessionCall) : Followed :=
  calls.foldl step ⟨newSession preambleBytes ts, none, none⟩

/-- What a call of `fast_message_decode` decodes and returns is the template that is named, or nothing. -/
structure AsNamed (ts : List Template) (f : Followed) : Prop where
  decodes : ∀ i, f.session.decodeHeader.session.rxMessage = some i →
    ∃ t, ts[i]? = some t ∧ f.named = some t.tid
  returns : ∀ m, f.session.fastMessageDecode.msg = some m →
    ∃ (i : Nat) (t : Template), ts[i]? = some t ∧ f.session.fastMessageDecode.session.rxMessages[i]? = some m ∧
      m.tid = t.tid ∧ f.named = some t.tid
  refuses : f.session.wireId ≠ none → (∀ t ∈ ts, f.named ≠ some t.tid) →
    f.session.fastMessageDecode.msg = none ∧ f.session.fastMessageDecode.ret = .garbled

/-- The id a call looks for a template by is, as an `int`, that of no slot, or it is the id of a template;
with presence bit 0 clear a message was returned before, or no slot has the id 0. -/
def Fits (ts : List Template) (f : Followed) : Prop :=
  match f.session.wireId with
  | none => True
  | some (some tid) => narrowTid tid ∈ slotIds ts → narrowTid tid = tid ∧ ∃ t ∈ ts, t.tid = tid
  | some none => f.last = none → 0 ∉ slotIds ts

/-- The ids of the slots, and the last id. -/
structure Tracks (ts : List Template) (f : Followed) : Prop where
  ids : f.session.rxMessages.map Message.tid = slotIds ts
  last : f.session.lastTid = (f.last.map Message.tid).getD 0

/-- The message under way and the one returned last have the ids of loaded templates. -/
structure Loaded (ts : List Template) (f : Followed) : Prop where
  under : ∀ i, f.session.rxMessage = some i →
    ∃ t, ts[i]? = some t ∧ f.id = some t.tid ∧ narrowTid t.tid = t.tid
  last : ∀ m, f.last = some m → narrowTid m.tid = m.tid ∧ ∃ t ∈ ts, t.tid = m.tid

variable {ts : List Template} {f : Followed}

theorem Tracks.step (h : Tracks ts f) (c : SessionCall) : Tracks ts (f.step c) := by
  cases c with
  | receive x => exact ⟨h.ids, h.last⟩
  | compact => exact ⟨h.ids, h.last⟩
  | reset => exact ⟨(reset_ids f.session).trans h.ids, h.last⟩
  | decode =>
    obtain ⟨ids, outcome⟩ := decode_returns f.session
    refine ⟨ids.trans h.ids, ?_⟩
    rcases outcome with none' | ⟨i, m, slot⟩
    · simp only [Followed.step, none'.last, none'.msg, Option.none_or]
      exact h.last
    · simp only [Followed.step, slot.last, slot.msg, Option.some_or, Option.map_some, Option.getD_some]

/-- Where the ids fit, the template of a call is the one that is named. -/
theorem chosen_named (h : Tracks ts f) (loaded : Loaded ts f) (fits : f.Fits ts) (i : Nat)
    (chosen : f.session.decodeHeader.session.rxMessage = some i) :
    ∃ t, ts[i]? = some t ∧ f.named = some t.tid ∧ narrowTid t.tid = t.tid := by
  unfold Fits at fits
  unfold named
  cases wire : f.session.wireId with
  | none =>
    rw [header_chooses_none wire] at chosen
    exact loaded.under i chosen
  | some id =>
    have found : (slotIds ts).findIdx? (· == narrowTid (id.getD f.session.lastTid)) = some i := by
      have chooses := header_chooses wire
      rw [get_msg_ids h.ids] at chooses
      split at chooses
      · rw [chooses.2] at chosen
        cases chosen
      · rename_i j found
        rw [chooses.2] at chosen
        rw [found, chosen]
    have mem : narrowTid (id.getD f.session.lastTid) ∈ slotIds ts := by
      obtain ⟨inside, same, -⟩ := List.findIdx?_eq_some_iff_getElem.1 found
      exact beq_iff_eq.1 same ▸ List.getElem_mem inside
    rw [wire] at fits
    cases id with
    | some tid =>
      obtain ⟨narrow, template⟩ := fits mem
      rw [Option.getD_some, narrow] at found
      obtain ⟨t, at', rfl⟩ := loaded_first template found
      exact ⟨t, at', rfl, narrow⟩
    | none =>
      rw [Option.getD_none, h.last] at found mem
      cases last : f.last with
      | none =>
        rw [last] at mem
        exact absurd mem (fits last)
      | some m =>
        obtain ⟨narrow, template⟩ := loaded.last m last
        rw [last, Option.map_some, Option.getD_some, narrow] at found
        obtain ⟨t, at', same⟩ := loaded_first template found
        refine ⟨t, at', ?_, same ▸ narrow⟩
        rw [same]
        rfl

theorem Loaded.decode (h : Tracks ts f) (loaded : Loaded ts f) (fits : f.Fits ts) : Loaded ts (f.step .decode) := by
  have chosen := chosen_named h loaded fits
  obtain ⟨-, outcome⟩ := decode_returns f.session
  rcases outcome with none' | ⟨i, m, slot⟩
  · refine ⟨fun i under => ?_, fun m last => ?_⟩
    · exact chosen i (none'.under ▸ under)
    · simp only [step, none'.msg, Option.none_or] at last
      exact loaded.last m last
  · obtain ⟨t, at', named, narrow⟩ := chosen i slot.chosen
    have same : m.tid = t.tid := by
      have tid := slot.tid
      rw [h.ids, loaded_slot at'] at tid
      exact (Option.some.inj tid).symm
    refine ⟨fun i under => ?_, fun m' last => ?_⟩
    · simp only [step, slot.under] at under
      cases under
    · simp only [step, slot.msg, Option.some_or] at last
      cases last
      exact ⟨same ▸ narrow, t, List.mem_of_getElem? at', same.symm⟩

theorem Loaded.step (h : Tracks ts f) (loaded : Loaded ts f) (c : SessionCall) (fits : c = .decode → f.Fits ts) :
    Loaded ts (f.step c) := by
  cases c with
  | decode => exact loaded.decode h (fits rfl)
  | receive x => exact ⟨loaded.under, loaded.last⟩
  | compact => exact ⟨loaded.under, loaded.last⟩
  | reset => exact ⟨loaded.under, loaded.last⟩

/-- Where the ids fit, a call decodes what they name. -/
theorem as_named (h : Tracks ts f) (loaded : Loaded ts f) (fits : f.Fits ts) : AsNamed ts f := by
  have chosen := chosen_named h loaded fits
  refine ⟨fun i under => ?_, fun m returned => ?_, fun looks unknown => ?_⟩
  · obtain ⟨t, at', named, -⟩ := chosen i under
    exact ⟨t, at', named⟩
  · obtain ⟨-, none' | ⟨i, m', slot⟩⟩ := decode_returns f.session
    · rw [none'.msg] at returned
      cases returned
    · obtain rfl : m' = m := Option.some.inj (slot.msg.symm.trans returned)
      obtain ⟨t, at', named, narrow⟩ := chosen i slot.chosen
      have tid := slot.tid
      rw [h.ids, loaded_slot at'] at tid
      exact ⟨i, t, at', slot.slot, (Option.some.inj tid).symm, named⟩
  · obtain ⟨id, wire⟩ := Option.ne_none_iff_exists'.1 looks
    have chooses := header_chooses wire
    split at chooses
    · have stopped := decode_stopped (s := f.session) (by rw [chooses.1]; decide)
      rw [stopped]
      exact ⟨rfl, chooses.1⟩
    · rename_i i _
      obtain ⟨t, at', named, -⟩ := chosen i chooses.2
      exact absurd named (unknown t (List.mem_of_getElem? at'))

/-- Where a call decodes what the ids name, they fit. -/
theorem fits_of_named (h : Tracks ts f) (named : AsNamed ts f) : f.Fits ts := by
  unfold Fits
  cases wire : f.session.wireId with
  | none => trivial
  | some id =>
    have found {v : U64} (same : narrowTid (id.getD f.session.lastTid) = v) (mem : v ∈ slotIds ts) :
        ∃ (i : Nat) (t : Template), (slotIds ts)[i]? = some v ∧ ts[i]? = some t ∧ f.named = some t.tid := by
      have chooses := header_chooses wire
      rw [get_msg_ids h.ids, same] at chooses
      split at chooses
      · rename_i none'
        have := List.findIdx?_eq_none_iff.1 none' v mem
        simp at this
      · rename_i i found
        obtain ⟨inside, slot, -⟩ := List.findIdx?_eq_some_iff_getElem.1 found
        obtain ⟨t, at', tid⟩ := named.decodes i chooses.2
        exact ⟨i, t, by rw [List.getElem?_eq_getElem inside, beq_iff_eq.1 slot], at', tid⟩
    cases id with
    | some tid =>
      intro mem
      obtain ⟨i, t, slot, at', same⟩ := found rfl mem
      rw [Followed.named, wire] at same
      have tid_eq : tid = t.tid := Option.some.inj same
      rw [loaded_slot at'] at slot
      exact ⟨(Option.some.inj slot).symm.trans tid_eq.symm, t, List.mem_of_getElem? at', tid_eq.symm⟩
    | none =>
      intro last mem
      obtain ⟨i, t, -, -, same⟩ := found (v := 0) (by rw [Option.getD_none, h.last, last]; rfl) mem
      rw [Followed.named, wire, last] at same
      cases same

/-- Calls whose ids fit decode what they name, one after the other. -/
theorem run_as_named (calls : List SessionCall) (h : Tracks ts f) (loaded : Loaded ts f)
    (fits : ∀ done rest, calls = done ++ .decode :: rest → (done.foldl step f).Fits ts) :
    ∀ done rest, calls = done ++ .decode :: rest → AsNamed ts (done.foldl step f) := by
  induction calls generalizing f with
  | nil => exact fun done rest same => by simp at same
  | cons c calls ih =>
    intro done rest same
    cases done with
    | nil =>
      cases same
      exact as_named h loaded (fits [] calls rfl)
    | cons d done =>
      obtain ⟨rfl, rfl⟩ := List.cons.inj same
      have first : c = .decode → f.Fits ts := fun here => fits [] _ (by rw [here]; rfl)
      exact ih (h.step c) (loaded.step h c first) (fun done' rest' same' => fits (c :: done') rest' (by rw [same']; rfl))
        done rest rfl

theorem run_tracks (preambleBytes : Nat) (ts : List Template) (calls : List SessionCall) :
    Tracks ts (run preambleBytes ts calls) := by
  suffices h : ∀ f, Tracks ts f → Tracks ts (calls.foldl step f) from
    h _ ⟨new_session_ids preambleBytes ts, rfl⟩
  induction calls with
  | nil => exact fun f h => h
  | cons c calls ih => exact fun f h => ih (f.step c) (h.step c)

/-- **Templates are the named ones.** In every use of a session, all calls of `fast_message_decode` decode
and return the loaded template with the id on the wire, or, with presence bit 0 clear, with the id of the
message returned last, and refuse an id that names none: if and only if every id that is looked for fits. -/
theorem as_named_iff (preambleBytes : Nat) (ts : List Template) (calls : List SessionCall) :
    (∀ done rest, calls = done ++ .decode :: rest → AsNamed ts (run preambleBytes ts done)) ↔
      ∀ done rest, calls = done ++ .decode :: rest → (run preambleBytes ts done).Fits ts := by
  constructor
  · intro named done rest same
    exact fits_of_named (run_tracks preambleBytes ts done) (named done rest same)
  · refine run_as_named calls ⟨new_session_ids preambleBytes ts, rfl⟩ ⟨fun _ under => ?_, fun _ last => ?_⟩
    · cases under
    · cases last

end Followed

/-! ## One template -/

/-- A template without fields. -/
def bareTemplate (tid : U64) : Template := ⟨"", tid, false, []⟩

/-- A session with the template, behind some bytes. -/
def bareRun (bytes : List UInt8) : Followed := .run 0 [bareTemplate 1] [.receive bytes]

/-- **Other templates.** With one template loaded, of the id 1, a message of the id `2 ^ 32 + 1` is returned
as one of this template. A message of the id 0, and a first message without an id, are returned from a slot
in which no template was loaded. -/
theorem other_template :
    ((bareRun [0xC0, 0x10, 0x00, 0x00, 0x00, 0x81]).named = some (2 ^ 32 + 1) ∧
      (bareRun [0xC0, 0x10, 0x00, 0x00, 0x00, 0x81]).session.fastMessageDecode.msg = some (messageInit (bareTemplate 1)) ∧
      ¬(bareRun [0xC0, 0x10, 0x00, 0x00, 0x00, 0x81]).AsNamed [bareTemplate 1]) ∧
    ((bareRun [0xC0, 0x80]).session.fastMessageDecode.msg = some emptySlot ∧
      ¬(bareRun [0xC0, 0x80]).AsNamed [bareTemplate 1]) ∧
    ((bareRun [0x80]).session.fastMessageDecode.msg = some emptySlot ∧
      ¬(bareRun [0x80]).AsNamed [bareTemplate 1]) := by
  refine ⟨⟨by decide +kernel, by decide +kernel, fun named => ?_⟩, ⟨by decide +kernel, fun named => ?_⟩,
    by decide +kernel, fun named => ?_⟩
  · obtain ⟨t, at', same⟩ := named.decodes 0 (by decide +kernel)
    cases at'
    exact absurd same (by decide +kernel)
  · obtain ⟨t, at', -⟩ := named.decodes 1 (by decide +kernel)
    cases at'
  · obtain ⟨t, at', -⟩ := named.decodes 1 (by decide +kernel)
    cases at'

end Libtrading.Fast
