import Libtrading.Fast.FailedEncode

/-!
# Messages that are not sent

A message that `fast_message_encode` refuses is never seen by the decoder. Where it leaves the previous values and states
as they were, the two sides are in step behind it as before, and every message that is sent later is decoded to what was
set. A field that was never encoded is to stay `UNDEFINED` meanwhile, as the encoder sends it whole for that.
-/

namespace Libtrading.Fast
set_option autoImplicit false
open Buffer Pmap

/-! ## One field -/

section
variable {α : Type} {C : Codec α} {f f' g fe fd : Field α} {b : Buffer} {p : Pmap}

/-- A field that was never encoded has no previous state. -/
def Field.Fresh (f : Field α) : Prop := f.state = .undefined → f.statePrevious = .undefined

/-- The setting does not mark a field `EMPTY` that was never encoded and that the encoder may leave off the wire. -/
def Field.Marks (f : Field α) (s : Setting α) : Prop :=
  f.op = .copy ∨ f.op = .incr → f.state = .undefined → s ≠ .null

/-- What the application did to a field: nothing, or a setting. -/
structure Field.Touched (f f' : Field α) : Prop where
  template : f.SameTemplate f'
  previous : f'.previous = f.previous
  statePrevious : f'.statePrevious = f.statePrevious
  first : f.op = .copy ∨ f.op = .incr → f.state = .undefined → f'.state = .undefined
  fresh : f'.state = .undefined → f.state = .undefined

theorem touched_self (f : Field α) : f.Touched f := ⟨⟨rfl, rfl, rfl, rfl⟩, rfl, rfl, fun _ h => h, fun h => h⟩

/-- A value that is set leaves `UNDEFINED` only what was `UNDEFINED`. -/
theorem set_undefined (K : Kind α) {s : Setting α} (now : (f.set K s).state = .undefined) : f.state = .undefined := by
  cases s with
  | null => cases now
  | value v =>
    by_contra assigned
    have state : (f.set K (.value v)).state = .assigned := if_neg assigned
    rw [state] at now
    cases now

/-- A setting touches the value and the state. -/
theorem set_touched (K : Kind α) {s : Setting α} (marks : f.Marks s) : f.Touched (f.set K s) := by
  have fresh := set_undefined (f := f) K (s := s)
  cases s with
  | null => exact ⟨⟨rfl, rfl, rfl, rfl⟩, rfl, rfl, fun op first => absurd rfl (marks op first), fresh⟩
  | value v => exact ⟨⟨rfl, rfl, rfl, rfl⟩, rfl, rfl, fun _ first => if_pos first, fresh⟩

/-- A field that was never encoded is not encoded by a setting. -/
theorem Field.Fresh.set (K : Kind α) (fresh : f.Fresh) (s : Setting α) : (f.set K s).Fresh := by
  intro now
  have same := fresh (set_undefined K now)
  cases s with
  | null => exact same
  | value v => exact same

/-- What a switch leaves: the template, and of a field that is still `UNDEFINED` everything. -/
structure Leaves (f : Field α) (s : Switched α) : Prop where
  template : f.SameTemplate s.field
  undefined : s.field.state = .undefined → s.field = f ∧ (s.label = .done ∨ s.label = .fail)

theorem is_null_empty (null : f.isNull = true) : f.state = .empty := by
  rw [Field.isNull, Bool.and_eq_true] at null
  exact of_decide_eq_true null.2

theorem undefined_not_null (first : f.state = .undefined) : f.isNull = false := by
  rw [Field.isNull, Field.stateEmpty, first]
  exact Bool.and_false _

theorem leaves_self {label : Label} (other : f.state = .undefined → label = .done ∨ label = .fail) :
    Leaves f ⟨label, p, f⟩ := ⟨⟨rfl, rfl, rfl, rfl⟩, fun first => ⟨rfl, other first⟩⟩

theorem leaves_other {label : Label} (template : f.SameTemplate g) (state : g.state ≠ .undefined) : Leaves f ⟨label, p, g⟩ :=
  ⟨template, fun no => absurd no state⟩

theorem leaves_assigned (label : Label) : Leaves f ⟨label, p, { f with state := .assigned }⟩ :=
  leaves_other ⟨rfl, rfl, rfl, rfl⟩ (fun no => by cases no)

theorem leaves_null (null : f.isNull = true) : Leaves f ⟨.empty, p, f⟩ :=
  leaves_self fun first => by rw [is_null_empty null] at first; cases first

theorem always_leaves : Leaves f (switchAlways p f) := by
  rw [switchAlways]
  split
  · next null => exact leaves_null null
  · exact leaves_assigned _

/-- Copy and increment: where the field is `UNDEFINED` it is sent whole. -/
theorem previous_leaves {found : Bool} {omitted : Field α} (template : f.SameTemplate omitted)
    (state : omitted.state = f.state) : Leaves f (switchPrevious found omitted p f) := by
  rw [switchPrevious]
  split
  · next null => exact leaves_null null
  · split
    · exact leaves_assigned _
    · next assigned =>
      have defined : f.state ≠ .undefined := by
        rw [assigned]
        exact fun no => by cases no
      split
      · exact leaves_other ⟨rfl, rfl, rfl, rfl⟩ defined
      · exact leaves_other template (state ▸ defined)
    · exact leaves_self fun _ => .inr rfl

theorem default_leaves : Leaves f (switchDefault p f) := by
  rw [switchDefault]
  split
  · next null => exact leaves_null null
  · split
    · exact leaves_self fun _ => .inr rfl
    · exact leaves_assigned _

theorem constant_leaves : Leaves f (switchConstant p f) := by
  rw [switchConstant]
  split
  · exact leaves_assigned _
  · split
    · exact leaves_assigned _
    · exact leaves_self fun _ => .inl rfl

/-- **The switch over the operator**, one case for each. -/
theorem switch_leaves (E : Coder α) (p : Pmap) (f : Field α) : Leaves f (encodeSwitch E p f) := by
  rw [encodeSwitch]
  split
  · exact always_leaves
  · exact previous_leaves ⟨rfl, rfl, rfl, rfl⟩ rfl
  · split
    · exact previous_leaves ⟨rfl, rfl, rfl, rfl⟩ rfl
    · exact leaves_self fun _ => .inr rfl
    · exact leaves_self fun _ => .inl rfl
  · split
    · exact always_leaves
    · exact leaves_self fun _ => .inr rfl
  · exact default_leaves
  · exact constant_leaves

/-- **A field encoder** leaves the template, and a field that is still `UNDEFINED` behind it as it was. -/
theorem encode_leaves (laws : C.Laws) (b : Buffer) (p : Pmap) (f : Field α) :
    f.SameTemplate (encodeField C.coder b p f).field ∧
      ((encodeField C.coder b p f).field.state = .undefined → (encodeField C.coder b p f).field = f) := by
  obtain ⟨template, undefined⟩ := switch_leaves C.coder p f
  rw [encodeField]
  cases label : (encodeSwitch C.coder p f).label with
  | done => exact ⟨template, fun first => (undefined first).1⟩
  | fail => exact ⟨template, fun first => (undefined first).1⟩
  | empty =>
    obtain ⟨kept, state, -⟩ := laws.onEmpty (encodeSwitch C.coder p f).field
    refine ⟨template.trans ⟨kept.presence, kept.op, kept.hasReset, kept.reset⟩, fun first => ?_⟩
    have done := (undefined (state.symm.trans first)).2
    rw [label] at done
    rcases done with no | no <;> cases no
  | transfer =>
    obtain ⟨kept, state, -⟩ := laws.onValue (encodeSwitch C.coder p f).field
    refine ⟨template.trans ⟨kept.presence, kept.op, kept.hasReset, kept.reset⟩, fun first => ?_⟩
    have done := (undefined (state.symm.trans first)).2
    rw [label] at done
    rcases done with no | no <;> cases no

/-- A field that the encoder may leave off the wire is sent whole the first time, and remembered as `ASSIGNED`. -/
theorem encode_first (E : Coder α) (op : f.op = .copy ∨ f.op = .incr) (first : f.state = .undefined) :
    (encodeField E b p f).field = f ∨ (encodeField E b p f).field.statePrevious = .assigned := by
  have whole {found : Bool} {omitted : Field α} (p : Pmap) :
      switchPrevious found omitted p f = ⟨.transfer, p, { f with state := .assigned }⟩ := by
    rw [switchPrevious, if_neg (by rw [undefined_not_null first]; exact Bool.false_ne_true), first]
  rcases op with op | op
  · right
    rw [encodeField, encodeSwitch, op]
    simp only [whole]
    rfl
  · cases incr : E.incr with
    | step next =>
      right
      rw [encodeField, encodeSwitch, op]
      simp only [incr, whole]
      rfl
    | refuse =>
      left
      rw [encodeField, encodeSwitch, op]
      simp only [incr]
    | skip =>
      left
      rw [encodeField, encodeSwitch, op]
      simp only [incr]

/-- The field behind a message that was not sent: untouched by its encoder, or run through it. -/
def LeftBy (C : Codec α) (f g : Field α) : Prop := g = f ∨ ∃ b p, g = (encodeField C.coder b p f).field

theorem LeftBy.template (laws : C.Laws) (left : LeftBy C f g) : f.SameTemplate g := by
  obtain rfl | ⟨b, p, rfl⟩ := left
  · exact ⟨rfl, rfl, rfl, rfl⟩
  · exact (encode_leaves laws b p f).1

theorem LeftBy.fresh (laws : C.Laws) (left : LeftBy C f g) (fresh : f.Fresh) : g.Fresh := by
  obtain rfl | ⟨b, p, rfl⟩ := left
  · exact fresh
  · intro first
    have same := (encode_leaves laws b p f).2 first
    rw [same] at first ⊢
    exact fresh first

theorem Field.Touched.kept_fresh (touched : f.Touched f') (fresh : f.Fresh) : f'.Fresh :=
  fun first => touched.statePrevious.trans (fresh (touched.fresh first))

/-- **The decoder's field** knows what the encoder takes it to know, behind a message that it never saw. -/
theorem Agrees.unseen (laws : C.Laws) (ag : Agrees C fe fd) (fresh : fe.Fresh) (touched : fe.Touched f') (left : LeftBy C f' g)
    (same : f'.SameDictionary C.coder g) : Agrees C g fd := by
  obtain ⟨previous, statePrevious⟩ := same
  have template := touched.template.trans (left.template laws)
  have view : C.view g.previous = C.view fe.previous := by
    rw [← touched.previous]
    exact (laws.same _ _).1 previous
  refine ⟨template.symm.trans ag.template, ag.stored, ag.reset, fun op => ?_, fun op => ?_, fun op => ?_⟩
  · rw [template.op] at op
    rcases ag.known op with first | empty | ⟨assigned, value⟩
    · left
      have first' := touched.first op first
      obtain rfl | ⟨b, p, rfl⟩ := left
      · exact first'
      · rcases encode_first (b := b) (p := p) C.coder (touched.template.op ▸ op) first' with whole | remembered
        · rw [whole]
          exact first'
        · rw [remembered, touched.statePrevious, fresh first] at statePrevious
          cases statePrevious
    · exact .inr (.inl (statePrevious.trans (touched.statePrevious.trans empty)))
    · exact .inr (.inr ⟨assigned, value.trans view.symm⟩)
  · rw [template.op] at op
    exact (ag.base op).trans view.symm
  · rw [template.op] at op
    exact ag.constant op

end

/-! ## The fields of a message -/

namespace ElementField

/-- A field that was never encoded has no previous state. -/
def Fresh : ElementField → Prop
  | .int f => f.Fresh
  | .uint f => f.Fresh
  | .string _ f => f.Fresh
  | .decimal false f _ _ => f.Fresh
  | _ => True

/-- The setting does not mark a field `EMPTY` that was never encoded and that the encoder may leave off the wire. -/
def Marks : ElementField → FieldSetting → Prop
  | .int f, .int s => f.Marks s
  | .uint f, .uint s => f.Marks s
  | .string false f, .string s => f.Marks s
  | .decimal false f _ _, .decimal s => f.Marks s
  | _, _ => True

end ElementField

/-- No field that was never encoded has a previous state. -/
def FieldsFresh (fields : List FastField) : Prop := ∀ f, .elem f ∈ fields → f.Fresh

/-- No setting marks such a field. -/
def FieldsMark : List FastField → List FieldSetting → Prop
  | .elem f :: fields, s :: ss => f.Marks s ∧ FieldsMark fields ss
  | _, _ => True

/-- A field behind a message that was not sent. -/
def ElementLeft (f g : ElementField) : Prop := g = f ∨ ∃ b p, g = (encodeElement b p f).field

/-- What the application did to a field: nothing, or a setting. -/
def ElementTouched (f f' : ElementField) : Prop := f' = f ∨ ∃ s, f.Marks s ∧ f' = f.set s

/-- A field behind a message that the decoder never saw: it agrees with its counterpart, and is as fresh and takes as many
bits as before. -/
structure Unseen (fe fd g : ElementField) : Prop where
  agrees : ElementsAgree g fd
  fresh : g.Fresh
  bit : g.takesBit = fe.takesBit

/-- A field type as the type of an element. -/
theorem unseen_of_field {α : Type} {C : Codec α} (laws : C.Laws) (enc : Field α → ElementField)
    (dictionary : ∀ f g, (enc f).SameDictionary (enc g) → f.SameDictionary C.coder g)
    (encodes : ∀ b p f, (encodeElement b p (enc f)).field = enc (encodeField C.coder b p f).field)
    (bit : ∀ f, (enc f).takesBit = f.takesBit) (fresh' : ∀ {f : Field α}, f.Fresh → (enc f).Fresh)
    {fe fd : Field α} {dec : ElementField} (agree : ∀ {f : Field α}, Supported C.coder f → Agrees C f fd → ElementsAgree (enc f) dec)
    (sets : ∀ s, (enc fe).Marks s → ∃ h, (enc fe).set s = enc h ∧ fe.Touched h) (supported : Supported C.coder fe)
    (agrees : Agrees C fe fd) (fresh : fe.Fresh) {f' g : ElementField} (touched : ElementTouched (enc fe) f')
    (left : ElementLeft f' g) (same : f'.SameDictionary g) : Unseen (enc fe) dec g := by
  obtain ⟨h, rfl, kept⟩ : ∃ h, f' = enc h ∧ fe.Touched h := by
    obtain rfl | ⟨s, marks, rfl⟩ := touched
    · exact ⟨fe, rfl, touched_self fe⟩
    · exact sets s marks
  obtain ⟨g', rfl, left'⟩ : ∃ g', g = enc g' ∧ LeftBy C h g' := by
    obtain rfl | ⟨b, p, rfl⟩ := left
    · exact ⟨h, rfl, .inl rfl⟩
    · exact ⟨_, encodes b p h, .inr ⟨b, p, rfl⟩⟩
  have template := kept.template.trans (left'.template laws)
  exact ⟨agree (template.supported supported) (agrees.unseen laws fresh kept left' (dictionary _ _ same)),
    fresh' (left'.fresh laws (kept.kept_fresh fresh)), (bit g').trans (template.takesBit.trans (bit fe).symm)⟩

/-- **One field**, by type. -/
theorem ElementsAgree.unseen {fe f' fd g : ElementField} (ag : ElementsAgree fe fd) (fresh : fe.Fresh)
    (touched : ElementTouched fe f') (left : ElementLeft f' g) (same : f'.SameDictionary g) : Unseen fe fd g := by
  cases ag with
  | @int fe fd supported agrees =>
    refine unseen_of_field int_laws .int (fun _ _ h => h) (fun _ _ _ => rfl) (fun _ => rfl) id .int (fun s marks => ?_)
      supported agrees fresh touched left same
    cases s with
    | int s => exact ⟨_, rfl, set_touched _ marks⟩
    | _ => exact ⟨fe, rfl, touched_self fe⟩
  | @uint fe fd supported agrees =>
    refine unseen_of_field uint_laws .uint (fun _ _ h => h) (fun _ _ _ => rfl) (fun _ => rfl) id .uint (fun s marks => ?_)
      supported agrees fresh touched left same
    cases s with
    | uint s => exact ⟨_, rfl, set_touched _ marks⟩
    | _ => exact ⟨fe, rfl, touched_self fe⟩
  | @string fe fd supported agrees =>
    refine unseen_of_field ascii_laws (.string false) (fun _ _ h => h) (fun _ _ _ => rfl) (fun _ => rfl) id .string
      (fun s marks => ?_) supported agrees fresh touched left same
    cases s with
    | string s => exact ⟨_, rfl, set_touched _ marks⟩
    | _ => exact ⟨fe, rfl, touched_self fe⟩
  | @decimal fe fd e m e' m' supported agrees =>
    refine unseen_of_field decimal_laws (.decimal false · e m) (fun _ _ h => h.1) (fun _ _ _ => rfl) (fun _ => rfl) id .decimal
      (fun s marks => ?_) supported agrees fresh touched left same
    cases s with
    | decimal s => exact ⟨_, rfl, set_touched _ marks⟩
    | _ => exact ⟨fe, rfl, touched_self fe⟩

/-- The fields of a message, as they were, as the application set them, and behind encoders that were run up to some
field. -/
inductive FieldsLeft : List FastField → List FastField → List FastField → Prop
  | nil : FieldsLeft [] [] []
  | cons {fe f g fes fs gs} (touched : ElementTouched fe f) (left : ElementLeft f g) (tail : FieldsLeft fes fs gs) :
    FieldsLeft (.elem fe :: fes) (.elem f :: fs) (.elem g :: gs)

theorem set_fields_nil (fields : List FastField) : setFields fields [] = fields := by
  cases fields with
  | nil => rfl
  | cons f fields => cases f <;> rfl

/-- The fields as the application set them. -/
theorem fields_set {fes fds : List FastField} (ag : FieldsAgree fes fds) {ss : List FieldSetting} (marks : FieldsMark fes ss) :
    FieldsLeft fes (setFields fes ss) (setFields fes ss) := by
  induction ag generalizing ss with
  | nil => exact .nil
  | @cons fe fd fes fds head tail ih =>
    cases ss with
    | nil =>
      have none : FieldsMark fes [] := by cases fes with | nil => trivial | cons f fes => cases f <;> trivial
      have rest := ih none
      rw [set_fields_nil] at rest ⊢
      exact .cons (.inl rfl) (.inl rfl) rest
    | cons s ss => exact .cons (.inr ⟨s, marks.1, rfl⟩) (.inl rfl) (ih marks.2)

/-- The encoders behind them, up to the one that fails. -/
theorem FieldsLeft.encoded {fes fs : List FastField} (h : FieldsLeft fes fs fs) (b : Buffer) (p : Pmap) :
    FieldsLeft fes fs (encodeFields b p fs).field := by
  induction fs generalizing fes b p with
  | nil =>
    cases h
    exact .nil
  | cons f fs ih =>
    cases h with
    | @cons fe f _ fes _ _ touched left tail =>
      rw [encodeFields]
      simp only
      split
      · exact .cons touched (.inr ⟨b, p, rfl⟩) tail
      · exact .cons touched (.inr ⟨b, p, rfl⟩) (ih tail _ _)

/-- **The fields** are in step behind a message that the decoder never saw, by induction on them. -/
theorem FieldsAgree.unseen {fes fds fs gs : List FastField} (ag : FieldsAgree fes fds) (fresh : FieldsFresh fes)
    (left : FieldsLeft fes fs gs) (same : SameDictionaries fs gs) :
    FieldsAgree gs fds ∧ FieldsFresh gs ∧ presenceBits gs = presenceBits fes := by
  induction ag generalizing fs gs with
  | nil =>
    cases left
    exact ⟨.nil, fresh, rfl⟩
  | cons head tail ih =>
    cases left with
    | cons touched left rest =>
      obtain ⟨agrees, fresh', bit⟩ := head.unseen (fresh _ List.mem_cons_self) touched left same.1
      obtain ⟨agree, freshes, bits⟩ := ih (fun f hf => fresh f (List.mem_cons_of_mem _ hf)) rest same.2
      refine ⟨.cons agrees agree, fun f hf => ?_, ?_⟩
      · rcases List.mem_cons.1 hf with here | later
        · cases here
          exact fresh'
        · exact freshes f later
      · rw [presenceBits, presenceBits, bit, bits]

/-! ## Fresh fields -/

theorem set_fresh {f : ElementField} (fresh : f.Fresh) (s : FieldSetting) : (f.set s).Fresh := by
  cases f with
  | int f =>
    cases s with
    | int s => exact Field.Fresh.set _ fresh s
    | _ => exact fresh
  | uint f =>
    cases s with
    | uint s => exact Field.Fresh.set _ fresh s
    | _ => exact fresh
  | string unicode f =>
    cases unicode with
    | true => exact fresh
    | false =>
      cases s with
      | string s => exact Field.Fresh.set _ fresh s
      | _ => exact fresh
  | decimal individ f e m =>
    cases individ with
    | true => exact fresh
    | false =>
      cases s with
      | decimal s => exact Field.Fresh.set _ fresh s
      | _ => exact fresh
  | vector f => exact fresh
  | nested name => exact fresh

theorem encode_fresh {f : ElementField} (fresh : f.Fresh) (b : Buffer) (p : Pmap) : (encodeElement b p f).field.Fresh := by
  cases f with
  | int f => exact LeftBy.fresh int_laws (.inr ⟨b, p, rfl⟩) fresh
  | uint f => exact LeftBy.fresh uint_laws (.inr ⟨b, p, rfl⟩) fresh
  | string unicode f => exact LeftBy.fresh ascii_laws (.inr ⟨b, p, rfl⟩) fresh
  | decimal individ f e m =>
    cases individ with
    | true => trivial
    | false => exact LeftBy.fresh decimal_laws (.inr ⟨b, p, rfl⟩) fresh
  | vector f => exact fresh
  | nested name => exact fresh

theorem fields_fresh_cons {f : FastField} {fields : List FastField} :
    FieldsFresh (f :: fields) ↔ (∀ g, f = .elem g → g.Fresh) ∧ FieldsFresh fields := by
  refine ⟨fun h => ⟨fun g same => h g (same ▸ List.mem_cons_self), fun g hg => h g (List.mem_cons_of_mem _ hg)⟩, ?_⟩
  rintro ⟨first, rest⟩ g hg
  rcases List.mem_cons.1 hg with here | later
  · exact first g here.symm
  · exact rest g later

theorem set_fields_fresh {fields : List FastField} (fresh : FieldsFresh fields) (ss : List FieldSetting) :
    FieldsFresh (setFields fields ss) := by
  induction fields generalizing ss with
  | nil => cases ss <;> exact fresh
  | cons f fields ih =>
    obtain ⟨first, rest⟩ := fields_fresh_cons.1 fresh
    cases f with
    | sequence s => exact fresh
    | elem f =>
      cases ss with
      | nil => exact fresh
      | cons s ss =>
        refine fields_fresh_cons.2 ⟨fun g same => ?_, ih rest ss⟩
        cases same
        exact set_fresh (first f rfl) s

/-- A run of encoders leaves every field that was never encoded as it was. -/
theorem encode_fields_fresh {fields : List FastField} (fresh : FieldsFresh fields) (b : Buffer) (p : Pmap) :
    FieldsFresh (encodeFields b p fields).field := by
  induction fields generalizing b p with
  | nil => exact fresh
  | cons f fields ih =>
    obtain ⟨first, rest⟩ := fields_fresh_cons.1 fresh
    cases f with
    | sequence s => exact fresh
    | elem f =>
      have here : ∀ g, FastField.elem (encodeElement b p f).field = .elem g → g.Fresh := fun g same => by
        cases same
        exact encode_fresh (first f rfl) b p
      rw [encodeFields]
      simp only
      split
      · exact fields_fresh_cons.2 ⟨here, rest⟩
      · exact fields_fresh_cons.2 ⟨here, ih rest _ _⟩

/-! ## Messages -/

/-- What `fast_message_encode` leaves of a message: the fields as they were set, where the template id does not fit, or
run through their encoders. -/
theorem encoded_message (m : Message) (pmapBuf msgBuf : Buffer) :
    (fastMessageEncode m pmapBuf msgBuf).msg = { m with fields :=
      if (transferUint msgBuf m.tid).1 then (encodeFields (transferUint msgBuf m.tid).2 initialPmap m.fields).field
      else m.fields } := by
  rw [fastMessageEncode]
  cases sent : (transferUint msgBuf m.tid).1 with
  | false => rfl
  | true =>
    simp only [Bool.not_true, Bool.false_eq_true, if_false, if_true]
    split
    · rfl
    · split <;> rfl

namespace Sender

/-- The encoding side behind a message, whether it is sent or not. -/
def attempt (snd : Sender) (x : Send) : Sender :=
  match snd.messages[x.template]? with
  | none => snd
  | some m =>
    let r := fastMessageEncode { m with fields := setFields m.fields x.settings } snd.pmapBuf.bufferReset snd.msgBuf.bufferReset
    ⟨snd.messages.set x.template r.msg, r.pmapBuf, r.msgBuf⟩

/-- No field that was never encoded has a previous state. -/
def Fresh (snd : Sender) : Prop := ∀ m ∈ snd.messages, FieldsFresh m.fields

/-- A message that leaves the encoder where it was: every field encoder that is run finds what it stores already there, and
no field is marked `EMPTY` that was never encoded. -/
def Harmless (snd : Sender) (x : Send) : Prop :=
  ∀ m, snd.messages[x.template]? = some m → FieldsMark m.fields x.settings ∧
    (transferSizeUint m.tid ≤ snd.msgBuf.bufferReset.bufferRemaining →
      Undisturbed (snd.msgBuf.bufferReset.bufferRemaining - transferSizeUint m.tid) (setFields m.fields x.settings))

variable {snd snd' : Sender} {s : Session} {x : Send} {bytes : List UInt8}

/-- Where a message is sent, the encoding side is the one behind it. -/
theorem attempt_sent (sent : snd.send x = some (bytes, snd')) : snd.attempt x = snd' := by
  rw [send] at sent
  rw [attempt]
  cases slot : snd.messages[x.template]? with
  | none =>
    rw [slot] at sent
    cases sent
  | some m =>
    rw [slot] at sent
    simp only at sent ⊢
    split at sent
    · exact (Prod.mk.inj (Option.some.inj sent)).2
    · cases sent

theorem Fresh.attempt (fresh : snd.Fresh) (x : Send) : (snd.attempt x).Fresh := by
  rw [Sender.attempt]
  split
  · exact fresh
  · next m slot =>
    intro m' hm'
    rcases List.mem_or_eq_of_mem_set hm' with old | rfl
    · exact fresh m' old
    · have set := set_fields_fresh (fresh m (List.mem_of_getElem? slot)) x.settings
      rw [encoded_message]
      simp only
      split
      · exact encode_fields_fresh set _ _
      · exact set

/-- **A message that is not sent** and leaves the encoder where it was leaves the two sides in step. -/
theorem refused_in_step (step : InStep snd s) (fresh : snd.Fresh) (harmless : snd.Harmless x) : InStep (snd.attempt x) s := by
  rw [attempt]
  cases slot : snd.messages[x.template]? with
  | none => exact step
  | some m =>
    obtain ⟨marks, undisturbed⟩ := harmless m slot
    obtain ⟨md, slot', agrees⟩ := step.slots _ _ slot
    have valid : snd.msgBuf.bufferReset.Valid := (reset_valid snd.msgBuf).1
    have tid := transfer_uint_needs valid m.tid
    have set := fields_set agrees.fields marks
    have freshes := fresh m (List.mem_of_getElem? slot)
    have behind : ∀ gs, gs = (if (transferUint snd.msgBuf.bufferReset m.tid).1 then
        (encodeFields (transferUint snd.msgBuf.bufferReset m.tid).2 initialPmap (setFields m.fields x.settings)).field
        else setFields m.fields x.settings) → FieldsAgree gs md.fields ∧ presenceBits gs = presenceBits m.fields := by
      rintro gs rfl
      split
      · next sent =>
        have kept := undisturbed (of_decide_eq_true (tid.ok.symm.trans sent))
        rw [← tid.left sent] at kept
        obtain ⟨agree, -, bits⟩ := agrees.fields.unseen freshes (set.encoded _ initialPmap)
          ((fields_effect _ (tid.valid sent)).2 kept)
        exact ⟨agree, bits⟩
      · obtain ⟨agree, -, bits⟩ := agrees.fields.unseen freshes set (same_dictionaries _)
        exact ⟨agree, bits⟩
    refine ⟨step.idle, fun j me hj => ?_⟩
    simp only [encoded_message] at hj
    by_cases same : x.template = j
    · subst same
      rw [List.getElem?_set_self (List.getElem?_eq_some_iff.1 slot).1] at hj
      cases hj
      obtain ⟨agree, bits⟩ := behind _ rfl
      exact ⟨md, slot', agrees.found, agrees.tid, agrees.range, bits.le.trans agrees.bits, agrees.start, agree⟩
    · rw [List.getElem?_set_ne same] at hj
      exact step.slots j me hj

/-- Every message of a run is accepted if it is sent, and leaves the encoder where it was if it is not. -/
def TriesAll : Sender → List Send → Prop
  | _, [] => True
  | snd, x :: xs => ((snd.send x).isSome → snd.Accepts x) ∧ (snd.send x = none → snd.Harmless x) ∧ (snd.attempt x).TriesAll xs

end Sender

/-- The run arrives: what is not sent is not seen, and every message that is sent is decoded, with the bytes behind it left
in the buffer, to a message of the same template id whose fields show what was set. -/
def Arrives : Sender → Session → List Send → Prop
  | _, _, [] => True
  | snd, s, x :: xs => (snd.send x = none → Arrives (snd.attempt x) s xs) ∧
    ∀ bytes snd', snd.send x = some (bytes, snd') → ∀ (b : Buffer) (rest : List UInt8), b.Valid → b.unread = bytes ++ rest →
      ∃ m m', snd.messages[x.template]? = some m ∧ (s.holding b).fastMessageDecode.msg = some m' ∧
        m'.tid = m.tid ∧ FieldsShow m'.fields x.settings ∧
        (s.holding b).fastMessageDecode.session.rxBuffer.unread = rest ∧
        Arrives snd' (s.holding b).fastMessageDecode.session xs

/-- From two sides in step, by induction on the messages. -/
theorem run_arrives {snd : Sender} {s : Session} (step : InStep snd s) (fresh : snd.Fresh) {xs : List Send}
    (tries : snd.TriesAll xs) : Arrives snd s xs := by
  induction xs generalizing snd s with
  | nil => trivial
  | cons x xs ih =>
    obtain ⟨accepts, harmless, later⟩ := tries
    refine ⟨fun refused => ih (Sender.refused_in_step step fresh (harmless refused)) (fresh.attempt x) later, ?_⟩
    intro bytes snd' sent b rest hv hu
    have accepted := accepts (by rw [sent]; rfl)
    obtain ⟨⟨m, m', slot, returned, tid, shows, left⟩, step'⟩ := send_delivers step accepted sent hv hu
    have same := Sender.attempt_sent sent
    rw [← same] at step' ⊢
    exact ⟨m, m', slot, returned, tid, shows, left, ih step' (fresh.attempt x) later⟩

/-- Freshly parsed templates have encoded nothing. -/
theorem new_sender_fresh (pmapBuf msgBuf : Buffer) (ts : List Template) : (newSender pmapBuf msgBuf ts).Fresh := by
  intro m hm f hf
  obtain ⟨t, -, rfl⟩ := List.mem_map.1 hm
  obtain ⟨n, -, same⟩ := List.mem_map.1 hf
  cases n with
  | sequence n => cases same
  | elem n =>
    cases same
    cases n with
    | string unicode n => exact fun _ => rfl
    | int | uint | decimal => exact fun _ => rfl
    | vector | individ | nested => trivial

/-- **Messages that are not sent.** Whatever messages `fast_message_encode` refuses in between, where each of them leaves the
encoder where it was, every message that is sent through freshly parsed templates is decoded to what was set. -/
theorem refused_unseen {ts : List Template} (h : Catalog ts) (pmapBuf msgBuf : Buffer) (xs : List Send)
    (tries : (newSender pmapBuf msgBuf ts).TriesAll xs) : Arrives (newSender pmapBuf msgBuf ts) (newSession 0 ts) xs :=
  run_arrives (fresh_in_step h pmapBuf msgBuf) (new_sender_fresh pmapBuf msgBuf ts) tries

theorem uint_fits {f : Field U64} (op : f.op ≠ .delta) (mandatory : f.isMandatory = true) (small : f.value.toNat < 2 ^ 63) :
    (ElementField.uint f).Fits := by
  intro p q g switch
  rw [switch_transfers switch]
  exact (if_neg op).mpr ((if_pos mandatory).trans_lt small)

theorem quote_catalog : Catalog [quoteTemplate] where
  distinct := by decide
  positive := by decide
  range := by decide
  encodable := by
    rintro t (_ | ⟨_, ⟨⟩⟩) n (_ | ⟨_, _ | ⟨_, ⟨⟩⟩⟩) <;> trivial
  bits := by decide

def quoteSender : Sender := newSender (.bufferNew 8) (.bufferNew 16) [quoteTemplate]

/-- A quote, the same bid price without an ask price, and a quote with that bid price again. -/
def quotes : List Send :=
  [⟨0, [.uint (.value 7), .uint (.value 9)]⟩, ⟨0, [.uint (.value 7), .uint .null]⟩, ⟨0, [.uint (.value 7), .uint (.value 10)]⟩]

theorem quotes_tried : quoteSender.TriesAll quotes := by
  have fits {f : Field U64} (h : (f.op ≠ .delta ∧ f.isMandatory = true) ∧ f.value.toNat < 2 ^ 63) : (ElementField.uint f).Fits :=
    uint_fits h.1.1 h.1.2 h.2
  refine ⟨fun _ => ?_, fun refused => absurd refused (by decide +kernel), ?_⟩
  · exact ⟨_, rfl, ⟨nofun, nofun, trivial⟩, fits (by decide), fits (by decide), trivial⟩
  refine ⟨fun sent => absurd sent (by decide +kernel), fun _ => ?_, ?_⟩
  · intro m slot
    cases slot
    exact ⟨⟨fun _ _ => nofun, fun _ first => absurd first (by decide +kernel), trivial⟩, by decide +kernel⟩
  refine ⟨fun _ => ?_, fun refused => absurd refused (by decide +kernel), trivial⟩
  exact ⟨_, rfl, ⟨nofun, nofun, trivial⟩, fits (by decide), fits (by decide), trivial⟩

/-- The quote without an ask price is refused, and the one behind it, without its bid price on the wire, is received. -/
theorem refused_quote_unseen : (quoteSender.attempt ⟨0, [.uint (.value 7), .uint (.value 9)]⟩).send ⟨0, [.uint (.value 7), .uint .null]⟩ = none ∧
    Arrives quoteSender (newSession 0 [quoteTemplate]) quotes :=
  ⟨by decide +kernel, refused_unseen quote_catalog _ _ quotes quotes_tried⟩

end Libtrading.Fast
