import Libtrading.Fast.AnyCut

/-!
# `fast_session.c`

`fast_session_recv` decodes what is there, makes room if little is left,
receives and decodes once more; `fast_session_reset` puts the dictionaries of
all loaded templates back. A feed does both.
-/

namespace Libtrading.Fast
set_option autoImplicit false
open Buffer

/-! ## Receiving -/

/-- `FAST_MESSAGE_MAX_SIZE`. -/
def messageMaxSize : Nat := 2048

/-- The buffer with room made in it, where little is left. -/
def roomMade (b : Buffer) : Buffer := if b.bufferRemaining ≤ messageMaxSize then b.bufferCompact else b

/-- What `self->recv` stores of the bytes that the descriptor has: no more than there is room for, and
than `FAST_MESSAGE_MAX_SIZE`. -/
def heard (b : Buffer) (sock : List UInt8) : List UInt8 := sock.take (min b.bufferRemaining messageMaxSize)

namespace Session

/-- `fast_session_recv`, where the descriptor has the bytes `sock`; with none, and after an error of
`recv`, it returns `NULL`. -/
def fastSessionRecv (s : Session) (sock : List UInt8) : Decode :=
  let d := s.fastMessageDecode
  if d.msg.isSome then d
  else
    let s := { d.session with rxBuffer := roomMade d.session.rxBuffer }
    let got := heard s.rxBuffer sock
    if got = [] then ⟨none, d.ret, s⟩ else (s.receive got).fastMessageDecode

end Session

/-! ## Resetting -/

namespace Field
variable {α : Type}

/-- The value and the previous value of a field, reset: to the initial value, or cleared. -/
def restart (load : α → α → α) (clear : α → α) (f : Field α) : Field α :=
  if f.hasReset then { f with value := load f.value f.reset, previous := load f.previous f.reset }
  else { f with value := clear f.value, previous := clear f.previous }

end Field

/-- `case FAST_TYPE_INT` and `case FAST_TYPE_UINT` of `fast_message_reset`. -/
def resetNumber : Field (BitVec 64) → Field (BitVec 64) := Field.restart (fun _ reset => reset) fun _ => 0

/-- `case FAST_TYPE_STRING`. -/
def resetString : Field Bytes → Field Bytes := Field.restart strcpy fun value => value.set 0 0

/-- `case FAST_TYPE_VECTOR`: `memset` of `sizeof(u64)` bytes. -/
def resetVector : Field Bytes → Field Bytes :=
  Field.restart (fun _ reset => reset) fun value => List.replicate 8 0 ++ value.drop 8

/-- `case FAST_TYPE_DECIMAL`, of the decimal itself. -/
def resetDecimal : Field Decimal → Field Decimal := Field.restart (fun _ reset => reset) fun _ => ⟨0, 0⟩

/-- The switch of `fast_message_reset` for the types an element may hold. -/
def ElementField.fastReset : ElementField → ElementField
  | .int f => .int (resetNumber f)
  | .uint f => .uint (resetNumber f)
  | .string unicode f => .string unicode (resetString f)
  | .vector f => .vector (resetVector f)
  | .decimal individ f e m => .decimal individ (resetDecimal f) e m
  | .nested name => .nested name

/-- The switch of `fast_message_reset`: of a sequence, the fields of `elements[0]`. -/
def FastField.fastReset : FastField → FastField
  | .elem f => .elem f.fastReset
  | .sequence s => .sequence { s with head := s.head.map ElementField.fastReset }

/-- `fast_message_reset`. -/
def Message.fastMessageReset (m : Message) : Message := { m with fields := m.fields.map FastField.fastReset }

/-- `fast_session_reset`: the loaded templates. -/
def Session.fastSessionReset (s : Session) : Session :=
  { s with rxMessages := (s.rxMessages.take s.nrMessages).map Message.fastMessageReset ++ s.rxMessages.drop s.nrMessages }

/-- `struct fast_feed`: its session, and `session->reset`. -/
structure FastFeed where
  session : Session
  reset : Bool
  deriving DecidableEq, Repr

namespace FastFeed

/-- The session that `fast_feed_recv` receives with. -/
def prepared (feed : FastFeed) : Session := if feed.reset then feed.session.fastSessionReset else feed.session

/-- `fast_feed_recv`. -/
def fastFeedRecv (feed : FastFeed) (sock : List UInt8) : Decode := feed.prepared.fastSessionRecv sock

end FastFeed

/-! ## What a reset leaves -/

/-- Copying twice is copying once. -/
theorem strcpy_strcpy (dst src : Bytes) : strcpy (strcpy dst src) src = strcpy dst src := by
  have rest : (cstr src ++ 0 :: dst.drop ((cstr src).length + 1)).drop ((cstr src).length + 1) =
      dst.drop ((cstr src).length + 1) := by
    rw [← List.drop_drop, List.drop_left, List.drop_succ_cons, List.drop_zero]
  rw [strcpy, strcpy, rest]

namespace Field
variable {α : Type} {load : α → α → α} {clear : α → α}

/-- A second reset changes nothing. -/
theorem restart_restart (loads : ∀ v r, load (load v r) r = load v r) (clears : ∀ v, clear (clear v) = clear v)
    (f : Field α) : (f.restart load clear).restart load clear = f.restart load clear := by
  cases h : f.hasReset with
  | true => simp only [restart, h, if_true, loads]
  | false => simp only [restart, h, Bool.false_eq_true, if_false, clears]

end Field

theorem reset_number_twice (f : Field (BitVec 64)) : resetNumber (resetNumber f) = resetNumber f :=
  f.restart_restart (by intro _ _; rfl) (by intro _; rfl)

theorem reset_string_twice (f : Field Bytes) : resetString (resetString f) = resetString f :=
  f.restart_restart strcpy_strcpy fun _ => List.set_set ..

theorem reset_vector_twice (f : Field Bytes) : resetVector (resetVector f) = resetVector f :=
  f.restart_restart (by intro _ _; rfl) (by intro _; rfl)

theorem reset_decimal_twice (f : Field Decimal) : resetDecimal (resetDecimal f) = resetDecimal f :=
  f.restart_restart (by intro _ _; rfl) (by intro _; rfl)

theorem ElementField.reset_reset (f : ElementField) : f.fastReset.fastReset = f.fastReset := by
  cases f with
  | int f => exact congrArg ElementField.int (reset_number_twice f)
  | uint f => exact congrArg ElementField.uint (reset_number_twice f)
  | string unicode f => exact congrArg (ElementField.string unicode) (reset_string_twice f)
  | vector f => exact congrArg ElementField.vector (reset_vector_twice f)
  | decimal individ f e m => exact congrArg (ElementField.decimal individ · e m) (reset_decimal_twice f)
  | nested name => rfl

theorem FastField.reset_reset (f : FastField) : f.fastReset.fastReset = f.fastReset := by
  cases f with
  | elem f => exact congrArg FastField.elem f.reset_reset
  | sequence s =>
    have head : (s.head.map ElementField.fastReset).map ElementField.fastReset = s.head.map ElementField.fastReset := by
      rw [List.map_map]
      exact List.map_congr_left fun f _ => f.reset_reset
    simp only [FastField.fastReset, head]

theorem Message.reset_reset (m : Message) : m.fastMessageReset.fastMessageReset = m.fastMessageReset := by
  have fields : (m.fields.map FastField.fastReset).map FastField.fastReset = m.fields.map FastField.fastReset := by
    rw [List.map_map]
    exact List.map_congr_left fun f _ => f.reset_reset
  simp only [Message.fastMessageReset, fields]

namespace Session

/-- A slot after a reset. -/
theorem reset_slot (s : Session) (i : Nat) :
    s.fastSessionReset.rxMessages[i]? =
      (s.rxMessages[i]?).map fun m => if i < s.nrMessages then m.fastMessageReset else m := by
  simp only [fastSessionReset]
  by_cases loaded : i < s.nrMessages
  · by_cases there : i < s.rxMessages.length
    · rw [List.getElem?_append_left (by rw [List.length_map, List.length_take]; omega), List.getElem?_map,
        List.getElem?_take_of_lt loaded]
      simp only [if_pos loaded]
    · rw [List.getElem?_eq_none (by simp only [List.length_append, List.length_map, List.length_take, List.length_drop]; omega),
        List.getElem?_eq_none (by omega), Option.map_none]
  · by_cases short : s.rxMessages.length ≤ s.nrMessages
    · rw [List.getElem?_eq_none (by simp only [List.length_append, List.length_map, List.length_take, List.length_drop]; omega),
        List.getElem?_eq_none (by omega), Option.map_none]
    · have length : ((s.rxMessages.take s.nrMessages).map Message.fastMessageReset).length = s.nrMessages := by
        rw [List.length_map, List.length_take]
        omega
      rw [List.getElem?_append_right (by omega), length, List.getElem?_drop,
        show s.nrMessages + (i - s.nrMessages) = i by omega]
      simp only [if_neg loaded, Option.map_id']

theorem reset_reset (s : Session) : s.fastSessionReset.fastSessionReset = s.fastSessionReset := by
  have slots : s.fastSessionReset.fastSessionReset.rxMessages = s.fastSessionReset.rxMessages := by
    refine List.ext_getElem? fun i => ?_
    rw [reset_slot, reset_slot, Option.map_map]
    refine congrArg (Option.map · _) (funext fun m => ?_)
    have loaded : s.fastSessionReset.nrMessages = s.nrMessages := rfl
    simp only [Function.comp_apply, loaded]
    split
    · exact m.reset_reset
    · rfl
  simp only [fastSessionReset] at slots ⊢
  rw [slots]

/-- A property of every field is one after a reset, where a reset keeps it. -/
theorem reset_keep {Q : FastField → Prop} (keeps : ∀ f, Q f → Q f.fastReset) {s : Session}
    (h : ∀ m ∈ s.rxMessages, ∀ f ∈ m.fields, Q f) : ∀ m ∈ s.fastSessionReset.rxMessages, ∀ f ∈ m.fields, Q f := by
  intro m hm
  rcases List.mem_append.mp hm with hm | hm
  · obtain ⟨t, ht, rfl⟩ := List.mem_map.mp hm
    intro f hf
    obtain ⟨g, hg, rfl⟩ := List.mem_map.mp hf
    exact keeps g (h t (List.mem_of_mem_take ht) g hg)
  · exact h m (List.mem_of_mem_drop hm)

theorem Regular.reset {s : Session} (h : s.Regular) : s.fastSessionReset.Regular :=
  ⟨h.valid, reset_keep (fun f hf => by cases f <;> exact hf) h.regular⟩

end Session

/-! ## What is received -/

theorem heard_room {b : Buffer} (hv : b.Valid) (sock : List UInt8) :
    b.stop + (heard b sock).length ≤ b.data.length := by
  have := hv.stop_le
  have room := hv.remaining_eq
  simp only [heard, List.length_take]
  omega

theorem room_made {b : Buffer} (hv : b.Valid) :
    (roomMade b).Valid ∧ (roomMade b).unread = b.unread ∧ (roomMade b).data.length = b.data.length := by
  unfold roomMade
  split
  · obtain ⟨valid, unread, size, _⟩ := hv.compact
    exact ⟨valid, unread, size⟩
  · exact ⟨hv, rfl, rfl⟩

end Libtrading.Fast
