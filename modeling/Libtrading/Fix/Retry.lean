import Libtrading.Fix.Progress

/-!
# The retry loop

`fix_message_parse` starts over wherever an attempt finds a garbled message,
with whatever the attempt has left. An attempt goes forward field by field,
jumps to where BodyLength says the CheckSum is, backwards where BodyLength is
smaller than the MsgType field, and goes on from there. `Garbles` is one such
attempt on the buffer itself; `Fix.Progress` has the bytes it takes away.
-/

namespace Libtrading.Fix
open Buffer Wire
set_option autoImplicit false
universe u

/-- An attempt of the loop that starts at `b` fails garbled and leaves the buffer as `c`. -/
def Garbles (flags : U64) (b c : Buffer) : Prop :=
  b.bufferSize ≠ 0 ∧ (firstThreeFields b flags = .stop .garbled c ∨
    ∃ f b', firstThreeFields b flags = .done f b' ∧ checksum f b' flags = .stop .garbled c)

section
variable {flags : U64} {b c : Buffer}

/-- A garbled attempt is one that discards bytes. -/
theorem garbles_discards (hv : b.Valid) (h : Garbles flags b c) :
    ∃ r, r <:+ b.unread ∧ r.length < b.unread.length ∧ c = b.leaving r.length := by
  obtain ⟨-, garbled⟩ := h
  have head := first_three_eq hv (List.suffix_refl b.unread) flags
  rw [leaving_self hv] at head
  cases h3 : Bytes.firstThreeFields b.unread flags with
  | stop ret r =>
    rw [h3] at head
    rcases garbled with stop | ⟨f, b', done, -⟩
    · rw [head] at stop
      cases stop
      exact ⟨r, Bytes.first_three_suffix h3, Bytes.first_three_garbled h3, rfl⟩
    · rw [head] at done
      cases done
  | done f r =>
    rw [h3] at head
    rcases garbled with stop | ⟨f', b', done, sum⟩
    · rw [head] at stop
      cases stop
    · rw [head] at done
      cases done
      have inside := Bytes.first_three_inside h3
      -- the jump goes back at most to the MsgType tag, and that is behind the start of the attempt
      rcases checksum_eq hv (List.suffix_refl b.unread) inside flags with ⟨x, source, -⟩ | ⟨ret, r', suffix, source, bytes⟩
      · rw [source] at sum
        cases sum
      · rw [source] at sum
        cases sum
        exact ⟨r', suffix, Bytes.checksum_garbled inside bytes, rfl⟩

/-- **A garbled attempt moves on.** It leaves the start strictly beyond where it began and not beyond
the end, and touches nothing else. -/
theorem garbles_moves (hv : b.Valid) (h : Garbles flags b c) : b.Moved c ∧ b.start < c.start := by
  obtain ⟨r, suffix, short, rfl⟩ := garbles_discards hv h
  have len := length_unread hv
  have start := hv.start_le
  refine ⟨⟨rfl, rfl, ?_, ?_⟩, ?_⟩
  · simp only [leaving]
    omega
  · simp only [leaving]
    omega
  · simp only [leaving]
    omega

/-- Garbled attempts one after the other. -/
theorem garbles_chain (hv : b.Valid) (h : Relation.ReflTransGen (Garbles flags) b c) : b.Moved c := by
  induction h with
  | refl => exact hv.refl_moved
  | tail _ step ih => exact ih.trans (garbles_moves (ih.valid hv) step).1

/-- There is one garbled attempt for every unread byte at most. -/
theorem no_endless_garbling (hv : b.Valid) : ¬∃ bs : Nat → Buffer, bs 0 = b ∧ ∀ i, Garbles flags (bs i) (bs (i + 1)) := by
  rintro ⟨bs, rfl, step⟩
  have ahead : ∀ i, (bs 0).Moved (bs i) ∧ (bs 0).start + i ≤ (bs i).start := by
    intro i
    induction i with
    | zero => exact ⟨hv.refl_moved, Nat.le_refl _⟩
    | succ i ih =>
      obtain ⟨moved, le⟩ := ih
      obtain ⟨moved', lt⟩ := garbles_moves (moved.valid hv) (step i)
      exact ⟨moved.trans moved', by omega⟩
  obtain ⟨moved, le⟩ := ahead ((bs 0).stop + 1)
  have := moved.bounded
  omega

variable {F : Type u} [Doubles F] (dialect : Dialect)

/-- The loop goes on from where a garbled attempt has left the buffer. -/
theorem parse_from_garbles (n : Nat) (self : FixMessage F) (h : Garbles flags b c) :
    fixMessageParseFrom dialect flags (n + 1) self b = fixMessageParseFrom dialect flags n self c := by
  obtain ⟨some, stop | ⟨f, b', done, sum⟩⟩ := h
  · rw [fixMessageParseFrom, if_neg some, stop]
  · rw [fixMessageParseFrom, if_neg some, done]
    simp only [sum]

/-- What `fix_message_parse` returns for an attempt that starts at `b`, unless the attempt is garbled. -/
def lastAttempt (dialect : Dialect) (flags : U64) (self : FixMessage F) (b : Buffer) : Option (Parsed F) :=
  if b.bufferSize = 0 then some (.waits b)
  else
    match firstThreeFields b flags with
    | .stop .msgPartial c => some (.waits (c.rewind b.start))
    | .stop .garbled _ => none
    | .done f b' =>
      match checksum f b' flags with
      | .stop .msgPartial c => some (.waits (c.rewind b.start))
      | .stop .garbled _ => none
      | .done sum c =>
        match restOfMessage dialect self.msgSeqNum c with
        | none => some .fault
        | some (r, d) => some (.message (self.parsed f sum r d.data) b.start d)

/-- The loop returns what an attempt that is not garbled comes to. -/
theorem parse_from_last (n : Nat) (self : FixMessage F) (h : ¬∃ c, Garbles flags b c) :
    lastAttempt dialect flags self b = some (fixMessageParseFrom dialect flags (n + 1) self b) := by
  rw [lastAttempt, fixMessageParseFrom]
  by_cases none : b.bufferSize = 0
  · rw [if_pos none, if_pos none]
  · rw [if_neg none, if_neg none]
    cases h3 : firstThreeFields b flags with
    | stop ret c =>
      cases ret with
      | msgPartial => rfl
      | garbled => exact absurd ⟨c, none, .inl h3⟩ h
    | done f b' =>
      simp only
      cases hc : checksum f b' flags with
      | stop ret c =>
        cases ret with
        | msgPartial => rfl
        | garbled => exact absurd ⟨c, none, .inr ⟨f, b', h3, hc⟩⟩ h
      | done sum c =>
        simp only
        cases restOfMessage (F := F) dialect self.msgSeqNum c <;> rfl

/-- What an attempt that is not garbled makes of the loop does not depend on the turns behind it. -/
theorem parse_from_ends (n k : Nat) (self : FixMessage F) (h : ¬∃ c, Garbles flags b c) :
    fixMessageParseFrom dialect flags (n + 1) self b = fixMessageParseFrom dialect flags (k + 1) self b := by
  have first := parse_from_last dialect n self h
  have second := parse_from_last dialect k self h
  exact Option.some.inj (first.symm.trans second)

/-- With a turn for every unread byte, and one more, the loop is not cut short. -/
theorem parse_from_bound (hv : b.Valid) (self : FixMessage F) {n : Nat} (h : b.bufferSize < n) (k : Nat) :
    fixMessageParseFrom dialect flags (n + k) self b = fixMessageParseFrom dialect flags n self b := by
  induction n generalizing b with
  | zero => omega
  | succ n ih =>
    rw [Nat.succ_add]
    by_cases garbled : ∃ c, Garbles flags b c
    · obtain ⟨c, step⟩ := garbled
      obtain ⟨moved, lt⟩ := garbles_moves hv step
      have hv' := moved.valid hv
      rw [hv.size_eq] at h
      have size := hv'.size_eq
      have := moved.stop
      have := moved.bounded
      rw [parse_from_garbles dialect _ self step, parse_from_garbles dialect _ self step]
      exact ih hv' (by omega)
    · exact parse_from_ends dialect _ _ self garbled

/-- With as many turns the loop comes to an attempt that is not garbled and returns what that comes to, by induction on
the turns, of which a garbled attempt takes one and an unread byte. -/
theorem parse_from_reaches (hv : b.Valid) (self : FixMessage F) {n : Nat} (h : b.bufferSize < n) :
    ∃ c, Relation.ReflTransGen (Garbles flags) b c ∧
      lastAttempt dialect flags self c = some (fixMessageParseFrom dialect flags n self b) := by
  induction n generalizing b with
  | zero => omega
  | succ n ih =>
    by_cases garbled : ∃ c, Garbles flags b c
    · obtain ⟨c, step⟩ := garbled
      obtain ⟨moved, lt⟩ := garbles_moves hv step
      have hv' := moved.valid hv
      have short : c.bufferSize < n := by
        rw [hv.size_eq] at h
        have size := hv'.size_eq
        have stop := moved.stop
        have bounded := moved.bounded
        omega
      obtain ⟨d, chain, last⟩ := ih hv' short
      rw [← parse_from_garbles dialect n self step] at last
      exact ⟨d, .head step chain, last⟩
    · exact ⟨b, .refl, parse_from_last dialect n self garbled⟩

/-- **The retry loop ends.** From a buffer, every garbled attempt that the loop comes to leaves the start
strictly beyond where the attempt began and not beyond the end; so the attempts do not go on for ever. The loop
comes to one that is not garbled, and what `fix_message_parse` returns is what that one comes to, however many
turns the loop is given. -/
theorem retry_loop_ends (flags : U64) {b : Buffer} (hv : b.Valid) :
    (∀ c d, Relation.ReflTransGen (Garbles flags) b c → Garbles flags c d →
      c.start < d.start ∧ d.start ≤ d.stop ∧ d.stop = b.stop) ∧
    (¬∃ bs : Nat → Buffer, bs 0 = b ∧ ∀ i, Garbles flags (bs i) (bs (i + 1))) ∧
    ∀ self : FixMessage F,
      (∃ c, Relation.ReflTransGen (Garbles flags) b c ∧
        lastAttempt dialect flags self c = some (fixMessageParse dialect flags self b)) ∧
      ∀ n, b.bufferSize < n →
        fixMessageParseFrom dialect flags n self b = fixMessageParse dialect flags self b := by
  refine ⟨fun c d chain step => ?_, no_endless_garbling hv, fun self => ⟨?_, fun n turns => ?_⟩⟩
  · have before := garbles_chain hv chain
    obtain ⟨moved, lt⟩ := garbles_moves (before.valid hv) step
    have whole := before.trans moved
    exact ⟨lt, (whole.valid hv).start_le, whole.stop⟩
  · exact parse_from_reaches dialect hv self (Nat.lt_succ_self _)
  · have turns' : n = b.bufferSize + 1 + (n - (b.bufferSize + 1)) := by omega
    rw [fixMessageParse, turns']
    exact parse_from_bound dialect hv self (Nat.lt_succ_self _) _

end

/-- The hypothesis is met by a message whose BodyLength points back into its MsgType. -/
theorem retry_ends_backwards :
    (∀ c d, Relation.ReflTransGen (Garbles 0) (sohBuffer "8=FIX.4.4|9=2|35=AF|10=1|") c → Garbles 0 c d →
      c.start < d.start ∧ d.start ≤ d.stop ∧ d.stop = (sohBuffer "8=FIX.4.4|9=2|35=AF|10=1|").stop) ∧
    (¬∃ bs : Nat → Buffer, bs 0 = sohBuffer "8=FIX.4.4|9=2|35=AF|10=1|" ∧ ∀ i, Garbles 0 (bs i) (bs (i + 1))) ∧
    ∀ self : FixMessage (List UInt8),
      (∃ c, Relation.ReflTransGen (Garbles 0) (sohBuffer "8=FIX.4.4|9=2|35=AF|10=1|") c ∧
        lastAttempt ⟨.fix44, fixTagType⟩ 0 self c =
          some (fixMessageParse ⟨.fix44, fixTagType⟩ 0 self (sohBuffer "8=FIX.4.4|9=2|35=AF|10=1|"))) ∧
      ∀ n, (sohBuffer "8=FIX.4.4|9=2|35=AF|10=1|").bufferSize < n →
        fixMessageParseFrom ⟨.fix44, fixTagType⟩ 0 n self (sohBuffer "8=FIX.4.4|9=2|35=AF|10=1|") =
          fixMessageParse ⟨.fix44, fixTagType⟩ 0 self (sohBuffer "8=FIX.4.4|9=2|35=AF|10=1|") :=
  retry_loop_ends (F := List UInt8) ⟨.fix44, fixTagType⟩ 0 (soh_buffer_valid _)

end Libtrading.Fix
