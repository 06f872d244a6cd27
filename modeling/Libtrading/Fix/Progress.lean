import Libtrading.Fix.Framing
import Mathlib.Logic.Relation

/-!
# Every attempt makes progress

An attempt of `fix_message_parse` that fails garbled, or that finds a message,
leaves fewer bytes than it was given. So the retry loop ends, the bound on its
turns in the model is never met, and the attempts on given bytes form a chain.
-/

namespace Libtrading.Fix.Bytes
open Wire
set_option autoImplicit false
universe u

/-! ## Readers shorten their input -/

theorem parse_tag_short {u r : List UInt8} {ret : MsgState} (h : parseTag u = .stop ret r) (garbled : ret = .garbled) :
    u ≠ [] ∧ r.length ≤ u.length := by
  rw [parseTag] at h
  cases hc : cut '='.toNat.toUInt8 u with
  | none =>
    rw [hc] at h
    cases h
    cases garbled
  | some p =>
    rw [hc] at h
    have len := cut_length hc
    have some : u ≠ [] := fun e => by rw [e, List.length_nil] at len; omega
    simp only at h
    split at h
    · cases h
    · cases h
      refine ⟨some, ?_⟩
      rw [List.length_cons]
      omega

/-- `next_tag` skips a byte at least. -/
theorem next_tag_short {u : List UInt8} (h : u ≠ []) : (nextTag u).length < u.length := by
  rw [nextTag]
  cases hc : cut 1 u with
  | none => exact List.length_pos_iff.2 h
  | some p =>
    have := cut_length hc
    simp only
    omega

theorem match_field_short {u v r : List UInt8} {tag : Tag} (h : matchField u tag = .done v r) :
    r.length < u.length := by
  obtain ⟨t, rfl, -⟩ := match_field_done.1 h
  rw [List.length_append, length_field_text]
  omega

/-- A field of another tag is passed over. -/
theorem match_field_garbled {u r : List UInt8} {tag : Tag} (h : matchField u tag = .stop .garbled r) :
    r.length < u.length := by
  rw [matchField] at h
  cases ht : parseTag u with
  | stop ret r' =>
    rw [ht] at h
    cases h
    obtain ⟨some, le⟩ := parse_tag_short ht rfl
    by_cases empty : r' = []
    · rw [empty]
      exact List.length_pos_iff.2 some
    · exact Nat.lt_of_lt_of_le (next_tag_short empty) le
  | done t r' =>
    rw [ht] at h
    obtain ⟨s, rfl, -⟩ := parse_tag_done.1 ht
    simp only at h
    split at h
    · cases h
      have le := (next_tag_suffix r').length_le
      rw [List.length_append, List.length_cons]
      omega
    · cases (parse_value_stop h).1

theorem body_length_short {u r : List UInt8} {x : U64} (h : parseBodyLength u = .done x r) : r.length < u.length := by
  obtain ⟨v, hm, -⟩ := body_length_done h
  exact match_field_short hm

theorem body_length_garbled {u r : List UInt8} (h : parseBodyLength u = .stop .garbled r) : r.length < u.length := by
  rcases body_length_stop h with hm | ⟨v, hm⟩
  · exact match_field_garbled hm
  · exact match_field_short hm

theorem msg_type_garbled {u r : List UInt8} {flags : U64} (h : parseMsgType u flags = .stop .garbled r) :
    r.length < u.length := by
  rcases msg_type_stop h with hm | ⟨v, hm⟩
  · exact match_field_garbled hm
  · exact match_field_short hm

/-- **The first three fields**: whatever is garbled is passed over. -/
theorem first_three_garbled {u r : List UInt8} {flags : U64} (h : firstThreeFields u flags = .stop .garbled r) :
    r.length < u.length := by
  rcases first_three_stop h with h8 | ⟨bs, r₁, h8, h9 | ⟨len, r₂, h9, h35⟩⟩
  · exact match_field_garbled h8
  · exact Nat.lt_trans (body_length_garbled h9) (match_field_short h8)
  · exact Nat.lt_trans (msg_type_garbled h35) (Nat.lt_trans (body_length_short h9) (match_field_short h8))

theorem first_three_short {u r : List UInt8} {f : Frame} {flags : U64} (h : firstThreeFields u flags = .done f r) :
    r.length < u.length := by
  have inside := first_three_inside h
  have := inside.msgType
  have := inside.behind
  omega

/-- A checksum that is wrong leaves fewer bytes. -/
theorem checksum_garbled {u r r' : List UInt8} {f : Frame} {flags : U64} (hf : f.Inside u r)
    (h : checksum u f r flags = .stop .garbled r') : r'.length < u.length := by
  have le : f.msgType + 3 - f.bodyLength.toNat ≤ u.length := by
    have := hf.msgType
    omega
  rw [checksum] at h
  split at h
  · cases h
  · split at h
    · cases h
    · split at h
      · rename_i hm
        cases h
        have := match_field_garbled hm
        rw [length_last le] at this
        omega
      · rename_i hm
        split at h
        · cases h
        · cases h
          have := match_field_short hm
          rw [length_last le] at this
          omega

section
variable {F : Type u} [Doubles F] {dialect : Dialect} {flags : U64}

/-- **Progress.** A garbled attempt, and one that finds a message, leaves fewer bytes. -/
theorem attempt_short {q : U64} {u r : List UInt8}
    (h : attempt (F := F) dialect flags q u = .stop .garbled r ∨
      ∃ m, attempt (F := F) dialect flags q u = .done (some m) r) : r.length < u.length := by
  rcases h with h | ⟨m, h⟩
  · rcases attempt_stop h with h3 | ⟨f, r₃, h3, hc⟩
    · exact first_three_garbled h3
    · exact checksum_garbled (first_three_inside h3) hc
  · obtain ⟨f, r₃, acc⟩ := attempt_done.1 h
    exact Nat.lt_of_le_of_lt (rest_suffix dialect _ _ _ acc.fields).length_le (first_three_short acc.head)

/-- Turns beyond the number of bytes do not matter. -/
theorem parse_from_turns (q : U64) (n k : Nat) (u : List UInt8) (h : u.length < n) :
    (parseFrom dialect flags q (n + k) u : Parsed F) = parseFrom dialect flags q n u := by
  induction n generalizing u with
  | zero => omega
  | succ n ih =>
    rw [Nat.succ_add, parseFrom, parseFrom]
    split
    · rfl
    · cases ha : attempt (F := F) dialect flags q u with
      | stop ret r =>
        cases ret with
        | msgPartial => rfl
        | garbled =>
          have := attempt_short (.inl ha)
          exact ih r (by omega)
      | done o r => cases o <;> rfl

/-- A garbled attempt is followed by a parse of what it leaves. -/
theorem parse_garbled {q : U64} {u r : List UInt8} (h : attempt (F := F) dialect flags q u = .stop .garbled r) :
    (parse dialect flags q u : Parsed F) = parse dialect flags q r := by
  have short := attempt_short (.inl h)
  have some : u ≠ [] := fun e => by rw [e] at short; exact absurd short (Nat.not_lt_zero _)
  have turns : u.length = r.length + 1 + (u.length - (r.length + 1)) := by omega
  rw [parse, parseFrom, if_neg some, h]
  simp only
  rw [turns, parse_from_turns q (r.length + 1) _ r (Nat.lt_succ_self _), parse]

/-- An attempt that finds a message is a parse that returns it. -/
theorem parse_done {q : U64} {u r : List UInt8} {m : Report F} (h : attempt dialect flags q u = .done (some m) r) :
    (parse dialect flags q u : Parsed F) = .message m u.length r := by
  have short := attempt_short (.inr ⟨m, h⟩)
  have some : u ≠ [] := fun e => by rw [e] at short; exact absurd short (Nat.not_lt_zero _)
  rw [parse, parseFrom, if_neg some, h]

/-! ## The chain of attempts -/

/-- Where an attempt goes does not depend on the sequence number before it. -/
theorem attempt_seq_num (q q' : U64) {u r : List UInt8} :
    (∀ ret, attempt (F := F) dialect flags q u = .stop ret r → attempt (F := F) dialect flags q' u = .stop ret r) ∧
      ∀ m, attempt (F := F) dialect flags q u = .done (some m) r →
        ∃ m', attempt (F := F) dialect flags q' u = .done (some m') r := by
  rw [attempt, attempt]
  cases h3 : firstThreeFields u flags with
  | stop ret r' => exact ⟨fun _ h => h, fun _ h => by cases h⟩
  | done f r₃ =>
    simp only
    cases hc : checksum u f r₃ flags with
    | stop ret r' => exact ⟨fun _ h => h, fun _ h => by cases h⟩
    | done x r' =>
      simp only
      refine ⟨fun _ h => ?_, fun m h => ?_⟩
      · split at h <;> cases h
      by_cases reads : readsSeqNum dialect (r'.length + 1) r' = true
      · rw [rest_reads dialect _ q q' [] r' reads] at h
        exact ⟨m, h⟩
      · rw [rest_keeps dialect _ q q' [] r' (Bool.eq_false_iff.2 reads)] at h
        cases hr : restOfMessageFrom (F := F) dialect (r'.length + 1) ⟨q', []⟩ r' with
        | none => rw [hr] at h; cases h
        | some p =>
          rw [hr] at h
          cases h
          exact ⟨_, rfl⟩

variable (F dialect flags)

/-- An attempt on `u` takes bytes away and leaves `w`. -/
def Advances (u w : List UInt8) : Prop :=
  attempt (F := F) dialect flags 0 u = .stop .garbled w ∨ ∃ m, attempt (F := F) dialect flags 0 u = .done (some m) w

variable {F dialect flags}

/-- Every garbled attempt leaves fewer bytes. -/
theorem Advances.short {u w : List UInt8} (h : Advances F dialect flags u w) : w.length < u.length := attempt_short h

theorem Advances.unique {u w w' : List UInt8} (h : Advances F dialect flags u w) (h' : Advances F dialect flags u w') :
    w = w' := by
  rcases h with h | ⟨m, h⟩ <;> rcases h' with h' | ⟨m', h'⟩ <;> rw [h] at h' <;> cases h' <;> rfl

theorem Advances.suffix {u w : List UInt8} (h : Advances F dialect flags u w) : w <:+ u := by
  rcases h with h | ⟨m, h⟩
  · exact attempt_suffix h
  · obtain ⟨f, r₃, acc⟩ := attempt_done.1 h
    exact (rest_suffix dialect _ _ _ acc.fields).trans (first_three_inside acc.head).rest

/-- What a parse does is a chain of attempts: garbled ones up to where it waits, or up to its message. -/
theorem parse_chain (q : U64) (u : List UInt8) :
    match (parse dialect flags q u : Parsed F) with
    | .message _ left r =>
      Relation.ReflTransGen (Advances F dialect flags) u (last left u) ∧ Advances F dialect flags (last left u) r
    | .waits w => Relation.ReflTransGen (Advances F dialect flags) u w
    | .fault => True := by
  induction hn : u.length using Nat.strongRecOn generalizing u with
  | ind n ih =>
    subst hn
    cases ha : attempt (F := F) dialect flags q u with
    | stop ret r =>
      cases ret with
      | msgPartial =>
        have same : (parse dialect flags q u : Parsed F) = .waits u := by
          rw [parse, parseFrom, ha]
          split <;> rfl
        simp only [same]
        exact .refl
      | garbled =>
        rw [parse_garbled ha]
        have step : Advances F dialect flags u r := .inl ((attempt_seq_num q 0).1 _ ha)
        have rest := ih r.length step.short r rfl
        cases hp : (parse dialect flags q r : Parsed F) with
        | message m left w =>
          rw [hp] at rest
          obtain ⟨chain, at'⟩ := rest
          have inside : left ≤ r.length := (parse_message hp).1
          rw [last_last step.suffix inside] at chain at'
          exact ⟨.head step chain, at'⟩
        | waits w =>
          rw [hp] at rest
          exact .head step rest
        | fault => trivial
    | done o r =>
      cases o with
      | none =>
        by_cases empty : u = []
        · have same : (parse dialect flags q u : Parsed F) = .waits u := by
            rw [parse, parseFrom, if_pos empty]
          simp only [same]
          exact .refl
        · have same : (parse dialect flags q u : Parsed F) = .fault := by
            rw [parse, parseFrom, ha, if_neg empty]
          simp only [same]
      | some m =>
        rw [parse_done ha]
        simp only [last_length]
        obtain ⟨m', hm'⟩ := (attempt_seq_num q 0).2 m ha
        exact ⟨.refl, .inr ⟨m', hm'⟩⟩

end

end Libtrading.Fix.Bytes
