import Libtrading.Fix.Pieces

/-!
# What a parse decides

What a parse decides stays decided when more bytes come, with two exceptions. A field that is not the one an
attempt looks for is skipped up to its SOH; where this has not come yet, the field is thrown away as far as it is
there, and what comes is taken for the next one. And `rest_of_message` goes from field to field up to a CheckSum,
and gives up where the bytes end.
-/

namespace Libtrading.Fix
open Buffer Wire
set_option autoImplicit false
universe u

namespace Bytes

/-! ## What depends on the end of the bytes -/

/-- The field at `u` ends behind the bytes. -/
def unended (u : List UInt8) : Bool :=
  match cut '='.toNat.toUInt8 u with
  | none => true
  | some (_, r) => decide (1 ∉ r)

/-- The field at `u` is not the one with `tag`, and its SOH is not there: it is skipped before it is whole. -/
def halved (tag : Tag) (u : List UInt8) : Bool :=
  match parseTag u with
  | .stop .msgPartial _ => false
  | .stop .garbled _ => unended u
  | .done t _ => decide (t ≠ tag) && unended u

/-- The fields of the frame that an attempt on `u` looks for, and where it does. -/
def looksFor (flags : U64) (u : List UInt8) : List (Tag × List UInt8) :=
  (Tag.beginString, u) ::
    match matchField u Tag.beginString with
    | .stop _ _ => []
    | .done _ r =>
      (Tag.bodyLength, r) ::
        match parseBodyLength r with
        | .stop _ _ => []
        | .done _ r =>
          (Tag.msgType, r) ::
            match firstThreeFields u flags with
            | .stop _ _ => []
            | .done f _ =>
              if f.bodyLength.toNat + 7 ≤ f.msgType + 3 ∧ flags &&& noCsum = 0 then
                [(Tag.checkSum, last (f.msgType + 3 - f.bodyLength.toNat) u)]
              else []

/-- `rest_of_message` comes to a field that ends behind the bytes. -/
def walksOff (dialect : Dialect) : Nat → List UInt8 → Bool
  | 0, _ => false
  | turns + 1, u =>
    match parseField u with
    | .stop _ _ => unended u
    | .done (tag, _) r =>
      match dialect.tagType tag with
      | .checkSum => false
      | _ => walksOff dialect turns r

/-- An attempt on `u` accepts a message whose fields go on behind the bytes. -/
def runsOut (dialect : Dialect) (flags : U64) (u : List UInt8) : Bool :=
  match firstThreeFields u flags with
  | .stop _ _ => false
  | .done f r =>
    match checksum u f r flags with
    | .stop _ _ => false
    | .done () r => walksOff dialect (r.length + 1) r

/-- An attempt on `u` skips no field before it is whole, and accepts no message whose fields go on behind the bytes. -/
def settled (dialect : Dialect) (flags : U64) (u : List UInt8) : Bool :=
  (looksFor flags u).all (fun p => !halved p.1 p.2) && !runsOut dialect flags u

section
variable {dialect : Dialect} {flags : U64} {u : List UInt8}

theorem looks_for_body_length {v r : List UInt8} (first : matchField u Tag.beginString = .done v r) :
    (Tag.bodyLength, r) ∈ looksFor flags u := by
  rw [looksFor, first]
  exact List.mem_cons_of_mem _ List.mem_cons_self

theorem looks_for_msg_type {v r r' : List UInt8} {len : U64} (first : matchField u Tag.beginString = .done v r)
    (second : parseBodyLength r = .done len r') : (Tag.msgType, r') ∈ looksFor flags u := by
  rw [looksFor, first]
  simp only [second]
  exact List.mem_cons_of_mem _ (List.mem_cons_of_mem _ List.mem_cons_self)

theorem looks_for_check_sum {f : Frame} {r : List UInt8} (frame : firstThreeFields u flags = .done f r)
    (there : f.bodyLength.toNat + 7 ≤ f.msgType + 3) (summed : flags &&& noCsum = 0) :
    (Tag.checkSum, last (f.msgType + 3 - f.bodyLength.toNat) u) ∈ looksFor flags u := by
  obtain ⟨bs, r₁, r₂, mt, h8, h9, -, -, -⟩ := first_three_done frame
  rw [looksFor, h8]
  simp only [h9, frame, if_pos (And.intro there summed)]
  exact List.mem_cons_of_mem _ (List.mem_cons_of_mem _ (List.mem_cons_of_mem _ List.mem_cons_self))

theorem settled_whole (h : settled dialect flags u = true) {tag : Tag} {r : List UInt8}
    (looks : (tag, r) ∈ looksFor flags u) : halved tag r = false := by
  rw [settled, Bool.and_eq_true, List.all_eq_true] at h
  simpa only [Bool.not_eq_true'] using h.1 (tag, r) looks

theorem settled_ends (h : settled dialect flags u = true) {f : Frame} {r : List UInt8}
    (frame : firstThreeFields u flags = .done f r) (sum : checksum u f r flags = .done () r) :
    walksOff dialect (r.length + 1) r = false := by
  rw [settled, Bool.and_eq_true, runsOut, frame] at h
  simpa only [sum, Bool.not_eq_true'] using h.2

end

/-! ## More bytes -/

section
variable {u r : List UInt8} (x : List UInt8)

/-- A skip that found its SOH is not changed by later bytes. -/
theorem next_tag_append (h : 1 ∈ u) : nextTag (u ++ x) = nextTag u ++ x := by
  cases hc : cut 1 u with
  | none => exact absurd h (cut_eq_none.1 hc)
  | some p =>
    obtain ⟨t, r⟩ := p
    rw [nextTag, nextTag, hc, cut_append hc]

/-- Nor is a field that was found. -/
theorem match_field_append {tag : Tag} {v : List UInt8} (h : matchField u tag = .done v r) :
    matchField (u ++ x) tag = .done v (r ++ x) := by
  obtain ⟨t, rfl, digits, number, soh⟩ := match_field_done.1 h
  exact match_field_done.2 ⟨t, by rw [List.append_assoc], digits, number, soh⟩

/-- A whole field that is skipped is skipped with more bytes behind it. -/
theorem match_field_skips {tag : Tag} (whole : halved tag u = false) (h : matchField u tag = .stop .garbled r) :
    matchField (u ++ x) tag = .stop .garbled (r ++ x) := by
  rw [halved, parseTag, unended] at whole
  rw [matchField, parseTag] at h ⊢
  cases hc : cut '='.toNat.toUInt8 u with
  | none => rw [hc] at h; cases h
  | some p =>
    obtain ⟨t, w⟩ := p
    rw [hc] at h whole
    rw [cut_append hc]
    by_cases digits : t.all isDigit = true
    · simp only [digits, if_true] at h whole ⊢
      by_cases same : fixUatoi t = tag
      · rw [if_neg (not_not.2 same)] at h
        cases (parse_value_stop h).1
      · rw [if_pos same] at h ⊢
        rw [decide_eq_true same, Bool.true_and] at whole
        cases h
        rw [next_tag_append x (not_not.1 (of_decide_eq_false whole))]
    · simp only [digits, Bool.false_eq_true, if_false] at h whole ⊢
      cases h
      have there := List.mem_cons_of_mem '='.toNat.toUInt8 (not_not.1 (of_decide_eq_false whole))
      rw [← List.cons_append, next_tag_append x there]

theorem body_length_append {len : U64} (h : parseBodyLength u = .done len r) :
    parseBodyLength (u ++ x) = .done len (r ++ x) := by
  obtain ⟨v, field, rfl, positive, most⟩ := body_length_done h
  rw [parseBodyLength, match_field_append x field]
  simp only
  rw [if_neg (by omega)]

theorem body_length_skips (whole : halved Tag.bodyLength u = false) (h : parseBodyLength u = .stop .garbled r) :
    parseBodyLength (u ++ x) = .stop .garbled (r ++ x) := by
  rw [parseBodyLength] at h ⊢
  cases hm : matchField u Tag.bodyLength with
  | stop ret w =>
    rw [hm] at h
    cases h
    rw [match_field_skips x whole hm]
  | done v w =>
    rw [hm] at h
    rw [match_field_append x hm]
    simp only at h ⊢
    split at h
    · rename_i out
      cases h
      rw [if_pos out]
    · cases h

variable {flags : U64}

theorem msg_type_append {p : List UInt8 × MsgType} (h : parseMsgType u flags = .done p r) :
    parseMsgType (u ++ x) flags = .done p (r ++ x) := by
  obtain ⟨v, type⟩ := p
  have field := msg_type_within h
  rw [parseMsgType, field] at h
  rw [parseMsgType, match_field_append x field]
  simp only at h ⊢
  by_cases untyped : flags &&& noType ≠ 0
  · rw [if_pos untyped] at h ⊢
    cases h
    rfl
  · rw [if_neg untyped] at h ⊢
    by_cases unknown : typeOf v = .unknown
    · rw [if_pos unknown] at h
      cases h
    · rw [if_neg unknown] at h ⊢
      cases h
      rfl

theorem msg_type_skips (whole : halved Tag.msgType u = false) (h : parseMsgType u flags = .stop .garbled r) :
    parseMsgType (u ++ x) flags = .stop .garbled (r ++ x) := by
  rw [parseMsgType] at h ⊢
  cases hm : matchField u Tag.msgType with
  | stop ret w =>
    rw [hm] at h
    cases h
    rw [match_field_skips x whole hm]
  | done v w =>
    rw [hm] at h
    rw [match_field_append x hm]
    simp only at h ⊢
    by_cases untyped : flags &&& noType ≠ 0
    · rw [if_pos untyped] at h
      cases h
    · rw [if_neg untyped] at h ⊢
      by_cases unknown : typeOf v = .unknown
      · rw [if_pos unknown] at h ⊢
        cases h
        rfl
      · rw [if_neg unknown] at h
        cases h

/-- The frame, with `n` more bytes left. -/
def Frame.ahead (f : Frame) (n : Nat) : Frame := { f with beginString := f.beginString + n, msgType := f.msgType + n }

theorem left_from_append (v r : List UInt8) : leftFrom v (r ++ x) = leftFrom v r + x.length := by
  simp only [leftFrom, List.length_append]
  omega

/-- **The first three fields**, once they are found. -/
theorem first_three_append {f : Frame} (h : firstThreeFields u flags = .done f r) :
    firstThreeFields (u ++ x) flags = .done (f.ahead x.length) (r ++ x) := by
  obtain ⟨bs, r₁, r₂, mt, h8, h9, h35, beginString, msgType⟩ := first_three_done h
  rw [firstThreeFields, match_field_append x h8]
  simp only [body_length_append x h9, msg_type_append x h35, left_from_append, ← beginString, ← msgType, Frame.ahead]

theorem first_three_skips (whole : ∀ {tag r}, (tag, r) ∈ looksFor flags u → halved tag r = false)
    (h : firstThreeFields u flags = .stop .garbled r) :
    firstThreeFields (u ++ x) flags = .stop .garbled (r ++ x) := by
  rw [firstThreeFields]
  rcases first_three_stop h with h8 | ⟨bs, r₁, h8, h9 | ⟨len, r₂, h9, h35⟩⟩
  · rw [match_field_skips x (whole List.mem_cons_self) h8]
  · rw [match_field_append x h8]
    simp only [body_length_skips x (whole (looks_for_body_length h8)) h9]
  · rw [match_field_append x h8]
    simp only [body_length_append x h9, msg_type_skips x (whole (looks_for_msg_type h8 h9)) h35]

/-- A place from which on `n` bytes are left is summed over with more bytes behind it. -/
theorem sum_left_append {start stop : Nat} (inside : start ≤ u.length) :
    sumLeft (u ++ x) (start + x.length) (stop + x.length) = sumLeft u start stop := by
  rw [sumLeft, sumLeft, last_append inside, Nat.add_sub_add_right,
    List.take_append_of_le_length (by rw [length_last inside]; omega)]

theorem verify_append {f : Frame} (inside : f.Inside u r) (v w : List UInt8) :
    verifyChecksum (u ++ x) (f.ahead x.length) v (w ++ x) = verifyChecksum u f v w := by
  have start : (f.ahead x.length).beginString + 2 = f.beginString + 2 + x.length := by
    simp only [Frame.ahead]
    omega
  have stop : leftFrom v (w ++ x) + 3 = leftFrom v w + 3 + x.length := by
    rw [left_from_append]
    omega
  have sum : sumLeft (u ++ x) ((f.ahead x.length).beginString + 2) (leftFrom v (w ++ x) + 3) =
      sumLeft u (f.beginString + 2) (leftFrom v w + 3) := by
    rw [start, stop, sum_left_append x inside.beginString]
  simp only [verifyChecksum, sum]

/-- Where BodyLength says that the CheckSum is. -/
theorem Frame.ahead_place {f : Frame} (there : ¬f.msgType + 3 < f.bodyLength.toNat + 7) (n : Nat) :
    ¬(f.ahead n).msgType + 3 < (f.ahead n).bodyLength.toNat + 7 ∧
      (f.ahead n).msgType + 3 - (f.ahead n).bodyLength.toNat = f.msgType + 3 - f.bodyLength.toNat + n := by
  simp only [Frame.ahead]
  omega

/-- **The checksum**, once it is right. -/
theorem checksum_append {f : Frame} (inside : f.Inside u r) (h : checksum u f r flags = .done () r) :
    checksum (u ++ x) (f.ahead x.length) (r ++ x) flags = .done () (r ++ x) := by
  rw [checksum] at h ⊢
  by_cases short : f.msgType + 3 < f.bodyLength.toNat + 7
  · rw [if_pos short] at h
    cases h
  obtain ⟨there, place⟩ := Frame.ahead_place short x.length
  have most := inside.msgType
  rw [if_neg short] at h
  rw [if_neg there]
  by_cases unsummed : flags &&& noCsum ≠ 0
  · rw [if_pos unsummed]
  · rw [if_neg unsummed] at h ⊢
    rw [place, last_append (by omega)]
    cases hm : matchField (last (f.msgType + 3 - f.bodyLength.toNat) u) Tag.checkSum with
    | stop ret w => rw [hm] at h; cases h
    | done v w =>
      rw [hm] at h
      rw [match_field_append x hm]
      simp only at h ⊢
      rw [verify_append x inside]
      split at h
      · rename_i right
        rw [if_pos right]
      · cases h

theorem checksum_skips {f : Frame} {w : List UInt8} (frame : firstThreeFields u flags = .done f r)
    (whole : ∀ {tag r}, (tag, r) ∈ looksFor flags u → halved tag r = false)
    (h : checksum u f r flags = .stop .garbled w) :
    checksum (u ++ x) (f.ahead x.length) (r ++ x) flags = .stop .garbled (w ++ x) := by
  have inside := first_three_inside frame
  have most := inside.msgType
  rw [checksum] at h ⊢
  by_cases short : f.msgType + 3 < f.bodyLength.toNat + 7
  · rw [if_pos short] at h
    cases h
  obtain ⟨there, place⟩ := Frame.ahead_place short x.length
  rw [if_neg short] at h
  rw [if_neg there]
  by_cases unsummed : flags &&& noCsum ≠ 0
  · rw [if_pos unsummed] at h
    cases h
  · rw [if_neg unsummed] at h ⊢
    rw [place, last_append (by omega)]
    have field := whole (looks_for_check_sum frame (by omega) (not_not.1 unsummed))
    cases hm : matchField (last (f.msgType + 3 - f.bodyLength.toNat) u) Tag.checkSum with
    | stop ret r' =>
      rw [hm] at h
      cases h
      rw [match_field_skips x field hm]
    | done v r' =>
      rw [hm] at h
      rw [match_field_append x hm]
      simp only at h ⊢
      rw [verify_append x inside]
      split at h
      · cases h
      · rename_i wrong
        cases h
        rw [if_neg wrong]

/-- A field of the body that is complete. -/
theorem parse_field_append {t : Tag} {v : List UInt8} (h : parseField u = .done (t, v) r) :
    parseField (u ++ x) = .done (t, v) (r ++ x) := by
  obtain ⟨s, rfl, digits, number, soh⟩ := parse_field_done.1 h
  exact parse_field_done.2 ⟨s, by rw [List.append_assoc], digits, number, soh⟩

/-- A whole field that cannot be read cannot be read with more bytes behind it. -/
theorem parse_field_stops {ret : MsgState} (whole : unended u = false) (h : parseField u = .stop ret r) :
    parseField (u ++ x) = .stop ret (r ++ x) := by
  rw [unended] at whole
  rw [parseField, parseTag] at h ⊢
  cases hc : cut '='.toNat.toUInt8 u with
  | none => rw [hc] at whole; cases whole
  | some p =>
    obtain ⟨t, w⟩ := p
    rw [hc] at h whole
    rw [cut_append hc]
    have soh : 1 ∈ w := not_not.1 (of_decide_eq_false whole)
    by_cases digits : t.all isDigit = true
    · simp only [digits, if_true] at h
      cases hv : parseValue w with
      | stop ret' w' =>
        rw [parseValue] at hv
        cases hw : cut 1 w with
        | none => exact absurd soh (cut_eq_none.1 hw)
        | some q => rw [hw] at hv; cases hv
      | done v w' => rw [hv] at h; cases h
    · simp only [digits, Bool.false_eq_true, if_false] at h ⊢
      cases h
      have there := List.mem_cons_of_mem '='.toNat.toUInt8 soh
      rw [← List.cons_append, next_tag_append x there]

variable {F : Type u} [Doubles F] {dialect : Dialect}

/-- Fields that end among the bytes are read the same with more bytes behind them, by induction on the turns. -/
theorem rest_append {n : Nat} (turns : u.length < n) (ends : walksOff dialect n u = false) (s : Rest F) (k : Nat) :
    restOfMessageFrom dialect (n + k) s (u ++ x) = (restOfMessageFrom dialect n s u).map fun p => (p.1, p.2 ++ x) := by
  induction n generalizing s u with
  | zero => omega
  | succ n ih =>
    rw [walksOff] at ends
    rw [Nat.succ_add, restOfMessageFrom, restOfMessageFrom]
    cases hf : parseField u with
    | stop ret r =>
      rw [hf] at ends
      rw [parse_field_stops x ends hf]
      rfl
    | done p r =>
      obtain ⟨tag, v⟩ := p
      rw [hf] at ends
      rw [parse_field_append x hf]
      obtain ⟨t, whole, -⟩ := parse_field_done.1 hf
      have shorter : r.length < n := by
        rw [whole, List.length_append, length_field_text] at turns
        omega
      simp only at ends ⊢
      cases type : dialect.tagType tag with
      | checkSum => rfl
      | msgSeqNum =>
        rw [type] at ends
        exact ih shorter ends _
      | int | float | char | string | string8 =>
        rw [type] at ends
        simp only at ends ⊢
        split
        · exact ih shorter ends _
        · split
          · exact ih shorter ends _
          · rfl

end

/-! ## Attempts and parses -/

section
variable (F : Type u) [Doubles F] (dialect : Dialect) (flags : U64)

/-- Every attempt of a parse of `u` is settled. -/
def Decided (u : List UInt8) : Prop :=
  ∀ v, Relation.ReflTransGen (Discards F dialect flags) u v → settled dialect flags v = true

variable {F dialect flags} {q : U64} {u r : List UInt8} (x : List UInt8)

/-- A settled attempt that is garbled is garbled with more bytes too, and leaves them as well. -/
theorem settled_garbled (h : settled dialect flags u = true)
    (garbled : attempt (F := F) dialect flags q u = .stop .garbled r) :
    attempt (F := F) dialect flags q (u ++ x) = .stop .garbled (r ++ x) := by
  rw [attempt]
  rcases attempt_stop garbled with h3 | ⟨f, r₃, h3, hc⟩
  · rw [first_three_skips x (settled_whole h) h3]
  · rw [first_three_append x h3]
    simp only [checksum_skips x h3 (settled_whole h) hc]

/-- One that finds a message finds it with more bytes, and leaves them as well. -/
theorem settled_accepts (h : settled dialect flags u = true) {m : Report F}
    (done : attempt dialect flags q u = .done (some m) r) :
    attempt dialect flags q (u ++ x) = .done (some m) (r ++ x) := by
  obtain ⟨f, r₃, head, sum, fields, type, bodyLength⟩ := attempt_done.1 done
  refine attempt_done.2 ⟨f.ahead x.length, r₃ ++ x, first_three_append x head,
    checksum_append x (first_three_inside head) sum, ?_, type, bodyLength⟩
  have walk := rest_append (F := F) x (Nat.lt_succ_self _) (settled_ends h head sum) ⟨q, []⟩ x.length
  have turns : (r₃ ++ x).length + 1 = r₃.length + 1 + x.length := by
    rw [List.length_append]
    omega
  rw [turns, walk, fields]
  rfl

theorem Decided.settled (h : Decided F dialect flags u) : settled dialect flags u = true := h u .refl

theorem Decided.incomplete (h : Bytes.settled dialect flags u = true) (waits : Incomplete F dialect flags u) :
    Decided F dialect flags u := by
  obtain ⟨r, waits⟩ := waits
  intro v chain
  rcases Relation.ReflTransGen.cases_head chain with rfl | ⟨w, step, -⟩
  · exact h
  · rw [Discards, waits] at step
    cases step

theorem Decided.accepted (h : Bytes.settled dialect flags u = true) {m : Report F}
    (done : attempt dialect flags 0 u = .done (some m) r) : Decided F dialect flags u := by
  intro v chain
  rcases Relation.ReflTransGen.cases_head chain with rfl | ⟨w, step, -⟩
  · exact h
  · rw [Discards, done] at step
    cases step

/-- What is decided of some bytes is decided of those behind a garbled attempt. -/
theorem Decided.next (h : Decided F dialect flags u) (garbled : attempt (F := F) dialect flags q u = .stop .garbled r) :
    Decided F dialect flags r :=
  fun v chain => h v (.head ((attempt_seq_num q 0).1 _ garbled) chain)

/-- **What a parse decides stays decided.** With more bytes it returns the same message, by induction over the
garbled attempts in front of it; and where it waits, it does with what it has kept what it would have done with all. -/
theorem Decided.parse (h : Decided F dialect flags u) :
    (∀ m left r, (Bytes.parse dialect flags q u : Parsed F) = .message m left r →
      Bytes.parse dialect flags q (u ++ x) = .message m (left + x.length) (r ++ x)) ∧
    ∀ w, (Bytes.parse dialect flags q u : Parsed F) = .waits w →
      (Bytes.parse dialect flags q (u ++ x) : Parsed F) = Bytes.parse dialect flags q (w ++ x) := by
  induction hn : u.length using Nat.strongRecOn generalizing u with
  | ind n ih =>
    subst hn
    cases ha : attempt (F := F) dialect flags q u with
    | stop ret r =>
      cases ret with
      | msgPartial =>
        have same : (Bytes.parse dialect flags q u : Parsed F) = .waits u := by
          rw [Bytes.parse, parseFrom, ha]
          split <;> rfl
        rw [same]
        constructor
        · intro m left r message
          cases message
        · intro w waits
          cases waits
          rfl
      | garbled =>
        rw [parse_garbled ha, parse_garbled (settled_garbled x h.settled ha)]
        exact ih r.length (attempt_short (.inl ha)) (h.next ha) rfl
    | done o r =>
      cases o with
      | none =>
        by_cases empty : u = []
        · have same : (Bytes.parse dialect flags q u : Parsed F) = .waits u := by
            rw [Bytes.parse, parseFrom, if_pos empty]
          rw [same]
          constructor
          · intro m left r message
            cases message
          · intro w waits
            cases waits
            rfl
        · have same : (Bytes.parse dialect flags q u : Parsed F) = .fault := by
            rw [Bytes.parse, parseFrom, ha, if_neg empty]
          rw [same]
          constructor
          · intro m left r message
            cases message
          · intro w waits
            cases waits
      | some m =>
        rw [parse_done ha, parse_done (settled_accepts x h.settled ha)]
        constructor
        · intro m' left r' message
          cases message
          rw [List.length_append]
        · intro w waits
          cases waits

end

end Bytes

end Libtrading.Fix
