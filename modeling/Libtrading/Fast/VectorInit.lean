import Libtrading.Fast.Template
import Libtrading.Wire.Hex

/-!
# The initial value of a byte vector

`fast_vector_init` goes over the text of a `value` by its own count: one character on from a blank, and two from any
other, however many of them `sscanf` has read there. So a text of pairs is loaded byte by byte; but a single digit is
taken for a byte as well, with the character behind it, which may be the terminator.
-/

namespace Libtrading.Fast
open Wire
set_option autoImplicit false

/-- `FAST_VECTOR_MAX_BYTES`. -/
def vectorMaxBytes : Nat := 256

/-- `isspace`. -/
def isSpace (c : UInt8) : Bool := c ∈ [32, 9, 10, 11, 12, 13]

/-- `sscanf` of "%02X": behind white space, two characters at most of a hexadecimal number with an optional sign.
A 0 and an x are the beginning of one. -/
def sscanf02X (s : List UInt8) : Option (BitVec 32) :=
  match s.dropWhile isSpace with
  | [] => none
  | c :: t =>
    let second := t.head?.bind hexValue
    if c = '+'.toNat.toUInt8 then second.map (BitVec.ofNat 32)
    else if c = '-'.toNat.toUInt8 then second.map fun v => -BitVec.ofNat 32 v
    else
      match hexValue c, second with
      | some h, some l => some (.ofNat 32 (16 * h + l))
      | some h, none =>
        if c = '0'.toNat.toUInt8 ∧ t.head? ∈ [some 'x'.toNat.toUInt8, some 'X'.toNat.toUInt8] then none
        else some (.ofNat 32 h)
      | none, _ => none

/-- What `fast_vector_init` comes to: its return, with the array behind it; or a character read behind the
terminator, or a byte stored behind the array. -/
inductive VectorInit where
  | returned (ret : Int) (out : Bytes)
  | readPast
  | wrotePast
  deriving DecidableEq, Repr

/-- The loop of `fast_vector_init` at a place in memory, with `n` bytes in the array. -/
def fastVectorInitFrom (n : Nat) (out : Bytes) : List UInt8 → VectorInit
  | [] => .readPast
  | c :: m =>
    if c = 0 then .returned 0 out
    else if isBlank c then fastVectorInitFrom n out m
    else
      match sscanf02X (c :: m) with
      | none => .returned (-1) out
      | some hex =>
        if n < out.length then
          match m with
          | [] => .readPast
          | _ :: m => fastVectorInitFrom (n + 1) (out.set n hex.toNat.toUInt8) m
        else .wrotePast

/-- `fast_vector_init` of the memory from `in` to the terminator. -/
def fastVectorInit (m : List UInt8) (out : Bytes) : VectorInit := fastVectorInitFrom 0 out m

/-- `fast_reset_init` of `FAST_TYPE_VECTOR`: what it returns, and the field; nothing where the loop leaves its
arrays. -/
def fastResetInitVector (f : Field Bytes) (prop : Option (List UInt8)) : Option (Int × Field Bytes) :=
  let f := { f with hasReset := false, value := blankBytes, previous := blankBytes }
  match prop with
  | none => some (0, f)
  | some w =>
    match fastVectorInit (w ++ [0]) f.reset with
    | .returned ret reset =>
      if ret = 0 then some (0, { f with hasReset := true, reset := reset, value := reset, previous := reset })
      else some (ret, { f with hasReset := true, reset := reset })
    | _ => none

namespace VectorInit

/-! ## Where numbers are read -/

/-- The places that the loop reads a number at, as long as it finds one. -/
def places : List UInt8 → List (List UInt8)
  | [] => []
  | c :: m =>
    if c = 0 then []
    else if isBlank c then places m
    else
      (c :: m) ::
        match m with
        | [] => []
        | _ :: m => places m

/-- Whether two digits are there. -/
def startsPair : List UInt8 → Bool
  | c :: d :: _ => (hexValue c).isSome && (hexValue d).isSome
  | _ => false

theorem places_zero (m : List UInt8) : places (0 :: m) = [] := by
  rw [places.eq_def]
  rfl

theorem places_blank {c : UInt8} (blank : isBlank c = true) (m : List UInt8) : places (c :: m) = places m := by
  have some : c ≠ 0 := by
    rintro rfl
    cases blank
  rw [places.eq_def]
  simp only [if_neg some, if_pos blank]

theorem places_cons {c d : UInt8} (zero : c ≠ 0) (blank : isBlank c = false) (m : List UInt8) :
    places (c :: d :: m) = (c :: d :: m) :: places m := by
  rw [places, if_neg zero, blank, if_neg Bool.false_ne_true]

theorem from_zero (n : Nat) (out : Bytes) (m : List UInt8) : fastVectorInitFrom n out (0 :: m) = .returned 0 out := by
  rw [fastVectorInitFrom.eq_def]
  rfl

theorem from_blank {c : UInt8} (blank : isBlank c = true) (n : Nat) (out : Bytes) (m : List UInt8) :
    fastVectorInitFrom n out (c :: m) = fastVectorInitFrom n out m := by
  have some : c ≠ 0 := by
    rintro rfl
    cases blank
  rw [fastVectorInitFrom.eq_def]
  simp only [if_neg some, if_pos blank]

theorem from_none {c : UInt8} {m : List UInt8} (zero : c ≠ 0) (blank : isBlank c = false)
    (none : sscanf02X (c :: m) = none) (n : Nat) (out : Bytes) :
    fastVectorInitFrom n out (c :: m) = .returned (-1) out := by
  rw [fastVectorInitFrom.eq_def]
  simp only [if_neg zero, blank, if_neg Bool.false_ne_true, none]

theorem from_some {c : UInt8} {m : List UInt8} {hex : BitVec 32} (zero : c ≠ 0) (blank : isBlank c = false)
    (some : sscanf02X (c :: m) = some hex) {n : Nat} {out : Bytes} (room : n < out.length) :
    fastVectorInitFrom n out (c :: m) =
      if m = [] then .readPast else fastVectorInitFrom (n + 1) (out.set n hex.toNat.toUInt8) m.tail := by
  rw [fastVectorInitFrom.eq_def]
  simp only [if_neg zero, blank, if_neg Bool.false_ne_true, some, if_pos room]
  cases m <;> rfl

theorem from_full {c : UInt8} {m : List UInt8} {hex : BitVec 32} (zero : c ≠ 0) (blank : isBlank c = false)
    (some : sscanf02X (c :: m) = some hex) {n : Nat} {out : Bytes} (full : ¬n < out.length) :
    fastVectorInitFrom n out (c :: m) = .wrotePast := by
  rw [fastVectorInitFrom.eq_def]
  simp only [if_neg zero, blank, if_neg Bool.false_ne_true, some, if_neg full]

/-- No digit is white space or a sign. -/
theorem hex_value_plain {c : UInt8} {h : Nat} (digit : hexValue c = some h) :
    isSpace c = false ∧ c ≠ '+'.toNat.toUInt8 ∧ c ≠ '-'.toNat.toUInt8 ∧ c ≠ 0 ∧ isBlank c = false := by
  refine ⟨?_, ?_, ?_, ?_, ?_⟩
  · refine decide_eq_false fun space => ?_
    simp only [List.mem_cons, List.not_mem_nil, or_false] at space
    rcases space with rfl | rfl | rfl | rfl | rfl | rfl <;> cases digit
  · rintro rfl
    cases digit
  · rintro rfl
    cases digit
  · rintro rfl
    cases digit
  · by_contra blank
    rw [Bool.not_eq_false] at blank
    rw [hex_value_blank blank] at digit
    cases digit

/-- Two digits are read as the byte they stand for. -/
theorem scan_pair {c d : UInt8} {h l : Nat} (high : hexValue c = some h) (low : hexValue d = some l) (m : List UInt8) :
    (sscanf02X (c :: d :: m)).map (fun hex => hex.toNat.toUInt8) = some (hexByte h l) := by
  obtain ⟨space, plus, minus, -, -⟩ := hex_value_plain high
  rw [sscanf02X, List.dropWhile_cons_of_neg (by rw [space]; exact Bool.false_ne_true)]
  simp only [List.head?_cons, Option.bind_some, low, high, if_neg plus, if_neg minus, Option.map_some, hexByte]
  refine congrArg some (UInt8.toNat_inj.1 ?_)
  show (UInt8.ofNat (BitVec.ofNat 32 (16 * h + l)).toNat).toNat = (UInt8.ofNat (16 * h + l)).toNat
  rw [UInt8.toNat_ofNat', UInt8.toNat_ofNat', BitVec.toNat_ofNat]
  omega

/-! ## What the loop comes to -/

/-- Whether there is no number at one of the places that the loop gets to before `room` bytes are stored, or then. -/
def fails (room : Nat) (m : List UInt8) : Bool := ((places m).take (room + 1)).any fun u => (sscanf02X u).isNone

theorem fails_cons {c d : UInt8} {m : List UInt8} {hex : BitVec 32} (zero : c ≠ 0) (blank : isBlank c = false)
    (some : sscanf02X (c :: d :: m) = some hex) (room : Nat) :
    fails (room + 1) (c :: d :: m) = fails room m := by
  rw [fails, places_cons zero blank, List.take_succ_cons, List.any_cons, some]
  rfl

theorem fails_none {c : UInt8} {m : List UInt8} (zero : c ≠ 0) (blank : isBlank c = false)
    (none : sscanf02X (c :: m) = none) (room : Nat) : fails room (c :: m) = true := by
  rw [fails, places.eq_def]
  simp only [if_neg zero, blank, if_neg Bool.false_ne_true, List.take_succ_cons, List.any_cons, none]
  rfl

theorem fails_first {c : UInt8} {m : List UInt8} {hex : BitVec 32} (zero : c ≠ 0) (blank : isBlank c = false)
    (some : sscanf02X (c :: m) = some hex) : fails 0 (c :: m) = false := by
  cases m with
  | nil =>
    rw [fails, places, if_neg zero, blank, if_neg Bool.false_ne_true]
    simp only [List.take_succ_cons, List.take_zero, List.any_cons, some, List.any_nil]
    rfl
  | cons d m =>
    rw [fails, places_cons zero blank, List.take_succ_cons, List.take_zero, List.any_cons, some]
    rfl

theorem fails_last {c : UInt8} {hex : BitVec 32} (zero : c ≠ 0) (blank : isBlank c = false)
    (some : sscanf02X [c] = some hex) (room : Nat) : fails room [c] = false := by
  rw [fails, places, if_neg zero, blank, if_neg Bool.false_ne_true]
  simp only [List.take_succ_cons, List.take_nil, List.any_cons, some, List.any_nil]
  rfl

/-- Where it fails, it returns so, by induction on the places. -/
theorem from_fails {m : List UInt8} {n : Nat} {out : Bytes} (h : fails (out.length - n) m = true) :
    ∃ out', fastVectorInitFrom n out m = .returned (-1) out' := by
  induction m using places.induct generalizing n out with
  | case1 => cases h
  | case2 m =>
    rw [fails, places_zero] at h
    cases h
  | case3 c m zero blank ih =>
    rw [from_blank blank]
    rw [fails, places_blank blank] at h
    exact ih h
  | case4 c m zero visible ih =>
    have blank := Bool.eq_false_iff.2 visible
    cases read : sscanf02X (c :: m) with
    | none => exact ⟨out, from_none zero blank read n out⟩
    | some hex =>
      by_cases room : n < out.length
      · cases m with
        | nil =>
          rw [fails_last zero blank read] at h
          cases h
        | cons d m =>
          rw [from_some zero blank read room, if_neg (List.cons_ne_nil d m)]
          have left : out.length - n = ((out.set n hex.toNat.toUInt8).length - (n + 1)) + 1 := by
            rw [List.length_set]
            omega
          rw [left, fails_cons zero blank read] at h
          exact ih h
      · have none : out.length - n = 0 := by omega
        rw [none, fails_first zero blank read] at h
        cases h

/-- Where it does not, it stores a byte for each of the places, and leaves one of the arrays or returns 0. -/
theorem from_reads {m : List UInt8} {n : Nat} {out : Bytes} (h : fails (out.length - n) m = false) :
    (out.length - n < (places m).length → fastVectorInitFrom n out m = .wrotePast) ∧
      ((places m).length ≤ out.length - n → fastVectorInitFrom n out m = .readPast ∨
        ∃ out', fastVectorInitFrom n out m = .returned 0 out') := by
  induction m using places.induct generalizing n out with
  | case1 => exact ⟨fun long => absurd long (Nat.not_lt_zero _), fun _ => .inl rfl⟩
  | case2 m =>
    rw [places_zero]
    exact ⟨fun long => absurd long (Nat.not_lt_zero _), fun _ => .inr ⟨out, from_zero n out m⟩⟩
  | case3 c m zero blank ih =>
    rw [from_blank blank, places_blank blank]
    rw [fails, places_blank blank] at h
    exact ih h
  | case4 c m zero visible ih =>
    have blank := Bool.eq_false_iff.2 visible
    cases read : sscanf02X (c :: m) with
    | none =>
      rw [fails_none zero blank read] at h
      cases h
    | some hex =>
      by_cases room : n < out.length
      · rw [from_some zero blank read room]
        cases m with
        | nil =>
          have one : (places [c]).length = 1 := by
            rw [places, if_neg zero, blank, if_neg Bool.false_ne_true]
            rfl
          rw [one]
          exact ⟨fun long => absurd long (by omega), fun _ => .inl rfl⟩
        | cons d m =>
          have left : out.length - n = ((out.set n hex.toNat.toUInt8).length - (n + 1)) + 1 := by
            rw [List.length_set]
            omega
          rw [left, fails_cons zero blank read] at h
          rw [if_neg (List.cons_ne_nil d m), places_cons zero blank, List.length_cons, left]
          obtain ⟨long, short⟩ := ih h
          exact ⟨fun more => long (by omega), fun most => short (by omega)⟩
      · have some : 0 < (places (c :: m)).length := by
          rw [places.eq_def]
          simp only [if_neg zero, blank, if_neg Bool.false_ne_true]
          exact Nat.succ_pos _
        exact ⟨fun _ => from_full zero blank read room, fun most => absurd most (by omega)⟩

/-! ## Pairs -/

/-- A text that denotes bytes has a pair of digits at each place, one for each byte. -/
theorem places_of_pairs {w bs : List UInt8} (h : Pairs w bs) :
    (places (w ++ [0])).length = bs.length ∧ ∀ u ∈ places (w ++ [0]), startsPair u = true := by
  induction h with
  | nil => exact ⟨rfl, fun u hu => absurd hu List.not_mem_nil⟩
  | blank blank rest ih => rwa [List.cons_append, places_blank blank]
  | @pair c d h l w bs high low rest ih =>
    obtain ⟨-, -, -, zero, blank⟩ := hex_value_plain high
    obtain ⟨count, all⟩ := ih
    have split : c :: d :: w ++ [0] = c :: d :: (w ++ [0]) := rfl
    rw [split, places_cons zero blank, List.length_cons, List.length_cons, count]
    refine ⟨rfl, fun u hu => ?_⟩
    rcases List.mem_cons.1 hu with rfl | later
    · rw [startsPair, high, low]
      rfl
    · exact all u later

/-- A text with a pair at each place denotes bytes, by induction on the places. -/
theorem pairs_of_places {m : List UInt8} (h : ∀ u ∈ places m, startsPair u = true) {w : List UInt8} (text : 0 ∉ w)
    (whole : m = w ++ [0]) : ∃ bs, Pairs w bs := by
  induction m using places.induct generalizing w with
  | case1 => exact absurd whole.symm (List.append_ne_nil_of_right_ne_nil w (List.cons_ne_nil 0 []))
  | case2 m =>
    cases w with
    | nil => exact ⟨[], .nil⟩
    | cons c w => exact absurd (List.mem_cons.2 (.inl (List.cons.inj whole).1)) text
  | case3 c m zero blank ih =>
    cases w with
    | nil => exact absurd (List.cons.inj whole).1 zero
    | cons c' w =>
      obtain ⟨rfl, rest⟩ := List.cons.inj whole
      rw [places_blank blank] at h
      obtain ⟨bs, pairs⟩ := ih h (fun hw => text (List.mem_cons_of_mem _ hw)) rest
      exact ⟨bs, .blank blank pairs⟩
  | case4 c m zero visible ih =>
    have blank := Bool.eq_false_iff.2 visible
    cases w with
    | nil => exact absurd (List.cons.inj whole).1 zero
    | cons c' w =>
      obtain ⟨rfl, rest⟩ := List.cons.inj whole
      cases m with
      | nil => exact absurd rest.symm (List.append_ne_nil_of_right_ne_nil w (List.cons_ne_nil 0 []))
      | cons d m =>
        rw [places_cons zero blank] at h
        have here := h _ List.mem_cons_self
        rw [startsPair, Bool.and_eq_true, Option.isSome_iff_exists, Option.isSome_iff_exists] at here
        obtain ⟨⟨a, high⟩, b, low⟩ := here
        cases w with
        | nil =>
          -- the second character is the terminator, which is no digit
          rw [(List.cons.inj rest).1, hex_value_zero.1] at low
          cases low
        | cons d' w =>
          obtain ⟨rfl, behind⟩ := List.cons.inj rest
          obtain ⟨bs, pairs⟩ := ih (fun u hu => h u (List.mem_cons_of_mem _ hu))
            (fun hw => text (List.mem_cons_of_mem _ (List.mem_cons_of_mem _ hw))) behind
          exact ⟨hexByte a b :: bs, .pair high low pairs⟩

/-- A pair of digits is a number. -/
theorem scan_of_pair {u : List UInt8} (h : startsPair u = true) : (sscanf02X u).isNone = false := by
  cases u with
  | nil => cases h
  | cons c u =>
    cases u with
    | nil => cases h
    | cons d m =>
      rw [startsPair, Bool.and_eq_true, Option.isSome_iff_exists, Option.isSome_iff_exists] at h
      obtain ⟨⟨a, high⟩, b, low⟩ := h
      have read := scan_pair high low m
      cases none : sscanf02X (c :: d :: m) with
      | none =>
        rw [none] at read
        cases read
      | some hex => rfl

theorem not_fails {m : List UInt8} (h : ∀ u ∈ places m, startsPair u = true) (room : Nat) : fails room m = false := by
  rw [fails, List.any_eq_false]
  intro u hu
  rw [scan_of_pair (h u (List.mem_of_mem_take hu))]
  exact Bool.false_ne_true

/-- Bytes that have room are stored in order, behind those that are there. -/
theorem from_pairs {w bs : List UInt8} (h : Pairs w bs) (done : Bytes) {out : Bytes} (room : bs.length ≤ out.length) :
    fastVectorInitFrom done.length (done ++ out) (w ++ [0]) = .returned 0 (done ++ (bs ++ out.drop bs.length)) := by
  induction h generalizing done out with
  | nil => exact from_zero _ _ _
  | blank blank rest ih =>
    rw [List.cons_append, from_blank blank]
    exact ih done room
  | @pair c d h l w bs high low rest ih =>
    obtain ⟨-, -, -, zero, blank⟩ := hex_value_plain high
    have read := scan_pair high low (w ++ [0])
    rw [Option.map_eq_some_iff] at read
    obtain ⟨hex, read, byte⟩ := read
    cases out with
    | nil => cases room
    | cons x out =>
      have there : done.length < (done ++ x :: out).length := by
        rw [List.length_append, List.length_cons]
        omega
      have stored : (done ++ x :: out).set done.length (hexByte h l) = done ++ [hexByte h l] ++ out := by
        rw [List.set_append_right _ _ (Nat.le_refl _), Nat.sub_self, List.set_cons_zero, List.append_assoc]
        rfl
      have next := ih (done ++ [hexByte h l]) (Nat.le_of_succ_le_succ room)
      rw [List.length_append] at next
      have split : c :: d :: w ++ [0] = c :: d :: (w ++ [0]) := rfl
      rw [split, from_some zero blank read there, if_neg (List.cons_ne_nil d _), byte, stored]
      refine next.trans ?_
      rw [List.append_assoc]
      rfl

theorem init_pairs {w bs : List UInt8} (h : Pairs w bs) {out : Bytes} (room : bs.length ≤ out.length) :
    fastVectorInit (w ++ [0]) out = .returned 0 (bs ++ out.drop bs.length) := from_pairs h [] room

/-! ## The whole of it -/

/-- A text is loaded safely and exactly: `fast_vector_init` returns, 0 exactly where the text denotes bytes for which
there is room, and these are then in the array. -/
def Exact (w : List UInt8) (out : Bytes) : Prop :=
  ∃ ret out', fastVectorInit (w ++ [0]) out = .returned ret out' ∧
    (ret = 0 ↔ ∃ bs, Pairs w bs ∧ bs.length ≤ vectorMaxBytes) ∧
    ∀ bs, Pairs w bs → ret = 0 → out' = bs ++ out.drop bs.length

/-- No number is found before more bytes are stored than there is room for; or there are no more of them, and each is
of two digits. -/
def regular (w : List UInt8) : Bool :=
  fails vectorMaxBytes (w ++ [0]) ||
    decide ((places (w ++ [0])).length ≤ vectorMaxBytes) && (places (w ++ [0])).all startsPair

/-- **The initial value of a byte vector** is loaded safely and exactly where the loop fails in time, or comes to pairs
of digits alone, and not to too many. -/
theorem vector_init_exact {w : List UInt8} (text : 0 ∉ w) {out : Bytes} (size : out.length = vectorMaxBytes) :
    Exact w out ↔ regular w = true := by
  rw [regular, Bool.or_eq_true, Bool.and_eq_true, decide_eq_true_eq, List.all_eq_true]
  have room : out.length - 0 = vectorMaxBytes := size
  by_cases fail : fails vectorMaxBytes (w ++ [0]) = true
  · refine ⟨fun _ => .inl fail, fun _ => ?_⟩
    obtain ⟨out', returned⟩ := from_fails (n := 0) (by rw [room]; exact fail)
    refine ⟨-1, out', returned, ⟨fun zero => (by cases zero), ?_⟩, fun bs _ zero => by cases zero⟩
    rintro ⟨bs, pairs, -⟩
    rw [not_fails (places_of_pairs pairs).2] at fail
    cases fail
  · rw [or_iff_right fail]
    have finds : fails (out.length - 0) (w ++ [0]) = false := by
      rw [room]
      exact Bool.eq_false_iff.2 fail
    obtain ⟨long, short⟩ := from_reads finds
    constructor
    · rintro ⟨ret, out', returned, zero, -⟩
      have most : (places (w ++ [0])).length ≤ vectorMaxBytes := by
        by_contra more
        rw [fastVectorInit, long (by rw [room]; exact Nat.lt_of_not_le more)] at returned
        cases returned
      refine ⟨most, ?_⟩
      rcases short (by rw [room]; exact most) with past | ⟨out'', all⟩
      · rw [fastVectorInit, past] at returned
        cases returned
      · rw [fastVectorInit, all] at returned
        cases returned
        obtain ⟨bs, pairs, -⟩ := zero.1 rfl
        exact (places_of_pairs pairs).2
    · rintro ⟨most, all⟩
      obtain ⟨bs, pairs⟩ := pairs_of_places all text rfl
      have count := (places_of_pairs pairs).1
      rw [count] at most
      have loaded : fastVectorInit (w ++ [0]) out = .returned 0 (bs ++ out.drop bs.length) :=
        init_pairs pairs (by rw [size]; exact most)
      refine ⟨0, _, loaded, ⟨fun _ => ⟨bs, pairs, most⟩, fun _ => rfl⟩, fun bs' pairs' _ => ?_⟩
      rw [pairs_unique pairs pairs']

theorem blank_length : blankBytes.length = vectorMaxBytes := List.length_replicate

/-- The initial value of a template's byte vector is the bytes that its text denotes. -/
theorem reset_init_vector {w bs : List UInt8} (pairs : Pairs w bs) (room : bs.length ≤ vectorMaxBytes) {n : Node Bytes}
    (op : n.op ≠ .none) :
    fastResetInitVector (vectorInit { n with value := none }) (some w) =
      some (0, vectorInit { n with value := some bs }) := by
  have prop : ∀ v : Option Bytes, ({ n with value := v } : Node Bytes).prop = v := by
    intro v
    rw [Node.prop]
    split
    · exact absurd ‹_› op
    · rfl
  have loaded : fastVectorInit (w ++ [0]) blankBytes = .returned 0 (bs ++ blankBytes.drop bs.length) := by
    refine init_pairs pairs ?_
    rw [blank_length]
    exact room
  have fresh : (vectorInit { n with value := none }).reset = blankBytes := by
    simp only [vectorInit, Node.fieldInit, Option.map_none, prop, Option.getD_none]
  rw [fastResetInitVector]
  simp only [fresh, loaded, if_true]
  simp only [vectorInit, Node.fieldInit, Option.map_some, prop, Option.isSome_some, Option.getD_some]

/-- Two bytes, "0A fF ". -/
theorem two_bytes_exact : Exact [0x30, 0x41, 0x20, 0x66, 0x46, 0x20] blankBytes :=
  (vector_init_exact (by decide) blank_length).2 (by decide)

/-- A single digit, "A". -/
theorem single_digit_read_past : ¬Exact [0x41] blankBytes := by
  rintro ⟨ret, out', returned, -⟩
  have past : fastVectorInit ([0x41] ++ [0]) blankBytes = .readPast := by decide +kernel
  rw [past] at returned
  cases returned

end VectorInit

end Libtrading.Fast
