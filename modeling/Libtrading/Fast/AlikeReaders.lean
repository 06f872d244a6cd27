import Libtrading.Fast.Alike
import Libtrading.Fast.Stores

/-!
# Readers that read alike

What the types of fields bring: a number, a decimal or a length is read into two fields in the same way, the
characters of a string and the bytes of a vector end up the same, and a difference is taken from the same value.
-/

namespace Libtrading.Fast
set_option autoImplicit false
open Buffer

/-! ## Numbers and decimals -/

/-- A number, which is given to the field when it was read. -/
def plain (α : Type) : Likeness α := ⟨id, fun _ _ => True, fun _ => True, True⟩

/-- A value of which all is seen, and the same in any state. -/
def whole (α : Type) : Likeness α := ⟨id, (· = ·), fun _ => True, True⟩

/-- Two fields that were given the same. -/
structure Field.Given {α : Type} (o f g : Field α) : Prop where
  left : o.SameTemplate f
  right : o.SameTemplate g
  state : f.state = g.state
  value : f.value = g.value

section Plain
variable {α : Type} {o f g : Field α}

theorem Field.Given.alike {ret : Ret} {b : Buffer} (h : Field.Given o f g) :
    Reading.Alike (plain α) o ⟨ret, b, f⟩ ⟨ret, b, g⟩ :=
  ⟨rfl, rfl, h.left, h.right, fun _ => trivial, fun _ => ⟨h.state, fun _ => h.value⟩⟩

theorem Field.SameTemplate.given (left : o.SameTemplate f) (right : o.SameTemplate g) (state : State) (value : α) :
    Field.Given o { f with state := state, value := value } { g with state := state, value := value } :=
  ⟨left.put _ _, right.put _ _, rfl, rfl⟩

/-- A reader that fails leaves the two fields as they were. -/
theorem refused_alike (left : o.SameTemplate f) (right : o.SameTemplate g) {ret : Ret} (refused : ret ≠ .ok) (b : Buffer) :
    Reading.Alike (plain α) o ⟨ret, b, f⟩ ⟨ret, b, g⟩ :=
  ⟨rfl, rfl, left, right, fun _ => trivial, fun ok => absurd ok refused⟩

end Plain

section Numbers
variable {o f g : Field (BitVec 64)}

/-- An unsigned number gives the field what is on the wire, whatever it held. -/
theorem uint_given (left : o.SameTemplate f) (right : o.SameTemplate g) (v : U64) :
    Field.Given o (assignUint f v) (assignUint g v) := by
  simp only [assignUint]
  rw [left.both right]
  split_ifs
  · exact left.given right _ _
  · exact left.given right _ _
  · exact left.given right _ _

theorem int_given (left : o.SameTemplate f) (right : o.SameTemplate g) (v : I64) :
    Field.Given o (assignInt f v) (assignInt g v) := by
  simp only [assignInt]
  rw [left.both right]
  split_ifs
  · exact left.given right _ _
  · exact left.given right _ _
  · exact left.given right _ _
  · exact left.given right _ _

/-- A difference is added to the same value on both sides. -/
theorem delta_given (left : o.SameTemplate f) (right : o.SameTemplate g) (same : f.value = g.value) (tmp : I64) :
    Field.Given o (assignDelta f tmp) (assignDelta g tmp) := by
  simp only [assignDelta]
  rw [left.both right, same]
  split_ifs
  · exact left.given right _ _
  · exact left.given right _ _
  · exact left.given right _ _
  · exact left.given right _ _

theorem parse_fails {b b' : Buffer} {ret : Ret} :
    (parseUint b = .fail ret b' → ret ≠ .ok) ∧ (parseInt b = .fail ret b' → ret ≠ .ok) := by
  constructor
  · intro fails
    rcases parse_groups_fails fails with rfl | rfl <;> decide
  · intro fails
    rcases parse_int_fails fails with rfl | rfl <;> decide

/-- **A number** is read alike. -/
theorem number_alike {parse : Buffer → Parse (BitVec 64)} (fails : ∀ {b b' ret}, parse b = .fail ret b' → ret ≠ .ok)
    {assign : Field (BitVec 64) → BitVec 64 → Field (BitVec 64)} (left : o.SameTemplate f) (right : o.SameTemplate g)
    (given : ∀ v, Field.Given o (assign f v) (assign g v)) (b : Buffer) :
    Reading.Alike (plain _) o (readNumber parse assign b f) (readNumber parse assign b g) ∧
      (f.value = g.value → (readNumber parse assign b f).field.value = (readNumber parse assign b g).field.value) := by
  unfold readNumber
  cases parsed : parse b with
  | fail ret b' => exact ⟨refused_alike left right (fails parsed) b', id⟩
  | done v b' => exact ⟨(given v).alike, fun _ => (given v).value⟩

/-- A number that was not read leaves the field as it was. -/
theorem number_unfinished {parse : Buffer → Parse (BitVec 64)} {assign : Field (BitVec 64) → BitVec 64 → Field (BitVec 64)}
    {b : Buffer} (stop : (readNumber parse assign b f).ret ≠ .ok) : (readNumber parse assign b f).field = f := by
  unfold readNumber at stop ⊢
  cases parsed : parse b with
  | fail ret b' => rfl
  | done v b' =>
    rw [parsed] at stop
    exact absurd rfl stop

theorem number_lockstep {K : Kind (BitVec 64)} {parse : Buffer → Parse (BitVec 64)}
    (fails : ∀ {b b' ret}, parse b = .fail ret b' → ret ≠ .ok)
    {assign : Field (BitVec 64) → BitVec 64 → Field (BitVec 64)}
    (given : ∀ {o f g : Field (BitVec 64)} (v : BitVec 64), o.SameTemplate f → o.SameTemplate g →
      Field.Given o (assign f v) (assign g v))
    (read : K.read = readNumber parse assign) (load : K.load = fun _ reset => reset) (incr : K.incr = some (· + 1))
    (delta : K.delta = some readDelta) : K.Lockstep (plain _) where
  read b left right _ := by
    rw [read]
    have went := (@number_alike _ _ _ parse (fun {_ _ _} => fails) assign left right (fun v => given v left right) b).1
    exact ⟨went, fun stop _ => .kept trivial (number_unfinished stop) (number_unfinished fun ok => stop (went.ret.trans ok))⟩
  delta reads b left right _ view := by
    rw [delta] at reads
    obtain rfl := Option.some.inj reads
    obtain ⟨alike, value⟩ := number_alike (fun {_ _ _} => parse_fails.2) left right (fun v => delta_given left right view v) b
    exact ⟨alike, value view⟩
  symm _ := trivial
  loaded v r := by
    rw [load]
  load _ _ := trivial
  kept _ _ _ := trivial
  incr inc := by
    rw [incr] at inc
    obtain rfl := Option.some.inj inc
    exact ⟨fun _ _ same => congrArg (· + 1) same, fun _ _ => trivial⟩

/-- The unsigned numbers need nothing of what the field held. -/
theorem uint_lockstep : uintKind.Lockstep (plain _) :=
  number_lockstep (fun {_ _ _} => parse_fails.1) (fun v left right => uint_given left right v) rfl rfl rfl rfl

/-- Nor do the signed ones. -/
theorem int_lockstep : intKind.Lockstep (plain _) :=
  number_lockstep (fun {_ _ _} => parse_fails.2) (fun v left right => int_given left right v) rfl rfl rfl rfl

end Numbers

section Nullable
variable {α : Type} {L : Likeness α} {o f g : Field α}

/-- What two readers come to: the number is not read, it stands for NULL, or both read on. -/
inductive NullableBoth (parse : Buffer → Parse (BitVec 64)) (rest : BitVec 64 → Buffer → Field α → Reading α) (b : Buffer)
    (f g : Field α) : Prop
  | failed {ret : Ret} {b' : Buffer} (parsed : parse b = .fail ret b')
    (left : readNullable parse rest b f = ⟨ret, b', f⟩) (right : readNullable parse rest b g = ⟨ret, b', g⟩)
  | null {b' : Buffer} (left : readNullable parse rest b f = ⟨.ok, b', { f with state := .empty }⟩)
    (right : readNullable parse rest b g = ⟨.ok, b', { g with state := .empty }⟩)
  | goes (v : BitVec 64) (b' : Buffer) (left : readNullable parse rest b f = rest v b' { f with state := .assigned })
    (right : readNullable parse rest b g = rest v b' { g with state := .assigned })

variable {parse : Buffer → Parse (BitVec 64)} {rest : BitVec 64 → Buffer → Field α → Reading α}

/-- A nullable number is null on both sides, or goes on on both. -/
theorem nullable_both (left : o.SameTemplate f) (right : o.SameTemplate g) (b : Buffer) :
    NullableBoth parse rest b f g := by
  cases parsed : parse b with
  | fail ret b' =>
    refine .failed parsed ?_ ?_
    · rw [readNullable, parsed]
    · rw [readNullable, parsed]
  | done v b' =>
    have mandatory : Field.isMandatory { g with state := .assigned } = Field.isMandatory { f with state := .assigned } :=
      (left.put .assigned f.value).both (right.put .assigned g.value)
    by_cases null : (!Field.isMandatory { f with state := .assigned } && v = 0) = true
    · refine @NullableBoth.null _ parse rest b f g b' ?_ ?_
      · rw [readNullable, parsed]
        exact if_pos null
      · rw [readNullable, parsed]
        exact if_pos (mandatory ▸ null)
    · refine .goes v b' ?_ ?_
      · rw [readNullable, parsed]
        exact if_neg null
      · rw [readNullable, parsed]
        exact if_neg (mandatory ▸ null)

/-- A value behind a number, where what reads on does so alike. -/
theorem nullable_alike (fails : ∀ {b b' ret}, parse b = .fail ret b' → ret ≠ .ok) (left : o.SameTemplate f)
    (right : o.SameTemplate g) (stored : L.Stored f.value g.value)
    (goes : ∀ v b, Reading.Alike L o (rest v b { f with state := .assigned }) (rest v b { g with state := .assigned }))
    (b : Buffer) : Reading.Alike L o (readNullable parse rest b f) (readNullable parse rest b g) := by
  have both : NullableBoth parse rest b f g := nullable_both left right b
  cases both with
  | failed parsed here there =>
    rw [here, there]
    exact ⟨rfl, rfl, left, right, fun _ => stored, fun ok => absurd ok (fails parsed)⟩
  | null here there =>
    rw [here, there]
    exact ⟨rfl, rfl, left.put _ _, right.put _ _, fun _ => stored, fun _ => ⟨rfl, fun some => absurd rfl some⟩⟩
  | goes v b' here there =>
    rw [here, there]
    exact goes v b'

/-- Where it stops, the number was not read, or both fields are assigned already. -/
theorem nullable_unfinished (lasting : L.Lasting) (left : o.SameTemplate f) (right : o.SameTemplate g)
    (goes : ∀ v b, (rest v b { f with state := .assigned }).ret ≠ .ok →
      (rest v b { f with state := .assigned }).ret ≠ .fault →
        (rest v b { f with state := .assigned }).field.state = (rest v b { g with state := .assigned }).field.state ∧
          L.view (rest v b { f with state := .assigned }).field.value =
            L.view (rest v b { g with state := .assigned }).field.value)
    {b : Buffer} (stop : (readNullable parse rest b f).ret ≠ .ok) (defined : (readNullable parse rest b f).ret ≠ .fault) :
    Reading.Unfinished L f g (readNullable parse rest b f) (readNullable parse rest b g) := by
  have both : NullableBoth parse rest b f g := nullable_both left right b
  cases both with
  | failed parsed here there =>
    rw [here, there]
    exact .kept lasting rfl rfl
  | null here there =>
    rw [here] at stop
    exact absurd rfl stop
  | goes v b' here there =>
    rw [here] at stop defined
    obtain ⟨state, value⟩ := goes v b' stop defined
    rw [here, there]
    exact .same state value

/-- The same of a difference, which is taken from the value before. -/
theorem nullable_view (left : o.SameTemplate f) (right : o.SameTemplate g) (view : L.view f.value = L.view g.value)
    (goes : ∀ v b, L.view (rest v b { f with state := .assigned }).field.value =
      L.view (rest v b { g with state := .assigned }).field.value) (b : Buffer) :
    L.view (readNullable parse rest b f).field.value = L.view (readNullable parse rest b g).field.value := by
  have both : NullableBoth parse rest b f g := nullable_both left right b
  cases both with
  | failed parsed here there =>
    rw [here, there]
    exact view
  | null here there =>
    rw [here, there]
    exact view
  | goes v b' here there =>
    rw [here, there]
    exact goes v b'

end Nullable

section Decimals
variable {o f g : Field Decimal}

/-- A mantissa is placed into the same decimal. -/
theorem mantissa_alike {place : Decimal → Decimal → Decimal} (left : o.SameTemplate f) (right : o.SameTemplate g)
    (value : f.value = g.value) (state : f.state = g.state) (exp : I64) (b : Buffer) :
    Reading.Alike (whole _) o (readMantissa place exp b f) (readMantissa place exp b g) ∧
      (readMantissa place exp b f).field.state = (readMantissa place exp b g).field.state ∧
        (readMantissa place exp b f).field.value = (readMantissa place exp b g).field.value := by
  have adjusted : adjustInt g exp = adjustInt f exp := by simp only [adjustInt, left.both right]
  unfold readMantissa
  simp only [adjusted, ← value]
  split_ifs
  · exact ⟨⟨rfl, rfl, left, right, fun _ => value, fun ok => by cases ok⟩, state, value⟩
  · cases parsed : parseInt b with
    | fail ret b' => exact ⟨⟨rfl, rfl, left, right, fun _ => value, fun ok => absurd ok (parse_fails.2 parsed)⟩, state, value⟩
    | done mnt b' =>
      exact ⟨⟨rfl, rfl, left.put _ _, right.put _ _, fun _ => rfl, fun _ => ⟨state, fun _ => rfl⟩⟩, state, rfl⟩

/-- Both fields read a decimal on top of the same one. -/
theorem decimal_with_alike {place : Decimal → Decimal → Decimal} (left : o.SameTemplate f) (right : o.SameTemplate g)
    (value : f.value = g.value) (b : Buffer) :
    Reading.Alike (whole _) o (readDecimalWith place b f) (readDecimalWith place b g) ∧
      ((readDecimalWith place b f).ret ≠ .ok → (readDecimalWith place b f).ret ≠ .fault →
        Reading.Unfinished (whole _) f g (readDecimalWith place b f) (readDecimalWith place b g)) := by
  have goes : ∀ exp b, _ := fun exp b =>
    @mantissa_alike _ _ _ place (left.put .assigned f.value) (right.put .assigned g.value) value rfl exp b
  refine ⟨nullable_alike (fun {_ _ _} => parse_fails.2) left right value (fun exp b => (goes exp b).1) b,
    fun stop defined => ?_⟩
  exact nullable_unfinished trivial left right (fun exp b _ _ => (goes exp b).2) stop defined

/-- **Decimals**. -/
theorem decimal_lockstep : decimalKind.Lockstep (whole _) where
  read b left right stored := decimal_with_alike left right stored b
  delta {_ _ f g} reads b left right stored view := by
    obtain rfl := Option.some.inj reads
    refine ⟨(decimal_with_alike left right stored b).1, ?_⟩
    exact nullable_view left right view
      (fun exp b => (mantissa_alike (left.put .assigned f.value) (right.put .assigned g.value) stored rfl exp b).2.2) b
  symm := Eq.symm
  loaded _ _ := rfl
  load _ _ := rfl
  kept _ _ view := view
  incr inc := by cases inc

end Decimals

/-! ## Strings and byte vectors -/

/-- A counted string, of which the characters up to the terminator are seen, and the same in any state. -/
def chars : Likeness Bytes where
  view := cstr
  Stored v w := (v.length = stringMaxBytes ∧ w.length = stringMaxBytes) ∧ cstr v = cstr w
  Initial reset := (cstr reset).length < stringMaxBytes
  Lasting := True

/-- An array of a string with a terminator at its end. -/
structure Terminated (v : Bytes) : Prop where
  size : v.length = stringMaxBytes
  last : v.getD (stringMaxBytes - 1) 0 = 0

/-- A string that is read byte by byte into its array, over the one before. -/
def passing : Likeness Bytes where
  view := cstr
  Stored v w := Terminated v ∧ Terminated w
  Initial reset := (cstr reset).length < stringMaxBytes
  Lasting := False

section Strings
variable {o f g : Field Bytes}

theorem vector_counted (left : o.SameTemplate f) (right : o.SameTemplate g) (value : f.value = g.value)
    (state : f.state = g.state) (len : U64) (b : Buffer) :
    Reading.Alike (whole _) o (readCounted len b f) (readCounted len b g) ∧
      (readCounted len b f).field.state = (readCounted len b g).field.state ∧
        (readCounted len b f).field.value = (readCounted len b g).field.value := by
  unfold readCounted
  simp only [left.both right, value]
  generalize (if f.isMandatory = true then len else len - 1) = len
  cases parsed : parseBytes b g.value (len.setWidth 32) with
  | fail ret b' =>
    have fails : ret ≠ .ok := by
      rcases parse_bytes_fails parsed with rfl | rfl <;> decide
    exact ⟨⟨rfl, rfl, left, right, fun _ => value, fun ok => absurd ok fails⟩, state, value⟩
  | done v b' =>
    simp only [terminateVector]
    split_ifs
    · exact ⟨⟨rfl, rfl, left.put _ _, right.put _ _, fun _ => rfl, fun ok => by cases ok⟩, state, rfl⟩
    · exact ⟨⟨rfl, rfl, left.put _ _, right.put _ _, fun _ => rfl, fun _ => ⟨state, fun _ => rfl⟩⟩, state, rfl⟩

/-- **Vectors**, whose array is compared whole. -/
theorem vector_lockstep : vectorKind.Lockstep (whole _) where
  read {_ f g} b left right stored := by
    have goes : ∀ len b, _ := fun len b =>
      vector_counted (left.put .assigned f.value) (right.put .assigned g.value) stored rfl len b
    refine ⟨nullable_alike (fun {_ _ _} => parse_fails.1) left right stored (fun len b => (goes len b).1) b,
      fun stop defined => ?_⟩
    exact nullable_unfinished trivial left right (fun len b _ _ => (goes len b).2) stop defined
  delta reads := by cases reads
  symm := Eq.symm
  loaded _ _ := rfl
  load _ _ := rfl
  kept _ _ view := view
  incr inc := by cases inc

/-- `parse_bytes` into two arrays of a size. -/
inductive BytesAlike (b : Buffer) (v w : Bytes) (n : BitVec 32) : Prop
  | fail (ret : Ret) (b' : Buffer) (left : parseBytes b v n = .fail ret b') (right : parseBytes b w n = .fail ret b')
  | done (bytes : Bytes) (b' : Buffer) (size : bytes.length = n.toNat) (room : n.toNat ≤ v.length)
    (left : parseBytes b v n = .done (bytes ++ v.drop n.toNat) b')
    (right : parseBytes b w n = .done (bytes ++ w.drop n.toNat) b')

/-- The bytes of a vector are stored over both arrays alike. -/
theorem bytes_alike (b : Buffer) {v w : Bytes} (size : v.length = w.length) (n : BitVec 32) : BytesAlike b v w n := by
  by_cases short : n.msb = true ∨ b.bufferSize < n.toNat
  · exact .fail .msgPartial b (if_pos short) (if_pos short)
  · by_cases small : v.length < n.toNat
    · refine .fail .fault b ?_ ?_
      · rw [parseBytes, if_neg short, if_pos small]
      · rw [parseBytes, if_neg short, if_pos (size ▸ small)]
    · refine .done (takeBytes n.toNat b).1 (takeBytes n.toNat b).2 (length_take_bytes ..) (Nat.le_of_not_lt small) ?_ ?_
      · rw [parseBytes, if_neg short, if_neg small]
      · rw [parseBytes, if_neg short, if_neg (size ▸ small)]

/-- The characters of a counted value are its bytes, up to a zero among them. -/
theorem counted_chars {bytes v : Bytes} {len : U64} (size : bytes.length = len.toNat) :
    cstr ((bytes ++ v.drop len.toNat).take len.toNat ++ List.replicate zeroFill 0 ++
      (bytes ++ v.drop len.toNat).drop (len.toNat + zeroFill)) = cstr bytes := by
  rw [List.take_left' size, List.append_assoc]
  exact cstr_terminated bytes _

theorem counted_size {bytes v : Bytes} {len : U64} (size : bytes.length = len.toNat) (array : v.length = stringMaxBytes)
    (fits : len.toNat + zeroFill ≤ stringMaxBytes) :
    ((bytes ++ v.drop len.toNat).take len.toNat ++ List.replicate zeroFill 0 ++
      (bytes ++ v.drop len.toNat).drop (len.toNat + zeroFill)).length = stringMaxBytes := by
  simp only [List.length_append, List.length_take, List.length_drop, List.length_replicate, size, array]
  omega

theorem string_counted (left : o.SameTemplate f) (right : o.SameTemplate g) (stored : chars.Stored f.value g.value)
    (state : f.state = g.state) (len : U64) (b : Buffer) :
    Reading.Alike chars o (readCounted len b f) (readCounted len b g) ∧
      ((readCounted len b f).ret ≠ .fault →
        (readCounted len b f).field.state = (readCounted len b g).field.state ∧
          cstr (readCounted len b f).field.value = cstr (readCounted len b g).field.value) := by
  unfold readCounted
  simp only [left.both right]
  generalize (if f.isMandatory = true then len else len - 1) = len
  cases bytes_alike b (stored.1.1.trans stored.1.2.symm) (len.setWidth 32) with
  | fail ret b' here there =>
    have fails : ret ≠ .ok := by
      rcases parse_bytes_fails here with rfl | rfl <;> decide
    rw [here, there]
    exact ⟨⟨rfl, rfl, left, right, fun _ => stored, fun ok => absurd ok fails⟩, fun _ => ⟨state, stored.2⟩⟩
  | done bytes b' size room here there =>
    rw [here, there]
    simp only [terminateVector]
    split_ifs with wide
    · exact ⟨⟨rfl, rfl, left.put _ _, right.put _ _, fun defined => absurd rfl defined, fun ok => by cases ok⟩,
        fun defined => absurd rfl defined⟩
    · have narrow : (len.setWidth 32).toNat = len.toNat := by
        rw [BitVec.toNat_setWidth]
        simp only [stringMaxBytes, zeroFill] at wide
        omega
      rw [narrow] at size ⊢
      have fits := Nat.le_of_not_lt wide
      have same := (counted_chars size (v := f.value)).trans (counted_chars size (v := g.value)).symm
      refine ⟨⟨rfl, rfl, left.put _ _, right.put _ _, fun _ => ⟨⟨?_, ?_⟩, same⟩, fun _ => ⟨state, fun _ => same⟩⟩,
        fun _ => ⟨state, same⟩⟩
      · exact counted_size size stored.1.1 fits
      · exact counted_size size stored.1.2 fits

theorem strcpy_size {v r : Bytes} (size : v.length = stringMaxBytes) (fits : (cstr r).length < stringMaxBytes) :
    (strcpy v r).length = stringMaxBytes := by
  rw [strcpy, List.length_append, List.length_cons, List.length_drop, size]
  omega

/-- **Unicode strings**, of which the characters are compared. -/
theorem unicode_lockstep : unicodeKind.Lockstep chars where
  read {_ f g} b left right stored := by
    have goes : ∀ len b, _ := fun len b =>
      string_counted (left.put .assigned f.value) (right.put .assigned g.value) stored rfl len b
    refine ⟨nullable_alike (fun {_ _ _} => parse_fails.1) left right stored (fun len b => (goes len b).1) b,
      fun stop defined => ?_⟩
    exact nullable_unfinished trivial left right (fun len b _ defined => (goes len b).2 defined) stop defined
  delta reads := by cases reads
  symm h := ⟨⟨h.1.2, h.1.1⟩, h.2.symm⟩
  loaded := cstr_strcpy
  load stored fits := ⟨⟨strcpy_size stored.1.1 fits, strcpy_size stored.1.2 fits⟩, (cstr_strcpy _ _).trans (cstr_strcpy _ _).symm⟩
  kept stored fits view := ⟨⟨stored.1.1, strcpy_size stored.1.2 fits⟩, Eq.trans view (cstr_strcpy _ _).symm⟩
  incr inc := by cases inc

/-- The reader does the same to two arrays that are the same up to where it stores, which is before `bound`. -/
structure StringsAlike (bound : Nat) (r r' : StringRead) : Prop where
  ret : r.ret = r'.ret
  len : r.len = r'.len
  buffer : r.buffer = r'.buffer
  taken : r.ret = .ok → ∃ u, r.value.take (r.len + 1) = u ++ [0] ∧ r'.value.take (r'.len + 1) = u ++ [0]
  refused : r.ret = .garbled → r.value.take bound = r'.value.take bound

/-- The string loop over two arrays, by induction on the room that is left. -/
theorem strings_alike {room n : Nat} {v w : Bytes} (b : Buffer) (before : v.take n = w.take n) (left : n + room < v.length)
    (right : n + room < w.length) :
    StringsAlike (n + room) (parseStringFrom room n v b) (parseStringFrom room n w b) := by
  induction room generalizing n v w b with
  | zero => exact ⟨rfl, rfl, rfl, (fun ok => by cases ok), fun _ => before⟩
  | succ room ih =>
    unfold parseStringFrom
    cases nextByte b with
    | none => exact ⟨rfl, rfl, rfl, (fun ok => by cases ok), fun refused => by cases refused⟩
    | some cb =>
      obtain ⟨c, b'⟩ := cb
      simp only
      split_ifs
      · refine ⟨rfl, rfl, rfl, fun _ => ⟨v.take n ++ [c &&& 0x7F], take_terminated (by omega) _, ?_⟩, fun refused => by
          cases refused⟩
        rw [before]
        exact take_terminated (by omega) _
      · have alike := ih (n := n + 1) (v := v.set n c) (w := w.set n c) b' ?_ (by rw [List.length_set]; omega)
          (by rw [List.length_set]; omega)
        · rw [show n + 1 + room = n + (room + 1) by omega] at alike
          exact alike
        · rw [take_set_succ (by omega), take_set_succ (by omega), before]

namespace Terminated
variable {v : Bytes}

theorem set (h : Terminated v) {i : Nat} {c : UInt8} (inside : i < stringMaxBytes - 1 ∨ c = 0) :
    Terminated (v.set i c) where
  size := List.length_set.trans h.size
  last := by
    have last := h.last
    rw [List.getD_eq_getElem?_getD] at last ⊢
    rw [List.getElem?_set]
    split_ifs with here full
    · exact inside.resolve_left fun before => by omega
    · rfl
    · exact last

/-- A text and its terminator, over the array. -/
theorem overwrite (h : Terminated v) {u : Bytes} (fits : u.length < stringMaxBytes) :
    Terminated (u ++ 0 :: v.drop (u.length + 1)) where
  size := by
    simp only [List.length_append, List.length_cons, List.length_drop, h.size]
    omega
  last := by
    have last := h.last
    rw [List.getD_eq_getElem?_getD] at last ⊢
    by_cases full : u.length = stringMaxBytes - 1
    · rw [← full, List.getElem?_append_right (Nat.le_refl _), Nat.sub_self]
      rfl
    · rw [behind_terminator (by omega)]
      exact last

theorem strcpy (h : Terminated v) {r : Bytes} (fits : (cstr r).length < stringMaxBytes) : Terminated (strcpy v r) :=
  h.overwrite fits

theorem parse_from {room n : Nat} (h : Terminated v) (inside : n + room ≤ stringMaxBytes - 1) (b : Buffer) :
    Terminated (parseStringFrom room n v b).value := by
  induction room generalizing n v b with
  | zero => exact h
  | succ room ih =>
    unfold parseStringFrom
    cases nextByte b with
    | none => exact h
    | some cb =>
      obtain ⟨c, b'⟩ := cb
      simp only
      split_ifs
      · exact (h.set (.inl (by omega))).set (.inr rfl)
      · exact ih (h.set (.inl (by omega))) (by omega) b'

/-- Two arrays with the same bytes before the last one. -/
theorem same {w : Bytes} (h : Terminated v) (h' : Terminated w)
    (before : v.take (stringMaxBytes - 1) = w.take (stringMaxBytes - 1)) : v = w := by
  have whole : ∀ u, Terminated u → u = u.take (stringMaxBytes - 1) ++ [0] := by
    intro u hu
    have size := hu.size
    have inside : stringMaxBytes - 1 < u.length := by
      rw [size]
      decide
    have last := hu.last
    rw [List.getD_eq_getElem?_getD, List.getElem?_eq_getElem inside, Option.getD_some] at last
    have split := List.take_succ_eq_append_getElem inside
    rw [last, List.take_of_length_le (by rw [size]; decide)] at split
    exact split
  rw [whole v h, whole w h', before]

end Terminated

theorem cstr_take {s u : Bytes} {n : Nat} (h : s.take n = u ++ [0]) : cstr s = cstr u := by
  have whole : s = u ++ 0 :: s.drop n := by
    rw [← List.singleton_append, ← List.append_assoc, ← h, List.take_append_drop]
  rw [whole]
  exact cstr_terminated u _

theorem headD_take {s u : Bytes} {n : Nat} (h : s.take (n + 1) = u ++ [0]) :
    s.headD 0 = (u ++ [0]).headD 0 := by
  rw [← h]
  cases s with
  | nil => rfl
  | cons c s => rfl

theorem ascii_alike (left : o.SameTemplate f) (right : o.SameTemplate g) (stored : passing.Stored f.value g.value) (b : Buffer) :
    Reading.Alike passing o (readAscii b f) (readAscii b g) ∧
      ((readAscii b f).ret ≠ .ok → (readAscii b f).ret ≠ .fault →
        Reading.Unfinished passing f g (readAscii b f) (readAscii b g)) := by
  have alike : StringsAlike (stringMaxBytes - 1) (parseString b f.value stringMaxBytes)
      (parseString b g.value stringMaxBytes) := by
    have went : StringsAlike (0 + (stringMaxBytes - 1)) (parseStringFrom (stringMaxBytes - 1) 0 f.value b)
        (parseStringFrom (stringMaxBytes - 1) 0 g.value b) :=
      strings_alike b rfl (by rw [stored.1.size]; decide) (by rw [stored.2.size]; decide)
    rw [Nat.zero_add] at went
    exact went
  have arrays : passing.Stored (parseString b f.value stringMaxBytes).value (parseString b g.value stringMaxBytes).value :=
    ⟨stored.1.parse_from (by decide) b, stored.2.parse_from (by decide) b⟩
  unfold readAscii assignAscii
  generalize parseString b f.value stringMaxBytes = r at alike arrays ⊢
  generalize parseString b g.value stringMaxBytes = r' at alike arrays ⊢
  obtain ⟨ret, len, buffer, taken, refused⟩ := alike
  have mandatory : Field.isMandatory { g with value := r'.value } = Field.isMandatory { f with value := r.value } :=
    (left.put f.state r.value).both (right.put g.state r'.value)
  simp only [mandatory, ← ret, ← len]
  by_cases ok : r.ret = .ok
  · obtain ⟨u, here, there⟩ := taken ok
    have first : r'.value.headD 0 = r.value.headD 0 := by
      rw [headD_take there, headD_take here]
    have same : cstr r.value = cstr r'.value := by rw [cstr_take here, cstr_take there]
    rw [if_neg (not_not_intro ok), if_neg (not_not_intro ok), first]
    split_ifs
    · exact ⟨⟨rfl, buffer, left.put _ _, right.put _ _, fun _ => arrays, fun _ => ⟨rfl, fun _ => same⟩⟩,
        fun stop => absurd rfl stop⟩
    · exact ⟨⟨rfl, buffer, left.put _ _, right.put _ _, fun _ => arrays, fun _ => ⟨rfl, fun _ => same⟩⟩,
        fun stop => absurd rfl stop⟩
  · rw [if_pos ok, if_pos ok]
    refine ⟨⟨rfl, buffer, left.put _ _, right.put _ _, fun _ => arrays, fun done => absurd done ok⟩, fun _ defined => ?_⟩
    refine .torn id rfl rfl ?_
    by_cases cut : r.ret = .msgPartial
    · exact .inl cut
    · have garbled : r.ret = .garbled := by
        cases is : r.ret with
        | ok => exact absurd is ok
        | garbled => rfl
        | msgPartial => exact absurd is cut
        | fault => exact absurd is defined
      exact .inr (congrArg cstr (arrays.1.same arrays.2 (refused garbled)))

/-- A delta makes the same characters of the same characters. -/
theorem splice_alike {v w d : Bytes} (same : cstr v = cstr w) (stored : passing.Stored v w) (length : I64) :
    (spliceAscii v d length = none ∧ spliceAscii w d length = none) ∨
      ∃ a b, spliceAscii v d length = some a ∧ spliceAscii w d length = some b ∧ cstr a = cstr b ∧ passing.Stored a b := by
  have shorter : (cstr w).length ≤ stringMaxBytes := by
    rw [← stored.2.size]
    exact (List.takeWhile_prefix _).length_le
  have taken : ∀ m, m ≤ (cstr w).length → v.take m = (cstr w).take m ∧ w.take m = (cstr w).take m := by
    intro m le
    have front : v.take m = (v.take (cstr v).length).take m := by
      rw [List.take_take, Nat.min_eq_left (same ▸ le)]
    have front' : w.take m = (w.take (cstr w).length).take m := by rw [List.take_take, Nat.min_eq_left le]
    rw [front, front', take_cstr, take_cstr, same]
    exact ⟨rfl, rfl⟩
  have made : ∀ (u : Bytes) (n : Nat), n = u.length → n + 1 ≤ stringMaxBytes →
      ∃ a b, some (u ++ 0 :: v.drop (n + 1)) = some a ∧ some (u ++ 0 :: w.drop (n + 1)) = some b ∧ cstr a = cstr b ∧
        passing.Stored a b := by
    rintro u n rfl fits
    refine ⟨_, _, rfl, rfl, ?_, stored.1.overwrite fits, stored.2.overwrite fits⟩
    rw [cstr_terminated, cstr_terminated]
  unfold spliceAscii
  simp only [same]
  split_ifs with back
  · exact .inl ⟨rfl, rfl⟩
  · exact .inl ⟨rfl, rfl⟩
  · obtain ⟨left, right⟩ := taken ((cstr w).length - length.toNat) (Nat.sub_le ..)
    rw [left, right]
    refine .inr (made _ _ ?_ (by omega))
    rw [List.length_append, List.length_take, Nat.min_eq_left (Nat.sub_le ..)]
  · exact .inl ⟨rfl, rfl⟩
  · exact .inl ⟨rfl, rfl⟩
  · obtain ⟨left, right⟩ := taken (cstr w).length (Nat.le_refl _)
    rw [left, right]
    refine .inr (made _ _ ?_ (by omega))
    rw [List.length_append, List.length_drop, List.length_take, Nat.min_self]
    omega

theorem spliced_alike (left : o.SameTemplate f) (right : o.SameTemplate g) (stored : passing.Stored f.value g.value)
    (view : cstr f.value = cstr g.value) (state : f.state = g.state) (length : I64) (b : Buffer) :
    Reading.Alike passing o (readSpliced length b f) (readSpliced length b g) ∧
      cstr (readSpliced length b f).field.value = cstr (readSpliced length b g).field.value := by
  have adjusted : adjustInt g length = adjustInt f length := by simp only [adjustInt, left.both right]
  unfold readSpliced assignAsciiDelta
  rw [adjusted]
  by_cases ok : (parseString b deltaScratch deltaScratch.length).ret = .ok
  · rw [if_neg (not_not_intro ok), if_neg (not_not_intro ok)]
    rcases splice_alike view stored (d := (parseString b deltaScratch deltaScratch.length).value) (adjustInt f length)
      with ⟨here, there⟩ | ⟨a, c, here, there, same, arrays⟩
    · rw [here, there]
      exact ⟨⟨rfl, rfl, left, right, fun _ => stored, fun done => by cases done⟩, view⟩
    · rw [here, there]
      exact ⟨⟨rfl, rfl, left.put _ _, right.put _ _, fun _ => arrays, fun _ => ⟨state, fun _ => same⟩⟩, same⟩
  · rw [if_pos ok, if_pos ok]
    exact ⟨⟨rfl, rfl, left, right, fun _ => stored, fun done => absurd done ok⟩, view⟩

/-- **ASCII strings**, which a delta splices. -/
theorem ascii_lockstep : asciiKind.Lockstep passing where
  read b left right stored := ascii_alike left right stored b
  delta {_ _ f g} reads b left right stored view := by
    obtain rfl := Option.some.inj reads
    have goes : ∀ v b, _ := fun v b =>
      spliced_alike (left.put .assigned f.value) (right.put .assigned g.value) stored view rfl v b
    constructor
    · exact nullable_alike (fun {_ _ _} => parse_fails.2) left right stored (fun v b => (goes v b).1) b
    · exact nullable_view (L := passing) left right view (fun v b => (goes v b).2) b
  symm h := ⟨h.2, h.1⟩
  loaded := cstr_strcpy
  load stored fits := ⟨stored.1.strcpy fits, stored.2.strcpy fits⟩
  kept stored fits _ := ⟨stored.1, stored.2.strcpy fits⟩
  incr inc := by cases inc

end Strings

end Libtrading.Fast
