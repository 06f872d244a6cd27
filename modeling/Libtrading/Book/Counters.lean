import Libtrading.Book.Routing

/-!
# The counter of a book

`apply_increment` counts an entry in its book before it tests for a gap and before `md_increment` reads the entry, so
an entry that it refuses then has moved the counter. `counters_right_iff` says when the counters still tell what was
applied: where nothing that was counted is refused, but in a book that counts from zero.
-/

namespace Libtrading.Book
set_option autoImplicit false
open Fast

/-! ## What was applied -/

/-- What becomes of an entry before it is counted. -/
inductive Reached where
  | ends
  | passed
  | counted (i : Nat) (b : FastBook) (rptSeq : U64)

/-- The way of an entry to its book, in a set of books. -/
def reached (dst : Option FastBook) (books : List FastBook) (md : MdEntry) : Reached :=
  match route books dst (fun b => b.active || b.join) md.securityId md.symbol with
  | .fail => .ends
  | .skip => .passed
  | .book i b =>
    match inSession b md.tradingSessionId with
    | none => .ends
    | some false => .passed
    | some true =>
      match md.rptSeq.get with
      | none => .ends
      | some rptSeq => .counted i b rptSeq

/-- The last number that an entry of a list has for a book. -/
def lastNumber (i : Nat) (entries : List (Nat × U64)) : Option U64 :=
  ((entries.filter fun e => e.1 = i).getLast?).map Prod.snd

section
variable (calloc : OrderBook → Option Addr)

/-- The entries that are applied: the book of each, and its number. -/
def appliedEntries (dst : Option FastBook) : List FastBook → List MdEntry → List (Nat × U64)
  | _, [] => []
  | books, md :: mds =>
    match reached dst books md with
    | .ends => []
    | .passed => appliedEntries dst books mds
    | .counted i b rptSeq =>
      let r := countEntry calloc b rptSeq md
      if r.1 = false then [] else (i, rptSeq) :: appliedEntries dst (books.set i r.2) mds

/-- After a call the counter of every book is the number of the entry that was applied to it last; where none was, a
counter that was not zero is what it was. -/
def CountersRight (dst : Option FastBook) (books : List FastBook) (msg : MdMessage) : Prop :=
  ∀ (i : Nat) (b b' : FastBook), books[i]? = some b → (applyIncrement calloc books dst msg).books[i]? = some b' →
    match lastNumber i (appliedEntries calloc dst books msg.entries) with
    | some rptSeq => b'.rptseq = rptSeq
    | none => b.rptseq ≠ 0 → b'.rptseq = b.rptseq

/-! ## When they are right -/

/-- An order that `ob_level_modify` takes: there is memory for a new level, and a level that is there is older. -/
def FastBook.Modifies (b : FastBook) (order : ObOrder) : Prop :=
  match b.ob.obLevelLookup order with
  | none => calloc b.ob ≠ none
  | some level => (b.ob.memory level).seqNum < order.seqNum

/-- A level that `ob_level_delete` can take out, or none. -/
def FastBook.Deletes (b : FastBook) (order : ObOrder) : Prop :=
  b.ob.obLevelLookup order = none ∨ ((b.ob.side order.buy).tree.remove gUintCompare order.price).1 = true

/-- An entry that `md_increment` can read and take. -/
def FastBook.Accepts (b : FastBook) (rptSeq : U64) (md : MdEntry) : Prop :=
  match readEntry b.tick md with
  | .bad => False
  | .emptyBook => True
  | .order buy price size =>
    match md.mdUpdateAction.get with
    | none => False
    | some action =>
      if action = 0 ∨ action = 1 then b.Modifies calloc ⟨rptSeq, price, size, buy⟩
      else action = 2 ∧
        if b.active then b.Deletes ⟨rptSeq, price, size, buy⟩ else b.Modifies calloc ⟨rptSeq, price, 0, buy⟩

/-- An entry that fits its book: it has the next number, or the book counts from zero, and it can be taken. -/
def FastBook.Fits (b : FastBook) (rptSeq : U64) (md : MdEntry) : Prop :=
  (b.rptseq = 0 ∨ b.rptseq + 1 = rptSeq) ∧ b.Accepts calloc rptSeq md

/-- No entry that is counted is refused, but in a book whose counter is zero, where nothing of the call was applied or
the refused entry has the number zero. `seen` are the books that the entries in front were applied to. -/
def NoneRefused (dst : Option FastBook) : List Nat → List FastBook → List MdEntry → Prop
  | _, _, [] => True
  | seen, books, md :: mds =>
    match reached dst books md with
    | .ends => True
    | .passed => NoneRefused dst seen books mds
    | .counted i b rptSeq =>
      (b.Fits calloc rptSeq md → NoneRefused dst (i :: seen) (books.set i (countEntry calloc b rptSeq md).2) mds) ∧
        (¬b.Fits calloc rptSeq md → b.rptseq = 0 ∧ (i ∉ seen ∨ rptSeq = 0))

/-! ## The loop, entry by entry -/

theorem apply_entries_reached (dst : Option FastBook) (books : List FastBook) (md : MdEntry) (mds : List MdEntry) :
    applyEntries calloc dst books (md :: mds) =
      match reached dst books md with
      | .ends => ⟨false, books, []⟩
      | .passed => applyEntries calloc dst books mds
      | .counted i b rptSeq =>
        let r := countEntry calloc b rptSeq md
        if r.1 = false then ⟨false, books.set i r.2, [i]⟩
        else
          let rest := applyEntries calloc dst (books.set i r.2) mds
          { rest with fed := i :: rest.fed } := by
  rw [applyEntries, reached]
  cases route books dst (fun b => b.active || b.join) md.securityId md.symbol with
  | fail => rfl
  | skip => rfl
  | book i b =>
    simp only
    cases inSession b md.tradingSessionId with
    | none => rfl
    | some here =>
      cases here with
      | false => rfl
      | true =>
        simp only
        cases md.rptSeq.get <;> rfl

theorem reached_book {dst : Option FastBook} {books : List FastBook} {md : MdEntry} {i : Nat} {b : FastBook}
    {rptSeq : U64} (counted : reached dst books md = .counted i b rptSeq) : books[i]? = some b := by
  rw [reached] at counted
  cases routed : route books dst (fun b => b.active || b.join) md.securityId md.symbol with
  | fail => rw [routed] at counted; cases counted
  | skip => rw [routed] at counted; cases counted
  | book j c =>
    rw [routed] at counted
    simp only at counted
    split at counted
    · cases counted
    · cases counted
    · split at counted
      · cases counted
      · cases counted
        exact (route_book routed).1

/-! ## One entry -/

theorem modify_iff (b : FastBook) (order : ObOrder) : (b.modify calloc order).1 = true ↔ b.Modifies calloc order := by
  simp only [FastBook.modify, FastBook.Modifies, OrderBook.obLevelModify, OrderBook.obLevelLookup]
  cases (b.ob.side order.buy).hash order.price with
  | none =>
    simp only
    cases calloc b.ob with
    | none =>
      have failed : ¬decide ((-1 : Int) = 0) = true := by decide
      exact iff_of_false failed (not_not.2 rfl)
    | some a => exact iff_of_true rfl (Option.some_ne_none a)
  | some level =>
    simp only
    by_cases newer : order.seqNum ≤ (b.ob.memory level).seqNum
    · simp only [if_pos newer]
      exact iff_of_false (by decide) (BitVec.not_lt.2 newer)
    · simp only [if_neg newer]
      exact iff_of_true rfl (BitVec.not_le.1 newer)

theorem delete_iff (b : FastBook) (order : ObOrder) : (b.delete order).1 = true ↔ b.Deletes order := by
  rw [FastBook.delete, FastBook.Deletes, OrderBook.obLevelDelete, OrderBook.obLevelLookup]
  simp only
  cases here : (b.ob.side order.buy).hash order.price with
  | none => exact iff_of_true rfl (.inl rfl)
  | some level =>
    have found : ((b.ob.side order.buy).hash.remove order.price).1 = true := by
      rw [Store.HashTable.remove, here]
      rfl
    simp only [found, Bool.true_eq_false, if_false]
    cases tree : ((b.ob.side order.buy).tree.remove gUintCompare order.price).1 with
    | false =>
      simp only [if_true]
      refine iff_of_false (by decide) ?_
      rintro (none | no)
      · cases none
      · cases no
    | true => exact iff_of_true rfl (.inr rfl)

theorem md_increment_iff (b : FastBook) (md : MdEntry) :
    (mdIncrement calloc b md).1 = true ↔ b.Accepts calloc b.rptseq md := by
  rw [mdIncrement, FastBook.Accepts]
  cases readEntry b.tick md with
  | bad => exact iff_of_false Bool.false_ne_true id
  | emptyBook => exact iff_of_true rfl trivial
  | order buy price size =>
    simp only
    cases md.mdUpdateAction.get with
    | none => exact iff_of_false Bool.false_ne_true id
    | some action =>
      simp only
      by_cases change : action = 0 ∨ action = 1
      · rw [if_pos change, if_pos change]
        exact modify_iff calloc b _
      · rw [if_neg change, if_neg change]
        by_cases delete : action = 2
        · rw [if_pos delete, and_iff_right delete]
          cases b.active with
          | true => exact delete_iff b _
          | false => exact modify_iff calloc b _
        · rw [if_neg delete]
          exact iff_of_false Bool.false_ne_true fun no => delete no.1

theorem md_increment_rptseq (b : FastBook) (md : MdEntry) : (mdIncrement calloc b md).2.rptseq = b.rptseq := by
  rw [mdIncrement]
  repeat' split
  all_goals rfl

/-- An entry that is in line is read with its number, and one that is not moves the counter. -/
theorem count_entry_eq (b : FastBook) (rptSeq : U64) (md : MdEntry) :
    countEntry calloc b rptSeq md =
      if b.rptseq = 0 ∨ b.rptseq + 1 = rptSeq then mdIncrement calloc { b with rptseq := rptSeq, empty := false } md
      else (false, { b with rptseq := b.rptseq + 1 }) := by
  rw [countEntry]
  by_cases zero : b.rptseq = 0
  · have number : rptSeq - 1 + 1 = rptSeq := BitVec.sub_add_cancel rptSeq 1
    simp only [zero, if_true, number, ne_eq, not_true, if_false, true_or]
  · simp only [zero, if_false, false_or]
    by_cases next : b.rptseq + 1 = rptSeq
    · rw [if_neg (not_not.2 next), if_pos next, next]
    · rw [if_pos next, if_neg next]

/-- An entry is taken if and only if it fits, and the counter is its number then. -/
theorem count_entry_iff (b : FastBook) (rptSeq : U64) (md : MdEntry) :
    (countEntry calloc b rptSeq md).1 = true ↔ b.Fits calloc rptSeq md := by
  rw [count_entry_eq, FastBook.Fits]
  by_cases inLine : b.rptseq = 0 ∨ b.rptseq + 1 = rptSeq
  · rw [if_pos inLine, and_iff_right inLine]
    exact md_increment_iff calloc _ md
  · rw [if_neg inLine]
    exact iff_of_false Bool.false_ne_true fun fits => inLine fits.1

/-- What an entry does to the counter, whether it is taken or not. -/
theorem count_entry_rptseq (b : FastBook) (rptSeq : U64) (md : MdEntry) :
    (countEntry calloc b rptSeq md).2.rptseq = if b.rptseq = 0 then rptSeq else b.rptseq + 1 := by
  rw [count_entry_eq]
  by_cases zero : b.rptseq = 0
  · rw [if_pos (.inl zero), if_pos zero, md_increment_rptseq]
  · rw [if_neg zero]
    by_cases next : b.rptseq + 1 = rptSeq
    · rw [if_pos (.inr next), md_increment_rptseq, next]
    · rw [if_neg (not_or.2 ⟨zero, next⟩)]

theorem fits_rptseq {b : FastBook} {rptSeq : U64} {md : MdEntry} (fits : b.Fits calloc rptSeq md) :
    (countEntry calloc b rptSeq md).2.rptseq = rptSeq := by
  rw [count_entry_rptseq]
  by_cases zero : b.rptseq = 0
  · rw [if_pos zero]
  · rw [if_neg zero]
    exact fits.1.resolve_left zero

/-! ## The whole call -/

theorem last_number_cons (i j : Nat) (rptSeq : U64) (entries : List (Nat × U64)) :
    lastNumber i ((j, rptSeq) :: entries) = (lastNumber i entries).or (if j = i then some rptSeq else none) := by
  rw [lastNumber, lastNumber, List.filter_cons]
  by_cases same : j = i
  · rw [if_pos (decide_eq_true same), if_pos same, List.getLast?_cons]
    cases (entries.filter fun e => e.1 = i).getLast? <;> rfl
  · rw [if_neg (by simpa using same), if_neg same, Option.or_none]

/-- What the counter of a book is to be, in front of an entry: what it is, but for a zero that no entry made. -/
def Due (seen : List Nat) (books : List FastBook) (due : Nat → Option U64) : Prop :=
  ∀ (i : Nat) (b : FastBook), books[i]? = some b → ∀ r, due i = some r ↔ (i ∈ seen ∨ b.rptseq ≠ 0) ∧ b.rptseq = r

variable {calloc}

/-- An entry that is applied makes its number due. -/
theorem due_applied {seen : List Nat} {books : List FastBook} {due : Nat → Option U64} (before : Due seen books due)
    {i : Nat} {b b' : FastBook} (here : books[i]? = some b) {rptSeq : U64} (counter : b'.rptseq = rptSeq) :
    Due (i :: seen) (books.set i b') (Function.update due i (some rptSeq)) := by
  intro j c there r
  by_cases same : j = i
  · subst same
    rw [List.getElem?_set_self (List.getElem?_eq_some_iff.1 here).1] at there
    cases there
    rw [Function.update_self, Option.some_inj, ← counter, and_iff_right (.inl List.mem_cons_self)]
  · rw [List.getElem?_set_ne (Ne.symm same)] at there
    rw [Function.update_of_ne same, before j c there, List.mem_cons, or_iff_right same]

/-- Where nothing is applied any more, the counters are right if they are what is due. -/
theorem right_unchanged {seen : List Nat} {books : List FastBook} {due : Nat → Option U64} (before : Due seen books due)
    (i : Nat) (b : FastBook) (here : books[i]? = some b) (r : U64) (is : (lastNumber i []).or (due i) = some r) :
    b.rptseq = r := ((before i b here r).1 is).2

/-- An entry that is refused leaves the counters right only where its book counts from zero. -/
theorem right_refused {seen : List Nat} {books : List FastBook} {due : Nat → Option U64} (before : Due seen books due)
    {i : Nat} {b : FastBook} (here : books[i]? = some b) (rptSeq : U64) (md : MdEntry) :
    (∀ (j : Nat) (b' : FastBook), (books.set i (countEntry calloc b rptSeq md).2)[j]? = some b' →
      ∀ r, (lastNumber j []).or (due j) = some r → b'.rptseq = r) ↔ b.rptseq = 0 ∧ (i ∉ seen ∨ rptSeq = 0) := by
  have counter := count_entry_rptseq calloc b rptSeq md
  constructor
  · intro right
    have self := right i _ (List.getElem?_set_self (List.getElem?_eq_some_iff.1 here).1)
    have zero : b.rptseq = 0 := by
      by_contra moved
      have same := self b.rptseq ((before i b here _).2 ⟨.inr moved, rfl⟩)
      rw [counter, if_neg moved] at same
      exact absurd same (by simp)
    refine ⟨zero, or_iff_not_imp_left.2 fun applied => ?_⟩
    have same := self b.rptseq ((before i b here _).2 ⟨.inl (not_not.1 applied), rfl⟩)
    rw [counter, if_pos zero, zero] at same
    exact same
  · rintro ⟨zero, first⟩ j b' there r is
    by_cases same : j = i
    · subst same
      rw [List.getElem?_set_self (List.getElem?_eq_some_iff.1 here).1] at there
      cases there
      obtain ⟨applied | moved, number⟩ := (before j b here r).1 is
      · rw [counter, if_pos zero, first.resolve_left (not_not.2 applied), ← number, zero]
      · exact absurd zero moved
    · rw [List.getElem?_set_ne (Ne.symm same)] at there
      exact right_unchanged before j b' there r is

/-- **The loop**: the counters are right at its end if and only if nothing is refused in it that should not be. -/
theorem entries_right_iff (dst : Option FastBook) {seen : List Nat} {books : List FastBook} {due : Nat → Option U64}
    (before : Due seen books due) (mds : List MdEntry) :
    (∀ (i : Nat) (b' : FastBook), (applyEntries calloc dst books mds).books[i]? = some b' →
      ∀ r, (lastNumber i (appliedEntries calloc dst books mds)).or (due i) = some r → b'.rptseq = r) ↔
      NoneRefused calloc dst seen books mds := by
  induction mds generalizing seen books due with
  | nil => exact iff_of_true (right_unchanged before) trivial
  | cons md mds ih =>
    rw [apply_entries_reached, appliedEntries, NoneRefused]
    cases counted : reached dst books md with
    | ends => exact iff_of_true (right_unchanged before) trivial
    | passed => exact ih before
    | counted i b rptSeq =>
      have here := reached_book counted
      simp only
      by_cases fits : b.Fits calloc rptSeq md
      · have taken := (count_entry_iff calloc b rptSeq md).2 fits
        rw [taken, if_neg Bool.noConfusion, if_neg Bool.noConfusion]
        rw [and_iff_left fun unfit => absurd fits unfit, imp_iff_right fits]
        refine Iff.trans ?_ (ih (due_applied before here (fits_rptseq calloc fits)))
        refine forall_congr' fun j => forall_congr' fun b' => imp_congr_right fun there => forall_congr' fun r => ?_
        rw [last_number_cons, Option.or_assoc]
        by_cases same : i = j
        · subst same
          rw [if_pos rfl, Function.update_self, Option.some_or]
        · rw [if_neg same, Function.update_of_ne (Ne.symm same), Option.none_or]
      · have refused : (countEntry calloc b rptSeq md).1 = false :=
          Bool.eq_false_iff.2 fun taken => fits ((count_entry_iff calloc b rptSeq md).1 taken)
        rw [if_pos refused, if_pos refused, and_iff_right fun fit => absurd fit fits, imp_iff_right fits]
        exact right_refused before here rptSeq md

/-- **Counters.** After a call every counter tells what was applied to its book last if and only if no entry that was
counted is refused, but in a book that counts from zero. -/
theorem counters_right_iff (dst : Option FastBook) (books : List FastBook) (msg : MdMessage) :
    CountersRight calloc dst books msg ↔ NoneRefused calloc dst [] books msg.entries := by
  have due : Due [] books fun i => (books[i]?).bind fun b => if b.rptseq = 0 then none else some b.rptseq := by
    intro i b here r
    simp only [here, Option.bind_some]
    by_cases zero : b.rptseq = 0
    · rw [if_pos zero]
      exact iff_of_false (by simp) fun is => is.1.elim List.not_mem_nil fun moved => moved zero
    · rw [if_neg zero, Option.some_inj, and_iff_right (.inr zero)]
  rw [← entries_right_iff dst due, CountersRight, apply_increment_entries]
  have last (i : Nat) (b b' : FastBook) (here : books[i]? = some b) (number : Option U64) :
      (match number with
        | some rptSeq => b'.rptseq = rptSeq
        | none => b.rptseq ≠ 0 → b'.rptseq = b.rptseq) ↔
      ∀ r, number.or ((books[i]?).bind fun b => if b.rptseq = 0 then none else some b.rptseq) = some r →
        b'.rptseq = r := by
    rw [here]
    cases number with
    | some rptSeq => exact ⟨fun right r is => right.trans (Option.some.inj is), fun right => right rptSeq rfl⟩
    | none =>
      simp only [Option.none_or, Option.bind_some]
      by_cases zero : b.rptseq = 0
      · rw [if_pos zero]
        exact iff_of_true (fun moved => absurd zero moved) fun r no => by cases no
      · rw [if_neg zero, imp_iff_right zero]
        exact ⟨fun right r is => right.trans (Option.some.inj is), fun right => right b.rptseq rfl⟩
  constructor
  · intro right i b' there
    obtain ⟨b, here, -⟩ := (apply_entries_keep calloc dst books msg.entries).1.2 i b' there
    exact (last i b b' here _).1 (right i b b' here there)
  · intro right i b b' here there
    exact (last i b b' here _).2 (right i b' there)

end

/-! ## A gap -/

/-- A book with the counter five. -/
def countedBook : FastBook := { subscribedBook 1 "AAPL" with rptseq := 5 }

/-- The entry with the number seven is refused, as the sixth is missing, and the counter is six; the same entry is
applied then. -/
theorem gap_counted : ¬CountersRight (fun _ => some 0) none [countedBook] (refreshOf 1 [bidEntry 1 7]) ∧
    (applyIncrement (fun _ => some 0)
      (applyIncrement (fun _ => some 0) [countedBook] none (refreshOf 1 [bidEntry 1 7])).books none
      (refreshOf 2 [bidEntry 1 7])).ok = true := by
  refine ⟨fun right => ?_, by decide +kernel⟩
  have counters : (applyIncrement (fun _ => some 0) [countedBook] none (refreshOf 1 [bidEntry 1 7])).books.map (·.rptseq) =
      [6] := by decide +kernel
  have nothing : appliedEntries (fun _ => some 0) none [countedBook] (refreshOf 1 [bidEntry 1 7]).entries = [] := by
    decide +kernel
  have first := congrArg (·[0]?) counters
  simp only [List.getElem?_map] at first
  obtain ⟨b', here, six⟩ := Option.map_eq_some_iff.1 first
  have same := right 0 countedBook b' rfl here
  rw [nothing] at same
  have five : b'.rptseq = 5 := same (by decide)
  exact absurd (six.symm.trans five) (by decide)

end Libtrading.Book
