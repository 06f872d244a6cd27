import Libtrading.Book.Counters
import Libtrading.Book.Levels

/-!
# Entries and the levels they leave

An entry of an increment sets the size at a price, removes the price, or empties the book. Of an empty book
`md_increment` marks the flag and leaves the levels, so a book shows what was sent only if there are no levels when it
comes. `levels_shown_iff` says so of every run of entries that come in order.
-/

namespace Libtrading.Book
set_option autoImplicit false
open Fast OrderBook

/-! ## What was sent -/

/-- The sizes that were sent, by side and price. -/
abbrev Sent := Bool → U64 → Option U64

namespace Sent

def set (sent : Sent) (buy : Bool) (price : U64) (size : Option U64) : Sent :=
  Function.update sent buy (Function.update (sent buy) price size)

/-- An entry that a book with this tick takes: it empties the book, removes a price, or sets the size at one. -/
def entry (sent : Sent) (tick : Decimal) (md : MdEntry) : Sent :=
  match readEntry tick md with
  | .bad => sent
  | .emptyBook => fun _ _ => none
  | .order buy price size => sent.set buy price (if md.mdUpdateAction.get = some 2 then none else some size)

end Sent

/-- The sizes of the levels of a map. -/
def sizes (m : Levels) : Sent := fun buy price => (m buy price).map Prod.snd

/-- The three containers of both sides have the levels that were sent. -/
def OrderBook.Shows (ob : OrderBook) (sent : Sent) : Prop := ∃ m, ob.Exact m ∧ sizes m = sent

/-! ## Entries in order -/

/-- An entry that came to a book: the book and what was sent before it, its number, and the entry. -/
structure Came where
  book : FastBook
  sent : Sent
  rptSeq : U64
  md : MdEntry

section
variable (calloc : OrderBook → Option Addr)

namespace Came

/-- Whether `md_increment` returned 0. -/
def taken (c : Came) : Bool := (countEntry calloc c.book c.rptSeq c.md).1

/-- The book behind the entry. -/
def left (c : Came) : FastBook := (countEntry calloc c.book c.rptSeq c.md).2

/-- What was sent with it, as far as it was taken. -/
def sentWith (c : Came) : Sent := if c.taken calloc then c.sent.entry c.book.tick c.md else c.sent

/-- An entry that was taken leaves the levels that were sent. -/
def Right (c : Came) : Prop := c.taken calloc = true → (c.left calloc).ob.Shows (c.sentWith calloc)

/-- An empty book comes to one with no levels, and a new level gets no price beside one that has the same low 32
bits. -/
def Harmless (c : Came) : Prop :=
  match readEntry c.book.tick c.md with
  | .bad => True
  | .emptyBook => ∀ buy price, (c.book.ob.side buy).hash price = none
  | .order buy price _ =>
    c.md.mdUpdateAction.get = some 0 ∨ c.md.mdUpdateAction.get = some 1 → calloc c.book.ob ≠ none →
      (c.book.ob.side buy).hash price = none → ∀ p, (c.book.ob.side buy).hash p ≠ none → low p = low price → p = price

end Came

/-- The entries that came to an active book one after the other, the last one first. In front of them its containers
agree on its levels. -/
inductive Entries : List Came → FastBook → Sent → Prop
  | start {b : FastBook} {m : Levels} (active : b.active = true) (agree : b.ob.Indexed m) : Entries [] b (sizes m)
  | entry {cs : List Came} {b : FastBook} {sent : Sent} (before : Entries cs b sent) (rptSeq : U64) (md : MdEntry)
      (inLine : b.rptseq = 0 ∨ b.rptseq + 1 = rptSeq) :
      Entries (⟨b, sent, rptSeq, md⟩ :: cs) (Came.left calloc ⟨b, sent, rptSeq, md⟩)
        (Came.sentWith calloc ⟨b, sent, rptSeq, md⟩)

/-- What one entry does: its levels are shown if and only if it is harmless, and then the containers agree behind it. -/
structure Came.Shown (c : Came) : Prop where
  iff : c.Right calloc ↔ c.Harmless calloc
  agree : c.Harmless calloc → ∃ m, (c.left calloc).ob.Indexed m ∧ sizes m = c.sentWith calloc

/-! ## One entry -/

variable {calloc}

theorem exact_sizes {ob : OrderBook} {m : Levels} (exact : ob.Exact m) (buy : Bool) (price : U64) :
    sizes m buy price = none ↔ (ob.side buy).hash price = none := by
  rw [sizes, ← exact.lookup buy price, Option.map_eq_none_iff, Option.map_eq_none_iff]

/-- A book shows no levels if and only if it has none. -/
theorem shows_none {ob : OrderBook} {m : Levels} (agree : ob.Indexed m) :
    ob.Shows (fun _ _ => none) ↔ ∀ buy price, (ob.side buy).hash price = none := by
  constructor
  · rintro ⟨m', exact, none⟩ buy price
    rw [← exact_sizes exact, none]
  · intro none
    refine ⟨m, agree.exact, funext fun buy => funext fun price => ?_⟩
    exact (exact_sizes agree.exact buy price).2 (none buy price)

theorem sizes_set (m : Levels) (buy : Bool) (price : U64) (v : Option (U64 × U64)) :
    sizes (m.set buy price v) = (sizes m).set buy price (v.map Prod.snd) := by
  funext buy' price'
  rw [sizes, Levels.set, Sent.set]
  by_cases side : buy' = buy
  · subst side
    rw [Function.update_self, Function.update_self]
    by_cases here : price' = price
    · rw [here, Function.update_self, Function.update_self]
    · rw [Function.update_of_ne here, Function.update_of_ne here]
      rfl
  · rw [Function.update_of_ne side, Function.update_of_ne side]
    rfl

theorem sizes_modify (m : Levels) (order : ObOrder) (room : Bool) :
    sizes (m.modify order room).2 =
      if (m.modify order room).1 = 0 then (sizes m).set order.buy order.price (some order.size) else sizes m := by
  have set := sizes_set m order.buy order.price (some (order.seqNum, order.size))
  rw [Levels.modify]
  split
  · cases room with
    | true => exact set
    | false => rfl
  · split
    · exact set
    · rfl

/-- The call that an entry makes on the levels of an active book, whatever its number. -/
theorem entry_calls {b : FastBook} (active : b.active = true) {rptSeq : U64} {md : MdEntry}
    (inLine : b.rptseq = 0 ∨ b.rptseq + 1 = rptSeq) {buy : Bool} {price size : I64}
    (read : readEntry b.tick md = .order buy price size) :
    countEntry calloc b rptSeq md =
      match md.mdUpdateAction.get with
      | none => (false, { b with rptseq := rptSeq, empty := false })
      | some action =>
        if action = 0 ∨ action = 1 then
          (decide ((b.ob.obLevelModify ⟨rptSeq, price, size, buy⟩ (calloc b.ob)).1 = 0),
            { b with rptseq := rptSeq, empty := false, ob := (b.ob.obLevelModify ⟨rptSeq, price, size, buy⟩ (calloc b.ob)).2 })
        else if action = 2 then
          (decide ((b.ob.obLevelDelete ⟨rptSeq, price, size, buy⟩).1 = 0),
            { b with rptseq := rptSeq, empty := false, ob := (b.ob.obLevelDelete ⟨rptSeq, price, size, buy⟩).2 })
        else (false, { b with rptseq := rptSeq, empty := false }) := by
  rw [count_entry_eq, if_pos inLine, mdIncrement]
  simp only [read, active, if_true]
  rfl

section
variable {c : Came} {m : Levels}

/-- An entry that leaves the levels that were sent, and that is harmless. -/
theorem Came.shown_of_agrees (harmless : c.Harmless calloc) {m' : Levels} (agree : (c.left calloc).ob.Indexed m')
    (same : sizes m' = c.sentWith calloc) : c.Shown calloc where
  iff := iff_of_true (fun _ => ⟨m', agree.exact, same⟩) harmless
  agree _ := ⟨m', agree, same⟩

/-- An entry that is refused and leaves the levels alone. -/
theorem Came.shown_of_refused (agree : c.book.ob.Indexed m) (same : sizes m = c.sent) (harmless : c.Harmless calloc)
    (refused : c.taken calloc = false) (levels : (c.left calloc).ob = c.book.ob) : c.Shown calloc := by
  have agrees : (c.left calloc).ob.Indexed m := levels ▸ agree
  refine shown_of_agrees harmless agrees ?_
  rw [same, sentWith, refused]
  rfl

/-- An empty book. -/
theorem Came.shown_empty (agree : c.book.ob.Indexed m)
    (inLine : c.book.rptseq = 0 ∨ c.book.rptseq + 1 = c.rptSeq) (read : readEntry c.book.tick c.md = .emptyBook) :
    c.Shown calloc := by
  have body : countEntry calloc c.book c.rptSeq c.md =
      (true, { c.book with rptseq := c.rptSeq, empty := true }) := by
    rw [count_entry_eq, if_pos inLine, mdIncrement]
    simp only [read]
  have taken : c.taken calloc = true := congrArg Prod.fst body
  have levels : (c.left calloc).ob = c.book.ob := congrArg (fun r => r.2.ob) body
  have sent : c.sentWith calloc = fun _ _ => none := by
    rw [sentWith, taken, if_pos rfl, Sent.entry, read]
  have harmless : c.Harmless calloc ↔ ∀ buy price, (c.book.ob.side buy).hash price = none := by
    rw [Harmless, read]
  have shows := shows_none agree
  refine ⟨?_, fun none => ⟨m, levels ▸ agree, ?_⟩⟩
  · rw [Right, imp_iff_right taken, levels, sent, harmless]
    exact shows
  · rw [sent]
    funext buy price
    exact (exact_sizes agree.exact buy price).2 (harmless.1 none buy price)

/-- An order that sets a size is harmless if and only if its price does not collide. -/
theorem Came.harmless_modify (agree : c.book.ob.Indexed m) {buy : Bool} {price size : I64}
    (read : readEntry c.book.tick c.md = .order buy price size)
    (action : c.md.mdUpdateAction.get = some 0 ∨ c.md.mdUpdateAction.get = some 1) :
    c.Harmless calloc ↔ ¬OrderBook.Collides m (.modify ⟨c.rptSeq, price, size, buy⟩ (calloc c.book.ob)) := by
  have side := agree.sides buy
  rw [Harmless, read]
  simp only [imp_iff_right action, OrderBook.Collides, not_and, not_exists, ne_eq, ← side.empty_iff]
  refine imp_congr_right fun _ => imp_congr_right fun _ => forall_congr' fun p => ?_
  exact ⟨fun alone other here bits => other (alone here bits),
    fun alone here bits => by_contra fun other => alone other here bits⟩

/-- An order that sets a size. -/
theorem Came.shown_modify (agree : c.book.ob.Indexed m) (same : sizes m = c.sent)
    (fresh : ∀ a, calloc c.book.ob = some a → c.book.ob.live a = false)
    {buy : Bool} {price size : I64} (read : readEntry c.book.tick c.md = .order buy price size)
    (action : c.md.mdUpdateAction.get = some 0 ∨ c.md.mdUpdateAction.get = some 1)
    (taken : c.taken calloc = decide ((c.book.ob.obLevelModify ⟨c.rptSeq, price, size, buy⟩ (calloc c.book.ob)).1 = 0))
    (levels : (c.left calloc).ob = (c.book.ob.obLevelModify ⟨c.rptSeq, price, size, buy⟩ (calloc c.book.ob)).2) :
    c.Shown calloc := by
  have harmless : c.Harmless calloc ↔
      ¬OrderBook.Collides m (.modify ⟨c.rptSeq, price, size, buy⟩ (calloc c.book.ob)) :=
    harmless_modify agree read action
  by_cases collides : OrderBook.Collides m (.modify ⟨c.rptSeq, price, size, buy⟩ (calloc c.book.ob))
  · have wrong : ¬c.Harmless calloc := fun h => harmless.1 h collides
    refine ⟨iff_of_false (fun right => ?_) wrong, fun h => absurd h wrong⟩
    have ⟨memory, absent, _⟩ := collides
    obtain ⟨a, given⟩ := Option.ne_none_iff_exists'.1 memory
    have here := ((agree.sides buy).empty_iff price).2 absent
    have done : c.taken calloc = true := by
      rw [taken, given, modify_new a here]
      rfl
    obtain ⟨m', exact, -⟩ := right done
    have allocates : c.book.ob.Allocates (.modify ⟨c.rptSeq, price, size, buy⟩ (calloc c.book.ob)) := by
      rw [given]
      exact fresh a given
    exact collision agree allocates collides m' (levels ▸ exact)
  · obtain ⟨ret, next, -⟩ := modify_indexed agree ⟨c.rptSeq, price, size, buy⟩ (calloc c.book.ob) fresh collides
    refine shown_of_agrees (harmless.2 collides) (levels ▸ next) ?_
    have kept : ¬c.md.mdUpdateAction.get = some 2 := by
      rcases action with set | set
      all_goals
        rw [set]
        decide
    rw [sizes_modify, ← ret, sentWith, taken, Sent.entry, read, ← same]
    simp only [decide_eq_true_eq, kept, if_false]

/-- An order that removes a price. -/
theorem Came.shown_delete (agree : c.book.ob.Indexed m) (same : sizes m = c.sent)
    {buy : Bool} {price size : I64} (read : readEntry c.book.tick c.md = .order buy price size)
    (action : c.md.mdUpdateAction.get = some 2)
    (taken : c.taken calloc = decide ((c.book.ob.obLevelDelete ⟨c.rptSeq, price, size, buy⟩).1 = 0))
    (levels : (c.left calloc).ob = (c.book.ob.obLevelDelete ⟨c.rptSeq, price, size, buy⟩).2) :
    c.Shown calloc := by
  obtain ⟨ret, next⟩ := delete_indexed agree ⟨c.rptSeq, price, size, buy⟩
  have done : c.taken calloc = true := by
    rw [taken, ret]
    rfl
  have harmless : c.Harmless calloc := by
    rw [Harmless, read, action]
    rintro (no | no)
    · cases no
    · cases no
  refine shown_of_agrees harmless (levels ▸ next) ?_
  rw [sentWith, if_pos done, Sent.entry, read, ← same]
  simp only [action, if_true]
  exact sizes_set m buy price none

/-- **One entry** of an active book whose containers agree. -/
theorem Came.shown (active : c.book.active = true) (agree : c.book.ob.Indexed m) (same : sizes m = c.sent)
    (fresh : ∀ a, calloc c.book.ob = some a → c.book.ob.live a = false)
    (inLine : c.book.rptseq = 0 ∨ c.book.rptseq + 1 = c.rptSeq) : c.Shown calloc := by
  cases read : readEntry c.book.tick c.md with
  | bad =>
    have body : countEntry calloc c.book c.rptSeq c.md = (false, { c.book with rptseq := c.rptSeq, empty := false }) := by
      rw [count_entry_eq, if_pos inLine, mdIncrement]
      simp only [read]
    refine shown_of_refused agree same ?_ (congrArg Prod.fst body) (congrArg (fun r => r.2.ob) body)
    rw [Harmless, read]
    trivial
  | emptyBook => exact shown_empty agree inLine read
  | order buy price size =>
    have body := @entry_calls calloc c.book active c.rptSeq c.md inLine buy price size read
    -- an entry with no action, or with one that is none of the three, is refused
    have refused (other : ¬(c.md.mdUpdateAction.get = some 0 ∨ c.md.mdUpdateAction.get = some 1))
        (refuses : countEntry calloc c.book c.rptSeq c.md =
          (false, { c.book with rptseq := c.rptSeq, empty := false })) : c.Shown calloc := by
      refine shown_of_refused agree same ?_ (congrArg Prod.fst refuses) (congrArg (fun r => r.2.ob) refuses)
      rw [Harmless, read]
      exact fun action => absurd action other
    cases action : c.md.mdUpdateAction.get with
    | none =>
      rw [action] at body
      exact refused (by rw [action]; rintro (no | no) <;> cases no) body
    | some n =>
      rw [action] at body
      by_cases set : n = 0 ∨ n = 1
      · simp only [if_pos set] at body
        refine shown_modify agree same fresh read ?_ (congrArg Prod.fst body) (congrArg (fun r => r.2.ob) body)
        rw [action, Option.some_inj, Option.some_inj]
        exact set
      · simp only [if_neg set] at body
        by_cases delete : n = 2
        · simp only [if_pos delete] at body
          exact shown_delete agree same read (action.trans (congrArg some delete)) (congrArg Prod.fst body)
            (congrArg (fun r => r.2.ob) body)
        · simp only [if_neg delete] at body
          refine refused ?_ body
          rw [action, Option.some_inj, Option.some_inj]
          exact set

end

/-! ## Entries one after the other -/

theorem count_entry_active (b : FastBook) (rptSeq : U64) (md : MdEntry) :
    (countEntry calloc b rptSeq md).2.active = b.active := by
  have increment (b : FastBook) : (mdIncrement calloc b md).2.active = b.active := by
    rw [mdIncrement]
    repeat' split
    all_goals rfl
  rw [count_entry_eq]
  split
  · exact increment _
  · rfl

/-- **Harmless entries**: behind them the containers agree on the levels that were sent, and every one was right. -/
theorem entries_agree (fresh : ∀ ob a, calloc ob = some a → ob.live a = false) {cs : List Came} {b : FastBook}
    {sent : Sent} (entries : Entries calloc cs b sent) (harmless : ∀ c ∈ cs, c.Harmless calloc) :
    (b.active = true ∧ ∃ m, b.ob.Indexed m ∧ sizes m = sent) ∧ ∀ c ∈ cs, c.Right calloc := by
  induction entries with
  | start active agree => exact ⟨⟨active, _, agree, rfl⟩, List.forall_mem_nil _⟩
  | @entry cs b sent before rptSeq md inLine ih =>
    obtain ⟨here, later⟩ := List.forall_mem_cons.1 harmless
    obtain ⟨⟨active, m, agree, same⟩, right⟩ := ih later
    have shown := Came.shown (c := ⟨b, sent, rptSeq, md⟩) active agree same (fresh b.ob) inLine
    exact ⟨⟨(count_entry_active b rptSeq md).trans active, shown.agree here⟩,
      List.forall_mem_cons.2 ⟨shown.iff.2 here, right⟩⟩

/-- **The levels that were sent.** In every run of entries that come in order to an active book, every entry that is
taken leaves the levels that were sent if and only if every empty book comes to one with no levels, and no new level
gets a price beside one that has the same low 32 bits. -/
theorem levels_shown_iff (fresh : ∀ ob a, calloc ob = some a → ob.live a = false) {cs : List Came} {b : FastBook}
    {sent : Sent} (entries : Entries calloc cs b sent) :
    (∀ c ∈ cs, c.Right calloc) ↔ ∀ c ∈ cs, c.Harmless calloc := by
  refine ⟨fun right => ?_, fun harmless => (entries_agree fresh entries harmless).2⟩
  induction entries with
  | start active agree => exact List.forall_mem_nil _
  | @entry cs b sent before rptSeq md inLine ih =>
    obtain ⟨here, later⟩ := List.forall_mem_cons.1 right
    have harmless := ih later
    obtain ⟨⟨active, m, agree, same⟩, -⟩ := entries_agree fresh before harmless
    have shown := Came.shown (c := ⟨b, sent, rptSeq, md⟩) active agree same (fresh b.ob) inLine
    exact List.forall_mem_cons.2 ⟨shown.iff.1 here, harmless⟩

end

/-! ## An empty book -/

/-- The address that is free, of two. -/
def twoAddresses (ob : OrderBook) : Option Addr :=
  if ob.live 0 = false then some 0 else if ob.live 1 = false then some 1 else none

theorem two_addresses_free (ob : OrderBook) (a : Addr) (given : twoAddresses ob = some a) : ob.live a = false := by
  rw [twoAddresses] at given
  split at given
  · next free =>
    cases given
    exact free
  · split at given
    · next free =>
      cases given
      exact free
    · cases given

/-- An entry for an empty book. -/
def emptyEntry (secid rptSeq : U64) : MdEntry := { bidEntry secid rptSeq with mdEntryType := .value (Fix.chars "J") }

/-- The entry that takes the bid for ten at a hundred out again. -/
def unbidEntry (secid rptSeq : U64) : MdEntry := { bidEntry secid rptSeq with mdUpdateAction := .value 2 }

/-- Entries that come to the book of a security, each with the next number, the last one first. -/
def cameTo (b : FastBook) : List MdEntry → List Came × FastBook × Sent
  | [] => ([], b, fun _ _ => none)
  | md :: mds =>
    let r := cameTo b mds
    let c : Came := ⟨r.2.1, r.2.2, r.2.1.rptseq + 1, md⟩
    (c :: r.1, c.left twoAddresses, c.sentWith twoAddresses)

theorem came_entries (mds : List MdEntry) :
    Entries twoAddresses (cameTo (subscribedBook 1 "AAPL") mds).1 (cameTo (subscribedBook 1 "AAPL") mds).2.1
      (cameTo (subscribedBook 1 "AAPL") mds).2.2 := by
  induction mds with
  | nil => exact .start (m := fun _ _ => none) rfl init_indexed
  | cons md mds ih => exact .entry ih _ md (.inr rfl)

/-- A bid, its removal and an empty book. -/
theorem bid_removed_emptied :
    (cameTo (subscribedBook 1 "AAPL") [emptyEntry 1 3, unbidEntry 1 2, bidEntry 1 1]).1.length = 3 ∧
      ∀ c ∈ (cameTo (subscribedBook 1 "AAPL") [emptyEntry 1 3, unbidEntry 1 2, bidEntry 1 1]).1, c.Right twoAddresses := by
  refine ⟨rfl, (levels_shown_iff two_addresses_free (came_entries _)).2 ?_⟩
  refine List.forall_mem_cons.2 ⟨?_, List.forall_mem_cons.2 ⟨?_, List.forall_mem_singleton.2 ?_⟩⟩
  · intro buy price
    cases buy with
    | false => rfl
    | true =>
      by_cases here : price = 100
      · rw [here]
        rfl
      · exact (Store.HashTable.remove_ne _ here).trans (Store.HashTable.insert_ne _ _ here)
  · rintro (no | no)
    · cases no
    · cases no
  · intro _ _ _ p there
    exact absurd rfl there

/-- The level of a bid is still there behind an empty book. -/
theorem bid_survives_empty :
    ¬∀ c ∈ (cameTo (subscribedBook 1 "AAPL") [emptyEntry 1 2, bidEntry 1 1]).1, c.Right twoAddresses := by
  intro right
  obtain ⟨m, exact, none⟩ := right _ List.mem_cons_self rfl
  have gone := (exact_sizes exact true 100).1 (by rw [none]; rfl)
  cases gone

end Libtrading.Book
