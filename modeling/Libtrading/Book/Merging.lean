import Libtrading.Book.Exchange

/-!
# Merging increments and a snapshot

A book that is being joined takes increments first. A removal leaves a level without a size, so that the
snapshot, which may be older, does not put the level back: `md_snapshot` inserts only where there is no level.
The levels without a size are deleted at the end. This is `CatchesUp`, with the levels of the book as what was
seen. An active book is kept up to date directly.
-/

namespace Libtrading.Book
set_option autoImplicit false
open Fast OrderBook Store

/-! ## Reading an entry -/

/-- Bits are what they stand for. -/
theorem eq_of_to_int {x : I64} {y : U64} (same : x.toInt = y.toNat) : x = y := by
  rw [← BitVec.ofInt_toInt (x := x), same, BitVec.ofInt_natCast, BitVec.ofNat_toNat, BitVec.setWidth_eq]

/-- A price that is a number of ticks is aligned to that number, if it is aligned at all. -/
theorem aligned_price {d tick r : Decimal} {price : U64} (ticks : toRat d = price.toNat * 10 ^ tick.exp.toInt)
    (small : price.toNat < 2 ^ 32) (aligned : priceAlign d tick = some r) : r.mnt = price := by
  have ten : (10 : ℚ) ^ tick.exp.toInt ≠ 0 := zpow_ne_zero _ (by decide)
  have fits : tick.exp.toInt < d.exp.toInt → FitsInt64 (d.mnt.toInt * 10 ^ (d.exp.toInt - tick.exp.toInt).toNat) := by
    intro up
    have exponents : d.exp.toInt = tick.exp.toInt + (d.exp.toInt - tick.exp.toInt).toNat := by omega
    have product : ((d.mnt.toInt * 10 ^ (d.exp.toInt - tick.exp.toInt).toNat : ℤ) : ℚ) = ((price.toNat : ℤ) : ℚ) := by
      rw [← mul_left_inj' ten]
      push_cast
      rw [scaled _ exponents]
      exact ticks
    rw [Int.cast_inj.1 product]
    exact ⟨by omega, by omega⟩
  obtain ⟨same, exp⟩ := (aligned_iff d tick).2 fits r aligned
  have mantissas : ((r.mnt.toInt : ℤ) : ℚ) = ((price.toNat : ℤ) : ℚ) := by
    rw [← mul_left_inj' ten, Int.cast_natCast, ← ticks, ← same, toRat, exp]
  exact eq_of_to_int (Int.cast_inj.1 mantissas)

/-- A size is what it stands for, if it is read at all. -/
theorem exact_size {z : SizeValue} {size : U64} (is : z.Is size) {n : I64} (read : entrySize z = some n) : n = size := by
  cases z with
  | int v =>
    cases read
    exact eq_of_to_int is
  | decimal d =>
    rw [entrySize, decimalToInt] at read
    split at read
    · cases read
    · rename_i whole
      cases read
      have number : d.mnt.toInt * 10 ^ d.exp.toInt.toNat = size.toNat := by
        have exponent : d.exp.toInt = d.exp.toInt.toNat := by omega
        have equal : toRat d = size.toNat := is
        rw [toRat, exponent, zpow_natCast] at equal
        exact_mod_cast equal
      refine BitVec.eq_of_toInt_eq ?_
      rw [mul_ten_to_int, number, BitVec.toInt_eq_toNat_bmod]
  | other => cases read

/-- An entry for a level is refused, or read as an order for it, with its size. -/
theorem read_entry_at {md : MdEntry} {tick : Decimal} {buy : Bool} {price : U64} (at' : md.At tick buy price)
    (small : price.toNat < 2 ^ 32) : readEntry tick md = .bad ∨
      ∃ size, readEntry tick md = .order buy price size ∧ ∀ n, md.Sized n → size = n := by
  obtain ⟨⟨v, type, first⟩, d, px, ticks⟩ := at'
  rw [readEntry, type]
  simp only [FieldRead.get, first]
  have empty : ¬(if buy then '0' else '1').toNat.toUInt8 = 'J'.toNat.toUInt8 := by cases buy <;> decide
  have side : ¬((if buy then '0' else '1').toNat.toUInt8 ≠ '0'.toNat.toUInt8 ∧
      (if buy then '0' else '1').toNat.toUInt8 ≠ '1'.toNat.toUInt8) := by cases buy <;> decide
  have buys : decide ((if buy then '0' else '1').toNat.toUInt8 = '0'.toNat.toUInt8) = buy := by cases buy <;> decide
  rw [if_neg empty, if_neg side]
  cases size : md.mdEntrySize.get.bind entrySize with
  | none =>
    left
    simp only [FieldRead.get] at size
    rw [size]
  | some n =>
    have sized : ∀ m, md.Sized m → n = m := by
      rintro m ⟨z, field, is⟩
      rw [field] at size
      exact exact_size is size
    simp only [FieldRead.get] at size
    rw [size, px]
    simp only [Option.bind_some]
    cases aligned : priceAlign d tick with
    | none => exact .inl rfl
    | some r =>
      refine .inr ⟨n, ?_, sized⟩
      simp only [aligned_price ticks small aligned, buys]

/-! ## One entry of an increment -/

section
variable {calloc : OrderBook → Option Addr} {b : FastBook} {c : Change} {md : MdEntry} {n : U64}

/-- The order of an entry that sets a size; a removal sets none. -/
def Change.order (c : Change) (n : U64) : ObOrder := ⟨n, c.price, c.size.getD 0, c.buy⟩

/-- An entry that carries a change and is taken deletes a level from an active book, or sets a size. -/
theorem carried_entry (carries : Carries b.instrument c md) (proper : c.Proper)
    (taken : (countEntry calloc b n md).1 = true) :
    (b.active = true ∧ c.size = none ∧ (countEntry calloc b n md).2.ob = (b.ob.obLevelDelete (c.order n)).2) ∨
      ((b.active = true → c.size ≠ none) ∧ (b.ob.obLevelModify (c.order n) (calloc b.ob)).1 = 0 ∧
        (countEntry calloc b n md).2.ob = (b.ob.obLevelModify (c.order n) (calloc b.ob)).2) := by
  rw [count_entry_eq] at taken ⊢
  by_cases inLine : b.rptseq = 0 ∨ b.rptseq + 1 = n
  · rw [if_pos inLine] at taken ⊢
    have tick : b.instrument.tick = b.tick := rfl
    rcases tick ▸ read_entry_at carries.at' proper.price with bad | ⟨size, read, sized⟩
    · simp only [mdIncrement, bad, Bool.false_eq_true] at taken
    · cases there : c.size with
      | none =>
        have action : md.mdUpdateAction.get = some 2 := by rw [carries.removes there]; rfl
        cases active : b.active with
        | true =>
          left
          refine ⟨rfl, rfl, ?_⟩
          simp only [mdIncrement, read, action]
          rfl
        | false =>
          right
          simp only [mdIncrement, read, action, active] at taken ⊢
          refine ⟨(fun no => by cases no), ?_⟩
          simp only [Change.order, there, Option.getD_none]
          exact ⟨of_decide_eq_true taken, rfl⟩
      | some z =>
        obtain ⟨actions, is⟩ := carries.sets z there
        obtain rfl : size = z := sized z is
        right
        refine ⟨fun _ => Option.some_ne_none _, ?_⟩
        have set : ∃ action, md.mdUpdateAction.get = some action ∧ (action = 0 ∨ action = 1) := by
          rcases actions with zero | one
          · exact ⟨0, by rw [zero]; rfl, .inl rfl⟩
          · exact ⟨1, by rw [one]; rfl, .inr rfl⟩
        obtain ⟨action, field, set⟩ := set
        simp only [mdIncrement, read, field, if_pos set] at taken ⊢
        simp only [Change.order, there, Option.getD_some]
        exact ⟨of_decide_eq_true taken, rfl⟩
  · rw [if_neg inLine] at taken
    cases taken

end

/-! ## The levels as a map -/

/-- An order that is taken is the level at its price. -/
theorem modify_set {m : Levels} {order : ObOrder} {room : Bool} (done : (m.modify order room).1 = 0) :
    (m.modify order room).2 = m.set order.buy order.price (some (order.seqNum, order.size)) := by
  rw [Levels.modify] at done ⊢
  split
  · rename_i absent
    rw [absent] at done
    cases room with
    | true => rfl
    | false => cases done
  · rename_i present
    rw [present] at done
    split
    · rfl
    · rename_i older
      simp only [if_neg older] at done
      cases done

/-- What the levels of a book that is being joined say was seen: one without a size is one that is gone. -/
def seenLevels (m : Levels) : Seen (Bool × U64) U64 :=
  fun e => (m e.1 e.2).map fun level => if level.2 = 0 then none else some level.2

theorem seen_set (m : Levels) (buy : Bool) (price n size : U64) :
    seenLevels (m.set buy price (some (n, size))) =
      Function.update (seenLevels m) (buy, price) (some (if size = 0 then none else some size)) := by
  funext e
  have pairs := congrFun (update_pairs m buy price (some (n, size))) e
  have there : m.set buy price (some (n, size)) e.1 e.2 =
      Function.update (fun e : Bool × U64 => m e.1 e.2) (buy, price) (some (n, size)) e := pairs
  rw [seenLevels, there]
  by_cases here : e = (buy, price)
  · rw [here, Function.update_self, Function.update_self]
    rfl
  · rw [Function.update_of_ne here, Function.update_of_ne here]
    rfl

/-! ## Joining -/

/-- A past of books, as one of maps. -/
def pastMaps (past : Sent → Prop) : (Bool × U64 → Option U64) → Prop := fun map => past fun buy price => map (buy, price)

/-- The levels of a book that is being joined catch up with what was sent. -/
structure Catching (past : Sent → Prop) (sent : Sent) (ob : OrderBook) (m : Levels) : Prop where
  indexed : ob.Indexed m
  small : m.Small
  catches : CatchesUp (pastMaps past) (fun e => sent e.1 e.2) (seenLevels m)

/-- The levels of an active book are what was sent. -/
def OrderBook.Live (ob : OrderBook) (sent : Sent) : Prop := ∃ m, ob.Indexed m ∧ sizes m = sent

section
variable {calloc : OrderBook → Option Addr} {b : FastBook} {c : Change} {md : MdEntry} {n : U64} {past : Sent → Prop}
  {sent : Sent} {m : Levels}

/-- A book that has no levels catches up from where it is. -/
theorem Catching.init (sent : Sent) : Catching (· = sent) sent obInit fun _ _ => none where
  indexed := init_indexed
  small _ _ there := absurd rfl there
  catches := (CatchesUp.start _).mono fun map same => by
    funext e
    exact congrFun (congrFun same e.1) e.2

/-- An entry of an increment is a change that is seen. -/
theorem Catching.change (h : Catching past sent b.ob m) (inactive : b.active = false)
    (carries : Carries b.instrument c md) (proper : c.Proper)
    (fresh : ∀ a, calloc b.ob = some a → b.ob.live a = false) (taken : (countEntry calloc b n md).1 = true) :
    ∃ m', Catching past (sent.apply c) (countEntry calloc b n md).2.ob m' := by
  rcases carried_entry carries proper taken with ⟨active, -⟩ | ⟨-, done, left⟩
  · rw [inactive] at active
    cases active
  · obtain ⟨ret, next, -⟩ := modify_indexed h.indexed (c.order n) (calloc b.ob) fresh (small_alone h.small proper.price _)
    rw [modify_set (ret ▸ done)] at next
    refine ⟨_, left ▸ next, h.small.set _ _ fun _ => proper.price, ?_⟩
    have size : (if (c.order n).size = 0 then none else some (c.order n).size) = c.size := by
      rw [Change.order]
      cases there : c.size with
      | none => rfl
      | some z => exact if_neg fun (zero : z = 0) => proper.size (zero ▸ there)
    have now : (fun e => sent.apply c e.1 e.2) = Function.update (fun e => sent e.1 e.2) (c.buy, c.price) c.size :=
      update_pairs ..
    rw [seen_set, size, now]
    exact h.catches.change (c.buy, c.price) c.size

/-- An entry of an increment keeps an active book live. -/
theorem OrderBook.Live.change (h : b.ob.Live sent) (proper : sent.Proper) (active : b.active = true)
    (carries : Carries b.instrument c md) (change : c.Proper)
    (fresh : ∀ a, calloc b.ob = some a → b.ob.live a = false) (taken : (countEntry calloc b n md).1 = true) :
    (countEntry calloc b n md).2.ob.Live (sent.apply c) := by
  obtain ⟨m, indexed, same⟩ := h
  have small : m.Small := by
    intro buy price there
    refine proper.price buy price fun none => there ?_
    rw [← same] at none
    exact Option.map_eq_none_iff.1 none
  rcases carried_entry carries change taken with ⟨-, removed, left⟩ | ⟨set, done, left⟩
  · obtain ⟨-, next⟩ := delete_indexed indexed (c.order n)
    refine ⟨_, left ▸ next, ?_⟩
    rw [Sent.apply, removed, ← same]
    exact sizes_set m c.buy c.price none
  · obtain ⟨ret, next, -⟩ := modify_indexed indexed (c.order n) (calloc b.ob) fresh (small_alone small change.price _)
    rw [modify_set (ret ▸ done)] at next
    refine ⟨_, left ▸ next, ?_⟩
    obtain ⟨size, there⟩ := Option.ne_none_iff_exists'.1 (set active)
    rw [sizes_set, Sent.apply, same, Change.order, there]
    rfl

/-! ## The snapshot -/

/-- What an entry of a snapshot leaves of the book. -/
theorem md_snapshot_shape (b : FastBook) (md : MdEntry) :
    ∃ ob empty, (mdSnapshot calloc b md).2 = { b with ob := ob, empty := empty } := by
  rw [mdSnapshot]
  split
  · exact ⟨b.ob, b.empty, rfl⟩
  · exact ⟨b.ob, true, rfl⟩
  · split
    · exact ⟨_, b.empty, rfl⟩
    · split <;> exact ⟨b.ob, b.empty, rfl⟩

/-- An entry of a snapshot of the past fills in its level, unless one is there. -/
theorem Catching.snapshot_entry (h : Catching past sent b.ob m) {old : Sent} (isOld : past old) (proper : old.Proper)
    {buy : Bool} {price size : U64} (listed : old buy price = some size) (at' : md.At b.tick buy price)
    (sized : md.Sized size) (fresh : ∀ a, calloc b.ob = some a → b.ob.live a = false)
    (taken : (mdSnapshot calloc b md).1 = true) :
    ∃ m', Catching past sent (mdSnapshot calloc b md).2.ob m' ∧
      (∀ buy' price', m buy' price' ≠ none → m' buy' price' ≠ none) ∧
      ∀ buy' price', md.At b.tick buy' price' → price'.toNat < 2 ^ 32 → m' buy' price' ≠ none := by
  have below : price.toNat < 2 ^ 32 := proper.price buy price (by rw [listed]; exact Option.some_ne_none _)
  have nonzero : size ≠ 0 := fun zero => proper.size buy price (zero ▸ listed)
  rcases read_entry_at at' below with bad | ⟨size', read, is⟩
  · simp only [mdSnapshot, bad, Bool.false_eq_true] at taken
  obtain rfl : size' = size := is size sized
  -- the entry is for one level only
  have only : ∀ buy' price', md.At b.tick buy' price' → price'.toNat < 2 ^ 32 → buy' = buy ∧ price' = price := by
    intro buy' price' there small
    rcases read_entry_at there small with bad | ⟨_, read', -⟩
    · rw [read] at bad
      cases bad
    · rw [read] at read'
      cases read'
      exact ⟨rfl, rfl⟩
  have side := h.indexed.sides buy
  cases there : (b.ob.side buy).hash price with
  | none =>
    have absent : m buy price = none := (side.empty_iff price).1 there
    have body : mdSnapshot calloc b md = b.modify calloc ⟨b.snpseq, price, size', buy⟩ := by
      simp only [mdSnapshot, read, obLevelLookup, there]
    rw [body] at taken ⊢
    have done : (b.ob.obLevelModify ⟨b.snpseq, price, size', buy⟩ (calloc b.ob)).1 = 0 := of_decide_eq_true taken
    obtain ⟨ret, next, -⟩ := modify_indexed h.indexed ⟨b.snpseq, price, size', buy⟩ (calloc b.ob) fresh
      (small_alone h.small below _)
    rw [modify_set (ret ▸ done)] at next
    have unseen : seenLevels m (buy, price) = none := Option.map_eq_none_iff.2 absent
    have present : m.set buy price (some (b.snpseq, size')) buy price ≠ none := by
      rw [Levels.set, Function.update_self, Function.update_self]
      exact Option.some_ne_none _
    refine ⟨m.set buy price (some (b.snpseq, size')), ⟨next, h.small.set _ _ fun _ => below, ?_⟩, fun buy' price' was => ?_,
      fun buy' price' here small => ?_⟩
    · have image : pastMaps past fun e => old e.1 e.2 := isOld
      rw [seen_set, if_neg nonzero, ← listed]
      exact h.catches.fill image unseen
    · by_cases here : (buy', price') = (buy, price)
      · cases here
        exact present
      · have pairs := congrFun (update_pairs m buy price (some (b.snpseq, size'))) (buy', price')
        rw [Function.update_of_ne here] at pairs
        exact fun none => was (pairs.symm.trans none)
    · obtain ⟨rfl, rfl⟩ := only buy' price' here small
      exact present
  | some level =>
    have body : (mdSnapshot calloc b md).2 = b := by
      simp only [mdSnapshot, read, obLevelLookup, there]
      split <;> rfl
    rw [body]
    refine ⟨m, h, fun _ _ was => was, fun buy' price' here small => ?_⟩
    obtain ⟨rfl, rfl⟩ := only buy' price' here small
    intro none
    rw [← side.empty_iff, there] at none
    cases none

/-- **The entries of a snapshot** of the past fill in its levels. -/
theorem Catching.snapshot (h : Catching past sent b.ob m) {old : Sent} (isOld : past old) (proper : old.Proper)
    {mds : List MdEntry}
    (levels : ∀ md ∈ mds, ∃ buy price size, old buy price = some size ∧ md.At b.tick buy price ∧ md.Sized size)
    (fresh : ∀ ob a, calloc ob = some a → ob.live a = false) (taken : (snapshotEntries calloc b mds).1 = true) :
    ∃ m', Catching past sent (snapshotEntries calloc b mds).2.ob m' ∧
      (∀ buy' price', m buy' price' ≠ none → m' buy' price' ≠ none) ∧
      ∀ md ∈ mds, ∀ buy' price', md.At b.tick buy' price' → price'.toNat < 2 ^ 32 → m' buy' price' ≠ none := by
  induction mds generalizing b m with
  | nil => exact ⟨m, h, fun _ _ was => was, List.forall_mem_nil _⟩
  | cons md mds ih =>
    obtain ⟨first, rest⟩ := List.forall_mem_cons.1 levels
    obtain ⟨buy, price, size, listed, at', sized⟩ := first
    rw [snapshotEntries] at taken ⊢
    cases ok : (mdSnapshot calloc b md).1 with
    | false =>
      simp only [ok, if_true, Bool.false_eq_true] at taken
    | true =>
      simp only [ok, Bool.true_eq_false, if_false] at taken ⊢
      obtain ⟨m₁, h₁, kept, here⟩ := h.snapshot_entry isOld proper listed at' sized (fresh b.ob) ok
      have tick : (mdSnapshot calloc b md).2.tick = b.tick := by
        obtain ⟨ob, empty, shape⟩ := @md_snapshot_shape calloc b md
        rw [shape]
      obtain ⟨m₂, h₂, kept', there⟩ := ih h₁ (fun md mem => tick ▸ rest md mem) taken
      refine ⟨m₂, h₂, fun buy' price' was => kept' buy' price' (kept buy' price' was), ?_⟩
      refine List.forall_mem_cons.2 ⟨fun buy' price' is small => kept' buy' price' (here buy' price' is small), ?_⟩
      exact fun md mem buy' price' is small => there md mem buy' price' (tick ▸ is) small

/-- **A snapshot** that lists a book of the past leaves every level of it, with a size or without. -/
theorem Catching.covers (h : Catching past sent b.ob m) {old : Sent} (isOld : past old) (proper : old.Proper)
    {mds : List MdEntry} (lists : Exchange.Lists b.instrument old mds)
    (fresh : ∀ ob a, calloc ob = some a → ob.live a = false) (taken : (snapshotEntries calloc b mds).1 = true) :
    ∃ m', Catching past sent (snapshotEntries calloc b mds).2.ob m' ∧
      (seenLevels m').Covers fun e => old e.1 e.2 := by
  obtain ⟨m', h', -, there⟩ := h.snapshot isOld proper lists.levels fresh taken
  refine ⟨m', h', fun e present none => ?_⟩
  obtain ⟨md, mem, at'⟩ := lists.all e.1 e.2 present
  exact there md mem e.1 e.2 at' (proper.price e.1 e.2 present) (Option.map_eq_none_iff.1 none)

end

/-! ## The levels without a size -/

/-- The map without some prices of a side. -/
def Levels.without (m : Levels) (buy : Bool) (prices : List U64) : Levels :=
  fun buy' price => if buy' = buy ∧ price ∈ prices then none else m buy' price

theorem without_nil (m : Levels) (buy : Bool) : m.without buy [] = m := by
  funext buy' price
  exact if_neg fun h => List.not_mem_nil h.2

theorem without_cons (m : Levels) (buy : Bool) (price : U64) (prices : List U64) :
    m.without buy (price :: prices) = (m.set buy price none).without buy prices := by
  funext buy' price'
  have pairs := congrFun (update_pairs m buy price none) (buy', price')
  have set : m.set buy price none buy' price' = Function.update (fun e : Bool × U64 => m e.1 e.2) (buy, price) none (buy', price') :=
    pairs
  rw [Levels.without, Levels.without, set]
  by_cases here : (buy', price') = (buy, price)
  · cases here
    rw [if_pos ⟨rfl, List.mem_cons_self⟩, Function.update_self, ite_self]
  · rw [Function.update_of_ne here]
    refine if_congr ⟨fun h => ⟨h.1, ?_⟩, fun h => ⟨h.1, List.mem_cons_of_mem _ h.2⟩⟩ rfl rfl
    refine (List.mem_cons.1 h.2).resolve_left fun same => here ?_
    rw [h.1, same]

/-- `ob_level_delete` changes no level but the one it frees. -/
theorem delete_memory (ob : OrderBook) (order : ObOrder) : (ob.obLevelDelete order).2.memory = ob.memory := by
  rw [obLevelDelete]
  repeat' split
  all_goals first | rfl | exact setSide_memory ..

/-- Levels without a size are deleted one after the other. -/
theorem drop_empty_indexed {ob : OrderBook} {m : Levels} (indexed : ob.Indexed m) (buy : Bool) (as : List Addr) :
    (dropEmpty buy as ob).1 = true ∧ (dropEmpty buy as ob).2.Indexed
      (m.without buy ((as.filter fun a => (ob.memory a).size = 0).map fun a => (ob.memory a).price)) := by
  induction as generalizing ob m with
  | nil => exact ⟨rfl, (without_nil m buy).symm ▸ indexed⟩
  | cons a as ih =>
    rw [dropEmpty]
    by_cases empty : (ob.memory a).size = 0
    · obtain ⟨ret, next⟩ := delete_indexed indexed ⟨0, (ob.memory a).price, 0, buy⟩
      have done : (ob.obLevelDelete ⟨0, (ob.memory a).price, 0, buy⟩).1 = 0 := ret
      obtain ⟨ok, rest⟩ := ih next
      rw [delete_memory] at rest
      rw [if_neg (not_not.2 empty), List.filter_cons, if_pos (decide_eq_true empty), List.map_cons, without_cons]
      simp only [done, ne_eq, not_true, if_false]
      exact ⟨ok, rest⟩
    · rw [if_pos empty, List.filter_cons, if_neg (by simpa using empty)]
      exact ih indexed

/-- The map without the levels of a side that have no size. -/
def Levels.sized (m : Levels) (buy : Bool) : Levels :=
  fun buy' price => if buy' = buy ∧ (m buy' price).map Prod.snd = some 0 then none else m buy' price

/-- The levels of a side that have no size are deleted. -/
theorem drop_side_indexed {ob : OrderBook} {m : Levels} (indexed : ob.Indexed m) (buy : Bool) :
    (dropEmpty buy (ob.side buy).list ob).1 = true ∧
      (dropEmpty buy (ob.side buy).list ob).2.Indexed (m.sized buy) := by
  obtain ⟨ok, next⟩ := drop_empty_indexed indexed buy (ob.side buy).list
  refine ⟨ok, ?_⟩
  have side := indexed.sides buy
  have same : m.without buy (((ob.side buy).list.filter fun a => (ob.memory a).size = 0).map
      fun a => (ob.memory a).price) = m.sized buy := by
    funext buy' price
    refine if_congr (and_congr_right fun here => ?_) rfl rfl
    subst here
    rw [← side.lookup price, List.mem_map]
    constructor
    · rintro ⟨a, mem, rfl⟩
      obtain ⟨listed, empty⟩ := List.mem_filter.1 mem
      obtain ⟨p, there⟩ := (side.list a).1 listed
      have price := side.price p a there
      rw [price, there]
      exact congrArg some (of_decide_eq_true empty)
    · intro empty
      cases there : (ob.side buy').hash price with
      | none =>
        rw [there] at empty
        cases empty
      | some a =>
        rw [there] at empty
        have zero : (ob.memory a).size = 0 := Option.some.inj empty
        exact ⟨a, List.mem_filter.2 ⟨(side.list a).2 ⟨price, there⟩, decide_eq_true zero⟩, side.price price a there⟩
  exact same ▸ next

/-- What is left is what was seen. -/
theorem sized_sizes (m : Levels) :
    sizes ((m.sized false).sized true) = fun buy price => (seenLevels m).view (buy, price) := by
  funext buy price
  rw [sizes, Seen.view, seenLevels]
  cases there : m buy price with
  | none =>
    have gone : m.sized false buy price = none := by rw [Levels.sized, there, ite_self]
    rw [Levels.sized, gone, ite_self]
    rfl
  | some level =>
    by_cases empty : level.2 = 0
    · have dropped : (some level).map Prod.snd = some 0 := congrArg some empty
      rw [Option.map_some, if_pos empty]
      cases buy with
      | false =>
        have gone : m.sized false false price = none := by rw [Levels.sized, there, if_pos ⟨rfl, dropped⟩]
        rw [Levels.sized, gone, ite_self]
        rfl
      | true =>
        have kept : m.sized false true price = some level := by rw [Levels.sized, there, if_neg fun no => by cases no.1]
        rw [Levels.sized, kept, if_pos ⟨rfl, dropped⟩]
        rfl
    · have stays (m : Levels) (buy' : Bool) (there : m buy price = some level) : m.sized buy' buy price = some level := by
        rw [Levels.sized, there, if_neg fun no => empty (Option.some.inj no.2)]
      rw [stays _ true (stays m false there), Option.map_some, Option.map_some, if_neg empty]
      rfl

/-- **Caught up.** A book that has every level of a book of the past is live once the levels without a size are
deleted. -/
theorem Catching.live {past : Sent → Prop} {sent old : Sent} {b : FastBook} {m : Levels} (h : Catching past sent b.ob m)
    (isOld : past old) (covers : (seenLevels m).Covers fun e => old e.1 e.2) :
    b.dropEmpty.1 = true ∧ b.dropEmpty.2.ob.Live sent := by
  obtain ⟨asks, afterAsks⟩ := drop_side_indexed h.indexed false
  obtain ⟨bids, afterBids⟩ := drop_side_indexed afterAsks true
  have body : b.dropEmpty = (true, { b with
      ob := (dropEmpty true ((dropEmpty false b.ob.asks.list b.ob).2).bids.list (dropEmpty false b.ob.asks.list b.ob).2).2 }) := by
    have first : (dropEmpty false b.ob.asks.list b.ob).1 = true := asks
    have second : (dropEmpty true ((dropEmpty false b.ob.asks.list b.ob).2).bids.list
      (dropEmpty false b.ob.asks.list b.ob).2).1 = true := bids
    rw [FastBook.dropEmpty]
    simp only [first, Bool.true_eq_false, if_false, second]
  rw [body]
  refine ⟨rfl, _, afterBids, ?_⟩
  have image : pastMaps past fun e => old e.1 e.2 := isOld
  have view := h.catches.view_eq image covers
  rw [sized_sizes]
  funext buy price
  exact congrFun view (buy, price)

end Libtrading.Book
