import Libtrading.Book.OrderBook

/-!
# Three indexes and one map

As long as no two prices of a side have the same low 32 bits, the three
indexes of the side hold the levels of the map, and the list holds them in
order. A price put beside one with the same low bits takes its place in the
tree, and from then on the indexes are apart.
-/

namespace Libtrading.Book
open Store
open Fast (U64)
set_option autoImplicit false

/-- The bits of a price that the tree compares. -/
def low (p : U64) : BitVec 32 := p.setWidth 32

theorem uint_compare_eq_zero (p q : U64) : gUintCompare p q = 0 ↔ low p = low q := by
  simp only [gUintCompare, low]
  split
  · rename_i less
    exact iff_of_false (by decide) fun same => by rw [same] at less; exact BitVec.lt_irrefl _ less
  · split
    · rename_i more
      exact iff_of_false (by decide) fun same => by rw [same] at more; exact BitVec.lt_irrefl _ more
    · rename_i less more
      exact iff_of_true rfl (BitVec.le_antisymm (BitVec.not_lt.1 more) (BitVec.not_lt.1 less))

/-- The key that the list is ordered by. -/
def priceAt (memory : Addr → ObLevel) (a : Addr) : Nat := (memory a).price.toNat

theorem level_compare_le (memory : Addr → ObLevel) (a b : Addr) :
    gLevelCompare memory a b ≤ 0 ↔ priceAt memory a ≤ priceAt memory b := by
  rw [gLevelCompare, priceAt, priceAt]
  split
  · rename_i less
    exact iff_of_true (by decide) (Nat.le_of_lt less)
  · split
    · rename_i more
      exact iff_of_false (by decide) (Nat.not_le_of_lt more)
    · rename_i less more
      exact iff_of_true (by decide) (Nat.le_of_not_lt more)

/-! ## One side -/

/-- The indexes of a side hold the levels of the map, at different addresses, and none under a key
that the tree takes for another. -/
structure Index.Indexes (ix : Index) (memory : Addr → ObLevel) (live : Addr → Bool) (m : U64 → Option (U64 × U64)) :
    Prop where
  lookup : ∀ p, (ix.hash p).map (fun a => ((memory a).seqNum, (memory a).size)) = m p
  price : ∀ p a, ix.hash p = some a → (memory a).price = p
  live : ∀ p a, ix.hash p = some a → live a = true
  list : ∀ a, a ∈ ix.list ↔ ∃ p, ix.hash p = some a
  ascending : ix.list.Pairwise fun a b => priceAt memory a < priceAt memory b
  tree : ∀ k a, (k, a) ∈ ix.tree ↔ ix.hash k = some a
  apart : ∀ p q, ix.hash p ≠ none → ix.hash q ≠ none → low p = low q → p = q

namespace Index.Indexes

variable {ix : Index} {memory memory' : Addr → ObLevel} {live live' : Addr → Bool} {m : U64 → Option (U64 × U64)}

/-- Memory that a side does not hold may change. -/
theorem frame (h : ix.Indexes memory live m) (memory' : Addr → ObLevel) (live' : Addr → Bool)
    (same : ∀ p a, ix.hash p = some a → memory' a = memory a ∧ live' a = live a) :
    ix.Indexes memory' live' m := by
  have prices : ∀ a ∈ ix.list, priceAt memory' a = priceAt memory a := fun a ha => by
    obtain ⟨p, hp⟩ := (h.list a).1 ha
    rw [priceAt, (same p a hp).1, priceAt]
  refine ⟨fun p => ?_, fun p a hp => ?_, fun p a hp => ?_, h.list, ?_, h.tree, h.apart⟩
  · rw [← h.lookup p]
    cases hp : ix.hash p with
    | none => rfl
    | some a => simp only [Option.map_some, (same p a hp).1]
  · rw [(same p a hp).1]
    exact h.price p a hp
  · rw [(same p a hp).2]
    exact h.live p a hp
  · refine h.ascending.imp_of_mem fun {a b} ha hb less => ?_
    rw [prices a ha, prices b hb]
    exact less

theorem empty_iff (h : ix.Indexes memory live m) (p : U64) : ix.hash p = none ↔ m p = none := by
  rw [← h.lookup p, Option.map_eq_none_iff]

/-- Different prices are at different addresses. -/
theorem address_unique (h : ix.Indexes memory live m) {p q : U64} {a : Addr} (hp : ix.hash p = some a) (hq : ix.hash q = some a) :
    p = q := (h.price p a hp).symm.trans (h.price q a hq)

theorem nodup (h : ix.Indexes memory live m) : ix.list.Nodup :=
  h.ascending.imp fun less same => by rw [same] at less; exact Nat.lt_irrefl _ less

/-- **A new level** at a price whose low bits no other price has. -/
theorem insert (h : ix.Indexes memory live m) (level : ObLevel) {a : Addr} (fresh : live a = false)
    (absent : m level.price = none) (alone : ∀ q, m q ≠ none → low q ≠ low level.price) :
    Index.Indexes
      { hash := ix.hash.insert level.price a
        list := insertSorted (gLevelCompare (Function.update memory a level)) a ix.list
        tree := ix.tree.insert gUintCompare level.price a }
      (Function.update memory a level) (Function.update live a true)
      (Function.update m level.price (some (level.seqNum, level.size))) := by
  have other : ∀ q b, ix.hash q = some b → b ≠ a := fun q b hq same => by
    rw [← same, h.live q b hq] at fresh
    cases fresh
  have moved := h.frame (Function.update memory a level) (Function.update live a true) fun q b hq =>
    ⟨Function.update_of_ne (other q b hq) _ _, Function.update_of_ne (other q b hq) _ _⟩
  have here : ix.hash level.price = none := (h.empty_iff _).2 absent
  have at' : ∀ q b, ix.hash.insert level.price a q = some b ↔ (q = level.price ∧ b = a) ∨ ix.hash q = some b := by
    intro q b
    by_cases same : q = level.price
    · rw [same, HashTable.insert_self, here, Option.some_inj]
      exact ⟨fun h => .inl ⟨rfl, h.symm⟩, fun h => h.elim (fun h => h.2.symm) (nomatch ·)⟩
    · rw [HashTable.insert_ne _ _ same]
      exact ⟨.inr, fun h => h.elim (fun h => absurd h.1 same) id⟩
  have present : ∀ q, ix.hash.insert level.price a q ≠ none → q = level.price ∨ m q ≠ none := by
    intro q hq
    by_cases same : q = level.price
    · exact .inl same
    · rw [HashTable.insert_ne _ _ same, Ne, h.empty_iff] at hq
      exact .inr hq
  refine ⟨fun q => ?_, fun q b hq => ?_, fun q b hq => ?_, fun b => ?_, ?_, fun q b => ?_, fun q q' hq hq' same => ?_⟩
  · by_cases same : q = level.price
    · subst same
      simp only [HashTable.insert_self, Function.update_self, Option.map_some]
    · simp only [HashTable.insert_ne _ _ same, Function.update_of_ne same]
      exact moved.lookup q
  · rcases (at' q b).1 hq with ⟨rfl, rfl⟩ | old
    · rw [Function.update_self]
    · exact moved.price q b old
  · rcases (at' q b).1 hq with ⟨rfl, rfl⟩ | old
    · rw [Function.update_self]
    · exact moved.live q b old
  · rw [mem_insertSorted, moved.list]
    constructor
    · rintro (rfl | ⟨q, hq⟩)
      · exact ⟨level.price, (at' _ _).2 (.inl ⟨rfl, rfl⟩)⟩
      · exact ⟨q, (at' _ _).2 (.inr hq)⟩
    · rintro ⟨q, hq⟩
      rcases (at' q b).1 hq with ⟨-, rfl⟩ | old
      · exact .inl rfl
      · exact .inr ⟨q, old⟩
  · refine pairwise_insertSorted (fun y _ => level_compare_le _ a y) (fun y hy same => ?_) moved.ascending
    obtain ⟨q, hq⟩ := (h.list y).1 hy
    have price : (Function.update memory a level y).price = q := moved.price q y hq
    have equal : q = level.price := by
      have := BitVec.eq_of_toNat_eq same
      rwa [price, Function.update_self] at this
    rw [equal, here] at hq
    cases hq
  · have new : ∀ e ∈ ix.tree, gUintCompare e.1 level.price ≠ 0 := by
      intro e he same
      have hold := (h.tree e.1 e.2).1 he
      refine alone e.1 (fun none => ?_) ((uint_compare_eq_zero _ _).1 same)
      rw [← h.empty_iff, hold] at none
      cases none
    rw [Tree.mem_insert_new new, moved.tree, at', Prod.mk.injEq]
  · rcases present q hq with rfl | old <;> rcases present q' hq' with rfl | old'
    · rfl
    · exact absurd same.symm (alone q' old')
    · exact absurd same (alone q old)
    · exact h.apart q q' (fun none => old ((h.empty_iff q).1 none)) (fun none => old' ((h.empty_iff q').1 none)) same

/-- **A new value** for a level. -/
theorem overwrite (h : ix.Indexes memory live m) (level : ObLevel) {a : Addr} (at' : ix.hash level.price = some a) :
    ix.Indexes (Function.update memory a level) live
      (Function.update m level.price (some (level.seqNum, level.size))) := by
  have price := h.price _ a at'
  have prices : ∀ b, (Function.update memory a level b).price = (memory b).price := fun b => by
    by_cases same : b = a
    · rw [same, Function.update_self, price]
    · rw [Function.update_of_ne same]
  refine ⟨fun q => ?_, fun q b hq => ?_, h.live, h.list, ?_, h.tree, h.apart⟩
  · by_cases same : q = level.price
    · subst same
      simp only [at', Option.map_some, Function.update_self]
    · rw [Function.update_of_ne same, ← h.lookup q]
      cases hq : ix.hash q with
      | none => rfl
      | some b =>
        have other : b ≠ a := fun equal => same (h.address_unique (equal ▸ hq) at')
        simp only [Option.map_some, Function.update_of_ne other]
  · rw [prices, h.price q b hq]
  · refine h.ascending.imp fun {b c} less => ?_
    simp only [priceAt, prices]
    exact less

/-- **A level less.** -/
theorem delete (h : ix.Indexes memory live m) {p : U64} {a : Addr} (at' : ix.hash p = some a) :
    (ix.hash.remove p).1 = true ∧ (ix.tree.remove gUintCompare p).1 = true ∧
      Index.Indexes
        { hash := (ix.hash.remove p).2, tree := (ix.tree.remove gUintCompare p).2, list := ix.list.erase a }
        memory (Function.update live a false) (Function.update m p none) := by
  have rest : ∀ q b, (ix.hash.remove p).2 q = some b ↔ q ≠ p ∧ ix.hash q = some b := by
    intro q b
    by_cases same : q = p
    · rw [same, HashTable.remove_self]
      exact ⟨(nomatch ·), fun h => absurd rfl h.1⟩
    · rw [HashTable.remove_ne _ same]
      exact ⟨fun h => ⟨same, h⟩, fun h => h.2⟩
  have other : ∀ q b, q ≠ p → ix.hash q = some b → b ≠ a := fun q b hq hb same =>
    hq (h.address_unique hb (same ▸ at'))
  refine ⟨?_, ?_, fun q => ?_, fun q b hq => ?_, fun q b hq => ?_, fun b => ?_, ?_, fun q b => ?_, fun q q' hq hq' same => ?_⟩
  · rw [HashTable.remove, at']
    rfl
  · exact Tree.remove_found.2 ⟨(p, a), (h.tree p a).2 at', (uint_compare_eq_zero p p).2 rfl⟩
  · by_cases same : q = p
    · subst same
      simp only [HashTable.remove_self, Function.update_self, Option.map_none]
    · simp only [HashTable.remove_ne _ same, Function.update_of_ne same]
      exact h.lookup q
  · exact h.price q b ((rest q b).1 hq).2
  · obtain ⟨hne, hold⟩ := (rest q b).1 hq
    rw [Function.update_of_ne (other q b hne hold)]
    exact h.live q b hold
  · rw [h.nodup.mem_erase_iff, h.list]
    constructor
    · rintro ⟨hne, q, hq⟩
      refine ⟨q, (rest q b).2 ⟨fun same => hne ?_, hq⟩⟩
      rw [same, at'] at hq
      exact (Option.some.inj hq).symm
    · rintro ⟨q, hq⟩
      obtain ⟨hne, hold⟩ := (rest q b).1 hq
      exact ⟨other q b hne hold, q, hold⟩
  · exact h.ascending.sublist List.erase_sublist
  · rw [Tree.mem_remove, h.tree, rest]
    constructor
    · rintro ⟨hold, differs⟩
      exact ⟨fun same => differs ((uint_compare_eq_zero q p).2 (same ▸ rfl)), hold⟩
    · rintro ⟨hne, hold⟩
      refine ⟨hold, fun same => hne (h.apart q p ?_ ?_ ((uint_compare_eq_zero q p).1 same))⟩
      · rw [hold]
        exact Option.some_ne_none b
      · rw [at']
        exact Option.some_ne_none a
  · have old : ∀ q, (ix.hash.remove p).2 q ≠ none → ix.hash q ≠ none := by
      intro q hq none
      by_cases same : q = p
      · rw [same, at'] at none
        cases none
      · rw [HashTable.remove_ne _ same] at hq
        exact hq none
    exact h.apart q q' (old q hq) (old q' hq') same

end Index.Indexes

/-! ## Prices of 32 bits -/

/-- Prices of 32 bits. -/
def Levels.Small (m : Levels) : Prop := ∀ buy price, m buy price ≠ none → price.toNat < 2 ^ 32

theorem Levels.Small.set {m : Levels} (small : m.Small) {price : U64} (buy : Bool) (v : Option (U64 × U64))
    (below : v ≠ none → price.toNat < 2 ^ 32) : (m.set buy price v).Small := by
  intro buy' price' there
  rw [Levels.set] at there
  by_cases side : buy' = buy
  · subst side
    rw [Function.update_self] at there
    by_cases same : price' = price
    · subst same
      rw [Function.update_self] at there
      exact below there
    · rw [Function.update_of_ne same] at there
      exact small buy' price' there
  · rw [Function.update_of_ne side] at there
    exact small buy' price' there

/-- A call puts no price above 32 bits. -/
def OrderBook.Call.Small : OrderBook.Call → Prop
  | .modify order _ => order.price.toNat < 2 ^ 32
  | .delete _ | .lookup _ => True

instance : (c : OrderBook.Call) → Decidable c.Small
  | .modify order _ => inferInstanceAs (Decidable (order.price.toNat < 2 ^ 32))
  | .delete _ | .lookup _ => .isTrue trivial

theorem Levels.Small.call {m : Levels} (small : m.Small) {c : OrderBook.Call} (below : c.Small) : (m.call c).2.Small := by
  cases c with
  | modify order calloc =>
    change (m.modify order calloc.isSome).2.Small
    rw [Levels.modify]
    split
    · split
      · exact small.set _ _ fun _ => below
      · exact small
    · split
      · exact small.set _ _ fun _ => below
      · exact small
  | delete order => exact small.set _ _ fun no => absurd rfl no
  | lookup order => exact small

/-! ## The book -/

namespace OrderBook

variable {ob : OrderBook} {m : Levels}

@[simp] theorem side_setSide (ob : OrderBook) (buy : Bool) (ix : Index) : (ob.setSide buy ix).side buy = ix := by
  cases buy <;> rfl

theorem side_setSide_ne (ob : OrderBook) {buy buy' : Bool} (ix : Index) (h : buy' ≠ buy) :
    (ob.setSide buy ix).side buy' = ob.side buy' := by
  cases buy <;> cases buy' <;> first | rfl | exact absurd rfl h

@[simp] theorem setSide_memory (ob : OrderBook) (buy : Bool) (ix : Index) : (ob.setSide buy ix).memory = ob.memory := by
  cases buy <;> rfl

@[simp] theorem setSide_live (ob : OrderBook) (buy : Bool) (ix : Index) : (ob.setSide buy ix).live = ob.live := by
  cases buy <;> rfl

@[simp] theorem setLive_side (ob : OrderBook) (a : Addr) (live buy : Bool) : (ob.setLive a live).side buy = ob.side buy := by
  cases buy <;> rfl

@[simp] theorem setLevel_side (ob : OrderBook) (a : Addr) (level : ObLevel) (buy : Bool) :
    (ob.setLevel a level).side buy = ob.side buy := by cases buy <;> rfl

/-- Both sides are indexed, by levels of their own. -/
structure Indexed (ob : OrderBook) (m : Levels) : Prop where
  sides : ∀ buy, (ob.side buy).Indexes ob.memory ob.live (m buy)
  own : ∀ buy buy' p q a, buy ≠ buy' → (ob.side buy).hash p = some a → (ob.side buy').hash q ≠ some a

/-- The three structures of each side have the same levels, the list in strict order of price, and they
are the map. -/
structure Exact (ob : OrderBook) (m : Levels) : Prop where
  hash : ∀ buy a, a ∈ (ob.side buy).list ↔ ∃ p, (ob.side buy).hash p = some a
  tree : ∀ buy a, a ∈ (ob.side buy).list ↔ ∃ k, (k, a) ∈ (ob.side buy).tree
  ascending : ∀ buy, (ob.side buy).list.Pairwise fun a b => (ob.memory a).price < (ob.memory b).price
  lookup : ∀ buy p, ((ob.side buy).hash p).map (fun a => ((ob.memory a).seqNum, (ob.memory a).size)) = m buy p

theorem Indexed.exact (h : ob.Indexed m) : ob.Exact m where
  hash buy := (h.sides buy).list
  tree buy a := by
    rw [(h.sides buy).list]
    exact exists_congr fun k => ((h.sides buy).tree k a).symm
  ascending buy := (h.sides buy).ascending
  lookup buy := (h.sides buy).lookup

theorem init_indexed : obInit.Indexed (fun _ _ => none) where
  sides buy := by
    have empty : obInit.side buy = ⟨fun _ => none, [], []⟩ := by cases buy <;> rfl
    rw [empty]
    refine ⟨fun _ => rfl, fun p a h => (nomatch h), fun p a h => (nomatch h), fun a => ?_, List.Pairwise.nil, fun k a => ?_,
      fun p q h => absurd rfl h⟩
    · exact iff_of_false List.not_mem_nil fun ⟨p, h⟩ => nomatch h
    · exact iff_of_false List.not_mem_nil fun h => nomatch h
  own buy buy' p q a _ h := by cases buy <;> cases h

/-- A call puts a price beside another that the tree takes for the same. -/
def Collides (m : Levels) : Call → Prop
  | .modify order calloc =>
    calloc ≠ none ∧ m order.buy order.price = none ∧
      ∃ p, p ≠ order.price ∧ m order.buy p ≠ none ∧ low p = low order.price
  | _ => False

/-- Such prices do not collide. -/
theorem small_alone {m : Levels} (small : m.Small) {order : ObOrder} (price : order.price.toNat < 2 ^ 32)
    (calloc : Option Addr) : ¬Collides m (.modify order calloc) := by
  rintro ⟨-, -, p, other, there, bits⟩
  have below := small order.buy p there
  have equal := congrArg BitVec.toNat bits
  rw [low, low, BitVec.toNat_setWidth, BitVec.toNat_setWidth, Nat.mod_eq_of_lt below, Nat.mod_eq_of_lt price] at equal
  exact other (BitVec.eq_of_toNat_eq equal)

/-- A side changes at an address of its own; the other one does not notice. -/
theorem Indexed.setSide (h : ob.Indexed m) (buy : Bool) {ix : Index} {memory : Addr → ObLevel} (live : Addr → Bool)
    {v : U64 → Option (U64 × U64)} {a : Addr} (side : ix.Indexes memory live v)
    (memories : ∀ b, b ≠ a → memory b = ob.memory b) (lives : ∀ b, b ≠ a → live b = ob.live b)
    (mine : ∀ q buy', buy ≠ buy' → (ob.side buy').hash q ≠ some a)
    (from' : ∀ q b, ix.hash q = some b → b = a ∨ (ob.side buy).hash q = some b) :
    Indexed (OrderBook.setSide { ob with memory := memory, live := live } buy ix) (Function.update m buy v) := by
  have others : ∀ buy', buy' ≠ buy →
      (OrderBook.setSide { ob with memory := memory, live := live } buy ix).side buy' = ob.side buy' := by
    intro buy' hne
    rw [side_setSide_ne _ _ hne]
    cases buy' <;> rfl
  refine ⟨fun buy' => ?_, fun buy₁ buy₂ p q b hne hb hb' => ?_⟩
  · rw [setSide_memory, setSide_live]
    by_cases same : buy' = buy
    · subst same
      rw [side_setSide, Function.update_self]
      exact side
    · rw [others buy' same, Function.update_of_ne same]
      refine (h.sides buy').frame memory live fun p b hb => ?_
      have far : b ≠ a := fun eq => mine p buy' (Ne.symm same) (eq ▸ hb)
      exact ⟨memories b far, lives b far⟩
  · by_cases same : buy₁ = buy
    · subst same
      rw [side_setSide] at hb
      rw [others buy₂ (Ne.symm hne)] at hb'
      rcases from' p b hb with rfl | old
      · exact mine q buy₂ hne hb'
      · exact h.own buy₁ buy₂ p q b hne old hb'
    · rw [others buy₁ same] at hb
      by_cases same' : buy₂ = buy
      · subst same'
        rw [side_setSide] at hb'
        rcases from' q b hb' with rfl | old
        · exact mine p buy₁ (Ne.symm hne) hb
        · exact h.own buy₁ buy₂ p q b hne hb old
      · rw [others buy₂ same'] at hb'
        exact h.own buy₁ buy₂ p q b hne hb hb'

theorem modify_new {order : ObOrder} (a : Addr) (at' : (ob.side order.buy).hash order.price = none) :
    ob.obLevelModify order (some a) =
      (0, OrderBook.setSide
        { ob with
          memory := Function.update ob.memory a ⟨order.seqNum, order.price, order.size⟩
          live := Function.update ob.live a true } order.buy
        { hash := (ob.side order.buy).hash.insert order.price a
          list := insertSorted
            (gLevelCompare (Function.update ob.memory a ⟨order.seqNum, order.price, order.size⟩)) a (ob.side order.buy).list
          tree := (ob.side order.buy).tree.insert gUintCompare order.price a }) := by
  simp only [obLevelModify, at', setLevel, setLive, Function.update_self]

theorem modify_old {order : ObOrder} {a : Addr} (calloc : Option Addr) (at' : (ob.side order.buy).hash order.price = some a) :
    ob.obLevelModify order calloc =
      if order.seqNum ≤ (ob.memory a).seqNum then (-1, ob)
      else (0, { ob with memory := Function.update ob.memory a ⟨order.seqNum, (ob.memory a).price, order.size⟩ }) := by
  simp only [obLevelModify, at', setLevel]

/-- Putting a side back changes nothing. -/
theorem setSide_same (ob : OrderBook) (buy : Bool) (memory : Addr → ObLevel) :
    OrderBook.setSide { ob with memory := memory } buy (ob.side buy) = { ob with memory := memory } := by
  cases buy <;> rfl

/-- **`ob_level_modify`** is the map's, unless two prices collide. -/
theorem modify_indexed (h : ob.Indexed m) (order : ObOrder) (calloc : Option Addr)
    (fresh : ∀ a, calloc = some a → ob.live a = false) (alone : ¬ Collides m (.modify order calloc)) :
    (ob.obLevelModify order calloc).1 = (m.modify order calloc.isSome).1 ∧
      (ob.obLevelModify order calloc).2.Indexed (m.modify order calloc.isSome).2 ∧
      ((ob.obLevelModify order calloc).1 = -1 → (ob.obLevelModify order calloc).2 = ob) := by
  have side := h.sides order.buy
  cases at' : (ob.side order.buy).hash order.price with
  | none =>
    have absent := (side.empty_iff _).1 at'
    cases calloc with
    | none =>
      have fails : ob.obLevelModify order none = (-1, ob) := by simp only [obLevelModify, at']
      have refused : m.modify order (none : Option Addr).isSome = (-1, m) := by
        simp only [Levels.modify, absent, Option.isSome_none, Bool.false_eq_true, if_false]
      rw [fails, refused]
      exact ⟨rfl, h, fun _ => rfl⟩
    | some a =>
      have unused := fresh a rfl
      have far : ∀ q buy', (ob.side buy').hash q ≠ some a := fun q buy' hq => by
        rw [(h.sides buy').live q a hq] at unused
        cases unused
      have new := side.insert ⟨order.seqNum, order.price, order.size⟩ unused absent fun q hq same =>
        alone ⟨Option.some_ne_none a, absent, q, fun eq => hq (eq ▸ absent), hq, same⟩
      have next := h.setSide order.buy (Function.update ob.live a true) new (fun b hb => Function.update_of_ne hb _ _)
        (fun b hb => Function.update_of_ne hb _ _)
        (fun q buy' _ => far q buy') (fun q b hq => ?_)
      · have accepted : m.modify order (some a).isSome =
            (0, m.set order.buy order.price (some (order.seqNum, order.size))) := by
          simp only [Levels.modify, absent, Option.isSome_some, if_true]
        rw [modify_new a at', accepted]
        exact ⟨rfl, next, fun h => absurd (show (0 : Int) = -1 from h) (by decide)⟩
      · by_cases same : q = order.price
        · subst same
          exact .inl (Option.some.inj ((HashTable.insert_self _ _ _).symm.trans hq)).symm
        · exact .inr ((HashTable.insert_ne _ _ same).symm.trans hq)
  | some a =>
    have found : m order.buy order.price = some ((ob.memory a).seqNum, (ob.memory a).size) := by
      rw [← side.lookup, at']
      rfl
    have price := side.price _ a at'
    rw [modify_old calloc at']
    simp only [Levels.modify, found]
    by_cases newer : (ob.memory a).seqNum < order.seqNum
    · rw [if_pos newer, if_neg (BitVec.not_le.2 newer), price]
      have new := side.overwrite ⟨order.seqNum, order.price, order.size⟩ at'
      have next := h.setSide order.buy ob.live new (fun b hb => Function.update_of_ne hb _ _) (fun _ _ => rfl)
        (fun q buy' hne hq => h.own _ _ _ _ a hne at' hq) (fun q b hq => .inr hq)
      rw [setSide_same] at next
      exact ⟨rfl, next, fun h => absurd (show (0 : Int) = -1 from h) (by decide)⟩
    · rw [if_neg newer, if_pos (BitVec.not_lt.1 newer)]
      exact ⟨rfl, h, fun _ => rfl⟩

/-- **`ob_level_delete`** is the map's. -/
theorem delete_indexed (h : ob.Indexed m) (order : ObOrder) :
    (ob.obLevelDelete order).1 = (m.delete order).1 ∧ (ob.obLevelDelete order).2.Indexed (m.delete order).2 := by
  have side := h.sides order.buy
  cases at' : (ob.side order.buy).hash order.price with
  | none =>
    have absent := (side.empty_iff _).1 at'
    have nothing : ob.obLevelDelete order = (0, ob) := by simp only [obLevelDelete, at']
    have same : (m.delete order).2 = m := by
      have side : Function.update (m order.buy) order.price none = m order.buy := by
        rw [← absent, Function.update_eq_self]
      simp only [Levels.delete, Levels.set, side, Function.update_eq_self]
    rw [nothing, same]
    exact ⟨rfl, h⟩
  | some a =>
    obtain ⟨inHash, inTree, rest⟩ := side.delete at'
    have next := h.setSide order.buy (Function.update ob.live a false) rest (fun _ _ => rfl) (fun b hb => Function.update_of_ne hb _ _)
      (fun q buy' hne hq => h.own _ _ _ _ a hne at' hq) (fun q b hq => ?_)
    · have done : ob.obLevelDelete order = (0, OrderBook.setSide { ob with live := Function.update ob.live a false } order.buy
          { hash := ((ob.side order.buy).hash.remove order.price).2
            tree := ((ob.side order.buy).tree.remove gUintCompare order.price).2
            list := (ob.side order.buy).list.erase a }) := by
        simp only [obLevelDelete, at', inHash, inTree, Bool.true_eq_false, if_false, setLive]
      rw [done]
      exact ⟨rfl, next⟩
    · by_cases same : q = order.price
      · subst same
        exact absurd ((HashTable.remove_self _ _).symm.trans hq) (by simp)
      · exact .inr ((HashTable.remove_ne _ same).symm.trans hq)

/-- One call. -/
theorem call_indexed (h : ob.Indexed m) {c : Call} (allocates : ob.Allocates c) (alone : ¬ Collides m c) :
    (ob.call c).1 = (m.call c).1 ∧ (ob.call c).2.Indexed (m.call c).2 ∧
      ((ob.call c).1 = .ret (-1) → (ob.call c).2 = ob) := by
  cases c with
  | modify order calloc =>
    obtain ⟨ret, next, fails⟩ := modify_indexed h order calloc (fun a ha => by subst ha; exact allocates) alone
    exact ⟨congrArg Out.ret ret, next, fun failed => fails (Out.ret.inj failed)⟩
  | delete order =>
    obtain ⟨ret, next⟩ := delete_indexed h order
    refine ⟨congrArg Out.ret ret, next, fun failed => ?_⟩
    have failed : (ob.obLevelDelete order).1 = -1 := Out.ret.inj failed
    rw [ret] at failed
    cases failed
  | lookup order => exact ⟨congrArg Out.level ((h.sides order.buy).lookup order.price), h, fun failed => nomatch failed⟩

/-- **A collision.** The new level takes the place of another in the tree, which stays in the hash
table. -/
theorem collision (h : ob.Indexed m) {c : Call} (allocates : ob.Allocates c) (collides : Collides m c) (m' : Levels) :
    ¬ (ob.call c).2.Exact m' := by
  intro exact
  cases c with
  | modify order calloc =>
    obtain ⟨some, absent, p, hne, hp, equal⟩ := collides
    obtain ⟨a, rfl⟩ := Option.ne_none_iff_exists'.1 some
    have side := h.sides order.buy
    have equal := (uint_compare_eq_zero p order.price).2 equal
    have at' := (side.empty_iff order.price).2 absent
    obtain ⟨b, hb⟩ := Option.ne_none_iff_exists'.1 (fun none => hp ((side.empty_iff p).1 none))
    have other : b ≠ a := fun same => by
      have unused : ob.live a = false := allocates
      rw [← same, side.live p b hb] at unused
      cases unused
    have hash := exact.hash order.buy b
    have tree := exact.tree order.buy b
    simp only [call, modify_new a at', side_setSide] at hash tree
    obtain ⟨k, hk⟩ := tree.1 (hash.2 ⟨p, by rw [HashTable.insert_ne _ _ hne]; exact hb⟩)
    rcases (Tree.mem_insert_old ((side.tree p b).2 hb) equal _).1 hk with ⟨-, same, -⟩ | ⟨differs, old⟩
    · exact other same
    · have here : k = p := side.address_unique ((side.tree k b).1 old) hb
      exact differs (here ▸ equal)
  | delete order => exact collides
  | lookup order => exact collides

/-! ## Runs -/

/-- A call that was made: the book and the map before it. -/
structure Made where
  before : OrderBook
  levels : Levels
  call : Call

namespace Made

/-- The call and the map's return the same, the structures hold the map after it, and a call that
returns -1 left them alone. -/
structure Right (c : Made) : Prop where
  out : (c.before.call c.call).1 = (c.levels.call c.call).1
  exact : (c.before.call c.call).2.Exact (c.levels.call c.call).2
  fails : (c.before.call c.call).1 = .ret (-1) → ∀ buy, (c.before.call c.call).2.side buy = c.before.side buy

/-- The call puts a price beside one with the same low 32 bits. -/
def Collides (c : Made) : Prop := OrderBook.Collides c.levels c.call

end Made

/-- The calls on an initialised book, the last one first. -/
inductive Run : List Made → OrderBook → Levels → Prop
  | init : Run [] obInit (fun _ _ => none)
  | call {cs : List Made} {ob : OrderBook} {m : Levels} (before : Run cs ob m) (c : Call) (allocates : ob.Allocates c) :
      Run (⟨ob, m, c⟩ :: cs) (ob.call c).2 (m.call c).2

/-- Without collisions the book is indexed, and every call was right. -/
theorem run_indexed {cs : List Made} (h : Run cs ob m) (alone : ∀ c ∈ cs, ¬ c.Collides) :
    ob.Indexed m ∧ ∀ c ∈ cs, c.Right := by
  induction h with
  | init => exact ⟨init_indexed, fun _ hc => absurd hc List.not_mem_nil⟩
  | call _ c allocates ih =>
    obtain ⟨indexed, right⟩ := ih fun c' hc' => alone c' (List.mem_cons_of_mem _ hc')
    obtain ⟨out, next, fails⟩ := call_indexed indexed allocates (alone _ List.mem_cons_self)
    refine ⟨next, fun c' hc' => ?_⟩
    rcases List.mem_cons.1 hc' with rfl | hc'
    · exact ⟨out, next.exact, fun failed buy => by rw [fails failed]⟩
    · exact right c' hc'

/-- **The order book is a map.** In every run of calls, all of them return what the map returns and leave
the three structures of both sides with the levels of the map, if and only if none puts a price beside
one with the same low 32 bits. -/
theorem book_is_map {cs : List Made} (h : Run cs ob m) : (∀ c ∈ cs, c.Right) ↔ ∀ c ∈ cs, ¬ c.Collides := by
  refine ⟨fun right => ?_, fun alone => (run_indexed h alone).2⟩
  induction h with
  | init => exact fun _ hc => absurd hc List.not_mem_nil
  | call before c allocates ih =>
    have alone := ih fun c' hc' => right c' (List.mem_cons_of_mem _ hc')
    intro c' hc'
    rcases List.mem_cons.1 hc' with rfl | hc'
    · exact fun collides => collision (run_indexed before alone).1 allocates collides _ (right _ List.mem_cons_self).exact
    · exact alone c' hc'

/-- A run that puts no price above 32 bits has no collisions. -/
theorem run_small {cs : List Made} (h : Run cs ob m) (below : ∀ c ∈ cs, c.call.Small) :
    m.Small ∧ ∀ c ∈ cs, ¬c.Collides := by
  induction h with
  | init => exact ⟨fun _ _ no => absurd rfl no, fun _ hc => absurd hc List.not_mem_nil⟩
  | @call cs ob m before c allocates ih =>
    obtain ⟨first, rest⟩ := List.forall_mem_cons.1 below
    obtain ⟨small, alone⟩ := ih rest
    refine ⟨small.call first, List.forall_mem_cons.2 ⟨?_, alone⟩⟩
    cases c with
    | modify order calloc => exact small_alone small first calloc
    | delete order => exact fun no => no
    | lookup order => exact fun no => no

/-- Two bids and an ask, an increment that is too old, one that is not, a deletion and two lookups, the last first. -/
def twoBidsAndAsk : List Call :=
  [.lookup ⟨0, 100, 0, true⟩, .lookup ⟨0, 90, 0, true⟩, .delete ⟨6, 90, 0, true⟩, .modify ⟨5, 100, 8, true⟩ none,
    .modify ⟨1, 100, 9, true⟩ none, .modify ⟨3, 110, 4, false⟩ (some 2), .modify ⟨2, 90, 7, true⟩ (some 1),
    .modify ⟨1, 100, 5, true⟩ (some 0)]

/-- Two bids and an ask, and the book is the map: the bid at 100 has its last size, and the one at 90 is gone. -/
theorem two_bids_and_ask : ∃ cs ob m, Run cs ob m ∧ cs.map (·.call) = twoBidsAndAsk ∧ (∀ c ∈ cs, c.Right) ∧
    m true 100 = some (5, 8) ∧ m true 90 = none ∧ m false 110 = some (3, 4) := by
  have first := Run.call .init (.modify ⟨1, 100, 5, true⟩ (some 0)) rfl
  have bids := first.call (.modify ⟨2, 90, 7, true⟩ (some 1)) rfl
  have ask := bids.call (.modify ⟨3, 110, 4, false⟩ (some 2)) rfl
  have old := ask.call (.modify ⟨1, 100, 9, true⟩ none) trivial
  have new := old.call (.modify ⟨5, 100, 8, true⟩ none) trivial
  have less := new.call (.delete ⟨6, 90, 0, true⟩) trivial
  have run := (less.call (.lookup ⟨0, 90, 0, true⟩) trivial).call (.lookup ⟨0, 100, 0, true⟩) trivial
  have below : ∀ c ∈ twoBidsAndAsk, c.Small := by decide
  refine ⟨_, _, _, run, rfl, (book_is_map run).2 (run_small run fun c hc => below _ ?_).2, rfl, rfl, rfl⟩
  exact List.mem_map_of_mem (f := (·.call)) hc

/-- **The indexes diverge.** With a bid at 2^32 + 1 beside one at 1, the hash table and the list have two
levels, the tree one. -/
theorem indexes_diverge :
    ∃ cs ob m, Run cs ob m ∧
      cs.map (·.call) = [.modify ⟨2, 4294967297, 7, true⟩ (some 1), .modify ⟨1, 1, 5, true⟩ (some 0)] ∧
      ob.bids.hash 1 = some 0 ∧ ob.bids.hash 4294967297 = some 1 ∧ ob.bids.list = [0, 1] ∧ ob.bids.tree = [(1, 1)] :=
  ⟨_, _, _, .call (.call .init (.modify ⟨1, 1, 5, true⟩ (some 0)) rfl) (.modify ⟨2, 4294967297, 7, true⟩ (some 1)) rfl,
    rfl, rfl, rfl, rfl, rfl⟩

end OrderBook

end Libtrading.Book
