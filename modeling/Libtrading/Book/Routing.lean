import Libtrading.Book.Cleared

/-!
# The book that market data reaches

What comes without a `SecurityID` goes by its names: to the first book whose symbol its `Symbol` starts
with, if its `TradingSessionID` starts with the session of that book. Nothing else of the set changes. So
it reaches the book of its names where that first book has exactly these, and where one symbol is the
beginning of another it need not. A snapshot is routed by the message and by the session in element 0,
whatever session its entries have.
-/

namespace Libtrading.Book
set_option autoImplicit false
open Fast

/-! ## Names -/

/-- The `Symbol` is that of the book. -/
def FastBook.NamedBy (b : FastBook) (symbol : FieldRead Bytes) : Prop := ∃ v, symbol = .value v ∧ cstring v = b.symbol

/-- The `TradingSessionID`, if there is one, is that of the book, if it has one. -/
def FastBook.InSession (b : FastBook) (tradingSessionId : FieldRead Bytes) : Prop :=
  ∀ v, tradingSessionId = .value v → b.session ≠ [] → cstring v = b.session

/-- The book has the names it had. -/
structure FastBook.SameNames (b b' : FastBook) : Prop where
  symbol : b'.symbol = b.symbol
  session : b'.session = b.session

namespace FastBook.SameNames

theorem refl (b : FastBook) : b.SameNames b := ⟨rfl, rfl⟩

theorem trans {a b c : FastBook} (h : a.SameNames b) (h' : b.SameNames c) : a.SameNames c :=
  ⟨h'.symbol.trans h.symbol, h'.session.trans h.session⟩

theorem named_by {b b' : FastBook} (h : b.SameNames b') {symbol : FieldRead Bytes} :
    b'.NamedBy symbol ↔ b.NamedBy symbol := by
  rw [FastBook.NamedBy, FastBook.NamedBy, h.symbol]

theorem in_session {b b' : FastBook} (h : b.SameNames b') {tradingSessionId : FieldRead Bytes} :
    b'.InSession tradingSessionId ↔ b.InSession tradingSessionId := by
  rw [FastBook.InSession, FastBook.InSession, h.session]

end FastBook.SameNames

/-- Names lead to a book: the first one whose symbol the given one starts with, if it takes what comes,
agrees with `dst`, and has a session that the given one starts with. -/
structure LeadsTo (books : List FastBook) (dst : Option FastBook) (takes : FastBook → Bool) (symbol : FieldRead Bytes)
    (tradingSessionId : FieldRead Bytes) (i : Nat) (b : FastBook) : Prop where
  here : books[i]? = some b
  first : ∃ v, symbol = .value v ∧ b.symbol <+: cstring v ∧
    ∀ j < i, ∀ c, books[j]? = some c → ¬c.symbol <+: cstring v
  takes : takes b = true
  agrees : ∀ d, dst = some d → d.symbol <+: b.symbol
  session : tradingSessionId = .missing ∨ ∃ v, tradingSessionId = .value v ∧ b.session <+: cstring v

theorem find_symbol_iff {books : List FastBook} {symbol : Bytes} {i : Nat} :
    fastBookBySymbol books symbol = some i ↔ ∃ b, books[i]? = some b ∧ b.symbol <+: cstring symbol ∧
      ∀ j < i, ∀ c, books[j]? = some c → ¬c.symbol <+: cstring symbol := by
  rw [fastBookBySymbol, List.findIdx?_eq_some_iff_getElem]
  simp only [List.isPrefixOf_iff_prefix]
  constructor
  · rintro ⟨lt, starts, before⟩
    refine ⟨books[i], List.getElem?_eq_getElem lt, starts, fun j less c at' => ?_⟩
    obtain ⟨_, rfl⟩ := List.getElem?_eq_some_iff.1 at'
    exact before j less
  · rintro ⟨b, at', starts, before⟩
    obtain ⟨lt, rfl⟩ := List.getElem?_eq_some_iff.1 at'
    exact ⟨lt, starts, fun j less => before j less _ (List.getElem?_eq_getElem (by omega))⟩

/-- The scan, the flags and `dst` decide the route. -/
theorem route_by_symbol {books : List FastBook} {dst : Option FastBook} {takes : FastBook → Bool}
    {symbol : FieldRead Bytes} {i : Nat} {b : FastBook} :
    route books dst takes .missing symbol = .book i b ↔
      books[i]? = some b ∧ (∃ v, symbol = .value v ∧ b.symbol <+: cstring v ∧
        ∀ j < i, ∀ c, books[j]? = some c → ¬c.symbol <+: cstring v) ∧
      takes b = true ∧ ∀ d, dst = some d → d.symbol <+: b.symbol := by
  have agreeing (c : FastBook) : (dst.all fun d => d.symbol.isPrefixOf c.symbol) = true ↔
      ∀ d, dst = some d → d.symbol <+: c.symbol := by
    cases dst <;> simp
  unfold route
  cases symbol with
  | missing => simp [FieldRead.get]
  | empty => simp [FieldRead.get]
  | value v =>
    simp only [FieldRead.get]
    constructor
    · intro h
      cases found : fastBookBySymbol books v with
      | none => rw [found] at h; cases h
      | some j =>
        obtain ⟨c, at', starts, before⟩ := find_symbol_iff.1 found
        rw [found] at h
        simp only [at'] at h
        split at h
        · cases h
        · rename_i takes'
          split at h
          · cases h
          · rename_i agrees
            cases h
            exact ⟨at', ⟨v, rfl, starts, before⟩, by simpa using takes', (agreeing b).1 (by simpa using agrees)⟩
    · rintro ⟨at', ⟨w, same, starts, before⟩, takes', agrees⟩
      cases same
      rw [find_symbol_iff.2 ⟨b, at', starts, before⟩]
      simp only [at']
      rw [if_neg (by simp [takes']), if_neg (by simp [(agreeing b).2 agrees])]

/-- The session of what is routed here lets it through. -/
theorem in_session_iff {b : FastBook} {tradingSessionId : FieldRead Bytes} :
    inSession b tradingSessionId = some true ↔
      tradingSessionId = .missing ∨ ∃ v, tradingSessionId = .value v ∧ b.session <+: cstring v := by
  cases tradingSessionId <;> simp [inSession]

theorem leads_to_iff {books : List FastBook} {dst : Option FastBook} {takes : FastBook → Bool}
    {symbol tradingSessionId : FieldRead Bytes} {i : Nat} {b : FastBook} :
    LeadsTo books dst takes symbol tradingSessionId i b ↔
      route books dst takes .missing symbol = .book i b ∧ inSession b tradingSessionId = some true := by
  rw [route_by_symbol, in_session_iff]
  exact ⟨fun h => ⟨⟨h.here, h.first, h.takes, h.agrees⟩, h.session⟩,
    fun ⟨⟨here, first, takes', agrees⟩, session⟩ => ⟨here, first, takes', agrees, session⟩⟩

/-! ## Increments -/

section
variable (calloc : OrderBook → Option Addr)

theorem md_increment_names (b : FastBook) (md : MdEntry) : b.SameNames (mdIncrement calloc b md).2 := by
  rw [mdIncrement]
  split
  · exact .refl b
  · exact ⟨rfl, rfl⟩
  · split
    · exact .refl b
    · split
      · exact ⟨rfl, rfl⟩
      · split
        · split <;> exact ⟨rfl, rfl⟩
        · exact .refl b

theorem count_entry_names (b : FastBook) (rptSeq : U64) (md : MdEntry) :
    b.SameNames (countEntry calloc b rptSeq md).2 := by
  have first : b.SameNames (if b.rptseq = 0 then { b with rptseq := rptSeq - 1 } else b) := by
    split <;> exact ⟨rfl, rfl⟩
  unfold countEntry
  generalize (if b.rptseq = 0 then { b with rptseq := rptSeq - 1 } else b) = c at first
  simp only
  split
  · exact first.trans ⟨rfl, rfl⟩
  · have counted : c.SameNames { c with rptseq := c.rptseq + 1, empty := false } := ⟨rfl, rfl⟩
    exact first.trans (counted.trans (md_increment_names calloc _ md))

/-- An increment of a book set: the book that the names lead to, where the entry has a number. -/
def EntryTaken (books : List FastBook) (dst : Option FastBook) (md : MdEntry) (k : Nat) (b : FastBook)
    (rptSeq : U64) : Prop :=
  LeadsTo books dst (fun b => b.active || b.join) md.symbol md.tradingSessionId k b ∧ md.rptSeq.get = some rptSeq

/-- The entry is counted in the book `k`, or changes it. -/
def EntryReaches (books : List FastBook) (dst : Option FastBook) (md : MdEntry) (k : Nat) : Prop :=
  k ∈ (applyEntries calloc dst books [md]).fed ∨ (applyEntries calloc dst books [md]).books[k]? ≠ books[k]?

/-- The book that takes an entry counts it, and no other changes. -/
theorem entry_taken {books : List FastBook} {dst : Option FastBook} {md : MdEntry} {i : Nat} {b : FastBook}
    {rptSeq : U64} (byName : md.securityId = .missing) (taken : EntryTaken books dst md i b rptSeq) :
    (applyEntries calloc dst books [md]).books = books.set i (countEntry calloc b rptSeq md).2 ∧
      (applyEntries calloc dst books [md]).fed = [i] := by
  obtain ⟨leads, number⟩ := taken
  obtain ⟨routed, session⟩ := leads_to_iff.1 leads
  rw [applyEntries, byName, routed]
  simp only [session, number]
  split
  · exact ⟨rfl, rfl⟩
  · exact ⟨rfl, rfl⟩

/-- An entry that no book takes changes none. -/
theorem entry_not_taken {books : List FastBook} {dst : Option FastBook} {md : MdEntry}
    (byName : md.securityId = .missing) (no : ∀ i b rptSeq, ¬EntryTaken books dst md i b rptSeq) :
    (applyEntries calloc dst books [md]).books = books ∧ (applyEntries calloc dst books [md]).fed = [] := by
  rw [applyEntries, byName]
  cases routed : route books dst (fun b => b.active || b.join) .missing md.symbol with
  | fail => exact ⟨rfl, rfl⟩
  | skip => exact ⟨rfl, rfl⟩
  | book i b =>
    cases session : inSession b md.tradingSessionId with
    | none => simp only [session, and_self]
    | some here =>
      cases here with
      | false => simp only [session, applyEntries, and_self]
      | true =>
        cases number : md.rptSeq.get with
        | none => simp only [session, and_self]
        | some rptSeq => exact absurd ⟨leads_to_iff.2 ⟨routed, session⟩, number⟩ (no i b rptSeq)

theorem entry_reaches_iff {books : List FastBook} {dst : Option FastBook} {md : MdEntry} {k : Nat}
    (byName : md.securityId = .missing) :
    EntryReaches calloc books dst md k ↔ ∃ b rptSeq, EntryTaken books dst md k b rptSeq := by
  by_cases some : ∃ i b rptSeq, EntryTaken books dst md i b rptSeq
  · obtain ⟨i, b, rptSeq, taken⟩ := some
    obtain ⟨left, fed⟩ := entry_taken calloc byName taken
    rw [EntryReaches, left, fed, List.mem_singleton]
    constructor
    · intro reached
      have same : k = i := by
        rcases reached with same | changed
        · exact same
        · by_contra other
          exact changed (List.getElem?_set_ne (Ne.symm other))
      exact ⟨b, rptSeq, same ▸ taken⟩
    · rintro ⟨c, n, taken'⟩
      obtain ⟨routed, -⟩ := leads_to_iff.1 taken.1
      obtain ⟨routed', -⟩ := leads_to_iff.1 taken'.1
      rw [routed] at routed'
      cases routed'
      exact .inl rfl
  · simp only [not_exists] at some
    obtain ⟨left, fed⟩ := entry_not_taken calloc byName some
    rw [EntryReaches, left, fed]
    constructor
    · rintro (no | no)
      · cases no
      · exact absurd rfl no
    · rintro ⟨b, rptSeq, taken⟩
      exact absurd taken (some k b rptSeq)

/-- The loop takes an entry, and stops there if it fails. -/
theorem apply_entries_cons (dst : Option FastBook) (books : List FastBook) (md : MdEntry) (mds : List MdEntry) :
    applyEntries calloc dst books (md :: mds) =
      let first := applyEntries calloc dst books [md]
      if first.ok = false then first
      else
        let rest := applyEntries calloc dst first.books mds
        { rest with fed := first.fed ++ rest.fed } := by
  rw [applyEntries, applyEntries]
  cases route books dst (fun b => b.active || b.join) md.securityId md.symbol with
  | fail => rfl
  | skip => rfl
  | book i b =>
    simp only
    cases inSession b md.tradingSessionId with
    | none => rfl
    | some here =>
      cases here with
      | false => rfl
      | true =>
        cases md.rptSeq.get with
        | none => rfl
        | some rptSeq =>
          simp only
          split <;> rfl

/-- An entry that does not fail is behind the loop. -/
theorem apply_entries_behind {dst : Option FastBook} {books : List FastBook} {md : MdEntry}
    (ok : (applyEntries calloc dst books [md]).ok = true) (mds : List MdEntry) :
    (applyEntries calloc dst books (md :: mds)).ok =
      (applyEntries calloc dst (applyEntries calloc dst books [md]).books mds).ok ∧
    (applyEntries calloc dst books (md :: mds)).books =
      (applyEntries calloc dst (applyEntries calloc dst books [md]).books mds).books := by
  rw [apply_entries_cons calloc dst books md mds]
  simp only [ok, if_neg (show ¬(true = false) by decide), and_self]

theorem apply_entries_names (dst : Option FastBook) (books : List FastBook) (mds : List MdEntry) (k : Nat) :
    ∀ b', (applyEntries calloc dst books mds).books[k]? = some b' →
      ∃ b, books[k]? = some b ∧ b.SameNames b' := by
  induction mds generalizing books with
  | nil => exact fun b' at' => ⟨b', at', .refl b'⟩
  | cons md mds ih =>
    intro b' at'
    rw [applyEntries] at at'
    cases hr : route books dst (fun b => b.active || b.join) md.securityId md.symbol with
    | fail => rw [hr] at at'; exact ⟨b', at', .refl b'⟩
    | skip => rw [hr] at at'; exact ih books b' at'
    | book i b =>
      obtain ⟨here, -⟩ := route_book hr
      rw [hr] at at'
      simp only at at'
      have counted : ∀ (n : U64) (c : FastBook), (books.set i (countEntry calloc b n md).2)[k]? = some c →
          ∃ a, books[k]? = some a ∧ a.SameNames c := by
        intro n c hc
        rw [List.getElem?_set] at hc
        split at hc
        · rename_i same
          split at hc
          · cases hc
            exact ⟨b, same ▸ here, count_entry_names calloc b n md⟩
          · cases hc
        · exact ⟨c, hc, .refl c⟩
      split at at'
      · exact ⟨b', at', .refl b'⟩
      · exact ih books b' at'
      · split at at'
        · exact ⟨b', at', .refl b'⟩
        · rename_i n _
          split at at'
          · exact counted n b' at'
          · obtain ⟨c, hc, same⟩ := ih _ b' at'
            obtain ⟨a, ha, same'⟩ := counted n c hc
            exact ⟨a, ha, same'.trans same⟩

/-- The loop comes to an entry: it has taken the ones before it, and none failed. -/
structure ComesTo (dst : Option FastBook) (books : List FastBook) (mds done : List MdEntry) (md : MdEntry) : Prop where
  entries : ∃ rest, mds = done ++ md :: rest
  ok : (applyEntries calloc dst books done).ok = true

/-- Whatever the loop changes, it changes at an entry it comes to. -/
theorem changed_at_entry (dst : Option FastBook) (books : List FastBook) (mds : List MdEntry) (k : Nat)
    (changed : (applyEntries calloc dst books mds).books[k]? ≠ books[k]?) :
    ∃ done md, ComesTo calloc dst books mds done md ∧
      EntryReaches calloc (applyEntries calloc dst books done).books dst md k := by
  induction mds generalizing books with
  | nil => exact absurd rfl changed
  | cons md mds ih =>
    by_cases here : (applyEntries calloc dst books [md]).books[k]? = books[k]?
    · cases ok : (applyEntries calloc dst books [md]).ok with
      | false =>
        rw [apply_entries_cons] at changed
        simp only [ok, if_pos] at changed
        exact absurd here changed
      | true =>
        obtain ⟨_, left⟩ := apply_entries_behind calloc ok mds
        rw [left, ← here] at changed
        obtain ⟨done, md', ⟨⟨rest, rfl⟩, done_ok⟩, reaches⟩ := ih _ changed
        obtain ⟨ok', left'⟩ := apply_entries_behind calloc ok done
        refine ⟨md :: done, md', ⟨⟨rest, rfl⟩, ok'.trans done_ok⟩, ?_⟩
        rw [left']
        exact reaches
    · exact ⟨[], md, ⟨⟨mds, rfl⟩, rfl⟩, .inr here⟩

/-! ## Messages -/

/-- The entries a message has. -/
def MdMessage.entries (msg : MdMessage) : List MdEntry :=
  match msg.mdEntries.get with
  | none => []
  | some seq =>
    match seq.length.get with
    | none => []
    | some n => seq.elements.take n.toNat

theorem apply_increment_entries (books : List FastBook) (dst : Option FastBook) (msg : MdMessage) :
    (applyIncrement calloc books dst msg).books = (applyEntries calloc dst books msg.entries).books := by
  rw [applyIncrement, MdMessage.entries]
  cases msg.mdEntries.get with
  | none => rfl
  | some seq =>
    simp only
    cases seq.length.get <;> rfl

/-- The book that `apply_snapshot` writes to, if it comes that far, and the number it gives it. -/
def snapshotTarget (books : List FastBook) (dst : Option FastBook) (msg : MdMessage) : Option (Nat × FastBook × U64) :=
  match route books dst (fun b => !b.active && b.join) msg.securityId msg.symbol with
  | .fail => none
  | .skip => none
  | .book i b =>
    match msg.mdEntries.get with
    | none => none
    | some seq =>
      match seq.length.get with
      | none => none
      | some n =>
        if n = 0 then none
        else
          match inSession b seq.running.tradingSessionId with
          | some true => msg.rptSeq.get.map fun rptSeq => (i, b, rptSeq)
          | _ => none

/-- A snapshot changes the book it is for, and nothing else. -/
theorem apply_snapshot_target (books : List FastBook) (dst : Option FastBook) (msg : MdMessage) :
    (applySnapshot calloc books dst msg).2 =
      match snapshotTarget books dst msg with
      | none => books
      | some (i, b, rptSeq) => books.set i (snapshotBook calloc b rptSeq msg.entries).2 := by
  rw [applySnapshot, snapshotTarget, MdMessage.entries]
  cases route books dst (fun b => !b.active && b.join) msg.securityId msg.symbol with
  | fail => rfl
  | skip => rfl
  | book i b =>
    simp only
    cases msg.mdEntries.get with
    | none => rfl
    | some seq =>
      simp only
      cases seq.length.get with
      | none => rfl
      | some n =>
        simp only
        split
        · rfl
        · cases inSession b seq.running.tradingSessionId with
          | none => rfl
          | some here =>
            cases here with
            | false => rfl
            | true => cases msg.rptSeq.get <;> rfl

/-- The names of a snapshot lead to a book; it has entries, and a number. -/
def SnapshotTaken (books : List FastBook) (dst : Option FastBook) (msg : MdMessage) (k : Nat) (b : FastBook)
    (rptSeq : U64) : Prop :=
  ∃ seq n, msg.mdEntries.get = some seq ∧ seq.length.get = some n ∧ n ≠ 0 ∧
    LeadsTo books dst (fun b => !b.active && b.join) msg.symbol seq.running.tradingSessionId k b ∧
    msg.rptSeq.get = some rptSeq

theorem snapshot_target_iff {books : List FastBook} {dst : Option FastBook} {msg : MdMessage} {k : Nat} {b : FastBook}
    {rptSeq : U64} (byName : msg.securityId = .missing) :
    snapshotTarget books dst msg = some (k, b, rptSeq) ↔ SnapshotTaken books dst msg k b rptSeq := by
  rw [snapshotTarget, SnapshotTaken, byName]
  simp only [leads_to_iff]
  constructor
  · intro target
    split at target
    · cases target
    · cases target
    · rename_i i c routed
      split at target
      · cases target
      · rename_i seq entries
        split at target
        · cases target
        · rename_i n length
          split at target
          · cases target
          · rename_i some'
            split at target
            · rename_i session
              obtain ⟨m, number, same⟩ := Option.map_eq_some_iff.1 target
              cases same
              exact ⟨seq, n, entries, length, some', ⟨routed, session⟩, number⟩
            · cases target
  · rintro ⟨seq, n, entries, length, some', ⟨routed, session⟩, number⟩
    simp only [routed, entries, length, if_neg some', session, number, Option.map_some]

/-- A snapshot is written to the book `k`, or changes it. -/
def SnapshotReaches (books : List FastBook) (dst : Option FastBook) (msg : MdMessage) (k : Nat) : Prop :=
  (∃ b rptSeq, snapshotTarget books dst msg = some (k, b, rptSeq)) ∨
    (applySnapshot calloc books dst msg).2[k]? ≠ books[k]?

theorem snapshot_reaches_iff {books : List FastBook} {dst : Option FastBook} {msg : MdMessage} {k : Nat} :
    SnapshotReaches calloc books dst msg k ↔ ∃ b rptSeq, snapshotTarget books dst msg = some (k, b, rptSeq) := by
  refine ⟨fun reached => ?_, .inl⟩
  rcases reached with target | changed
  · exact target
  · rw [apply_snapshot_target] at changed
    split at changed
    · exact absurd rfl changed
    · rename_i i b rptSeq target
      by_cases same : i = k
      · exact ⟨b, rptSeq, same ▸ target⟩
      · exact absurd (List.getElem?_set_ne same) changed

/-- The loop of a snapshot comes to an entry. -/
structure SnapshotComesTo (b : FastBook) (rptSeq : U64) (mds done : List MdEntry) (md : MdEntry) : Prop where
  entries : ∃ rest, mds = done ++ md :: rest
  ok : (snapshotEntries calloc { b with snpseq := rptSeq, empty := false } done).1 = true

/-- The entries of an increment reach books of their names only. -/
def IncrementReachesNamed (books : List FastBook) (dst : Option FastBook) (msg : MdMessage) : Prop :=
  ∀ done md, ComesTo calloc dst books msg.entries done md →
    ∀ k b, books[k]? = some b → EntryReaches calloc (applyEntries calloc dst books done).books dst md k →
      b.NamedBy md.symbol ∧ b.InSession md.tradingSessionId

/-- A snapshot reaches the book of its symbol only, with entries of the session of that book. -/
def SnapshotReachesNamed (books : List FastBook) (dst : Option FastBook) (msg : MdMessage) : Prop :=
  ∀ k b, books[k]? = some b → SnapshotReaches calloc books dst msg k →
    b.NamedBy msg.symbol ∧ ∀ rptSeq done md, msg.rptSeq.get = some rptSeq →
      SnapshotComesTo calloc b rptSeq msg.entries done md → b.InSession md.tradingSessionId

theorem increment_named_iff {books : List FastBook} {dst : Option FastBook} {msg : MdMessage}
    (byName : ∀ md ∈ msg.entries, md.securityId = .missing) :
    IncrementReachesNamed calloc books dst msg ↔
      ∀ done md, ComesTo calloc dst books msg.entries done md →
        ∀ k b rptSeq, EntryTaken (applyEntries calloc dst books done).books dst md k b rptSeq →
          b.NamedBy md.symbol ∧ b.InSession md.tradingSessionId := by
  have missing : ∀ {done md}, ComesTo calloc dst books msg.entries done md → md.securityId = .missing := by
    rintro done md ⟨⟨rest, same⟩, -⟩
    exact byName md (same ▸ List.mem_append_right _ List.mem_cons_self)
  constructor
  · intro named done md comes k b' rptSeq taken
    obtain ⟨b, at', same⟩ := apply_entries_names calloc dst books done k b' taken.1.here
    have reaches := (entry_reaches_iff calloc (missing comes)).2 ⟨b', rptSeq, taken⟩
    obtain ⟨symbol, session⟩ := named done md comes k b at' reaches
    exact ⟨same.named_by.2 symbol, same.in_session.2 session⟩
  · intro named done md comes k b at' reaches
    obtain ⟨b', rptSeq, taken⟩ := (entry_reaches_iff calloc (missing comes)).1 reaches
    obtain ⟨c, at'', same⟩ := apply_entries_names calloc dst books done k b' taken.1.here
    rw [at'] at at''
    cases at''
    obtain ⟨symbol, session⟩ := named done md comes k b' rptSeq taken
    exact ⟨same.named_by.1 symbol, same.in_session.1 session⟩

theorem snapshot_named_iff {books : List FastBook} {dst : Option FastBook} {msg : MdMessage}
    (byName : msg.securityId = .missing) :
    SnapshotReachesNamed calloc books dst msg ↔
      ∀ k b rptSeq, SnapshotTaken books dst msg k b rptSeq → b.NamedBy msg.symbol ∧
        ∀ done md, SnapshotComesTo calloc b rptSeq msg.entries done md → b.InSession md.tradingSessionId := by
  constructor
  · intro named k b rptSeq taken
    have target := (snapshot_target_iff byName).2 taken
    obtain ⟨_, _, -, -, -, leads, number⟩ := taken
    obtain ⟨symbol, sessions⟩ := named k b leads.here ((snapshot_reaches_iff calloc).2 ⟨b, rptSeq, target⟩)
    exact ⟨symbol, fun done md comes => sessions rptSeq done md number comes⟩
  · intro named k b at' reaches
    obtain ⟨c, n, target⟩ := (snapshot_reaches_iff calloc).1 reaches
    have taken := (snapshot_target_iff byName).1 target
    obtain ⟨symbol, sessions⟩ := named k c n taken
    obtain ⟨_, _, -, -, -, leads, number⟩ := taken
    obtain rfl : b = c := Option.some.inj (at'.symm.trans leads.here)
    refine ⟨symbol, fun rptSeq done md number' comes => ?_⟩
    obtain rfl : n = rptSeq := Option.some.inj (number.symm.trans number')
    exact sessions done md comes

/-- **What reaches a book.** Messages that come without a `SecurityID` change a book only at an entry that
is routed to it. They reach the books of their names only, if and only if every book that the names lead to,
the first whose symbol is the beginning of the `Symbol`, is the one they name. -/
theorem reaches_named_iff (books : List FastBook) (dst : Option FastBook) (msg : MdMessage) :
    ((∀ md ∈ msg.entries, md.securityId = .missing) →
      (∀ k, (applyIncrement calloc books dst msg).books[k]? ≠ books[k]? →
        ∃ done md, ComesTo calloc dst books msg.entries done md ∧
          EntryReaches calloc (applyEntries calloc dst books done).books dst md k) ∧
      (IncrementReachesNamed calloc books dst msg ↔
        ∀ done md, ComesTo calloc dst books msg.entries done md →
          ∀ k b rptSeq, EntryTaken (applyEntries calloc dst books done).books dst md k b rptSeq →
            b.NamedBy md.symbol ∧ b.InSession md.tradingSessionId)) ∧
    (msg.securityId = .missing →
      (SnapshotReachesNamed calloc books dst msg ↔
        ∀ k b rptSeq, SnapshotTaken books dst msg k b rptSeq → b.NamedBy msg.symbol ∧
          ∀ done md, SnapshotComesTo calloc b rptSeq msg.entries done md → b.InSession md.tradingSessionId)) := by
  refine ⟨fun byName => ⟨fun k changed => ?_, increment_named_iff calloc byName⟩, snapshot_named_iff calloc⟩
  rw [apply_increment_entries] at changed
  exact changed_at_entry calloc dst books msg.entries k changed

end

/-! ## Two symbols -/

/-- A bid by symbol. -/
def bidFor (symbol : String) (rptSeq : U64) : MdEntry :=
  { bidEntry 0 rptSeq with
    securityId := .missing
    symbol := .value (Fix.chars symbol ++ [0]) }

/-- Two books, and a bid for the second one in front of a bid for the first. -/
def namedBooks : List FastBook := [subscribedBook 1 "AB", subscribedBook 2 "CD"]

def namedBids : MdMessage := refreshOf 1 [bidFor "CD" 5, bidFor "AB" 6]

/-- Each bid reaches its book only, and is counted there. -/
theorem bid_reaches_only_book :
    IncrementReachesNamed (fun ob => if ob.live 0 then some 1 else some 0) namedBooks none namedBids ∧
      (applyIncrement (fun ob => if ob.live 0 then some 1 else some 0) namedBooks none namedBids).books.map (·.rptseq) = [6, 5] := by
  refine ⟨((reaches_named_iff _ namedBooks none namedBids).1 ?_).2.2 ?_, by decide +kernel⟩
  · exact List.forall_mem_cons.2 ⟨rfl, List.forall_mem_singleton.2 rfl⟩
  · rintro done md ⟨⟨rest, same⟩, -⟩ k b' rptSeq ⟨leads, -⟩
    obtain ⟨b, here, names⟩ := apply_entries_names _ _ _ done k b' leads.here
    obtain ⟨v, symbol, begins, -⟩ := leads.first
    rw [names.named_by, names.in_session]
    rw [names.symbol] at begins
    have session (b : FastBook) {md : MdEntry} (missing : md.tradingSessionId = .missing) : b.InSession md.tradingSessionId :=
      fun v is => by rw [missing] at is; cases is
    have mem : md ∈ [bidFor "CD" 5, bidFor "AB" 6] := by
      have entries : [bidFor "CD" 5, bidFor "AB" 6] = done ++ md :: rest := same
      rw [entries]
      exact List.mem_append_right _ List.mem_cons_self
    have books : b = subscribedBook 1 "AB" ∨ b = subscribedBook 2 "CD" := by
      have mem := List.mem_of_getElem? here
      rcases List.mem_cons.1 mem with first | second
      · exact .inl first
      · exact .inr (List.mem_singleton.1 second)
    rcases List.mem_cons.1 mem with rfl | last
    · cases symbol
      rcases books with rfl | rfl
      · exact absurd begins (by decide)
      · exact ⟨⟨_, rfl, by decide⟩, session _ rfl⟩
    · obtain rfl := List.mem_singleton.1 last
      cases symbol
      rcases books with rfl | rfl
      · exact ⟨⟨_, rfl, by decide⟩, session _ rfl⟩
      · exact absurd begins (by decide)

/-- **The beginning of a symbol.** The bid is for the second book. It is counted in the first one, of which
the symbol is the beginning of its own, and becomes a level there. -/
theorem bid_reaches_prefix :
    ([subscribedBook 1 "AB", subscribedBook 2 "ABC"].Pairwise fun b c => b.symbol ≠ c.symbol) ∧
      (applyIncrement (fun _ => some 0) [subscribedBook 1 "AB", subscribedBook 2 "ABC"] none
        (refreshOf 1 [bidFor "ABC" 5])).books.map (·.rptseq) = [5, 0] ∧
      ¬IncrementReachesNamed (fun _ => some 0) [subscribedBook 1 "AB", subscribedBook 2 "ABC"] none
        (refreshOf 1 [bidFor "ABC" 5]) := by
  refine ⟨by decide, by decide +kernel, fun named => ?_⟩
  obtain ⟨⟨v, symbol, same⟩, -⟩ := named [] (bidFor "ABC" 5) ⟨⟨[], rfl⟩, rfl⟩ 0 _ rfl (.inl (by decide +kernel))
  cases symbol
  exact absurd same (by decide)

end Libtrading.Book
