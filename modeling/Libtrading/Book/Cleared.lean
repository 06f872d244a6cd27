import Libtrading.Book.Recover

/-!
# What recovery feeds

A book takes entries while it is active or being joined. Applying messages
marks no book that was not marked before, so the marks at the start of a retry
decide what is fed: with a mark left on no book but the first one to be joined
again, every entry is for a book that the retry has cleared. The failing exit
of a join leaves its mark.
-/

namespace Libtrading.Book
set_option autoImplicit false
open Fast

/-- A book that takes entries. -/
def FastBook.Marked (b : FastBook) : Prop := b.active = true ∨ b.join = true

/-- The flags of a book after it was worked on: active only if it was marked before. -/
structure FastBook.Keeps (b b' : FastBook) : Prop where
  subscribed : b'.subscribed = b.subscribed
  join : b'.join = b.join
  active : b'.active = true → b.Marked

namespace FastBook.Keeps

theorem refl (b : FastBook) : b.Keeps b := ⟨rfl, rfl, .inl⟩

theorem marked {b b' : FastBook} (h : b.Keeps b') (m : b'.Marked) : b.Marked := by
  rcases m with active | join
  · exact h.active active
  · exact .inr (h.join ▸ join)

theorem trans {a b c : FastBook} (h : a.Keeps b) (h' : b.Keeps c) : a.Keeps c :=
  ⟨h'.subscribed.trans h.subscribed, h'.join.trans h.join, fun active => h.marked (h'.active active)⟩

/-- Work that leaves the flags alone. -/
theorem of_flags {b b' : FastBook} (subscribed : b'.subscribed = b.subscribed) (active : b'.active = b.active)
    (join : b'.join = b.join) : b.Keeps b' := ⟨subscribed, join, fun h => .inl (active ▸ h)⟩

end FastBook.Keeps

/-- The books after some of them were worked on. -/
def KeepBooks (books books' : List FastBook) : Prop :=
  books'.length = books.length ∧
    ∀ (k : Nat) (b' : FastBook), books'[k]? = some b' → ∃ b, books[k]? = some b ∧ b.Keeps b'

namespace KeepBooks

theorem refl (books : List FastBook) : KeepBooks books books := ⟨rfl, fun _ b h => ⟨b, h, .refl b⟩⟩

theorem trans {as bs cs : List FastBook} (h : KeepBooks as bs) (h' : KeepBooks bs cs) : KeepBooks as cs := by
  refine ⟨h'.1.trans h.1, fun k c hc => ?_⟩
  obtain ⟨b, hb, keeps'⟩ := h'.2 k c hc
  obtain ⟨a, ha, keeps⟩ := h.2 k b hb
  exact ⟨a, ha, keeps.trans keeps'⟩

theorem set {books : List FastBook} {i : Nat} {b b' : FastBook} (at' : books[i]? = some b) (h : b.Keeps b') :
    KeepBooks books (books.set i b') := by
  refine ⟨List.length_set, fun k c hc => ?_⟩
  rw [List.getElem?_set] at hc
  split at hc
  · rename_i same
    subst same
    split at hc
    · cases hc
      exact ⟨b, at', h⟩
    · cases hc
  · exact ⟨c, hc, .refl c⟩

end KeepBooks

/-! ## Applying messages -/

theorem modify_flags (calloc : OrderBook → Option Addr) (b : FastBook) (order : ObOrder) :
    b.Keeps (b.modify calloc order).2 := .of_flags rfl rfl rfl

theorem delete_flags (b : FastBook) (order : ObOrder) : b.Keeps (b.delete order).2 := .of_flags rfl rfl rfl

section
variable (calloc : OrderBook → Option Addr)

theorem md_increment_keeps (b : FastBook) (md : MdEntry) : b.Keeps (mdIncrement calloc b md).2 := by
  rw [mdIncrement]
  split
  · exact .refl b
  · exact .of_flags rfl rfl rfl
  · split
    · exact .refl b
    · split
      · exact modify_flags calloc b _
      · split
        · split
          · exact delete_flags b _
          · exact modify_flags calloc b _
        · exact .refl b

theorem count_entry_keeps (b : FastBook) (rptSeq : U64) (md : MdEntry) : b.Keeps (countEntry calloc b rptSeq md).2 := by
  have first : b.Keeps (if b.rptseq = 0 then { b with rptseq := rptSeq - 1 } else b) := by
    split
    · exact .of_flags rfl rfl rfl
    · exact .refl b
  unfold countEntry
  generalize (if b.rptseq = 0 then { b with rptseq := rptSeq - 1 } else b) = c at first
  simp only
  split
  · exact first.trans (.of_flags rfl rfl rfl)
  · have counted : c.Keeps { c with rptseq := c.rptseq + 1, empty := false } := .of_flags rfl rfl rfl
    exact first.trans (counted.trans (md_increment_keeps calloc _ md))

/-- A book chosen by its index takes the message. -/
theorem chosen_book {books : List FastBook} {dst : Option FastBook} {takes : FastBook → Bool} {i : Nat} {b : FastBook}
    (same : FastBook → FastBook → Bool) (j : Option Nat)
    (h : (match j with
      | none => Route.skip
      | some j =>
        match books[j]? with
        | none => .skip
        | some c => if takes c = false then .skip else if (dst.all fun d => same d c) = false then .skip else .book j c) =
      .book i b) : books[i]? = some b ∧ takes b = true := by
  cases j with
  | none => cases h
  | some j =>
    simp only at h
    cases hj : books[j]? with
    | none => rw [hj] at h; cases h
    | some c =>
      rw [hj] at h
      simp only at h
      split at h
      · cases h
      · rename_i takes'
        split at h
        · cases h
        · cases h
          exact ⟨hj, Bool.not_eq_false _ ▸ takes'⟩

/-- A route leads to a book of the set that takes the message. -/
theorem route_book {books : List FastBook} {dst : Option FastBook} {takes : FastBook → Bool} {securityId : FieldRead U64}
    {symbol : FieldRead Bytes} {i : Nat} {b : FastBook} (h : route books dst takes securityId symbol = .book i b) :
    books[i]? = some b ∧ takes b = true := by
  unfold route at h
  cases securityId with
  | empty => cases h
  | value id => exact chosen_book _ _ h
  | missing =>
    simp only at h
    split at h
    · cases h
    · exact chosen_book _ _ h

/-- What an increment leaves, and that it fed books that take entries. -/
theorem apply_entries_keep (dst : Option FastBook) (books : List FastBook) (mds : List MdEntry) :
    KeepBooks books (applyEntries calloc dst books mds).books ∧
      ∀ k ∈ (applyEntries calloc dst books mds).fed, ∃ b, books[k]? = some b ∧ b.Marked := by
  induction mds generalizing books with
  | nil => exact ⟨.refl books, fun _ h => absurd h List.not_mem_nil⟩
  | cons md mds ih =>
    have none : KeepBooks books books ∧ ∀ k ∈ ([] : List Nat), ∃ b, books[k]? = some b ∧ b.Marked :=
      ⟨.refl books, fun _ h => absurd h List.not_mem_nil⟩
    rw [applyEntries]
    cases hr : route books dst (fun b => b.active || b.join) md.securityId md.symbol with
    | fail => exact none
    | skip => exact ih books
    | book i b =>
      obtain ⟨at', takes⟩ := route_book hr
      have marked : b.Marked := Bool.or_eq_true_iff.1 takes
      simp only
      cases inSession b md.tradingSessionId with
      | none => exact none
      | some here =>
        cases here with
        | false => exact ih books
        | true =>
          cases md.rptSeq.get with
          | none => exact none
          | some rptSeq =>
            have keeps := KeepBooks.set at' (count_entry_keeps calloc b rptSeq md)
            simp only
            split
            · refine ⟨keeps, fun k hk => ?_⟩
              rw [List.mem_singleton.1 hk]
              exact ⟨b, at', marked⟩
            · obtain ⟨rest, fed⟩ := ih (books.set i (countEntry calloc b rptSeq md).2)
              refine ⟨keeps.trans rest, fun k hk => ?_⟩
              rcases List.mem_cons.1 hk with rfl | hk
              · exact ⟨b, at', marked⟩
              · obtain ⟨c, hc, marked'⟩ := fed k hk
                obtain ⟨a, ha, keeps'⟩ := keeps.2 k c hc
                exact ⟨a, ha, keeps'.marked marked'⟩

theorem apply_increment_keeps (books : List FastBook) (dst : Option FastBook) (msg : MdMessage) :
    KeepBooks books (applyIncrement calloc books dst msg).books ∧
      ∀ k ∈ (applyIncrement calloc books dst msg).fed, ∃ b, books[k]? = some b ∧ b.Marked := by
  rw [applyIncrement]
  split
  · exact ⟨.refl books, fun _ h => absurd h List.not_mem_nil⟩
  · split
    · exact ⟨.refl books, fun _ h => absurd h List.not_mem_nil⟩
    · exact apply_entries_keep calloc dst books _

theorem md_snapshot_flags (b : FastBook) (md : MdEntry) :
    (mdSnapshot calloc b md).2.subscribed = b.subscribed ∧ (mdSnapshot calloc b md).2.join = b.join := by
  rw [mdSnapshot]
  split
  · exact ⟨rfl, rfl⟩
  · exact ⟨rfl, rfl⟩
  · split
    · exact ⟨rfl, rfl⟩
    · split <;> exact ⟨rfl, rfl⟩

theorem snapshot_entries_flags (b : FastBook) (mds : List MdEntry) :
    (snapshotEntries calloc b mds).2.subscribed = b.subscribed ∧ (snapshotEntries calloc b mds).2.join = b.join := by
  induction mds generalizing b with
  | nil => exact ⟨rfl, rfl⟩
  | cons md mds ih =>
    have first := md_snapshot_flags calloc b md
    rw [snapshotEntries]
    split
    · exact first
    · exact ⟨(ih _).1.trans first.1, (ih _).2.trans first.2⟩

/-- A snapshot makes active only a book that is being joined. -/
theorem snapshot_book_keeps {b : FastBook} (join : b.join = true) (rptSeq : U64) (mds : List MdEntry) :
    b.Keeps (snapshotBook calloc b rptSeq mds).2 := by
  have flags := snapshot_entries_flags calloc { b with snpseq := rptSeq, empty := false } mds
  rw [snapshotBook]
  simp only
  split
  · exact ⟨flags.1, flags.2, fun _ => .inr join⟩
  · split <;> exact ⟨flags.1, flags.2, fun _ => .inr join⟩

theorem apply_snapshot_keeps (books : List FastBook) (dst : Option FastBook) (msg : MdMessage) :
    KeepBooks books (applySnapshot calloc books dst msg).2 := by
  rw [applySnapshot]
  cases hr : route books dst (fun b => !b.active && b.join) msg.securityId msg.symbol with
  | fail => exact .refl books
  | skip => exact .refl books
  | book i b =>
    obtain ⟨at', takes⟩ := route_book hr
    have join : b.join = true := (Bool.and_eq_true_iff.1 takes).2
    simp only
    split
    · exact .refl books
    · split
      · exact .refl books
      · split
        · exact .refl books
        · split
          · exact .refl books
          · exact .refl books
          · split
            · exact .refl books
            · exact .set at' (snapshot_book_keeps calloc join _ _)

/-! ## The join -/

theorem join_increment_keeps (s : JoinState) (next : NextIncrement) :
    KeepBooks s.set.books (joinIncrement calloc s next).2.1.set.books ∧
      ∀ k ∈ (joinIncrement calloc s next).2.2, ∃ b, s.set.books[k]? = some b ∧ b.Marked := by
  have nothing : ∀ k ∈ ([] : List Nat), ∃ b, s.set.books[k]? = some b ∧ b.Marked :=
    fun _ h => absurd h List.not_mem_nil
  unfold joinIncrement
  simp only
  by_cases failed : next.ok = false
  · simp only [if_pos failed]
    exact ⟨.refl _, nothing⟩
  · simp only [if_neg failed]
    cases next.next with
    | none => exact ⟨.refl _, nothing⟩
    | some msg =>
      have applied := apply_increment_keeps calloc s.set.books none msg
      by_cases failed : (applyIncrement calloc s.set.books none msg).ok = false
      · simp only [if_pos failed]
        exact applied
      · simp only [if_neg failed]
        cases msg.msgSeqNum.get <;> exact applied

theorem join_snapshot_keeps (k : Nat) (s : JoinState) (msg : MdMessage) :
    KeepBooks s.set.books (joinSnapshot calloc k s msg).2.set.books := by
  unfold joinSnapshot
  cases s.set.books[k]? with
  | none => exact .refl _
  | some book =>
    have applied := apply_snapshot_keeps calloc s.set.books (some book) msg
    simp only
    cases snapshotFor s.set.books book msg with
    | none => exact .refl _
    | some yes =>
      cases yes with
      | false => exact .refl _
      | true =>
        cases msg.lastMsgSeqNumProcessed.get with
        | none => exact .refl _
        | some last =>
          simp only
          repeat (split; exact .refl _)
          split <;> exact applied

theorem poll_snapshots_books (t : Turn) (s : JoinState) : (pollSnapshots t s).2.set.books = s.set.books := by
  unfold pollSnapshots
  split <;> rfl

/-- A turn of a join feeds books that take entries, and marks none. -/
theorem join_turn_keeps (k : Nat) (t : Turn) (s : JoinState) :
    KeepBooks s.set.books (joinTurn calloc k t s).2.1.set.books ∧
      ∀ i ∈ (joinTurn calloc k t s).2.2, ∃ b, s.set.books[i]? = some b ∧ b.Marked := by
  have first := join_increment_keeps calloc s (s.set.feeds.nextIncrement t.incArrived)
  unfold joinTurn
  simp only
  generalize joinIncrement calloc s (s.set.feeds.nextIncrement t.incArrived) = r at first
  have polled : KeepBooks s.set.books (pollSnapshots t r.2.1).2.set.books :=
    (poll_snapshots_books t r.2.1).symm ▸ first.1
  split
  · exact first
  · split
    · exact ⟨polled, first.2⟩
    · split
      · exact ⟨polled, first.2⟩
      · exact ⟨polled.trans (join_snapshot_keeps calloc k _ _), first.2⟩

/-- The loop of a join feeds books that take entries, and marks none. -/
theorem join_loop_keeps (k : Nat) (ts : List Turn) (s : JoinState) :
    KeepBooks s.set.books (joinLoop calloc k ts s).2.1.set.books ∧
      ∀ i ∈ (joinLoop calloc k ts s).2.2, ∃ b, s.set.books[i]? = some b ∧ b.Marked := by
  have nothing : KeepBooks s.set.books s.set.books ∧ ∀ i ∈ ([] : List Nat), ∃ b, s.set.books[i]? = some b ∧ b.Marked :=
    ⟨.refl _, fun _ h => absurd h List.not_mem_nil⟩
  induction ts generalizing s with
  | nil =>
    unfold joinLoop
    split <;> exact nothing
  | cons t ts ih =>
    have turn := join_turn_keeps calloc k t s
    unfold joinLoop
    split
    · exact nothing
    · simp only
      split
      · rename_i s' fed hr
        rw [hr] at turn
        exact turn
      · rename_i s' fed hr
        rw [hr] at turn
        obtain ⟨rest, later⟩ := ih s' ⟨.refl _, fun _ h => absurd h List.not_mem_nil⟩
        refine ⟨turn.1.trans rest, fun i hi => ?_⟩
        rcases List.mem_append.1 hi with hi | hi
        · exact turn.2 i hi
        · obtain ⟨c, hc, marked⟩ := later i hi
          obtain ⟨b, hb, keeps⟩ := turn.1.2 i c hc
          exact ⟨b, hb, keeps.marked marked⟩

/-- Work on the book `k`, and on others that keep their flags. -/
def KeepOthers (k : Nat) (books books' : List FastBook) : Prop :=
  books'.length = books.length ∧
    ∀ (i : Nat) (b' : FastBook), books'[i]? = some b' →
      ∃ b, books[i]? = some b ∧ b'.subscribed = b.subscribed ∧ (i ≠ k → b.Keeps b')

theorem KeepBooks.others {books books' : List FastBook} (h : KeepBooks books books') (k : Nat) :
    KeepOthers k books books' := by
  refine ⟨h.1, fun i b' hb' => ?_⟩
  obtain ⟨b, hb, keeps⟩ := h.2 i b' hb'
  exact ⟨b, hb, keeps.subscribed, fun _ => keeps⟩

namespace KeepOthers

theorem trans {k : Nat} {as bs cs : List FastBook} (h : KeepOthers k as bs) (h' : KeepOthers k bs cs) :
    KeepOthers k as cs := by
  refine ⟨h'.1.trans h.1, fun i c hc => ?_⟩
  obtain ⟨b, hb, subscribed', keeps'⟩ := h'.2 i c hc
  obtain ⟨a, ha, subscribed, keeps⟩ := h.2 i b hb
  exact ⟨a, ha, subscribed'.trans subscribed, fun other => (keeps other).trans (keeps' other)⟩

theorem modify (books : List FastBook) (k : Nat) {f : FastBook → FastBook}
    (h : ∀ b, books[k]? = some b → (f b).subscribed = b.subscribed) : KeepOthers k books (books.modify k f) := by
  refine ⟨List.length_modify .., fun i b' hb' => ?_⟩
  rw [List.getElem?_modify] at hb'
  obtain ⟨b, hb, rfl⟩ := Option.map_eq_some_iff.1 hb'
  refine ⟨b, hb, ?_, fun other => ?_⟩
  · split
    · rename_i same
      exact h b (same ▸ hb)
    · rfl
  · rw [if_neg (Ne.symm other)]
    exact .refl b

/-- The subscriptions stay. -/
theorem subscribed {k : Nat} {books books' : List FastBook} (h : KeepOthers k books books') :
    books'.map (·.subscribed) = books.map (·.subscribed) := by
  refine List.ext_getElem? fun i => ?_
  rw [List.getElem?_map, List.getElem?_map]
  cases hb' : books'[i]? with
  | none =>
    have out : books.length ≤ i := h.1 ▸ List.getElem?_eq_none_iff.1 hb'
    rw [List.getElem?_eq_none_iff.2 out]
  | some b' =>
    obtain ⟨b, hb, same, _⟩ := h.2 i b' hb'
    rw [hb, Option.map_some, Option.map_some, same]

end KeepOthers

/-- What a join does to the books: it feeds the one it joins and those that took entries before, it marks
no other, and a join that is done leaves no mark of joining. -/
structure Joins (k : Nat) (books : List FastBook) (ended : Ended) (books' : List FastBook) (fed : List Nat) : Prop where
  keeps : KeepOthers k books books'
  fed : ∀ i ∈ fed, i = k ∨ ∃ b, books[i]? = some b ∧ b.Marked
  joined : ended = .done → books'[k]?.any (·.join) = false

theorem drop_empty_subscribed (b : FastBook) : b.dropEmpty.2.subscribed = b.subscribed := by
  unfold FastBook.dropEmpty
  simp only
  split <;> rfl

theorem fast_books_join_joins (set : FastBookSet) (k : Nat) (j : Joining) :
    Joins k set.books (fastBooksJoin calloc set k j).1 (fastBooksJoin calloc set k j).2.1.books
      (fastBooksJoin calloc set k j).2.2 := by
  unfold fastBooksJoin
  cases j.opened with
  | none =>
    exact ⟨(KeepBooks.refl _).others k, fun _ h => absurd h List.not_mem_nil, fun h => nomatch h⟩
  | some waiting =>
    simp only
    have opened : KeepOthers k set.books ((set.openSnapshots waiting).modifyBook k fun b =>
        { b with active := false, join := true }).books := KeepOthers.modify set.books k fun _ _ => rfl
    generalize (set.openSnapshots waiting).modifyBook k (fun b => { b with active := false, join := true }) = set'
      at opened
    have loop := join_loop_keeps calloc k j.turns ⟨set', none, false, 0, 0⟩
    have fed : ∀ i ∈ (joinLoop calloc k j.turns ⟨set', none, false, 0, 0⟩).2.2,
        i = k ∨ ∃ b, set.books[i]? = some b ∧ b.Marked := by
      intro i hi
      by_cases same : i = k
      · exact .inl same
      · obtain ⟨b', hb', marked⟩ := loop.2 i hi
        obtain ⟨b, hb, _, keeps⟩ := opened.2 i b' hb'
        exact .inr ⟨b, hb, (keeps same).marked marked⟩
    have keeps := opened.trans (loop.1.others k)
    split
    · rename_i s fed' hl
      rw [hl] at fed keeps
      exact ⟨keeps, fed, fun h => nomatch h⟩
    · rename_i s fed' hl
      rw [hl] at fed keeps
      exact ⟨keeps, fed, fun h => nomatch h⟩
    · rename_i s fed' hl
      rw [hl] at fed keeps
      cases hb : s.set.books[k]? with
      | none => exact ⟨keeps, fed, fun h => nomatch h⟩
      | some b =>
        have dropped : ∀ c, s.set.books[k]? = some c → b.dropEmpty.2.subscribed = c.subscribed := by
          intro c hc
          cases hb.symm.trans hc
          exact drop_empty_subscribed b
        simp only
        split
        · exact ⟨keeps.trans (.modify _ k dropped), fed, fun h => nomatch h⟩
        · refine ⟨keeps.trans (.modify _ k dropped), fed, fun _ => ?_⟩
          simp only [FastBookSet.modifyBook, List.getElem?_modify, if_pos, hb]
          rfl

end

/-! ## The retries -/

/-- Every entry of a run is fed to a book that was cleared since the latest retry; `cleared` are the books
cleared before the run. -/
inductive FedCleared : List Nat → List Event → Prop
  | nil {cleared} : FedCleared cleared []
  | retry {cleared events} (rest : FedCleared [] events) : FedCleared cleared (.retry :: events)
  | clears {cleared k events} (rest : FedCleared (k :: cleared) events) : FedCleared cleared (.clears k :: events)
  | feeds {cleared k events} (before : k ∈ cleared) (rest : FedCleared cleared events) :
    FedCleared cleared (.feeds k :: events)
  | abandons {cleared k events} (rest : FedCleared cleared events) : FedCleared cleared (.abandons k :: events)

theorem fed_cleared_feeds {cleared fed : List Nat} {events : List Event} (h : ∀ k ∈ fed, k ∈ cleared)
    (rest : FedCleared cleared events) : FedCleared cleared (fed.map .feeds ++ events) := by
  induction fed with
  | nil => exact rest
  | cons k fed ih => exact .feeds (h k List.mem_cons_self) (ih fun i hi => h i (List.mem_cons_of_mem k hi))

theorem fed_cleared_append {cleared : List Nat} {events events' : List Event} (h : FedCleared cleared events)
    (rest : ∀ cleared, FedCleared cleared events') : FedCleared cleared (events ++ events') := by
  induction h with
  | nil => exact rest _
  | retry _ ih => exact .retry ih
  | clears _ ih => exact .clears ih
  | feeds before _ ih => exact .feeds before ih
  | abandons _ ih => exact .abandons ih

/-- The book that `fast_books_recover` joins first. -/
def FirstSubscribed (books : List FastBook) (k : Nat) : Prop := books.findIdx? (·.subscribed) = some k

theorem first_subscribed_iff {books books' : List FastBook}
    (h : books'.map (·.subscribed) = books.map (·.subscribed)) (k : Nat) :
    FirstSubscribed books' k ↔ FirstSubscribed books k := by
  have find : ∀ l : List FastBook, l.findIdx? (·.subscribed) = (l.map (·.subscribed)).findIdx? id := by
    intro l
    rw [List.findIdx?_map]
    rfl
  rw [FirstSubscribed, FirstSubscribed, find, find, h]

/-- No book but the one that is joined first carries the mark of a join. -/
def JoinsFirst (books : List FastBook) : Prop :=
  ∀ (k : Nat) (b : FastBook), books[k]? = some b → b.join = true → FirstSubscribed books k

/-- The books that take entries were cleared, or the first one to be joined, which is still to come. -/
def Prepared (books : List FastBook) (ks cleared : List Nat) : Prop :=
  ∀ (i : Nat) (b : FastBook), books[i]? = some b → b.Marked → i ∈ cleared ∨ (i ∈ ks ∧ FirstSubscribed books i)

theorem first_is_subscribed {books : List FastBook} {k : Nat} (h : FirstSubscribed books k) :
    books[k]?.any (·.subscribed) = true := by
  obtain ⟨lt, yes, _⟩ := List.findIdx?_eq_some_iff_getElem.1 h
  rw [List.getElem?_eq_getElem lt, Option.any_some]
  exact yes

theorem first_is_first {books : List FastBook} {i k : Nat} (h : FirstSubscribed books i)
    (sub : books[k]?.any (·.subscribed) = true) : i ≤ k := by
  obtain ⟨lt, _, before⟩ := List.findIdx?_eq_some_iff_getElem.1 h
  by_contra out
  have lt' : k < i := by omega
  rw [List.getElem?_eq_getElem (Nat.lt_trans lt' lt), Option.any_some] at sub
  exact before k lt' sub

theorem prepared_skip {books : List FastBook} {k : Nat} {ks cleared : List Nat} (h : Prepared books (k :: ks) cleared)
    (sub : books[k]?.any (·.subscribed) = false) : Prepared books ks cleared := by
  intro i b hb marked
  rcases h i b hb marked with done | ⟨mem, first⟩
  · exact .inl done
  · rcases List.mem_cons.1 mem with rfl | mem
    · rw [first_is_subscribed first] at sub
      cases sub
    · exact .inr ⟨mem, first⟩

/-- Once the first book is cleared, every book that takes entries is. -/
theorem prepared_clear {books : List FastBook} {k : Nat} {ks cleared : List Nat} (h : Prepared books (k :: ks) cleared)
    (sub : books[k]?.any (·.subscribed) = true) (order : (k :: ks).Pairwise (· < ·)) {i : Nat} {b : FastBook}
    (hb : books[i]? = some b) (marked : b.Marked) : i ∈ k :: cleared := by
  rcases h i b hb marked with done | ⟨mem, first⟩
  · exact List.mem_cons_of_mem k done
  · rcases List.mem_cons.1 mem with rfl | mem
    · exact List.mem_cons_self
    · have after : k < i := List.rel_of_pairwise_cons order mem
      have upto : i ≤ k := first_is_first first sub
      omega

theorem KeepBooks.first {books books' : List FastBook} (h : KeepBooks books books') (first : JoinsFirst books) :
    JoinsFirst books' := by
  intro k b' hb' join
  obtain ⟨b, hb, keeps⟩ := h.2 k b' hb'
  exact (first_subscribed_iff (h.others k).subscribed k).2 (first k b hb (keeps.join ▸ join))

/-- A join whose mark is cleared, or that of the first book. -/
theorem Joins.first {k : Nat} {books books' : List FastBook} {ended : Ended} {fed : List Nat}
    (h : Joins k books ended books' fed) (first : JoinsFirst books)
    (left : books'[k]?.any (·.join) = true → FirstSubscribed books k) : JoinsFirst books' := by
  intro i b' hb' join
  rw [first_subscribed_iff h.keeps.subscribed]
  by_cases same : i = k
  · subst same
    exact left (by rw [hb', Option.any_some, join])
  · obtain ⟨b, hb, _, keeps⟩ := h.keeps.2 i b' hb'
    exact first i b hb ((keeps same).join ▸ join)

theorem clear_keeps (books : List FastBook) (k : Nat) : KeepBooks books (books.modify k FastBook.clear) := by
  refine ⟨List.length_modify .., fun i b' hb' => ?_⟩
  rw [List.getElem?_modify] at hb'
  obtain ⟨b, hb, rfl⟩ := Option.map_eq_some_iff.1 hb'
  refine ⟨b, hb, ?_⟩
  split
  · exact .of_flags rfl rfl rfl
  · exact .refl b

section
variable (calloc : OrderBook → Option Addr)

/-- A subscribed book of the second loop: it is cleared and joined, and the next ones follow if the join was done. -/
theorem join_books_next (set : FastBookSet) {k : Nat} {ks : List Nat} {j : Joining} (js : List Joining)
    (sub : ¬set.books[k]?.any (·.subscribed) = false) :
    joinBooks calloc set (k :: ks) (j :: js) =
      match fastBooksJoin calloc (set.modifyBook k FastBook.clear) k j with
      | (.done, set, fed) =>
        let (ended, set, events) := joinBooks calloc set ks js
        (ended, set, .clears k :: fed.map .feeds ++ events)
      | (.failed, set, fed) =>
        let abandoned := if set.books[k]?.any (·.join) then [.abandons k] else []
        (.failed, set, .clears k :: fed.map .feeds ++ abandoned)
      | (.running, set, fed) => (.running, set, .clears k :: fed.map .feeds) := by
  rw [joinBooks]
  exact if_neg sub

/-- The second loop of a retry feeds cleared books, and fails with no mark left but on the first book. -/
theorem join_books_cleared (set : FastBookSet) (ks : List Nat) (js : List Joining) (cleared : List Nat)
    (order : ks.Pairwise (· < ·)) (prepared : Prepared set.books ks cleared) (first : JoinsFirst set.books)
    (exits : ∀ k, .abandons k ∈ (joinBooks calloc set ks js).2.2 → FirstSubscribed set.books k) :
    FedCleared cleared (joinBooks calloc set ks js).2.2 ∧
      ((joinBooks calloc set ks js).1 = .failed → JoinsFirst (joinBooks calloc set ks js).2.1.books ∧
        (joinBooks calloc set ks js).2.1.books.map (·.subscribed) = set.books.map (·.subscribed)) := by
  induction ks generalizing set js cleared with
  | nil => exact ⟨.nil, fun h => by cases h⟩
  | cons k ks ih =>
    have order' : ks.Pairwise (· < ·) := order.of_cons
    by_cases sub : set.books[k]?.any (·.subscribed) = false
    · have skip : joinBooks calloc set (k :: ks) js = joinBooks calloc set ks js := by
        rw [joinBooks.eq_def]
        simp only [if_pos sub]
      rw [skip] at exits ⊢
      exact ih set js cleared order' (prepared_skip prepared sub) first exits
    · cases js with
      | nil =>
        have stop : joinBooks calloc set (k :: ks) [] = (.running, set, []) := by rw [joinBooks, if_neg sub]
        rw [stop]
        exact ⟨.nil, fun h => by cases h⟩
      | cons j js =>
        have keeps : KeepBooks set.books (set.modifyBook k FastBook.clear).books := clear_keeps set.books k
        have joins := fast_books_join_joins calloc (set.modifyBook k FastBook.clear) k j
        have marks : ∀ (i : Nat) (b : FastBook), (set.modifyBook k FastBook.clear).books[i]? = some b → b.Marked →
            i ∈ k :: cleared := by
          intro i b' hb' marked
          obtain ⟨b, hb, keeps'⟩ := keeps.2 i b' hb'
          exact prepared_clear prepared (by simpa using sub) order hb (keeps'.marked marked)
        have fed : ∀ i ∈ (fastBooksJoin calloc (set.modifyBook k FastBook.clear) k j).2.2, i ∈ k :: cleared := by
          intro i hi
          rcases joins.fed i hi with rfl | ⟨b, hb, marked⟩
          · exact List.mem_cons_self
          · exact marks i b hb marked
        have subscribed := joins.keeps.subscribed.trans (keeps.others k).subscribed
        rw [join_books_next calloc set js sub] at exits ⊢
        generalize fastBooksJoin calloc (set.modifyBook k FastBook.clear) k j = r at joins fed subscribed exits ⊢
        obtain ⟨ended, set', fed'⟩ := r
        cases ended with
        | running =>
          refine ⟨?_, fun h => by cases h⟩
          have here := fed_cleared_feeds fed .nil
          rw [List.append_nil] at here
          exact .clears here
        | failed =>
          have left : set'.books[k]?.any (·.join) = true → FirstSubscribed set.books k := by
            intro join
            refine exits k ?_
            simp only [if_pos join]
            exact List.mem_append_right _ (List.mem_singleton.2 rfl)
          refine ⟨?_, fun _ => ⟨joins.first (keeps.first first) fun join => ?_, subscribed⟩⟩
          · refine .clears (fed_cleared_feeds fed ?_)
            split
            · exact .abandons .nil
            · exact .nil
          · exact (first_subscribed_iff (keeps.others k).subscribed k).2 (left join)
        | done =>
          have first' : JoinsFirst set'.books := joins.first (keeps.first first) fun join => by
            rw [joins.joined rfl] at join
            cases join
          have prepared' : Prepared set'.books ks (k :: cleared) := by
            intro i b' hb' marked
            by_cases same : i = k
            · exact .inl (same ▸ List.mem_cons_self)
            · obtain ⟨b, hb, _, keeps'⟩ := joins.keeps.2 i b' hb'
              exact .inl (marks i b hb ((keeps' same).marked marked))
          have rest := ih set' js (k :: cleared) order' prepared' first' fun i hi =>
            (first_subscribed_iff subscribed i).2 (exits i (List.mem_append_right _ hi))
          exact ⟨.clears (fed_cleared_feeds fed rest.1), fun h => ⟨(rest.2 h).1, (rest.2 h).2.trans subscribed⟩⟩

/-- The books at the start of a retry: only the first one may still take entries. -/
theorem restart_prepared {set : FastBookSet} (first : JoinsFirst set.books) :
    Prepared set.restart.books (List.range set.books.length) [] ∧ JoinsFirst set.restart.books ∧
      set.restart.books.map (·.subscribed) = set.books.map (·.subscribed) := by
  have subscribed : set.restart.books.map (·.subscribed) = set.books.map (·.subscribed) := by
    rw [FastBookSet.restart, List.map_map]
    rfl
  have joins : JoinsFirst set.restart.books := by
    intro k b' hb' join
    rw [FastBookSet.restart, List.getElem?_map] at hb'
    obtain ⟨b, hb, rfl⟩ := Option.map_eq_some_iff.1 hb'
    exact (first_subscribed_iff subscribed k).2 (first k b hb join)
  refine ⟨fun k b' hb' marked => .inr ⟨?_, ?_⟩, joins, subscribed⟩
  · have lt : k < set.restart.books.length := (List.getElem?_eq_some_iff.1 hb').1
    rw [FastBookSet.restart, List.length_map] at lt
    exact List.mem_range.2 lt
  · rcases marked with active | join
    · have := hb'
      rw [FastBookSet.restart, List.getElem?_map] at this
      obtain ⟨b, hb, rfl⟩ := Option.map_eq_some_iff.1 this
      cases active
    · exact joins k b' hb' join

/-- **Recovery feeds cleared books.** A recovery that starts with no join left open but on the first
subscribed book, and whose joins fail with the book still marked only for that one, feeds an entry to no
book that it has not cleared since its latest retry. -/
theorem recovery_feeds_cleared (set : FastBookSet) (attempts : List (List Joining)) (first : JoinsFirst set.books)
    (exits : ∀ k, .abandons k ∈ (fastBooksRecover calloc set attempts).2.2 → FirstSubscribed set.books k) :
    FedCleared [] (fastBooksRecover calloc set attempts).2.2 := by
  suffices every : ∀ cleared, FedCleared cleared (fastBooksRecover calloc set attempts).2.2 from every []
  induction attempts generalizing set with
  | nil => exact fun _ => .nil
  | cons js rest ih =>
    obtain ⟨prepared, first', subscribed⟩ := restart_prepared first
    have order : (List.range set.books.length).Pairwise (· < ·) := List.pairwise_lt_range
    have tried := join_books_cleared calloc set.restart (List.range set.books.length) js [] order prepared first'
    rw [fastBooksRecover] at exits ⊢
    generalize joinBooks calloc set.restart (List.range set.books.length) js = r at tried exits ⊢
    obtain ⟨ended, set', events⟩ := r
    have here : ∀ k, .abandons k ∈ events → FirstSubscribed set.restart.books k := by
      intro k hk
      refine (first_subscribed_iff subscribed k).2 (exits k ?_)
      cases ended with
      | failed => exact List.mem_append_left _ (List.mem_cons_of_mem _ hk)
      | done => exact List.mem_cons_of_mem _ hk
      | running => exact List.mem_cons_of_mem _ hk
    obtain ⟨fed, left⟩ := tried here
    intro cleared
    cases ended with
    | done => exact .retry fed
    | running => exact .retry fed
    | failed =>
      obtain ⟨first'', same⟩ := left rfl
      refine fed_cleared_append (.retry fed) (ih set' first'' fun k hk => ?_)
      exact (first_subscribed_iff (same.trans subscribed) k).2 (exits k (List.mem_append_right _ hk))

end

/-! ## Two books -/

/-- A subscribed book with nothing in it. -/
def subscribedBook (secid : U64) (symbol : String) : FastBook where
  tick := ⟨0, 1⟩
  ob := obInit
  session := []
  symbol := Fix.chars symbol
  rptseq := 0
  snpseq := 0
  subscribed := true
  active := true
  empty := false
  join := false
  secid := secid

/-- A bid for ten at a hundred. -/
def bidEntry (secid rptSeq : U64) : MdEntry where
  securityId := .value secid
  symbol := .missing
  tradingSessionId := .missing
  rptSeq := .value rptSeq
  mdEntryType := .value (Fix.chars "0")
  mdEntrySize := .value (.int 10)
  mdEntryPx := .value ⟨0, 100⟩
  mdUpdateAction := .value 0

/-- An incremental refresh. -/
def refreshOf (num : U64) (entries : List MdEntry) : MdMessage :=
  { refreshes 0 with
    msgSeqNum := .value num
    mdEntries := .value ⟨.value (BitVec.ofNat 64 entries.length), bidEntry 0 0, entries⟩ }

/-- A snapshot with one entry, up to the message `last`. -/
def snapshotOf (secid rptSeq last : U64) : MdMessage where
  flagReset := false
  msgSeqNum := .value 1
  messageType := .value (Fix.chars "W" ++ [0])
  securityId := .value secid
  symbol := .missing
  rptSeq := .value rptSeq
  lastMsgSeqNumProcessed := .value last
  mdEntries := .value ⟨.value 1, bidEntry secid rptSeq, [bidEntry secid rptSeq]⟩

/-- Two subscribed books, and increments that have a gap after the first. -/
def twoBooks (entry : MdEntry) : FastBookSet where
  feeds := ⟨⟨0, false⟩, [⟨0, [refreshOf 1 [], refreshOf 3 [], refreshOf 4 [entry]]⟩]⟩
  snpFeeds := [⟨0, []⟩]
  books := [subscribedBook 1 "AAPL", subscribedBook 2 "MSFT"]

theorem two_books_first (entry : MdEntry) : JoinsFirst (twoBooks entry).books := by
  intro k b hb join
  have : k = 0 ∨ k = 1 := by
    have lt : k < 2 := (List.getElem?_eq_some_iff.1 hb).1
    omega
  rcases this with rfl | rfl <;> cases hb <;> cases join

/-- Everything arrives at every turn of a join. -/
def arriving (snapshots : List MdMessage) (turns : Nat) : Joining :=
  ⟨some snapshots, List.replicate turns ⟨fun _ => true, fun _ => true⟩, true⟩

/-- The gap fails the join of the first book, which then takes the next increment. -/
theorem first_join_retried : FedCleared [] (fastBooksRecover (fun _ => some 0) (twoBooks (bidEntry 1 5))
    [[arriving [] 2], [arriving [] 1]]).2.2 := by
  have events : (fastBooksRecover (fun _ => some 0) (twoBooks (bidEntry 1 5)) [[arriving [] 2], [arriving [] 1]]).2.2 =
      [.retry, .clears 0, .abandons 0, .retry, .clears 0, .feeds 0] := by decide +kernel
  refine recovery_feeds_cleared _ _ _ (two_books_first (bidEntry 1 5)) fun k hk => ?_
  rw [events] at hk
  have first : k = 0 := by simpa using hk
  subst first
  rfl

/-- **An abandoned join takes entries.** The first book is joined; the gap fails the join of the second,
which is still marked when the retry joins the first again, and counts an entry uncleared. -/
theorem abandoned_join_fed :
    JoinsFirst (twoBooks (bidEntry 2 5)).books ∧
      (fastBooksRecover (fun _ => some 0) (twoBooks (bidEntry 2 5))
        [[arriving [snapshotOf 1 1 1] 1, arriving [] 1], [arriving [] 1]]).2.2 =
        [.retry, .clears 0, .clears 1, .abandons 1, .retry, .clears 0, .feeds 1] ∧
      ¬FedCleared [] [.retry, .clears 0, .clears 1, .abandons 1, .retry, .clears 0, .feeds 1] := by
  refine ⟨two_books_first (bidEntry 2 5), by decide +kernel, ?_⟩
  intro fed
  iterate 6
    cases fed
    rename_i fed
  cases fed with
  | feeds before _ => exact absurd before (by decide)

end Libtrading.Book
