/-!
# Resumable readers of a byte stream

A reader is fed pieces of a stream and called in between; a call emits a
result or waits. It is *stable* at a configuration when bytes that are not
there yet change nothing that has been decided: an emission stays the same
emission, and a wait can be repeated once the bytes are there, with the
outcome of a first call that had them all along. `run_drains` is what
stability buys: over any schedule of pieces and calls the reader emits what
one that holds the whole stream from the start emits.
-/

namespace Libtrading.Stream
universe u v w

/-- A reader of a stream of `β`, with configurations `γ` and results `ω`. -/
structure Reader (γ : Type u) (β : Type v) (ω : Type w) where
  feed : γ → List β → γ
  call : γ → Option ω × γ

namespace Reader
variable {γ : Type u} {β : Type v} {ω : Type w} (R : Reader γ β ω)

/-- One call after each piece: the results, in order, and the last configuration. -/
def run (c : γ) : List (List β) → List ω × γ
  | [] => ([], c)
  | x :: xs =>
    let r := R.call (R.feed c x)
    let rest := run r.2 xs
    (r.1.toList ++ rest.1, rest.2)

/-- Calls without new bytes until one waits. -/
inductive Drains : γ → List ω → γ → Prop
  | wait {c c' : γ} : R.call c = (none, c') → Drains c [] c'
  | emit {c c' e : γ} {o : ω} {os : List ω} : R.call c = (some o, c') → Drains c' os e → Drains c (o :: os) e

/-- The configurations at which the run makes its calls. -/
def callSites (c : γ) : List (List β) → List γ
  | [] => []
  | x :: xs => R.feed c x :: callSites (R.call (R.feed c x)).2 xs

/-- What `run_drains` needs of a call: later bytes do not change an emission, and a wait can be
taken again with them. -/
structure StableAt (c : γ) : Prop where
  emit : ∀ {o c'}, R.call c = (some o, c') → ∀ x, R.call (R.feed c x) = (some o, R.feed c' x)
  wait : ∀ {c'}, R.call c = (none, c') → ∀ x, R.call (R.feed c' x) = R.call (R.feed c x)

/-- Feeding nothing does nothing, and feeding twice is feeding once. -/
structure FeedLaws : Prop where
  nil : ∀ c, R.feed c [] = c
  append : ∀ c x y, R.feed (R.feed c x) y = R.feed c (x ++ y)

variable {R}

theorem Drains.det {c e e' : γ} {os os' : List ω} (h : R.Drains c os e) (h' : R.Drains c os' e') :
    os = os' ∧ e = e' := by
  induction h generalizing os' e' with
  | wait hw =>
    cases h' with
    | wait hw' => exact ⟨rfl, (Prod.mk.inj (hw.symm.trans hw')).2⟩
    | emit he' _ => exact nomatch (Prod.mk.inj (hw.symm.trans he')).1
  | emit he _ ih =>
    cases h' with
    | wait hw' => exact nomatch (Prod.mk.inj (he.symm.trans hw')).1
    | emit he' hd' =>
      obtain ⟨rfl, rfl⟩ : _ = _ ∧ _ = _ := by simpa using he.symm.trans he'
      obtain ⟨rfl, rfl⟩ := ih hd'
      exact ⟨rfl, rfl⟩

/-- Draining depends on the first call only. -/
theorem Drains.congr {c d e : γ} {os : List ω} (h : R.Drains c os e) (same : R.call d = R.call c) :
    R.Drains d os e := by
  cases h with
  | wait hw => exact .wait (same.trans hw)
  | emit he hd => exact .emit (same.trans he) hd

/-- **Chunk independence.** If a reader that holds the whole stream drains to `os`, then a run
over any cut of the stream that is stable at its calls emits a prefix of `os`, and draining it
afterwards gives the rest. -/
theorem run_drains (laws : R.FeedLaws) :
    ∀ (xs : List (List β)) (c e : γ) (os : List ω), R.Drains (R.feed c xs.flatten) os e →
      (∀ d ∈ R.callSites c xs, R.StableAt d) →
      ∃ rest, os = (R.run c xs).1 ++ rest ∧ R.Drains (R.run c xs).2 rest e := by
  intro xs
  induction xs with
  | nil =>
    intro c e os h _
    rw [List.flatten_nil, laws.nil] at h
    exact ⟨os, rfl, h⟩
  | cons x xs ih =>
    intro c e os h stable
    have first := stable (R.feed c x) (List.mem_cons_self ..)
    have later := fun d hd => stable d (List.mem_cons_of_mem _ hd)
    rw [List.flatten_cons, ← laws.append] at h
    rcases hc : R.call (R.feed c x) with ⟨out, c'⟩
    rw [hc] at later
    cases out with
    | none =>
      obtain ⟨rest, ho, hd⟩ := ih c' e os (h.congr (first.wait hc _)) later
      exact ⟨rest, by simpa [run, hc] using ho, by simpa [run, hc] using hd⟩
    | some o =>
      have whole := first.emit hc xs.flatten
      cases h with
      | wait hw => exact nomatch (Prod.mk.inj (hw.symm.trans whole)).1
      | emit he hd =>
        obtain ⟨rfl, rfl⟩ : _ = _ ∧ _ = _ := by simpa using he.symm.trans whole
        obtain ⟨rest, ho, hd⟩ := ih c' e _ hd later
        exact ⟨rest, by simp [run, hc, ho], by simpa [run, hc] using hd⟩

end Reader

end Libtrading.Stream
