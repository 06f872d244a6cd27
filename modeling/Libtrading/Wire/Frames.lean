import Mathlib.Data.List.Basic

/-!
# Frames one behind the other

A decoder is called on a state that holds bytes, again and again. If a call on a frame with anything behind it
returns the frame's message and leaves what is behind, calls on a row of frames return the messages of all.
-/

namespace Libtrading.Wire
set_option autoImplicit false
universe u v w

section
variable {σ : Type u} {α : Type v} {β : Type w}

/-- `n` calls one after the other: what they return, and the state they leave. -/
def calls (decode : σ → Option α × σ) : Nat → σ → List (Option α) × σ
  | 0, s => ([], s)
  | n + 1, s =>
    let r := decode s
    let rest := calls decode n r.2
    (r.1 :: rest.1, rest.2)

/-- A call on a frame, with anything behind it, returns its message and leaves what is behind. -/
def TakesFrame (decode : σ → Option α × σ) (bytes : σ → List β) (valid : σ → Prop) (frame : α → List β) (x : α) : Prop :=
  ∀ s rest, valid s → bytes s = frame x ++ rest →
    (decode s).1 = some x ∧ valid (decode s).2 ∧ bytes (decode s).2 = rest

variable {decode : σ → Option α × σ} {bytes : σ → List β} {valid : σ → Prop} {frame : α → List β}

/-- **A row of frames.** Calls on it return the messages, in order, and leave what is behind the row. -/
theorem calls_frames {xs : List α} (all : ∀ x ∈ xs, TakesFrame decode bytes valid frame x) {s : σ} {rest : List β}
    (hv : valid s) (row : bytes s = xs.flatMap frame ++ rest) :
    (calls decode xs.length s).1 = xs.map some ∧ valid (calls decode xs.length s).2 ∧
      bytes (calls decode xs.length s).2 = rest := by
  induction xs generalizing s with
  | nil => exact ⟨rfl, hv, row⟩
  | cons x xs ih =>
    rw [List.flatMap_cons, List.append_assoc] at row
    obtain ⟨returned, valid', left⟩ := all x List.mem_cons_self s _ hv row
    obtain ⟨others, valid'', left'⟩ := ih (fun y hy => all y (List.mem_cons_of_mem x hy)) valid' left
    refine ⟨?_, valid'', left'⟩
    rw [List.length_cons, calls, List.map_cons, ← returned, ← others]

end

end Libtrading.Wire
