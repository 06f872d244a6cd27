import Mathlib.Logic.Function.Basic

/-!
# Catching up with a map

A map changes key by key. A replica that joins late sees the changes from then on, and keeps of every key it
saw change what the last change left there, a removal included: a key without a value is not a key it saw
nothing of. Then an image of the map comes, of some moment since the replica joined, older than the changes it
saw last or not. Keys it saw change are right already, and of the others nothing changed since the image, so
only those are taken from it. `CatchesUp` is the invariant, `view_eq` what it comes to.
-/

namespace Libtrading.Store
set_option autoImplicit false
universe u v w

section
variable {κ : Type u} {υ : Type v}

/-- A change of a map of two arguments, as a change of one of pairs. -/
theorem update_pairs {α : Type u} {β : Type v} {γ : Type w} [DecidableEq α] [DecidableEq β] (f : α → β → γ) (a : α) (b : β)
    (c : γ) : (fun e : α × β => Function.update f a (Function.update (f a) b c) e.1 e.2) =
      Function.update (fun e : α × β => f e.1 e.2) (a, b) c := by
  funext ⟨a', b'⟩
  by_cases here : a' = a
  · subst here
    by_cases there : b' = b
    · rw [there]
      simp only [Function.update_self]
    · rw [Function.update_of_ne fun same => there (congrArg Prod.snd same)]
      simp only [Function.update_self, Function.update_of_ne there]
  · rw [Function.update_of_ne fun same => here (congrArg Prod.fst same)]
    simp only [Function.update_of_ne here]

/-- What a replica has seen of the keys: nothing, that the value is gone, or the value. -/
abbrev Seen (κ : Type u) (υ : Type v) := κ → Option (Option υ)

namespace Seen

/-- The map that was seen, with nothing where nothing was seen. -/
def view (seen : Seen κ υ) : κ → Option υ := fun k => (seen k).join

/-- The keys with a value in the map were seen. -/
def Covers (seen : Seen κ υ) (map : κ → Option υ) : Prop := ∀ k, map k ≠ none → seen k ≠ none

end Seen

/-- A replica that has `seen` changes catches up with the map `now`: what it saw is right, and what it did not
see is as it was in the maps of the past. -/
structure CatchesUp (past : (κ → Option υ) → Prop) (now : κ → Option υ) (seen : Seen κ υ) : Prop where
  right : ∀ k v, seen k = some v → now k = v
  unchanged : ∀ k, seen k = none → ∀ map, past map → map k = now k

namespace CatchesUp
variable {past past' : (κ → Option υ) → Prop} {now : κ → Option υ} {seen : Seen κ υ}

/-- A replica that joins has seen nothing, and has no past but the present. -/
theorem start (now : κ → Option υ) : CatchesUp (· = now) now fun _ => none :=
  ⟨fun _ _ no => (nomatch no), fun _ _ _ same => by rw [same]⟩

/-- A shorter past will do. -/
theorem mono (h : CatchesUp past now seen) (shorter : ∀ map, past' map → past map) : CatchesUp past' now seen :=
  ⟨h.right, fun k unseen map old => h.unchanged k unseen map (shorter map old)⟩

/-- The present becomes past. -/
theorem extend (h : CatchesUp past now seen) : CatchesUp (fun map => past map ∨ map = now) now seen := by
  refine ⟨h.right, fun k unseen map old => ?_⟩
  rcases old with old | rfl
  · exact h.unchanged k unseen map old
  · rfl

section
variable [DecidableEq κ]

/-- **A change** is seen. -/
theorem change (h : CatchesUp past now seen) (k : κ) (v : Option υ) :
    CatchesUp past (Function.update now k v) (Function.update seen k (some v)) := by
  refine ⟨fun k' v' there => ?_, fun k' unseen map old => ?_⟩
  · by_cases same : k' = k
    · subst same
      rw [Function.update_self] at there ⊢
      exact Option.some.inj there
    · rw [Function.update_of_ne same] at there ⊢
      exact h.right k' v' there
  · by_cases same : k' = k
    · subst same
      rw [Function.update_self] at unseen
      cases unseen
    · rw [Function.update_of_ne same] at unseen ⊢
      exact h.unchanged k' unseen map old

/-- **An entry of an image** of the past fills in a key of which nothing was seen. -/
theorem fill (h : CatchesUp past now seen) {map : κ → Option υ} (old : past map) {k : κ} (unseen : seen k = none) :
    CatchesUp past now (Function.update seen k (some (map k))) := by
  refine ⟨fun k' v there => ?_, fun k' unseen' => ?_⟩
  · by_cases same : k' = k
    · subst same
      rw [Function.update_self] at there
      rw [← h.unchanged k' unseen map old]
      exact Option.some.inj there
    · rw [Function.update_of_ne same] at there
      exact h.right k' v there
  · by_cases same : k' = k
    · subst same
      rw [Function.update_self] at unseen'
      cases unseen'
    · rw [Function.update_of_ne same] at unseen'
      exact h.unchanged k' unseen'

end

/-- **Caught up**: once every key of an image was seen, the replica has the map. -/
theorem view_eq (h : CatchesUp past now seen) {map : κ → Option υ} (old : past map) (covers : seen.Covers map) :
    seen.view = now := by
  funext k
  rw [Seen.view]
  cases there : seen k with
  | none =>
    have absent : map k = none := by
      by_contra present
      exact covers k present there
    rw [← h.unchanged k there map old, absent]
    rfl
  | some v => exact (h.right k v there).symm

end CatchesUp

end

end Libtrading.Store
