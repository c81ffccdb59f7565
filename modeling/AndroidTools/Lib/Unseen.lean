/-
Walks that remember where they have been.

A walk over a structure that may have cycles comes to an end if it only goes on to places it has
not seen, and all places are from a finite set. The measure is `unseen`, the number of places that
are left: a new place makes it smaller (`unseen_append_lt`), and having seen more never makes it
greater (`unseen_mono`), which is what a walk with several branches needs.
-/
import Mathlib.Data.Finset.Card
import Mathlib.Data.Finset.Filter

set_option autoImplicit false

namespace AndroidTools.Unseen

variable {α : Type*} [DecidableEq α] {places : Finset α} {seen seen' : List α} {a : α}

/-- How many of the places have not been seen, which is the measure that decreases along a walk.
-/
def unseen (places : Finset α) (seen : List α) : ℕ := (places.filter (· ∉ seen)).card

theorem unseen_le_card (places : Finset α) (seen : List α) : unseen places seen ≤ places.card :=
  Finset.card_filter_le _ _

/-- Whoever has seen more has less left. -/
theorem unseen_mono (h : seen ⊆ seen') : unseen places seen' ≤ unseen places seen := by
  refine Finset.card_le_card fun x hx => ?_
  rw [Finset.mem_filter] at hx ⊢
  exact ⟨hx.1, fun hmem => hx.2 (h hmem)⟩

/-- A walk that goes on to a new place has fewer places left. -/
theorem unseen_append_lt (ha : a ∈ places) (hnew : a ∉ seen) :
    unseen places (seen ++ [a]) < unseen places seen := by
  have hsub : places.filter (· ∉ seen ++ [a]) ⊆ places.filter (· ∉ seen) := by
    intro x hx
    rw [Finset.mem_filter] at hx ⊢
    exact ⟨hx.1, fun hmem => hx.2 (List.mem_append_left _ hmem)⟩
  refine Finset.card_lt_card ((Finset.ssubset_iff_of_subset hsub).mpr ?_)
  refine ⟨a, Finset.mem_filter.mpr ⟨ha, hnew⟩, fun hmem => ?_⟩
  exact (Finset.mem_filter.mp hmem).2 (List.mem_append_right _ (List.mem_singleton_self a))

end AndroidTools.Unseen
