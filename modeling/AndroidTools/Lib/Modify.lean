/-
Lists with one place changed.

Loops that update one record of a list at a time need two facts about `List.modify`. A measure
that the change does not touch is the same for the whole list (`map_modify`), and a sum of
measures changes by exactly what changes in the one place (`sum_map_modify`). The second is stated
without a subtraction, so that it can be used where a measure grows and where it shrinks.
-/
import Mathlib.Data.List.Basic
import Mathlib.Algebra.BigOperators.Group.List.Basic
import Mathlib.Tactic

set_option autoImplicit false

namespace AndroidTools.Modify

variable {α : Type*}

/-- A change in one place that `g` does not see leaves the list of the values of `g` as it was. -/
theorem map_modify {β : Type*} {f : α → α} {g : α → β} (h : ∀ a, g (f a) = g a) (l : List α)
    (i : ℕ) : (l.modify i f).map g = l.map g := by
  apply List.ext_getElem?
  intro j
  rw [List.getElem?_map, List.getElem?_map, List.getElem?_modify]
  cases l[j]? with
  | none => rfl
  | some a =>
    by_cases hij : i = j
    · simp [hij, h]
    · simp [hij]

/-- A change in one place changes the sum by what it changes there: the old summand on one side,
the new one on the other. -/
theorem sum_map_modify {f : α → α} {g : α → ℕ} {l : List α} {i : ℕ} {a : α} (h : l[i]? = some a) :
    ((l.modify i f).map g).sum + g a = (l.map g).sum + g (f a) := by
  induction l generalizing i with
  | nil => cases h
  | cons x l ih =>
    cases i with
    | zero =>
      cases h
      rw [List.modify_zero_cons, List.map_cons, List.map_cons, List.sum_cons, List.sum_cons]
      omega
    | succ i =>
      rw [List.getElem?_cons_succ] at h
      rw [List.modify_succ_cons, List.map_cons, List.map_cons, List.sum_cons, List.sum_cons]
      have := ih h
      omega

end AndroidTools.Modify
