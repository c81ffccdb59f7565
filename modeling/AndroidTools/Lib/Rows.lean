/-
Rows of neighbours with a property.

A list is cut wherever one of two neighbours does not have `p`, and of the pieces those are kept
whose elements have it: these are the longest rows of neighbours with `p`, in their order. A
program that goes through the list finds them one element at a time, so the lemmas say what
another element at the end does: without `p` it changes nothing, and with `p` it is the last
element of a row, which is a row of its own behind an element without `p`.
-/
import Mathlib.Data.List.SplitBy
import Mathlib.Tactic

set_option autoImplicit false

namespace AndroidTools.Rows

variable {α : Type*} {p : α → Bool} {l front row : List α} {a : α}

/-- The longest rows of neighbours with `p`. -/
def rows (p : α → Bool) (l : List α) : List (List α) :=
  (l.splitBy fun a b => p a && p b).filter fun row => row.all p

@[simp] theorem rows_nil : rows p [] = [] := by rw [rows, List.splitBy_nil, List.filter_nil]

/-- The elements of a row have the property, by the filter in `rows`. -/
theorem of_mem_rows (hrow : row ∈ rows p l) (ha : a ∈ row) : p a = true := by
  rw [rows, List.mem_filter, List.all_eq_true] at hrow
  exact hrow.2 a ha

/-- The elements of a row are elements of the list it is a row of. -/
theorem mem_of_mem_rows (hrow : row ∈ rows p l) (ha : a ∈ row) : a ∈ l := by
  rw [rows, List.mem_filter] at hrow
  rw [← List.flatten_splitBy (fun a b => p a && p b) l]
  exact List.mem_flatten_of_mem hrow.1 ha

/-- An element without the property is in no row and ends the one before it. -/
theorem rows_concat_of_not (ha : p a = false) : rows p (l ++ [a]) = rows p l := by
  have hcut : ∀ x ∈ l.getLast?, (p x && p a) = false := fun x _ => by rw [ha, Bool.and_false]
  have hsingle : [a].splitBy (fun a b => p a && p b) = [[a]] :=
    List.splitBy_of_isChain (List.cons_ne_nil a []) (.singleton a)
  rw [rows, rows, List.splitBy_append_cons [] hcut, hsingle, List.filter_append]
  simp [ha]

/-- Elements with the property that come behind one without it are one row. -/
theorem rows_append_row (hfront : ∀ x ∈ front.getLast?, p x = false) (hne : row ≠ [])
    (hrow : ∀ x ∈ row, p x = true) : rows p (front ++ row) = rows p front ++ [row] := by
  have hcut : ∀ x ∈ front.getLast?, ∀ y ∈ row.head?, (p x && p y) = false := by
    intro x hx y _
    rw [hfront x hx, Bool.false_and]
  have hchain : row.IsChain fun x y => (p x && p y) = true := by
    refine List.Pairwise.isChain (List.pairwise_of_forall_mem_list fun x hx y hy => ?_)
    rw [hrow x hx, hrow y hy, Bool.and_true]
  have hall : row.all p = true := List.all_eq_true.mpr hrow
  rw [rows, rows, List.splitBy_append hcut, List.splitBy_of_isChain hne hchain,
    List.filter_append]
  simp only [List.filter_cons, hall, if_true, List.filter_nil]

end AndroidTools.Rows
