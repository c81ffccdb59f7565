/-
A loop that steps over an element.

The loop goes through a list, and after an element with `p` it steps over the next one without
looking at it. This is what becomes of a loop that removes elements from the list it is going
through: the index moves on, and so does what stands behind the removed element.

`looks v l` says whether the loop looks at what comes after `l`, when `v` says whether it looks at
the first element of `l`. Elements with `p` in a row are looked at in turn, every other one, and
so the answer only depends on how many of them stand directly in front (`looks_iff`). The last
section takes apart a statement about every place of a list, which is what a condition on the
whole loop is.
-/
import Mathlib.Tactic

set_option autoImplicit false

namespace AndroidTools.Skip

variable {α : Type*} (p : α → Bool)

/-- Whether the loop looks at what comes after `l`, where `v` says whether it looks at the first
element of `l`. -/
def looks (v : Bool) (l : List α) : Bool := l.foldl (fun v a => !(v && p a)) v

@[simp] theorem looks_nil (v : Bool) : looks p v [] = v := rfl

@[simp] theorem looks_cons (v : Bool) (a : α) (l : List α) :
    looks p v (a :: l) = looks p (!(v && p a)) l := rfl

theorem looks_concat (v : Bool) (l : List α) (a : α) :
    looks p v (l ++ [a]) = !(looks p v l && p a) := by
  rw [looks, List.foldl_append]
  rfl

/-- The number of elements with `p` at the end of a list. -/
def run_before (l : List α) : ℕ := (l.reverse.takeWhile p).length

/-- **What is stepped over** is an element that an odd number of elements with `p` comes before,
counted back to the nearest one without `p`. -/
theorem looks_iff (l : List α) : looks p true l = true ↔ run_before p l % 2 = 0 := by
  induction l using List.reverseRecOn with
  | nil => simp [run_before]
  | append_singleton l a ih =>
    rw [looks_concat, run_before, List.reverse_append]
    rw [run_before] at ih
    cases ha : p a with
    | false => simp [ha]
    | true =>
      have hrun : ([a].reverse ++ l.reverse).takeWhile p = a :: l.reverse.takeWhile p := by
        rw [List.reverse_singleton, List.singleton_append, List.takeWhile_cons_of_pos ha]
      rw [hrun, List.length_cons, Bool.and_true]
      cases hl : looks p true l with
      | false =>
        rw [hl] at ih
        simp only [Bool.false_eq_true, false_iff] at ih
        simp only [Bool.not_false, true_iff]
        omega
      | true =>
        rw [hl] at ih
        simp only [true_iff] at ih
        simp only [Bool.not_true, Bool.false_eq_true, false_iff]
        omega

/-! ## Places in a list

A condition on neighbours is stated with the list cut at the place, `l = a ++ x :: b`. These
lemmas move such a statement along an induction over the list, from either end.
-/

section Split

variable {P : List α → α → List α → Prop} {x : α} {xs : List α}

/-- A place in a list is the first one, or one behind it. -/
theorem exists_split_cons :
    (∃ a n b, x :: xs = a ++ n :: b ∧ P a n b) ↔
      P [] x xs ∨ ∃ a n b, xs = a ++ n :: b ∧ P (x :: a) n b := by
  constructor
  · rintro ⟨a, n, b, heq, h⟩
    cases a with
    | nil =>
      obtain ⟨rfl, rfl⟩ := List.cons.inj heq
      exact .inl h
    | cons y a =>
      obtain ⟨rfl, rfl⟩ := List.cons.inj heq
      exact .inr ⟨a, n, b, rfl, h⟩
  · rintro (h | ⟨a, n, b, rfl, h⟩)
    · exact ⟨[], x, xs, rfl, h⟩
    · exact ⟨x :: a, n, b, rfl, h⟩

theorem forall_split_cons :
    (∀ a n b, x :: xs = a ++ n :: b → P a n b) ↔
      P [] x xs ∧ ∀ a n b, xs = a ++ n :: b → P (x :: a) n b := by
  constructor
  · intro h
    exact ⟨h [] x xs rfl, fun a n b heq => h (x :: a) n b (by rw [heq, List.cons_append])⟩
  · rintro ⟨hfirst, hrest⟩ a n b heq
    cases a with
    | nil =>
      obtain ⟨rfl, rfl⟩ := List.cons.inj heq
      exact hfirst
    | cons y a =>
      obtain ⟨rfl, rfl⟩ := List.cons.inj heq
      exact hrest a n b rfl

/-- A place in a longer list is one in the list, or the end. -/
theorem forall_split_concat {l : List α} {x : α} {P : List α → α → Prop} :
    (∀ a n b, l ++ [x] = a ++ n :: b → P a n) ↔ (∀ a n b, l = a ++ n :: b → P a n) ∧ P l x := by
  constructor
  · intro h
    exact ⟨fun a n b heq => h a n (b ++ [x]) (by rw [heq]; simp), h l x [] rfl⟩
  · rintro ⟨h, hx⟩ a n b heq
    rcases List.eq_nil_or_concat b with rfl | ⟨b', y, rfl⟩
    · obtain ⟨rfl, hn⟩ := List.append_inj' heq rfl
      rwa [← (List.cons.inj hn).1]
    · rw [List.concat_eq_append, ← List.cons_append, ← List.append_assoc] at heq
      exact h a n b' (List.append_inj' heq rfl).1

end Split

end AndroidTools.Skip
