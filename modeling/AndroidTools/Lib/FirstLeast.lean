/-
The first of the least.

A list in which some places hold a value, and a loop that keeps the first place with the least
value so far. `IsFirstLeast` says which place that is, without the loop; there is one at most, and
`scan_eq_some_iff` says that the loop finds it. The strict comparison of the loop is what makes it
the first of several: a later place with the same value does not take over.
-/
import Mathlib.Order.Basic
import Mathlib.Data.List.Basic
import Mathlib.Tactic

set_option autoImplicit false

namespace AndroidTools.FirstLeast

variable {β : Type*} [LinearOrder β]

/-- The place `i` holds `b`, no place holds less, and none before it the same. -/
structure IsFirstLeast (l : List (Option β)) (i : ℕ) (b : β) : Prop where
  holds : l[i]? = some (some b)
  least : ∀ (j : ℕ) (c : β), l[j]? = some (some c) → b ≤ c
  first : ∀ (j : ℕ) (c : β), j < i → l[j]? = some (some c) → b < c

theorem IsFirstLeast.unique {l : List (Option β)} {i j : ℕ} {b c : β} (hi : IsFirstLeast l i b)
    (hj : IsFirstLeast l j c) : i = j ∧ b = c := by
  have hbc := hi.least j c hj.holds
  have hcb := hj.least i b hi.holds
  refine ⟨?_, le_antisymm hbc hcb⟩
  rcases Nat.lt_trichotomy i j with hlt | heq | hgt
  · exact absurd (hj.first i b hlt hi.holds) (not_lt_of_ge hbc)
  · exact heq
  · exact absurd (hi.first j c hgt hj.holds) (not_lt_of_ge hcb)

/-- One turn of the loop: a place that holds a value takes over if there is none so far, or if its
value is less than the one so far. -/
def scan_turn (best : Option (ℕ × β)) (cur : Option β × ℕ) : Option (ℕ × β) :=
  match cur.1, best with
  | none, _ => best
  | some c, none => some (cur.2, c)
  | some c, some (_, b) => if c < b then some (cur.2, c) else best

theorem scan_turn_some (i n : ℕ) (b c : β) :
    scan_turn (some (i, b)) (some c, n) = if c < b then some (n, c) else some (i, b) := rfl

/-- The loop over a list, from the first place on. -/
def scan (l : List (Option β)) : Option (ℕ × β) := l.zipIdx.foldl scan_turn none

@[simp] theorem scan_nil : scan ([] : List (Option β)) = none := rfl

theorem scan_concat (l : List (Option β)) (x : Option β) :
    scan (l ++ [x]) = scan_turn (scan l) (x, l.length) := by
  rw [scan, List.zipIdx_append, List.foldl_append, scan]
  simp

theorem getElem?_concat_cases {α : Type*} {l : List α} {a b : α} {j : ℕ}
    (h : (l ++ [a])[j]? = some b) : (j < l.length ∧ l[j]? = some b) ∨ (j = l.length ∧ a = b) := by
  rcases Nat.lt_trichotomy j l.length with hlt | heq | hgt
  · exact .inl ⟨hlt, by rwa [List.getElem?_append_left hlt] at h⟩
  · subst heq
    rw [List.getElem?_concat_length, Option.some.injEq] at h
    exact .inr ⟨rfl, h⟩
  · rw [List.getElem?_eq_none (by rw [List.length_append, List.length_singleton]; omega)] at h
    cases h

/-- A place behind that holds nothing, or nothing less, does not change which one it is. -/
theorem IsFirstLeast.concat {l : List (Option β)} {i : ℕ} {b : β} (h : IsFirstLeast l i b)
    {x : Option β} (hx : ∀ c, x = some c → b ≤ c) : IsFirstLeast (l ++ [x]) i b := by
  obtain ⟨hi, -⟩ := List.getElem?_eq_some_iff.mp h.holds
  refine ⟨by rw [List.getElem?_append_left hi, h.holds], ?_, ?_⟩
  · intro j c hj
    rcases getElem?_concat_cases hj with ⟨-, hj⟩ | ⟨-, hc⟩
    · exact h.least j c hj
    · exact hx c hc
  · intro j c hlt hj
    rw [List.getElem?_append_left (Nat.lt_trans hlt hi)] at hj
    exact h.first j c hlt hj

/-- A place that holds less than all before it is the first of the least from then on. -/
theorem IsFirstLeast.of_lt {l : List (Option β)} {c : β} (h : ∀ b, some b ∈ l → c < b) :
    IsFirstLeast (l ++ [some c]) l.length c := by
  refine ⟨List.getElem?_concat_length, ?_, ?_⟩
  · intro j b hj
    rcases getElem?_concat_cases hj with ⟨-, hj⟩ | ⟨-, hb⟩
    · exact le_of_lt (h b (List.mem_of_getElem? hj))
    · exact le_of_eq (Option.some.inj hb)
  · intro j b hlt hj
    rw [List.getElem?_append_left hlt] at hj
    exact h b (List.mem_of_getElem? hj)

theorem scan_spec (l : List (Option β)) :
    (scan l = none ∧ ∀ b, some b ∉ l) ∨ ∃ i b, scan l = some (i, b) ∧ IsFirstLeast l i b := by
  induction l using List.reverseRecOn with
  | nil => exact .inl ⟨rfl, fun _ => List.not_mem_nil⟩
  | append_singleton l x ih =>
    rw [scan_concat]
    rcases ih with ⟨hnone, hempty⟩ | ⟨i, b, hsome, hleast⟩
    · rw [hnone]
      cases x with
      | none =>
        refine .inl ⟨rfl, fun b hb => ?_⟩
        rcases List.mem_append.mp hb with hb | hb
        · exact hempty b hb
        · cases List.mem_singleton.mp hb
      | some c =>
        exact .inr ⟨l.length, c, rfl, IsFirstLeast.of_lt fun b hb => absurd hb (hempty b)⟩
    · rw [hsome]
      cases x with
      | none => exact .inr ⟨i, b, rfl, hleast.concat fun c hc => by cases hc⟩
      | some c =>
        rw [scan_turn_some]
        split_ifs with hlt
        · refine .inr ⟨l.length, c, rfl, IsFirstLeast.of_lt fun b' hb' => ?_⟩
          obtain ⟨j, hj⟩ := List.mem_iff_getElem?.mp hb'
          exact lt_of_lt_of_le hlt (hleast.least j b' hj)
        · refine .inr ⟨i, b, rfl, hleast.concat fun c' hc' => ?_⟩
          cases hc'
          exact le_of_not_gt hlt

/-- **The loop finds it**, and finds nothing else. -/
theorem scan_eq_some_iff {l : List (Option β)} {i : ℕ} {b : β} :
    scan l = some (i, b) ↔ IsFirstLeast l i b := by
  rcases scan_spec l with ⟨hnone, hempty⟩ | ⟨j, c, hsome, hleast⟩
  · rw [hnone]
    exact ⟨fun h => (Option.some_ne_none _ h.symm).elim,
      fun h => absurd (List.mem_of_getElem? h.holds) (hempty b)⟩
  · rw [hsome, Option.some.injEq, Prod.mk.injEq]
    constructor
    · rintro ⟨rfl, rfl⟩
      exact hleast
    · exact fun h => hleast.unique h

theorem scan_eq_none_iff {l : List (Option β)} : scan l = none ↔ ∀ b, some b ∉ l := by
  rcases scan_spec l with ⟨hnone, hempty⟩ | ⟨j, c, hsome, hleast⟩
  · exact ⟨fun _ => hempty, fun _ => hnone⟩
  · rw [hsome]
    exact ⟨fun h => (Option.some_ne_none _ h).elim,
      fun h => absurd (List.mem_of_getElem? hleast.holds) (h c)⟩

end AndroidTools.FirstLeast
