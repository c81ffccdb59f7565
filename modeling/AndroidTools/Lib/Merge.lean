/-
Merging sorted sources by taking the least head.

`Merged sources L` says what a merge is to give: every source's elements in their order, and all
of them in the order of their keys, where elements with the same key come in the order of the
sources. There is one such list (`Merged.unique`), so this is a specification and not only a
property.

A loop that takes the first of the least heads keeps `Merging`: what has been taken is in order,
and everything pending comes behind it. `before_of_firstLeast` is where the choice of the head is
used, and where nothing is pending any more the invariant says that the loop has merged.
-/
import AndroidTools.Lib.FirstLeast

set_option autoImplicit false

namespace AndroidTools.Merge

open AndroidTools.FirstLeast

variable {α β : Type*} [LinearOrder β] (key : α → β)

/-- The elements that come from source `k` in a list of elements with their sources, in the order
of the list. -/
def from_source (k : ℕ) (L : List (ℕ × α)) : List α :=
  L.filterMap fun x => if x.1 = k then some x.2 else none

/-- In the order of the keys, and of the sources where these are the same. -/
def Before (x y : ℕ × α) : Prop := key x.2 < key y.2 ∨ (key x.2 = key y.2 ∧ x.1 ≤ y.1)

/-- What a merge is to give: the elements of every source, in that source's order, and all of them
in the order `Before`. -/
structure Merged (sources : ℕ → List α) (L : List (ℕ × α)) : Prop where
  complete : ∀ k, from_source k L = sources k
  sorted : L.Pairwise (Before key)

/-- The invariant of a merge under way: what is taken is in order, what is taken from a source and
what is still pending there make up the source, and nothing pending has to come before anything
taken. -/
structure Merging (sources pending : ℕ → List α) (L : List (ℕ × α)) : Prop where
  complete : ∀ k, from_source k L ++ pending k = sources k
  sorted : L.Pairwise (Before key)
  ahead : ∀ x ∈ L, ∀ j e, e ∈ pending j → Before key x (j, e)

variable {key} {sources pending : ℕ → List α} {L : List (ℕ × α)}

@[simp] theorem from_source_nil (k : ℕ) : from_source k ([] : List (ℕ × α)) = [] := rfl

theorem from_source_append (k : ℕ) (L M : List (ℕ × α)) :
    from_source k (L ++ M) = from_source k L ++ from_source k M := List.filterMap_append

theorem from_source_cons (k : ℕ) (x : ℕ × α) (L : List (ℕ × α)) :
    from_source k (x :: L) = if x.1 = k then x.2 :: from_source k L else from_source k L := by
  rw [from_source, List.filterMap_cons]
  split_ifs
  · rfl
  · rfl

theorem mem_from_source {k : ℕ} {e : α} : e ∈ from_source k L ↔ (k, e) ∈ L := by
  rw [from_source, List.mem_filterMap]
  constructor
  · rintro ⟨⟨j, a⟩, hmem, h⟩
    dsimp only at h
    split_ifs at h with hj
    · cases h
      exact hj ▸ hmem
  · exact fun h => ⟨(k, e), h, if_pos rfl⟩

theorem Merging.start (sources : ℕ → List α) : Merging key sources sources [] where
  complete _ := rfl
  sorted := List.Pairwise.nil
  ahead _ hx := absurd hx List.not_mem_nil

theorem Merging.done (h : Merging key sources pending L) (hdone : ∀ k, pending k = []) :
    Merged key sources L where
  complete k := by
    have := h.complete k
    rwa [hdone k, List.append_nil] at this
  sorted := h.sorted

/-- What is pending is in order where the sources are. -/
theorem Merging.pending_sorted (h : Merging key sources pending L)
    (hsorted : ∀ k, (sources k).Pairwise fun a b => key a ≤ key b) (k : ℕ) :
    (pending k).Pairwise fun a b => key a ≤ key b := by
  have := hsorted k
  rw [← h.complete k] at this
  exact (List.pairwise_append.mp this).2.1

/-- The step of the merge. If the head of one pending source is before everything pending, then
taking it keeps the invariant. -/
theorem Merging.take (h : Merging key sources pending L) {k : ℕ} {e : α} {pending' : ℕ → List α}
    (hk : pending k = e :: pending' k) (hne : ∀ j, j ≠ k → pending' j = pending j)
    (hleast : ∀ j x, x ∈ pending j → Before key (k, e) (j, x)) :
    Merging key sources pending' (L ++ [(k, e)]) where
  complete j := by
    rw [from_source_append, from_source_cons, from_source_nil, ← h.complete j]
    dsimp only
    split_ifs with hj
    · subst hj
      rw [hk, List.append_assoc]
      rfl
    · rw [List.append_nil, hne j (Ne.symm hj)]
  sorted := by
    refine List.pairwise_append.mpr ⟨h.sorted, List.pairwise_singleton _ _, ?_⟩
    intro x hx y hy
    rw [List.mem_singleton.mp hy]
    exact h.ahead x hx k e (by rw [hk]; exact List.mem_cons_self)
  ahead x hx j a ha := by
    have hmem : a ∈ pending j := by
      rcases eq_or_ne j k with rfl | hj
      · rw [hk]
        exact List.mem_cons_of_mem _ ha
      · exact hne j hj ▸ ha
    rcases List.mem_append.mp hx with hx | hx
    · exact h.ahead x hx j a hmem
    · rw [List.mem_singleton.mp hx]
      exact hleast j a hmem

/-- In sorted sources the first of the least heads is before everything. -/
theorem before_of_firstLeast (hsorted : ∀ k, (pending k).Pairwise fun a b => key a ≤ key b)
    {heads : List (Option β)} (hheads : ∀ k b, (pending k).head?.map key = some b →
      heads[k]? = some (some b))
    {k : ℕ} {e : α} (h : IsFirstLeast heads k (key e)) (j : ℕ) (x : α) (hx : x ∈ pending j) :
    Before key (k, e) (j, x) := by
  have hj := hsorted j
  have hhead := hheads j
  cases hp : pending j with
  | nil =>
    rw [hp] at hx
    cases hx
  | cons a p =>
    rw [hp] at hx hj hhead
    have hea := h.least j _ (hhead _ rfl)
    have hax : key a ≤ key x := by
      rcases List.mem_cons.mp hx with rfl | hx
      · exact le_refl _
      · exact (List.pairwise_cons.mp hj).1 x hx
    rcases lt_or_eq_of_le (le_trans hea hax) with hlt | heq
    · exact .inl hlt
    · refine .inr ⟨heq, Nat.le_of_not_lt fun hjk => ?_⟩
      have hlt := h.first j _ hjk (hhead _ rfl)
      exact absurd (heq ▸ hax) (not_le_of_gt hlt)

theorem Before.refl (x : ℕ × α) : Before key x x := .inr ⟨rfl, le_refl _⟩

theorem Before.source_eq {x y : ℕ × α} (hxy : Before key x y) (hyx : Before key y x) :
    x.1 = y.1 := by
  rcases hxy with hlt | ⟨heq, hle⟩
  · rcases hyx with hgt | ⟨heq, -⟩
    · exact absurd hlt (lt_asymm hgt)
    · exact absurd hlt (heq ▸ lt_irrefl _)
  · rcases hyx with hgt | ⟨-, hge⟩
    · exact absurd hgt (heq ▸ lt_irrefl _)
    · exact le_antisymm hle hge

theorem before_of_mem {x y : ℕ × α} (h : (x :: L).Pairwise (Before key)) (hy : y ∈ x :: L) :
    Before key x y := by
  rcases List.mem_cons.mp hy with rfl | hy
  · exact .refl y
  · exact (List.pairwise_cons.mp h).1 y hy

/-- Two lists in order are the same where every source's elements are. -/
theorem eq_of_from_source {L L' : List (ℕ × α)} (h : L.Pairwise (Before key))
    (h' : L'.Pairwise (Before key)) (heq : ∀ k, from_source k L = from_source k L') : L = L' := by
  induction L generalizing L' with
  | nil =>
    refine (List.eq_nil_iff_forall_not_mem.mpr ?_).symm
    rintro ⟨k, e⟩ hx
    rw [← mem_from_source, ← heq k] at hx
    exact List.not_mem_nil hx
  | cons x L ih =>
    have hmem : ∀ y, y ∈ x :: L ↔ y ∈ L' := by
      rintro ⟨k, e⟩
      rw [← mem_from_source, heq k, mem_from_source]
    cases L' with
    | nil => exact absurd ((hmem x).mp List.mem_cons_self) List.not_mem_nil
    | cons y L' =>
      -- each of the two first elements is in the other list
      have hsource : x.1 = y.1 :=
        (before_of_mem h ((hmem y).mpr List.mem_cons_self)).source_eq
          (before_of_mem h' ((hmem x).mp List.mem_cons_self))
      have hhead := heq x.1
      rw [from_source_cons, if_pos rfl, from_source_cons, if_pos hsource.symm] at hhead
      obtain rfl : x = y := Prod.ext hsource (List.cons.inj hhead).1
      rw [ih (List.pairwise_cons.mp h).2 (List.pairwise_cons.mp h').2 fun k => ?_]
      have htail := heq k
      rw [from_source_cons, from_source_cons] at htail
      split_ifs at htail
      · exact (List.cons.inj htail).2
      · exact htail

/-- **There is one merge.** Two lists that are both a merge of the same sources are equal, so a
specification by `Merged` leaves nothing open. -/
theorem Merged.unique {L' : List (ℕ × α)} (h : Merged key sources L) (h' : Merged key sources L') :
    L = L' :=
  eq_of_from_source h.sorted h'.sorted fun k => (h.complete k).trans (h'.complete k).symm

end AndroidTools.Merge
