/-
Lists of half-open ranges of numbers, each with a payload.

`Ascending` lists have non-empty ranges, each ending before the next one starts. This is the form
in which a sparse image or an address space lists what it holds, and its consequences are proved
once: no number lies in two ranges, and the starts increase.

`withGaps` puts a range of a fixed payload between neighbours that do not touch, the last pair
apart, where a caller has to know how the list ends. What comes out is ascending again. It has no
hole up to its last range if the last pair touches (`covered_withGaps`), and where the last pair
does not touch the hole stays open (`hole_withGaps`), so `LastTouches` is exactly what a caller
has to see to.
-/
import Mathlib

set_option autoImplicit false

namespace AndroidTools.Ranges

variable {α : Type*}

/-- A range `[lo, hi)` with its payload. -/
abbrev Ranged (α : Type*) := (ℕ × ℕ) × α

/-- The number lies in the range: not below its start and below its end. -/
def Covers (e : Ranged α) (a : ℕ) : Prop := e.1.1 ≤ a ∧ a < e.1.2

/-- Lists of non-empty ranges in order, each of which ends before the next one starts or where it
starts. -/
structure Ascending (l : List (Ranged α)) : Prop where
  nonempty : ∀ e ∈ l, e.1.1 < e.1.2
  before : l.Pairwise fun e f => e.1.2 ≤ f.1.1

theorem ascending_cons {e : Ranged α} {l : List (Ranged α)} :
    Ascending (e :: l) ↔ e.1.1 < e.1.2 ∧ (∀ f ∈ l, e.1.2 ≤ f.1.1) ∧ Ascending l := by
  constructor
  · rintro ⟨hne, hb⟩
    rw [List.pairwise_cons] at hb
    exact ⟨hne e List.mem_cons_self, hb.1, fun f hf => hne f (List.mem_cons_of_mem e hf), hb.2⟩
  · rintro ⟨he, hef, hl⟩
    refine ⟨fun f hf => ?_, List.pairwise_cons.mpr ⟨hef, hl.before⟩⟩
    rcases List.mem_cons.mp hf with rfl | hf
    · exact he
    · exact hl.nonempty f hf

/-- No number lies in two ranges of an ascending list. -/
theorem Ascending.disjoint {l : List (Ranged α)} (h : Ascending l) :
    l.Pairwise fun e f => Disjoint (Set.Ico e.1.1 e.1.2) (Set.Ico f.1.1 f.1.2) := by
  refine h.before.imp fun {e f} hef => ?_
  rw [Set.disjoint_left]
  intro a ha hb
  rw [Set.mem_Ico] at ha hb
  omega

/-- The starts of the ranges of an ascending list increase. -/
theorem Ascending.lt {l : List (Ranged α)} (h : Ascending l) :
    l.Pairwise fun e f => e.1.1 < f.1.1 := by
  refine h.before.imp_of_mem fun {e f} he _ hef => ?_
  exact (h.nonempty e he).trans_le hef

theorem Ascending.nodup {l : List (Ranged α)} (h : Ascending l) : (l.map Prod.fst).Nodup := by
  rw [List.Nodup, List.pairwise_map]
  refine h.lt.imp fun {e f} hef heq => ?_
  rw [heq] at hef
  exact lt_irrefl _ hef

/-! ## Gaps

The gaps are found by looking at two ranges at a time, each gap put in front of the second
of them, and the range in front of the last one is left out, as the loop of the source does.
What that costs is exactly one hole, and only where the last two ranges do not touch;
without it the ranges and the gaps together cover everything between the first start and the
last end.
-/

/-- The range between a range that ends at `hi` and the range `x` after it, with the fixed
payload; nothing where the two touch. -/
def gapBefore (fill : α) (hi : ℕ) (x : Ranged α) : List (Ranged α) :=
  if hi ≠ x.1.1 then [((hi, x.1.1), fill)] else []

/-- The gaps of a list, all but the one in front of its last range. -/
def gaps (fill : α) : List (Ranged α) → List (Ranged α)
  | p :: x :: y :: l => gapBefore fill p.1.2 x ++ gaps fill (x :: y :: l)
  | _ => []

/-- The list with these gaps in their places. Nothing is put in front of the last range. -/
def withGaps (fill : α) : List (Ranged α) → List (Ranged α)
  | p :: x :: y :: l => p :: (gapBefore fill p.1.2 x ++ withGaps fill (x :: y :: l))
  | l => l

variable {fill : α}

theorem withGaps_perm (l : List (Ranged α)) : (withGaps fill l).Perm (l ++ gaps fill l) := by
  induction l using withGaps.induct with
  | case1 p x y l ih =>
    rw [withGaps, gaps, List.cons_append, List.perm_cons]
    have hmove := (ih.append_left (gapBefore fill p.1.2 x))
    refine hmove.trans ?_
    rw [← List.append_assoc, ← List.append_assoc]
    exact List.perm_append_comm.append_right _
  | case2 l hl =>
    match l, hl with
    | [], _ => exact List.Perm.refl _
    | [_], _ => exact List.Perm.refl _
    | [_, _], _ => exact List.Perm.refl _
    | p :: x :: y :: l, hl => exact absurd rfl (hl p x y l)

theorem head_withGaps {p : Ranged α} {l : List (Ranged α)} :
    ∃ m, withGaps fill (p :: l) = p :: m := by
  match l with
  | [] => exact ⟨[], rfl⟩
  | [x] => exact ⟨[x], rfl⟩
  | x :: y :: l => exact ⟨_, rfl⟩

theorem ascending_withGaps {l : List (Ranged α)} (h : Ascending l) :
    Ascending (withGaps fill l) := by
  induction l using withGaps.induct with
  | case1 p x y l ih =>
    obtain ⟨hp, hpl, hl⟩ := ascending_cons.mp h
    have hrest := ih hl
    have hpx := hpl x List.mem_cons_self
    obtain ⟨m, hm⟩ := @head_withGaps α fill x (y :: l)
    -- everything behind `p` starts at `x` or later
    have hfrom : ∀ f ∈ withGaps fill (x :: y :: l), x.1.1 ≤ f.1.1 := by
      intro f hf
      rw [hm] at hf hrest
      rcases List.mem_cons.mp hf with rfl | hf
      · exact le_rfl
      · have hx := (ascending_cons.mp hrest).1
        exact hx.le.trans ((ascending_cons.mp hrest).2.1 f hf)
    rw [withGaps, gapBefore]
    split_ifs with hgap
    · refine ascending_cons.mpr ⟨hp, ?_, ?_⟩
      · intro f hf
        rcases List.mem_cons.mp hf with rfl | hf
        · exact le_rfl
        · exact hpx.trans (hfrom f hf)
      · refine ascending_cons.mpr ⟨?_, hfrom, hrest⟩
        dsimp only
        omega
    · exact ascending_cons.mpr ⟨hp, fun f hf => hpx.trans (hfrom f hf), hrest⟩
  | case2 l hl =>
    match l, hl with
    | [], _ => exact h
    | [_], _ => exact h
    | [_, _], _ => exact h
    | p :: x :: y :: l, hl => exact absurd rfl (hl p x y l)

/-- The last two ranges of the list touch. A list with fewer than two has nothing to say. -/
def LastTouches : List (Ranged α) → Prop
  | [p, x] => p.1.2 = x.1.1
  | _ :: l => LastTouches l
  | [] => True

/-- With the last pair touching there is no hole between the first range and the end
of the last one. -/
theorem covered_withGaps {l : List (Ranged α)} (ht : LastTouches l) {first last : Ranged α}
    (hfirst : l.head? = some first) (hlast : l.getLast? = some last) {a : ℕ}
    (hlo : first.1.1 ≤ a) (hhi : a < last.1.2) : ∃ e ∈ withGaps fill l, Covers e a := by
  induction l using withGaps.induct generalizing first with
  | case1 p x y l ih =>
    obtain rfl := Option.some.inj hfirst
    rw [withGaps]
    -- in the first range, before the next, or further on
    by_cases hp : a < p.1.2
    · exact ⟨p, List.mem_cons_self, hlo, hp⟩
    by_cases hx : x.1.1 ≤ a
    · obtain ⟨e, he, hcov⟩ := ih ht rfl (by rwa [List.getLast?_cons_cons] at hlast) hx
      exact ⟨e, List.mem_cons_of_mem _ (List.mem_append_right _ he), hcov⟩
    · refine ⟨((p.1.2, x.1.1), fill), List.mem_cons_of_mem _ (List.mem_append_left _ ?_), ?_⟩
      · rw [gapBefore, if_pos (by omega)]
        exact List.mem_singleton_self _
      · exact ⟨not_lt.mp hp, not_le.mp hx⟩
  | case2 l hl =>
    -- two ranges are the last two, and these touch
    match l, hl with
    | [], _ => cases hfirst
    | [p], _ =>
      obtain rfl := Option.some.inj hfirst
      obtain rfl := Option.some.inj hlast
      exact ⟨p, List.mem_cons_self, hlo, hhi⟩
    | [p, x], _ =>
      obtain rfl := Option.some.inj hfirst
      obtain rfl := Option.some.inj hlast
      have htouch : p.1.2 = x.1.1 := ht
      by_cases hp : a < p.1.2
      · exact ⟨p, List.mem_cons_self, hlo, hp⟩
      · exact ⟨x, List.mem_cons_of_mem _ List.mem_cons_self, by omega, hhi⟩
    | p :: x :: y :: l, hl => exact absurd rfl (hl p x y l)

/-- A hole in front of the last range stays open: the number at which the last range but one ends
is in no range. -/
theorem hole_withGaps {l : List (Ranged α)} {p x : Ranged α} (h : Ascending (l ++ [p, x]))
    (hpx : p.1.2 < x.1.1) : ∀ e ∈ withGaps fill (l ++ [p, x]), ¬ Covers e p.1.2 := by
  induction l with
  | nil =>
    intro e he hcov
    rcases List.mem_pair.mp he with rfl | rfl
    · exact absurd hcov.2 (lt_irrefl _)
    · exact absurd hcov.1 (not_le.mpr hpx)
  | cons q l ih =>
    rw [List.cons_append] at h
    obtain ⟨hq, hql, hl⟩ := ascending_cons.mp h
    have hp : p ∈ l ++ [p, x] := List.mem_append_right _ List.mem_cons_self
    have hpne := hl.nonempty p hp
    have hqp := hql p hp
    -- the list behind `q` starts with some `y` at or before `p`
    obtain ⟨y, m, hym⟩ : ∃ y m, l ++ [p, x] = y :: m := by
      cases l with
      | nil => exact ⟨p, [x], rfl⟩
      | cons y l => exact ⟨y, l ++ [p, x], rfl⟩
    obtain ⟨z, n, hzn⟩ : ∃ z n, m = z :: n := by
      cases l with
      | nil =>
        obtain ⟨-, rfl⟩ := List.cons.inj hym
        exact ⟨x, [], rfl⟩
      | cons y' l =>
        obtain ⟨-, rfl⟩ := List.cons.inj hym
        cases l with
        | nil => exact ⟨p, [x], rfl⟩
        | cons z l => exact ⟨z, l ++ [p, x], rfl⟩
    have hyp : y.1.1 ≤ p.1.1 := by
      rw [hym] at hp hl
      rcases List.mem_cons.mp hp with rfl | hp
      · exact le_rfl
      · have hy := (ascending_cons.mp hl).1
        exact hy.le.trans ((ascending_cons.mp hl).2.1 p hp)
    intro e he hcov
    rw [List.cons_append, hym, hzn, withGaps, ← hzn, ← hym] at he
    rcases List.mem_cons.mp he with rfl | he
    · have h2 := hcov.2
      omega
    · rcases List.mem_append.mp he with he | he
      · unfold gapBefore at he
        split_ifs at he with hgap
        · rw [List.mem_singleton] at he
          subst he
          have h2 : p.1.2 < y.1.1 := hcov.2
          omega
        · exact absurd he List.not_mem_nil
      · exact ih hl e he hcov

theorem exists_of_not_lastTouches {l : List (Ranged α)} (h : ¬ LastTouches l) :
    ∃ m p x, l = m ++ [p, x] ∧ p.1.2 ≠ x.1.1 := by
  induction l with
  | nil => exact absurd trivial h
  | cons q l ih =>
    match l, ih, h with
    | [], _, h => exact absurd trivial h
    | [x], _, h => exact ⟨[], q, x, rfl, h⟩
    | x :: y :: l, ih, h =>
      obtain ⟨m, p, z, hm, hne⟩ := ih h
      exact ⟨q :: m, p, z, by rw [hm]; rfl, hne⟩

theorem lastTouches_cons {p q : Ranged α} {l : List (Ranged α)} :
    LastTouches (p :: q :: l) ↔ (l = [] → p.1.2 = q.1.1) ∧ LastTouches (q :: l) := by
  cases l with
  | nil => exact ⟨fun h => ⟨fun _ => h, trivial⟩, fun h => h.1 rfl⟩
  | cons x l => exact ⟨fun h => ⟨fun hnil => absurd hnil (List.cons_ne_nil x l), h⟩, fun h => h.2⟩

/-- Whether the last two ranges touch does not depend on the payloads. -/
theorem lastTouches_map {β : Type*} (f : α → β) (l : List (Ranged α)) :
    LastTouches (l.map fun e => (e.1, f e.2)) ↔ LastTouches l := by
  induction l with
  | nil => exact Iff.rfl
  | cons p l ih =>
    cases l with
    | nil => exact Iff.rfl
    | cons q l =>
      rw [List.map_cons] at ih ⊢
      rw [List.map_cons, lastTouches_cons, lastTouches_cons, List.map_eq_nil_iff]
      exact and_congr_right fun _ => ih

/-- A list gets a last range that touches the one before it, and then its last two ranges touch.
-/
theorem lastTouches_concat {l : List (Ranged α)} {last x : Ranged α}
    (hlast : l.getLast? = some last) (h : last.1.2 = x.1.1) : LastTouches (l ++ [x]) := by
  induction l with
  | nil => cases hlast
  | cons p l ih =>
    cases l with
    | nil =>
      obtain rfl := Option.some.inj hlast
      exact h
    | cons q l =>
      rw [List.getLast?_cons_cons] at hlast
      rw [List.cons_append, List.cons_append]
      refine lastTouches_cons.mpr ⟨fun hnil => ?_, ih hlast⟩
      simp at hnil

theorem snd_of_mem_gaps {l : List (Ranged α)} {e : Ranged α} (h : e ∈ gaps fill l) :
    e.2 = fill := by
  induction l using gaps.induct with
  | case1 p x y l ih =>
    rw [gaps, List.mem_append] at h
    rcases h with h | h
    · unfold gapBefore at h
      split_ifs at h
      · rw [List.mem_singleton] at h
        rw [h]
      · exact absurd h List.not_mem_nil
    · exact ih h
  | case2 l hl =>
    match l, hl with
    | [], _ => exact absurd h List.not_mem_nil
    | [_], _ => exact absurd h List.not_mem_nil
    | [_, _], _ => exact absurd h List.not_mem_nil
    | p :: x :: y :: l, hl => exact absurd rfl (hl p x y l)

/-- The gaps are those before the inner ranges, each behind the key before it. -/
theorem flatMap_gapBefore (l : List (Ranged α)) :
    ((l.drop 1).dropLast.zip (l.map Prod.fst)).flatMap (fun x => gapBefore fill x.2.2 x.1)
      = gaps fill l := by
  induction l using gaps.induct with
  | case1 p x y l ih =>
    rw [gaps, ← ih]
    rfl
  | case2 l hl =>
    match l, hl with
    | [], _ => rfl
    | [_], _ => rfl
    | [_, _], _ => rfl
    | p :: x :: y :: l, hl => exact absurd rfl (hl p x y l)

end AndroidTools.Ranges
