/-
A ring of records, read from one place to another.

Records are followed by their lengths. Behind each the next valid one is searched in steps of
four, up to the last place where a record fits, and from the base again; a record of length zero
leads to the base, too. Reading stops at the last place, or with the second lap. The search does
not count its laps, so it goes round for ever where it meets neither a valid record nor the last
place; this and an endless chain of records are the only ways not to stop.

A ring is any function for the lengths and any set of valid places, and nothing in this module
knows about a log. `Lap` says how following the records from a place comes to an end, by rules
that are those of the machine, and `halts_iff_closes` is the exact condition for the machine to
stop.
-/
import AndroidTools.Lib.Halting

set_option autoImplicit false

namespace AndroidTools.Ramdump

open AndroidTools.Halting

/-- The addresses of the buffer and of its last place, and what is read from it. -/
structure RecordRing where
  base : ℕ
  last : ℕ
  buf_size : ℕ
  log_size : ℕ
  len : ℕ → ℕ
  valid : ℕ → Bool

/-- Where reading is: at a record, or in search of one. -/
inductive Place where
  | record (p : ℕ)
  | search (p : ℕ)
  deriving Repr, DecidableEq

namespace RecordRing

variable (r : RecordRing)

/-- From this place on no record fits into the buffer any more. -/
def Past (p : ℕ) : Prop := r.base + r.buf_size < p + r.log_size

instance (p : ℕ) : Decidable (r.Past p) := inferInstanceAs (Decidable (_ < _))

/-- A place at which the search stops: the last place, or a valid record. -/
def Stop (p : ℕ) : Prop := p = r.last ∨ r.valid p = true

/-- One step, with the number of times that the base was returned to. -/
def step : Place × ℕ → Option (Place × ℕ)
  | (.record p, wraps) =>
    if p ≠ r.last ∧ wraps < 2 then
      if r.len p = 0 then some (.search r.base, wraps + 1)
      else some (.search (p + r.len p), wraps)
    else none
  | (.search p, wraps) =>
    if p ≠ r.last ∧ r.valid p = false then
      if r.Past (p + 4) then some (.search r.base, wraps + 1) else some (.search (p + 4), wraps)
    else some (.record p, wraps)

/-- How a lap ends: at the last place, or by coming back to the base. -/
inductive LapEnd where
  | at_last
  | wrapped
  deriving Repr, DecidableEq

/-- Following the records from a place comes to an end: to the last place, or to a record
of length zero or the end of the buffer. -/
inductive Lap : Place → LapEnd → Prop
  | last {p : ℕ} : p = r.last → Lap (.record p) .at_last
  | empty {p : ℕ} : p ≠ r.last → r.len p = 0 → Lap (.record p) .wrapped
  | follow {p : ℕ} {e : LapEnd} : p ≠ r.last → r.len p ≠ 0 → Lap (.search (p + r.len p)) e →
      Lap (.record p) e
  | found {p : ℕ} {e : LapEnd} : r.Stop p → Lap (.record p) e → Lap (.search p) e
  | wrap {p : ℕ} : ¬ r.Stop p → r.Past (p + 4) → Lap (.search p) .wrapped
  | next {p : ℕ} {e : LapEnd} : ¬ r.Stop p → ¬ r.Past (p + 4) → Lap (.search (p + 4)) e →
      Lap (.search p) e

/-- A search that begins at the base meets a stop before it goes over the end of the buffer. -/
def HasStop : Prop := ∃ k, (k = 0 ∨ ¬ r.Past (r.base + 4 * k)) ∧ r.Stop (r.base + 4 * k)

/-- What lets reading stop: the first lap ends, and unless it ends at the last place there
is a stop to be met, and the lap from the base ends. -/
def Closes (first : ℕ) : Prop :=
  ∃ e, r.Lap (.record first) e ∧ (e = .wrapped → r.HasStop ∧ ∃ e', r.Lap (.search r.base) e')

section Steps

variable {r} {p wraps : ℕ}

theorem not_stop_iff : ¬ r.Stop p ↔ p ≠ r.last ∧ r.valid p = false := by
  rw [Stop, not_or, Bool.not_eq_true]

theorem step_last (h : p = r.last) : r.step (.record p, wraps) = none :=
  if_neg fun hand => hand.1 h

theorem step_second_lap (h : 2 ≤ wraps) : r.step (.record p, wraps) = none :=
  if_neg fun hand => absurd hand.2 (Nat.not_lt_of_le h)

theorem step_empty (hlast : p ≠ r.last) (hwraps : wraps < 2) (hlen : r.len p = 0) :
    r.step (.record p, wraps) = some (.search r.base, wraps + 1) := by
  rw [step, if_pos ⟨hlast, hwraps⟩, if_pos hlen]

theorem step_follow (hlast : p ≠ r.last) (hwraps : wraps < 2) (hlen : r.len p ≠ 0) :
    r.step (.record p, wraps) = some (.search (p + r.len p), wraps) := by
  rw [step, if_pos ⟨hlast, hwraps⟩, if_neg hlen]

theorem step_found (h : r.Stop p) : r.step (.search p, wraps) = some (.record p, wraps) := by
  rw [step, if_neg fun hand => not_stop_iff.mpr hand h]

theorem step_over (h : ¬ r.Stop p) (hpast : r.Past (p + 4)) :
    r.step (.search p, wraps) = some (.search r.base, wraps + 1) := by
  rw [step, if_pos (not_stop_iff.mp h), if_pos hpast]

theorem step_next (h : ¬ r.Stop p) (hpast : ¬ r.Past (p + 4)) :
    r.step (.search p, wraps) = some (.search (p + 4), wraps) := by
  rw [step, if_pos (not_stop_iff.mp h), if_neg hpast]

end Steps

/-! ## One lap

Before the second lap the machine only moves on through the ring, and `Lap` has a rule for
each way in which it does. So up to the end of the lap stopping and ending are the same.
-/

section Laps

variable {r} {pl : Place} {wraps : ℕ}

/-- A lap that ends at the last place stops the machine, -/
theorem halts_of_at_last {e : LapEnd} (h : r.Lap pl e) (he : e = .at_last) (hwraps : wraps < 2) :
    Halts r.step (pl, wraps) := by
  induction h with
  | last hlast => exact halts_of_none (step_last hlast)
  | empty => cases he
  | follow hlast hlen _ ih => exact (halts_iff_of_step (step_follow hlast hwraps hlen)).mpr (ih he)
  | found hstop _ ih => exact (halts_iff_of_step (step_found hstop)).mpr (ih he)
  | wrap => cases he
  | next hstop hpast _ ih => exact (halts_iff_of_step (step_next hstop hpast)).mpr (ih he)

/-- Before the second lap, a lap that ends by coming back leads to a search from the base, with
one lap more. -/
theorem halts_iff_of_wrapped {e : LapEnd} (h : r.Lap pl e) (he : e = .wrapped)
    (hwraps : wraps < 2) :
    Halts r.step (pl, wraps) ↔ Halts r.step (.search r.base, wraps + 1) := by
  induction h with
  | last => cases he
  | empty hlast hlen => exact halts_iff_of_step (step_empty hlast hwraps hlen)
  | follow hlast hlen _ ih =>
    exact (halts_iff_of_step (step_follow hlast hwraps hlen)).trans (ih he)
  | found hstop _ ih => exact (halts_iff_of_step (step_found hstop)).trans (ih he)
  | wrap hstop hpast => exact halts_iff_of_step (step_over hstop hpast)
  | next hstop hpast _ ih =>
    exact (halts_iff_of_step (step_next hstop hpast)).trans (ih he)

/-- Before the second lap, a lap ends with this step or goes on behind it. -/
theorem lap_or_step (r : RecordRing) (pl : Place) (hwraps : wraps < 2) :
    (∃ e, r.Lap pl e) ∨
      ∃ pl', r.step (pl, wraps) = some (pl', wraps) ∧ ∀ e, r.Lap pl' e → r.Lap pl e := by
  cases pl with
  | record p =>
    by_cases hlast : p = r.last
    · exact Or.inl ⟨_, .last hlast⟩
    · by_cases hlen : r.len p = 0
      · exact Or.inl ⟨_, .empty hlast hlen⟩
      · exact Or.inr ⟨_, step_follow hlast hwraps hlen, fun _ => .follow hlast hlen⟩
  | search p =>
    by_cases hstop : r.Stop p
    · exact Or.inr ⟨_, step_found hstop, fun _ => .found hstop⟩
    · by_cases hpast : r.Past (p + 4)
      · exact Or.inl ⟨_, .wrap hstop hpast⟩
      · exact Or.inr ⟨_, step_next hstop hpast, fun _ => .next hstop hpast⟩

/-- Before the second lap the machine stops only if its lap ends. -/
theorem lap_of_halts {s : Place × ℕ} (h : Halts r.step s) (hwraps : s.2 < 2) :
    ∃ e, r.Lap s.1 e := by
  revert hwraps
  refine h.induction (motive := fun s => s.2 < 2 → ∃ e, r.Lap s.1 e) ?_ ?_
  · rintro ⟨pl, wraps⟩ hnone hwraps
    rcases lap_or_step r pl hwraps with hlap | ⟨pl', hstep, -⟩
    · exact hlap
    · rw [hnone] at hstep
      cases hstep
  · rintro ⟨pl, wraps⟩ u hu ih hwraps
    rcases lap_or_step r pl hwraps with hlap | ⟨pl', hstep, hback⟩
    · exact hlap
    · obtain rfl := Option.some.inj (hu.symm.trans hstep)
      obtain ⟨e, he⟩ := ih hwraps
      exact ⟨e, hback e he⟩

end Laps

/-! ## The search from the base

With the second lap reading stops at the next place it comes to, but the search does not
look at the number of laps. Whether it meets a stop at all is a question about the places
from the base on.
-/

section Search

variable {r}

theorem past_mono {p q : ℕ} (h : p ≤ q) (hp : r.Past p) : r.Past q := by
  rw [Past] at hp ⊢
  omega

/-- Without a stop the search goes round for ever. -/
theorem not_halts_of_no_stop (h : ¬ r.HasStop) (wraps : ℕ) :
    ¬ Halts r.step (.search r.base, wraps) := by
  refine not_halts_of_invariant (I := fun s => ∃ k,
    s.1 = .search (r.base + 4 * k) ∧ (k = 0 ∨ ¬ r.Past (r.base + 4 * k))) ?_
    ⟨0, rfl, Or.inl rfl⟩
  rintro ⟨pl, wraps⟩ ⟨k, rfl, hk⟩
  have hstop : ¬ r.Stop (r.base + 4 * k) := fun hstop => h ⟨k, hk, hstop⟩
  by_cases hpast : r.Past (r.base + 4 * k + 4)
  · exact ⟨_, step_over hstop hpast, 0, rfl, Or.inl rfl⟩
  · exact ⟨_, step_next hstop hpast, k + 1, rfl, Or.inr hpast⟩

/-- With one the second lap comes to it and ends the reading. -/
theorem halts_of_stop {wraps : ℕ} (hwraps : 2 ≤ wraps) {p : ℕ} (j : ℕ)
    (hin : j = 0 ∨ ¬ r.Past (p + 4 * j)) (hstop : r.Stop (p + 4 * j)) :
    Halts r.step (.search p, wraps) := by
  induction j generalizing p with
  | zero =>
    exact (halts_iff_of_step (step_found hstop)).mpr (halts_of_none (step_second_lap hwraps))
  | succ j ih =>
    have hin := hin.resolve_left (Nat.succ_ne_zero j)
    have hshift : p + 4 * (j + 1) = p + 4 + 4 * j := by omega
    by_cases hhere : r.Stop p
    · exact (halts_iff_of_step (step_found hhere)).mpr (halts_of_none (step_second_lap hwraps))
    · have hroom : ¬ r.Past (p + 4) := fun hpast => hin (past_mono (by omega) hpast)
      rw [hshift] at hin hstop
      exact (halts_iff_of_step (step_next hhere hroom)).mpr (ih (Or.inr hin) hstop)

end Search

section Bounded

variable {r}

/-- Where the lengths are zero from some address on, every lap ends. -/
theorem lap_of_bounded {bound : ℕ} (h : ∀ p, bound ≤ p → r.len p = 0) (pl : Place) :
    ∃ e, r.Lap pl e := by
  -- What is left of the memory decreases; to search comes before to have found.
  let left : Place → ℕ := fun
    | .record p => 2 * (max bound (r.base + r.buf_size) - p)
    | .search p => 2 * (max bound (r.base + r.buf_size) - p) + 1
  induction hleft : left pl using Nat.strong_induction_on generalizing pl with
  | _ n ih =>
    cases pl with
    | record p =>
      by_cases hlast : p = r.last
      · exact ⟨_, .last hlast⟩
      · by_cases hlen : r.len p = 0
        · exact ⟨_, .empty hlast hlen⟩
        · have hlow : p < bound := by
            by_contra hge
            exact hlen (h p (by omega))
          obtain ⟨e, he⟩ := ih (left (.search (p + r.len p))) (by dsimp only [left] at *; omega)
            (.search (p + r.len p)) rfl
          exact ⟨e, .follow hlast hlen he⟩
    | search p =>
      by_cases hstop : r.Stop p
      · obtain ⟨e, he⟩ := ih (left (.record p)) (by dsimp only [left] at *; omega) (.record p) rfl
        exact ⟨e, .found hstop he⟩
      · by_cases hpast : r.Past (p + 4)
        · exact ⟨_, .wrap hstop hpast⟩
        · obtain ⟨e, he⟩ := ih (left (.search (p + 4)))
            (by rw [Past] at hpast; dsimp only [left] at *; omega) (.search (p + 4)) rfl
          exact ⟨e, .next hstop hpast he⟩

/-- Where records end somewhere, only the search can fail to end. -/
theorem closes_iff_of_bounded {bound : ℕ} (h : ∀ p, bound ≤ p → r.len p = 0) (first : ℕ) :
    r.Closes first ↔ r.Lap (.record first) .at_last ∨ r.HasStop := by
  constructor
  · rintro ⟨e, he, hclose⟩
    cases e with
    | at_last => exact Or.inl he
    | wrapped => exact Or.inr (hclose rfl).1
  · rintro (hlast | hstop)
    · exact ⟨_, hlast, fun hwrapped => by cases hwrapped⟩
    · obtain ⟨e, he⟩ := lap_of_bounded h (.record first)
      exact ⟨e, he, fun _ => ⟨hstop, lap_of_bounded h _⟩⟩

end Bounded

/-- **Reading stops exactly if its laps end and the search has a stop to come to.** For any ring
and any first record. -/
theorem halts_iff_closes (r : RecordRing) (first : ℕ) :
    Halts r.step (.record first, 0) ↔ r.Closes first := by
  constructor
  · intro h
    obtain ⟨e, he⟩ := lap_of_halts h (by decide : (0 : ℕ) < 2)
    refine ⟨e, he, fun hwrapped => ?_⟩
    -- the second lap starts at the base and has to end, too
    have hnext := (halts_iff_of_wrapped he hwrapped (by decide)).mp h
    refine ⟨?_, lap_of_halts hnext (by decide : (1 : ℕ) < 2)⟩
    by_contra hno
    exact not_halts_of_no_stop hno _ hnext
  · rintro ⟨e, he, hclose⟩
    cases e with
    | at_last => exact halts_of_at_last he rfl (by decide)
    | wrapped =>
      obtain ⟨⟨k, hin, hstop⟩, e', he'⟩ := hclose rfl
      rw [halts_iff_of_wrapped he rfl (by decide)]
      cases e' with
      | at_last => exact halts_of_at_last he' rfl (by decide)
      | wrapped =>
        -- back at the base for the second time, the first record found is the end
        rw [halts_iff_of_wrapped he' rfl (by decide)]
        exact halts_of_stop (by decide) k hin hstop

end RecordRing

end AndroidTools.Ramdump
