/-
Halving a window of indices.

Two loops that look for a border in a sorted table by looking at the middle of what is left.
`partition_point` closes in on the index where a predicate ends, `last_before` on the last index
where it holds, of a window whose first index is taken to be one. They differ in what they keep:
the first leaves the middle out when the predicate holds there, the second keeps it, and so the
second stops at a window of one index instead of none.

Neither asks for more than that the predicate, once it fails in the window, fails from there on
(`EndsOnce`). That the table is sorted is how a caller gets this, and nothing here knows of it.
-/
import Mathlib.Tactic

set_option autoImplicit false

namespace AndroidTools.Bisect

variable (p : ℕ → Bool)

/-- The loop `mid = start + ((stop - start) >> 1)`, with `start = mid + 1` where `p` holds
and `stop = mid` where it does not. -/
def partition_point (start stop : ℕ) : ℕ :=
  if _h : start < stop then
    let mid := start + (stop - start) / 2
    if p mid then partition_point (mid + 1) stop else partition_point start mid
  else stop
termination_by stop - start

/-- The loop with `start = mid` where `p` holds, down to a window of one index. -/
def last_before (start stop : ℕ) : ℕ :=
  if _h : start + 1 < stop then
    let mid := start + (stop - start) / 2
    if p mid then last_before mid stop else last_before start mid
  else start
termination_by stop - start

variable {p}

/-- The predicate holds up to some index of the window and fails from there on. This is all that a
search by halving needs of what it searches. -/
def EndsOnce (p : ℕ → Bool) (start stop : ℕ) : Prop :=
  ∀ i j, start ≤ i → i ≤ j → j < stop → p j = true → p i = true

theorem EndsOnce.mono {start stop start' stop' : ℕ} (h : EndsOnce p start stop)
    (hstart : start ≤ start') (hstop : stop' ≤ stop) : EndsOnce p start' stop' :=
  fun i j hi hij hj => h i j (hstart.trans hi) hij (hj.trans_le hstop)

theorem partition_point_le {start stop : ℕ} (hle : start ≤ stop) :
    partition_point p start stop ≤ stop := by
  fun_induction partition_point p start stop with
  | case1 start stop hlt mid hp ih => exact ih (by omega)
  | case2 start stop hlt mid hp ih =>
    have hmid : mid ≤ stop := by omega
    exact (ih (by omega)).trans hmid
  | case3 start stop hlt => exact le_rfl

/-- The point is in the window, or just behind it; before it the predicate holds, and from it on
it fails. -/
theorem partition_point_spec (start stop : ℕ) (hle : start ≤ stop) (h : EndsOnce p start stop) :
    start ≤ partition_point p start stop ∧
      (∀ i, start ≤ i → i < partition_point p start stop → p i = true) ∧
      ∀ i, partition_point p start stop ≤ i → i < stop → p i = false := by
  fun_induction partition_point p start stop with
  | case1 start stop hlt mid hp ih =>
    obtain ⟨hlow, hbefore, hafter⟩ := ih (by omega) (h.mono (by omega) le_rfl)
    refine ⟨by omega, fun i hi hlt' => ?_, hafter⟩
    rcases Nat.lt_or_ge mid i with hmid | hmid
    · exact hbefore i hmid hlt'
    · exact h i mid hi hmid (by omega) hp
  | case2 start stop hlt mid hp ih =>
    obtain ⟨hlow, hbefore, hafter⟩ := ih (by omega) (h.mono le_rfl (by omega))
    refine ⟨hlow, hbefore, fun i hi hlt' => ?_⟩
    rcases Nat.lt_or_ge i mid with hmid | hmid
    · exact hafter i hi hmid
    · -- what holds behind `mid` holds at `mid`
      by_contra htrue
      exact hp (h mid i (by omega) hmid hlt' (Bool.not_eq_false _ ▸ htrue))
  | case3 start stop hlt =>
    exact ⟨by omega, fun i hi hlt' => absurd hlt' (by omega),
      fun i hi hlt' => absurd hlt' (by omega)⟩

/-- Whether the predicate holds at an index of the window can be read off the point alone, which
is how a table is used that was searched once. -/
theorem lt_partition_point_iff {start stop i : ℕ} (h : EndsOnce p start stop) (hi : start ≤ i)
    (hlt : i < stop) : i < partition_point p start stop ↔ p i = true := by
  obtain ⟨-, hbefore, hafter⟩ := partition_point_spec start stop (hi.trans hlt.le) h
  constructor
  · exact hbefore i hi
  · intro hp
    by_contra hge
    rw [hafter i (by omega) hlt] at hp
    cases hp

/-- The index is in the window, the predicate holds there or it is the first one, and behind it
the predicate fails. The first index is never asked about. -/
theorem last_before_spec (start stop : ℕ) (hlt : start < stop) (h : EndsOnce p start stop) :
    start ≤ last_before p start stop ∧ last_before p start stop < stop ∧
      (last_before p start stop = start ∨ p (last_before p start stop) = true) ∧
      ∀ i, last_before p start stop < i → i < stop → p i = false := by
  fun_induction last_before p start stop with
  | case1 start stop hwin mid hp ih =>
    obtain ⟨hlow, hhigh, hat, hafter⟩ := ih (by omega) (h.mono (by omega) le_rfl)
    refine ⟨by omega, hhigh, .inr ?_, hafter⟩
    rcases hat with hat | hat
    · rw [hat]
      exact hp
    · exact hat
  | case2 start stop hwin mid hp ih =>
    obtain ⟨hlow, hhigh, hat, hafter⟩ := ih (by omega) (h.mono le_rfl (by omega))
    refine ⟨hlow, by omega, hat, fun i hi hlt' => ?_⟩
    rcases Nat.lt_or_ge i mid with hmid | hmid
    · exact hafter i hi hmid
    · by_contra htrue
      exact hp (h mid i (by omega) hmid hlt' (Bool.not_eq_false _ ▸ htrue))
  | case3 start stop hwin =>
    exact ⟨le_rfl, hlt, .inl rfl, fun i hi hlt' => absurd hlt' (by omega)⟩

end AndroidTools.Bisect
