/-
Distances to the next multiple of a boundary.

`tillBoundary b x` is how far `x` has to move up to reach a multiple of `b`. It
is the only arithmetic an aligning allocator needs: the moved position is a
multiple (`dvd_add_tillBoundary`), it is the least one at or above `x`
(`add_tillBoundary_le`), and between two neighbouring multiples the move ends
exactly at the upper one (`add_tillBoundary_eq`).
-/
import Mathlib.Tactic

set_option autoImplicit false

namespace AndroidTools.Boundary

/-- How far `x` is from the next multiple of `b`; nothing when it is one. -/
def tillBoundary (b x : ℤ) : ℤ :=
  if 0 < x % b then b - x % b else 0

section Distance

variable {b x m : ℤ}

theorem tillBoundary_nonneg (hb : 0 < b) : 0 ≤ tillBoundary b x := by
  have hlt := Int.emod_lt_of_pos x hb
  unfold tillBoundary
  split_ifs with h
  · omega
  · rfl

theorem tillBoundary_lt (hb : 0 < b) : tillBoundary b x < b := by
  have hpos := Int.emod_nonneg x (show b ≠ 0 by omega)
  unfold tillBoundary
  split_ifs with h
  · omega
  · exact hb

/-- The moved position is on the boundary, also when `x` is negative. -/
theorem dvd_add_tillBoundary (hb : 0 < b) : b ∣ x + tillBoundary b x := by
  have hpos := Int.emod_nonneg x (show b ≠ 0 by omega)
  have hdiv := Int.emod_add_mul_ediv x b
  unfold tillBoundary
  split_ifs with h
  · refine ⟨x / b + 1, ?_⟩
    rw [mul_add, mul_one]
    omega
  · rw [add_zero]
    exact Int.dvd_of_emod_eq_zero (by omega)

/-- No multiple lies between `x` and the moved position, so a move never gives sectors away that
it could have kept. -/
theorem add_tillBoundary_le (hb : 0 < b) (hm : b ∣ m) (hx : x ≤ m) :
    x + tillBoundary b x ≤ m := by
  have hlt := tillBoundary_lt (x := x) hb
  obtain ⟨d, hd⟩ := (Int.dvd_sub hm (dvd_add_tillBoundary (x := x) hb))
  -- the two multiples differ by `b * d`, and `d < 0` would put `m` below `x`
  by_contra hcon
  have hneg : d < 0 := by
    by_contra hd0
    have := mul_nonneg hb.le (not_lt.mp hd0)
    omega
  have : b * d ≤ b * (-1) := mul_le_mul_of_nonneg_left (by omega) hb.le
  omega

/-- From inside a block the move ends at the end of the block. -/
theorem add_tillBoundary_eq (hb : 0 < b) (hm : b ∣ m) (hlo : m - b < x) (hhi : x ≤ m) :
    x + tillBoundary b x = m := by
  have hle := add_tillBoundary_le hb hm hhi
  have h0 := tillBoundary_nonneg (x := x) hb
  obtain ⟨d, hd⟩ := (Int.dvd_sub hm (dvd_add_tillBoundary (x := x) hb))
  by_contra hne
  have hpos : 0 < d := by
    by_contra hd0
    have : b * d ≤ b * 0 := mul_le_mul_of_nonneg_left (not_lt.mp hd0) hb.le
    omega
  have : b * 1 ≤ b * d := mul_le_mul_of_nonneg_left (by omega) hb.le
  omega

end Distance

end AndroidTools.Boundary
