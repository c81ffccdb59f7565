/-
Lists of tries, `true` for a hit, of which the first misses are forgiven.

A loop that goes on in spite of the first few failures ends where it would have ended on the list
without them. `dropMisses` is that list, and `length_dropMisses` accounts for every try: it is
left in the list or it is one of the misses that were forgiven.
-/
import Mathlib.Tactic

set_option autoImplicit false

namespace AndroidTools.Tries

/-- The list of tries without its first `n` misses. The hits stay, and so do the misses behind the
first `n`. -/
def dropMisses : ℕ → List Bool → List Bool
  | 0, vs => vs
  | _ + 1, [] => []
  | n + 1, true :: vs => true :: dropMisses (n + 1) vs
  | n + 1, false :: vs => dropMisses n vs

theorem dropMisses_nil (n : ℕ) : dropMisses n [] = [] := by
  cases n <;> rfl

theorem dropMisses_true (n : ℕ) (vs : List Bool) :
    dropMisses n (true :: vs) = true :: dropMisses n vs := by
  cases n with
  | zero => rw [dropMisses, dropMisses]
  | succ n => rw [dropMisses]

/-- Every try is either left or forgiven, and as many are forgiven as there are misses, up to `n`.
-/
theorem length_dropMisses (n : ℕ) (vs : List Bool) :
    (dropMisses n vs).length + min n (vs.count false) = vs.length := by
  induction n, vs using dropMisses.induct with
  | case1 vs => rw [dropMisses, Nat.zero_min, Nat.add_zero]
  | case2 n => rw [dropMisses, List.count_nil, Nat.min_zero, Nat.add_zero]
  | case3 n vs ih =>
    rw [dropMisses, List.length_cons, List.length_cons, List.count_cons_of_ne (by decide)]
    omega
  | case4 n vs ih =>
    rw [dropMisses, List.length_cons, List.count_cons_self]
    omega

end AndroidTools.Tries
