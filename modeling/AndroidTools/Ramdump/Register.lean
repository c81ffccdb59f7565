/-
`bitops.py` and the fields of `register.py`.

A field is a pair `(msb, lsb)` of a register value. Reading masks and shifts; assigning clears the
field and ors the shifted operand in, without masking the operand, so an operand too large for its
field runs over into the bits above. `write_field_eq` is the assignment of an operand that fits.

The translators keep addresses in such registers and assign their indices field by field, so these
few lemmas are what their proofs rest on: reading a field is dividing and taking a remainder, and
assigning one field leaves the others alone as long as the operand fits.
-/
import Mathlib.Data.Nat.Bitwise
import Mathlib.Tactic

set_option autoImplicit false

namespace AndroidTools.Ramdump

/-- The key of a field, its highest and its lowest bit. -/
abbrev BitRange := ℕ × ℕ

/-- `bm`, the mask of a field. -/
def bm (msb lsb : ℕ) : ℕ := (2 ^ (msb + 1 - lsb) - 1) <<< lsb

/-- `bvalsel`, the value of a field. -/
def bvalsel (msb lsb val : ℕ) : ℕ := (val &&& bm msb lsb) >>> lsb

/-- `Register.__getattr__` of a value other than `None`. -/
def read_field (value : ℕ) (f : BitRange) : ℕ := bvalsel f.1 f.2 value

/-- `Register.__setattr__`: `val & ~bm | newvalue << lsb`. -/
def write_field (value : ℕ) (f : BitRange) (newvalue : ℕ) : ℕ :=
  Nat.ldiff value (bm f.1 f.2) ||| newvalue <<< f.2

/-! ## Reading

A field is read with a mask and a shift, which is a division and a remainder.
-/

theorem bvalsel_eq (msb lsb val : ℕ) :
    bvalsel msb lsb val = val / 2 ^ lsb % 2 ^ (msb + 1 - lsb) := by
  rw [bvalsel, bm, Nat.shiftRight_and_distrib, Nat.shiftLeft_shiftRight,
    Nat.and_two_pow_sub_one_eq_mod, Nat.shiftRight_eq_div_pow]

theorem read_field_eq (value : ℕ) (f : BitRange) :
    read_field value f = value / 2 ^ f.2 % 2 ^ (f.1 + 1 - f.2) := bvalsel_eq ..

theorem read_field_lt (value : ℕ) (f : BitRange) : read_field value f < 2 ^ (f.1 + 1 - f.2) := by
  rw [read_field_eq]
  exact Nat.mod_lt _ (by positivity)

/-- A field down to bit 0 is a remainder. -/
theorem read_field_low (value n : ℕ) (hn : 0 < n) :
    read_field value (n - 1, 0) = value % 2 ^ n := by
  have h : n - 1 + 1 - 0 = n := by omega
  rw [read_field_eq, h, pow_zero, Nat.div_one]

/-! ## Assigning

Assigning ors the shifted operand in. For an operand that fits, and for one above a field
that is clear, the result is a sum.
-/

theorem testBit_bm (msb lsb i : ℕ) : (bm msb lsb).testBit i = decide (lsb ≤ i ∧ i ≤ msb) := by
  rw [bm, Nat.testBit_shiftLeft, Nat.testBit_two_pow_sub_one]
  by_cases h : lsb ≤ i
  · have hiff : i - lsb < msb + 1 - lsb ↔ i ≤ msb := by omega
    simp only [ge_iff_le, h, decide_true, Bool.true_and, true_and, hiff]
  · simp only [ge_iff_le, h, decide_false, Bool.false_and, false_and]

theorem write_field_zero (f : BitRange) (new : ℕ) : write_field 0 f new = new * 2 ^ f.2 := by
  have h0 : Nat.ldiff 0 (bm f.1 f.2) = 0 := by
    apply Nat.eq_of_testBit_eq
    intro i
    rw [Nat.testBit_ldiff, Nat.zero_testBit, Bool.false_and]
  rw [write_field, h0, Nat.zero_or, Nat.shiftLeft_eq]

/-- Assigning a field of which nothing is set, the operand of any size. -/
theorem write_field_multiple {n lsb : ℕ} (hn : 0 < n) (a new : ℕ) :
    write_field (a * 2 ^ n) (n - 1, lsb) new = a <<< n ||| new <<< lsb := by
  have hclear : Nat.ldiff (a * 2 ^ n) (bm (n - 1) lsb) = a <<< n := by
    apply Nat.eq_of_testBit_eq
    intro i
    rw [Nat.testBit_ldiff, testBit_bm, ← Nat.shiftLeft_eq, Nat.testBit_shiftLeft]
    by_cases hi : n ≤ i
    · have hout : ¬ (lsb ≤ i ∧ i ≤ n - 1) := by omega
      simp only [hout, decide_false, Bool.not_false, Bool.and_true]
    · simp only [ge_iff_le, hi, decide_false, Bool.false_and]
  rw [write_field, hclear]

/-- A value set above bit `n` only, with the bits of `virt` then assigned below. -/
theorem write_offset_eq {n : ℕ} (hn : 0 < n) (msb new virt : ℕ) :
    write_field (write_field 0 (msb, n) new) (n - 1, 0)
        (read_field (write_field 0 (msb, n) new) (n - 1, 0) ||| read_field virt (n - 1, 0))
      = new * 2 ^ n + virt % 2 ^ n := by
  have hlt : virt % 2 ^ n < 2 ^ n := Nat.mod_lt _ (by positivity)
  rw [write_field_zero, read_field_low _ n hn, read_field_low _ n hn, Nat.mul_mod_left,
    Nat.zero_or, write_field_multiple hn, Nat.shiftLeft_zero,
    ← Nat.shiftLeft_add_eq_or_of_lt hlt, Nat.shiftLeft_eq]

/-- Assigning an operand that fits its field leaves the bits above and below. -/
theorem write_field_eq {msb lsb new : ℕ} (hle : lsb ≤ msb + 1) (value : ℕ)
    (hnew : new < 2 ^ (msb + 1 - lsb)) :
    write_field value (msb, lsb) new
      = value / 2 ^ (msb + 1) * 2 ^ (msb + 1) + (new * 2 ^ lsb + value % 2 ^ lsb) := by
  have hlow : value % 2 ^ lsb < 2 ^ lsb := Nat.mod_lt _ (by positivity)
  have hmid : new * 2 ^ lsb + value % 2 ^ lsb < 2 ^ (msb + 1) := by
    have hpow : 2 ^ (msb + 1) = 2 ^ (msb + 1 - lsb) * 2 ^ lsb := by
      rw [← pow_add, Nat.sub_add_cancel hle]
    calc new * 2 ^ lsb + value % 2 ^ lsb < new * 2 ^ lsb + 2 ^ lsb := by omega
      _ = (new + 1) * 2 ^ lsb := by ring
      _ ≤ 2 ^ (msb + 1) := hpow ▸ Nat.mul_le_mul_right _ hnew
  rw [← Nat.shiftLeft_eq, Nat.shiftLeft_add_eq_or_of_lt hmid, ← Nat.shiftLeft_eq,
    Nat.shiftLeft_add_eq_or_of_lt hlow]
  apply Nat.eq_of_testBit_eq
  intro i
  simp only [write_field, Nat.testBit_or, Nat.testBit_ldiff, testBit_bm, Nat.testBit_shiftLeft,
    Nat.testBit_mod_two_pow, Nat.testBit_div_two_pow]
  by_cases hhigh : msb + 1 ≤ i
  · -- above the field the old value stays and the operand has no bits
    have hback : i - (msb + 1) + (msb + 1) = i := by omega
    have hnone : new.testBit (i - lsb) = false :=
      Nat.testBit_lt_two_pow (hnew.trans_le (Nat.pow_le_pow_right (by norm_num) (by omega)))
    have hout : ¬ i ≤ msb := by omega
    have hin : ¬ i < lsb := by omega
    simp [hhigh, hback, hnone, hout, hin]
  · by_cases hlsb : lsb ≤ i
    · have hin : lsb ≤ i ∧ i ≤ msb := by omega
      have hout : ¬ i < lsb := by omega
      simp [hhigh, hin, hout]
    · have hin : ¬ (lsb ≤ i ∧ i ≤ msb) := by omega
      have hlt : i < lsb := by omega
      simp [hhigh, hlsb, hlt]

end AndroidTools.Ramdump
