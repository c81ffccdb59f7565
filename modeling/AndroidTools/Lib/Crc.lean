/-
CRC-32, the reflected bit-serial form.

The register is a 32-bit word that shifts right, the polynomial is `0x04C11DB7` bit-reversed, and
a byte enters by being added to the low end before eight shifts. `crcBits_inject` says a byte may
as well enter one bit at a time, at the shift that would have carried it out; a bit-serial
implementation works that way.

The definition is the one to compare implementations with, not one to run on megabytes. For the
few evaluations that a concrete image needs there is `crcRun`, which keeps the register as a
number between bytes.
-/
import Mathlib.Tactic

set_option autoImplicit false

namespace AndroidTools.Crc

/-- The generator polynomial with its bits in reverse, as a register needs it that shifts right.
-/
def polynomial : BitVec 32 := 0xEDB88320#32

/-- One shift of the register with a data bit entering at the low end. The bit that leaves decides
whether the polynomial is added. -/
def crcShift (c : BitVec 32) (d : Bool) : BitVec 32 :=
  if c.getLsbD 0 ^^ d then (c >>> 1) ^^^ polynomial else c >>> 1

/-- `n` shifts with no data. -/
def crcShifts : ℕ → BitVec 32 → BitVec 32
  | 0, c => c
  | n + 1, c => crcShift (crcShifts n c) false

/-- A byte enters the register: it is added to the low end, and eight shifts carry it through. -/
def crcByte (c : BitVec 32) (b : UInt8) : BitVec 32 :=
  crcShifts 8 (c ^^^ b.toBitVec.setWidth 32)

/-- The CRC-32 of a byte string: the register starts with all bits set, takes the bytes in, and is
inverted at the end. -/
def crc32 (bs : List UInt8) : ℕ :=
  (bs.foldl crcByte 0xFFFFFFFF#32 ^^^ 0xFFFFFFFF#32).toNat

/-- `n` shifts with the low bits of `b` entering in order. -/
def crcBits (b : BitVec 32) : ℕ → BitVec 32 → BitVec 32
  | 0, c => c
  | n + 1, c => crcShift (crcBits b n c) (b.getLsbD n)

/-- The low bit of a summand may as well enter as data, while the rest of it moves down with the
register. -/
theorem crcShift_xor (c b : BitVec 32) :
    crcShift (c ^^^ b) false = crcShift c (b.getLsbD 0) ^^^ (b >>> 1) := by
  have hsum : (c ^^^ b) >>> 1 = (c >>> 1) ^^^ (b >>> 1) := BitVec.ushiftRight_xor_distrib ..
  unfold crcShift
  rw [BitVec.getLsbD_xor, Bool.xor_false, hsum]
  split_ifs
  · rw [BitVec.xor_assoc, BitVec.xor_comm (b >>> 1), ← BitVec.xor_assoc]
  · rfl

/-- A word added before the shifts is its bits entering one by one, together with what has not
entered yet. -/
theorem crcShifts_xor (b c : BitVec 32) (n : ℕ) :
    crcShifts n (c ^^^ b) = crcBits b n c ^^^ (b >>> n) := by
  induction n with
  | zero => simp [crcShifts, crcBits]
  | succ n ih =>
    rw [crcShifts, ih, crcShift_xor, crcBits, BitVec.getLsbD_ushiftRight, Nat.add_zero,
      BitVec.shiftRight_add]

/-- **A byte may enter bit by bit.** Adding it before the eight shifts and adding one bit of it at
each shift lead to the same register. -/
theorem crcBits_inject (c : BitVec 32) (b : UInt8) :
    crcBits (b.toBitVec.setWidth 32) 8 c = crcByte c b := by
  have hgone : b.toBitVec.setWidth 32 >>> 8 = 0#32 := by
    apply BitVec.eq_of_getLsbD_eq
    intro i hi
    rw [BitVec.getLsbD_ushiftRight, BitVec.getLsbD_setWidth,
      BitVec.getLsbD_of_ge _ _ (by omega), Bool.and_false, BitVec.getLsbD_zero]
  rw [crcByte, crcShifts_xor, hgone, BitVec.xor_zero]

/-! ## Evaluation

The definition is about bit vectors, which are good to reason about and slow to evaluate.
`crcRun` is the same register as a number, so that a test on a few bytes can be closed by
computation; no proof about programs goes through it.
-/

/-- The register as a number. The match forces it at every byte, so the evaluation
of a long string does not nest. -/
def crcRun : ℕ → List UInt8 → ℕ
  | c, [] => c
  | c, b :: bs =>
    match (crcByte (BitVec.ofNat 32 c) b).toNat with
    | 0 => crcRun 0 bs
    | n + 1 => crcRun (n + 1) bs

theorem crcRun_eq (c : BitVec 32) (bs : List UInt8) :
    crcRun c.toNat bs = (bs.foldl crcByte c).toNat := by
  induction bs generalizing c with
  | nil => rfl
  | cons b bs ih =>
    rw [crcRun, BitVec.ofNat_toNat, BitVec.setWidth_eq, List.foldl_cons, ← ih]
    cases (crcByte c b).toNat <;> rfl

theorem crc32_eq_crcRun (bs : List UInt8) :
    crc32 bs = crcRun 0xFFFFFFFF bs ^^^ 0xFFFFFFFF := by
  rw [crc32, BitVec.toNat_xor, ← crcRun_eq]
  rfl

theorem crc32_lt (bs : List UInt8) : crc32 bs < 2 ^ 32 := BitVec.isLt _

end AndroidTools.Crc
