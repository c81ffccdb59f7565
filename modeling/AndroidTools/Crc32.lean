/-
`reflect` and `CalcCRC32`, the same text in `ptool.py` and `msp.py`.

The loop shifts a register left and takes the bits of a bit-reversed byte from the top; at the end
the register itself is reversed. Seen in the mirror this is the right-shifting register of the
CRC-32 library, and `calc_bytes_eq_crc32` is that observation: `reflect` is `BitVec.reverse`, one
pass of the inner loop is `crcShift` on the reversed register, and eight passes are a byte.

Both programs index an array with a length that is handed over separately, and raise where the
array is shorter. `calc_loop_eq` turns the index loop into the fold over the bytes it reads, so
the rest of the development uses `crc32` of a list and never comes back to the loops.
-/
import AndroidTools.Lib.Crc

set_option autoImplicit false

namespace AndroidTools.Crc32

open AndroidTools.Crc

/-- `reflect`: the lowest `nBits` bits of `data` in the opposite order. -/
def reflect (data nBits : ℕ) : ℕ :=
  ((List.range nBits).foldl (fun s bit =>
    (if s.2 &&& 1 = 1 then s.1 ||| (1 <<< (nBits - 1 - bit)) else s.1, s.2 >>> 1))
    (0, data)).1

/-- One pass of the inner loop, on `regs` and `DataByte`: both are shifted to the left, and the
polynomial goes in where their highest bits differ. -/
def calc_bit (s : ℕ × ℕ) : ℕ × ℕ :=
  let msb := (s.2 >>> 7) &&& 1
  let regsMSB := (s.1 >>> 31) &&& 1
  let regs := s.1 <<< 1
  let regs := if regsMSB ^^^ msb ≠ 0 then regs ^^^ 0x04C11DB7 else regs
  (regs &&& 0xFFFFFFFF, s.2 <<< 1)

/-- One pass of the outer loop: the byte is reflected and its bits are taken from the top. -/
def calc_byte (regs : ℕ) (b : UInt8) : ℕ :=
  ((List.range 8).foldl (fun s _ => calc_bit s) (regs, reflect b.toNat 8)).1

/-- `CalcCRC32` of exactly these bytes: the register starts with all bits set, and is reflected
and inverted at the end. -/
def calc_bytes (bs : List UInt8) : ℕ :=
  reflect (bs.foldl calc_byte 0xFFFFFFFF &&& 0xFFFFFFFF) 32 ^^^ 0xFFFFFFFF

/-- `CalcCRC32(array, Len)`; `array[i]` raises past the end. -/
def calc_crc32 (array : List UInt8) (len : ℕ) : Option ℕ :=
  if len ≤ array.length then some (calc_bytes (array.take len)) else none

/-! ## `reflect`

The source reverses the bits of a word by a loop over its bits. The invariant says, after
`t` passes, which bit of the word each bit of the result is.
-/

/-- Bit `i` of the reflection after `t` passes. -/
theorem reflect_loop (data nBits t : ℕ) (ht : t ≤ nBits) :
    let s := (List.range t).foldl (fun (s : ℕ × ℕ) bit =>
      (if s.2 &&& 1 = 1 then s.1 ||| (1 <<< (nBits - 1 - bit)) else s.1, s.2 >>> 1)) (0, data)
    s.2 = data >>> t ∧
      ∀ i, s.1.testBit i
        = (decide (nBits - t ≤ i ∧ i < nBits) && data.testBit (nBits - 1 - i)) := by
  induction t with
  | zero =>
    refine ⟨rfl, fun i => ?_⟩
    simp
  | succ t ih =>
    obtain ⟨ih₂, ih₁⟩ := ih (by omega)
    rw [List.range_succ, List.foldl_append, List.foldl_cons, List.foldl_nil]
    refine ⟨?_, fun i => ?_⟩
    · dsimp only
      rw [ih₂, ← Nat.shiftRight_add]
    · have hbit : (data >>> t &&& 1 = 1) ↔ data.testBit t = true := by
        rw [Nat.testBit, Nat.and_comm 1]
        rcases Nat.and_one_is_mod (data >>> t) ▸ Nat.mod_two_eq_zero_or_one (data >>> t) with
          h | h <;> simp [h]
      dsimp only
      rw [ih₂]
      by_cases hi : i = nBits - 1 - t
      · -- the bit this pass may set
        subst hi
        have hin : nBits - (t + 1) ≤ nBits - 1 - t ∧ nBits - 1 - t < nBits := by omega
        have hback : nBits - 1 - (nBits - 1 - t) = t := by omega
        have hout : ¬ (nBits - t ≤ nBits - 1 - t ∧ nBits - 1 - t < nBits) := by omega
        have hold := ih₁ (nBits - 1 - t)
        simp only [hout, decide_false, Bool.false_and] at hold
        simp only [hin, and_self, decide_true, Bool.true_and, hback]
        split_ifs with h
        · rw [Nat.testBit_or, hold, Nat.one_shiftLeft, Nat.testBit_two_pow_self, hbit.mp h]
          rfl
        · rw [hold]
          have hf : ¬ data.testBit t = true := fun hc => h (hbit.mpr hc)
          simpa using hf
      · have hiff : (nBits - (t + 1) ≤ i ∧ i < nBits) ↔ (nBits - t ≤ i ∧ i < nBits) := by omega
        simp only [hiff]
        rw [← ih₁ i]
        split_ifs with h
        · rw [Nat.testBit_or, Nat.one_shiftLeft, Nat.testBit_two_pow,
            decide_eq_false (fun hc => hi hc.symm), Bool.or_false]
        · rfl

/-- `reflect` of a word of `n` bits is the word reversed. -/
theorem reflect_toNat {n : ℕ} (x : BitVec n) : reflect x.toNat n = x.reverse.toNat := by
  obtain ⟨-, h⟩ := reflect_loop x.toNat n n le_rfl
  apply Nat.eq_of_testBit_eq
  intro i
  rw [reflect, h i, Nat.sub_self]
  simp only [BitVec.testBit_toNat, BitVec.getLsbD_reverse, BitVec.getMsbD]
  simp

/-! ## The register in the mirror

The source reflects every byte, shifts to the left and reflects the register at the end; the
library shifts to the right and reflects nothing. Reversing the register at every step turns
one into the other, so each definition of the source has a lemma that says what it is in the
mirror, from one bit up to the whole list. `& 0xFFFFFFFF` is what makes an unbounded Python
integer a register of 32 bits.
-/

theorem reverse_xor {n : ℕ} (x y : BitVec n) :
    (x ^^^ y).reverse = x.reverse ^^^ y.reverse := by
  apply BitVec.eq_of_getLsbD_eq
  intro i hi
  simp only [BitVec.getLsbD_xor, BitVec.getLsbD_reverse, BitVec.getMsbD, hi, decide_true,
    Bool.true_and]

theorem reverse_shiftLeft_one (x : BitVec 32) : (x <<< 1).reverse = x.reverse >>> 1 := by
  apply BitVec.eq_of_getLsbD_eq
  intro i hi
  rw [BitVec.getLsbD_reverse, BitVec.getLsbD_ushiftRight, BitVec.getLsbD_reverse, BitVec.getMsbD,
    BitVec.getMsbD, BitVec.getLsbD_shiftLeft]
  by_cases h : i = 31
  · subst h
    simp
  · have h1 : 32 - 1 - i - 1 = 32 - 1 - (1 + i) := by omega
    have h2 : ¬ (32 - 1 - i < 1) := by omega
    have h3 : 1 + i < 32 := by omega
    simp [hi, h1, h2, h3]
    omega

/-- `regs & 0xFFFFFFFF` keeps the low 32 bits. -/
theorem and_mask (n : ℕ) : n &&& 0xFFFFFFFF = n % 2 ^ 32 := Nat.and_two_pow_sub_one_eq_mod n 32

theorem shiftRight_and_one (n k : ℕ) : n >>> k &&& 1 = (n.testBit k).toNat := by
  rw [Nat.testBit, Nat.and_comm 1]
  rcases Nat.and_one_is_mod (n >>> k) ▸ Nat.mod_two_eq_zero_or_one (n >>> k) with h | h <;>
    simp [h]

/-- One pass of the inner loop, on the mirrored register, is one step of the CRC-32 library. -/
theorem calc_bit_fst (c : BitVec 32) (d : ℕ) :
    (calc_bit (c.reverse.toNat, d)).1 = (crcShift c (d.testBit 7)).reverse.toNat := by
  have hpoly : (0x04C11DB7 : ℕ) = polynomial.reverse.toNat := by decide +kernel
  have htop : c.reverse.toNat.testBit 31 = c.getLsbD 0 := by
    rw [BitVec.testBit_toNat, BitVec.getLsbD_reverse, BitVec.getMsbD]
    simp
  have hshift : c.reverse.toNat <<< 1 % 2 ^ 32 = (c >>> 1).reverse.toNat := by
    rw [← BitVec.toNat_shiftLeft]
    congr 1
    have := reverse_shiftLeft_one c.reverse
    rw [BitVec.reverse_reverse_eq] at this
    rw [← this, BitVec.reverse_reverse_eq]
  have hcond : (c.getLsbD 0).toNat ^^^ (d.testBit 7).toNat ≠ 0 ↔
      (c.getLsbD 0 ^^ d.testBit 7) = true := by
    cases c.getLsbD 0 <;> cases d.testBit 7 <;> decide
  simp only [calc_bit, shiftRight_and_one, htop, and_mask, crcShift, hcond]
  split_ifs with h
  · rw [Nat.xor_mod_two_pow, hshift, reverse_xor, BitVec.toNat_xor, hpoly]
    congr 1
  · exact hshift

theorem calc_bit_snd (s : ℕ × ℕ) : (calc_bit s).2 = s.2 <<< 1 := rfl

/-- The inner loop takes the bits of the byte from the lowest up. -/
theorem calc_byte_loop (c : BitVec 32) (b : UInt8) (n : ℕ) (hn : n ≤ 8) :
    (List.range n).foldl (fun s _ => calc_bit s) (c.reverse.toNat, reflect b.toNat 8) =
      ((crcBits (b.toBitVec.setWidth 32) n c).reverse.toNat, reflect b.toNat 8 <<< n) := by
  induction n with
  | zero => rfl
  | succ n ih =>
    rw [List.range_succ, List.foldl_append, ih (by omega), List.foldl_cons, List.foldl_nil]
    have hbit : (reflect b.toNat 8 <<< n).testBit 7 = (b.toBitVec.setWidth 32).getLsbD n := by
      have hr : reflect b.toNat 8 = b.toBitVec.reverse.toNat := reflect_toNat b.toBitVec
      rw [Nat.testBit_shiftLeft, hr, BitVec.testBit_toNat, BitVec.getLsbD_reverse,
        BitVec.getMsbD, BitVec.getLsbD_setWidth]
      have h1 : 8 - 1 - (7 - n) = n := by omega
      have h2 : 7 - n < 8 := by omega
      have h3 : n ≤ 7 := by omega
      have h4 : n < 32 := by omega
      rw [h1]
      simp [h2, h3, h4]
    refine Prod.ext ?_ ?_
    · rw [calc_bit_fst, hbit, crcBits]
    · rw [calc_bit_snd, ← Nat.shiftLeft_add]

theorem calc_byte_eq (c : BitVec 32) (b : UInt8) :
    calc_byte c.reverse.toNat b = (crcByte c b).reverse.toNat := by
  rw [calc_byte, calc_byte_loop c b 8 le_rfl, crcBits_inject]

theorem calc_fold_eq (c : BitVec 32) (bs : List UInt8) :
    bs.foldl calc_byte c.reverse.toNat = (bs.foldl crcByte c).reverse.toNat := by
  induction bs generalizing c with
  | nil => rfl
  | cons b bs ih => rw [List.foldl_cons, List.foldl_cons, calc_byte_eq, ih]

/-- **`CalcCRC32` is CRC-32.** For every list of bytes the register that shifts to the left gives
what the right-shifting one of the library gives. -/
theorem calc_bytes_eq_crc32 (bs : List UInt8) : calc_bytes bs = crc32 bs := by
  have hinit : (0xFFFFFFFF : ℕ) = (0xFFFFFFFF#32 : BitVec 32).reverse.toNat := by
    decide +kernel
  have hfold : bs.foldl calc_byte 0xFFFFFFFF
      = (bs.foldl crcByte 0xFFFFFFFF#32).reverse.toNat := by
    conv_lhs => rw [hinit]
    exact calc_fold_eq _ bs
  have hmask : (bs.foldl crcByte 0xFFFFFFFF#32).reverse.toNat % 2 ^ 32
      = (bs.foldl crcByte 0xFFFFFFFF#32).reverse.toNat := Nat.mod_eq_of_lt (BitVec.isLt _)
  rw [calc_bytes, hfold, and_mask, hmask, reflect_toNat, BitVec.reverse_reverse_eq, crc32,
    BitVec.toNat_xor]
  rfl

/-- A length inside the array gives the CRC-32 of that many bytes. -/
theorem calc_crc32_of_le {array : List UInt8} {len : ℕ} (h : len ≤ array.length) :
    calc_crc32 array len = some (crc32 (array.take len)) := by
  rw [calc_crc32, if_pos h, calc_bytes_eq_crc32]

/-! ## The two copies

`ptool.py` and `msp.py` hold the function twice. The loop over indices raises where `Len`
goes past the end of the array, and within the array it is the fold over the first `Len`
bytes.
-/

/-- `regs` after the passes `i < len`; `array[i]` raises past the end. -/
def calc_loop (array : List UInt8) : ℕ → Option ℕ
  | 0 => some 0xFFFFFFFF
  | i + 1 => do
    let regs ← calc_loop array i
    let b ← array[i]?
    return calc_byte regs b

/-- `CalcCRC32` of `ptool.py`. -/
def ptool_calc_crc32 (array : List UInt8) (len : ℕ) : Option ℕ := do
  let regs ← calc_loop array len
  let regs := regs &&& 0xFFFFFFFF
  return reflect regs 32 ^^^ 0xFFFFFFFF

/-- `CalcCRC32` of `msp.py`, whose text is the same. -/
def msp_calc_crc32 (array : List UInt8) (len : ℕ) : Option ℕ := ptool_calc_crc32 array len

/-- The index loop is the fold over the bytes it reads. -/
theorem calc_loop_eq (array : List UInt8) (len : ℕ) :
    calc_loop array len
      = if len ≤ array.length then some ((array.take len).foldl calc_byte 0xFFFFFFFF)
        else none := by
  induction len with
  | zero => rfl
  | succ i ih =>
    rw [calc_loop, ih]
    by_cases hi : i < array.length
    · rw [if_pos hi.le, if_pos (by omega), List.getElem?_eq_getElem hi,
        List.take_succ_eq_append_getElem hi, List.foldl_append]
      rfl
    · rw [List.getElem?_eq_none (by omega), if_neg (by omega : ¬ i + 1 ≤ array.length)]
      split_ifs <;> rfl

theorem ptool_calc_crc32_eq (array : List UInt8) (len : ℕ) :
    ptool_calc_crc32 array len = calc_crc32 array len := by
  rw [ptool_calc_crc32, calc_loop_eq, calc_crc32]
  split_ifs <;> rfl

/-- **Both copies of `CalcCRC32` are CRC-32**, of the first `Len` bytes of the array, and so they
agree with each other. -/
theorem calc_crc32_copies {array : List UInt8} {len : ℕ} (h : len ≤ array.length) :
    ptool_calc_crc32 array len = some (crc32 (array.take len)) ∧
      msp_calc_crc32 array len = some (crc32 (array.take len)) ∧
      ptool_calc_crc32 array len = msp_calc_crc32 array len := by
  have hcopy : ptool_calc_crc32 array len = some (crc32 (array.take len)) := by
    rw [ptool_calc_crc32_eq, calc_crc32_of_le h]
  exact ⟨hcopy, hcopy, rfl⟩

/-- The check value of CRC-32: the digits from 1 to 9, with one more byte behind. -/
theorem calc_crc32_copies_digits :
    ptool_calc_crc32 [0x31, 0x32, 0x33, 0x34, 0x35, 0x36, 0x37, 0x38, 0x39, 0x30] 9
        = some 0xCBF43926 ∧
      msp_calc_crc32 [0x31, 0x32, 0x33, 0x34, 0x35, 0x36, 0x37, 0x38, 0x39, 0x30] 9
        = some 0xCBF43926 := by
  have hlen : 9 ≤ [(0x31 : UInt8), 0x32, 0x33, 0x34, 0x35, 0x36, 0x37, 0x38, 0x39,
      0x30].length := by
    decide
  have h := calc_crc32_copies hlen
  have hcheck : crc32 [0x31, 0x32, 0x33, 0x34, 0x35, 0x36, 0x37, 0x38, 0x39] = 0xCBF43926 := by
    decide +kernel
  exact ⟨h.1.trans (congrArg some hcheck), h.2.1.trans (congrArg some hcheck)⟩

end AndroidTools.Crc32
