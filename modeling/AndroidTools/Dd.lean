/-
`dd.py`.

A copy reads blocks of `ibs` and writes blocks of `obs`; `bs` is only the unit of `count`. What is
read goes through a buffer, the read that passes `count` is cut, and what is left in the buffer at
the end is filled up with zeros to one block more. The buffer is a `Reblock`, so the blocks in a
row are the window of the input that is read, whatever the sizes are; `dd_eq` is what that means
for the output.

The arguments are text. `parse_unit` takes a number with a unit behind it and exits on everything
else, a sign included; both are stated for numbers as `str` prints them, since `msp.py` prints
command lines for this program.

Input and output are two files, and neither is a device; reads and writes succeed. The output
exists.
-/
import AndroidTools.Lib.Reblock
import AndroidTools.Lib.Text
import AndroidTools.Msp.Write

set_option autoImplicit false

namespace AndroidTools.Dd

open AndroidTools.Bytes AndroidTools.Text

/-! ## The arguments

Every option is a text with a number and a unit, and each of them has its own default.
`ibs`, `obs` and `bs` are three independent sizes here: `bs` is the unit of `count` and does
not set the other two.
-/

/-- `multiplier_table`, by the unit behind the number; no unit is 1. -/
def multiplier (unit : List Char) : Option ℕ :=
  match String.ofList unit with
  | "" => some 1
  | "c" => some 1
  | "w" => some 2
  | "b" => some 512
  | "kB" => some 1000
  | "K" => some 1024
  | "MB" => some (1000 * 1000)
  | "M" => some (1024 * 1024)
  | "xM" => some (1024 * 1024)
  | "GB" => some (1000 * 1000 * 1000)
  | "G" => some (1024 * 1024 * 1024)
  | _ => none

/-- The text without the white space at its end, for the `\s*$` behind what is wanted. -/
def rstrip (cs : List Char) : List Char := (cs.reverse.dropWhile isspace).reverse

/-- `parse_unit`, a number and its unit; `none` where it exits. -/
def parse_unit (value : String) : Option ℕ :=
  digits (fun ds rest => (multiplier (rstrip rest)).map (natOfDigits ds * ·))
    (value.toList.dropWhile isspace)

/-- The options of the command line, as they are typed. -/
structure Args where
  bs : Option String
  ibs : Option String
  obs : Option String
  count : Option String
  seek : Option String
  skip : Option String
  cbs : Option String
  deriving Repr, DecidableEq

/-- The values of the options, which are what the copy works with. -/
structure Units where
  bs : ℕ
  ibs : ℕ
  obs : ℕ
  count : ℕ
  seek : ℕ
  skip : ℕ
  deriving Repr, DecidableEq

/-- The defaults of the options that are not given, and `parse_unit` of each of the others. -/
def parse_args (a : Args) : Option Units := do
  let bs ← parse_unit (a.bs.getD "512")
  let ibs ← parse_unit (a.ibs.getD "512")
  let obs ← parse_unit (a.obs.getD "512")
  let count ← parse_unit (a.count.getD "0")
  let seek ← parse_unit (a.seek.getD "0")
  let skip ← parse_unit (a.skip.getD "0")
  let _ ← parse_unit (a.cbs.getD "0")
  return ⟨bs, ibs, obs, count, seek, skip⟩

/-! ## The copy

Input is read in blocks of `ibs`, collected in a buffer, and given out in blocks of `obs`;
what is left at the end goes out as one more block, filled up with zeros. The number of
passes comes from a `range`, which raises for a step of 0, and not from the input, so a
short input is read past its end.
-/

/-- `range(0, stop, step)`. -/
def range_step (stop step : ℕ) : List ℕ := (List.range ((stop + step - 1) / step)).map (· * step)

/-- `read_buffer`, what has been written, and the position in the input. -/
structure Copy extends Reblock UInt8 where
  position : ℕ
  deriving Repr, DecidableEq

/-- One pass of the loop over `range(0, count, ibs)`. -/
def dd_pass (input : List UInt8) (count ibs obs : ℕ) (s : Copy) (bytes_read : ℕ) : Copy :=
  let buffer_string := slice input s.position ibs
  let position := s.position + buffer_string.length
  let buffer_string :=
    if count - bytes_read < ibs then buffer_string.take (count - bytes_read) else buffer_string
  let read_buffer := s.toReblock.extend buffer_string
  let passes := (range_step read_buffer.buffer.length obs).length
  { read_buffer.drain obs passes with position := position }

/-- Writing out the remaining data: a last block, filled up with zeros, unless nothing is left. -/
def remaining (obs : ℕ) (read_buffer : List UInt8) : List (List UInt8) :=
  if 0 < read_buffer.length then
    [read_buffer ++ List.replicate (obs - read_buffer.length) 0]
  else []

/-- The blocks that are written; `none` where a `range` has the step 0. -/
def dd_blocks (input : List UInt8) (u : Units) : Option (List (List UInt8)) :=
  let count := u.count * u.bs
  if u.ibs = 0 ∨ u.obs = 0 ∧ 0 < count then none
  else
    let s := (range_step count u.ibs).foldl (dd_pass input count u.ibs u.obs)
      ⟨⟨[], []⟩, u.skip * u.ibs⟩
    some (s.written ++ remaining u.obs s.buffer)

/-- `dd`: the contents of the output afterwards, which is written from `seek*obs` on. -/
def dd (input output : List UInt8) (a : Args) : Option (List UInt8) :=
  (parse_args a).bind fun u =>
    (dd_blocks input u).map (Msp.write_all output (u.seek * u.obs))

/-! ## Numbers as arguments

A printed number is parsed to itself. A negative one is not parsed, because the pattern has
no sign in it, and the program exits.
-/

theorem parse_unit_toString (n : ℕ) : parse_unit (toString n) = some n := by
  have hspace : (Nat.toDigits 10 n).dropWhile isspace = Nat.toDigits 10 n := by
    cases hd : Nat.toDigits 10 n with
    | nil => rfl
    | cons d ds =>
      have hdigit : d.isDigit = true := isDigit_toDigits (n := n) (by rw [hd]; simp)
      rw [List.dropWhile_cons_of_neg (by simp [isspace_eq_false_of_isDigit hdigit])]
  have hread := digits_toDigits
    (fun ds rest => (multiplier (rstrip rest)).map (natOfDigits ds * ·)) n
    (show ∀ c, ([] : List Char).head? = some c → c.isDigit = false by simp)
  rw [List.append_nil] at hread
  have hunit : multiplier (rstrip []) = some 1 := rfl
  rw [parse_unit, toString_nat_toList, hspace, hread, hunit, Option.map_some,
    natOfDigits_toDigits, Nat.mul_one]

/-- A negative number is not parsed. -/
theorem parse_unit_toString_negSucc (n : ℕ) : parse_unit (toString (Int.negSucc n)) = none := by
  rw [parse_unit, toString_negSucc_toList, List.dropWhile_cons_of_neg (by decide), digits,
    List.takeWhile_cons_of_neg (by decide)]

/-! ## The window that is copied

The passes of the loop and the invariant `Copied` say how far the copy has come; behind the last
pass nothing is left of the sizes of the blocks. -/

/-- The bytes of the input from `skip*ibs`, at most `count*bs` of them. -/
def copied (input : List UInt8) (u : Units) : List UInt8 :=
  slice input (u.skip * u.ibs) (u.count * u.bs)

theorem length_range_step (stop step : ℕ) :
    (range_step stop step).length = (stop + step - 1) / step := by
  rw [range_step, List.length_map, List.length_range]

/-- The range has enough passes: with one step each they come as far as `stop`. -/
theorem le_passes_mul (stop : ℕ) {step : ℕ} (hstep : 0 < step) :
    stop ≤ (stop + step - 1) / step * step := by
  have hdiv := Nat.div_add_mod' (stop + step - 1) step
  have hmod := Nat.mod_lt (stop + step - 1) hstep
  omega

/-- The range has no pass too many: each of them starts before `stop`. -/
theorem mul_lt_of_lt_passes {stop step n : ℕ} (hstep : 0 < step)
    (h : n < (stop + step - 1) / step) : n * step < stop := by
  have hle : (n + 1) * step ≤ stop + step - 1 := (Nat.le_div_iff_mul_le hstep).mp h
  rw [Nat.add_mul, Nat.one_mul] at hle
  omega

section Loop

variable {input : List UInt8} {count ibs obs start : ℕ}

/-- What a copy has done after `n` passes: it stands behind `n` blocks of the input, or at
its end, and what it read of them is in the buffer and in the blocks written. -/
structure Copied (input : List UInt8) (count ibs obs start n : ℕ) (s : Copy) : Prop where
  position : s.position = start + min (n * ibs) (input.length - start)
  blocks : s.toReblock.Drained obs (slice input start (min (n * ibs) count))

theorem copied_start (hobs : 0 < obs) :
    Copied input count ibs obs start 0 ⟨⟨[], []⟩, start⟩ where
  position := by simp
  blocks := by
    rw [Nat.zero_mul, Nat.zero_min, slice, List.take_zero]
    exact Reblock.drained_start hobs

/-- A read at the end of the input reads what a read `n` blocks behind the start does. -/
theorem Copied.read {n : ℕ} {s : Copy} (h : Copied input count ibs obs start n s) :
    slice input s.position ibs = slice input (start + n * ibs) ibs := by
  rw [h.position]
  by_cases hin : n * ibs ≤ input.length - start
  · rw [Nat.min_eq_left hin]
  · rw [slice_of_length_le ibs (by omega), slice_of_length_le ibs (by omega)]

theorem Copied.pass {n : ℕ} {s : Copy} (h : Copied input count ibs obs start n s)
    (hobs : 0 < obs) (hn : n * ibs < count) :
    Copied input count ibs obs start (n + 1) (dd_pass input count ibs obs s (n * ibs)) where
  position := by
    unfold dd_pass
    dsimp only
    rw [h.read, length_slice, h.position, Nat.add_mul, Nat.one_mul]
    omega
  blocks := by
    -- the last piece is cut to the byte count
    have hpiece : (if count - n * ibs < ibs then
          (slice input (start + n * ibs) ibs).take (count - n * ibs)
        else slice input (start + n * ibs) ibs)
          = slice input (start + n * ibs) (min ibs (count - n * ibs)) := by
      split_ifs with hcut
      · rw [slice, List.take_take, Nat.min_comm]
        rfl
      · rw [Nat.min_eq_left (by omega)]
    have hend : min ((n + 1) * ibs) count = n * ibs + min ibs (count - n * ibs) := by
      rw [Nat.add_mul, Nat.one_mul]
      omega
    have hnow : min (n * ibs) count = n * ibs := Nat.min_eq_left hn.le
    unfold dd_pass
    dsimp only
    rw [h.read, hpiece, hend, ← slice_append_slice]
    have hblocks := h.blocks
    rw [hnow] at hblocks
    apply hblocks.step
    rw [length_range_step]
    have hpasses := le_passes_mul (s.toReblock.extend
      (slice input (start + n * ibs) (min ibs (count - n * ibs)))).buffer.length hobs
    rw [Nat.add_mul, Nat.one_mul]
    omega

variable (input count start) in
/-- After all passes the copy has read the window, and no whole block is left in the buffer. -/
theorem copied_loop (hibs : 0 < ibs) (hobs : 0 < obs) :
    ((range_step count ibs).foldl (dd_pass input count ibs obs)
      ⟨⟨[], []⟩, start⟩).toReblock.Drained obs (slice input start count) := by
  have hrun : ∀ n ≤ (count + ibs - 1) / ibs, Copied input count ibs obs start n
      (((List.range n).map (· * ibs)).foldl (dd_pass input count ibs obs) ⟨⟨[], []⟩, start⟩) := by
    intro n hn
    induction n with
    | zero => exact copied_start hobs
    | succ n ih =>
      rw [List.range_succ, List.map_append, List.foldl_append]
      exact (ih (by omega)).pass hobs (mul_lt_of_lt_passes hibs hn)
  have hall := (hrun _ le_rfl).blocks
  rwa [Nat.min_eq_right (le_passes_mul _ hibs)] at hall

end Loop

/-- The blocks that are written are the window and zeros up to a whole block. -/
theorem dd_blocks_eq (input : List UInt8) {u : Units} (hibs : 0 < u.ibs) (hobs : 0 < u.obs) :
    ∃ blocks, dd_blocks input u = some blocks ∧
      blocks.flatten = pad u.obs (copied input u) := by
  have hloop := copied_loop input (u.count * u.bs) (u.skip * u.ibs) hibs hobs
  unfold dd_blocks
  dsimp only
  rw [if_neg (by omega)]
  generalize (range_step (u.count * u.bs) u.ibs).foldl
    (dd_pass input (u.count * u.bs) u.ibs u.obs) ⟨⟨[], []⟩, u.skip * u.ibs⟩ = s at hloop
  refine ⟨_, rfl, ?_⟩
  -- the last block is padded, unless nothing is left over
  have hlast : (remaining u.obs s.buffer).flatten = pad u.obs s.buffer := by
    rw [remaining, pad, Nat.mod_eq_of_lt hloop.short]
    by_cases h0 : s.buffer.length = 0
    · rw [if_neg (by omega), if_pos h0, List.length_eq_zero_iff.mp h0, List.flatten_nil]
    · rw [if_pos (by omega), if_neg h0, List.flatten_singleton]
  have hcontents := hloop.contents
  rw [Reblock.contents] at hcontents
  rw [List.flatten_append, hlast, append_pad hloop.whole.dvd, hcontents]
  rfl

/-- What `dd` does to the output: the window and zeros up to a whole block are laid over it at
`seek*obs`. -/
theorem dd_eq {input : List UInt8} {a : Args} {u : Units} (ha : parse_args a = some u)
    (hibs : 0 < u.ibs) (hobs : 0 < u.obs) (output : List UInt8) :
    dd input output a
      = some (overwrite output (u.seek * u.obs) (pad u.obs (copied input u))) := by
  obtain ⟨blocks, hblocks, hflatten⟩ := dd_blocks_eq input hibs hobs
  rw [dd, ha, Option.bind_some, hblocks, Option.map_some, Msp.write_all_eq, hflatten]

/-- **`dd` copies the window that its arguments describe, whatever the sizes of the blocks.** It
ends, what it writes is the window with zeros up to a whole block, everything before and behind is
as it was, and another `ibs` that describes the same window leaves the same output. -/
theorem dd_copies_window (input output : List UInt8) (a : Args) (u : Units)
    (ha : parse_args a = some u) (_hbs : 1 ≤ u.bs) (hibs : 1 ≤ u.ibs) (hobs : 1 ≤ u.obs) :
    ∃ out, dd input output a = some out ∧
      slice out (u.seek * u.obs) ((pad u.obs (copied input u)).length)
        = pad u.obs (copied input u) ∧
      (∀ i < u.seek * u.obs, i < output.length → out[i]? = output[i]?) ∧
      (∀ i, u.seek * u.obs + (pad u.obs (copied input u)).length ≤ i → out[i]? = output[i]?) ∧
      ∀ a' u', parse_args a' = some u' → 1 ≤ u'.ibs → u'.obs = u.obs → u'.seek = u.seek →
        copied input u' = copied input u → dd input output a' = some out := by
  refine ⟨_, dd_eq ha hibs hobs output, ?_, ?_, ?_, ?_⟩
  · exact slice_overwrite output _ _
  · intro i hi hin
    exact getElem?_overwrite_before hi hin
  · intro i hi
    exact getElem?_overwrite_after hi
  · intro a' u' ha' hibs' hobs' hseek' hcopied'
    rw [dd_eq ha' hibs' (by rw [hobs']; exact hobs) output, hobs', hseek', hcopied']

/-- The arguments for four bytes, written as the second block of three. -/
def small_args (ibs : String) : Args :=
  ⟨some "1", some ibs, some "3", some "4c", some "1", none, none⟩

theorem dd_copies_window_small :
    ∃ out, dd [1, 2, 3, 4, 5, 6, 7] [9, 9, 9, 9, 9, 9, 9, 9, 9, 9] (small_args "2") = some out ∧
      slice out (1 * 3) ((pad 3 (copied [1, 2, 3, 4, 5, 6, 7] ⟨1, 2, 3, 4, 1, 0⟩)).length)
        = pad 3 (copied [1, 2, 3, 4, 5, 6, 7] ⟨1, 2, 3, 4, 1, 0⟩) ∧
      (∀ i < 1 * 3, i < 10 → out[i]? = [9, 9, 9, 9, 9, 9, 9, 9, 9, 9][i]?) ∧
      (∀ i, 1 * 3 + (pad 3 (copied [1, 2, 3, 4, 5, 6, 7] ⟨1, 2, 3, 4, 1, 0⟩)).length ≤ i →
        out[i]? = [9, 9, 9, 9, 9, 9, 9, 9, 9, 9][i]?) ∧
      ∀ a' u', parse_args a' = some u' → 1 ≤ u'.ibs → u'.obs = 3 → u'.seek = 1 →
        copied [1, 2, 3, 4, 5, 6, 7] u' = copied [1, 2, 3, 4, 5, 6, 7] ⟨1, 2, 3, 4, 1, 0⟩ →
        dd [1, 2, 3, 4, 5, 6, 7] [9, 9, 9, 9, 9, 9, 9, 9, 9, 9] a' = some out :=
  dd_copies_window _ _ (small_args "2") ⟨1, 2, 3, 4, 1, 0⟩ (by decide) (by decide) (by decide)
    (by decide)

example : dd [1, 2, 3, 4, 5, 6, 7] [9, 9, 9, 9, 9, 9, 9, 9, 9, 9] (small_args "5")
    = some [9, 9, 9, 1, 2, 3, 4, 0, 0, 9] := by
  decide

end AndroidTools.Dd
