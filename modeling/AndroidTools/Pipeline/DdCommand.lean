/-
The command that `msp.py` prints for a file it wrote.

Behind each file `PerformWrite` prints a line that starts with `Written with`: the `dd.py` call
that is meant to do the same write again. Its `--bs` is the sector size, but `dd.py` takes it for
the unit of `--count` only: it seeks in blocks of 512 bytes, fills up the last block of 512, and
knows nothing of the offset in the file. So the command writes what was written when sectors are
blocks, or the place and the padding happen to be the same, and the file is written from its
first byte on.

The two writes are compared twice, as the bytes that go to a place and as the disk they leave.
`dd.py` has one file that it reads and another that it writes, so the comparison is about an
element whose file is not the target itself.
-/
import AndroidTools.Dd
import AndroidTools.Msp.Write

set_option autoImplicit false

namespace AndroidTools.Pipeline

open AndroidTools.Bytes AndroidTools.Dd AndroidTools.Msp AndroidTools.Writes

/-- The options that the line `Written with` prints for a file of `length` bytes. The units that
it does not print are left to `dd.py`, where each of them is 512. -/
def written_with (sector_size length : ℕ) (w : Entry) : Args where
  bs := some (toString sector_size)
  ibs := none
  obs := none
  count := some (toString ((write_size sector_size length w - 1) / sector_size + 1))
  seek := some (toString w.start_sector)
  skip := none
  cbs := none

/-- Where `dd` writes, and which bytes, without regard to what the output already holds. It is
`none` where `dd.py` exits before it writes anything. -/
def dd_write (input : List UInt8) (a : Args) : Option WriteAt :=
  (parse_args a).bind fun u =>
    (dd_blocks input u).map fun blocks => ⟨u.seek * u.obs, blocks.flatten⟩

/-- The output of `dd` is the output as it was with this one write in it, which is what lets the
command be compared with a single write of `PerformWrite`. -/
theorem dd_eq_write (input output : List UInt8) (a : Args) :
    dd input output a = (dd_write input a).map fun w => overwrite output w.position w.bytes := by
  rw [dd, dd_write]
  cases parse_args a with
  | none => rfl
  | some u =>
    rw [Option.bind_some, Option.bind_some]
    cases dd_blocks input u with
    | none => rfl
    | some blocks => exact congrArg some (write_all_eq _ _ _)

/-- The elements whose command does the write again. Their number of sectors is not negative,
their place is the same in blocks of 512 bytes, the bytes that are written fill up blocks of
512 bytes, and the bytes of the file from the offset on are those from its first byte on. -/
structure CommandFits (sector_size : ℕ) (file : List UInt8) (w : Entry) : Prop where
  size : 0 ≤ w.num_partition_sectors
  place : w.start_sector = 0 ∨ sector_size = 512
  length : written_length sector_size file.length w
    = padded 512 (write_size sector_size file.length w).toNat
  bytes : ∀ i < (write_size sector_size file.length w).toNat,
    file.getD ((w.file_sector_offset * sector_size).toNat + i) 0 = file.getD i 0

/-! ## The size

`PerformWrite` cuts a file to its number of sectors, and a number below 0 becomes a negative
size, with which everything is read.
-/

section Size

variable {sector_size length : ℕ} {w : Entry}

/-- A negative number of sectors is taken for a negative size. -/
theorem write_size_of_neg (hs : 0 < sector_size) (h : w.num_partition_sectors < 0) :
    write_size sector_size length w = w.num_partition_sectors * sector_size := by
  have hneg : w.num_partition_sectors * (sector_size : ℤ) < 0 :=
    Int.mul_neg_of_neg_of_pos h (by omega)
  have hsectors : write_num_sectors sector_size length w = w.num_partition_sectors := by
    rw [write_num_sectors, if_neg (by omega)]
  rw [write_size, hsectors, if_pos (by omega)]

/-- The size is the length of the file, or whole sectors of it. -/
theorem write_size_of_nonneg (hs : 0 < sector_size) (hlength : 0 < length)
    (h : 0 ≤ w.num_partition_sectors) :
    ∃ n : ℕ, write_size sector_size length w = n ∧ 0 < n ∧ n ≤ length ∧
      (n = length ∨ sector_size ∣ n) := by
  rcases h.eq_or_lt with h0 | hpos
  · exact ⟨length, write_size_of_zero hs length h0.symm, hlength, le_rfl, .inl rfl⟩
  · obtain ⟨m, hm⟩ := Int.eq_ofNat_of_zero_le h
    have hm0 : 0 < m := by omega
    have hsectors : 0 < m * sector_size := Nat.mul_pos hm0 hs
    refine ⟨min length (m * sector_size), write_size_of_pos hm hm0, by omega,
      Nat.min_le_left _ _, ?_⟩
    by_cases hcut : m * sector_size < length
    · right
      rw [Nat.min_eq_right hcut.le]
      exact Nat.dvd_mul_left sector_size m
    · left
      exact Nat.min_eq_left (by omega)

end Size

/-! ## The command

The command has the size in sectors as `--count` and nothing for the offset in the file, so
it copies from the first byte. What `dd` does with the printed arguments is known from its
own module; here it comes down to one write.
-/

/-- `--count` is printed in sectors, as many as cover the size. -/
theorem count_of_size {sector_size n : ℕ} (hn : 0 < n) :
    ((n : ℤ) - 1) / sector_size + 1 = ((n - 1) / sector_size + 1 : ℕ) := by
  have hpred : (n : ℤ) - 1 = ((n - 1 : ℕ) : ℤ) := by omega
  rw [hpred]
  push_cast
  rfl

/-- The printed count cuts the file where the size does, since the size is the whole file or a
whole number of sectors. -/
theorem take_count {sector_size n : ℕ} (hs : 0 < sector_size) {file : List UInt8}
    (hn : 0 < n) (h : n = file.length ∨ sector_size ∣ n) :
    file.take (((n - 1) / sector_size + 1) * sector_size) = file.take n := by
  have hdiv := Nat.div_add_mod' (n - 1) sector_size
  have hmod := Nat.mod_lt (n - 1) hs
  rcases h with hall | ⟨m, hm⟩
  · rw [Nat.add_mul, Nat.one_mul, List.take_of_length_le (by omega),
      List.take_of_length_le (by omega)]
  · -- the size is `m` sectors, and so is the count
    have hcount : (n - 1) / sector_size + 1 = m := by
      have hlow : (n - 1) / sector_size < m := by
        rw [Nat.div_lt_iff_lt_mul hs, Nat.mul_comm]
        omega
      have hhigh : m - 1 ≤ (n - 1) / sector_size := by
        rw [Nat.le_div_iff_mul_le hs, Nat.sub_mul, Nat.one_mul, Nat.mul_comm]
        omega
      omega
    rw [hcount, Nat.mul_comm, ← hm]

/-- With a size above 0 the command writes that much of the front of the file, filled up to
blocks of 512 bytes, at the sector's number in blocks of 512 bytes. -/
theorem dd_write_of_size {sector_size : ℕ} (hs : 0 < sector_size) {file : List UInt8} {w : Entry}
    {n start : ℕ} (hsize : write_size sector_size file.length w = n) (hn : 0 < n)
    (h : n = file.length ∨ sector_size ∣ n) (hstart : w.start_sector = start) :
    dd_write file (written_with sector_size file.length w)
      = some ⟨start * 512, pad 512 (file.take n)⟩ := by
  -- the printed numbers are read back
  have hparse : parse_args (written_with sector_size file.length w)
      = some ⟨sector_size, 512, 512, (n - 1) / sector_size + 1, start, 0⟩ := by
    have h512 : parse_unit "512" = some 512 := parse_unit_toString 512
    have h0 : parse_unit "0" = some 0 := parse_unit_toString 0
    have hcount : parse_unit (toString (((n - 1) / sector_size + 1 : ℕ) : ℤ))
        = some ((n - 1) / sector_size + 1) := parse_unit_toString _
    have hseek : parse_unit (toString (start : ℤ)) = some start := parse_unit_toString start
    simp only [parse_args, written_with, hsize, count_of_size hn, hstart, Option.getD_some,
      Option.getD_none, h512, h0, hcount, hseek, parse_unit_toString, Option.bind_eq_bind,
      Option.bind_some, Option.pure_def]
  obtain ⟨blocks, hblocks, hflatten⟩ := dd_blocks_eq file
    (u := ⟨sector_size, 512, 512, (n - 1) / sector_size + 1, start, 0⟩) (Nat.succ_pos 511)
    (Nat.succ_pos 511)
  rw [dd_write, hparse, Option.bind_some, hblocks, Option.map_some, hflatten, copied]
  dsimp only
  rw [Nat.zero_mul, slice, List.drop_zero, take_count hs hn h]

/-- With a negative size the printed count is negative, and `dd.py` exits on it. -/
theorem dd_write_of_neg {sector_size : ℕ} (hs : 0 < sector_size) {file : List UInt8} {w : Entry}
    (h : w.num_partition_sectors < 0) :
    dd_write file (written_with sector_size file.length w) = none := by
  have hle : w.num_partition_sectors * (sector_size : ℤ) ≤ -1 * sector_size :=
    Int.mul_le_mul_of_nonneg_right (by omega) (by omega)
  have hcount : (w.num_partition_sectors * (sector_size : ℤ) - 1) / sector_size < -1 :=
    Int.ediv_lt_of_lt_mul (by omega) (by omega)
  obtain ⟨m, hm⟩ : ∃ m, (w.num_partition_sectors * (sector_size : ℤ) - 1) / sector_size + 1
      = Int.negSucc m := Int.eq_negSucc_of_lt_zero (by omega)
  have hparse : parse_args (written_with sector_size file.length w) = none := by
    have h512 : parse_unit "512" = some 512 := parse_unit_toString 512
    simp only [parse_args, written_with, write_size_of_neg hs h, hm, Option.getD_some,
      Option.getD_none, h512, parse_unit_toString, parse_unit_toString_negSucc,
      Option.bind_eq_bind, Option.bind_some, Option.bind_none]
  rw [dd_write, hparse, Option.bind_none]

/-! ## What is written and what the command writes

Two writes are the same if they go to the same place with the same bytes. `CommandFits` is
that, part by part, said of the numbers of the element and the bytes of its file.
-/

/-- The bytes that `PerformWrite` wrote are those of the file from the offset on, up to the size,
and zeros behind them. -/
theorem getD_written {sector_size : ℕ} {file bytes : List UInt8} {w : Entry}
    (hoffset : 0 ≤ w.file_sector_offset) (h : written sector_size file w = some bytes) {n : ℕ}
    (hsize : write_size sector_size file.length w = n) (i : ℕ) :
    bytes.getD i 0
      = if i < n then file.getD ((w.file_sector_offset * sector_size).toNat + i) 0 else 0 := by
  rw [written_of_nonneg hoffset, hsize] at h
  obtain rfl := Option.some.inj h
  set pos := (w.file_sector_offset * sector_size).toNat
  set full := n / max_file_size_before_split * max_file_size_before_split with hfull
  have hle : full ≤ n := Nat.div_mul_le_self _ _
  have hsplit : (file.drop pos).take full ++ ((file.drop pos).take n).drop full
      = slice file pos n := by
    conv_rhs => rw [slice, ← List.take_append_drop full ((file.drop pos).take n)]
    rw [List.take_take, Nat.min_eq_left hle]
  rw [flatten_write_pieces, ← hfull, getD_append_pad, hsplit, getD_slice]

/-- The command writes the bytes of an element exactly if it fits. -/
theorem dd_write_iff {sector_size : ℕ} (hs : 0 < sector_size) {file bytes : List UInt8}
    {w : Entry} (hfile : file ≠ []) (hoffset : 0 ≤ w.file_sector_offset)
    (hstart : 0 ≤ w.start_sector) (hbytes : written sector_size file w = some bytes) :
    dd_write file (written_with sector_size file.length w)
        = some ⟨w.start_sector.toNat * sector_size, bytes⟩ ↔
      CommandFits sector_size file w := by
  obtain ⟨start, hstart⟩ := Int.eq_ofNat_of_zero_le hstart
  rcases lt_or_ge w.num_partition_sectors 0 with hneg | hnum
  · rw [dd_write_of_neg hs hneg]
    exact iff_of_false (Option.some_ne_none _).symm fun h => absurd h.size (not_le.mpr hneg)
  obtain ⟨n, hsize, hn, hle, hwhole⟩ := write_size_of_nonneg hs
    (List.length_pos_of_ne_nil hfile) hnum
  -- the place, the length and the bytes, one after the other
  have hplace : start * 512 = start * sector_size ↔ w.start_sector = 0 ∨ sector_size = 512 := by
    rw [mul_eq_mul_left_iff, hstart]
    omega
  have hlength : (pad 512 (file.take n)).length = bytes.length ↔
      written_length sector_size file.length w
        = padded 512 (write_size sector_size file.length w).toNat := by
    rw [length_written hbytes, length_pad, List.length_take, Nat.min_eq_left hle, hsize,
      Int.toNat_natCast, eq_comm]
  have hsame : (∀ i, (pad 512 (file.take n)).getD i 0 = bytes.getD i 0) ↔
      ∀ i < (write_size sector_size file.length w).toNat,
        file.getD ((w.file_sector_offset * sector_size).toNat + i) 0 = file.getD i 0 := by
    have hfront : file.take n = slice file 0 n := by rw [slice, List.drop_zero]
    rw [hsize, Int.toNat_natCast]
    refine forall_congr' fun i => ?_
    rw [getD_pad, hfront, getD_slice, getD_written hoffset hbytes hsize, Nat.zero_add]
    by_cases hi : i < n
    · rw [if_pos hi, if_pos hi, forall_prop_of_true hi, eq_comm]
    · rw [if_neg hi, if_neg hi]
      exact iff_of_true rfl fun h => absurd h hi
  rw [dd_write_of_size hs hsize hn hwhole hstart, hstart, Option.some_inj, WriteAt.mk.injEq,
    Int.toNat_natCast, hplace, eq_iff_getD, hlength, hsame]
  constructor
  · rintro ⟨hplace, hlen, hbyte⟩
    exact ⟨hnum, hplace, hlen, hbyte⟩
  · intro h
    exact ⟨h.place, h.length, h.bytes⟩

section Pass

variable {sector_size disk_size : ℕ} {target : String} {s s' : WriteState} {w : Entry}
  {file : List UInt8} {write : WriteAt}

/-- A pass that wrote an element had an offset and a start that are not negative, and the target
behind it is the target before it with that write in it. -/
theorem pass_write (hs : 0 < sector_size) (hname : s.files w.filename = some file)
    (hrun : perform_write_one sector_size disk_size target s w = .done s')
    (hwrite : s'.writes = s.writes ++ [⟨write, w⟩]) :
    0 ≤ w.file_sector_offset ∧ 0 ≤ w.start_sector ∧
      written sector_size file w = some write.bytes ∧
      write.position = w.start_sector.toNat * sector_size ∧
      ∃ image, s.files target = some image ∧
        s'.files target = some (overwrite image write.position write.bytes) := by
  rcases perform_write_one_cases sector_size disk_size target s w with
    h | h | ⟨file', image, bytes, hfile', himage, hbytes, hstart, -, h⟩
  · -- skipped: nothing is in the trace
    rw [h] at hrun
    cases hrun
    simp at hwrite
  · rw [h] at hrun
    cases hrun
  · rw [h] at hrun
    cases hrun
    rw [hname] at hfile'
    cases hfile'
    have hlast : write = ⟨w.start_sector.toNat * sector_size, bytes⟩ := by
      have heq := List.append_cancel_left hwrite
      rw [write_of, List.cons.injEq, Written.mk.injEq] at heq
      exact heq.1.1.symm
    subst hlast
    refine ⟨?_, hstart, hbytes, rfl, image, himage, WriteState.write_target ..⟩
    by_contra hneg
    rw [written_of_neg hs (not_le.mp hneg)] at hbytes
    cases hbytes

end Pass

/-- **The printed command does the write that was done exactly if it fits.** It writes the same
bytes to the same place, and run on the target as it was before the pass it leaves the target
as the pass left it. The file is not the target, which `dd.py` would read while it writes. -/
theorem printed_command_iff (sector_size : ℕ) (hs : 0 < sector_size) (disk_size : ℕ)
    (target : String) (s s' : WriteState) (w : Entry) (_hother : w.filename ≠ target)
    (file : List UInt8) (hname : s.files w.filename = some file) (hfile : file ≠ [])
    (write : WriteAt)
    (hrun : perform_write_one sector_size disk_size target s w = .done s')
    (hwrite : s'.writes = s.writes ++ [⟨write, w⟩]) :
    (dd_write file (written_with sector_size file.length w) = some write ∧
        ((s.files target).bind fun image =>
          dd file image (written_with sector_size file.length w)) = s'.files target) ↔
      CommandFits sector_size file w := by
  obtain ⟨hoffset, hstart, hbytes, hposition, image, himage, himage'⟩ :=
    pass_write hs hname hrun hwrite
  have hiff := dd_write_iff hs hfile hoffset hstart hbytes
  rw [← hposition] at hiff
  rw [← hiff, himage, himage', Option.bind_some, dd_eq_write]
  exact ⟨fun h => h.1, fun h => ⟨h, by rw [h, Option.map_some]⟩⟩

/-- A file of one byte that is to fill one sector. -/
def one_byte_write (start_sector : ℤ) : Entry :=
  ⟨"abl.bin", 0, 1, 0, "false", start_sector, false, 0, 0, 0, 0, 4, none⟩

/-- The files of the run below: that file and an empty disk. -/
def one_byte_files : WriteState where
  files := Function.update (Function.update (fun _ => none) "disk" (some [])) "abl.bin" (some [7])
  writes := []

theorem one_byte_file (start_sector : ℤ) :
    one_byte_files.files (one_byte_write start_sector).filename = some [7] := rfl

theorem one_byte_run (sector_size start : ℕ) (hs : 0 < sector_size)
    (hdvd : sector_size ∣ max_file_size_before_split)
    (hstart : start ≤ 1048576 / sector_size) :
    perform_write_one sector_size 1048576 "disk" one_byte_files (one_byte_write start)
      = .done (one_byte_files.write "disk" []
          (write_of sector_size (one_byte_write start) (pad sector_size [7]))) := by
  have hname : (one_byte_write start).filename ≠ "" := show "abl.bin" ≠ "" by decide
  have hle : (one_byte_write start).start_sector ≤ ((1048576 / sector_size : ℕ) : ℤ) :=
    Int.ofNat_le.mpr hstart
  have hdisk : one_byte_files.files "disk" = some [] := rfl
  have hrun := pass_padded hs hdvd hname (one_byte_file start) hdisk rfl (n := 1) rfl
    (Int.natCast_nonneg start) hle
  rwa [if_neg (by decide), List.take_of_length_le (by rw [List.length_singleton]; omega)] at hrun

theorem printed_command_one_byte :
    (dd_write [7] (written_with 512 1 (one_byte_write 2)) = some ⟨2 * 512, pad 512 [7]⟩ ∧
        ((one_byte_files.files "disk").bind fun image =>
          dd [7] image (written_with 512 1 (one_byte_write 2)))
          = (one_byte_files.write "disk" []
            (write_of 512 (one_byte_write 2) (pad 512 [7]))).files "disk") ↔
      CommandFits 512 [7] (one_byte_write 2) :=
  printed_command_iff 512 (by decide) 1048576 "disk" one_byte_files _ (one_byte_write 2)
    (show "abl.bin" ≠ "disk" by decide) [7] (one_byte_file 2) (by decide)
    ⟨2 * 512, pad 512 [7]⟩
    (one_byte_run 512 2 (by decide) (by decide) (by decide)) rfl

/-- With sectors of 4096 bytes the command writes to another place. -/
theorem command_elsewhere :
    perform_write_one 4096 1048576 "disk" one_byte_files (one_byte_write 2)
        = .done (one_byte_files.write "disk" []
            (write_of 4096 (one_byte_write 2) (pad 4096 [7]))) ∧
      dd_write [7] (written_with 4096 1 (one_byte_write 2)) ≠ some ⟨2 * 4096, pad 4096 [7]⟩ := by
  have hrun := one_byte_run 4096 2 (by decide) (by decide) (by decide)
  refine ⟨hrun, fun hsame => ?_⟩
  obtain ⟨hoffset, hstart, hbytes, -⟩ := pass_write (by decide) (one_byte_file 2) hrun rfl
  have hfits := (dd_write_iff (by decide) (by decide) hoffset hstart hbytes).mp hsame
  rcases hfits.place with hplace | hplace
  · exact absurd hplace (by decide)
  · exact absurd hplace (by decide)

end AndroidTools.Pipeline
