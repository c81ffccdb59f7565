/-
What one patch changes.

A patch is to set one field of a file. It reads a sector, or the window that ends with it, and
writes back what it read; before the read it seeks to a sector other than the first only. A CRC is
computed before, from the same open file, and leaves the position where its own read ended. So the
patch of a CRC in sector 0 is made on a copy of what follows the input of the CRC.

`one_patch_iff` puts the parts together: the value (`crc_value_iff`, for the CRC), the sector with
the field in it, and the place where it is written back. Each part has its own exact condition,
and the condition of the whole is read off the patch and the length of the file. The lemmas are
the same for both kinds of files that are patched, since the loop differs only in which file it
opens.
-/
import AndroidTools.Msp.Patching

set_option autoImplicit false

namespace AndroidTools.Msp

open AndroidTools.Bytes AndroidTools.Crc AndroidTools.Crc32

/-- The value that a patch is to set: the CRC of the bytes that it names, or its number. -/
def value_to_set (sector_size : ℕ) (file : List UInt8) (p : Entry) : ℤ :=
  if p.is_crc then (crc32 (slice file (p.arg0.toNat * sector_size) p.arg1) : ℤ) else p.value

/-- The `w` bytes at `pos` are the little-endian value, and the other bytes are as before. -/
def SetsField (file file' : List UInt8) (pos w : ℕ) (value : ℤ) : Prop :=
  slice file' pos w = leBytes w value ∧ ∀ i, i < pos ∨ pos + w ≤ i → file'[i]? = file[i]?

theorem setsField_iff {file file' : List UInt8} {pos w : ℕ} {value : ℤ}
    (h : pos + w ≤ file.length) :
    SetsField file file' pos w value ↔ file' = overwrite file pos (leBytes w value) := by
  have hlen := length_leBytes w value
  rw [eq_overwrite_iff (by rw [hlen]; exact h), hlen, SetsField]

/-- Where the file position is after the CRC was read, by either of the two ways. -/
def crc_end (sector_size : ℕ) (p : Entry) : ℕ :=
  if 64 < p.arg0 then (p.arg0.toNat + crc_sectors sector_size p.arg1) * sector_size
  else p.arg0.toNat * sector_size + p.arg1

/-- The window of a CRC above sector 64 takes its sectors, and they are whole. -/
def CrcWindow (sector_size : ℕ) (file : List UInt8) (p : Entry) : Prop :=
  64 < p.arg0 → crc_sectors sector_size p.arg1 ≤ 64 ∧
    (p.arg0.toNat + crc_sectors sector_size p.arg1) * sector_size ≤ file.length

/-- The sector that follows at `pos` is the first one, but for the field. -/
def LikeFirst (sector_size : ℕ) (file : List UInt8) (pos o w : ℕ) : Prop :=
  pos + sector_size ≤ file.length ∧
    ∀ i < sector_size, i < o ∨ o + w ≤ i → file[pos + i]? = file[i]?

/-- The element has the attribute that is logged, and its value is a number that is not
negative, or a CRC that is read, and not in front of a patch of sector 0. -/
def ReadsItsSector (sector_size : ℕ) (file : List UInt8) (p : Entry) (s o w : ℕ) : Prop :=
  p.what.isSome ∧
    if p.is_crc then CrcWindow sector_size file p ∧
      (s = 0 → LikeFirst sector_size file (crc_end sector_size p) o w)
    else 0 ≤ p.value

/-! ## The value

A CRC is read in one of two ways: directly, or, above sector 64, as the end of a window of
64 sectors. It has a value exactly if its window is read whole, and then it is the CRC of
the bytes that the patch names.
-/

theorem le_crc_sectors {sector_size : ℕ} (hs : 0 < sector_size) (len : ℕ) :
    len ≤ crc_sectors sector_size len * sector_size := by
  have hlast : len ≤ (len + 1) * sector_size :=
    (Nat.le_mul_of_pos_right len hs).trans (Nat.mul_le_mul_right _ (Nat.le_succ len))
  exact (crc_sectors_mul (Nat.succ_pos len) hlast).2

/-- The CRC is computed if its window is read whole, and then it is that of the bytes the patch
names; otherwise the computation raises. -/
theorem crc_value_iff {sector_size : ℕ} (hs : 0 < sector_size) {file : List UInt8} {p : Entry}
    (hcrc : p.is_crc = true) {a : ℕ} (ha : p.arg0 = a)
    (hroom : a * sector_size + p.arg1 ≤ file.length) :
    (CrcWindow sector_size file p →
        crc_value sector_size file p
          = some (value_to_set sector_size file p, crc_end sector_size p)) ∧
      (¬ CrcWindow sector_size file p → crc_value sector_size file p = none) := by
  rw [value_to_set, if_pos hcrc, crc_end, CrcWindow, ha, Int.toNat_natCast]
  by_cases hfar : 64 < a
  · have hfar' : (64 : ℤ) < a := by omega
    rw [crc_value_far ha hfar (le_crc_sectors hs p.arg1), if_pos hfar', forall_prop_of_true hfar']
    exact ⟨fun h => if_pos h, fun h => if_neg h⟩
  · have hnear : ¬ (64 : ℤ) < a := by omega
    rw [crc_value_near ha (by omega) hroom, if_neg hnear]
    exact ⟨fun _ => rfl, fun h => absurd (fun hfar' => absurd hfar' hnear) h⟩

/-! ## The sector

A patch reads and writes a whole sector and means to change one field of it. For sector 0
the position has moved on before the sector is read, so what is read is not what is written
back, unless the two sectors agree but for the field.
-/

/-- A patch of a negative value raises. -/
theorem patch_sector_negative {sector_size : ℕ} {file : List UInt8} {p : Entry} {value : ℤ}
    {pos : ℕ} (h : value < 0) : patch_sector sector_size file p value pos = none := by
  unfold patch_sector
  dsimp only
  split
  · exact if_neg (by omega)
  · rfl

/-- Sector 0 is patched on the sector that follows the position, and what comes out is
written to sector 0. -/
theorem patch_sector_first {sector_size : ℕ} (hs : 0 < sector_size) {file : List UInt8}
    {p : Entry} {value : ℤ} {pos o w : ℕ} (hstart : p.start_sector = 0) (ho : p.byte_offset = o)
    (hw : p.size_in_bytes = w) (hfit : o + w ≤ sector_size) (hvalue : 0 ≤ value) :
    patch_sector sector_size file p value pos
      = if pos + sector_size ≤ file.length then
          some (overwrite file 0 (overwrite (slice file pos sector_size) o (leBytes w value)))
        else none := by
  have hhome : seek ((0 : ℤ) * sector_size) = some 0 := by rw [Int.zero_mul]; rfl
  have hidx : (0 : ℤ) + (o : ℤ) = ((o : ℕ) : ℤ) := Int.zero_add _
  unfold patch_sector patch_window window_sector
  rw [hstart, ho, hw]
  simp only [show ¬ (64 : ℤ) < 0 by decide, show ¬ (0 : ℤ) < 0 by decide, if_false, hhome,
    Int.toNat_natCast, hidx]
  by_cases hroom : pos + sector_size ≤ file.length
  · have hread := length_slice_of_le hroom
    rw [if_pos ⟨hread, hvalue⟩, if_pos hroom,
      set_field_eq value w (by rw [hread]; exact hfit), Option.map_some]
  · rw [if_neg hroom, if_neg]
    rintro ⟨hread, -⟩
    rw [length_slice] at hread
    omega

/-- A sector written over the first sets the field there if it is the first but for the field. -/
theorem overwrite_first_iff {sector_size : ℕ} {file d : List UInt8} {pos o : ℕ}
    (hfit : o + d.length ≤ sector_size) (hroom : sector_size ≤ file.length)
    (hpos : pos + sector_size ≤ file.length) :
    overwrite file 0 (overwrite (slice file pos sector_size) o d) = overwrite file o d ↔
      ∀ i < sector_size, i < o ∨ o + d.length ≤ i → file[pos + i]? = file[i]? := by
  have hread := length_slice_of_le hpos
  have hsector : (overwrite (slice file pos sector_size) o d).length = sector_size := by
    rw [length_overwrite_of_le (by rw [hread]; exact hfit), hread]
  have hwrite : 0 + (overwrite (slice file pos sector_size) o d).length ≤ file.length := by
    rw [hsector, Nat.zero_add]
    exact hroom
  have hfield : o + d.length ≤ (slice file pos sector_size).length := by
    rw [hread]
    exact hfit
  constructor
  · intro heq i hi hout
    have hget := congrArg (·[i]?) heq
    rwa [getElem?_overwrite hwrite, if_pos ⟨Nat.zero_le i, by omega⟩, Nat.sub_zero,
      getElem?_overwrite hfield, if_neg (by omega), getElem?_slice, if_pos hi,
      getElem?_overwrite (by omega), if_neg (by omega)] at hget
  · intro hlike
    apply List.ext_getElem?
    intro i
    rw [getElem?_overwrite hwrite, getElem?_overwrite (f := file) (d := d) (by omega), hsector,
      Nat.zero_add, Nat.sub_zero]
    by_cases hi : i < sector_size
    · rw [if_pos ⟨Nat.zero_le i, hi⟩, getElem?_overwrite hfield]
      -- inside the field both have the value
      by_cases hin : o ≤ i ∧ i < o + d.length
      · rw [if_pos hin, if_pos hin]
      · rw [if_neg hin, if_neg hin, getElem?_slice, if_pos hi]
        exact hlike i hi (by omega)
    · rw [if_neg (by omega), if_neg (by omega)]

/-! ## The patch

The two halves put together, for a number and for a CRC, and then for the pass of the loop
and the run of one patch. Each is an equivalence, so the last one is exact.
-/

/-- A number sets its field, unless it is negative. -/
theorem patch_number_iff {sector_size : ℕ} {file : List UInt8} {p : Entry} {s o w : ℕ}
    (hwhat : p.what.isSome) (hcrc : ¬ p.is_crc = true) (hstart : p.start_sector = s)
    (ho : p.byte_offset = o) (hw : p.size_in_bytes = w) (hfit : o + w ≤ sector_size)
    (hroom : (s + 1) * sector_size ≤ file.length) :
    patch_file sector_size file p
        = some (overwrite file (s * sector_size + o) (leBytes w p.value)) ↔ 0 ≤ p.value := by
  obtain ⟨what, hwhat⟩ := Option.isSome_iff_exists.mp hwhat
  have hfile : patch_file sector_size file p = patch_sector sector_size file p p.value 0 := by
    rw [patch_file, hwhat, patch_value, if_neg hcrc]
  rw [hfile]
  by_cases hvalue : 0 ≤ p.value
  · rw [patch_sector_eq hstart ho hw hfit hroom hvalue fun _ => rfl]
    exact iff_of_true rfl hvalue
  · rw [patch_sector_negative (by omega)]
    exact iff_of_false nofun hvalue

/-- A CRC sets its field if it is computed and the sector that is read is the one to patch. -/
theorem patch_crc_iff {sector_size : ℕ} (hs : 0 < sector_size) {file : List UInt8} {p : Entry}
    {s o w a : ℕ} (hwhat : p.what.isSome) (hcrc : p.is_crc = true) (hstart : p.start_sector = s)
    (ho : p.byte_offset = o) (hw : p.size_in_bytes = w) (hfit : o + w ≤ sector_size)
    (hroom : (s + 1) * sector_size ≤ file.length) (ha : p.arg0 = a)
    (hinput : a * sector_size + p.arg1 ≤ file.length) :
    patch_file sector_size file p
        = some (overwrite file (s * sector_size + o)
          (leBytes w (value_to_set sector_size file p))) ↔
      CrcWindow sector_size file p ∧
        (s = 0 → LikeFirst sector_size file (crc_end sector_size p) o w) := by
  obtain ⟨what, hwhat⟩ := Option.isSome_iff_exists.mp hwhat
  obtain ⟨hread, hunread⟩ := crc_value_iff hs hcrc ha hinput
  have hvalue : 0 ≤ value_to_set sector_size file p := by
    rw [value_to_set, if_pos hcrc]
    exact Int.natCast_nonneg _
  by_cases hwindow : CrcWindow sector_size file p
  · have hfile : patch_file sector_size file p
        = patch_sector sector_size file p (value_to_set sector_size file p)
          (crc_end sector_size p) := by
      rw [patch_file, hwhat, patch_value, if_pos hcrc, hread hwindow]
    rw [hfile, and_iff_right hwindow]
    by_cases h0 : s = 0
    · -- no seek before the read: it goes on behind the input of the CRC
      subst h0
      have hlen := length_leBytes w (value_to_set sector_size file p)
      rw [patch_sector_first hs hstart ho hw hfit hvalue, forall_prop_of_true rfl, LikeFirst,
        Nat.zero_mul, Nat.zero_add]
      by_cases hend : crc_end sector_size p + sector_size ≤ file.length
      · have hfirst := overwrite_first_iff (d := leBytes w (value_to_set sector_size file p))
          (by rw [hlen]; exact hfit) (by omega) hend
        rw [if_pos hend, Option.some_inj, hfirst, hlen, and_iff_right hend]
      · rw [if_neg hend]
        exact iff_of_false nofun fun h => hend h.1
    · rw [patch_sector_eq hstart ho hw hfit hroom hvalue fun h => absurd h h0]
      exact iff_of_true rfl fun h => absurd h h0
  · have hfile : patch_file sector_size file p = none := by
      rw [patch_file, hwhat, patch_value, if_pos hcrc, hunread hwindow]
    rw [hfile]
    exact iff_of_false nofun fun h => hwindow h.1

/-- A pass of the loop leaves the file as the patch leaves it. -/
theorem perform_patch_eq_done_iff {mode : Patching} {sector_size : ℕ} {target : String}
    {files : Store} {file file' : List UInt8} {p : Entry} (hwants : wants_patch mode p = true)
    (hfile : files (patched_file mode target p) = some file) :
    perform_patch mode sector_size target files p
        = .done (Function.update files (patched_file mode target p) (some file')) ↔
      patch_file sector_size file p = some file' := by
  rw [perform_patch, if_pos hwants, hfile]
  dsimp only
  cases hpatch : patch_file sector_size file p with
  | none =>
    constructor
    · intro h
      cases h
    · intro h
      cases h
  | some new =>
    dsimp only
    constructor
    · intro h
      have hget := congrArg (fun r => r.state (patched_file mode target p)) h
      simpa only [Run.state_done, Function.update_self] using hget
    · intro h
      rw [h]

/-- The run of a patch sets its field if the patch does that to the file. -/
theorem run_sets_iff {mode : Patching} {sector_size : ℕ} {target : String} {files : Store}
    {file : List UInt8} {p : Entry} (hwants : wants_patch mode p = true)
    (hfile : files (patched_file mode target p) = some file) {pos w : ℕ} {value : ℤ}
    (hin : pos + w ≤ file.length) :
    (∃ file', perform_patching mode sector_size target [p] files
          = .done (Function.update files (patched_file mode target p) (some file')) ∧
        SetsField file file' pos w value) ↔
      patch_file sector_size file p = some (overwrite file pos (leBytes w value)) := by
  have hpass : perform_patching mode sector_size target [p] files
      = perform_patch mode sector_size target files p := by
    rw [perform_patching, Run.each_cons]
    cases perform_patch mode sector_size target files p <;> rfl
  simp only [hpass, perform_patch_eq_done_iff hwants hfile, setsField_iff hin, exists_eq_right]

/-- A patch sets its field if it reads the sector that it writes. -/
theorem patch_file_iff {sector_size : ℕ} (hs : 0 < sector_size) {file : List UInt8} {p : Entry}
    {s o w : ℕ} (hstart : p.start_sector = s) (ho : p.byte_offset = o) (hw : p.size_in_bytes = w)
    (hfit : o + w ≤ sector_size) (hroom : (s + 1) * sector_size ≤ file.length)
    (hinput : p.is_crc = true →
      0 ≤ p.arg0 ∧ p.arg0.toNat * sector_size + p.arg1 ≤ file.length) :
    patch_file sector_size file p = some (overwrite file (s * sector_size + o)
        (leBytes w (value_to_set sector_size file p))) ↔
      ReadsItsSector sector_size file p s o w := by
  rw [ReadsItsSector]
  by_cases hwhat : p.what.isSome
  · rw [and_iff_right hwhat]
    by_cases hcrc : p.is_crc = true
    · obtain ⟨ha, hlen⟩ := hinput hcrc
      rw [if_pos hcrc]
      exact patch_crc_iff hs hwhat hcrc hstart ho hw hfit hroom (Int.toNat_of_nonneg ha).symm hlen
    · rw [if_neg hcrc, value_to_set, if_neg hcrc]
      exact patch_number_iff hwhat hcrc hstart ho hw hfit hroom
  · -- the log line raises
    have hfail : patch_file sector_size file p = none := by
      rw [patch_file, Option.not_isSome_iff_eq_none.mp hwhat]
    rw [hfail]
    exact iff_of_false nofun fun h => hwhat h.1

/-- **One patch sets its field and nothing else exactly if it reads the sector that it writes.**
For either kind of value, either window and any file; the condition is on the numbers of the patch
and on the length of the file. -/
theorem one_patch_iff (mode : Patching) (sector_size : ℕ) (hs : 0 < sector_size)
    (target : String) (files : Store) (file : List UInt8) (p : Entry)
    (hwants : wants_patch mode p = true)
    (hfile : files (patched_file mode target p) = some file) (s o w : ℕ)
    (hstart : p.start_sector = s) (ho : p.byte_offset = o) (hw : p.size_in_bytes = w)
    (hfit : o + w ≤ sector_size) (hroom : (s + 1) * sector_size ≤ file.length)
    (hinput : p.is_crc = true →
      0 ≤ p.arg0 ∧ p.arg0.toNat * sector_size + p.arg1 ≤ file.length) :
    (∃ file', perform_patching mode sector_size target [p] files
          = .done (Function.update files (patched_file mode target p) (some file')) ∧
        SetsField file file' (s * sector_size + o) w (value_to_set sector_size file p)) ↔
      ReadsItsSector sector_size file p s o w := by
  have hin : s * sector_size + o + w ≤ file.length := by
    rw [Nat.add_mul, Nat.one_mul] at hroom
    omega
  rw [run_sets_iff hwants hfile hin]
  exact patch_file_iff hs hstart ho hw hfit hroom hinput

/-- A patch of the header CRC, computed over sector 1, of a file of three sectors. -/
def header_crc_patch (start_sector : ℤ) : Entry :=
  ⟨"gpt_main0.bin", 0, 0, 0, "false", start_sector, true, 1, 512, 0, 16, 4,
    some "Update Primary Header with CRC of Primary Header."⟩

/-- A file of two sectors of zeros and one of ones. -/
def three_sectors : List UInt8 := List.replicate 1024 0 ++ List.replicate 512 1

theorem length_three_sectors : three_sectors.length = 1536 := by
  rw [three_sectors, List.length_append, List.length_replicate, List.length_replicate]

theorem one_patch_second_sector :
    (∃ file', perform_patching .files 512 "" [header_crc_patch 1]
          (Function.update (fun _ => none) "gpt_main0.bin" (some three_sectors))
          = .done (Function.update
            (Function.update (fun _ => none) "gpt_main0.bin" (some three_sectors))
            "gpt_main0.bin" (some file')) ∧
        SetsField three_sectors file' (1 * 512 + 16) 4
          (value_to_set 512 three_sectors (header_crc_patch 1))) ↔
      ReadsItsSector 512 three_sectors (header_crc_patch 1) 1 16 4 :=
  one_patch_iff .files 512 (by decide) "" _ three_sectors (header_crc_patch 1) rfl
    (Function.update_self ..) 1 16 4 rfl rfl rfl (by decide)
    (by rw [length_three_sectors]; decide)
    fun _ => ⟨by decide, by rw [length_three_sectors]; decide⟩

/-- The CRC patch of sector 0 leaves the ones of sector 2 in it. -/
theorem crc_patch_of_sector_zero :
    wants_patch .files (header_crc_patch 0) = true ∧
      (header_crc_patch 0).byte_offset + (header_crc_patch 0).size_in_bytes ≤ 512 ∧
      (0 + 1) * 512 ≤ three_sectors.length ∧ 1 * 512 + 512 ≤ three_sectors.length ∧
      ¬ ∃ file', perform_patching .files 512 "" [header_crc_patch 0]
          (Function.update (fun _ => none) "gpt_main0.bin" (some three_sectors))
          = .done (Function.update
            (Function.update (fun _ => none) "gpt_main0.bin" (some three_sectors))
            "gpt_main0.bin" (some file')) ∧
        SetsField three_sectors file' (0 * 512 + 16) 4
          (value_to_set 512 three_sectors (header_crc_patch 0)) := by
  have hlen := length_three_sectors
  refine ⟨rfl, by decide, by omega, by omega, ?_⟩
  rintro ⟨file', hrun, hset⟩
  have hpatch := (run_sets_iff rfl (Function.update_self ..) (by omega)).mp ⟨file', hrun, hset⟩
  have hreads := (patch_file_iff (by decide) rfl rfl rfl (by decide) (by omega)
    fun _ => ⟨by decide, by rw [hlen]; decide⟩).mp hpatch
  obtain ⟨-, hlike⟩ := hreads.2.2 rfl
  -- the first byte behind the input of the CRC against the first byte of the file
  have hbyte := hlike 0 (by decide) (.inl (by decide))
  have hend : crc_end 512 (header_crc_patch 0) + 0 = 1024 := rfl
  rw [hend, three_sectors, List.getElem?_append_right (by rw [List.length_replicate]),
    List.getElem?_append_left (by rw [List.length_replicate]; decide), List.length_replicate,
    List.getElem?_replicate, List.getElem?_replicate] at hbyte
  exact absurd hbyte (by decide)

end AndroidTools.Msp
