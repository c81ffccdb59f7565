/-
`PerformPatching`.

A patch reads a window of the file, sets the bytes of one field in it and writes the window back.
A sector above 64 is reached through a window of 64 sectors that ends with it, a lower one
directly; the input of a CRC is read in the same two ways. Whichever way is taken, a patch whose
field lies inside its sector and whose windows lie inside the file does one thing, and
`patch_file_eq` says it: it is the field update `FieldOp` of the patch.

The loop over the patches is then a program of field updates, which the library knows how to run,
and no later module looks into the windows again.

Without prompts every refusal ends the script, and so does an exception; `Run.exit` keeps the
files as they are then. The file named by a patch is found in the current directory.
-/
import AndroidTools.Lib.FieldPatch
import AndroidTools.Lib.Run
import AndroidTools.Crc32
import AndroidTools.Msp.Parse

set_option autoImplicit false

namespace AndroidTools.Msp

open AndroidTools.Bytes AndroidTools.FieldPatch AndroidTools.Crc AndroidTools.Crc32

/-- The files that the script can open, by their names. -/
abbrev Store := String → Option (List UInt8)

/-- `Patching`: the patches of the files are performed, or those of the disk. -/
inductive Patching where
  | files
  | disk
  deriving Repr, DecidableEq

/-! ## One patch

A patch opens a file, computes its value, and reads, changes and writes back one sector. The
file position is part of it: reading a CRC leaves it somewhere, and a seek is only made
where the source makes one. A negative position raises.
-/

/-- `opfile.seek(pos)`, which raises for a negative position. -/
def seek (pos : ℤ) : Option ℕ := if 0 ≤ pos then some pos.toNat else none

/-- `PNumSectors`: the sectors that hold so many bytes, and one where there are none. -/
def crc_sectors (sector_size len : ℕ) : ℕ :=
  if len / sector_size = 0 ∨ 0 < len % sector_size then len / sector_size + 1
  else len / sector_size

/-- The value of a CRC patch, and where the reads leave the file position. A CRC of
more than 64 sectors takes a slice from a negative index and runs off its end. -/
def crc_value (sector_size : ℕ) (file : List UInt8) (p : Entry) : Option (ℤ × ℕ) :=
  let num := crc_sectors sector_size p.arg1
  if 64 < p.arg0 then
    -- the window of 64 sectors that ends where the input of the CRC does
    match seek ((p.arg0 - (64 - num)) * sector_size) with
    | none => none
    | some pos =>
      let bytes := slice file pos (64 * sector_size)
      if bytes.length ≠ 64 * sector_size ∨ 64 < num then none
      else (calc_crc32 (bytes.drop ((64 - num) * sector_size)) p.arg1).map fun crc =>
        ((crc : ℤ), pos + 64 * sector_size)
  else
    match seek (p.arg0 * sector_size) with
    | none => none
    | some pos =>
      let bytes := slice file pos p.arg1
      if bytes.length ≠ p.arg1 then none
      else (calc_crc32 bytes p.arg1).map fun crc => ((crc : ℤ), pos + p.arg1)

/-- The value to write, and where computing it has left the file position. -/
def patch_value (sector_size : ℕ) (file : List UInt8) (p : Entry) : Option (ℤ × ℕ) :=
  if p.is_crc then crc_value sector_size file p else some (p.value, 0)

/-- `ValueList[idx] = v`; a negative index counts from the end. -/
def set_item (l : List UInt8) (idx : ℤ) (v : UInt8) : Option (List UInt8) :=
  if 0 ≤ idx ∧ idx < l.length then some (l.set idx.toNat v)
  else if idx < 0 ∧ -(l.length : ℤ) ≤ idx then some (l.set (l.length + idx).toNat v)
  else none

/-- `for j in range(n): ValueList[idx + j] = (value >> (j*8)) & 0xFF`. -/
def set_field (l : List UInt8) (idx : ℤ) (value : ℤ) : ℕ → Option (List UInt8)
  | 0 => some l
  | n + 1 => (set_field l idx value n).bind fun l =>
    set_item l (idx + n) (UInt8.ofNat (value / 2 ^ (8 * n) % 256).toNat)

/-- The position and the length of the window through which a sector is patched. -/
def patch_window (sector_size : ℕ) (start_sector : ℤ) : ℤ × ℕ :=
  if 64 < start_sector then ((start_sector - 63) * sector_size, 64 * sector_size)
  else (start_sector * sector_size, sector_size)

/-- The first byte of the sector to patch, in the window that was read. -/
def window_sector (sector_size : ℕ) (start_sector : ℤ) : ℤ :=
  if 64 < start_sector then 63 * sector_size else 0

/-- Read the window, set the field, write the window back; `pos` is the position
after the CRC, used when the sector is 0. A short read, a negative value and a
position before the start of the file all end the script. -/
def patch_sector (sector_size : ℕ) (file : List UInt8) (p : Entry) (value : ℤ) (pos : ℕ) :
    Option (List UInt8) :=
  let (home, window) := patch_window sector_size p.start_sector
  -- for sector 0 the file is read from where it stands
  match if 0 < p.start_sector then seek home else some pos, seek home with
  | some read_pos, some write_pos =>
    let bytes := slice file read_pos window
    if bytes.length = window ∧ 0 ≤ value then
      (set_field bytes (window_sector sector_size p.start_sector + p.byte_offset) value
        p.size_in_bytes.toNat).map (overwrite file write_pos)
    else none
  | _, _ => none

/-- One pass of the loop on an open file, which returns the file as it is left. -/
def patch_file (sector_size : ℕ) (file : List UInt8) (p : Entry) : Option (List UInt8) :=
  match p.what, patch_value sector_size file p with
  | some _, some (value, pos) => patch_sector sector_size file p value pos
  | _, _ => none

/-! ## All patches

The loop goes through the document in order and skips what is not for the present target. A
patch that raises or exits ends the run with the files as they are then.
-/

/-- The patch is for what is being patched: the disk, or files. -/
def wants_patch (mode : Patching) (p : Entry) : Bool :=
  match mode with
  | .disk => p.filename = "DISK"
  | .files => p.filename ≠ "DISK"

/-- `FileWithPath`, the file that the pass opens. `target` is `Filename`, the disk. -/
def patched_file (mode : Patching) (target : String) (p : Entry) : String :=
  match mode with
  | .disk => target
  | .files => p.filename

/-- One pass of the loop: a patch that is not wanted is skipped, and a file that is not there ends
the script. -/
def perform_patch (mode : Patching) (sector_size : ℕ) (target : String) (files : Store)
    (p : Entry) : Run Store :=
  if wants_patch mode p then
    match files (patched_file mode target p) with
    | none => .exit files
    | some file =>
      match patch_file sector_size file p with
      | none => .exit files
      | some file' => .done (Function.update files (patched_file mode target p) (some file'))
  else .done files

/-- `PerformPatching`, all patches in the order of the document. -/
def perform_patching (mode : Patching) (sector_size : ℕ) (target : String)
    (patches : List Entry) (files : Store) : Run Store :=
  Run.each (perform_patch mode sector_size target) patches files

/-- `msp.py -n -p patch0.xml` for a disk of `disk_size` bytes. -/
def run_patches (mode : Patching) (disk_size : ℕ) (target : String)
    (document : List XmlElement) (files : Store) : Run Store :=
  if disk_size = 0 then .exit files
  else match parse_xml disk_size document ⟨512, [], []⟩ with
    | none => .exit files
    | some arrays =>
      perform_patching mode arrays.sector_size target
        (arrays.patch_array.map (replace_disk_size disk_size arrays.sector_size)) files

/-! ## The field of a patch

The sector is a list of numbers in which the bytes of the value are set one by one. That is
writing a little-endian field into the sector, and the sector read, changed and written back
is the file with the field overwritten.
-/

theorem seek_natCast (n : ℕ) : seek (n : ℤ) = some n := by
  rw [seek, if_pos (by omega), Int.toNat_natCast]

theorem set_item_natCast {l : List UInt8} {i : ℕ} (h : i < l.length) (v : UInt8) :
    set_item l (i : ℤ) v = some (l.set i v) := by
  rw [set_item, if_pos (by omega), Int.toNat_natCast]

/-- Setting the bytes one by one from the lowest up writes the field. -/
theorem set_field_eq {l : List UInt8} {i : ℕ} (value : ℤ) (n : ℕ) (h : i + n ≤ l.length) :
    set_field l i value n = some (overwrite l i (leBytes n value)) := by
  induction n with
  | zero => rw [set_field, leBytes, List.range_zero, List.map_nil, overwrite_nil]
  | succ n ih =>
    have hn : i + (leBytes n value).length ≤ l.length := by
      rw [length_leBytes]
      omega
    have hn' : i + (leBytes (n + 1) value).length ≤ l.length := by
      rw [length_leBytes]
      omega
    have hidx : (i : ℤ) + n = ((i + n : ℕ) : ℤ) := by omega
    rw [set_field, ih (by omega), Option.bind_some, hidx,
      set_item_natCast (by rw [length_overwrite_of_le hn]; omega)]
    congr 1
    -- byte by byte: the new one is at `i + n`
    apply List.ext_getElem?
    intro m
    rw [List.getElem?_set, getElem?_overwrite hn, getElem?_overwrite hn', length_leBytes,
      length_leBytes, length_overwrite_of_le hn, leBytes_concat]
    by_cases hm : i + n = m
    · subst hm
      rw [if_pos rfl, if_pos (by omega), if_pos (by omega),
        List.getElem?_append_right (by rw [length_leBytes]; omega), length_leBytes]
      simp
    · rw [if_neg hm]
      by_cases hin : i ≤ m ∧ m < i + n
      · rw [if_pos hin, if_pos (by omega),
          List.getElem?_append_left (by rw [length_leBytes]; omega)]
      · rw [if_neg hin, if_neg (by omega)]

/-- The window of a sector, read, changed in one field and written back, is the
file changed in that field. -/
theorem patch_sector_eq {sector_size : ℕ} {file : List UInt8} {p : Entry} {value : ℤ}
    {pos s o w : ℕ} (hs : p.start_sector = s) (ho : p.byte_offset = o) (hw : p.size_in_bytes = w)
    (hfit : o + w ≤ sector_size) (hroom : (s + 1) * sector_size ≤ file.length)
    (hvalue : 0 ≤ value) (hpos : s = 0 → pos = 0) :
    patch_sector sector_size file p value pos
      = some (overwrite file (s * sector_size + o) (leBytes w value)) := by
  have hlen := length_leBytes w value
  have hsplit : (s + 1) * sector_size = s * sector_size + sector_size := by ring
  -- where the window starts, how long it is, and where the sector is in it
  obtain ⟨home, window, inner, hwindow, hinner, hin, hwin, haddr⟩ :
      ∃ home window inner : ℕ, patch_window sector_size p.start_sector = ((home : ℤ), window) ∧
        window_sector sector_size p.start_sector = inner ∧ inner + sector_size ≤ window ∧
        home + window ≤ file.length ∧ home + inner = s * sector_size := by
    unfold patch_window window_sector
    by_cases hfar : 64 < s
    · have hfar' : 64 < p.start_sector := by omega
      have hback : (s - 63) * sector_size + 63 * sector_size = s * sector_size := by
        rw [← Nat.add_mul]
        congr 1
        omega
      have h64 : 64 * sector_size = 63 * sector_size + sector_size := by ring
      refine ⟨(s - 63) * sector_size, 64 * sector_size, 63 * sector_size, ?_, ?_, by omega,
        by omega, hback⟩
      · rw [if_pos hfar', hs]
        push_cast [Nat.cast_sub (show 63 ≤ s by omega)]
        rfl
      · rw [if_pos hfar']
        push_cast
        rfl
    · have hfar' : ¬ 64 < p.start_sector := by omega
      refine ⟨s * sector_size, sector_size, 0, ?_, ?_, by omega, by omega, by omega⟩
      · rw [if_neg hfar', hs]
        push_cast
        rfl
      · rw [if_neg hfar']
        rfl
  have hread := length_slice_of_le hwin
  have hstart : (if 0 < p.start_sector then seek home else some pos) = some home := by
    split_ifs with hpositive
    · exact seek_natCast home
    · have h0 : s = 0 := by omega
      rw [hpos h0]
      rw [h0, Nat.zero_mul] at haddr
      congr 1
      omega
  have hidx : (inner : ℤ) + p.byte_offset = ((inner + o : ℕ) : ℤ) := by
    rw [ho]
    push_cast
    rfl
  unfold patch_sector
  simp only [hwindow]
  rw [hstart, seek_natCast]
  simp only [hread, hvalue, and_self, if_true, hinner, hidx, hw, Int.toNat_natCast]
  rw [set_field_eq value w (by rw [hread]; omega), Option.map_some,
    overwrite_slice_overwrite (by rw [hlen]; omega) hwin, ← haddr, Nat.add_assoc]

/-! ## A patch keeps the size of the file

Reading the window whole is what a pass insists on, so the sector that is written lies
inside the file and the file stays as long as it was.
-/

theorem length_set_item {l l' : List UInt8} {idx : ℤ} {v : UInt8}
    (h : set_item l idx v = some l') : l'.length = l.length := by
  unfold set_item at h
  split_ifs at h <;> cases h <;> exact List.length_set

theorem length_set_field {l l' : List UInt8} {idx value : ℤ} {n : ℕ}
    (h : set_field l idx value n = some l') : l'.length = l.length := by
  induction n generalizing l' with
  | zero =>
    cases h
    rfl
  | succ n ih =>
    rw [set_field] at h
    obtain ⟨l₁, h₁, h⟩ := Option.bind_eq_some_iff.mp h
    rw [length_set_item h, ih h₁]

theorem seek_eq_some {pos : ℤ} {n : ℕ} (h : seek pos = some n) : pos = n := by
  unfold seek at h
  split_ifs at h with hpos
  cases h
  omega

/-- The window of a patched sector was read whole, so the sector is in the file and
the file keeps its size. -/
theorem patch_sector_room {sector_size : ℕ} (hs : 0 < sector_size) {file file' : List UInt8}
    {p : Entry} {value : ℤ} {pos : ℕ}
    (h : patch_sector sector_size file p value pos = some file') :
    file'.length = file.length ∧
      (0 < p.start_sector → (p.start_sector + 1) * sector_size ≤ file.length) := by
  unfold patch_sector at h
  dsimp only at h
  split at h
  · rename_i read_pos write_pos hstart hhome
    split_ifs at h with hok
    obtain ⟨bytes, hbytes, rfl⟩ := Option.map_eq_some_iff.mp h
    have hlen := length_set_field hbytes
    have hwin := hok.1
    rw [hwin] at hlen
    rw [length_slice] at hwin
    have hhome' := seek_eq_some hhome
    unfold patch_window at hstart hhome' hwin hlen
    -- from sector 65 on the file is read in windows of 64 sectors
    by_cases hfar : 64 < p.start_sector
    · have hpos : 0 < p.start_sector := by omega
      rw [if_pos hfar] at hstart hhome' hwin hlen
      rw [if_pos hpos] at hstart
      dsimp only at hstart hhome' hwin hlen
      have hread := seek_eq_some hstart
      have hend : (p.start_sector + 1) * (sector_size : ℤ)
          = (p.start_sector - 63) * sector_size + 64 * sector_size := by ring
      refine ⟨length_overwrite_of_le (by omega), fun _ => ?_⟩
      omega
    · rw [if_neg hfar] at hstart hhome' hwin hlen
      dsimp only at hstart hhome' hwin hlen
      have hend : (p.start_sector + 1) * (sector_size : ℤ)
          = p.start_sector * sector_size + sector_size := by ring
      by_cases hpos : 0 < p.start_sector
      · rw [if_pos hpos] at hstart
        have hread := seek_eq_some hstart
        refine ⟨length_overwrite_of_le (by omega), fun _ => ?_⟩
        omega
      · -- the sector is 0, or the second seek raises
        have hzero : p.start_sector * (sector_size : ℤ) ≤ 0 :=
          Int.mul_nonpos_of_nonpos_of_nonneg (by omega) (by omega)
        exact ⟨length_overwrite_of_le (by omega), fun h => absurd h hpos⟩
  · cases h

theorem patch_file_room {sector_size : ℕ} (hs : 0 < sector_size) {file file' : List UInt8}
    {p : Entry} (h : patch_file sector_size file p = some file') :
    file'.length = file.length ∧
      (0 < p.start_sector → (p.start_sector + 1) * sector_size ≤ file.length) := by
  unfold patch_file at h
  split at h
  · exact patch_sector_room hs h
  · cases h

/-- A pass stops at a patch whose sector is not in its file. -/
theorem perform_patching_exits {sector_size : ℕ} (hs : 0 < sector_size) {target : String}
    {patches : List Entry} {files : Store} {p : Entry} (hp : p ∈ patches)
    (hdisk : p.filename ≠ "DISK") {f : List UInt8} (hf : files p.filename = some f)
    (hstart : 0 < p.start_sector) (hroom : f.length < (p.start_sector + 1) * sector_size) :
    ∃ files', perform_patching .files sector_size target patches files = .exit files' := by
  refine Run.each_exits (fun fs => ∃ g, fs p.filename = some g ∧ g.length = f.length) ?_ hp ?_
    ⟨f, hf, rfl⟩
  · rintro q - s t ⟨g, hg, hlen⟩ hstep
    unfold perform_patch at hstep
    split_ifs at hstep with hwants
    · simp only [patched_file] at hstep
      split at hstep
      · cases hstep
      · rename_i file hfile
        split at hstep
        · cases hstep
        · rename_i file' hpatch
          cases hstep
          -- a patch of the same file keeps its length, one of another leaves it alone
          by_cases hname : p.filename = q.filename
          · rw [hname] at hg ⊢
            rw [hfile] at hg
            cases hg
            exact ⟨file', Function.update_self .., (patch_file_room hs hpatch).1.trans hlen⟩
          · exact ⟨g, by rw [Function.update_of_ne hname, hg], hlen⟩
    · cases hstep
      exact ⟨g, hg, hlen⟩
  · rintro s ⟨g, hg, hlen⟩
    -- so when the turn of `p` comes, its sector still ends behind the file
    have hfail : patch_file sector_size g p = none := by
      cases hpatch : patch_file sector_size g p with
      | none => rfl
      | some g' =>
        have hin := (patch_file_room hs hpatch).2 hstart
        omega
    refine ⟨s, ?_⟩
    unfold perform_patch
    rw [if_pos (by simp [wants_patch, hdisk])]
    simp only [patched_file, hg, hfail]

/-! ## The value of a patch

A CRC is read in one of two ways, depending on how far its sectors are from the beginning of
the file. For at most 64 sectors that are all in the file, both give the CRC of the bytes
the patch names.
-/

theorem crc_sectors_mul {sector_size len m : ℕ} (hm : 0 < m) (hlen : len ≤ m * sector_size) :
    crc_sectors sector_size len ≤ m ∧ len ≤ crc_sectors sector_size len * sector_size := by
  have hdiv := Nat.div_add_mod' len sector_size
  have hle : len / sector_size ≤ m := Nat.div_le_of_le_mul (by rw [Nat.mul_comm]; exact hlen)
  unfold crc_sectors
  split_ifs with h
  · rcases Nat.eq_zero_or_pos sector_size with h0 | hpos
    · subst h0
      rw [Nat.mul_zero] at hlen
      simp only [Nat.div_zero, Nat.zero_add, Nat.mul_zero]
      omega
    have hmod := Nat.mod_lt len hpos
    refine ⟨?_, by rw [Nat.add_mul]; omega⟩
    rcases h with h | h
    · omega
    · -- a remainder: the last sector is not full
      by_contra hlast
      have heq : len / sector_size = m := by omega
      rw [heq] at hdiv
      omega
  · refine ⟨hle, ?_⟩
    omega

/-- A CRC from a sector up to 64 on is that of the bytes directly behind the seek. -/
theorem crc_value_near {sector_size : ℕ} {file : List UInt8} {p : Entry} {a : ℕ}
    (ha : p.arg0 = a) (hnear : a ≤ 64) (hroom : a * sector_size + p.arg1 ≤ file.length) :
    crc_value sector_size file p
      = some ((crc32 (slice file (a * sector_size) p.arg1) : ℤ), a * sector_size + p.arg1) := by
  have hfar : ¬ (64 : ℤ) < (a : ℤ) := by omega
  have hpos : (a : ℤ) * sector_size = ((a * sector_size : ℕ) : ℤ) := by push_cast; ring
  have hread := length_slice_of_le hroom
  unfold crc_value
  rw [ha]
  dsimp only
  simp only [hfar, if_false, hpos, seek_natCast, hread, ne_eq, not_true_eq_false]
  rw [calc_crc32_of_le hread.ge, List.take_of_length_le hread.le]
  rfl

/-- A CRC from a sector above 64 on: its sectors end the window, so there are at most 64, and
the last one is whole. -/
theorem crc_value_far {sector_size : ℕ} {file : List UInt8} {p : Entry} {a : ℕ} (ha : p.arg0 = a)
    (hfar : 64 < a) (hcover : p.arg1 ≤ crc_sectors sector_size p.arg1 * sector_size) :
    crc_value sector_size file p
      = if crc_sectors sector_size p.arg1 ≤ 64 ∧
          (a + crc_sectors sector_size p.arg1) * sector_size ≤ file.length then
        some ((crc32 (slice file (a * sector_size) p.arg1) : ℤ),
          (a + crc_sectors sector_size p.arg1) * sector_size)
      else none := by
  have hfar' : (64 : ℤ) < (a : ℤ) := by omega
  unfold crc_value
  rw [ha]
  dsimp only
  generalize crc_sectors sector_size p.arg1 = num at hcover
  have hpos : ((a : ℤ) - (64 - num)) * sector_size
      = (((a + num - 64) * sector_size : ℕ) : ℤ) := by
    push_cast [Nat.cast_sub (show 64 ≤ a + num by omega)]
    ring
  have hend : (a + num - 64) * sector_size + 64 * sector_size = (a + num) * sector_size := by
    rw [← Nat.add_mul]
    congr 1
    omega
  simp only [hfar', if_true, hpos, seek_natCast]
  by_cases hwindow : num ≤ 64 ∧ (a + num) * sector_size ≤ file.length
  · obtain ⟨hnum, hroom⟩ := hwindow
    -- the input is the end of the window
    have hstart : (a + num - 64) * sector_size + (64 - num) * sector_size = a * sector_size := by
      rw [← Nat.add_mul]
      congr 1
      omega
    have hsplit : (64 - num) * sector_size + num * sector_size = 64 * sector_size := by
      rw [← Nat.add_mul]
      congr 1
      omega
    have hread := length_slice_of_le (hend.trans_le hroom)
    have hinput := slice_slice file ((a + num - 64) * sector_size) (64 * sector_size)
      ((64 - num) * sector_size) p.arg1 (by omega)
    rw [hstart] at hinput
    rw [if_neg (by rw [hread]; omega), if_pos ⟨hnum, hroom⟩,
      calc_crc32_of_le (by rw [List.length_drop, hread]; omega), hend]
    exact congrArg (fun bytes => some ((crc32 bytes : ℤ), (a + num) * sector_size)) hinput
  · -- the window ends behind the file, or the CRC begins before it
    rw [if_neg hwindow, if_pos]
    by_contra hfull
    apply hwindow
    rw [length_slice, ne_eq, not_or, not_not, not_lt] at hfull
    rcases Nat.eq_zero_or_pos sector_size with h0 | hpositive
    · subst h0
      exact ⟨hfull.2, by omega⟩
    · exact ⟨hfull.2, by omega⟩

/-- Both ways of reading give the CRC of the bytes from sector `a` on. -/
theorem crc_value_eq {sector_size : ℕ} {file : List UInt8} {p : Entry} {a m : ℕ}
    (ha : p.arg0 = a) (hm : 0 < m) (hm64 : m ≤ 64) (hlen : p.arg1 ≤ m * sector_size)
    (hroom : (a + m) * sector_size ≤ file.length) :
    ∃ pos, crc_value sector_size file p
      = some ((crc32 (slice file (a * sector_size) p.arg1) : ℤ), pos) := by
  obtain ⟨hnum, hcover⟩ := crc_sectors_mul hm hlen
  by_cases hfar : 64 < a
  · have hend : (a + crc_sectors sector_size p.arg1) * sector_size ≤ file.length :=
      (Nat.mul_le_mul_right _ (by omega)).trans hroom
    rw [crc_value_far ha hfar hcover, if_pos ⟨by omega, hend⟩]
    exact ⟨_, rfl⟩
  · have hend : a * sector_size + p.arg1 ≤ file.length := by
      rw [Nat.add_mul] at hroom
      omega
    exact ⟨_, crc_value_near ha (by omega) hend⟩

/-! ## A patch is a field update

From here on a patch is an update in the sense of the library: the field it writes, and a
constant or a checksum of a window. `Addresses` says of a dictionary which update it is, and
what has to lie inside the file for that.
-/

/-- The patch `p` writes the field of `op`, and its windows lie inside a file of
`n` bytes. -/
structure Addresses (sector_size n : ℕ) (p : Entry) (op : FieldOp) (s : ℕ) : Prop where
  what : p.what.isSome
  start_sector : p.start_sector = s
  byte_offset : p.byte_offset = ((op.dst - s * sector_size : ℕ) : ℤ)
  size_in_bytes : p.size_in_bytes = op.width
  above : s * sector_size ≤ op.dst
  inside : op.dst + op.width ≤ (s + 1) * sector_size
  room : (s + 1) * sector_size ≤ n

/-- The patch `p` is the update `op` on every file of `n` bytes. -/
def Performs (sector_size n : ℕ) (p : Entry) (op : FieldOp) : Prop :=
  ∃ s, Addresses sector_size n p op s ∧
    match op.src with
    | .const v => p.is_crc = false ∧ p.value = v ∧ 0 ≤ v
    | .checksum pos len => p.is_crc = true ∧ 0 < s ∧ ∃ a m : ℕ, p.arg0 = a ∧ p.arg1 = len ∧
        pos = a * sector_size ∧ 0 < m ∧ m ≤ 64 ∧ len ≤ m * sector_size ∧
        (a + m) * sector_size ≤ n

theorem Performs.inBounds {sector_size n : ℕ} {p : Entry} {op : FieldOp}
    (h : Performs sector_size n p op) : op.InBounds n := by
  obtain ⟨s, haddr, hsrc⟩ := h
  refine ⟨haddr.inside.trans haddr.room, ?_⟩
  cases hop : op.src with
  | const v => trivial
  | checksum pos len =>
    rw [hop] at hsrc
    obtain ⟨-, -, a, m, -, -, rfl, -, -, hlen, hroom⟩ := hsrc
    rw [Nat.add_mul] at hroom
    dsimp only
    omega

/-- **A patch does one thing to the file**, by whichever windows it goes: it is the update of its
field. -/
theorem patch_file_eq {sector_size : ℕ} {file : List UInt8} {p : Entry} {op : FieldOp}
    (h : Performs sector_size file.length p op) :
    patch_file sector_size file p = some (op.apply crc32 file) := by
  obtain ⟨s, haddr, hsrc⟩ := h
  obtain ⟨what, hwhat⟩ := Option.isSome_iff_exists.mp haddr.what
  have hdst : s * sector_size + (op.dst - s * sector_size) = op.dst := by
    have := haddr.above
    omega
  have hfit : op.dst - s * sector_size + op.width ≤ sector_size := by
    have habove := haddr.above
    have hinside := haddr.inside
    rw [Nat.add_mul, Nat.one_mul] at hinside
    omega
  -- for a value of either kind the sector is read, changed and written back
  have hsector : ∀ {value : ℤ} {pos : ℕ}, 0 ≤ value → (s = 0 → pos = 0) →
      patch_sector sector_size file p value pos
        = some (overwrite file op.dst (leBytes op.width value)) := by
    intro value pos hvalue hpos
    rw [patch_sector_eq haddr.start_sector haddr.byte_offset haddr.size_in_bytes hfit haddr.room
      hvalue hpos, hdst]
  unfold patch_file patch_value
  rw [hwhat, FieldOp.apply]
  cases hop : op.src with
  | const v =>
    rw [hop] at hsrc
    obtain ⟨hcrc, hval, hv⟩ := hsrc
    simp only [hcrc, Bool.false_eq_true, if_false, hval, Source.value]
    exact hsector hv fun _ => rfl
  | checksum pos len =>
    rw [hop] at hsrc
    obtain ⟨hcrc, hs, a, m, ha, rfl, rfl, hm, hm64, hlen, hroom⟩ := hsrc
    obtain ⟨pos, hvalue⟩ := crc_value_eq ha hm hm64 hlen hroom
    simp only [hcrc, if_true, hvalue, Source.value]
    exact hsector (Int.natCast_nonneg _) fun h0 => absurd h0 (by omega)

/-! ## All patches are a program of field updates

Patching files runs on each of them its own updates, and patching the disk runs those for
the disk. What is proved about programs of updates applies to the documents of `ptool.py` in
this form.
-/

/-- Patching files runs, on each of them, its own updates in the order of the
document; the patches for the disk are skipped. -/
theorem perform_patching_files {ι : Type*} [DecidableEq ι] {name : ι → String}
    (hname : Function.Injective name) {size : ι → ℕ} {sector_size : ℕ} {target : String}
    {patches : List Entry} {ops : List (ι × FieldOp)}
    (hops : List.Forall₂ (fun p op => p.filename = name op.1 ∧
      Performs sector_size (size op.1) p op.2) (patches.filter (·.filename ≠ "DISK")) ops)
    {files : Store} {fs : ι → List UInt8} (hfiles : ∀ t, files (name t) = some (fs t))
    (hsize : ∀ t, (fs t).length = size t) :
    ∃ files', perform_patching .files sector_size target patches files = .done files' ∧
      (∀ t, files' (name t) = some (runTagged crc32 ops fs t)) ∧
      ∀ n, (∀ t, n ≠ name t) → files' n = files n := by
  induction patches generalizing ops files fs with
  | nil =>
    cases hops
    exact ⟨files, rfl, hfiles, fun _ _ => rfl⟩
  | cons p patches ih =>
    unfold perform_patching
    rw [Run.each_cons]
    by_cases hdisk : p.filename = "DISK"
    · -- not for a file
      have hskip : perform_patch .files sector_size target files p = .done files := by
        simp [perform_patch, wants_patch, hdisk]
      rw [List.filter_cons_of_neg (by simpa using hdisk)] at hops
      rw [hskip, Run.bind_done]
      exact ih hops hfiles hsize
    · rw [List.filter_cons_of_pos (by simpa using hdisk)] at hops
      cases hops with
      | @cons _ op _ ops hop hops =>
        obtain ⟨hfilename, hperforms⟩ := hop
        have hpatch : patch_file sector_size (fs op.1) p = some (op.2.apply crc32 (fs op.1)) :=
          patch_file_eq (by rw [hsize]; exact hperforms)
        have hstep : perform_patch .files sector_size target files p
            = .done (Function.update files (name op.1) (some (op.2.apply crc32 (fs op.1)))) := by
          unfold perform_patch
          rw [if_pos (by simp [wants_patch, hdisk])]
          simp only [patched_file, hfilename, hfiles, hpatch]
        rw [hstep, Run.bind_done]
        have hlen : (op.2.apply crc32 (fs op.1)).length = (fs op.1).length :=
          FieldOp.length_apply crc32 (by rw [hsize]; exact hperforms.inBounds)
        -- the other images are untouched
        have hfiles' : ∀ t, Function.update files (name op.1)
            (some (op.2.apply crc32 (fs op.1))) (name t)
              = some (Function.update fs op.1 (op.2.apply crc32 (fs op.1)) t) := by
          intro t
          by_cases ht : t = op.1
          · subst ht
            rw [Function.update_self, Function.update_self]
          · rw [Function.update_of_ne (fun h => ht (hname h)), Function.update_of_ne ht, hfiles]
        have hsize' : ∀ t, (Function.update fs op.1 (op.2.apply crc32 (fs op.1)) t).length
            = size t := by
          intro t
          by_cases ht : t = op.1
          · subst ht
            rw [Function.update_self, hlen, hsize]
          · rw [Function.update_of_ne ht, hsize]
        obtain ⟨files', hrun, hdone, hother⟩ := ih hops hfiles' hsize'
        refine ⟨files', hrun, hdone, fun n hn => ?_⟩
        rw [hother n hn, Function.update_of_ne (hn op.1)]

/-- Patching the disk runs the updates of the patches for it on the disk. -/
theorem perform_patching_disk {sector_size : ℕ} {target : String} {patches : List Entry}
    {ops : List FieldOp} {files : Store} {d : List UInt8}
    (hops : List.Forall₂ (Performs sector_size d.length)
      (patches.filter (·.filename = "DISK")) ops)
    (hd : files target = some d) :
    perform_patching .disk sector_size target patches files
      = .done (Function.update files target (some (runOps crc32 ops d))) := by
  induction patches generalizing ops files d with
  | nil =>
    cases hops
    rw [perform_patching, Run.each_nil, runOps_nil, ← hd, Function.update_eq_self]
  | cons p patches ih =>
    unfold perform_patching
    rw [Run.each_cons]
    -- the patches of the files are passed over, on both sides
    by_cases hdisk : p.filename = "DISK"
    · rw [List.filter_cons_of_pos (by simpa using hdisk)] at hops
      cases hops with
      | @cons _ op _ ops hop hops =>
        have hstep : perform_patch .disk sector_size target files p
            = .done (Function.update files target (some (op.apply crc32 d))) := by
          unfold perform_patch
          rw [if_pos (by simp [wants_patch, hdisk])]
          simp only [patched_file, hd, patch_file_eq hop]
        have hlen := FieldOp.length_apply crc32 hop.inBounds
        rw [hstep, Run.bind_done, runOps_cons]
        rw [← hlen] at hops
        have hrest := ih hops (Function.update_self target (some (op.apply crc32 d)) files)
        rw [Function.update_idem] at hrest
        exact hrest
    · have hskip : perform_patch .disk sector_size target files p = .done files := by
        simp [perform_patch, wants_patch, hdisk]
      rw [List.filter_cons_of_neg (by simpa using hdisk)] at hops
      rw [hskip, Run.bind_done]
      exact ih hops hd

end AndroidTools.Msp
