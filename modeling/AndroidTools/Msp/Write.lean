/-
`PerformWrite`.

A program element is written by opening its file, bounding the size by the
partition, seeking in the file, and writing what is read there at the start
sector. A file below 10 MB is read at once and padded to whole sectors; a larger
one goes over in pieces of 10 MB, of which only the last, shorter one is padded.
`num_partition_sectors` 0 means that the partition has as many sectors as the
file needs.

Without prompts a file that is not found ends the script, and so does a start
sector beyond the disk; a negative start sector is skipped. All elements are
written (`-f` is not given). `flatten_write_pieces` says in one line which bytes go over,
and `perform_write_one_cases` what a pass can do at all; the runs are put together from it.
-/
import AndroidTools.Lib.Writes
import AndroidTools.Msp.Patching

set_option autoImplicit false

namespace AndroidTools.Msp

open AndroidTools.Bytes AndroidTools.Writes

/-- `MAX_FILE_SIZE_BEFORE_SPLIT`. -/
def max_file_size_before_split : ℕ := 10 * 1024 * 1024

/-! ## One element

A pass reads the file of an element from its offset and cuts it to the size of the
partition, where 0 sectors means as many as the file needs. Below 10 MB it is read at once
and padded to whole sectors; a larger one goes over in pieces of 10 MB and a last one, which
alone is padded. The writes are recorded in a trace, with the element they were done for.
-/

/-- `num_partition_sectors` for a file of `size` bytes. -/
def write_num_sectors (sector_size size : ℕ) (w : Entry) : ℤ :=
  if w.num_partition_sectors = 0 then
    ((size / sector_size : ℕ) : ℤ) + if size % sector_size ≠ 0 then 1 else 0
  else w.num_partition_sectors

/-- `size`: of a file of `size` bytes only what fits the partition is written. -/
def write_size (sector_size size : ℕ) (w : Entry) : ℤ :=
  if write_num_sectors sector_size size w * sector_size < size then
    write_num_sectors sector_size size w * sector_size
  else size

/-- `ipfile.read(size)` of the bytes still to come; a negative size reads all. -/
def read_bytes (bytes : List UInt8) (size : ℤ) : List UInt8 :=
  if size < 0 then bytes else bytes.take size.toNat

/-- What one `opfile.write` after the other writes of the bytes at the file position. -/
def write_pieces (sector_size : ℕ) (bytes : List UInt8) (size : ℤ) : List (List UInt8) :=
  if size < max_file_size_before_split then [pad sector_size (read_bytes bytes size)]
  else
    let num_loop := size.toNat / max_file_size_before_split
    let temp_size := num_loop * max_file_size_before_split
    (List.range num_loop).map (fun a =>
        slice bytes (a * max_file_size_before_split) max_file_size_before_split) ++
      if 0 < size.toNat % max_file_size_before_split then
        -- the last piece is padded, by its own length
        [pad sector_size (slice bytes temp_size (size.toNat - temp_size))]
      else []

/-- The pieces written for an element whose file is `file`; `none` where the seek
raises. -/
def written_pieces (sector_size : ℕ) (file : List UInt8) (w : Entry) :
    Option (List (List UInt8)) :=
  (seek (w.file_sector_offset * sector_size)).map fun pos =>
    write_pieces sector_size (file.drop pos) (write_size sector_size file.length w)

/-- `opfile.write` again and again from `pos` on. -/
def write_all (file : List UInt8) (pos : ℕ) : List (List UInt8) → List UInt8
  | [] => file
  | piece :: pieces => write_all (overwrite file pos piece) (pos + piece.length) pieces

/-- A write the loop did, with the element it did it for. -/
structure Written extends WriteAt where
  element : Entry
  deriving Repr, DecidableEq

/-- The files, and a trace of the writes so far. -/
structure WriteState where
  files : Store
  writes : List Written

/-- One pass of the loop. The check of `2*DiskSizeInBytes` before the output file is
opened refuses nothing that the one after does not refuse. -/
def perform_write_one (sector_size disk_size : ℕ) (target : String) (s : WriteState) (w : Entry) :
    Run WriteState :=
  if w.filename = "" then .done s
  else
    match s.files w.filename with
    | none => .exit s
    | some file =>
      match written_pieces sector_size file w, s.files target with
      | some pieces, some image =>
        if w.start_sector < 0 then .done s
        else if ((disk_size / sector_size : ℕ) : ℤ) < w.start_sector then .exit s
        else
          let position := w.start_sector.toNat * sector_size
          .done {
            files := Function.update s.files target (some (write_all image position pieces))
            writes := s.writes ++ [⟨⟨position, pieces.flatten⟩, w⟩] }
      | _, _ => .exit s

/-- `PerformWrite`, over `WriteSorted`. -/
def perform_write (sector_size disk_size : ℕ) (target : String) (write_sorted : List Entry)
    (s : WriteState) : Run WriteState :=
  Run.each (perform_write_one sector_size disk_size target) write_sorted s

/-! ## Which bytes are written

In a row the pieces are the bytes that were read, with the padding of the last one behind
them. Where a full piece is whole sectors that is the same as padding all that was read;
elsewhere it need not be.
-/

/-- Writing piece by piece is writing everything. -/
theorem write_all_eq (pieces : List (List UInt8)) (file : List UInt8) (pos : ℕ) :
    write_all file pos pieces = overwrite file pos pieces.flatten := by
  induction pieces generalizing file pos with
  | nil => rw [write_all, List.flatten_nil, overwrite_nil]
  | cons piece pieces ih => rw [write_all, ih, List.flatten_cons, overwrite_append]

/-- The bytes of the pieces without padding. -/
theorem flatten_slices (bytes : List UInt8) (m n : ℕ) :
    ((List.range n).map fun a => slice bytes (a * m) m).flatten = bytes.take (n * m) := by
  induction n with
  | zero => simp
  | succ n ih =>
    rw [List.range_succ, List.map_append, List.flatten_append, ih, List.map_singleton,
      List.flatten_singleton, slice, Nat.succ_mul, List.take_add]

/-- The bytes written: all the full pieces as they are, then the rest of what is
read, padded. -/
theorem flatten_write_pieces (sector_size : ℕ) (bytes : List UInt8) {size : ℕ} :
    (write_pieces sector_size bytes size).flatten
      = bytes.take (size / max_file_size_before_split * max_file_size_before_split)
        ++ pad sector_size ((bytes.take size).drop
          (size / max_file_size_before_split * max_file_size_before_split)) := by
  unfold write_pieces read_bytes
  have hpos : 0 < max_file_size_before_split := by decide
  have hdiv := Nat.div_add_mod size max_file_size_before_split
  rw [Nat.mul_comm] at hdiv
  by_cases hsmall : size < max_file_size_before_split
  · have hneg : ¬ (size : ℤ) < 0 := by omega
    rw [if_pos (by exact_mod_cast hsmall), if_neg hneg, Int.toNat_natCast,
      Nat.div_eq_of_lt hsmall, Nat.zero_mul, List.take_zero, List.drop_zero, List.nil_append,
      List.flatten_singleton]
  · rw [if_neg (by exact_mod_cast hsmall)]
    dsimp only
    rw [Int.toNat_natCast, List.flatten_append, flatten_slices]
    congr 1
    split_ifs with hrest
    · rw [List.flatten_singleton, slice, List.drop_take]
    · -- no rest: the full pieces are everything
      have hall : size / max_file_size_before_split * max_file_size_before_split = size := by
        omega
      rw [hall, List.drop_take, Nat.sub_self, List.take_zero, pad_nil, List.flatten_nil]

/-- When a piece is whole sectors, padding the last one is padding all that is written. -/
theorem flatten_write_pieces_of_dvd {sector_size : ℕ}
    (hdvd : sector_size ∣ max_file_size_before_split) {bytes : List UInt8} {size : ℕ}
    (hle : size ≤ bytes.length) :
    (write_pieces sector_size bytes size).flatten = pad sector_size (bytes.take size) := by
  rw [flatten_write_pieces]
  set full := size / max_file_size_before_split * max_file_size_before_split
  have hfull : full ≤ size := Nat.div_mul_le_self _ _
  have hwhole : sector_size ∣ (bytes.take full).length := by
    rw [List.length_take, Nat.min_eq_left (hfull.trans hle)]
    exact Dvd.dvd.mul_left hdvd _
  have htake : bytes.take full = (bytes.take size).take full := by
    rw [List.take_take, Nat.min_eq_left hfull]
  rw [append_pad hwhole, htake, List.take_append_drop]

/-- What `PerformWrite` writes for an element. -/
def written (sector_size : ℕ) (file : List UInt8) (w : Entry) : Option (List UInt8) :=
  (written_pieces sector_size file w).map List.flatten

/-! ## How many bytes are written

The number of bytes that a pass writes is a function of the length of the file and of the
numbers of the element. It can be larger than the partition in one case only, when the last
piece is padded past it.
-/

/-- The number of bytes written for an element whose file has `length` bytes: all full
pieces of what is read, then the rest of it in whole sectors. -/
def written_length (sector_size length : ℕ) (w : Entry) : ℕ :=
  let rest := length - (w.file_sector_offset * sector_size).toNat
  let size := write_size sector_size length w
  if size < 0 then padded sector_size rest
  else
    let full := size.toNat / max_file_size_before_split * max_file_size_before_split
    min rest full + padded sector_size (min rest size.toNat - full)

section Length

variable {sector_size : ℕ} {file : List UInt8} {w : Entry}

/-- The seek raises for a negative position only. -/
theorem written_of_nonneg (h : 0 ≤ w.file_sector_offset) :
    written sector_size file w = some (write_pieces sector_size
      (file.drop (w.file_sector_offset * sector_size).toNat)
      (write_size sector_size file.length w)).flatten := by
  rw [written, written_pieces, seek, if_pos (Int.mul_nonneg h (Int.natCast_nonneg _))]
  rfl

theorem written_of_neg (hs : 0 < sector_size) (h : w.file_sector_offset < 0) :
    written sector_size file w = none := by
  have hneg : ¬ 0 ≤ w.file_sector_offset * sector_size := by
    rw [not_le]
    exact Int.mul_neg_of_neg_of_pos h (by exact_mod_cast hs)
  rw [written, written_pieces, seek, if_neg hneg]
  rfl

theorem length_written {bytes : List UInt8} (h : written sector_size file w = some bytes) :
    bytes.length = written_length sector_size file.length w := by
  unfold written written_pieces seek at h
  by_cases hpos : 0 ≤ w.file_sector_offset * sector_size
  case neg =>
    rw [if_neg hpos] at h
    cases h
  rw [if_pos hpos] at h
  obtain rfl := Option.some.inj h
  unfold written_length
  dsimp only
  set size := write_size sector_size file.length w
  split_ifs with hneg
  · have hsmall : size < max_file_size_before_split := by
      have hmax : (0 : ℤ) ≤ max_file_size_before_split := Int.natCast_nonneg _
      omega
    rw [write_pieces, if_pos hsmall, read_bytes, if_pos hneg, List.flatten_singleton, length_pad,
      List.length_drop]
  · obtain ⟨n, hn⟩ := Int.eq_ofNat_of_zero_le (not_lt.mp hneg)
    rw [hn, flatten_write_pieces, Int.toNat_natCast, List.length_append, length_pad,
      List.length_take, List.length_drop, List.length_drop, List.length_take, List.length_drop,
      Nat.min_comm _ (file.length - _), Nat.min_comm n]

/-- Without a size, the partition has as many sectors as the file needs. -/
theorem write_size_of_zero (hs : 0 < sector_size) (length : ℕ)
    (hnum : w.num_partition_sectors = 0) : write_size sector_size length w = length := by
  have hdiv := Nat.div_add_mod length sector_size
  have hmod := Nat.mod_lt length hs
  have hroom : (length : ℤ) ≤ write_num_sectors sector_size length w * sector_size := by
    rw [write_num_sectors, if_pos hnum]
    by_cases hrest : length % sector_size ≠ 0
    · rw [if_pos hrest]
      have hle : length ≤ (length / sector_size + 1) * sector_size := by
        rw [Nat.add_mul, Nat.one_mul, Nat.mul_comm]
        omega
      exact_mod_cast hle
    · rw [if_neg hrest]
      have heq : length = length / sector_size * sector_size := by
        rw [Nat.mul_comm]
        omega
      rw [add_zero]
      exact_mod_cast heq.le
  rw [write_size, if_neg (not_lt.mpr hroom)]

/-- With one, the file is cut to it. -/
theorem write_size_of_pos {length n : ℕ} (hnum : w.num_partition_sectors = n) (hn : 0 < n) :
    write_size sector_size length w = (min length (n * sector_size) : ℕ) := by
  have hsectors : write_num_sectors sector_size length w = n := by
    rw [write_num_sectors, if_neg (by omega), hnum]
  rw [write_size, hsectors]
  by_cases hcut : (n : ℤ) * sector_size < length
  · have hlt : n * sector_size < length := by exact_mod_cast hcut
    rw [if_pos hcut, Nat.min_eq_right hlt.le, Nat.cast_mul]
  · have hle : length ≤ n * sector_size := by exact_mod_cast not_lt.mp hcut
    rw [if_neg hcut, Nat.min_eq_left hle]

/-- What is written of a file from its first byte on. -/
theorem written_eq_pad (hs : 0 < sector_size) (hdvd : sector_size ∣ max_file_size_before_split)
    (hoffset : w.file_sector_offset = 0) {n : ℕ} (hnum : w.num_partition_sectors = n) :
    written sector_size file w
      = some (pad sector_size (if n = 0 then file else file.take (n * sector_size))) := by
  rw [written_of_nonneg hoffset.ge, hoffset, zero_mul, Int.toNat_zero, List.drop_zero]
  by_cases hn : n = 0
  · rw [if_pos hn, write_size_of_zero hs _ (by omega), flatten_write_pieces_of_dvd hdvd le_rfl,
      List.take_length]
  · rw [if_neg hn, write_size_of_pos hnum (by omega),
      flatten_write_pieces_of_dvd hdvd (Nat.min_le_left _ _), ← List.take_take, List.take_take,
      Nat.min_comm, ← List.take_take, List.take_length]

/-- A file that is not empty has a size to write. -/
theorem write_size_ne_zero (hs : 0 < sector_size) {length : ℕ} (h : 0 < length) (w : Entry) :
    write_size sector_size length w ≠ 0 := by
  by_cases hnum : w.num_partition_sectors = 0
  · rw [write_size_of_zero hs length hnum]
    omega
  · unfold write_size write_num_sectors
    rw [if_neg hnum]
    split_ifs with hcut
    · exact mul_ne_zero hnum (by omega)
    · omega

/-- Nothing is written exactly if there is nothing to read. -/
theorem written_length_eq_zero (hs : 0 < sector_size) (length : ℕ) (w : Entry) :
    written_length sector_size length w = 0 ↔
      length ≤ (w.file_sector_offset * sector_size).toNat := by
  unfold written_length
  dsimp only
  set pos := (w.file_sector_offset * sector_size).toNat
  constructor
  · intro hzero
    by_contra hlt
    have hsize := write_size_ne_zero hs (show 0 < length by omega) w
    split_ifs at hzero with hneg
    · have hle := le_padded sector_size (length - pos)
      omega
    · have hle := le_padded sector_size (min (length - pos)
        (write_size sector_size length w).toNat
        - (write_size sector_size length w).toNat / max_file_size_before_split
          * max_file_size_before_split)
      omega
  · intro hle
    rw [Nat.sub_eq_zero_of_le hle, Nat.zero_min, Nat.zero_min, Nat.zero_sub, padded_zero, ite_self]

/-- A file cut to `n` sectors ends within them, unless its last piece is padded past them. -/
theorem written_length_le (hs : 0 < sector_size) {length n : ℕ}
    (hnum : w.num_partition_sectors = n) (hn : 0 < n)
    (h : sector_size ∣ max_file_size_before_split ∨
      min length (n * sector_size) < max_file_size_before_split) :
    written_length sector_size length w ≤ n * sector_size := by
  unfold written_length
  dsimp only
  rw [write_size_of_pos hnum hn, if_neg (by omega), Int.toNat_natCast]
  set rest := length - (w.file_sector_offset * sector_size).toNat
  set size := min length (n * sector_size) with hsize'
  set full := size / max_file_size_before_split * max_file_size_before_split with hfull
  have hle : size ≤ n * sector_size := Nat.min_le_right _ _
  have hfullle : full ≤ size := Nat.div_mul_le_self _ _
  have hread : padded sector_size (min rest size) ≤ n * sector_size :=
    padded_le_mul hs ((Nat.min_le_right _ _).trans hle)
  rcases h with hdvd | hsmall
  · have hwhole : sector_size ∣ full := Dvd.dvd.mul_left hdvd _
    rcases Nat.le_total rest full with hrest | hrest
    · rw [Nat.min_eq_left hrest, Nat.min_eq_left (hrest.trans hfullle),
        Nat.sub_eq_zero_of_le hrest, padded_zero]
      omega
    · -- the full pieces are whole sectors
      obtain ⟨m, hm⟩ := hwhole
      have hfit : padded sector_size (min rest size - full) ≤ (n - m) * sector_size := by
        refine padded_le_mul hs ?_
        rw [Nat.sub_mul, Nat.mul_comm m, ← hm]
        omega
      rw [Nat.sub_mul, Nat.mul_comm m, ← hm] at hfit
      rw [Nat.min_eq_right hrest]
      omega
  · have hzero : full = 0 := by rw [hfull, Nat.div_eq_of_lt hsmall, Nat.zero_mul]
    rwa [hzero, Nat.min_zero, Nat.zero_add, Nat.sub_zero]

end Length

/-- The bytes for an element, if its file is there and the seek does not raise. -/
def source_bytes (sector_size : ℕ) (s : WriteState) (w : Entry) : Option (List UInt8) :=
  (s.files w.filename).bind fun file => written sector_size file w

/-- The state after the bytes of an element were written. -/
def WriteState.write (s : WriteState) (target : String) (image : List UInt8) (w : Written) :
    WriteState where
  files := Function.update s.files target (some (overwrite image w.position w.bytes))
  writes := s.writes ++ [w]

/-- The image after a write. -/
@[simp] theorem WriteState.write_target (s : WriteState) (target : String) (image : List UInt8)
    (w : Written) :
    (s.write target image w).files target = some (overwrite image w.position w.bytes) :=
  Function.update_self ..

/-- Any other file after it. -/
theorem WriteState.write_other {s : WriteState} {target name : String} (h : name ≠ target)
    (image : List UInt8) (w : Written) :
    (s.write target image w).files name = s.files name :=
  Function.update_of_ne h _ _

/-! ## One pass

A pass goes on, leaves, or writes; `perform_write_one_cases` says so with everything that it
takes and everything that it changes. Whether a byte is written is a condition on the
element and its file.
-/

section Pass

variable {sector_size disk_size : ℕ} {target : String} {s t : WriteState} {w : Entry}

/-- The write a pass does for an element with these bytes. -/
def write_of (sector_size : ℕ) (w : Entry) (bytes : List UInt8) : Written :=
  ⟨⟨w.start_sector.toNat * sector_size, bytes⟩, w⟩

/-- All a pass for a named element does. -/
theorem perform_write_one_eq (hname : w.filename ≠ "") :
    perform_write_one sector_size disk_size target s w =
      match source_bytes sector_size s w, s.files target with
      | some bytes, some image =>
        if w.start_sector < 0 then .done s
        else if ((disk_size / sector_size : ℕ) : ℤ) < w.start_sector then .exit s
        else .done (s.write target image (write_of sector_size w bytes))
      | _, _ => .exit s := by
  unfold perform_write_one source_bytes
  rw [if_neg hname]
  cases s.files w.filename with
  | none => rfl
  | some file =>
    rw [Option.bind_some, written]
    dsimp only
    cases written_pieces sector_size file w with
    | none => cases s.files target <;> rfl
    | some pieces =>
      cases s.files target with
      | none => rfl
      | some image =>
        dsimp only [Option.map_some]
        rw [write_all_eq]
        rfl

/-- All a pass can do: go on, leave, or write. -/
theorem perform_write_one_cases (sector_size disk_size : ℕ) (target : String) (s : WriteState)
    (w : Entry) :
    perform_write_one sector_size disk_size target s w = .done s ∨
      perform_write_one sector_size disk_size target s w = .exit s ∨
      ∃ file image bytes, s.files w.filename = some file ∧ s.files target = some image ∧
        written sector_size file w = some bytes ∧ 0 ≤ w.start_sector ∧
        w.start_sector ≤ ((disk_size / sector_size : ℕ) : ℤ) ∧
        perform_write_one sector_size disk_size target s w
          = .done (s.write target image (write_of sector_size w bytes)) := by
  by_cases hname : w.filename = ""
  · left
    rw [perform_write_one, if_pos hname]
  rw [perform_write_one_eq hname]
  -- the file is read before the target is opened, and both before the start is checked
  cases hsource : source_bytes sector_size s w with
  | none => exact Or.inr (Or.inl rfl)
  | some bytes =>
    cases himage : s.files target with
    | none => exact Or.inr (Or.inl rfl)
    | some image =>
      obtain ⟨file, hfile, hbytes⟩ := Option.bind_eq_some_iff.mp hsource
      dsimp only
      split_ifs with hneg hlarge
      · exact Or.inl rfl
      · exact Or.inr (Or.inl rfl)
      · exact Or.inr (Or.inr ⟨file, image, bytes, hfile, rfl, hbytes, not_lt.mp hneg,
          not_lt.mp hlarge, rfl⟩)

/-- No byte is written for the element: it names no file, the output file is not there,
the seek raises, its sector is skipped or refused, or there is nothing to read. -/
def WritesNothing (sector_size disk_size : ℕ) (target : String) (s : WriteState) (w : Entry) :
    Prop :=
  w.filename = "" ∨ s.files target = none ∨ w.file_sector_offset < 0 ∨ w.start_sector < 0 ∨
    ((disk_size / sector_size : ℕ) : ℤ) < w.start_sector ∨
    ∀ file, s.files w.filename = some file →
      file.length ≤ (w.file_sector_offset * sector_size).toNat

/-- A write of no bytes leaves the files as they are. -/
theorem WriteState.write_nil {image : List UInt8} (himage : s.files target = some image) :
    (s.write target image (write_of sector_size w [])).files = s.files := by
  have hsame : overwrite image (write_of sector_size w []).position [] = image := overwrite_nil _ _
  rw [WriteState.write]
  dsimp only [write_of] at hsame ⊢
  rw [hsame, ← himage, Function.update_eq_self]

/-- A pass in which nothing is written leaves the files as they are. -/
theorem pass_writes_nothing (hs : 0 < sector_size)
    (h : WritesNothing sector_size disk_size target s w) :
    (perform_write_one sector_size disk_size target s w).state.files = s.files ∧
      ∀ v ∈ (perform_write_one sector_size disk_size target s w).state.writes,
        v ∈ s.writes ∨ v.bytes = [] := by
  rcases perform_write_one_cases sector_size disk_size target s w with hrun | hrun |
    ⟨file, image, bytes, hfile, himage, hbytes, hstart, hle, hrun⟩
  · rw [hrun]
    exact ⟨rfl, fun v hv => Or.inl hv⟩
  · rw [hrun]
    exact ⟨rfl, fun v hv => Or.inl hv⟩
  · by_cases hname : w.filename = ""
    · rw [perform_write_one, if_pos hname]
      exact ⟨rfl, fun v hv => Or.inl hv⟩
    -- what is left is a write of no bytes
    have hnil : bytes = [] := by
      rcases h with h | h | h | h | h | h
      · exact absurd h hname
      · rw [himage] at h
        cases h
      · rw [written_of_neg hs h] at hbytes
        cases hbytes
      · omega
      · omega
      · apply List.eq_nil_of_length_eq_zero
        rw [length_written hbytes, written_length_eq_zero hs]
        exact h file hfile
    subst hnil
    rw [hrun]
    refine ⟨WriteState.write_nil himage, fun v hv => ?_⟩
    rcases List.mem_append.mp hv with hv | hv
    · exact Or.inl hv
    · rw [List.mem_singleton.mp hv]
      exact Or.inr rfl

/-- Any other pass writes at least a byte. -/
theorem pass_writes (hs : 0 < sector_size)
    (h : ¬ WritesNothing sector_size disk_size target s w) :
    ∃ file image bytes, s.files w.filename = some file ∧ s.files target = some image ∧
      written sector_size file w = some bytes ∧ bytes ≠ [] ∧ 0 ≤ w.start_sector ∧
      w.start_sector ≤ ((disk_size / sector_size : ℕ) : ℤ) ∧
      perform_write_one sector_size disk_size target s w
        = .done (s.write target image (write_of sector_size w bytes)) := by
  unfold WritesNothing at h
  push Not at h
  obtain ⟨hname, himage, hoffset, hstart, hle, file, hfile, hlen⟩ := h
  obtain ⟨image, himage⟩ := Option.ne_none_iff_exists'.mp himage
  have hbytes := @written_of_nonneg sector_size file w hoffset
  set bytes := (write_pieces sector_size (file.drop (w.file_sector_offset * sector_size).toNat)
    (write_size sector_size file.length w)).flatten
  refine ⟨file, image, bytes, hfile, himage, hbytes, ?_, hstart, hle, ?_⟩
  · intro hnil
    -- nothing is written only for a length of zero
    have hzero := length_written hbytes
    rw [hnil, List.length_nil] at hzero
    exact absurd ((written_length_eq_zero hs _ _).mp hzero.symm) (by omega)
  · have hsource : source_bytes sector_size s w = some bytes := by
      rw [source_bytes, hfile, Option.bind_some, hbytes]
    rw [perform_write_one_eq hname, hsource, himage]
    dsimp only
    rw [if_neg (by omega), if_neg (by omega)]

/-- A pass with a file at hand, for a sector on the disk. -/
theorem pass_done {file image : List UInt8} (hname : w.filename ≠ "")
    (hfile : s.files w.filename = some file) (himage : s.files target = some image)
    (hoffset : 0 ≤ w.file_sector_offset) (hstart : 0 ≤ w.start_sector)
    (hle : w.start_sector ≤ ((disk_size / sector_size : ℕ) : ℤ)) :
    ∃ bytes, written sector_size file w = some bytes ∧
      perform_write_one sector_size disk_size target s w
        = .done (s.write target image (write_of sector_size w bytes)) := by
  refine ⟨_, written_of_nonneg hoffset, ?_⟩
  rw [perform_write_one_eq hname, source_bytes, hfile, Option.bind_some,
    written_of_nonneg hoffset, himage]
  dsimp only
  rw [if_neg (by omega), if_neg (by omega)]

/-- A pass for a file that is written from its first byte on. -/
theorem pass_padded (hs : 0 < sector_size) (hdvd : sector_size ∣ max_file_size_before_split)
    {file image : List UInt8} (hname : w.filename ≠ "") (hfile : s.files w.filename = some file)
    (himage : s.files target = some image) (hoffset : w.file_sector_offset = 0) {n : ℕ}
    (hnum : w.num_partition_sectors = n) (hstart : 0 ≤ w.start_sector)
    (hle : w.start_sector ≤ ((disk_size / sector_size : ℕ) : ℤ)) :
    perform_write_one sector_size disk_size target s w
      = .done (s.write target image (write_of sector_size w
          (pad sector_size (if n = 0 then file else file.take (n * sector_size))))) := by
  obtain ⟨bytes, hbytes, hrun⟩ := pass_done hname hfile himage hoffset.ge hstart hle
  rw [written_eq_pad hs hdvd hoffset hnum] at hbytes
  rw [hrun, Option.some.inj hbytes]

/-! ## All passes

The trace only grows, and each entry of it is the write of one turn. So a statement about
the bytes a run has written is one about its turns.
-/

/-- A pass adds to the trace. -/
theorem perform_write_one_trace (s : WriteState) (w : Entry) :
    perform_write_one sector_size disk_size target s w
      = (perform_write_one sector_size disk_size target ⟨s.files, []⟩ w).map fun t =>
          { t with writes := s.writes ++ t.writes } := by
  by_cases hname : w.filename = ""
  · rw [perform_write_one, perform_write_one, if_pos hname, if_pos hname, Run.map_done,
      List.append_nil]
  · have hsame : source_bytes sector_size ⟨s.files, []⟩ w = source_bytes sector_size s w := rfl
    rw [perform_write_one_eq hname, perform_write_one_eq hname, hsame]
    dsimp only
    cases source_bytes sector_size s w with
    | none => simp
    | some bytes =>
      cases s.files target with
      | none => simp
      | some image =>
        dsimp only
        split_ifs <;> simp [WriteState.write]

/-- Every write of a run is the write of a pass. -/
theorem perform_write_writes {l : List Entry} {v : Written}
    (hv : v ∈ (perform_write sector_size disk_size target l s).state.writes) :
    v ∈ s.writes ∨ ∃ w u, Run.Turn (perform_write_one sector_size disk_size target) l s w u ∧
      v ∈ (perform_write_one sector_size disk_size target ⟨u.files, []⟩ w).state.writes ∧
      v.element = w := by
  induction l generalizing s with
  | nil => exact Or.inl hv
  | cons w l ih =>
    -- a pass adds at most one write, of its own element
    have hstep : v ∈ (perform_write_one sector_size disk_size target s w).state.writes →
        v ∈ s.writes ∨
          (v ∈ (perform_write_one sector_size disk_size target ⟨s.files, []⟩ w).state.writes ∧
            v.element = w) := by
      intro h
      rw [perform_write_one_trace] at h
      rcases perform_write_one_cases sector_size disk_size target ⟨s.files, []⟩ w with hrun | hrun |
        ⟨file, image, bytes, -, -, -, -, -, hrun⟩
      · rw [hrun] at h
        exact Or.inl (by simpa using h)
      · rw [hrun] at h
        exact Or.inl (by simpa using h)
      · rw [hrun] at h ⊢
        rcases List.mem_append.mp h with h | h
        · exact Or.inl h
        · refine Or.inr ⟨h, ?_⟩
          rw [List.mem_singleton.mp h]
          rfl
    rw [perform_write, Run.each_cons] at hv
    -- with an exit the loop ends behind this pass
    cases hrun : perform_write_one sector_size disk_size target s w with
    | exit t =>
      rw [hrun] at hv hstep
      rcases hstep hv with h | ⟨h, hw⟩
      · exact Or.inl h
      · exact Or.inr ⟨w, s, Run.turn_cons.mpr (Or.inl ⟨rfl, rfl⟩), h, hw⟩
    | done t =>
      rw [hrun] at hv hstep
      rcases ih hv with h | ⟨w', u, hturn, h, hw⟩
      · rcases hstep h with h | ⟨h, hw⟩
        · exact Or.inl h
        · exact Or.inr ⟨w, s, Run.turn_cons.mpr (Or.inl ⟨rfl, rfl⟩), h, hw⟩
      · exact Or.inr ⟨w', u, Run.turn_cons.mpr (Or.inr ⟨t, hrun, hturn⟩), h, hw⟩

/-- The trace only grows. -/
theorem perform_write_keeps {l : List Entry} {v : Written} (hv : v ∈ s.writes) :
    v ∈ (perform_write sector_size disk_size target l s).state.writes := by
  refine Run.each_invariant (fun t : WriteState => v ∈ t.writes) (fun w _ t ht => ?_) hv
  rcases perform_write_one_cases sector_size disk_size target t w with hrun | hrun |
    ⟨file, image, bytes, -, -, -, -, -, hrun⟩
  · rw [hrun]
    exact ht
  · rw [hrun]
    exact ht
  · rw [hrun]
    exact List.mem_append_left _ ht

/-- What is written in a turn is written by the run. -/
theorem perform_write_turn {l : List Entry} {u : WriteState} {v : Written}
    (hturn : Run.Turn (perform_write_one sector_size disk_size target) l s w u)
    (hv : v ∈ (perform_write_one sector_size disk_size target u w).state.writes) :
    v ∈ (perform_write sector_size disk_size target l s).state.writes := by
  obtain ⟨as, bs, rfl, hrun⟩ := hturn
  rw [perform_write, Run.each_append, hrun, Run.bind_done, Run.each_cons]
  cases hstep : perform_write_one sector_size disk_size target u w with
  | exit t =>
    rw [hstep] at hv
    exact hv
  | done t =>
    rw [hstep] at hv
    exact perform_write_keeps hv

/-- A turn writes the bytes from `position` to `last`, at least one. -/
def TurnWrites (sector_size disk_size : ℕ) (target : String) (l : List Entry) (s : WriteState)
    (w : Entry) (position last : ℕ) : Prop :=
  ∃ u file, Run.Turn (perform_write_one sector_size disk_size target) l s w u ∧
    ¬ WritesNothing sector_size disk_size target u w ∧ u.files w.filename = some file ∧
    position = w.start_sector.toNat * sector_size ∧
    last = position + written_length sector_size file.length w

/-- **The bytes a run writes are those of its turns.** -/
theorem exists_write_iff (hs : 0 < sector_size) {l : List Entry} (hwrites : s.writes = [])
    {position last : ℕ} :
    TurnWrites sector_size disk_size target l s w position last ↔
      ∃ v ∈ (perform_write sector_size disk_size target l s).state.writes, v.bytes ≠ [] ∧
        v.element = w ∧ v.position = position ∧ v.last = last := by
  constructor
  · rintro ⟨u, file, hturn, hsome, hfile, rfl, rfl⟩
    obtain ⟨file', image, bytes, hfile', himage, hbytes, hne, -, -, hrun⟩ := pass_writes hs hsome
    rw [hfile] at hfile'
    cases hfile'
    refine ⟨write_of sector_size w bytes, perform_write_turn hturn ?_, hne, rfl, rfl, ?_⟩
    · rw [hrun]
      exact List.mem_append_right _ (List.mem_singleton_self _)
    · rw [WriteAt.last, ← length_written hbytes]
      rfl
  · rintro ⟨v, hv, hne, rfl, rfl, rfl⟩
    -- every write there is was made in a turn of the loop
    rcases perform_write_writes hv with hv | ⟨w, u, hturn, hv, rfl⟩
    · rw [hwrites] at hv
      cases hv
    · have hsome : ¬ WritesNothing sector_size disk_size target u v.element := by
        intro hnothing
        rcases (pass_writes_nothing (s := ⟨u.files, []⟩) hs hnothing).2 v hv with h | h
        · cases h
        · exact hne h
      obtain ⟨file, image, bytes, hfile, himage, hbytes, -, -, -, hrun⟩ :=
        @pass_writes sector_size disk_size target ⟨u.files, []⟩ v.element hs hsome
      rw [hrun] at hv
      rcases List.mem_append.mp hv with hv | hv
      · cases hv
      have heq := List.mem_singleton.mp hv
      refine ⟨u, file, hturn, hsome, hfile, congrArg (fun v : Written => v.position) heq, ?_⟩
      have hlength := congrArg (fun v : Written => v.bytes.length) heq
      have hbound := length_written hbytes
      rw [WriteAt.last, ← hbound]
      exact congrArg (v.position + ·) hlength

/-! ## Passes that leave

The script leaves in the middle of the loop where a file is missing, a seek raises, or a
sector is not on the disk. What was written before stays. Whether that is nothing at all can
be read off the elements before the one it leaves at.
-/

/-- The loop leaves at the element: its file is not there, the seek raises, or its sector is
beyond the disk. -/
def Stops (sector_size disk_size : ℕ) (files : Store) (w : Entry) : Prop :=
  files w.filename = none ∨ w.file_sector_offset < 0 ∨
    ((disk_size / sector_size : ℕ) : ℤ) < w.start_sector

theorem stops_congr {files files' : Store}
    (h : (files w.filename).isSome = (files' w.filename).isSome) :
    Stops sector_size disk_size files w ↔ Stops sector_size disk_size files' w := by
  have hnone : files w.filename = none ↔ files' w.filename = none := by
    rw [← Option.isNone_iff_eq_none, ← Option.isNone_iff_eq_none, ← Option.not_isSome,
      ← Option.not_isSome, h]
  rw [Stops, Stops, hnone]

/-- A pass leaves at such an element, and goes on at any other. -/
theorem pass_stops (hs : 0 < sector_size) (hname : w.filename ≠ "") {image : List UInt8}
    (himage : s.files target = some image) :
    (Stops sector_size disk_size s.files w ∧
        perform_write_one sector_size disk_size target s w = .exit s) ∨
      (¬ Stops sector_size disk_size s.files w ∧
        ∃ t, perform_write_one sector_size disk_size target s w = .done t ∧
          ∀ name, (t.files name).isSome = (s.files name).isSome) := by
  rw [perform_write_one_eq hname, himage, source_bytes, Stops]
  cases hfile : s.files w.filename with
  | none => exact Or.inl ⟨Or.inl rfl, rfl⟩
  | some file =>
    rw [Option.bind_some]
    -- the three reasons to stop, in the order in which the code meets them
    by_cases hoffset : w.file_sector_offset < 0
    · rw [written_of_neg hs hoffset]
      exact Or.inl ⟨Or.inr (Or.inl hoffset), rfl⟩
    rw [written_of_nonneg (not_lt.mp hoffset)]
    dsimp only
    have hdisk : (0 : ℤ) ≤ ((disk_size / sector_size : ℕ) : ℤ) := Int.natCast_nonneg _
    by_cases hlarge : ((disk_size / sector_size : ℕ) : ℤ) < w.start_sector
    · rw [if_neg (not_lt.mpr (hdisk.trans hlarge.le)), if_pos hlarge]
      exact Or.inl ⟨Or.inr (Or.inr hlarge), rfl⟩
    refine Or.inr ⟨?_, ?_⟩
    · rintro (hnone | hneg | hlt)
      · cases hnone
      · exact hoffset hneg
      · exact hlarge hlt
    rw [if_neg hlarge]
    -- neither a negative start nor a write takes a file away
    split_ifs with hneg
    · exact ⟨s, rfl, fun _ => rfl⟩
    · refine ⟨_, rfl, fun name => ?_⟩
      by_cases hne : name = target
      · rw [hne, WriteState.write_target, himage]
        rfl
      · rw [WriteState.write_other hne]

/-- **The loop ends** exactly if it leaves at no element. -/
theorem perform_write_done_iff (hs : 0 < sector_size) {l : List Entry}
    (hnames : ∀ w ∈ l, w.filename ≠ "") (himage : (s.files target).isSome) :
    (∃ t, perform_write sector_size disk_size target l s = .done t)
      ↔ ∀ w ∈ l, ¬ Stops sector_size disk_size s.files w := by
  -- whether a file is there stays as it is
  let I : WriteState → Prop := fun t => ∀ name, (t.files name).isSome = (s.files name).isSome
  have hpass : ∀ w ∈ l, ∀ t, I t → (Stops sector_size disk_size s.files w ∧
          perform_write_one sector_size disk_size target t w = .exit t) ∨
        (¬ Stops sector_size disk_size s.files w ∧
          ∃ u, perform_write_one sector_size disk_size target t w = .done u ∧ I u) := by
    intro w hw t ht
    obtain ⟨image, himage⟩ := Option.isSome_iff_exists.mp ((ht target).trans himage)
    have hsame := @stops_congr sector_size disk_size w _ _ (ht w.filename)
    rcases pass_stops hs (hnames w hw) himage with ⟨hstop, hrun⟩ | ⟨hstop, u, hrun, hu⟩
    · exact Or.inl ⟨hsame.mp hstop, hrun⟩
    · exact Or.inr ⟨fun h => hstop (hsame.mpr h), u, hrun, fun name => (hu name).trans (ht name)⟩
  constructor
  · rintro ⟨t, ht⟩ w hw hstop
    have hkeep : ∀ v ∈ l, ∀ u u', I u →
        perform_write_one sector_size disk_size target u v = .done u' → I u' := by
      intro v hv u u' hu hrun
      rcases hpass v hv u hu with ⟨-, hexit⟩ | ⟨-, u'', hdone, hu''⟩
      · rw [hrun] at hexit
        cases hexit
      · rw [hrun] at hdone
        rwa [Run.done.inj hdone]
    have hexits : ∀ u, I u →
        ∃ u', perform_write_one sector_size disk_size target u w = .exit u' := by
      intro u hu
      rcases hpass w hw u hu with ⟨-, hexit⟩ | ⟨hno, -⟩
      · exact ⟨u, hexit⟩
      · exact absurd hstop hno
    obtain ⟨u, hu⟩ := Run.each_exits I hkeep hw hexits (s := s) (fun _ => rfl)
    rw [perform_write, hu] at ht
    cases ht
  · intro hno
    have hgoes : ∀ w ∈ l, ∀ u, I u →
        ∃ u', perform_write_one sector_size disk_size target u w = .done u' ∧ I u' := by
      intro w hw u hu
      rcases hpass w hw u hu with ⟨hstop, -⟩ | ⟨-, hdone⟩
      · exact absurd hstop (hno w hw)
      · exact hdone
    obtain ⟨t, ht, -⟩ := Run.each_done I hgoes (s := s) (fun _ => rfl)
    exact ⟨t, ht⟩

/-- The loop leaves at an element before a byte has been written. -/
def StopsFirst (sector_size disk_size : ℕ) (target : String) (l : List Entry) (s : WriteState) :
    Prop :=
  ∃ as w bs, l = as ++ w :: bs ∧ Stops sector_size disk_size s.files w ∧
    ∀ a ∈ as, ¬ Stops sector_size disk_size s.files a ∧
      WritesNothing sector_size disk_size target s a

theorem writes_nothing_congr {t : WriteState} (h : t.files = s.files) :
    WritesNothing sector_size disk_size target t w
      ↔ WritesNothing sector_size disk_size target s w := by
  rw [WritesNothing, WritesNothing, h]

theorem stops_first_congr {l : List Entry} {t : WriteState} (h : t.files = s.files) :
    StopsFirst sector_size disk_size target l t ↔ StopsFirst sector_size disk_size target l s := by
  simp only [StopsFirst, writes_nothing_congr h, h]

/-- **It has written no byte when it leaves** exactly in that case. -/
theorem perform_write_exit_iff (hs : 0 < sector_size) {l : List Entry}
    (hnames : ∀ w ∈ l, w.filename ≠ "") (himage : (s.files target).isSome)
    (hwrites : ∀ v ∈ s.writes, v.bytes = []) :
    (∃ t, perform_write sector_size disk_size target l s = .exit t ∧ ∀ v ∈ t.writes, v.bytes = [])
      ↔ StopsFirst sector_size disk_size target l s := by
  induction l generalizing s with
  | nil => simp [perform_write, StopsFirst]
  | cons w l ih =>
    have ih := @ih
    obtain ⟨image, himage⟩ := Option.isSome_iff_exists.mp himage
    rw [perform_write, Run.each_cons]
    rcases @pass_stops sector_size disk_size target s w hs (hnames w List.mem_cons_self) image
        himage with
      ⟨hstop, hrun⟩ | ⟨hstop, u, hrun, hu⟩
    · rw [hrun]
      exact ⟨fun _ => ⟨[], w, l, rfl, hstop, by simp⟩, fun _ => ⟨s, rfl, hwrites⟩⟩
    rw [hrun, Run.bind_done]
    -- the element before which nothing is written is not this one
    have hshift : StopsFirst sector_size disk_size target (w :: l) s ↔
        WritesNothing sector_size disk_size target s w ∧
          StopsFirst sector_size disk_size target l s := by
      constructor
      · rintro ⟨as, a, bs, hsplit, ha, has⟩
        cases as with
        | nil =>
          rw [List.nil_append, List.cons.injEq] at hsplit
          rw [← hsplit.1] at ha
          exact absurd ha hstop
        | cons b as =>
          rw [List.cons_append, List.cons.injEq] at hsplit
          obtain ⟨rfl, rfl⟩ := hsplit
          rw [List.forall_mem_cons] at has
          exact ⟨has.1.2, as, a, bs, rfl, ha, has.2⟩
      · rintro ⟨hnothing, as, a, bs, rfl, ha, has⟩
        exact ⟨w :: as, a, bs, rfl, ha, List.forall_mem_cons.mpr ⟨⟨hstop, hnothing⟩, has⟩⟩
    rw [hshift]
    by_cases hnothing : WritesNothing sector_size disk_size target s w
    · obtain ⟨hfiles, hquiet⟩ := pass_writes_nothing hs hnothing
      rw [hrun, Run.state_done] at hfiles hquiet
      have hu' := @ih u (fun v hv => hnames v (List.mem_cons_of_mem _ hv))
        (by rw [hu, himage]; rfl) fun v hv => (hquiet v hv).elim (hwrites v) id
      rw [stops_first_congr hfiles] at hu'
      exact hu'.trans ⟨fun h => ⟨hnothing, h⟩, And.right⟩
    · obtain ⟨file, image', bytes, -, -, -, hne, -, -, hwrite⟩ := pass_writes hs hnothing
      obtain rfl := Run.done.inj (hrun.symm.trans hwrite)
      constructor
      · rintro ⟨t, ht, hquiet⟩
        -- the bytes are still in the trace
        have hmem := @perform_write_keeps sector_size disk_size target
          (s.write target image' (write_of sector_size w bytes)) l _
          (List.mem_append_right _ (List.mem_singleton_self _))
        rw [perform_write, ht, Run.state_exit] at hmem
        exact absurd (hquiet _ hmem) hne
      · exact fun h => absurd h.1 hnothing

/-! ## Passes that all write

The case without accidents: every file is there and every sector on the disk. Then all
elements are written, and the target is what their writes make of it in the order of the
list.
-/

/-- The element is written: its file is there, it is not the image, and its sectors are on the
disk. -/
structure Ready (sector_size disk_size : ℕ) (target : String) (files : Store) (w : Entry) :
    Prop where
  named : w.filename ≠ ""
  not_target : w.filename ≠ target
  found : (files w.filename).isSome
  offset : 0 ≤ w.file_sector_offset
  start : 0 ≤ w.start_sector
  on_disk : w.start_sector ≤ ((disk_size / sector_size : ℕ) : ℤ)

/-- What is written for an element when it is ready. -/
def element_write (sector_size : ℕ) (files : Store) (w : Entry) : Written :=
  write_of sector_size w
    (((files w.filename).bind fun file => written sector_size file w).getD [])

/-- **When all elements are ready, all are written.** -/
theorem perform_write_ready {l : List Entry} {files : Store} {image : List UInt8}
    {ws : List Written} (h : ∀ w ∈ l, Ready sector_size disk_size target files w)
    (himage : files target = some image) :
    ∃ t, perform_write sector_size disk_size target l ⟨files, ws⟩ = .done t ∧
      t.writes = ws ++ l.map (element_write sector_size files) := by
  suffices hall : ∀ current : Store, (∀ name, name ≠ target → current name = files name) →
      (∃ image, current target = some image) → ∀ ws,
      ∃ t, perform_write sector_size disk_size target l ⟨current, ws⟩ = .done t ∧
        t.writes = ws ++ l.map (element_write sector_size files) from
    hall files (fun _ _ => rfl) ⟨image, himage⟩ ws
  induction l with
  | nil => exact fun current _ _ ws => ⟨_, rfl, by simp⟩
  | cons w l ih =>
    intro current hsame hcurrent ws
    obtain ⟨image, hcurrent⟩ := hcurrent
    have hw := h w List.mem_cons_self
    obtain ⟨file, hfile⟩ := Option.isSome_iff_exists.mp hw.found
    have hfile' : current w.filename = some file := (hsame _ hw.not_target).trans hfile
    obtain ⟨bytes, hbytes, hstep⟩ := @pass_done sector_size disk_size target ⟨current, ws⟩ w file
      image hw.named hfile' hcurrent hw.offset hw.start hw.on_disk
    have hwrite : element_write sector_size files w = write_of sector_size w bytes := by
      rw [element_write, hfile, Option.bind_some, hbytes, Option.getD_some]
    obtain ⟨t, ht, hwrites⟩ := ih (fun v hv => h v (List.mem_cons_of_mem _ hv))
      (WriteState.write ⟨current, ws⟩ target image (write_of sector_size w bytes)).files
      (fun name hname => (WriteState.write_other hname image _).trans (hsame name hname))
      ⟨_, WriteState.write_target _ _ _ _⟩ (ws ++ [write_of sector_size w bytes])
    refine ⟨t, ?_, ?_⟩
    · rw [perform_write, Run.each_cons, hstep, Run.bind_done]
      exact ht
    · rw [hwrites, List.map_cons, hwrite, List.append_assoc, List.singleton_append]

/-- The image is what the recorded writes make of it, and the other files are as they
were. -/
theorem perform_write_image {l : List Entry} {image : List UInt8}
    (himage : s.files target = some image) (hwrites : s.writes = []) :
    (perform_write sector_size disk_size target l s).state.files
      = Function.update s.files target (some (runWrites
          ((perform_write sector_size disk_size target l s).state.writes.map
            Written.toWriteAt) image)) := by
  refine Run.each_invariant (fun t : WriteState => t.files = Function.update s.files target
    (some (runWrites (t.writes.map Written.toWriteAt) image))) (fun w _ t hI => ?_) ?_
  · rcases perform_write_one_cases sector_size disk_size target t w with hrun | hrun |
      ⟨file, image', bytes, -, himage', -, -, -, hrun⟩
    · rw [hrun]
      exact hI
    · rw [hrun]
      exact hI
    · rw [hrun]
      have hlast : image' = runWrites (t.writes.map Written.toWriteAt) image := by
        rw [hI, Function.update_self] at himage'
        exact (Option.some.inj himage').symm
      dsimp only [Run.state_done, WriteState.write]
      rw [hI, Function.update_idem, List.map_append, runWrites_append, ← hlast]
      rfl
  · rw [hwrites, List.map_nil, runWrites_nil, ← himage, Function.update_eq_self]

/-- When all elements are ready the run ends, and the image is what their writes make of it. -/
theorem perform_write_ready_image {l : List Entry} {files : Store} {image : List UInt8}
    (h : ∀ w ∈ l, Ready sector_size disk_size target files w)
    (himage : files target = some image) :
    ∃ t, perform_write sector_size disk_size target l ⟨files, []⟩ = .done t ∧
      t.files target = some (runWrites
        (l.map fun w => (element_write sector_size files w).toWriteAt) image) := by
  obtain ⟨t, ht, hwrites⟩ := @perform_write_ready _ _ _ _ _ _ [] h himage
  have hstore := @perform_write_image sector_size disk_size target ⟨files, []⟩ l image himage rfl
  rw [ht, Run.state_done, hwrites, List.nil_append, List.map_map] at hstore
  refine ⟨t, ht, ?_⟩
  rw [hstore, Function.update_self]
  rfl

end Pass

end AndroidTools.Msp
