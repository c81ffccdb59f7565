/-
Whether a partition's file stays in its partition.

`CreateGPTPartitionTable` declares the sectors from the file's offset to the end of the partition,
and `PerformWrite` cuts the file to as many. But from the end of the partition on nothing is left,
the number is clamped to 0, and 0 means "as many as the file needs" when it is read back: then all
that is written lies behind the partition. The other way out is the last piece of a large file,
which is padded by its own length and not by that of the file.

The condition is one on the numbers of the element and the length of its file: sectors are left,
and the padding of the last piece keeps to them. It is asked for only if a byte of the file is
written at all, which `WritesAt` says in the same terms. Numbers above 64TB are sectors counted
from the end, for which the condition is about the sectors that they become.
-/
import AndroidTools.Pipeline.AutoSize
import AndroidTools.Ptool.Packing

set_option autoImplicit false

namespace AndroidTools.Pipeline

open AndroidTools.Writes AndroidTools.Ptool AndroidTools.Msp

/-! ## Inside the partition

The property is about the bytes that a run writes for an element and the condition about
numbers and lengths. For ordinary numbers the sectors of the element are those of the
partition, so it comes down to whether there are any, and to the padding of the last piece.
-/

/-- Every byte written for the element lies in a sector of the range. -/
def StaysInPartition (sector_size : ℕ) (x : Extent) (w : Entry) (writes : List Written) : Prop :=
  ∀ v ∈ writes, v.element = w → ∀ i, v.Covers i → ((i / sector_size : ℕ) : ℤ) ∈ x.sectors

/-- The dictionary of a file when the disk size is known. -/
def real_entry (st : Settings) (k given disk_size : ℕ) (x : Extent) (f : PartitionFile) : Entry :=
  replace_disk_size disk_size st.sector_size_in_bytes (partition_entry st k given x f)

/-- The numbers of the element are not taken for numbers counted from the end of the disk. -/
structure OrdinaryNumbers (st : Settings) (x : Extent) (f : PartitionFile) : Prop where
  start_nonneg : 0 ≤ x.first_lba + f.filepartitionoffset
  start_le : x.first_lba + f.filepartitionoffset ≤ max_sectors st.sector_size_in_bytes
  num_le : x.last_lba - x.first_lba - f.filepartitionoffset + 1
    ≤ max_sectors st.sector_size_in_bytes

/-- The file has sectors of the partition left, and a file of `length` bytes keeps to them: the
sector size divides the size of a piece, or one piece is enough, or the padding of the last
piece does not go past the last sector. -/
def LeftForFile (st : Settings) (k given disk_size : ℕ) (x : Extent) (f : PartitionFile)
    (length : ℕ) : Prop :=
  let left := x.last_lba - x.first_lba + 1 - f.filepartitionoffset
  0 < left ∧ (st.sector_size_in_bytes ∣ max_file_size_before_split ∨
    min length (left.toNat * st.sector_size_in_bytes) < max_file_size_before_split ∨
    written_length st.sector_size_in_bytes length (real_entry st k given disk_size x f)
      ≤ left.toNat * st.sector_size_in_bytes)

/-- For numbers above 64TB: the sectors they become are in the partition. -/
def RealNumbersInside (st : Settings) (k given disk_size : ℕ) (x : Extent) (f : PartitionFile)
    (length : ℕ) : Prop :=
  let w := real_entry st k given disk_size x f
  x.first_lba ≤ w.start_sector ∧
    w.start_sector * st.sector_size_in_bytes + written_length st.sector_size_in_bytes length w
      ≤ (x.last_lba + 1) * st.sector_size_in_bytes

/-- For every length with which the loop comes to the file and of which it writes a byte, there is
room: by the sectors left, or, for numbers above 64TB, by the sectors that they become. -/
def RoomLeft (st : Settings) (k given disk_size : ℕ) (target : String) (sorted : List Entry)
    (files : Store) (x : Extent) (f : PartitionFile) : Prop :=
  ∀ length, WritesAt st.sector_size_in_bytes disk_size target sorted files
      (real_entry st k given disk_size x f) length →
    (OrdinaryNumbers st x f → LeftForFile st k given disk_size x f length) ∧
      (¬ OrdinaryNumbers st x f → RealNumbersInside st k given disk_size x f length)

section Spill

variable {st : Settings} {k given disk_size : ℕ} {x : Extent} {f : PartitionFile}

/-- The start and the number of sectors in the dictionary of an element with ordinary numbers. -/
theorem real_entry_ordinary (h : OrdinaryNumbers st x f) :
    (real_entry st k given disk_size x f).start_sector = x.first_lba + f.filepartitionoffset ∧
      (real_entry st k given disk_size x f).num_partition_sectors
        = max 0 (x.last_lba - x.first_lba + 1 - f.filepartitionoffset) := by
  obtain ⟨hnonneg, hstart, hnum⟩ := h
  rw [max_sectors] at hstart hnum
  constructor
  · change real_value _ _ (read_start _ _ _) = _
    rw [read_start, if_neg (by omega), real_value_of_le hstart]
  · change real_value _ _ (if x.last_lba - x.first_lba - f.filepartitionoffset + 1 ≤ 0 then 0
      else x.last_lba - x.first_lba - f.filepartitionoffset + 1) = _
    split_ifs with hle
    · rw [real_value_of_le (by omega)]
      omega
    · rw [real_value_of_le hnum]
      omega

/-- **A file of ordinary numbers stays in the partition** exactly if sectors are left for it. -/
theorem numbers_inside_iff (hq : 0 ≤ f.filepartitionoffset) (h : OrdinaryNumbers st x f) {length : ℕ}
    (hlen : ((real_entry st k given disk_size x f).file_sector_offset
      * st.sector_size_in_bytes).toNat < length) :
    RealNumbersInside st k given disk_size x f length
      ↔ LeftForFile st k given disk_size x f length := by
  have hs := st.sector_size_pos
  obtain ⟨hstart, hnum⟩ := @real_entry_ordinary st k given disk_size x f h
  have hpos : 0 < written_length st.sector_size_in_bytes length
      (real_entry st k given disk_size x f) := by
    rw [Nat.pos_iff_ne_zero, Ne, written_length_eq_zero hs]
    omega
  unfold RealNumbersInside LeftForFile
  dsimp only
  set left := x.last_lba - x.first_lba + 1 - f.filepartitionoffset with hleft
  set S := st.sector_size_in_bytes
  -- the sectors left behind the offset of the file, counted in bytes
  have hend : (x.last_lba + 1) * (S : ℤ)
      = (x.first_lba + f.filepartitionoffset) * S + left * S := by
    rw [hleft]
    ring
  rw [hstart, hend]
  constructor
  · rintro ⟨-, hle⟩
    have hleftpos : 0 < left := by
      by_contra hneg
      have := Int.mul_nonpos_of_nonpos_of_nonneg (not_lt.mp hneg) (Int.natCast_nonneg S)
      omega
    refine ⟨hleftpos, Or.inr (Or.inr ?_)⟩
    have hcast : ((left.toNat * S : ℕ) : ℤ) = left * S := by
      rw [Nat.cast_mul, Int.toNat_of_nonneg hleftpos.le]
    omega
  · rintro ⟨hleftpos, hfits⟩
    have hcast : ((left.toNat * S : ℕ) : ℤ) = left * S := by
      rw [Nat.cast_mul, Int.toNat_of_nonneg hleftpos.le]
    have hbound : written_length S length (real_entry st k given disk_size x f)
        ≤ left.toNat * S := by
      rw [← or_assoc] at hfits
      rcases hfits with hfits | hfits
      · exact written_length_le hs (by rw [hnum]; omega) (by omega) hfits
      · exact hfits
    omega

/-- The bytes from `position` to `last` lie in the sectors of the partition exactly if they begin
in its first sector at the earliest and end in its last one at the latest. -/
theorem covered_sectors_iff {S : ℕ} (hs : 0 < S) {v : WriteAt} (hne : v.position < v.last) :
    (∀ i, v.Covers i → ((i / S : ℕ) : ℤ) ∈ x.sectors)
      ↔ x.first_lba * S ≤ v.position ∧ (v.last : ℤ) ≤ (x.last_lba + 1) * S := by
  have hsector : ∀ i : ℕ, ((i / S : ℕ) : ℤ) ∈ x.sectors
      ↔ x.first_lba * S ≤ i ∧ (i : ℤ) < (x.last_lba + 1) * S := by
    intro i
    rw [Extent.sectors, Set.mem_Icc, Int.natCast_div, Int.le_ediv_iff_mul_le (by omega),
      ← @Int.lt_add_one_iff _ x.last_lba, Int.ediv_lt_iff_lt_mul (by omega)]
  simp only [hsector]
  constructor
  · intro h
    have hfirst := (h v.position ⟨le_rfl, hne⟩).1
    have hlast := (h (v.last - 1) ⟨by omega, by omega⟩).2
    omega
  · rintro ⟨hfirst, hlast⟩ i ⟨hlo, hhi⟩
    omega

end Spill

/-- **A file stays in its partition exactly if**, where a byte is written for it, sectors of the
partition are left for it and its last piece is not padded past them. -/
theorem stays_in_partition_iff (st : Settings) (k : ℕ) (ps : List Partition) (rand : ℕ → ℕ)
    (out : GptTables) (given size disk_size : ℕ) (target : String) (arrays : Arrays) (files : Store)
    (hout : create_gpt_partition_table st k ps rand = .ok out)
    (harrays : parse_xml given out.rawprogram ⟨size, [], []⟩ = some arrays) :
    ∀ j p x, ps[j]? = some p → out.placed[j]? = some x → ¬ grown st ps.length j →
      ∀ f ∈ p.files, 0 ≤ f.fileoffset → 0 ≤ f.filepartitionoffset →
        let sorted := (write_sorted arrays.write_array).map
          (replace_disk_size disk_size arrays.sector_size)
        StaysInPartition arrays.sector_size x (real_entry st k given disk_size x f)
            (perform_write arrays.sector_size disk_size target sorted ⟨files, []⟩).state.writes ↔
          RoomLeft st k given disk_size target sorted files x f := by
  intro j p x _ _ _ f _ _ hq sorted
  set w := real_entry st k given disk_size x f
  have hs := st.sector_size_pos
  rw [parse_rawprogram hout given size] at harrays
  obtain rfl := Option.some.inj harrays
  have hiff := @exists_write_at_iff st.sector_size_in_bytes disk_size target ⟨files, []⟩ w hs
    sorted (named_real_entries st k given disk_size _) rfl
  -- a file is inside exactly if its numbers are
  have hinside : ∀ length, WritesAt st.sector_size_in_bytes disk_size target sorted files w length →
      (RealNumbersInside st k given disk_size x f length ↔
        (OrdinaryNumbers st x f → LeftForFile st k given disk_size x f length) ∧
        (¬ OrdinaryNumbers st x f → RealNumbersInside st k given disk_size x f length)) := by
    intro length hw
    by_cases hord : OrdinaryNumbers st x f
    · rw [numbers_inside_iff hq hord hw.writes_byte.left]
      exact ⟨fun h => ⟨fun _ => h, fun hno => absurd hord hno⟩, fun h => h.1 hord⟩
    · exact ⟨fun h => ⟨fun hyes => absurd hyes hord, fun _ => h⟩, fun h => h.2 hord⟩
  constructor
  · intro hstay length hw
    rw [← hinside length hw]
    have hstart := hw.writes_byte.start
    have hlt := hw.writes_byte.position_lt hs
    obtain ⟨v, hv, hne, helement, hposition, hlast⟩ := hiff.mp ⟨length, hw, rfl, rfl⟩
    rw [← hposition, ← hlast] at hlt
    have hin := (covered_sectors_iff hs hlt).mp (hstay v hv helement)
    rw [hposition, hlast, write_end, write_position] at hin
    push_cast at hin
    rw [Int.toNat_of_nonneg hstart] at hin
    refine ⟨?_, hin.2⟩
    exact le_of_mul_le_mul_right hin.1 (by exact_mod_cast hs)
  · intro hall v hv helement i hi
    have hlt : v.position < v.last := by
      have := hi.1
      have := hi.2
      omega
    have hne : v.bytes ≠ [] := by
      intro hnil
      rw [WriteAt.last, hnil] at hlt
      exact absurd hlt (lt_irrefl _)
    obtain ⟨length, hw, hposition, hlast⟩ := hiff.mpr ⟨v, hv, hne, helement, rfl, rfl⟩
    have hstart := hw.writes_byte.start
    obtain ⟨hfirst, hend⟩ := (hinside length hw).mpr (hall length hw)
    refine (covered_sectors_iff hs hlt).mpr ?_ i hi
    rw [hlast, hposition, write_end, write_position]
    push_cast
    rw [Int.toNat_of_nonneg hstart]
    exact ⟨by exact Int.mul_le_mul_of_nonneg_right hfirst (Int.natCast_nonneg _), hend⟩

/-! ## A file behind its partition

A file that begins at the end of its partition, in front of another partition. It is written
to the first sector of that one.
-/

/-- A partition of two sectors whose file begins at its third sector, and one more partition. -/
def shifted_partitions : List Partition :=
  [{ default_partition 0xEBD0A0A2 with
      size_in_kb := 1, files := [⟨"system.img", 0, 2, "false"⟩], files_ne_nil := by decide },
    { default_partition 0xEBD0A0A2 with size_in_kb := 1 }]

theorem create_shifted_partitions : ∃ out,
    create_gpt_partition_table plain_settings 0 shifted_partitions (fun j => j) = .ok out ∧
      out.placed = [⟨34, 35⟩, ⟨36, 37⟩] := by
  have husable : SettingsUsable plain_settings shifted_partitions :=
    ⟨by decide, by decide, by decide⟩
  obtain ⟨out, hout⟩ := create_gpt_partition_table_total (by decide) 0 (fun j => j) husable
    (by decide) (by decide)
  have heval : layout_partitions plain_settings 2 0 shifted_partitions
      ⟨34, 34, 0, initial_wp_hash plain_settings⟩
      = .ok (⟨38, 38, 0, initial_wp_hash plain_settings⟩, [⟨34, 35⟩, ⟨36, 37⟩]) := rfl
  exact ⟨out, hout, placed_of_layout hout rfl heval⟩

/-- The dictionary of the file, on a disk of 200 sectors. -/
def shifted_entry : Entry :=
  real_entry plain_settings 0 102400 102400 ⟨34, 35⟩ ⟨"system.img", 0, 2, "false"⟩

theorem shifted_sorted :
    (write_sorted (rawprogram_entries plain_settings 0 102400
        (shifted_partitions.zip [⟨34, 35⟩, ⟨36, 37⟩]))).map (replace_disk_size 102400 512)
      = [program_entry plain_settings 0 102400 0 0 34 (gpt_main 0) "false", shifted_entry,
          program_entry plain_settings 0 102400 (-33) 0 33 (gpt_backup 0) "false"] := by
  decide +kernel

theorem shifted_arrays {out : GptTables}
    (hout : create_gpt_partition_table plain_settings 0 shifted_partitions (fun j => j) = .ok out)
    (hplaced : out.placed = [⟨34, 35⟩, ⟨36, 37⟩]) :
    parse_xml 102400 out.rawprogram ⟨512, [], []⟩ = some ⟨512,
      rawprogram_entries plain_settings 0 102400
        (shifted_partitions.zip [⟨34, 35⟩, ⟨36, 37⟩]), []⟩ := by
  rw [parse_rawprogram hout, hplaced]
  rfl

/-- The file at its place in the list: the theorem at a run that succeeds. -/
theorem stays_in_partition_iff_shifted : ∃ out arrays,
    create_gpt_partition_table plain_settings 0 shifted_partitions (fun j => j) = .ok out ∧
      parse_xml 102400 out.rawprogram ⟨512, [], []⟩ = some arrays ∧
      (StaysInPartition arrays.sector_size ⟨34, 35⟩ shifted_entry
          (perform_write arrays.sector_size 102400 single_image
            ((write_sorted arrays.write_array).map (replace_disk_size 102400 arrays.sector_size))
            ⟨system_files out, []⟩).state.writes ↔
        RoomLeft plain_settings 0 102400 102400 single_image
          ((write_sorted arrays.write_array).map (replace_disk_size 102400 arrays.sector_size))
          (system_files out) ⟨34, 35⟩ ⟨"system.img", 0, 2, "false"⟩) := by
  obtain ⟨out, hout, hplaced⟩ := create_shifted_partitions
  have harrays := shifted_arrays hout hplaced
  refine ⟨out, _, hout, harrays, ?_⟩
  exact stays_in_partition_iff plain_settings 0 shifted_partitions (fun j => j) out 102400 512
    102400 single_image _ (system_files out) hout harrays 0 _ ⟨34, 35⟩ rfl (by rw [hplaced]; rfl)
    (fun h => absurd h.2 (by decide)) ⟨"system.img", 0, 2, "false"⟩ (by decide) (by decide)
    (by decide)

/-- The file is written to sector 36, the first one of the partition after its own. -/
theorem shifted_not_in_partition : ∃ out arrays,
    create_gpt_partition_table plain_settings 0 shifted_partitions (fun j => j) = .ok out ∧
      parse_xml 102400 out.rawprogram ⟨512, [], []⟩ = some arrays ∧
      ¬ StaysInPartition arrays.sector_size ⟨34, 35⟩ shifted_entry
        (perform_write arrays.sector_size 102400 single_image
          ((write_sorted arrays.write_array).map (replace_disk_size 102400 arrays.sector_size))
          ⟨Function.update (system_files out) single_image (some []), []⟩).state.writes := by
  obtain ⟨out, hout, hplaced⟩ := create_shifted_partitions
  refine ⟨out, _, hout, shifted_arrays hout hplaced, ?_⟩
  dsimp only
  rw [shifted_sorted]
  obtain ⟨t, ht, hwrites⟩ := @system_run out 102400
    [program_entry plain_settings 0 102400 0 0 34 (gpt_main 0) "false", shifted_entry,
      program_entry plain_settings 0 102400 (-33) 0 33 (gpt_backup 0) "false"] (by decide)
  rw [ht, Run.state_done, hwrites]
  intro hstays
  have hwrite := @system_write out shifted_entry (1 :: List.replicate 511 0) rfl (by decide +kernel)
  have hmem := hstays _ (List.mem_cons_of_mem _ List.mem_cons_self) rfl
    (36 * 512) (by
      rw [hwrite]
      exact ⟨by decide +kernel, by decide +kernel⟩)
  exact absurd hmem.2 (by decide)

end AndroidTools.Pipeline
