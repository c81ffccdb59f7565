/-
What `ptool.py` knows before it lays anything out: the parser instructions, the command line
switches, the partitions of one physical partition, and the two conversions everything else is
written in.

The values are those `ParseXML` leaves behind. A partition's size and file offset come from
`int(...)`, so they may be negative; boundaries are `^\d+$`, so they may not. The sector size
divides in `ConvertKBtoSectors`, and `ParseXML` itself divides by it, so a run that gets as far as
the layout has a positive one and `Settings` carries that as a field.

What goes wrong is a Python exception here, `PyError`, which a caller does not catch. The numbers
are integers without a bound, as in the source, and division rounds down for both signs.
-/
import AndroidTools.Lib.Boundary

set_option autoImplicit false

namespace AndroidTools.Ptool

open AndroidTools.Boundary

/-- The Python exceptions that the table code can end in. -/
inductive PyError where
  | zeroDivisionError
  | indexError
  | nameError
  | structError
  deriving Repr, DecidableEq

/-- `HashInstructions` after `ParseXML`, and the switches of the command line. -/
structure Settings where
  sector_size_in_bytes : ℕ
  write_protect_boundary_in_kb : ℕ
  grow_last_partition_to_fill_disk : Bool
  write_protect_gpt_partition_table : Bool
  performance_boundary_in_kb : ℕ
  align_partitions_to_performance_boundary : Bool
  disk_signature : ℕ
  sequentialguid : Bool
  force128partitions : Bool
  -- `OutputToCreate is "gpt"`: true when the format was detected, not given by `-f`
  output_is_gpt : Bool
  sector_size_pos : 0 < sector_size_in_bytes

/-- One `<file>` of a partition, with the numbers of its two offsets. -/
structure PartitionFile where
  filename : String
  fileoffset : ℤ
  filepartitionoffset : ℤ
  sparse : String
  deriving Repr, DecidableEq

/-- One `<partition>`. The flags are the comparisons with `"true"`; `uguid` is
`none` for `"false"`. There is always at least one file, possibly unnamed. -/
structure Partition where
  label : String
  size_in_kb : ℤ
  type : ℕ
  uguid : Option ℕ
  readonly : Bool
  hidden : Bool
  dontautomount : Bool
  system : Bool
  performance_boundary_in_kb : ℤ
  files : List PartitionFile
  files_ne_nil : files ≠ []

/-- The settings of a document without parser instructions, the format detected
as GPT. -/
def default_settings : Settings where
  sector_size_in_bytes := 512
  write_protect_boundary_in_kb := 64 * 1024
  grow_last_partition_to_fill_disk := true
  write_protect_gpt_partition_table := false
  performance_boundary_in_kb := 0
  align_partitions_to_performance_boundary := false
  disk_signature := 0
  sequentialguid := false
  force128partitions := false
  output_is_gpt := true
  sector_size_pos := by decide

/-- `ParseXML`'s `Partition = {}` with its defaults; only the type is not optional. -/
def default_partition (type : ℕ) : Partition where
  label := "false"
  size_in_kb := 0
  type := type
  uguid := none
  readonly := false
  hidden := false
  dontautomount := false
  system := false
  performance_boundary_in_kb := 0
  files := [⟨"", 0, 0, "false"⟩]
  files_ne_nil := by decide

/-! ## Sectors

Sizes and boundaries are given in kilobytes and used in sectors. The conversion rounds down,
so a boundary of less than a sector is none, and the distance to it is a remainder by zero.
-/

/-- `ConvertKBtoSectors`: the whole sectors in so many kilobytes. -/
def convert_kb_to_sectors (st : Settings) (x : ℤ) : ℤ :=
  x * 1024 / st.sector_size_in_bytes

/-- `ReturnNumSectorsTillBoundary`. The remainder raises when the boundary is
less than a sector. -/
def return_num_sectors_till_boundary (st : Settings) (current_lba boundary_in_kb : ℤ) :
    Except PyError ℤ :=
  if 0 < boundary_in_kb then
    if convert_kb_to_sectors st boundary_in_kb = 0 then .error .zeroDivisionError
    else .ok (tillBoundary (convert_kb_to_sectors st boundary_in_kb) current_lba)
  else .ok 0

/-- `WRITE_PROTECT_BOUNDARY_IN_KB` in whole sectors. -/
def wp_sectors (st : Settings) : ℤ :=
  convert_kb_to_sectors st st.write_protect_boundary_in_kb

theorem convert_kb_to_sectors_nonneg (st : Settings) {x : ℤ} (hx : 0 ≤ x) :
    0 ≤ convert_kb_to_sectors st x :=
  Int.ediv_nonneg (by omega) (by omega)

theorem wp_sectors_nonneg (st : Settings) : 0 ≤ wp_sectors st :=
  convert_kb_to_sectors_nonneg st (by omega)

theorem convert_kb_to_sectors_zero (st : Settings) : convert_kb_to_sectors st 0 = 0 := by
  rw [convert_kb_to_sectors, zero_mul, Int.zero_ediv]

/-- Whatever the boundary, the distance does not move the position down. -/
theorem return_num_sectors_till_boundary_nonneg {st : Settings} {c b d : ℤ}
    (h : return_num_sectors_till_boundary st c b = .ok d) : 0 ≤ d := by
  unfold return_num_sectors_till_boundary at h
  split_ifs at h with hb hz
  · have hpos := convert_kb_to_sectors_nonneg st hb.le
    cases h
    exact tillBoundary_nonneg (by omega)
  · cases h
    rfl

/-- A successful distance to a positive boundary is `tillBoundary`, and the
boundary has at least one sector. -/
theorem return_num_sectors_till_boundary_pos {st : Settings} {c b d : ℤ}
    (h : return_num_sectors_till_boundary st c b = .ok d) (hb : 0 < b) :
    0 < convert_kb_to_sectors st b ∧ d = tillBoundary (convert_kb_to_sectors st b) c := by
  have hpos := convert_kb_to_sectors_nonneg st hb.le
  unfold return_num_sectors_till_boundary at h
  rw [if_pos hb] at h
  split_ifs at h with hz
  cases h
  exact ⟨by omega, rfl⟩

end AndroidTools.Ptool
