/-
`CreateMBRPartitionTable`: the MBR, the EBRs of the logical partitions,
`rawprogram0.xml`, `patch0.xml` and `hash_w` of one physical partition.

Up to four partitions go into the MBR. With more, the first three do, and the
fourth record is the extended partition: a block of EBRs, one for each of the
others, followed by these. The start of a logical partition is moved depending on
its flags and the end of the last write-protected region; the patch for the last
one is emitted before its start is moved. All EBRs are written into one array,
at an offset that advances by 0x200 for each.

A partition whose type is no byte makes `ValidateTYPE` exit.
-/
import AndroidTools.Ptool.Table

set_option autoImplicit false

namespace AndroidTools.Ptool

open AndroidTools.Bytes

/-! ## Settings and partitions

The MBR code reads more settings than the GPT code and knows two flags more. A call ends
with tables, by exiting, or with an exception; the last two are told apart.
-/

/-- What the MBR code reads besides; `MinSectorsNeeded` is the sum `ParseXML` leaves. The
code is run unless the output is GPT. -/
structure MbrSettings extends Settings where
  align_boundary_in_kb : ℕ
  min_sectors_needed : ℤ
  output_is_not_gpt : output_is_gpt = false

/-- A `<partition>` with the two flags that matter in an MBR. -/
structure MbrPartition extends Partition where
  align : Bool
  bootable : Bool

/-- The settings of a document without parser instructions but an align boundary. -/
def mbr_settings (align_boundary_in_kb : ℕ) : MbrSettings :=
  { default_settings with
    output_is_gpt := false
    align_boundary_in_kb := align_boundary_in_kb
    min_sectors_needed := 0
    output_is_not_gpt := rfl }

/-- A partition of 1 KB, with or without `align="true"`. -/
def small_mbr_partition (align : Bool) : MbrPartition :=
  { default_partition 0x0C with size_in_kb := 1, align := align, bootable := false }

/-- How a call ends that does not return: it has exited, or an exception was raised. -/
inductive Ended where
  | raised (e : PyError)
  | exited
  deriving Repr, DecidableEq

def or_raise {α : Type} (x : Except PyError α) : Except Ended α := x.mapError .raised

/-! ## Records

A record has 16 bytes, which are assigned one after the other. A type that is no byte exits.
-/

/-- `ValidateTYPE` of a number. -/
def validate_type (type : ℕ) : Except Ended ℕ := if type ≤ 255 then .ok type else .error .exited

/-- `UpdatePartitionTable`: the 16 bytes of a record, one assignment after the other. -/
def update_partition_table (bootable : Bool) (type : ℕ) (start_sector size : ℤ) (offset : ℕ)
    (record : List UInt8) : Except Ended (List UInt8) := do
  let type ← validate_type type
  let record ← or_raise (set_bytes record offset [if bootable then 0x80 else 0x00])
  let record := set_slice record (offset + 1) [0, 0, 0]
  let record ← or_raise (set_bytes record (offset + 4) [type.toUInt8])
  let record := set_slice record (offset + 5) [0, 0, 0]
  let record ← or_raise (set_bytes record (offset + 8) (leBytes 4 start_sector))
  or_raise (set_bytes record (offset + 12) (leBytes 4 size))

/-- The `<program>` element of one file of a partition. -/
def mbr_program_element (st : MbrSettings) (k : ℕ) (p : MbrPartition) (first_lba size : ℤ)
    (f : PartitionFile) : XmlElement :=
  update_raw_program st.toSettings k (first_lba + f.filepartitionoffset) f.fileoffset
    (size - f.filepartitionoffset) f.filename f.sparse p.label

/-- The text printed for an aligned partition divides by the boundary. -/
def print_alignment (st : MbrSettings) (first_lba : ℤ) : Except PyError Unit :=
  if 0 < st.write_protect_boundary_in_kb ∧ first_lba % st.write_protect_boundary_in_kb = 0 ∧
      wp_sectors st.toSettings = 0 then .error .zeroDivisionError
  else .ok ()

/-! ## The MBR

The boot record has four places. Up to four partitions go into it as they are; of more only
the first three do, and the fourth place is for the extended partition.
-/

/-- The cursor of both loops: `FirstLBA`, `LastLBA` and `hash_w`. -/
structure MbrCursor where
  first_lba : ℤ
  last_lba : ℤ
  hash_w : WPHash
  deriving Repr, DecidableEq

/-- A partition as the call leaves it, and where it is. -/
structure MbrPlaced where
  partition : MbrPartition
  first_lba : ℤ
  sectors : ℤ

/-- What the loops change. `placed` is a trace of the partitions passed. -/
structure MbrState where
  cursor : MbrCursor
  mbr : List UInt8
  ebr : List UInt8
  offset : ℕ
  ebr_offset : ℤ
  rawprogram : List XmlElement
  patches : List XmlElement
  placed : List MbrPlaced

/-- The file names, `partition%d.bin`, `MBR%d.bin` and `EBR%d.bin`. -/
def partition_bin (k : ℕ) : String := "partition" ++ toString k ++ ".bin"

def mbr_bin (k : ℕ) : String := "MBR" ++ toString k ++ ".bin"

def ebr_bin (k : ℕ) : String := "EBR" ++ toString k ++ ".bin"

/-- The text of a length up to the end of the disk. -/
def till_end (sector : ℤ) : String := "NUM_DISK_SECTORS-" ++ toString sector ++ "."

/-- The patches for the last partition of an MBR without EBRs. -/
def last_primary_patches (st : MbrSettings) (k j : ℕ) (first_lba : ℤ) : List XmlElement :=
  let patch (filename what : String) := update_patch st.toSettings k "0"
    (toString (0x1CA + j * 16)) 4 (till_end first_lba) filename what
  [patch (partition_bin k) "Update last partition with actual size.",
    patch (mbr_bin k) "Update last partition with actual size.",
    patch "DISK" "Update 'Update last partition with actual size."]

/-- One pass of the loop over the `n` partitions of a list, for a primary one. -/
def add_primary (st : MbrSettings) (k n j : ℕ) (p : MbrPartition) (s : MbrState) :
    Except Ended MbrState := do
  -- every primary partition is write-protected
  let p := { p with readonly := true }
  let size := convert_kb_to_sectors st.toSettings p.size_in_kb
  let first_lba := s.cursor.first_lba
  or_raise (print_alignment st first_lba)
  let hash_w ← or_raise (update_wp_hash st.toSettings s.cursor.hash_w first_lba size)
  let last_lba := s.cursor.last_lba + size
  let mbr ← update_partition_table p.bootable p.type first_lba size (0x1BE + j * 16) s.mbr
  return { s with
    cursor := ⟨last_lba, last_lba, hash_w⟩
    mbr := mbr
    rawprogram := s.rawprogram ++ p.files.map (mbr_program_element st k p first_lba size)
    patches := s.patches ++
      if j + 1 = n ∧ st.grow_last_partition_to_fill_disk = true then
        last_primary_patches st k j first_lba
      else []
    placed := s.placed ++ [⟨p, first_lba, size⟩] }

/-- The loop over the primary partitions, from pass `j` on. -/
def add_primaries (st : MbrSettings) (k n : ℕ) :
    ℕ → List MbrPartition → MbrState → Except Ended MbrState
  | _, [], s => .ok s
  | j, p :: ps, s => do
    let s ← add_primary st k n j p s
    add_primaries st k n (j + 1) ps s

/-- The MBR without partitions: the disk signature and the mark at the end. -/
def empty_mbr (st : MbrSettings) : Except PyError (List UInt8) := do
  let mbr ← set_bytes (List.replicate st.sector_size_in_bytes 0) 440
    (leBytes 4 st.disk_signature).reverse
  return set_slice mbr 510 [0x55, 0xAA]

/-- `CreateMasterBootRecord`, for the partitions `ps` of a list of `n`. -/
def create_master_boot_record (st : MbrSettings) (k n : ℕ) (ps : List MbrPartition) :
    Except Ended MbrState := do
  let mbr ← or_raise (empty_mbr st)
  add_primaries st k n 0 ps
    { cursor := ⟨1, 1, initial_wp_hash st.toSettings⟩
      mbr := mbr
      ebr := List.replicate 512 0
      offset := 0
      ebr_offset := 0
      rawprogram := []
      patches := []
      placed := [] }

/-! ## The EBRs

Every further partition has an EBR, in which its start counts from there and the start of
the next EBR from the beginning of the extended partition. The start of a partition is
moved, and for the last one the patches are emitted before that.
-/

/-- Where the start of a logical partition is moved. -/
def move_logical (st : MbrSettings) (p : MbrPartition) (till first_lba end_sector : ℤ) :
    Except PyError ℤ :=
  if p.readonly then
    if first_lba ≤ end_sector then .ok first_lba else .ok (first_lba + till)
  else if p.align then
    match return_num_sectors_till_boundary st.toSettings first_lba st.align_boundary_in_kb with
    | .error e => .error e
    -- a move by nothing is the move the source skips
    | .ok d => .ok (first_lba + d)
  else if first_lba ≤ end_sector then .ok (first_lba + till)
  else .ok first_lba

/-- The last partition is not marked as read-only. -/
def unlock_last (last : Bool) (p : MbrPartition) : MbrPartition :=
  { p with readonly := !last && p.readonly }

/-- `PartitionSectorSize`; 0 for a last partition that grows. -/
def logical_size (st : MbrSettings) (last : Bool) (p : MbrPartition) : ℤ :=
  if last && st.grow_last_partition_to_fill_disk then 0
  else convert_kb_to_sectors st.toSettings p.size_in_kb

/-- The update of `hash_w` for a logical partition. -/
def protect_logical (st : MbrSettings) (p : MbrPartition) (hash_w : WPHash) (first_lba size : ℤ) :
    Except PyError WPHash :=
  if p.readonly then update_wp_hash st.toSettings hash_w first_lba size else .ok hash_w

/-- A pass up to where `LastLBA` is set: the start is moved, the region updated and the partition
closed. -/
def place_logical (st : MbrSettings) (last : Bool) (p : MbrPartition) (c : MbrCursor) :
    Except PyError (MbrPlaced × MbrCursor) := do
  let till ← return_num_sectors_till_boundary st.toSettings c.first_lba
    st.write_protect_boundary_in_kb
  let p := unlock_last last p
  let size := logical_size st last p
  let first_lba ← move_logical st p till c.first_lba c.hash_w.current.end_sector
  print_alignment st first_lba
  let hash_w ← protect_logical st p c.hash_w first_lba size
  let last_lba := first_lba + size
  return (⟨{ p with size_in_kb := size / 2 }, first_lba, size⟩, ⟨last_lba, last_lba, hash_w⟩)

/-- The patches for the size of the last logical partition. -/
def last_logical_patches (st : MbrSettings) (k num_ebrs : ℕ)
    (extended_partition_begins first_lba : ℤ) : List XmlElement :=
  let patch (start_sector : ℤ) (filename : String) := update_patch st.toSettings k
    (toString start_sector) (toString 0x1CA) 4 (till_end (first_lba + 1)) filename
    "Update last partition with actual size."
  [patch num_ebrs (partition_bin k), patch ((num_ebrs : ℤ) - 1) (ebr_bin k),
    patch (extended_partition_begins + num_ebrs - 1) "DISK"]

/-- The second record of an EBR: the next one, if there is one. -/
def write_link (last : Bool) (j offset : ℕ) (ebr : List UInt8) : Except Ended (List UInt8) :=
  if last then update_partition_table false 0 0 0 offset ebr
  else update_partition_table false 5 ((j : ℤ) - 2) 1 offset ebr

/-- The records of one EBR: the partition, the next EBR, and two blank ones. -/
def write_ebr (p : MbrPartition) (last : Bool) (j : ℕ) (start_sector size : ℤ) (offset : ℕ)
    (ebr : List UInt8) : Except Ended (List UInt8) := do
  let offset := offset + 0x1BE
  let ebr ← update_partition_table p.bootable p.type start_sector size offset ebr
  let ebr ← write_link last j (offset + 16) ebr
  let ebr ← update_partition_table false 0 0 0 (offset + 32) ebr
  let ebr ← update_partition_table false 0 0 0 (offset + 48) ebr
  or_raise (set_bytes ebr (offset + 64) [0x55, 0xAA])

/-- One pass of the loop, for logical partition `j` of a list of `n`. -/
def add_logical (st : MbrSettings) (k n : ℕ) (extended_partition_begins : ℤ) (j : ℕ)
    (p : MbrPartition) (s : MbrState) : Except Ended MbrState := do
  let last := decide (j + 1 = n)
  let ebr := s.ebr ++ List.replicate st.sector_size_in_bytes 0
  let (placed, cursor) ← or_raise (place_logical st last p s.cursor)
  let ebr ← write_ebr p last j (placed.first_lba - extended_partition_begins - s.ebr_offset)
    placed.sectors s.offset ebr
  return { s with
    cursor := cursor
    ebr := ebr
    -- a constant, whatever the size of a sector is
    offset := s.offset + 0x200
    ebr_offset := s.ebr_offset + 1
    rawprogram := s.rawprogram ++
      p.files.map (mbr_program_element st k p placed.first_lba placed.sectors)
    -- emitted before the start is moved
    patches := s.patches ++
      if last then last_logical_patches st k (n - 3) extended_partition_begins s.cursor.first_lba
      else []
    placed := s.placed ++ [placed] }

/-- The loop over the logical partitions, from partition `j` on. -/
def add_logicals (st : MbrSettings) (k n : ℕ) (extended_partition_begins : ℤ) :
    ℕ → List MbrPartition → MbrState → Except Ended MbrState
  | _, [], s => .ok s
  | j, p :: ps, s => do
    let s ← add_logical st k n extended_partition_begins j p s
    add_logicals st k n extended_partition_begins (j + 1) ps s

/-- The patches for the length of the extended partition. -/
def extended_patches (st : MbrSettings) (k : ℕ) (extended_partition_begins : ℤ) :
    List XmlElement :=
  let patch (filename : String) := update_patch st.toSettings k "0" (toString 0x1FA) 4
    (till_end extended_partition_begins) filename "Update MBR with the length of the EXT Partition."
  [patch (partition_bin k), patch (mbr_bin k), patch "DISK"]

/-- `CreateExtendedBootRecords`, for the logical partitions `ps` of a list of `n`. -/
def create_extended_boot_records (st : MbrSettings) (k n : ℕ) (ps : List MbrPartition)
    (s : MbrState) : Except Ended MbrState := do
  let begins := s.cursor.first_lba
  let length := if st.grow_last_partition_to_fill_disk then 0 else st.min_sectors_needed - begins
  let mbr ← update_partition_table false 5 begins length 0x1EE s.mbr
  let hash_w ← or_raise (update_wp_hash st.toSettings s.cursor.hash_w begins ps.length)
  add_logicals st k n begins 3 ps
    { s with
      cursor := ⟨begins + ps.length, s.cursor.last_lba + ps.length, hash_w⟩
      mbr := mbr
      ebr := []
      patches := s.patches ++ extended_patches st k begins }

/-! ## The whole function

Both tables, the elements for their images, and what a list of more than four partitions
needs besides.
-/

/-- What one call leaves; `partition%d.bin` is the MBR followed by the EBRs. -/
structure MbrTables where
  mbr : List UInt8
  ebr : List UInt8
  rawprogram : List XmlElement
  patches : List XmlElement
  extended_partition_begins : ℤ
  placed : List MbrPlaced
  hash_w : WPHash

/-- The `<program>` elements for the images of the boot records. -/
def boot_record_elements (st : MbrSettings) (k n : ℕ) (extended_partition_begins : ℤ) :
    List XmlElement :=
  update_raw_program st.toSettings k 0 0 1 (mbr_bin k) "false" "MBR" ::
    if 4 < n then
      [update_raw_program st.toSettings k extended_partition_begins 0 ((n : ℤ) - 3) (ebr_bin k)
        "false" "EXT"]
    else []

/-- `CreateMBRPartitionTable(k)` for the partitions `ps` of physical partition `k`. -/
def create_mbr_partition_table (st : MbrSettings) (k : ℕ) (ps : List MbrPartition) :
    Except Ended MbrTables := do
  let n := ps.length
  let s ← create_master_boot_record st k n (if n ≤ 4 then ps else ps.take 3)
  let begins := if n ≤ 4 then 0 else s.cursor.first_lba
  let s ← if n ≤ 4 then .ok s else create_extended_boot_records st k n (ps.drop 3) s
  return {
    mbr := s.mbr
    ebr := s.ebr
    rawprogram := s.rawprogram ++ boot_record_elements st k n begins
    patches := s.patches
    extended_partition_begins := begins
    placed := s.placed
    hash_w := s.cursor.hash_w }

end AndroidTools.Ptool
