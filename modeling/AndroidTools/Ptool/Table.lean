/-
`CreateGPTPartitionTable`: the two table images, `rawprogram0.xml` and
`patch0.xml` of one physical partition.

The layout loop places a partition (`place_partition`), writes its 128-byte
entry at the running index `i`, and emits a `<program>` element for each of its
files. After the loop come the protective MBR, the primary header with its two
CRCs, the patches, and the backup image, which is the entry array followed by a
copy of the header with three fields changed. The names are those of the source;
a `set_bytes` is a run of assignments `PrimaryGPT[i] = ..`, which raises outside
the list, a `set_slice` is a slice assignment, which does not.

`PrimaryGPT` is a list of Python integers and the name of a partition is put into
it character by character, so it may hold a value that is no byte. Nothing raises
then: the loop goes on, and only `WriteGPT` at the end of the call hands each value
to `struct.pack("B", b)`. The images here are lists of bytes, which keep the low
byte of such a value, and `wide` remembers where the loop put one; `write_gpt` is
the check at the end, for the places that nothing has written since.
-/
import AndroidTools.Lib.Bytes
import AndroidTools.Crc32
import AndroidTools.Xml
import AndroidTools.Ptool.Layout

set_option autoImplicit false

namespace AndroidTools.Ptool

open AndroidTools.Bytes AndroidTools.Crc32

/-! ## Elements

The two kinds of elements that the documents are made of, with the texts as they are
printed.
-/

/-- `UpdatePatch`: the `<patch>` element with these texts. -/
def update_patch (st : Settings) (k : ℕ) (start_sector byte_offset : String) (size_in_bytes : ℕ)
    (value filename what : String) : XmlElement where
  tag := "patch"
  attrib := [("start_sector", start_sector), ("byte_offset", byte_offset),
    ("physical_partition_number", toString k), ("size_in_bytes", toString size_in_bytes),
    ("value", value), ("filename", filename),
    ("SECTOR_SIZE_IN_BYTES", toString st.sector_size_in_bytes), ("what", what)]

/-- `szStartSector`: a negative sector counts from the end of the disk. -/
def start_sector_text (start_sector : ℤ) : String :=
  if start_sector < 0 then "NUM_DISK_SECTORS" ++ toString start_sector ++ "."
  else toString start_sector

/-- `UpdateRawProgram`: the `<program>` element with these numbers. -/
def update_raw_program (st : Settings) (k : ℕ) (start_sector file_sector_offset
    num_partition_sectors : ℤ) (filename sparse label : String) : XmlElement where
  tag := "program"
  attrib := [("start_sector", start_sector_text start_sector),
    ("physical_partition_number", toString k),
    ("file_sector_offset", toString file_sector_offset),
    ("num_partition_sectors",
      toString (if num_partition_sectors ≤ 0 then 0 else num_partition_sectors)),
    ("filename", filename), ("sparse", sparse),
    ("SECTOR_SIZE_IN_BYTES", toString st.sector_size_in_bytes), ("label", label)]

/-- `os.path.basename(GPTMAIN)`. -/
def gpt_main (k : ℕ) : String := "gpt_main" ++ toString k ++ ".bin"

/-- `os.path.basename(GPTBACKUP)`. -/
def gpt_backup (k : ℕ) : String := "gpt_backup" ++ toString k ++ ".bin"

/-! ## Bytes of the images

The image is a list of byte values, of which only some operations raise: an assignment to a
place that is not there does, a slice does not. The name of a partition may put a value
above 255 into the list, which is noticed when the file is written; such places are kept
apart.
-/

/-- Assignments `PrimaryGPT[i] = b; i += 1` over the bytes of `vs`. -/
def set_bytes (img : List UInt8) (i : ℕ) (vs : List UInt8) : Except PyError (List UInt8) :=
  if i + vs.length ≤ img.length then .ok (overwrite img i vs) else .error .indexError

/-- `PrimaryGPT[i:i+len(vs)] = vs`. -/
def set_slice (img : List UInt8) (i : ℕ) (vs : List UInt8) : List UInt8 :=
  img.take i ++ vs ++ img.drop (i + vs.length)

/-- `CalcCRC32`, which raises when the array is shorter than the length. -/
def table_crc32 (array : List UInt8) (len : ℕ) : Except PyError ℕ :=
  match calc_crc32 array len with
  | some crc => .ok crc
  | none => .error .indexError

/-- The label after the truncation to 36 characters. -/
def short_label (p : Partition) : List Char := p.label.toList.take 36

/-- The 72 bytes of the partition name: `PrimaryGPT[i] = ord(b)` and a zero for each
character, then zeros. -/
def label_bytes (p : Partition) : List UInt8 :=
  (short_label p).flatMap (fun c => [c.toNat.toUInt8, 0])
    ++ List.replicate (2 * (36 - (short_label p).length)) 0

/-- Where the name of the entry at `i` puts a value above 255; the name begins 56 bytes
into the entry. -/
def wide_positions (p : Partition) (i : ℕ) : List ℕ :=
  ((List.range 36).filter fun t => (short_label p)[t]?.any fun c => 256 ≤ c.toNat).map
    fun t => i + 56 + 2 * t

/-- `Attributes`, from the flags of the partition. -/
def attributes (p : Partition) : ℕ :=
  (if p.readonly then 1 <<< 60 else 0) ||| (if p.hidden then 1 <<< 62 else 0) |||
    (if p.dontautomount then 1 <<< 63 else 0) ||| (if p.system then 1 <<< 0 else 0)

/-- `UniquePartitionGUID`; `rand j` is what `random.randint` returns in pass `j`. -/
def unique_partition_guid (st : Settings) (rand : ℕ → ℕ) (j : ℕ) (p : Partition) : ℕ :=
  if st.sequentialguid then j + 1
  else match p.uguid with
    | some g => g
    | none => rand j

/-- The 128 bytes of one entry. -/
def partition_entry (p : Partition) (guid : ℕ) (x : Extent) (label : List UInt8) : List UInt8 :=
  leBytes 16 p.type ++ leBytes 16 guid ++ leBytes 8 x.first_lba ++ leBytes 8 x.last_lba
    ++ leBytes 8 (attributes p) ++ label

/-- The running index at entry `j`: every fourth entry starts on a sector. -/
def entry_offset (st : Settings) (j i : ℕ) : ℕ :=
  if j % 4 = 0 ∧ 0 < i % st.sector_size_in_bytes then
    i + (st.sector_size_in_bytes - i % st.sector_size_in_bytes)
  else i

/-! ## The layout loop

A pass places a partition, writes its entry and emits its elements. The patches for a last
partition that grows are emitted in its own pass.
-/

/-- The variables of the loop. `wide` are the places of `PrimaryGPT` with a value that
is no byte. `placed` and `entry_offsets` are a trace: the ranges it prints and the
values of `i` at which it writes the entries. -/
structure TableState where
  cursor : Cursor
  i : ℕ
  primary_gpt : List UInt8
  wide : List ℕ
  rawprogram : List XmlElement
  patches : List XmlElement
  placed : List Extent
  entry_offsets : List ℕ

/-- The patches for the end of a last partition that grows. -/
def last_partition_patches (st : Settings) (k j : ℕ) (p : Partition) : List XmlElement :=
  let start_sector := toString (2 + (40 + j * 128) / st.sector_size_in_bytes)
  let backup_start_sector := (40 + j * 128) / st.sector_size_in_bytes
  let byte_offset := toString ((40 + j * 128) % st.sector_size_in_bytes)
  let what (header : String) := "Update last partition " ++ toString (j + 1) ++ " '" ++ p.label
    ++ "' with actual size in " ++ header ++ " Header."
  [update_patch st k start_sector byte_offset 8 "NUM_DISK_SECTORS-34." (gpt_main k)
      (what "Primary"),
    update_patch st k start_sector byte_offset 8 "NUM_DISK_SECTORS-34." "DISK" (what "Primary"),
    update_patch st k (toString backup_start_sector) byte_offset 8 "NUM_DISK_SECTORS-34."
      (gpt_backup k) (what "Backup"),
    update_patch st k
      -- the array of the backup begins 33 sectors before the end
      ("NUM_DISK_SECTORS-" ++ toString ((33 : ℤ) - backup_start_sector) ++ ".") byte_offset 8
      "NUM_DISK_SECTORS-34." "DISK" (what "Backup")]

/-- The `<program>` element of one file of a partition placed at `x`. -/
def program_element (st : Settings) (k : ℕ) (p : Partition) (x : Extent) (f : PartitionFile) :
    XmlElement :=
  update_raw_program st k (x.first_lba + f.filepartitionoffset) f.fileoffset
    (x.last_lba - x.first_lba - f.filepartitionoffset + 1) f.filename f.sparse
    (String.ofList (short_label p))

/-- One pass of the loop, `n` being the number of partitions. -/
def add_partition (st : Settings) (k n : ℕ) (rand : ℕ → ℕ) (j : ℕ) (p : Partition)
    (s : TableState) : Except PyError TableState := do
  let last := decide (j + 1 = n)
  let c ← place_partition st last p s.cursor
  let i := entry_offset st j s.i
  let entry := partition_entry p (unique_partition_guid st rand j p) c.extent (label_bytes p)
  let img ← set_bytes s.primary_gpt i entry
  return {
    cursor := next_partition c
    i := i + 128
    primary_gpt := img
    wide := s.wide ++ wide_positions p i
    rawprogram := s.rawprogram ++ p.files.map (program_element st k p c.extent)
    patches := s.patches ++
      if last && st.grow_last_partition_to_fill_disk then last_partition_patches st k j p else []
    placed := s.placed ++ [c.extent]
    entry_offsets := s.entry_offsets ++ [i] }

/-- The loop from pass `j` on, each pass in the state that the one before has left. -/
def add_partitions (st : Settings) (k n : ℕ) (rand : ℕ → ℕ) :
    ℕ → List Partition → TableState → Except PyError TableState
  | _, [], s => .ok s
  | j, p :: ps, s => do
    let s ← add_partition st k n rand j p s
    add_partitions st k n rand (j + 1) ps s

/-! ## Headers and CRCs

What is written behind the loop, in its order: the protective MBR, the primary header with
its two CRCs, the backup image, and the files. The CRC of the array is taken from byte 1024
on, whatever the sector size.
-/

/-- `NumPartitions`: a multiple of 4, or 128 on request. -/
def num_partitions (st : Settings) (n : ℕ) : ℕ :=
  if st.force128partitions then 128
  else 4 * (n / 4) + if 0 < n % 4 then 4 else 0

/-- `SizeOfPartitionArray`, the size of an entry. -/
def size_of_partition_array : ℕ := 128

/-- Where the array CRC of the image starts: two sectors of 512 bytes, whatever
the sector size. -/
def array_crc_start : ℕ := 1024

/-- `DiskGUID`, the same for every disk. -/
def disk_guid : ℕ := 0x200C003DB32B6EA04BF2BBE298101B32

/-- The protective MBR, written into the first sector of the image. -/
def write_protective_mbr (st : Settings) (img : List UInt8) : Except PyError (List UInt8) := do
  let img ← set_bytes img 0x1BE [0x00, 0x00, 0x01, 0x00, 0xEE, 0xFF, 0xFF, 0xFF]
  let img := set_slice img (0x1BE + 8) [0x01, 0x00, 0x00, 0x00]
  let img := set_slice img (0x1BE + 12) [0xFF, 0xFF, 0xFF, 0xFF]
  let img ← set_bytes img 440 (leBytes 4 st.disk_signature).reverse
  return set_slice img 510 [0x55, 0xAA]

/-- The first 16 bytes of a header: "EFI PART", the revision and the header size. -/
def gpt_signature : List UInt8 :=
  [0x45, 0x46, 0x49, 0x20, 0x50, 0x41, 0x52, 0x54, 0x00, 0x00, 0x01, 0x00, 0x5C, 0x00, 0x00, 0x00]

/-- The header up to the array CRC, in the order the fields are written. -/
def header_fields (num_partitions : ℕ) : List UInt8 :=
  gpt_signature
    ++ leBytes 4 0       -- CRC, calculated later
    ++ leBytes 4 0       -- reserved
    ++ leBytes 8 1       -- CurrentLBA
    ++ leBytes 8 0       -- BackupLBA
    ++ leBytes 8 34      -- FirstLBA
    ++ leBytes 8 0       -- LastLBA
    ++ leBytes 16 disk_guid
    ++ leBytes 8 2       -- PartitionsLBA
    ++ leBytes 4 num_partitions
    ++ leBytes 4 size_of_partition_array

/-- The primary header with the CRC of the array and the CRC of the header. -/
def write_primary_header (st : Settings) (n : ℕ) (img : List UInt8) :
    Except PyError (List UInt8) := do
  let s := st.sector_size_in_bytes
  let img ← set_bytes img s (header_fields (num_partitions st n))
  let partitions_crc ←
    table_crc32 (img.drop array_crc_start) (num_partitions st n * size_of_partition_array)
  let img ← set_bytes img (s + 88) (leBytes 4 partitions_crc)
  let header_crc ← table_crc32 (img.drop s) 92
  set_bytes img (s + 16) (leBytes 4 header_crc)

/-- The backup image: the array, then the header with `CurrentLBA`, `BackupLBA`
and `PartitionsLBA` changed and a CRC of its own. -/
def make_backup_gpt (st : Settings) (primary_gpt : List UInt8) : Except PyError (List UInt8) := do
  let s := st.sector_size_in_bytes
  let array := primary_gpt.drop (2 * s)
  let img := array.take (32 * s) ++ slice primary_gpt s s ++ array.drop (33 * s)
  let img ← set_bytes img (32 * s + 16) (leBytes 4 0 ++ leBytes 4 0 ++ leBytes 8 0 ++ leBytes 8 1)
  let img ← set_bytes img (32 * s + 72) (leBytes 8 0)
  let header_crc ← table_crc32 (img.drop (32 * s)) 92
  set_bytes img (32 * s + 16) (leBytes 4 header_crc)

/-- What is written behind the loop: the disk signature, the record and the magic number
of the protective MBR, and the header with its two CRCs. -/
def rewritten (st : Settings) (i : ℕ) : Bool :=
  (440 ≤ i && i < 444) || (446 ≤ i && i < 462) || (510 ≤ i && i < 512) ||
    (st.sector_size_in_bytes ≤ i && i < st.sector_size_in_bytes + 92)

/-- `WriteGPT`: the first value that is no byte makes `struct.pack` raise. The backup
image holds no value that the primary one does not hold. -/
def write_gpt (st : Settings) (wide : List ℕ) : Except PyError Unit :=
  if wide.all (rewritten st) then .ok () else .error .structError

/-! ## Patches for the headers

Every number that depends on the size of the disk, and every CRC over such a number, has a
patch for the file and one for the disk. Their order is that of the document.
-/

/-- The patches after the loop, in the order they are emitted. -/
def header_patches (st : Settings) (k n : ℕ) : List XmlElement :=
  let patch := update_patch st k
  let len := toString (num_partitions st n * size_of_partition_array)
  let main := gpt_main k
  let backup := gpt_backup k
  [patch "1" "48" 8 "NUM_DISK_SECTORS-34." main "Update Primary Header with LastUseableLBA.",
    patch "1" "48" 8 "NUM_DISK_SECTORS-34." "DISK" "Update Primary Header with LastUseableLBA.",
    patch "32" "48" 8 "NUM_DISK_SECTORS-34." backup "Update Backup Header with LastUseableLBA.",
    patch "NUM_DISK_SECTORS-1." "48" 8 "NUM_DISK_SECTORS-34." "DISK"
      "Update Backup Header with LastUseableLBA.",
    patch "1" "32" 8 "NUM_DISK_SECTORS-1." main
      "Update Primary Header with BackupGPT Header Location.",
    patch "1" "32" 8 "NUM_DISK_SECTORS-1." "DISK"
      "Update Primary Header with BackupGPT Header Location.",
    patch "32" "24" 8 "NUM_DISK_SECTORS-1." backup "Update Backup Header with CurrentLBA.",
    patch "NUM_DISK_SECTORS-1." "24" 8 "NUM_DISK_SECTORS-1." "DISK"
      "Update Backup Header with CurrentLBA.",
    patch "32" "72" 8 "NUM_DISK_SECTORS-33." backup
      "Update Backup Header with Partition Array Location.",
    patch "NUM_DISK_SECTORS-1" "72" 8 "NUM_DISK_SECTORS-33." "DISK"
      "Update Backup Header with Partition Array Location.",
    patch "1" "88" 4 ("CRC32(2," ++ len ++ ")") main
      "Update Primary Header with CRC of Partition Array.",
    patch "1" "88" 4 ("CRC32(2," ++ len ++ ")") "DISK"
      "Update Primary Header with CRC of Partition Array.",
    patch "32" "88" 4 ("CRC32(0," ++ len ++ ")") backup
      "Update Backup Header with CRC of Partition Array.",
    patch "NUM_DISK_SECTORS-1." "88" 4 ("CRC32(NUM_DISK_SECTORS-33.," ++ len ++ ")") "DISK"
      "Update Backup Header with CRC of Partition Array.",
    patch "1" "16" 4 "0" main "Zero Out Header CRC in Primary Header.",
    patch "1" "16" 4 "CRC32(1,92)" main "Update Primary Header with CRC of Primary Header.",
    patch "1" "16" 4 "0" "DISK" "Zero Out Header CRC in Primary Header.",
    patch "1" "16" 4 "CRC32(1,92)" "DISK" "Update Primary Header with CRC of Primary Header.",
    patch "32" "16" 4 "0" backup "Zero Out Header CRC in Backup Header.",
    patch "32" "16" 4 "CRC32(32,92)" backup "Update Backup Header with CRC of Backup Header.",
    patch "NUM_DISK_SECTORS-1." "16" 4 "0" "DISK" "Zero Out Header CRC in Backup Header.",
    patch "NUM_DISK_SECTORS-1." "16" 4 "CRC32(NUM_DISK_SECTORS-1.,92)" "DISK"
      "Update Backup Header with CRC of Backup Header."]

/-! ## The whole function

One call, as a value: what the files would hold, and a trace of the loop for the results
about it.
-/

/-- What one call leaves: the two images, the two documents, the trace of the
loop and `hash_w`. -/
structure GptTables where
  primary_gpt : List UInt8
  backup_gpt : List UInt8
  rawprogram : List XmlElement
  patches : List XmlElement
  placed : List Extent
  entry_offsets : List ℕ
  hash_w : WPHash

/-- `hash_w` when the loop starts, with region 0 over the table where it is protected. -/
def starting_wp_hash (st : Settings) : Except PyError WPHash :=
  if st.write_protect_gpt_partition_table then update_wp_hash st (initial_wp_hash st) 34 0
  else .ok (initial_wp_hash st)

/-- The variables when the loop starts: empty lists, and the cursor behind the table. -/
def starting_state (st : Settings) (hash_w : WPHash) : TableState where
  cursor := ⟨34, 34, 0, hash_w⟩
  i := 2 * st.sector_size_in_bytes
  primary_gpt := List.replicate (34 * st.sector_size_in_bytes) 0
  wide := []
  rawprogram := []
  patches := []
  placed := []
  entry_offsets := []

/-- The `<program>` elements for the two table images. -/
def table_elements (st : Settings) (k : ℕ) : List XmlElement :=
  [update_raw_program st k 0 0 34 (gpt_main k) "false" "PrimaryGPT",
    update_raw_program st k (-33) 0 33 (gpt_backup k) "false" "BackupGPT"]

/-- `CreateGPTPartitionTable(k)` for the partitions `ps` of physical partition `k`. -/
def create_gpt_partition_table (st : Settings) (k : ℕ) (ps : List Partition) (rand : ℕ → ℕ) :
    Except PyError GptTables := do
  let hash_w ← starting_wp_hash st
  let s ← add_partitions st k ps.length rand 0 ps (starting_state st hash_w)
  let img ← write_protective_mbr st s.primary_gpt
  let primary_gpt ← write_primary_header st ps.length img
  let backup_gpt ← make_backup_gpt st primary_gpt
  write_gpt st s.wide
  return {
    primary_gpt, backup_gpt
    rawprogram := s.rawprogram ++ table_elements st k
    patches := s.patches ++ header_patches st k ps.length
    placed := s.placed
    entry_offsets := s.entry_offsets
    hash_w := s.cursor.hash_w }

end AndroidTools.Ptool
