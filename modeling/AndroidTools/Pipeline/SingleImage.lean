/-
An image that describes itself.

With both documents and `-d N` the two table images are patched, and then they and the
files of the partitions are written to `singleimage.bin`. Where a file goes is told by
`rawprogram0.xml`, where it can be found by the array in the image; both have their
numbers from the same layout, which is a packing, so no write hits another
(`image_laid`) and what an entry points to is what was written there.

The image is wiped before anything is read, and numbers above 64TB stand for sectors
counted from the end. A file that is the image itself is not found again, and with more
than 33 sectors above 64TB the backup table ends up behind the disk.
-/
import AndroidTools.Ptool.EntryArray
import AndroidTools.Pipeline.DiskSize
import AndroidTools.Pipeline.Spill

set_option autoImplicit false

namespace AndroidTools.Pipeline

open AndroidTools.Bytes AndroidTools.FieldPatch AndroidTools.Writes AndroidTools.Ptool
  AndroidTools.Msp AndroidTools.Text

/-! ## Reading an image

What a reader does with the image alone: he finds the array through the header, an entry in
the array and the file through the entry. `SelfDescribing` is stated with these functions,
on bytes, without mentioning the layout.
-/

/-- `FirstLBA` of entry `j` of the array that the header in sector 1 points to. -/
def read_first_lba (image : List UInt8) (j : ℕ) : ℕ :=
  number_at image (number_at image (512 + 72) 8 * 512 + j * number_at image (512 + 84) 4 + 32) 8

/-- The bytes stored for the file of partition `j` of `n`: it is cut to the partition unless that
grows, and fills whole sectors. -/
def stored_file (st : Settings) (n j : ℕ) (p : Partition) (file : List UInt8) : List UInt8 :=
  pad 512 (if grown st n j then file
    else file.take ((convert_kb_to_sectors st p.size_in_kb).toNat * 512))

/-- Partition `j` is `p`, and `file` is its file. -/
def FileOf (ps : List Partition) (files : Store) (j : ℕ) (p : Partition) (file : List UInt8) :
    Prop :=
  ps[j]? = some p ∧ ∃ f ∈ p.files, f.filename ≠ "" ∧ files f.filename = some file

/-- Byte `i` is in the first 34 or the last 33 of `n` sectors. -/
def InTables (n i : ℕ) : Prop := i / 512 < 34 ∨ n - 33 ≤ i / 512 ∧ i / 512 < n

/-- Byte `i` is in a file that is stored where its entry points. -/
def InFile (st : Settings) (ps : List Partition) (files : Store) (image : List UInt8) (i : ℕ) :
    Prop :=
  ∃ j p file, FileOf ps files j p file ∧ read_first_lba image j * 512 ≤ i ∧
    i < read_first_lba image j * 512 + (stored_file st ps.length j p file).length

/-- Every file is where its entry points, and there is nothing else. -/
structure SelfDescribing (st : Settings) (ps : List Partition) (n : ℕ) (files : Store)
    (image : List UInt8) : Prop where
  stored : ∀ j p file, FileOf ps files j p file →
    slice image (read_first_lba image j * 512) (stored_file st ps.length j p file).length
      = stored_file st ps.length j p file
  zero : ∀ i < image.length, ¬ InTables n i → ¬ InFile st ps files image i → image.getD i 0 = 0

/-- `msp.py -r rawprogram0.xml -p patch0.xml -d N` ends, with an image that describes itself. -/
def EndsSelfDescribing (st : Settings) (ps : List Partition) (out : GptTables) (n : ℕ)
    (files : Store) : Prop :=
  ∃ t image, msp (.sectors n) 512 (some out.rawprogram) (some out.patches) files = .done t ∧
    t.files single_image = some image ∧ SelfDescribing st ps n files image

/-! ## What is programmed

The lists for which an image can describe itself: at most one file for each partition, which
is there, starts at the beginning of both, and fits in front of the backup table.
-/

/-- A file that is written from its start to the start of its partition, is there, and is none of
the two table images. -/
structure PlainFile (k : ℕ) (files : Store) (f : PartitionFile) : Prop where
  offset : f.fileoffset = 0
  partition_offset : f.filepartitionoffset = 0
  found : (files f.filename).isSome
  not_table : ∀ t : GptImage, f.filename ≠ t.name k

/-- Partitions of at least a sector with at most one file each, for an image of `n` sectors of
which the last 33 are left free; a partition that grows has the sectors up to there. -/
structure Programmable (st : Settings) (k : ℕ) (ps : List Partition) (placed : List Extent)
    (n : ℕ) (files : Store) : Prop where
  has_sector : ∀ j p, ps[j]? = some p → ¬ grown st ps.length j →
    1 ≤ convert_kb_to_sectors st p.size_in_kb
  one_file : ∀ p ∈ ps, p.files.length = 1
  plain : ∀ p ∈ ps, ∀ f ∈ p.files, f.filename ≠ "" → PlainFile k files f
  non_sparse : NonSparse st k (ps.zip placed)
  partitions_end : ∀ x ∈ placed, x.last_lba + 1 ≤ (n : ℤ) - 33
  files_end : ∀ j p x file, FileOf ps files j p file → placed[j]? = some x →
    x.first_lba * 512 + (stored_file st ps.length j p file).length ≤ ((n : ℤ) - 33) * 512

/-! ## The files after patching

The image is wiped, then the two table images are patched. No other file is changed, and the
numbers of the layout are still those of the entries.
-/

theorem name_ne_single_image (k : ℕ) (t : GptImage) : t.name k ≠ single_image :=
  name_ne (by decide) k t

/-- The number a patch takes for a sector counted from the end. -/
def sector_back (n j : ℕ) : ℤ := (Sector.back j).actual n (max_sectors 512)

/-- The store after patching: the image is empty, the table images are `imgs`, and the other
files are as they were. -/
structure PatchedStore (k : ℕ) (files : Store) (imgs : GptImage → List UInt8) (files' : Store) :
    Prop where
  wiped : files' single_image = some []
  table : ∀ t : GptImage, files' (t.name k) = some (imgs t)
  length : ∀ t, (imgs t).length = t.size 512
  other : ∀ name, (∀ t : GptImage, name ≠ t.name k) → name ≠ single_image →
    files' name = files name

section Image

variable {st : Settings} {k : ℕ} {ps : List Partition} {rand : ℕ → ℕ} {out : GptTables}
  {n : ℕ} {files : Store} (hout : create_gpt_partition_table st k ps rand = .ok out)
  (hs : st.sector_size_in_bytes = 512) (hps : ps ≠ []) (hn : ps.length ≤ 128)
  (hplain : Programmable st k ps out.placed n files)

include hout hplain in
/-- Where partition `j` lies: before the last 33 sectors, behind the first 34. -/
theorem extent_bounds {j : ℕ} {p : Partition} {x : Extent} (hp : ps[j]? = some p)
    (hx : out.placed[j]? = some x) :
    34 ≤ x.first_lba ∧ x.first_lba ≤ x.last_lba + 1 ∧ x.last_lba + 1 ≤ (n : ℤ) - 33 ∧
      x.last_lba - x.first_lba + 1
        = if grown st ps.length j then 0 else convert_kb_to_sectors st p.size_in_kb := by
  obtain ⟨c, hpacked⟩ := placed_packed hout fun j p hp hg =>
    zero_le_one.trans (hplain.has_sector j p hp hg)
  have hmem := List.mem_of_getElem? hx
  by_cases hg : grown st ps.length j
  · obtain ⟨hash_w, s, img, -, hrun, -, -, -, -, -, hplaced, -, -, -⟩ :=
      create_gpt_partition_table_spec hout
    have hlast := grown_extent hrun hp (hplaced ▸ hx) hg
    rw [if_pos hg]
    exact ⟨hpacked.starts x hmem, by omega, hplain.partitions_end x hmem, by omega⟩
  · have hsectors := fixed_extent hout hp hx hg
    have hpos := hplain.has_sector j p hp hg
    rw [if_neg hg]
    exact ⟨hpacked.starts x hmem, by omega, hplain.partitions_end x hmem, hsectors⟩

include hout hps hplain in
/-- The two tables have at least their own sectors on the disk, so there are 67. -/
theorem sectors_ge : 67 ≤ n := by
  obtain ⟨hlen, -, -⟩ := create_gpt_partition_table_shape hout
  have hpos := List.length_pos_iff.mpr hps
  have hp : ps[0]? = some (ps.get ⟨0, hpos⟩) := List.getElem?_eq_getElem _
  have hx : out.placed[0]? = some (out.placed.get ⟨0, by omega⟩) := List.getElem?_eq_getElem _
  obtain ⟨hfirst, hle, hlast, -⟩ := extent_bounds hout hplain hp hx
  omega

include hout hs hps hn hplain in
/-- The patches change the two table images on the wiped store, and nothing else. -/
theorem patched_files (hbig : n < 2 ^ 53) (hfiles : Emitted k out files) :
    ∃ files', run_patches .files (n * 512) single_image out.patches
        (Function.update files single_image (some [])) = .done files' ∧
      PatchedStore k files
        (fun t => patched st ps.length (sector_back n) t (GptImage.of out t)) files' := by
  have h67 := sectors_ge hout hps hplain
  have hdvd : 512 ∣ st.sector_size_in_bytes := by rw [hs]
  have hwiped : Emitted k out (Function.update files single_image (some [])) := fun t =>
    (Function.update_of_ne (name_ne_single_image k t) _ _).trans (hfiles t)
  obtain ⟨files', hrun, himages, hother⟩ := files_patch_images hdvd hps hn hout
    (show 34 ≤ n by omega) hbig (by rw [hs]; decide) single_image hwiped
  have hlen := length_of (Nat.le_of_dvd st.sector_size_pos hdvd) hout
  rw [hs] at hrun himages
  refine ⟨files', hrun, ?_, himages, fun t => ?_, fun name htable hname => ?_⟩
  · rw [hother _ fun t => (name_ne_single_image k t).symm, Function.update_self]
  · rw [length_patched _ hdvd hn (hlen t), hlen t, hs]
  · rw [hother name htable, Function.update_of_ne hname]

/-! ## The writes

Each element is written where it should be, and no two writes meet: the partitions are a
packing, and the tables lie in front and behind. So the image is known byte by byte,
whatever the order of the writes.
-/

variable {files' : Store}

include hout hs hplain in
/-- What is written for the file of a partition. -/
theorem file_write (hmax : n ≤ 2 ^ 37 + 33) {j : ℕ} {p : Partition} {x : Extent}
    {f : PartitionFile} {file : List UInt8} (hp : ps[j]? = some p)
    (hx : out.placed[j]? = some x) (hf : PlainFile k files f)
    (hfile : files' f.filename = some file) :
    0 ≤ (real_entry st k (n * 512) (n * 512) x f).file_sector_offset ∧
    0 ≤ (real_entry st k (n * 512) (n * 512) x f).start_sector ∧
    (real_entry st k (n * 512) (n * 512) x f).start_sector ≤ n ∧
    (element_write 512 files' (real_entry st k (n * 512) (n * 512) x f)).toWriteAt
      = ⟨x.first_lba.toNat * 512, stored_file st ps.length j p file⟩ := by
  obtain ⟨hfirst, hle, hlast, hsectors⟩ := extent_bounds hout hplain hp hx
  have hmaxs : max_sectors st.sector_size_in_bytes = 2 ^ 37 := by
    rw [hs]
    decide
  have hord : OrdinaryNumbers st x f := by
    refine ⟨?_, ?_, ?_⟩ <;> rw [hf.partition_offset]
    · omega
    · rw [hmaxs]
      omega
    · rw [hmaxs]
      omega
  obtain ⟨hstart, hnum⟩ := @real_entry_ordinary st k (n * 512) (n * 512) x f hord
  have hoffset : (real_entry st k (n * 512) (n * 512) x f).file_sector_offset = 0 := by
    change real_value _ _ f.fileoffset = 0
    rw [hf.offset, real_value_of_le (Int.natCast_nonneg _)]
  rw [hf.partition_offset, add_zero] at hstart
  rw [hf.partition_offset, sub_zero, hsectors] at hnum
  -- a partition that grows has size 0, and takes the file whole
  set sectors := if grown st ps.length j then 0 else convert_kb_to_sectors st p.size_in_kb
    with hsectors'
  have hcut : pad 512 (if sectors.toNat = 0 then file else file.take (sectors.toNat * 512))
      = stored_file st ps.length j p file := by
    rw [stored_file, hsectors']
    by_cases hg : grown st ps.length j
    · rw [if_pos hg, if_pos hg, if_pos Int.toNat_zero]
    · have := hplain.has_sector j p hp hg
      rw [if_neg hg, if_neg hg, if_neg (by omega)]
  have hwritten := @written_eq_pad 512 file (real_entry st k (n * 512) (n * 512) x f)
    (by decide) (by decide) hoffset sectors.toNat (by rw [hnum]; omega)
  refine ⟨hoffset.ge, by omega, by omega, ?_⟩
  change WriteAt.mk _ (((files' f.filename).bind _).getD []) = _
  rw [hfile, Option.bind_some, hwritten, hcut, hstart, Option.getD_some]

/-- The dictionary of a table image, for a disk of `given` bytes or one whose size is not known.
-/
def table_entry (st : Settings) (k given : ℕ) : GptImage → Entry
  | .main => program_entry st k given 0 0 34 (gpt_main k) "false"
  | .backup => program_entry st k given (-33) 0 33 (gpt_backup k) "false"

/-- The dictionary of a table image when the disk size is known. -/
def real_table_entry (st : Settings) (k given : ℕ) (t : GptImage) : Entry :=
  replace_disk_size given st.sector_size_in_bytes (table_entry st k given t)

theorem real_table_entry_filename (given : ℕ) (t : GptImage) :
    (real_table_entry st k given t).filename = t.name k := by
  cases t <;> rfl

theorem real_table_entry_offset (given : ℕ) (t : GptImage) :
    (real_table_entry st k given t).file_sector_offset = 0 := by
  have hzero : (table_entry st k given t).file_sector_offset = 0 := by cases t <;> rfl
  change real_value _ _ _ = 0
  rw [hzero, real_value_of_le (Int.natCast_nonneg _)]

include hs in
theorem real_table_entry_sectors (given : ℕ) (t : GptImage) :
    (real_table_entry st k given t).num_partition_sectors = t.sectors := by
  have hmaxs : emmcbld_max_disk_size_in_bytes / 512 = 2 ^ 37 := by decide
  have hread : (table_entry st k given t).num_partition_sectors = t.sectors := by cases t <;> rfl
  change real_value _ _ _ = _
  rw [hread, hs, hmaxs, real_value_of_le (by cases t <;> decide)]

/-- Cutting and padding leaves a table image as it is, since it has whole sectors. -/
theorem pad_table (t : GptImage) {img : List UInt8} (hlen : img.length = t.size 512) :
    pad 512 (if t.sectors = 0 then img else img.take (t.sectors * 512)) = img := by
  rw [if_neg (by cases t <;> decide),
    List.take_of_length_le (show img.length ≤ t.sectors * 512 from hlen.le)]
  apply pad_of_dvd
  rw [hlen]
  exact Dvd.intro_left _ rfl

include hs in
/-- A table image is written as it is. -/
theorem table_bytes (t : GptImage) {img : List UInt8} (himg : files' (t.name k) = some img)
    (hlen : img.length = t.size 512) :
    (element_write 512 files' (real_table_entry st k (n * 512) t)).toWriteAt
      = ⟨(real_table_entry st k (n * 512) t).start_sector.toNat * 512, img⟩ := by
  have hwritten := @written_eq_pad 512 img (real_table_entry st k (n * 512) t) (by decide)
    (by decide) (real_table_entry_offset _ t) t.sectors (real_table_entry_sectors hs _ t)
  rw [pad_table t hlen] at hwritten
  rw [element_write, write_of, real_table_entry_filename, himg, Option.bind_some, hwritten,
    Option.getD_some]

include hs in
/-- Where it is meant to be, on a disk that is not too large. -/
theorem table_start (h67 : 67 ≤ n) (hmax : n ≤ 2 ^ 37 + 33) (t : GptImage) :
    (real_table_entry st k (n * 512) t).start_sector * 512 = t.base n 512 ∧
      (real_table_entry st k (n * 512) t).start_sector ≤ n := by
  have hmaxs : emmcbld_max_disk_size_in_bytes / 512 = 2 ^ 37 := by decide
  have hdisk : n * 512 / 512 = n := Nat.mul_div_cancel n (by decide)
  change real_value _ _ _ * 512 = _ ∧ real_value _ _ _ ≤ _
  rw [hs, hmaxs, hdisk]
  cases t with
  | main =>
    have hread : (table_entry st k (n * 512) .main).start_sector = 0 := rfl
    rw [hread, real_value_of_le (by decide)]
    exact ⟨rfl, Int.natCast_nonneg _⟩
  | backup =>
    have hread : (table_entry st k (n * 512) .backup).start_sector = (n : ℤ) + -33 := by
      change read_start (n * 512) st.sector_size_in_bytes (-33) = _
      rw [read_start, if_pos (by decide), if_pos (by omega), hs, hdisk]
    rw [hread, real_value_of_le (by omega), GptImage.base]
    omega

/-- The writes of an image: those of the table images `imgs` and those of the partitions' files,
none over another. -/
structure Laid (st : Settings) (ps : List Partition) (placed : List Extent) (n : ℕ)
    (files : Store) (imgs : GptImage → List UInt8) (ws : List WriteAt) : Prop where
  table : ∀ t : GptImage, ⟨t.base n 512, imgs t⟩ ∈ ws
  file : ∀ j p x file, FileOf ps files j p file → placed[j]? = some x →
    ⟨x.first_lba.toNat * 512, stored_file st ps.length j p file⟩ ∈ ws
  only : ∀ v ∈ ws, (∃ t : GptImage, v = ⟨t.base n 512, imgs t⟩) ∨
    ∃ j p x file, FileOf ps files j p file ∧ placed[j]? = some x ∧
      v = ⟨x.first_lba.toNat * 512, stored_file st ps.length j p file⟩
  apart : ws.Pairwise WriteAt.Apart

/-- The files that are programmed. -/
theorem mem_named_partition_entries {given : ℕ} {placed : List Extent} {w : Entry} :
    w ∈ named_writes (partition_entries st k given (ps.zip placed)) ↔
      ∃ (j : ℕ) (p : Partition) (x : Extent) (f : PartitionFile), ps[j]? = some p ∧
        placed[j]? = some x ∧ f ∈ p.files ∧ f.filename ≠ "" ∧
        w = partition_entry st k given x f := by
  rw [named_writes, partition_entries, List.mem_filter, List.mem_flatMap, decide_eq_true_eq]
  constructor
  · rintro ⟨⟨⟨p, x⟩, hpx, hw⟩, hname⟩
    obtain ⟨f, hf, rfl⟩ := List.mem_map.mp hw
    obtain ⟨j, hj⟩ := List.mem_iff_getElem?.mp hpx
    obtain ⟨hp, hx⟩ := List.getElem?_zip_eq_some.mp hj
    exact ⟨j, p, x, f, hp, hx, hf, hname, rfl⟩
  · rintro ⟨j, p, x, f, hp, hx, hf, hname, rfl⟩
    refine ⟨⟨(p, x), List.mem_of_getElem? (List.getElem?_zip_eq_some.mpr ⟨hp, hx⟩), ?_⟩, hname⟩
    exact List.mem_map.mpr ⟨f, hf, rfl⟩

/-- A file that is cut to its partition does not go past its end. -/
theorem length_stored_file_le {j : ℕ} (p : Partition) (file : List UInt8)
    (hg : ¬ grown st ps.length j) : (stored_file st ps.length j p file).length
      ≤ (convert_kb_to_sectors st p.size_in_kb).toNat * 512 := by
  rw [stored_file, if_neg hg, length_pad]
  exact padded_le_mul (by decide) (List.length_take_le _ _)

include hout hplain in
/-- Files of different partitions are apart. -/
theorem files_apart {i j : ℕ} (hij : i < j) {p q : Partition} {x y : Extent}
    {file file' : List UInt8} (hp : ps[i]? = some p) (hx : out.placed[i]? = some x)
    (hq : ps[j]? = some q) (hy : out.placed[j]? = some y) :
    WriteAt.Apart ⟨x.first_lba.toNat * 512, stored_file st ps.length i p file⟩
      ⟨y.first_lba.toNat * 512, stored_file st ps.length j q file'⟩ := by
  left
  obtain ⟨c, hpacked⟩ := placed_packed hout fun j p hp hg =>
    zero_le_one.trans (hplain.has_sector j p hp hg)
  obtain ⟨hfirst, -, -, hsectors⟩ := extent_bounds hout hplain hp hx
  obtain ⟨hi, hxi⟩ := List.getElem?_eq_some_iff.mp hx
  obtain ⟨hj, hyj⟩ := List.getElem?_eq_some_iff.mp hy
  have hlt := List.pairwise_iff_getElem.mp hpacked.ordered i j hi hj hij
  rw [hxi, hyj] at hlt
  -- only the last partition grows
  have hg : ¬ grown st ps.length i := by
    intro hg
    have := (List.getElem?_eq_some_iff.mp hq).1
    have := hg.1
    omega
  have hpos := hplain.has_sector i p hp hg
  have hlen := length_stored_file_le p file hg
  rw [if_neg hg] at hsectors
  simp only [WriteAt.last]
  omega

include hout hplain in
/-- A file lies behind the main table and before the backup. -/
theorem file_table_apart {j : ℕ} {p : Partition} {x : Extent} {file img : List UInt8}
    (hfile : FileOf ps files j p file) (hx : out.placed[j]? = some x) (t : GptImage)
    (hlen : img.length = t.size 512) :
    WriteAt.Apart ⟨x.first_lba.toNat * 512, stored_file st ps.length j p file⟩
      ⟨t.base n 512, img⟩ := by
  obtain ⟨hfirst, -, -, -⟩ := extent_bounds hout hplain hfile.1 hx
  have hend := hplain.files_end j p x file hfile hx
  cases t with
  | main =>
    right
    simp only [WriteAt.last, hlen, GptImage.size, GptImage.sectors, GptImage.base]
    omega
  | backup =>
    left
    simp only [WriteAt.last, GptImage.base]
    omega

/-- The write that the loop makes for a dictionary of the document. -/
def image_write (st : Settings) (n : ℕ) (files' : Store) (w : Entry) : WriteAt :=
  (element_write 512 files' (replace_disk_size (n * 512) st.sector_size_in_bytes w)).toWriteAt

include hout hs hplain in
/-- The element of a partition's file is ready, and its write is the file at the start of the
partition. -/
theorem part_ready (hmax : n ≤ 2 ^ 37 + 33) {imgs : GptImage → List UInt8}
    (hfiles : PatchedStore k files imgs files') {j : ℕ} {p : Partition} {x : Extent}
    {f : PartitionFile} (hp : ps[j]? = some p) (hx : out.placed[j]? = some x) (hf : f ∈ p.files)
    (hname : f.filename ≠ "") (himage : f.filename ≠ single_image) :
    Ready 512 (n * 512) single_image files' (real_entry st k (n * 512) (n * 512) x f) ∧
      ∃ file, files f.filename = some file ∧
        image_write st n files' (partition_entry st k (n * 512) x f)
          = ⟨x.first_lba.toNat * 512, stored_file st ps.length j p file⟩ := by
  have hplainf := hplain.plain p (List.mem_of_getElem? hp) f hf hname
  have hsame := hfiles.other f.filename hplainf.not_table himage
  obtain ⟨file, hfile⟩ := Option.isSome_iff_exists.mp hplainf.found
  obtain ⟨hoffset, hstart, hle, hbytes⟩ := file_write hout hs hplain hmax hp hx hplainf
    (hsame.trans hfile)
  refine ⟨⟨hname, himage, ?_, hoffset, hstart, ?_⟩, file, hfile, hbytes⟩
  · exact Option.isSome_iff_exists.mpr ⟨file, hsame.trans hfile⟩
  · rw [Nat.mul_div_cancel n (by decide)]
    exact hle

include hs in
/-- A table image whose sectors are on the disk is written. -/
theorem table_ready {imgs : GptImage → List UInt8} (hfiles : PatchedStore k files imgs files')
    (t : GptImage) (hstart : 0 ≤ (real_table_entry st k (n * 512) t).start_sector)
    (hle : (real_table_entry st k (n * 512) t).start_sector ≤ n) :
    Ready 512 (n * 512) single_image files' (real_table_entry st k (n * 512) t) ∧
      image_write st n files' (table_entry st k (n * 512) t)
        = ⟨(real_table_entry st k (n * 512) t).start_sector.toNat * 512, imgs t⟩ := by
  have hname := @real_table_entry_filename st k (n * 512) t
  refine ⟨⟨?_, ?_, ?_, (real_table_entry_offset _ t).ge, hstart, ?_⟩,
    table_bytes hs t (hfiles.table t) (hfiles.length t)⟩
  · rw [hname]
    exact name_ne (by decide) k t
  · rw [hname]
    exact name_ne_single_image k t
  · rw [hname, hfiles.table t]
    rfl
  · rw [Nat.mul_div_cancel n (by decide)]
    exact hle

include hout hs hplain in
/-- The writes of the partitions' files do not overlap. -/
theorem parts_apart (hmax : n ≤ 2 ^ 37 + 33)
    (himage : ∀ p ∈ ps, ∀ f ∈ p.files, f.filename ≠ single_image)
    {imgs : GptImage → List UInt8} (hfiles : PatchedStore k files imgs files') :
    ((named_writes (partition_entries st k (n * 512) (ps.zip out.placed))).map
      (image_write st n files')).Pairwise WriteAt.Apart := by
  rw [named_writes, partition_entries, List.filter_flatMap, List.map_flatMap, List.pairwise_flatMap]
  constructor
  · -- there is at most one file
    rintro ⟨p, x⟩ hpx
    obtain ⟨f, hf⟩ := List.length_eq_one_iff.mp (hplain.one_file p (List.of_mem_zip hpx).1)
    dsimp only
    rw [hf, List.map_singleton, List.pairwise_map]
    exact (List.pairwise_singleton _ _).filter _
  · rw [List.pairwise_iff_getElem]
    intro i j hi hj hij v hv w hw
    obtain ⟨hp, hx⟩ := List.getElem?_zip_eq_some.mp (List.getElem?_eq_getElem hi)
    obtain ⟨hq, hy⟩ := List.getElem?_zip_eq_some.mp (List.getElem?_eq_getElem hj)
    obtain ⟨e, he, rfl⟩ := List.mem_map.mp hv
    obtain ⟨e', he', rfl⟩ := List.mem_map.mp hw
    obtain ⟨hmem, hname⟩ := List.mem_filter.mp he
    obtain ⟨hmem', hname'⟩ := List.mem_filter.mp he'
    obtain ⟨f, hf, rfl⟩ := List.mem_map.mp hmem
    obtain ⟨g, hg, rfl⟩ := List.mem_map.mp hmem'
    obtain ⟨-, file, -, hfbytes⟩ := part_ready hout hs hplain hmax hfiles hp hx hf
      (of_decide_eq_true hname) (himage _ (List.mem_of_getElem? hp) f hf)
    obtain ⟨-, file', -, hgbytes⟩ := part_ready hout hs hplain hmax hfiles hq hy hg
      (of_decide_eq_true hname') (himage _ (List.mem_of_getElem? hq) g hg)
    rw [hfbytes, hgbytes]
    exact files_apart hout hplain hij hp hx hq hy

include hout hs hplain in
/-- Every element of a partition that has a file is ready. -/
theorem named_part_ready (hmax : n ≤ 2 ^ 37 + 33)
    (himage : ∀ p ∈ ps, ∀ f ∈ p.files, f.filename ≠ single_image)
    {imgs : GptImage → List UInt8} (hfiles : PatchedStore k files imgs files') {w : Entry}
    (hw : w ∈ named_writes (partition_entries st k (n * 512) (ps.zip out.placed))) :
    Ready 512 (n * 512) single_image files'
        (replace_disk_size (n * 512) st.sector_size_in_bytes w) ∧
      ∃ j p x file, FileOf ps files j p file ∧ out.placed[j]? = some x ∧
        image_write st n files' w
          = ⟨x.first_lba.toNat * 512, stored_file st ps.length j p file⟩ := by
  obtain ⟨j, p, x, f, hp, hx, hf, hname, rfl⟩ := mem_named_partition_entries.mp hw
  obtain ⟨hready, file, hfile, hbytes⟩ := part_ready hout hs hplain hmax hfiles hp hx hf hname
    (himage p (List.mem_of_getElem? hp) f hf)
  exact ⟨hready, j, p, x, file, ⟨hp, f, hf, hname, hfile⟩, hx, hbytes⟩

include hs in
/-- The element of a table image, on a disk that is not too large. -/
theorem named_table_ready (h67 : 67 ≤ n) (hmax : n ≤ 2 ^ 37 + 33)
    {imgs : GptImage → List UInt8} (hfiles : PatchedStore k files imgs files') (t : GptImage) :
    Ready 512 (n * 512) single_image files' (real_table_entry st k (n * 512) t) ∧
      image_write st n files' (table_entry st k (n * 512) t) = ⟨t.base n 512, imgs t⟩ := by
  obtain ⟨hstart, hle⟩ := @table_start st k n hs h67 hmax t
  obtain ⟨hready, hbytes⟩ := table_ready hs hfiles t (by omega) hle
  refine ⟨hready, ?_⟩
  rw [hbytes]
  congr 1
  omega

/-- The main table ends before the backup begins. -/
theorem tables_apart (h67 : 67 ≤ n) {imgs : GptImage → List UInt8}
    (hlen : ∀ t, (imgs t).length = t.size 512) :
    WriteAt.Apart ⟨GptImage.base n 512 .main, imgs .main⟩
      ⟨GptImage.base n 512 .backup, imgs .backup⟩ := by
  left
  have hmain := hlen .main
  simp only [WriteAt.last, hmain, GptImage.size, GptImage.sectors, GptImage.base]
  omega

include hout hs hps hplain in
/-- In whatever order they come, the writes are those of an image. -/
theorem laid_of_perm (hmax : n ≤ 2 ^ 37 + 33)
    (himage : ∀ p ∈ ps, ∀ f ∈ p.files, f.filename ≠ single_image)
    {imgs : GptImage → List UInt8} (hfiles : PatchedStore k files imgs files')
    {ws : List WriteAt}
    (hperm : ws.Perm ((named_writes (partition_entries st k (n * 512) (ps.zip out.placed))).map
        (image_write st n files') ++
      [⟨GptImage.base n 512 .main, imgs .main⟩, ⟨GptImage.base n 512 .backup, imgs .backup⟩])) :
    Laid st ps out.placed n files imgs ws := by
  have h67 := sectors_ge hout hps hplain
  refine ⟨fun u => hperm.symm.subset ?_, fun j p x file hfile hx => hperm.symm.subset ?_,
    fun v hv => ?_, ?_⟩
  · cases u <;> simp
  · obtain ⟨hp, f, hf, hname, hfile⟩ := hfile
    obtain ⟨-, file', hfile', hbytes⟩ := part_ready hout hs hplain hmax hfiles hp hx hf hname
      (himage p (List.mem_of_getElem? hp) f hf)
    rw [hfile] at hfile'
    obtain rfl := Option.some.inj hfile'
    refine List.mem_append_left _ (List.mem_map.mpr ⟨_, ?_, hbytes⟩)
    exact mem_named_partition_entries.mpr ⟨j, p, x, f, hp, hx, hf, hname, rfl⟩
  · -- every write is one of a file or of a table
    have hmem := hperm.subset hv
    rw [List.mem_append, List.mem_cons, List.mem_singleton] at hmem
    rcases hmem with hmem | rfl | rfl
    · obtain ⟨w, hw, rfl⟩ := List.mem_map.mp hmem
      obtain ⟨-, j, p, x, file, hfile, hx, hbytes⟩ := named_part_ready hout hs hplain hmax himage
        hfiles hw
      exact Or.inr ⟨j, p, x, file, hfile, hx, hbytes⟩
    · exact Or.inl ⟨.main, rfl⟩
    · exact Or.inl ⟨.backup, rfl⟩
  · -- being apart is symmetric, so the order of the writes does not matter
    refine (hperm.pairwise_iff fun h => h.symm).mpr ?_
    rw [List.pairwise_append]
    refine ⟨parts_apart hout hs hplain hmax himage hfiles,
      List.pairwise_pair.mpr (tables_apart h67 hfiles.length), fun v hv w hw => ?_⟩
    obtain ⟨e, he, rfl⟩ := List.mem_map.mp hv
    obtain ⟨-, j, p, x, file, hfile, hx, hbytes⟩ := named_part_ready hout hs hplain hmax himage
      hfiles he
    rw [hbytes]
    rw [List.mem_cons, List.mem_singleton] at hw
    rcases hw with rfl | rfl
    · exact file_table_apart hout hplain hfile hx .main (hfiles.length .main)
    · exact file_table_apart hout hplain hfile hx .backup (hfiles.length .backup)

include hout hs hps hplain in
/-- **All the writes.** Run on the patched files, the loop writes the table images and the files
of the partitions, none over another. -/
theorem image_laid (hmax : n ≤ 2 ^ 37 + 33)
    (himage : ∀ p ∈ ps, ∀ f ∈ p.files, f.filename ≠ single_image)
    {imgs : GptImage → List UInt8} (hfiles : PatchedStore k files imgs files') :
    ∃ t ws, perform_write 512 (n * 512) single_image
        (sorted_entries st k (n * 512) (ps.zip out.placed)) ⟨files', []⟩ = .done t ∧
      Laid st ps out.placed n files imgs ws ∧
      t.files single_image = some (runWrites ws []) := by
  have h67 := sectors_ge hout hps hplain
  have htable := named_table_ready (k := k) hs h67 hmax hfiles
  -- sorting only permutes: the writes of the partitions and of the two tables
  have hperm : (write_sorted (rawprogram_entries st k (n * 512) (ps.zip out.placed))).Perm
      (named_writes (partition_entries st k (n * 512) (ps.zip out.placed)) ++
        [table_entry st k (n * 512) .main, table_entry st k (n * 512) .backup]) :=
    (write_sorted_spec _).1.trans (List.Perm.of_eq (named_rawprogram_entries ..))
  have hready : ∀ w ∈ sorted_entries st k (n * 512) (ps.zip out.placed),
      Ready 512 (n * 512) single_image files' w := by
    intro w hw
    obtain ⟨v, hv, rfl⟩ := List.mem_map.mp hw
    have hmem := hperm.subset hv
    rw [List.mem_append, List.mem_cons, List.mem_singleton] at hmem
    rcases hmem with hmem | rfl | rfl
    · exact (named_part_ready hout hs hplain hmax himage hfiles hmem).1
    · exact (htable .main).1
    · exact (htable .backup).1
  obtain ⟨t, ht, htarget⟩ := perform_write_ready_image hready hfiles.wiped
  have hmap := hperm.map (image_write st n files')
  rw [List.map_append, List.map_cons, List.map_singleton, (htable .main).2,
    (htable .backup).2] at hmap
  rw [sorted_entries, List.map_map] at htarget
  exact ⟨t, _, ht, laid_of_perm hout hs hps hplain hmax himage hfiles hmap, htarget⟩

/-! ## The table in the image

The entries of the patched array point where the partitions were laid out; the patches
change the end of the last one and no start.
-/

include hout hs hn in
/-- The entries of the patched table point where the partitions were laid out. -/
theorem read_first_lba_eq {last : ℕ → ℤ} {image : List UInt8}
    (hmain : slice image 0 (34 * 512) = patched st ps.length last .main out.primary_gpt) {j : ℕ}
    {p : Partition} {x : Extent} (hp : ps[j]? = some p) (hx : out.placed[j]? = some x)
    (hfirst : 0 ≤ x.first_lba) (hlt : x.first_lba < 256 ^ 8) :
    read_first_lba image j = x.first_lba.toNat := by
  have hdvd : 512 ∣ st.sector_size_in_bytes := by rw [hs]
  have h512 := Nat.le_of_dvd st.sector_size_pos hdvd
  have himg := gpt_images h512 hout
  have hm := length_of h512 hout .main
  have hj : j < ps.length := (List.getElem?_eq_some_iff.mp hp).1
  -- the number at a byte that no patch is for
  have hkept : ∀ pos width, pos + width ≤ 34 * 512 →
      slice (patched st ps.length last .main out.primary_gpt) pos width
        = slice out.primary_gpt pos width →
      number_at image pos width = leValue (slice out.primary_gpt pos width) := by
    intro pos width hle hsame
    rw [number_at, ← hsame, ← hmain, slice_slice _ _ _ _ _ hle, Nat.zero_add]
  have hlba := patched_header_kept last hdvd hn hm 72 8 (by simp)
  have hsize := patched_header_kept last hdvd hn hm 84 4 (by simp)
  rw [GptImage.header_sector, Nat.one_mul, hs] at hlba hsize
  have hposition := header_entry_position_eq himg j
  rw [header_entry_position, hs] at hposition
  rw [read_first_lba, hkept _ _ (by omega) hlba, hkept _ _ (by omega) hsize, hposition]
  have hentry : slice (patched st ps.length last .main out.primary_gpt) (2 * 512 + j * 128 + 32) 8
      = slice out.primary_gpt (2 * 512 + j * 128 + 32) 8 := by
    refine slice_patched_of_apart last hdvd hn hm (fun f hf => ?_) ?_ ?_
    · rcases List.mem_append.mp hf with hf | hf
      · -- the patched end of the last entry lies behind its start
        have hdst := growing_field_dst st ps.length last .main
        simp only [GptField.op, hs, GptImage.array_sector] at hdst
        split_ifs at hf with hgrow
        · rw [List.mem_singleton.mp hf, hs, hdst]
          left
          omega
        · cases hf
      · right
        simp only [GptImage.header_numbers, List.mem_cons, List.not_mem_nil, or_false] at hf
        rcases hf with rfl | rfl <;> rw [hs] <;> dsimp only <;> omega
    · right
      rw [GptImage.header_sector, hs]
      omega
    · right
      rw [GptImage.header_sector, hs]
      omega
  have hstored := himg.stored j p x hp hx
  have hat := entry_position_eq (Or.inl hs : EntryPositionsAgree st ps.length) hj
  rw [hs] at hat
  rw [hkept _ _ (by omega) hentry, ← hat, ← slice_slice _ _ 128 32 8 (by omega), hstored,
    slice_partition_entry_first]
  have hvalue := leValue_leBytes_of_lt hfirst hlt
  omega

/-! ## The image

From the writes to the property: a byte of the image is in a table, in a file, or zero, and
which it is can be seen both from the layout and from the entries.
-/

/-- A byte of a partition's file is found by following the entry. -/
theorem in_file_of_covers {image : List UInt8} {i j : ℕ} {p : Partition} {x : Extent}
    {file : List UInt8} (hfile : FileOf ps files j p file)
    (hread : read_first_lba image j = x.first_lba.toNat)
    (hcovers : WriteAt.Covers ⟨x.first_lba.toNat * 512, stored_file st ps.length j p file⟩ i) :
    InFile st ps files image i := by
  refine ⟨j, p, file, hfile, ?_, ?_⟩ <;> rw [hread]
  · exact hcovers.1
  · exact hcovers.2

/-- A byte of a table image is in the first or in the last sectors. -/
theorem in_tables_of_covers (h67 : 67 ≤ n) {i : ℕ} {t : GptImage} {img : List UInt8}
    (hlen : img.length = t.size 512) (hcovers : WriteAt.Covers ⟨t.base n 512, img⟩ i) :
    InTables n i := by
  obtain ⟨hlo, hhi⟩ := hcovers
  rw [WriteAt.last, hlen] at hhi
  cases t with
  | main =>
    left
    simp only [GptImage.base, GptImage.size, GptImage.sectors] at hhi
    omega
  | backup =>
    right
    simp only [GptImage.base, GptImage.size, GptImage.sectors] at hlo hhi
    omega

include hout hs hps hn hplain in
/-- Writes that lie as they should make an image that describes itself out of an empty one. -/
theorem self_describing_of_laid (hmax : n ≤ 2 ^ 37 + 33) {last : ℕ → ℤ} {ws : List WriteAt}
    (hlaid : Laid st ps out.placed n files
      (fun t => patched st ps.length last t (GptImage.of out t)) ws) :
    SelfDescribing st ps n files (runWrites ws []) := by
  have h67 := sectors_ge hout hps hplain
  have hdvd : 512 ∣ st.sector_size_in_bytes := by rw [hs]
  have hlen : ∀ t, (patched st ps.length last t (GptImage.of out t)).length = t.size 512 := by
    intro t
    have h := length_of (Nat.le_of_dvd st.sector_size_pos hdvd) hout t
    rw [length_patched last hdvd hn h, h, hs]
  have hmain := slice_runWrites (f := []) hlaid.apart (hlaid.table .main)
  dsimp only [GptImage.base] at hmain
  rw [hlen .main] at hmain
  -- the start of a partition is read from the first copy of the table
  have hread : ∀ (j : ℕ) (p : Partition) (x : Extent), ps[j]? = some p → out.placed[j]? = some x →
      read_first_lba (runWrites ws []) j = x.first_lba.toNat := by
    intro j p x hp hx
    obtain ⟨hfirst, hle, hend, -⟩ := extent_bounds hout hplain hp hx
    exact read_first_lba_eq hout hs hn hmain hp hx (by omega) (by omega)
  have hplaced : ∀ (j : ℕ) (p : Partition), ps[j]? = some p → ∃ x, out.placed[j]? = some x := by
    intro j p hp
    have hj := (List.getElem?_eq_some_iff.mp hp).1
    rw [← (create_gpt_partition_table_shape hout).1] at hj
    exact ⟨_, List.getElem?_eq_getElem hj⟩
  refine ⟨fun j p file hfile => ?_, fun i _ htables hfiles => ?_⟩
  · obtain ⟨x, hx⟩ := hplaced j p hfile.1
    rw [hread j p x hfile.1 hx]
    exact slice_runWrites hlaid.apart (hlaid.file j p x file hfile hx)
  -- a byte of no table and of no file is one that no write covers
  · have hnone : ∀ w ∈ ws, ¬ w.Covers i := by
      intro w hw hcovers
      rcases hlaid.only w hw with ⟨t, rfl⟩ | ⟨j, p, x, file, hfile, hx, rfl⟩
      · exact htables (in_tables_of_covers h67 (hlen t) hcovers)
      · exact hfiles (in_file_of_covers hfile (hread j p x hfile.1 hx) hcovers)
    rw [getD_runWrites_apart hnone]
    rfl

/-- If no file is marked as sparse, no element is refused. -/
theorem not_sparse (h : NonSparse st k (ps.zip out.placed)) (given : ℕ) :
    ¬ (named_writes (rawprogram_entries st k given (ps.zip out.placed))).any is_sparse = true := by
  rw [named_rawprogram_entries, List.any_append, Bool.or_eq_true, not_or]
  constructor
  · rw [List.any_eq_true]
    rintro ⟨w, hw, hsp⟩
    obtain ⟨j, p, x, f, hp, hx, hf, hname, rfl⟩ := mem_named_partition_entries.mp hw
    have hno := h _ (mem_named_partition_entries.mpr ⟨j, p, x, f, hp, hx, hf, hname, rfl⟩)
    exact absurd (hsp.symm.trans hno) (by decide)
  · simp [table_entries, program_entry, is_sparse]
    decide

include hout hs hps in
/-- Both documents are read into one pair of arrays, the patches behind the elements. -/
theorem parse_both {entries : List Entry} (hread : ReadAs st n out.patches entries) :
    parse_xml (n * 512) out.rawprogram ⟨512, [], []⟩
        = some ⟨512, rawprogram_entries st k (n * 512) (ps.zip out.placed), []⟩ ∧
      parse_xml (n * 512) out.patches
          ⟨512, rawprogram_entries st k (n * 512) (ps.zip out.placed), []⟩
        = some ⟨512, rawprogram_entries st k (n * 512) (ps.zip out.placed), entries⟩ := by
  have hread' : List.Forall₂ (fun e p => return_parsed_values (n * 512) e = some (p, 512))
      out.patches entries := by
    have h := hread
    rwa [ReadAs, hs] at h
  constructor
  · have h := parse_rawprogram hout (n * 512) 512
    rwa [hs] at h
  · refine (parse_xml_patches (hs ▸ patches_read hout hps) _ _).mpr ⟨entries, hread', ?_⟩
    simp

include hout hs hps in
/-- With both documents the files are patched first, and then written. -/
theorem msp_both (hn : 0 < n)
    {entries : List Entry} (hread : ReadAs st n out.patches entries) (files : Store)
    (hsparse : ¬ (named_writes (rawprogram_entries st k (n * 512) (ps.zip out.placed))).any
      is_sparse = true) :
    msp (.sectors n) 512 (some out.rawprogram) (some out.patches) files
      = ((run_patches .files (n * 512) single_image out.patches
          (Function.update files single_image (some []))).map fun files => ⟨files, []⟩).bind
        (perform_write 512 (n * 512) single_image
          (sorted_entries st k (n * 512) (ps.zip out.placed))) := by
  have hgiven : (Dest.sectors n).disk_size 512 = n * 512 := rfl
  have hpos : 0 < n * 512 := by omega
  obtain ⟨hprograms, hpatches⟩ := parse_both hout hs hps hread
  -- the image exists, empty, when the first patch is looked at
  have hrun := run_patches_of_read hout hps hread hn .files single_image
    (Function.update files single_image (some []))
  rw [hs] at hrun
  have hne : rawprogram_entries st k (n * 512) (ps.zip out.placed) ≠ [] := by
    simp [rawprogram_entries, table_entries]
  rw [hrun]
  unfold msp
  simp only [hgiven, Option.getD_some, hprograms, hpatches, initial_min_disk_size, Nat.zero_mul,
    Nat.not_lt_zero, and_false, if_false, if_neg hsparse, if_neg hpos.ne']
  simp only [perform_operations, hne, ne_eq, not_false_eq_true, decide_true, if_true,
    Option.isSome_some, sorted_entries, hs]
  rfl

include hout hs hps hn hplain in
/-- The run is the loop over the elements, on the files as they are after patching. -/
theorem msp_run (hbig : n < 2 ^ 53) (hfiles : Emitted k out files) :
    ∃ files', PatchedStore k files
        (fun t => patched st ps.length (sector_back n) t (GptImage.of out t)) files' ∧
      msp (.sectors n) 512 (some out.rawprogram) (some out.patches) files
        = perform_write 512 (n * 512) single_image
          (sorted_entries st k (n * 512) (ps.zip out.placed)) ⟨files', []⟩ := by
  have h67 := sectors_ge hout hps hplain
  obtain ⟨entries, hread⟩ := patches_read_as hout (by rw [hs]) hps hn (show 34 ≤ n by omega) hbig
  obtain ⟨files', hrun, hpatched⟩ := patched_files hout hs hps hn hplain hbig hfiles
  refine ⟨files', hpatched, ?_⟩
  rw [msp_both hout hs hps (by omega) hread files (not_sparse hplain.non_sparse _), hrun,
    Run.map_done, Run.bind_done]

end Image

/-! ## One partition with a file

The hypotheses can be met, by one partition with one file on a disk of three sectors more
than needed.
-/

/-- A list of one partition of two sectors, with a file of that name. -/
def named_partition (name : String) : List Partition :=
  [{ default_partition 0xEBD0A0A2 with
      size_in_kb := 1, files := [⟨name, 0, 0, "false"⟩], files_ne_nil := by simp }]

theorem create_named_partition (name : String) : ∃ out,
    create_gpt_partition_table plain_settings 0 (named_partition name) (fun j => j) = .ok out ∧
      out.placed = [⟨34, 35⟩] := by
  have hmem : ∀ p ∈ named_partition name, p.performance_boundary_in_kb = 0 ∧
      (short_label p).all (·.toNat < 256) = true := by
    intro p hp
    rw [List.mem_singleton.mp hp]
    exact ⟨rfl, (by decide : (short_label (default_partition 0)).all (·.toNat < 256) = true)⟩
  have husable : SettingsUsable plain_settings (named_partition name) :=
    ⟨fun h => absurd h (by decide), fun h => absurd h (by decide), fun p hp h => by
      rw [(hmem p hp).1] at h
      exact absurd h (lt_irrefl _)⟩
  obtain ⟨out, hout⟩ := create_gpt_partition_table_total (by decide) 0 (fun j => j) husable
    (show 1 ≤ 128 by decide) fun p hp => (hmem p hp).2
  have heval : layout_partitions plain_settings 1 0 (named_partition name)
      ⟨34, 34, 0, initial_wp_hash plain_settings⟩
      = .ok (⟨36, 36, 0, initial_wp_hash plain_settings⟩, [⟨34, 35⟩]) := rfl
  exact ⟨out, hout, placed_of_layout hout rfl heval⟩

/-- Three sectors more than the two tables and the partition need are enough. -/
theorem programmable_named {name : String} {n : ℕ} {files : Store} (hn : 69 ≤ n)
    (hplain : name ≠ "" → PlainFile 0 files ⟨name, 0, 0, "false"⟩) :
    Programmable plain_settings 0 (named_partition name) [⟨34, 35⟩] n files := by
  have hgrown : ∀ j, ¬ grown plain_settings 1 j := fun j hg => absurd hg.2 (by decide)
  have hsize : ∀ p ∈ named_partition name,
      convert_kb_to_sectors plain_settings p.size_in_kb = 2 := by
    intro p hp
    rw [List.mem_singleton.mp hp]
    rfl
  refine ⟨fun j p hp _ => ?_, fun p hp => ?_, fun p hp f hf hname => ?_, fun w hw => ?_,
    fun x hx => ?_, fun j p x file hfile hx => ?_⟩
  · rw [hsize p (List.mem_of_getElem? hp)]
    decide
  · rw [List.mem_singleton.mp hp]
    rfl
  · rw [List.mem_singleton.mp hp] at hf
    rw [List.mem_singleton.mp hf] at hname ⊢
    exact hplain hname
  · obtain ⟨j, p, x, f, hp, hx, hf, hname, rfl⟩ := mem_named_partition_entries.mp hw
    rw [List.mem_singleton.mp (List.mem_of_getElem? hp)] at hf
    rw [List.mem_singleton.mp hf]
    have hword : (search (lit "true".toList fun _ => some ())
        ("false".toList.map Char.toLower)).isSome = false := by decide
    exact hword
  · rw [List.mem_singleton.mp hx]
    dsimp only
    omega
  -- the file fills at most the two sectors of the partition
  · have hlen := @length_stored_file_le plain_settings (named_partition name) j p file (hgrown j)
    rw [hsize p (List.mem_of_getElem? hfile.1)] at hlen
    rw [List.mem_singleton.mp (List.mem_of_getElem? hx)]
    dsimp only
    omega

/-- The first byte of the signature in a header is an `E`. -/
theorem signature_byte {st : Settings} {k : ℕ} {ps : List Partition} {rand : ℕ → ℕ}
    {out : GptTables} (hout : create_gpt_partition_table st k ps rand = .ok out)
    (hs : st.sector_size_in_bytes = 512) (hn : ps.length ≤ 128) (last : ℕ → ℤ) (t : GptImage) :
    (patched st ps.length last t (GptImage.of out t)).getD (t.header_sector * 512) 0 = 0x45 := by
  have hdvd : 512 ∣ st.sector_size_in_bytes := by rw [hs]
  have h512 := Nat.le_of_dvd st.sector_size_pos hdvd
  have himg := gpt_images h512 hout
  have hkept := patched_header_kept last hdvd hn (length_of h512 hout t) 0 1 (by simp)
  have hfield : slice (header_fields (num_partitions st ps.length)) 0 1 = [0x45] := rfl
  have hbyte : slice (GptImage.of out t) (t.header_sector * st.sector_size_in_bytes + 0) 1
      = [0x45] := by
    cases t with
    | main =>
      rw [GptImage.header_sector, Nat.one_mul, ← hfield]
      exact himg.header 0 1 (by decide) (by decide)
    | backup =>
      rw [GptImage.header_sector, ← hfield, ← himg.header 0 1 (by decide) (by decide)]
      exact himg.backup_header 0 1 (by decide) (by decide) (by decide)
  have hget := congrArg (fun l : List UInt8 => l[0]?) (hkept.trans hbyte)
  simp only [getElem?_slice, hs, add_zero] at hget
  rw [List.getD_eq_getElem?_getD]
  exact congrArg (·.getD 0) hget

/-- The writes when the disk has 34 sectors more than 64TB, and no file is programmed. -/
theorem backup_run {imgs : GptImage → List UInt8} {files files' : Store}
    (hpatched : PatchedStore 0 files imgs files') :
    ∃ t, perform_write 512 ((2 ^ 37 + 34) * 512) single_image
        (sorted_entries plain_settings 0 ((2 ^ 37 + 34) * 512)
          ((named_partition "").zip [⟨34, 35⟩])) ⟨files', []⟩ = .done t ∧
      t.files single_image = some (runWrites [⟨0, imgs .main⟩,
        ⟨(2 ^ 37 + 33) * 512, imgs .backup⟩] []) := by
  -- only the two tables are named, and they are sorted by their start
  have hsorted : sorted_entries plain_settings 0 ((2 ^ 37 + 34) * 512)
      ((named_partition "").zip [⟨34, 35⟩])
      = [real_table_entry plain_settings 0 ((2 ^ 37 + 34) * 512) .main,
        real_table_entry plain_settings 0 ((2 ^ 37 + 34) * 512) .backup] := by decide +kernel
  have hmainstart : (real_table_entry plain_settings 0 ((2 ^ 37 + 34) * 512) .main).start_sector
      = 0 := by decide +kernel
  have hstart : (real_table_entry plain_settings 0 ((2 ^ 37 + 34) * 512) .backup).start_sector
      = ((2 ^ 37 + 33 : ℕ) : ℤ) := by decide +kernel
  obtain ⟨hmain, hmainbytes⟩ := @table_ready plain_settings 0 (2 ^ 37 + 34) _ rfl files' _ hpatched
    .main hmainstart.ge (by rw [hmainstart]; decide)
  obtain ⟨hbackup, hbackupbytes⟩ := @table_ready plain_settings 0 (2 ^ 37 + 34) _ rfl files' _
    hpatched .backup (by rw [hstart]; omega) (by rw [hstart]; omega)
  rw [hmainstart, Int.toNat_zero, Nat.zero_mul] at hmainbytes
  rw [hstart, Int.toNat_natCast] at hbackupbytes
  obtain ⟨t, ht, htarget⟩ := perform_write_ready_image
    (List.forall_mem_cons.mpr ⟨hmain, List.forall_mem_singleton.mpr hbackup⟩) hpatched.wiped
  refine ⟨t, hsorted ▸ ht, htarget.trans ?_⟩
  rw [List.map_cons, List.map_singleton]
  exact congrArg₂ (fun v w => some (runWrites [v, w] [])) hmainbytes hbackupbytes

/-- One sector more: the backup table begins in the last sector of the disk. -/
theorem backup_behind_disk : ∃ out,
    create_gpt_partition_table plain_settings 0 (named_partition "") (fun j => j) = .ok out ∧
    Emitted 0 out (emitted_files 0 out) ∧
    Programmable plain_settings 0 (named_partition "") out.placed (2 ^ 37 + 34)
      (emitted_files 0 out) ∧
    ¬ EndsSelfDescribing plain_settings (named_partition "") out (2 ^ 37 + 34)
      (emitted_files 0 out) := by
  obtain ⟨out, hout, hplaced⟩ := create_named_partition ""
  have hfiles := emitted_files_emitted 0 out
  have hplain : Programmable plain_settings 0 (named_partition "") out.placed (2 ^ 37 + 34)
      (emitted_files 0 out) := by
    rw [hplaced]
    exact programmable_named (by decide) fun h => absurd rfl h
  refine ⟨out, hout, hfiles, hplain, ?_⟩
  rintro ⟨t, image, hrun, himage, hself⟩
  obtain ⟨files', hpatched, hmsp⟩ := msp_run hout rfl (by decide) (by decide) hplain (by decide)
    hfiles
  obtain ⟨imgs, himgs⟩ : ∃ imgs : GptImage → List UInt8, imgs = fun t => patched plain_settings
    (named_partition "").length (sector_back (2 ^ 37 + 34)) t (GptImage.of out t) := ⟨_, rfl⟩
  rw [← himgs] at hpatched
  obtain ⟨u, hu, htarget⟩ := backup_run hpatched
  rw [hplaced] at hmsp
  obtain rfl := Run.done.inj (hrun.symm.trans (hmsp.trans hu))
  obtain rfl := Option.some.inj (himage.symm.trans htarget)
  set ws : List WriteAt := [⟨0, imgs .main⟩, ⟨(2 ^ 37 + 33) * 512, imgs .backup⟩] with hws
  have hmain : (imgs .main).length = 34 * 512 := hpatched.length .main
  have hbackup : (imgs .backup).length = 33 * 512 := hpatched.length .backup
  have hapart : ws.Pairwise WriteAt.Apart := by
    refine List.pairwise_pair.mpr (Or.inl ?_)
    rw [WriteAt.last, hmain]
    dsimp only
    omega
  have hmem : (⟨(2 ^ 37 + 33) * 512, imgs .backup⟩ : WriteAt) ∈ ws := by simp [hws]
  -- the signature of the backup header
  have hcovers : WriteAt.Covers ⟨(2 ^ 37 + 33) * 512, imgs .backup⟩ ((2 ^ 37 + 65) * 512) := by
    refine ⟨by dsimp only; omega, ?_⟩
    rw [WriteAt.last, hbackup]
    dsimp only
    omega
  have hbyte := getD_runWrites (f := []) hapart hmem hcovers
  have hsignature := signature_byte hout rfl (by decide) (sector_back (2 ^ 37 + 34)) .backup
  have hlast := last_le_length_runWrites (f := []) hmem (by
    intro hnil
    have hzero := congrArg List.length hnil
    rw [hbackup] at hzero
    exact absurd hzero (by decide))
  -- its byte is behind the disk, and in no file
  have hzero := hself.zero ((2 ^ 37 + 65) * 512) (hcovers.2.trans_le hlast) (by
    unfold InTables
    decide) (by
    rintro ⟨j, p, file, ⟨hp, f, hf, hname, -⟩, -⟩
    rw [List.mem_singleton.mp (List.mem_of_getElem? hp)] at hf
    rw [List.mem_singleton.mp hf] at hname
    exact hname rfl)
  have hindex : (2 ^ 37 + 65) * 512 - (2 ^ 37 + 33) * 512 = 32 * 512 := by norm_num
  rw [hbyte] at hzero
  dsimp only at hzero
  rw [hindex] at hzero
  rw [← congrFun himgs .backup] at hsignature
  exact absurd (hsignature.symm.trans hzero) (by decide)

/-- A file of two sectors that is the image itself, and the table images. -/
def image_files (out : GptTables) : Store := fun name =>
  if name = single_image then some (List.replicate 1024 0) else emitted_files 0 out name

/-- The dictionary of the partition's file. -/
def image_entry : Entry :=
  real_entry plain_settings 0 (100 * 512) (100 * 512) ⟨34, 35⟩ ⟨single_image, 0, 0, "false"⟩

/-- A pass for a table image writes the image to its place. -/
theorem table_pass {imgs : GptImage → List UInt8} {files files' : Store}
    (hpatched : PatchedStore 0 files imgs files') (t : GptImage) {s : WriteState}
    (hsame : s.files (t.name 0) = files' (t.name 0)) {image : List UInt8}
    (himage : s.files single_image = some image) :
    perform_write_one 512 (100 * 512) single_image s
        (real_table_entry plain_settings 0 (100 * 512) t)
      = .done (s.write single_image image ⟨⟨t.base 100 512, imgs t⟩,
          real_table_entry plain_settings 0 (100 * 512) t⟩) := by
  obtain ⟨hstart, hle⟩ := @table_start plain_settings 0 100 rfl (by decide) (by decide) t
  have hname := @real_table_entry_filename plain_settings 0 (100 * 512) t
  have hpass := @pass_padded 512 (100 * 512) single_image s
    (real_table_entry plain_settings 0 (100 * 512) t) (by decide) (by decide) (imgs t) image
    (by rw [hname]; exact name_ne (by decide) 0 t)
    (by rw [hname, hsame, hpatched.table t]) himage (real_table_entry_offset _ t) t.sectors
    (real_table_entry_sectors rfl _ t) (by omega) hle
  have hpos : (real_table_entry plain_settings 0 (100 * 512) t).start_sector.toNat * 512
      = t.base 100 512 := by omega
  rwa [pad_table t (hpatched.length t), write_of, hpos] at hpass

/-- What is written to the partition is the start of the image. -/
theorem image_entry_run {imgs : GptImage → List UInt8} {files files' : Store}
    (hpatched : PatchedStore 0 files imgs files') :
    ∃ t, perform_write 512 (100 * 512) single_image
        [real_table_entry plain_settings 0 (100 * 512) .main, image_entry,
          real_table_entry plain_settings 0 (100 * 512) .backup] ⟨files', []⟩ = .done t ∧
      t.files single_image = some (runWrites [⟨0, imgs .main⟩,
        ⟨34 * 512, pad 512 ((overwrite [] 0 (imgs .main)).take (2 * 512))⟩,
        ⟨67 * 512, imgs .backup⟩] []) := by
  have hne := name_ne_single_image 0
  set s := WriteState.write ⟨files', []⟩ single_image []
    ⟨⟨0, imgs .main⟩, real_table_entry plain_settings 0 (100 * 512) .main⟩
  have hmain : perform_write_one 512 (100 * 512) single_image ⟨files', []⟩
      (real_table_entry plain_settings 0 (100 * 512) .main) = .done s :=
    table_pass hpatched .main rfl hpatched.wiped
  have himage : s.files single_image = some (overwrite [] 0 (imgs .main)) :=
    WriteState.write_target ..
  set u := s.write single_image (overwrite [] 0 (imgs .main)) ⟨⟨34 * 512,
    pad 512 ((overwrite [] 0 (imgs .main)).take (2 * 512))⟩, image_entry⟩
  -- the middle pass reads the image that the first one has written
  have hfile : perform_write_one 512 (100 * 512) single_image s image_entry = .done u :=
    pass_padded (by decide) (by decide) (by decide) himage himage (by decide +kernel)
      (by decide +kernel : image_entry.num_partition_sectors = (2 : ℕ)) (by decide +kernel)
      (by decide +kernel)
  set v := u.write single_image (overwrite (overwrite [] 0 (imgs .main)) (34 * 512)
    (pad 512 ((overwrite [] 0 (imgs .main)).take (2 * 512)))) ⟨⟨67 * 512, imgs .backup⟩,
    real_table_entry plain_settings 0 (100 * 512) .backup⟩
  have hbackup : perform_write_one 512 (100 * 512) single_image u
      (real_table_entry plain_settings 0 (100 * 512) .backup) = .done v :=
    table_pass hpatched .backup ((WriteState.write_other (hne .backup) _ _).trans
      (WriteState.write_other (hne .backup) _ _)) (WriteState.write_target ..)
  refine ⟨v, ?_, WriteState.write_target ..⟩
  rw [perform_write, Run.each_cons, hmain, Run.bind_done, Run.each_cons, hfile, Run.bind_done,
    Run.each_cons, hbackup, Run.bind_done, Run.each_nil]

/-- A file that is the image itself: its partition gets what the image begins with. -/
theorem image_not_stored : ∃ out,
    create_gpt_partition_table plain_settings 0 (named_partition single_image) (fun j => j)
      = .ok out ∧
    Emitted 0 out (image_files out) ∧
    Programmable plain_settings 0 (named_partition single_image) out.placed 100
      (image_files out) ∧
    ¬ EndsSelfDescribing plain_settings (named_partition single_image) out 100
      (image_files out) := by
  obtain ⟨out, hout, hplaced⟩ := create_named_partition single_image
  have hfiles : Emitted 0 out (image_files out) := by
    intro t
    rw [image_files, if_neg (name_ne_single_image 0 t)]
    exact emitted_files_emitted 0 out t
  have hplain : Programmable plain_settings 0 (named_partition single_image) out.placed 100
      (image_files out) := by
    rw [hplaced]
    exact programmable_named (by decide) fun _ =>
      ⟨rfl, rfl, rfl, fun t => (name_ne_single_image 0 t).symm⟩
  refine ⟨out, hout, hfiles, hplain, ?_⟩
  rintro ⟨t, image, hrun, himage, hself⟩
  obtain ⟨files', hpatched, hmsp⟩ := msp_run hout rfl (by decide) (by decide) hplain (by decide)
    hfiles
  have hsorted : sorted_entries plain_settings 0 (100 * 512)
      ((named_partition single_image).zip [⟨34, 35⟩])
      = [real_table_entry plain_settings 0 (100 * 512) .main, image_entry,
        real_table_entry plain_settings 0 (100 * 512) .backup] := by decide +kernel
  rw [hplaced, hsorted] at hmsp
  have hsignature := signature_byte hout rfl (by decide) (sector_back 100) .main
  have hread := @read_first_lba_eq _ _ _ _ _ hout rfl (by decide) (sector_back 100) image
  obtain ⟨imgs, himgs⟩ : ∃ imgs : GptImage → List UInt8, imgs = fun t => patched plain_settings
    (named_partition single_image).length (sector_back 100) t (GptImage.of out t) := ⟨_, rfl⟩
  rw [← himgs] at hpatched
  obtain ⟨u, hu, htarget⟩ := image_entry_run hpatched
  obtain rfl := Run.done.inj (hrun.symm.trans (hmsp.trans hu))
  have hlen := hpatched.length
  have hne : imgs .main ≠ [] := by
    intro hnil
    have hzero := congrArg List.length hnil
    rw [hlen .main] at hzero
    exact absurd hzero (by decide)
  set start := pad 512 ((overwrite [] 0 (imgs .main)).take (2 * 512)) with hstart
  have hstartlen : start.length = 1024 := by
    rw [hstart, length_pad, List.length_take, length_overwrite hne, hlen .main]
    decide
  set ws : List WriteAt := [⟨0, imgs .main⟩, ⟨34 * 512, start⟩, ⟨67 * 512, imgs .backup⟩] with hws
  obtain rfl := Option.some.inj (himage.symm.trans htarget)
  have hapart : ws.Pairwise WriteAt.Apart := by
    simp only [hws, List.pairwise_cons, List.mem_cons, List.not_mem_nil, or_false,
      forall_eq_or_imp, forall_eq, List.Pairwise.nil, and_true, WriteAt.Apart, WriteAt.last,
      hlen .main, hstartlen, false_implies, implies_true, GptImage.size, GptImage.sectors]
    omega
  have hmain := slice_runWrites (f := []) hapart (List.mem_cons_self : ⟨0, imgs .main⟩ ∈ ws)
  rw [hlen .main, himgs] at hmain
  obtain ⟨p, hp, hf, hsize⟩ : ∃ p, (named_partition single_image)[0]? = some p ∧
      p.files = [⟨single_image, 0, 0, "false"⟩] ∧
      convert_kb_to_sectors plain_settings p.size_in_kb = 2 := ⟨_, rfl, rfl, rfl⟩
  have hfirst := hread hmain hp (show out.placed[0]? = some ⟨34, 35⟩ by rw [hplaced]; rfl)
    (by decide) (by decide)
  have hpart := slice_runWrites (f := []) hapart (by simp [hws] : ⟨34 * 512, start⟩ ∈ ws)
  have hstored := hself.stored 0 p (List.replicate 1024 0) ⟨hp, _, hf ▸ List.mem_singleton_self _,
    by decide, rfl⟩
  have hcontent : stored_file plain_settings (named_partition single_image).length 0 p
      (List.replicate 1024 0) = pad 512 (List.replicate 1024 0) := by
    rw [stored_file, if_neg fun hg => absurd hg.2 (by decide), hsize,
      List.take_of_length_le (by rw [List.length_replicate]; decide)]
  have hpadded : Bytes.padded 512 1024 = 1024 := rfl
  rw [hfirst, hcontent, length_pad, List.length_replicate, hpadded] at hstored
  rw [hstartlen] at hpart
  -- the second sector of the partition would be zero, but holds the header
  have hbyte := congrArg (fun bytes => bytes.getD 512 0) (hpart.symm.trans hstored)
  dsimp only at hbyte
  have hin : 0 ≤ 512 ∧ 512 < 0 + (imgs .main).length := by
    rw [hlen .main, GptImage.size, GptImage.sectors]
    omega
  rw [hstart, getD_pad, getD_pad, List.getD_eq_getElem?_getD, List.getElem?_take_of_lt (by omega),
    ← List.getD_eq_getElem?_getD, getD_overwrite, if_pos hin, List.getD_replicate _ (by omega)]
    at hbyte
  rw [← congrFun himgs .main] at hsignature
  exact absurd (hsignature.symm.trans hbyte) (by decide)

end AndroidTools.Pipeline
