/-
The patches of a call are one program, emitted twice.

`gpt_fields` lists, in order, what `patch0.xml` does to the two table images: the end of a last
partition that grows, the fields that depend on the disk size, and the CRCs. Every entry has a
patch for the image file and a twin for the disk, on which the main image lies at sector 0 and the
backup image at sector N-33; the patches for files and the patches for the disk are both this list
(`files_elements`, `disk_elements`).

From there both modes of `PerformPatching` are runs of the same field updates, `patch_files` on
the images and `patch_disk` where the images lie. Every later result on patched tables starts from
these two, and none of them looks at the elements or at the windows of a patch again. The order of
the list matters, since a CRC is taken over what the updates before it have left.
-/
import AndroidTools.Ptool.GptImage
import AndroidTools.Pipeline.PatchDocument

set_option autoImplicit false

namespace AndroidTools.Pipeline

open AndroidTools.Bytes AndroidTools.Crc AndroidTools.FieldPatch AndroidTools.Ptool
  AndroidTools.Msp

/-! ## The two images

The two images are a type with two values, so what holds of both is said once. Each has a
file name, a number of sectors and a place on a disk.
-/

/-- The two images, `gpt_main0.bin` and `gpt_backup0.bin`. -/
inductive GptImage where
  | main
  | backup
  deriving Repr, DecidableEq

/-- The file name of the image, for the physical partition `k`. -/
def GptImage.name (k : ℕ) : GptImage → String
  | main => gpt_main k
  | backup => gpt_backup k

/-- The number of sectors of the image: the main one has the protective MBR as well. -/
def GptImage.sectors : GptImage → ℕ
  | main => 34
  | backup => 33

/-- The number of bytes of the image. -/
def GptImage.size (sector_size : ℕ) (t : GptImage) : ℕ := t.sectors * sector_size

/-- The byte of a disk at which the image lies. -/
def GptImage.base (disk_sectors sector_size : ℕ) : GptImage → ℕ
  | main => 0
  | backup => (disk_sectors - 33) * sector_size

/-- The image that a call has made. -/
def GptImage.of (out : GptTables) : GptImage → List UInt8
  | main => out.primary_gpt
  | backup => out.backup_gpt

theorem name_injective (k : ℕ) : Function.Injective (GptImage.name k) := by
  have hne : gpt_main k ≠ gpt_backup k := by
    intro h
    have hchar := congrArg (fun s : String => s.toList[4]?) h
    simp [gpt_main, gpt_backup] at hchar
  intro a b h
  cases a with
  | main =>
    cases b with
    | main => rfl
    | backup => exact absurd h hne
  | backup =>
    cases b with
    | main => exact absurd h.symm hne
    | backup => rfl

/-- A name that does not begin with a `g` is neither of the two file names. -/
theorem name_ne {s : String} (hs : s.toList.head? ≠ some 'g') (k : ℕ) (t : GptImage) :
    t.name k ≠ s := by
  rintro rfl
  apply hs
  cases t with
  | main => simp [GptImage.name, gpt_main]
  | backup => simp [GptImage.name, gpt_backup]

theorem name_ne_disk (k : ℕ) (t : GptImage) : t.name k ≠ "DISK" := name_ne (by decide) k t

/-! ## The program

A field has a place in an image and a value: a sector counted from the end, zero, or a CRC
of bytes of the same image. The list of the fields is written down once, in the order of the
document, and each of them gives a patch for the file, a patch for the disk, and a field
update.
-/

/-- The value of a field: a sector counted from the end of the disk, zero, or a CRC of bytes of
the same image. -/
inductive FieldValue where
  | from_end (k : ℕ)
  | zero
  | crc (sector len : ℕ)
  deriving Repr, DecidableEq

/-- A field of an image and the value it is to have. -/
structure GptField where
  image : GptImage
  sector : ℕ
  offset : ℕ
  width : ℕ
  value : FieldValue
  deriving Repr, DecidableEq

/-- The end of the last of `n` partitions, in both arrays. -/
def growing_fields (st : Settings) (n : ℕ) : List GptField :=
  let i := 40 + (n - 1) * 128
  [⟨.main, 2 + i / st.sector_size_in_bytes, i % st.sector_size_in_bytes, 8, .from_end 34⟩,
    ⟨.backup, i / st.sector_size_in_bytes, i % st.sector_size_in_bytes, 8, .from_end 34⟩]

/-- The fields of the two headers that depend on the disk size, and their CRCs. -/
def header_updates (st : Settings) (n : ℕ) : List GptField :=
  let len := num_partitions st n * size_of_partition_array
  [⟨.main, 1, 48, 8, .from_end 34⟩, ⟨.backup, 32, 48, 8, .from_end 34⟩,
    ⟨.main, 1, 32, 8, .from_end 1⟩, ⟨.backup, 32, 24, 8, .from_end 1⟩,
    ⟨.backup, 32, 72, 8, .from_end 33⟩,
    ⟨.main, 1, 88, 4, .crc 2 len⟩, ⟨.backup, 32, 88, 4, .crc 0 len⟩,
    ⟨.main, 1, 16, 4, .zero⟩, ⟨.main, 1, 16, 4, .crc 1 92⟩,
    ⟨.backup, 32, 16, 4, .zero⟩, ⟨.backup, 32, 16, 4, .crc 32 92⟩]

/-- What the patches of a list of `n` partitions do, in the order of the document. -/
def gpt_fields (st : Settings) (n : ℕ) : List GptField :=
  (if st.grow_last_partition_to_fill_disk then growing_fields st n else []) ++ header_updates st n

/-- Where a sector of an image is on the disk: from the front, or from the end. -/
def GptImage.place : GptImage → ℕ → Sector
  | main, sector => .front sector
  | backup, sector => .back (33 - sector)

/-- The patch of a field, for the image file. -/
def GptField.files_patch (k : ℕ) (f : GptField) : Patch where
  filename := f.image.name k
  sector := .front f.sector
  offset := f.offset
  width := f.width
  value := match f.value with
    | .from_end k => .sector (.back k)
    | .zero => .sector (.front 0)
    | .crc sector len => .crc (.front sector) len

/-- The twin of that patch, for the disk. -/
def GptField.disk_patch (f : GptField) : Patch where
  filename := "DISK"
  sector := f.image.place f.sector
  offset := f.offset
  width := f.width
  value := match f.value with
    | .from_end k => .sector (.back k)
    | .zero => .sector (.front 0)
    | .crc sector len => .crc (f.image.place sector) len

/-- The field update. `last k` is the number a sector counted from the end has. -/
def GptField.op (sector_size : ℕ) (last : ℕ → ℤ) (f : GptField) : FieldOp where
  dst := f.sector * sector_size + f.offset
  width := f.width
  src := match f.value with
    | .from_end k => .const (last k)
    | .zero => .const 0
    | .crc sector len => .checksum (sector * sector_size) len

/-- The program on the images: each update with the image it is for. -/
def gpt_ops (st : Settings) (n : ℕ) (last : ℕ → ℤ) : List (GptImage × FieldOp) :=
  (gpt_fields st n).map fun f => (f.image, f.op st.sector_size_in_bytes last)

/-! ## Every field lies inside its image

Inside the image, and inside one of its sectors, which is what a patch needs in order to be
a field update. For the end of the last entry this depends on the number of partitions.
-/

/-- A field, and the bytes of its CRC, inside the image. -/
structure GptField.Inside (sector_size : ℕ) (f : GptField) : Prop where
  sector : f.sector < f.image.sectors
  offset : f.offset + f.width ≤ sector_size
  offset_small : f.offset < 2 ^ 53
  width_small : f.width < 2 ^ 53
  value : match f.value with
    | .from_end k => 0 < k ∧ k ≤ 34
    | .zero => True
    | .crc sector len => 0 < f.sector ∧ len < 2 ^ 53 ∧ ∃ m, 0 < m ∧ m ≤ 64 ∧
        len ≤ m * sector_size ∧ sector + m ≤ f.image.sectors

/-- The end of the last entry lies in one of the 32 sectors of the array, for up to 128 entries.
-/
theorem entry_sector_lt {sector_size n : ℕ} (hs : 512 ≤ sector_size) (hn : n ≤ 128) :
    (40 + (n - 1) * 128) / sector_size < 32 := by
  rw [Nat.div_lt_iff_lt_mul (by omega)]
  omega

/-- The field for the end of an entry does not cross a sector border. -/
theorem entry_end_fits {sector_size : ℕ} (hs : 512 ∣ sector_size) (hpos : 0 < sector_size)
    (j : ℕ) : (40 + j * 128) % sector_size + 8 ≤ sector_size := by
  obtain ⟨c, rfl⟩ := hs
  have hlt := Nat.mod_lt (40 + j * 128) hpos
  have hdvd : 128 ∣ 512 * c := ⟨4 * c, by ring⟩
  have hmod : (40 + j * 128) % (512 * c) % 128 = 40 := by
    rw [Nat.mod_mod_of_dvd _ hdvd]
    omega
  omega

section Inside

variable {sector_size sector offset width : ℕ} {image : GptImage}

theorem inside_from_end {k : ℕ} (hsector : sector < image.sectors)
    (hoffset : offset + width ≤ sector_size) (hsmall : offset + width < 2 ^ 53)
    (hk : 0 < k ∧ k ≤ 34) :
    GptField.Inside sector_size ⟨image, sector, offset, width, .from_end k⟩ :=
  ⟨hsector, hoffset, by dsimp only; omega, by dsimp only; omega, hk⟩

theorem inside_zero (hsector : sector < image.sectors) (hoffset : offset + width ≤ sector_size)
    (hsmall : offset + width < 2 ^ 53) :
    GptField.Inside sector_size ⟨image, sector, offset, width, .zero⟩ :=
  ⟨hsector, hoffset, by dsimp only; omega, by dsimp only; omega, trivial⟩

theorem inside_crc {a len : ℕ} (m : ℕ) (hsector : 0 < sector ∧ sector < image.sectors)
    (hoffset : offset + width ≤ sector_size) (hsmall : offset + width < 2 ^ 53)
    (hlen : len < 2 ^ 53 ∧ len ≤ m * sector_size) (hm : 0 < m ∧ m ≤ 64 ∧ a + m ≤ image.sectors) :
    GptField.Inside sector_size ⟨image, sector, offset, width, .crc a len⟩ :=
  ⟨hsector.2, hoffset, by dsimp only; omega, by dsimp only; omega, hsector.1, hlen.1, m, hm.1,
    hm.2.1, hlen.2, hm.2.2⟩

end Inside

theorem header_updates_inside {st : Settings} (hs : 512 ≤ st.sector_size_in_bytes) {n : ℕ}
    (hn : n ≤ 128) : ∀ f ∈ header_updates st n, f.Inside st.sector_size_in_bytes := by
  have hnp := num_partitions_le st hn
  have hlen : num_partitions st n * size_of_partition_array < 2 ^ 53 ∧
      num_partitions st n * size_of_partition_array ≤ 32 * st.sector_size_in_bytes := by
    rw [size_of_partition_array]
    omega
  have h92 : 92 < 2 ^ 53 ∧ 92 ≤ 1 * st.sector_size_in_bytes := by omega
  simp only [header_updates, List.forall_mem_cons, List.not_mem_nil, false_implies,
    implies_true, and_true]
  refine ⟨?_, ?_, ?_, ?_, ?_, ?_, ?_, ?_, ?_, ?_, ?_⟩
  · exact inside_from_end (by decide) (by omega) (by decide) (by decide)
  · exact inside_from_end (by decide) (by omega) (by decide) (by decide)
  · exact inside_from_end (by decide) (by omega) (by decide) (by decide)
  · exact inside_from_end (by decide) (by omega) (by decide) (by decide)
  · exact inside_from_end (by decide) (by omega) (by decide) (by decide)
  · exact inside_crc 32 (by decide) (by omega) (by decide) hlen (by decide)
  · exact inside_crc 32 (by decide) (by omega) (by decide) hlen (by decide)
  · exact inside_zero (by decide) (by omega) (by decide)
  · exact inside_crc 1 (by decide) (by omega) (by decide) h92 (by decide)
  · exact inside_zero (by decide) (by omega) (by decide)
  · exact inside_crc 1 (by decide) (by omega) (by decide) h92 (by decide)

theorem growing_fields_inside {st : Settings} (hs : 512 ∣ st.sector_size_in_bytes) {n : ℕ}
    (hn : n ≤ 128) : ∀ f ∈ growing_fields st n, f.Inside st.sector_size_in_bytes := by
  have hsector := entry_sector_lt (Nat.le_of_dvd st.sector_size_pos hs) hn
  have hfits := entry_end_fits hs st.sector_size_pos (n - 1)
  have hoffset := Nat.mod_le (40 + (n - 1) * 128) st.sector_size_in_bytes
  simp only [growing_fields, List.forall_mem_cons, List.not_mem_nil, false_implies,
    implies_true, and_true]
  refine ⟨?_, ?_⟩
  · exact inside_from_end (by rw [GptImage.sectors]; omega) hfits (by omega) (by decide)
  · exact inside_from_end (by rw [GptImage.sectors]; omega) hfits (by omega) (by decide)

theorem gpt_fields_inside {st : Settings} (hs : 512 ∣ st.sector_size_in_bytes) {n : ℕ}
    (hn : n ≤ 128) : ∀ f ∈ gpt_fields st n, f.Inside st.sector_size_in_bytes := by
  intro f hf
  rw [gpt_fields, List.mem_append] at hf
  rcases hf with hf | hf
  · split_ifs at hf with hgrow
    · exact growing_fields_inside hs hn f hf
    · cases hf
  · exact header_updates_inside (Nat.le_of_dvd st.sector_size_pos hs) hn f hf

/-! ## The elements are the program

The elements that `ptool.py` emits, with their texts, are one by one the patches of the
program. This is the only place where the document is looked at element by element.
-/

section Elements

variable {st : Settings} {k : ℕ}

theorem header_files_elements (n : ℕ) :
    List.Forall₂ (PatchElement st k)
      ((header_patches st k n).filter (·.getD "filename" "" ≠ "DISK"))
      ((header_updates st n).map (GptField.files_patch k)) := by
  have hmain : gpt_main k ≠ "DISK" := name_ne_disk k .main
  have hbackup : gpt_backup k ≠ "DISK" := name_ne_disk k .backup
  simp only [header_patches, List.filter_cons, List.filter_nil, update_patch_filename, ne_eq,
    hmain, hbackup, not_true_eq_false, not_false_eq_true, decide_true, decide_false, if_true,
    Bool.false_eq_true, if_false, header_updates, List.map_cons, List.map_nil, String.append_assoc,
    GptField.files_patch]
  refine .cons ?_ (.cons ?_ (.cons ?_ (.cons ?_ (.cons ?_ (.cons ?_ (.cons ?_ (.cons ?_
    (.cons ?_ (.cons ?_ (.cons ?_ .nil))))))))))
  · exact patch_element (front_text rfl) rfl (back_value rfl)
  · exact patch_element (front_text rfl) rfl (back_value rfl)
  · exact patch_element (front_text rfl) rfl (back_value rfl)
  · exact patch_element (front_text rfl) rfl (back_value rfl)
  · exact patch_element (front_text rfl) rfl (back_value rfl)
  · exact patch_element (front_text rfl) rfl (crc_front_value rfl rfl)
  · exact patch_element (front_text rfl) rfl (crc_front_value rfl rfl)
  · exact patch_element (front_text rfl) rfl zero_value
  · exact patch_element (front_text rfl) rfl (.crc_front 1 92)
  · exact patch_element (front_text rfl) rfl zero_value
  · exact patch_element (front_text rfl) rfl (.crc_front 32 92)

theorem header_disk_elements (n : ℕ) :
    List.Forall₂ (PatchElement st k)
      ((header_patches st k n).filter (·.getD "filename" "" = "DISK"))
      ((header_updates st n).map GptField.disk_patch) := by
  have hmain : gpt_main k ≠ "DISK" := name_ne_disk k .main
  have hbackup : gpt_backup k ≠ "DISK" := name_ne_disk k .backup
  simp only [header_patches, List.filter_cons, List.filter_nil, update_patch_filename,
    hmain, hbackup, decide_true, decide_false, if_true,
    Bool.false_eq_true, if_false, header_updates, List.map_cons, List.map_nil, String.append_assoc,
    GptField.disk_patch, GptImage.place]
  refine .cons ?_ (.cons ?_ (.cons ?_ (.cons ?_ (.cons ?_ (.cons ?_ (.cons ?_ (.cons ?_
    (.cons ?_ (.cons ?_ (.cons ?_ .nil))))))))))
  · exact patch_element (front_text rfl) rfl (back_value rfl)
  · exact patch_element (back_text rfl) rfl (back_value rfl)
  · exact patch_element (front_text rfl) rfl (back_value rfl)
  · exact patch_element (back_text rfl) rfl (back_value rfl)
  · -- the one text without a dot
    exact patch_element (.back_bare 1) rfl (back_value rfl)
  · exact patch_element (front_text rfl) rfl (crc_front_value rfl rfl)
  · exact patch_element (back_text rfl) rfl (crc_back_value rfl rfl)
  · exact patch_element (front_text rfl) rfl zero_value
  · exact patch_element (front_text rfl) rfl (.crc_front 1 92)
  · exact patch_element (back_text rfl) rfl zero_value
  · exact patch_element (back_text rfl) rfl (.crc_back 1 92)

theorem int_toString_natCast (n : ℕ) : toString (n : ℤ) = toString n := rfl

variable (st k) in
theorem growing_files_elements (p : Partition) (j : ℕ) :
    List.Forall₂ (PatchElement st k)
      ((last_partition_patches st k j p).filter (·.getD "filename" "" ≠ "DISK"))
      ((growing_fields st (j + 1)).map (GptField.files_patch k)) := by
  have hmain : gpt_main k ≠ "DISK" := name_ne_disk k .main
  have hbackup : gpt_backup k ≠ "DISK" := name_ne_disk k .backup
  simp only [last_partition_patches, List.filter_cons, List.filter_nil, update_patch_filename,
    ne_eq, hmain, hbackup, not_true_eq_false, not_false_eq_true, decide_true, decide_false,
    if_true, Bool.false_eq_true, if_false, growing_fields, List.map_cons, List.map_nil,
    GptField.files_patch, Nat.add_sub_cancel]
  refine .cons ?_ (.cons ?_ .nil)
  · exact patch_element (front_text rfl) rfl (back_value rfl)
  · exact patch_element (front_text rfl) rfl (back_value rfl)

theorem growing_disk_elements (hs : 512 ≤ st.sector_size_in_bytes) (p : Partition) {j : ℕ}
    (hj : j < 128) :
    List.Forall₂ (PatchElement st k)
      ((last_partition_patches st k j p).filter (·.getD "filename" "" = "DISK"))
      ((growing_fields st (j + 1)).map GptField.disk_patch) := by
  have hmain : gpt_main k ≠ "DISK" := name_ne_disk k .main
  have hbackup : gpt_backup k ≠ "DISK" := name_ne_disk k .backup
  have hsector := entry_sector_lt hs (n := j + 1) hj
  rw [Nat.add_sub_cancel] at hsector
  have htext : toString ((33 : ℤ) - ((40 + j * 128) / st.sector_size_in_bytes : ℕ))
      = toString (33 - (40 + j * 128) / st.sector_size_in_bytes) := by
    rw [← int_toString_natCast, Nat.cast_sub (by omega)]
    rfl
  simp only [last_partition_patches, List.filter_cons, List.filter_nil, update_patch_filename,
    hmain, hbackup, decide_true, decide_false, if_true, Bool.false_eq_true, if_false,
    growing_fields, List.map_cons, List.map_nil, GptField.disk_patch, GptImage.place,
    Nat.add_sub_cancel, htext]
  refine .cons ?_ (.cons ?_ .nil)
  · exact patch_element (front_text rfl) rfl (back_value rfl)
  · exact patch_element (.back _) rfl (back_value rfl)

section Call

variable {ps : List Partition} {rand : ℕ → ℕ} {out : GptTables}
  (hout : create_gpt_partition_table st k ps rand = .ok out)

include hout

theorem patches_eq (hps : ps ≠ []) : ∃ p, out.patches
    = (if st.grow_last_partition_to_fill_disk
        then last_partition_patches st k (ps.length - 1) p else [])
      ++ header_patches st k ps.length := by
  obtain ⟨p, hp⟩ := Option.isSome_iff_exists.mp (List.getLast?_isSome.mpr hps)
  refine ⟨p, ?_⟩
  rw [(create_gpt_partition_table_shape hout).2.2, growing_patches, hp, Nat.zero_add]

theorem patches_read (hps : ps ≠ []) : ∀ e ∈ out.patches, e.tag = "patch" ∧ e.attrib ≠ [] ∧
    parse_sector_size (e.getD "SECTOR_SIZE_IN_BYTES" "512") = some st.sector_size_in_bytes := by
  obtain ⟨p, hpatches⟩ := patches_eq hout hps
  intro e he
  rw [hpatches, List.mem_append] at he
  rcases he with he | he
  · split_ifs at he with hgrow
    · simp only [last_partition_patches, List.mem_cons, List.not_mem_nil, or_false] at he
      rcases he with rfl | rfl | rfl | rfl <;> exact update_patch_reads ..
    · cases he
  · simp only [header_patches, List.mem_cons, List.not_mem_nil, or_false] at he
    casesm* _ ∨ _ <;> subst e <;> exact update_patch_reads ..

/-- The elements for files are, one by one, the patches of the program for the image files. -/
theorem files_elements (hps : ps ≠ []) :
    List.Forall₂ (PatchElement st k) (out.patches.filter (·.getD "filename" "" ≠ "DISK"))
      ((gpt_fields st ps.length).map (GptField.files_patch k)) := by
  obtain ⟨p, hpatches⟩ := patches_eq hout hps
  have hlen : ps.length - 1 + 1 = ps.length := Nat.sub_add_cancel (List.length_pos_of_ne_nil hps)
  rw [hpatches, gpt_fields, List.filter_append, List.map_append]
  refine List.rel_append ?_ (header_files_elements _)
  split_ifs with hgrow
  · have hgrown := growing_files_elements st k p (ps.length - 1)
    rwa [hlen] at hgrown
  · exact .nil

/-- The elements for the disk are, one by one, the twins of these patches. -/
theorem disk_elements (hs : 512 ≤ st.sector_size_in_bytes) (hps : ps ≠ [])
    (hn : ps.length ≤ 128) :
    List.Forall₂ (PatchElement st k) (out.patches.filter (·.getD "filename" "" = "DISK"))
      ((gpt_fields st ps.length).map GptField.disk_patch) := by
  obtain ⟨p, hpatches⟩ := patches_eq hout hps
  have hlen : ps.length - 1 + 1 = ps.length := Nat.sub_add_cancel (List.length_pos_of_ne_nil hps)
  rw [hpatches, gpt_fields, List.filter_append, List.map_append]
  refine List.rel_append ?_ (header_disk_elements _)
  split_ifs with hgrow
  · have hgrown := growing_disk_elements (k := k) hs p (j := ps.length - 1) (by omega)
    rwa [hlen] at hgrown
  · exact .nil

end Call

end Elements

/-! ## The updates

A patch for a file is its update at once. A patch for the disk names a sector of the disk,
which may be mirrored, so for it the statement is about disks on which that does not happen.
-/

section Updates

variable {sector_size disk_sectors : ℕ} {f : GptField}

/-- On its image, the patch of a field is the update of the field. -/
theorem GptField.Inside.files (h : f.Inside sector_size) (h34 : 34 ≤ disk_sectors)
    (hmax : f.sector ≤ max_sectors sector_size) (k : ℕ) :
    (f.files_patch k).Fits disk_sectors sector_size (f.image.size sector_size) ∧
      (f.files_patch k).op disk_sectors sector_size = f.op sector_size
        fun k => (Sector.back k).actual disk_sectors (max_sectors sector_size) := by
  obtain ⟨image, sector, offset, width, value⟩ := f
  obtain ⟨hsector, hoffset, -, -, hvalue⟩ := h
  dsimp only at hsector hoffset hvalue hmax
  have hactual := actual_front disk_sectors hmax
  have hzero := actual_front disk_sectors (Nat.zero_le (max_sectors sector_size))
  refine ⟨⟨?_, hoffset, ?_, ?_⟩, ?_⟩
  · simp only [GptField.files_patch, hactual]
    omega
  · simp only [GptField.files_patch, hactual, Int.toNat_natCast]
    exact Nat.mul_le_mul_right _ hsector
  -- the sectors counted from the end are inside for 34 sectors or more
  · cases value with
    | from_end j =>
      obtain ⟨hj, hj34⟩ := hvalue
      exact actual_back_nonneg (by omega)
    | zero =>
      simp only [GptField.files_patch, hzero]
      exact le_rfl
    | crc a len =>
      obtain ⟨hpos, -, m, hm, hm64, hlen, ha⟩ := hvalue
      simp only [GptField.files_patch, hactual]
      refine ⟨by omega, Int.natCast_nonneg a, m, hm, hm64, hlen, ?_⟩
      exact Nat.mul_le_mul_right _ ha
  · simp only [GptField.files_patch, Patch.op, GptField.op, hactual, Int.toNat_natCast]
    cases value with
    | from_end j => rfl
    | zero =>
      simp only [hzero]
      rfl
    | crc a len => rfl

variable (sector_size) in
/-- A sector of an image resolves to the sector of the disk on which the image has it. -/
theorem resolve_place {image : GptImage} {sector : ℕ} (hsector : sector < image.sectors)
    (h67 : 67 ≤ disk_sectors) :
    0 ≤ (image.place sector).resolve disk_sectors ∧
      ((image.place sector).resolve disk_sectors).toNat * sector_size
        = image.base disk_sectors sector_size + sector * sector_size := by
  cases image with
  | main =>
    refine ⟨Int.natCast_nonneg _, ?_⟩
    simp only [GptImage.place, Sector.resolve, Int.toNat_natCast, GptImage.base, Nat.zero_add]
  | backup =>
    rw [GptImage.sectors] at hsector
    have hnat : ((disk_sectors : ℤ) - (33 - sector : ℕ)).toNat = disk_sectors - 33 + sector := by
      omega
    refine ⟨?_, ?_⟩
    · simp only [GptImage.place, Sector.resolve]
      omega
    · simp only [GptImage.place, Sector.resolve, hnat, GptImage.base, Nat.add_mul]

variable (sector_size) in
/-- The place of an image ends on the disk. -/
theorem base_add_size_le (h67 : 67 ≤ disk_sectors) (image : GptImage) :
    image.base disk_sectors sector_size + image.size sector_size
      ≤ disk_sectors * sector_size := by
  cases image with
  | main =>
    rw [GptImage.base, Nat.zero_add]
    exact Nat.mul_le_mul_right _ (by rw [GptImage.sectors]; omega)
  | backup =>
    rw [GptImage.base, GptImage.size, ← Nat.add_mul]
    exact Nat.mul_le_mul_right _ (by rw [GptImage.sectors]; omega)

/-- The patches for the disk fit it, whether their sectors are mirrored or not. -/
theorem GptField.Inside.disk_fits (h : f.Inside sector_size) (h67 : 67 ≤ disk_sectors)
    (hmax : 33 ≤ max_sectors sector_size) :
    f.disk_patch.Fits disk_sectors sector_size (disk_sectors * sector_size) := by
  obtain ⟨image, sector, offset, width, value⟩ := f
  obtain ⟨hsector, hoffset, -, -, hvalue⟩ := h
  dsimp only at hsector hoffset hvalue
  -- the sector is on the disk, and not its first one when the field is in a header
  obtain ⟨hnonneg, hlt, hpositive⟩ :
      0 ≤ (image.place sector).actual disk_sectors (max_sectors sector_size) ∧
        (image.place sector).actual disk_sectors (max_sectors sector_size) < disk_sectors ∧
        (0 < sector → 0 < (image.place sector).actual disk_sectors (max_sectors sector_size)) := by
    cases image with
    | main =>
      rw [GptImage.sectors] at hsector
      have hfront : sector ≤ max_sectors sector_size := by omega
      rw [GptImage.place, actual_front disk_sectors hfront]
      omega
    | backup =>
      rw [GptImage.sectors] at hsector
      simp only [GptImage.place, Sector.actual, real_value, Sector.resolve]
      split_ifs <;> omega
  have hroom : ((image.place sector).actual disk_sectors (max_sectors sector_size)).toNat + 1
      ≤ disk_sectors := by omega
  refine ⟨hnonneg, hoffset, Nat.mul_le_mul_right _ hroom, ?_⟩
  cases value with
  | from_end j =>
    obtain ⟨hj, hj34⟩ := hvalue
    exact actual_back_nonneg (by omega)
  | zero =>
    have hzero := actual_front disk_sectors (Nat.zero_le (max_sectors sector_size))
    simp only [GptField.disk_patch, hzero]
    exact le_rfl
  | crc a len =>
    obtain ⟨hpos, -, m, hm, hm64, hlen, ha⟩ := hvalue
    obtain ⟨hanonneg, haaddr⟩ := resolve_place sector_size (show a < image.sectors by omega) h67
    refine ⟨hpositive hpos, hanonneg, m, hm, hm64, hlen, ?_⟩
    have hin : (a + m) * sector_size ≤ image.sectors * sector_size := Nat.mul_le_mul_right _ ha
    have hplace := base_add_size_le sector_size h67 image
    rw [GptImage.size] at hplace
    rw [Nat.add_mul] at hin
    rw [Nat.add_mul, haaddr]
    omega

/-- On a disk up to two sectors above the maximum, the twin is the update where the
image lies. -/
theorem GptField.Inside.disk_op (h : f.Inside sector_size) (h67 : 67 ≤ disk_sectors)
    (hmax : disk_sectors ≤ max_sectors sector_size + 2) :
    f.disk_patch.op disk_sectors sector_size
      = (f.op sector_size fun k => (disk_sectors : ℤ) - k).shift
        (f.image.base disk_sectors sector_size) := by
  obtain ⟨image, sector, offset, width, value⟩ := f
  obtain ⟨hsector, -, -, -, hvalue⟩ := h
  dsimp only at hsector hvalue
  obtain ⟨-, haddr⟩ := resolve_place sector_size hsector h67
  -- the text of the sector is read as the sector meant, from either end of the disk
  have hactual : (image.place sector).actual disk_sectors (max_sectors sector_size)
      = (image.place sector).resolve disk_sectors := by
    cases image with
    | main =>
      rw [GptImage.sectors] at hsector
      have hfront : sector ≤ max_sectors sector_size := by omega
      exact actual_front disk_sectors hfront
    | backup =>
      rw [GptImage.sectors] at hsector
      exact actual_back (by omega) hmax
  simp only [GptField.disk_patch, Patch.op, GptField.op, FieldOp.shift, hactual, haddr,
    Nat.add_assoc]
  cases value with
  | from_end j =>
    obtain ⟨hj, -⟩ := hvalue
    simp only [actual_back hj hmax]
  | zero =>
    have hzero := actual_front disk_sectors (Nat.zero_le (max_sectors sector_size))
    simp only [hzero]
    rfl
  | crc a len =>
    obtain ⟨-, -, m, hm, -, -, ha⟩ := hvalue
    obtain ⟨-, haaddr⟩ := resolve_place sector_size (show a < image.sectors by omega) h67
    simp only [haaddr]

end Updates

theorem GptField.Inside.files_small {sector_size disk_sectors k : ℕ} {f : GptField}
    (h : f.Inside sector_size) : (f.files_patch k).Small disk_sectors := by
  obtain ⟨image, sector, offset, width, value⟩ := f
  obtain ⟨hsector, -, hoffset, hwidth, hvalue⟩ := h
  refine ⟨hoffset, hwidth, ?_⟩
  cases value with
  | from_end k => trivial
  | zero => trivial
  | crc a len =>
    obtain ⟨-, hlen, m, -, -, -, ha⟩ := hvalue
    have hsectors : image.sectors ≤ 34 := by cases image <;> decide
    exact ⟨by dsimp only at ha; omega, hlen⟩

theorem GptField.Inside.disk_small {sector_size disk_sectors : ℕ} {f : GptField}
    (h : f.Inside sector_size) (h34 : 34 ≤ disk_sectors) (hbig : disk_sectors < 2 ^ 53) :
    f.disk_patch.Small disk_sectors := by
  obtain ⟨image, sector, offset, width, value⟩ := f
  obtain ⟨hsector, -, hoffset, hwidth, hvalue⟩ := h
  refine ⟨hoffset, hwidth, ?_⟩
  cases value with
  | from_end k => trivial
  | zero => trivial
  | crc a len =>
    obtain ⟨-, hlen, m, -, -, -, ha⟩ := hvalue
    cases image with
    | main =>
      dsimp only [GptImage.sectors] at ha
      exact ⟨by omega, hlen⟩
    | backup => exact ⟨by omega, hbig, hlen⟩

/-! ## Both modes run the program

From the document to the run, in both modes. `patch_files` and `patch_disk` are what the
later modules cite.
-/

section Runs

variable {st : Settings} {k : ℕ} {ps : List Partition} {rand : ℕ → ℕ} {out : GptTables}
  {disk_sectors : ℕ} (hout : create_gpt_partition_table st k ps rand = .ok out)
  (hs : 512 ∣ st.sector_size_in_bytes) (hps : ps ≠ []) (hn : ps.length ≤ 128)

include hout hs hps hn in
theorem patches_read_as (h34 : 34 ≤ disk_sectors) (hbig : disk_sectors < 2 ^ 53) :
    ∃ entries, ReadAs st disk_sectors out.patches entries := by
  have hinside := gpt_fields_inside hs hn
  have hfound : ∀ {es : List XmlElement} {qs : List Patch},
      List.Forall₂ (PatchElement st k) es qs → (∀ q ∈ qs, q.Small disk_sectors) →
      ∀ e ∈ es, ∃ q : Patch, q.Small disk_sectors ∧ PatchElement st k e q := by
    intro es qs h hsmall e he
    obtain ⟨q, hq, hR⟩ := exists_left h.flip he
    exact ⟨q, hsmall q hq, hR⟩
  apply entries_exist (k := k) (by omega)
  intro e he
  by_cases hdisk : e.getD "filename" "" = "DISK"
  · refine hfound (disk_elements hout (Nat.le_of_dvd st.sector_size_pos hs) hps hn) ?_ e
      (List.mem_filter.mpr ⟨he, by simpa using hdisk⟩)
    intro q hq
    obtain ⟨f, hf, rfl⟩ := List.mem_map.mp hq
    exact (hinside f hf).disk_small h34 hbig
  · refine hfound (files_elements hout hps) ?_ e
      (List.mem_filter.mpr ⟨he, by simpa using hdisk⟩)
    intro q hq
    obtain ⟨f, hf, rfl⟩ := List.mem_map.mp hq
    exact (hinside f hf).files_small

include hout hps in
/-- A run whose document is read patches with the entries read. -/
theorem run_patches_of_read {entries : List Entry}
    (hread : ReadAs st disk_sectors out.patches entries) (hd : 0 < disk_sectors)
    (mode : Patching) (target : String) (files : Store) :
    run_patches mode (disk_sectors * st.sector_size_in_bytes) target out.patches files
      = perform_patching mode st.sector_size_in_bytes target (entries.map
          (replace_disk_size (disk_sectors * st.sector_size_in_bytes) st.sector_size_in_bytes))
          files := by
  have hne : out.patches ≠ [] := by
    obtain ⟨p, hpatches⟩ := patches_eq hout hps
    rw [hpatches]
    simp [header_patches]
  exact run_document hd (patches_read hout hps) hne hread mode target files

include hout hps in
/-- A run whose document is not read exits at once, with the files as they were. -/
theorem run_patches_unread (hread : ¬ ∃ entries, ReadAs st disk_sectors out.patches entries)
    (hd : 0 < disk_sectors) (mode : Patching) (target : String) (files : Store) :
    run_patches mode (disk_sectors * st.sector_size_in_bytes) target out.patches files
      = .exit files := by
  have hpos : disk_sectors * st.sector_size_in_bytes ≠ 0 :=
    (Nat.mul_pos hd st.sector_size_pos).ne'
  rw [run_patches, if_neg hpos]
  cases hparse : parse_xml (disk_sectors * st.sector_size_in_bytes) out.patches ⟨512, [], []⟩ with
  | none => rfl
  | some arrays =>
    obtain ⟨entries, hentries, -⟩ := (parse_xml_patches (patches_read hout hps) _ _).mp hparse
    exact absurd ⟨entries, hentries⟩ hread

include hout hs hps hn

/-- The entries for the image files stand for the patches of the program. -/
theorem files_entries {entries : List Entry} (hread : ReadAs st disk_sectors out.patches entries)
    (hd : 0 < disk_sectors) :
    List.Forall₂ (fun p q => ∃ what, p = Patch.entry disk_sectors k what q)
      (entries.filter fun p => decide (p.filename ≠ "DISK"))
      ((gpt_fields st ps.length).map (GptField.files_patch k)) := by
  apply entries_of_elements hd (filter_read hread (· ≠ "DISK")) (files_elements hout hps)
  intro q hq
  obtain ⟨f, hf, rfl⟩ := List.mem_map.mp hq
  exact (gpt_fields_inside hs hn f hf).files_small

/-- The entries for the disk stand for the twins of these patches. -/
theorem disk_entries {entries : List Entry} (hread : ReadAs st disk_sectors out.patches entries)
    (h67 : 67 ≤ disk_sectors) (hbig : disk_sectors < 2 ^ 53) :
    List.Forall₂ (fun p q => ∃ what, p = Patch.entry disk_sectors k what q)
      (entries.filter fun p => decide (p.filename = "DISK"))
      ((gpt_fields st ps.length).map GptField.disk_patch) := by
  apply entries_of_elements (by omega) (filter_read hread (· = "DISK"))
    (disk_elements hout (Nat.le_of_dvd st.sector_size_pos hs) hps hn)
  intro q hq
  obtain ⟨f, hf, rfl⟩ := List.mem_map.mp hq
  exact (gpt_fields_inside hs hn f hf).disk_small (by omega) hbig

/-- **Patching the image files** runs the program on the images, and changes no other file. -/
theorem patch_files {entries : List Entry} (hread : ReadAs st disk_sectors out.patches entries)
    (h34 : 34 ≤ disk_sectors)
    (hmax : ∀ f ∈ gpt_fields st ps.length, f.sector ≤ max_sectors st.sector_size_in_bytes)
    (target : String) {files : Store} {fs : GptImage → List UInt8}
    (hfiles : ∀ t, files (GptImage.name k t) = some (fs t))
    (hsize : ∀ t, (fs t).length = t.size st.sector_size_in_bytes) :
    ∃ files', run_patches .files (disk_sectors * st.sector_size_in_bytes) target out.patches files
        = .done files' ∧
      (∀ t, files' (GptImage.name k t) = some (runTagged crc32 (gpt_ops st ps.length fun k =>
        (Sector.back k).actual disk_sectors (max_sectors st.sector_size_in_bytes)) fs t)) ∧
      ∀ n, (∀ t, n ≠ GptImage.name k t) → files' n = files n := by
  have hd : 0 < disk_sectors := by omega
  have hinside := gpt_fields_inside hs hn
  rw [run_patches_of_read hout hps hread hd]
  have hkept := files_entries hout hs hps hn hread hd
  have hperforms := performs_of_entries _ _ _ hkept
    (fun f hf => (hinside f hf).files h34 (hmax f hf) k)
  refine perform_patching_files (name_injective k) ?_ hfiles hsize
  rw [filter_replace _ _ _ (· ≠ "DISK"), gpt_ops, List.forall₂_map_right_iff]
  exact hperforms

/-- Patching the disk runs the updates of the patches for it, wherever their
sectors end up. -/
theorem patch_disk_ops {entries : List Entry}
    (hread : ReadAs st disk_sectors out.patches entries) (h67 : 67 ≤ disk_sectors)
    (hbig : disk_sectors < 2 ^ 53) (hmax : 33 ≤ max_sectors st.sector_size_in_bytes)
    {target : String} {files : Store} {d : List UInt8} (hd : files target = some d)
    (hlen : d.length = disk_sectors * st.sector_size_in_bytes) :
    run_patches .disk (disk_sectors * st.sector_size_in_bytes) target out.patches files
      = .done (Function.update files target (some (runOps crc32 ((gpt_fields st ps.length).map
          fun f => f.disk_patch.op disk_sectors st.sector_size_in_bytes) d))) := by
  have hpos : 0 < disk_sectors := by omega
  have hinside := gpt_fields_inside hs hn
  rw [run_patches_of_read hout hps hread hpos]
  have hkept := disk_entries hout hs hps hn hread h67 hbig
  have hperforms := performs_of_entries _
    (fun f => f.disk_patch.op disk_sectors st.sector_size_in_bytes) _ hkept
    (fun f hf => ⟨(hinside f hf).disk_fits h67 hmax, rfl⟩)
  refine perform_patching_disk ?_ hd
  rw [filter_replace _ _ _ (· = "DISK"), List.forall₂_map_right_iff, hlen]
  exact hperforms.imp fun p f h => h.2

/-- **Patching the disk** runs the program where the images lie, on a disk of up to
two sectors above the maximum. -/
theorem patch_disk {entries : List Entry} (hread : ReadAs st disk_sectors out.patches entries)
    (h67 : 67 ≤ disk_sectors) (hbig : disk_sectors < 2 ^ 53)
    (hmax : disk_sectors ≤ max_sectors st.sector_size_in_bytes + 2)
    {target : String} {files : Store} {d : List UInt8} (hd : files target = some d)
    (hlen : d.length = disk_sectors * st.sector_size_in_bytes) :
    run_patches .disk (disk_sectors * st.sector_size_in_bytes) target out.patches files
      = .done (Function.update files target (some (runPlaced crc32
          (GptImage.base disk_sectors st.sector_size_in_bytes)
          (gpt_ops st ps.length fun k => (disk_sectors : ℤ) - k) d))) := by
  rw [patch_disk_ops hout hs hps hn hread h67 hbig (by omega) hd hlen]
  have hops : (gpt_fields st ps.length).map
      (fun f => f.disk_patch.op disk_sectors st.sector_size_in_bytes)
      = (gpt_ops st ps.length fun k => (disk_sectors : ℤ) - k).map
        fun op => op.2.shift (op.1.base disk_sectors st.sector_size_in_bytes) := by
    rw [gpt_ops, List.map_map]
    exact List.map_congr_left fun f hf => (gpt_fields_inside hs hn f hf).disk_op h67 hmax
  rw [hops, runOps, runPlaced, List.foldl_map]

end Runs

end AndroidTools.Pipeline
