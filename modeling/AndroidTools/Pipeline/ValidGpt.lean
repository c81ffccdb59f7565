/-
The images after a pass of `patch0.xml` are a valid GPT.

`ValidGpt` is what a reader of the two images checks: the sector numbers in the headers, the
equality of the two arrays, and the CRCs, each over bytes of the same image. It is stated on
bytes, with the offsets that a reader uses, and does not mention how the images came about.

`files_patch_valid_gpt` is the pipeline: what `ptool.py` emits and `msp.py` replays in FILES mode
ends in a valid GPT, for sectors of 512 bytes and disks up to two sectors above 64TB. On a larger
disk `msp.py` takes the number of the last sector for a gigantic number and mirrors it. The proof
reads each field off the sealed program of its image, and the fields that no patch touches off the
images of the call.
-/
import AndroidTools.Pipeline.ImageProgram

set_option autoImplicit false

namespace AndroidTools.Pipeline

open AndroidTools.Bytes AndroidTools.Crc AndroidTools.FieldPatch AndroidTools.Ptool
  AndroidTools.Msp

/-! ## What a reader checks

A reader knows offsets and no programs. He checks the numbers in the two headers, that the
two arrays are equal, and the CRCs, each over bytes of the same image.
-/

/-- The little-endian number at a byte of an image. -/
def number_at (img : List UInt8) (pos width : ℕ) : ℕ := leValue (slice img pos width)

/-- The 92 bytes of the header at `pos`, with zeros for its CRC. -/
def header_without_crc (img : List UInt8) (pos : ℕ) : List UInt8 :=
  slice (overwrite img (pos + 16) [0, 0, 0, 0]) pos 92

/-- The images of `n` partitions on a disk of `disk_sectors`, the last one growing;
`s` is the sector size. The primary header is at sector 1 of its image and the
array at sector 2, the backup header at sector 32 and the array at sector 0. -/
structure ValidGpt (s n disk_sectors : ℕ) (main backup : List UInt8) : Prop where
  main_my_lba : number_at main (s + 24) 8 = 1
  main_alternate_lba : number_at main (s + 32) 8 = disk_sectors - 1
  main_last_usable_lba : number_at main (s + 48) 8 = disk_sectors - 34
  main_entry_lba : number_at main (s + 72) 8 = 2
  backup_my_lba : number_at backup (32 * s + 24) 8 = disk_sectors - 1
  backup_alternate_lba : number_at backup (32 * s + 32) 8 = 1
  backup_last_usable_lba : number_at backup (32 * s + 48) 8 = disk_sectors - 34
  backup_entry_lba : number_at backup (32 * s + 72) 8 = disk_sectors - 33
  arrays_equal : slice main (2 * s) (32 * s) = slice backup 0 (32 * s)
  last_lba : number_at main (2 * s + (n - 1) * 128 + 40) 8 = disk_sectors - 34
  main_array_crc : number_at main (s + 88) 4
    = crc32 (slice main (2 * s) (number_at main (s + 80) 4 * 128))
  backup_array_crc : number_at backup (32 * s + 88) 4
    = crc32 (slice backup 0 (number_at backup (32 * s + 80) 4 * 128))
  main_header_crc : number_at main (s + 16) 4 = crc32 (header_without_crc main s)
  backup_header_crc : number_at backup (32 * s + 16) 4
    = crc32 (header_without_crc backup (32 * s))

/-! ## The fields of the patched images

Each field is read off the sealed program of its image: a number that is patched reads back,
a checksum is right for the bytes that it is of, and what no patch touches is as it was.
-/

section Patched

variable {st : Settings} {n : ℕ} (last : ℕ → ℤ) {t : GptImage} {img : List UInt8}
  (hs : 512 ∣ st.sector_size_in_bytes) (hn : n ≤ 128)
  (hlen : img.length = t.size st.sector_size_in_bytes)

include hs hn hlen

/-- A number of the header that depends on the disk size reads back. -/
theorem patched_header_number (sector offset : ℕ) {k v : ℕ}
    (hf : ⟨t, sector, offset, 8, .from_end k⟩ ∈ t.header_numbers) (hlast : last k = v)
    (hv : v < 256 ^ 8) :
    number_at (patched st n last t img) (sector * st.sector_size_in_bytes + offset) 8 = v := by
  have hread := slice_patched_number last hs hn hlen
    (List.mem_append_right _ hf : (⟨t, sector, offset, 8, .from_end k⟩ : GptField) ∈ t.numbers st n)
    rfl
  dsimp only at hread
  rw [number_at, hread, hlast, leValue_leBytes_natCast hv]

/-- The end of the last entry reads back, where the last partition grows. -/
theorem patched_last_lba (hgrow : st.grow_last_partition_to_fill_disk = true) {v : ℕ}
    (hlast : last 34 = v) (hv : v < 256 ^ 8) :
    number_at (patched st n last t img)
      (t.array_sector * st.sector_size_in_bytes + (40 + (n - 1) * 128)) 8 = v := by
  have hmem : t.growing_field st n ∈ t.numbers st n := by
    rw [GptImage.numbers, if_pos hgrow]
    simp
  have hread := slice_patched_number last hs hn hlen hmem rfl
  have hdst := growing_field_dst st n last t
  simp only [GptField.op] at hdst
  rw [hdst] at hread
  rw [number_at]
  exact (congrArg leValue hread).trans (by rw [hlast]; exact leValue_leBytes_natCast hv)

/-- A field of the header that no patch is for keeps its bytes. -/
theorem patched_header_kept (pos width : ℕ)
    (hpos : (pos + width ≤ 16 ∨ 20 ≤ pos) ∧ (pos + width ≤ 24 ∨ 40 ≤ pos ∨ t = .main ∧
      pos + width ≤ 32 ∨ t = .backup ∧ 32 ≤ pos) ∧ (pos + width ≤ 48 ∨ 56 ≤ pos) ∧
      (pos + width ≤ 72 ∨ 80 ≤ pos ∨ t = .main) ∧ pos + width ≤ 88) :
    slice (patched st n last t img) (t.header_sector * st.sector_size_in_bytes + pos) width
      = slice img (t.header_sector * st.sector_size_in_bytes + pos) width := by
  have h512 := Nat.le_of_dvd st.sector_size_pos hs
  -- the bytes are apart from the entry, from the numbers and from both checksums
  refine slice_patched_of_apart last hs hn hlen ?_ ?_ ?_
  · intro f hf
    unfold Apart
    rcases List.mem_append.mp hf with hf | hf
    · split_ifs at hf with hgrow
      · rw [List.mem_singleton] at hf
        subst hf
        have hdst := growing_field_dst st n last t
        simp only [GptField.op] at hdst
        rw [hdst]
        cases t <;> simp only [GptImage.growing_field, GptImage.header_sector,
          GptImage.array_sector] <;> omega
      · cases hf
    · cases t <;>
        simp only [GptImage.header_numbers, List.mem_cons, List.not_mem_nil, or_false] at hf
      · rcases hf with rfl | rfl <;> simp only [GptImage.header_sector] <;> simp at hpos <;> omega
      · rcases hf with rfl | rfl | rfl <;> simp only [GptImage.header_sector] <;>
          simp at hpos <;> omega
  · unfold Apart
    omega
  · unfold Apart
    omega

/-- The array, of which only the end of the last entry changes. -/
theorem patched_array (hgrow : st.grow_last_partition_to_fill_disk = true) :
    slice (patched st n last t img) (t.array_sector * st.sector_size_in_bytes)
        (32 * st.sector_size_in_bytes)
      = overwrite (slice img (t.array_sector * st.sector_size_in_bytes)
          (32 * st.sector_size_in_bytes)) (40 + (n - 1) * 128) (leBytes 8 (last 34)) := by
  have h512 := Nat.le_of_dvd st.sector_size_pos hs
  have hbounds := image_ops_inBounds last hs hn t
  set grow := (t.growing_field st n).op st.sector_size_in_bytes last with hgrowdef
  set rest := t.header_numbers.map (GptField.op st.sector_size_in_bytes last)
    ++ (t.seal st n).ops with hrest
  have hsplit : (t.numbers st n).map (GptField.op st.sector_size_in_bytes last)
      ++ (t.seal st n).ops = grow :: rest := by
    rw [GptImage.numbers, if_pos hgrow]
    rfl
  rw [hsplit, ← hlen] at hbounds
  have hgrowin := hbounds grow (by simp)
  have hglen := FieldOp.length_apply crc32 hgrowin
  -- the rest of the program stays in the header's sector
  have hclear : ∀ op ∈ rest, Apart (t.array_sector * st.sector_size_in_bytes)
      (32 * st.sector_size_in_bytes) op.dst op.width := by
    intro op hop
    unfold Apart
    rcases List.mem_append.mp hop with hop | hop
    · obtain ⟨f, hf, rfl⟩ := List.mem_map.mp hop
      cases t <;>
        simp only [GptImage.header_numbers, List.mem_cons, List.not_mem_nil, or_false] at hf
      · rcases hf with rfl | rfl <;> simp only [GptField.op, GptImage.array_sector] <;> omega
      · rcases hf with rfl | rfl | rfl <;> simp only [GptField.op, GptImage.array_sector] <;> omega
    · simp only [Seal.ops, GptImage.seal, List.mem_cons, List.not_mem_nil, or_false] at hop
      rcases hop with rfl | rfl | rfl <;> cases t <;>
        simp only [GptImage.header_sector, GptImage.array_sector] <;> omega
  have hroom : t.array_sector * st.sector_size_in_bytes + 32 * st.sector_size_in_bytes
      ≤ img.length := by
    rw [hlen, GptImage.size, ← Nat.add_mul]
    refine Nat.mul_le_mul_right _ ?_
    cases t <;> decide
  rw [patched, hsplit, runOps_cons, slice_runOps_of_disjoint crc32
    (by rw [hglen]; exact fun o ho => hbounds o (by simp [ho])) hclear, FieldOp.apply,
    growing_field_dst]
  refine slice_overwrite_inside ?_ hroom
  rw [length_leBytes]
  have hwidth : grow.width = 8 := rfl
  omega

/-- The field for the array CRC holds that of the patched array. -/
theorem patched_array_crc {np : ℕ} (hnp : np = num_partitions st n) :
    number_at (patched st n last t img) (t.header_sector * st.sector_size_in_bytes + 88) 4
      = crc32 (slice (patched st n last t img) (t.array_sector * st.sector_size_in_bytes)
          (np * 128)) := by
  rw [number_at, slice_patched_array_crc last hs hn hlen, hnp, size_of_partition_array]
  exact leValue_leBytes_natCast (lt_of_lt_of_eq (crc32_lt _) (by norm_num))

/-- The field for the header CRC holds that of the patched header. -/
theorem patched_header_crc :
    number_at (patched st n last t img) (t.header_sector * st.sector_size_in_bytes + 16) 4
      = crc32 (header_without_crc (patched st n last t img)
          (t.header_sector * st.sector_size_in_bytes)) := by
  have hzero : leBytes 4 0 = [0, 0, 0, 0] := by decide
  rw [number_at, slice_patched_header_crc last hs hn hlen, header_without_crc, ← hzero]
  exact leValue_leBytes_natCast (lt_of_lt_of_eq (crc32_lt _) (by norm_num))

end Patched

/-! ## The images of a call

The fields that no patch is for come from the images of the call, so they have to be looked
up in what `ptool.py` writes.
-/

theorem slice_header_fields_my_lba (np : ℕ) : slice (header_fields np) 24 8 = leBytes 8 1 := by
  simp only [slice, header_fields, gpt_signature, leBytes]
  rfl

theorem slice_header_fields_entry_lba (np : ℕ) : slice (header_fields np) 72 8 = leBytes 8 2 := by
  simp only [slice, header_fields, gpt_signature, leBytes]
  rfl

theorem slice_header_fields_count (np : ℕ) : slice (header_fields np) 80 4 = leBytes 4 np := by
  simp only [slice, header_fields, gpt_signature, leBytes]
  rfl

/-- **A pass over the images of a call leaves a valid GPT** when the numbers it
writes are those of the disk. -/
theorem patched_valid {st : Settings} {k : ℕ} {ps : List Partition} {rand : ℕ → ℕ}
    {out : GptTables} {disk_sectors : ℕ} {last : ℕ → ℤ}
    (hs : 512 ∣ st.sector_size_in_bytes) (hn : ps.length ≤ 128)
    (hgrow : st.grow_last_partition_to_fill_disk = true)
    (hout : create_gpt_partition_table st k ps rand = .ok out)
    (hbig : disk_sectors < 2 ^ 53)
    (hlast : ∀ j, j = 1 ∨ j = 33 ∨ j = 34 → last j = (disk_sectors - j : ℕ)) :
    ValidGpt st.sector_size_in_bytes ps.length disk_sectors
      (patched st ps.length last .main out.primary_gpt)
      (patched st ps.length last .backup out.backup_gpt) := by
  have h512 := Nat.le_of_dvd st.sector_size_pos hs
  have himg := gpt_images h512 hout
  have hm : out.primary_gpt.length = GptImage.main.size st.sector_size_in_bytes :=
    himg.primary_length
  have hb : out.backup_gpt.length = GptImage.backup.size st.sector_size_in_bytes :=
    himg.backup_length
  have h1 := hlast 1 (by simp)
  have h33 := hlast 33 (by simp)
  have h34 := hlast 34 (by simp)
  have hcount : num_partitions st ps.length < 256 ^ 4 :=
    lt_of_le_of_lt (num_partitions_le st hn) (by norm_num)
  -- the number of partitions each header gives
  have hmain_count : number_at (patched st ps.length last .main out.primary_gpt)
      (st.sector_size_in_bytes + 80) 4 = num_partitions st ps.length := by
    have hkept := patched_header_kept last hs hn hm 80 4 (by simp)
    rw [GptImage.header_sector, Nat.one_mul] at hkept
    rw [number_at, hkept, himg.header 80 4 (by omega) (by omega), slice_header_fields_count,
      leValue_leBytes_natCast hcount]
  have hbackup_count : number_at (patched st ps.length last .backup out.backup_gpt)
      (32 * st.sector_size_in_bytes + 80) 4 = num_partitions st ps.length := by
    have hkept := patched_header_kept last hs hn hb 80 4 (by simp)
    rw [GptImage.header_sector] at hkept
    rw [number_at, hkept, himg.backup_header 80 4 (by omega) (by omega) (by omega),
      himg.header 80 4 (by omega) (by omega), slice_header_fields_count,
      leValue_leBytes_natCast hcount]
  refine ⟨?_, ?_, ?_, ?_, ?_, ?_, ?_, ?_, ?_, ?_, ?_, ?_, ?_, ?_⟩
  · have hkept := patched_header_kept last hs hn hm 24 8 (by simp)
    rw [GptImage.header_sector, Nat.one_mul] at hkept
    rw [number_at, hkept, himg.header 24 8 (by omega) (by omega), slice_header_fields_my_lba]
    decide
  · have hread := patched_header_number last hs hn hm 1 32
      (by simp [GptImage.header_numbers]) h1 (by omega)
    rwa [Nat.one_mul] at hread
  · have hread := patched_header_number last hs hn hm 1 48
      (by simp [GptImage.header_numbers]) h34 (by omega)
    rwa [Nat.one_mul] at hread
  · have hkept := patched_header_kept last hs hn hm 72 8 (by simp)
    rw [GptImage.header_sector, Nat.one_mul] at hkept
    rw [number_at, hkept, himg.header 72 8 (by omega) (by omega), slice_header_fields_entry_lba]
    decide
  · exact patched_header_number last hs hn hb _ _ (by simp [GptImage.header_numbers]) h1 (by omega)
  · have hkept := patched_header_kept last hs hn hb 32 8 (by simp)
    rw [GptImage.header_sector] at hkept
    rw [number_at, hkept, himg.backup_lba]
    decide
  · exact patched_header_number last hs hn hb _ _ (by simp [GptImage.header_numbers]) h34 (by omega)
  · exact patched_header_number last hs hn hb _ _ (by simp [GptImage.header_numbers]) h33 (by omega)
  · have hmain := patched_array last hs hn hm hgrow
    have hbackup := patched_array last hs hn hb hgrow
    simp only [GptImage.array_sector, Nat.zero_mul] at hmain hbackup
    rw [hmain, hbackup, himg.backup_array]
  · have hread := patched_last_lba last hs hn hm hgrow h34 (by omega)
    rw [GptImage.array_sector] at hread
    have hpos : 2 * st.sector_size_in_bytes + (ps.length - 1) * 128 + 40
        = 2 * st.sector_size_in_bytes + (40 + (ps.length - 1) * 128) := by omega
    rw [hpos]
    exact hread
  · have hcrc := patched_array_crc last hs hn hm hmain_count
    rwa [GptImage.header_sector, GptImage.array_sector, Nat.one_mul] at hcrc
  · have hcrc := patched_array_crc last hs hn hb hbackup_count
    rwa [GptImage.header_sector, GptImage.array_sector, Nat.zero_mul] at hcrc
  · have hcrc := patched_header_crc last hs hn hm
    rwa [GptImage.header_sector, Nat.one_mul] at hcrc
  · exact patched_header_crc last hs hn hb

/-! ## The pipeline

The run on the files, put in front of what is known of a patched image. Here the numbers
become those of a disk of a given size.
-/

/-- The image files of a call, where `msp.py` finds them. -/
def Emitted (k : ℕ) (out : GptTables) (files : Store) : Prop :=
  ∀ t : GptImage, files (t.name k) = some (GptImage.of out t)

theorem length_of {st : Settings} {k : ℕ} {ps : List Partition} {rand : ℕ → ℕ} {out : GptTables}
    (hs : 512 ≤ st.sector_size_in_bytes)
    (hout : create_gpt_partition_table st k ps rand = .ok out) (t : GptImage) :
    (GptImage.of out t).length = t.size st.sector_size_in_bytes := by
  have himg := gpt_images hs hout
  cases t with
  | main => exact himg.primary_length
  | backup => exact himg.backup_length

/-- What a FILES pass over the images of a call leaves, sector numbers mirrored or
not. -/
theorem files_patch_images {st : Settings} {k : ℕ} {ps : List Partition} {rand : ℕ → ℕ}
    {out : GptTables} (hs : 512 ∣ st.sector_size_in_bytes) (hps : ps ≠ [])
    (hn : ps.length ≤ 128) (hout : create_gpt_partition_table st k ps rand = .ok out)
    {disk_sectors : ℕ} (h34 : 34 ≤ disk_sectors) (hbig : disk_sectors < 2 ^ 53)
    (hmax : 33 ≤ max_sectors st.sector_size_in_bytes) (target : String) {files : Store}
    (hfiles : Emitted k out files) :
    ∃ files', run_patches .files (disk_sectors * st.sector_size_in_bytes) target out.patches files
        = .done files' ∧
      (∀ t : GptImage, files' (t.name k) = some (patched st ps.length
        (fun j => (Sector.back j).actual disk_sectors (max_sectors st.sector_size_in_bytes)) t
        (GptImage.of out t))) ∧
      ∀ n, (∀ t : GptImage, n ≠ t.name k) → files' n = files n := by
  obtain ⟨entries, hread⟩ := patches_read_as hout hs hps hn h34 hbig
  obtain ⟨files', hrun, himages, hother⟩ := patch_files hout hs hps hn hread h34 (fun f hf => by
    have hsector := (gpt_fields_inside hs hn f hf).sector
    have hsectors : f.image.sectors ≤ 34 := by cases f.image <;> decide
    omega) target hfiles (length_of (Nat.le_of_dvd st.sector_size_pos hs) hout)
  refine ⟨files', hrun, fun t => ?_, hother⟩
  rw [himages, runTagged_eq_patched]

/-- **ptool, then patch0.xml through msp, gives a valid GPT**: 512-byte sectors, a
last partition that grows, up to 128 partitions, and a disk of up to two sectors
more than 64TB. -/
theorem files_patch_valid_gpt (st : Settings) (k : ℕ) (ps : List Partition) (rand : ℕ → ℕ)
    (out : GptTables) (disk_sectors : ℕ) (target : String) (files : Store)
    (hs : st.sector_size_in_bytes = 512) (hgrow : st.grow_last_partition_to_fill_disk = true)
    (hps : ps ≠ []) (hn : ps.length ≤ 128)
    (hout : create_gpt_partition_table st k ps rand = .ok out)
    (h34 : 34 ≤ disk_sectors) (hmax : disk_sectors ≤ 2 ^ 37 + 2)
    (hfiles : Emitted k out files) :
    ∃ files' main backup,
      run_patches .files (disk_sectors * st.sector_size_in_bytes) target out.patches files
        = .done files' ∧
      files' (gpt_main k) = some main ∧ files' (gpt_backup k) = some backup ∧
      ValidGpt st.sector_size_in_bytes ps.length disk_sectors main backup := by
  have hdvd : 512 ∣ st.sector_size_in_bytes := by rw [hs]
  have hsectors : max_sectors st.sector_size_in_bytes = 2 ^ 37 := by
    rw [hs]
    decide
  obtain ⟨files', hrun, himages, -⟩ := files_patch_images hdvd hps hn hout h34 (by omega)
    (by rw [hsectors]; decide) target hfiles
  refine ⟨files', _, _, hrun, himages .main, himages .backup, ?_⟩
  refine patched_valid hdvd hn hgrow hout (by omega) fun j hj => ?_
  rw [actual_back (by omega) (by rw [hsectors]; exact hmax)]
  omega

/-! ## Runs on given disks

One disk of a hundred sectors, for which the theorem applies, and one three sectors above
64TB, for which the backup header names another sector.
-/

/-- A list whose last partition grows, without boundaries. -/
def growing_settings : Settings :=
  { plain_settings with grow_last_partition_to_fill_disk := true }

theorem growing_run (sizes : List ℤ) (hn : sizes.length ≤ 128) :
    ∃ out, create_gpt_partition_table growing_settings 0 (sized_partitions sizes) (fun j => j)
      = .ok out := by
  have husable := plain_settings_usable sizes
  refine create_gpt_partition_table_total (by decide) 0 _
    ⟨fun h => absurd h (by decide), fun h => absurd h (by decide), husable.performance⟩
    (by rw [sized_partitions, List.length_map]; exact hn) ?_
  intro p hp
  obtain ⟨n, -, rfl⟩ := List.mem_map.mp hp
  exact (by decide : (short_label (default_partition 0)).all (·.toNat < 256) = true)

/-- The two images of a call, and no other file. -/
def emitted_files (k : ℕ) (out : GptTables) : Store := fun n =>
  if n = gpt_main k then some out.primary_gpt
  else if n = gpt_backup k then some out.backup_gpt
  else none

theorem emitted_files_emitted (k : ℕ) (out : GptTables) : Emitted k out (emitted_files k out) := by
  intro t
  have hne : gpt_backup k ≠ gpt_main k := fun h =>
    absurd (@name_injective k .backup .main h) (by decide)
  cases t with
  | main => exact if_pos rfl
  | backup => exact (if_neg hne).trans (if_pos rfl)

theorem files_patch_valid_gpt_hundred : ∃ out files' main backup,
    create_gpt_partition_table growing_settings 0 (sized_partitions [10, 0]) (fun j => j)
      = .ok out ∧
    run_patches .files (100 * 512) "disk" out.patches (emitted_files 0 out) = .done files' ∧
    files' (gpt_main 0) = some main ∧ files' (gpt_backup 0) = some backup ∧
    ValidGpt 512 2 100 main backup := by
  obtain ⟨out, hout⟩ := growing_run [10, 0] (by decide)
  obtain ⟨files', main, backup, h⟩ := files_patch_valid_gpt growing_settings 0 _ _ out 100 "disk"
    (emitted_files 0 out) rfl rfl (by decide) (by decide) hout (by decide) (by decide)
    (emitted_files_emitted 0 out)
  exact ⟨out, files', main, backup, hout, h⟩

/-- Three sectors above 64TB, the backup header is said to be one sector lower than
it is. -/
theorem files_patch_mirrored : ∃ out,
    create_gpt_partition_table growing_settings 0 (sized_partitions [0]) (fun j => j) = .ok out ∧
    out.placed = [⟨34, 33⟩] ∧
    ¬ ∃ files' main backup,
      run_patches .files ((2 ^ 37 + 3) * 512) "disk" out.patches (emitted_files 0 out)
        = .done files' ∧
      files' (gpt_main 0) = some main ∧ files' (gpt_backup 0) = some backup ∧
      ValidGpt 512 1 (2 ^ 37 + 3) main backup := by
  obtain ⟨out, hout⟩ := growing_run [0] (by decide)
  refine ⟨out, hout, ?_, ?_⟩
  · have heval : layout_partitions growing_settings 1 0 (sized_partitions [0])
        ⟨34, 34, 0, initial_wp_hash growing_settings⟩
        = .ok (⟨34, 34, 0, initial_wp_hash growing_settings⟩, [⟨34, 33⟩]) := rfl
    exact placed_of_layout hout rfl heval
  · rintro ⟨files', main, backup, hrun, hmain, -, hvalid⟩
    obtain ⟨files'', hrun', himages, -⟩ := files_patch_images
      (by decide) (by decide) (by decide) hout (show 34 ≤ 2 ^ 37 + 3 by decide) (by decide)
      (by decide) "disk" (emitted_files_emitted 0 out)
    have hsame : files' = files'' := Run.done.inj (hrun.symm.trans hrun')
    rw [hsame] at hmain
    obtain rfl := Option.some.inj ((himages .main).symm.trans hmain)
    have hmem : (⟨.main, 1, 32, 8, .from_end 1⟩ : GptField) ∈ GptImage.main.header_numbers := by
      decide
    -- the backup header is said to be at 2^37 + 1, the disk has it one further
    have hread := patched_header_number (n := 1)
      (fun j => (Sector.back j).actual (2 ^ 37 + 3) (max_sectors 512)) (by decide) (by decide)
      (length_of (by decide) hout .main) 1 32 hmem (v := 2 ^ 37 + 1) (by decide) (by decide)
    have hwrong := hvalid.main_alternate_lba
    exact absurd (hread.symm.trans hwrong) (by decide)

end AndroidTools.Pipeline
