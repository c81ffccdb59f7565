/-
Patching before writing and writing before patching.

The two images lie on a disk at sector 0 and at sector N-33 (`lay_images`).
Patching them there with the patches for the disk is the same as patching the
files and laying them afterwards, because both lists of patches are one program
and the two places are disjoint. `runPlaced_lay_images` says what the disk holds
after the pass, `patch_then_write_eq_write_then_patch` compares the two orders.
Three sectors above 64TB the sector of the backup header is mirrored on the disk,
where it is an address, but not in the file, where it is only a number.
-/
import AndroidTools.Pipeline.ValidGpt

set_option autoImplicit false

namespace AndroidTools.Pipeline

open AndroidTools.Bytes AndroidTools.Crc AndroidTools.FieldPatch AndroidTools.Ptool
  AndroidTools.Msp

/-! ## Images on a disk

The disk with the images written to it, as a list of bytes, and the converse: a disk that
has the images in their places is one on which they were laid.
-/

/-- `gpt_main` written at sector 0 and `gpt_backup` at sector N-33. -/
def lay_images (disk_sectors sector_size : ℕ) (images : GptImage → List UInt8)
    (d : List UInt8) : List UInt8 :=
  overwrite (overwrite d (GptImage.main.base disk_sectors sector_size) (images .main))
    (GptImage.backup.base disk_sectors sector_size) (images .backup)

section Laid

variable {disk_sectors s : ℕ} {images : GptImage → List UInt8} {d : List UInt8}
  (h67 : 67 ≤ disk_sectors) (hd : d.length = disk_sectors * s)
  (hlen : ∀ t, (images t).length = t.size s)

include h67

/-- The main image ends before the backup image starts, or where it starts. -/
theorem main_end_le : 34 * s ≤ (disk_sectors - 33) * s :=
  Nat.mul_le_mul_right _ (by omega)

theorem disjoint_places : DisjointPlaces (GptImage.base disk_sectors s) (GptImage.size s) := by
  have hmain := main_end_le (s := s) h67
  intro a b hab
  cases a with
  | main =>
    cases b with
    | main => exact absurd rfl hab
    | backup =>
      refine Or.inl ?_
      rw [GptImage.base, GptImage.base, GptImage.size, GptImage.sectors]
      omega
  | backup =>
    cases b with
    | main =>
      refine Or.inr ?_
      rw [GptImage.base, GptImage.base, GptImage.size, GptImage.sectors]
      omega
    | backup => exact absurd rfl hab

include hd hlen

/-- A disk with the images on it has them at their places, and every other byte as it was. -/
theorem lay_images_spec : (lay_images disk_sectors s images d).length = d.length ∧
    (∀ t : GptImage, slice (lay_images disk_sectors s images d) (t.base disk_sectors s) (t.size s)
      = images t) ∧
    ∀ i, 34 * s ≤ i → i < (disk_sectors - 33) * s ∨ disk_sectors * s ≤ i →
      (lay_images disk_sectors s images d)[i]? = d[i]? := by
  have hmain := base_add_size_le s h67 .main
  have hbackup := base_add_size_le s h67 .backup
  have hapart := main_end_le (s := s) h67
  have hm := hlen .main
  have hb := hlen .backup
  -- the two images fill the first 34 sectors and the last 33
  have hmsize : GptImage.main.size s = 34 * s := rfl
  have hbsize : GptImage.backup.size s = 33 * s := rfl
  have hmbase : GptImage.main.base disk_sectors s = 0 := rfl
  have hbbase : GptImage.backup.base disk_sectors s = (disk_sectors - 33) * s := rfl
  have hend : (disk_sectors - 33) * s + 33 * s = disk_sectors * s := by
    rw [← Nat.add_mul]
    congr 1
    omega
  have hin : GptImage.main.base disk_sectors s + (images .main).length ≤ d.length := by omega
  have hlen₁ := length_overwrite_of_le hin
  have hin' : GptImage.backup.base disk_sectors s + (images .backup).length
      ≤ (overwrite d (GptImage.main.base disk_sectors s) (images .main)).length := by omega
  refine ⟨by rw [lay_images, length_overwrite_of_le hin', hlen₁], fun t => ?_, fun i hlo hi => ?_⟩
  · cases t with
    | main =>
      rw [lay_images, slice_overwrite_of_disjoint hin' (by omega), ← hm]
      exact slice_overwrite_self hin
    | backup =>
      rw [lay_images, ← hb]
      exact slice_overwrite_self hin'
  · rw [lay_images, getElem?_overwrite hin', if_neg (by omega), getElem?_overwrite hin,
      if_neg (by omega)]

/-- A disk with the images in their places that is otherwise `d`. -/
theorem eq_lay_images {d' : List UInt8} (hlen' : d'.length = d.length)
    (himages : ∀ t : GptImage, slice d' (t.base disk_sectors s) (t.size s) = images t)
    (hother : ∀ i, 34 * s ≤ i → i < (disk_sectors - 33) * s → d'[i]? = d[i]?) :
    d' = lay_images disk_sectors s images d := by
  obtain ⟨hllen, hlimages, hlother⟩ := lay_images_spec h67 hd hlen
  have hend : (disk_sectors - 33) * s + 33 * s = disk_sectors * s := by
    rw [← Nat.add_mul]
    congr 1
    omega
  -- inside an image both read the image
  have hinside : ∀ (t : GptImage) i, t.base disk_sectors s ≤ i →
      i < t.base disk_sectors s + t.size s →
      d'[i]? = (lay_images disk_sectors s images d)[i]? := by
    intro t i hlo hhi
    have hread : ∀ e : List UInt8, slice e (t.base disk_sectors s) (t.size s) = images t →
        e[i]? = (images t)[i - t.base disk_sectors s]? := by
      intro e he
      rw [← he, getElem?_slice, if_pos (by omega), Nat.add_sub_cancel' hlo]
    rw [hread d' (himages t), hread _ (hlimages t)]
  apply List.ext_getElem?
  intro i
  rcases Nat.lt_or_ge i (34 * s) with hmain | hmain
  · exact hinside .main i (Nat.zero_le i) (by rw [GptImage.base, Nat.zero_add]; exact hmain)
  rcases Nat.lt_or_ge i ((disk_sectors - 33) * s) with hmid | hbackup
  · rw [hother i hmain hmid, hlother i hmain (Or.inl hmid)]
  rcases Nat.lt_or_ge i (disk_sectors * s) with hin | hout
  · refine hinside .backup i hbackup ?_
    rw [GptImage.base, GptImage.size, GptImage.sectors, hend]
    exact hin
  · rw [List.getElem?_eq_none (by omega), List.getElem?_eq_none (by omega)]

end Laid

/-! ## Patching the disk

Patching at the places is the library's simulation, since the places of the two images do
not overlap on a disk of 67 sectors or more.
-/

/-- Patching the laid images on a disk lays the patched images, and nothing else
changes. -/
theorem runPlaced_lay_images {st : Settings} {n disk_sectors : ℕ} {last : ℕ → ℤ}
    {images : GptImage → List UInt8} {d : List UInt8} (hs : 512 ∣ st.sector_size_in_bytes)
    (hn : n ≤ 128) (h67 : 67 ≤ disk_sectors)
    (hd : d.length = disk_sectors * st.sector_size_in_bytes)
    (hlen : ∀ t, (images t).length = t.size st.sector_size_in_bytes) :
    runPlaced crc32 (GptImage.base disk_sectors st.sector_size_in_bytes) (gpt_ops st n last)
        (lay_images disk_sectors st.sector_size_in_bytes images d)
      = lay_images disk_sectors st.sector_size_in_bytes
          (fun t => patched st n last t (images t)) d := by
  obtain ⟨hllen, hlimages, hlother⟩ := lay_images_spec h67 hd hlen
  have hbounds := gpt_ops_inBounds (n := n) last hs hn
  have hplaces : ∀ t : GptImage, t.base disk_sectors st.sector_size_in_bytes
      + t.size st.sector_size_in_bytes
        ≤ (lay_images disk_sectors st.sector_size_in_bytes images d).length := by
    -- in its place each image is patched as the file is, and nothing else is touched
    intro t
    rw [hllen, hd]
    exact base_add_size_le _ h67 t
  obtain ⟨hrlen, hrother⟩ := runPlaced_frame crc32 hbounds hplaces
  refine eq_lay_images h67 hd ?_ (hrlen.trans hllen) ?_ ?_
  · exact fun t => (length_patched _ hs hn (hlen t)).trans (hlen t)
  · intro t
    rw [runPlaced_sim crc32 (disjoint_places h67) hbounds hplaces hlimages, runTagged_eq_patched]
  · intro i hlo hhi
    rw [hrother i fun t => ?_, hlother i hlo (Or.inl hhi)]
    cases t with
    | main =>
      rw [GptImage.base, GptImage.size, GptImage.sectors, Nat.zero_add]
      exact Or.inr hlo
    | backup => exact Or.inl hhi

/-! ## Either order

The statement compares the two orders byte for byte, with whatever else the disk holds. The
last lemmas are about a disk just above the limit, for which it is false.
-/

/-- Patching the files and then writing them, and writing the files and then
patching the disk, both succeed and leave the same disk; the second changes only
the sectors of the two images. -/
def OrderIrrelevant (st : Settings) (k : ℕ) (out : GptTables) (disk_sectors : ℕ)
    (target : String) (files : Store) (d : List UInt8) : Prop :=
  let s := st.sector_size_in_bytes
  let written := lay_images disk_sectors s (GptImage.of out) d
  ∃ files' images disk',
    run_patches .files (disk_sectors * s) target out.patches files = .done files' ∧
    (∀ t : GptImage, files' (t.name k) = some (images t)) ∧
    run_patches .disk (disk_sectors * s) target out.patches
        (Function.update files target (some written))
      = .done (Function.update files target (some disk')) ∧
    disk' = lay_images disk_sectors s images d ∧
    disk'.length = written.length ∧
    ∀ i, 34 * s ≤ i → i < (disk_sectors - 33) * s → disk'[i]? = written[i]?

/-- **Patch-then-write is write-then-patch** on disks of 67 sectors and more, up to
two sectors above 64TB. -/
theorem patch_then_write_eq_write_then_patch (st : Settings) (k : ℕ) (ps : List Partition)
    (rand : ℕ → ℕ) (out : GptTables) (disk_sectors : ℕ) (target : String) (files : Store)
    (d : List UInt8) (hs : 512 ∣ st.sector_size_in_bytes) (hps : ps ≠ []) (hn : ps.length ≤ 128)
    (hout : create_gpt_partition_table st k ps rand = .ok out) (h67 : 67 ≤ disk_sectors)
    (hmax : disk_sectors ≤ max_sectors st.sector_size_in_bytes + 2)
    (hfiles : Emitted k out files)
    (hd : d.length = disk_sectors * st.sector_size_in_bytes) :
    OrderIrrelevant st k out disk_sectors target files d := by
  have h512 := Nat.le_of_dvd st.sector_size_pos hs
  have htop := max_sectors_le h512
  have hlen := length_of h512 hout
  obtain ⟨hllen, -, hlother⟩ := lay_images_spec h67 hd hlen
  -- the files
  obtain ⟨files', hrun, himages, -⟩ := files_patch_images hs hps hn hout
    (show 34 ≤ disk_sectors by omega) (by omega) (by omega) target hfiles
  -- the disk
  obtain ⟨entries, hread⟩ := patches_read_as hout hs hps hn
    (show 34 ≤ disk_sectors by omega) (by omega)
  have hdisk := patch_disk hout hs hps hn hread h67 (by omega) hmax
    (Function.update_self target
      (some (lay_images disk_sectors st.sector_size_in_bytes (GptImage.of out) d)) files)
    (by rw [hllen, hd])
  rw [Function.update_idem, runPlaced_lay_images hs hn h67 hd hlen] at hdisk
  -- the sector numbers of the two passes are the same
  have hsame : ∀ t, patched st ps.length
      (fun j => (Sector.back j).actual disk_sectors (max_sectors st.sector_size_in_bytes)) t
        (GptImage.of out t)
      = patched st ps.length (fun j => (disk_sectors : ℤ) - j) t (GptImage.of out t) :=
    fun t => patched_congr (fun j hj => actual_back hj hmax) t _
  have hplen : ∀ t, (patched st ps.length (fun j => (disk_sectors : ℤ) - j) t
      (GptImage.of out t)).length = t.size st.sector_size_in_bytes :=
    fun t => (length_patched _ hs hn (hlen t)).trans (hlen t)
  obtain ⟨hplen, -, hpother⟩ := lay_images_spec h67 hd hplen
  refine ⟨files', _, _, hrun, fun t => (himages t).trans (by rw [hsame]), hdisk, rfl,
    hplen.trans hllen.symm, fun i hlo hhi => ?_⟩
  rw [hpother i hlo (Or.inl hhi), hlother i hlo (Or.inl hhi)]

theorem patch_then_write_hundred : ∃ out,
    create_gpt_partition_table growing_settings 0 (sized_partitions [10, 0]) (fun j => j)
      = .ok out ∧
    OrderIrrelevant growing_settings 0 out 100 "disk" (emitted_files 0 out)
      (List.replicate (100 * 512) 0) := by
  obtain ⟨out, hout⟩ := growing_run [10, 0] (by decide)
  exact ⟨out, hout, patch_then_write_eq_write_then_patch growing_settings 0 _ _ out 100 "disk"
    (emitted_files 0 out) _ (by decide) (by decide) (by decide) hout (by decide) (by decide)
    (emitted_files_emitted 0 out) List.length_replicate⟩

/-- On that disk nothing is written to the field of the backup header that the file has patched.
-/
theorem mirrored_disk_apart : ∀ op ∈ (gpt_fields plain_settings 1).map
      (fun f => f.disk_patch.op (2 ^ 37 + 3) 512),
    Apart ((2 ^ 37 - 30) * 512 + (32 * 512 + 48)) 8 op.dst op.width := by
  unfold Apart
  decide

theorem mirrored_disk_run {out : GptTables}
    (hout : create_gpt_partition_table plain_settings 0 (sized_partitions [10]) (fun j => j)
      = .ok out) {files : Store} {d : List UInt8} (hd : files "disk" = some d)
    (hlen : d.length = (2 ^ 37 + 3) * 512) :
    ∃ d', run_patches .disk ((2 ^ 37 + 3) * 512) "disk" out.patches files
        = .done (Function.update files "disk" (some d')) ∧
      slice d' ((2 ^ 37 - 30) * 512 + (32 * 512 + 48)) 8
        = slice d ((2 ^ 37 - 30) * 512 + (32 * 512 + 48)) 8 := by
  obtain ⟨entries, hread⟩ := patches_read_as hout (by decide) (by decide) (by decide)
    (show 34 ≤ 2 ^ 37 + 3 by decide) (by decide)
  refine ⟨_, patch_disk_ops hout (by decide) (by decide) (by decide) hread (by decide) (by decide)
    (by decide) hd hlen, slice_runOps_of_disjoint crc32 ?_ mirrored_disk_apart⟩
  intro op hop
  obtain ⟨f, hf, rfl⟩ := List.mem_map.mp hop
  have hinside : f.Inside 512 := gpt_fields_inside (by decide) (by decide) f hf
  rw [hlen]
  exact (hinside.disk_fits (by decide) (by decide)).inBounds (by decide)

/-- Three sectors above 64TB the order matters: patched on the disk, the header in
the last sector keeps the zeros it was written with. -/
theorem order_matters_mirrored : ∃ out,
    create_gpt_partition_table plain_settings 0 (sized_partitions [10]) (fun j => j) = .ok out ∧
    ¬ OrderIrrelevant plain_settings 0 out (2 ^ 37 + 3) "disk" (emitted_files 0 out)
      (List.replicate ((2 ^ 37 + 3) * 512) 0) := by
  obtain ⟨out, hout⟩ := plain_run [10] (by decide)
  refine ⟨out, hout, ?_⟩
  have hsdvd : 512 ∣ plain_settings.sector_size_in_bytes := by decide
  have h67 : 67 ≤ 2 ^ 37 + 3 := by decide
  have himg := gpt_images (by decide) hout
  have hlen := length_of (by decide) hout
  have hd : (List.replicate ((2 ^ 37 + 3) * 512) (0 : UInt8)).length
      = (2 ^ 37 + 3) * plain_settings.sector_size_in_bytes := List.length_replicate
  obtain ⟨hwlen, hwimages, -⟩ := lay_images_spec h67 hd hlen
  rintro ⟨files', images, disk', hfiles, himages, hdisk, hlaid, -, -⟩
  -- in the file, the backup header has its `LastUsableLBA`
  obtain ⟨files'', hrun, hpatched, -⟩ := files_patch_images hsdvd (by decide) (by decide) hout
    (show 34 ≤ 2 ^ 37 + 3 by decide) (by decide) (by decide) "disk" (emitted_files_emitted 0 out)
  obtain rfl : files' = files'' := Run.done.inj (hfiles.symm.trans hrun)
  have hpatched' := fun t => Option.some.inj ((himages t).symm.trans (hpatched t))
  have hmem : (⟨.backup, 32, 48, 8, .from_end 34⟩ : GptField) ∈ GptImage.backup.header_numbers := by
    decide
  have hread := patched_header_number (n := 1)
    (fun j => (Sector.back j).actual (2 ^ 37 + 3) (max_sectors 512)) hsdvd (by decide)
    (hlen .backup) 32 48 hmem (v := 2 ^ 37 - 31) (by decide) (by decide)
  have hilen : ∀ t, (images t).length = t.size plain_settings.sector_size_in_bytes := by
    intro t
    rw [hpatched' t]
    exact (length_patched _ hsdvd (by decide) (hlen t)).trans (hlen t)
  obtain ⟨-, hplaced, -⟩ := lay_images_spec h67 hd hilen
  have hlast : slice disk' ((2 ^ 37 - 30) * 512 + (32 * 512 + 48)) 8
      = slice (images .backup) (32 * 512 + 48) 8 := by
    rw [hlaid, ← hplaced .backup]
    exact (slice_slice _ _ _ _ _ (by decide)).symm
  -- on the disk, it is still 0
  obtain ⟨d', hrun', hkept⟩ := mirrored_disk_run hout (Function.update_self "disk"
    (some (lay_images (2 ^ 37 + 3) plain_settings.sector_size_in_bytes (GptImage.of out)
      (List.replicate ((2 ^ 37 + 3) * 512) 0))) (emitted_files 0 out)) (by rw [hwlen]; exact hd)
  have hsame := congrFun (Run.done.inj (hdisk.symm.trans hrun')) "disk"
  rw [Function.update_self, Function.update_self] at hsame
  have hzero : slice d' ((2 ^ 37 - 30) * 512 + (32 * 512 + 48)) 8 = leBytes 8 0 := by
    have hheader : slice (header_fields (num_partitions plain_settings 1)) 48 8 = leBytes 8 0 := by
      decide
    have hbackup : slice (GptImage.of out .backup) (32 * 512 + 48) 8 = leBytes 8 0 :=
      (himg.backup_header 48 8 (by decide) (by decide) (by decide)).trans
        ((himg.header 48 8 (by decide) (by decide)).trans hheader)
    rw [hkept, ← hbackup, ← hwimages .backup]
    exact (slice_slice _ _ _ _ _ (by decide)).symm
  rw [← Option.some.inj hsame, hlast, hpatched' .backup] at hzero
  rw [number_at] at hread
  exact absurd (hread.symm.trans (congrArg leValue hzero)) (by decide)

end AndroidTools.Pipeline
