/-
The patches for the last logical partition, from `ptool.py` to `msp.py`.

Each of the six patches of an MBR call is a length up to the end of the disk: from the extended
partition on, or from one sector behind the last logical partition's start on, as that start was
before it was moved. The second kind goes to byte 0x1CA of the last EBR, which is where the size
of its first record is as long as an EBR takes a sector.

The way is that of the GPT patches, with other fields: the elements are read as patches in
numbers, these are field updates, and a run is a program of them, on the three image files or on
the disk. There is no CRC among them, so the order does not matter here. What is patched is stated
with the sectors as they are resolved; whether these are the right ones is the subject of the next
module.
-/
import AndroidTools.Pipeline.PatchDocument
import AndroidTools.Ptool.LastLogical

set_option autoImplicit false

namespace AndroidTools.Pipeline

open AndroidTools.Bytes AndroidTools.BootRecord AndroidTools.Crc32 AndroidTools.FieldPatch
  AndroidTools.Ptool AndroidTools.Msp

/-! ## The three images

`partition%d.bin` is `MBR%d.bin` with `EBR%d.bin` behind it, and the disk has the EBRs where
the extended partition begins. So one record is in three places.
-/

/-- The three images, `partition%d.bin`, `MBR%d.bin` and `EBR%d.bin`. -/
inductive BootImage where
  | partition
  | mbr
  | ebr
  deriving Repr, DecidableEq

/-- The file name of the image, for the physical partition `k`. -/
def BootImage.name (k : ℕ) : BootImage → String
  | partition => partition_bin k
  | mbr => mbr_bin k
  | ebr => ebr_bin k

/-- The image that a call has made; `partition%d.bin` is the other two in a row. -/
def BootImage.of (out : MbrTables) : BootImage → List UInt8
  | partition => out.mbr ++ out.ebr
  | mbr => out.mbr
  | ebr => out.ebr

theorem boot_name_injective (k : ℕ) : Function.Injective (BootImage.name k) := by
  have hfirst : ∀ t, (BootImage.name k t).toList[0]? = some (match t with
      | .partition => 'p'
      | .mbr => 'M'
      | .ebr => 'E') := by
    intro t
    cases t <;> simp [BootImage.name, partition_bin, mbr_bin, ebr_bin]
  intro a b h
  have hchar := congrArg (fun s : String => s.toList[0]?) h
  simp only [hfirst] at hchar
  cases a <;> cases b <;> simp_all

theorem boot_name_ne_disk (k : ℕ) (t : BootImage) : t.name k ≠ "DISK" := by
  intro h
  have hchar := congrArg (fun s : String => s.toList[0]?) h
  cases t <;> simp [BootImage.name, partition_bin, mbr_bin, ebr_bin] at hchar

theorem boot_bins_ne_disk (k : ℕ) :
    partition_bin k ≠ "DISK" ∧ mbr_bin k ≠ "DISK" ∧ ebr_bin k ≠ "DISK" :=
  ⟨boot_name_ne_disk k .partition, boot_name_ne_disk k .mbr, boot_name_ne_disk k .ebr⟩

/-! ## The patches in numbers

Every patch is four bytes with a length up to the end of the disk. The elements of a call
are, one by one, patches in numbers.
-/

/-- Four bytes of an image that get a length up to the end of the disk. -/
structure BootField where
  image : BootImage
  sector : ℕ
  offset : ℕ
  from_end : ℕ
  deriving Repr, DecidableEq

/-- The patch of a field, in numbers. -/
def BootField.patch (k : ℕ) (f : BootField) : Patch :=
  ⟨f.image.name k, .front f.sector, f.offset, 4, .sector (.back f.from_end)⟩

/-- What is patched in the files, for an extended partition at `b` with `m + 1` EBRs and a
last logical partition at `f` before its move. -/
def boot_fields (m b f : ℕ) : List BootField :=
  [⟨.partition, 0, 0x1FA, b⟩, ⟨.mbr, 0, 0x1FA, b⟩, ⟨.partition, m + 1, 0x1CA, f + 1⟩,
    ⟨.ebr, m, 0x1CA, f + 1⟩]

/-- The patches for the disk, where the images lie from sector 0 on. -/
def boot_disk_patches (m b f : ℕ) : List Patch :=
  [⟨"DISK", .front 0, 0x1FA, 4, .sector (.back b)⟩,
    ⟨"DISK", .front (b + m), 0x1CA, 4, .sector (.back (f + 1))⟩]

section Elements

variable {st : MbrSettings} {k m b f : ℕ}

/-- The patches of a call, as the elements that `ptool.py` emits. -/
def boot_patches (st : MbrSettings) (k m : ℕ) (b f : ℤ) : List XmlElement :=
  extended_patches st k b ++ last_logical_patches st k (m + 1) b f

theorem till_end_natCast (n : ℕ) :
    till_end (n : ℤ) = "NUM_DISK_SECTORS-" ++ toString n ++ "." := rfl

theorem boot_files_elements : List.Forall₂ (PatchElement st.toSettings k)
    ((boot_patches st k m b f).filter (·.getD "filename" "" ≠ "DISK"))
    ((boot_fields m b f).map (BootField.patch k)) := by
  obtain ⟨hpartition, hmbr, hebr⟩ := boot_bins_ne_disk k
  have hone : (f : ℤ) + 1 = ((f + 1 : ℕ) : ℤ) := by omega
  have hsector : ((m + 1 : ℕ) : ℤ) - 1 = (m : ℕ) := by omega
  simp only [boot_patches, extended_patches, last_logical_patches, List.filter_cons,
    List.filter_nil, update_patch_filename, hpartition, hmbr, hebr, ne_eq, not_false_eq_true,
    not_true_eq_false, decide_true, decide_false, if_true, Bool.false_eq_true, if_false,
    boot_fields, BootField.patch, BootImage.name, List.map_cons, List.map_nil, hone, hsector,
    List.cons_append, List.nil_append]
  refine .cons ?_ (.cons ?_ (.cons ?_ (.cons ?_ .nil)))
  · exact patch_element (front_text (by decide)) rfl (back_value (till_end_natCast b))
  · exact patch_element (front_text (by decide)) rfl (back_value (till_end_natCast b))
  · exact patch_element (front_text rfl) rfl (back_value (till_end_natCast (f + 1)))
  · exact patch_element (front_text rfl) rfl (back_value (till_end_natCast (f + 1)))

theorem boot_disk_elements : List.Forall₂ (PatchElement st.toSettings k)
    ((boot_patches st k m b f).filter (·.getD "filename" "" = "DISK"))
    (boot_disk_patches m b f) := by
  obtain ⟨hpartition, hmbr, hebr⟩ := boot_bins_ne_disk k
  have hone : (f : ℤ) + 1 = ((f + 1 : ℕ) : ℤ) := by omega
  have hsector : (b : ℤ) + ((m + 1 : ℕ) : ℤ) - 1 = ((b + m : ℕ) : ℤ) := by omega
  simp only [boot_patches, extended_patches, last_logical_patches, List.filter_cons,
    List.filter_nil, update_patch_filename, hpartition, hmbr, hebr, decide_true, decide_false,
    if_true, Bool.false_eq_true, if_false, boot_disk_patches, hone, hsector, List.cons_append,
    List.nil_append]
  refine .cons ?_ (.cons ?_ .nil)
  · exact patch_element (front_text (by decide)) rfl (back_value (till_end_natCast b))
  · exact patch_element (front_text rfl) rfl (back_value (till_end_natCast (f + 1)))

/-- Every element of them is a patch of the call's sector size. -/
theorem boot_patches_read (b f : ℤ) : ∀ e ∈ boot_patches st k m b f,
    e.tag = "patch" ∧ e.attrib ≠ [] ∧
      parse_sector_size (e.getD "SECTOR_SIZE_IN_BYTES" "512") = some st.sector_size_in_bytes := by
  intro e he
  simp only [boot_patches, extended_patches, last_logical_patches, List.cons_append,
    List.nil_append, List.mem_cons, List.not_mem_nil, or_false] at he
  casesm* _ ∨ _ <;> subst e <;> exact update_patch_reads ..

end Elements

/-! ## The runs

For sectors of 512 bytes whose numbers are not mirrored a patch is its update, and a run
writes the lengths where the document says.
-/

/-- A sector number that is not taken for a gigantic one. -/
def Near (st : MbrSettings) (disk_sectors : ℕ) (i : ℤ) : Prop :=
  real_value disk_sectors (max_sectors st.sector_size_in_bytes) i = i

theorem sector_small {disk_sectors : ℕ} {filename : String} {start : Sector} {offset : ℕ}
    {s : Sector} (h : offset < 2 ^ 53) :
    Patch.Small disk_sectors ⟨filename, start, offset, 4, .sector s⟩ :=
  ⟨h, by norm_num, trivial⟩

/-- Bytes of the images of a call with sectors of 512. -/
def BootImage.size (m : ℕ) : BootImage → ℕ
  | partition => 512 + 512 * (m + 1)
  | mbr => 512
  | ebr => 512 * (m + 1)

/-- The size that is patched in, as `msp.py` resolves it. -/
def patched_size (disk_sectors f : ℕ) : ℤ :=
  (Sector.back (f + 1)).actual disk_sectors (max_sectors 512)

section Runs

variable {st : MbrSettings} {k m b f disk_sectors : ℕ} {out : MbrTables}
  (hsector : st.sector_size_in_bytes = 512) (hpatches : out.patches = boot_patches st k m b f)
  (hb : b ≤ disk_sectors) (hf : f + 1 ≤ disk_sectors)

/-- The update of a field. -/
def BootField.op (disk_sectors : ℕ) (g : BootField) : FieldOp :=
  ⟨g.sector * 512 + g.offset, 4,
    .const ((Sector.back g.from_end).actual disk_sectors (max_sectors 512))⟩

/-- Inside a sector of 512 bytes that is not mirrored, a patch performs its update. -/
theorem sector_patch_fits {filename : String} {sector offset from_end n : ℕ}
    (hnear : (Sector.front sector).actual disk_sectors (max_sectors 512) = sector)
    (hoffset : offset + 4 ≤ 512) (hroom : (sector + 1) * 512 ≤ n) (hend : from_end ≤ disk_sectors) :
    let q : Patch := ⟨filename, .front sector, offset, 4, .sector (.back from_end)⟩
    q.Fits disk_sectors 512 n ∧ q.op disk_sectors 512 = ⟨sector * 512 + offset, 4,
      .const ((Sector.back from_end).actual disk_sectors (max_sectors 512))⟩ := by
  refine ⟨⟨?_, hoffset, ?_, actual_back_nonneg hend⟩, ?_⟩
  · dsimp only
    rw [hnear]
    exact Int.natCast_nonneg _
  · dsimp only
    rw [hnear, Int.toNat_natCast]
    exact hroom
  · simp only [Patch.op, hnear, Int.toNat_natCast]

include hsector hpatches in
/-- A run reads the document and then patches with what it has read. -/
theorem run_boot_patches (hd : 0 < disk_sectors) :
    ∃ entries, ReadAs st.toSettings disk_sectors (boot_patches st k m b f) entries ∧
      ∀ mode target files, run_patches mode (disk_sectors * 512) target out.patches files
        = perform_patching mode 512 target
          (entries.map (replace_disk_size (disk_sectors * 512) 512)) files := by
  have hfound : ∀ {es : List XmlElement} {qs : List Patch},
      List.Forall₂ (PatchElement st.toSettings k) es qs → (∀ q ∈ qs, q.Small disk_sectors) →
      ∀ e ∈ es, ∃ q : Patch, q.Small disk_sectors ∧ PatchElement st.toSettings k e q := by
    intro es qs h hsmall e he
    obtain ⟨q, hq, hR⟩ := exists_left h.flip he
    exact ⟨q, hsmall q hq, hR⟩
  obtain ⟨entries, hentries⟩ : ∃ entries, ReadAs st.toSettings disk_sectors
      (boot_patches st k m b f) entries := by
    apply entries_exist (k := k) hd
    intro e he
    -- every element is one of the disk or one of a file, with small numbers
    by_cases hdisk : e.getD "filename" "" = "DISK"
    · refine hfound boot_disk_elements ?_ e (List.mem_filter.mpr ⟨he, by simpa using hdisk⟩)
      simp only [boot_disk_patches, List.forall_mem_cons, List.not_mem_nil, false_implies,
        implies_true, and_true]
      exact ⟨sector_small (by decide), sector_small (by decide)⟩
    · refine hfound boot_files_elements ?_ e (List.mem_filter.mpr ⟨he, by simpa using hdisk⟩)
      simp only [boot_fields, List.map_cons, List.map_nil, BootField.patch, List.forall_mem_cons,
        List.not_mem_nil, false_implies, implies_true, and_true]
      exact ⟨sector_small (by decide), sector_small (by decide), sector_small (by decide),
        sector_small (by decide)⟩
  refine ⟨entries, hentries, fun mode target files => ?_⟩
  rw [hpatches, ← hsector]
  exact run_document hd (boot_patches_read b f) (by simp [boot_patches, extended_patches])
    hentries mode target files

include hsector hpatches hb hf in
/-- **Patching the image files** writes the size into the last record of two of them. -/
theorem patch_boot_files (hd : 0 < disk_sectors)
    (hnear : Near st disk_sectors ((m + 1 : ℕ) : ℤ)) (hnear' : Near st disk_sectors (m : ℤ))
    (hsize : ∀ t : BootImage, (t.of out).length = t.size m) (target : String) {files : Store}
    (hfiles : ∀ t, files (BootImage.name k t) = some (t.of out)) :
    ∃ files' v, run_patches .files (disk_sectors * 512) target out.patches files = .done files' ∧
      files' (partition_bin k) = some (overwrite (overwrite (out.mbr ++ out.ebr) 0x1FA
        (leBytes 4 v)) (512 * (m + 1) + 0x1CA) (leBytes 4 (patched_size disk_sectors f))) ∧
      files' (ebr_bin k) = some (overwrite out.ebr (512 * m + 0x1CA)
        (leBytes 4 (patched_size disk_sectors f))) := by
  obtain ⟨entries, hentries, hrun⟩ := run_boot_patches hsector hpatches hd
  rw [Near, hsector] at hnear hnear'
  have hzero := actual_front disk_sectors (Nat.zero_le (max_sectors 512))
  -- the patches for the disk are left out
  have hkept := entries_of_elements hd (filter_read hentries (· ≠ "DISK")) boot_files_elements
    (by
      simp only [boot_fields, List.map_cons, List.map_nil, BootField.patch, List.forall_mem_cons,
        List.not_mem_nil, false_implies, implies_true, and_true]
      exact ⟨sector_small (by decide), sector_small (by decide), sector_small (by decide),
        sector_small (by decide)⟩)
  have hfits : ∀ g ∈ boot_fields m b f,
      (g.patch k).Fits disk_sectors st.sector_size_in_bytes (g.image.size m) ∧
        (g.patch k).op disk_sectors st.sector_size_in_bytes = g.op disk_sectors := by
    rw [hsector]
    simp only [boot_fields, List.forall_mem_cons, List.not_mem_nil, false_implies, implies_true,
      and_true]
    refine ⟨?_, ?_, ?_, ?_⟩
    · exact sector_patch_fits hzero (by norm_num) (by simp only [BootImage.size]; omega) hb
    · exact sector_patch_fits hzero (by norm_num) (by simp only [BootImage.size]; omega) hb
    · exact sector_patch_fits hnear (by norm_num) (by simp only [BootImage.size]; omega) hf
    · exact sector_patch_fits hnear' (by norm_num) (by simp only [BootImage.size]; omega) hf
  have hperforms := performs_of_entries (BootField.patch k) (BootField.op disk_sectors)
    (fun g => g.image.size m) hkept hfits
  have hops : List.Forall₂ (fun p op => p.filename = BootImage.name k op.1 ∧
      Performs 512 (op.1.size m) p op.2)
      ((entries.map (replace_disk_size (disk_sectors * 512) 512)).filter (·.filename ≠ "DISK"))
      ((boot_fields m b f).map fun g => (g.image, g.op disk_sectors)) := by
    rw [filter_replace _ _ _ (· ≠ "DISK"), List.forall₂_map_right_iff]
    rw [hsector] at hperforms
    exact hperforms
  obtain ⟨files', hdone, hnew, -⟩ := perform_patching_files (boot_name_injective k) hops hfiles
    hsize
  refine ⟨files', (Sector.back b).actual disk_sectors (max_sectors 512),
    (hrun _ target files).trans hdone, ?_, ?_⟩
  · -- of the operations those for the partition image stay
    have hcomm : (m + 1) * 512 + 0x1CA = 512 * (m + 1) + 0x1CA := by ring
    have h := hnew .partition
    rw [runTagged_apply] at h
    simp only [boot_fields, List.map_cons, List.map_nil, List.filter_cons, List.filter_nil,
      reduceCtorEq, decide_true, decide_false, if_true, Bool.false_eq_true, if_false, runOps_cons,
      runOps_nil, BootField.op, FieldOp.apply, Source.value, hcomm] at h
    exact h
  · have hcomm : m * 512 + 0x1CA = 512 * m + 0x1CA := by ring
    have h := hnew .ebr
    rw [runTagged_apply] at h
    simp only [boot_fields, List.map_cons, List.map_nil, List.filter_cons, List.filter_nil,
      reduceCtorEq, decide_true, decide_false, if_true, Bool.false_eq_true, if_false, runOps_cons,
      runOps_nil, BootField.op, FieldOp.apply, Source.value, hcomm] at h
    exact h

include hsector hpatches hb hf in
/-- **Patching the disk** writes the size into the last record there. -/
theorem patch_boot_disk (hd : 0 < disk_sectors)
    (hnear : Near st disk_sectors ((b + m : ℕ) : ℤ)) {target : String} {files : Store}
    {d : List UInt8} (htarget : files target = some d) (hroom : (b + m + 1) * 512 ≤ d.length) :
    ∃ v, run_patches .disk (disk_sectors * 512) target out.patches files
      = .done (Function.update files target (some (overwrite (overwrite d 0x1FA (leBytes 4 v))
        ((b + m) * 512 + 0x1CA) (leBytes 4 (patched_size disk_sectors f))))) := by
  obtain ⟨entries, hentries, hrun⟩ := run_boot_patches hsector hpatches hd
  rw [Near, hsector] at hnear
  have hzero := actual_front disk_sectors (Nat.zero_le (max_sectors 512))
  have hkept := entries_of_elements hd (filter_read hentries (· = "DISK")) boot_disk_elements
    (by
      simp only [boot_disk_patches, List.forall_mem_cons, List.not_mem_nil, false_implies,
        implies_true, and_true]
      exact ⟨sector_small (by decide), sector_small (by decide)⟩)
  rw [← List.map_id (boot_disk_patches m b f)] at hkept
  have hroom₀ : (0 + 1) * 512 ≤ d.length := (Nat.mul_le_mul_right 512 (by omega)).trans hroom
  -- the signature of the first sector, and the size in the last record
  obtain ⟨hfirst, hfirst_op⟩ := @sector_patch_fits disk_sectors "DISK" 0 0x1FA b d.length hzero
    (by decide) hroom₀ hb
  obtain ⟨hlast, hlast_op⟩ := @sector_patch_fits disk_sectors "DISK" (b + m) 0x1CA (f + 1) d.length
    hnear (by decide) hroom hf
  have hperforms := performs_of_entries id (fun q => q.op disk_sectors 512) (fun _ => d.length)
    hkept (by
      rw [hsector]
      simp only [boot_disk_patches, List.forall_mem_cons, List.not_mem_nil, false_implies,
        implies_true, and_true]
      exact ⟨⟨hfirst, rfl⟩, ⟨hlast, rfl⟩⟩)
  refine ⟨(Sector.back b).actual disk_sectors (max_sectors 512), ?_⟩
  have hops : List.Forall₂ (Performs 512 d.length)
      ((entries.map (replace_disk_size (disk_sectors * 512) 512)).filter (·.filename = "DISK"))
      ((boot_disk_patches m b f).map fun q => q.op disk_sectors 512) := by
    rw [filter_replace _ _ _ (· = "DISK"), List.forall₂_map_right_iff]
    rw [hsector] at hperforms
    exact hperforms.imp fun p q h => h.2
  rw [hrun, perform_patching_disk hops htarget]
  simp only [boot_disk_patches, List.map_cons, List.map_nil, hfirst_op, hlast_op, runOps_cons,
    runOps_nil, FieldOp.apply, Source.value, Nat.zero_mul, Nat.zero_add]
  rfl

end Runs

end AndroidTools.Pipeline
