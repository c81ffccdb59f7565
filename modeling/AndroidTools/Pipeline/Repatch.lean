/-
Patching again.

A pass over the image files refreshes every number that depends on the disk size
and takes every CRC afterwards, so what an earlier pass left, for whatever size,
is gone. The same holds on a disk as long as the backup header's sectors stay its
own. On a disk more than two sectors above 64TB the patches for them are mirrored,
onto the first sector above 64TB. From 35 sectors above on that sector lies before
the backup array, and a second pass again finds nothing stale. In between it is a
sector of the array, whose CRC then covers its own field; `disk_repatch_mirrored` is
a disk 34 sectors above, where it is the first one.
-/
import AndroidTools.Pipeline.PatchOrder

set_option autoImplicit false

namespace AndroidTools.Pipeline

open AndroidTools.Bytes AndroidTools.Crc AndroidTools.FieldPatch AndroidTools.Ptool
  AndroidTools.Msp

/-! ## Files

In a file a sector number above 64TB is a value and not an address, so it may be mirrored
without harm: the second pass writes the same fields as the first. A pass can only fail to
complete where sectors are so large that 32 of them do not fit below 64TB.
-/

/-- With 32 sectors below 64TB no sector of an image is mirrored. -/
theorem fields_below_max {st : Settings} {n : ℕ} (hs : 512 ∣ st.sector_size_in_bytes)
    (hn : n ≤ 128) (hmax : 32 ≤ max_sectors st.sector_size_in_bytes) :
    ∀ f ∈ gpt_fields st n, f.sector ≤ max_sectors st.sector_size_in_bytes := by
  intro f hf
  rcases Nat.lt_or_ge 32 (max_sectors st.sector_size_in_bytes) with hlarge | hsmall
  · have hsector := (gpt_fields_inside hs hn f hf).sector
    have hsectors : f.image.sectors ≤ 34 := by cases f.image <;> decide
    omega
  · -- then a sector is so large that the array fits in one
    have hbig : 2 ^ 15 < st.sector_size_in_bytes := by
      by_contra hle
      have h15 : emmcbld_max_disk_size_in_bytes / 2 ^ 15 ≤ max_sectors st.sector_size_in_bytes :=
        Nat.div_le_div_left (by omega) st.sector_size_pos
      have hval : emmcbld_max_disk_size_in_bytes / 2 ^ 15 = 2 ^ 31 := by decide
      omega
    have hzero : (40 + (n - 1) * 128) / st.sector_size_in_bytes = 0 :=
      Nat.div_eq_of_lt (by omega)
    rcases List.mem_append.mp hf with hf | hf
    · split_ifs at hf with hgrow
      · simp only [growing_fields, hzero, List.mem_cons, List.not_mem_nil, or_false] at hf
        rcases hf with rfl | rfl <;> dsimp only <;> omega
      · cases hf
    · simp only [header_updates, List.mem_cons, List.not_mem_nil, or_false] at hf
      rcases hf with rfl | rfl | rfl | rfl | rfl | rfl | rfl | rfl | rfl | rfl | rfl <;>
        dsimp only <;> omega

section Files

variable {st : Settings} {k : ℕ} {ps : List Partition} {rand : ℕ → ℕ} {out : GptTables}
  (hs : 512 ∣ st.sector_size_in_bytes) (hps : ps ≠ []) (hn : ps.length ≤ 128)
  (hout : create_gpt_partition_table st k ps rand = .ok out)

include hs hps hn hout

/-- On sectors so large that 64TB has fewer than 32 of them, a pass stops: the
sector of the backup header is mirrored out of its file. -/
theorem files_pass_exits (hmax : max_sectors st.sector_size_in_bytes < 32) {disk_sectors : ℕ}
    (h67 : 67 ≤ disk_sectors) (target : String) {files : Store} {backup : List UInt8}
    (hbackup : files (gpt_backup k) = some backup)
    (hlen : backup.length = 33 * st.sector_size_in_bytes) :
    ∃ files', run_patches .files (disk_sectors * st.sector_size_in_bytes) target out.patches files
      = .exit files' := by
  have hd : 0 < disk_sectors := by omega
  by_cases hread : ∃ entries, ReadAs st disk_sectors out.patches entries
  · obtain ⟨entries, hread⟩ := hread
    rw [run_patches_of_read hout hps hread hd]
    have hkept := files_entries hout hs hps hn hread hd
    have hfield : (⟨.backup, 32, 48, 8, .from_end 34⟩ : GptField) ∈ gpt_fields st ps.length :=
      List.mem_append_right _ (by simp [header_updates])
    obtain ⟨p, hp, what, rfl⟩ := exists_left hkept (List.mem_map_of_mem hfield)
    have hentry := (List.mem_filter.mp hp).1
    have hdiv : disk_sectors * st.sector_size_in_bytes / st.sector_size_in_bytes = disk_sectors :=
      Nat.mul_div_cancel _ st.sector_size_pos
    -- 32 is above the maximum
    have hstart : (replace_disk_size (disk_sectors * st.sector_size_in_bytes)
        st.sector_size_in_bytes (Patch.entry disk_sectors k what (GptField.files_patch k
          ⟨.backup, 32, 48, 8, .from_end 34⟩))).start_sector
        = (disk_sectors : ℤ) - (32 - max_sectors st.sector_size_in_bytes) := by
      simp only [replace_disk_size, Patch.entry, GptField.files_patch, Sector.resolve, hdiv]
      rw [real_value, if_pos]
      · rfl
      · exact ⟨by decide, by exact_mod_cast hmax⟩
    refine perform_patching_exits st.sector_size_pos (List.mem_map_of_mem hentry)
      (name_ne_disk k .backup) hbackup ?_ ?_
    · rw [hstart]
      omega
    · rw [hstart, hlen]
      have hsectors : (33 : ℤ) * st.sector_size_in_bytes
          < ((disk_sectors : ℤ) - (32 - max_sectors st.sector_size_in_bytes) + 1)
            * st.sector_size_in_bytes :=
        Int.mul_lt_mul_of_pos_right (by omega) (by exact_mod_cast st.sector_size_pos)
      exact_mod_cast hsectors
  · exact ⟨files, run_patches_unread hout hps hread hd _ _ _⟩

/-- A pass after a pass for another size gives what it gives alone. -/
theorem files_repatch {first second : ℕ} (h₁ : 67 ≤ first) (h₂ : 67 ≤ second) (target : String)
    {files files₁ : Store} (hfiles : Emitted k out files)
    (hrun : run_patches .files (first * st.sector_size_in_bytes) target out.patches files
      = .done files₁) :
    (run_patches .files (second * st.sector_size_in_bytes) target out.patches files₁).result?
      = (run_patches .files (second * st.sector_size_in_bytes) target out.patches
          files).result? := by
  have h512 := Nat.le_of_dvd st.sector_size_pos hs
  have hlen := length_of h512 hout
  rcases Nat.lt_or_ge (max_sectors st.sector_size_in_bytes) 32 with hsmall | hmax
  · obtain ⟨files', hexit⟩ := files_pass_exits hs hps hn hout hsmall h₁ target
      (hfiles .backup) (hlen .backup)
    rw [hexit] at hrun
    cases hrun
  have hbelow := fields_below_max hs hn hmax
  by_cases hread₁ : ∃ entries, ReadAs st first out.patches entries
  · obtain ⟨entries₁, hread₁⟩ := hread₁
    obtain ⟨files', hrun', himages, hother⟩ := patch_files hout hs hps hn hread₁ (by omega) hbelow
      target hfiles hlen
    obtain rfl : files₁ = files' := Run.done.inj (hrun.symm.trans hrun')
    by_cases hread₂ : ∃ entries, ReadAs st second out.patches entries
    · obtain ⟨entries₂, hread₂⟩ := hread₂
      simp only [runTagged_eq_patched] at himages
      -- both second runs end with the same images
      obtain ⟨again, hrunagain, hagain, hagainother⟩ := patch_files hout hs hps hn hread₂
        (by omega) hbelow target himages fun t => (length_patched _ hs hn (hlen t)).trans (hlen t)
      obtain ⟨alone, hrunalone, halone, haloneother⟩ := patch_files hout hs hps hn hread₂
        (by omega) hbelow target hfiles hlen
      rw [hrunagain, hrunalone, Run.result?_done, Run.result?_done]
      congr 1
      funext n
      by_cases hn' : ∃ t : GptImage, n = t.name k
      · obtain ⟨t, rfl⟩ := hn'
        rw [hagain t, halone t, runTagged_eq_patched, runTagged_eq_patched,
          patched_patched _ hs hn (hlen t)]
      · have hn'' : ∀ t : GptImage, n ≠ t.name k := fun t ht => hn' ⟨t, ht⟩
        rw [hagainother n hn'', haloneother n hn'', hother n hn'']
    · rw [run_patches_unread hout hps hread₂ (by omega),
        run_patches_unread hout hps hread₂ (by omega)]
      rfl
  · rw [run_patches_unread hout hps hread₁ (by omega)] at hrun
    cases hrun

/-! ## Disk

On a disk the sectors are addresses. As long as they stay themselves, the passes are those
of the two images at their places.
-/

/-- A second pass for the same size over the disk changes nothing. -/
theorem disk_repatch {disk_sectors : ℕ} (h67 : 67 ≤ disk_sectors)
    (hmax : disk_sectors ≤ max_sectors st.sector_size_in_bytes + 2) {target : String}
    {files : Store} {d : List UInt8} (hd : files target = some d)
    (hlen : d.length = disk_sectors * st.sector_size_in_bytes) :
    ∃ files', run_patches .disk (disk_sectors * st.sector_size_in_bytes) target out.patches files
        = .done files' ∧
      run_patches .disk (disk_sectors * st.sector_size_in_bytes) target out.patches files'
        = .done files' := by
  have htop := max_sectors_le (Nat.le_of_dvd st.sector_size_pos hs)
  obtain ⟨entries, hread⟩ := patches_read_as hout hs hps hn (show 34 ≤ disk_sectors by omega)
    (by omega)
  -- the disk is its own images, laid on it
  have himages : ∀ t : GptImage, (slice d (t.base disk_sectors st.sector_size_in_bytes)
      (t.size st.sector_size_in_bytes)).length = t.size st.sector_size_in_bytes :=
    fun t => length_slice_of_le (by rw [hlen]; exact base_add_size_le _ h67 t)
  have hlaid := eq_lay_images h67 hlen himages rfl (fun _ => rfl) (fun _ _ _ => rfl)
  have hpatched : ∀ t : GptImage, (patched st ps.length (fun j => (disk_sectors : ℤ) - j) t
      (slice d (t.base disk_sectors st.sector_size_in_bytes)
        (t.size st.sector_size_in_bytes))).length = t.size st.sector_size_in_bytes :=
    fun t => (length_patched _ hs hn (himages t)).trans (himages t)
  have hpass := patch_disk hout hs hps hn hread h67 (by omega) hmax hd hlen
  rw [hlaid, runPlaced_lay_images hs hn h67 hlen himages] at hpass
  refine ⟨_, hpass, ?_⟩
  rw [patch_disk hout hs hps hn hread h67 (by omega) hmax (Function.update_self ..)
    (by rw [(lay_images_spec h67 hlen hpatched).1, hlen]), Function.update_idem,
    runPlaced_lay_images hs hn h67 hlen hpatched]
  simp only [patched_patched _ hs hn (himages _)]

end Files

/-! ## A disk far above 64TB

Above 64TB the patches for the backup header go to a sector elsewhere on the disk. If that
sector is not part of the backup array, a second pass still reads nothing that the first has
left to be written.
-/

section Above

variable {st : Settings} {n disk_sectors : ℕ}

/-- Where the patches for the backup header go, and what the CRCs are taken of, when the
backup image lies behind the sector to which its header is mirrored. -/
theorem disk_ops_above (hmax : 33 ≤ max_sectors st.sector_size_in_bytes)
    (habove : max_sectors st.sector_size_in_bytes + 35 ≤ disk_sectors) :
    ∃ numbers : List FieldOp, (∀ op ∈ numbers, ∃ v, op.src = .const v) ∧
      (gpt_fields st n).map (fun f => f.disk_patch.op disk_sectors st.sector_size_in_bytes)
        = numbers ++
          [⟨1 * st.sector_size_in_bytes + 88, 4, .checksum (2 * st.sector_size_in_bytes)
              (num_partitions st n * size_of_partition_array)⟩,
            ⟨(max_sectors st.sector_size_in_bytes + 1) * st.sector_size_in_bytes + 88, 4,
              .checksum ((disk_sectors - 33) * st.sector_size_in_bytes)
                (num_partitions st n * size_of_partition_array)⟩,
            ⟨1 * st.sector_size_in_bytes + 16, 4, .const 0⟩,
            ⟨1 * st.sector_size_in_bytes + 16, 4, .checksum (1 * st.sector_size_in_bytes) 92⟩,
            ⟨(max_sectors st.sector_size_in_bytes + 1) * st.sector_size_in_bytes + 16, 4,
              .const 0⟩,
            ⟨(max_sectors st.sector_size_in_bytes + 1) * st.sector_size_in_bytes + 16, 4,
              .checksum ((disk_sectors - 1) * st.sector_size_in_bytes) 92⟩] := by
  set s := st.sector_size_in_bytes
  have hfront : ∀ j ≤ 33, (Sector.front j).actual disk_sectors (max_sectors s) = j :=
    fun j hj => actual_front disk_sectors (hj.trans hmax)
  have hback : (Sector.back 1).actual disk_sectors (max_sectors s) = (max_sectors s + 1 : ℕ) :=
    actual_back_above (by omega)
  have hend : ∀ j : ℕ, ((disk_sectors : ℤ) - j).toNat = disk_sectors - j := fun j => by omega
  refine ⟨((if st.grow_last_partition_to_fill_disk then growing_fields st n else [])
    ++ (header_updates st n).take 5).map fun f => f.disk_patch.op disk_sectors s, ?_, ?_⟩
  · intro op hop
    obtain ⟨f, hf, rfl⟩ := List.mem_map.mp hop
    obtain ⟨j, hj⟩ : ∃ j, f.value = .from_end j := by
      rcases List.mem_append.mp hf with hf | hf
      · split_ifs at hf with hgrow
        · simp only [growing_fields, List.mem_cons, List.not_mem_nil, or_false] at hf
          rcases hf with rfl | rfl <;> exact ⟨_, rfl⟩
        · cases hf
      · simp only [header_updates, List.take, List.mem_cons, List.not_mem_nil, or_false] at hf
        rcases hf with rfl | rfl | rfl | rfl | rfl <;> exact ⟨_, rfl⟩
    exact ⟨_, by rw [Patch.op, GptField.disk_patch, hj]⟩
  · rw [gpt_fields, List.map_append, List.map_append, List.append_assoc]
    congr 1
    simp only [header_updates, List.map_cons, List.map_nil, List.take_succ_cons, List.take_zero,
      List.cons_append, List.nil_append, GptField.disk_patch, Patch.op, GptImage.place, hback,
      hfront 0 (by decide), hfront 1 (by decide), hend, Sector.resolve, Int.toNat_natCast,
      Nat.reduceSub, Nat.sub_zero, Nat.cast_zero]

/-- A second pass reads no byte that the first one has left. -/
theorem fresh_above (hs : 512 ≤ st.sector_size_in_bytes) (hn : n ≤ 128)
    (hmax : 33 ≤ max_sectors st.sector_size_in_bytes)
    (habove : max_sectors st.sector_size_in_bytes + 35 ≤ disk_sectors) :
    Fresh (fun i => ∃ op ∈ (gpt_fields st n).map
        (fun f => f.disk_patch.op disk_sectors st.sector_size_in_bytes), op.Writes i)
      ((gpt_fields st n).map fun f => f.disk_patch.op disk_sectors st.sector_size_in_bytes) := by
  obtain ⟨numbers, hconst, hops⟩ := disk_ops_above (n := n) hmax habove
  have hlen : num_partitions st n * size_of_partition_array ≤ 32 * st.sector_size_in_bytes := by
    have hnp := num_partitions_le st hn
    rw [size_of_partition_array]
    omega
  rw [hops]
  -- the sectors: the main image, the mirrored one, the backup array, the last one
  have hmirrored : 34 * st.sector_size_in_bytes
      ≤ (max_sectors st.sector_size_in_bytes + 1) * st.sector_size_in_bytes :=
    Nat.mul_le_mul_right _ (by omega)
  have harray : (max_sectors st.sector_size_in_bytes + 1 + 1) * st.sector_size_in_bytes
      ≤ (disk_sectors - 33) * st.sector_size_in_bytes := Nat.mul_le_mul_right _ (by omega)
  have hlast : (disk_sectors - 33) * st.sector_size_in_bytes
      ≤ (disk_sectors - 1) * st.sector_size_in_bytes := Nat.mul_le_mul_right _ (by omega)
  rw [Nat.add_mul] at harray
  generalize (max_sectors st.sector_size_in_bytes + 1) * st.sector_size_in_bytes = mirrored
    at *
  generalize (disk_sectors - 33) * st.sector_size_in_bytes = array at *
  generalize (disk_sectors - 1) * st.sector_size_in_bytes = last at *
  generalize num_partitions st n * size_of_partition_array = len at *
  refine fresh_append hconst ?_
  -- stale are only the four checksums
  have hstale : ∀ i, ((∃ op ∈ numbers ++
      [(⟨1 * st.sector_size_in_bytes + 88, 4, .checksum (2 * st.sector_size_in_bytes) len⟩ :
          FieldOp),
        ⟨mirrored + 88, 4, .checksum array len⟩, ⟨1 * st.sector_size_in_bytes + 16, 4, .const 0⟩,
        ⟨1 * st.sector_size_in_bytes + 16, 4, .checksum (1 * st.sector_size_in_bytes) 92⟩,
        ⟨mirrored + 16, 4, .const 0⟩, ⟨mirrored + 16, 4, .checksum last 92⟩], op.Writes i) ∧
      ∀ op ∈ numbers, ¬ op.Writes i) →
      (1 * st.sector_size_in_bytes + 88 ≤ i ∧ i < 1 * st.sector_size_in_bytes + 88 + 4) ∨
        (mirrored + 88 ≤ i ∧ i < mirrored + 88 + 4) ∨
        (1 * st.sector_size_in_bytes + 16 ≤ i ∧ i < 1 * st.sector_size_in_bytes + 16 + 4) ∨
        (mirrored + 16 ≤ i ∧ i < mirrored + 16 + 4) := by
    rintro i ⟨⟨op, hop, hw⟩, hnot⟩
    rcases List.mem_append.mp hop with hop | hop
    · exact absurd hw (hnot op hop)
    · simp only [List.mem_cons, List.not_mem_nil, or_false] at hop
      rcases hop with rfl | rfl | rfl | rfl | rfl | rfl
      · exact .inl hw
      · exact .inr (.inl hw)
      · exact .inr (.inr (.inl hw))
      · exact .inr (.inr (.inl hw))
      · exact .inr (.inr (.inr hw))
      · exact .inr (.inr (.inr hw))
  refine ⟨?_, ?_, fun i hr => hr.elim, ?_, fun i hr => hr.elim, ?_, trivial⟩
  · rintro i ⟨hlo, hhi⟩ hi
    have h := hstale i hi
    omega
  · rintro i ⟨hlo, hhi⟩ hi
    have h := hstale i hi.1
    omega
  · -- the main header reads its own checksums, which are new by then
    rintro i ⟨hlo, hhi⟩ ⟨⟨⟨hi, harraynew⟩, -⟩, hownnew⟩
    have h := hstale i hi
    simp only [FieldOp.Writes] at harraynew hownnew
    omega
  · rintro i ⟨hlo, hhi⟩ hi
    have h := hstale i hi.1.1.1.1.1
    omega

/-- A second pass for the same size over such a disk changes nothing either. -/
theorem disk_repatch_above {k : ℕ} {ps : List Partition} {rand : ℕ → ℕ} {out : GptTables}
    (hs : 512 ∣ st.sector_size_in_bytes) (hps : ps ≠ []) (hn : ps.length ≤ 128)
    (hout : create_gpt_partition_table st k ps rand = .ok out)
    (hmax : 33 ≤ max_sectors st.sector_size_in_bytes)
    (habove : max_sectors st.sector_size_in_bytes + 35 ≤ disk_sectors)
    (hbig : disk_sectors < 2 ^ 53) {target : String} {files : Store} {d : List UInt8}
    (hd : files target = some d) (hlen : d.length = disk_sectors * st.sector_size_in_bytes) :
    ∃ files', run_patches .disk (disk_sectors * st.sector_size_in_bytes) target out.patches files
        = .done files' ∧
      run_patches .disk (disk_sectors * st.sector_size_in_bytes) target out.patches files'
        = .done files' := by
  have h67 : 67 ≤ disk_sectors := by omega
  obtain ⟨entries, hread⟩ := patches_read_as hout hs hps hn (show 34 ≤ disk_sectors by omega) hbig
  have hbounds : ∀ op ∈ (gpt_fields st ps.length).map
      (fun f => f.disk_patch.op disk_sectors st.sector_size_in_bytes), op.InBounds d.length := by
    intro op hop
    obtain ⟨f, hf, rfl⟩ := List.mem_map.mp hop
    rw [hlen]
    exact ((gpt_fields_inside hs hn f hf).disk_fits h67 hmax).inBounds st.sector_size_pos
  refine ⟨_, patch_disk_ops hout hs hps hn hread h67 hbig hmax hd hlen, ?_⟩
  rw [patch_disk_ops hout hs hps hn hread h67 hbig hmax (Function.update_self ..)
      ((length_runOps crc32 hbounds).trans hlen), Function.update_idem,
    runOps_runOps crc32 hbounds hbounds (fun i hi => hi)
      (fresh_above (Nat.le_of_dvd st.sector_size_pos hs) hn hmax habove)]

end Above

/-- **Re-patching leaves no trace of the earlier size.** On the files, for every two
sizes; on the disk, for one size that is at most two sectors above 64TB or at least 35.
A pass over the files completes on sectors of up to 2TB, when the disk size is exact as
a double. -/
theorem repatch_leaves_no_trace (st : Settings) (k : ℕ) (ps : List Partition) (rand : ℕ → ℕ)
    (out : GptTables) (first second : ℕ) (target : String)
    (hs : 512 ∣ st.sector_size_in_bytes) (hps : ps ≠ []) (hn : ps.length ≤ 128)
    (hout : create_gpt_partition_table st k ps rand = .ok out)
    (h₁ : 67 ≤ first) (h₂ : 67 ≤ second) :
    (∀ files files₁, Emitted k out files →
      run_patches .files (first * st.sector_size_in_bytes) target out.patches files
        = .done files₁ →
      (run_patches .files (second * st.sector_size_in_bytes) target out.patches files₁).result?
        = (run_patches .files (second * st.sector_size_in_bytes) target out.patches
            files).result?) ∧
    (32 ≤ max_sectors st.sector_size_in_bytes → first < 2 ^ 53 → ∀ files, Emitted k out files →
      ∃ files₁, run_patches .files (first * st.sector_size_in_bytes) target out.patches files
        = .done files₁) ∧
    (second ≤ max_sectors st.sector_size_in_bytes + 2 ∨
        33 ≤ max_sectors st.sector_size_in_bytes ∧
          max_sectors st.sector_size_in_bytes + 35 ≤ second ∧ second < 2 ^ 53 →
      ∀ files d, files target = some d → d.length = second * st.sector_size_in_bytes →
      ∃ files', run_patches .disk (second * st.sector_size_in_bytes) target out.patches files
          = .done files' ∧
        run_patches .disk (second * st.sector_size_in_bytes) target out.patches files'
          = .done files') := by
  refine ⟨fun files files₁ hfiles hrun => ?_, fun hmax hbig files hfiles => ?_,
    fun hmax files d hd hlen => ?_⟩
  · exact files_repatch hs hps hn hout h₁ h₂ target hfiles hrun
  · obtain ⟨entries, hread⟩ := patches_read_as hout hs hps hn (show 34 ≤ first by omega) hbig
    -- below 2^53 the numbers are read exactly, so the first pass returns
    obtain ⟨files₁, hrun, -⟩ := patch_files hout hs hps hn hread (by omega)
      (fields_below_max hs hn hmax) target hfiles
      (length_of (Nat.le_of_dvd st.sector_size_pos hs) hout)
    exact ⟨files₁, hrun⟩
  · rcases hmax with hbelow | ⟨hmax, habove, hbig⟩
    · exact disk_repatch hs hps hn hout h₂ hbelow hd hlen
    · exact disk_repatch_above hs hps hn hout hmax habove hbig hd hlen

theorem repatch_hundred : ∃ out files₁,
    create_gpt_partition_table growing_settings 0 (sized_partitions [10, 0]) (fun j => j)
      = .ok out ∧
    run_patches .files (200 * 512) "disk" out.patches (emitted_files 0 out) = .done files₁ ∧
    (run_patches .files (100 * 512) "disk" out.patches files₁).result?
      = (run_patches .files (100 * 512) "disk" out.patches (emitted_files 0 out)).result? := by
  obtain ⟨out, hout⟩ := growing_run [10, 0] (by decide)
  obtain ⟨htrace, hcompletes, -⟩ := repatch_leaves_no_trace growing_settings 0 _ _ out 200 100
    "disk" (by decide) (by decide) (by decide) hout (by decide) (by decide)
  have hfiles := emitted_files_emitted 0 out
  obtain ⟨files₁, hrun⟩ := hcompletes (by decide) (by decide) _ hfiles
  exact ⟨out, files₁, hout, hrun, htrace _ _ hfiles hrun⟩

/-! ## A disk 34 sectors above 64TB

Here the mirrored sector belongs to the array whose CRC is written into it. `MirroredView`
keeps the two sectors that matter, so that both passes can be followed on a disk that is too
large to write down.
-/

section Mirrored

/-- The sector to which the patches for the last one go, the first of the 33 sectors
of the backup image. -/
def mirrored_sector : ℕ := (2 ^ 37 + 1) * 512

/-- The byte at which the last sector of that disk begins. -/
def last_sector : ℕ := (2 ^ 37 + 33) * 512

/-- The mirrored sector after a pass has written its numbers there, and before the CRCs. -/
def mirrored_numbers (sector : List UInt8) : List UInt8 :=
  overwrite (overwrite (overwrite sector 48 (leBytes 8 (2 ^ 37))) 24 (leBytes 8 (2 ^ 37 + 1)))
    72 (leBytes 8 (2 ^ 37 + 33))

/-- What a pass makes of the mirrored sector: the numbers, the CRC of the whole
sector as that of the array, and the CRC of the last sector as that of the header. -/
def mirrored_header (sector header : List UInt8) : List UInt8 :=
  let numbers := mirrored_numbers sector
  let array_crc := overwrite numbers 88 (leBytes 4 (crc32 numbers))
  overwrite (overwrite array_crc 16 (leBytes 4 0)) 16 (leBytes 4 (crc32 header))

/-- The updates of a pass, with the sectors at which they end up. -/
theorem mirrored_ops : (gpt_fields plain_settings 1).map
    (fun f => f.disk_patch.op (2 ^ 37 + 34) 512)
    = [⟨560, 8, .const (2 ^ 37)⟩, ⟨mirrored_sector + 48, 8, .const (2 ^ 37)⟩,
        ⟨544, 8, .const (2 ^ 37 + 1)⟩, ⟨mirrored_sector + 24, 8, .const (2 ^ 37 + 1)⟩,
        ⟨mirrored_sector + 72, 8, .const (2 ^ 37 + 33)⟩,
        ⟨600, 4, .checksum 1024 512⟩, ⟨mirrored_sector + 88, 4, .checksum mirrored_sector 512⟩,
        ⟨528, 4, .const 0⟩, ⟨528, 4, .checksum 512 92⟩,
        ⟨mirrored_sector + 16, 4, .const 0⟩,
        ⟨mirrored_sector + 16, 4, .checksum last_sector 92⟩] := by
  decide

/-- The disk as a pass over it sees it: its size, the mirrored sector, and the header in the last
sector. -/
structure MirroredView (d sector header : List UInt8) : Prop where
  length : d.length = (2 ^ 37 + 34) * 512
  sector : slice d mirrored_sector 512 = sector
  header : slice d last_sector 92 = header

variable {d sector header : List UInt8}

/-- An update before the last sector changes the mirrored sector at most, and keeps the header. -/
theorem MirroredView.update (h : MirroredView d sector header) {dst width : ℕ} {src : Source}
    {sector' : List UInt8} (hdst : dst + width ≤ last_sector)
    (hsector : slice (FieldOp.apply crc32 d ⟨dst, width, src⟩) mirrored_sector 512 = sector') :
    MirroredView (FieldOp.apply crc32 d ⟨dst, width, src⟩) sector' header := by
  have hlen := h.length
  have hl : last_sector = (2 ^ 37 + 33) * 512 := rfl
  refine ⟨?_, hsector, ?_⟩
  · exact (length_overwrite_of_le (by rw [length_leBytes]; dsimp only; omega)).trans hlen
  · rw [FieldOp.slice_apply_apart crc32 (by dsimp only; omega) (by dsimp only; omega), h.header]

/-- An update of the primary header changes neither. -/
theorem MirroredView.main (h : MirroredView d sector header) {dst width : ℕ} (src : Source)
    (hdst : dst + width ≤ 1024) :
    MirroredView (FieldOp.apply crc32 d ⟨dst, width, src⟩) sector header := by
  have hlen := h.length
  have hm : mirrored_sector = (2 ^ 37 + 1) * 512 := rfl
  have hl : last_sector = (2 ^ 37 + 33) * 512 := rfl
  apply h.update (by omega)
  rw [FieldOp.slice_apply_apart crc32 (by dsimp only; omega) (by dsimp only; omega), h.sector]

/-- An update of the mirrored sector changes that sector. -/
theorem MirroredView.mirrored (h : MirroredView d sector header) {p width : ℕ} (src : Source)
    (hp : p + width ≤ 512) :
    MirroredView (FieldOp.apply crc32 d ⟨mirrored_sector + p, width, src⟩)
      (overwrite sector p (leBytes width (src.value crc32 d))) header := by
  have hlen := h.length
  have hm : mirrored_sector = (2 ^ 37 + 1) * 512 := rfl
  have hl : last_sector = (2 ^ 37 + 33) * 512 := rfl
  apply h.update (by omega)
  rw [FieldOp.slice_apply_inside crc32 hp (by omega), h.sector]

/-- A pass leaves the mirrored sector with its numbers and CRCs, and the header as it was. -/
theorem MirroredView.pass (h : MirroredView d sector header) :
    MirroredView (runOps crc32 ((gpt_fields plain_settings 1).map
      fun f => f.disk_patch.op (2 ^ 37 + 34) 512) d) (mirrored_header sector header) header := by
  rw [mirrored_ops]
  have h₅ := ((((h.main (.const (2 ^ 37)) (show 560 + 8 ≤ 1024 by decide)).mirrored
    (.const (2 ^ 37)) (show 48 + 8 ≤ 512 by decide)).main
    (.const (2 ^ 37 + 1)) (show 544 + 8 ≤ 1024 by decide)).mirrored
    (.const (2 ^ 37 + 1)) (show 24 + 8 ≤ 512 by decide)).mirrored
    (.const (2 ^ 37 + 33)) (show 72 + 8 ≤ 512 by decide)
  have h₆ := h₅.main (.checksum 1024 512) (show 600 + 4 ≤ 1024 by decide)
  have h₇ := h₆.mirrored (.checksum mirrored_sector 512) (show 88 + 4 ≤ 512 by decide)
  simp only [Source.value, h₆.sector] at h₇
  have h₁₀ := ((h₇.main (.const 0) (show 528 + 4 ≤ 1024 by decide)).main
    (.checksum 512 92) (show 528 + 4 ≤ 1024 by decide)).mirrored
    (.const 0) (show 16 + 4 ≤ 512 by decide)
  have h₁₁ := h₁₀.mirrored (.checksum last_sector 92) (show 16 + 4 ≤ 512 by decide)
  simp only [Source.value, h₁₀.header] at h₁₁
  exact h₁₁

/-- The array CRC that a pass leaves in the mirrored sector is that of the sector before the CRC
was written. -/
theorem slice_mirrored_header (hlen : sector.length = 512) :
    slice (mirrored_header sector header) 88 4
      = leBytes 4 (crc32 (mirrored_numbers sector)) := by
  have hnumbers : (mirrored_numbers sector).length = 512 := by
    have h₁ : (overwrite sector 48 (leBytes 8 (2 ^ 37))).length = 512 :=
      (length_overwrite_of_le (by rw [length_leBytes]; omega)).trans hlen
    have h₂ : (overwrite (overwrite sector 48 (leBytes 8 (2 ^ 37))) 24
        (leBytes 8 (2 ^ 37 + 1))).length = 512 :=
      (length_overwrite_of_le (by rw [length_leBytes]; omega)).trans h₁
    exact (length_overwrite_of_le (by rw [length_leBytes]; omega)).trans h₂
  have hcrc : (overwrite (mirrored_numbers sector) 88
      (leBytes 4 (crc32 (mirrored_numbers sector)))).length = 512 :=
    (length_overwrite_of_le (by rw [length_leBytes]; omega)).trans hnumbers
  have hzero : (overwrite (overwrite (mirrored_numbers sector) 88
      (leBytes 4 (crc32 (mirrored_numbers sector)))) 16 (leBytes 4 0)).length = 512 :=
    (length_overwrite_of_le (by rw [length_leBytes]; omega)).trans hcrc
  have hself := slice_overwrite_self (show 88
    + (leBytes 4 (crc32 (mirrored_numbers sector))).length ≤ (mirrored_numbers sector).length by
      rw [length_leBytes]
      omega)
  rw [length_leBytes] at hself
  rw [mirrored_header]
  rw [slice_overwrite_of_disjoint (by rw [length_leBytes]; omega) (by rw [length_leBytes]; omega),
    slice_overwrite_of_disjoint (by rw [length_leBytes]; omega) (by rw [length_leBytes]; omega),
    hself]

/-- The array CRC of the first pass, over a disk of zeros. -/
theorem first_array_crc : crc32 (mirrored_numbers (List.replicate 512 0)) = 505709275 := by
  rw [crc32_eq_crcRun]
  decide +kernel

/-- The CRC of the second pass, which the first CRC has changed. -/
theorem second_array_crc : crc32 (mirrored_numbers (mirrored_header (List.replicate 512 0)
    (List.replicate 92 0))) = 1859024987 := by
  have hheader : crc32 (List.replicate 92 0) = 3266651879 := by
    rw [crc32_eq_crcRun]
    decide +kernel
  rw [mirrored_header]
  rw [first_array_crc, hheader, crc32_eq_crcRun]
  decide +kernel

/-- Two passes over a disk of zeros write two array CRCs. -/
theorem repatch_changes_disk (hview : MirroredView d (List.replicate 512 0)
    (List.replicate 92 0)) : ∃ out files₁ files₂,
    create_gpt_partition_table plain_settings 0 (sized_partitions [10]) (fun j => j) = .ok out ∧
    run_patches .disk ((2 ^ 37 + 34) * 512) "disk" out.patches
        (Function.update (emitted_files 0 out) "disk" (some d)) = .done files₁ ∧
    run_patches .disk ((2 ^ 37 + 34) * 512) "disk" out.patches files₁ = .done files₂ ∧
    files₁ ≠ files₂ := by
  obtain ⟨out, hout⟩ := plain_run [10] (by decide)
  obtain ⟨entries, hread⟩ := patches_read_as hout (by decide) (by decide) (by decide)
    (show 34 ≤ 2 ^ 37 + 34 by decide) (by decide)
  have hfirst := hview.pass
  have hsecond := hfirst.pass
  have hrun₁ := patch_disk_ops hout (by decide) (by decide) (by decide) hread (by decide)
    (by decide) (by decide) (Function.update_self "disk" (some d) (emitted_files 0 out))
    hview.length
  have hrun₂ := patch_disk_ops hout (by decide) (by decide) (by decide) hread (by decide)
    (by decide) (by decide) (Function.update_self "disk" _
      (Function.update (emitted_files 0 out) "disk" (some d))) hfirst.length
  refine ⟨out, _, _, hout, hrun₁, hrun₂, fun heq => ?_⟩
  -- otherwise the mirrored header would be the same after both passes
  have hdisk := congrFun heq "disk"
  rw [Function.update_self, Function.update_self, Option.some.injEq] at hdisk
  have hsector : mirrored_header (List.replicate 512 0) (List.replicate 92 0)
      = mirrored_header (mirrored_header (List.replicate 512 0) (List.replicate 92 0))
          (List.replicate 92 0) :=
    hfirst.sector.symm.trans ((congrArg (slice · mirrored_sector 512) hdisk).trans
      hsecond.sector)
  have hlen : (mirrored_header (List.replicate 512 0) (List.replicate 92 0)).length = 512 := by
    have hm : mirrored_sector = (2 ^ 37 + 1) * 512 := rfl
    have hd := hfirst.length
    rw [← hfirst.sector, length_slice_of_le (by omega)]
  -- but the CRC of the array in it is not
  have hcrc := congrArg (fun sector => slice sector 88 4) hsector
  rw [slice_mirrored_header List.length_replicate, slice_mirrored_header hlen,
    first_array_crc, second_array_crc] at hcrc
  exact absurd hcrc (by decide)

/-- Any part of a disk of zeros is zeros. -/
theorem slice_replicate_zero {n pos len : ℕ} (h : pos + len ≤ n) :
    slice (List.replicate n (0 : UInt8)) pos len = List.replicate len 0 := by
  rw [slice, List.drop_replicate, List.take_replicate, min_eq_left (by omega)]

end Mirrored

/-- On a disk 34 sectors above 64TB a second pass for the same size changes the
disk. -/
theorem disk_repatch_mirrored : ∃ out files₁ files₂,
    create_gpt_partition_table plain_settings 0 (sized_partitions [10]) (fun j => j) = .ok out ∧
    run_patches .disk ((2 ^ 37 + 34) * 512) "disk" out.patches
        (Function.update (emitted_files 0 out) "disk"
          (some (List.replicate ((2 ^ 37 + 34) * 512) 0))) = .done files₁ ∧
    run_patches .disk ((2 ^ 37 + 34) * 512) "disk" out.patches files₁ = .done files₂ ∧
    files₁ ≠ files₂ :=
  repatch_changes_disk ⟨List.length_replicate, slice_replicate_zero (by decide),
    slice_replicate_zero (by decide)⟩

end AndroidTools.Pipeline
