/-
An image of a given size, `-d N`.

The size is checked against `MinDiskSizeInSectors` before that has been computed, so the check
refuses nothing. What is left is `PerformWrite`'s own look at each start sector, when the
elements before it have already been written, and nobody looks at where an element ends. So a
run is as it should be if it leaves at an element before a byte has been written, or if every
file, as it is written, happens to fit.

Both are conditions on the document and the files. Where the run leaves is seen from the start
sectors and from which files are there, and where it writes from the numbers of the elements and
the lengths of their files, without following the contents of the image.
-/
import AndroidTools.Pipeline.AutoSize
import AndroidTools.Ptool.GptImage

set_option autoImplicit false

namespace AndroidTools.Pipeline

open AndroidTools.Writes AndroidTools.Ptool AndroidTools.Msp

/-! ## Refused, or inside the disk

The good outcomes are two: the run leaves and the image is untouched, or it ends and every
write is where it should be. Both are read off the list of elements, the first from the
elements before the one at which the run leaves, the second from the lengths of the files.
-/

/-- The bytes are on a disk of `n` sectors, and those of a partition's file not in its last 33. -/
def InsideDisk (sector_size n : ℕ) (partition_files : List Entry) (v : Written) : Prop :=
  ∀ i, v.Covers i → i < n * sector_size ∧ (v.element ∈ partition_files →
    ¬ ((n : ℤ) - 33 ≤ (i / sector_size : ℕ) ∧ ((i / sector_size : ℕ) : ℤ) ≤ n - 1))

/-- The run left and did not touch the image, or it ended and wrote inside the disk. -/
def RefusedOrFits (sector_size n : ℕ) (files : Store) (partition_files : List Entry)
    (r : Run WriteState) : Prop :=
  (∃ t, r = .exit t ∧ t.files single_image = files single_image ∧ ∀ v ∈ t.writes, v.bytes = []) ∨
    ∃ t, r = .done t ∧ ∀ v ∈ t.writes, InsideDisk sector_size n partition_files v

/-- Every file, cut and padded as it is written, ends on the disk, and that of a partition before
the last 33 sectors. It is a condition on the elements and on the lengths of their files. -/
def FilesInside (sector_size n : ℕ) (partition_files : List Entry)
    (writes_at : Entry → ℕ → Prop) : Prop :=
  ∀ w length, writes_at w length → write_end sector_size w length ≤ n * sector_size ∧
    (w ∈ partition_files → (write_end sector_size w length : ℤ) ≤ (n - 33) * sector_size)

section Fits

variable {sector_size disk_size n : ℕ} {partition_files l : List Entry} {s : WriteState}

/-- The trace is inside the disk exactly if the files are. -/
theorem inside_disk_iff (hs : 0 < sector_size) (hnames : ∀ w ∈ l, w.filename ≠ "")
    (hwrites : s.writes = []) :
    (∀ v ∈ (perform_write sector_size disk_size single_image l s).state.writes,
        InsideDisk sector_size n partition_files v) ↔
      FilesInside sector_size n partition_files
        (WritesAt sector_size disk_size single_image l s.files) := by
  have hiff := fun w =>
    @exists_write_at_iff sector_size disk_size single_image s w hs l hnames hwrites
  -- a byte before the end of the disk is in none of its last sectors if it is before them
  have hbefore : ∀ i : ℕ, ((i / sector_size : ℕ) : ℤ) < (n : ℤ) - 33 ↔
      (i : ℤ) < ((n : ℤ) - 33) * sector_size := by
    intro i
    rw [Int.natCast_div, Int.ediv_lt_iff_lt_mul (by omega)]
  constructor
  · intro h w length hw
    have hlt := hw.writes_byte.position_lt hs
    obtain ⟨v, hv, -, rfl, hposition, hlast⟩ := (hiff w).mp ⟨length, hw, rfl, rfl⟩
    rw [← hposition, ← hlast] at hlt
    obtain ⟨hdisk, hpart⟩ := h v hv (v.last - 1) ⟨by omega, by omega⟩
    rw [← hlast]
    refine ⟨by omega, fun hw => ?_⟩
    have hsector : (v.last - 1) / sector_size < n := (Nat.div_lt_iff_lt_mul hs).mpr hdisk
    have hout := (hbefore (v.last - 1)).mp (by
      by_contra hge
      exact hpart hw ⟨not_lt.mp hge, by omega⟩)
    omega
  · intro h v hv i hi
    have hne : v.bytes ≠ [] := by
      intro hnil
      have hlast := hi.2
      rw [WriteAt.last, hnil, List.length_nil] at hlast
      exact absurd hi.1 (by omega)
    obtain ⟨length, hw, -, hlast⟩ := (hiff v.element).mpr ⟨v, hv, hne, rfl, rfl, rfl⟩
    obtain ⟨hdisk, hpart⟩ := h v.element length hw
    rw [← hlast] at hdisk hpart
    have hcovered := hi.2
    refine ⟨by omega, fun hw hin => ?_⟩
    have hbound := hpart hw
    have := (hbefore i).mpr (by omega)
    omega

/-- **What `PerformWrite` does on a wiped image.** It leaves without a byte written and the image
as it was, which then was empty already, or it ends and every file is inside. -/
theorem perform_write_refused_or_fits_iff (hs : 0 < sector_size) {files : Store}
    (hnames : ∀ w ∈ l, w.filename ≠ "") :
    RefusedOrFits sector_size n files partition_files (perform_write sector_size disk_size
        single_image l ⟨Function.update files single_image (some []), []⟩) ↔
      files single_image = some [] ∧ StopsFirst sector_size disk_size single_image l
          ⟨Function.update files single_image (some []), []⟩ ∨
      (∀ w ∈ l, ¬ Stops sector_size disk_size (Function.update files single_image (some [])) w) ∧
        FilesInside sector_size n partition_files (WritesAt sector_size disk_size single_image l
          (Function.update files single_image (some []))) := by
  set s : WriteState := ⟨Function.update files single_image (some []), []⟩ with hs'
  have himage : s.files single_image = some [] :=
    Function.update_self single_image (some []) files
  have hdone := @perform_write_done_iff sector_size disk_size single_image s hs l hnames
    (by rw [himage]; rfl)
  have hexit := @perform_write_exit_iff sector_size disk_size single_image s hs l hnames
    (by rw [himage]; rfl) (fun v hv => absurd hv List.not_mem_nil)
  have hinside := @inside_disk_iff sector_size disk_size n partition_files l s hs hnames rfl
  have hafter := @perform_write_image sector_size disk_size single_image s l [] himage rfl
  -- what is left is about the one run, which exits or is done
  rw [← hdone, ← hexit, ← hinside]
  cases hrun : perform_write sector_size disk_size single_image l s with
  | exit t =>
    rw [hrun, Run.state_exit] at hafter
    -- a refused run has already emptied the image
    have hwiped : (∀ v ∈ t.writes, v.bytes = []) → t.files single_image = some [] := by
      intro hquiet
      rw [hafter, Function.update_self, runWrites_of_empty]
      intro v hv
      obtain ⟨v', hv', rfl⟩ := List.mem_map.mp hv
      exact hquiet v' hv'
    constructor
    · rintro (⟨u, hu, hsame, hquiet⟩ | ⟨u, hu, -⟩)
      · obtain rfl := Run.exit.inj hu
        exact Or.inl ⟨hsame.symm.trans (hwiped hquiet), t, rfl, hquiet⟩
      · cases hu
    · rintro (⟨hempty, u, hu, hquiet⟩ | ⟨⟨u, hu⟩, -⟩)
      · obtain rfl := Run.exit.inj hu
        exact Or.inl ⟨t, rfl, (hwiped hquiet).trans hempty.symm, hquiet⟩
      · cases hu
  | done t =>
    constructor
    · rintro (⟨u, hu, -⟩ | ⟨u, hu, hall⟩)
      · cases hu
      · obtain rfl := Run.done.inj hu
        exact Or.inr ⟨⟨t, rfl⟩, hall⟩
    · rintro (⟨-, u, hu, -⟩ | ⟨-, hall⟩)
      · cases hu
      · exact Or.inr ⟨t, rfl, hall⟩

end Fits

/-! ## The whole run

Around the loop stands the rest of the program: the check of the size, the sparse elements,
the image that is wiped. With an element marked sparse the run leaves before it has touched
anything.
-/

/-- The dictionaries of the partitions' files when the disk size is known. -/
def partition_files (st : Settings) (k disk_size : ℕ) (placed : List (Partition × Extent)) :
    List Entry :=
  (partition_entries st k disk_size placed).map
    (replace_disk_size disk_size st.sector_size_in_bytes)

/-- `WriteSorted` when the disk size is known from the arguments. -/
def sorted_entries (st : Settings) (k disk_size : ℕ) (placed : List (Partition × Extent)) :
    List Entry :=
  (write_sorted (rawprogram_entries st k disk_size placed)).map
    (replace_disk_size disk_size st.sector_size_in_bytes)

/-- **Too small a disk**: the run leaves the image alone or keeps inside the disk exactly if a
file is marked as sparse, or it leaves before a byte is written and there was an empty image
already, or no element makes it leave and all files fit. -/
theorem refused_or_fits_iff (st : Settings) (k : ℕ) (ps : List Partition) (rand : ℕ → ℕ)
    (out : GptTables) (n : ℕ) (files : Store)
    (hout : create_gpt_partition_table st k ps rand = .ok out) (hn : 0 < n) :
    let placed := ps.zip out.placed
    let sector_size := st.sector_size_in_bytes
    let wiped : WriteState := ⟨Function.update files single_image (some []), []⟩
    let sorted := sorted_entries st k (n * 512) placed
    RefusedOrFits sector_size n files (partition_files st k (n * 512) placed)
        (msp (.sectors n) 512 (some out.rawprogram) none files) ↔
      (∃ w ∈ named_writes (rawprogram_entries st k (n * 512) placed), is_sparse w) ∨
      files single_image = some [] ∧ StopsFirst sector_size (n * 512) single_image sorted wiped ∨
      (∀ w ∈ sorted, ¬ Stops sector_size (n * 512) wiped.files w) ∧
        FilesInside sector_size n (partition_files st k (n * 512) placed)
          (WritesAt sector_size (n * 512) single_image sorted wiped.files) := by
  intro placed sector_size wiped sorted
  rw [msp_image hout (by omega)]
  by_cases hsparse : (named_writes (rawprogram_entries st k (n * 512) placed)).any is_sparse = true
  · rw [if_pos hsparse]
    rw [List.any_eq_true] at hsparse
    exact iff_of_true (Or.inl ⟨⟨files, []⟩, rfl, rfl, fun v hv => absurd hv List.not_mem_nil⟩)
      (Or.inl hsparse)
  · have hwrite := @perform_write_refused_or_fits_iff st.sector_size_in_bytes (n * 512) n
      (partition_files st k (n * 512) placed) _ st.sector_size_pos files
      (named_real_entries st k (n * 512) (n * 512) placed)
    rw [if_neg hsparse]
    rw [List.any_eq_true] at hsparse
    exact hwrite.trans ⟨Or.inr, fun h => h.resolve_left hsparse⟩

/-! ## A disk that ends where the partition starts

A disk of 34 sectors and a partition from sector 34 on. Nothing refuses it.
-/

theorem create_fixed_partition : ∃ out,
    create_gpt_partition_table plain_settings 0 system_partition (fun j => j) = .ok out ∧
      out.placed = [⟨34, 35⟩] := by
  have husable : SettingsUsable plain_settings system_partition :=
    ⟨by decide, by decide, by decide⟩
  obtain ⟨out, hout⟩ := create_gpt_partition_table_total (by decide) 0 (fun j => j) husable
    (by decide) (by decide)
  have heval : layout_partitions plain_settings 1 0 system_partition
      ⟨34, 34, 0, initial_wp_hash plain_settings⟩
      = .ok (⟨36, 36, 0, initial_wp_hash plain_settings⟩, [⟨34, 35⟩]) := rfl
  exact ⟨out, hout, placed_of_layout hout rfl heval⟩

theorem refused_or_fits_iff_fixed : ∃ out,
    create_gpt_partition_table plain_settings 0 system_partition (fun j => j) = .ok out ∧
      (RefusedOrFits 512 34 (system_files out)
          (partition_files plain_settings 0 (34 * 512) (system_partition.zip out.placed))
          (msp (.sectors 34) 512 (some out.rawprogram) none (system_files out)) ↔
        (∃ w ∈ named_writes (rawprogram_entries plain_settings 0 (34 * 512)
          (system_partition.zip out.placed)), is_sparse w) ∨
        system_files out single_image = some [] ∧
          StopsFirst 512 (34 * 512) single_image
            (sorted_entries plain_settings 0 (34 * 512) (system_partition.zip out.placed))
            ⟨Function.update (system_files out) single_image (some []), []⟩ ∨
        (∀ w ∈ sorted_entries plain_settings 0 (34 * 512) (system_partition.zip out.placed),
            ¬ Stops 512 (34 * 512)
              (Function.update (system_files out) single_image (some [])) w) ∧
          FilesInside 512 34
            (partition_files plain_settings 0 (34 * 512) (system_partition.zip out.placed))
            (WritesAt 512 (34 * 512) single_image
              (sorted_entries plain_settings 0 (34 * 512) (system_partition.zip out.placed))
              (Function.update (system_files out) single_image (some [])))) := by
  obtain ⟨out, hout, -⟩ := create_fixed_partition
  exact ⟨out, hout, refused_or_fits_iff plain_settings 0 system_partition (fun j => j) out 34
    (system_files out) hout (by decide)⟩

/-- The dictionary of the file, whose start is the first sector behind the disk. -/
def fixed_entry : Entry := program_entry plain_settings 0 (34 * 512) 34 0 2 "system.img" "false"

theorem fixed_sorted :
    sorted_entries plain_settings 0 (34 * 512) (system_partition.zip [⟨34, 35⟩])
      = [program_entry plain_settings 0 (34 * 512) 0 0 34 (gpt_main 0) "false",
          program_entry plain_settings 0 (34 * 512) (-33) 0 33 (gpt_backup 0) "false",
          fixed_entry] := by
  decide +kernel

/-- The run ends, and the file is written behind the disk. -/
theorem fixed_not_refused_or_fits : ∃ out,
    create_gpt_partition_table plain_settings 0 system_partition (fun j => j) = .ok out ∧
      ¬ RefusedOrFits 512 34 (system_files out)
        (partition_files plain_settings 0 (34 * 512) (system_partition.zip out.placed))
        (msp (.sectors 34) 512 (some out.rawprogram) none (system_files out)) := by
  obtain ⟨out, hout, hplaced⟩ := create_fixed_partition
  have hsparse : ¬ (named_writes (rawprogram_entries plain_settings 0 (34 * 512)
      (system_partition.zip [⟨34, 35⟩]))).any is_sparse = true := by decide +kernel
  obtain ⟨t, ht, hwrites⟩ := @system_run out (34 * 512)
    [program_entry plain_settings 0 (34 * 512) 0 0 34 (gpt_main 0) "false",
      program_entry plain_settings 0 (34 * 512) (-33) 0 33 (gpt_backup 0) "false", fixed_entry]
    (by decide)
  have hrun : msp (.sectors 34) 512 (some out.rawprogram) none (system_files out) = .done t := by
    rw [msp_image hout (by decide), hplaced, if_neg hsparse]
    -- the run goes through the three writes in the order sorted
    have hsorted := fixed_sorted
    rw [sorted_entries] at hsorted
    rw [program_image]
    exact (congrArg (fun l => perform_write 512 (34 * 512) single_image l _) hsorted).trans ht
  refine ⟨out, hout, ?_⟩
  rw [hrun]
  rintro (⟨u, hu, -⟩ | ⟨u, hu, hinside⟩)
  · cases hu
  · obtain rfl := Run.done.inj hu
    -- the second sector of the partition lies behind the last one of the disk
    have hwrite := @system_write out fixed_entry (1 :: List.replicate 511 0) rfl (by decide +kernel)
    rw [hwrites] at hinside
    have hdisk := (hinside _ (List.mem_cons_of_mem _
      (List.mem_cons_of_mem _ List.mem_cons_self)) (34 * 512) (by
        rw [hwrite]
        exact ⟨by decide +kernel, by decide +kernel⟩)).1
    exact absurd hdisk (by decide)

end AndroidTools.Pipeline
