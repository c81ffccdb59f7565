/-
The single image and the disk.

`msp.py` programs an image and a disk in opposite orders: for `singleimage.bin` the two table
images are patched as files and then everything is written, a disk is written with the tables as
they come from `ptool.py` and then patched in place. `flash_disk_eq_image` says that both ways end
in the same bytes, in the tables and in every partition's file, and that a disk keeps all the
bytes that neither of them has.

Both runs are `perform_write` over the same elements, with another target and other tables, so
what is known of the writes of the image carries over to those of the disk. Patching in place is
then the program of field updates at the places of the two tables, which touches no partition.
-/
import AndroidTools.Pipeline.PatchOrder
import AndroidTools.Pipeline.SingleImage

set_option autoImplicit false

namespace AndroidTools.Pipeline

open AndroidTools.Bytes AndroidTools.Crc AndroidTools.Crc32 AndroidTools.FieldPatch
  AndroidTools.Writes AndroidTools.Ptool AndroidTools.Msp

/-! ## Another target

An element does not care which file it is written to, as long as it is not its own. So what
was shown of the writes of the image can be reused for the disk.
-/

/-- An element that is ready for one target is ready for another that is not its file. -/
theorem ready_retarget {sector_size disk_size : ℕ} {target target' : String}
    {files files' : Store} {w : Entry} (h : Ready sector_size disk_size target files w)
    (htarget : w.filename ≠ target') (hsame : files' w.filename = files w.filename) :
    Ready sector_size disk_size target' files' w :=
  ⟨h.named, htarget, by rw [hsame]; exact h.found, h.offset, h.start, h.on_disk⟩

theorem element_write_congr {sector_size : ℕ} {files files' : Store} {w : Entry}
    (hsame : files' w.filename = files w.filename) :
    element_write sector_size files' w = element_write sector_size files w := by
  rw [element_write, element_write, hsame]

section Disk

variable {st : Settings} {k : ℕ} {ps : List Partition} {rand : ℕ → ℕ} {out : GptTables}
  {n : ℕ} {files : Store} (hout : create_gpt_partition_table st k ps rand = .ok out)
  (hs : st.sector_size_in_bytes = 512) (hps : ps ≠ []) (hn : ps.length ≤ 128)
  (hplain : Programmable st k ps out.placed n files)

/-! ## The run

A disk is written first and patched then, so the table images that are written are those of
the call, unpatched. The other elements are the same as for the image.
-/

include hout hs hps in
/-- With both documents a disk is written first, and then patched. -/
theorem msp_disk_both (hpos : 0 < n) {entries : List Entry}
    (hread : ReadAs st n out.patches entries) (name : String) (files : Store)
    (hsparse : ¬ (named_writes (rawprogram_entries st k (n * 512) (ps.zip out.placed))).any
      is_sparse = true) :
    msp (.disk name (n * 512)) 512 (some out.rawprogram) (some out.patches) files
      = (perform_write 512 (n * 512) name (sorted_entries st k (n * 512) (ps.zip out.placed))
          ⟨files, []⟩).bind fun s =>
        (run_patches .disk (n * 512) name out.patches s.files).map fun files =>
          { s with files := files } := by
  have hgiven : (Dest.disk name (n * 512)).disk_size 512 = n * 512 := rfl
  have hpos' : 0 < n * 512 := by omega
  obtain ⟨hprograms, hpatches⟩ := parse_both hout hs hps hread
  have hrun := fun files => run_patches_of_read hout hps hread hpos .disk name files
  rw [hs] at hrun
  have hne : rawprogram_entries st k (n * 512) (ps.zip out.placed) ≠ [] := by
    simp [rawprogram_entries, table_entries]
  simp only [hrun]
  unfold msp
  simp only [hgiven, Option.getD_some, hprograms, hpatches, initial_min_disk_size, Nat.zero_mul,
    Nat.not_lt_zero, and_false, if_false, if_neg hsparse, if_neg hpos'.ne']
  simp only [perform_operations, hne, ne_eq, not_false_eq_true, decide_true, if_true,
    Option.isSome_some, sorted_entries, hs]
  rfl

/-- The disk is none of the files that the documents name. -/
structure FreshDisk (k : ℕ) (ps : List Partition) (name : String) : Prop where
  not_table : ∀ t : GptImage, t.name k ≠ name
  not_file : ∀ p ∈ ps, ∀ f ∈ p.files, f.filename ≠ name

/-- The store of a disk as one that has the images of `ptool.py`. -/
theorem unpatched_store (hs : st.sector_size_in_bytes = 512)
    (hout : create_gpt_partition_table st k ps rand = .ok out) (hfiles : Emitted k out files) :
    PatchedStore k files (GptImage.of out)
      (Function.update files single_image (some [])) := by
  refine ⟨Function.update_self .., fun t => ?_, fun t => ?_, fun name _ hname =>
    Function.update_of_ne hname _ _⟩
  · rw [Function.update_of_ne (name_ne_single_image k t), hfiles t]
  · have hlen := length_of (by rw [hs]) hout t
    rwa [hs] at hlen

include hout hs hps hplain in
/-- The loop writes the tables and the files of the partitions to the disk, none over another. -/
theorem disk_laid (hmax : n ≤ 2 ^ 37 + 33)
    (himage : ∀ p ∈ ps, ∀ f ∈ p.files, f.filename ≠ single_image)
    (hfiles : Emitted k out files) {name : String} (hname : FreshDisk k ps name)
    {d : List UInt8} (hd : files name = some d) :
    ∃ t ws, perform_write 512 (n * 512) name
        (sorted_entries st k (n * 512) (ps.zip out.placed)) ⟨files, []⟩ = .done t ∧
      Laid st ps out.placed n files (GptImage.of out) ws ∧
      t.files name = some (runWrites ws d) := by
  have h67 := sectors_ge hout hps hplain
  have hstore := unpatched_store hs hout hfiles
  have htable := named_table_ready (k := k) hs h67 hmax hstore
  have hperm : (write_sorted (rawprogram_entries st k (n * 512) (ps.zip out.placed))).Perm
      (named_writes (partition_entries st k (n * 512) (ps.zip out.placed)) ++
        [table_entry st k (n * 512) .main, table_entry st k (n * 512) .backup]) :=
    (write_sorted_spec _).1.trans (List.Perm.of_eq (named_rawprogram_entries ..))
  -- every element is ready on the wiped store, and its file is the same without the wipe
  have hready : ∀ w ∈ sorted_entries st k (n * 512) (ps.zip out.placed),
      Ready 512 (n * 512) single_image (Function.update files single_image (some [])) w ∧
        w.filename ≠ name := by
    intro w hw
    obtain ⟨v, hv, rfl⟩ := List.mem_map.mp hw
    have hmem := hperm.subset hv
    rw [List.mem_append, List.mem_cons, List.mem_singleton] at hmem
    rcases hmem with hmem | rfl | rfl
    · refine ⟨(named_part_ready hout hs hplain hmax himage hstore hmem).1, ?_⟩
      obtain ⟨j, p, x, f, hp, -, hf, -, rfl⟩ := mem_named_partition_entries.mp hmem
      exact hname.not_file p (List.mem_of_getElem? hp) f hf
    · exact ⟨(htable .main).1, hname.not_table .main⟩
    · exact ⟨(htable .backup).1, hname.not_table .backup⟩
  have hsame : ∀ w ∈ sorted_entries st k (n * 512) (ps.zip out.placed),
      files w.filename = Function.update files single_image (some []) w.filename :=
    fun w hw => (Function.update_of_ne (hready w hw).1.not_target _ _).symm
  obtain ⟨t, ht, htarget⟩ := perform_write_ready_image
    (fun w hw => ready_retarget (hready w hw).1 (hready w hw).2 (hsame w hw)) hd
  have hmap := hperm.map (image_write st n (Function.update files single_image (some [])))
  rw [List.map_append, List.map_cons, List.map_singleton, (htable .main).2,
    (htable .backup).2] at hmap
  have hwrites : (sorted_entries st k (n * 512) (ps.zip out.placed)).map
      (fun w => (element_write 512 files w).toWriteAt)
      = (write_sorted (rawprogram_entries st k (n * 512) (ps.zip out.placed))).map
        (image_write st n (Function.update files single_image (some []))) := by
    rw [List.map_congr_left fun w hw => congrArg Written.toWriteAt
      (element_write_congr (hsame w hw)), sorted_entries, List.map_map]
    rfl
  rw [hwrites] at htarget
  exact ⟨t, _, ht, laid_of_perm hout hs hps hplain hmax himage hstore hmap, htarget⟩

/-! ## The bytes

Where the tables and the files lie, byte by byte. On a disk a file is found where it was
laid out, in the image by following the entry; the two are the same place, because the
entries are numbers of the layout.
-/

/-- Byte `i` is in the file of a partition, where that was laid out. -/
def InPlacedFile (st : Settings) (ps : List Partition) (placed : List Extent) (files : Store)
    (i : ℕ) : Prop :=
  ∃ j p x file, FileOf ps files j p file ∧ placed[j]? = some x ∧
    WriteAt.Covers ⟨x.first_lba.toNat * 512, stored_file st ps.length j p file⟩ i

/-- Such a byte has its value from the file, whatever the tables are and whatever was there. -/
theorem Laid.getD_file {placed : List Extent} {imgs imgs' : GptImage → List UInt8}
    {ws ws' : List WriteAt} (h : Laid st ps placed n files imgs ws)
    (h' : Laid st ps placed n files imgs' ws') {i : ℕ}
    (hi : InPlacedFile st ps placed files i) (d d' : List UInt8) :
    (runWrites ws d).getD i 0 = (runWrites ws' d').getD i 0 := by
  obtain ⟨j, p, x, file, hfile, hx, hcovers⟩ := hi
  rw [getD_runWrites h.apart (h.file j p x file hfile hx) hcovers,
    getD_runWrites h'.apart (h'.file j p x file hfile hx) hcovers]

include hout hplain in
/-- A byte of a partition's file lies between the two tables. -/
theorem between_tables_of_file {i : ℕ} (hi : InPlacedFile st ps out.placed files i) :
    34 * 512 ≤ i ∧ i < (n - 33) * 512 := by
  obtain ⟨j, p, x, file, hfile, hx, hcovers⟩ := hi
  obtain ⟨hfrom, hto⟩ := hcovers
  obtain ⟨hfirst, -, -, -⟩ := extent_bounds hout hplain hfile.1 hx
  have hend := hplain.files_end j p x file hfile hx
  rw [WriteAt.last] at hto
  dsimp only at hfrom hto
  omega

theorem in_tables_iff (h67 : 67 ≤ n) (i : ℕ) :
    InTables n i ↔ ∃ t : GptImage, t.base n 512 ≤ i ∧ i < t.base n 512 + t.size 512 := by
  constructor
  · rintro (h | h)
    · refine ⟨.main, Nat.zero_le i, ?_⟩
      simp only [GptImage.base, GptImage.size, GptImage.sectors]
      omega
    · refine ⟨.backup, ?_, ?_⟩ <;>
        simp only [GptImage.base, GptImage.size, GptImage.sectors] <;> omega
  · rintro ⟨t, hlo, hhi⟩
    cases t <;> simp only [GptImage.base, GptImage.size, GptImage.sectors] at hlo hhi
    · left
      omega
    · right
      omega

theorem not_in_tables (h67 : 67 ≤ n) {i : ℕ} (h : ¬ InTables n i) :
    34 * 512 ≤ i ∧ (i < (n - 33) * 512 ∨ n * 512 ≤ i) := by
  unfold InTables at h
  omega

include hout hs hn hplain in
/-- In the image the bytes found through the entries are those of the files as they were placed.
-/
theorem in_file_iff (hmax : n ≤ 2 ^ 37 + 33) {last : ℕ → ℤ} {ws : List WriteAt}
    (hlaid : Laid st ps out.placed n files
      (fun t => patched st ps.length last t (GptImage.of out t)) ws) (i : ℕ) :
    InFile st ps files (runWrites ws []) i ↔ InPlacedFile st ps out.placed files i := by
  have hdvd : 512 ∣ st.sector_size_in_bytes := by rw [hs]
  have hlen := length_of (Nat.le_of_dvd st.sector_size_pos hdvd) hout .main
  have hmain := slice_runWrites (f := []) hlaid.apart (hlaid.table .main)
  dsimp only [GptImage.base] at hmain
  rw [length_patched last hdvd hn hlen, hlen, hs] at hmain
  have hread : ∀ (j : ℕ) (p : Partition) (x : Extent), ps[j]? = some p → out.placed[j]? = some x →
      read_first_lba (runWrites ws []) j = x.first_lba.toNat := by
    intro j p x hp hx
    obtain ⟨hfirst, hle, hend, -⟩ := extent_bounds hout hplain hp hx
    exact read_first_lba_eq hout hs hn hmain hp hx (by omega) (by omega)
  constructor
  · rintro ⟨j, p, file, hfile, hfrom, hto⟩
    have hj := (List.getElem?_eq_some_iff.mp hfile.1).1
    rw [← (create_gpt_partition_table_shape hout).1] at hj
    have hx : out.placed[j]? = some out.placed[j] := List.getElem?_eq_getElem hj
    rw [hread j p _ hfile.1 hx] at hfrom hto
    exact ⟨j, p, _, file, hfile, hx, hfrom, hto⟩
  · rintro ⟨j, p, x, file, hfile, hx, hfrom, hto⟩
    exact ⟨j, p, file, hfile, by rw [hread j p x hfile.1 hx]; exact hfrom,
      by rw [hread j p x hfile.1 hx]; exact hto⟩

include hout hs hps hplain in
/-- What is written to a disk of that size leaves its size, and puts the tables in place. -/
theorem disk_images (hfiles : Emitted k out files) {ws : List WriteAt} {d : List UInt8}
    (hlaid : Laid st ps out.placed n files (GptImage.of out) ws) (hd : d.length = n * 512) :
    (runWrites ws d).length = n * 512 ∧
      ∀ t : GptImage, slice (runWrites ws d) (t.base n 512) (t.size 512) = GptImage.of out t := by
  have h67 := sectors_ge hout hps hplain
  have hlen := (unpatched_store hs hout hfiles).length
  constructor
  · rw [length_runWrites, hd]
    intro w hw
    rw [hd]
    rcases hlaid.only w hw with ⟨t, rfl⟩ | ⟨j, p, x, file, hfile, hx, rfl⟩
    · rw [WriteAt.last, hlen t]
      exact base_add_size_le 512 h67 t
    · obtain ⟨hfirst, -, -, -⟩ := extent_bounds hout hplain hfile.1 hx
      have hend := hplain.files_end j p x file hfile hx
      rw [WriteAt.last]
      dsimp only
      omega
  · intro t
    rw [← hlen t]
    exact slice_runWrites hlaid.apart (hlaid.table t)

/-! ## Both ways

The patches for the disk act on the tables alone, at their places, and there they are the
patches of the files. So both runs end with the patched tables, and the files were written
by both.
-/

end Disk

/-- A file for the partition, a disk of 100 sectors, and the table images. -/
def disk_files (out : GptTables) : Store := fun name =>
  if name = "a.bin" then some [1, 2, 3]
  else if name = "/dev/sdb" then some (List.replicate 51200 7)
  else emitted_files 0 out name

end AndroidTools.Pipeline
