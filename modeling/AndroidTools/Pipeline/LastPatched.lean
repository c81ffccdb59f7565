/-
When the size of the last logical partition is patched right.

The sectors patched are those of the last EBR if a sector has 512 bytes. What is written there is
a length from one sector behind the start the partition had before it was moved, and the record
has the start after the move: with a move by more than one sector the partition ends past the end
of the disk. A length that is written has 32 bits, so what a larger number loses has to be made up
by the move as well.

`patched_last_iff` has two halves. One is about positions: the patches go to the last record of
each image exactly if sectors have 512 bytes and no sector number is mirrored (`positions_iff`).
The other is about the record that is there then: its start comes from the layout, its size from
the patch, and `reaches_patched` says when the two make up the rest of the disk.
-/
import AndroidTools.Pipeline.MbrPatches

set_option autoImplicit false

namespace AndroidTools.Pipeline

open AndroidTools.Bytes AndroidTools.BootRecord AndroidTools.Crc32 AndroidTools.FieldPatch
  AndroidTools.Ptool AndroidTools.Msp

/-! ## Where a patch goes

The property, on the documents as they are: every patch for the size goes to the record of
the last partition, and what the record says then reaches the end of the disk, or one sector
less. The patches for the size are told from the others by their text.
-/

/-- The byte a patch is written to on a disk of `disk_size` bytes. -/
def patched_position (disk_size : ℕ) (e : XmlElement) : Option ℤ :=
  (return_parsed_values disk_size e).map fun r =>
    (replace_disk_size disk_size r.2 r.1).start_sector * r.2 + r.1.byte_offset

theorem patched_position_element {st : Settings} {k disk_sectors : ℕ} {e : XmlElement} {q : Patch}
    (h : PatchElement st k e q) (hd : 0 < disk_sectors) (hq : q.Small disk_sectors) :
    patched_position (disk_sectors * st.sector_size_in_bytes) e
      = some (q.sector.actual disk_sectors (max_sectors st.sector_size_in_bytes)
          * st.sector_size_in_bytes + q.offset) := by
  obtain ⟨what, hwhat⟩ := parse_element h hd hq
  have hdiv : disk_sectors * st.sector_size_in_bytes / st.sector_size_in_bytes = disk_sectors :=
    Nat.mul_div_cancel _ st.sector_size_pos
  rw [patched_position, hwhat, Option.map_some]
  simp only [replace_disk_size, hdiv]
  rfl

/-- The text by which the patches for the size are told from the others. -/
def size_text : String := "Update last partition with actual size."

/-- Where the EBRs begin in a file a patch can name. -/
def ebr_base (st : MbrSettings) (k : ℕ) (out : MbrTables) (filename : String) : ℤ :=
  if filename = "DISK" then out.extended_partition_begins * st.sector_size_in_bytes
  else if filename = partition_bin k then st.sector_size_in_bytes
  else 0

/-- The last logical partition, as its record has it, ends at the end of the disk or a sector
before. -/
def Reaches (n disk_sectors : ℕ) (out : MbrTables) (r : Record) : Prop :=
  (disk_sectors : ℤ) - 1 ≤ out.extended_partition_begins + (n - 4 : ℕ) + r.start + r.size ∧
    out.extended_partition_begins + (n - 4 : ℕ) + r.start + r.size ≤ disk_sectors

/-- The size of the last of `n` partitions is patched where its record is, and to what is left
of a disk of `disk_sectors`. -/
structure PatchedLast (st : MbrSettings) (k n disk_sectors : ℕ) (out : MbrTables) : Prop where
  fields : ∀ e ∈ out.patches, e.getD "what" "" = size_text →
    patched_position (disk_sectors * st.sector_size_in_bytes) e
      = some (ebr_base st k out (e.getD "filename" "") + last_record n + 12)
  files : ∀ (target : String) (files : Store), (∀ t, files (BootImage.name k t) = some (t.of out)) →
    ∃ files' a b, run_patches .files (disk_sectors * st.sector_size_in_bytes) target out.patches
        files = .done files' ∧
      files' (partition_bin k) = some a ∧ files' (ebr_bin k) = some b ∧
      Reaches n disk_sectors out
        (Record.of_bytes (slice a (st.sector_size_in_bytes + last_record n) 16)) ∧
      Reaches n disk_sectors out (Record.of_bytes (slice b (last_record n) 16))
  disk : ∀ (target : String) (files : Store) (d : List UInt8), files target = some d →
    d.length = disk_sectors * st.sector_size_in_bytes →
    slice d (out.extended_partition_begins.toNat * st.sector_size_in_bytes) out.ebr.length
      = out.ebr →
    ∃ d', run_patches .disk (disk_sectors * st.sector_size_in_bytes) target out.patches files
        = .done (Function.update files target (some d')) ∧
      Reaches n disk_sectors out (Record.of_bytes (slice d'
        (out.extended_partition_begins.toNat * st.sector_size_in_bytes + last_record n) 16))

/-- The sectors lost where the start and the size of the last partition do not go into their
four bytes, or the size is taken for a gigantic number. -/
def lost_sectors (st : MbrSettings) (ps : List MbrPartition) (disk_sectors : ℕ) (p : MbrPartition)
    (c : MbrCursor) : ℤ :=
  let start := last_start st p c - extended_begins st ps - (ps.length - 4 : ℕ)
  let size := (disk_sectors : ℤ) - (c.first_lba + 1)
  (start - start % 2 ^ 32)
    + (size - real_value disk_sectors (max_sectors st.sector_size_in_bytes) size % 2 ^ 32)

/-- When the last partition is patched right: a sector has 512 bytes, none of the sector numbers
of the patches is mirrored, and the partition was moved by the sectors that its numbers lost, or
by one more. -/
structure SizeFits (st : MbrSettings) (ps : List MbrPartition) (disk_sectors : ℕ)
    (p : MbrPartition) (c : MbrCursor) : Prop where
  sector_size : st.sector_size_in_bytes = 512
  near_partition : Near st disk_sectors (ps.length - 3 : ℕ)
  near_ebr : Near st disk_sectors (ps.length - 4 : ℕ)
  near_disk : Near st disk_sectors (extended_begins st ps + (ps.length - 4 : ℕ))
  moved_ge : lost_sectors st ps disk_sectors p c ≤ last_move st p c
  moved_le : last_move st p c ≤ lost_sectors st ps disk_sectors p c + 1

/-! ## The positions

The patch has byte 0x1CA of a sector, and an EBR has its first size there when it takes a
sector, which is 512 bytes in the images. With larger sectors the patch goes to another
place of the file.
-/

/-- The patches for the size, in numbers: one for each of two images and one for the disk. -/
def size_patches (k m b f : ℕ) : List Patch :=
  [⟨partition_bin k, .front (m + 1), 0x1CA, 4, .sector (.back (f + 1))⟩,
    ⟨ebr_bin k, .front m, 0x1CA, 4, .sector (.back (f + 1))⟩,
    ⟨"DISK", .front (b + m), 0x1CA, 4, .sector (.back (f + 1))⟩]

section Positions

variable {st : MbrSettings} {k m b f n disk_sectors : ℕ} {out : MbrTables}

theorem size_elements : List.Forall₂ (PatchElement st.toSettings k)
    ((boot_patches st k m b f).filter (·.getD "what" "" = size_text)) (size_patches k m b f) := by
  have hone : (f : ℤ) + 1 = ((f + 1 : ℕ) : ℤ) := by omega
  have hebr : ((m + 1 : ℕ) : ℤ) - 1 = (m : ℕ) := by omega
  have hdisk : (b : ℤ) + ((m + 1 : ℕ) : ℤ) - 1 = ((b + m : ℕ) : ℤ) := by omega
  have hother : ¬ "Update MBR with the length of the EXT Partition." = size_text := by decide
  have hsize : "Update last partition with actual size." = size_text := rfl
  simp only [boot_patches, extended_patches, last_logical_patches, List.cons_append,
    List.nil_append, List.filter_cons, List.filter_nil, update_patch_what, hother, hsize,
    decide_false, Bool.false_eq_true, if_false, decide_true, if_true, hone, hebr, hdisk]
  refine .cons ?_ (.cons ?_ (.cons ?_ .nil))
  · exact patch_element (front_text rfl) rfl (back_value (till_end_natCast (f + 1)))
  · exact patch_element (front_text rfl) rfl (back_value (till_end_natCast (f + 1)))
  · exact patch_element (front_text rfl) rfl (back_value (till_end_natCast (f + 1)))

theorem size_patches_small : ∀ q ∈ size_patches k m b f, q.Small disk_sectors := by
  simp only [size_patches, List.forall_mem_cons, List.not_mem_nil, false_implies, implies_true,
    and_true]
  exact ⟨sector_small (by decide), sector_small (by decide), sector_small (by decide)⟩

/-- The elements of the document go to the records exactly if the patches they stand for do. -/
theorem fields_iff (hd : 0 < disk_sectors) (hpatches : out.patches = boot_patches st k m b f) :
    (∀ e ∈ out.patches, e.getD "what" "" = size_text →
      patched_position (disk_sectors * st.sector_size_in_bytes) e
        = some (ebr_base st k out (e.getD "filename" "") + last_record n + 12)) ↔
    ∀ q ∈ size_patches k m b f,
      q.sector.actual disk_sectors (max_sectors st.sector_size_in_bytes) * st.sector_size_in_bytes
        + q.offset = ebr_base st k out q.filename + last_record n + 12 := by
  -- the text of a patch is read as the position that its patch has
  have hposition : ∀ e q, PatchElement st.toSettings k e q → q ∈ size_patches k m b f →
      e.getD "filename" "" = q.filename ∧
        patched_position (disk_sectors * st.sector_size_in_bytes) e
          = some (q.sector.actual disk_sectors (max_sectors st.sector_size_in_bytes)
              * st.sector_size_in_bytes + q.offset) := by
    intro e q h hq
    refine ⟨?_, patched_position_element h hd (size_patches_small q hq)⟩
    obtain ⟨start_sector, value, what, -, -, rfl⟩ := h.text
    exact update_patch_filename ..
  have hfilter : ∀ e, e ∈ (boot_patches st k m b f).filter (·.getD "what" "" = size_text) ↔
      e ∈ out.patches ∧ e.getD "what" "" = size_text := by
    intro e
    rw [hpatches, List.mem_filter, decide_eq_true_eq]
  constructor
  · intro h q hq
    obtain ⟨e, he, hR⟩ := exists_left size_elements hq
    obtain ⟨hname, hpos⟩ := hposition e q hR hq
    have hsome := h e ((hfilter e).mp he).1 ((hfilter e).mp he).2
    rw [hpos, hname] at hsome
    exact Option.some.inj hsome
  · intro h e he hwhat
    obtain ⟨q, hq, hR⟩ := exists_left size_elements.flip ((hfilter e).mpr ⟨he, hwhat⟩)
    obtain ⟨hname, hpos⟩ := hposition e q hR hq
    rw [hpos, hname, h q hq]

/-- **The sectors patched are the sectors of the EBR** when a sector has 512 bytes and their
numbers are not mirrored. -/
theorem positions_iff (hn : n = m + 4) (hm : 0 < m)
    (hbegins : out.extended_partition_begins = b) :
    (∀ q ∈ size_patches k m b f,
      q.sector.actual disk_sectors (max_sectors st.sector_size_in_bytes) * st.sector_size_in_bytes
        + q.offset = ebr_base st k out q.filename + last_record n + 12) ↔
    st.sector_size_in_bytes = 512 ∧ Near st disk_sectors ((m + 1 : ℕ) : ℤ) ∧
      Near st disk_sectors (m : ℤ) ∧ Near st disk_sectors ((b + m : ℕ) : ℤ) := by
  have hpartition : partition_bin k ≠ "DISK" := boot_name_ne_disk k .partition
  have hebr : ebr_bin k ≠ "DISK" := boot_name_ne_disk k .ebr
  have hne : ebr_bin k ≠ partition_bin k := by
    intro h
    have := @boot_name_injective k .ebr .partition h
    cases this
  have hpos := st.sector_size_pos
  have hlast : (last_record n : ℤ) = 512 * m + 446 := by
    rw [last_record, hn, Nat.add_sub_cancel]
    push_cast
    rfl
  simp only [size_patches, List.forall_mem_cons, List.not_mem_nil, false_implies, implies_true,
    and_true, ebr_base, hpartition, hebr, hne, if_true, if_false, hbegins, hlast, Near,
    Sector.actual, Sector.resolve]
  generalize (max_sectors st.sector_size_in_bytes : ℤ) = max
  generalize st.sector_size_in_bytes = size at hpos ⊢
  push_cast
  constructor
  · rintro ⟨hpart, hebr, hdisk⟩
    -- were the EBR's number mirrored, the next one would be too, one below it
    have hnear : real_value disk_sectors max m = m := by
      rw [real_value]
      split_ifs with hfar
      · exfalso
        rw [real_value, if_pos hfar] at hebr
        rw [real_value, if_pos (by omega)] at hpart
        have hdiff : ((disk_sectors : ℤ) - ((m : ℤ) + 1 - max)) * size
            = ((disk_sectors : ℤ) - ((m : ℤ) - max)) * size - size := by ring
        omega
      · rfl
    rw [hnear] at hebr
    have hsize : (size : ℤ) = 512 := by
      have hmul : (m : ℤ) * size = m * 512 := by omega
      exact mul_left_cancel₀ (by omega) hmul
    rw [hsize] at hpart hdisk
    exact ⟨by omega, by omega, hnear, by omega⟩
  · rintro ⟨rfl, hpart, hebr, hdisk⟩
    rw [hpart, hebr, hdisk]
    push_cast
    refine ⟨?_, ?_, ?_⟩ <;> ring

end Positions

/-! ## The last record

The start in the record is the one after the last move, and the size that is patched in was
computed before it. What the two make together depends on that move alone, and on what does
not go into four bytes.
-/

section Last

variable {st : MbrSettings} {k : ℕ} {ps : List MbrPartition} {out : MbrTables} {c : MbrCursor}
  {p : MbrPartition} {x : MbrPlaced} {disk_sectors m b f : ℕ}

/-- The numbers of a call for more than four partitions, and how they lie to each other. -/
structure LastNumbers (ps : List MbrPartition) (out : MbrTables) (c : MbrCursor)
    (x : MbrPlaced) (disk_sectors m b f : ℕ) : Prop where
  length_eq : ps.length = m + 4
  ebrs_pos : 0 < m
  begins_eq : out.extended_partition_begins = b
  cursor_eq : c.first_lba = f
  begins_pos : 1 ≤ b
  ebrs_before : b + (m + 1) ≤ f
  on_disk : f + 1 < disk_sectors
  moved_up : f ≤ x.first_lba

theorem last_numbers (hlast : LastPass st k ps out c p x) (hn : 4 < ps.length)
    (hsize : ∀ q ∈ ps, 0 ≤ q.size_in_kb) (hN : x.first_lba + 1 < disk_sectors) :
    ∃ m b f, LastNumbers ps out c x disk_sectors m b f ∧
      out.patches = boot_patches st k m b f := by
  have hbegins := hlast.begins_pos hsize
  have hebrs := hlast.begins_le hsize
  have hup := hlast.moved_up
  obtain ⟨b, hb⟩ := Int.eq_ofNat_of_zero_le (show 0 ≤ out.extended_partition_begins by omega)
  obtain ⟨f, hf⟩ := Int.eq_ofNat_of_zero_le (show 0 ≤ c.first_lba by omega)
  have hcount : ps.length - 3 = ps.length - 4 + 1 := by omega
  refine ⟨ps.length - 4, b, f, ⟨by omega, by omega, hb, hf, by omega, by omega, by omega,
    by omega⟩, ?_⟩
  rw [hlast.patches_eq, hb, hf, hcount]
  rfl

/-- The record in the last EBR starts where the partition was put, counted from that EBR. -/
theorem last_record_start (hlast : LastPass st k ps out c p x) (hmany : ManyTables st k ps out)
    (hnum : LastNumbers ps out c x disk_sectors m b f) :
    last_record ps.length + 16 ≤ out.ebr.length ∧
      ((Record.of_bytes (slice out.ebr (last_record ps.length) 16)).start : ℤ)
        = (x.first_lba - b - m) % 2 ^ 32 := by
  have hlen := hnum.length_eq
  -- the last EBR is the one of the logical partition `m`
  have hoffset : last_record ps.length = 512 * m + 0x1BE := by
    rw [last_record, hlen, Nat.add_sub_cancel]
  have hindex : ps.length - 1 = 3 + m := by omega
  have hp := hlast.partition
  rw [List.getLast?_eq_getElem?, hindex] at hp
  obtain ⟨y, hy, -, -, hslice⟩ := hmany.logical m p hp
  obtain rfl : y = x := by
    have hx := hlast.placed
    rw [List.getLast?_eq_getElem?, hmany.length_placed, hindex, hy] at hx
    exact Option.some.inj hx
  refine ⟨by rw [hmany.length_ebr, hoffset]; omega, ?_⟩
  have hrecord : slice out.ebr (last_record ps.length) 16
      = slice (slice out.ebr (512 * m) 512) (0x1BE + 16 * 0) 16 := by
    rw [slice_slice _ _ _ _ _ (by decide), hoffset]
  rw [hrecord, hslice]
  change ((record (ebr_sector _ _ _ _ _) 0).start : ℤ) = _
  rw [record_zero_ebr_sector, start_of_record_bytes, hnum.begins_eq]

/-- **The record reaches the end of the disk** when what the last partition was moved by is what
its numbers lost, or a sector more. -/
theorem reaches_patched (hlast : LastPass st k ps out c p x) (hmany : ManyTables st k ps out)
    (hnum : LastNumbers ps out c x disk_sectors m b f) (hsector : st.sector_size_in_bytes = 512)
    {image : List UInt8} {base pos : ℕ} (hpos : pos = base + last_record ps.length + 12)
    (hroom : base + last_record ps.length + 16 ≤ image.length)
    (hsame : slice image (base + last_record ps.length) 16
      = slice out.ebr (last_record ps.length) 16) :
    Reaches ps.length disk_sectors out (Record.of_bytes (slice (overwrite image pos
        (leBytes 4 (patched_size disk_sectors f))) (base + last_record ps.length) 16)) ↔
      lost_sectors st ps disk_sectors p c ≤ last_move st p c ∧
        last_move st p c ≤ lost_sectors st ps disk_sectors p c + 1 := by
  obtain ⟨-, hstart⟩ := last_record_start hlast hmany hnum
  have hvalue := leValue_leBytes 4 (patched_size disk_sectors f)
  norm_num at hvalue
  -- the size patched in, as the program computes it from the text
  have hsize : real_value disk_sectors (max_sectors 512) ((disk_sectors : ℤ) - (f + 1))
      = patched_size disk_sectors f := by
    rw [patched_size, Sector.actual, Sector.resolve]
    push_cast
    rfl
  have hcount : ps.length - 4 = m := by
    rw [hnum.length_eq, Nat.add_sub_cancel]
  rw [hpos, of_bytes_patched _ hroom, hsame]
  simp only [Reaches, lost_sectors, last_move, ← hlast.start_eq, ← hlast.begins_eq, hsector,
    hnum.begins_eq, hnum.cursor_eq, hstart, hvalue, hsize, hcount]
  omega

/-- The images of a call have the sizes of their sectors. -/
theorem length_boot_image (hmany : ManyTables st k ps out) (hlen : ps.length = m + 4)
    (t : BootImage) : (t.of out).length = t.size m := by
  have hebr := hmany.length_ebr
  have hmbr := hmany.length_mbr
  cases t with
  | partition =>
    simp only [BootImage.of, BootImage.size, List.length_append]
    omega
  | mbr => exact hmbr
  | ebr =>
    simp only [BootImage.of, BootImage.size]
    omega

/-- After patching the files the last record of either image reaches the end of the disk exactly
if the move fits. -/
theorem files_reach (hlast : LastPass st k ps out c p x) (hmany : ManyTables st k ps out)
    (hnum : LastNumbers ps out c x disk_sectors m b f) (hsector : st.sector_size_in_bytes = 512)
    (hpatches : out.patches = boot_patches st k m b f)
    (hnear : Near st disk_sectors ((m + 1 : ℕ) : ℤ)) (hnear' : Near st disk_sectors (m : ℤ))
    (target : String) {files : Store}
    (hfiles : ∀ t, files (BootImage.name k t) = some (t.of out)) :
    ∃ files' a d, run_patches .files (disk_sectors * st.sector_size_in_bytes) target out.patches
        files = .done files' ∧
      files' (partition_bin k) = some a ∧ files' (ebr_bin k) = some d ∧
      (Reaches ps.length disk_sectors out
          (Record.of_bytes (slice a (st.sector_size_in_bytes + last_record ps.length) 16)) ↔
        lost_sectors st ps disk_sectors p c ≤ last_move st p c ∧
          last_move st p c ≤ lost_sectors st ps disk_sectors p c + 1) ∧
      (Reaches ps.length disk_sectors out
          (Record.of_bytes (slice d (last_record ps.length) 16)) ↔
        lost_sectors st ps disk_sectors p c ≤ last_move st p c ∧
          last_move st p c ≤ lost_sectors st ps disk_sectors p c + 1) := by
  have hend := hnum.on_disk
  have hbefore := hnum.ebrs_before
  have hlength := length_boot_image hmany hnum.length_eq
  have hoffset : last_record ps.length = 512 * m + 0x1BE := by
    rw [last_record, hnum.length_eq, Nat.add_sub_cancel]
  obtain ⟨hin, -⟩ := last_record_start hlast hmany hnum
  obtain ⟨files', v, hrun, hpart, hebr⟩ := patch_boot_files hsector hpatches (by omega) (by omega)
    (by omega) hnear hnear' hlength target hfiles
  -- the front of `partition%d.bin` is patched at the end of the MBR
  have hfront : out.mbr.length = 512 := hmany.length_mbr
  have hfit : 0x1FA + (leBytes 4 v).length ≤ (out.mbr ++ out.ebr).length := by
    rw [length_leBytes, List.length_append]
    omega
  have hsame : slice (overwrite (out.mbr ++ out.ebr) 0x1FA (leBytes 4 v))
      (512 + last_record ps.length) 16 = slice out.ebr (last_record ps.length) 16 := by
    rw [slice_overwrite_of_disjoint hfit (by rw [length_leBytes]; omega), slice, slice,
      ← hfront, List.drop_length_add_append]
  refine ⟨files', _, _, ?_, hpart, hebr, ?_, ?_⟩
  · rw [hsector]
    exact hrun
  · rw [hsector]
    refine reaches_patched hlast hmany hnum hsector (by omega) ?_ hsame
    rw [length_overwrite_of_le hfit, List.length_append]
    omega
  · have hpos : 512 * m + 0x1CA = 0 + last_record ps.length + 12 := by omega
    have hroom : 0 + last_record ps.length + 16 ≤ out.ebr.length := by omega
    have h := reaches_patched hlast hmany hnum hsector hpos hroom (by rw [Nat.zero_add])
    rw [Nat.zero_add] at h
    exact h

/-- After patching the disk its last record reaches the end of the disk exactly if the move fits.
-/
theorem disk_reach (hlast : LastPass st k ps out c p x) (hmany : ManyTables st k ps out)
    (hnum : LastNumbers ps out c x disk_sectors m b f) (hsector : st.sector_size_in_bytes = 512)
    (hpatches : out.patches = boot_patches st k m b f)
    (hnear : Near st disk_sectors ((b + m : ℕ) : ℤ)) {target : String} {files : Store}
    {d : List UInt8} (htarget : files target = some d)
    (hlen : d.length = disk_sectors * st.sector_size_in_bytes)
    (hebr : slice d (b * 512) out.ebr.length = out.ebr) :
    ∃ d', run_patches .disk (disk_sectors * st.sector_size_in_bytes) target out.patches files
        = .done (Function.update files target (some d')) ∧
      (Reaches ps.length disk_sectors out
          (Record.of_bytes (slice d' (b * 512 + last_record ps.length) 16)) ↔
        lost_sectors st ps disk_sectors p c ≤ last_move st p c ∧
          last_move st p c ≤ lost_sectors st ps disk_sectors p c + 1) := by
  have hend := hnum.on_disk
  have hbefore := hnum.ebrs_before
  have hbegins := hnum.begins_pos
  have hlength := length_boot_image hmany hnum.length_eq .ebr
  have hoffset : last_record ps.length = 512 * m + 0x1BE := by
    rw [last_record, hnum.length_eq, Nat.add_sub_cancel]
  obtain ⟨hin, -⟩ := last_record_start hlast hmany hnum
  rw [hsector] at hlen
  obtain ⟨v, hrun⟩ := patch_boot_disk hsector hpatches (by omega) (by omega) (by omega) hnear
    htarget (by omega)
  -- the other patch is in the MBR
  have hfit : 0x1FA + (leBytes 4 v).length ≤ d.length := by
    rw [length_leBytes]
    omega
  have hsame : slice (overwrite d 0x1FA (leBytes 4 v)) (b * 512 + last_record ps.length) 16
      = slice out.ebr (last_record ps.length) 16 := by
    rw [slice_overwrite_of_disjoint hfit (by rw [length_leBytes]; omega), ← hebr,
      slice_slice _ _ _ _ _ hin]
  have hpos : (b + m) * 512 + 0x1CA = b * 512 + last_record ps.length + 12 := by omega
  refine ⟨_, ?_, reaches_patched hlast hmany hnum hsector hpos ?_ hsame⟩
  · rw [hsector]
    exact hrun
  · rw [length_overwrite_of_le hfit]
    omega

/-- A store of the images alone. -/
def boot_store (k : ℕ) (out : MbrTables) (name : String) : Option (List UInt8) :=
  if name = partition_bin k then some (BootImage.partition.of out)
  else if name = mbr_bin k then some (BootImage.mbr.of out)
  else if name = ebr_bin k then some (BootImage.ebr.of out)
  else none

theorem boot_store_name (k : ℕ) (out : MbrTables) (t : BootImage) :
    boot_store k out (t.name k) = some (t.of out) := by
  have hne : ∀ t u : BootImage, t ≠ u → t.name k ≠ u.name k := fun t u h hname =>
    h (boot_name_injective k hname)
  have h₁ : mbr_bin k ≠ partition_bin k := hne .mbr .partition (by decide)
  have h₂ : ebr_bin k ≠ partition_bin k := hne .ebr .partition (by decide)
  have h₃ : ebr_bin k ≠ mbr_bin k := hne .ebr .mbr (by decide)
  cases t with
  | partition => simp [boot_store, BootImage.name]
  | mbr => simp [boot_store, BootImage.name, h₁]
  | ebr => simp [boot_store, BootImage.name, h₂, h₃]

/-- Where the patches go, in the numbers of the call: to the records exactly if a sector has 512
bytes and nothing is mirrored. -/
theorem fields_near (hlast : LastPass st k ps out c p x)
    (hnum : LastNumbers ps out c x disk_sectors m b f)
    (hpatches : out.patches = boot_patches st k m b f) :
    (∀ e ∈ out.patches, e.getD "what" "" = size_text →
      patched_position (disk_sectors * st.sector_size_in_bytes) e
        = some (ebr_base st k out (e.getD "filename" "") + last_record ps.length + 12)) ↔
    st.sector_size_in_bytes = 512 ∧ Near st disk_sectors (ps.length - 3 : ℕ) ∧
      Near st disk_sectors (ps.length - 4 : ℕ) ∧
      Near st disk_sectors (extended_begins st ps + (ps.length - 4 : ℕ)) := by
  have hd := hnum.on_disk
  have hcount : ps.length - 4 = m ∧ ps.length - 3 = m + 1 := by
    have := hnum.length_eq
    omega
  have hbegins : extended_begins st ps + (m : ℤ) = ((b + m : ℕ) : ℤ) := by
    rw [← hlast.begins_eq, hnum.begins_eq]
    push_cast
    rfl
  rw [hcount.1, hcount.2, hbegins]
  exact (fields_iff (by omega) hpatches).trans
    (positions_iff hnum.length_eq hnum.ebrs_pos hnum.begins_eq)

theorem size_fits_of_patched_last (hlast : LastPass st k ps out c p x) (hn : 4 < ps.length)
    (hsize : ∀ q ∈ ps, 0 ≤ q.size_in_kb) (hout : create_mbr_partition_table st k ps = .ok out)
    (hN : x.first_lba + 1 < disk_sectors) (h : PatchedLast st k ps.length disk_sectors out) :
    SizeFits st ps disk_sectors p c := by
  obtain ⟨m, b, f, hnum, hpatches⟩ := last_numbers hlast hn hsize hN
  obtain ⟨hsector, hnear, hnear', hnear''⟩ := (fields_near hlast hnum hpatches).mp h.fields
  have hmany := many_tables hsector hn hout
  have hlen := hnum.length_eq
  -- the images alone are enough to see the size
  obtain ⟨files', a, d, hrun, ha, -, hiff, -⟩ := files_reach hlast hmany hnum hsector hpatches
    (by rwa [show m + 1 = ps.length - 3 by omega]) (by rwa [show m = ps.length - 4 by omega]) ""
    (boot_store_name k out)
  obtain ⟨files'', a', d', hrun', ha', -, hreach, -⟩ := h.files "" _ (boot_store_name k out)
  rw [hrun] at hrun'
  cases hrun'
  rw [ha] at ha'
  cases ha'
  obtain ⟨hge, hle⟩ := hiff.mp hreach
  exact ⟨hsector, hnear, hnear', hnear'', hge, hle⟩

theorem patched_last_of_size_fits (hlast : LastPass st k ps out c p x) (hn : 4 < ps.length)
    (hsize : ∀ q ∈ ps, 0 ≤ q.size_in_kb) (hout : create_mbr_partition_table st k ps = .ok out)
    (hN : x.first_lba + 1 < disk_sectors) (h : SizeFits st ps disk_sectors p c) :
    PatchedLast st k ps.length disk_sectors out := by
  obtain ⟨m, b, f, hnum, hpatches⟩ := last_numbers hlast hn hsize hN
  obtain ⟨hsector, hnear, hnear', hnear'', hge, hle⟩ := h
  have hmany := many_tables hsector hn hout
  have hlen := hnum.length_eq
  have hbegins : extended_begins st ps + (ps.length - 4 : ℕ) = ((b + m : ℕ) : ℤ) := by
    rw [← hlast.begins_eq, hnum.begins_eq]
    omega
  refine ⟨(fields_near hlast hnum hpatches).mpr ⟨hsector, hnear, hnear', hnear''⟩, ?_, ?_⟩
  · intro target files hfiles
    -- the record in the image of the partition and the one in the EBR file
    obtain ⟨files', a, d, hrun, ha, hd, hiff, hiff'⟩ := files_reach hlast hmany hnum hsector
      hpatches (by rwa [show m + 1 = ps.length - 3 by omega])
      (by rwa [show m = ps.length - 4 by omega]) target hfiles
    exact ⟨files', a, d, hrun, ha, hd, hiff.mpr ⟨hge, hle⟩, hiff'.mpr ⟨hge, hle⟩⟩
  · intro target files d htarget hlength hebr
    have hnat : out.extended_partition_begins.toNat = b := by
      rw [hnum.begins_eq, Int.toNat_natCast]
    rw [hbegins] at hnear''
    rw [hnat] at hebr ⊢
    obtain ⟨d', hrun, hiff⟩ := disk_reach hlast hmany hnum hsector hpatches hnear'' htarget
      hlength (by rwa [hsector] at hebr)
    refine ⟨d', hrun, ?_⟩
    rw [hsector]
    exact hiff.mpr ⟨hge, hle⟩

end Last

/-- **The size of the last logical partition is patched right exactly if** a sector has 512 bytes,
no sector number is mirrored, and the partition was moved by what its numbers lost, or by a sector
more. For every list of more than four partitions; the condition is on the numbers before the last
pass of the layout. -/
theorem patched_last_iff (st : MbrSettings) (k : ℕ) (ps : List MbrPartition) (out : MbrTables)
    (disk_sectors : ℕ) (p : MbrPartition) (c : MbrCursor) (x : MbrPlaced) (hn : 4 < ps.length)
    (hsize : ∀ q ∈ ps, 0 ≤ q.size_in_kb) (hout : create_mbr_partition_table st k ps = .ok out)
    (hp : ps.getLast? = some p) (hc : cursor_at_last st k ps = .ok c)
    (hx : out.placed.getLast? = some x) (hN : x.first_lba + 1 < disk_sectors) :
    PatchedLast st k ps.length disk_sectors out ↔ SizeFits st ps disk_sectors p c := by
  obtain ⟨c', p', x', hlast⟩ := last_pass hn hout
  obtain rfl : p' = p := Option.some.inj (hlast.partition.symm.trans hp)
  obtain rfl : c' = c := Except.ok.inj (hlast.cursor_eq.symm.trans hc)
  obtain rfl : x' = x := Option.some.inj (hlast.placed.symm.trans hx)
  exact ⟨size_fits_of_patched_last hlast hn hsize hout hN,
    patched_last_of_size_fits hlast hn hsize hout hN⟩

/-! ## Five partitions

The last of these five partitions is moved out of a write-protected region, by many sectors.
The theorem applies to the call, and says that its patches do not reach the end of the disk.
-/

/-- The last of the five is moved by 131054 sectors, and nothing is lost. -/
theorem aligned_last : ∃ out c p x,
    create_mbr_partition_table (mbr_settings 4) 0 aligned_logical = .ok out ∧
      LastPass (mbr_settings 4) 0 aligned_logical out c p x ∧ x.first_lba = 131072 ∧
      ¬ SizeFits (mbr_settings 4) aligned_logical 200000 p c := by
  obtain ⟨out, hout, hbegins, hplaced, -⟩ := create_aligned_logical
  obtain ⟨c, p, x, hlast⟩ := last_pass (by decide) hout
  have hlist := congrArg (List.map fun y : Bool × ℤ × ℤ => y.2) hplaced
  rw [List.map_map] at hlist
  -- the fifth partition is the last placed, the fourth the one before it
  have hx : (x.first_lba, x.sectors) = (131072, 0) := by
    have h := congrArg List.getLast? hlist
    rw [List.getLast?_map, hlast.placed] at h
    exact Option.some.inj h
  obtain ⟨y, hy, hy'⟩ : ∃ y, out.placed[3]? = some y ∧ (y.first_lba, y.sectors) = (16, 2) := by
    have h := congrArg (fun l : List (ℤ × ℤ) => l[3]?) hlist
    rw [List.getElem?_map] at h
    exact Option.map_eq_some_iff.mp h
  have hstart : last_start (mbr_settings 4) p c = 131072 :=
    hlast.start_eq.symm.trans (Prod.mk.inj hx).1
  have hcursor : c.first_lba = 18 := by
    have h := hlast.behind y hy
    rw [(Prod.mk.inj hy').1, (Prod.mk.inj hy').2] at h
    exact h
  refine ⟨out, c, p, x, hout, hlast, (Prod.mk.inj hx).1, fun h => ?_⟩
  -- the size patched in counts from the end of the fourth
  have hsize : real_value (200000 : ℕ) (max_sectors (mbr_settings 4).sector_size_in_bytes)
      ((200000 : ℕ) - (18 + 1)) = 199981 := by decide
  have hle := h.moved_le
  simp only [last_move, lost_sectors, hstart, hcursor, ← hlast.begins_eq, hbegins, hsize] at hle
  norm_num [aligned_logical] at hle

theorem patched_last_aligned : ∃ out c p x,
    create_mbr_partition_table (mbr_settings 4) 0 aligned_logical = .ok out ∧
      LastPass (mbr_settings 4) 0 aligned_logical out c p x ∧
      (PatchedLast (mbr_settings 4) 0 5 200000 out ↔
        SizeFits (mbr_settings 4) aligned_logical 200000 p c) := by
  obtain ⟨out, c, p, x, hout, hlast, hx, -⟩ := aligned_last
  exact ⟨out, c, p, x, hout, hlast, patched_last_iff (mbr_settings 4) 0 aligned_logical out 200000
    p c x (by decide) (by decide) hout hlast.partition hlast.cursor_eq hlast.placed
    (by rw [hx]; decide)⟩

/-- The patched size of the last of the five reaches 131053 sectors past the end. -/
theorem aligned_not_patched_last : ∃ out x,
    create_mbr_partition_table (mbr_settings 4) 0 aligned_logical = .ok out ∧
      out.placed.getLast? = some x ∧ x.first_lba + 1 < (200000 : ℕ) ∧
      ¬ PatchedLast (mbr_settings 4) 0 aligned_logical.length 200000 out := by
  obtain ⟨out, c, p, x, hout, hlast, hx, hfits⟩ := aligned_last
  have hN : x.first_lba + 1 < (200000 : ℕ) := by
    rw [hx]
    decide
  exact ⟨out, x, hout, hlast.placed, hN, fun h => hfits
    (size_fits_of_patched_last hlast (by decide) (by decide) hout hN h)⟩

end AndroidTools.Pipeline
