/-
From the `<program>` elements `ptool.py` writes into `rawprogram0.xml` to what `msp.py` writes for
them.

`ptool.py` writes numbers as text, and `msp.py` reads them back, so the two programs agree only if
reading undoes writing. `return_parsed_values_program` says this of one element and
`parse_rawprogram` of the whole document of a call: the dictionaries are those of the numbers that
were meant.

A sector counted from the end of the disk is resolved at once when the disk size was given, and
becomes a gigantic number until it is known otherwise. The same document is read in both ways, so
the size given is a parameter here.
-/
import AndroidTools.Msp.Main
import AndroidTools.Ptool.Loop

set_option autoImplicit false

namespace AndroidTools.Pipeline

open AndroidTools.Text AndroidTools.Ptool AndroidTools.Msp

/-! ## One element

The start sector is the only number with two readings, one for a disk of known size and one
for a size that has to be found out; the others are plain numbers.
-/

/-- The start sector as it is read; `given` is the disk size in bytes, 0 when it is not
known yet. -/
def read_start (given sector_size : ℕ) (start_sector : ℤ) : ℤ :=
  if start_sector < 0 then
    if 0 < given then ((given / sector_size : ℕ) : ℤ) + start_sector
    else ((emmcbld_max_disk_size_in_bytes / sector_size : ℕ) : ℤ) - start_sector
  else start_sector

/-- The dictionary of a `<program>` element with these numbers, for a disk of `given` bytes or one
whose size is not known. -/
def program_entry (st : Settings) (k given : ℕ) (start_sector file_sector_offset
    num_partition_sectors : ℤ) (filename sparse : String) : Entry where
  filename := filename
  file_sector_offset := file_sector_offset
  num_partition_sectors := if num_partition_sectors ≤ 0 then 0 else num_partition_sectors
  physical_partition_number := k
  sparse := sparse
  start_sector := read_start given st.sector_size_in_bytes start_sector
  is_crc := false
  arg0 := 0
  arg1 := 0
  value := 0
  byte_offset := 0
  size_in_bytes := 4
  what := none

theorem handle_start_sector_text (given sector_size : ℕ) (start_sector : ℤ) :
    handle_num_disk_sectors given sector_size (start_sector_text start_sector)
      = some (read_start given sector_size start_sector) := by
  unfold start_sector_text read_start
  by_cases hneg : start_sector < 0
  · rw [if_pos hneg, if_pos hneg]
    obtain ⟨n, rfl⟩ : ∃ n, start_sector = Int.negSucc n := by
      cases start_sector with
      | ofNat n => exact absurd hneg (by simp)
      | negSucc n => exact ⟨n, rfl⟩
    have htext : "NUM_DISK_SECTORS" ++ toString (Int.negSucc n) ++ "."
        = "NUM_DISK_SECTORS-" ++ toString (n + 1) ++ "." := by
      rw [← String.toList_inj, show toString (Int.negSucc n) = "-" ++ toString (n + 1) from rfl]
      simp only [String.toList_append]
      rfl
    rw [htext, handle_from_end_eq _ _ _ (by simp), Int.negSucc_eq]
    split_ifs <;> rfl
  · rw [if_neg hneg, if_neg hneg]
    exact handle_toString_int _

/-- **A `<program>` element is read as it was meant**: its dictionary has the numbers with which
it was emitted. -/
theorem return_parsed_values_program (st : Settings) (k given : ℕ) (start_sector
    file_sector_offset num_partition_sectors : ℤ) (filename sparse label : String) :
    return_parsed_values given (update_raw_program st k start_sector file_sector_offset
        num_partition_sectors filename sparse label)
      = some (program_entry st k given start_sector file_sector_offset num_partition_sectors
          filename sparse, st.sector_size_in_bytes) := by
  have hs := st.sector_size_pos
  have hstart := handle_start_sector_text given st.sector_size_in_bytes start_sector
  have hint := @handle_toString_int given st.sector_size_in_bytes
  have hzero : parse_value given st.sector_size_in_bytes "0" = some (false, 0, 0, 0) :=
    parse_value_of_not_crc (by decide) (by decide) (handle_toString 0)
  unfold return_parsed_values update_raw_program
  simp only [XmlElement.getD, XmlElement.get?, List.lookup_cons, List.lookup_nil, String.reduceBEq,
    Option.getD_some, Option.getD_none, Option.bind_eq_bind, Option.bind_some,
    parse_sector_size_toString hs, hstart, hint, int_of_text_toString, hzero, Option.pure_def]
  rfl

/-! ## The document

The document of a call, element by element: one for each file of a partition, and two for
the table images at the end.
-/

/-- The dictionary for one file of a partition placed at `x`. -/
def partition_entry (st : Settings) (k given : ℕ) (x : Extent) (f : PartitionFile) : Entry :=
  program_entry st k given (x.first_lba + f.filepartitionoffset) f.fileoffset
    (x.last_lba - x.first_lba - f.filepartitionoffset + 1) f.filename f.sparse

/-- The dictionaries for the files of the partitions that were placed, in their order. -/
def partition_entries (st : Settings) (k given : ℕ) (placed : List (Partition × Extent)) :
    List Entry :=
  placed.flatMap fun px => px.1.files.map (partition_entry st k given px.2)

/-- The dictionaries for the two images of the table. -/
def table_entries (st : Settings) (k given : ℕ) : List Entry :=
  [program_entry st k given 0 0 34 (gpt_main k) "false",
    program_entry st k given (-33) 0 33 (gpt_backup k) "false"]

/-- A document of programs that agree on the sector size is read, element by element. -/
theorem parse_xml_programs {given size : ℕ} {es : List XmlElement} {ws : List Entry}
    (h : List.Forall₂ (fun e w => e.tag = "program" ∧ e.attrib ≠ [] ∧
      return_parsed_values given e = some (w, size)) es ws) (s : Arrays) :
    parse_xml given es s = some { s with
      sector_size := if es = [] then s.sector_size else size
      write_array := s.write_array ++ ws } := by
  induction h generalizing s with
  | nil => simp [parse_xml]
  | @cons e w es ws he _ ih =>
    obtain ⟨htag, hattrib, hread⟩ := he
    rw [parse_xml, if_pos htag, if_neg hattrib, hread]
    dsimp only
    rw [ih]
    simp

theorem update_raw_program_read (st : Settings) (k given : ℕ) (start_sector file_sector_offset
    num_partition_sectors : ℤ) (filename sparse label : String) :
    let e := update_raw_program st k start_sector file_sector_offset num_partition_sectors
      filename sparse label
    e.tag = "program" ∧ e.attrib ≠ [] ∧ return_parsed_values given e
      = some (program_entry st k given start_sector file_sector_offset num_partition_sectors
          filename sparse, st.sector_size_in_bytes) :=
  ⟨rfl, List.cons_ne_nil _ _, return_parsed_values_program ..⟩

/-- **`rawprogram0.xml` is read as it was meant**: it gives the dictionaries of the partitions'
files and of the two images, and nothing else. -/
theorem parse_rawprogram {st : Settings} {k : ℕ} {ps : List Partition} {rand : ℕ → ℕ}
    {out : GptTables} (hout : create_gpt_partition_table st k ps rand = .ok out)
    (given size : ℕ) :
    parse_xml given out.rawprogram ⟨size, [], []⟩
      = some ⟨st.sector_size_in_bytes,
          partition_entries st k given (ps.zip out.placed) ++ table_entries st k given, []⟩ := by
  obtain ⟨-, hraw, -⟩ := create_gpt_partition_table_shape hout
  have htables : List.Forall₂ (fun e w => e.tag = "program" ∧ e.attrib ≠ [] ∧
      return_parsed_values given e = some (w, st.sector_size_in_bytes))
      (table_elements st k) (table_entries st k given) :=
    .cons (update_raw_program_read ..) (.cons (update_raw_program_read ..) .nil)
  have hparts : ∀ placed : List (Partition × Extent),
      List.Forall₂ (fun e w => e.tag = "program" ∧ e.attrib ≠ [] ∧
        return_parsed_values given e = some (w, st.sector_size_in_bytes))
        (program_elements st k placed) (partition_entries st k given placed) := by
    intro placed
    induction placed with
    | nil => exact .nil
    | cons px placed ih =>
      refine List.rel_append ?_ ih
      rw [List.forall₂_map_left_iff, List.forall₂_map_right_iff, List.forall₂_same]
      intro f _
      exact update_raw_program_read ..
  have h := parse_xml_programs (List.rel_append (hparts (ps.zip out.placed)) htables)
    ⟨size, [], []⟩
  rw [hraw, h, if_neg (by simp [table_elements])]
  rfl

end AndroidTools.Pipeline
