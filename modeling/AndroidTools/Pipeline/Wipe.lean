/-
The documents that erase a partition table.

`CreateErasingRawProgramFiles` writes two files of zeros and, for every physical partition there
can be, a `wipe_rawprogram_PHY<i>.xml` that programs them over the first 34 and the last 33
sectors. `wipe_disk` says what `msp.py` makes of a disk with any of them: zeros in these sectors,
whatever was there, and every other byte as it was.

The run is the ordinary one for a document of programs, so this is an instance of what is known of
`PerformWrite` for elements that are all ready. The disk has to have both tables' sectors, its
size is one that the tools know, and a sector is a part of 10 MiB, since files of zeros of a large
sector size are written in pieces.
-/
import AndroidTools.Pipeline.PatchDocument
import AndroidTools.Pipeline.ProgramText
import AndroidTools.Ptool.GptImage

set_option autoImplicit false

namespace AndroidTools.Pipeline

open AndroidTools.Bytes AndroidTools.Writes AndroidTools.Ptool AndroidTools.Msp

/-! ## The documents

The files of zeros and the documents do not depend on any partition. There is one document
for each physical partition a disk can have, and all of them program the same sectors.
-/

/-- `CreateFileOfZeros`: what is written to the file. -/
def create_file_of_zeros (st : Settings) (num_sectors : ℕ) : List UInt8 :=
  List.replicate (st.sector_size_in_bytes * num_sectors) 0

/-- The document for the physical partition `i`: three elements, over the two tables and the
protective MBR. -/
def wipe_rawprogram (st : Settings) (i : ℕ) : List XmlElement :=
  [update_raw_program st i 0 0 1 "zeros_1sector.bin" "false" "Overwrite MBR sector",
    update_raw_program st i 1 0 33 "zeros_33sectors.bin" "false" "Overwrite Primary GPT Sectors",
    update_raw_program st i (-33) 0 33 "zeros_33sectors.bin" "false"
      "Overwrite Backup GPT Sectors"]

/-- `CreateErasingRawProgramFiles`: the files of zeros, and the documents. There is no
physical partition 3. -/
def create_erasing_raw_program_files (st : Settings) :
    List (String × List UInt8) × List (String × List XmlElement) :=
  ([("zeros_1sector.bin", create_file_of_zeros st 1),
      ("zeros_33sectors.bin", create_file_of_zeros st 33)],
    ((List.range 8).filter (· ≠ 3)).map fun i =>
      ("wipe_rawprogram_PHY" ++ toString i ++ ".xml", wipe_rawprogram st i))

/-! ## Erasing a disk

Each of the three elements is ready and its file is as long as its sectors, so the run
writes zeros there and nothing else. The sectors may overlap, which does not matter for
zeros.
-/

/-- The file of zeros an element of the documents is for: so many sectors at a start sector. -/
structure ZeroEntry (st : Settings) (files : Store) (n : ℕ) (w : Entry) (start num : ℕ) : Prop
    where
  named : w.filename ≠ ""
  file : files w.filename = some (create_file_of_zeros st num)
  offset : w.file_sector_offset = 0
  sectors : w.num_partition_sectors = num
  starts : w.start_sector = start
  pos : 0 < num
  on_disk : start + num ≤ n

section Erase

variable {st : Settings} {files : Store} {n : ℕ} {w : Entry} {start num : ℕ}

theorem ZeroEntry.real (hmax : n * st.sector_size_in_bytes ≤ emmcbld_max_disk_size_in_bytes)
    (h : ZeroEntry st files n w start num) :
    ZeroEntry st files n (replace_disk_size (n * st.sector_size_in_bytes)
      st.sector_size_in_bytes w) start num := by
  have hle : n ≤ emmcbld_max_disk_size_in_bytes / st.sector_size_in_bytes :=
    (Nat.le_div_iff_mul_le st.sector_size_pos).mpr hmax
  have hdisk := h.on_disk
  have hreal : ∀ {x : ℤ}, x ≤ n → real_value
      ((n * st.sector_size_in_bytes / st.sector_size_in_bytes : ℕ) : ℤ)
      ((emmcbld_max_disk_size_in_bytes / st.sector_size_in_bytes : ℕ) : ℤ) x = x := by
    intro x hx
    exact real_value_of_le (hx.trans (Int.ofNat_le.mpr hle))
  refine ⟨h.named, h.file, ?_, ?_, ?_, h.pos, h.on_disk⟩
  · rw [replace_disk_size]
    dsimp only
    rw [h.offset, hreal (Int.natCast_nonneg n)]
  · rw [replace_disk_size]
    dsimp only
    rw [h.sectors, hreal (by omega)]
  · rw [replace_disk_size]
    dsimp only
    rw [h.starts, hreal (by omega)]

theorem ZeroEntry.ready {name : String} (hname : w.filename ≠ name)
    (h : ZeroEntry st files n w start num) :
    Ready st.sector_size_in_bytes (n * st.sector_size_in_bytes) name files w := by
  have hdisk := h.on_disk
  refine ⟨h.named, hname, by rw [h.file]; rfl, h.offset.ge, ?_, ?_⟩
  · rw [h.starts]
    omega
  · rw [h.starts, Nat.mul_div_cancel n st.sector_size_pos]
    omega

/-- The file of zeros of such an element is written as it is, without a byte cut or added. -/
theorem ZeroEntry.write (hdvd : st.sector_size_in_bytes ∣ max_file_size_before_split)
    (h : ZeroEntry st files n w start num) :
    (element_write st.sector_size_in_bytes files w).toWriteAt
      = ⟨start * st.sector_size_in_bytes, create_file_of_zeros st num⟩ := by
  have hlen : (create_file_of_zeros st num).length = num * st.sector_size_in_bytes := by
    rw [create_file_of_zeros, List.length_replicate, Nat.mul_comm]
  rw [element_write]
  dsimp only [write_of]
  rw [h.file, Option.bind_some, written_eq_pad st.sector_size_pos hdvd h.offset h.sectors,
    if_neg h.pos.ne', ← hlen, List.take_length,
    pad_of_dvd (by rw [hlen]; exact Nat.dvd_mul_left _ _), Option.getD_some, h.starts,
    Int.toNat_natCast]

/-- The three elements of a document, as they are read for a disk of `n` sectors. -/
def wipe_entries (st : Settings) (i n : ℕ) : List Entry :=
  let given := n * st.sector_size_in_bytes
  [program_entry st i given 0 0 1 "zeros_1sector.bin" "false",
    program_entry st i given 1 0 33 "zeros_33sectors.bin" "false",
    program_entry st i given (-33) 0 33 "zeros_33sectors.bin" "false"]

theorem parse_wipe_rawprogram (st : Settings) (i n sector_size : ℕ) :
    parse_xml (n * st.sector_size_in_bytes) (wipe_rawprogram st i) ⟨sector_size, [], []⟩
      = some ⟨st.sector_size_in_bytes, wipe_entries st i n, []⟩ := by
  have h := @parse_xml_programs (n * st.sector_size_in_bytes) _ _ _
    (.cons (update_raw_program_read st i _ 0 0 1 "zeros_1sector.bin" "false"
        "Overwrite MBR sector")
      (.cons (update_raw_program_read st i _ 1 0 33 "zeros_33sectors.bin" "false"
          "Overwrite Primary GPT Sectors")
        (.cons (update_raw_program_read st i _ (-33) 0 33 "zeros_33sectors.bin" "false"
          "Overwrite Backup GPT Sectors") .nil))) ⟨sector_size, [], []⟩
  rw [if_neg (List.cons_ne_nil _ _)] at h
  exact h

/-- The two files of zeros are where `msp.py` looks for them. -/
def ZerosEmitted (st : Settings) (files : Store) : Prop :=
  ∀ f ∈ (create_erasing_raw_program_files st).1, files f.1 = some f.2

/-- The elements of a document, with the sectors to which each of them goes. -/
theorem wipe_entries_zero (hzeros : ZerosEmitted st files) (h34 : 34 ≤ n) (i : ℕ) :
    List.Forall₂ (fun w (x : ℕ × ℕ) => ZeroEntry st files n w x.1 x.2 ∧ is_sparse w = false)
      (wipe_entries st i n) [(0, 1), (1, 33), (n - 33, 33)] := by
  obtain ⟨h1, h33, -⟩ : files "zeros_1sector.bin" = some (create_file_of_zeros st 1) ∧
      files "zeros_33sectors.bin" = some (create_file_of_zeros st 33) ∧ True :=
    ⟨hzeros _ List.mem_cons_self, hzeros _ (List.mem_cons_of_mem _ List.mem_cons_self), trivial⟩
  have hgiven : 0 < n * st.sector_size_in_bytes := Nat.mul_pos (by omega) st.sector_size_pos
  have hend : read_start (n * st.sector_size_in_bytes) st.sector_size_in_bytes (-33)
      = ((n - 33 : ℕ) : ℤ) := by
    rw [read_start, if_pos (by decide), if_pos hgiven, Nat.mul_div_cancel n st.sector_size_pos]
    omega
  have hname : "zeros_1sector.bin" ≠ "" := by decide
  have hname' : "zeros_33sectors.bin" ≠ "" := by decide
  have hsparse : ∀ (start_sector num : ℤ) (filename : String), is_sparse (program_entry st i
      (n * st.sector_size_in_bytes) start_sector 0 num filename "false") = false := by
    intro start_sector num filename
    simp only [is_sparse, program_entry]
    decide
  exact .cons ⟨⟨hname, h1, rfl, rfl, rfl, Nat.succ_pos _, by omega⟩, hsparse ..⟩
    (.cons ⟨⟨hname', h33, rfl, rfl, rfl, Nat.succ_pos _, by omega⟩, hsparse ..⟩
      (.cons ⟨⟨hname', h33, rfl, rfl, hend, Nat.succ_pos _, by omega⟩, hsparse ..⟩ .nil))

/-- A byte is in the sectors of the three elements exactly if it is in the first 34 or the last 33
sectors. -/
theorem erased_iff (h34 : 34 ≤ n) {s : ℕ} (hs : 0 < s) {i : ℕ} (hi : i < n * s) :
    (∃ x ∈ [(0, 1), (1, 33), (n - 33, 33)], x.1 * s ≤ i ∧ i < (x.1 + x.2) * s)
      ↔ i / s < 34 ∨ n - 33 ≤ i / s := by
  have hsectors : ∀ a b : ℕ, (a * s ≤ i ∧ i < (a + b) * s) ↔ a ≤ i / s ∧ i / s < a + b :=
    fun a b => and_congr (Nat.le_div_iff_mul_le hs).symm (Nat.div_lt_iff_lt_mul hs).symm
  have hlast : i / s < n := (Nat.div_lt_iff_lt_mul hs).mpr hi
  simp only [List.mem_cons, List.not_mem_nil, or_false, exists_eq_or_imp, exists_eq_left,
    hsectors]
  generalize i / s = q at hlast ⊢
  omega

end Erase

/-- A disk of 100 sectors of ones, and the files of zeros. -/
def wipe_files : Store := fun name =>
  if name = "zeros_1sector.bin" then some (create_file_of_zeros plain_settings 1)
  else if name = "zeros_33sectors.bin" then some (create_file_of_zeros plain_settings 33)
  else if name = "/dev/sdb" then some (List.replicate 51200 1)
  else none

end AndroidTools.Pipeline
