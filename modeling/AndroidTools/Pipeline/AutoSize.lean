/-
The size of an image of automatic size, `-d 0`.

`CalculateMinDiskSize` goes by the declared numbers: the last element of `WriteSorted` with a
known start ends the data, and the backup GPT comes behind it (`calculate_min_disk_size_eq`). A
grown last partition is declared with no sectors, so its file is not counted; and a document that
programs no partition has its data end at sector 0, in the primary GPT.

`LeavesRoom` is what one would want of the run: every file is written below the backup GPT, and no
two of them overlap. `FilesFit` is the condition under which it holds, stated on the elements of
the document and on the lengths of the files, without the state in which the loop comes to an
element. The two are brought together by following the run on lengths alone. At the end stands a
list with one partition that grows, whose file of one byte is written where the backup GPT goes.
-/
import AndroidTools.Msp.Lengths
import AndroidTools.Pipeline.ProgramText
import AndroidTools.Pipeline.ValidGpt

set_option autoImplicit false

namespace AndroidTools.Pipeline

open AndroidTools.Writes AndroidTools.Ptool AndroidTools.Msp

/-! ## A run that programs an image

The documents of a call as they are read, and the run of a document of programs alone on a
wiped image, for a size that was given and for one that has to be found out.
-/

/-- The dictionaries of `rawprogram0.xml`: those of the partitions' files, and those of the two
tables. -/
def rawprogram_entries (st : Settings) (k given : ℕ) (placed : List (Partition × Extent)) :
    List Entry :=
  partition_entries st k given placed ++ table_entries st k given

/-- No file of a partition is marked as sparse, so that the run does not exit before anything is
written. -/
def NonSparse (st : Settings) (k : ℕ) (placed : List (Partition × Extent)) : Prop :=
  ∀ w ∈ named_writes (partition_entries st k 0 placed), is_sparse w = false

/-- What is written for elements on a wiped image of `disk_size` bytes. -/
def program_image (sector_size disk_size : ℕ) (sorted : List Entry) (files : Store) :
    Run WriteState :=
  perform_write sector_size disk_size single_image
    (sorted.map (replace_disk_size disk_size sector_size))
    ⟨Function.update files single_image (some []), []⟩

section Run

variable {st : Settings} {k : ℕ} {ps : List Partition} {rand : ℕ → ℕ} {out : GptTables}

theorem named_table_entries (st : Settings) (k given : ℕ) :
    named_writes (table_entries st k given) = table_entries st k given := by
  have hmain : gpt_main k ≠ "" := name_ne (by decide) k .main
  have hbackup : gpt_backup k ≠ "" := name_ne (by decide) k .backup
  rw [named_writes, List.filter_eq_self]
  simp [table_entries, program_entry, hmain, hbackup]

theorem named_rawprogram_entries (st : Settings) (k given : ℕ)
    (placed : List (Partition × Extent)) :
    named_writes (rawprogram_entries st k given placed)
      = named_writes (partition_entries st k given placed) ++ table_entries st k given := by
  rw [rawprogram_entries, named_writes, List.filter_append, ← named_writes, ← named_writes,
    named_table_entries]

/-- With a document of programs only, and a disk size that was given. -/
theorem msp_image (hout : create_gpt_partition_table st k ps rand = .ok out) {n size : ℕ}
    (hpos : 0 < n * size) (files : Store) :
    msp (.sectors n) size (some out.rawprogram) none files
      = if (named_writes (rawprogram_entries st k (n * size) (ps.zip out.placed))).any is_sparse
          then .exit ⟨files, []⟩
        else program_image st.sector_size_in_bytes (n * size)
          (write_sorted (rawprogram_entries st k (n * size) (ps.zip out.placed))) files := by
  have hgiven : (Dest.sectors n).disk_size size = n * size := rfl
  have hparse : parse_xml (n * size) out.rawprogram ⟨size, [], []⟩
      = some ⟨st.sector_size_in_bytes, rawprogram_entries st k (n * size) (ps.zip out.placed),
        []⟩ :=
    parse_rawprogram hout (n * size) size
  have hmin : ¬ (0 < n * size ∧ n * size < initial_min_disk_size * st.sector_size_in_bytes) := by
    rw [initial_min_disk_size, Nat.zero_mul]
    omega
  have hne : rawprogram_entries st k (n * size) (ps.zip out.placed) ≠ [] := by
    simp [rawprogram_entries, table_entries]
  unfold msp
  simp only [hgiven, Option.getD_some, hparse, if_neg hmin, if_neg hpos.ne', Option.getD_none,
    parse_xml]
  split_ifs
  · rfl
  · simp only [perform_operations, hne, ne_eq, not_false_eq_true, decide_true, if_true,
      Option.isSome_none, Bool.false_eq_true, if_false, Run.map_done, Run.bind_done]
    rfl

/-- With a document of programs only, and the disk size to be found out. -/
theorem msp_auto (hout : create_gpt_partition_table st k ps rand = .ok out)
    (hsparse : NonSparse st k (ps.zip out.placed)) (size : ℕ) (files : Store)
    (hpos : 0 < calculate_min_disk_size st.sector_size_in_bytes
      (write_sorted (rawprogram_entries st k 0 (ps.zip out.placed)))) :
    msp (.sectors 0) size (some out.rawprogram) none files
      = program_image st.sector_size_in_bytes
          ((calculate_min_disk_size st.sector_size_in_bytes (write_sorted (rawprogram_entries st k 0
            (ps.zip out.placed)))).toNat * st.sector_size_in_bytes)
          (write_sorted (rawprogram_entries st k 0 (ps.zip out.placed))) files := by
  -- no size is given, so the documents are read with 0 and the size comes from them
  have hgiven : (Dest.sectors 0).disk_size size = 0 := Nat.zero_mul _
  have hparse : parse_xml 0 out.rawprogram ⟨size, [], []⟩ = some ⟨st.sector_size_in_bytes,
      rawprogram_entries st k 0 (ps.zip out.placed), []⟩ := parse_rawprogram hout 0 size
  have hno : ¬ (named_writes (rawprogram_entries st k 0 (ps.zip out.placed))).any is_sparse
      = true := by
    rw [named_rawprogram_entries, List.any_append, Bool.or_eq_true, not_or]
    constructor
    · rw [List.any_eq_true]
      rintro ⟨w, hw, hsp⟩
      rw [hsparse w hw] at hsp
      cases hsp
    · simp [table_entries, program_entry, is_sparse]
      decide
  have hne : rawprogram_entries st k 0 (ps.zip out.placed) ≠ [] := by
    simp [rawprogram_entries, table_entries]
  have hsize : (calculate_min_disk_size st.sector_size_in_bytes (write_sorted (rawprogram_entries
      st k 0 (ps.zip out.placed)))).toNat * st.sector_size_in_bytes ≠ 0 :=
    (Nat.mul_pos (by omega) st.sector_size_pos).ne'
  unfold msp
  simp only [hgiven, Option.getD_some, hparse, lt_irrefl, false_and, if_false, Option.getD_none,
    hno, if_true, Bool.false_eq_true, if_neg hsize, parse_xml]
  simp only [perform_operations, hne, ne_eq, not_false_eq_true, decide_true, if_true,
    Option.isSome_none, Bool.false_eq_true, if_false, Run.map_done, Run.bind_done]
  rfl

end Run

/-! ## The size from the declared numbers

`CalculateMinDiskSize` goes through the sorted elements twice: the last element with a known
start sets the size, and each start above the largest disk adds what it is above it. In a
document of `ptool.py` the second kind is the backup GPT alone.
-/

/-- The declared end of the last element with a known start. -/
def last_declared_end (max : ℤ) (sorted : List Entry) : ℤ :=
  ((sorted.filter fun w => 0 < w.start_sector ∧ w.start_sector < max).getLast?.map fun w =>
    w.start_sector + w.num_partition_sectors).getD 0

/-- How far the starts above the largest disk are above it, altogether. -/
def far_sectors (max : ℤ) (ws : List Entry) : ℤ :=
  ((ws.filter fun w => 0 < w.start_sector ∧ max < w.start_sector).map fun w =>
    w.start_sector - max).sum

/-- The sector at which the data of a document is declared to end, behind the last element whose
start is known. -/
def declared_end (st : Settings) (k : ℕ) (placed : List (Partition × Extent)) : ℤ :=
  last_declared_end (max_sectors st.sector_size_in_bytes)
      (write_sorted (rawprogram_entries st k 0 placed))
    + far_sectors (max_sectors st.sector_size_in_bytes)
        (named_writes (partition_entries st k 0 placed))

section Size

variable {st : Settings} {k : ℕ}

/-- A loop that keeps the value of the last element of a kind. -/
theorem foldl_last {α : Type*} (p : α → Prop) [DecidablePred p] (f : α → ℤ) (a : ℤ) (l : List α) :
    l.foldl (fun n w => if p w then f w else n) a = ((l.filter p).getLast?.map f).getD a := by
  induction l using List.reverseRecOn with
  | nil => rfl
  | append_singleton l w ih =>
    rw [List.foldl_append, List.foldl_cons, List.foldl_nil, List.filter_append]
    by_cases hw : p w
    · rw [if_pos hw, List.filter_cons_of_pos (by simpa using hw), List.getLast?_append]
      rfl
    · rw [if_neg hw, List.filter_cons_of_neg (by simpa using hw), List.filter_nil,
        List.append_nil]
      exact ih

/-- A loop that adds something up for the elements of a kind. -/
theorem foldl_sum {α : Type*} (p : α → Prop) [DecidablePred p] (g : α → ℤ) (a : ℤ) (l : List α) :
    l.foldl (fun n w => if p w then n + g w else n) a = a + ((l.filter p).map g).sum := by
  induction l generalizing a with
  | nil => simp
  | cons w l ih =>
    rw [List.foldl_cons, ih]
    by_cases hw : p w
    · rw [if_pos hw, List.filter_cons_of_pos (by simpa using hw), List.map_cons, List.sum_cons,
        add_assoc]
    · rw [if_neg hw, List.filter_cons_of_neg (by simpa using hw)]

theorem far_sectors_append (max : ℤ) (vs ws : List Entry) :
    far_sectors max (vs ++ ws) = far_sectors max vs + far_sectors max ws := by
  rw [far_sectors, List.filter_append, List.map_append, List.sum_append, far_sectors, far_sectors]

theorem far_sectors_perm (max : ℤ) {vs ws : List Entry} (h : vs.Perm ws) :
    far_sectors max vs = far_sectors max ws :=
  ((h.filter _).map _).sum_eq

/-- Of the two tables only the backup is counted from the end. -/
theorem far_sectors_tables (st : Settings) (k : ℕ) :
    far_sectors (max_sectors st.sector_size_in_bytes) (table_entries st k 0) = 33 := by
  have hstart : read_start 0 st.sector_size_in_bytes (-33)
      = (max_sectors st.sector_size_in_bytes : ℤ) + 33 := by
    rw [read_start, if_pos (by decide), if_neg (by decide), sub_neg_eq_add]
    rfl
  have hfar : (0 : ℤ) < (max_sectors st.sector_size_in_bytes : ℤ) + 33 := by omega
  have hzero : read_start 0 st.sector_size_in_bytes 0 = 0 := by
    rw [read_start, if_neg (by decide)]
  simp [far_sectors, table_entries, program_entry, hstart, hzero, hfar]

/-- **The backup GPT comes behind the declared end**: the computed size is that end and 33
sectors. -/
theorem calculate_min_disk_size_eq (st : Settings) (k : ℕ) (placed : List (Partition × Extent)) :
    calculate_min_disk_size st.sector_size_in_bytes
        (write_sorted (rawprogram_entries st k 0 placed)) = declared_end st k placed + 33 := by
  have hperm := (write_sorted_spec (rawprogram_entries st k 0 placed)).1
  rw [named_rawprogram_entries] at hperm
  unfold calculate_min_disk_size
  dsimp only
  rw [foldl_sum, foldl_last, declared_end, last_declared_end, add_assoc]
  congr 1
  have hfar := far_sectors_perm (max_sectors st.sector_size_in_bytes) hperm
  rw [far_sectors_append, far_sectors_tables] at hfar
  exact hfar

/-- No element of the document is declared with a negative number of sectors. -/
theorem num_partition_sectors_nonneg {given : ℕ} {placed : List (Partition × Extent)} {w : Entry}
    (hw : w ∈ rawprogram_entries st k given placed) : 0 ≤ w.num_partition_sectors := by
  have hentry : ∀ start offset num filename sparse,
      0 ≤ (program_entry st k given start offset num filename sparse).num_partition_sectors := by
    intro start offset num filename sparse
    simp only [program_entry]
    split_ifs <;> omega
  rcases List.mem_append.mp hw with hw | hw
  · obtain ⟨px, -, hw⟩ := List.mem_flatMap.mp hw
    obtain ⟨f, -, rfl⟩ := List.mem_map.mp hw
    exact hentry ..
  · simp only [table_entries, List.mem_cons, List.not_mem_nil, or_false] at hw
    rcases hw with rfl | rfl <;> exact hentry ..

theorem map_getD_nonneg {α : Type*} {o : Option α} {f : α → ℤ}
    (h : ∀ a, o = some a → 0 ≤ f a) : 0 ≤ (o.map f).getD 0 := by
  cases o with
  | none => exact le_rfl
  | some a => exact h a rfl

theorem declared_end_nonneg (st : Settings) (k : ℕ) (placed : List (Partition × Extent)) :
    0 ≤ declared_end st k placed := by
  have hperm := (write_sorted_spec (rawprogram_entries st k 0 placed)).1
  have hlast : 0 ≤ last_declared_end (max_sectors st.sector_size_in_bytes)
      (write_sorted (rawprogram_entries st k 0 placed)) := by
    refine map_getD_nonneg fun w hw => ?_
    obtain ⟨hmem, hknown⟩ := List.mem_filter.mp (List.mem_of_getLast? hw)
    have hnum := num_partition_sectors_nonneg (List.mem_of_mem_filter (hperm.subset hmem))
    have hstart := (of_decide_eq_true hknown).1
    omega
  have hfar : 0 ≤ far_sectors (max_sectors st.sector_size_in_bytes)
      (named_writes (partition_entries st k 0 placed)) := by
    refine List.sum_nonneg fun n hn => ?_
    obtain ⟨w, hw, rfl⟩ := List.mem_map.mp hn
    have hfar := (of_decide_eq_true (List.mem_filter.mp hw).2).2
    omega
  rw [declared_end]
  omega

end Size

/-! ## Room for everything

`LeavesRoom` is about the trace of a run and `FilesFit` about elements and lengths. The
trace records exactly the turns at which a byte is written, and these are known from the
lengths, so the two can be compared element by element.
-/

/-- Nothing but the backup GPT itself is written from `disk_sectors - 33` on, and elements with
different start sectors write no common byte. -/
structure LeavesRoom (sector_size : ℕ) (disk_sectors : ℤ) (backup : Entry)
    (writes : List Written) : Prop where
  before_backup : ∀ v ∈ writes, v.bytes ≠ [] → v.element ≠ backup →
    (v.last : ℤ) ≤ (disk_sectors - 33) * sector_size
  apart : ∀ v ∈ writes, ∀ w ∈ writes, v.element.start_sector ≠ w.element.start_sector →
    ∀ i, ¬ (v.Covers i ∧ w.Covers i)

/-- The files, cut and padded as they are written, end at the declared end at the latest, and
before the start of any later one. It is a condition on the elements and on the lengths of
their files. -/
structure FilesFit (sector_size : ℕ) (declared_end : ℤ) (backup : Entry)
    (writes_at : Entry → ℕ → Prop) : Prop where
  inside : ∀ w length, writes_at w length → w ≠ backup →
    (write_end sector_size w length : ℤ) ≤ declared_end * sector_size
  apart : ∀ v w m n, writes_at v m → writes_at w n → v.start_sector < w.start_sector →
    write_end sector_size v m ≤ write_position sector_size w

/-- The dictionary of the backup GPT on a disk of that size. -/
def backup_entry (st : Settings) (k disk_size : ℕ) : Entry :=
  replace_disk_size disk_size st.sector_size_in_bytes
    (program_entry st k 0 (-33) 0 33 (gpt_backup k) "false")

/-- The size of the disk in bytes, from the declared end. -/
def auto_disk_size (st : Settings) (k : ℕ) (placed : List (Partition × Extent)) : ℕ :=
  (declared_end st k placed + 33).toNat * st.sector_size_in_bytes

/-- The elements of which a byte is written to a wiped image of that size, and the lengths of
their files. -/
def auto_writes_at (st : Settings) (k : ℕ) (placed : List (Partition × Extent)) (files : Store) :
    Entry → ℕ → Prop :=
  WritesAt st.sector_size_in_bytes (auto_disk_size st k placed) single_image
    ((write_sorted (rawprogram_entries st k 0 placed)).map
      (replace_disk_size (auto_disk_size st k placed) st.sector_size_in_bytes))
    (Function.update files single_image (some []))

/-- `WriteSorted` has named elements only, also when the disk size is known. -/
theorem named_real_entries (st : Settings) (k given disk_size : ℕ)
    (placed : List (Partition × Extent)) :
    ∀ w ∈ (write_sorted (rawprogram_entries st k given placed)).map
      (replace_disk_size disk_size st.sector_size_in_bytes), w.filename ≠ "" := by
  intro w hw
  obtain ⟨v, hv, rfl⟩ := List.mem_map.mp hw
  have hnamed := (write_sorted_spec (rawprogram_entries st k given placed)).1.subset hv
  exact of_decide_eq_true (List.mem_filter.mp hnamed).2

/-- The trace of a run leaves room exactly if the files fit. -/
theorem leaves_room_iff {sector_size disk_size : ℕ} (hs : 0 < sector_size) {target : String}
    {l : List Entry} (hnames : ∀ w ∈ l, w.filename ≠ "") {s : WriteState}
    (hwrites : s.writes = []) (end_sector : ℤ) (backup : Entry) :
    LeavesRoom sector_size (end_sector + 33) backup
        (perform_write sector_size disk_size target l s).state.writes ↔
      FilesFit sector_size end_sector backup (WritesAt sector_size disk_size target l s.files) := by
  have hiff := fun w => @exists_write_at_iff sector_size disk_size target s w hs l hnames hwrites
  constructor
  · intro h
    refine ⟨?_, ?_⟩
    · intro w length hw hbackup
      obtain ⟨v, hv, hne, rfl, -, hlast⟩ := (hiff w).mp ⟨length, hw, rfl, rfl⟩
      have hend := h.before_backup v hv hne hbackup
      rwa [add_sub_cancel_right, hlast] at hend
    · intro v w m n hv hw hlt
      have hstart := hv.writes_byte.start
      have hle : write_position sector_size v ≤ write_position sector_size w :=
        Nat.mul_le_mul_right _ (by omega)
      have hbyte := hw.writes_byte.position_lt hs
      obtain ⟨x, hx, -, rfl, hxpos, hxlast⟩ := (hiff v).mp ⟨m, hv, rfl, rfl⟩
      obtain ⟨y, hy, -, rfl, hypos, hylast⟩ := (hiff w).mp ⟨n, hw, rfl, rfl⟩
      by_contra hover
      -- the first byte of the later one would be written twice
      refine h.apart x hx y hy hlt.ne y.position ⟨⟨?_, ?_⟩, le_rfl, ?_⟩
      · rwa [hxpos, hypos]
      · rw [hxlast, hypos]
        exact not_le.mp hover
      · rwa [hypos, hylast]
  · intro h
    have hat : ∀ v ∈ (perform_write sector_size disk_size target l s).state.writes, v.bytes ≠ [] →
        ∃ length, WritesAt sector_size disk_size target l s.files v.element length ∧
          v.position = write_position sector_size v.element ∧
          v.last = write_end sector_size v.element length :=
      fun v hv hne => (hiff v.element).mpr ⟨v, hv, hne, rfl, rfl, rfl⟩
    refine ⟨?_, ?_⟩
    · intro v hv hne hbackup
      obtain ⟨length, hw, -, hlast⟩ := hat v hv hne
      have hend := h.inside v.element length hw hbackup
      rwa [add_sub_cancel_right, hlast]
    · rintro v hv w hw hstart i ⟨hvi, hwi⟩
      have hne : ∀ x : Written, x.Covers i → x.bytes ≠ [] := by
        intro x hx hnil
        have hlast := hx.2
        rw [WriteAt.last, hnil, List.length_nil] at hlast
        exact absurd hx.1 (by omega)
      obtain ⟨m, hv', hvpos, hvlast⟩ := hat v hv (hne v hvi)
      obtain ⟨n, hw', hwpos, hwlast⟩ := hat w hw (hne w hwi)
      obtain ⟨hvlo, hvhi⟩ := hvi
      obtain ⟨hwlo, hwhi⟩ := hwi
      rcases lt_or_gt_of_ne hstart with hlt | hlt
      · have := h.apart _ _ _ _ hv' hw' hlt
        omega
      · have := h.apart _ _ _ _ hw' hv' hlt
        omega

/-- **An image of automatic size has room for everything exactly if** every file, as it is
written, ends at the declared end at the latest, and before the start of the next one. The
condition is on the elements and the lengths of their files. -/
theorem auto_size_leaves_room_iff (st : Settings) (k : ℕ) (ps : List Partition) (rand : ℕ → ℕ)
    (out : GptTables) (size : ℕ) (files : Store)
    (hout : create_gpt_partition_table st k ps rand = .ok out)
    (hsparse : NonSparse st k (ps.zip out.placed)) :
    LeavesRoom st.sector_size_in_bytes
        (calculate_min_disk_size st.sector_size_in_bytes
          (write_sorted (rawprogram_entries st k 0 (ps.zip out.placed))))
        (backup_entry st k (auto_disk_size st k (ps.zip out.placed)))
        (msp (.sectors 0) size (some out.rawprogram) none files).state.writes ↔
      FilesFit st.sector_size_in_bytes (declared_end st k (ps.zip out.placed))
        (backup_entry st k (auto_disk_size st k (ps.zip out.placed)))
        (auto_writes_at st k (ps.zip out.placed) files) := by
  have hsize := calculate_min_disk_size_eq st k (ps.zip out.placed)
  have hnonneg := declared_end_nonneg st k (ps.zip out.placed)
  rw [msp_auto hout hsparse size files (by omega), hsize]
  exact leaves_room_iff st.sector_size_pos (named_real_entries st k 0 _ _) rfl _ _

/-! ## A partition that grows

One partition that grows, with a file of one byte. Declared with no sectors, it does not
count for the size, so the data is declared to end where the file begins and the file is
written where the backup GPT goes.
-/

/-- A list of one partition, with a file. -/
def system_partition : List Partition :=
  [{ default_partition 0xEBD0A0A2 with
      size_in_kb := 1, files := [⟨"system.img", 0, 0, "false"⟩], files_ne_nil := by decide }]

/-- The file, of one byte, and the images of the call. -/
def system_files (out : GptTables) (name : String) : Option (List UInt8) :=
  if name = "system.img" then some [1]
  else if name = gpt_main 0 then some out.primary_gpt
  else if name = gpt_backup 0 then some out.backup_gpt
  else none

/-- Each of the elements is ready when the image has been wiped: its file is there, and its start
is on the disk. -/
theorem system_ready {out : GptTables} {disk_size : ℕ} {w : Entry}
    (hname : w.filename = "system.img" ∨ w.filename = gpt_main 0 ∨ w.filename = gpt_backup 0)
    (hoffset : 0 ≤ w.file_sector_offset) (hstart : 0 ≤ w.start_sector)
    (hle : w.start_sector ≤ ((disk_size / 512 : ℕ) : ℤ)) :
    Ready 512 disk_size single_image
      (Function.update (system_files out) single_image (some [])) w := by
  have hnames : w.filename ≠ "" ∧ w.filename ≠ single_image := by
    rcases hname with h | h | h <;> rw [h] <;> decide
  refine ⟨hnames.1, hnames.2, ?_, hoffset, hstart, hle⟩
  rw [Function.update_of_ne hnames.2]
  rcases hname with h | h | h <;> rw [h] <;> rfl

/-- A run over such elements, started with the image wiped, ends and writes all of them. -/
theorem system_run {out : GptTables} {disk_size : ℕ} {l : List Entry}
    (h : ∀ w ∈ l, (w.filename = "system.img" ∨ w.filename = gpt_main 0 ∨
        w.filename = gpt_backup 0) ∧
      0 ≤ w.file_sector_offset ∧ 0 ≤ w.start_sector ∧
      w.start_sector ≤ ((disk_size / 512 : ℕ) : ℤ)) :
    ∃ t, perform_write 512 disk_size single_image l
        ⟨Function.update (system_files out) single_image (some []), []⟩ = .done t ∧
      t.writes = l.map (element_write 512
        (Function.update (system_files out) single_image (some []))) := by
  have hready : ∀ w ∈ l, Ready 512 disk_size single_image
      (Function.update (system_files out) single_image (some [])) w := by
    intro w hw
    obtain ⟨hname, hoffset, hstart, hle⟩ := h w hw
    exact system_ready hname hoffset hstart hle
  obtain ⟨t, ht, hwrites⟩ := @perform_write_ready _ _ _ _ _ _ [] hready (Function.update_self ..)
  exact ⟨t, ht, hwrites⟩

/-- For the file of one byte its element writes that byte, filled up to a sector. -/
theorem system_write {out : GptTables} {w : Entry} {bytes : List UInt8}
    (hname : w.filename = "system.img") (hbytes : written 512 [1] w = some bytes) :
    element_write 512 (Function.update (system_files out) single_image (some [])) w
      = write_of 512 w bytes := by
  have hfile : Function.update (system_files out) single_image (some []) w.filename = some [1] := by
    rw [hname, Function.update_of_ne (by decide)]
    rfl
  rw [element_write, hfile, Option.bind_some, hbytes, Option.getD_some]

theorem create_system_partition : ∃ out,
    create_gpt_partition_table growing_settings 0 system_partition (fun j => j) = .ok out ∧
      out.placed = [⟨34, 33⟩] := by
  have husable : SettingsUsable growing_settings system_partition :=
    ⟨by decide, by decide, by decide⟩
  obtain ⟨out, hout⟩ := create_gpt_partition_table_total (by decide) 0 (fun j => j) husable
    (by decide) (by decide)
  have heval : layout_partitions growing_settings 1 0 system_partition
      ⟨34, 34, 0, initial_wp_hash growing_settings⟩
      = .ok (⟨34, 34, 0, initial_wp_hash growing_settings⟩, [⟨34, 33⟩]) := rfl
  exact ⟨out, hout, placed_of_layout hout rfl heval⟩

theorem system_declared_end : declared_end growing_settings 0
    (system_partition.zip [⟨34, 33⟩]) = 34 := by
  decide +kernel

/-- The dictionary of the partition's file. -/
def system_entry : Entry :=
  program_entry growing_settings 0 0 34 0 0 "system.img" "false"

theorem system_sorted :
    (write_sorted (rawprogram_entries growing_settings 0 0 (system_partition.zip [⟨34, 33⟩]))).map
        (replace_disk_size (67 * 512) 512)
      = [program_entry growing_settings 0 0 0 0 34 (gpt_main 0) "false", system_entry,
          backup_entry growing_settings 0 (67 * 512)] := by
  decide +kernel

theorem system_non_sparse : NonSparse growing_settings 0 (system_partition.zip [⟨34, 33⟩]) := by
  unfold NonSparse
  decide +kernel

/-- The loop comes to the file of the partition, whose one byte is to be written to sector 34. -/
theorem system_writes_at (out : GptTables) :
    WritesAt 512 (67 * 512) single_image
      [program_entry growing_settings 0 0 0 0 34 (gpt_main 0) "false", system_entry,
        backup_entry growing_settings 0 (67 * 512)]
      (Function.update (system_files out) single_image (some [])) system_entry 1 := by
  have hmain : gpt_main 0 ≠ single_image ∧ gpt_main 0 ≠ "system.img" := by decide
  have hfiles : ∀ name, name ≠ single_image →
      Function.update (system_files out) single_image (some []) name = system_files out name :=
    fun name hne => Function.update_of_ne hne _ _
  have hgpt : system_files out (gpt_main 0) = some out.primary_gpt := by
    rw [system_files, if_neg hmain.2, if_pos rfl]
  refine ⟨by rw [Function.update_self]; rfl, ⟨[_], [_], rfl, ?_, ?_⟩, by decide⟩
  · -- the primary GPT is there, and sector 0 is on the disk
    rw [List.forall_mem_singleton]
    rintro (hnone | hoffset | hstart)
    · have hname : (program_entry growing_settings 0 0 0 0 34 (gpt_main 0) "false").filename
          = gpt_main 0 := rfl
      rw [hname, hfiles _ hmain.1, hgpt] at hnone
      cases hnone
    · exact absurd hoffset (by decide)
    · exact absurd hstart (by decide)
  · have hother : system_entry.filename ≠ single_image := show "system.img" ≠ single_image by decide
    rw [lengths_after_other hother, hfiles _ hother]
    rfl

/-- The file does not fit: it ends behind the declared end, which is the start of sector 34. -/
theorem system_not_files_fit (out : GptTables) :
    ¬ FilesFit 512 (declared_end growing_settings 0 (system_partition.zip [⟨34, 33⟩]))
      (backup_entry growing_settings 0
        (auto_disk_size growing_settings 0 (system_partition.zip [⟨34, 33⟩])))
      (auto_writes_at growing_settings 0 (system_partition.zip [⟨34, 33⟩])
        (system_files out)) := by
  have hdisk : auto_disk_size growing_settings 0 (system_partition.zip [⟨34, 33⟩]) = 67 * 512 := by
    rw [auto_disk_size, system_declared_end]
    rfl
  have hsector : growing_settings.sector_size_in_bytes = 512 := rfl
  intro h
  have hend := h.inside system_entry 1 (by
    rw [auto_writes_at, hdisk, hsector, system_sorted]
    exact system_writes_at out) (by
      rw [hdisk]
      decide +kernel)
  have hlast : write_end 512 system_entry 1 = 35 * 512 := by decide +kernel
  rw [system_declared_end, hlast] at hend
  norm_num at hend

theorem auto_size_leaves_room_system : ∃ out,
    create_gpt_partition_table growing_settings 0 system_partition (fun j => j) = .ok out ∧
      (LeavesRoom 512 (calculate_min_disk_size 512 (write_sorted (rawprogram_entries
            growing_settings 0 0 (system_partition.zip out.placed))))
          (backup_entry growing_settings 0
            (auto_disk_size growing_settings 0 (system_partition.zip out.placed)))
          (msp (.sectors 0) 512 (some out.rawprogram) none (system_files out)).state.writes ↔
        FilesFit 512 (declared_end growing_settings 0 (system_partition.zip out.placed))
          (backup_entry growing_settings 0
            (auto_disk_size growing_settings 0 (system_partition.zip out.placed)))
          (auto_writes_at growing_settings 0 (system_partition.zip out.placed)
            (system_files out))) := by
  obtain ⟨out, hout, hplaced⟩ := create_system_partition
  exact ⟨out, hout, auto_size_leaves_room_iff growing_settings 0 system_partition (fun j => j) out
    512 (system_files out) hout (by
      rw [hplaced]
      exact system_non_sparse)⟩

/-- The image gets 67 sectors, and the file of the partition that grows is written to the first
of the last 33. -/
theorem system_not_leaves_room : ∃ out,
    create_gpt_partition_table growing_settings 0 system_partition (fun j => j) = .ok out ∧
      NonSparse growing_settings 0 (system_partition.zip out.placed) ∧
      ¬ LeavesRoom 512 (calculate_min_disk_size 512 (write_sorted (rawprogram_entries
            growing_settings 0 0 (system_partition.zip out.placed))))
          (backup_entry growing_settings 0
            (auto_disk_size growing_settings 0 (system_partition.zip out.placed)))
          (msp (.sectors 0) 512 (some out.rawprogram) none (system_files out)).state.writes := by
  obtain ⟨out, hout, hplaced⟩ := create_system_partition
  have hsector : growing_settings.sector_size_in_bytes = 512 := rfl
  have hsize := calculate_min_disk_size_eq growing_settings 0 (system_partition.zip out.placed)
  have hsparse : NonSparse growing_settings 0 (system_partition.zip out.placed) := by
    rw [hplaced]
    exact system_non_sparse
  have hnot := system_not_files_fit out
  rw [hsector] at hsize
  refine ⟨out, hout, hsparse, fun h => hnot ?_⟩
  rw [msp_auto hout hsparse 512 (system_files out) (by
    rw [hsector, hsize, hplaced, system_declared_end]
    decide), hsector, hsize] at h
  rw [hplaced] at h
  exact (leaves_room_iff (by decide) (named_real_entries growing_settings 0 0 _ _) rfl _ _).mp h

end AndroidTools.Pipeline
