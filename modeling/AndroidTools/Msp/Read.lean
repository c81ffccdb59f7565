/-
`PerformRead`, and `msp.py` for documents with `<read>` elements.

A read copies sectors of the disk into a file of the host. `ParseXML` collects the reads
beside the programs and the patches, and the main program performs them before anything
is written and, when there is something to program, once more at the end: the files then
hold the sectors as the run leaves them.

The same element with the tag `program` writes the file back to the sectors it came
from. `restore_backup` is about the two runs: what is read from a disk and written back
later puts every sector of the reads back as it was, whatever happened to the disk in
between and however the reads overlap, and touches no other byte.
-/
import AndroidTools.Msp.Main

set_option autoImplicit false

namespace AndroidTools.Msp

open AndroidTools.Bytes AndroidTools.Writes

/-! ## The documents

`ParseXML` fills three arrays in one pass over a document. The third one, for `<read>`
elements, is left out of the model of `msp` and added here.
-/

/-- The global arrays, with `ReadArray` among them. -/
structure AllArrays extends Arrays where
  read_array : List Entry
  deriving Repr, DecidableEq

/-- `ParseXML`, for all three kinds of elements. -/
def parse_xml_all (disk_size : ℕ) : List XmlElement → AllArrays → Option AllArrays
  | [], s => some s
  | e :: es, s =>
    if e.tag = "read" then
      if e.attrib = [] then none
      else match return_parsed_values disk_size e with
        | some (r, sector_size) =>
          parse_xml_all disk_size es
            { s with sector_size := sector_size, read_array := s.read_array ++ [r] }
        | none => none
    else if e.tag = "program" then
      if e.attrib = [] then none
      else match return_parsed_values disk_size e with
        | some (w, sector_size) =>
          parse_xml_all disk_size es
            { s with sector_size := sector_size, write_array := s.write_array ++ [w] }
        | none => none
    else if e.tag = "patch" then
      if e.attrib = [] then none
      else match return_parsed_values disk_size e with
        | some (p, sector_size) =>
          parse_xml_all disk_size es
            { s with sector_size := sector_size, patch_array := s.patch_array ++ [p] }
        | none => none
    else parse_xml_all disk_size es s

/-! ## `PerformRead`

A read copies sectors of the disk into a file, in one piece. A negative start sector is
skipped, but only after the disk was opened.
-/

/-- `opfile.read(size)` at the start sector: as much of the sectors as the disk has. -/
def read_sectors (sector_size : ℕ) (image : List UInt8) (r : Entry) : List UInt8 :=
  read_bytes (image.drop (r.start_sector.toNat * sector_size))
    (r.num_partition_sectors * sector_size)

/-- One pass of the loop. A negative start sector is skipped once the disk is open. -/
def perform_read_one (sector_size disk_size : ℕ) (target : String) (files : Store) (r : Entry) :
    Run Store :=
  if r.filename = "" then .done files
  else if r.num_partition_sectors = 0 then .done files
  else
    match files target with
    | none => .exit files
    | some image =>
      if r.start_sector < 0 then .done files
      else if ((disk_size / sector_size : ℕ) : ℤ) < r.start_sector then .exit files
      else .done (Function.update files r.filename (some (read_sectors sector_size image r)))

/-- `PerformRead`, over `ReadArray`; the first read that leaves ends it. -/
def perform_read (sector_size disk_size : ℕ) (target : String) (read_array : List Entry)
    (files : Store) : Run Store :=
  Run.each (perform_read_one sector_size disk_size target) read_array files

/-! ## The program

The program with all three kinds of elements. The reads are performed first, and where there
are programs once more at the end, so what a file holds then is what the disk holds then.
-/

/-- Reading, writing and patching, whatever was asked for. -/
def perform_all (dest : Dest) (sector_size disk_size : ℕ) (program patch : Bool)
    (sorted patches reads : List Entry) (files : Store) : Run WriteState :=
  let read : WriteState → Run WriteState := fun s =>
    (perform_read sector_size disk_size dest.filename reads s.files).map fun files =>
      { s with files := files }
  let write := perform_write sector_size disk_size dest.filename sorted
  let patching : WriteState → Run WriteState := fun s =>
    if patch then
      (perform_patching dest.patching sector_size dest.filename patches s.files).map fun files =>
        { s with files := files }
    else .done s
  -- an old image is wiped
  let files := if program = true ∧ dest.filename = single_image then
    Function.update files single_image (some []) else files
  (read ⟨files, []⟩).bind fun s =>
    if program then
      -- an image is patched first, a disk is written first
      (if dest.filename = single_image then (patching s).bind write
        else (write s).bind patching).bind read
    else patching s

/-- `msp.py -n`, with `-r` and `-p` where there is a document. Whether there is something
to read is decided before the patches are parsed. -/
def msp_with_reads (dest : Dest) (sector_size : ℕ) (rawprogram patch : Option (List XmlElement))
    (files : Store) : Run WriteState :=
  let stop : Run WriteState := .exit ⟨files, []⟩
  let given := dest.disk_size sector_size
  match parse_xml_all given (rawprogram.getD []) ⟨⟨sector_size, [], []⟩, []⟩ with
  | none => stop
  | some arrays =>
    if 0 < given ∧ given < initial_min_disk_size * arrays.sector_size then stop
    else if (named_writes arrays.write_array).any is_sparse then stop
    else
      let sorted := write_sorted arrays.write_array
      let disk_size :=
        if given = 0 then
          (calculate_min_disk_size arrays.sector_size sorted).toNat * arrays.sector_size
        else given
      if disk_size = 0 then stop
      else
        match parse_xml_all disk_size (patch.getD []) arrays with
        | none => stop
        | some arrays' =>
          let real := replace_disk_size disk_size arrays'.sector_size
          perform_all dest arrays'.sector_size disk_size (arrays.write_array ≠ [])
            patch.isSome (sorted.map real) (arrays'.patch_array.map real)
            (if arrays.read_array = [] then [] else arrays'.read_array.map real) files

/-! ## Documents without reads

The model without reads is the special case of a document that has none, so what is proved
of `msp` is proved of the whole program on such documents.
-/

theorem parse_xml_all_of_no_reads {doc : List XmlElement} (h : ∀ e ∈ doc, e.tag ≠ "read")
    (disk_size : ℕ) (s : AllArrays) :
    parse_xml_all disk_size doc s
      = (parse_xml disk_size doc s.toArrays).map fun arrays => ⟨arrays, s.read_array⟩ := by
  induction doc generalizing s with
  | nil => rfl
  | cons e doc ih =>
    rw [List.forall_mem_cons] at h
    have ih := ih h.2
    rw [parse_xml_all, parse_xml, if_neg h.1]
    split_ifs
    · rfl
    · cases return_parsed_values disk_size e with
      | none => rfl
      | some v => exact ih _
    · rfl
    · cases return_parsed_values disk_size e with
      | none => rfl
      | some v => exact ih _
    · exact ih _

theorem perform_read_nil (sector_size disk_size : ℕ) (target : String) (files : Store) :
    perform_read sector_size disk_size target [] files = .done files := rfl

/-- With nothing to read only the writes and patches are performed. -/
theorem perform_all_of_no_reads {dest : Dest}
    (hdest : ∀ name size, dest = .disk name size → name ≠ single_image)
    (sector_size disk_size : ℕ) (program patch : Bool) (sorted patches : List Entry)
    (files : Store) :
    perform_all dest sector_size disk_size program patch sorted patches [] files
      = perform_operations dest sector_size disk_size program patch sorted patches files := by
  have hend : ∀ r : Run WriteState, r.bind (fun s => .done s) = r := by
    intro r
    cases r <;> rfl
  unfold perform_all perform_operations
  simp only [perform_read_nil, Run.map_done, Run.bind_done]
  cases dest with
  | sectors n =>
    simp only [Dest.filename, Dest.patching, and_true, if_true]
    cases program <;> cases patch <;> simp only [hend, Bool.false_eq_true, if_true, if_false,
      Run.map_done, Run.bind_done]
  | disk name size =>
    have hname := hdest name size rfl
    simp only [Dest.filename, Dest.patching, hname, and_false, if_false]
    cases program <;> cases patch <;> simp only [hend, Bool.false_eq_true, if_true, if_false,
      Run.bind_done]

/-- Without `<read>` elements the program is the one that knows no reads. -/
theorem msp_with_reads_of_no_reads {dest : Dest}
    (hdest : ∀ name size, dest = .disk name size → name ≠ single_image) (sector_size : ℕ)
    {rawprogram patch : Option (List XmlElement)}
    (hraw : ∀ e ∈ rawprogram.getD [], e.tag ≠ "read")
    (hpatch : ∀ e ∈ patch.getD [], e.tag ≠ "read") (files : Store) :
    msp_with_reads dest sector_size rawprogram patch files
      = msp dest sector_size rawprogram patch files := by
  unfold msp_with_reads msp
  dsimp only
  rw [parse_xml_all_of_no_reads hraw]
  cases parse_xml _ _ _ with
  | none => rfl
  | some arrays =>
    dsimp only [Option.map_some]
    split_ifs <;> try rfl
    all_goals
      rw [parse_xml_all_of_no_reads hpatch]
      cases parse_xml _ _ _ with
      | none => rfl
      | some arrays' => exact perform_all_of_no_reads hdest ..

/-! ## What the reads leave

Each file holds the sectors that its read names, where the names are different, and nothing
else has changed; the disk is only read.
-/

section Reads

variable {sector_size disk_size : ℕ} {target : String} {reads : List Entry} {files : Store}
  {image : List UInt8}

/-- The read copies something: it has a file other than the disk, at least a sector, and starts on
the disk. -/
structure Reads (disk_sectors : ℕ) (target : String) (r : Entry) : Prop where
  named : r.filename ≠ ""
  not_target : r.filename ≠ target
  some_sectors : r.num_partition_sectors ≠ 0
  start : 0 ≤ r.start_sector
  on_disk : r.start_sector ≤ disk_sectors

theorem perform_read_one_done {r : Entry} (h : Reads (disk_size / sector_size) target r)
    (himage : files target = some image) :
    perform_read_one sector_size disk_size target files r
      = .done (Function.update files r.filename (some (read_sectors sector_size image r))) := by
  rw [perform_read_one, if_neg h.named, if_neg h.some_sectors, himage]
  dsimp only
  rw [if_neg (not_lt.mpr h.start), if_neg (not_lt.mpr h.on_disk)]

/-- **The files hold the sectors of the reads**, and nothing else has changed. -/
theorem perform_read_done (h : ∀ r ∈ reads, Reads (disk_size / sector_size) target r)
    (hnames : (reads.map Entry.filename).Nodup) (himage : files target = some image) :
    ∃ files', perform_read sector_size disk_size target reads files = .done files' ∧
      (∀ r ∈ reads, files' r.filename = some (read_sectors sector_size image r)) ∧
      ∀ name ∉ reads.map Entry.filename, files' name = files name := by
  induction reads generalizing files with
  | nil => exact ⟨files, rfl, by simp, fun _ _ => rfl⟩
  | cons r reads ih =>
    rw [List.forall_mem_cons] at h
    rw [List.map_cons, List.nodup_cons] at hnames
    have htarget : Function.update files r.filename (some (read_sectors sector_size image r)) target
        = some image := by rw [Function.update_of_ne h.1.not_target.symm, himage]
    obtain ⟨files', hrun, hread, hother⟩ := ih h.2 hnames.2 htarget
    refine ⟨files', ?_, List.forall_mem_cons.mpr ⟨?_, hread⟩, fun name hname => ?_⟩
    · rw [perform_read, Run.each_cons, perform_read_one_done h.1 himage, Run.bind_done]
      exact hrun
    · rw [hother _ hnames.1, Function.update_self]
    · rw [List.map_cons, List.mem_cons, not_or] at hname
      rw [hother name hname.2, Function.update_of_ne hname.1]

end Reads

/-! ## Writing back what was read

The same elements, with their tag changed, are the programs that restore what was saved. A
read saves whole sectors of the disk and starts its file at the beginning, so what is
written back is the file as it is; `Saves` and `Backup` name what this takes.
-/

/-- The `<read>` element as a `<program>` element, with the same attributes. -/
def as_program (e : XmlElement) : XmlElement :=
  if e.tag = "read" then { e with tag := "program" } else e

/-- Read as programs, the elements fill `WriteArray` with what they put into `ReadArray`. -/
theorem parse_as_program {doc : List XmlElement}
    (h : ∀ e ∈ doc, e.tag ≠ "program" ∧ e.tag ≠ "patch") {disk_size : ℕ} {s t : AllArrays}
    (ht : parse_xml_all disk_size doc s = some t) :
    ∃ new, t = ⟨⟨t.sector_size, s.write_array, s.patch_array⟩, s.read_array ++ new⟩ ∧
      ∀ ws ps rs, parse_xml_all disk_size (doc.map as_program) ⟨⟨s.sector_size, ws, ps⟩, rs⟩
        = some ⟨⟨t.sector_size, ws ++ new, ps⟩, rs⟩ := by
  induction doc generalizing s with
  | nil =>
    cases ht
    exact ⟨[], by rw [List.append_nil], fun ws ps rs => by rw [List.append_nil]; rfl⟩
  | cons e doc ih =>
    rw [List.forall_mem_cons] at h
    obtain ⟨⟨hprogram, hpatch⟩, h⟩ := h
    rw [parse_xml_all] at ht
    by_cases htag : e.tag = "read"
    · rw [if_pos htag] at ht
      by_cases hattrib : e.attrib = []
      · rw [if_pos hattrib] at ht
        cases ht
      rw [if_neg hattrib] at ht
      -- the element is read the same, whatever its tag
      have hvalues : return_parsed_values disk_size { e with tag := "program" }
          = return_parsed_values disk_size e := rfl
      cases hread : return_parsed_values disk_size e with
      | none =>
        rw [hread] at ht
        cases ht
      | some v =>
        rw [hread] at ht hvalues
        obtain ⟨new, hnew, hall⟩ := ih h ht
        refine ⟨v.1 :: new, ?_, fun ws ps rs => ?_⟩
        · rw [hnew, List.append_assoc, List.singleton_append]
        · rw [List.map_cons, as_program, if_pos htag, parse_xml_all,
            if_neg (show ¬ "program" = "read" by decide), if_pos rfl, if_neg hattrib, hvalues]
          dsimp only
          rw [hall, List.append_assoc, List.singleton_append]
    · rw [if_neg htag, if_neg hprogram, if_neg hpatch] at ht
      obtain ⟨new, hnew, hall⟩ := ih h ht
      refine ⟨new, hnew, fun ws ps rs => ?_⟩
      rw [List.map_cons, as_program, if_neg htag, parse_xml_all, if_neg htag, if_neg hprogram,
        if_neg hpatch, hall]

/-- The read saves sectors of the disk `name` of `size` bytes in a file of their own. -/
structure Saves (sector_size : ℕ) (name : String) (size : ℕ) (r : Entry) : Prop where
  named : r.filename ≠ ""
  not_target : r.filename ≠ name
  offset : r.file_sector_offset = 0
  not_sparse : is_sparse r = false
  start : 0 ≤ r.start_sector
  some_sectors : 0 < r.num_partition_sectors
  on_disk : (r.start_sector + r.num_partition_sectors) * sector_size ≤ size

/-- Byte `i` of the disk is in the sectors of the read. -/
def InSectors (sector_size : ℕ) (r : Entry) (i : ℕ) : Prop :=
  r.start_sector * sector_size ≤ i ∧
    i < (r.start_sector + r.num_partition_sectors) * sector_size

section Saved

variable {sector_size : ℕ} {name : String} {size : ℕ} {r : Entry}

/-- The sectors of such a read, as natural numbers that end on the disk. -/
theorem Saves.sectors (h : Saves sector_size name size r) :
    ∃ start n : ℕ, r.start_sector = start ∧ r.num_partition_sectors = n ∧ 0 < n ∧
      start * sector_size + n * sector_size ≤ size := by
  obtain ⟨start, hstart⟩ := Int.eq_ofNat_of_zero_le h.start
  obtain ⟨n, hn⟩ := Int.eq_ofNat_of_zero_le h.some_sectors.le
  have hdisk := h.on_disk
  have hpos := h.some_sectors
  rw [hn] at hpos
  rw [hstart, hn] at hdisk
  refine ⟨start, n, hstart, hn, by exact_mod_cast hpos, ?_⟩
  rw [← Nat.add_mul]
  exact_mod_cast hdisk

/-- No sector number of such a read is a gigantic one, so none is replaced. -/
theorem Saves.start_le (hs : 0 < sector_size) (h : Saves sector_size name size r) :
    r.start_sector ≤ ((size / sector_size : ℕ) : ℤ) ∧
      r.num_partition_sectors ≤ ((size / sector_size : ℕ) : ℤ) := by
  obtain ⟨start, n, hstart, hn, -, hle⟩ := h.sectors
  rw [hstart, hn, Nat.cast_le, Nat.cast_le, Nat.le_div_iff_mul_le hs, Nat.le_div_iff_mul_le hs]
  omega

theorem Saves.real (hs : 0 < sector_size) (hsize : size ≤ emmcbld_max_disk_size_in_bytes)
    (h : Saves sector_size name size r) :
    ∃ v, replace_disk_size size sector_size r = { r with value := v } := by
  have hmax : ((size / sector_size : ℕ) : ℤ)
      ≤ ((emmcbld_max_disk_size_in_bytes / sector_size : ℕ) : ℤ) :=
    Int.ofNat_le.mpr (Nat.div_le_div_right hsize)
  have hzero : (0 : ℤ) ≤ ((size / sector_size : ℕ) : ℤ) := Int.natCast_nonneg _
  obtain ⟨hstart, hnum⟩ := h.start_le hs
  have hoffset := h.offset
  refine ⟨real_value ((size / sector_size : ℕ) : ℤ)
    ((emmcbld_max_disk_size_in_bytes / sector_size : ℕ) : ℤ) r.value, ?_⟩
  rw [replace_disk_size, @real_value_of_le _ _ r.start_sector (by omega),
    @real_value_of_le _ _ r.num_partition_sectors (by omega),
    @real_value_of_le _ _ r.file_sector_offset (by omega)]

/-- What such a read copies is all of its sectors. -/
theorem Saves.read_sectors {image : List UInt8} (hlen : image.length = size)
    (h : Saves sector_size name size r) :
    read_sectors sector_size image r = slice image (r.start_sector.toNat * sector_size)
        (r.num_partition_sectors.toNat * sector_size) ∧
      (read_sectors sector_size image r).length
        = r.num_partition_sectors.toNat * sector_size := by
  obtain ⟨start, n, hstart, hn, -, hle⟩ := h.sectors
  have hread : Msp.read_sectors sector_size image r
      = slice image (r.start_sector.toNat * sector_size)
        (r.num_partition_sectors.toNat * sector_size) := by
    have hneg : ¬ (n : ℤ) * sector_size < 0 := by exact_mod_cast Nat.not_lt_zero _
    rw [Msp.read_sectors, hn, read_bytes, if_neg hneg, slice, Int.toNat_natCast]
    congr 1
  refine ⟨hread, ?_⟩
  rw [hread, length_slice_of_le]
  rw [hstart, hn, Int.toNat_natCast, Int.toNat_natCast, hlen]
  exact hle

/-- The file of such a read has whole sectors and is written back as it is. -/
theorem Saves.written (hs : 0 < sector_size) (hdvd : sector_size ∣ max_file_size_before_split)
    {image : List UInt8} (hlen : image.length = size) (h : Saves sector_size name size r)
    (v : ℤ) :
    Msp.written sector_size (Msp.read_sectors sector_size image r) { r with value := v }
      = some (Msp.read_sectors sector_size image r) := by
  obtain ⟨start, n, -, hn, hpos, -⟩ := h.sectors
  obtain ⟨-, hlength⟩ := h.read_sectors hlen
  rw [hn, Int.toNat_natCast] at hlength
  rw [@written_eq_pad _ _ { r with value := v } hs hdvd h.offset n hn, if_neg hpos.ne',
    ← hlength, List.take_length, pad_of_dvd (by rw [hlength]; exact Nat.dvd_mul_left _ _)]

end Saved

/-- The document saves sectors of the disk, and does nothing else. -/
structure Backup (sector_size : ℕ) (name : String) (size : ℕ) (doc : List XmlElement)
    (arrays : AllArrays) : Prop where
  only_reads : ∀ e ∈ doc, e.tag ≠ "program" ∧ e.tag ≠ "patch"
  parsed : parse_xml_all size doc ⟨⟨sector_size, [], []⟩, []⟩ = some arrays
  some_reads : arrays.read_array ≠ []
  whole_pieces : arrays.sector_size ∣ max_file_size_before_split
  disk_size : size ≤ emmcbld_max_disk_size_in_bytes
  names : (arrays.read_array.map Entry.filename).Nodup
  saves : ∀ r ∈ arrays.read_array, Saves arrays.sector_size name size r

section Restore

variable {sector_size : ℕ} {name : String} {size : ℕ} {doc : List XmlElement} {arrays : AllArrays}

theorem Backup.sector_size_pos (h : Backup sector_size name size doc arrays) :
    0 < arrays.sector_size :=
  Nat.pos_of_dvd_of_pos h.whole_pieces (by decide)

theorem Backup.size_pos (h : Backup sector_size name size doc arrays) : 0 < size := by
  obtain ⟨r, hr⟩ := List.exists_mem_of_ne_nil _ h.some_reads
  obtain ⟨start, n, -, -, hpos, hle⟩ := (h.saves r hr).sectors
  have hmul := Nat.mul_pos hpos h.sector_size_pos
  omega

/-- The reads as they are performed, with the disk size put in. -/
def resolved (size : ℕ) (arrays : AllArrays) : List Entry :=
  arrays.read_array.map (replace_disk_size size arrays.sector_size)

theorem Backup.mem_resolved (h : Backup sector_size name size doc arrays) {r : Entry}
    (hr : r ∈ resolved size arrays) :
    ∃ r₀ ∈ arrays.read_array, ∃ v, r = { r₀ with value := v } := by
  obtain ⟨r₀, hr₀, rfl⟩ := List.mem_map.mp hr
  obtain ⟨v, hv⟩ := (h.saves r₀ hr₀).real h.sector_size_pos h.disk_size
  exact ⟨r₀, hr₀, v, hv⟩

theorem resolved_filename (size : ℕ) (arrays : AllArrays) :
    (resolved size arrays).map Entry.filename = arrays.read_array.map Entry.filename := by
  rw [resolved, List.map_map]
  exact List.map_congr_left fun r _ => rfl

/-- The backup leaves the disk alone and fills the files of the reads. -/
theorem Backup.run (h : Backup sector_size name size doc arrays) {files : Store}
    {image : List UInt8} (himage : files name = some image) :
    ∃ files', msp_with_reads (.disk name size) sector_size (some doc) none files
        = .done ⟨files', []⟩ ∧ files' name = some image ∧
      ∀ r ∈ arrays.read_array,
        files' r.filename = some (read_sectors arrays.sector_size image r) := by
  have hreads : ∀ r ∈ resolved size arrays, Reads (size / arrays.sector_size) name r := by
    intro r hr
    obtain ⟨r₀, hr₀, v, rfl⟩ := h.mem_resolved hr
    have hsaves := h.saves r₀ hr₀
    exact ⟨hsaves.named, hsaves.not_target, hsaves.some_sectors.ne', hsaves.start,
      (hsaves.start_le h.sector_size_pos).1⟩
  obtain ⟨files', hrun, hread, hother⟩ := perform_read_done hreads
    (by rw [resolved_filename]; exact h.names) himage
  refine ⟨files', ?_, ?_, fun r hr => ?_⟩
  · obtain ⟨new, hnew, -⟩ := parse_as_program h.only_reads h.parsed
    have hwrite : arrays.write_array = [] := by rw [hnew]
    have hsorted : write_sorted [] = [] := rfl
    unfold msp_with_reads
    simp only [Dest.disk_size, Option.getD_some, Option.getD_none, parse_xml_all, h.parsed, hwrite,
      named_writes, List.filter_nil, List.any_nil, Bool.false_eq_true, if_false, hsorted,
      if_neg h.size_pos.ne', initial_min_disk_size, Nat.zero_mul, Nat.not_lt_zero, and_false,
      if_neg h.some_reads]
    rw [perform_all]
    simp only [Dest.filename, ne_eq, not_true_eq_false, decide_false, Bool.false_eq_true,
      false_and, if_false, Option.isSome_none]
    rw [resolved] at hrun
    rw [hrun, Run.map_done, Run.bind_done]
  · rw [hother, himage]
    rw [resolved_filename]
    intro hin
    obtain ⟨r, hr, heq⟩ := List.mem_map.mp hin
    exact (h.saves r hr).not_target heq
  · obtain ⟨v, hv⟩ := (h.saves r hr).real h.sector_size_pos h.disk_size
    have hmem := hread _ (List.mem_map_of_mem (f := replace_disk_size size arrays.sector_size) hr)
    rw [hv] at hmem
    exact hmem

/-- The programs to write back are the reads. -/
theorem Backup.mem_write_sorted (h : Backup sector_size name size doc arrays) {r : Entry} :
    r ∈ write_sorted arrays.read_array ↔ r ∈ arrays.read_array := by
  rw [(write_sorted_spec _).1.mem_iff, named_writes, List.mem_filter]
  exact ⟨And.left, fun hr => ⟨hr, decide_eq_true (h.saves r hr).named⟩⟩

/-- The programs write the files of the reads to the disk, in some order. -/
theorem Backup.restore_run (h : Backup sector_size name size doc arrays)
    (hname : name ≠ single_image) {files : Store} {changed : List UInt8}
    (htarget : files name = some changed) {image : List UInt8} (hlen : image.length = size)
    (hfiles : ∀ r ∈ arrays.read_array,
      files r.filename = some (read_sectors arrays.sector_size image r)) :
    ∃ t, msp_with_reads (.disk name size) sector_size (some (doc.map as_program)) none files
        = .done t ∧ t.files name = some (runWrites ((write_sorted arrays.read_array).map fun r =>
          ⟨r.start_sector.toNat * arrays.sector_size, read_sectors arrays.sector_size image r⟩)
          changed) := by
  have hs := h.sector_size_pos
  obtain ⟨new, hnew, hall⟩ := parse_as_program h.only_reads h.parsed
  have hnew' : arrays.read_array = new := by
    rw [hnew]
    rfl
  have hnoreads : ∀ e ∈ doc.map as_program, e.tag ≠ "read" := by
    rw [List.forall_mem_map]
    intro e _
    rw [as_program]
    split_ifs with htag
    · exact (by decide : "program" ≠ "read")
    · exact htag
  have hparse : parse_xml size (doc.map as_program) ⟨sector_size, [], []⟩
      = some ⟨arrays.sector_size, arrays.read_array, []⟩ := by
    have hmap := hall [] [] []
    rw [parse_xml_all_of_no_reads hnoreads, List.nil_append, ← hnew'] at hmap
    obtain ⟨a, ha, heq⟩ := Option.map_eq_some_iff.mp hmap
    rw [ha]
    exact congrArg (fun a : AllArrays => some a.toArrays) heq
  -- every program is ready, with the bytes that were read for it
  obtain ⟨t, ht, htarget⟩ := msp_disk_ready hparse h.size_pos.ne' h.some_reads
    (fun r hr => (h.saves r (List.mem_filter.mp hr).1).not_sparse) (fun r hr => by
      have hmem := (List.mem_filter.mp hr).1
      have hsaves := h.saves r hmem
      obtain ⟨v, hv⟩ := hsaves.real hs h.disk_size
      rw [hv]
      exact ⟨hsaves.named, hsaves.not_target, by rw [hfiles r hmem]; rfl, hsaves.offset.ge,
        hsaves.start, (hsaves.start_le hs).1⟩) htarget
  have hdest : ∀ name' size', Dest.disk name size = .disk name' size' → name' ≠ single_image := by
    intro name' size' heq
    cases heq
    exact hname
  refine ⟨t, ?_, ?_⟩
  · rw [@msp_with_reads_of_no_reads (.disk name size) hdest sector_size
      (some (doc.map as_program)) none hnoreads (fun e he => absurd he List.not_mem_nil) files]
    exact ht
  · rw [htarget]
    refine congrArg (fun ws => some (runWrites ws changed)) (List.map_congr_left fun r hr => ?_)
    have hmem := h.mem_write_sorted.mp hr
    have hsaves := h.saves r hmem
    obtain ⟨v, hv⟩ := hsaves.real hs h.disk_size
    rw [hv, element_write]
    dsimp only [write_of]
    rw [hfiles r hmem, Option.bind_some, hsaves.written hs h.whole_pieces hlen v,
      Option.getD_some]

/-- **A backup restores the disk.** The first run fills the files and leaves the disk as it
is; whatever the disk holds when they are written back, afterwards its bytes in the sectors
of the reads are those of the backup, and all others are as they were. -/
theorem restore_backup (h : Backup sector_size name size doc arrays)
    (hname : name ≠ single_image) {files : Store} {image : List UInt8}
    (himage : files name = some image) (hlen : image.length = size) :
    ∃ s, msp_with_reads (.disk name size) sector_size (some doc) none files = .done s ∧
      s.files name = some image ∧
      ∀ (files' : Store) (changed : List UInt8),
        (∀ r ∈ arrays.read_array, files' r.filename = s.files r.filename) →
        files' name = some changed → changed.length = size →
        ∃ t restored, msp_with_reads (.disk name size) sector_size
            (some (doc.map as_program)) none files' = .done t ∧
          t.files name = some restored ∧ restored.length = size ∧
          ∀ i, ((∃ r ∈ arrays.read_array, InSectors arrays.sector_size r i) →
              restored.getD i 0 = image.getD i 0) ∧
            ((∀ r ∈ arrays.read_array, ¬ InSectors arrays.sector_size r i) →
              restored.getD i 0 = changed.getD i 0) := by
  obtain ⟨files₁, hrun, htarget, hread⟩ := h.run himage
  refine ⟨_, hrun, htarget, fun files' changed hsame hchanged hchangedlen => ?_⟩
  obtain ⟨t, ht, hrestored⟩ := h.restore_run hname hchanged hlen
    fun r hr => (hsame r hr).trans (hread r hr)
  -- the write of a read covers its sectors
  have hcovers : ∀ r ∈ arrays.read_array, ∀ i,
      WriteAt.Covers ⟨r.start_sector.toNat * arrays.sector_size,
        read_sectors arrays.sector_size image r⟩ i ↔ InSectors arrays.sector_size r i := by
    intro r hr i
    obtain ⟨start, n, hstart, hn, -, -⟩ := (h.saves r hr).sectors
    have hlength := ((h.saves r hr).read_sectors hlen).2
    rw [WriteAt.Covers, WriteAt.last, hlength, InSectors, hstart, hn, Int.toNat_natCast,
      Int.toNat_natCast, ← Nat.add_mul]
    norm_cast
  refine ⟨t, _, ht, hrestored, ?_, fun i => ⟨?_, ?_⟩⟩
  · rw [length_runWrites, hchangedlen]
    intro w hw
    obtain ⟨r, hr, rfl⟩ := List.mem_map.mp hw
    have hsaves := h.saves r (h.mem_write_sorted.mp hr)
    obtain ⟨start, n, hstart, hn, -, hle⟩ := hsaves.sectors
    rw [WriteAt.last, (hsaves.read_sectors hlen).2, hstart, hn, hchangedlen]
    exact hle
  · rintro ⟨r, hr, hi⟩
    refine getD_runWrites_agree ⟨_, List.mem_map_of_mem (h.mem_write_sorted.mpr hr),
      (hcovers r hr i).mpr hi⟩ fun w hw hiw => ?_
    obtain ⟨r', hr', rfl⟩ := List.mem_map.mp hw
    have hmem := h.mem_write_sorted.mp hr'
    obtain ⟨hslice, hlength⟩ := (h.saves r' hmem).read_sectors hlen
    obtain ⟨hfrom, hto⟩ := hiw
    rw [WriteAt.last] at hto
    dsimp only at hfrom hto ⊢
    rw [hlength] at hto
    rw [hslice, getD_slice, if_pos (by omega), Nat.add_sub_cancel' hfrom]
  · intro hno
    refine getD_runWrites_apart fun w hw => ?_
    obtain ⟨r, hr, rfl⟩ := List.mem_map.mp hw
    have hmem := h.mem_write_sorted.mp hr
    rw [hcovers r hmem i]
    exact hno r hmem

end Restore

/-- Reads of the two partition tables of a disk. -/
def table_reads : List XmlElement :=
  [⟨"data", []⟩,
    ⟨"read", [("filename", "main.bin"), ("start_sector", "0"), ("num_partition_sectors", "34")]⟩,
    ⟨"read", [("filename", "backup.bin"), ("start_sector", "NUM_DISK_SECTORS-33."),
      ("num_partition_sectors", "33")]⟩]

/-- The dictionary of one of these reads. -/
def table_read (filename : String) (start_sector num_partition_sectors : ℤ) : Entry :=
  ⟨filename, 0, num_partition_sectors, 0, "false", start_sector, false, 0, 0, 0, 0, 4, none⟩

theorem table_reads_backup :
    Backup 512 "/dev/sdb" 51200 table_reads
      ⟨⟨512, [], []⟩, [table_read "main.bin" 0 34, table_read "backup.bin" 67 33]⟩ := by
  refine ⟨by decide, by decide +kernel, by decide, by decide, by decide, by decide, ?_⟩
  simp only [List.forall_mem_cons, List.not_mem_nil, false_implies, implies_true, and_true]
  exact ⟨⟨by decide, by decide, rfl, by decide, by decide, by decide, by decide⟩,
    ⟨by decide, by decide, rfl, by decide, by decide, by decide, by decide⟩⟩

/-- The tables are put back, and a sector between them stays as it is. -/
theorem restore_backup_two_tables :
    ∃ s t restored, msp_with_reads (.disk "/dev/sdb" 51200) 512 (some table_reads) none
        (fun name => if name = "/dev/sdb" then some (List.replicate 51200 1) else none)
          = .done s ∧
      msp_with_reads (.disk "/dev/sdb" 51200) 512 (some (table_reads.map as_program)) none
        (Function.update s.files "/dev/sdb" (some (List.replicate 51200 2))) = .done t ∧
      t.files "/dev/sdb" = some restored ∧ restored.getD 0 0 = 1 ∧ restored.getD 20000 0 = 2 := by
  let files : Store := fun name =>
    if name = "/dev/sdb" then some (List.replicate 51200 1) else none
  have himage : files "/dev/sdb" = some (List.replicate 51200 1) := rfl
  obtain ⟨s, hs, -, hrestore⟩ :=
    restore_backup table_reads_backup (by decide) himage List.length_replicate
  obtain ⟨t, restored, ht, htarget, -, hbytes⟩ := hrestore
    (Function.update s.files "/dev/sdb" (some (List.replicate 51200 2))) _
    (fun r hr => Function.update_of_ne (table_reads_backup.saves r hr).not_target _ _)
    (Function.update_self ..) List.length_replicate
  refine ⟨s, t, restored, hs, ht, htarget, ?_, ?_⟩
  · have hin : InSectors 512 (table_read "main.bin" 0 34) 0 := by
      rw [InSectors]
      decide
    rw [(hbytes 0).1 ⟨_, List.mem_cons_self, hin⟩, List.getD_eq_getElem?_getD,
      List.getElem?_replicate_of_lt (by decide), Option.getD_some]
  · have hout : ∀ r ∈ [table_read "main.bin" 0 34, table_read "backup.bin" 67 33],
        ¬ InSectors 512 r 20000 := by
      simp only [List.forall_mem_cons, List.not_mem_nil, false_implies, implies_true, and_true,
        InSectors]
      decide
    rw [(hbytes 20000).2 hout, List.getD_eq_getElem?_getD,
      List.getElem?_replicate_of_lt (by decide), Option.getD_some]

end AndroidTools.Msp
