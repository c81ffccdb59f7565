/-
The main program of `msp.py`, run without prompts.

Both documents are read, the elements to program are brought into the order of their start
sectors (`WriteSorted`), the disk size is computed when it was not given, and then patching and
writing are performed: for `singleimage.bin` the files are patched first and then written, a
disk is written first and then patched.

The check of the disk size against `MinDiskSizeInSectors` comes before anything has set that
variable; the model has it where the source has it, with the value 0. The size that is computed
is the end of the element that happens to be last, so it may be 0 or, for a negative number of
sectors, below 0. The source refuses to go on with 0 only; here a size below 0 is a stop as
well, where the source would look for places on a disk of negative size.
-/
import AndroidTools.Lib.KeyOrder
import AndroidTools.Msp.Write

set_option autoImplicit false

namespace AndroidTools.Msp

open AndroidTools.Text AndroidTools.KeyOrder

/-- `-d`: a number of sectors asks for `singleimage.bin`, anything else is a disk,
whose size the system knows. -/
inductive Dest where
  | sectors (n : ℕ)
  | disk (name : String) (size : ℕ)
  deriving Repr, DecidableEq

/-- The name of the image that is written when no disk is given. -/
def single_image : String := "singleimage.bin"

/-- `Filename`: the disk, or the single image. -/
def Dest.filename : Dest → String
  | .sectors _ => single_image
  | .disk name _ => name

/-- `Patching`: for an image the files are patched, and a disk is patched itself. -/
def Dest.patching : Dest → Patching
  | .sectors _ => .files
  | .disk _ _ => .disk

/-- `DiskSizeInBytes` once the arguments are read; for an image it is given in sectors. -/
def Dest.disk_size (sector_size : ℕ) : Dest → ℕ
  | .sectors n => n * sector_size
  | .disk _ size => size

/-! ## `WriteSorted`

`WriteSorted` is made by going through `WriteArray` again and again, each time for the start
sectors whose turn has come, until it is as long as the list of start sectors. The `while 1`
loop has fuel here; the loop with its index, which may raise, is compared with it in the
module on ordering.
-/

/-- One pass of the `for` loop over `WriteArray`; `Count` is the length of
`WriteSorted`. -/
def sort_pass (starts : List ℤ) : List Entry → List Entry → List Entry
  | [], sorted => sorted
  | w :: ws, sorted =>
    if w.filename = "" then sort_pass starts ws sorted
    else if starts[sorted.length]? = some w.start_sector then
      if sorted.length + 1 = starts.length then sorted ++ [w]
      else sort_pass starts ws (sorted ++ [w])
    else sort_pass starts ws sorted

/-- The `while 1` loop, for at most `fuel` passes. -/
def sort_loop (starts : List ℤ) (ws : List Entry) : ℕ → List Entry → List Entry
  | 0, sorted => sorted
  | fuel + 1, sorted =>
    let sorted := sort_pass starts ws sorted
    if sorted.length = starts.length then sorted else sort_loop starts ws fuel sorted

/-- The elements that have a file and so are to be programmed. -/
def named_writes (ws : List Entry) : List Entry := ws.filter fun w => w.filename ≠ ""

/-- `PartitionStartSector`: the start sectors of these elements, sorted. -/
def partition_start_sector (ws : List Entry) : List ℤ :=
  ((named_writes ws).map Entry.start_sector).insertionSort (· ≤ ·)

/-- `WriteSorted`, the elements to program in the order in which they are written. -/
def write_sorted (ws : List Entry) : List Entry :=
  sort_loop (partition_start_sector ws) ws (ws.length + 1) []

/-! ## The size of the disk

Without a given size the disk is as large as the elements need. Start sectors above the
largest disk stand for distances from the end and are added behind the others. The check of
a given size against this one is made before it is computed, with 0 in its place.
-/

/-- `CalculateMinDiskSize`. -/
def calculate_min_disk_size (sector_size : ℕ) (sorted : List Entry) : ℤ :=
  let max_sectors : ℤ := (emmcbld_max_disk_size_in_bytes / sector_size : ℕ)
  let normal := sorted.foldl (fun size w =>
    if 0 < w.start_sector ∧ w.start_sector < max_sectors then
      w.start_sector + w.num_partition_sectors else size) 0
  -- the elements counted from the end of a disk of unknown size
  sorted.foldl (fun size w =>
    if 0 < w.start_sector ∧ max_sectors < w.start_sector then
      size + (w.start_sector - max_sectors) else size) normal

/-- `MinDiskSizeInSectors` as it is when the disk size is checked against it, before anything has
set it. -/
def initial_min_disk_size : ℕ := 0

/-! ## The program

Everything that `msp.py` does after reading the documents: checks, sizes, writing and
patching, in the order the destination asks for. An image is patched before it is written, a
disk afterwards.
-/

/-- `re.search("true", Write['sparse'], re.IGNORECASE)`. -/
def is_sparse (w : Entry) : Bool :=
  (search (lit "true".toList fun _ => some ()) (w.sparse.toList.map Char.toLower)).isSome

/-- Patching before or after writing, whatever was asked for. -/
def perform_operations (dest : Dest) (sector_size disk_size : ℕ) (program patch : Bool)
    (sorted patches : List Entry) (files : Store) : Run WriteState :=
  let write := perform_write sector_size disk_size dest.filename sorted
  match dest with
  | .sectors _ =>
    -- an old image is wiped
    let files := if program then Function.update files single_image (some []) else files
    let patched := if patch then perform_patching .files sector_size dest.filename patches files
      else .done files
    (patched.map fun files => ⟨files, []⟩).bind fun s => if program then write s else .done s
  | .disk _ _ =>
    (if program then write ⟨files, []⟩ else .done ⟨files, []⟩).bind fun s =>
      if patch then
        (perform_patching .disk sector_size dest.filename patches s.files).map fun files =>
          { s with files := files }
      else .done s

/-- `msp.py -n`, with `-r` and `-p` where there is a document; `sector_size` is
`SECTOR_SIZE` before a document is read. -/
def msp (dest : Dest) (sector_size : ℕ) (rawprogram patch : Option (List XmlElement))
    (files : Store) : Run WriteState :=
  let stop : Run WriteState := .exit ⟨files, []⟩
  let given := dest.disk_size sector_size
  match parse_xml given (rawprogram.getD []) ⟨sector_size, [], []⟩ with
  | none => stop
  | some arrays =>
    if 0 < given ∧ given < initial_min_disk_size * arrays.sector_size then stop
    else if (named_writes arrays.write_array).any is_sparse then stop
    else
      let sorted := write_sorted arrays.write_array
      let disk_size :=
        -- a computed size below 0 counts as 0, at which the script stops
        if given = 0 then
          (calculate_min_disk_size arrays.sector_size sorted).toNat * arrays.sector_size
        else given
      if disk_size = 0 then stop
      else
        -- the patches are parsed after the size of the disk is known
        match parse_xml disk_size (patch.getD []) arrays with
        | none => stop
        | some arrays' =>
          let real := replace_disk_size disk_size arrays'.sector_size
          perform_operations dest arrays'.sector_size disk_size (arrays.write_array ≠ [])
            patch.isSome (sorted.map real) (arrays'.patch_array.map real) files

/-! ## `WriteSorted` has every element once

The passes over `WriteArray` are the library's scan by keys, so what comes out is a
permutation in the order of the start sectors, for any number of elements with the same one.
-/

/-- A pass of the loop is one scan of the named elements. -/
theorem sort_pass_eq (starts : List ℤ) (ws sorted : List Entry) :
    sort_pass starts ws sorted = scan Entry.start_sector starts (named_writes ws) sorted := by
  induction ws generalizing sorted with
  | nil => rfl
  | cons w ws ih =>
    unfold sort_pass
    by_cases hname : w.filename = ""
    · rw [if_pos hname, ih, named_writes, named_writes, List.filter_cons_of_neg (by simpa)]
    · rw [if_neg hname, named_writes, List.filter_cons_of_pos (by simpa), scan, List.foldl_cons,
        take_next]
      split_ifs with hnext hfull
      · -- the break: nothing more would be taken
        have hlen : starts.length ≤ (sorted ++ [w]).length := by
          rw [List.length_append, List.length_singleton, hfull]
        exact (scan_full _ _ _ hlen).symm
      · exact ih _
      · exact ih _

/-- The loop is a scan of as many rounds as it has passes. -/
theorem sort_loop_eq (starts : List ℤ) (ws : List Entry) (fuel : ℕ) (sorted : List Entry) :
    sort_loop starts ws fuel sorted
      = scan Entry.start_sector starts (rounds fuel (named_writes ws)) sorted := by
  induction fuel generalizing sorted with
  | zero => rfl
  | succ fuel ih =>
    rw [sort_loop, rounds_succ, scan_append, ← sort_pass_eq]
    split_ifs with hfull
    · exact (scan_full _ _ _ hfull.ge).symm
    · exact ih _

/-- **`WriteSorted` is sorted, and has the elements to program, each once.** -/
theorem write_sorted_spec (ws : List Entry) :
    (write_sorted ws).Perm (named_writes ws) ∧
      (write_sorted ws).Pairwise fun v w => v.start_sector ≤ w.start_sector := by
  have hle : (named_writes ws).length ≤ ws.length := List.length_filter_le _ _
  obtain ⟨hmap, hperm⟩ := scan_sorted Entry.start_sector (named_writes ws)
    (n := ws.length + 1) (by omega)
  rw [write_sorted, sort_loop_eq]
  refine ⟨hperm, ?_⟩
  have hsorted : ((named_writes ws).map Entry.start_sector |>.insertionSort (· ≤ ·)).Pairwise
      (· ≤ ·) := List.pairwise_insertionSort _ _
  rw [← hmap, List.pairwise_map] at hsorted
  exact hsorted

/-! ## Patching alone

Without programs nothing is read of the documents but the patches, and the run is the loop
over them.
-/

/-- Without a document of programs the run is that of the patches. -/
theorem msp_patches (dest : Dest) (document : List XmlElement) (files : Store) :
    msp dest 512 none (some document) files
      = (run_patches dest.patching (dest.disk_size 512) dest.filename document files).map
          fun files => ⟨files, []⟩ := by
  have hsorted : write_sorted [] = [] := rfl
  have hno : ¬ (0 < dest.disk_size 512 ∧ dest.disk_size 512 < initial_min_disk_size * 512) := by
    rw [initial_min_disk_size, Nat.zero_mul]
    rintro ⟨-, h⟩
    exact Nat.not_lt_zero _ h
  unfold msp run_patches
  simp only [Option.getD_none, parse_xml, Option.getD_some, named_writes, List.filter_nil,
    List.any_nil, hsorted]
  rw [if_neg hno, if_neg (by decide)]
  by_cases hzero : dest.disk_size 512 = 0
  · rw [if_pos hzero, if_pos hzero]
    rfl
  · rw [if_neg hzero, if_neg hzero, if_neg hzero]
    cases parse_xml (dest.disk_size 512) document ⟨512, [], []⟩ with
    | none => rfl
    | some arrays =>
      cases dest with
      | sectors n =>
        simp only [perform_operations, Dest.patching, Dest.filename, Option.isSome_some, if_true,
          ne_eq, not_true_eq_false, decide_false, Bool.false_eq_true, if_false]
        cases perform_patching .files _ single_image _ files <;> rfl
      | disk name size =>
        simp only [perform_operations, Dest.patching, Dest.filename, Option.isSome_some, if_true,
          ne_eq, not_true_eq_false, decide_false, Bool.false_eq_true, if_false, Run.bind_done]

/-! ## Programming a disk

A document of programs alone, all of which can be written, leaves on a disk what the writes
of its elements make of it, in the order of `WriteSorted`.
-/

/-- With a document of programs alone, all of them ready, a disk is what their writes make
of it. -/
theorem msp_disk_ready {name : String} {size sector_size sector_size' : ℕ}
    {document : List XmlElement} {ws : List Entry} {files : Store} {d : List UInt8}
    (hparse : parse_xml size document ⟨sector_size, [], []⟩ = some ⟨sector_size', ws, []⟩)
    (hsize : size ≠ 0) (hne : ws ≠ []) (hsparse : ∀ w ∈ named_writes ws, is_sparse w = false)
    (hready : ∀ w ∈ named_writes ws,
      Ready sector_size' size name files (replace_disk_size size sector_size' w))
    (hd : files name = some d) :
    ∃ t, msp (.disk name size) sector_size (some document) none files = .done t ∧
      t.files name = some (Writes.runWrites ((write_sorted ws).map fun w =>
        (element_write sector_size' files (replace_disk_size size sector_size' w)).toWriteAt)
        d) := by
  have hsorted : ∀ w ∈ (write_sorted ws).map (replace_disk_size size sector_size'),
      Ready sector_size' size name files w := by
    intro w hw
    obtain ⟨v, hv, rfl⟩ := List.mem_map.mp hw
    exact hready v ((write_sorted_spec ws).1.mem_iff.mp hv)
  have hany : (named_writes ws).any is_sparse = false := by
    rw [List.any_eq_false]
    intro w hw
    rw [hsparse w hw]
    exact Bool.false_ne_true
  obtain ⟨t, ht, htarget⟩ := perform_write_ready_image hsorted hd
  rw [List.map_map] at htarget
  refine ⟨t, ?_, htarget⟩
  unfold msp
  simp only [Dest.disk_size, Option.getD_some, Option.getD_none, hparse, parse_xml,
    initial_min_disk_size, Nat.zero_mul, Nat.not_lt_zero, and_false, if_false, hany,
    Bool.false_eq_true, hsize]
  simp only [perform_operations, hne, ne_eq, not_false_eq_true, decide_true, if_true,
    Dest.filename, Option.isSome_none, Bool.false_eq_true, if_false, ht, Run.bind_done]

end AndroidTools.Msp
