/-
Sparse images, and what `genfile` makes of them.

`read_image` reads a file as a sparse image without judging it: the header, and the chunks with as
much of their payload as the file holds. `Sound` says that the headers fit, `WellFormed` that the
payload is there too. This is what the format is for, in terms of its own: an image stands for
bytes of which some are left open (`expanded`), and restoring it onto a disk lays these bytes over
it.

`Runs` are the RAW chunks that stand in a row, built up chunk by chunk. `Collected` is the
invariant of `genfile`'s loop, and with it `genfile_ok_iff` says that `genfile` accepts exactly
the files whose image is sound, and that its chunk files are the runs of RAW chunks of that image.
-/
import AndroidTools.Checksparse.Genfile
import AndroidTools.Lib.Text

set_option autoImplicit false

namespace AndroidTools.Checksparse

open Bytes Msp Text

/-! ## Images

An image is described on its own, without the program: its chunks with their headers and
payloads, what it expands to, and which headers fit together. `Sound` is exactly what
`genfile` checks, and `WellFormed` adds what it does not, that the payloads are there.
-/

/-- A chunk: its header, and the payload the file has for it. -/
structure Chunk where
  header : ChunkHeader
  payload : List UInt8
  deriving DecidableEq, Repr

namespace Chunk

variable (h : SparseHeader) (c : Chunk)

def IsRaw : Prop := c.header.chunk_type = CHUNK_TYPE_RAW

instance : Decidable c.IsRaw := inferInstanceAs (Decidable (_ = _))

/-- The number of bytes that the chunk stands for in the expanded image. -/
def size : ℕ := c.header.chunk_sz * h.blk_sz

/-- The number of whole sectors that the chunk stands for. -/
def sectors : ℕ := c.size h / 512

/-- A RAW or a DONT_CARE chunk whose header fits: its total size is that of its header, and of its
payload if it is RAW, and it stands for whole sectors. -/
def Sound : Prop :=
  (c.header.chunk_type = CHUNK_TYPE_RAW ∧ c.header.total_sz = h.chunk_hdr_sz + c.size h ∨
    c.header.chunk_type = CHUNK_TYPE_DONT_CARE ∧ c.header.total_sz = h.chunk_hdr_sz) ∧
  c.size h % 512 = 0

/-- What the chunk expands to: the bytes of a RAW chunk, or bytes nobody cares about. -/
def expanded : List (Option UInt8) :=
  if c.IsRaw then c.payload.map some else List.replicate (c.size h) none

end Chunk

/-- Byte `b` of a disk that `bytes` are laid over from `pos` on, but for those left out. -/
def overlay (bytes : List (Option UInt8)) (pos : ℕ) (disk : List UInt8) (b : ℕ) : UInt8 :=
  if b < pos then disk.getD b 0 else (bytes.getD (b - pos) none).getD (disk.getD b 0)

/-- A sparse image: its header and its chunks. -/
structure Image where
  header : SparseHeader
  chunks : List Chunk
  deriving DecidableEq, Repr

namespace Image

variable (i : Image)

/-- The headers of an image fit together, which is all that `genfile` checks. -/
structure Sound : Prop where
  magic : i.header.magic = SPARSE_HEADER_MAGIC
  major_version : i.header.major_version = SPARSE_HEADER_MAJOR_VER
  chunks : ∀ c ∈ i.chunks, c.Sound i.header
  total_blks : i.header.total_blks = (i.chunks.map fun c => c.header.chunk_sz).sum

/-- A sound image with headers of at least the first revision's length, and all of its
payload. -/
structure WellFormed : Prop extends i.Sound where
  file_hdr_sz : SPARSE_HEADER_LEN ≤ i.header.file_hdr_sz
  chunk_hdr_sz : CHUNK_HEADER_LEN ≤ i.header.chunk_hdr_sz
  payload : ∀ c ∈ i.chunks, c.IsRaw → c.payload.length = c.size i.header

/-- The image expanded; `none` where a DONT_CARE chunk is. -/
def expanded : List (Option UInt8) := (i.chunks.map (Chunk.expanded i.header)).flatten

/-- Byte `b` of a disk after the image has been expanded onto it from sector `s` on. -/
def restored (s : ℕ) (disk : List UInt8) (b : ℕ) : UInt8 := overlay i.expanded (s * 512) disk b

end Image

/-! ## Reading

Reading a file as an image takes the chunks from the front, as far as they go. It is the
bridge to `genfile`, which gets bytes: every file that it accepts is read as a sound image.
-/

/-- The chunk at the front of `bytes`, and what comes after it. -/
def read_chunk (h : SparseHeader) (bytes : List UInt8) : Option (Chunk × List UInt8) :=
  (unpack_chunk_header (bytes.take CHUNK_HEADER_LEN)).map fun header =>
    let bytes := bytes.drop (max CHUNK_HEADER_LEN h.chunk_hdr_sz)
    let length := if header.chunk_type = CHUNK_TYPE_RAW then header.chunk_sz * h.blk_sz else 0
    (⟨header, bytes.take length⟩, bytes.drop length)

/-- The first `n` chunks at the front of the bytes. -/
def read_chunks (h : SparseHeader) : ℕ → List UInt8 → Option (List Chunk)
  | 0, _ => some []
  | n + 1, bytes =>
    (read_chunk h bytes).bind fun (c, rest) => (read_chunks h n rest).map (c :: ·)

/-- A file read as a sparse image, as far as it goes; `none` where a header is cut off. -/
def read_image (input : List UInt8) : Option Image :=
  (unpack_sparse_header (input.take SPARSE_HEADER_LEN)).bind fun h =>
    (read_chunks h h.total_chunks (input.drop (max SPARSE_HEADER_LEN h.file_hdr_sz))).map fun cs =>
      ⟨h, cs⟩

/-! ## Runs of RAW chunks

The specification of the result list. A run collects RAW chunks that follow each other; a
DONT_CARE chunk ends it and moves the sector on. `Runs.add` is one chunk, so the runs of an
image are a fold, like the loop they are compared with.
-/

/-- RAW chunks in a row, and the sector they start at. -/
structure SparseRun where
  start : ℤ
  chunks : List Chunk

namespace SparseRun

def sectors (h : SparseHeader) (r : SparseRun) : ℕ := (r.chunks.map (Chunk.sectors h)).sum

def bytes (r : SparseRun) : List UInt8 := (r.chunks.map Chunk.payload).flatten

end SparseRun

/-- The runs found so far, whether the last one may go on, the sector reached and the
blocks counted. -/
structure Runs where
  runs : List SparseRun
  is_open : Bool
  sector : ℤ
  blocks : ℕ

namespace Runs

/-- The next chunk joins the runs: a RAW chunk the open run or a new one, and a DONT_CARE chunk
closes the run. -/
def add (h : SparseHeader) (s : Runs) (c : Chunk) : Runs where
  runs :=
    if c.IsRaw then
      match s.is_open, s.runs.getLast? with
      | true, some r => s.runs.dropLast ++ [{ r with chunks := r.chunks ++ [c] }]
      | _, _ => s.runs ++ [⟨s.sector, [c]⟩]
    else s.runs
  is_open := c.IsRaw
  sector := s.sector + c.sectors h
  blocks := s.blocks + c.header.chunk_sz

/-- No runs, before the first chunk, with the sector at which the image starts. -/
def start (sector : ℤ) : Runs := ⟨[], false, sector, 0⟩

/-- All chunks of an image that is expanded from `sector` on. -/
def of (i : Image) (sector : ℤ) : Runs := i.chunks.foldl (add i.header) (start sector)

end Runs

/-! ## `genfile` collects the runs

`Collected` is the invariant of the loop: the results are the runs found so far, numbered
from 1, every chunk file holds its run, and the counters stand where the chunks read so far
have brought them. One lemma for each way a chunk can go, to a new file, to the open one, or
to none, and the turn of the loop puts them together.
-/

/-- The entry and the file that `genfile` makes of run number `k`. -/
def run_result (h : SparseHeader) (file_name file_ext : String) (k : ℕ) (r : SparseRun) : Result :=
  ⟨chunk_filename file_name (k + 1) file_ext, r.sectors h, r.start⟩

/-- The loop has found the runs `s`: its results are their entries, its files hold them, and the
counters stand where the runs do. -/
structure Collected (h : SparseHeader) (file_name file_ext : String) (s : Runs) (out : Output) :
    Prop where
  results : out.results = s.runs.mapIdx (run_result h file_name file_ext)
  store : ∀ k r, s.runs[k]? = some r →
    out.store (chunk_filename file_name (k + 1) file_ext) = some r.bytes
  chunk_number : out.chunk_number = s.runs.length + 1
  out_fp : out.out_fp
    = if s.is_open then some (chunk_filename file_name s.runs.length file_ext) else none
  is_open : s.is_open = true → s.runs ≠ []
  sector : out.current_start_sector = s.sector
  blocks : out.total_blocks = s.blocks

theorem chunk_filename_inj {file_name file_ext : String} {m n : ℕ}
    (h : chunk_filename file_name m file_ext = chunk_filename file_name n file_ext) : m = n := by
  have htext := congrArg String.toList h
  simp only [chunk_filename, String.toList_append, List.append_cancel_right_eq,
    List.append_cancel_left_eq, toString_nat_toList] at htext
  rw [← natOfDigits_toDigits m, htext, natOfDigits_toDigits]

section Step

variable {h : SparseHeader} {file_name file_ext : String} {s : Runs} {out : Output} {c : Chunk}

theorem sectors_concat (r : SparseRun) :
    SparseRun.sectors h { r with chunks := r.chunks ++ [c] } = r.sectors h + c.sectors h := by
  simp [SparseRun.sectors]

theorem bytes_concat (r : SparseRun) :
    SparseRun.bytes { r with chunks := r.chunks ++ [c] } = r.bytes ++ c.payload := by
  simp [SparseRun.bytes]

/-- What a chunk does to the list of runs: nothing, a new run, or one more chunk in the last run.
-/
theorem add_cases (h : SparseHeader) (st : Runs) (c : Chunk)
    (hopen : st.is_open = true → st.runs ≠ []) :
    (¬ c.IsRaw ∧ (st.add h c).runs = st.runs) ∨
    (c.IsRaw ∧ st.is_open = false ∧ (st.add h c).runs = st.runs ++ [⟨st.sector, [c]⟩]) ∨
    (c.IsRaw ∧ st.is_open = true ∧ ∃ init r, st.runs = init ++ [r] ∧
      (st.add h c).runs = init ++ [{ r with chunks := r.chunks ++ [c] }]) := by
  by_cases hraw : c.IsRaw
  · right
    cases ho : st.is_open with
    | false => exact Or.inl ⟨hraw, rfl, by rw [Runs.add, if_pos hraw, ho]⟩
    | true =>
      obtain ⟨init, r, hinit⟩ : ∃ init r, st.runs = init ++ [r] :=
        ⟨_, _, (List.dropLast_append_getLast (hopen ho)).symm⟩
      refine Or.inr ⟨hraw, rfl, init, r, hinit, ?_⟩
      rw [Runs.add, if_pos hraw, ho, hinit, List.getLast?_concat]
      dsimp only
      rw [List.dropLast_concat]
  · exact Or.inl ⟨hraw, by rw [Runs.add, if_neg hraw]⟩

/-- The first RAW chunk of a run is written to a new file. -/
theorem collected_new_file (hs : Collected h file_name file_ext s out) (hraw : c.IsRaw)
    (hclosed : s.is_open = false) (hruns : (s.add h c).runs = s.runs ++ [⟨s.sector, [c]⟩]) :
    ∃ name out', chunk_file file_name file_ext (c.sectors h) out = .ok (name, out') ∧
      Collected h file_name file_ext (s.add h c)
        { out' with
          store := Function.update out'.store name
            (some ((out'.store name).getD [] ++ c.payload))
          current_start_sector := out'.current_start_sector + (c.sectors h : ℕ)
          total_blocks := out'.total_blocks + c.header.chunk_sz } := by
  have hfp := hs.out_fp
  rw [hclosed, if_neg (by simp)] at hfp
  refine ⟨chunk_filename file_name out.chunk_number file_ext, _, by rw [chunk_file, hfp], ?_⟩
  have hnumber := hs.chunk_number
  constructor
  · dsimp only
    rw [hruns, List.mapIdx_concat, hs.results, hnumber, hs.sector]
    simp [run_result, SparseRun.sectors]
  · intro k r hk
    dsimp only
    rw [hruns] at hk
    rcases Nat.lt_or_ge k s.runs.length with hlt | hge
    · -- the files of the runs before have other numbers
      rw [List.getElem?_append_left hlt] at hk
      have hne : chunk_filename file_name (k + 1) file_ext
          ≠ chunk_filename file_name out.chunk_number file_ext := by
        intro heq
        have := chunk_filename_inj heq
        omega
      rw [Function.update_of_ne hne, Function.update_of_ne hne]
      exact hs.store k r hk
    · -- the new file has been emptied before the payload
      rw [List.getElem?_append_right hge, List.getElem?_singleton] at hk
      split_ifs at hk with hzero
      cases hk
      rw [(by omega : k + 1 = out.chunk_number), Function.update_self, Function.update_self]
      simp [SparseRun.bytes]
  · dsimp only
    rw [hruns, List.length_append, hnumber]
    rfl
  · dsimp only
    rw [hruns, List.length_append, hnumber]
    simp [Runs.add, hraw]
  · intro _
    rw [hruns]
    simp
  · dsimp only [Runs.add]
    rw [hs.sector]
  · dsimp only [Runs.add]
    rw [hs.blocks]

/-- Another RAW chunk is written to the file of the last run. -/
theorem collected_same_file (hs : Collected h file_name file_ext s out) (hraw : c.IsRaw)
    (hgoes : s.is_open = true) {init : List SparseRun} {r : SparseRun}
    (hinit : s.runs = init ++ [r])
    (hruns : (s.add h c).runs = init ++ [{ r with chunks := r.chunks ++ [c] }]) :
    ∃ name out', chunk_file file_name file_ext (c.sectors h) out = .ok (name, out') ∧
      Collected h file_name file_ext (s.add h c)
        { out' with
          store := Function.update out'.store name
            (some ((out'.store name).getD [] ++ c.payload))
          current_start_sector := out'.current_start_sector + (c.sectors h : ℕ)
          total_blocks := out'.total_blocks + c.header.chunk_sz } := by
  have hfp := hs.out_fp
  rw [hgoes, if_pos rfl] at hfp
  have hlen : s.runs.length = init.length + 1 := by rw [hinit, List.length_append]; rfl
  -- the result that changes is the last one
  have hresults : out.results = init.mapIdx (run_result h file_name file_ext)
      ++ [run_result h file_name file_ext init.length r] := by
    rw [hs.results, hinit, List.mapIdx_concat]
  have hstore := hs.store init.length r (by rw [hinit]; simp)
  refine ⟨chunk_filename file_name (init.length + 1) file_ext,
    { out with
      results := init.mapIdx (run_result h file_name file_ext)
        ++ [run_result h file_name file_ext init.length { r with chunks := r.chunks ++ [c] }] },
    ?_, ?_⟩
  · rw [chunk_file, hfp, hresults]
    dsimp only
    rw [List.getLast?_concat, List.dropLast_concat, hlen]
    dsimp only [run_result]
    rw [sectors_concat]
  constructor
  · dsimp only
    rw [hruns, List.mapIdx_concat]
  · intro k r' hk
    dsimp only
    rw [hruns] at hk
    rcases Nat.lt_or_ge k init.length with hlt | hge
    · rw [List.getElem?_append_left hlt] at hk
      -- the files of the runs before have other numbers
      have hne : chunk_filename file_name (k + 1) file_ext
          ≠ chunk_filename file_name (init.length + 1) file_ext := by
        intro heq
        have := chunk_filename_inj heq
        omega
      rw [Function.update_of_ne hne]
      exact hs.store k r' (by rw [hinit, List.getElem?_append_left hlt, hk])
    · -- the last run has the payload of the chunk behind its bytes
      rw [List.getElem?_append_right hge, List.getElem?_singleton] at hk
      split_ifs at hk with hzero
      obtain rfl : k = init.length := by omega
      cases hk
      rw [Function.update_self, hstore, Option.getD_some, bytes_concat]
  · dsimp only
    rw [hruns, hs.chunk_number, hinit, List.length_append, List.length_append]
    rfl
  · dsimp only
    rw [hruns, hfp, hlen, List.length_append]
    simp [Runs.add, hraw]
  · intro _
    rw [hruns]
    simp
  · dsimp only [Runs.add]
    rw [hs.sector]
  · dsimp only [Runs.add]
    rw [hs.blocks]

/-- A RAW chunk is written, to the run it belongs to. -/
theorem collected_raw (hs : Collected h file_name file_ext s out) (hraw : c.IsRaw) :
    ∃ name out', chunk_file file_name file_ext (c.sectors h) out = .ok (name, out') ∧
      Collected h file_name file_ext (s.add h c)
        { out' with
          store := Function.update out'.store name
            (some ((out'.store name).getD [] ++ c.payload))
          current_start_sector := out'.current_start_sector + (c.sectors h : ℕ)
          total_blocks := out'.total_blocks + c.header.chunk_sz } := by
  rcases add_cases h s c hs.is_open with ⟨hnot, -⟩ | ⟨-, hclosed, hruns⟩
    | ⟨-, hgoes, init, r, hinit, hruns⟩
  · exact absurd hraw hnot
  · exact collected_new_file hs hraw hclosed hruns
  · exact collected_same_file hs hraw hgoes hinit hruns

/-- A DONT_CARE chunk ends the run: its file is closed, and nothing is written. -/
theorem collected_dont_care (hs : Collected h file_name file_ext s out) (hraw : ¬ c.IsRaw) :
    Collected h file_name file_ext (s.add h c)
      { out with
        out_fp := none
        current_start_sector := out.current_start_sector + (c.sectors h : ℕ)
        total_blocks := out.total_blocks + c.header.chunk_sz } := by
  have hruns : (s.add h c).runs = s.runs := by rw [Runs.add, if_neg hraw]
  constructor
  · rw [hruns]
    exact hs.results
  · rw [hruns]
    exact hs.store
  · rw [hruns]
    exact hs.chunk_number
  · simp [Runs.add, hraw]
  · simp [Runs.add, hraw]
  · dsimp only [Runs.add]
    rw [hs.sector]
  · dsimp only [Runs.add]
    rw [hs.blocks]

theorem drop_longer_header (m n : ℕ) (bytes : List UInt8) :
    (if m < n then (bytes.drop m).drop (n - m) else bytes.drop m) = bytes.drop (max m n) := by
  split_ifs with hlt
  · rw [List.drop_drop]
    congr 1
    omega
  · congr 1
    omega

/-- **One turn of the loop**: the chunk at the front joins the runs if its header fits. -/
theorem genfile_chunk_sound (hs : Collected h file_name file_ext s out) {in_fp rest : List UInt8}
    (hread : read_chunk h in_fp = some (c, rest)) (hc : c.Sound h) :
    ∃ out', genfile_chunk h file_name file_ext in_fp out = .ok (rest, out') ∧
      Collected h file_name file_ext (s.add h c) out' := by
  rw [read_chunk, Option.map_eq_some_iff] at hread
  obtain ⟨header, hheader, hchunk⟩ := hread
  rw [Prod.mk.injEq] at hchunk
  obtain ⟨rfl, rfl⟩ := hchunk
  obtain ⟨htype, hsectors⟩ := hc
  rw [Chunk.size] at htype hsectors
  dsimp only at htype hsectors
  rw [genfile_chunk, hheader]
  dsimp only
  rw [drop_longer_header]
  -- the two sound types; every check before the branch passes
  rcases htype with ⟨hraw, htotal⟩ | ⟨hdont, htotal⟩
  · obtain ⟨name, out', hfile, hcollected⟩ := collected_raw hs
      (c := ⟨header, (in_fp.drop (max CHUNK_HEADER_LEN h.chunk_hdr_sz)).take
        (if header.chunk_type = CHUNK_TYPE_RAW then header.chunk_sz * h.blk_sz else 0)⟩) hraw
    rw [Chunk.sectors, Chunk.size] at hfile hcollected
    dsimp only at hfile hcollected
    rw [if_pos hraw, if_neg (not_not.mpr htotal), if_neg (not_not.mpr hsectors), hfile]
    dsimp only
    rw [process_raw_chunk_eq]
    rw [if_pos hraw] at hcollected ⊢
    exact ⟨_, rfl, hcollected⟩
  · have hraw : ¬ header.chunk_type = CHUNK_TYPE_RAW := by
      rw [hdont]
      decide
    have hcollected := collected_dont_care hs
      (c := ⟨header, (in_fp.drop (max CHUNK_HEADER_LEN h.chunk_hdr_sz)).take
        (if header.chunk_type = CHUNK_TYPE_RAW then header.chunk_sz * h.blk_sz else 0)⟩) hraw
    rw [if_neg hraw, if_pos hdont, if_neg (not_not.mpr htotal), if_neg (not_not.mpr hsectors)]
    rw [if_neg hraw, List.drop_zero]
    rw [if_neg hraw] at hcollected
    exact ⟨_, rfl, hcollected⟩

/-- The loop stops at a chunk whose header does not fit, or is cut off. -/
theorem genfile_chunk_unsound {in_fp : List UInt8}
    (hno : ∀ c rest, read_chunk h in_fp = some (c, rest) → ¬ c.Sound h) :
    ∃ e, genfile_chunk h file_name file_ext in_fp out = .error e := by
  rw [genfile_chunk]
  cases hheader : unpack_chunk_header (in_fp.take CHUNK_HEADER_LEN) with
  | none => exact ⟨_, rfl⟩
  | some header =>
    have hnot := hno _ _ (by rw [read_chunk, hheader]; rfl)
    rw [Chunk.Sound, Chunk.size] at hnot
    dsimp only at hnot ⊢
    rw [drop_longer_header]
    -- each way not to be sound is a check of the branch of its type
    by_cases hraw : header.chunk_type = CHUNK_TYPE_RAW
    · rw [if_pos hraw]
      by_cases htotal : header.total_sz = h.chunk_hdr_sz + header.chunk_sz * h.blk_sz
      · by_cases hsectors : header.chunk_sz * h.blk_sz % 512 = 0
        · exact absurd ⟨Or.inl ⟨hraw, htotal⟩, hsectors⟩ hnot
        · rw [if_neg (not_not.mpr htotal), if_pos hsectors]
          exact ⟨_, rfl⟩
      · rw [if_pos htotal]
        exact ⟨_, rfl⟩
    rw [if_neg hraw]
    by_cases hdont : header.chunk_type = CHUNK_TYPE_DONT_CARE
    · rw [if_pos hdont]
      by_cases htotal : header.total_sz = h.chunk_hdr_sz
      · by_cases hsectors : header.chunk_sz * h.blk_sz % 512 = 0
        · exact absurd ⟨Or.inr ⟨hdont, htotal⟩, hsectors⟩ hnot
        · rw [if_neg (not_not.mpr htotal), if_pos hsectors]
          exact ⟨_, rfl⟩
      · rw [if_pos htotal]
        exact ⟨_, rfl⟩
    · rw [if_neg hdont]
      exact ⟨_, rfl⟩

end Step

/-! ## What is accepted

The loop and the fold over the chunks have been compared turn by turn. Here the other
outcome is added: at the first chunk that does not fit, or is cut off, the loop stops. So
`genfile` returns a list exactly for the sound images.
-/

/-- The loop comes to its end exactly over chunks whose headers fit, and collects their
runs. -/
theorem genfile_chunks_ok {h : SparseHeader} {file_name file_ext : String} {n : ℕ} {s : Runs}
    {in_fp : List UInt8} {out : Output} (hs : Collected h file_name file_ext s out) :
    (∃ chunks, read_chunks h n in_fp = some chunks ∧ (∀ c ∈ chunks, c.Sound h) ∧
        ∃ out', genfile_chunks h file_name file_ext n in_fp out = .ok out' ∧
          Collected h file_name file_ext (chunks.foldl (Runs.add h) s) out') ∨
      (∀ chunks, read_chunks h n in_fp = some chunks → ¬ ∀ c ∈ chunks, c.Sound h) ∧
        ∃ e, genfile_chunks h file_name file_ext n in_fp out = .error e := by
  induction n generalizing in_fp out s with
  | zero => exact Or.inl ⟨[], rfl, by simp, out, rfl, hs⟩
  | succ n ih =>
    -- the next chunk is read and sound, or the loop ends with an error here
    by_cases hfront : ∃ c rest, read_chunk h in_fp = some (c, rest) ∧ c.Sound h
    · obtain ⟨c, rest, hread, hc⟩ := hfront
      obtain ⟨out', hturn, hs'⟩ := genfile_chunk_sound hs hread hc
      rw [read_chunks, hread, Option.bind_some, genfile_chunks, hturn]
      dsimp only
      rcases @ih (s.add h c) rest out' hs' with ⟨chunks, hchunks, hall, hloop⟩ | ⟨hno, hloop⟩
      · refine Or.inl ⟨c :: chunks, by rw [hchunks]; rfl, ?_, hloop⟩
        exact List.forall_mem_cons.mpr ⟨hc, hall⟩
      · refine Or.inr ⟨fun chunks hchunks hall => ?_, hloop⟩
        obtain ⟨tail, htail, rfl⟩ := Option.map_eq_some_iff.mp hchunks
        exact hno tail htail (List.forall_mem_cons.mp hall).2
    · have hno : ∀ c rest, read_chunk h in_fp = some (c, rest) → ¬ c.Sound h :=
        fun c rest hread hc => hfront ⟨c, rest, hread, hc⟩
      obtain ⟨e, hturn⟩ := @genfile_chunk_unsound h file_name file_ext out in_fp hno
      refine Or.inr ⟨fun chunks hchunks hall => ?_, e, by rw [genfile_chunks, hturn]⟩
      rw [read_chunks, Option.bind_eq_some_iff] at hchunks
      obtain ⟨⟨c, rest⟩, hread, htail⟩ := hchunks
      obtain ⟨tail, -, rfl⟩ := Option.map_eq_some_iff.mp htail
      exact hno c rest hread (List.forall_mem_cons.mp hall).1

theorem blocks_foldl_add (h : SparseHeader) (chunks : List Chunk) (s : Runs) :
    (chunks.foldl (Runs.add h) s).blocks
      = s.blocks + (chunks.map fun c => c.header.chunk_sz).sum := by
  induction chunks generalizing s with
  | nil => rfl
  | cons c chunks ih =>
    rw [List.foldl_cons, ih, List.map_cons, List.sum_cons, ← Nat.add_assoc]
    rfl

/-- **`genfile` accepts the sound images**, and its chunk files are their runs; any other file it
rejects or stops at. -/
theorem genfile_ok_iff (file_name file_ext : String) (input : List UInt8) (sector : ℤ)
    (store : Store) :
    (∃ i, read_image input = some i ∧ i.Sound ∧
        ∃ out, genfile file_name file_ext input sector store = .ok out ∧
          Collected i.header file_name file_ext (Runs.of i sector) out) ∨
      (∀ i, read_image input = some i → ¬ i.Sound) ∧
        ∃ e, genfile file_name file_ext input sector store = .error e := by
  rw [genfile, read_image]
  cases hheader : unpack_sparse_header (input.take SPARSE_HEADER_LEN) with
  | none => exact Or.inr ⟨by simp, _, rfl⟩
  | some h =>
    rw [Option.bind_some]
    dsimp only
    rw [drop_longer_header]
    by_cases hmagic : h.magic = SPARSE_HEADER_MAGIC
    swap
    · rw [if_pos hmagic]
      refine Or.inr ⟨fun i hi hsound => ?_, _, rfl⟩
      obtain ⟨cs, -, rfl⟩ := Option.map_eq_some_iff.mp hi
      exact hmagic hsound.magic
    rw [if_neg (not_not.mpr hmagic)]
    by_cases hmajor : h.major_version = SPARSE_HEADER_MAJOR_VER
    swap
    · rw [if_pos hmajor]
      refine Or.inr ⟨fun i hi hsound => ?_, _, rfl⟩
      obtain ⟨cs, -, rfl⟩ := Option.map_eq_some_iff.mp hi
      exact hmajor hsound.major_version
    rw [if_neg (not_not.mpr hmajor)]
    have hstart : Collected h file_name file_ext (Runs.start sector)
        ⟨none, store, 1, [], sector, 0⟩ :=
      ⟨rfl, by simp [Runs.start], rfl, rfl, by simp [Runs.start], rfl, rfl⟩
    -- the loop over the chunks, from the state the header leaves
    rcases @genfile_chunks_ok h file_name file_ext h.total_chunks _
      (input.drop (max SPARSE_HEADER_LEN h.file_hdr_sz)) _ hstart with
      ⟨cs, hread, hall, out, hloop, hcollected⟩ | ⟨hno, e, hloop⟩
    · have htotal : out.total_blocks = (cs.map fun c => c.header.chunk_sz).sum := by
        rw [hcollected.blocks, blocks_foldl_add]
        exact Nat.zero_add _
      rw [hloop, hread]
      dsimp only
      by_cases hblks : h.total_blks = out.total_blocks
      · rw [if_neg (not_not.mpr hblks)]
        exact Or.inl ⟨⟨h, cs⟩, rfl, ⟨hmagic, hmajor, hall, hblks.trans htotal⟩, out, rfl,
          hcollected⟩
      · rw [if_pos hblks]
        refine Or.inr ⟨fun i hi hsound => ?_, _, rfl⟩
        cases hi
        exact hblks (hsound.total_blks.trans htotal.symm)
    · rw [hloop]
      refine Or.inr ⟨fun i hi hsound => ?_, _, rfl⟩
      obtain ⟨cs, hcs, rfl⟩ := Option.map_eq_some_iff.mp hi
      exact hno cs hcs hsound.chunks

end AndroidTools.Checksparse
