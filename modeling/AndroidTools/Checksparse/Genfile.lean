/-
`genfile` of `checksparse.py`: a sparse image is taken apart into chunk files.

The file is read from front to back: a header, and `total_chunks` chunks of a header and what
belongs to it. RAW chunks are copied to a chunk file, which stays open until a DONT_CARE chunk
closes it, so RAW chunks in a row end up in one file; the sector counter advances over both kinds.

The function returns -1 (`rejected`) where a header does not fit, and raises where a header is cut
off; these are two different ends, since the caller goes on after a -1. Nothing looks at how much
of a payload `read` returned. A file system is a function from names to contents, and an open file
is the name it was opened under; the files that a run has written before it stops are left out,
since nothing reads them.
-/
import AndroidTools.Lib.Writes
import AndroidTools.Msp.Patching

set_option autoImplicit false

namespace AndroidTools.Checksparse

open Bytes Msp

/-! ## Headers

The two headers are unpacked from the bytes that `read` gives, with the format strings of
the source; unpacking raises when the file ends inside a header. A header longer than the
format is allowed, and what is behind the format is skipped.
-/

def SPARSE_HEADER_MAGIC : ℕ := 0xed26ff3a

def CHUNK_TYPE_RAW : ℕ := 0xCAC1

def CHUNK_TYPE_DONT_CARE : ℕ := 0xCAC3

def SPARSE_HEADER_MAJOR_VER : ℕ := 1

def SPARSE_HEADER_LEN : ℕ := 28

def CHUNK_HEADER_LEN : ℕ := 12

def COPY_BUF_SIZE : ℕ := 1024 * 1024

structure SparseHeader where
  magic : ℕ
  major_version : ℕ
  minor_version : ℕ
  file_hdr_sz : ℕ
  chunk_hdr_sz : ℕ
  blk_sz : ℕ
  total_blks : ℕ
  total_chunks : ℕ
  image_checksum : ℕ
  deriving DecidableEq, Repr

structure ChunkHeader where
  chunk_type : ℕ
  reserved1 : ℕ
  chunk_sz : ℕ
  total_sz : ℕ
  deriving DecidableEq, Repr

/-- `sparse_header_t.unpack`; it raises unless it gets the whole header. -/
def unpack_sparse_header (bytes : List UInt8) : Option SparseHeader :=
  if bytes.length = SPARSE_HEADER_LEN then
    some {
      magic := leValue (slice bytes 0 4)
      major_version := leValue (slice bytes 4 2)
      minor_version := leValue (slice bytes 6 2)
      file_hdr_sz := leValue (slice bytes 8 2)
      chunk_hdr_sz := leValue (slice bytes 10 2)
      blk_sz := leValue (slice bytes 12 4)
      total_blks := leValue (slice bytes 16 4)
      total_chunks := leValue (slice bytes 20 4)
      image_checksum := leValue (slice bytes 24 4) }
  else none

/-- `chunk_header_t.unpack`; it raises unless it gets the whole header. -/
def unpack_chunk_header (bytes : List UInt8) : Option ChunkHeader :=
  if bytes.length = CHUNK_HEADER_LEN then
    some {
      chunk_type := leValue (slice bytes 0 2)
      reserved1 := leValue (slice bytes 2 2)
      chunk_sz := leValue (slice bytes 4 4)
      total_sz := leValue (slice bytes 8 4) }
  else none

/-! ## `genfile`

One turn of the loop handles one chunk and leaves the rest of the file. All files are in a
store and one of them is open, to which consecutive RAW chunks are appended; a DONT_CARE
chunk closes it. A stop is a value, -1 or an exception, and the loop ends with the first
one.
-/

/-- How `genfile` ends without a list: it returns -1, or it raises. -/
inductive Stop where
  | rejected
  | raised
  deriving DecidableEq, Repr

/-- An entry of the result list: a chunk file and where it goes. -/
structure Result where
  filename : String
  num_partition_sectors : ℕ
  start_sector : ℤ
  deriving DecidableEq, Repr

/-- What the loop has produced: the file that is open for writing, all files, and the
counters. -/
structure Output where
  out_fp : Option String
  store : Store
  chunk_number : ℕ
  results : List Result
  current_start_sector : ℤ
  total_blocks : ℕ

/-- `"%s_%d%s"`, the name of a chunk file: the number stands between the name of the image and its
extension. -/
def chunk_filename (file_name : String) (chunk_number : ℕ) (file_ext : String) : String :=
  file_name ++ "_" ++ toString chunk_number ++ file_ext

/-- The loop of `process_raw_chunk`: what is left of the input, and the output with the
copied bytes behind it. A `read` at the end of the file returns what there is. -/
def copy_pieces (length : ℕ) (fp_in fp_out : List UInt8) : List UInt8 × List UInt8 :=
  if length = 0 then (fp_in, fp_out)
  else
    let chunk := if COPY_BUF_SIZE < length then COPY_BUF_SIZE else length
    copy_pieces (length - chunk) (fp_in.drop chunk) (fp_out ++ fp_in.take chunk)
termination_by length
decreasing_by
  have : 0 < COPY_BUF_SIZE := by decide
  split_ifs <;> omega

def process_raw_chunk (fp_in fp_out : List UInt8) (blocks blk_sz : ℕ) :
    List UInt8 × List UInt8 :=
  copy_pieces (blocks * blk_sz) fp_in fp_out

/-- The file a RAW chunk is written to: a new one with an entry of its own, or the open
one, whose entry grows. -/
def chunk_file (file_name file_ext : String) (file_size_sectors : ℕ) (out : Output) :
    Except Stop (String × Output) :=
  match out.out_fp with
  -- no file is open: the chunk begins a new one
  | none =>
    let name := chunk_filename file_name out.chunk_number file_ext
    .ok (name,
      { out with
        out_fp := some name
        store := Function.update out.store name (some [])
        chunk_number := out.chunk_number + 1
        results := out.results ++ [⟨name, file_size_sectors, out.current_start_sector⟩] })
  -- the chunk goes on in the file that is open
  | some name =>
    match out.results.getLast? with
    | none => .error .raised
    | some r =>
      let r := { r with num_partition_sectors := r.num_partition_sectors + file_size_sectors }
      .ok (name, { out with results := out.results.dropLast ++ [r] })

/-- One turn of the loop, at the front of what is left of the file: what is left behind the chunk,
and the output with the chunk in it. -/
def genfile_chunk (sparse_header : SparseHeader) (file_name file_ext : String)
    (in_fp : List UInt8) (out : Output) : Except Stop (List UInt8 × Output) :=
  match unpack_chunk_header (in_fp.take CHUNK_HEADER_LEN) with
  -- `struct.unpack` raises on a short read
  | none => .error .raised
  | some chunk_header =>
    let in_fp := in_fp.drop CHUNK_HEADER_LEN
    -- `seek` goes past the end of the file as well
    let in_fp := if CHUNK_HEADER_LEN < sparse_header.chunk_hdr_sz then
      in_fp.drop (sparse_header.chunk_hdr_sz - CHUNK_HEADER_LEN) else in_fp
    let temp := chunk_header.chunk_sz * sparse_header.blk_sz
    if chunk_header.chunk_type = CHUNK_TYPE_RAW then
      if chunk_header.total_sz ≠ sparse_header.chunk_hdr_sz + temp then .error .rejected
      else if temp % 512 ≠ 0 then .error .rejected
      else
        match chunk_file file_name file_ext (temp / 512) out with
        | .error e => .error e
        | .ok (name, out) =>
          let (in_fp, bytes) := process_raw_chunk in_fp ((out.store name).getD [])
            chunk_header.chunk_sz sparse_header.blk_sz
          .ok (in_fp,
            { out with
              store := Function.update out.store name (some bytes)
              current_start_sector := out.current_start_sector + (temp / 512 : ℕ)
              total_blocks := out.total_blocks + chunk_header.chunk_sz })
    else if chunk_header.chunk_type = CHUNK_TYPE_DONT_CARE then
      if chunk_header.total_sz ≠ sparse_header.chunk_hdr_sz then .error .rejected
      else if temp % 512 ≠ 0 then .error .rejected
      else
        .ok (in_fp,
          { out with
            out_fp := none
            current_start_sector := out.current_start_sector + (temp / 512 : ℕ)
            total_blocks := out.total_blocks + chunk_header.chunk_sz })
    else .error .rejected

/-- `for i in range(total_chunks)`; the first turn that stops ends it. -/
def genfile_chunks (sparse_header : SparseHeader) (file_name file_ext : String) :
    ℕ → List UInt8 → Output → Except Stop Output
  | 0, _, out => .ok out
  | n + 1, in_fp, out =>
    match genfile_chunk sparse_header file_name file_ext in_fp out with
    | .error e => .error e
    | .ok (in_fp, out) => genfile_chunks sparse_header file_name file_ext n in_fp out

/-- `genfile`, for a file with this content: its list is `results`. -/
def genfile (file_name file_ext : String) (input : List UInt8) (current_start_sector : ℤ)
    (store : Store) : Except Stop Output :=
  match unpack_sparse_header (input.take SPARSE_HEADER_LEN) with
  | none => .error .raised
  | some sparse_header =>
    if sparse_header.magic ≠ SPARSE_HEADER_MAGIC then .error .rejected
    else if sparse_header.major_version ≠ SPARSE_HEADER_MAJOR_VER then .error .rejected
    else
      let in_fp := input.drop SPARSE_HEADER_LEN
      let in_fp := if SPARSE_HEADER_LEN < sparse_header.file_hdr_sz then
        in_fp.drop (sparse_header.file_hdr_sz - SPARSE_HEADER_LEN) else in_fp
      match genfile_chunks sparse_header file_name file_ext sparse_header.total_chunks in_fp
          ⟨none, store, 1, [], current_start_sector, 0⟩ with
      | .error e => .error e
      | .ok out => if sparse_header.total_blks ≠ out.total_blocks then .error .rejected else .ok out

/-- `process_raw_chunk` copies the payload block by block, and so all of it that the file has. -/
theorem process_raw_chunk_eq (fp_in fp_out : List UInt8) (blocks blk_sz : ℕ) :
    process_raw_chunk fp_in fp_out blocks blk_sz
      = (fp_in.drop (blocks * blk_sz), fp_out ++ fp_in.take (blocks * blk_sz)) := by
  rw [process_raw_chunk]
  generalize blocks * blk_sz = length
  fun_induction copy_pieces length fp_in fp_out with
  | case1 fp_in fp_out => simp
  | case2 length fp_in fp_out hne chunk ih =>
    have hle : chunk ≤ length := by
      dsimp only [chunk]
      split_ifs <;> omega
    rw [ih, List.drop_drop, Nat.add_sub_cancel' hle, List.append_assoc,
      ← List.take_add, Nat.add_sub_cancel' hle]

end AndroidTools.Checksparse
