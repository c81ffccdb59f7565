/-
What the chunk files of `genfile` hold, and what flashing them does.

The runs are followed over the chunk list: which chunks each of them holds, where it starts and
ends, how the ranges lie, and what a disk looks like after they have been written to it. The
runs turn out to be the longest rows of RAW chunks in the image, one chunk file for each, so
that nothing is split and nothing is joined over a DONT_CARE chunk.

A payload may be missing at the end of the input, since `genfile` copies what it reads. That is
the one way in which an accepted image leaves a chunk file shorter than its entry says.
-/
import AndroidTools.Checksparse.SparseImage
import AndroidTools.Lib.Rows

set_option autoImplicit false

namespace AndroidTools.Checksparse

open Bytes Writes Msp Rows

/-! ## How the runs lie

`Placed` is the invariant of collecting the runs, chunk by chunk: the runs are the maximal
rows of RAW chunks, in order, each at the sector that the chunks before it come to. A
DONT_CARE chunk closes the last run, so whether the next RAW chunk joins or begins a run is
part of the invariant.
-/

/-- The longest rows of RAW chunks of an image, in its order. -/
def raw_rows (chunks : List Chunk) : List (List Chunk) := rows (fun c => decide c.IsRaw) chunks

/-- What holds of the runs after the chunks `done` of an image that starts at sector `s`: they
are the rows of RAW chunks, each where the image has it. A run is open as long as the last
chunk was a RAW one, and then it ends where the next chunk will start. -/
structure Placed (h : SparseHeader) (s : ℤ) (done : List Chunk) (st : Runs) : Prop where
  sector : st.sector = s + ((done.map (Chunk.sectors h)).sum : ℕ)
  within : ∀ r ∈ st.runs, s ≤ r.start ∧ r.start + (r.sectors h : ℕ) ≤ st.sector
  increasing : st.runs.Pairwise fun (r r' : SparseRun) => r.start + (r.sectors h : ℕ) ≤ r'.start
  rows : st.runs.map SparseRun.chunks = raw_rows done
  is_open : st.is_open = true → ∃ init r front, st.runs = init ++ [r] ∧
    r.start + (r.sectors h : ℕ) = st.sector ∧ done = front ++ r.chunks ∧ r.chunks ≠ [] ∧
    ∀ c ∈ front.getLast?, ¬ c.IsRaw
  is_closed : st.is_open = false → ∀ c ∈ done.getLast?, ¬ c.IsRaw

section Placing

variable {h : SparseHeader} {s : ℤ} {done : List Chunk} {st : Runs} {c : Chunk}

/-- The chunks of a run are RAW chunks of the image. -/
theorem Placed.raw (hs : Placed h s done st) {r : SparseRun} (hr : r ∈ st.runs) :
    ∀ d ∈ r.chunks, d ∈ done ∧ d.IsRaw := by
  intro d hd
  have hrow : r.chunks ∈ raw_rows done := by
    rw [← hs.rows]
    exact List.mem_map_of_mem hr
  have hraw := of_mem_rows hrow hd
  exact ⟨mem_of_mem_rows hrow hd, of_decide_eq_true hraw⟩

/-- RAW chunks that come behind a DONT_CARE chunk are one row. -/
theorem raw_rows_append {front row : List Chunk} (hfront : ∀ x ∈ front.getLast?, ¬ x.IsRaw)
    (hne : row ≠ []) (hrow : ∀ x ∈ row, x.IsRaw) :
    raw_rows (front ++ row) = raw_rows front ++ [row] :=
  rows_append_row (fun x hx => decide_eq_false (hfront x hx)) hne
    fun x hx => decide_eq_true (hrow x hx)

theorem placed_start (h : SparseHeader) (s : ℤ) : Placed h s [] (Runs.start s) := by
  constructor <;> simp [Runs.start, raw_rows]

theorem Placed.advance (hs : Placed h s done st) (c : Chunk) :
    (st.add h c).sector = s + (((done ++ [c]).map (Chunk.sectors h)).sum : ℕ) := by
  have hsum : (((done ++ [c]).map (Chunk.sectors h)).sum : ℕ)
      = (done.map (Chunk.sectors h)).sum + c.sectors h := by simp
  have hsector : (st.add h c).sector = st.sector + (c.sectors h : ℕ) := rfl
  rw [hsector, hs.sector, hsum]
  push_cast
  ring

/-- A DONT_CARE chunk: the runs stay, and the last one is closed. -/
theorem Placed.dont_care (hs : Placed h s done st) (hraw : ¬ c.IsRaw)
    (hruns : (st.add h c).runs = st.runs) : Placed h s (done ++ [c]) (st.add h c) := by
  have hsector : (st.add h c).sector = st.sector + (c.sectors h : ℕ) := rfl
  have hsame : raw_rows (done ++ [c]) = raw_rows done := rows_concat_of_not (decide_eq_false hraw)
  refine ⟨hs.advance c, ?_, ?_, ?_, ?_, ?_⟩
  · intro r hr
    rw [hruns] at hr
    have := hs.within r hr
    rw [hsector]
    omega
  · rw [hruns]
    exact hs.increasing
  · rw [hruns, hs.rows, hsame]
  · intro ho
    simp [Runs.add, hraw] at ho
  · intro _ d hd
    rw [List.getLast?_concat, Option.mem_some] at hd
    rwa [← hd]

/-- A RAW chunk behind a closed run is the first chunk of a new one, which starts at the current
sector. -/
theorem Placed.first_raw (hs : Placed h s done st) (hraw : c.IsRaw) (hclosed : st.is_open = false)
    (hruns : (st.add h c).runs = st.runs ++ [⟨st.sector, [c]⟩]) :
    Placed h s (done ++ [c]) (st.add h c) := by
  have hsector : (st.add h c).sector = st.sector + (c.sectors h : ℕ) := rfl
  refine ⟨hs.advance c, ?_, ?_, ?_, ?_, ?_⟩
  · intro r hr
    rw [hruns] at hr
    have hnonneg : s ≤ st.sector := by
      rw [hs.sector]
      omega
    rcases List.mem_append.mp hr with hr | hr
    · have := hs.within r hr
      rw [hsector]
      omega
    · rw [List.mem_singleton.mp hr, hsector]
      simp only [SparseRun.sectors, List.map_cons, List.map_nil, List.sum_singleton]
      omega
  · rw [hruns, List.pairwise_append]
    refine ⟨hs.increasing, List.pairwise_singleton _ _, fun r hr r' hr' => ?_⟩
    rw [List.mem_singleton.mp hr']
    exact (hs.within r hr).2
  · rw [hruns, List.map_append, hs.rows]
    exact (raw_rows_append (hs.is_closed hclosed) (List.cons_ne_nil c []) (by simpa)).symm
  · intro _
    refine ⟨st.runs, _, done, hruns, ?_, rfl, List.cons_ne_nil c [], hs.is_closed hclosed⟩
    rw [hsector]
    simp [SparseRun.sectors]
  · intro ho
    simp [Runs.add, hraw] at ho

/-- A RAW chunk behind an open run `r` joins it, since the run ends where the chunk starts. -/
theorem Placed.next_raw (hs : Placed h s done st) (hraw : c.IsRaw) (hgoes : st.is_open = true)
    {init : List SparseRun} {r : SparseRun} (hinit : st.runs = init ++ [r])
    (hruns : (st.add h c).runs = init ++ [{ r with chunks := r.chunks ++ [c] }]) :
    Placed h s (done ++ [c]) (st.add h c) := by
  have hsector : (st.add h c).sector = st.sector + (c.sectors h : ℕ) := rfl
  obtain ⟨init', r', front, hinit', hend, hdone, hne, hfront⟩ := hs.is_open hgoes
  obtain ⟨rfl, hr'⟩ := List.append_inj' (hinit'.symm.trans hinit) rfl
  obtain rfl : r' = r := (List.cons.inj hr').1
  have hr : r' ∈ st.runs := by rw [hinit]; simp
  have hmem : ∀ x ∈ init', x ∈ st.runs := fun x hx => by rw [hinit]; simp [hx]
  have hgrown : (SparseRun.sectors h { r' with chunks := r'.chunks ++ [c] } : ℕ)
      = r'.sectors h + c.sectors h := sectors_concat r'
  have hchunks : ∀ d ∈ r'.chunks, d.IsRaw := fun d hd => (hs.raw hr d hd).2
  refine ⟨hs.advance c, ?_, ?_, ?_, ?_, ?_⟩
  · -- the last run has grown by the chunk
    intro x hx
    rw [hruns] at hx
    rcases List.mem_append.mp hx with hx | hx
    · have := hs.within x (hmem x hx)
      rw [hsector]
      omega
    · rw [List.mem_singleton.mp hx, hgrown, hsector]
      have := hs.within r' hr
      dsimp only
      push_cast
      omega
  · have hinc := hs.increasing
    rw [hinit, List.pairwise_append] at hinc
    rw [hruns, List.pairwise_append]
    refine ⟨hinc.1, List.pairwise_singleton _ _, fun x hx y hy => ?_⟩
    rw [List.mem_singleton.mp hy]
    exact hinc.2.2 x hx r' (by simp)
  · -- so has the last row, and those before it are the rows of `front`
    have hrows := hs.rows
    rw [hdone, raw_rows_append hfront hne hchunks, hinit, List.map_append] at hrows
    have hbefore : init'.map SparseRun.chunks = raw_rows front :=
      (List.append_inj' hrows rfl).1
    have hall : ∀ x ∈ r'.chunks ++ [c], x.IsRaw := by
      intro x hx
      rcases List.mem_append.mp hx with hx | hx
      · exact hchunks x hx
      · rwa [List.mem_singleton.mp hx]
    rw [hruns, List.map_append, hbefore, hdone, List.append_assoc,
      raw_rows_append hfront (by simp) hall]
    rfl
  · intro _
    refine ⟨init', _, front, hruns, ?_, by rw [hdone, List.append_assoc], by simp, hfront⟩
    rw [hgrown, hsector, ← hend]
    push_cast
    ring
  · intro ho
    simp [Runs.add, hraw] at ho

/-- A run that is open is there, as the last one. -/
theorem Placed.runs_ne_nil (hs : Placed h s done st) (ho : st.is_open = true) : st.runs ≠ [] := by
  obtain ⟨init, r, -, hinit, -⟩ := hs.is_open ho
  rw [hinit]
  simp

/-- **One more chunk** goes where the image has it. -/
theorem placed_add (hs : Placed h s done st) (c : Chunk) :
    Placed h s (done ++ [c]) (st.add h c) := by
  rcases add_cases h st c hs.runs_ne_nil with ⟨hraw, hruns⟩ | ⟨hraw, hclosed, hruns⟩
    | ⟨hraw, hgoes, init, r, hinit, hruns⟩
  · exact hs.dont_care hraw hruns
  · exact hs.first_raw hraw hclosed hruns
  · exact hs.next_raw hraw hgoes hinit hruns

theorem placed_of (i : Image) (s : ℤ) : Placed i.header s i.chunks (Runs.of i s) := by
  have hall : ∀ chunks done st, Placed i.header s done st →
      Placed i.header s (done ++ chunks) (chunks.foldl (Runs.add i.header) st) := by
    intro chunks
    induction chunks with
    | nil => intro done st hst; rwa [List.append_nil]
    | cons c chunks ih =>
      intro done st hst
      rw [List.foldl_cons, show done ++ c :: chunks = (done ++ [c]) ++ chunks by simp]
      exact ih _ _ (placed_add hst c)
  exact hall i.chunks [] _ (placed_start i.header s)

end Placing

/-! ## How much of a payload is there

The counter of `process_raw_chunk` goes down by what was asked for, and not by what `read`
returned. Only the payload of the last chunk can be cut short, since the header of every
other is read from behind its payload; that is why one condition on the last chunk decides
about all chunk files.
-/

theorem size_eq_sectors_mul {h : SparseHeader} {c : Chunk} (hc : c.Sound h) :
    c.sectors h * 512 = c.size h := by
  have := hc.2
  rw [Chunk.sectors]
  omega

/-- The header of the next chunk is behind the payload, so only the last one can be cut
short. -/
theorem payload_of_read {h : SparseHeader} {n : ℕ} {bytes : List UInt8} {cs : List Chunk}
    (hread : read_chunks h n bytes = some cs) {c : Chunk} (hc : c ∈ cs) (hraw : c.IsRaw) :
    c.payload.length ≤ c.size h ∧ (c.payload.length < c.size h → cs.getLast? = some c) := by
  induction n generalizing bytes cs with
  | zero =>
    cases hread
    simp at hc
  | succ n ih =>
    rw [read_chunks, Option.bind_eq_some_iff] at hread
    obtain ⟨⟨d, rest⟩, hchunk, htail⟩ := hread
    dsimp only at htail
    rw [Option.map_eq_some_iff] at htail
    obtain ⟨tail, htail, rfl⟩ := htail
    rcases List.mem_cons.mp hc with rfl | hc
    · rw [read_chunk, Option.map_eq_some_iff] at hchunk
      obtain ⟨header, -, hpair⟩ := hchunk
      rw [Prod.mk.injEq] at hpair
      obtain ⟨rfl, rfl⟩ := hpair
      rw [Chunk.IsRaw] at hraw
      dsimp only at hraw
      rw [if_pos hraw] at htail ⊢
      dsimp only [Chunk.size]
      rw [List.length_take]
      refine ⟨Nat.min_le_left _ _, fun hshort => ?_⟩
      have hnil : (bytes.drop (max CHUNK_HEADER_LEN h.chunk_hdr_sz)).drop
          (header.chunk_sz * h.blk_sz) = [] := List.drop_eq_nil_of_le (by omega)
      rw [hnil] at htail
      cases n with
      | zero =>
        cases htail
        rfl
      | succ n =>
        -- no header can be read from what is left
        rw [read_chunks, read_chunk, List.take_nil] at htail
        exact absurd htail (by simp [unpack_chunk_header, CHUNK_HEADER_LEN])
    · obtain ⟨hle, hlast⟩ := ih htail hc
      refine ⟨hle, fun hshort => ?_⟩
      have hlast := hlast hshort
      cases tail with
      | nil => simp at hlast
      | cons e tail => rw [List.getLast?_cons_cons, hlast]

theorem payload_of_read_image {input : List UInt8} {i : Image} (h : read_image input = some i)
    {c : Chunk} (hc : c ∈ i.chunks) (hraw : c.IsRaw) :
    c.payload.length ≤ c.size i.header ∧
      (c.payload.length < c.size i.header → i.chunks.getLast? = some c) := by
  rw [read_image, Option.bind_eq_some_iff] at h
  obtain ⟨header, -, hchunks⟩ := h
  obtain ⟨cs, hread, rfl⟩ := Option.map_eq_some_iff.mp hchunks
  exact payload_of_read hread hc hraw

/-- The file is a sparse image but for the payload of its last chunk, which is RAW and cut
short. -/
def CutShort (input : List UInt8) : Prop :=
  ∃ i, read_image input = some i ∧ i.Sound ∧
    ∃ c, i.chunks.getLast? = some c ∧ c.IsRaw ∧ c.payload.length < c.size i.header

/-- Every chunk file has the length that its entry says, its sectors of 512 bytes. -/
def Output.Whole (out : Output) : Prop :=
  ∀ r ∈ out.results, ∃ bytes, out.store r.filename = some bytes ∧
    bytes.length = r.num_partition_sectors * 512

theorem length_bytes (r : SparseRun) :
    r.bytes.length = (r.chunks.map fun c => c.payload.length).sum := by
  rw [SparseRun.bytes, List.length_flatten, List.map_map]
  rfl

/-- A run of whole RAW chunks is as long as its sectors. -/
theorem length_bytes_eq {h : SparseHeader} {r : SparseRun} (hsound : ∀ c ∈ r.chunks, c.Sound h)
    (hpayload : ∀ c ∈ r.chunks, c.payload.length = c.size h) :
    r.bytes.length = r.sectors h * 512 := by
  rw [length_bytes, SparseRun.sectors, ← List.sum_map_mul_right]
  congr 1
  refine List.map_congr_left fun c hc => ?_
  rw [hpayload c hc, size_eq_sectors_mul (hsound c hc)]

/-- The results are the runs, each with its number, its entry and its file. -/
theorem mem_results {h : SparseHeader} {file_name file_ext : String} {s : Runs} {out : Output}
    (hs : Collected h file_name file_ext s out) {res : Result} :
    res ∈ out.results ↔ ∃ k r, s.runs[k]? = some r ∧ res = run_result h file_name file_ext k r := by
  rw [hs.results, List.mem_mapIdx]
  constructor
  · rintro ⟨k, hk, rfl⟩
    exact ⟨k, _, List.getElem?_eq_getElem hk, rfl⟩
  · rintro ⟨k, r, hk, rfl⟩
    obtain ⟨hlt, rfl⟩ := List.getElem?_eq_some_iff.mp hk
    exact ⟨k, hlt, rfl⟩

/-- A payload that is cut short leaves a chunk file short. -/
theorem not_whole_of_cut_short {file_name file_ext : String} {input : List UInt8} {sector : ℤ}
    {store : Store} (hcut : CutShort input) :
    ∃ out, genfile file_name file_ext input sector store = .ok out ∧ ¬ out.Whole := by
  obtain ⟨i, hread, hsound, c, hlast, hraw, hshort⟩ := hcut
  rcases genfile_ok_iff file_name file_ext input sector store with
    ⟨i', hread', -, out, hok, hout⟩ | ⟨hno, -⟩
  swap
  · exact absurd hsound (hno i hread)
  obtain rfl : i = i' := Option.some.inj (hread.symm.trans hread')
  refine ⟨out, hok, fun hwhole => ?_⟩
  -- the chunk is the last one of the last run
  have hplaced := placed_of i sector
  have hopen : (Runs.of i sector).is_open = true := by
    by_contra hclosed
    rw [Bool.not_eq_true] at hclosed
    exact hplaced.is_closed hclosed c hlast hraw
  obtain ⟨init, r, front, hruns, -, hdone, hne, -⟩ := hplaced.is_open hopen
  have hrun : r.chunks.getLast? = some c := by
    rw [hdone, List.getLast?_append_of_ne_nil _ hne] at hlast
    exact hlast
  have hr : (Runs.of i sector).runs[init.length]? = some r := by rw [hruns]; simp
  obtain ⟨bytes, hbytes, hlen⟩ := hwhole _ ((mem_results hout).mpr ⟨_, r, hr, rfl⟩)
  rw [run_result, hout.store _ r hr, Option.some.injEq] at hbytes
  dsimp only [run_result] at hlen
  rw [← hbytes, length_bytes, SparseRun.sectors, ← List.sum_map_mul_right] at hlen
  have hraws := hplaced.raw (List.mem_of_getElem? hr)
  refine absurd hlen (ne_of_lt (List.sum_lt_sum _ _ ?_ ⟨c, List.mem_of_getLast? hrun, ?_⟩))
  · intro d hd
    obtain ⟨hmem, hdraw⟩ := hraws d hd
    rw [size_eq_sectors_mul (hsound.chunks d hmem)]
    exact (payload_of_read_image hread hmem hdraw).1
  · rw [size_eq_sectors_mul (hsound.chunks c (List.mem_of_getLast? hlast))]
    exact hshort

/-- **Chunk files are whole unless the last payload is cut short.** Whatever `genfile` accepts,
every one of its files has the length of its entry, exactly if the input is not an image of which
only the end of the last RAW payload is missing. -/
theorem genfile_whole_iff (file_name file_ext : String) (input : List UInt8) (sector : ℤ)
    (store : Store) :
    (∀ out, genfile file_name file_ext input sector store = .ok out → out.Whole)
      ↔ ¬ CutShort input := by
  constructor
  · intro hwhole hcut
    obtain ⟨out, hok, hnot⟩ := not_whole_of_cut_short hcut
    exact hnot (hwhole out hok)
  · intro hcut out hok
    rcases genfile_ok_iff file_name file_ext input sector store with
      ⟨i, hread, hsound, out', hok', hout⟩ | ⟨-, e, herr⟩
    swap
    · rw [hok] at herr
      cases herr
    obtain rfl : out = out' := Except.ok.inj (hok.symm.trans hok')
    intro res hres
    obtain ⟨k, r, hk, rfl⟩ := (mem_results hout).mp hres
    refine ⟨r.bytes, hout.store k r hk, ?_⟩
    have hraws := (placed_of i sector).raw (List.mem_of_getElem? hk)
    refine length_bytes_eq (fun c hc => hsound.chunks c (hraws c hc).1) fun c hc => ?_
    -- a payload shorter than its chunk is the last one, where the file is cut
    obtain ⟨hle, hlast⟩ := payload_of_read_image hread (hraws c hc).1 (hraws c hc).2
    by_contra hne
    have hlt := Nat.lt_of_le_of_ne hle hne
    exact hcut ⟨i, hread, hsound, c, hlast hlt, (hraws c hc).2, hlt⟩

/-- One RAW block of 512 bytes is announced, and the file ends behind its header. -/
def cut_short_input : List UInt8 :=
  leBytes 4 SPARSE_HEADER_MAGIC ++ leBytes 2 1 ++ leBytes 2 0 ++ leBytes 2 28 ++ leBytes 2 12
    ++ leBytes 4 512 ++ leBytes 4 1 ++ leBytes 4 1 ++ leBytes 4 0
    ++ leBytes 2 CHUNK_TYPE_RAW ++ leBytes 2 0 ++ leBytes 4 1 ++ leBytes 4 524

theorem genfile_accepts_cut_short :
    ¬ ∀ out, genfile "system" ".img" cut_short_input 0 (fun _ => none) = .ok out → out.Whole := by
  have hcut : CutShort cut_short_input :=
    ⟨⟨⟨SPARSE_HEADER_MAGIC, 1, 0, 28, 12, 512, 1, 1, 0⟩, [⟨⟨CHUNK_TYPE_RAW, 0, 1, 524⟩, []⟩]⟩,
      by decide, ⟨rfl, rfl, by simp [Chunk.Sound, Chunk.size], rfl⟩, _, rfl, rfl, by decide⟩
  obtain ⟨out, hok, hnot⟩ := not_whole_of_cut_short hcut
  exact fun hall => hnot (hall out hok)

/-! ## Flashing the chunk files

The purpose of the whole expansion: writing every chunk file to the place its entry says
leaves on the disk what the image stands for, and leaves the sectors of DONT_CARE chunks
alone. The chunks are laid over the disk one at a time, and the runs follow.
-/

/-- Flashing a run: its file is written to the place that its entry says. -/
def SparseRun.write (r : SparseRun) : WriteAt := ⟨(r.start * 512).toNat, r.bytes⟩

/-- Writing the chunk files where the result list says, in its order. -/
def Output.writes (out : Output) : List WriteAt :=
  out.results.map fun r => ⟨(r.start_sector * 512).toNat, (out.store r.filename).getD []⟩

theorem writes_eq {h : SparseHeader} {file_name file_ext : String} {s : Runs} {out : Output}
    (hs : Collected h file_name file_ext s out) : out.writes = s.runs.map SparseRun.write := by
  rw [Output.writes, hs.results]
  apply List.ext_getElem?
  intro k
  rw [List.getElem?_map, List.getElem?_map, List.getElem?_mapIdx]
  cases hk : s.runs[k]? with
  | none => rfl
  | some r =>
    simp only [Option.map_some, run_result, hs.store k r hk, Option.getD_some]
    rfl

section Flashing

variable {h : SparseHeader} {done : List Chunk} {st : Runs} {c : Chunk} {s : ℕ}

/-- A RAW chunk is written where the image has it, a DONT_CARE chunk is not written. -/
theorem writes_add (hs : Placed h s done st) (hsound : ∀ d ∈ done, d.Sound h)
    (hpayload : ∀ d ∈ done, d.IsRaw → d.payload.length = d.size h) (disk : List UInt8) :
    runWrites ((st.add h c).runs.map SparseRun.write) disk
      = if c.IsRaw then
          overwrite (runWrites (st.runs.map SparseRun.write) disk) (st.sector * 512).toNat c.payload
        else runWrites (st.runs.map SparseRun.write) disk := by
  rcases add_cases h st c hs.runs_ne_nil with ⟨hraw, hruns⟩ | ⟨hraw, hclosed, hruns⟩
    | ⟨hraw, hgoes, init, r, hinit, hruns⟩
  · rw [if_neg hraw, hruns]
  · rw [if_pos hraw, hruns, List.map_append, runWrites_append]
    simp [SparseRun.write, SparseRun.bytes]
  · obtain ⟨init', r', -, hinit', hend, -⟩ := hs.is_open hgoes
    obtain ⟨rfl, hr'⟩ := List.append_inj' (hinit'.symm.trans hinit) rfl
    obtain rfl : r' = r := (List.cons.inj hr').1
    have hr : r' ∈ st.runs := by rw [hinit]; simp
    have hlen : r'.bytes.length = r'.sectors h * 512 :=
      length_bytes_eq (fun d hd => hsound d (hs.raw hr d hd).1)
        fun d hd => hpayload d (hs.raw hr d hd).1 (hs.raw hr d hd).2
    have hstart := (hs.within r' hr).1
    -- the run that goes on ends where the chunk starts, so one write covers both
    have hpos : (r'.start * 512).toNat + r'.bytes.length = (st.sector * 512).toNat := by
      rw [hlen]
      omega
    rw [if_pos hraw, hruns, hinit, List.map_append, runWrites_append, List.map_append,
      runWrites_append]
    simp only [List.map_cons, List.map_nil, runWrites_cons, runWrites_nil, SparseRun.write]
    rw [bytes_concat, ← overwrite_append, hpos]

theorem length_expanded (hc : c.Sound h) (hpayload : c.IsRaw → c.payload.length = c.size h) :
    (c.expanded h).length = c.sectors h * 512 := by
  rw [size_eq_sectors_mul hc, Chunk.expanded]
  split_ifs with hraw
  · rw [List.length_map, hpayload hraw]
  · rw [List.length_replicate]

/-- Laying a chunk over behind other bytes: a RAW chunk decides the bytes it covers, and a
DONT_CARE chunk decides none. -/
theorem overlay_append (bytes : List (Option UInt8)) (c : Chunk) (pos : ℕ) (disk : List UInt8)
    (b : ℕ) :
    overlay (bytes ++ c.expanded h) pos disk b
      = if c.IsRaw then
          if pos + bytes.length ≤ b ∧ b < pos + bytes.length + c.payload.length then
            c.payload.getD (b - (pos + bytes.length)) 0
          else overlay bytes pos disk b
        else overlay bytes pos disk b := by
  rw [overlay, overlay]
  by_cases hb : b < pos
  · have hno : ¬ (pos + bytes.length ≤ b ∧ b < pos + bytes.length + c.payload.length) := by omega
    rw [if_pos hb, if_pos hb, if_neg hno, ite_self]
  rw [if_neg hb, if_neg hb]
  simp only [List.getD_eq_getElem?_getD]
  -- in front of the new chunk, in it, or behind it
  rcases Nat.lt_or_ge (b - pos) bytes.length with hin | hout
  · have hno : ¬ (pos + bytes.length ≤ b ∧ b < pos + bytes.length + c.payload.length) := by omega
    rw [List.getElem?_append_left hin, if_neg hno, ite_self]
  rw [List.getElem?_append_right hout, List.getElem?_eq_none hout, Chunk.expanded]
  by_cases hraw : c.IsRaw
  · rw [if_pos hraw, if_pos hraw, List.getElem?_map]
    rcases Nat.lt_or_ge (b - pos - bytes.length) c.payload.length with hlt | hge
    · rw [if_pos ⟨by omega, by omega⟩, Nat.sub_add_eq, List.getElem?_eq_getElem hlt]
      rfl
    · rw [if_neg (by omega), List.getElem?_eq_none hge]
      rfl
  · rw [if_neg hraw, if_neg hraw, List.getElem?_replicate]
    split_ifs <;> rfl

/-- **Flashing the runs restores the image.** Every byte of the disk is the byte the image has for
it, or what the disk had where the image has none. -/
theorem runs_restore (h : SparseHeader) (s : ℕ) (chunks : List Chunk)
    (hsound : ∀ c ∈ chunks, c.Sound h)
    (hpayload : ∀ c ∈ chunks, c.IsRaw → c.payload.length = c.size h) (disk : List UInt8) (b : ℕ) :
    (runWrites (((chunks.foldl (Runs.add h) (Runs.start s)).runs).map SparseRun.write) disk).getD
        b 0
      = overlay (chunks.map (Chunk.expanded h)).flatten (s * 512) disk b := by
  induction chunks using List.reverseRecOn with
  | nil => simp [Runs.start, overlay]
  | append_singleton done c ih =>
    have hsound' : ∀ d ∈ done, d.Sound h := fun d hd => hsound d (List.mem_append_left _ hd)
    have hpayload' : ∀ d ∈ done, d.IsRaw → d.payload.length = d.size h :=
      fun d hd => hpayload d (List.mem_append_left _ hd)
    have hplaced := placed_of ⟨h, done⟩ s
    have hlen : (done.map (Chunk.expanded h)).flatten.length
        = (done.map (Chunk.sectors h)).sum * 512 := by
      rw [List.length_flatten, List.map_map, ← List.sum_map_mul_right]
      congr 1
      exact List.map_congr_left fun d hd => length_expanded (hsound' d hd) (hpayload' d hd)
    -- where the chunk goes, in bytes
    have hpos : ((Runs.of ⟨h, done⟩ s).sector * 512).toNat
        = s * 512 + (done.map (Chunk.expanded h)).flatten.length := by
      rw [hplaced.sector, hlen]
      dsimp only
      omega
    have hadd := writes_add (c := c) hplaced hsound' hpayload' disk
    rw [hpos] at hadd
    rw [List.foldl_append, List.foldl_cons, List.foldl_nil, List.map_append, List.flatten_append,
      List.map_cons, List.map_nil, List.flatten_singleton, overlay_append, ← ih hsound' hpayload']
    rw [Runs.of] at hadd
    rw [hadd]
    by_cases hraw : c.IsRaw
    · rw [if_pos hraw, if_pos hraw, getD_overwrite]
    · rw [if_neg hraw, if_neg hraw]

end Flashing

/-- **Sparse expansion is faithful.** The ranges of the results increase, a disk with the chunk
files written to their places is the disk with the image restored onto it, and the chunk files
are the payloads of the longest rows of RAW chunks, in their order. -/
theorem genfile_well_formed (file_name file_ext : String) {input : List UInt8} {i : Image}
    (hread : read_image input = some i) (hi : i.WellFormed) (s : ℕ) (store : Store) :
    ∃ out, genfile file_name file_ext input s store = .ok out ∧
      out.results.Pairwise (fun (r r' : Result) =>
        r.start_sector + (r.num_partition_sectors : ℕ) ≤ r'.start_sector) ∧
      (∀ disk b, (runWrites out.writes disk).getD b 0 = i.restored s disk b) ∧
      out.results.map (fun r => out.store r.filename)
        = (raw_rows i.chunks).map fun row => some (row.map Chunk.payload).flatten := by
  rcases genfile_ok_iff file_name file_ext input s store with
    ⟨i', hread', hsound, out, hok, hout⟩ | ⟨hno, -⟩
  swap
  · exact absurd hi.toSound (hno i hread)
  obtain rfl : i = i' := Option.some.inj (hread.symm.trans hread')
  -- the runs of the image lie where it has them; the results are the runs, numbered
  have hplaced := placed_of i s
  refine ⟨out, hok, ?_, ?_, ?_⟩
  · have hinc := hplaced.increasing
    rw [hout.results]
    rw [List.pairwise_iff_getElem] at hinc ⊢
    intro j k hj hk hjk
    rw [List.length_mapIdx] at hj hk
    rw [List.getElem_mapIdx, List.getElem_mapIdx]
    exact hinc j k hj hk hjk
  · intro disk b
    rw [writes_eq hout]
    exact runs_restore i.header s i.chunks hsound.chunks hi.payload disk b
  · rw [← hplaced.rows, List.map_map, hout.results]
    apply List.ext_getElem?
    intro k
    rw [List.getElem?_map, List.getElem?_map, List.getElem?_mapIdx]
    cases hk : (Runs.of i s).runs[k]? with
    | none => rfl
    | some r => exact congrArg some (hout.store k r hk)

/-- A RAW block of 512 bytes and a DONT_CARE block, as an image that is well formed. -/
def two_blocks : Image :=
  ⟨⟨SPARSE_HEADER_MAGIC, 1, 0, 28, 12, 512, 2, 2, 0⟩,
    [⟨⟨CHUNK_TYPE_RAW, 0, 1, 524⟩, List.replicate 512 7⟩, ⟨⟨CHUNK_TYPE_DONT_CARE, 0, 1, 12⟩, []⟩]⟩

def two_blocks_input : List UInt8 :=
  leBytes 4 SPARSE_HEADER_MAGIC ++ leBytes 2 1 ++ leBytes 2 0 ++ leBytes 2 28 ++ leBytes 2 12
    ++ leBytes 4 512 ++ leBytes 4 2 ++ leBytes 4 2 ++ leBytes 4 0
    ++ leBytes 2 CHUNK_TYPE_RAW ++ leBytes 2 0 ++ leBytes 4 1 ++ leBytes 4 524
    ++ List.replicate 512 7
    ++ leBytes 2 CHUNK_TYPE_DONT_CARE ++ leBytes 2 0 ++ leBytes 4 1 ++ leBytes 4 12

theorem two_blocks_well_formed : two_blocks.WellFormed where
  magic := rfl
  major_version := rfl
  chunks := by
    rw [two_blocks, List.forall_mem_cons, List.forall_mem_singleton]
    exact ⟨⟨Or.inl ⟨rfl, rfl⟩, rfl⟩, ⟨Or.inr ⟨rfl, rfl⟩, rfl⟩⟩
  total_blks := rfl
  file_hdr_sz := by decide
  chunk_hdr_sz := by decide
  payload := by
    rw [two_blocks, List.forall_mem_cons, List.forall_mem_singleton]
    exact ⟨fun _ => List.length_replicate, fun h => absurd h (by decide)⟩

theorem genfile_two_blocks :
    ∃ out, genfile "system" ".img" two_blocks_input (40 : ℕ) (fun _ => none) = .ok out ∧
      out.results.Pairwise (fun (r r' : Result) =>
        r.start_sector + (r.num_partition_sectors : ℕ) ≤ r'.start_sector) ∧
      (∀ disk b, (runWrites out.writes disk).getD b 0 = two_blocks.restored 40 disk b) ∧
      out.results.map (fun r => out.store r.filename)
        = (raw_rows two_blocks.chunks).map fun row => some (row.map Chunk.payload).flatten :=
  genfile_well_formed "system" ".img" (by decide +kernel) two_blocks_well_formed 40 _

end AndroidTools.Checksparse
