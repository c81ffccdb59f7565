/-
`FileUtils.copyFile` and `Util.copy`: one file copied through a buffer.

What the streams do is a run: the bytes each `read` returns, and where an exception comes in. A
`read` fills the front of the buffer and leaves the rest of it as it was. `copyFile` writes the
whole buffer after every `read`, `Util.copy` what was read, so the first copy is the file exactly
if every `read` filled the buffer.

Streams may return fewer bytes than there is room for, at the end of a file and elsewhere, so a
run is not determined by the file: it is any sequence of pieces that make up the content, each of
them no longer than the buffer. The two copies are compared over all such runs, each with its own,
on a file system in which the destination may or may not be there.
-/
import AndroidTools.Lib.FileTree

set_option autoImplicit false

namespace AndroidTools.Uploader

open AndroidTools.FileTree

/-- The exceptions of a copy; the last is the one of `getParent().equals` for a root. -/
inductive CopyException where
  | file_not_found
  | io
  | interrupted
  | null_pointer
  deriving Repr, DecidableEq

/-! ## The loops

The two copies over a run of their streams. The buffer is kept from pass to pass, since
`read` may leave a part of it as it was.
-/

/-- A pass of the loop: what `read` returned, and an exception of the check or the write. -/
structure Turn where
  data : List UInt8
  thrown : Option CopyException

/-- What the streams of a call do. `ending` is the first exception of the last `read`, the
flush and the checks around it, `closing` one of the two `close`. -/
structure CopyRun where
  interrupted : Bool
  turns : List Turn
  ending : Option CopyException
  closing : Option CopyException

/-- `bufferedInputStream.read(data)`: the front of the buffer is filled, and the rest stays. -/
def read_into (data buffer : List UInt8) : List UInt8 := data ++ buffer.drop data.length

/-- `while (bufferedInputStream.read(data) != -1)` of `copyFile`, with what was written. -/
def copy_loop : List Turn → List UInt8 → List UInt8 → Except CopyException (List UInt8)
  | [], _, out => .ok out
  | t :: ts, buffer, out =>
    let buffer := read_into t.data buffer
    match t.thrown with
    | some e => .error e
    | none => copy_loop ts buffer (out ++ buffer)

/-- The loop and what follows it up to the last check. -/
def copy_streams (m_buffer_size : ℕ) (run : CopyRun) : Except CopyException (List UInt8) :=
  match copy_loop run.turns (List.replicate m_buffer_size 0) [], run.ending with
  | .error e, _ => .error e
  | .ok _, some e => .error e
  | .ok out, none => .ok out

/-- `copyFile`. A destination that cannot be opened raises; one that is not completed is
deleted. -/
def copy_file (m_buffer_size : ℕ) (fs : FileSystem) (from_file to_file : Path) (run : CopyRun) :
    Except CopyException Bool × FileSystem :=
  if run.interrupted then (.error .interrupted, fs)
  else if text from_file = text to_file then (.ok true, fs)
  else match fs.node from_file with
  | none => (.error .file_not_found, fs)
  -- a directory cannot be opened to read
  | some .directory => (.error .file_not_found, fs)
  | some (.file _) =>
    match fs.write to_file [] with
    | none => (.error .file_not_found, fs)
    | some opened =>
      match copy_streams m_buffer_size run with
      -- what has been copied so far is deleted
      | .error e => (.error e, opened.delete to_file)
      | .ok out =>
        let copied := (opened.write to_file out).getD opened
        match run.closing with
        | some e => (.error e, copied)
        | none => (.ok true, copied)

/-- What the streams of `Util.copy` do: what each `read` returned, and what an exception left
in the file, if there was one. -/
structure UtilRun where
  reads : List (List UInt8)
  left : Option (List UInt8)

/-- `Util.copy`, whose exceptions are printed and not passed on. -/
def copy (fs : FileSystem) (src dst : Path) (run : UtilRun) : FileSystem :=
  match fs.node src with
  | none => fs
  | some .directory => fs
  | some (.file _) => (fs.write dst (run.left.getD run.reads.flatten)).getD fs

/-! ## What streams return

What is asked of a run: that its reads are those of the file. Nothing is said of where they
cut the file, apart from the size of the buffer.
-/

/-- The reads of a file through a buffer: some of what is left, and `-1` only at the end. -/
structure CopyRun.Reads (run : CopyRun) (content : List UInt8) (size : ℕ) : Prop where
  bounds : ∀ t ∈ run.turns, 0 < t.data.length ∧ t.data.length ≤ size
  front : run.turns.flatMap Turn.data <+: content
  end_of_file : run.ending = none → run.turns.flatMap Turn.data = content

/-- A run of `Util.copy` without an exception, with its buffer of 20480 bytes. -/
structure UtilRun.Completes (run : UtilRun) (content : List UInt8) : Prop where
  bounds : ∀ data ∈ run.reads, 0 < data.length ∧ data.length ≤ 20480
  end_of_file : run.reads.flatten = content
  no_exception : run.left = none

/-! ## The copy

The first copy writes a buffer for each pass, and the second what was read. So the two
differ in length as soon as one `read` does not fill the buffer.
-/

theorem length_read_into {data buffer : List UInt8} (h : data.length ≤ buffer.length) :
    (read_into data buffer).length = buffer.length := by
  rw [read_into, List.length_append, List.length_drop]
  omega

/-- A `read` that fills the buffer leaves nothing of what was in it. -/
theorem read_into_full {data buffer : List UInt8} (h : data.length = buffer.length) :
    read_into data buffer = data := by
  rw [read_into, h, List.drop_length, List.append_nil]

/-- The loop writes one buffer for each pass, whatever was read. -/
theorem length_copy_loop {ts : List Turn} {buffer out out' : List UInt8}
    (hbounds : ∀ t ∈ ts, t.data.length ≤ buffer.length)
    (h : copy_loop ts buffer out = .ok out') :
    out'.length = out.length + ts.length * buffer.length := by
  induction ts generalizing buffer out with
  | nil =>
    cases h
    simp
  | cons t ts ih =>
    have hlen := length_read_into (hbounds t List.mem_cons_self)
    rw [copy_loop] at h
    split at h
    · cases h
    · have hrest := ih (fun u hu => by
        rw [hlen]
        exact hbounds u (List.mem_cons_of_mem _ hu)) h
      rw [hrest, List.length_append, hlen, List.length_cons]
      ring

/-- Buffers that were filled are written as they were read. -/
theorem copy_loop_full {ts : List Turn} {buffer out out' : List UInt8}
    (hfull : ∀ t ∈ ts, t.data.length = buffer.length)
    (h : copy_loop ts buffer out = .ok out') : out' = out ++ ts.flatMap Turn.data := by
  induction ts generalizing buffer out with
  | nil =>
    cases h
    rw [List.flatMap_nil, List.append_nil]
  | cons t ts ih =>
    have ht := hfull t List.mem_cons_self
    rw [copy_loop] at h
    split at h
    · cases h
    · rw [read_into_full ht] at h
      rw [ih (fun u hu => (hfull u (List.mem_cons_of_mem _ hu)).trans ht.symm) h,
        List.flatMap_cons, List.append_assoc]

/-- Reads that together have as many bytes as the buffers all filled theirs. -/
theorem all_full {ts : List Turn} {size : ℕ} (hbounds : ∀ t ∈ ts, t.data.length ≤ size)
    (h : ts.length * size ≤ (ts.flatMap Turn.data).length) :
    ∀ t ∈ ts, t.data.length = size := by
  -- the sum is at most that of full buffers
  have hle : ∀ l : List Turn, (∀ t ∈ l, t.data.length ≤ size) →
      (l.flatMap Turn.data).length ≤ l.length * size := by
    intro l hl
    induction l with
    | nil => simp
    | cons t l ih =>
      have ht := hl t List.mem_cons_self
      have hrest := ih fun u hu => hl u (List.mem_cons_of_mem _ hu)
      rw [List.flatMap_cons, List.length_append, List.length_cons, Nat.succ_mul]
      omega
  induction ts with
  | nil => exact fun t ht => absurd ht List.not_mem_nil
  | cons t ts ih =>
    have ht := hbounds t List.mem_cons_self
    have hbounds' : ∀ u ∈ ts, u.data.length ≤ size :=
      fun u hu => hbounds u (List.mem_cons_of_mem _ hu)
    have hrest := hle ts hbounds'
    rw [List.flatMap_cons, List.length_append, List.length_cons, Nat.succ_mul] at h
    intro u hu
    rcases List.mem_cons.mp hu with rfl | hu
    · omega
    · exact ih hbounds' (by omega) u hu

/-- What a copy that returned went through, step by step. -/
theorem copy_file_returns {size : ℕ} {fs fs' : FileSystem} {from_file to_file : Path}
    {run : CopyRun} (hne : from_file ≠ to_file)
    (h : copy_file size fs from_file to_file run = (.ok true, fs')) :
    ∃ out, copy_loop run.turns (List.replicate size 0) [] = .ok out ∧ run.ending = none ∧
      ∃ opened, fs.write to_file [] = some opened ∧ opened.write to_file out = some fs' := by
  have htext : text from_file ≠ text to_file := fun heq => hne (text_injective heq)
  rw [copy_file, if_neg htext] at h
  -- one way out returns true for different paths
  split_ifs at h with hint
  · cases h
  · split at h
    · cases h
    · cases h
    · split at h
      · cases h
      · rename_i opened hopened
        split at h
        · cases h
        · rename_i out hstreams
          obtain ⟨copied, hcopied⟩ := FileSystem.write_again out hopened
          rw [hcopied, Option.getD_some] at h
          dsimp only at h
          split at h
          · cases h
          · cases h
            rw [copy_streams] at hstreams
            split at hstreams
            · cases hstreams
            · cases hstreams
            · rename_i out' hloop hending
              cases hstreams
              exact ⟨out, hloop, hending, opened, hopened, hcopied⟩

/-- A copy makes the destination, and no other file. -/
theorem exists_of_copy_file {size : ℕ} {fs : FileSystem} {from_file to_file q : Path}
    {run : CopyRun} (h : (copy_file size fs from_file to_file run).2.Exists q) :
    fs.Exists q ∨ q = to_file := by
  rw [copy_file] at h
  split_ifs at h
  · exact .inl h
  · exact .inl h
  · split at h
    · exact .inl h
    · exact .inl h
    · split at h
      · exact .inl h
      · -- opened, and deleted again if the loop raises
        rename_i opened hopened
        split at h
        · exact FileSystem.exists_of_write hopened (FileSystem.exists_of_delete h)
        · rename_i out _
          obtain ⟨copied, hcopied⟩ := FileSystem.write_again out hopened
          rw [hcopied, Option.getD_some] at h
          have hq : copied.Exists q := by
            dsimp only at h
            split at h
            · exact h
            · exact h
          rcases FileSystem.exists_of_write hcopied hq with hq | hq
          · exact FileSystem.exists_of_write hopened hq
          · exact .inr hq

/-- `Util.copy` writes what it has read, so that a run that completes leaves the file. -/
theorem copy_completes {fs fs' : FileSystem} {src dst : Path} {content out : List UInt8}
    {run : UtilRun} (hsrc : fs.node src = some (.file content)) (hrun : run.Completes content)
    (hdst : fs.write dst out = some fs') :
    (copy fs src dst run).node dst = some (.file content) := by
  have hopens : ∃ copied, fs.write dst content = some copied := by
    rw [FileSystem.write] at hdst ⊢
    split_ifs at hdst ⊢
    exact ⟨_, rfl⟩
  obtain ⟨copied, hcopied⟩ := hopens
  rw [copy, hsrc]
  dsimp only
  rw [hrun.no_exception, Option.getD_none, hrun.end_of_file, hcopied, Option.getD_some,
    FileSystem.write_node hcopied, if_pos rfl]

/-- **`copyFile` makes the copy that `Util.copy` makes exactly if every `read` filled its
buffer.** For every file, every buffer size and every way in which the streams return its bytes.
-/
theorem copy_file_faithful_iff (m_buffer_size : ℕ) (fs fs' : FileSystem)
    (from_file to_file : Path) (content : List UInt8) (run : CopyRun) (util_run : UtilRun)
    (hne : from_file ≠ to_file) (hsrc : fs.node from_file = some (.file content))
    (hreads : run.Reads content m_buffer_size)
    (hret : copy_file m_buffer_size fs from_file to_file run = (.ok true, fs'))
    (hutil : util_run.Completes content) :
    (fs'.node to_file = some (.file content) ∧
        fs'.node to_file = (copy fs from_file to_file util_run).node to_file) ↔
      ∀ t ∈ run.turns, t.data.length = m_buffer_size := by
  obtain ⟨out, hloop, hending, opened, hopened, hwrite⟩ := copy_file_returns hne hret
  have hcontent := hreads.end_of_file hending
  have hsize : (List.replicate m_buffer_size (0 : UInt8)).length = m_buffer_size :=
    List.length_replicate
  have hdst : fs'.node to_file = some (.file out) := by
    rw [FileSystem.write_node hwrite, if_pos rfl]
  rw [copy_completes hsrc hutil hopened, and_self_iff, hdst, Option.some_inj, Node.file.injEq]
  -- each turn writes a whole buffer, so the length tells how full the reads were
  constructor
  · rintro rfl
    have hlen := length_copy_loop (fun t ht => by
      rw [hsize]
      exact (hreads.bounds t ht).2) hloop
    rw [hsize, List.length_nil, Nat.zero_add] at hlen
    refine all_full (fun t ht => (hreads.bounds t ht).2) ?_
    rw [hcontent, hlen]
  · intro hfull
    rw [copy_loop_full (fun t ht => by rw [hsize]; exact hfull t ht) hloop, hcontent,
      List.nil_append]

/-- `mBufferSize`, as it is unless it is set. -/
def default_buffer_size : ℕ := 2048

def name_a : Name := ⟨['a'], by decide⟩

def name_b : Name := ⟨['b'], by decide⟩

/-- A file system with the file `/a` alone. -/
def one_file (content : List UInt8) : FileSystem :=
  (FileSystem.empty.write [name_a] content).getD FileSystem.empty

/-- A run in which one `read` gives all of the file. -/
def one_read (content : List UInt8) : CopyRun := ⟨false, [⟨content, none⟩], none, none⟩

theorem one_read_reads {content : List UInt8} {size : ℕ} (hpos : 0 < content.length)
    (hsize : content.length ≤ size) : (one_read content).Reads content size where
  bounds t ht := by
    rw [List.mem_singleton.mp ht]
    exact ⟨hpos, hsize⟩
  front := by simp [one_read]
  end_of_file _ := by simp [one_read]

theorem full_buffer_faithful : ∃ fs',
    copy_file 2 (one_file [1, 2]) [name_a] [name_b] (one_read [1, 2]) = (.ok true, fs') ∧
      ((fs'.node [name_b] = some (.file [1, 2]) ∧ fs'.node [name_b] =
          (copy (one_file [1, 2]) [name_a] [name_b] ⟨[[1, 2]], none⟩).node [name_b]) ↔
        ∀ t ∈ (one_read [1, 2]).turns, t.data.length = 2) :=
  ⟨_, rfl, copy_file_faithful_iff 2 (one_file [1, 2]) _ [name_a] [name_b] [1, 2]
    (one_read [1, 2]) ⟨[[1, 2]], none⟩ (by decide) rfl (one_read_reads (by decide) (by decide)) rfl
    ⟨by decide, rfl, rfl⟩⟩

/-- The copy of one byte is as long as the buffer. -/
theorem one_byte_not_copied : ∃ fs',
    copy_file default_buffer_size (one_file [1]) [name_a] [name_b] (one_read [1])
        = (.ok true, fs') ∧
      (one_read [1]).Reads [1] default_buffer_size ∧
      (one_file [1]).node [name_a] = some (.file [1]) ∧
      fs'.node [name_b] ≠ some (.file [1]) := by
  refine ⟨_, rfl, one_read_reads (by decide) (by decide), rfl, ?_⟩
  intro h
  have hsame : [] ++ read_into [1] (List.replicate default_buffer_size 0) = [(1 : UInt8)] :=
    Node.file.inj (Option.some.inj h)
  have hlen := congrArg List.length hsame
  rw [List.nil_append, length_read_into (by rw [List.length_replicate]; decide),
    List.length_replicate] at hlen
  exact absurd hlen (by decide)

end AndroidTools.Uploader
