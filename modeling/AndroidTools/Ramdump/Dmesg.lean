/-
`dmesglib.py`: the records of the kernel's log buffer.

`extract_dmesg_binary` follows the records from `log_first_idx` to `log_next_idx`, and behind each
`verify_log` searches for the next one that is intact. A pass of either loop is one step here.
Only the outer loop looks at `wrap_cnt`, so the search ends only where it meets an intact record
or the end address itself.

Whether the two loops end depends on the lengths and on which records are intact, and not on what
is printed. So a state of the program is mapped to a place in a ring of records, and each of its
steps to a step of the ring; the exact condition is proved there, for rings in general.
-/
import Mathlib.Data.Nat.Bitwise
import AndroidTools.Ramdump.Laps

set_option autoImplicit false

namespace AndroidTools.Ramdump

open AndroidTools.Halting

/-- `LOG_MAGIC`, with which an intact record begins. -/
def log_magic : ℕ := 0x5d7aefca

/-- What the library reads of the dump: memory, the address of `__log_align`, the log
buffer with the two indices, and the layout of `struct printk_log`. -/
structure LogDump where
  read_u16 : ℕ → ℕ
  read_u32 : ℕ → ℕ
  read_dword : ℕ → ℕ
  read_cstring : ℕ → ℕ → List Char
  hexdump : ℤ → ℕ → List Char
  log_align_addr : Option ℕ
  logbuf_addr : ℕ
  logbuf_size : ℕ
  first_idx : ℕ
  last_idx : ℕ
  len_offset : ℕ
  text_len_offset : ℕ
  dict_len_offset : ℕ
  magic_offset : ℕ
  time_offset : ℕ
  log_size : ℕ

/-- What `verify_log_helper` finds wrong: `Bad Magic` or `Bad length`. -/
inductive BadRecord where
  | bad_magic
  | bad_length
  deriving Repr, DecidableEq

/-- What is written: a line of a record, or the report of a corrupted one. -/
inductive DmesgLine where
  | text (seconds micros : ℕ) (line : List Char)
  | corrupted (err : List BadRecord) (msg : ℕ) (dump : List Char)
  deriving Repr, DecidableEq

/-- What the object changes in a run: `wrap_cnt`, and what it has written. -/
structure DmesgLib where
  wrap_cnt : ℕ
  outfile : List DmesgLine
  deriving Repr, DecidableEq

/-- The two loops: `curr_idx` of the outer one; `msg` and `verbose` of `verify_log`. -/
inductive DmesgLoop where
  | extract (curr_idx : ℕ)
  | verify (msg : ℕ) (verbose : Bool)
  deriving Repr, DecidableEq

namespace LogDump

variable (d : LogDump)

/-- `log_next`: the index behind a record, or the base with one lap more. -/
def log_next (idx logbuf : ℕ) (lib : DmesgLib) : ℕ × DmesgLib :=
  let msg_len := d.read_u16 (idx + d.len_offset)
  if msg_len = 0 then (logbuf, { lib with wrap_cnt := lib.wrap_cnt + 1 })
  else (idx + msg_len, lib)

/-- `(text_len + dict_len + log_size + log_align - 1) & ~(log_align - 1)`; for a
`log_align` of 0 the mask is 0. -/
def computed_msg_len (text_len dict_len log_align : ℕ) : ℕ :=
  if log_align = 0 then 0
  else Nat.ldiff (text_len + dict_len + d.log_size + log_align - 1) (log_align - 1)

/-- The list `err` of `verify_log_helper`: what is wrong with the record at `msg`. -/
def record_errors (log_align_addr msg : ℕ) : List BadRecord :=
  let msg_len := d.read_u16 (msg + d.len_offset)
  let text_len := d.read_u16 (msg + d.text_len_offset)
  let dict_len := d.read_u16 (msg + d.dict_len_offset)
  let magic := d.read_u32 (msg + d.magic_offset)
  let log_align := d.read_u32 log_align_addr
  let is_logwrap_marker := text_len = 0 ∧ msg_len = 0 ∧ dict_len = 0
  (if magic ≠ log_magic then [.bad_magic] else []) ++
  (if ¬ is_logwrap_marker ∧ msg_len ≠ d.computed_msg_len text_len dict_len log_align then
    [.bad_length] else [])

/-- `verify_log_helper`; without `CONFIG_LOG_BUF_MAGIC` there is no `__log_align`. -/
def verify_log_helper (msg : ℕ) (verbose : Bool) (lib : DmesgLib) : Bool × DmesgLib :=
  match d.log_align_addr with
  | none => (true, lib)
  | some log_align_addr =>
    let err := d.record_errors log_align_addr msg
    if err ≠ [] then
      if verbose then
        (false, { lib with outfile := lib.outfile ++
          [.corrupted err msg (d.hexdump ((msg : ℤ) - 0x40) 0xC0)] })
      else (false, lib)
    else (true, lib)

/-- The lines that are written for one record. -/
def print_record (curr_idx : ℕ) (lib : DmesgLib) : DmesgLib :=
  let timestamp := d.read_dword (curr_idx + d.time_offset)
  let text_len := d.read_u16 (curr_idx + d.text_len_offset)
  let text_str := d.read_cstring (curr_idx + d.log_size) text_len
  let lines := (text_str.splitOn '\n').map fun line =>
    DmesgLine.text (timestamp / 1000000000) (timestamp % 1000000000 / 1000) line
  { lib with outfile := lib.outfile ++ lines }

/-- A pass of the loop of `extract_dmesg_binary`, up to the loop of `verify_log`, or a pass
of the latter, which returns to the former. -/
def pass : DmesgLoop × DmesgLib → Option (DmesgLoop × DmesgLib)
  | (.extract curr_idx, lib) =>
    if curr_idx ≠ d.logbuf_addr + d.last_idx ∧ lib.wrap_cnt < 2 then
      let (curr_idx, lib) := d.log_next curr_idx d.logbuf_addr (d.print_record curr_idx lib)
      some (.verify curr_idx true, lib)
    else none
  | (.verify msg verbose, lib) =>
    if msg ≠ d.logbuf_addr + d.last_idx then
      let (intact, lib) := d.verify_log_helper msg verbose lib
      if intact then some (.extract msg, lib)
      else
        let msg := msg + 4
        if (msg : ℤ) > d.logbuf_addr + d.logbuf_size - d.log_size then
          some (.verify d.logbuf_addr false, { lib with wrap_cnt := lib.wrap_cnt + 1 })
        else some (.verify msg false, lib)
    else some (.extract (d.logbuf_addr + d.last_idx), lib)

/-- Where `extract_dmesg_binary` begins: at the first record, with nothing written. -/
def start : DmesgLoop × DmesgLib := (.extract (d.logbuf_addr + d.first_idx), ⟨0, []⟩)

/-- The extraction ends after finitely many passes of its two loops. -/
def Terminates : Prop := Halts d.pass d.start

/-! ## The ring

A state of the two loops is a place in a ring of records: at a record in the outer loop, in
search of one in the inner loop. A pass is a step of the ring, so the program stops exactly
if the ring does, for which the condition is known.
-/

/-- `verify_log_helper` accepts the record at `msg`. -/
def intact (msg : ℕ) : Bool :=
  match d.log_align_addr with
  | none => true
  | some log_align_addr => d.record_errors log_align_addr msg = []

/-- The log buffer as a ring of records, in the terms in which rings are reasoned about. -/
def ring : RecordRing where
  base := d.logbuf_addr
  last := d.logbuf_addr + d.last_idx
  buf_size := d.logbuf_size
  log_size := d.log_size
  len := fun p => d.read_u16 (p + d.len_offset)
  valid := d.intact

/-- The place in the ring at which a loop is, and how many laps are counted. -/
def place : DmesgLoop × DmesgLib → Place × ℕ
  | (.extract curr_idx, lib) => (.record curr_idx, lib.wrap_cnt)
  | (.verify msg _, lib) => (.search msg, lib.wrap_cnt)

variable {d}

@[simp] theorem ring_base : d.ring.base = d.logbuf_addr := rfl

@[simp] theorem ring_last : d.ring.last = d.logbuf_addr + d.last_idx := rfl

@[simp] theorem ring_len (p : ℕ) : d.ring.len p = d.read_u16 (p + d.len_offset) := rfl

@[simp] theorem ring_valid (p : ℕ) : d.ring.valid p = d.intact p := rfl

theorem verify_log_helper_intact (msg : ℕ) (verbose : Bool) (lib : DmesgLib) :
    (d.verify_log_helper msg verbose lib).1 = d.intact msg := by
  rw [verify_log_helper, intact]
  cases d.log_align_addr with
  | none => rfl
  | some log_align_addr =>
    dsimp only
    split_ifs with herr hverbose
    · rw [decide_eq_false herr]
    · rw [decide_eq_false herr]
    · rw [decide_eq_true (not_not.mp herr)]

/-- Verifying a record writes lines and counts no lap. -/
theorem verify_log_helper_wrap_cnt (msg : ℕ) (verbose : Bool) (lib : DmesgLib) :
    (d.verify_log_helper msg verbose lib).2.wrap_cnt = lib.wrap_cnt := by
  rw [verify_log_helper]
  cases d.log_align_addr with
  | none => rfl
  | some log_align_addr =>
    dsimp only
    split_ifs <;> rfl

theorem past_iff (msg : ℕ) :
    (msg : ℤ) > d.logbuf_addr + d.logbuf_size - d.log_size ↔ d.ring.Past msg := by
  rw [RecordRing.Past, ring]
  dsimp only
  omega

theorem pass_extract_place (curr_idx : ℕ) (lib : DmesgLib) :
    (d.pass (.extract curr_idx, lib)).map place = d.ring.step (.record curr_idx, lib.wrap_cnt) := by
  rw [pass, RecordRing.step, ring_last, ring_len, ring_base]
  by_cases hgo : curr_idx ≠ d.logbuf_addr + d.last_idx ∧ lib.wrap_cnt < 2
  · rw [if_pos hgo, if_pos hgo, log_next]
    by_cases hlen : d.read_u16 (curr_idx + d.len_offset) = 0
    · rw [if_pos hlen, if_pos hlen]
      rfl
    · rw [if_neg hlen, if_neg hlen]
      rfl
  · rw [if_neg hgo, if_neg hgo]
    rfl

theorem pass_verify_place (msg : ℕ) (verbose : Bool) (lib : DmesgLib) :
    (d.pass (.verify msg verbose, lib)).map place = d.ring.step (.search msg, lib.wrap_cnt) := by
  have hintact := @verify_log_helper_intact d msg verbose lib
  have hwraps := @verify_log_helper_wrap_cnt d msg verbose lib
  rw [pass, RecordRing.step, ring_last, ring_valid, ring_base]
  by_cases hlast : msg = d.logbuf_addr + d.last_idx
  · rw [if_neg (not_not_intro hlast), if_neg fun h => h.1 hlast, hlast]
    rfl
  -- of the verification only its result and the count of laps matter
  · generalize d.verify_log_helper msg verbose lib = run at hintact hwraps
    obtain ⟨ok, lib'⟩ := run
    dsimp only at hintact hwraps
    rw [if_pos hlast, ← hintact, ← hwraps]
    dsimp only
    cases ok with
    | true =>
      have hstop : ¬ (msg ≠ d.logbuf_addr + d.last_idx ∧ true = false) :=
        fun h => absurd h.2 (by decide)
      rw [if_pos rfl, if_neg hstop]
      rfl
    | false =>
      have hgo : msg ≠ d.logbuf_addr + d.last_idx ∧ false = false := ⟨hlast, rfl⟩
      rw [if_neg Bool.false_ne_true, if_pos hgo]
      by_cases hpast : d.ring.Past (msg + 4)
      · rw [if_pos hpast, if_pos ((past_iff _).mpr hpast)]
        rfl
      · rw [if_neg hpast, if_neg fun h => hpast ((past_iff _).mp h)]
        rfl

/-- A pass of either loop is a step of the ring. -/
theorem pass_place (s : DmesgLoop × DmesgLib) :
    (d.pass s).map place = d.ring.step (place s) := by
  obtain ⟨loop, lib⟩ := s
  cases loop with
  | extract curr_idx => exact pass_extract_place curr_idx lib
  | verify msg verbose => exact pass_verify_place msg verbose lib

/-- **The extraction ends exactly if its laps end and the search has a stop to come to.** For
every content of the log buffer and every pair of indices. -/
theorem extraction_terminates_iff (d : LogDump) :
    d.Terminates ↔ d.ring.Closes (d.logbuf_addr + d.first_idx) := by
  rw [Terminates, halts_map_iff pass_place]
  exact RecordRing.halts_iff_closes _ _

/-- In a memory of which the lengths read as zero from some address on, it ends if the
records lead from the first index to the last or a search of the buffer has a stop. -/
theorem terminates_iff_of_bounded {bound : ℕ} (h : ∀ p, bound ≤ p → d.read_u16 p = 0) :
    d.Terminates ↔
      d.ring.Lap (.record (d.logbuf_addr + d.first_idx)) .at_last ∨ d.ring.HasStop := by
  have hlen : ∀ p, bound ≤ p → d.ring.len p = 0 :=
    fun p hp => h _ (hp.trans (Nat.le_add_right p d.len_offset))
  rw [Terminates, halts_map_iff pass_place, ← RecordRing.closes_iff_of_bounded hlen]
  exact RecordRing.halts_iff_closes _ _

/-- A buffer of zeros in a kernel with `CONFIG_LOG_BUF_MAGIC`, and a `log_next_idx` that is
no multiple of 4. -/
def zero_log : LogDump where
  read_u16 := fun _ => 0
  read_u32 := fun _ => 0
  read_dword := fun _ => 0
  read_cstring := fun _ _ => []
  hexdump := fun _ _ => []
  log_align_addr := some 0x800
  logbuf_addr := 0x1000
  logbuf_size := 0x40
  first_idx := 0
  last_idx := 2
  len_offset := 8
  text_len_offset := 10
  dict_len_offset := 12
  magic_offset := 16
  time_offset := 0
  log_size := 24

/-- No record is intact, and the search steps over the end address for ever. -/
theorem zero_log_goes_on : ¬ zero_log.Terminates := by
  have hbad : ∀ msg, zero_log.intact msg = false := by
    intro msg
    have herr : zero_log.record_errors 0x800 msg ≠ [] := by
      simp [record_errors, zero_log, log_magic]
    exact decide_eq_false herr
  have hno : ¬ zero_log.ring.HasStop := by
    rintro ⟨k, -, hlast | hvalid⟩
    -- the last place is two bytes behind one where the search looks
    · have haddr : 0x1000 + 4 * k = 0x1000 + 2 := hlast
      omega
    · rw [ring_valid, hbad] at hvalid
      cases hvalid
  have hfirst : zero_log.ring.step (.record 0x1000, 0) = some (.search 0x1000, 1) := by
    decide +kernel
  have hstart : place zero_log.start = (.record 0x1000, 0) := rfl
  rw [Terminates, halts_map_iff pass_place, hstart, halts_iff_of_step hfirst]
  exact RecordRing.not_halts_of_no_stop hno 1

end LogDump

end AndroidTools.Ramdump
