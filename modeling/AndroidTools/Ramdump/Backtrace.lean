/-
`RamDump.Unwinder.unwind_backtrace`.

A pass prints the place of a frame and goes on to its caller, for as long as
`unwind_frame` finds one. Nothing bounds the number of passes, so whether a backtrace
ends is a question to `unwind_frame`, and each of the three kinds answers it in its own
way. On arm64 a caller's stack pointer is above the frame pointer it was found through
and frame pointers are words of 64 bits, so a backtrace ends on every dump, whatever is
on the stack. With unwind tables the stack pointer only never goes down. Along the frame
pointers of a 32-bit dump it may go round, and a frame saved as its own caller is printed
for ever.
-/
import AndroidTools.Lib.Halting
import AndroidTools.Ramdump.Prologue
import AndroidTools.Ramdump.Symbols
import AndroidTools.Ramdump.Tlb

set_option autoImplicit false

namespace AndroidTools.Ramdump

open AndroidTools.Halting AndroidTools.Bytes AndroidTools.Passes StateTransition Relation

/-! ## The loop

One pass over the frame it is at, for any way to find the caller. What follows holds for all
three kinds of unwinding: an invariant that callers inherit is there in every frame, and a
measure that goes down from frame to frame ends the backtrace.
-/

/-- A printed line: the address, and its symbol, if there is one. -/
abbrev BacktraceLine (ν : Type*) := ℤ × Option (SymbolAt ν)

section

variable {φ ν : Type*} (lookup : ℤ → Except LookupStop (SymbolAt ν)) (pc : φ → Option ℤ)
  (unwind_frame : φ → Option φ)

/-- A pass of the loop, over the frame, if the loop goes on, and the lines printed. The
loop ends at a frame without a `pc`, at an exception of the lookup, and where
`unwind_frame` does not return 0. -/
def backtrace_step :
    Option φ × List (BacktraceLine ν) → Option (Option φ × List (BacktraceLine ν))
  | (none, _) => none
  | (some frame, out) =>
    match pc frame with
    | none => some (none, out)
    | some addr =>
      match lookup addr with
      | .error .index_error => some (none, out)
      | .error _ => some (unwind_frame frame, out ++ [(addr, none)])
      | .ok symbol => some (unwind_frame frame, out ++ [(addr, some symbol)])

variable {lookup pc unwind_frame}

/-- A pass ends the loop or goes on to the caller. -/
theorem backtrace_step_some {frame : φ} {out : List (BacktraceLine ν)}
    {s : Option φ × List (BacktraceLine ν)}
    (h : backtrace_step lookup pc unwind_frame (some frame, out) = some s) :
    s.1 = none ∨ s.1 = unwind_frame frame := by
  rw [backtrace_step] at h
  split at h
  · cases h
    exact .inl rfl
  · split at h
    · cases h
      exact .inl rfl
    · cases h
      exact .inr rfl
    · cases h
      exact .inr rfl

/-- What a frame has and its caller keeps is there in every frame of the backtrace. -/
theorem backtrace_invariant {I : φ → Prop} (hstep : ∀ f g, unwind_frame f = some g → I f → I g)
    {frame : φ} {out : List (BacktraceLine ν)} {s : Option φ × List (BacktraceLine ν)}
    (hframe : I frame)
    (h : Reaches (backtrace_step lookup pc unwind_frame) (some frame, out) s) :
    ∀ g, s.1 = some g → I g := by
  induction h with
  | refl =>
    intro g hg
    cases hg
    exact hframe
  | @tail s t _ hst ih =>
    intro g hg
    obtain ⟨cur, out'⟩ := s
    cases cur with
    | none => cases hst
    | some f =>
      rcases backtrace_step_some hst with hnone | hnext
      · rw [hnone] at hg
        cases hg
      · rw [hnext] at hg
        exact hstep f g hg (ih f rfl)

/-- A backtrace ends if it does from the frame it moves on to. -/
theorem backtrace_halts_of_next {frame : φ}
    (h : ∀ g, unwind_frame frame = some g → ∀ out : List (BacktraceLine ν),
      Halts (backtrace_step lookup pc unwind_frame) (some g, out))
    (out : List (BacktraceLine ν)) :
    Halts (backtrace_step lookup pc unwind_frame) (some frame, out) := by
  cases hs : backtrace_step lookup pc unwind_frame (some frame, out) with
  | none => exact halts_of_none hs
  | some s =>
    rw [halts_iff_of_step hs]
    obtain ⟨next, out'⟩ := s
    cases next with
    | none => exact halts_of_none rfl
    | some g =>
      rcases backtrace_step_some hs with hnone | hnext
      · cases hnone
      · exact h g hnext.symm out'

/-- A backtrace ends along which a measure goes down, as long as the frames keep what the measure
needs. -/
theorem backtrace_halts {I : φ → Prop} (measure : φ → ℕ)
    (hstep : ∀ f g, unwind_frame f = some g → I f → I g ∧ measure g < measure f) (frame : φ)
    (hframe : I frame) (out : List (BacktraceLine ν)) :
    Halts (backtrace_step lookup pc unwind_frame) (some frame, out) := by
  induction hm : measure frame using Nat.strong_induction_on generalizing frame out with
  | h n ih =>
    refine backtrace_halts_of_next (fun g hnext out' => ?_) out
    obtain ⟨hg, hless⟩ := hstep frame g hnext hframe
    exact ih (measure g) (hm ▸ hless) g hg out' rfl

end

/-! ## Frame pointers

On arm64 and on a 32-bit dump without unwind tables, the caller is found through the frame
pointer. The two functions read the same fields, but only the first one asks the stack
pointer to go up. That is the difference between a backtrace that ends on every dump and one
that need not end.
-/

/-- A `Stackframe` whose fields are words of the dump, which may be missing. -/
structure GenericFrame where
  fp : Option ℤ
  sp : Option ℤ
  pc : Option ℤ
  deriving Repr, DecidableEq

/-- A word as the value of a field; a word that cannot be read is no value. -/
def field_of (word : Option ℕ) : Option ℤ := word.map Nat.cast

/-- What the unwinder has of an arm64 kernel: the dump, its page table walk, and the two numbers
it compares with. -/
structure Dump64 where
  ram : RamDump
  arm64 : ram.arm64 = true
  page_table_walk : PageTableWalk
  page_offset : ℕ
  thread_size : ℕ

/-- `self.ramdump.read_word`, eight bytes here; the TLB makes no difference to it. -/
def Dump64.read_word (d : Dump64) (addr : ℕ) : Except ReadStop (Option ℕ) :=
  (d.ram.read_string (walk_each_time d.page_table_walk) (.addr (some addr)) d.ram.word true
    none).map (Option.map Int.toNat)

/-- `unwind_frame_generic64`. What it returns for a frame it does not like is less than 0, an
exception of a read ends the backtrace as well, and a missing `fp` is less than any number, while
a missing `sp` raises. -/
def Dump64.unwind_frame_generic64 (d : Dump64) (frame : GenericFrame) : Option GenericFrame :=
  match frame.sp, frame.fp with
  | some low, some fp =>
    let high := align_up low d.thread_size
    if fp < low ∨ high < fp ∨ fp % 16 ≠ 0 ∨ fp < d.page_offset then none
    else
      match d.read_word fp.toNat, d.read_word (fp.toNat + 8) with
      | .ok fp_is_at, .ok pc_is_at =>
        some ⟨field_of fp_is_at, some (fp + 0x10), field_of pc_is_at⟩
      | _, _ => none
  | _, _ => none

/-- A 32-bit dump: its words, and the size of a stack. -/
structure Dump32 where
  read_word : ℤ → Option ℕ
  thread_size : ℕ

/-- `unwind_frame_generic` on such a dump: the frame of the caller, by the frame pointer. -/
def Dump32.unwind_frame_generic (d : Dump32) (frame : GenericFrame) : Option GenericFrame :=
  match frame.sp, frame.fp with
  | some low, some fp =>
    let high := align_up low d.thread_size
    if fp < low + 12 ∨ high ≤ fp + 4 then none
    else some ⟨field_of (d.read_word (fp - 12)), field_of (d.read_word (fp - 8)),
      field_of (d.read_word (fp - 4))⟩
  | _, _ => none

/-- A word of the dump is of 64 bits, from whichever file and at whichever address. -/
theorem Dump64.read_word_lt {d : Dump64} {addr w : ℕ} (h : d.read_word addr = .ok (some w)) :
    w < 2 ^ 64 := by
  rw [Dump64.read_word, RamDump.word, d.arm64] at h
  obtain ⟨v, hv, hw⟩ := except_map_ok h
  obtain ⟨phys, -, hread⟩ := bind_ok hv
  change read_string_at d.ram.ebi_files phys .u64 = .ok v at hread
  rw [read_string_at] at hread
  split at hread
  · cases hread
    cases hw
  · next s hs =>
    split_ifs at hread with hnil hlen
    · cases hread
      cases hw
    · cases hread
      have hlt := leValue_lt s
      rw [Option.map_some, Option.some.injEq] at hw
      rw [hlen] at hlt
      rw [← hw]
      exact hlt

/-- The caller's stack pointer is above the frame pointer, which is not below the stack
pointer. -/
theorem Dump64.unwind_frame_generic64_some {d : Dump64} {f g : GenericFrame}
    (h : d.unwind_frame_generic64 f = some g) :
    ∃ low fp, f.sp = some low ∧ f.fp = some fp ∧ low ≤ fp ∧ g.sp = some (fp + 0x10) ∧
      ∀ fp', g.fp = some fp' → fp' < 2 ^ 64 := by
  unfold Dump64.unwind_frame_generic64 at h
  split at h
  · next low fp hsp hfp =>
    dsimp only at h
    split_ifs at h with hout
    split at h
    · next word _ hword _ =>
      cases h
      refine ⟨low, fp, hsp, hfp, by omega, rfl, fun fp' hfp' => ?_⟩
      obtain ⟨w, rfl, rfl⟩ := Option.map_eq_some_iff.mp hfp'
      exact_mod_cast d.read_word_lt hword
    · cases h
  · cases h

/-- How far a stack pointer is below the end of the address space. -/
def room (f : GenericFrame) : ℕ :=
  match f.sp with
  | some sp => (2 ^ 64 + 0x10 - sp).toNat
  | none => 0

/-- A frame pointer read from the dump is of 64 bits. -/
def SmallFp (f : GenericFrame) : Prop := ∀ fp, f.fp = some fp → fp < 2 ^ 64

theorem Dump64.unwind_frame_generic64_room {d : Dump64} {f g : GenericFrame}
    (h : d.unwind_frame_generic64 f = some g) (hf : SmallFp f) :
    SmallFp g ∧ room g < room f := by
  obtain ⟨low, fp, hsp, hfp, hle, hgsp, hgfp⟩ := d.unwind_frame_generic64_some h
  have hlt := hf fp hfp
  refine ⟨hgfp, ?_⟩
  unfold room
  rw [hsp, hgsp]
  dsimp only
  omega

section

variable {ν : Type*} (lookup : ℤ → Except LookupStop (SymbolAt ν))

theorem backtrace_generic64_of_small (d : Dump64) {frame : GenericFrame}
    (hframe : SmallFp frame) (out : List (BacktraceLine ν)) :
    Halts (backtrace_step lookup GenericFrame.pc d.unwind_frame_generic64) (some frame, out) :=
  backtrace_halts (I := SmallFp) room (fun _ _ h hf => d.unwind_frame_generic64_room h hf) frame
    hframe out

/-- On arm64 every backtrace ends, and the stack pointers of its frames are above the one it
begins with. -/
theorem backtrace_generic64 (d : Dump64) (frame : GenericFrame) (out : List (BacktraceLine ν)) :
    Halts (backtrace_step lookup GenericFrame.pc d.unwind_frame_generic64) (some frame, out) ∧
      ∀ s, Reaches (backtrace_step lookup GenericFrame.pc d.unwind_frame_generic64)
          (some frame, out) s →
        ∀ g, s.1 = some g → g = frame ∨
          ∃ low sp, frame.sp = some low ∧ g.sp = some sp ∧ low + 0x10 ≤ sp := by
  constructor
  · refine backtrace_halts_of_next (fun g hnext out' => ?_) out
    -- whatever the first frame pointer was, the next one is a word of the dump
    obtain ⟨_, fp, -, -, -, -, hgfp⟩ := d.unwind_frame_generic64_some hnext
    exact backtrace_generic64_of_small lookup d hgfp out'
  · intro s hs
    refine backtrace_invariant (fun f g hfg hf => ?_) (.inl rfl) hs
    obtain ⟨low, fp, hsp, -, hle, hgsp, -⟩ := d.unwind_frame_generic64_some hfg
    rcases hf with rfl | ⟨low₀, sp, hlow₀, hsp', hless⟩
    · exact .inr ⟨low, fp + 0x10, hsp, hgsp, by omega⟩
    · rw [hsp', Option.some.injEq] at hsp
      exact .inr ⟨low₀, fp + 0x10, hlow₀, hgsp, by omega⟩

/-- On a 32-bit dump without unwind tables, a frame saved as its own caller is printed for
ever, since nothing asks the stack pointer to go up. -/
theorem backtrace_generic_forever {d : Dump32} {sp fp pc : ℕ}
    (hlow : (sp : ℤ) + 12 ≤ fp) (hhigh : (fp : ℤ) + 4 < align_up sp d.thread_size)
    (hfp : d.read_word (fp - 12) = some fp) (hsp : d.read_word (fp - 8) = some sp)
    (hpc : d.read_word (fp - 4) = some pc) (hlookup : lookup pc ≠ .error .index_error)
    (out : List (BacktraceLine ν)) :
    ¬ Halts (backtrace_step lookup GenericFrame.pc d.unwind_frame_generic)
      (some ⟨some (fp : ℤ), some (sp : ℤ), some (pc : ℤ)⟩, out) := by
  have hself : d.unwind_frame_generic ⟨some (fp : ℤ), some (sp : ℤ), some (pc : ℤ)⟩
      = some ⟨some (fp : ℤ), some (sp : ℤ), some (pc : ℤ)⟩ := by
    rw [Dump32.unwind_frame_generic]
    dsimp only
    rw [if_neg (by omega), hfp, hsp, hpc]
    rfl
  refine not_halts_of_invariant
    (I := fun s => s.1 = some ⟨some (fp : ℤ), some (sp : ℤ), some (pc : ℤ)⟩) ?_ rfl
  rintro ⟨_, out'⟩ rfl
  rw [backtrace_step]
  dsimp only
  split
  · next h => exact absurd h hlookup
  · exact ⟨_, rfl, hself⟩
  · exact ⟨_, rfl, hself⟩

/-! ## Unwind tables

With unwind tables the code of each frame comes to its end, so each pass does. From frame to
frame the stack pointer does not go down and the place changes, which is not enough for the
backtrace to end.
-/

/-- `self.unwind_frame` where the dump has unwind tables: -1 and exceptions end the
backtrace. -/
def unwind_frame_by_tables (read_word : ℤ → Option ℕ) (thread_size : ℕ) (u : Unwinder)
    (frame : Stackframe) : Option Stackframe :=
  match unwind_frame_tables read_word thread_size u frame with
  | .ok caller => some caller
  | .error _ => none

/-- With unwind tables the code of every frame comes to its end, and from frame to frame the
stack pointer does not go down, stays in the stack of the frame before, and the place
changes. -/
theorem backtrace_tables (read_word : ℤ → Option ℕ) (thread_size : ℕ) (u : Unwinder)
    (frame : Stackframe) (out : List (BacktraceLine ν)) :
    ∀ s, Reaches (backtrace_step lookup (fun f => some f.pc)
        (unwind_frame_by_tables read_word thread_size u)) (some frame, out) s →
      ∀ g, s.1 = some g → frame.sp ≤ g.sp ∧
        unwind_frame_tables read_word thread_size u g ≠ .error .unfinished ∧
        ∀ h, unwind_frame_by_tables read_word thread_size u g = some h →
          g.sp ≤ h.sp ∧ h.sp < stack_high thread_size g.sp ∧ h.pc ≠ g.pc := by
  have hstep : ∀ g h, unwind_frame_by_tables read_word thread_size u g = some h →
      g.sp ≤ h.sp ∧ h.sp < stack_high thread_size g.sp ∧ h.pc ≠ g.pc := by
    intro g h hgh
    unfold unwind_frame_by_tables at hgh
    split at hgh
    · next caller hcaller =>
      cases hgh
      exact unwind_frame_tables_ok hcaller
    · cases hgh
  intro s hs g hg
  have hup : frame.sp ≤ g.sp := backtrace_invariant (I := fun f => frame.sp ≤ f.sp)
    (fun f h hfh hf => hf.trans (hstep f h hfh).1) le_rfl hs g hg
  exact ⟨hup, unwind_frame_tables_ne thread_size u g, fun h hgh => hstep g h hgh⟩

end

/-- A stack of one frame record, which points at itself. -/
def own_caller_dump : Dump64 where
  ram := {
    ebi_files := [⟨leBytes 8 0x1000 ++ leBytes 8 0x2000, 0x1000, 0x100f⟩]
    arm64 := true
    address_of := fun _ => none
    long_size := 8 }
  arm64 := rfl
  page_table_walk := fun virt => .ok (some virt)
  page_offset := 0x1000
  thread_size := 0x4000

/-- The caller has the same frame pointer, but not the same stack pointer, and the backtrace
ends. -/
theorem backtrace_generic64_own_caller :
    Halts (backtrace_step (fun _ => (.error .none : Except LookupStop (SymbolAt String)))
        GenericFrame.pc own_caller_dump.unwind_frame_generic64)
      (some ⟨some 0x1000, some 0x1000, some 0x2000⟩, []) ∧
    ∃ g : GenericFrame, own_caller_dump.unwind_frame_generic64
        ⟨some 0x1000, some 0x1000, some 0x2000⟩ = some g ∧ g.fp = some 0x1000 ∧
      ∃ low sp : ℤ, (some 0x1000 : Option ℤ) = some low ∧ g.sp = some sp ∧ low + 0x10 ≤ sp := by
  have hnext : own_caller_dump.unwind_frame_generic64 ⟨some 0x1000, some 0x1000, some 0x2000⟩
      = some ⟨some 0x1000, some 0x1010, some 0x2000⟩ := by
    decide +kernel
  obtain ⟨hhalts, habove⟩ := backtrace_generic64
    (fun _ => (.error .none : Except LookupStop (SymbolAt String))) own_caller_dump
    ⟨some 0x1000, some 0x1000, some 0x2000⟩ []
  have hreach : Reaches (backtrace_step (fun _ => .error .none) GenericFrame.pc
      own_caller_dump.unwind_frame_generic64) (some ⟨some 0x1000, some 0x1000, some 0x2000⟩, [])
      (some ⟨some 0x1000, some 0x1010, some 0x2000⟩,
        ([(0x2000, none)] : List (BacktraceLine String))) := by
    refine ReflTransGen.single ?_
    rw [backtrace_step]
    dsimp only
    rw [hnext]
    rfl
  refine ⟨hhalts, _, hnext, rfl, ?_⟩
  rcases habove _ hreach _ rfl with hsame | hup
  · cases hsame
  · exact hup

/-- A function that saves three registers, without symbols: its caller is the next frame. -/
theorem backtrace_tables_two_frames :
    ∃ s : Option Stackframe × List (BacktraceLine String),
      Reaches (backtrace_step (fun _ => .error .none) (fun f => some f.pc)
        (unwind_frame_by_tables three_saved_dump 8192 three_saved_index))
        (some ⟨0xd0001fd4, 0xd0001fc4, 0, 0xc0009020⟩, []) s ∧
      ∃ g, s.1 = some g ∧ (0xd0001fc4 : ℤ) ≤ g.sp ∧
        unwind_frame_tables three_saved_dump 8192 three_saved_index g ≠ .error .unfinished := by
  have hreach : Reaches (backtrace_step (fun _ => .error .none) (fun f => some f.pc)
      (unwind_frame_by_tables three_saved_dump 8192 three_saved_index))
      (some ⟨0xd0001fd4, 0xd0001fc4, 0, 0xc0009020⟩, ([] : List (BacktraceLine String)))
      (some ⟨0xd0001ff0, 0xd0001fe0, 0xc0008048, 0xc0008048⟩, [(0xc0009020, none)]) := by
    refine ReflTransGen.single ?_
    decide +kernel
  obtain ⟨hup, hends, -⟩ := backtrace_tables _ three_saved_dump 8192 three_saved_index _ _ _ hreach
    _ rfl
  exact ⟨_, hreach, _, rfl, hup, hends⟩

end AndroidTools.Ramdump
