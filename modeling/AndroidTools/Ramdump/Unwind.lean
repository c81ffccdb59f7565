/-
`RamDump.Unwinder`: from a frame to the frame of its caller.

The unwind code of a function is a string of bytes, packed into words from the high byte down,
that tells how to restore the registers. `unwind_exec_insn` is its interpreter, one instruction a
call, and `unwind_frame_tables` runs it until the code is used up. A word that cannot be read ends
the frame where it was a saved register, and raises where it was code.

The interpreter of the source reads and executes in one function. `fetch_op` and `UnwindOp.exec`
are its two halves, so that what an instruction is and what it does can be said apart, and a lemma
says that together they are the function. The loop ends on any bytes, since every instruction
takes one.
-/
import AndroidTools.Lib.Passes
import AndroidTools.Ramdump.UnwindIndex

set_option autoImplicit false

namespace AndroidTools.Ramdump

open AndroidTools.Passes

/-- Why a call does not return 0: it returns -1, an exception, or a loop that still goes on
when the model stops looking. -/
inductive UnwindStop where
  | failed
  | exception
  | unfinished
  deriving Repr, DecidableEq

/-- `Stackframe`: the registers from which a frame is unwound. -/
structure Stackframe where
  fp : ℤ
  sp : ℤ
  lr : ℤ
  pc : ℤ
  deriving Repr, DecidableEq

/-- `FP`, `SP`, `LR` and `PC`, by the numbers of the registers. -/
def FP : ℕ := 11
def SP : ℕ := 13
def LR : ℕ := 14
def PC : ℕ := 15

/-- `UnwindCtrlBlock`; `vrs` are the registers by their numbers. -/
structure UnwindCtrlBlock where
  vrs : ℕ → ℤ
  insn : ℤ
  entries : ℕ
  byte : ℕ

section

variable (read_word : ℤ → Option ℕ)

/-! ## The interpreter

The functions of the source: a byte of the code, the registers popped, one instruction, and
the loop, with fuel for its passes. `unwind_frame_tables` puts them together for a frame.
-/

/-- `unwind_get_byte`: the next byte of the code, from the high byte of a word down. -/
def unwind_get_byte (ctrl : UnwindCtrlBlock) : Except UnwindStop (ℕ × UnwindCtrlBlock) :=
  if ctrl.entries = 0 then .ok (0, ctrl)
  else
    match read_word ctrl.insn with
    | none => .error .exception
    | some val =>
      let ret := (val >>> (ctrl.byte * 8)) &&& 0xff
      if ctrl.byte = 0 then
        .ok (ret, { ctrl with insn := ctrl.insn + 4, entries := ctrl.entries - 1, byte := 3 })
      else .ok (ret, { ctrl with byte := ctrl.byte - 1 })

/-- `ctrl.vrs[reg] = read_word(vsp)`, and the next `vsp`. -/
def pop_register (reg : ℕ) (s : ℤ × (ℕ → ℤ)) : Except UnwindStop (ℤ × (ℕ → ℤ)) :=
  match read_word s.1 with
  | none => .error .failed
  | some w => .ok (s.1 + 4, Function.update s.2 reg w)

/-- The loops `while mask`, from the lowest bit up. -/
def pop_masked (mask reg : ℕ) (s : ℤ × (ℕ → ℤ)) : Except UnwindStop (ℤ × (ℕ → ℤ)) :=
  if _h : mask = 0 then .ok s
  else
    if mask &&& 1 ≠ 0 then
      pop_register read_word reg s >>= pop_masked (mask >>> 1) (reg + 1)
    else pop_masked (mask >>> 1) (reg + 1) s
termination_by mask
decreasing_by all_goals simp only [Nat.shiftRight_eq_div_pow]; omega

/-- The loop `for reg in a`, one register after the other. -/
def pop_registers : List ℕ → ℤ × (ℕ → ℤ) → Except UnwindStop (ℤ × (ℕ → ℤ))
  | [], s => .ok s
  | reg :: regs, s => pop_register read_word reg s >>= pop_registers regs

/-- `ctrl.vrs[SP] = vsp`, at the end of an instruction. -/
def UnwindCtrlBlock.set_sp (ctrl : UnwindCtrlBlock) (vsp : ℤ) : UnwindCtrlBlock :=
  { ctrl with vrs := Function.update ctrl.vrs SP vsp }

/-- `unwind_exec_insn`. The test `insn & 0x80` of the instructions from `0xa0` on is one
that all of them pass, so each of them also pops `LR`. -/
def unwind_exec_insn (ctrl : UnwindCtrlBlock) : Except UnwindStop UnwindCtrlBlock := do
  let (insn, ctrl) ← unwind_get_byte read_word ctrl
  if insn &&& 0xc0 = 0x00 then
    .ok (ctrl.set_sp (ctrl.vrs SP + (((insn &&& 0x3f) <<< 2) + 4 : ℕ)))
  else if insn &&& 0xc0 = 0x40 then
    .ok (ctrl.set_sp (ctrl.vrs SP - (((insn &&& 0x3f) <<< 2) + 4 : ℕ)))
  else if insn &&& 0xf0 = 0x80 then
    let (low, ctrl) ← unwind_get_byte read_word ctrl
    let mask := (insn <<< 8 ||| low) &&& 0x0fff
    if mask = 0 then .error .failed
    else
      let (vsp, vrs) ← pop_masked read_word mask 4 (ctrl.vrs SP, ctrl.vrs)
      let ctrl := { ctrl with vrs := vrs }
      if mask &&& (1 <<< (13 - 4)) = 0 then .ok (ctrl.set_sp vsp) else .ok ctrl
  else if insn &&& 0xf0 = 0x90 ∧ insn &&& 0x0d ≠ 0x0d then
    .ok (ctrl.set_sp (ctrl.vrs (insn &&& 0x0f)))
  else if insn &&& 0xf0 = 0xa0 then
    let s ← pop_registers read_word ((List.range ((insn &&& 7) + 1)).map (4 + ·))
      (ctrl.vrs SP, ctrl.vrs)
    let (vsp, vrs) ← if insn &&& 0x80 ≠ 0 then pop_register read_word 14 s else .ok s
    .ok ({ ctrl with vrs := vrs }.set_sp vsp)
  else if insn = 0xb0 then
    let vrs := if ctrl.vrs PC = 0 then Function.update ctrl.vrs PC (ctrl.vrs LR) else ctrl.vrs
    .ok { ctrl with vrs := vrs, entries := 0 }
  else if insn = 0xb1 then
    let (mask, ctrl) ← unwind_get_byte read_word ctrl
    if mask = 0 ∨ mask &&& 0xf0 ≠ 0 then .error .failed
    else
      let (vsp, vrs) ← pop_masked read_word mask 0 (ctrl.vrs SP, ctrl.vrs)
      .ok ({ ctrl with vrs := vrs }.set_sp vsp)
  else if insn = 0xb2 then
    let (uleb128, ctrl) ← unwind_get_byte read_word ctrl
    .ok (ctrl.set_sp (ctrl.vrs SP + (0x204 + (uleb128 <<< 2) : ℕ)))
  else .error .failed

/-- `prel31_to_addr`. What the sum carries out of 32 bits is added to it again. -/
def prel31_to_addr (addr : ℤ) : Except UnwindStop ℤ :=
  match read_word addr with
  | none => .error .exception
  | some value =>
    let offset := if value &&& 0x40000000 ≠ 0 then value ||| 0x80000000 else value
    let temp := addr + offset
    .ok (temp % 0x100000000 + temp / 0x100000000 % 0x100000000)

/-- The loop `while (ctrl.entries > 0)`, for at most `fuel` passes. -/
def unwind_loop (low high : ℤ) : ℕ → UnwindCtrlBlock → Except UnwindStop UnwindCtrlBlock
  | 0, ctrl => if ctrl.entries = 0 then .ok ctrl else .error .unfinished
  | fuel + 1, ctrl =>
    if ctrl.entries = 0 then .ok ctrl
    else do
      let ctrl ← unwind_exec_insn read_word ctrl
      if ctrl.vrs SP < low ∨ high ≤ ctrl.vrs SP then .error .failed
      else unwind_loop low high fuel ctrl

/-- The bytes of code that are still to be read, the measure of the loop. -/
def UnwindCtrlBlock.bytes_left (ctrl : UnwindCtrlBlock) : ℕ :=
  if ctrl.entries = 0 then 0 else 4 * (ctrl.entries - 1) + ctrl.byte + 1

/-- `(low + (size - 1)) & ~(size - 1)`, for a size that is a power of two. -/
def align_up (low size : ℤ) : ℤ := (low + (size - 1)) / size * size

/-- `high`: the stack ends at most one `thread_size` behind the next boundary. -/
def stack_high (thread_size : ℕ) (low : ℤ) : ℤ := align_up low thread_size + thread_size

/-- `search_idx`, whichever `__init__` chose; the earlier one raises on an empty index. -/
def Unwinder.search_idx (u : Unwinder) (addr : ℤ) : Except UnwindStop UnwindEntry :=
  if u.version_3_0 then
    match u.search_idx_3_0 addr with
    | none => .error .exception
    | some e => .ok e
  else
    match u.search_idx_3_4 addr with
    | none => .error .failed
    | some e => .ok e

/-- `ctrl.insn`: the second word of an entry holds the code itself or says where it is. -/
def code_addr (idx : UnwindEntry) : Except UnwindStop ℤ :=
  if idx.insn_word = 1 then .error .failed
  else if idx.insn_word &&& 0x80000000 = 0 then prel31_to_addr read_word (idx.addr + 4)
  else if idx.insn_word &&& 0xff000000 = 0x80000000 then .ok (idx.addr + 4)
  else .error .failed

/-- `ctrl` at the first byte of the code, which the first word tells. -/
def start_code (vrs : ℕ → ℤ) (insn : ℤ) : Except UnwindStop UnwindCtrlBlock :=
  match read_word insn with
  | none => .error .exception
  | some val =>
    if val &&& 0xff000000 = 0x80000000 then .ok ⟨vrs, insn, 1, 2⟩
    else if val &&& 0xff000000 = 0x81000000 then
      .ok ⟨vrs, insn, 1 + (val &&& 0x00ff0000) >>> 16, 1⟩
    else .error .failed

/-- The registers a frame begins with: `vrs`, of which four are set. -/
def frame_vrs (frame : Stackframe) : ℕ → ℤ :=
  Function.update (Function.update (Function.update (fun _ => 0) FP frame.fp) SP frame.sp) LR
    frame.lr

/-- `unwind_frame_tables`: the entry is searched, its code is run, and the frame of the caller
comes out. -/
def unwind_frame_tables (thread_size : ℕ) (u : Unwinder) (frame : Stackframe) :
    Except UnwindStop Stackframe := do
  let idx ← u.search_idx frame.pc
  let insn ← code_addr read_word idx
  let ctrl ← start_code read_word (frame_vrs frame) insn
  let ctrl ← unwind_loop read_word frame.sp (stack_high thread_size frame.sp) ctrl.bytes_left ctrl
  let pc := if ctrl.vrs PC = 0 then ctrl.vrs LR else ctrl.vrs PC
  if frame.pc = pc then .error .failed
  else .ok ⟨ctrl.vrs FP, ctrl.vrs SP, ctrl.vrs LR, pc⟩

/-! ## What a call of the interpreter can do

The number of bytes that are left is the measure of the loop. Reading one takes it from this
number and does nothing to the registers.
-/

variable {read_word}

theorem unwind_get_byte_vrs {ctrl ctrl' : UnwindCtrlBlock} {b : ℕ}
    (h : unwind_get_byte read_word ctrl = .ok (b, ctrl')) : ctrl'.vrs = ctrl.vrs := by
  unfold unwind_get_byte at h
  split at h
  · cases h
    rfl
  · split at h
    · cases h
    · dsimp only at h
      split at h
      · cases h
        rfl
      · cases h
        rfl

/-- A byte read is one byte less to read, as long as there are any. -/
theorem unwind_get_byte_left {ctrl ctrl' : UnwindCtrlBlock} {b : ℕ}
    (h : unwind_get_byte read_word ctrl = .ok (b, ctrl')) :
    ctrl'.bytes_left = ctrl.bytes_left - 1 := by
  unfold unwind_get_byte at h
  split at h
  · next hzero =>
    cases h
    rw [UnwindCtrlBlock.bytes_left, if_pos hzero]
  · next hpos =>
    split at h
    · cases h
    · dsimp only at h
      split at h
      · next hbyte =>
        cases h
        unfold UnwindCtrlBlock.bytes_left
        dsimp only
        split_ifs <;> omega
      · next hbyte =>
        cases h
        unfold UnwindCtrlBlock.bytes_left
        dsimp only
        split_ifs
        omega

@[simp] theorem UnwindCtrlBlock.set_sp_vrs (ctrl : UnwindCtrlBlock) (vsp : ℤ) :
    (ctrl.set_sp vsp).vrs = Function.update ctrl.vrs SP vsp := rfl

@[simp] theorem UnwindCtrlBlock.set_sp_bytes_left (ctrl : UnwindCtrlBlock) (vsp : ℤ) :
    (ctrl.set_sp vsp).bytes_left = ctrl.bytes_left := rfl

theorem bytes_left_of_entries {ctrl : UnwindCtrlBlock} (h : ctrl.entries = 0) :
    ctrl.bytes_left = 0 := if_pos h

theorem bytes_left_pos {ctrl : UnwindCtrlBlock} (h : ctrl.entries ≠ 0) : 0 < ctrl.bytes_left := by
  rw [UnwindCtrlBlock.bytes_left, if_neg h]
  omega

end

/-! ## Instructions

The tests on bytes in the source come to seven kinds of instruction. Here each is a value of
a type, so that an instruction can be fetched without being executed.
-/

/-- An instruction: `vsp` raised, lowered or set to a register; the registers of a mask
popped, from `r4` on or from `r0` on; `r4` to `r(4 + n)` popped, and `r14`; the end. -/
inductive UnwindOp where
  | add_vsp (n : ℕ)
  | sub_vsp (n : ℕ)
  | set_vsp (reg : ℕ)
  | pop_mask (mask : ℕ)
  | pop_low (mask : ℕ)
  | pop_range (n : ℕ)
  | finish
  deriving Repr, DecidableEq

section

variable (read_word : ℤ → Option ℕ)

/-- The instruction at `ctrl`, of one byte or of two. -/
def fetch_op (ctrl : UnwindCtrlBlock) : Except UnwindStop (UnwindOp × UnwindCtrlBlock) := do
  let (insn, ctrl) ← unwind_get_byte read_word ctrl
  if insn &&& 0xc0 = 0x00 then .ok (.add_vsp (((insn &&& 0x3f) <<< 2) + 4), ctrl)
  else if insn &&& 0xc0 = 0x40 then .ok (.sub_vsp (((insn &&& 0x3f) <<< 2) + 4), ctrl)
  else if insn &&& 0xf0 = 0x80 then
    let (low, ctrl) ← unwind_get_byte read_word ctrl
    let mask := (insn <<< 8 ||| low) &&& 0x0fff
    if mask = 0 then .error .failed else .ok (.pop_mask mask, ctrl)
  else if insn &&& 0xf0 = 0x90 ∧ insn &&& 0x0d ≠ 0x0d then .ok (.set_vsp (insn &&& 0x0f), ctrl)
  else if insn &&& 0xf0 = 0xa0 then .ok (.pop_range (insn &&& 7), ctrl)
  else if insn = 0xb0 then .ok (.finish, ctrl)
  else if insn = 0xb1 then
    let (mask, ctrl) ← unwind_get_byte read_word ctrl
    if mask = 0 ∨ mask &&& 0xf0 ≠ 0 then .error .failed else .ok (.pop_low mask, ctrl)
  else if insn = 0xb2 then
    let (uleb128, ctrl) ← unwind_get_byte read_word ctrl
    .ok (.add_vsp (0x204 + (uleb128 <<< 2)), ctrl)
  else .error .failed

/-- What an instruction makes of the registers. -/
def UnwindOp.exec (vrs : ℕ → ℤ) : UnwindOp → Except UnwindStop (ℕ → ℤ)
  | .add_vsp n => .ok (Function.update vrs SP (vrs SP + n))
  | .sub_vsp n => .ok (Function.update vrs SP (vrs SP - n))
  | .set_vsp reg => .ok (Function.update vrs SP (vrs reg))
  | .pop_mask mask => do
    let (vsp, vrs) ← pop_masked read_word mask 4 (vrs SP, vrs)
    if mask &&& (1 <<< (13 - 4)) = 0 then .ok (Function.update vrs SP vsp) else .ok vrs
  | .pop_low mask => do
    let (vsp, vrs) ← pop_masked read_word mask 0 (vrs SP, vrs)
    .ok (Function.update vrs SP vsp)
  | .pop_range n => do
    let s ← pop_registers read_word ((List.range (n + 1)).map (4 + ·)) (vrs SP, vrs)
    let (vsp, vrs) ← pop_register read_word 14 s
    .ok (Function.update vrs SP vsp)
  | .finish => .ok (if vrs PC = 0 then Function.update vrs PC (vrs LR) else vrs)

/-- The words that are left after an instruction; the end of the code leaves none. -/
def UnwindOp.entries_left (entries : ℕ) : UnwindOp → ℕ
  | .finish => 0
  | _ => entries

variable {read_word}

theorem and_0x80_of_0xa0 {insn : ℕ} (h : insn &&& 0xf0 = 0xa0) : insn &&& 0x80 ≠ 0 := by
  have hand : insn &&& 0x80 = insn &&& 0xf0 &&& 0x80 := (Nat.and_assoc insn 0xf0 0x80).symm
  rw [hand, h]
  decide

/-- A call of the interpreter is an instruction fetched, then performed. -/
theorem unwind_exec_insn_eq (ctrl : UnwindCtrlBlock) :
    unwind_exec_insn read_word ctrl = (do
      let (op, ctrl) ← fetch_op read_word ctrl
      let vrs ← op.exec read_word ctrl.vrs
      .ok { ctrl with vrs := vrs, entries := op.entries_left ctrl.entries }) := by
  unfold unwind_exec_insn fetch_op
  cases unwind_get_byte read_word ctrl with
  | error e => rfl
  | ok first =>
    obtain ⟨insn, ctrl⟩ := first
    simp only [ok_bind]
    by_cases hadd : insn &&& 0xc0 = 0x00
    · simp only [if_pos hadd]
      rfl
    by_cases hsub : insn &&& 0xc0 = 0x40
    · simp only [if_neg hadd, if_pos hsub]
      rfl
    by_cases hpop : insn &&& 0xf0 = 0x80
    · simp only [if_neg hadd, if_neg hsub, if_pos hpop]
      cases unwind_get_byte read_word ctrl with
      | error e => rfl
      | ok second =>
        obtain ⟨low, ctrl⟩ := second
        simp only [ok_bind]
        by_cases hmask : (insn <<< 8 ||| low) &&& 0x0fff = 0
        · simp only [if_pos hmask]
          rfl
        · simp only [if_neg hmask, ok_bind, UnwindOp.exec]
          cases pop_masked read_word ((insn <<< 8 ||| low) &&& 0x0fff) 4
            (ctrl.vrs SP, ctrl.vrs) with
          | error e => rfl
          | ok s =>
            simp only [ok_bind]
            split_ifs <;> rfl
    by_cases hset : insn &&& 0xf0 = 0x90 ∧ insn &&& 0x0d ≠ 0x0d
    · simp only [if_neg hadd, if_neg hsub, if_neg hpop, if_pos hset]
      rfl
    simp only [if_neg hadd, if_neg hsub, if_neg hpop, if_neg hset]
    by_cases hrange : insn &&& 0xf0 = 0xa0
    · simp only [if_pos hrange, if_pos (and_0x80_of_0xa0 hrange), ok_bind, UnwindOp.exec]
      cases pop_registers read_word ((List.range ((insn &&& 7) + 1)).map (4 + ·))
        (ctrl.vrs SP, ctrl.vrs) with
      | error e => rfl
      | ok s =>
        simp only [ok_bind]
        cases pop_register read_word 14 s with
        | error e => rfl
        | ok s' => rfl
    simp only [if_neg hrange]
    by_cases hfinish : insn = 0xb0
    · simp only [if_pos hfinish]
      rfl
    simp only [if_neg hfinish]
    by_cases hlow : insn = 0xb1
    · simp only [if_pos hlow]
      cases unwind_get_byte read_word ctrl with
      | error e => rfl
      | ok second =>
        obtain ⟨mask, ctrl⟩ := second
        simp only [ok_bind]
        by_cases hmask : mask = 0 ∨ mask &&& 0xf0 ≠ 0
        · simp only [if_pos hmask]
          rfl
        · simp only [if_neg hmask, ok_bind, UnwindOp.exec]
          cases pop_masked read_word mask 0 (ctrl.vrs SP, ctrl.vrs) with
          | error e => rfl
          | ok s => rfl
    simp only [if_neg hlow]
    by_cases hbig : insn = 0xb2
    · simp only [if_pos hbig]
      cases unwind_get_byte read_word ctrl with
      | error e => rfl
      | ok second => rfl
    · simp only [if_neg hbig]
      rfl

/-- Fetching takes at least a byte and leaves the registers as they are. -/
theorem fetch_op_ok {ctrl ctrl' : UnwindCtrlBlock} {op : UnwindOp}
    (h : fetch_op read_word ctrl = .ok (op, ctrl')) :
    ctrl'.vrs = ctrl.vrs ∧ ctrl'.bytes_left ≤ ctrl.bytes_left - 1 := by
  unfold fetch_op at h
  obtain ⟨⟨insn, ctrl₁⟩, hbyte, h⟩ := bind_ok h
  have hvrs := unwind_get_byte_vrs hbyte
  have hleft := unwind_get_byte_left hbyte
  -- the instructions of one byte, then those of two
  have hone : ∀ {o : UnwindOp},
      (Except.ok (o, ctrl₁) : Except UnwindStop (UnwindOp × UnwindCtrlBlock)) = .ok (op, ctrl') →
      ctrl'.vrs = ctrl.vrs ∧ ctrl'.bytes_left ≤ ctrl.bytes_left - 1 := by
    intro o ho
    cases ho
    exact ⟨hvrs, hleft.le⟩
  have htwo : ∀ {b : ℕ} {ctrl₂ : UnwindCtrlBlock} {o : UnwindOp},
      unwind_get_byte read_word ctrl₁ = .ok (b, ctrl₂) →
      (Except.ok (o, ctrl₂) : Except UnwindStop (UnwindOp × UnwindCtrlBlock)) = .ok (op, ctrl') →
      ctrl'.vrs = ctrl.vrs ∧ ctrl'.bytes_left ≤ ctrl.bytes_left - 1 := by
    intro b ctrl₂ o hb ho
    cases ho
    have hleft₂ := unwind_get_byte_left hb
    exact ⟨(unwind_get_byte_vrs hb).trans hvrs, by omega⟩
  dsimp only at h
  by_cases hadd : insn &&& 0xc0 = 0x00
  · rw [if_pos hadd] at h
    exact hone h
  by_cases hsub : insn &&& 0xc0 = 0x40
  · rw [if_neg hadd, if_pos hsub] at h
    exact hone h
  rw [if_neg hadd, if_neg hsub] at h
  by_cases hpop : insn &&& 0xf0 = 0x80
  · rw [if_pos hpop] at h
    obtain ⟨⟨low, ctrl₂⟩, hb, h⟩ := bind_ok h
    dsimp only at h
    split_ifs at h
    exact htwo hb h
  rw [if_neg hpop] at h
  by_cases hset : insn &&& 0xf0 = 0x90 ∧ insn &&& 0x0d ≠ 0x0d
  · rw [if_pos hset] at h
    exact hone h
  rw [if_neg hset] at h
  by_cases hrange : insn &&& 0xf0 = 0xa0
  · rw [if_pos hrange] at h
    exact hone h
  rw [if_neg hrange] at h
  by_cases hfinish : insn = 0xb0
  · rw [if_pos hfinish] at h
    exact hone h
  rw [if_neg hfinish] at h
  by_cases hlow : insn = 0xb1
  · rw [if_pos hlow] at h
    obtain ⟨⟨mask, ctrl₂⟩, hb, h⟩ := bind_ok h
    dsimp only at h
    split_ifs at h
    exact htwo hb h
  rw [if_neg hlow] at h
  by_cases hbig : insn = 0xb2
  · rw [if_pos hbig] at h
    obtain ⟨⟨uleb128, ctrl₂⟩, hb, h⟩ := bind_ok h
    exact htwo hb h
  · rw [if_neg hbig] at h
    cases h

/-! ## The loop ends

Nothing but the loop can run out of fuel, which is what the lemmas ending in `_ne` say, one
for each function. And the loop does not, as every instruction takes at least one byte.
-/

theorem unwind_get_byte_ne (ctrl : UnwindCtrlBlock) :
    unwind_get_byte read_word ctrl ≠ .error .unfinished := by
  unfold unwind_get_byte
  split
  · exact ok_ne_error _ _
  · split
    · exact error_ne_error (by decide)
    · dsimp only
      split <;> exact ok_ne_error _ _

theorem pop_register_ne (reg : ℕ) (s : ℤ × (ℕ → ℤ)) :
    pop_register read_word reg s ≠ .error .unfinished := by
  unfold pop_register
  split
  · exact error_ne_error (by decide)
  · exact ok_ne_error _ _

theorem pop_masked_ne (mask reg : ℕ) (s : ℤ × (ℕ → ℤ)) :
    pop_masked read_word mask reg s ≠ .error .unfinished := by
  fun_induction pop_masked read_word mask reg s with
  | case1 => exact ok_ne_error _ _
  | case2 mask reg s hmask hbit ih =>
    rw [bind_ne_error_iff]
    exact ⟨pop_register_ne reg s, fun t _ => ih t⟩
  | case3 mask reg s hmask hbit ih => exact ih

theorem pop_registers_ne (regs : List ℕ) (s : ℤ × (ℕ → ℤ)) :
    pop_registers read_word regs s ≠ .error .unfinished := by
  induction regs generalizing s with
  | nil => exact ok_ne_error _ _
  | cons reg regs ih =>
    rw [pop_registers, bind_ne_error_iff]
    exact ⟨pop_register_ne reg s, fun t _ => ih t⟩

theorem fetch_op_ne (ctrl : UnwindCtrlBlock) :
    fetch_op read_word ctrl ≠ .error .unfinished := by
  unfold fetch_op
  rw [bind_ne_error_iff]
  refine ⟨unwind_get_byte_ne ctrl, ?_⟩
  rintro ⟨insn, ctrl₁⟩ -
  dsimp only
  split_ifs
  all_goals first
    | exact ok_ne_error _ _
    | exact error_ne_error (by decide)
    | rw [bind_ne_error_iff]
      refine ⟨unwind_get_byte_ne ctrl₁, ?_⟩
      rintro ⟨b, ctrl₂⟩ -
      dsimp only
      split_ifs
      · exact error_ne_error (by decide)
      · exact ok_ne_error _ _
    | rw [bind_ne_error_iff]
      exact ⟨unwind_get_byte_ne ctrl₁, fun _ _ => ok_ne_error _ _⟩

theorem UnwindOp.exec_ne (op : UnwindOp) (vrs : ℕ → ℤ) :
    op.exec read_word vrs ≠ .error .unfinished := by
  cases op with
  | add_vsp n => exact ok_ne_error _ _
  | sub_vsp n => exact ok_ne_error _ _
  | set_vsp reg => exact ok_ne_error _ _
  | finish => exact ok_ne_error _ _
  | pop_mask mask =>
    rw [UnwindOp.exec, bind_ne_error_iff]
    refine ⟨pop_masked_ne _ _ _, ?_⟩
    rintro ⟨vsp, vrs'⟩ -
    dsimp only
    split_ifs <;> exact ok_ne_error _ _
  | pop_low mask =>
    rw [UnwindOp.exec, bind_ne_error_iff]
    exact ⟨pop_masked_ne _ _ _, fun _ _ => ok_ne_error _ _⟩
  | pop_range n =>
    rw [UnwindOp.exec, bind_ne_error_iff]
    refine ⟨pop_registers_ne _ _, fun s _ => ?_⟩
    rw [bind_ne_error_iff]
    exact ⟨pop_register_ne _ _, fun _ _ => ok_ne_error _ _⟩

theorem unwind_exec_insn_ne (ctrl : UnwindCtrlBlock) :
    unwind_exec_insn read_word ctrl ≠ .error .unfinished := by
  rw [unwind_exec_insn_eq, bind_ne_error_iff]
  refine ⟨fetch_op_ne ctrl, ?_⟩
  rintro ⟨op, ctrl'⟩ -
  rw [bind_ne_error_iff]
  exact ⟨op.exec_ne _, fun _ _ => ok_ne_error _ _⟩

/-- An instruction takes at least a byte, so the loop ends. -/
theorem unwind_exec_insn_left {ctrl ctrl' : UnwindCtrlBlock} (hpos : ctrl.entries ≠ 0)
    (h : unwind_exec_insn read_word ctrl = .ok ctrl') : ctrl'.bytes_left < ctrl.bytes_left := by
  have hleft := bytes_left_pos hpos
  rw [unwind_exec_insn_eq] at h
  obtain ⟨⟨op, ctrl₁⟩, hfetch, h⟩ := bind_ok h
  obtain ⟨vrs, -, h⟩ := bind_ok h
  obtain ⟨-, hone⟩ := fetch_op_ok hfetch
  cases h
  have hop : ({ ctrl₁ with vrs := vrs, entries := op.entries_left ctrl₁.entries }
      : UnwindCtrlBlock).bytes_left ≤ ctrl₁.bytes_left := by
    cases op with
    | finish => exact Nat.zero_le _
    | _ => exact le_rfl
  omega

/-- As many passes as there are bytes are enough. Behind the first one, the stack pointer
is within the stack. -/
theorem unwind_loop_spec {low high : ℤ} {fuel : ℕ} {ctrl : UnwindCtrlBlock}
    (hfuel : ctrl.bytes_left ≤ fuel) :
    unwind_loop read_word low high fuel ctrl ≠ .error .unfinished ∧
      ∀ ctrl', unwind_loop read_word low high fuel ctrl = .ok ctrl' → ctrl.entries ≠ 0 →
        low ≤ ctrl'.vrs SP ∧ ctrl'.vrs SP < high := by
  induction fuel generalizing ctrl with
  | zero =>
    have hzero : ctrl.entries = 0 := by
      by_contra hpos
      have := bytes_left_pos hpos
      omega
    rw [unwind_loop, if_pos hzero]
    exact ⟨ok_ne_error _ _, fun _ _ hpos => absurd hzero hpos⟩
  | succ fuel ih =>
    rw [unwind_loop]
    by_cases hzero : ctrl.entries = 0
    · rw [if_pos hzero]
      exact ⟨ok_ne_error _ _, fun _ _ hpos => absurd hzero hpos⟩
    rw [if_neg hzero]
    constructor
    · rw [bind_ne_error_iff]
      refine ⟨unwind_exec_insn_ne ctrl, fun ctrl₁ hexec => ?_⟩
      have hless := unwind_exec_insn_left hzero hexec
      split_ifs
      · exact error_ne_error (by decide)
      · exact (ih (by omega)).1
    · intro ctrl' h _
      obtain ⟨ctrl₁, hexec, h⟩ := bind_ok h
      have hless := unwind_exec_insn_left hzero hexec
      split_ifs at h with hout
      by_cases hend : ctrl₁.entries = 0
      · -- the last pass
        have hstop : unwind_loop read_word low high fuel ctrl₁ = .ok ctrl₁ := by
          cases fuel <;> rw [unwind_loop, if_pos hend]
        rw [hstop] at h
        cases h
        exact ⟨by omega, by omega⟩
      · exact (ih (by omega)).2 ctrl' h hend

theorem start_code_entries {vrs : ℕ → ℤ} {insn : ℤ} {ctrl : UnwindCtrlBlock}
    (h : start_code read_word vrs insn = .ok ctrl) : ctrl.entries ≠ 0 := by
  unfold start_code at h
  split at h
  · cases h
  · split_ifs at h
    · cases h
      exact Nat.one_ne_zero
    · cases h
      exact (Nat.add_pos_left Nat.one_pos _).ne'

theorem prel31_to_addr_ne (addr : ℤ) : prel31_to_addr read_word addr ≠ .error .unfinished := by
  unfold prel31_to_addr
  split
  · exact error_ne_error (by decide)
  · exact ok_ne_error _ _

theorem code_addr_ne (idx : UnwindEntry) : code_addr read_word idx ≠ .error .unfinished := by
  unfold code_addr
  split_ifs
  · exact error_ne_error (by decide)
  · exact prel31_to_addr_ne _
  · exact ok_ne_error _ _
  · exact error_ne_error (by decide)

theorem start_code_ne (vrs : ℕ → ℤ) (insn : ℤ) :
    start_code read_word vrs insn ≠ .error .unfinished := by
  unfold start_code
  split
  · exact error_ne_error (by decide)
  · split_ifs
    · exact ok_ne_error _ _
    · exact ok_ne_error _ _
    · exact error_ne_error (by decide)

theorem search_idx_ne (u : Unwinder) (addr : ℤ) : u.search_idx addr ≠ .error .unfinished := by
  unfold Unwinder.search_idx
  split
  · split
    · exact error_ne_error (by decide)
    · exact ok_ne_error _ _
  · split
    · exact error_ne_error (by decide)
    · exact ok_ne_error _ _

/-- Whatever the dump holds, the code of a frame comes to its end. -/
theorem unwind_frame_tables_ne (thread_size : ℕ) (u : Unwinder) (frame : Stackframe) :
    unwind_frame_tables read_word thread_size u frame ≠ .error .unfinished := by
  rw [unwind_frame_tables, bind_ne_error_iff]
  refine ⟨search_idx_ne u frame.pc, fun idx _ => ?_⟩
  rw [bind_ne_error_iff]
  refine ⟨code_addr_ne idx, fun insn _ => ?_⟩
  rw [bind_ne_error_iff]
  refine ⟨start_code_ne _ insn, fun ctrl _ => ?_⟩
  rw [bind_ne_error_iff]
  refine ⟨(unwind_loop_spec le_rfl).1, fun ctrl' _ => ?_⟩
  dsimp only
  generalize (if ctrl'.vrs PC = 0 then ctrl'.vrs LR else ctrl'.vrs PC) = pc
  split_ifs
  · exact error_ne_error (by decide)
  · exact ok_ne_error _ _

/-- The stack pointer of the caller is not below the one of the frame and within its stack,
and the caller is another place. -/
theorem unwind_frame_tables_ok {thread_size : ℕ} {u : Unwinder} {frame caller : Stackframe}
    (h : unwind_frame_tables read_word thread_size u frame = .ok caller) :
    frame.sp ≤ caller.sp ∧ caller.sp < stack_high thread_size frame.sp ∧
      caller.pc ≠ frame.pc := by
  rw [unwind_frame_tables] at h
  obtain ⟨idx, -, h⟩ := bind_ok h
  obtain ⟨insn, -, h⟩ := bind_ok h
  obtain ⟨ctrl, hstart, h⟩ := bind_ok h
  obtain ⟨ctrl', hloop, h⟩ := bind_ok h
  obtain ⟨hlow, hhigh⟩ := (unwind_loop_spec le_rfl).2 ctrl' hloop (start_code_entries hstart)
  dsimp only at h
  generalize (if ctrl'.vrs PC = 0 then ctrl'.vrs LR else ctrl'.vrs PC) = pc at h
  split_ifs at h with hsame
  cases h
  exact ⟨hlow, hhigh, fun heq => hsame heq.symm⟩

end

end AndroidTools.Ramdump
