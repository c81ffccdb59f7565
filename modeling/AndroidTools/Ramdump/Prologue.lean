/-
`RamDump.Unwinder` against the functions it unwinds.

A function begins by pushing registers and lowering the stack pointer, and its unwind code undoes
these steps from the last one to the first. `run` performs the steps of a prologue, `Undoes` says
which instruction is for which step and `Encodes` which bytes stand for an instruction;
`unwind_frame_tables_prologue` is that the unwinder then comes back to the registers the function
was called with.

This is the meaning of unwinding from outside the program: prologues are run forward on a machine
with registers and a stack, and the dump holds what they have left there. Two inductions carry the
result, one over the steps of a prologue, which undoing goes back through, and one over the bytes
of the code, which the interpreter reads from packed words. The conditions on a frame, that the
stack pointer stays inside the stack and that the caller is another place, are asked for by name.
-/
import Mathlib.Data.Nat.Bitwise
import AndroidTools.Ramdump.Unwind

set_option autoImplicit false

namespace AndroidTools.Ramdump

open AndroidTools.Passes

/-! ## Prologues

A prologue is a list of steps, which a small machine runs: registers, and the words it
stores. What the registers held before is to come back from the stack.
-/

/-- A step of a prologue: registers pushed, the first one lowest; `r11` set to the stack
pointer before this is lowered; the stack pointer lowered. -/
inductive PrologueStep where
  | push (regs : List ℕ)
  | set_fp (n : ℕ)
  | alloc (n : ℕ)
  deriving Repr, DecidableEq

/-- The registers, and the words that the prologue has stored. -/
structure Machine where
  regs : ℕ → ℤ
  stored : ℤ → Option ℤ

/-- Words stored from `a` upward, one behind the other. -/
def store_words : ℤ → List ℤ → (ℤ → Option ℤ) → ℤ → Option ℤ
  | _, [], m => m
  | a, v :: vs, m => store_words (a + 4) vs (Function.update m a (some v))

/-- What a step does to the registers and to the stack. -/
def PrologueStep.run (m : Machine) : PrologueStep → Machine
  | .push regs =>
    let sp := m.regs SP - 4 * regs.length
    ⟨Function.update m.regs SP sp, store_words sp (regs.map m.regs) m.stored⟩
  | .set_fp n =>
    ⟨Function.update (Function.update m.regs FP (m.regs SP)) SP (m.regs SP - n), m.stored⟩
  | .alloc n => ⟨Function.update m.regs SP (m.regs SP - n), m.stored⟩

/-- What a prologue does, step after step. -/
def run_prologue (steps : List PrologueStep) (m : Machine) : Machine :=
  steps.foldl PrologueStep.run m

/-- The registers that a step pushes, in the order of their numbers. -/
def PrologueStep.saved : PrologueStep → List ℕ
  | .push regs => regs
  | _ => []

/-- The registers that a prologue pushes. -/
def saved_registers (steps : List PrologueStep) : List ℕ := steps.flatMap PrologueStep.saved

/-- The step sets `r11`, the frame pointer. -/
def PrologueStep.sets_fp : PrologueStep → Prop
  | .set_fp _ => True
  | _ => False

/-- Once `r11` holds the stack pointer, it is neither pushed nor set again. -/
def KeepsFp : List PrologueStep → Prop
  | [] => True
  | s :: rest =>
    (s.sets_fp → FP ∉ saved_registers rest ∧ ∀ t ∈ rest, ¬ t.sets_fp) ∧ KeepsFp rest

/-! ## The code of a prologue

The unwind code of a function, from two sides. `Undoes` pairs each step with the instruction
that takes it back, and `Encodes` each instruction with its bytes, which `code_image` packs
into words.
-/

/-- The registers of a mask, from the lowest bit on. -/
def mask_registers (mask reg : ℕ) : List ℕ :=
  if _h : mask = 0 then []
  else if mask &&& 1 ≠ 0 then reg :: mask_registers (mask >>> 1) (reg + 1)
  else mask_registers (mask >>> 1) (reg + 1)
termination_by mask
decreasing_by all_goals simp only [Nat.shiftRight_eq_div_pow]; omega

/-- The instruction that undoes a step. Neither the stack pointer nor the program counter
is among the pushed registers. -/
inductive Undoes : UnwindOp → PrologueStep → Prop
  | pop_mask (mask : ℕ) (hsp : SP ∉ mask_registers mask 4) (hpc : PC ∉ mask_registers mask 4) :
    Undoes (.pop_mask mask) (.push (mask_registers mask 4))
  | pop_low (mask : ℕ) (hmask : mask < 16) :
    Undoes (.pop_low mask) (.push (mask_registers mask 0))
  | pop_range (n : ℕ) (hn : n < 8) :
    Undoes (.pop_range n) (.push ((List.range (n + 1)).map (4 + ·) ++ [14]))
  | add_vsp (n : ℕ) : Undoes (.add_vsp n) (.alloc n)
  | set_vsp (n : ℕ) : Undoes (.set_vsp FP) (.set_fp n)

/-- The bytes of an instruction of the unwind code. -/
inductive Encodes : UnwindOp → List ℕ → Prop
  | add_vsp (k : ℕ) (hk : k < 64) : Encodes (.add_vsp (4 * k + 4)) [k]
  | add_vsp_long (k : ℕ) (hk : k < 256) : Encodes (.add_vsp (0x204 + 4 * k)) [0xb2, k]
  | sub_vsp (k : ℕ) (hk : k < 64) : Encodes (.sub_vsp (4 * k + 4)) [0x40 + k]
  | set_vsp (reg : ℕ) (hreg : reg < 16) (hsp : reg ≠ 13) (hpc : reg ≠ 15) :
    Encodes (.set_vsp reg) [0x90 + reg]
  | pop_mask (mask : ℕ) (hpos : mask ≠ 0) (hmask : mask < 4096) :
    Encodes (.pop_mask mask) [0x80 + mask / 256, mask % 256]
  | pop_low (mask : ℕ) (hpos : mask ≠ 0) (hmask : mask < 16) :
    Encodes (.pop_low mask) [0xb1, mask]
  | pop_range (n : ℕ) (hn : n < 8) : Encodes (.pop_range n) [0xa8 + n]

/-- Bytes packed into words, the high byte of a word first. -/
def pack_words : List ℕ → List ℕ
  | b3 :: b2 :: b1 :: b0 :: bytes =>
    (((b3 * 256 + b2) * 256 + b1) * 256 + b0) :: pack_words bytes
  | _ => []

/-- The bytes of the code with its first byte or two, filled up with ends. -/
def code_image (bytes : List ℕ) : List ℕ :=
  if bytes.length ≤ 3 then 0x80 :: (bytes ++ List.replicate (3 - bytes.length) 0xb0)
  else
    let n := (bytes.length + 1) / 4
    0x81 :: n :: (bytes ++ List.replicate (2 + 4 * n - bytes.length) 0xb0)

/-- The dump holds words from `a` upward. -/
def InMemory (read_word : ℤ → Option ℕ) (a : ℤ) (words : List ℕ) : Prop :=
  ∀ (i : ℕ) w, words[i]? = some w → read_word (a + 4 * i) = some w

/-! ## Running the steps

A prologue only lowers the stack pointer and only stores below it, so what a step has stored
is still there at the end.
-/

@[simp] theorem run_prologue_nil (m : Machine) : run_prologue [] m = m := rfl

theorem run_prologue_cons (s : PrologueStep) (steps : List PrologueStep) (m : Machine) :
    run_prologue (s :: steps) m = run_prologue steps (s.run m) := rfl

theorem saved_registers_cons (s : PrologueStep) (steps : List PrologueStep) :
    saved_registers (s :: steps) = s.saved ++ saved_registers steps := List.flatMap_cons

/-- A step lowers the stack pointer, or leaves it. -/
theorem PrologueStep.run_sp_le (s : PrologueStep) (m : Machine) :
    (s.run m).regs SP ≤ m.regs SP := by
  cases s <;> simp [PrologueStep.run]

theorem run_prologue_sp_le (steps : List PrologueStep) (m : Machine) :
    (run_prologue steps m).regs SP ≤ m.regs SP := by
  induction steps generalizing m with
  | nil => exact le_rfl
  | cons s steps ih => exact (ih _).trans (s.run_sp_le m)

theorem store_words_below {a x : ℤ} (vs : List ℤ) (m : ℤ → Option ℤ) (hx : x < a) :
    store_words a vs m x = m x := by
  induction vs generalizing a m with
  | nil => rfl
  | cons v vs ih => rw [store_words, ih _ (by omega), Function.update_of_ne (by omega)]

theorem store_words_above {a x : ℤ} (vs : List ℤ) (m : ℤ → Option ℤ)
    (hx : a + 4 * vs.length ≤ x) : store_words a vs m x = m x := by
  induction vs generalizing a m with
  | nil => rfl
  | cons v vs ih =>
    rw [List.length_cons, Nat.cast_succ] at hx
    rw [store_words, ih _ (by omega), Function.update_of_ne (by omega)]

theorem store_words_at (a : ℤ) {vs : List ℤ} (m : ℤ → Option ℤ) {k : ℕ} {v : ℤ}
    (hv : vs[k]? = some v) : store_words a vs m (a + 4 * k) = some v := by
  induction vs generalizing a m k with
  | nil => cases hv
  | cons w vs ih =>
    cases k with
    | zero =>
      cases hv
      rw [Nat.cast_zero, mul_zero, add_zero, store_words, store_words_below _ _ (by omega),
        Function.update_self]
    | succ k =>
      rw [List.getElem?_cons_succ] at hv
      have hidx : a + 4 * ((k + 1 : ℕ) : ℤ) = a + 4 + 4 * k := by
        push_cast
        ring
      rw [hidx, store_words]
      exact ih (a + 4) _ hv

/-- A prologue stores below the stack pointer it begins with. -/
theorem run_prologue_stored (steps : List PrologueStep) (m : Machine) {x : ℤ}
    (hx : m.regs SP ≤ x) : (run_prologue steps m).stored x = m.stored x := by
  induction steps generalizing m with
  | nil => rfl
  | cons s steps ih =>
    rw [run_prologue_cons, ih _ ((s.run_sp_le m).trans hx)]
    cases s with
    | push regs =>
      refine store_words_above _ _ ?_
      rw [List.length_map]
      omega
    | set_fp n => rfl
    | alloc n => rfl

theorem FP_ne_SP : FP ≠ SP := by decide

/-- Without a step that sets it, `r11` stays. -/
theorem run_prologue_fp (steps : List PrologueStep) (m : Machine)
    (h : ∀ s ∈ steps, ¬ s.sets_fp) : (run_prologue steps m).regs FP = m.regs FP := by
  induction steps generalizing m with
  | nil => rfl
  | cons s steps ih =>
    rw [run_prologue_cons, ih _ fun t ht => h t (List.mem_cons_of_mem _ ht)]
    cases s with
    | set_fp n => exact absurd trivial (h _ List.mem_cons_self)
    | push regs =>
      rw [PrologueStep.run]
      dsimp only
      rw [Function.update_of_ne FP_ne_SP]
    | alloc n =>
      rw [PrologueStep.run]
      dsimp only
      rw [Function.update_of_ne FP_ne_SP]

/-! ## Undoing the steps

The induction over the steps. The instruction of the last step is the first one to be
executed, and it leaves the registers and the stack as they were before this step.
-/

section

variable {read_word : ℤ → Option ℕ}

/-- The dump still holds what a prologue stored, from the stack pointer upward. -/
def Keeps (read_word : ℤ → Option ℕ) (m : Machine) : Prop :=
  ∀ a v, m.regs SP ≤ a → m.stored a = some v → (read_word a).map Nat.cast = some v

/-- Words that are the values of registers are popped into these. -/
theorem pop_registers_eq {regs : List ℕ} {a : ℤ} {R vrs : ℕ → ℤ}
    (h : ∀ (k : ℕ) r, regs[k]? = some r → (read_word (a + 4 * k)).map Nat.cast = some (R r)) :
    pop_registers read_word regs (a, vrs) =
      .ok (a + 4 * regs.length, fun r => if r ∈ regs then R r else vrs r) := by
  induction regs generalizing a vrs with
  | nil => simp [pop_registers]
  | cons reg regs ih =>
    have hfirst := h 0 reg rfl
    rw [Nat.cast_zero, mul_zero, add_zero, Option.map_eq_some_iff] at hfirst
    obtain ⟨w, hw, hval⟩ := hfirst
    have hrest := @ih (a + 4) (Function.update vrs reg w) fun k r hr => by
      have hnext := h (k + 1) r hr
      have hidx : a + 4 * ((k + 1 : ℕ) : ℤ) = a + 4 + 4 * k := by
        push_cast
        ring
      rwa [hidx] at hnext
    rw [pop_registers, pop_register, hw]
    dsimp only
    rw [ok_bind, hrest, List.length_cons]
    congr 2
    · push_cast
      ring
    · funext r
      by_cases hr : r ∈ regs
      · rw [if_pos hr, if_pos (List.mem_cons_of_mem _ hr)]
      · by_cases heq : r = reg
        · rw [if_neg hr, heq, Function.update_self, if_pos List.mem_cons_self, ← hval]
        · rw [if_neg hr, Function.update_of_ne heq, if_neg]
          rw [List.mem_cons]
          exact not_or.mpr ⟨heq, hr⟩

theorem pop_masked_eq (mask reg : ℕ) (s : ℤ × (ℕ → ℤ)) :
    pop_masked read_word mask reg s = pop_registers read_word (mask_registers mask reg) s := by
  fun_induction mask_registers mask reg generalizing s with
  | case1 => rw [pop_masked, dif_pos rfl, pop_registers]
  | case2 mask reg hmask hbit ih =>
    rw [pop_masked, dif_neg hmask, if_pos hbit, pop_registers]
    congr 1
    funext t
    exact ih t
  | case3 mask reg hmask hbit ih =>
    rw [pop_masked, dif_neg hmask, if_neg hbit]
    exact ih s

theorem pop_registers_append (regs regs' : List ℕ) (s : ℤ × (ℕ → ℤ)) :
    pop_registers read_word (regs ++ regs') s
      = pop_registers read_word regs s >>= pop_registers read_word regs' := by
  induction regs generalizing s with
  | nil => rfl
  | cons reg regs ih =>
    rw [List.cons_append, pop_registers, pop_registers]
    cases pop_register read_word reg s with
    | error e => rfl
    | ok t =>
      rw [ok_bind, ok_bind]
      exact ih t

theorem mem_mask_registers {mask reg r : ℕ} :
    r ∈ mask_registers mask reg ↔ reg ≤ r ∧ mask.testBit (r - reg) = true := by
  fun_induction mask_registers mask reg with
  | case1 => simp
  | case2 mask reg hmask hbit ih =>
    have hzero : mask.testBit 0 = true := by
      rw [Nat.testBit_zero, decide_eq_true_eq, ← Nat.and_one_is_mod]
      have := Nat.and_le_right (n := mask) (m := 1)
      omega
    rw [List.mem_cons, ih, Nat.testBit_shiftRight]
    rcases lt_trichotomy r reg with hlt | rfl | hgt
    · constructor
      · rintro (heq | ⟨hle, -⟩) <;> omega
      · rintro ⟨hle, -⟩
        omega
    · simp [hzero]
    · have hidx : 1 + (r - (reg + 1)) = r - reg := by omega
      rw [hidx]
      constructor
      · rintro (heq | ⟨-, hr⟩)
        · omega
        · exact ⟨hgt.le, hr⟩
      · rintro ⟨-, hr⟩
        exact .inr ⟨hgt, hr⟩
  | case3 mask reg hmask hbit ih =>
    have hzero : mask.testBit 0 = false := by
      rw [Nat.testBit_zero, decide_eq_false_iff_not, ← Nat.and_one_is_mod]
      omega
    rw [ih, Nat.testBit_shiftRight]
    rcases lt_trichotomy r reg with hlt | rfl | hgt
    · constructor
      · rintro ⟨hle, -⟩
        omega
      · rintro ⟨hle, -⟩
        omega
    · simp [hzero]
    · have hidx : 1 + (r - (reg + 1)) = r - reg := by omega
      rw [hidx]
      exact and_congr_left fun _ => by omega

/-- The bit of the stack pointer in a mask from `r4` on. -/
theorem and_sp_bit_eq_zero {mask : ℕ} (h : SP ∉ mask_registers mask 4) :
    mask &&& (1 <<< (13 - 4)) = 0 := by
  have hbit : mask.testBit 9 = false := by
    rw [mem_mask_registers] at h
    exact Bool.eq_false_iff.mpr fun htrue => h ⟨by decide, htrue⟩
  have hpow : 1 <<< (13 - 4) = 2 ^ 9 := rfl
  rw [hpow, Nat.and_comm, Nat.two_pow_and, hbit]
  rfl

/-- Popping what a step has pushed gives its registers back, and the stack pointer with them. -/
theorem pop_pushed {regs : List ℕ} {m : Machine} {vrs : ℕ → ℤ}
    (hsp : vrs SP = ((PrologueStep.push regs).run m).regs SP)
    (hkeeps : Keeps read_word ((PrologueStep.push regs).run m)) :
    pop_registers read_word regs (vrs SP, vrs) =
      .ok (m.regs SP, fun r => if r ∈ regs then m.regs r else vrs r) := by
  have hbase : vrs SP = m.regs SP - 4 * regs.length := by
    rw [hsp, PrologueStep.run]
    dsimp only
    rw [Function.update_self]
  have hwords : ∀ (k : ℕ) r, regs[k]? = some r →
      (read_word (vrs SP + 4 * k)).map Nat.cast = some (m.regs r) := by
    intro k r hr
    refine hkeeps _ _ (by omega) ?_
    rw [hbase]
    refine store_words_at _ _ ?_
    rw [List.getElem?_map, hr, Option.map_some]
  rw [pop_registers_eq hwords, hbase]
  congr 2
  omega

/-- An instruction restores the stack pointer and what its step pushed. -/
theorem Undoes.exec {op : UnwindOp} {s : PrologueStep} (h : Undoes op s) {m : Machine}
    {vrs : ℕ → ℤ} (hsp : vrs SP = (s.run m).regs SP)
    (hfp : s.sets_fp → vrs FP = m.regs SP) (hkeeps : Keeps read_word (s.run m)) :
    ∃ vrs', op.exec read_word vrs = .ok vrs' ∧ vrs' SP = m.regs SP ∧
      ∀ r, r ≠ SP → vrs' r = if r ∈ s.saved then m.regs r else vrs r := by
  cases h with
  | pop_mask mask hmask hpc =>
    refine ⟨Function.update (fun r => if r ∈ mask_registers mask 4 then m.regs r else vrs r) SP
      (m.regs SP), ?_, Function.update_self .., fun r hr => Function.update_of_ne hr ..⟩
    rw [UnwindOp.exec, pop_masked_eq, pop_pushed hsp hkeeps, ok_bind]
    dsimp only
    rw [if_pos (and_sp_bit_eq_zero hmask)]
  | pop_low mask hmask =>
    refine ⟨Function.update (fun r => if r ∈ mask_registers mask 0 then m.regs r else vrs r) SP
      (m.regs SP), ?_, Function.update_self .., fun r hr => Function.update_of_ne hr ..⟩
    rw [UnwindOp.exec, pop_masked_eq, pop_pushed hsp hkeeps, ok_bind]
  | pop_range n hn =>
    refine ⟨Function.update (fun r => if r ∈ (List.range (n + 1)).map (4 + ·) ++ [14]
      then m.regs r else vrs r) SP (m.regs SP), ?_, Function.update_self ..,
      fun r hr => Function.update_of_ne hr ..⟩
    have hpop := pop_pushed hsp hkeeps
    rw [pop_registers_append] at hpop
    obtain ⟨t, ht, hpop⟩ := bind_ok hpop
    rw [pop_registers] at hpop
    obtain ⟨t', ht', hpop⟩ := bind_ok hpop
    cases hpop
    rw [UnwindOp.exec, ht, ok_bind, ht', ok_bind]
  | add_vsp n =>
    refine ⟨_, rfl, ?_, fun r hr => Function.update_of_ne hr ..⟩
    rw [Function.update_self, hsp, PrologueStep.run]
    dsimp only
    rw [Function.update_self]
    omega
  | set_vsp n =>
    refine ⟨_, rfl, ?_, fun r hr => Function.update_of_ne hr ..⟩
    rw [Function.update_self]
    exact hfp trivial

/-- Instructions one after the other, the stack pointer checked behind each. -/
def exec_ops (read_word : ℤ → Option ℕ) (low high : ℤ) :
    List UnwindOp → (ℕ → ℤ) → Except UnwindStop (ℕ → ℤ)
  | [], vrs => .ok vrs
  | op :: ops, vrs => do
    let vrs ← op.exec read_word vrs
    if vrs SP < low ∨ high ≤ vrs SP then .error .failed else exec_ops read_word low high ops vrs

theorem exec_ops_append {low high : ℤ} (ops ops' : List UnwindOp) (vrs : ℕ → ℤ) :
    exec_ops read_word low high (ops ++ ops') vrs
      = exec_ops read_word low high ops vrs >>= exec_ops read_word low high ops' := by
  induction ops generalizing vrs with
  | nil => rfl
  | cons op ops ih =>
    rw [List.cons_append, exec_ops, exec_ops]
    cases op.exec read_word vrs with
    | error e => rfl
    | ok vrs' =>
      rw [ok_bind, ok_bind]
      split_ifs
      · rfl
      · exact ih vrs'

/-- A step changes the stack pointer, and no other register than `r11`. -/
theorem PrologueStep.run_regs (s : PrologueStep) (m : Machine) {r : ℕ} (hsp : r ≠ SP)
    (hfp : s.sets_fp → r ≠ FP) : (s.run m).regs r = m.regs r := by
  cases s with
  | push regs => exact Function.update_of_ne hsp ..
  | alloc n => exact Function.update_of_ne hsp ..
  | set_fp n => exact (Function.update_of_ne hsp ..).trans (Function.update_of_ne (hfp trivial) ..)

/-- The instructions for the steps of a prologue, last step first, restore the registers. -/
theorem exec_undo {ops : List UnwindOp} {steps : List PrologueStep}
    (h : List.Forall₂ Undoes ops steps) {m : Machine} (hkept : KeepsFp steps) {vrs : ℕ → ℤ}
    {low high : ℤ} (hsp : vrs SP = (run_prologue steps m).regs SP)
    (hfp : vrs FP = (run_prologue steps m).regs FP)
    (hkeeps : Keeps read_word (run_prologue steps m))
    (hlow : low ≤ (run_prologue steps m).regs SP) (hhigh : m.regs SP < high) :
    ∃ vrs', exec_ops read_word low high ops.reverse vrs = .ok vrs' ∧ vrs' SP = m.regs SP ∧
      ∀ r, r ≠ SP → vrs' r = if r ∈ saved_registers steps then m.regs r else vrs r := by
  induction h generalizing m with
  | nil => exact ⟨vrs, rfl, hsp, fun r _ => by rw [saved_registers, List.flatMap_nil]; simp⟩
  | @cons op s ops steps hundo _ ih =>
    rw [run_prologue_cons] at hsp hfp hkeeps hlow
    have hdown := run_prologue_sp_le steps (s.run m)
    have hstep := s.run_sp_le m
    -- the steps behind the first one, undone first
    obtain ⟨vrs₁, hrun, hsp₁, hregs₁⟩ := ih hkept.2 hsp hfp hkeeps hlow (by omega)
    have hfp₁ : s.sets_fp → vrs₁ FP = m.regs SP := by
      intro hset
      obtain ⟨hnot, hnone⟩ := hkept.1 hset
      rw [hregs₁ FP FP_ne_SP, if_neg hnot, hfp, run_prologue_fp _ _ hnone]
      cases s with
      | set_fp n => simp [PrologueStep.run, FP_ne_SP]
      | push regs => exact hset.elim
      | alloc n => exact hset.elim
    have hkeeps₁ : Keeps read_word (s.run m) := fun a v ha hv =>
      hkeeps a v (hdown.trans ha) ((run_prologue_stored steps _ ha).trans hv)
    obtain ⟨vrs₂, hexec, hsp₂, hregs₂⟩ := hundo.exec hsp₁ hfp₁ hkeeps₁
    refine ⟨vrs₂, ?_, hsp₂, fun r hr => ?_⟩
    · rw [List.reverse_cons, exec_ops_append, hrun, ok_bind, exec_ops, hexec, ok_bind, hsp₂,
        if_neg (by omega), exec_ops]
    · rw [hregs₂ r hr, hregs₁ r hr, saved_registers_cons]
      by_cases hfirst : r ∈ s.saved
      · rw [if_pos hfirst, if_pos (List.mem_append_left _ hfirst)]
      · by_cases hrest : r ∈ saved_registers steps
        · rw [if_neg hfirst, if_pos hrest, if_pos (List.mem_append_right _ hrest)]
          exact s.run_regs m hr fun hset heq => (hkept.1 hset).1 (heq ▸ hrest)
        · rw [if_neg hfirst, if_neg hrest, if_neg]
          rw [List.mem_append]
          exact not_or.mpr ⟨hfirst, hrest⟩

/-! ## Reading the code

The induction over the bytes. `HoldsCode` says what the interpreter has still to read,
whatever the registers hold, so a pass of the loop fetches one instruction and executes it.
-/

/-- The bytes that are left to be read, at a state of the interpreter. -/
def HoldsCode (read_word : ℤ → Option ℕ) : List ℕ → UnwindCtrlBlock → Prop
  | [], ctrl => ctrl.entries = 0
  | b :: bytes, ctrl =>
    ctrl.entries ≠ 0 ∧
      ∃ ctrl', unwind_get_byte read_word ctrl = .ok (b, ctrl') ∧ HoldsCode read_word bytes ctrl'

/-- What is left to be read does not depend on the registers. -/
theorem HoldsCode.with_vrs {bytes : List ℕ} {ctrl : UnwindCtrlBlock}
    (h : HoldsCode read_word bytes ctrl) (vrs : ℕ → ℤ) :
    HoldsCode read_word bytes { ctrl with vrs := vrs } := by
  induction bytes generalizing ctrl with
  | nil => exact h
  | cons b bytes ih =>
    obtain ⟨hpos, ctrl', hbyte, hrest⟩ := h
    refine ⟨hpos, { ctrl' with vrs := vrs }, ?_, ih hrest⟩
    unfold unwind_get_byte at hbyte ⊢
    rw [if_neg hpos] at hbyte ⊢
    dsimp only
    split at hbyte
    · cases hbyte
    · dsimp only at hbyte ⊢
      split_ifs at hbyte ⊢
      · cases hbyte
        rfl
      · cases hbyte
        rfl

theorem HoldsCode.bytes_left {bytes : List ℕ} {ctrl : UnwindCtrlBlock}
    (h : HoldsCode read_word bytes ctrl) : ctrl.bytes_left = bytes.length := by
  induction bytes generalizing ctrl with
  | nil => exact bytes_left_of_entries h
  | cons b bytes ih =>
    obtain ⟨hpos, ctrl', hbyte, hrest⟩ := h
    have hleft := unwind_get_byte_left hbyte
    have hone := bytes_left_pos hpos
    rw [ih hrest] at hleft
    rw [List.length_cons]
    omega

theorem short_add_bits : ∀ k < 64,
    k &&& 0xc0 = 0x00 ∧ ((k &&& 0x3f) <<< 2) + 4 = 4 * k + 4 := by decide

theorem sub_bits : ∀ k < 64, (0x40 + k) &&& 0xc0 ≠ 0x00 ∧ (0x40 + k) &&& 0xc0 = 0x40 ∧
    (((0x40 + k) &&& 0x3f) <<< 2) + 4 = 4 * k + 4 := by decide

theorem mask_bits : ∀ q < 16, (0x80 + q) &&& 0xc0 ≠ 0x00 ∧ (0x80 + q) &&& 0xc0 ≠ 0x40 ∧
    (0x80 + q) &&& 0xf0 = 0x80 := by decide

theorem set_bits : ∀ reg < 16, (0x90 + reg) &&& 0xc0 ≠ 0x00 ∧ (0x90 + reg) &&& 0xc0 ≠ 0x40 ∧
    (0x90 + reg) &&& 0xf0 = 0x90 ∧ (0x90 + reg) &&& 0x0f = reg ∧
    ((0x90 + reg) &&& 0x0d = 0x0d ↔ reg = 13 ∨ reg = 15) := by decide

theorem range_bits : ∀ n < 8, (0xa8 + n) &&& 0xc0 ≠ 0x00 ∧ (0xa8 + n) &&& 0xc0 ≠ 0x40 ∧
    (0xa8 + n) &&& 0xf0 ≠ 0x80 ∧
    ¬ ((0xa8 + n) &&& 0xf0 = 0x90 ∧ (0xa8 + n) &&& 0x0d ≠ 0x0d) ∧
    (0xa8 + n) &&& 0xf0 = 0xa0 ∧ (0xa8 + n) &&& 7 = n := by decide

theorem low_bits : ∀ mask < 16, mask &&& 0xf0 = 0 := by decide

/-- The two bytes of a mask of twelve bits put together again. -/
theorem mask_of_bytes {mask : ℕ} (h : mask < 4096) :
    ((0x80 + mask / 256) <<< 8 ||| mask % 256) &&& 0x0fff = mask := by
  have hlow : mask % 256 < 2 ^ 8 := Nat.mod_lt _ (by norm_num)
  have hand : ∀ x : ℕ, x &&& 0x0fff = x % 4096 := fun x => Nat.and_two_pow_sub_one_eq_mod x 12
  rw [← Nat.shiftLeft_add_eq_or_of_lt hlow, Nat.shiftLeft_eq, hand]
  omega

/-- The bytes of an instruction are fetched as that instruction. -/
theorem Encodes.fetch {op : UnwindOp} {piece bytes : List ℕ} {ctrl : UnwindCtrlBlock}
    (h : Encodes op piece) (hcode : HoldsCode read_word (piece ++ bytes) ctrl) :
    ∃ ctrl', fetch_op read_word ctrl = .ok (op, ctrl') ∧ HoldsCode read_word bytes ctrl' := by
  cases h with
  | add_vsp k hk =>
    obtain ⟨hpos, ctrl₁, hbyte, hrest⟩ := hcode
    refine ⟨ctrl₁, ?_, hrest⟩
    rw [fetch_op, hbyte, ok_bind]
    dsimp only
    rw [if_pos (short_add_bits k hk).1, (short_add_bits k hk).2]
  | sub_vsp k hk =>
    obtain ⟨hpos, ctrl₁, hbyte, hrest⟩ := hcode
    obtain ⟨hne, heq, hval⟩ := sub_bits k hk
    refine ⟨ctrl₁, ?_, hrest⟩
    rw [fetch_op, hbyte, ok_bind]
    dsimp only
    rw [if_neg hne, if_pos heq, hval]
  | set_vsp reg hreg hsp hpc =>
    obtain ⟨hpos, ctrl₁, hbyte, hrest⟩ := hcode
    obtain ⟨hadd, hsub, hset, hval, hspare⟩ := set_bits reg hreg
    have hvalid : (0x90 + reg) &&& 0x0d ≠ 0x0d := fun h => (hspare.mp h).elim hsp hpc
    refine ⟨ctrl₁, ?_, hrest⟩
    rw [fetch_op, hbyte, ok_bind]
    dsimp only
    rw [if_neg hadd, if_neg hsub, if_neg (by rw [hset]; decide), if_pos ⟨hset, hvalid⟩, hval]
  | pop_range n hn =>
    obtain ⟨hpos, ctrl₁, hbyte, hrest⟩ := hcode
    obtain ⟨hadd, hsub, hpop, hset, hrange, hval⟩ := range_bits n hn
    refine ⟨ctrl₁, ?_, hrest⟩
    rw [fetch_op, hbyte, ok_bind]
    dsimp only
    rw [if_neg hadd, if_neg hsub, if_neg hpop, if_neg hset, if_pos hrange, hval]
  | pop_mask mask hpos hmask =>
    obtain ⟨-, ctrl₁, hbyte, -, ctrl₂, hbyte₂, hrest⟩ := hcode
    obtain ⟨hadd, hsub, hpop⟩ := mask_bits (mask / 256) (by omega)
    refine ⟨ctrl₂, ?_, hrest⟩
    rw [fetch_op, hbyte, ok_bind]
    dsimp only
    rw [if_neg hadd, if_neg hsub, if_pos hpop, hbyte₂, ok_bind]
    dsimp only
    rw [mask_of_bytes hmask, if_neg hpos]
  | pop_low mask hpos hmask =>
    obtain ⟨-, ctrl₁, hbyte, -, ctrl₂, hbyte₂, hrest⟩ := hcode
    refine ⟨ctrl₂, ?_, hrest⟩
    have hvalid : ¬ (mask = 0 ∨ mask &&& 0xf0 ≠ 0) :=
      not_or.mpr ⟨hpos, not_not.mpr (low_bits mask hmask)⟩
    rw [fetch_op, hbyte, ok_bind]
    dsimp only
    rw [if_neg (by decide), if_neg (by decide), if_neg (by decide), if_neg (by decide),
      if_neg (by decide), if_neg (by decide), if_pos rfl, hbyte₂, ok_bind]
    dsimp only
    rw [if_neg hvalid]
  | add_vsp_long k hk =>
    obtain ⟨-, ctrl₁, hbyte, -, ctrl₂, hbyte₂, hrest⟩ := hcode
    refine ⟨ctrl₂, ?_, hrest⟩
    have hval : k <<< 2 = 4 * k := by
      rw [Nat.shiftLeft_eq]
      omega
    rw [fetch_op, hbyte, ok_bind]
    dsimp only
    rw [if_neg (by decide), if_neg (by decide), if_neg (by decide), if_neg (by decide),
      if_neg (by decide), if_neg (by decide), if_neg (by decide), if_pos rfl, hbyte₂, ok_bind]
    dsimp only
    rw [hval]

theorem fetch_finish {bytes : List ℕ} {ctrl : UnwindCtrlBlock}
    (h : HoldsCode read_word (0xb0 :: bytes) ctrl) :
    ∃ ctrl', fetch_op read_word ctrl = .ok (.finish, ctrl') := by
  obtain ⟨-, ctrl₁, hbyte, -⟩ := h
  refine ⟨ctrl₁, ?_⟩
  rw [fetch_op, hbyte, ok_bind]
  dsimp only
  rw [if_neg (by decide), if_neg (by decide), if_neg (by decide), if_neg (by decide),
    if_neg (by decide), if_pos rfl]

/-- A pass of the loop: one instruction is fetched and executed, and the rest of the loop follows.
-/
theorem unwind_loop_op {low high : ℤ} {fuel : ℕ} {op : UnwindOp} {ctrl ctrl₁ : UnwindCtrlBlock}
    {vrs : ℕ → ℤ} (hpos : ctrl.entries ≠ 0) (hfetch : fetch_op read_word ctrl = .ok (op, ctrl₁))
    (hexec : op.exec read_word ctrl.vrs = .ok vrs) (hin : ¬ (vrs SP < low ∨ high ≤ vrs SP)) :
    unwind_loop read_word low high (fuel + 1) ctrl = unwind_loop read_word low high fuel
      { ctrl₁ with vrs := vrs, entries := op.entries_left ctrl₁.entries } := by
  have hvrs := (fetch_op_ok hfetch).1
  rw [unwind_loop, if_neg hpos, unwind_exec_insn_eq, hfetch, ok_bind]
  dsimp only
  rw [hvrs, hexec, ok_bind, ok_bind, if_neg hin]

theorem unwind_loop_end {low high : ℤ} (fuel : ℕ) {ctrl : UnwindCtrlBlock}
    (h : ctrl.entries = 0) : unwind_loop read_word low high fuel ctrl = .ok ctrl := by
  cases fuel <;> rw [unwind_loop, if_pos h]

theorem Encodes.entries_left {op : UnwindOp} {piece : List ℕ} (h : Encodes op piece) (n : ℕ) :
    op.entries_left n = n := by
  cases h <;> rfl

theorem Encodes.ne_nil {op : UnwindOp} {piece : List ℕ} (h : Encodes op piece) : piece ≠ [] := by
  cases h <;> exact List.cons_ne_nil _ _

theorem HoldsCode.entries_ne {bytes : List ℕ} {ctrl : UnwindCtrlBlock}
    (h : HoldsCode read_word bytes ctrl) (hne : bytes ≠ []) : ctrl.entries ≠ 0 := by
  cases bytes with
  | nil => exact absurd rfl hne
  | cons b bytes => exact h.1

/-- The end of the code keeps the stack pointer. -/
theorem exec_finish_sp (vrs : ℕ → ℤ) :
    (if vrs PC = 0 then Function.update vrs PC (vrs LR) else vrs) SP = vrs SP := by
  split_ifs
  · have hne : SP ≠ PC := by decide
    exact Function.update_of_ne hne ..
  · rfl

/-- The loop runs the instructions of its code, and at the end sets the program counter. -/
theorem unwind_loop_code {low high : ℤ} {ops : List UnwindOp} {pieces : List (List ℕ)}
    (h : List.Forall₂ Encodes ops pieces) {k fuel : ℕ} {ctrl : UnwindCtrlBlock} {vrs : ℕ → ℤ}
    (hcode : HoldsCode read_word (pieces.flatten ++ List.replicate k 0xb0) ctrl)
    (hfuel : ctrl.bytes_left ≤ fuel) (hsp : low ≤ vrs SP ∧ vrs SP < high)
    (hrun : exec_ops read_word low high ops ctrl.vrs = .ok vrs) :
    ∃ ctrl', unwind_loop read_word low high fuel ctrl = .ok ctrl' ∧
      (ctrl'.vrs = vrs ∨ UnwindOp.exec read_word vrs .finish = .ok ctrl'.vrs) := by
  induction h generalizing ctrl fuel with
  | nil =>
    cases hrun
    cases k with
    | zero => exact ⟨ctrl, unwind_loop_end fuel hcode, .inl rfl⟩
    | succ k =>
      have hpos : ctrl.entries ≠ 0 := hcode.1
      obtain ⟨ctrl₁, hfetch⟩ := fetch_finish hcode
      obtain ⟨fuel, rfl⟩ := Nat.exists_eq_succ_of_ne_zero
        ((bytes_left_pos hpos).trans_le hfuel).ne'
      refine ⟨{ ctrl₁ with vrs := _, entries := 0 }, ?_, .inr rfl⟩
      rw [Nat.succ_eq_add_one, unwind_loop_op hpos hfetch rfl
        (by rw [exec_finish_sp]; omega)]
      exact unwind_loop_end fuel rfl
  | @cons op piece ops pieces henc _ ih =>
    rw [List.flatten_cons, List.append_assoc] at hcode
    have hpos := hcode.entries_ne (List.append_ne_nil_of_left_ne_nil henc.ne_nil _)
    obtain ⟨ctrl₁, hfetch, hrest⟩ := henc.fetch hcode
    obtain ⟨-, hless⟩ := fetch_op_ok hfetch
    obtain ⟨fuel, rfl⟩ := Nat.exists_eq_succ_of_ne_zero
      ((bytes_left_pos hpos).trans_le hfuel).ne'
    rw [exec_ops] at hrun
    obtain ⟨vrs₁, hexec, hrun⟩ := bind_ok hrun
    by_cases hout : vrs₁ SP < low ∨ high ≤ vrs₁ SP
    · rw [if_pos hout] at hrun
      cases hrun
    rw [if_neg hout] at hrun
    rw [Nat.succ_eq_add_one, unwind_loop_op hpos hfetch hexec hout, henc.entries_left]
    have hleft : (⟨vrs₁, ctrl₁.insn, ctrl₁.entries, ctrl₁.byte⟩ : UnwindCtrlBlock).bytes_left
        = ctrl₁.bytes_left := rfl
    exact ih (hrest.with_vrs vrs₁) (by omega) hrun

/-! ## Code in memory

The bytes of the code are packed into words, one or several, behind a first byte or two. In
both forms the interpreter begins at the first byte of the first instruction.
-/

theorem byte_of_word {b3 b2 b1 b0 : ℕ} (h3 : b3 < 256) (h2 : b2 < 256) (h1 : b1 < 256)
    (h0 : b0 < 256) {w : ℕ} (hw : w = ((b3 * 256 + b2) * 256 + b1) * 256 + b0) :
    (w >>> 24) &&& 0xff = b3 ∧ (w >>> 16) &&& 0xff = b2 ∧ (w >>> 8) &&& 0xff = b1 ∧
      (w >>> 0) &&& 0xff = b0 := by
  have hand : ∀ x : ℕ, x &&& 0xff = x % 256 := fun x => Nat.and_two_pow_sub_one_eq_mod x 8
  simp only [hand, Nat.shiftRight_eq_div_pow]
  omega

/-- A byte of packed words is the byte that was packed. -/
theorem pack_words_byte {words : ℕ} {bytes : List ℕ} (hbytes : ∀ b ∈ bytes, b < 256)
    (hlen : bytes.length = 4 * words) {p : ℕ} (hp : p < bytes.length) :
    ∃ w, (pack_words bytes)[p / 4]? = some w ∧
      (w >>> ((3 - p % 4) * 8)) &&& 0xff = bytes[p] := by
  induction words generalizing bytes p with
  | zero => omega
  | succ words ih =>
    rcases bytes with _ | ⟨b3, _ | ⟨b2, _ | ⟨b1, _ | ⟨b0, rest⟩⟩⟩⟩
    · simp at hlen
    · simp at hlen
      omega
    · simp at hlen
      omega
    · simp at hlen
      omega
    simp only [List.length_cons] at hlen hp
    simp only [List.forall_mem_cons] at hbytes
    obtain ⟨h3, h2, h1, h0, hrest⟩ := hbytes
    obtain ⟨e3, e2, e1, e0⟩ := byte_of_word h3 h2 h1 h0 rfl
    rw [pack_words]
    by_cases hfirst : p < 4
    · refine ⟨_, by rw [Nat.div_eq_of_lt hfirst, List.getElem?_cons_zero], ?_⟩
      interval_cases p
      · exact e3
      · exact e2
      · exact e1
      · exact e0
    · obtain ⟨q, rfl⟩ := Nat.exists_eq_add_of_le (Nat.not_lt.mp hfirst)
      obtain ⟨w, hw, hval⟩ := ih hrest (by omega) (p := q) (by omega)
      have hdiv : (4 + q) / 4 = q / 4 + 1 := by omega
      have hmod : (4 + q) % 4 = q % 4 := by omega
      refine ⟨w, by rw [hdiv, List.getElem?_cons_succ, hw], ?_⟩
      rw [hmod, hval]
      have hidx : 4 + q = q + 1 + 1 + 1 + 1 := by omega
      simp only [hidx, List.getElem_cons_succ]

/-- Reading on from the byte `p` of code that is in memory. -/
theorem holdsCode_of_memory {bytes : List ℕ} {words : ℕ} {a : ℤ} {vrs : ℕ → ℤ}
    (hbytes : ∀ b ∈ bytes, b < 256) (hlen : bytes.length = 4 * words)
    (hmem : InMemory read_word a (pack_words bytes)) {n p : ℕ} (hp : p + n = bytes.length) :
    HoldsCode read_word (bytes.drop p)
      ⟨vrs, a + 4 * (p / 4 : ℕ), words - p / 4, 3 - p % 4⟩ := by
  induction n generalizing p with
  | zero =>
    rw [List.drop_eq_nil_of_le (by omega)]
    show words - p / 4 = 0
    omega
  | succ n ih =>
    have hlt : p < bytes.length := by omega
    obtain ⟨w, hw, hval⟩ := pack_words_byte hbytes hlen hlt
    have hpos : words - p / 4 ≠ 0 := by omega
    rw [List.drop_eq_getElem_cons hlt]
    refine ⟨hpos, _, ?_, ih (p := p + 1) (by omega)⟩
    rw [unwind_get_byte, if_neg hpos, hmem (p / 4) w hw]
    dsimp only
    rw [hval]
    by_cases hlast : 3 - p % 4 = 0
    · have hdiv : (p + 1) / 4 = p / 4 + 1 := by omega
      have hmod : (p + 1) % 4 = 0 := by omega
      rw [if_pos hlast, hdiv, hmod, Nat.cast_succ]
      congr 3
      · ring
    · have hdiv : (p + 1) / 4 = p / 4 := by omega
      have hmod : 3 - (p + 1) % 4 = 3 - p % 4 - 1 := by omega
      rw [if_neg hlast, hdiv, hmod]

theorem and_high_byte {b rest : ℕ} (hb : b < 2 ^ 8) (hrest : rest < 2 ^ 24) :
    (2 ^ 24 * b + rest) &&& 0xff000000 = 2 ^ 24 * b := by
  have hmask : 0xff000000 = (2 ^ 8 - 1) <<< 24 := rfl
  rw [hmask]
  apply Nat.eq_of_testBit_eq
  intro i
  rw [Nat.testBit_and, Nat.testBit_shiftLeft, Nat.testBit_two_pow_sub_one,
    Nat.testBit_two_pow_mul_add b hrest, Nat.testBit_two_pow_mul]
  by_cases hi : 24 ≤ i
  · rw [if_neg (by omega), decide_eq_true hi, Bool.true_and, Bool.true_and]
    by_cases hbyte : i - 24 < 8
    · rw [decide_eq_true hbyte, Bool.and_true]
    · rw [Nat.testBit_lt_two_pow (hb.trans_le (Nat.pow_le_pow_right (by norm_num) (by omega))),
        Bool.false_and]
  · rw [decide_eq_false hi, Bool.false_and, Bool.and_false, Bool.false_and]

/-- The first word, with its high byte and the one below. -/
theorem first_word {h b : ℕ} {bytes : List ℕ} (hh : h < 256) (hb : b < 256)
    (hbytes : ∀ b ∈ bytes, b < 256) (hlen : 2 ≤ bytes.length) :
    ∃ w, (pack_words (h :: b :: bytes))[0]? = some w ∧ w &&& 0xff000000 = 2 ^ 24 * h ∧
      (w &&& 0x00ff0000) >>> 16 = b := by
  rcases bytes with _ | ⟨b1, _ | ⟨b0, rest⟩⟩
  · simp at hlen
  · simp at hlen
  have h1 : b1 < 256 := hbytes b1 (by simp)
  have h0 : b0 < 256 := hbytes b0 (by simp)
  refine ⟨_, rfl, ?_, ?_⟩
  · have hsplit : ((h * 256 + b) * 256 + b1) * 256 + b0
        = 2 ^ 24 * h + ((b * 256 + b1) * 256 + b0) := by ring
    rw [hsplit]
    exact and_high_byte hh (by omega)
  · rw [Nat.shiftRight_and_distrib]
    exact (byte_of_word hh hb h1 h0 rfl).2.1

theorem InMemory.first {a : ℤ} {words : List ℕ} (h : InMemory read_word a words) {w : ℕ}
    (hw : words[0]? = some w) : read_word a = some w := by
  have hzero := h 0 w hw
  rwa [Nat.cast_zero, mul_zero, add_zero] at hzero

/-- Code of one word is read from behind its first byte. -/
theorem start_code_short {padded : List ℕ} (hbytes : ∀ b ∈ padded, b < 256)
    (hlen : padded.length = 3) {a : ℤ}
    (hmem : InMemory read_word a (pack_words (0x80 :: padded))) (vrs : ℕ → ℤ) :
    start_code read_word vrs a = .ok ⟨vrs, a, 1, 2⟩ ∧
      HoldsCode read_word padded ⟨vrs, a, 1, 2⟩ := by
  have hall : ∀ b ∈ 0x80 :: padded, b < 256 := by
    rw [List.forall_mem_cons]
    exact ⟨by norm_num, hbytes⟩
  have hsize : (0x80 :: padded).length = 4 * 1 := by rw [List.length_cons, hlen]
  have hsplit : 1 + 3 = (0x80 :: padded).length := by rw [List.length_cons, hlen]
  have hheld := @holdsCode_of_memory _ _ _ _ vrs hall hsize hmem _ _ hsplit
  rw [List.drop_succ_cons, List.drop_zero] at hheld
  norm_num at hheld
  refine ⟨?_, hheld⟩
  rcases padded with _ | ⟨b, rest⟩
  · simp at hlen
  rw [List.forall_mem_cons] at hbytes
  obtain ⟨w, hw, hhigh, -⟩ := first_word (h := 0x80) (by norm_num) hbytes.1 hbytes.2
    (by rw [List.length_cons] at hlen; omega)
  rw [start_code, hmem.first hw]
  dsimp only
  rw [if_pos (by rw [hhigh]; norm_num)]

/-- Code of several words is read from behind its first two bytes. -/
theorem start_code_long {n : ℕ} (hn : n < 256) {padded : List ℕ}
    (hbytes : ∀ b ∈ padded, b < 256) (hlen : padded.length = 2 + 4 * n) {a : ℤ}
    (hmem : InMemory read_word a (pack_words (0x81 :: n :: padded))) (vrs : ℕ → ℤ) :
    start_code read_word vrs a = .ok ⟨vrs, a, 1 + n, 1⟩ ∧
      HoldsCode read_word padded ⟨vrs, a, 1 + n, 1⟩ := by
  have hall : ∀ b ∈ 0x81 :: n :: padded, b < 256 := by
    rw [List.forall_mem_cons, List.forall_mem_cons]
    exact ⟨by norm_num, hn, hbytes⟩
  have hsize : (0x81 :: n :: padded).length = 4 * (1 + n) := by
    rw [List.length_cons, List.length_cons, hlen]
    ring
  have hsplit : 2 + (2 + 4 * n) = (0x81 :: n :: padded).length := by
    rw [hsize]
    ring
  have hheld := @holdsCode_of_memory _ _ _ _ vrs hall hsize hmem _ _ hsplit
  rw [List.drop_succ_cons, List.drop_succ_cons, List.drop_zero] at hheld
  norm_num at hheld
  refine ⟨?_, hheld⟩
  obtain ⟨w, hw, hhigh, hsecond⟩ := first_word (h := 0x81) (by norm_num) hn hbytes (by omega)
  rw [start_code, hmem.first hw]
  dsimp only
  rw [if_neg (by rw [hhigh]; norm_num), if_pos (by rw [hhigh]; norm_num), hsecond]

/-- The interpreter begins at the first byte of the code, whichever of the two forms it has. -/
theorem start_code_image {bytes : List ℕ} (hbytes : ∀ b ∈ bytes, b < 256)
    (hlen : bytes.length ≤ 1022) {a : ℤ}
    (hmem : InMemory read_word a (pack_words (code_image bytes))) (vrs : ℕ → ℤ) :
    ∃ ctrl k, start_code read_word vrs a = .ok ctrl ∧ ctrl.vrs = vrs ∧
      HoldsCode read_word (bytes ++ List.replicate k 0xb0) ctrl := by
  have hpadded : ∀ k, ∀ b ∈ bytes ++ List.replicate k 0xb0, b < 256 := by
    intro k b hb
    rcases List.mem_append.mp hb with hb | hb
    · exact hbytes b hb
    · rw [List.eq_of_mem_replicate hb]
      norm_num
  have hsize : ∀ k, (bytes ++ List.replicate k 0xb0).length = bytes.length + k := by
    intro k
    rw [List.length_append, List.length_replicate]
  unfold code_image at hmem
  by_cases hshort : bytes.length ≤ 3
  · rw [if_pos hshort] at hmem
    obtain ⟨hstart, hheld⟩ := start_code_short (hpadded _) (by rw [hsize]; omega) hmem vrs
    exact ⟨_, _, hstart, rfl, hheld⟩
  · rw [if_neg hshort] at hmem
    obtain ⟨hstart, hheld⟩ := start_code_long (by omega) (hpadded _) (by rw [hsize]; omega) hmem vrs
    exact ⟨_, _, hstart, rfl, hheld⟩

theorem Encodes.lt {op : UnwindOp} {piece : List ℕ} (h : Encodes op piece) :
    ∀ b ∈ piece, b < 256 := by
  cases h <;> simp <;> omega

theorem flatten_lt {ops : List UnwindOp} {pieces : List (List ℕ)}
    (h : List.Forall₂ Encodes ops pieces) : ∀ b ∈ pieces.flatten, b < 256 := by
  induction h with
  | nil => exact fun b hb => absurd hb List.not_mem_nil
  | cons henc _ ih =>
    intro b hb
    rw [List.flatten_cons, List.mem_append] at hb
    exact hb.elim (henc.lt b) (ih b)

/-- A prologue that can be undone does not push the program counter. -/
theorem pc_not_mem_saved {ops : List UnwindOp} {steps : List PrologueStep}
    (h : List.Forall₂ Undoes ops steps) : PC ∉ saved_registers steps := by
  induction h with
  | nil => exact List.not_mem_nil
  | @cons op s ops steps hundo _ ih =>
    rw [saved_registers_cons, List.mem_append]
    refine not_or.mpr ⟨?_, ih⟩
    cases hundo with
    | pop_mask mask hsp hpc => exact hpc
    | pop_low mask hmask =>
      intro hmem
      have hbit := (mem_mask_registers.mp hmem).2
      rw [Nat.testBit_lt_two_pow (hmask.trans_le (by decide))] at hbit
      cases hbit
    | pop_range n hn =>
      simp only [PrologueStep.saved, List.mem_append, List.mem_map, List.mem_range,
        List.mem_singleton, PC]
      omega
    | add_vsp n => exact List.not_mem_nil
    | set_vsp n => exact List.not_mem_nil

/-- In the body of a function whose prologue its unwind code undoes, the unwinder comes to
the frame of the caller: its frame and stack pointers, and the return address. -/
theorem unwind_frame_tables_prologue {thread_size : ℕ} {u : Unwinder} {frame : Stackframe}
    {idx : UnwindEntry} (hidx : u.search_idx frame.pc = .ok idx) {a : ℤ}
    (hcode : code_addr read_word idx = .ok a) {ops : List UnwindOp} {steps : List PrologueStep}
    (hundo : List.Forall₂ Undoes ops steps) {pieces : List (List ℕ)}
    (henc : List.Forall₂ Encodes ops.reverse pieces) (hlen : pieces.flatten.length ≤ 1022)
    (hmem : InMemory read_word a (pack_words (code_image pieces.flatten))) {m : Machine}
    (hkept : KeepsFp steps)
    (hset : (∃ s ∈ steps, s.sets_fp) → FP ∈ saved_registers steps)
    (hsp : frame.sp = (run_prologue steps m).regs SP)
    (hfp : frame.fp = (run_prologue steps m).regs FP)
    (hlr : LR ∈ saved_registers steps ∨ frame.lr = m.regs LR)
    (hkeeps : Keeps read_word (run_prologue steps m))
    (hstack : m.regs SP < stack_high thread_size frame.sp) (hpc : frame.pc ≠ m.regs LR) :
    unwind_frame_tables read_word thread_size u frame =
      .ok ⟨m.regs FP, m.regs SP, m.regs LR, m.regs LR⟩ := by
  obtain ⟨ctrl, k, hstart, hvrs, hheld⟩ :=
    start_code_image (flatten_lt henc) hlen hmem (frame_vrs frame)
  have hne : SP ≠ LR ∧ FP ≠ LR ∧ FP ≠ SP ∧ PC ≠ LR ∧ PC ≠ SP ∧ PC ≠ FP ∧ LR ≠ SP := by decide
  have hvsp : ctrl.vrs SP = (run_prologue steps m).regs SP := by
    simp [hvrs, frame_vrs, hne, hsp]
  have hvfp : ctrl.vrs FP = (run_prologue steps m).regs FP := by
    simp [hvrs, frame_vrs, hne, hfp]
  obtain ⟨vrs, hrun, hvrs_sp, hregs⟩ := exec_undo hundo hkept hvsp hvfp hkeeps hsp.le hstack
  -- the four registers of the caller's frame
  have hvrs_pc : vrs PC = 0 := by
    rw [hregs PC (by decide), if_neg (pc_not_mem_saved hundo)]
    simp [hvrs, frame_vrs, hne]
  have hvrs_lr : vrs LR = m.regs LR := by
    rw [hregs LR (by decide)]
    split_ifs with hsaved
    · rfl
    · rw [hvrs, frame_vrs, Function.update_self]
      exact hlr.resolve_left hsaved
  have hvrs_fp : vrs FP = m.regs FP := by
    rw [hregs FP FP_ne_SP]
    split_ifs with hsaved
    · rfl
    · rw [hvfp]
      exact run_prologue_fp _ _ fun s hs hs' => hsaved (hset ⟨s, hs, hs'⟩)
  have hdown := run_prologue_sp_le steps m
  have hstart_sp : frame.sp ≤ vrs SP ∧ vrs SP < stack_high thread_size frame.sp :=
    ⟨by omega, by omega⟩
  obtain ⟨ctrl', hloop, hend⟩ := unwind_loop_code henc hheld le_rfl hstart_sp hrun
  have hfinal : ctrl'.vrs FP = m.regs FP ∧ ctrl'.vrs SP = m.regs SP ∧ ctrl'.vrs LR = m.regs LR ∧
      (if ctrl'.vrs PC = 0 then ctrl'.vrs LR else ctrl'.vrs PC) = m.regs LR := by
    rcases hend with hend | hend
    · rw [hend, if_pos hvrs_pc]
      exact ⟨hvrs_fp, hvrs_sp, hvrs_lr, hvrs_lr⟩
    · rw [UnwindOp.exec, if_pos hvrs_pc, Except.ok.injEq] at hend
      have hnot : FP ≠ PC ∧ SP ≠ PC ∧ LR ≠ PC := by decide
      rw [← hend, Function.update_self, Function.update_of_ne hnot.1,
        Function.update_of_ne hnot.2.1, Function.update_of_ne hnot.2.2, hvrs_fp, hvrs_sp, hvrs_lr,
        ite_self]
      exact ⟨rfl, rfl, rfl, rfl⟩
  obtain ⟨hfp', hsp'', hlr', hpc'⟩ := hfinal
  rw [unwind_frame_tables, hidx, ok_bind, hcode, ok_bind, hstart, ok_bind, hloop, ok_bind]
  dsimp only
  rw [hpc', if_neg hpc, hfp', hsp'', hlr']

/-! ## A frame

A function that saves three registers, with its entry in the index, its unwind code and its
stack, to which the theorem is applied.
-/

/-- `push {r4, r11, lr}; mov r11, sp; sub sp, sp, #16`. -/
def three_saved : List PrologueStep := [.push (mask_registers 0x481 4), .set_fp 16]

/-- The registers at the call: `r11`, the stack pointer and the return address. -/
def at_call : Machine where
  regs r := if r = FP then 0xd0001ff0 else if r = SP then 0xd0001fe0 else
    if r = LR then 0xc0008048 else r
  stored _ := none

/-- The index entry of the function with its code, and its stack. -/
def three_saved_words : List (ℤ × ℕ) :=
  [(0xc1000004, 0x809b8481), (0xd0001fd4, 4), (0xd0001fd8, 0xd0001ff0), (0xd0001fdc, 0xc0008048)]

def three_saved_dump (a : ℤ) : Option ℕ := three_saved_words.lookup a

def three_saved_index : Unwinder where
  start_idx := 0xc1000000
  unwind_table := [⟨0x7f009000, 0x809b8481, 0xc1000000⟩]
  version_3_0 := false

theorem mask_0x481 : mask_registers 0x481 4 = [4, 11, 14] := by
  simp [mask_registers]

theorem three_saved_linked : three_saved_index.Linked where
  word_lt := by decide
  addr_eq := by decide
  sorted := by decide
  outside := by decide

theorem search_idx_three_saved :
    three_saved_index.search_idx 0xc0009020 = .ok ⟨0x7f009000, 0x809b8481, 0xc1000000⟩ := by
  have hfound : three_saved_index.search_idx_3_4 0xc0009020
      = some ⟨0x7f009000, 0x809b8481, 0xc1000000⟩ := by
    refine (Unwinder.search_idx_3_4_eq_some_iff three_saved_linked (by decide) (by decide)
      (.inl (by decide)) _).mpr ⟨0, rfl, by decide, by decide, fun j f hf hj hside => ?_⟩
    have hlen : j < 1 := Unwinder.length_of_getElem? hf
    omega
  rw [Unwinder.search_idx, hfound]
  rfl

/-- The registers behind this prologue, and the words that it has stored. -/
theorem run_three_saved : (run_prologue three_saved at_call).regs SP = 0xd0001fc4 ∧
    (run_prologue three_saved at_call).regs FP = 0xd0001fd4 ∧
    (run_prologue three_saved at_call).stored = Function.update (Function.update
      (Function.update (fun _ => none) 0xd0001fd4 (some 4)) 0xd0001fd8 (some 0xd0001ff0))
      0xd0001fdc (some 0xc0008048) := by
  simp [three_saved, mask_0x481, run_prologue, PrologueStep.run, at_call, store_words, SP, FP, LR]

theorem unwind_frame_tables_three_saved :
    unwind_frame_tables three_saved_dump 8192 three_saved_index
        ⟨0xd0001fd4, 0xd0001fc4, 0, 0xc0009020⟩
      = .ok ⟨0xd0001ff0, 0xd0001fe0, 0xc0008048, 0xc0008048⟩ := by
  have hsaved : saved_registers three_saved = [4, 11, 14] := by
    simp [saved_registers, three_saved, PrologueStep.saved, mask_0x481]
  obtain ⟨hsp, hfp, hstored⟩ := run_three_saved
  have hundo : List.Forall₂ Undoes [.pop_mask 0x481, .set_vsp FP] three_saved := by
    refine .cons (.pop_mask 0x481 ?_ ?_) (.cons (.set_vsp 16) .nil)
    · rw [mask_0x481]
      decide
    · rw [mask_0x481]
      decide
  have henc : List.Forall₂ Encodes [.set_vsp FP, .pop_mask 0x481] [[0x9b], [0x84, 0x81]] :=
    .cons (.set_vsp 11 (by decide) (by decide) (by decide))
      (.cons (.pop_mask 0x481 (by decide) (by decide)) .nil)
  refine unwind_frame_tables_prologue search_idx_three_saved (a := 0xc1000004) rfl hundo henc
    (by decide) ?_ (m := at_call) ?_ ?_ hsp.symm hfp.symm (.inl ?_) ?_ ?_ (by decide)
  · intro i w hw
    cases i with
    | zero =>
      cases hw
      rfl
    | succ i => cases hw
  · simp [three_saved, KeepsFp, PrologueStep.sets_fp, saved_registers]
  · intro _
    rw [hsaved]
    decide
  · rw [hsaved]
    decide
  · intro a v _ hv
    rw [hstored] at hv
    simp only [Function.update_apply] at hv
    split_ifs at hv with hlr hfp hr4
    · cases hv
      rw [hlr]
      rfl
    · cases hv
      rw [hfp]
      rfl
    · cases hv
      rw [hr4]
      rfl
  · decide

end

end AndroidTools.Ramdump
