/-
Taking blocks of one length out of a stream that comes in pieces of any length.

A buffer takes the pieces in and gives blocks of `k` out. Giving out changes nothing about what
has come in (`contents_write_block`), so the blocks and the buffer are always the pieces in a row;
and when the buffer has been drained there is no block left in it.

Both together are `Drained`, which says that the blocks do not depend on how the stream was cut
into pieces, only on what the pieces make up. It holds of the empty stream and is kept by one more
piece (`Drained.step`), given enough passes of the loop that drains: a caller has to show only
that the number of passes it makes is enough for the buffer it has.
-/
import Mathlib.Tactic

set_option autoImplicit false

namespace AndroidTools

/-- The state of the stream: the buffer, which is what has come in and not gone out, and the
blocks that went out, in order. -/
structure Reblock (α : Type*) where
  buffer : List α
  written : List (List α)
  deriving Repr, DecidableEq

namespace Reblock

variable {α : Type*}

/-- A piece comes in at the end of the buffer. -/
def extend (piece : List α) (s : Reblock α) : Reblock α :=
  { s with buffer := s.buffer ++ piece }

/-- A block of `k` goes out from the front of the buffer. Where there are not `k` in it nothing
happens. -/
def write_block (k : ℕ) (s : Reblock α) : Reblock α :=
  if k ≤ s.buffer.length then ⟨s.buffer.drop k, s.written ++ [s.buffer.take k]⟩ else s

/-- Giving a block out, `n` times. -/
def drain (k n : ℕ) (s : Reblock α) : Reblock α := (write_block k)^[n] s

/-- All that came in: the blocks that went out and the buffer, in a row. -/
def contents (s : Reblock α) : List α := s.written.flatten ++ s.buffer

theorem contents_extend (piece : List α) (s : Reblock α) :
    (s.extend piece).contents = s.contents ++ piece := by
  rw [contents, contents, extend, List.append_assoc]

theorem contents_write_block (k : ℕ) (s : Reblock α) :
    (s.write_block k).contents = s.contents := by
  rw [write_block]
  split_ifs with h
  · rw [contents, contents, List.flatten_append, List.flatten_singleton, List.append_assoc,
      List.take_append_drop]
  · rfl

theorem contents_drain (k n : ℕ) (s : Reblock α) : (s.drain k n).contents = s.contents := by
  induction n generalizing s with
  | zero => rfl
  | succ n ih =>
    rw [drain, Function.iterate_succ_apply]
    exact (ih _).trans (contents_write_block k s)

/-- The buffer gets shorter by a block, or there is none in it. -/
theorem length_buffer_write_block (k : ℕ) (s : Reblock α) :
    (s.write_block k).buffer.length
      = if k ≤ s.buffer.length then s.buffer.length - k else s.buffer.length := by
  rw [write_block]
  split_ifs with h
  · exact List.length_drop
  · rfl

/-- With fewer than `n + 1` blocks in the buffer, `n` passes leave less than a block. -/
theorem length_buffer_drain {k n : ℕ} {s : Reblock α} (h : s.buffer.length < (n + 1) * k) :
    (s.drain k n).buffer.length < k := by
  induction n generalizing s with
  | zero => rwa [Nat.zero_add, Nat.one_mul] at h
  | succ n ih =>
    rw [drain, Function.iterate_succ_apply]
    apply ih
    rw [length_buffer_write_block]
    have hsplit : (n + 1 + 1) * k = (n + 1) * k + k := by ring
    split_ifs with hblock
    · omega
    · have hk : k ≤ (n + 1) * k := Nat.le_mul_of_pos_left k (Nat.succ_pos n)
      omega

/-- All blocks that went out are `k` long. -/
def Whole (k : ℕ) (s : Reblock α) : Prop := ∀ block ∈ s.written, block.length = k

theorem Whole.write_block {k : ℕ} {s : Reblock α} (h : s.Whole k) : (s.write_block k).Whole k := by
  rw [Reblock.write_block]
  split_ifs with hk
  · intro block hblock
    rcases List.mem_append.mp hblock with hold | hnew
    · exact h block hold
    · rw [List.mem_singleton.mp hnew, List.length_take, Nat.min_eq_left hk]
  · exact h

theorem Whole.drain {k : ℕ} {s : Reblock α} (h : s.Whole k) (n : ℕ) : (s.drain k n).Whole k := by
  induction n generalizing s with
  | zero => exact h
  | succ n ih =>
    rw [Reblock.drain, Function.iterate_succ_apply]
    exact ih h.write_block

theorem Whole.dvd {k : ℕ} {s : Reblock α} (h : s.Whole k) : k ∣ s.written.flatten.length := by
  rw [List.length_flatten]
  apply List.dvd_sum
  intro n hn
  obtain ⟨block, hblock, rfl⟩ := List.mem_map.mp hn
  rw [h block hblock]

/-- The pieces that came in make up `d`, and there is no block left in the buffer. -/
structure Drained (k : ℕ) (s : Reblock α) (d : List α) : Prop where
  contents : s.contents = d
  short : s.buffer.length < k
  whole : s.Whole k

theorem drained_start {k : ℕ} (hk : 0 < k) : Drained k (⟨[], []⟩ : Reblock α) [] :=
  ⟨rfl, hk, fun _ hblock => absurd hblock List.not_mem_nil⟩

/-- A piece comes in and the buffer is drained: then the pieces make up `d` and the new one, and
again there is no block left. -/
theorem Drained.step {k n : ℕ} {s : Reblock α} {d piece : List α} (h : Drained k s d)
    (hn : (s.extend piece).buffer.length < (n + 1) * k) :
    Drained k ((s.extend piece).drain k n) (d ++ piece) where
  contents := by rw [contents_drain, contents_extend, h.contents]
  short := length_buffer_drain hn
  whole := Whole.drain (s := s.extend piece) h.whole n

end Reblock

end AndroidTools
