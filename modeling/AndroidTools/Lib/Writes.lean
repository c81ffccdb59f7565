/-
Several writes into one file.

`runWrites` does them in order. What a byte is afterwards only depends on the writes that cover
it: with no such write it is what it was (`getD_runWrites_apart`), and of writes that do not
overlap the one that covers it decides, wherever it stands in the order (`slice_runWrites`).

Where writes do overlap the order matters in general, but not where they agree on what they have
in common (`getD_runWrites_agree`). The lengths are settled here as well: writes never shorten a
file, and those that stay inside it keep its length.
-/
import AndroidTools.Lib.Bytes

set_option autoImplicit false

namespace AndroidTools.Writes

open AndroidTools.Bytes

/-- A write: the bytes and the position in the file at which they go. -/
structure WriteAt where
  position : ℕ
  bytes : List UInt8
  deriving Repr, DecidableEq

/-- The position after the last byte of the write. -/
def WriteAt.last (w : WriteAt) : ℕ := w.position + w.bytes.length

/-- The write changes byte `i`. -/
def WriteAt.Covers (w : WriteAt) (i : ℕ) : Prop := w.position ≤ i ∧ i < w.last

/-- The two writes do not overlap: one ends before the other begins, or where it begins. -/
def WriteAt.Apart (v w : WriteAt) : Prop := v.last ≤ w.position ∨ w.last ≤ v.position

/-- The file after the writes, done in order. A write past the end of the file lengthens it. -/
def runWrites (ws : List WriteAt) (f : List UInt8) : List UInt8 :=
  ws.foldl (fun f w => overwrite f w.position w.bytes) f

section Run

variable {ws : List WriteAt} {w : WriteAt} {f : List UInt8} {i : ℕ}

@[simp] theorem runWrites_nil (f : List UInt8) : runWrites [] f = f := rfl

@[simp] theorem runWrites_cons (w : WriteAt) (ws : List WriteAt) (f : List UInt8) :
    runWrites (w :: ws) f = runWrites ws (overwrite f w.position w.bytes) := rfl

theorem runWrites_append (vs ws : List WriteAt) (f : List UInt8) :
    runWrites (vs ++ ws) f = runWrites ws (runWrites vs f) := List.foldl_append

/-- Writes of no bytes change nothing. -/
theorem runWrites_of_empty {ws : List WriteAt} (h : ∀ w ∈ ws, w.bytes = []) (f : List UInt8) :
    runWrites ws f = f := by
  induction ws with
  | nil => rfl
  | cons w ws ih =>
    rw [List.forall_mem_cons] at h
    rw [runWrites_cons, h.1, overwrite_nil, ih h.2]

theorem WriteAt.Apart.not_covers {v : WriteAt} (h : v.Apart w) (hv : v.Covers i) :
    ¬ w.Covers i := by
  rintro ⟨h₁, h₂⟩
  obtain ⟨h₃, h₄⟩ := hv
  rcases h with h | h <;> omega

/-- A byte that no write covers is what it was. -/
theorem getD_runWrites_apart (h : ∀ w ∈ ws, ¬ w.Covers i) :
    (runWrites ws f).getD i 0 = f.getD i 0 := by
  induction ws generalizing f with
  | nil => rfl
  | cons w ws ih =>
    rw [runWrites_cons, ih fun v hv => h v (by simp [hv]), getD_overwrite, if_neg]
    exact h w (by simp)

/-- A byte that one of several writes covers which do not overlap is that write's, wherever the
write stands in the order. -/
theorem getD_runWrites (hws : ws.Pairwise WriteAt.Apart) (hw : w ∈ ws) (hi : w.Covers i) :
    (runWrites ws f).getD i 0 = w.bytes.getD (i - w.position) 0 := by
  induction ws generalizing f with
  | nil => cases hw
  | cons v ws ih =>
    obtain ⟨hv, hws⟩ := List.pairwise_cons.mp hws
    rw [runWrites_cons]
    rcases List.mem_cons.mp hw with rfl | hw
    · -- the later writes leave the byte alone
      rw [getD_runWrites_apart fun u hu => (hv u hu).not_covers hi, getD_overwrite, if_pos]
      exact hi
    · exact ih hws hw

/-- A byte on which all the writes that cover it agree is what they agree on. -/
theorem getD_runWrites_agree {b : UInt8} (hcovered : ∃ w ∈ ws, w.Covers i)
    (hagree : ∀ w ∈ ws, w.Covers i → w.bytes.getD (i - w.position) 0 = b) :
    (runWrites ws f).getD i 0 = b := by
  induction ws generalizing f with
  | nil =>
    obtain ⟨w, hw, -⟩ := hcovered
    cases hw
  | cons v ws ih =>
    rw [List.forall_mem_cons] at hagree
    rw [runWrites_cons]
    by_cases hlater : ∃ w ∈ ws, w.Covers i
    · exact ih hlater hagree.2
    · -- no later write covers the byte, so this one does
      push Not at hlater
      obtain ⟨w, hw, hi⟩ := hcovered
      have hv : v.Covers i := by
        rcases List.mem_cons.mp hw with rfl | hw
        · exact hi
        · exact absurd hi (hlater w hw)
      have hin : v.position ≤ i ∧ i < v.position + v.bytes.length := hv
      rw [getD_runWrites_apart hlater, getD_overwrite, if_pos hin]
      exact hagree.1 hv

/-- Writes that stay inside the file keep its length. -/
theorem length_runWrites (h : ∀ w ∈ ws, w.last ≤ f.length) :
    (runWrites ws f).length = f.length := by
  induction ws generalizing f with
  | nil => rfl
  | cons w ws ih =>
    rw [List.forall_mem_cons] at h
    have hlen : (overwrite f w.position w.bytes).length = f.length :=
      length_overwrite_of_le h.1
    rw [runWrites_cons, ih fun v hv => (h.2 v hv).trans hlen.ge, hlen]

theorem length_le_runWrites (ws : List WriteAt) (f : List UInt8) :
    f.length ≤ (runWrites ws f).length := by
  induction ws generalizing f with
  | nil => exact le_rfl
  | cons w ws ih => exact (length_le_length_overwrite f w.bytes w.position).trans (ih _)

theorem last_le_length_runWrites (hw : w ∈ ws) (hne : w.bytes ≠ []) :
    w.last ≤ (runWrites ws f).length := by
  induction ws generalizing f with
  | nil => cases hw
  | cons v ws ih =>
    rcases List.mem_cons.mp hw with rfl | hw
    · refine le_trans ?_ (length_le_runWrites ws _)
      rw [length_overwrite hne]
      exact le_max_right _ _
    · exact ih hw

/-- Each of several writes that do not overlap reads back. -/
theorem slice_runWrites (hws : ws.Pairwise WriteAt.Apart) (hw : w ∈ ws) :
    slice (runWrites ws f) w.position w.bytes.length = w.bytes := by
  by_cases hne : w.bytes = []
  · rw [hne]
    simp [slice]
  have hroom : w.position + w.bytes.length ≤ (runWrites ws f).length :=
    last_le_length_runWrites hw hne
  refine List.ext_getElem (length_slice_of_le hroom) fun i h₁ h₂ => ?_
  have hbyte := getD_runWrites (f := f) hws hw (i := w.position + i)
    ⟨by omega, by rw [WriteAt.last]; omega⟩
  have hin : w.position + i < (runWrites ws f).length := by omega
  simp only [Nat.add_sub_cancel_left, List.getD_eq_getElem?_getD, List.getElem?_eq_getElem hin,
    List.getElem?_eq_getElem h₂, Option.getD_some] at hbyte
  rw [← hbyte]
  simp [slice]

end Run

end AndroidTools.Writes
