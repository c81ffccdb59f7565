/-
C strings in fixed buffers.

A buffer is a list of bytes and the string in it ends before the first zero. `hold n s` is the
buffer of `n` bytes that holds `s` with zeros behind it, the shape a static buffer keeps under
`strlcat` and under bytes stored over its front.

A store past the end of a buffer is undefined in C. It has no result here (`put` and the loops
over it return `none`), so that a proof that a function has a result is at the same time a proof
that it stays inside its buffers.
-/
import AndroidTools.Lib.Bytes

set_option autoImplicit false

namespace AndroidTools.CString

open AndroidTools.Bytes

/-- The string a buffer holds: the bytes in front of the first zero, or all of them. -/
def cstr (buf : List UInt8) : List UInt8 := buf.takeWhile (· ≠ 0)

/-- `strlen`, of a buffer that is not read past its end. -/
def strlen (buf : List UInt8) : ℕ := (cstr buf).length

/-- `strlcpy(dst, src, sizeof(dst))`: the front of the string with a terminator, and the length of
all of it, which is what the function returns. -/
def strlcpy (dst src : List UInt8) : ℕ × List UInt8 :=
  (src.length, overwrite dst 0 (src.take (dst.length - 1) ++ [0]))

/-- `strlcat(dst, src, sizeof(dst))`: the string is appended as far as there is room for it and a
terminator. -/
def strlcat (dst src : List UInt8) : List UInt8 :=
  if strlen dst < dst.length then
    overwrite dst (strlen dst) (src.take (dst.length - 1 - strlen dst) ++ [0])
  else dst

/-- `buf[j] = c`. Past the end of the buffer the store is undefined, and here there is no result.
-/
def put (buf : List UInt8) (j : ℕ) (c : UInt8) : Option (List UInt8) :=
  if j < buf.length then some (overwrite buf j [c]) else none

/-- `strchr(buf, c) - buf` of a character other than the terminator. -/
def strchr (buf : List UInt8) (c : UInt8) : Option ℕ := (cstr buf).idxOf? c

/-- A loop that stores `n` characters of `src`, from `i` on, at `j` and behind. It has no result
if one of the stores has none. -/
def copy_chars (src : List UInt8) (i : ℕ) : ℕ → ℕ → List UInt8 → Option (List UInt8)
  | 0, _, dst => some dst
  | n + 1, j, dst => (put dst j (src.getD i 0)).bind (copy_chars src (i + 1) n (j + 1))

/-- The buffer of `n` bytes with `s` in front and zeros behind. -/
def hold (n : ℕ) (s : List UInt8) : List UInt8 := s ++ List.replicate (n - s.length) 0

theorem length_hold {n : ℕ} {s : List UInt8} (h : s.length ≤ n) : (hold n s).length = n := by
  rw [hold, List.length_append, List.length_replicate]
  omega

theorem ne_zero_of_mem {s : List UInt8} (h0 : (0 : UInt8) ∉ s) :
    ∀ c ∈ s, decide (c ≠ 0) = true := by
  intro c hc
  rw [decide_eq_true_iff]
  rintro rfl
  exact h0 hc

/-- The string in front of the first zero, if it has none itself. -/
theorem cstr_append_zero {s : List UInt8} (h0 : (0 : UInt8) ∉ s) (t : List UInt8) :
    cstr (s ++ 0 :: t) = s := by
  rw [cstr, List.takeWhile_append_of_pos (ne_zero_of_mem h0),
    List.takeWhile_cons_of_neg (by decide), List.append_nil]

theorem cstr_hold {n : ℕ} {s : List UInt8} (h0 : (0 : UInt8) ∉ s) : cstr (hold n s) = s := by
  have hzeros : (List.replicate (n - s.length) (0 : UInt8)).takeWhile
      (fun c => decide (c ≠ 0)) = [] := by
    cases n - s.length with
    | zero => rfl
    | succ k => rw [List.replicate_succ, List.takeWhile_cons_of_neg (by decide)]
  rw [cstr, hold, List.takeWhile_append_of_pos (ne_zero_of_mem h0), hzeros, List.append_nil]

theorem strlen_hold {n : ℕ} {s : List UInt8} (h0 : (0 : UInt8) ∉ s) :
    strlen (hold n s) = s.length := by
  rw [strlen, cstr_hold h0]

theorem put_of_lt {buf : List UInt8} {j : ℕ} (h : j < buf.length) (c : UInt8) :
    put buf j c = some (overwrite buf j [c]) := if_pos h

/-- There is a terminator in the buffer exactly where room is left for one. -/
theorem zero_mem_hold {n : ℕ} {s : List UInt8} (h0 : (0 : UInt8) ∉ s) :
    (0 : UInt8) ∈ hold n s ↔ s.length < n := by
  rw [hold, List.mem_append, or_iff_right h0, List.mem_replicate, and_iff_left rfl]
  omega

/-- Bytes stored over the front leave what they do not reach. -/
theorem overwrite_hold {n : ℕ} {s d : List UInt8} (hs : s.length ≤ n) (hd : d.length ≤ n) :
    overwrite (hold n s) 0 d = hold n (d ++ s.drop d.length) := by
  have hroom : 0 + d.length ≤ (hold n s).length := by rw [length_hold hs]; omega
  rw [overwrite_eq_splice hroom, List.take_zero, List.nil_append, Nat.zero_add, hold, hold,
    List.drop_append, List.append_assoc, List.drop_replicate]
  congr 3
  rw [List.length_append, List.length_drop]
  omega

/-- A terminator stored behind the string is already there. -/
theorem hold_concat_zero {n : ℕ} {s : List UInt8} (hs : s.length < n) :
    hold n (s ++ [0]) = hold n s := by
  obtain ⟨k, hk⟩ : ∃ k, n - s.length = k + 1 := ⟨n - s.length - 1, by omega⟩
  have hrest : n - (s ++ [0]).length = k := by
    rw [List.length_append, List.length_singleton]
    omega
  rw [hold, hold, hrest, hk, List.replicate_succ, List.append_assoc, List.singleton_append]

theorem overwrite_hold_end {n : ℕ} {s d : List UInt8} (h : s.length + d.length ≤ n) :
    overwrite (hold n s) s.length d = hold n (s ++ d) := by
  have hroom : s.length + d.length ≤ (hold n s).length := by
    rw [length_hold (by omega)]
    exact h
  rw [overwrite_eq_splice hroom, hold, hold, List.take_left, List.drop_append, List.drop_replicate,
    List.drop_eq_nil_of_le (by omega), List.nil_append, List.length_append]
  congr 2
  omega

/-- Appending to a held string gives the held string of both, cut at the size of the buffer less
one byte for the terminator. -/
theorem strlcat_hold {n : ℕ} {s : List UInt8} (h0 : (0 : UInt8) ∉ s) (hs : s.length < n)
    (t : List UInt8) : strlcat (hold n s) t = hold n ((s ++ t).take (n - 1)) := by
  have hcut : (t.take (n - 1 - s.length)).length ≤ n - 1 - s.length := List.length_take_le ..
  have hroom : s.length + (t.take (n - 1 - s.length) ++ [0]).length ≤ n := by
    rw [List.length_append, List.length_singleton]
    omega
  have hshort : (s ++ t.take (n - 1 - s.length)).length < n := by
    rw [List.length_append]
    omega
  have htake : (s ++ t).take (n - 1) = s ++ t.take (n - 1 - s.length) := by
    rw [List.take_append, List.take_of_length_le (by omega)]
  rw [strlcat, strlen_hold h0, length_hold hs.le, if_pos hs, overwrite_hold_end hroom,
    ← List.append_assoc, hold_concat_zero hshort, htake]

/-! ## Copying characters

A hand-written copy loop stores character by character, with a bound that comes from
somewhere else. On a buffer that holds a string of known length it either runs through, and
the buffer holds more of the string, or it comes to a store outside; there is no third way
for it to end.
-/

/-- Characters stored behind the ones that a buffer holds are held too, as long as there is room.
-/
theorem copy_chars_hold {size : ℕ} {src : List UInt8} (n : ℕ) {i : ℕ} {held : List UInt8}
    (hsrc : i + n ≤ src.length) (hroom : held.length + n ≤ size) :
    copy_chars src i n held.length (hold size held)
      = some (hold size (held ++ (src.drop i).take n)) := by
  induction n generalizing i held with
  | zero => rw [copy_chars, List.take_zero, List.append_nil]
  | succ n ih =>
    have hi : i < src.length := by omega
    have hj : held.length < (hold size held).length := by
      rw [length_hold (by omega)]
      omega
    have hnext := @ih (i + 1) (held ++ [src.getD i 0]) (by omega)
      (by rw [List.length_append, List.length_singleton]; omega)
    rw [List.length_append, List.length_singleton] at hnext
    rw [copy_chars, put_of_lt hj, Option.bind_some,
      overwrite_hold_end (by rw [List.length_singleton]; omega), hnext,
      List.drop_eq_getElem_cons hi, List.take_succ_cons, List.append_assoc,
      List.singleton_append, List.getD_eq_getElem?_getD, List.getElem?_eq_getElem hi,
      Option.getD_some]

/-- With one character too many a store is outside, and the loop has no result. -/
theorem copy_chars_outside {src : List UInt8} (n : ℕ) {i j : ℕ} {dst : List UInt8}
    (h : dst.length < j + n) (hj : j ≤ dst.length) : copy_chars src i n j dst = none := by
  induction n generalizing i j dst with
  | zero => omega
  | succ n ih =>
    rw [copy_chars, put]
    split_ifs with hlt
    · have hlen : (overwrite dst j [src.getD i 0]).length = dst.length :=
        length_overwrite_of_le (by rw [List.length_singleton]; omega)
      exact ih (by omega) (by omega)
    · rfl

end AndroidTools.CString
