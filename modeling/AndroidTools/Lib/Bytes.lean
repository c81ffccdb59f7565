/-
Byte sequences used as files, and the little-endian fields stored in them.

The tools of this repository open a file, seek, read a window and write a
window back. This file is the vocabulary for that: `slice` is what a read
returns (short at the end of the file), `overwrite` is what a write leaves
behind (zero-filled when the position lies past the end, untouched when there
is nothing to write), and `leBytes`/`leValue` are the fixed-width fields.

Nothing here knows what the files are for. The two facts everything above rests
on are pointwise: `getElem?_slice` says which byte a read returns, and
`getD_overwrite` says which byte a write leaves. The window lemmas after them
(`slice_overwrite_self`, `slice_overwrite_of_disjoint`) are the forms proofs
about fields use.
-/
import Mathlib.Tactic

set_option autoImplicit false

namespace AndroidTools.Bytes

/-! ## Reading a window

A read may come back short: a window that reaches past the end of the file has only the
bytes that are there. So nothing here asks for the window to lie inside, except the lemmas
that say how many bytes come back. Everything else follows from which byte is at which
place.
-/

/-- The bytes a read of `len` at `pos` returns; short at the end of the file. -/
def slice {α : Type*} (f : List α) (pos len : ℕ) : List α := (f.drop pos).take len

theorem length_slice {α : Type*} (f : List α) (pos len : ℕ) :
    (slice f pos len).length = min len (f.length - pos) := by
  simp only [slice, List.length_take, List.length_drop]

/-- A window inside the file is read whole. -/
theorem length_slice_of_le {α : Type*} {f : List α} {pos len : ℕ}
    (h : pos + len ≤ f.length) : (slice f pos len).length = len := by
  rw [length_slice]
  omega

theorem getElem?_slice {α : Type*} (f : List α) (pos len i : ℕ) :
    (slice f pos len)[i]? = if i < len then f[pos + i]? else none := by
  rw [slice, List.getElem?_take, List.getElem?_drop]

/-- Two files with the same bytes in a window read the same there. -/
theorem getD_slice (f : List UInt8) (pos len i : ℕ) :
    (slice f pos len).getD i 0 = if i < len then f.getD (pos + i) 0 else 0 := by
  rw [List.getD_eq_getElem?_getD, getElem?_slice]
  split_ifs with hi
  · rw [List.getD_eq_getElem?_getD]
  · rfl

theorem slice_congr {α : Type*} {f g : List α} {pos pos' len : ℕ}
    (h : ∀ i < len, f[pos + i]? = g[pos' + i]?) : slice f pos len = slice g pos' len := by
  apply List.ext_getElem?
  intro i
  rw [getElem?_slice, getElem?_slice]
  split_ifs with hi
  · exact h i hi
  · rfl

/-- A window of a window is a window of the file. -/
theorem slice_slice {α : Type*} (f : List α) (pos len p n : ℕ) (h : p + n ≤ len) :
    slice (slice f pos len) p n = slice f (pos + p) n := by
  apply slice_congr
  intro i hi
  rw [getElem?_slice, if_pos (by omega), Nat.add_assoc]

/-- Reading from the start, at least as much as there is, gives the whole file. -/
theorem slice_zero_of_le {α : Type*} {f : List α} {len : ℕ} (h : f.length ≤ len) :
    slice f 0 len = f := by
  rw [slice, List.drop_zero, List.take_of_length_le h]

@[simp] theorem slice_zero_length {α : Type*} (f : List α) : slice f 0 f.length = f :=
  slice_zero_of_le (Nat.le_refl _)

/-- A read past the end returns nothing. -/
theorem slice_of_length_le {α : Type*} {f : List α} {pos : ℕ} (len : ℕ)
    (h : f.length ≤ pos) : slice f pos len = [] := by
  rw [slice, List.drop_eq_nil_of_le h, List.take_nil]

/-- Two reads in a row are one longer read. -/
theorem slice_append_slice {α : Type*} (f : List α) (pos m n : ℕ) :
    slice f pos m ++ slice f (pos + m) n = slice f pos (m + n) := by
  simp only [slice, ← List.drop_drop]
  exact (List.take_add ..).symm

theorem slice_append_left {α : Type*} {f g : List α} {pos len : ℕ}
    (h : pos + len ≤ f.length) : slice (f ++ g) pos len = slice f pos len := by
  apply slice_congr
  intro i hi
  rw [List.getElem?_append_left (by omega)]

/-- The middle of three parts is what a window of its length reads behind the first. -/
theorem slice_append_middle {α : Type*} (a b c : List α) :
    slice (a ++ b ++ c) a.length b.length = b := by
  simp [slice]

/-- The part of a list between two others, found by the lengths of the first and of the part
itself. -/
theorem slice_of_append {α : Type*} {f a b c : List α} {i n : ℕ} (h : f = a ++ b ++ c)
    (ha : a.length = i) (hb : b.length = n) : slice f i n = b := by
  rw [h, ← ha, ← hb]
  exact slice_append_middle a b c

/-! ## Writing a window

The model of a positioned write has two habits of a real file: a gap in front of the written
bytes is filled with zeros, and the file grows where the write ends behind it.
`getD_overwrite` says the resulting byte at every place in one formula, with bytes past the
end counted as zeros, and most comparisons of files go through it.
-/

/-- The file a write of `d` at `pos` leaves: the gap up to `pos` is filled with
zeros, and a write of no bytes changes nothing. -/
def overwrite (f : List UInt8) (pos : ℕ) (d : List UInt8) : List UInt8 :=
  if d = [] then f
  else (f ++ List.replicate (pos - f.length) 0).take pos ++ d ++ f.drop (pos + d.length)

@[simp] theorem overwrite_nil (f : List UInt8) (pos : ℕ) : overwrite f pos [] = f := by
  simp only [overwrite, if_true]

theorem length_overwrite {f d : List UInt8} {pos : ℕ} (hd : d ≠ []) :
    (overwrite f pos d).length = max f.length (pos + d.length) := by
  rw [overwrite, if_neg hd]
  simp only [List.length_append, List.length_take, List.length_replicate, List.length_drop]
  omega

/-- A write inside the file does not change its length. -/
theorem length_overwrite_of_le {f d : List UInt8} {pos : ℕ}
    (h : pos + d.length ≤ f.length) : (overwrite f pos d).length = f.length := by
  by_cases hd : d = []
  · rw [hd, overwrite_nil]
  · rw [length_overwrite hd]
    omega

theorem length_le_length_overwrite (f d : List UInt8) (pos : ℕ) :
    f.length ≤ (overwrite f pos d).length := by
  by_cases hd : d = []
  · rw [hd, overwrite_nil]
  · rw [length_overwrite hd]
    exact Nat.le_max_left _ _

/-- Inside the file a write is a splice. -/
theorem overwrite_eq_splice {f d : List UInt8} {pos : ℕ} (h : pos + d.length ≤ f.length) :
    overwrite f pos d = f.take pos ++ d ++ f.drop (pos + d.length) := by
  by_cases hd : d = []
  · subst hd
    simp
  · rw [overwrite, if_neg hd, Nat.sub_eq_zero_of_le (by omega), List.replicate_zero,
      List.append_nil]

/-- Which byte a write inside the file leaves at `i`. -/
theorem getElem?_overwrite {f d : List UInt8} {pos : ℕ} (h : pos + d.length ≤ f.length)
    (i : ℕ) :
    (overwrite f pos d)[i]?
      = if pos ≤ i ∧ i < pos + d.length then d[i - pos]? else f[i]? := by
  have hlen : (f.take pos).length = pos := by
    rw [List.length_take]
    omega
  rw [overwrite_eq_splice h, List.append_assoc]
  rcases Nat.lt_or_ge i pos with hlt | hge
  · rw [if_neg (by omega), List.getElem?_append_left (by omega), List.getElem?_take,
      if_pos hlt]
  · rw [List.getElem?_append_right (by omega), hlen]
    rcases Nat.lt_or_ge i (pos + d.length) with hin | hout
    · rw [if_pos ⟨hge, hin⟩, List.getElem?_append_left (by omega)]
    · rw [if_neg (by omega), List.getElem?_append_right (by omega), List.getElem?_drop]
      congr 1
      omega

/-- Which byte a write leaves at `i`, wherever it lands: bytes past the end of
the file count as zero. -/
theorem getD_overwrite (f d : List UInt8) (pos i : ℕ) :
    (overwrite f pos d).getD i 0
      = if pos ≤ i ∧ i < pos + d.length then d.getD (i - pos) 0 else f.getD i 0 := by
  by_cases hd : d = []
  · subst hd
    rw [overwrite_nil, if_neg (by simp)]
  have hlen : ((f ++ List.replicate (pos - f.length) 0).take pos).length = pos := by
    simp only [List.length_take, List.length_append, List.length_replicate]
    omega
  rw [overwrite, if_neg hd, List.append_assoc]
  simp only [List.getD_eq_getElem?_getD]
  rcases Nat.lt_or_ge i pos with hlt | hge
  · rw [if_neg (by omega), List.getElem?_append_left (by omega), List.getElem?_take,
      if_pos hlt]
    rcases Nat.lt_or_ge i f.length with hf | hf
    · rw [List.getElem?_append_left hf]
    · rw [List.getElem?_append_right hf, List.getElem?_eq_none hf, List.getElem?_replicate]
      split_ifs <;> rfl
  · rw [List.getElem?_append_right (by omega), hlen]
    rcases Nat.lt_or_ge i (pos + d.length) with hin | hout
    · rw [if_pos ⟨hge, hin⟩, List.getElem?_append_left (by omega)]
    · rw [if_neg (by omega), List.getElem?_append_right (by omega), List.getElem?_drop]
      congr 2
      omega

/-- Two writes in a row are one. -/
theorem overwrite_append (f a b : List UInt8) (pos : ℕ) :
    overwrite (overwrite f pos a) (pos + a.length) b = overwrite f pos (a ++ b) := by
  by_cases ha : a = []
  · subst ha
    rfl
  by_cases hb : b = []
  · subst hb
    rw [overwrite_nil, List.append_nil]
  have hlen : ((f ++ List.replicate (pos - f.length) 0).take pos).length = pos := by
    rw [List.length_take, List.length_append, List.length_replicate]
    omega
  rw [overwrite, overwrite, overwrite, if_neg ha, if_neg hb, if_neg (by simp [ha])]
  set front := (f ++ List.replicate (pos - f.length) 0).take pos
  have hfull : pos + a.length = (front ++ a).length := by rw [List.length_append, hlen]
  have hgap : pos + a.length - (front ++ a ++ f.drop (pos + a.length)).length = 0 := by
    rw [List.length_append, ← hfull]
    omega
  rw [hgap, List.replicate_zero, List.append_nil, hfull, List.take_left, ← List.drop_drop,
    List.drop_left, List.drop_drop, ← hfull, List.length_append, Nat.add_assoc,
    List.append_assoc front a b]

/-! ## Reading back a written file

The two laws of a memory, for windows in place of cells: what was written is read back, and
a window clear of the write is as before. Between them stand the cases in which one window
lies inside the other, which a patch of one field in a sector that is read and written as a
whole comes to.
-/

/-- The window just written reads back as what was written. -/
theorem slice_overwrite_self {f d : List UInt8} {pos : ℕ} (h : pos + d.length ≤ f.length) :
    slice (overwrite f pos d) pos d.length = d := by
  apply List.ext_getElem?
  intro i
  rw [getElem?_slice]
  split_ifs with hi
  · rw [getElem?_overwrite h, if_pos ⟨by omega, by omega⟩, Nat.add_sub_cancel_left]
  · exact (List.getElem?_eq_none (by omega)).symm

/-- Every part of the window just written reads back as the same part of what was written. -/
theorem slice_overwrite_part {f d : List UInt8} {pos p n : ℕ} (h : pos + d.length ≤ f.length)
    (hp : p + n ≤ d.length) : slice (overwrite f pos d) (pos + p) n = slice d p n := by
  rw [← slice_slice _ pos d.length p n hp, slice_overwrite_self h]

/-- The bytes just written read back wherever they land, since a gap before them is filled. -/
theorem slice_overwrite (f d : List UInt8) (pos : ℕ) :
    slice (overwrite f pos d) pos d.length = d := by
  by_cases hd : d = []
  · subst hd
    rfl
  · have hfront : ((f ++ List.replicate (pos - f.length) 0).take pos).length = pos := by
      rw [List.length_take, List.length_append, List.length_replicate]
      omega
    rw [overwrite, if_neg hd]
    have hmiddle := slice_append_middle ((f ++ List.replicate (pos - f.length) 0).take pos) d
      (f.drop (pos + d.length))
    rwa [hfront] at hmiddle

/-- The bytes in front of a write stay. -/
theorem getElem?_overwrite_before {f d : List UInt8} {pos i : ℕ} (hi : i < pos)
    (hf : i < f.length) : (overwrite f pos d)[i]? = f[i]? := by
  by_cases hd : d = []
  · rw [hd, overwrite_nil]
  · rw [overwrite, if_neg hd, List.append_assoc, List.getElem?_append_left (by
        rw [List.length_take, List.length_append, List.length_replicate]
        omega),
      List.getElem?_take, if_pos hi, List.getElem?_append_left hf]

/-- The bytes behind a write stay. -/
theorem getElem?_overwrite_after {f d : List UInt8} {pos i : ℕ} (hi : pos + d.length ≤ i) :
    (overwrite f pos d)[i]? = f[i]? := by
  by_cases hd : d = []
  · rw [hd, overwrite_nil]
  · have hfront : ((f ++ List.replicate (pos - f.length) 0).take pos ++ d).length
        = pos + d.length := by
      rw [List.length_append, List.length_take, List.length_append, List.length_replicate]
      omega
    rw [overwrite, if_neg hd, List.getElem?_append_right (by omega), hfront, List.getElem?_drop]
    congr 1
    omega

/-- A window clear of the write is unchanged. -/
theorem slice_overwrite_of_disjoint {f d : List UInt8} {pos : ℕ} {p n : ℕ}
    (h : pos + d.length ≤ f.length) (hdisj : p + n ≤ pos ∨ pos + d.length ≤ p) :
    slice (overwrite f pos d) p n = slice f p n := by
  apply slice_congr
  intro i hi
  rw [getElem?_overwrite h, if_neg (by omega)]

/-- A write inside the file is all that it sets and all that it leaves. -/
theorem eq_overwrite_iff {f g d : List UInt8} {pos : ℕ} (h : pos + d.length ≤ f.length) :
    g = overwrite f pos d ↔
      slice g pos d.length = d ∧ ∀ i, i < pos ∨ pos + d.length ≤ i → g[i]? = f[i]? := by
  constructor
  · rintro rfl
    refine ⟨slice_overwrite_self h, fun i hi => ?_⟩
    rw [getElem?_overwrite h, if_neg (by omega)]
  · rintro ⟨hfield, hrest⟩
    apply List.ext_getElem?
    intro i
    rw [getElem?_overwrite h]
    by_cases hi : pos ≤ i ∧ i < pos + d.length
    · have hget := getElem?_slice g pos d.length (i - pos)
      rw [hfield, if_pos (by omega), Nat.add_sub_cancel' hi.1] at hget
      rw [if_pos hi, hget]
    · rw [if_neg hi]
      exact hrest i (by omega)

/-- A write that lies inside a window, seen through the window. -/
theorem slice_overwrite_inside {f d : List UInt8} {base pos n : ℕ}
    (hin : pos + d.length ≤ n) (hn : base + n ≤ f.length) :
    slice (overwrite f (base + pos) d) base n = overwrite (slice f base n) pos d := by
  have hlen : (slice f base n).length = n := length_slice_of_le hn
  apply List.ext_getElem?
  intro i
  rw [getElem?_slice, getElem?_overwrite (by omega), getElem?_overwrite (by omega),
    getElem?_slice]
  by_cases hi : i < n
  · simp only [if_pos hi]
    by_cases hw : pos ≤ i ∧ i < pos + d.length
    · rw [if_pos (by omega), if_pos hw]
      congr 1
      omega
    · rw [if_neg (by omega), if_neg hw]
  · rw [if_neg hi, if_neg hi, if_neg (by omega)]

/-- Writing a window of a file back, changed in one field, is writing the field. -/
theorem overwrite_slice_overwrite {f d : List UInt8} {base pos n : ℕ}
    (hin : pos + d.length ≤ n) (hn : base + n ≤ f.length) :
    overwrite f base (overwrite (slice f base n) pos d) = overwrite f (base + pos) d := by
  have hlen : (slice f base n).length = n := length_slice_of_le hn
  have hwlen : (overwrite (slice f base n) pos d).length = n := by
    rw [length_overwrite_of_le (by omega), hlen]
  have hright : base + pos + d.length ≤ f.length := by omega
  have hinner : pos + d.length ≤ (slice f base n).length := by omega
  apply List.ext_getElem?
  intro i
  rw [getElem?_overwrite (by omega) i, getElem?_overwrite hright i, hwlen]
  by_cases hi : base ≤ i ∧ i < base + n
  · have hget : (slice f base n)[i - base]? = f[base + (i - base)]? := by
      rw [getElem?_slice, if_pos (by omega)]
    rw [if_pos hi, getElem?_overwrite hinner, hget]
    by_cases hw : pos ≤ i - base ∧ i - base < pos + d.length
    · rw [if_pos hw, if_pos (by omega)]
      congr 1
      omega
    · rw [if_neg hw, if_neg (by omega)]
      congr 1
      omega
  · rw [if_neg hi, if_neg (by omega)]

/-- Of two writes of the same window the second one counts. -/
theorem overwrite_overwrite {f d e : List UInt8} {pos : ℕ} (h : pos + d.length ≤ f.length)
    (hlen : e.length = d.length) : overwrite (overwrite f pos d) pos e = overwrite f pos e := by
  have hfirst := length_overwrite_of_le h
  apply List.ext_getElem?
  intro i
  rw [getElem?_overwrite (by omega), getElem?_overwrite h, getElem?_overwrite (by omega), hlen]
  split_ifs <;> rfl

/-- Two byte lists of one length are equal if their bytes are. -/
theorem eq_iff_getD {a b : List UInt8} :
    a = b ↔ a.length = b.length ∧ ∀ i, a.getD i 0 = b.getD i 0 := by
  constructor
  · rintro rfl
    exact ⟨rfl, fun _ => rfl⟩
  · rintro ⟨hlen, hbytes⟩
    apply List.ext_getElem hlen
    intro i ha hb
    have hi := hbytes i
    rwa [List.getD_eq_getElem?_getD, List.getD_eq_getElem?_getD, List.getElem?_eq_getElem ha,
      List.getElem?_eq_getElem hb] at hi

/-! ## Padding

Files are written in whole sectors, the last one filled up with zeros. Padding piece by
piece is padding the whole as long as every piece but the last is a whole number of sectors;
`append_pad_iff` says that nothing less is enough.
-/

/-- `n` rounded up to a multiple of `s`. -/
def padded (s n : ℕ) : ℕ := if n % s = 0 then n else n + (s - n % s)

/-- `d` with zeros up to the next multiple of `s`. -/
def pad (s : ℕ) (d : List UInt8) : List UInt8 :=
  if d.length % s = 0 then d else d ++ List.replicate (s - d.length % s) 0

theorem padded_zero (s : ℕ) : padded s 0 = 0 := by
  rw [padded, Nat.zero_mod, if_pos rfl]

theorem le_padded (s n : ℕ) : n ≤ padded s n := by
  unfold padded
  split_ifs <;> omega

/-- The padded length is the least multiple of `s` that holds `n`. -/
theorem padded_le_mul {s n m : ℕ} (hs : 0 < s) (h : n ≤ m * s) : padded s n ≤ m * s := by
  have hmod := Nat.mod_lt n hs
  have hdiv := Nat.div_add_mod n s
  unfold padded
  split_ifs with h0
  · exact h
  · have hlt : n / s < m := by
      rw [Nat.div_lt_iff_lt_mul hs]
      refine lt_of_le_of_ne h ?_
      rintro rfl
      exact h0 (Nat.mul_mod_left m s)
    have hnext : s * (n / s) + s ≤ m * s := by
      calc s * (n / s) + s = (n / s + 1) * s := by ring
        _ ≤ m * s := Nat.mul_le_mul_right s hlt
    omega

theorem dvd_padded {s : ℕ} (hs : 0 < s) (n : ℕ) : s ∣ padded s n := by
  have hmod := Nat.mod_lt n hs
  unfold padded
  split_ifs with h0
  · exact Nat.dvd_of_mod_eq_zero h0
  · have hdiv := Nat.div_add_mod n s
    refine ⟨n / s + 1, ?_⟩
    rw [Nat.mul_add, Nat.mul_one]
    omega

theorem length_pad (s : ℕ) (d : List UInt8) : (pad s d).length = padded s d.length := by
  unfold pad padded
  split_ifs
  · rfl
  · rw [List.length_append, List.length_replicate]

theorem pad_nil (s : ℕ) : pad s [] = [] := by
  rw [pad, List.length_nil, Nat.zero_mod, if_pos rfl]

/-- A padded list reads as the list, since the bytes behind it count as zeros anyway. -/
theorem getD_pad (s : ℕ) (d : List UInt8) (i : ℕ) : (pad s d).getD i 0 = d.getD i 0 := by
  unfold pad
  split_ifs
  · rfl
  · simp only [List.getD_eq_getElem?_getD]
    rcases Nat.lt_or_ge i d.length with h | h
    · rw [List.getElem?_append_left h]
    · rw [List.getElem?_append_right h, List.getElem?_eq_none h, List.getElem?_replicate]
      split_ifs <;> rfl

/-- Behind other bytes too, a padded list reads as the list. -/
theorem getD_append_pad (s : ℕ) (a d : List UInt8) (i : ℕ) :
    (a ++ pad s d).getD i 0 = (a ++ d).getD i 0 := by
  have hrest := getD_pad s d (i - a.length)
  simp only [List.getD_eq_getElem?_getD] at hrest ⊢
  rcases Nat.lt_or_ge i a.length with h | h
  · rw [List.getElem?_append_left h, List.getElem?_append_left h]
  · rw [List.getElem?_append_right h, List.getElem?_append_right h, hrest]

/-- Whole sectors in front of a list do not change how it is padded. -/
theorem append_pad {s : ℕ} {a : List UInt8} (ha : s ∣ a.length) (d : List UInt8) :
    a ++ pad s d = pad s (a ++ d) := by
  have hmod : (a ++ d).length % s = d.length % s := by
    obtain ⟨q, hq⟩ := ha
    rw [List.length_append, hq, Nat.mul_add_mod]
  unfold pad
  rw [hmod]
  split_ifs
  · rfl
  · rw [List.append_assoc]

/-- Padding the last part is padding the whole only if the parts in front are whole sectors. This
is what a file written in pieces, each padded by itself, depends on. -/
theorem append_pad_iff {s : ℕ} (hs : 0 < s) {a d : List UInt8} :
    a ++ pad s d = pad s (a ++ d) ↔ s ∣ a.length := by
  refine ⟨fun h => ?_, fun ha => append_pad ha d⟩
  have hlen := congrArg List.length h
  rw [List.length_append, length_pad, length_pad] at hlen
  have hsum : s ∣ a.length + padded s d.length := hlen ▸ dvd_padded hs _
  exact (Nat.dvd_add_left (dvd_padded hs d.length)).mp hsum

/-- Whole sectors are not padded. -/
theorem pad_of_dvd {s : ℕ} {d : List UInt8} (h : s ∣ d.length) : pad s d = d := by
  have happend := append_pad h []
  rwa [pad_nil, List.append_nil, eq_comm] at happend

/-! ## Little-endian fields

A field of `w` bytes holds a number modulo `256 ^ w`. The bytes are taken by floor shifts,
which is what shifting a negative Python integer does, so a negative number has its two's
complement here and needs no case of its own.
-/

/-- The `w` little-endian bytes of `v`: byte `b` is `(v >> 8 * b) & 0xFF`, a
floor shift, so a negative value is its two's complement. -/
def leBytes (w : ℕ) (v : ℤ) : List UInt8 :=
  (List.range w).map fun b => UInt8.ofNat (v / 2 ^ (8 * b) % 256).toNat

/-- The number a little-endian field holds. -/
def leValue : List UInt8 → ℕ
  | [] => 0
  | b :: bs => b.toNat + 256 * leValue bs

@[simp] theorem length_leBytes (w : ℕ) (v : ℤ) : (leBytes w v).length = w := by
  simp only [leBytes, List.length_map, List.length_range]

theorem leBytes_succ (w : ℕ) (v : ℤ) :
    leBytes (w + 1) v = UInt8.ofNat (v % 256).toNat :: leBytes w (v / 256) := by
  rw [leBytes, List.range_succ_eq_map, List.map_cons, List.map_map]
  simp only [leBytes, Nat.mul_zero, pow_zero, Int.ediv_one]
  congr 1
  apply List.map_congr_left
  intro b _
  have hpow : (2 : ℤ) ^ (8 * (b + 1)) = 256 * 2 ^ (8 * b) := by
    rw [Nat.mul_succ, pow_add]
    ring
  simp only [Function.comp, Nat.succ_eq_add_one, hpow]
  rw [Int.ediv_ediv_of_nonneg (by norm_num)]

/-- The last byte of a field is its highest, so a field grows at its end. -/
theorem leBytes_concat (w : ℕ) (v : ℤ) :
    leBytes (w + 1) v = leBytes w v ++ [UInt8.ofNat (v / 2 ^ (8 * w) % 256).toNat] := by
  rw [leBytes, List.range_succ, List.map_append, List.map_singleton, leBytes]

/-- A field holds its value modulo the field's range, and that is what is read back of a number
that is too large or negative. -/
theorem leValue_leBytes (w : ℕ) (v : ℤ) : (leValue (leBytes w v) : ℤ) = v % 256 ^ w := by
  induction w generalizing v with
  | zero => simp [leBytes, leValue]
  | succ w ih =>
    have hlo : (0 : ℤ) ≤ v % 256 := Int.emod_nonneg _ (by norm_num)
    have hhi : v % 256 < 256 := Int.emod_lt_of_pos _ (by norm_num)
    have hbyte : ((UInt8.ofNat (v % 256).toNat).toNat : ℤ) = v % 256 := by
      rw [UInt8.toNat_ofNat']
      omega
    rw [leBytes_succ, leValue]
    push_cast
    have hsplit : v % (256 * 256 ^ w) = v % 256 + 256 * (v / 256 % 256 ^ w) := by
      rw [Int.emod_def v (256 * 256 ^ w), Int.emod_def v 256,
        Int.emod_def (v / 256) (256 ^ w), Int.ediv_ediv_of_nonneg (by norm_num)]
      ring
    rw [hbyte, ih (v / 256), pow_succ', hsplit]

/-- A value within the field's range is read back as it was. -/
theorem leValue_leBytes_of_lt {w : ℕ} {v : ℤ} (h0 : 0 ≤ v) (h : v < 256 ^ w) :
    (leValue (leBytes w v) : ℤ) = v := by
  rw [leValue_leBytes, Int.emod_eq_of_lt h0 h]

theorem leValue_leBytes_natCast {w n : ℕ} (h : n < 256 ^ w) : leValue (leBytes w (n : ℤ)) = n := by
  have hval := leValue_leBytes_of_lt (w := w) (Int.natCast_nonneg n) (by exact_mod_cast h)
  exact_mod_cast hval

theorem leValue_lt (s : List UInt8) : leValue s < 256 ^ s.length := by
  induction s with
  | nil => exact Nat.one_pos
  | cons b s ih =>
    have hb : b.toNat < 256 := b.toNat_lt
    rw [leValue, List.length_cons, pow_succ']
    omega

end AndroidTools.Bytes
