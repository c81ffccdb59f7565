/-
A large file in pieces.

A file of 10 MB or more is read and written in pieces of 10 MB, as many as its size has. The size
does not know about the offset the file is read from, so the end of the file may come in any
piece; but only what is read after the last full piece is padded. So the pieces make up what is
written at once when the full ones get whole sectors.

`full_pieces` is the number of bytes that the full pieces get, and the condition is that sectors
divide it. Both directions come from one fact about padding: a list that is padded behind another
one is the two of them padded as a whole exactly if the first has whole blocks.
-/
import AndroidTools.Msp.Write

set_option autoImplicit false

namespace AndroidTools.Msp

open AndroidTools.Bytes

/-- What is written for a file that is read at once, with `size` bytes to read. -/
def write_whole (sector_size : ℕ) (bytes : List UInt8) (size : ℤ) : List UInt8 :=
  pad sector_size (read_bytes bytes size)

/-- The whole is the bytes up to `size`, in whole sectors. -/
theorem write_whole_natCast (sector_size : ℕ) (bytes : List UInt8) (size : ℕ) :
    write_whole sector_size bytes size = pad sector_size (bytes.take size) := by
  rw [write_whole, read_bytes, if_neg (by omega), Int.toNat_natCast]

/-- The bytes that the full pieces get, of a file that has `rest` bytes to read. -/
def full_pieces (rest size : ℕ) : ℕ :=
  min rest (size / max_file_size_before_split * max_file_size_before_split)

/-- What is written in pieces is what is written at once exactly if the full pieces get whole
sectors. -/
theorem flatten_write_pieces_eq_whole_iff {sector_size : ℕ} (hs : 0 < sector_size)
    (bytes : List UInt8) (size : ℕ) :
    (write_pieces sector_size bytes size).flatten = write_whole sector_size bytes size ↔
      sector_size ∣ full_pieces bytes.length size := by
  rw [write_whole_natCast, flatten_write_pieces, full_pieces]
  set full := size / max_file_size_before_split * max_file_size_before_split
  have hfull : full ≤ size := Nat.div_mul_le_self _ _
  have hsplit : bytes.take full ++ (bytes.take size).drop full = bytes.take size := by
    conv_rhs => rw [← List.take_append_drop full (bytes.take size)]
    rw [List.take_take, Nat.min_eq_left hfull]
  have hpad := append_pad_iff hs (a := bytes.take full) (d := (bytes.take size).drop full)
  rwa [hsplit, List.length_take, Nat.min_comm] at hpad

/-- For an element: its file, from the offset on, is written in pieces as it would be at once,
exactly if the full pieces get whole sectors. -/
theorem written_eq_whole_iff {sector_size : ℕ} (hs : 0 < sector_size) (file : List UInt8)
    {w : Entry} (hoffset : 0 ≤ w.file_sector_offset) {size : ℕ}
    (hsize : write_size sector_size file.length w = size) :
    written sector_size file w = some (write_whole sector_size
        (file.drop (w.file_sector_offset * sector_size).toNat) size) ↔
      sector_size ∣
        full_pieces (file.length - (w.file_sector_offset * sector_size).toNat) size := by
  rw [written_of_nonneg hoffset, hsize, Option.some_inj, flatten_write_pieces_eq_whole_iff hs,
    List.length_drop]

/-- **A large file is written like a small one exactly if its full pieces get whole sectors.** For
every file, offset and size; with a sector size that divides 10 MB only the end of the file can
make a difference. -/
theorem written_in_pieces_iff (sector_size : ℕ) (hs : 0 < sector_size) (file : List UInt8)
    (w : Entry) (hoffset : 0 ≤ w.file_sector_offset) (size : ℕ)
    (hsize : write_size sector_size file.length w = size)
    (_hlarge : max_file_size_before_split ≤ size) :
    write_whole sector_size (file.drop (w.file_sector_offset * sector_size).toNat) size
        = pad sector_size
          ((file.drop (w.file_sector_offset * sector_size).toNat).take size) ∧
      (written sector_size file w = some (write_whole sector_size
          (file.drop (w.file_sector_offset * sector_size).toNat) size) ↔
        sector_size ∣
          full_pieces (file.length - (w.file_sector_offset * sector_size).toNat) size) :=
  ⟨write_whole_natCast _ _ _, written_eq_whole_iff hs file hoffset hsize⟩

/-- An element for a file that is read from its second sector on. -/
def second_sector_write : Entry :=
  ⟨"system.img", 1, 0, 0, "false", 64, false, 0, 0, 0, 0, 4, none⟩

/-- The file of this element is read from byte 512 on. -/
theorem second_sector_pos :
    (second_sector_write.file_sector_offset * ((512 : ℕ) : ℤ)).toNat = 512 := rfl

/-- A file of `n` bytes, all of them 1. -/
def file_of_ones (n : ℕ) : List UInt8 := List.replicate n 1

theorem second_sector_size (n : ℕ) :
    write_size 512 (file_of_ones n).length second_sector_write = n := by
  rw [file_of_ones, List.length_replicate]
  exact write_size_of_zero (by decide) n rfl

theorem written_in_pieces_two_pieces :
    write_whole 512 ((file_of_ones (2 * max_file_size_before_split)).drop 512)
        (2 * max_file_size_before_split : ℕ)
        = pad 512 (((file_of_ones (2 * max_file_size_before_split)).drop 512).take
          (2 * max_file_size_before_split)) ∧
      (written 512 (file_of_ones (2 * max_file_size_before_split)) second_sector_write
          = some (write_whole 512 ((file_of_ones (2 * max_file_size_before_split)).drop 512)
            (2 * max_file_size_before_split : ℕ)) ↔
        512 ∣ full_pieces ((file_of_ones (2 * max_file_size_before_split)).length - 512)
          (2 * max_file_size_before_split)) := by
  have h := written_in_pieces_iff 512 (by decide)
    (file_of_ones (2 * max_file_size_before_split)) second_sector_write (by decide) _
    (second_sector_size _) (by decide)
  rwa [second_sector_pos] at h

/-- With 100 bytes more than a piece the file ends in the full piece, and what is written is not
whole sectors. -/
theorem not_written_like_whole :
    (max_file_size_before_split : ℤ) ≤ write_size 512
        (file_of_ones (max_file_size_before_split + 100)).length second_sector_write ∧
      written 512 (file_of_ones (max_file_size_before_split + 100)) second_sector_write
        ≠ some (pad 512 (((file_of_ones (max_file_size_before_split + 100)).drop 512).take
          (max_file_size_before_split + 100))) := by
  have hsize := second_sector_size (max_file_size_before_split + 100)
  refine ⟨by rw [hsize]; decide, ?_⟩
  intro hwritten
  rw [← write_whole_natCast, ← second_sector_pos] at hwritten
  have hdvd := (written_eq_whole_iff (by decide) _ (by decide) hsize).mp hwritten
  rw [second_sector_pos, file_of_ones, List.length_replicate] at hdvd
  exact absurd hdvd (by decide)

end AndroidTools.Msp
