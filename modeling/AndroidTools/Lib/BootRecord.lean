/-
Boot records as a reader sees them.

A boot record is a sector with four records of 16 bytes from byte 0x1BE on and the bytes 55 AA at
its end. The fourth record of the first sector may be an extended partition. At its start is a
boot record of its own kind: the first record is a partition, counted from this sector on, and the
second one is where the next such sector is, counted from the start of the extended partition. A
type of 0 ends the chain.

This is the reader's side, written from the format and not from the tool that fills the sectors.
`follow` walks the chain, and `follow_of_linked` says what it finds of a chain that is `Linked`. A
writer is then right if the sectors it wrote are linked, which `linked_of_sectors` takes apart
into one condition for each of them.
-/
import AndroidTools.Lib.Bytes

set_option autoImplicit false

namespace AndroidTools.BootRecord

open AndroidTools.Bytes

/-- One of the four records of a boot record: what it is for, where it starts and how many sectors
it has. -/
structure Record where
  type : ℕ
  start : ℕ
  size : ℕ
  deriving Repr, DecidableEq

/-- The record in 16 bytes. The boot flag and the cylinder addresses in it are not looked at. -/
def Record.of_bytes (b : List UInt8) : Record where
  type := leValue (slice b 4 1)
  start := leValue (slice b 8 4)
  size := leValue (slice b 12 4)

/-- A new size in the bytes of a record is a new size of the record and nothing else, so a patch
of the last four bytes can be understood on the decoded record. -/
theorem of_bytes_patched {image : List UInt8} {pos : ℕ} (v : ℤ) (h : pos + 16 ≤ image.length) :
    Record.of_bytes (slice (overwrite image (pos + 12) (leBytes 4 v)) pos 16)
      = { Record.of_bytes (slice image pos 16) with size := leValue (leBytes 4 v) } := by
  have hlen := length_slice_of_le h
  have hv := length_leBytes 4 v
  have hfit : 12 + (leBytes 4 v).length ≤ (slice image pos 16).length := by
    rw [hlen, hv]
  have hsize := slice_overwrite_self hfit
  rw [hv] at hsize
  rw [slice_overwrite_inside (by rw [hv]) h, Record.of_bytes, Record.of_bytes, hsize,
    slice_overwrite_of_disjoint hfit (by omega), slice_overwrite_of_disjoint hfit (by omega)]

/-- Record `i` of a sector, counted from byte 0x1BE on. -/
def record (sector : List UInt8) (i : ℕ) : Record :=
  Record.of_bytes (slice sector (0x1BE + 16 * i) 16)

/-- The two bytes at the end of a boot record, without which a reader does not take the sector for
one. -/
def Signed (sector : List UInt8) : Prop := slice sector 510 2 = [0x55, 0xAA]

instance (sector : List UInt8) : Decidable (Signed sector) := inferInstanceAs (Decidable (_ = _))

/-- A partition that was found: the sector of its record, the sector where it starts, and how many
sectors it has. -/
structure Logical where
  ebr : ℕ
  start : ℕ
  size : ℕ
  deriving Repr, DecidableEq

/-- The partitions from the boot record at `lba` on, in an extended partition at `ext`; `none`
where the chain is broken, or longer than `fuel`. A first record of type 0 is an empty place in
the chain, and a second one ends it. -/
def follow (disk : ℕ → List UInt8) (ext : ℕ) : ℕ → ℕ → Option (List Logical)
  | 0, _ => none
  | fuel + 1, lba =>
    if ¬ Signed (disk lba) then none
    else
      let first := record (disk lba) 0
      let second := record (disk lba) 1
      let here := if first.type = 0 then [] else [⟨lba, lba + first.start, first.size⟩]
      if second.type = 0 then some here
      else if second.type = 5 then
        (follow disk ext fuel (ext + second.start)).map fun rest => here ++ rest
      else none

/-- The logical partitions of a disk: those that are found from the extended partition in the
fourth record of the first sector; `none` if there is no such partition. -/
def logicals (disk : ℕ → List UInt8) (fuel : ℕ) : Option (List Logical) :=
  let extended := record (disk 0) 3
  if Signed (disk 0) ∧ extended.type = 5 then follow disk extended.start fuel extended.start
  else none

/-- The boot record of `x` is signed, and its first record is the partition `x`. -/
structure Holds (disk : ℕ → List UInt8) (x : Logical) : Prop where
  signed : Signed (disk x.ebr)
  used : (record (disk x.ebr) 0).type ≠ 0
  start_eq : x.ebr + (record (disk x.ebr) 0).start = x.start
  size_eq : (record (disk x.ebr) 0).size = x.size

/-- Boot records in a row, each with the next one behind it. The list is built from its last
element, whose second record has type 0. -/
inductive Linked (disk : ℕ → List UInt8) (ext : ℕ) : ℕ → List Logical → Prop where
  | last (m : ℕ) (x : Logical) (hx : Holds disk x) (hebr : x.ebr = ext + m)
    (hend : (record (disk x.ebr) 1).type = 0) : Linked disk ext m [x]
  | next (m : ℕ) (x : Logical) (xs : List Logical) (hx : Holds disk x) (hebr : x.ebr = ext + m)
    (htype : (record (disk x.ebr) 1).type = 5) (hlink : (record (disk x.ebr) 1).start = m + 1)
    (hxs : Linked disk ext (m + 1) xs) : Linked disk ext m (x :: xs)

/-- **The chain is read to its end.** With fuel for every element the reader finds exactly the
partitions of a linked list, in their order. -/
theorem follow_of_linked {disk : ℕ → List UInt8} {ext m fuel : ℕ} {xs : List Logical}
    (h : Linked disk ext m xs) (hfuel : xs.length ≤ fuel) :
    follow disk ext fuel (ext + m) = some xs := by
  induction h generalizing fuel with
  | last m x hx hebr hend =>
    obtain ⟨fuel, rfl⟩ : ∃ f, fuel = f + 1 := ⟨fuel - 1, by simp at hfuel; omega⟩
    rw [← hebr, follow, if_neg (not_not.mpr hx.signed)]
    dsimp only
    rw [if_pos hend, if_neg hx.used, hx.start_eq, hx.size_eq]
  | next m x xs hx hebr htype hlink hxs ih =>
    obtain ⟨fuel, rfl⟩ : ∃ f, fuel = f + 1 := ⟨fuel - 1, by simp at hfuel; omega⟩
    have hne : ¬ (record (disk x.ebr) 1).type = 0 := by
      rw [htype]
      decide
    rw [← hebr, follow, if_neg (not_not.mpr hx.signed)]
    dsimp only
    rw [if_neg hne, if_pos htype, hlink, ih (by simpa using hfuel), if_neg hx.used, hx.start_eq,
      hx.size_eq]
    rfl

/-- A chain is linked if every sector of it is, which can be checked sector by sector: each holds
its partition, and points to the next sector or ends the chain. -/
theorem linked_of_sectors {disk : ℕ → List UInt8} {ext m : ℕ} {xs : List Logical} (hne : xs ≠ [])
    (h : ∀ i x, xs[i]? = some x → Holds disk x ∧ x.ebr = ext + (m + i) ∧
      if i + 1 = xs.length then (record (disk x.ebr) 1).type = 0
      else (record (disk x.ebr) 1).type = 5 ∧ (record (disk x.ebr) 1).start = m + i + 1) :
    Linked disk ext m xs := by
  induction xs generalizing m with
  | nil => exact absurd rfl hne
  | cons x xs ih =>
    obtain ⟨hx, hebr, hlink⟩ := h 0 x rfl
    cases xs with
    | nil => exact .last m x hx hebr hlink
    | cons y ys =>
      rw [if_neg (by simp)] at hlink
      refine .next m x _ hx hebr hlink.1 hlink.2 (ih (by simp) fun i z hz => ?_)
      obtain ⟨hz', hebr', hlink'⟩ := h (i + 1) z (by simpa using hz)
      have hindex : m + (i + 1) = m + 1 + i := by omega
      rw [hindex] at hebr' hlink'
      refine ⟨hz', hebr', ?_⟩
      simpa using hlink'

end AndroidTools.BootRecord
