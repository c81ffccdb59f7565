/-
A reader follows the EBR chain to the logical partitions.

With sectors of 512 bytes the offset in the EBR array advances by one sector for each EBR, so EBR
`m` is sector `m` of the image. Its first record counts from itself, by `EBROffset`, and its
second one from the extended partition.

The reader is the library's and knows nothing of `ptool.py`: it starts at a record of the extended
type, reads the partition of each EBR and goes on to the next one as long as there is a link. What
it reads here is the disk after the images of the call were written to their places, with anything
else on it in the other sectors. `chain_decodes` says that it ends and comes to exactly the
logical partitions, in their order, for lists of any length.

The induction is over the passes of the loop: each of them appends one sector, and the sector is
linked to the next one unless it is the last.
-/
import AndroidTools.Lib.BootRecord
import AndroidTools.Ptool.MbrLoop

set_option autoImplicit false

namespace AndroidTools.Ptool

open AndroidTools.Bytes AndroidTools.BootRecord AndroidTools.Passes

/-! ## Records

What is written into a record is read back from it, field by field.
-/

section Records

variable {bootable : Bool} {type : ℕ} {start_sector size : ℤ}

theorem type_of_record_bytes (htype : type ≤ 255) :
    (Record.of_bytes (record_bytes bootable type start_sector size)).type = type := by
  have hslice : slice (record_bytes bootable type start_sector size) 4 1 = [type.toUInt8] := by
    simp [record_bytes, slice]
  have hbyte : type.toUInt8.toNat = type := by
    rw [Nat.toUInt8, UInt8.toNat_ofNat']
    omega
  rw [Record.of_bytes]
  dsimp only
  rw [hslice]
  simp [leValue, hbyte]

theorem start_of_record_bytes :
    ((Record.of_bytes (record_bytes bootable type start_sector size)).start : ℤ)
      = start_sector % 2 ^ 32 := by
  have hslice : slice (record_bytes bootable type start_sector size) 8 4
      = leBytes 4 start_sector :=
    slice_of_append rfl (by simp) (length_leBytes _ _)
  rw [Record.of_bytes]
  dsimp only
  rw [hslice, leValue_leBytes]
  norm_num

theorem size_of_record_bytes :
    ((Record.of_bytes (record_bytes bootable type start_sector size)).size : ℤ)
      = size % 2 ^ 32 := by
  have hslice : slice (record_bytes bootable type start_sector size) 12 4 = leBytes 4 size :=
    slice_of_append (List.append_nil _).symm (by simp) (length_leBytes _ _)
  rw [Record.of_bytes]
  dsimp only
  rw [hslice, leValue_leBytes]
  norm_num

end Records

/-! ## One EBR

An EBR is a sector with two records, for its partition and for the next EBR, and a
signature. The loop writes the records one after the other into an empty sector; as a value
it is `ebr_sector`.
-/

/-- The sector of an EBR: its two records and the signature, and zeros otherwise. -/
def ebr_sector (p : MbrPartition) (last : Bool) (j : ℕ) (start_sector size : ℤ) : List UInt8 :=
  List.replicate 0x1BE 0 ++ ebr_records p last j start_sector size

section Sector

variable {p : MbrPartition} {last : Bool} {j : ℕ} {start_sector size : ℤ}

theorem length_ebr_sector (p : MbrPartition) (last : Bool) (j : ℕ) (start_sector size : ℤ) :
    (ebr_sector p last j start_sector size).length = 512 := by
  rw [ebr_sector, List.length_append, List.length_replicate, length_ebr_records]

/-- The second record of an EBR, which links it to the next one; the last EBR has none. -/
def link_record (last : Bool) (j : ℕ) : List UInt8 :=
  if last then record_bytes false 0 0 0 else record_bytes false 5 ((j : ℤ) - 2) 1

theorem length_link_record (last : Bool) (j : ℕ) : (link_record last j).length = 16 := by
  rw [link_record]
  split_ifs <;> exact length_record_bytes _ _ _ _

theorem signed_ebr_sector : Signed (ebr_sector p last j start_sector size) := by
  refine slice_of_append (a := List.replicate 0x1BE (0 : UInt8)
    ++ (record_bytes p.bootable p.type start_sector size ++ link_record last j
      ++ record_bytes false 0 0 0 ++ record_bytes false 0 0 0)) (c := []) ?_ ?_ rfl
  · rw [List.append_nil, List.append_assoc]
    rfl
  · simp only [List.length_append, List.length_replicate, length_record_bytes, length_link_record]

theorem record_zero_ebr_sector : record (ebr_sector p last j start_sector size) 0
    = Record.of_bytes (record_bytes p.bootable p.type start_sector size) := by
  refine congrArg Record.of_bytes (slice_of_append (a := List.replicate 0x1BE (0 : UInt8))
    (c := link_record last j ++ record_bytes false 0 0 0 ++ record_bytes false 0 0 0
      ++ [0x55, 0xAA]) ?_ List.length_replicate (length_record_bytes _ _ _ _))
  simp only [ebr_sector, ebr_records, link_record, List.append_assoc]

theorem record_one_ebr_sector : record (ebr_sector p last j start_sector size) 1
    = Record.of_bytes (link_record last j) := by
  refine congrArg Record.of_bytes (slice_of_append (a := List.replicate 0x1BE (0 : UInt8)
    ++ record_bytes p.bootable p.type start_sector size)
    (c := record_bytes false 0 0 0 ++ record_bytes false 0 0 0 ++ [0x55, 0xAA]) ?_ ?_
    (length_link_record last j))
  · simp only [ebr_sector, ebr_records, link_record, List.append_assoc]
  · simp only [List.length_append, List.length_replicate, length_record_bytes]

/-- Writing the records into an empty sector behind other ones. -/
theorem overwrite_empty_sector (front : List UInt8) :
    overwrite (front ++ List.replicate 512 0) (front.length + 0x1BE)
        (ebr_records p last j start_sector size)
      = front ++ ebr_sector p last j start_sector size := by
  have hlen := length_ebr_records p last j start_sector size
  rw [overwrite_eq_splice (by rw [hlen, List.length_append, List.length_replicate]), hlen,
    List.take_length_add_append, List.take_replicate, List.drop_eq_nil_of_le, List.append_nil,
    List.append_assoc]
  · rfl
  · rw [List.length_append, List.length_replicate]

end Sector

section Link

variable {j : ℕ}

theorem type_link_record_last : (Record.of_bytes (link_record true j)).type = 0 :=
  type_of_record_bytes (by decide)

theorem type_link_record : (Record.of_bytes (link_record false j)).type = 5 :=
  type_of_record_bytes (by decide)

/-- EBR `j - 3` is followed by EBR `j - 2`. -/
theorem start_link_record (hj : 2 ≤ j) (hlt : j < 2 ^ 32) :
    (Record.of_bytes (link_record false j)).start = j - 2 := by
  have hstart : ((Record.of_bytes (link_record false j)).start : ℤ) = ((j : ℤ) - 2) % 2 ^ 32 :=
    start_of_record_bytes
  rw [Int.emod_eq_of_lt (by omega) (by omega)] at hstart
  omega

end Link

/-! ## The loop

Each pass appends one sector to the array of EBRs, so the array is the list of these
sectors, in the order of the partitions. The boot record is not touched any more.
-/

section Loop

variable {st : MbrSettings} {k n : ℕ} {begins : ℤ}

/-- **Each pass appends the sector of its EBR**, and touches neither the boot record nor what was
appended before. -/
theorem add_logicals_ebr (hsector : st.sector_size_in_bytes = 512) {ps : List MbrPartition} {j : ℕ}
    {s s' : MbrState} (hoffset : s.offset = s.ebr.length)
    (h : add_logicals st k n begins j ps s = .ok s') :
    s.ebr <+: s'.ebr ∧ s'.ebr.length = s.ebr.length + 512 * ps.length ∧
      s'.mbr = s.mbr ∧ s.placed <+: s'.placed ∧ ∀ m p, ps[m]? = some p →
      p.type ≤ 255 ∧ ∃ x, s'.placed[s.placed.length + m]? = some x ∧
        slice s'.ebr (s.ebr.length + 512 * m) 512 = ebr_sector p (decide (j + m + 1 = n)) (j + m)
          (x.first_lba - begins - (s.ebr_offset + m)) x.sectors := by
  induction ps generalizing j s with
  | nil =>
    cases h
    exact ⟨List.prefix_refl _, by simp, rfl, List.prefix_refl _, fun m p hp => by simp at hp⟩
  | cons p ps ih =>
    obtain ⟨t, ht, h⟩ := bind_ok h
    obtain ⟨x, c, hplace, htype, hroom, rfl⟩ := add_logical_spec ht
    -- the array ends where this EBR goes, so the sector is appended
    rw [hsector, hoffset] at h
    rw [overwrite_empty_sector] at h
    have hlen := length_ebr_sector p (decide (j + 1 = n)) j (x.first_lba - begins - s.ebr_offset)
      x.sectors
    obtain ⟨hebr, hlength, hmbr, hplaced, hrest⟩ := ih (by
      dsimp only
      rw [List.length_append, hlen]) h
    dsimp only at hebr hlength hplaced hrest
    refine ⟨(List.prefix_append _ _).trans hebr, ?_, hmbr,
      (List.prefix_append _ _).trans hplaced, ?_⟩
    · rw [hlength, List.length_append, hlen, List.length_cons]
      ring
    intro m q hq
    -- the EBR of this pass stays in front, the others are those of the rest
    cases m with
    | zero =>
      obtain rfl : p = q := by simpa using hq
      obtain ⟨after, hafter⟩ := hebr
      refine ⟨htype, x, ?_, ?_⟩
      · rw [Nat.add_zero]
        exact List.getElem?_eq_some_iff.mpr ⟨by
          have := hplaced.length_le
          rw [List.length_append, List.length_singleton] at this
          omega, by
          rw [← List.IsPrefix.getElem hplaced (by simp)]
          simp⟩
      · simp only [Nat.mul_zero, Nat.cast_zero, add_zero]
        exact slice_of_append hafter.symm rfl hlen
    | succ m =>
      obtain ⟨htype', y, hy, hslice⟩ := hrest m q (by simpa using hq)
      rw [List.length_append, List.length_singleton] at hy
      rw [List.length_append, hlen] at hslice
      refine ⟨htype', y, ?_, ?_⟩
      · rw [← hy]
        congr 1
        omega
      · have hpos : s.ebr.length + 512 * (m + 1) = s.ebr.length + 512 + 512 * m := by ring
        have hindex : j + (m + 1) = j + 1 + m := by omega
        have hoff : s.ebr_offset + ((m + 1 : ℕ) : ℤ) = s.ebr_offset + 1 + m := by
          push_cast
          ring
        rw [hpos, hindex, hoff]
        exact hslice

/-- The MBR of 512 bytes stays signed: a record that fits ends before the last two bytes. -/
theorem add_primaries_signed {ps : List MbrPartition} {s s' : MbrState}
    (hlen : s.mbr.length = 512) (hsigned : Signed s.mbr)
    (h : add_primaries st k n 0 ps s = .ok s') : s'.mbr.length = 512 ∧ Signed s'.mbr := by
  refine add_primaries_invariant (fun _ t => t.mbr.length = 512 ∧ Signed t.mbr) ?_
    ⟨hlen, hsigned⟩ h
  rintro i p t t' - ⟨hlen, hsigned⟩ hstep
  obtain ⟨hash_w, -, hroom, rfl⟩ := add_primary_spec hstep
  rw [hlen] at hroom
  dsimp only
  have hfit : 0x1BE + i * 16 + (record_bytes p.bootable p.type t.cursor.first_lba
      (convert_kb_to_sectors st.toSettings p.size_in_kb)).length ≤ t.mbr.length := by
    rw [length_record_bytes]
    omega
  refine ⟨by rw [length_overwrite_of_le hfit]; exact hlen, ?_⟩
  rw [Signed, slice_overwrite_of_disjoint hfit]
  · exact hsigned
  · rw [length_record_bytes]
    omega

/-- `CreateMasterBootRecord` leaves a sector that is signed. -/
theorem create_master_boot_record_signed (hsector : st.sector_size_in_bytes = 512)
    {ps : List MbrPartition} {s : MbrState} (h : create_master_boot_record st k n ps = .ok s) :
    s.mbr.length = 512 ∧ Signed s.mbr := by
  obtain ⟨mbr, hmbr, h⟩ := create_master_boot_record_spec h
  unfold empty_mbr at hmbr
  obtain ⟨img, himg, hmbr⟩ := bind_ok hmbr
  obtain ⟨hle, himg⟩ := set_bytes_ok himg
  cases hmbr
  have hlen : img.length = 512 := by
    rw [himg, length_overwrite_of_le hle, hsector, List.length_replicate]
  -- the signature is written last and lies behind the records
  have hset : set_slice img 510 [0x55, 0xAA] = overwrite img 510 [0x55, 0xAA] :=
    set_slice_of_le (by rw [hlen]; decide)
  have hfit : 510 + ([0x55, 0xAA] : List UInt8).length ≤ img.length := by
    rw [hlen]
    decide
  refine add_primaries_signed ?_ ?_ h
  · rw [starting_mbr_state]
    dsimp only
    rw [hset, length_overwrite_of_le hfit, hlen]
  · rw [starting_mbr_state]
    dsimp only
    rw [hset]
    exact slice_overwrite_self hfit

end Loop

/-! ## The sector numbers

Where sizes are not negative, the cursor only goes up. So every logical partition lies
behind the EBRs, and the distance that a record holds is not negative.
-/

section Numbers

variable {st : MbrSettings} {k n : ℕ}

/-- The cursor after the primary partitions, if none has a negative size. -/
theorem first_lba_after_primaries {ps : List MbrPartition} {s : MbrState}
    (h : create_master_boot_record st k n ps = .ok s) (hpos : ∀ x ∈ s.placed, 0 ≤ x.sectors) :
    1 ≤ s.cursor.first_lba := by
  obtain ⟨mbr, -, h⟩ := create_master_boot_record_spec h
  refine (add_primaries_invariant (fun _ t => t.cursor.last_lba = t.cursor.first_lba ∧
    ((∀ x ∈ t.placed, 0 ≤ x.sectors) → 1 ≤ t.cursor.first_lba)) ?_ ⟨rfl, fun _ => le_rfl⟩ h).2 hpos
  rintro i p t t' - ⟨hlast, hfirst⟩ hstep
  obtain ⟨hash_w, -, -, rfl⟩ := add_primary_spec hstep
  refine ⟨rfl, fun hall => ?_⟩
  have hone := hfirst fun x hx => hall x (List.mem_append_left _ hx)
  have hsize := hall _ (List.mem_append_right _ (List.mem_singleton_self _))
  dsimp only at hsize ⊢
  omega

/-- Neither the cursor nor a logical partition comes below the end of the EBRs, if none has a
negative size. -/
theorem first_lba_of_logical {begins : ℤ} {ps : List MbrPartition} {j : ℕ} {s s' : MbrState}
    (h : add_logicals st k n begins j ps s = .ok s') (hpos : ∀ x ∈ s'.placed, 0 ≤ x.sectors) :
    s.cursor.first_lba ≤ s'.cursor.first_lba ∧ ∀ i x, s.placed.length ≤ i →
      s'.placed[i]? = some x → s.cursor.first_lba ≤ x.first_lba := by
  refine (add_logicals_invariant (fun _ t => (∀ x ∈ t.placed, 0 ≤ x.sectors) →
    s.cursor.first_lba ≤ t.cursor.first_lba ∧
      ∀ i x, s.placed.length ≤ i → t.placed[i]? = some x → s.cursor.first_lba ≤ x.first_lba)
    ?_ ?_ h) hpos
  · intro _ p t t' _ hI hstep hall
    obtain ⟨y, c, hplace, -, -, rfl⟩ := add_logical_spec hstep
    have hp := place_logical_spec hplace
    obtain ⟨hcursor, hplaced⟩ := hI fun x hx => hall x (List.mem_append_left _ hx)
    have hsize := hall y (List.mem_append_right _ (List.mem_singleton_self _))
    -- a pass moves up from the cursor and leaves it behind the partition
    have hup := hp.first_ge
    have hend := hp.first_eq
    refine ⟨by dsimp only; omega, fun i x hi hx => ?_⟩
    dsimp only at hx
    rw [List.getElem?_append] at hx
    split_ifs at hx with hlt
    · exact hplaced i x hi hx
    · obtain rfl : y = x := by
        have := List.mem_of_getElem? hx
        exact (List.mem_singleton.mp this).symm
      exact hcursor.trans hup
  · intro _
    refine ⟨le_rfl, fun i x hi hx => ?_⟩
    rw [List.getElem?_eq_none hi] at hx
    cases hx

end Numbers

/-! ## The whole call

The images as a disk, with the EBRs in the sectors of the extended partition. Each sector
holds its partition and the link to the next one, so the chain is linked in the sense of the
library, whose reader follows it to its end.
-/

/-- The start and the size of a partition go into four bytes. -/
structure MbrPlaced.Fits (x : MbrPlaced) : Prop where
  first_nonneg : 0 ≤ x.first_lba
  first_lt : x.first_lba < 2 ^ 32
  sectors_nonneg : 0 ≤ x.sectors
  sectors_lt : x.sectors < 2 ^ 32

/-- A reader that comes to this sector finds the partition in its first record. -/
theorem holds_of_ebr_sector {disk : ℕ → List UInt8} {p : MbrPartition} {last : Bool} {j ebr : ℕ}
    {start_sector : ℤ} {x : MbrPlaced}
    (hdisk : disk ebr = ebr_sector p last j start_sector x.sectors) (htype : p.type ≠ 0)
    (hbyte : p.type ≤ 255) (hx : x.Fits) (hstart : start_sector = x.first_lba - ebr)
    (hge : (ebr : ℤ) ≤ x.first_lba) : Holds disk ⟨ebr, x.first_lba.toNat, x.sectors.toNat⟩ := by
  have hfirst := hx.first_lt
  have hrec : record (disk ebr) 0
      = Record.of_bytes (record_bytes p.bootable p.type start_sector x.sectors) := by
    rw [hdisk, record_zero_ebr_sector]
  -- signature, type, start and size of the first record
  refine ⟨?_, ?_, ?_, ?_⟩
  · dsimp only
    rw [hdisk]
    exact signed_ebr_sector
  · dsimp only
    rw [hrec, type_of_record_bytes hbyte]
    exact htype
  · have hrel : ((record (disk ebr) 0).start : ℤ) = start_sector % 2 ^ 32 := by
      rw [hrec]
      exact start_of_record_bytes
    rw [Int.emod_eq_of_lt (by omega) (by omega)] at hrel
    dsimp only
    omega
  · have hsize : ((record (disk ebr) 0).size : ℤ) = x.sectors % 2 ^ 32 := by
      rw [hrec]
      exact size_of_record_bytes
    rw [Int.emod_eq_of_lt hx.sectors_nonneg hx.sectors_lt] at hsize
    dsimp only
    omega

/-- A disk with the images where the `<program>` elements put them. -/
def programmed (out : MbrTables) (other : ℕ → List UInt8) (lba : ℕ) : List UInt8 :=
  if lba = 0 then out.mbr
  else if out.extended_partition_begins ≤ lba ∧
      (lba - out.extended_partition_begins).toNat < out.ebr.length / 512 then
    slice out.ebr (512 * (lba - out.extended_partition_begins).toNat) 512
  else other lba

/-- What a reader should find: the logical partitions, each with its EBR, its start and its size.
-/
def logical_partitions (out : MbrTables) : List Logical :=
  (out.placed.drop 3).mapIdx fun m x =>
    ⟨out.extended_partition_begins.toNat + m, x.first_lba.toNat, x.sectors.toNat⟩

/-- A call for more than four partitions, as its images and lists. -/
structure ManyTables (st : MbrSettings) (k : ℕ) (ps : List MbrPartition) (out : MbrTables) :
    Prop where
  length_placed : out.placed.length = ps.length
  rawprogram_eq : out.rawprogram = mbr_program_elements st k (ps.zip out.placed)
    ++ boot_record_elements st k ps.length out.extended_partition_begins
  length_mbr : out.mbr.length = 512
  signed : Signed out.mbr
  extended : record out.mbr 3 = Record.of_bytes (record_bytes false 5 out.extended_partition_begins
    (extended_length st out.extended_partition_begins))
  length_ebr : out.ebr.length = 512 * (ps.length - 3)
  begins_pos : (∀ x ∈ out.placed, 0 ≤ x.sectors) → 1 ≤ out.extended_partition_begins
  logical : ∀ m p, ps[3 + m]? = some p → ∃ x, out.placed[3 + m]? = some x ∧ p.type ≤ 255 ∧
    ((∀ y ∈ out.placed, 0 ≤ y.sectors) →
      out.extended_partition_begins + (ps.length - 3 : ℕ) ≤ x.first_lba) ∧
    slice out.ebr (512 * m) 512 = ebr_sector p (decide (3 + m + 1 = ps.length)) (3 + m)
      (x.first_lba - out.extended_partition_begins - m) x.sectors

/-- The record of the extended partition goes into the signed sector. -/
theorem extended_state_mbr {st : MbrSettings} {k m : ℕ} {s : MbrState} {hash_w : WPHash}
    (hlen : s.mbr.length = 512) (hsigned : Signed s.mbr) :
    (extended_state st k m s hash_w).mbr.length = 512 ∧
      Signed (extended_state st k m s hash_w).mbr ∧
      record (extended_state st k m s hash_w).mbr 3 = Record.of_bytes
        (record_bytes false 5 s.cursor.first_lba (extended_length st s.cursor.first_lba)) := by
  have hfit : 0x1EE + (record_bytes false 5 s.cursor.first_lba
      (extended_length st s.cursor.first_lba)).length ≤ s.mbr.length := by
    rw [length_record_bytes, hlen]
    decide
  have hself := slice_overwrite_self hfit
  rw [length_record_bytes] at hself
  simp only [extended_state]
  refine ⟨?_, ?_, congrArg Record.of_bytes hself⟩
  · rw [length_overwrite_of_le hfit, hlen]
  · rw [Signed, slice_overwrite_of_disjoint hfit (by rw [length_record_bytes]; omega)]
    exact hsigned

theorem many_tables {st : MbrSettings} {k : ℕ} {ps : List MbrPartition} {out : MbrTables}
    (hsector : st.sector_size_in_bytes = 512) (hn : 4 < ps.length)
    (hout : create_mbr_partition_table st k ps = .ok out) : ManyTables st k ps out := by
  obtain ⟨s, s', hs, hs', rfl⟩ := create_mbr_partition_table_many hn hout
  obtain ⟨hash_w, -, -, hrun⟩ := create_extended_boot_records_spec hs'
  obtain ⟨hmbrlen, hsigned⟩ := create_master_boot_record_signed hsector hs
  obtain ⟨mbr, -, hprimaries⟩ := create_master_boot_record_spec hs
  obtain ⟨hprimlen, hprimraw⟩ := create_master_boot_record_shape hs
  obtain ⟨ys, hys, hyplaced, hyraw⟩ := add_logicals_shape hrun
  -- the loop over the primary partitions leaves the counters of the EBRs alone
  have hkept := add_primaries_invariant (fun _ t => t.offset = 0 ∧ t.ebr_offset = 0)
    (fun i p t t' _ hI ht => by
      obtain ⟨_, -, -, rfl⟩ := add_primary_spec ht
      exact hI) ⟨rfl, rfl⟩ hprimaries
  obtain ⟨-, hebrlen, hmbr, hstart, hlogical⟩ := add_logicals_ebr hsector
    (s := extended_state st k (ps.drop 3).length s hash_w) hkept.1 hrun
  obtain ⟨hextlen, hextsigned, hextended⟩ := @extended_state_mbr st k (ps.drop 3).length s hash_w
    hmbrlen hsigned
  -- the loop over the logical ones goes on with the lists
  have hthree : s.placed.length = 3 := by
    rw [hprimlen, List.length_take]
    omega
  have hplaced : s'.placed = s.placed ++ ys := hyplaced
  have hraw : s'.rawprogram = mbr_program_elements st k (ps.zip s'.placed) := by
    have happ : s'.rawprogram = s.rawprogram ++ mbr_program_elements st k ((ps.drop 3).zip ys) :=
      hyraw
    rw [happ, hprimraw, ← mbr_program_elements_append hprimlen.symm, List.take_append_drop, hplaced]
  have hsub : ∀ x ∈ s.placed, x ∈ s'.placed := fun x hx => hstart.subset hx
  refine ⟨?_, ?_, ?_, ?_, ?_, ?_, ?_, ?_⟩
  · rw [hplaced, List.length_append, hys, List.length_drop, hthree]
    omega
  · dsimp only
    rw [hraw]
  · dsimp only
    rw [hmbr, hextlen]
  · dsimp only
    rw [hmbr]
    exact hextsigned
  · dsimp only
    rw [hmbr, hextended]
  · dsimp only
    rw [hebrlen, List.length_drop]
    simp [extended_state]
  · intro hpos
    exact first_lba_after_primaries hs fun x hx => hpos x (hsub x hx)
  · intro m p hp
    obtain ⟨htype, x, hx, hslice⟩ := hlogical m p (by simpa using hp)
    rw [show (extended_state st k (ps.drop 3).length s hash_w).placed = s.placed from rfl,
      hthree] at hx
    refine ⟨x, hx, htype, fun hpos => ?_, ?_⟩
    · have hge := (first_lba_of_logical hrun hpos).2 _ x (by
        simp only [extended_state, hthree]
        omega) hx
      simpa [extended_state] using hge
    · have hzero : (extended_state st k (ps.drop 3).length s hash_w).ebr_offset = 0 := hkept.2
      have hnil : (extended_state st k (ps.drop 3).length s hash_w).ebr.length = 0 := rfl
      simp only [hzero, hnil, zero_add] at hslice
      exact hslice

section Programmed

variable {st : MbrSettings} {k : ℕ} {ps : List MbrPartition} {out : MbrTables}
  {other : ℕ → List UInt8}

theorem programmed_zero : programmed out other 0 = out.mbr := by
  rw [programmed, if_pos rfl]

theorem ManyTables.type_extended (h : ManyTables st k ps out) : (record out.mbr 3).type = 5 := by
  rw [h.extended]
  exact type_of_record_bytes (by decide)

theorem ManyTables.start_extended (h : ManyTables st k ps out)
    (hpos : 0 ≤ out.extended_partition_begins) (hlt : out.extended_partition_begins < 2 ^ 32) :
    (record out.mbr 3).start = out.extended_partition_begins.toNat := by
  have hstart : ((record out.mbr 3).start : ℤ) = out.extended_partition_begins % 2 ^ 32 := by
    rw [h.extended]
    exact start_of_record_bytes
  rw [Int.emod_eq_of_lt hpos hlt] at hstart
  omega

/-- EBR `m` is sector `m` of the extended partition, on the disk as it is programmed. -/
theorem ManyTables.programmed_ebr (h : ManyTables st k ps out)
    (hbegins : 1 ≤ out.extended_partition_begins) {m : ℕ} (hm : m < ps.length - 3) :
    programmed out other (out.extended_partition_begins.toNat + m)
      = slice out.ebr (512 * m) 512 := by
  have hdiff : (((out.extended_partition_begins.toNat + m : ℕ) : ℤ)
      - out.extended_partition_begins).toNat = m := by omega
  rw [programmed, if_neg (by omega), if_pos ⟨by omega, by rw [hdiff, h.length_ebr]; omega⟩, hdiff]

theorem ManyTables.length_logical_partitions (h : ManyTables st k ps out) :
    (logical_partitions out).length = ps.length - 3 := by
  rw [logical_partitions, List.length_mapIdx, List.length_drop, h.length_placed]

/-- Each EBR holds its partition, and the second record of it is the next one or empty. -/
theorem ManyTables.linked (h : ManyTables st k ps out) (htype : ∀ p ∈ ps.drop 3, p.type ≠ 0)
    (hfit : ∀ x ∈ out.placed, x.Fits) (hn : 4 < ps.length) :
    Linked (programmed out other) out.extended_partition_begins.toNat 0
      (logical_partitions out) := by
  have hpos : ∀ x ∈ out.placed, 0 ≤ x.sectors := fun x hx => (hfit x hx).sectors_nonneg
  have hbegins := h.begins_pos hpos
  have hlength := h.length_logical_partitions
  refine linked_of_sectors (List.ne_nil_of_length_pos (by omega)) fun m x hx => ?_
  -- where partition `m` was placed
  rw [logical_partitions, List.getElem?_mapIdx, Option.map_eq_some_iff] at hx
  obtain ⟨y, hy, rfl⟩ := hx
  rw [List.getElem?_drop] at hy
  have hm : m < ps.length - 3 := by
    have hlt := (List.getElem?_eq_some_iff.mp hy).1
    rw [h.length_placed] at hlt
    omega
  have hp : ps[3 + m]? = some ps[3 + m] := List.getElem?_eq_getElem (by omega)
  obtain ⟨z, hz, hbyte, hge, hslice⟩ := h.logical m _ hp
  obtain rfl : y = z := Option.some.inj (hy.symm.trans hz)
  have hused : ps[3 + m].type ≠ 0 := by
    refine htype _ (List.mem_of_getElem? (i := m) ?_)
    rw [List.getElem?_drop, hp]
  have hfits := hfit y (List.mem_of_getElem? hy)
  have hlow := hge hpos
  have hdisk : programmed out other (out.extended_partition_begins.toNat + m) = _ :=
    h.programmed_ebr hbegins hm
  rw [← hdisk] at hslice
  refine ⟨holds_of_ebr_sector hslice hused hbyte hfits (by omega) (by omega), by simp, ?_⟩
  -- the last EBR is the one of the last partition
  dsimp only
  rw [hslice, record_one_ebr_sector, hlength, Nat.zero_add]
  by_cases hlast : m + 1 = ps.length - 3
  · rw [if_pos hlast, decide_eq_true (by omega)]
    exact type_link_record_last
  · have hfirst := hfits.first_lt
    rw [if_neg hlast, decide_eq_false (by omega)]
    refine ⟨type_link_record, ?_⟩
    rw [start_link_record (by omega) (by omega)]
    omega

end Programmed

/-- **A reader finds the logical partitions.** It starts at the fourth record of the MBR,
ends, and comes to the partitions in order, each at the start its `<program>` elements were
emitted with; EBR `m` is sector `m` of the image at the start of the extended partition. -/
theorem chain_decodes (st : MbrSettings) (k : ℕ) (ps : List MbrPartition) (out : MbrTables)
    (other : ℕ → List UInt8) (hsector : st.sector_size_in_bytes = 512) (hn : 4 < ps.length)
    (htype : ∀ p ∈ ps.drop 3, p.type ≠ 0) (hfit : ∀ x ∈ out.placed, x.Fits)
    (hout : create_mbr_partition_table st k ps = .ok out) :
    out.placed.length = ps.length ∧
      out.rawprogram = mbr_program_elements st k (ps.zip out.placed)
        ++ boot_record_elements st k ps.length out.extended_partition_begins ∧
      ((out.extended_partition_begins.toNat : ℕ) : ℤ) = out.extended_partition_begins ∧
      (logical_partitions out).length = ps.length - 3 ∧
      ∀ fuel, ps.length - 3 ≤ fuel →
        logicals (programmed out other) fuel = some (logical_partitions out) := by
  have hmany := many_tables hsector hn hout
  have hpos : ∀ x ∈ out.placed, 0 ≤ x.sectors := fun x hx => (hfit x hx).sectors_nonneg
  have hbegins := hmany.begins_pos hpos
  have hlength := hmany.length_logical_partitions
  refine ⟨hmany.length_placed, hmany.rawprogram_eq, Int.toNat_of_nonneg (by omega), hlength,
    fun fuel hfuel => ?_⟩
  -- the extended partition is below the first logical one
  have hlt : out.extended_partition_begins < 2 ^ 32 := by
    obtain ⟨x, hx, -, hge, -⟩ := hmany.logical 0 _ (List.getElem?_eq_getElem (by omega))
    have hfirst := (hfit x (List.mem_of_getElem? hx)).first_lt
    have hlow := hge hpos
    omega
  rw [logicals, programmed_zero, if_pos ⟨hmany.signed, hmany.type_extended⟩,
    hmany.start_extended (by omega) hlt]
  exact follow_of_linked (m := 0) (hmany.linked htype hfit hn) (by omega)

theorem chain_decodes_five :
    ∃ out, create_mbr_partition_table (mbr_settings 4) 0 aligned_logical = .ok out ∧
      logicals (programmed out fun _ => []) 2 = some (logical_partitions out) := by
  obtain ⟨out, hout, -, hplaced, -⟩ := create_aligned_logical
  have hfit : ∀ x ∈ out.placed, x.Fits := by
    intro x hx
    have hin := List.mem_map_of_mem (f := fun x : MbrPlaced =>
      (x.partition.readonly, x.first_lba, x.sectors)) hx
    rw [hplaced] at hin
    have hall : ∀ y ∈ [(true, (1 : ℤ), (2 : ℤ)), (true, 3, 2), (true, 5, 2), (false, 16, 2),
        (false, 131072, 0)], (0 ≤ y.2.1 ∧ y.2.1 < 2 ^ 32) ∧ 0 ≤ y.2.2 ∧ y.2.2 < 2 ^ 32 := by
      decide
    obtain ⟨⟨h1, h2⟩, h3, h4⟩ := hall _ hin
    exact ⟨h1, h2, h3, h4⟩
  exact ⟨out, hout, (chain_decodes _ 0 aligned_logical out _ rfl (by decide) (by decide) hfit
    hout).2.2.2.2 2 le_rfl⟩

end AndroidTools.Ptool
