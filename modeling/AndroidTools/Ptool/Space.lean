/-
The space a partition gets.

`ConvertKBtoSectors` rounds down. A size that is no whole number of sectors loses its last,
incomplete one, in a GPT entry as in the record of an MBR or EBR; with sectors of 4096 bytes
a partition of less than 4 KB ends before it begins. A record has four bytes for the number
of sectors besides.

A GPT is judged by the ranges of the loop, and by what a reader finds in the eight bytes that
its entries have for each end of a range. An MBR is judged by the number of sectors that is
read from the record, in the boot record or in the extended one.
-/
import AndroidTools.Ptool.EbrChain
import AndroidTools.Ptool.EntryArray
import AndroidTools.Ptool.Packing

set_option autoImplicit false

namespace AndroidTools.Ptool

open AndroidTools.Bytes AndroidTools.BootRecord AndroidTools.Passes

/-! ## The conversion

The conversion drops what is no whole sector, so a size is held by its sectors exactly if
nothing is dropped.
-/

/-- The sectors that a size is converted to hold it exactly if it is a whole number of them. -/
theorem sectors_hold_iff (st : Settings) (size_in_kb : ℤ) :
    size_in_kb * 1024 ≤ convert_kb_to_sectors st size_in_kb * st.sector_size_in_bytes ↔
      (st.sector_size_in_bytes : ℤ) ∣ size_in_kb * 1024 := by
  have hs : (st.sector_size_in_bytes : ℤ) ≠ 0 := by
    have := st.sector_size_pos
    omega
  have hle := Int.ediv_mul_le (size_in_kb * 1024) hs
  rw [convert_kb_to_sectors]
  constructor
  · intro h
    exact ⟨_, (Int.le_antisymm h hle).trans (Int.mul_comm _ _)⟩
  · intro h
    rw [Int.ediv_mul_cancel h]

/-- A size above 0 that is a whole number of sectors has at least one. -/
theorem sectors_pos {st : Settings} {size_in_kb : ℤ} (hsize : 0 < size_in_kb)
    (h : (st.sector_size_in_bytes : ℤ) ∣ size_in_kb * 1024) :
    0 < convert_kb_to_sectors st size_in_kb := by
  have hhold := (sectors_hold_iff st size_in_kb).mpr h
  by_contra hzero
  have hneg : convert_kb_to_sectors st size_in_kb * st.sector_size_in_bytes ≤ 0 :=
    Int.mul_nonpos_of_nonpos_of_nonneg (by omega) (by omega)
  omega

/-! ## GPT

A partition of fixed size has the sectors of its size, in the loop and in the entry that a
reader decodes; an entry has eight bytes for each end.
-/

/-- The range has at least as many bytes as the size that was asked for. -/
def Extent.Holds (st : Settings) (x : Extent) (size_in_kb : ℤ) : Prop :=
  x.first_lba ≤ x.last_lba ∧
    size_in_kb * 1024 ≤ (x.last_lba - x.first_lba + 1) * st.sector_size_in_bytes

/-- The range of a partition of fixed size holds it exactly if its size is whole sectors. -/
theorem extent_holds_iff {st : Settings} {k : ℕ} {ps : List Partition} {rand : ℕ → ℕ}
    {out : GptTables} (hout : create_gpt_partition_table st k ps rand = .ok out) {j : ℕ}
    {p : Partition} {x : Extent} (hp : ps[j]? = some p) (hx : out.placed[j]? = some x)
    (hg : ¬ grown st ps.length j) (hsize : 0 < p.size_in_kb) :
    x.Holds st p.size_in_kb ↔ (st.sector_size_in_bytes : ℤ) ∣ p.size_in_kb * 1024 := by
  have hsectors := fixed_extent hout hp hx hg
  rw [Extent.Holds, hsectors, sectors_hold_iff]
  refine ⟨fun h => h.2, fun h => ⟨?_, h⟩⟩
  have hpos := sectors_pos hsize h
  omega

/-- Both ends of the range have their number in eight bytes. -/
def Extent.InEightBytes (x : Extent) : Prop :=
  (0 ≤ x.first_lba ∧ x.first_lba < 2 ^ 64) ∧ 0 ≤ x.last_lba ∧ x.last_lba < 2 ^ 64

/-- The range that a reader finds in entry `j` of the primary table. -/
def entry_extent (st : Settings) (out : GptTables) (j : ℕ) : Extent where
  first_lba := leValue (slice out.primary_gpt (entry_position st j + 32) 8)
  last_lba := leValue (slice out.primary_gpt (entry_position st j + 40) 8)

/-- A reader finds the range of the loop, if eight bytes are enough for it. -/
theorem entry_extent_eq {st : Settings} {k : ℕ} {ps : List Partition} {rand : ℕ → ℕ}
    {out : GptTables} (hs : 512 ≤ st.sector_size_in_bytes)
    (hout : create_gpt_partition_table st k ps rand = .ok out) {j : ℕ} {p : Partition}
    {x : Extent} (hp : ps[j]? = some p) (hx : out.placed[j]? = some x) (hfit : x.InEightBytes) :
    entry_extent st out j = x := by
  obtain ⟨⟨hfirst, hfirst'⟩, hlast, hlast'⟩ := hfit
  have hentry := (gpt_images hs hout).stored j p x hp hx
  have hread : ∀ v : ℤ, 0 ≤ v → v < 2 ^ 64 → ((leValue (leBytes 8 v) : ℕ) : ℤ) = v :=
    fun v h0 h => leValue_leBytes_of_lt h0 (by norm_num at h ⊢; exact h)
  have hfirst_bytes : slice out.primary_gpt (entry_position st j + 32) 8
      = leBytes 8 x.first_lba := by
    rw [← slice_slice _ _ 128 32 8 (by omega), hentry, slice_partition_entry_first]
  have hlast_bytes : slice out.primary_gpt (entry_position st j + 40) 8
      = leBytes 8 x.last_lba := by
    rw [← slice_slice _ _ 128 40 8 (by omega), hentry, slice_partition_entry_last]
  rw [entry_extent, hfirst_bytes, hlast_bytes, hread _ hfirst hfirst', hread _ hlast hlast']

/-- **All partitions of fixed size are held exactly if their sizes are whole sectors**: by the
ranges of the loop, and by the ranges in the entries where these fit in eight bytes. -/
theorem gpt_space_iff {st : Settings} {k : ℕ} {ps : List Partition} {rand : ℕ → ℕ}
    {out : GptTables} (hout : create_gpt_partition_table st k ps rand = .ok out) :
    ((∀ (j : ℕ) p x, ps[j]? = some p → out.placed[j]? = some x → ¬ grown st ps.length j →
        0 < p.size_in_kb → x.Holds st p.size_in_kb) ↔
      ∀ (j : ℕ) p, ps[j]? = some p → ¬ grown st ps.length j → 0 < p.size_in_kb →
        (st.sector_size_in_bytes : ℤ) ∣ p.size_in_kb * 1024) ∧
    (512 ≤ st.sector_size_in_bytes → (∀ x ∈ out.placed, x.InEightBytes) →
      ((∀ (j : ℕ) p, ps[j]? = some p → ¬ grown st ps.length j → 0 < p.size_in_kb →
          (entry_extent st out j).Holds st p.size_in_kb) ↔
        ∀ (j : ℕ) p, ps[j]? = some p → ¬ grown st ps.length j → 0 < p.size_in_kb →
          (st.sector_size_in_bytes : ℤ) ∣ p.size_in_kb * 1024)) := by
  -- there is a range for each partition
  have hplaced : ∀ (j : ℕ) p, ps[j]? = some p → ∃ x, out.placed[j]? = some x := by
    intro j p hp
    have hj : j < out.placed.length := by
      rw [(create_gpt_partition_table_shape hout).1]
      exact (List.getElem?_eq_some_iff.mp hp).1
    exact ⟨_, List.getElem?_eq_getElem hj⟩
  constructor
  · constructor
    · intro h j p hp hg hsize
      obtain ⟨x, hx⟩ := hplaced j p hp
      exact (extent_holds_iff hout hp hx hg hsize).mp (h j p x hp hx hg hsize)
    · intro h j p x hp hx hg hsize
      exact (extent_holds_iff hout hp hx hg hsize).mpr (h j p hp hg hsize)
  · intro hs hfit
    refine forall_congr' fun j => forall_congr' fun p => ?_
    refine forall_congr' fun hp => forall_congr' fun hg => forall_congr' fun hsize => ?_
    obtain ⟨x, hx⟩ := hplaced j p hp
    rw [entry_extent_eq hs hout hp hx (hfit x (List.mem_of_getElem? hx))]
    exact extent_holds_iff hout hp hx hg hsize

/-! ## Records of the MBR

What a pass writes stays, because later passes write behind it.
-/

section Records

variable {st : MbrSettings} {k n : ℕ}

/-- Later passes write behind a record, so what lies in front of them stays. -/
theorem add_primaries_front {ps : List MbrPartition} {j : ℕ} {s s' : MbrState}
    (h : add_primaries st k n j ps s = .ok s') {pos len : ℕ} (hend : pos + len ≤ 0x1BE + j * 16) :
    slice s'.mbr pos len = slice s.mbr pos len := by
  induction ps generalizing j s with
  | nil =>
    cases h
    rfl
  | cons p ps ih =>
    obtain ⟨t, ht, h⟩ := bind_ok h
    obtain ⟨hash_w, -, hroom, rfl⟩ := add_primary_spec ht
    have hfit : 0x1BE + j * 16 + (record_bytes p.bootable p.type s.cursor.first_lba
        (convert_kb_to_sectors st.toSettings p.size_in_kb)).length ≤ s.mbr.length := by
      rw [length_record_bytes]
      exact hroom
    rw [ih h (by omega)]
    exact slice_overwrite_of_disjoint hfit (.inl hend)

/-- The record of a primary partition has the sectors that its size is converted to. -/
theorem add_primaries_record {ps : List MbrPartition} {j : ℕ} {s s' : MbrState}
    (h : add_primaries st k n j ps s = .ok s') {i : ℕ} {p : MbrPartition} (hp : ps[i]? = some p) :
    ∃ first_lba, slice s'.mbr (0x1BE + (j + i) * 16) 16 = record_bytes p.bootable p.type first_lba
      (convert_kb_to_sectors st.toSettings p.size_in_kb) := by
  induction ps generalizing j i s with
  | nil => cases hp
  | cons q ps ih =>
    obtain ⟨t, ht, h⟩ := bind_ok h
    cases i with
    | zero =>
      cases hp
      obtain ⟨hash_w, -, hroom, rfl⟩ := add_primary_spec ht
      have hlen := length_record_bytes p.bootable p.type s.cursor.first_lba
        (convert_kb_to_sectors st.toSettings p.size_in_kb)
      have hself := slice_overwrite_self (show 0x1BE + j * 16 + (record_bytes p.bootable p.type
        s.cursor.first_lba (convert_kb_to_sectors st.toSettings p.size_in_kb)).length
          ≤ s.mbr.length by rw [hlen]; exact hroom)
      rw [hlen] at hself
      refine ⟨s.cursor.first_lba, ?_⟩
      -- the records behind it leave it alone
      rw [Nat.add_zero, add_primaries_front h (by omega)]
      exact hself
    | succ i =>
      rw [List.getElem?_cons_succ] at hp
      obtain ⟨first_lba, hrecord⟩ := ih h hp
      refine ⟨first_lba, ?_⟩
      rw [← hrecord]
      congr 2
      omega

/-- The passes over the primary partitions leave the offset in the EBRs alone. -/
theorem add_primaries_offset {ps : List MbrPartition} {j : ℕ} {s s' : MbrState}
    (h : add_primaries st k n j ps s = .ok s') : s'.offset = s.offset := by
  refine add_primaries_invariant (fun _ t => t.offset = s.offset) ?_ rfl h
  intro i p t t' _ hI hstep
  obtain ⟨hash_w, -, -, rfl⟩ := add_primary_spec hstep
  exact hI

/-! ## Records of the EBRs

The passes for the logical partitions leave the boot record alone and append to the EBRs, so
the record of each partition is in the image as it was written.
-/

/-- The passes over the logical partitions leave the boot record alone. -/
theorem add_logicals_mbr {begins : ℤ} {ps : List MbrPartition} {j : ℕ} {s s' : MbrState}
    (h : add_logicals st k n begins j ps s = .ok s') : s'.mbr = s.mbr := by
  refine add_logicals_invariant (fun _ t => t.mbr = s.mbr) ?_ rfl h
  intro i p t t' _ hI hstep
  obtain ⟨x, c, -, -, -, rfl⟩ := add_logical_spec hstep
  exact hI

/-- The sector appended in a pass has room for the records. -/
theorem ebr_records_fit {s : MbrState}
    (hroom : s.offset + 0x200 ≤ s.ebr.length + st.sector_size_in_bytes) (p : MbrPartition)
    (last : Bool) (j : ℕ) (start_sector size : ℤ) :
    s.offset + 0x1BE + (ebr_records p last j start_sector size).length
      ≤ (s.ebr ++ List.replicate st.sector_size_in_bytes 0).length := by
  rw [length_ebr_records, List.length_append, List.length_replicate]
  omega

/-- A pass appends to the EBRs and writes behind what is there. -/
theorem add_logicals_front {begins : ℤ} {ps : List MbrPartition} {j : ℕ} {s s' : MbrState}
    (h : add_logicals st k n begins j ps s = .ok s') {pos len : ℕ}
    (hend : pos + len ≤ s.offset + 0x1BE) (hin : pos + len ≤ s.ebr.length) :
    slice s'.ebr pos len = slice s.ebr pos len := by
  induction ps generalizing j s with
  | nil =>
    cases h
    rfl
  | cons p ps ih =>
    obtain ⟨t, ht, h⟩ := bind_ok h
    obtain ⟨x, c, -, -, hroom, rfl⟩ := add_logical_spec ht
    have hfit := ebr_records_fit hroom p (decide (j + 1 = n)) j
      (x.first_lba - begins - s.ebr_offset) x.sectors
    -- an EBR is written behind the part in question
    rw [ih h (by dsimp only; omega)
      (by rw [length_overwrite_of_le hfit, List.length_append]; omega),
      slice_overwrite_of_disjoint hfit (.inl hend), slice_append_left hin]

/-- The first record of an EBR has the sectors of its partition. -/
theorem add_logicals_record {begins : ℤ} {ps : List MbrPartition} {j : ℕ} {s s' : MbrState}
    (h : add_logicals st k n begins j ps s = .ok s') {i : ℕ} {p : MbrPartition}
    (hp : ps[i]? = some p) :
    ∃ start_sector, slice s'.ebr (s.offset + 0x200 * i + 0x1BE) 16
      = record_bytes p.bootable p.type start_sector
          (logical_size st (decide (j + i + 1 = n)) p) := by
  induction ps generalizing j i s with
  | nil => cases hp
  | cons q ps ih =>
    obtain ⟨t, ht, h⟩ := bind_ok h
    obtain ⟨x, c, hplace, -, hroom, rfl⟩ := add_logical_spec ht
    cases i with
    | zero =>
      cases hp
      have hsectors := (place_logical_spec hplace).sectors_eq
      have hlen := length_ebr_records p (decide (j + 1 = n)) j
        (x.first_lba - begins - s.ebr_offset) x.sectors
      have hfit := ebr_records_fit hroom p (decide (j + 1 = n)) j
        (x.first_lba - begins - s.ebr_offset) x.sectors
      -- the records of this EBR, at its front
      have hpart := slice_overwrite_part (p := 0) (n := 16) hfit (by rw [hlen]; decide)
      have hrecord : slice (ebr_records p (decide (j + 1 = n)) j
          (x.first_lba - begins - s.ebr_offset) x.sectors) 0 16
          = record_bytes p.bootable p.type (x.first_lba - begins - s.ebr_offset) x.sectors := by
        refine slice_of_append (a := []) (c := link_record (decide (j + 1 = n)) j
          ++ record_bytes false 0 0 0 ++ record_bytes false 0 0 0 ++ [0x55, 0xAA]) ?_ rfl
          (length_record_bytes _ _ _ _)
        simp only [ebr_records, link_record, List.nil_append, List.append_assoc]
      refine ⟨x.first_lba - begins - s.ebr_offset, ?_⟩
      rw [Nat.mul_zero, Nat.add_zero, Nat.add_zero, add_logicals_front h (by dsimp only; omega)
        (by rw [length_overwrite_of_le hfit, List.length_append, List.length_replicate]; omega)]
      rw [Nat.add_zero, hrecord] at hpart
      exact hpart.trans (congrArg (record_bytes p.bootable p.type _) hsectors)
    | succ i =>
      rw [List.getElem?_cons_succ] at hp
      obtain ⟨start_sector, hrecord⟩ := ih h hp
      -- the EBRs after it leave it alone
      have hindex : j + (i + 1) + 1 = j + 1 + i + 1 := by omega
      have hpos : s.offset + 0x200 * (i + 1) + 0x1BE = s.offset + 0x200 + 0x200 * i + 0x1BE := by
        omega
      exact ⟨start_sector, by rw [hindex, hpos]; exact hrecord⟩

end Records

/-! ## MBR

The size in a record has four bytes, so 2^32 sectors or more are not held, however the
conversion comes out.
-/

/-- The record of partition `j` of a list of `n`, in the boot record or in its EBR. -/
def record_of (n : ℕ) (out : MbrTables) (j : ℕ) : Record :=
  if n ≤ 4 ∨ j < 3 then Record.of_bytes (slice out.mbr (0x1BE + j * 16) 16)
  else Record.of_bytes (slice out.ebr (0x200 * (j - 3) + 0x1BE) 16)

/-- A logical partition of fixed size has the sectors of its size. -/
theorem logical_size_of_not_grown {st : MbrSettings} {n j : ℕ} (h : ¬ grown st.toSettings n j)
    (p : MbrPartition) :
    logical_size st (decide (j + 1 = n)) p = convert_kb_to_sectors st.toSettings p.size_in_kb := by
  unfold logical_size
  rw [if_neg]
  intro hb
  rw [Bool.and_eq_true, decide_eq_true_eq] at hb
  exact h hb

/-- The record of a partition of fixed size holds its sectors, in four bytes. -/
theorem size_of_record {st : MbrSettings} {k : ℕ} {ps : List MbrPartition} {out : MbrTables}
    (hout : create_mbr_partition_table st k ps = .ok out) {j : ℕ} {p : MbrPartition}
    (hp : ps[j]? = some p) (hg : ¬ grown st.toSettings ps.length j) :
    ((record_of ps.length out j).size : ℤ)
      = convert_kb_to_sectors st.toSettings p.size_in_kb % 2 ^ 32 := by
  rw [record_of]
  by_cases hfew : ps.length ≤ 4
  · obtain ⟨s, hs, hmbr⟩ : ∃ s, create_master_boot_record st k ps.length ps = .ok s ∧
        out.mbr = s.mbr := by
      unfold create_mbr_partition_table at hout
      dsimp only at hout
      rw [if_pos hfew] at hout
      obtain ⟨s, hs, hout⟩ := bind_ok hout
      rw [if_pos hfew] at hout
      obtain ⟨s', hs', hout⟩ := bind_ok hout
      cases hs'
      cases hout
      exact ⟨s, hs, rfl⟩
    obtain ⟨mbr, -, hrun⟩ := create_master_boot_record_spec hs
    obtain ⟨first_lba, hrecord⟩ := add_primaries_record hrun hp
    rw [Nat.zero_add] at hrecord
    rw [if_pos (.inl hfew), hmbr, hrecord, size_of_record_bytes]
  · obtain ⟨s, s', hs, hs', rfl⟩ := create_mbr_partition_table_many (not_le.mp hfew) hout
    obtain ⟨hash_w, -, hroom, hlogicals⟩ := create_extended_boot_records_spec hs'
    by_cases hprimary : j < 3
    · -- the record of the extended partition is the fourth
      obtain ⟨mbr, -, hrun⟩ := create_master_boot_record_spec hs
      obtain ⟨first_lba, hrecord⟩ := add_primaries_record hrun
        (show (ps.take 3)[j]? = some p by rw [List.getElem?_take, if_pos hprimary, hp])
      have hext := length_record_bytes false 5 s.cursor.first_lba
        (extended_length st s.cursor.first_lba)
      have hmbr : s'.mbr = overwrite s.mbr 0x1EE (record_bytes false 5 s.cursor.first_lba
          (extended_length st s.cursor.first_lba)) := add_logicals_mbr hlogicals
      rw [Nat.zero_add] at hrecord
      rw [if_pos (.inr hprimary), hmbr, slice_overwrite_of_disjoint (by rw [hext]; exact hroom)
        (.inl (by omega)), hrecord, size_of_record_bytes]
    · -- a logical partition has its record in an EBR
      obtain ⟨start_sector, hrecord⟩ := add_logicals_record hlogicals
        (show (ps.drop 3)[j - 3]? = some p by
          rw [List.getElem?_drop, Nat.add_sub_cancel' (not_lt.mp hprimary), hp])
      have hindex : 3 + (j - 3) + 1 = j + 1 := by omega
      rw [hindex, logical_size_of_not_grown hg] at hrecord
      have hpos : (extended_state st k (ps.drop 3).length s hash_w).offset = 0 := by
        obtain ⟨mbr, -, hrun⟩ := create_master_boot_record_spec hs
        exact add_primaries_offset hrun
      rw [hpos, Nat.zero_add] at hrecord
      rw [if_neg (by omega), hrecord, size_of_record_bytes]

/-- The record of a partition of fixed size is enough for it exactly if its size is whole
sectors, and fewer than 2^32 of them. -/
theorem record_holds_iff {st : MbrSettings} {k : ℕ} {ps : List MbrPartition} {out : MbrTables}
    (hout : create_mbr_partition_table st k ps = .ok out) {j : ℕ} {p : MbrPartition}
    (hp : ps[j]? = some p) (hg : ¬ grown st.toSettings ps.length j) (hsize : 0 < p.size_in_kb) :
    p.size_in_kb * 1024 ≤ (record_of ps.length out j).size * (st.sector_size_in_bytes : ℤ) ↔
      (st.sector_size_in_bytes : ℤ) ∣ p.size_in_kb * 1024 ∧
        p.size_in_kb * 1024 / st.sector_size_in_bytes < 2 ^ 32 := by
  have hs : (0 : ℤ) < st.sector_size_in_bytes := by exact_mod_cast st.sector_size_pos
  have hnonneg := convert_kb_to_sectors_nonneg st.toSettings hsize.le
  rw [size_of_record hout hp hg, ← sectors_hold_iff]
  have hdef : p.size_in_kb * 1024 / (st.sector_size_in_bytes : ℤ)
      = convert_kb_to_sectors st.toSettings p.size_in_kb := rfl
  have hle := Int.ediv_mul_le (p.size_in_kb * 1024) hs.ne'
  rw [hdef] at hle ⊢
  set sectors := convert_kb_to_sectors st.toSettings p.size_in_kb
  constructor
  · intro h
    -- what is left of the number is no less than the number
    have hmod : sectors ≤ sectors % 2 ^ 32 := Int.le_of_mul_le_mul_right (hle.trans h) hs
    have hlt := Int.emod_lt_of_pos sectors (show (0 : ℤ) < 2 ^ 32 by norm_num)
    have heq : sectors % 2 ^ 32 = sectors := Int.emod_eq_of_lt hnonneg (by omega)
    exact ⟨by rwa [heq] at h, by omega⟩
  · rintro ⟨h, hlt⟩
    rwa [Int.emod_eq_of_lt hnonneg hlt]

/-- Settings with sectors of 4096 bytes. -/
def large_sector_settings : Settings :=
  { plain_settings with sector_size_in_bytes := 4096, sector_size_pos := by decide }

end AndroidTools.Ptool
