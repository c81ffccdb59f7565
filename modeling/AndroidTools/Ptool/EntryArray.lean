/-
Where the entries are, against where the header says they are.

Three places compute the position of an entry. The loop keeps a running index that it realigns at
every fourth entry, the patch of a growing partition uses `40 + j * 128` from sector 2 on, and the
array CRC is taken from byte 1024 when the image is built and from sector 2 when it is patched.
They agree for sectors of 512 bytes. For larger sectors the realignment moves the fifth entry to
the next sector, and byte 1024 lies before the array; what is left is a list of at most four
partitions in a table of 128 entries whose window reaches that far.

`EntriesWhereHeaderSays` is the point of view of a reader, who has only the header to go by, and
`EntryPositionsAgree` the condition on the settings and on the number of partitions.
-/
import AndroidTools.Ptool.GptImage

set_option autoImplicit false

namespace AndroidTools.Ptool

open AndroidTools.Bytes

/-- The byte at which a header puts entry `j`: `PartitionEntryLBA * S + j *
SizeOfPartitionEntry`, read from the image. -/
def header_entry_position (st : Settings) (img : List UInt8) (j : ℕ) : ℕ :=
  leValue (slice img (st.sector_size_in_bytes + 72) 8) * st.sector_size_in_bytes
    + j * leValue (slice img (st.sector_size_in_bytes + 84) 4)

/-- Entries, growing patch and both CRC windows agree with the header. -/
structure EntriesWhereHeaderSays (st : Settings) (k : ℕ) (rand : ℕ → ℕ) (ps : List Partition)
    (out : GptTables) : Prop where
  position : ∀ j, header_entry_position st out.primary_gpt j
    = 2 * st.sector_size_in_bytes + j * 128
  stored : ∀ j p x, ps[j]? = some p → out.placed[j]? = some x →
    out.entry_offsets[j]? = some (header_entry_position st out.primary_gpt j) ∧
      Narrow p ∧
        slice out.primary_gpt (header_entry_position st out.primary_gpt j) 128
          = partition_entry p (unique_partition_guid st rand j p) x (label_bytes p)
  patched : st.grow_last_partition_to_fill_disk = true → ∀ j p x, j + 1 = ps.length →
    ps[j]? = some p → out.placed[j]? = some x → ∃ sector byte : ℕ, ∃ what : String,
      out.patches.head? = some (update_patch st k (toString sector) (toString byte) 8
        "NUM_DISK_SECTORS-34." (gpt_main k) what) ∧
      sector = 2 + (40 + j * 128) / st.sector_size_in_bytes ∧
      byte = (40 + j * 128) % st.sector_size_in_bytes ∧
      sector * st.sector_size_in_bytes + byte
        = header_entry_position st out.primary_gpt j + 40 ∧
      slice out.primary_gpt (sector * st.sector_size_in_bytes + byte) 8 = leBytes 8 x.last_lba
  built_crc : ∀ e ∈ out.entry_offsets, array_crc_start ≤ e ∧
    e + 128 ≤ array_crc_start + num_partitions st ps.length * size_of_partition_array
  patched_crc : ∀ e ∈ out.entry_offsets, 2 * st.sector_size_in_bytes ≤ e ∧
    e + 128 ≤ 2 * st.sector_size_in_bytes
      + num_partitions st ps.length * size_of_partition_array

/-- When the three computations agree: for sectors of 512 bytes, or for up to four partitions in a
table of 128 whose window reaches them. -/
def EntryPositionsAgree (st : Settings) (n : ℕ) : Prop :=
  st.sector_size_in_bytes = 512 ∨
    n ≤ 4 ∧ st.force128partitions = true ∧
      2 * st.sector_size_in_bytes + n * 128 ≤ array_crc_start + 128 * size_of_partition_array

section Header

variable {st : Settings} {k : ℕ} {rand : ℕ → ℕ} {ps : List Partition} {out : GptTables}

/-- By the header, entry `j` is `128 * j` bytes behind the start of sector 2. -/
theorem header_entry_position_eq (himg : GptImages st rand ps out) (j : ℕ) :
    header_entry_position st out.primary_gpt j = 2 * st.sector_size_in_bytes + j * 128 := by
  have hlba : leValue (slice (header_fields (num_partitions st ps.length)) 72 8) = 2 := by
    have : slice (header_fields (num_partitions st ps.length)) 72 8 = leBytes 8 2 := by
      simp only [slice, header_fields, gpt_signature, leBytes]
      rfl
    rw [this]
    decide
  have hsize : leValue (slice (header_fields (num_partitions st ps.length)) 84 4) = 128 := by
    have : slice (header_fields (num_partitions st ps.length)) 84 4
        = leBytes 4 size_of_partition_array := by
      simp only [slice, header_fields, gpt_signature, leBytes]
      rfl
    rw [this]
    decide
  rw [header_entry_position, himg.header 72 8 (by omega) (by omega),
    himg.header 84 4 (by omega) (by omega), hlba, hsize]

theorem mem_entry_offsets (himg : GptImages st rand ps out) {e : ℕ} :
    e ∈ out.entry_offsets ↔ ∃ j < ps.length, entry_position st j = e := by
  rw [himg.offsets]
  simp

theorem getElem?_entry_offsets (himg : GptImages st rand ps out) {j : ℕ} (hj : j < ps.length) :
    out.entry_offsets[j]? = some (entry_position st j) := by
  rw [himg.offsets, List.getElem?_map, List.getElem?_range hj, Option.map_some]

/-- The first patch of a growing list is for the end of its last entry. -/
theorem growing_patch_head (hout : create_gpt_partition_table st k ps rand = .ok out)
    (hgrow : st.grow_last_partition_to_fill_disk = true) {j : ℕ} {p : Partition}
    (hj : j + 1 = ps.length) (hp : ps[j]? = some p) :
    out.patches.head? = (last_partition_patches st k j p).head? := by
  have hlast : ps.getLast? = some p := by
    rw [List.getLast?_eq_getElem?, ← hj]
    exact hp
  have hj' : 0 + ps.length - 1 = j := by omega
  rw [(create_gpt_partition_table_shape hout).2.2, growing_patches, hlast]
  simp only [hgrow, if_true, hj']
  rfl

/-- The bytes of an entry that hold its first sector. -/
theorem slice_partition_entry_first (p : Partition) (guid : ℕ) (x : Extent)
    (label : List UInt8) :
    slice (partition_entry p guid x label) 32 8 = leBytes 8 x.first_lba := by
  refine slice_of_append (a := leBytes 16 p.type ++ leBytes 16 guid)
    (c := leBytes 8 x.last_lba ++ leBytes 8 (attributes p) ++ label) ?_ ?_ (length_leBytes _ _)
  · simp only [partition_entry, List.append_assoc]
  · simp only [List.length_append, length_leBytes]

/-- The bytes of an entry that hold its last sector. -/
theorem slice_partition_entry_last (p : Partition) (guid : ℕ) (x : Extent)
    (label : List UInt8) :
    slice (partition_entry p guid x label) 40 8 = leBytes 8 x.last_lba := by
  refine slice_of_append (a := leBytes 16 p.type ++ leBytes 16 guid ++ leBytes 8 x.first_lba)
    (c := leBytes 8 (attributes p) ++ label) ?_ ?_ (length_leBytes _ _)
  · simp only [partition_entry, List.append_assoc]
  · simp only [List.length_append, length_leBytes]

/-! ## When they agree

With sectors of 512 bytes four entries fill a sector exactly, so realigning moves nothing.
With at most four partitions it is never done.
-/

/-- Position of an entry in closed form, when the sectors do not get in the way. -/
theorem entry_position_packed {n : ℕ} (hpacked : st.sector_size_in_bytes = 512 ∨ n ≤ 4) {j : ℕ}
    (hj : j < n) : entry_position st j = 2 * st.sector_size_in_bytes + j * 128 := by
  unfold entry_position
  rcases hpacked with h512 | hn
  · rw [h512]
    omega
  · have hdiv : j / 4 = 0 := by omega
    rw [hdiv]
    omega

theorem entry_position_eq (hagree : EntryPositionsAgree st ps.length) {j : ℕ}
    (hj : j < ps.length) : entry_position st j = 2 * st.sector_size_in_bytes + j * 128 :=
  entry_position_packed (hagree.imp_right And.left) hj

theorem entries_where_header_says (hs : 512 ≤ st.sector_size_in_bytes) (hn : ps.length ≤ 128)
    (hout : create_gpt_partition_table st k ps rand = .ok out)
    (hagree : EntryPositionsAgree st ps.length) : EntriesWhereHeaderSays st k rand ps out := by
  have himg := gpt_images hs hout
  have hpos := header_entry_position_eq himg
  refine ⟨hpos, ?_, ?_, ?_, ?_⟩
  · intro j p x hp hx
    have hj := (List.getElem?_eq_some_iff.mp hp).1
    rw [hpos, ← entry_position_eq hagree hj]
    exact ⟨getElem?_entry_offsets himg hj, himg.narrow p (List.mem_of_getElem? hp),
      himg.stored j p x hp hx⟩
  · intro hgrow j p x hlast hp hx
    have hj := (List.getElem?_eq_some_iff.mp hp).1
    -- the sector and the offset that the patch is given make up the entry's address
    have haddr : (2 + (40 + j * 128) / st.sector_size_in_bytes) * st.sector_size_in_bytes
        + (40 + j * 128) % st.sector_size_in_bytes
          = 2 * st.sector_size_in_bytes + j * 128 + 40 := by
      rw [Nat.add_mul, Nat.add_assoc, Nat.div_add_mod']
      omega
    refine ⟨_, _, _, growing_patch_head hout hgrow hlast hp, rfl, rfl, by rw [haddr, hpos], ?_⟩
    have hslice := himg.stored j p x hp hx
    rw [haddr, ← entry_position_eq hagree hj, ← slice_slice _ _ 128 40 8 (by omega), hslice,
      slice_partition_entry_last]
  · intro e he
    obtain ⟨j, hj, rfl⟩ := (mem_entry_offsets himg).mp he
    rw [entry_position_eq hagree hj]
    have hnp := le_num_partitions st hn
    -- the checksum covers 128 entries in either case, from the start the header has
    rcases hagree with h512 | ⟨hn4, hforce, hroom⟩
    · rw [h512, array_crc_start, size_of_partition_array]
      omega
    · have h128 : num_partitions st ps.length = 128 := if_pos hforce
      rw [h128]
      rw [array_crc_start] at hroom ⊢
      omega
  · intro e he
    obtain ⟨j, hj, rfl⟩ := (mem_entry_offsets himg).mp he
    rw [entry_position_eq hagree hj, size_of_partition_array]
    have hnp := le_num_partitions st hn
    omega

/-! ## When they do not

With larger sectors the fifth entry goes to the next sector, and the window of the CRC
begins in front of the array, so it may not contain all of it. Both are compared with what
the header says.
-/

/-- With larger sectors the fifth entry is not where the header says. -/
theorem length_le_four (hs : 512 < st.sector_size_in_bytes)
    (hout : create_gpt_partition_table st k ps rand = .ok out)
    (h : EntriesWhereHeaderSays st k rand ps out) : ps.length ≤ 4 := by
  have himg := gpt_images hs.le hout
  by_contra hn
  have hj : 4 < ps.length := by omega
  have hlen := (create_gpt_partition_table_shape hout).1
  have hstored := (h.stored 4 (ps.get ⟨4, hj⟩) (out.placed.get ⟨4, by omega⟩)
    (List.getElem?_eq_getElem hj) (List.getElem?_eq_getElem (by omega))).1
  rw [getElem?_entry_offsets himg hj, h.position, Option.some.injEq, entry_position] at hstored
  omega

/-- With larger sectors the CRC window of the image reaches the entries only in a table of 128. -/
theorem window_reaches (hs : 1024 ≤ st.sector_size_in_bytes) (hpos : 0 < ps.length)
    (hout : create_gpt_partition_table st k ps rand = .ok out)
    (h : EntriesWhereHeaderSays st k rand ps out) (hn : ps.length ≤ 4) :
    st.force128partitions = true ∧
      2 * st.sector_size_in_bytes + ps.length * 128
        ≤ array_crc_start + 128 * size_of_partition_array := by
  have himg := gpt_images (by omega) hout
  have hlast := (h.built_crc (entry_position st (ps.length - 1))
    ((mem_entry_offsets himg).mpr ⟨ps.length - 1, by omega, rfl⟩)).2
  have hdiv : (ps.length - 1) / 4 = 0 := by omega
  have hmod : (ps.length - 1) % 4 = ps.length - 1 := by omega
  rw [entry_position, hdiv, hmod] at hlast
  by_cases hforce : st.force128partitions = true
  · have h128 : num_partitions st ps.length = 128 := if_pos hforce
    rw [h128] at hlast
    exact ⟨hforce, by omega⟩
  · exfalso
    have h4 : num_partitions st ps.length ≤ 4 := by
      rw [num_partitions, if_neg hforce]
      split_ifs <;> omega
    have hwin : num_partitions st ps.length * size_of_partition_array ≤ 4 * 128 :=
      Nat.mul_le_mul_right _ h4
    rw [array_crc_start] at hlast
    omega

end Header

/-- **Entries are where the header says** exactly for sectors of 512 bytes, and for up to four
partitions in a table of 128 entries that byte 1024 still reaches. -/
theorem entries_where_header_says_iff (st : Settings) (k : ℕ) (ps : List Partition)
    (rand : ℕ → ℕ) (out : GptTables) (hs : 512 ∣ st.sector_size_in_bytes)
    (hpos : 0 < ps.length) (hn : ps.length ≤ 128)
    (hout : create_gpt_partition_table st k ps rand = .ok out) :
    EntriesWhereHeaderSays st k rand ps out ↔ EntryPositionsAgree st ps.length := by
  have h512 := Nat.le_of_dvd st.sector_size_pos hs
  refine ⟨fun h => ?_, fun hagree => entries_where_header_says h512 hn hout hagree⟩
  rcases Nat.eq_or_lt_of_le h512 with heq | hlt
  · exact Or.inl heq.symm
  · have h1024 : 1024 ≤ st.sector_size_in_bytes := by omega
    have h4 := length_le_four hlt hout h
    obtain ⟨hforce, hroom⟩ := window_reaches h1024 hpos hout h h4
    exact Or.inr ⟨h4, hforce, hroom⟩

theorem entries_where_header_says_512 : ∃ out, create_gpt_partition_table plain_settings 0
    (sized_partitions [10, 5]) (fun j => j) = .ok out ∧
      EntriesWhereHeaderSays plain_settings 0 (fun j => j) (sized_partitions [10, 5]) out := by
  obtain ⟨out, hout⟩ := plain_run [10, 5] (by decide)
  exact ⟨out, hout, (entries_where_header_says_iff plain_settings 0 _ _ out (by decide)
    (by decide) (by decide) hout).mpr (Or.inl rfl)⟩

/-- Five partitions on sectors of 4096 bytes: the fifth entry is at sector 3, the
header puts it 512 bytes into sector 2. -/
theorem entries_not_where_header_says :
    ∃ st : Settings, st.sector_size_in_bytes = 4096 ∧
      ∃ out, create_gpt_partition_table st 0 (sized_partitions [10, 10, 10, 10, 10])
        (fun j => j) = .ok out ∧
      ¬ EntriesWhereHeaderSays st 0 (fun j => j) (sized_partitions [10, 10, 10, 10, 10]) out := by
  refine ⟨{ plain_settings with sector_size_in_bytes := 4096, sector_size_pos := by decide },
    rfl, ?_⟩
  have husable : SettingsUsable
      { plain_settings with sector_size_in_bytes := 4096, sector_size_pos := by decide }
      (sized_partitions [10, 10, 10, 10, 10]) := ⟨by decide, by decide, by decide⟩
  obtain ⟨out, hout⟩ := create_gpt_partition_table_total (by decide) 0 (fun j => j) husable
    (by decide) (by decide)
  refine ⟨out, hout, fun h => ?_⟩
  have := length_le_four (by decide) hout h
  exact absurd this (by decide)

end AndroidTools.Ptool
