/-
What is in the images.

For sectors of at least 512 bytes the running index of the entry loop has a
closed form, `entry_position`: every fourth entry starts a new sector. From it
follow the room for 128 entries, the entry bytes in the finished image
(`GptImages.stored`), the fields of the two headers, and that the call succeeds
(`create_gpt_partition_table_total`): usable settings, at most 128 partitions and
labels of one-byte characters are all it needs.

The last of these is needed. A value above 255 that the loop puts into an entry
lies behind the header, nothing written later covers it, and `WriteGPT` raises for
it (`write_gpt_ok_iff`); so a call that returns had only such labels
(`GptImages.narrow`).
-/
import AndroidTools.Ptool.Loop

set_option autoImplicit false

namespace AndroidTools.Ptool

open AndroidTools.Bytes AndroidTools.Crc32 AndroidTools.Crc AndroidTools.Passes

/-! ## The running index

The index at which entries are written is realigned to the sector before every fourth one.
In closed form entry `j` is in sector `2 + j / 4`, and entries do not overlap.
-/

/-- The byte of the image at which the loop writes entry `j`. -/
def entry_position (st : Settings) (j : ℕ) : ℕ :=
  (2 + j / 4) * st.sector_size_in_bytes + j % 4 * 128

theorem entry_offset_zero (st : Settings) :
    entry_offset st 0 (2 * st.sector_size_in_bytes) = entry_position st 0 := by
  simp [entry_offset, entry_position]

theorem two_sectors_le_entry_position (st : Settings) (j : ℕ) :
    2 * st.sector_size_in_bytes ≤ entry_position st j :=
  (Nat.mul_le_mul_right _ (Nat.le_add_right 2 _)).trans (Nat.le_add_right _ _)

section Index

variable {st : Settings} (hs : 512 ≤ st.sector_size_in_bytes)

include hs

/-- The entries of one sector follow each other, the fifth starts the next. -/
theorem entry_offset_succ (j : ℕ) :
    entry_offset st (j + 1) (entry_position st j + 128) = entry_position st (j + 1) := by
  unfold entry_offset
  by_cases hj : (j + 1) % 4 = 0
  · have hdiv : (j + 1) / 4 = j / 4 + 1 := by omega
    have hmod : j % 4 = 3 := by omega
    have hpos : entry_position st j + 128 = (2 + j / 4) * st.sector_size_in_bytes + 512 := by
      rw [entry_position, hmod]
    have hnext : entry_position st (j + 1)
        = (2 + j / 4) * st.sector_size_in_bytes + st.sector_size_in_bytes := by
      rw [entry_position, hj, hdiv]
      ring
    rw [hpos, hnext, Nat.mul_add_mod']
    rcases Nat.eq_or_lt_of_le hs with h512 | h512
    · -- four entries fill a sector of 512 bytes
      rw [← h512]
      simp
    · rw [Nat.mod_eq_of_lt h512, if_pos ⟨hj, by decide⟩]
      omega
  · have hdiv : (j + 1) / 4 = j / 4 := by omega
    have hmod : (j + 1) % 4 = j % 4 + 1 := by omega
    rw [if_neg (fun h => hj h.1), entry_position, entry_position, hdiv, hmod]
    ring

/-- Entries do not overlap: each ends where the next one starts, or before. -/
theorem entry_position_lt {i j : ℕ} (hij : i < j) :
    entry_position st i + 128 ≤ entry_position st j := by
  unfold entry_position
  rcases Nat.eq_or_lt_of_le (Nat.div_le_div_right (c := 4) hij.le) with h | h
  · rw [h]
    omega
  · have hsector : (2 + i / 4) * st.sector_size_in_bytes + st.sector_size_in_bytes
        ≤ (2 + j / 4) * st.sector_size_in_bytes := by
      rw [← Nat.succ_mul]
      exact Nat.mul_le_mul_right _ (by omega)
    omega

/-- There is room for 128 entries in the 32 sectors behind the header. -/
theorem entry_position_room {j : ℕ} (hj : j < 128) :
    entry_position st j + 128 ≤ 34 * st.sector_size_in_bytes := by
  have hsector : (2 + j / 4) * st.sector_size_in_bytes ≤ 33 * st.sector_size_in_bytes :=
    Nat.mul_le_mul_right _ (by omega)
  unfold entry_position
  omega

end Index

/-! ## Characters that are no bytes

A character above 255 is stored as a value that is no byte, and only writing the file
raises. What is written behind the loop could cover such a value; the entries are behind
everything that is written there, so it does not.
-/

/-- Every character of the name, as far as it is stored, is a byte. -/
def Narrow (p : Partition) : Prop := (short_label p).all (·.toNat < 256) = true

instance (p : Partition) : Decidable (Narrow p) := instDecidableEqBool _ _

theorem wide_positions_eq_nil_iff (p : Partition) (i : ℕ) :
    wide_positions p i = [] ↔ Narrow p := by
  have hlen := length_short_label p
  rw [wide_positions, List.map_eq_nil_iff, List.filter_eq_nil_iff, Narrow, List.all_eq_true]
  constructor
  · intro h c hc
    obtain ⟨t, ht, rfl⟩ := List.getElem_of_mem hc
    have hnot := h t (List.mem_range.mpr (ht.trans_le hlen))
    rw [List.getElem?_eq_getElem ht, Option.any_some, decide_eq_true_iff] at hnot
    exact decide_eq_true (Nat.lt_of_not_le hnot)
  · intro h t _ hwide
    rw [Option.any_eq_true] at hwide
    obtain ⟨c, hc, hwide⟩ := hwide
    have hbyte := of_decide_eq_true (h c (List.mem_of_getElem? hc))
    have := of_decide_eq_true hwide
    omega

theorem le_of_mem_wide_positions {p : Partition} {i b : ℕ} (h : b ∈ wide_positions p i) :
    i ≤ b := by
  obtain ⟨t, -, rfl⟩ := List.mem_map.mp h
  omega

/-- Behind the header nothing is written a second time, so one such value is enough. -/
theorem write_gpt_ok_iff {st : Settings} (hs : 512 ≤ st.sector_size_in_bytes) {wide : List ℕ}
    (hwide : ∀ b ∈ wide, 2 * st.sector_size_in_bytes ≤ b) :
    write_gpt st wide = .ok () ↔ wide = [] := by
  have hkept : ∀ b ∈ wide, rewritten st b = false := by
    intro b hb
    have := hwide b hb
    simp only [rewritten, Bool.or_eq_false_iff, Bool.and_eq_false_iff, decide_eq_false_iff_not]
    omega
  rw [write_gpt]
  cases wide with
  | nil => exact iff_of_true (if_pos rfl) rfl
  | cons b wide =>
    rw [List.all_cons, hkept b List.mem_cons_self, Bool.false_and, if_neg Bool.false_ne_true]
    exact iff_of_false (fun h => nomatch h) (List.cons_ne_nil b wide)

/-- The places of the first `j` entries with a value that is no byte. -/
def wide_entries (st : Settings) (ps : List Partition) (j : ℕ) : List ℕ :=
  (List.range j).flatMap fun i => (ps[i]?.map (wide_positions · (entry_position st i))).getD []

theorem wide_entries_succ {st : Settings} {ps : List Partition} {j : ℕ} {p : Partition}
    (hp : ps[j]? = some p) :
    wide_entries st ps (j + 1) = wide_entries st ps j ++ wide_positions p (entry_position st j) := by
  rw [wide_entries, List.range_succ, List.flatMap_append, List.flatMap_singleton, hp]
  rfl

theorem le_of_mem_wide_entries {st : Settings} {ps : List Partition} {j b : ℕ}
    (h : b ∈ wide_entries st ps j) : 2 * st.sector_size_in_bytes ≤ b := by
  obtain ⟨i, -, hb⟩ := List.mem_flatMap.mp h
  have h2 := two_sectors_le_entry_position st i
  cases hp : ps[i]? with
  | none =>
    rw [hp] at hb
    exact absurd hb List.not_mem_nil
  | some p =>
    rw [hp] at hb
    have := le_of_mem_wide_positions hb
    omega

theorem wide_entries_eq_nil_iff (st : Settings) (ps : List Partition) :
    wide_entries st ps ps.length = [] ↔ ∀ p ∈ ps, Narrow p := by
  rw [wide_entries, List.flatMap_eq_nil_iff]
  constructor
  · intro h p hp
    obtain ⟨i, hi, rfl⟩ := List.getElem_of_mem hp
    have hnil := h i (List.mem_range.mpr hi)
    rw [List.getElem?_eq_getElem hi, Option.map_some, Option.getD_some] at hnil
    exact (wide_positions_eq_nil_iff _ _).mp hnil
  · intro h i hi
    rw [List.getElem?_eq_getElem (List.mem_range.mp hi), Option.map_some, Option.getD_some]
    exact (wide_positions_eq_nil_iff _ _).mpr (h _ (List.getElem_mem _))

/-! ## The entries

The invariant of the loop: the entries passed are at their places, the rest of the image is
as it was, and the running index is behind the last of them.
-/

/-- The image and the running index after `j` passes: the entries passed are at their places, and
what the loop remembers of them is right. -/
structure EntriesWritten (st : Settings) (rand : ℕ → ℕ) (ps : List Partition) (j : ℕ)
    (t : TableState) : Prop where
  next : entry_offset st j t.i = entry_position st j
  length : t.primary_gpt.length = 34 * st.sector_size_in_bytes
  placed : t.placed.length = j
  offsets : t.entry_offsets = (List.range j).map (entry_position st)
  wide : t.wide = wide_entries st ps j
  stored : ∀ i p x, ps[i]? = some p → t.placed[i]? = some x →
    slice t.primary_gpt (entry_position st i) 128
      = partition_entry p (unique_partition_guid st rand i p) x (label_bytes p)
  zero : ∀ b < 34 * st.sector_size_in_bytes,
    (∀ i < j, b < entry_position st i ∨ entry_position st i + 128 ≤ b) →
      t.primary_gpt[b]? = some 0

theorem entries_written_start {st : Settings} (rand : ℕ → ℕ) (ps : List Partition) (h : WPHash) :
    EntriesWritten st rand ps 0 (starting_state st h) where
  next := entry_offset_zero st
  length := List.length_replicate
  placed := rfl
  offsets := rfl
  wide := rfl
  stored := by simp [starting_state]
  zero := by
    intro b hb _
    rw [starting_state, List.getElem?_replicate, if_pos hb]

theorem entries_written_step {st : Settings} (hs : 512 ≤ st.sector_size_in_bytes) {k n : ℕ}
    {rand : ℕ → ℕ} {ps : List Partition} {j : ℕ} {p : Partition} {t t' : TableState}
    (hp : ps[j]? = some p) (hI : EntriesWritten st rand ps j t)
    (ht : add_partition st k n rand j p t = .ok t') :
    EntriesWritten st rand ps (j + 1) t' := by
  obtain ⟨c, -, hroom, rfl⟩ := add_partition_spec ht
  rw [hI.next] at hroom ⊢
  have hlen := length_partition_entry p (unique_partition_guid st rand j p) c.extent
  have hin : entry_position st j + (partition_entry p (unique_partition_guid st rand j p)
      c.extent (label_bytes p)).length ≤ t.primary_gpt.length := by rw [hlen]; exact hroom
  refine ⟨entry_offset_succ hs j, ?_, ?_, ?_, ?_, ?_, ?_⟩
  · dsimp only
    rw [length_overwrite_of_le hin, hI.length]
  · simp [hI.placed]
  · simp [hI.offsets, List.range_succ]
  · dsimp only
    rw [hI.wide, wide_entries_succ hp]
  · intro i q x hq hx
    dsimp only at hx ⊢
    rcases Nat.lt_or_ge i j with hij | hij
    · rw [List.getElem?_append_left (by rw [hI.placed]; exact hij)] at hx
      rw [slice_overwrite_of_disjoint hin (Or.inl (entry_position_lt hs hij)),
        hI.stored i q x hq hx]
    · -- the entry of this pass
      have hi : i = j := by
        have := (List.getElem?_eq_some_iff.mp hx).1
        rw [List.length_append, hI.placed, List.length_singleton] at this
        omega
      subst hi
      rw [hp] at hq
      cases hq
      rw [List.getElem?_append_right (by rw [hI.placed]), hI.placed, Nat.sub_self] at hx
      cases hx
      have hself := slice_overwrite_self hin
      rwa [hlen] at hself
  · intro b hb hclear
    dsimp only
    have hnot := hclear j (Nat.lt_succ_self j)
    rw [getElem?_overwrite hin, hlen, if_neg (by omega)]
    exact hI.zero b hb fun i hi => hclear i (by omega)

theorem add_partitions_written {st : Settings} (hs : 512 ≤ st.sector_size_in_bytes) {k n : ℕ}
    {rand : ℕ → ℕ} {ps : List Partition} {h : WPHash} {s : TableState}
    (hrun : add_partitions st k n rand 0 ps (starting_state st h) = .ok s) :
    EntriesWritten st rand ps ps.length s := by
  have := add_partitions_invariant (fun j t => EntriesWritten st rand ps j t)
    (fun i p t t' hp hI ht => ?_) (entries_written_start rand ps h) hrun
  · rwa [Nat.zero_add] at this
  · rw [Nat.zero_add] at hI ht ⊢
    exact entries_written_step hs hp hI ht

/-! ## The headers

The protective MBR and the two headers, each as an overwriting of one window of the image.
For sectors of at least 512 bytes the windows do not meet.
-/

theorem set_slice_eq_overwrite {img vs : List UInt8} {i : ℕ}
    (h : i + vs.length ≤ img.length) : set_slice img i vs = overwrite img i vs :=
  (overwrite_eq_splice h).symm

/-- The protective MBR fits a sector and stays in its first 512 bytes. -/
theorem write_protective_mbr_spec (st : Settings) {img : List UInt8} (h : 512 ≤ img.length) :
    ∃ img', write_protective_mbr st img = .ok img' ∧ img'.length = img.length ∧
      ∀ i, 512 ≤ i → img'[i]? = img[i]? := by
  -- one write inside the first 512 bytes
  have hstep : ∀ (f : List UInt8) (pos : ℕ) (d : List UInt8), f.length = img.length →
      pos + d.length ≤ 512 → pos + d.length ≤ f.length ∧
        (overwrite f pos d).length = img.length ∧
        ((∀ i, 512 ≤ i → f[i]? = img[i]?) → ∀ i, 512 ≤ i → (overwrite f pos d)[i]? = img[i]?) := by
    intro f pos d hf hd
    have hle : pos + d.length ≤ f.length := by omega
    refine ⟨hle, by rw [length_overwrite_of_le hle, hf], fun hsame i hi => ?_⟩
    rw [getElem?_overwrite hle, if_neg (by omega), hsame i hi]
  have hsig : (leBytes 4 st.disk_signature).reverse.length = 4 := by
    rw [List.length_reverse, length_leBytes]
  obtain ⟨h₁, l₁, s₁⟩ := hstep img 0x1BE [0x00, 0x00, 0x01, 0x00, 0xEE, 0xFF, 0xFF, 0xFF] rfl
    (by decide)
  obtain ⟨h₂, l₂, s₂⟩ := hstep _ (0x1BE + 8) [0x01, 0x00, 0x00, 0x00] l₁ (by decide)
  obtain ⟨h₃, l₃, s₃⟩ := hstep _ (0x1BE + 12) [0xFF, 0xFF, 0xFF, 0xFF] l₂ (by decide)
  obtain ⟨h₄, l₄, s₄⟩ := hstep _ 440 (leBytes 4 st.disk_signature).reverse l₃ (by omega)
  obtain ⟨h₅, l₅, s₅⟩ := hstep _ 510 [0x55, 0xAA] l₄ (by decide)
  refine ⟨_, ?_, l₅, s₅ (s₄ (s₃ (s₂ (s₁ fun _ _ => rfl))))⟩
  unfold write_protective_mbr
  simp only [set_bytes_of_le h₁, ok_bind, set_slice_eq_overwrite h₂, set_slice_eq_overwrite h₃,
    set_bytes_of_le h₄, set_slice_eq_overwrite h₅]
  rfl

@[simp] theorem length_header_fields (np : ℕ) : (header_fields np).length = 88 := by
  simp [header_fields, gpt_signature]

theorem table_crc32_of_le {array : List UInt8} {len : ℕ} (h : len ≤ array.length) :
    table_crc32 array len = .ok (crc32 (array.take len)) := by
  rw [table_crc32, calc_crc32_of_le h]

theorem table_crc32_ok {array : List UInt8} {len crc : ℕ} (h : table_crc32 array len = .ok crc) :
    crc = crc32 (array.take len) := by
  unfold table_crc32 calc_crc32 at h
  split_ifs at h with hle
  cases h
  exact calc_bytes_eq_crc32 _

/-- The three writes of the primary header. -/
theorem write_primary_header_ok {st : Settings} {n : ℕ} {img img' : List UInt8}
    (h : write_primary_header st n img = .ok img') :
    ∃ img₁ img₂ partitions_crc header_crc,
      img₁ = overwrite img st.sector_size_in_bytes (header_fields (num_partitions st n)) ∧
      partitions_crc = crc32 (slice img₁ array_crc_start
        (num_partitions st n * size_of_partition_array)) ∧
      img₂ = overwrite img₁ (st.sector_size_in_bytes + 88) (leBytes 4 partitions_crc) ∧
      header_crc = crc32 (slice img₂ st.sector_size_in_bytes 92) ∧
      img' = overwrite img₂ (st.sector_size_in_bytes + 16) (leBytes 4 header_crc) ∧
      st.sector_size_in_bytes + 92 ≤ img.length := by
  unfold write_primary_header at h
  obtain ⟨img₁, h₁, h⟩ := bind_ok h
  obtain ⟨crc₁, hcrc₁, h⟩ := bind_ok h
  obtain ⟨img₂, h₂, h⟩ := bind_ok h
  obtain ⟨crc₂, hcrc₂, h⟩ := bind_ok h
  obtain ⟨hle₁, rfl⟩ := set_bytes_ok h₁
  obtain ⟨hle₂, rfl⟩ := set_bytes_ok h₂
  obtain ⟨-, rfl⟩ := set_bytes_ok h
  rw [length_overwrite_of_le hle₁, length_leBytes] at hle₂
  exact ⟨_, _, _, _, rfl, table_crc32_ok hcrc₁, rfl, table_crc32_ok hcrc₂, rfl, by omega⟩

theorem write_primary_header_total (st : Settings) (n : ℕ) (img : List UInt8)
    (h : st.sector_size_in_bytes + 92 ≤ img.length)
    (harray : array_crc_start + num_partitions st n * size_of_partition_array ≤ img.length) :
    ∃ img', write_primary_header st n img = .ok img' := by
  have h₁ : st.sector_size_in_bytes + (header_fields (num_partitions st n)).length
      ≤ img.length := by
    rw [length_header_fields]
    omega
  unfold write_primary_header
  dsimp only
  rw [set_bytes_of_le h₁, ok_bind,
    table_crc32_of_le (by rw [List.length_drop, length_overwrite_of_le h₁]; omega), ok_bind]
  have h₂ : ∀ crc : ℕ, st.sector_size_in_bytes + 88 + (leBytes 4 crc).length
      ≤ (overwrite img st.sector_size_in_bytes (header_fields (num_partitions st n))).length := by
    intro crc
    rw [length_leBytes, length_overwrite_of_le h₁]
    omega
  rw [set_bytes_of_le (h₂ _), ok_bind, table_crc32_of_le
    (by rw [List.length_drop, length_overwrite_of_le (h₂ _), length_overwrite_of_le h₁]; omega),
    ok_bind]
  refine ⟨_, set_bytes_of_le ?_⟩
  rw [length_leBytes, length_overwrite_of_le (h₂ _), length_overwrite_of_le h₁]
  omega

/-- The primary header: everything but the two CRCs is as written, and nothing
past the header's sector changes. -/
theorem write_primary_header_spec {st : Settings} (hs : 512 ≤ st.sector_size_in_bytes) {n : ℕ}
    {img img' : List UInt8} (h : write_primary_header st n img = .ok img') :
    img'.length = img.length ∧
      (∀ i, 2 * st.sector_size_in_bytes ≤ i → img'[i]? = img[i]?) ∧
      ∀ p w, (p + w ≤ 16 ∨ 20 ≤ p) → p + w ≤ 88 →
        slice img' (st.sector_size_in_bytes + p) w
          = slice (header_fields (num_partitions st n)) p w := by
  obtain ⟨img₁, img₂, crc₁, crc₂, rfl, -, rfl, -, rfl, hroom⟩ := write_primary_header_ok h
  have hlen := length_header_fields (num_partitions st n)
  -- three writes, each inside the image: the fields, the array's CRC and the header's
  have h₁ : st.sector_size_in_bytes + (header_fields (num_partitions st n)).length
      ≤ img.length := by omega
  have hl₁ := length_overwrite_of_le h₁
  have h₂ : st.sector_size_in_bytes + 88 + (leBytes 4 crc₁).length
      ≤ (overwrite img st.sector_size_in_bytes (header_fields (num_partitions st n))).length := by
    rw [length_leBytes]
    omega
  have hl₂ := length_overwrite_of_le h₂
  have h₃ : st.sector_size_in_bytes + 16 + (leBytes 4 crc₂).length
      ≤ (overwrite (overwrite img st.sector_size_in_bytes
          (header_fields (num_partitions st n))) (st.sector_size_in_bytes + 88)
          (leBytes 4 crc₁)).length := by
    rw [length_leBytes]
    omega
  refine ⟨by rw [length_overwrite_of_le h₃, hl₂, hl₁], fun i hi => ?_, fun p w hcrc hw => ?_⟩
  · rw [getElem?_overwrite h₃, length_leBytes, if_neg (by omega), getElem?_overwrite h₂,
      length_leBytes, if_neg (by omega), getElem?_overwrite h₁, if_neg (by omega)]
  · rw [slice_overwrite_of_disjoint h₃ (by rw [length_leBytes]; omega),
      slice_overwrite_of_disjoint h₂ (by omega), slice_overwrite_part h₁ (by omega)]

/-- The backup image is the array and a copy of the header, in which `CurrentLBA`,
`BackupLBA`, `PartitionsLBA` and the CRC are its own. -/
theorem make_backup_gpt_spec {st : Settings} (hs : 512 ≤ st.sector_size_in_bytes)
    {primary backup : List UInt8} (hlen : primary.length = 34 * st.sector_size_in_bytes)
    (h : make_backup_gpt st primary = .ok backup) :
    backup.length = 33 * st.sector_size_in_bytes ∧
      slice backup 0 (32 * st.sector_size_in_bytes)
        = slice primary (2 * st.sector_size_in_bytes) (32 * st.sector_size_in_bytes) ∧
      slice backup (32 * st.sector_size_in_bytes + 32) 8 = leBytes 8 1 ∧
      ∀ p w, (p + w ≤ 16 ∨ 40 ≤ p) → (p + w ≤ 72 ∨ 80 ≤ p) → p + w ≤ 92 →
        slice backup (32 * st.sector_size_in_bytes + p) w
          = slice primary (st.sector_size_in_bytes + p) w := by
  unfold make_backup_gpt at h
  dsimp only at h
  obtain ⟨b₁, h₁, h⟩ := bind_ok h
  obtain ⟨b₂, h₂, h⟩ := bind_ok h
  obtain ⟨crc, -, h⟩ := bind_ok h
  obtain ⟨hle₁, rfl⟩ := set_bytes_ok h₁
  obtain ⟨hle₂, rfl⟩ := set_bytes_ok h₂
  obtain ⟨hle₃, rfl⟩ := set_bytes_ok h
  set s := st.sector_size_in_bytes with hsdef
  -- the array and the header sector, before the fields
  set b₀ := (primary.drop (2 * s)).take (32 * s) ++ slice primary s s
    ++ (primary.drop (2 * s)).drop (33 * s) with hb₀
  have hd₁ : (leBytes 4 0 ++ leBytes 4 0 ++ leBytes 8 0 ++ leBytes 8 1).length = 24 := by simp
  have harr : ((primary.drop (2 * s)).take (32 * s)).length = 32 * s := by
    rw [List.length_take, List.length_drop, hlen]
    omega
  have hsec : (slice primary s s).length = s := length_slice_of_le (by omega)
  have hlen₀ : b₀.length = 33 * s := by
    rw [hb₀, List.length_append, List.length_append, harr, hsec, List.length_drop,
      List.length_drop, hlen]
    omega
  have hlen₁ := length_overwrite_of_le hle₁
  have hlen₂ := length_overwrite_of_le hle₂
  have hlen₃ := length_overwrite_of_le hle₃
  rw [hd₁] at hle₁
  rw [length_leBytes] at hle₂ hle₃
  refine ⟨by omega, ?_, ?_, fun p w hlo hhi hw => ?_⟩
  · rw [slice_overwrite_of_disjoint (by rw [length_leBytes]; omega) (by omega),
      slice_overwrite_of_disjoint (by rw [length_leBytes]; omega) (by omega),
      slice_overwrite_of_disjoint (by omega) (by omega), hb₀, List.append_assoc,
      slice_append_left (by omega), slice_zero_of_le (by omega)]
    rfl
  · rw [slice_overwrite_of_disjoint (by rw [length_leBytes]; omega)
        (by rw [length_leBytes]; omega),
      slice_overwrite_of_disjoint (by rw [length_leBytes]; omega) (by omega)]
    have hpart : slice (overwrite b₀ (32 * s + 16)
        (leBytes 4 0 ++ leBytes 4 0 ++ leBytes 8 0 ++ leBytes 8 1)) (32 * s + 16 + 16) 8
          = slice (leBytes 4 0 ++ leBytes 4 0 ++ leBytes 8 0 ++ leBytes 8 1) 16 8 :=
      slice_overwrite_part (by omega) (by omega)
    rw [show 32 * s + 32 = 32 * s + 16 + 16 by omega, hpart]
    decide
  · rw [slice_overwrite_of_disjoint (by rw [length_leBytes]; omega)
        (by rw [length_leBytes]; omega),
      slice_overwrite_of_disjoint (by rw [length_leBytes]; omega)
        (by rw [length_leBytes]; omega),
      slice_overwrite_of_disjoint (by omega) (by omega)]
    apply slice_congr
    intro i hi
    have hidx : s + (32 * s + p + i - 32 * s) = s + p + i := by omega
    rw [hb₀, List.append_assoc, List.getElem?_append_right (by omega), harr,
      List.getElem?_append_left (by omega), getElem?_slice, if_pos (by omega), hidx]

/-! ## The finished images

All there is to know of the two images of a call, in one structure: headers, entries,
checksums, and zeros elsewhere. Later modules read their facts off it.
-/

/-- The images of a call, for sectors of at least 512 bytes. -/
structure GptImages (st : Settings) (rand : ℕ → ℕ) (ps : List Partition) (out : GptTables) :
    Prop where
  primary_length : out.primary_gpt.length = 34 * st.sector_size_in_bytes
  backup_length : out.backup_gpt.length = 33 * st.sector_size_in_bytes
  offsets : out.entry_offsets = (List.range ps.length).map (entry_position st)
  narrow : ∀ p ∈ ps, Narrow p
  stored : ∀ j p x, ps[j]? = some p → out.placed[j]? = some x →
    slice out.primary_gpt (entry_position st j) 128
      = partition_entry p (unique_partition_guid st rand j p) x (label_bytes p)
  zero : ∀ b, 2 * st.sector_size_in_bytes ≤ b → b < 34 * st.sector_size_in_bytes →
    (∀ j < ps.length, b < entry_position st j ∨ entry_position st j + 128 ≤ b) →
      out.primary_gpt[b]? = some 0
  header : ∀ p w, (p + w ≤ 16 ∨ 20 ≤ p) → p + w ≤ 88 →
    slice out.primary_gpt (st.sector_size_in_bytes + p) w
      = slice (header_fields (num_partitions st ps.length)) p w
  backup_array : slice out.backup_gpt 0 (32 * st.sector_size_in_bytes)
    = slice out.primary_gpt (2 * st.sector_size_in_bytes) (32 * st.sector_size_in_bytes)
  backup_lba : slice out.backup_gpt (32 * st.sector_size_in_bytes + 32) 8 = leBytes 8 1
  backup_header : ∀ p w, (p + w ≤ 16 ∨ 40 ≤ p) → (p + w ≤ 72 ∨ 80 ≤ p) → p + w ≤ 92 →
    slice out.backup_gpt (32 * st.sector_size_in_bytes + p) w
      = slice out.primary_gpt (st.sector_size_in_bytes + p) w

theorem gpt_images {st : Settings} (hs : 512 ≤ st.sector_size_in_bytes) {k : ℕ}
    {ps : List Partition} {rand : ℕ → ℕ} {out : GptTables}
    (hout : create_gpt_partition_table st k ps rand = .ok out) : GptImages st rand ps out := by
  obtain ⟨hash_w, s, img, -, hrun, hmbr, hprimary, hbackup, -, -, hplaced, hoffsets, -, hwrite⟩ :=
    create_gpt_partition_table_spec hout
  have hw := add_partitions_written hs hrun
  obtain ⟨img', himg', hlen', hsame⟩ :=
    write_protective_mbr_spec st (show 512 ≤ s.primary_gpt.length by rw [hw.length]; omega)
  rw [hmbr] at himg'
  cases himg'
  obtain ⟨hlen, hkeep, hheader⟩ := write_primary_header_spec hs hprimary
  have hplen : out.primary_gpt.length = 34 * st.sector_size_in_bytes := by
    rw [hlen, hlen', hw.length]
  -- the array is untouched since the loop
  have harray : ∀ i, 2 * st.sector_size_in_bytes ≤ i →
      out.primary_gpt[i]? = s.primary_gpt[i]? := fun i hi => by
    rw [hkeep i hi, hsame i (by omega)]
  obtain ⟨hblen, hbarr, hblba, hbhdr⟩ := make_backup_gpt_spec hs hplen hbackup
  refine ⟨hplen, hblen, by rw [hoffsets, hw.offsets], ?_, ?_, ?_, hheader, hbarr, hblba, hbhdr⟩
  · rw [hw.wide, write_gpt_ok_iff hs fun b => le_of_mem_wide_entries] at hwrite
    exact (wide_entries_eq_nil_iff st ps).mp hwrite
  · intro j p x hp hx
    rw [hplaced] at hx
    rw [← hw.stored j p x hp hx]
    have h2 := two_sectors_le_entry_position st j
    exact slice_congr fun i _ => harray _ (by omega)
  · intro b hlo hhi hclear
    rw [harray b hlo]
    exact hw.zero b hhi hclear

/-! ## The call succeeds

When the settings divide by no zero and the names are of bytes, nothing in the call raises,
for up to 128 partitions. A table of more entries has no room in its image.
-/

theorem make_backup_gpt_total {st : Settings} (hs : 512 ≤ st.sector_size_in_bytes)
    {primary : List UInt8} (hlen : primary.length = 34 * st.sector_size_in_bytes) :
    ∃ backup, make_backup_gpt st primary = .ok backup := by
  unfold make_backup_gpt
  dsimp only
  set s := st.sector_size_in_bytes
  set b₀ := (primary.drop (2 * s)).take (32 * s) ++ slice primary s s
    ++ (primary.drop (2 * s)).drop (33 * s) with hb₀
  have hlen₀ : b₀.length = 33 * s := by
    rw [hb₀, List.length_append, List.length_append, List.length_take, List.length_drop,
      length_slice_of_le (by omega), List.length_drop, List.length_drop, hlen]
    omega
  have h₁ : 32 * s + 16 + (leBytes 4 0 ++ leBytes 4 0 ++ leBytes 8 0 ++ leBytes 8 1).length
      ≤ b₀.length := by
    simp only [List.length_append, length_leBytes]
    omega
  have hl₁ := length_overwrite_of_le h₁
  have h₂ := fun f : List UInt8 => fun hf : f.length = b₀.length =>
    (show 32 * s + 72 + (leBytes 8 0).length ≤ f.length by rw [length_leBytes]; omega)
  have hl₂ := length_overwrite_of_le (h₂ _ hl₁)
  rw [set_bytes_of_le h₁, ok_bind, set_bytes_of_le (h₂ _ hl₁), ok_bind,
    table_crc32_of_le (by rw [List.length_drop, hl₂, hl₁]; omega), ok_bind]
  exact ⟨_, set_bytes_of_le (by rw [length_leBytes, hl₂, hl₁]; omega)⟩

theorem num_partitions_le (st : Settings) {n : ℕ} (hn : n ≤ 128) : num_partitions st n ≤ 128 := by
  unfold num_partitions
  split_ifs <;> omega

theorem le_num_partitions (st : Settings) {n : ℕ} (hn : n ≤ 128) : n ≤ num_partitions st n := by
  unfold num_partitions
  split_ifs <;> omega

/-- From a state in which the first `j` entries are written the loop goes through the rest of the
list. -/
theorem add_partitions_total {st : Settings} (hs : 512 ≤ st.sector_size_in_bytes) {k : ℕ}
    {rand : ℕ → ℕ} {ps : List Partition} (hst : SettingsUsable st ps) (hn : ps.length ≤ 128)
    {qs : List Partition} {j : ℕ} {t : TableState} (hqs : ps.drop j = qs) (hI : EntriesWritten st rand ps j t) :
    ∃ t', add_partitions st k ps.length rand j qs t = .ok t' := by
  induction qs generalizing j t with
  | nil => exact ⟨t, rfl⟩
  | cons q qs ih =>
    have hq : ps[j]? = some q := by
      have hdrop : (ps.drop j)[0]? = ps[j + 0]? := List.getElem?_drop
      rw [hqs, Nat.add_zero] at hdrop
      exact hdrop.symm
    have hmem : q ∈ ps := List.mem_of_getElem? hq
    have hj : j < 128 := lt_of_lt_of_le (List.getElem?_eq_some_iff.mp hq).1 hn
    obtain ⟨c, hc⟩ :=
      place_partition_total hst hmem (decide (j + 1 = ps.length)) t.cursor
    obtain ⟨t', ht'⟩ : ∃ t', add_partition st k ps.length rand j q t = .ok t' := by
      unfold add_partition
      -- the array has room for 128 entries
      have hroom : entry_offset st j t.i + (partition_entry q (unique_partition_guid st rand j q)
          c.extent (label_bytes q)).length ≤ t.primary_gpt.length := by
        rw [length_partition_entry, hI.next, hI.length]
        exact entry_position_room hs hj
      simp only [hc, ok_bind, set_bytes_of_le hroom]
      exact ⟨_, rfl⟩
    obtain ⟨t'', ht''⟩ := ih (j := j + 1) (t := t')
      (by rw [← List.drop_drop, hqs]; rfl) (entries_written_step hs hq hI ht')
    exact ⟨t'', by rw [add_partitions, ht', ok_bind, ht'']⟩

/-- **The call succeeds** on usable settings, up to 128 partitions and labels of one-byte
characters. -/
theorem create_gpt_partition_table_total {st : Settings} (hs : 512 ≤ st.sector_size_in_bytes)
    (k : ℕ) {ps : List Partition} (rand : ℕ → ℕ) (hst : SettingsUsable st ps)
    (hn : ps.length ≤ 128) (hlabels : ∀ p ∈ ps, Narrow p) :
    ∃ out, create_gpt_partition_table st k ps rand = .ok out := by
  obtain ⟨h, hh⟩ : ∃ h, starting_wp_hash st = .ok h := by
    unfold starting_wp_hash
    split_ifs
    · exact update_wp_hash_total _ _ _ hst.write_protect
    · exact ⟨_, rfl⟩
  obtain ⟨s, hrun⟩ := add_partitions_total (k := k) hs hst hn (List.drop_zero ..)
    (entries_written_start rand ps h)
  have hw := add_partitions_written hs hrun
  obtain ⟨img, himg, hlen, -⟩ :=
    write_protective_mbr_spec st (show 512 ≤ s.primary_gpt.length by rw [hw.length]; omega)
  have hnp := num_partitions_le st hn
  obtain ⟨primary, hprimary⟩ := write_primary_header_total st ps.length img
    (by rw [hlen, hw.length]; omega)
    (by rw [hlen, hw.length, array_crc_start, size_of_partition_array]; omega)
  obtain ⟨hplen, -, -⟩ := write_primary_header_spec hs hprimary
  obtain ⟨backup, hbackup⟩ := make_backup_gpt_total hs
    (show primary.length = 34 * st.sector_size_in_bytes by rw [hplen, hlen, hw.length])
  have hwrite : write_gpt st s.wide = .ok () := by
    rw [hw.wide, write_gpt_ok_iff hs fun b => le_of_mem_wide_entries, wide_entries_eq_nil_iff]
    exact hlabels
  unfold create_gpt_partition_table
  simp only [hh, hrun, himg, hprimary, hbackup, hwrite, ok_bind]
  exact ⟨_, rfl⟩

/-! ## Lists without boundaries

Lists on which nothing moves, for witnesses of later results.
-/

/-- Settings for a list of fixed size, without boundaries and without growing. -/
def plain_settings : Settings :=
  { default_settings with
    write_protect_boundary_in_kb := 0, grow_last_partition_to_fill_disk := false }

/-- Partitions without a name, of the given sizes. -/
def sized_partitions (sizes : List ℤ) : List Partition :=
  sizes.map fun n => { default_partition 0xEBD0A0A2 with size_in_kb := n }

theorem plain_settings_usable (sizes : List ℤ) :
    SettingsUsable plain_settings (sized_partitions sizes) where
  no_name_error := fun h => absurd h (by decide)
  write_protect := fun h => absurd h (by decide)
  performance := by
    intro p hp
    obtain ⟨n, -, rfl⟩ := List.mem_map.mp hp
    exact fun h => absurd h (lt_irrefl (0 : ℤ))

theorem plain_run (sizes : List ℤ) (hn : sizes.length ≤ 128) :
    ∃ out, create_gpt_partition_table plain_settings 0 (sized_partitions sizes) (fun j => j)
      = .ok out := by
  refine create_gpt_partition_table_total (by decide) 0 _ (plain_settings_usable sizes)
    (by rw [sized_partitions, List.length_map]; exact hn) ?_
  intro p hp
  obtain ⟨n, -, rfl⟩ := List.mem_map.mp hp
  exact (by decide : Narrow (default_partition 0))

end AndroidTools.Ptool
