/-
Rules for the loops of the MBR code.

`add_primary_spec` and `add_logical_spec` take a pass apart; `add_primaries_invariant` and
`add_logicals_invariant` are the inductions over the passes. A record is 16 bytes written inside
its image, and an EBR is 66 bytes at 0x1BE of its 0x200.

As for the GPT, this is where the code is unfolded, and the later modules use what is stated here.
A pass for a logical partition has two parts: `PlacedLogical` says where the partition goes and
what happens to the regions, and `write_ebr_spec` what is written for it. The patches for the last
partition are emitted between the two, with the start as it was before the move, so the lemma on
the pass keeps both starts.

The calls are taken apart in the last section, one for up to four partitions and one for more.
-/
import AndroidTools.Ptool.Mbr
import AndroidTools.Ptool.Loop

set_option autoImplicit false

namespace AndroidTools.Ptool

open AndroidTools.Bytes AndroidTools.Boundary AndroidTools.Passes

/-! ## Sequencing

The errors of the two parts of a pass are of different types; this is the rule for going on.
-/

theorem or_raise_ok {α : Type} {x : Except PyError α} {a : α} (h : or_raise x = .ok a) :
    x = .ok a := by
  cases x with
  | error e => cases h
  | ok b =>
    cases h
    rfl

/-! ## Records

Assigning the 16 bytes is overwriting a window of the image, which has to have room for it.
-/

/-- The 16 bytes of a record, at its offset. -/
def record_bytes (bootable : Bool) (type : ℕ) (start_sector size : ℤ) : List UInt8 :=
  [if bootable then 0x80 else 0x00] ++ [0, 0, 0] ++ [type.toUInt8] ++ [0, 0, 0]
    ++ leBytes 4 start_sector ++ leBytes 4 size

theorem length_record_bytes (bootable : Bool) (type : ℕ) (start_sector size : ℤ) :
    (record_bytes bootable type start_sector size).length = 16 := by
  simp [record_bytes]

theorem length_set_slice (img vs : List UInt8) {i : ℕ} (hi : i ≤ img.length) :
    (set_slice img i vs).length = i + vs.length + (img.length - (i + vs.length)) := by
  rw [set_slice, List.length_append, List.length_append, List.length_take, List.length_drop,
    Nat.min_eq_left hi]

theorem set_slice_of_le {img vs : List UInt8} {i : ℕ} (h : i + vs.length ≤ img.length) :
    set_slice img i vs = overwrite img i vs := by
  rw [set_slice, overwrite_eq_splice h]

/-- **A record is written inside its image**, and only where the type is a byte. -/
theorem update_partition_table_spec {bootable : Bool} {type offset : ℕ} {start_sector size : ℤ}
    {record record' : List UInt8}
    (h : update_partition_table bootable type start_sector size offset record = .ok record') :
    type ≤ 255 ∧ offset + 16 ≤ record.length ∧
      record' = overwrite record offset (record_bytes bootable type start_sector size) := by
  unfold update_partition_table at h
  obtain ⟨type', htype, h⟩ := bind_ok h
  rw [validate_type] at htype
  split_ifs at htype with hbyte
  cases htype
  obtain ⟨r₁, h₁, h⟩ := bind_ok h
  obtain ⟨r₂, h₂, h⟩ := bind_ok h
  obtain ⟨r₃, h₃, h⟩ := bind_ok h
  obtain ⟨hle₁, hr₁⟩ := set_bytes_ok (or_raise_ok h₁)
  obtain ⟨hle₂, hr₂⟩ := set_bytes_ok (or_raise_ok h₂)
  obtain ⟨hle₃, hr₃⟩ := set_bytes_ok (or_raise_ok h₃)
  obtain ⟨hle₄, hr₄⟩ := set_bytes_ok (or_raise_ok h)
  -- from the last assignment back to the first: nothing was written past the end
  have hlen₁ : r₁.length = record.length := by rw [hr₁, length_overwrite_of_le hle₁]
  have hlen₂ : r₂.length = (set_slice r₁ (offset + 1) [0, 0, 0]).length := by
    rw [hr₂, length_overwrite_of_le hle₂]
  have hlen₃ : r₃.length = (set_slice r₂ (offset + 5) [0, 0, 0]).length := by
    rw [hr₃, length_overwrite_of_le hle₃]
  rw [← hlen₂] at hle₂
  rw [← hlen₃] at hle₃
  simp only [length_leBytes, List.length_cons, List.length_nil] at hle₁ hle₂ hle₃ hle₄
  rw [length_set_slice _ _ (by omega)] at hlen₂
  simp only [List.length_cons, List.length_nil] at hlen₂
  rw [length_set_slice _ _ (by omega)] at hlen₃
  simp only [List.length_cons, List.length_nil] at hlen₃
  have hroom : offset + 16 ≤ record.length := by omega
  rw [set_slice_of_le (by simp only [List.length_cons, List.length_nil]; omega)] at hr₂ hr₃
  refine ⟨hbyte, hroom, ?_⟩
  rw [hr₄, hr₃, hr₂, hr₁]
  simp only [record_bytes, ← overwrite_append, List.length_append, List.length_cons,
    List.length_nil, length_leBytes]

/-! ## One primary partition

A pass is described once, by equations, and the loop is then a loop of passes in the sense
of the library. Its rules for invariants are used from here on.
-/

/-- All a successful pass for a primary partition does. -/
theorem add_primary_spec {st : MbrSettings} {k n j : ℕ} {p : MbrPartition} {s s' : MbrState}
    (h : add_primary st k n j p s = .ok s') :
    ∃ hash_w, update_wp_hash st.toSettings s.cursor.hash_w s.cursor.first_lba
        (convert_kb_to_sectors st.toSettings p.size_in_kb) = .ok hash_w ∧
      0x1BE + j * 16 + 16 ≤ s.mbr.length ∧
      s' = { s with
        cursor := ⟨s.cursor.last_lba + convert_kb_to_sectors st.toSettings p.size_in_kb,
          s.cursor.last_lba + convert_kb_to_sectors st.toSettings p.size_in_kb, hash_w⟩
        mbr := overwrite s.mbr (0x1BE + j * 16) (record_bytes p.bootable p.type s.cursor.first_lba
          (convert_kb_to_sectors st.toSettings p.size_in_kb))
        rawprogram := s.rawprogram ++ p.files.map (mbr_program_element st k
          { p with readonly := true } s.cursor.first_lba
          (convert_kb_to_sectors st.toSettings p.size_in_kb))
        patches := s.patches ++
          if j + 1 = n ∧ st.grow_last_partition_to_fill_disk = true then
            last_primary_patches st k j s.cursor.first_lba
          else []
        placed := s.placed ++ [⟨{ p with readonly := true }, s.cursor.first_lba,
          convert_kb_to_sectors st.toSettings p.size_in_kb⟩] } := by
  unfold add_primary at h
  obtain ⟨-, -, h⟩ := bind_ok h
  obtain ⟨hash_w, hhash, h⟩ := bind_ok h
  obtain ⟨mbr, hmbr, h⟩ := bind_ok h
  obtain ⟨-, hroom, rfl⟩ := update_partition_table_spec hmbr
  cases h
  exact ⟨hash_w, or_raise_ok hhash, hroom, rfl⟩

/-- The loop over the primary partitions as a loop of passes. -/
theorem add_primaries_eq_passes {st : MbrSettings} (k n j : ℕ) (ps : List MbrPartition)
    (s : MbrState) :
    add_primaries st k n j ps s = passes (add_primary st k n) j ps s := by
  induction ps generalizing j s with
  | nil => rfl
  | cons p ps ih =>
    rw [add_primaries, passes_cons]
    exact bind_congr fun t => ih (j + 1) t

/-- An invariant kept by every pass holds when the loop ends. -/
theorem add_primaries_invariant {st : MbrSettings} {k n : ℕ} (I : ℕ → MbrState → Prop)
    {ps : List MbrPartition} {j : ℕ} {s s' : MbrState}
    (hstep : ∀ i p t t', p ∈ ps → I i t → add_primary st k n i p t = .ok t' → I (i + 1) t')
    (hs : I j s) (h : add_primaries st k n j ps s = .ok s') : I (j + ps.length) s' := by
  rw [add_primaries_eq_passes] at h
  exact passes_invariant I (fun i p t t' hp => hstep _ p t t' (List.mem_of_getElem? hp)) hs h

/-! ## One logical partition

The pass for a logical partition is the longest function of the program. It is taken apart
where it sets `LastLBA`: before that it moves and protects, behind that it writes.
`add_logical_spec` puts the two together, and a loop of such passes is described by what
each appends to the lists.
-/

/-- What a pass up to where `LastLBA` is set has done, as equations between the two cursors. -/
structure PlacedLogical (st : MbrSettings) (last : Bool) (p : MbrPartition) (c : MbrCursor)
    (x : MbrPlaced) (c' : MbrCursor) : Prop where
  partition_eq : x.partition =
    { unlock_last last p with size_in_kb := logical_size st last p / 2 }
  sectors_eq : x.sectors = logical_size st last p
  first_eq : c'.first_lba = x.first_lba + x.sectors
  last_eq : c'.last_lba = c'.first_lba
  moved : ∃ till,
    return_num_sectors_till_boundary st.toSettings c.first_lba st.write_protect_boundary_in_kb
      = .ok till ∧
    move_logical st (unlock_last last p) till c.first_lba c.hash_w.current.end_sector
      = .ok x.first_lba
  hash_readonly : x.partition.readonly = true →
    update_wp_hash st.toSettings c.hash_w x.first_lba x.sectors = .ok c'.hash_w
  hash_writable : x.partition.readonly = false → c'.hash_w = c.hash_w

theorem place_logical_spec {st : MbrSettings} {last : Bool} {p : MbrPartition} {c c' : MbrCursor}
    {x : MbrPlaced} (h : place_logical st last p c = .ok (x, c')) :
    PlacedLogical st last p c x c' := by
  unfold place_logical at h
  obtain ⟨till, htill, h⟩ := bind_ok h
  obtain ⟨first_lba, hmove, h⟩ := bind_ok h
  obtain ⟨-, -, h⟩ := bind_ok h
  obtain ⟨hash_w, hhash, h⟩ := bind_ok h
  cases h
  refine ⟨rfl, rfl, rfl, rfl, ⟨till, htill, hmove⟩, ?_, ?_⟩
  · intro hro
    dsimp only at hro
    rw [protect_logical, if_pos hro] at hhash
    exact hhash
  · intro hro
    dsimp only at hro
    rw [protect_logical, if_neg (by rw [hro]; simp)] at hhash
    cases hhash
    rfl

/-- The start of a logical partition only moves up. -/
theorem PlacedLogical.first_ge {st : MbrSettings} {last : Bool} {p : MbrPartition}
    {c c' : MbrCursor} {x : MbrPlaced} (h : PlacedLogical st last p c x c') :
    c.first_lba ≤ x.first_lba := by
  obtain ⟨till, htill, hmove⟩ := h.moved
  have hpos := return_num_sectors_till_boundary_nonneg htill
  unfold move_logical at hmove
  split_ifs at hmove
  · exact (Except.ok.inj hmove).le
  · have := Except.ok.inj hmove
    omega
  · split at hmove
    · cases hmove
    · rename_i d hd
      have hd0 := return_num_sectors_till_boundary_nonneg hd
      have := Except.ok.inj hmove
      omega
  · have := Except.ok.inj hmove
    omega
  · exact (Except.ok.inj hmove).le

/-- Where a partition with `align="true"` is moved: to the next align boundary. -/
def aligned_start (st : MbrSettings) (first_lba : ℤ) : ℤ :=
  if 0 < st.align_boundary_in_kb then
    first_lba + tillBoundary (convert_kb_to_sectors st.toSettings st.align_boundary_in_kb) first_lba
  else first_lba

theorem aligned_start_eq {st : MbrSettings} {first_lba d : ℤ}
    (hd : return_num_sectors_till_boundary st.toSettings first_lba st.align_boundary_in_kb
      = .ok d) : first_lba + d = aligned_start st first_lba := by
  rw [aligned_start]
  split_ifs with hpos
  · obtain ⟨-, rfl⟩ := return_num_sectors_till_boundary_pos hd (by exact_mod_cast hpos)
    rfl
  · rw [return_num_sectors_till_boundary, if_neg (by omega)] at hd
    have := Except.ok.inj hd
    omega

/-- Where the last partition is moved: it is never read-only. -/
def last_start (st : MbrSettings) (p : MbrPartition) (c : MbrCursor) : ℤ :=
  if p.align then aligned_start st c.first_lba
  else if c.first_lba ≤ c.hash_w.current.end_sector ∧ 0 < st.write_protect_boundary_in_kb then
    c.first_lba + tillBoundary (wp_sectors st.toSettings) c.first_lba
  else c.first_lba

theorem PlacedLogical.last_start_eq {st : MbrSettings} {p : MbrPartition} {c c' : MbrCursor}
    {x : MbrPlaced} (h : PlacedLogical st true p c x c') : x.first_lba = last_start st p c := by
  obtain ⟨till, htill, hmove⟩ := h.moved
  have halign : (unlock_last true p).align = p.align := rfl
  have hro : ¬ (unlock_last true p).readonly = true := by simp [unlock_last]
  rw [move_logical, if_neg hro, halign] at hmove
  rw [last_start]
  by_cases ha : p.align = true
  · rw [if_pos ha] at hmove ⊢
    split at hmove
    · cases hmove
    · rename_i d hd
      rw [← Except.ok.inj hmove, aligned_start_eq hd]
  · rw [if_neg ha] at hmove ⊢
    by_cases hin : c.first_lba ≤ c.hash_w.current.end_sector
    · rw [if_pos hin] at hmove
      rw [← Except.ok.inj hmove]
      by_cases hkb : 0 < st.write_protect_boundary_in_kb
      · rw [if_pos ⟨hin, hkb⟩]
        obtain ⟨-, rfl⟩ := return_num_sectors_till_boundary_pos htill (by exact_mod_cast hkb)
        rfl
      · rw [if_neg fun h => hkb h.2]
        rw [return_num_sectors_till_boundary, if_neg (by omega)] at htill
        have := Except.ok.inj htill
        omega
    · rw [if_neg hin] at hmove
      rw [if_neg fun h => hin h.1, Except.ok.inj hmove]

theorem logical_size_nonneg (st : MbrSettings) (last : Bool) {p : MbrPartition}
    (hsize : 0 ≤ p.size_in_kb) :
    0 ≤ logical_size st last p := by
  rw [logical_size]
  split_ifs
  · exact le_rfl
  · exact convert_kb_to_sectors_nonneg _ hsize

/-- The 66 bytes at the end of an EBR: its two records, two empty ones and the signature. -/
def ebr_records (p : MbrPartition) (last : Bool) (j : ℕ) (start_sector size : ℤ) : List UInt8 :=
  record_bytes p.bootable p.type start_sector size
    ++ (if last then record_bytes false 0 0 0 else record_bytes false 5 ((j : ℤ) - 2) 1)
    ++ record_bytes false 0 0 0 ++ record_bytes false 0 0 0 ++ [0x55, 0xAA]

theorem length_ebr_records (p : MbrPartition) (last : Bool) (j : ℕ) (start_sector size : ℤ) :
    (ebr_records p last j start_sector size).length = 66 := by
  unfold ebr_records
  split_ifs <;> simp only [List.length_append, length_record_bytes, List.length_cons,
    List.length_nil]

/-- **An EBR is written at 0x1BE of its 0x200 bytes**, inside the array of the EBRs. -/
theorem write_ebr_spec {p : MbrPartition} {last : Bool} {j offset : ℕ} {start_sector size : ℤ}
    {ebr ebr' : List UInt8} (h : write_ebr p last j start_sector size offset ebr = .ok ebr') :
    p.type ≤ 255 ∧ offset + 0x200 ≤ ebr.length ∧
      ebr' = overwrite ebr (offset + 0x1BE) (ebr_records p last j start_sector size) := by
  unfold write_ebr at h
  obtain ⟨e₁, h₁, h⟩ := bind_ok h
  obtain ⟨e₂, h₂, h⟩ := bind_ok h
  obtain ⟨e₃, h₃, h⟩ := bind_ok h
  obtain ⟨e₄, h₄, h⟩ := bind_ok h
  obtain ⟨htype, hle₁, he₁⟩ := update_partition_table_spec h₁
  obtain ⟨-, hle₃, he₃⟩ := update_partition_table_spec h₃
  obtain ⟨-, hle₄, he₄⟩ := update_partition_table_spec h₄
  obtain ⟨hle₅, he₅⟩ := set_bytes_ok (or_raise_ok h)
  -- the record of the next EBR, or a blank one
  have hsecond : offset + 0x1BE + 16 + 16 ≤ e₁.length ∧
      e₂ = overwrite e₁ (offset + 0x1BE + 16)
        (if last then record_bytes false 0 0 0 else record_bytes false 5 ((j : ℤ) - 2) 1) := by
    rw [write_link] at h₂
    split_ifs at h₂ ⊢
    · exact (update_partition_table_spec h₂).2
    · exact (update_partition_table_spec h₂).2
  obtain ⟨hle₂, he₂⟩ := hsecond
  have hrec : (if last = true then record_bytes false 0 0 0
      else record_bytes false 5 ((j : ℤ) - 2) 1).length = 16 := by
    split_ifs <;> exact length_record_bytes _ _ _ _
  have hlen₁ : e₁.length = ebr.length := by
    rw [he₁, length_overwrite_of_le (by rw [length_record_bytes]; exact hle₁)]
  have hlen₂ : e₂.length = e₁.length := by
    rw [he₂, length_overwrite_of_le (by rw [hrec]; exact hle₂)]
  have hlen₃ : e₃.length = e₂.length := by
    rw [he₃, length_overwrite_of_le (by rw [length_record_bytes]; exact hle₃)]
  have hlen₄ : e₄.length = e₃.length := by
    rw [he₄, length_overwrite_of_le (by rw [length_record_bytes]; exact hle₄)]
  simp only [List.length_cons, List.length_nil] at hle₅
  refine ⟨htype, by omega, ?_⟩
  rw [he₅, he₄, he₃, he₂, he₁]
  simp only [ebr_records, ← overwrite_append, List.length_append, length_record_bytes, hrec]

/-- All a successful pass for a logical partition does. -/
theorem add_logical_spec {st : MbrSettings} {k n j : ℕ} {begins : ℤ} {p : MbrPartition}
    {s s' : MbrState} (h : add_logical st k n begins j p s = .ok s') :
    ∃ x c, place_logical st (decide (j + 1 = n)) p s.cursor = .ok (x, c) ∧ p.type ≤ 255 ∧
      s.offset + 0x200 ≤ s.ebr.length + st.sector_size_in_bytes ∧
      s' = { s with
        cursor := c
        ebr := overwrite (s.ebr ++ List.replicate st.sector_size_in_bytes 0) (s.offset + 0x1BE)
          (ebr_records p (decide (j + 1 = n)) j (x.first_lba - begins - s.ebr_offset) x.sectors)
        offset := s.offset + 0x200
        ebr_offset := s.ebr_offset + 1
        rawprogram := s.rawprogram ++
          p.files.map (mbr_program_element st k p x.first_lba x.sectors)
        patches := s.patches ++
          if j + 1 = n then last_logical_patches st k (n - 3) begins s.cursor.first_lba else []
        placed := s.placed ++ [x] } := by
  unfold add_logical at h
  obtain ⟨⟨x, c⟩, hplace, h⟩ := bind_ok h
  obtain ⟨ebr, hebr, h⟩ := bind_ok h
  obtain ⟨htype, hroom, rfl⟩ := write_ebr_spec hebr
  rw [List.length_append, List.length_replicate] at hroom
  cases h
  refine ⟨x, c, or_raise_ok hplace, htype, hroom, ?_⟩
  simp only [decide_eq_true_eq]

/-- The loop over the logical partitions as a loop of passes. -/
theorem add_logicals_eq_passes {st : MbrSettings} (k n : ℕ) (begins : ℤ) (j : ℕ)
    (ps : List MbrPartition) (s : MbrState) :
    add_logicals st k n begins j ps s = passes (add_logical st k n begins) j ps s := by
  induction ps generalizing j s with
  | nil => rfl
  | cons p ps ih =>
    rw [add_logicals, passes_cons]
    exact bind_congr fun t => ih (j + 1) t

/-- An invariant kept by every pass holds when the loop ends. -/
theorem add_logicals_invariant {st : MbrSettings} {k n : ℕ} {begins : ℤ} (I : ℕ → MbrState → Prop)
    {ps : List MbrPartition} {j : ℕ} {s s' : MbrState}
    (hstep : ∀ i p t t', p ∈ ps → I i t → add_logical st k n begins i p t = .ok t' → I (i + 1) t')
    (hs : I j s) (h : add_logicals st k n begins j ps s = .ok s') : I (j + ps.length) s' := by
  rw [add_logicals_eq_passes] at h
  exact passes_invariant I (fun i p t t' hp => hstep _ p t t' (List.mem_of_getElem? hp)) hs h

/-- The `<program>` elements of the partitions of a list, where they were put. -/
def mbr_program_elements (st : MbrSettings) (k : ℕ) (placed : List (MbrPartition × MbrPlaced)) :
    List XmlElement :=
  placed.flatMap fun px =>
    px.1.files.map (mbr_program_element st k px.1 px.2.first_lba px.2.sectors)

/-- What a loop appends to its lists whose passes place a partition each. -/
theorem passes_shape {st : MbrSettings} {k : ℕ}
    {step : ℕ → MbrPartition → MbrState → Except Ended MbrState}
    (hstep : ∀ i p t t', step i p t = .ok t' → ∃ x : MbrPlaced, t'.placed = t.placed ++ [x] ∧
      t'.rawprogram = t.rawprogram ++
        p.files.map (mbr_program_element st k p x.first_lba x.sectors))
    {ps : List MbrPartition} {j : ℕ} {s s' : MbrState} (h : passes step j ps s = .ok s') :
    ∃ xs : List MbrPlaced, xs.length = ps.length ∧ s'.placed = s.placed ++ xs ∧
      s'.rawprogram = s.rawprogram ++ mbr_program_elements st k (ps.zip xs) := by
  induction ps generalizing j s with
  | nil =>
    cases h
    exact ⟨[], rfl, by simp, by simp [mbr_program_elements]⟩
  | cons p ps ih =>
    rw [passes_cons] at h
    obtain ⟨t, ht, h⟩ := bind_ok h
    obtain ⟨x, hx, hprogram⟩ := hstep j p s t ht
    obtain ⟨xs, hlen, hplaced, hraw⟩ := ih h
    refine ⟨x :: xs, by simp [hlen], by rw [hplaced, hx]; simp, ?_⟩
    rw [hraw, hprogram]
    simp [mbr_program_elements]

/-- What the loop over the primary partitions appends to its lists. -/
theorem add_primaries_shape {st : MbrSettings} {k n : ℕ} {ps : List MbrPartition} {j : ℕ}
    {s s' : MbrState} (h : add_primaries st k n j ps s = .ok s') :
    ∃ xs : List MbrPlaced, xs.length = ps.length ∧ s'.placed = s.placed ++ xs ∧
      s'.rawprogram = s.rawprogram ++ mbr_program_elements st k (ps.zip xs) := by
  rw [add_primaries_eq_passes] at h
  refine passes_shape (fun i p t t' hpass => ?_) h
  obtain ⟨hash_w, -, -, rfl⟩ := add_primary_spec hpass
  exact ⟨_, rfl, rfl⟩

/-- What the loop over the logical partitions appends to its lists. -/
theorem add_logicals_shape {st : MbrSettings} {k n : ℕ} {begins : ℤ} {ps : List MbrPartition}
    {j : ℕ} {s s' : MbrState} (h : add_logicals st k n begins j ps s = .ok s') :
    ∃ xs : List MbrPlaced, xs.length = ps.length ∧ s'.placed = s.placed ++ xs ∧
      s'.rawprogram = s.rawprogram ++ mbr_program_elements st k (ps.zip xs) := by
  rw [add_logicals_eq_passes] at h
  refine passes_shape (fun i p t t' hpass => ?_) h
  obtain ⟨x, c, -, -, -, rfl⟩ := add_logical_spec hpass
  exact ⟨x, rfl, rfl⟩

/-- Before the last of `n` partitions the loop over the primary ones emits no patches. -/
theorem add_primaries_patches {st : MbrSettings} {k n : ℕ} {ps : List MbrPartition} {j : ℕ}
    {s s' : MbrState} (hn : j + ps.length < n) (h : add_primaries st k n j ps s = .ok s') :
    s'.patches = s.patches := by
  induction ps generalizing j s with
  | nil =>
    cases h
    rfl
  | cons p ps ih =>
    rw [List.length_cons] at hn
    obtain ⟨t, ht, h⟩ := bind_ok h
    obtain ⟨hash_w, -, -, rfl⟩ := add_primary_spec ht
    rw [ih (by omega) h]
    dsimp only
    rw [if_neg (by omega), List.append_nil]

/-- The last pass of the loop over the logical partitions emits the patches. -/
theorem add_logicals_last {st : MbrSettings} {k n : ℕ} {begins : ℤ} {ps : List MbrPartition}
    {j : ℕ} {s s' : MbrState} (hne : ps ≠ []) (hn : j + ps.length = n)
    (h : add_logicals st k n begins j ps s = .ok s') :
    ∃ t p x c, add_logicals st k n begins j ps.dropLast s = .ok t ∧ ps.getLast? = some p ∧
      place_logical st true p t.cursor = .ok (x, c) ∧ s'.placed = t.placed ++ [x] ∧
      s'.patches = s.patches ++ last_logical_patches st k (n - 3) begins t.cursor.first_lba := by
  induction ps generalizing j s with
  | nil => exact absurd rfl hne
  | cons p ps ih =>
    rw [List.length_cons] at hn
    obtain ⟨u, hu, h⟩ := bind_ok h
    obtain ⟨x, c, hplace, -, -, heq⟩ := add_logical_spec hu
    cases ps with
    | nil =>
      have hlast : j + 1 = n := by simpa using hn
      cases h
      rw [decide_eq_true hlast] at hplace
      refine ⟨s, p, x, c, rfl, rfl, hplace, by rw [heq], ?_⟩
      rw [heq]
      dsimp only
      rw [if_pos hlast]
    | cons q qs =>
      -- a pass before the last one emits no patches
      have hmid : ¬ j + 1 = n := by
        rw [List.length_cons] at hn
        omega
      obtain ⟨t, p', x', c', ht, hp', hplace', hplaced, hpatches⟩ := ih (by simp) (by omega) h
      refine ⟨t, p', x', c', ?_, by simpa using hp', hplace', hplaced, ?_⟩
      · rw [List.dropLast_cons_of_ne_nil (by simp), add_logicals, hu]
        exact ht
      · rw [hpatches, heq]
        dsimp only
        rw [if_neg hmid, List.append_nil]

/-! ## Sizes that are not negative

With such sizes the ranges of the partitions are in order and the cursor is behind them.
-/

theorem add_primaries_sizes {st : MbrSettings} {k n j : ℕ} {ps : List MbrPartition}
    {s s' : MbrState} (hsize : ∀ p ∈ ps, 0 ≤ p.size_in_kb) (hs : ∀ x ∈ s.placed, 0 ≤ x.sectors)
    (h : add_primaries st k n j ps s = .ok s') : ∀ x ∈ s'.placed, 0 ≤ x.sectors := by
  refine add_primaries_invariant (fun _ t => ∀ x ∈ t.placed, 0 ≤ x.sectors) ?_ hs h
  intro i p t t' hp hI hstep x hx
  obtain ⟨hash_w, -, -, rfl⟩ := add_primary_spec hstep
  rcases List.mem_append.mp hx with hx | hx
  · exact hI x hx
  · rw [List.mem_singleton.mp hx]
    exact convert_kb_to_sectors_nonneg _ (hsize p hp)

theorem add_logicals_sizes {st : MbrSettings} {k n j : ℕ} {begins : ℤ} {ps : List MbrPartition}
    {s s' : MbrState} (hsize : ∀ p ∈ ps, 0 ≤ p.size_in_kb) (hs : ∀ x ∈ s.placed, 0 ≤ x.sectors)
    (h : add_logicals st k n begins j ps s = .ok s') : ∀ x ∈ s'.placed, 0 ≤ x.sectors := by
  refine add_logicals_invariant (fun _ t => ∀ x ∈ t.placed, 0 ≤ x.sectors) ?_ hs h
  intro i p t t' hp hI hstep x hx
  obtain ⟨y, c, hplace, -, -, rfl⟩ := add_logical_spec hstep
  rcases List.mem_append.mp hx with hx | hx
  · exact hI x hx
  · rw [List.mem_singleton.mp hx, (place_logical_spec hplace).sectors_eq]
    exact logical_size_nonneg st _ (hsize p hp)

/-! ## The calls

From the passes to the two functions and to the whole call, for up to four partitions and
for more.
-/

/-- The state `CreateMasterBootRecord` starts its loop in. -/
def starting_mbr_state (st : MbrSettings) (mbr : List UInt8) : MbrState where
  cursor := ⟨1, 1, initial_wp_hash st.toSettings⟩
  mbr := mbr
  ebr := List.replicate 512 0
  offset := 0
  ebr_offset := 0
  rawprogram := []
  patches := []
  placed := []

theorem create_master_boot_record_spec {st : MbrSettings} {k n : ℕ} {ps : List MbrPartition}
    {s : MbrState} (h : create_master_boot_record st k n ps = .ok s) :
    ∃ mbr, empty_mbr st = .ok mbr ∧
      add_primaries st k n 0 ps (starting_mbr_state st mbr) = .ok s := by
  unfold create_master_boot_record at h
  obtain ⟨mbr, hmbr, h⟩ := bind_ok h
  exact ⟨mbr, or_raise_ok hmbr, h⟩

theorem create_master_boot_record_shape {st : MbrSettings} {k n : ℕ} {ps : List MbrPartition}
    {s : MbrState} (h : create_master_boot_record st k n ps = .ok s) :
    s.placed.length = ps.length ∧ s.rawprogram = mbr_program_elements st k (ps.zip s.placed) := by
  obtain ⟨mbr, -, h⟩ := create_master_boot_record_spec h
  obtain ⟨xs, hxs, hplaced, hraw⟩ := add_primaries_shape h
  simp only [starting_mbr_state, List.nil_append] at hplaced hraw
  rw [hplaced]
  exact ⟨hxs, hraw⟩

theorem mbr_program_elements_append {st : MbrSettings} {k : ℕ} {ps qs : List MbrPartition}
    {xs ys : List MbrPlaced} (h : ps.length = xs.length) :
    mbr_program_elements st k ((ps ++ qs).zip (xs ++ ys))
      = mbr_program_elements st k (ps.zip xs) ++ mbr_program_elements st k (qs.zip ys) := by
  rw [mbr_program_elements, List.zip_append h, List.flatMap_append]
  rfl

/-- The length that the fourth record gets, up to the end of the disk where the last partition
grows. -/
def extended_length (st : MbrSettings) (begins : ℤ) : ℤ :=
  if st.grow_last_partition_to_fill_disk then 0 else st.min_sectors_needed - begins

/-- The state `CreateExtendedBootRecords` starts its loop in. -/
def extended_state (st : MbrSettings) (k : ℕ) (num_ebrs : ℕ) (s : MbrState) (hash_w : WPHash) :
    MbrState :=
  { s with
    cursor := ⟨s.cursor.first_lba + num_ebrs, s.cursor.last_lba + num_ebrs, hash_w⟩
    mbr := overwrite s.mbr 0x1EE (record_bytes false 5 s.cursor.first_lba
      (extended_length st s.cursor.first_lba))
    ebr := []
    patches := s.patches ++ extended_patches st k s.cursor.first_lba }

theorem create_extended_boot_records_spec {st : MbrSettings} {k n : ℕ} {ps : List MbrPartition}
    {s s' : MbrState} (h : create_extended_boot_records st k n ps s = .ok s') :
    ∃ hash_w, update_wp_hash st.toSettings s.cursor.hash_w s.cursor.first_lba ps.length
        = .ok hash_w ∧ 0x1EE + 16 ≤ s.mbr.length ∧
      add_logicals st k n s.cursor.first_lba 3 ps (extended_state st k ps.length s hash_w)
        = .ok s' := by
  unfold create_extended_boot_records at h
  obtain ⟨mbr, hmbr, h⟩ := bind_ok h
  obtain ⟨hash_w, hhash, h⟩ := bind_ok h
  obtain ⟨-, hroom, rfl⟩ := update_partition_table_spec hmbr
  exact ⟨hash_w, or_raise_ok hhash, hroom, h⟩

/-- A call for up to four partitions is `CreateMasterBootRecord`. -/
theorem create_mbr_partition_table_few {st : MbrSettings} {k : ℕ} {ps : List MbrPartition}
    {out : MbrTables} (hn : ps.length ≤ 4) (h : create_mbr_partition_table st k ps = .ok out) :
    ∃ s, create_master_boot_record st k ps.length ps = .ok s ∧ out.placed = s.placed ∧
      out.hash_w = s.cursor.hash_w := by
  unfold create_mbr_partition_table at h
  dsimp only at h
  rw [if_pos hn] at h
  obtain ⟨s, hs, h⟩ := bind_ok h
  rw [if_pos hn] at h
  obtain ⟨s', hs', h⟩ := bind_ok h
  cases hs'
  cases h
  exact ⟨s, hs, rfl, rfl⟩

/-- A call for more than four: three of them go into the boot record, and the others into EBRs. -/
theorem create_mbr_partition_table_many {st : MbrSettings} {k : ℕ} {ps : List MbrPartition}
    {out : MbrTables} (hn : 4 < ps.length) (h : create_mbr_partition_table st k ps = .ok out) :
    ∃ s s', create_master_boot_record st k ps.length (ps.take 3) = .ok s ∧
      create_extended_boot_records st k ps.length (ps.drop 3) s = .ok s' ∧
      out = {
        mbr := s'.mbr
        ebr := s'.ebr
        rawprogram := s'.rawprogram ++
          boot_record_elements st k ps.length s.cursor.first_lba
        patches := s'.patches
        extended_partition_begins := s.cursor.first_lba
        placed := s'.placed
        hash_w := s'.cursor.hash_w } := by
  unfold create_mbr_partition_table at h
  dsimp only at h
  rw [if_neg (by omega)] at h
  obtain ⟨s, hs, h⟩ := bind_ok h
  rw [if_neg (by omega)] at h
  obtain ⟨s', hs', h⟩ := bind_ok h
  cases h
  refine ⟨s, s', hs, hs', ?_⟩
  rw [if_neg (by omega)]

/-! ## Five partitions

A list that several results use as their example: its first logical partition is aligned,
which leads it into a write-protected region.
-/

/-- A list of five partitions, of which the first logical one is aligned. -/
def aligned_logical : List MbrPartition :=
  [small_mbr_partition false, small_mbr_partition false, small_mbr_partition false,
    small_mbr_partition true, small_mbr_partition false]

/-- With an align boundary of 4 KB it is put at sector 16, inside the region. The last
partition is moved past it. -/
theorem create_aligned_logical :
    ∃ out, create_mbr_partition_table (mbr_settings 4) 0 aligned_logical = .ok out ∧
      out.extended_partition_begins = 7 ∧
      (out.placed.map fun x => (x.partition.readonly, x.first_lba, x.sectors))
        = [(true, 1, 2), (true, 3, 2), (true, 5, 2), (false, 16, 2), (false, 131072, 0)] ∧
      (out.hash_w.current.start_sector, out.hash_w.current.end_sector) = (0, 131071) := by
  have hrun : (match create_mbr_partition_table (mbr_settings 4) 0 aligned_logical with
      | .ok out => decide (out.extended_partition_begins = 7) &&
          decide ((out.placed.map fun x => (x.partition.readonly, x.first_lba, x.sectors))
            = [(true, 1, 2), (true, 3, 2), (true, 5, 2), (false, 16, 2), (false, 131072, 0)]) &&
          decide ((out.hash_w.current.start_sector, out.hash_w.current.end_sector) = (0, 131071))
      | .error _ => false) = true := by
    decide +kernel
  cases hout : create_mbr_partition_table (mbr_settings 4) 0 aligned_logical with
  | error e =>
    rw [hout] at hrun
    cases hrun
  | ok out =>
    rw [hout] at hrun
    simp only [Bool.and_eq_true, decide_eq_true_eq] at hrun
    exact ⟨out, rfl, hrun.1.1, hrun.1.2, hrun.2⟩

end AndroidTools.Ptool
