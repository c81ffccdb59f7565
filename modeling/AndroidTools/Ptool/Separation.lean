/-
Write-protected regions and writable partitions stay apart.

`Separated` is what holds between `hash_w` and the partitions placed so far: regions in increasing
order and made of whole boundaries, every readonly partition inside one of them, no writable
partition touching any. It is carried from pass to pass together with `Continuing`, the facts
about the cursor that the next pass needs. The one that does the work is `near`: the cursor is
past the start of the last boundary of the current region, so the next boundary above it is the
first sector after the region. A partition without sectors breaks `near`, and only a last
partition that grows is one.

A pass has three cases, a writable partition, a readonly one that makes the last region longer,
and a readonly one that opens a region; each has its lemma, and `separated_step` puts them
together.
-/
import Mathlib
import AndroidTools.Ptool.GptImage

set_option autoImplicit false

namespace AndroidTools.Ptool

open AndroidTools.Boundary

/-- A region made of whole boundaries of `w` sectors, with numbers that agree. -/
structure WPRegion.Aligned (w : ℤ) (r : WPRegion) : Prop where
  start_dvd : w ∣ r.start_sector
  num_dvd : w ∣ r.num_sectors
  end_eq : r.end_sector = r.start_sector + r.num_sectors - 1
  num_pos : 0 < r.num_sectors

/-- The sectors of a region, its two ends among them. -/
def WPRegion.sectors (r : WPRegion) : Set ℤ := Set.Icc r.start_sector r.end_sector

/-- Region 0 when the GPT is not protected. -/
def empty_region : WPRegion := ⟨0, 0, 0, 0, 0, 0⟩

/-- The regions against the partitions placed so far: they are in order, and made of whole
boundaries, readonly partitions are in one of them, and writable ones in none. -/
structure Separated (st : Settings) (placed : List (Partition × Extent)) (h : WPHash) :
    Prop where
  increasing : h.regions.Pairwise fun r r' => r.end_sector < r'.start_sector
  whole : ∀ r ∈ h.regions, r.Aligned (wp_sectors st) ∧ 0 ≤ r.end_sector ∨
    r = empty_region ∧ st.write_protect_gpt_partition_table = false
  readonly_in : ∀ px ∈ placed, px.1.readonly = true →
    ∃ r ∈ h.regions, r.start_sector ≤ px.2.first_lba ∧ px.2.last_lba ≤ r.end_sector
  writable_out : ∀ px ∈ placed, px.1.readonly = false → ∀ r ∈ h.regions,
    px.2.first_lba ≤ px.2.last_lba ∧ px.2.last_lba < r.start_sector ∨
      r.end_sector < px.2.first_lba

/-- What the next pass needs to know of the cursor between two passes. -/
structure Continuing (st : Settings) (placed : List (Partition × Extent)) (c : Cursor) :
    Prop where
  near : c.hash_w.current.end_sector + 1 - wp_sectors st < c.first_lba
  first_ge : 34 ≤ c.first_lba
  till_nonneg : 0 ≤ c.sectors_till_next_boundary
  behind : ∀ px ∈ placed, px.2.first_lba ≤ px.2.last_lba ∧ px.2.last_lba < c.first_lba

/-! ## Regions

The regions of `hash_w` are kept in order, and each is made of whole boundaries, apart from
region 0 of a table that is not protected. Growing a region and opening one keep this.
-/

theorem mem_regions {h : WPHash} {r : WPRegion} :
    r ∈ h.regions ↔ r ∈ h.closed ∨ r = h.current := by
  rw [regions_eq, List.mem_append, List.mem_singleton]

theorem current_mem (h : WPHash) : h.current ∈ h.regions := mem_regions.mpr (Or.inr rfl)

theorem increasing_iff {h : WPHash} :
    (h.regions.Pairwise fun r r' => r.end_sector < r'.start_sector) ↔
      (h.closed.Pairwise fun r r' => r.end_sector < r'.start_sector) ∧
        ∀ r ∈ h.closed, r.end_sector < h.current.start_sector := by
  rw [regions_eq, List.pairwise_append]
  simp

/-- A region does not end before its start. -/
theorem Separated.start_le_end {st : Settings} {placed : List (Partition × Extent)} {h : WPHash}
    (hs : Separated st placed h) {r : WPRegion} (hr : r ∈ h.regions) :
    r.start_sector ≤ r.end_sector := by
  rcases hs.whole r hr with ⟨ha, -⟩ | ⟨rfl, -⟩
  · have hend := ha.end_eq
    have hpos := ha.num_pos
    omega
  · exact le_rfl

/-- No region ends after the last one. -/
theorem Separated.end_le_current {st : Settings} {placed : List (Partition × Extent)}
    {h : WPHash} (hs : Separated st placed h) {r : WPRegion} (hr : r ∈ h.regions) :
    r.end_sector ≤ h.current.end_sector := by
  rcases mem_regions.mp hr with hc | rfl
  · have hlt := (increasing_iff.mp hs.increasing).2 r hc
    exact (hlt.trans_le (hs.start_le_end (current_mem h))).le
  · exact le_rfl

/-- Past the last region's end there is a boundary, unless the region is empty and
ends before the first usable sector. -/
theorem Separated.dvd_current_end {st : Settings} {placed : List (Partition × Extent)}
    {h : WPHash} (hs : Separated st placed h) (hend : 34 ≤ h.current.end_sector) :
    wp_sectors st ∣ h.current.end_sector + 1 := by
  rcases hs.whole h.current (current_mem h) with ⟨ha, -⟩ | ⟨he, -⟩
  · have := ha.end_eq
    rw [this, sub_add_cancel]
    exact dvd_add ha.start_dvd ha.num_dvd
  · rw [he] at hend
    exact absurd hend (by decide)

/-- Reaching on keeps a region made of whole boundaries. -/
theorem Grown.aligned {w last : ℤ} {r r' : WPRegion} (hw : 0 < w) (hg : Grown w last r r')
    (ha : r.Aligned w) : r'.Aligned w := by
  obtain ⟨k, hk, hnum, hend⟩ := hg.added
  have hstart := hg.start_eq
  have hpos := ha.num_pos
  have hend' := ha.end_eq
  have hkw : 0 ≤ k * w := mul_nonneg hk hw.le
  exact ⟨by rw [hstart]; exact ha.start_dvd,
    by rw [hnum]; exact dvd_add ha.num_dvd (dvd_mul_left w k), by omega, by omega⟩

theorem Grown.end_le {w last : ℤ} {r r' : WPRegion} (hw : 0 < w) (hg : Grown w last r r') :
    r.end_sector ≤ r'.end_sector := by
  obtain ⟨k, hk, -, hend⟩ := hg.added
  have hkw : 0 ≤ k * w := mul_nonneg hk hw.le
  omega

/-- A new region at an aligned start is made of whole boundaries. -/
theorem new_region_aligned {w start : ℤ} (hw : 0 < w) (hstart : w ∣ start) :
    (⟨start, w, start + w - 1, 0, start / w, 1⟩ : WPRegion).Aligned w :=
  ⟨hstart, dvd_refl w, rfl, hw⟩

/-! ## The move of `FirstLBA`

Before a partition is placed it is moved so that it fits its kind: a writable one behind the
last region, a readonly one onto a boundary or into the region.
-/

section Move

variable {st : Settings} {placed : List (Partition × Extent)} {last : Bool} {p : Partition}
  {c m c' : Cursor}

/-- A writable partition ends up past the last region, wherever the cursor was. -/
theorem writable_moved (hw : 0 < wp_sectors st) (hs : Separated st placed c.hash_w)
    (hc : Continuing st placed c) (hp : PlacedFrom st last p c m c') (hro : p.readonly = false)
    (hkb : 0 < st.write_protect_boundary_in_kb) :
    c.hash_w.current.end_sector < c'.first_lba := by
  have hnear := hc.near
  have hraised := hp.raised
  have hge := hc.first_ge
  rw [hp.first_eq, move_first_lba, hro, if_neg (by decide), hp.hash_eq]
  split_ifs with hin
  · dsimp only
    rw [(hp.till_eq hkb).2]
    -- the move ends exactly one past the region
    have hmove := add_tillBoundary_eq hw (hs.dvd_current_end (by omega))
      (by omega : c.hash_w.current.end_sector + 1 - wp_sectors st < m.first_lba) (by omega)
    omega
  · omega

/-- A readonly partition starts inside the last region, or on a boundary past it. -/
theorem readonly_moved (hw : 0 < wp_sectors st) (hp : PlacedFrom st last p c m c')
    (hro : p.readonly = true) (hkb : 0 < st.write_protect_boundary_in_kb) :
    c'.first_lba ≤ c.hash_w.current.end_sector ∨
      c.hash_w.current.end_sector < c'.first_lba ∧ wp_sectors st ∣ c'.first_lba := by
  have htill := hp.till_nonneg
  rw [hp.first_eq, move_first_lba, if_pos hro, hp.hash_eq]
  split_ifs with hin
  · exact Or.inl hin
  · right
    dsimp only
    refine ⟨by omega, ?_⟩
    rw [(hp.till_eq hkb).2]
    exact dvd_add_tillBoundary hw

/-! ## One pass

`Separated` is the invariant: every sector of a readonly partition is in a region, and no
sector of a writable one is. A pass has three cases, by what happens to the regions, and
each has its lemma.
-/

/-- A writable partition: the regions stay as they are. -/
theorem separated_writable (hw : 0 < wp_sectors st) (hs : Separated st placed c.hash_w)
    (hc : Continuing st placed c) (hp : PlacedFrom st last p c m c') (hro : p.readonly = false)
    (hkb : 0 < st.write_protect_boundary_in_kb) :
    Separated st (placed ++ [(p, c'.extent)]) c'.hash_w := by
  have hpast := writable_moved hw hs hc hp hro hkb
  rw [hp.writable_hash hro]
  refine ⟨hs.increasing, hs.whole, ?_, ?_⟩
  · intro px hpx hr
    rcases List.mem_append.mp hpx with hpx | hpx
    · exact hs.readonly_in px hpx hr
    · rw [List.mem_singleton.mp hpx] at hr
      rw [hro] at hr
      cases hr
  · intro px hpx hr r hmem
    rcases List.mem_append.mp hpx with hpx | hpx
    · exact hs.writable_out px hpx hr r hmem
    · rw [List.mem_singleton.mp hpx]
      exact Or.inr ((hs.end_le_current hmem).trans_lt hpast)

/-- A readonly partition that the last region is made to reach over. -/
theorem separated_reached (hw : 0 < wp_sectors st) (hs : Separated st placed c.hash_w)
    (hc : Continuing st placed c) (hro : p.readonly = true) {start last_lba : ℤ} {h' : WPHash}
    (hfirst : c.first_lba ≤ start) (hstart : start - 1 ≤ c.hash_w.current.end_sector)
    (hclosed : h'.closed = c.hash_w.closed)
    (hg : Grown (wp_sectors st) last_lba c.hash_w.current h'.current) :
    Separated st (placed ++ [(p, ⟨start, last_lba⟩)]) h' := by
  have hge := hc.first_ge
  obtain ⟨hpair, hbefore⟩ := increasing_iff.mp hs.increasing
  have hmem : ∀ r ∈ h'.regions, r ∈ c.hash_w.closed ∨ r = h'.current := by
    intro r hr
    rw [← hclosed]
    exact mem_regions.mp hr
  have halign : h'.current.Aligned (wp_sectors st) := by
    rcases hs.whole _ (current_mem _) with ⟨ha, -⟩ | ⟨he, -⟩
    · exact hg.aligned hw ha
    · -- the empty region ends before any partition starts
      rw [he, empty_region] at hstart
      exact absurd hstart (by dsimp only; omega)
  have hle := hg.end_le hw
  refine ⟨?_, ?_, ?_, ?_⟩
  · rw [increasing_iff, hclosed, hg.start_eq]
    exact ⟨hpair, hbefore⟩
  · intro r hr
    rcases hmem r hr with hr | rfl
    · exact hs.whole r (mem_regions.mpr (Or.inl hr))
    · exact Or.inl ⟨halign, by omega⟩
  · intro px hpx hr
    rcases List.mem_append.mp hpx with hpx | hpx
    · obtain ⟨r, hrm, hlo, hhi⟩ := hs.readonly_in px hpx hr
      rcases mem_regions.mp hrm with hrc | rfl
      · exact ⟨r, mem_regions.mpr (Or.inl (hclosed ▸ hrc)), hlo, hhi⟩
      · exact ⟨h'.current, current_mem h', by rw [hg.start_eq]; exact hlo, by omega⟩
    · rw [List.mem_singleton.mp hpx]
      refine ⟨h'.current, current_mem h', ?_, hg.reaches⟩
      have hnear := hc.near
      have hend := halign.end_eq
      have hcur := hs.start_le_end (current_mem c.hash_w)
      rw [hg.start_eq]
      dsimp only
      -- the region starts at a boundary at or below the cursor's own boundary
      rcases hs.whole _ (current_mem _) with ⟨ha, -⟩ | ⟨he, -⟩
      · have hlen : wp_sectors st ≤ c.hash_w.current.num_sectors :=
          Int.le_of_dvd ha.num_pos ha.num_dvd
        have := ha.end_eq
        omega
      · rw [he, empty_region]
        dsimp only
        omega
  · intro px hpx hr r hrm
    rcases List.mem_append.mp hpx with hpx | hpx
    · obtain ⟨hne, hbeh⟩ := hc.behind px hpx
      rcases hmem r hrm with hrc | rfl
      · exact hs.writable_out px hpx hr r (mem_regions.mpr (Or.inl hrc))
      · -- past the old end and behind the cursor leaves no room for sectors
        rcases hs.writable_out px hpx hr _ (current_mem _) with ⟨_, hlt⟩ | hlt
        · exact Or.inl ⟨hne, by rw [hg.start_eq]; exact hlt⟩
        · omega
    · rw [List.mem_singleton.mp hpx] at hr
      rw [hro] at hr
      cases hr

/-- A readonly partition that opens a region. -/
theorem separated_opened (hw : 0 < wp_sectors st) (hs : Separated st placed c.hash_w)
    (hc : Continuing st placed c) (hro : p.readonly = true) {start last_lba : ℤ} {h' : WPHash}
    (hfirst : c.first_lba ≤ start) (hstart : c.hash_w.current.end_sector < start - 1)
    (hdvd : wp_sectors st ∣ start) (hclosed : h'.closed = c.hash_w.closed ++ [c.hash_w.current])
    (hg : Grown (wp_sectors st) last_lba
      ⟨start, wp_sectors st, start + wp_sectors st - 1, 0, start / wp_sectors st, 1⟩
      h'.current) :
    Separated st (placed ++ [(p, ⟨start, last_lba⟩)]) h' := by
  have hge := hc.first_ge
  have hnew : h'.current.start_sector = start := hg.start_eq
  have hold : h'.closed = c.hash_w.regions := hclosed
  have halign := hg.aligned hw (new_region_aligned hw hdvd)
  have hend := halign.end_eq
  have hpos := halign.num_pos
  -- the region that was open is closed now, and the new one begins behind it
  refine ⟨?_, ?_, ?_, ?_⟩
  · rw [increasing_iff, hold, hnew]
    exact ⟨hs.increasing, fun r hr => (hs.end_le_current hr).trans_lt (by omega)⟩
  · intro r hr
    rcases mem_regions.mp hr with hr | rfl
    · exact hs.whole r (hold ▸ hr)
    · exact Or.inl ⟨halign, by omega⟩
  · intro px hpx hr
    rcases List.mem_append.mp hpx with hpx | hpx
    · obtain ⟨r, hrm, hlohi⟩ := hs.readonly_in px hpx hr
      exact ⟨r, mem_regions.mpr (Or.inl (hold ▸ hrm)), hlohi⟩
    · rw [List.mem_singleton.mp hpx]
      exact ⟨h'.current, current_mem h', hnew.le, hg.reaches⟩
  · intro px hpx hr r hrm
    rcases List.mem_append.mp hpx with hpx | hpx
    · obtain ⟨hne, hbeh⟩ := hc.behind px hpx
      rcases mem_regions.mp hrm with hrc | rfl
      · exact hs.writable_out px hpx hr r (hold ▸ hrc)
      · exact Or.inl ⟨hne, by omega⟩
    · rw [List.mem_singleton.mp hpx] at hr
      rw [hro] at hr
      cases hr

/-- **One pass keeps regions and partitions apart**, whatever the partition is. -/
theorem separated_step (hw : 0 < wp_sectors st) (hs : Separated st placed c.hash_w)
    (hc : Continuing st placed c) (hp : PlacedFrom st last p c m c')
    (hkb : 0 < st.write_protect_boundary_in_kb) :
    Separated st (placed ++ [(p, c'.extent)]) c'.hash_w := by
  rcases Bool.eq_false_or_eq_true p.readonly with hro | hro
  · have hu := hp.readonly_hash hro
    have hfirst := hp.first_le
    have hlast : c'.first_lba + convert_kb_to_sectors st (placed_size_in_kb st last p) - 1
        = c'.last_lba := hp.last_eq.symm
    rcases update_wp_hash_cases hu hw with ⟨hcov, hclosed, hg⟩ | ⟨hcov, hclosed, hg⟩
    · rw [hlast] at hg
      exact separated_reached hw hs hc hro hfirst hcov hclosed hg
    · rw [hlast] at hg
      rcases readonly_moved hw hp hro hkb with hin | ⟨-, hdvd⟩
      · omega
      · exact separated_opened hw hs hc hro hfirst hcov hdvd hclosed hg
  · exact separated_writable hw hs hc hp hro hkb

/-- A partition with sectors leaves the cursor ready for the next pass. -/
theorem continuing_step (hw : 0 < wp_sectors st) (hc : Continuing st placed c)
    (hp : PlacedFrom st last p c m c')
    (hsize : 1 ≤ convert_kb_to_sectors st (placed_size_in_kb st last p)) :
    Continuing st (placed ++ [(p, c'.extent)]) (next_partition c') := by
  have hfirst := hp.first_le
  have hge := hc.first_ge
  have hlast := hp.last_eq
  have hnear := hc.near
  refine ⟨?_, ?_, ?_, ?_⟩
  · simp only [next_partition]
    rcases Bool.eq_false_or_eq_true p.readonly with hro | hro
    -- a read-only partition lies in the current region, grown or opened for it
    · rcases update_wp_hash_cases (hp.readonly_hash hro) hw with ⟨hcov, -, hg⟩ | ⟨hcov, -, hg⟩
      · rcases hg.least with h | h
        · rw [h]
          omega
        · omega
      · rcases hg.least with h | h
        · rw [h]
          dsimp only
          omega
        · omega
    · rw [hp.writable_hash hro]
      omega
  · simp only [next_partition]
    omega
  · simp only [next_partition]
    rw [hp.till_kept]
    exact hp.till_nonneg
  · intro px hpx
    simp only [next_partition]
    rcases List.mem_append.mp hpx with hpx | hpx
    · obtain ⟨hne, hbeh⟩ := hc.behind px hpx
      exact ⟨hne, by omega⟩
    · rw [List.mem_singleton.mp hpx]
      simp only [Cursor.extent]
      omega

end Move

/-! ## The run

The invariant at the start depends on whether the table itself is protected, and so does the
size that a boundary has to have. A partition that grows has no sectors in the table, so
nothing is asked of it.
-/

/-- A boundary of at least one sector comes from a setting that is not 0. -/
theorem write_protect_boundary_pos {st : Settings} (hw : 0 < wp_sectors st) :
    0 < st.write_protect_boundary_in_kb := by
  apply Nat.pos_of_ne_zero
  intro h0
  rw [wp_sectors, h0, Nat.cast_zero, convert_kb_to_sectors_zero] at hw
  exact absurd hw (lt_irrefl 0)

/-- `Wsec >= 34` when the GPT is protected, `Wsec >= 1` when it is not. -/
def BoundaryLargeEnough (st : Settings) : Prop :=
  if st.write_protect_gpt_partition_table then 34 ≤ wp_sectors st else 1 ≤ wp_sectors st

theorem BoundaryLargeEnough.pos {st : Settings} (h : BoundaryLargeEnough st) :
    0 < wp_sectors st := by
  unfold BoundaryLargeEnough at h
  split_ifs at h <;> omega

/-- `hash_w` when the loop starts: region 0 is one boundary, or empty. -/
theorem starting_wp_hash_eq {st : Settings} {h : WPHash} (hlarge : BoundaryLargeEnough st)
    (hh : starting_wp_hash st = .ok h) :
    h.closed = [] ∧ (h.current = ⟨0, wp_sectors st, wp_sectors st - 1, 0, 0, 1⟩ ∨
      h.current = empty_region ∧ st.write_protect_gpt_partition_table = false) := by
  have hkb := (write_protect_boundary_pos hlarge.pos).ne'
  unfold starting_wp_hash at hh
  split_ifs at hh with hprot
  · -- `UpdateWPhash(34, 0)`: the first boundary already covers the table
    have h34 : 34 ≤ wp_sectors st := by
      rw [BoundaryLargeEnough, if_pos hprot] at hlarge
      exact hlarge
    have hinit : initial_wp_hash st
        = ⟨[], ⟨0, wp_sectors st, wp_sectors st - 1, 0, 0, 1⟩⟩ := by
      simp [initial_wp_hash, hkb, hprot]
    rw [hinit, update_wp_hash, if_neg hkb, if_pos (by dsimp only; omega),
      if_neg (by dsimp only; omega)] at hh
    cases hh
    exact ⟨rfl, Or.inl rfl⟩
  · cases hh
    have hprot' : st.write_protect_gpt_partition_table = false := by simpa using hprot
    refine ⟨rfl, ?_⟩
    unfold initial_wp_hash
    dsimp only
    split_ifs with h
    · exact Or.inr ⟨rfl, hprot'⟩
    · exact Or.inl rfl

theorem separated_start {st : Settings} {h : WPHash} (hlarge : BoundaryLargeEnough st)
    (hh : starting_wp_hash st = .ok h) :
    Separated st [] h ∧ Continuing st [] ⟨34, 34, 0, h⟩ := by
  have hw := hlarge.pos
  obtain ⟨hclosed, hcur⟩ := starting_wp_hash_eq hlarge hh
  have hregions : h.regions = [h.current] := by rw [regions_eq, hclosed, List.nil_append]
  refine ⟨⟨by simp [hregions], ?_, by simp, by simp⟩, ⟨?_, le_rfl, le_rfl, by simp⟩⟩
  · intro r hr
    rw [hregions, List.mem_singleton] at hr
    subst hr
    rcases hcur with h1 | ⟨h1, hprot⟩
    · left
      rw [h1]
      exact ⟨⟨dvd_zero _, dvd_refl _, by simp, hw⟩, by dsimp only; omega⟩
    · exact Or.inr ⟨h1, hprot⟩
  · dsimp only
    rcases hcur with h1 | ⟨h1, -⟩
    · rw [h1]
      dsimp only
      omega
    · rw [h1, empty_region]
      dsimp only
      omega

/-- The partition grows to the end of the disk: it is the last one, and the setting is on. -/
def grown (st : Settings) (n j : ℕ) : Prop :=
  j + 1 = n ∧ st.grow_last_partition_to_fill_disk = true

instance (st : Settings) (n j : ℕ) : Decidable (grown st n j) :=
  inferInstanceAs (Decidable (_ ∧ _))

theorem placed_size_of_not_grown {st : Settings} {n j : ℕ} (h : ¬ grown st n j) (p : Partition) :
    placed_size_in_kb st (decide (j + 1 = n)) p = p.size_in_kb := by
  unfold placed_size_in_kb
  rw [if_neg]
  intro hb
  rw [Bool.and_eq_true, decide_eq_true_eq] at hb
  exact h hb

theorem placed_size_of_grown {st : Settings} {n j : ℕ} (h : grown st n j) (p : Partition) :
    placed_size_in_kb st (decide (j + 1 = n)) p = 0 := by
  simp [placed_size_in_kb, h.1, h.2]

/-- After the loop regions and partitions are apart. -/
theorem add_partitions_separated {st : Settings} {k : ℕ} {ps : List Partition} {rand : ℕ → ℕ}
    {h : WPHash} {s : TableState} (hlarge : BoundaryLargeEnough st)
    (hsize : ∀ j p, ps[j]? = some p → ¬ grown st ps.length j →
      1 ≤ convert_kb_to_sectors st p.size_in_kb)
    (hh : starting_wp_hash st = .ok h)
    (hs : add_partitions st k ps.length rand 0 ps (starting_state st h) = .ok s) :
    Separated st (ps.zip s.placed) s.cursor.hash_w := by
  have hw := hlarge.pos
  have hkb := write_protect_boundary_pos hw
  have hrun := add_partitions_invariant
    (fun j t => t.placed.length = j ∧ Separated st (ps.zip t.placed) t.cursor.hash_w ∧
      (j < ps.length → Continuing st (ps.zip t.placed) t.cursor))
    (fun i p t t' hp hI ht => ?_) ?_ hs
  · exact hrun.2.1
  · rw [Nat.zero_add] at hI ht ⊢
    obtain ⟨hlen, hsep, hcont⟩ := hI
    have hi : i < ps.length := (List.getElem?_eq_some_iff.mp hp).1
    obtain ⟨c, hplace, -, rfl⟩ := add_partition_spec ht
    have hc := hcont hi
    obtain ⟨m, hm⟩ := place_partition_spec hc.till_nonneg hplace
    dsimp only
    rw [zip_concat hp hlen]
    -- only the last partition may grow, and no pass follows that one
    refine ⟨by simp [hlen], separated_step hw hsep hc hm hkb, fun hmore => ?_⟩
    apply continuing_step hw hc hm
    have hng : ¬ grown st ps.length i := fun hg => by
      have := hg.1
      omega
    rw [placed_size_of_not_grown hng]
    exact hsize i p hp hng
  · obtain ⟨hsep, hcont⟩ := separated_start hlarge hh
    exact ⟨rfl, by simpa [starting_state] using hsep,
      fun _ => by simpa [starting_state] using hcont⟩

/-- Only region 0 of an unprotected table may be the empty one. -/
theorem Separated.aligned {st : Settings} {placed : List (Partition × Extent)} {h : WPHash}
    (hs : Separated st placed h) {i : ℕ} {r : WPRegion} (hr : h.regions[i]? = some r)
    (hi : i = 0 → st.write_protect_gpt_partition_table = true) : r.Aligned (wp_sectors st) := by
  rcases hs.whole r (List.mem_of_getElem? hr) with ⟨ha, -⟩ | ⟨he, hprot⟩
  · exact ha
  · exfalso
    cases i with
    | zero =>
      rw [hi rfl] at hprot
      cases hprot
    | succ i =>
      -- the region before it would end before sector 0
      obtain ⟨hlen, hget⟩ := List.getElem?_eq_some_iff.mp hr
      have hlt := List.pairwise_iff_getElem.mp hs.increasing 0 (i + 1) (by omega) hlen (by omega)
      rw [hget, he] at hlt
      rcases hs.whole _ (List.getElem_mem (show 0 < h.regions.length by omega)) with
        ⟨-, h0⟩ | ⟨h0, -⟩
      · exact absurd hlt (not_lt.mpr h0)
      · rw [h0] at hlt
        exact absurd hlt (lt_irrefl _)

theorem disjoint_Icc {a b c d : ℤ} (h : b < c ∨ d < a) :
    Disjoint (Set.Icc a b) (Set.Icc c d) := by
  rw [Set.disjoint_left]
  rintro y ⟨hay, hyb⟩ ⟨hcy, hyd⟩
  omega

/-- A partition that grows has no sectors in the table. -/
theorem grown_extent {st : Settings} {k : ℕ} {ps : List Partition} {rand : ℕ → ℕ} {h : WPHash}
    {s : TableState} {j : ℕ} {p : Partition} {x : Extent}
    (hs : add_partitions st k ps.length rand 0 ps (starting_state st h) = .ok s)
    (hp : ps[j]? = some p) (hx : s.placed[j]? = some x) (hg : grown st ps.length j) :
    x.last_lba = x.first_lba - 1 := by
  obtain ⟨c, m, c', hm, rfl⟩ := add_partitions_placed hs hp hx
  have hlast := hm.last_eq
  rw [placed_size_of_grown hg, convert_kb_to_sectors_zero, add_zero] at hlast
  exact hlast

/-- **Write-protect separation.** After the call the regions of `hash_w` are
increasing and disjoint, whole boundaries long and aligned, save region 0 of an
unprotected table; every readonly partition of fixed size lies in one region; no
sector of a writable partition lies in any, and none lies where a writable last
partition grows. -/
theorem write_protect_separation (st : Settings) (k : ℕ) (ps : List Partition) (rand : ℕ → ℕ)
    (out : GptTables) (hlarge : BoundaryLargeEnough st)
    (hsize : ∀ j p, ps[j]? = some p → ¬ grown st ps.length j →
      1 ≤ convert_kb_to_sectors st p.size_in_kb)
    (hout : create_gpt_partition_table st k ps rand = .ok out) :
    out.placed.length = ps.length ∧
      out.hash_w.regions.Pairwise (fun r r' => r.end_sector < r'.start_sector) ∧
      out.hash_w.regions.Pairwise (fun r r' => Disjoint r.sectors r'.sectors) ∧
      (∀ i r, out.hash_w.regions[i]? = some r →
        (i = 0 → st.write_protect_gpt_partition_table = true) → r.Aligned (wp_sectors st)) ∧
      (∀ j p x, ps[j]? = some p → out.placed[j]? = some x → p.readonly = true →
        ¬ grown st ps.length j → ∃ r ∈ out.hash_w.regions, x.sectors ⊆ r.sectors) ∧
      (∀ j p x, ps[j]? = some p → out.placed[j]? = some x → p.readonly = false →
        ∀ r ∈ out.hash_w.regions, Disjoint x.sectors r.sectors ∧
          (grown st ps.length j → r.end_sector < x.first_lba)) := by
  obtain ⟨hash_w, s, img, hhash, hs, -, -, -, -, -, hplaced, -, hhw, -⟩ :=
    create_gpt_partition_table_spec hout
  have hlen := (create_gpt_partition_table_shape hout).1
  have hsep := add_partitions_separated hlarge hsize hhash hs
  rw [← hplaced, ← hhw] at hsep
  have hmem : ∀ {j p x}, ps[j]? = some p → out.placed[j]? = some x →
      (p, x) ∈ ps.zip out.placed := fun hp hx =>
    List.mem_of_getElem? (List.getElem?_zip_eq_some.mpr ⟨hp, hx⟩)
  refine ⟨hlen, hsep.increasing, ?_, fun i r hr hi => hsep.aligned hr hi, ?_, ?_⟩
  · exact hsep.increasing.imp fun hlt => disjoint_Icc (Or.inl hlt)
  · intro j p x hp hx hro _
    obtain ⟨r, hr, hlo, hhi⟩ := hsep.readonly_in _ (hmem hp hx) hro
    exact ⟨r, hr, Set.Icc_subset_Icc hlo hhi⟩
  · intro j p x hp hx hro r hr
    have hout := hsep.writable_out _ (hmem hp hx) hro r hr
    refine ⟨disjoint_Icc (hout.imp And.right id), fun hg => ?_⟩
    rw [hplaced] at hx
    -- a last partition that grows has no sectors yet, so no region begins behind it
    have hempty := grown_extent hs hp hx hg
    rcases hout with ⟨hne, -⟩ | hlt
    · have hne' : x.first_lba ≤ x.last_lba := hne
      omega
    · exact hlt

/-- A readonly partition and a writable one that grows after it. -/
def readonly_then_writable : List Partition :=
  [{ default_partition 0xEBD0A0A2 with size_in_kb := 10, readonly := true },
    { default_partition 0xEBD0A0A2 with size_in_kb := 10 }]

theorem write_protect_separation_default : ∃ out,
    create_gpt_partition_table default_settings 0 readonly_then_writable (fun j => j) = .ok out ∧
      out.hash_w.regions.Pairwise (fun r r' => Disjoint r.sectors r'.sectors) := by
  have husable : SettingsUsable default_settings readonly_then_writable :=
    ⟨by decide, by decide, by decide⟩
  obtain ⟨out, hout⟩ := create_gpt_partition_table_total (by decide) 0 (fun j => j) husable
    (by decide) (by decide)
  have hlarge : BoundaryLargeEnough default_settings := by
    rw [BoundaryLargeEnough, if_neg (by decide)]
    decide
  have hsize : ∀ j p, readonly_then_writable[j]? = some p →
      ¬ grown default_settings readonly_then_writable.length j →
        1 ≤ convert_kb_to_sectors default_settings p.size_in_kb := by
    intro j p hp _
    have hall : ∀ q ∈ readonly_then_writable,
        1 ≤ convert_kb_to_sectors default_settings q.size_in_kb := by decide
    exact hall p (List.mem_of_getElem? hp)
  exact ⟨out, hout,
    (write_protect_separation default_settings 0 _ _ out hlarge hsize hout).2.2.1⟩

end AndroidTools.Ptool
