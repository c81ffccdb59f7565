/-
`hash_w`, the list of write-protected regions, and `UpdateWPhash`, which makes
the last region reach the end of a partition or opens a new one.

Only the last region is ever changed, so `hash_w` is kept as the regions before
it and the region itself. The growing loop ends because each pass moves the end
of the region by a boundary of at least one sector; with a boundary of no sectors
the source divides by it in the first pass and raises. What the loop leaves is
`Grown`: a multiple of the boundary was added, the end is far enough, and no
smaller multiple would have been.
-/
import AndroidTools.Ptool.Settings

set_option autoImplicit false

namespace AndroidTools.Ptool

/-- One entry of `hash_w`, with the keys that the program reads. -/
structure WPRegion where
  start_sector : ℤ
  num_sectors : ℤ
  end_sector : ℤ
  physical_partition_number : ℤ
  boundary_num : ℤ
  num_boundaries_covered : ℤ
  deriving Repr, DecidableEq

/-- `hash_w`; `current` is `hash_w[NumWPregions]`, its last entry. -/
structure WPHash where
  closed : List WPRegion
  current : WPRegion
  deriving Repr, DecidableEq

/-- The list of the regions as the source has it. -/
def WPHash.regions (h : WPHash) : List WPRegion := h.closed ++ [h.current]

/-- `hash_w` as `ParseXML` leaves it, with one region. -/
def initial_wp_hash (st : Settings) : WPHash where
  closed := []
  current :=
    if st.write_protect_boundary_in_kb = 0 ∨
        (st.output_is_gpt ∧ ¬ st.write_protect_gpt_partition_table) then
      ⟨0, 0, 0, 0, 0, 0⟩
    else ⟨0, wp_sectors st, wp_sectors st - 1, 0, 0, 1⟩

/-- The body of the growing loops: one boundary is added to the region. -/
def grow_by (w : ℤ) (r : WPRegion) : WPRegion :=
  { r with
    num_sectors := r.num_sectors + w
    end_sector := r.end_sector + w
    num_boundaries_covered := (r.num_sectors + w) / w }

/-- `while last > end_sector`, for at most `fuel` passes. -/
def grow_while (w last : ℤ) : ℕ → WPRegion → WPRegion
  | 0, r => r
  | fuel + 1, r => if r.end_sector < last then grow_while w last fuel (grow_by w r) else r

/-- The growing loop: each pass moves the end by at least one sector. -/
def grow_region (w last : ℤ) (r : WPRegion) : WPRegion :=
  grow_while w last (last - r.end_sector).toNat r

/-- `UpdateWPhash`: the last region is made longer, or a new one is opened. -/
def update_wp_hash (st : Settings) (h : WPHash) (start size : ℤ) : Except PyError WPHash :=
  let w := wp_sectors st
  if st.write_protect_boundary_in_kb = 0 then .ok h
  else if start - 1 ≤ h.current.end_sector then
    if h.current.end_sector < start + size - 1 then
      -- `num_boundaries_covered` divides by the boundary in the first pass
      if w = 0 then .error .zeroDivisionError
      else .ok { h with current := grow_region w (start + size - 1) h.current }
    else .ok h
  else if w = 0 then .error .zeroDivisionError
  else
    let r := grow_region w (start + size - 1) ⟨start, w, start + w - 1, 0, start / w, 1⟩
    .ok
      { closed := h.closed ++ [h.current]
        current := { r with num_boundaries_covered := r.num_sectors / w } }

/-! ## The growing loop

The loop adds one boundary at a time until the region reaches the sector that is asked for.
With a boundary of at least one sector it ends, with the fewest boundaries that are enough.
-/

/-- `r'` is `r` with the fewest boundaries added that make it reach `last`. -/
structure Grown (w last : ℤ) (r r' : WPRegion) : Prop where
  start_eq : r'.start_sector = r.start_sector
  added : ∃ k : ℤ, 0 ≤ k ∧ r'.num_sectors = r.num_sectors + k * w ∧
    r'.end_sector = r.end_sector + k * w
  reaches : last ≤ r'.end_sector
  least : r'.end_sector = r.end_sector ∨ r'.end_sector - w < last

theorem grow_while_spec {w last : ℤ} (hw : 0 < w) (fuel : ℕ) (r : WPRegion)
    (hfuel : last - r.end_sector ≤ fuel) : Grown w last r (grow_while w last fuel r) := by
  induction fuel generalizing r with
  | zero =>
    exact ⟨rfl, ⟨0, le_rfl, by simp [grow_while], by simp [grow_while]⟩,
      by rw [grow_while]; omega, Or.inl rfl⟩
  | succ fuel ih =>
    unfold grow_while
    split_ifs with hlt
    · have hg := ih (grow_by w r) (by simp only [grow_by]; omega)
      obtain ⟨k, hk, hnum, hend⟩ := hg.added
      refine ⟨hg.start_eq, ⟨k + 1, by omega, ?_, ?_⟩, hg.reaches, ?_⟩
      · rw [hnum, grow_by]
        ring
      · rw [hend, grow_by]
        ring
      · -- either the next pass added more, or this one was the last and was needed
        rcases hg.least with h | h
        · right
          rw [h, grow_by]
          dsimp only
          omega
        · exact Or.inr h
    · exact ⟨rfl, ⟨0, le_rfl, by simp, by simp⟩, by omega, Or.inl rfl⟩

theorem grow_region_spec {w : ℤ} (hw : 0 < w) (last : ℤ) (r : WPRegion) :
    Grown w last r (grow_region w last r) :=
  grow_while_spec hw _ r (Int.self_le_toNat _)

/-! ## What `UpdateWPhash` does

A call extends the last region or opens a new one. The two cases have all that later proofs
need, and none of them unfolds the function.
-/

/-- The two things a successful update may do: the last region reaches on, or a
new one starts at `start`. -/
theorem update_wp_hash_cases {st : Settings} {h h' : WPHash} {start size : ℤ}
    (hu : update_wp_hash st h start size = .ok h') (hw : 0 < wp_sectors st) :
    (start - 1 ≤ h.current.end_sector ∧ h'.closed = h.closed ∧
        Grown (wp_sectors st) (start + size - 1) h.current h'.current) ∨
      (h.current.end_sector < start - 1 ∧ h'.closed = h.closed ++ [h.current] ∧
        Grown (wp_sectors st) (start + size - 1)
          ⟨start, wp_sectors st, start + wp_sectors st - 1, 0, start / wp_sectors st, 1⟩
          h'.current) := by
  have hkb : st.write_protect_boundary_in_kb ≠ 0 := by
    intro h0
    rw [wp_sectors, h0, Nat.cast_zero, convert_kb_to_sectors_zero] at hw
    omega
  have hw0 : wp_sectors st ≠ 0 := by omega
  unfold update_wp_hash at hu
  dsimp only at hu
  rw [if_neg hkb] at hu
  split_ifs at hu with hcover hshort
  · cases hu
    exact Or.inl ⟨hcover, rfl, grow_region_spec hw _ _⟩
  · cases hu
    exact Or.inl ⟨hcover, rfl, rfl, ⟨0, le_rfl, by simp, by simp⟩, by omega, Or.inl rfl⟩
  · cases hu
    have hg := grow_region_spec hw (start + size - 1)
      ⟨start, wp_sectors st, start + wp_sectors st - 1, 0, start / wp_sectors st, 1⟩
    exact Or.inr ⟨by omega, rfl, hg.start_eq, hg.added, hg.reaches, hg.least⟩

theorem regions_eq (h : WPHash) : h.regions = h.closed ++ [h.current] := rfl

end AndroidTools.Ptool
