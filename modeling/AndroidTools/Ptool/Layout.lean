/-
Where `CreateGPTPartitionTable` puts a partition.

The layout loop keeps a cursor: `FirstLBA`, `LastLBA`, the shared variable
`SectorsTillNextBoundary` and `hash_w`. One pass moves `FirstLBA` up to a
performance boundary, measures the distance to the next write-protect boundary,
moves once more depending on the readonly flag and the end of the last region,
and closes the partition with `LastLBA`. Each of these is a definition here under
the words of the source, and `place_partition` is their sequence.

`place_partition_spec` says all a successful pass does: `FirstLBA` only moves up,
the partition has the sectors of its size, and `hash_w` is touched by readonly
partitions alone.
-/
import AndroidTools.Lib.Passes
import AndroidTools.Ptool.WriteProtect

set_option autoImplicit false

namespace AndroidTools.Ptool

open AndroidTools.Boundary AndroidTools.Passes

/-- The variables of the layout loop that decide where partitions go. -/
structure Cursor where
  first_lba : ℤ
  last_lba : ℤ
  sectors_till_next_boundary : ℤ
  hash_w : WPHash
  deriving Repr, DecidableEq

/-- A range as the loop prints it, `FirstLBA=%d and LastLBA=%d`. -/
structure Extent where
  first_lba : ℤ
  last_lba : ℤ
  deriving Repr, DecidableEq

/-- The sectors of a range, its two ends among them. -/
def Extent.sectors (x : Extent) : Set ℤ := Set.Icc x.first_lba x.last_lba

/-! ## The moves of `FirstLBA`

A pass moves `FirstLBA` in two steps, with one variable for the distance that both of them
measure. The second step uses the value of the first where the boundary for the write
protection is 0. The loop is here without the bytes and documents that its passes write,
which do not decide where partitions go.
-/

/-- The text printed for a global performance boundary without alignment names
`Partition`, which no function of the script defines. -/
def check_performance_setting (st : Settings) : Except PyError Unit :=
  if 0 < st.performance_boundary_in_kb ∧ ¬ st.align_partitions_to_performance_boundary then
    .error .nameError
  else .ok ()

/-- The move up to the partition's performance boundary. -/
def align_to_performance_boundary (st : Settings) (p : Partition) (c : Cursor) :
    Except PyError Cursor :=
  if st.align_partitions_to_performance_boundary then
    match return_num_sectors_till_boundary st c.first_lba p.performance_boundary_in_kb with
    | .error e => .error e
    | .ok d =>
      -- a move by nothing is the move the source skips
      .ok { c with sectors_till_next_boundary := d, first_lba := c.first_lba + d }
  else .ok c

/-- `SectorsTillNextBoundary`, measured again when there is a write-protect
boundary and left as it was when there is none. -/
def measure_write_protect_boundary (st : Settings) (c : Cursor) : Except PyError Cursor :=
  if 0 < st.write_protect_boundary_in_kb then
    match return_num_sectors_till_boundary st c.first_lba st.write_protect_boundary_in_kb with
    | .error e => .error e
    | .ok d => .ok { c with sectors_till_next_boundary := d }
  else .ok c

/-- A readonly partition past the end of the last region, and a writable one not
past it, move on to the boundary. -/
def move_first_lba (p : Partition) (c : Cursor) : Cursor :=
  if p.readonly then
    if c.first_lba ≤ c.hash_w.current.end_sector then c
    else { c with first_lba := c.first_lba + c.sectors_till_next_boundary }
  else if c.first_lba ≤ c.hash_w.current.end_sector then
    { c with first_lba := c.first_lba + c.sectors_till_next_boundary }
  else c

/-- The size the loop goes on with: a last partition that grows is set to 0. -/
def placed_size_in_kb (st : Settings) (last : Bool) (p : Partition) : ℤ :=
  if last && st.grow_last_partition_to_fill_disk then 0 else p.size_in_kb

/-- The report of an aligned partition divides by its performance boundary. -/
def report_performance_boundary (st : Settings) (p : Partition) (c : Cursor) :
    Except PyError Unit :=
  if 0 < p.performance_boundary_in_kb ∧ c.first_lba % p.performance_boundary_in_kb = 0 ∧
      convert_kb_to_sectors st p.performance_boundary_in_kb = 0 then
    .error .zeroDivisionError
  else .ok ()

/-- One pass of the layout loop, up to the `UpdateWPhash` call. -/
def place_partition (st : Settings) (last : Bool) (p : Partition) (c : Cursor) :
    Except PyError Cursor := do
  check_performance_setting st
  let c ← align_to_performance_boundary st p c
  let c ← measure_write_protect_boundary st c
  let c := move_first_lba p c
  let sectors := convert_kb_to_sectors st (placed_size_in_kb st last p)
  let c := { c with last_lba := c.first_lba + sectors - 1 }
  report_performance_boundary st p c
  if p.readonly then
    let h ← update_wp_hash st c.hash_w c.first_lba sectors
    return { c with hash_w := h }
  else return c

/-- `LastLBA += 1; FirstLBA = LastLBA`, between two passes. -/
def next_partition (c : Cursor) : Cursor :=
  { c with first_lba := c.last_lba + 1, last_lba := c.last_lba + 1 }

def Cursor.extent (c : Cursor) : Extent := ⟨c.first_lba, c.last_lba⟩

/-- The layout loop from pass `j` of `n` on, without the bytes and documents the
passes also produce: the last cursor and the ranges. -/
def layout_partitions (st : Settings) (n : ℕ) :
    ℕ → List Partition → Cursor → Except PyError (Cursor × List Extent)
  | _, [], c => .ok (c, [])
  | j, p :: ps, c => do
    let c ← place_partition st (decide (j + 1 = n)) p c
    let (c', xs) ← layout_partitions st n (j + 1) ps (next_partition c)
    return (c', c.extent :: xs)

/-! ## What the moves do

Each step has one lemma, with the new cursor and what is unchanged in it. Distances are
never negative, so neither step moves a partition down.
-/

theorem align_to_performance_boundary_spec {st : Settings} {p : Partition} {c c' : Cursor}
    (h : align_to_performance_boundary st p c = .ok c') :
    c.first_lba ≤ c'.first_lba ∧ c'.last_lba = c.last_lba ∧ c'.hash_w = c.hash_w ∧
      (st.align_partitions_to_performance_boundary = false → c' = c) := by
  unfold align_to_performance_boundary at h
  split_ifs at h with ha
  · cases hd : return_num_sectors_till_boundary st c.first_lba p.performance_boundary_in_kb with
    | error e => rw [hd] at h; cases h
    | ok d =>
      have hd0 := return_num_sectors_till_boundary_nonneg hd
      rw [hd] at h
      cases h
      refine ⟨by dsimp only; omega, rfl, rfl, ?_⟩
      rw [ha]
      intro hf
      cases hf
  · cases h
    exact ⟨le_rfl, rfl, rfl, fun _ => rfl⟩

theorem measure_write_protect_boundary_spec {st : Settings} {c c' : Cursor}
    (h : measure_write_protect_boundary st c = .ok c') :
    c'.first_lba = c.first_lba ∧ c'.last_lba = c.last_lba ∧ c'.hash_w = c.hash_w ∧
      (0 < st.write_protect_boundary_in_kb →
        0 < wp_sectors st ∧
          c'.sectors_till_next_boundary = tillBoundary (wp_sectors st) c.first_lba) ∧
      (st.write_protect_boundary_in_kb = 0 → c' = c) := by
  unfold measure_write_protect_boundary at h
  split_ifs at h with hkb
  · cases hd : return_num_sectors_till_boundary st c.first_lba
      st.write_protect_boundary_in_kb with
    | error e => rw [hd] at h; cases h
    | ok d =>
      have hpos := return_num_sectors_till_boundary_pos hd (by exact_mod_cast hkb)
      rw [hd] at h
      cases h
      exact ⟨rfl, rfl, rfl, fun _ => hpos, fun h0 => absurd h0 hkb.ne'⟩
  · cases h
    exact ⟨rfl, rfl, rfl, fun h0 => absurd h0 hkb, fun _ => rfl⟩

/-- The distance is never negative, whichever of the two moves measured it. -/
theorem sectors_till_next_boundary_nonneg {st : Settings} {p : Partition} {c c₁ c₂ : Cursor}
    (hc : 0 ≤ c.sectors_till_next_boundary)
    (h₁ : align_to_performance_boundary st p c = .ok c₁)
    (h₂ : measure_write_protect_boundary st c₁ = .ok c₂) :
    0 ≤ c₂.sectors_till_next_boundary := by
  have hc₁ : 0 ≤ c₁.sectors_till_next_boundary := by
    unfold align_to_performance_boundary at h₁
    split_ifs at h₁ with ha
    · cases hd : return_num_sectors_till_boundary st c.first_lba
        p.performance_boundary_in_kb with
      | error e => rw [hd] at h₁; cases h₁
      | ok d =>
        rw [hd] at h₁
        cases h₁
        exact return_num_sectors_till_boundary_nonneg hd
    · cases h₁
      exact hc
  obtain ⟨-, -, -, hwp, hno⟩ := measure_write_protect_boundary_spec h₂
  rcases Nat.eq_zero_or_pos st.write_protect_boundary_in_kb with h0 | h0
  · rw [hno h0]
    exact hc₁
  · obtain ⟨hw, hd⟩ := hwp h0
    rw [hd]
    exact tillBoundary_nonneg hw

theorem move_first_lba_frame (p : Partition) (c : Cursor) :
    (move_first_lba p c).last_lba = c.last_lba ∧ (move_first_lba p c).hash_w = c.hash_w ∧
      (move_first_lba p c).sectors_till_next_boundary = c.sectors_till_next_boundary := by
  unfold move_first_lba
  split_ifs <;> exact ⟨rfl, rfl, rfl⟩

theorem le_move_first_lba {p : Partition} {c : Cursor} (h : 0 ≤ c.sectors_till_next_boundary) :
    c.first_lba ≤ (move_first_lba p c).first_lba := by
  unfold move_first_lba
  split_ifs <;> simp [h]

/-! ## One pass

All a pass does when it returns, as equations between the cursor before it and the one
behind it. What follows about layouts is proved from these equations.
-/

/-- The steps of a pass that returns, each with what it returned. -/
theorem place_partition_steps {st : Settings} {last : Bool} {p : Partition} {c c' : Cursor}
    (h : place_partition st last p c = .ok c') :
    ∃ c₁ c₂ w, align_to_performance_boundary st p c = .ok c₁ ∧
      measure_write_protect_boundary st c₁ = .ok c₂ ∧
      c' = { move_first_lba p c₂ with
        last_lba := (move_first_lba p c₂).first_lba
          + convert_kb_to_sectors st (placed_size_in_kb st last p) - 1
        hash_w := w } ∧
      (p.readonly = false → w = (move_first_lba p c₂).hash_w) ∧
      (p.readonly = true →
        update_wp_hash st (move_first_lba p c₂).hash_w (move_first_lba p c₂).first_lba
          (convert_kb_to_sectors st (placed_size_in_kb st last p)) = .ok w) := by
  unfold place_partition at h
  obtain ⟨-, -, h⟩ := bind_ok h
  obtain ⟨c₁, h₁, h⟩ := bind_ok h
  obtain ⟨c₂, h₂, h⟩ := bind_ok h
  obtain ⟨-, -, h⟩ := bind_ok h
  split_ifs at h with hro
  · obtain ⟨w, hw, h⟩ := bind_ok h
    cases h
    exact ⟨c₁, c₂, w, h₁, h₂, rfl, fun hf => absurd (hro.symm.trans hf) (by decide), fun _ => hw⟩
  · cases h
    exact ⟨c₁, c₂, _, h₁, h₂, rfl, fun _ => rfl, fun ht => absurd ht hro⟩

/-- What a successful pass does, `m` being the cursor just before the move that
depends on the readonly flag. -/
structure PlacedFrom (st : Settings) (last : Bool) (p : Partition) (c m c' : Cursor) : Prop where
  raised : c.first_lba ≤ m.first_lba
  till_nonneg : 0 ≤ m.sectors_till_next_boundary
  till_eq : 0 < st.write_protect_boundary_in_kb → 0 < wp_sectors st ∧
    m.sectors_till_next_boundary = tillBoundary (wp_sectors st) m.first_lba
  hash_eq : m.hash_w = c.hash_w
  first_eq : c'.first_lba = (move_first_lba p m).first_lba
  last_eq : c'.last_lba
    = c'.first_lba + convert_kb_to_sectors st (placed_size_in_kb st last p) - 1
  till_kept : c'.sectors_till_next_boundary = m.sectors_till_next_boundary
  writable_hash : p.readonly = false → c'.hash_w = c.hash_w
  readonly_hash : p.readonly = true → update_wp_hash st c.hash_w c'.first_lba
    (convert_kb_to_sectors st (placed_size_in_kb st last p)) = .ok c'.hash_w

theorem place_partition_spec {st : Settings} {last : Bool} {p : Partition} {c c' : Cursor}
    (hc : 0 ≤ c.sectors_till_next_boundary) (h : place_partition st last p c = .ok c') :
    ∃ m, PlacedFrom st last p c m c' := by
  obtain ⟨c₁, c₂, w, h₁, h₂, rfl, hwritable, hreadonly⟩ := place_partition_steps h
  obtain ⟨hup, -, hhash₁, -⟩ := align_to_performance_boundary_spec h₁
  obtain ⟨hfirst₂, -, hhash₂, hwp, -⟩ := measure_write_protect_boundary_spec h₂
  have hframe := move_first_lba_frame p c₂
  have hhash : (move_first_lba p c₂).hash_w = c.hash_w := by
    rw [hframe.2.1, hhash₂, hhash₁]
  rw [hhash] at hwritable hreadonly
  exact ⟨c₂, {
    raised := by omega
    till_nonneg := sectors_till_next_boundary_nonneg hc h₁ h₂
    till_eq := by
      rw [hfirst₂]
      exact hwp
    hash_eq := by rw [hhash₂, hhash₁]
    first_eq := rfl
    last_eq := rfl
    till_kept := hframe.2.2
    writable_hash := hwritable
    readonly_hash := hreadonly }⟩

/-! ## When the layout succeeds

Every exception of the layout is a division by a boundary without sectors, or the text with
an undefined name. Settings without these place every partition, wherever the cursor is.
-/

/-- The settings the layout does not raise on: every boundary in use has at least
a sector, and a global performance boundary is not left without alignment. -/
structure SettingsUsable (st : Settings) (ps : List Partition) : Prop where
  no_name_error : 0 < st.performance_boundary_in_kb →
    st.align_partitions_to_performance_boundary = true
  write_protect : 0 < st.write_protect_boundary_in_kb → 0 < wp_sectors st
  performance : ∀ p ∈ ps, 0 < p.performance_boundary_in_kb →
    0 < convert_kb_to_sectors st p.performance_boundary_in_kb

theorem return_num_sectors_till_boundary_total {st : Settings} {b : ℤ} (c : ℤ)
    (h : 0 < b → 0 < convert_kb_to_sectors st b) :
    ∃ d, return_num_sectors_till_boundary st c b = .ok d := by
  unfold return_num_sectors_till_boundary
  split_ifs with hb hz
  · exact absurd (h hb) (by omega)
  · exact ⟨_, rfl⟩
  · exact ⟨_, rfl⟩

theorem update_wp_hash_total {st : Settings} (h : WPHash) (start size : ℤ)
    (hw : 0 < st.write_protect_boundary_in_kb → 0 < wp_sectors st) :
    ∃ h', update_wp_hash st h start size = .ok h' := by
  unfold update_wp_hash
  dsimp only
  by_cases hkb : st.write_protect_boundary_in_kb = 0
  · exact ⟨h, by rw [if_pos hkb]⟩
  · have hw0 : wp_sectors st ≠ 0 := (hw (Nat.pos_of_ne_zero hkb)).ne'
    rw [if_neg hkb, if_neg hw0, if_neg hw0]
    split_ifs <;> exact ⟨_, rfl⟩

/-- With usable settings every partition is placed, wherever the cursor is. -/
theorem place_partition_total {st : Settings} {ps : List Partition} (hst : SettingsUsable st ps)
    {p : Partition} (hp : p ∈ ps) (last : Bool) (c : Cursor) :
    ∃ c', place_partition st last p c = .ok c' := by
  have h₀ : check_performance_setting st = .ok () := by
    rw [check_performance_setting, if_neg]
    rintro ⟨hpos, hno⟩
    exact hno (hst.no_name_error hpos)
  obtain ⟨c₁, h₁⟩ : ∃ c₁, align_to_performance_boundary st p c = .ok c₁ := by
    unfold align_to_performance_boundary
    split_ifs
    · obtain ⟨d, hd⟩ :=
        return_num_sectors_till_boundary_total c.first_lba (hst.performance p hp)
      exact ⟨_, by rw [hd]⟩
    · exact ⟨c, rfl⟩
  obtain ⟨c₂, h₂⟩ : ∃ c₂, measure_write_protect_boundary st c₁ = .ok c₂ := by
    unfold measure_write_protect_boundary
    split_ifs with hkb
    · have hpos : 0 < (st.write_protect_boundary_in_kb : ℤ) →
          0 < convert_kb_to_sectors st st.write_protect_boundary_in_kb :=
        fun _ => hst.write_protect hkb
      obtain ⟨d, hd⟩ := return_num_sectors_till_boundary_total c₁.first_lba hpos
      exact ⟨_, by rw [hd]⟩
    · exact ⟨c₁, rfl⟩
  have h₃ : ∀ c, report_performance_boundary st p c = .ok () := by
    intro c
    rw [report_performance_boundary, if_neg]
    rintro ⟨hpos, -, hzero⟩
    exact absurd (hst.performance p hp hpos) (by omega)
  -- all checks pass, and the update of the hash needs only its boundary
  unfold place_partition
  simp only [h₀, h₁, h₂, h₃, ok_bind]
  split_ifs
  · obtain ⟨w, hw⟩ := update_wp_hash_total (move_first_lba p c₂).hash_w
      (move_first_lba p c₂).first_lba
      (convert_kb_to_sectors st (placed_size_in_kb st last p)) hst.write_protect
    exact ⟨_, by rw [hw]; rfl⟩
  · exact ⟨_, rfl⟩

/-- `FirstLBA` only moves up in a pass. -/
theorem PlacedFrom.first_le {st : Settings} {last : Bool} {p : Partition} {c m c' : Cursor}
    (h : PlacedFrom st last p c m c') : c.first_lba ≤ c'.first_lba := by
  have hm := le_move_first_lba (p := p) h.till_nonneg
  rw [h.first_eq]
  exact h.raised.trans hm

end AndroidTools.Ptool
