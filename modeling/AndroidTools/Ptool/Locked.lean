/-
What `emmc_lock_regions.xml` locks in MBR mode.

Regions only grow, so a sector that is covered stays covered. A partition that is written to has
to start past the end of the last region, whose next boundary is the sector after that end; `near`
says that `FirstLBA` has not fallen behind the last boundary of the region. Two things go wrong: a
partition with `align="true"` is moved to its own boundary without a look at the region, and a
read-only one without sectors opens a region that the next partition starts in.

`Locking` is the invariant between two passes, and `locking_step` says that every pass keeps it,
whether the partition stays out or not. Whether it does is a condition on the cursor before the
pass, `StaysOut`, and one partition that does not is enough for the call to lock what it should
not, since no later pass takes a sector out of a region again.
-/
import AndroidTools.Ptool.MbrLoop
import AndroidTools.Ptool.Separation

set_option autoImplicit false

namespace AndroidTools.Ptool

open AndroidTools.Boundary AndroidTools.Passes

/-! ## Regions

`UpdateWPhash` on the list of regions, without partitions. Regions are made of whole
boundaries, and what an update adds lies at and behind the sector it is called with.
-/

/-- A region as `emmc_lock_regions.xml` describes it: its start and its length are whole
boundaries, and its numbers agree. -/
structure WPRegion.Whole (w : ℤ) (r : WPRegion) : Prop where
  start_eq : r.start_sector = r.boundary_num * w
  num_eq : r.num_sectors = r.end_sector - r.start_sector + 1
  covered_eq : r.num_boundaries_covered * w = r.num_sectors

/-- The sector lies in one of the regions. -/
def WPHash.Covers (h : WPHash) (s : ℤ) : Prop := ∃ r ∈ h.regions, s ∈ r.sectors

theorem grow_by_whole {w : ℤ} {r : WPRegion} (hr : r.Whole w) :
    (grow_by w r).Whole w := by
  have hnum := hr.num_eq
  refine ⟨hr.start_eq, ?_, ?_⟩
  · simp only [grow_by]
    omega
  · have hdvd : w ∣ r.num_sectors + w :=
      dvd_add ⟨r.num_boundaries_covered, by rw [← hr.covered_eq, mul_comm]⟩ (dvd_refl w)
    exact Int.ediv_mul_cancel hdvd

theorem grow_while_whole {w : ℤ} (last : ℤ) (fuel : ℕ) {r : WPRegion}
    (hr : r.Whole w) : (grow_while w last fuel r).Whole w := by
  induction fuel generalizing r with
  | zero => exact hr
  | succ fuel ih =>
    rw [grow_while]
    split_ifs
    · exact ih (grow_by_whole hr)
    · exact hr

section Update

variable {st : Settings} {h h' : WPHash} {start size s : ℤ}

/-- An update keeps the regions whole, if it starts where the last one goes on or on a
boundary. -/
theorem update_wp_hash_whole
    (hu : update_wp_hash st h start size = .ok h') (hh : ∀ r ∈ h.regions, r.Whole (wp_sectors st))
    (hstart : start - 1 ≤ h.current.end_sector ∨ wp_sectors st ∣ start) :
    ∀ r ∈ h'.regions, r.Whole (wp_sectors st) := by
  have hcurrent := hh h.current (current_mem h)
  have hclosed : ∀ r ∈ h.closed, r.Whole (wp_sectors st) := fun r hr =>
    hh r (mem_regions.mpr (Or.inl hr))
  unfold update_wp_hash at hu
  dsimp only at hu
  intro r hr
  rw [mem_regions] at hr
  split_ifs at hu with hkb hcover hshort hw0 hw0
  · cases hu
    exact hh r (mem_regions.mpr hr)
  · cases hu
    rcases hr with hr | rfl
    · exact hclosed r hr
    · exact grow_while_whole _ _ hcurrent
  · cases hu
    exact hh r (mem_regions.mpr hr)
  · cases hu
    rcases hr with hr | rfl
    · exact hh r hr
    · -- a new region, on a boundary
      have hdvd := hstart.resolve_left hcover
      have hnew : (⟨start, wp_sectors st, start + wp_sectors st - 1, 0, start / wp_sectors st, 1⟩ :
          WPRegion).Whole (wp_sectors st) :=
        ⟨(Int.ediv_mul_cancel hdvd).symm, by dsimp only; omega, one_mul _⟩
      have hgrown : (grow_region (wp_sectors st) (start + size - 1) _).Whole (wp_sectors st) :=
        grow_while_whole _ _ hnew
      refine ⟨hgrown.start_eq, hgrown.num_eq, Int.ediv_mul_cancel ?_⟩
      exact ⟨_, by rw [← hgrown.covered_eq, mul_comm]⟩

theorem current_start_le (hw : 0 < wp_sectors st) (hu : update_wp_hash st h start size = .ok h')
    (hle : h.current.start_sector ≤ start) : h'.current.start_sector ≤ start := by
  rcases update_wp_hash_cases hu hw with ⟨-, -, hg⟩ | ⟨-, -, hg⟩
  · rw [hg.start_eq]
    exact hle
  · rw [hg.start_eq]

/-- The last region stays the one that ends last. -/
theorem end_le_current (hw : 0 < wp_sectors st) (hu : update_wp_hash st h start size = .ok h')
    (hh : ∀ r ∈ h.regions, r.end_sector ≤ h.current.end_sector) :
    ∀ r ∈ h'.regions, r.end_sector ≤ h'.current.end_sector := by
  intro r hr
  rcases update_wp_hash_cases hu hw with ⟨-, hclosed, hg⟩ | ⟨hlt, hclosed, hg⟩
  · have hle := hg.end_le hw
    rcases mem_regions.mp hr with hr | rfl
    · rw [hclosed] at hr
      exact (hh r (mem_regions.mpr (Or.inl hr))).trans hle
    · exact le_rfl
  · have hle := hg.end_le hw
    dsimp only at hle
    rcases mem_regions.mp hr with hr | rfl
    · rw [hclosed] at hr
      have := hh r hr
      omega
    · exact le_rfl

/-- **Regions only grow**: a sector that is covered stays covered. -/
theorem covers_mono (hw : 0 < wp_sectors st) (hu : update_wp_hash st h start size = .ok h')
    (hs : h.Covers s) : h'.Covers s := by
  obtain ⟨r, hr, hlo, hhi⟩ := hs
  rcases update_wp_hash_cases hu hw with ⟨-, hclosed, hg⟩ | ⟨-, hclosed, -⟩
  · rcases mem_regions.mp hr with hr | rfl
    · exact ⟨r, mem_regions.mpr (Or.inl (by rw [hclosed]; exact hr)), hlo, hhi⟩
    · exact ⟨_, current_mem h', by rw [hg.start_eq]; exact hlo, hhi.trans (hg.end_le hw)⟩
  · refine ⟨r, mem_regions.mpr (Or.inl ?_), hlo, hhi⟩
    rw [hclosed]
    exact hr

/-- An update covers no new sector below its start. -/
theorem covers_of_lt (hw : 0 < wp_sectors st) (hu : update_wp_hash st h start size = .ok h')
    (hlt : s < start) (hs : h'.Covers s) : h.Covers s := by
  obtain ⟨r, hr, hlo, hhi⟩ := hs
  rcases update_wp_hash_cases hu hw with ⟨hcover, hclosed, hg⟩ | ⟨-, hclosed, hg⟩
  · rcases mem_regions.mp hr with hr | rfl
    · exact ⟨r, mem_regions.mpr (Or.inl (by rw [← hclosed]; exact hr)), hlo, hhi⟩
    · rw [hg.start_eq] at hlo
      exact ⟨_, current_mem h, hlo, by omega⟩
  · rcases mem_regions.mp hr with hr | rfl
    · rw [hclosed] at hr
      exact ⟨r, hr, hlo, hhi⟩
    · rw [hg.start_eq] at hlo
      exact absurd hlt (not_lt.mpr hlo)

/-- The sectors that an update is for are covered after it. -/
theorem covers_block (hw : 0 < wp_sectors st) (hu : update_wp_hash st h start size = .ok h')
    (hle : h.current.start_sector ≤ start) (hlo : start ≤ s) (hhi : s < start + size) :
    h'.Covers s := by
  refine ⟨_, current_mem h', (current_start_le hw hu hle).trans hlo, ?_⟩
  have hreaches : start + size - 1 ≤ h'.current.end_sector := by
    rcases update_wp_hash_cases hu hw with ⟨-, -, hg⟩ | ⟨-, -, hg⟩
    · exact hg.reaches
    · exact hg.reaches
  omega

end Update

/-! ## Between two passes

The invariant, and the three ways in which it goes on: the cursor moves over sectors that
are not locked, it moves over sectors that are, and one more partition is counted as passed.
-/

/-- The sectors of a partition as it was put. -/
def MbrPlaced.range (x : MbrPlaced) : Set ℤ := Set.Ico x.first_lba (x.first_lba + x.sectors)

/-- What holds of `hash_w` and the partitions passed so far, wherever they were put. -/
structure Locking (st : MbrSettings) (c : MbrCursor) (placed : List MbrPlaced) : Prop where
  whole : ∀ r ∈ c.hash_w.regions, r.Whole (wp_sectors st.toSettings)
  end_le : ∀ r ∈ c.hash_w.regions, r.end_sector ≤ c.hash_w.current.end_sector
  near : c.hash_w.current.end_sector + 1 - wp_sectors st.toSettings ≤ c.first_lba
  start_le : c.hash_w.current.start_sector ≤ c.first_lba
  readonly_in : ∀ x ∈ placed, x.partition.readonly = true → ∀ s ∈ x.range, c.hash_w.Covers s
  behind : ∀ x ∈ placed, ∀ s ∈ x.range, s < c.first_lba

/-- No sector of a writable partition is in a region. -/
def WritableOut (h : WPHash) (placed : List MbrPlaced) : Prop :=
  ∀ x ∈ placed, x.partition.readonly = false → ∀ s ∈ x.range, ¬ h.Covers s

section Pass

variable {st : MbrSettings} {c : MbrCursor} {placed : List MbrPlaced} {first size : ℤ}

/-- The sector behind the last region is on a boundary. -/
theorem Locking.dvd_end (hl : Locking st c placed) :
    wp_sectors st.toSettings ∣ c.hash_w.current.end_sector + 1 := by
  have hr := hl.whole _ (current_mem c.hash_w)
  have hnum := hr.num_eq
  refine ⟨c.hash_w.current.boundary_num + c.hash_w.current.num_boundaries_covered, ?_⟩
  rw [mul_comm, add_mul, ← hr.start_eq, hr.covered_eq]
  omega

/-- Moving the cursor up, with the regions as they are, keeps `Locking`. -/
theorem Locking.move (hl : Locking st c placed) {c' : MbrCursor}
    (hfirst : c.first_lba ≤ c'.first_lba) (hhash : c'.hash_w = c.hash_w) :
    Locking st c' placed := by
  refine ⟨by rw [hhash]; exact hl.whole, by rw [hhash]; exact hl.end_le, ?_, ?_,
    by rw [hhash]; exact hl.readonly_in, ?_⟩
  · rw [hhash]
    exact hl.near.trans hfirst
  · rw [hhash]
    exact hl.start_le.trans hfirst
  · intro x hx s hs
    exact (hl.behind x hx s hs).trans_le hfirst

/-- Moving the cursor past sectors that get locked keeps `Locking`. -/
theorem Locking.update (hw : 0 < wp_sectors st.toSettings) (hl : Locking st c placed)
    {c' : MbrCursor} (hfirst : c.first_lba ≤ first) (hsize : 0 ≤ size)
    (haligned : first - 1 ≤ c.hash_w.current.end_sector ∨ wp_sectors st.toSettings ∣ first)
    (hu : update_wp_hash st.toSettings c.hash_w first size = .ok c'.hash_w)
    (hc' : c'.first_lba = first + size) : Locking st c' placed := by
  have hstart := current_start_le hw hu (hl.start_le.trans hfirst)
  refine ⟨update_wp_hash_whole hu hl.whole haligned, end_le_current hw hu hl.end_le, ?_, by omega,
    ?_, ?_⟩
  · have hnear := hl.near
    rcases update_wp_hash_cases hu hw with ⟨-, -, hg⟩ | ⟨-, -, hg⟩
    · have hleast := hg.least
      omega
    · have hleast := hg.least
      dsimp only at hleast
      omega
  · intro x hx hro s hs
    exact covers_mono hw hu (hl.readonly_in x hx hro s hs)
  · intro x hx s hs
    have := hl.behind x hx s hs
    omega

/-- Passing one more partition keeps `Locking`, if its sectors are locked or it is writable, and
it ends at the cursor at the latest. -/
theorem Locking.concat (hl : Locking st c placed) {x : MbrPlaced}
    (hin : x.partition.readonly = true → ∀ s ∈ x.range, c.hash_w.Covers s)
    (hbehind : x.first_lba + x.sectors ≤ c.first_lba) : Locking st c (placed ++ [x]) := by
  refine ⟨hl.whole, hl.end_le, hl.near, hl.start_le, ?_, ?_⟩
  · intro y hy hro
    rcases List.mem_append.mp hy with hy | hy
    · exact hl.readonly_in y hy hro
    · rw [List.mem_singleton.mp hy] at hro ⊢
      exact hin hro
  · intro y hy s hs
    rcases List.mem_append.mp hy with hy | hy
    · exact hl.behind y hy s hs
    · rw [List.mem_singleton.mp hy] at hs
      exact hs.2.trans_le hbehind

end Pass

/-! ## Primary partitions

The partitions in front of the logical ones are all made read-only, so nothing that is
written to lies there. The region reaches up to the cursor after every pass.
-/

section Primary

variable {st : MbrSettings} {k n : ℕ}

/-- Between two primary partitions: the region reaches up to the cursor. -/
structure PrimaryLocking (st : MbrSettings) (s : MbrState) : Prop where
  locking : Locking st s.cursor s.placed
  reached : s.cursor.first_lba - 1 ≤ s.cursor.hash_w.current.end_sector
  last_eq : s.cursor.last_lba = s.cursor.first_lba
  covers_mbr : s.cursor.hash_w.Covers 0
  all_readonly : ∀ x ∈ s.placed, x.partition.readonly = true

theorem primary_locking_start (hw : 0 < wp_sectors st.toSettings) (mbr : List UInt8) :
    PrimaryLocking st (starting_mbr_state st mbr) := by
  have hkb := write_protect_boundary_pos hw
  have hinitial : initial_wp_hash st.toSettings
      = ⟨[], ⟨0, wp_sectors st.toSettings, wp_sectors st.toSettings - 1, 0, 0, 1⟩⟩ := by
    have hno : ¬ (st.write_protect_boundary_in_kb = 0 ∨
        (st.output_is_gpt ∧ ¬ st.write_protect_gpt_partition_table)) := by
      rw [st.output_is_not_gpt]
      simp only [Bool.false_eq_true, false_and, or_false]
      omega
    rw [initial_wp_hash, if_neg hno]
  -- there is one region, from sector 0 on, and no partition yet
  refine ⟨⟨?_, ?_, ?_, ?_, ?_, ?_⟩, ?_, rfl, ?_, ?_⟩
  · intro r hr
    rw [starting_mbr_state] at hr
    dsimp only at hr
    rw [hinitial, mem_regions] at hr
    rcases hr with hr | rfl
    · cases hr
    · exact ⟨by simp, by dsimp only; omega, one_mul _⟩
  · intro r hr
    rw [starting_mbr_state] at hr ⊢
    dsimp only at hr ⊢
    rw [hinitial, mem_regions] at hr
    rw [hinitial]
    rcases hr with hr | rfl
    · cases hr
    · exact le_rfl
  · simp only [starting_mbr_state, hinitial]
    omega
  · simp only [starting_mbr_state, hinitial]
    omega
  · intro x hx
    cases hx
  · intro x hx
    cases hx
  · simp only [starting_mbr_state, hinitial]
    omega
  · refine ⟨_, current_mem _, ?_⟩
    simp only [starting_mbr_state, hinitial, WPRegion.sectors, Set.mem_Icc]
    omega
  · intro x hx
    cases hx

theorem primary_locking_step (hw : 0 < wp_sectors st.toSettings) {j : ℕ} {p : MbrPartition}
    {s s' : MbrState} (hsize : 0 ≤ p.size_in_kb) (hs : PrimaryLocking st s)
    (h : add_primary st k n j p s = .ok s') : PrimaryLocking st s' := by
  obtain ⟨hash_w, hu, -, rfl⟩ := add_primary_spec h
  have hpos := convert_kb_to_sectors_nonneg st.toSettings hsize
  have hlast := hs.last_eq
  have hstart := hs.locking.start_le
  refine ⟨?_, ?_, rfl, covers_mono hw hu hs.covers_mbr, ?_⟩
  · refine (hs.locking.update hw le_rfl hpos (Or.inl hs.reached) hu ?_).concat ?_ ?_
    · dsimp only
      rw [hlast]
    · rintro - x ⟨hlo, hhi⟩
      exact covers_block hw hu hstart hlo hhi
    · dsimp only
      omega
  · dsimp only
    rcases update_wp_hash_cases hu hw with ⟨-, -, hg⟩ | ⟨-, -, hg⟩
    · have := hg.reaches
      omega
    · have := hg.reaches
      omega
  · intro x hx
    rcases List.mem_append.mp hx with hx | hx
    · exact hs.all_readonly x hx
    · rw [List.mem_singleton.mp hx]

theorem primary_locking {ps : List MbrPartition} {s : MbrState}
    (hw : 0 < wp_sectors st.toSettings) (hsize : ∀ p ∈ ps, 0 ≤ p.size_in_kb)
    (h : create_master_boot_record st k n ps = .ok s) : PrimaryLocking st s := by
  obtain ⟨mbr, -, h⟩ := create_master_boot_record_spec h
  exact add_primaries_invariant (fun _ t => PrimaryLocking st t)
    (fun i p t t' hp hI ht => primary_locking_step hw (hsize p hp) hI ht)
    (primary_locking_start hw mbr) h

end Primary

/-! ## Logical partitions

Here a pass can leave the cursor inside the region, and `StaysOut` is the condition for the
next partition to start outside all the same. It is proved for one pass in both directions,
and then for the rest of the loop.
-/

/-- If the partition is written to and has sectors, its start is moved out of the last
region, or is not in it. -/
def StaysOut (st : MbrSettings) (last : Bool) (p : MbrPartition) (c : MbrCursor) : Prop :=
  (unlock_last last p).readonly = false → 0 < logical_size st last p →
    if p.align then c.hash_w.current.end_sector < aligned_start st c.first_lba
    else c.hash_w.current.end_sector < c.first_lba ∨ ¬ wp_sectors st.toSettings ∣ c.first_lba

/-- Every partition of a list stays out, from partition `j` of `n` on, each at the cursor with
which its pass begins. -/
def AllStayOut (st : MbrSettings) (n : ℕ) : ℕ → List MbrPartition → MbrCursor → Prop
  | _, [], _ => True
  | j, p :: ps, c => StaysOut st (decide (j + 1 = n)) p c ∧
    ∀ x c', place_logical st (decide (j + 1 = n)) p c = .ok (x, c') →
      AllStayOut st n (j + 1) ps c'

section Logical

variable {st : MbrSettings} {last : Bool} {p : MbrPartition} {c c' : MbrCursor} {x : MbrPlaced}
  {placed : List MbrPlaced}

theorem readonly_of_placed (hp : PlacedLogical st last p c x c') :
    x.partition.readonly = (unlock_last last p).readonly := by
  rw [hp.partition_eq]

/-- The start is moved by the distance to the next boundary with which the pass began. -/
theorem PlacedLogical.moved_by (hw : 0 < wp_sectors st.toSettings)
    (hp : PlacedLogical st last p c x c') :
    move_logical st (unlock_last last p) (tillBoundary (wp_sectors st.toSettings) c.first_lba)
      c.first_lba c.hash_w.current.end_sector = .ok x.first_lba := by
  obtain ⟨till, htill, hmove⟩ := hp.moved
  have hkb := write_protect_boundary_pos hw
  have heq : till = tillBoundary (wp_sectors st.toSettings) c.first_lba :=
    (return_num_sectors_till_boundary_pos htill (by exact_mod_cast hkb)).2
  rw [← heq]
  exact hmove

/-- A read-only partition is put directly behind the last region, or on a boundary, or inside the
region. -/
theorem readonly_start (hw : 0 < wp_sectors st.toSettings) (hp : PlacedLogical st last p c x c')
    (hro : x.partition.readonly = true) :
    x.first_lba - 1 ≤ c.hash_w.current.end_sector ∨ wp_sectors st.toSettings ∣ x.first_lba := by
  have hmove := hp.moved_by hw
  rw [readonly_of_placed hp] at hro
  rw [move_logical, if_pos hro] at hmove
  split_ifs at hmove with hin
  · left
    have := Except.ok.inj hmove
    omega
  · right
    rw [← Except.ok.inj hmove]
    exact dvd_add_tillBoundary hw

/-- **A writable partition starts past the last region exactly if it stays out**, by the condition
on the cursor before its pass. -/
theorem writable_start (hw : 0 < wp_sectors st.toSettings) (hl : Locking st c placed)
    (hp : PlacedLogical st last p c x c') (hro : x.partition.readonly = false)
    (hsize : 0 < x.sectors) :
    c.hash_w.current.end_sector < x.first_lba ↔ StaysOut st last p c := by
  have hmove := hp.moved_by hw
  rw [readonly_of_placed hp] at hro
  rw [hp.sectors_eq] at hsize
  rw [move_logical, if_neg (by rw [hro]; simp)] at hmove
  have halign : (unlock_last last p).align = p.align := rfl
  rw [halign] at hmove
  have hout : StaysOut st last p c ↔
      if p.align then c.hash_w.current.end_sector < aligned_start st c.first_lba
      else c.hash_w.current.end_sector < c.first_lba ∨
        ¬ wp_sectors st.toSettings ∣ c.first_lba :=
    ⟨fun h => h hro hsize, fun h _ _ => h⟩
  rw [hout]
  split_ifs at hmove ⊢ with ha hin
  · -- moved to a boundary of its own
    split at hmove
    · cases hmove
    · rename_i d hd
      rw [← Except.ok.inj hmove, aligned_start_eq hd]
  · -- inside the region: the next boundary is behind it, unless the start is on one
    rw [← Except.ok.inj hmove]
    have hnear := hl.near
    constructor
    · intro hlt
      right
      intro hdvd
      rw [tillBoundary, Int.emod_eq_zero_of_dvd hdvd] at hlt
      simp only [lt_irrefl, if_false] at hlt
      omega
    · rintro (hlt | hdvd)
      · omega
      · have hne : c.hash_w.current.end_sector + 1 - wp_sectors st.toSettings ≠ c.first_lba := by
          intro heq
          apply hdvd
          rw [← heq]
          exact dvd_sub hl.dvd_end (dvd_refl _)
        rw [add_tillBoundary_eq hw hl.dvd_end (by omega) (by omega)]
        omega
  · have := Except.ok.inj hmove
    constructor
    · intro hlt
      left
      omega
    · intro _
      omega

/-- A pass for a logical partition keeps `Locking`, and what was covered stays covered. -/
theorem locking_step (hw : 0 < wp_sectors st.toSettings) (hsize : 0 ≤ p.size_in_kb)
    (hl : Locking st c placed) (hp : PlacedLogical st last p c x c') :
    Locking st c' (placed ++ [x]) ∧ ∀ s, c.hash_w.Covers s → c'.hash_w.Covers s := by
  have hpos := logical_size_nonneg st last hsize
  have hfirst := hp.first_ge
  have heq := hp.first_eq
  rw [← hp.sectors_eq] at hpos
  cases hro : x.partition.readonly with
  | true =>
    have hu := hp.hash_readonly hro
    refine ⟨(hl.update hw hfirst hpos (readonly_start hw hp hro) hu heq).concat ?_ heq.ge, ?_⟩
    · rintro - s ⟨hlo, hhi⟩
      exact covers_block hw hu (hl.start_le.trans hfirst) hlo hhi
    · intro s hs
      exact covers_mono hw hu hs
  | false =>
    have hhash := hp.hash_writable hro
    refine ⟨(hl.move (by omega) hhash).concat ?_ heq.ge, ?_⟩
    · intro htrue
      rw [hro] at htrue
      cases htrue
    · intro s hs
      rw [hhash]
      exact hs

/-- A pass leaves the writable partitions before it out of the regions. -/
theorem writable_out_kept (hw : 0 < wp_sectors st.toSettings) (hl : Locking st c placed)
    (hp : PlacedLogical st last p c x c') (hout : WritableOut c.hash_w placed) :
    WritableOut c'.hash_w placed := by
  intro y hy hyro s hs hcovers
  cases hro : x.partition.readonly with
  | true =>
    have hlt : s < x.first_lba := (hl.behind y hy s hs).trans_le hp.first_ge
    exact hout y hy hyro s hs (covers_of_lt hw (hp.hash_readonly hro) hlt hcovers)
  | false =>
    rw [hp.hash_writable hro] at hcovers
    exact hout y hy hyro s hs hcovers

/-- A pass for a partition that stays out leaves the writable partitions outside the regions. -/
theorem writable_out_step (hw : 0 < wp_sectors st.toSettings) (hl : Locking st c placed)
    (hp : PlacedLogical st last p c x c') (hout : WritableOut c.hash_w placed)
    (hstay : StaysOut st last p c) : WritableOut c'.hash_w (placed ++ [x]) := by
  intro y hy hro s hs
  rcases List.mem_append.mp hy with hy | hy
  · exact writable_out_kept hw hl hp hout y hy hro s hs
  · rw [List.mem_singleton.mp hy] at hro hs
    obtain ⟨hlo, hhi⟩ := hs
    have hstart := (writable_start hw hl hp hro (by omega)).mpr hstay
    rw [hp.hash_writable hro]
    rintro ⟨r, hr, -, hend⟩
    have := hl.end_le r hr
    omega

/-- A partition that does not stay out starts in the last region. -/
theorem covers_start (hw : 0 < wp_sectors st.toSettings) (hl : Locking st c placed)
    (hp : PlacedLogical st last p c x c') (hstay : ¬ StaysOut st last p c) :
    x.partition.readonly = false ∧ x.first_lba ∈ x.range ∧ c.hash_w.Covers x.first_lba := by
  have hro : x.partition.readonly = false := by
    rw [readonly_of_placed hp]
    by_contra hne
    exact hstay fun h => absurd h hne
  have hsize : 0 < x.sectors := by
    rw [hp.sectors_eq]
    by_contra hne
    exact hstay fun _ h => absurd h hne
  refine ⟨hro, ⟨le_rfl, by omega⟩, _, current_mem _, hl.start_le.trans hp.first_ge, ?_⟩
  by_contra hlt
  exact hstay ((writable_start hw hl hp hro hsize).mp (not_le.mp hlt))

end Logical

section Run

variable {st : MbrSettings} {k n : ℕ} {begins : ℤ}

/-- The rest of the loop keeps `Locking`, appends to the placed partitions, and keeps what was
covered. -/
theorem add_logicals_locking (hw : 0 < wp_sectors st.toSettings) {ps : List MbrPartition} {j : ℕ}
    {s s' : MbrState} (hsize : ∀ p ∈ ps, 0 ≤ p.size_in_kb) (hl : Locking st s.cursor s.placed)
    (h : add_logicals st k n begins j ps s = .ok s') :
    Locking st s'.cursor s'.placed ∧ s.placed <+: s'.placed ∧
      ∀ y, s.cursor.hash_w.Covers y → s'.cursor.hash_w.Covers y := by
  refine add_logicals_invariant (fun _ t => Locking st t.cursor t.placed ∧ s.placed <+: t.placed ∧
    ∀ y, s.cursor.hash_w.Covers y → t.cursor.hash_w.Covers y) ?_
    ⟨hl, List.prefix_refl _, fun _ hy => hy⟩ h
  rintro i p t t' hp ⟨ht, hstart, hcovers⟩ hstep
  obtain ⟨x, c, hplace, -, -, rfl⟩ := add_logical_spec hstep
  obtain ⟨hl', hmono⟩ := locking_step hw (hsize p hp) ht (place_logical_spec hplace)
  exact ⟨hl', hstart.trans (List.prefix_append _ _), fun y hy => hmono y (hcovers y hy)⟩

/-- **The writable partitions end up outside the regions exactly if each stays out.** By induction
over the passes of the loop. -/
theorem writable_out_iff (hw : 0 < wp_sectors st.toSettings) {ps : List MbrPartition} {j : ℕ}
    {s s' : MbrState} (hsize : ∀ p ∈ ps, 0 ≤ p.size_in_kb) (hl : Locking st s.cursor s.placed)
    (hout : WritableOut s.cursor.hash_w s.placed)
    (h : add_logicals st k n begins j ps s = .ok s') :
    WritableOut s'.cursor.hash_w s'.placed ↔ AllStayOut st n j ps s.cursor := by
  induction ps generalizing j s with
  | nil =>
    cases h
    exact iff_of_true hout trivial
  | cons p ps ih =>
    obtain ⟨t, ht, h⟩ := bind_ok h
    obtain ⟨x, c, hplace, -, -, rfl⟩ := add_logical_spec ht
    have hp := place_logical_spec hplace
    have hl' := (locking_step hw (hsize p (by simp)) hl hp).1
    have hps : ∀ q ∈ ps, 0 ≤ q.size_in_kb := fun q hq => hsize q (List.mem_cons_of_mem _ hq)
    have hrest : AllStayOut st n j (p :: ps) s.cursor ↔
        StaysOut st (decide (j + 1 = n)) p s.cursor ∧ AllStayOut st n (j + 1) ps c := by
      rw [AllStayOut]
      refine and_congr_right fun _ => ⟨fun hall => hall x c hplace, fun hone y d hy => ?_⟩
      rw [hplace] at hy
      cases hy
      exact hone
    rw [hrest]
    by_cases hstay : StaysOut st (decide (j + 1 = n)) p s.cursor
    · rw [ih hps hl' (writable_out_step hw hl hp hout hstay) h]
      exact (and_iff_right hstay).symm
    · -- its first sector is locked, and stays so
      refine iff_of_false (fun hwritable => ?_) (fun hall => hstay hall.1)
      obtain ⟨hro, hin, hcovers⟩ := covers_start hw hl hp hstay
      obtain ⟨-, hstart, hmono⟩ := add_logicals_locking hw hps hl' h
      refine hwritable x (hstart.subset (by simp)) hro _ hin (hmono _ ?_)
      rw [hp.hash_writable hro]
      exact hcovers

end Run

/-! ## The whole call

The two kinds of passes put together, from the boot record on. What is locked besides the
read-only partitions are the boot record and the EBRs.
-/

/-- What `emmc_lock_regions.xml` should lock, for a list of `n` partitions: the boot record, the
EBRs and the read-only partitions, and nothing of a writable one, in whole boundaries. -/
structure LocksExactly (st : MbrSettings) (n : ℕ) (out : MbrTables) : Prop where
  mbr : out.hash_w.Covers 0
  ebrs : 4 < n → ∀ i : ℕ, i < n - 3 → out.hash_w.Covers (out.extended_partition_begins + i)
  readonly_in : ∀ x ∈ out.placed, x.partition.readonly = true → ∀ s ∈ x.range, out.hash_w.Covers s
  writable_out : WritableOut out.hash_w out.placed
  whole : ∀ r ∈ out.hash_w.regions, r.Whole (wp_sectors st.toSettings)

/-- The cursor in front of the logical partitions, behind the EBRs. -/
def FirstLogical (st : MbrSettings) (k : ℕ) (ps : List MbrPartition) (c : MbrCursor) : Prop :=
  ∃ s, create_master_boot_record st k ps.length (ps.take 3) = .ok s ∧
    update_wp_hash st.toSettings s.cursor.hash_w s.cursor.first_lba ((ps.drop 3).length : ℤ)
      = .ok c.hash_w ∧
    c.first_lba = s.cursor.first_lba + (ps.drop 3).length ∧
    c.last_lba = s.cursor.last_lba + (ps.drop 3).length

/-- **The regions lock what they should exactly if no logical partition that is written
to starts inside the last one.** -/
theorem locks_exactly_iff (st : MbrSettings) (k : ℕ) (ps : List MbrPartition) (out : MbrTables)
    (hw : 1 ≤ wp_sectors st.toSettings) (hsize : ∀ p ∈ ps, 0 ≤ p.size_in_kb)
    (hout : create_mbr_partition_table st k ps = .ok out) :
    LocksExactly st ps.length out ↔
      (4 < ps.length → ∀ c, FirstLogical st k ps c →
        AllStayOut st ps.length 3 (ps.drop 3) c) := by
  by_cases hn : 4 < ps.length
  · obtain ⟨s, s', hs, hs', rfl⟩ := create_mbr_partition_table_many hn hout
    obtain ⟨hash_w, hu, -, hrun⟩ := create_extended_boot_records_spec hs'
    have hprimary := primary_locking hw (fun p hp => hsize p (List.mem_of_mem_take hp)) hs
    have hrest : ∀ p ∈ ps.drop 3, 0 ≤ p.size_in_kb := fun p hp => hsize p (List.mem_of_mem_drop hp)
    have hl : Locking st (extended_state st k (ps.drop 3).length s hash_w).cursor
        (extended_state st k (ps.drop 3).length s hash_w).placed :=
      hprimary.locking.update hw le_rfl (by omega) (Or.inl hprimary.reached) hu rfl
    have hnone : WritableOut hash_w s.placed := by
      intro x hx hro
      rw [hprimary.all_readonly x hx] at hro
      cases hro
    have hiff := writable_out_iff hw hrest hl hnone hrun
    obtain ⟨hl', -, hmono⟩ := add_logicals_locking hw hrest hl hrun
    -- there is one first logical cursor
    have hcond : (4 < ps.length → ∀ c, FirstLogical st k ps c →
        AllStayOut st ps.length 3 (ps.drop 3) c) ↔ AllStayOut st ps.length 3 (ps.drop 3)
          (extended_state st k (ps.drop 3).length s hash_w).cursor := by
      constructor
      · intro hall
        exact hall hn _ ⟨s, hs, hu, rfl, rfl⟩
      · rintro hall - c ⟨t, ht, hc, hfirst, hlast⟩
        rw [hs] at ht
        cases ht
        rw [hu] at hc
        have hc' : c = (extended_state st k (ps.drop 3).length s hash_w).cursor := by
          cases c
          simp only [extended_state, MbrCursor.mk.injEq]
          exact ⟨hfirst, hlast, (Except.ok.inj hc).symm⟩
        rw [hc']
        exact hall
    rw [hcond, ← hiff]
    refine ⟨fun h => h.writable_out, fun h => ⟨?_, ?_, hl'.readonly_in, h, hl'.whole⟩⟩
    · exact hmono 0 (covers_mono hw hu hprimary.covers_mbr)
    · intro _ i hi
      refine hmono _ (covers_block hw hu hprimary.locking.start_le (by dsimp only; omega) ?_)
      rw [List.length_drop]
      dsimp only
      omega
  · -- at most four partitions are all primary
    obtain ⟨s, hs, hplaced, hhash⟩ := create_mbr_partition_table_few (by omega) hout
    have hprimary := primary_locking hw hsize hs
    refine iff_of_true ⟨?_, fun h => absurd h hn, ?_, ?_, ?_⟩ fun h => absurd h hn
    · rw [hhash]
      exact hprimary.covers_mbr
    · rw [hhash, hplaced]
      exact hprimary.locking.readonly_in
    · intro x hx hro
      rw [hplaced] at hx
      rw [hprimary.all_readonly x hx] at hro
      cases hro
    · rw [hhash]
      exact hprimary.locking.whole

/-! ## Five partitions

Five partitions, of which the first logical one has `align="true"` and is written to. The
condition applies to the call, and what it locks is not what it should.
-/

theorem locks_exactly_five :
    ∃ out, create_mbr_partition_table (mbr_settings 4) 0 aligned_logical = .ok out ∧
      (LocksExactly (mbr_settings 4) 5 out ↔
        (4 < 5 → ∀ c, FirstLogical (mbr_settings 4) 0 aligned_logical c →
          AllStayOut (mbr_settings 4) 5 3 (aligned_logical.drop 3) c)) := by
  obtain ⟨out, hout, -⟩ := create_aligned_logical
  exact ⟨out, hout, locks_exactly_iff _ 0 aligned_logical out (by decide) (by decide) hout⟩

/-- The aligned partition of this list is written to, and is locked. -/
theorem not_locks_exactly_aligned :
    ∃ out, create_mbr_partition_table (mbr_settings 4) 0 aligned_logical = .ok out ∧
      ¬ LocksExactly (mbr_settings 4) 5 out := by
  obtain ⟨out, hout, -, hplaced, hregion⟩ := create_aligned_logical
  obtain ⟨x, hx, hx'⟩ := List.mem_map.mp (show (false, (16 : ℤ), (2 : ℤ)) ∈ out.placed.map
    (fun x => (x.partition.readonly, x.first_lba, x.sectors)) by rw [hplaced]; decide)
  obtain ⟨hro, hfirst, hsectors⟩ : x.partition.readonly = false ∧ x.first_lba = 16 ∧
      x.sectors = 2 := by
    simpa using hx'
  refine ⟨out, hout, fun h => h.writable_out x hx hro 16 ⟨hfirst.le, by omega⟩ ?_⟩
  refine ⟨_, current_mem _, ?_, ?_⟩
  · rw [(Prod.mk.inj hregion).1]
    decide
  · rw [(Prod.mk.inj hregion).2]
    decide

end AndroidTools.Ptool
