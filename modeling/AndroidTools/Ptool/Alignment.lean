/-
What becomes of the performance boundary.

A pass moves `FirstLBA` up to the performance boundary of its partition, and may then move it a
second time for the write protection. The second move goes by `SectorsTillNextBoundary`. With a
write-protect boundary that is the distance to it, and the partition stays aligned if its own
boundary divides the one it is moved to; sectors make this fail where kilobytes would not. Without
one the variable still holds the distance of the first move, and a readonly partition is moved by
it again.

`performance_alignment_iff` is the exact condition, along the passes of the layout, and
`aligned_with_write_protect` a condition on the settings alone that is enough for it. The example
at the end is a list with one readonly partition, which is moved twice.
-/
import AndroidTools.Ptool.GptImage

set_option autoImplicit false

namespace AndroidTools.Ptool

open AndroidTools.Boundary AndroidTools.Passes

/-- The performance boundary of a partition in sectors. -/
def performance_sectors (st : Settings) (p : Partition) : ℤ :=
  convert_kb_to_sectors st p.performance_boundary_in_kb

/-- `FirstLBA` after it was moved up to the performance boundary of the partition. -/
def aligned_first_lba (st : Settings) (p : Partition) (c : Cursor) : ℤ :=
  c.first_lba + tillBoundary (performance_sectors st p) c.first_lba

/-- A partition at `first_lba` is moved a second time, for the write protection: a readonly one
behind the last region, and a writable one that would start in it. -/
def MovesAgain (p : Partition) (h : WPHash) (first_lba : ℤ) : Prop :=
  p.readonly = true ∧ h.current.end_sector < first_lba ∨
    p.readonly = false ∧ first_lba ≤ h.current.end_sector

instance (p : Partition) (h : WPHash) (first_lba : ℤ) : Decidable (MovesAgain p h first_lba) :=
  inferInstanceAs (Decidable (_ ∨ _))

/-- What the second move of a pass that begins at `c` does to the alignment: if there is one, it
goes to a multiple of the performance boundary, or the first move was none. -/
def KeepsAlignment (st : Settings) (p : Partition) (c : Cursor) : Prop :=
  MovesAgain p c.hash_w (aligned_first_lba st p c) →
    if 0 < st.write_protect_boundary_in_kb then
      performance_sectors st p ∣
        aligned_first_lba st p c + tillBoundary (wp_sectors st) (aligned_first_lba st p c)
    else performance_sectors st p ∣ c.first_lba

/-- The cursors before the passes of the loop, as far as it comes. -/
def pass_cursors (st : Settings) (n : ℕ) : ℕ → List Partition → Cursor → List Cursor
  | _, [], _ => []
  | j, p :: ps, c =>
    c :: match place_partition st (decide (j + 1 = n)) p c with
      | .ok c' => pass_cursors st n (j + 1) ps (next_partition c')
      | .error _ => []

/-! ## One pass

A pass moves the cursor twice, first to the performance boundary and then for the write
protection. The result is aligned exactly if the second move keeps what the first one has
reached, which is a condition on the cursor before the pass.
-/

theorem move_first_lba_eq (p : Partition) (c : Cursor) :
    (move_first_lba p c).first_lba
      = if MovesAgain p c.hash_w c.first_lba then c.first_lba + c.sectors_till_next_boundary
        else c.first_lba := by
  unfold move_first_lba
  by_cases hro : p.readonly = true
  · rw [if_pos hro]
    by_cases hcovered : c.first_lba ≤ c.hash_w.current.end_sector
    · rw [if_pos hcovered, if_neg (by simp [MovesAgain, hro, hcovered])]
    · rw [if_neg hcovered, if_pos (.inl ⟨hro, not_le.mp hcovered⟩)]
  · have hwritable : p.readonly = false := Bool.eq_false_iff.mpr hro
    rw [if_neg hro]
    by_cases hcovered : c.first_lba ≤ c.hash_w.current.end_sector
    · rw [if_pos hcovered, if_pos (.inr ⟨hwritable, hcovered⟩)]
    · rw [if_neg hcovered, if_neg (by simp [MovesAgain, hwritable, hcovered])]

section Pass

variable {st : Settings} {last : Bool} {p : Partition} {c c' : Cursor}

/-- The moves of a pass with alignment: to the performance boundary, and then by the distance to
the write-protect boundary or, without one, by the first distance again. -/
theorem place_partition_first (halign : st.align_partitions_to_performance_boundary = true)
    (hperf : 0 < p.performance_boundary_in_kb) (h : place_partition st last p c = .ok c') :
    0 < performance_sectors st p ∧
      (0 < st.write_protect_boundary_in_kb → 0 < wp_sectors st) ∧
      c'.first_lba
        = if MovesAgain p c.hash_w (aligned_first_lba st p c) then
            aligned_first_lba st p c
              + if 0 < st.write_protect_boundary_in_kb then
                  tillBoundary (wp_sectors st) (aligned_first_lba st p c)
                else tillBoundary (performance_sectors st p) c.first_lba
          else aligned_first_lba st p c := by
  obtain ⟨c₁, c₂, w, h₁, h₂, hc', -, -⟩ := place_partition_steps h
  have hfirst : c'.first_lba = (move_first_lba p c₂).first_lba := by rw [hc']
  -- the first move
  obtain ⟨hpos, rfl⟩ : 0 < performance_sectors st p ∧
      c₁ = { c with
        sectors_till_next_boundary := tillBoundary (performance_sectors st p) c.first_lba
        first_lba := aligned_first_lba st p c } := by
    unfold align_to_performance_boundary at h₁
    rw [if_pos halign] at h₁
    split at h₁
    · cases h₁
    · rename_i d hd
      obtain ⟨hpos, rfl⟩ := return_num_sectors_till_boundary_pos hd hperf
      cases h₁
      exact ⟨hpos, rfl⟩
  -- the distance of the second
  obtain ⟨hfirst₂, -, hhash₂, hwp, hno⟩ := measure_write_protect_boundary_spec h₂
  refine ⟨hpos, fun hkb => (hwp hkb).1, ?_⟩
  rw [hfirst, move_first_lba_eq, hfirst₂, hhash₂]
  by_cases hkb : 0 < st.write_protect_boundary_in_kb
  · rw [if_pos hkb, (hwp hkb).2]
  · rw [if_neg hkb, hno (Nat.eq_zero_of_not_pos hkb)]

/-- A partition is aligned exactly if its second move keeps the alignment. -/
theorem aligned_iff (halign : st.align_partitions_to_performance_boundary = true)
    (hperf : 0 < p.performance_boundary_in_kb) (h : place_partition st last p c = .ok c') :
    performance_sectors st p ∣ c'.first_lba ↔ KeepsAlignment st p c := by
  obtain ⟨hpos, -, hfirst⟩ := place_partition_first halign hperf h
  have haligned : performance_sectors st p ∣ aligned_first_lba st p c :=
    dvd_add_tillBoundary hpos
  rw [hfirst, KeepsAlignment]
  by_cases hmoves : MovesAgain p c.hash_w (aligned_first_lba st p c)
  · rw [if_pos hmoves, forall_prop_of_true hmoves]
    by_cases hkb : 0 < st.write_protect_boundary_in_kb
    · rw [if_pos hkb, if_pos hkb]
    · -- the same distance again
      rw [if_neg hkb, if_neg hkb, Int.dvd_add_right haligned]
      exact (Int.dvd_iff_dvd_of_dvd_add haligned).symm
  · rw [if_neg hmoves]
    exact iff_of_true haligned fun h => absurd h hmoves

end Pass

/-! ## The run

The passes of a completed layout and the ranges it leaves are in one to one correspondence,
each pass with the cursor it begins at. So a statement about all partitions is one about all
passes.
-/

/-- Each range of the layout comes from a pass, and that began at its cursor. -/
theorem layout_pass {st : Settings} {n : ℕ} {ps : List Partition} {j : ℕ} {c c' : Cursor}
    {xs : List Extent} (h : layout_partitions st n j ps c = .ok (c', xs)) {i : ℕ} {p : Partition}
    {x : Extent} (hp : ps[i]? = some p) (hx : xs[i]? = some x) :
    ∃ d d' last, (pass_cursors st n j ps c)[i]? = some d ∧
      place_partition st last p d = .ok d' ∧ x = d'.extent := by
  induction ps generalizing i j c xs with
  | nil => cases hp
  | cons q ps ih =>
    rw [layout_partitions] at h
    obtain ⟨d', hplace, h⟩ := bind_ok h
    obtain ⟨⟨c'', ys⟩, hrest, h⟩ := bind_ok h
    cases h
    rw [pass_cursors, hplace]
    cases i with
    | zero =>
      cases hp
      cases hx
      exact ⟨c, d', _, rfl, hplace, rfl⟩
    | succ i =>
      rw [List.getElem?_cons_succ] at hp hx ⊢
      exact ih hrest hp hx

/-- Each pass of a completed layout leaves one range. -/
theorem layout_range {st : Settings} {n : ℕ} {ps : List Partition} {j : ℕ} {c c' : Cursor}
    {xs : List Extent} (h : layout_partitions st n j ps c = .ok (c', xs)) :
    xs.length = ps.length := by
  induction ps generalizing j c xs with
  | nil =>
    cases h
    rfl
  | cons q ps ih =>
    rw [layout_partitions] at h
    obtain ⟨d', -, h⟩ := bind_ok h
    obtain ⟨⟨c'', ys⟩, hrest, h⟩ := bind_ok h
    cases h
    rw [List.length_cons, List.length_cons, ih hrest]

/-- Every partition of a layout is aligned exactly if every pass keeps the alignment. -/
theorem layout_aligned_iff {st : Settings}
    (halign : st.align_partitions_to_performance_boundary = true) {n : ℕ} {ps : List Partition}
    {c c' : Cursor} {xs : List Extent} (h : layout_partitions st n 0 ps c = .ok (c', xs)) :
    (∀ (j : ℕ) p x, ps[j]? = some p → xs[j]? = some x → 0 < p.performance_boundary_in_kb →
        performance_sectors st p ∣ x.first_lba) ↔
      ∀ (j : ℕ) p d, ps[j]? = some p → (pass_cursors st n 0 ps c)[j]? = some d →
        0 < p.performance_boundary_in_kb → KeepsAlignment st p d := by
  constructor
  · intro haligned j p d hp hd hperf
    have hj : j < xs.length := by
      rw [layout_range h]
      exact (List.getElem?_eq_some_iff.mp hp).1
    have hx := List.getElem?_eq_getElem hj
    obtain ⟨d', c'', last, hd', hplace, hextent⟩ := layout_pass h hp hx
    obtain rfl : d' = d := Option.some.inj (hd'.symm.trans hd)
    refine (aligned_iff halign hperf hplace).mp ?_
    have hdvd := haligned j p _ hp hx hperf
    rwa [hextent] at hdvd
  · intro hkeeps j p x hp hx hperf
    obtain ⟨d, c'', last, hd, hplace, rfl⟩ := layout_pass h hp hx
    exact (aligned_iff halign hperf hplace).mpr (hkeeps j p d hp hd hperf)

/-- With a write-protect boundary of whole performance boundaries, in whole sectors, the second
move loses nothing. -/
theorem keeps_alignment_of_dvd {st : Settings} {p : Partition} (c : Cursor)
    (hkb : 0 < st.write_protect_boundary_in_kb) (hw : 0 < wp_sectors st)
    (hdvd : p.performance_boundary_in_kb ∣ st.write_protect_boundary_in_kb)
    (hwhole : (st.sector_size_in_bytes : ℤ) ∣ p.performance_boundary_in_kb * 1024) :
    KeepsAlignment st p c := by
  intro _
  rw [if_pos hkb]
  refine Int.dvd_trans ?_ (dvd_add_tillBoundary hw)
  obtain ⟨m, hm⟩ := hdvd
  obtain ⟨q, hq⟩ := hwhole
  have hs : (st.sector_size_in_bytes : ℤ) ≠ 0 := by
    have := st.sector_size_pos
    omega
  -- neither conversion loses a part of a sector
  have hperf : performance_sectors st p = q := by
    rw [performance_sectors, convert_kb_to_sectors, hq, Int.mul_ediv_cancel_left _ hs]
  have hsectors : wp_sectors st = q * m := by
    have hbytes : (st.write_protect_boundary_in_kb : ℤ) * 1024
        = st.sector_size_in_bytes * (q * m) := by
      rw [hm, ← Int.mul_assoc, ← hq]
      ring
    rw [wp_sectors, convert_kb_to_sectors, hbytes, Int.mul_ediv_cancel_left _ hs]
  rw [hperf, hsectors]
  exact Int.dvd_mul_right q m

/-- With a write-protect boundary that every performance boundary divides, in whole sectors, every
partition is aligned. -/
theorem aligned_with_write_protect {st : Settings} {k : ℕ} {ps : List Partition} {rand : ℕ → ℕ}
    {out : GptTables} (halign : st.align_partitions_to_performance_boundary = true)
    (hw : 0 < wp_sectors st)
    (hdvd : ∀ p ∈ ps, p.performance_boundary_in_kb ∣ st.write_protect_boundary_in_kb)
    (hwhole : ∀ p ∈ ps, (st.sector_size_in_bytes : ℤ) ∣ p.performance_boundary_in_kb * 1024)
    (hout : create_gpt_partition_table st k ps rand = .ok out) {j : ℕ} {p : Partition}
    {x : Extent} (hp : ps[j]? = some p) (hx : out.placed[j]? = some x)
    (hperf : 0 < p.performance_boundary_in_kb) : performance_sectors st p ∣ x.first_lba := by
  obtain ⟨h, c, -, hlayout, -⟩ := create_gpt_partition_table_layout hout
  have hmem := List.mem_of_getElem? hp
  have hkb : 0 < st.write_protect_boundary_in_kb := by
    by_contra h0
    rw [wp_sectors, Nat.eq_zero_of_not_pos h0, Nat.cast_zero, convert_kb_to_sectors_zero] at hw
    omega
  refine (layout_aligned_iff halign hlayout).mpr ?_ j p x hp hx hperf
  intro i q d hq _ _
  have hq := List.mem_of_getElem? hq
  exact keeps_alignment_of_dvd d hkb hw (hdvd q hq) (hwhole q hq)

/-- **Every partition is on its performance boundary exactly if no second move loses it.** The
condition is on the cursor before each pass: where the first move leads, whether a second one
follows, and by how much. -/
theorem performance_alignment_iff (st : Settings) (k : ℕ) (ps : List Partition) (rand : ℕ → ℕ)
    (out : GptTables) (halign : st.align_partitions_to_performance_boundary = true)
    (hash_w : WPHash) (hhash : starting_wp_hash st = .ok hash_w)
    (hout : create_gpt_partition_table st k ps rand = .ok out) :
    (∀ (j : ℕ) p x, ps[j]? = some p → out.placed[j]? = some x →
        0 < p.performance_boundary_in_kb → performance_sectors st p ∣ x.first_lba) ↔
      ∀ (j : ℕ) p c, ps[j]? = some p →
        (pass_cursors st ps.length 0 ps ⟨34, 34, 0, hash_w⟩)[j]? = some c →
        0 < p.performance_boundary_in_kb → KeepsAlignment st p c := by
  obtain ⟨h, c, hstart, hlayout, -⟩ := create_gpt_partition_table_layout hout
  obtain rfl : hash_w = h := Except.ok.inj (hhash.symm.trans hstart)
  exact layout_aligned_iff halign hlayout

/-- Settings with alignment and no write-protect boundary. -/
def aligned_settings : Settings :=
  { default_settings with
    write_protect_boundary_in_kb := 0, grow_last_partition_to_fill_disk := false
    align_partitions_to_performance_boundary := true }

/-- A partition of 64 KB on a boundary of 64 KB. -/
def aligned_partition (readonly : Bool) : Partition :=
  { default_partition 0xEBD0A0A2 with
    size_in_kb := 64, readonly := readonly, performance_boundary_in_kb := 64 }

theorem aligned_run (readonly : Bool) : ∃ out,
    create_gpt_partition_table aligned_settings 0 [aligned_partition readonly] (fun j => j)
      = .ok out := by
  refine create_gpt_partition_table_total (by decide) 0 _ ⟨?_, ?_, ?_⟩
    (show 1 ≤ 128 by decide) ?_
  · exact fun _ => rfl
  · exact fun h => absurd h (by decide)
  · intro p hp _
    rw [List.mem_singleton.mp hp]
    exact (by decide : (0 : ℤ) < 64 * 1024 / 512)
  · intro p hp
    rw [List.mem_singleton.mp hp]
    exact (by decide : (short_label (default_partition 0)).all (·.toNat < 256) = true)

theorem performance_alignment_writable : ∃ out,
    create_gpt_partition_table aligned_settings 0 [aligned_partition false] (fun j => j) = .ok out ∧
      ((∀ (j : ℕ) p x, [aligned_partition false][j]? = some p → out.placed[j]? = some x →
          0 < p.performance_boundary_in_kb → performance_sectors aligned_settings p ∣ x.first_lba) ↔
        ∀ (j : ℕ) p c, [aligned_partition false][j]? = some p →
          (pass_cursors aligned_settings 1 0 [aligned_partition false]
            ⟨34, 34, 0, ⟨[], ⟨0, 0, 0, 0, 0, 0⟩⟩⟩)[j]? = some c →
          0 < p.performance_boundary_in_kb → KeepsAlignment aligned_settings p c) := by
  obtain ⟨out, hout⟩ := aligned_run false
  exact ⟨out, hout, performance_alignment_iff aligned_settings 0 [aligned_partition false] _ out
    rfl _ rfl hout⟩

/-- A readonly partition goes from sector 34 to 128, and by the same 94 sectors to 222. -/
theorem readonly_not_aligned : ∃ out x,
    create_gpt_partition_table aligned_settings 0 [aligned_partition true] (fun j => j) = .ok out ∧
      out.placed[0]? = some x ∧
      ¬ performance_sectors aligned_settings (aligned_partition true) ∣ x.first_lba := by
  obtain ⟨out, hout⟩ := aligned_run true
  have heval : layout_partitions aligned_settings 1 0 [aligned_partition true]
      ⟨34, 34, 0, ⟨[], ⟨0, 0, 0, 0, 0, 0⟩⟩⟩
      = .ok (⟨350, 350, 94, ⟨[], ⟨0, 0, 0, 0, 0, 0⟩⟩⟩, [⟨222, 349⟩]) := rfl
  refine ⟨out, ⟨222, 349⟩, hout, ?_, by decide⟩
  rw [placed_of_layout hout rfl heval]
  rfl

end AndroidTools.Ptool
